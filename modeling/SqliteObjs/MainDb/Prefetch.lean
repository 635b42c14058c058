import SqliteObjs.MainDb.Coalesce
import SqliteObjs.MainDb.ParallelRead
import SqliteObjs.MainDb.PartialWrite

/-!
# The missing pages of a lazy file

`prefetchInvalidPages` looks for pages without a mark while it sets marks. The marks it sets
are those of the run it has just fetched, so the loop does the runs of the bitmap it started
with, one after the other (`prefetchInvalidPages_eq`). What the runs are is a question about
bitmaps, and what fetching them does a question about one run.

The reads are those of the client's table, whatever it takes to answer one: `CacheEnv` says
what a read and a write of the cache file do, and nothing about how often either fails.
-/

set_option autoImplicit false

namespace SqliteObjs

open Data CS CS.Program

/-! ## Runs of a bitmap -/

theorem scanWhile_true (f : Nat → Bool) : ∀ n i j, i ≤ j → j < scanWhile f n i → f j = true
  | 0, i, j, hi, hj => by
    rw [scanWhile] at hj
    omega
  | n + 1, i, j, hi, hj => by
    rw [scanWhile] at hj
    split at hj
    · next hf =>
      by_cases he : j = i
      · rw [he]
        exact hf
      · exact scanWhile_true f n (i + 1) j (by omega) hj
    · omega

/-- The scan stops at its bound, or where `f` fails. -/
theorem scanWhile_stop (f : Nat → Bool) : ∀ n i, scanWhile f n i < i + n →
    f (scanWhile f n i) = false
  | 0, i, h => by
    rw [scanWhile] at h
    omega
  | n + 1, i, h => by
    rw [scanWhile] at h ⊢
    split
    · next hf =>
      rw [if_pos hf] at h
      exact scanWhile_stop f n (i + 1) (by omega)
    · next hf => exact Bool.not_eq_true _ ▸ hf

theorem scanWhile_congr {f g : Nat → Bool} : ∀ n i, (∀ j, i ≤ j → f j = g j) →
    scanWhile f n i = scanWhile g n i
  | 0, _, _ => rfl
  | n + 1, i, h => by
    unfold scanWhile
    rw [h i (Nat.le_refl _), scanWhile_congr n (i + 1) fun j hj => h j (by omega)]

/-- The runs of pages without a mark below `nPages`, from page `i` on; `n` bounds the rounds. -/
def holeRuns (bm : Bitmap) (nPages : Nat) : Nat → Nat → List (Nat × Nat)
  | 0, _ => []
  | n + 1, i =>
    if nPages ≤ i then []
    else if bm.bit i then holeRuns bm nPages n (i + 1)
    else
      let rangeEnd := scanWhile (fun j => !bm.bit j) (nPages - i) i
      (i, rangeEnd) :: holeRuns bm nPages n rangeEnd

section HoleRuns

variable {bm : Bitmap} {nPages : Nat}

/-- A run from page `i` on that cannot be made longer. -/
structure IsRun (bm : Bitmap) (nPages i : Nat) (r : Nat × Nat) : Prop where
  start : i ≤ r.1
  lt : r.1 < r.2
  le : r.2 ≤ nPages
  clear : ∀ k, r.1 ≤ k → k < r.2 → bm.bit k = false
  stop : r.2 < nPages → bm.bit r.2 = true
  before : r.1 = i ∨ bm.bit (r.1 - 1) = true

/-- The run the scan finds at a page without a mark. -/
theorem isRun_scanWhile {i : Nat} (hi : i < nPages) (hbit : bm.bit i = false) :
    IsRun bm nPages i (i, scanWhile (fun j => !bm.bit j) (nPages - i) i) := by
  obtain ⟨-, hle, hlt⟩ := scanWhile_spec (fun j => !bm.bit j) (nPages - i) i
  refine ⟨Nat.le_refl _, hlt (by omega) (by simpa using hbit), by dsimp only; omega,
    fun k h₁ h₂ => ?_, fun h => ?_, Or.inl rfl⟩
  · simpa using scanWhile_true _ _ _ k h₁ h₂
  · simpa using scanWhile_stop (fun j => !bm.bit j) (nPages - i) i (by dsimp only at h; omega)

theorem isRun_of_mem : ∀ (n i : Nat) (r : Nat × Nat), r ∈ holeRuns bm nPages n i →
    IsRun bm nPages i r
  | 0, _, _, h => absurd h List.not_mem_nil
  | n + 1, i, r, h => by
    unfold holeRuns at h
    split at h
    · exact absurd h List.not_mem_nil
    next hi =>
    split at h
    · next hbit =>
      have hr := isRun_of_mem n (i + 1) r h
      refine ⟨by have := hr.start; omega, hr.lt, hr.le, hr.clear, hr.stop, ?_⟩
      rcases hr.before with hs | hs
      · exact Or.inr (by rw [hs]; exact hbit)
      · exact Or.inr hs
    next hbit =>
    have hclear : bm.bit i = false := Bool.not_eq_true _ ▸ hbit
    have hhead := isRun_scanWhile (show i < nPages by omega) hclear
    rcases List.mem_cons.mp h with rfl | h
    · exact hhead
    -- a later run does not start at the page that ended this one
    have hr := isRun_of_mem n _ r h
    have hlt := hhead.lt
    have hstart := hr.start
    refine ⟨by dsimp only at hlt; omega, hr.lt, hr.le, hr.clear, hr.stop, ?_⟩
    rcases hr.before with hs | hs
    · have hset := hhead.stop (by dsimp only; rw [← hs]; exact Nat.lt_of_lt_of_le hr.lt hr.le)
      dsimp only at hset
      rw [← hs, hr.clear _ (Nat.le_refl _) hr.lt] at hset
      exact absurd hset (by decide)
    · exact Or.inr hs

/-- The runs come in order. -/
theorem pairwise_holeRuns : ∀ n i : Nat,
    (holeRuns bm nPages n i).Pairwise fun r r' => r.2 ≤ r'.1
  | 0, _ => .nil
  | n + 1, i => by
    unfold holeRuns
    split
    · exact .nil
    split
    · exact pairwise_holeRuns n (i + 1)
    · exact List.pairwise_cons.mpr
        ⟨fun r hr => (isRun_of_mem n _ r hr).start, pairwise_holeRuns n _⟩

/-- Every page without a mark is in a run, if there are rounds enough. -/
theorem exists_mem_holeRuns {k : Nat} (hk : k < nPages) (hbit : bm.bit k = false) :
    ∀ n i : Nat, nPages ≤ i + n → i ≤ k → ∃ r ∈ holeRuns bm nPages n i, r.1 ≤ k ∧ k < r.2
  | 0, i, hn, hi => by omega
  | n + 1, i, hn, hi => by
    unfold holeRuns
    rw [if_neg (by omega)]
    split
    · next hset =>
      have hne : i ≠ k := fun h => by rw [h, hbit] at hset; exact absurd hset (by decide)
      exact exists_mem_holeRuns hk hbit n (i + 1) (by omega) (by omega)
    next hunset =>
    have hclear : bm.bit i = false := Bool.not_eq_true _ ▸ hunset
    have hlt := (isRun_scanWhile (show i < nPages by omega) hclear).lt
    dsimp only at hlt ⊢
    generalize scanWhile (fun j => !bm.bit j) (nPages - i) i = rangeEnd at hlt ⊢
    by_cases hin : k < rangeEnd
    · exact ⟨_, List.mem_cons_self, hi, hin⟩
    · obtain ⟨r, hr, h⟩ := exists_mem_holeRuns hk hbit n rangeEnd (by omega) (by omega)
      exact ⟨r, List.mem_cons_of_mem _ hr, h⟩

end HoleRuns

/-! ## The loop does the runs -/

/-- What the loop does at a run `[rangeStart, rangeEnd)`. -/
def fetchRun (p : ObjsFile) (fd : Fd) (rangeStart rangeEnd : Nat) : Prog (ObjsFile × Rc) := do
  let startOffset := rangeStart * p.pageSize
  let fetchLen := min (rangeEnd * p.pageSize) p.nData - startOffset
  let rbuf ← azPageBlobRead p.blob startOffset fetchLen
  if rbuf.err ≠ .ok then return (p, .ioerrRead)
  else if rbuf.body.size = 0 then return (p, .ioerrRead)
  else storeFetched p fd startOffset (rbuf.body.slice 0 fetchLen)

/-- Fetch runs in order, until one fails. -/
def fetchRuns (fd : Fd) : List (Nat × Nat) → ObjsFile → Prog (ObjsFile × Rc)
  | [], p => return (p, .ok)
  | r :: runs, p => do
    let (p, rc) ← fetchRun p fd r.1 r.2
    if rc ≠ .ok then return (p, rc) else fetchRuns fd runs p

section Marks

variable {p : ObjsFile}

theorem cInt_toNat_lt (n : Int) : (cInt n).toNat < 2 ^ 31 := by
  have h : cInt n < 2 ^ 31 := by
    have := Int.bmod_lt (x := n) (m := 2 ^ 32) (by decide)
    unfold cInt
    omega
  omega

theorem pageCount_of_lt {n ps : Nat} (h : pagesOf n ps < 2 ^ 31) : pageCount n ps = pagesOf n ps :=
  cInt_of_lt h

/-- The page count of the loop is not more than the number of pages. -/
theorem pageCount_toNat_le (n ps : Nat) : (pageCount n ps).toNat ≤ pagesOf n ps := by
  by_cases h : pagesOf n ps < 2 ^ 31
  · rw [pageCount_of_lt h, Int.toNat_natCast]
  · have := cInt_toNat_lt (pagesOf n ps)
    have heq : pageCount n ps = cInt (pagesOf n ps) := rfl
    rw [heq]
    omega

/-- The pages of a run, clipped to the file. -/
theorem pagesOf_run {n ps s e : Nat} (hps : 0 < ps) (hse : s < e) (he : e ≤ pagesOf n ps) :
    s * ps < n ∧ s * ps < min (e * ps) n ∧ pagesOf (min (e * ps) n) ps = e := by
  have hstart := mul_lt_of_lt_pagesOf hps (n := n) (k := s) (by omega)
  have hlast := mul_lt_of_lt_pagesOf hps (n := n) (k := e - 1) (by omega)
  have hmul : (s + 1) * ps ≤ e * ps := Nat.mul_le_mul_right _ hse
  have hmul' : (e - 1 + 1) * ps = e * ps := by rw [Nat.sub_add_cancel (by omega)]
  rw [Nat.succ_mul] at hmul hmul'
  refine ⟨hstart, by omega, Nat.le_antisymm ((pagesOf_le_iff hps).mpr (Nat.min_le_left _ _)) ?_⟩
  have := div_lt_pagesOf hps (n := min (e * ps) n) (j := (e - 1) * ps) (by omega)
  rw [Nat.mul_div_cancel _ hps] at this
  omega

/-- The bytes of the pages of a run. -/
theorem mem_run_iff {n ps s e j : Nat} (hps : 0 < ps) (hj : j < n) :
    (s * ps ≤ j ∧ j < min (e * ps) n) ↔ (s ≤ j / ps ∧ j / ps < e) := by
  rw [Nat.le_div_iff_mul_le hps, Nat.div_lt_iff_lt_mul hps]
  omega

/-- The marks a stored range of pages sets. -/
theorem bit_validMarkRange_of_lt {s e : Nat} (hps : 0 < p.pageSize) (hs : s / p.pageSize < 2 ^ 31)
    (he : pagesOf e p.pageSize < 2 ^ 31) (k : Nat) : (validMarkRange p s e).valid.bit k =
      (p.valid.bit k || (decide (s / p.pageSize ≤ k ∧ k < pagesOf e p.pageSize) &&
        decide (k / 8 < p.valid.nAlloc))) := by
  unfold validMarkRange
  rw [if_neg (by omega), cInt_of_lt hs, pageCount_of_lt he]
  exact Bitmap.bit_setRange _ _ _ _

/-- The marks of a run that was fetched completely. -/
theorem bit_validMarkRange_run {s e : Nat} (hps : 0 < p.pageSize) (hse : s < e)
    (he : e ≤ pagesOf p.nData p.pageSize) (hlt : e < 2 ^ 31) (k : Nat) :
    (validMarkRange p (s * p.pageSize) (min (e * p.pageSize) p.nData)).valid.bit k =
      (p.valid.bit k || (decide (s ≤ k ∧ k < e) && decide (k / 8 < p.valid.nAlloc))) := by
  obtain ⟨-, -, hpages⟩ := pagesOf_run hps hse he
  have hdiv := Nat.mul_div_cancel s hps
  rw [bit_validMarkRange_of_lt hps (by omega) (by omega), hpages, hdiv]

/-- Marks are set in the run only, however much of it was stored. -/
theorem bit_validMarkRange_ge {s e n k : Nat} (hps : 0 < p.pageSize) (hlt : e < 2 ^ 31)
    (hn : n ≤ e * p.pageSize) (hs : s < e) (hk : e ≤ k) :
    (validMarkRange p (s * p.pageSize) n).valid.bit k = p.valid.bit k := by
  have hpages : pagesOf n p.pageSize ≤ e := (pagesOf_le_iff hps).mpr hn
  have hdiv := Nat.mul_div_cancel s hps
  rw [bit_validMarkRange_of_lt hps (by omega) (by omega), hdiv]
  simp only [show ¬ (s ≤ k ∧ k < pagesOf n p.pageSize) by omega, decide_false, Bool.false_and,
    Bool.or_false]

end Marks

/-- While it fetches, the loop sees from page `i` on the bitmap it started with. -/
theorem prefetchFrom_eq {bm : Bitmap} {fd : Fd} {nPages : Nat} (hlt : nPages < 2 ^ 31) :
    ∀ (n i : Nat) (p : ObjsFile), (∀ k, i ≤ k → p.valid.bit k = bm.bit k) → 0 < p.pageSize →
      nPages ≤ pagesOf p.nData p.pageSize →
      prefetchFrom p fd nPages n i = fetchRuns fd (holeRuns bm nPages n i) p
  | 0, _, _, _, _, _ => rfl
  | n + 1, i, p, hbits, hps, hpages => by
    unfold prefetchFrom holeRuns
    by_cases hi : nPages ≤ i
    · rw [if_pos hi, if_pos hi]
      rfl
    rw [if_neg hi, if_neg hi, Bitmap.testBit_eq, hbits i (Nat.le_refl _)]
    cases hbit : bm.bit i with
    | true =>
      rw [if_pos rfl, if_pos rfl]
      exact prefetchFrom_eq hlt n (i + 1) p (fun k hk => hbits k (by omega)) hps hpages
    | false =>
      have hscan : scanWhile (fun j => !bitmapTestBit p.valid j) (nPages - i) i =
          scanWhile (fun j => !bm.bit j) (nPages - i) i :=
        scanWhile_congr _ _ fun j hj => by rw [Bitmap.testBit_eq, hbits j hj]
      have hrun := isRun_scanWhile (show i < nPages by omega) hbit
      have hse := hrun.lt
      have hle := hrun.le
      simp only [Bool.false_eq_true, if_false, hscan]
      dsimp only at hse hle ⊢
      generalize scanWhile (fun j => !bm.bit j) (nPages - i) i = rangeEnd at hse hle ⊢
      obtain ⟨-, hne, -⟩ := pagesOf_run hps hse (Nat.le_trans hle hpages)
      rw [if_neg (by omega)]
      unfold fetchRuns fetchRun
      dsimp only
      rw [LawfulMonad.bind_assoc]
      congr 1
      funext rbuf
      by_cases herr : rbuf.err ≠ .ok
      · rw [if_pos herr, if_pos herr]
        rfl
      by_cases hempty : rbuf.body.size = 0
      · rw [if_neg herr, if_neg herr, if_pos hempty, if_pos hempty]
        rfl
      rw [if_neg herr, if_neg herr, if_neg hempty, if_neg hempty]
      unfold storeFetched
      rw [LawfulMonad.bind_assoc, LawfulMonad.bind_assoc]
      congr 1
      funext nw
      cases nw.ok with
      | false => rfl
      | true =>
        -- the marks just set lie before the next page the loop looks at
        have hnext := onlyValid_validMarkRange p (i * p.pageSize)
          (i * p.pageSize + (rbuf.body.slice 0
            (min (rangeEnd * p.pageSize) p.nData - i * p.pageSize)).size)
        refine prefetchFrom_eq hlt n rangeEnd _ (fun k hk => ?_) (by rw [hnext.pageSize]; exact hps)
          (by rw [hnext.pageSize, hnext.nData]; exact hpages)
        rw [bit_validMarkRange_ge hps (by omega) ?_ hse hk]
        · exact hbits k (by omega)
        · rw [SparseFile.slice_size]
          omega

/-- The runs a prefetch fetches. -/
def prefetchRuns (p : ObjsFile) : List (Nat × Nat) :=
  if p.valid.data = [] then []
  else
    let nPages := (pageCount p.nData p.pageSize).toNat
    holeRuns p.valid nPages nPages 0

/-- A prefetch fetches the runs of the bitmap it starts with. -/
theorem prefetchInvalidPages_eq {p : ObjsFile} {fd : Fd} (hread : p.ops.pageBlobRead = true)
    (hfd : p.cacheFd = some fd) : prefetchInvalidPages p = fetchRuns fd (prefetchRuns p) p := by
  unfold prefetchInvalidPages prefetchRuns
  by_cases hdata : p.valid.data = []
  · rw [if_pos (Or.inl hdata), if_pos hdata]
    rfl
  by_cases hps : p.pageSize = 0
  · rw [if_pos (Or.inr (Or.inl hps)), if_neg hdata, hps, pageCount, Nat.div_zero]
    rfl
  have hle := pageCount_toNat_le p.nData p.pageSize
  by_cases hn : p.nData = 0
  · have hzero : pagesOf 0 p.pageSize ≤ 0 :=
      (pagesOf_le_iff (Nat.pos_of_ne_zero hps)).mpr (by omega)
    rw [hn] at hle
    rw [if_pos (Or.inr (Or.inr hn)), if_neg hdata, hn,
      show (pageCount 0 p.pageSize).toNat = 0 by omega]
    rfl
  have hlt : (pageCount p.nData p.pageSize).toNat < 2 ^ 31 := cInt_toNat_lt _
  rw [if_neg fun h => h.elim hdata fun h => h.elim hps hn, if_neg hdata, hread, hfd]
  simp only [Bool.not_true, Bool.false_eq_true, if_false]
  exact prefetchFrom_eq hlt _ 0 p (fun _ _ => rfl) (Nat.pos_of_ne_zero hps) hle

/-! ## What fetching runs does -/

/-- What a prefetch runs against: a cache file of `n` bytes, the bytes `B` of the blob, and
what is known (`inv`) between its requests. A read fails or has all the bytes it asked for; a
write of the cache file that fails may have written anything in its range. -/
structure CacheEnv {W : Type} (serve : (r : Req) → W → Ans r → W → Prop) (blob : BlobId) (fd : Fd)
    (n : Nat) (B : Nat → UInt8) where
  inv : W → Prop
  cache : W → Bytes
  answered : ∀ r w, r ≠ .sys .relock → ∃ x w', serve r w x w'
  read : ∀ {w off len x w'}, inv w → 0 < len → off + len ≤ n →
    Runs serve (azPageBlobRead blob off len) w x w' → inv w' ∧ cache w' = cache w ∧
      (x.err = .ok → x.body.size = 0 ∨
        x.body.size = len ∧ ∀ j, j < len → x.body.get j = B (off + j))
  pwrite : ∀ {w off data x w'}, inv w → serve (.sys (.pwrite fd off data)) w x w' → inv w' ∧
    (∀ j, j < off ∨ off + data.size ≤ j → (cache w').get j = (cache w).get j) ∧
    (x.ok = true → cache w' = (cache w).pwrite off data)

/-- Every read of the client succeeds with the full length, and the cache file can be written.
`reads` are the reads that were asked for. -/
structure CacheEnv.Full {W : Type} {serve : (r : Req) → W → Ans r → W → Prop} {blob : BlobId}
    {fd : Fd} {n : Nat} {B : Nat → UInt8} (env : CacheEnv serve blob fd n B)
    (reads : W → List (Nat × Nat)) : Prop where
  read : ∀ {w off len x w'}, env.inv w → 0 < len → off + len ≤ n →
    Runs serve (azPageBlobRead blob off len) w x w' →
      x.err = .ok ∧ x.body.size = len ∧ reads w' = reads w ++ [(off, len)]
  pwrite : ∀ {w off data x w'}, env.inv w → serve (.sys (.pwrite fd off data)) w x w' →
    x.ok = true ∧ reads w' = reads w

/-- Page `k` is in one of the runs. -/
def InRuns (runs : List (Nat × Nat)) (k : Nat) : Prop := ∃ r ∈ runs, r.1 ≤ k ∧ k < r.2

/-- A page with bytes of the file whose mark is missing. -/
def Hole (p : ObjsFile) (k : Nat) : Prop := k < pagesOf p.nData p.pageSize ∧ p.valid.bit k = false

/-- The read for a run of pages: whole pages, and of the last page what the file has. -/
def runRequest (p : ObjsFile) (r : Nat × Nat) : Nat × Nat :=
  (r.1 * p.pageSize, min (r.2 * p.pageSize) p.nData - r.1 * p.pageSize)

section Fetching

variable {W : Type} {serve : (r : Req) → W → Ans r → W → Prop} {blob : BlobId} {fd : Fd} {n : Nat}
  {B : Nat → UInt8}

/-- Runs of pages were fetched, all of them if the code is `SQLITE_OK`. -/
structure RunsFetched (env : CacheEnv serve blob fd n B) (runs : List (Nat × Nat)) (p : ObjsFile)
    (w : W) (r : ObjsFile × Rc) (w' : W) : Prop where
  inv : env.inv w'
  only : OnlyValid p r.1
  nAlloc : r.1.valid.nAlloc = p.valid.nAlloc
  kept : ∀ k, p.valid.bit k = true → r.1.valid.bit k = true
  outside : ∀ j, ¬ InRuns runs (j / p.pageSize) → (env.cache w').get j = (env.cache w).get j
  marked : ∀ k, r.1.valid.bit k = true → p.valid.bit k = true ∨ InRuns runs k ∧
    ∀ j, j < n → j / p.pageSize = k → (env.cache w').get j = B j
  done : r.2 = .ok → ∀ k, InRuns runs k → (k / 8 < p.valid.nAlloc → r.1.valid.bit k = true) ∧
    ∀ j, j < n → j / p.pageSize = k → (env.cache w').get j = B j

namespace RunsFetched

variable {env : CacheEnv serve blob fd n B} {runs : List (Nat × Nat)} {p : ObjsFile} {w w' : W}
  {r : ObjsFile × Rc} {s : Nat × Nat}

/-- Nothing was stored. -/
theorem unchanged (hinv : env.inv w') (hcache : env.cache w' = env.cache w) {rc : Rc}
    (hrc : rc = .ok → runs = []) : RunsFetched env runs p w (p, rc) w' where
  inv := hinv
  only := rfl
  nAlloc := rfl
  kept _ := id
  outside j _ := by rw [hcache]
  marked k hk := Or.inl hk
  done hok k hk := by
    obtain ⟨r, hr, -⟩ := hk
    rw [hrc hok] at hr
    exact absurd hr List.not_mem_nil

/-- A run that failed ends the loop. -/
theorem cons_failed (h : RunsFetched env [s] p w r w') (hrc : r.2 ≠ .ok) :
    RunsFetched env (s :: runs) p w r w' where
  inv := h.inv
  only := h.only
  nAlloc := h.nAlloc
  kept := h.kept
  outside j hj := h.outside j fun ⟨t, ht, hin⟩ =>
    hj ⟨t, List.mem_cons.mpr (Or.inl (List.mem_singleton.mp ht)), hin⟩
  marked k hk := by
    rcases h.marked k hk with hb | ⟨⟨t, ht, hin⟩, hbytes⟩
    · exact Or.inl hb
    · exact Or.inr ⟨⟨t, List.mem_cons.mpr (Or.inl (List.mem_singleton.mp ht)), hin⟩, hbytes⟩
  done hok := absurd hok hrc

/-- A run and then the runs behind it. -/
theorem cons {q : ObjsFile} {w₁ : W} (h : RunsFetched env [s] p w (q, .ok) w₁)
    (h' : RunsFetched env runs q w₁ r w') (hafter : ∀ t ∈ runs, s.2 ≤ t.1) :
    RunsFetched env (s :: runs) p w r w' := by
  have hps : q.pageSize = p.pageSize := h.only.pageSize
  have hal : q.valid.nAlloc = p.valid.nAlloc := h.nAlloc
  -- what the first run stored stays as it is
  have hstay : ∀ j, InRuns [s] (j / p.pageSize) → (env.cache w').get j = (env.cache w₁).get j := by
    rintro j ⟨t, ht, hin⟩
    rw [List.mem_singleton.mp ht] at hin
    refine h'.outside j fun ⟨t', ht', hin'⟩ => ?_
    have := hafter t' ht'
    rw [hps] at hin'
    omega
  have hhead : ∀ k, InRuns [s] k → InRuns (s :: runs) k := fun k ⟨t, ht, hin⟩ =>
    ⟨t, List.mem_cons.mpr (Or.inl (List.mem_singleton.mp ht)), hin⟩
  have htail : ∀ k, InRuns runs k → InRuns (s :: runs) k := fun k ⟨t, ht, hin⟩ =>
    ⟨t, List.mem_cons_of_mem _ ht, hin⟩
  refine ⟨h'.inv, h.only.trans h'.only, h'.nAlloc.trans hal, fun k hk => h'.kept k (h.kept k hk),
    fun j hj => ?_, fun k hk => ?_, fun hok k hk => ?_⟩
  · rw [h'.outside j (by rw [hps]; exact fun hin => hj (htail _ hin))]
    exact h.outside j fun hin => hj (hhead _ hin)
  · rcases h'.marked k hk with hb | ⟨hin, hbytes⟩
    · rcases h.marked k hb with hb | ⟨hin, hbytes⟩
      · exact Or.inl hb
      · refine Or.inr ⟨hhead k hin, fun j hj hjk => ?_⟩
        rw [hstay j (by rw [hjk]; exact hin)]
        exact hbytes j hj hjk
    · exact Or.inr ⟨htail k hin, fun j hj hjk => hbytes j hj (by rw [hps]; exact hjk)⟩
  · obtain ⟨t, ht, hin⟩ := hk
    rcases List.mem_cons.mp ht with rfl | ht
    · obtain ⟨hbit, hbytes⟩ := h.done rfl k ⟨t, List.mem_singleton.mpr rfl, hin⟩
      refine ⟨fun hroom => h'.kept k (hbit hroom), fun j hj hjk => ?_⟩
      rw [hstay j (by rw [hjk]; exact ⟨t, List.mem_singleton.mpr rfl, hin⟩)]
      exact hbytes j hj hjk
    · obtain ⟨hbit, hbytes⟩ := h'.done hok k ⟨t, ht, hin⟩
      exact ⟨fun hroom => hbit (by rw [hal]; exact hroom),
        fun j hj hjk => hbytes j hj (by rw [hps]; exact hjk)⟩

end RunsFetched

/-- A run the loop may fetch. -/
def RunOf (p : ObjsFile) (s : Nat × Nat) : Prop :=
  s.1 < s.2 ∧ s.2 ≤ pagesOf p.nData p.pageSize ∧ s.2 < 2 ^ 31

variable {p : ObjsFile} {s : Nat × Nat} {w : W}

theorem OnlyValid.runOf {p q : ObjsFile} (h : OnlyValid p q) : RunOf q s ↔ RunOf p s := by
  unfold RunOf
  rw [h.nData, h.pageSize]

theorem RunOf.pos (h : RunOf p s) : 0 < p.pageSize := by
  obtain ⟨h₁, h₂, -⟩ := h
  by_contra hz
  rw [Nat.eq_zero_of_not_pos hz, pagesOf, Nat.div_zero] at h₂
  omega

theorem RunOf.bounds (h : RunOf p s) :
    0 < (runRequest p s).2 ∧ (runRequest p s).1 + (runRequest p s).2 ≤ p.nData := by
  obtain ⟨h₁, h₂, -⟩ := pagesOf_run h.pos h.1 h.2.1
  unfold runRequest
  omega

/-- One run, however its read and its write turn out. -/
theorem wp_fetchRun (env : CacheEnv serve blob fd n B) (hblob : p.blob = blob) (hn : p.nData = n)
    (hs : RunOf p s) (hw : env.inv w) :
    wp (.alone serve) (fetchRun p fd s.1 s.2) (RunsFetched env [s] p w) w := by
  subst hblob hn
  have hps := hs.pos
  have hb := hs.bounds
  unfold fetchRun
  rw [wp_bind]
  refine wp_alone_iff.mpr fun x w₁ hr => ?_
  obtain ⟨hinv, hcache, hbody⟩ := env.read hw hb.1 hb.2 hr
  have hfail : wp (.alone serve) (.ret (p, .ioerrRead)) (RunsFetched env [s] p w) w₁ :=
    wp_alone_ret.mpr (.unchanged hinv hcache fun h => by cases h)
  by_cases herr : x.err ≠ .ok
  · rw [if_pos herr]
    exact hfail
  rw [if_neg herr]
  by_cases hempty : x.body.size = 0
  · rw [if_pos hempty]
    exact hfail
  rw [if_neg hempty]
  obtain ⟨hsize, hget⟩ := (hbody (not_not.mp herr)).resolve_left hempty
  -- the request is the run, and all of it came
  unfold runRequest at hb hsize hget
  dsimp only at hb hsize hget
  generalize hlen : min (s.2 * p.pageSize) p.nData - s.1 * p.pageSize = len at hb hsize hget ⊢
  have hslice : x.body.slice 0 len = x.body := by
    rw [← hsize]
    refine SparseFile.ext (by simp) fun j => ?_
    rw [SparseFile.slice_get, Nat.zero_add]
    split
    · rfl
    · exact (x.body.get_past j (by omega)).symm
  have hstop : s.1 * p.pageSize + len = min (s.2 * p.pageSize) p.nData := by omega
  rw [hslice]
  unfold storeFetched
  apply wp_alone_call.mpr
  intro nw w₂ hnw
  obtain ⟨hinv₂, hout, hdata⟩ := env.pwrite hinv hnw
  show wp _ (if (!nw.ok) = true then .ret (p, Rc.ioerrWrite) else .ret (_, Rc.ok)) _ _
  rw [hsize, hstop] at hout
  have houtside : ∀ j, ¬ InRuns [s] (j / p.pageSize) → (env.cache w₂).get j =
      (env.cache w).get j := by
    intro j hj
    rw [← hcache]
    refine hout j ?_
    by_contra hin
    have hin' : s.1 * p.pageSize ≤ j ∧ j < min (s.2 * p.pageSize) p.nData := by omega
    exact hj ⟨s, List.mem_singleton.mpr rfl, (mem_run_iff hps (by omega)).mp hin'⟩
  cases hok : nw.ok with
  | false =>
    rw [Bool.not_false, if_pos rfl]
    apply (wp_alone_ret (Q := RunsFetched env [s] p w)).mpr
    exact ⟨hinv₂, rfl, rfl, fun _ => id, houtside, fun k hk => Or.inl hk, fun h => by cases h⟩
  | true =>
    have honly := onlyValid_validMarkRange p (s.1 * p.pageSize) (min (s.2 * p.pageSize) p.nData)
    obtain ⟨-, -, -, hal⟩ :=
      Image.validMarkRange_eq p (s.1 * p.pageSize) (min (s.2 * p.pageSize) p.nData)
    have hbit := bit_validMarkRange_run hps hs.1 hs.2.1 hs.2.2
    have hbytes : ∀ k, InRuns [s] k → ∀ j, j < p.nData → j / p.pageSize = k →
        (env.cache w₂).get j = B j := by
      rintro k ⟨t, ht, hin⟩ j hj rfl
      rw [List.mem_singleton.mp ht] at hin
      have hj' := (mem_run_iff hps hj).mpr hin
      rw [hdata hok, SparseFile.pwrite_get_of_mem _ _ hj'.1 (by omega), hget _ (by omega)]
      congr 1
      omega
    rw [Bool.not_true, if_neg (by decide), hsize, hstop]
    apply (wp_alone_ret (Q := RunsFetched env [s] p w)).mpr
    generalize validMarkRange p (s.1 * p.pageSize) (min (s.2 * p.pageSize) p.nData) = q
      at honly hal hbit
    refine ⟨hinv₂, honly, hal, fun k hk => ?_, houtside, fun k hk => ?_, fun _ k hk =>
      ⟨fun hroom => ?_, hbytes k hk⟩⟩
    · rw [hbit, hk, Bool.true_or]
    · rw [hbit] at hk
      simp only [Bool.or_eq_true, Bool.and_eq_true, decide_eq_true_eq] at hk
      rcases hk with hk | ⟨hin, -⟩
      · exact Or.inl hk
      · have hin' : InRuns [s] k := ⟨s, List.mem_singleton.mpr rfl, hin⟩
        exact Or.inr ⟨hin', hbytes k hin'⟩
    · obtain ⟨t, ht, hin⟩ := hk
      rw [List.mem_singleton.mp ht] at hin
      rw [hbit, decide_eq_true hin, decide_eq_true hroom]
      simp

/-- Where every read is answered in full, a run is one read and is stored. -/
theorem CacheEnv.Full.wp_fetchRun {env : CacheEnv serve blob fd n B} {reads : W → List (Nat × Nat)}
    (hfull : env.Full reads) (hblob : p.blob = blob) (hn : p.nData = n)
    (hs : RunOf p s) (hw : env.inv w) : wp (.alone serve) (fetchRun p fd s.1 s.2)
      (fun r w' => r.2 = .ok ∧ reads w' = reads w ++ [runRequest p s]) w := by
  subst hblob hn
  have hb := hs.bounds
  unfold fetchRun
  rw [wp_bind]
  refine wp_alone_iff.mpr fun x w₁ hr => ?_
  obtain ⟨hinv, -, -⟩ := env.read hw hb.1 hb.2 hr
  obtain ⟨herr, hsize, hreads⟩ := hfull.read hw hb.1 hb.2 hr
  rw [if_neg (by rw [herr]; exact not_not.mpr rfl), if_neg (by omega)]
  unfold storeFetched
  apply wp_alone_call.mpr
  intro nw w₂ hnw
  obtain ⟨hok, hreads₂⟩ := hfull.pwrite hinv hnw
  show wp _ (if (!nw.ok) = true then .ret (p, Rc.ioerrWrite) else .ret (_, Rc.ok)) _ _
  rw [hok, Bool.not_true, if_neg (by decide)]
  exact wp_alone_ret.mpr ⟨rfl, hreads₂.trans hreads⟩

/-- Runs in order, however their requests turn out. -/
theorem wp_fetchRuns (env : CacheEnv serve blob fd n B) : ∀ (runs : List (Nat × Nat)) {p : ObjsFile}
    {w : W}, p.blob = blob → p.nData = n → (∀ s ∈ runs, RunOf p s) →
      (runs.Pairwise fun r r' => r.2 ≤ r'.1) → env.inv w →
      wp (.alone serve) (fetchRuns fd runs p) (RunsFetched env runs p w) w
  | [], p, w, _, _, _, _, hw => wp_alone_ret.mpr (.unchanged hw rfl fun _ => rfl)
  | s :: runs, p, w, hblob, hn, hruns, hord, hw => by
    obtain ⟨hafter, hord⟩ := List.pairwise_cons.mp hord
    unfold fetchRuns
    rw [wp_bind]
    refine wp_mono ?_ (wp_fetchRun env hblob hn (hruns s List.mem_cons_self) hw)
    rintro ⟨q, rc⟩ w₁ h
    dsimp only
    by_cases hrc : rc = .ok
    · subst hrc
      rw [if_neg (not_not.mpr rfl)]
      have honly : OnlyValid p q := h.only
      refine wp_mono (fun r w' h' => h.cons h' hafter) (wp_fetchRuns env runs
        (honly.blob.trans hblob) (honly.nData.trans hn)
        (fun t ht => honly.runOf.mpr (hruns t (List.mem_cons_of_mem _ ht))) hord h.inv)
    · rw [if_pos hrc]
      exact wp_alone_ret.mpr (h.cons_failed hrc)

/-- The reads of runs that are all answered in full. -/
theorem CacheEnv.Full.wp_fetchRuns {env : CacheEnv serve blob fd n B} {reads : W → List (Nat × Nat)}
    (hfull : env.Full reads) : ∀ (runs : List (Nat × Nat)) {p : ObjsFile} {w : W}, p.blob = blob →
      p.nData = n → (∀ s ∈ runs, RunOf p s) → env.inv w →
      wp (.alone serve) (fetchRuns fd runs p)
        (fun r w' => r.2 = .ok ∧ reads w' = reads w ++ runs.map (runRequest p)) w
  | [], p, w, _, _, _, _ => wp_alone_ret.mpr ⟨rfl, by simp⟩
  | s :: runs, p, w, hblob, hn, hruns, hw => by
    have hs := hruns s List.mem_cons_self
    unfold fetchRuns
    rw [wp_bind]
    refine wp_mono ?_ (wp_and (SqliteObjs.wp_fetchRun env hblob hn hs hw)
      (hfull.wp_fetchRun hblob hn hs hw))
    rintro ⟨q, rc⟩ w₁ ⟨h, rfl, hreads⟩
    have honly : OnlyValid p q := h.only
    dsimp only
    rw [if_neg (not_not.mpr rfl)]
    refine wp_mono ?_ (hfull.wp_fetchRuns runs (honly.blob.trans hblob) (honly.nData.trans hn)
      (fun t ht => honly.runOf.mpr (hruns t (List.mem_cons_of_mem _ ht))) h.inv)
    rintro r w₂ ⟨hrc, hreads₂⟩
    refine ⟨hrc, ?_⟩
    have hreq : runRequest q = runRequest p := by
      funext t
      unfold runRequest
      rw [honly.pageSize, honly.nData]
    rw [hreads₂, hreads, hreq, List.append_assoc, List.map_cons, List.singleton_append]

end Fetching

/-! ## The holes of a file -/

section Holes

variable {W : Type} {serve : (r : Req) → W → Ans r → W → Prop} {fd : Fd} {B : Nat → UInt8}
  {p : ObjsFile}

/-- A run of holes with no hole before it and none behind it. -/
structure MaximalRun (p : ObjsFile) (r : Nat × Nat) : Prop where
  lt : r.1 < r.2
  holes : ∀ k, r.1 ≤ k → k < r.2 → Hole p k
  before : r.1 = 0 ∨ ¬ Hole p (r.1 - 1)
  behind : ¬ Hole p r.2

/-- The reads are the maximal runs of holes. They do not meet and cover the bytes of all holes. -/
structure CoversHoles (p : ObjsFile) (requests : List (Nat × Nat)) : Prop where
  maximal : ∀ q ∈ requests, ∃ r, MaximalRun p r ∧ q = runRequest p r
  disjoint : requests.Pairwise fun q q' => q.1 + q.2 ≤ q'.1
  covers : ∀ j, (∃ q ∈ requests, q.1 ≤ j ∧ j < q.1 + q.2) ↔ j < p.nData ∧ Hole p (j / p.pageSize)

/-- What holds after every prefetch, also one that failed midway: a page that was valid has its
bytes and its mark, and a page that became valid has the bytes of the blob. -/
structure KeepsPages {blob : BlobId} {n : Nat} (env : CacheEnv serve blob fd n B) (p : ObjsFile)
    (w : W) (r : ObjsFile × Rc) (w' : W) : Prop where
  only : OnlyValid p r.1
  kept : ∀ k, p.valid.bit k = true → r.1.valid.bit k = true
  bytes : ∀ j, p.valid.bit (j / p.pageSize) = true → (env.cache w').get j = (env.cache w).get j
  filled : ∀ j, j < p.nData → p.valid.bit (j / p.pageSize) = false →
    r.1.valid.bit (j / p.pageSize) = true → (env.cache w').get j = B j

/-- The prefetch filled exactly the holes. -/
structure FillsHoles {blob : BlobId} {n : Nat} (env : CacheEnv serve blob fd n B)
    (reads : W → List (Nat × Nat)) (p : ObjsFile) (w : W) (r : ObjsFile × Rc) (w' : W) : Prop
    extends KeepsPages env p w r w' where
  code : r.2 = .ok
  requests : ∃ requests, reads w' = reads w ++ requests ∧ CoversHoles p requests
  valid : ∀ k, k < pagesOf p.nData p.pageSize → r.1.valid.bit k = true
  holes : ∀ j, j < p.nData → Hole p (j / p.pageSize) → (env.cache w').get j = B j

/-- The loop gets to every hole, and the bitmap has room for its mark. -/
def EveryHoleReached (p : ObjsFile) : Prop :=
  ∀ k, Hole p k → k < (pageCount p.nData p.pageSize).toNat ∧ k / 8 < p.valid.nAlloc

theorem mem_prefetchRuns {r : Nat × Nat} (hr : r ∈ prefetchRuns p) :
    IsRun p.valid (pageCount p.nData p.pageSize).toNat 0 r := by
  unfold prefetchRuns at hr
  split at hr
  · exact absurd hr List.not_mem_nil
  · exact isRun_of_mem _ _ _ hr

theorem pairwise_prefetchRuns (p : ObjsFile) :
    (prefetchRuns p).Pairwise fun r r' => r.2 ≤ r'.1 := by
  unfold prefetchRuns
  split
  · exact .nil
  · exact pairwise_holeRuns _ _

theorem runOf_prefetchRuns {r : Nat × Nat} (hr : r ∈ prefetchRuns p) : RunOf p r := by
  have h := mem_prefetchRuns hr
  have hle := pageCount_toNat_le p.nData p.pageSize
  have hlt : (pageCount p.nData p.pageSize).toNat < 2 ^ 31 := cInt_toNat_lt _
  exact ⟨h.lt, Nat.le_trans h.le hle, Nat.lt_of_le_of_lt h.le hlt⟩

/-- The pages in the runs are holes. -/
theorem hole_of_inRuns {k : Nat} (hk : InRuns (prefetchRuns p) k) :
    Hole p k ∧ k < (pageCount p.nData p.pageSize).toNat := by
  obtain ⟨r, hr, h₁, h₂⟩ := hk
  have h := mem_prefetchRuns hr
  have hlt := Nat.lt_of_lt_of_le h₂ h.le
  exact ⟨⟨Nat.lt_of_lt_of_le hlt (pageCount_toNat_le _ _), h.clear k h₁ h₂⟩, hlt⟩

/-- A hole the loop gets to is in a run. -/
theorem inRuns_of_hole {k : Nat} (hk : Hole p k) (hlt : k < (pageCount p.nData p.pageSize).toNat)
    (hroom : k / 8 < p.valid.nAlloc) : InRuns (prefetchRuns p) k := by
  unfold prefetchRuns
  rw [if_neg]
  · exact exists_mem_holeRuns hlt hk.2 _ 0 (by omega) (Nat.zero_le _)
  · intro hnil
    rw [Bitmap.nAlloc, hnil] at hroom
    exact Nat.not_lt_zero _ hroom

theorem maximalRun_of_mem (h : EveryHoleReached p) {r : Nat × Nat} (hr : r ∈ prefetchRuns p) :
    MaximalRun p r := by
  have hrun := mem_prefetchRuns hr
  refine ⟨hrun.lt, fun k h₁ h₂ => (hole_of_inRuns ⟨r, hr, h₁, h₂⟩).1, ?_, fun hhole => ?_⟩
  · rcases hrun.before with hb | hb
    · exact Or.inl hb
    · exact Or.inr fun hhole => by rw [hhole.2] at hb; cases hb
  · have hset := hrun.stop (h _ hhole).1
    rw [hhole.2] at hset
    cases hset

/-- The reads of a prefetch that gets to every hole. -/
theorem coversHoles_prefetchRuns (h : EveryHoleReached p) :
    CoversHoles p ((prefetchRuns p).map (runRequest p)) := by
  refine ⟨fun q hq => ?_, ?_, fun j => ⟨fun ⟨q, hq, h₁, h₂⟩ => ?_, fun ⟨hj, hhole⟩ => ?_⟩⟩
  · obtain ⟨r, hr, rfl⟩ := List.mem_map.mp hq
    exact ⟨r, maximalRun_of_mem h hr, rfl⟩
  · rw [List.pairwise_map]
    refine (pairwise_prefetchRuns p).imp_of_mem fun {r r'} hr _ hle => ?_
    obtain ⟨-, hlt, -⟩ := pagesOf_run (runOf_prefetchRuns hr).pos (runOf_prefetchRuns hr).1
      (runOf_prefetchRuns hr).2.1
    have := Nat.mul_le_mul_right p.pageSize hle
    unfold runRequest
    dsimp only
    omega
  · obtain ⟨r, hr, rfl⟩ := List.mem_map.mp hq
    have hrun := runOf_prefetchRuns hr
    have hb := hrun.bounds
    have hin : r.1 * p.pageSize ≤ j ∧ j < min (r.2 * p.pageSize) p.nData := by
      unfold runRequest at h₁ h₂
      dsimp only at h₁ h₂
      omega
    have hj : j < p.nData := by omega
    exact ⟨hj, (hole_of_inRuns ⟨r, hr, (mem_run_iff hrun.pos hj).mp hin⟩).1⟩
  · obtain ⟨hlt, hroom⟩ := h _ hhole
    obtain ⟨r, hr, hin⟩ := inRuns_of_hole hhole hlt hroom
    have hin' := (mem_run_iff (runOf_prefetchRuns hr).pos hj).mpr hin
    refine ⟨_, List.mem_map_of_mem hr, hin'.1, ?_⟩
    unfold runRequest
    dsimp only
    omega

theorem noRelock_fetchRuns (fd : Fd) : ∀ (runs : List (Nat × Nat)) (p : ObjsFile),
    NoRelock (fetchRuns fd runs p)
  | [], _ => trivial
  | r :: runs, p => by
    unfold fetchRuns fetchRun
    refine Uses.bind (Uses.bind (noRelock_azPageBlobRead _ _ _) fun x => ?_) fun q => ?_
    · refine .ite trivial (.ite trivial ?_)
      unfold storeFetched
      exact Uses.bind (noRelock_sys (by simp)) fun nw => .ite trivial trivial
    · exact .ite trivial (noRelock_fetchRuns fd runs _)

/-- A prefetch ends. However its reads and writes turn out, no valid page is wrong afterwards. If
every read is answered in full and the cache file can be written, the prefetch fills exactly the
holes if and only if its loop gets to every hole and the bitmap has room for it. -/
theorem prefetch_fills_holes_iff (env : CacheEnv serve p.blob fd p.nData B)
    (hread : p.ops.pageBlobRead = true) (hfd : p.cacheFd = some fd) {w : W} (hw : env.inv w) :
    (∃ r w', Runs serve (prefetchInvalidPages p) w r w') ∧
    ∀ r w', Runs serve (prefetchInvalidPages p) w r w' → KeepsPages env p w r w' ∧
      ∀ reads, env.Full reads → (FillsHoles env reads p w r w' ↔ EveryHoleReached p) := by
  rw [prefetchInvalidPages_eq hread hfd]
  refine ⟨Uses.exists_runs (noRelock_fetchRuns fd _ p) env.answered w, fun r w' hr => ?_⟩
  have h := wp_alone_iff.mp (wp_fetchRuns env _ rfl rfl (fun s hs => runOf_prefetchRuns hs)
    (pairwise_prefetchRuns p) hw) r w' hr
  have hkeeps : KeepsPages env p w r w' := by
    refine ⟨h.only, h.kept, fun j hj => h.outside j fun hin => ?_, fun j hj hclear hset => ?_⟩
    · rw [(hole_of_inRuns hin).1.2] at hj
      cases hj
    · rcases h.marked _ hset with hb | ⟨-, hbytes⟩
      · rw [hclear] at hb
        cases hb
      · exact hbytes j hj rfl
  refine ⟨hkeeps, fun reads hfull => ⟨fun hfills k hk => ?_, fun hreached => ?_⟩⟩
  · -- a hole is marked only in a run, and where the bitmap has room
    have hset := hfills.valid k hk.1
    rcases h.marked k hset with hb | ⟨hin, -⟩
    · rw [hk.2] at hb
      cases hb
    · exact ⟨(hole_of_inRuns hin).2, h.nAlloc ▸ Bitmap.lt_of_bit hset⟩
  · obtain ⟨hok, hreads⟩ := wp_alone_iff.mp (hfull.wp_fetchRuns _ rfl rfl
      (fun s hs => runOf_prefetchRuns hs) hw) r w' hr
    have hin : ∀ k, Hole p k → InRuns (prefetchRuns p) k := fun k hk =>
      inRuns_of_hole hk (hreached k hk).1 (hreached k hk).2
    refine ⟨hkeeps, hok, ⟨_, hreads, coversHoles_prefetchRuns hreached⟩, fun k hk => ?_,
      fun j hj hhole => (h.done hok _ (hin _ hhole)).2 j hj rfl⟩
    cases hbit : p.valid.bit k with
    | true => exact h.kept k hbit
    | false => exact (h.done hok k (hin k ⟨hk, hbit⟩)).1 (hreached k ⟨hk, hbit⟩).2

end Holes

/-! ## The machine and the service -/

/-- The reads of page blobs in a log, the first one first. -/
def pageReads (log : List ((r : Req) × Ans r)) : List (Nat × Nat) :=
  log.reverse.filterMap fun e =>
    match e.1 with
    | .azure (.pageBlobRead _ off len) => some (off, len)
    | _ => none

section Machine

variable {ok : Choice → Prop} {i : BlobId} {b : Blob} {n : Nat}

/-- One range read, with the requests to the service logged. -/
theorem logged_read {off len : Nat} {w w' : Logged World Ans} {x : AzReply}
    (hb : w.world.azure.blobs i = some b)
    (hs : Logged.serveOf Req.isAzure (World.served ok) (.azure (.pageBlobRead i off len)) w x w') :
    w'.world = w.world ∧ (x.err = .ok → x.body = b.content.slice off len) := by
  obtain ⟨c, hc, hr⟩ := hs.1
  obtain ⟨hazure, hbody⟩ := served_read ⟨c, hc, hr⟩ hb
  have hdisk : w'.world.disk = w.world.disk := by
    simp only [World.respond, Option.map_eq_some_iff] at hr
    obtain ⟨xa, -, hxa⟩ := hr
    rw [← (Prod.mk.inj hxa).2]
  obtain ⟨⟨a, d⟩, log⟩ := w
  obtain ⟨⟨a', d'⟩, log'⟩ := w'
  obtain rfl : a' = a := hazure
  obtain rfl : d' = d := hdisk
  exact ⟨rfl, fun herr => (hbody herr).2⟩

theorem sound_default : Sound {} := ⟨rfl, rfl⟩

/-- A machine whose cache file and reads may fail, with a blob of at least `n` bytes. -/
def CacheEnv.machine (hok : ok {}) (i : BlobId) (fd : Fd) (hn : n ≤ b.content.size) :
    CacheEnv (Logged.serveOf Req.isAzure (World.served ok)) i fd n b.content.get where
  inv w := w.world.azure.blobs i = some b
  cache w := w.world.disk.inode fd
  answered r w hr := by
    obtain ⟨x, w', hs⟩ := served_total hok rfl hr w.world
    exact ⟨x, ⟨w', _⟩, hs, rfl⟩
  read {w off len x w'} hw hlen hle hr := by
    unfold azPageBlobRead execute at hr
    rw [if_neg (by omega)] at hr
    have h := wp_alone_iff.mp (wp_executeWithRetry (I := fun v => v.world = w.world)
      (Q := fun y v => v.world = w.world ∧ (y.err = .ok → y.body = b.content.slice off len))
      stable_alone (fun _ => stable_alone) (fun v y v' hv hs => ?_) _ rfl) x w' hr
    · rw [h.1]
      refine ⟨hw, rfl, fun herr => Or.inr ?_⟩
      rw [h.2 herr]
      exact ⟨by rw [SparseFile.slice_size]; omega, fun j hj => SparseFile.slice_get_of_lt _ hj⟩
    · obtain ⟨hworld, hbody⟩ := logged_read (by rw [hv]; exact hw) hs
      exact ⟨trivial, fun _ => hworld.trans hv, hworld.trans hv, hbody⟩
  pwrite {w off data x w'} hw hs := by
    obtain ⟨c, -, rfl, hworld⟩ := served_sys hs.1
    rw [hworld]
    refine ⟨hw, fun j hj => ?_, fun hx => ?_⟩
    · dsimp only [Disk.serve]
      split
      · rw [Disk.setInode_inode_self]
        refine SparseFile.pwrite_get_of_not_mem _ _ ?_
        rw [SparseFile.slice_size]
        omega
      · rw [Disk.setInode_inode_self]
        exact SparseFile.pwrite_get_of_not_mem _ _ (by omega)
    · dsimp only [Disk.serve] at hx ⊢
      split at hx
      · cases hx
      · next hc => rw [if_neg hc, Disk.setInode_inode_self]

/-- Where nothing fails every read is answered in full, and asked for once. -/
theorem CacheEnv.full_machine (i : BlobId) (fd : Fd) (hn : n ≤ b.content.size) :
    (CacheEnv.machine sound_default i fd hn).Full fun w => pageReads w.log where
  read {w off len x w'} hw hlen hle hr := by
    have hw : w.world.azure.blobs i = some b := hw
    unfold azPageBlobRead execute at hr
    rw [if_neg (by omega)] at hr
    suffices h : wp (.alone (Logged.serveOf Req.isAzure (World.served Sound)))
        (executeWithRetry (.pageBlobRead i off len) azureMaxRetries) (fun (y : AzReply) v =>
          y.err = .ok ∧ y.body.size = len ∧ pageReads v.log = pageReads w.log ++ [(off, len)])
          w from
      wp_alone_iff.mp h x w' hr
    apply wp_alone_call.mpr
    intro y v hs
    have hanswer := (served_azure (fun c hc => hc.1) (by intros; simp) hs.1).1
    simp only [World.answer, Azure.respond, hw] at hanswer
    rw [if_neg (by omega), if_neg (by omega)] at hanswer
    have herr : y.err = .ok := by rw [hanswer]
    show wp _ (if y.err = .ok then .ret y else _) _ v
    rw [if_pos herr]
    refine wp_alone_ret.mpr ⟨herr, by rw [hanswer, SparseFile.slice_size]; omega, ?_⟩
    rw [hs.2]
    unfold pageReads
    rw [Req.isAzure, if_pos rfl, List.reverse_cons, List.filterMap_append]
    rfl
  pwrite {w off data x w'} hw hs := by
    obtain ⟨c, hc, rfl, -⟩ := served_sys hs.1
    have hlog : w'.log = w.log := by
      rw [hs.2]
      rfl
    dsimp only [Disk.serve]
    rw [if_neg (by rw [hc.2]; decide), hlog]
    exact ⟨rfl, rfl⟩

set_option maxRecDepth 8000 in
/-- A lazy open downloads the first pages of the long database; a prefetch then fills the hole
at its end. -/
theorem prefetch_fills_holes_long : ∃ p w fd, ∃ b : Blob, ∃ (hn : p.nData ≤ b.content.size), ∃ r w',
    Runs (World.served Sound) (sqliteObjsOpen (.new 0) "db" lazyUri .mainDb false) longWorld
      (.new 0, .ok p) w ∧ p.cacheFd = some fd ∧ Hole p 16 ∧
    Runs (Logged.serveOf Req.isAzure (World.served Sound)) (prefetchInvalidPages p) ⟨w, []⟩ r w' ∧
    FillsHoles (CacheEnv.machine sound_default p.blob fd hn) (fun w => pageReads w.log)
    p ⟨w, []⟩ r w' := by
  obtain ⟨p, w, fd, b, hopen, hfd, hb, hread, hn, hps, hsize, hal, hclear⟩ : ∃ p w fd b,
      Runs (World.served Sound) (sqliteObjsOpen (.new 0) "db" lazyUri .mainDb false) longWorld
        (.new 0, .ok p) w ∧ p.cacheFd = some fd ∧ w.azure.blobs p.blob = some b ∧
      p.ops.pageBlobRead = true ∧ p.nData = page1Bootstrap + 512 ∧ p.pageSize = 4096 ∧
      b.content.size = page1Bootstrap + 512 ∧ p.valid.nAlloc = 3 ∧ p.valid.bit 16 = false :=
    ⟨_, _, _, _, runs_sound 40 rfl, rfl, rfl, rfl, rfl, rfl, rfl, rfl, by decide +kernel⟩
  have hle : p.nData ≤ b.content.size := by omega
  have hpages : pagesOf p.nData p.pageSize = 17 := by
    rw [hn, hps]
    rfl
  obtain ⟨⟨r, w', hr⟩, hall⟩ :=
    prefetch_fills_holes_iff (CacheEnv.machine sound_default p.blob fd hle)
    hread hfd (w := ⟨w, []⟩) hb
  refine ⟨p, w, fd, b, hle, r, w', hopen, hfd, ⟨by omega, hclear⟩, hr, ?_⟩
  refine ((hall r w' hr).2 _ (CacheEnv.full_machine _ _ hle)).mpr fun k hk => ?_
  have hlt : k < 17 := hpages ▸ hk.1
  rw [pageCount_of_lt (by omega), hpages, hal]
  omega

/-- A database of one tebibyte with 512-byte pages, of which the first one is in the cache. -/
def hugeFile : ObjsFile :=
  { fileWith 512 (2 ^ 40) (.ofBytes [0] 0) with
    cacheFd := some 0, prefetchMode := .none, valid := .ofBytes [1] 1 }

/-- An account with a blob of that size. -/
def hugeWorld : World :=
  { World.new with
    azure := World.new.azure.create ⟨0, "db"⟩ (SparseFile.empty.truncate (2 ^ 40)) }

/-- The page count of that database is negative as an `int`: the prefetch reads nothing, reports
success, and the second page is still missing. -/
theorem prefetch_leaves_holes : ∃ b : Blob, ∃ (hn : hugeFile.nData ≤ b.content.size), ∃ r w',
    hugeWorld.azure.blobs hugeFile.blob = some b ∧
    Runs (Logged.serveOf Req.isAzure (World.served Sound)) (prefetchInvalidPages hugeFile)
      ⟨hugeWorld, []⟩ r w' ∧
    (CacheEnv.machine sound_default hugeFile.blob 0 hn).Full (fun w => pageReads w.log) ∧
    r.2 = .ok ∧ ¬ FillsHoles (CacheEnv.machine sound_default hugeFile.blob 0 hn)
      (fun w => pageReads w.log) hugeFile ⟨hugeWorld, []⟩ r w' := by
  obtain ⟨b, hb, hsize⟩ : ∃ b, hugeWorld.azure.blobs hugeFile.blob = some b ∧
      b.content.size = 2 ^ 40 := ⟨_, rfl, rfl⟩
  have hruns : prefetchRuns hugeFile = [] := by
    have hcount : (pageCount (2 ^ 40) 512).toNat = 0 := by decide +kernel
    unfold prefetchRuns
    rw [show (pageCount hugeFile.nData hugeFile.pageSize).toNat = 0 from hcount]
    rfl
  have hrun : Runs (Logged.serveOf Req.isAzure (World.served Sound)) (prefetchInvalidPages hugeFile)
      ⟨hugeWorld, []⟩ (hugeFile, .ok) ⟨hugeWorld, []⟩ := by
    rw [prefetchInvalidPages_eq rfl rfl, hruns]
    exact .ret _ _
  refine ⟨b, Nat.le_of_eq hsize.symm, _, _, hb, hrun, CacheEnv.full_machine _ _ _, rfl, fun h => ?_⟩
  have hpages : pagesOf hugeFile.nData hugeFile.pageSize = 2 ^ 31 := by decide +kernel
  have hset : hugeFile.valid.bit 1 = true := by
    apply h.valid
    rw [hpages]
    decide
  exact absurd hset (by decide +kernel)

end Machine

end SqliteObjs
