import Mathlib.Data.Finset.Card
import Mathlib.Order.Interval.Finset.Nat
import SqliteObjs.MainDb.DirtyMarks
import SqliteObjs.MainDb.PageIndex

/-!
# The dirty count

`nSet` is kept beside the dirty bits: it decides whether a sync and a close have anything to do,
and how many ranges a sync makes room for.

It is the number of set bits as long as no page index wraps to one of -7 to -1. The check of
`bitmapSetBit` for a negative byte does not catch these, because C divides towards zero, and what
the shift by a negative number makes of the byte and of the count is up to the build. One that
leaves the shift to the processor sets nothing and counts the page all the same.
-/

set_option autoImplicit false

namespace SqliteObjs

open Data CS CS.Program

/-! ## Counting bits -/

namespace Bitmap

variable {bm bm' : Bitmap}

/-- The set bits. -/
def setBits (bm : Bitmap) : Finset Nat :=
  (Finset.range (8 * bm.nAlloc)).filter fun i => bm.bit i = true

/-- The number of set bits in `data`. -/
def count (bm : Bitmap) : Nat := bm.setBits.card

theorem mem_setBits {i : Nat} : i ∈ bm.setBits ↔ bm.bit i = true := by
  unfold setBits
  rw [Finset.mem_filter, Finset.mem_range]
  constructor
  · exact fun h => h.2
  · intro h
    have hlt := lt_of_bit h
    exact ⟨by omega, h⟩

theorem count_congr (h : ∀ i, bm'.bit i = bm.bit i) : bm'.count = bm.count := by
  refine congrArg Finset.card (Finset.ext fun i => ?_)
  rw [mem_setBits, mem_setBits, h]

theorem count_eq_zero : bm.count = 0 ↔ ∀ i, bm.bit i = false := by
  unfold count
  rw [Finset.card_eq_zero, Finset.eq_empty_iff_forall_notMem]
  refine forall_congr' fun i => ?_
  rw [mem_setBits, Bool.not_eq_true]

@[simp] theorem count_clearAll (bm : Bitmap) : (bitmapClearAll bm).count = 0 :=
  count_eq_zero.mpr (bit_clearAll bm)

/-- A page that was clear and is in range is one more. -/
theorem count_setBit_of_clear {i : Nat} (hi : i / 8 < bm.nAlloc) (hbit : bm.bit i = false) :
    (bitmapSetBit bm i).count = bm.count + 1 := by
  have hset : (bitmapSetBit bm i).setBits = insert i bm.setBits := by
    ext j
    rw [mem_setBits, Finset.mem_insert, mem_setBits, bit_setBit, decide_eq_true hi]
    simp only [Bool.and_true, Bool.or_eq_true, decide_eq_true_eq]
    exact or_comm
  have hnot : i ∉ bm.setBits := by
    rw [mem_setBits, hbit]
    exact Bool.false_ne_true
  unfold count
  rw [hset, Finset.card_insert_of_notMem hnot]

/-- Setting a bit: nothing happens, or a clear bit is set and counted. -/
theorem setBit_cases (bm : Bitmap) (i : Nat) : bitmapSetBit bm i = bm ∨
    (bitmapSetBit bm i).count = bm.count + 1 ∧ (bitmapSetBit bm i).nSet = bm.nSet + 1 := by
  by_cases h : i / 8 < bm.nAlloc ∧ bm.bit i = false
  · right
    refine ⟨count_setBit_of_clear h.1 h.2, ?_⟩
    rw [setBit_natCast, if_pos h]
    rfl
  · left
    rw [setBit_natCast, if_neg h]

/-- The indices that pass the check for a negative byte although they are negative. -/
def Wraps (i : Int) : Prop := -8 < i ∧ i < 0

instance (i : Int) : Decidable (Wraps i) := inferInstanceAs (Decidable (_ ∧ _))

theorem setBit_of_le {i : Int} (hi : i ≤ -8) : bitmapSetBit bm i = bm := by
  have hdiv : i.tdiv 8 < 0 := by
    have hle := Int.tdiv_le_tdiv (by decide : (0 : Int) < 8) hi
    have hneg : (-8 : Int).tdiv 8 = -1 := rfl
    omega
  unfold bitmapSetBit inRange
  rw [decide_eq_false fun h => by omega]
  rfl

/-- The count is exact. -/
def Exact (bm : Bitmap) : Prop := bm.nSet = bm.count

/-- The count does not fall short. -/
def AtLeast (bm : Bitmap) : Prop := bm.count ≤ bm.nSet

theorem Exact.atLeast (h : bm.Exact) : bm.AtLeast := Int.le_of_eq h.symm

theorem Exact.setBit (h : bm.Exact) {i : Int} (hi : ¬ Wraps i) : (bitmapSetBit bm i).Exact := by
  rcases Int.lt_or_le i 0 with hneg | hpos
  · rw [setBit_of_le (by unfold Wraps at hi; omega)]
    exact h
  · obtain ⟨n, rfl⟩ := Int.eq_ofNat_of_zero_le hpos
    unfold Exact at h ⊢
    rcases bm.setBit_cases n with heq | ⟨hcount, hset⟩
    · rw [heq]
      exact h
    · rw [hcount, hset, h]
      rfl

/-- A zero count means that no bit is set. -/
theorem AtLeast.clear (h : bm.AtLeast) (h0 : bm.nSet = 0) (i : Nat) : bm.bit i = false := by
  unfold AtLeast at h
  exact count_eq_zero.mp (by omega) i

end Bitmap

/-! ## What the operations do to the dirty bitmap -/

/-- A property of bitmaps that growing and clearing keep. -/
structure Tally (K : Bitmap → Prop) : Prop where
  grow : ∀ {bm bm' : Bitmap}, K bm → bm.Extends bm' → K bm'
  clear : ∀ bm, K (bitmapClearAll bm)

theorem tally_exact : Tally Bitmap.Exact where
  grow {bm bm'} h hext := by
    unfold Bitmap.Exact at h ⊢
    rw [hext.nSet, Bitmap.count_congr hext.bits, h]
  clear bm := by
    unfold Bitmap.Exact
    rw [Bitmap.count_clearAll]
    rfl

section Calls

variable {A : (r : Req) → Ans r → Prop} {K : Bitmap → Prop} {p : ObjsFile}

theorem OnlyValid.dirty {p p' : ObjsFile} (h : OnlyValid p p') : p'.dirty = p.dirty := by
  rw [show p' = _ from h]

theorem dirty_validMarkAll (p : ObjsFile) : (validMarkAll p).dirty = p.dirty := by
  unfold validMarkAll
  split <;> rfl

/-! ### Reading -/

theorem returns_fetchPagesFromAzure_dirty (pg : Int) :
    Returns A (fun r => r.1.dirty = p.dirty) (fetchPagesFromAzure p pg) := by
  unfold fetchPagesFromAzure
  refine .ite rfl ?_
  split
  · rfl
  refine .ite rfl (.ite rfl (.ite rfl ?_))
  refine returns_bind _ fun rbuf => .ite rfl (.ite rfl ?_)
  unfold storeFetched
  exact returns_sys_bind fun _ _ => .ite rfl (onlyValid_validMarkRange p _ _).dirty

theorem returns_fetchMissing_dirty : ∀ (n : Nat) (pg : Int) {p : ObjsFile},
    Returns A (fun r => r.1.dirty = p.dirty) (fetchMissing n pg p)
  | 0, _, _ => rfl
  | n + 1, pg, p => by
    unfold fetchMissing
    refine .ite (returns_fetchMissing_dirty n (pg + 1)) ?_
    refine (returns_fetchPagesFromAzure_dirty pg).bind ?_
    rintro ⟨q, rc⟩ hq
    refine .ite hq ?_
    exact (returns_fetchMissing_dirty n (pg + 1)).mono fun _ h => h.trans hq

theorem returns_mainDbRead_dirty (iAmt iOfst : Nat) :
    Returns A (fun r => r.1.dirty = p.dirty) (mainDbRead p iAmt iOfst) := by
  have hfetch : ∀ q : ObjsFile, Returns A (fun r => r.1.dirty = q.dirty)
      (fetchForRead q iAmt iOfst) := by
    intro q
    unfold fetchForRead
    dsimp only
    generalize cInt _ = startPage
    generalize pageCount _ _ = endPage
    exact .ite (returns_fetchMissing_dirty _ _) rfl
  unfold mainDbRead
  generalize cInt _ = reads
  extract_lets q
  have hq : q.dirty = p.dirty := by
    unfold q
    split <;> rfl
  generalize q = q at hq ⊢
  split
  · exact hq
  refine .ite hq ?_
  refine (hfetch q).bind fun (q', rc) hq' => ?_
  have hq' : q'.dirty = p.dirty := hq'.trans hq
  refine .ite hq' (.ite hq' ?_)
  exact returns_sys_bind fun _ _ => .ite hq' (.ite hq' (.ite hq' hq'))

/-! ### Refreshing -/

/-- A refresh that gets to its end clears the bitmap. -/
theorem returns_finishRefresh (hK : Tally K) (fd : Fd) (n : Nat) :
    Returns A (fun r => K r.1.dirty) (finishRefresh p fd n) := by
  unfold finishRefresh
  refine returns_bind _ fun p₁ => returns_bind _ fun (p₂, _) => ?_
  dsimp only
  refine .ite (hK.clear _) ?_
  refine returns_bind _ fun (valid, _) => ?_
  show K (validMarkAll _).dirty
  rw [dirty_validMarkAll]
  exact hK.clear _

theorem returns_refreshMainDbCache (hK : Tally K) (hp : K p.dirty) (n : Nat) (etag : Option ETag) :
    Returns A (fun r => K r.1.dirty) (refreshMainDbCache p n etag) := by
  unfold refreshMainDbCache
  refine .ite hp ?_
  split
  · exact hp
  extract_lets q
  have hq : K q.dirty := by
    unfold q
    split <;> exact hp
  generalize q = q at hq ⊢
  refine .ite ?_ ?_
  · exact returns_sys_bind fun _ _ => .ite hq (hK.clear _)
  refine returns_sys_bind fun _ _ => .ite hq (.ite hq ?_)
  refine returns_bind _ fun (arc, data) => .ite hq ?_
  refine returns_sys_bind fun _ _ => .ite hq ?_
  refine returns_sys_bind fun _ _ => .ite hq ?_
  refine returns_bind _ fun written => .ite hq ?_
  exact returns_sys_bind fun _ _ => .ite hq (returns_finishRefresh hK _ _)

/-! ### Locking -/

theorem returns_releaseLease_dirty :
    Returns A (fun q => q.dirty = p.dirty) (releaseLease p) := by
  unfold releaseLease
  split
  · exact returns_bind _ fun _ => rfl
  · rfl

theorem returns_sqliteObjsLock (hK : Tally K) (hp : K p.dirty) (eLock : LockLevel) :
    Returns A (fun r => K r.1.dirty) (sqliteObjsLock p eLock) := by
  have hread : ∀ {q : ObjsFile}, K q.dirty →
      Returns A (fun r => K r.1.dirty) (revalidateBeforeRead q) := by
    intro q hq
    unfold revalidateBeforeRead
    refine .ite hq (.ite hq (.ite hq (.ite hq ?_)))
    exact returns_bind _ fun head => .ite hq (.ite hq (returns_refreshMainDbCache hK hq _ _))
  have hlease : ∀ {q : ObjsFile} (e : Option ETag), K q.dirty →
      Returns A (fun r => K r.1.dirty) (revalidateAfterLease q e) := by
    intro q e hq
    unfold revalidateAfterLease
    refine .ite hq (.ite hq (.ite hq (.ite hq (.ite hq ?_))))
    refine returns_bind _ fun head => .ite hq (.ite hq (.ite ?_ hq))
    exact returns_refreshMainDbCache hK hq _ _
  have hacquire : Returns A (fun r => K r.1.dirty) (acquireLease p) := by
    unfold acquireLease
    refine returns_bind _ fun x => .ite hp (.ite hp ?_)
    refine returns_sys_bind fun now _ => ?_
    dsimp only
    refine (hlease x.etag (q := { p with
      leaseId := some x.leaseId
      leaseAcquiredAt := now.n
      leaseDuration := _ }) hp).bind fun (q, rv) hq => ?_
    dsimp only at hq ⊢
    refine .ite ?_ hq
    refine returns_releaseLease_dirty.bind fun q' hq' => ?_
    show K q'.dirty
    rw [hq']
    exact hq
  unfold sqliteObjsLock
  refine .ite hp (.ite ?_ (.ite hp (.ite hp ?_)))
  · refine (hread (q := { p with readsSinceSharedLock := 0 }) hp).bind fun (q, rv) hq => ?_
    dsimp only at hq ⊢
    exact .ite hq hq
  · refine hacquire.bind fun (q, rv) hq => ?_
    dsimp only at hq ⊢
    exact .ite hq hq

theorem returns_sqliteObjsUnlock_dirty (eLock : LockLevel) :
    Returns A (fun r => r.1.dirty = p.dirty) (sqliteObjsUnlock p eLock) := by
  unfold sqliteObjsUnlock
  refine .ite rfl (.ite ?_ rfl)
  exact returns_releaseLease_dirty.bind fun _ hq => hq

/-! ### Writing -/

theorem dirty_markOne (p : ObjsFile) (pageStart : Nat) :
    (markOne p pageStart).dirty = p.dirty ∨
    (markOne p pageStart).dirty = bitmapSetBit p.dirty (cInt (pageStart / p.pageSize : Nat)) := by
  unfold markOne dirtyMarkPage validMarkPage
  dsimp only
  split_ifs
  · exact .inl rfl
  · exact .inl rfl
  · exact .inr rfl
  · exact .inr rfl

/-- Marking keeps what setting the bits of its pages keeps. -/
theorem dirty_markWritten (n : Nat) : ∀ {p : ObjsFile} {k : Nat}, 0 < p.pageSize → K p.dirty →
    (∀ j, k ≤ j → j < k + n → ∀ {bm : Bitmap}, K bm → K (bitmapSetBit bm (cInt (j : Nat)))) →
    K (markWritten p (k * p.pageSize) n).dirty := by
  induction n with
  | zero => exact fun _ hp _ => hp
  | succ n ih =>
    intro p k hps hp hmark
    have hone := onlyMarks_markOne p (k * p.pageSize)
    rw [markWritten_succ]
    refine ih (by rw [hone.pageSize]; exact hps) ?_ fun j h₁ h₂ => hmark j (by omega) (by omega)
    rcases dirty_markOne p (k * p.pageSize) with heq | heq
    · rw [heq]
      exact hp
    · rw [heq, Nat.mul_div_cancel _ hps]
      exact hmark k (Nat.le_refl k) (by omega) hp

/-- The rounds of a write, however large the file is. -/
theorem lt_rounds_iff {ps iOfst fin j : Nat} (hps : 0 < ps) (hj : iOfst / ps ≤ j) :
    j < iOfst / ps + (fin - iOfst / ps * ps + ps - 1) / ps ↔ j * ps < fin := by
  generalize iOfst / ps = k at *
  obtain ⟨d, rfl⟩ := Nat.exists_eq_add_of_le hj
  have hiff : d < (fin - k * ps + ps - 1) / ps ↔ d * ps < fin - k * ps := by
    have hpages := pagesOf_le_iff (n := fin - k * ps) (k := d) hps
    unfold pagesOf at hpages
    rw [← Nat.not_le, hpages, Nat.not_le]
  rw [Nat.add_mul]
  omega

theorem returns_mainDbWrite_tally (hK : Tally K) (hp : K p.dirty) {buf : Bytes} {iOfst : Nat}
    (hmark : 0 < p.pageSize → ∀ k, pagesWritten p.pageSize iOfst buf.size k = true →
      ∀ {bm : Bitmap}, K bm → K (bitmapSetBit bm (cInt (k : Nat)))) :
    Returns A (fun r => K r.1.dirty) (mainDbWrite p buf iOfst) := by
  have hextend : ∀ (q : ObjsFile) (prev fin : Nat),
      Returns A (fun r => q.dirty.Extends r.1.dirty ∧ r.1.pageSize = q.pageSize)
        (extendCache q prev fin) := by
    intro q prev fin
    have hsame : q.dirty.Extends q.dirty ∧ q.pageSize = q.pageSize := ⟨.refl _, rfl⟩
    unfold extendCache
    refine .ite ?_ hsame
    unfold cacheEnsureSize
    split
    · exact hsame
    refine returns_sys_bind fun _ _ => .ite hsame (.ite hsame ?_)
    refine returns_sys_bind fun _ _ => .ite hsame ?_
    apply (returns_bitmapsEnsureCapacity q).mono
    rintro r ⟨hgrown, -⟩
    refine ⟨hgrown.dirty, ?_⟩
    rw [hgrown.eq]
  unfold mainDbWrite
  split
  · exact hp
  dsimp only
  refine (hextend _ _ _).bind ?_
  rintro ⟨q, rc⟩ ⟨hext, hps⟩
  have hq : K q.dirty := hK.grow hp hext
  have hps : q.pageSize = p.pageSize := hps
  refine .ite hq ?_
  refine returns_sys_bind fun _ _ => .ite hq ?_
  refine returns_leaseRenewIfNeeded.bind ?_
  rintro ⟨q₁, rc₁⟩ hmarks
  have hq₁ : K q₁.dirty := by
    rw [show q₁.dirty = q.dirty from congrArg Marks.dirty hmarks]
    exact hq
  have hps₁ : q₁.pageSize = p.pageSize := (congrArg Marks.pageSize hmarks).trans hps
  dsimp only
  refine .ite hq₁ ?_
  split
  · next hpos =>
    refine dirty_markWritten _ hpos hq₁ fun j h₁ h₂ => hmark (by rw [← hps₁]; exact hpos) j ?_
    rw [← hps₁]
    exact decide_eq_true ⟨h₁, (lt_rounds_iff hpos h₁).mp h₂⟩
  · exact hq₁

end Calls

/-! ## What the count is good for -/

/-- Every range begins at a dirty page that no other range begins at. -/
theorem length_coalesceFrom_le (dirty : Bitmap) (ps nData nPages : Nat) : ∀ n i,
    (coalesceFrom dirty ps nData nPages n i).length ≤
      (dirty.setBits.filter fun k => i ≤ k).card
  | 0, _ => Nat.zero_le _
  | n + 1, i => by
    unfold coalesceFrom
    split
    · exact Nat.zero_le _
    next hi =>
    split
    · -- the scan goes on after a clean page
      refine Nat.le_trans (length_coalesceFrom_le dirty ps nData nPages n (i + 1))
        (Finset.card_le_card ?_)
      intro k hk
      obtain ⟨hbit, hle⟩ := Finset.mem_filter.mp hk
      exact Finset.mem_filter.mpr ⟨hbit, by omega⟩
    next htest =>
    have hbit : dirty.bit i = true := by
      rw [Bitmap.testBit_eq] at htest
      simpa using htest
    have hend := (dirtyRun_spec dirty ps (nPages - i) i 0 (show i ≤ nPages by omega)).2.2.2
      (by omega) (by omega) hbit
    dsimp only
    generalize (dirtyRun dirty ps nPages (nPages - i) i 0).1 = e at hend
    have hrest := length_coalesceFrom_le dirty ps nData nPages n e
    -- the pages from the end of the run on, and the page the run begins at
    have hnot : i ∉ dirty.setBits.filter fun k => e ≤ k := by
      intro h
      have hle := (Finset.mem_filter.mp h).2
      omega
    have hsub : insert i (dirty.setBits.filter fun k => e ≤ k) ⊆
        dirty.setBits.filter fun k => i ≤ k := by
      intro k hk
      rcases Finset.mem_insert.mp hk with rfl | hk
      · exact Finset.mem_filter.mpr ⟨Bitmap.mem_setBits.mpr hbit, Nat.le_refl _⟩
      · obtain ⟨hset, hle⟩ := Finset.mem_filter.mp hk
        exact Finset.mem_filter.mpr ⟨hset, by omega⟩
    have hcard := Finset.card_le_card hsub
    rw [Finset.card_insert_of_notMem hnot] at hcard
    rw [List.length_cons]
    omega

/-- With one entry for each counted page there is room for every range. -/
theorem coalesceDirtyRanges_ne_none {p : ObjsFile} (h : p.dirty.AtLeast) :
    coalesceDirtyRanges p p.dirty.nSet ≠ none := by
  unfold coalesceDirtyRanges
  dsimp only
  split
  · exact Option.some_ne_none _
  split
  · exact Option.some_ne_none _
  rw [if_neg]
  · exact Option.some_ne_none _
  · rintro ⟨-, hlt⟩
    have hlength := length_coalesceFrom_le p.dirty p.pageSize p.nData
      (pageCount p.nData p.pageSize).toNat (pageCount p.nData p.pageSize).toNat 0
    have hfilter : (p.dirty.setBits.filter fun k => 0 ≤ k) = p.dirty.setBits :=
      Finset.filter_true_of_mem fun k _ => Nat.zero_le k
    rw [hfilter] at hlength
    unfold Bitmap.AtLeast Bitmap.count at h
    omega

/-- What the dirty count decides is decided rightly: a sync has room for its ranges, whatever else
of the file changed since the count was taken; it is skipped only when no bit is set; and a close
flushes when a bit is set, as far as the client can write. -/
structure CountSuffices (p : ObjsFile) : Prop where
  ranges : ∀ q : ObjsFile, q.dirty = p.dirty → coalesceDirtyRanges q q.dirty.nSet ≠ none
  sync : p.dirty.nSet = 0 → ∀ k, p.dirty.bit k = false
  close : ∀ v k, p.dirty.bit k = true → p.ops.pageBlobWrite = true →
    closeFlush v p = sqliteObjsSync v p

theorem countSuffices_of_atLeast {p : ObjsFile} (h : p.dirty.AtLeast) : CountSuffices p where
  ranges q hq := coalesceDirtyRanges_ne_none (hq.symm ▸ h)
  sync h0 := h.clear h0
  close v k hbit hwrite := by
    have hpos : 0 < p.dirty.nSet := by
      by_contra hle
      have hcount : p.dirty.count = 0 := by
        unfold Bitmap.AtLeast at h
        omega
      rw [Bitmap.count_eq_zero.mp hcount k] at hbit
      cases hbit
    unfold closeFlush
    rw [if_pos ⟨hpos, hwrite⟩]

/-! ## Every run -/

/-- The calls on a database. -/
inductive MainDbCall
  | xOpen (v : VfsData) (name : String) (uri : UriParams) (create : Bool)
  | xRead (iAmt iOfst : Nat)
  | xWrite (buf : Bytes) (iOfst : Nat)
  | xTruncate (size : Nat)
  | xSync (v : VfsData)
  | xLock (eLock : LockLevel)
  | xUnlock (eLock : LockLevel)
  | refresh (blobSize : Nat) (etag : Option ETag)
  | xClose (v : VfsData)

/-- The file in a build with these shifts. -/
def ObjsFile.builtWith (negShift : NegShift) (p : ObjsFile) : ObjsFile :=
  { p with
    dirty := { p.dirty with negShift := negShift }
    valid := { p.valid with negShift := negShift } }

/-- A database that is opened, used and closed in any order of calls. Any request may fail, and
between two calls anything may happen to the service and the disk. -/
def mainDbSession (negShift : NegShift) : Session World Ans (Option ObjsFile) MainDbCall where
  code
    | .xOpen v name uri create, none => do
      let (_, r) ← sqliteObjsOpen v name uri .mainDb create
      -- opening a file sets no dirty bit
      return r.toOption.map (ObjsFile.builtWith negShift)
    | .xRead iAmt iOfst, some p => do
      let (p, _) ← sqliteObjsRead p iAmt iOfst
      return some p
    | .xWrite buf iOfst, some p => do
      let (p, _) ← sqliteObjsWrite p buf iOfst
      return some p
    | .xTruncate size, some p => do
      let (p, _) ← sqliteObjsTruncate p size
      return some p
    | .xSync v, some p => do
      let (_, p, _) ← sqliteObjsSync v p
      return some p
    | .xLock eLock, some p => do
      let (p, _) ← sqliteObjsLock p eLock
      return some p
    | .xUnlock eLock, some p => do
      let (p, _) ← sqliteObjsUnlock p eLock
      return some p
    | .refresh blobSize etag, some p => do
      let (p, _) ← refreshMainDbCache p blobSize etag
      return some p
    | .xClose v, some p => do
      let _ ← sqliteObjsClose v p
      return none
    | _, s => return s
  may _ _ _ := True
  serve _ _ := anyAnswer
  outside _ _ := True

/-- Every page of a write has an index that does not wrap to one of -7 to -1. -/
def MainDbCall.fits : MainDbCall → Option ObjsFile → World → Prop
  | .xWrite buf iOfst, some p, _ => 0 < p.pageSize →
    ∀ k, pagesWritten p.pageSize iOfst buf.size k = true → ¬ Bitmap.Wraps (cInt (k : Nat))
  | _, _, _ => True

/-- The dirty bitmap of an open file has the property. -/
def Tallied (K : Bitmap → Prop) (s : Option ObjsFile) : Prop := ∀ p, s = some p → K p.dirty

section Session

variable {A : (r : Req) → Ans r → Prop} {K : Bitmap → Prop} {p : ObjsFile}

theorem tallied_some (h : K p.dirty) : Tallied K (some p) := by
  rintro _ ⟨rfl⟩
  exact h

theorem tallied_none : Tallied K none := fun _ h => nomatch h

/-- A database is opened with a cleared bitmap. -/
theorem returns_xOpen (hK : Tally K) (negShift : NegShift) (v : VfsData) (name : String)
    (uri : UriParams) (create : Bool) :
    Returns A (fun r => Tallied K (r.2.toOption.map (ObjsFile.builtWith negShift)))
      (sqliteObjsOpen v name uri .mainDb create) := by
  unfold sqliteObjsOpen
  refine .ite tallied_none ?_
  refine returns_sys_bind fun _ _ => .ite tallied_none ?_
  refine returns_bind _ fun sel => ?_
  split
  · exact tallied_none
  dsimp only
  refine returns_bind _ fun r => ?_
  cases r with
  | error rc => exact tallied_none
  | ok q => exact tallied_some (hK.clear { q.dirty with negShift := negShift })

theorem returns_xRead (hp : K p.dirty) (iAmt iOfst : Nat) :
    Returns A (fun r => K r.1.dirty) (sqliteObjsRead p iAmt iOfst) := by
  unfold sqliteObjsRead
  split
  · exact hp
  · exact hp
  · refine (returns_mainDbRead_dirty iAmt iOfst).mono fun r hr => ?_
    rw [hr]
    exact hp

theorem returns_xWrite (hK : Tally K) (hp : K p.dirty) {buf : Bytes} {iOfst : Nat}
    (hmark : 0 < p.pageSize → ∀ k, pagesWritten p.pageSize iOfst buf.size k = true →
      ∀ {bm : Bitmap}, K bm → K (bitmapSetBit bm (cInt (k : Nat)))) :
    Returns A (fun r => K r.1.dirty) (sqliteObjsWrite p buf iOfst) := by
  unfold sqliteObjsWrite
  split
  · exact returns_bind _ fun _ => hp
  · exact returns_bind _ fun _ => hp
  · exact returns_mainDbWrite_tally hK hp hmark

theorem returns_xTruncate (hp : K p.dirty) (size : Nat) :
    Returns A (fun r => K r.1.dirty) (sqliteObjsTruncate p size) := by
  unfold sqliteObjsTruncate
  split
  · exact .ite (returns_bind _ fun _ => hp) (.ite hp hp)
  · exact .ite hp hp
  · refine (returns_mainDbTruncate size).mono fun r hr => ?_
    have hdirty : r.1.dirty = p.dirty := by
      rcases hr with hr | hr
      · exact congrArg Marks.dirty hr
      · exact congrArg Marks.dirty hr
    rw [hdirty]
    exact hp

/-- A sync leaves the bitmap, or succeeds and clears it. -/
theorem returns_xSync (hK : Tally K) (hp : K p.dirty) (v : VfsData) :
    Returns A (fun r => K r.2.1.dirty) (sqliteObjsSync v p) := by
  unfold sqliteObjsSync
  split
  · exact returns_bind _ fun _ => hp
  · exact returns_bind _ fun _ => hp
  · refine returns_mainDbSync.bind fun (q, rc) hq => ?_
    rcases hq with hq | ⟨-, hq⟩
    · show K q.dirty
      rw [show q.dirty = p.dirty from congrArg Marks.dirty hq]
      exact hp
    · show K q.dirty
      rw [show q.dirty = bitmapClearAll p.dirty from congrArg Marks.dirty hq]
      exact hK.clear _

/-- One call keeps what growing, clearing and the marks of its write keep. -/
theorem returns_mainDbCall (hK : Tally K) (negShift : NegShift) {s : Option ObjsFile}
    (hs : Tallied K s) (c : MainDbCall)
    (hmark : ∀ buf iOfst p, c = .xWrite buf iOfst → s = some p → 0 < p.pageSize →
      ∀ k, pagesWritten p.pageSize iOfst buf.size k = true →
        ∀ {bm : Bitmap}, K bm → K (bitmapSetBit bm (cInt (k : Nat)))) :
    Returns A (Tallied K) ((mainDbSession negShift).code c s) := by
  cases s with
  | none =>
    cases c with
    | xOpen v name uri create =>
      exact (returns_xOpen hK negShift v name uri create).bind fun _ hr => hr
    | _ => exact tallied_none
  | some p =>
    have hp : K p.dirty := hs p rfl
    cases c with
    | xOpen v name uri create => exact hs
    | xRead iAmt iOfst => exact (returns_xRead hp iAmt iOfst).bind fun _ hr => tallied_some hr
    | xWrite buf iOfst =>
      exact (returns_xWrite hK hp (hmark buf iOfst p rfl rfl)).bind fun _ hr => tallied_some hr
    | xTruncate size => exact (returns_xTruncate hp size).bind fun _ hr => tallied_some hr
    | xSync v => exact (returns_xSync hK hp v).bind fun _ hr => tallied_some hr
    | xLock eLock => exact (returns_sqliteObjsLock hK hp eLock).bind fun _ hr => tallied_some hr
    | xUnlock eLock =>
      refine (returns_sqliteObjsUnlock_dirty eLock).bind fun r hr => tallied_some ?_
      rw [hr]
      exact hp
    | refresh blobSize etag =>
      exact (returns_refreshMainDbCache hK hp blobSize etag).bind fun _ hr => tallied_some hr
    | xClose v => exact returns_bind _ fun _ => tallied_none

end Session

variable {p : ObjsFile}

/-- In every run whose writes go to pages with indices that do not wrap to one of -7 to -1, the
dirty count is the number of set bits, whatever the build makes of a negative shift. -/
theorem dirty_count_exact {negShift : NegShift} {w₀ w : World}
    (h : ((mainDbSession negShift).restrict MainDbCall.fits).Reach none w₀ (some p) w) :
    p.dirty.nSet = p.dirty.count ∧ CountSuffices p := by
  have hinv : Tallied Bitmap.Exact (some p) := by
    refine Session.inv_of_reach (fun s _ => Tallied Bitmap.Exact s) tallied_none ?_ ?_ h
    · intro c s w hs hm
      refine wp_mono (fun _ _ hr _ => hr) (Returns.wp_alone (A := fun _ _ => True)
        (returns_mainDbCall tally_exact negShift hs c ?_) fun _ _ _ _ _ => trivial)
      rintro buf iOfst q rfl rfl hps k hk bm hbm
      exact hbm.setBit (hm.2 hps k hk)
    · exact fun _ _ _ hs _ => hs
  exact ⟨hinv p rfl, countSuffices_of_atLeast (hinv p rfl).atLeast⟩

/-- A new database and a write of one page. -/
theorem dirty_count_exact_new : ∃ p w,
    ((mainDbSession .unoptimised).restrict MainDbCall.fits).Reach none .new (some p) w ∧
    p.dirty.bit 0 = true ∧ p.dirty.nSet = p.dirty.count ∧ CountSuffices p := by
  obtain ⟨p₁, w₁, p, w, hopen, hps, hwrite, hbit⟩ : ∃ p₁ w₁ p w,
      Runs anyAnswer ((mainDbSession .unoptimised).code (.xOpen (.new 0) "db" {} true) none) .new
        (some p₁) w₁ ∧
      p₁.pageSize = 4096 ∧
      Runs anyAnswer ((mainDbSession .unoptimised).code
        (.xWrite (SparseFile.empty.truncate 4096) 0) (some p₁)) w₁ (some p) w ∧
        p.dirty.bit 0 = true :=
    ⟨_, _, _, _, runs_any 5 rfl, rfl, runs_any 4 rfl, by decide +kernel⟩
  have hreach : ((mainDbSession .unoptimised).restrict MainDbCall.fits).Reach none .new
      (some p) w := by
    refine .call (.xWrite (SparseFile.empty.truncate 4096) 0)
      (.call (.xOpen (.new 0) "db" {} true) .refl ⟨trivial, trivial⟩ hopen trivial)
      ⟨trivial, fun _ (k : Nat) hk => ?_⟩ hwrite trivial
    have hlt := (of_decide_eq_true hk).2
    rw [hps] at hlt
    have hzero : k = 0 := by
      have hsize : (SparseFile.empty.truncate 4096 : Bytes).size = 4096 := rfl
      omega
    rw [hzero]
    decide +kernel
  exact ⟨p, w, hreach, hbit, dirty_count_exact hreach⟩

set_option maxRecDepth 8000 in
/-- A database with 512-byte pages, a write of its first page and one of page 4294967289, both of
them within the limits of SQLite and of the service. In a build that shifts by the lowest bits of
the count the second write sets no bit and is counted. -/
theorem dirty_count_drifts :
    ∃ p w, (mainDbSession .unoptimised).Reach none smallPageWorld (some p) w ∧
    p.pageSize = 512 ∧ p.nData = 4294967290 * 512 ∧ AllowedSize p.nData p.pageSize ∧
    p.dirty.count = 1 ∧ p.dirty.nSet = 2 := by
  obtain ⟨p₁, w₁, p₂, w₂, p, w, hopen, hfirst, hsecond, hps, hn, hdata, hset⟩ : ∃ p₁ w₁ p₂ w₂ p w,
      Runs anyAnswer ((mainDbSession .unoptimised).code (.xOpen (.new 0) "db" {} false) none)
        smallPageWorld (some p₁) w₁ ∧
      Runs anyAnswer ((mainDbSession .unoptimised).code
        (.xWrite (SparseFile.empty.truncate 512) 0) (some p₁)) w₁ (some p₂) w₂ ∧
      Runs anyAnswer ((mainDbSession .unoptimised).code
        (.xWrite (SparseFile.empty.truncate 512) (4294967289 * 512)) (some p₂)) w₂ (some p) w ∧
      p.pageSize = 512 ∧ p.nData = 4294967290 * 512 ∧ p.dirty.data = [1] ∧ p.dirty.nSet = 2 :=
    ⟨_, _, _, _, _, _, runs_any 11 rfl, runs_any 1 rfl, runs_any 3 rfl, rfl, rfl, rfl, rfl⟩
  refine ⟨p, w, .call _ (.call _ (.call _ .refl trivial hopen trivial) trivial hfirst trivial)
    trivial hsecond trivial, hps, hn, ?_, ?_, hset⟩
  · rw [hn, hps]
    exact ⟨by decide, by decide⟩
  · have hone : (Bitmap.ofBytes [1] 2).count = 1 := by decide +kernel
    rw [Bitmap.count_congr
      (Bitmap.bit_congr (show p.dirty.data = (Bitmap.ofBytes [1] 2).data from hdata))]
    exact hone

end SqliteObjs
