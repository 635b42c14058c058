import SqliteObjs.MainDb.DirtyMarks
import SqliteObjs.MainDb.Equivalence
import SqliteObjs.MainDb.FailedWrite
import SqliteObjs.MainDb.ParallelRead

/-!
# Growth that is not synced

A write past the end of the file grows the cache file, and pages that were skipped are holes in
it. An eager file reads them as zeros. A lazy file asks the service for every page that is not
marked valid, and a page past the blob's end is not there: the range is refused and `xRead`
returns `SQLITE_IOERR_READ`.

So the two modes agree on such pages exactly where the read ends before it touches a page of the
file: it starts at the end of the last write or after it (`unsynced_growth_reads_equal_iff`).
-/

set_option autoImplicit false

namespace SqliteObjs

open Data CS CS.Program

/-! ## A new cache file -/

/-- A file `q` after its cache file was filled for a blob of `n` bytes. -/
structure Fresh (q : ObjsFile) (n : Nat) (p : ObjsFile) : Prop where
  only : OnlyContent q p
  nData : p.nData = n
  blank : ∀ k, pagesOf n p.pageSize ≤ k → p.valid.bit k = false

/-- A finished download is fresh. -/
def OpensFresh (q : ObjsFile) (n : Nat) : Except Rc ObjsFile → Prop
  | .error _ => True
  | .ok p => Fresh q n p

section Fresh

variable {A : (r : Req) → Ans r → Prop} {p q : ObjsFile} {fd : Fd} {n : Nat}

theorem returns_redetect_content {α : Type} {Q : α → Prop} {f : ObjsFile × Rc → Prog α}
    (hf : ∀ p' rc, OnlyContent p p' → p'.nData = p.nData → (∀ k, p'.valid.bit k = p.valid.bit k) →
      Returns A Q (f (p', rc))) :
    Returns A Q (do
      let p ← redetectPageSize p fd
      let r ← bitmapsEnsureCapacity p
      f r) := by
  have hps : Returns A (fun p' => p' = { p with pageSize := p'.pageSize })
      (redetectPageSize p fd) := by
    unfold redetectPageSize
    refine returns_sys_bind fun x _ => ?_
    split
    · dsimp only
      split
      · rfl
      · rfl
    · rfl
  refine hps.bind fun p₁ hp₁ => ?_
  refine (returns_bitmapsEnsureCapacity p₁).bind fun (p₂, rc) ⟨hgrown, _⟩ => ?_
  dsimp only at hgrown
  refine hf p₂ rc ?_ ?_ fun k => ?_
  · unfold OnlyContent
    rw [hgrown.eq, hp₁]
  · rw [hgrown.eq, hp₁]
  · rw [hgrown.valid.bits, hp₁]

theorem returns_failDownload_fresh (rc : Rc) : Returns A (OpensFresh q n) (failDownload p rc) := by
  unfold failDownload
  split
  · trivial
  · exact returns_sys_bind fun _ _ => trivial

/-- The marks of the first bytes of a file. -/
theorem bit_validMarkRange_zero {e k : Nat} (he : e ≤ page1Bootstrap)
    (hk : pagesOf e p.pageSize ≤ k) : (validMarkRange p 0 e).valid.bit k = p.valid.bit k := by
  unfold validMarkRange
  split
  · rfl
  have hsmall : pagesOf e p.pageSize ≤ maxPages :=
    Nat.le_trans (pagesOf_le_self _ _) (Nat.le_trans he (by decide))
  rw [Nat.zero_div, pageCount_eq hsmall]
  dsimp only
  rw [show cInt ((0 : Nat) : Int) = ((0 : Nat) : Int) from rfl, Bitmap.bit_setRange]
  have hno : ¬ (0 ≤ k ∧ k < pagesOf e p.pageSize) := by omega
  rw [decide_eq_false hno, Bool.false_and, Bool.or_false]

theorem returns_lazyDownload_fresh : Returns A (OpensFresh p n) (lazyDownload p fd n) := by
  unfold lazyDownload
  refine returns_sys_bind fun _ _ => .ite (returns_failDownload_fresh _) ?_
  refine returns_bind _ fun bbuf => .ite (returns_failDownload_fresh _) ?_
  refine returns_sys_bind fun _ _ => .ite (returns_failDownload_fresh _) ?_
  refine returns_redetect_content (p := { p with nData := n }) fun p' rc honly hn _ => ?_
  dsimp only
  generalize hboot : (bbuf.body.slice 0 (min page1Bootstrap n)).size = boot
  have hle : boot ≤ min page1Bootstrap n := by
    rw [← hboot, SparseFile.slice_size]
    omega
  have hv := onlyValid_validMarkRange { p' with valid := bitmapClearAll p'.valid } 0 boot
  have hbit : ∀ k, pagesOf n p'.pageSize ≤ k →
      (validMarkRange { p' with valid := bitmapClearAll p'.valid } 0 boot).valid.bit k = false := by
    intro k hk
    exact (bit_validMarkRange_zero (p := { p' with valid := bitmapClearAll p'.valid }) (by omega)
      (Nat.le_trans (pagesOf_mono (by omega)) hk)).trans (Bitmap.bit_clearAll _ k)
  generalize validMarkRange _ _ _ = q at hv hbit ⊢
  unfold OnlyValid at hv
  refine ⟨?_, ?_, ?_⟩
  · unfold OnlyContent at honly ⊢
    rw [hv, honly]
  · rw [hv]
    exact hn
  · dsimp only
    intro k hk
    rw [hv] at hk
    exact hbit k hk

theorem returns_eagerDownload_fresh (hblank : ∀ k, p.valid.bit k = false) :
    Returns A (OpensFresh p n) (eagerDownload p fd n) := by
  unfold eagerDownload
  refine returns_sys_bind fun _ _ => .ite (returns_failDownload_fresh _) ?_
  refine returns_bind _ fun (arc, data) => ?_
  dsimp only
  refine .ite (returns_failDownload_fresh _) ?_
  refine returns_bind _ fun written => .ite (returns_failDownload_fresh _) ?_
  refine returns_sys_bind fun _ _ => .ite (returns_failDownload_fresh _) ?_
  refine returns_redetect_content (p := { p with nData := n }) fun p' rc honly hn hbits => ?_
  refine ⟨?_, hn, fun k _ => (hbits k).trans (hblank k)⟩
  unfold OnlyContent at honly ⊢
  rw [honly]

theorem returns_cacheDownload_fresh (hblank : ∀ k, p.valid.bit k = false) :
    Returns A (OpensFresh p n) (cacheDownload p fd n) := by
  unfold cacheDownload
  split
  · next h0 => exact ⟨rfl, h0.symm, fun k _ => hblank k⟩
  · exact .ite returns_lazyDownload_fresh (returns_eagerDownload_fresh hblank)

theorem returns_openTemp_fresh {uri : UriParams} (hblank : ∀ k, p.valid.bit k = false) :
    Returns A (fun r => ∀ p', r = .ok p' → ∃ fd path,
      Fresh { p with cacheFd := some fd, zCachePath := some path } n p') (openTemp p uri n) := by
  have hcache : Returns A (fun r => ∀ q fd, r = .ok (q, fd) → ∃ path,
      q = { p with cacheFd := some fd, zCachePath := some path }) (openTempCache p uri) := by
    unfold openTempCache
    refine returns_sys_bind fun _ _ => .ite ?_ (returns_sys_bind fun f _ => .ite ?_ ?_)
    · exact fun _ _ h => by cases h
    · exact fun _ _ h => by cases h
    · rintro _ _ ⟨⟩
      exact ⟨f.path, rfl⟩
  unfold openTemp
  refine hcache.bind fun r hr => ?_
  split
  · exact fun _ h => by cases h
  · next q fd =>
    obtain ⟨path, rfl⟩ := hr q fd rfl
    have hfresh : Returns A (OpensFresh { p with cacheFd := some fd, zCachePath := some path } n)
        (cacheDownload { p with cacheFd := some fd, zCachePath := some path } fd n) :=
      returns_cacheDownload_fresh hblank
    refine hfresh.mono fun r hr p' hp' => ⟨fd, path, ?_⟩
    rw [hp'] at hr
    exact hr

/-- `xOpen` without cache reuse: the size of the blob, and no page valid past it. -/
theorem wp_sqliteObjsOpen_fresh {v : VfsData} {name : String} {uri : UriParams} {create : Bool}
    {ops : AzureOps} {ctx : Nat} {a : Azure} {b : Blob} {d : Disk} (hreuse : uri.cacheReuse = false)
    (hsel : selectedOps v uri = some (ops, ctx)) (hops : ops.Complete)
    (hb : a.blobs ⟨ctx, name⟩ = some b) :
    wp soundly (sqliteObjsOpen v name uri .mainDb create) (fun r _ => ∀ p, r.2 = .ok p →
      p.eFileType = .mainDb ∧ p.prefetchMode = uri.prefetch ∧ p.cacheFd ≠ none ∧
      p.nData = b.content.size ∧ ∀ k, pagesOf b.content.size p.pageSize ≤ k → p.valid.bit k = false)
      ⟨a, d⟩ := by
  refine wp_sqliteObjsOpen_mainDb quiet_alone (fun _ => stable_alone) ?_ ?_
  · exact fun rc p h => by cases h
  intro ops' ctx' hsel'
  obtain ⟨rfl, rfl⟩ : ops = ops' ∧ ctx = ctx' := by
    rw [hsel] at hsel'
    exact Prod.mk.inj (Option.some.inj hsel')
  generalize hnew : newFile ops ctx name uri .mainDb = q
  have hblob : a.blobs q.blob = some b := by rw [← hnew]; exact hb
  have hcomplete : q.ops.Complete := by rw [← hnew]; exact hops
  unfold openMainDb checkExists
  rw [if_pos (show q.ops.blobExists = true by rw [hcomplete]; rfl)]
  refine wp_azBlobExists_bind (fun c hc => hc.1) ?_
  rw [hblob]
  dsimp only
  rw [if_neg (by simp), if_pos (by rw [hcomplete]; rfl)]
  unfold openExisting
  refine wp_azBlobGetProperties_sound hblob fun x hx het hsize => ?_
  rw [if_neg (by simpa using hx), hsize]
  dsimp only
  rw [if_neg (by simp [hreuse])]
  refine wp_mono ?_ ((returns_openTemp_fresh (A := fun _ _ => True) (n := b.content.size)
    (p := { q with etag := x.etag }) fun k => ?_).wp_alone fun _ _ _ _ _ => trivial)
  · intro r w' hr
    refine wp_alone_ret.mpr fun p hp => ?_
    cases r with
    | error rc => cases hp
    | ok p' =>
      obtain rfl := Except.ok.inj hp
      obtain ⟨fd, path, hfresh⟩ := hr p' rfl
      have honly := hfresh.only
      unfold OnlyContent at honly
      refine ⟨?_, ?_, ?_, hfresh.nData, hfresh.blank⟩
      · rw [honly, ← hnew]
        rfl
      · rw [honly, ← hnew]
        rfl
      · rw [honly]
        exact Option.some_ne_none fd
  · rw [← hnew]
    exact Bitmap.bit_null k

end Fresh

/-! ## Writes -/

/-- `xWrite` calls one after the other, whatever they return. -/
def xWrites : List (Bytes × Nat) → ObjsFile → Prog ObjsFile
  | [], p => return p
  | x :: ws, p => do
    let (p, _) ← sqliteObjsWrite p x.1 x.2
    xWrites ws p

/-- The size of a file of `n` bytes after these writes. -/
def sizeAfter (n : Nat) (ws : List (Bytes × Nat)) : Nat :=
  ws.foldl (fun n x => max n (x.2 + x.1.size)) n

theorem sizeAfter_le_iff {n m : Nat} {ws : List (Bytes × Nat)} :
    sizeAfter n ws ≤ m ↔ n ≤ m ∧ ∀ x ∈ ws, x.2 + x.1.size ≤ m := by
  induction ws generalizing n with
  | nil => simp [sizeAfter]
  | cons x ws ih =>
    rw [sizeAfter, List.foldl_cons, ← sizeAfter, ih, List.forall_mem_cons, Nat.max_le,
      and_assoc]

/-- The write `x` touches page `k`. -/
def WritesPage (ps : Nat) (x : Bytes × Nat) (k : Nat) : Prop :=
  x.2 / ps ≤ k ∧ k * ps < x.2 + x.1.size

section Writes

variable {i : BlobId} {C : Bytes} {fd : Fd} {K : Nat → Prop} {p : ObjsFile} {w : World} {n : Nat}

theorem Written.trans {p p' p'' : ObjsFile} (h : Written p p') (h' : Written p' p'') :
    Written p p'' := by
  unfold Written at *
  rw [h', h]

theorem renewKeeps_sound (P : Bytes → Prop) :
    RenewKeeps soundly p fun w => w.azure.Has p.blob P := by
  intro id _ w x w' hP h
  obtain ⟨ch, -, hs⟩ := h
  exact ⟨trivial, hP.renew (respond_azure hs)⟩

/-- On a machine that works a write grows the file to its end. -/
theorem wp_mainDbWrite_size (hfd : p.cacheFd = some fd) (buf : Bytes) (iOfst : Nat) :
    wp soundly (mainDbWrite p buf iOfst)
      (fun r _ => Written p r.1 ∧ r.1.nData = max p.nData (iOfst + buf.size)) w := by
  have hE := seen_sound
  have hA := fact_sound fun _ => True
  unfold mainDbWrite
  split
  · next hno => exact absurd (hfd.symm.trans hno) (by simp)
  next fd' hfd' =>
  obtain rfl : fd = fd' := Option.some.inj (hfd.symm.trans hfd')
  dsimp only
  rw [wp_bind]
  refine wp_mono ?_ (wp_extendCache_get
    (p := { p with nData := max p.nData (iOfst + buf.size) }) hfd p.nData (iOfst + buf.size))
  rintro ⟨q, rc⟩ w₁ ⟨hgrown, -, hok⟩
  dsimp only at hgrown hok ⊢
  rw [if_neg fun h => h (hok fun c hc => hc.2)]
  have hk : Knows id (fun _ => True) w₁.disk w₁ := ⟨trivial, rfl⟩
  refine hk.wp_sys_bind hE hA fun c w₂ hc hk₂ => ?_
  simp only [Disk.serve, hc.2, Bool.false_eq_true, if_false, Bool.not_true] at hk₂ ⊢
  refine hk₂.wp_leaseRenew_bind hE hA (fun _ _ _ _ _ _ _ => ⟨trivial, trivial⟩)
    fun t rc' w₃ _ _ => ?_
  -- whatever the renewal says, the record has its new size
  have hq : Written p q ∧ q.nData = max p.nData (iOfst + buf.size) := by
    refine ⟨?_, by rw [hgrown.eq]⟩
    unfold Written
    rw [hgrown.eq]
  have hq' : Written p { q with leaseAcquiredAt := t } := by
    obtain ⟨hq, -⟩ := hq
    unfold Written at hq ⊢
    rw [hq]
  split
  · exact wp_alone_ret.mpr ⟨hq', hq.2⟩
  split
  · have honly := onlyMarks_markWritten
      ((iOfst + buf.size - iOfst / q.pageSize * q.pageSize + q.pageSize - 1) / q.pageSize)
      { q with leaseAcquiredAt := t } (iOfst / q.pageSize * q.pageSize)
    refine wp_alone_ret.mpr ⟨hq'.trans ?_, honly.nData.trans hq.2⟩
    unfold Written
    rw [honly.eq]
  · exact wp_alone_ret.mpr ⟨hq', hq.2⟩

theorem wp_xWrites_size (hkind : p.eFileType = .mainDb) (hfd : p.cacheFd = some fd)
    (ws : List (Bytes × Nat)) :
    wp soundly (xWrites ws p) (fun p' _ => Written p p' ∧ p'.nData = sizeAfter p.nData ws) w := by
  induction ws generalizing p w with
  | nil => exact wp_alone_ret.mpr ⟨rfl, rfl⟩
  | cons x ws ih =>
    unfold xWrites sqliteObjsWrite
    rw [hkind, wp_bind]
    refine wp_mono ?_ (wp_mainDbWrite_size hfd x.1 x.2)
    rintro ⟨q, rc⟩ w₁ ⟨hq, hn⟩
    dsimp only at hq hn ⊢
    have hq' := hq
    unfold Written at hq'
    refine wp_mono ?_ (ih (by rw [hq']; exact hkind) (by rw [hq']; exact hfd))
    rintro p' w' ⟨hp', hn'⟩
    refine ⟨hq.trans hp', ?_⟩
    rw [hn', hn]
    rfl

/-- No page of `K` was written: the marks of a lazy file say so. -/
structure Untouched (i : BlobId) (C : Bytes) (fd : Fd) (K : Nat → Prop) (p : ObjsFile) (w : World) :
    Prop where
  kind : p.eFileType = .mainDb
  blob : p.blob = i
  cacheFd : p.cacheFd = some fd
  page : 0 < p.pageSize
  has : w.azure.Has i (· = C)
  cacheSize : (w.disk.inode fd).size = p.nData
  unmarked : ∀ k, K k → p.valid.bit k = false
  room : p.prefetchMode = .none → pagesOf p.nData p.pageSize ≤ 8 * p.valid.nAlloc

/-- A write that touches no page of `K`. -/
theorem Untouched.wp_write (h : Untouched i C fd K p w) {x : Bytes × Nat}
    (hend : pagesOf (x.2 + x.1.size) p.pageSize ≤ maxPages)
    (hno : ∀ k, K k → ¬ WritesPage p.pageSize x k) :
    wp soundly (sqliteObjsWrite p x.1 x.2)
      (fun r w' => Untouched i C fd K r.1 w' ∧ r.1.pageSize = p.pageSize) w := by
  have hk : Knows id (fun w => w.azure.Has p.blob (· = C)) w.disk w := by
    refine ⟨?_, rfl⟩
    rw [h.blob]
    exact h.has
  unfold sqliteObjsWrite
  rw [h.kind]
  refine hk.wp_mainDbWrite_of seen_sound (fact_sound fun a => a.Has p.blob _)
    (fun _ _ _ hc => hc.2) allocates_sound (renewKeeps_sound _) h.cacheFd h.page h.cacheSize ?_
  intro q t w' hgrown hroom hk'
  have hps : q.pageSize = p.pageSize := by rw [hgrown.eq]
  have hn : q.nData = max p.nData (x.2 + x.1.size) := by rw [hgrown.eq]
  have hmode : q.prefetchMode = p.prefetchMode := by rw [hgrown.eq]
  have hq : Untouched i C fd K { q with leaseAcquiredAt := t } w' := by
    refine ⟨?_, ?_, ?_, ?_, ?_, ?_, fun k hkk => ?_, fun hm => ?_⟩
    · rw [hgrown.eq]
      exact h.kind
    · rw [← h.blob, hgrown.eq]
      rfl
    · rw [hgrown.eq]
      exact h.cacheFd
    · rw [hgrown.eq]
      exact h.page
    · rw [← h.blob]
      exact hk'.1
    · rw [show w'.disk = _ from hk'.2, Disk.setInode_inode_self, SparseFile.pwrite_size_of_le]
      · exact hn.symm
      · exact Nat.le_max_right _ _
    · exact (hgrown.valid.bits k).trans (h.unmarked k hkk)
    · dsimp only
      rw [hps]
      rcases Nat.lt_or_ge p.nData (x.2 + x.1.size) with hlt | hge
      · exact (hroom hlt hend).2 (hmode ▸ hm)
      · rw [hn, Nat.max_eq_left hge]
        exact Nat.le_trans (h.room (hmode ▸ hm)) (Nat.mul_le_mul_left 8 hgrown.valid.nAlloc)
  refine ⟨fun rc _ _ => ⟨hq, hps⟩, ?_⟩
  have honly := onlyMarks_markWritten
    ((x.2 + x.1.size - x.2 / q.pageSize * q.pageSize + q.pageSize - 1) / q.pageSize)
    { q with leaseAcquiredAt := t } (x.2 / q.pageSize * q.pageSize)
  have hlast : pagesOf (x.2 + x.1.size) q.pageSize ≤ maxPages := by
    rw [hps]
    exact hend
  obtain ⟨halloc, hbit⟩ := markWritten_valid_span (q := { q with leaseAcquiredAt := t }) hq.page
    (Nat.le_add_right x.2 x.1.size) hlast
  dsimp only at halloc hbit
  generalize markWritten _ _ _ = q' at honly halloc hbit ⊢
  have hq' := honly.eq
  refine ⟨⟨?_, ?_, ?_, ?_, hq.has, ?_, fun k hkk => ?_, fun hm => ?_⟩, honly.pageSize.trans hps⟩
  · rw [hq']
    exact hq.kind
  · rw [← hq.blob, hq']
    rfl
  · rw [hq']
    exact hq.cacheFd
  · rw [hq']
    exact hq.page
  · exact hq.cacheSize.trans honly.nData.symm
  · -- the marks are of pages that the write touches
    rw [← Bool.not_eq_true, hbit k]
    rintro (hb | ⟨h₁, h₂, -⟩)
    · rw [hq.unmarked k hkk] at hb
      exact Bool.noConfusion hb
    · rw [hps] at h₁ h₂
      exact hno k hkk ⟨h₁, h₂⟩
  · rw [halloc, honly.nData, honly.pageSize]
    refine hq.room ?_
    rw [hq'] at hm
    exact hm

theorem Untouched.wp_xWrites (h : Untouched i C fd K p w) (ws : List (Bytes × Nat))
    (hend : ∀ x ∈ ws, pagesOf (x.2 + x.1.size) p.pageSize ≤ maxPages)
    (hno : ∀ k, K k → ∀ x ∈ ws, ¬ WritesPage p.pageSize x k) :
    wp soundly (xWrites ws p)
      (fun p' w' => Untouched i C fd K p' w' ∧ p'.pageSize = p.pageSize) w := by
  induction ws generalizing p w with
  | nil => exact wp_alone_ret.mpr ⟨h, rfl⟩
  | cons x ws ih =>
    unfold xWrites
    rw [wp_bind]
    refine wp_mono ?_ (h.wp_write (hend x List.mem_cons_self) fun k hk =>
      hno k hk x List.mem_cons_self)
    rintro ⟨q, rc⟩ w₁ ⟨hq, hps⟩
    dsimp only at hq hps ⊢
    refine wp_mono ?_ (ih hq (fun y hy => ?_) fun k hk y hy => ?_)
    · exact fun p' w' hp' => ⟨hp'.1, hp'.2.trans hps⟩
    · rw [hps]
      exact hend y (List.mem_cons_of_mem _ hy)
    · rw [hps]
      exact hno k hk y (List.mem_cons_of_mem _ hy)

end Writes

/-! ## Reads -/

section Reads

variable {i : BlobId} {C : Bytes} {fd : Fd} {K : Nat → Prop} {p : ObjsFile} {w : World}
  {iAmt iOfst : Nat}

/-- A read past the end is short; any other fetches its pages and returns what the cache file
has, in full or short. -/
theorem wp_mainDbRead_of {R : Rc × Bytes → Prop}
    (hpast : p.cacheFd = none ∨ p.nData ≤ iOfst → R (.ioerrShortRead, zeroFill iAmt))
    (hfetch : ∀ n, iOfst < p.nData → p.cacheFd ≠ none →
      wp soundly (fetchForRead { p with readsSinceSharedLock := n } iAmt iOfst) (fun r _ =>
        (r.2 ≠ .ok → R (r.2, zeroFill iAmt)) ∧
        (r.2 = .ok → min (r.1.nData - iOfst) iAmt = 0 → R (.ioerrShortRead, zeroFill iAmt)) ∧
        (r.2 = .ok → min (r.1.nData - iOfst) iAmt ≠ 0 →
          ∀ rc data, rc = .ok ∨ rc = .ioerrShortRead → R (rc, data))) w) :
    wp soundly (mainDbRead p iAmt iOfst) (fun r _ => R r.2) w := by
  unfold mainDbRead
  obtain ⟨n, hq⟩ : ∃ n, (if LockLevel.shared.rank ≤ p.eLock.rank then
      { p with readsSinceSharedLock := cInt (p.readsSinceSharedLock + 1) } else p) =
      { p with readsSinceSharedLock := n } := by
    split
    · exact ⟨_, rfl⟩
    · exact ⟨p.readsSinceSharedLock, rfl⟩
  rw [hq]
  dsimp only
  split
  · next hnone => exact wp_alone_ret.mpr (hpast (Or.inl hnone))
  next fd hfd =>
  split
  · next hle => exact wp_alone_ret.mpr (hpast (Or.inr hle))
  next hin =>
  rw [wp_bind]
  refine wp_mono ?_ (hfetch n (by omega) (by rw [hfd]; simp))
  rintro ⟨q, rc⟩ w₁ ⟨hfail, hempty, hsome⟩
  dsimp only at hfail hempty hsome ⊢
  split
  · next hne => exact wp_alone_ret.mpr (hfail hne)
  next hok =>
  have hok : rc = .ok := by simpa using hok
  split
  · next h0 => exact wp_alone_ret.mpr (hempty hok h0)
  next hne =>
  refine wp_sys_sound fun c hc => ?_
  simp only [Disk.serve, hc.2, Bool.false_eq_true, if_false, Bool.not_true]
  split
  · exact wp_alone_ret.mpr (hsome hok hne _ _ (Or.inr rfl))
  split
  · exact wp_alone_ret.mpr (hsome hok hne _ _ (Or.inr rfl))
  · exact wp_alone_ret.mpr (hsome hok hne _ _ (Or.inl rfl))

/-- A read that starts at the end of the file or after it. -/
theorem wp_mainDbRead_past (hpast : p.nData ≤ iOfst) :
    wp soundly (mainDbRead p iAmt iOfst)
      (fun r _ => r.2 = (.ioerrShortRead, zeroFill iAmt)) w :=
  wp_mainDbRead_of (R := (· = _)) (fun _ => rfl) fun _ hin _ => absurd hin (by omega)

/-- An empty read at a page boundary fetches no page. -/
theorem wp_mainDbRead_empty (hal : p.prefetchMode = .none → p.pageSize ∣ iOfst) :
    wp soundly (mainDbRead p 0 iOfst) (fun r _ => r.2 = (.ioerrShortRead, zeroFill 0)) w := by
  refine wp_mainDbRead_of (R := (· = _)) (fun _ => rfl) fun n hin _ => ?_
  have hnone : wp soundly (fetchForRead { p with readsSinceSharedLock := n } 0 iOfst)
      (fun r _ => r.2 = .ok) w := by
    unfold fetchForRead
    split
    · next hlazy =>
      have hpos : 0 < p.pageSize := hlazy.2.2
      have hpages : pagesOf iOfst p.pageSize = iOfst / p.pageSize := by
        obtain ⟨k, hk⟩ := hal hlazy.1
        rw [hk, pagesOf, Nat.add_sub_assoc hpos, Nat.mul_add_div hpos, Nat.div_eq_of_lt (by omega),
          Nat.add_zero, Nat.mul_div_cancel_left _ hpos]
      have hcount : pageCount iOfst p.pageSize = cInt (iOfst / p.pageSize : Nat) :=
        congrArg (fun m : Nat => cInt m) hpages
      dsimp only
      rw [Nat.add_zero, Nat.min_eq_left (by omega), hcount, Int.sub_self]
      exact wp_alone_ret.mpr rfl
    · exact wp_alone_ret.mpr rfl
  refine wp_mono ?_ hnone
  intro r w' hr
  exact ⟨fun hne => absurd hr hne, fun _ _ => rfl, fun _ hne => absurd (Nat.min_zero _) hne⟩

/-- Reading an eager file does not fail on a machine that works. -/
theorem wp_mainDbRead_eager (hall : p.prefetchMode ≠ .none) :
    wp soundly (mainDbRead p iAmt iOfst) (fun r _ => r.2.1 ≠ .ioerrRead) w := by
  refine wp_mainDbRead_of (R := fun x => x.1 ≠ .ioerrRead) (fun _ => by simp) fun n _ _ => ?_
  unfold fetchForRead
  rw [if_neg fun h => hall h.1]
  refine wp_alone_ret.mpr ⟨fun hne => absurd rfl hne, fun _ _ => by simp, fun _ _ rc data hrc => ?_⟩
  rcases hrc with rfl | rfl <;> simp

/-- A range past the end of the blob is refused. -/
theorem wp_fetchPagesFromAzure_refused (hfd : p.cacheFd = some fd) {k : Nat}
    (hhas : w.azure.Has p.blob (· = C)) (hpast : C.size ≤ k * p.pageSize)
    (hin : k * p.pageSize < p.nData) :
    wp soundly (fetchPagesFromAzure p k) (fun r _ => r.2 = .ioerrRead) w := by
  obtain ⟨b, hb, rfl⟩ := hhas
  have hk : Knows id (fun w' => w'.azure = w.azure) w.disk w := ⟨rfl, rfl⟩
  have hR := reading_sound hb True
  unfold fetchPagesFromAzure
  split
  · exact wp_alone_ret.mpr rfl
  rw [hfd]
  dsimp only
  split
  · exact wp_alone_ret.mpr rfl
  rw [if_neg (by omega), Int.toNat_natCast, if_neg (by omega)]
  unfold azPageBlobRead
  split
  · exact wp_alone_ret.mpr rfl
  refine SqliteObjs.wp_execute_bind ((fact_sound (· = w.azure)).knows_stable seen_sound) hk ?_
  intro w₁ x w₂ hk₁ hs
  have hb₁ : w₁.azure.blobs p.blob = some b := by
    rw [show w₁.azure = w.azure from hk₁.1]
    exact hb
  obtain ⟨hstay, hbody⟩ := served_read hs hb₁
  have hk₂ : Knows id (fun w' => w'.azure = w.azure) w.disk w₂ :=
    ⟨hstay.trans hk₁.1, (seen_sound.azure_disk hs).trans hk₁.2⟩
  refine ⟨trivial, fun _ => hk₂, ?_⟩
  rw [if_pos fun hok => by have := (hbody hok).1; omega]
  exact wp_alone_ret.mpr rfl

/-- A lazy file asks for a page that only the file has. -/
theorem Untouched.wp_read_refused (h : Untouched i C fd K p w) (hlazy : p.prefetchMode = .none)
    (hsmall : pagesOf p.nData p.pageSize ≤ maxPages) (hin : iOfst < p.nData)
    (hpage : iOfst / p.pageSize * p.pageSize < iOfst + iAmt) (hK : K (iOfst / p.pageSize))
    (hpast : C.size ≤ iOfst / p.pageSize * p.pageSize) :
    wp soundly (mainDbRead p iAmt iOfst) (fun r _ => r.2.1 = .ioerrRead) w := by
  have hps := h.page
  have hstart : iOfst / p.pageSize * p.pageSize ≤ iOfst := Nat.div_mul_le_self _ _
  have hfirst : iOfst / p.pageSize < pagesOf (min (iOfst + iAmt) p.nData) p.pageSize := by
    have := div_lt_pagesOf hps (n := min (iOfst + iAmt) p.nData)
      (j := iOfst / p.pageSize * p.pageSize) (by omega)
    rwa [Nat.mul_div_cancel _ hps] at this
  have hlast : pagesOf (min (iOfst + iAmt) p.nData) p.pageSize ≤ maxPages :=
    Nat.le_trans (pagesOf_mono (Nat.min_le_right _ _)) hsmall
  have hmarks : p.valid.data ≠ [] := by
    intro hnil
    have hroom := h.room hlazy
    have := div_lt_pagesOf hps hin
    rw [show p.valid.nAlloc = 0 by simp [Bitmap.nAlloc, hnil]] at hroom
    exact absurd (Nat.lt_of_lt_of_le this hroom) (Nat.not_lt_zero _)
  refine wp_mainDbRead_of (R := fun x => x.1 = .ioerrRead) ?_ fun n _ _ => ?_
  · rintro (hnone | hle)
    · exact absurd (h.cacheFd.symm.trans hnone) (by simp)
    · exact absurd hle (by omega)
  have hfetch : wp soundly (fetchForRead { p with readsSinceSharedLock := n } iAmt iOfst)
      (fun r _ => r.2 = .ioerrRead) w := by
    unfold fetchForRead
    rw [if_pos ⟨hlazy, hmarks, hps⟩]
    dsimp only
    rw [pageCount_eq hlast, cInt_of_le_maxPages (by omega)]
    obtain ⟨m, hm⟩ : ∃ m, ((pagesOf (min (iOfst + iAmt) p.nData) p.pageSize : Int) -
        (iOfst / p.pageSize : Nat)).toNat = m + 1 := ⟨_, (Nat.succ_pred_eq_of_pos (by omega)).symm⟩
    rw [hm]
    unfold fetchMissing
    rw [Bitmap.testBit_eq, h.unmarked _ hK, if_neg (by simp), wp_bind]
    refine wp_mono ?_ (wp_fetchPagesFromAzure_refused (p := { p with readsSinceSharedLock := n })
      h.cacheFd (show w.azure.Has p.blob (· = C) by rw [h.blob]; exact h.has) hpast
      (by dsimp only; omega))
    rintro ⟨q, rc⟩ w' rfl
    exact wp_alone_ret.mpr rfl
  refine wp_mono ?_ hfetch
  intro r w' hr
  have hne : r.2 ≠ .ok := by rw [hr]; simp
  exact ⟨fun _ => hr, fun hok => absurd hok hne, fun hok => absurd hok hne⟩

end Reads

/-! ## The theorem -/

/-- Both reads return, with the same result code and zeros. -/
def SameZeros (p q : ObjsFile) (w w' : World) (iAmt iOfst : Nat) : Prop :=
  ∃ rc, ReadsAs p w iAmt iOfst (rc, zeroFill iAmt) ∧ ReadsAs q w' iAmt iOfst (rc, zeroFill iAmt)

theorem readsAs_of_wp {p : ObjsFile} {w : World} {iAmt iOfst : Nat} {x : Rc × Bytes}
    (hkind : p.eFileType = .mainDb)
    (h : wp soundly (mainDbRead p iAmt iOfst) (fun r _ => r.2 = x) w) :
    ReadsAs p w iAmt iOfst x := by
  unfold ReadsAs sqliteObjsRead
  rw [hkind]
  exact ⟨(noRelock_mainDbRead p iAmt iOfst).exists_runs _, wp_alone_iff.mp h⟩

section Main

variable {v : VfsData} {name : String} {uri : PrefetchMode → UriParams} {create : Bool} {ctx : Nat}
  {ops : PrefetchMode → AzureOps} {b : Blob} {w₀ : World} {v₁ : PrefetchMode → VfsData}
  {p₁ p : PrefetchMode → ObjsFile} {w₁ w : PrefetchMode → World} {ws : List (Bytes × Nat)}
  {iAmt iOfst : Nat} {eLock : LockLevel} {lease : Option LeaseId} {t n : Nat}

/-- A lazy file with a new cache file, before the first write. -/
theorem Untouched.of_open {uri : UriParams} {ops : AzureOps} {v' : VfsData}
    {p : ObjsFile} {w : World}
    {K : Nat → Prop} (hreuse : uri.cacheReuse = false) (hsel : selectedOps v uri = some (ops, ctx))
    (hops : ops.Complete) (hb : w₀.azure.blobs ⟨ctx, name⟩ = some b)
    (hlt : b.etag < w₀.azure.nextETag)
    (hsmall : pagesOf b.content.size (headerPageSize b.content defaultPageSize) ≤ maxPages)
    (hopen : Runs (World.served Sound) (sqliteObjsOpen v name uri .mainDb create) w₀ (v', .ok p) w)
    (hK : ∀ k, K k → b.content.size ≤ k * p.pageSize) (eLock : LockLevel) (lease : Option LeaseId)
    (t n : Nat) : ∃ fd, Untouched ⟨ctx, name⟩ b.content fd K { p with
      eLock := eLock, leaseId := lease, leaseAcquiredAt := t, leaseDuration := n } w ∧
      pagesOf b.content.size p.pageSize ≤ maxPages := by
  obtain ⟨hkind, -, -, -, hblank⟩ :=
    wp_alone_iff.mp (wp_sqliteObjsOpen_fresh hreuse hsel hops hb) _ _ hopen p rfl
  obtain ⟨ha, -, -, hsees⟩ := wp_alone_iff.mp
    (wp_open_sees (d := w₀.disk) hreuse hsel hops hb hlt hsmall) _ _ hopen
  obtain ⟨hs, -, -, hfd, het⟩ := hsees p rfl
  have hb' : w.azure.blobs ⟨ctx, name⟩ = some b := by
    rw [show w.azure = w₀.azure from ha]
    exact hb
  have himage := hs.image _ b hfd hb' het
  refine ⟨_, ⟨hkind, hs.blob, hfd, hs.page.pos, ⟨b, hb', rfl⟩, ?_, fun k hk => ?_, ?_⟩,
    himage.small⟩
  · exact himage.cacheSize.trans himage.nData.symm
  · exact hblank k ((pagesOf_le_iff hs.page.pos).mpr (hK k hk))
  · intro hm
    dsimp only
    rw [himage.nData]
    exact himage.room hm

/-- A lazy and an eager file of a blob, after the same writes: a read of pages that were never
written and are past the blob's end returns the same in both if it starts where the last write
ends or after it. Otherwise it does not, as long as page numbers fit. -/
theorem unsynced_growth_reads_equal_iff (hreuse : ∀ m, (uri m).cacheReuse = false)
    (hmode : ∀ m, (uri m).prefetch = m) (hsel : ∀ m, selectedOps v (uri m) = some (ops m, ctx))
    (hops : ∀ m, (ops m).Complete) (hb : w₀.azure.blobs ⟨ctx, name⟩ = some b)
    (hlt : b.etag < w₀.azure.nextETag)
    (hopen : ∀ m, Runs (World.served Sound) (sqliteObjsOpen v name (uri m) .mainDb create) w₀
      (v₁ m, .ok (p₁ m)) (w₁ m))
    (hwrites : ∀ m, Runs (World.served Sound) (xWrites ws { p₁ m with
      eLock := eLock, leaseId := lease, leaseAcquiredAt := t, leaseDuration := n }) (w₁ m)
      (p m) (w m))
    (hfree : ∀ k, iOfst / (p₁ .none).pageSize ≤ k → k * (p₁ .none).pageSize < iOfst + iAmt →
      b.content.size ≤ k * (p₁ .none).pageSize ∧ ∀ x ∈ ws, ¬ WritesPage (p₁ .none).pageSize x k) :
    ((∀ x ∈ ws, x.2 + x.1.size ≤ iOfst) ∨ (iAmt = 0 ∧ (p₁ .none).pageSize ∣ iOfst) →
      SameZeros (p .none) (p .all) (w .none) (w .all) iAmt iOfst) ∧
    (pagesOf b.content.size (headerPageSize b.content defaultPageSize) ≤ maxPages →
      (∀ x ∈ ws, pagesOf (x.2 + x.1.size) (p₁ .none).pageSize ≤ maxPages) →
      SameZeros (p .none) (p .all) (w .none) (w .all) iAmt iOfst →
      (∀ x ∈ ws, x.2 + x.1.size ≤ iOfst) ∨ (iAmt = 0 ∧ (p₁ .none).pageSize ∣ iOfst)) := by
  have hfresh := fun m => wp_alone_iff.mp
    (wp_sqliteObjsOpen_fresh (hreuse m) (hsel m) (hops m) hb) _ _ (hopen m) (p₁ m) rfl
  -- the files after the writes
  have hafter : ∀ m, (p m).eFileType = .mainDb ∧ (p m).prefetchMode = m ∧
      (p m).pageSize = (p₁ m).pageSize ∧ (p m).nData = sizeAfter b.content.size ws := by
    intro m
    obtain ⟨hkind, hpm, hfd, hn, -⟩ := hfresh m
    obtain ⟨fd, hfd⟩ := Option.ne_none_iff_exists'.mp hfd
    obtain ⟨hw, hsize⟩ := wp_alone_iff.mp (wp_xWrites_size (p := { p₁ m with
      eLock := eLock, leaseId := lease, leaseAcquiredAt := t, leaseDuration := n })
      hkind hfd ws) _ _
      (hwrites m)
    unfold Written at hw
    refine ⟨?_, ?_, ?_, ?_⟩
    · rw [hw]
      exact hkind
    · rw [hw]
      exact hpm.trans (hmode m)
    · rw [hw]
    · rw [hsize]
      dsimp only
      rw [hn]
  have hempty : iAmt = 0 ∧ (p₁ .none).pageSize ∣ iOfst →
      SameZeros (p .none) (p .all) (w .none) (w .all) iAmt iOfst := by
    rintro ⟨rfl, hal⟩
    refine ⟨.ioerrShortRead, readsAs_of_wp (hafter _).1 (wp_mainDbRead_empty fun _ => ?_),
      readsAs_of_wp (hafter _).1 (wp_mainDbRead_empty fun hm => ?_)⟩
    · rw [(hafter .none).2.2.1]
      exact hal
    · exact absurd ((hafter .all).2.1.symm.trans hm) (by decide)
  -- a read that touches no page is empty
  have hstart := Nat.div_mul_le_self iOfst (p₁ .none).pageSize
  have hno : ¬ iOfst / (p₁ .none).pageSize * (p₁ .none).pageSize < iOfst + iAmt →
      iAmt = 0 ∧ (p₁ .none).pageSize ∣ iOfst :=
    fun hge => ⟨by omega, Dvd.intro_left (iOfst / (p₁ .none).pageSize) (by omega)⟩
  constructor
  · rintro (hends | hnone)
    · by_cases hany : iOfst / (p₁ .none).pageSize * (p₁ .none).pageSize < iOfst + iAmt
      · have hpast : ∀ m, (p m).nData ≤ iOfst := by
          intro m
          rw [(hafter m).2.2.2, sizeAfter_le_iff]
          exact ⟨Nat.le_trans (hfree _ (Nat.le_refl _) hany).1 hstart, hends⟩
        exact ⟨.ioerrShortRead, readsAs_of_wp (hafter _).1 (wp_mainDbRead_past (hpast _)),
          readsAs_of_wp (hafter _).1 (wp_mainDbRead_past (hpast _))⟩
      · exact hempty (hno hany)
    · exact hempty hnone
  · rintro hsmall hends ⟨rc, ⟨⟨r, w', hr⟩, hlazy⟩, ⟨r', w'', hr'⟩, heager⟩
    by_contra hcond
    obtain ⟨hgrown, hsome⟩ := not_or.mp hcond
    have hany : iOfst / (p₁ .none).pageSize * (p₁ .none).pageSize < iOfst + iAmt := by
      by_contra hge
      exact hsome (hno hge)
    have hin : iOfst < (p .none).nData := by
      rw [(hafter .none).2.2.2, ← Nat.not_le, sizeAfter_le_iff]
      exact fun hle => hgrown hle.2
    obtain ⟨fd, h₁, hpages⟩ := Untouched.of_open (hreuse .none) (hsel .none) (hops .none)
      hb hlt hsmall
      (hopen .none) (K := fun k => iOfst / (p₁ .none).pageSize ≤ k ∧
        k * (p₁ .none).pageSize < iOfst + iAmt) (fun k hk => (hfree k hk.1 hk.2).1) eLock lease t n
    obtain ⟨h₂, hps⟩ := wp_alone_iff.mp
      (h₁.wp_xWrites ws hends fun k hk => (hfree k hk.1 hk.2).2) _ _
      (hwrites .none)
    have hps : (p .none).pageSize = (p₁ .none).pageSize := hps
    have hlimit : pagesOf (p .none).nData (p .none).pageSize ≤ maxPages := by
      rw [hps, (hafter .none).2.2.2, pagesOf_le_iff h₁.page, sizeAfter_le_iff]
      exact ⟨(pagesOf_le_iff h₁.page).mp hpages, fun x hx =>
        (pagesOf_le_iff h₁.page).mp (hends x hx)⟩
    -- the lazy read is refused, the eager one is not
    unfold sqliteObjsRead at hr hr' hlazy heager
    rw [(hafter .none).1] at hr hlazy
    rw [(hafter .all).1] at hr' heager
    have hrefused := wp_alone_iff.mp (h₂.wp_read_refused (hafter .none).2.1 hlimit hin
      (by rw [hps]; exact hany) (by rw [hps]; exact ⟨Nat.le_refl _, hany⟩)
      (by rw [hps]; exact (hfree _ (Nat.le_refl _) hany).1)) r w' hr
    have hnot := wp_alone_iff.mp (wp_mainDbRead_eager (p := p .all)
      (by rw [(hafter .all).2.1]; decide)) r' w'' hr'
    rw [hlazy r w' hr] at hrefused
    rw [heager r' w'' hr'] at hnot
    exact hnot hrefused

/-- The sector that the examples write. -/
def onesSector : Bytes := SparseFile.ofFn 512 fun _ => 1

set_option maxRecDepth 8000 in
/-- A database of one sector is open in both modes, and its third sector is written in both. -/
theorem exists_grown : ∃ p₁ p : PrefetchMode → ObjsFile, ∃ w₁ w : PrefetchMode → World,
    (∀ m, Runs (World.served Sound) (sqliteObjsOpen (.new 0) "db" { prefetch := m } .mainDb false)
      smallPageWorld (.new 0, .ok (p₁ m)) (w₁ m)) ∧
    (∀ m, Runs (World.served Sound) (xWrites [(onesSector, 1024)] (p₁ m)) (w₁ m) (p m) (w m)) ∧
    (∀ m, (p₁ m).pageSize = 512 ∧ (p₁ m).eLock = .none ∧ (p₁ m).leaseId = none ∧
      (p₁ m).leaseAcquiredAt = 0 ∧ (p₁ m).leaseDuration = leaseDurationDefault) ∧
    (∃ r w', Runs (World.served Sound) (sqliteObjsRead (p .none) 512 512) (w .none) r w' ∧
      r.2.1 = .ioerrRead) ∧
    ∃ r w', Runs (World.served Sound) (sqliteObjsRead (p .all) 512 512) (w .all) r w' ∧
      r.2.1 = .ok := by
  have hmode : ∀ m, ∃ p₁ w₁ p w, Runs (World.served Sound)
      (sqliteObjsOpen (.new 0) "db" { prefetch := m } .mainDb false) smallPageWorld
        (.new 0, .ok p₁) w₁ ∧
      Runs (World.served Sound) (xWrites [(onesSector, 1024)] p₁) w₁ p w ∧
      (p₁.pageSize = 512 ∧ p₁.eLock = .none ∧ p₁.leaseId = none ∧ p₁.leaseAcquiredAt = 0 ∧
        p₁.leaseDuration = leaseDurationDefault) ∧
      ∃ r w', Runs (World.served Sound) (sqliteObjsRead p 512 512) w r w' ∧
        r.2.1 = match m with | .none => .ioerrRead | .all => .ok := by
    intro m
    cases m with
    | none =>
      exact ⟨_, _, _, _, runs_sound 20 rfl, runs_sound 20 rfl, ⟨rfl, rfl, rfl, rfl, rfl⟩, _, _,
        runs_sound 20 rfl, rfl⟩
    | all =>
      exact ⟨_, _, _, _, runs_sound 20 rfl, runs_sound 20 rfl, ⟨rfl, rfl, rfl, rfl, rfl⟩, _, _,
        runs_sound 20 rfl, rfl⟩
  choose p₁ w₁ p w hopen hwrite hfields hread using hmode
  exact ⟨p₁, p, w₁, w, hopen, hwrite, hfields, hread .none, hread .all⟩

/-- A read of the sector that was skipped. -/
theorem skipped_sector_reads_differ :
    ∃ p₁ p : PrefetchMode → ObjsFile, ∃ w₁ w : PrefetchMode → World,
    (∀ m, Runs (World.served Sound) (sqliteObjsOpen (.new 0) "db" { prefetch := m } .mainDb false)
      smallPageWorld (.new 0, .ok (p₁ m)) (w₁ m)) ∧
    (∀ m, Runs (World.served Sound) (xWrites [(onesSector, 1024)] (p₁ m)) (w₁ m) (p m) (w m)) ∧
    (∀ m, (p₁ m).pageSize = 512) ∧ ¬ WritesPage 512 (onesSector, 1024) 1 ∧
    ¬ SameZeros (p .none) (p .all) (w .none) (w .all) 512 512 := by
  obtain ⟨p₁, p, w₁, w, hopen, hwrite, hfields, ⟨r, w', hr, hlazy⟩, r', w'', hr', heager⟩ :=
    exists_grown
  refine ⟨p₁, p, w₁, w, hopen, hwrite, fun m => (hfields m).1, by unfold WritesPage; decide, ?_⟩
  rintro ⟨rc, ⟨-, h₁⟩, -, h₂⟩
  rw [h₁ r w' hr] at hlazy
  rw [h₂ r' w'' hr'] at heager
  cases hlazy.symm.trans heager

/-- A read that starts where the write ended. -/
theorem unsynced_growth_reads_equal_past : ∃ p₁ p : PrefetchMode → ObjsFile,
    ∃ w₁ w : PrefetchMode → World,
    (∀ m, Runs (World.served Sound) (sqliteObjsOpen (.new 0) "db" { prefetch := m } .mainDb false)
      smallPageWorld (.new 0, .ok (p₁ m)) (w₁ m)) ∧
    (∀ m, Runs (World.served Sound) (xWrites [(onesSector, 1024)] (p₁ m)) (w₁ m) (p m) (w m)) ∧
    SameZeros (p .none) (p .all) (w .none) (w .all) 512 1536 := by
  obtain ⟨p₁, p, w₁, w, hopen, hwrite, hfields, -⟩ := exists_grown
  have hlocked : ∀ m, ({ p₁ m with
      eLock := .none, leaseId := none, leaseAcquiredAt := 0
      leaseDuration := leaseDurationDefault } : ObjsFile) = p₁ m := by
    intro m
    obtain ⟨-, h₁, h₂, h₃, h₄⟩ := hfields m
    rw [← h₁, ← h₂, ← h₃, ← h₄]
  refine ⟨p₁, p, w₁, w, hopen, hwrite, ?_⟩
  have hsel : ∀ m, selectedOps (.new 0)
      ((fun m => { prefetch := m } : PrefetchMode → UriParams) m) =
      some ((fun _ => azureProductionOps : PrefetchMode → AzureOps) m, 0) := fun _ => rfl
  refine (unsynced_growth_reads_equal_iff (fun _ => rfl) (fun _ => rfl) hsel
    (fun _ => complete_production) (Azure.create_blobs_self _ _ _ _) (by decide) hopen
    (fun m => by rw [hlocked m]; exact hwrite m) ?_).1 (Or.inl ?_)
  · rw [(hfields .none).1]
    intro k h₁ h₂
    refine ⟨?_, fun x hx => ?_⟩
    · show 512 ≤ k * 512
      omega
    · obtain rfl := List.mem_singleton.mp hx
      unfold WritesPage
      dsimp only [onesSector, SparseFile.ofFn_size]
      omega
  · intro x hx
    obtain rfl := List.mem_singleton.mp hx
    decide

end Main

end SqliteObjs
