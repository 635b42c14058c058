import SqliteObjs.CS.Simulation
import SqliteObjs.Journal.FileLike
import SqliteObjs.MainDb.Equivalence

/-!
# A transaction works on a file of its own

An eager database has every byte in its cache file, so from the moment it holds a `SHARED` lock its
calls depend on nobody: whatever other clients do to the blob and whatever requests and system
calls fail, reads, writes and truncations are those of an ideal file. A call that fails has
done nothing, with one exception that its code tells: a write that reports
`SQLITE_IOERR_LOCK` took place. A write that reports `SQLITE_IOERR_WRITE` may be torn, and ends what
is said here.
-/

set_option autoImplicit false

namespace SqliteObjs

open Data CS CS.Program

/-! ## Calls -/

/-- The calls of a transaction. -/
inductive TxCall
  | file (c : FileCall)
  | sync
  | lock (eLock : LockLevel)
  | unlock (eLock : LockLevel)

def TxCall.code (v : VfsData) : TxCall → ObjsFile → Prog (ObjsFile × FileResult)
  | .file c, p => c.code p
  | .sync, p => do
    let r ← sqliteObjsSync v p
    return (r.2.1, .code r.2.2)
  | .lock eLock, p => do
    let r ← sqliteObjsLock p eLock
    return (r.1, .code r.2)
  | .unlock eLock, p => do
    let r ← sqliteObjsUnlock p eLock
    return (r.1, .code r.2)

/-- A lock is held already, or a higher one than `SHARED` is asked for after something was read. No
write is torn. -/
def TxCall.Stays : TxCall → ObjsFile → FileResult → Prop
  | .lock eLock, p, _ =>
    eLock.rank ≤ p.eLock.rank ∨ eLock ≠ .shared ∧ p.readsSinceSharedLock ≠ 0
  | .file (.write _ _), _, r => r ≠ .code .ioerrWrite
  | _, _, _ => True

/-! ## The ideal database -/

namespace IdealDb

/-- A call that succeeds. A database is not extended by a truncation, and a read of no bytes reports
a short read. -/
def apply (f : Bytes) : TxCall → Bytes × FileResult
  | .file (.read iAmt iOfst) =>
    (f, .data (if iAmt = 0 ∨ f.size < iOfst + iAmt then .ioerrShortRead else .ok)
      (SparseFile.ofFn iAmt fun i => f.get (iOfst + i)))
  | .file (.truncate size) => (f.truncate (min size f.size), .code .ok)
  | .file c => IdealFile.step f c
  | _ => (f, .code .ok)

/-- A call is done, or fails without effect, or is a write that reports that the lease is gone. -/
inductive Step (f : Bytes) : TxCall → Bytes → FileResult → Prop
  | done (c : TxCall) : Step f c (apply f c).1 (apply f c).2
  | failed (c : TxCall) {r : FileResult} : ¬ r.Succeeded →
      (∀ buf iOfst, c = .file (.write buf iOfst) → r ≠ .code .ioerrLock) → Step f c f r
  | unleased (buf : Bytes) (iOfst : Nat) :
      Step f (.file (.write buf iOfst)) (IdealFile.write f buf iOfst) (.code .ioerrLock)

end IdealDb

/-! ## What a file shows -/

/-- An eager database whose cache file has the bytes of `f`, with zeros behind them. -/
structure HasContent (f : Bytes) (p : ObjsFile) (d : Disk) : Prop where
  kind : p.eFileType = .mainDb
  eager : p.prefetchMode ≠ .none
  size : f.size = p.nData
  cache : ∃ fd, p.cacheFd = some fd ∧ p.nData ≤ (d.inode fd).size ∧
    ∀ i, (d.inode fd).get i = f.get i

/-- The fields `HasContent` is about. -/
def ObjsFile.cacheView (p : ObjsFile) : FileType × PrefetchMode × Option Fd × Nat :=
  (p.eFileType, p.prefetchMode, p.cacheFd, p.nData)

section Calls

variable {α : Type} {f : Bytes} {p q : ObjsFile} {w w' : World} {d d' : Disk} {fd : Fd}

theorem HasContent.congr (h : HasContent f p d) (hq : q.cacheView = p.cacheView)
    (hd : d'.inode = d.inode) : HasContent f q d' := by
  simp only [ObjsFile.cacheView, Prod.mk.injEq] at hq
  obtain ⟨hkind, hmode, hfd, hn⟩ := hq
  refine ⟨hkind.trans h.kind, by rw [hmode]; exact h.eager, h.size.trans hn.symm, ?_⟩
  rw [hfd, hn, hd]
  exact h.cache

/-- Other clients change the service as they like, but not this machine. Anything may fail. -/
def amid : Setting World Ans where
  rely w w' := w'.disk = w.disk
  serve := World.served fun _ => True
  guar _ _ := True
  rely_refl _ := rfl
  rely_trans h h' := h'.trans h

theorem seen_amid : Seen amid id fun _ _ => True where
  rely_disk _ _ h := h
  serve _ _ _ _ hs := hs
  guar_sys _ _ _ _ _ := trivial
  quiet := quiet_alone

theorem fact_amid : Fact amid fun _ => True where
  stable _ _ _ h := h
  sys _ _ _ _ _ h := h

/-- The disk is known between two requests. -/
abbrev OnDisk (d : Disk) : World → Prop := Knows id (fun _ => True) d

theorem onDisk (w : World) : OnDisk w.disk w := ⟨trivial, rfl⟩

theorem OnDisk.disk (hk : OnDisk d w) : w.disk = d := hk.2

theorem OnDisk.wp_ret (hk : OnDisk d w) {a : α} {Q : α → World → Prop}
    (h : ∀ w', OnDisk d w' → Q a w') : wp amid (.ret a) Q w :=
  Knows.wp_ret hk seen_amid fact_amid h

theorem OnDisk.wp_sys_bind (hk : OnDisk d w) {r : SysReq} {k : SysReply → Prog α}
    {Q : α → World → Prop}
    (h : ∀ c w', OnDisk (d.serve c r).2 w' → wp amid (k (d.serve c r).1) Q w') :
    wp amid (sys r >>= k) Q w :=
  Knows.wp_sys_bind hk seen_amid fact_amid fun c w' _ hk' => h c w' hk'

theorem OnDisk.wp_execute_bind (hk : OnDisk d w) {r : AzReq} {k : AzReply → Prog α}
    {Q : α → World → Prop} (h : ∀ x w', OnDisk d w' → wp amid (k x) Q w') :
    wp amid (execute r >>= k) Q w :=
  Knows.wp_execute_bind hk seen_amid fact_amid (fun _ _ _ _ _ => ⟨trivial, trivial⟩) h

theorem returns_leaseRenewIfNeeded_code (p : ObjsFile) :
    Returns always (fun r => r.2 = .ok ∨ r.2 = .ioerrLock) (leaseRenewIfNeeded p) := by
  unfold leaseRenewIfNeeded
  split
  · exact Or.inl rfl
  · refine fun now _ => .ite (Or.inl rfl) (returns_bind _ fun x => ?_)
    exact .ite (Or.inr rfl) (Or.inl rfl)

/-- A renewal succeeds, or its code is that of a lost lease. -/
theorem OnDisk.wp_leaseRenew_bind (hk : OnDisk d w) {k : ObjsFile × Rc → Prog α}
    {Q : α → World → Prop} (h : ∀ t rc w', rc = .ok ∨ rc = .ioerrLock → OnDisk d w' →
      wp amid (k ({ p with leaseAcquiredAt := t }, rc)) Q w') :
    wp amid (leaseRenewIfNeeded p >>= k) Q w := by
  have hcode := (returns_leaseRenewIfNeeded_code p).wp (E := amid) (w := w)
    fun _ _ _ _ _ => ⟨trivial, trivial⟩
  have hrest : wp amid (leaseRenewIfNeeded p)
      (fun r w' => (∃ t, r.1 = { p with leaseAcquiredAt := t }) ∧ OnDisk d w') w := by
    rw [← bind_pure (leaseRenewIfNeeded p)]
    refine Knows.wp_leaseRenew_bind hk seen_amid fact_amid
      (fun _ _ _ _ _ _ _ => ⟨trivial, trivial⟩) fun t rc w₁ hk₁ _ => ?_
    exact OnDisk.wp_ret hk₁ fun w' hk' => ⟨⟨t, rfl⟩, hk'⟩
  rw [wp_bind]
  refine wp_mono ?_ (wp_and hcode hrest)
  rintro ⟨q, rc⟩ w' ⟨hrc, ⟨t, rfl⟩, hk'⟩
  exact h t rc w' hrc hk'

/-! ## Reading -/

/-- A read under a lock is counted. -/
def ObjsFile.countRead (p : ObjsFile) : ObjsFile :=
  if LockLevel.shared.rank ≤ p.eLock.rank then
    { p with readsSinceSharedLock := cInt (p.readsSinceSharedLock + 1) }
  else p

theorem ObjsFile.countRead_cacheView (p : ObjsFile) : p.countRead.cacheView = p.cacheView := by
  unfold countRead
  split <;> rfl

/-- A read is one system call on the cache file. -/
theorem HasContent.wp_read {E : Setting World Ans} {ok : Req → Choice → Prop} {A : World → Prop}
    (h : HasContent f p d) (hE : Seen E id ok) (hA : Fact E A) (hk : Knows id A d w)
    (iAmt iOfst : Nat) :
    wp E (mainDbRead p iAmt iOfst) (fun r w' => r.1 = p.countRead ∧ A w' ∧
      HasContent f r.1 w'.disk ∧
      (FileResult.data r.2.1 r.2.2 = (IdealDb.apply f (.file (.read iAmt iOfst))).2 ∨
        r.2.1 = .ioerrRead)) w := by
  obtain ⟨fd, hfd, hfits, hbytes⟩ := h.cache
  have hview := p.countRead_cacheView
  unfold mainDbRead
  rw [← ObjsFile.countRead]
  generalize p.countRead = q at hview ⊢
  have hqc : ∀ {w' : World}, Knows id A d w' → HasContent f q w'.disk := by
    intro w' hk
    have hd : w'.disk = d := hk.2
    exact h.congr hview (by rw [hd])
  have hqfd : q.cacheFd = some fd := by
    rw [← hfd]
    exact congrArg (fun v => v.2.2.1) hview
  have hqn : q.nData = f.size := by
    rw [h.size]
    exact congrArg (fun v => v.2.2.2) hview
  rw [← h.size] at hfits
  simp only [hqfd, hqn]
  split
  · next hpast =>
    refine hk.wp_ret hE hA fun w' hk => ⟨rfl, hk.1, hqc hk, Or.inl ?_⟩
    have hshort : iAmt = 0 ∨ f.size < iOfst + iAmt := by omega
    simp only [IdealDb.apply, if_pos hshort]
    refine congrArg (FileResult.data _) (SparseFile.ext rfl fun i => ?_)
    unfold zeroFill
    rw [SparseFile.truncate_get, SparseFile.ofFn_get, SparseFile.empty_get, ite_self,
      f.get_past _ (by omega), ite_self]
  next hin =>
  -- an eager file has no page to fetch
  have hfetch : fetchForRead q iAmt iOfst = pure (q, .ok) := by
    unfold fetchForRead
    exact if_neg fun hm => h.eager ((congrArg (fun v => v.2.1) hview).symm.trans hm.1)
  rw [hfetch]
  simp only [pure_eq_ret, ret_bind, ne_eq, not_true_eq_false, if_false, hqn]
  split
  · next hzero =>
    refine hk.wp_ret hE hA fun w' hk => ⟨rfl, hk.1, hqc hk, Or.inl ?_⟩
    obtain rfl : iAmt = 0 := by omega
    exact congrArg (FileResult.data _)
      (SparseFile.ext rfl fun i => by simp [zeroFill, SparseFile.truncate_get, SparseFile.ofFn_get])
  next hpos =>
  refine hk.wp_sys_bind hE hA fun c w₁ _ hk₁ => ?_
  simp only [Disk.serve] at hk₁ ⊢
  split at hk₁
  · next hfails =>
    simp only [hfails, if_true, Bool.not_false]
    exact hk₁.wp_ret hE hA fun w' hk => ⟨rfl, hk.1, hqc hk, Or.inr rfl⟩
  next hfails =>
  simp only [hfails, Bool.false_eq_true, if_false, Bool.not_true]
  have hdata : ((d.inode fd).slice iOfst (min (f.size - iOfst) iAmt)).truncate iAmt =
      SparseFile.ofFn iAmt fun i => f.get (iOfst + i) := by
    refine SparseFile.ext rfl fun i => ?_
    rw [SparseFile.truncate_get, SparseFile.ofFn_get]
    split
    · next hi =>
      rw [SparseFile.slice_get, hbytes]
      split
      · rfl
      · exact (f.get_past _ (by omega)).symm
    · rfl
  rw [hdata, SparseFile.slice_size]
  have hdone : ∀ rc, rc = (if iAmt = 0 ∨ f.size < iOfst + iAmt then Rc.ioerrShortRead else .ok) →
      wp E (.ret (q, rc, SparseFile.ofFn iAmt fun i => f.get (iOfst + i)))
        (fun r w' => r.1 = q ∧ A w' ∧ HasContent f r.1 w'.disk ∧
          (FileResult.data r.2.1 r.2.2 = (IdealDb.apply f (.file (.read iAmt iOfst))).2 ∨
            r.2.1 = .ioerrRead)) w₁ := by
    rintro rc rfl
    exact hk₁.wp_ret hE hA fun w' hk => ⟨rfl, hk.1, hqc hk, Or.inl rfl⟩
  split
  · apply hdone
    rw [if_pos (by omega)]
  split
  · next hlt => omega
  · apply hdone
    rw [if_neg (by omega)]

/-! ## Writing -/

/-- The cache file may have become longer, by zeros. -/
def Padded (d : Disk) (fd : Fd) (d' : Disk) : Prop :=
  (d.inode fd).size ≤ (d'.inode fd).size ∧ ∀ i, (d'.inode fd).get i = (d.inode fd).get i

theorem Padded.refl (d : Disk) (fd : Fd) : Padded d fd d := ⟨Nat.le_refl _, fun _ => rfl⟩

theorem padded_truncate {n : Nat} (hn : (d.inode fd).size ≤ n) :
    Padded d fd (d.setInode fd ((d.inode fd).truncate n)) := by
  unfold Padded
  rw [Disk.setInode_inode_self]
  exact ⟨hn, SparseFile.truncate_get_of_le _ hn⟩

theorem HasContent.padded (h : HasContent f p d) (hfd : p.cacheFd = some fd) (hd : Padded d fd d') :
    HasContent f p d' := by
  obtain ⟨fd', hfd', hfits, hbytes⟩ := h.cache
  obtain rfl := Option.some.inj (hfd.symm.trans hfd')
  exact { h with cache := ⟨fd, hfd, Nat.le_trans hfits hd.1, fun i => (hd.2 i).trans (hbytes i)⟩ }

theorem returns_bitmapEnsureCapacity_code (bm : Bitmap) (n ps : Nat) :
    Returns always (fun r => r.2 = .ok ∨ r.2 = .nomem) (bitmapEnsureCapacity bm n ps) := by
  unfold bitmapEnsureCapacity
  refine .ite (Or.inl rfl) (.ite (Or.inl rfl) fun m _ => ?_)
  exact .ite (Or.inr rfl) (Or.inl rfl)

theorem returns_bitmapsEnsureCapacity_code (p : ObjsFile) :
    Returns always (fun r => r.2 = .ok ∨ r.2 = .nomem) (bitmapsEnsureCapacity p) := by
  unfold bitmapsEnsureCapacity
  refine (returns_bitmapEnsureCapacity_code _ _ _).bind fun r hr => ?_
  refine .ite hr (.ite ?_ (Or.inl rfl))
  exact (returns_bitmapEnsureCapacity_code _ _ _).bind fun r' hr' => hr'

/-- Growing the bitmaps fails for want of memory only. -/
theorem OnDisk.wp_bitmapsEnsureCapacity (hk : OnDisk d w) (p : ObjsFile) :
    wp amid (bitmapsEnsureCapacity p) (fun r w' => (r.2 = .ok ∨ r.2 = .nomem) ∧
      Grown p r.1 ∧ OnDisk d w') w := by
  have hcode := (returns_bitmapsEnsureCapacity_code p).wp (E := amid) (w := w)
    fun _ _ _ _ _ => ⟨trivial, trivial⟩
  refine wp_and hcode ?_
  rw [← bind_pure (bitmapsEnsureCapacity p)]
  refine wp_bitmapsEnsureCapacity_bind seen_amid.quiet fun q rc hgrown _ => ?_
  exact hk.wp_ret fun w' hk' => ⟨hgrown, hk'⟩

theorem Grown.cacheView {p' : ObjsFile} (h : Grown p p') : p'.cacheView = p.cacheView := by
  rw [h.eq]
  rfl

/-- The cache file is extended, or that fails without a word of leases or writes. -/
theorem OnDisk.wp_extendCache (hk : OnDisk d w) (hfd : p.cacheFd = some fd) {prev fin : Nat}
    (hprev : prev ≤ (d.inode fd).size) :
    wp amid (extendCache p prev fin) (fun r w' => r.1.cacheView = p.cacheView ∧
      Padded d fd w'.disk ∧ (r.2 = .ok → fin ≤ (w'.disk.inode fd).size) ∧
      (r.2 = .ok ∨ r.2 = .nomem ∨ r.2 = .ioerr)) w := by
  unfold extendCache
  by_cases hlt : prev < fin
  · rw [if_pos hlt]
    unfold cacheEnsureSize
    rw [hfd]
    refine hk.wp_sys_bind fun c w₁ hk₁ => ?_
    simp only [Disk.serve] at hk₁ ⊢
    split at hk₁
    · next hfails =>
      simp only [hfails, if_true, Bool.not_false]
      refine hk₁.wp_ret fun w' hk' => ⟨rfl, ?_, Rc.noConfusion, Or.inr (Or.inr rfl)⟩
      rw [hk'.disk]
      exact .refl d fd
    next hfails =>
    simp only [hfails, Bool.false_eq_true, if_false, Bool.not_true]
    split
    · next hbig =>
      refine hk₁.wp_ret fun w' hk' => ⟨rfl, ?_, fun _ => ?_, Or.inl rfl⟩
      · rw [hk'.disk]
        exact .refl d fd
      · rw [hk'.disk]
        exact hbig
    next hsmall =>
    refine hk₁.wp_sys_bind fun c' w₂ hk₂ => ?_
    simp only [Disk.serve] at hk₂ ⊢
    split at hk₂
    · next hfails' =>
      simp only [hfails', if_true, Bool.not_false]
      refine hk₂.wp_ret fun w' hk' => ⟨rfl, ?_, Rc.noConfusion, Or.inr (Or.inr rfl)⟩
      rw [hk'.disk]
      exact .refl d fd
    next hfails' =>
    simp only [hfails', Bool.false_eq_true, if_false, Bool.not_true]
    refine wp_mono ?_ (hk₂.wp_bitmapsEnsureCapacity p)
    rintro r w' ⟨hrc, hgrown, hk'⟩
    refine ⟨hgrown.cacheView, ?_, fun _ => ?_, hrc.imp_right Or.inl⟩
    · rw [hk'.disk]
      exact padded_truncate (by omega)
    · rw [hk'.disk, Disk.setInode_inode_self, SparseFile.truncate_size]
  · rw [if_neg hlt]
    refine hk.wp_ret fun w' hk' => ⟨rfl, ?_, fun _ => ?_, Or.inl rfl⟩
    · rw [hk'.disk]
      exact .refl d fd
    · rw [hk'.disk]
      omega

/-- The bytes of a write over those of the file. -/
theorem HasContent.written (h : HasContent f p d) (hfd : p.cacheFd = some fd) {buf : Bytes}
    {iOfst : Nat} (hd : Padded d fd d') (hfits : iOfst + buf.size ≤ (d'.inode fd).size)
    (hq : q.cacheView =
      ObjsFile.cacheView { p with nData := max p.nData (iOfst + buf.size) }) :
    HasContent (IdealFile.write f buf iOfst) q
      (d'.setInode fd ((d'.inode fd).pwrite iOfst buf)) := by
  simp only [ObjsFile.cacheView, Prod.mk.injEq] at hq
  obtain ⟨hkind, hmode, hqfd, hn⟩ := hq
  have h' := h.padded hfd hd
  obtain ⟨fd', hfd', hlen, hbytes⟩ := h'.cache
  obtain rfl := Option.some.inj (hfd.symm.trans hfd')
  refine ⟨hkind.trans h.kind, by rw [hmode]; exact h.eager, ?_, fd, hqfd.trans hfd, ?_, fun i => ?_⟩
  · rw [IdealFile.write_size, hn, h.size]
  · rw [Disk.setInode_inode_self, SparseFile.pwrite_size_of_le _ _ hfits, hn]
    exact Nat.max_le.mpr ⟨hlen, hfits⟩
  · rw [Disk.setInode_inode_self, SparseFile.pwrite_get, IdealFile.write_get, hbytes]

theorem HasContent.wp_write (h : HasContent f p d) (hk : OnDisk d w) (buf : Bytes) (iOfst : Nat) :
    wp amid (mainDbWrite p buf iOfst) (fun r w' => r.2 ≠ .ioerrWrite →
      (r.2 = .ok ∨ r.2 = .ioerrLock) ∧ HasContent (IdealFile.write f buf iOfst) r.1 w'.disk ∨
      (r.2 ≠ .ok ∧ r.2 ≠ .ioerrLock) ∧ HasContent f r.1 w'.disk) w := by
  obtain ⟨fd, hfd, hlen, -⟩ := h.cache
  unfold mainDbWrite
  split
  · next hnone => rw [hfd] at hnone; cases hnone
  next fd' hfd' =>
  obtain rfl : fd = fd' := Option.some.inj (hfd.symm.trans hfd')
  dsimp only
  rw [wp_bind]
  refine wp_mono ?_ (hk.wp_extendCache (p := { p with nData := max p.nData (iOfst + buf.size) }) hfd
    hlen)
  rintro ⟨q, rc⟩ w₁ ⟨hview, hpad, hfits, hrc⟩
  dsimp only at hview hpad hfits hrc ⊢
  split
  · next hne =>
    -- the size is set back, and the cache file has at most more zeros
    refine (onDisk w₁).wp_ret fun w' hk' _ => Or.inr ⟨?_, ?_⟩
    · rcases hrc with rfl | rfl | rfl
      · exact absurd rfl hne
      · exact ⟨Rc.noConfusion, Rc.noConfusion⟩
      · exact ⟨Rc.noConfusion, Rc.noConfusion⟩
    · refine (h.padded hfd hpad).congr ?_ (by rw [hk'.disk])
      simp only [ObjsFile.cacheView, Prod.mk.injEq] at hview ⊢
      exact ⟨hview.1, hview.2.1, hview.2.2.1, trivial⟩
  next hok =>
  obtain rfl := Decidable.not_not.mp hok
  refine (onDisk w₁).wp_sys_bind fun c w₂ hk₂ => ?_
  simp only [Disk.serve] at hk₂ ⊢
  by_cases hfails : c.sysFails = true
  · simp only [hfails, if_true, Bool.not_false] at hk₂ ⊢
    exact hk₂.wp_ret fun w' _ hno => absurd rfl hno
  simp only [hfails, Bool.false_eq_true, if_false, Bool.not_true] at hk₂ ⊢
  refine hk₂.wp_leaseRenew_bind fun t rc' w₃ hrc' hk₃ => ?_
  have hdone : ∀ {q' : ObjsFile} {rc : Rc} {w : World}, rc = .ok ∨ rc = .ioerrLock →
      q'.cacheView = q.cacheView →
      OnDisk (w₁.disk.setInode fd ((w₁.disk.inode fd).pwrite iOfst buf)) w →
      wp amid (.ret (q', rc)) (fun r w' => r.2 ≠ .ioerrWrite →
        (r.2 = .ok ∨ r.2 = .ioerrLock) ∧ HasContent (IdealFile.write f buf iOfst) r.1 w'.disk ∨
        (r.2 ≠ .ok ∧ r.2 ≠ .ioerrLock) ∧ HasContent f r.1 w'.disk) w := by
    intro q' rc w hrc hq' hk
    refine hk.wp_ret fun w' hk' _ => Or.inl ⟨hrc, ?_⟩
    rw [hk'.disk]
    exact h.written hfd hpad (hfits rfl) (hq'.trans hview)
  split
  · exact hdone hrc' rfl hk₃
  split
  · refine hdone (Or.inl rfl) ?_ hk₃
    rw [(onlyMarks_markWritten _ _ _).eq]
    rfl
  · exact hdone (Or.inl rfl) rfl hk₃

/-! ## Truncating -/

theorem forgetPastEnd_cacheView (p : ObjsFile) (size : Nat) :
    (forgetPastEnd p size).cacheView = ObjsFile.cacheView { p with nData := min size p.nData } := by
  by_cases hlt : size < p.nData
  · rw [forgetPastEnd_eq p (Nat.le_of_lt hlt), Nat.min_eq_left (Nat.le_of_lt hlt)]
    simp only [ObjsFile.cacheView]
  · unfold forgetPastEnd
    rw [if_neg hlt, Nat.min_eq_right (Nat.le_of_not_lt hlt)]

/-- The cache file is cut, and never extended by more than zeros. -/
theorem HasContent.cut (h : HasContent f p d) (hfd : p.cacheFd = some fd) {size : Nat}
    (hq : q.cacheView = p.cacheView) : HasContent (f.truncate (min size f.size))
      (forgetPastEnd q size) (d.setInode fd ((d.inode fd).truncate size)) := by
  have h' : HasContent f q d := h.congr hq rfl
  obtain ⟨fd', hfd', hlen, hbytes⟩ := h'.cache
  have hsame : q.cacheFd = p.cacheFd := congrArg (fun v => v.2.2.1) hq
  obtain rfl := Option.some.inj ((hsame.trans hfd).symm.trans hfd')
  have hview := forgetPastEnd_cacheView q size
  simp only [ObjsFile.cacheView, Prod.mk.injEq] at hview
  obtain ⟨hkind, hmode, hqfd, hn⟩ := hview
  refine ⟨hkind.trans h'.kind, by rw [hmode]; exact h'.eager, ?_, fd, hqfd.trans hfd', ?_,
    fun i => ?_⟩
  · rw [SparseFile.truncate_size, hn, h'.size]
  · rw [Disk.setInode_inode_self, SparseFile.truncate_size, hn]
    exact Nat.min_le_left _ _
  · rw [Disk.setInode_inode_self, SparseFile.truncate_get, SparseFile.truncate_get, hbytes]
    by_cases hi : i < size
    · rw [if_pos hi]
      split
      · rfl
      · exact f.get_past i (by omega)
    · rw [if_neg hi, if_neg (by omega)]

theorem OnDisk.wp_resizeForTruncate (hk : OnDisk d w) (size : Nat) :
    wp amid (resizeForTruncate p size)
      (fun r w' => r.1.cacheView = p.cacheView ∧ OnDisk d w') w := by
  unfold resizeForTruncate
  split
  · unfold azPageBlobResize
    split
    · exact hk.wp_ret fun w' hk' => ⟨rfl, hk'⟩
    refine hk.wp_execute_bind fun x w₁ hk₁ => ?_
    split
    · exact hk₁.wp_ret fun w' hk' => ⟨rfl, hk'⟩
    · exact hk₁.wp_ret fun w' hk' => ⟨rfl, hk'⟩
  · exact hk.wp_ret fun w' hk' => ⟨rfl, hk'⟩

theorem HasContent.wp_truncate (h : HasContent f p d) (hk : OnDisk d w) (size : Nat) :
    wp amid (mainDbTruncate p size) (fun r w' =>
      r.2 = .ok ∧ HasContent (f.truncate (min size f.size)) r.1 w'.disk ∨
      r.2 ≠ .ok ∧ HasContent f r.1 w'.disk) w := by
  obtain ⟨fd, hfd, -⟩ := h.cache
  unfold mainDbTruncate
  rw [wp_bind]
  refine wp_mono ?_ (hk.wp_resizeForTruncate size)
  rintro ⟨q, rc⟩ w₁ ⟨hq, hk₁⟩
  dsimp only at hq ⊢
  have hkeep : ∀ {rc : Rc} {w : World}, rc ≠ .ok → OnDisk d w → wp amid (.ret (q, rc))
      (fun r w' => r.2 = .ok ∧ HasContent (f.truncate (min size f.size)) r.1 w'.disk ∨
        r.2 ≠ .ok ∧ HasContent f r.1 w'.disk) w :=
    fun hrc hk => hk.wp_ret fun w' hk' => Or.inr ⟨hrc, h.congr hq (by rw [hk'.disk])⟩
  have hsame : q.cacheFd = some fd := (congrArg (fun v => v.2.2.1) hq).trans hfd
  split
  · next hne => exact hkeep hne hk₁
  split
  · next hnone => rw [hsame] at hnone; cases hnone
  next fd' hfd' =>
  obtain rfl : fd = fd' := Option.some.inj (hsame.symm.trans hfd')
  refine hk₁.wp_sys_bind fun c w₂ hk₂ => ?_
  simp only [Disk.serve] at hk₂ ⊢
  by_cases hfails : c.sysFails = true
  · simp only [hfails, if_true, Bool.not_false] at hk₂ ⊢
    exact hkeep Rc.noConfusion hk₂
  · simp only [hfails, Bool.false_eq_true, if_false, Bool.not_true] at hk₂ ⊢
    refine hk₂.wp_ret fun w' hk' => Or.inl ⟨rfl, ?_⟩
    rw [hk'.disk]
    exact h.cut hfd hq

/-! ## Syncing -/

theorem OnDisk.padded (hk : OnDisk d w) (fd : Fd) : Padded d fd w.disk := by
  rw [hk.disk]
  exact .refl d fd

theorem OnDisk.wp_padCache (hk : OnDisk d w) (ranges : List (Nat × Nat)) :
    wp amid (padCache (some fd) ranges) (fun _ w' => Padded d fd w'.disk) w := by
  unfold padCache
  split
  · next fd' offset len hfd hlast =>
    obtain rfl := Option.some.inj hfd
    refine hk.wp_sys_bind fun c w₁ hk₁ => ?_
    simp only [Disk.serve] at hk₁ ⊢
    by_cases hfails : c.sysFails = true
    · simp only [hfails, if_true, Bool.false_and, Bool.false_eq_true, if_false] at hk₁ ⊢
      exact hk₁.wp_ret fun w' hk' => hk'.padded fd
    simp only [hfails, Bool.false_eq_true, if_false, Bool.true_and, decide_eq_true_eq] at hk₁ ⊢
    split
    · next hlt =>
      refine hk₁.wp_sys_bind fun c' w₂ hk₂ => ?_
      simp only [Disk.serve] at hk₂ ⊢
      by_cases hfails' : c'.sysFails = true
      · simp only [hfails', if_true] at hk₂ ⊢
        exact hk₂.wp_ret fun w' hk' => hk'.padded fd
      · simp only [hfails', Bool.false_eq_true, if_false] at hk₂ ⊢
        refine hk₂.wp_ret fun w' hk' => ?_
        rw [hk'.disk]
        exact padded_truncate (Nat.le_of_lt hlt)
    · exact hk₁.wp_ret fun w' hk' => hk'.padded fd
  · exact hk.wp_ret fun w' hk' => hk'.padded fd

theorem OnDisk.wp_readRanges : ∀ (ranges : List (Nat × Nat)) {w : World}, OnDisk d w →
    wp amid (readRanges (some fd) ranges) (fun _ w' => OnDisk d w') w
  | [], _, hk => hk.wp_ret fun _ hk' => hk'
  | (offset, len) :: ranges, _, hk => by
    unfold readRanges
    refine hk.wp_sys_bind fun c w₁ hk₁ => ?_
    have hd : (d.serve c (.pread fd offset len)).2 = d := by
      simp only [Disk.serve]
      split <;> rfl
    rw [hd] at hk₁
    split
    · exact hk₁.wp_ret fun _ hk' => hk'
    · rw [wp_bind]
      refine wp_mono ?_ (OnDisk.wp_readRanges ranges hk₁)
      exact fun rest w₂ hk₂ => hk₂.wp_ret fun _ hk' => hk'

theorem OnDisk.wp_loadRanges (hk : OnDisk d w) (hfd : p.cacheFd = some fd)
    (ranges : List (Nat × Nat)) :
    wp amid (loadRanges p ranges) (fun _ w' => Padded d fd w'.disk) w := by
  unfold loadRanges
  dsimp only
  split
  · exact hk.wp_ret fun w' hk' => hk'.padded fd
  rw [hfd, wp_bind]
  refine wp_mono ?_ (hk.wp_padCache ranges)
  intro _ w₁ hpad
  refine wp_quiet_bind seen_amid.quiet rfl fun m _ => ?_
  have hdone : ∀ {x : Except Rc (List PageRange)} {w : World}, OnDisk w₁.disk w →
      wp amid (.ret x) (fun _ w' => Padded d fd w'.disk) w := by
    intro x w hk
    refine hk.wp_ret fun w' hk' => ?_
    rw [hk'.disk]
    exact hpad
  split
  · exact hdone (onDisk w₁)
  · rw [wp_bind]
    refine wp_mono ?_ (OnDisk.wp_readRanges ranges (onDisk w₁))
    exact fun loaded w₂ hk₂ => hdone hk₂

theorem OnDisk.wp_resizeForSync (hk : OnDisk d w) :
    wp amid (resizeForSync p) (fun r w' => r.1.cacheView = p.cacheView ∧ OnDisk d w') w := by
  unfold resizeForSync
  split
  · unfold azPageBlobResize
    split
    · exact hk.wp_ret fun w' hk' => ⟨rfl, hk'⟩
    refine hk.wp_execute_bind fun x w₁ hk₁ => ?_
    split
    · exact hk₁.wp_ret fun w' hk' => ⟨rfl, hk'⟩
    · exact hk₁.wp_ret fun w' hk' => ⟨rfl, hk'⟩
  · exact hk.wp_ret fun w' hk' => ⟨rfl, hk'⟩

theorem OnDisk.wp_takeSnapshot (hk : OnDisk d w) :
    wp amid (takeSnapshot p) (fun q w' => q.cacheView = p.cacheView ∧ OnDisk d w') w := by
  unfold takeSnapshot
  split
  · unfold azBlobSnapshotCreate
    refine hk.wp_execute_bind fun x w₁ hk₁ => ?_
    refine hk₁.wp_ret fun w' hk' => ⟨?_, hk'⟩
    split <;> rfl
  · exact hk.wp_ret fun w' hk' => ⟨rfl, hk'⟩

theorem flushing_amid (loaded : List PageRange) : Flushing amid p loaded fun _ _ _ => True where
  fact _ _ := fact_amid
  mono _ _ _ := trivial
  put _ _ _ _ _ _ _ _ := ⟨trivial, trivial, fun _ => trivial⟩
  renew _ _ _ _ _ _ _ _ _ := ⟨trivial, trivial⟩

/-- A sync changes nothing of what the file shows, however it ends. -/
theorem HasContent.wp_sync (h : HasContent f p d) (hk : OnDisk d w) :
    wp amid (mainDbSync p) (fun r w' => HasContent f r.1 w'.disk) w := by
  obtain ⟨fd, hfd, -⟩ := h.cache
  have hdone : ∀ {q : ObjsFile} {rc : Rc} {d : Disk} {w : World}, HasContent f q d → OnDisk d w →
      wp amid (.ret (q, rc)) (fun r w' => HasContent f r.1 w'.disk) w :=
    fun h hk => hk.wp_ret fun w' hk' => h.congr rfl (by rw [hk'.disk])
  unfold mainDbSync
  split
  · exact hdone h hk
  split
  · exact hdone h hk
  refine hk.wp_leaseRenew_bind fun t rc w₁ _ hk₁ => ?_
  dsimp only
  split
  · exact hdone (h.congr rfl rfl) hk₁
  rw [wp_bind]
  refine wp_mono ?_ hk₁.wp_resizeForSync
  rintro ⟨q, rc', aerr⟩ w₂ ⟨hq, hk₂⟩
  have hq : q.cacheView = p.cacheView := hq
  have hqfd : q.cacheFd = some fd := (congrArg (fun v => v.2.2.1) hq).trans hfd
  dsimp only
  split
  · exact hdone (h.congr hq rfl) hk₂
  refine wp_syncRanges_bind_of seen_amid.quiet (fun rc _ _ => hdone (h.congr hq rfl) hk₂)
    fun _ ranges _ => ?_
  dsimp only
  rw [wp_bind]
  refine wp_mono ?_ (hk₂.wp_loadRanges hqfd ranges)
  intro x w₃ hpad
  have h₃ : HasContent f q w₃.disk := (h.congr hq rfl).padded hqfd hpad
  cases x with
  | error rc => exact hdone h₃ (onDisk w₃)
  | ok loaded =>
    dsimp only
    rw [wp_bind]
    refine wp_mono ?_ ((flushing_amid loaded).wp_writeRanges seen_amid (A := fun _ => False)
      (T := fun _ => False) (onDisk w₃) aerr)
    rintro ⟨q', x⟩ w₄ hend
    obtain ⟨t', rfl⟩ := hend.file
    have hk₄ : OnDisk w₃.disk w₄ := hend.keeps
    cases x with
    | error rc => exact hdone (h₃.congr rfl rfl) hk₄
    | ok etag =>
      dsimp only
      refine Knows.wp_finishFlush_bind hk₄ seen_amid fact_amid fun d₁ w₅ hd₁ hk₅ => ?_
      rw [wp_bind]
      refine wp_mono ?_ (OnDisk.wp_takeSnapshot hk₅)
      intro q₂ w₆ hend₆
      refine Knows.wp_persistState_bind hend₆.2 seen_amid fact_amid fun d₂ w₇ hd₂ hk₇ => ?_
      exact hdone (h₃.congr hend₆.1 (hd₂.trans hd₁)) hk₇

/-! ## Locks -/

theorem OnDisk.wp_releaseLease (hk : OnDisk d w) :
    wp amid (releaseLease p) (fun q w' => q.cacheView = p.cacheView ∧ OnDisk d w') w := by
  unfold releaseLease
  split
  · unfold azLeaseRelease
    refine hk.wp_execute_bind fun x w₁ hk₁ => ?_
    exact hk₁.wp_ret fun w' hk' => ⟨rfl, hk'⟩
  · exact hk.wp_ret fun w' hk' => ⟨rfl, hk'⟩

theorem HasContent.wp_unlock (h : HasContent f p d) (hk : OnDisk d w) (eLock : LockLevel) :
    wp amid (sqliteObjsUnlock p eLock) (fun r w' => r.2 = .ok ∧ HasContent f r.1 w'.disk) w := by
  unfold sqliteObjsUnlock
  split
  · exact hk.wp_ret fun w' hk' => ⟨rfl, h.congr rfl (by rw [hk'.disk])⟩
  split
  · rw [wp_bind]
    refine wp_mono ?_ hk.wp_releaseLease
    intro q w₁ hend
    exact hend.2.wp_ret fun w' hk' => ⟨rfl, h.congr hend.1 (by rw [hk'.disk])⟩
  · exact hk.wp_ret fun w' hk' => ⟨rfl, h.congr rfl (by rw [hk'.disk])⟩

/-- Once something was read the cache file is not replaced under a new lease. -/
theorem OnDisk.wp_revalidateAfterLease (hk : OnDisk d w) (hread : p.readsSinceSharedLock ≠ 0)
    (leaseEtag : Option ETag) : wp amid (revalidateAfterLease p leaseEtag)
      (fun r w' => r.1.cacheView = p.cacheView ∧ OnDisk d w') w := by
  have hdone : ∀ {rc : Rc} {w : World}, OnDisk d w → wp amid (.ret (p, rc))
      (fun r w' => r.1.cacheView = p.cacheView ∧ OnDisk d w') w :=
    fun hk => hk.wp_ret fun w' hk' => ⟨rfl, hk'⟩
  unfold revalidateAfterLease
  split
  · exact hdone hk
  split
  · exact hdone hk
  split
  · exact hdone hk
  split
  · exact hdone hk
  split
  · exact hdone hk
  unfold azBlobGetProperties
  refine hk.wp_execute_bind fun head w₁ hk₁ => ?_
  split
  · exact hdone hk₁
  split
  · exact hdone hk₁
  · exact hdone hk₁

theorem OnDisk.wp_azLeaseAcquire (hk : OnDisk d w) (b : BlobId) (duration : Nat) :
    wp amid (azLeaseAcquire b duration) (fun _ w' => OnDisk d w') w := by
  unfold azLeaseAcquire
  split
  · exact hk.wp_ret fun _ hk' => hk'
  · rw [← bind_pure (execute _)]
    exact hk.wp_execute_bind fun x w₁ hk₁ => hk₁.wp_ret fun _ hk' => hk'

theorem OnDisk.wp_acquireLease (hk : OnDisk d w) (hread : p.readsSinceSharedLock ≠ 0) :
    wp amid (acquireLease p) (fun r w' => r.1.cacheView = p.cacheView ∧ OnDisk d w') w := by
  have hdone : ∀ {q : ObjsFile} {rc : Rc} {w : World}, q.cacheView = p.cacheView → OnDisk d w →
      wp amid (.ret (q, rc)) (fun r w' => r.1.cacheView = p.cacheView ∧ OnDisk d w') w :=
    fun hq hk => hk.wp_ret fun w' hk' => ⟨hq, hk'⟩
  unfold acquireLease
  dsimp only
  rw [wp_bind]
  refine wp_mono ?_ (hk.wp_azLeaseAcquire _ _)
  intro x w₁ hk₁
  split
  · exact hdone rfl hk₁
  split
  · exact hdone rfl hk₁
  refine wp_quiet_bind seen_amid.quiet rfl fun now _ => ?_
  rw [wp_bind]
  refine wp_mono ?_ (hk₁.wp_revalidateAfterLease (p := { p with
    leaseId := some x.leaseId, leaseAcquiredAt := now.n, leaseDuration := _ }) hread x.etag)
  rintro ⟨q, rv⟩ w₂ ⟨hq, hk₂⟩
  have hq : q.cacheView = p.cacheView := hq
  dsimp only
  split
  · rw [wp_bind]
    refine wp_mono ?_ hk₂.wp_releaseLease
    exact fun q' w₃ hend => hdone (hend.1.trans hq) hend.2
  · exact hdone hq hk₂

/-- Inside a transaction a lock changes nothing of what the file shows. -/
theorem HasContent.wp_lock (h : HasContent f p d) (hk : OnDisk d w) {eLock : LockLevel}
    (hin : eLock.rank ≤ p.eLock.rank ∨ eLock ≠ .shared ∧ p.readsSinceSharedLock ≠ 0) :
    wp amid (sqliteObjsLock p eLock) (fun r w' => HasContent f r.1 w'.disk) w := by
  have hdone : ∀ {q : ObjsFile} {rc : Rc} {w : World}, q.cacheView = p.cacheView → OnDisk d w →
      wp amid (.ret (q, rc)) (fun r w' => HasContent f r.1 w'.disk) w :=
    fun hq hk => hk.wp_ret fun w' hk' => h.congr hq (by rw [hk'.disk])
  unfold sqliteObjsLock
  split
  · exact hdone rfl hk
  next hrank =>
  obtain ⟨hshared, hread⟩ := hin.resolve_left hrank
  rw [if_neg hshared]
  split
  · exact hdone rfl hk
  split
  · exact hdone rfl hk
  rw [wp_bind]
  refine wp_mono ?_ (hk.wp_acquireLease hread)
  rintro ⟨q, rv⟩ w₁ ⟨hq, hk₁⟩
  have hq : q.cacheView = p.cacheView := hq
  dsimp only
  split
  · exact hdone hq hk₁
  · exact hdone (q := { q with eLock := eLock }) hq hk₁

/-! ## The refinement -/

/-- The codes of a call that is done or fails without effect. -/
theorem IdealDb.Step.of_code (c : TxCall) {rc : Rc} (happly : apply f c = (f, .code .ok))
    (hc : ∀ buf iOfst, c ≠ .file (.write buf iOfst)) : Step f c f (.code rc) := by
  by_cases hrc : rc = .ok
  · subst hrc
    have hdone := Step.done (f := f) c
    rwa [happly] at hdone
  · exact .failed c hrc fun buf iOfst h => absurd h (hc buf iOfst)

/-- **One call.** On whatever the file shows it is a step of the ideal database. -/
theorem HasContent.wp_call (v : VfsData) (h : HasContent f p w.disk) (c : TxCall) :
    wp amid (c.code v p) (fun r w' => c.Stays p r.2 →
      ∃ f', IdealDb.Step f c f' r.2 ∧ HasContent f' r.1 w'.disk) w := by
  have hk := onDisk w
  cases c with
  | file c =>
    cases c with
    | read iAmt iOfst =>
      show wp amid (sqliteObjsRead p iAmt iOfst >>= fun r =>
        pure (r.1, FileResult.data r.2.1 r.2.2)) _ w
      unfold sqliteObjsRead
      rw [h.kind, wp_bind]
      refine wp_mono ?_ (h.wp_read seen_amid fact_amid hk iAmt iOfst)
      rintro r w₁ ⟨-, -, hcontent, hread⟩
      refine (onDisk w₁).wp_ret fun w' hk' _ => ?_
      rw [hk'.disk]
      rcases hread with hres | hfail
      · exact ⟨f, hres ▸ .done _, hcontent⟩
      · refine ⟨f, .failed _ ?_ (fun _ _ he => nomatch he), hcontent⟩
        rw [hfail]
        exact fun hs => hs.elim Rc.noConfusion Rc.noConfusion
    | write buf iOfst =>
      show wp amid (sqliteObjsWrite p buf iOfst >>= fun r => pure (r.1, FileResult.code r.2)) _ w
      unfold sqliteObjsWrite
      rw [h.kind, wp_bind]
      refine wp_mono ?_ (h.wp_write hk buf iOfst)
      intro r w₁ hend
      refine (onDisk w₁).wp_ret fun w' hk' hstays => ?_
      rw [hk'.disk]
      rcases hend fun he => hstays (congrArg FileResult.code he) with ⟨hrc, hw⟩ | ⟨⟨hne, hne'⟩, hw⟩
      · rcases hrc with hrc | hrc
        · rw [hrc]
          exact ⟨_, .done (.file (.write buf iOfst)), hw⟩
        · rw [hrc]
          exact ⟨_, .unleased buf iOfst, hw⟩
      · exact ⟨f, .failed _ hne fun _ _ _ he => hne' (FileResult.code.inj he), hw⟩
    | truncate size =>
      show wp amid (sqliteObjsTruncate p size >>= fun r => pure (r.1, FileResult.code r.2)) _ w
      unfold sqliteObjsTruncate
      rw [h.kind, wp_bind]
      refine wp_mono ?_ (h.wp_truncate hk size)
      intro r w₁ hend
      refine (onDisk w₁).wp_ret fun w' hk' _ => ?_
      rw [hk'.disk]
      rcases hend with ⟨hrc, hw⟩ | ⟨hne, hw⟩
      · rw [hrc]
        exact ⟨_, .done (.file (.truncate size)), hw⟩
      · exact ⟨f, .failed _ hne (fun _ _ he => nomatch he), hw⟩
    | fileSize =>
      refine hk.wp_ret fun w' hk' _ => ?_
      rw [hk'.disk]
      refine ⟨f, ?_, h⟩
      have hn : sqliteObjsFileSize p = f.size := by
        unfold sqliteObjsFileSize
        rw [h.kind]
        exact h.size.symm
      dsimp only
      rw [hn]
      exact .done (.file .fileSize)
  | sync =>
    show wp amid (sqliteObjsSync v p >>= fun r => pure (r.2.1, FileResult.code r.2.2)) _ w
    unfold sqliteObjsSync
    rw [h.kind, LawfulMonad.bind_assoc, wp_bind]
    refine wp_mono ?_ (h.wp_sync hk)
    intro r w₁ hend
    refine (onDisk w₁).wp_ret fun w' hk' _ => ?_
    rw [hk'.disk]
    exact ⟨f, .of_code .sync rfl (fun _ _ he => nomatch he), hend⟩
  | lock eLock =>
    by_cases hin : eLock.rank ≤ p.eLock.rank ∨ eLock ≠ .shared ∧ p.readsSinceSharedLock ≠ 0
    · show wp amid (sqliteObjsLock p eLock >>= fun r => pure (r.1, FileResult.code r.2)) _ w
      rw [wp_bind]
      refine wp_mono ?_ (h.wp_lock hk hin)
      intro r w₁ hend
      refine (onDisk w₁).wp_ret fun w' hk' _ => ?_
      rw [hk'.disk]
      exact ⟨f, .of_code (.lock eLock) rfl (fun _ _ he => nomatch he), hend⟩
    · refine wp_mono (Q := fun _ _ => True) (fun r w' _ hstays => absurd hstays hin) ?_
      exact (returns_true (A := always) _).wp fun _ _ _ _ _ => ⟨trivial, trivial⟩
  | unlock eLock =>
    show wp amid (sqliteObjsUnlock p eLock >>= fun r => pure (r.1, FileResult.code r.2)) _ w
    rw [wp_bind]
    refine wp_mono ?_ (h.wp_unlock hk eLock)
    intro r w₁ hend
    refine (onDisk w₁).wp_ret fun w' hk' _ => ?_
    rw [hk'.disk]
    exact ⟨f, .of_code (.unlock eLock) rfl (fun _ _ he => nomatch he), hend.2⟩

end Calls

section Main

variable {v : VfsData} {name : String} {uri : PrefetchMode → UriParams} {create : Bool} {ctx : Nat}
  {ops : PrefetchMode → AzureOps} {s : Files} {m : PrefetchMode} {p p' : ObjsFile} {w₀ w w' : World}
  {cs : List TxCall} {rs : List FileResult}

/-- An eager file with the ETag of the blob has its content. -/
theorem Sees.hasContent {i : BlobId} {b : Blob} (h : Sees i p w) (hmode : p.prefetchMode = .all)
    (hb : w.azure.blobs i = some b) (het : p.etag = some b.etag) :
    HasContent b.content p w.disk := by
  obtain ⟨fd, hfd, -⟩ := h.cacheFd
  have himg := h.image fd b hfd hb het
  refine ⟨h.kind, by rw [hmode]; exact PrefetchMode.noConfusion, himg.nData.symm, fd, hfd, ?_, ?_⟩
  · rw [himg.nData, himg.cacheSize]
  · exact fun i => congrArg (SparseFile.get · i) (himg.eq_of_all hmode)

/-- **Transactions are isolated.** When a transaction starts, the file under a `SHARED` lock has the
content of the blob. From there on, whatever the other clients do and whatever fails, its calls
and their results are those of an ideal database that starts with this content, as
long as no write is torn. -/
theorem transaction_isolated (hreuse : ∀ m, (uri m).cacheReuse = false)
    (hsel : ∀ m, selectedOps v (uri m) = some (ops m, ctx)) (hops : ∀ m, (ops m).Complete)
    (hblob : ∃ b, w₀.azure.blobs ⟨ctx, name⟩ = some b ∧ b.etag < w₀.azure.nextETag)
    (hreach : (readSession v name uri create ⟨ctx, name⟩).Reach (fun _ => none) w₀ s w)
    (hp : s m = some p) (hmode : p.prefetchMode = .all) (hlock : p.eLock ≠ .none)
    (hplay : Performs amid (TxCall.code v) TxCall.Stays p w cs rs p' w') :
    ∃ b f, w.azure.blobs ⟨ctx, name⟩ = some b ∧ Steps IdealDb.Step b.content cs rs f ∧
      HasContent f p' w'.disk := by
  have hi := BothSee.reach hreuse hsel hops ⟨by simp, by simp, hblob⟩ hreach
  obtain ⟨b, hb, -⟩ := hi.blob
  have hsees := hi.file m p hp
  obtain ⟨f, hpath, hf⟩ := hplay.simulated
    (R := fun f p w => HasContent f p w.disk) (fun c p w f h => h.wp_call v c)
    (hsees.hasContent hmode hb (hsees.locked hlock b hb))
  exact ⟨b, f, hb, hpath, hf⟩

/-- A write that makes the database longer, and a read across the old end and the new one. -/
def growingCalls : List TxCall :=
  [.file (.write (SparseFile.ofFn 512 fun _ => 7) 512), .file (.read 600 500), .file .fileSize]

/-- A machine that works, amid whatever others do. -/
theorem runs_amid {α : Type} {m : Prog α} {a : α} (n : Nat)
    (h : exec World.respond (List.replicate n {}) m w = some (a, w')) :
    Runs amid.disturbed m w a w' :=
  Setting.runs_disturbed (E := amid)
    ((World.runs_of_exec n h).mono fun _ _ _ _ hs => hs.imp fun _ hc => ⟨trivial, hc.2⟩)

set_option maxRecDepth 8000 in
/-- A database of one sector is locked, another client empties the account, the transaction goes
on. -/
theorem transaction_isolated_emptied : ∃ s w p p' w' rs b f,
    (readSession (.new 0) "db" (fun _ => {}) false ⟨0, "db"⟩).Reach (fun _ => none) smallPageWorld
      s w ∧ s .all = some p ∧
    Performs amid (TxCall.code (.new 0)) TxCall.Stays p w growingCalls rs p' w' ∧
    w'.azure.blobs ⟨0, "db"⟩ = none ∧
    w.azure.blobs ⟨0, "db"⟩ = some b ∧ Steps IdealDb.Step b.content growingCalls rs f ∧
    HasContent f p' w'.disk := by
  obtain ⟨s, w, p, p', w', rs, hreach, hp, hmode, hlock, hplay, hgone⟩ : ∃ s w p p' w' rs,
      (readSession (.new 0) "db" (fun _ => {}) false ⟨0, "db"⟩).Reach (fun _ => none) smallPageWorld
        s w ∧ s .all = some p ∧ p.prefetchMode = .all ∧ p.eLock ≠ .none ∧
      Performs amid (TxCall.code (.new 0)) TxCall.Stays p w growingCalls rs p' w' ∧
      w'.azure.blobs ⟨0, "db"⟩ = none := by
    refine ⟨_, _, _, _, _, _,
      .call (.lock .all)
        (.call (.xOpen .all) .refl
          (fun b hb => pagesOf_lt_limit (n := 512) rfl (by decide) hb _)
          (runs_sound 40 rfl) trivial)
        (fun p b _ hb => pagesOf_lt_limit (n := 512) rfl (by decide) hb _)
        (runs_sound 40 rfl) trivial,
      rfl, rfl, by decide,
      .cons (runs_amid 10 rfl) (fun h => nomatch h)
        (.cons (.call ⟨{ azure := World.new.azure, disk := _ }, rfl, {}, trivial, rfl⟩ (.ret _ _))
          trivial (.cons (.ret _ _) trivial (.nil _ _))), rfl⟩
  have hsel : ∀ m, selectedOps (.new 0) ((fun _ => {} : PrefetchMode → UriParams) m) =
      some ((fun _ => azureProductionOps : PrefetchMode → AzureOps) m, 0) := fun _ => rfl
  obtain ⟨b, f, hb, hsteps, hf⟩ := transaction_isolated (fun _ => rfl) hsel
    (fun _ => complete_production) ⟨_, rfl, by decide⟩ hreach hp hmode hlock hplay
  exact ⟨s, w, p, p', w', rs, b, f, hreach, hp, hplay, hgone, hb, hsteps, hf⟩

end Main

end SqliteObjs
