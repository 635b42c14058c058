import SqliteObjs.MainDb.Coalesce
import SqliteObjs.MainDb.DirtyMarks

/-!
# Failed writes

`xWrite` of a database changes the size of the file, the cache file and the bitmaps in turn.
When the cache file or a bitmap cannot grow, or nothing could be written, it takes back the
size and no byte has changed. A lease that cannot be renewed comes after the write to the
cache file and before the marks: the size stays and so do the bytes, on pages that are not
marked dirty. So a failed write leaves no untracked change exactly when no renewal can fail,
or there is nothing to track (`failed_write_tracked_iff`).
-/

set_option autoImplicit false

namespace SqliteObjs

open Data CS CS.Program

/-- The answers of the world under any faults, where a failing `pwrite` writes nothing. -/
abbrev wholeWrites : (r : Req) → World → Ans r → World → Prop := World.served fun c => c.count = 0

/-- After a failed write the size is what it was, and so is every byte of the cache file on a
page that is not dirty. -/
def NoUntrackedChange (p : ObjsFile) (w : World) (r : ObjsFile × Rc) (w' : World) : Prop :=
  r.2 ≠ .ok → r.1.nData = p.nData ∧ ∀ fd, p.cacheFd = some fd →
    ∀ j, r.1.dirty.bit (j / r.1.pageSize) = false →
      (w'.disk.inode fd).get j = (w.disk.inode fd).get j

/-- The write changes neither the size nor a byte on a page that is not dirty. -/
def WritesNothingNew (p : ObjsFile) (buf : Bytes) (iOfst : Nat) (w : World) : Prop :=
  iOfst + buf.size ≤ p.nData ∧ ∀ fd, p.cacheFd = some fd →
    ∀ j, iOfst ≤ j → j < iOfst + buf.size → p.dirty.bit (j / p.pageSize) = false →
      (w.disk.inode fd).get j = buf.get (j - iOfst)

section Steps

variable {p : ObjsFile} {fd : Fd} {ok : Choice → Prop} {w : World}

theorem seen_served (ok : Choice → Prop) : Seen (.alone (World.served ok)) id fun _ => ok :=
  seen_alone fun _ _ _ _ h => h

theorem fact_served (ok : Choice → Prop) : Fact (.alone (World.served ok)) fun _ => True where
  stable _ _ _ _ := trivial
  sys _ _ _ _ _ _ := trivial

/-- Growing the cache file changes no byte of it, and works when the machine does. -/
theorem wp_extendCache_get (hfd : p.cacheFd = some fd) (prev fin : Nat) :
    wp (.alone (World.served ok)) (extendCache p prev fin) (fun r w' => Grown p r.1 ∧
      (∀ j, (w'.disk.inode fd).get j = (w.disk.inode fd).get j) ∧
      ((∀ c, ok c → c.sysFails = false) → r.2 = .ok)) w := by
  have hE := seen_served ok
  have hA := fact_served ok
  have hk : Knows id (fun _ => True) w.disk w := ⟨trivial, rfl⟩
  have hsame : ∀ w' : World, w'.disk = w.disk →
      ∀ j, (w'.disk.inode fd).get j = (w.disk.inode fd).get j := fun w' h j => by rw [h]
  unfold extendCache
  split
  · unfold cacheEnsureSize
    rw [hfd]
    refine hk.wp_sys_bind hE hA fun c w₁ hc hk₁ => ?_
    cases hf : c.sysFails with
    | true =>
      simp only [Disk.serve, hf, if_true, Bool.not_false] at hk₁ ⊢
      refine wp_alone_ret.mpr ⟨.refl p, hsame w₁ hk₁.2, fun h => ?_⟩
      exact absurd (h c hc) (by rw [hf]; decide)
    | false =>
      simp only [Disk.serve, hf, Bool.false_eq_true, if_false, Bool.not_true] at hk₁ ⊢
      split
      · exact wp_alone_ret.mpr ⟨.refl p, hsame w₁ hk₁.2, fun _ => rfl⟩
      next hshort =>
      refine hk₁.wp_sys_bind hE hA fun c' w₂ hc' hk₂ => ?_
      cases hf' : c'.sysFails with
      | true =>
        simp only [Disk.serve, hf', if_true, Bool.not_false] at hk₂ ⊢
        refine wp_alone_ret.mpr ⟨.refl p, hsame w₂ hk₂.2, fun h => ?_⟩
        exact absurd (h c' hc') (by rw [hf']; decide)
      | false =>
        simp only [Disk.serve, hf', Bool.false_eq_true, if_false, Bool.not_true] at hk₂ ⊢
        have hbytes : ∀ j, (w₂.disk.inode fd).get j = (w.disk.inode fd).get j := by
          intro j
          rw [show w₂.disk = _ from hk₂.2, Disk.setInode_inode_self]
          exact SparseFile.truncate_get_of_le _ (by omega) j
        rw [← bind_ret (bitmapsEnsureCapacity p)]
        refine wp_bitmapsEnsureCapacity_bind hE.quiet fun p' rc hgrown hal => ?_
        refine wp_alone_ret.mpr ⟨hgrown, hbytes, fun h => (hal ?_).1⟩
        exact allocates_alone h
  · exact wp_alone_ret.mpr ⟨.refl p, fun _ => rfl, fun _ => rfl⟩

/-- A renewal that fails changes neither the file nor the machine. -/
theorem wp_leaseRenewIfNeeded_keeps :
    wp (.alone (World.served ok)) (leaseRenewIfNeeded p) (fun r w' => w'.disk = w.disk ∧
      (r.2 ≠ .ok → r.1 = p ∧ p.leaseId ≠ none)) w := by
  have hE := seen_served ok
  have hA := fact_served ok
  have hk : Knows id (fun _ => True) w.disk w := ⟨trivial, rfl⟩
  unfold leaseRenewIfNeeded
  split
  · exact wp_alone_ret.mpr ⟨rfl, fun h => absurd rfl h⟩
  next hid =>
  dsimp only
  generalize (if 0 < p.leaseDuration then p.leaseDuration / 2 else leaseDurationDefault / 2) = after
  refine hk.wp_sys_bind hE hA fun c w₁ _ hk₁ => ?_
  dsimp only [Disk.serve] at hk₁ ⊢
  split
  · exact wp_alone_ret.mpr ⟨hk₁.2, fun h => absurd rfl h⟩
  refine hk₁.wp_execute_bind hE hA (fun _ _ _ _ _ => ⟨trivial, trivial⟩) fun x w₂ hk₂ => ?_
  split
  · exact wp_alone_ret.mpr ⟨hk₂.2, fun _ => ⟨rfl, by rw [hid]; simp⟩⟩
  · exact wp_alone_ret.mpr ⟨hk₂.2, fun h => absurd rfl h⟩

/-- Every renewal can come too late. -/
theorem exists_runs_leaseRenewIfNeeded_fails {id : LeaseId} (hid : p.leaseId = some id)
    (w : World) :
    Runs wholeWrites (leaseRenewIfNeeded p) w (p, .ioerrLock) w := by
  unfold leaseRenewIfNeeded
  rw [hid]
  dsimp only
  generalize (if 0 < p.leaseDuration then p.leaseDuration / 2 else leaseDurationDefault / 2) = after
  -- the clock has moved on, and the service refuses
  have htime : wholeWrites (.sys .time) w { ok := true, n := p.leaseAcquiredAt + after } w :=
    ⟨{ now := p.leaseAcquiredAt + after }, rfl, rfl⟩
  have hrefused : wholeWrites (.azure (.leaseRenew p.blob id)) w { err := .leaseExpired } w :=
    ⟨{ fault := some (.leaseExpired, false) }, rfl, rfl⟩
  refine Runs.bind (.call htime (.ret _ _)) ?_
  dsimp only
  rw [if_neg (by omega)]
  exact .call hrefused (.ret _ _)

end Steps

section Write

variable {p : ObjsFile} {fd : Fd} {buf : Bytes} {iOfst : Nat} {w : World}

/-- A write fails before it changed anything, or because a renewal did after the bytes were
written. -/
theorem wp_mainDbWrite_failed (hfd : p.cacheFd = some fd) :
    wp (.alone wholeWrites) (mainDbWrite p buf iOfst) (fun r w' => r.2 ≠ .ok →
      Grown p { r.1 with nData := p.nData } ∧
      (r.1.nData = p.nData ∧ (∀ j, (w'.disk.inode fd).get j = (w.disk.inode fd).get j) ∨
        p.leaseId ≠ none ∧ r.1.nData = max p.nData (iOfst + buf.size) ∧
        ∀ j, (w'.disk.inode fd).get j = ((w.disk.inode fd).pwrite iOfst buf).get j)) w := by
  have hE := seen_served fun c => c.count = 0
  have hA := fact_served fun c => c.count = 0
  unfold mainDbWrite
  split
  · next hno => exact absurd (hfd.symm.trans hno) (by simp)
  next fd' hfd' =>
  obtain rfl : fd = fd' := Option.some.inj (hfd.symm.trans hfd')
  dsimp only
  rw [wp_bind]
  refine wp_mono ?_ (wp_extendCache_get
    (p := { p with nData := max p.nData (iOfst + buf.size) }) hfd p.nData (iOfst + buf.size))
  rintro ⟨q, rc⟩ w₁ ⟨hgrown, hbytes, -⟩
  dsimp only at hgrown ⊢
  have hq : Grown p { q with nData := p.nData } :=
    ⟨by rw [hgrown.eq], hgrown.dirty, hgrown.valid, hgrown.eager⟩
  split
  · exact wp_alone_ret.mpr fun _ => ⟨hq, Or.inl ⟨rfl, hbytes⟩⟩
  have hk₁ : Knows id (fun _ => True) w₁.disk w₁ := ⟨trivial, rfl⟩
  refine hk₁.wp_sys_bind hE hA fun c w₂ hc hk₂ => ?_
  cases hf : c.sysFails with
  | true =>
    simp only [Disk.serve, hf, if_true, Bool.not_false] at hk₂ ⊢
    refine wp_alone_ret.mpr fun _ => ⟨hq, Or.inl ⟨rfl, fun j => ?_⟩⟩
    rw [show w₂.disk = _ from hk₂.2, Disk.setInode_inode_self,
      SparseFile.pwrite_get_of_not_mem _ _ ?_, hbytes j]
    rw [SparseFile.slice_size, hc]
    omega
  | false =>
    simp only [Disk.serve, hf, Bool.false_eq_true, if_false, Bool.not_true] at hk₂ ⊢
    rw [wp_bind]
    refine wp_mono ?_ wp_leaseRenewIfNeeded_keeps
    rintro ⟨q', rc'⟩ w₃ ⟨hdisk, hfail⟩
    dsimp only at hfail ⊢
    split
    · next hne =>
      obtain ⟨rfl, hid⟩ := hfail hne
      refine wp_alone_ret.mpr fun _ => ⟨hq, Or.inr ⟨?_, ?_, fun j => ?_⟩⟩
      · rw [show q'.leaseId = p.leaseId by rw [hgrown.eq]] at hid
        exact hid
      · dsimp only
        rw [hgrown.eq]
      · rw [hdisk, show w₂.disk = _ from hk₂.2, Disk.setInode_inode_self, SparseFile.pwrite_get,
          SparseFile.pwrite_get, hbytes j]
    · split
      · exact wp_alone_ret.mpr fun h => absurd rfl h
      · exact wp_alone_ret.mpr fun h => absurd rfl h

theorem noRelock_bitmapEnsureCapacity (bm : Bitmap) (n ps : Nat) :
    NoRelock (bitmapEnsureCapacity bm n ps) := by
  unfold bitmapEnsureCapacity
  dsimp only
  refine Uses.ite trivial (Uses.ite trivial ?_)
  exact (noRelock_sys (by simp)).bind fun _ => Uses.ite trivial trivial

theorem noRelock_extendCache (p : ObjsFile) (prev fin : Nat) :
    NoRelock (extendCache p prev fin) := by
  have hbitmaps : NoRelock (bitmapsEnsureCapacity p) := by
    unfold bitmapsEnsureCapacity
    refine (noRelock_bitmapEnsureCapacity _ _ _).bind fun _ =>
      Uses.ite trivial (Uses.ite ?_ trivial)
    exact (noRelock_bitmapEnsureCapacity _ _ _).bind fun _ => trivial
  unfold extendCache
  refine Uses.ite ?_ trivial
  unfold cacheEnsureSize
  split
  · trivial
  refine (noRelock_sys (by simp)).bind fun _ => Uses.ite trivial (Uses.ite trivial ?_)
  exact (noRelock_sys (by simp)).bind fun _ => Uses.ite trivial hbitmaps

/-- A write under a lease can fail after its bytes were written. -/
theorem exists_runs_write_unrenewed (hfd : p.cacheFd = some fd) {id : LeaseId}
    (hid : p.leaseId = some id) (buf : Bytes) (iOfst : Nat) (w : World) :
    ∃ q w', Runs wholeWrites (mainDbWrite p buf iOfst) w (q, .ioerrLock) w' ∧
      Grown p { q with nData := p.nData } ∧ q.nData = max p.nData (iOfst + buf.size) ∧
      ∀ j, (w'.disk.inode fd).get j = ((w.disk.inode fd).pwrite iOfst buf).get j := by
  -- the machine works
  obtain ⟨⟨q, rc⟩, w₁, hext⟩ := Uses.exists_runs
    (noRelock_extendCache { p with nData := max p.nData (iOfst + buf.size) } p.nData
      (iOfst + buf.size))
    (fun r w hr =>
      show ∃ x w', World.served (fun c => c.sysFails = false ∧ c.count = 0) r w x w' from
      served_total (c := {}) ⟨rfl, rfl⟩ rfl hr w) w
  obtain ⟨hgrown, hbytes, hok⟩ := wp_alone_iff.mp
    (wp_extendCache_get (p := { p with nData := max p.nData (iOfst + buf.size) }) hfd p.nData
      (iOfst + buf.size)) _ _ hext
  obtain rfl : rc = .ok := hok fun c hc => hc.1
  dsimp only at hgrown
  have hany : ∀ r w (x : Ans r) w',
      World.served (fun c => c.sysFails = false ∧ c.count = 0) r w x w' →
      wholeWrites r w x w' := fun _ _ _ _ ⟨c, hc, hr⟩ => ⟨c, hc.2, hr⟩
  have hext' := hext.mono hany
  have hwrite : wholeWrites (.sys (.pwrite fd iOfst buf)) w₁ { ok := true }
      { w₁ with disk := w₁.disk.setInode fd ((w₁.disk.inode fd).pwrite iOfst buf) } :=
      ⟨{}, rfl, rfl⟩
  have hlease : q.leaseId = some id := by
    rw [hgrown.eq]
    exact hid
  refine ⟨q, { w₁ with disk := w₁.disk.setInode fd ((w₁.disk.inode fd).pwrite iOfst buf) }, ?_, ?_,
    by rw [hgrown.eq], fun j => ?_⟩
  · unfold mainDbWrite
    split
    · next hno => exact absurd (hfd.symm.trans hno) (by simp)
    next fd' hfd' =>
    obtain rfl : fd = fd' := Option.some.inj (hfd.symm.trans hfd')
    refine hext'.bind ?_
    dsimp only
    rw [if_neg (by simp)]
    refine Runs.bind (.call hwrite (.ret _ _)) ?_
    dsimp only
    rw [if_neg (by simp)]
    exact (exists_runs_leaseRenewIfNeeded_fails hlease _).bind (.ret _ _)
  · exact ⟨by rw [hgrown.eq], hgrown.dirty, hgrown.valid, hgrown.eager⟩
  · dsimp only
    rw [Disk.setInode_inode_self, SparseFile.pwrite_get, SparseFile.pwrite_get, hbytes j]

theorem Grown.clean {q : ObjsFile} (h : Grown p { q with nData := p.nData }) (j : Nat) :
    q.dirty.bit (j / q.pageSize) = p.dirty.bit (j / p.pageSize) := by
  have hps : q.pageSize = p.pageSize := by
    have := congrArg ObjsFile.pageSize h.eq
    exact this
  rw [hps]
  exact h.dirty.bits _

/-- A failed write leaves no untracked change exactly when the file is without a cache file or
without a lease to renew, or the write changes nothing that a mark would have to track. -/
theorem failed_write_tracked_iff (hkind : p.eFileType = .mainDb) :
    (∀ r w', Runs wholeWrites (sqliteObjsWrite p buf iOfst) w r w' → NoUntrackedChange p w r w') ↔
    p.cacheFd = none ∨ p.leaseId = none ∨ WritesNothingNew p buf iOfst w := by
  unfold sqliteObjsWrite
  rw [hkind]
  dsimp only
  cases hfd : p.cacheFd with
  | none =>
    refine iff_of_true (fun r w' hr _ => ?_) (Or.inl rfl)
    unfold mainDbWrite at hr
    rw [hfd] at hr
    cases hr
    exact ⟨rfl, fun fd h => absurd (hfd.symm.trans h) (by simp)⟩
  | some fd =>
    constructor
    · intro h
      cases hid : p.leaseId with
      | none => exact Or.inr (Or.inl rfl)
      | some id =>
        obtain ⟨q, w', hr, hgrown, hsize, hbytes⟩ := exists_runs_write_unrenewed hfd hid buf iOfst w
        obtain ⟨hkeep, hclean⟩ := h _ _ hr (by simp)
        dsimp only at hkeep hclean
        refine Or.inr (Or.inr ⟨by omega, fun fd' hfd' j hlo hhi hbit => ?_⟩)
        obtain rfl : fd = fd' := Option.some.inj (hfd.symm.trans hfd')
        rw [← hclean fd hfd j (by rw [hgrown.clean]; exact hbit), hbytes j,
          SparseFile.pwrite_get_of_mem _ _ hlo hhi]
    · intro h r w' hr hne
      obtain ⟨hgrown, hcases⟩ := wp_alone_iff.mp (wp_mainDbWrite_failed hfd) r w' hr hne
      rcases hcases with ⟨hsize, hbytes⟩ | ⟨hid, hsize, hbytes⟩
      · refine ⟨hsize, fun fd' hfd' j _ => ?_⟩
        obtain rfl : fd = fd' := Option.some.inj (hfd.symm.trans hfd')
        exact hbytes j
      -- the renewal failed: the write must have been one that changes nothing
      rcases h with h | h | ⟨hle, hsame⟩
      · cases h
      · exact absurd h hid
      refine ⟨by omega, fun fd' hfd' j hbit => ?_⟩
      obtain rfl : fd = fd' := Option.some.inj (hfd.symm.trans hfd')
      rw [hgrown.clean] at hbit
      rw [hbytes j, SparseFile.pwrite_get]
      split
      · next hin => exact (hsame fd hfd j hin.1 hin.2 hbit).symm
      · rfl

/-- A database of one page, with a cache file and the lease `id`. -/
def leasedFile (id : Option LeaseId) : ObjsFile :=
  { fileWith 512 512 (.ofBytes [0] 0) with cacheFd := some 0, leaseId := id }

/-- Without a lease, a write of a second page that fails leaves no untracked change. -/
theorem failed_write_tracked_unleased : ∃ r w', Runs wholeWrites
      (sqliteObjsWrite (leasedFile none) (SparseFile.ofFn 512 fun _ => 1) 512) World.new r w' ∧
    r.2 = .ioerrWrite ∧ NoUntrackedChange (leasedFile none) World.new r w' := by
  obtain ⟨r, w', hr, hfail⟩ : ∃ r w', Runs wholeWrites
      (sqliteObjsWrite (leasedFile none) (SparseFile.ofFn 512 fun _ => 1) 512) World.new r w' ∧
      r.2 = .ioerrWrite :=
    ⟨_, _, runs_of_exec [({} : Choice), {}, { sysFails := true }] (by simp) rfl, rfl⟩
  exact ⟨r, w', hr, hfail, (failed_write_tracked_iff rfl).mpr (Or.inr (Or.inl rfl)) r w' hr⟩

/-- Under a lease, a write of a second page whose renewal is refused fails with the second page
in the file. -/
theorem failed_write_grows : ∃ r w', Runs wholeWrites
      (sqliteObjsWrite (leasedFile (some 1)) (SparseFile.ofFn 512 fun _ => 1) 512) World.new r w' ∧
    ¬ NoUntrackedChange (leasedFile (some 1)) World.new r w' := by
  obtain ⟨q, w', hr, -, hsize, -⟩ := exists_runs_write_unrenewed
    (show (leasedFile (some 1)).cacheFd = some 0 from rfl) rfl (SparseFile.ofFn 512 fun _ => 1)
    512 World.new
  refine ⟨_, w', hr, fun h => ?_⟩
  have hkeep : q.nData = 512 := (h (by simp)).1
  rw [hkeep] at hsize
  exact absurd hsize (by decide)

end Write

end SqliteObjs
