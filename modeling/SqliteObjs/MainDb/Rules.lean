import SqliteObjs.Vfs.Local

/-!
# Rules for the parts of `xWrite` and `xSync`

The cache file is extended and written, the dirty ranges are read from it and sent
to the blob. Each rule is over any setting: what a piece of the flush achieves at the
service is a parameter of `wp_writeRanges`, so that a client that is alone and one
that shares the blob use the same rule.
-/

set_option autoImplicit false

namespace SqliteObjs

open Data CS CS.Program

section Rules

variable {W α : Type} {E : Setting W Ans} {view : W → World} {ok : Req → Choice → Prop}
  {A : W → Prop} {d : Disk} {w : W} {p : ObjsFile} {fd : Fd}

/-! ## Leases -/

/-- A renewal keeps the fact `A`. -/
def RenewKeeps (E : Setting W Ans) (p : ObjsFile) (A : W → Prop) : Prop :=
  ∀ id, p.leaseId = some id → ∀ w (x : AzReply) w', A w →
    E.serve (.azure (.leaseRenew p.blob id)) w x w' → E.guar w w' ∧ A w'

/-- No renewal is refused. -/
def RenewsWell (E : Setting W Ans) (p : ObjsFile) : Prop :=
  ∀ id w (x : AzReply) w', E.serve (.azure (.leaseRenew p.blob id)) w x w' → x.err = .ok

theorem Knows.wp_leaseRenew_bind (hk : Knows view A d w) (hE : Seen E view ok) (hA : Fact E A)
    (hren : RenewKeeps E p A) {f : ObjsFile × Rc → Prog α} {Q : α → W → Prop}
    (h : ∀ t rc w', Knows view A d w' → (RenewsWell E p → rc = .ok) →
      wp E (f ({ p with leaseAcquiredAt := t }, rc)) Q w') :
    wp E (leaseRenewIfNeeded p >>= f) Q w := by
  have hdone : ∀ {t : Nat} {rc : Rc} {w : W}, Knows view A d w → (RenewsWell E p → rc = .ok) →
      wp E (.ret ({ p with leaseAcquiredAt := t }, rc)) (fun r w => wp E (f r) Q w) w :=
    fun hk hrc => hk.wp_ret hE hA fun w' hk' => h _ _ w' hk' hrc
  rw [wp_bind]
  unfold leaseRenewIfNeeded
  split
  · exact hdone (t := p.leaseAcquiredAt) hk fun _ => rfl
  next id hid =>
  generalize (if 0 < p.leaseDuration then p.leaseDuration / 2 else leaseDurationDefault / 2) =
    renewAfter
  refine wp_quiet_bind hE.quiet rfl fun now _ => ?_
  split
  · exact hdone (t := p.leaseAcquiredAt) hk fun _ => rfl
  unfold azLeaseRenew
  apply SqliteObjs.wp_execute_bind (hA.knows_stable hE) hk
  intro w x w' hk hs
  obtain ⟨hg, hA'⟩ := hren id hid w x w' hk.1 hs
  have hk' : Knows view A d w' := ⟨hA', (hE.azure_disk hs).trans hk.2⟩
  refine ⟨hg, fun _ => hk', ?_⟩
  split
  · next hne => exact hdone (t := p.leaseAcquiredAt) hk' fun hw => absurd (hw id w x w' hs) hne
  · exact hdone hk' fun _ => rfl

/-! ## Growing and writing the cache file -/

theorem Knows.wp_extendCache_bind (hk : Knows view A d w) (hE : Seen E view ok) (hA : Fact E A)
    (hdisk : DiskWorks ok) (hal : Allocates E) {prev fin : Nat} (hfd : p.cacheFd = some fd)
    (hsize : (d.inode fd).size = prev) (hn : p.nData = max prev fin)
    {f : ObjsFile × Rc → Prog α} {Q : α → W → Prop}
    (h : ∀ p' w', Grown p p' → (prev < fin → 0 < p.pageSize →
        pagesOf p.nData p.pageSize ≤ maxPages →
        pagesOf p.nData p.pageSize ≤ 8 * p'.dirty.nAlloc ∧
        (p.prefetchMode = .none → pagesOf p.nData p.pageSize ≤ 8 * p'.valid.nAlloc)) →
      Knows view A (d.setInode fd ((d.inode fd).truncate p.nData)) w' → wp E (f (p', .ok)) Q w') :
    wp E (extendCache p prev fin >>= f) Q w := by
  rw [wp_bind]
  unfold extendCache
  by_cases hlt : prev < fin
  · rw [if_pos hlt]
    unfold cacheEnsureSize
    rw [hfd]
    refine hk.wp_sys_bind hE hA fun c w₁ hc hk₁ => ?_
    have hfails : c.sysFails = false := hdisk (.fileSize fd) c (by simp) hc
    simp only [Disk.serve, hfails, Bool.false_eq_true, if_false, Bool.not_true] at hk₁ ⊢
    rw [if_neg (by omega)]
    refine hk₁.wp_sys_bind hE hA fun c' w₂ hc' hk₂ => ?_
    have hfails' : c'.sysFails = false := hdisk (.ftruncate fd fin) c' (by simp) hc'
    simp only [Disk.serve, hfails', Bool.false_eq_true, if_false, Bool.not_true] at hk₂ ⊢
    have hnew : max prev fin = fin := by omega
    rw [hn, hnew] at h
    have hgrow := wp_bitmapsEnsureCapacity_bind (p := p) (f := fun r => .ret r) (w := w₂) hE.quiet
      (Q := fun r w => wp E (f r) Q w) ?_
    · rw [← bind_pure (bitmapsEnsureCapacity p)]
      exact hgrow
    intro p' rc hgrown hrc
    obtain ⟨rfl, hroom⟩ := hrc hal
    refine hk₂.wp_ret hE hA fun w₃ hk₃ => h p' w₃ hgrown ?_ hk₃
    intro _ hps hsmall
    rw [hn, hnew] at hroom
    exact hroom hps hsmall
  · rw [if_neg hlt]
    have hsame : d.setInode fd ((d.inode fd).truncate p.nData) = d := by
      rw [hn, Nat.max_eq_left (by omega), ← hsize, SparseFile.truncate_self, Disk.setInode_self]
    rw [hsame] at h
    exact hk.wp_ret hE hA fun w' hk' => h p w' (.refl p) (fun h' => absurd h' hlt) hk'

/-- What a write to a database leaves of its record. -/
def Written (p p' : ObjsFile) : Prop :=
  p' = { p with
    nData := p'.nData, dirty := p'.dirty, valid := p'.valid, leaseAcquiredAt := p'.leaseAcquiredAt }

/-- A write on a machine that works: the cache file grows and gets the bytes, and the pages are
marked unless a renewal fails. -/
theorem Knows.wp_mainDbWrite_of (hk : Knows view A d w) (hE : Seen E view ok) (hA : Fact E A)
    (hdisk : DiskWorks ok) (hal : Allocates E) (hren : RenewKeeps E p A) (hfd : p.cacheFd = some fd)
    (hpos : 0 < p.pageSize) (hsize : (d.inode fd).size = p.nData) {buf : Bytes} {iOfst : Nat}
    {Q : ObjsFile × Rc → W → Prop}
    (h : ∀ q t w', Grown { p with nData := max p.nData (iOfst + buf.size) } q →
      (p.nData < iOfst + buf.size → pagesOf (iOfst + buf.size) p.pageSize ≤ maxPages →
        pagesOf q.nData p.pageSize ≤ 8 * q.dirty.nAlloc ∧
        (p.prefetchMode = .none → pagesOf q.nData p.pageSize ≤ 8 * q.valid.nAlloc)) →
      Knows view A (d.setInode fd
        (((d.inode fd).truncate (max p.nData (iOfst + buf.size))).pwrite iOfst buf)) w' →
      (∀ rc, ¬ RenewsWell E p → rc ≠ .ok → Q ({ q with leaseAcquiredAt := t }, rc) w') ∧
      Q (markWritten { q with leaseAcquiredAt := t } (iOfst / q.pageSize * q.pageSize)
        ((iOfst + buf.size - iOfst / q.pageSize * q.pageSize + q.pageSize - 1) / q.pageSize), .ok)
        w') :
    wp E (mainDbWrite p buf iOfst) Q w := by
  unfold mainDbWrite
  split
  · next hnone => rw [hfd] at hnone; cases hnone
  next fd' hfd' =>
  obtain rfl : fd = fd' := Option.some.inj (hfd.symm.trans hfd')
  refine hk.wp_extendCache_bind (p := { p with nData := max p.nData (iOfst + buf.size) }) hE hA
    hdisk
    hal hfd hsize rfl ?_
  intro q w₁ hgrown hroom hk₁
  dsimp only
  rw [if_neg fun hne => hne rfl]
  refine hk₁.wp_sys_bind hE hA fun c w₂ hc hk₂ => ?_
  have hfails : c.sysFails = false := hdisk (.pwrite fd iOfst buf) c (by simp) hc
  simp only [Disk.serve, hfails, Bool.false_eq_true, if_false, Bool.not_true,
    Disk.setInode_inode_self, Disk.setInode_setInode] at hk₂ ⊢
  have hlease : q.leaseId = p.leaseId := by rw [hgrown.eq]
  have hblob : q.blob = p.blob := by rw [hgrown.eq]; rfl
  refine hk₂.wp_leaseRenew_bind (p := q) hE hA ?_ ?_
  · intro id hid
    rw [hblob]
    exact hren id (hlease ▸ hid)
  intro t rc w₃ hk₃ hrc
  have hqps : q.pageSize = p.pageSize := by rw [hgrown.eq]
  have hqn : q.nData = max p.nData (iOfst + buf.size) := by rw [hgrown.eq]
  have hroom' : p.nData < iOfst + buf.size → pagesOf (iOfst + buf.size) p.pageSize ≤ maxPages →
      pagesOf q.nData p.pageSize ≤ 8 * q.dirty.nAlloc ∧
      (p.prefetchMode = .none → pagesOf q.nData p.pageSize ≤ 8 * q.valid.nAlloc) := by
    intro hlt hsmall
    rw [hqn]
    refine hroom hlt hpos ?_
    rw [Nat.max_eq_right (Nat.le_of_lt hlt)]
    exact hsmall
  dsimp only
  split
  · next hne =>
    refine hk₃.wp_ret hE hA fun w' hk' => (h q t w' hgrown hroom' hk').1 rc ?_ hne
    exact fun hwell => hne (hrc (by intro id; rw [hblob]; exact hwell id))
  · rw [if_pos (by rw [hqps]; exact hpos)]
    exact hk₃.wp_ret hE hA fun w' hk' => (h q t w' hgrown hroom' hk').2

/-- A write that meets no failure keeps the mirror. -/
theorem Knows.wp_mainDbWrite (hk : Knows view A d w) (hE : Seen E view ok) (hA : Fact E A)
    (hdisk : DiskWorks ok) (hal : Allocates E) (hren : RenewKeeps E p A) (hwell : RenewsWell E p)
    (hfd : p.cacheFd = some fd) {blob buf : Bytes} {iOfst : Nat}
    (hm : Mirror p (d.inode fd) blob) (hb : 0 < buf.size) (ho : 512 ∣ iOfst) (hl : 512 ∣ buf.size)
    (hend : pagesOf (iOfst + buf.size) p.pageSize ≤ maxPages) :
    wp E (mainDbWrite p buf iOfst) (fun r w' => r.2 = .ok ∧ Written p r.1 ∧
      r.1.nData = max p.nData (iOfst + buf.size) ∧
      Mirror r.1 (((d.inode fd).truncate (max p.nData (iOfst + buf.size))).pwrite iOfst buf) blob ∧
      Knows view A (d.setInode fd
        (((d.inode fd).truncate (max p.nData (iOfst + buf.size))).pwrite iOfst buf)) w') w := by
  refine hk.wp_mainDbWrite_of hE hA hdisk hal hren hfd hm.page.pos hm.cacheSize ?_
  intro q t w' hgrown hroom hk'
  refine ⟨fun rc hno => absurd hwell hno, ?_⟩
  have hqps : q.pageSize = p.pageSize := by rw [hgrown.eq]
  have hqn : q.nData = max p.nData (iOfst + buf.size) := by rw [hgrown.eq]
  have hqls : q.lastSyncedSize = p.lastSyncedSize := by rw [hgrown.eq]
  have hqroom : pagesOf q.nData q.pageSize ≤ 8 * q.dirty.nAlloc := by
    rw [hqps]
    rcases Nat.lt_or_ge p.nData (iOfst + buf.size) with hlt | hge
    · exact (hroom hlt hend).1
    · rw [hqn, Nat.max_eq_left hge]
      exact Nat.le_trans hm.room (Nat.mul_le_mul_left 8 hgrown.dirty.nAlloc)
  have hwrite := hm.write (q := { q with leaseAcquiredAt := t }) hb ho hl hend hqps hqn hqls
    hgrown.dirty.bits (hgrown.dirty.counted hm.counted) hqroom
  -- only the marks differ from the grown file
  generalize hmark : markWritten { q with leaseAcquiredAt := t } _ _ = q' at hwrite ⊢
  have honly : OnlyMarks { q with leaseAcquiredAt := t } q' := by
    rw [← hmark]
    exact onlyMarks_markWritten _ _ _
  refine ⟨rfl, ?_, ?_, ?_, hk'⟩
  · unfold Written
    rw [honly.eq, hgrown.eq]
  · rw [honly.nData]
    exact hqn
  · rw [hqn] at hwrite
    exact hwrite

/-! ## The ranges and their data -/

/-- The ranges of `xSync`, unless there are too many for the stack and then for the heap. -/
theorem wp_syncRanges_bind_of (hq : Quiet E) {f : Except Rc (List (Nat × Nat)) → Prog α}
    {Q : α → W → Prop}
    (hfail : ∀ rc, coalesceDirtyRanges p stackRanges = none → rc ≠ .ok → wp E (f (.error rc)) Q w)
    (h : ∀ maxRanges ranges, coalesceDirtyRanges p maxRanges = some ranges →
      wp E (f (.ok ranges)) Q w) :
    wp E (syncRanges p >>= f) Q w := by
  rw [wp_bind]
  unfold syncRanges
  split
  · next ranges hr => exact fun w₁ hw => wp_stable hw (h _ ranges hr)
  next hnone =>
  refine wp_quiet_bind hq rfl fun m _ => ?_
  split
  · exact fun w₁ hw => wp_stable hw (hfail _ hnone (by decide))
  split
  · exact fun w₁ hw => wp_stable hw (hfail _ hnone (by decide))
  · next ranges hr => exact fun w₁ hw => wp_stable hw (h _ ranges hr)

theorem wp_syncRanges_bind (hq : Quiet E) {cache blob : Bytes} (hm : Mirror p cache blob)
    {f : Except Rc (List (Nat × Nat)) → Prog α} {Q : α → W → Prop}
    (hfail : ∀ rc, rc ≠ .ok → wp E (f (.error rc)) Q w)
    (h : ∀ ranges, CoversDirty p ranges → wp E (f (.ok ranges)) Q w) :
    wp E (syncRanges p >>= f) Q w :=
  wp_syncRanges_bind_of hq (fun rc _ hrc => hfail rc hrc)
    fun _ ranges hr => h ranges (hm.coversDirty hr)

/-- Ranges with the bytes a cache file has there. -/
structure Loaded (cache : Bytes) (ranges : List (Nat × Nat)) (loaded : List PageRange) : Prop where
  spans : loaded.map (fun r => (r.offset, r.data.size)) = ranges
  bytes : ∀ r ∈ loaded, ∀ i, i < r.data.size → r.data.get i = cache.get (r.offset + i)

theorem Knows.wp_readRanges (hE : Seen E view ok) (hA : Fact E A) (hdisk : DiskWorks ok) :
    ∀ (ranges : List (Nat × Nat)) {w : W}, Knows view A d w →
      wp E (readRanges (some fd) ranges) (fun r w' => Knows view A d w' ∧
        ∃ loaded, r = some loaded ∧ Loaded (d.inode fd) ranges loaded) w
  | [], w, hk => by
    refine hk.wp_ret hE hA fun w' hk' => ⟨hk', [], rfl, ?_⟩
    exact ⟨rfl, by simp⟩
  | (offset, len) :: ranges, w, hk => by
    unfold readRanges
    refine hk.wp_sys_bind hE hA fun c w₁ hc hk₁ => ?_
    have hfails : c.sysFails = false := hdisk (.pread fd offset len) c (by simp) hc
    simp only [Disk.serve, hfails, Bool.false_eq_true, if_false, Bool.not_true] at hk₁ ⊢
    rw [wp_bind]
    apply wp_mono _ (Knows.wp_readRanges hE hA hdisk ranges hk₁)
    rintro _ w₂ ⟨hk₂, rest, rfl, hs, hb⟩
    refine hk₂.wp_ret hE hA fun w' hk' => ⟨hk', _, rfl, by simp [hs], fun r hr i hi => ?_⟩
    rcases List.mem_cons.mp hr with rfl | hr
    · dsimp only at hi ⊢
      rw [SparseFile.truncate_size] at hi
      rw [SparseFile.truncate_get, if_pos hi, SparseFile.slice_get_of_lt _ hi]
    · exact hb r hr i hi

/-- The disk after the cache file was padded to the end of the ranges. -/
def PaddedDisk (d : Disk) (fd : Fd) (ranges : List (Nat × Nat)) (d' : Disk) : Prop :=
  ∃ n, (d.inode fd).size ≤ n ∧ d' = d.setInode fd ((d.inode fd).truncate n) ∧
    ((∀ r ∈ ranges, r.1 + r.2 ≤ (d.inode fd).size) → n = (d.inode fd).size)

theorem PaddedDisk.refl (d : Disk) (fd : Fd) (ranges : List (Nat × Nat)) :
    PaddedDisk d fd ranges d :=
  ⟨_, Nat.le_refl _, by rw [SparseFile.truncate_self, Disk.setInode_self], fun _ => rfl⟩

theorem PaddedDisk.get {d' : Disk} {ranges : List (Nat × Nat)} (h : PaddedDisk d fd ranges d')
    (j : Nat) :
    (d'.inode fd).get j = (d.inode fd).get j := by
  obtain ⟨n, hn, rfl, -⟩ := h
  rw [Disk.setInode_inode_self]
  exact SparseFile.truncate_get_of_le _ hn j

/-- Nothing is padded when the ranges lie inside the cache file. -/
theorem PaddedDisk.eq {d' : Disk} {ranges : List (Nat × Nat)} (h : PaddedDisk d fd ranges d')
    (hin : ∀ r ∈ ranges, r.1 + r.2 ≤ (d.inode fd).size) : d' = d := by
  obtain ⟨n, -, rfl, hsame⟩ := h
  rw [hsame hin, SparseFile.truncate_self, Disk.setInode_self]

theorem Knows.wp_padCache_bind (hk : Knows view A d w) (hE : Seen E view ok) (hA : Fact E A)
    (hdisk : DiskWorks ok) {ranges : List (Nat × Nat)} {f : Unit → Prog α} {Q : α → W → Prop}
    (h : ∀ d' w', PaddedDisk d fd ranges d' → Knows view A d' w' → wp E (f ()) Q w') :
    wp E (padCache (some fd) ranges >>= f) Q w := by
  have hsame : ∀ {w : W}, Knows view A d w → wp E (.ret ()) (fun u w => wp E (f u) Q w) w :=
    fun hk => hk.wp_ret hE hA fun w' hk' => h d w' (.refl d fd ranges) hk'
  rw [wp_bind]
  unfold padCache
  split
  · next fd' offset len hfd hlast =>
    obtain rfl := Option.some.inj hfd
    refine hk.wp_sys_bind hE hA fun c w₁ hc hk₁ => ?_
    have hfails : c.sysFails = false := hdisk (.fileSize fd) c (by simp) hc
    simp only [Disk.serve, hfails, Bool.false_eq_true, if_false, Bool.true_and,
      decide_eq_true_eq] at hk₁ ⊢
    split
    · next hlt =>
      refine hk₁.wp_sys_bind hE hA fun c' w₂ hc' hk₂ => ?_
      have hfails' : c'.sysFails = false := hdisk (.ftruncate fd (offset + len)) c' (by simp) hc'
      simp only [Disk.serve, hfails', Bool.false_eq_true, if_false] at hk₂ ⊢
      refine hk₂.wp_ret hE hA fun w' hk' => h _ w' ⟨_, Nat.le_of_lt hlt, rfl, fun hin => ?_⟩ hk'
      have hle := hin _ (List.mem_of_getLast? hlast)
      dsimp only at hle
      omega
    · exact hsame hk₁
  · exact hsame hk

/-- The ranges with the bytes of the cache file, which is padded if it is too short. -/
theorem Knows.wp_loadRanges_padded_bind (hk : Knows view A d w) (hE : Seen E view ok)
    (hA : Fact E A)
    (hdisk : DiskWorks ok) (hfd : p.cacheFd = some fd) {ranges : List (Nat × Nat)}
    {f : Except Rc (List PageRange) → Prog α} {Q : α → W → Prop}
    (hfail : ∀ rc d' w', ¬ Allocates E → rc ≠ .ok → PaddedDisk d fd ranges d' → Knows view A d' w' →
      wp E (f (.error rc)) Q w')
    (h : ∀ loaded d' w', Loaded (d.inode fd) ranges loaded → PaddedDisk d fd ranges d' →
      Knows view A d' w' → wp E (f (.ok loaded)) Q w') :
    wp E (loadRanges p ranges >>= f) Q w := by
  rw [wp_bind]
  unfold loadRanges
  dsimp only
  split
  · -- all the ranges are empty
    next hsum =>
    have hzero : ∀ r ∈ ranges, r.2 = 0 := by
      intro r hr
      exact List.sum_eq_zero_iff_forall_eq_nat.mp hsum r.2 (List.mem_map_of_mem hr)
    refine hk.wp_ret hE hA fun w' hk' => h _ d w' ⟨?_, ?_⟩ (.refl d fd ranges) hk'
    · rw [List.map_map]
      conv_rhs => rw [← List.map_id ranges]
      apply List.map_congr_left
      intro r hr
      exact Prod.ext rfl (hzero r hr).symm
    · intro r hr i hi
      obtain ⟨r', -, rfl⟩ := List.mem_map.mp hr
      simp at hi
  rw [hfd]
  refine hk.wp_padCache_bind hE hA hdisk fun d₁ w₁ hpad hk₁ => ?_
  refine wp_quiet_bind hE.quiet rfl fun m hm => ?_
  split
  · next hno =>
    refine hk₁.wp_ret hE hA fun w' hk' => hfail _ d₁ w' (fun hal => ?_) (by decide) hpad hk'
    rw [hal.ok hm] at hno
    cases hno
  rw [wp_bind]
  apply wp_mono _ (Knows.wp_readRanges hE hA hdisk ranges hk₁)
  rintro _ w₂ ⟨hk₂, loaded, rfl, hspans, hbytes⟩
  refine hk₂.wp_ret hE hA fun w' hk' => h loaded d₁ w' ⟨hspans, fun r hr i hi => ?_⟩ hpad hk'
  rw [hbytes r hr i hi, hpad.get]

theorem Knows.wp_loadRanges_bind (hk : Knows view A d w) (hE : Seen E view ok) (hA : Fact E A)
    (hdisk : DiskWorks ok) (hfd : p.cacheFd = some fd) {ranges : List (Nat × Nat)}
    (hin : ∀ r ∈ ranges, r.1 + r.2 ≤ (d.inode fd).size)
    {f : Except Rc (List PageRange) → Prog α} {Q : α → W → Prop}
    (hfail : ∀ rc w', rc ≠ .ok → Knows view A d w' → wp E (f (.error rc)) Q w')
    (h : ∀ loaded w', Loaded (d.inode fd) ranges loaded → Knows view A d w' →
      wp E (f (.ok loaded)) Q w') :
    wp E (loadRanges p ranges >>= f) Q w :=
  hk.wp_loadRanges_padded_bind hE hA hdisk hfd
    (fun rc _ w' _ hrc hpad hk' => hfail rc w' hrc (hpad.eq hin ▸ hk'))
    fun loaded _ w' hl hpad hk' => h loaded w' hl (hpad.eq hin ▸ hk')

end Rules
end SqliteObjs
