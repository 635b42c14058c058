import SqliteObjs.MainDb.Growth
import SqliteObjs.MainDb.IncrementalDiff
import SqliteObjs.MainDb.LazyCache

/-!
# A database in lazy mode

One client reads, writes, truncates, syncs and locks a database that was opened with
`prefetch=none`. The machine works; the service may fail in any way, with or without effect.

`Keeping S D` says that the cache file is a `LazyCache` of the blob, and that at the bytes in `S`
both have what `D` has. A call that writes nothing moves bytes between the two, in either
direction, and so it keeps `Keeping S D` whatever `S` and `D` are. With an empty `S` it is the
invariant of every call.
-/

set_option autoImplicit false

namespace SqliteObjs

open Data CS CS.Program

/-- No system call fails. -/
def MachineWorks (c : Choice) : Prop := c.sysFails = false

abbrev working : Setting World Ans := .alone (World.served MachineWorks)

/-- The cache file is a lazy one of the blob, and both have the bytes of `D` in `S`. -/
structure Keeping (S : Nat → Prop) (D : Bytes) (p : ObjsFile) (cache blob : Bytes) : Prop
    extends LazyCache p cache blob where
  inside : ∀ j, S j → j < blob.size
  kept : ∀ j, S j → cache.get j = D.get j ∧ blob.get j = D.get j

section Working

variable {α : Type} {a : Azure} {b : Blob} {i : BlobId} {d : Disk} {w : World}
  {Q : α → World → Prop}

theorem allocates_working : Allocates working := allocates_alone fun _ hc => hc

theorem diskWorks_working : DiskWorks fun _ => MachineWorks := fun _ _ _ hc => hc

theorem fact_working (P : Azure → Prop) : Fact working fun w => P w.azure :=
  fact_azure (fun _ _ _ _ h => show ∃ c, MachineWorks c ∧ _ from h) P

theorem wp_sys_working {r : SysReq} {f : SysReply → Prog α}
    (h : ∀ c, c.sysFails = false → wp working (f (d.serve c r).1) Q ⟨a, (d.serve c r).2⟩) :
    wp working (sys r >>= f) Q ⟨a, d⟩ := by
  apply wp_alone_call.mpr
  intro x w' hs
  obtain ⟨c, hc, rfl, rfl⟩ := served_sys hs
  exact h c hc

/-- A range read changes nothing, and one that succeeds has the blob's bytes. -/
theorem wp_azPageBlobRead_working (hb : a.blobs i = some b) {off len : Nat} {f : AzReply → Prog α}
    (h : ∀ x : AzReply, (x.err = .ok → x.body = b.content.slice off len) →
      wp working (f x) Q ⟨a, d⟩) :
    wp working (azPageBlobRead i off len >>= f) Q ⟨a, d⟩ := by
  refine (reading_served MachineWorks hb).wp_azPageBlobRead_bind (P := True) (seen_served _)
    (d := d) ⟨⟨rfl, fun _ => trivial⟩, rfl⟩ fun x w' hk => ?_
  obtain ⟨⟨ha, hx⟩, hd⟩ := hk
  obtain ⟨a', d'⟩ := w'
  obtain rfl : a' = a := ha
  obtain rfl : d' = d := hd
  exact h x (hx trivial).2

end Working

/-! ## Fetching -/

section Fetch

variable {S : Nat → Prop} {D : Bytes} {a : Azure} {b : Blob} {d : Disk} {fd : Fd} {p : ObjsFile}

/-- Pages of the blob were stored in the cache file. No result code of it says that a read was
short. -/
structure Refilled (S : Nat → Prop) (D : Bytes) (a : Azure) (b : Blob) (d : Disk) (fd : Fd)
    (p : ObjsFile) (r : ObjsFile × Rc) (w' : World) : Prop where
  only : OnlyValid p r.1
  code : r.2 ≠ .ioerrShortRead
  keeping : ∃ f, w' = ⟨a, d.setInode fd f⟩ ∧ Keeping S D r.1 f b.content

theorem Refilled.refl (h : Keeping S D p (d.inode fd) b.content) {rc : Rc}
    (hrc : rc ≠ .ioerrShortRead) : Refilled S D a b d fd p (p, rc) ⟨a, d⟩ :=
  ⟨rfl, hrc, _, by rw [Disk.setInode_self], h⟩

theorem Refilled.trans {p' : ObjsFile} {r : ObjsFile × Rc} {f : Bytes} {w : World}
    (h : OnlyValid p p') (h' : Refilled S D a b (d.setInode fd f) fd p' r w) :
    Refilled S D a b d fd p r w := by
  obtain ⟨g, hw, hg⟩ := h'.keeping
  exact ⟨h.trans h'.only, h'.code, g, by rw [hw, Disk.setInode_setInode], hg⟩

/-- What was read from page `k` on goes to the cache file. The range ends with a page or with the
file; the blob may end before. -/
theorem Keeping.wp_storeFetched (h : Keeping S D p (d.inode fd) b.content) {k stop : Nat}
    (hle : stop ≤ p.nData) (hstop : p.pageSize ∣ stop ∨ stop = p.nData) {body : Bytes}
    (hbody : body = b.content.slice (k * p.pageSize) (stop - k * p.pageSize))
    (hne : body.size ≠ 0) :
    wp working (storeFetched p fd (k * p.pageSize) (body.slice 0 (stop - k * p.pageSize)))
      (Refilled S D a b d fd p) ⟨a, d⟩ := by
  rw [hbody, SparseFile.slice_size] at hne
  generalize hs : k * p.pageSize = s at *
  -- the range as far as the blob goes
  obtain ⟨e, he⟩ : ∃ e, e = min stop b.content.size := ⟨_, rfl⟩
  have hslice : body.slice 0 (stop - s) = b.content.slice s (e - s) := by
    rw [hbody, SparseFile.slice_slice_zero]
    refine SparseFile.ext ?_ fun j => ?_
    · rw [SparseFile.slice_size, SparseFile.slice_size]
      omega
    · rw [SparseFile.slice_get, SparseFile.slice_get]
      have : j < min (stop - s) (b.content.size - s) ↔
          j < min (e - s) (b.content.size - s) := by omega
      simp only [this]
  have hsize : s + (b.content.slice s (e - s)).size = e := by
    rw [SparseFile.slice_size]
    omega
  have hend : p.pageSize ∣ e ∨ e = p.nData ∨ e = b.content.size := by
    rcases Nat.le_total stop b.content.size with hlt | hge
    · rw [he, Nat.min_eq_left hlt]
      exact hstop.imp_right Or.inl
    · rw [he, Nat.min_eq_right hge]
      exact Or.inr (Or.inr rfl)
  unfold storeFetched
  rw [hslice]
  refine wp_sys_working fun c hc => ?_
  simp only [Disk.serve, hc, Bool.false_eq_true, if_false, Bool.not_true, hsize]
  refine wp_alone_ret.mpr ⟨onlyValid_validMarkRange _ _ _, (by simp), _, rfl, ?_⟩
  subst hs
  refine ⟨h.toLazyCache.store (by omega) (by omega) hend, h.inside, fun j hj => ?_⟩
  rw [Image.pwrite_slice_get _ (by omega)]
  refine ⟨?_, (h.kept j hj).2⟩
  split
  · exact (h.kept j hj).2
  · exact (h.kept j hj).1

theorem Keeping.wp_fetchPagesFromAzure (h : Keeping S D p (d.inode fd) b.content)
    (hb : a.blobs p.blob = some b) (hfd : p.cacheFd = some fd) (pg : Int) :
    wp working (fetchPagesFromAzure p pg) (Refilled S D a b d fd p) ⟨a, d⟩ := by
  have hdone : ∀ {rc : Rc}, rc ≠ .ioerrShortRead →
      wp working (.ret (p, rc)) (Refilled S D a b d fd p) ⟨a, d⟩ :=
    fun hrc => wp_alone_ret.mpr (.refl h hrc)
  unfold fetchPagesFromAzure
  rw [hfd]
  split
  · exact hdone (by decide)
  dsimp only
  split
  · exact hdone (by decide)
  split
  · exact hdone (by decide)
  split
  · exact hdone (by decide)
  refine wp_azPageBlobRead_working hb fun x hx => ?_
  split
  · exact hdone (by decide)
  next hok =>
  split
  · exact hdone (by decide)
  next hne =>
  refine h.wp_storeFetched (Nat.min_le_right _ _) ?_ (hx (by simpa using hok)) hne
  rcases Nat.le_total (pg.toNat * p.pageSize + readaheadPages * p.pageSize) p.nData with hle | hle
  · rw [Nat.min_eq_left hle, ← Nat.add_mul]
    exact Or.inl (Dvd.intro_left _ rfl)
  · exact Or.inr (Nat.min_eq_right hle)

theorem Keeping.wp_fetchMissing : ∀ (n : Nat) (pg : Int) {p : ObjsFile} {d : Disk},
    Keeping S D p (d.inode fd) b.content → a.blobs p.blob = some b → p.cacheFd = some fd →
    wp working (fetchMissing n pg p) (Refilled S D a b d fd p) ⟨a, d⟩
  | 0, _, _, _, h, _, _ => wp_alone_ret.mpr (.refl h (by decide))
  | n + 1, pg, p, d, h, hb, hfd => by
    unfold fetchMissing
    split
    · exact Keeping.wp_fetchMissing n (pg + 1) h hb hfd
    rw [wp_bind]
    refine wp_mono ?_ (h.wp_fetchPagesFromAzure hb hfd pg)
    rintro ⟨q, rc⟩ w₁ hr
    dsimp only at hr ⊢
    obtain ⟨f, rfl, hf⟩ := hr.keeping
    split
    · exact wp_alone_ret.mpr hr
    have honly : OnlyValid p q := hr.only
    unfold OnlyValid at honly
    refine wp_mono (fun r w' hr' => .trans hr.only hr') (Keeping.wp_fetchMissing n (pg + 1)
      (d := d.setInode fd f) (by rw [Disk.setInode_inode_self]; exact hf)
      (by rw [hr.only.blob]; exact hb) (by rw [honly]; exact hfd))

/-- A read keeps both files, and returns the bytes of the cache file as it leaves it. -/
theorem Keeping.wp_mainDbRead (h : Keeping S D p (d.inode fd) b.content)
    (hb : a.blobs p.blob = some b) (hfd : p.cacheFd = some fd) (iAmt iOfst : Nat) :
    wp working (mainDbRead p iAmt iOfst) (fun r w' => OnlyRead p r.1 ∧ ∃ f,
      w' = ⟨a, d.setInode fd f⟩ ∧ Keeping S D r.1 f b.content ∧
      (r.2.1 = .ok ∨ r.2.1 = .ioerrShortRead → ∀ j, iOfst ≤ j → j < iOfst + iAmt → j < p.nData →
        r.2.2.get (j - iOfst) = f.get j)) ⟨a, d⟩ := by
  unfold mainDbRead
  obtain ⟨q, hq, hreads⟩ : ∃ q : ObjsFile,
      q = { p with readsSinceSharedLock := q.readsSinceSharedLock } ∧
      (if LockLevel.shared.rank ≤ p.eLock.rank then
        { p with readsSinceSharedLock := cInt (p.readsSinceSharedLock + 1) } else p) = q := by
    split
    · exact ⟨_, rfl, rfl⟩
    · exact ⟨p, rfl, rfl⟩
  rw [hreads]
  have hn : q.nData = p.nData := by rw [hq]
  have hqfd : q.cacheFd = some fd := by rw [hq]; exact hfd
  have hkeep : Keeping S D q (d.inode fd) b.content := by
    refine ⟨h.toLazyCache.congr ?_ hn ?_ ?_ ?_, h.inside, h.kept⟩
    · rw [hq]
    · rw [hq]
    · rw [hq]
    · rw [hq]
      exact h.synced
  have honly : ∀ q', OnlyValid q q' → OnlyRead p q' := by
    intro q' hv
    unfold OnlyValid at hv
    unfold OnlyRead
    rw [hv, hq]
  -- a read that does not get to the cache file
  have hfail : ∀ {q' : ObjsFile} {w' : World} {rc rc' : Rc}, Refilled S D a b d fd q (q', rc') w' →
      (rc = .ok ∨ rc = .ioerrShortRead → p.nData ≤ iOfst ∨ iAmt = 0) →
      wp working (.ret (q', rc, zeroFill iAmt)) (fun r w' => OnlyRead p r.1 ∧ ∃ f,
        w' = ⟨a, d.setInode fd f⟩ ∧ Keeping S D r.1 f b.content ∧
        (r.2.1 = .ok ∨ r.2.1 = .ioerrShortRead → ∀ j, iOfst ≤ j → j < iOfst + iAmt → j < p.nData →
          r.2.2.get (j - iOfst) = f.get j)) w' := by
    intro q' w' rc rc' hr hrc
    obtain ⟨f, rfl, hf⟩ := hr.keeping
    refine wp_alone_ret.mpr ⟨honly _ hr.only, f, rfl, hf, fun hgood j h₁ h₂ h₃ => ?_⟩
    rcases hrc hgood with h' | h' <;> omega
  dsimp only
  rw [hqfd]
  dsimp only
  split
  · next hpast =>
    exact hfail (.refl hkeep (by decide : Rc.ok ≠ .ioerrShortRead)) fun _ => Or.inl (by omega)
  have hfetch : wp working (fetchForRead q iAmt iOfst)
      (Refilled S D a b d fd q) ⟨a, d⟩ := by
    unfold fetchForRead
    extract_lets readEnd startPage endPage
    generalize startPage = pg, (endPage - startPage).toNat = n
    split
    · exact Keeping.wp_fetchMissing n pg hkeep (by rw [hq]; exact hb) hqfd
    · exact wp_alone_ret.mpr (.refl hkeep (by decide))
  rw [wp_bind]
  refine wp_mono ?_ hfetch
  rintro ⟨q₁, rc⟩ w₁ hr
  dsimp only at hr ⊢
  split
  · next hne => exact hfail hr fun hrc => absurd hrc (by simp [hne, hr.code])
  obtain ⟨f, rfl, hf⟩ := hr.keeping
  have hn₁ : q₁.nData = p.nData := hr.only.nData.trans hn
  split
  · next h0 => exact hfail hr fun _ => by rw [hn₁] at h0; omega
  refine wp_sys_working fun c hc => ?_
  simp only [Disk.serve, hc, Bool.false_eq_true, if_false, Bool.not_true, Disk.setInode_inode_self]
  -- whatever the result code, the buffer has the bytes of the cache file
  have hbytes : ∀ j, iOfst ≤ j → j < iOfst + iAmt → j < p.nData →
      ((f.slice iOfst (min (q₁.nData - iOfst) iAmt)).truncate iAmt).get (j - iOfst) = f.get j := by
    intro j h₁ h₂ h₃
    rw [SparseFile.truncate_get, if_pos (by omega), SparseFile.slice_get_of_lt _
      (by rw [hn₁]; omega)]
    congr 1
    omega
  split
  · exact wp_alone_ret.mpr ⟨honly _ hr.only, f, rfl, hf, fun _ => hbytes⟩
  split
  · exact wp_alone_ret.mpr ⟨honly _ hr.only, f, rfl, hf, fun _ => hbytes⟩
  · exact wp_alone_ret.mpr ⟨honly _ hr.only, f, rfl, hf, fun _ => hbytes⟩

theorem Keeping.wp_prefetchFrom {nPages : Nat} : ∀ (n i : Nat) {p : ObjsFile} {d : Disk},
    Keeping S D p (d.inode fd) b.content → a.blobs p.blob = some b →
    wp working (prefetchFrom p fd nPages n i) (Refilled S D a b d fd p) ⟨a, d⟩
  | 0, _, _, _, h, _ => wp_alone_ret.mpr (.refl h (by decide))
  | n + 1, i, p, d, h, hb => by
    have hdone : ∀ {rc : Rc}, rc ≠ .ioerrShortRead →
        wp working (.ret (p, rc)) (Refilled S D a b d fd p) ⟨a, d⟩ :=
      fun hrc => wp_alone_ret.mpr (.refl h hrc)
    unfold prefetchFrom
    split
    · exact hdone (by decide)
    split
    · exact Keeping.wp_prefetchFrom n (i + 1) h hb
    extract_lets rangeEnd startOffset fetchLen
    split
    · exact Keeping.wp_prefetchFrom n rangeEnd h hb
    refine wp_azPageBlobRead_working hb fun x hx => ?_
    split
    · exact hdone (by decide)
    next hok =>
    split
    · exact hdone (by decide)
    next hne =>
    rw [wp_bind]
    have hstop : p.pageSize ∣ min (rangeEnd * p.pageSize) p.nData ∨
        min (rangeEnd * p.pageSize) p.nData = p.nData := by
      rcases Nat.le_total (rangeEnd * p.pageSize) p.nData with hle | hle
      · rw [Nat.min_eq_left hle]
        exact Or.inl (Dvd.intro_left _ rfl)
      · exact Or.inr (Nat.min_eq_right hle)
    refine wp_mono ?_ (h.wp_storeFetched (k := i) (Nat.min_le_right _ _) hstop
      (hx (by simpa using hok)) hne)
    rintro ⟨q, rc⟩ w₁ hr
    obtain ⟨f, rfl, hf⟩ := hr.keeping
    dsimp only
    split
    · exact wp_alone_ret.mpr hr
    refine wp_mono (fun r w' hr' => .trans hr.only hr') (Keeping.wp_prefetchFrom n rangeEnd
      (d := d.setInode fd f) (by rw [Disk.setInode_inode_self]; exact hf)
      (by rw [hr.only.blob]; exact hb))

theorem Keeping.wp_fileControlPrefetch (h : Keeping S D p (d.inode fd) b.content)
    (hb : a.blobs p.blob = some b) (hfd : p.cacheFd = some fd) :
    wp working (fileControlPrefetch p) (Refilled S D a b d fd p) ⟨a, d⟩ := by
  have hdone : ∀ {rc : Rc}, rc ≠ .ioerrShortRead →
      wp working (.ret (p, rc)) (Refilled S D a b d fd p) ⟨a, d⟩ :=
    fun hrc => wp_alone_ret.mpr (.refl h hrc)
  unfold fileControlPrefetch prefetchInvalidPages
  rw [hfd]
  generalize (pageCount p.nData p.pageSize).toNat = nPages
  split
  · split
    · exact hdone (by decide)
    split
    · exact hdone (by decide)
    exact Keeping.wp_prefetchFrom nPages 0 h hb
  · exact hdone (by decide)

end Fetch

/-! ## Locking -/

section Lock

variable {S : Nat → Prop} {D : Bytes} {a : Azure} {b : Blob} {d : Disk} {fd : Fd} {p : ObjsFile}

/-- The cache file was replaced by the blob, or nothing but the record changed. -/
structure Refreshed (S : Nat → Prop) (D : Bytes) (a : Azure) (b : Blob) (d : Disk) (fd : Fd)
    (p p' : ObjsFile) (w' : World) : Prop where
  only : OnlyContent p p'
  keeping : ∃ f, w' = ⟨a, d.setInode fd f⟩ ∧ Keeping S D p' f b.content

theorem Refreshed.refl (h : Keeping S D p (d.inode fd) b.content) :
    Refreshed S D a b d fd p p ⟨a, d⟩ :=
  ⟨rfl, _, by rw [Disk.setInode_self], h⟩

/-- A cache file that is the blob. -/
theorem Keeping.of_eq {q : ObjsFile} {cache blob : Bytes} (h : Keeping S D p cache blob)
    (hp : LegalPageSize q.pageSize) (hn : q.nData = blob.size) (hl : q.lastSyncedSize ≤ q.nData)
    (hr : pagesOf q.nData q.pageSize ≤ 8 * q.dirty.nAlloc)
    (hv : pagesOf q.nData q.pageSize ≤ 8 * q.valid.nAlloc) (hc : q.dirty.Counted) :
    Keeping S D q blob blob := by
  refine ⟨.of_eq hp hn.symm ?_ ?_ hl hr hv hc, h.inside, fun j hj =>
    ⟨(h.kept j hj).2, (h.kept j hj).2⟩⟩
  · rw [hn]
    exact h.blobAligned
  · rw [hn]
    exact Nat.le_trans h.blobSize h.small

theorem Keeping.wp_refreshMainDbCache (h : Keeping S D p (d.inode fd) b.content)
    (hkind : p.eFileType = .mainDb) (hops : p.ops.Complete) (hlazy : p.prefetchMode = .none)
    (hfd : p.cacheFd = some fd) (hb : a.blobs p.blob = some b) (e : ETag) :
    wp working (refreshMainDbCache p b.content.size (some e))
      (fun r w' => Refreshed S D a b d fd p r.1 w') ⟨a, d⟩ := by
  have hread : p.ops.pageBlobRead = true := by rw [hops]; rfl
  unfold refreshMainDbCache
  rw [if_neg (by simp [hkind])]
  split
  · next hnone => rw [hfd] at hnone; cases hnone
  next fd' hfd' =>
  obtain rfl : fd = fd' := Option.some.inj (hfd.symm.trans hfd')
  dsimp only
  split
  · next h0 =>
    refine wp_sys_working fun c hc => ?_
    simp only [Disk.serve, hc, Bool.false_eq_true, if_false, Bool.not_true]
    refine wp_alone_ret.mpr ⟨rfl, _, rfl, ?_⟩
    have hempty : (d.inode fd).truncate 0 = b.content :=
      (SparseFile.eq_empty (SparseFile.truncate_size _ _)).trans (SparseFile.eq_empty h0).symm
    have h0' : pagesOf 0 p.pageSize = 0 :=
      Nat.le_zero.mp ((pagesOf_le_iff h.page.pos).mpr (Nat.zero_le _))
    rw [hempty]
    refine h.of_eq h.page h0.symm (Nat.le_refl _) ?_ ?_ (Bitmap.counted_clearAll _) <;>
    · dsimp only
      rw [h0']
      exact Nat.zero_le _
  next hpos =>
  -- a download that fails has changed the ETag of the record only
  have hetag : Keeping S D { p with etag := some e } (d.inode fd) b.content :=
    ⟨h.toLazyCache.congr rfl rfl rfl rfl h.synced, h.inside, h.kept⟩
  have hfail : ∀ rc : Rc, wp working (.ret ({ p with etag := some e }, rc))
      (fun r w' => Refreshed S D a b d fd p r.1 w') ⟨a, d⟩ :=
    fun rc => wp_alone_ret.mpr ⟨rfl, _, by rw [Disk.setInode_self], hetag⟩
  refine wp_sys_working fun c hc => ?_
  simp only [Disk.serve, hc, Bool.false_eq_true, if_false, Bool.not_true, hread, Bool.and_false]
  rw [wp_bind]
  refine wp_mono ?_ ((reading_served MachineWorks hb).wp_downloadBlob
    (p := { p with etag := some e }) (seen_served _) (by omega) (SparseFile.truncate_size _ _)
    (show Knows id _ d _ from ⟨rfl, rfl⟩))
  rintro ⟨arc, data⟩ ⟨a', d'⟩ ⟨-, ⟨ha, hdata⟩, hd⟩
  obtain rfl : a' = a := ha
  obtain rfl : d' = d := hd
  dsimp only
  split
  · exact hfail _
  next hok =>
  obtain rfl : data = b.content := hdata trivial (by simpa using hok)
  refine wp_sys_working fun c₁ hc₁ => ?_
  simp only [Disk.serve, hc₁, Bool.not_false, Bool.not_true, Bool.false_eq_true, if_false]
  refine wp_sys_working fun c₂ hc₂ => ?_
  simp only [Disk.serve, hc₂, Bool.not_true, Bool.false_eq_true, if_false]
  rw [SparseFile.eq_empty (SparseFile.truncate_size (d'.inode fd) 0), wp_bind]
  refine wp_mono ?_ (wp_writeAll_empty (fun _ hc => hc) (Disk.setInode_inode_self _ _ _))
  rintro _ _ ⟨rfl, rfl⟩
  rw [if_neg (by simp), Disk.setInode_setInode]
  refine wp_sys_working fun c₃ hc₃ => ?_
  simp only [Disk.serve, hc₃, Bool.not_false, Bool.not_true, Bool.false_eq_true, if_false]
  unfold finishRefresh
  refine Knows.wp_redetectPageSize_bind (A := fun w => w.azure = a') (d := d'.setInode fd b.content)
    ⟨rfl, rfl⟩ (seen_served _) (fact_working (· = a')) fun ps w' hlegal hk => ?_
  obtain ⟨a'', d''⟩ := w'
  obtain rfl : a'' = a' := hk.1
  obtain rfl : d'' = d'.setInode fd b.content := hk.2
  have hps : LegalPageSize ps := hlegal h.page
  have hsmall : pagesOf b.content.size ps ≤ maxPages :=
    pagesOf_le_maxPages hps (Nat.le_trans h.blobSize h.small)
  refine wp_bitmapsEnsureCapacity_bind quiet_alone fun q rc hgrown hroom => ?_
  obtain ⟨-, hroom⟩ := hroom allocates_working
  obtain ⟨hdirty, hvalid⟩ := hroom hps.pos hsmall
  have hvalid := hvalid hlazy
  have hqn : q.nData = b.content.size := by rw [hgrown.eq]
  have hqps : q.pageSize = ps := by rw [hgrown.eq]
  have honly : ∀ q' : ObjsFile, q' = { q with
      dirty := q'.dirty, lastSyncedSize := q'.lastSyncedSize, valid := q'.valid } →
      OnlyContent p q' := by
    intro q' hq'
    unfold OnlyContent
    rw [hq', hgrown.eq]
  have hfull : ∀ q' : ObjsFile, q' = { q with
      dirty := bitmapClearAll q.dirty, lastSyncedSize := q.nData, valid := q'.valid } →
      q.valid.nAlloc ≤ q'.valid.nAlloc → Keeping S D q' b.content b.content := by
    intro q' hq' hal
    refine h.of_eq ?_ ?_ ?_ ?_ ?_ ?_
    · rw [hq']
      dsimp only
      rw [hqps]
      exact hps
    · rw [hq']
      exact hqn
    · rw [hq']
    · rw [hq']
      dsimp only
      rw [hqn, hqps, Bitmap.nAlloc_clearAll]
      exact hdirty
    · refine Nat.le_trans ?_ (Nat.mul_le_mul_left 8 hal)
      rw [hq']
      dsimp only
      rw [hqn, hqps]
      exact hvalid
    · rw [hq']
      exact Bitmap.counted_clearAll _
  dsimp only
  split
  · exact wp_alone_ret.mpr ⟨honly _ rfl, _, rfl, hfull _ rfl (Nat.le_refl _)⟩
  · refine wp_bitmapEnsureCapacity_bind quiet_alone fun valid rc hext _ _ => ?_
    refine wp_alone_ret.mpr ?_
    have hal : ∀ n, (bitmapSetAll valid n).nAlloc = valid.nAlloc := Bitmap.nAlloc_setAll valid
    unfold validMarkAll
    generalize pageCount _ _ = n
    split
    · exact ⟨honly _ rfl, _, rfl, hfull _ rfl hext.nAlloc⟩
    · refine ⟨honly _ rfl, _, rfl, hfull _ rfl ?_⟩
      dsimp only
      rw [hal]
      exact hext.nAlloc

/-- A `HEAD` changes nothing, and one that succeeds has the blob's size. -/
theorem wp_azBlobGetProperties_working {α : Type} {Q : α → World → Prop} {i : BlobId}
    (hb : a.blobs i = some b) {f : AzReply → Prog α}
    (h : ∀ x : AzReply, (x.err = .ok → x.size = b.content.size) → wp working (f x) Q ⟨a, d⟩) :
    wp working (azBlobGetProperties i >>= f) Q ⟨a, d⟩ := by
  unfold azBlobGetProperties
  refine SqliteObjs.wp_execute_bind (I := (· = ⟨a, d⟩)) stable_alone rfl ?_
  rintro _ x w' rfl hs
  obtain ⟨hstay, hsome, -⟩ := Azure.respond_getProperties a i
  have hd : w'.disk = d := (seen_served MachineWorks).azure_disk hs
  obtain ⟨c, -, hr⟩ := hs
  obtain ⟨ha, hx⟩ : w'.azure = a ∧ (x.err = .ok → x.size = b.content.size) := by
    rcases Azure.serve_cases (respond_azure hr) with ⟨hx, ha⟩ | ⟨-, ha, hx, -⟩
    · exact ⟨ha, fun hok => absurd hok hx⟩
    · refine ⟨ha.trans hstay, fun hok => ?_⟩
      rw [hx hok]
      exact (hsome b hb).2.2
  obtain ⟨a', d'⟩ := w'
  obtain rfl : a' = a := ha
  obtain rfl : d' = d := hd
  exact ⟨trivial, fun _ => rfl, h x hx⟩

theorem Keeping.wp_revalidateBeforeRead (h : Keeping S D p (d.inode fd) b.content)
    (hkind : p.eFileType = .mainDb) (hops : p.ops.Complete) (hlazy : p.prefetchMode = .none)
    (hfd : p.cacheFd = some fd) (hb : a.blobs p.blob = some b) :
    wp working (revalidateBeforeRead p) (fun r w' => Refreshed S D a b d fd p r.1 w') ⟨a, d⟩ := by
  have hdone : ∀ rc : Rc, wp working (.ret (p, rc))
      (fun r w' => Refreshed S D a b d fd p r.1 w') ⟨a, d⟩ := fun rc => wp_alone_ret.mpr (.refl h)
  unfold revalidateBeforeRead
  split
  · exact hdone _
  split
  · exact hdone _
  split
  · exact hdone _
  split
  · exact hdone _
  refine wp_azBlobGetProperties_working hb fun x hx => ?_
  split
  · exact hdone _
  next hok =>
  split
  · exact hdone _
  next hne =>
  obtain ⟨e, he⟩ := Option.ne_none_iff_exists'.mp fun h => hne (Or.inl h)
  rw [hx (by simpa using hok), he]
  exact h.wp_refreshMainDbCache hkind hops hlazy hfd hb e

theorem Keeping.wp_revalidateAfterLease (h : Keeping S D p (d.inode fd) b.content)
    (hkind : p.eFileType = .mainDb) (hops : p.ops.Complete) (hlazy : p.prefetchMode = .none)
    (hfd : p.cacheFd = some fd) (hb : a.blobs p.blob = some b) (leaseEtag : Option ETag) :
    wp working (revalidateAfterLease p leaseEtag)
      (fun r w' => Refreshed S D a b d fd p r.1 w') ⟨a, d⟩ := by
  have hdone : ∀ rc : Rc, wp working (.ret (p, rc))
      (fun r w' => Refreshed S D a b d fd p r.1 w') ⟨a, d⟩ := fun rc => wp_alone_ret.mpr (.refl h)
  unfold revalidateAfterLease
  split
  · exact hdone _
  split
  · exact hdone _
  split
  · exact hdone _
  split
  · exact hdone _
  split
  · exact hdone _
  refine wp_azBlobGetProperties_working hb fun x hx => ?_
  split
  · exact hdone _
  next hok =>
  split
  · exact hdone _
  next hne =>
  split
  · obtain ⟨e, he⟩ := Option.ne_none_iff_exists'.mp fun h => hne (Or.inl h)
    rw [hx (by simpa using hok), he]
    exact h.wp_refreshMainDbCache hkind hops hlazy hfd hb e
  · exact hdone _

end Lock

/-! ## The invariant -/

/-- What a file keeps from `xOpen` on. -/
def ObjsFile.setup (p : ObjsFile) : FileType × AzureOps × BlobId × PrefetchMode × Option Fd :=
  (p.eFileType, p.ops, p.blob, p.prefetchMode, p.cacheFd)

/-- A lazy database of the blob `i`. -/
structure Lazily (i : BlobId) (S : Nat → Prop) (D : Bytes) (p : ObjsFile) (w : World) : Prop where
  kind : p.eFileType = .mainDb
  ops : p.ops.Complete
  blob : p.blob = i
  lazy : p.prefetchMode = .none
  keeping : ∃ fd, p.cacheFd = some fd ∧ w.azure.Has i (Keeping S D p (w.disk.inode fd))

section Lazily

variable {i : BlobId} {S S' : Nat → Prop} {D D' : Bytes} {p q : ObjsFile} {w w' : World} {a : Azure}
  {b : Blob} {d : Disk} {fd : Fd}

theorem Lazily.next (h : Lazily i S D p w) (hq : q.setup = p.setup)
    (hk : ∀ fd, p.cacheFd = some fd → w'.azure.Has i (Keeping S' D' q (w'.disk.inode fd))) :
    Lazily i S' D' q w' := by
  unfold ObjsFile.setup at hq
  simp only [Prod.mk.injEq] at hq
  obtain ⟨h₁, h₂, h₃, h₄, h₅⟩ := hq
  obtain ⟨fd, hfd, -⟩ := h.keeping
  exact ⟨h₁.trans h.kind, by rw [h₂]; exact h.ops, h₃.trans h.blob, h₄.trans h.lazy, fd,
    h₅.trans hfd, hk fd hfd⟩

/-- The lock and the lease do not matter. -/
theorem Lazily.locked (h : Lazily i S D p w) (hq : q = { p with
      eLock := q.eLock, leaseId := q.leaseId, leaseAcquiredAt := q.leaseAcquiredAt
      leaseDuration := q.leaseDuration, readsSinceSharedLock := q.readsSinceSharedLock })
    (hw : ∀ P, w.azure.Has i P → w'.azure.Has i P) (hd : w'.disk = w.disk) : Lazily i S D q w' := by
  obtain ⟨fd, hfd, hhas⟩ := h.keeping
  refine h.next (by rw [hq]; rfl) fun fd' hfd' => ?_
  obtain rfl := Option.some.inj (hfd.symm.trans hfd')
  rw [hd]
  refine hw _ (hhas.imp fun C hk => ⟨hk.toLazyCache.congr ?_ ?_ ?_ ?_ ?_, hk.inside, hk.kept⟩) <;>
    rw [hq]
  exact hk.synced

theorem Lazily.refreshed (h : Lazily i S D p ⟨a, d⟩) (hb : a.blobs i = some b)
    (hfd : p.cacheFd = some fd) (hr : Refreshed S D a b d fd p q w') : Lazily i S D q w' := by
  obtain ⟨f, rfl, hk⟩ := hr.keeping
  have honly := hr.only
  unfold OnlyContent at honly
  refine h.next (by rw [honly]; rfl) fun fd' hfd' => ?_
  obtain rfl := Option.some.inj (hfd.symm.trans hfd')
  rw [Disk.setInode_inode_self]
  exact ⟨b, hb, hk⟩

theorem Azure.Has.acquire {P : Bytes → Prop} {a a' : Azure} {c : Choice} {x : AzReply} {n : Nat}
    (h : a.Has i P) (hs : a.serve c (.leaseAcquire i n) = some (x, a')) : a'.Has i P := by
  obtain ⟨b, hb, hP⟩ := h
  rcases Azure.serve_cases hs with ⟨-, rfl⟩ | ⟨-, rfl, -⟩
  · exact ⟨b, hb, hP⟩
  · simp only [Azure.respond, hb]
    split
    · exact ⟨b, hb, hP⟩
    · exact ⟨_, Azure.set_blobs_self a i _, hP⟩

theorem Azure.Has.release {P : Bytes → Prop} {a a' : Azure} {c : Choice} {x : AzReply}
    {id : LeaseId}
    (h : a.Has i P) (hs : a.serve c (.leaseRelease i id) = some (x, a')) : a'.Has i P := by
  obtain ⟨b, hb, hP⟩ := h
  rcases Azure.serve_cases hs with ⟨-, rfl⟩ | ⟨-, rfl, -⟩
  · exact ⟨b, hb, hP⟩
  · simp only [Azure.respond, hb]
    split
    · exact ⟨_, Azure.set_blobs_self a i _, hP⟩
    · exact ⟨b, hb, hP⟩

/-- A request that keeps the content of the blob, sent until it is answered. -/
theorem wp_execute_keeping {α : Type} {Q : α → World → Prop} {r : AzReq} {f : AzReply → Prog α}
    (hr : ∀ {P : Bytes → Prop} {a a' : Azure} {c : Choice} {x : AzReply}, a.Has i P →
      a.serve c r = some (x, a') → a'.Has i P)
    (h : ∀ x w', (∀ P, w.azure.Has i P → w'.azure.Has i P) → w'.disk = w.disk →
      wp working (f x) Q w') : wp working (execute r >>= f) Q w := by
  refine SqliteObjs.wp_execute_bind
    (I := fun w' => (∀ P, w.azure.Has i P → w'.azure.Has i P) ∧ w'.disk = w.disk) stable_alone
    ⟨fun _ h => h, rfl⟩ ?_
  rintro w₁ x w₂ ⟨hhas, hd⟩ hs
  have hd₂ : w₂.disk = w.disk := ((seen_served MachineWorks).azure_disk hs).trans hd
  obtain ⟨c, -, hs⟩ := hs
  have hhas₂ : ∀ P, w.azure.Has i P → w₂.azure.Has i P := fun P hP =>
    hr (hhas P hP) (respond_azure hs)
  exact ⟨trivial, fun _ => ⟨hhas₂, hd₂⟩, h x w₂ hhas₂ hd₂⟩

theorem Lazily.wp_releaseLease (h : Lazily i S D p w) :
    wp working (releaseLease p) (fun q w' => Lazily i S D q w') w := by
  unfold releaseLease
  split
  · unfold azLeaseRelease
    rw [h.blob]
    refine wp_execute_keeping (fun h hs => h.release hs) fun x w' hw hd => ?_
    exact wp_alone_ret.mpr (h.locked rfl hw hd)
  · exact wp_alone_ret.mpr (h.locked rfl (fun _ h => h) rfl)

theorem Lazily.wp_unlock (h : Lazily i S D p w) (eLock : LockLevel) :
    wp working (sqliteObjsUnlock p eLock) (fun r w' => Lazily i S D r.1 w') w := by
  unfold sqliteObjsUnlock
  split
  · exact wp_alone_ret.mpr h
  split
  · rw [wp_bind]
    refine wp_mono ?_ h.wp_releaseLease
    exact fun q w' hq => wp_alone_ret.mpr (hq.locked rfl (fun _ h => h) rfl)
  · exact wp_alone_ret.mpr (h.locked rfl (fun _ h => h) rfl)

theorem Lazily.wp_revalidateBeforeRead (h : Lazily i S D p w) :
    wp working (revalidateBeforeRead p) (fun r w' => Lazily i S D r.1 w') w := by
  obtain ⟨fd, hfd, b, hb, hk⟩ := h.keeping
  refine wp_mono (fun r w' hr => h.refreshed hb hfd hr) ?_
  exact hk.wp_revalidateBeforeRead h.kind h.ops h.lazy hfd (by rw [h.blob]; exact hb)

theorem Lazily.wp_revalidateAfterLease (h : Lazily i S D p w) (leaseEtag : Option ETag) :
    wp working (revalidateAfterLease p leaseEtag) (fun r w' => Lazily i S D r.1 w') w := by
  obtain ⟨fd, hfd, b, hb, hk⟩ := h.keeping
  refine wp_mono (fun r w' hr => h.refreshed hb hfd hr) ?_
  exact hk.wp_revalidateAfterLease h.kind h.ops h.lazy hfd (by rw [h.blob]; exact hb) leaseEtag

theorem Lazily.wp_acquireLease (h : Lazily i S D p w) :
    wp working (acquireLease p) (fun r w' => Lazily i S D r.1 w') w := by
  unfold acquireLease
  extract_lets duration
  generalize duration = duration
  have hacquire : ∀ f : AzReply → Prog (ObjsFile × Rc),
      (∀ x w', Lazily i S D p w' → wp working (f x) (fun r w' => Lazily i S D r.1 w') w') →
      wp working (azLeaseAcquire p.blob duration >>= f) (fun r w' => Lazily i S D r.1 w') w := by
    intro f hf
    unfold azLeaseAcquire
    split
    · exact hf _ w h
    · rw [h.blob]
      exact wp_execute_keeping (fun h hs => h.acquire hs) fun x w' hw hd =>
        hf x w' (h.locked rfl hw hd)
  refine hacquire _ fun x w₁ h₁ => ?_
  split
  · exact wp_alone_ret.mpr h₁
  split
  · exact wp_alone_ret.mpr h₁
  refine wp_sys_working fun c _ => ?_
  dsimp only [Disk.serve]
  rw [wp_bind]
  refine wp_mono ?_ (Lazily.wp_revalidateAfterLease (h₁.locked rfl (fun _ h => h) rfl) x.etag)
  rintro ⟨q, rv⟩ w₂ h₂
  dsimp only at h₂ ⊢
  split
  · rw [wp_bind]
    exact wp_mono (fun q' w' h' => wp_alone_ret.mpr h') h₂.wp_releaseLease
  · exact wp_alone_ret.mpr h₂

theorem Lazily.wp_lock (h : Lazily i S D p w) (eLock : LockLevel) :
    wp working (sqliteObjsLock p eLock) (fun r w' => Lazily i S D r.1 w') w := by
  -- the end of either way to lock
  have hend : ∀ {q : ObjsFile} {rv : Rc} {w' : World}, Lazily i S D q w' →
      wp working (if rv ≠ .ok then .ret (q, rv) else .ret ({ q with eLock := eLock }, .ok))
        (fun r w' => Lazily i S D r.1 w') w' := by
    intro q rv w' hq
    split
    · exact wp_alone_ret.mpr hq
    · exact wp_alone_ret.mpr (hq.locked rfl (fun _ h => h) rfl)
  unfold sqliteObjsLock
  split
  · exact wp_alone_ret.mpr h
  split
  · rw [wp_bind]
    refine wp_mono ?_ (Lazily.wp_revalidateBeforeRead (h.locked rfl (fun _ h => h) rfl))
    exact fun r w' hr => hend hr
  split
  · exact wp_alone_ret.mpr (h.locked rfl (fun _ h => h) rfl)
  split
  · exact wp_alone_ret.mpr (h.locked rfl (fun _ h => h) rfl)
  rw [wp_bind]
  exact wp_mono (fun r w' hr => hend hr) h.wp_acquireLease

theorem Lazily.wp_prefetch (h : Lazily i S D p w) :
    wp working (fileControlPrefetch p) (fun r w' => Lazily i S D r.1 w') w := by
  obtain ⟨fd, hfd, b, hb, hk⟩ := h.keeping
  refine wp_mono ?_ (hk.wp_fileControlPrefetch (by rw [h.blob]; exact hb) hfd)
  intro r w' hr
  refine h.refreshed hb hfd ⟨?_, hr.keeping⟩
  have honly := hr.only
  unfold OnlyValid at honly
  unfold OnlyContent
  rw [honly]

/-- A read returns the bytes of `D` in `S`. -/
theorem Lazily.wp_read (h : Lazily i S D p w) (iAmt iOfst : Nat) :
    wp working (sqliteObjsRead p iAmt iOfst) (fun r w' => Lazily i S D r.1 w' ∧
      (r.2.1 = .ok ∨ r.2.1 = .ioerrShortRead → ∀ j, S j → iOfst ≤ j → j < iOfst + iAmt →
        r.2.2.get (j - iOfst) = D.get j)) w := by
  obtain ⟨fd, hfd, b, hb, hk⟩ := h.keeping
  unfold sqliteObjsRead
  rw [h.kind]
  refine wp_mono ?_ (hk.wp_mainDbRead (by rw [h.blob]; exact hb) hfd iAmt iOfst)
  rintro r _ ⟨honly, f, rfl, hk', hbytes⟩
  unfold OnlyRead at honly
  refine ⟨h.next (by rw [honly]; rfl) fun fd' hfd' => ?_, fun hrc j hS h₁ h₂ => ?_⟩
  · obtain rfl := Option.some.inj (hfd.symm.trans hfd')
    rw [Disk.setInode_inode_self]
    exact ⟨b, hb, hk'⟩
  · rw [hbytes hrc j h₁ h₂ (Nat.lt_of_lt_of_le (hk.inside j hS) hk.blobSize)]
    exact (hk'.kept j hS).1

/-! ## Flushing -/

variable {cache : Bytes}

theorem Keeping.resize {blob : Bytes} (h : Keeping S D p cache blob) :
    Keeping S D p cache (blob.truncate p.nData) := by
  refine ⟨h.toLazyCache.resize, fun j hj => ?_, fun j hj => ⟨(h.kept j hj).1, ?_⟩⟩
  · rw [SparseFile.truncate_size]
    exact Nat.lt_of_lt_of_le (h.inside j hj) h.blobSize
  rw [SparseFile.truncate_get_of_le _ h.blobSize]
  exact (h.kept j hj).2

theorem Keeping.flush {blob data : Bytes} {off : Nat} (h : Keeping S D p cache blob)
    (hd : ∀ k, k < data.size → data.get k = cache.get (off + k))
    (hle : off + data.size ≤ blob.size) :
    Keeping S D p cache (blob.pwrite off data) := by
  refine ⟨h.toLazyCache.flush hd hle, fun j hj => ?_, fun j hj => ⟨(h.kept j hj).1, ?_⟩⟩
  · rw [SparseFile.pwrite_size_of_le _ _ hle]
    exact h.inside j hj
  rw [SparseFile.pwrite_get]
  split
  · next hin =>
    rw [hd _ (by omega), show off + (j - off) = j by omega]
    exact (h.kept j hj).1
  · exact (h.kept j hj).2

theorem renewKeeps_working (p : ObjsFile) (P : Bytes → Prop) :
    RenewKeeps working p fun w => w.azure.Has p.blob P := by
  intro id _ w x w' hP hs
  obtain ⟨c, -, hr⟩ := hs
  exact ⟨trivial, hP.renew (respond_azure hr)⟩

/-- The facts of a sync. Bytes of the cache file go to the blob; `S` stays what it is. -/
theorem syncing_working (S : Nat → Prop) (D : Bytes) (p : ObjsFile) (cache : Bytes) :
    Syncing working p cache (fun w => w.azure.Has p.blob (Keeping S D p cache))
      (fun loaded A _ w => w.azure.Has p.blob fun c =>
        Keeping S D p cache c ∧ PiecesIn loaded A c) where
  fact := fact_working fun a => a.Has p.blob _
  facts loaded A _ := fact_working fun a => a.Has p.blob _
  mono hA _ h := h.imp fun c hc => ⟨hc.1, fun k hk => hc.2 k (hA k hk)⟩
  renew := renewKeeps_working p _
  start w _ h := h.imp fun c hk => ⟨hk, fun _ h => h.elim⟩
  resize _ w x w' h hs := by
    obtain ⟨b, hb, hk⟩ := h
    obtain ⟨c, -, hr⟩ := hs
    rw [align512_of_dvd hk.aligned] at hr
    refine ⟨trivial, ?_⟩
    rcases Azure.Has.resize ⟨b, hb, hk⟩ (respond_azure hr) (R := Keeping S D p cache)
      (fun c hk => hk.resize) with ⟨hx, ha⟩ | ⟨hhas, -⟩
    · rw [ha]
      exact ⟨fun _ => ⟨b, hb, hk⟩, fun hok => absurd hok hx⟩
    · exact ⟨fun _ => hhas, fun _ => hhas.imp fun _ hk => ⟨hk, fun _ h => h.elim⟩⟩
  load h := h.imp fun c hc => ⟨hc.1, fun _ h => h.elim⟩
  flush _ hl := {
    fact := fun A _ => fact_working fun a => a.Has p.blob _
    mono := fun hA _ h => h.imp fun c hc => ⟨hc.1, fun k hk => hc.2 k (hA k hk)⟩
    put := fun {k r} hr A _ w x w' h hs => by
      obtain ⟨c, -, hs⟩ := hs
      refine ⟨trivial, h.write (respond_azure hs) fun c ⟨hk, hp⟩ hle => ?_⟩
      have hflush := hk.flush (hl.bytes r (List.mem_of_getElem? hr)) hle
      have hall := hp.pwrite hl.bytes hr
      exact ⟨⟨hflush, fun j hj => hall j (Or.inl hj)⟩, hflush, hall⟩
    renew := fun A _ => renewKeeps_working p _ }
  snap loaded A _ w x w' h hs := by
    obtain ⟨c, -, hr⟩ := hs
    exact ⟨trivial, h.snapshot (respond_azure hr)⟩

theorem Lazily.wp_sync (h : Lazily i S D p w) (v : VfsData) :
    wp working (sqliteObjsSync v p) (fun r w' => Lazily i S D r.2.1 w') w := by
  obtain ⟨fd, hfd, b, hb, hk⟩ := h.keeping
  rw [← h.blob] at hb
  unfold sqliteObjsSync
  rw [h.kind]
  dsimp only
  rw [wp_bind]
  refine wp_mono ?_ ((syncing_working S D p (w.disk.inode fd)).wp_mainDbSync
    (seen_served MachineWorks) diskWorks_working h.ops hfd hk.toLazyCache.mirror rfl
    (show Knows id _ w.disk w from ⟨⟨b, hb, hk⟩, rfl⟩))
  rintro ⟨q, rc⟩ w₁ hend
  refine wp_alone_ret.mpr ?_
  have hnext : ∀ {q : ObjsFile}, q.setup = p.setup → w₁.disk.inode fd = w.disk.inode fd →
      w₁.azure.Has p.blob (Keeping S D q (w.disk.inode fd)) → Lazily i S D q w₁ := by
    intro q hq hd hhas
    refine h.next hq fun fd' hfd' => ?_
    obtain rfl := Option.some.inj (hfd.symm.trans hfd')
    rw [hd, ← h.blob]
    exact hhas
  have hmax : max p.lastSyncedSize p.nData ≤ p.nData := Nat.max_le.mpr ⟨hk.synced, Nat.le_refl _⟩
  cases hend with
  | clean h0 hkn =>
    exact hnext rfl (by rw [show w₁.disk = w.disk from hkn.2]) hkn.1
  | early hrc hkn =>
    refine hnext rfl (by rw [show w₁.disk = w.disk from hkn.2]) ?_
    exact hkn.1.imp fun c hc => ⟨hc.toLazyCache.congr rfl rfl rfl rfl hc.synced, hc.inside, hc.kept⟩
  | late hrc hkn =>
    refine hnext rfl (by rw [show w₁.disk = w.disk from hkn.2]) ?_
    exact hkn.1.imp fun c hc =>
      ⟨hc.1.toLazyCache.congr rfl rfl rfl rfl hmax, hc.1.inside, hc.1.kept⟩
  | @done t snapshot etag ranges loaded d' _ hcov hl _ hd' hkn =>
    refine hnext rfl (by rw [show w₁.disk = d' from hkn.2, hd']) (hkn.1.imp fun c hc => ?_)
    exact ⟨hc.1.toLazyCache.clear rfl rfl rfl rfl hmax fun j hj hd =>
      get_of_piecesIn hcov hl hc.2 hj hd, hc.1.inside, hc.1.kept⟩

/-! ## Writing and truncating -/

/-- The cache file after a write. -/
def writtenCache (cache : Bytes) (n : Nat) (buf : Bytes) (iOfst : Nat) : Bytes :=
  (cache.truncate (max n (iOfst + buf.size))).pwrite iOfst buf

/-- What a write that returns `SQLITE_OK` leaves: the marked pages are valid, whatever they held. -/
structure LazyWritten (p : ObjsFile) (cache blob buf : Bytes) (iOfst : Nat)
    (q : ObjsFile) : Prop where
  written : Written p q
  nData : q.nData = max p.nData (iOfst + buf.size)
  valid : ∀ k, iOfst / p.pageSize ≤ k → k * p.pageSize < iOfst + buf.size → q.valid.bit k = true
  lazy : LazyCache q (writtenCache cache p.nData buf iOfst) blob

theorem LazyCache.wp_mainDbWrite {C buf : Bytes} {iOfst : Nat} (h : LazyCache p (d.inode fd) C)
    (hk : Knows id (fun w => w.azure.Has p.blob (· = C)) d w) (hfd : p.cacheFd = some fd)
    (hlazy : p.prefetchMode = .none) (hend : 512 ∣ max p.nData (iOfst + buf.size))
    (hlim : iOfst + buf.size ≤ sizeLimit) :
    wp working (mainDbWrite p buf iOfst) (fun r w' => r.2 = .ok →
      LazyWritten p (d.inode fd) C buf iOfst r.1 ∧ w'.azure.Has p.blob (· = C) ∧
      w'.disk = d.setInode fd (writtenCache (d.inode fd) p.nData buf iOfst)) w := by
  refine hk.wp_mainDbWrite_of (seen_served _) (fact_working fun a => a.Has p.blob _)
    diskWorks_working
    allocates_working (renewKeeps_working p _) hfd h.page.pos h.cacheSize ?_
  intro q t w' hgrown hroom hk'
  refine ⟨fun rc _ hne hok => absurd hok hne, fun _ => ⟨?_, hk'.1, hk'.2⟩⟩
  have hqps : q.pageSize = p.pageSize := by rw [hgrown.eq]
  have hqn : q.nData = max p.nData (iOfst + buf.size) := by rw [hgrown.eq]
  have hsmall : q.nData ≤ sizeLimit := by
    rw [hqn]
    exact Nat.max_le.mpr ⟨h.small, hlim⟩
  have hpages : pagesOf (iOfst + buf.size) p.pageSize ≤ maxPages := pagesOf_le_maxPages h.page hlim
  -- the bitmaps have grown with the file, or the file has not grown
  have hqroom : pagesOf q.nData q.pageSize ≤ 8 * q.dirty.nAlloc ∧
      pagesOf q.nData q.pageSize ≤ 8 * q.valid.nAlloc := by
    rw [hqps]
    rcases Nat.lt_or_ge p.nData (iOfst + buf.size) with hlt | hge
    · exact ⟨(hroom hlt hpages).1, (hroom hlt hpages).2 hlazy⟩
    · rw [hqn, Nat.max_eq_left hge]
      exact ⟨Nat.le_trans h.room (Nat.mul_le_mul_left 8 hgrown.dirty.nAlloc),
        Nat.le_trans h.validRoom (Nat.mul_le_mul_left 8 hgrown.valid.nAlloc)⟩
  have hwrite := h.write (q := { q with leaseAcquiredAt := t })
    (by rw [hqn]; exact hend) hsmall hqps
    (show q.nData = max p.nData (iOfst + buf.size) from hqn) (by rw [hgrown.eq]) hgrown.dirty
    hgrown.valid hqroom.1
    hqroom.2
  obtain ⟨-, hvalid⟩ := markWritten_valid_span (q := { q with leaseAcquiredAt := t })
    (by dsimp only; rw [hqps]; exact h.page.pos) (Nat.le_add_right iOfst buf.size)
    (by dsimp only; rw [hqps]; exact hpages)
  have honly := onlyMarks_markWritten
    ((iOfst + buf.size - iOfst / q.pageSize * q.pageSize + q.pageSize - 1) / q.pageSize)
    { q with leaseAcquiredAt := t } (iOfst / q.pageSize * q.pageSize)
  dsimp only at hvalid hwrite
  generalize markWritten { q with leaseAcquiredAt := t } _ _ = q' at hwrite hvalid honly ⊢
  refine ⟨?_, honly.nData.trans hqn, fun k h₁ h₂ => (hvalid k).mpr (Or.inr ⟨?_, ?_, ?_⟩), ?_⟩
  · unfold Written
    rw [honly.eq, hgrown.eq]
  · rw [hqps]
    exact h₁
  · rw [hqps]
    exact h₂
  · have hlt := div_lt_pagesOf h.page.pos h₂
    rw [Nat.mul_div_cancel _ h.page.pos] at hlt
    have hmono : pagesOf (iOfst + buf.size) p.pageSize ≤ pagesOf q.nData p.pageSize :=
      pagesOf_mono (by rw [hqn]; exact Nat.le_max_right _ _)
    have hvroom := hqroom.2
    rw [hqps] at hvroom
    omega
  · unfold writtenCache
    rw [← hqn]
    exact hwrite

theorem Lazily.wp_truncate (h : Lazily i S D p w) {size : Nat} (ha : 512 ∣ size)
    (hle : size ≤ p.nData) : wp working (sqliteObjsTruncate p size)
      (fun r w' => r.2 = .ok → Lazily i (fun _ => False) D r.1 w') w := by
  obtain ⟨fd, hfd, b, hb, hk⟩ := h.keeping
  rw [← h.blob] at hb
  have hop : p.ops.pageBlobResize = true := by rw [h.ops]; rfl
  unfold sqliteObjsTruncate
  rw [h.kind]
  dsimp only
  unfold mainDbTruncate
  rw [wp_bind]
  unfold resizeForTruncate azPageBlobResize
  rw [if_pos hop, if_neg (by unfold align512; omega), align512_of_dvd ha]
  -- while the request is repeated the blob may or may not have been cut
  refine SqliteObjs.wp_execute_bind (I := fun w' => w'.disk = w.disk ∧
    w'.azure.Has p.blob fun c => c.truncate size = b.content.truncate size) stable_alone
    ⟨rfl, b, hb, rfl⟩ ?_
  rintro w₁ x w₂ ⟨hd, hhas⟩ hs
  have hd₂ : w₂.disk = w.disk := ((seen_served MachineWorks).azure_disk hs).trans hd
  obtain ⟨c, -, hr⟩ := hs
  have hcut : ∀ c : Bytes, c = b.content.truncate size → c.truncate size =
      b.content.truncate size := by
    rintro _ rfl
    exact SparseFile.truncate_self _
  rcases hhas.resize (respond_azure hr) (R := (· = b.content.truncate size)) (fun c hc => hc) with
    ⟨hx, ha₂⟩ | ⟨hhas₂, -⟩
  · refine ⟨trivial, fun _ => ⟨hd₂, by rw [ha₂]; exact hhas⟩, ?_⟩
    rw [if_pos hx]
    refine wp_alone_ret.mpr ?_
    dsimp only
    have hrc : azureErrToSqlite x.err .ioerrTruncate ≠ .ok :=
      fun hok => hx ((azureErrToSqlite_eq_ok (by decide)).mp hok)
    rw [if_pos hrc]
    exact wp_alone_ret.mpr fun hok => absurd hok hrc
  · refine ⟨trivial, fun _ => ⟨hd₂, hhas₂.imp hcut⟩, ?_⟩
    split
    · next hx =>
      refine wp_alone_ret.mpr ?_
      dsimp only
      have hrc : azureErrToSqlite x.err .ioerrTruncate ≠ .ok :=
        fun hok => hx ((azureErrToSqlite_eq_ok (by decide)).mp hok)
      rw [if_pos hrc]
      exact wp_alone_ret.mpr fun hok => absurd hok hrc
    refine wp_alone_ret.mpr ?_
    dsimp only
    rw [if_neg (by simp)]
    split
    · next hnone => rw [hfd] at hnone; cases hnone
    next fd' hfd' =>
    obtain rfl : fd = fd' := Option.some.inj (hfd.symm.trans hfd')
    obtain ⟨a₂, d₂⟩ := w₂
    obtain rfl : d₂ = w.disk := hd₂
    refine wp_sys_working fun c' hc' => ?_
    simp only [Disk.serve, hc', Bool.false_eq_true, if_false, Bool.not_true]
    refine wp_alone_ret.mpr fun _ => ?_
    have hlazy := hk.toLazyCache.truncate ha hle
    have hq := forgetPastEnd_eq { p with lastSyncedSize := size } hle
    generalize forgetPastEnd { p with lastSyncedSize := size } size = q at hq hlazy ⊢
    refine h.next (by rw [hq]; rfl) fun fd' hfd' => ?_
    obtain rfl := Option.some.inj (hfd.symm.trans hfd')
    rw [Disk.setInode_inode_self, ← h.blob]
    refine hhas₂.imp ?_
    rintro _ rfl
    exact ⟨hlazy, fun _ h => h.elim, fun _ h => h.elim⟩

theorem Lazily.wp_write (h : Lazily i S D p w) {buf : Bytes} {iOfst : Nat}
    (hend : 512 ∣ max p.nData (iOfst + buf.size)) (hlim : iOfst + buf.size ≤ sizeLimit) :
    wp working (sqliteObjsWrite p buf iOfst)
      (fun r w' => r.2 = .ok → Lazily i (fun _ => False) D r.1 w') w := by
  obtain ⟨fd, hfd, b, hb, hk⟩ := h.keeping
  rw [← h.blob] at hb
  unfold sqliteObjsWrite
  rw [h.kind]
  refine wp_mono ?_ (hk.toLazyCache.wp_mainDbWrite (w := w) ⟨⟨b, hb, rfl⟩, rfl⟩
    hfd h.lazy hend hlim)
  intro r w' hr hok
  obtain ⟨hw, hhas, hd⟩ := hr hok
  have hwritten := hw.written
  unfold Written at hwritten
  refine h.next (by rw [hwritten]; rfl) fun fd' hfd' => ?_
  obtain rfl := Option.some.inj (hfd.symm.trans hfd')
  rw [hd, Disk.setInode_inode_self, ← h.blob]
  refine hhas.imp ?_
  rintro _ rfl
  exact ⟨hw.lazy, fun _ h => h.elim, fun _ h => h.elim⟩

theorem Lazily.expire (h : Lazily i S D p w) (j : BlobId) :
    Lazily i S D p { w with azure := w.azure.expire j } := by
  refine h.locked rfl (fun P => ?_) rfl
  rintro ⟨b, hb, hP⟩
  unfold Azure.expire
  split
  · exact ⟨b, hb, hP⟩
  next b' hb' =>
  split
  · by_cases hij : i = j
    · subst hij
      obtain rfl := Option.some.inj (hb.symm.trans hb')
      exact ⟨_, Azure.set_blobs_self _ _ _, hP⟩
    · exact ⟨b, by rw [Azure.set_blobs_ne _ _ hij]; exact hb, hP⟩
  · exact ⟨b, hb, hP⟩

end Lazily

/-! ## The session -/

/-- The calls on a lazy database. -/
inductive LazyCall
  | read (iAmt iOfst : Nat)
  | write (buf : Bytes) (iOfst : Nat)
  | truncate (size : Nat)
  | sync
  | prefetch
  | lock (eLock : LockLevel)
  | unlock (eLock : LockLevel)

/-- The call changes what the file holds. -/
def LazyCall.changes : LazyCall → Bool
  | .write _ _ | .truncate _ => true
  | _ => false

/-- A client that is alone on its database. Writes that grow the file end on a sector, and the file
stays in the reach of the page numbers. A write or a truncation that fails is not followed. -/
def lazySession (v : VfsData) : Session World Ans (ObjsFile × Rc) LazyCall where
  code
    | .read iAmt iOfst, s => do
      let (p, rc, _) ← sqliteObjsRead s.1 iAmt iOfst
      return (p, rc)
    | .write buf iOfst, s => sqliteObjsWrite s.1 buf iOfst
    | .truncate size, s => sqliteObjsTruncate s.1 size
    | .sync, s => do
      let (_, p, rc) ← sqliteObjsSync v s.1
      return (p, rc)
    | .prefetch, s => fileControlPrefetch s.1
    | .lock eLock, s => sqliteObjsLock s.1 eLock
    | .unlock eLock, s => sqliteObjsUnlock s.1 eLock
  may
    | .write buf iOfst, s, _ =>
      512 ∣ max s.1.nData (iOfst + buf.size) ∧ iOfst + buf.size ≤ sizeLimit
    | .truncate size, s, _ => 512 ∣ size ∧ size ≤ s.1.nData
    | _, _, _ => True
  serve _ _ := World.served MachineWorks
  accept c _ _ s' _ := c.changes = true → s'.2 = .ok
  outside w w' := ∃ i, w' = { w with azure := w.azure.expire i }

section Session

variable {v : VfsData} {i : BlobId} {S : Nat → Prop} {D : Bytes} {s₀ s : ObjsFile × Rc}
  {w₀ w : World}

/-- A call that changes nothing. -/
theorem Lazily.wp_look (h : Lazily i S D s.1 w) {c : LazyCall} (hc : c.changes = false) :
    wp working ((lazySession v).code c s) (fun s' w' => Lazily i S D s'.1 w') w := by
  cases c with
  | read iAmt iOfst =>
    refine wp_bind.mpr (wp_mono ?_ (h.wp_read iAmt iOfst))
    exact fun r w' hr => wp_alone_ret.mpr hr.1
  | write buf iOfst => simp [LazyCall.changes] at hc
  | truncate size => simp [LazyCall.changes] at hc
  | sync => exact wp_bind.mpr (wp_mono (fun r w' hr => wp_alone_ret.mpr hr) (h.wp_sync v))
  | prefetch => exact h.wp_prefetch
  | lock eLock => exact h.wp_lock eLock
  | unlock eLock => exact h.wp_unlock eLock

theorem Lazily.reach (h : Lazily i (fun _ => False) D s₀.1 w₀)
    (hr : (lazySession v).Reach s₀ w₀ s w) : Lazily i (fun _ => False) D s.1 w := by
  refine Session.inv_of_reach (fun s w => Lazily i (fun _ => False) D s.1 w) h ?_ ?_ hr
  · intro c s w hi hmay
    by_cases hc : c.changes = true
    · cases c with
      | write buf iOfst =>
        exact wp_mono (fun r w' hr ha => hr (ha hc)) (hi.wp_write hmay.1 hmay.2)
      | truncate size =>
        exact wp_mono (fun r w' hr ha => hr (ha hc)) (hi.wp_truncate hmay.1 hmay.2)
      | _ => simp [LazyCall.changes] at hc
    · refine wp_mono ?_ (hi.wp_look (v := v) (by simpa using hc))
      exact fun s' w' h' _ => h'
  · rintro s w _ hi ⟨j, rfl⟩
    exact hi.expire j

end Session
end SqliteObjs
