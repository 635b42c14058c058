import SqliteObjs.MainDb.Equivalence

/-!
# Cache files of earlier sessions

With `cache_reuse=1` a session leaves its cache file behind, with the ETag of the blob's
version in a sidecar file. A session in lazy mode leaves a sparse file, and its valid bits
in a second sidecar. Only a lazy session reads them: an eager session that finds a matching
ETag takes the file to be whole (`eager_adopts_sparse`).

A run of sessions on a blob that does not change reads the blob's bytes throughout as long
as an eager session never takes over a file in which pages are missing. `Sessions.fetched`
records which pages some session has downloaded.
-/

set_option autoImplicit false

namespace SqliteObjs

open Data CS CS.Program

/-! ## Sidecar files -/

/-- The ETag in the sidecar of a cache file. -/
def Disk.etagAt (d : Disk) (path : Path) : Option ETag :=
  match d.sidecar path .etag with
  | some (.etag e) => some e
  | _ => none

/-- The snapshot in the sidecar of a cache file. -/
def Disk.snapshotAt (d : Disk) (path : Path) : Option Snapshot :=
  match d.sidecar path .snapshot with
  | some (.snapshot s) => some s
  | _ => none

section Sidecars

variable {α : Type} {a : Azure} {d : Disk} {path : Path} {Q : α → World → Prop}

theorem wp_readEtagFile_sound {f : Option ETag → Prog α}
    (h : wp soundly (f (d.etagAt path)) Q ⟨a, d⟩) :
    wp soundly (readEtagFile path >>= f) Q ⟨a, d⟩ := by
  rw [wp_bind]
  unfold readEtagFile
  refine wp_sys_sound fun c hc => ?_
  unfold Disk.etagAt at h
  simp only [Disk.serve, hc.2, Bool.false_eq_true, if_false]
  cases hs : d.sidecar path .etag with
  | none =>
    rw [hs] at h
    exact wp_alone_ret.mpr h
  | some sc =>
    rw [hs] at h
    cases sc <;> exact wp_alone_ret.mpr h

theorem wp_readSnapshotFile_sound {f : Option Snapshot → Prog α}
    (h : wp soundly (f (d.snapshotAt path)) Q ⟨a, d⟩) :
    wp soundly (readSnapshotFile path >>= f) Q ⟨a, d⟩ := by
  rw [wp_bind]
  unfold readSnapshotFile
  refine wp_sys_sound fun c hc => ?_
  unfold Disk.snapshotAt at h
  simp only [Disk.serve, hc.2, Bool.false_eq_true, if_false]
  cases hs : d.sidecar path .snapshot with
  | none =>
    rw [hs] at h
    exact wp_alone_ret.mpr h
  | some sc =>
    rw [hs] at h
    cases sc <;> exact wp_alone_ret.mpr h

/-- The saved state is what the sidecar holds, or it is not used. -/
theorem wp_readStateFile_sound :
    wp soundly (readStateFile path) (fun r w' => w' = ⟨a, d⟩ ∧ ∀ ps fs bm,
      r = some (ps, fs, bm) → d.sidecar path .state = some (.state ps fs bm)) ⟨a, d⟩ := by
  suffices h : ∀ Q : Option (Nat × Nat × List UInt8) → World → Prop, Q none ⟨a, d⟩ →
      (∀ ps fs bm, d.sidecar path .state = some (.state ps fs bm) → Q (some (ps, fs, bm)) ⟨a, d⟩) →
      wp soundly (readStateFile path) Q ⟨a, d⟩ by
    refine h _ ⟨rfl, fun _ _ _ hs => by cases hs⟩ fun ps fs bm hs => ⟨rfl, ?_⟩
    rintro _ _ _ ⟨⟩
    exact hs
  intro Q hnone hsome
  unfold readStateFile
  refine wp_sys_sound fun c hc => ?_
  simp only [Disk.serve, hc.2, Bool.false_eq_true, if_false]
  cases hs : d.sidecar path .state with
  | none => exact wp_alone_ret.mpr hnone
  | some sc =>
    cases sc with
    | state ps fs bm =>
      dsimp only
      split
      · exact wp_alone_ret.mpr hnone
      split
      · exact wp_alone_ret.mpr hnone
      refine wp_sys_sound fun c' hc' => ?_
      simp only [Disk.serve, hc'.2, Bool.false_eq_true, if_false, Bool.not_true]
      exact wp_alone_ret.mpr (hsome ps fs bm hs)
    | _ => exact wp_alone_ret.mpr hnone

end Sidecars

/-! ## Taking over a cache file -/

section Adopt

variable {α : Type} {a : Azure} {b : Blob} {d : Disk} {fd : Fd} {p : ObjsFile} {path : Path}
  {Q : α → World → Prop}

/-- The valid bits of a lazy session that finds none. -/
theorem wp_clearValid_sound {Q : ObjsFile → World → Prop} (hpage : LegalPageSize p.pageSize)
    (hsmall : pagesOf p.nData p.pageSize ≤ maxPages)
    (h : ∀ p', OnlyValid p p' → pagesOf p.nData p.pageSize ≤ 8 * p'.valid.nAlloc →
      (∀ k, p'.valid.bit k = false) → Q p' ⟨a, d⟩) :
    wp soundly (do
      let (valid, _) ← bitmapEnsureCapacity p.valid p.nData p.pageSize
      return { p with valid := bitmapClearAll valid }) Q ⟨a, d⟩ := by
  refine wp_bitmapEnsureCapacity_bind quiet_alone fun valid rc _ hrc hroom => ?_
  refine wp_alone_ret.mpr (h _ rfl ?_ fun k => ?_)
  · dsimp only
    rw [Bitmap.nAlloc_clearAll]
    exact room_of_bitmapSize hpage.pos hsmall (hroom (hrc allocates_sound))
  · dsimp only
    rw [Bitmap.bit_clearAll]

/-- The valid bits a lazy session finds: those of the sidecar, or none. -/
theorem wp_loadValid_sound {ps n : Nat} (hpage : LegalPageSize p.pageSize) (hps : p.pageSize = ps)
    (hn : p.nData = n) (hsmall : pagesOf n ps ≤ maxPages)
    (hstate : ∀ bm, d.sidecar path .state = some (.state ps n bm) → pagesOf n ps ≤ 8 * bm.length)
    {f : ObjsFile → Prog α}
    (h : ∀ p', OnlyValid p p' → (p.prefetchMode ≠ .none → p'.valid = p.valid) →
      (p.prefetchMode = .none → pagesOf n ps ≤ 8 * p'.valid.nAlloc ∧
        ∀ k, p'.valid.bit k = true → ∃ bm, d.sidecar path .state = some (.state ps n bm) ∧
          Bitmap.bit { data := bm, nSet := 0 } k = true) →
      wp soundly (f p') Q ⟨a, d⟩) :
    wp soundly (loadValid p path >>= f) Q ⟨a, d⟩ := by
  rw [wp_bind]
  unfold loadValid
  split
  · next hmode => exact wp_alone_ret.mpr (h p rfl (fun _ => rfl) fun hm => absurd hm hmode)
  next hlazy =>
  have hlazy : p.prefetchMode = .none := by simpa using hlazy
  have hclear : ∀ p', OnlyValid p p' → pagesOf p.nData p.pageSize ≤ 8 * p'.valid.nAlloc →
      (∀ k, p'.valid.bit k = false) → wp soundly (f p') Q ⟨a, d⟩ := by
    intro p' honly hroom hbits
    rw [hps, hn] at hroom
    exact h p' honly (fun hm => absurd hlazy hm) fun _ =>
      ⟨hroom, fun k hk => absurd hk (by rw [hbits]; exact Bool.false_ne_true)⟩
  have hpages : pagesOf p.nData p.pageSize ≤ maxPages := by rwa [hps, hn]
  refine wp_bind.mpr (wp_mono ?_ wp_readStateFile_sound)
  rintro st _ ⟨rfl, hst⟩
  split
  · exact wp_clearValid_sound hpage hpages hclear
  next ps' fs bm =>
  generalize (pageCount p.nData p.pageSize).toNat = nPg
  split
  · next heq =>
    obtain ⟨rfl, rfl⟩ : ps' = ps ∧ fs = n := ⟨heq.1.trans hps, heq.2.trans hn⟩
    have hs := hst _ _ bm rfl
    dsimp only
    generalize (List.filter _ _).length = nSet
    have hbit : ∀ k, Bitmap.bit { p.valid with data := bm, nSet := nSet } k =
        Bitmap.bit { data := bm, nSet := 0 } k := Bitmap.bit_congr rfl
    have hdone := h { p with valid := { p.valid with data := bm, nSet := nSet } } rfl
      (fun hm => absurd hlazy hm) fun _ =>
        ⟨hstate bm hs, fun k hk => ⟨bm, hs, by rw [← hbit]; exact hk⟩⟩
    exact wp_alone_ret.mpr hdone
  · exact wp_clearValid_sound hpage hpages hclear

/-- The record after a cache file was taken over for a content of `n` bytes. -/
structure Adopted (d : Disk) (path : Path) (fd : Fd) (C : Bytes) (p p' : ObjsFile) : Prop where
  only : OnlyCache p p'
  etag : p'.etag = p.etag
  cacheFd : p'.cacheFd = some fd
  zCachePath : p'.zCachePath = some path
  cacheReuse : p'.cacheReuse = true
  snapshot : p'.snapshot = d.snapshotAt path
  page : p'.pageSize = headerPageSize C p.pageSize
  nData : p'.nData = C.size
  eager : p.prefetchMode ≠ .none → p'.valid = p.valid
  valid : p.prefetchMode = .none → pagesOf C.size p'.pageSize ≤ 8 * p'.valid.nAlloc ∧
    ∀ k, p'.valid.bit k = true → ∃ bm, d.sidecar path .state = some (.state p'.pageSize C.size bm) ∧
      Bitmap.bit { data := bm, nSet := 0 } k = true

theorem wp_adoptCache_sound {C : Bytes} (hpage : LegalPageSize p.pageSize)
    (hsmall : pagesOf C.size (headerPageSize C p.pageSize) ≤ maxPages)
    (hheader : (d.inode fd).slice 0 100 = C.slice 0 100)
    (hstate : ∀ bm, d.sidecar path .state =
      some (.state (headerPageSize C p.pageSize) C.size bm) →
      pagesOf C.size (headerPageSize C p.pageSize) ≤ 8 * bm.length)
    {f : ObjsFile → Prog α}
    (h : ∀ p', Adopted d path fd C p p' → wp soundly (f p') Q ⟨a, d⟩) :
    wp soundly (adoptCache p path fd C.size >>= f) Q ⟨a, d⟩ := by
  rw [wp_bind]
  unfold adoptCache
  refine wp_fillFinish (p := { p with
    cacheFd := some fd, zCachePath := some path, cacheReuse := true, nData := C.size }) hpage rfl
    hsmall hheader fun p₁ honly he hn _ hps hlegal _ heager => ?_
  dsimp only
  refine wp_readSnapshotFile_sound ?_
  unfold OnlyContent at honly
  rw [← bind_pure (loadValid _ _)]
  refine wp_loadValid_sound (f := pure)
    (p := { p₁ with lastSyncedSize := p₁.nData, snapshot := d.snapshotAt path }) hlegal
    hps hn hsmall
    hstate fun p' hv heager' hvalid => wp_alone_ret.mpr (h p' ?_)
  have hps' : p'.pageSize = headerPageSize C p.pageSize := hv.pageSize.trans hps
  have hmode : p₁.prefetchMode = p.prefetchMode := by rw [honly]
  unfold OnlyValid at hv
  refine ⟨?_, ?_, ?_, ?_, ?_, ?_, hps', ?_, fun hm => ?_, ?_⟩
  · unfold OnlyCache
    rw [hv, honly]
  · rw [hv]
    exact he
  · rw [hv, honly]
  · rw [hv, honly]
  · rw [hv, honly]
  · rw [hv]
  · rw [hv]
    exact hn
  · exact (heager' fun h => hm (hmode.symm.trans h)).trans (heager hm)
  · intro hm
    rw [hps']
    exact hvalid (hmode.trans hm)

/-- A taken over file shows the content if the pages it counts hold the content. -/
theorem Adopted.image {C : Bytes} {p' : ObjsFile} (h : Adopted d path fd C p p')
    (hpage : LegalPageSize p.pageSize)
    (hsmall : pagesOf C.size (headerPageSize C p.pageSize) ≤ maxPages)
    (hsize : (d.inode fd).size = C.size)
    (hbytes : ∀ j, p'.Counts (j / p'.pageSize) → (d.inode fd).get j = C.get j) :
    Image p' (d.inode fd) C := by
  have honly := h.only
  unfold OnlyCache at honly
  refine ⟨by rw [h.page]; exact legalPageSize_header hpage, h.nData, hsize,
    by rw [h.page]; exact hsmall, hbytes, fun hm => (h.valid ?_).1⟩
  rw [honly] at hm
  exact hm

/-- The ETag of the sidecar matches and the file has the right size. -/
theorem wp_openReuse_adopt {n : Nat} (het : d.etagAt path = p.etag) (hne : p.etag ≠ none)
    (hdir : d.dir path = some fd) (hsize : (d.inode fd).size = n)
    {Q : Except Rc ObjsFile → World → Prop}
    (h : wp soundly (adoptCache p path fd n >>= fun p => pure (.ok p)) Q ⟨a, d⟩) :
    wp soundly (openReuse p path n) Q ⟨a, d⟩ := by
  unfold openReuse
  refine wp_readEtagFile_sound ?_
  rw [if_pos ⟨by rw [het]; exact hne, het⟩]
  refine wp_sys_sound fun c hc => ?_
  simp only [Disk.serve, hc.2, Bool.false_eq_true, if_false, hdir, Bool.not_true]
  refine wp_sys_sound fun c' hc' => ?_
  simp only [Disk.serve, hc'.2, Bool.false_eq_true, if_false, hsize, beq_self_eq_true,
    Bool.and_self, if_true]
  exact h

/-- Without a cache file one is made. -/
theorem wp_openReuse_fresh {n : Nat} (hdir : d.dir path = none) (hsnap : d.snapshotAt path = none)
    {Q : Except Rc ObjsFile → World → Prop}
    (h : wp soundly (cacheDownload { p with
      cacheFd := some d.nextInode, zCachePath := some path, cacheReuse := true } d.nextInode n) Q
      ⟨a, d.newFile path⟩) :
    wp soundly (openReuse p path n) Q ⟨a, d⟩ := by
  have hmismatch : wp soundly (openMismatch p path n) Q ⟨a, d⟩ := by
    unfold openMismatch
    dsimp only
    refine wp_readSnapshotFile_sound ?_
    rw [hsnap]
    unfold openFreshCache
    refine wp_bind.mpr (wp_sys_sound fun c hc => ?_)
    simp only [Disk.serve, hc.2, Bool.false_eq_true, if_false, hdir, Bool.not_true]
    exact wp_alone_ret.mpr h
  unfold openReuse
  refine wp_readEtagFile_sound ?_
  split
  · refine wp_sys_sound fun c hc => ?_
    simp only [Disk.serve, hc.2, Bool.false_eq_true, if_false, hdir, Bool.not_false, if_true]
    exact hmismatch
  · exact hmismatch

end Adopt

/-! ## What sessions keep -/

/-- The page size of a database with the content `C`. -/
def pageSizeOf (C : Bytes) : Nat := headerPageSize C defaultPageSize

theorem legalPageSize_of (C : Bytes) : LegalPageSize (pageSizeOf C) :=
  legalPageSize_header legalPageSize_default

/-- The disk of a blob with the content `C`: the cache file has the pages that were fetched,
and the sidecar marks no others. -/
structure Kept (path : Path) (C : Bytes) (fetched : Nat → Prop) (d : Disk) : Prop where
  snapshot : d.snapshotAt path = none
  state : ∀ bm, d.sidecar path .state = some (.state (pageSizeOf C) C.size bm) →
    pagesOf C.size (pageSizeOf C) ≤ 8 * bm.length ∧
      ∀ k, Bitmap.bit { data := bm, nSet := 0 } k = true → fetched k
  fresh : d.dir path = none → 0 < C.size → ∀ k, ¬ fetched k
  file : ∀ fd, d.dir path = some fd → 0 < C.size ∧ (d.inode fd).size = C.size ∧ fetched 0 ∧
    ∀ j, fetched (j / pageSizeOf C) → (d.inode fd).get j = C.get j

/-- An open file of the blob, in its cache file or, when the blob is empty, in one with a
random name. -/
structure InUse (i : BlobId) (path : Path) (b : Blob) (p : ObjsFile) (d : Disk) : Prop where
  kind : p.eFileType = .mainDb
  ops : p.ops.Complete
  blob : p.blob = i
  lease : p.leaseId = none
  etag : p.etag = some b.etag
  snapshot : p.snapshot = none
  clean : p.dirty.nSet = 0 ∧ bitmapHasAny p.dirty = false
  page : p.pageSize = pageSizeOf b.content
  eager : p.prefetchMode ≠ .none → p.valid.data = []
  cache : ∃ fd, p.cacheFd = some fd ∧ Image p (d.inode fd) b.content ∧
    (p.cacheReuse = true ∧ p.zCachePath = some path ∧ d.dir path = some fd ∨
      p.cacheReuse = false ∧ d.dir path = none ∧ b.content.size = 0 ∧
        ∃ q, q ≠ path ∧ p.zCachePath = some q)

/-! ### Closing -/

theorem Disk.setSidecar_setSidecar (d : Disk) (path : Path) (ext : Ext) (s t : Option Sidecar) :
    (d.setSidecar path ext s).setSidecar path ext t = d.setSidecar path ext t := by
  unfold Disk.setSidecar
  congr 1
  funext q e
  split
  · rfl
  · next h => exact if_neg h

theorem bitmapHasAny_clearAll (bm : Bitmap) : bitmapHasAny (bitmapClearAll bm) = false := by
  simp [bitmapHasAny, bitmapClearAll]

section Close

variable {α : Type} {a : Azure} {b : Blob} {d : Disk} {fd : Fd} {p : ObjsFile} {path : Path}
  {i : BlobId}

theorem wp_writeEtagFile_sound {e : ETag} {f : Unit → Prog α} {Q : α → World → Prop}
    (h : wp soundly (f ()) Q ⟨a, d.setSidecar path .etag (some (.etag e))⟩) :
    wp soundly (writeEtagFile path (some e) >>= f) Q ⟨a, d⟩ := by
  rw [wp_bind]
  unfold writeEtagFile
  refine wp_sys_sound fun c hc => ?_
  simp only [Disk.serve, hc.2, Bool.false_eq_true, if_false, Bool.not_true]
  refine wp_sys_sound fun c₁ hc₁ => ?_
  simp only [Disk.serve, hc₁.2, Bool.false_eq_true, if_false, Bool.not_true]
  refine wp_sys_sound fun c₂ hc₂ => ?_
  simp only [Disk.serve, hc₂.2, Bool.false_eq_true, if_false, Disk.setSidecar_setSidecar]
  exact wp_alone_ret.mpr h

/-- The marks are saved, if there are any. -/
theorem wp_writeStateFile_sound {ps n : Nat} {bm : List UInt8} {f : Unit → Prog α}
    {Q : α → World → Prop} (hnone : wp soundly (f ()) Q ⟨a, d⟩)
    (hsome : bm ≠ [] → wp soundly (f ()) Q ⟨a, d.setSidecar path .state (some (.state ps n bm))⟩) :
    wp soundly (writeStateFile path ps n bm >>= f) Q ⟨a, d⟩ := by
  rw [wp_bind]
  unfold writeStateFile
  split
  · exact wp_alone_ret.mpr hnone
  next hbm =>
  refine wp_sys_sound fun c hc => ?_
  simp only [Disk.serve, hc.2, Bool.false_eq_true, if_false, Bool.not_true]
  refine wp_sys_sound fun c₁ hc₁ => ?_
  simp only [Disk.serve, hc₁.2, Bool.false_eq_true, if_false]
  exact wp_alone_ret.mpr (hsome hbm)

theorem wp_closeRefreshEtag_sound (hb : a.blobs p.blob = some b) (het : p.etag = some b.etag)
    {f : ObjsFile → Prog α} {Q : α → World → Prop} (h : wp soundly (f p) Q ⟨a, d⟩) :
    wp soundly (closeRefreshEtag p .ok >>= f) Q ⟨a, d⟩ := by
  have hsame : { p with etag := some b.etag } = p := by rw [← het]
  rw [wp_bind]
  unfold closeRefreshEtag
  split
  · refine wp_azBlobGetProperties_sound hb fun x hx hxe _ => ?_
    rw [if_pos ⟨hx, by rw [hxe]; simp⟩, hxe, hsame]
    exact wp_alone_ret.mpr h
  · exact wp_alone_ret.mpr h

theorem Kept.congr {C : Bytes} {fetched : Nat → Prop} {d' : Disk} (h : Kept path C fetched d)
    (hinode : d'.inode = d.inode) (hdir : d'.dir path = d.dir path)
    (hside : ∀ ext, ext ≠ .etag → d'.sidecar path ext = d.sidecar path ext) :
    Kept path C fetched d' := by
  refine ⟨?_, fun bm hs => ?_, by rw [hdir]; exact h.fresh, by rw [hdir, hinode]; exact h.file⟩
  · unfold Disk.snapshotAt
    rw [hside .snapshot (by decide)]
    exact h.snapshot
  · rw [hside .state (by decide)] at hs
    exact h.state bm hs

/-- Closing a file that was only read leaves the cache file with the marks it had. -/
theorem InUse.wp_close (h : InUse i path b p d) (hb : a.blobs i = some b) {fetched : Nat → Prop}
    (hk : Kept path b.content fetched d) (hc : ∀ k, p.Counts k → fetched k) (v : VfsData) :
    wp soundly (sqliteObjsClose v p) (fun _ w' => w'.azure = a ∧
      Kept path b.content fetched w'.disk ∧
      ∀ fd, w'.disk.dir path = some fd → w'.disk.etagAt path = some b.etag) ⟨a, d⟩ := by
  obtain ⟨fd, hfd, himg, hhome⟩ := h.cache
  unfold sqliteObjsClose closeFlush
  rw [if_neg (by simp [h.clean.1]), if_neg (by simp [h.kind])]
  show wp soundly (closeRefreshEtag p .ok >>= _) _ _
  refine wp_closeRefreshEtag_sound (by rw [h.blob]; exact hb) h.etag ?_
  have hlease : closeReleaseLease p = pure p := by
    unfold closeReleaseLease
    rw [h.lease]
    cases p.ops.leaseRelease <;> rfl
  rw [hlease, pure_bind, wp_bind]
  unfold closeCacheFd
  rw [hfd]
  refine wp_sys_sound fun c _ => wp_alone_ret.mpr (wp_bind.mpr ?_)
  show wp soundly _ _ ⟨a, d⟩
  unfold closeCache
  rcases hhome with ⟨hreuse, hpath, hdir⟩ | ⟨hreuse, hdir, -, q, hq, hpath⟩
  · simp only [hpath, hreuse, h.etag, h.clean.2, h.snapshot]
    rw [if_pos (by simp)]
    have hlast : ∀ (q : ObjsFile) (d' : Disk), Kept path b.content fetched d' → wp soundly (do
        writeEtagFile path (some b.etag)
        writeSnapshotFile path none
        return q)
        (fun _ w => wp soundly (.ret (v, Rc.ok)) (fun _ w' => w'.azure = a ∧
          Kept path b.content fetched w'.disk ∧
          ∀ fd, w'.disk.dir path = some fd → w'.disk.etagAt path = some b.etag) w) ⟨a, d'⟩ := by
      intro q d' hk'
      refine wp_writeEtagFile_sound (wp_alone_ret.mpr (wp_alone_ret.mpr ⟨rfl, ?_, fun fd _ => ?_⟩))
      · exact hk'.congr rfl rfl fun ext hext => by simp [Disk.setSidecar, hext]
      · simp [Disk.etagAt, Disk.setSidecar]
    refine wp_writeStateFile_sound (hlast _ d hk) fun hbm => hlast _ _ ?_
    have hlazy : p.prefetchMode = .none := by
      by_contra hm
      exact hbm (h.eager hm)
    have hsnap : (d.setSidecar path .state
        (some (.state p.pageSize p.nData p.valid.data))).snapshotAt path = d.snapshotAt path := by
      simp [Disk.snapshotAt, Disk.setSidecar]
    refine ⟨hsnap.trans hk.snapshot, fun bm hs => ?_, hk.fresh, hk.file⟩
    obtain rfl : p.valid.data = bm := by
      simp only [Disk.setSidecar, and_self, if_true] at hs
      injection hs with hs
      injection hs
    refine ⟨?_, fun k hbit => hc k fun _ => ?_⟩
    · rw [← h.page]
      exact himg.room hlazy
    · have hsame : Bitmap.bit { data := p.valid.data, nSet := 0 } k = p.valid.bit k :=
        Bitmap.bit_congr rfl k
      rw [← hsame]
      exact hbit
  · simp only [hpath, hreuse]
    rw [if_neg (by simp)]
    unfold unlinkCache
    refine wp_bind.mpr (wp_sys_sound fun c₁ _ => wp_sys_sound fun c₂ _ => wp_sys_sound fun c₃ _ =>
      wp_sys_sound fun c₄ _ => wp_alone_ret.mpr (wp_alone_ret.mpr (wp_alone_ret.mpr ?_)))
    simp only [Disk.serve]
    refine ⟨trivial, hk.congr rfl ?_ fun ext _ => ?_, fun fd hd => ?_⟩
    · simp [Disk.setSidecar, hq.symm]
    · simp [Disk.setSidecar, hq.symm]
    · simp [Disk.setSidecar, hq.symm, hdir] at hd

end Close

/-! ### Calls on the open file -/

section Steps

variable {a : Azure} {b : Blob} {d : Disk} {fd : Fd} {p p' : ObjsFile} {path : Path} {i : BlobId}
  {fetched : Nat → Prop}

/-- The calls of a reader set marks, counters and the lock. -/
def OnlyReading (p p' : ObjsFile) : Prop :=
  p' = { p with
    valid := p'.valid, readsSinceSharedLock := p'.readsSinceSharedLock, eLock := p'.eLock }

/-- A reader's call: the file shows the content, and the cache file has what it had. -/
structure ReadStep (C : Bytes) (fd : Fd) (p p' : ObjsFile) (w w' : World) : Prop where
  only : OnlyReading p p'
  eager : p.prefetchMode ≠ .none → p'.valid = p.valid
  image : ∃ f, w' = ⟨w.azure, w.disk.setInode fd f⟩ ∧ Image p' f C ∧ Closer C (w.disk.inode fd) f

theorem InUse.step {w' : World} (h : InUse i path b p d) (hfd : p.cacheFd = some fd)
    (hs : ReadStep b.content fd p p' ⟨a, d⟩ w') : InUse i path b p' w'.disk := by
  obtain ⟨f, rfl, himg, -⟩ := hs.image
  obtain ⟨fd₀, hfd₀, -, hhome⟩ := h.cache
  obtain rfl := Option.some.inj (hfd.symm.trans hfd₀)
  have honly := hs.only
  unfold OnlyReading at honly
  refine ⟨by rw [honly]; exact h.kind, by rw [honly]; exact h.ops, ?_, by rw [honly]; exact h.lease,
    by rw [honly]; exact h.etag, by rw [honly]; exact h.snapshot, by rw [honly]; exact h.clean,
    by rw [honly]; exact h.page, fun hm => ?_, fd, by rw [honly]; exact hfd, ?_, ?_⟩
  · rw [honly]
    exact h.blob
  · have hm : p.prefetchMode ≠ .none := by rwa [honly] at hm
    rw [hs.eager hm]
    exact h.eager hm
  · rw [Disk.setInode_inode_self]
    exact himg
  · rw [honly]
    exact hhome

theorem Kept.step {w' : World} (h : Kept path b.content fetched d) (hu : InUse i path b p d)
    (hfd : p.cacheFd = some fd) (hs : ReadStep b.content fd p p' ⟨a, d⟩ w') :
    Kept path b.content (fun k => fetched k ∨ p'.Counts k) w'.disk := by
  obtain ⟨f, rfl, himg, hcl⟩ := hs.image
  obtain ⟨fd₀, hfd₀, -, hhome⟩ := hu.cache
  obtain rfl := Option.some.inj (hfd.symm.trans hfd₀)
  have hps : p'.pageSize = pageSizeOf b.content := by
    have honly := hs.only
    unfold OnlyReading at honly
    rw [honly]
    exact hu.page
  refine ⟨h.snapshot, fun bm hbm => ?_, fun hdir hpos => ?_, fun fd' hdir => ?_⟩
  · obtain ⟨hroom, hbits⟩ := h.state bm hbm
    exact ⟨hroom, fun k hk => Or.inl (hbits k hk)⟩
  · rcases hhome with ⟨-, -, hdir'⟩ | ⟨-, -, h0, -⟩
    · exact absurd (hdir.symm.trans hdir') (by simp)
    · omega
  · have hdir : d.dir path = some fd' := hdir
    rcases hhome with ⟨-, -, hdir'⟩ | ⟨-, hdir', -⟩
    · obtain rfl := Option.some.inj (hdir.symm.trans hdir')
      obtain ⟨hpos, hsize, hzero, hget⟩ := h.file fd' hdir
      dsimp only
      rw [Disk.setInode_inode_self]
      refine ⟨hpos, himg.cacheSize, Or.inl hzero, fun j hj => ?_⟩
      rcases hj with hj | hj
      · exact hcl j (hget j hj)
      · rw [← hps] at hj
        exact himg.bytes j hj
    · exact absurd (hdir.symm.trans hdir') (by simp)

theorem InUse.read (h : InUse i path b p d) : p.ops.pageBlobRead = true := by rw [h.ops]; rfl

/-- In eager mode a read sets no marks. -/
theorem returns_mainDbRead_eager {A : (r : Req) → Ans r → Prop} (hm : p.prefetchMode ≠ .none)
    (iAmt iOfst : Nat) : Returns A (fun r => r.1.valid = p.valid) (mainDbRead p iAmt iOfst) := by
  unfold mainDbRead
  generalize hq : (if LockLevel.shared.rank ≤ p.eLock.rank then
    { p with readsSinceSharedLock := cInt (p.readsSinceSharedLock + 1) } else p) = q
  have hv : q.valid = p.valid ∧ q.prefetchMode = p.prefetchMode := by
    rw [← hq]
    split <;> exact ⟨rfl, rfl⟩
  have hfetch : fetchForRead q iAmt iOfst = pure (q, .ok) := by
    unfold fetchForRead
    rw [if_neg fun h => hm (hv.2.symm.trans h.1)]
  dsimp only
  rw [hfetch]
  split
  · exact hv.1
  refine .ite hv.1 (Returns.bind (returns_ret.mpr (show _ = (q, Rc.ok) from rfl)) ?_)
  rintro _ rfl
  refine .ite hv.1 (.ite hv.1 fun x _ => ?_)
  exact .ite hv.1 (.ite hv.1 (.ite hv.1 hv.1))

/-- A read returns the blob's bytes. -/
theorem InUse.wp_read (h : InUse i path b p d) (hb : a.blobs i = some b) (hfd : p.cacheFd = some fd)
    {iAmt : Nat} (hpos : 0 < iAmt) (iOfst : Nat) :
    wp soundly (sqliteObjsRead p iAmt iOfst) (fun r w' => r.2 = readOf b.content iAmt iOfst ∧
      ReadStep b.content fd p r.1 ⟨a, d⟩ w') ⟨a, d⟩ := by
  obtain ⟨fd₀, hfd₀, himg, -⟩ := h.cache
  obtain rfl := Option.some.inj (hfd.symm.trans hfd₀)
  unfold sqliteObjsRead
  rw [h.kind]
  have heager : wp soundly (mainDbRead p iAmt iOfst)
      (fun r _ => p.prefetchMode ≠ .none → r.1.valid = p.valid) ⟨a, d⟩ := by
    by_cases hm : p.prefetchMode = .none
    · exact wp_alone_iff.mpr fun _ _ _ hm' => absurd hm hm'
    · refine wp_mono (fun r _ hr _ => hr) ((returns_mainDbRead_eager (A := fun _ _ => True) hm
        iAmt iOfst).wp_alone fun _ _ _ _ _ => trivial)
  refine wp_mono ?_ (wp_and (himg.wp_mainDbRead (a := a) (by rw [h.blob]; exact hb) h.read hfd hpos
    iOfst) heager)
  rintro r w' ⟨⟨hres, honly, -, f, rfl, himg', hcl⟩, hv⟩
  refine ⟨hres, ?_, hv, f, rfl, himg', hcl⟩
  unfold OnlyRead at honly
  unfold OnlyReading
  rw [honly]

theorem InUse.wp_prefetch (h : InUse i path b p d) (hb : a.blobs i = some b)
    (hfd : p.cacheFd = some fd) :
    wp soundly (fileControlPrefetch p)
      (fun r w' => ReadStep b.content fd p r.1 ⟨a, d⟩ w') ⟨a, d⟩ := by
  obtain ⟨fd₀, hfd₀, himg, -⟩ := h.cache
  obtain rfl := Option.some.inj (hfd.symm.trans hfd₀)
  by_cases hm : p.prefetchMode = .none
  · refine wp_mono ?_ (wp_fileControlPrefetch_sound h.read hfd)
    rintro r _ ⟨honly, f, rfl, hkeep⟩
    obtain ⟨-, himg', -, hcl⟩ := hkeep b (by rw [h.blob]; exact hb) himg
    refine ⟨?_, fun hm' => absurd hm hm', f, rfl, himg', hcl⟩
    unfold OnlyValid at honly
    unfold OnlyReading
    rw [honly]
  · unfold fileControlPrefetch
    rw [if_neg fun hc => hm hc.1]
    exact wp_alone_ret.mpr ⟨rfl, fun _ => rfl, _, by rw [Disk.setInode_self], himg, fun _ => id⟩

/-- The ETag is the blob's: taking `SHARED` downloads nothing. -/
theorem InUse.wp_lock (h : InUse i path b p d) (hb : a.blobs i = some b)
    (hfd : p.cacheFd = some fd) :
    wp soundly (sqliteObjsLock p .shared)
      (fun r w' => ReadStep b.content fd p r.1 ⟨a, d⟩ w') ⟨a, d⟩ := by
  obtain ⟨fd₀, hfd₀, himg, -⟩ := h.cache
  obtain rfl := Option.some.inj (hfd.symm.trans hfd₀)
  have hprops : p.ops.blobGetProperties = true := by rw [h.ops]; rfl
  have hstay : ∀ q : ObjsFile, OnlyReading p q → q.valid = p.valid →
      ReadStep b.content fd p q ⟨a, d⟩ ⟨a, d⟩ := by
    intro q hq hv
    refine ⟨hq, fun _ => hv, _, by rw [Disk.setInode_self], ?_, fun _ => id⟩
    unfold OnlyReading at hq
    exact himg.congr (by rw [hq]) (by rw [hq]) hv (by rw [hq])
  unfold sqliteObjsLock
  split
  · exact wp_alone_ret.mpr (hstay p rfl rfl)
  rw [if_pos rfl, wp_bind]
  unfold revalidateBeforeRead
  rw [if_neg (by simp [h.kind]), if_neg (by simp [hfd]), if_neg (by simp [h.etag]),
    if_neg (by simp [hprops])]
  refine wp_azBlobGetProperties_sound (b := b) (by rw [← h.blob] at hb; exact hb)
    fun x hx het _ => ?_
  rw [if_neg (by simpa using hx), if_pos (Or.inr (h.etag.trans het.symm))]
  refine wp_alone_ret.mpr ?_
  dsimp only
  rw [if_neg (by simp)]
  exact wp_alone_ret.mpr (hstay _ rfl rfl)

theorem InUse.wp_unlock (h : InUse i path b p d) (hfd : p.cacheFd = some fd) (eLock : LockLevel) :
    wp soundly (sqliteObjsUnlock p eLock)
      (fun r w' => ReadStep b.content fd p r.1 ⟨a, d⟩ w') ⟨a, d⟩ := by
  obtain ⟨fd₀, hfd₀, himg, -⟩ := h.cache
  obtain rfl := Option.some.inj (hfd.symm.trans hfd₀)
  unfold sqliteObjsUnlock
  split
  · exact wp_alone_ret.mpr ⟨rfl, fun _ => rfl, _, by rw [Disk.setInode_self], himg, fun _ => id⟩
  rw [if_neg (by simp [h.lease])]
  exact wp_alone_ret.mpr ⟨rfl, fun _ => rfl, _, by rw [Disk.setInode_self],
    himg.congr rfl rfl rfl rfl, fun _ => id⟩

end Steps

/-! ### Opening -/

section Open

variable {a : Azure} {b : Blob} {d : Disk} {fd : Fd} {p p' : ObjsFile} {path : Path} {i : BlobId}
  {fetched : Nat → Prop}

/-- What an opened file is like before it has a cache file. -/
structure Blank (i : BlobId) (b : Blob) (p : ObjsFile) : Prop where
  kind : p.eFileType = .mainDb
  ops : p.ops.Complete
  blob : p.blob = i
  lease : p.leaseId = none
  etag : p.etag = some b.etag
  snapshot : p.snapshot = none
  page : p.pageSize = defaultPageSize
  valid : p.valid = .null
  reuse : p.cacheReuse = false

/-- The fields a cache file does not set. -/
theorem Blank.inUse {q : ObjsFile} (h : Blank i b p) (honly : OnlyCache p q)
    (het : q.etag = some b.etag) (hsnap : q.snapshot = none)
    (hps : q.pageSize = pageSizeOf b.content) (hv : p.prefetchMode ≠ .none → q.valid = p.valid)
    (hcache : ∃ fd, q.cacheFd = some fd ∧ Image q (d.inode fd) b.content ∧
      (q.cacheReuse = true ∧ q.zCachePath = some path ∧ d.dir path = some fd ∨
        q.cacheReuse = false ∧ d.dir path = none ∧ b.content.size = 0 ∧
          ∃ r, r ≠ path ∧ q.zCachePath = some r)) :
    InUse i path b { q with dirty := bitmapClearAll q.dirty } d := by
  unfold OnlyCache at honly
  obtain ⟨fd, hfd, himg, hhome⟩ := hcache
  refine ⟨?_, ?_, ?_, ?_, het, hsnap, ⟨rfl, bitmapHasAny_clearAll _⟩, hps, fun hm => ?_, fd, hfd,
    himg.congr rfl rfl rfl rfl, hhome⟩
  · dsimp only
    rw [honly]
    exact h.kind
  · dsimp only
    rw [honly]
    exact h.ops
  · rw [honly]
    exact h.blob
  · dsimp only
    rw [honly]
    exact h.lease
  · have hm : p.prefetchMode ≠ .none := by
      dsimp only at hm
      rwa [honly] at hm
    dsimp only
    rw [hv hm, h.valid]
    rfl

/-- The outcome of opening a file. -/
def Opened (i : BlobId) (path : Path) (b : Blob) (fetched : Nat → Prop) (p : ObjsFile) (d : Disk) :
    Prop :=
  InUse i path b { p with dirty := bitmapClearAll p.dirty } d ∧
    Kept path b.content (fun k => fetched k ∨ p.Counts k) d

/-- The blob has bytes and there is no cache file. -/
theorem Blank.opened_fresh {w' : World} (h : Blank i b p) (hk : Kept path b.content fetched d)
    (hpos : 0 < b.content.size) (hdir : d.dir path = none)
    (hf : FirstFilled a (d.newFile path) d.nextInode b.content
      { p with cacheFd := some d.nextInode, zCachePath := some path, cacheReuse := true } p' w') :
    w'.azure = a ∧ Opened i path b fetched p' w'.disk := by
  obtain ⟨f, rfl, himg⟩ := hf.image
  have honly := hf.only
  unfold OnlyContent at honly
  have hps : p'.pageSize = pageSizeOf b.content := by
    rw [hf.page]
    show headerPageSize b.content p.pageSize = _
    rw [h.page]
    rfl
  have hdir' : ((d.newFile path).setInode d.nextInode f).dir path = some d.nextInode := by
    simp [Disk.setInode, Disk.newFile]
  refine ⟨rfl, h.inUse ?_ (hf.etag.trans h.etag) (hf.snapshot.trans h.snapshot) hps hf.eager
    ⟨d.nextInode, by rw [honly], ?_, Or.inl ⟨by rw [honly], by rw [honly], hdir'⟩⟩, ?_⟩
  · unfold OnlyCache
    rw [honly]
  · rw [Disk.setInode_inode_self]
    exact himg
  refine ⟨hk.snapshot, fun bm hs => ?_, fun hn => absurd (hdir'.symm.trans hn) (by simp),
    fun fd hfd => ?_⟩
  · obtain ⟨hroom, hbits⟩ := hk.state bm hs
    exact ⟨hroom, fun k hk' => Or.inl (hbits k hk')⟩
  · obtain rfl := Option.some.inj (hdir'.symm.trans hfd)
    dsimp only
    rw [Disk.setInode_inode_self]
    refine ⟨hpos, himg.cacheSize, Or.inr (hf.first hpos), fun j hj => ?_⟩
    rcases hj with hj | hj
    · exact absurd hj (hk.fresh hdir hpos _)
    · rw [← hps] at hj
      exact himg.bytes j hj

/-- A cache file was there, and in eager mode it has every page. -/
theorem Blank.opened_adopted (h : Blank i b p) (hk : Kept path b.content fetched d)
    (hsmall : pagesOf b.content.size (pageSizeOf b.content) ≤ maxPages)
    (hdir : d.dir path = some fd)
    (hwhole : p.prefetchMode ≠ .none →
      ∀ k, k < pagesOf b.content.size (pageSizeOf b.content) → fetched k)
    (ha : Adopted d path fd b.content p p') : Opened i path b fetched p' d := by
  obtain ⟨hpos, hsize, hzero, hget⟩ := hk.file fd hdir
  have hps : p'.pageSize = pageSizeOf b.content := by
    rw [ha.page, h.page]
    rfl
  have hmode : p'.prefetchMode = p.prefetchMode := by
    have honly := ha.only
    unfold OnlyCache at honly
    rw [honly]
  have hbytes : ∀ j, p'.Counts (j / p'.pageSize) → (d.inode fd).get j = b.content.get j := by
    intro j hj
    by_cases hm : p.prefetchMode = .none
    · obtain ⟨bm, hbm, hbit⟩ := (ha.valid hm).2 _ (hj (hmode.trans hm))
      rw [hps] at hbm hbit
      exact hget j ((hk.state bm hbm).2 _ hbit)
    · by_cases hjs : j < b.content.size
      · exact hget j (hwhole hm _ (div_lt_pagesOf (legalPageSize_of _).pos hjs))
      · rw [(d.inode fd).get_past j (by omega), b.content.get_past j (by omega)]
  have himg : Image p' (d.inode fd) b.content :=
    ha.image (by rw [h.page]; exact legalPageSize_default) (by rw [h.page]; exact hsmall)
    hsize hbytes
  refine ⟨h.inUse ha.only (ha.etag.trans h.etag) (ha.snapshot.trans hk.snapshot) hps ha.eager
    ⟨fd, ha.cacheFd, himg, Or.inl ⟨ha.cacheReuse, ha.zCachePath, hdir⟩⟩, hk.snapshot, ?_, ?_, ?_⟩
  · intro bm hs
    obtain ⟨hroom, hbits⟩ := hk.state bm hs
    exact ⟨hroom, fun k hk' => Or.inl (hbits k hk')⟩
  · exact fun hn => absurd (hdir.symm.trans hn) (by simp)
  · intro fd' hfd'
    obtain rfl := Option.some.inj (hdir.symm.trans hfd')
    refine ⟨hpos, hsize, Or.inl hzero, fun j hj => ?_⟩
    rcases hj with hj | hj
    · exact hget j hj
    · rw [← hps] at hj
      exact hbytes j hj

/-- The blob is empty: the cache file has a random name. -/
theorem Blank.opened_temp {w' : World} {dir : String} {n : Nat} (h : Blank i b p)
    (hk : Kept path b.content fetched d) (h0 : b.content.size = 0) (hdir : d.dir path = none)
    (hpath : Path.temp dir n ≠ path)
    (hf : FirstFilled a (d.newFile (.temp dir n)) d.nextInode b.content
      { p with cacheFd := some d.nextInode, zCachePath := some (.temp dir n) } p' w') :
    w'.azure = a ∧ Opened i path b fetched p' w'.disk := by
  obtain ⟨f, rfl, himg⟩ := hf.image
  have honly := hf.only
  unfold OnlyContent at honly
  have hps : p'.pageSize = pageSizeOf b.content := by
    rw [hf.page]
    show headerPageSize b.content p.pageSize = _
    rw [h.page]
    rfl
  have hdir' : ((d.newFile (.temp dir n)).setInode d.nextInode f).dir path = none := by
    simp [Disk.setInode, Disk.newFile, hpath.symm, hdir]
  refine ⟨rfl, h.inUse ?_ (hf.etag.trans h.etag) (hf.snapshot.trans h.snapshot) hps hf.eager
    ⟨d.nextInode, by rw [honly], ?_, Or.inr ⟨?_, hdir', h0, _, hpath, by rw [honly]⟩⟩, ?_⟩
  · unfold OnlyCache
    rw [honly]
  · rw [Disk.setInode_inode_self]
    exact himg
  · rw [honly]
    exact h.reuse
  refine ⟨hk.snapshot, fun bm hs => ?_, fun _ hpos => absurd hpos (by omega),
    fun fd hfd => absurd (hdir'.symm.trans hfd) (by simp)⟩
  obtain ⟨hroom, hbits⟩ := hk.state bm hs
  exact ⟨hroom, fun k hk' => Or.inl (hbits k hk')⟩

/-- `xOpen` with cache reuse, after sessions that left `d`. -/
theorem wp_open_reuse {v : VfsData} {name : String} {uri : UriParams} {create : Bool}
    {ops : AzureOps} {ctx : Nat} (hreuse : uri.cacheReuse = true)
    (hsel : selectedOps v uri = some (ops, ctx)) (hops : ops.Complete)
    (hb : a.blobs ⟨ctx, name⟩ = some b)
    (hsmall : pagesOf b.content.size (pageSizeOf b.content) ≤ maxPages)
    (hk : Kept (cachePathOf uri name) b.content fetched d)
    (hclosed : ∀ fd, d.dir (cachePathOf uri name) = some fd →
      d.etagAt (cachePathOf uri name) = some b.etag)
    (hwhole : uri.prefetch ≠ .none → d.dir (cachePathOf uri name) = none ∨
      ∀ k, k < pagesOf b.content.size (pageSizeOf b.content) → fetched k) :
    wp soundly (sqliteObjsOpen v name uri .mainDb create) (fun r w' =>
      (∃ rc, r.2 = .error rc ∧ w' = ⟨a, d⟩) ∨
      ∃ q, r.2 = .ok { q with dirty := bitmapClearAll q.dirty } ∧ w'.azure = a ∧
        Opened ⟨ctx, name⟩ (cachePathOf uri name) b fetched q w'.disk) ⟨a, d⟩ := by
  refine wp_sqliteObjsOpen_mainDb quiet_alone (fun _ => stable_alone) ?_ ?_
  · exact fun rc => Or.inl ⟨rc, rfl, rfl⟩
  intro ops' ctx' hsel'
  obtain ⟨rfl, rfl⟩ : ops = ops' ∧ ctx = ctx' := by
    rw [hsel] at hsel'
    exact Prod.mk.inj (Option.some.inj hsel')
  have hblob : a.blobs (newFile ops ctx name uri .mainDb).blob = some b := hb
  have hex : ops.blobExists = true := by rw [hops]; rfl
  have hprops : (newFile ops ctx name uri .mainDb).ops.blobGetProperties = true := by
    show ops.blobGetProperties = true
    rw [hops]
    rfl
  unfold openMainDb checkExists
  rw [if_pos (show (newFile ops ctx name uri .mainDb).ops.blobExists = true from hex)]
  refine wp_azBlobExists_bind (fun c hc => hc.1) ?_
  rw [hblob]
  dsimp only
  rw [if_neg (by simp), if_pos (by simpa using hprops)]
  unfold openExisting
  refine wp_azBlobGetProperties_sound hblob fun x hx het hsize => ?_
  rw [if_neg (by simpa using hx), het, hsize]
  dsimp only
  have hblank : Blank ⟨ctx, name⟩ b { newFile ops ctx name uri .mainDb with etag := some b.etag } :=
    ⟨rfl, hops, rfl, rfl, rfl, rfl, rfl, rfl, rfl⟩
  have hpage : LegalPageSize
      ({ newFile ops ctx name uri .mainDb with etag := some b.etag } : ObjsFile).pageSize :=
    legalPageSize_default
  have hdone : ∀ (q : ObjsFile) (w' : World),
      w'.azure = a ∧ Opened ⟨ctx, name⟩ (cachePathOf uri name) b fetched q w'.disk →
      wp soundly (.ret (v, (Except.ok q : Except Rc ObjsFile).map fun p =>
        { p with dirty := bitmapClearAll p.dirty })) (fun r w' =>
        (∃ rc, r.2 = .error rc ∧ w' = ⟨a, d⟩) ∨
        ∃ q, r.2 = .ok { q with dirty := bitmapClearAll q.dirty } ∧ w'.azure = a ∧
          Opened ⟨ctx, name⟩ (cachePathOf uri name) b fetched q w'.disk) w' :=
    fun q w' h => wp_alone_ret.mpr (Or.inr ⟨q, rfl, h.1, h.2⟩)
  split
  · next hpos =>
    unfold buildCachePath
    refine wp_bind.mpr (wp_sys_sound fun c hc => ?_)
    simp only [Disk.serve, hc.2, Bool.false_eq_true, if_false, if_true]
    refine wp_alone_ret.mpr ?_
    show wp soundly (openReuse _ (cachePathOf uri name) b.content.size) _ _
    cases hdir : d.dir (cachePathOf uri name) with
    | none =>
      refine wp_openReuse_fresh hdir hk.snapshot (wp_mono ?_ (wp_cacheDownload_sound (p := {
        newFile ops ctx name uri .mainDb with
          etag := some b.etag
          cacheFd := some d.nextInode
          zCachePath := some (cachePathOf uri name)
          cacheReuse := true }) hb hpage hsmall (d.newFile_inode _)))
      rintro _ w' ⟨q, rfl, hf⟩
      exact hdone q w' (hblank.opened_fresh hk hpos.2 hdir hf)
    | some fd =>
      obtain ⟨-, hs, hzero, hget⟩ := hk.file fd hdir
      have hheader : (d.inode fd).slice 0 100 = b.content.slice 0 100 := by
        refine SparseFile.ext (by simp only [SparseFile.slice_size, hs]) fun j => ?_
        rw [SparseFile.slice_get, SparseFile.slice_get, hs]
        split
        · next hj =>
          -- the header is in the first page
          refine hget _ ?_
          have := (legalPageSize_of b.content).1
          rw [Nat.div_eq_of_lt (by omega)]
          exact hzero
        · rfl
      refine wp_openReuse_adopt (hclosed fd hdir) (by simp) hdir hs
        (wp_adoptCache_sound hpage hsmall hheader (fun bm hbm => (hk.state bm hbm).1) ?_)
      intro q hq
      refine wp_alone_ret.mpr (hdone q _ ⟨rfl, hblank.opened_adopted hk hsmall hdir ?_ hq⟩)
      intro hm
      rcases hwhole hm with hn | hall
      · exact absurd (hdir.symm.trans hn) (by simp)
      · exact hall
  · next hzero =>
    have h0 : b.content.size = 0 := by
      by_contra hne
      exact hzero ⟨hreuse, by omega⟩
    have hdir : d.dir (cachePathOf uri name) = none := by
      cases hdir : d.dir (cachePathOf uri name) with
      | none => rfl
      | some fd => exact absurd (hk.file fd hdir).1 (by omega)
    refine wp_mono ?_ (wp_openTemp_sound
      (p := { newFile ops ctx name uri .mainDb with etag := some b.etag }) hb hpage hsmall)
    rintro _ w' ⟨q, n, rfl, hf⟩
    exact hdone q w' (hblank.opened_temp hk h0 hdir (by simp [cachePathOf]) hf)

end Open

/-! ## Sessions -/

/-- The file of the running session, and the pages of the cache file that some session has
downloaded. -/
structure Sessions where
  file : Option ObjsFile := none
  fetched : Nat → Prop := fun _ => False

/-- The calls of a session that only reads. -/
inductive SessionCall
  | xOpen (m : PrefetchMode)
  | lock
  | unlock (eLock : LockLevel)
  | read (iAmt iOfst : Nat)
  | prefetch
  | close

/-- The session goes on with `p`. -/
def Sessions.continue (s : Sessions) (p : ObjsFile) : Sessions where
  file := some p
  fetched k := s.fetched k ∨ p.Counts k

/-- Run a call on the open file. -/
def Sessions.onOpen (s : Sessions) (f : ObjsFile → Prog ObjsFile) : Prog Sessions :=
  match s.file with
  | none => return s
  | some p => do
    let p ← f p
    return s.continue p

/-- Sessions with `cache_reuse=1` on the blob `name`, one after the other, each in the mode
it is opened in. -/
def reuseSession (v : VfsData) (name : String) (uri : UriParams) (create : Bool) :
    Session World Ans Sessions SessionCall where
  code
    | .xOpen m, s =>
      match s.file with
      | some _ => return s
      | none => do
        let (_, r) ← sqliteObjsOpen v name { uri with cacheReuse := true, prefetch := m }
          .mainDb create
        return match r with
          | .ok p => s.continue p
          | .error _ => s
    | .lock, s => s.onOpen fun p => do
      let (p, _) ← sqliteObjsLock p .shared
      return p
    | .unlock eLock, s => s.onOpen fun p => do
      let (p, _) ← sqliteObjsUnlock p eLock
      return p
    | .read iAmt iOfst, s => s.onOpen fun p => do
      let (p, _) ← sqliteObjsRead p iAmt iOfst
      return p
    | .prefetch, s => s.onOpen fun p => do
      let (p, _) ← fileControlPrefetch p
      return p
    | .close, s =>
      match s.file with
      | none => return s
      | some p => do
        let _ ← sqliteObjsClose v p
        return { s with file := none }
  may
    | .read iAmt _, _, _ => 0 < iAmt
    | _, _, _ => True
  serve _ _ := World.served Sound

/-- An eager session does not take over a cache file in which a page of the blob is missing. -/
def NoSparseAdoption (path : Path) (C : Bytes) : SessionCall → Sessions → World → Prop
  | .xOpen .all, s, w =>
    w.disk.dir path = none ∨ ∀ k, k < pagesOf C.size (pageSizeOf C) → s.fetched k
  | _, _, _ => True

/-- The invariant of the sessions. -/
structure Sessions.Good (i : BlobId) (path : Path) (b : Blob) (s : Sessions)
    (w : World) : Prop where
  blob : w.azure.blobs i = some b
  kept : Kept path b.content s.fetched w.disk
  closed : s.file = none → ∀ fd, w.disk.dir path = some fd → w.disk.etagAt path = some b.etag
  file : ∀ p, s.file = some p → InUse i path b p w.disk ∧ ∀ k, p.Counts k → s.fetched k

section Main

variable {v : VfsData} {name : String} {uri : UriParams} {create : Bool} {ctx : Nat}
  {ops : AzureOps}
  {b : Blob} {s : Sessions} {w₀ w : World}

theorem Sessions.Good.continue {i : BlobId} {path : Path} {p p' : ObjsFile} {fd : Fd} {a : Azure}
    {d : Disk} {w' : World} (h : s.Good i path b ⟨a, d⟩) (hp : s.file = some p)
    (hfd : p.cacheFd = some fd) (hs : ReadStep b.content fd p p' ⟨a, d⟩ w') :
    (s.continue p').Good i path b w' := by
  have hin := (h.file p hp).1
  refine ⟨?_, h.kept.step hin hfd hs, fun hn => absurd hn (by simp [Sessions.continue]),
    fun q hq => ?_⟩
  · obtain ⟨f, rfl, -⟩ := hs.image
    exact h.blob
  · obtain rfl := Option.some.inj hq
    exact ⟨hin.step hfd hs, fun k hk => Or.inr hk⟩

/-- A reader's call keeps the invariant. -/
theorem Sessions.Good.wp_onOpen {i : BlobId} {path : Path} {a : Azure} {d : Disk}
    {f : ObjsFile → Prog ObjsFile} (h : s.Good i path b ⟨a, d⟩)
    (hf : ∀ p fd, InUse i path b p d → p.cacheFd = some fd →
      wp soundly (f p) (fun p' w' => ReadStep b.content fd p p' ⟨a, d⟩ w') ⟨a, d⟩) :
    wp soundly (s.onOpen f) (fun s' w' => s'.Good i path b w') ⟨a, d⟩ := by
  unfold Sessions.onOpen
  cases hp : s.file with
  | none => exact wp_alone_ret.mpr h
  | some p =>
    have hin := (h.file p hp).1
    obtain ⟨fd, hfd, -⟩ := hin.cache
    dsimp only
    rw [wp_bind]
    exact wp_mono (fun p' w' hs => wp_alone_ret.mpr (h.continue hp hfd hs)) (hf p fd hin hfd)

/-- The invariant holds in every state the sessions get to. -/
theorem Sessions.Good.reach
    (hsel : ∀ m, selectedOps v { uri with cacheReuse := true, prefetch := m } = some (ops, ctx))
    (hops : ops.Complete) (hsmall : pagesOf b.content.size (pageSizeOf b.content) ≤ maxPages)
    (h₀ : Sessions.Good ⟨ctx, name⟩ (cachePathOf uri name) b {} w₀)
    (h : ((reuseSession v name uri create).restrict
      (NoSparseAdoption (cachePathOf uri name) b.content)).Reach {} w₀ s w) :
    s.Good ⟨ctx, name⟩ (cachePathOf uri name) b w := by
  refine Session.inv_of_reach (fun s w => s.Good ⟨ctx, name⟩ (cachePathOf uri name) b w) h₀ ?_ ?_ h
  · rintro c s ⟨a, d⟩ hi ⟨hmay, hcond⟩
    show wp soundly _ _ _
    refine wp_mono (fun s' w' h' _ => h') ?_
    cases c with
    | xOpen m =>
      simp only [Session.restrict, reuseSession]
      cases hp : s.file with
      | some p => exact wp_alone_ret.mpr hi
      | none =>
        dsimp only
        rw [wp_bind]
        refine wp_mono ?_ (wp_open_reuse
          (show ({ uri with cacheReuse := true, prefetch := m } : UriParams).cacheReuse = true
            from rfl)
          (hsel m) hops hi.blob hsmall hi.kept (hi.closed hp) ?_)
        · rintro ⟨v', r⟩ w' (⟨rc, hr, rfl⟩ | ⟨q, hr, ha, hin, hk⟩)
          · dsimp only at hr
            subst hr
            exact wp_alone_ret.mpr hi
          · dsimp only at hr
            subst hr
            refine wp_alone_ret.mpr ⟨by rw [ha]; exact hi.blob, hk,
              fun hn => absurd hn (by simp [Sessions.continue]), fun p hq => ?_⟩
            obtain rfl := Option.some.inj hq
            exact ⟨hin, fun k hk => Or.inr hk⟩
        · intro hm
          cases m with
          | none => exact absurd rfl hm
          | all => exact hcond
    | lock =>
      refine hi.wp_onOpen fun p fd hin hfd => ?_
      rw [wp_bind]
      exact wp_mono (fun r w' hr => wp_alone_ret.mpr hr) (hin.wp_lock hi.blob hfd)
    | unlock eLock =>
      refine hi.wp_onOpen fun p fd hin hfd => ?_
      rw [wp_bind]
      exact wp_mono (fun r w' hr => wp_alone_ret.mpr hr) (hin.wp_unlock hfd eLock)
    | read iAmt iOfst =>
      refine hi.wp_onOpen fun p fd hin hfd => ?_
      rw [wp_bind]
      exact wp_mono (fun r w' hr => wp_alone_ret.mpr hr.2) (hin.wp_read hi.blob hfd hmay iOfst)
    | prefetch =>
      refine hi.wp_onOpen fun p fd hin hfd => ?_
      rw [wp_bind]
      exact wp_mono (fun r w' hr => wp_alone_ret.mpr hr) (hin.wp_prefetch hi.blob hfd)
    | close =>
      simp only [Session.restrict, reuseSession]
      cases hp : s.file with
      | none => exact wp_alone_ret.mpr hi
      | some p =>
        obtain ⟨hin, hc⟩ := hi.file p hp
        dsimp only
        rw [wp_bind]
        refine wp_mono ?_ (hin.wp_close hi.blob hi.kept hc v)
        rintro r w' ⟨ha, hk, het⟩
        exact wp_alone_ret.mpr ⟨by rw [ha]; exact hi.blob, hk, fun _ => het, by simp⟩
  · exact fun _ _ _ _ h => h.elim

/-- Whatever the modes of the earlier sessions were, every read returns the blob's bytes, as
long as no eager session took over a cache file with missing pages. -/
theorem reuse_reads_blob
    (hsel : ∀ m, selectedOps v { uri with cacheReuse := true, prefetch := m } = some (ops, ctx))
    (hops : ops.Complete) (hb : w₀.azure.blobs ⟨ctx, name⟩ = some b)
    (hsmall : pagesOf b.content.size (pageSizeOf b.content) ≤ maxPages)
    (hdir : w₀.disk.dir (cachePathOf uri name) = none)
    (hside : ∀ ext, w₀.disk.sidecar (cachePathOf uri name) ext = none)
    (hreach : ((reuseSession v name uri create).restrict
      (NoSparseAdoption (cachePathOf uri name) b.content)).Reach {} w₀ s w) :
    w.azure.blobs ⟨ctx, name⟩ = some b ∧
      ∀ p, s.file = some p → ∀ iAmt iOfst, 0 < iAmt →
        ReadsAs p w iAmt iOfst (readOf b.content iAmt iOfst) := by
  have h₀ : Sessions.Good ⟨ctx, name⟩ (cachePathOf uri name) b {} w₀ := by
    refine ⟨hb, ⟨?_, ?_, fun _ _ _ => id, ?_⟩, ?_, by simp⟩
    · unfold Disk.snapshotAt
      rw [hside]
    · intro bm hbm
      rw [hside] at hbm
      cases hbm
    · intro fd hfd
      rw [hdir] at hfd
      cases hfd
    · intro _ fd hfd
      rw [hdir] at hfd
      cases hfd
  have hi := Sessions.Good.reach hsel hops hsmall h₀ hreach
  obtain ⟨a, d⟩ := w
  refine ⟨hi.blob, fun p hp iAmt iOfst hpos => ?_⟩
  have hin := (hi.file p hp).1
  obtain ⟨fd, hfd, -⟩ := hin.cache
  refine ⟨?_, fun r w' hr => ?_⟩
  · unfold sqliteObjsRead
    rw [hin.kind]
    exact (noRelock_mainDbRead p iAmt iOfst).exists_runs _
  · exact (wp_alone_iff.mp (hin.wp_read hi.blob hfd hpos iOfst) r w' hr).1

/-- A database of more bytes than a lazy open downloads, zero but for the first byte past them. -/
def longDb : Bytes :=
  SparseFile.ofFn (page1Bootstrap + 512) fun j => if j = page1Bootstrap then 7 else 0

/-- An account with that database. -/
def longWorld : World :=
  { World.new with azure := World.new.azure.create ⟨0, "db"⟩ longDb }

set_option maxRecDepth 8000 in
/-- A lazy session, then an eager one that takes over its cache file: a page that was never
downloaded reads as zeros. -/
theorem eager_adopts_sparse : ∃ s w p b,
    (reuseSession (.new 0) "db" {} false).Reach {} longWorld s w ∧ s.file = some p ∧
    w.azure.blobs ⟨0, "db"⟩ = some b ∧
    ¬ ReadsAs p w 1 page1Bootstrap (readOf b.content 1 page1Bootstrap) := by
  obtain ⟨s, w, p, b, r, w', hreach, hp, hb, hread, hzero, hbyte⟩ : ∃ s w p b r w',
      (reuseSession (.new 0) "db" {} false).Reach {} longWorld s w ∧ s.file = some p ∧
      w.azure.blobs ⟨0, "db"⟩ = some b ∧
      Runs (World.served Sound) (sqliteObjsRead p 1 page1Bootstrap) w r w' ∧
      r.2.2.get 0 = 0 ∧ (readOf b.content 1 page1Bootstrap).2.get 0 = 7 :=
    ⟨_, _, _, _, _, _,
      .call (.xOpen .all)
        (.call .close
          (.call (.xOpen .none) .refl trivial (runs_sound 40 rfl) trivial)
          trivial (runs_sound 40 rfl) trivial)
        trivial (runs_sound 40 rfl) trivial,
      rfl, rfl, runs_sound 40 rfl, by decide +kernel, by decide +kernel⟩
  refine ⟨s, w, p, b, hreach, hp, hb, fun h => ?_⟩
  rw [← h.2 r w' hread] at hbyte
  rw [hzero] at hbyte
  exact absurd hbyte (by decide)

set_option maxRecDepth 8000 in
/-- A lazy session that prefetches, then an eager one. -/
theorem reuse_reads_blob_prefetched : ∃ s w p b,
    ((reuseSession (.new 0) "db" {} false).restrict
      (NoSparseAdoption (cachePathOf {} "db") b.content)).Reach {} longWorld s w ∧
    s.file = some p ∧ p.prefetchMode = .all ∧
    w.azure.blobs ⟨0, "db"⟩ = some b ∧ b.content = longDb ∧
    ReadsAs p w 1 page1Bootstrap (readOf b.content 1 page1Bootstrap) := by
  obtain ⟨b, hb, hc⟩ : ∃ b, longWorld.azure.blobs ⟨0, "db"⟩ = some b ∧ b.content = longDb :=
    ⟨_, rfl, rfl⟩
  obtain ⟨s₁, w₁, p₁, fetched, s, w, p, hreach₁, hfetched, hbits, hopen, hp, hm⟩ :
      ∃ s₁ w₁, ∃ p₁ : ObjsFile, ∃ fetched : Nat → Prop, ∃ s w p,
      ((reuseSession (.new 0) "db" {} false).restrict
        (NoSparseAdoption (cachePathOf {} "db") longDb)).Reach {} longWorld s₁ w₁ ∧
      s₁.fetched = (fun k => fetched k ∨ p₁.Counts k) ∧ (∀ k < 17, p₁.valid.bit k = true) ∧
      Runs (World.served Sound) ((reuseSession (.new 0) "db" {} false).code (.xOpen .all) s₁)
      w₁ s w ∧ s.file = some p ∧ p.prefetchMode = .all :=
    ⟨_, _, _, _, _, _, _,
      .call .close
        (.call .prefetch
          (.call (.xOpen .none) .refl ⟨trivial, trivial⟩ (runs_sound 40 rfl) trivial)
          ⟨trivial, trivial⟩ (runs_sound 40 rfl) trivial)
        ⟨trivial, trivial⟩ (runs_sound 40 rfl) trivial,
      rfl, by decide +kernel, runs_sound 40 rfl, rfl, rfl⟩
  have hwhole : NoSparseAdoption (cachePathOf {} "db") longDb (.xOpen .all) s₁ w₁ := by
    refine Or.inr fun k hk => ?_
    rw [hfetched]
    exact Or.inr fun _ => hbits k hk
  have hreach := Session.Reach.call (SessionCall.xOpen .all) hreach₁ ⟨trivial, hwhole⟩ hopen trivial
  rw [← hc] at hreach
  obtain ⟨hb', hall⟩ := reuse_reads_blob (fun _ => rfl) complete_production hb
    (by rw [hc]; decide) rfl
    (fun _ => rfl) hreach
  exact ⟨s, w, p, b, hreach, hp, hm, hb', hc, hall p hp 1 page1Bootstrap (by decide)⟩

end Main
end SqliteObjs
