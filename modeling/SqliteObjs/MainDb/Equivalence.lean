import SqliteObjs.MainDb.Filling

/-!
# Lazy and eager files read alike

Two files of one blob, one opened with `prefetch=none` and one with `prefetch=all`, both
without cache reuse and neither of them ever writing. They lock, read and unlock in any
order, the lazy one prefetches at any point, and other clients change the blob while both
files are unlocked. A file under a `SHARED` lock reads as the blob's current content,
whatever its mode.

The invariant is `Sees`: a file whose ETag is the blob's shows the blob's content. A file
whose ETag is old promises nothing, not even that the pages it counts are those of one
version; the next `SHARED` lock downloads everything.
-/

set_option autoImplicit false

namespace SqliteObjs

open Data CS CS.Program

/-! ## The session -/

/-- The files of the two modes, once they are open. -/
abbrev Files := PrefetchMode → Option ObjsFile

/-- The calls on the file of one mode, and a request of another client. -/
inductive ReadCall
  | xOpen (m : PrefetchMode)
  | lock (m : PrefetchMode)
  | unlock (m : PrefetchMode) (eLock : LockLevel)
  | read (m : PrefetchMode) (iAmt iOfst : Nat)
  | prefetch
  | others (r : AzReq)

/-- Run a call on the file of a mode, if it is open. -/
def onFile (s : Files) (m : PrefetchMode) (f : ObjsFile → Prog ObjsFile) : Prog Files :=
  match s m with
  | none => return s
  | some p => do
    let p ← f p
    return Function.update s m (some p)

/-- Fewer pages than this have numbers that fit. -/
def pageLimit : Nat := 2 ^ 30

/-- Two files of the blob `name`, opened with `uri` and their mode. A blob has fewer than 2^30 pages
of the page size a file takes it to have. -/
def readSession (v : VfsData) (name : String) (uri : PrefetchMode → UriParams) (create : Bool)
    (i : BlobId) : Session World Ans Files ReadCall where
  code
    | .xOpen m, s =>
      match s m with
      | some _ => return s
      | none => do
        let (_, r) ← sqliteObjsOpen v name { uri m with prefetch := m } .mainDb create
        return match r with
          | .ok p => Function.update s m (some p)
          | .error _ => s
    | .lock m, s => onFile s m fun p => do
      let (p, _) ← sqliteObjsLock p .shared
      return p
    | .unlock m eLock, s => onFile s m fun p => do
      let (p, _) ← sqliteObjsUnlock p eLock
      return p
    | .read m iAmt iOfst, s => onFile s m fun p => do
      let (p, _) ← sqliteObjsRead p iAmt iOfst
      return p
    | .prefetch, s => onFile s .none fun p => do
      let (p, _) ← fileControlPrefetch p
      return p
    | .others r, s => do
      let _ ← azure r
      return s
  may
    | .xOpen _, _, w => ∀ b, w.azure.blobs i = some b →
      pagesOf b.content.size (headerPageSize b.content defaultPageSize) < pageLimit
    | .lock m, s, w => ∀ p b, s m = some p → w.azure.blobs i = some b →
      pagesOf b.content.size (headerPageSize b.content p.pageSize) < pageLimit
    | .read m iAmt _, s, _ => 0 < iAmt ∧ ∀ p, s m = some p → p.eLock ≠ .none
    | .others r, s, w => (∀ m p, s m = some p → p.eLock = .none) ∧
      ((w.azure.respond r).2.blobs i).isSome
    | _, _, _ => True
  serve _ _ := World.served Sound

/-! ## The invariant -/

/-- A file that shows the blob's content as long as its ETag is the blob's, and under a
lock it is. -/
structure Sees (i : BlobId) (p : ObjsFile) (w : World) : Prop where
  kind : p.eFileType = .mainDb
  ops : p.ops.Complete
  blob : p.blob = i
  lease : p.leaseId = none
  page : LegalPageSize p.pageSize
  cacheFd : ∃ fd, p.cacheFd = some fd ∧ fd < w.disk.nextInode
  etag : ∃ e, p.etag = some e ∧ e < w.azure.nextETag
  image : ∀ fd b, p.cacheFd = some fd → w.azure.blobs i = some b → p.etag = some b.etag →
    Image p (w.disk.inode fd) b.content
  locked : p.eLock ≠ .none → ∀ b, w.azure.blobs i = some b → p.etag = some b.etag

section Sees

variable {i : BlobId} {p q : ObjsFile} {w w' : World} {a : Azure} {b : Blob} {d : Disk} {fd : Fd}

/-- The file is not affected by what happens to other inodes. -/
theorem Sees.frame (h : Sees i p w) (ha : w'.azure = w.azure)
    (hn : w.disk.nextInode ≤ w'.disk.nextInode)
    (hd : ∀ fd, p.cacheFd = some fd → w'.disk.inode fd = w.disk.inode fd) : Sees i p w' := by
  obtain ⟨fd, hfd, hlt⟩ := h.cacheFd
  refine { h with
    cacheFd := ⟨fd, hfd, Nat.lt_of_lt_of_le hlt hn⟩
    etag := by rw [ha]; exact h.etag
    image := fun fd b hfd hb he => ?_
    locked := by rw [ha]; exact h.locked }
  rw [hd fd hfd]
  rw [ha] at hb
  exact h.image fd b hfd hb he

/-- Another client's request while the file is unlocked. -/
theorem Sees.advance (h : Sees i p w) (hd : w'.disk = w.disk) (ha : w.azure.Advances w'.azure i)
    (hfree : p.eLock = .none) : Sees i p w' := by
  obtain ⟨e, he, hlt⟩ := h.etag
  refine { h with
    cacheFd := by rw [hd]; exact h.cacheFd
    etag := ⟨e, he, Nat.lt_of_lt_of_le hlt ha.mono⟩
    image := fun fd b' hfd hb' he' => ?_
    locked := fun hl => absurd hfree hl }
  rw [hd]
  rcases ha.version b' hb' with ⟨b, hb, het, hc⟩ | ⟨het, -⟩
  · rw [hc]
    exact h.image fd b hfd hb (by rw [he', het])
  · -- a new version has an ETag no file has
    rw [he, het] at he'
    obtain rfl := Option.some.inj he'
    exact absurd hlt (Nat.lt_irrefl _)

theorem Sees.read (h : Sees i p w) : p.ops.pageBlobRead = true := by rw [h.ops]; rfl

/-- A call on one file: only its cache file changes. -/
structure FileStep (i : BlobId) (p p' : ObjsFile) (w w' : World) : Prop where
  sees : Sees i p' w'
  cacheFd : p'.cacheFd = p.cacheFd
  mode : p'.prefetchMode = p.prefetchMode
  azure : w'.azure = w.azure
  nextInode : w'.disk.nextInode = w.disk.nextInode
  others : ∀ fd, p.cacheFd ≠ some fd → w'.disk.inode fd = w.disk.inode fd

theorem FileStep.refl (h : Sees i p w) : FileStep i p p w w :=
  ⟨h, rfl, rfl, rfl, rfl, fun _ _ => rfl⟩

theorem Disk.setInode_inode_ne (d : Disk) {fd fd' : Fd} (f : Bytes) (h : fd' ≠ fd) :
    (d.setInode fd f).inode fd' = d.inode fd' := by
  simp [Disk.setInode, h]

/-- The step of a call that only writes the file's cache file. -/
theorem FileStep.of_setInode {p' : ObjsFile} {f : Bytes} (hfd : p.cacheFd = some fd)
    (hs : Sees i p' ⟨a, d.setInode fd f⟩) (hfd' : p'.cacheFd = p.cacheFd)
    (hm : p'.prefetchMode = p.prefetchMode) : FileStep i p p' ⟨a, d⟩ ⟨a, d.setInode fd f⟩ := by
  refine ⟨hs, hfd', hm, rfl, rfl, fun fd' h => d.setInode_inode_ne f ?_⟩
  rintro rfl
  exact h hfd

/-- A file that shows the content of its ETag's version, as the blob stands. -/
theorem Sees.of_image {p' : ObjsFile} {f : Bytes} (h : Sees i p ⟨a, d⟩) (hfd : p.cacheFd = some fd)
    (hb : a.blobs i = some b) (hlt : b.etag < a.nextETag) (hkind : p'.eFileType = p.eFileType)
    (hops : p'.ops = p.ops) (hblob : p'.blob = p.blob) (hlease : p'.leaseId = p.leaseId)
    (hfd' : p'.cacheFd = p.cacheFd) (het : p'.etag = some b.etag) (himg : Image p' f b.content) :
    Sees i p' ⟨a, d.setInode fd f⟩ := by
  obtain ⟨fd₀, hfd₀, hnext⟩ := h.cacheFd
  obtain rfl := Option.some.inj (hfd.symm.trans hfd₀)
  refine ⟨hkind.trans h.kind, hops ▸ h.ops, hblob.trans h.blob, hlease.trans h.lease, himg.page,
    ⟨fd, hfd'.trans hfd, hnext⟩, ⟨b.etag, het, hlt⟩, ?_, ?_⟩
  · intro fd₁ b' hfd₁ hb' _
    obtain rfl := Option.some.inj ((hfd'.trans hfd).symm.trans hfd₁)
    obtain rfl := Option.some.inj (hb.symm.trans hb')
    rw [Disk.setInode_inode_self]
    exact himg
  · intro _ b' hb'
    obtain rfl := Option.some.inj (hb.symm.trans hb')
    exact het

/-- Taking `SHARED` succeeds, and the file shows the current content. -/
theorem Sees.wp_lock (h : Sees i p ⟨a, d⟩) (hb : a.blobs i = some b) (hlt : b.etag < a.nextETag)
    (hsmall : pagesOf b.content.size (headerPageSize b.content p.pageSize) ≤ maxPages) :
    wp soundly (sqliteObjsLock p .shared)
      (fun r w' => r.2 = .ok ∧ FileStep i p r.1 ⟨a, d⟩ w') ⟨a, d⟩ := by
  obtain ⟨fd, hfd, hnext⟩ := h.cacheFd
  obtain ⟨e, he, -⟩ := h.etag
  have hblob : a.blobs p.blob = some b := by rw [h.blob]; exact hb
  have hprops : p.ops.blobGetProperties = true := by rw [h.ops]; rfl
  unfold sqliteObjsLock
  split
  · exact wp_alone_ret.mpr ⟨rfl, .refl h⟩
  rw [if_pos rfl, wp_bind]
  unfold revalidateBeforeRead
  rw [if_neg (by simp [h.kind]), if_neg (by simp [hfd]), if_neg (by simp [he]),
    if_neg (by simp [hprops])]
  refine wp_azBlobGetProperties_sound hblob fun x hx het hsize => ?_
  rw [if_neg (by simpa using hx), het, hsize]
  split
  · next hsame =>
    -- the ETag is the blob's
    have hcur : p.etag = some b.etag := by simpa using hsame
    refine wp_alone_ret.mpr ?_
    dsimp only
    rw [if_neg (by simp)]
    refine wp_alone_ret.mpr ⟨rfl, ?_⟩
    have himg := h.image fd b hfd hb hcur
    have hs : Sees i { p with readsSinceSharedLock := 0, eLock := .shared }
        ⟨a, d.setInode fd (d.inode fd)⟩ :=
      h.of_image hfd hb hlt rfl rfl rfl rfl rfl hcur (himg.congr rfl rfl rfl rfl)
    have hstep := FileStep.of_setInode hfd hs rfl rfl
    rw [Disk.setInode_self] at hstep
    exact hstep
  · refine wp_mono ?_ (wp_refreshMainDbCache_sound (p := { p with readsSinceSharedLock := 0 })
      h.kind h.ops hfd hblob h.page hsmall b.etag)
    rintro ⟨p', rc⟩ w' ⟨hrc, hfill⟩
    dsimp only at hrc hfill ⊢
    subst hrc
    obtain ⟨f, rfl, himg⟩ := hfill.image
    have honly := hfill.only
    unfold OnlyContent at honly
    rw [if_neg (by simp)]
    refine wp_alone_ret.mpr ⟨rfl, FileStep.of_setInode hfd ?_ (by dsimp only; rw [honly])
      (by dsimp only; rw [honly])⟩
    refine h.of_image hfd hb hlt ?_ ?_ ?_ ?_ ?_ hfill.etag (himg.congr rfl rfl rfl rfl)
    · dsimp only
      rw [honly]
    · dsimp only
      rw [honly]
    · rw [honly]
      rfl
    · dsimp only
      rw [honly]
    · dsimp only
      rw [honly]

theorem Sees.wp_unlock (h : Sees i p ⟨a, d⟩) (eLock : LockLevel) :
    wp soundly (sqliteObjsUnlock p eLock) (fun r w' => FileStep i p r.1 ⟨a, d⟩ w') ⟨a, d⟩ := by
  unfold sqliteObjsUnlock
  split
  · exact wp_alone_ret.mpr (.refl h)
  next hlow =>
  rw [if_neg (by simp [h.lease])]
  refine wp_alone_ret.mpr ⟨?_, rfl, rfl, rfl, rfl, fun _ _ => rfl⟩
  -- a lock is only lowered
  have hwas : eLock ≠ .none → p.eLock ≠ .none := by
    rintro h₁ h₂
    rw [h₂] at hlow
    cases eLock <;> simp [LockLevel.rank] at h₁ hlow
  exact { h with
    image := fun fd b hfd hb he => (h.image fd b hfd hb he).congr rfl rfl rfl rfl
    locked := fun hl => h.locked (hwas hl) }

/-- A read under a lock returns the blob's content. -/
theorem Sees.wp_read (h : Sees i p ⟨a, d⟩) (hlock : p.eLock ≠ .none) (hb : a.blobs i = some b)
    {iAmt : Nat} (hpos : 0 < iAmt) (iOfst : Nat) :
    wp soundly (sqliteObjsRead p iAmt iOfst)
      (fun r w' => r.2 = readOf b.content iAmt iOfst ∧ FileStep i p r.1 ⟨a, d⟩ w') ⟨a, d⟩ := by
  obtain ⟨fd, hfd, hnext⟩ := h.cacheFd
  have hcur := h.locked hlock b hb
  obtain ⟨e, he, hlt⟩ := h.etag
  obtain rfl := Option.some.inj (he.symm.trans hcur)
  have himg := h.image fd b hfd hb hcur
  unfold sqliteObjsRead
  rw [h.kind]
  refine wp_mono ?_ (himg.wp_mainDbRead (a := a) (by rw [h.blob]; exact hb) h.read hfd hpos iOfst)
  rintro ⟨p', rc, buf⟩ w' ⟨hres, honly, -, f, rfl, himg', -⟩
  refine ⟨hres, ?_⟩
  unfold OnlyRead at honly
  dsimp only at honly himg' ⊢
  refine FileStep.of_setInode hfd ?_ (by rw [honly]) (by rw [honly])
  refine h.of_image hfd hb hlt ?_ ?_ ?_ ?_ ?_ ?_ himg'
  · rw [honly]
  · rw [honly]
  · rw [honly]
    rfl
  · rw [honly]
  · rw [honly]
  · rw [honly]
    exact hcur

/-- A prefetch of a file that is current keeps its image; one that is not may store bytes
of several versions. -/
theorem Sees.wp_prefetch (h : Sees i p ⟨a, d⟩) :
    wp soundly (fileControlPrefetch p) (fun r w' => FileStep i p r.1 ⟨a, d⟩ w') ⟨a, d⟩ := by
  obtain ⟨fd, hfd, hnext⟩ := h.cacheFd
  refine wp_mono ?_ (wp_fileControlPrefetch_sound h.read hfd)
  rintro ⟨p', rc⟩ w' ⟨honly, f, rfl, hkeep⟩
  dsimp only at honly hkeep ⊢
  unfold OnlyValid at honly
  refine FileStep.of_setInode hfd ?_ (by rw [honly]) (by rw [honly])
  have hfd' : p'.cacheFd = some fd := by rw [honly]; exact hfd
  have het : p'.etag = p.etag := by rw [honly]
  refine ⟨by rw [honly]; exact h.kind, by rw [honly]; exact h.ops, ?_, by rw [honly]; exact h.lease,
    by rw [honly]; exact h.page, ⟨fd, hfd', hnext⟩, by rw [het]; exact h.etag, ?_, ?_⟩
  · rw [← h.blob, honly]
    rfl
  · intro fd' b hfd₁ hb he
    obtain rfl := Option.some.inj (hfd'.symm.trans hfd₁)
    rw [Disk.setInode_inode_self]
    exact (hkeep b (by rw [h.blob]; exact hb) (h.image fd b hfd hb (het.symm.trans he))).2.1
  · intro hl
    have hl' : p.eLock ≠ .none := by rwa [honly] at hl
    rw [het]
    exact h.locked hl'

/-- A file is opened with a new cache file. -/
theorem wp_open_sees {v : VfsData} {name : String} {uri : UriParams} {create : Bool}
    {ops : AzureOps} {ctx : Nat} (hreuse : uri.cacheReuse = false)
    (hsel : selectedOps v uri = some (ops, ctx)) (hops : ops.Complete)
    (hb : a.blobs ⟨ctx, name⟩ = some b) (hlt : b.etag < a.nextETag)
    (hsmall : pagesOf b.content.size (headerPageSize b.content defaultPageSize) ≤ maxPages) :
    wp soundly (sqliteObjsOpen v name uri .mainDb create) (fun r w' =>
      w'.azure = a ∧ d.nextInode ≤ w'.disk.nextInode ∧
      (∀ fd, fd < d.nextInode → w'.disk.inode fd = d.inode fd) ∧
      ∀ p, r.2 = .ok p → Sees ⟨ctx, name⟩ p w' ∧ p.prefetchMode = uri.prefetch ∧
        p.eLock = .none ∧ p.cacheFd = some d.nextInode ∧ p.etag = some b.etag) ⟨a, d⟩ := by
  refine wp_sqliteObjsOpen_mainDb quiet_alone (fun _ => stable_alone) ?_ ?_
  · exact fun rc => ⟨rfl, Nat.le_refl _, fun _ _ => rfl, fun p h => by cases h⟩
  intro ops' ctx' hsel'
  obtain ⟨rfl, rfl⟩ : ops = ops' ∧ ctx = ctx' := by
    rw [hsel] at hsel'
    exact Prod.mk.inj (Option.some.inj hsel')
  have hblob : a.blobs (newFile ops ctx name uri .mainDb).blob = some b := hb
  have hex : ops.blobExists = true := by rw [hops]; rfl
  have hprops : (newFile ops ctx name uri .mainDb).ops.blobGetProperties = true := by
    show ops.blobGetProperties = true
    rw [hops]
    rfl
  unfold openMainDb checkExists
  rw [if_pos (show (newFile ops ctx name uri .mainDb).ops.blobExists = true from hex)]
  refine wp_azBlobExists_bind (fun c hc => hc.1) ?_
  rw [hblob]
  dsimp only
  rw [if_neg (by simp), if_pos (by simpa using hprops)]
  unfold openExisting
  refine wp_azBlobGetProperties_sound hblob fun x hx het hsize => ?_
  rw [if_neg (by simpa using hx), het, hsize]
  dsimp only
  rw [if_neg (by simp [hreuse])]
  refine wp_mono ?_ (wp_openTemp_sound
    (p := { newFile ops ctx name uri .mainDb with etag := some b.etag }) hb legalPageSize_default
    hsmall)
  rintro r w' ⟨p', path, rfl, hfill⟩
  obtain ⟨f, rfl, himg⟩ := hfill.image
  have honly := hfill.only
  unfold OnlyContent at honly
  have hfd : p'.cacheFd = some d.nextInode := by rw [honly]
  refine wp_alone_ret.mpr ⟨rfl, Nat.le_succ _, fun fd hfd => ?_, ?_⟩
  · rw [Disk.setInode_inode_ne _ _ (Nat.ne_of_lt hfd)]
    simp [Disk.newFile, Nat.ne_of_lt hfd]
  rintro _ ⟨⟩
  refine ⟨⟨?_, ?_, ?_, ?_, himg.page, ⟨d.nextInode, hfd, Nat.lt_succ_self _⟩,
    ⟨b.etag, hfill.etag, hlt⟩, ?_, fun _ b' hb' => ?_⟩, ?_, ?_, hfd, hfill.etag⟩
  · dsimp only
    rw [honly]
    rfl
  · dsimp only
    rw [honly]
    exact hops
  · rw [honly]
    rfl
  · dsimp only
    rw [honly]
    rfl
  · intro fd b' hfd' hb' _
    obtain rfl := Option.some.inj (hfd.symm.trans hfd')
    obtain rfl := Option.some.inj (hb.symm.trans hb')
    dsimp only
    rw [Disk.setInode_inode_self]
    exact himg.congr rfl rfl rfl rfl
  · obtain rfl := Option.some.inj (hb.symm.trans hb')
    exact hfill.etag
  · dsimp only
    rw [honly]
    rfl
  · dsimp only
    rw [honly]
    rfl

end Sees

/-! ## Both files -/

/-- Each open file sees the blob through its own cache file. -/
structure BothSee (i : BlobId) (s : Files) (w : World) : Prop where
  file : ∀ m p, s m = some p → Sees i p w
  apart : ∀ m m' p q, s m = some p → s m' = some q → m ≠ m' → p.cacheFd ≠ q.cacheFd
  blob : ∃ b, w.azure.blobs i = some b ∧ b.etag < w.azure.nextETag

section BothSee

variable {i : BlobId} {s : Files} {a : Azure} {d : Disk}

/-- A file gets a new record, the other one keeps its own. -/
theorem BothSee.update (h : BothSee i s ⟨a, d⟩) {m : PrefetchMode} {p : ObjsFile} {w' : World}
    (hp : Sees i p w') (ha : w'.azure = a) (hn : d.nextInode ≤ w'.disk.nextInode)
    (hd : ∀ m' q fd, m' ≠ m → s m' = some q → q.cacheFd = some fd →
      p.cacheFd ≠ some fd ∧ w'.disk.inode fd = d.inode fd) :
    BothSee i (Function.update s m (some p)) w' := by
  have hother : ∀ m' q, m' ≠ m → s m' = some q → Sees i q w' ∧ p.cacheFd ≠ q.cacheFd := by
    intro m' q hm hq
    have hs := h.file m' q hq
    obtain ⟨fd, hfd, -⟩ := hs.cacheFd
    refine ⟨hs.frame ha hn fun fd hfd => (hd m' q fd hm hq hfd).2, ?_⟩
    rw [hfd]
    exact (hd m' q fd hm hq hfd).1
  refine ⟨fun m' q hq => ?_, fun m₁ m₂ q₁ q₂ h₁ h₂ hne => ?_, by rw [ha]; exact h.blob⟩
  · by_cases hm : m' = m
    · subst hm
      rw [Function.update_self] at hq
      obtain rfl := Option.some.inj hq
      exact hp
    · rw [Function.update_of_ne hm] at hq
      exact (hother m' q hm hq).1
  · by_cases hm₁ : m₁ = m
    · subst hm₁
      rw [Function.update_self] at h₁
      rw [Function.update_of_ne hne.symm] at h₂
      obtain rfl := Option.some.inj h₁
      exact (hother m₂ q₂ hne.symm h₂).2
    · rw [Function.update_of_ne hm₁] at h₁
      by_cases hm₂ : m₂ = m
      · subst hm₂
        rw [Function.update_self] at h₂
        obtain rfl := Option.some.inj h₂
        exact (hother m₁ q₁ hm₁ h₁).2.symm
      · rw [Function.update_of_ne hm₂] at h₂
        exact h.apart m₁ m₂ q₁ q₂ h₁ h₂ hne

theorem BothSee.wp_onFile (h : BothSee i s ⟨a, d⟩) {m : PrefetchMode} {f : ObjsFile → Prog ObjsFile}
    (hf : ∀ p, s m = some p →
      wp soundly (f p) (fun p' w' => FileStep i p p' ⟨a, d⟩ w') ⟨a, d⟩) :
    wp soundly (onFile s m f) (fun s' w' => BothSee i s' w') ⟨a, d⟩ := by
  unfold onFile
  cases hs : s m with
  | none => exact wp_alone_ret.mpr h
  | some p =>
    dsimp only
    rw [wp_bind]
    refine wp_mono (fun p' w' hstep => wp_alone_ret.mpr ?_) (hf p hs)
    refine h.update hstep.sees hstep.azure (Nat.le_of_eq hstep.nextInode.symm) ?_
    intro m' q fd hm hq hfd
    have hne := h.apart m m' p q hs hq hm.symm
    rw [hfd] at hne
    exact ⟨by rw [hstep.cacheFd]; exact hne, hstep.others fd hne⟩

end BothSee

/-! ## Reads return -/

section NoRelock

theorem noRelock_fetchPagesFromAzure (p : ObjsFile) (pg : Int) :
    NoRelock (fetchPagesFromAzure p pg) := by
  unfold fetchPagesFromAzure
  refine Uses.ite trivial ?_
  split
  · trivial
  refine Uses.ite trivial (Uses.ite trivial ?_)
  dsimp only
  refine Uses.ite trivial ((noRelock_azPageBlobRead _ _ _).bind fun x => ?_)
  refine Uses.ite trivial (Uses.ite trivial ?_)
  unfold storeFetched
  exact (noRelock_sys (by simp)).bind fun nw => Uses.ite trivial trivial

theorem noRelock_fetchMissing :
    ∀ (n : Nat) (pg : Int) (p : ObjsFile), NoRelock (fetchMissing n pg p)
  | 0, _, _ => trivial
  | n + 1, pg, p => by
    unfold fetchMissing
    refine Uses.ite (noRelock_fetchMissing n _ p) ?_
    exact (noRelock_fetchPagesFromAzure p pg).bind fun r =>
      Uses.ite trivial (noRelock_fetchMissing n _ _)

theorem noRelock_mainDbRead (p : ObjsFile) (iAmt iOfst : Nat) :
    NoRelock (mainDbRead p iAmt iOfst) := by
  unfold mainDbRead
  dsimp only
  split
  · trivial
  refine Uses.ite trivial (Uses.bind ?_ fun r => Uses.ite trivial (Uses.ite trivial ?_))
  · unfold fetchForRead
    refine Uses.ite ?_ trivial
    dsimp only
    generalize (pageCount _ _ - _).toNat = n
    generalize cInt _ = startPage
    exact noRelock_fetchMissing n startPage _
  · refine (noRelock_sys (by simp)).bind fun nRead => ?_
    exact Uses.ite trivial (Uses.ite trivial (Uses.ite trivial trivial))

end NoRelock

/-! ## The theorem -/

/-- An `xRead` returns, and what it returns is `x`. -/
def ReadsAs (p : ObjsFile) (w : World) (iAmt iOfst : Nat) (x : Rc × Bytes) : Prop :=
  (∃ r w', Runs (World.served Sound) (sqliteObjsRead p iAmt iOfst) w r w') ∧
  ∀ r w', Runs (World.served Sound) (sqliteObjsRead p iAmt iOfst) w r w' → r.2 = x

section Main

variable {v : VfsData} {name : String} {uri : PrefetchMode → UriParams} {create : Bool} {ctx : Nat}
  {ops : PrefetchMode → AzureOps} {s : Files} {w₀ w : World}

/-- The invariant holds in every state the two files get to. -/
theorem BothSee.reach (hreuse : ∀ m, (uri m).cacheReuse = false)
    (hsel : ∀ m, selectedOps v (uri m) = some (ops m, ctx)) (hops : ∀ m, (ops m).Complete)
    (h₀ : BothSee ⟨ctx, name⟩ (fun _ => none) w₀)
    (h : (readSession v name uri create ⟨ctx, name⟩).Reach (fun _ => none) w₀ s w) :
    BothSee ⟨ctx, name⟩ s w := by
  have hlimit : ∀ {n : Nat}, n < pageLimit → n ≤ maxPages := by
    intro n hn
    unfold pageLimit at hn
    unfold maxPages
    omega
  refine Session.inv_of_reach (BothSee ⟨ctx, name⟩) h₀ ?_ ?_ h
  · rintro c s ⟨a, d⟩ hi hmay
    obtain ⟨b, hb, hlt⟩ := hi.blob
    show wp soundly _ _ _
    refine wp_mono (fun s' w' h' _ => h') ?_
    cases c with
    | xOpen m =>
      simp only [readSession]
      cases hs : s m with
      | some p => exact wp_alone_ret.mpr hi
      | none =>
        dsimp only
        rw [wp_bind]
        refine wp_mono ?_ (wp_open_sees (by exact hreuse m) (by exact hsel m) (hops m) hb hlt
          (hlimit (hmay b hb)))
        rintro ⟨v', r⟩ w' ⟨ha, hn, hd, hopen⟩
        refine wp_alone_ret.mpr ?_
        cases r with
        | error rc =>
          refine ⟨fun m' q hq => ?_, hi.apart, by rw [ha]; exact hi.blob⟩
          have hs := hi.file m' q hq
          obtain ⟨fd, hfd, hlt'⟩ := hs.cacheFd
          exact hs.frame ha hn fun fd' hfd' => by
            obtain rfl := Option.some.inj (hfd.symm.trans hfd')
            exact hd fd hlt'
        | ok p =>
          obtain ⟨hp, -, -, hfd, -⟩ := hopen p rfl
          refine hi.update hp ha hn fun m' q fd hm hq hfd' => ?_
          obtain ⟨fd₁, hfd₁, hlt'⟩ := (hi.file m' q hq).cacheFd
          obtain rfl := Option.some.inj (hfd'.symm.trans hfd₁)
          refine ⟨?_, hd fd hlt'⟩
          rw [hfd]
          exact fun he => Nat.lt_irrefl _ (Option.some.inj he ▸ hlt')
    | lock m =>
      refine hi.wp_onFile fun p hp => ?_
      rw [wp_bind]
      refine wp_mono (fun r w' hr => wp_alone_ret.mpr hr.2)
        ((hi.file m p hp).wp_lock hb hlt (hlimit (hmay p b hp hb)))
    | unlock m eLock =>
      refine hi.wp_onFile fun p hp => ?_
      rw [wp_bind]
      exact wp_mono (fun r w' hr => wp_alone_ret.mpr hr) ((hi.file m p hp).wp_unlock eLock)
    | read m iAmt iOfst =>
      refine hi.wp_onFile fun p hp => ?_
      rw [wp_bind]
      exact wp_mono (fun r w' hr => wp_alone_ret.mpr hr.2)
        ((hi.file m p hp).wp_read (hmay.2 p hp) hb hmay.1 iOfst)
    | prefetch =>
      refine hi.wp_onFile fun p hp => ?_
      rw [wp_bind]
      exact wp_mono (fun r w' hr => wp_alone_ret.mpr hr) (hi.file .none p hp).wp_prefetch
    | others r =>
      obtain ⟨hfree, hthere⟩ := hmay
      refine wp_alone_call.mpr fun x w' hs => wp_alone_ret.mpr ?_
      obtain ⟨-, ha⟩ := served_sound hs
      have hd : w'.disk = d := seen_sound.azure_disk hs
      have hadv : a.Advances w'.azure ⟨ctx, name⟩ := by
        rw [ha]
        exact Azure.advances_respond a r _
      obtain ⟨b', hb'⟩ := Option.isSome_iff_exists.mp hthere
      refine ⟨fun m p hp => (hi.file m p hp).advance hd hadv (hfree m p hp), hi.apart, b', ?_, ?_⟩
      · rw [ha]
        exact hb'
      · rcases hadv.version b' (by rw [ha]; exact hb') with ⟨b₁, hb₁, he, -⟩ | ⟨he, hnext⟩
        · obtain rfl := Option.some.inj (hb.symm.trans hb₁)
          rw [he]
          exact Nat.lt_of_lt_of_le hlt hadv.mono
        · rw [he]
          exact hnext
  · exact fun _ _ _ _ h => h.elim

/-- Under a `SHARED` lock both files have the size of the blob's current content, and every
read of either returns, with the result code and the bytes of that content. -/
theorem lazy_reads_equal_eager (hreuse : ∀ m, (uri m).cacheReuse = false)
    (hsel : ∀ m, selectedOps v (uri m) = some (ops m, ctx)) (hops : ∀ m, (ops m).Complete)
    (hblob : ∃ b, w₀.azure.blobs ⟨ctx, name⟩ = some b ∧ b.etag < w₀.azure.nextETag)
    (hreach : (readSession v name uri create ⟨ctx, name⟩).Reach (fun _ => none) w₀ s w) :
    ∃ b, w.azure.blobs ⟨ctx, name⟩ = some b ∧
      ∀ m p, s m = some p → p.eLock ≠ .none →
        sqliteObjsFileSize p = b.content.size ∧
        ∀ iAmt iOfst, 0 < iAmt → ReadsAs p w iAmt iOfst (readOf b.content iAmt iOfst) := by
  have h₀ : BothSee ⟨ctx, name⟩ (fun _ => none) w₀ := ⟨by simp, by simp, hblob⟩
  have hi := BothSee.reach hreuse hsel hops h₀ hreach
  obtain ⟨a, d⟩ := w
  obtain ⟨b, hb, -⟩ := hi.blob
  refine ⟨b, hb, fun m p hp hlock => ?_⟩
  have hs := hi.file m p hp
  obtain ⟨fd, hfd, -⟩ := hs.cacheFd
  refine ⟨?_, fun iAmt iOfst hpos => ⟨?_, fun r w' hr => ?_⟩⟩
  · unfold sqliteObjsFileSize
    rw [hs.kind]
    exact (hs.image fd b hfd hb (hs.locked hlock b hb)).nData
  · unfold sqliteObjsRead
    rw [hs.kind]
    exact (noRelock_mainDbRead p iAmt iOfst).exists_runs _
  · exact (wp_alone_iff.mp (hs.wp_read hlock hb hpos iOfst) r w' hr).1

theorem pagesOf_le_self (n ps : Nat) : pagesOf n ps ≤ n := by
  rcases Nat.eq_zero_or_pos ps with rfl | hps
  · simp [pagesOf]
  · rw [pagesOf_le_iff hps]
    exact Nat.le_mul_of_pos_right n hps

/-- A small blob has few pages. -/
theorem pagesOf_lt_limit {a : Azure} {i : BlobId} {b : Blob} {n : Nat}
    (h : (a.contentOf i).size = n) (hn : n < pageLimit) (hb : a.blobs i = some b) (ps : Nat) :
    pagesOf b.content.size ps < pageLimit := by
  unfold Azure.contentOf at h
  rw [hb] at h
  exact Nat.lt_of_le_of_lt (pagesOf_le_self _ _) (by rw [h]; exact hn)

set_option maxRecDepth 8000 in
/-- Both files open a database of one sector; another client doubles it; both lock it. -/
theorem lazy_reads_equal_eager_grown : ∃ s w b p q,
    (readSession (.new 0) "db" (fun _ => {}) false ⟨0, "db"⟩).Reach (fun _ => none) smallPageWorld
      s w ∧
    w.azure.blobs ⟨0, "db"⟩ = some b ∧ s .none = some p ∧ s .all = some q ∧
    p.prefetchMode = .none ∧ q.prefetchMode = .all ∧
    sqliteObjsFileSize p = 1024 ∧ sqliteObjsFileSize q = 1024 ∧
    ReadsAs p w 512 768 (readOf b.content 512 768) ∧
    ReadsAs q w 512 768 (readOf b.content 512 768) := by
  obtain ⟨s, w, hreach, hsize, p, q, hp, hq, hpm, hqm, hpl, hql⟩ : ∃ s w,
      (readSession (.new 0) "db" (fun _ => {}) false ⟨0, "db"⟩).Reach (fun _ => none) smallPageWorld
        s w ∧ (w.azure.contentOf ⟨0, "db"⟩).size = 1024 ∧ ∃ p q, s .none = some p ∧
        s .all = some q ∧
        p.prefetchMode = .none ∧ q.prefetchMode = .all ∧ p.eLock ≠ .none ∧ q.eLock ≠ .none :=
    ⟨_, _,
      .call (.lock .all)
        (.call (.lock .none)
          (.call (.others (.pageBlobResize ⟨0, "db"⟩ 1024 none))
            (.call (.xOpen .all)
              (.call (.xOpen .none) .refl
                (fun b hb => pagesOf_lt_limit (n := 512) rfl (by decide) hb _)
                (runs_sound 40 rfl) trivial)
              (fun b hb => pagesOf_lt_limit (n := 512) rfl (by decide) hb _)
              (runs_sound 40 rfl) trivial)
            ⟨by rintro (_ | _) p hp <;> (obtain rfl := Option.some.inj hp; rfl), rfl⟩
            (runs_sound 40 rfl) trivial)
          (fun p b _ hb => pagesOf_lt_limit (n := 1024) rfl (by decide) hb _)
          (runs_sound 40 rfl) trivial)
        (fun p b _ hb => pagesOf_lt_limit (n := 1024) rfl (by decide) hb _)
        (runs_sound 40 rfl) trivial,
      rfl, _, _, rfl, rfl, rfl, rfl, by decide, by decide⟩
  have hsel : ∀ m, selectedOps (.new 0) ((fun _ => {} : PrefetchMode → UriParams) m) =
      some ((fun _ => azureProductionOps : PrefetchMode → AzureOps) m, 0) := fun _ => rfl
  obtain ⟨b, hb, hall⟩ := lazy_reads_equal_eager (fun _ => rfl) hsel (fun _ => complete_production)
    ⟨_, rfl, by decide⟩ hreach
  have hbs : b.content.size = 1024 := by
    unfold Azure.contentOf at hsize
    rwa [hb] at hsize
  obtain ⟨hps, hpr⟩ := hall .none p hp hpl
  obtain ⟨hqs, hqr⟩ := hall .all q hq hql
  exact ⟨s, w, b, p, q, hreach, hb, hp, hq, hpm, hqm, hps.trans hbs, hqs.trans hbs,
    hpr 512 768 (by decide), hqr 512 768 (by decide)⟩

end Main
end SqliteObjs
