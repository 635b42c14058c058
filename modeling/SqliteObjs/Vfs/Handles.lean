import SqliteObjs.Vfs.Frame
import SqliteObjs.Vfs.Process

/-!
# Handles through the entry points

What an `xOpen` gives a file, and what every other entry point leaves of it: the client,
the name and the type of an open file never change, whatever the service answers. The
VFS data keeps its client, and a call on one name changes the journal cache for that
name only.
-/

set_option autoImplicit false

namespace SqliteObjs

open Data CS CS.Program

/-! ## Opening a database -/

/-- An open file has the handle `h`. -/
def OpensAs (h : Handle) (r : Except Rc ObjsFile) : Prop := ∀ p, r = .ok p → p.handle = h

section Open

variable {h : Handle} {p : ObjsFile} {fd : Fd}

theorem opensAs_error {rc : Rc} : OpensAs h (.error rc) := by
  intro p hp
  cases hp

theorem opensAs_ok (hp : p.handle = h) : OpensAs h (.ok p) := by
  rintro _ ⟨⟩
  exact hp

theorem within_failDownload (rc : Rc) : Within IsLocal (OpensAs h) (failDownload p rc) := by
  unfold failDownload
  split
  · exact opensAs_error
  · exact within_sys_bind trivial fun _ => opensAs_error

theorem within_lazyDownload (hp : p.handle = h) (n : Nat) :
    Within (Touches h.blob) (OpensAs h) (lazyDownload p fd n) := by
  unfold lazyDownload
  refine within_sys_bind trivial fun _ => ?_
  split
  · exact within_touches (within_failDownload _)
  refine (within_read hp _ _).bind fun _ _ => ?_
  split
  · exact within_touches (within_failDownload _)
  refine within_sys_bind trivial fun _ => ?_
  split
  · exact within_touches (within_failDownload _)
  refine (within_touches (within_redetectPageSize (p := { p with nData := n }) hp)).bind
    fun p₁ hp₁ => ?_
  refine (within_touches (within_bitmapsEnsureCapacity hp₁)).bind fun (p₂, _) hp₂ => ?_
  exact opensAs_ok ((handle_validMarkRange _ _ _).trans hp₂)

theorem within_eagerDownload (hp : p.handle = h) (n : Nat) :
    Within (Touches h.blob) (OpensAs h) (eagerDownload p fd n) := by
  unfold eagerDownload
  refine within_sys_bind trivial fun _ => ?_
  split
  · exact within_touches (within_failDownload _)
  refine (within_downloadBlob hp _ _).bind fun (arc, data) _ => ?_
  dsimp only
  split
  · exact within_touches (within_failDownload _)
  refine (within_touches (within_writeAll _ _ _)).bind fun _ _ => ?_
  split
  · exact within_touches (within_failDownload _)
  refine within_sys_bind trivial fun _ => ?_
  split
  · exact within_touches (within_failDownload _)
  refine (within_touches (within_redetectPageSize (p := { p with nData := n }) hp)).bind
    fun p₁ hp₁ => ?_
  exact (within_touches (within_bitmapsEnsureCapacity hp₁)).bind fun (p₂, _) hp₂ =>
    opensAs_ok hp₂

theorem within_cacheDownload (hp : p.handle = h) (n : Nat) :
    Within (Touches h.blob) (OpensAs h) (cacheDownload p fd n) := by
  unfold cacheDownload
  split
  · exact opensAs_ok hp
  split
  · exact within_lazyDownload hp n
  · exact within_eagerDownload hp n

theorem within_loadValid (hp : p.handle = h) (path : Path) :
    Within IsLocal (fun p' => p'.handle = h) (loadValid p path) := by
  unfold loadValid
  split
  · exact hp
  dsimp only
  refine (within_readStateFile path).bind fun st _ => ?_
  split
  · exact (within_bitmapEnsureCapacity _ _ _).bind fun _ _ => hp
  · generalize (pageCount p.nData p.pageSize).toNat = nPg
    split
    · exact hp
    · exact (within_bitmapEnsureCapacity _ _ _).bind fun _ _ => hp

theorem within_adoptCache (hp : p.handle = h) (path : Path) (n : Nat) :
    Within IsLocal (fun p' => p'.handle = h) (adoptCache p path fd n) := by
  unfold adoptCache
  dsimp only
  refine (within_redetectPageSize (p := { p with
    cacheFd := some fd, zCachePath := some path, cacheReuse := true, nData := n }) hp).bind
    fun p₁ hp₁ => ?_
  refine (within_bitmapsEnsureCapacity hp₁).bind fun (p₂, _) hp₂ => ?_
  refine (within_readSnapshotFile path).bind fun s _ => ?_
  exact within_loadValid (p := { p₂ with lastSyncedSize := p₂.nData, snapshot := s }) hp₂ path

theorem within_openStaleCache (hp : p.handle = h) (path : Path) (s : Snapshot) (n : Nat) :
    Within (Touches h.blob) (OpensAs h) (openStaleCache p path fd s n) := by
  unfold openStaleCache
  refine within_sys_bind trivial fun size => ?_
  dsimp only
  refine (within_touches (within_bitmapsEnsureCapacity (p := { p with
    cacheFd := some fd, zCachePath := some path, cacheReuse := true
    nData := size.n, snapshot := some s }) hp)).bind fun (p₁, _) hp₁ => ?_
  refine (within_applyIncrementalDiff (p := { p₁ with lastSyncedSize := p₁.nData }) hp₁ n).bind
    fun (p₂, ok) hp₂ => ?_
  dsimp only
  split
  · exact opensAs_ok hp₂
  refine within_sys_bind trivial fun _ => within_sys_bind trivial fun _ => ?_
  exact within_cacheDownload (p := { p₂ with nData := 0, snapshot := none }) hp₂ n

/-- A cache file was opened for a file with the handle `h`. -/
def CachesAs (h : Handle) (r : Except Rc (ObjsFile × Fd)) : Prop :=
  ∀ p fd, r = .ok (p, fd) → p.handle = h

theorem within_openTempCache (hp : p.handle = h) (uri : UriParams) :
    Within IsLocal (CachesAs h) (openTempCache p uri) := by
  unfold openTempCache
  refine within_sys_bind trivial fun _ => ?_
  split
  · rintro _ _ ⟨⟩
  refine within_sys_bind trivial fun _ => ?_
  split
  · rintro _ _ ⟨⟩
  · rintro _ _ ⟨⟩
    exact hp

theorem within_openFreshCache (hp : p.handle = h) (path : Path) :
    Within IsLocal (CachesAs h) (openFreshCache p path) := by
  unfold openFreshCache
  refine within_sys_bind trivial fun _ => ?_
  split
  · rintro _ _ ⟨⟩
  · rintro _ _ ⟨⟩
    exact hp

theorem within_openTemp (hp : p.handle = h) (uri : UriParams) (n : Nat) :
    Within (Touches h.blob) (OpensAs h) (openTemp p uri n) := by
  unfold openTemp
  refine (within_touches (within_openTempCache hp uri)).bind fun r hr => ?_
  split
  · exact opensAs_error
  · exact within_cacheDownload (hr _ _ rfl) n

theorem within_openMismatch (hp : p.handle = h) (path : Path) (n : Nat) :
    Within (Touches h.blob) (OpensAs h) (openMismatch p path n) := by
  unfold openMismatch
  extract_lets fresh
  have hfresh : Within (Touches h.blob) (OpensAs h) fresh := by
    refine (within_touches (within_openFreshCache hp path)).bind fun r hr => ?_
    split
    · exact opensAs_error
    · exact within_cacheDownload (hr _ _ rfl) n
  refine (within_touches (within_readSnapshotFile path)).bind fun s _ => ?_
  split
  · exact hfresh
  refine within_sys_bind trivial fun _ => ?_
  split
  · exact hfresh
  · exact within_openStaleCache hp path _ n

theorem within_openReuse (hp : p.handle = h) (path : Path) (n : Nat) :
    Within (Touches h.blob) (OpensAs h) (openReuse p path n) := by
  unfold openReuse
  refine (within_touches (within_readEtagFile path)).bind fun e _ => ?_
  split
  · refine within_sys_bind trivial fun _ => ?_
    split
    · exact within_openMismatch hp path n
    refine within_sys_bind trivial fun _ => ?_
    split
    · exact (within_touches (within_adoptCache hp path n)).bind fun p' hp' => opensAs_ok hp'
    · exact within_openMismatch hp path n
  · exact within_openMismatch hp path n

theorem within_buildCachePath (uri : UriParams) (name : String) :
    Within IsLocal (fun _ => True) (buildCachePath uri name) := by
  unfold buildCachePath
  refine within_sys_bind trivial fun _ => ?_
  split
  · trivial
  · trivial

theorem within_openExisting (hp : p.handle = h) (uri : UriParams) :
    Within (Touches h.blob) (OpensAs h) (openExisting p uri) := by
  unfold openExisting
  refine within_execute_bind ⟨p.blob_of_handle hp, rfl⟩ fun head => ?_
  split
  · exact opensAs_error
  dsimp only
  split
  · refine (within_touches (within_buildCachePath _ _)).bind fun path _ => ?_
    split
    · exact within_openTemp (p := { p with etag := head.etag }) hp uri _
    · exact within_openReuse (p := { p with etag := head.etag }) hp _ _
  · exact within_openTemp (p := { p with etag := head.etag }) hp uri _

theorem within_openCreated (hp : p.handle = h) (uri : UriParams) :
    Within (Touches h.blob) (OpensAs h) (openCreated p uri) := by
  unfold openCreated createBlob newCache
  refine Within.bind (Q := fun _ => True) ?_ fun arc _ => ?_
  · split
    · rw [p.blob_of_handle hp]
      exact (within_azPageBlobCreate 0).bind fun _ _ => trivial
    · trivial
  split
  · exact opensAs_error
  refine Within.bind (Q := CachesAs h) ?_ fun r hr => ?_
  · split
    · refine (within_touches (within_buildCachePath _ _)).bind fun path _ => ?_
      split
      · exact within_touches (within_openTempCache hp uri)
      · exact within_touches (within_openFreshCache hp _)
    · exact within_touches (within_openTempCache hp uri)
  split
  · exact opensAs_error
  · next p' fd =>
    have hp' : p'.handle = h := hr p' fd rfl
    exact opensAs_ok hp'

theorem within_checkExists (hp : p.handle = h) :
    Within (Touches h.blob) (fun _ => True) (checkExists p) := by
  unfold checkExists
  split
  · rw [p.blob_of_handle hp]
    exact within_azBlobExists
  · trivial

theorem within_openMainDb (hp : p.handle = h) (uri : UriParams) (create : Bool) :
    Within (Touches h.blob) (OpensAs h) (openMainDb p uri create) := by
  unfold openMainDb
  refine (within_checkExists hp).bind fun (arc, found) _ => ?_
  dsimp only
  split
  · exact opensAs_error
  split
  · exact within_openExisting hp uri
  split
  · exact opensAs_ok hp
  split
  · exact within_openCreated hp uri
  · exact opensAs_error

end Open

/-! ## The journal cache -/

/-- The client that files without one of their own use. -/
def VfsData.client (v : VfsData) : Option (AzureOps × Nat) := v.ops.map (·, v.opsCtx)

/-- The VFS data differs at most in what it says of one journal. -/
structure OnlyEntry (name : String) (v v' : VfsData) : Prop where
  client : v'.client = v.client
  others : ∀ n, n ≠ name → journalCacheFind v' n = journalCacheFind v n

section OnlyEntry

variable {name : String} {v v' v'' : VfsData}

theorem OnlyEntry.refl (name : String) (v : VfsData) : OnlyEntry name v v := ⟨rfl, fun _ _ => rfl⟩

theorem OnlyEntry.trans (h : OnlyEntry name v v') (h' : OnlyEntry name v' v'') :
    OnlyEntry name v v'' :=
  ⟨h'.client.trans h.client, fun n hn => (h'.others n hn).trans (h.others n hn)⟩

theorem onlyEntry_getOrCreate (v : VfsData) (name : String) :
    OnlyEntry name v (journalCacheGetOrCreate v name).1 := by
  unfold journalCacheGetOrCreate
  split
  · exact .refl name v
  split
  · exact .refl name v
  split
  · exact .refl name v
  refine ⟨rfl, fun n hn => ?_⟩
  unfold journalCacheFind
  rw [List.find?_append]
  simp [Ne.symm hn]

theorem onlyEntry_set (v : VfsData) (name : String) (b : Bool) :
    OnlyEntry name v (journalCacheSet v name b) :=
  ⟨rfl, fun n hn => by
    rw [journalCacheFind_set, Option.map_congr fun _ _ => if_neg hn]
    exact Option.map_id'⟩

theorem onlyEntry_put (v : VfsData) (name : String) (b : Bool) :
    OnlyEntry name v (journalCachePut v name b) := by
  unfold journalCachePut
  dsimp only
  split
  · exact (onlyEntry_getOrCreate v name).trans (onlyEntry_set _ name b)
  · exact onlyEntry_getOrCreate v name

end OnlyEntry

/-! ## Journals and WALs -/

section Buffered

variable {h : Handle} {p : ObjsFile} {v : VfsData}

theorem within_bufferEnsure (d : Bytes) (n : Nat) :
    Within IsLocal (fun _ => True) (bufferEnsure d n) := by
  unfold bufferEnsure
  generalize doubleUntil n 64 _ = alloc
  split
  · trivial
  dsimp only
  split
  · trivial
  refine within_sys_bind trivial fun _ => ?_
  split
  · trivial
  · trivial

theorem within_bufferWrite (d : Bytes) (n : Nat) (buf : Bytes) (o : Nat) :
    Within IsLocal (fun _ => True) (bufferWrite d n buf o) := by
  unfold bufferWrite
  dsimp only
  refine (within_bufferEnsure _ _).bind fun _ _ => ?_
  split
  · trivial
  · trivial

theorem within_journalExists (hp : p.handle = h) :
    Within (Touches h.blob) (fun r => OnlyEntry p.zBlobName v r.1) (journalExists v p) := by
  have hget := onlyEntry_getOrCreate v p.zBlobName
  unfold journalExists
  dsimp only
  split
  · exact hget
  split
  · rw [p.blob_of_handle hp]
    refine within_azBlobExists.bind fun (_, ex) _ => ?_
    dsimp only
    rw [pure_eq_ret, within_ret]
    dsimp only
    split
    · exact hget.trans (onlyEntry_set _ _ _)
    · exact hget
  · exact hget

theorem within_openJournal (hp : p.handle = h) :
    Within (Touches h.blob) (fun r => OnlyEntry p.zBlobName v r.1 ∧ OpensAs h r.2)
      (openJournal v p) := by
  unfold openJournal
  refine (within_journalExists hp).bind fun (v', ex) hv => ?_
  dsimp only
  split
  · refine within_execute_bind ⟨p.blob_of_handle hp, rfl⟩ fun _ => ?_
    split
    · refine (within_touches (within_bufferEnsure _ _)).bind fun (d, rc) _ => ?_
      dsimp only
      split
      · exact ⟨hv, opensAs_error⟩
      · exact ⟨hv, opensAs_ok hp⟩
    · exact ⟨hv, opensAs_ok hp⟩
  · exact ⟨hv, opensAs_ok hp⟩

theorem within_openWal (hp : p.handle = h) : Within (Touches h.blob) (OpensAs h) (openWal p) := by
  unfold openWal
  split
  · exact opensAs_error
  refine (within_checkExists hp).bind fun (arc, ex) _ => ?_
  dsimp only
  split
  · exact opensAs_error
  split
  · exact opensAs_ok hp
  refine within_execute_bind ⟨p.blob_of_handle hp, rfl⟩ fun _ => ?_
  split
  · exact opensAs_error
  split
  · exact opensAs_ok hp
  refine (within_touches (within_bufferEnsure _ _)).bind fun (d, rc) _ => ?_
  dsimp only
  split
  · exact opensAs_error
  · exact opensAs_ok hp

theorem within_walSync (hp : p.handle = h) :
    Within (Touches h.blob) (fun _ => True) (walSync v p) := by
  unfold walSync uploadWal
  split
  · trivial
  split
  · trivial
  refine Within.bind (Q := fun _ => True) ?_ fun _ _ => ?_
  · dsimp only
    rw [p.blob_of_handle hp]
    exact .ite (within_azBlockBlobUploadParallel _ _) (within_executeWithRetry ⟨rfl, rfl⟩ _)
  split
  · trivial
  · trivial

theorem within_journalSync (hp : p.handle = h) :
    Within (Touches h.blob) (fun r => OnlyEntry p.zBlobName v r.1) (journalSync v p) := by
  unfold journalSync
  split
  · refine within_execute_bind ⟨p.blob_of_handle hp, rfl⟩ fun _ => ?_
    split
    · exact .refl _ v
    · exact onlyEntry_put v _ _
  · exact .refl _ v

end Buffered

/-! ## Entry points -/

section Entry

variable {h : Handle} {p : ObjsFile} {v : VfsData}

theorem within_sqliteObjsRead (hp : p.handle = h) (n o : Nat) :
    Within (Touches h.blob) (fun r => r.1.handle = h) (sqliteObjsRead p n o) := by
  unfold sqliteObjsRead
  split
  · exact hp
  · exact hp
  · exact within_mainDbRead hp n o

theorem within_sqliteObjsWrite (hp : p.handle = h) (buf : Bytes) (o : Nat) :
    Within (Touches h.blob) (fun r => r.1.handle = h) (sqliteObjsWrite p buf o) := by
  unfold sqliteObjsWrite
  split
  · exact (within_touches (within_bufferWrite _ _ _ _)).bind fun _ _ => hp
  · exact (within_touches (within_bufferWrite _ _ _ _)).bind fun _ _ => hp
  · exact within_mainDbWrite hp buf o

theorem within_sqliteObjsTruncate (hp : p.handle = h) (n : Nat) :
    Within (Touches h.blob) (fun r => r.1.handle = h) (sqliteObjsTruncate p n) := by
  unfold sqliteObjsTruncate deleteWal
  split
  · split
    · refine Within.bind (Q := fun _ => True) ?_ fun _ _ => hp
      split
      · exact within_execute_bind ⟨p.blob_of_handle hp, rfl⟩ fun _ => trivial
      · trivial
    split
    · exact hp
    · exact hp
  · split
    · exact hp
    · exact hp
  · exact within_mainDbTruncate hp n

theorem within_sqliteObjsSync (hp : p.handle = h) :
    Within (Touches h.blob) (fun r => OnlyEntry p.zBlobName v r.1 ∧ r.2.1.handle = h)
      (sqliteObjsSync v p) := by
  unfold sqliteObjsSync
  split
  · exact (within_walSync hp).bind fun _ _ => ⟨.refl _ v, hp⟩
  · exact (within_journalSync hp).bind fun _ hv => ⟨hv, hp⟩
  · exact (within_mainDbSync hp).bind fun _ hr => ⟨.refl _ v, hr⟩

theorem within_selectOps (uri : UriParams) :
    Within IsLocal (fun r => r = none ∨ r = selectedOps v uri) (selectOps v uri) := by
  unfold selectOps selectedOps
  cases uri.client with
  | some ctx =>
    refine within_sys_bind trivial fun m => ?_
    rw [pure_eq_ret, within_ret]
    split
    · exact Or.inr rfl
    · exact Or.inl rfl
  | none => exact Or.inr rfl

/-- The request is local, or about the blob an `xOpen` with these parameters is for. -/
def OpenTouches (v : VfsData) (uri : UriParams) (name : String) (r : Req) : Prop :=
  IsLocal r ∨ ∃ ops ctx, selectedOps v uri = some (ops, ctx) ∧ Touches ⟨ctx, name⟩ r

/-- The handle of a file that was just opened. -/
def openedHandle (ops : AzureOps) (ctx : Nat) (name : String) (ft : FileType) : Handle where
  ops := ops
  opsCtx := ctx
  zBlobName := name
  eFileType := ft
  eLock := .none
  leaseId := none

theorem within_sqliteObjsOpen (name : String) (uri : UriParams) (ft : FileType) (create : Bool) :
    Within (OpenTouches v uri name) (fun r => OnlyEntry name v r.1 ∧ ∀ p, r.2 = .ok p →
      ∃ ops ctx, selectedOps v uri = some (ops, ctx) ∧ p.handle = openedHandle ops ctx name ft)
      (sqliteObjsOpen v name uri ft create) := by
  unfold sqliteObjsOpen
  split
  · exact ⟨.refl _ v, by rintro _ ⟨⟩⟩
  refine within_sys_bind (Or.inl trivial) fun _ => ?_
  split
  · exact ⟨.refl _ v, by rintro _ ⟨⟩⟩
  refine ((within_selectOps uri).mono (fun _ => Or.inl) fun _ hr => hr).bind fun sel hsel => ?_
  rcases sel with _ | ⟨ops, ctx⟩
  · exact ⟨.refl _ v, by rintro _ ⟨⟩⟩
  have hsel : selectedOps v uri = some (ops, ctx) := by
    rcases hsel with hsel | hsel
    · cases hsel
    · exact hsel.symm
  have hp : (newFile ops ctx name uri ft).handle = openedHandle ops ctx name ft := rfl
  have htouch : ∀ r, Touches (openedHandle ops ctx name ft).blob r → OpenTouches v uri name r :=
    fun r hr => Or.inr ⟨ops, ctx, hsel, hr⟩
  dsimp only
  cases ft with
  | mainDb =>
    refine ((within_openMainDb hp uri create).mono htouch fun _ hr => hr).bind fun r hr => ?_
    refine ⟨.refl _ v, fun p hok => ⟨ops, ctx, hsel, ?_⟩⟩
    cases r with
    | error rc => cases hok
    | ok p' =>
      cases hok
      exact hr p' rfl
  | mainJournal =>
    refine (within_openJournal hp).mono htouch fun r hr => ⟨hr.1, fun p hok => ?_⟩
    exact ⟨ops, ctx, hsel, hr.2 p hok⟩
  | wal =>
    refine ((within_openWal hp).mono htouch fun _ hr => hr).bind fun r hr => ?_
    exact ⟨.refl _ v, fun p hok => ⟨ops, ctx, hsel, hr p hok⟩⟩

/-! ### Leases change hands -/

/-- The request is local or about the blob `b`. -/
def Concerns (b : BlobId) : Req → Prop
  | .azure r => r.blob = b
  | .sys _ => True

theorem concerns_of_touches {b : BlobId} {r : Req} (hr : Touches b r) : Concerns b r := by
  cases r with
  | azure r => exact hr.1
  | sys r => trivial

/-- The client, the name and the type of an open file. -/
def ObjsFile.ident (p : ObjsFile) : (AzureOps × Nat) × String × FileType :=
  ((p.ops, p.opsCtx), p.zBlobName, p.eFileType)

theorem ObjsFile.ident_of_handle {p p' : ObjsFile} (hp : p'.handle = p.handle) :
    p'.ident = p.ident := by
  unfold ObjsFile.handle at hp
  unfold ObjsFile.ident
  rw [Handle.mk.injEq] at hp
  rw [hp.1, hp.2.1, hp.2.2.1, hp.2.2.2.1]

theorem ObjsFile.blob_of_ident {p p' : ObjsFile} (hp : p'.ident = p.ident) : p'.blob = p.blob := by
  unfold ObjsFile.ident at hp
  simp only [Prod.mk.injEq] at hp
  unfold ObjsFile.blob
  rw [hp.1.2, hp.2.1]

/-- An operation on the file `p` that keeps its handle concerns its blob and keeps its
identity. -/
theorem within_concerns {α : Type} {m : Prog α} {f : α → ObjsFile} {b : BlobId}
    (hm : Within (Touches p.handle.blob) (fun r => (f r).handle = p.handle) m)
    (hb : p.blob = b) : Within (Concerns b) (fun r => (f r).ident = p.ident) m := by
  subst hb
  exact hm.mono (fun _ => concerns_of_touches) fun _ hr => ObjsFile.ident_of_handle hr

theorem within_releaseLease {b : BlobId} (hb : p.blob = b) :
    Within (Concerns b) (fun p' => p'.ident = p.ident) (releaseLease p) := by
  unfold releaseLease
  split
  · exact within_execute_bind hb fun _ => rfl
  · rfl

theorem within_acquireLease (p : ObjsFile) :
    Within (Concerns p.blob) (fun r => r.1.ident = p.ident) (acquireLease p) := by
  unfold acquireLease
  generalize (if dirtyPageThreshold < p.lastSyncDirtyCount then leaseDurationLong
    else leaseDurationDefault) = duration
  dsimp only
  have hreq : Concerns p.blob (.azure (.leaseAcquire p.blob duration)) := rfl
  refine Within.bind (Q := fun _ => True) ?_ fun x _ => ?_
  · unfold azLeaseAcquire
    exact .ite trivial (within_executeWithRetry hreq _)
  split
  · rfl
  split
  · rfl
  refine within_sys_bind trivial fun now => ?_
  refine (within_concerns (p := { p with
    leaseId := some x.leaseId
    leaseAcquiredAt := now.n
    leaseDuration := duration }) (within_revalidateAfterLease rfl _) rfl).bind
    fun (p', rv) hp' => ?_
  dsimp only
  split
  · exact (within_releaseLease (ObjsFile.blob_of_ident hp')).bind fun p'' hp'' => hp''.trans hp'
  · exact hp'

theorem within_sqliteObjsLock (p : ObjsFile) (l : LockLevel) :
    Within (Concerns p.blob) (fun r => r.1.ident = p.ident) (sqliteObjsLock p l) := by
  unfold sqliteObjsLock
  split
  · rfl
  split
  · refine (within_concerns (p := { p with readsSinceSharedLock := 0 })
      (within_revalidateBeforeRead rfl) rfl).bind fun (p', rv) hp' => ?_
    dsimp only
    split
    · exact hp'
    · exact hp'
  split
  · rfl
  split
  · rfl
  refine (within_acquireLease p).bind fun (p', rv) hp' => ?_
  dsimp only
  split
  · exact hp'
  · exact hp'

theorem within_sqliteObjsUnlock (p : ObjsFile) (l : LockLevel) :
    Within (Concerns p.blob) (fun r => r.1.ident = p.ident) (sqliteObjsUnlock p l) := by
  unfold sqliteObjsUnlock
  split
  · rfl
  split
  · exact (within_releaseLease rfl).bind fun p' hp' => hp'
  · rfl

theorem within_closeReleaseLease {b : BlobId} (hb : p.blob = b) :
    Within (Concerns b) (fun p' => p'.ident = p.ident) (closeReleaseLease p) := by
  unfold closeReleaseLease
  split
  · exact within_execute_bind hb fun _ => rfl
  · rfl

theorem within_closeFlush (p : ObjsFile) :
    Within (Touches p.handle.blob)
      (fun r => OnlyEntry p.zBlobName v r.1 ∧ r.2.1.handle = p.handle) (closeFlush v p) := by
  unfold closeFlush
  split
  · exact within_sqliteObjsSync rfl
  split
  · exact within_sqliteObjsSync rfl
  · exact ⟨.refl _ v, rfl⟩

theorem within_closeRefreshEtag (hp : p.handle = h) (rc : Rc) :
    Within (Touches h.blob) (fun p' => p'.handle = h) (closeRefreshEtag p rc) := by
  unfold closeRefreshEtag
  split
  · refine within_execute_bind ⟨p.blob_of_handle hp, rfl⟩ fun _ => ?_
    rw [pure_eq_ret, within_ret]
    split
    · exact hp
    · exact hp
  · exact hp

theorem within_closeCacheFd (p : ObjsFile) :
    Within IsLocal (fun _ => True) (closeCacheFd p) := by
  unfold closeCacheFd
  split
  · trivial
  · exact within_sys_bind trivial fun _ => trivial

theorem within_closeCache (p : ObjsFile) : Within IsLocal (fun _ => True) (closeCache p) := by
  unfold closeCache
  split
  · trivial
  split
  · refine (within_writeStateFile _ _ _ _).bind fun _ _ => ?_
    refine (within_writeEtagFile _ _).bind fun _ _ => ?_
    exact (within_writeSnapshotFile _ _).bind fun _ _ => trivial
  · exact (within_unlinkCache _).bind fun _ _ => trivial

theorem concerns_of_isLocal {b : BlobId} {r : Req} (hr : IsLocal r) : Concerns b r :=
  concerns_of_touches (touches_of_isLocal hr)

theorem within_sqliteObjsClose (p : ObjsFile) :
    Within (Concerns p.blob) (fun r => OnlyEntry p.zBlobName v r.1) (sqliteObjsClose v p) := by
  unfold sqliteObjsClose
  refine ((within_closeFlush p).mono (fun _ => concerns_of_touches) fun _ hr => hr).bind
    fun (v', p₁, rc) hr => ?_
  obtain ⟨hv, hp₁⟩ := hr
  refine ((within_closeRefreshEtag hp₁ rc).mono (fun _ => concerns_of_touches) fun _ hr => hr).bind
    fun p₂ hp₂ => ?_
  refine (within_closeReleaseLease (ObjsFile.blob_of_handle hp₂)).bind fun p₃ _ => ?_
  refine ((within_closeCacheFd p₃).mono (fun _ => concerns_of_isLocal) fun _ hr => hr).bind
    fun p₄ _ => ?_
  exact ((within_closeCache p₄).mono (fun _ => concerns_of_isLocal) fun _ hr => hr).bind
    fun _ _ => hv

end Entry

/-! ## The calls of a process -/

/-- The handle a call is on. -/
def VfsCall.file : VfsCall → Option Nat
  | .open h _ _ _ _ | .close h | .read h _ _ | .write h _ _ | .truncate h _ | .sync h | .lock h _
  | .unlock h _ | .checkReservedLock h | .prefetch h => some h
  | .delete _ _ | .access _ _ _ => none

/-- The blob a call is about. -/
def VfsCall.blob (c : VfsCall) (s : Process) : Option BlobId :=
  match c with
  | .open _ name uri _ _ => (selectedOps s.v uri).map fun x => ⟨x.2, name⟩
  | .delete mainFile name | .access mainFile name _ =>
    (resolveOps s.v mainFile name).map fun x => ⟨x.2, name⟩
  | .close h | .read h _ _ | .write h _ _ | .truncate h _ | .sync h | .lock h _ | .unlock h _
  | .checkReservedLock h | .prefetch h => (s.files h).map (·.blob)

/-- The name a call is about. -/
def VfsCall.name (c : VfsCall) (s : Process) : Option String :=
  match c with
  | .open _ name _ _ _ | .delete _ name | .access _ name _ => some name
  | .close h | .read h _ _ | .write h _ _ | .truncate h _ | .sync h | .lock h _ | .unlock h _
  | .checkReservedLock h | .prefetch h => (s.files h).map (·.zBlobName)

/-- The request is local or about the blob of the call. -/
def VfsCall.About (c : VfsCall) (s : Process) : Req → Prop
  | .azure r => c.blob s = some r.blob
  | .sys _ => True

/-- What a call may do to its process. -/
structure Follows (c : VfsCall) (s s' : Process) : Prop where
  client : s'.v.client = s.v.client
  /-- The journal cache has the same entry for every other name. -/
  cache : ∀ n, c.name s ≠ some n → journalCacheFind s'.v n = journalCacheFind s.v n
  frame : ∀ h, c.file ≠ some h → s'.files h = s.files h
  /-- A file that is open was open as the same file, or was opened by the call. -/
  files : ∀ h p', s'.files h = some p' →
    (∃ p, s.files h = some p ∧ p'.ident = p.ident) ∨
    ∃ name uri ft create sel, c = .open h name uri ft create ∧ selectedOps s.v uri = some sel ∧
      p'.ident = (sel, name, ft)

section Calls

variable {c : VfsCall} {s s' : Process}

theorem Follows.refl (c : VfsCall) (s : Process) : Follows c s s :=
  ⟨rfl, fun _ _ => rfl, fun _ _ => rfl, fun _ p' hp' => Or.inl ⟨p', hp', rfl⟩⟩

theorem about_of_isLocal {r : Req} (hr : IsLocal r) : c.About s r := by
  cases r with
  | azure r => exact hr.elim
  | sys r => trivial

theorem about_of_concerns {b : BlobId} (hb : c.blob s = some b) {r : Req} (hr : Concerns b r) :
    c.About s r := by
  cases r with
  | azure r =>
    have hr : r.blob = b := hr
    exact hb.trans (congrArg some hr.symm)
  | sys r => trivial

/-- Only the VFS data changed, and for one name. -/
theorem follows_of_data {name : String} {v : VfsData} (hv : OnlyEntry name s.v v)
    (hname : c.name s = some name) : Follows c s { s with v := v } := by
  refine ⟨hv.client, fun n hn => hv.others n ?_, fun _ _ => rfl,
    fun _ p' hp' => Or.inl ⟨p', hp', rfl⟩⟩
  rintro rfl
  exact hn hname

/-- One file changed: it was open as the same file, or the call opened it. -/
theorem follows_setFile {name : String} {h : Nat} {q : Option ObjsFile} {v : VfsData}
    (hc : c.file = some h) (hname : c.name s = some name) (hv : OnlyEntry name s.v v)
    (hq : ∀ p', q = some p' → (∃ p, s.files h = some p ∧ p'.ident = p.ident) ∨
      ∃ name uri ft create sel, c = .open h name uri ft create ∧ selectedOps s.v uri = some sel ∧
        p'.ident = (sel, name, ft)) :
    Follows c s ({ s with v := v }.setFile h q) := by
  refine ⟨hv.client, fun n hn => hv.others n ?_, fun k hk => ?_, fun k p' hp' => ?_⟩
  · rintro rfl
    exact hn hname
  · have hkh : k ≠ h := by
      rintro rfl
      exact hk hc
    simp [Process.setFile, hkh]
  · by_cases hkh : k = h
    · subst hkh
      rw [Process.setFile] at hp'
      simp only [Function.update_self] at hp'
      exact hq p' hp'
    · rw [Process.setFile] at hp'
      simp only [Function.update_of_ne hkh] at hp'
      exact Or.inl ⟨p', hp', rfl⟩

/-- A call on an open file, from what its operation keeps. -/
theorem within_onFile {h : Nat} {f : ObjsFile → Prog (ObjsFile × VfsResult)}
    (hc : c.file = some h) (hb : c.blob s = (s.files h).map (·.blob))
    (hn : c.name s = (s.files h).map (·.zBlobName))
    (hf : ∀ p, Within (Concerns p.blob) (fun r => r.1.ident = p.ident) (f p)) :
    Within (c.About s) (fun r => Follows c s r.1) (VfsCall.onFile s h f) := by
  unfold VfsCall.onFile
  cases hp : s.files h with
  | none => exact Follows.refl c s
  | some p =>
    rw [hp] at hb hn
    refine ((hf p).mono (fun _ => about_of_concerns hb) fun _ hr => hr).bind fun (p', r) hr => ?_
    refine follows_setFile (v := s.v) hc hn (.refl _ _) ?_
    rintro _ ⟨⟩
    exact Or.inl ⟨p, hp, hr⟩

theorem within_open (h : Nat) (name : String) (uri : UriParams) (ft : FileType) (create : Bool) :
    Within ((VfsCall.open h name uri ft create).About s)
      (fun r => Follows (.open h name uri ft create) s r.1)
      ((VfsCall.open h name uri ft create).code s) := by
  have habout : ∀ r, OpenTouches s.v uri name r →
      (VfsCall.open h name uri ft create).About s r := by
    rintro r (hr | ⟨ops, ctx, hsel, hr⟩)
    · exact about_of_isLocal hr
    · refine about_of_concerns (b := ⟨ctx, name⟩) ?_ (concerns_of_touches hr)
      rw [VfsCall.blob, hsel]
      rfl
  unfold VfsCall.code
  refine ((within_sqliteObjsOpen name uri ft create).mono habout fun _ hr => hr).bind
    fun (v, r) hr => ?_
  obtain ⟨hv, hr⟩ := hr
  cases r with
  | error rc => exact follows_of_data hv rfl
  | ok p =>
    refine follows_setFile rfl rfl hv ?_
    rintro _ ⟨⟩
    obtain ⟨ops, ctx, hsel, hp⟩ := hr p rfl
    refine Or.inr ⟨name, uri, ft, create, (ops, ctx), rfl, hsel, ?_⟩
    have hops : p.ops = ops := congrArg Handle.ops hp
    have hctx : p.opsCtx = ctx := congrArg Handle.opsCtx hp
    have hname : p.zBlobName = name := congrArg Handle.zBlobName hp
    have hft : p.eFileType = ft := congrArg Handle.eFileType hp
    rw [ObjsFile.ident, hops, hctx, hname, hft]

theorem within_delete (mainFile : Option (AzureOps × Nat)) (name : String) :
    Within ((VfsCall.delete mainFile name).About s)
      (fun r => Follows (.delete mainFile name) s r.1) ((VfsCall.delete mainFile name).code s) := by
  unfold VfsCall.code sqliteObjsDelete
  refine Within.bind (Q := fun r => OnlyEntry name s.v r.1) ?_ fun _ hv => follows_of_data hv rfl
  split
  · exact .refl _ _
  cases hsel : resolveOps s.v mainFile name with
  | none => exact .refl _ _
  | some sel =>
    obtain ⟨ops, ctx⟩ := sel
    dsimp only
    split
    · exact .refl _ _
    have habout : (VfsCall.delete mainFile name).About s (.azure (.blobDelete ⟨ctx, name⟩)) := by
      rw [VfsCall.About, VfsCall.blob, hsel]
      rfl
    refine within_execute_bind habout fun x => ?_
    split
    · exact onlyEntry_set _ _ _
    split
    · exact .refl _ _
    · exact onlyEntry_set _ _ _

theorem within_access (mainFile : Option (AzureOps × Nat)) (name : String) (flags : AccessFlag) :
    Within ((VfsCall.access mainFile name flags).About s)
      (fun r => Follows (.access mainFile name flags) s r.1)
      ((VfsCall.access mainFile name flags).code s) := by
  unfold VfsCall.code sqliteObjsAccess
  refine Within.bind (Q := fun r => OnlyEntry name s.v r.1) ?_ fun _ hv => follows_of_data hv rfl
  split
  · exact .refl _ _
  cases hsel : resolveOps s.v mainFile name with
  | none => exact .refl _ _
  | some sel =>
    obtain ⟨ops, ctx⟩ := sel
    dsimp only
    split
    · exact .refl _ _
    split
    · exact .refl _ _
    have hb : (VfsCall.access mainFile name flags).blob s = some ⟨ctx, name⟩ := by
      rw [VfsCall.blob, hsel]
      rfl
    refine (within_azBlobExists.mono (fun _ hr => about_of_concerns hb (concerns_of_touches hr))
      fun _ hr => hr).bind fun (arc, found) _ => ?_
    dsimp only
    split
    · exact .refl _ _
    · rw [pure_eq_ret, within_ret]
      dsimp only
      split
      · exact onlyEntry_put _ _ _
      · exact .refl _ _

/-- Every call talks about its blob only, and follows. -/
theorem within_code (c : VfsCall) (s : Process) :
    Within (c.About s) (fun r => Follows c s r.1) (c.code s) := by
  cases c with
  | «open» h name uri ft create => exact within_open h name uri ft create
  | delete mainFile name => exact within_delete mainFile name
  | access mainFile name flags => exact within_access mainFile name flags
  | close h =>
    simp only [VfsCall.code]
    cases hp : s.files h with
    | none => exact within_ret.mpr (.refl _ s)
    | some p =>
      have hb : (VfsCall.close h).blob s = some p.blob := by simp [VfsCall.blob, hp]
      have hn : (VfsCall.close h).name s = some p.zBlobName := by simp [VfsCall.name, hp]
      refine ((within_sqliteObjsClose p).mono (fun _ => about_of_concerns hb) fun _ hr => hr).bind
        fun (v, rc) hv => ?_
      refine follows_setFile rfl hn hv ?_
      rintro _ ⟨⟩
  | sync h =>
    simp only [VfsCall.code]
    cases hp : s.files h with
    | none => exact within_ret.mpr (.refl _ s)
    | some p =>
      have hb : (VfsCall.sync h).blob s = some p.blob := by simp [VfsCall.blob, hp]
      have hn : (VfsCall.sync h).name s = some p.zBlobName := by simp [VfsCall.name, hp]
      have hsync := within_sqliteObjsSync (v := s.v) (p := p) rfl
      refine (hsync.mono (fun _ hr => about_of_concerns hb (concerns_of_touches hr))
        fun _ hr => hr).bind fun (v, p', rc) hr => ?_
      refine follows_setFile rfl hn hr.1 ?_
      rintro _ ⟨⟩
      exact Or.inl ⟨p, hp, ObjsFile.ident_of_handle hr.2⟩
  | read h n o =>
    refine within_onFile rfl rfl rfl fun p => ?_
    exact (within_concerns (within_sqliteObjsRead rfl n o) rfl).bind fun _ hr => hr
  | write h buf o =>
    refine within_onFile rfl rfl rfl fun p => ?_
    exact (within_concerns (within_sqliteObjsWrite rfl buf o) rfl).bind fun _ hr => hr
  | truncate h n =>
    refine within_onFile rfl rfl rfl fun p => ?_
    exact (within_concerns (within_sqliteObjsTruncate rfl n) rfl).bind fun _ hr => hr
  | lock h l =>
    refine within_onFile rfl rfl rfl fun p => ?_
    exact (within_sqliteObjsLock p l).bind fun _ hr => hr
  | unlock h l =>
    refine within_onFile rfl rfl rfl fun p => ?_
    exact (within_sqliteObjsUnlock p l).bind fun _ hr => hr
  | checkReservedLock h =>
    refine within_onFile rfl rfl rfl fun p => ?_
    refine Within.bind (Q := fun _ => True) ?_ fun _ _ => rfl
    unfold sqliteObjsCheckReservedLock
    split
    · trivial
    split
    · trivial
    · exact within_execute_bind rfl fun _ => trivial
  | prefetch h =>
    refine within_onFile rfl rfl rfl fun p => ?_
    exact (within_concerns (within_fileControlPrefetch rfl) rfl).bind fun _ hr => hr

end Calls
end SqliteObjs
