import SqliteObjs.Vfs.Lock

/-!
# Opening and closing

`xOpen` of a database downloads the blob into a cache file, reuses a persistent
cache file whose ETag matches, or creates the blob. `xOpen` of a journal or WAL
loads the blob into memory. `xClose` flushes, releases the lease, and keeps or
removes the cache file.
-/

set_option autoImplicit false

namespace SqliteObjs

open Data

/-- The URI parameters `xOpen` reads. `client` is the storage the `azure_*`
parameters name, when they are given: two clients made for one storage are not told apart. -/
structure UriParams where
  client : Option Nat := none
  account : String := ""
  container : String := ""
  cacheDir : String := ""
  cacheReuse : Bool := false
  prefetch : PrefetchMode := .all

/-! ## Cache paths -/

/-- FNV-1a. -/
def fnv1aHash (data : List UInt8) : UInt64 :=
  data.foldl (fun h b => (h ^^^ b.toUInt64) * 0x100000001b3) 0xcbf29ce484222325

/-- The directory of cache files, without a trailing slash. -/
def cacheDirName (cacheDir : String) : String :=
  if cacheDir = "" then "/tmp"
  else if cacheDir.toList.getLast? = some '/' then String.ofList cacheDir.toList.dropLast
  else cacheDir

/-- A deterministic cache file path from blob identity. -/
def cachePathOf (uri : UriParams) (zName : String) : Path :=
  let key := uri.account ++ ":" ++ uri.container ++ ":" ++ zName
  .cache (cacheDirName uri.cacheDir) (fnv1aHash (key.toList.flatMap String.utf8EncodeChar))

/-- `buildCachePath`: `none` when an allocation fails. -/
def buildCachePath (uri : UriParams) (zName : String) : Prog (Option Path) := do
  let m ← sys (.malloc 1)
  if m.ok then return some (cachePathOf uri zName) else return none

/-- A cache file with a random name. -/
def openTempCache (p : ObjsFile) (uri : UriParams) : Prog (Except Rc (ObjsFile × Fd)) := do
  let m ← sys (.malloc 1)
  if !m.ok then return .error .nomem
  else
    let t ← sys (.mkstemp (cacheDirName uri.cacheDir))
    if !t.ok then return .error .cantopen
    else return .ok ({ p with cacheFd := some t.fd, zCachePath := some t.path }, t.fd)

/-- A fresh cache file under the deterministic name. -/
def openFreshCache (p : ObjsFile) (path : Path) : Prog (Except Rc (ObjsFile × Fd)) := do
  let t ← sys (.openTrunc path)
  if !t.ok then return .error .cantopen
  else return .ok ({ p with cacheFd := some t.fd, zCachePath := some path, cacheReuse := true },
    t.fd)

/-! ## Filling the cache -/

/-- Unlink the cache file and fail. -/
def failDownload (p : ObjsFile) (rc : Rc) : Prog (Except Rc ObjsFile) :=
  match p.zCachePath with
  | none => return .error rc
  | some path => do
    let _ ← sys (.unlink path)
    return .error rc

/-- Lazy cache: a sparse cache file with the first pages. -/
def lazyDownload (p : ObjsFile) (fd : Fd) (blobSize : Nat) : Prog (Except Rc ObjsFile) := do
  let t ← sys (.ftruncate fd blobSize)
  if !t.ok then failDownload p .ioerr
  else
    let bootstrapLen := min page1Bootstrap blobSize
    let bbuf ← azPageBlobRead p.blob 0 bootstrapLen
    if bbuf.err ≠ .ok ∨ bbuf.body.size = 0 then
      failDownload p (azureErrToSqlite bbuf.err .cantopen)
    else
      let data := bbuf.body.slice 0 bootstrapLen
      let nw ← sys (.pwrite fd 0 data)
      if !nw.ok then failDownload p .ioerr
      else
        let p ← redetectPageSize { p with nData := blobSize } fd
        let (p, _) ← bitmapsEnsureCapacity p
        let p := validMarkRange { p with valid := bitmapClearAll p.valid } 0 data.size
        return .ok { p with lastSyncedSize := p.nData }

/-- Full download into the cache file. -/
def eagerDownload (p : ObjsFile) (fd : Fd) (blobSize : Nat) : Prog (Except Rc ObjsFile) := do
  let tempBuf ← sys (.malloc blobSize)
  if !tempBuf.ok then failDownload p .nomem
  else
    let (arc, data) ← downloadBlob p blobSize tempBuf.data
    if arc ≠ .ok then failDownload p (azureErrToSqlite arc .cantopen) else
    let written ← writeAll fd data blobSize 0
    if !written then failDownload p .ioerr else
    let f ← sys (.fsync fd)
    if !f.ok then failDownload p .ioerr else
    let p ← redetectPageSize { p with nData := blobSize } fd
    let (p, _) ← bitmapsEnsureCapacity p
    return .ok { p with lastSyncedSize := p.nData }

/-- `cache_download`. -/
def cacheDownload (p : ObjsFile) (fd : Fd) (blobSize : Nat) : Prog (Except Rc ObjsFile) :=
  if blobSize = 0 then return .ok { p with nData := 0 }
  else if p.prefetchMode = .none then lazyDownload p fd blobSize
  else eagerDownload p fd blobSize

/-- The valid bitmap of a reused cache file in lazy mode. -/
def loadValid (p : ObjsFile) (path : Path) : Prog ObjsFile :=
  if p.prefetchMode ≠ .none then return p
  else do
    let invalid (p : ObjsFile) : Prog ObjsFile := do
      let (valid, _) ← bitmapEnsureCapacity p.valid p.nData p.pageSize
      return { p with valid := bitmapClearAll valid }
    match ← readStateFile path with
    | none => invalid p
    | some (ps, fs, bitmap) =>
      if ps = p.pageSize ∧ fs = p.nData then
        let valid := { p.valid with data := bitmap, nSet := 0 }
        let nPg := (pageCount p.nData p.pageSize).toNat
        let nSet := ((List.range nPg).filter fun vi => bitmapTestBit valid vi).length
        return { p with valid := { valid with nSet := nSet } }
      else invalid p

/-- Take over a cache file whose ETag matches the blob's. -/
def adoptCache (p : ObjsFile) (path : Path) (fd : Fd) (blobSize : Nat) : Prog ObjsFile := do
  let p := { p with
    cacheFd := some fd, zCachePath := some path, cacheReuse := true, nData := blobSize }
  let p ← redetectPageSize p fd
  let (p, _) ← bitmapsEnsureCapacity p
  let p := { p with lastSyncedSize := p.nData }
  let snapshot ← readSnapshotFile path
  loadValid { p with snapshot := snapshot } path

/-- Bring a cache file of an earlier session up to date from its snapshot. -/
def openStaleCache (p : ObjsFile) (path : Path) (fd : Fd) (snapshot : Snapshot)
    (blobSize : Nat) : Prog (Except Rc ObjsFile) := do
  let cachedSize ← sys (.fileSize fd)
  let p := { p with
    cacheFd := some fd, zCachePath := some path, cacheReuse := true
    nData := cachedSize.n, snapshot := some snapshot }
  let (p, _) ← bitmapsEnsureCapacity p
  let (p, diffOk) ← applyIncrementalDiff { p with lastSyncedSize := p.nData } fd blobSize
  if diffOk then return .ok p
  else
    let _ ← sys (.ftruncate fd 0)
    let _ ← sys (.lseekSet fd)
    cacheDownload { p with nData := 0, snapshot := none } fd blobSize

/-- The cache file of an earlier session does not match: diff, or download. -/
def openMismatch (p : ObjsFile) (path : Path) (blobSize : Nat) : Prog (Except Rc ObjsFile) := do
  let fresh : Prog (Except Rc ObjsFile) := do
    match ← openFreshCache p path with
    | .error rc => return .error rc
    | .ok (p, fd) => cacheDownload p fd blobSize
  match ← readSnapshotFile path with
  | none => fresh
  | some snapshot =>
    let f ← sys (.openRdwr path)
    if !f.ok then fresh else openStaleCache p path f.fd snapshot blobSize

/-- Open with cache reuse: adopt a matching cache file. -/
def openReuse (p : ObjsFile) (path : Path) (blobSize : Nat) : Prog (Except Rc ObjsFile) := do
  let stored ← readEtagFile path
  if stored ≠ none ∧ stored = p.etag then
    let f ← sys (.openRdwr path)
    if !f.ok then openMismatch p path blobSize
    else
      let cachedSize ← sys (.fileSize f.fd)
      if cachedSize.ok && cachedSize.n == blobSize then
        let p ← adoptCache p path f.fd blobSize
        return .ok p
      else openMismatch p path blobSize
  else openMismatch p path blobSize

/-- Download into a cache file with a random name. -/
def openTemp (p : ObjsFile) (uri : UriParams) (blobSize : Nat) : Prog (Except Rc ObjsFile) := do
  match ← openTempCache p uri with
  | .error rc => return .error rc
  | .ok (p, fd) => cacheDownload p fd blobSize

/-- `xOpen` of a database whose blob exists. -/
def openExisting (p : ObjsFile) (uri : UriParams) : Prog (Except Rc ObjsFile) := do
  let head ← azBlobGetProperties p.blob
  if head.err ≠ .ok then return .error (azureErrToSqlite head.err .cantopen)
  else
    let p := { p with etag := head.etag }
    if uri.cacheReuse ∧ 0 < head.size then
      match ← buildCachePath uri p.zBlobName with
      | none => openTemp p uri head.size
      | some path => openReuse p path head.size
    else openTemp p uri head.size

/-- The cache file of a new database. -/
def newCache (p : ObjsFile) (uri : UriParams) : Prog (Except Rc (ObjsFile × Fd)) :=
  if uri.cacheReuse then do
    match ← buildCachePath uri p.zBlobName with
    | none => openTempCache p uri
    | some path => openFreshCache p path
  else openTempCache p uri

/-- Create a new page blob. -/
def createBlob (p : ObjsFile) : Prog AzErr :=
  if p.ops.pageBlobCreate then do
    let x ← azPageBlobCreate p.blob 0
    return x.err
  else return .ok

/-- `xOpen` of a database that is created. -/
def openCreated (p : ObjsFile) (uri : UriParams) : Prog (Except Rc ObjsFile) := do
  let arc ← createBlob p
  if arc ≠ .ok then return .error (azureErrToSqlite arc .cantopen)
  else match ← newCache p uri with
  | .error rc => return .error rc
  | .ok (p, _) => return .ok { p with nData := 0 }

/-- The existence check of `xOpen`; without it a blob counts as missing. -/
def checkExists (p : ObjsFile) : Prog (AzErr × Bool) :=
  if p.ops.blobExists then azBlobExists p.blob else return (.ok, false)

/-- `xOpen` of a database. -/
def openMainDb (p : ObjsFile) (uri : UriParams) (create : Bool) : Prog (Except Rc ObjsFile) := do
  let (arc, found) ← checkExists p
  if arc ≠ .ok ∧ arc ≠ .notFound then return .error (azureErrToSqlite arc .cantopen)
  else if found && p.ops.blobGetProperties then openExisting p uri
  else if found then return .ok p
  else if create then openCreated p uri
  else return .error .cantopen

/-! ## Journals and WALs -/

/-- The existence of a journal blob, from the cache when it says there is none. An
error of the request leaves the journal missing. -/
def journalExists (v : VfsData) (p : ObjsFile) : Prog (VfsData × Bool) :=
  let jce := journalCacheGetOrCreate v p.zBlobName
  if jce.2 ∧ journalCacheState jce.1 p.zBlobName = some false then return (jce.1, false)
  else if p.ops.blobExists then do
    let (_, ex) ← azBlobExists p.blob
    return (if jce.2 then journalCacheSet jce.1 p.zBlobName ex else jce.1, ex)
  else return (jce.1, false)

/-- `xOpen` of a rollback journal. -/
def openJournal (v : VfsData) (p : ObjsFile) : Prog (VfsData × Except Rc ObjsFile) := do
  let (v, ex) ← journalExists v p
  if ex && p.ops.blockBlobDownload then
    let buf ← azBlockBlobDownload p.blob
    if buf.err = .ok ∧ 0 < buf.body.size then
      let (data, rc) ← bufferEnsure p.aJrnlData buf.body.size
      if rc ≠ .ok then return (v, .error rc)
      else return (v, .ok { p with
        aJrnlData := data.pwrite 0 buf.body
        nJrnlData := buf.body.size })
    else return (v, .ok p)
  else return (v, .ok p)

/-- `xOpen` of a WAL. -/
def openWal (p : ObjsFile) : Prog (Except Rc ObjsFile) :=
  if !p.ops.blockBlobUpload || !p.ops.blockBlobDownload then return .error .cantopen
  else do
    let (arc, ex) ← checkExists p
    if arc ≠ .ok ∧ arc ≠ .notFound then return .error (azureErrToSqlite arc .cantopen)
    else if !ex then return .ok p
    else
      let buf ← azBlockBlobDownload p.blob
      if buf.err ≠ .ok then return .error (azureErrToSqlite buf.err .cantopen)
      else if buf.body.size = 0 then return .ok p
      else
        let (data, rc) ← bufferEnsure p.aWalData buf.body.size
        if rc ≠ .ok then return .error rc
        else return .ok { p with aWalData := data.pwrite 0 buf.body, nWalData := buf.body.size }

/-! ## Entry points -/

/-- The file state before `xOpen` looks at the blob. -/
def newFile (ops : AzureOps) (ctx : Nat) (zName : String) (uri : UriParams) (ft : FileType) :
    ObjsFile where
  ops := ops
  opsCtx := ctx
  zBlobName := zName
  cacheFd := none
  zCachePath := none
  nData := 0
  dirty := .null
  pageSize := defaultPageSize
  lastSyncDirtyCount := 0
  valid := .null
  prefetchMode := uri.prefetch
  eLock := .none
  leaseId := none
  leaseAcquiredAt := 0
  leaseDuration := leaseDurationDefault
  readsSinceSharedLock := 0
  lastSyncedSize := 0
  etag := none
  snapshot := none
  cacheReuse := false
  eFileType := ft
  aJrnlData := .empty
  nJrnlData := 0
  aWalData := .empty
  nWalData := 0

/-- The client of a file: its own when the URI names a storage, else the global one. -/
def selectOps (v : VfsData) (uri : UriParams) : Prog (Option (AzureOps × Nat)) :=
  match uri.client with
  | some ctx => do
    let m ← sys (.malloc 1)
    return if m.ok then some (azureProductionOps, ctx) else none
  | none => return v.ops.map (·, v.opsCtx)

/-- `xOpen` of the files that live in Azure. -/
def sqliteObjsOpen (v : VfsData) (zName : String) (uri : UriParams) (ft : FileType)
    (create : Bool) : Prog (VfsData × Except Rc ObjsFile) :=
  if zName = "" then return (v, .error .cantopen)
  else do
    let m ← sys (.malloc (zName.utf8ByteSize + 1))
    if !m.ok then return (v, .error .nomem)
    else match ← selectOps v uri with
    | none => return (v, .error .cantopen)
    | some (ops, ctx) =>
      let p := newFile ops ctx zName uri ft
      match ft with
      | .mainDb =>
        let r ← openMainDb p uri create
        return (v, r.map fun p => { p with dirty := bitmapClearAll p.dirty })
      | .mainJournal => openJournal v p
      | .wal =>
        let r ← openWal p
        return (v, r)

/-- The flush of `xClose`. -/
def closeFlush (v : VfsData) (p : ObjsFile) : Prog (VfsData × ObjsFile × Rc) :=
  if 0 < p.dirty.nSet ∧ p.ops.pageBlobWrite then sqliteObjsSync v p
  else if p.eFileType = .wal ∧ 0 < p.nWalData then sqliteObjsSync v p
  else return (v, p, .ok)

/-- Refresh the ETag from Azure before persisting the sidecar. -/
def closeRefreshEtag (p : ObjsFile) (rc : Rc) : Prog ObjsFile :=
  if p.cacheReuse ∧ p.ops.blobGetProperties ∧ rc = .ok then do
    let head ← azBlobGetProperties p.blob
    return if head.err = .ok ∧ head.etag ≠ none then { p with etag := head.etag } else p
  else return p

/-- Release the lease in `xClose`. -/
def closeReleaseLease (p : ObjsFile) : Prog ObjsFile :=
  match p.ops.leaseRelease, p.leaseId with
  | true, some id => do
    let _ ← azLeaseRelease p.blob id
    return { p with leaseId := none }
  | _, _ => return p

/-- Sync and close the descriptor of the cache file. -/
def closeCacheFd (p : ObjsFile) : Prog ObjsFile :=
  match p.cacheFd with
  | none => return p
  | some fd => do
    let _ ← sys (.fsync fd)
    return { p with cacheFd := none }

/-- Keep a clean cache file with its sidecars, or remove them. -/
def closeCache (p : ObjsFile) : Prog ObjsFile :=
  match p.zCachePath with
  | none => return p
  | some path =>
    if p.cacheReuse ∧ p.etag ≠ none ∧ !bitmapHasAny p.dirty then do
      writeStateFile path p.pageSize p.nData p.valid.data
      writeEtagFile path p.etag
      writeSnapshotFile path p.snapshot
      return { p with zCachePath := none }
    else do
      unlinkCache path
      return { p with zCachePath := none }

/-- `xClose`. -/
def sqliteObjsClose (v : VfsData) (p : ObjsFile) : Prog (VfsData × Rc) := do
  let (v, p, rc) ← closeFlush v p
  let p ← closeRefreshEtag p rc
  let p ← closeReleaseLease p
  let p ← closeCacheFd p
  let _ ← closeCache p
  return (v, rc)

end SqliteObjs
