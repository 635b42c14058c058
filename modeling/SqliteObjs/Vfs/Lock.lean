import SqliteObjs.Vfs.Sync

/-!
# Locking and revalidation

`xLock` and `xUnlock`. `SHARED` takes no lease and refreshes a stale cache; the
higher levels acquire the blob's lease and check that the cache is still current.
-/

set_option autoImplicit false

namespace SqliteObjs

open Data

/-- The end of `refreshMainDbCache`: the cache file holds the downloaded blob. -/
def finishRefresh (p : ObjsFile) (fd : Fd) (blobSize : Nat) : Prog (ObjsFile × Rc) := do
  let p ← redetectPageSize { p with nData := blobSize, snapshot := none } fd
  let (p, _) ← bitmapsEnsureCapacity p
  let p := { p with dirty := bitmapClearAll p.dirty, lastSyncedSize := p.nData }
  if p.valid.data = [] then return (p, .ok)
  else
    let (valid, _) ← bitmapEnsureCapacity p.valid p.nData p.pageSize
    return (validMarkAll { p with valid := valid }, .ok)

/-- Replace the `MAIN_DB` cache with the current blob contents. -/
def refreshMainDbCache (p : ObjsFile) (blobSize : Nat) (etag : Option ETag) :
    Prog (ObjsFile × Rc) :=
  if p.eFileType ≠ .mainDb then return (p, .ok)
  else match p.cacheFd with
  | none => return (p, .ok)
  | some fd => do
    let p := match etag with
      | some e => { p with etag := some e }
      | none => p
    if blobSize = 0 then
      let t ← sys (.ftruncate fd 0)
      if !t.ok then return (p, .ioerr)
      else return ({ p with
        nData := 0
        snapshot := none
        dirty := bitmapClearAll p.dirty
        valid := bitmapClearAll p.valid
        lastSyncedSize := 0 }, .ok)
    else
      let tempBuf ← sys (.malloc blobSize)
      if !tempBuf.ok then return (p, .nomem)
      else if !p.ops.pageBlobReadMulti && !p.ops.pageBlobRead then return (p, .ioerr)
      else
        let (arc, data) ← downloadBlob p blobSize tempBuf.data
        if arc ≠ .ok then return (p, azureErrToSqlite arc .ioerrRead)
        else
          let s ← sys (.lseekSet fd)
          if !s.ok then return (p, .ioerr) else
          let t ← sys (.ftruncate fd 0)
          if !t.ok then return (p, .ioerr) else
          let written ← writeAll fd data blobSize 0
          if !written then return (p, .ioerr) else
          let f ← sys (.fsync fd)
          if !f.ok then return (p, .ioerr) else
          finishRefresh p fd blobSize

/-- Re-validate the local cache after taking `SHARED`. -/
def revalidateBeforeRead (p : ObjsFile) : Prog (ObjsFile × Rc) :=
  if p.eFileType ≠ .mainDb then return (p, .ok)
  else if p.cacheFd = none then return (p, .ok)
  else if p.etag = none then return (p, .ok)
  else if !p.ops.blobGetProperties then return (p, .ok)
  else do
    let head ← azBlobGetProperties p.blob
    if head.err ≠ .ok then return (p, azureErrToSqlite head.err .ioerrRead)
    else if head.etag = none ∨ p.etag = head.etag then return (p, .ok)
    else refreshMainDbCache p head.size head.etag

/-- Re-validate the local cache after acquiring the lease: once pages were read,
a changed blob fails the transaction. -/
def revalidateAfterLease (p : ObjsFile) (leaseEtag : Option ETag) : Prog (ObjsFile × Rc) :=
  if p.eFileType ≠ .mainDb then return (p, .ok)
  else if p.cacheFd = none then return (p, .ok)
  else if p.etag = none then return (p, .ok)
  else if leaseEtag ≠ none ∧ p.etag = leaseEtag then return (p, .ok)
  else if !p.ops.blobGetProperties then return (p, .ok)
  else do
    let head ← azBlobGetProperties p.blob
    if head.err ≠ .ok then return (p, azureErrToSqlite head.err .ioerrRead)
    else if head.etag = none ∨ p.etag = head.etag then return (p, .ok)
    else if p.readsSinceSharedLock = 0 then refreshMainDbCache p head.size head.etag
    else return (p, .busy)

/-- Release the lease in `xLock` and `xUnlock`: errors are ignored. -/
def releaseLease (p : ObjsFile) : Prog ObjsFile :=
  match p.ops.leaseRelease, p.leaseId with
  | true, some id => do
    let _ ← azLeaseRelease p.blob id
    return { p with leaseId := none, leaseAcquiredAt := 0 }
  | _, _ => return { p with leaseId := none, leaseAcquiredAt := 0 }

/-- Acquire the lease, then check the cache under it. -/
def acquireLease (p : ObjsFile) : Prog (ObjsFile × Rc) := do
  let duration :=
    if dirtyPageThreshold < p.lastSyncDirtyCount then leaseDurationLong else leaseDurationDefault
  let x ← azLeaseAcquire p.blob duration
  if x.err = .conflict then return (p, .busy)
  else if x.err ≠ .ok then return (p, azureErrToSqlite x.err .ioerrLock)
  else
    let now ← sys .time
    let p := { p with
      leaseId := some x.leaseId
      leaseAcquiredAt := now.n
      leaseDuration := duration }
    let (p, rv) ← revalidateAfterLease p x.etag
    if rv ≠ .ok then
      let p ← releaseLease p
      return (p, rv)
    else return (p, .ok)

/-- `xLock`. -/
def sqliteObjsLock (p : ObjsFile) (eLock : LockLevel) : Prog (ObjsFile × Rc) :=
  if eLock.rank ≤ p.eLock.rank then return (p, .ok)
  else if eLock = .shared then do
    let (p, rv) ← revalidateBeforeRead { p with readsSinceSharedLock := 0 }
    if rv ≠ .ok then return (p, rv) else return ({ p with eLock := eLock }, .ok)
  else if p.leaseId.isSome then return ({ p with eLock := eLock }, .ok)
  else if !p.ops.leaseAcquire then return ({ p with eLock := eLock }, .ok)
  else do
    let (p, rv) ← acquireLease p
    if rv ≠ .ok then return (p, rv) else return ({ p with eLock := eLock }, .ok)

/-- `xUnlock`. -/
def sqliteObjsUnlock (p : ObjsFile) (eLock : LockLevel) : Prog (ObjsFile × Rc) :=
  if p.eLock.rank ≤ eLock.rank then return (p, .ok)
  else if eLock.rank ≤ LockLevel.shared.rank ∧ p.leaseId.isSome then do
    let p ← releaseLease p
    return ({ p with eLock := eLock }, .ok)
  else return ({ p with eLock := eLock }, .ok)

/-- `xCheckReservedLock`: its result code is always `SQLITE_OK`. -/
def sqliteObjsCheckReservedLock (p : ObjsFile) : Prog Bool :=
  if LockLevel.reserved.rank ≤ p.eLock.rank then return true
  else if !p.ops.blobGetProperties then return false
  else do
    let x ← azBlobGetProperties p.blob
    return x.err = .ok && x.leased

end SqliteObjs
