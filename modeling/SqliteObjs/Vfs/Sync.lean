import SqliteObjs.Vfs.Journal

/-!
# Syncing

`xSync`: the dirty pages of a database are coalesced into ranges and written to the
page blob, a journal or WAL is uploaded whole as a block blob.
-/

set_option autoImplicit false

namespace SqliteObjs

open Data

/-! ## Coalescing -/

/-- The end of a dirty run that starts at page `i`, with its number of pages: it
stops at a clean page, at `nPages`, or when the run is as long as one request may
be. `n` bounds the rounds. -/
def dirtyRun (dirty : Bitmap) (pageSize nPages : Nat) : Nat → Nat → Nat → Nat × Nat
  | 0, i, runPages => (i, runPages)
  | n + 1, i, runPages =>
    if i < nPages ∧ bitmapTestBit dirty i then
      if maxPutPage ≤ (runPages + 1) * pageSize then (i + 1, runPages + 1)
      else dirtyRun dirty pageSize nPages n (i + 1) (runPages + 1)
    else (i, runPages)

/-- The scan of `coalesceDirtyRanges` from page `i`, as offsets and lengths. -/
def coalesceFrom (dirty : Bitmap) (pageSize nData nPages : Nat) : Nat → Nat → List (Nat × Nat)
  | 0, _ => []
  | n + 1, i =>
    if nPages ≤ i then []
    else if !bitmapTestBit dirty i then coalesceFrom dirty pageSize nData nPages n (i + 1)
    else
      let run := dirtyRun dirty pageSize nPages (nPages - i) i 0
      let runStart := i * pageSize
      let runEnd := min (runStart + run.2 * pageSize) nData
      (runStart, align512 (runEnd - runStart)) ::
        coalesceFrom dirty pageSize nData nPages n run.1

/-- Scan the dirty bitmap and merge contiguous dirty pages into ranges; `none` if
there are more than `maxRanges`. -/
def coalesceDirtyRanges (p : ObjsFile) (maxRanges : Int) : Option (List (Nat × Nat)) :=
  if p.dirty.nSet = 0 then some []
  else if p.dirty.data = [] ∨ p.pageSize = 0 ∨ p.nData = 0 then some []
  else
    let nPages := (pageCount p.nData p.pageSize).toNat
    let ranges := coalesceFrom p.dirty p.pageSize p.nData nPages nPages 0
    if ranges ≠ [] ∧ maxRanges < ranges.length then none else some ranges

/-- The ranges `xSync` works with: from the stack, or from a heap array with one
entry for each dirty page. -/
def syncRanges (p : ObjsFile) : Prog (Except Rc (List (Nat × Nat))) :=
  match coalesceDirtyRanges p stackRanges with
  | some ranges => return .ok ranges
  | none => do
    let m ← sys (.malloc (p.dirty.nSet * 24).toNat)
    if !m.ok then return .error .nomem
    else match coalesceDirtyRanges p p.dirty.nSet with
    | none => return .error .ioerrFsync
    | some ranges => return .ok ranges

/-! ## Reading the ranges from the cache file -/

/-- Read each range from the cache file, zero-filled to its length. -/
def readRanges (fd : Option Fd) : List (Nat × Nat) → Prog (Option (List PageRange))
  | [] => return some []
  | (offset, len) :: rs =>
    match fd with
    | none => return none
    | some f => do
      let nRead ← sys (.pread f offset len)
      if !nRead.ok then return none
      else
        let rest ← readRanges fd rs
        return rest.map ({ offset := offset, data := nRead.data.truncate len } :: ·)

/-- Extend the cache file to the aligned end of the last range, best effort. -/
def padCache (fd : Option Fd) (ranges : List (Nat × Nat)) : Prog Unit :=
  match fd, ranges.getLast? with
  | some f, some (offset, len) => do
    let curSize ← sys (.fileSize f)
    if curSize.ok && curSize.n < offset + len then
      let _ ← sys (.ftruncate f (offset + len))
      return ()
    else return ()
  | _, _ => return ()

/-- The data of the ranges. -/
def loadRanges (p : ObjsFile) (ranges : List (Nat × Nat)) :
    Prog (Except Rc (List PageRange)) :=
  let totalRangeBytes := (ranges.map (·.2)).sum
  if totalRangeBytes = 0 then return .ok (ranges.map fun r => { offset := r.1, data := .empty })
  else do
    padCache p.cacheFd ranges
    let buf ← sys (.malloc totalRangeBytes)
    if !buf.ok then return .error .nomem
    else
      let loaded ← readRanges p.cacheFd ranges
      return loaded.elim (.error .ioerrFsync) .ok

/-! ## Writing -/

/-- `hasLease(p) || !p->etag[0] ? NULL : p->etag`. -/
def syncIfMatch (p : ObjsFile) : Option ETag :=
  if p.leaseId.isSome then none else p.etag

/-- Renew the lease periodically during large flushes. -/
def renewEvery50 (p : ObjsFile) (i : Nat) : Prog (ObjsFile × Rc) :=
  if 0 < i ∧ i % 50 = 0 then leaseRenewIfNeeded p else return (p, .ok)

/-- Write each range; `i` counts them. The last answer's ETag is kept. -/
def writeSequential : List PageRange → Nat → Option ETag → ObjsFile →
    Prog (ObjsFile × Except Rc (Option ETag))
  | [], _, etag, p => return (p, .ok etag)
  | r :: rs, i, _, p => do
    let (p, rc) ← renewEvery50 p i
    if rc ≠ .ok then return (p, .error .ioerrFsync)
    else
      let x ← azPageBlobWrite p.blob r.offset r.data p.leaseId (syncIfMatch p)
      if x.err = .precondition then return (p, .error .busy)
      else if x.err ≠ .ok then return (p, .error .ioerrFsync)
      else writeSequential rs (i + 1) x.etag p

/-- The ETag in `aerr` before the first range is written: an earlier resize filled
it, or nothing did. -/
def etagBefore : Option (Option ETag) → Prog (Option ETag)
  | some e => return e
  | none => do
    let u ← sys .uninit
    return if u.ok then some u.n else none

/-- The writes of `xSync`, in a batch when available. `aerr` is what the resize left
in the error structure. -/
def writeRanges (p : ObjsFile) (ranges : List PageRange) (aerr : Option (Option ETag)) :
    Prog (ObjsFile × Except Rc (Option ETag)) :=
  if p.ops.pageBlobWriteBatch then do
    let x ← azPageBlobWriteBatch p.blob ranges p.leaseId (syncIfMatch p)
    if x.err = .precondition then return (p, .error .busy)
    else if x.err ≠ .ok then return (p, .error .ioerrFsync)
    else return (p, .ok x.etag)
  else do
    let etag ← etagBefore aerr
    writeSequential ranges 0 etag p

/-- Persist the ETag for cache reuse. -/
def persistEtag (p : ObjsFile) : Prog Unit :=
  match p.cacheReuse, p.zCachePath with
  | true, some path => writeEtagFile path p.etag
  | _, _ => return ()

/-- Take over the ETag of the flush and clear the dirty bits. -/
def finishFlush (p : ObjsFile) (dirtyCountBeforeSync : Int) (etag : Option ETag) :
    Prog ObjsFile :=
  match etag with
  | none => return { p with
      lastSyncDirtyCount := dirtyCountBeforeSync
      dirty := bitmapClearAll p.dirty }
  | some e => do
    let p := { p with lastSyncDirtyCount := dirtyCountBeforeSync, etag := some e }
    persistEtag p
    return { p with dirty := bitmapClearAll p.dirty }

/-- Create a blob snapshot for incremental diff, best effort. -/
def takeSnapshot (p : ObjsFile) : Prog ObjsFile :=
  if p.cacheReuse ∧ p.ops.blobSnapshotCreate then do
    let x ← azBlobSnapshotCreate p.blob
    return if x.err = .ok then { p with snapshot := some x.snapshot } else p
  else return p

/-- Persist the `.state` sidecar, best effort. -/
def persistState (p : ObjsFile) : Prog Unit :=
  match p.cacheReuse, p.zCachePath with
  | true, some path => writeStateFile path p.pageSize p.nData p.valid.data
  | _, _ => return ()

/-- Resize the blob if the file has grown since the last sync. -/
def resizeForSync (p : ObjsFile) : Prog (ObjsFile × Rc × Option (Option ETag)) :=
  if p.lastSyncedSize < p.nData ∧ p.ops.pageBlobResize then do
    let x ← azPageBlobResize p.blob (align512 p.nData) p.leaseId
    if x.err ≠ .ok then return (p, .ioerrFsync, none)
    else return ({ p with lastSyncedSize := p.nData }, .ok, some x.etag)
  else return (p, .ok, none)

/-- `xSync` of a database. -/
def mainDbSync (p : ObjsFile) : Prog (ObjsFile × Rc) :=
  if p.dirty.nSet = 0 then return (p, .ok)
  else if !p.ops.pageBlobWrite then return (p, .ioerrFsync)
  else do
    let dirtyCountBeforeSync := p.dirty.nSet
    let (p, rc) ← leaseRenewIfNeeded p
    if rc ≠ .ok then return (p, .ioerrFsync)
    else
      let (p, rc, aerr) ← resizeForSync p
      if rc ≠ .ok then return (p, rc)
      else match ← syncRanges p with
      | .error rc => return (p, rc)
      | .ok ranges =>
        match ← loadRanges p ranges with
        | .error rc => return (p, rc)
        | .ok loaded =>
          match ← writeRanges p loaded aerr with
          | (p, .error rc) => return (p, rc)
          | (p, .ok etag) =>
            let p ← finishFlush p dirtyCountBeforeSync etag
            let p ← takeSnapshot p
            persistState p
            return (p, .ok)

/-- Upload the WAL, in blocks when that is configured. -/
def uploadWal (v : VfsData) (p : ObjsFile) : Prog AzReply :=
  let data := p.aWalData.truncate p.nWalData
  if v.walParallelUpload && p.ops.blockBlobUploadParallel then
    azBlockBlobUploadParallel p.blob data
      (if 0 < v.walChunkSize then v.walChunkSize else walDefaultChunk)
  else azBlockBlobUpload p.blob data

/-- `xSync` of a WAL. -/
def walSync (v : VfsData) (p : ObjsFile) : Prog Rc :=
  if p.nWalData = 0 then return .ok
  else if !p.ops.blockBlobUpload then return .ioerrFsync
  else do
    let x ← uploadWal v p
    if x.err ≠ .ok then return .ioerrFsync else return .ok

/-- `xSync` of a rollback journal: an empty journal is not uploaded. -/
def journalSync (v : VfsData) (p : ObjsFile) : Prog (VfsData × Rc) :=
  if 0 < p.nJrnlData ∧ p.ops.blockBlobUpload then do
    let x ← azBlockBlobUpload p.blob (p.aJrnlData.truncate p.nJrnlData)
    if x.err ≠ .ok then return (v, .ioerrFsync)
    else return (journalCachePut v p.zBlobName true, .ok)
  else return (v, .ok)

/-- `xSync`. -/
def sqliteObjsSync (v : VfsData) (p : ObjsFile) : Prog (VfsData × ObjsFile × Rc) :=
  match p.eFileType with
  | .wal => do
    let rc ← walSync v p
    return (v, p, rc)
  | .mainJournal => do
    let (v, rc) ← journalSync v p
    return (v, p, rc)
  | .mainDb => do
    let (p, rc) ← mainDbSync p
    return (v, p, rc)

end SqliteObjs
