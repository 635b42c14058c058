import SqliteObjs.Vfs.File

/-!
# The cache file

Filling the cache file of a database from its blob: windows of pages on a miss, the
pages that are still missing, the ranges that changed since a snapshot, or the
whole blob. The sidecar files beside a persistent cache file are read and written
here too.
-/

set_option autoImplicit false

namespace SqliteObjs

open Data

/-! ## Pages -/

/-- Write downloaded bytes to the cache file and mark their pages valid. -/
def storeFetched (p : ObjsFile) (fd : Fd) (startOffset : Nat) (data : Bytes) :
    Prog (ObjsFile × Rc) := do
  let nw ← sys (.pwrite fd startOffset data)
  if !nw.ok then return (p, .ioerrWrite)
  else return (validMarkRange p startOffset (startOffset + data.size), .ok)

/-- Fetch a window of pages from Azure into the local cache file. -/
def fetchPagesFromAzure (p : ObjsFile) (pageIdx : Int) : Prog (ObjsFile × Rc) :=
  if !p.ops.pageBlobRead then return (p, .ioerrRead)
  else match p.cacheFd with
  | none => return (p, .ioerrRead)
  | some fd =>
    if p.pageSize = 0 then return (p, .ioerrRead)
    -- a negative offset is refused by the client
    else if pageIdx < 0 then return (p, .ioerrRead)
    else
      let startOffset := pageIdx.toNat * p.pageSize
      let endOffset := min (startOffset + readaheadPages * p.pageSize) p.nData
      if p.nData ≤ startOffset then return (p, .ok)
      else do
        let rbuf ← azPageBlobRead p.blob startOffset (endOffset - startOffset)
        if rbuf.err ≠ .ok then return (p, .ioerrRead)
        else if rbuf.body.size = 0 then return (p, .ioerrRead)
        else storeFetched p fd startOffset (rbuf.body.slice 0 (endOffset - startOffset))

/-- The first index from `i` on, at most `n` further, where `f` fails. -/
def scanWhile (f : Nat → Bool) : Nat → Nat → Nat
  | 0, i => i
  | n + 1, i => if f i then scanWhile f n (i + 1) else i

/-- The loop of `prefetchInvalidPages`, from page `i`; `n` bounds its rounds. -/
def prefetchFrom (p : ObjsFile) (fd : Fd) (nPages : Nat) : Nat → Nat → Prog (ObjsFile × Rc)
  | 0, _ => return (p, .ok)
  | n + 1, i =>
    if nPages ≤ i then return (p, .ok)
    else if bitmapTestBit p.valid i then prefetchFrom p fd nPages n (i + 1)
    else do
      let rangeEnd := scanWhile (fun j => !bitmapTestBit p.valid j) (nPages - i) i
      let startOffset := i * p.pageSize
      let fetchLen := min (rangeEnd * p.pageSize) p.nData - startOffset
      if fetchLen = 0 then prefetchFrom p fd nPages n rangeEnd
      else
        let rbuf ← azPageBlobRead p.blob startOffset fetchLen
        if rbuf.err ≠ .ok then return (p, .ioerrRead)
        else if rbuf.body.size = 0 then return (p, .ioerrRead)
        else
          let (p, rc) ← storeFetched p fd startOffset (rbuf.body.slice 0 fetchLen)
          if rc ≠ .ok then return (p, rc)
          else prefetchFrom p fd nPages n rangeEnd

/-- Download all invalid pages in the valid bitmap. -/
def prefetchInvalidPages (p : ObjsFile) : Prog (ObjsFile × Rc) :=
  if p.valid.data = [] ∨ p.pageSize = 0 ∨ p.nData = 0 then return (p, .ok)
  else if !p.ops.pageBlobRead then return (p, .ioerr)
  else match p.cacheFd with
  | none => return (p, .ioerrWrite)
  | some fd =>
    let nPages := (pageCount p.nData p.pageSize).toNat
    prefetchFrom p fd nPages nPages 0

/-- `PRAGMA sqlite_objs_prefetch`. -/
def fileControlPrefetch (p : ObjsFile) : Prog (ObjsFile × Rc) :=
  if p.prefetchMode = .none ∧ p.valid.data ≠ [] then prefetchInvalidPages p
  else return (p, .ok)

/-! ## Changed ranges -/

/-- Store one changed or cleared range: the cache file, then its valid marks. -/
def storeDiff (p : ObjsFile) (fd : Fd) (start : Nat) (data : Bytes) : Prog (ObjsFile × Bool) := do
  let nw ← sys (.pwrite fd start data)
  if !nw.ok then return (p, false)
  else if p.valid.data ≠ [] then return (validMarkRange p start (start + data.size), true)
  else return (p, true)

/-- Apply each changed or cleared range to the cache file. -/
def applyDiffRanges (fd : Fd) : List DiffRange → ObjsFile → Prog (ObjsFile × Bool)
  | [], p => return (p, true)
  | r :: rs, p => do
    let rangeLen := r.stop + 1 - r.start
    if rangeLen = 0 then applyDiffRanges fd rs p
    else if r.isClear then
      let zeros ← sys (.malloc rangeLen)
      if !zeros.ok then return (p, false)
      else
        let (p, ok) ← storeDiff p fd r.start (SparseFile.empty.truncate rangeLen)
        if !ok then return (p, false) else applyDiffRanges fd rs p
    else
      let rbuf ← azPageBlobRead p.blob r.start rangeLen
      if rbuf.err ≠ .ok ∨ rbuf.body.size < rangeLen then return (p, false)
      else
        let (p, ok) ← storeDiff p fd r.start (rbuf.body.slice 0 rangeLen)
        if !ok then return (p, false) else applyDiffRanges fd rs p

/-- Resize the cache file if the blob grew. -/
def growForDiff (p : ObjsFile) (fd : Fd) (blobSize : Nat) : Prog SysReply :=
  if p.nData < blobSize then sys (.ftruncate fd blobSize) else return { ok := true }

/-- Truncate the cache file if the blob shrank. -/
def shrinkForDiff (p : ObjsFile) (fd : Fd) (blobSize : Nat) : Prog Unit :=
  if blobSize < p.nData then do
    let _ ← sys (.ftruncate fd blobSize)
    return ()
  else return ()

/-- Apply incremental diff from a previous snapshot to the local cache file; `false`
when the caller has to download everything. -/
def applyIncrementalDiff (p : ObjsFile) (fd : Fd) (blobSize : Nat) : Prog (ObjsFile × Bool) :=
  match p.snapshot with
  | none => return (p, false)
  | some snapshot =>
    if !p.ops.blobGetPageRangesDiff || !p.ops.pageBlobRead then return (p, false)
    else do
      let diff ← azBlobGetPageRangesDiff p.blob snapshot
      if diff.err ≠ .ok then return (p, false)
      else
        let grown ← growForDiff p fd blobSize
        if !grown.ok then return (p, false)
        else
          let (p, diffOk) ← applyDiffRanges fd diff.ranges p
          if !diffOk then return (p, false)
          else
            shrinkForDiff p fd blobSize
            let _ ← sys (.fsync fd)
            let p ← redetectPageSize { p with nData := blobSize } fd
            let (p, _) ← bitmapsEnsureCapacity p
            return ({ p with
              dirty := bitmapClearAll p.dirty
              lastSyncedSize := p.nData }, true)

/-! ## The whole blob -/

/-- `write` until the whole buffer is in the file; `n` bounds the rounds. -/
def writeAll (fd : Fd) (buf : Bytes) : Nat → Nat → Prog Bool
  | 0, _ => return true
  | n + 1, total =>
    if buf.size ≤ total then return true
    else do
      let nWritten ← sys (.write fd total (buf.slice total (buf.size - total)))
      if !nWritten.ok || nWritten.n == 0 then return false
      else writeAll fd buf n (total + nWritten.n)

/-- Download `blobSize` bytes into a fresh buffer, in parallel when available. -/
def downloadBlob (p : ObjsFile) (blobSize : Nat) (tempBuf : Bytes) : Prog (AzErr × Bytes) :=
  if p.ops.pageBlobReadMulti then azPageBlobReadMulti p.blob blobSize tempBuf
  else do
    let buf ← azPageBlobRead p.blob 0 blobSize
    if buf.err ≠ .ok then return (buf.err, tempBuf)
    else if buf.body.size = 0 then return (.invalidArg, tempBuf)
    else return (.ok, tempBuf.pwrite 0 (buf.body.slice 0 blobSize))

/-! ## Sidecar files -/

def readEtagFile (path : Path) : Prog (Option ETag) := do
  let x ← sys (.sidecarRead path .etag)
  match x.ok, x.sidecar with
  | true, .etag e => return some e
  | _, _ => return none

def writeEtagFile (path : Path) (etag : Option ETag) : Prog Unit :=
  match etag with
  | none => return ()
  | some e => do
    let m ← sys (.malloc 1)
    if !m.ok then return () else
    let fd ← sys (.sidecarTrunc path .etag)
    if !fd.ok then return () else
    let _ ← sys (.sidecarWrite path .etag (.etag e))
    return ()

def readSnapshotFile (path : Path) : Prog (Option Snapshot) := do
  let x ← sys (.sidecarRead path .snapshot)
  match x.ok, x.sidecar with
  | true, .snapshot s => return some s
  | _, _ => return none

def writeSnapshotFile (path : Path) (snapshot : Option Snapshot) : Prog Unit :=
  match snapshot with
  | none => return ()
  | some s => do
    let m ← sys (.malloc 1)
    if !m.ok then return () else
    let fd ← sys (.sidecarTrunc path .snapshot)
    if !fd.ok then return () else
    let _ ← sys (.sidecarWrite path .snapshot (.snapshot s))
    return ()

/-- Write the valid bitmap beside the cache file, by an atomic rename. -/
def writeStateFile (path : Path) (pageSize fileSize : Nat) (aValid : List UInt8) : Prog Unit :=
  if aValid = [] then return ()
  else do
    let buf ← sys (.malloc (24 + aValid.length + 4))
    if !buf.ok then return () else
    let _ ← sys (.sidecarRename path .state (.state pageSize fileSize aValid))
    return ()

/-- The saved page size, file size and bitmap, if they are sane. -/
def readStateFile (path : Path) : Prog (Option (Nat × Nat × List UInt8)) := do
  let x ← sys (.sidecarRead path .state)
  match x.ok, x.sidecar with
  | true, .state ps fs bitmap =>
    if ps < 512 ∨ 65536 < ps ∨ ps &&& (ps - 1) ≠ 0 then return none
    else if bitmap.length = 0 ∨ 1024 * 1024 < bitmap.length then return none
    else
      let payload ← sys (.malloc (bitmap.length + 4))
      if !payload.ok then return none else return some (ps, fs, bitmap)
  | _, _ => return none

/-- Remove the cache file with its sidecar files. -/
def unlinkCache (path : Path) : Prog Unit := do
  let _ ← sys (.unlink path)
  let _ ← sys (.sidecarUnlink path .etag)
  let _ ← sys (.sidecarUnlink path .snapshot)
  let _ ← sys (.sidecarUnlink path .state)
  return ()

end SqliteObjs
