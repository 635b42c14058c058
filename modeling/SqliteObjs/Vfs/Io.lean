import SqliteObjs.Vfs.Cache

/-!
# Reading, writing and truncating

`xRead`, `xWrite`, `xTruncate` and `xFileSize`. A database goes through its cache
file, a journal and a WAL through a buffer in memory.
-/

set_option autoImplicit false

namespace SqliteObjs

open Data

/-- What `memset(pBuf, 0, iAmt)` leaves in the caller's buffer. -/
def zeroFill (iAmt : Nat) : Bytes := SparseFile.empty.truncate iAmt

/-- Read from an in-memory buffer with zero-fill on short reads. -/
def bufferRead (src : Bytes) (srcLen iAmt iOfst : Nat) : Rc × Bytes :=
  if src.size = 0 ∨ srcLen ≤ iOfst then (.ioerrShortRead, zeroFill iAmt)
  else if iAmt ≤ srcLen - iOfst then (.ok, (src.slice iOfst iAmt).truncate iAmt)
  else (.ioerrShortRead, (src.slice iOfst (srcLen - iOfst)).truncate iAmt)

/-- Fetch every page of `n` pages from `pg` on that is not valid. -/
def fetchMissing : Nat → Int → ObjsFile → Prog (ObjsFile × Rc)
  | 0, _, p => return (p, .ok)
  | n + 1, pg, p =>
    if bitmapTestBit p.valid pg then fetchMissing n (pg + 1) p
    else do
      let (p, rc) ← fetchPagesFromAzure p pg
      if rc ≠ .ok then return (p, rc) else fetchMissing n (pg + 1) p

/-- The lazy part of `xRead`: the pages of the range are fetched on a miss. -/
def fetchForRead (p : ObjsFile) (iAmt iOfst : Nat) : Prog (ObjsFile × Rc) :=
  if p.prefetchMode = .none ∧ p.valid.data ≠ [] ∧ 0 < p.pageSize then
    let readEnd := min (iOfst + iAmt) p.nData
    let startPage := cInt (iOfst / p.pageSize : Nat)
    let endPage := pageCount readEnd p.pageSize
    fetchMissing (endPage - startPage).toNat startPage p
  else return (p, .ok)

/-- `xRead` of a database. -/
def mainDbRead (p : ObjsFile) (iAmt iOfst : Nat) : Prog (ObjsFile × Rc × Bytes) := do
  let p := if LockLevel.shared.rank ≤ p.eLock.rank then
    { p with readsSinceSharedLock := cInt (p.readsSinceSharedLock + 1) } else p
  match p.cacheFd with
  | none => return (p, .ioerrShortRead, zeroFill iAmt)
  | some fd =>
    if p.nData ≤ iOfst then return (p, .ioerrShortRead, zeroFill iAmt)
    else
      let (p, rc) ← fetchForRead p iAmt iOfst
      if rc ≠ .ok then return (p, rc, zeroFill iAmt)
      else
        let toRead := min (p.nData - iOfst) iAmt
        if toRead = 0 then return (p, .ioerrShortRead, zeroFill iAmt)
        else
          let nRead ← sys (.pread fd iOfst toRead)
          if !nRead.ok then return (p, .ioerrRead, zeroFill iAmt)
          else if toRead < iAmt then return (p, .ioerrShortRead, nRead.data.truncate iAmt)
          else if nRead.data.size < iAmt then
            return (p, .ioerrShortRead, nRead.data.truncate iAmt)
          else return (p, .ok, nRead.data.truncate iAmt)

/-- `xRead`. -/
def sqliteObjsRead (p : ObjsFile) (iAmt iOfst : Nat) : Prog (ObjsFile × Rc × Bytes) :=
  match p.eFileType with
  | .wal => return (p, bufferRead p.aWalData p.nWalData iAmt iOfst)
  | .mainJournal => return (p, bufferRead p.aJrnlData p.nJrnlData iAmt iOfst)
  | .mainDb => mainDbRead p iAmt iOfst

/-- Mark the pages from `pageStart` on dirty, and valid where validity is tracked. -/
def markWritten (p : ObjsFile) (pageStart : Nat) : Nat → ObjsFile
  | 0 => p
  | n + 1 =>
    let p := dirtyMarkPage p pageStart
    let p := if p.valid.data ≠ [] then validMarkPage p pageStart else p
    markWritten p (pageStart + p.pageSize) n

/-- Extend the cache file when the file grows; `p` has its new size already. -/
def extendCache (p : ObjsFile) (prevNData fin : Nat) : Prog (ObjsFile × Rc) :=
  if prevNData < fin then cacheEnsureSize p fin else return (p, .ok)

/-- `xWrite` of a database: extend the cache file, write it, renew the lease, mark
the pages. -/
def mainDbWrite (p : ObjsFile) (buf : Bytes) (iOfst : Nat) : Prog (ObjsFile × Rc) :=
  match p.cacheFd with
  | none => return (p, .ioerrWrite)
  | some fd => do
    let fin := iOfst + buf.size
    let prevNData := p.nData
    let p := { p with nData := max p.nData fin }
    let (p, rc) ← extendCache p prevNData fin
    if rc ≠ .ok then return ({ p with nData := prevNData }, rc)
    else
      let nWritten ← sys (.pwrite fd iOfst buf)
      if !nWritten.ok then return ({ p with nData := prevNData }, .ioerrWrite)
      else
        let (p, rc) ← leaseRenewIfNeeded p
        if rc ≠ .ok then return (p, rc)
        else if 0 < p.pageSize then
          let pageStart := iOfst / p.pageSize * p.pageSize
          return (markWritten p pageStart ((fin - pageStart + p.pageSize - 1) / p.pageSize), .ok)
        else return (p, .ok)

/-- `xWrite` of a buffered file: the buffer and its logical size. -/
def bufferWrite (data : Bytes) (n : Nat) (buf : Bytes) (iOfst : Nat) :
    Prog (Bytes × Nat × Rc) := do
  let fin := iOfst + buf.size
  let (data, rc) ← bufferEnsure data fin
  if rc ≠ .ok then return (data, n, rc)
  else return (data.pwrite iOfst buf, max n fin, .ok)

/-- `xWrite`. -/
def sqliteObjsWrite (p : ObjsFile) (buf : Bytes) (iOfst : Nat) : Prog (ObjsFile × Rc) :=
  match p.eFileType with
  | .wal => do
    let (data, n, rc) ← bufferWrite p.aWalData p.nWalData buf iOfst
    return ({ p with aWalData := data, nWalData := n }, rc)
  | .mainJournal => do
    let (data, n, rc) ← bufferWrite p.aJrnlData p.nJrnlData buf iOfst
    return ({ p with aJrnlData := data, nJrnlData := n }, rc)
  | .mainDb => mainDbWrite p buf iOfst

/-- Clear the valid bits of `n` pages from `pg` on. -/
def clearValid (p : ObjsFile) (pg : Int) : Nat → ObjsFile
  | 0 => p
  | n + 1 => clearValid { p with valid := bitmapClearBit p.valid pg } (pg + 1) n

/-- What `xTruncate` of a database does to the file's state once blob and cache file
have the new size. -/
def forgetPastEnd (p : ObjsFile) (size : Nat) : ObjsFile :=
  if size < p.nData then
    let p' := if p.valid.data ≠ [] ∧ 0 < p.pageSize then
      let firstGone := pageCount size p.pageSize
      clearValid p firstGone (pageCount p.nData p.pageSize - firstGone).toNat
    else p
    { p' with nData := size }
  else p

/-- Resize the blob in `xTruncate`. -/
def resizeForTruncate (p : ObjsFile) (size : Nat) : Prog (ObjsFile × Rc) :=
  if p.ops.pageBlobResize then do
    let x ← azPageBlobResize p.blob (align512 size) p.leaseId
    if x.err ≠ .ok then return (p, azureErrToSqlite x.err .ioerrTruncate)
    else return ({ p with lastSyncedSize := size }, .ok)
  else return (p, .ok)

/-- `xTruncate` of a database: the blob, the cache file, the valid bits. -/
def mainDbTruncate (p : ObjsFile) (size : Nat) : Prog (ObjsFile × Rc) := do
  let (p, rc) ← resizeForTruncate p size
  if rc ≠ .ok then return (p, rc)
  else match p.cacheFd with
  | none => return (forgetPastEnd p size, .ok)
  | some fd =>
    let t ← sys (.ftruncate fd size)
    if !t.ok then return (p, .ioerrTruncate)
    else return (forgetPastEnd p size, .ok)

/-- Delete the blob of a WAL, whatever the service answers. -/
def deleteWal (p : ObjsFile) : Prog Unit :=
  if p.ops.blobDelete then do
    let _ ← azBlobDelete p.blob
    return ()
  else return ()

/-- `xTruncate`. A WAL truncated to nothing is deleted. -/
def sqliteObjsTruncate (p : ObjsFile) (size : Nat) : Prog (ObjsFile × Rc) :=
  match p.eFileType with
  | .wal =>
    if size = 0 then do
      deleteWal p
      return ({ p with
        nWalData := 0
        aWalData := SparseFile.empty.truncate p.aWalData.size }, .ok)
    else if size < p.nWalData then return ({ p with nWalData := size }, .ok)
    else return (p, .ok)
  | .mainJournal =>
    if size < p.nJrnlData then
      return ({ p with
        nJrnlData := size
        aJrnlData := if size < p.aJrnlData.size
          then (p.aJrnlData.truncate size).truncate p.aJrnlData.size else p.aJrnlData }, .ok)
    else return (p, .ok)
  | .mainDb => mainDbTruncate p size

/-- `xFileSize`. -/
def sqliteObjsFileSize (p : ObjsFile) : Nat :=
  match p.eFileType with
  | .wal => p.nWalData
  | .mainJournal => p.nJrnlData
  | .mainDb => p.nData

end SqliteObjs
