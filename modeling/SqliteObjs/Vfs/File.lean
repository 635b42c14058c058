import SqliteObjs.Vfs.Bitmap
import SqliteObjs.Azure.Client

/-!
# Open files

The state of an open file (`sqliteObjsFile`), the state the files of a process
share (`sqliteObjsVfsData`), and the helpers most entry points use: page marks,
growth of the cache file and of the in-memory buffers, lease renewal.

A function of the source that updates `*p` takes the file and returns it.
-/

set_option autoImplicit false

namespace SqliteObjs

open Data

/-! ## Constants -/

/-- `SQLITE_OBJS_DEFAULT_PAGE_SIZE`. -/
def defaultPageSize : Nat := 4096

/-- `SQLITE_OBJS_READAHEAD_PAGES`. -/
def readaheadPages : Nat := 16

/-- `SQLITE_OBJS_PAGE1_BOOTSTRAP`. -/
def page1Bootstrap : Nat := 65536

/-- `SQLITE_OBJS_LEASE_DURATION`. -/
def leaseDurationDefault : Nat := 30

/-- `SQLITE_OBJS_LEASE_DURATION_LONG`. -/
def leaseDurationLong : Nat := 60

/-- `SQLITE_OBJS_DIRTY_PAGE_THRESHOLD`. -/
def dirtyPageThreshold : Int := 100

/-- `SQLITE_OBJS_INITIAL_ALLOC`. -/
def initialAlloc : Nat := 64 * 1024

/-- `SQLITE_OBJS_WAL_DEFAULT_CHUNK`. -/
def walDefaultChunk : Nat := 1024 * 1024

/-- `SQLITE_OBJS_MAX_PUT_PAGE`. -/
def maxPutPage : Nat := 4 * 1024 * 1024

/-- `SQLITE_OBJS_STACK_RANGES`. -/
def stackRanges : Nat := 64

/-- `SQLITE_OBJS_MAX_JOURNAL_CACHE`. -/
def maxJournalCache : Nat := 16

/-- Round up to the 512 bytes of a page blob's pages. -/
def align512 (n : Nat) : Nat := (n + 511) / 512 * 512

/-! ## Types -/

/-- Which entries of the vtable are there. -/
structure AzureOps where
  pageBlobCreate : Bool := true
  pageBlobWrite : Bool := true
  pageBlobRead : Bool := true
  pageBlobResize : Bool := true
  blockBlobUpload : Bool := true
  blockBlobDownload : Bool := true
  blobGetProperties : Bool := true
  blobDelete : Bool := true
  blobExists : Bool := true
  leaseAcquire : Bool := true
  leaseRelease : Bool := true
  pageBlobWriteBatch : Bool := true
  pageBlobReadMulti : Bool := true
  blockBlobUploadParallel : Bool := true
  blobSnapshotCreate : Bool := true
  blobGetPageRangesDiff : Bool := true
  deriving DecidableEq, Repr

/-- `azure_production_ops`. -/
def azureProductionOps : AzureOps := {}

/-- Every operation is there, but for the parallel variants, which are optional. -/
def AzureOps.Complete (ops : AzureOps) : Prop :=
  ops = { azureProductionOps with
    pageBlobWriteBatch := ops.pageBlobWriteBatch
    pageBlobReadMulti := ops.pageBlobReadMulti
    blockBlobUploadParallel := ops.blockBlobUploadParallel }

theorem complete_production : azureProductionOps.Complete := rfl

inductive FileType
  | mainDb | mainJournal | wal
  deriving DecidableEq, Repr

inductive PrefetchMode
  | all | none
  deriving DecidableEq, Repr

/-- `SQLITE_LOCK_*`. -/
inductive LockLevel
  | none | shared | reserved | pending | exclusive
  deriving DecidableEq, Repr

/-- The number SQLite gives a lock level. -/
def LockLevel.rank : LockLevel → Nat
  | .none => 0
  | .shared => 1
  | .reserved => 2
  | .pending => 3
  | .exclusive => 4

/-- `sqliteObjsFile`. A closed descriptor, an empty lease id, ETag or snapshot is
`none`. The size of a buffer is what is allocated of it. -/
structure ObjsFile where
  ops : AzureOps
  opsCtx : Nat
  zBlobName : String
  cacheFd : Option Fd
  zCachePath : Option Path
  nData : Nat
  dirty : Bitmap
  pageSize : Nat
  lastSyncDirtyCount : Int
  valid : Bitmap
  prefetchMode : PrefetchMode
  eLock : LockLevel
  leaseId : Option LeaseId
  leaseAcquiredAt : Nat
  leaseDuration : Nat
  readsSinceSharedLock : Int
  lastSyncedSize : Nat
  etag : Option ETag
  snapshot : Option Snapshot
  cacheReuse : Bool
  eFileType : FileType
  aJrnlData : Bytes
  nJrnlData : Nat
  aWalData : Bytes
  nWalData : Nat

namespace ObjsFile

/-- The blob of a file. -/
def blob (p : ObjsFile) : BlobId := { ctx := p.opsCtx, name := p.zBlobName }

end ObjsFile

/-- `sqliteObjsJournalCacheEntry`: a state of `none` is unknown. -/
structure JournalCacheEntry where
  state : Option Bool
  zBlobName : String
  deriving DecidableEq, Repr

/-- `sqliteObjsVfsData`. -/
structure VfsData where
  ops : Option AzureOps
  opsCtx : Nat
  walParallelUpload : Bool
  walChunkSize : Nat
  journalCache : List JournalCacheEntry

/-- A process that registered the VFS for one container. -/
def VfsData.new (ctx : Nat) : VfsData where
  ops := some azureProductionOps
  opsCtx := ctx
  walParallelUpload := false
  walChunkSize := 0
  journalCache := []

/-! ## Page marks -/

/-- Number of pages, as a C `int`. -/
def pageCount (size pageSize : Nat) : Int := cInt ((size + pageSize - 1) / pageSize : Nat)

/-- Mark page dirty by byte offset. -/
def dirtyMarkPage (p : ObjsFile) (offset : Nat) : ObjsFile :=
  if p.pageSize = 0 then p
  else { p with dirty := bitmapSetBit p.dirty (cInt (offset / p.pageSize : Nat)) }

/-- Mark page valid by byte offset. -/
def validMarkPage (p : ObjsFile) (offset : Nat) : ObjsFile :=
  if p.pageSize = 0 then p
  else { p with valid := bitmapSetBit p.valid (cInt (offset / p.pageSize : Nat)) }

/-- Mark byte range `[startOffset, endOffset)` as valid. -/
def validMarkRange (p : ObjsFile) (startOffset endOffset : Nat) : ObjsFile :=
  if p.pageSize = 0 then p
  else { p with
    valid := bitmapSetRange p.valid (cInt (startOffset / p.pageSize : Nat))
      (pageCount endOffset p.pageSize) }

/-- Mark all pages valid up to current file size. -/
def validMarkAll (p : ObjsFile) : ObjsFile :=
  if p.pageSize = 0 then p
  else { p with valid := bitmapSetAll p.valid (pageCount p.nData p.pageSize) }

/-- Grow both dirty and valid bitmaps together. -/
def bitmapsEnsureCapacity (p : ObjsFile) : Prog (ObjsFile × Rc) := do
  let (dirty, rc) ← bitmapEnsureCapacity p.dirty p.nData p.pageSize
  let p := { p with dirty := dirty }
  if rc ≠ .ok then return (p, rc)
  else if p.prefetchMode = .none then
    let (valid, rc) ← bitmapEnsureCapacity p.valid p.nData p.pageSize
    return ({ p with valid := valid }, rc)
  else return (p, .ok)

/-- Ensure the cache file has room for at least `newSize` bytes. -/
def cacheEnsureSize (p : ObjsFile) (newSize : Nat) : Prog (ObjsFile × Rc) :=
  match p.cacheFd with
  | none => return (p, .ioerr)
  | some fd => do
    let currentSize ← sys (.fileSize fd)
    if !currentSize.ok then return (p, .ioerr)
    else if newSize ≤ currentSize.n then return (p, .ok)
    else
      let t ← sys (.ftruncate fd newSize)
      if !t.ok then return (p, .ioerr)
      else bitmapsEnsureCapacity p

/-! ## Buffers -/

/-- The allocation after exponential doubling. `n` bounds the number of doublings. -/
def doubleUntil (newSize : Nat) : Nat → Nat → Nat
  | 0, alloc => alloc
  | n + 1, alloc => if alloc < newSize then doubleUntil newSize n (alloc * 2) else alloc

/-- Grow a heap buffer with exponential doubling; the new region is zeroed. The
allocated size is a 64-bit integer. -/
def bufferEnsure (buf : Bytes) (newSize : Nat) : Prog (Bytes × Rc) :=
  if newSize ≤ buf.size then return (buf, .ok)
  else
    let alloc := doubleUntil newSize 64 (if buf.size = 0 then initialAlloc else buf.size)
    if 2 ^ 63 ≤ alloc then return (buf, .nomem)
    else do
      let m ← sys (.malloc alloc)
      if !m.ok then return (buf, .nomem)
      else return (buf.truncate alloc, .ok)

/-! ## Leases and errors -/

/-- Renew the lease if it is older than half the lease duration. -/
def leaseRenewIfNeeded (p : ObjsFile) : Prog (ObjsFile × Rc) :=
  match p.leaseId with
  | none => return (p, .ok)
  | some id => do
    let renewAfter := if 0 < p.leaseDuration then p.leaseDuration / 2 else leaseDurationDefault / 2
    let now ← sys .time
    if (now.n : Int) - p.leaseAcquiredAt < renewAfter then return (p, .ok)
    else
      let x ← azLeaseRenew p.blob id
      if x.err ≠ .ok then return (p, .ioerrLock)
      else return ({ p with leaseAcquiredAt := now.n }, .ok)

def azureErrToSqlite (aerr : AzErr) (variant : Rc) : Rc :=
  match aerr with
  | .ok => .ok
  | .notFound => .cantopen
  | .conflict => .busy
  | .throttled => .busy
  | .leaseExpired => .ioerrLock
  | .auth => .ioerr
  | .nomem => .nomem
  | _ => variant

theorem azureErrToSqlite_eq_ok {e : AzErr} {v : Rc} (hv : v ≠ .ok) :
    azureErrToSqlite e v = .ok ↔ e = .ok := by
  cases e <;> simp [azureErrToSqlite, hv]

/-! ## The database header -/

/-- The first 16 bytes of a database file. -/
def sqliteMagic : List UInt8 := "SQLite format 3".toList.map (fun c => UInt8.ofNat c.toNat) ++ [0]

/-- The page size in a database header, 0 if the header is invalid. -/
def detectPageSize (aData : Bytes) (nData : Nat) : Nat :=
  if nData < 100 then 0
  else if (List.range 16).map aData.get ≠ sqliteMagic then 0
  else
    let ps := (aData.get 16).toNat * 256 + (aData.get 17).toNat
    let ps := if ps = 1 then 65536 else ps
    if ps < 512 ∨ 65536 < ps then 0
    else if ps &&& (ps - 1) ≠ 0 then 0
    else ps

/-- Read the header back from the cache file and take over its page size. -/
def redetectPageSize (p : ObjsFile) (fd : Fd) : Prog ObjsFile := do
  let header ← sys (.pread fd 0 100)
  if header.ok && header.data.size == 100 then
    let detected := detectPageSize header.data 100
    return if 0 < detected then { p with pageSize := detected } else p
  else return p

/-- The page sizes a database may have. -/
def LegalPageSize (ps : Nat) : Prop := 512 ≤ ps ∧ ps ≤ 65536 ∧ ps.isPowerOfTwo

theorem legalPageSize_default : LegalPageSize defaultPageSize :=
  ⟨by decide, by decide, 12, rfl⟩

theorem legalPageSize_detect {d : Bytes} {n : Nat} (h : 0 < detectPageSize d n) :
    LegalPageSize (detectPageSize d n) := by
  unfold detectPageSize at h ⊢
  dsimp only at h ⊢
  generalize (if (d.get 16).toNat * 256 + (d.get 17).toNat = 1 then 65536
    else (d.get 16).toNat * 256 + (d.get 17).toNat) = ps at h ⊢
  split at h
  · omega
  split at h
  · omega
  split at h
  · omega
  split at h
  · omega
  next h₁ h₂ h₃ h₄ =>
    rw [if_neg h₁, if_neg h₂, if_neg h₃, if_neg h₄]
    refine ⟨by omega, by omega, ?_⟩
    exact (Nat.and_sub_one_eq_zero_iff_isPowerOfTwo (by omega)).mp (by simpa using h₄)

theorem LegalPageSize.dvd {ps : Nat} (h : LegalPageSize ps) : 512 ∣ ps := by
  obtain ⟨h₁, -, k, rfl⟩ := h
  have hk : 9 ≤ k := by
    by_contra hk
    have := Nat.pow_lt_pow_right (a := 2) (by omega) (show k < 9 by omega)
    omega
  exact pow_dvd_pow 2 hk

/-- Every legal page size divides the first pages of a lazy open. -/
theorem LegalPageSize.dvd_bootstrap {ps : Nat} (h : LegalPageSize ps) : ps ∣ page1Bootstrap := by
  obtain ⟨-, h₂, k, rfl⟩ := h
  have hk : k ≤ 16 := by
    by_contra hk
    have := Nat.pow_lt_pow_right (a := 2) (by omega) (show 16 < k by omega)
    omega
  exact pow_dvd_pow 2 hk

theorem LegalPageSize.pos {ps : Nat} (h : LegalPageSize ps) : 0 < ps := by
  have := h.1
  omega

end SqliteObjs
