import SqliteObjs.Data.SparseFile
import Mathlib.Data.UInt

/-!
# The blob service

The part of Azure Blob Storage that the client relies on: blobs with an ETag and a
lease, page and block blob operations, snapshots. Every accepted change of a blob
stores a new version under an ETag that was never used before. Lease operations
keep the ETag.

* A request that carries a lease id is accepted only while that lease is active; a
  change without a lease id is refused while a lease is active.
* An expired lease can be renewed as long as nobody changed or leased the blob
  since: such a change forgets the expired lease.
* A page write outside the blob is refused, a range read is cut at the end of the
  blob and refused at or past it.
* A block stays uncommitted until a block list names it. Storing a blob, whole or
  from a block list, drops its uncommitted blocks. A `<Latest>` entry of a block list
  is the uncommitted block of that id, else the one the blob is made of.

`Azure.respond` is the answer of a healthy service. `Azure.serve` adds the faults of
the network: the request fails, with or without having taken effect.
-/

set_option autoImplicit false

namespace SqliteObjs

/-- Contents of blobs, cache files and buffers. -/
abbrev Bytes := Data.SparseFile UInt8

abbrev ETag := Nat
abbrev LeaseId := Nat
abbrev Snapshot := Nat

/-- `azure_err_t`. -/
inductive AzErr
  | ok | notFound | conflict | precondition | throttled | auth | badRequest | server
  | network | leaseExpired | nomem | invalidArg | io | timeout | alignment | unknown
  deriving DecidableEq, Repr

/-- A blob in the container a client context stands for. -/
@[ext]
structure BlobId where
  ctx : Nat
  name : String
  deriving Repr

instance : DecidableEq BlobId := fun i j =>
  decidable_of_iff (i.ctx = j.ctx ∧ i.name = j.name) BlobId.ext_iff.symm

inductive Lease
  | available
  | active (id : LeaseId)
  | expired (id : LeaseId)
  deriving DecidableEq, Repr

/-- A blob: its current version, its lease, the content of each version it had,
the version each of its snapshots shows, and the blocks it was committed from. -/
structure Blob where
  content : Bytes
  etag : ETag
  lease : Lease
  history : ETag → Bytes
  snapshots : Snapshot → Option ETag
  committed : Nat → Option Bytes := fun _ => none

structure Azure where
  blobs : BlobId → Option Blob
  /-- The uncommitted blocks of each blob, by block id. -/
  blocks : BlobId → Nat → Option Bytes
  nextETag : ETag
  nextLease : LeaseId
  nextSnapshot : Snapshot

/-- `azure_diff_range_t`; `stop` is inclusive. -/
structure DiffRange where
  start : Nat
  stop : Nat
  isClear : Bool
  deriving DecidableEq, Repr

/-- The requests the client sends. -/
inductive AzReq
  | blobGetProperties (b : BlobId)
  | pageBlobCreate (b : BlobId) (size : Nat)
  | pageBlobWrite (b : BlobId) (offset : Nat) (data : Bytes) (lease : Option LeaseId)
      (ifMatch : Option ETag)
  | pageBlobRead (b : BlobId) (offset len : Nat)
  | pageBlobResize (b : BlobId) (size : Nat) (lease : Option LeaseId)
  | blockBlobUpload (b : BlobId) (data : Bytes)
  | putBlock (b : BlobId) (id : Nat) (data : Bytes)
  | putBlockList (b : BlobId) (ids : List Nat)
  | blockBlobDownload (b : BlobId)
  | blobDelete (b : BlobId)
  | leaseAcquire (b : BlobId) (duration : Nat)
  | leaseRenew (b : BlobId) (id : LeaseId)
  | leaseRelease (b : BlobId) (id : LeaseId)
  | blobSnapshotCreate (b : BlobId)
  | blobGetPageRangesDiff (b : BlobId) (prev : Snapshot)

/-- The blob a request is about. -/
def AzReq.blob : AzReq → BlobId
  | .blobGetProperties b | .pageBlobCreate b _ | .pageBlobWrite b _ _ _ _ | .pageBlobRead b _ _
  | .pageBlobResize b _ _ | .blockBlobUpload b _ | .putBlock b _ _ | .putBlockList b _
  | .blockBlobDownload b | .blobDelete b | .leaseAcquire b _ | .leaseRenew b _
  | .leaseRelease b _ | .blobSnapshotCreate b | .blobGetPageRangesDiff b _ => b

/-- The error code and the out-parameters of an operation. Fields an operation does
not fill keep the value the caller initialised them with. -/
structure AzReply where
  err : AzErr
  etag : Option ETag := none
  size : Nat := 0
  leased : Bool := false
  leaseId : LeaseId := 0
  body : Bytes := .empty
  snapshot : Snapshot := 0
  ranges : List DiffRange := []

namespace Blob

/-- The lease condition of a change: with a lease id it has to be the active one,
without one no lease may be active. -/
def admits (b : Blob) : Option LeaseId → Bool
  | some id => b.lease == .active id
  | none => match b.lease with
    | .active _ => false
    | _ => true

/-- The lease after an accepted change: an expired lease is forgotten. -/
def leaseAfterChange (b : Blob) : Lease :=
  match b.lease with
  | .active id => .active id
  | _ => .available

/-- The lease is active, or expired with the blob neither changed nor leased since. -/
def holds (b : Blob) (id : LeaseId) : Bool :=
  b.lease == .active id || b.lease == .expired id

end Blob

namespace Azure

/-- Replace the record of one blob. -/
def set (a : Azure) (i : BlobId) (b : Option Blob) : Azure :=
  { a with blobs := fun j => if j = i then b else a.blobs j }

@[simp] theorem set_blobs_self (a : Azure) (i : BlobId) (b : Option Blob) :
    (a.set i b).blobs i = b := by
  simp [set]

theorem set_blobs_ne (a : Azure) {i j : BlobId} (b : Option Blob) (h : j ≠ i) :
    (a.set i b).blobs j = a.blobs j := by
  simp [set, h]

/-- Store a new version of an existing blob. -/
def change (a : Azure) (i : BlobId) (b : Blob) (content : Bytes)
    (committed : Nat → Option Bytes := fun _ => none) : Azure :=
  { a.set i (some { b with
      content := content
      etag := a.nextETag
      lease := b.leaseAfterChange
      history := Function.update b.history a.nextETag content
      committed := committed }) with
    nextETag := a.nextETag + 1 }

/-- Store the first version of a blob. -/
def create (a : Azure) (i : BlobId) (content : Bytes)
    (committed : Nat → Option Bytes := fun _ => none) : Azure :=
  { a.set i (some {
      content := content
      etag := a.nextETag
      lease := .available
      history := fun _ => content
      snapshots := fun _ => none
      committed := committed }) with
    nextETag := a.nextETag + 1 }

/-- Set or drop uncommitted blocks of a blob. -/
def setBlocks (a : Azure) (i : BlobId) (blocks : Nat → Option Bytes) : Azure :=
  { a with blocks := Function.update a.blocks i blocks }

@[simp] theorem setBlocks_blobs (a : Azure) (i : BlobId) (blocks : Nat → Option Bytes) :
    (a.setBlocks i blocks).blobs = a.blobs := rfl

@[simp] theorem change_blobs_self (a : Azure) (i : BlobId) (b : Blob) (content : Bytes)
    (committed : Nat → Option Bytes) :
    (a.change i b content committed).blobs i = some { b with
      content := content
      etag := a.nextETag
      lease := b.leaseAfterChange
      history := Function.update b.history a.nextETag content
      committed := committed } := by
  simp [change, set]

@[simp] theorem create_blobs_self (a : Azure) (i : BlobId) (content : Bytes)
    (committed : Nat → Option Bytes) :
    (a.create i content committed).blobs i = some {
      content := content
      etag := a.nextETag
      lease := .available
      history := fun _ => content
      snapshots := fun _ => none
      committed := committed } := by
  simp [create, set]

/-- Store a whole blob: replaces an unleased blob, creates a missing one. -/
def putBlob (a : Azure) (i : BlobId) (content : Bytes)
    (committed : Nat → Option Bytes := fun _ => none) : AzReply × Azure :=
  match a.blobs i with
  | none =>
    ({ err := .ok, etag := some a.nextETag },
      (a.create i content committed).setBlocks i fun _ => none)
  | some b =>
    if b.admits none then
      ({ err := .ok, etag := some a.nextETag },
        (a.change i b content committed).setBlocks i fun _ => none)
    else ({ err := .precondition }, a)

/-- The longest block list the service accepts. -/
def maxBlockList : Nat := 50000

/-- The blocks of a block list, one after the other, if all are there. -/
def concatBlocks (blocks : Nat → Option Bytes) : List Nat → Option Bytes
  | [] => some .empty
  | id :: ids => do
    let d ← blocks id
    let rest ← concatBlocks blocks ids
    return d.pwrite d.size rest

/-- The block of a `<Latest>` entry. -/
def latest (a : Azure) (i : BlobId) (id : Nat) : Option Bytes :=
  (a.blocks i id).or ((a.blobs i).bind fun b => b.committed id)

/-- The answer of a healthy service. -/
def respond (a : Azure) : AzReq → AzReply × Azure
  | .blobGetProperties i =>
    match a.blobs i with
    | none => ({ err := .notFound }, a)
    | some b =>
      ({ err := .ok, size := b.content.size, etag := some b.etag,
         leased := match b.lease with | .active _ => true | _ => false }, a)
  | .pageBlobCreate i size =>
    if size % 512 ≠ 0 then ({ err := .badRequest }, a)
    else a.putBlob i (Data.SparseFile.empty.truncate size)
  | .pageBlobWrite i offset data lease ifMatch =>
    if offset % 512 ≠ 0 ∨ data.size % 512 ≠ 0 ∨ data.size = 0 ∨ 4 * 1024 * 1024 < data.size
    then ({ err := .badRequest }, a)
    else match a.blobs i with
    | none => ({ err := .notFound }, a)
    | some b =>
      if !b.admits lease then ({ err := .precondition }, a)
      else if ifMatch.any (· != b.etag) then ({ err := .precondition }, a)
      else if b.content.size < offset + data.size then ({ err := .badRequest }, a)
      else ({ err := .ok, etag := some a.nextETag },
        a.change i b (b.content.pwrite offset data))
  | .pageBlobRead i offset len =>
    if len = 0 then ({ err := .badRequest }, a)
    else match a.blobs i with
    | none => ({ err := .notFound }, a)
    | some b =>
      if b.content.size ≤ offset then ({ err := .badRequest }, a)
      else ({ err := .ok, etag := some b.etag, body := b.content.slice offset len }, a)
  | .pageBlobResize i size lease =>
    if size % 512 ≠ 0 then ({ err := .badRequest }, a)
    else match a.blobs i with
    | none => ({ err := .notFound }, a)
    | some b =>
      if !b.admits lease then ({ err := .precondition }, a)
      else ({ err := .ok, etag := some a.nextETag }, a.change i b (b.content.truncate size))
  | .blockBlobUpload i data => a.putBlob i data
  | .putBlock i id data =>
    ({ err := .ok }, a.setBlocks i (Function.update (a.blocks i) id (some data)))
  | .putBlockList i ids =>
    if maxBlockList < ids.length then ({ err := .badRequest }, a)
    else match concatBlocks (a.latest i) ids with
    | none => ({ err := .badRequest }, a)
    | some data => a.putBlob i data fun id => if id ∈ ids then a.latest i id else none
  | .blockBlobDownload i =>
    match a.blobs i with
    | none => ({ err := .notFound }, a)
    | some b => ({ err := .ok, etag := some b.etag, body := b.content }, a)
  | .blobDelete i =>
    match a.blobs i with
    | none => ({ err := .notFound }, a)
    | some b =>
      if b.admits none then ({ err := .ok }, a.set i none)
      else ({ err := .precondition }, a)
  | .leaseAcquire i _ =>
    match a.blobs i with
    | none => ({ err := .notFound }, a)
    | some b =>
      match b.lease with
      | .active _ => ({ err := .conflict }, a)
      | _ =>
        ({ err := .ok, leaseId := a.nextLease, etag := some b.etag },
          { a.set i (some { b with lease := .active a.nextLease }) with
            nextLease := a.nextLease + 1 })
  | .leaseRenew i id =>
    match a.blobs i with
    | none => ({ err := .notFound }, a)
    | some b =>
      if b.holds id then
        ({ err := .ok, etag := some b.etag }, a.set i (some { b with lease := .active id }))
      else ({ err := .conflict }, a)
  | .leaseRelease i id =>
    match a.blobs i with
    | none => ({ err := .notFound }, a)
    | some b =>
      if b.holds id then
        ({ err := .ok, etag := some b.etag }, a.set i (some { b with lease := .available }))
      else ({ err := .conflict }, a)
  | .blobSnapshotCreate i =>
    match a.blobs i with
    | none => ({ err := .notFound }, a)
    | some b =>
      ({ err := .ok, snapshot := a.nextSnapshot },
        { a.set i (some { b with
            snapshots := Function.update b.snapshots a.nextSnapshot (some b.etag) }) with
          nextSnapshot := a.nextSnapshot + 1 })
  | .blobGetPageRangesDiff i _ =>
    match a.blobs i with
    | none => ({ err := .notFound }, a)
    | some _ => ({ err := .ok }, a)

/-- A request leaves the other blobs alone. -/
theorem respond_blobs_ne (a : Azure) (r : AzReq) {j : BlobId} (h : j ≠ r.blob) :
    (a.respond r).2.blobs j = a.blobs j := by
  have hput : ∀ {i : BlobId} (d : Bytes) (blocks : Nat → Option Bytes), j ≠ i →
      (a.putBlob i d blocks).2.blobs j = a.blobs j := by
    intro i d blocks hj
    unfold putBlob
    split
    · simp [create, set, setBlocks, hj]
    · split
      · simp [change, set, setBlocks, hj]
      · rfl
  cases r <;> simp only [AzReq.blob] at h <;> simp only [respond] <;>
    first
    | rfl
    | exact hput _ _ h
    | (repeat' split) <;> first | rfl | exact hput _ _ h | simp [change, set, h]

/-- The lease of a blob runs out. -/
def expire (a : Azure) (i : BlobId) : Azure :=
  match a.blobs i with
  | none => a
  | some b =>
    match b.lease with
    | .active id => a.set i (some { b with lease := .expired id })
    | _ => a

end Azure

/-- What the environment decides when a request is answered: whether it fails (and
took effect all the same), and every value no party controls. -/
structure Choice where
  fault : Option (AzErr × Bool) := none
  sysFails : Bool := false
  now : Nat := 0
  pick : Nat := 0
  count : Nat := 0
  junk : Bytes := .empty
  ranges : List DiffRange := []

namespace Azure

/-- The answer to a request under the environment's choice. A fault is never
reported as success; the ranges of a page diff are the environment's. -/
def serve (a : Azure) (c : Choice) (r : AzReq) : Option (AzReply × Azure) :=
  match c.fault with
  | some (e, applied) =>
    if e = .ok then none
    else some ({ err := e, body := c.junk }, if applied then (a.respond r).2 else a)
  | none =>
    match r with
    | .blobGetPageRangesDiff _ _ =>
      some ({ (a.respond r).1 with ranges := c.ranges }, (a.respond r).2)
    | _ => some (a.respond r)

end Azure
end SqliteObjs
