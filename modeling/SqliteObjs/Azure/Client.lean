import SqliteObjs.Vfs.World

/-!
# The Azure client

The operations of the client's vtable. Most of them are one request, checked for
its arguments and repeated while it fails for a transient reason. Three transfer
many pieces at once: `azPageBlobWriteBatch`, `azPageBlobReadMulti` and
`azBlockBlobUploadParallel`. Their pieces are all in flight together, so the
service sees them in any order, their answers come back in any order, and the
pieces that failed are sent again in the next attempt.
-/

set_option autoImplicit false

namespace SqliteObjs

def azureIsRetryable (code : AzErr) : Bool := code == .server || code == .throttled

/-- `AZURE_MAX_RETRIES`. -/
def azureMaxRetries : Nat := 5

/-- Send a request again while it fails for a transient reason, `n` more times at
most. -/
def executeWithRetry (r : AzReq) : Nat → Prog AzReply
  | 0 => azure r
  | n + 1 => do
    let x ← azure r
    if x.err = .ok then return x
    else if !azureIsRetryable x.err then return x
    else executeWithRetry r n

/-- An operation that is one request. -/
def execute (r : AzReq) : Prog AzReply := executeWithRetry r azureMaxRetries

/-! ## Page blobs -/

def azPageBlobCreate (b : BlobId) (size : Nat) : Prog AzReply :=
  if size % 512 ≠ 0 then return { err := .invalidArg }
  else execute (.pageBlobCreate b size)

/-- `AZURE_MAX_PAGE_WRITE`. -/
def azureMaxPageWrite : Nat := 4 * 1024 * 1024

def azPageBlobWrite (b : BlobId) (offset : Nat) (data : Bytes) (lease : Option LeaseId)
    (ifMatch : Option ETag) : Prog AzReply :=
  if offset % 512 ≠ 0 ∨ data.size % 512 ≠ 0 then return { err := .invalidArg }
  else if azureMaxPageWrite < data.size then return { err := .invalidArg }
  else if data.size = 0 then return { err := .invalidArg }
  else execute (.pageBlobWrite b offset data lease ifMatch)

def azPageBlobRead (b : BlobId) (offset len : Nat) : Prog AzReply :=
  if len = 0 then return { err := .invalidArg }
  else execute (.pageBlobRead b offset len)

def azPageBlobResize (b : BlobId) (size : Nat) (lease : Option LeaseId) : Prog AzReply :=
  if size % 512 ≠ 0 then return { err := .invalidArg }
  else execute (.pageBlobResize b size lease)

/-! ## Block blobs, properties, leases, snapshots -/

def azBlockBlobUpload (b : BlobId) (data : Bytes) : Prog AzReply :=
  execute (.blockBlobUpload b data)

def azBlockBlobDownload (b : BlobId) : Prog AzReply := execute (.blockBlobDownload b)

def azBlobGetProperties (b : BlobId) : Prog AzReply := execute (.blobGetProperties b)

def azBlobDelete (b : BlobId) : Prog AzReply := execute (.blobDelete b)

/-- Existence by a `HEAD`: a missing blob is an answer, not an error. `*exists` is
untouched on error, and every caller starts with 0. -/
def azBlobExists (b : BlobId) : Prog (AzErr × Bool) := do
  let x ← azBlobGetProperties b
  if x.err = .ok then return (.ok, true)
  else if x.err = .notFound then return (.ok, false)
  else return (x.err, false)

def azLeaseAcquire (b : BlobId) (duration : Nat) : Prog AzReply :=
  if duration < 15 ∨ 60 < duration then return { err := .invalidArg }
  else execute (.leaseAcquire b duration)

def azLeaseRenew (b : BlobId) (id : LeaseId) : Prog AzReply := execute (.leaseRenew b id)

def azLeaseRelease (b : BlobId) (id : LeaseId) : Prog AzReply := execute (.leaseRelease b id)

def azBlobSnapshotCreate (b : BlobId) : Prog AzReply := execute (.blobSnapshotCreate b)

def azBlobGetPageRangesDiff (b : BlobId) (prev : Snapshot) : Prog AzReply :=
  execute (.blobGetPageRangesDiff b prev)

/-! ## Transfers of many pieces -/

/-- An order nobody controls. -/
def shuffle {α : Type} : List α → Prog (List α)
  | [] => return []
  | a :: l => do
    let l' ← shuffle l
    let k ← sys (.pick (l'.length + 1))
    return l'.insertIdx (min k.n l'.length) a

/-- The attempts of a transfer. `send` puts the pieces in flight in the order the
service sees them, and gives up with `none`. `note` takes the answers in the order
they came back. The last attempt reports its first error. -/
def transfer {σ : Type} (send : List Nat → σ → Prog (Option (List (Nat × AzReply) × σ)))
    (note : List (Nat × AzReply) → σ → σ) : Nat → List Nat → σ → Prog (AzErr × σ)
  | 0, _, s => return (.io, s)
  | n + 1, pending, s => do
    let reqs ← sys (.malloc pending.length)
    if !reqs.ok then return (.nomem, s) else
    let handles ← sys (.malloc pending.length)
    if !handles.ok then return (.network, s) else
    let order ← shuffle pending
    match ← send order s with
    | none => return (.leaseExpired, s)
    | some (replies, s) =>
      let msgs ← shuffle replies
      let s := note msgs s
      let left := pending.filter fun i => !msgs.any fun m => m.1 == i && m.2.err == .ok
      let attemptErr := ((msgs.map (·.2.err)).find? (· != .ok)).getD .ok
      if left = [] then return (.ok, s)
      else if !azureIsRetryable attemptErr || n == 0 then
        return (if attemptErr = .ok then .io else attemptErr, s)
      else transfer send note n left s

/-- What a transfer needs before its first attempt: the completion flags and the
multi handle. -/
def transferSetup (n : Nat) : Prog AzErr := do
  let done ← sys (.malloc n)
  if !done.ok then return .nomem else
  let multi ← sys (.malloc 1)
  if !multi.ok then return .network else
  return .ok

/-- `BATCH_MAX_RETRIES`, `PARALLEL_READ_BATCH_RETRIES`, `BLOCK_UPLOAD_MAX_RETRIES`. -/
def transferRetries : Nat := 3

/-- `azure_page_range_t` with its data. -/
structure PageRange where
  offset : Nat
  data : Bytes

/-- `BATCH_LEASE_RENEWAL_SEC`. -/
def batchLeaseRenewalSec : Nat := 15

/-- The renewal inside the event loop of a batch: `none` when the lease is lost. The
batch holds the client's mutex, which the renewal request locks again. -/
def batchRenewLease (b : BlobId) (lease : Option LeaseId) (lastRenewal : Nat) :
    Prog (Option Nat) :=
  match lease with
  | none => return some lastRenewal
  | some id => do
    let now ← sys .time
    if now.n - lastRenewal < batchLeaseRenewalSec then return some lastRenewal else
    let _ ← sys .relock
    let x ← azLeaseRenew b id
    if x.err ≠ .ok then return none else
    return some now.n

/-- The handles removed when the lease is lost: each request may have been served. -/
def batchAbandon (b : BlobId) (ranges : List PageRange) (lease : Option LeaseId)
    (ifMatch : Option ETag) : List Nat → Prog Unit
  | [] => return ()
  | i :: order => do
    let served ← sys (.pick 2)
    match ranges[i]? with
    | none => batchAbandon b ranges lease ifMatch order
    | some r =>
      if served.n = 0 then batchAbandon b ranges lease ifMatch order
      else
        let _ ← azure (.pageBlobWrite b r.offset r.data lease ifMatch)
        batchAbandon b ranges lease ifMatch order

/-- The event loop of one attempt of a batch. -/
def batchSend (b : BlobId) (ranges : List PageRange) (lease : Option LeaseId)
    (ifMatch : Option ETag) : List Nat → Nat → Prog (Option (List (Nat × AzReply)))
  | [], _ => return some []
  | i :: order, lastRenewal =>
    match ranges[i]? with
    | none => batchSend b ranges lease ifMatch order lastRenewal
    | some r => do
      let x ← azure (.pageBlobWrite b r.offset r.data lease ifMatch)
      match ← batchRenewLease b lease lastRenewal with
      | none =>
        batchAbandon b ranges lease ifMatch order
        return none
      | some t =>
        let rest ← batchSend b ranges lease ifMatch order t
        return rest.map ((i, x) :: ·)

/-- Write page ranges at once. The ETag is the one of the answer that came last. -/
def azPageBlobWriteBatch (b : BlobId) (ranges : List PageRange) (lease : Option LeaseId)
    (ifMatch : Option ETag) : Prog AzReply :=
  match ranges with
  | [] => return { err := .ok }
  | [r] => azPageBlobWrite b r.offset r.data lease ifMatch
  | ranges => do
    let e ← transferSetup ranges.length
    if e ≠ .ok then return { err := e } else
    let res ← transfer
      (fun order s => do
        let start ← sys .time
        let replies ← batchSend b ranges lease ifMatch order start.n
        return replies.map (·, s))
      (fun msgs (s : Option ETag) =>
        msgs.foldl (fun s m => if m.2.err = .ok then m.2.etag.or s else s) s)
      (transferRetries + 1) (List.range ranges.length) none
    if res.1 = .ok then return { err := .ok, etag := res.2 } else return { err := res.1 }

/-- `PARALLEL_READ_MIN_SIZE`. -/
def parallelReadMinSize : Nat := 1024 * 1024

/-- The chunk size of a parallel download in at most 16 streams. -/
def readChunkSize (totalSize : Nat) : Nat := ((totalSize + 15) / 16 + 511) / 512 * 512

/-- The download of the chunks in order. What arrives is stored, also for a failed
request, up to the capacity of the chunk. -/
def readSend (b : BlobId) (totalSize : Nat) :
    List Nat → Bytes → Prog (Option (List (Nat × AzReply) × Bytes))
  | [], dest => return some ([], dest)
  | i :: order, dest => do
    let offset := i * readChunkSize totalSize
    let len := min (totalSize - offset) (readChunkSize totalSize)
    let x ← azure (.pageBlobRead b offset len)
    let rest ← readSend b totalSize order (dest.pwrite offset (x.body.slice 0 len))
    return rest.map fun rd => ((i, x) :: rd.1, rd.2)

/-- Download `totalSize` bytes of a page blob into `dest`. -/
def azPageBlobReadMulti (b : BlobId) (totalSize : Nat) (dest : Bytes) : Prog (AzErr × Bytes) :=
  if totalSize = 0 then return (.ok, dest)
  else if totalSize < parallelReadMinSize then do
    let x ← azPageBlobRead b 0 totalSize
    if x.err = .ok ∧ 0 < x.body.size then
      return (.ok, dest.pwrite 0 (x.body.slice 0 totalSize))
    else return (x.err, dest)
  else do
    let nChunks := (totalSize + readChunkSize totalSize - 1) / readChunkSize totalSize
    let e ← transferSetup nChunks
    if e ≠ .ok then return (e, dest) else
    transfer (readSend b totalSize) (fun _ dest => dest) (transferRetries + 1)
      (List.range nChunks) dest

/-- `BLOCK_UPLOAD_MIN_PARALLEL_SIZE`. -/
def blockUploadMinParallelSize : Nat := 256 * 1024

/-- The chunks of an upload, as blocks whose ids are their indices. -/
def blockSend (b : BlobId) (data : Bytes) (chunkSize : Nat) :
    List Nat → Prog (List (Nat × AzReply))
  | [] => return []
  | i :: order => do
    let x ← azure (.putBlock b i (data.slice (i * chunkSize) chunkSize))
    let rest ← blockSend b data chunkSize order
    return (i, x) :: rest

/-- Put the blocks of an upload and commit the block list. -/
def uploadChunks (b : BlobId) (data : Bytes) (chunkSize nChunks : Nat) : Prog AzReply := do
  let e ← transferSetup nChunks
  if e ≠ .ok then return { err := e } else
  let res ← transfer
    (fun order _ => do
      let replies ← blockSend b data chunkSize order
      return some (replies, ()))
    (fun _ s => s) (transferRetries + 1) (List.range nChunks) ()
  if res.1 ≠ .ok then return { err := res.1 } else
  let xml ← sys (.malloc nChunks)
  if !xml.ok then return { err := .nomem } else
  execute (.putBlockList b (List.range nChunks))

/-- Upload a block blob in chunks, or whole when it is small. -/
def azBlockBlobUploadParallel (b : BlobId) (data : Bytes) (chunkSize : Nat) : Prog AzReply :=
  let nChunks := cInt ((data.size + chunkSize - 1) / chunkSize : Nat)
  if data.size < blockUploadMinParallelSize then azBlockBlobUpload b data
  else if nChunks ≤ 1 then azBlockBlobUpload b data
  else uploadChunks b data chunkSize nChunks.toNat

section Within

open CS CS.Program

variable {α : Type} {P : Req → Prop} {Q : α → Prop}

theorem within_sys_bind {r : SysReq} {f : SysReply → Prog α} (hP : P (.sys r))
    (hf : ∀ x, Within P Q (f x)) : Within P Q (sys r >>= f) :=
  ⟨hP, hf⟩

theorem within_azure_bind {r : AzReq} {f : AzReply → Prog α} (hP : P (.azure r))
    (hf : ∀ x, Within P Q (f x)) : Within P Q (azure r >>= f) :=
  ⟨hP, hf⟩

theorem within_executeWithRetry {r : AzReq} (hP : P (.azure r)) :
    ∀ n, Within P (fun _ => True) (executeWithRetry r n)
  | 0 => ⟨hP, fun _ => trivial⟩
  | n + 1 => by
    unfold executeWithRetry
    refine within_azure_bind hP fun x => ?_
    split
    · trivial
    split
    · trivial
    · exact within_executeWithRetry hP n

theorem within_execute_bind {r : AzReq} {f : AzReply → Prog α} (hP : P (.azure r))
    (hf : ∀ x, Within P Q (f x)) : Within P Q (execute r >>= f) :=
  (within_executeWithRetry hP azureMaxRetries).bind fun x _ => hf x

theorem within_shuffle {β : Type} (hP : ∀ n, P (.sys (.pick n))) :
    ∀ l : List β, Within P (fun _ => True) (shuffle l)
  | [] => trivial
  | _ :: l => by
    unfold shuffle
    exact (within_shuffle hP l).bind fun _ _ => within_sys_bind (hP _) fun _ => trivial

theorem within_transferSetup {n : Nat} (hsys : ∀ r, P (.sys r)) :
    Within P (fun _ => True) (transferSetup n) := by
  unfold transferSetup
  refine within_sys_bind (hsys _) fun _ => ?_
  split
  · trivial
  refine within_sys_bind (hsys _) fun _ => ?_
  split
  · trivial
  · trivial

theorem within_batchRenewLease {b : BlobId} (hsys : ∀ r, P (.sys r))
    (hrenew : ∀ id, P (.azure (.leaseRenew b id))) (l : Option LeaseId) (t : Nat) :
    Within P (fun _ => True) (batchRenewLease b l t) := by
  unfold batchRenewLease
  split
  · trivial
  refine within_sys_bind (hsys _) fun now => ?_
  split
  · trivial
  refine within_sys_bind (hsys _) fun _ => within_execute_bind (hrenew _) fun x => ?_
  split
  · trivial
  · trivial

end Within

end SqliteObjs
