import SqliteObjs.Azure.Client
import SqliteObjs.CS.Mutex

/-!
# The client's mutex

Every operation of the client locks its mutex: one request locks it for as long as it takes,
and a transfer of many pieces from its first attempt to its last. The mutex is created with
default attributes, so it is not recursive.

The definitions in `Locked` are those of `SqliteObjs.Azure.Client` with the mutex in them
(`Locked.transfers_erase`), every way out with the unlock that it has
or has not. Two ways break the rule of the others. A batch of page writes renews its lease inside
its event loop, and the renewal is a request like any other: it locks the mutex that the batch
holds. And a batch that cannot allocate its handles for an attempt returns without unlocking.
-/

set_option autoImplicit false

namespace SqliteObjs

open CS CS.Mutex

/-- What an allocation of the client is for. -/
inductive AllocSite
  | done | multi | reqs | handles | blockList
  deriving DecidableEq

/-- How `execute_single` ends. -/
inductive SingleEnd
  /-- `azure_auth_sign_request` fails. -/
  | unsigned (rc : AzErr)
  /-- `curl_slist_append` fails. -/
  | noHeaders
  /-- `curl_easy_perform` fails; timeouts are transient. -/
  | curl (timeout : Bool)
  | httpError (x : AzReply)
  | success (x : AzReply)

/-- What the caller is told. -/
def SingleEnd.reply : SingleEnd → AzReply
  | .unsigned rc => { err := rc }
  | .noHeaders => { err := .nomem }
  | .curl timeout => { err := if timeout then .server else .network }
  | .httpError x | .success x => x

/-- What the client asks of its surroundings. -/
inductive ClientReq
  | single (r : AzReq)
  /-- A piece of a transfer. -/
  | piece (r : AzReq)
  | alloc (site : AllocSite) (n : Nat)
  /-- The time at the start of an attempt. -/
  | start
  /-- The time at a step of the event loop. -/
  | check
  | pick (n : Nat)

abbrev ClientAns : ClientReq → Type
  | .single _ => SingleEnd
  | .piece _ => AzReply
  | .alloc _ _ | .start | .check | .pick _ => SysReply

/-- A program of the client with its mutex. -/
abbrev LProg (α : Type) := LockProgram ClientAns α

namespace Locked

def single (r : AzReq) : LProg SingleEnd := op (ClientReq.single r)

def piece (r : AzReq) : LProg AzReply := op (ClientReq.piece r)

def alloc (site : AllocSite) (n : Nat) : LProg SysReply := op (ClientReq.alloc site n)

def startTime : LProg SysReply := op ClientReq.start

def checkTime : LProg SysReply := op ClientReq.check

def pick (n : Nat) : LProg SysReply := op (ClientReq.pick n)

/-- `execute_single`: one attempt, under the mutex. -/
def executeSingle (r : AzReq) : LProg AzReply := do
  lock
  match ← single r with
  | .unsigned rc =>
    unlock
    return { err := rc }
  | .noHeaders =>
    unlock
    return { err := .nomem }
  | .curl timeout =>
    unlock
    return { err := if timeout then .server else .network }
  | .httpError x =>
    unlock
    return x
  | .success x =>
    unlock
    return x

def executeWithRetry (r : AzReq) : Nat → LProg AzReply
  | 0 => executeSingle r
  | n + 1 => do
    let x ← executeSingle r
    if x.err = .ok then return x
    else if !azureIsRetryable x.err then return x
    else executeWithRetry r n

def execute (r : AzReq) : LProg AzReply := executeWithRetry r azureMaxRetries

def azPageBlobWrite (b : BlobId) (offset : Nat) (data : Bytes) (lease : Option LeaseId)
    (ifMatch : Option ETag) : LProg AzReply :=
  if offset % 512 ≠ 0 ∨ data.size % 512 ≠ 0 then return { err := .invalidArg }
  else if azureMaxPageWrite < data.size then return { err := .invalidArg }
  else if data.size = 0 then return { err := .invalidArg }
  else execute (.pageBlobWrite b offset data lease ifMatch)

def azPageBlobRead (b : BlobId) (offset len : Nat) : LProg AzReply :=
  if len = 0 then return { err := .invalidArg }
  else execute (.pageBlobRead b offset len)

/-! ## Transfers -/

def shuffle {α : Type} : List α → LProg (List α)
  | [] => return []
  | a :: l => do
    let l' ← shuffle l
    let k ← pick (l'.length + 1)
    return l'.insertIdx (min k.n l'.length) a

/-- The attempts of a transfer, entered with the mutex. `giveUp` is what it does with it when
it cannot allocate its requests, `finish` when all pieces are done. -/
def transfer {σ : Type} (giveUp finish : LProg Unit)
    (send : List Nat → σ → LProg (Option (List (Nat × AzReply) × σ)))
    (note : List (Nat × AzReply) → σ → σ) : Nat → List Nat → σ → LProg (AzErr × σ)
  | 0, _, s => do
    unlock
    return (.io, s)
  | n + 1, pending, s => do
    let reqs ← alloc .reqs pending.length
    if !reqs.ok then
      giveUp
      return (.nomem, s)
    else
    let handles ← alloc .handles pending.length
    if !handles.ok then
      unlock
      return (.network, s)
    else
    let order ← shuffle pending
    match ← send order s with
    | none =>
      unlock
      return (.leaseExpired, s)
    | some (replies, s) =>
      let msgs ← shuffle replies
      let s := note msgs s
      let left := pending.filter fun i => !msgs.any fun m => m.1 == i && m.2.err == .ok
      let attemptErr := ((msgs.map (·.2.err)).find? (· != .ok)).getD .ok
      if left = [] then
        finish
        return (.ok, s)
      else if !azureIsRetryable attemptErr || n == 0 then
        unlock
        return (if attemptErr = .ok then .io else attemptErr, s)
      else transfer giveUp finish send note n left s

/-- The completion flags and the multi handle; without them the mutex is unlocked. -/
def transferSetup (n : Nat) : LProg AzErr := do
  let done ← alloc .done n
  if !done.ok then
    unlock
    return .nomem
  else
  let multi ← alloc .multi 1
  if !multi.ok then
    unlock
    return .network
  else return .ok

/-! ## Batches of page writes -/

def batchRenewLease (b : BlobId) (lease : Option LeaseId) (lastRenewal : Nat) :
    LProg (Option Nat) :=
  match lease with
  | none => return some lastRenewal
  | some id => do
    let now ← checkTime
    if now.n - lastRenewal < batchLeaseRenewalSec then return some lastRenewal else
    let x ← execute (.leaseRenew b id)
    if x.err ≠ .ok then return none else
    return some now.n

def batchAbandon (b : BlobId) (ranges : List PageRange) (lease : Option LeaseId)
    (ifMatch : Option ETag) : List Nat → LProg Unit
  | [] => return ()
  | i :: order => do
    let served ← pick 2
    match ranges[i]? with
    | none => batchAbandon b ranges lease ifMatch order
    | some r =>
      if served.n = 0 then batchAbandon b ranges lease ifMatch order
      else
        let _ ← piece (.pageBlobWrite b r.offset r.data lease ifMatch)
        batchAbandon b ranges lease ifMatch order

def batchSend (b : BlobId) (ranges : List PageRange) (lease : Option LeaseId)
    (ifMatch : Option ETag) : List Nat → Nat → LProg (Option (List (Nat × AzReply)))
  | [], _ => return some []
  | i :: order, lastRenewal =>
    match ranges[i]? with
    | none => batchSend b ranges lease ifMatch order lastRenewal
    | some r => do
      let x ← piece (.pageBlobWrite b r.offset r.data lease ifMatch)
      match ← batchRenewLease b lease lastRenewal with
      | none =>
        batchAbandon b ranges lease ifMatch order
        return none
      | some t =>
        let rest ← batchSend b ranges lease ifMatch order t
        return rest.map ((i, x) :: ·)

def azPageBlobWriteBatch (b : BlobId) (ranges : List PageRange) (lease : Option LeaseId)
    (ifMatch : Option ETag) : LProg AzReply :=
  match ranges with
  | [] => return { err := .ok }
  | [r] => azPageBlobWrite b r.offset r.data lease ifMatch
  | ranges => do
    lock
    let e ← transferSetup ranges.length
    if e ≠ .ok then return { err := e } else
    -- the way out for want of memory has no unlock
    let res ← transfer (return ()) unlock
      (fun order s => do
        let start ← startTime
        let replies ← batchSend b ranges lease ifMatch order start.n
        return replies.map (·, s))
      (fun msgs (s : Option ETag) =>
        msgs.foldl (fun s m => if m.2.err = .ok then m.2.etag.or s else s) s)
      (transferRetries + 1) (List.range ranges.length) none
    if res.1 = .ok then return { err := .ok, etag := res.2 } else return { err := res.1 }

/-! ## Parallel downloads and uploads -/

def readSend (b : BlobId) (totalSize : Nat) :
    List Nat → Bytes → LProg (Option (List (Nat × AzReply) × Bytes))
  | [], dest => return some ([], dest)
  | i :: order, dest => do
    let offset := i * readChunkSize totalSize
    let len := min (totalSize - offset) (readChunkSize totalSize)
    let x ← piece (.pageBlobRead b offset len)
    let rest ← readSend b totalSize order (dest.pwrite offset (x.body.slice 0 len))
    return rest.map fun rd => ((i, x) :: rd.1, rd.2)

def azPageBlobReadMulti (b : BlobId) (totalSize : Nat) (dest : Bytes) : LProg (AzErr × Bytes) :=
  if totalSize = 0 then return (.ok, dest)
  else if totalSize < parallelReadMinSize then do
    let x ← azPageBlobRead b 0 totalSize
    if x.err = .ok ∧ 0 < x.body.size then
      return (.ok, dest.pwrite 0 (x.body.slice 0 totalSize))
    else return (x.err, dest)
  else do
    lock
    let nChunks := (totalSize + readChunkSize totalSize - 1) / readChunkSize totalSize
    let e ← transferSetup nChunks
    if e ≠ .ok then return (e, dest) else
    transfer unlock unlock (readSend b totalSize) (fun _ dest => dest) (transferRetries + 1)
      (List.range nChunks) dest

def blockSend (b : BlobId) (data : Bytes) (chunkSize : Nat) :
    List Nat → LProg (List (Nat × AzReply))
  | [] => return []
  | i :: order => do
    let x ← piece (.putBlock b i (data.slice (i * chunkSize) chunkSize))
    let rest ← blockSend b data chunkSize order
    return (i, x) :: rest

/-- The mutex is held until the block list is built, and the list is committed by a request of
its own. -/
def uploadChunks (b : BlobId) (data : Bytes) (chunkSize nChunks : Nat) : LProg AzReply := do
  lock
  let e ← transferSetup nChunks
  if e ≠ .ok then return { err := e } else
  let res ← transfer unlock (return ())
    (fun order _ => do
      let replies ← blockSend b data chunkSize order
      return some (replies, ()))
    (fun _ s => s) (transferRetries + 1) (List.range nChunks) ()
  if res.1 ≠ .ok then return { err := res.1 } else
  let xml ← alloc .blockList nChunks
  if !xml.ok then
    unlock
    return { err := .nomem }
  else
  unlock
  execute (.putBlockList b (List.range nChunks))

def azBlockBlobUpload (b : BlobId) (data : Bytes) : LProg AzReply :=
  execute (.blockBlobUpload b data)

def azBlockBlobUploadParallel (b : BlobId) (data : Bytes) (chunkSize : Nat) : LProg AzReply :=
  let nChunks := cInt ((data.size + chunkSize - 1) / chunkSize : Nat)
  if data.size < blockUploadMinParallelSize then azBlockBlobUpload b data
  else if nChunks ≤ 1 then azBlockBlobUpload b data
  else uploadChunks b data chunkSize nChunks.toNat

/-! ## The same programs without the mutex -/

/-- The request behind a request of the client. -/
def reqOf : ClientReq → Req
  | .single r | .piece r => .azure r
  | .alloc _ n => .sys (.malloc n)
  | .start | .check => .sys .time
  | .pick n => .sys (.pick n)

/-- Its answer. -/
def ansOf : (r : ClientReq) → ClientAns r → Ans (reqOf r)
  | .single _, x => x.reply
  | .piece _, x => x
  | .alloc _ _, x | .start, x | .check, x | .pick _, x => x

/-- The operation `m` is `m'` with the mutex, and `Q` says how it leaves the mutex. -/
abbrev Of {α : Type} (Q : α → Bool → Prop) (m : LProg α) (held : Bool) (m' : Prog α) : Prop :=
  Erases reqOf ansOf (.sys .relock) Q m held m'

theorem of_ret {α : Type} {Q : α → Bool → Prop} {a : α} {held : Bool} (h : Q a held) :
    Of Q (.ret a) held (.ret a) := ⟨rfl, h⟩

theorem of_unlock {α : Type} {Q : α → Bool → Prop} {a : α} {held : Bool} (h : Q a false) :
    Of Q (unlock >>= fun _ => .ret a) held (.ret a) := ⟨rfl, h⟩

theorem of_op_bind {α : Type} {Q : α → Bool → Prop} {r : ClientReq} {held : Bool}
    {f : ClientAns r → LProg α} {f' : Ans (reqOf r) → Prog α}
    (h : ∀ x, Of Q (f x) held (f' (ansOf r x))) :
    Of Q (op r >>= f) held (.call (reqOf r) f') := ⟨f', rfl, h⟩

theorem of_ite {α : Type} {Q : α → Bool → Prop} {c : Prop} [Decidable c] {m₁ m₂ : LProg α}
    {held : Bool} {m₁' m₂' : Prog α} (h₁ : c → Of Q m₁ held m₁') (h₂ : ¬ c → Of Q m₂ held m₂') :
    Of Q (if c then m₁ else m₂) held (if c then m₁' else m₂') := by
  split
  · next h => exact h₁ h
  · next h => exact h₂ h

/-- A request, entered with the mutex free. -/
theorem of_executeSingle (r : AzReq) :
    Of (fun _ h => h = false) (executeSingle r) false (azure r) := by
  refine ⟨_, rfl, fun x => ?_⟩
  cases x <;> exact ⟨rfl, rfl⟩

theorem of_executeWithRetry (r : AzReq) : ∀ n,
    Of (fun _ h => h = false) (executeWithRetry r n) false (SqliteObjs.executeWithRetry r n)
  | 0 => of_executeSingle r
  | n + 1 => by
    refine (of_executeSingle r).bind fun x held hheld => ?_
    obtain rfl := hheld
    exact of_ite (fun _ => of_ret rfl) fun _ => of_ite (fun _ => of_ret rfl) fun _ =>
      of_executeWithRetry r n

/-- A request, entered with the mutex held. -/
theorem of_execute_held {α : Type} {Q : α → Bool → Prop} (r : AzReq) {f : AzReply → LProg α}
    (k : SysReply → Prog α) : Of Q (execute r >>= f) true (.call (.sys .relock) k) := ⟨k, rfl⟩

theorem of_shuffle {α : Type} (held : Bool) : ∀ l : List α,
    Of (fun _ h => h = held) (shuffle l) held (SqliteObjs.shuffle l)
  | [] => of_ret rfl
  | a :: l => by
    refine (of_shuffle held l).bind fun l' h hh => ?_
    obtain rfl := hh
    exact of_op_bind fun x => of_ret rfl

section Transfer

variable {σ : Type} {giveUp finish : LProg Unit} {finished : Bool}
  {send : List Nat → σ → LProg (Option (List (Nat × AzReply) × σ))}
  {send' : List Nat → σ → Prog (Option (List (Nat × AzReply) × σ))}
  {note : List (Nat × AzReply) → σ → σ}

theorem of_transfer (hgive : Of (fun _ _ => True) giveUp true (.ret ()))
    (hfinish : Of (fun _ h => h = finished) finish true (.ret ()))
    (hsend : ∀ order s, Of (fun _ h => h = true) (send order s) true (send' order s)) :
    ∀ (n : Nat) (pending : List Nat) (s : σ), Of (fun r h => r.1 = .ok → h = finished)
      (transfer giveUp finish send note n pending s) true
      (SqliteObjs.transfer send' note n pending s)
  | 0, _, s => of_unlock fun h => by cases h
  | n + 1, pending, s => by
    unfold transfer SqliteObjs.transfer
    refine of_op_bind fun reqs => of_ite (fun _ => ?_) fun _ => ?_
    · exact Erases.bind hgive fun _ _ _ => of_ret fun h => by cases h
    refine of_op_bind fun handles => of_ite (fun _ => of_unlock fun h => by cases h) fun _ => ?_
    refine (of_shuffle true pending).bind fun order h hh => ?_
    obtain rfl := hh
    refine (hsend order s).bind fun sent h hh => ?_
    obtain rfl := hh
    cases sent with
    | none => exact of_unlock fun h => by cases h
    | some rs =>
      refine (of_shuffle true rs.1).bind fun msgs h hh => ?_
      obtain rfl := hh
      refine of_ite (fun _ => ?_) fun _ => of_ite (fun _ => ?_) fun _ => ?_
      · exact Erases.bind hfinish fun _ _ hh => of_ret fun _ => hh
      · refine of_unlock fun h => ?_
        dsimp only at h
        split at h
        · cases h
        · next hne => exact absurd h hne
      · exact of_transfer hgive hfinish hsend n _ _

end Transfer

theorem of_transferSetup (n : Nat) :
    Of (fun e h => e = .ok → h = true) (transferSetup n) true (SqliteObjs.transferSetup n) := by
  refine of_op_bind fun done => of_ite (fun _ => of_unlock fun h => by cases h) fun _ => ?_
  exact of_op_bind fun multi => of_ite (fun _ => of_unlock fun h => by cases h) fun _ =>
    of_ret fun _ => rfl

section Batch

variable (b : BlobId) (ranges : List PageRange) (lease : Option LeaseId) (ifMatch : Option ETag)

theorem of_batchRenewLease (lastRenewal : Nat) : Of (fun _ h => h = true)
    (batchRenewLease b lease lastRenewal) true
    (SqliteObjs.batchRenewLease b lease lastRenewal) := by
  cases lease with
  | none => exact of_ret rfl
  | some id =>
    refine of_op_bind fun now => of_ite (fun _ => of_ret rfl) fun _ => ?_
    exact of_execute_held _ _

theorem of_batchAbandon : ∀ order, Of (fun _ h => h = true)
    (batchAbandon b ranges lease ifMatch order) true
    (SqliteObjs.batchAbandon b ranges lease ifMatch order)
  | [] => of_ret rfl
  | i :: order => by
    unfold batchAbandon SqliteObjs.batchAbandon
    refine of_op_bind fun served => ?_
    cases ranges[i]? with
    | none => exact of_batchAbandon order
    | some r =>
      refine of_ite (fun _ => of_batchAbandon order) fun _ => ?_
      exact of_op_bind fun _ => of_batchAbandon order

theorem of_batchSend : ∀ order lastRenewal, Of (fun _ h => h = true)
    (batchSend b ranges lease ifMatch order lastRenewal) true
    (SqliteObjs.batchSend b ranges lease ifMatch order lastRenewal)
  | [], _ => of_ret rfl
  | i :: order, lastRenewal => by
    unfold batchSend SqliteObjs.batchSend
    cases ranges[i]? with
    | none => exact of_batchSend order lastRenewal
    | some r =>
      refine of_op_bind fun x => ?_
      refine (of_batchRenewLease b lease lastRenewal).bind fun t h hh => ?_
      obtain rfl := hh
      cases t with
      | none =>
        refine (of_batchAbandon b ranges lease ifMatch order).bind fun _ h hh => ?_
        exact of_ret hh
      | some t =>
        refine (of_batchSend order t).bind fun _ h hh => ?_
        exact of_ret hh

theorem of_azPageBlobWrite (offset : Nat) (data : Bytes) : Of (fun _ h => h = false)
    (azPageBlobWrite b offset data lease ifMatch) false
    (SqliteObjs.azPageBlobWrite b offset data lease ifMatch) :=
  of_ite (fun _ => of_ret rfl) fun _ => of_ite (fun _ => of_ret rfl) fun _ =>
    of_ite (fun _ => of_ret rfl) fun _ => of_executeWithRetry _ _

/-- A batch of page writes is the one of the client. -/
theorem of_azPageBlobWriteBatch : Of (fun _ _ => True)
    (azPageBlobWriteBatch b ranges lease ifMatch) false
    (SqliteObjs.azPageBlobWriteBatch b ranges lease ifMatch) := by
  match ranges with
  | [] => exact of_ret trivial
  | [r] => exact (of_azPageBlobWrite b lease ifMatch r.offset r.data).mono fun _ _ _ => trivial
  | r :: r' :: rs =>
    unfold azPageBlobWriteBatch SqliteObjs.azPageBlobWriteBatch
    show Of _ (transferSetup _ >>= _) true _
    refine (of_transferSetup _).bind fun e h hh => of_ite (fun _ => of_ret trivial) fun he => ?_
    obtain rfl := hh (by simpa using he)
    refine Erases.bind (of_transfer (of_ret trivial) (of_unlock rfl) (fun order s => ?_) _ _ _)
      fun res h _ => of_ite (fun _ => of_ret trivial) fun _ => of_ret trivial
    refine of_op_bind fun start => ?_
    exact (of_batchSend b _ lease ifMatch order start.n).bind fun _ h hh => of_ret hh

end Batch

theorem of_readSend (b : BlobId) (totalSize : Nat) : ∀ order dest, Of (fun _ h => h = true)
    (readSend b totalSize order dest) true (SqliteObjs.readSend b totalSize order dest)
  | [], _ => of_ret rfl
  | i :: order, dest => by
    refine of_op_bind fun x => ?_
    exact (of_readSend b totalSize order _).bind fun _ h hh => of_ret hh

/-- A parallel download is the one of the client. -/
theorem of_azPageBlobReadMulti (b : BlobId) (totalSize : Nat) (dest : Bytes) : Of (fun _ _ => True)
    (azPageBlobReadMulti b totalSize dest) false
    (SqliteObjs.azPageBlobReadMulti b totalSize dest) := by
  unfold azPageBlobReadMulti SqliteObjs.azPageBlobReadMulti
  refine of_ite (fun _ => of_ret trivial) fun _ => of_ite (fun _ => ?_) fun _ => ?_
  · have hread : Of (fun _ _ => True) (azPageBlobRead b 0 totalSize) false
        (SqliteObjs.azPageBlobRead b 0 totalSize) :=
      of_ite (fun _ => of_ret trivial) fun _ => (of_executeWithRetry _ _).mono fun _ _ _ => trivial
    exact hread.bind fun x h _ => of_ite (fun _ => of_ret trivial) fun _ => of_ret trivial
  · show Of _ (transferSetup _ >>= _) true _
    refine (of_transferSetup _).bind fun e h hh => of_ite (fun _ => of_ret trivial) fun he => ?_
    obtain rfl := hh (by simpa using he)
    exact (of_transfer (of_unlock trivial) (of_unlock rfl) (of_readSend b totalSize) _ _ _).mono
      fun _ _ _ => trivial

theorem of_blockSend (b : BlobId) (data : Bytes) (chunkSize : Nat) : ∀ order,
    Of (fun _ h => h = true) (blockSend b data chunkSize order) true
      (SqliteObjs.blockSend b data chunkSize order)
  | [] => of_ret rfl
  | i :: order => by
    refine of_op_bind fun x => ?_
    exact (of_blockSend b data chunkSize order).bind fun _ h hh => of_ret hh

theorem of_uploadChunks (b : BlobId) (data : Bytes) (chunkSize nChunks : Nat) :
    Of (fun _ _ => True) (uploadChunks b data chunkSize nChunks) false
      (SqliteObjs.uploadChunks b data chunkSize nChunks) := by
  unfold uploadChunks SqliteObjs.uploadChunks
  show Of _ (transferSetup _ >>= _) true _
  refine (of_transferSetup _).bind fun e h hh => of_ite (fun _ => of_ret trivial) fun he => ?_
  obtain rfl := hh (by simpa using he)
  have hsend : ∀ order (s : Unit), Of (fun _ h => h = true)
      (blockSend b data chunkSize order >>= fun replies => .ret (some (replies, ()))) true
      (SqliteObjs.blockSend b data chunkSize order >>= fun replies => .ret (some (replies, ()))) :=
    fun order _ => (of_blockSend b data chunkSize order).bind fun _ h hh => of_ret hh
  refine Erases.bind (of_transfer (of_unlock trivial) (of_ret rfl) hsend _ _ _)
    fun res h hh => of_ite (fun _ => of_ret trivial) fun hres => ?_
  obtain rfl := hh (by simpa using hres)
  refine of_op_bind fun xml => of_ite (fun _ => of_unlock trivial) fun _ => ?_
  show Of _ (execute _) false _
  exact (of_executeWithRetry _ _).mono fun _ _ _ => trivial

/-- A parallel upload is the one of the client. -/
theorem of_azBlockBlobUploadParallel (b : BlobId) (data : Bytes) (chunkSize : Nat) :
    Of (fun _ _ => True) (azBlockBlobUploadParallel b data chunkSize) false
      (SqliteObjs.azBlockBlobUploadParallel b data chunkSize) := by
  have hone : Of (fun _ _ => True) (azBlockBlobUpload b data) false
      (SqliteObjs.azBlockBlobUpload b data) :=
    (of_executeWithRetry _ _).mono fun _ _ _ => trivial
  unfold azBlockBlobUploadParallel SqliteObjs.azBlockBlobUploadParallel
  extract_lets nChunks
  generalize nChunks = nChunks
  generalize blockUploadMinParallelSize = minSize
  exact of_ite (fun _ => hone) fun _ => of_ite (fun _ => hone) fun _ => of_uploadChunks _ _ _ _

/-- Without the mutex the transfers of many pieces are those of the client. -/
theorem transfers_erase (b : BlobId) :
    (∀ ranges lease ifMatch,
      Of (fun _ _ => True) (azPageBlobWriteBatch b ranges lease ifMatch) false
      (SqliteObjs.azPageBlobWriteBatch b ranges lease ifMatch)) ∧
    (∀ totalSize dest, Of (fun _ _ => True) (azPageBlobReadMulti b totalSize dest) false
      (SqliteObjs.azPageBlobReadMulti b totalSize dest)) ∧
    ∀ data chunkSize, Of (fun _ _ => True) (azBlockBlobUploadParallel b data chunkSize) false
      (SqliteObjs.azBlockBlobUploadParallel b data chunkSize) :=
  ⟨of_azPageBlobWriteBatch b, of_azPageBlobReadMulti b, of_azBlockBlobUploadParallel b⟩

/-! ## How the operations end -/

/-- What decides how an operation ends: the time at which its attempt began, whether the requests
of an attempt could not be allocated, and whether the lease came due for renewal. -/
structure Watch where
  start : Nat := 0
  reqsFailed : Bool := false
  renewalDue : Bool := false

namespace Watch

def step (w : Watch) : (r : ClientReq) → ClientAns r → Watch
  | .alloc .reqs _, x => { w with reqsFailed := w.reqsFailed || !x.ok }
  | .start, x => { w with start := x.n }
  | .check, x =>
    { w with renewalDue := w.renewalDue || decide (batchLeaseRenewalSec ≤ x.n - w.start) }
  | _, _ => w

/-- Neither has happened. -/
def Fine (w : Watch) : Prop := w.reqsFailed = false ∧ w.renewalDue = false

theorem step_reqs (w : Watch) (n : Nat) {x : SysReply} (h : x.ok = true) :
    w.step (.alloc .reqs n) x = w := by
  simp only [step, h, Bool.not_true, Bool.or_false]

theorem step_check (w : Watch) {x : SysReply} (h : x.n - w.start < batchLeaseRenewalSec) :
    w.step .check x = w := by
  have hlate : ¬ batchLeaseRenewalSec ≤ x.n - w.start := by omega
  simp only [step, hlate, decide_false, Bool.or_false]

end Watch

section Lwp

variable {R : Watch → Prop}

theorem lwp_executeSingle (r : AzReq) (w : Watch) :
    lwp Watch.step (fun _ h w' => h = false ∧ w' = w) R (executeSingle r) false w := by
  intro x
  cases x <;> exact ⟨rfl, rfl⟩

theorem lwp_executeWithRetry (r : AzReq) (w : Watch) : ∀ n,
    lwp Watch.step (fun _ h w' => h = false ∧ w' = w) R (executeWithRetry r n) false w
  | 0 => lwp_executeSingle r w
  | n + 1 => by
    apply lwp_bind_of (lwp_executeSingle r w)
    rintro x _ _ ⟨rfl, rfl⟩
    split
    · exact ⟨rfl, rfl⟩
    split
    · exact ⟨rfl, rfl⟩
    · exact lwp_executeWithRetry r _ n

theorem lwp_shuffle {α : Type} (held : Bool) (w : Watch) : ∀ l : List α,
    lwp Watch.step (fun _ h w' => h = held ∧ w' = w) R (shuffle l) held w
  | [] => ⟨rfl, rfl⟩
  | a :: l => by
    apply lwp_bind_of (lwp_shuffle held w l)
    rintro l' _ _ ⟨rfl, rfl⟩ x
    exact ⟨rfl, rfl⟩

theorem lwp_transferSetup (n : Nat) (w : Watch) :
    lwp Watch.step (fun e h w' => (h = true ↔ e = .ok) ∧ w' = w) R (transferSetup n) true w := by
  refine lwp_op fun done => lwp_ite (fun _ => ⟨by simp, rfl⟩) fun _ => ?_
  exact lwp_op fun multi => lwp_ite (fun _ => ⟨by simp, rfl⟩) fun _ => ⟨by simp, rfl⟩

/-- The attempts of a transfer keep `I`, and it ends as `Q` says: by `giveUp` if its requests
cannot be allocated, by `finish` if its pieces are done, and with the mutex unlocked otherwise. -/
theorem lwp_transfer {σ : Type} {I : Watch → Prop} {Q : AzErr → Bool → Watch → Prop}
    {giveUp finish : LProg Unit} {send : List Nat → σ → LProg (Option (List (Nat × AzReply) × σ))}
    {note : List (Nat × AzReply) → σ → σ}
    (hfail : ∀ e w, I w → e ≠ .ok → Q e false w)
    (hgive : ∀ w, I w →
      lwp Watch.step (fun _ h w' => Q .nomem h w') R giveUp true { w with reqsFailed := true })
    (hfinish : ∀ w, I w → lwp Watch.step (fun _ h w' => Q .ok h w') R finish true w)
    (hsend : ∀ order s w, I w →
      lwp Watch.step (fun _ h w' => h = true ∧ I w') R (send order s) true w) :
    ∀ (n : Nat) (pending : List Nat) (s : σ) (w : Watch), I w →
      lwp Watch.step (fun r h w' => Q r.1 h w') R (transfer giveUp finish send note n pending s)
        true w
  | 0, _, s, w, hw => hfail .io w hw (by simp)
  | n + 1, pending, s, w, hw => by
    unfold transfer
    refine lwp_op fun reqs => lwp_ite (fun hreqs => ?_) fun hreqs => ?_
    · have hstep : w.step (.alloc .reqs pending.length) reqs = { w with reqsFailed := true } := by
        simp only [Watch.step, hreqs, Bool.or_true]
      rw [hstep]
      exact lwp_bind_of (hgive w hw) fun _ _ _ h => h
    rw [Watch.step_reqs w _ (by simpa using hreqs)]
    refine lwp_op fun handles => lwp_ite (fun _ => hfail .network w hw (by simp)) fun _ => ?_
    apply lwp_bind_of (lwp_shuffle true w pending)
    rintro order _ _ ⟨rfl, rfl⟩
    apply lwp_bind_of (hsend order s _ hw)
    rintro sent _ w₁ ⟨rfl, hw₁⟩
    cases sent with
    | none => exact hfail .leaseExpired w₁ hw₁ (by simp)
    | some rs =>
      apply lwp_bind_of (lwp_shuffle true w₁ rs.1)
      rintro msgs _ _ ⟨rfl, rfl⟩
      refine lwp_ite (fun _ => ?_) fun _ => lwp_ite (fun _ => ?_) fun _ => ?_
      · exact lwp_bind_of (hfinish _ hw₁) fun _ _ _ h => h
      · apply hfail _ _ hw₁
        dsimp only
        split
        · simp
        · next hne => exact hne
      · exact lwp_transfer hfail hgive hfinish hsend n _ _ _ hw₁

/-- Within the event loop a request for renewal is one too many. -/
theorem lwp_batchRenewLease (b : BlobId) (lease : Option LeaseId) (w : Watch) :
    lwp Watch.step (fun t h w' => t = some w.start ∧ h = true ∧ w' = w) (·.renewalDue = true)
      (batchRenewLease b lease w.start) true w := by
  cases lease with
  | none => exact ⟨rfl, rfl, rfl⟩
  | some id =>
    refine lwp_op fun now => lwp_ite (fun hearly => ?_) fun hlate => ?_
    · exact ⟨rfl, rfl, w.step_check hearly⟩
    · show (w.step .check now).renewalDue = true
      have hdue : batchLeaseRenewalSec ≤ now.n - w.start := Nat.le_of_not_lt hlate
      simp only [Watch.step, hdue, decide_true, Bool.or_true]

theorem lwp_batchSend (b : BlobId) (ranges : List PageRange) (lease : Option LeaseId)
    (ifMatch : Option ETag) (w : Watch) : ∀ order,
    lwp Watch.step (fun _ h w' => h = true ∧ w' = w) (·.renewalDue = true)
      (batchSend b ranges lease ifMatch order w.start) true w
  | [] => ⟨rfl, rfl⟩
  | i :: order => by
    unfold batchSend
    cases ranges[i]? with
    | none => exact lwp_batchSend b ranges lease ifMatch w order
    | some r =>
      refine lwp_op fun x => ?_
      apply lwp_bind_of (lwp_batchRenewLease b lease w)
      rintro t _ _ ⟨rfl, rfl, rfl⟩
      apply lwp_bind_of (lwp_batchSend b ranges lease ifMatch _ order)
      exact fun _ _ _ h => h

/-- A batch of page writes returns with the mutex if an allocation of requests failed, without it
if not, and locks the mutex again when the lease comes due. -/
theorem lwp_azPageBlobWriteBatch (b : BlobId) (ranges : List PageRange) (lease : Option LeaseId)
    (ifMatch : Option ETag) :
    lwp Watch.step (fun _ h w => h = w.reqsFailed ∧ w.renewalDue = false) (·.renewalDue = true)
      (azPageBlobWriteBatch b ranges lease ifMatch) false {} := by
  match ranges with
  | [] => exact ⟨rfl, rfl⟩
  | [r] =>
    refine lwp_ite (fun _ => ⟨rfl, rfl⟩) fun _ => lwp_ite (fun _ => ⟨rfl, rfl⟩) fun _ =>
      lwp_ite (fun _ => ⟨rfl, rfl⟩) fun _ => ?_
    apply lwp_mono _ (lwp_executeWithRetry _ _ _)
    rintro _ _ _ ⟨rfl, rfl⟩
    exact ⟨rfl, rfl⟩
  | r :: r' :: rs =>
    unfold azPageBlobWriteBatch
    show lwp _ _ _ (transferSetup _ >>= _) true _
    apply lwp_bind_of (lwp_transferSetup _ _)
    rintro e held _ ⟨hheld, rfl⟩
    refine lwp_ite (fun he => ⟨?_, rfl⟩) fun he => ?_
    · cases held with
      | false => rfl
      | true => exact absurd (hheld.mp rfl) he
    obtain rfl := hheld.mpr (by simpa using he)
    apply lwp_bind_of
    · apply lwp_transfer (I := Watch.Fine)
        (Q := fun _ h w => h = w.reqsFailed ∧ w.renewalDue = false)
      · exact fun e w hw _ => ⟨hw.1.symm, hw.2⟩
      · exact fun w hw => ⟨rfl, hw.2⟩
      · exact fun w hw => ⟨hw.1.symm, hw.2⟩
      · intro order s w hw
        refine lwp_op fun start => ?_
        apply lwp_bind_of (lwp_batchSend b _ lease ifMatch (w.step .start start) order)
        rintro _ _ _ ⟨rfl, rfl⟩
        exact ⟨rfl, hw⟩
      · exact ⟨rfl, rfl⟩
    · intro res held w h
      exact lwp_ite (fun _ => h) fun _ => h

theorem lwp_readSend (b : BlobId) (totalSize : Nat) (w : Watch) : ∀ order dest,
    lwp Watch.step (fun _ h _ => h = true ∧ True) R (readSend b totalSize order dest) true w
  | [], _ => ⟨rfl, trivial⟩
  | i :: order, dest => by
    refine lwp_op fun x => ?_
    exact lwp_bind_of (lwp_readSend b totalSize _ order _) fun _ _ _ h => h

/-- A parallel download leaves the mutex free. -/
theorem lwp_azPageBlobReadMulti (b : BlobId) (totalSize : Nat) (dest : Bytes) :
    lwp Watch.step (fun _ h _ => h = false) (fun _ => False) (azPageBlobReadMulti b totalSize dest)
      false {} := by
  refine lwp_ite (fun _ => rfl) fun _ => lwp_ite (fun _ => ?_) fun _ => ?_
  · have hread : lwp Watch.step (fun _ h _ => h = false) (fun _ => False)
        (azPageBlobRead b 0 totalSize) false {} :=
      lwp_ite (fun _ => rfl) fun _ => lwp_mono (fun _ _ _ h => h.1) (lwp_executeWithRetry _ _ _)
    exact lwp_bind_of hread fun x held w h => lwp_ite (fun _ => h) fun _ => h
  · show lwp _ _ _ (transferSetup _ >>= _) true _
    apply lwp_bind_of (lwp_transferSetup _ _)
    rintro e held _ ⟨hheld, rfl⟩
    refine lwp_ite (fun he => ?_) fun he => ?_
    · exact Bool.eq_false_iff.mpr fun h => he (hheld.mp h)
    obtain rfl := hheld.mpr (by simpa using he)
    apply lwp_transfer (I := fun _ => True) (Q := fun _ h _ => h = false)
    · exact fun _ _ _ _ => rfl
    · exact fun _ _ => rfl
    · exact fun _ _ => rfl
    · exact fun order dest w _ => lwp_readSend b totalSize w order dest
    · trivial

theorem lwp_blockSend (b : BlobId) (data : Bytes) (chunkSize : Nat) (w : Watch) : ∀ order,
    lwp Watch.step (fun _ h _ => h = true ∧ True) R (blockSend b data chunkSize order) true w
  | [] => ⟨rfl, trivial⟩
  | i :: order => by
    refine lwp_op fun x => ?_
    exact lwp_bind_of (lwp_blockSend b data chunkSize _ order) fun _ _ _ h => h

theorem lwp_uploadChunks (b : BlobId) (data : Bytes) (chunkSize nChunks : Nat) :
    lwp Watch.step (fun _ h _ => h = false) (fun _ => False) (uploadChunks b data chunkSize nChunks)
      false {} := by
  show lwp _ _ _ (transferSetup _ >>= _) true _
  apply lwp_bind_of (lwp_transferSetup _ _)
  rintro e held _ ⟨hheld, rfl⟩
  refine lwp_ite (fun he => ?_) fun he => ?_
  · exact Bool.eq_false_iff.mpr fun h => he (hheld.mp h)
  obtain rfl := hheld.mpr (by simpa using he)
  apply lwp_bind_of
  -- the transfer is done with the mutex held: the list of blocks is still to be built
  · apply lwp_transfer (I := fun _ => True) (Q := fun e h _ => h = true ↔ e = .ok)
    · exact fun _ _ _ he => by simpa using he
    · exact fun _ _ => by simp [lwp, unlock]
    · exact fun _ _ => by simp [lwp, pure]
    · intro order s w _
      exact lwp_bind_of (lwp_blockSend b data chunkSize w order) fun _ _ _ h => h
    · trivial
  · intro res held w hheld
    refine lwp_ite (fun he => ?_) fun he => ?_
    · exact Bool.eq_false_iff.mpr fun h => he (hheld.mp h)
    refine lwp_op fun xml => lwp_ite (fun _ => rfl) fun _ => ?_
    show lwp _ _ _ (execute _) false _
    exact lwp_mono (fun _ _ _ h => h.1) (lwp_executeWithRetry _ _ _)

/-- A parallel upload leaves the mutex free. -/
theorem lwp_azBlockBlobUploadParallel (b : BlobId) (data : Bytes) (chunkSize : Nat) :
    lwp Watch.step (fun _ h _ => h = false) (fun _ => False)
      (azBlockBlobUploadParallel b data chunkSize) false {} := by
  have hone : lwp Watch.step (fun _ h _ => h = false) (fun _ => False) (azBlockBlobUpload b data)
      false {} := lwp_mono (fun _ _ _ h => h.1) (lwp_executeWithRetry _ _ _)
  unfold azBlockBlobUploadParallel
  extract_lets nChunks
  generalize nChunks = nChunks
  generalize blockUploadMinParallelSize = minSize
  exact lwp_ite (fun _ => hone) fun _ => lwp_ite (fun _ => hone) fun _ => lwp_uploadChunks _ _ _ _

end Lwp

/-- The requests and answers of a run of an operation. -/
abbrev ClientLog := List ((r : ClientReq) × ClientAns r)

/-- Some attempt could not allocate its requests. -/
def ReqsFailed (log : ClientLog) : Prop := (observe Watch.step {} log).reqsFailed = true

/-- Some step of the event loop came `batchLeaseRenewalSec` seconds after its attempt began. -/
def RenewalDue (log : ClientLog) : Prop := (observe Watch.step {} log).renewalDue = true

/-- An operation that ends so keeps the discipline of the mutex. -/
def Disciplined (e : Ending) : Prop := e = .returned false

theorem Disciplined.of_lwp {α : Type} {m : LProg α} {log : ClientLog} {e : Ending}
    (h : lwp Watch.step (fun _ h _ => h = false) (fun _ => False) m false {})
    (he : Ends m false log e) : Disciplined e := by
  have hend := Ends.of_lwp (Q := fun h _ => h = false) h he
  cases e with
  | returned held =>
    obtain rfl := hend.1 held rfl
    rfl
  | relocked => exact (hend.2 rfl).elim

/-- Requests, parallel downloads and parallel uploads keep the discipline of the mutex, whatever
their answers. A batch of page writes keeps it exactly if no attempt fails to allocate its requests
and no step of its event loop finds the lease due for renewal. -/
theorem mutex_disciplined_iff (log : ClientLog) (e : Ending) :
    (∀ (r : AzReq) (n : Nat), Ends (executeWithRetry r n) false log e → Disciplined e) ∧
    (∀ (b : BlobId) (totalSize : Nat) (dest : Bytes),
      Ends (azPageBlobReadMulti b totalSize dest) false log e → Disciplined e) ∧
    (∀ (b : BlobId) (data : Bytes) (chunkSize : Nat),
      Ends (azBlockBlobUploadParallel b data chunkSize) false log e → Disciplined e) ∧
    ∀ (b : BlobId) (ranges : List PageRange) (lease : Option LeaseId) (ifMatch : Option ETag),
      Ends (azPageBlobWriteBatch b ranges lease ifMatch) false log e →
        (Disciplined e ↔ ¬ ReqsFailed log ∧ ¬ RenewalDue log) := by
  refine ⟨fun r n he => ?_, fun b totalSize dest he => ?_, fun b data chunkSize he => ?_,
    fun b ranges lease ifMatch he => ?_⟩
  · exact .of_lwp (lwp_mono (fun _ _ _ h => h.1) (lwp_executeWithRetry r {} n)) he
  · exact .of_lwp (lwp_azPageBlobReadMulti b totalSize dest) he
  · exact .of_lwp (lwp_azBlockBlobUploadParallel b data chunkSize) he
  · have hend := Ends.of_lwp (Q := fun h (w : Watch) => h = w.reqsFailed ∧ w.renewalDue = false)
      (lwp_azPageBlobWriteBatch b ranges lease ifMatch) he
    cases e with
    | returned held =>
      obtain ⟨hheld, hdue⟩ := hend.1 held rfl
      simp [Disciplined, ReqsFailed, RenewalDue, ← hheld, hdue]
    | relocked =>
      have hdue := hend.2 rfl
      simp [Disciplined, RenewalDue, hdue]

def somePage : Bytes := .ofFn 512 fun _ => 1

/-- Two pages to be written under a lease. -/
def twoPages : LProg AzReply :=
  azPageBlobWriteBatch ⟨0, "db"⟩ [⟨0, somePage⟩, ⟨4096, somePage⟩] (some 7) none

/-- A run of it: its memory is there, the first answer comes after fifteen seconds. -/
def lateLog : ClientLog :=
  [⟨.alloc .done 2, { ok := true }⟩, ⟨.alloc .multi 1, { ok := true }⟩,
   ⟨.alloc .reqs 2, { ok := true }⟩, ⟨.alloc .handles 2, { ok := true }⟩,
   ⟨.pick 1, { ok := true, n := 0 }⟩, ⟨.pick 2, { ok := true, n := 0 }⟩,
   ⟨.start, { ok := true, n := 0 }⟩,
   ⟨.piece (.pageBlobWrite ⟨0, "db"⟩ 0 somePage (some 7) none), { err := .ok }⟩,
   ⟨.check, { ok := true, n := 15 }⟩]

/-- Another run: the requests cannot be allocated. -/
def outOfMemoryLog : ClientLog :=
  [⟨.alloc .done 2, { ok := true }⟩, ⟨.alloc .multi 1, { ok := true }⟩,
   ⟨.alloc .reqs 2, { ok := false }⟩]

theorem ends_twoPages_late : Ends twoPages false lateLog .relocked := by
  apply Ends.lock
  iterate 9 apply Ends.op
  exact .relock _

theorem ends_twoPages_outOfMemory : Ends twoPages false outOfMemoryLog (.returned true) := by
  apply Ends.lock
  iterate 3 apply Ends.op
  exact .ret _ _

/-- The batch locks its mutex twice in one run, and returns with it in the other. -/
theorem batch_breaks_mutex_discipline :
    (Ends twoPages false lateLog .relocked ∧ ¬ Disciplined .relocked) ∧
      Ends twoPages false outOfMemoryLog (.returned true) ∧ ¬ Disciplined (.returned true) := by
  refine ⟨⟨ends_twoPages_late, ?_⟩, ends_twoPages_outOfMemory, ?_⟩
  · simp [Disciplined]
  · simp [Disciplined]

/-- A run of the batch in two attempts. The lease is not due for renewal, and the second page is
written by the second attempt. -/
def resentLog : ClientLog :=
  [⟨.alloc .done 2, { ok := true }⟩, ⟨.alloc .multi 1, { ok := true }⟩,
   ⟨.alloc .reqs 2, { ok := true }⟩, ⟨.alloc .handles 2, { ok := true }⟩,
   ⟨.pick 1, { ok := true, n := 0 }⟩, ⟨.pick 2, { ok := true, n := 0 }⟩,
   ⟨.start, { ok := true, n := 0 }⟩,
   ⟨.piece (.pageBlobWrite ⟨0, "db"⟩ 0 somePage (some 7) none), { err := .ok }⟩,
   ⟨.check, { ok := true, n := 14 }⟩,
   ⟨.piece (.pageBlobWrite ⟨0, "db"⟩ 4096 somePage (some 7) none), { err := .server }⟩,
   ⟨.check, { ok := true, n := 14 }⟩,
   ⟨.pick 1, { ok := true, n := 0 }⟩, ⟨.pick 2, { ok := true, n := 0 }⟩,
   ⟨.alloc .reqs 1, { ok := true }⟩, ⟨.alloc .handles 1, { ok := true }⟩,
   ⟨.pick 1, { ok := true, n := 0 }⟩, ⟨.start, { ok := true, n := 20 }⟩,
   ⟨.piece (.pageBlobWrite ⟨0, "db"⟩ 4096 somePage (some 7) none), { err := .ok }⟩,
   ⟨.check, { ok := true, n := 30 }⟩, ⟨.pick 1, { ok := true, n := 0 }⟩]

theorem ends_twoPages_resent : Ends twoPages false resentLog (.returned false) := by
  apply Ends.lock
  iterate 20 apply Ends.op
  apply Ends.unlock
  exact .ret _ _

/-- A request that is sent again, and a batch with two attempts. -/
theorem mutex_disciplined_resent :
    Disciplined (.returned false) ∧ Ends twoPages false resentLog (.returned false) ∧
      ¬ ReqsFailed resentLog ∧ ¬ RenewalDue resentLog := by
  have hone : Ends (executeWithRetry (.leaseRenew ⟨0, "db"⟩ 7) 1) false
      [⟨.single (.leaseRenew ⟨0, "db"⟩ 7), .curl true⟩,
       ⟨.single (.leaseRenew ⟨0, "db"⟩ 7), .success { err := .ok }⟩] (.returned false) := by
    apply Ends.lock
    apply Ends.op
    apply Ends.unlock
    apply Ends.lock
    apply Ends.op
    apply Ends.unlock
    exact .ret _ _
  refine ⟨(mutex_disciplined_iff _ _).1 _ _ hone, ends_twoPages_resent, ?_⟩
  exact ((mutex_disciplined_iff _ _).2.2.2 _ _ _ _ ends_twoPages_resent).mp rfl

end Locked
end SqliteObjs
