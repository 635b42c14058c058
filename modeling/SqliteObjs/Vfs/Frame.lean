import SqliteObjs.Vfs.Lock

/-!
# What the operations leave alone

An operation on an open file talks to the service about the blob of that file only,
and keeps the file's handle: its client, its name, its type and its lock. Taking and
giving back a lease is left to `xLock`, `xUnlock` and `xClose`. Nothing here depends
on the answers, so the statements are about the programs themselves.

The client comes first, then the operations on a database. `xOpen` and the entry points
are in `SqliteObjs.Vfs.Handles`.
-/

set_option autoImplicit false

namespace SqliteObjs

open Data CS CS.Program

/-! ## Handles and requests -/

/-- What stays with an open file while it is read, written and synced. -/
structure Handle where
  ops : AzureOps
  opsCtx : Nat
  zBlobName : String
  eFileType : FileType
  eLock : LockLevel
  leaseId : Option LeaseId

namespace Handle

def blob (h : Handle) : BlobId := { ctx := h.opsCtx, name := h.zBlobName }

end Handle

def ObjsFile.handle (p : ObjsFile) : Handle where
  ops := p.ops
  opsCtx := p.opsCtx
  zBlobName := p.zBlobName
  eFileType := p.eFileType
  eLock := p.eLock
  leaseId := p.leaseId

theorem ObjsFile.blob_of_handle {p : ObjsFile} {h : Handle} (hp : p.handle = h) :
    p.blob = h.blob := by
  subst hp
  rfl

/-- The request takes a lease or gives one back. -/
def AzReq.isHandover : AzReq → Bool
  | .leaseAcquire _ _ | .leaseRelease _ _ => true
  | _ => false

/-- The request is local, or about the blob `b` and not about who holds its lease. -/
def Touches (b : BlobId) : Req → Prop
  | .azure r => r.blob = b ∧ r.isHandover = false
  | .sys _ => True

/-- The request is local. -/
def IsLocal : Req → Prop
  | .azure _ => False
  | .sys _ => True

section Requests

variable {α : Type} {P : Req → Prop} {Q : α → Prop} {b : BlobId} {h : Handle} {p : ObjsFile}

theorem touches_of_isLocal {r : Req} (hr : IsLocal r) : Touches b r := by
  cases r with
  | azure r => exact hr.elim
  | sys r => trivial

/-- A program that stays on the machine, with any result. -/
theorem within_touches {m : Prog α} (hm : Within IsLocal Q m) : Within (Touches b) Q m :=
  hm.mono (fun _ => touches_of_isLocal) fun _ hq => hq

/-- The attempts of a transfer issue the requests of its pieces. -/
theorem within_transfer {σ : Type}
    {send : List Nat → σ → Prog (Option (List (Nat × AzReply) × σ))}
    {note : List (Nat × AzReply) → σ → σ} (hsys : ∀ r, P (.sys r))
    (hsend : ∀ order s, Within P (fun _ => True) (send order s)) :
    ∀ n pending s, Within P (fun _ => True) (transfer send note n pending s)
  | 0, _, _ => trivial
  | n + 1, pending, s => by
    unfold transfer
    refine within_sys_bind (hsys _) fun _ => ?_
    split
    · trivial
    refine within_sys_bind (hsys _) fun _ => ?_
    split
    · trivial
    refine (within_shuffle (fun _ => hsys _) _).bind fun order _ => ?_
    refine (hsend order s).bind fun r _ => ?_
    rcases r with _ | ⟨replies, s'⟩
    · trivial
    refine (within_shuffle (fun _ => hsys _) _).bind fun msgs _ => ?_
    dsimp only
    split
    · trivial
    split
    · trivial
    · exact within_transfer hsys hsend n _ _

end Requests

/-! ## The client -/

section Client

variable {P : Req → Prop} {b : BlobId}

theorem touches_sys (r : SysReq) : Touches b (.sys r) := trivial

theorem within_azPageBlobRead (o n : Nat) :
    Within (Touches b) (fun _ => True) (azPageBlobRead b o n) := by
  unfold azPageBlobRead
  split
  · trivial
  · exact within_executeWithRetry ⟨rfl, rfl⟩ _

theorem within_azPageBlobWrite (o : Nat) (d : Bytes) (l : Option LeaseId) (e : Option ETag) :
    Within (Touches b) (fun _ => True) (azPageBlobWrite b o d l e) := by
  unfold azPageBlobWrite
  split
  · trivial
  split
  · trivial
  split
  · trivial
  · exact within_executeWithRetry ⟨rfl, rfl⟩ _

theorem within_azPageBlobResize (n : Nat) (l : Option LeaseId) :
    Within (Touches b) (fun _ => True) (azPageBlobResize b n l) := by
  unfold azPageBlobResize
  split
  · trivial
  · exact within_executeWithRetry ⟨rfl, rfl⟩ _

theorem within_azPageBlobCreate (n : Nat) :
    Within (Touches b) (fun _ => True) (azPageBlobCreate b n) := by
  unfold azPageBlobCreate
  split
  · trivial
  · exact within_executeWithRetry ⟨rfl, rfl⟩ _

theorem within_azBlobExists : Within (Touches b) (fun _ => True) (azBlobExists b) := by
  unfold azBlobExists azBlobGetProperties
  refine within_execute_bind ⟨rfl, rfl⟩ fun x => ?_
  split
  · trivial
  split
  · trivial
  · trivial

theorem within_batchAbandon (rs : List PageRange) (l : Option LeaseId) (e : Option ETag) :
    ∀ order, Within (Touches b) (fun _ => True) (batchAbandon b rs l e order)
  | [] => trivial
  | i :: order => by
    unfold batchAbandon
    refine within_sys_bind trivial fun served => ?_
    split
    · exact within_batchAbandon rs l e order
    split
    · exact within_batchAbandon rs l e order
    · exact within_azure_bind ⟨rfl, rfl⟩ fun _ => within_batchAbandon rs l e order

theorem within_batchSend (rs : List PageRange) (l : Option LeaseId) (e : Option ETag) :
    ∀ order t, Within (Touches b) (fun _ => True) (batchSend b rs l e order t)
  | [], _ => trivial
  | i :: order, t => by
    unfold batchSend
    split
    · exact within_batchSend rs l e order t
    refine within_azure_bind ⟨rfl, rfl⟩ fun x => ?_
    refine (within_batchRenewLease touches_sys (fun _ => ⟨rfl, rfl⟩) l t).bind fun t' _ => ?_
    split
    · exact (within_batchAbandon rs l e order).bind fun _ _ => trivial
    · exact (within_batchSend rs l e order _).bind fun _ _ => trivial

theorem within_azPageBlobWriteBatch (rs : List PageRange) (l : Option LeaseId) (e : Option ETag) :
    Within (Touches b) (fun _ => True) (azPageBlobWriteBatch b rs l e) := by
  unfold azPageBlobWriteBatch
  split
  · trivial
  · exact within_azPageBlobWrite _ _ _ _
  refine (within_transferSetup touches_sys).bind fun _ _ => ?_
  split
  · trivial
  refine (within_transfer touches_sys (fun order s => ?_) _ _ _).bind fun _ _ => ?_
  · refine within_sys_bind trivial fun start => ?_
    exact (within_batchSend rs l e order _).bind fun _ _ => trivial
  split
  · trivial
  · trivial

theorem within_readSend (n : Nat) :
    ∀ order d, Within (Touches b) (fun _ => True) (readSend b n order d)
  | [], _ => trivial
  | i :: order, d => by
    unfold readSend
    dsimp only
    refine within_azure_bind ⟨rfl, rfl⟩ fun x => ?_
    exact (within_readSend n order _).bind fun _ _ => trivial

theorem within_azPageBlobReadMulti (n : Nat) (d : Bytes) :
    Within (Touches b) (fun _ => True) (azPageBlobReadMulti b n d) := by
  unfold azPageBlobReadMulti
  split
  · trivial
  split
  · refine (within_azPageBlobRead _ _).bind fun x _ => ?_
    split
    · trivial
    · trivial
  dsimp only
  refine (within_transferSetup touches_sys).bind fun _ _ => ?_
  split
  · trivial
  · exact within_transfer touches_sys (within_readSend n) _ _ _

theorem within_blockSend (d : Bytes) (n : Nat) :
    ∀ order, Within (Touches b) (fun _ => True) (blockSend b d n order)
  | [] => trivial
  | i :: order => by
    unfold blockSend
    refine within_azure_bind ⟨rfl, rfl⟩ fun x => ?_
    exact (within_blockSend d n order).bind fun _ _ => trivial

theorem within_uploadChunks (d : Bytes) (n k : Nat) :
    Within (Touches b) (fun _ => True) (uploadChunks b d n k) := by
  unfold uploadChunks
  refine (within_transferSetup touches_sys).bind fun _ _ => ?_
  split
  · trivial
  refine (within_transfer touches_sys (fun order _ => ?_) _ _ _).bind fun _ _ => ?_
  · exact (within_blockSend d n order).bind fun _ _ => trivial
  split
  · trivial
  refine within_sys_bind trivial fun _ => ?_
  split
  · trivial
  · exact within_executeWithRetry ⟨rfl, rfl⟩ _

theorem within_azBlockBlobUploadParallel (d : Bytes) (n : Nat) :
    Within (Touches b) (fun _ => True) (azBlockBlobUploadParallel b d n) := by
  unfold azBlockBlobUploadParallel
  generalize cInt _ = nChunks
  dsimp only
  refine .ite ?_ (.ite ?_ ?_)
  · exact within_executeWithRetry ⟨rfl, rfl⟩ _
  · exact within_executeWithRetry ⟨rfl, rfl⟩ _
  · exact within_uploadChunks _ _ _

end Client

/-! ## The cache file -/

section Cache

variable {h : Handle} {p : ObjsFile} {fd : Fd}

theorem within_bitmapEnsureCapacity (bm : Bitmap) (n ps : Nat) :
    Within IsLocal (fun _ => True) (bitmapEnsureCapacity bm n ps) := by
  unfold bitmapEnsureCapacity
  dsimp only
  split
  · trivial
  split
  · trivial
  refine within_sys_bind trivial fun _ => ?_
  split
  · trivial
  · trivial

theorem within_bitmapsEnsureCapacity (hp : p.handle = h) :
    Within IsLocal (fun r => r.1.handle = h) (bitmapsEnsureCapacity p) := by
  unfold bitmapsEnsureCapacity
  refine (within_bitmapEnsureCapacity _ _ _).bind fun r _ => ?_
  dsimp only
  split
  · exact hp
  split
  · exact (within_bitmapEnsureCapacity _ _ _).bind fun _ _ => hp
  · exact hp

theorem within_cacheEnsureSize (hp : p.handle = h) (n : Nat) :
    Within IsLocal (fun r => r.1.handle = h) (cacheEnsureSize p n) := by
  unfold cacheEnsureSize
  split
  · exact hp
  refine within_sys_bind trivial fun _ => ?_
  split
  · exact hp
  split
  · exact hp
  refine within_sys_bind trivial fun _ => ?_
  split
  · exact hp
  · exact within_bitmapsEnsureCapacity hp

theorem within_leaseRenewIfNeeded (hp : p.handle = h) :
    Within (Touches h.blob) (fun r => r.1.handle = h) (leaseRenewIfNeeded p) := by
  unfold leaseRenewIfNeeded
  split
  · exact hp
  refine within_sys_bind trivial fun _ => .ite hp ?_
  refine within_execute_bind ⟨p.blob_of_handle hp, rfl⟩ fun _ => ?_
  split
  · exact hp
  · exact hp

theorem within_redetectPageSize (hp : p.handle = h) :
    Within IsLocal (fun p' => p'.handle = h) (redetectPageSize p fd) := by
  unfold redetectPageSize
  refine within_sys_bind trivial fun _ => ?_
  split
  · dsimp only
    split
    · exact hp
    · exact hp
  · exact hp

theorem handle_setValid (p : ObjsFile) (valid : Bitmap) :
    { p with valid := valid }.handle = p.handle := rfl

theorem handle_validMarkRange (p : ObjsFile) (a e : Nat) :
    (validMarkRange p a e).handle = p.handle := by
  unfold validMarkRange
  split
  · rfl
  · exact handle_setValid p _

theorem handle_validMarkAll (p : ObjsFile) : (validMarkAll p).handle = p.handle := by
  unfold validMarkAll
  split
  · rfl
  · exact handle_setValid p _

theorem within_storeFetched (hp : p.handle = h) (o : Nat) (d : Bytes) :
    Within IsLocal (fun r => r.1.handle = h) (storeFetched p fd o d) := by
  unfold storeFetched
  refine within_sys_bind trivial fun _ => ?_
  split
  · exact hp
  · exact (handle_validMarkRange _ _ _).trans hp

theorem within_read (hp : p.handle = h) (o n : Nat) :
    Within (Touches h.blob) (fun _ => True) (azPageBlobRead p.blob o n) := by
  rw [p.blob_of_handle hp]
  exact within_azPageBlobRead o n

theorem within_fetchPagesFromAzure (hp : p.handle = h) (pg : Int) :
    Within (Touches h.blob) (fun r => r.1.handle = h) (fetchPagesFromAzure p pg) := by
  unfold fetchPagesFromAzure
  split
  · exact hp
  split
  · exact hp
  split
  · exact hp
  split
  · exact hp
  dsimp only
  split
  · exact hp
  refine (within_read hp _ _).bind fun _ _ => ?_
  split
  · exact hp
  split
  · exact hp
  · exact within_touches (within_storeFetched hp _ _)

theorem within_prefetchFrom (nPages : Nat) : ∀ (n i : Nat) {p : ObjsFile}, p.handle = h →
    Within (Touches h.blob) (fun r => r.1.handle = h) (prefetchFrom p fd nPages n i)
  | 0, _, _, hp => hp
  | n + 1, i, p, hp => by
    unfold prefetchFrom
    split
    · exact hp
    split
    · exact within_prefetchFrom nPages n _ hp
    dsimp only
    split
    · exact within_prefetchFrom nPages n _ hp
    refine (within_read hp _ _).bind fun _ _ => ?_
    split
    · exact hp
    split
    · exact hp
    refine (within_touches (within_storeFetched hp _ _)).bind fun r hr => ?_
    split
    · exact hr
    · exact within_prefetchFrom nPages n _ hr

theorem within_fileControlPrefetch (hp : p.handle = h) :
    Within (Touches h.blob) (fun r => r.1.handle = h) (fileControlPrefetch p) := by
  unfold fileControlPrefetch prefetchInvalidPages
  split
  · split
    · exact hp
    split
    · exact hp
    split
    · exact hp
    · generalize (pageCount p.nData p.pageSize).toNat = nPages
      exact within_prefetchFrom nPages nPages 0 hp
  · exact hp

theorem within_storeDiff (hp : p.handle = h) (o : Nat) (d : Bytes) :
    Within IsLocal (fun r => r.1.handle = h) (storeDiff p fd o d) := by
  unfold storeDiff
  refine within_sys_bind trivial fun _ => ?_
  split
  · exact hp
  split
  · exact (handle_validMarkRange _ _ _).trans hp
  · exact hp

theorem within_applyDiffRanges : ∀ (rs : List DiffRange) {p : ObjsFile}, p.handle = h →
    Within (Touches h.blob) (fun r => r.1.handle = h) (applyDiffRanges fd rs p)
  | [], _, hp => hp
  | r :: rs, p, hp => by
    unfold applyDiffRanges
    dsimp only
    split
    · exact within_applyDiffRanges rs hp
    split
    · refine within_sys_bind trivial fun _ => ?_
      split
      · exact hp
      refine (within_touches (within_storeDiff hp _ _)).bind fun r hr => ?_
      split
      · exact hr
      · exact within_applyDiffRanges rs hr
    · refine (within_read hp _ _).bind fun _ _ => ?_
      split
      · exact hp
      refine (within_touches (within_storeDiff hp _ _)).bind fun r hr => ?_
      split
      · exact hr
      · exact within_applyDiffRanges rs hr

theorem within_growForDiff (n : Nat) : Within IsLocal (fun _ => True) (growForDiff p fd n) := by
  unfold growForDiff
  split
  · exact within_sys_bind (f := .ret) trivial fun _ => trivial
  · trivial

theorem within_shrinkForDiff (n : Nat) : Within IsLocal (fun _ => True) (shrinkForDiff p fd n) := by
  unfold shrinkForDiff
  split
  · exact within_sys_bind trivial fun _ => trivial
  · trivial

theorem within_applyIncrementalDiff (hp : p.handle = h) (n : Nat) :
    Within (Touches h.blob) (fun r => r.1.handle = h) (applyIncrementalDiff p fd n) := by
  unfold applyIncrementalDiff
  split
  · exact hp
  split
  · exact hp
  refine within_execute_bind ⟨p.blob_of_handle hp, rfl⟩ fun _ => ?_
  split
  · exact hp
  refine (within_touches (within_growForDiff n)).bind fun _ _ => ?_
  split
  · exact hp
  refine (within_applyDiffRanges _ hp).bind fun r hr => ?_
  dsimp only
  split
  · exact hr
  refine (within_touches (within_shrinkForDiff n)).bind fun _ _ => ?_
  refine within_sys_bind trivial fun _ => ?_
  refine (within_touches (within_redetectPageSize (p := { r.1 with nData := n }) hr)).bind
    fun p' hp' => ?_
  exact (within_touches (within_bitmapsEnsureCapacity hp')).bind fun _ hr' => hr'

theorem within_writeAll (d : Bytes) :
    ∀ n t, Within IsLocal (fun _ => True) (writeAll fd d n t)
  | 0, _ => trivial
  | n + 1, t => by
    unfold writeAll
    split
    · trivial
    refine within_sys_bind trivial fun _ => ?_
    split
    · trivial
    · exact within_writeAll d n _

theorem within_downloadBlob (hp : p.handle = h) (n : Nat) (d : Bytes) :
    Within (Touches h.blob) (fun _ => True) (downloadBlob p n d) := by
  unfold downloadBlob
  split
  · rw [p.blob_of_handle hp]
    exact within_azPageBlobReadMulti n d
  refine (within_read hp _ _).bind fun _ _ => ?_
  split
  · trivial
  split
  · trivial
  · trivial

theorem within_readEtagFile (path : Path) :
    Within IsLocal (fun _ => True) (readEtagFile path) := by
  unfold readEtagFile
  refine within_sys_bind trivial fun _ => ?_
  split
  · trivial
  · trivial

theorem within_readSnapshotFile (path : Path) :
    Within IsLocal (fun _ => True) (readSnapshotFile path) := by
  unfold readSnapshotFile
  refine within_sys_bind trivial fun _ => ?_
  split
  · trivial
  · trivial

theorem within_readStateFile (path : Path) :
    Within IsLocal (fun _ => True) (readStateFile path) := by
  unfold readStateFile
  refine within_sys_bind trivial fun _ => ?_
  split
  · split
    · trivial
    split
    · trivial
    refine within_sys_bind trivial fun _ => ?_
    split
    · trivial
    · trivial
  · trivial

theorem within_writeEtagFile (path : Path) (e : Option ETag) :
    Within IsLocal (fun _ => True) (writeEtagFile path e) := by
  unfold writeEtagFile
  split
  · trivial
  refine within_sys_bind trivial fun _ => ?_
  split
  · trivial
  refine within_sys_bind trivial fun _ => ?_
  split
  · trivial
  · exact within_sys_bind trivial fun _ => trivial

theorem within_writeSnapshotFile (path : Path) (s : Option Snapshot) :
    Within IsLocal (fun _ => True) (writeSnapshotFile path s) := by
  unfold writeSnapshotFile
  split
  · trivial
  refine within_sys_bind trivial fun _ => ?_
  split
  · trivial
  refine within_sys_bind trivial fun _ => ?_
  split
  · trivial
  · exact within_sys_bind trivial fun _ => trivial

theorem within_writeStateFile (path : Path) (ps n : Nat) (bm : List UInt8) :
    Within IsLocal (fun _ => True) (writeStateFile path ps n bm) := by
  unfold writeStateFile
  split
  · trivial
  refine within_sys_bind trivial fun _ => ?_
  split
  · trivial
  · exact within_sys_bind trivial fun _ => trivial

theorem within_unlinkCache (path : Path) :
    Within IsLocal (fun _ => True) (unlinkCache path) := by
  unfold unlinkCache
  exact within_sys_bind trivial fun _ => within_sys_bind trivial fun _ =>
    within_sys_bind trivial fun _ => within_sys_bind trivial fun _ => trivial

end Cache

/-! ## Reading, writing, truncating -/

section Io

variable {h : Handle} {p : ObjsFile}

theorem within_fetchMissing : ∀ (n : Nat) (pg : Int) {p : ObjsFile}, p.handle = h →
    Within (Touches h.blob) (fun r => r.1.handle = h) (fetchMissing n pg p)
  | 0, _, _, hp => hp
  | n + 1, pg, p, hp => by
    unfold fetchMissing
    split
    · exact within_fetchMissing n _ hp
    refine (within_fetchPagesFromAzure hp pg).bind fun (p', rc) hr => ?_
    dsimp only
    split
    · exact hr
    · exact within_fetchMissing n _ hr

theorem within_fetchForRead (hp : p.handle = h) (n o : Nat) :
    Within (Touches h.blob) (fun r => r.1.handle = h) (fetchForRead p n o) := by
  unfold fetchForRead
  dsimp only
  generalize cInt _ = a
  generalize pageCount _ _ = e
  exact .ite (within_fetchMissing _ _ hp) (within_ret.mpr hp)

theorem within_mainDbRead (hp : p.handle = h) (n o : Nat) :
    Within (Touches h.blob) (fun r => r.1.handle = h) (mainDbRead p n o) := by
  unfold mainDbRead
  generalize cInt _ = reads
  extract_lets p₁
  have hp₁ : p₁.handle = h := by
    unfold p₁
    split
    · exact hp
    · exact hp
  generalize p₁ = p at hp₁
  split
  · exact hp₁
  split
  · exact hp₁
  refine (within_fetchForRead hp₁ _ _).bind fun r hr => ?_
  dsimp only
  split
  · exact hr
  split
  · exact hr
  refine within_sys_bind trivial fun _ => ?_
  split
  · exact hr
  split
  · exact hr
  split
  · exact hr
  · exact hr

theorem handle_markWritten (o : Nat) : ∀ (n : Nat) (p : ObjsFile),
    (markWritten p o n).handle = p.handle := by
  intro n
  induction n generalizing o with
  | zero => exact fun p => rfl
  | succ n ih =>
    intro p
    have hd : (dirtyMarkPage p o).handle = p.handle := by
      unfold dirtyMarkPage
      generalize bitmapSetBit p.dirty _ = dirty
      split
      · rfl
      · rfl
    have hv : ∀ q : ObjsFile, (validMarkPage q o).handle = q.handle := by
      intro q
      unfold validMarkPage
      generalize bitmapSetBit q.valid _ = valid
      split
      · rfl
      · rfl
    unfold markWritten
    dsimp only
    rw [ih]
    split
    · rw [hv, hd]
    · rw [hd]

theorem within_mainDbWrite (hp : p.handle = h) (buf : Bytes) (o : Nat) :
    Within (Touches h.blob) (fun r => r.1.handle = h) (mainDbWrite p buf o) := by
  unfold mainDbWrite extendCache
  split
  · exact hp
  dsimp only
  refine Within.bind (Q := fun r => r.1.handle = h) (.ite ?_ (within_ret.mpr hp))
    fun (p', rc) hr => ?_
  · exact within_touches (within_cacheEnsureSize
      (p := { p with nData := max p.nData (o + buf.size) }) hp _)
  dsimp only
  split
  · exact hr
  refine within_sys_bind trivial fun _ => ?_
  split
  · exact hr
  refine (within_leaseRenewIfNeeded hr).bind fun (p', rc) hr' => ?_
  dsimp only
  split
  · exact hr'
  split
  · exact (handle_markWritten _ _ _).trans hr'
  · exact hr'

theorem handle_clearValid : ∀ (n : Nat) (pg : Int) (p : ObjsFile),
    (clearValid p pg n).handle = p.handle
  | 0, _, _ => rfl
  | n + 1, pg, p => by
    unfold clearValid
    exact handle_clearValid n _ _

theorem handle_forgetPastEnd (p : ObjsFile) (n : Nat) :
    (forgetPastEnd p n).handle = p.handle := by
  have hsize : ∀ q : ObjsFile, { q with nData := n }.handle = q.handle := fun _ => rfl
  unfold forgetPastEnd
  dsimp only
  split
  · rw [hsize]
    split
    · exact handle_clearValid _ _ p
    · rfl
  · rfl

theorem within_mainDbTruncate (hp : p.handle = h) (n : Nat) :
    Within (Touches h.blob) (fun r => r.1.handle = h) (mainDbTruncate p n) := by
  have hresize : Within (Touches h.blob) (fun r => r.1.handle = h) (resizeForTruncate p n) := by
    unfold resizeForTruncate
    split
    · rw [p.blob_of_handle hp]
      refine (within_azPageBlobResize _ _).bind fun _ _ => ?_
      split
      · exact hp
      · exact hp
    · exact hp
  unfold mainDbTruncate
  refine hresize.bind fun (p', rc) hr => ?_
  dsimp only
  split
  · exact hr
  split
  · exact (handle_forgetPastEnd _ _).trans hr
  refine within_sys_bind trivial fun _ => ?_
  split
  · exact hr
  · exact (handle_forgetPastEnd _ _).trans hr

end Io

/-! ## Syncing -/

section Sync

variable {h : Handle} {p : ObjsFile}

theorem within_syncRanges : Within IsLocal (fun _ => True) (syncRanges p) := by
  unfold syncRanges
  split
  · trivial
  refine within_sys_bind trivial fun _ => ?_
  split
  · trivial
  split
  · trivial
  · trivial

theorem within_readRanges (fd : Option Fd) (rs : List (Nat × Nat)) :
    Within IsLocal (fun _ => True) (readRanges fd rs) := by
  induction rs with
  | nil => trivial
  | cons r rs ih =>
    unfold readRanges
    cases fd with
    | none => trivial
    | some f =>
      refine within_sys_bind trivial fun _ => ?_
      split
      · trivial
      · exact ih.bind fun _ _ => trivial

theorem within_padCache (fd : Option Fd) (rs : List (Nat × Nat)) :
    Within IsLocal (fun _ => True) (padCache fd rs) := by
  unfold padCache
  split
  · refine within_sys_bind trivial fun _ => ?_
    split
    · exact within_sys_bind trivial fun _ => trivial
    · trivial
  · trivial

theorem within_loadRanges (rs : List (Nat × Nat)) :
    Within IsLocal (fun _ => True) (loadRanges p rs) := by
  unfold loadRanges
  dsimp only
  split
  · trivial
  refine (within_padCache _ _).bind fun _ _ => within_sys_bind trivial fun _ => ?_
  split
  · trivial
  · exact (within_readRanges _ _).bind fun _ _ => trivial

theorem within_write (hp : p.handle = h) (o : Nat) (d : Bytes) (l : Option LeaseId)
    (e : Option ETag) :
    Within (Touches h.blob) (fun _ => True) (azPageBlobWrite p.blob o d l e) := by
  rw [p.blob_of_handle hp]
  exact within_azPageBlobWrite o d l e

theorem within_writeSequential : ∀ (rs : List PageRange) (i : Nat) (e : Option ETag)
    {p : ObjsFile}, p.handle = h →
    Within (Touches h.blob) (fun r => r.1.handle = h) (writeSequential rs i e p)
  | [], _, _, _, hp => hp
  | r :: rs, i, e, p, hp => by
    unfold writeSequential renewEvery50
    refine Within.bind (Q := fun r => r.1.handle = h)
      (.ite (within_leaseRenewIfNeeded hp) (within_ret.mpr hp)) fun (p', rc) hr => ?_
    dsimp only
    split
    · exact hr
    refine (within_write hr _ _ _ _).bind fun _ _ => ?_
    split
    · exact hr
    split
    · exact hr
    · exact within_writeSequential rs _ _ hr

theorem within_writeRanges (hp : p.handle = h) (rs : List PageRange)
    (aerr : Option (Option ETag)) :
    Within (Touches h.blob) (fun r => r.1.handle = h) (writeRanges p rs aerr) := by
  have hetag : Within (Touches h.blob) (fun _ => True) (etagBefore aerr) := by
    unfold etagBefore
    split
    · trivial
    · exact within_sys_bind trivial fun _ => trivial
  unfold writeRanges
  split
  · rw [p.blob_of_handle hp]
    refine (within_azPageBlobWriteBatch _ _ _).bind fun _ _ => ?_
    split
    · exact hp
    split
    · exact hp
    · exact hp
  · exact hetag.bind fun e _ => within_writeSequential rs 0 e hp

theorem within_finishFlush (hp : p.handle = h) (n : Int) (e : Option ETag) :
    Within IsLocal (fun p' => p'.handle = h) (finishFlush p n e) := by
  unfold finishFlush persistEtag
  split
  · exact hp
  dsimp only
  refine Within.bind (Q := fun _ => True) ?_ fun _ _ => hp
  split
  · exact within_writeEtagFile _ _
  · trivial

theorem within_takeSnapshot (hp : p.handle = h) :
    Within (Touches h.blob) (fun p' => p'.handle = h) (takeSnapshot p) := by
  unfold takeSnapshot
  split
  · refine within_execute_bind ⟨p.blob_of_handle hp, rfl⟩ fun _ => ?_
    split
    · exact hp
    · exact hp
  · exact hp

theorem within_persistState : Within IsLocal (fun _ => True) (persistState p) := by
  unfold persistState
  split
  · exact within_writeStateFile _ _ _ _
  · trivial

theorem within_resizeForSync (hp : p.handle = h) :
    Within (Touches h.blob) (fun r => r.1.handle = h) (resizeForSync p) := by
  unfold resizeForSync
  split
  · rw [p.blob_of_handle hp]
    refine (within_azPageBlobResize _ _).bind fun _ _ => ?_
    split
    · exact hp
    · exact hp
  · exact hp

theorem within_mainDbSync (hp : p.handle = h) :
    Within (Touches h.blob) (fun r => r.1.handle = h) (mainDbSync p) := by
  unfold mainDbSync
  split
  · exact hp
  split
  · exact hp
  dsimp only
  refine (within_leaseRenewIfNeeded hp).bind fun (p₁, rc) hr => ?_
  dsimp only
  split
  · exact hr
  refine (within_resizeForSync hr).bind fun (p₂, rc, aerr) hr => ?_
  dsimp only
  split
  · exact hr
  refine (within_touches within_syncRanges).bind fun ranges _ => ?_
  split
  · exact hr
  refine (within_touches (within_loadRanges _)).bind fun loaded _ => ?_
  split
  · exact hr
  refine (within_writeRanges hr _ _).bind fun r hr => ?_
  obtain ⟨p', rc | etag⟩ := r
  · exact hr
  refine (within_touches (within_finishFlush hr _ _)).bind fun p₁ hp₁ => ?_
  refine (within_takeSnapshot hp₁).bind fun p₂ hp₂ => ?_
  exact (within_touches within_persistState).bind fun _ _ => hp₂

end Sync

/-! ## Revalidation -/

section Lock

variable {h : Handle} {p : ObjsFile}

theorem within_finishRefresh (hp : p.handle = h) (fd : Fd) (n : Nat) :
    Within IsLocal (fun r => r.1.handle = h) (finishRefresh p fd n) := by
  unfold finishRefresh
  refine (within_redetectPageSize (p := { p with nData := n, snapshot := none }) hp).bind
    fun p₁ hp₁ => ?_
  refine (within_bitmapsEnsureCapacity hp₁).bind fun (p₂, _) hp₂ => ?_
  dsimp only
  split
  · exact hp₂
  refine (within_bitmapEnsureCapacity _ _ _).bind fun _ _ => ?_
  exact (handle_validMarkAll _).trans hp₂

theorem within_refreshMainDbCache (hp : p.handle = h) (n : Nat) (e : Option ETag) :
    Within (Touches h.blob) (fun r => r.1.handle = h) (refreshMainDbCache p n e) := by
  unfold refreshMainDbCache
  split
  · exact hp
  split
  · exact hp
  extract_lets p₁
  have hp₁ : p₁.handle = h := by
    unfold p₁
    split
    · exact hp
    · exact hp
  generalize p₁ = p at hp₁
  split
  · refine within_sys_bind trivial fun _ => ?_
    split
    · exact hp₁
    · exact hp₁
  refine within_sys_bind trivial fun _ => ?_
  split
  · exact hp₁
  split
  · exact hp₁
  refine (within_downloadBlob hp₁ _ _).bind fun (arc, data) _ => ?_
  dsimp only
  split
  · exact hp₁
  refine within_sys_bind trivial fun _ => ?_
  split
  · exact hp₁
  refine within_sys_bind trivial fun _ => ?_
  split
  · exact hp₁
  refine (within_touches (within_writeAll _ _ _)).bind fun _ _ => ?_
  split
  · exact hp₁
  refine within_sys_bind trivial fun _ => ?_
  split
  · exact hp₁
  · exact within_touches (within_finishRefresh hp₁ _ _)

theorem within_revalidateBeforeRead (hp : p.handle = h) :
    Within (Touches h.blob) (fun r => r.1.handle = h) (revalidateBeforeRead p) := by
  unfold revalidateBeforeRead
  split
  · exact hp
  split
  · exact hp
  split
  · exact hp
  split
  · exact hp
  refine within_execute_bind ⟨p.blob_of_handle hp, rfl⟩ fun _ => ?_
  split
  · exact hp
  split
  · exact hp
  · exact within_refreshMainDbCache hp _ _

theorem within_revalidateAfterLease (hp : p.handle = h) (e : Option ETag) :
    Within (Touches h.blob) (fun r => r.1.handle = h) (revalidateAfterLease p e) := by
  unfold revalidateAfterLease
  split
  · exact hp
  split
  · exact hp
  split
  · exact hp
  split
  · exact hp
  split
  · exact hp
  refine within_execute_bind ⟨p.blob_of_handle hp, rfl⟩ fun _ => ?_
  split
  · exact hp
  split
  · exact hp
  split
  · exact within_refreshMainDbCache hp _ _
  · exact hp

end Lock

end SqliteObjs
