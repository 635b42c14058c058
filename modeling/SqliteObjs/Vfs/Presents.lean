import SqliteObjs.CS.Token
import SqliteObjs.Vfs.Handles

/-!
# The lease an operation presents

A request presents the lease id it carries: page writes, resizes, renewals and releases
do. An operation on an open file presents no other lease than the one the file records,
and `xLock` none but that one and the one it is just given. As in `SqliteObjs.Vfs.Frame`
nothing here depends on the answers, apart from the id an acquisition brings.
-/

set_option autoImplicit false

namespace SqliteObjs

open Data CS CS.Program

/-- The lease id a request carries. -/
def AzReq.presents : AzReq → Option LeaseId
  | .pageBlobWrite _ _ _ lease _ | .pageBlobResize _ _ lease => lease
  | .leaseRenew _ id | .leaseRelease _ id => some id
  | _ => none

/-- The request presents no lease, or the lease `l`. -/
def Presents (l : Option LeaseId) : Req → Prop
  | .azure r => r.presents = none ∨ r.presents = l
  | .sys _ => True

section Requests

variable {α : Type} {Q : α → Prop} {P : Req → Prop} {l : Option LeaseId}

theorem presents_sys (r : SysReq) : Presents l (.sys r) := trivial

theorem presents_nothing {r : AzReq} (hr : r.presents = none) : Presents l (.azure r) := Or.inl hr

theorem presents_own {r : AzReq} (hr : r.presents = l) : Presents l (.azure r) := Or.inr hr

theorem uses_local {m : Prog α} (hm : Within IsLocal Q m) : Uses (Presents l) m := by
  have hlocal : ∀ r, IsLocal r → Presents l r := by
    intro r hr
    cases r with
    | azure r => exact hr.elim
    | sys r => trivial
  exact (hm.mono hlocal fun _ hq => hq).uses

theorem uses_sys_bind {r : SysReq} {f : SysReply → Prog α} (hf : ∀ x, Uses (Presents l) (f x)) :
    Uses (Presents l) (sys r >>= f) :=
  ⟨trivial, hf⟩

theorem uses_execute {r : AzReq} (hr : Presents l (.azure r)) : Uses (Presents l) (execute r) :=
  (within_executeWithRetry hr azureMaxRetries).uses

theorem uses_execute_bind {r : AzReq} {f : AzReply → Prog α} (hr : Presents l (.azure r))
    (hf : ∀ x, Uses (Presents l) (f x)) : Uses (Presents l) (execute r >>= f) :=
  (uses_execute hr).bind hf

end Requests

/-! ## The client -/

section Client

variable {b : BlobId} {l : Option LeaseId}

theorem presents_azPageBlobRead (o n : Nat) : Uses (Presents l) (azPageBlobRead b o n) := by
  unfold azPageBlobRead
  exact .ite trivial (uses_execute (presents_nothing rfl))

theorem presents_azPageBlobWrite (o : Nat) (d : Bytes) (e : Option ETag) :
    Uses (Presents l) (azPageBlobWrite b o d l e) := by
  unfold azPageBlobWrite
  exact .ite trivial (.ite trivial (.ite trivial (uses_execute (presents_own rfl))))

theorem presents_azPageBlobResize (n : Nat) : Uses (Presents l) (azPageBlobResize b n l) := by
  unfold azPageBlobResize
  exact .ite trivial (uses_execute (presents_own rfl))

theorem presents_azPageBlobCreate (n : Nat) : Uses (Presents l) (azPageBlobCreate b n) := by
  unfold azPageBlobCreate
  exact .ite trivial (uses_execute (presents_nothing rfl))

theorem presents_azBlobExists : Uses (Presents l) (azBlobExists b) := by
  unfold azBlobExists azBlobGetProperties
  refine uses_execute_bind (presents_nothing rfl) fun x => ?_
  exact .ite trivial (.ite trivial trivial)

theorem presents_batchRenewLease (t : Nat) : Uses (Presents l) (batchRenewLease b l t) := by
  unfold batchRenewLease
  split
  · trivial
  refine uses_sys_bind fun now => .ite trivial (uses_sys_bind fun _ => ?_)
  refine uses_execute_bind (presents_own rfl) fun x => ?_
  exact .ite trivial trivial

theorem presents_batchAbandon (rs : List PageRange) (e : Option ETag) :
    ∀ order, Uses (Presents l) (batchAbandon b rs l e order) := by
  intro order
  induction order with
  | nil => trivial
  | cons i order ih =>
    unfold batchAbandon
    refine uses_sys_bind fun served => ?_
    split
    · exact ih
    · exact .ite ih ⟨presents_own rfl, fun _ => ih⟩

theorem presents_batchSend (rs : List PageRange) (e : Option ETag) :
    ∀ order t, Uses (Presents l) (batchSend b rs l e order t) := by
  intro order
  induction order with
  | nil => exact fun _ => trivial
  | cons i order ih =>
    intro t
    unfold batchSend
    split
    · exact ih t
    refine ⟨presents_own rfl, fun x => (presents_batchRenewLease t).bind fun t' => ?_⟩
    split
    · exact (presents_batchAbandon rs e order).bind fun _ => trivial
    · exact (ih _).bind fun _ => trivial

theorem presents_azPageBlobWriteBatch (rs : List PageRange) (e : Option ETag) :
    Uses (Presents l) (azPageBlobWriteBatch b rs l e) := by
  unfold azPageBlobWriteBatch
  split
  · trivial
  · exact presents_azPageBlobWrite _ _ _
  refine (within_transferSetup presents_sys).uses.bind fun _ => .ite trivial ?_
  refine Uses.bind (within_transfer presents_sys (fun order s => ?_) _ _ _).uses fun _ => ?_
  · refine (uses_sys_bind fun start => ?_).within
    exact (presents_batchSend rs e order _).bind fun _ => trivial
  · exact .ite trivial trivial

theorem presents_readSend (n : Nat) : ∀ order d, Uses (Presents l) (readSend b n order d) := by
  intro order
  induction order with
  | nil => exact fun _ => trivial
  | cons i order ih =>
    intro d
    unfold readSend
    exact ⟨presents_nothing rfl, fun x => (ih _).bind fun _ => trivial⟩

theorem presents_azPageBlobReadMulti (n : Nat) (d : Bytes) :
    Uses (Presents l) (azPageBlobReadMulti b n d) := by
  unfold azPageBlobReadMulti
  refine .ite trivial (.ite ?_ ?_)
  · exact (presents_azPageBlobRead _ _).bind fun x => .ite trivial trivial
  refine (within_transferSetup presents_sys).uses.bind fun _ => .ite trivial ?_
  exact (within_transfer presents_sys (fun order d => (presents_readSend n order d).within)
    _ _ _).uses

theorem presents_blockSend (d : Bytes) (n : Nat) :
    ∀ order, Uses (Presents l) (blockSend b d n order) := by
  intro order
  induction order with
  | nil => trivial
  | cons i order ih =>
    unfold blockSend
    exact ⟨presents_nothing rfl, fun x => ih.bind fun _ => trivial⟩

theorem presents_uploadChunks (d : Bytes) (n k : Nat) :
    Uses (Presents l) (uploadChunks b d n k) := by
  unfold uploadChunks
  refine (within_transferSetup presents_sys).uses.bind fun _ => .ite trivial ?_
  refine Uses.bind (within_transfer presents_sys (fun order _ => ?_) _ _ _).uses fun _ => ?_
  · refine Uses.within ((presents_blockSend d n order).bind fun _ => ?_)
    exact uses_ret
  refine .ite trivial (uses_sys_bind fun _ => .ite trivial ?_)
  exact uses_execute (presents_nothing rfl)

theorem presents_azBlockBlobUploadParallel (d : Bytes) (n : Nat) :
    Uses (Presents l) (azBlockBlobUploadParallel b d n) := by
  unfold azBlockBlobUploadParallel
  generalize cInt _ = nChunks
  dsimp only
  refine .ite ?_ (.ite ?_ ?_)
  · exact uses_execute (presents_nothing rfl)
  · exact uses_execute (presents_nothing rfl)
  · exact presents_uploadChunks _ _ _

end Client

/-! ## Reading, writing, truncating -/

section Io

variable {h : Handle} {p : ObjsFile} {fd : Fd}

theorem ObjsFile.leaseId_of_handle (hp : p.handle = h) : p.leaseId = h.leaseId :=
  congrArg Handle.leaseId hp

theorem presents_leaseRenewIfNeeded (hp : p.handle = h) :
    Uses (Presents h.leaseId) (leaseRenewIfNeeded p) := by
  have hl := ObjsFile.leaseId_of_handle hp
  unfold leaseRenewIfNeeded
  split
  · trivial
  next id hid =>
  have hown : Presents h.leaseId (.azure (.leaseRenew p.blob id)) :=
    presents_own (hid.symm.trans hl)
  refine uses_sys_bind fun _ => .ite trivial (uses_execute_bind hown fun _ => ?_)
  exact .ite trivial trivial

theorem presents_fetchPagesFromAzure (hp : p.handle = h) (pg : Int) :
    Uses (Presents h.leaseId) (fetchPagesFromAzure p pg) := by
  unfold fetchPagesFromAzure
  refine .ite trivial ?_
  split
  · trivial
  refine .ite trivial (.ite trivial ?_)
  dsimp only
  refine .ite trivial ?_
  refine (presents_azPageBlobRead _ _).bind fun _ => .ite trivial (.ite trivial ?_)
  exact uses_local (within_storeFetched hp _ _)

theorem presents_prefetchFrom (nPages : Nat) : ∀ (n i : Nat) {p : ObjsFile}, p.handle = h →
    Uses (Presents h.leaseId) (prefetchFrom p fd nPages n i) := by
  intro n
  induction n with
  | zero => exact fun _ _ _ => trivial
  | succ n ih =>
    intro i p hp
    unfold prefetchFrom
    refine .ite trivial (.ite (ih _ hp) (.ite (ih _ hp) ?_))
    refine (presents_azPageBlobRead _ _).bind fun _ => .ite trivial (.ite trivial ?_)
    have hstore : ∀ o d, Within IsLocal (fun r => r.1.handle = h) (storeFetched p fd o d) :=
      within_storeFetched hp
    refine (uses_local (hstore _ _)).bind_of (hstore _ _) fun r hr => ?_
    exact .ite trivial (ih _ hr)

theorem presents_fileControlPrefetch (hp : p.handle = h) :
    Uses (Presents h.leaseId) (fileControlPrefetch p) := by
  unfold fileControlPrefetch prefetchInvalidPages
  refine .ite (.ite trivial (.ite trivial ?_)) trivial
  split
  · trivial
  generalize (pageCount p.nData p.pageSize).toNat = nPages
  exact presents_prefetchFrom nPages nPages 0 hp

theorem presents_applyDiffRanges : ∀ (rs : List DiffRange) {p : ObjsFile}, p.handle = h →
    Uses (Presents h.leaseId) (applyDiffRanges fd rs p) := by
  intro rs
  induction rs with
  | nil => exact fun _ => trivial
  | cons r rs ih =>
    intro p hp
    have hstore : ∀ o d, Within IsLocal (fun r => r.1.handle = h) (storeDiff p fd o d) :=
      within_storeDiff hp
    unfold applyDiffRanges
    refine .ite (ih hp) (.ite ?_ ?_)
    · refine uses_sys_bind fun _ => .ite trivial ?_
      refine (uses_local (hstore _ _)).bind_of (hstore _ _) fun r hr => ?_
      exact .ite trivial (ih hr)
    · refine (presents_azPageBlobRead _ _).bind fun _ => .ite trivial ?_
      refine (uses_local (hstore _ _)).bind_of (hstore _ _) fun r hr => ?_
      exact .ite trivial (ih hr)

theorem presents_applyIncrementalDiff (hp : p.handle = h) (n : Nat) :
    Uses (Presents h.leaseId) (applyIncrementalDiff p fd n) := by
  unfold applyIncrementalDiff
  split
  · trivial
  refine .ite trivial (uses_execute_bind (presents_nothing rfl) fun _ => .ite trivial ?_)
  refine (uses_local (within_growForDiff n)).bind fun _ => .ite trivial ?_
  refine (presents_applyDiffRanges _ hp).bind_of (within_applyDiffRanges _ hp) fun r hr => ?_
  refine .ite trivial ((uses_local (within_shrinkForDiff n)).bind fun _ =>
    uses_sys_bind fun _ => ?_)
  have hre : Within IsLocal (fun p' => p'.handle = h)
      (redetectPageSize { r.1 with nData := n } fd) := within_redetectPageSize hr
  refine (uses_local hre).bind_of hre fun p' hp' => ?_
  exact (uses_local (within_bitmapsEnsureCapacity hp')).bind fun _ => trivial

theorem presents_downloadBlob (n : Nat) (d : Bytes) :
    Uses (Presents h.leaseId) (downloadBlob p n d) := by
  unfold downloadBlob
  refine .ite (presents_azPageBlobReadMulti n d) ?_
  exact (presents_azPageBlobRead _ _).bind fun _ => .ite trivial (.ite trivial trivial)

theorem presents_fetchMissing : ∀ (n : Nat) (pg : Int) {p : ObjsFile}, p.handle = h →
    Uses (Presents h.leaseId) (fetchMissing n pg p) := by
  intro n
  induction n with
  | zero => exact fun _ _ _ => trivial
  | succ n ih =>
    intro pg p hp
    unfold fetchMissing
    refine .ite (ih _ hp) ?_
    refine (presents_fetchPagesFromAzure hp pg).bind_of (within_fetchPagesFromAzure hp pg)
      fun r hr => ?_
    exact .ite trivial (ih _ hr)

theorem presents_fetchForRead (hp : p.handle = h) (n o : Nat) :
    Uses (Presents h.leaseId) (fetchForRead p n o) := by
  unfold fetchForRead
  dsimp only
  generalize cInt _ = a
  generalize pageCount _ _ = e
  exact .ite (presents_fetchMissing _ _ hp) trivial

theorem presents_mainDbRead (hp : p.handle = h) (n o : Nat) :
    Uses (Presents h.leaseId) (mainDbRead p n o) := by
  unfold mainDbRead
  generalize cInt _ = reads
  extract_lets p₁
  have hp₁ : p₁.handle = h := by
    unfold p₁
    split
    · exact hp
    · exact hp
  generalize p₁ = p at hp₁
  split
  · trivial
  refine .ite trivial ((presents_fetchForRead hp₁ _ _).bind fun r => .ite trivial ?_)
  dsimp only
  refine .ite trivial (uses_sys_bind fun _ => ?_)
  exact .ite trivial (.ite trivial (.ite trivial trivial))

theorem presents_mainDbWrite (hp : p.handle = h) (buf : Bytes) (o : Nat) :
    Uses (Presents h.leaseId) (mainDbWrite p buf o) := by
  unfold mainDbWrite
  split
  · trivial
  dsimp only
  have hextend : Within IsLocal (fun r => r.1.handle = h)
      (extendCache { p with nData := max p.nData (o + buf.size) } p.nData (o + buf.size)) := by
    unfold extendCache
    refine .ite ?_ (within_ret.mpr hp)
    exact within_cacheEnsureSize (p := { p with nData := max p.nData (o + buf.size) }) hp _
  refine (uses_local hextend).bind_of hextend fun r hr => .ite trivial (uses_sys_bind fun _ => ?_)
  refine .ite trivial ?_
  refine (presents_leaseRenewIfNeeded hr).bind fun r' => ?_
  exact .ite trivial (.ite trivial trivial)

theorem presents_resizeForTruncate (hp : p.handle = h) (n : Nat) :
    Uses (Presents h.leaseId) (resizeForTruncate p n) := by
  unfold resizeForTruncate
  rw [ObjsFile.leaseId_of_handle hp]
  refine .ite ?_ trivial
  exact (presents_azPageBlobResize _).bind fun _ => .ite trivial trivial

theorem presents_mainDbTruncate (hp : p.handle = h) (n : Nat) :
    Uses (Presents h.leaseId) (mainDbTruncate p n) := by
  unfold mainDbTruncate
  refine (presents_resizeForTruncate hp n).bind fun r => .ite trivial ?_
  split
  · trivial
  · exact uses_sys_bind fun _ => .ite trivial trivial

end Io

/-! ## Syncing -/

section Sync

variable {h : Handle} {p : ObjsFile}

theorem presents_writeSequential : ∀ (rs : List PageRange) (i : Nat) (e : Option ETag)
    {p : ObjsFile}, p.handle = h → Uses (Presents h.leaseId) (writeSequential rs i e p) := by
  intro rs
  induction rs with
  | nil => exact fun _ _ _ _ => trivial
  | cons r rs ih =>
    intro i e p hp
    have hrenew : Uses (Presents h.leaseId) (renewEvery50 p i) := by
      unfold renewEvery50
      exact .ite (presents_leaseRenewIfNeeded hp) trivial
    have hkeeps : Within (Touches h.blob) (fun r => r.1.handle = h) (renewEvery50 p i) := by
      unfold renewEvery50
      exact .ite (within_leaseRenewIfNeeded hp) (within_ret.mpr hp)
    unfold writeSequential
    refine hrenew.bind_of hkeeps fun r' hr => .ite trivial ?_
    rw [ObjsFile.leaseId_of_handle hr]
    refine (presents_azPageBlobWrite _ _ _).bind fun _ => ?_
    exact .ite trivial (.ite trivial (ih _ _ hr))

theorem presents_writeRanges (hp : p.handle = h) (rs : List PageRange)
    (aerr : Option (Option ETag)) : Uses (Presents h.leaseId) (writeRanges p rs aerr) := by
  have hetag : Within IsLocal (fun _ => True) (etagBefore aerr) := by
    unfold etagBefore
    split
    · trivial
    · exact within_sys_bind trivial fun _ => trivial
  unfold writeRanges
  rw [ObjsFile.leaseId_of_handle hp]
  refine .ite ?_ ?_
  · exact (presents_azPageBlobWriteBatch _ _).bind fun _ => .ite trivial (.ite trivial trivial)
  · exact (uses_local hetag).bind fun e => presents_writeSequential rs 0 e hp

theorem presents_takeSnapshot : Uses (Presents h.leaseId) (takeSnapshot p) := by
  unfold takeSnapshot
  refine .ite ?_ trivial
  refine uses_execute_bind (presents_nothing rfl) fun _ => ?_
  split
  · trivial
  · trivial

theorem presents_resizeForSync (hp : p.handle = h) :
    Uses (Presents h.leaseId) (resizeForSync p) := by
  unfold resizeForSync
  rw [ObjsFile.leaseId_of_handle hp]
  refine .ite ?_ trivial
  exact (presents_azPageBlobResize _).bind fun _ => .ite trivial trivial

theorem presents_mainDbSync (hp : p.handle = h) : Uses (Presents h.leaseId) (mainDbSync p) := by
  unfold mainDbSync
  refine .ite trivial (.ite trivial ?_)
  refine (presents_leaseRenewIfNeeded hp).bind_of (within_leaseRenewIfNeeded hp) fun r hr => ?_
  refine .ite trivial ?_
  refine (presents_resizeForSync hr).bind_of (within_resizeForSync hr) fun r hr => .ite trivial ?_
  refine (uses_local within_syncRanges).bind fun ranges => ?_
  split
  · trivial
  refine (uses_local (within_loadRanges _)).bind fun loaded => ?_
  split
  · trivial
  refine (presents_writeRanges hr _ _).bind_of (within_writeRanges hr _ _) fun r hr => ?_
  obtain ⟨p', rc | etag⟩ := r
  · trivial
  refine (uses_local (within_finishFlush hr _ _)).bind fun p₁ => ?_
  refine presents_takeSnapshot.bind fun p₂ => ?_
  exact (uses_local within_persistState).bind fun _ => trivial

end Sync

/-! ## Opening -/

section Open

variable {h : Handle} {p : ObjsFile} {v : VfsData} {fd : Fd}

theorem presents_lazyDownload (n : Nat) : Uses (Presents h.leaseId) (lazyDownload p fd n) := by
  have hfail : ∀ q rc, Uses (Presents h.leaseId) (failDownload q rc) := fun q rc =>
    uses_local (within_failDownload (h := h) (p := q) rc)
  unfold lazyDownload
  refine uses_sys_bind fun _ => .ite (hfail _ _) ?_
  refine (presents_azPageBlobRead _ _).bind fun _ => .ite (hfail _ _) ?_
  refine uses_sys_bind fun _ => .ite (hfail _ _) ?_
  refine (uses_local (within_redetectPageSize (p := { p with nData := n }) rfl)).bind fun p₁ => ?_
  refine (uses_local (within_bitmapsEnsureCapacity (p := p₁) rfl)).bind fun r => ?_
  exact uses_ret

theorem presents_eagerDownload (n : Nat) : Uses (Presents h.leaseId) (eagerDownload p fd n) := by
  have hfail : ∀ q rc, Uses (Presents h.leaseId) (failDownload q rc) := fun q rc =>
    uses_local (within_failDownload (h := h) (p := q) rc)
  unfold eagerDownload
  refine uses_sys_bind fun _ => .ite (hfail _ _) ?_
  refine (presents_downloadBlob _ _).bind fun r => .ite (hfail _ _) ?_
  refine (uses_local (within_writeAll _ _ _)).bind fun _ => .ite (hfail _ _) ?_
  refine uses_sys_bind fun _ => .ite (hfail _ _) ?_
  refine (uses_local (within_redetectPageSize (p := { p with nData := n }) rfl)).bind fun p₁ => ?_
  refine (uses_local (within_bitmapsEnsureCapacity (p := p₁) rfl)).bind fun r => ?_
  exact uses_ret

theorem presents_cacheDownload (n : Nat) : Uses (Presents h.leaseId) (cacheDownload p fd n) := by
  unfold cacheDownload
  exact .ite trivial (.ite (presents_lazyDownload n) (presents_eagerDownload n))

theorem presents_openStaleCache (hp : p.handle = h) (path : Path) (s : Snapshot) (n : Nat) :
    Uses (Presents h.leaseId) (openStaleCache p path fd s n) := by
  unfold openStaleCache
  refine uses_sys_bind fun size => ?_
  have hmaps := within_bitmapsEnsureCapacity (p := { p with
    cacheFd := some fd, zCachePath := some path, cacheReuse := true
    nData := size.n, snapshot := some s }) hp
  refine (uses_local hmaps).bind_of hmaps fun r hr => ?_
  refine (presents_applyIncrementalDiff (p := { r.1 with lastSyncedSize := r.1.nData }) hr n).bind
    fun r' => .ite trivial ?_
  exact uses_sys_bind fun _ => uses_sys_bind fun _ => presents_cacheDownload n

theorem presents_openTemp (uri : UriParams) (n : Nat) :
    Uses (Presents h.leaseId) (openTemp p uri n) := by
  unfold openTemp
  refine (uses_local (within_openTempCache (p := p) rfl uri)).bind fun r => ?_
  split
  · trivial
  · exact presents_cacheDownload n

theorem presents_openMismatch (hp : p.handle = h) (path : Path) (n : Nat) :
    Uses (Presents h.leaseId) (openMismatch p path n) := by
  unfold openMismatch
  extract_lets fresh
  have hfresh : Uses (Presents h.leaseId) fresh := by
    refine (uses_local (within_openFreshCache hp path)).bind fun r => ?_
    split
    · trivial
    · exact presents_cacheDownload n
  refine (uses_local (within_readSnapshotFile path)).bind fun s => ?_
  split
  · exact hfresh
  · exact uses_sys_bind fun _ => .ite hfresh (presents_openStaleCache hp path _ n)

theorem presents_openReuse (hp : p.handle = h) (path : Path) (n : Nat) :
    Uses (Presents h.leaseId) (openReuse p path n) := by
  have hmismatch := presents_openMismatch hp path n
  unfold openReuse
  refine (uses_local (within_readEtagFile path)).bind fun e => .ite ?_ hmismatch
  refine uses_sys_bind fun _ => .ite hmismatch (uses_sys_bind fun _ => .ite ?_ hmismatch)
  exact (uses_local (within_adoptCache hp path n)).bind fun _ => trivial

theorem presents_openExisting (hp : p.handle = h) (uri : UriParams) :
    Uses (Presents h.leaseId) (openExisting p uri) := by
  unfold openExisting
  refine uses_execute_bind (presents_nothing rfl) fun head => .ite trivial ?_
  refine .ite ((uses_local (within_buildCachePath _ _)).bind fun path => ?_)
    (presents_openTemp uri _)
  split
  · exact presents_openTemp uri _
  · exact presents_openReuse (p := { p with etag := head.etag }) hp _ _

theorem presents_openCreated (uri : UriParams) :
    Uses (Presents h.leaseId) (openCreated p uri) := by
  have hcreate : Uses (Presents h.leaseId) (createBlob p) := by
    unfold createBlob
    exact .ite ((presents_azPageBlobCreate 0).bind fun _ => trivial) trivial
  have hcache : Uses (Presents h.leaseId) (newCache p uri) := by
    unfold newCache
    refine .ite ((uses_local (within_buildCachePath _ _)).bind fun path => ?_)
      (uses_local (within_openTempCache rfl uri))
    split
    · exact uses_local (within_openTempCache rfl uri)
    · exact uses_local (within_openFreshCache rfl _)
  unfold openCreated
  refine hcreate.bind fun arc => .ite trivial (hcache.bind fun r => ?_)
  split
  · trivial
  · trivial

theorem presents_checkExists : Uses (Presents h.leaseId) (checkExists p) := by
  unfold checkExists
  exact .ite presents_azBlobExists trivial

theorem presents_openMainDb (hp : p.handle = h) (uri : UriParams) (create : Bool) :
    Uses (Presents h.leaseId) (openMainDb p uri create) := by
  unfold openMainDb
  refine presents_checkExists.bind fun r => .ite trivial (.ite (presents_openExisting hp uri) ?_)
  exact .ite trivial (.ite (presents_openCreated uri) trivial)

theorem presents_journalExists : Uses (Presents h.leaseId) (journalExists v p) := by
  unfold journalExists
  dsimp only
  exact .ite trivial (.ite (presents_azBlobExists.bind fun _ => trivial) trivial)

theorem presents_openJournal : Uses (Presents h.leaseId) (openJournal v p) := by
  unfold openJournal
  refine presents_journalExists.bind fun r => .ite ?_ trivial
  refine uses_execute_bind (presents_nothing rfl) fun _ => .ite ?_ trivial
  exact (uses_local (within_bufferEnsure _ _)).bind fun _ => .ite trivial trivial

theorem presents_openWal : Uses (Presents h.leaseId) (openWal p) := by
  unfold openWal
  refine .ite trivial (presents_checkExists.bind fun r => .ite trivial (.ite trivial ?_))
  refine uses_execute_bind (presents_nothing rfl) fun _ => .ite trivial (.ite trivial ?_)
  exact (uses_local (within_bufferEnsure _ _)).bind fun _ => .ite trivial trivial

end Open

/-! ## Entry points -/

section Entry

variable {h : Handle} {p : ObjsFile} {v : VfsData}

theorem presents_sqliteObjsRead (hp : p.handle = h) (n o : Nat) :
    Uses (Presents h.leaseId) (sqliteObjsRead p n o) := by
  unfold sqliteObjsRead
  split
  · trivial
  · trivial
  · exact presents_mainDbRead hp n o

theorem presents_sqliteObjsWrite (hp : p.handle = h) (buf : Bytes) (o : Nat) :
    Uses (Presents h.leaseId) (sqliteObjsWrite p buf o) := by
  unfold sqliteObjsWrite
  split
  · exact (uses_local (within_bufferWrite _ _ _ _)).bind fun _ => trivial
  · exact (uses_local (within_bufferWrite _ _ _ _)).bind fun _ => trivial
  · exact presents_mainDbWrite hp buf o

theorem presents_sqliteObjsTruncate (hp : p.handle = h) (n : Nat) :
    Uses (Presents h.leaseId) (sqliteObjsTruncate p n) := by
  have hdelete : Uses (Presents h.leaseId) (deleteWal p) := by
    unfold deleteWal
    exact .ite (uses_execute_bind (presents_nothing rfl) fun _ => trivial) trivial
  unfold sqliteObjsTruncate
  split
  · exact .ite (hdelete.bind fun _ => trivial) (.ite trivial trivial)
  · exact .ite trivial trivial
  · exact presents_mainDbTruncate hp n

theorem presents_sqliteObjsSync (hp : p.handle = h) :
    Uses (Presents h.leaseId) (sqliteObjsSync v p) := by
  have hwal : Uses (Presents h.leaseId) (uploadWal v p) := by
    unfold uploadWal
    exact .ite (presents_azBlockBlobUploadParallel _ _) (uses_execute (presents_nothing rfl))
  have hjournal : Uses (Presents h.leaseId) (journalSync v p) := by
    unfold journalSync
    refine .ite ?_ trivial
    exact uses_execute_bind (presents_nothing rfl) fun _ => .ite trivial trivial
  unfold sqliteObjsSync walSync
  split
  · refine Uses.bind ?_ fun _ => trivial
    exact .ite trivial (.ite trivial (hwal.bind fun _ => .ite trivial trivial))
  · exact hjournal.bind fun _ => trivial
  · exact (presents_mainDbSync hp).bind fun _ => trivial

/-- A file that is being opened has no lease to present. -/
theorem presents_sqliteObjsOpen (name : String) (uri : UriParams) (ft : FileType) (create : Bool) :
    Uses (Presents none) (sqliteObjsOpen v name uri ft create) := by
  unfold sqliteObjsOpen
  refine .ite trivial (uses_sys_bind fun _ => .ite trivial ?_)
  refine (uses_local (within_selectOps uri)).bind fun sel => ?_
  split
  · trivial
  next ops ctx =>
  have hp : (newFile ops ctx name uri ft).handle = openedHandle ops ctx name ft := rfl
  cases ft with
  | mainDb => exact (presents_openMainDb hp uri create).bind fun _ => trivial
  | mainJournal => exact presents_openJournal (h := openedHandle ops ctx name .mainJournal)
  | wal =>
    exact (presents_openWal (h := openedHandle ops ctx name .wal)).bind fun _ => trivial

theorem presents_sqliteObjsDelete (mainFile : Option (AzureOps × Nat)) (name : String) :
    Uses (Presents none) (sqliteObjsDelete v mainFile name) := by
  unfold sqliteObjsDelete
  refine .ite trivial ?_
  split
  · trivial
  refine .ite trivial (uses_execute_bind (presents_nothing rfl) fun x => ?_)
  exact .ite trivial (.ite trivial trivial)

theorem presents_sqliteObjsAccess (mainFile : Option (AzureOps × Nat)) (name : String)
    (flags : AccessFlag) : Uses (Presents none) (sqliteObjsAccess v mainFile name flags) := by
  unfold sqliteObjsAccess
  refine .ite trivial ?_
  split
  · trivial
  refine .ite trivial ?_
  split
  · trivial
  · exact presents_azBlobExists.bind fun r => .ite trivial trivial

theorem presents_sqliteObjsCheckReservedLock :
    Uses (Presents h.leaseId) (sqliteObjsCheckReservedLock p) := by
  unfold sqliteObjsCheckReservedLock
  refine .ite trivial (.ite trivial ?_)
  exact uses_execute_bind (presents_nothing rfl) fun _ => trivial

/-- `xClose` gives back the lease of the file and no other. -/
theorem presents_sqliteObjsClose (hp : p.handle = h) :
    Uses (Presents h.leaseId) (sqliteObjsClose v p) := by
  have hflush : Uses (Presents h.leaseId) (closeFlush v p) := by
    unfold closeFlush
    exact .ite (presents_sqliteObjsSync hp) (.ite (presents_sqliteObjsSync hp) trivial)
  have hetag : ∀ (q : ObjsFile) rc, Uses (Presents h.leaseId) (closeRefreshEtag q rc) := by
    intro q rc
    unfold closeRefreshEtag
    exact .ite (uses_execute_bind (presents_nothing rfl) fun _ => trivial) trivial
  have hrelease : ∀ q : ObjsFile, q.handle = h →
      Uses (Presents h.leaseId) (closeReleaseLease q) := by
    intro q hq
    unfold closeReleaseLease
    split
    · next id _ hid =>
      refine uses_execute_bind (presents_own ?_) fun _ => trivial
      exact hid.symm.trans (ObjsFile.leaseId_of_handle hq)
    · trivial
  unfold sqliteObjsClose
  refine hflush.bind_of (within_closeFlush p) fun r hr => ?_
  refine (hetag r.2.1 r.2.2).bind_of (within_closeRefreshEtag (hr.2.trans hp) r.2.2) fun q hq => ?_
  refine (hrelease q hq).bind fun q => ?_
  refine (uses_local (within_closeCacheFd q)).bind fun q => ?_
  exact (uses_local (within_closeCache q)).bind fun _ => trivial

end Entry

/-! ## Locking -/

section Lock

variable {h : Handle} {p : ObjsFile}

theorem presents_refreshMainDbCache (n : Nat) (e : Option ETag) :
    Uses (Presents h.leaseId) (refreshMainDbCache p n e) := by
  unfold refreshMainDbCache
  refine .ite trivial ?_
  split
  · trivial
  extract_lets p₁
  refine .ite (uses_sys_bind fun _ => .ite trivial trivial) ?_
  refine uses_sys_bind fun _ => .ite trivial (.ite trivial ?_)
  refine (presents_downloadBlob _ _).bind fun r => .ite trivial ?_
  refine uses_sys_bind fun _ => .ite trivial (uses_sys_bind fun _ => .ite trivial ?_)
  refine (uses_local (within_writeAll _ _ _)).bind fun _ => .ite trivial ?_
  exact uses_sys_bind fun _ => .ite trivial (uses_local (within_finishRefresh rfl _ _))

theorem presents_revalidateBeforeRead : Uses (Presents h.leaseId) (revalidateBeforeRead p) := by
  unfold revalidateBeforeRead
  refine .ite trivial (.ite trivial (.ite trivial (.ite trivial ?_)))
  refine uses_execute_bind (presents_nothing rfl) fun _ => .ite trivial (.ite trivial ?_)
  exact presents_refreshMainDbCache _ _

theorem presents_revalidateAfterLease (e : Option ETag) :
    Uses (Presents h.leaseId) (revalidateAfterLease p e) := by
  unfold revalidateAfterLease
  refine .ite trivial (.ite trivial (.ite trivial (.ite trivial (.ite trivial ?_))))
  refine uses_execute_bind (presents_nothing rfl) fun _ => .ite trivial (.ite trivial ?_)
  exact .ite (presents_refreshMainDbCache _ _) trivial

theorem presents_releaseLease (hp : p.handle = h) :
    Uses (Presents h.leaseId) (releaseLease p) := by
  unfold releaseLease
  split
  · next id _ hid =>
    refine uses_execute_bind (presents_own ?_) fun _ => trivial
    exact hid.symm.trans (ObjsFile.leaseId_of_handle hp)
  · trivial

theorem presents_sqliteObjsUnlock (hp : p.handle = h) (l : LockLevel) :
    Uses (Presents h.leaseId) (sqliteObjsUnlock p l) := by
  unfold sqliteObjsUnlock
  exact .ite trivial (.ite ((presents_releaseLease hp).bind fun _ => trivial) trivial)

end Lock
end SqliteObjs
