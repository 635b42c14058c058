import SqliteObjs.Azure.Effects
import SqliteObjs.Vfs.Presents
import SqliteObjs.Journal.WalFence

/-!
# One writer

Any number of clients share the service, their calls interleave at every request, every
request may fail with or without having taken effect, and leases run out at any time. A
lease id still belongs to one open file of one client: the service hands it out once, an
acquisition that is not reported as a success is not recorded, and no operation presents
an id but the one its file recorded. `lease_has_one_holder` says so of every run.

So the blob of a live lease is its holder's: `leased_blob_changed_by_holder` is about one
step, `leased_blob_undisturbed` about the runs in which the holder rests.
-/

set_option autoImplicit false

namespace SqliteObjs

open Data CS CS.Program CS.Interleaving

/-! ## The service -/

/-- The lease id of a request that changes the content of an existing blob in place. -/
def AzReq.writesUnder : AzReq → Option LeaseId
  | .pageBlobWrite _ _ _ lease _ | .pageBlobResize _ _ lease => lease
  | _ => none

namespace Azure

variable {a : Azure} {r : AzReq} {i : BlobId} {b : Blob} {id : LeaseId}

/-- A blob is still there with the content, the version and the lease it had. -/
def SameLeased (b : Blob) (now : Option Blob) : Prop :=
  ∃ b', now = some b' ∧ b'.content = b.content ∧ b'.etag = b.etag ∧ b'.lease = b.lease

/-- Storing a whole blob is refused under a lease. -/
theorem putBlob_leased (hb : a.blobs i = some b) (hl : b.lease = .active id) (d : Bytes)
    (m : Nat → Option Bytes) : a.putBlob i d m = ({ err := .precondition }, a) := by
  unfold putBlob
  rw [hb]
  simp [Blob.admits, hl]

theorem not_admits_of_leased (hl : b.lease = .active id) {l : Option LeaseId} (h : l ≠ some id) :
    b.admits l = false := by
  cases l with
  | none => simp [Blob.admits, hl]
  | some l =>
    have hne : id ≠ l := fun he => h (by rw [he])
    simp [Blob.admits, hl, hne]

/-- A request about a leased blob that does not present the lease changes nothing but
uncommitted blocks and snapshots. -/
theorem respond_refused_leased (hb : a.blobs r.blob = some b) (hl : b.lease = .active id)
    (hr : r.presents ≠ some id) :
    (a.respond r).2.blobs = a.blobs ∨ ∃ b', (a.respond r).2.blobs r.blob = some b' ∧
      b'.content = b.content ∧ b'.etag = b.etag ∧ b'.lease = b.lease := by
  have hput := fun d m => congrArg Prod.snd (putBlob_leased hb hl d m)
  cases r with
  | blobGetProperties j | blobGetPageRangesDiff j _ | blockBlobDownload j =>
    refine Or.inl ?_
    simp only [respond]
    split
    · rfl
    · rfl
  | pageBlobRead j o n =>
    refine Or.inl ?_
    simp only [respond]
    repeat' split
    all_goals rfl
  | putBlock j k d => exact Or.inl rfl
  | pageBlobCreate j n =>
    refine Or.inl ?_
    simp only [respond]
    split
    · rfl
    · exact congrArg Azure.blobs (hput _ _)
  | blockBlobUpload j d => exact Or.inl (congrArg Azure.blobs (hput d _))
  | putBlockList j ids =>
    refine Or.inl ?_
    simp only [respond]
    split
    · rfl
    · split
      · rfl
      · exact congrArg Azure.blobs (hput _ _)
  | pageBlobWrite j o d l e =>
    refine Or.inl ?_
    have hb : a.blobs j = some b := hb
    have hno : b.admits l = false := not_admits_of_leased hl hr
    simp only [respond, hb, hno]
    split
    · rfl
    · rfl
  | pageBlobResize j n l =>
    refine Or.inl ?_
    have hb : a.blobs j = some b := hb
    have hno : b.admits l = false := not_admits_of_leased hl hr
    simp only [respond, hb, hno]
    split
    · rfl
    · rfl
  | blobDelete j =>
    refine Or.inl ?_
    have hb : a.blobs j = some b := hb
    have hno : b.admits none = false := not_admits_of_leased hl (by simp)
    simp [respond, hb, hno]
  | leaseAcquire j n =>
    refine Or.inl ?_
    have hb : a.blobs j = some b := hb
    simp [respond, hb, hl]
  | leaseRenew j k | leaseRelease j k =>
    refine Or.inl ?_
    have hb : a.blobs j = some b := hb
    have hne : id ≠ k := fun he => hr (congrArg some he.symm)
    simp [respond, hb, Blob.holds, hl, hne]
  | blobSnapshotCreate j =>
    have hb : a.blobs j = some b := hb
    simp only [respond, hb]
    exact Or.inr ⟨_, set_blobs_self _ _ _, rfl, rfl, rfl⟩

/-- A request that does not present the active lease leaves content, version and lease. -/
theorem respond_leased (hb : a.blobs i = some b) (hl : b.lease = .active id)
    (hr : r.presents ≠ some id) : SameLeased b ((a.respond r).2.blobs i) := by
  by_cases hi : i = r.blob
  · subst hi
    rcases respond_refused_leased hb hl hr with hkeep | hsame
    · exact ⟨b, (congrFun hkeep _).trans hb, rfl, rfl, rfl⟩
    · exact hsame
  · exact ⟨b, (respond_blobs_ne a r hi).trans hb, rfl, rfl, rfl⟩

/-- A request that changes content in place under another lease leaves the content of a
leased blob. -/
theorem respond_leased_content (hb : a.blobs i = some b) (hl : b.lease = .active id)
    (hr : r.writesUnder ≠ some id) :
    ∃ b', (a.respond r).2.blobs i = some b' ∧ b'.content = b.content ∧ b'.etag = b.etag := by
  by_cases hshow : r.presents = some id
  · by_cases hi : i = r.blob
    swap
    · exact ⟨b, (respond_blobs_ne a r hi).trans hb, rfl, rfl⟩
    have hhold : b.holds id = true := by simp [Blob.holds, hl]
    cases r with
    | leaseRenew j k | leaseRelease j k =>
      obtain rfl : k = id := Option.some.inj hshow
      obtain rfl : i = j := hi
      simp only [respond, hb, hhold]
      exact ⟨_, set_blobs_self _ _ _, rfl, rfl⟩
    | pageBlobWrite | pageBlobResize => exact absurd hshow hr
    | _ => cases hshow
  · obtain ⟨b', hb', hc, he, -⟩ := respond_leased hb hl hshow
    exact ⟨b', hb', hc, he⟩

theorem putBlob_nextLease (a : Azure) (i : BlobId) (d : Bytes) (m : Nat → Option Bytes) :
    (a.putBlob i d m).2.nextLease = a.nextLease := by
  unfold putBlob
  split
  · rfl
  · split
    · rfl
    · rfl

/-- A lease id is handed out once: the next one was not, and is from then on. -/
theorem respond_nextLease (a : Azure) (r : AzReq) :
    a.nextLease ≤ (a.respond r).2.nextLease ∧
    ∀ j n, r = .leaseAcquire j n → (a.respond r).1.err = .ok →
      (a.respond r).1.leaseId = a.nextLease ∧
      (a.respond r).2.nextLease = a.nextLease + 1 := by
  cases r with
  | leaseAcquire j n =>
    simp only [respond]
    split
    · exact ⟨Nat.le_refl _, fun _ _ _ h => by cases h⟩
    · split
      · exact ⟨Nat.le_refl _, fun _ _ _ h => by cases h⟩
      · exact ⟨Nat.le_succ _, fun _ _ _ _ => ⟨rfl, rfl⟩⟩
  | blobGetProperties | pageBlobCreate | pageBlobWrite | pageBlobRead | pageBlobResize
  | blockBlobUpload | putBlock | putBlockList | blockBlobDownload | blobDelete | leaseRenew
  | leaseRelease | blobSnapshotCreate | blobGetPageRangesDiff =>
    refine ⟨?_, by intro j n h; cases h⟩
    simp only [respond]
    repeat' split
    all_goals first
      | exact Nat.le_refl _
      | exact (putBlob_nextLease _ _ _ _).ge

end Azure

/-! ## A program that is not given a lease -/

/-- The answer hands out the lease `id`. -/
def Gets (id : LeaseId) : (r : Req) → Ans r → Prop
  | .azure (.leaseAcquire _ _), x => AzReply.err x = .ok ∧ AzReply.leaseId x = id
  | _, _ => False

/-- The request presents the lease `id`. -/
def Shows (id : LeaseId) : Req → Prop
  | .azure r => r.presents = some id
  | .sys _ => False

/-- Unless it is given the lease `id`, the program does not present it and returns as `Q`
says. -/
abbrev Without {α : Type} (id : LeaseId) (Q : α → Prop) (m : Prog α) : Prop :=
  m.Obeys (fun r x => ¬ Gets id r x) (fun r => ¬ Shows id r) Q

section Without

variable {α : Type} {id : LeaseId} {l : Option LeaseId} {p : ObjsFile} {Q : α → Prop} {m : Prog α}

theorem none_ne_lease : none ≠ some id := (Option.some_ne_none id).symm

theorem not_shows {r : Req} (hl : l ≠ some id) (hr : Presents l r) : ¬ Shows id r := by
  cases r with
  | sys r => exact fun h => h
  | azure r =>
    intro h
    have h : r.presents = some id := h
    rcases hr with hr | hr
    · rw [hr] at h
      cases h
    · exact hl (hr.symm.trans h)

theorem without_of_presents {P : Req → Prop} (hl : l ≠ some id) (hm : Uses (Presents l) m)
    (hQ : Within P Q m) : Without id Q m :=
  ((hm.and_within hQ).mono (fun _ => not_shows hl) fun _ hq => hq).obeys

/-- An operation that keeps the file's handle, on a file without the lease. -/
theorem without_kept {f : α → ObjsFile} (hp : p.leaseId ≠ some id)
    (hm : Uses (Presents p.handle.leaseId) m)
    (hQ : Within (Touches p.handle.blob) (fun r => (f r).handle = p.handle) m) :
    Without id (fun r => (f r).leaseId ≠ some id) m := by
  refine without_of_presents hp hm (hQ.mono (fun _ hr => hr) fun r hr => ?_)
  rwa [show (f r).leaseId = p.leaseId from ObjsFile.leaseId_of_handle hr]

theorem without_executeWithRetry {r : AzReq} (hr : r.presents ≠ some id) :
    ∀ n, Without id (fun x => ¬ Gets id (.azure r) x) (executeWithRetry r n) := by
  intro n
  induction n with
  | zero => exact ⟨hr, fun x hx => hx⟩
  | succ n ih =>
    unfold executeWithRetry
    refine ⟨hr, fun x hx => ?_⟩
    show Without id _ (if x.err = .ok then pure x
      else if !azureIsRetryable x.err then pure x else executeWithRetry r n)
    split
    · exact hx
    · split
      · exact hx
      · exact ih

theorem without_releaseLease (hp : p.leaseId ≠ some id) :
    Without id (fun p' => p'.leaseId ≠ some id) (releaseLease p) := by
  have hnone : Within (fun _ => True) (fun p' : ObjsFile => p'.leaseId ≠ some id)
      (releaseLease p) := by
    have h : ∀ p' : ObjsFile, p'.leaseId = none → p'.leaseId ≠ some id := by
      intro p' h
      rw [h]
      exact none_ne_lease
    unfold releaseLease
    split
    · exact within_execute_bind trivial fun _ => h _ rfl
    · exact h _ rfl
  exact without_of_presents hp (presents_releaseLease rfl) hnone

theorem without_acquireLease (hp : p.leaseId ≠ some id) :
    Without id (fun r => r.1.leaseId ≠ some id) (acquireLease p) := by
  unfold acquireLease
  generalize (if dirtyPageThreshold < p.lastSyncDirtyCount then leaseDurationLong
    else leaseDurationDefault) = duration
  dsimp only
  have hacquire : Without id (fun x => ¬ (x.err = .ok ∧ x.leaseId = id))
      (azLeaseAcquire p.blob duration) := by
    unfold azLeaseAcquire
    split
    · exact fun h => by cases h.1
    · exact without_executeWithRetry (r := .leaseAcquire p.blob duration) none_ne_lease _
  refine hacquire.bind fun x hx => ?_
  split
  · exact hp
  split
  · exact hp
  next hok =>
  have hid : some x.leaseId ≠ some id := fun h =>
    hx ⟨by simpa using hok, Option.some.inj h⟩
  refine ⟨fun h => h, fun now _ => ?_⟩
  have hre := without_kept (p := { p with
      leaseId := some x.leaseId
      leaseAcquiredAt := now.n
      leaseDuration := duration }) (f := fun r => r.1) hid (presents_revalidateAfterLease x.etag)
    (within_revalidateAfterLease rfl x.etag)
  refine hre.bind fun r hr => ?_
  split
  · exact (without_releaseLease hr).bind fun p' hp' => hp'
  · exact hr

theorem without_sqliteObjsLock (hp : p.leaseId ≠ some id) (l : LockLevel) :
    Without id (fun r => r.1.leaseId ≠ some id) (sqliteObjsLock p l) := by
  unfold sqliteObjsLock
  split
  · exact hp
  split
  · have hre := without_kept (p := { p with readsSinceSharedLock := 0 }) (f := fun r => r.1) hp
      presents_revalidateBeforeRead (within_revalidateBeforeRead rfl)
    refine hre.bind fun r hr => ?_
    dsimp only
    split
    · exact hr
    · exact hr
  split
  · exact hp
  split
  · exact hp
  refine (without_acquireLease hp).bind fun r hr => ?_
  dsimp only
  split
  · exact hr
  · exact hr

theorem without_sqliteObjsUnlock (hp : p.leaseId ≠ some id) (l : LockLevel) :
    Without id (fun r => r.1.leaseId ≠ some id) (sqliteObjsUnlock p l) := by
  unfold sqliteObjsUnlock
  split
  · exact hp
  split
  · exact (without_releaseLease hp).bind fun p' hp' => hp'
  · exact hp

end Without

/-! ## The calls of a process -/

/-- The file `k` of a process records the lease `id`. -/
def Process.Records (s : Process) (k : Nat) (id : LeaseId) : Prop :=
  ∃ p, s.files k = some p ∧ p.leaseId = some id

section Calls

variable {id : LeaseId} {s : Process} {k : Nat}

theorem not_records_setFile {q : ObjsFile} (hq : q.leaseId ≠ some id) :
    ¬ (s.setFile k (some q)).Records k id := by
  rintro ⟨p, hp, hid⟩
  rw [setFile_files_self] at hp
  obtain rfl := Option.some.inj hp
  exact hq hid

theorem not_records_setFile_none : ¬ (s.setFile k none).Records k id := by
  rintro ⟨p, hp, -⟩
  rw [setFile_files_self] at hp
  cases hp

theorem without_onFile {f : ObjsFile → Prog (ObjsFile × VfsResult)} (h : ¬ s.Records k id)
    (hf : ∀ p, p.leaseId ≠ some id → Without id (fun r => r.1.leaseId ≠ some id) (f p)) :
    Without id (fun r => ¬ r.1.Records k id) (VfsCall.onFile s k f) := by
  unfold VfsCall.onFile
  cases hp : s.files k with
  | none => exact h
  | some p =>
    have hid : p.leaseId ≠ some id := fun he => h ⟨p, hp, he⟩
    exact (hf p hid).bind fun r hr => not_records_setFile hr

theorem without_open (name : String) (uri : UriParams) (ft : FileType) (create : Bool)
    (h : ¬ s.Records k id) :
    Without id (fun r => ¬ r.1.Records k id) ((VfsCall.open k name uri ft create).code s) := by
  have hopen : Without id (fun r => ∀ p, r.2 = .ok p → p.leaseId ≠ some id)
      (sqliteObjsOpen s.v name uri ft create) := by
    have hw := within_sqliteObjsOpen (v := s.v) name uri ft create
    refine without_of_presents none_ne_lease (presents_sqliteObjsOpen ..)
      (hw.mono (fun _ hr => hr) fun r hr p hok => ?_)
    obtain ⟨ops, ctx, -, hp⟩ := hr.2 p hok
    rw [show p.leaseId = none from congrArg Handle.leaseId hp]
    exact none_ne_lease
  unfold VfsCall.code
  refine hopen.bind fun r hr => ?_
  obtain ⟨v, r⟩ := r
  cases r with
  | error rc => exact h
  | ok p => exact not_records_setFile (hr p rfl)

/-- A call on a file without the lease: unless it is given the lease, it does not present
it and the file does not record it. -/
theorem without_code {c : VfsCall} (hc : c.file = some k) (h : ¬ s.Records k id) :
    Without id (fun r => ¬ r.1.Records k id) (c.code s) := by
  have hkept : ∀ {α : Type} {m : Prog α} {f : α → ObjsFile} {g : α → ObjsFile × VfsResult}
      {p : ObjsFile}, (∀ a, (g a).1 = f a) → p.leaseId ≠ some id →
      Uses (Presents p.handle.leaseId) m →
      Within (Touches p.handle.blob) (fun r => (f r).handle = p.handle) m →
      Without id (fun r => r.1.leaseId ≠ some id) (m >>= fun a => .ret (g a)) := by
    intro α m f g p hg hp hm hQ
    refine (without_kept hp hm hQ).bind fun a ha => ?_
    rw [obeys_ret, hg a]
    exact ha
  cases c with
  | delete mainFile name => cases hc
  | access mainFile name flags => cases hc
  | «open» h' name uri ft create =>
    obtain rfl : h' = k := Option.some.inj hc
    exact without_open name uri ft create h
  | close h' =>
    obtain rfl : h' = k := Option.some.inj hc
    simp only [VfsCall.code]
    cases hp : s.files h' with
    | none => exact h
    | some p =>
      have hid : p.leaseId ≠ some id := fun he => h ⟨p, hp, he⟩
      refine (without_of_presents hid (presents_sqliteObjsClose rfl)
        (within_sqliteObjsClose p)).bind fun r _ => ?_
      exact not_records_setFile_none
  | sync h' =>
    obtain rfl : h' = k := Option.some.inj hc
    simp only [VfsCall.code]
    cases hp : s.files h' with
    | none => exact h
    | some p =>
      have hid : p.leaseId ≠ some id := fun he => h ⟨p, hp, he⟩
      have hw := within_sqliteObjsSync (v := s.v) (p := p) rfl
      refine (without_kept (f := fun r => r.2.1) hid (presents_sqliteObjsSync rfl)
        (hw.mono (fun _ hr => hr) fun _ hr => hr.2)).bind fun r hr => ?_
      exact not_records_setFile hr
  | read h' n o =>
    obtain rfl : h' = k := Option.some.inj hc
    exact without_onFile h fun p hp => hkept (fun _ => rfl) hp (presents_sqliteObjsRead rfl n o)
      (within_sqliteObjsRead rfl n o)
  | write h' buf o =>
    obtain rfl : h' = k := Option.some.inj hc
    exact without_onFile h fun p hp => hkept (fun _ => rfl) hp (presents_sqliteObjsWrite rfl buf o)
      (within_sqliteObjsWrite rfl buf o)
  | truncate h' n =>
    obtain rfl : h' = k := Option.some.inj hc
    exact without_onFile h fun p hp => hkept (fun _ => rfl) hp (presents_sqliteObjsTruncate rfl n)
      (within_sqliteObjsTruncate rfl n)
  | prefetch h' =>
    obtain rfl : h' = k := Option.some.inj hc
    exact without_onFile h fun p hp => hkept (fun _ => rfl) hp (presents_fileControlPrefetch rfl)
      (within_fileControlPrefetch rfl)
  | lock h' l =>
    obtain rfl : h' = k := Option.some.inj hc
    exact without_onFile h fun p hp => (without_sqliteObjsLock hp l).bind fun r hr => hr
  | unlock h' l =>
    obtain rfl : h' = k := Option.some.inj hc
    exact without_onFile h fun p hp => (without_sqliteObjsUnlock hp l).bind fun r hr => hr
  | checkReservedLock h' =>
    obtain rfl : h' = k := Option.some.inj hc
    refine without_onFile h fun p hp => ?_
    have hm := presents_sqliteObjsCheckReservedLock (h := p.handle) (p := p)
    exact (without_of_presents (P := Presents p.handle.leaseId) hp hm hm.within).bind fun _ _ => hp

/-- A call on a name presents no lease. -/
theorem without_code_of_name {c : VfsCall} (hc : c.file = none) :
    Without id (fun _ => True) (c.code s) := by
  have hname : ∀ {α : Type} {m : Prog α} {f : α → Prog (Process × VfsResult)},
      Uses (Presents none) m → (∀ a, ∃ r, f a = .ret r) → Without id (fun _ => True) (m >>= f) := by
    intro α m f hm hf
    refine (without_of_presents none_ne_lease hm hm.within).bind fun a _ => ?_
    obtain ⟨r, hr⟩ := hf a
    rw [hr]
    trivial
  cases c with
  | delete mainFile name => exact hname (presents_sqliteObjsDelete _ _) fun a => ⟨_, rfl⟩
  | access mainFile name flags => exact hname (presents_sqliteObjsAccess _ _ _) fun a => ⟨_, rfl⟩
  | «open» | close | read | write | truncate | sync | lock | unlock | checkReservedLock
  | prefetch => cases hc

end Calls

/-! ## Content changes under a lease -/

/-- The request changes content under no lease, or under `l`. -/
def WritesUnder (l : Option LeaseId) : Req → Prop
  | .azure r => r.writesUnder = none ∨ r.writesUnder = l
  | .sys _ => True

section Writes

variable {α : Type} {l l' : Option LeaseId} {p : ObjsFile} {m : Prog α}

theorem writesUnder_of_presents {r : Req} (h : Presents l r) : WritesUnder l r := by
  cases r with
  | sys r => trivial
  | azure r => cases r <;> first | exact h | exact Or.inl rfl

theorem uses_writesUnder (hm : Uses (Presents l) m) : Uses (WritesUnder l) m :=
  (hm.within.mono (fun _ => writesUnder_of_presents) fun _ h => h).uses

theorem uses_writesUnder_execute {r : AzReq} (hr : r.writesUnder = none) :
    Uses (WritesUnder l) (execute r) :=
  (within_executeWithRetry (P := WritesUnder l) (Or.inl hr) azureMaxRetries).uses

/-- Nothing is written while a lease is taken. -/
theorem writesUnder_sqliteObjsLock (k : LockLevel) :
    Uses (WritesUnder l) (sqliteObjsLock p k) := by
  have hnone : ∀ {β : Type} {m : Prog β}, (∀ h : Handle, Uses (Presents h.leaseId) m) →
      Uses (WritesUnder l) m := fun h =>
    uses_writesUnder (h { p.handle with leaseId := l })
  have hrelease : ∀ q : ObjsFile, Uses (WritesUnder l) (releaseLease q) := by
    intro q
    unfold releaseLease
    split
    · exact (uses_writesUnder_execute rfl).bind fun _ => trivial
    · trivial
  have hacquire : Uses (WritesUnder l) (acquireLease p) := by
    unfold acquireLease
    generalize (if dirtyPageThreshold < p.lastSyncDirtyCount then leaseDurationLong
      else leaseDurationDefault) = duration
    refine Uses.bind (Uses.ite trivial (uses_writesUnder_execute rfl)) fun x => ?_
    refine .ite trivial (.ite trivial ⟨trivial, fun now => ?_⟩)
    refine (hnone fun h => presents_revalidateAfterLease (h := h) x.etag).bind fun r => ?_
    exact .ite ((hrelease _).bind fun _ => trivial) trivial
  unfold sqliteObjsLock
  refine .ite trivial (.ite ?_ (.ite trivial (.ite trivial ?_)))
  · exact (hnone fun h => presents_revalidateBeforeRead (h := h)).bind fun r => .ite trivial trivial
  · exact hacquire.bind fun r => .ite trivial trivial

end Writes

/-- The lease that the file of a call records. -/
def VfsCall.lease (c : VfsCall) (s : Process) : Option LeaseId :=
  c.file.bind fun k => (s.files k).bind (·.leaseId)

/-- A call changes content under the lease of its file only. -/
theorem writesUnder_code (c : VfsCall) (s : Process) :
    Uses (WritesUnder (c.lease s)) (c.code s) := by
  have hnone : ∀ {l} {β : Type} {m : Prog β}, Uses (Presents none) m → Uses (WritesUnder l) m := by
    intro l β m hm
    have hnone : ∀ r, Presents none r → WritesUnder l r := by
      intro r hr
      cases r with
      | sys r => trivial
      | azure r => exact (writesUnder_of_presents hr).elim Or.inl fun h => Or.inl h
    exact (hm.within.mono hnone fun _ h => h).uses
  have hfile : ∀ {k : Nat} {f : ObjsFile → Prog (ObjsFile × VfsResult)}, c.file = some k →
      (∀ p, Uses (WritesUnder p.leaseId) (f p)) →
      Uses (WritesUnder (c.lease s)) (VfsCall.onFile s k f) := by
    intro k f hc hf
    unfold VfsCall.onFile VfsCall.lease
    rw [hc]
    cases hp : s.files k with
    | none => trivial
    | some p =>
      simp only [Option.bind_some, hp]
      exact (hf p).bind fun _ => uses_ret
  cases c with
  | delete mainFile name => exact (hnone (presents_sqliteObjsDelete _ _)).bind fun _ => trivial
  | access mainFile name flags =>
    exact (hnone (presents_sqliteObjsAccess _ _ _)).bind fun _ => trivial
  | «open» k name uri ft create =>
    refine (hnone (presents_sqliteObjsOpen ..)).bind fun r => ?_
    obtain ⟨v, r⟩ := r
    cases r with
    | error rc => trivial
    | ok p => trivial
  | close k =>
    simp only [VfsCall.code, VfsCall.lease, VfsCall.file, Option.bind_some]
    cases hp : s.files k with
    | none => trivial
    | some p => exact (uses_writesUnder (presents_sqliteObjsClose rfl)).bind fun _ => trivial
  | sync k =>
    simp only [VfsCall.code, VfsCall.lease, VfsCall.file, Option.bind_some]
    cases hp : s.files k with
    | none => trivial
    | some p => exact (uses_writesUnder (presents_sqliteObjsSync rfl)).bind fun _ => trivial
  | read k n o =>
    exact hfile rfl fun p => (uses_writesUnder (presents_sqliteObjsRead rfl n o)).bind fun _ =>
      trivial
  | write k buf o =>
    exact hfile rfl fun p =>
      (uses_writesUnder (presents_sqliteObjsWrite rfl buf o)).bind fun _ => trivial
  | truncate k n =>
    exact hfile rfl fun p =>
      (uses_writesUnder (presents_sqliteObjsTruncate rfl n)).bind fun _ => trivial
  | prefetch k =>
    exact hfile rfl fun p => (uses_writesUnder (presents_fileControlPrefetch rfl)).bind fun _ =>
      uses_ret
  | lock k l => exact hfile rfl fun p => (writesUnder_sqliteObjsLock l).bind fun _ => trivial
  | unlock k l =>
    exact hfile rfl fun p =>
      (uses_writesUnder (presents_sqliteObjsUnlock rfl l)).bind fun _ => trivial
  | checkReservedLock k =>
    exact hfile rfl fun p => (uses_writesUnder
      (presents_sqliteObjsCheckReservedLock (h := p.handle))).bind fun _ => trivial

/-! ## The clients -/

section Clients

variable {ι : Type} [DecidableEq ι]

/-- What an answer leaves of the service: the state the request was answered in, or the
state after the request. -/
theorem Machines.azure_of_respond {i : ι} {ch : Choice} {r : AzReq} {w w' : Machines ι}
    {x : AzReply} (h : Machines.respond i ch (.azure r) w = some (x, w')) :
    (x.err ≠ .ok ∧ w'.azure = w.azure) ∨
    ((w.azure.respond r).1.err = .ok ∧ w'.azure = (w.azure.respond r).2 ∧
      (x.err = .ok → x.leaseId = (w.azure.respond r).1.leaseId)) := by
  obtain ⟨u, hu, rfl⟩ := Machines.of_respond h
  simp only [World.respond, Option.map_eq_some_iff, Prod.mk.injEq] at hu
  obtain ⟨⟨x', a'⟩, hs, rfl, rfl⟩ := hu
  rcases Azure.serve_cases hs with hno | ⟨hok, ha, hx, -⟩
  · exact Or.inl hno
  · exact Or.inr ⟨hok, ha, fun he => (congrArg AzReply.leaseId (hx he) :)⟩

theorem expire_nextLease (a : Azure) (b : BlobId) : (a.expire b).nextLease = a.nextLease := by
  unfold Azure.expire
  split
  · rfl
  · split
    · rfl
    · rfl

/-- The lease `id` as a token of the clients: a call may get it for its file. -/
def leaseToken (ι : Type) [DecidableEq ι] (id : LeaseId) : Token (clients ι) (Option Nat) where
  slot := VfsCall.file
  free k s := ∀ h, k = some h → ¬ s.Records h id
  gives := Gets id
  shows := Shows id
  handed w := id < w.azure.nextLease
  enter_handed := by
    intro i c s w w' h hw
    obtain rfl := Option.some.inj h
    exact hw
  outside_handed := by
    intro o w w' h hw
    obtain rfl := Option.some.inj h
    exact hw.trans_eq (expire_nextLease _ _).symm
  respond_handed := by
    intro i ch r w x w' h hw
    cases r with
    | sys r => rwa [Machines.respond_sys h]
    | azure r =>
      rcases Machines.azure_of_respond h with ⟨-, ha⟩ | ⟨-, ha, -⟩
      · rwa [ha]
      · rw [ha]
        exact hw.trans_le (Azure.respond_nextLease _ r).1
  respond_gives := by
    intro i ch r w x w' h hx
    cases r with
    | sys r => cases hx
    | azure r =>
      cases r with
      | leaseAcquire b d =>
        obtain ⟨hok, hid⟩ := hx
        rcases Machines.azure_of_respond h with ⟨hno, -⟩ | ⟨hacc, ha, hx⟩
        · exact absurd hok hno
        · obtain ⟨hlease, hnext⟩ := (Azure.respond_nextLease w.azure _).2 b d rfl hacc
          have hid : id = w.azure.nextLease := hid.symm.trans ((hx hok).trans hlease)
          rw [ha, hnext, hid]
          exact ⟨lt_irrefl _, Nat.lt_succ_self _⟩
      | _ => cases hx
  code_obeys := by
    intro i c s hfree
    cases hc : c.file with
    | none =>
      refine (without_code_of_name hc).mono fun r _ h hh => ?_
      cases hh
    | some k =>
      refine (without_code hc (hfree k hc)).mono fun r hr h hh => ?_
      obtain rfl := Option.some.inj hh
      exact hr
  code_frame := by
    intro i c s k hk hfree
    refine (within_code c s).mono (fun _ _ => trivial) fun r hr h hh => ?_
    rintro ⟨p, hp, hid⟩
    have hsame := hr.frame h fun he => hk (hh.trans he.symm)
    exact hfree h hh ⟨p, hsame.symm.trans hp, hid⟩

/-- The clients are idle and no open file records a lease. -/
def NoLeases (cfg : ClientsConfig ι) : Prop :=
  ∀ i, ∃ s, cfg.party i = .idle s ∧ ∀ k id, ¬ s.Records k id

/-- The file `k` of client `i` records the lease `id`, or did when the call that the client
is making began. -/
def Holds (cfg : ClientsConfig ι) (i : ι) (k : Nat) (id : LeaseId) : Prop :=
  (cfg.party i).state.Records k id

variable {cfg₀ cfg cfg' : ClientsConfig ι} {b : BlobId} {β : Blob} {id : LeaseId}

theorem exclusive_leaseToken (h₀ : NoLeases cfg₀) (hr : RunWithin (clients ι) .any cfg₀ cfg)
    (id : LeaseId) : (leaseToken ι id).Exclusive cfg := by
  refine Token.exclusive_of_run (Token.exclusive_of_free fun i => ?_) hr
  obtain ⟨s, hs, hno⟩ := h₀ i
  exact ⟨s, hs, fun k h _ => hno h id⟩

theorem not_unaware_of_holds {i : ι} {k : Nat} (h : Holds cfg i k id) :
    ¬ (leaseToken ι id).Unaware i (some k) (cfg.party i) :=
  Token.not_unaware_of_state fun hfree => hfree k rfl h

/-- In every run, however the calls interleave and whatever fails, a lease id is recorded
by at most one open file of one client. -/
theorem lease_has_one_holder (h₀ : NoLeases cfg₀) (hr : RunWithin (clients ι) .any cfg₀ cfg)
    {i j : ι} {k l : Nat} (hi : Holds cfg i k id) (hj : Holds cfg j l id) : i = j ∧ k = l := by
  obtain ⟨hij, hkl⟩ := (exclusive_leaseToken h₀ hr id).unique (not_unaware_of_holds hi)
    (not_unaware_of_holds hj)
  exact ⟨hij, Option.some.inj hkl⟩

/-- The request that a step of the interleaving answers. -/
theorem world_of_step {e : Event ι Choice VfsCall BlobId}
    (he : (clients ι).step cfg e = some cfg') :
    cfg'.world.azure = cfg.world.azure ∨ (∃ o, e = .outside o ∧
      cfg'.world.azure = cfg.world.azure.expire o) ∨
    ∃ i ch c s r f, e = .serve i ch ∧ cfg.party i = .busy c s (.call (.azure r) f) ∧
      cfg'.world.azure = (cfg.world.azure.respond r).2 := by
  cases e with
  | start i c =>
    simp only [step] at he
    split at he
    · obtain ⟨w, hw, rfl⟩ := Option.map_eq_some_iff.mp he
      obtain rfl := Option.some.inj hw
      exact Or.inl rfl
    · cases he
  | finish i =>
    simp only [step] at he
    split at he
    · obtain rfl := Option.some.inj he
      exact Or.inl rfl
    · cases he
  | outside o =>
    simp only [step, Option.map_eq_some_iff] at he
    obtain ⟨w, hw, rfl⟩ := he
    obtain rfl := Option.some.inj hw
    exact Or.inr (Or.inl ⟨o, rfl, rfl⟩)
  | serve i ch =>
    simp only [step] at he
    split at he
    · next c s r f hp =>
      obtain ⟨⟨x, w⟩, hw, rfl⟩ := Option.map_eq_some_iff.mp he
      cases r with
      | sys r => exact Or.inl (Machines.respond_sys hw)
      | azure r =>
        rcases Machines.azure_of_respond hw with ⟨-, ha⟩ | ⟨-, ha, -⟩
        · exact Or.inl ha
        · exact Or.inr (Or.inr ⟨i, ch, c, s, r, f, rfl, hp, ha⟩)
    · cases he

/-- While a lease is active, a step that changes the content of its blob answers a request
of the client that holds the lease, in a call on the file that records it. -/
theorem leased_blob_changed_by_holder (h₀ : NoLeases cfg₀)
    (hr : RunWithin (clients ι) .any cfg₀ cfg) {e : Event ι Choice VfsCall BlobId}
    (he : (clients ι).step cfg e = some cfg') (hb : cfg.world.azure.blobs b = some β)
    (hl : β.lease = .active id)
    (hchange : ¬ ∃ β', cfg'.world.azure.blobs b = some β' ∧ β'.content = β.content) :
    ∃ i k ch c s m, e = .serve i ch ∧ cfg.party i = .busy c s m ∧ c.file = some k ∧
      Holds cfg i k id ∧ ∀ j l, Holds cfg j l id → j = i ∧ l = k := by
  rcases world_of_step he with ha | ⟨o, -, ha⟩ | ⟨i, ch, c, s, r, f, rfl, hp, ha⟩
  · rw [ha] at hchange
    exact absurd ⟨β, hb, rfl⟩ hchange
  · rw [ha] at hchange
    refine absurd ?_ hchange
    unfold Azure.expire
    split
    · exact ⟨β, hb, rfl⟩
    · next β₀ hβ₀ =>
      split
      · by_cases hbo : b = o
        · subst hbo
          obtain rfl : β₀ = β := Option.some.inj (hβ₀.symm.trans hb)
          exact ⟨_, Azure.set_blobs_self _ _ _, rfl⟩
        · exact ⟨β, (Azure.set_blobs_ne _ _ hbo).trans hb, rfl⟩
      · exact ⟨β, hb, rfl⟩
  · have hwrites : r.writesUnder = some id := by
      by_contra hne
      obtain ⟨β', hβ', hc, -⟩ := Azure.respond_leased_content hb hl hne
      exact hchange ⟨β', by rw [ha]; exact hβ', hc⟩
    -- the pending request writes under the lease that the file of the call records
    have huses := uses_of_run (S := clients ι) (P := fun _ c s => WritesUnder (c.lease s))
      (fun _ c s => writesUnder_code c s) (fun i c s m hm => by
        obtain ⟨s', hs', -⟩ := h₀ i
        rw [hs'] at hm
        cases hm) hr i c s _ hp
    have hown : c.lease s = some id := by
      rcases huses.1 with hno | hyes
      · rw [hwrites] at hno
        cases hno
      · exact hyes.symm.trans hwrites
    obtain ⟨k, hk, hlease⟩ := Option.bind_eq_some_iff.mp hown
    obtain ⟨p, hfile, hid⟩ := Option.bind_eq_some_iff.mp hlease
    have hholds : Holds cfg i k id := by
      rw [Holds, hp]
      exact ⟨p, hfile, hid⟩
    exact ⟨i, k, ch, c, s, _, rfl, hp, hk, hholds, fun j l hj =>
      lease_has_one_holder h₀ hr hj hholds⟩

/-- A step of another client leaves a leased blob as it is. -/
theorem sameLeased_step (h₀ : NoLeases cfg₀) (hr : RunWithin (clients ι) .any cfg₀ cfg)
    {e : Event ι Choice VfsCall BlobId} (he : (clients ι).step cfg e = some cfg') {i : ι} {k : Nat}
    (hi : Holds cfg i k id) (hei : e.party ≠ some i) (heb : e ≠ .outside b)
    (hb : cfg.world.azure.blobs b = some β) (hl : β.lease = .active id) :
    Azure.SameLeased β (cfg'.world.azure.blobs b) := by
  rcases world_of_step he with ha | ⟨o, rfl, ha⟩ | ⟨j, ch, c, s, r, f, rfl, hp, ha⟩
  · rw [ha]
    exact ⟨β, hb, rfl, rfl, rfl⟩
  · have hbo : b ≠ o := fun h => heb (by rw [h])
    rw [ha]
    refine ⟨β, ?_, rfl, rfl, rfl⟩
    unfold Azure.expire
    split
    · exact hb
    · split
      · exact (Azure.set_blobs_ne _ _ hbo).trans hb
      · exact hb
  · rw [ha]
    refine Azure.respond_leased hb hl fun hshow => hei ?_
    have haware : ¬ (leaseToken ι id).Unaware j c.file (cfg.party j) := by
      rw [hp]
      exact Token.not_unaware_of_shows (T := leaseToken ι id) hshow
    obtain ⟨rfl, -⟩ := (exclusive_leaseToken h₀ hr id).unique haware (not_unaware_of_holds hi)
    rfl

/-- While a client holds the live lease of a blob, rests, and the lease does not run out,
the others leave the blob's content, its version and the lease as they are, whatever they
call and whatever fails. -/
theorem leased_blob_undisturbed (h₀ : NoLeases cfg₀) {es : List (Event ι Choice VfsCall BlobId)}
    {i : ι} {k : Nat} (hes : ∀ e ∈ es, e.party ≠ some i ∧ e ≠ .outside b) :
    ∀ {cfg : ClientsConfig ι} {β : Blob}, RunWithin (clients ι) .any cfg₀ cfg → Holds cfg i k id →
      cfg.world.azure.blobs b = some β → β.lease = .active id →
      (clients ι).run cfg es = some cfg' → Azure.SameLeased β (cfg'.world.azure.blobs b) := by
  induction es with
  | nil =>
    intro cfg β _ _ hb _ he
    obtain rfl : cfg = cfg' := Option.some.inj he
    exact ⟨β, hb, rfl, rfl, rfl⟩
  | cons e es ih =>
    intro cfg β hr hi hb hl he
    obtain ⟨cfg₁, he₁, hrest⟩ := Option.bind_eq_some_iff.mp he
    obtain ⟨hei, heb⟩ := hes e List.mem_cons_self
    obtain ⟨β₁, hb₁, hc₁, ht₁, hl₁⟩ := sameLeased_step h₀ hr he₁ hi hei heb hb hl
    have hone : (clients ι).run cfg [e] = some cfg₁ := by simp [run, he₁]
    have hr₁ : RunWithin (clients ι) .any cfg₀ cfg₁ := hr.trans (runWithin_of_run hone)
    have hi₁ : Holds cfg₁ i k id := by
      rw [Holds, party_of_step he₁ hei]
      exact hi
    obtain ⟨β', hb', hc', ht', hl'⟩ := ih (fun e he => hes e (List.mem_cons_of_mem _ he)) hr₁ hi₁
      hb₁ (hl₁.trans hl) hrest
    exact ⟨β', hb', hc'.trans hc₁, ht'.trans ht₁, hl'.trans hl₁⟩

end Clients

/-! ## Two clients -/

/-- Client `false` opens the database and locks it. -/
def lockedEvents : List (Event Bool Choice VfsCall BlobId) :=
  callEvents false (.open 0 "db" {} .mainDb false) 11 ++
  callEvents false (.lock 0 .shared) 1 ++
  callEvents false (.lock 0 .exclusive) 2

/-- Client `true` opens it as well and tries to lock it. -/
def rivalEvents : List (Event Bool Choice VfsCall BlobId) :=
  callEvents true (.open 0 "db" {} .mainDb false) 11 ++
  callEvents true (.lock 0 .shared) 1 ++
  callEvents true (.lock 0 .reserved) 1

theorem noLeases_startConfig : NoLeases (startConfig Bool) := by
  intro i
  refine ⟨.new 0, rfl, ?_⟩
  rintro k id ⟨p, hp, -⟩
  cases hp

theorem locked_has_one_holder :
    ∃ cfg, (clients Bool).run (startConfig Bool) lockedEvents = some cfg ∧
    Holds cfg false 0 1 ∧ ∀ j l, Holds cfg j l 1 → j = false ∧ l = 0 := by
  obtain ⟨cfg, p, hrun, hp, hid⟩ : ∃ cfg p,
      (clients Bool).run (startConfig Bool) lockedEvents = some cfg ∧
      (cfg.party false).state.files 0 = some p ∧ p.leaseId = some 1 := ⟨_, _, rfl, rfl, rfl⟩
  exact ⟨cfg, hrun, ⟨p, hp, hid⟩, fun j l hj =>
    lease_has_one_holder noLeases_startConfig (runWithin_of_run hrun) hj ⟨p, hp, hid⟩⟩

/-- Client `false` truncates the database it holds. -/
theorem truncated_by_holder : ∃ cfg cfg' e,
    (clients Bool).run (startConfig Bool) (lockedEvents ++ [.start false (.truncate 0 1024)]) =
      some cfg ∧ (clients Bool).step cfg e = some cfg' ∧
    ∃ i k ch c s m, e = .serve i ch ∧ cfg.party i = .busy c s m ∧ c.file = some k ∧
      Holds cfg i k 1 ∧ ∀ j l, Holds cfg j l 1 → j = i ∧ l = k := by
  obtain ⟨cfg, cfg', β, β', hrun, hstep, hb, hl, hb', hsize, hsize'⟩ : ∃ cfg cfg' β β',
      (clients Bool).run (startConfig Bool) (lockedEvents ++ [.start false (.truncate 0 1024)]) =
        some cfg ∧ (clients Bool).step cfg (.serve false {}) = some cfg' ∧
      cfg.world.azure.blobs ⟨0, "db"⟩ = some β ∧ β.lease = .active 1 ∧
      cfg'.world.azure.blobs ⟨0, "db"⟩ = some β' ∧ β.content.size = 512 ∧ β'.content.size = 1024 :=
    ⟨_, _, _, _, rfl, rfl, rfl, rfl, rfl, rfl, rfl⟩
  refine ⟨cfg, cfg', _, hrun, hstep, leased_blob_changed_by_holder noLeases_startConfig
    (runWithin_of_run hrun) hstep hb hl ?_⟩
  rintro ⟨β'', hb'', hc⟩
  obtain rfl : β' = β'' := Option.some.inj (hb'.symm.trans hb'')
  rw [hc, hsize] at hsize'
  cases hsize'

/-- The other client opens the database and fails to lock it, and the blob stays. -/
theorem rival_disturbs_nothing : ∃ cfg cfg' β,
    (clients Bool).run (startConfig Bool) lockedEvents = some cfg ∧
    (clients Bool).run cfg rivalEvents = some cfg' ∧
    cfg.world.azure.blobs ⟨0, "db"⟩ = some β ∧
    Azure.SameLeased β (cfg'.world.azure.blobs ⟨0, "db"⟩) := by
  obtain ⟨cfg, cfg', p, β, hrun, hrun', hp, hid, hb, hl⟩ : ∃ cfg cfg' p β,
      (clients Bool).run (startConfig Bool) lockedEvents = some cfg ∧
      (clients Bool).run cfg rivalEvents = some cfg' ∧
      (cfg.party false).state.files 0 = some p ∧ p.leaseId = some 1 ∧
      cfg.world.azure.blobs ⟨0, "db"⟩ = some β ∧ β.lease = .active 1 :=
    ⟨_, _, _, _, rfl, rfl, rfl, rfl, rfl, rfl⟩
  refine ⟨cfg, cfg', β, hrun, hrun', hb, leased_blob_undisturbed (i := false) (k := 0)
    noLeases_startConfig ?_ (runWithin_of_run hrun) ⟨p, hp, hid⟩ hb hl hrun'⟩
  have hall : (rivalEvents.all fun e => e.party == some true) = true := rfl
  intro e he
  have hparty : e.party = some true := by simpa using List.all_eq_true.mp hall e he
  constructor
  · simp [hparty]
  · rintro rfl
    cases hparty

end SqliteObjs
