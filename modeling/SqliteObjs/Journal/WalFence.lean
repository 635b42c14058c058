import SqliteObjs.Journal.Recovery

/-!
# The lease does not fence the WAL

In WAL mode with `locking_mode=EXCLUSIVE` a client commits through its WAL file only,
and holds the lease of the database for as long as it is connected. When the lease ran
out and another client took it, the first client's `xSync` of the WAL should fail. It
never does for that reason: the upload neither renews nor presents the lease.
`wal_commits_not_fenced` says so of every configuration: a client whose lease was taken
over, and whose WAL is open, can still replace the WAL.
-/

set_option autoImplicit false

namespace SqliteObjs

open Data CS CS.Program

/-- What the clients are doing. -/
abbrev ClientsConfig (ι : Type) :=
  Interleaving.Config ι (Machines ι) Ans Process VfsCall (Process × VfsResult)

section Fence

variable {ι : Type} [DecidableEq ι]

/-- Client `i` holds its database `EXCLUSIVE` under the handle `hdb`, and by now the lease
of the database is another one than it recorded. -/
def Superseded (i : ι) (hdb : Nat) (cfg : ClientsConfig ι) : Prop :=
  ∃ s p b id id', cfg.party i = .idle s ∧ s.files hdb = some p ∧ p.eFileType = .mainDb ∧
    p.eLock = .exclusive ∧ p.leaseId = some id ∧ cfg.world.azure.blobs p.blob = some b ∧
    b.lease = .active id' ∧ id' ≠ id

/-- Once the lease is another client's, no later `xSync` of the WAL under the handle
`hwal` returns `SQLITE_OK`. -/
def Fenced (i : ι) (hdb hwal : Nat) (cfg : ClientsConfig ι) : Prop :=
  Superseded i hdb cfg → ∀ cfg' s p r, Interleaving.RunWithin (clients ι) .any cfg cfg' →
    cfg'.party i = .busy (.sync hwal) s (.ret r) → s.files hwal = some p → p.eFileType = .wal →
      r.2 ≠ .rc .ok

/-! ## Replacing a WAL -/

/-- A WAL with nothing but one byte in it. -/
def oneByte : Bytes := SparseFile.empty.truncate 1

variable {v : VfsData} {p : ObjsFile} {w : World}

/-- An operation can be answered at once. -/
theorem runs_execute {r : AzReq} (hr : ∀ i s, r ≠ .blobGetPageRangesDiff i s) (w : World) :
    Runs (World.served Sound) (execute r) w (w.answer r) (w.after r) := by
  have hs : World.served Sound (.azure r) w (w.answer r) (w.after r) := by
    refine ⟨{}, ⟨rfl, rfl⟩, ?_⟩
    cases r with
    | blobGetPageRangesDiff i s => exact absurd rfl (hr i s)
    | _ => rfl
  have hno : azureIsRetryable (w.answer r).err = false := w.azure.respond_not_retryable r
  have hstop : Runs (World.served Sound)
      (if (w.answer r).err = .ok then (.ret (w.answer r) : Prog AzReply)
        else if !azureIsRetryable (w.answer r).err then .ret (w.answer r)
        else executeWithRetry r 4) (w.after r) (w.answer r) (w.after r) := by
    rw [hno]
    split
    · exact .ret _ _
    · exact .ret _ _
  exact .call hs hstop

theorem runs_malloc (n : Nat) (w : World) :
    ∃ x : SysReply, x.ok = true ∧ Runs (World.served Sound) (sys (.malloc n)) w x w :=
  ⟨_, rfl, .call (show World.served Sound (.sys (.malloc n)) w _ w from ⟨{}, ⟨rfl, rfl⟩, rfl⟩)
    (.ret _ _)⟩

/-- A WAL can be truncated to nothing. -/
theorem runs_truncate_wal (hp : p.eFileType = .wal) (hu : w.azure.Unleased p.blob) :
    ∃ p' w', Runs (World.served Sound) (sqliteObjsTruncate p 0) w (p', .ok) w' ∧
      p'.handle = p.handle ∧ p'.nWalData = 0 ∧ w'.azure.Unleased p.blob := by
  have hdel : ∃ w', Runs (World.served Sound) (deleteWal p) w () w' ∧
      w'.azure.Unleased p.blob := by
    unfold deleteWal
    split
    · refine ⟨w.after (.blobDelete p.blob), ?_, ?_⟩
      · exact (runs_execute (r := .blobDelete p.blob) (by intros; simp) w).bind (.ret _ _)
      · intro b hb
        simp only [World.after, Azure.respond] at hb
        cases hb₀ : w.azure.blobs p.blob with
        | none =>
          rw [hb₀] at hb
          dsimp only at hb
          rw [hb₀] at hb
          cases hb
        | some b₀ =>
          rw [hb₀] at hb
          dsimp only at hb
          rw [if_pos (hu b₀ hb₀), Azure.set_blobs_self] at hb
          cases hb
    · exact ⟨w, .ret _ _, hu⟩
  obtain ⟨w', hr, hu'⟩ := hdel
  have hcode : sqliteObjsTruncate p 0 = (do
      deleteWal p
      return ({ p with nWalData := 0, aWalData := SparseFile.empty.truncate p.aWalData.size },
        .ok)) := by
    unfold sqliteObjsTruncate
    split
    · rw [if_pos rfl]
    · next h => rw [hp] at h; cases h
    · next h => rw [hp] at h; cases h
  rw [hcode]
  exact ⟨_, w', hr.bind (.ret _ _), rfl, rfl, hu'⟩

/-- One byte can be written to an empty WAL. -/
theorem runs_write_wal (hp : p.eFileType = .wal) (hn : p.nWalData = 0) :
    ∃ p', Runs (World.served Sound) (sqliteObjsWrite p oneByte 0) w (p', .ok) w ∧
      p'.handle = p.handle ∧ p'.nWalData = 1 ∧ p'.aWalData.truncate 1 = oneByte := by
  have hbuf : ∀ d : Bytes, ∃ d', Runs (World.served Sound) (bufferEnsure d 1) w (d', .ok) w := by
    intro d
    unfold bufferEnsure
    split
    · exact ⟨d, .ret _ _⟩
    next hd =>
    have h0 : d.size = 0 := by omega
    rw [h0]
    obtain ⟨x, hx, hr⟩ := runs_malloc (doubleUntil 1 64 initialAlloc) w
    refine ⟨d.truncate (doubleUntil 1 64 initialAlloc), hr.bind ?_⟩
    rw [hx]
    exact .ret _ _
  obtain ⟨d', hd'⟩ := hbuf p.aWalData
  have hwrite : Runs (World.served Sound) (bufferWrite p.aWalData p.nWalData oneByte 0) w
      (d'.pwrite 0 oneByte, 1, .ok) w := by
    unfold bufferWrite
    rw [hn]
    exact hd'.bind (.ret _ _)
  unfold sqliteObjsWrite
  split
  · exact ⟨_, hwrite.bind (.ret _ _), rfl, rfl, truncate_pwrite_zero d' oneByte⟩
  · next h => rw [hp] at h; cases h
  · next h => rw [hp] at h; cases h

/-- A WAL of one byte can be uploaded, whoever holds the lease of the database. -/
theorem runs_sync_wal (hp : p.eFileType = .wal) (hops : p.ops.blockBlobUpload = true)
    (hn : p.nWalData = 1) (hd : p.aWalData.truncate 1 = oneByte)
    (hu : w.azure.Unleased p.blob) :
    ∃ w', Runs (World.served Sound) (sqliteObjsSync v p) w (v, p, .ok) w' ∧
      w'.azure.Holds p.blob oneByte := by
  obtain ⟨herr, -, hholds⟩ := Azure.putBlob_spec hu oneByte fun _ => none
  have hupload : Runs (World.served Sound) (uploadWal v p) w
      (w.answer (.blockBlobUpload p.blob oneByte)) (w.after (.blockBlobUpload p.blob oneByte)) := by
    have hup := runs_execute (r := .blockBlobUpload p.blob oneByte) (by intros; simp) w
    have hsmall : oneByte.size < blockUploadMinParallelSize := by
      simp [oneByte, blockUploadMinParallelSize]
    unfold uploadWal
    rw [hn, hd]
    split
    · unfold azBlockBlobUploadParallel
      generalize cInt _ = nChunks
      dsimp only
      rw [if_pos hsmall]
      exact hup
    · exact hup
  have hsync : Runs (World.served Sound) (walSync v p) w .ok
      (w.after (.blockBlobUpload p.blob oneByte)) := by
    unfold walSync
    rw [if_neg (by omega), hops]
    refine hupload.bind ?_
    rw [if_neg fun h => h herr]
    exact .ret _ _
  have hcode : sqliteObjsSync v p = (do
      let rc ← walSync v p
      return (v, p, rc)) := by
    unfold sqliteObjsSync
    split
    · rfl
    · next h => rw [hp] at h; cases h
    · next h => rw [hp] at h; cases h
  rw [hcode]
  exact ⟨_, hsync.bind (.ret _ _), hholds⟩

/-! ## Among the other clients -/

theorem unleased_expire (a : Azure) (i : BlobId) : (a.expire i).Unleased i := by
  unfold Azure.expire
  cases hb : a.blobs i with
  | none =>
    intro b hb'
    rw [hb] at hb'
    cases hb'
  | some b =>
    dsimp only
    cases hl : b.lease with
    | active id =>
      intro b' hb'
      rw [Azure.set_blobs_self, Option.some.injEq] at hb'
      subst hb'
      rfl
    | _ =>
      intro b' hb'
      rw [hb, Option.some.injEq] at hb'
      subst hb'
      simp [Blob.admits, hl]

variable {i : ι} {h : Nat} {s : Process} {cfg : ClientsConfig ι}

/-- A client that makes a call on an open file, undisturbed. -/
theorem exists_run_onFile {c : VfsCall} {f : ObjsFile → Prog (ObjsFile × VfsResult)}
    {p' : ObjsFile} {r : VfsResult} {u u' : World} (hcode : ∀ s, c.code s = VfsCall.onFile s h f)
    (hi : cfg.party i = .idle s) (hp : s.files h = some p) (hu : cfg.world.world i = u)
    (hr : Runs (World.served Sound) (f p) u (p', r) u') :
    ∃ cfg', Interleaving.RunWithin (clients ι) .any cfg cfg' ∧
      cfg'.party i = .idle (s.setFile h (some p')) ∧ cfg'.world.world i = u' := by
  subst hu
  have hcall : Runs (World.served Sound) (c.code s) (cfg.world.world i)
      (s.setFile h (some p'), r) u' := by
    rw [hcode, VfsCall.onFile, hp]
    exact hr.bind (.ret _ _)
  refine ⟨cfg.set i (cfg.world.setWorld i u') (.idle (s.setFile h (some p'))), ?_, by simp, by simp⟩
  exact Interleaving.runWithin_of_call_finish (S := clients ι) (c := c)
    (a := (s.setFile h (some p'), r)) hi rfl (Machines.runs_of_world hcall cfg.world rfl)

@[simp] theorem setFile_files_self (s : Process) (h : Nat) (q : Option ObjsFile) :
    (s.setFile h q).files h = q := by
  simp [Process.setFile]

/-- A client whose WAL is open can replace it, whatever the others do. -/
theorem exists_wal_replaced (hi : cfg.party i = .idle s) (hp : s.files h = some p)
    (hft : p.eFileType = .wal) (hops : p.ops.blockBlobUpload = true) :
    ∃ cfg' s' p' r, Interleaving.RunWithin (clients ι) .any cfg cfg' ∧
      cfg'.party i = .busy (.sync h) s' (.ret r) ∧ s'.files h = some p' ∧
      p'.eFileType = .wal ∧ r.2 = .rc .ok ∧ cfg'.world.azure.Holds p.blob oneByte := by
  -- nobody holds a lease of the WAL itself, once it has run out
  let cfg₁ : ClientsConfig ι :=
    { cfg with world := { cfg.world with azure := cfg.world.azure.expire p.blob } }
  have h₁ : Interleaving.RunWithin (clients ι) .any cfg cfg₁ :=
    .tail .refl (e := .outside p.blob) trivial rfl
  have hi₁ : cfg₁.party i = .idle s := hi
  have hu₁ : (cfg₁.world.world i).azure.Unleased p.blob := unleased_expire _ _
  -- the WAL is truncated
  obtain ⟨p₂, u₂, hr₂, hh₂, hn₂, hu₂⟩ := runs_truncate_wal hft hu₁
  have hft₂ : p₂.eFileType = .wal := (congrArg Handle.eFileType hh₂).trans hft
  obtain ⟨cfg₂, h₂, hi₂, hw₂⟩ := exists_run_onFile (c := .truncate h 0) (fun _ => rfl) hi₁ hp rfl
    (hr₂.bind (.ret _ _))
  -- one byte is written to it
  obtain ⟨p₃, hr₃, hh₃, hn₃, hd₃⟩ := runs_write_wal (w := u₂) hft₂ hn₂
  have hblob₃ : p₃.blob = p.blob := ObjsFile.blob_of_handle (hh₃.trans hh₂)
  have hft₃ : p₃.eFileType = .wal := (congrArg Handle.eFileType hh₃).trans hft₂
  have hops₃ : p₃.ops = p.ops := congrArg Handle.ops (hh₃.trans hh₂)
  obtain ⟨cfg₃, h₃, hi₃, hw₃⟩ := exists_run_onFile (c := .write h oneByte 0) (fun _ => rfl) hi₂
    (setFile_files_self _ _ _) hw₂ (hr₃.bind (.ret _ _))
  have hf₃ : ((s.setFile h (some p₂)).setFile h (some p₃)).files h = some p₃ :=
    setFile_files_self _ _ _
  generalize (s.setFile h (some p₂)).setFile h (some p₃) = s₃ at hi₃ hf₃
  -- and uploaded
  obtain ⟨u₄, hr₄, hholds⟩ := runs_sync_wal (v := s₃.v) hft₃ (by rw [hops₃]; exact hops) hn₃ hd₃
    (by rw [hblob₃]; exact hu₂)
  have hcall : Runs (World.served Sound) ((VfsCall.sync h).code s₃) u₂
      ({ s₃ with v := s₃.v }.setFile h (some p₃), .rc .ok) u₄ := by
    simp only [VfsCall.code, hf₃]
    exact hr₄.bind (.ret _ _)
  have h₄ := Interleaving.runWithin_of_call (S := clients ι) (c := .sync h) hi₃ rfl
    (Machines.runs_of_world hcall cfg₃.world hw₃)
  refine ⟨_, s₃, p₃, (_, .rc .ok), ((h₁.trans h₂).trans h₃).trans h₄,
    Interleaving.Config.set_party_self _ _ _ _, hf₃, hft₃, rfl, ?_⟩
  rw [← hblob₃]
  exact hholds

end Fence

/-- No configuration fences the WAL: a client whose lease on the database was taken over,
and whose WAL is open, can still get `SQLITE_OK` from an `xSync` of the WAL. -/
theorem wal_commits_not_fenced {ι : Type} [DecidableEq ι] {i : ι} {hdb hwal : Nat} {s : Process}
    {p : ObjsFile} {cfg : ClientsConfig ι} (hi : cfg.party i = .idle s)
    (hp : s.files hwal = some p) (hft : p.eFileType = .wal)
    (hops : p.ops.blockBlobUpload = true) (hsup : Superseded i hdb cfg) :
    ¬ Fenced i hdb hwal cfg := by
  intro hfence
  obtain ⟨cfg', s', p', r, hrun, hbusy, hp', hft', hr, -⟩ := exists_wal_replaced hi hp hft hops
  exact hfence hsup cfg' s' p' r hrun hbusy hp' hft' hr

/-! ## Two clients -/

/-- Client `false` opens the database and its WAL and locks; its lease runs out and client
`true` takes it. -/
def takeoverEvents : List (Interleaving.Event Bool Choice VfsCall BlobId) :=
  callEvents false (.open 0 "db" {} .mainDb false) 11 ++
  callEvents false (.lock 0 .shared) 1 ++
  callEvents false (.lock 0 .exclusive) 2 ++
  callEvents false (.open 1 "db-wal" {} .wal true) 2 ++
  [.outside ⟨0, "db"⟩] ++
  callEvents true (.open 0 "db" {} .mainDb false) 11 ++
  callEvents true (.lock 0 .shared) 1 ++
  callEvents true (.lock 0 .exclusive) 2

/-- After the takeover client `false` has its WAL open and is superseded. -/
theorem takeover_superseded : ∃ cfg s p,
    (clients Bool).run (startConfig Bool) takeoverEvents = some cfg ∧
    cfg.party false = .idle s ∧ s.files 1 = some p ∧ p.eFileType = .wal ∧
    p.ops.blockBlobUpload = true ∧ p.blob = ⟨0, "db-wal"⟩ ∧ Superseded false 0 cfg := by
  obtain ⟨cfg, s, p, q, b, hrun, hi, hp, hft, hops, hblob, hq, hqt, hlock, hlease, hb, hbl⟩ :
      ∃ cfg s p q b, (clients Bool).run (startConfig Bool) takeoverEvents = some cfg ∧
      cfg.party false = .idle s ∧ s.files 1 = some p ∧ p.eFileType = .wal ∧
      p.ops.blockBlobUpload = true ∧ p.blob = ⟨0, "db-wal"⟩ ∧ s.files 0 = some q ∧
      q.eFileType = .mainDb ∧
      q.eLock = .exclusive ∧ q.leaseId = some 1 ∧ cfg.world.azure.blobs q.blob = some b ∧
      b.lease = .active 2 :=
    ⟨_, _, _, _, _, rfl, rfl, rfl, rfl, rfl, rfl, rfl, rfl, rfl, rfl, rfl, rfl⟩
  exact ⟨cfg, s, p, hrun, hi, hp, hft, hops, hblob, s, q, b, 1, 2, hi, hq, hqt, hlock,
    hlease, hb, hbl, by decide⟩

theorem takeover_not_fenced : ∃ cfg,
    (clients Bool).run (startConfig Bool) takeoverEvents = some cfg ∧ ¬ Fenced false 0 1 cfg := by
  obtain ⟨cfg, s, p, hrun, hi, hp, hft, hops, -, hsup⟩ := takeover_superseded
  exact ⟨cfg, hrun, wal_commits_not_fenced hi hp hft hops hsup⟩

/-- Client `true` has the lease, and client `false` replaces the WAL. -/
theorem takeover_wal_replaced : ∃ cfg cfg' s r,
    (clients Bool).run (startConfig Bool) takeoverEvents = some cfg ∧ Superseded false 0 cfg ∧
    Interleaving.RunWithin (clients Bool) .any cfg cfg' ∧
    cfg'.party false = .busy (.sync 1) s (.ret r) ∧ r.2 = .rc .ok ∧
    cfg'.world.azure.Holds ⟨0, "db-wal"⟩ oneByte := by
  obtain ⟨cfg, s, p, hrun, hi, hp, hft, hops, hblob, hsup⟩ := takeover_superseded
  obtain ⟨cfg', s', p', r, hrun', hbusy, -, -, hr, hholds⟩ := exists_wal_replaced hi hp hft hops
  rw [hblob] at hholds
  exact ⟨cfg, cfg', s', r, hrun, hsup, hrun', hbusy, hr, hholds⟩

end SqliteObjs
