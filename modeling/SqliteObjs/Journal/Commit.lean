import SqliteObjs.Journal.ParallelUpload
import SqliteObjs.MainDb.Durability
import SqliteObjs.Vfs.Handles

/-!
# A commit and its crashes

SQLite commits in three calls: `xSync` of the rollback journal, `xSync` of the database,
`xDelete` of the journal. The machine may go down anywhere in between, in the middle of a flush
too, and the service may fail with or without effect. A client that opens the database afterwards
plays back the journal if there is one.

What it gets is the database before the transaction or the one after it, wherever the crash came
(`commit_atomic`), and the one after it once the commit reported success (`commit_lasts`).
-/

set_option autoImplicit false

namespace SqliteObjs

open Data CS CS.Program

/-! ## The calls -/

/-- The commit of a transaction in rollback mode. -/
def commit (v : VfsData) (jrnl db : ObjsFile) : Prog (ObjsFile × Delegated Rc) := do
  let (v, _, rc) ← sqliteObjsSync v jrnl
  if rc ≠ .ok then return (db, .done rc)
  else
    let (v, db, rc) ← sqliteObjsSync v db
    if rc ≠ .ok then return (db, .done rc)
    else
      let (_, r) ← sqliteObjsDelete v (some (db.ops, db.opsCtx)) jrnl.zBlobName
      return (db, r)

/-- The local disk works but for allocations; the service may fail, and a failed request may have
taken effect. -/
def diskServe (r : Req) (w : World) (x : Ans r) (w' : World) : Prop :=
  ∃ c, DbCall.sync.allows r c ∧ World.respond c r w = some (x, w')

/-- What a client works with that opens the database now. -/
def recovered (playback : Bytes → Bytes → Bytes) (journal db : BlobId) (a : Azure) : Bytes :=
  match a.blobs journal with
  | none => a.contentOf db
  | some j => playback j.content (a.contentOf db)

/-- The journal `jrnl` undoes every change to the dirty pages of `db`, whose blob is now `blob`:
what it restores is `old`. -/
def Undoes (playback : Bytes → Bytes → Bytes) (jrnl : Bytes) (db : ObjsFile) (blob old : Bytes) :
    Prop :=
  ∀ c, (∀ k, db.dirty.bit (k / db.pageSize) = false → c.get k = blob.get k) → playback jrnl c = old

section Recovered

variable {playback : Bytes → Bytes → Bytes} {journal db : BlobId} {a : Azure} {b : Blob} {d : Bytes}

theorem Azure.Has.contentOf (h : a.Has db (· = d)) : a.contentOf db = d := by
  obtain ⟨b, hb, rfl⟩ := h
  simp only [Azure.contentOf, hb]

theorem recovered_none (h : a.blobs journal = none) :
    recovered playback journal db a = a.contentOf db := by
  unfold recovered
  rw [h]

theorem recovered_has (h : a.Has journal (· = d)) :
    recovered playback journal db a = playback d (a.contentOf db) := by
  obtain ⟨j, hj, rfl⟩ := h
  unfold recovered
  rw [hj]

/-- Only the two blobs matter. -/
theorem recovered_congr {a' : Azure} (hj : a'.blobs journal = a.blobs journal)
    (hd : a'.blobs db = a.blobs db) :
    recovered playback journal db a' = recovered playback journal db a := by
  unfold recovered Azure.contentOf
  rw [hj, hd]

end Recovered

/-! ## Requests in a setting with an invariant -/

section Setting

variable {I : World → Prop} {J : Azure → Prop}

/-- A request to the service that is not a renewal, seen as one of a session. -/
theorem bounded_of_disk {v : VfsData} {p : ObjsFile} {r : AzReq} {w w' : World} {x : AzReply}
    (hr : ∀ i id, r ≠ .leaseRenew i id) (h : diskServe (.azure r) w x w') :
    (boundedSession v).serve .sync p (.azure r) w x w' := by
  refine ⟨⟨h, ?_⟩, trivial⟩
  cases r with
  | leaseRenew i id => exact absurd rfl (hr i id)
  | _ => trivial

theorem fact_keeping (P : Azure → Prop) : Fact (.keeping diskServe I) fun w => P w.azure where
  stable := by
    rintro w _ rfl h
    exact h
  sys := (fact_azure (fun _ _ _ _ h => h) P).sys

theorem seen_keeping (J : Azure → Prop) :
    Seen (.keeping diskServe fun w => J w.azure) id DbCall.sync.allows where
  rely_disk := by
    rintro w _ rfl
    rfl
  serve _ _ _ _ h := h
  guar_sys := (fact_keeping J).sys
  quiet r hr w x w' hs := by
    have hseen : Seen (.alone diskServe) id DbCall.sync.allows := seen_alone fun _ _ _ _ h => h
    exact ⟨(hseen.quiet r hr w x w' hs).1, id⟩

/-- The facts of a sync, in a setting whose invariant they all imply. -/
theorem syncing_keeping (v : VfsData) (p : ObjsFile) (cache : Bytes)
    (hI : ∀ c, Mirror p cache c → ∀ w : World, w.azure.Has p.blob (· = c) → I w) :
    Syncing (.keeping diskServe I) p cache (fun w => w.azure.Has p.blob (Mirror p cache))
      (fun loaded A _ w => w.azure.Has p.blob fun c =>
        Mirror p cache c ∧ c.size = p.nData ∧ PiecesIn loaded A c) := by
  have hS := syncing_call v p cache
  have hB : ∀ w : World, w.azure.Has p.blob (Mirror p cache) → I w := by
    rintro w ⟨b, hb, hm⟩
    exact hI b.content hm w ⟨b, hb, rfl⟩
  have hJ : ∀ {P : Bytes → Prop} (w : World),
      w.azure.Has p.blob (fun c => Mirror p cache c ∧ P c) → I w :=
    fun w h => hB w (h.imp fun _ hc => hc.1)
  -- a renewal may be refused here; it changes no content
  have hrenew : ∀ {P : Bytes → Prop}, (∀ w : World, w.azure.Has p.blob P → I w) →
      RenewKeeps (.keeping diskServe I) p fun w => w.azure.Has p.blob P := by
    intro P hP id _ w x w' h hs
    obtain ⟨ch, -, hs⟩ := hs
    have h' := h.renew (respond_azure hs)
    exact ⟨fun _ => hP w' h', h'⟩
  exact {
    fact := fact_keeping fun a => a.Has p.blob _
    facts := fun _ _ _ => fact_keeping fun a => a.Has p.blob _
    mono := hS.mono
    renew := hrenew hB
    start := hS.start
    resize := fun hlt w x w' h hs => by
      obtain ⟨-, hbad, hgood⟩ := hS.resize hlt w x w' h (bounded_of_disk (by simp) hs)
      refine ⟨fun _ => ?_, hbad, hgood⟩
      by_cases hx : x.err = .ok
      · exact hJ w' (hgood hx)
      · exact hB w' (hbad hx)
    load := fun h => h.imp fun c hc => ⟨hc.1, hc.2.1, fun _ hk => hk.elim⟩
    flush := fun hc hl => {
      fact := fun _ _ => fact_keeping fun a => a.Has p.blob _
      mono := (hS.flush hc hl).mono
      put := fun hr A T w x w' h hs => by
        obtain ⟨-, hkeep, hput⟩ := (hS.flush hc hl).put hr A T w x w' h
          (bounded_of_disk (by simp) hs)
        exact ⟨fun _ => hJ w' hkeep, hkeep, hput⟩
      renew := fun _ _ => hrenew hJ }
    snap := fun loaded A T w x w' h hs => by
      obtain ⟨-, h'⟩ := hS.snap loaded A T w x w' h (bounded_of_disk (by simp) hs)
      exact ⟨fun _ => hJ w' h', h'⟩ }

end Setting

/-! ## Requests that replace or delete a blob -/

section Blobs

variable {a a' : Azure} {i j : BlobId} {d : Bytes} {c : Choice} {x : AzReply}

/-- An upload is refused, or the blob is the content. -/
theorem Azure.serve_upload (hs : a.serve c (.blockBlobUpload i d) = some (x, a')) :
    (x.err ≠ .ok ∧ a' = a) ∨ a'.Has i (· = d) := by
  rcases Azure.serve_cases hs with h | ⟨hok, rfl, -⟩
  · exact Or.inl h
  · exact Or.inr (Azure.putBlob_accepted hok).1

/-- A deletion is refused, or the blob is gone. -/
theorem Azure.serve_delete (hs : a.serve c (.blobDelete i) = some (x, a')) :
    (x.err ≠ .ok ∧ a' = a) ∨ a'.blobs i = none := by
  rcases Azure.serve_cases hs with h | ⟨hok, rfl, -⟩
  · exact Or.inl h
  right
  simp only [Azure.respond] at hok ⊢
  cases hb : a.blobs i with
  | none => simp only [hb]
  | some b =>
    simp only [hb] at hok ⊢
    by_cases hadm : b.admits none = true
    · rw [if_pos hadm]
      simp [Azure.set]
    · rw [if_neg hadm] at hok
      cases hok

/-- A request leaves the other blobs alone, also when it fails. -/
theorem Azure.serve_blobs_ne {r : AzReq} (hs : a.serve c r = some (x, a')) (h : j ≠ r.blob) :
    a'.blobs j = a.blobs j := by
  rcases Azure.serve_cases hs with ⟨-, rfl⟩ | ⟨-, rfl, -⟩
  · rfl
  · exact Azure.respond_blobs_ne a r h

/-- A program about one blob leaves the others alone, wherever it stops. -/
theorem blobs_ne_of_crashes {α : Type} {m : Prog α} {w w' : World} (hm : Uses (Touches i) m)
    (hj : j ≠ i) (h : Crashes diskServe m w w') : w'.azure.blobs j = w.azure.blobs j := by
  apply hm.inv_of_crashes (I := fun w' => w'.azure.blobs j = w.azure.blobs j) _ rfl h
  intro r w₁ x w₂ hr hs hw₁
  rw [← hw₁]
  cases r with
  | sys r =>
    exact (fact_keeping (I := fun _ => True) fun a => a.blobs j = w₁.azure.blobs j).sys r
      w₁ x w₂ hs rfl
  | azure r =>
    obtain ⟨ch, -, hs⟩ := hs
    apply Azure.serve_blobs_ne (respond_azure hs)
    rw [hr.1]
    exact hj

end Blobs

/-! ## The journal -/

/-- What a journal must be for a transaction on `db`. -/
structure RollsBack (playback : Bytes → Bytes → Bytes) (jrnl db : ObjsFile) (w : World) : Prop where
  kind : jrnl.eFileType = .mainJournal
  upload : jrnl.ops.blockBlobUpload = true
  written : 0 < jrnl.nJrnlData
  name : jrnl.zBlobName ≠ db.zBlobName
  undoes : Undoes playback jrnl.content db (w.azure.contentOf db.blob)
    (recovered playback jrnl.blob db.blob w.azure)

section Stages

variable {playback : Bytes → Bytes → Bytes} {v v' : VfsData} {jrnl db db' : ObjsFile} {rc : Rc}
  {w w' : World} {fd : Fd}

theorem RollsBack.blob_ne (h : RollsBack playback jrnl db w) : jrnl.blob ≠ db.blob := by
  intro heq
  exact h.name (congrArg BlobId.name heq)

/-- The upload of the journal, from anywhere in it. -/
theorem RollsBack.wp_journalSync (h : RollsBack playback jrnl db w) :
    wp (.keeping diskServe fun w' => w.azure.Replacing jrnl.blob jrnl.content w'.azure)
    (sqliteObjsSync v jrnl)
      (fun r w' => w'.disk = w.disk ∧
        (r.2.2 = .ok → w'.azure.Has jrnl.blob (· = jrnl.content))) w := by
  have hcontent : jrnl.content = jrnl.aJrnlData.truncate jrnl.nJrnlData := by
    unfold ObjsFile.content
    rw [h.kind]
  have hE := seen_keeping (w.azure.Replacing jrnl.blob jrnl.content)
  have hk : Knows id (fun w' => w.azure.Replacing jrnl.blob jrnl.content w'.azure) w.disk w :=
    ⟨Or.inl rfl, rfl⟩
  unfold sqliteObjsSync
  rw [h.kind]
  dsimp only
  rw [wp_bind]
  unfold journalSync azBlockBlobUpload
  rw [if_pos ⟨h.written, h.upload⟩, ← hcontent]
  refine SqliteObjs.wp_execute_bind ((fact_keeping _).knows_stable hE) hk ?_
  intro w₁ x w₂ hk₁ hs
  have hd : w₂.disk = w.disk := (hE.azure_disk hs).trans hk₁.2
  obtain ⟨ch, -, hs⟩ := hs
  have hup : w.azure.Replacing jrnl.blob jrnl.content w₂.azure ∧
      (x.err = .ok → w₂.azure.Has jrnl.blob (· = jrnl.content)) := by
    rcases Azure.serve_upload (respond_azure hs) with ⟨hx, ha⟩ | hhas
    · rw [ha]
      exact ⟨hk₁.1, fun hok => absurd hok hx⟩
    · exact ⟨Or.inr hhas, fun _ => hhas⟩
  refine ⟨fun _ => hup.1, fun _ => ⟨hup.1, hd⟩, ?_⟩
  split
  · exact wp_keeping_ret.mpr (wp_keeping_ret.mpr ⟨hd, fun hrc => by cases hrc⟩)
  · next hx =>
    exact wp_keeping_ret.mpr (wp_keeping_ret.mpr ⟨hd, fun _ => hup.2 (by simpa using hx)⟩)

/-- A crash in the upload of the journal loses nothing. -/
theorem RollsBack.journal_crash (h : RollsBack playback jrnl db w)
    (hc : Crashes diskServe (sqliteObjsSync v jrnl) w w') :
    recovered playback jrnl.blob db.blob w'.azure =
      recovered playback jrnl.blob db.blob w.azure := by
  have hdb : w'.azure.blobs db.blob = w.azure.blobs db.blob :=
    blobs_ne_of_crashes (within_sqliteObjsSync rfl).uses h.blob_ne.symm hc
  rcases wp_crashes h.wp_journalSync (Or.inl rfl) hc with hj | hj
  · exact recovered_congr hj hdb
  · rw [recovered_has hj]
    apply h.undoes
    intro k _
    unfold Azure.contentOf
    rw [hdb]

/-! ## The database -/

/-- The content agrees with the cache file but on dirty pages. -/
def Agrees (db : ObjsFile) (cache c : Bytes) : Prop :=
  ∀ k, db.dirty.bit (k / db.pageSize) = false → c.get k = cache.get k

/-- The flush of the database, from anywhere in it. -/
theorem Mirrors.wp_sync_keeping (hi : Mirrors db w) (hfd : db.cacheFd = some fd) :
    wp (.keeping diskServe fun w' => w'.azure.Has db.blob (Agrees db (w.disk.inode fd)))
      (sqliteObjsSync v db) (fun r w' => r.2.1.handle = db.handle ∧
        (r.2.2 = .ok → w'.azure.Has db.blob (· = w.disk.inode fd))) w := by
  obtain ⟨fd', hfd', b, hb, hm⟩ := hi.mirror
  obtain rfl : fd' = fd := Option.some.inj (hfd'.symm.trans hfd)
  have hI : ∀ c, Mirror db (w.disk.inode fd') c → ∀ w' : World, w'.azure.Has db.blob (· = c) →
      w'.azure.Has db.blob (Agrees db (w.disk.inode fd')) := by
    intro c hmc w' hhas
    apply hhas.imp
    rintro _ rfl k hk
    exact (hmc.clean k hk).symm
  unfold sqliteObjsSync
  rw [hi.kind]
  dsimp only
  rw [wp_bind]
  refine wp_mono ?_ ((syncing_keeping v db _ hI).wp_mainDbSync
    (seen_keeping fun a => a.Has db.blob (Agrees db (w.disk.inode fd')))
    (diskWorks_call .sync) hi.ops hfd hm rfl (show Knows id _ w.disk w from ⟨⟨b, hb, hm⟩, rfl⟩))
  rintro ⟨p', rc⟩ w₁ hend
  refine wp_keeping_ret.mpr ?_
  cases hend with
  | clean h0 hk =>
    exact ⟨rfl, fun _ => hk.1.imp fun c hc => hc.eq_of_clean (hm.counted.none_of_zero h0)⟩
  | early hrc _ => exact ⟨rfl, fun hok => absurd hok hrc⟩
  | late hrc _ => exact ⟨rfl, fun hok => absurd hok hrc⟩
  | done hcov hl _ _ hk =>
    exact ⟨rfl, fun _ => hk.1.imp fun c hc => eq_of_piecesIn hc.1 hc.2.1 hcov hl hc.2.2⟩

/-- Once the journal is there, it brings back what was. -/
theorem RollsBack.undo (h : RollsBack playback jrnl db w) (hi : Mirrors db w)
    (hfd : db.cacheFd = some fd) (hj : w'.azure.Has jrnl.blob (· = jrnl.content))
    (hdb : w'.azure.Has db.blob (Agrees db (w.disk.inode fd))) :
    recovered playback jrnl.blob db.blob w'.azure =
      recovered playback jrnl.blob db.blob w.azure := by
  obtain ⟨fd', hfd', b, hb, hm⟩ := hi.mirror
  obtain rfl : fd' = fd := Option.some.inj (hfd'.symm.trans hfd)
  obtain ⟨b', hb', hagree⟩ := hdb
  rw [recovered_has hj]
  apply h.undoes
  intro k hk
  simp only [Azure.contentOf, hb, hb']
  rw [hagree k hk, hm.clean k hk]

/-- What it mirrors is the blob and the cache file. -/
theorem Mirrors.congr (hi : Mirrors db w) (hd : w'.disk = w.disk)
    (hb : w'.azure.blobs db.blob = w.azure.blobs db.blob) : Mirrors db w' := by
  obtain ⟨fd, hfd, b, hblob, hm⟩ := hi.mirror
  refine ⟨hi.kind, hi.ops, fd, hfd, b, hb.trans hblob, ?_⟩
  rw [hd]
  exact hm

theorem Mirrors.agrees (hi : Mirrors db w) (hfd : db.cacheFd = some fd) :
    w.azure.Has db.blob (Agrees db (w.disk.inode fd)) := by
  obtain ⟨fd', hfd', hhas⟩ := hi.mirror
  obtain rfl : fd' = fd := Option.some.inj (hfd'.symm.trans hfd)
  exact hhas.imp fun c hm k hk => (hm.clean k hk).symm

/-! ## The deletion -/

/-- The request deletes a blob of that name. -/
def Deletes (name : String) : Req → Prop
  | .azure r => ∃ ctx, r = .blobDelete ⟨ctx, name⟩
  | .sys _ => True

theorem uses_sqliteObjsDelete (m : Option (AzureOps × Nat)) (name : String) :
    Uses (Deletes name) (sqliteObjsDelete v m name) := by
  unfold sqliteObjsDelete
  refine .ite trivial ?_
  split
  · trivial
  · refine .ite trivial (Within.uses_bind (within_executeWithRetry ⟨_, rfl⟩ _) fun x _ => ?_)
    exact .ite trivial (.ite trivial trivial)

/-- A crash in a deletion leaves every blob as it was, or that name is gone. -/
theorem delete_crash {m : Option (AzureOps × Nat)} {name : String}
    (hc : Crashes diskServe (sqliteObjsDelete v m name) w w') (i : BlobId) :
    w'.azure.blobs i = w.azure.blobs i ∨ (i.name = name ∧ w'.azure.blobs i = none) := by
  apply (uses_sqliteObjsDelete m name).inv_of_crashes (I := fun w' =>
    w'.azure.blobs i = w.azure.blobs i ∨ (i.name = name ∧ w'.azure.blobs i = none))
    _ (Or.inl rfl) hc
  intro r w₁ x w₂ hr hs hw₁
  cases r with
  | sys r => exact (fact_keeping (I := fun _ => True) fun a =>
      a.blobs i = w.azure.blobs i ∨ (i.name = name ∧ a.blobs i = none)).sys r w₁ x w₂ hs hw₁
  | azure r =>
    obtain ⟨ctx, rfl⟩ := hr
    obtain ⟨ch, -, hs⟩ := hs
    have hs := respond_azure hs
    by_cases hi : i = ⟨ctx, name⟩
    · subst hi
      rcases Azure.serve_delete hs with ⟨-, ha⟩ | hnone
      · rw [ha]
        exact hw₁
      · exact Or.inr ⟨rfl, hnone⟩
    · rw [Azure.serve_blobs_ne hs hi]
      exact hw₁

/-! ## The whole commit -/

/-- Wherever a commit stops, the database is the one before or the one after. -/
theorem RollsBack.commit_crash (h : RollsBack playback jrnl db w) (hi : Mirrors db w)
    (hfd : db.cacheFd = some fd) (hc : Crashes diskServe (commit v jrnl db) w w') :
    recovered playback jrnl.blob db.blob w'.azure = recovered playback jrnl.blob db.blob w.azure ∨
    recovered playback jrnl.blob db.blob w'.azure = w.disk.inode fd := by
  unfold commit at hc
  rcases hc.of_bind with hc | ⟨⟨v₁, q, rc⟩, w₁, hr₁, hc⟩
  · exact Or.inl (h.journal_crash hc)
  obtain ⟨hd, hj⟩ := runs_keeping h.wp_journalSync hr₁
  dsimp only at hc hd hj
  split at hc
  · obtain rfl := crashes_ret hc
    exact Or.inl (h.journal_crash (crashes_of_runs hr₁))
  next hrc =>
  -- the journal is there, and the database is still what it was
  have hj := hj (by simpa using hrc)
  have hdb : w₁.azure.blobs db.blob = w.azure.blobs db.blob :=
    blobs_ne_of_crashes (within_sqliteObjsSync rfl).uses h.blob_ne.symm (crashes_of_runs hr₁)
  have hi₁ := hi.congr hd hdb
  have hwp := hi₁.wp_sync_keeping (v := v₁) hfd
  rw [hd] at hwp
  have hflush : ∀ {w₂ : World}, Crashes diskServe (sqliteObjsSync v₁ db) w₁ w₂ →
      w₂.azure.Has jrnl.blob (· = jrnl.content) ∧
      w₂.azure.Has db.blob (Agrees db (w.disk.inode fd)) := by
    intro w₂ hc
    have hsame : w₂.azure.blobs jrnl.blob = w₁.azure.blobs jrnl.blob :=
      blobs_ne_of_crashes (within_sqliteObjsSync rfl).uses h.blob_ne hc
    refine ⟨?_, ?_⟩
    · obtain ⟨j, hb, he⟩ := hj
      exact ⟨j, hsame.trans hb, he⟩
    · apply wp_crashes hwp _ hc
      rw [← hd]
      exact hi₁.agrees hfd
  rcases hc.of_bind with hc | ⟨⟨v₂, db', rc₂⟩, w₂, hr₂, hc⟩
  · obtain ⟨hj', hdb'⟩ := hflush hc
    exact Or.inl (h.undo hi hfd hj' hdb')
  obtain ⟨hj₂, hdb₂⟩ := hflush (crashes_of_runs hr₂)
  obtain ⟨-, hnew⟩ := runs_keeping hwp hr₂
  dsimp only at hc hnew
  split at hc
  · obtain rfl := crashes_ret hc
    exact Or.inl (h.undo hi hfd hj₂ hdb₂)
  next hrc₂ =>
  -- both are there; the journal goes, or does not
  have hnew := hnew (by simpa using hrc₂)
  have hc : Crashes diskServe (sqliteObjsDelete v₂ (some (db'.ops, db'.opsCtx)) jrnl.zBlobName)
      w₂ w' := by
    rcases hc.of_bind with hc | ⟨_, w₃, hr₃, hc⟩
    · exact hc
    · obtain rfl := crashes_ret hc
      exact crashes_of_runs hr₃
  have hdb₃ : w'.azure.blobs db.blob = w₂.azure.blobs db.blob := by
    rcases delete_crash hc db.blob with hb | ⟨hname, -⟩
    · exact hb
    · exact absurd hname.symm h.name
  obtain ⟨b, hb, hcontent⟩ := hnew
  rcases delete_crash hc jrnl.blob with hsame | ⟨-, hgone⟩
  · left
    obtain ⟨j, hjb, hjc⟩ := hj₂
    obtain ⟨b', hb', hagree⟩ := hdb₂
    exact h.undo hi hfd ⟨j, hsame.trans hjb, hjc⟩ ⟨b', hdb₃.trans hb', hagree⟩
  · right
    rw [recovered_none hgone]
    exact Azure.Has.contentOf ⟨b, hdb₃.trans hb, hcontent⟩

/-! ## A commit that reports success -/

/-- The same, where no failure is reported as a missing blob. -/
def truthfulServe (r : Req) (w : World) (x : Ans r) (w' : World) : Prop :=
  ∃ c, DbCall.sync.allows r c ∧ (∀ applied, c.fault ≠ some (.notFound, applied)) ∧
    World.respond c r w = some (x, w')

theorem disk_of_truthful {r : Req} {x : Ans r} (h : truthfulServe r w x w') :
    diskServe r w x w' := by
  obtain ⟨c, hc, -, hs⟩ := h
  exact ⟨c, hc, hs⟩

theorem resolveOps_congr (hv : v'.client = v.client) (m : Option (AzureOps × Nat)) (name : String) :
    resolveOps v' m name = resolveOps v m name := by
  unfold VfsData.client at hv
  unfold resolveOps
  cases h : v.ops with
  | none =>
    rw [h] at hv
    rw [Option.map_eq_none_iff.mp hv]
  | some ops =>
    rw [h] at hv
    obtain ⟨ops', hops', heq⟩ := Option.map_eq_some_iff.mp hv
    rw [hops']
    exact congrArg some heq

/-- A deletion that reports success deleted the blob, perhaps in an attempt that seemed to fail. -/
theorem delete_done {m : Option (AzureOps × Nat)} {ops : AzureOps} {ctx : Nat} {name : String}
    (hres : resolveOps v m name = some (ops, ctx))
    (hr : Runs truthfulServe (sqliteObjsDelete v m name) w (v', .done .ok) w') :
    w'.azure.blobs ⟨ctx, name⟩ = none := by
  have hwp : wp (.alone truthfulServe) (sqliteObjsDelete v m name)
      (fun r w' => r.2 = .done .ok → w'.azure.blobs ⟨ctx, name⟩ = none) w := by
    unfold sqliteObjsDelete
    rw [hres]
    split
    · exact wp_alone_ret.mpr fun h => by cases h
    dsimp only
    split
    · exact wp_alone_ret.mpr fun h => by cases h
    unfold azBlobDelete
    refine SqliteObjs.wp_execute_bind (I := fun _ => True) stable_alone trivial ?_
    intro w₁ x w₂ _ hs
    refine ⟨trivial, fun _ => trivial, ?_⟩
    obtain ⟨c, -, hfault, hs⟩ := hs
    have hs := respond_azure hs
    have hgone : x.err = .ok ∨ x.err = .notFound → w₂.azure.blobs ⟨ctx, name⟩ = none := by
      intro hx
      rcases Azure.serve_delete hs with ⟨hne, ha⟩ | hnone
      · have hx := hx.resolve_left hne
        rw [ha]
        -- a missing blob is the service's answer, not a fault
        cases hf : c.fault with
        | some f =>
          obtain ⟨e, applied⟩ := f
          simp only [Azure.serve, hf] at hs
          split at hs
          · cases hs
          · obtain ⟨rfl, -⟩ := Prod.mk.inj (Option.some.inj hs)
            obtain rfl : e = .notFound := hx
            exact absurd hf (hfault applied)
        | none =>
          obtain ⟨-, hans⟩ := Azure.serve_healthy hf hs
          rw [hans] at hx
          simp only [Azure.respond] at hx
          cases hb : w₁.azure.blobs ⟨ctx, name⟩ with
          | none => rfl
          | some b =>
            simp only [hb] at hx
            split at hx <;> cases hx
      · exact hnone
    split
    · next hx => exact wp_alone_ret.mpr fun _ => hgone (Or.inr hx)
    split
    · exact wp_alone_ret.mpr fun h => by cases h
    · next hx => exact wp_alone_ret.mpr fun _ => hgone (Or.inl (by simpa using hx))
  exact wp_alone_iff.mp hwp _ _ hr rfl

/-- After a commit that reports success the journal is gone and the blob is the cache file. -/
theorem RollsBack.commit_done (h : RollsBack playback jrnl db w) (hi : Mirrors db w)
    (hfd : db.cacheFd = some fd) {ops : AzureOps}
    (hres : resolveOps v (some (db.ops, db.opsCtx)) jrnl.zBlobName = some (ops, jrnl.opsCtx))
    (hr : Runs truthfulServe (commit v jrnl db) w (db', .done .ok) w') :
    w'.azure.blobs jrnl.blob = none ∧ w'.azure.Has db.blob (· = w.disk.inode fd) := by
  unfold commit at hr
  obtain ⟨⟨v₁, q, rc⟩, w₁, hr₁, hr⟩ := hr.of_bind
  dsimp only at hr
  split at hr
  · next hrc =>
    obtain ⟨heq, -⟩ := runs_ret hr
    obtain ⟨-, hdone⟩ := Prod.mk.inj heq
    exact absurd (Delegated.done.inj hdone).symm hrc
  have hr₁' := hr₁.mono fun _ _ _ _ hs => disk_of_truthful hs
  obtain ⟨hd, -⟩ := runs_keeping h.wp_journalSync hr₁'
  have hdb : w₁.azure.blobs db.blob = w.azure.blobs db.blob :=
    blobs_ne_of_crashes (within_sqliteObjsSync rfl).uses h.blob_ne.symm (crashes_of_runs hr₁')
  have hwp := (hi.congr hd hdb).wp_sync_keeping (v := v₁) hfd
  rw [hd] at hwp
  obtain ⟨⟨v₂, db₂, rc₂⟩, w₂, hr₂, hr⟩ := hr.of_bind
  dsimp only at hr
  split at hr
  · next hrc =>
    obtain ⟨heq, -⟩ := runs_ret hr
    obtain ⟨-, hdone⟩ := Prod.mk.inj heq
    exact absurd (Delegated.done.inj hdone).symm hrc
  next hrc₂ =>
  obtain ⟨hhandle, hnew⟩ := runs_keeping hwp (hr₂.mono fun _ _ _ _ hs => disk_of_truthful hs)
  have hnew := hnew (by simpa using hrc₂)
  -- the syncs do not change which account the journal's name belongs to
  have hv₁ := ((within_sqliteObjsSync rfl).of_runs hr₁).1.client
  have hv₂ := ((within_sqliteObjsSync rfl).of_runs hr₂).1.client
  have hres₂ : resolveOps v₂ (some (db₂.ops, db₂.opsCtx)) jrnl.zBlobName =
      some (ops, jrnl.opsCtx) := by
    have hops : db₂.ops = db.ops := congrArg Handle.ops hhandle
    have hctx : db₂.opsCtx = db.opsCtx := congrArg Handle.opsCtx hhandle
    rw [hops, hctx, resolveOps_congr (hv₂.trans hv₁)]
    exact hres
  obtain ⟨⟨v₃, r⟩, w₃, hr₃, hr⟩ := hr.of_bind
  obtain ⟨heq, rfl⟩ := runs_ret hr
  obtain ⟨-, rfl⟩ := Prod.mk.inj heq
  refine ⟨delete_done hres₂ hr₃, ?_⟩
  obtain ⟨b, hb, hcontent⟩ := hnew
  have hc₃ := crashes_of_runs (hr₃.mono fun _ _ _ _ hs => disk_of_truthful hs)
  rcases delete_crash hc₃ db.blob with hsame | ⟨hname, -⟩
  · exact ⟨b, hsame.trans hb, hcontent⟩
  · exact absurd hname.symm h.name

end Stages

/-! ## From `xOpen` -/

section Main

variable {playback : Bytes → Bytes → Bytes} {v v₁ v₂ : VfsData} {uri : UriParams} {name : String}
  {create : Bool} {ops jops : AzureOps} {ctx : Nat} {p₁ jrnl db db' : ObjsFile} {w₀ w₁ w w' : World}
  {fd : Fd}

/-- Whatever was written, truncated and synced before, and wherever a commit stops: who opens the
database next has the content before the transaction or the one in the cache file. -/
theorem commit_atomic (hmode : uri.prefetch = .all) (hsel : selectedOps v uri = some (ops, ctx))
    (hops : ops.Complete)
    (hpages : ∀ b, w₀.azure.blobs ⟨ctx, name⟩ = some b → 512 ∣ b.content.size)
    (hopen : Runs (World.served Sound) (sqliteObjsOpen v name uri .mainDb create) w₀
      (v₁, .ok p₁) w₁)
    (hsmall : pagesOf p₁.nData p₁.pageSize ≤ maxPages)
    (hreuse : uri.cacheReuse = true → CacheIsBlob p₁ w₁)
    {eLock : LockLevel} {lease : Option LeaseId} {t n : Nat}
    (hreach : (boundedSession v).Reach { p₁ with
      eLock := eLock, leaseId := lease, leaseAcquiredAt := t, leaseDuration := n } w₁ db w)
    (hfd : db.cacheFd = some fd) (hjrnl : RollsBack playback jrnl db w)
    (hcrash : Crashes diskServe (commit v₂ jrnl db) w w') :
    recovered playback jrnl.blob db.blob w'.azure = recovered playback jrnl.blob db.blob w.azure ∨
    recovered playback jrnl.blob db.blob w'.azure = w.disk.inode fd := by
  obtain ⟨-, hopened⟩ := wp_alone_iff.mp (wp_sqliteObjsOpen_sound hmode hsel hops) _ _ hopen
  have hstart := (hopened p₁ rfl).mirrors hops hpages hsmall hreuse eLock lease t n
  exact hjrnl.commit_crash (hstart.reach hreach) hfd hcrash

/-- When the commit reports success it is the cache file, and no journal is left. -/
theorem commit_lasts (hmode : uri.prefetch = .all) (hsel : selectedOps v uri = some (ops, ctx))
    (hops : ops.Complete)
    (hpages : ∀ b, w₀.azure.blobs ⟨ctx, name⟩ = some b → 512 ∣ b.content.size)
    (hopen : Runs (World.served Sound) (sqliteObjsOpen v name uri .mainDb create) w₀
      (v₁, .ok p₁) w₁)
    (hsmall : pagesOf p₁.nData p₁.pageSize ≤ maxPages)
    (hreuse : uri.cacheReuse = true → CacheIsBlob p₁ w₁)
    {eLock : LockLevel} {lease : Option LeaseId} {t n : Nat}
    (hreach : (boundedSession v).Reach { p₁ with
      eLock := eLock, leaseId := lease, leaseAcquiredAt := t, leaseDuration := n } w₁ db w)
    (hfd : db.cacheFd = some fd) (hjrnl : RollsBack playback jrnl db w)
    (hres : resolveOps v₂ (some (db.ops, db.opsCtx)) jrnl.zBlobName = some (jops, jrnl.opsCtx))
    (hcommit : Runs truthfulServe (commit v₂ jrnl db) w (db', .done .ok) w') :
    w'.azure.blobs jrnl.blob = none ∧
      recovered playback jrnl.blob db.blob w'.azure = w.disk.inode fd := by
  obtain ⟨-, hopened⟩ := wp_alone_iff.mp (wp_sqliteObjsOpen_sound hmode hsel hops) _ _ hopen
  have hstart := (hopened p₁ rfl).mirrors hops hpages hsmall hreuse eLock lease t n
  obtain ⟨hgone, hnew⟩ := hjrnl.commit_done (hstart.reach hreach) hfd hres hcommit
  refine ⟨hgone, ?_⟩
  rw [recovered_none hgone]
  exact hnew.contentOf

end Main

/-! ## A transaction on the second page -/

def readBE32 (d : Bytes) (off : Nat) : Nat :=
  (((d.get off).toNat * 256 + (d.get (off + 1)).toNat) * 256 + (d.get (off + 2)).toNat) * 256 +
    (d.get (off + 3)).toNat

/-- Put back the pages of `n` records: a page number, the page and a checksum each. -/
def playbackRecords (jrnl : Bytes) (pageSize : Nat) : Nat → Nat → Bytes → Bytes
  | 0, _, c => c
  | n + 1, off, c =>
    playbackRecords jrnl pageSize n (off + 8 + pageSize)
      (c.pwrite ((readBE32 jrnl off - 1) * pageSize) (jrnl.slice (off + 4) pageSize))

/-- SQLite's playback of a journal with one header and intact records. -/
def pagerPlayback (jrnl c : Bytes) : Bytes :=
  let nRec := readBE32 jrnl 8
  let dbOrigSize := readBE32 jrnl 16
  let sectorSize := readBE32 jrnl 20
  let pageSize := readBE32 jrnl 24
  if readBE32 jrnl 0 = 0xd9d505f9 ∧ readBE32 jrnl 4 = 0x20a163d7 then
    playbackRecords jrnl pageSize nRec sectorSize (c.truncate (dbOrigSize * pageSize))
  else c

/-- A journal header, for pages of 512 bytes. -/
def journalHeader (nRec dbOrigSize : UInt8) : Bytes :=
  let magic := [0xd9, 0xd5, 0x05, 0xf9, 0x20, 0xa1, 0x63, 0xd7]
  let cksumInit := [0, 0, 0, 0]
  let sectorSize := [0, 0, 2, 0]
  let pageSize := [0, 0, 2, 0]
  SparseFile.ofFn 512 fun i =>
    (magic ++ [0, 0, 0, nRec] ++ cksumInit ++ [0, 0, 0, dbOrigSize] ++ sectorSize ++
      pageSize)[i]?.getD 0

/-- A database of two pages. -/
def twoPageDb : Bytes := SparseFile.ofFn 1024 fun i => (sqliteMagic ++ [2, 0])[i]?.getD 5

/-- An account with that database. -/
def twoPageWorld : World :=
  { World.new with azure := World.new.azure.create ⟨0, "db"⟩ twoPageDb }

/-- A journal with the second page of that database. -/
def secondPageRecord : Bytes :=
  (((journalHeader 1 2).truncate 1032).pwrite 512
    (SparseFile.ofFn 4 fun i => [0, 0, 0, 2][i]?.getD 0)).pwrite 516 (twoPageDb.slice 512 512)

/-- The journal of a transaction on the second page. -/
def secondPageJournal : ObjsFile :=
  { newFile azureProductionOps 0 "db-journal" {} .mainJournal with
    aJrnlData := secondPageRecord, nJrnlData := 1032 }

/-- What the transaction writes to it. -/
def changedPage : Bytes := SparseFile.ofFn 512 fun _ => 9

section SecondPage

variable {db : ObjsFile} {w : World}

/-- The record puts back the second page; the first page has to be there. -/
theorem pagerPlayback_secondPage {c : Bytes} (hc : ∀ k, k < 512 → c.get k = twoPageDb.get k) :
    pagerPlayback secondPageRecord c = twoPageDb := by
  have hmagic : readBE32 secondPageRecord 0 = 0xd9d505f9 ∧
      readBE32 secondPageRecord 4 = 0x20a163d7 :=
    ⟨rfl, rfl⟩
  have hrecords : readBE32 secondPageRecord 8 = 1 := rfl
  have horig : readBE32 secondPageRecord 16 = 2 := rfl
  have hsector : readBE32 secondPageRecord 20 = 512 := rfl
  have hpages : readBE32 secondPageRecord 24 = 512 := rfl
  have hnumber : readBE32 secondPageRecord 512 = 2 := rfl
  have hplay : pagerPlayback secondPageRecord c =
      (c.truncate 1024).pwrite 512 (secondPageRecord.slice 516 512) := by
    unfold pagerPlayback
    rw [if_pos hmagic, hrecords, horig, hsector, hpages]
    simp only [playbackRecords, hnumber]
  have hlen : secondPageRecord.size = 1032 := by decide
  have hsize : (secondPageRecord.slice 516 512).size = 512 := by
    rw [SparseFile.slice_size, hlen]
    rfl
  rw [hplay]
  apply SparseFile.ext
  · rw [SparseFile.pwrite_size_of_le]
    · rfl
    · rw [hsize, SparseFile.truncate_size]
  intro i
  rw [SparseFile.pwrite_get, hsize]
  split
  · next h =>
    -- the page begins after the sector of the header and its number
    rw [SparseFile.slice_get_of_lt _ (by omega), show 516 + (i - 512) = i + 4 by omega]
    unfold secondPageRecord
    rw [SparseFile.pwrite_get_of_mem _ _ (by omega) (show i + 4 < 516 + 512 by omega),
      SparseFile.slice_get_of_lt _ (by omega), show 512 + (i + 4 - 516) = i by omega]
  · next h =>
    rw [SparseFile.truncate_get]
    split
    · exact hc i (by omega)
    · exact (twoPageDb.get_past i (show 1024 ≤ i by omega)).symm

theorem rollsBack_secondPage (hname : db.zBlobName = "db") (hps : db.pageSize = 512)
    (hclean : db.dirty.bit 0 = false) (hblob : w.azure.contentOf db.blob = twoPageDb)
    (hold : recovered pagerPlayback secondPageJournal.blob db.blob w.azure = twoPageDb) :
    RollsBack pagerPlayback secondPageJournal db w := by
  refine ⟨rfl, rfl, by decide, ?_, ?_⟩
  · rw [hname]
    decide
  · intro c hc
    have hcontent : secondPageJournal.content = secondPageRecord :=
      SparseFile.truncate_self secondPageRecord
    rw [hold, hcontent]
    apply pagerPlayback_secondPage
    intro k hk
    rw [← hblob]
    apply hc
    rw [hps, Nat.div_eq_of_lt hk]
    exact hclean

theorem twoPageWorld_sectors :
    ∀ b, twoPageWorld.azure.blobs ⟨0, "db"⟩ = some b → 512 ∣ b.content.size := by
  intro b hb
  obtain rfl := Option.some.inj hb
  exact ⟨2, rfl⟩

set_option maxRecDepth 8000 in
/-- The database is opened, its second page is written, and the commit succeeds. -/
theorem runs_secondPage : ∃ p₁ w₁ db w db' w',
    Runs (World.served Sound) (sqliteObjsOpen (.new 0) "db" {} .mainDb false) twoPageWorld
      (.new 0, .ok p₁) w₁ ∧ pagesOf p₁.nData p₁.pageSize ≤ maxPages ∧
    (boundedSession (.new 0)).Reach p₁ w₁ db w ∧ db.cacheFd = some 0 ∧
    RollsBack pagerPlayback secondPageJournal db w ∧
    recovered pagerPlayback secondPageJournal.blob db.blob w.azure = twoPageDb ∧
    (w.disk.inode 0).get 512 = 9 ∧
    resolveOps (.new 0) (some (db.ops, db.opsCtx)) secondPageJournal.zBlobName =
      some (azureProductionOps, secondPageJournal.opsCtx) ∧
    Runs truthfulServe (commit (.new 0) secondPageJournal db) w (db', .done .ok) w' := by
  obtain ⟨p₁, w₁, db, w, db', w', hopen, hsmall, hreach, hfd, hname, hps, hclean, hblob, hold, hnew,
      hres, hrun⟩ : ∃ p₁ w₁ db w db' w',
      Runs (World.served Sound) (sqliteObjsOpen (.new 0) "db" {} .mainDb false) twoPageWorld
        (.new 0, .ok p₁) w₁ ∧ pagesOf p₁.nData p₁.pageSize ≤ maxPages ∧
      (boundedSession (.new 0)).Reach p₁ w₁ db w ∧ db.cacheFd = some 0 ∧ db.zBlobName = "db" ∧
      db.pageSize = 512 ∧ db.dirty.bit 0 = false ∧ w.azure.contentOf db.blob = twoPageDb ∧
      recovered pagerPlayback secondPageJournal.blob db.blob w.azure = twoPageDb ∧
      (w.disk.inode 0).get 512 = 9 ∧
      resolveOps (.new 0) (some (db.ops, db.opsCtx)) secondPageJournal.zBlobName =
        some (azureProductionOps, secondPageJournal.opsCtx) ∧
      Runs (World.served Sound) (commit (.new 0) secondPageJournal db) w (db', .done .ok) w' :=
    ⟨_, _, _, _, _, _, runs_sound 11 rfl, by decide,
      .call (.write changedPage 512) .refl
        ⟨⟨by decide, by decide, by decide⟩, show pagesOf _ _ ≤ maxPages by decide⟩
        (runs_flawless 4 rfl) trivial, rfl, rfl, rfl, rfl, rfl, rfl, rfl, rfl, runs_sound 12 rfl⟩
  have hjrnl := rollsBack_secondPage hname hps hclean hblob hold
  refine ⟨p₁, w₁, db, w, db', w', hopen, hsmall, hreach, hfd, hjrnl, hold, hnew, hres, ?_⟩
  apply hrun.mono
  rintro r w₁ x w₂ ⟨c, hc, hs⟩
  refine ⟨c, ?_, fun applied hf => ?_, hs⟩
  · cases r with
    | azure r => exact fun _ => hc.1
    | sys r => exact fun _ => hc.2
  · rw [hc.1] at hf
    cases hf

theorem commit_atomic_second_page : ∃ db w,
    recovered pagerPlayback secondPageJournal.blob db.blob w.azure = twoPageDb ∧
    (w.disk.inode 0).get 512 = 9 ∧
    ∀ w', Crashes diskServe (commit (.new 0) secondPageJournal db) w w' →
      recovered pagerPlayback secondPageJournal.blob db.blob w'.azure =
        recovered pagerPlayback secondPageJournal.blob db.blob w.azure ∨
      recovered pagerPlayback secondPageJournal.blob db.blob w'.azure = w.disk.inode 0 := by
  obtain ⟨p₁, w₁, db, w, db', w', hopen, hsmall, hreach, hfd, hjrnl, hold, hnew, -, -⟩ :=
    runs_secondPage
  exact ⟨db, w, hold, hnew, fun w' hc => commit_atomic rfl rfl complete_production
    twoPageWorld_sectors hopen hsmall (fun h => by cases h) hreach hfd hjrnl hc⟩

theorem commit_lasts_second_page : ∃ db w db' w',
    recovered pagerPlayback secondPageJournal.blob db.blob w.azure = twoPageDb ∧
    Runs truthfulServe (commit (.new 0) secondPageJournal db) w (db', .done .ok) w' ∧
    (w.disk.inode 0).get 512 = 9 ∧ w'.azure.blobs secondPageJournal.blob = none ∧
    recovered pagerPlayback secondPageJournal.blob db.blob w'.azure = w.disk.inode 0 := by
  obtain ⟨p₁, w₁, db, w, db', w', hopen, hsmall, hreach, hfd, hjrnl, hold, hnew, hres, hcommit⟩ :=
    runs_secondPage
  exact ⟨db, w, db', w', hold, hcommit, hnew, commit_lasts rfl rfl complete_production
    twoPageWorld_sectors hopen hsmall (fun h => by cases h) hreach hfd hjrnl hres hcommit⟩

end SecondPage

end SqliteObjs
