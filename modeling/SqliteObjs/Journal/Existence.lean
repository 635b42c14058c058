import SqliteObjs.Vfs.Alone

/-!
# The journal cache of one process

A process that is the only writer of its container remembers which journals exist.
Requests may fail, with or without having taken effect. `journal_cache_sound` says
when a remembered absence can be trusted: two calls can store a wrong one, `xOpen`
when its `HEAD` failed and `xSync` when a failed upload took effect. `xAccess`
reports a missing journal when its own `HEAD` failed, and stores nothing then.
-/

set_option autoImplicit false

namespace SqliteObjs

open Data CS CS.Program

/-- No fault claims that a blob is missing. -/
def Transient (c : Choice) : Prop := ∀ e b, c.fault = some (e, b) → e ≠ .notFound

theorem transient_default : Transient {} := by
  intro e b he
  cases he

/-- A request or its answer was lost. -/
theorem transient_network {applied : Bool} : Transient { fault := some (.network, applied) } := by
  intro e b he
  cases he
  decide

/-- A world with the answers to the `HEAD` requests so far, the last one first. -/
structure Recorded where
  world : World
  heads : List AzErr

namespace Recorded

/-- The record after an answer. -/
def headsAfter : (r : Req) → Ans r → List AzErr → List AzErr
  | .azure (.blobGetProperties _), x, heads => AzReply.err x :: heads
  | _, _, heads => heads

/-- The answer to a request, recorded. -/
def respond (c : Choice) (r : Req) (w : Recorded) : Option (Ans r × Recorded) :=
  (World.respond c r w.world).map fun xw => (xw.1, ⟨xw.2, headsAfter r xw.1 w.heads⟩)

/-- Answers under transient faults. -/
abbrev served : (r : Req) → Recorded → Ans r → Recorded → Prop := Served Transient respond

theorem of_served {r : Req} {w w' : Recorded} {x : Ans r} (h : served r w x w') :
    World.served Transient r w.world x w'.world ∧ w'.heads = headsAfter r x w.heads := by
  obtain ⟨c, hc, hs⟩ := h
  simp only [respond, Option.map_eq_some_iff, Prod.mk.injEq] at hs
  obtain ⟨⟨x', w₁⟩, hs, rfl, rfl⟩ := hs
  exact ⟨⟨c, hc, hs⟩, rfl⟩

/-- The container's blob of a name is missing. -/
def Missing (ctx : Nat) (name : String) (w : Recorded) : Prop :=
  w.world.azure.blobs ⟨ctx, name⟩ = none

/-- A `HEAD` was sent and the last one failed. -/
def HeadFailed (w w' : Recorded) : Prop :=
  ∃ e es, w'.heads = e :: es ∧ w.heads.length ≤ es.length ∧ e ≠ .ok ∧ e ≠ .notFound

end Recorded

/-! ## Sessions on journals -/

/-- The calls that read or write the journal cache. -/
inductive JournalCall
  | open (name : String) (uri : UriParams) (create : Bool)
  | sync (p : ObjsFile)
  | delete (mainFile : Option (AzureOps × Nat)) (name : String)
  | access (mainFile : Option (AzureOps × Nat)) (name : String) (flags : AccessFlag)

/-- What the last call returned. -/
inductive JournalResult
  | start
  | opened (rc : Rc)
  | synced (rc : Rc)
  | deleted (r : Delegated Rc)
  | accessed (r : Delegated Bool)

def JournalCall.code : JournalCall → VfsData × JournalResult → Prog (VfsData × JournalResult)
  | .open name uri create, (v, _) => do
    let (v, r) ← sqliteObjsOpen v name uri .mainJournal create
    return (v, .opened (match r with | .ok _ => .ok | .error rc => rc))
  | .sync p, (v, _) => do
    let (v, _, rc) ← sqliteObjsSync v p
    return (v, .synced rc)
  | .delete mainFile name, (v, _) => do
    let (v, r) ← sqliteObjsDelete v mainFile name
    return (v, .deleted r)
  | .access mainFile name flags, (v, _) => do
    let (v, r) ← sqliteObjsAccess v mainFile name flags
    return (v, .accessed r)

/-- The call is about journals of the container `ctx`. -/
def JournalCall.inContainer (ctx : Nat) : JournalCall → VfsData → Prop
  | .open _ uri _, v => ∀ ops c, selectedOps v uri = some (ops, c) → c = ctx
  | .sync p, _ => p.eFileType = .mainJournal ∧ p.opsCtx = ctx
  | .delete mainFile name, v | .access mainFile name _, v =>
    ∀ ops c, resolveOps v mainFile name = some (ops, c) → c = ctx

/-- Any sequence of these calls by the only writer of the container. -/
def journalSession (ctx : Nat) : Session Recorded Ans (VfsData × JournalResult) JournalCall where
  code := JournalCall.code
  may c s _ := c.inContainer ctx s.1
  serve _ _ := Recorded.served

/-- The existence check of an `xOpen` did not fail, and an upload of an `xSync` that
failed did not create the blob. -/
def JournalKept (ctx : Nat) : JournalCall → VfsData × JournalResult → Recorded →
    VfsData × JournalResult → Recorded → Prop
  | .open _ _ _, _, w, _, w' => ¬ Recorded.HeadFailed w w'
  | .sync p, _, w, s', w' => s'.2 = .synced .ok ∨
      (w.Missing ctx p.zBlobName → w'.Missing ctx p.zBlobName)
  | _, _, _, _, _ => True

/-- A remembered absence is true. -/
def AbsenceTrue (ctx : Nat) (v : VfsData) (w : Recorded) : Prop :=
  ∀ name, journalCacheState v name = some false → w.Missing ctx name

/-! ## Requests under transient faults -/

section Requests

variable {w w' : Recorded} {i : BlobId} {ctx : Nat}

/-- An answer is the service's, or a fault with or without the effect. -/
theorem served_transient {w w' : World} {r : AzReq} {x : AzReply}
    (h : World.served Transient (.azure r) w x w') :
    (x.err = (w.azure.respond r).1.err ∧ w'.azure = (w.azure.respond r).2) ∨
    (x.err ≠ .ok ∧ x.err ≠ .notFound ∧
      (w'.azure = w.azure ∨ w'.azure = (w.azure.respond r).2)) := by
  obtain ⟨c, hc, hs⟩ := h
  simp only [World.respond, Option.map_eq_some_iff, Prod.mk.injEq] at hs
  obtain ⟨⟨x', a'⟩, hs, rfl, rfl⟩ := hs
  unfold Azure.serve at hs
  cases hf : c.fault with
  | none =>
    refine Or.inl ?_
    rw [hf] at hs
    cases r <;> simp only [Option.some.injEq] at hs <;>
      exact ⟨(congrArg (fun xa => xa.1.err) hs).symm, (congrArg Prod.snd hs).symm⟩
  | some f =>
    obtain ⟨e, applied⟩ := f
    rw [hf] at hs
    dsimp only at hs
    split at hs
    · cases hs
    · next he =>
      simp only [Option.some.injEq, Prod.mk.injEq] at hs
      obtain ⟨rfl, rfl⟩ := hs
      refine Or.inr ⟨he, hc e applied hf, ?_⟩
      cases applied with
      | true => exact Or.inr rfl
      | false => exact Or.inl rfl

theorem quiet_recorded : Quiet (.alone Recorded.served) := by
  rintro r hr ⟨w, heads⟩ x ⟨w', heads'⟩ h
  obtain ⟨hs, hh⟩ := Recorded.of_served h
  obtain ⟨rfl, -⟩ := quiet_alone r hr w x w' hs
  exact ⟨by rw [Recorded.mk.injEq]; exact ⟨rfl, hh⟩, trivial⟩

/-- A `HEAD` only looks. -/
theorem served_head {x : AzReply} (h : Recorded.served (.azure (.blobGetProperties i)) w x w') :
    w'.world.azure = w.world.azure ∧ w'.heads = x.err :: w.heads ∧
      (x.err = .ok → (w.world.azure.blobs i).isSome) ∧
      (x.err = .notFound → w.world.azure.blobs i = none) := by
  obtain ⟨hs, hh⟩ := Recorded.of_served h
  have hafter : (w.world.azure.respond (.blobGetProperties i)).2 = w.world.azure :=
    congrArg World.azure (World.after_getProperties w.world i)
  have herr : (w.world.azure.respond (.blobGetProperties i)).1.err =
      if (w.world.azure.blobs i).isSome then .ok else .notFound := by
    simp only [Azure.respond]
    cases w.world.azure.blobs i <;> rfl
  rcases served_transient hs with ⟨he, ha⟩ | ⟨he, hn, ha⟩
  · rw [hafter] at ha
    rw [herr] at he
    refine ⟨ha, hh, ?_, ?_⟩
    · intro ho
      by_contra hno
      rw [if_neg hno, ho] at he
      exact AzErr.noConfusion he
    · intro ho
      by_contra hno
      rw [if_pos (Option.isSome_iff_ne_none.mpr hno), ho] at he
      exact AzErr.noConfusion he
  · rw [hafter, or_self] at ha
    exact ⟨ha, hh, fun h => absurd h he, fun h => absurd h hn⟩

/-- The existence check: an error says that its `HEAD` failed, and otherwise the
answer is right. -/
theorem wp_azBlobExists_recorded {α : Type} {f : AzErr × Bool → Prog α}
    {Q : α → Recorded → Prop}
    (h : ∀ arc ex w', w'.world.azure = w.world.azure →
      (arc = .ok → ex = (w.world.azure.blobs i).isSome) →
      (arc ≠ .ok → ex = false ∧ w.HeadFailed w') → wp (.alone Recorded.served) (f (arc, ex)) Q w') :
    wp (.alone Recorded.served) (azBlobExists i >>= f) Q w := by
  rw [wp_bind]
  unfold azBlobExists azBlobGetProperties
  refine wp_execute_bind (I := fun w' => w'.world.azure = w.world.azure ∧
    w.heads.length ≤ w'.heads.length) stable_alone ⟨rfl, Nat.le_refl _⟩ ?_
  rintro w₁ x w₂ ⟨ha, hl⟩ hs
  obtain ⟨ha', hh, hok, hnf⟩ := served_head hs
  rw [ha] at ha' hok hnf
  refine ⟨trivial, fun _ => ⟨ha', by rw [hh, List.length_cons]; omega⟩, ?_⟩
  split
  · next he =>
    exact wp_alone_ret.mpr (h _ _ _ ha' (fun _ => (hok he).symm) fun h => absurd rfl h)
  next he =>
  split
  · next hn =>
    exact wp_alone_ret.mpr (h _ _ _ ha' (fun _ => by simp [hnf hn]) fun h => absurd rfl h)
  · next hn =>
    exact wp_alone_ret.mpr (h _ _ _ ha' (fun h => absurd h he)
      fun _ => ⟨rfl, x.err, w₁.heads, hh, hl, he, hn⟩)

/-- A request that is not a `HEAD` leaves the record alone. -/
theorem served_other {r : AzReq} {x : AzReply} (hr : ∀ i, r ≠ .blobGetProperties i)
    (h : Recorded.served (.azure r) w x w') :
    w'.heads = w.heads ∧ World.served Transient (.azure r) w.world x w'.world := by
  obtain ⟨hs, hh⟩ := Recorded.of_served h
  refine ⟨?_, hs⟩
  rw [hh]
  cases r with
  | blobGetProperties i => exact absurd rfl (hr i)
  | _ => rfl

/-- A request leaves the other blobs alone, whatever the answer. -/
theorem served_frame {r : AzReq} {x : AzReply} {j : BlobId} (hj : j ≠ r.blob)
    (h : Recorded.served (.azure r) w x w') :
    w'.world.azure.blobs j = w.world.azure.blobs j := by
  rcases served_transient (Recorded.of_served h).1 with ⟨-, ha⟩ | ⟨-, -, ha | ha⟩
  · rw [ha, Azure.respond_blobs_ne _ _ hj]
  · rw [ha]
  · rw [ha, Azure.respond_blobs_ne _ _ hj]

end Requests

/-! ## The calls -/

section Calls

variable {w w' : Recorded} {v : VfsData} {ctx : Nat} {name : String}

/-- Storing a right answer keeps the remembered absences true. -/
theorem AbsenceTrue.put (h : AbsenceTrue ctx v w) {ex : Bool}
    (hne : ∀ n, n ≠ name → w.Missing ctx n → w'.Missing ctx n)
    (hex : ex = false → w'.Missing ctx name) :
    AbsenceTrue ctx (journalCachePut v name ex) w' := by
  intro n hn
  by_cases hname : n = name
  · subst hname
    rcases journalCacheState_put_self v n ex with hs | hs
    · rw [hs, Option.some.injEq] at hn
      exact hex hn
    · rw [hs] at hn
      cases hn
  · rw [journalCacheState_put_of_ne hname] at hn
    exact hne n hname (h n hn)

theorem AbsenceTrue.setFalse (h : AbsenceTrue ctx v w)
    (hne : ∀ n, n ≠ name → w.Missing ctx n → w'.Missing ctx n) (hw : w'.Missing ctx name) :
    AbsenceTrue ctx (journalCacheSet v name false) w' := by
  intro n hn
  by_cases hname : n = name
  · exact hname ▸ hw
  · rw [journalCacheState_set_of_ne hname] at hn
    exact hne n hname (h n hn)

theorem missing_of_azure {n : String} (h : w'.world.azure = w.world.azure)
    (hm : w.Missing ctx n) : w'.Missing ctx n := by
  unfold Recorded.Missing
  rw [h]
  exact hm

theorem AbsenceTrue.of_azure (h : AbsenceTrue ctx v w) (ha : w'.world.azure = w.world.azure) :
    AbsenceTrue ctx v w' :=
  fun n hn => missing_of_azure ha (h n hn)

/-- A download changes nothing the cache is about. -/
theorem wp_download_recorded {α : Type} {i : BlobId} {f : AzReply → Prog α}
    {Q : α → Recorded → Prop}
    (h : ∀ x w', w'.world.azure = w.world.azure → w'.heads = w.heads →
      wp (.alone Recorded.served) (f x) Q w') :
    wp (.alone Recorded.served) (azBlockBlobDownload i >>= f) Q w := by
  unfold azBlockBlobDownload
  refine wp_execute_bind (I := fun w' => w'.world.azure = w.world.azure ∧ w'.heads = w.heads)
    stable_alone ⟨rfl, rfl⟩ ?_
  rintro w₁ x w₂ ⟨ha, hh⟩ hs
  obtain ⟨hh', hs'⟩ := served_other (by intros; simp) hs
  have hafter : (w₁.world.azure.respond (.blockBlobDownload i)).2 = w₁.world.azure :=
    congrArg World.azure (World.after_download w₁.world i)
  have ha' : w₂.world.azure = w.world.azure := by
    rcases served_transient hs' with ⟨-, h'⟩ | ⟨-, -, h' | h'⟩
    · rw [h', hafter, ha]
    · rw [h', ha]
    · rw [h', hafter, ha]
  exact ⟨trivial, fun _ => ⟨ha', hh'.trans hh⟩, h x w₂ ha' (hh'.trans hh)⟩

theorem wp_bufferEnsure_recorded {α : Type} {buf : Bytes} {n : Nat} {f : Bytes × Rc → Prog α}
    {Q : α → Recorded → Prop} (h : ∀ r, wp (.alone Recorded.served) (f r) Q w) :
    wp (.alone Recorded.served) (bufferEnsure buf n >>= f) Q w := by
  rw [wp_bind]
  unfold bufferEnsure
  generalize doubleUntil n 64 _ = alloc
  split
  · exact wp_alone_ret.mpr (h _)
  dsimp only
  split
  · exact wp_alone_ret.mpr (h _)
  refine wp_quiet_bind quiet_recorded rfl fun m _ => ?_
  split
  · exact wp_alone_ret.mpr (h _)
  · exact wp_alone_ret.mpr (h _)

/-- The existence check of an `xOpen`. -/
theorem wp_journalExists_recorded {α : Type} {p : ObjsFile} (h : AbsenceTrue ctx v w)
    (hctx : p.opsCtx = ctx) {f : VfsData × Bool → Prog α} {Q : α → Recorded → Prop}
    (hf : ∀ v' ex w', (¬ w.HeadFailed w' → AbsenceTrue ctx v' w') →
      wp (.alone Recorded.served) (f (v', ex)) Q w') :
    wp (.alone Recorded.served) (journalExists v p >>= f) Q w := by
  have hcreate : AbsenceTrue ctx (journalCacheGetOrCreate v p.zBlobName).1 w := by
    intro n hn
    rw [journalCacheState_getOrCreate] at hn
    exact h n hn
  rw [wp_bind]
  unfold journalExists
  dsimp only
  split
  · exact wp_alone_ret.mpr (hf _ _ _ fun _ => hcreate)
  split
  · refine wp_azBlobExists_recorded fun arc ex w' ha hok hfail => wp_alone_ret.mpr ?_
    refine hf _ _ _ fun hnf => ?_
    have harc : arc = .ok := by
      by_contra hne
      exact hnf (hfail hne).2
    refine AbsenceTrue.put (v := v) h (fun n _ => missing_of_azure ha) fun hex => ?_
    refine missing_of_azure ha ?_
    have hsome := hok harc
    dsimp only at hex
    rw [hex] at hsome
    have hb : p.blob = ⟨ctx, p.zBlobName⟩ := by rw [← hctx]; rfl
    rw [hb] at hsome
    exact Option.isNone_iff_eq_none.mp (by simpa using hsome.symm)
  · exact wp_alone_ret.mpr (hf _ _ _ fun _ => hcreate)

/-- `xOpen` of a journal. -/
theorem AbsenceTrue.open (h : AbsenceTrue ctx v w) {uri : UriParams}
    (hctx : ∀ ops c, selectedOps v uri = some (ops, c) → c = ctx) (create : Bool) :
    wp (.alone Recorded.served) (sqliteObjsOpen v name uri .mainJournal create)
      (fun r w' => ¬ w.HeadFailed w' → AbsenceTrue ctx r.1 w') w := by
  unfold sqliteObjsOpen
  split
  · exact wp_alone_ret.mpr fun _ => h
  refine wp_quiet_bind quiet_recorded rfl fun m _ => ?_
  split
  · exact wp_alone_ret.mpr fun _ => h
  refine wp_selectOps_bind quiet_recorded (fun _ => wp_alone_ret.mpr fun _ => h) ?_
  intro ops c hsel
  dsimp only
  unfold openJournal
  refine wp_journalExists_recorded h (hctx ops c hsel) fun v' ex w₁ h₁ => ?_
  dsimp only
  split
  · refine wp_download_recorded fun x w₂ ha hh => ?_
    have h₂ : ¬ w.HeadFailed w₂ → AbsenceTrue ctx v' w₂ := by
      intro hnf
      refine AbsenceTrue.of_azure (h₁ fun hf => hnf ?_) ha
      unfold Recorded.HeadFailed
      rw [hh]
      exact hf
    split
    · refine wp_bufferEnsure_recorded fun r => ?_
      rcases r with ⟨data, rc⟩
      dsimp only
      split
      · exact wp_alone_ret.mpr h₂
      · exact wp_alone_ret.mpr h₂
    · exact wp_alone_ret.mpr h₂
  · exact wp_alone_ret.mpr h₁

/-- `xSync` of a journal. -/
theorem AbsenceTrue.sync (h : AbsenceTrue ctx v w) {p : ObjsFile} (hk : p.eFileType = .mainJournal)
    (hctx : p.opsCtx = ctx) :
    wp (.alone Recorded.served) (sqliteObjsSync v p) (fun r w' =>
      r.2.2 = .ok ∨ (w.Missing ctx p.zBlobName → w'.Missing ctx p.zBlobName) →
        AbsenceTrue ctx r.1 w') w := by
  have hb : p.blob = ⟨ctx, p.zBlobName⟩ := by rw [← hctx]; rfl
  simp only [sqliteObjsSync, hk]
  rw [wp_bind]
  unfold journalSync azBlockBlobUpload
  split
  · -- whatever happens to the upload, the other blobs are left alone
    refine wp_execute_bind (I := fun w' => ∀ n, n ≠ p.zBlobName → w.Missing ctx n →
      w'.Missing ctx n) stable_alone (fun _ _ hm => hm) ?_
    intro w₁ x w₂ hI hs
    have hI' : ∀ n, n ≠ p.zBlobName → w.Missing ctx n → w₂.Missing ctx n := by
      intro n hn hm
      unfold Recorded.Missing
      rw [served_frame (j := ⟨ctx, n⟩) (fun he => hn ?_) hs]
      · exact hI n hn hm
      · exact (BlobId.mk.injEq .. ▸ he.trans hb).2
    refine ⟨trivial, fun _ => hI', ?_⟩
    split
    · refine wp_alone_ret.mpr (wp_alone_ret.mpr fun hkeep n hn => ?_)
      by_cases hname : n = p.zBlobName
      · subst hname
        exact hkeep.resolve_left (by simp) (h _ hn)
      · exact hI' n hname (h n hn)
    · refine wp_alone_ret.mpr (wp_alone_ret.mpr fun _ => ?_)
      exact AbsenceTrue.put h hI' fun he => Bool.noConfusion he
  · exact wp_alone_ret.mpr (wp_alone_ret.mpr fun _ => h)

/-- The answers of a delete: the blob is gone when it is reported gone. -/
theorem served_delete {i : BlobId} {x : AzReply}
    (h : Recorded.served (.azure (.blobDelete i)) w x w') :
    (w.world.azure.blobs i = none → w'.world.azure.blobs i = none) ∧
      (x.err = .ok ∨ x.err = .notFound → w'.world.azure.blobs i = none) := by
  have hmono : w.world.azure.blobs i = none →
      (w.world.azure.respond (.blobDelete i)).2.blobs i = none := by
    intro hn
    simp only [Azure.respond, hn]
  have hgone : (w.world.azure.respond (.blobDelete i)).1.err = .ok ∨
      (w.world.azure.respond (.blobDelete i)).1.err = .notFound →
      (w.world.azure.respond (.blobDelete i)).2.blobs i = none := by
    simp only [Azure.respond]
    split
    · next hb => exact fun _ => hb
    split
    · exact fun _ => Azure.set_blobs_self _ _ _
    · simp
  rcases served_transient (Recorded.of_served h).1 with ⟨he, ha⟩ | ⟨he, hn, ha | ha⟩
  · rw [ha, he]
    exact ⟨hmono, hgone⟩
  · rw [ha]
    exact ⟨id, fun h => absurd h (by simp [he, hn])⟩
  · rw [ha]
    exact ⟨hmono, fun h => absurd h (by simp [he, hn])⟩

/-- `xDelete`. -/
theorem AbsenceTrue.delete (h : AbsenceTrue ctx v w) {mainFile : Option (AzureOps × Nat)}
    (hctx : ∀ ops c, resolveOps v mainFile name = some (ops, c) → c = ctx) :
    wp (.alone Recorded.served) (sqliteObjsDelete v mainFile name)
      (fun r w' => AbsenceTrue ctx r.1 w') w := by
  unfold sqliteObjsDelete
  split
  · exact wp_alone_ret.mpr h
  split
  · exact wp_alone_ret.mpr h
  next ops c hres =>
  obtain rfl := hctx ops c hres
  split
  · exact wp_alone_ret.mpr h
  unfold azBlobDelete
  refine wp_execute_bind (I := fun w' => ∀ n, w.Missing c n → w'.Missing c n)
    stable_alone (fun _ hm => hm) ?_
  intro w₁ x w₂ hI hs
  obtain ⟨hmono, hgone⟩ := served_delete hs
  have hI' : ∀ n, w.Missing c n → w₂.Missing c n := by
    intro n hm
    by_cases hname : n = name
    · subst hname
      exact hmono (hI n hm)
    · unfold Recorded.Missing
      rw [served_frame (j := ⟨c, n⟩) (fun he => hname ?_) hs]
      · exact hI n hm
      · exact (BlobId.mk.injEq .. ▸ he).2
  refine ⟨trivial, fun _ => hI', ?_⟩
  split
  · next he => exact wp_alone_ret.mpr (h.setFalse (fun n _ => hI' n) (hgone (Or.inr he)))
  split
  · exact wp_alone_ret.mpr fun n hn => hI' n (h n hn)
  · next he =>
    exact wp_alone_ret.mpr (h.setFalse (fun n _ => hI' n) (hgone (Or.inl (by simpa using he))))

/-- `xAccess`. -/
theorem AbsenceTrue.access (h : AbsenceTrue ctx v w) {mainFile : Option (AzureOps × Nat)}
    {flags : AccessFlag} (hctx : ∀ ops c, resolveOps v mainFile name = some (ops, c) → c = ctx) :
    wp (.alone Recorded.served) (sqliteObjsAccess v mainFile name flags) (fun r w' =>
      AbsenceTrue ctx r.1 w' ∧ (flags ≠ .other → r.2 = .done false →
        w'.Missing ctx name ∨ w.HeadFailed w')) w := by
  have hresult : ∀ {found : Bool}, flags ≠ .other → Delegated.done (accessResult flags found) =
      .done false → found = false := by
    intro found hf he
    cases flags with
    | other => exact absurd rfl hf
    | _ => exact Delegated.done.inj he
  unfold sqliteObjsAccess
  split
  · exact wp_alone_ret.mpr ⟨h, fun _ he => by simp at he⟩
  split
  · exact wp_alone_ret.mpr ⟨h, fun _ he => by simp at he⟩
  next ops c hres =>
  obtain rfl := hctx ops c hres
  split
  · exact wp_alone_ret.mpr ⟨h, fun _ he => by simp at he⟩
  split
  · next cached hst =>
    refine wp_alone_ret.mpr ⟨h, fun hf he => Or.inl (h name ?_)⟩
    rw [hst, hresult hf he]
  refine wp_azBlobExists_recorded fun arc ex w₁ ha hok hfail => ?_
  dsimp only
  split
  · next hne =>
    exact wp_alone_ret.mpr ⟨h.of_azure ha, fun _ _ => Or.inr (hfail hne).2⟩
  next harc =>
  have hmiss : ex = false → w₁.Missing c name := by
    intro hex
    have hsome := hok (by simpa using harc)
    rw [hex] at hsome
    exact missing_of_azure ha (Option.isNone_iff_eq_none.mp (by simpa using hsome.symm))
  refine wp_alone_ret.mpr ⟨?_, fun hf he => Or.inl (hmiss (hresult hf he))⟩
  dsimp only
  split
  · exact h.put (fun n _ => missing_of_azure ha) hmiss
  · exact h.of_azure ha

end Calls

/-! ## Every sequence of calls -/

section Main

variable {ctx : Nat} {v₀ v : VfsData} {res : JournalResult} {w₀ w w' : Recorded}

theorem absenceTrue_of_reach (h₀ : v₀.journalCache = [])
    (hr : ((journalSession ctx).within (JournalKept ctx)).Reach (v₀, .start) w₀ (v, res) w) :
    AbsenceTrue ctx v w := by
  refine Session.inv_of_reach (fun s w => AbsenceTrue ctx s.1 w) ?_ ?_
    (fun _ _ _ _ h => False.elim h) hr
  · intro n hn
    simp [journalCacheState, journalCacheFind, h₀] at hn
  rintro (⟨name, uri, create⟩ | p | ⟨mainFile, name⟩ | ⟨mainFile, name, flags⟩) ⟨v, res⟩ w h hmay
  · refine wp_bind.mpr (wp_mono ?_ (h.open hmay create))
    exact fun r w' h' => wp_alone_ret.mpr fun hk => h' hk.2
  · refine wp_bind.mpr (wp_mono ?_ (h.sync hmay.1 hmay.2))
    intro r w' h'
    refine wp_alone_ret.mpr fun hk => h' (hk.2.imp_left fun he => ?_)
    exact JournalResult.synced.inj he
  · refine wp_bind.mpr (wp_mono ?_ (h.delete hmay))
    exact fun r w' h' => wp_alone_ret.mpr fun _ => h'
  · refine wp_bind.mpr (wp_mono ?_ (h.access hmay))
    exact fun r w' h' => wp_alone_ret.mpr fun _ => h'.1

/-- In every state such a process gets to, a remembered absence is true, and an
`xAccess` that reports a missing journal is right unless its own `HEAD` failed. -/
theorem journal_cache_sound (h₀ : v₀.journalCache = [])
    (hr : ((journalSession ctx).within (JournalKept ctx)).Reach (v₀, .start) w₀ (v, res) w) :
    AbsenceTrue ctx v w ∧
    ∀ mainFile name flags, (JournalCall.access mainFile name flags).inContainer ctx v →
      flags ≠ .other → ∀ v' w',
        Runs Recorded.served (sqliteObjsAccess v mainFile name flags) w (v', .done false) w' →
          w'.Missing ctx name ∨ w.HeadFailed w' := by
  have h := absenceTrue_of_reach h₀ hr
  refine ⟨h, fun mainFile name flags hctx hf v' w' hrun => ?_⟩
  exact (wp_alone_iff.mp (h.access hctx) _ _ hrun).2 hf rfl

/-- A journal of one sector that was not uploaded yet. -/
def writtenJournal : ObjsFile :=
  { newFile azureProductionOps 0 "db-journal" {} .mainJournal with
    aJrnlData := SparseFile.empty.truncate 512, nJrnlData := 512 }

theorem inContainer_delete {v : VfsData} (hops : v.ops = some azureProductionOps)
    (hctx : v.opsCtx = 0) (name : String) : (JournalCall.delete none name).inContainer 0 v := by
  intro ops c h
  simp only [resolveOps, hops, hctx, Option.some.injEq, Prod.mk.injEq] at h
  exact h.2.symm

/-- A process that finds its journal missing when it opens it. The first upload fails, the second
stores it. The first deletion is carried out but not answered, the second finds nothing. -/
theorem journal_cache_sound_faults : ∃ v res w,
    ((journalSession 0).within (JournalKept 0)).Reach (.new 0, .start) ⟨.new, []⟩ (v, res) w ∧
    journalCacheState v "db-journal" = some false ∧ AbsenceTrue 0 v w ∧
    ∃ v' w', Runs Recorded.served (sqliteObjsAccess v none "db-journal" .exists) w
      (v', .done false) w' ∧ (w'.Missing 0 "db-journal" ∨ w.HeadFailed w') := by
  obtain ⟨v, res, w, v', w', hr, hs, hv, hrun⟩ : ∃ v res w v' w',
      ((journalSession 0).within (JournalKept 0)).Reach (.new 0, .start) ⟨.new, []⟩ (v, res) w ∧
      journalCacheState v "db-journal" = some false ∧
      (JournalCall.delete none "db-journal").inContainer 0 v ∧
      Runs Recorded.served (sqliteObjsAccess v none "db-journal" .exists) w
        (v', .done false) w' := by
    refine ⟨_, _, _, _, _, .call (.delete none "db-journal") (.call (.delete none "db-journal")
      (.call (.sync writtenJournal) (.call (.sync writtenJournal)
        (.call (.open "db-journal" {} true) .refl ?_
          (runs_of_exec [{}, {}, {}] ?_ rfl) ⟨trivial, ?_⟩)
        ⟨rfl, rfl⟩ (runs_of_exec [{ fault := some (.network, false) }] ?_ rfl) ⟨trivial, .inr ?_⟩)
      ⟨rfl, rfl⟩ (runs_of_exec [{}] ?_ rfl) ⟨trivial, .inl rfl⟩)
      (inContainer_delete rfl rfl _)
        (runs_of_exec [{ fault := some (.network, true) }] ?_ rfl) ⟨trivial, trivial⟩)
      (inContainer_delete rfl rfl _) (runs_of_exec [{}] ?_ rfl) ⟨trivial, trivial⟩,
      rfl, inContainer_delete rfl rfl _, runs_of_exec [] ?_ rfl⟩
    · rintro ops c h
      cases h
      rfl
    · simp [transient_default]
    · -- the check of `xOpen` was answered with a 404
      rintro ⟨e, es, h, -, -, hn⟩
      obtain ⟨rfl, -⟩ := List.cons.inj h
      exact hn rfl
    · simp [transient_network]
    · -- the upload that failed created nothing
      exact fun _ => rfl
    · simp [transient_default]
    · simp [transient_network]
    · simp [transient_default]
    · simp
  obtain ⟨habs, hacc⟩ := journal_cache_sound rfl hr
  exact ⟨v, res, w, hr, hs, habs, v', w', hrun, hacc none _ _ hv (by decide) v' w' hrun⟩

/-- The journal of a crashed process is there, the `HEAD` of the next process's
first `xAccess` fails, and `xAccess` reports that there is no journal. -/
theorem access_hides_journal : ∃ w v' w',
    (journalSession 0).Reach (.new 0, .start) w (.new 0, .start) w ∧
    Runs Recorded.served (sqliteObjsAccess (.new 0) none "db-journal" .exists) w
      (v', .done false) w' ∧ ¬ w'.Missing 0 "db-journal" := by
  let upload : AzReq := .blockBlobUpload ⟨0, "db-journal"⟩ (SparseFile.empty.truncate 512)
  refine ⟨⟨World.new.after upload, []⟩, _, _, .refl,
    runs_of_exec [{ fault := some (.network, false) }] ?_ rfl, ?_⟩
  · simp [transient_network]
  · intro h
    cases h

end Main
end SqliteObjs
