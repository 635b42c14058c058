import SqliteObjs.CS.Log
import SqliteObjs.Vfs.Rules

/-!
# One client, one machine

The rules of `SqliteObjs.Vfs.Rules` where nobody else moves. `World.served ok` lets
the environment answer by any choice that satisfies `ok`. Against a service without
faults an operation is one answer of `Azure.respond`.
-/

set_option autoImplicit false

namespace SqliteObjs

open CS CS.Program

/-- No fault of the service. -/
def Healthy (c : Choice) : Prop := c.fault = none

/-- No fault of the service and no failing system call. -/
def Sound (c : Choice) : Prop := c.fault = none ∧ c.sysFails = false

theorem Sound.healthy {c : Choice} (h : Sound c) : Healthy c := h.1

namespace World

/-- The answers by choices that satisfy `ok`. -/
abbrev served (ok : Choice → Prop) : (r : Req) → World → Ans r → World → Prop :=
  Served ok World.respond

/-- The same, logged. -/
abbrev logged (ok : Choice → Prop) :
    (r : Req) → Logged World Ans → Ans r → Logged World Ans → Prop :=
  Logged.serve (served ok)

/-- A concrete run without faults. -/
theorem runs_of_exec {α : Type} {m : Prog α} {w w' : World} {a : α} (n : Nat)
    (h : exec World.respond (List.replicate n {}) m w = some (a, w')) :
    Runs (served Healthy) m w a w' := by
  refine Program.runs_of_exec _ (fun c hc => ?_) h
  rw [List.eq_of_mem_replicate hc]
  rfl

/-- The answer of a healthy service. -/
def answer (w : World) (r : AzReq) : AzReply := (w.azure.respond r).1

/-- The world after a healthy service answered. -/
def after (w : World) (r : AzReq) : World := { w with azure := (w.azure.respond r).2 }

end World

/-- The requests answered so far, the last one first. -/
abbrev Log := List ((r : Req) × Ans r)

/-- A request and its effect at the service. -/
theorem respond_azure {c : Choice} {r : AzReq} {w w' : World} {x : AzReply}
    (h : World.respond c (.azure r) w = some (x, w')) :
    w.azure.serve c r = some (x, w'.azure) := by
  simp only [World.respond, Option.map_eq_some_iff, Prod.mk.injEq] at h
  obtain ⟨⟨x', a⟩, hs, rfl, rfl⟩ := h
  exact hs

theorem stable_alone {W : Type} {serve : (r : Req) → W → Ans r → W → Prop} {P : W → Prop} :
    Stable (.alone serve) P := by
  rintro w _ rfl h
  exact h

section Served

variable {ok : Choice → Prop} {w w' : World}

/-! ## System calls -/

theorem served_sys {r : SysReq} {x : SysReply} (h : World.served ok (.sys r) w x w') :
    ∃ c, ok c ∧ x = (w.disk.serve c r).1 ∧ w' = { w with disk := (w.disk.serve c r).2 } := by
  obtain ⟨c, hc, hs⟩ := h
  cases r with
  | relock => simp [World.respond] at hs
  | _ =>
    simp only [World.respond, Option.some.injEq, Prod.mk.injEq] at hs
    exact ⟨c, hc, hs.1.symm, hs.2.symm⟩

theorem quiet_alone : Quiet (.alone (World.served ok)) := by
  intro r hr w x w' hs
  obtain ⟨c, -, -, rfl⟩ := served_sys hs
  refine ⟨?_, trivial⟩
  cases r <;> simp only [SysReq.isQuiet, Bool.false_eq_true] at hr <;> simp only [Disk.serve]
  split <;> rfl

theorem allocates_alone (hok : ∀ c, ok c → c.sysFails = false) :
    Allocates (.alone (World.served ok)) := by
  intro n w x w' h
  obtain ⟨c, hc, rfl, -⟩ := served_sys h
  simp [Disk.serve, hok c hc]

/-- Every request but the self-lock is answered. -/
theorem served_total {c : Choice} (hc : ok c) (hf : c.fault = none) {r : Req}
    (hr : r ≠ .sys .relock) (w : World) : ∃ x w', World.served ok r w x w' := by
  cases r with
  | azure r =>
    obtain ⟨x, hx⟩ : ∃ x, w.azure.serve c r = some x := by
      unfold Azure.serve
      rw [hf]
      cases r <;> exact ⟨_, rfl⟩
    exact ⟨x.1, { w with azure := x.2 }, c, hc, by simp [World.respond, hx]⟩
  | sys r =>
    refine ⟨(w.disk.serve c r).1, { w with disk := (w.disk.serve c r).2 }, c, hc, ?_⟩
    cases r <;> first | rfl | exact absurd rfl hr

/-! ## A healthy service -/

/-- The healthy service asks for no retry. -/
theorem Azure.respond_not_retryable (a : Azure) (r : AzReq) :
    azureIsRetryable (a.respond r).1.err = false := by
  have hput : ∀ i d m, azureIsRetryable (a.putBlob i d m).1.err = false := by
    intro i d m
    unfold putBlob
    split
    · rfl
    · split <;> rfl
  cases r <;> simp only [respond] <;>
    first
    | rfl
    | exact hput _ _ _
    | (repeat' split) <;> first | rfl | exact hput _ _ _

theorem served_azure (hok : ∀ c, ok c → c.fault = none) {r : AzReq}
    (hr : ∀ i s, r ≠ .blobGetPageRangesDiff i s) {x : AzReply}
    (h : World.served ok (.azure r) w x w') : x = w.answer r ∧ w' = w.after r := by
  obtain ⟨c, hc, hs⟩ := h
  have hf := hok c hc
  simp only [World.respond, Azure.serve, hf] at hs
  cases r with
  | blobGetPageRangesDiff i s => exact absurd rfl (hr i s)
  | _ =>
    simp only [Option.map_some, Option.some.injEq] at hs
    obtain ⟨rfl, rfl⟩ := hs
    exact ⟨rfl, rfl⟩

/-- An operation on a healthy service is one answer. -/
theorem wp_execute_healthy (hok : ∀ c, ok c → c.fault = none) {r : AzReq}
    (hr : ∀ i s, r ≠ .blobGetPageRangesDiff i s) {Q : AzReply → World → Prop}
    (h : Q (w.answer r) (w.after r)) : wp (.alone (World.served ok)) (execute r) Q w := by
  refine wp_execute (I := fun w' => w' = w) stable_alone (fun _ => stable_alone) rfl ?_
  rintro w x w' rfl hs
  obtain ⟨rfl, rfl⟩ := served_azure hok hr hs
  refine ⟨trivial, fun h => ?_, h⟩
  rw [World.answer, Azure.respond_not_retryable] at h
  exact Bool.noConfusion h

theorem wp_execute_healthy_bind {α : Type} (hok : ∀ c, ok c → c.fault = none) {r : AzReq}
    (hr : ∀ i s, r ≠ .blobGetPageRangesDiff i s) {f : AzReply → Prog α} {Q : α → World → Prop}
    (h : wp (.alone (World.served ok)) (f (w.answer r)) Q (w.after r)) :
    wp (.alone (World.served ok)) (execute r >>= f) Q w :=
  wp_bind.mpr (wp_execute_healthy hok hr h)

/-! ## Requests that only read -/

/-- The content of a blob, empty if there is none. -/
def Azure.contentOf (a : Azure) (i : BlobId) : Bytes :=
  match a.blobs i with
  | none => .empty
  | some b => b.content

variable {α : Type} {i : BlobId} {Q : α → World → Prop}

theorem World.after_getProperties (w : World) (i : BlobId) :
    w.after (.blobGetProperties i) = w := by
  simp only [World.after, Azure.respond]
  split <;> rfl

theorem World.after_download (w : World) (i : BlobId) : w.after (.blockBlobDownload i) = w := by
  simp only [World.after, Azure.respond]
  split <;> rfl

theorem wp_azBlobExists_bind (hok : ∀ c, ok c → c.fault = none) {f : AzErr × Bool → Prog α}
    (h : wp (.alone (World.served ok)) (f (.ok, (w.azure.blobs i).isSome)) Q w) :
    wp (.alone (World.served ok)) (azBlobExists i >>= f) Q w := by
  rw [wp_bind]
  unfold azBlobExists azBlobGetProperties
  refine wp_execute_healthy_bind hok (by intros; simp) ?_
  rw [World.after_getProperties]
  have hans : (w.answer (.blobGetProperties i)).err =
      if (w.azure.blobs i).isSome then .ok else .notFound := by
    simp only [World.answer, Azure.respond]
    cases w.azure.blobs i <;> rfl
  rw [hans]
  cases hb : (w.azure.blobs i).isSome with
  | false =>
    rw [hb] at h
    simpa using h
  | true =>
    rw [hb] at h
    simpa using h

/-- The download of an existing blob. -/
theorem wp_azBlockBlobDownload_bind (hok : ∀ c, ok c → c.fault = none) {b : Blob}
    (hb : w.azure.blobs i = some b) {f : AzReply → Prog α}
    (h : ∀ e, wp (.alone (World.served ok)) (f { err := .ok, etag := e, body := b.content }) Q w) :
    wp (.alone (World.served ok)) (azBlockBlobDownload i >>= f) Q w := by
  unfold azBlockBlobDownload
  refine wp_execute_healthy_bind hok (by intros; simp) ?_
  rw [World.after_download]
  simp only [World.answer, Azure.respond, hb]
  exact h _

end Served

/-! ## The client of an `xOpen` -/

/-- The client an `xOpen` selects when its allocation succeeds. -/
def selectedOps (v : VfsData) (uri : UriParams) : Option (AzureOps × Nat) :=
  match uri.client with
  | some ctx => some (azureProductionOps, ctx)
  | none => v.ops.map (·, v.opsCtx)

theorem wp_selectOps_bind {W α : Type} {E : Setting W Ans} {w : W} {v : VfsData} {uri : UriParams}
    (hE : Quiet E) {f : Option (AzureOps × Nat) → Prog α} {Q : α → W → Prop}
    (hfail : (Allocates E → selectedOps v uri = none) → wp E (f none) Q w)
    (hsel : ∀ ops ctx, selectedOps v uri = some (ops, ctx) → wp E (f (some (ops, ctx))) Q w) :
    wp E (selectOps v uri >>= f) Q w := by
  rw [wp_bind]
  unfold selectOps
  unfold selectedOps at hfail hsel
  cases hcl : uri.client with
  | some ctx =>
    simp only [hcl] at hfail hsel
    refine wp_quiet_bind hE rfl fun m hm => ?_
    cases hmo : m.ok with
    | false =>
      refine fun w₁ hw => wp_stable hw (hfail fun ha => ?_)
      rw [ha.ok hm] at hmo
      exact Bool.noConfusion hmo
    | true => exact fun w₁ hw => wp_stable hw (hsel _ _ rfl)
  | none =>
    simp only [hcl] at hfail hsel
    cases ho : v.ops with
    | none =>
      rw [ho] at hfail
      exact fun w₁ hw => wp_stable hw (hfail fun _ => rfl)
    | some ops =>
      rw [ho] at hsel
      exact fun w₁ hw => wp_stable hw (hsel _ _ rfl)

/-! ## Programs that never lock twice -/

/-- The program does not lock a mutex it holds. -/
abbrev NoRelock {α : Type} (m : Prog α) : Prop := Uses (fun r => r ≠ .sys .relock) m

section NoRelock

variable {α : Type}

theorem noRelock_azure (r : AzReq) : NoRelock (azure r) := ⟨by simp, fun _ => trivial⟩

theorem noRelock_sys {r : SysReq} (hr : r ≠ .relock) : NoRelock (sys r) :=
  ⟨by simpa using hr, fun _ => trivial⟩

theorem noRelock_executeWithRetry (r : AzReq) : ∀ n, NoRelock (executeWithRetry r n)
  | 0 => noRelock_azure r
  | n + 1 => by
    unfold executeWithRetry
    refine (noRelock_azure r).bind fun x => ?_
    split
    · trivial
    split
    · trivial
    · exact noRelock_executeWithRetry r n

theorem noRelock_execute (r : AzReq) : NoRelock (execute r) := noRelock_executeWithRetry r _

theorem noRelock_azBlobExists (i : BlobId) : NoRelock (azBlobExists i) := by
  unfold azBlobExists azBlobGetProperties
  refine (noRelock_execute _).bind fun x => ?_
  split
  · trivial
  split
  · trivial
  · trivial

theorem noRelock_shuffle {β : Type} : ∀ l : List β, NoRelock (shuffle l)
  | [] => trivial
  | a :: l => by
    unfold shuffle
    exact (noRelock_shuffle l).bind fun _ => (noRelock_sys (by simp)).bind fun _ => trivial

theorem noRelock_azPageBlobRead (i : BlobId) (off len : Nat) :
    NoRelock (azPageBlobRead i off len) := by
  unfold azPageBlobRead
  exact Uses.ite trivial (noRelock_execute _)

theorem noRelock_transferSetup (n : Nat) : NoRelock (transferSetup n) := by
  unfold transferSetup
  refine (noRelock_sys (by simp)).bind fun _ => Uses.ite trivial ?_
  exact (noRelock_sys (by simp)).bind fun _ => Uses.ite trivial trivial

theorem noRelock_transfer {σ : Type}
    {send : List Nat → σ → Prog (Option (List (Nat × AzReply) × σ))}
    {note : List (Nat × AzReply) → σ → σ} (hsend : ∀ order s, NoRelock (send order s)) :
    ∀ n pending s, NoRelock (transfer send note n pending s)
  | 0, _, _ => trivial
  | n + 1, pending, s => by
    unfold transfer
    refine (noRelock_sys (by simp)).bind fun _ => ?_
    split
    · trivial
    refine (noRelock_sys (by simp)).bind fun _ => ?_
    split
    · trivial
    refine (noRelock_shuffle _).bind fun order => (hsend order s).bind fun r => ?_
    rcases r with _ | ⟨replies, s'⟩
    · trivial
    refine (noRelock_shuffle _).bind fun msgs => ?_
    dsimp only
    split
    · trivial
    split
    · trivial
    · exact noRelock_transfer hsend n _ _

/-- Such a program can run to its end without faults. -/
theorem NoRelock.exists_runs {m : Prog α} (hm : NoRelock m) (w : World) :
    ∃ a w', Runs (World.served Sound) m w a w' :=
  Uses.exists_runs hm (fun _ w hr => served_total (c := {}) ⟨rfl, rfl⟩ rfl hr w) w

theorem NoRelock.exists_runs_healthy {m : Prog α} (hm : NoRelock m) (w : World) :
    ∃ a w', Runs (World.served Healthy) m w a w' :=
  Uses.exists_runs hm (fun _ w hr => served_total (c := {}) (show Healthy _ from rfl) rfl hr w) w

end NoRelock
end SqliteObjs
