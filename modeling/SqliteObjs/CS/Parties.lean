import SqliteObjs.CS.Program

/-!
# Parties that share a world

An interleaving is a family of parties. Each party is idle with a local state, or in the
middle of a call, with the rest of the call's program. A step starts a call,
answers one pending request, finishes a call, or is a move of the outside. So two
calls of different parties interleave at every request.

`Discipline` is the rely-guarantee rule: every party has a local invariant that
the moves of the others keep, and every call, seen as a program under that
interference, restores the invariant. `Discipline.safe_of_run` then holds of every
run, and `Discipline.post_of_run` reads off what a call established when it is
about to return.
-/

set_option autoImplicit false

namespace CS

/-- A family of parties: the programs of their calls, the answers to their
requests, and the moves of the outside. `none` refuses a step. -/
structure Interleaving (ι W C : Type) {Req : Type} (Ans : Req → Type) (σ Call ρ O : Type) where
  code : ι → Call → σ → Program Ans ρ
  enter : ι → Call → σ → W → Option W
  respond : ι → C → (r : Req) → W → Option (Ans r × W)
  leave : ι → Call → σ → ρ → σ
  outside : O → W → Option W

/-- A party between two calls, or in the middle of one. -/
inductive Party {Req : Type} (Ans : Req → Type) (σ Call ρ : Type)
  | idle (s : σ)
  | busy (c : Call) (s : σ) (m : Program Ans ρ)

namespace Interleaving

variable {ι W C Req : Type} {Ans : Req → Type} {σ Call ρ O : Type}

/-- The world and where each party is. -/
structure Config (ι W : Type) {Req : Type} (Ans : Req → Type) (σ Call ρ : Type) where
  world : W
  party : ι → Party Ans σ Call ρ

inductive Event (ι C Call O : Type)
  | start (i : ι) (c : Call)
  | serve (i : ι) (ch : C)
  | finish (i : ι)
  | outside (o : O)

variable [DecidableEq ι]

/-- Replace one party. -/
def Config.set (cfg : Config ι W Ans σ Call ρ) (i : ι) (w : W) (q : Party Ans σ Call ρ) :
    Config ι W Ans σ Call ρ where
  world := w
  party := Function.update cfg.party i q

@[simp] theorem Config.set_world (cfg : Config ι W Ans σ Call ρ) (i : ι) (w : W)
    (q : Party Ans σ Call ρ) : (cfg.set i w q).world = w := rfl

@[simp] theorem Config.set_party_self (cfg : Config ι W Ans σ Call ρ) (i : ι) (w : W)
    (q : Party Ans σ Call ρ) : (cfg.set i w q).party i = q := by
  simp [Config.set]

theorem Config.set_party_ne (cfg : Config ι W Ans σ Call ρ) {i j : ι} (w : W)
    (q : Party Ans σ Call ρ) (h : j ≠ i) : (cfg.set i w q).party j = cfg.party j := by
  simp [Config.set, h]

/-- One step. -/
def step (S : Interleaving ι W C Ans σ Call ρ O) (cfg : Config ι W Ans σ Call ρ) :
    Event ι C Call O → Option (Config ι W Ans σ Call ρ)
  | .start i c =>
    match cfg.party i with
    | .idle s => (S.enter i c s cfg.world).map fun w => cfg.set i w (.busy c s (S.code i c s))
    | .busy _ _ _ => none
  | .serve i ch =>
    match cfg.party i with
    | .busy c s (.call r k) =>
      (S.respond i ch r cfg.world).map fun xw => cfg.set i xw.2 (.busy c s (k xw.1))
    | _ => none
  | .finish i =>
    match cfg.party i with
    | .busy c s (.ret a) => some (cfg.set i cfg.world (.idle (S.leave i c s a)))
    | _ => none
  | .outside o => (S.outside o cfg.world).map fun w => { cfg with world := w }

/-- Follow a list of events. -/
def run (S : Interleaving ι W C Ans σ Call ρ O) (cfg : Config ι W Ans σ Call ρ) :
    List (Event ι C Call O) → Option (Config ι W Ans σ Call ρ)
  | [] => some cfg
  | e :: es => (S.step cfg e).bind fun cfg' => run S cfg' es

/-- A condition on the steps of a run: on calls as they start, and on requests as
they are answered, given the call they belong to. -/
structure Condition (ι W C : Type) {Req : Type} (Ans : Req → Type) (σ Call : Type) where
  start : ι → Call → σ → W → Prop
  serve : ι → Call → σ → C → (r : Req) → W → Prop

/-- The condition that admits every step. -/
def Condition.any : Condition ι W C Ans σ Call where
  start _ _ _ _ := True
  serve _ _ _ _ _ _ := True

/-- The event meets the condition in this configuration. -/
def Condition.Meets (K : Condition ι W C Ans σ Call) (cfg : Config ι W Ans σ Call ρ) :
    Event ι C Call O → Prop
  | .start i c =>
    match cfg.party i with
    | .idle s => K.start i c s cfg.world
    | .busy _ _ _ => True
  | .serve i ch =>
    match cfg.party i with
    | .busy c s (.call r _) => K.serve i c s ch r cfg.world
    | _ => True
  | _ => True

/-- The runs whose steps all meet a condition. -/
inductive RunWithin (S : Interleaving ι W C Ans σ Call ρ O) (K : Condition ι W C Ans σ Call)
    (cfg : Config ι W Ans σ Call ρ) : Config ι W Ans σ Call ρ → Prop
  | refl : RunWithin S K cfg cfg
  | tail {cfg₁ cfg₂ : Config ι W Ans σ Call ρ} {e : Event ι C Call O} :
      RunWithin S K cfg cfg₁ → K.Meets cfg₁ e → S.step cfg₁ e = some cfg₂ →
        RunWithin S K cfg cfg₂

theorem RunWithin.head {S : Interleaving ι W C Ans σ Call ρ O} {K : Condition ι W C Ans σ Call}
    {cfg cfg₁ cfg₂ : Config ι W Ans σ Call ρ} {e : Event ι C Call O}
    (hK : K.Meets cfg e) (he : S.step cfg e = some cfg₁) (h : RunWithin S K cfg₁ cfg₂) :
    RunWithin S K cfg cfg₂ := by
  induction h with
  | refl => exact .tail .refl hK he
  | tail _ hK' he' ih => exact .tail ih hK' he'

theorem runWithin_of_run {S : Interleaving ι W C Ans σ Call ρ O} {es : List (Event ι C Call O)} :
    ∀ {cfg cfg' : Config ι W Ans σ Call ρ}, S.run cfg es = some cfg' →
      RunWithin S .any cfg cfg' := by
  induction es with
  | nil =>
    intro cfg cfg' h
    obtain rfl : cfg = cfg' := by simpa [run] using h
    exact .refl
  | cons e es ih =>
    intro cfg cfg' h
    obtain ⟨cfg₁, he, h₁⟩ := Option.bind_eq_some_iff.mp h
    refine .head ?_ he (ih h₁)
    cases e with
    | start i c => simp only [Condition.Meets, Condition.any]; split <;> trivial
    | serve i ch => simp only [Condition.Meets, Condition.any]; split <;> trivial
    | finish i => trivial
    | outside o => trivial

theorem RunWithin.trans {S : Interleaving ι W C Ans σ Call ρ O} {K : Condition ι W C Ans σ Call}
    {cfg cfg₁ cfg₂ : Config ι W Ans σ Call ρ} (h : RunWithin S K cfg cfg₁)
    (h' : RunWithin S K cfg₁ cfg₂) : RunWithin S K cfg cfg₂ := by
  induction h' with
  | refl => exact h
  | tail _ hK he ih => exact .tail ih hK he

theorem Config.set_set (cfg : Config ι W Ans σ Call ρ) (i : ι) (w w' : W)
    (q q' : Party Ans σ Call ρ) : (cfg.set i w q).set i w' q' = cfg.set i w' q' := by
  simp [Config.set]

section Undisturbed

variable {S : Interleaving ι W C Ans σ Call ρ O} {cfg : Config ι W Ans σ Call ρ} {i : ι}
  {c : Call} {s : σ} {a : ρ} {w w' : W}

/-- A party in the middle of a call may go on undisturbed. -/
theorem runWithin_of_runs {m : Program Ans ρ} (hp : cfg.party i = .busy c s m)
    (hr : Program.Runs (fun r w x w' => ∃ ch, S.respond i ch r w = some (x, w')) m cfg.world a w') :
    RunWithin S .any cfg (cfg.set i w' (.busy c s (.ret a))) := by
  generalize hw : cfg.world = w at hr
  induction hr generalizing cfg with
  | ret a w =>
    have heq : cfg.set i w (.busy c s (.ret a)) = cfg := by
      simp [Config.set, ← hp, ← hw]
    rw [heq]
    exact .refl
  | @call r k w w₁ w₂ x a hs _ ih =>
    obtain ⟨ch, hch⟩ := hs
    have hstep : S.step cfg (.serve i ch) = some (cfg.set i w₁ (.busy c s (k x))) := by
      simp [step, hp, hw, hch]
    have hmeets : (Condition.any : Condition ι W C Ans σ Call).Meets (O := O)
        cfg (.serve i ch) := by
      simp only [Condition.Meets, Condition.any]
      split <;> trivial
    refine .head hmeets hstep ?_
    have hrest := ih (Config.set_party_self cfg i w₁ (.busy c s (k x))) rfl
    rwa [Config.set_set] at hrest

/-- An idle party may make a whole call undisturbed, up to its return. -/
theorem runWithin_of_call (hp : cfg.party i = .idle s) (he : S.enter i c s cfg.world = some w)
    (hr : Program.Runs (fun r w x w' => ∃ ch, S.respond i ch r w = some (x, w'))
      (S.code i c s) w a w') :
    RunWithin S .any cfg (cfg.set i w' (.busy c s (.ret a))) := by
  have hstep : S.step cfg (.start i c) = some (cfg.set i w (.busy c s (S.code i c s))) := by
    simp [step, hp, he]
  have hmeets : (Condition.any : Condition ι W C Ans σ Call).Meets (O := O) cfg (.start i c) := by
    simp only [Condition.Meets, Condition.any]
    split <;> trivial
  refine .head hmeets hstep ?_
  have hrest := runWithin_of_runs (S := S)
    (Config.set_party_self cfg i w (.busy c s (S.code i c s))) hr
  rwa [Config.set_set] at hrest

/-- The same, with the return. -/
theorem runWithin_of_call_finish (hp : cfg.party i = .idle s)
    (he : S.enter i c s cfg.world = some w)
    (hr : Program.Runs (fun r w x w' => ∃ ch, S.respond i ch r w = some (x, w'))
      (S.code i c s) w a w') :
    RunWithin S .any cfg (cfg.set i w' (.idle (S.leave i c s a))) := by
  refine .tail (runWithin_of_call hp he hr) (e := .finish i) trivial ?_
  simp [step, Config.set_set]

end Undisturbed

end Interleaving

open Interleaving

variable {ι W C Req : Type} {Ans : Req → Type} {σ Call ρ O : Type} [DecidableEq ι]

/-- A rely-guarantee argument for the runs of an interleaving within a condition. -/
structure Discipline (S : Interleaving ι W C Ans σ Call ρ O) (K : Condition ι W C Ans σ Call) where
  rely : ι → W → W → Prop
  rely_refl : ∀ i w, rely i w w
  rely_trans : ∀ i {u v w}, rely i u v → rely i v w → rely i u w
  /-- What holds of a party between its calls. -/
  inv : ι → σ → W → Prop
  inv_stable : ∀ {i s w w'}, rely i w w' → inv i s w → inv i s w'
  /-- What a call has established when it is about to return. -/
  post : ι → Call → σ → ρ → W → Prop
  outside_rely : ∀ {o w w'} i, S.outside o w = some w' → rely i w w'
  enter_rely : ∀ {i c s w w'} j, j ≠ i → inv i s w → S.enter i c s w = some w' → rely j w w'
  body : ∀ {i c s w w'}, inv i s w → K.start i c s w → S.enter i c s w = some w' →
    Program.wp
      { rely := rely i
        serve := fun r w x w' => ∃ ch, K.serve i c s ch r w ∧ S.respond i ch r w = some (x, w')
        guar := fun w w' => ∀ j, j ≠ i → rely j w w'
        rely_refl := rely_refl i
        rely_trans := rely_trans i }
      (S.code i c s) (fun a w => inv i (S.leave i c s a) w ∧ post i c s a w) w'

namespace Discipline

variable {S : Interleaving ι W C Ans σ Call ρ O} {K : Condition ι W C Ans σ Call}

/-- What the program of call `c` of party `i` runs against. -/
def setting (D : Discipline S K) (i : ι) (c : Call) (s : σ) : Program.Setting W Ans where
  rely := D.rely i
  serve r w x w' := ∃ ch, K.serve i c s ch r w ∧ S.respond i ch r w = some (x, w')
  guar w w' := ∀ j, j ≠ i → D.rely j w w'
  rely_refl := D.rely_refl i
  rely_trans := D.rely_trans i

/-- One party, between calls or in the middle of one, is as the discipline says. -/
def Fine (D : Discipline S K) (i : ι) (w : W) : Party Ans σ Call ρ → Prop
  | .idle s => D.inv i s w
  | .busy c s m => Program.wp (D.setting i c s) m
      (fun a w => D.inv i (S.leave i c s a) w ∧ D.post i c s a w) w

omit [DecidableEq ι] in
theorem Fine.stable {D : Discipline S K} {i : ι} {w w' : W} {q : Party Ans σ Call ρ}
    (hw : D.rely i w w') (h : D.Fine i w q) : D.Fine i w' q := by
  cases q with
  | idle s => exact D.inv_stable hw h
  | busy c s m =>
    exact Program.wp_stable (E := D.setting i c s) hw h

/-- A step that respects the others leaves a fine configuration fine, once the
moving party is. -/
theorem fine_set {D : Discipline S K} {cfg : Config ι W Ans σ Call ρ} {i : ι} {w : W}
    {q : Party Ans σ Call ρ} (h : ∀ j, D.Fine j cfg.world (cfg.party j))
    (hw : ∀ j, j ≠ i → D.rely j cfg.world w) (hq : D.Fine i w q) (j : ι) :
    D.Fine j (cfg.set i w q).world ((cfg.set i w q).party j) := by
  by_cases hj : j = i
  · subst hj
    simpa using hq
  · rw [Config.set_party_ne _ _ _ hj]
    exact (h j).stable (hw j hj)

/-- One step within the condition keeps every party fine. -/
theorem fine_step {D : Discipline S K} {cfg cfg' : Config ι W Ans σ Call ρ}
    {e : Event ι C Call O} (h : ∀ j, D.Fine j cfg.world (cfg.party j))
    (hK : K.Meets cfg e) (he : S.step cfg e = some cfg') (j : ι) :
    D.Fine j cfg'.world (cfg'.party j) := by
  cases e with
  | start i c =>
    cases hp : cfg.party i with
    | busy c' s m => simp [step, hp] at he
    | idle s =>
      simp only [step, hp, Option.map_eq_some_iff] at he
      obtain ⟨w, hw, rfl⟩ := he
      have hi : D.inv i s cfg.world := by
        have hi := h i
        rwa [hp] at hi
      have hs : K.start i c s cfg.world := by simpa [Condition.Meets, hp] using hK
      have hb : D.Fine i w (.busy c s (S.code i c s)) := D.body hi hs hw
      exact fine_set h (fun j hj => D.enter_rely j hj hi hw) hb j
  | serve i ch =>
    cases hp : cfg.party i with
    | idle s => simp [step, hp] at he
    | busy c s m =>
      cases m with
      | ret a => simp [step, hp] at he
      | call r k =>
        simp only [step, hp, Option.map_eq_some_iff] at he
        obtain ⟨⟨x, w⟩, hw, rfl⟩ := he
        have hs : K.serve i c s ch r cfg.world := by simpa [Condition.Meets, hp] using hK
        have hi := h i
        rw [hp] at hi
        obtain ⟨hg, hk⟩ := hi cfg.world (D.rely_refl i _) x w ⟨ch, hs, hw⟩
        have hb : D.Fine i w (.busy c s (k x)) := hk
        exact fine_set h hg hb j
  | finish i =>
    cases hp : cfg.party i with
    | idle s => simp [step, hp] at he
    | busy c s m =>
      cases m with
      | call r k => simp [step, hp] at he
      | ret a =>
        simp only [step, hp, Option.some.injEq] at he
        obtain rfl := he
        have hi := h i
        rw [hp] at hi
        have hb : D.Fine i cfg.world (.idle (S.leave i c s a)) :=
          (hi cfg.world (D.rely_refl i _)).1
        exact fine_set h (fun j _ => D.rely_refl j _) hb j
  | outside o =>
    simp only [step, Option.map_eq_some_iff] at he
    obtain ⟨w, hw, rfl⟩ := he
    exact (h j).stable (D.outside_rely j hw)

/-- Every party stays fine along every run within the condition. -/
theorem safe_of_run (D : Discipline S K) {cfg cfg' : Config ι W Ans σ Call ρ}
    (h : ∀ j, D.Fine j cfg.world (cfg.party j)) (hr : RunWithin S K cfg cfg') (j : ι) :
    D.Fine j cfg'.world (cfg'.party j) := by
  induction hr generalizing j with
  | refl => exact h j
  | tail _ hK he ih => exact fine_step ih hK he j

/-- What a call established is there when it is about to return. -/
theorem post_of_run (D : Discipline S K) {cfg cfg' : Config ι W Ans σ Call ρ}
    (h : ∀ j, D.Fine j cfg.world (cfg.party j)) (hr : RunWithin S K cfg cfg')
    {i : ι} {c : Call} {s : σ} {a : ρ} (hi : cfg'.party i = .busy c s (.ret a)) :
    D.post i c s a cfg'.world := by
  have hf := D.safe_of_run h hr i
  rw [hi] at hf
  exact (hf cfg'.world (D.rely_refl i _)).2

end Discipline
end CS
