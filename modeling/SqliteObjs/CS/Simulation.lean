import SqliteObjs.CS.Program

/-!
# Simulation by an abstract machine

A program is run while others move: `Program.Setting.disturbed` lets them move before every request.
What the weakest precondition says of such a program holds of every one of these runs.

A party makes calls one after the other (`Performs`), and an abstract machine that need not be
deterministic makes steps with the same labels and results (`Steps`). If every call, from every
state that is related to an abstract one, is a step of the abstract machine, a list of
calls is a path of it (`Performs.simulated`).
-/

set_option autoImplicit false

namespace CS

open Program

variable {W Req : Type} {Ans : Req → Type} {α : Type} {E : Setting W Ans}

/-! ## Runs that others disturb -/

/-- Before a request is answered the others may move. -/
def Program.Setting.disturbed (E : Setting W Ans) (r : Req) (w : W) (x : Ans r) (w' : W) : Prop :=
  ∃ w₁, E.rely w w₁ ∧ E.serve r w₁ x w'

theorem Program.wp_disturbed {m : Program Ans α} {Q : α → W → Prop} {w w' : W} {a : α}
    (h : wp E m Q w) (hr : Runs E.disturbed m w a w') : Q a w' := by
  induction hr with
  | ret a w => exact h w (E.rely_refl w)
  | call hs _ ih =>
    obtain ⟨w₁, hw, hs⟩ := hs
    exact ih (h w₁ hw _ _ hs).2

/-- Nobody else needs to move. -/
theorem Program.Setting.runs_disturbed {m : Program Ans α} {w w' : W} {a : α}
    (hr : Runs E.serve m w a w') : Runs E.disturbed m w a w' :=
  hr.mono fun _ w _ _ hs => ⟨w, E.rely_refl w, hs⟩

/-- Alone with everything that may disturb it. -/
theorem Program.wp_alone_disturbed {m : Program Ans α} {Q : α → W → Prop} {w : W}
    (h : wp E m Q w) : wp (.alone E.disturbed) m Q w :=
  wp_alone_iff.mpr fun _ _ hr => wp_disturbed h hr

/-- What a program returns under all answers, under any disturbance. -/
theorem Program.Returns.wp {A : (r : Req) → Ans r → Prop} {Q : α → Prop} {m : Program Ans α}
    (hm : Returns A Q m) (hA : ∀ r w x w', E.serve r w x w' → E.guar w w' ∧ A r x) :
    ∀ {w : W}, wp E m (fun a _ => Q a) w := by
  induction m with
  | ret a => exact fun _ _ => hm
  | call r k ih =>
    intro w w₁ _ x w₂ hs
    obtain ⟨hg, hx⟩ := hA r w₁ x w₂ hs
    exact ⟨hg, ih x (hm x hx)⟩

/-! ## Calls and the steps of an abstract machine -/

variable {σ τ Call Res : Type} {code : Call → σ → Program Ans (σ × Res)}
  {K : Call → σ → Res → Prop} {Step : τ → Call → τ → Res → Prop}

/-- The calls `cs`, made one after the other, return `rs`. Each of them satisfies `K`, with the
state it was made in and its result. -/
inductive Performs (E : Setting W Ans) (code : Call → σ → Program Ans (σ × Res))
    (K : Call → σ → Res → Prop) : σ → W → List Call → List Res → σ → W → Prop
  | nil (s : σ) (w : W) : Performs E code K s w [] [] s w
  | cons {s s' s'' : σ} {w w' w'' : W} {c : Call} {r : Res} {cs : List Call} {rs : List Res} :
      Runs E.disturbed (code c s) w (s', r) w' → K c s r → Performs E code K s' w' cs rs s'' w'' →
      Performs E code K s w (c :: cs) (r :: rs) s'' w''

/-- The steps of an abstract machine for the calls `cs` with the results `rs`. -/
inductive Steps (Step : τ → Call → τ → Res → Prop) : τ → List Call → List Res → τ → Prop
  | nil (t : τ) : Steps Step t [] [] t
  | cons {t t' t'' : τ} {c : Call} {r : Res} {cs : List Call} {rs : List Res} :
      Step t c t' r → Steps Step t' cs rs t'' → Steps Step t (c :: cs) (r :: rs) t''

/-- Calls that are steps one by one are a path. -/
theorem Performs.simulated {R : τ → σ → W → Prop}
    (hstep : ∀ c s w t, R t s w → wp E (code c s)
      (fun a w' => K c s a.2 → ∃ t', Step t c t' a.2 ∧ R t' a.1 w') w)
    {s s' : σ} {w w' : W} {cs : List Call} {rs : List Res} (h : Performs E code K s w cs rs s' w') :
    ∀ {t : τ}, R t s w → ∃ t', Steps Step t cs rs t' ∧ R t' s' w' := by
  induction h with
  | nil s w => exact fun hR => ⟨_, .nil _, hR⟩
  | cons hr hK _ ih =>
    intro t hR
    obtain ⟨t₁, hs, hR₁⟩ := wp_disturbed (hstep _ _ _ t hR) hr hK
    obtain ⟨t₂, hp, hR₂⟩ := ih hR₁
    exact ⟨t₂, .cons hs hp, hR₂⟩

end CS
