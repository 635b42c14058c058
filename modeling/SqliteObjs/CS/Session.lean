import SqliteObjs.CS.Program

/-!
# Sessions of one party

One party issues calls one after the other. Between two calls the outside may move
the world; during a call nobody else does. The answers to a call's requests may be
limited by the call and by the state it started in, and `accept` may leave out calls
by how they ended.

`Session.inv_of_reach` is the invariant rule: what every call, run alone, and every
move of the outside preserve holds in every reachable state.
-/

set_option autoImplicit false

namespace CS

open Program

variable {W Req : Type} {Ans : Req → Type} {σ Call : Type}

/-- The calls of a party, when it may make them, how their requests are answered,
which of their outcomes count, and the moves of the outside between calls. -/
structure Session (W : Type) {Req : Type} (Ans : Req → Type) (σ Call : Type) where
  code : Call → σ → Program Ans σ
  may : Call → σ → W → Prop
  serve : Call → σ → (r : Req) → W → Ans r → W → Prop
  accept : Call → σ → W → σ → W → Prop := fun _ _ _ _ _ => True
  outside : W → W → Prop := fun _ _ => False

namespace Session

/-- Only the outcomes that satisfy `K` count. -/
def within (S : Session W Ans σ Call) (K : Call → σ → W → σ → W → Prop) :
    Session W Ans σ Call :=
  { S with accept := fun c s w s' w' => S.accept c s w s' w' ∧ K c s w s' w' }

/-- Only the calls that satisfy `K` are made, and only the answers that satisfy `L` are
given to them. -/
def limit (S : Session W Ans σ Call) (K : Call → σ → Prop) (L : Call → (r : Req) → Ans r → Prop) :
    Session W Ans σ Call :=
  { S with
    may := fun c s w => S.may c s w ∧ K c s
    serve := fun c s r w x w' => S.serve c s r w x w' ∧ L c r x }

/-- Only the calls that satisfy `K` in the world they start in are made. -/
def restrict (S : Session W Ans σ Call) (K : Call → σ → W → Prop) : Session W Ans σ Call :=
  { S with may := fun c s w => S.may c s w ∧ K c s w }

/-- The states a session can get to. -/
inductive Reach (S : Session W Ans σ Call) (s₀ : σ) (w₀ : W) : σ → W → Prop
  | refl : Reach S s₀ w₀ s₀ w₀
  | call {s s' : σ} {w w' : W} (c : Call) : Reach S s₀ w₀ s w → S.may c s w →
      Runs (S.serve c s) (S.code c s) w s' w' → S.accept c s w s' w' → Reach S s₀ w₀ s' w'
  | outside {s : σ} {w w' : W} : Reach S s₀ w₀ s w → S.outside w w' → Reach S s₀ w₀ s w'

variable {S : Session W Ans σ Call} {s₀ : σ} {w₀ : W}

/-- An invariant of the calls and of the outside holds in every reachable state. -/
theorem inv_of_reach (inv : σ → W → Prop) (h₀ : inv s₀ w₀)
    (hcall : ∀ c s w, inv s w → S.may c s w →
      wp (.alone (S.serve c s)) (S.code c s) (fun s' w' => S.accept c s w s' w' → inv s' w') w)
    (hout : ∀ s w w', inv s w → S.outside w w' → inv s w')
    {s : σ} {w : W} (h : Reach S s₀ w₀ s w) : inv s w := by
  induction h with
  | refl => exact h₀
  | call c _ hm hr ha ih => exact wp_alone_iff.mp (hcall c _ _ ih hm) _ _ hr ha
  | outside _ ho ih => exact hout _ _ _ ih ho

end Session
end CS
