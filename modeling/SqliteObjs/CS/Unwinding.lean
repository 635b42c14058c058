import SqliteObjs.CS.Program

/-!
# Two runs of one party

A party makes calls one after the other, each with the environment's choices for its
requests. Some of the calls are observed. `Unwinding.observe_eq` is the rule for a
statement about two runs: when a relation between two states survives the calls nobody
observes, in one run or the other, and two related states give an observed call the same
result, then two runs with the same observed calls observe the same results, whatever
else they do.

`Coupled` relates two programs that issue the same requests and look at the answers in
the same way; it is how the second condition is shown.
-/

set_option autoImplicit false

namespace CS

open Program

variable {W C Req : Type} {Ans : Req → Type} {α β γ δ : Type}

namespace Program

/-- Both programs issue the same requests, all of them in `P`, and return results related
by `Q`, as long as their answers are related by `E`. -/
inductive Coupled (E : (r : Req) → Ans r → Ans r → Prop) (P : Req → Prop) (Q : α → β → Prop) :
    Program Ans α → Program Ans β → Prop
  | ret {a : α} {b : β} : Q a b → Coupled E P Q (.ret a) (.ret b)
  | call {r : Req} {k : Ans r → Program Ans α} {k' : Ans r → Program Ans β} : P r →
      (∀ x y, E r x y → Coupled E P Q (k x) (k' y)) → Coupled E P Q (.call r k) (.call r k')

section Coupled

variable {E : (r : Req) → Ans r → Ans r → Prop} {P : Req → Prop} {Q : α → β → Prop}
  {R : γ → δ → Prop} {m : Program Ans α} {n : Program Ans β}

theorem Coupled.bind {f : α → Program Ans γ} {g : β → Program Ans δ} (hm : Coupled E P Q m n)
    (hf : ∀ a b, Q a b → Coupled E P R (f a) (g b)) : Coupled E P R (m >>= f) (n >>= g) := by
  induction hm with
  | ret hq => exact hf _ _ hq
  | call hP _ ih => exact .call hP fun x y hxy => ih x y hxy

theorem Coupled.ite {c d : Prop} [Decidable c] [Decidable d] {m' : Program Ans α}
    {n' : Program Ans β} (hcd : c ↔ d) (h : c → Coupled E P Q m n)
    (h' : ¬c → Coupled E P Q m' n') :
    Coupled E P Q (if c then m else m') (if d then n else n') := by
  by_cases hc : c
  · rw [if_pos hc, if_pos (hcd.mp hc)]
    exact h hc
  · rw [if_neg hc, if_neg fun hd => hc (hcd.mpr hd)]
    exact h' hc

/-- Coupled programs keep related worlds related under the same choices. -/
theorem Coupled.exec {respond : C → (r : Req) → W → Option (Ans r × W)} {S : W → W → Prop}
    (hS : ∀ c r w w' x y u u', P r → S w w' → respond c r w = some (x, u) →
      respond c r w' = some (y, u') → E r x y ∧ S u u')
    (h : Coupled E P Q m n) : ∀ (cs : List C) {w w' u u' : W} {a : α} {b : β}, S w w' →
      exec respond cs m w = some (a, u) → exec respond cs n w' = some (b, u') →
      Q a b ∧ S u u' := by
  induction h with
  | ret hq =>
    intro cs w w' u u' a b hw hm hn
    simp only [Program.exec, Option.some.injEq, Prod.mk.injEq] at hm hn
    obtain ⟨rfl, rfl⟩ := hm
    obtain ⟨rfl, rfl⟩ := hn
    exact ⟨hq, hw⟩
  | @call r k k' hP _ ih =>
    intro cs w w' u u' a b hw hm hn
    cases cs with
    | nil => cases hm
    | cons c cs =>
      simp only [Program.exec] at hm hn
      cases hx : respond c r w with
      | none => simp [hx] at hm
      | some xw =>
        cases hy : respond c r w' with
        | none => simp [hy] at hn
        | some yw =>
          obtain ⟨x, w₁⟩ := xw
          obtain ⟨y, w₁'⟩ := yw
          rw [hx] at hm
          rw [hy] at hn
          obtain ⟨hxy, hw₁⟩ := hS c r w w' x y w₁ w₁' hP hw hx hy
          exact ih x y hxy cs hw₁ hm hn

end Coupled
end Program

/-! ## Runs with observed calls -/

variable {σ ρ Call : Type}

/-- A call with the choices the environment makes during it. -/
structure Op (Call C : Type) where
  call : Call
  choices : List C

section Observe

variable (respond : C → (r : Req) → W → Option (Ans r × W))
  (code : Call → σ → Program Ans (σ × ρ))

/-- Make one call. -/
def Op.exec (o : Op Call C) (s : σ) (w : W) : Option ((σ × ρ) × W) :=
  Program.exec respond o.choices (code o.call s) w

/-- Make the calls in order; the results of those that `own` selects. `none` when the
choices of a call do not fit it. -/
def observe (own : Call → Bool) : List (Op Call C) → σ → W → Option (List ρ)
  | [], _, _ => some []
  | o :: os, s, w =>
    match o.exec respond code s w with
    | none => none
    | some ((s', r), w') =>
      (observe own os s' w').map fun rs => if own o.call then r :: rs else rs

/-- Every call of the run satisfies `K` in the state it is made in. -/
def Meets (K : Call → σ → W → Prop) : List (Op Call C) → σ → W → Prop
  | [], _, _ => True
  | o :: os, s, w => K o.call s w ∧
      ∀ s' r w', o.exec respond code s w = some ((s', r), w') → Meets K os s' w'

/-- A relation between the states of two runs that observe the calls in `own`. -/
structure Unwinding (own : Call → Bool) (K : Call → σ → W → Prop)
    (R : σ × W → σ × W → Prop) : Prop where
  symm : ∀ {x y}, R x y → R y x
  /-- A call that is not observed may be made in one of the runs only. -/
  other : ∀ {s w y} {o : Op Call C} {s' r w'}, R (s, w) y → own o.call = false → K o.call s w →
    o.exec respond code s w = some ((s', r), w') → R (s', w') y
  /-- A call that is observed gives the same result in both. -/
  own : ∀ {s w t u} {o : Op Call C} {s' r w' t' q u'}, R (s, w) (t, u) → own o.call = true →
    K o.call s w → K o.call t u → o.exec respond code s w = some ((s', r), w') →
    o.exec respond code t u = some ((t', q), u') → r = q ∧ R (s', w') (t', u')

end Observe

section Rule

variable {respond : C → (r : Req) → W → Option (Ans r × W)}
  {code : Call → σ → Program Ans (σ × ρ)} {own : Call → Bool} {K : Call → σ → W → Prop}
  {R : σ × W → σ × W → Prop} {o : Op Call C} {os : List (Op Call C)} {s : σ} {w : W}
  {rs : List ρ}

/-- The first call of an observed run. -/
theorem observe_cons (h : observe respond code own (o :: os) s w = some rs) :
    ∃ s' r w' rs', o.exec respond code s w = some ((s', r), w') ∧
      observe respond code own os s' w' = some rs' ∧
      rs = if own o.call then r :: rs' else rs' := by
  simp only [observe] at h
  cases he : o.exec respond code s w with
  | none => simp [he] at h
  | some x =>
    obtain ⟨⟨s', r⟩, w'⟩ := x
    rw [he] at h
    obtain ⟨rs', hrs', hrs⟩ := Option.map_eq_some_iff.mp h
    exact ⟨s', r, w', rs', rfl, hrs', hrs.symm⟩

/-- One call more at the front. -/
theorem Meets.cons {s' : σ} {r : ρ} {w' : W} (hK : K o.call s w)
    (he : o.exec respond code s w = some ((s', r), w')) (hm : Meets respond code K os s' w') :
    Meets respond code K (o :: os) s w := by
  refine ⟨hK, fun s₁ r₁ w₁ he₁ => ?_⟩
  rw [he] at he₁
  obtain ⟨hsr, rfl⟩ := Prod.mk.inj (Option.some.inj he₁)
  obtain ⟨rfl, -⟩ := Prod.mk.inj hsr
  exact hm

/-- A run up to its first observed call. -/
theorem Unwinding.skip (hU : Unwinding respond code own K R) {y : σ × W} {os' : List (Op Call C)}
    (hR : R (s, w) y) (hm : Meets respond code K os s w)
    (hf : os.filter (fun o => own o.call) = o :: os')
    (ho : observe respond code own os s w = some rs) :
    ∃ os₁ s₁ w₁, os₁.filter (fun o => own o.call) = os' ∧ R (s₁, w₁) y ∧
      Meets respond code K (o :: os₁) s₁ w₁ ∧
      observe respond code own (o :: os₁) s₁ w₁ = some rs := by
  induction os generalizing s w with
  | nil => cases hf
  | cons o' os ih =>
    cases hown : own o'.call with
    | true =>
      rw [List.filter_cons_of_pos (by simpa using hown)] at hf
      obtain ⟨rfl, hrest⟩ := List.cons.inj hf
      exact ⟨os, s, w, hrest, hR, hm, ho⟩
    | false =>
      rw [List.filter_cons_of_neg (by simp [hown])] at hf
      obtain ⟨s', r, w', rs', he, ho', hrs⟩ := observe_cons ho
      obtain rfl : rs = rs' := by simpa [hown] using hrs
      exact ih (hU.other hR hown hm.1 he) (hm.2 _ _ _ he) hf ho'

/-- Nothing is observed when no call is. -/
theorem observe_none (hf : os.filter (fun o => own o.call) = [])
    (ho : observe respond code own os s w = some rs) : rs = [] := by
  induction os generalizing s w rs with
  | nil => exact (Option.some.inj ho).symm
  | cons o os ih =>
    have hown : own o.call = false := by
      have := List.filter_eq_nil_iff.mp hf o List.mem_cons_self
      simpa using this
    rw [List.filter_cons_of_neg (by simp [hown])] at hf
    obtain ⟨s', r, w', rs', -, ho', hrs⟩ := observe_cons ho
    rw [hrs, hown]
    exact ih hf ho'

/-- Two runs that make the same observed calls, from related states, observe the same. -/
theorem Unwinding.observe_eq (hU : Unwinding respond code own K R) {os' : List (Op Call C)} {t : σ}
    {u : W} {rs' : List ρ} (hR : R (s, w) (t, u))
    (hf : os.filter (fun o => own o.call) = os'.filter fun o => own o.call)
    (hm : Meets respond code K os s w) (hm' : Meets respond code K os' t u)
    (ho : observe respond code own os s w = some rs)
    (ho' : observe respond code own os' t u = some rs') : rs = rs' := by
  induction os generalizing s w t u os' rs rs' with
  | nil =>
    rw [observe_none rfl ho, observe_none hf.symm ho']
  | cons o os ih =>
    obtain ⟨s₁, r, w₁, rs₁, he, ho₁, rfl⟩ := observe_cons ho
    cases hown : own o.call with
    | false =>
      rw [List.filter_cons_of_neg (by simp [hown])] at hf
      exact ih (hU.other hR hown hm.1 he) hf (hm.2 _ _ _ he) hm' ho₁ ho'
    | true =>
      -- the other run gets to the same call; until then it observes nothing
      rw [List.filter_cons_of_pos (by simpa using hown)] at hf
      obtain ⟨os₂, t₂, u₂, hf₂, hR₂, hm₂, ho₂⟩ := hU.skip (hU.symm hR) hm' hf.symm ho'
      obtain ⟨t₁, q, u₁, rs₂, he₂, hrest, rfl⟩ := observe_cons ho₂
      obtain ⟨rfl, hR₁⟩ := hU.own (hU.symm hR₂) hown hm.1 hm₂.1 he he₂
      rw [ih hR₁ hf₂.symm (hm.2 _ _ _ he) (hm₂.2 _ _ _ he₂) ho₁ hrest, hown]

end Rule
end CS
