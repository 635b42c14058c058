import SqliteObjs.CS.Program

/-!
# Crashes

A party that crashes stops in the middle of a program and leaves the world as the requests up to
there made it. `Program.Crashes` are the worlds it may leave, the one it started in and the one at
its return among them.

What every request keeps holds in all of them (`Program.Uses.inv_of_crashes`), and so does what the
guarantee of a setting keeps, whenever the program has a weakest precondition there
(`Program.wp_crashes`). A crash in a sequence is one in its first part, or one in the second after
the first returned (`Program.Crashes.of_bind`).
-/

set_option autoImplicit false

namespace CS.Program

variable {Req W : Type} {Ans : Req → Type} {α β : Type}
  {serve : (r : Req) → W → Ans r → W → Prop} {m : Program Ans α} {w w' : W} {I : W → Prop}

/-- The program, started in `w`, may stop in `w'`. -/
inductive Crashes (serve : (r : Req) → W → Ans r → W → Prop) : Program Ans α → W → W → Prop
  | here (m : Program Ans α) (w : W) : Crashes serve m w w
  | call {r : Req} {k : Ans r → Program Ans α} {w w₁ w₂ : W} {x : Ans r} :
      serve r w x w₁ → Crashes serve (k x) w₁ w₂ → Crashes serve (.call r k) w w₂

theorem crashes_of_runs {a : α} (hr : Runs serve m w a w') : Crashes serve m w w' := by
  induction hr with
  | ret a w => exact .here _ _
  | call hs _ ih => exact .call hs ih

theorem runs_ret {a b : α} (h : Runs serve (.ret a) w b w') : b = a ∧ w' = w := by
  cases h
  exact ⟨rfl, rfl⟩

/-- A run of a sequence is a run of each part. -/
theorem Runs.of_bind {f : α → Program Ans β} {b : β} (h : Runs serve (m >>= f) w b w') :
    ∃ a w₁, Runs serve m w a w₁ ∧ Runs serve (f a) w₁ b w' := by
  induction m generalizing w with
  | ret a => exact ⟨a, w, .ret a w, h⟩
  | call r k ih =>
    rw [call_bind] at h
    cases h with
    | call hs hk =>
      obtain ⟨a, w₁, hr, hf⟩ := ih _ hk
      exact ⟨a, w₁, .call hs hr, hf⟩

theorem crashes_ret {a : α} (h : Crashes serve (.ret a : Program Ans α) w w') : w' = w := by
  cases h
  rfl

theorem Crashes.of_bind {f : α → Program Ans β} (h : Crashes serve (m >>= f) w w') :
    Crashes serve m w w' ∨ ∃ a w₁, Runs serve m w a w₁ ∧ Crashes serve (f a) w₁ w' := by
  induction m generalizing w with
  | ret a => exact Or.inr ⟨a, w, .ret a w, h⟩
  | call r k ih =>
    rw [call_bind] at h
    cases h with
    | here => exact Or.inl (.here _ _)
    | call hs hk =>
      rcases ih _ hk with hk | ⟨a, w₁, hr, hf⟩
      · exact Or.inl (.call hs hk)
      · exact Or.inr ⟨a, w₁, .call hs hr, hf⟩

/-- What every request of the program keeps. -/
theorem Uses.inv_of_crashes {P : Req → Prop} (hm : Uses P m)
    (hI : ∀ r w x w', P r → serve r w x w' → I w → I w') (hw : I w) (h : Crashes serve m w w') :
    I w' := by
  induction h with
  | here => exact hw
  | call hs _ ih => exact ih (hm.2 _) (hI _ _ _ _ hm.1 hs hw)

/-- Alone, and every answered request keeps `I`. -/
def Setting.keeping (serve : (r : Req) → W → Ans r → W → Prop) (I : W → Prop) : Setting W Ans where
  rely := Eq
  serve := serve
  guar w w' := I w → I w'
  rely_refl _ := rfl
  rely_trans := Eq.trans

theorem wp_keeping_ret {a : α} {Q : α → W → Prop} :
    wp (.keeping serve I) (.ret a) Q w ↔ Q a w := by
  constructor
  · exact fun h => h w rfl
  · rintro h _ rfl
    exact h

/-- What a program keeps holds wherever it crashes. -/
theorem wp_crashes {Q : α → W → Prop} (hm : wp (.keeping serve I) m Q w) (hw : I w)
    (h : Crashes serve m w w') : I w' := by
  induction h with
  | here => exact hw
  | call hs _ ih =>
    obtain ⟨hg, hk⟩ := hm _ rfl _ _ hs
    exact ih hk (hg hw)

/-- The results of a program that keeps `I`. -/
theorem runs_keeping {Q : α → W → Prop} {a : α} (hm : wp (.keeping serve I) m Q w)
    (hr : Runs serve m w a w') : Q a w' := by
  induction hr with
  | ret a w => exact hm w rfl
  | call hs _ ih => exact ih (hm _ rfl _ _ hs).2

end CS.Program
