import Mathlib.Tactic.Common

/-!
# Programs that issue requests

A program is a finite tree: it either returns, or issues a request and continues
with the answer. Nothing is said about who answers. The same program is given
three readings below:

* `Program.exec` answers from a list of choices, for concrete runs;
* `Program.Runs` relates a program and a world to the results it can end in;
* `Program.wp` is the weakest precondition when other parties may move the world
  between any two requests.

The rely of a `Setting` bounds what the others may do, its guarantee is what each
answered request must respect in return. With the equality as rely nobody else
moves, and `wp` is a statement about `Runs` (`Program.wp_alone_iff`).
-/

set_option autoImplicit false

namespace CS

/-- A program over requests `r : Req` answered by values of type `Ans r`. -/
inductive Program {Req : Type} (Ans : Req → Type) (α : Type) : Type
  | ret (a : α) : Program Ans α
  | call (r : Req) (k : Ans r → Program Ans α) : Program Ans α

namespace Program

variable {Req : Type} {Ans : Req → Type} {α β : Type} {W C : Type}

/-- Sequencing. -/
def bind : Program Ans α → (α → Program Ans β) → Program Ans β
  | .ret a, f => f a
  | .call r k, f => .call r fun x => bind (k x) f

instance : Monad (Program Ans) where
  pure := .ret
  bind := bind

/-- Issue one request and return its answer. -/
def request (r : Req) : Program Ans (Ans r) := .call r .ret

@[simp] theorem pure_eq_ret (a : α) : (pure a : Program Ans α) = .ret a := rfl

@[simp] theorem ret_bind (a : α) (f : α → Program Ans β) :
    (Program.ret a >>= f) = f a := rfl

@[simp] theorem call_bind (r : Req) (k : Ans r → Program Ans α) (f : α → Program Ans β) :
    (Program.call r k >>= f) = .call r fun x => k x >>= f := rfl

theorem bind_ret (m : Program Ans α) : m.bind .ret = m := by
  induction m with
  | ret a => rfl
  | call r k ih =>
    simp only [bind]
    congr 1
    funext x
    exact ih x

theorem bind_assoc {γ : Type} (m : Program Ans α) (f : α → Program Ans β)
    (g : β → Program Ans γ) : (m.bind f).bind g = m.bind fun a => (f a).bind g := by
  induction m with
  | ret a => rfl
  | call r k ih =>
    simp only [bind]
    congr 1
    funext x
    exact ih x

instance : LawfulMonad (Program Ans) :=
  LawfulMonad.mk' _ bind_ret (fun _ _ => rfl) bind_assoc

/-! ## Execution from a list of choices -/

/-- Answer the requests in order, one choice each. `none` means that a choice was
refused by `respond` or that the choices ran out. -/
def exec (respond : C → (r : Req) → W → Option (Ans r × W)) :
    List C → Program Ans α → W → Option (α × W)
  | _, .ret a, w => some (a, w)
  | [], .call _ _, _ => none
  | c :: cs, .call r k, w =>
    match respond c r w with
    | none => none
    | some (x, w') => exec respond cs (k x) w'

/-- A program started in `w` can return `a` in `w'`. -/
inductive Runs (serve : (r : Req) → W → Ans r → W → Prop) :
    Program Ans α → W → α → W → Prop
  | ret (a : α) (w : W) : Runs serve (.ret a) w a w
  | call {r : Req} {k : Ans r → Program Ans α} {w w₁ w₂ : W} {x : Ans r} {a : α} :
      serve r w x w₁ → Runs serve (k x) w₁ a w₂ → Runs serve (.call r k) w a w₂

theorem Runs.mono {serve serve' : (r : Req) → W → Ans r → W → Prop}
    (h : ∀ r w x w', serve r w x w' → serve' r w x w') {m : Program Ans α} {w w' : W} {a : α}
    (hr : Runs serve m w a w') : Runs serve' m w a w' := by
  induction hr with
  | ret a w => exact .ret a w
  | call hs _ ih => exact .call (h _ _ _ _ hs) ih

theorem Runs.bind {serve : (r : Req) → W → Ans r → W → Prop} {m : Program Ans α}
    {f : α → Program Ans β} {w w₁ w₂ : W} {a : α} {b : β} (hm : Runs serve m w a w₁)
    (hf : Runs serve (f a) w₁ b w₂) : Runs serve (m >>= f) w b w₂ := by
  induction hm with
  | ret a w => exact hf
  | call hs _ ih => exact .call hs (ih hf)

/-- The answers some choice that satisfies `ok` leads to. -/
def Served (ok : C → Prop) (respond : C → (r : Req) → W → Option (Ans r × W)) (r : Req) (w : W)
    (x : Ans r) (w' : W) : Prop :=
  ∃ c, ok c ∧ respond c r w = some (x, w')

theorem runs_of_exec {ok : C → Prop} {respond : C → (r : Req) → W → Option (Ans r × W)} :
    ∀ (cs : List C) {m : Program Ans α} {w : W} {a : α} {w' : W}, (∀ c ∈ cs, ok c) →
      exec respond cs m w = some (a, w') → Runs (Served ok respond) m w a w'
  | cs, .ret a, w, b, w', _, h => by
    simp only [exec, Option.some.injEq, Prod.mk.injEq] at h
    obtain ⟨rfl, rfl⟩ := h
    exact .ret _ _
  | [], .call r k, w, a, w', _, h => by simp [exec] at h
  | c :: cs, .call r k, w, a, w', hcs, h => by
    simp only [exec] at h
    cases hc : respond c r w with
    | none => simp [hc] at h
    | some xw =>
      obtain ⟨x, w₁⟩ := xw
      rw [hc] at h
      exact .call ⟨c, hcs c List.mem_cons_self, hc⟩
        (runs_of_exec cs (fun c' hc' => hcs c' (List.mem_cons_of_mem _ hc')) h)

/-- Every request the program may issue satisfies `P`. -/
def Uses (P : Req → Prop) : Program Ans α → Prop
  | .ret _ => True
  | .call r k => P r ∧ ∀ x, Uses P (k x)

section Uses

variable {P : Req → Prop}

@[simp] theorem uses_ret {a : α} : Uses P (.ret a : Program Ans α) := trivial

@[simp] theorem uses_call {r : Req} {k : Ans r → Program Ans α} :
    Uses P (.call r k) ↔ P r ∧ ∀ x, Uses P (k x) := Iff.rfl

theorem Uses.bind {m : Program Ans α} {f : α → Program Ans β} (hm : Uses P m)
    (hf : ∀ a, Uses P (f a)) : Uses P (m >>= f) := by
  induction m with
  | ret a => exact hf a
  | call r k ih => exact ⟨hm.1, fun x => ih x (hm.2 x)⟩

theorem Uses.ite {c : Prop} [Decidable c] {m m' : Program Ans α} (hm : Uses P m)
    (hm' : Uses P m') : Uses P (if c then m else m') := by
  by_cases hc : c
  · rwa [if_pos hc]
  · rwa [if_neg hc]

/-- A program whose requests are always answered can run to its end. -/
theorem Uses.exists_runs {serve : (r : Req) → W → Ans r → W → Prop} {m : Program Ans α}
    (hm : Uses P m) (hs : ∀ r w, P r → ∃ x w', serve r w x w') (w : W) :
    ∃ a w', Runs serve m w a w' := by
  induction m generalizing w with
  | ret a => exact ⟨a, w, .ret a w⟩
  | call r k ih =>
    obtain ⟨x, w₁, hx⟩ := hs r w hm.1
    obtain ⟨a, w₂, ha⟩ := ih x (hm.2 x) w₁
    exact ⟨a, w₂, .call hx ha⟩

end Uses

/-- Every request the program may issue satisfies `P` and every result it may return
satisfies `Q`, whatever the answers are. -/
def Within (P : Req → Prop) (Q : α → Prop) : Program Ans α → Prop
  | .ret a => Q a
  | .call r k => P r ∧ ∀ x, Within P Q (k x)

section Within

variable {P : Req → Prop} {Q Q' : α → Prop} {R : β → Prop} {m : Program Ans α}

@[simp] theorem within_ret {a : α} : Within P Q (.ret a : Program Ans α) ↔ Q a := Iff.rfl

@[simp] theorem within_call {r : Req} {k : Ans r → Program Ans α} :
    Within P Q (.call r k) ↔ P r ∧ ∀ x, Within P Q (k x) := Iff.rfl

theorem Within.bind {f : α → Program Ans β} (hm : Within P Q m)
    (hf : ∀ a, Q a → Within P R (f a)) : Within P R (m >>= f) := by
  induction m with
  | ret a => exact hf a hm
  | call r k ih => exact ⟨hm.1, fun x => ih x (hm.2 x)⟩

theorem Within.mono {P' : Req → Prop} (hP : ∀ r, P r → P' r) (hQ : ∀ a, Q a → Q' a)
    (hm : Within P Q m) : Within P' Q' m := by
  induction m with
  | ret a => exact hQ a hm
  | call r k ih => exact ⟨hP r hm.1, fun x => ih x (hm.2 x)⟩

theorem Within.ite {c : Prop} [Decidable c] {m' : Program Ans α} (hm : Within P Q m)
    (hm' : Within P Q m') : Within P Q (if c then m else m') := by
  by_cases hc : c
  · rwa [if_pos hc]
  · rwa [if_neg hc]

theorem Within.uses (hm : Within P Q m) : Uses P m := by
  induction m with
  | ret a => trivial
  | call r k ih => exact ⟨hm.1, fun x => ih x (hm.2 x)⟩

theorem Uses.within (hm : Uses P m) : Within P (fun _ => True) m := by
  induction m with
  | ret a => trivial
  | call r k ih => exact ⟨hm.1, fun x => ih x (hm.2 x)⟩

/-- What is known of the result of `m` may be used for the requests that follow. -/
theorem Within.uses_bind {f : α → Program Ans β} (hm : Within P Q m)
    (hf : ∀ a, Q a → Uses P (f a)) : Uses P (m >>= f) :=
  (hm.bind fun a ha => (hf a ha).within).uses

theorem Within.of_runs {serve : (r : Req) → W → Ans r → W → Prop} (hm : Within P Q m) {w w' : W}
    {a : α} (hr : Runs serve m w a w') : Q a := by
  induction hr with
  | ret a w => exact hm
  | call _ _ ih => exact ih (hm.2 _)

/-- What every answer to a request in `P` preserves holds at the end of a run. -/
theorem Within.inv_of_runs {serve : (r : Req) → W → Ans r → W → Prop} {I : W → Prop}
    (hm : Within P Q m) (hI : ∀ r w x w', P r → serve r w x w' → I w → I w') {w w' : W} {a : α}
    (hr : Runs serve m w a w') (hw : I w) : I w' := by
  induction hr with
  | ret a w => exact hw
  | call hs _ ih => exact ih (hm.2 _) (hI _ _ _ _ hm.1 hs hw)

end Within

/-- Every result the program may return satisfies `Q`, as long as the answers it gets
satisfy `A`. -/
def Returns (A : (r : Req) → Ans r → Prop) (Q : α → Prop) : Program Ans α → Prop
  | .ret a => Q a
  | .call r k => ∀ x, A r x → Returns A Q (k x)

section Returns

variable {A : (r : Req) → Ans r → Prop} {Q Q' : α → Prop} {R : β → Prop} {m : Program Ans α}

@[simp] theorem returns_ret {a : α} : Returns A Q (.ret a : Program Ans α) ↔ Q a := Iff.rfl

@[simp] theorem returns_call {r : Req} {k : Ans r → Program Ans α} :
    Returns A Q (.call r k) ↔ ∀ x, A r x → Returns A Q (k x) := Iff.rfl

theorem Returns.bind {f : α → Program Ans β} (hm : Returns A Q m)
    (hf : ∀ a, Q a → Returns A R (f a)) : Returns A R (m >>= f) := by
  induction m with
  | ret a => exact hf a hm
  | call r k ih => exact fun x hx => ih x (hm x hx)

theorem Returns.mono (hQ : ∀ a, Q a → Q' a) (hm : Returns A Q m) : Returns A Q' m := by
  induction m with
  | ret a => exact hQ a hm
  | call r k ih => exact fun x hx => ih x (hm x hx)

theorem Returns.ite {c : Prop} [Decidable c] {m' : Program Ans α} (hm : Returns A Q m)
    (hm' : Returns A Q m') : Returns A Q (if c then m else m') := by
  by_cases hc : c
  · rwa [if_pos hc]
  · rwa [if_neg hc]

theorem returns_true (m : Program Ans α) : Returns A (fun _ => True) m := by
  induction m with
  | ret a => trivial
  | call r k ih => exact fun x _ => ih x

/-- The results of a program whose own results do not matter. -/
theorem returns_bind (m : Program Ans α) {f : α → Program Ans β} (hf : ∀ a, Returns A R (f a)) :
    Returns A R (m >>= f) :=
  (returns_true m).bind fun a _ => hf a

theorem Returns.weaken {A' : (r : Req) → Ans r → Prop} (hA : ∀ r x, A' r x → A r x)
    (hm : Returns A Q m) : Returns A' Q m := by
  induction m with
  | ret a => exact hm
  | call r k ih => exact fun x hx => ih x (hm x (hA r x hx))

/-- Where every request can be answered there is a result. -/
theorem Returns.exists (hA : ∀ r, ∃ x, A r x) (hm : Returns A Q m) : ∃ a, Q a := by
  induction m with
  | ret a => exact ⟨a, hm⟩
  | call r k ih =>
    obtain ⟨x, hx⟩ := hA r
    exact ih x (hm x hx)

theorem Returns.and (hm : Returns A Q m) (hm' : Returns A Q' m) :
    Returns A (fun a => Q a ∧ Q' a) m := by
  induction m with
  | ret a => exact ⟨hm, hm'⟩
  | call r k ih => exact fun x hx => ih x (hm x hx) (hm' x hx)

theorem Returns.of_runs {serve : (r : Req) → W → Ans r → W → Prop} (hm : Returns A Q m)
    (hA : ∀ r w x w', serve r w x w' → A r x) {w w' : W} {a : α} (hr : Runs serve m w a w') :
    Q a := by
  induction hr with
  | ret a w => exact hm
  | call hs _ ih => exact ih (hm _ (hA _ _ _ _ hs))

end Returns

/-! ## Weakest preconditions under interference -/

/-- What a program runs against: how others may move the world (`rely`), how its
own requests are answered (`serve`), and what each answered request must respect
(`guar`). -/
structure Setting (W : Type) {Req : Type} (Ans : Req → Type) where
  rely : W → W → Prop
  serve : (r : Req) → W → Ans r → W → Prop
  guar : W → W → Prop
  rely_refl : ∀ w, rely w w
  rely_trans : ∀ {u v w}, rely u v → rely v w → rely u w

/-- The setting in which nobody else moves. -/
def Setting.alone (serve : (r : Req) → W → Ans r → W → Prop) : Setting W Ans where
  rely := Eq
  serve := serve
  guar _ _ := True
  rely_refl _ := rfl
  rely_trans := Eq.trans

/-- Every run of the program from `w`, interleaved with any moves the rely allows,
keeps the guarantee at each request and ends in `Q`. -/
def wp (E : Setting W Ans) : Program Ans α → (α → W → Prop) → W → Prop
  | .ret a, Q, w => ∀ w₁, E.rely w w₁ → Q a w₁
  | .call r k, Q, w => ∀ w₁, E.rely w w₁ → ∀ x w₂, E.serve r w₁ x w₂ →
      E.guar w₁ w₂ ∧ wp E (k x) Q w₂

section Wp

variable {E : Setting W Ans}

theorem wp_ret {a : α} {Q : α → W → Prop} {w : W} :
    wp E (.ret a) Q w ↔ ∀ w₁, E.rely w w₁ → Q a w₁ := Iff.rfl

theorem wp_call {r : Req} {k : Ans r → Program Ans α} {Q : α → W → Prop} {w : W} :
    wp E (.call r k) Q w ↔ ∀ w₁, E.rely w w₁ → ∀ x w₂, E.serve r w₁ x w₂ →
      E.guar w₁ w₂ ∧ wp E (k x) Q w₂ := Iff.rfl

theorem wp_mono {m : Program Ans α} {Q Q' : α → W → Prop}
    (hQ : ∀ a w, Q a w → Q' a w) : ∀ {w : W}, wp E m Q w → wp E m Q' w := by
  induction m with
  | ret a => exact fun h w₁ hw => hQ a w₁ (h w₁ hw)
  | call r k ih =>
    intro w h w₁ hw x w₂ hs
    obtain ⟨hg, hk⟩ := h w₁ hw x w₂ hs
    exact ⟨hg, ih x hk⟩

theorem wp_and {m : Program Ans α} {Q Q' : α → W → Prop} :
    ∀ {w : W}, wp E m Q w → wp E m Q' w → wp E m (fun a w => Q a w ∧ Q' a w) w := by
  induction m with
  | ret a => exact fun h h' w₁ hw => ⟨h w₁ hw, h' w₁ hw⟩
  | call r k ih =>
    intro w h h' w₁ hw x w₂ hs
    exact ⟨(h w₁ hw x w₂ hs).1, ih x (h w₁ hw x w₂ hs).2 (h' w₁ hw x w₂ hs).2⟩

theorem wp_imp {P : Prop} {m : Program Ans α} {Q : α → W → Prop} :
    ∀ {w : W}, (P → wp E m Q w) → (¬P → wp E m (fun _ _ => True) w) →
      wp E m (fun a w => P → Q a w) w := by
  intro w h h'
  by_cases hP : P
  · exact wp_mono (fun _ _ hq _ => hq) (h hP)
  · exact wp_mono (fun _ _ _ hp => absurd hp hP) (h' hP)

/-- What a program ensures is not disturbed by the moves of others. -/
theorem wp_stable {m : Program Ans α} {Q : α → W → Prop} {w w' : W}
    (hw : E.rely w w') (h : wp E m Q w) : wp E m Q w' := by
  cases m with
  | ret a => exact fun w₁ hw₁ => h w₁ (E.rely_trans hw hw₁)
  | call r k => exact fun w₁ hw₁ => h w₁ (E.rely_trans hw hw₁)

theorem wp_bind {m : Program Ans α} {f : α → Program Ans β} {Q : β → W → Prop} :
    ∀ {w : W}, wp E (m >>= f) Q w ↔ wp E m (fun a w' => wp E (f a) Q w') w := by
  induction m with
  | ret a =>
    intro w
    exact ⟨fun h w₁ hw => wp_stable hw h, fun h => h w (E.rely_refl w)⟩
  | call r k ih =>
    intro w
    simp only [call_bind, wp_call, ih]

end Wp

/-! ### Nobody else moves -/

section Alone

variable {serve : (r : Req) → W → Ans r → W → Prop}

@[simp] theorem wp_alone_ret {a : α} {Q : α → W → Prop} {w : W} :
    wp (.alone serve) (.ret a) Q w ↔ Q a w := by
  simp [wp_ret, Setting.alone]

@[simp] theorem wp_alone_call {r : Req} {k : Ans r → Program Ans α} {Q : α → W → Prop}
    {w : W} : wp (.alone serve) (.call r k) Q w ↔
      ∀ x w', serve r w x w' → wp (.alone serve) (k x) Q w' := by
  simp [wp_call, Setting.alone]

/-- Alone, the weakest precondition is the statement about all runs. -/
theorem wp_alone_iff {m : Program Ans α} {Q : α → W → Prop} :
    ∀ {w : W}, wp (.alone serve) m Q w ↔ ∀ a w', Runs serve m w a w' → Q a w' := by
  induction m with
  | ret a =>
    intro w
    rw [wp_alone_ret]
    constructor
    · intro h b w' hr
      cases hr
      exact h
    · exact fun h => h a w (.ret a w)
  | call r k ih =>
    intro w
    rw [wp_alone_call]
    constructor
    · intro h b w' hr
      cases hr with
      | call hs hk => exact (ih _).mp (h _ _ hs) b w' hk
    · intro h x w₁ hs
      exact (ih x).mpr fun b w' hk => h b w' (.call hs hk)

theorem Returns.wp_alone {A : (r : Req) → Ans r → Prop} {Q : α → Prop} {m : Program Ans α}
    (hm : Returns A Q m) (hA : ∀ r w x w', serve r w x w' → A r x) {w : W} :
    wp (.alone serve) m (fun a _ => Q a) w :=
  wp_alone_iff.mpr fun _ _ hr => hm.of_runs hA hr

end Alone

/-- What a program returns under all answers, as a statement about a world that does not matter. -/
theorem returns_iff_wp {Q : α → Prop} {m : Program Ans α} : Returns (fun _ _ => True) Q m ↔
    wp (.alone fun _ (_ : Unit) _ _ => True) m (fun a _ => Q a) () := by
  induction m with
  | ret a => simp
  | call r k ih =>
    rw [returns_call, wp_alone_call]
    simp only [ih]
    exact ⟨fun h x _ _ => h x trivial, fun h x _ => h x () trivial⟩

end Program
end CS
