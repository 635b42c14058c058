import SqliteObjs.CS.Token

/-!
# Interleavings with a history

An interleaving forgets what its calls returned. `Interleaving.recording` keeps for each party the
calls it has finished, the last one first, each with the state it began in and with what it
returned. Programs do not see the history, and without it the runs are the old ones.

A run is over before it is known which tokens a party was given in it. `Token.exists_own` looks
back: some set of tokens has all that the party was given, and in the whole run no other party
was given or presented one of the set. `Program.wp_view` is for the argument that follows, about
one party that sees a part of the world.
-/

set_option autoImplicit false

namespace CS

open Interleaving

variable {ι W C Req : Type} {Ans : Req → Type} {σ Call ρ O : Type}

/-! ## Histories -/

/-- The calls a party has finished, with the states they began in and what they returned. -/
abbrev History (σ Call ρ : Type) := List (σ × Call × ρ)

namespace Interleaving

/-- The interleaving whose parties keep their histories. -/
def recording (S : Interleaving ι W C Ans σ Call ρ O) :
    Interleaving ι W C Ans (σ × History σ Call ρ) Call ρ O where
  code i c s := S.code i c s.1
  enter i c s w := S.enter i c s.1 w
  respond := S.respond
  leave i c s a := (S.leave i c s.1 a, (s.1, c, a) :: s.2)
  outside := S.outside

end Interleaving

/-- A party without its history. -/
def Party.forget : Party Ans (σ × History σ Call ρ) Call ρ → Party Ans σ Call ρ
  | .idle s => .idle s.1
  | .busy c s m => .busy c s.1 m

namespace Interleaving

/-- All parties without their histories. -/
def Config.forget (cfg : Config ι W Ans (σ × History σ Call ρ) Call ρ) :
    Config ι W Ans σ Call ρ where
  world := cfg.world
  party i := (cfg.party i).forget

variable [DecidableEq ι] {S : Interleaving ι W C Ans σ Call ρ O}
  {cfg cfg' : Config ι W Ans (σ × History σ Call ρ) Call ρ}

theorem Config.forget_set (cfg : Config ι W Ans (σ × History σ Call ρ) Call ρ) (i : ι) (w : W)
    (q : Party Ans (σ × History σ Call ρ) Call ρ) :
    (cfg.set i w q).forget = cfg.forget.set i w q.forget := by
  have hparty : (cfg.set i w q).forget.party = (cfg.forget.set i w q.forget).party := by
    funext j
    by_cases hj : j = i
    · subst hj
      simp [Config.forget]
    · simp [Config.forget, Config.set_party_ne _ _ _ hj]
  exact congrArg (fun party => (⟨w, party⟩ : Config ι W Ans σ Call ρ)) hparty

theorem forget_step {e : Event ι C Call O} (he : S.recording.step cfg e = some cfg') :
    S.step cfg.forget e = some cfg'.forget := by
  cases e with
  | start i c =>
    cases hp : cfg.party i with
    | busy c' s m => simp [step, hp] at he
    | idle s =>
      simp only [step, hp, Option.map_eq_some_iff] at he
      obtain ⟨w, hw, rfl⟩ := he
      have hq : cfg.forget.party i = .idle s.1 := congrArg Party.forget hp
      have hw : S.enter i c s.1 cfg.forget.world = some w := hw
      simp only [step, hq, hw, Option.map_some, Config.forget_set]
      rfl
  | serve i ch =>
    cases hp : cfg.party i with
    | idle s => simp [step, hp] at he
    | busy c s m =>
      cases m with
      | ret a => simp [step, hp] at he
      | call r f =>
        simp only [step, hp, Option.map_eq_some_iff] at he
        obtain ⟨xw, hw, rfl⟩ := he
        have hq : cfg.forget.party i = .busy c s.1 (.call r f) := congrArg Party.forget hp
        have hw : S.respond i ch r cfg.forget.world = some xw := hw
        simp only [step, hq, hw, Option.map_some, Config.forget_set]
        rfl
  | finish i =>
    cases hp : cfg.party i with
    | idle s => simp [step, hp] at he
    | busy c s m =>
      cases m with
      | call r f => simp [step, hp] at he
      | ret a =>
        simp only [step, hp, Option.some.injEq] at he
        subst he
        have hq : cfg.forget.party i = .busy c s.1 (.ret a) := congrArg Party.forget hp
        simp only [step, hq, Config.forget_set]
        rfl
  | outside o =>
    obtain ⟨w, hw, rfl⟩ := Option.map_eq_some_iff.mp he
    have hw : S.outside o cfg.forget.world = some w := hw
    simp only [step, hw, Option.map_some]
    rfl

/-- Without their histories the parties have made a run as well. -/
theorem forget_run {K : Condition ι W C Ans (σ × History σ Call ρ) Call}
    (hr : RunWithin S.recording K cfg cfg') : RunWithin S .any cfg.forget cfg'.forget := by
  induction hr with
  | refl => exact .refl
  | @tail cfg₁ cfg₂ e _ _ he ih =>
    refine .tail ih ?_ (forget_step he)
    cases e with
    | start i c => simp only [Condition.Meets, Condition.any]; split <;> trivial
    | serve i ch => simp only [Condition.Meets, Condition.any]; split <;> trivial
    | finish i => trivial
    | outside o => trivial

end Interleaving

/-! ## Tokens of one party -/

variable {κ τ : Type}

/-- All tokens that party `A` is given are in `M`, and no other party presents one of `M` or is
the first to be handed one. -/
def Condition.own {S : Interleaving ι W C Ans σ Call ρ O} (T : τ → Token S κ) (A : ι)
    (M : τ → Prop) : Condition ι W C Ans (σ × History σ Call ρ) Call where
  start _ _ _ _ := True
  serve i _ _ ch r w := ∀ x w', S.respond i ch r w = some (x, w') → ∀ t,
    (i = A → (T t).gives r x → M t) ∧
    (i ≠ A → M t → ¬ (T t).shows r ∧ ((T t).handed w' → (T t).handed w))

namespace Token

variable [DecidableEq ι] {S : Interleaving ι W C Ans σ Call ρ O} {T : τ → Token S κ} {A : ι}
  {cfg₀ cfg cfg' : Config ι W Ans (σ × History σ Call ρ) Call ρ}

/-- Party `A` is given the token in this event. -/
def GivenIn (T : Token S κ) (A : ι) (cfg : Config ι W Ans (σ × History σ Call ρ) Call ρ)
    (e : Event ι C Call O) : Prop :=
  ∃ ch c s r f x w', e = .serve A ch ∧ cfg.party A = .busy c s (.call r f) ∧
    S.respond A ch r cfg.world = some (x, w') ∧ T.gives r x

/-- The tokens `got` were handed over, and nobody but `A` is aware of one. -/
def OnlyAware (T : τ → Token S κ) (A : ι) (cfg : Config ι W Ans (σ × History σ Call ρ) Call ρ)
    (got : τ → Prop) : Prop :=
  ∀ t, got t → (T t).handed cfg.world ∧ ∀ j k, j ≠ A → (T t).Unaware j k (cfg.forget.party j)

theorem onlyAware_step {got : τ → Prop} (hex : ∀ t, (T t).Exclusive cfg.forget)
    (h : OnlyAware T A cfg got) {e : Event ι C Call O} (he : S.recording.step cfg e = some cfg') :
    OnlyAware T A cfg' fun t => got t ∨ (T t).GivenIn A cfg e := by
  have he' := forget_step he
  rintro t (ht | ⟨ch, c, s, r, f, x, w', rfl, hp, hw, hx⟩)
  · obtain ⟨hh, hu⟩ := h t ht
    exact ⟨handed_step he' hh, fun j k hj => unaware_step he' hh (hu j k hj)⟩
  · -- the token is new, so nobody was aware of it
    obtain ⟨hno, hyes⟩ := (T t).respond_gives hw hx
    have hworld : cfg'.world = w' := by
      have hw : S.recording.respond A ch r cfg.world = some (x, w') := hw
      simp only [step, hp, hw, Option.map_some, Option.some.injEq] at he
      rw [← he, Config.set_world]
    refine ⟨by rw [hworld]; exact hyes, fun j k hj => ?_⟩
    rw [party_of_step he' fun h => hj (Option.some.inj h).symm]
    exact (hex t).before hno j k

theorem meets_own {got M : τ → Prop} (hex : ∀ t, (T t).Exclusive cfg.forget)
    (h : OnlyAware T A cfg got) {e : Event ι C Call O} (he : S.recording.step cfg e = some cfg')
    (hgot : ∀ t, got t ∨ (T t).GivenIn A cfg e → M t)
    (hM : ∀ t, M t → (got t ∨ (T t).GivenIn A cfg e) ∨ ¬ (T t).handed cfg'.world) :
    (Condition.own T A M).Meets cfg e := by
  cases e with
  | start i c =>
    simp only [Condition.Meets, Condition.own]
    split <;> trivial
  | finish i => trivial
  | outside o => trivial
  | serve i ch =>
    simp only [Condition.Meets]
    split
    swap
    · trivial
    next c s r f hp =>
    intro x w' hw t
    have hworld : cfg'.world = w' := by
      have hw : S.recording.respond i ch r cfg.world = some (x, w') := hw
      simp only [step, hp, hw, Option.map_some, Option.some.injEq] at he
      rw [← he, Config.set_world]
    constructor
    · rintro rfl hx
      exact hgot t (Or.inr ⟨ch, c, s, r, f, x, w', rfl, hp, hw, hx⟩)
    intro hi ht
    have hparty : cfg.forget.party i = .busy c s.1 (.call r f) := congrArg Party.forget hp
    have hsilent : (∀ k, (T t).Unaware i k (cfg.forget.party i)) → ¬ (T t).shows r := by
      intro hu hshows
      have hu := hu ((T t).slot c)
      rw [hparty] at hu
      exact not_unaware_of_shows hshows hu
    rcases hM t ht with (hold | ⟨ch', c', s', r', f', x', w'', heq, -⟩) | hnew
    · obtain ⟨hh, hu⟩ := h t hold
      exact ⟨hsilent fun k => hu i k hi, fun _ => hh⟩
    · cases heq
      exact absurd rfl hi
    · have hno : ¬ (T t).handed cfg.world := fun hh => hnew (handed_step (forget_step he) hh)
      refine ⟨hsilent ((hex t).before hno i), fun hh => ?_⟩
      rw [← hworld] at hh
      exact absurd hh hnew

/-- In every run there is a set of tokens that are all party `A` was given, and that no other
party was given or presented. -/
theorem exists_own (h₀ : ∀ t, (T t).Exclusive cfg₀.forget)
    (hr : RunWithin S.recording .any cfg₀ cfg) :
    ∃ M, RunWithin S.recording (Condition.own T A M) cfg₀ cfg := by
  -- what is handed over later may be in the set as well, as long as it is not
  suffices h : ∃ got, OnlyAware T A cfg got ∧ ∀ M : τ → Prop, (∀ t, got t → M t) →
      (∀ t, M t → got t ∨ ¬ (T t).handed cfg.world) →
      RunWithin S.recording (Condition.own T A M) cfg₀ cfg by
    obtain ⟨got, -, hrun⟩ := h
    exact ⟨got, hrun got (fun _ ht => ht) fun _ ht => Or.inl ht⟩
  induction hr with
  | refl => exact ⟨fun _ => False, fun _ h => h.elim, fun _ _ _ => .refl⟩
  | @tail cfg₁ cfg₂ e hr _ he ih =>
    obtain ⟨got, haware, hrun⟩ := ih
    have hex : ∀ t, (T t).Exclusive cfg₁.forget := fun t => exclusive_of_run (h₀ t) (forget_run hr)
    refine ⟨_, onlyAware_step hex haware he, fun M hgot hM => ?_⟩
    refine .tail (hrun M (fun t ht => hgot t (Or.inl ht)) fun t ht => ?_)
      (meets_own hex haware he hgot hM) he
    rcases hM t ht with (hold | ⟨ch, c, s, r, f, x, w', -, -, hw, hx⟩) | hnew
    · exact Or.inl hold
    · exact Or.inr ((T t).respond_gives hw hx).1
    · exact Or.inr fun hh => hnew (handed_step (forget_step he) hh)

end Token

/-! ## One party's view of the world -/

namespace Program

variable {V α : Type} {E : Setting W Ans} {F : Setting V Ans} {view : W → V}

/-- What holds of a program in a part of the world, as long as the rest of the world leaves that
part to its moves. -/
theorem wp_view (hrely : ∀ w w', E.rely w w' → F.rely (view w) (view w'))
    (hserve : ∀ r w (x : Ans r) w', E.serve r w x w' →
      F.serve r (view w) x (view w') ∧ E.guar w w') {m : Program Ans α} {Q : α → V → Prop} :
    ∀ {w : W}, wp F m Q (view w) → wp E m (fun a w => Q a (view w)) w := by
  induction m with
  | ret a => exact fun h w₁ hw => h _ (hrely _ _ hw)
  | call r k ih =>
    intro w h w₁ hw x w₂ hs
    obtain ⟨hF, hg⟩ := hserve r w₁ x w₂ hs
    exact ⟨hg, ih x (h _ (hrely _ _ hw) x _ hF).2⟩

/-- A program that respects the others, whatever it does. -/
theorem wp_respects (hserve : ∀ r w (x : Ans r) w', E.serve r w x w' → E.guar w w')
    {m : Program Ans α} : ∀ {w : W}, wp E m (fun _ _ => True) w := by
  induction m with
  | ret a => exact fun _ _ => trivial
  | call r k ih => exact fun w₁ _ x w₂ hs => ⟨hserve r w₁ x w₂ hs, ih x⟩

end Program
end CS
