import SqliteObjs.CS.Parties

/-!
# Tokens that are handed out once

A token is something the world hands over in the answer to a request, at most once in a
run: a lease, a ticket, a capability. Each party keeps what it was given in slots, and a
call works on one slot. A program that does not have the token can only get it as an
answer, so it cannot present it before: `Program.Obeys` says this of a program.

`Token.exclusive_of_run` is what follows for the interleaving: at any moment at most one
slot of one party is aware of the token, and only a call on that slot presents it.
-/

set_option autoImplicit false

namespace CS

namespace Program

variable {Req : Type} {Ans : Req → Type} {α β : Type}

/-- As long as the answers satisfy `A`, every request the program issues satisfies `P`
and every result it returns satisfies `Q`. -/
def Obeys (A : (r : Req) → Ans r → Prop) (P : Req → Prop) (Q : α → Prop) :
    Program Ans α → Prop
  | .ret a => Q a
  | .call r k => P r ∧ ∀ x, A r x → Obeys A P Q (k x)

variable {A : (r : Req) → Ans r → Prop} {P : Req → Prop} {Q : α → Prop} {R : β → Prop}
  {m : Program Ans α}

@[simp] theorem obeys_ret {a : α} : Obeys A P Q (.ret a : Program Ans α) ↔ Q a := Iff.rfl

@[simp] theorem obeys_call {r : Req} {k : Ans r → Program Ans α} :
    Obeys A P Q (.call r k) ↔ P r ∧ ∀ x, A r x → Obeys A P Q (k x) := Iff.rfl

theorem Obeys.bind {f : α → Program Ans β} (hm : Obeys A P Q m)
    (hf : ∀ a, Q a → Obeys A P R (f a)) : Obeys A P R (m >>= f) := by
  induction m with
  | ret a => exact hf a hm
  | call r k ih => exact ⟨hm.1, fun x hx => ih x (hm.2 x hx)⟩

theorem Obeys.mono {Q' : α → Prop} (hQ : ∀ a, Q a → Q' a) (hm : Obeys A P Q m) :
    Obeys A P Q' m := by
  induction m with
  | ret a => exact hQ a hm
  | call r k ih => exact ⟨hm.1, fun x hx => ih x (hm.2 x hx)⟩

/-- A program that keeps to `P` and `Q` under all answers obeys under some. -/
theorem Within.obeys (hm : Within P Q m) : Obeys A P Q m := by
  induction m with
  | ret a => exact hm
  | call r k ih => exact ⟨hm.1, fun x _ => ih x (hm.2 x)⟩

/-- The requests of a program and what is known of its results, put together. -/
theorem Uses.and_within {P' : Req → Prop} (hm : Uses P m) (hQ : Within P' Q m) :
    Within P Q m := by
  induction m with
  | ret a => exact hQ
  | call r k ih => exact ⟨hm.1, fun x => ih x (hm.2 x) (hQ.2 x)⟩

/-- What is known of the result of `m` may be used for the requests that follow. -/
theorem Uses.bind_of {P' : Req → Prop} {f : α → Program Ans β} (hm : Uses P m)
    (hQ : Within P' Q m) (hf : ∀ a, Q a → Uses P (f a)) : Uses P (m >>= f) :=
  (hm.and_within hQ).uses_bind hf

end Program

open Interleaving

namespace Interleaving

variable {ι W C Req : Type} {Ans : Req → Type} {σ Call ρ O : Type} [DecidableEq ι]
  {S : Interleaving ι W C Ans σ Call ρ O} {cfg cfg' : Config ι W Ans σ Call ρ}

/-- The party that moves in an event. -/
def Event.party : Event ι C Call O → Option ι
  | .start i _ | .serve i _ | .finish i => some i
  | .outside _ => none

/-- The other parties stay where they are. -/
theorem party_of_step {e : Event ι C Call O} {i : ι} (he : S.step cfg e = some cfg')
    (hi : e.party ≠ some i) : cfg'.party i = cfg.party i := by
  have hset : ∀ {j : ι} {w : W} {q : Party Ans σ Call ρ}, some j ≠ some i →
      (cfg.set j w q).party i = cfg.party i := by
    intro j w q hj
    exact Config.set_party_ne _ _ _ fun h => hj (congrArg some h.symm)
  cases e with
  | start j c =>
    simp only [step] at he
    split at he
    · obtain ⟨w, -, rfl⟩ := Option.map_eq_some_iff.mp he
      exact hset hi
    · cases he
  | serve j ch =>
    simp only [step] at he
    split at he
    · obtain ⟨xw, -, rfl⟩ := Option.map_eq_some_iff.mp he
      exact hset hi
    · cases he
  | finish j =>
    simp only [step] at he
    split at he
    · obtain rfl := Option.some.inj he
      exact hset hi
    · cases he
  | outside o =>
    obtain ⟨w, -, rfl⟩ := Option.map_eq_some_iff.mp he
    rfl

/-- What every call only requests, a party in the middle of a call only requests. -/
theorem uses_of_run {P : ι → Call → σ → Req → Prop} {K : Condition ι W C Ans σ Call}
    (hcode : ∀ i c s, (S.code i c s).Uses (P i c s))
    (h : ∀ i c s m, cfg.party i = .busy c s m → m.Uses (P i c s)) (hr : RunWithin S K cfg cfg') :
    ∀ i c s m, cfg'.party i = .busy c s m → m.Uses (P i c s) := by
  induction hr with
  | refl => exact h
  | @tail cfg₁ cfg₂ e _ _ he ih =>
    intro i c s m hm
    by_cases hi : e.party = some i
    swap
    · rw [party_of_step he hi] at hm
      exact ih i c s m hm
    cases e with
    | outside o => cases hi
    | start j c' =>
      obtain rfl : j = i := Option.some.inj hi
      simp only [step] at he
      split at he
      · obtain ⟨w, -, rfl⟩ := Option.map_eq_some_iff.mp he
        rw [Config.set_party_self] at hm
        cases hm
        exact hcode _ _ _
      · cases he
    | serve j ch =>
      obtain rfl : j = i := Option.some.inj hi
      simp only [step] at he
      split at he
      · next hp =>
        obtain ⟨xw, -, rfl⟩ := Option.map_eq_some_iff.mp he
        rw [Config.set_party_self] at hm
        cases hm
        exact (ih _ _ _ _ hp).2 _
      · cases he
    | finish j =>
      obtain rfl : j = i := Option.some.inj hi
      simp only [step] at he
      split at he
      · obtain rfl := Option.some.inj he
        rw [Config.set_party_self] at hm
        cases hm
      · cases he

end Interleaving

variable {ι W C Req : Type} {Ans : Req → Type} {σ Call ρ O κ : Type} [DecidableEq ι]

/-- The state a party is in, or was in when its call began. -/
def Party.state : Party Ans σ Call ρ → σ
  | .idle s => s
  | .busy _ s _ => s

/-- One token of an interleaving: which slot a call works on, which slots are free of
the token, and how it is handed over and presented. -/
structure Token (S : Interleaving ι W C Ans σ Call ρ O) (κ : Type) where
  slot : Call → κ
  free : κ → σ → Prop
  gives : (r : Req) → Ans r → Prop
  shows : Req → Prop
  handed : W → Prop
  enter_handed : ∀ {i c s w w'}, S.enter i c s w = some w' → handed w → handed w'
  outside_handed : ∀ {o w w'}, S.outside o w = some w' → handed w → handed w'
  respond_handed : ∀ {i ch r w x w'}, S.respond i ch r w = some (x, w') → handed w → handed w'
  respond_gives : ∀ {i ch r w x w'}, S.respond i ch r w = some (x, w') → gives r x →
    ¬ handed w ∧ handed w'
  code_obeys : ∀ {i c s}, free (slot c) s →
    (S.code i c s).Obeys (fun r x => ¬ gives r x) (fun r => ¬ shows r)
      (fun a => free (slot c) (S.leave i c s a))
  code_frame : ∀ {i c s k}, k ≠ slot c → free k s →
    (S.code i c s).Within (fun _ => True) (fun a => free k (S.leave i c s a))

namespace Token

variable {S : Interleaving ι W C Ans σ Call ρ O} {T : Token S κ}

/-- The slot `k` of party `i` neither has the token nor can get it but as an answer. -/
def Unaware (T : Token S κ) (i : ι) (k : κ) : Party Ans σ Call ρ → Prop
  | .idle s => T.free k s
  | .busy c s m => T.free k s ∧
      (k = T.slot c → m.Obeys (fun r x => ¬ T.gives r x) (fun r => ¬ T.shows r)
        (fun a => T.free k (S.leave i c s a))) ∧
      (k ≠ T.slot c → m.Within (fun _ => True) (fun a => T.free k (S.leave i c s a)))

/-- At most one slot of one party is aware of the token, and none before it was handed
over. -/
structure Exclusive (T : Token S κ) (cfg : Config ι W Ans σ Call ρ) : Prop where
  before : ¬ T.handed cfg.world → ∀ i k, T.Unaware i k (cfg.party i)
  unique : ∀ {i j k l}, ¬ T.Unaware i k (cfg.party i) → ¬ T.Unaware j l (cfg.party j) →
    i = j ∧ k = l

omit [DecidableEq ι] in
/-- A step that makes nobody aware. -/
theorem Exclusive.of_unaware {cfg cfg' : Config ι W Ans σ Call ρ} (h : T.Exclusive cfg)
    (hw : T.handed cfg.world → T.handed cfg'.world)
    (hp : ∀ i k, T.Unaware i k (cfg.party i) → T.Unaware i k (cfg'.party i)) :
    T.Exclusive cfg' where
  before hno i k := hp i k (h.before (fun hn => hno (hw hn)) i k)
  unique hi hj := h.unique (fun hu => hi (hp _ _ hu)) (fun hu => hj (hp _ _ hu))

/-- The same, where one party moves. -/
theorem Exclusive.set {cfg : Config ι W Ans σ Call ρ} {i : ι} {w : W} {q : Party Ans σ Call ρ}
    (h : T.Exclusive cfg) (hw : T.handed cfg.world → T.handed w)
    (hq : ∀ k, T.Unaware i k (cfg.party i) → T.Unaware i k q) : T.Exclusive (cfg.set i w q) := by
  refine h.of_unaware hw fun j k hu => ?_
  by_cases hj : j = i
  · subst hj
    rw [Config.set_party_self]
    exact hq k hu
  · rwa [Config.set_party_ne _ _ _ hj]

omit [DecidableEq ι] in
/-- A call that goes on after an answer that did not hand the token over. -/
theorem Unaware.answer {i : ι} {k : κ} {c : Call} {s : σ} {r : Req} {x : Ans r}
    {f : Ans r → Program Ans ρ} (h : T.Unaware i k (.busy c s (.call r f)))
    (hx : k = T.slot c → ¬ T.gives r x) : T.Unaware i k (.busy c s (f x)) :=
  ⟨h.1, fun hk => (h.2.1 hk).2 x (hx hk), fun hk => (h.2.2 hk).2 x⟩

theorem exclusive_step {cfg cfg' : Config ι W Ans σ Call ρ} {e : Event ι C Call O}
    (h : T.Exclusive cfg) (he : S.step cfg e = some cfg') : T.Exclusive cfg' := by
  cases e with
  | start i c =>
    cases hp : cfg.party i with
    | busy c' s m => simp [step, hp] at he
    | idle s =>
      simp only [step, hp, Option.map_eq_some_iff] at he
      obtain ⟨w, hw, rfl⟩ := he
      refine h.set (T.enter_handed hw) fun k hk => ?_
      rw [hp] at hk
      refine ⟨hk, ?_, fun hne => T.code_frame hne hk⟩
      rintro rfl
      exact T.code_obeys hk
  | serve i ch =>
    cases hp : cfg.party i with
    | idle s => simp [step, hp] at he
    | busy c s m =>
      cases m with
      | ret a => simp [step, hp] at he
      | call r f =>
        simp only [step, hp, Option.map_eq_some_iff] at he
        obtain ⟨⟨x, w⟩, hw, rfl⟩ := he
        by_cases hx : T.gives r x
        · -- nobody was aware before, and only the slot of this call can be from now on
          obtain ⟨hno, hyes⟩ := T.respond_gives hw hx
          have hothers : ∀ {j l}, ¬ T.Unaware j l ((cfg.set i w (.busy c s (f x))).party j) →
              j = i ∧ l = T.slot c := by
            intro j l hj
            have hu := h.before hno j l
            by_cases hji : j = i
            · subst hji
              rw [Config.set_party_self] at hj
              rw [hp] at hu
              refine ⟨rfl, ?_⟩
              by_contra hl
              exact hj (hu.answer fun hk => absurd hk hl)
            · rw [Config.set_party_ne _ _ _ hji] at hj
              exact absurd hu hj
          refine ⟨fun hn => absurd hyes hn, fun hj hl => ?_⟩
          obtain ⟨rfl, rfl⟩ := hothers hj
          obtain ⟨rfl, rfl⟩ := hothers hl
          exact ⟨rfl, rfl⟩
        · refine h.set (T.respond_handed hw) fun k hk => ?_
          rw [hp] at hk
          exact hk.answer fun _ => hx
  | finish i =>
    cases hp : cfg.party i with
    | idle s => simp [step, hp] at he
    | busy c s m =>
      cases m with
      | call r f => simp [step, hp] at he
      | ret a =>
        simp only [step, hp, Option.some.injEq] at he
        obtain rfl := he
        refine h.set id fun k hk => ?_
        rw [hp] at hk
        obtain ⟨-, hown, hother⟩ := hk
        by_cases hc : k = T.slot c
        · exact hown hc
        · exact hother hc
  | outside o =>
    simp only [step, Option.map_eq_some_iff] at he
    obtain ⟨w, hw, rfl⟩ := he
    exact h.of_unaware (T.outside_handed hw) fun _ _ hu => hu

/-- What was handed over stays so. -/
theorem handed_step {cfg cfg' : Config ι W Ans σ Call ρ} {e : Event ι C Call O}
    (he : S.step cfg e = some cfg') (h : T.handed cfg.world) : T.handed cfg'.world := by
  cases e with
  | start i c =>
    simp only [step] at he
    split at he
    · obtain ⟨w, hw, rfl⟩ := Option.map_eq_some_iff.mp he
      exact T.enter_handed hw h
    · cases he
  | serve i ch =>
    simp only [step] at he
    split at he
    · obtain ⟨xw, hw, rfl⟩ := Option.map_eq_some_iff.mp he
      exact T.respond_handed hw h
    · cases he
  | finish i =>
    simp only [step] at he
    split at he
    · obtain rfl := Option.some.inj he
      exact h
    · cases he
  | outside o =>
    obtain ⟨w, hw, rfl⟩ := Option.map_eq_some_iff.mp he
    exact T.outside_handed hw h

/-- Once the token was handed over, nobody becomes aware of it any more. -/
theorem unaware_step {cfg cfg' : Config ι W Ans σ Call ρ} {e : Event ι C Call O}
    (he : S.step cfg e = some cfg') (h : T.handed cfg.world) {i : ι} {k : κ}
    (hu : T.Unaware i k (cfg.party i)) : T.Unaware i k (cfg'.party i) := by
  by_cases hi : e.party = some i
  swap
  · rwa [party_of_step he hi]
  cases e with
  | outside o => cases hi
  | start j c =>
    obtain rfl : j = i := Option.some.inj hi
    simp only [step] at he
    split at he
    · next s hp =>
      obtain ⟨w, -, rfl⟩ := Option.map_eq_some_iff.mp he
      rw [hp] at hu
      rw [Config.set_party_self]
      refine ⟨hu, ?_, fun hne => T.code_frame hne hu⟩
      rintro rfl
      exact T.code_obeys hu
    · cases he
  | serve j ch =>
    obtain rfl : j = i := Option.some.inj hi
    simp only [step] at he
    split at he
    · next hp =>
      obtain ⟨xw, hw, rfl⟩ := Option.map_eq_some_iff.mp he
      rw [hp] at hu
      rw [Config.set_party_self]
      exact hu.answer fun _ hx => (T.respond_gives hw hx).1 h
    · cases he
  | finish j =>
    obtain rfl : j = i := Option.some.inj hi
    simp only [step] at he
    split at he
    · next c s a hp =>
      obtain rfl := Option.some.inj he
      rw [hp] at hu
      rw [Config.set_party_self]
      by_cases hc : k = T.slot c
      · exact hu.2.1 hc
      · exact hu.2.2 hc
    · cases he

/-- Along every run at most one slot is aware of the token. -/
theorem exclusive_of_run {K : Condition ι W C Ans σ Call} {cfg cfg' : Config ι W Ans σ Call ρ}
    (h : T.Exclusive cfg) (hr : RunWithin S K cfg cfg') : T.Exclusive cfg' := by
  induction hr with
  | refl => exact h
  | tail _ _ he ih => exact exclusive_step ih he

omit [DecidableEq ι] in
/-- Parties that are idle and free of the token. -/
theorem exclusive_of_free {cfg : Config ι W Ans σ Call ρ}
    (h : ∀ i, ∃ s, cfg.party i = .idle s ∧ ∀ k, T.free k s) : T.Exclusive cfg := by
  have hall : ∀ i k, T.Unaware i k (cfg.party i) := by
    intro i k
    obtain ⟨s, hs, hfree⟩ := h i
    rw [hs]
    exact hfree k
  exact ⟨fun _ => hall, fun {i _ k _} hi _ => absurd (hall i k) hi⟩

omit [DecidableEq ι] in
/-- A slot that has the token is aware of it. -/
theorem not_unaware_of_state {i : ι} {k : κ} {q : Party Ans σ Call ρ}
    (h : ¬ T.free k q.state) : ¬ T.Unaware i k q := by
  cases q with
  | idle s => exact h
  | busy c s m => exact fun hu => h hu.1

omit [DecidableEq ι] in
/-- The slot of a call that presents the token is aware of it. -/
theorem not_unaware_of_shows {i : ι} {c : Call} {s : σ} {r : Req} {f : Ans r → Program Ans ρ}
    (h : T.shows r) : ¬ T.Unaware i (T.slot c) (.busy c s (.call r f) : Party Ans σ Call ρ) :=
  fun hu => (hu.2.1 rfl).1 h

end Token
end CS
