import Mathlib.Data.List.Infix
import Mathlib.Tactic.Common

/-!
# Searching a list for a list

The first place where a list stands in another one. A part that has no place for it is
skipped: a part without its first element (`find_append_of_not_mem`), or a part none of
whose ends agrees with it as far as both reach (`find_append_of_clash`). In the beginning of
a list one finds what stands there completely, at the same place (`find_take`).
-/

set_option autoImplicit false

namespace Search

variable {α : Type} [DecidableEq α]

/-- The first place of `needle` in a list. -/
def find (needle : List α) : List α → Option Nat
  | [] => if needle = [] then some 0 else none
  | c :: s => if needle.isPrefixOf (c :: s) then some 0 else (find needle s).map (· + 1)

theorem find_of_isPrefix {needle s : List α} (h : needle <+: s) : find needle s = some 0 := by
  cases s with
  | nil =>
    rw [List.prefix_nil] at h
    rw [find, if_pos h]
  | cons c s => rw [find, if_pos (List.isPrefixOf_iff_prefix.mpr h)]

theorem find_append_self (needle t : List α) : find needle (needle ++ t) = some 0 :=
  find_of_isPrefix (List.prefix_append _ _)

theorem find_cons_of_not_isPrefix {needle s : List α} {c : α} (h : ¬ needle <+: c :: s) :
    find needle (c :: s) = (find needle s).map (· + 1) := by
  rw [find, if_neg (fun hp => h (List.isPrefixOf_iff_prefix.mp hp))]

/-- A part with no place for the list is skipped. -/
theorem find_append {needle : List α} (u t : List α)
    (h : ∀ v, v <:+ u → v ≠ [] → ¬ needle <+: v ++ t) :
    find needle (u ++ t) = (find needle t).map (u.length + ·) := by
  induction u with
  | nil => simp
  | cons c u ih =>
    have hc : ¬ needle <+: c :: (u ++ t) := h (c :: u) (List.suffix_refl _) (by simp)
    rw [List.cons_append, find_cons_of_not_isPrefix hc,
      ih fun v hv => h v (hv.trans (List.suffix_cons c u)), Option.map_map]
    congr 1
    funext i
    simp only [Function.comp_apply, List.length_cons]
    omega

theorem find_append_of_not_mem {needle u : List α} {c : α} (hhead : needle.head? = some c)
    (hc : c ∉ u) (t : List α) : find needle (u ++ t) = (find needle t).map (u.length + ·) := by
  obtain ⟨n, rfl⟩ := List.head?_eq_some_iff.mp hhead
  refine find_append u t fun v hv hne hp => ?_
  obtain ⟨d, v', rfl⟩ := List.exists_cons_of_ne_nil hne
  rw [List.cons_append, List.cons_prefix_cons] at hp
  exact hc (hp.1 ▸ hv.subset List.mem_cons_self)

/-- No end of `u` agrees with the list as far as both reach. -/
def clash (needle u : List α) : Bool :=
  u.tails.all fun v => v = [] || (!needle.isPrefixOf v && !v.isPrefixOf needle)

theorem find_append_of_clash {needle u : List α} (h : clash needle u = true) (t : List α) :
    find needle (u ++ t) = (find needle t).map (u.length + ·) := by
  refine find_append u t fun v hv hne hp => ?_
  have hv' := List.all_eq_true.mp h v ((List.mem_tails v u).mpr hv)
  simp only [hne, decide_false, Bool.false_or, Bool.and_eq_true, Bool.not_eq_true',
    ← Bool.not_eq_true, List.isPrefixOf_iff_prefix] at hv'
  rcases List.prefix_or_prefix_of_prefix hp (List.prefix_append v t) with hn | hn
  · exact hv'.1 hn
  · exact hv'.2 hn

omit [DecidableEq α] in
theorem prefix_take_iff {needle s : List α} {m : Nat} :
    needle <+: s.take m ↔ needle <+: s ∧ needle.length ≤ m := by
  constructor
  · intro h
    refine ⟨h.trans (List.take_prefix m s), ?_⟩
    have := h.length_le
    rw [List.length_take] at this
    omega
  · rintro ⟨h, hm⟩
    exact List.prefix_of_prefix_length_le h (List.take_prefix m s) (by
      have := h.length_le
      rw [List.length_take]
      omega)

/-- The place found is one, and the first. -/
theorem find_eq_some_iff {needle : List α} (hne : needle ≠ []) {s : List α} {i : Nat} :
    find needle s = some i ↔ needle <+: s.drop i ∧ ∀ j, j < i → ¬ needle <+: s.drop j := by
  induction s generalizing i with
  | nil =>
    rw [find, if_neg hne, List.drop_nil, List.prefix_nil]
    simp [hne]
  | cons c s ih =>
    by_cases hp : needle <+: c :: s
    · rw [find_of_isPrefix hp]
      constructor
      · intro h
        cases h
        exact ⟨hp, fun j hj => absurd hj (Nat.not_lt_zero j)⟩
      · rintro ⟨-, h⟩
        cases i with
        | zero => rfl
        | succ i => exact absurd hp (h 0 (Nat.succ_pos i))
    · rw [find_cons_of_not_isPrefix hp, Option.map_eq_some_iff]
      constructor
      · rintro ⟨k, hk, rfl⟩
        obtain ⟨h, hfirst⟩ := ih.mp hk
        refine ⟨h, fun j hj => ?_⟩
        cases j with
        | zero => exact hp
        | succ j => exact hfirst j (by omega)
      · rintro ⟨h, hfirst⟩
        cases i with
        | zero => exact absurd h hp
        | succ i => exact ⟨i, ih.mpr ⟨h, fun j hj => hfirst (j + 1) (by omega)⟩, rfl⟩

/-- In the beginning of a list one finds what stands there completely. -/
theorem find_take {needle : List α} (hne : needle ≠ []) (s : List α) (m : Nat) :
    find needle (s.take m) = (find needle s).filter (fun i => i + needle.length ≤ m) := by
  have hlen := List.length_pos_of_ne_nil hne
  ext i
  rw [find_eq_some_iff hne, Option.filter_eq_some_iff, find_eq_some_iff hne]
  simp only [List.drop_take, prefix_take_iff, decide_eq_true_eq, not_and]
  constructor
  · rintro ⟨⟨h, hi⟩, hfirst⟩
    exact ⟨⟨h, fun j hj hp => hfirst j hj hp (by omega)⟩, by omega⟩
  · rintro ⟨⟨h, hfirst⟩, hi⟩
    exact ⟨⟨h, by omega⟩, fun j hj hp => absurd hp (hfirst j hj)⟩

theorem find_prefix_none {needle s t : List α} (hne : needle ≠ []) (hs : find needle s = none)
    (ht : t <+: s) : find needle t = none := by
  rw [List.prefix_iff_eq_take.mp ht, find_take hne, hs, Option.filter_none]

omit [DecidableEq α] in
/-- A beginning of `a ++ b` has all of `a`, or is a shorter beginning of `a`. -/
theorem prefix_append_cases {t a b : List α} (h : t <+: a ++ b) :
    (∃ t', t = a ++ t' ∧ t' <+: b) ∨ (t <+: a ∧ t.length < a.length) := by
  rcases Nat.lt_or_ge t.length a.length with hlt | hge
  · exact Or.inr ⟨List.prefix_of_prefix_length_le h (List.prefix_append a b) (Nat.le_of_lt hlt),
      hlt⟩
  · obtain ⟨t', rfl⟩ := List.prefix_of_prefix_length_le (List.prefix_append a b) h hge
    exact Or.inl ⟨t', rfl, (List.prefix_append_right_inj a).mp h⟩

end Search
