import Mathlib.Algebra.GroupWithZero.Nat
import Mathlib.Data.Char
import Mathlib.Data.List.Lex
import Mathlib.Data.List.Sort

/-!
# Canonical orders

A list sorted by a key does not depend on the order it was in, when no two of its members
share a key. A text made by joining tokens with a separator is cut into these tokens again,
the empty ones left out. Together they make a form of a separated text in which the order of
its tokens is forgotten.
-/

set_option autoImplicit false

namespace Canonical

section Sorting

variable {α κ : Type} [LinearOrder κ] (key : α → κ)

/-- Sort by a key. -/
def sortBy (l : List α) : List α := l.insertionSort fun a b => key a ≤ key b

theorem perm_sortBy (l : List α) : (sortBy key l).Perm l := List.perm_insertionSort _ l

theorem pairwise_sortBy (l : List α) : (sortBy key l).Pairwise fun a b => key a ≤ key b := by
  have total : Std.Total fun a b => key a ≤ key b := ⟨fun a b => le_total (key a) (key b)⟩
  have trans : IsTrans α fun a b => key a ≤ key b := ⟨fun _ _ _ => le_trans⟩
  exact List.pairwise_insertionSort _ l

/-- Two members in the wrong order change places. -/
theorem sortBy_pair_swap {a b : α} (h : key b < key a) : sortBy key [a, b] = [b, a] := by
  unfold sortBy
  rw [List.insertionSort_cons, List.insertionSort_cons, List.insertionSort_nil,
    List.orderedInsert_nil, List.orderedInsert_cons, if_neg (not_le.mpr h), List.orderedInsert_nil]

theorem sortBy_pair {a b : α} (h : key a ≤ key b) : sortBy key [a, b] = [a, b] := by
  unfold sortBy
  rw [List.insertionSort_cons, List.insertionSort_cons, List.insertionSort_nil,
    List.orderedInsert_nil, List.orderedInsert_cons, if_pos h]

variable {key}

/-- Sorting forgets the order. -/
theorem sortBy_eq_of_perm {l l' : List α} (h : l.Perm l')
    (inj : ∀ a ∈ l, ∀ b ∈ l, key a = key b → a = b) : sortBy key l = sortBy key l' := by
  have hmem : ∀ a, a ∈ sortBy key l → a ∈ l := fun a ha => (perm_sortBy key l).mem_iff.mp ha
  have hmem' : ∀ a, a ∈ sortBy key l' → a ∈ l := fun a ha =>
    h.mem_iff.mpr ((perm_sortBy key l').mem_iff.mp ha)
  refine @List.Perm.eq_of_pairwise α (fun a b => key a ≤ key b) _ _ ?_ ?_ ?_ ?_
  · intro a b ha hb hab hba
    exact inj a (hmem a ha) b (hmem' b hb) (le_antisymm hab hba)
  · exact pairwise_sortBy key l
  · exact pairwise_sortBy key l'
  · exact ((perm_sortBy key l).trans h).trans (perm_sortBy key l').symm

end Sorting

section Tokens

variable {α : Type} {d : α}

/-- The pieces of a text between separators, the empty ones left out. -/
def tokens [DecidableEq α] (d : α) (s : List α) : List (List α) :=
  (s.splitOn d).filter fun t => !t.isEmpty

theorem tokens_intercalate [DecidableEq α] {ts : List (List α)} (h : ∀ t ∈ ts, d ∉ t) :
    tokens d ([d].intercalate ts) = ts.filter fun t => !t.isEmpty := by
  unfold tokens
  by_cases hnil : ts = []
  · subst hnil
    rfl
  · rw [List.splitOn_intercalate d h hnil]

/-- A text of tokens has their characters and a separator after each but the last. -/
theorem length_intercalate (d : α) (ts : List (List α)) :
    ([d].intercalate ts).length = (ts.map fun t => t.length + 1).sum - 1 := by
  induction ts with
  | nil => rfl
  | cons t ts ih =>
    cases ts with
    | nil => simp [List.intercalate]
    | cons u us =>
      rw [List.intercalate_cons_cons, List.length_append, List.length_append, ih]
      simp only [List.map_cons, List.sum_cons, List.length_singleton]
      omega

theorem length_intercalate_perm {ts us : List (List α)} (h : ts.Perm us) :
    ([d].intercalate ts).length = ([d].intercalate us).length := by
  rw [length_intercalate, length_intercalate, (h.map _).sum_nat]

end Tokens

end Canonical
