import Mathlib.Data.List.Chain
import Mathlib.Data.Set.Defs

/-!
# Ranges of positions

A list of ranges, each a start and a length, covers a set of positions if a position is in
the set exactly when it is in a range. With a cap on the length of a range the question is
how many are needed.

A coalesced list is in ascending order, and two ranges touch only if the first is as long
as the cap allows. No cover has fewer ranges (`Coalesced.length_le`): a range of another
cover contains the start of at most one range of the list.
-/

set_option autoImplicit false

namespace Data

/-- A start and a length. -/
abbrev Range := Nat × Nat

/-- The position `j` is in the range. -/
def Range.Has (r : Range) (j : Nat) : Prop := r.1 ≤ j ∧ j < r.1 + r.2

/-- Ranges of at most `cap` positions that together are `S`. -/
structure Covers (cap : Nat) (S : Set Nat) (rs : List Range) : Prop where
  le_cap : ∀ r ∈ rs, r.2 ≤ cap
  mem_iff : ∀ j, j ∈ S ↔ ∃ r ∈ rs, r.Has j

/-- A cover in ascending order, without a touching pair that one range could replace. -/
structure Coalesced (cap : Nat) (S : Set Nat) (rs : List Range) : Prop
    extends Covers cap S rs where
  pos : ∀ r ∈ rs, 0 < r.2
  ascending : rs.Pairwise fun r r' => r.1 + r.2 ≤ r'.1
  full : rs.IsChain fun r r' => r.1 + r.2 = r'.1 → r.2 = cap

section Cover

variable {cap : Nat} {S : Set Nat} {rs qs : List Range}

theorem Covers.mem {r : Range} (h : Covers cap S rs) (hr : r ∈ rs) {j : Nat} (hj : r.Has j) :
    j ∈ S :=
  (h.mem_iff j).mpr ⟨r, hr, hj⟩

/-- A cover, cut off at a position. -/
theorem Covers.cut (h : Covers cap S rs) (m : Nat) :
    Covers cap {j | j ∈ S ∧ j < m} (rs.map fun r => (r.1, min r.2 (m - r.1))) := by
  refine ⟨fun r hr => ?_, fun j => ?_⟩
  · obtain ⟨r₀, hr₀, rfl⟩ := List.mem_map.mp hr
    exact Nat.le_trans (Nat.min_le_left _ _) (h.le_cap r₀ hr₀)
  · constructor
    · rintro ⟨hj, hm⟩
      obtain ⟨r, hr, h₁, h₂⟩ := (h.mem_iff j).mp hj
      refine ⟨_, List.mem_map_of_mem hr, h₁, ?_⟩
      dsimp only
      omega
    · rintro ⟨r, hr, h₁, h₂⟩
      obtain ⟨r₀, hr₀, rfl⟩ := List.mem_map.mp hr
      dsimp only at h₁ h₂
      exact ⟨h.mem hr₀ ⟨h₁, by omega⟩, by omega⟩

/-- If each of `rs` starts in one of `qs` and none of `qs` has two of the starts, then `qs`
is at least as long. -/
theorem length_le_of_starts : ∀ {rs qs : List Range}, (∀ r ∈ rs, ∃ q ∈ qs, q.Has r.1) →
    rs.Pairwise (fun r r' => ∀ q ∈ qs, q.Has r.1 → ¬ q.Has r'.1) → rs.length ≤ qs.length
  | [], _, _, _ => Nat.zero_le _
  | r :: rs, qs, hin, hsep => by
    obtain ⟨q, hq, hr⟩ := hin r List.mem_cons_self
    obtain ⟨hhead, htail⟩ := List.pairwise_cons.mp hsep
    have hrest : rs.length ≤ (qs.erase q).length := by
      refine length_le_of_starts (fun r' hr' => ?_)
        (htail.imp fun h q' hq' => h q' (List.mem_of_mem_erase hq'))
      obtain ⟨q', hq', hr₁⟩ := hin r' (List.mem_cons_of_mem _ hr')
      have hne : q' ≠ q := by
        rintro rfl
        exact hhead r' hr' q' hq hr hr₁
      exact ⟨q', (List.mem_erase_of_ne hne).mpr hq', hr₁⟩
    rw [List.length_erase_of_mem hq] at hrest
    have := List.length_pos_of_mem hq
    rw [List.length_cons]
    omega

/-- A coalesced list starts its next range only where it has to. -/
theorem Coalesced.start_apart (h : Coalesced cap S rs) {i j : Fin rs.length} (hij : i < j)
    {q : Range} (hq : q.2 ≤ cap) (hS : ∀ k, q.Has k → k ∈ S) (hi : q.Has (rs.get i).1) :
    ¬ q.Has (rs.get j).1 := by
  intro hj
  have hlt : i.1 < j.1 := hij
  have hasc := List.pairwise_iff_get.mp h.ascending
  obtain ⟨n, hn⟩ : ∃ n : Fin rs.length, n.1 = i.1 + 1 := ⟨⟨i.1 + 1, by omega⟩, rfl⟩
  have hle : (rs.get n).1 ≤ (rs.get j).1 := by
    rcases Nat.lt_or_eq_of_le (show n.1 ≤ j.1 by omega) with hlt | heq
    · have := hasc n j hlt
      omega
    · obtain rfl : n = j := Fin.ext heq
      exact Nat.le_refl _
  have hnext := hasc i n (show i.1 < n.1 by omega)
  -- the position after the range is in the set, so the next range starts there
  have htouch : (rs.get i).1 + (rs.get i).2 = (rs.get n).1 := by
    by_contra hne
    have hin : q.Has ((rs.get i).1 + (rs.get i).2) := by
      have := hi.1
      have := hj.2
      exact ⟨by omega, by omega⟩
    obtain ⟨r, hr, h₁, h₂⟩ := (h.mem_iff _).mp (hS _ hin)
    obtain ⟨k, rfl⟩ := List.get_of_mem hr
    rcases Nat.lt_trichotomy k.1 i.1 with hk | hk | hk
    · have := hasc k i hk
      omega
    · obtain rfl : k = i := Fin.ext hk
      omega
    · rcases Nat.lt_or_eq_of_le (show n.1 ≤ k.1 by omega) with hk' | hk'
      · have := hasc n k hk'
        omega
      · obtain rfl : n = k := Fin.ext hk'
        omega
  have hcap : (rs.get i).2 = cap := by
    have hchain := List.isChain_iff_getElem.mp h.full i.1 (by omega)
    apply hchain
    have : rs.get n = rs[i.1 + 1] := by
      rw [List.get_eq_getElem]
      congr 1
    rw [← this]
    exact htouch
  have := hi.1
  have := hj.2
  omega

/-- No cover has fewer ranges than a coalesced one. -/
theorem Coalesced.length_le (h : Coalesced cap S rs) (hqs : Covers cap S qs) :
    rs.length ≤ qs.length := by
  refine length_le_of_starts (fun r hr => ?_) (List.pairwise_iff_get.mpr fun i j hij q hq hi => ?_)
  · exact (hqs.mem_iff r.1).mp (h.mem hr ⟨Nat.le_refl _, by have := h.pos r hr; omega⟩)
  · exact h.start_apart hij (hqs.le_cap q hq) (fun k hk => hqs.mem hq hk) hi

end Cover

/-- The ranges, one after the other, are the first `n` positions. -/
structure Partition (n : Nat) (rs : List Range) : Prop where
  pos : ∀ r ∈ rs, 0 < r.2
  ascending : rs.Pairwise fun r r' => r.1 + r.2 ≤ r'.1
  mem_iff : ∀ j, j < n ↔ ∃ r ∈ rs, r.Has j

end Data
