import Mathlib.Data.List.Basic

/-!
# Table-driven cyclic checksums

A checksum register of 32 bits takes in a byte at a time: the low byte of the register,
combined with the byte, selects a table entry, and the entry is combined with the register
moved down by eight places. Nothing is assumed of the table but that its entries are told
apart by their top bytes.

Two runs that agree but for one byte stay apart until a step where the registers differ in
their low bytes only and select two different places of the table that hold one entry.
They never meet when no entry is repeated.
-/

set_option autoImplicit false

namespace TableCrc

variable (T : UInt8 → UInt32)

/-- The place of the table that a register and a byte select. -/
def index (s : UInt32) (b : UInt8) : UInt8 := (s ^^^ b.toUInt32).toUInt8

/-- The register after one more byte. -/
def step (s : UInt32) (b : UInt8) : UInt32 := T (index s b) ^^^ (s >>> 8)

/-- The register after a byte string. -/
def run (s : UInt32) (data : List UInt8) : UInt32 := data.foldl (step T) s

/-- Entries with one top byte are one entry. -/
def TopInjective : Prop := ∀ i j, T i >>> 24 = T j >>> 24 → T i = T j

/-- The registers `s` and `t` meet on the bytes `b` and `c`: they differ in their low bytes at
most, and select two places of the table that hold one entry. -/
def Meets (s t : UInt32) (b c : UInt8) : Prop :=
  s >>> 8 = t >>> 8 ∧ index s b ≠ index t c ∧ T (index s b) = T (index t c)

@[simp] theorem run_nil (s : UInt32) : run T s [] = s := rfl

@[simp] theorem run_cons (s : UInt32) (b : UInt8) (data : List UInt8) :
    run T s (b :: data) = run T (step T s b) data := rfl

theorem index_toBitVec (s : UInt32) (b : UInt8) :
    (index s b).toBitVec = s.toBitVec.setWidth 8 ^^^ b.toBitVec := by
  simp [index]

theorem index_inj_right {s : UInt32} {b c : UInt8} : index s b = index s c ↔ b = c := by
  rw [← UInt8.toBitVec_inj, index_toBitVec, index_toBitVec, BitVec.xor_right_inj,
    UInt8.toBitVec_inj]

/-- A register is its low byte, as a byte of the data shows it, and the rest. -/
theorem eq_iff_shift_index {s t : UInt32} (b : UInt8) :
    s = t ↔ s >>> 8 = t >>> 8 ∧ index s b = index t b := by
  refine ⟨fun h => h ▸ ⟨rfl, rfl⟩, fun ⟨hhigh, hlow⟩ => ?_⟩
  rw [← UInt8.toBitVec_inj, index_toBitVec, index_toBitVec, BitVec.xor_left_inj] at hlow
  have hshift : s.toBitVec >>> 8 = t.toBitVec >>> 8 := by
    simpa using congrArg UInt32.toBitVec hhigh
  apply UInt32.toBitVec_inj.mp
  apply BitVec.eq_of_getLsbD_eq
  intro i hi
  rcases Nat.lt_or_ge i 8 with h | h
  · have := congrArg (·.getLsbD i) hlow
    simpa [h] using this
  · have := congrArg (·.getLsbD (i - 8)) hshift
    simpa [BitVec.getLsbD_ushiftRight, Nat.add_sub_cancel' h] using this

variable {T}

/-- The entries that a step selects decide the top bytes of the registers after it, so equal
registers come from one entry and from registers that differ in their low bytes at most. -/
theorem step_eq_iff (hT : TopInjective T) {s t : UInt32} {b c : UInt8} :
    step T s b = step T t c ↔ s >>> 8 = t >>> 8 ∧ T (index s b) = T (index t c) := by
  have htop : ∀ u v : UInt32, (u ^^^ (v >>> 8)) >>> 24 = u >>> 24 := by
    intro u v
    apply UInt32.toBitVec_inj.mp
    have hv : v.toBitVec >>> 32 = 0#32 := BitVec.ushiftRight_eq_zero (Nat.le_refl 32)
    simp [BitVec.ushiftRight_xor_distrib, ← BitVec.shiftRight_add, hv]
  constructor
  · intro h
    have hentry : T (index s b) = T (index t c) := by
      apply hT
      rw [← htop (T (index s b)) s, ← htop (T (index t c)) t]
      exact congrArg (fun r : UInt32 => r >>> 24) h
    refine ⟨?_, hentry⟩
    unfold step at h
    rw [hentry] at h
    exact (UInt32.xor_right_inj _).mp h
  · rintro ⟨hshift, hentry⟩
    unfold step
    rw [hentry, hshift]

/-- Two registers that differ become one on a byte string when they meet on a byte of it. -/
theorem run_eq_iff_of_ne (hT : TopInjective T) {s t : UInt32} (hne : s ≠ t) (data : List UInt8) :
    run T s data = run T t data ↔
      ∃ j b, data[j]? = some b ∧ Meets T (run T s (data.take j)) (run T t (data.take j)) b b := by
  induction data generalizing s t with
  | nil => simp [hne]
  | cons b data ih =>
    by_cases hstep : step T s b = step T t b
    · obtain ⟨hshift, hentry⟩ := (step_eq_iff hT).mp hstep
      have hindex : index s b ≠ index t b := fun h => hne ((eq_iff_shift_index b).mpr ⟨hshift, h⟩)
      rw [run_cons, run_cons, hstep]
      exact ⟨fun _ => ⟨0, b, rfl, hshift, hindex, hentry⟩, fun _ => rfl⟩
    · rw [run_cons, run_cons, ih hstep]
      constructor
      · rintro ⟨j, c, hc, h⟩
        exact ⟨j + 1, c, hc, h⟩
      · rintro ⟨j, c, hc, h⟩
        cases j with
        | zero =>
          obtain rfl := Option.some.inj hc
          exact absurd ((step_eq_iff hT).mpr ⟨h.1, h.2.2⟩) hstep
        | succ j => exact ⟨j, c, hc, h⟩

/-- Two byte strings that differ in one byte have one checksum exactly when their runs meet, where
the byte is altered or at a later place. -/
theorem run_set_eq_iff (hT : TopInjective T) (s : UInt32) {data : List UInt8}
    {pos : Nat} {c : UInt8}
    (hpos : pos < data.length) (hne : data[pos]? ≠ some c) :
    run T s (data.set pos c) = run T s data ↔ ∃ j b d, pos ≤ j ∧ (data.set pos c)[j]? = some b ∧
      data[j]? = some d ∧
      Meets T (run T s ((data.set pos c).take j)) (run T s (data.take j)) b d := by
  induction data generalizing s pos with
  | nil => exact absurd hpos (Nat.not_lt_zero _)
  | cons b data ih =>
    cases pos with
    | zero =>
      have hcb : c ≠ b := fun h => hne (by rw [h]; rfl)
      have hindex : index s c ≠ index s b := fun h => hcb (index_inj_right.mp h)
      by_cases hstep : step T s c = step T s b
      · have hentry := ((step_eq_iff hT).mp hstep).2
        rw [List.set_cons_zero, run_cons, run_cons, hstep]
        exact ⟨fun _ => ⟨0, c, b, Nat.le_refl 0, rfl, rfl, rfl, hindex, hentry⟩, fun _ => rfl⟩
      · rw [List.set_cons_zero, run_cons, run_cons, run_eq_iff_of_ne hT hstep]
        constructor
        · rintro ⟨j, d, hd, h⟩
          exact ⟨j + 1, d, d, Nat.zero_le _, hd, hd, h⟩
        · rintro ⟨j, d, e, -, hd, he, h⟩
          cases j with
          | zero =>
            obtain rfl := Option.some.inj hd
            obtain rfl := Option.some.inj he
            exact absurd ((step_eq_iff hT).mpr ⟨h.1, h.2.2⟩) hstep
          | succ j =>
            obtain rfl : d = e := Option.some.inj (hd.symm.trans he)
            exact ⟨j, d, hd, h⟩
    | succ pos =>
      rw [List.set_cons_succ, run_cons, run_cons, ih _ (Nat.lt_of_succ_lt_succ hpos) hne]
      constructor
      · rintro ⟨j, d, e, hle, h⟩
        exact ⟨j + 1, d, e, Nat.succ_le_succ hle, h⟩
      · rintro ⟨j, d, e, hle, h⟩
        cases j with
        | zero => exact absurd hle (Nat.not_succ_le_zero _)
        | succ j => exact ⟨j, d, e, Nat.le_of_succ_le_succ hle, h⟩

end TableCrc
