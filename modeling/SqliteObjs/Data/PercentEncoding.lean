import Mathlib.Tactic.Common

/-!
# Percent encoding

A byte that is not kept becomes `%` and two hexadecimal digits. An encoded text is longer than
the text unless every byte was kept, and decoding gives back a text of the old length.
-/

set_option autoImplicit false

namespace PercentEncoding

def hexDigits : List Char := "0123456789ABCDEF".toList

/-- A hexadecimal digit. -/
def hexDigit (n : Nat) : Char := hexDigits.getD n '0'

/-- The value of a hexadecimal digit. -/
def hexValue (c : Char) : Option Nat :=
  if c.isDigit then some (c.toNat - 48)
  else if 'A' ≤ c ∧ c ≤ 'F' then some (c.toNat - 55)
  else if 'a' ≤ c ∧ c ≤ 'f' then some (c.toNat - 87)
  else none

/-- The code of a byte. -/
def percent (c : Char) : List Char := ['%', hexDigit (c.toNat / 16 % 16), hexDigit (c.toNat % 16)]

/-- Encode what is not kept. -/
def encode (keep : Char → Bool) (s : List Char) : List Char :=
  s.flatMap fun c => if keep c then [c] else percent c

/-- Decode; a `%` that no two digits follow stands for itself. -/
def decode : List Char → List Char
  | '%' :: a :: b :: s =>
    match hexValue a, hexValue b with
    | some m, some n => Char.ofNat (m * 16 + n) :: decode s
    | _, _ => '%' :: decode (a :: b :: s)
  | c :: s => c :: decode s
  | [] => []

variable {keep : Char → Bool}

@[simp] theorem encode_nil : encode keep [] = [] := rfl

theorem encode_cons (c : Char) (s : List Char) :
    encode keep (c :: s) = (if keep c then [c] else percent c) ++ encode keep s := rfl

theorem encode_cons_keep {c : Char} (hc : keep c = true) (s : List Char) :
    encode keep (c :: s) = c :: encode keep s := by
  rw [encode_cons, if_pos hc]
  rfl

theorem encode_append (s t : List Char) : encode keep (s ++ t) = encode keep s ++ encode keep t :=
  List.flatMap_append

/-- A kept text is its own encoding. -/
theorem encode_of_forall {s : List Char} (h : ∀ c ∈ s, keep c = true) : encode keep s = s := by
  induction s with
  | nil => rfl
  | cons c s ih =>
    rw [encode_cons_keep (h c (by simp)), ih fun d hd => h d (by simp [hd])]

theorem length_le_length_encode (s : List Char) : s.length ≤ (encode keep s).length := by
  induction s with
  | nil => exact Nat.le_refl 0
  | cons c s ih =>
    rw [encode_cons, List.length_append, List.length_cons]
    split
    · simp only [List.length_singleton]
      omega
    · simp only [percent, List.length_cons, List.length_nil]
      omega

theorem length_encode_le (s : List Char) : (encode keep s).length ≤ 3 * s.length := by
  induction s with
  | nil => exact Nat.le_refl 0
  | cons c s ih =>
    rw [encode_cons, List.length_append, List.length_cons]
    split
    · simp only [List.length_singleton]
      omega
    · simp only [percent, List.length_cons, List.length_nil]
      omega

/-- Only a kept text is not lengthened. -/
theorem keep_of_length {s : List Char} (h : (encode keep s).length = s.length) :
    ∀ c ∈ s, keep c = true := by
  intro c hc
  by_contra hkeep
  obtain ⟨u, v, rfl⟩ := List.append_of_mem hc
  have hu := @length_le_length_encode keep u
  have hv := @length_le_length_encode keep v
  rw [encode_append, encode_cons, if_neg hkeep] at h
  simp only [percent, List.length_append, List.length_cons, List.length_nil] at h
  omega

/-- A text does not follow the code of `%` in its own encoding. -/
theorem ne_shifted (htwo : keep '2' = true) (hfive : keep '5' = true) {t : List Char}
    (ht : ∀ c ∈ t.head?, c ≠ '2' ∧ c ≠ '5') (t' : List Char) :
    ∀ s : List Char, s ++ t ≠ '2' :: '5' :: (encode keep s ++ t')
  | [], h => by
    rw [List.nil_append] at h
    exact (ht '2' (by rw [h]; rfl)).1 rfl
  | [c], h => by
    have htail : t = '5' :: (encode keep [c] ++ t') := (List.cons.inj h).2
    exact (ht '5' (by rw [htail]; rfl)).2 rfl
  | c :: d :: s, h => by
    obtain ⟨rfl, htail⟩ := List.cons.inj h
    obtain ⟨rfl, hrest⟩ := List.cons.inj htail
    rw [encode_cons_keep htwo, encode_cons_keep hfive] at hrest
    exact ne_shifted htwo hfive ht t' s hrest

/-- A text and its encoding begin alike only if every byte was kept. -/
theorem keep_of_append_eq (htwo : keep '2' = true) (hfive : keep '5' = true) {t t' : List Char}
    (ht : ∀ c ∈ t.head?, c ≠ '2' ∧ c ≠ '5') {s : List Char}
    (h : s ++ t = encode keep s ++ t') : ∀ c ∈ s, keep c = true := by
  induction s with
  | nil => exact fun c hc => nomatch hc
  | cons c s ih =>
    rw [encode_cons] at h
    split at h
    · next hc => exact List.forall_mem_cons.mpr ⟨hc, ih (List.cons.inj h).2⟩
    · obtain ⟨rfl, htail⟩ := List.cons.inj h
      -- what follows is the code of `%`, and `25` is kept
      exact absurd htail (ne_shifted htwo hfive ht t' s)

/-- A text of kept bytes and codes. -/
inductive Escaped (keep : Char → Bool) : List Char → Prop
  | nil : Escaped keep []
  | kept {c : Char} {s : List Char} (hc : keep c = true) (hs : Escaped keep s) :
      Escaped keep (c :: s)
  | code {m n : Nat} {s : List Char} (hm : m < 16) (hn : n < 16) (hs : Escaped keep s) :
    Escaped keep ('%' :: hexDigit m :: hexDigit n :: s)

theorem escaped_encode (s : List Char) : Escaped keep (encode keep s) := by
  induction s with
  | nil => exact .nil
  | cons c s ih =>
    rw [encode_cons]
    split
    · next hc => exact .kept hc ih
    · exact .code (Nat.mod_lt _ (by decide)) (Nat.mod_lt _ (by decide)) ih

/-- What an encoding is made of. -/
theorem mem_encode {s : List Char} {c : Char} (h : c ∈ encode keep s) :
    keep c = true ∨ c = '%' ∨ c ∈ hexDigits := by
  have hdigit : ∀ n < 16, hexDigit n ∈ hexDigits := by decide
  obtain ⟨d, -, hd⟩ := List.mem_flatMap.mp h
  split at hd
  · next hkeep =>
    rw [List.mem_singleton.mp hd]
    exact .inl hkeep
  · refine .inr ?_
    simp only [percent, List.mem_cons, List.not_mem_nil, or_false] at hd
    rcases hd with rfl | rfl | rfl
    · exact .inl rfl
    · exact .inr (hdigit _ (Nat.mod_lt _ (by decide)))
    · exact .inr (hdigit _ (Nat.mod_lt _ (by decide)))

/-! ## Decoding -/

theorem decode_cons {c : Char} (hc : c ≠ '%') (s : List Char) :
    decode (c :: s) = c :: decode s := by
  rw [decode]
  intro a b t hchar _
  exact hc hchar

/-- A text without `%` stands for itself. -/
theorem decode_of_forall {s : List Char} (h : '%' ∉ s) : decode s = s := by
  induction s with
  | nil => rfl
  | cons c s ih =>
    obtain ⟨hc, hs⟩ := not_or.mp (mt List.mem_cons.mpr h)
    rw [decode_cons (Ne.symm hc), ih hs]

theorem hexValue_hexDigit {n : Nat} (hn : n < 16) : hexValue (hexDigit n) = some n := by
  have hall : ∀ n < 16, hexValue (hexDigit n) = some n := by decide
  exact hall n hn

theorem decode_percent (c : Char) (s : List Char) :
    decode (percent c ++ s) = Char.ofNat (c.toNat / 16 % 16 * 16 + c.toNat % 16) :: decode s := by
  unfold percent
  simp only [List.cons_append, List.nil_append]
  rw [decode, hexValue_hexDigit (Nat.mod_lt _ (by decide)),
    hexValue_hexDigit (Nat.mod_lt _ (by decide))]

/-- Bytes are decoded to what they were. -/
theorem decode_encode (hpercent : keep '%' = false) {s : List Char} (h : ∀ c ∈ s, c.toNat < 256) :
    decode (encode keep s) = s := by
  induction s with
  | nil => rfl
  | cons c s ih =>
    have ih := ih fun d hd => h d (List.mem_cons_of_mem c hd)
    rw [encode_cons]
    split
    · next hkeep =>
      have hc : c ≠ '%' := by
        rintro rfl
        rw [hpercent] at hkeep
        cases hkeep
      rw [List.singleton_append, decode_cons hc, ih]
    · have hc := h c List.mem_cons_self
      have hsum : c.toNat / 16 % 16 * 16 + c.toNat % 16 = c.toNat := by omega
      rw [decode_percent, hsum, Char.ofNat_toNat, ih]

/-- Decoding gives back the length. -/
theorem length_decode_encode (hpercent : keep '%' = false) (s : List Char) :
    (decode (encode keep s)).length = s.length := by
  induction s with
  | nil => rfl
  | cons c s ih =>
    rw [encode_cons]
    split
    · next hkeep =>
      have hc : c ≠ '%' := by
        rintro rfl
        rw [hpercent] at hkeep
        cases hkeep
      rw [List.singleton_append, decode_cons hc, List.length_cons, List.length_cons, ih]
    · rw [decode_percent, List.length_cons, List.length_cons, ih]

/-- An encoding stands for itself only if every byte was kept. -/
theorem decode_encode_eq_iff (hpercent : keep '%' = false) {s : List Char} :
    decode (encode keep s) = encode keep s ↔ ∀ c ∈ s, keep c = true := by
  constructor
  · intro h
    have hlength := length_decode_encode hpercent s
    rw [h] at hlength
    exact keep_of_length hlength
  · intro h
    rw [encode_of_forall h]
    apply decode_of_forall
    intro hmem
    rw [h '%' hmem] at hpercent
    cases hpercent

end PercentEncoding
