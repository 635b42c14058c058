import Mathlib.Tactic.Common

/-!
# Base64

Three bytes become four characters of six bits each; a shorter rest is padded with `=`. The
length of an encoding depends on the length of the input only, and no two inputs have the
same encoding.
-/

set_option autoImplicit false

namespace Base64

/-- The alphabet. -/
def alphabet : List Char :=
  "ABCDEFGHIJKLMNOPQRSTUVWXYZabcdefghijklmnopqrstuvwxyz0123456789+/".toList

/-- The character for six bits. -/
def digit (n : Nat) : Char := alphabet.getD n '='

/-- The encoding without line breaks. -/
def encode : List UInt8 → List Char
  | [] => []
  | [a] => [digit (a.toNat / 4), digit (a.toNat % 4 * 16), '=', '=']
  | [a, b] => [digit (a.toNat / 4), digit (a.toNat % 4 * 16 + b.toNat / 16),
      digit (b.toNat % 16 * 4), '=']
  | a :: b :: c :: bytes =>
    digit (a.toNat / 4) :: digit (a.toNat % 4 * 16 + b.toNat / 16) ::
      digit (b.toNat % 16 * 4 + c.toNat / 64) :: digit (c.toNat % 64) :: encode bytes

theorem length_encode (bytes : List UInt8) :
    (encode bytes).length = (bytes.length + 2) / 3 * 4 := by
  fun_induction encode bytes with
  | case1 => rfl
  | case2 a => simp
  | case3 a b => simp
  | case4 a b c bytes ih =>
    simp only [List.length_cons, ih]
    omega

/-- What an encoding is made of. -/
theorem mem_encode {bytes : List UInt8} {c : Char} (h : c ∈ encode bytes) :
    c ∈ '=' :: alphabet := by
  have hdigit : ∀ n, digit n ∈ '=' :: alphabet := by
    intro n
    unfold digit
    rw [List.getD_eq_getElem?_getD]
    cases hn : alphabet[n]? with
    | none => simp
    | some d => exact List.mem_cons_of_mem _ (List.mem_of_getElem? hn)
  fun_induction encode bytes with
  | case1 => cases h
  | case2 a =>
    simp only [List.mem_cons, List.not_mem_nil, or_false] at h
    rcases h with rfl | rfl | rfl | rfl
    · exact hdigit _
    · exact hdigit _
    · exact List.mem_cons_self
    · exact List.mem_cons_self
  | case3 a b =>
    simp only [List.mem_cons, List.not_mem_nil, or_false] at h
    rcases h with rfl | rfl | rfl | rfl
    · exact hdigit _
    · exact hdigit _
    · exact hdigit _
    · exact List.mem_cons_self
  | case4 a b c bytes ih =>
    rcases List.mem_cons.mp h with rfl | h
    · exact hdigit _
    rcases List.mem_cons.mp h with rfl | h
    · exact hdigit _
    rcases List.mem_cons.mp h with rfl | h
    · exact hdigit _
    rcases List.mem_cons.mp h with rfl | h
    · exact hdigit _
    · exact ih h

/-! ## Reading back -/

/-- The six bits of a character. -/
def value (c : Char) : Nat := alphabet.idxOf c

/-- What an encoding stands for. -/
def decode : List Char → List UInt8
  | p :: q :: r :: s :: text =>
    let a := UInt8.ofNat (value p * 4 + value q / 16)
    let b := UInt8.ofNat (value q % 16 * 16 + value r / 4)
    if r = '=' then [a]
    else if s = '=' then [a, b]
    else a :: b :: UInt8.ofNat (value r % 4 * 64 + value s) :: decode text
  | _ => []

theorem value_digit {n : Nat} (hn : n < 64) : value (digit n) = n := by
  have hall : ∀ n < 64, value (digit n) = n := by decide +kernel
  exact hall n hn

theorem digit_ne_pad {n : Nat} (hn : n < 64) : digit n ≠ '=' := by
  have hall : ∀ n < 64, digit n ≠ '=' := by decide +kernel
  exact hall n hn

/-- The bits of a byte, from wherever they were put. -/
theorem ofNat_eq {n : Nat} {a : UInt8} (h : n = a.toNat) : UInt8.ofNat n = a := by
  rw [h, UInt8.ofNat_toNat]

theorem decode_encode (bytes : List UInt8) : decode (encode bytes) = bytes := by
  fun_induction encode bytes with
  | case1 => rfl
  | case2 a =>
    have ha := a.toNat_lt
    have hfirst : UInt8.ofNat (a.toNat / 4 * 4 + a.toNat % 4 * 16 / 16) = a := ofNat_eq (by omega)
    rw [decode, if_pos rfl, value_digit (by omega), value_digit (by omega), hfirst]
  | case3 a b =>
    have ha := a.toNat_lt
    have hb := b.toNat_lt
    have hfirst : UInt8.ofNat (a.toNat / 4 * 4 + (a.toNat % 4 * 16 + b.toNat / 16) / 16) = a :=
      ofNat_eq (by omega)
    have hsecond : UInt8.ofNat ((a.toNat % 4 * 16 + b.toNat / 16) % 16 * 16 +
        b.toNat % 16 * 4 / 4) = b := ofNat_eq (by omega)
    rw [decode, if_neg (digit_ne_pad (by omega)), if_pos rfl, value_digit (by omega),
      value_digit (by omega), value_digit (by omega), hfirst, hsecond]
  | case4 a b c bytes ih =>
    have ha := a.toNat_lt
    have hb := b.toNat_lt
    have hc := c.toNat_lt
    have hfirst : UInt8.ofNat (a.toNat / 4 * 4 + (a.toNat % 4 * 16 + b.toNat / 16) / 16) = a :=
      ofNat_eq (by omega)
    have hsecond : UInt8.ofNat ((a.toNat % 4 * 16 + b.toNat / 16) % 16 * 16 +
        (b.toNat % 16 * 4 + c.toNat / 64) / 4) = b := ofNat_eq (by omega)
    have hthird : UInt8.ofNat ((b.toNat % 16 * 4 + c.toNat / 64) % 4 * 64 + c.toNat % 64) = c :=
      ofNat_eq (by omega)
    rw [decode, if_neg (digit_ne_pad (by omega)), if_neg (digit_ne_pad (by omega)),
      value_digit (by omega), value_digit (by omega), value_digit (by omega),
      value_digit (by omega), hfirst, hsecond, hthird, ih]

/-- No two inputs have the same encoding. -/
theorem encode_injective : Function.Injective encode :=
  Function.LeftInverse.injective decode_encode

end Base64
