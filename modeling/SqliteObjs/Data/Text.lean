import Mathlib.Data.List.DropRight
import Mathlib.Data.List.Infix

/-!
# Texts, lines and decimal numbers

A text is a list of characters. It is cut into lines at line feeds, a line is trimmed of
the white space at its ends and cut in two at the first occurrence of a character, and
whole numbers are printed and read in decimal. A text made by joining lines is cut into
those lines again, up to the carriage return that a line may end in.
-/

set_option autoImplicit false

namespace Text

/-! ## Trimming -/

/-- The characters of the Unicode property `White_Space`. -/
def isWhitespace (c : Char) : Bool :=
  (9 ≤ c.val && c.val ≤ 13) || c.val == 32 || c.val == 0x85 || c.val == 0xA0 || c.val == 0x1680 ||
    (0x2000 ≤ c.val && c.val ≤ 0x200A) || c.val == 0x2028 || c.val == 0x2029 || c.val == 0x202F ||
    c.val == 0x205F || c.val == 0x3000

def trimStart (s : List Char) : List Char := s.dropWhile isWhitespace

def trimEnd (s : List Char) : List Char := s.rdropWhile isWhitespace

def trim (s : List Char) : List Char := trimEnd (trimStart s)

theorem trimStart_append {s t : List Char} (c : Char) (hc : isWhitespace c = false) :
    trimStart (s ++ c :: t) = trimStart s ++ c :: t := by
  unfold trimStart
  induction s with
  | nil => simp [hc]
  | cons d s ih =>
    rw [List.cons_append, List.dropWhile_cons, List.dropWhile_cons]
    split
    · exact ih
    · rfl

theorem trimEnd_append {s t : List Char} (c : Char) (hc : isWhitespace c = false) :
    trimEnd (s ++ c :: t) = s ++ c :: trimEnd t := by
  unfold trimEnd List.rdropWhile
  rw [List.reverse_append, List.reverse_cons, List.append_assoc, List.singleton_append]
  have := trimStart_append (s := t.reverse) (t := s.reverse) c hc
  unfold trimStart at this
  rw [this]
  simp

theorem trimStart_of_ne {c : Char} {s : List Char} (hc : isWhitespace c = false) :
    trimStart (c :: s) = c :: s := by
  simpa [trimStart] using trimStart_append (s := []) (t := s) c hc

theorem trimStart_trimStart (s : List Char) : trimStart (trimStart s) = trimStart s :=
  List.dropWhile_idempotent _ _

/-- A text is white space throughout, or has a first character that is not. -/
theorem white_or_split (s : List Char) : (∀ c ∈ s, isWhitespace c = true) ∨
    ∃ u c t, s = u ++ c :: t ∧ (∀ d ∈ u, isWhitespace d = true) ∧ isWhitespace c = false := by
  induction s with
  | nil => exact .inl (by simp)
  | cons c s ih =>
    cases hc : isWhitespace c with
    | false => exact .inr ⟨[], c, s, rfl, by simp, hc⟩
    | true =>
      rcases ih with h | ⟨u, d, t, rfl, hu, hd⟩
      · exact .inl (List.forall_mem_cons.mpr ⟨hc, h⟩)
      · exact .inr ⟨c :: u, d, t, rfl, List.forall_mem_cons.mpr ⟨hc, hu⟩, hd⟩

theorem trimStart_white {s : List Char} (h : ∀ c ∈ s, isWhitespace c = true) : trimStart s = [] :=
  List.dropWhile_eq_nil_iff.mpr h

theorem trimEnd_white {s : List Char} (h : ∀ c ∈ s, isWhitespace c = true) : trimEnd s = [] :=
  List.rdropWhile_eq_nil_iff.mpr h

/-- The two ends may be trimmed in either order. -/
theorem trimStart_trimEnd (s : List Char) : trimStart (trimEnd s) = trimEnd (trimStart s) := by
  rcases white_or_split s with h | ⟨u, c, t, rfl, hu, hc⟩
  · rw [trimEnd_white h, trimStart_white h]
    rfl
  · rw [trimEnd_append c hc, trimStart_append c hc, trimStart_append c hc, trimStart_white hu,
      List.nil_append, List.nil_append]
    exact (trimEnd_append (s := []) c hc).symm

theorem trim_trimStart (s : List Char) : trim (trimStart s) = trim s := by
  unfold trim
  rw [trimStart_trimStart]

theorem trim_trimEnd (s : List Char) : trim (trimEnd s) = trim s := by
  unfold trim
  rw [← trimStart_trimEnd, ← trimStart_trimEnd]
  congr 1
  exact List.rdropWhile_idempotent _ _

theorem trim_append {s t : List Char} (c : Char) (hc : isWhitespace c = false) :
    trim (s ++ c :: t) = trimStart s ++ c :: trimEnd t := by
  unfold trim
  rw [trimStart_append c hc, trimEnd_append c hc]

theorem trim_concat_white {s : List Char} {c : Char} (hc : isWhitespace c = true) :
    trim (s ++ [c]) = trim s := by
  unfold trim
  rw [← trimStart_trimEnd, ← trimStart_trimEnd]
  congr 1
  exact List.rdropWhile_concat_pos _ _ _ hc

/-- A text without white space is trimmed already. -/
theorem trim_of_forall {s : List Char} (h : ∀ c ∈ s, isWhitespace c = false) : trim s = s := by
  have hstart : trimStart s = s := by
    cases s with
    | nil => rfl
    | cons c s => exact trimStart_of_ne (h c (by simp))
  unfold trim
  rw [hstart]
  apply List.rdropWhile_eq_self_iff.mpr
  intro hne hlast
  rw [h _ (List.getLast_mem hne)] at hlast
  exact Bool.false_ne_true hlast

/-! ## Cutting -/

/-- What stands before and after the first occurrence of a character. -/
def splitOnce (d : Char) : List Char → Option (List Char × List Char)
  | [] => none
  | c :: s => if c = d then some ([], s) else (splitOnce d s).map fun p => (c :: p.1, p.2)

theorem splitOnce_append {d : Char} {s t : List Char} (h : d ∉ s) :
    splitOnce d (s ++ d :: t) = some (s, t) := by
  induction s with
  | nil => simp [splitOnce]
  | cons c s ih =>
    obtain ⟨hne, hmem⟩ := not_or.mp (mt List.mem_cons.mpr h)
    rw [List.cons_append, splitOnce, if_neg (Ne.symm hne), ih hmem]
    rfl

/-- The lines of a text with the line feeds that end them; the last may have none. -/
def splitInclusive : List Char → List (List Char)
  | [] => []
  | c :: s =>
    if c = '\n' then [c] :: splitInclusive s
    else
      match splitInclusive s with
      | [] => [[c]]
      | l :: ls => (c :: l) :: ls

/-- A line without its line feed, and without the carriage return before that. -/
def stripEnd (l : List Char) : List Char :=
  if l.getLast? = some '\n' then
    if l.dropLast.getLast? = some '\r' then l.dropLast.dropLast else l.dropLast
  else l

def lines (s : List Char) : List (List Char) := (splitInclusive s).map stripEnd

/-- Lines joined by line feeds. -/
def join (ls : List (List Char)) : List Char := ['\n'].intercalate ls

theorem splitInclusive_append {l s : List Char} (h : '\n' ∉ l) :
    splitInclusive (l ++ '\n' :: s) = (l ++ ['\n']) :: splitInclusive s := by
  induction l with
  | nil => simp [splitInclusive]
  | cons c l ih =>
    obtain ⟨hne, hmem⟩ := not_or.mp (mt List.mem_cons.mpr h)
    rw [List.cons_append, splitInclusive, if_neg (Ne.symm hne), ih hmem]
    rfl

theorem splitInclusive_line {l : List Char} (h : '\n' ∉ l) (hne : l ≠ []) :
    splitInclusive l = [l] := by
  induction l with
  | nil => exact absurd rfl hne
  | cons c l ih =>
    obtain ⟨hc, hmem⟩ := not_or.mp (mt List.mem_cons.mpr h)
    rw [splitInclusive, if_neg (Ne.symm hc)]
    cases l with
    | nil => rfl
    | cons d l => rw [ih hmem (by simp)]

/-- A line that is read back has the characters of the line that was written, but for a carriage
return at its end. -/
theorem trim_stripEnd {l : List Char} : trim (stripEnd (l ++ ['\n'])) = trim l := by
  unfold stripEnd
  rw [List.getLast?_concat, if_pos rfl, List.dropLast_concat]
  split
  · next h =>
    obtain ⟨u, rfl⟩ := List.getLast?_eq_some_iff.mp h
    rw [List.dropLast_concat, trim_concat_white (by decide)]
  · rfl

theorem stripEnd_line {l : List Char} (h : '\n' ∉ l) : stripEnd l = l := by
  unfold stripEnd
  rw [if_neg fun hlast => h (List.mem_of_getLast? hlast)]

/-- Joined lines come apart again. -/
theorem trim_lines_join {ls : List (List Char)} (h : ∀ l ∈ ls, '\n' ∉ l ∧ l ≠ []) :
    (lines (join ls)).map trim = ls.map trim := by
  unfold lines join
  induction ls with
  | nil => rfl
  | cons l ls ih =>
    obtain ⟨hl, hne⟩ := h l (by simp)
    have ih := ih fun m hm => h m (by simp [hm])
    cases ls with
    | nil =>
      rw [List.intercalate_singleton, splitInclusive_line hl hne, List.map_singleton,
        stripEnd_line hl]
    | cons m ls =>
      rw [List.intercalate_cons_cons, List.append_assoc, List.singleton_append,
        splitInclusive_append hl, List.map_cons, List.map_cons, trim_stripEnd, ih]
      rfl

/-! ## Decimal numbers -/

/-- A whole number in decimal, with a minus sign if it is negative. -/
def printInt (v : Int) : List Char :=
  if v < 0 then '-' :: Nat.toDigits 10 v.natAbs else Nat.toDigits 10 v.natAbs

/-- A text of one decimal digit or more. -/
def readDigits (s : List Char) : Option Nat :=
  if s = [] ∨ ¬ s.all Char.isDigit then none else some (Nat.ofDigitChars 10 s 0)

/-- A whole number in decimal, with a sign before it or none. -/
def readInt : List Char → Option Int
  | '-' :: s => (readDigits s).map fun n : Nat => -(n : Int)
  | '+' :: s => (readDigits s).map fun n : Nat => (n : Int)
  | s => (readDigits s).map fun n : Nat => (n : Int)

theorem readDigits_toDigits (n : Nat) : readDigits (Nat.toDigits 10 n) = some n := by
  have hall : (Nat.toDigits 10 n).all Char.isDigit = true :=
    List.all_eq_true.mpr fun c hc => Nat.isDigit_of_mem_toDigits (by decide) (by decide) hc
  unfold readDigits
  rw [if_neg (by simp [Nat.toDigits_ne_nil, hall]), Nat.ofDigitChars_ten_toDigits]

theorem isWhitespace_of_isDigit {c : Char} (h : c.isDigit = true) : isWhitespace c = false := by
  simp only [Char.isDigit, Bool.and_eq_true, decide_eq_true_eq, ge_iff_le, UInt32.le_iff_toNat_le,
    Char.reduceVal, UInt32.reduceToNat] at h
  simp only [isWhitespace, Bool.or_eq_false_iff, Bool.and_eq_false_iff, decide_eq_false_iff_not,
    beq_eq_false_iff_ne, ne_eq, UInt32.le_iff_toNat_le, ← UInt32.toNat_inj, UInt32.reduceToNat]
  omega

/-- A printed number is one word. -/
theorem isWhitespace_of_mem_printInt {c : Char} {v : Int} (h : c ∈ printInt v) :
    isWhitespace c = false := by
  have hdigits : ∀ n, c ∈ Nat.toDigits 10 n → isWhitespace c = false := fun n hc =>
    isWhitespace_of_isDigit (Nat.isDigit_of_mem_toDigits (by decide) (by decide) hc)
  unfold printInt at h
  split at h
  · rcases List.mem_cons.mp h with rfl | h
    · decide
    · exact hdigits _ h
  · exact hdigits _ h

theorem readInt_printInt (v : Int) : readInt (printInt v) = some v := by
  unfold printInt
  split
  · next h =>
    rw [readInt, readDigits_toDigits, Option.map_some]
    congr 1
    omega
  · next h =>
    obtain ⟨c, s, hcs⟩ := List.exists_cons_of_ne_nil (Nat.toDigits_ne_nil (n := v.natAbs) (b := 10))
    have hdigit : c.isDigit = true :=
      Nat.isDigit_of_mem_toDigits (b := 10) (n := v.natAbs) (by decide) (by decide) (by simp [hcs])
    have hread : readInt (c :: s) = (readDigits (c :: s)).map fun n : Nat => (n : Int) := by
      unfold readInt
      split
      · next heq => cases heq; exact absurd hdigit (by decide)
      · next heq => cases heq; exact absurd hdigit (by decide)
      · rfl
    rw [hcs, hread, ← hcs, readDigits_toDigits, Option.map_some]
    congr 1
    omega

end Text
