import SqliteObjs.Azure.PageRanges

/-!
# Reading a page range diff

The text for a list of ranges is parsed to that list, and so is a beginning of it that has the
last offset of the list and the character behind it. A shorter beginning is accepted too, with
the ranges it has the `<End>` tags of: the parser does not ask for the end of the list
(`parse_page_ranges_iff`). What follows the text in memory matters only where it continues an
offset.
-/

set_option autoImplicit false

namespace SqliteObjs

open Search CS CS.Program

/-! ## Numbers -/

theorem isSpace_of_isDigit {c : Char} (h : c.isDigit = true) : isSpace c = false := by
  simp only [Char.isDigit, Bool.and_eq_true, decide_eq_true_eq, ge_iff_le, UInt32.le_iff_toNat_le,
    Char.reduceVal, UInt32.reduceToNat] at h
  have hc : c.toNat = c.val.toNat := rfl
  have hspace : c ≠ ' ' := fun he => by subst he; exact absurd h.1 (by decide)
  simp only [isSpace, beq_eq_false_iff_ne.mpr hspace, Bool.false_or, Bool.and_eq_false_iff,
    decide_eq_false_iff_not]
  omega

/-- A text that starts with a digit is read from there. -/
theorem strtoll_cons {c : Char} (hc : c.isDigit = true) (s : List Char) :
    strtoll (c :: s) = (min (leadingNat (c :: s)) int64Max : Nat) := by
  unfold strtoll
  rw [List.dropWhile_cons, if_neg (by rw [isSpace_of_isDigit hc]; decide)]
  split
  · next heq => cases heq; exact absurd hc (by decide)
  · next heq => cases heq; exact absurd hc (by decide)
  · rfl

theorem isDigit_of_mem {n : Nat} : ∀ c ∈ Nat.toDigits 10 n, c.isDigit = true :=
  fun _ hc => Nat.isDigit_of_mem_toDigits (by decide) (by decide) hc

/-- Digits, and whatever stands behind them. -/
theorem strtoll_digits {ds : List Char} (hds : ∀ c ∈ ds, c.isDigit = true) (hne : ds ≠ [])
    (z : List Char) : strtoll (ds ++ z) =
      (min (Nat.ofDigitChars 10 (ds ++ z.takeWhile Char.isDigit) 0) int64Max : Nat) := by
  obtain ⟨c, s, rfl⟩ := List.exists_cons_of_ne_nil hne
  rw [List.cons_append, strtoll_cons (hds c List.mem_cons_self), leadingNat, ← List.cons_append,
    List.takeWhile_append_of_pos hds]

/-- More digits do not make a number smaller. -/
theorem le_ofDigitChars (l : List Char) (n : Nat) :
    10 ^ l.length * n ≤ Nat.ofDigitChars 10 l n := by
  rw [Nat.ofDigitChars_eq_ofDigitChars_zero]
  omega

theorem ofDigitChars_toDigits_append (n : Nat) (l : List Char) :
    Nat.ofDigitChars 10 (Nat.toDigits 10 n ++ l) 0 = Nat.ofDigitChars 10 l n := by
  rw [Nat.ofDigitChars_append, Nat.ofDigitChars_ten_toDigits]

/-- An offset and what ends it. -/
theorem strtoll_offset {n : Nat} (hn : n ≤ int64Max) {z : List Char}
    (hz : z.head? = some '<' ∨ n = int64Max) : strtoll (Nat.toDigits 10 n ++ z) = n := by
  rw [strtoll_digits isDigit_of_mem Nat.toDigits_ne_nil, ofDigitChars_toDigits_append]
  rcases hz with hz | rfl
  · obtain ⟨c, s, rfl⟩ := List.exists_cons_of_ne_nil (l := z) (by rintro rfl; cases hz)
    obtain rfl : c = '<' := Option.some.inj hz
    rw [List.takeWhile_cons, if_neg (by decide), Nat.ofDigitChars_nil, Nat.min_eq_left hn]
  · have hle := le_ofDigitChars (z.takeWhile Char.isDigit) int64Max
    have hpos : 0 < 10 ^ (z.takeWhile Char.isDigit).length := Nat.pow_pos (by decide)
    rw [Nat.min_eq_right (Nat.le_trans (Nat.le_mul_of_pos_left _ hpos) hle)]

/-- An offset that is cut off, or that nothing ends, can be read as another number. -/
theorem exists_strtoll_ne {n k : Nat} (hn : n ≤ int64Max)
    (hk : k < (Nat.toDigits 10 n).length ∨ n ≠ int64Max) :
    ∃ z, cstr z = z ∧ strtoll ((Nat.toDigits 10 n).take k ++ z) ≠ n := by
  by_cases hne : strtoll ((Nat.toDigits 10 n).take k ++ []) ≠ n
  · exact ⟨[], rfl, hne⟩
  -- the digits that are there are the number already, so one more is too many
  refine ⟨['1'], by decide, fun heq => ?_⟩
  generalize hds : (Nat.toDigits 10 n).take k = ds at hne heq
  have hdigit : ∀ c ∈ ds, c.isDigit = true := fun c hc =>
    isDigit_of_mem c (List.mem_of_mem_take (hds ▸ hc))
  generalize hv : Nat.ofDigitChars 10 ds 0 = v
  have hcut : 10 ^ ((Nat.toDigits 10 n).drop k).length * v ≤ n := by
    have := le_ofDigitChars ((Nat.toDigits 10 n).drop k) v
    rw [← hv, ← hds, ← Nat.ofDigitChars_append, List.take_append_drop,
      Nat.ofDigitChars_ten_toDigits] at this
    rw [← hv, ← hds]
    exact this
  have hmore : Nat.ofDigitChars 10 (ds ++ ['1']) 0 = 10 * v + 1 := by
    rw [Nat.ofDigitChars_append, hv, Nat.ofDigitChars_cons, Nat.ofDigitChars_nil]
    rfl
  have hnum : v = n := by
    by_cases hnil : ds = []
    · rw [hnil] at hne hv
      rw [← hv]
      exact Int.natCast_inj.mp (not_not.mp hne)
    · rw [strtoll_digits hdigit hnil, List.takeWhile_nil, List.append_nil, hv] at hne
      have hpos : 0 < 10 ^ ((Nat.toDigits 10 n).drop k).length := Nat.pow_pos (by decide)
      have hle : v ≤ n := Nat.le_trans (Nat.le_mul_of_pos_left _ hpos) hcut
      rw [Nat.min_eq_left (Nat.le_trans hle hn)] at hne
      exact Int.natCast_inj.mp (not_not.mp hne)
  have hlast : strtoll (ds ++ ['1']) = (min (10 * v + 1) int64Max : Nat) := by
    by_cases hnil : ds = []
    · rw [hnil] at hv ⊢
      rw [← hv]
      decide
    · rw [strtoll_digits hdigit hnil, ← hmore]
      rfl
  rw [hlast, hnum] at heq
  have heq : min (10 * n + 1) int64Max = n := Int.natCast_inj.mp heq
  have hmax : 0 < int64Max := by decide
  rcases hk with hk | hk
  · have hpow : 10 ^ 1 ≤ 10 ^ ((Nat.toDigits 10 n).drop k).length :=
      Nat.pow_le_pow_right (by decide) (by rw [List.length_drop]; omega)
    have := Nat.mul_le_mul_right v hpow
    rw [hnum] at this hcut
    omega
  · omega

/-! ## One round -/

theorem lt_notMem_digits (n : Nat) : '<' ∉ Nat.toDigits 10 n := fun h =>
  absurd (isDigit_of_mem '<' h) (by decide)

section Round

variable {gap : List Char}

/-- A tag behind a gap is found there, and another tag only behind it. -/
theorem find_gap {t u : List Char} (hgap : '<' ∉ gap) (ht : t.head? = some '<')
    (hu : u.head? = some '<') (hclash : clash u t = true) (z : List Char) :
    find t (gap ++ (t ++ z)) = some gap.length ∧
    find u (gap ++ (t ++ z)) = (find u z).map (gap.length + t.length + ·) := by
  constructor
  · rw [find_append_of_not_mem ht hgap, find_append_self]
    rfl
  · rw [find_append_of_not_mem hu hgap, find_append_of_clash hclash, Option.map_map]
    congr 1
    funext i
    exact (Nat.add_assoc _ _ _).symm

theorem openTag_page (hgap : '<' ∉ gap) (z : List Char) :
    openTag (gap ++ (pageRangeTag ++ z)) = some (gap.length + 11, false) := by
  obtain ⟨hpage, hclear⟩ := find_gap hgap (t := pageRangeTag) (u := clearRangeTag) rfl rfl
    (by decide) z
  unfold openTag
  rw [hpage, hclear]
  cases find clearRangeTag z with
  | none => rfl
  | some i =>
    have hlen : pageRangeTag.length = 11 := rfl
    rw [Option.map_some]
    exact if_pos (by omega)

theorem openTag_clear (hgap : '<' ∉ gap) (z : List Char) :
    openTag (gap ++ (clearRangeTag ++ z)) = some (gap.length + 12, true) := by
  obtain ⟨hclear, hpage⟩ := find_gap hgap (t := clearRangeTag) (u := pageRangeTag) rfl rfl
    (by decide) z
  unfold openTag
  rw [hpage, hclear]
  cases find pageRangeTag z with
  | none => rfl
  | some i =>
    rw [Option.map_some]
    exact if_neg (by omega)

variable (r : PageListRange)

/-- The opening tag of an element is the nearer one, whatever follows it. -/
theorem openTag_eq (hgap : '<' ∉ gap) (z : List Char) :
    openTag (gap ++ (r.tag ++ z)) = some (gap.length + r.tag.length, r.isClear) := by
  unfold PageListRange.tag
  cases r.isClear with
  | false => exact openTag_page hgap z
  | true => exact openTag_clear hgap z

/-- The tags of an element that is not there completely are not found. -/
theorem find_tag_short (hgap : '<' ∉ gap) (z : List Char) {m : Nat}
    (hm : m < gap.length + r.tag.length) : openTag ((gap ++ (r.tag ++ z)).take m) = none := by
  have hnone : ∀ {t u : List Char}, t.head? = some '<' → u.head? = some '<' → clash u t = true →
      m < gap.length + t.length → find t ((gap ++ (t ++ z)).take m) = none ∧
        find u ((gap ++ (t ++ z)).take m) = none := by
    intro t u ht hu hclash hm
    obtain ⟨hfirst, hsecond⟩ := find_gap hgap ht hu hclash z
    constructor
    · rw [find_take (by rintro rfl; cases ht), hfirst, Option.filter_some,
        if_neg (by simpa using hm)]
    · rw [find_take (by rintro rfl; cases hu), hsecond]
      refine Option.filter_eq_none_iff.mpr fun i hi => ?_
      obtain ⟨j, -, rfl⟩ := Option.map_eq_some_iff.mp hi
      simp only [decide_eq_true_eq]
      omega
  unfold PageListRange.tag at hm ⊢
  unfold openTag
  cases hclear : r.isClear with
  | false =>
    rw [hclear] at hm
    obtain ⟨h₁, h₂⟩ := hnone (t := pageRangeTag) (u := clearRangeTag) rfl rfl (by decide) hm
    simp only [Bool.false_eq_true, if_false, h₁, h₂]
  | true =>
    rw [hclear] at hm
    obtain ⟨h₁, h₂⟩ := hnone (t := clearRangeTag) (u := pageRangeTag) rfl rfl (by decide) hm
    simp only [if_true, h₁, h₂]

theorem find_start (z : List Char) : find startTag (r.inner ++ z) = some 0 := by
  unfold PageListRange.inner
  rw [List.append_assoc, find_append_self]

theorem length_inner : r.inner.length = (Nat.toDigits 10 r.start).length + 20 := by
  have h₁ : startTag.length = 7 := rfl
  have h₂ : "</Start>".toList.length = 8 := rfl
  have h₃ : endTag.length = 5 := rfl
  simp only [PageListRange.inner, List.length_append]
  omega

/-- The end tag is the last part of it. -/
theorem find_end (z : List Char) : find endTag (r.inner ++ z) = some (r.inner.length - 5) := by
  have h₁ : startTag.length = 7 := rfl
  have h₂ : "</Start>".toList.length = 8 := rfl
  rw [length_inner]
  unfold PageListRange.inner
  simp only [List.append_assoc]
  rw [find_append_of_clash (by decide), find_append_of_not_mem (c := '<') rfl (lt_notMem_digits _),
    find_append_of_clash (by decide), find_append_self]
  simp only [Option.map_some, Option.some.injEq]
  omega

/-- The closing tag is found behind the last offset. -/
theorem find_close (z : List Char) : find (closeTag r.isClear)
    (r.inner ++ (Nat.toDigits 10 r.stop ++ (r.foot ++ z))) =
      some (r.inner.length + ((Nat.toDigits 10 r.stop).length + 6)) := by
  have h₁ : startTag.length = 7 := rfl
  have h₂ : "</Start>".toList.length = 8 := rfl
  have h₃ : endTag.length = 5 := rfl
  have h₄ : "</End>".toList.length = 6 := rfl
  have hhead : (closeTag r.isClear).head? = some '<' := by cases r.isClear <;> rfl
  have hclash : ∀ u ∈ [startTag, "</Start>".toList, endTag, "</End>".toList],
      clash (closeTag r.isClear) u = true := by
    cases r.isClear <;> decide
  rw [length_inner]
  unfold PageListRange.inner PageListRange.foot
  simp only [List.append_assoc]
  rw [find_append_of_clash (hclash _ (by simp)), find_append_of_not_mem hhead (lt_notMem_digits _),
    find_append_of_clash (hclash _ (by simp)), find_append_of_clash (hclash _ (by simp)),
    find_append_of_not_mem hhead (lt_notMem_digits _), find_append_of_clash (hclash _ (by simp)),
    find_append_self]
  simp only [Option.map_some, Option.some.injEq]
  omega

theorem length_closeTag (b : Bool) : (closeTag b).length = if b then 13 else 12 := by
  cases b <;> rfl

/-- A round at an element whose `<End>` starts before the end: the last offset is read from what
follows, and the next round starts behind the closing tag if there is one. -/
theorem scanRange_head (hgap : '<' ∉ gap) (z : List Char) {n : Nat}
    (hn : gap.length + r.head.length < n + 5) : scanRange (gap ++ (r.head ++ z)) n =
      some (⟨r.start, strtoll z, r.isClear⟩,
        match find (closeTag r.isClear) (r.inner ++ z) with
        | none => none
        | some c =>
          let k := gap.length + r.tag.length + c
          if n ≤ k then none
          else some ((gap ++ (r.head ++ z)).drop (k + (closeTag r.isClear).length),
            n - (k + (closeTag r.isClear).length))) := by
  have hinner := length_inner r
  have hhead : r.head.length = r.tag.length + r.inner.length := by
    simp only [PageListRange.head, List.length_append]
  have hpr : (gap ++ (r.head ++ z)).drop (gap.length + r.tag.length) = r.inner ++ z := by
    unfold PageListRange.head
    rw [← List.length_append, ← List.append_assoc, ← List.append_assoc, List.append_assoc]
    exact List.drop_left
  have hstart : strtoll ((r.inner ++ z).drop 7) = r.start := by
    have hdrop : (r.inner ++ z).drop 7 =
        Nat.toDigits 10 r.start ++ ("</Start>".toList ++ (endTag ++ z)) := by
      unfold PageListRange.inner
      simp only [List.append_assoc]
      show (startTag ++ _).drop startTag.length = _
      exact List.drop_left
    rw [hdrop]
    exact strtoll_offset (Nat.le_trans r.le r.fits) (Or.inl rfl)
  have hstop : (r.inner ++ z).drop (r.inner.length - 5 + 5) = z := by
    rw [Nat.sub_add_cancel (by omega), List.drop_left]
  unfold scanRange
  have hopen : openTag (gap ++ (r.head ++ z)) = some (gap.length + r.tag.length, r.isClear) := by
    unfold PageListRange.head
    rw [List.append_assoc]
    exact openTag_eq r hgap _
  rw [hopen]
  dsimp only
  rw [hpr, find_start, find_end]
  dsimp only
  rw [if_neg (by omega), if_neg (by omega), Nat.zero_add, hstart, hstop, ← length_closeTag]
  cases find (closeTag r.isClear) (r.inner ++ z) with
  | none => rfl
  | some c =>
    dsimp only
    split <;> rfl

theorem length_foot : r.foot.length = 6 + (closeTag r.isClear).length := by
  have h : "</End>".toList.length = 6 := rfl
  simp only [PageListRange.foot, List.length_append, h]

theorem length_element : r.element.length =
    r.head.length + ((Nat.toDigits 10 r.stop).length + 6 + (closeTag r.isClear).length) := by
  simp only [PageListRange.element, List.length_append, length_foot]
  omega

theorem length_head : r.head.length = r.tag.length + r.inner.length := by
  simp only [PageListRange.head, List.length_append]

/-- A round at a whole element. -/
theorem scanRange_element (hgap : '<' ∉ gap) (z : List Char) {n : Nat}
    (hn : gap.length + r.element.length ≤ n) : scanRange (gap ++ (r.element ++ z)) n =
      some (r.value, some (z, n - (gap.length + r.element.length))) := by
  have hlen := length_element r
  have hhead := length_head r
  have hinner := length_inner r
  have hclose := length_closeTag r.isClear
  have hpos : 0 < (closeTag r.isClear).length := by rw [hclose]; split <;> decide
  have hsplit : gap ++ (r.element ++ z) =
      gap ++ (r.head ++ (Nat.toDigits 10 r.stop ++ (r.foot ++ z))) := by
    simp only [PageListRange.element, List.append_assoc]
  have hdrop : (gap ++ (r.element ++ z)).drop (gap.length + r.element.length) = z := by
    rw [← List.length_append, ← List.append_assoc, List.drop_left]
  have hk : gap.length + r.tag.length + (r.inner.length + ((Nat.toDigits 10 r.stop).length + 6)) +
      (closeTag r.isClear).length = gap.length + r.element.length := by omega
  rw [hsplit, scanRange_head r hgap _ (by omega), find_close]
  dsimp only
  rw [if_neg (by omega), hk, ← hsplit, hdrop, strtoll_offset r.fits (Or.inl rfl)]
  rfl

/-- A round at an element that is cut off behind its `<End>`: its last offset is what stands
there, and it is the last round. -/
theorem scanRange_cut (hgap : '<' ∉ gap) {q y : List Char}
    (hq : q <+: Nat.toDigits 10 r.stop ++ (r.foot ++ y))
    (hlen : r.head.length + q.length < r.element.length) (z : List Char) :
    ∃ next, scanRange (gap ++ (r.head ++ (q ++ z))) (gap.length + r.head.length + q.length) =
        some (⟨r.start, strtoll (q ++ z), r.isClear⟩, next) ∧
      ∀ p n, next = some (p, n) → n = 0 := by
  have helem := length_element r
  have hhead := length_head r
  refine ⟨_, scanRange_head r hgap (q ++ z) (by omega), fun p n hnext => ?_⟩
  cases hfind : find (closeTag r.isClear) (r.inner ++ (q ++ z)) with
  | none =>
    rw [hfind] at hnext
    cases hnext
  | some c =>
    rw [hfind] at hnext
    dsimp only at hnext
    split at hnext
    · cases hnext
    obtain ⟨-, rfl⟩ := Prod.mk.inj (Option.some.inj hnext)
    by_contra hne
    -- a closing tag that ends before the end is in the part of the element that is there
    have hne' : closeTag r.isClear ≠ [] := by cases r.isClear <;> decide
    have hthere : find (closeTag r.isClear) (r.inner ++ q) = some c := by
      have htake : (r.inner ++ (q ++ z)).take (r.inner.length + q.length) = r.inner ++ q := by
        rw [← List.append_assoc, ← List.length_append, List.take_left]
      rw [← htake, find_take hne', hfind, Option.filter_some,
        if_pos (by simp only [decide_eq_true_eq]; omega)]
    have hnot : find (closeTag r.isClear) (r.inner ++ q) = none := by
      have hpre : r.inner ++ q <+: r.inner ++ (Nat.toDigits 10 r.stop ++ (r.foot ++ y)) :=
        (List.prefix_append_right_inj _).mpr hq
      rw [List.prefix_iff_eq_take.mp hpre, find_take hne', find_close, Option.filter_some, if_neg]
      simp only [List.length_append, decide_eq_true_eq]
      omega
    rw [hthere] at hnot
    cases hnot

/-- A round at an element that is cut off in its `<End>` or before, with nothing behind it. -/
theorem scanRange_short (hgap : '<' ∉ gap) (y : List Char) {m n : Nat}
    (hm : m < gap.length + r.head.length) : scanRange ((gap ++ (r.head ++ y)).take m) n = none := by
  have hhead := length_head r
  have hinner := length_inner r
  have hsplit : gap ++ (r.head ++ y) = gap ++ (r.tag ++ (r.inner ++ y)) := by
    unfold PageListRange.head
    rw [List.append_assoc]
  rw [hsplit]
  unfold scanRange
  by_cases htag : m < gap.length + r.tag.length
  · rw [find_tag_short r hgap _ htag]
  have htake : (gap ++ (r.tag ++ (r.inner ++ y))).take m =
      gap ++ (r.tag ++ ((r.inner ++ y).take (m - (gap.length + r.tag.length)))) := by
    rw [← List.append_assoc, List.take_append, List.take_of_length_le
      (by rw [List.length_append]; omega), List.length_append, List.append_assoc]
  have hend : find endTag ((r.inner ++ y).take (m - (gap.length + r.tag.length))) = none := by
    have hlen : endTag.length = 5 := rfl
    rw [find_take (by decide), find_end, Option.filter_some, if_neg]
    simp only [decide_eq_true_eq]
    omega
  have hdrop : (gap ++ (r.tag ++ ((r.inner ++ y).take (m - (gap.length + r.tag.length))))).drop
      (gap.length + r.tag.length) = (r.inner ++ y).take (m - (gap.length + r.tag.length)) := by
    rw [← List.length_append, ← List.append_assoc, List.drop_left]
  rw [htake, openTag_eq r hgap]
  dsimp only
  rw [hdrop, hend]
  split
  · rfl
  · split <;> rfl

end Round

/-! ## Texts without an element -/

/-- A text without an opening tag is not taken for an element, whatever follows it. -/
theorem scanRange_of_no_tag {u : List Char} (hpage : find pageRangeTag u = none)
    (hclear : find clearRangeTag u = none) (z : List Char) :
    scanRange (u ++ z) u.length = none := by
  -- a tag that is found ends behind the text
  have hlate : ∀ {t : List Char}, t ≠ [] → find t u = none → ∀ i, find t (u ++ z) = some i →
      u.length < i + t.length := by
    intro t ht hnone i hi
    by_contra hle
    have htake : (u ++ z).take u.length = u := List.take_left
    rw [← htake, find_take ht, hi, Option.filter_some,
      if_pos (by simp only [decide_eq_true_eq]; omega)] at hnone
    cases hnone
  have hopen : ∀ k b, openTag (u ++ z) = some (k, b) → u.length < k := by
    intro k b h
    have h₁ : pageRangeTag.length = 11 := rfl
    have h₂ : clearRangeTag.length = 12 := rfl
    unfold openTag at h
    cases hp : find pageRangeTag (u ++ z) with
    | none =>
      cases hc : find clearRangeTag (u ++ z) with
      | none => rw [hp, hc] at h; cases h
      | some j =>
        have := hlate (by decide) hclear j hc
        rw [hp, hc] at h
        cases h
        omega
    | some i =>
      have hi := hlate (by decide) hpage i hp
      cases hc : find clearRangeTag (u ++ z) with
      | none => rw [hp, hc] at h; cases h; omega
      | some j =>
        have hj := hlate (by decide) hclear j hc
        rw [hp, hc] at h
        dsimp only at h
        split at h <;> cases h <;> omega
  unfold scanRange
  cases h : openTag (u ++ z) with
  | none => rfl
  | some kb =>
    obtain ⟨k, b⟩ := kb
    have := hopen k b h
    dsimp only
    split
    · rfl
    · rw [if_pos (by omega)]

theorem scanRange_zero (p : List Char) : scanRange p 0 = none := by
  unfold scanRange
  split
  · rfl
  · dsimp only
    split
    · rfl
    · rw [if_pos (Nat.zero_le _)]

/-- The ranges the rounds store. -/
def scanRanges : Nat → List Char → Nat → List AzureDiffRange
  | 0, _, _ => []
  | fuel + 1, p, n =>
    match scanRange p n with
    | none => []
    | some (range, none) => [range]
    | some (range, some (p, n)) => range :: scanRanges fuel p n

theorem scanRanges_of_none {p : List Char} {n : Nat} (h : scanRange p n = none) (fuel : Nat) :
    scanRanges fuel p n = [] := by
  cases fuel with
  | zero => rfl
  | succ fuel => rw [scanRanges, h]

/-- A round that is the last one. -/
theorem scanRanges_last {p : List Char} {n : Nat} {range : AzureDiffRange}
    {next : Option (List Char × Nat)} (h : scanRange p n = some (range, next))
    (hnext : ∀ p n, next = some (p, n) → n = 0) (fuel : Nat) :
    scanRanges (fuel + 1) p n = [range] := by
  rw [scanRanges, h]
  cases next with
  | none => rfl
  | some pn =>
    obtain ⟨p', n'⟩ := pn
    rw [hnext p' n' rfl]
    dsimp only
    rw [scanRanges_of_none (scanRange_zero p')]

section Body

variable {lay : PageListLayout} {r : PageListRange} {L : List PageListRange} {t : List Char}

theorem body_cons : lay.body (r :: L) =
    lay.gap ++ (r.head ++ (Nat.toDigits 10 r.stop ++ (r.foot ++ lay.body L))) := by
  simp only [PageListLayout.body, List.flatMap_cons, PageListRange.element, List.append_assoc]

theorem body_cons_element : lay.body (r :: L) = lay.gap ++ (r.element ++ lay.body L) := by
  simp only [PageListLayout.body, List.flatMap_cons, List.append_assoc]

/-- How far a beginning of the text reaches into the first element. -/
theorem prefix_body_cases (ht : t <+: lay.body (r :: L)) :
    (∃ t', t = lay.gap ++ (r.element ++ t') ∧ t' <+: lay.body L) ∨
    (∃ q, t = lay.gap ++ (r.head ++ q) ∧ q <+: Nat.toDigits 10 r.stop ++ (r.foot ++ lay.body L) ∧
      r.head.length + q.length < r.element.length) ∨
    (t.length < lay.gap.length + r.head.length ∧ t = (lay.body (r :: L)).take t.length) := by
  have ht' := ht
  rw [body_cons_element, ← List.append_assoc] at ht'
  rcases prefix_append_cases ht' with ⟨t', rfl, h⟩ | ⟨-, hlt⟩
  · exact Or.inl ⟨t', by rw [List.append_assoc], h⟩
  refine Or.inr ?_
  rw [List.length_append] at hlt
  have ht'' := ht
  rw [body_cons, ← List.append_assoc] at ht''
  rcases prefix_append_cases ht'' with ⟨q, rfl, h⟩ | ⟨-, hlt'⟩
  · refine Or.inl ⟨q, by rw [List.append_assoc], h, ?_⟩
    simp only [List.length_append] at hlt
    omega
  · refine Or.inr ⟨?_, List.prefix_iff_eq_take.mp ht⟩
    rwa [List.length_append] at hlt'

theorem find_gap_end {u : List Char} (hu : u.head? = some '<')
    (hend : find u "</PageList>".toList = none) : find u (lay.body []) = none := by
  unfold PageListLayout.body
  rw [List.flatMap_nil, List.nil_append, find_append_of_not_mem hu lay.gap_mem.1, hend]
  rfl

/-- Behind the last element there is nothing. -/
theorem scanRanges_end (ht : t <+: lay.body []) (fuel : Nat) (z : List Char) :
    scanRanges fuel (t ++ z) t.length = [] := by
  have hpage : find pageRangeTag (lay.body []) = none := find_gap_end rfl (by decide)
  have hclear : find clearRangeTag (lay.body []) = none := find_gap_end rfl (by decide)
  exact scanRanges_of_none (scanRange_of_no_tag (find_prefix_none (by decide) hpage ht)
    (find_prefix_none (by decide) hclear ht) z) fuel

/-- A whole element is one round. -/
theorem scanRanges_element (t z : List Char) (fuel : Nat) :
    scanRanges (fuel + 1) (lay.gap ++ (r.element ++ t) ++ z) (lay.gap ++ (r.element ++ t)).length =
      r.value :: scanRanges fuel (t ++ z) t.length := by
  have hlen : (lay.gap ++ (r.element ++ t)).length - (lay.gap.length + r.element.length) =
      t.length := by
    simp only [List.length_append]
    omega
  have hround := scanRange_element r lay.gap_mem.1 (t ++ z)
    (n := (lay.gap ++ (r.element ++ t)).length) (by simp only [List.length_append]; omega)
  rw [hlen] at hround
  rw [List.append_assoc, List.append_assoc, scanRanges, hround]

/-- An element that is cut off behind its `<End>` is the last round. -/
theorem scanRanges_cut {q y : List Char} (hq : q <+: Nat.toDigits 10 r.stop ++ (r.foot ++ y))
    (hlen : r.head.length + q.length < r.element.length) (z : List Char) (fuel : Nat) :
    scanRanges (fuel + 1) (lay.gap ++ (r.head ++ q) ++ z) (lay.gap ++ (r.head ++ q)).length =
      [⟨r.start, strtoll (q ++ z), r.isClear⟩] := by
  obtain ⟨next, hround, hnext⟩ := scanRange_cut r lay.gap_mem.1 hq hlen z
  have hn : (lay.gap ++ (r.head ++ q)).length = lay.gap.length + r.head.length + q.length := by
    simp only [List.length_append, Nat.add_assoc]
  rw [hn, List.append_assoc, List.append_assoc]
  exact scanRanges_last hround hnext fuel

theorem lastOffset_cons (hL : L ≠ []) : lay.lastOffset (r :: L) =
    lay.gap.length + r.element.length + lay.lastOffset L := by
  obtain ⟨r', L, rfl⟩ := List.exists_cons_of_ne_nil hL
  rfl

theorem lastTag_cons (hL : L ≠ []) : lay.lastTag (r :: L) =
    lay.gap.length + r.element.length + lay.lastTag L := by
  obtain ⟨r', L, rfl⟩ := List.exists_cons_of_ne_nil hL
  rfl

/-- With the last offset and what ends it, the text gives the list, whatever follows it. -/
theorem scanRanges_complete : ∀ (L : List PageListRange) (fuel : Nat) (t : List Char),
    t <+: lay.body L → t.length < fuel → lay.lastOffset L ≤ t.length → ∀ z,
      scanRanges fuel (t ++ z) t.length = L.map PageListRange.value
  | [], fuel, t, ht, _, _, z => scanRanges_end ht fuel z
  | r :: L, 0, t, _, hfuel, _, _ => absurd hfuel (Nat.not_lt_zero _)
  | r :: L, fuel + 1, t, ht, hfuel, hlast, z => by
    have helem := length_element r
    rcases prefix_body_cases ht with ⟨t', rfl, ht'⟩ | ⟨q, rfl, hq, hlen⟩ | ⟨hshort, -⟩
    · simp only [List.length_append] at hfuel hlast
      rw [scanRanges_element, scanRanges_complete L fuel t' ht' (by omega) ?_ z]
      · rfl
      · by_cases hL : L = []
        · rw [hL]
          exact Nat.zero_le _
        · rw [lastOffset_cons hL] at hlast
          omega
    · -- an element that is cut off is the last one
      by_cases hL : L = []
      · subst hL
        simp only [List.length_append, PageListLayout.lastOffset] at hlast
        rw [scanRanges_cut hq hlen]
        have hval : strtoll (q ++ z) = r.stop := by
          rcases prefix_append_cases hq with ⟨q', rfl, hq'⟩ | ⟨-, hlt⟩
          · rw [List.append_assoc]
            apply strtoll_offset r.fits
            by_cases hmax : r.stop = int64Max
            · exact Or.inr hmax
            · rw [if_neg hmax] at hlast
              simp only [List.length_append] at hlast
              obtain ⟨c, q', rfl⟩ := List.exists_cons_of_ne_nil (l := q') (by
                rintro rfl
                simp only [List.length_nil] at hlast
                omega)
              rw [PageListRange.foot, List.append_assoc] at hq'
              exact Or.inl (congrArg some (List.cons_prefix_cons.mp hq').1)
          · omega
        rw [hval]
        rfl
      · rw [lastOffset_cons hL] at hlast
        simp only [List.length_append] at hlast
        omega
    · by_cases hL : L = []
      · subst hL
        simp only [PageListLayout.lastOffset] at hlast
        omega
      · rw [lastOffset_cons hL] at hlast
        omega

/-- A shorter text can give another list, which is not longer. -/
theorem exists_scanRanges_ne : ∀ (L : List PageListRange) (fuel : Nat) (t : List Char),
    t <+: lay.body L → t.length < fuel → t.length < lay.lastOffset L →
      ∃ z, cstr z = z ∧ scanRanges fuel (t ++ z) t.length ≠ L.map PageListRange.value ∧
        (scanRanges fuel (t ++ z) t.length).length ≤ L.length
  | [], _, t, _, _, hlast => absurd hlast (Nat.not_lt_zero _)
  | r :: L, 0, t, _, hfuel, _ => absurd hfuel (Nat.not_lt_zero _)
  | r :: L, fuel + 1, t, ht, hfuel, hlast => by
    have helem := length_element r
    rcases prefix_body_cases ht with ⟨t', rfl, ht'⟩ | ⟨q, rfl, hq, hlen⟩ | ⟨hshort, htake⟩
    · simp only [List.length_append] at hfuel hlast
      have hlast' : t'.length < lay.lastOffset L := by
        by_cases hL : L = []
        · subst hL
          have hclose := length_closeTag r.isClear
          simp only [PageListLayout.lastOffset] at hlast
          split at hlast <;> omega
        · rw [lastOffset_cons hL] at hlast
          omega
      obtain ⟨z, hz, hne, hle⟩ := exists_scanRanges_ne L fuel t' ht' (by omega) hlast'
      refine ⟨z, hz, ?_⟩
      rw [scanRanges_element]
      exact ⟨fun heq => hne (List.cons.inj heq).2, Nat.succ_le_succ hle⟩
    · by_cases hL : L = []
      · subst hL
        have hqtake : ∃ k, q = (Nat.toDigits 10 r.stop).take k ∧
            (k < (Nat.toDigits 10 r.stop).length ∨ r.stop ≠ int64Max) := by
          simp only [List.length_append, PageListLayout.lastOffset] at hlast
          refine ⟨q.length, ?_, ?_⟩
          · refine List.prefix_iff_eq_take.mp (List.prefix_of_prefix_length_le hq
              (List.prefix_append _ _) ?_)
            split at hlast <;> omega
          · by_cases hmax : r.stop = int64Max
            · rw [if_pos hmax] at hlast
              exact Or.inl (by omega)
            · exact Or.inr hmax
        obtain ⟨k, rfl, hk⟩ := hqtake
        obtain ⟨z, hz, hne⟩ := exists_strtoll_ne r.fits hk
        refine ⟨z, hz, ?_⟩
        rw [scanRanges_cut hq hlen]
        exact ⟨fun heq => hne (congrArg AzureDiffRange.stop (List.cons.inj heq).1), Nat.le_refl 1⟩
      · refine ⟨[], rfl, ?_⟩
        rw [scanRanges_cut hq hlen]
        exact ⟨fun heq => hL (List.map_eq_nil_iff.mp (List.cons.inj heq).2.symm),
          Nat.succ_le_succ (Nat.zero_le _)⟩
    · refine ⟨[], rfl, ?_⟩
      rw [List.append_nil, htake, body_cons,
        scanRanges_of_none (scanRange_short r lay.gap_mem.1 _ hshort)]
      exact ⟨fun heq => (nomatch heq), Nat.zero_le _⟩

/-- Every `<End>` in the text is a range that is stored, whatever follows the text. -/
theorem lt_length_scanRanges : ∀ (L : List PageListRange) (N fuel : Nat) (t : List Char),
    t <+: lay.body L → t.length < fuel → N < L.length → lay.lastTag (L.take (N + 1)) ≤ t.length →
      ∀ z, N < (scanRanges fuel (t ++ z) t.length).length
  | [], _, _, _, _, _, hN, _, _ => absurd hN (Nat.not_lt_zero _)
  | r :: L, _, 0, t, _, hfuel, _, _, _ => absurd hfuel (Nat.not_lt_zero _)
  | r :: L, N, fuel + 1, t, ht, hfuel, hN, htag, z => by
    have helem := length_element r
    have hnext : 0 < N → lay.lastTag ((r :: L).take (N + 1)) =
        lay.gap.length + r.element.length + lay.lastTag (L.take N) := by
      intro hpos
      rw [List.take_succ_cons]
      refine lastTag_cons fun hnil => ?_
      have := congrArg List.length hnil
      rw [List.length_take, List.length_nil] at this
      rw [List.length_cons] at hN
      omega
    have hfirst : N = 0 → lay.lastTag ((r :: L).take (N + 1)) = lay.gap.length + r.head.length := by
      rintro rfl
      rfl
    rcases prefix_body_cases ht with ⟨t', rfl, ht'⟩ | ⟨q, rfl, hq, hlen⟩ | ⟨hshort, -⟩
    · rw [scanRanges_element, List.length_cons]
      cases N with
      | zero => exact Nat.succ_pos _
      | succ N =>
        rw [hnext (Nat.succ_pos N)] at htag
        simp only [List.length_append] at hfuel htag
        rw [List.length_cons] at hN
        exact Nat.succ_lt_succ
          (lt_length_scanRanges L N fuel t' ht' (by omega) (by omega) (by omega) z)
    · rw [scanRanges_cut hq hlen, List.length_singleton]
      by_contra hge
      rw [hnext (by omega)] at htag
      simp only [List.length_append] at htag
      omega
    · rcases Nat.eq_zero_or_pos N with h0 | hpos
      · rw [hfirst h0] at htag
        omega
      · rw [hnext hpos] at htag
        omega

/-- With nothing behind the text, no more than these are stored. -/
theorem length_scanRanges_le : ∀ (L : List PageListRange) (N fuel : Nat) (t : List Char),
    t <+: lay.body L → t.length < fuel → N < L.length → t.length < lay.lastTag (L.take (N + 1)) →
      (scanRanges fuel t t.length).length ≤ N
  | [], _, _, _, _, _, hN, _ => absurd hN (Nat.not_lt_zero _)
  | r :: L, _, 0, t, _, hfuel, _, _ => absurd hfuel (Nat.not_lt_zero _)
  | r :: L, N, fuel + 1, t, ht, hfuel, hN, htag => by
    have helem := length_element r
    rcases prefix_body_cases ht with ⟨t', rfl, ht'⟩ | ⟨q, rfl, hq, hlen⟩ | ⟨hshort, htake⟩
    · have hround : scanRanges (fuel + 1) (lay.gap ++ (r.element ++ t') ++ []) _ = _ :=
        scanRanges_element t' [] fuel
      rw [List.append_nil, List.append_nil] at hround
      rw [hround, List.length_cons]
      simp only [List.length_append] at hfuel htag
      cases N with
      | zero =>
        have htag : _ < lay.gap.length + r.head.length := htag
        omega
      | succ N =>
        rw [List.length_cons] at hN
        rw [List.take_succ_cons, lastTag_cons (by
          intro hnil
          have := congrArg List.length hnil
          rw [List.length_take, List.length_nil] at this
          omega)] at htag
        exact Nat.succ_le_succ
          (length_scanRanges_le L N fuel t' ht' (by omega) (by omega) (by omega))
    · have hround : scanRanges (fuel + 1) (lay.gap ++ (r.head ++ q) ++ []) _ = _ :=
        scanRanges_cut hq hlen [] fuel
      rw [List.append_nil] at hround
      rw [hround, List.length_singleton]
      cases N with
      | zero =>
        have htag : _ < lay.gap.length + r.head.length := htag
        simp only [List.length_append] at htag
        omega
      | succ N => exact Nat.succ_le_succ (Nat.zero_le N)
    · rw [htake, body_cons, scanRanges_of_none (scanRange_short r lay.gap_mem.1 _ hshort)]
      exact Nat.zero_le _

end Body

/-! ## The header -/

section Header

variable {lay : PageListLayout}

theorem find_header {u : List Char} (hu : u.head? = some '<') (h₁ : clash u "<?xml".toList = true)
    (h₂ : clash u "?><PageList>".toList = true) (x : List Char) :
    find u (lay.header ++ x) = (find u x).map (lay.header.length + ·) := by
  have hlen : lay.header.length = 5 + (lay.decl.length + 12) := by
    simp only [PageListLayout.header, List.length_append]
    rfl
  have h₃ : "<?xml".toList.length = 5 := rfl
  have h₄ : "?><PageList>".toList.length = 12 := rfl
  rw [hlen]
  unfold PageListLayout.header
  rw [List.append_assoc, List.append_assoc, find_append_of_clash h₁,
    find_append_of_not_mem hu lay.decl_mem.1, find_append_of_clash h₂]
  cases find u x with
  | none => rfl
  | some i =>
    simp only [Option.map_some, Option.some.injEq]
    omega

/-- The header has no element. -/
theorem scanRange_header (x : List Char) (n : Nat) :
    scanRange (lay.header ++ x) (lay.header.length + n) = scanRange x n := by
  have hopen : openTag (lay.header ++ x) = (openTag x).map fun kb =>
      (lay.header.length + kb.1, kb.2) := by
    unfold openTag
    rw [find_header rfl (by decide) (by decide), find_header rfl (by decide) (by decide)]
    cases find pageRangeTag x with
    | none =>
      cases find clearRangeTag x with
      | none => rfl
      | some j => simp only [Option.map_some, Option.map_none, Nat.add_assoc]
    | some i =>
      cases find clearRangeTag x with
      | none => simp only [Option.map_some, Option.map_none, Nat.add_assoc]
      | some j =>
        simp only [Option.map_some]
        by_cases hij : i < j
        · rw [if_pos hij, if_pos (by omega)]
          simp only [Option.map_some, Nat.add_assoc]
        · rw [if_neg hij, if_neg (by omega)]
          simp only [Option.map_some, Nat.add_assoc]
  have hdrop : ∀ k, (lay.header ++ x).drop (lay.header.length + k) = x.drop k := fun k => by
    rw [List.drop_append, List.drop_of_length_le (by omega), List.nil_append,
      Nat.add_sub_cancel_left]
  unfold scanRange
  rw [hopen]
  cases openTag x with
  | none => rfl
  | some kb =>
    obtain ⟨k, b⟩ := kb
    simp only [Option.map_some, hdrop, Nat.add_assoc, Nat.add_sub_add_left, Nat.add_le_add_iff_left]

theorem scanRanges_header (x : List Char) (n fuel : Nat) :
    scanRanges fuel (lay.header ++ x) (lay.header.length + n) = scanRanges fuel x n := by
  cases fuel with
  | zero => rfl
  | succ fuel => rw [scanRanges, scanRanges, scanRange_header]

/-- A text that ends in the header gives no range. -/
theorem scanRanges_in_header {t : List Char} (ht : t <+: lay.header) (fuel : Nat) (z : List Char) :
    scanRanges fuel (t ++ z) t.length = [] := by
  have hnone : ∀ {u : List Char}, u.head? = some '<' → clash u "<?xml".toList = true →
      clash u "?><PageList>".toList = true → find u [] = none → find u t = none := by
    intro u hu h₁ h₂ hnil
    have hfind : find u (lay.header ++ []) = _ := find_header hu h₁ h₂ []
    rw [hnil, List.append_nil] at hfind
    exact find_prefix_none (by rintro rfl; cases hu) hfind ht
  exact scanRanges_of_none (scanRange_of_no_tag (hnone rfl (by decide) (by decide) rfl)
    (hnone rfl (by decide) (by decide) rfl) z) fuel

end Header

/-! ## The array of ranges -/

/-- Memory is granted. -/
def Granted (r : Req) (x : Ans r) : Prop :=
  match r, x with
  | .sys (.malloc _), x => x.ok = true
  | _, _ => True

/-- The array is 64 ranges long, or was doubled some times. -/
def IsCapacity (capacity : Int) : Prop := ∃ k, k ≤ 24 ∧ capacity = ((2 ^ (k + 6) : Nat) : Int)

/-- What growing the array gives, whatever the answers are: room for one more range, and none at
the last capacity. -/
def ArrayGrown (count : Nat) (r : Option Int) : Prop :=
  (∀ capacity, r = some capacity → IsCapacity capacity ∧ (count : Int) < capacity) ∧
  (2 ^ 30 ≤ count → r = none)

theorem IsCapacity.le {capacity : Int} (h : IsCapacity capacity) : capacity ≤ 2 ^ 30 := by
  obtain ⟨k, hk, rfl⟩ := h
  have : 2 ^ (k + 6) ≤ 2 ^ 30 := Nat.pow_le_pow_right (by decide) (by omega)
  exact_mod_cast this

theorem sizeT_of_lt {n : Nat} (h : n < 2 ^ 64) : sizeT n = n := by
  unfold sizeT
  rw [Int.emod_eq_of_lt (Int.natCast_nonneg n) (by exact_mod_cast h), Int.toNat_natCast]

/-- Doubling a capacity. -/
theorem growRanges_cases {count : Nat} {capacity : Int} (hcap : IsCapacity capacity)
    (hcount : (count : Int) ≤ capacity) :
    (∃ c, growRanges count capacity = .ret (some c) ∧ IsCapacity c ∧ (count : Int) < c) ∨
    (∃ c n, growRanges count capacity = (sys (.malloc n) >>= fun tmp =>
      if !tmp.ok then return none else return some c) ∧ IsCapacity c ∧ (count : Int) < c) ∨
    (growRanges count capacity = .ret none ∧ 2 ^ 30 ≤ count) := by
  unfold growRanges
  by_cases hlt : (count : Int) < capacity
  · rw [if_pos hlt]
    exact Or.inl ⟨capacity, rfl, hcap, hlt⟩
  rw [if_neg hlt]
  obtain ⟨k, hk, rfl⟩ := hcap
  have hcount : count = 2 ^ (k + 6) := by omega
  rcases Nat.lt_or_ge k 24 with hk' | hk'
  · have hpow : 2 ^ (k + 6) ≤ 2 ^ 29 := Nat.pow_le_pow_right (by decide) (by omega)
    have hpos : 0 < 2 ^ (k + 6) := Nat.pow_pos (by decide)
    have hnext : 2 ^ (k + 1 + 6) = 2 * 2 ^ (k + 6) := by
      rw [show k + 1 + 6 = k + 6 + 1 by omega, Nat.pow_succ, Nat.mul_comm]
    generalize hc : 2 ^ (k + 6) = c at *
    have hdouble : cInt ((c : Int) * 2) = ((2 * c : Nat) : Int) := by
      rw [show (c : Int) * 2 = ((2 * c : Nat) : Int) by push_cast; omega, cInt_of_lt (by omega)]
    have hsize : sizeT ((sizeT ((2 * c : Nat) : Int) : Nat) * 24) = 2 * c * 24 := by
      have h : ((2 * c : Nat) : Int) * 24 = ((2 * c * 24 : Nat) : Int) :=
        (Int.natCast_mul _ 24).symm
      rw [sizeT_of_lt (by omega), h, sizeT_of_lt (by omega)]
    dsimp only
    rw [hdouble, hsize, if_neg (by omega)]
    exact Or.inr (Or.inl ⟨_, _, rfl, ⟨k + 1, by omega, by rw [hnext]⟩, by omega⟩)
  · obtain rfl : k = 24 := by omega
    -- the `int` wraps to a negative number, and nothing is that large as a `size_t`
    have hsize : 2 ^ 63 ≤ sizeT ((sizeT (cInt (((2 ^ (24 + 6) : Nat) : Int) * 2)) : Nat) * 24) := by
      decide +kernel
    dsimp only
    rw [if_pos hsize]
    exact Or.inr (Or.inr ⟨rfl, by omega⟩)

theorem returns_growRanges {count : Nat} {capacity : Int} (hcap : IsCapacity capacity)
    (hcount : (count : Int) ≤ capacity) :
    Returns (fun _ _ => True) (ArrayGrown count) (growRanges count capacity) := by
  have hsome : ∀ {c : Int}, IsCapacity c → (count : Int) < c → ArrayGrown count (some c) := by
    intro c hc hlt
    refine ⟨fun c' h => by cases h; exact ⟨hc, hlt⟩, fun h => ?_⟩
    have := hc.le
    omega
  have hnone : ArrayGrown count none := ⟨fun _ h => (nomatch h), fun _ => rfl⟩
  rcases growRanges_cases hcap hcount with ⟨c, heq, hc, hlt⟩ | ⟨c, n, heq, hc, hlt⟩ | ⟨heq, -⟩
  · rw [heq]
    exact hsome hc hlt
  · rw [heq]
    intro x _
    exact Returns.ite hnone (hsome hc hlt)
  · rw [heq]
    exact hnone

theorem granted_growRanges {count : Nat} {capacity : Int} (hcap : IsCapacity capacity)
    (hcount : (count : Int) ≤ capacity) (hlt : count < 2 ^ 30) :
    Returns Granted (fun r => ∃ c, r = some c ∧ IsCapacity c ∧ (count : Int) < c)
      (growRanges count capacity) := by
  rcases growRanges_cases hcap hcount with ⟨c, heq, hc, hlt⟩ | ⟨c, n, heq, hc, hlt⟩ | ⟨-, hge⟩
  · rw [heq]
    exact ⟨c, rfl, hc, hlt⟩
  · rw [heq]
    intro x hx
    have hok : x.ok = true := hx
    show Returns Granted _ (if (!x.ok) = true then .ret none else .ret (some c))
    rw [hok]
    exact ⟨c, rfl, hc, hlt⟩
  · omega

/-- Whatever the answers are, the loop gives the ranges of its rounds or none at all, and none if
they are more than the array can have. -/
theorem returns_parseRanges : ∀ (fuel : Nat) (p : List Char) (n : Nat) (capacity : Int)
    (ranges : List AzureDiffRange), IsCapacity capacity → (ranges.length : Int) ≤ capacity →
    Returns (fun _ _ => True) (fun r => (∀ M, r = some M → M = ranges ++ scanRanges fuel p n ∧
      M.length ≤ 2 ^ 30)) (parseRanges fuel p n capacity ranges)
  | 0, p, n, capacity, ranges, hcap, hlen => by
    rintro M ⟨⟩
    have := hcap.le
    exact ⟨(List.append_nil _).symm, by omega⟩
  | fuel + 1, p, n, capacity, ranges, hcap, hlen => by
    have hstop : scanRanges (fuel + 1) p n = [] →
      Returns (fun _ _ => True) (fun r => ∀ M, r = some M →
        M = ranges ++ scanRanges (fuel + 1) p n ∧ M.length ≤ 2 ^ 30)
        (.ret (some ranges) : Prog (Option (List AzureDiffRange))) := by
      rintro hnil M ⟨⟩
      have := hcap.le
      exact ⟨by rw [hnil, List.append_nil], by omega⟩
    unfold parseRanges
    by_cases hn : n = 0
    · rw [if_pos hn]
      refine hstop ?_
      rw [hn]
      exact scanRanges_of_none (scanRange_zero p) _
    rw [if_neg hn]
    cases hround : scanRange p n with
    | none => exact hstop (scanRanges_of_none hround _)
    | some rn =>
      obtain ⟨range, next⟩ := rn
      refine (returns_growRanges hcap hlen).bind fun grown hgrown => ?_
      cases grown with
      | none => exact fun M hM => (nomatch hM)
      | some c =>
        obtain ⟨hc, hlt⟩ := hgrown.1 c rfl
        have hlen' : ((ranges ++ [range]).length : Int) ≤ c := by
          rw [List.length_append, List.length_singleton]
          omega
        cases next with
        | none =>
          rintro M ⟨⟩
          have := hc.le
          refine ⟨?_, by omega⟩
          rw [scanRanges, hround]
        | some pn =>
          obtain ⟨p', n'⟩ := pn
          refine (returns_parseRanges fuel p' n' c (ranges ++ [range]) hc hlen').mono
            fun r hr M hM => ?_
          obtain ⟨heq, hle⟩ := hr M hM
          refine ⟨?_, hle⟩
          rw [heq, scanRanges, hround, List.append_assoc]
          rfl

/-- With memory, the loop gives the ranges of its rounds if the array can have them. -/
theorem granted_parseRanges : ∀ (fuel : Nat) (p : List Char) (n : Nat) (capacity : Int)
    (ranges : List AzureDiffRange), IsCapacity capacity → (ranges.length : Int) ≤ capacity →
    ranges.length + (scanRanges fuel p n).length ≤ 2 ^ 30 →
    Returns Granted (fun r => r = some (ranges ++ scanRanges fuel p n))
      (parseRanges fuel p n capacity ranges)
  | 0, p, n, capacity, ranges, _, _, _ => congrArg some (List.append_nil _).symm
  | fuel + 1, p, n, capacity, ranges, hcap, hlen, hfew => by
    unfold parseRanges
    by_cases hn : n = 0
    · rw [if_pos hn, hn, scanRanges_of_none (scanRange_zero p)]
      exact congrArg some (List.append_nil _).symm
    rw [if_neg hn]
    cases hround : scanRange p n with
    | none =>
      rw [scanRanges_of_none hround]
      exact congrArg some (List.append_nil _).symm
    | some rn =>
      obtain ⟨range, next⟩ := rn
      rw [scanRanges, hround] at hfew
      rw [scanRanges, hround]
      have hlt : ranges.length < 2 ^ 30 := by
        cases next with
        | none =>
          rw [List.length_singleton] at hfew
          omega
        | some pn =>
          rw [List.length_cons] at hfew
          omega
      refine (granted_growRanges hcap hlen hlt).bind ?_
      rintro _ ⟨c, rfl, hc, hroom⟩
      cases next with
      | none => exact rfl
      | some pn =>
        obtain ⟨p', n'⟩ := pn
        rw [List.length_cons] at hfew
        have h := granted_parseRanges fuel p' n' c (ranges ++ [range]) hc
          (by rw [List.length_append, List.length_singleton]; omega)
          (by rw [List.length_append, List.length_singleton]; omega)
        rw [List.append_assoc] at h
        exact h

/-! ## The whole text and its beginnings -/

section Main

variable {lay : PageListLayout} {L : List PageListRange} {t : List Char}

theorem nul_notMem_render : '\x00' ∉ lay.render L := by
  have hdigits : ∀ n, '\x00' ∉ Nat.toDigits 10 n := fun n h =>
    absurd (isDigit_of_mem _ h) (by decide)
  have helem : ∀ r : PageListRange, '\x00' ∉ r.element := by
    intro r
    unfold PageListRange.element PageListRange.head PageListRange.tag PageListRange.inner
      PageListRange.foot closeTag
    simp only [List.mem_append, not_or]
    refine ⟨⟨?_, ?_, hdigits _, ?_, ?_⟩, hdigits _, ?_, ?_⟩
    all_goals first | decide | (split <;> decide)
  unfold PageListLayout.render PageListLayout.header PageListLayout.body
  simp only [List.mem_append, List.mem_flatMap, not_or, not_exists, not_and]
  exact ⟨⟨by decide, lay.decl_mem.2, by decide⟩, fun r _ => ⟨lay.gap_mem.2, helem r⟩,
    lay.gap_mem.2, by decide⟩

theorem cstr_append (ht : t <+: lay.render L) (z : List Char) : cstr (t ++ z) = t ++ cstr z := by
  refine List.takeWhile_append_of_pos fun c hc => ?_
  rw [bne_iff_ne]
  rintro rfl
  exact nul_notMem_render (ht.subset hc)

/-- The beginning of the text is in the header, or is the header and a beginning of the rest. -/
theorem prefix_render_cases (ht : t <+: lay.render L) :
    (∃ t', t = lay.header ++ t' ∧ t' <+: lay.body L) ∨
    (t <+: lay.header ∧ t.length < lay.header.length) :=
  prefix_append_cases ht

/-- The parser under any answers. -/
theorem returns_parse (ht : t <+: lay.render L) (z : List Char) :
    Returns (fun _ _ => True)
      (fun r => ∀ M, r = some M → M = scanRanges (t.length + 1) (t ++ cstr z) t.length ∧
        M.length ≤ 2 ^ 30)
      (parsePageRangesXml (t ++ z) t.length) := by
  unfold parsePageRangesXml
  rw [cstr_append ht]
  intro x _
  refine Returns.ite (fun M hM => (nomatch hM)) ?_
  have h := returns_parseRanges (t.length + 1) (t ++ cstr z) t.length 64 []
    ⟨0, by decide, rfl⟩ (by decide)
  rw [List.nil_append] at h
  exact h

/-- The parser with memory. -/
theorem granted_parse (ht : t <+: lay.render L) (z : List Char)
    (hfew : (scanRanges (t.length + 1) (t ++ cstr z) t.length).length ≤ 2 ^ 30) :
    Returns Granted (fun r => r = some (scanRanges (t.length + 1) (t ++ cstr z) t.length))
      (parsePageRangesXml (t ++ z) t.length) := by
  unfold parsePageRangesXml
  rw [cstr_append ht]
  intro x hx
  have hok : x.ok = true := hx
  show Returns Granted _ (if (!x.ok) = true then .ret none else _)
  rw [hok]
  exact granted_parseRanges _ _ _ 64 [] ⟨0, by decide, rfl⟩ (by decide) (by simpa using hfew)

theorem exists_granted : ∀ r, ∃ x, Granted r x
  | .azure _ => ⟨{ err := .ok }, trivial⟩
  | .sys r => ⟨{ ok := true }, by cases r <;> first | rfl | trivial⟩

/-- What the parser may accept, if its rounds store few enough ranges. -/
theorem accepted_eq (ht : t <+: lay.render L) {z : List Char} (hz : cstr z = z)
    (hfew : (scanRanges (t.length + 1) (t ++ z) t.length).length ≤ 2 ^ 30) {M : List AzureDiffRange}
    (h : Returns (fun _ _ => True) (fun r => ∀ N, r = some N → N = M)
      (parsePageRangesXml (t ++ z) t.length)) :
    scanRanges (t.length + 1) (t ++ z) t.length = M := by
  have hgranted := granted_parse ht z (by rw [hz]; exact hfew)
  rw [hz] at hgranted
  obtain ⟨r, rfl, hr⟩ := (hgranted.and (h.weaken fun _ _ _ => trivial)).exists exists_granted
  exact hr _ rfl

/-- The whole text gives the list if there is memory, and whatever is accepted is the list. What
follows the text in memory does not matter. -/
def ParsesCompletely (lay : PageListLayout) (L : List PageListRange) (t : List Char) : Prop :=
  ∀ after : List Char,
    (t = lay.render L → Returns Granted (fun r => r = some (L.map PageListRange.value))
      (parsePageRangesXml (t ++ after) t.length)) ∧
    Returns (fun _ _ => True) (fun r => ∀ M, r = some M → M = L.map PageListRange.value)
      (parsePageRangesXml (t ++ after) t.length)

/-- The text has the last offset of the list and what ends it. Of a list that is too long for the
array, it is a part with more `<End>` tags than the array has room for. -/
def HasLastOffset (lay : PageListLayout) (L : List PageListRange) (t : List Char) : Prop :=
  if L.length ≤ 2 ^ 30 then L = [] ∨ lay.header.length + lay.lastOffset L ≤ t.length
  else t ≠ lay.render L ∧ lay.header.length + lay.lastTag (L.take (2 ^ 30 + 1)) ≤ t.length

theorem scan_complete (ht : t <+: lay.render L)
    (h : L = [] ∨ lay.header.length + lay.lastOffset L ≤ t.length) (z : List Char) :
    scanRanges (t.length + 1) (t ++ z) t.length = L.map PageListRange.value := by
  rcases prefix_render_cases ht with ⟨t', rfl, ht'⟩ | ⟨hhead, hlt⟩
  · rw [List.append_assoc, List.length_append, scanRanges_header]
    refine scanRanges_complete L _ t' ht' (by omega) ?_ z
    rcases h with rfl | h
    · exact Nat.zero_le _
    · rw [List.length_append] at h
      omega
  · rcases h with rfl | h
    · exact scanRanges_in_header hhead _ z
    · omega

theorem exists_scan_ne (ht : t <+: lay.render L)
    (h : ¬ (L = [] ∨ lay.header.length + lay.lastOffset L ≤ t.length)) :
    ∃ z, cstr z = z ∧ scanRanges (t.length + 1) (t ++ z) t.length ≠ L.map PageListRange.value ∧
      (scanRanges (t.length + 1) (t ++ z) t.length).length ≤ L.length := by
  obtain ⟨hne, hlt⟩ := not_or.mp h
  rcases prefix_render_cases ht with ⟨t', rfl, ht'⟩ | ⟨hhead, -⟩
  · rw [List.length_append] at hlt ⊢
    obtain ⟨z, hz⟩ := exists_scanRanges_ne L (lay.header.length + t'.length + 1) t' ht' (by omega)
      (by omega)
    exact ⟨z, by rw [List.append_assoc, scanRanges_header]; exact hz⟩
  · refine ⟨[], rfl, ?_⟩
    rw [scanRanges_in_header hhead]
    exact ⟨fun heq => hne (List.map_eq_nil_iff.mp heq.symm), Nat.zero_le _⟩

/-- A full response is read completely, and a response that is cut off is read completely if and
only if the last offset and what ends it are there. -/
theorem parse_page_ranges_iff (lay : PageListLayout) (L : List PageListRange) (t : List Char)
    (ht : t <+: lay.render L) : ParsesCompletely lay L t ↔ HasLastOffset lay L t := by
  unfold HasLastOffset
  by_cases hL : L.length ≤ 2 ^ 30
  · rw [if_pos hL]
    constructor
    · intro h
      by_contra hno
      obtain ⟨z, hz, hne, hle⟩ := exists_scan_ne ht hno
      exact hne (accepted_eq ht hz (Nat.le_trans hle hL) (h z).2)
    · intro h after
      have hscan := scan_complete ht h (cstr after)
      constructor
      · intro _
        rw [← hscan]
        refine granted_parse ht after ?_
        rw [hscan, List.length_map]
        exact hL
      · rw [← hscan]
        exact (returns_parse ht after).mono fun r hr M hM => (hr M hM).1
  · rw [if_neg hL]
    constructor
    · intro h
      refine ⟨fun hfull => ?_, ?_⟩
      · -- the array cannot have so many ranges
        obtain ⟨r, hr, hshort⟩ := (((h []).1 hfull).and
          ((returns_parse ht []).weaken fun _ _ _ => trivial)).exists exists_granted
        have hlen := (hshort _ hr).2
        rw [List.length_map] at hlen
        exact hL hlen
      · by_contra hno
        have hfew : (scanRanges (t.length + 1) (t ++ []) t.length).length ≤ 2 ^ 30 := by
          rw [List.append_nil]
          rcases prefix_render_cases ht with ⟨t', rfl, ht'⟩ | ⟨hhead, -⟩
          · rw [List.length_append] at hno ⊢
            rw [scanRanges_header]
            exact length_scanRanges_le L _ _ t' ht' (by omega) (by omega) (by omega)
          · have hnil := scanRanges_in_header hhead (t.length + 1) []
            rw [List.append_nil] at hnil
            rw [hnil]
            exact Nat.zero_le _
        have heq := accepted_eq ht rfl hfew (h []).2
        rw [heq, List.length_map] at hfew
        exact hL hfew
    · rintro ⟨hpart, htag⟩ after
      refine ⟨fun hfull => absurd hfull hpart, (returns_parse ht after).mono fun r hr M hM => ?_⟩
      obtain ⟨rfl, hle⟩ := hr M hM
      rcases prefix_render_cases ht with ⟨t', rfl, ht'⟩ | ⟨-, hlt⟩
      · rw [List.append_assoc, List.length_append, scanRanges_header] at hle
        rw [List.length_append] at htag
        have hmany := lt_length_scanRanges L (2 ^ 30) (lay.header.length + t'.length + 1) t' ht'
          (by omega) (by omega) (by omega) (cstr after)
        omega
      · omega

/-- A declaration as the service writes it, and nothing between the elements. -/
def utf8Layout : PageListLayout where
  decl := " version=\"1.0\" encoding=\"utf-8\"".toList
  gap := []
  decl_mem := by decide
  gap_mem := by decide

/-- The first sector was written. -/
def firstSector : PageListRange where
  start := 0
  stop := 511
  isClear := false
  le := by decide
  fits := by decide

/-- The third sector was cleared. -/
def thirdSector : PageListRange where
  start := 1024
  stop := 1535
  isClear := true
  le := by decide
  fits := by decide

/-- The response for the two sectors is read completely, also when everything after its last offset
but one character is cut off. -/
theorem parse_page_ranges_two_sectors : ∃ t, t <+: utf8Layout.render [firstSector, thirdSector] ∧
    t.length = 142 ∧ (utf8Layout.render [firstSector, thirdSector]).length = 171 ∧
    ParsesCompletely utf8Layout [firstSector, thirdSector] t ∧
    ParsesCompletely utf8Layout [firstSector, thirdSector]
      (utf8Layout.render [firstSector, thirdSector]) := by
  have hfull : (utf8Layout.render [firstSector, thirdSector]).length = 171 := by decide +kernel
  have hlast : utf8Layout.header.length + utf8Layout.lastOffset [firstSector, thirdSector] = 142 :=
    by decide +kernel
  have hcut : ((utf8Layout.render [firstSector, thirdSector]).take 142).length = 142 := by
    rw [List.length_take, hfull]
    rfl
  refine ⟨_, List.take_prefix 142 _, hcut, hfull, ?_, ?_⟩
  · apply (parse_page_ranges_iff _ _ _ (List.take_prefix _ _)).mpr
    unfold HasLastOffset
    rw [if_pos (by decide)]
    exact Or.inr (hlast.trans hcut.symm).le
  · apply (parse_page_ranges_iff _ _ _ List.prefix_rfl).mpr
    unfold HasLastOffset
    rw [if_pos (by decide)]
    apply Or.inr
    rw [hlast, hfull]
    decide

/-- The response for the first sector, cut off in its last offset, is accepted with another
range. -/
theorem parse_page_ranges_cut_offset : ∃ t, t <+: utf8Layout.render [firstSector] ∧
    t.length = 82 ∧
    Returns Granted (fun r => r = some [⟨0, 51, false⟩]) (parsePageRangesXml t t.length) ∧
    ¬ ParsesCompletely utf8Layout [firstSector] t := by
  have ht : (utf8Layout.render [firstSector]).take 82 <+: utf8Layout.render [firstSector] :=
    List.take_prefix _ _
  have hlen : ((utf8Layout.render [firstSector]).take 82).length = 82 := by decide +kernel
  have hscan : scanRanges 83 ((utf8Layout.render [firstSector]).take 82) 82 = [⟨0, 51, false⟩] := by
    decide +kernel
  generalize (utf8Layout.render [firstSector]).take 82 = t at ht hlen hscan
  have hscan : scanRanges (t.length + 1) (t ++ []) t.length = [⟨0, 51, false⟩] := by
    rw [List.append_nil, hlen]
    exact hscan
  refine ⟨t, ht, hlen, ?_, fun h => ?_⟩
  · have hgranted := granted_parse ht [] (by rw [show cstr [] = [] from rfl, hscan]; decide)
    rw [show cstr [] = [] from rfl, hscan, List.append_nil] at hgranted
    exact hgranted
  · have heq := accepted_eq ht rfl (by rw [hscan]; decide) (h []).2
    rw [hscan] at heq
    exact absurd heq (by decide)

end Main

end SqliteObjs
