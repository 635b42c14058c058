import SqliteObjs.Metrics.Text

/-!
# Reading printed counters back

The parser stores every number it reads, so of the lines for one counter the last one
counts. A text of printed counters gives the counters back, and goes on doing so with
further lines between the printed ones exactly when each inserted line is harmless: its
value is a number even though its key is unknown, and if its key is a counter's but for
white space, a later line or its own number makes up for it.
-/

set_option autoImplicit false

namespace SqliteObjs.Metrics

open Text

/-! ## Counters by their keys -/

/-- The counter that a key names. -/
def counter (m : VfsMetrics) (key : String) : Option Int64 := (formatArgs m)[formatKeys.idxOf key]?

theorem length_formatArgs (m : VfsMetrics) : (formatArgs m).length = formatKeys.length := rfl

theorem formatKeys_nodup : formatKeys.Nodup := by
  decide

/-- The arms of the parser store in the slot that the format string has for the key. -/
theorem formatArgs_setCounter (m : VfsMetrics) (key : String) (v : Int64) :
    formatArgs (setCounter m key v) = (formatArgs m).set (formatKeys.idxOf key) v := by
  unfold setCounter
  split
  case h_29 =>
    -- no arm of the match took the key
    have hkey : key ∉ formatKeys := by
      simp only [formatKeys, List.mem_cons, List.not_mem_nil, or_false]
      simp_all only [imp_false, or_self, not_false_eq_true]
    rw [List.idxOf_eq_length hkey, List.set_eq_of_length_le (by rw [length_formatArgs])]
  all_goals rfl

theorem formatArgs_inj {m m' : VfsMetrics} (h : formatArgs m = formatArgs m') : m = m' := by
  cases m
  cases m'
  simpa [formatArgs] using h

theorem eq_iff_counter {m m' : VfsMetrics} :
    m = m' ↔ ∀ k ∈ formatKeys, counter m k = counter m' k := by
  refine ⟨fun h k _ => by rw [h], fun h => formatArgs_inj ?_⟩
  apply List.ext_getElem?
  intro i
  rcases Nat.lt_or_ge i formatKeys.length with hi | hi
  · have := h formatKeys[i] (List.getElem_mem hi)
    unfold counter at this
    rwa [formatKeys_nodup.idxOf_getElem i hi] at this
  · rw [List.getElem?_eq_none (by rwa [length_formatArgs]),
      List.getElem?_eq_none (by rwa [length_formatArgs])]

theorem counter_setCounter {m : VfsMetrics} {key k : String} {v : Int64} (hk : k ∈ formatKeys) :
    counter (setCounter m key v) k = if key = k then some v else counter m k := by
  unfold counter
  rw [formatArgs_setCounter]
  have hlt : formatKeys.idxOf k < (formatArgs m).length := by
    rw [length_formatArgs]
    exact List.idxOf_lt_length_of_mem hk
  split
  · next h =>
    subst h
    rw [List.getElem?_set_self hlt]
  · next h =>
    rw [List.getElem?_set_ne]
    intro heq
    exact h ((List.idxOf_inj hk).mp heq.symm).symm

/-! ## Lines -/

/-- The key of a line as the parser takes it. -/
def Line.name (l : Line) : String := String.ofList (trim l.key)

theorem trim_text (l : Line) : trim l.text = trimStart l.key ++ '=' :: trimEnd l.value :=
  trim_append '=' (by decide)

theorem mem_trimStart {c : Char} {s : List Char} (h : c ∈ trimStart s) : c ∈ s :=
  (List.dropWhile_suffix _).subset h

theorem parseLine_trim (m : VfsMetrics) (s : List Char) : parseLine m (trim s) = parseLine m s := by
  have hidem : trim (trim s) = trim s := by
    show trim (trimEnd (trimStart s)) = trim s
    rw [trim_trimEnd, trim_trimStart]
  unfold parseLine
  rw [hidem]

theorem parseLines_congr {ls ls' : List (List Char)} (h : ls.map trim = ls'.map trim) :
    ∀ m, parseLines m ls = parseLines m ls' := by
  induction ls generalizing ls' with
  | nil =>
    obtain rfl := List.map_eq_nil_iff.mp h.symm
    exact fun _ => rfl
  | cons l ls ih =>
    obtain ⟨l', rest, rfl, hl, hrest⟩ := List.map_eq_cons_iff.mp h.symm
    intro m
    unfold parseLines
    rw [← parseLine_trim m l, ← parseLine_trim m l', hl]
    split
    · rfl
    · exact ih hrest.symm _

/-- A line of key and value stores the value, if it is a number. -/
theorem parseLine_text (m : VfsMetrics) {l : Line} (h : '=' ∉ l.key) :
    (parseI64 (trim l.value) = none ∧ ∃ e, parseLine m l.text = .error e) ∨
    ∃ v, parseI64 (trim l.value) = some v ∧ parseLine m l.text = .ok (setCounter m l.name v) := by
  have hsplit : splitOnce '=' (trim l.text) = some (trimStart l.key, trimEnd l.value) := by
    rw [trim_text, splitOnce_append fun hmem => h (mem_trimStart hmem)]
  have hne : trim l.text ≠ [] := by
    rw [trim_text]
    simp
  unfold parseLine Line.name
  simp only [if_neg hne, hsplit, trim_trimStart, trim_trimEnd]
  cases parseI64 (trim l.value) with
  | none => exact .inl ⟨rfl, _, rfl⟩
  | some v => exact .inr ⟨v, rfl, rfl⟩

/-- A line that stands before the lines `rest` does not stop the counters `m` from being read: it
holds a number, and if that is stored it is the counter's, or is stored over later. -/
def Harmless (m : VfsMetrics) (l : Line) (rest : List Line) : Prop :=
  ∃ v, parseI64 (trim l.value) = some v ∧
    (l.name ∉ formatKeys ∨ counter m l.name = some v ∨ ∃ l' ∈ rest, l'.name = l.name)

/-- The same of all lines of a list. -/
def AllHarmless (m : VfsMetrics) : List Line → Prop
  | [] => True
  | l :: rest => Harmless m l rest ∧ AllHarmless m rest

/-- The counters that are read are those of the lines that come last, and those of the start for
keys that no line has. -/
theorem parseLines_eq_ok_iff {m : VfsMetrics} {out : List Line} (h : ∀ l ∈ out, '=' ∉ l.key) :
    ∀ m₁, parseLines m₁ (out.map Line.text) = .ok m ↔ AllHarmless m out ∧
      ∀ k ∈ formatKeys, (∃ l ∈ out, l.name = k) ∨ counter m₁ k = counter m k := by
  induction out with
  | nil =>
    intro m₁
    simp only [List.map_nil, parseLines, Except.ok.injEq, AllHarmless, true_and, List.not_mem_nil,
      false_and, exists_false, false_or]
    exact eq_iff_counter
  | cons l rest ih =>
    intro m₁
    have ih := ih fun l' hl' => h l' (List.mem_cons_of_mem _ hl')
    rw [List.map_cons, parseLines]
    rcases parseLine_text m₁ (h l List.mem_cons_self) with ⟨hnone, e, herr⟩ | ⟨v, hv, hok⟩
    · rw [herr]
      refine ⟨fun h => (nomatch h), ?_⟩
      rintro ⟨⟨⟨v, hv, -⟩, -⟩, -⟩
      rw [hnone] at hv
      cases hv
    · rw [hok]
      dsimp only
      rw [ih]
      constructor
      · rintro ⟨hrest, hall⟩
        refine ⟨⟨⟨v, hv, ?_⟩, hrest⟩, fun k hk => ?_⟩
        · by_cases hmem : l.name ∈ formatKeys
          · rcases hall _ hmem with hlater | hlast
            · exact .inr (.inr hlater)
            · rw [counter_setCounter hmem, if_pos rfl] at hlast
              exact .inr (.inl hlast.symm)
          · exact .inl hmem
        · rcases hall k hk with ⟨l', hl', hname⟩ | hlast
          · exact .inl ⟨l', List.mem_cons_of_mem _ hl', hname⟩
          · rw [counter_setCounter hk] at hlast
            split at hlast
            · next hname => exact .inl ⟨l, List.mem_cons_self, hname⟩
            · exact .inr hlast
      · rintro ⟨⟨⟨v', hv', hl⟩, hrest⟩, hall⟩
        obtain rfl := Option.some.inj (hv.symm.trans hv')
        refine ⟨hrest, fun k hk => ?_⟩
        rw [counter_setCounter hk]
        by_cases hname : l.name = k
        · subst hname
          rcases hl with hl | hl | hl
          · exact absurd hk hl
          · exact .inr (by rw [if_pos rfl, hl])
          · exact .inl hl
        · rw [if_neg hname]
          refine (hall k hk).imp_left ?_
          rintro ⟨l', hl', hk'⟩
          rcases List.mem_cons.mp hl' with rfl | hl'
          · exact absurd hk' hname
          · exact ⟨l', hl', hk'⟩

/-! ## Printed lines and inserted ones -/

/-- The lines `out` are the lines `ls` with others, whose keys are no counters', between them. -/
inductive Inserted : List Line → List Line → Prop
  | nil : Inserted [] []
  | own {l : Line} {ls out : List Line} (h : Inserted ls out) : Inserted (l :: ls) (l :: out)
  | other {l : Line} {ls out : List Line} (hkey : String.ofList l.key ∉ formatKeys)
      (hcut : '=' ∉ l.key) (hline : '\n' ∉ l.text) (h : Inserted ls out) : Inserted ls (l :: out)

theorem Inserted.refl (ls : List Line) : Inserted ls ls := by
  induction ls with
  | nil => exact .nil
  | cons l ls ih => exact .own ih

theorem Inserted.mem {ls out : List Line} (h : Inserted ls out) : ∀ l ∈ ls, l ∈ out := by
  induction h with
  | nil => simp
  | own _ ih =>
    exact List.forall_mem_cons.mpr
      ⟨List.mem_cons_self, fun l hl => List.mem_cons_of_mem _ (ih l hl)⟩
  | other _ _ _ _ ih => exact fun l hl => List.mem_cons_of_mem _ (ih l hl)

/-- What holds of the lines of `ls` and of all inserted ones holds of all lines. -/
theorem Inserted.forall {ls out : List Line} {P : Line → Prop} (h : Inserted ls out)
    (hown : ∀ l ∈ ls, P l)
    (hother : ∀ l : Line, '=' ∉ l.key → '\n' ∉ l.text → P l) : ∀ l ∈ out, P l := by
  induction h with
  | nil => exact hown
  | own _ ih =>
    obtain ⟨hl, hls⟩ := List.forall_mem_cons.mp hown
    exact List.forall_mem_cons.mpr ⟨hl, ih hls⟩
  | other _ hcut hline _ ih => exact List.forall_mem_cons.mpr ⟨hother _ hcut hline, ih hown⟩

/-- The value of a printed line is the counter. -/
theorem parseI64_printInt (v : Int64) : parseI64 (trim (printInt v.toInt)) = some v := by
  rw [trim_of_forall fun c hc => isWhitespace_of_mem_printInt hc]
  unfold parseI64
  rw [readInt_printInt]
  dsimp only
  rw [if_pos ⟨Int64.le_toInt v, Int64.toInt_lt v⟩, Int64.ofInt_toInt]

/-- The keys of the format string are single words without an equals sign. -/
theorem formatKeys_words : ∀ k ∈ formatKeys, ∀ c ∈ k.toList, isWhitespace c = false ∧ c ≠ '=' := by
  have hall : (formatKeys.all fun k => k.toList.all fun c => !isWhitespace c && c != '=') =
      true := by
    decide +kernel
  intro k hk c hc
  have h := List.all_eq_true.mp (List.all_eq_true.mp hall k hk) c hc
  rwa [Bool.and_eq_true, Bool.not_eq_true', bne_iff_ne] at h

theorem name_of_mem {k : String} (hk : k ∈ formatKeys) (value : List Char) :
    (Line.mk k.toList value).name = k := by
  unfold Line.name
  rw [trim_of_forall fun c hc => (formatKeys_words k hk c hc).1, String.ofList_toList]

theorem formatLines_name (m : VfsMetrics) : (formatLines m).map Line.name = formatKeys := by
  unfold formatLines
  rw [List.map_map]
  calc (formatKeys.zip (formatArgs m)).map _ = (formatKeys.zip (formatArgs m)).map Prod.fst := by
        apply List.map_congr_left
        rintro ⟨k, v⟩ hkv
        exact name_of_mem (List.of_mem_zip hkv).1 _
    _ = formatKeys := List.map_fst_zip (by rw [length_formatArgs])

/-- A printed line has its counter's key and number. -/
theorem formatLines_spec (m : VfsMetrics) : ∀ l ∈ formatLines m, String.ofList l.key ∈ formatKeys ∧
    '=' ∉ l.key ∧ '\n' ∉ l.text ∧
    ∃ v, parseI64 (trim l.value) = some v ∧ counter m l.name = some v := by
  intro l hl
  obtain ⟨⟨k, v⟩, hkv, rfl⟩ := List.mem_map.mp hl
  have hk := (List.of_mem_zip hkv).1
  have hwords := formatKeys_words k hk
  refine ⟨by rwa [String.ofList_toList], fun h => (hwords _ h).2 rfl, ?_, v,
    parseI64_printInt v, ?_⟩
  · unfold Line.text
    simp only [List.mem_append, List.mem_cons, not_or]
    refine ⟨fun h => ?_, by decide, fun h => ?_⟩
    · exact absurd (hwords _ h).1 (by decide)
    · exact absurd (isWhitespace_of_mem_printInt h) (by decide)
  · rw [name_of_mem hk]
    obtain ⟨i, hi, heq⟩ := List.getElem_of_mem hkv
    rw [List.getElem_zip] at heq
    obtain ⟨rfl, rfl⟩ := Prod.mk.inj heq
    unfold counter
    rw [formatKeys_nodup.idxOf_getElem, List.getElem?_eq_getElem]

theorem parse_join {out : List Line} (h : ∀ l ∈ out, '\n' ∉ l.text) :
    parse (join (out.map Line.text)) = parseLines {} (out.map Line.text) := by
  apply parseLines_congr
  apply trim_lines_join
  intro t ht
  obtain ⟨l, hl, rfl⟩ := List.mem_map.mp ht
  exact ⟨h l hl, by simp [Line.text]⟩

/-- A list is cut before its first line or later. -/
theorem forall_split_cons {P : Line → List Line → Prop} {l : Line} {out : List Line} :
    (∀ pre l' rest, l :: out = pre ++ l' :: rest → P l' rest) ↔
      P l out ∧ ∀ pre l' rest, out = pre ++ l' :: rest → P l' rest := by
  constructor
  · intro h
    exact ⟨h [] l out rfl, fun pre l' rest heq => h (l :: pre) l' rest (by rw [heq]; rfl)⟩
  · rintro ⟨hl, h⟩ pre l' rest heq
    cases pre with
    | nil =>
      obtain ⟨rfl, rfl⟩ := List.cons.inj heq
      exact hl
    | cons a pre => exact h pre l' rest (List.cons.inj heq).2

/-- Where lines are inserted, the printed ones are harmless in any case. -/
theorem allHarmless_iff {m : VfsMetrics} {ls out : List Line} (h : Inserted ls out)
    (hown : ∀ l ∈ ls, String.ofList l.key ∈ formatKeys ∧
      ∃ v, parseI64 (trim l.value) = some v ∧ counter m l.name = some v) :
    AllHarmless m out ↔ ∀ pre l rest, out = pre ++ l :: rest → String.ofList l.key ∉ formatKeys →
      Harmless m l rest := by
  induction h with
  | nil => exact ⟨fun _ pre l rest heq => by simp at heq, fun _ => trivial⟩
  | @own l ls out _ ih =>
    obtain ⟨⟨hkey, v, hv, hcount⟩, hls⟩ := List.forall_mem_cons.mp hown
    rw [AllHarmless, ih hls, forall_split_cons]
    exact and_congr_left fun _ => ⟨fun _ h => absurd hkey h, fun _ => ⟨v, hv, .inr (.inl hcount)⟩⟩
  | @other l ls out hkey _ _ _ ih =>
    rw [AllHarmless, ih hown, forall_split_cons]
    exact and_congr_left fun _ => ⟨fun h _ => h, fun h => h hkey⟩

/-- **Printed counters are read back**, also with other lines between the printed ones exactly when
each of those is harmless. -/
theorem parse_formatMetrics (m : VfsMetrics) : parse (formatMetrics m) = .ok m ∧
    ∀ out, Inserted (formatLines m) out → (parse (join (out.map Line.text)) = .ok m ↔
      ∀ pre l rest, out = pre ++ l :: rest → String.ofList l.key ∉ formatKeys →
        Harmless m l rest) := by
  have hspec := formatLines_spec m
  have hread : ∀ out, Inserted (formatLines m) out → (parse (join (out.map Line.text)) = .ok m ↔
      AllHarmless m out) := by
    intro out h
    rw [parse_join (h.forall (fun l hl => (hspec l hl).2.2.1) fun _ _ hl => hl),
      parseLines_eq_ok_iff (h.forall (fun l hl => (hspec l hl).2.1) fun _ hl _ => hl)]
    refine and_iff_left fun k hk => .inl ?_
    rw [← formatLines_name m] at hk
    obtain ⟨l, hl, hname⟩ := List.mem_map.mp hk
    exact ⟨l, h.mem l hl, hname⟩
  have hiff : ∀ out, Inserted (formatLines m) out → (AllHarmless m out ↔ _) := fun out h =>
    allHarmless_iff h fun l hl => ⟨(hspec l hl).1, (hspec l hl).2.2.2⟩
  refine ⟨(hread _ (.refl _)).mpr ((hiff _ (.refl _)).mpr ?_), fun out h =>
    (hread out h).trans (hiff out h)⟩
  intro pre l rest heq hkey
  exact absurd (hspec l (by rw [heq]; simp)).1 hkey

/-- A line of an unknown key whose value is a ratio stops the parser. -/
theorem parse_unknown_ratio : ∃ out, Inserted (formatLines {}) out ∧
    (∀ l ∈ out, String.ofList l.key = "future_ratio" ∨ String.ofList l.key ∈ formatKeys) ∧
    parse (join (out.map Line.text)) =
      .error ⟨"invalid integer for key 'future_ratio': 0.97"⟩ := by
  refine ⟨⟨"disk_reads".toList, "0".toList⟩ :: ⟨"future_ratio".toList, "0.97".toList⟩ ::
    (formatLines {}).tail, ?_, ?_, ?_⟩
  · exact .own (.other (by decide) (by decide) (by decide) (.refl _))
  · decide
  · rfl

end SqliteObjs.Metrics
