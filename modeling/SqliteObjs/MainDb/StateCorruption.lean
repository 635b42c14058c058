import SqliteObjs.MainDb.StateFormat

/-!
# Which alterations of the `.state` file are seen

The lookup table of the checksum repeats itself: the entries 112 to 191 are those of 32 to
111 once more. No two others have one top byte, so the runs of two files that differ in one
byte meet only where they select an entry and its copy, and from there on the checksum is
one. An alteration of the length of the bitmap has a way of its own past the reader: it
reads a shorter bitmap, and what follows may happen to be the checksum of that.

`altered_state_rejected_iff` lists the alterations of one byte that the reader lets pass;
it rejects all others.
-/

set_option autoImplicit false

namespace SqliteObjs.StateFile

open LittleEndian

/-! ## The table -/

/-- The table without its repeated stretch. -/
def distinctEntries : List UInt32 := stateCrcTable.take 112 ++ stateCrcTable.drop 192

/-- Where an entry stands among the distinct ones. -/
def entryPlace (i : Nat) : Nat := if i < 112 then i else i - 80

theorem length_stateCrcTable : stateCrcTable.length = 256 := by
  decide +kernel

theorem stateCrcTable_repeats :
    (stateCrcTable.drop 112).take 80 = (stateCrcTable.drop 32).take 80 := by
  decide +kernel

theorem distinctEntries_tops : (distinctEntries.map fun e => e.toNat >>> 24).Nodup := by
  decide +kernel

theorem stateCrcEntry_eq (i : UInt8) :
    distinctEntries[entryPlace i.toNat]? = some (stateCrcEntry i) := by
  have hi := i.toNat_lt
  have hlen := length_stateCrcTable
  have hentry : stateCrcTable[i.toNat]? = some (stateCrcEntry i) := by
    rw [List.getElem?_eq_getElem (by omega)]
    unfold stateCrcEntry
    rw [List.getD_eq_getElem _ _ (by omega)]
  rw [← hentry]
  unfold distinctEntries entryPlace
  split
  · next h => rw [List.getElem?_append_left (by simp [hlen, h]), List.getElem?_take_of_lt h]
  · next h =>
    rcases Nat.lt_or_ge i.toNat 192 with hlt | hge
    · -- an entry of the repeated stretch stands eighty places earlier
      have hcopy := congrArg (·[i.toNat - 112]?) stateCrcTable_repeats
      simp only [List.getElem?_take, List.getElem?_drop, if_pos (show i.toNat - 112 < 80 by omega)]
        at hcopy
      rw [List.getElem?_append_left (by simp [hlen]; omega), List.getElem?_take_of_lt (by omega),
        show i.toNat - 80 = 32 + (i.toNat - 112) by omega, ← hcopy,
        show 112 + (i.toNat - 112) = i.toNat by omega]
    · rw [List.getElem?_append_right (by simp [hlen]; omega), List.getElem?_drop, List.length_take,
        hlen, show 192 + (i.toNat - 80 - min 112 256) = i.toNat by omega]

theorem entryPlace_inj {i j : UInt8} (h : stateCrcEntry i >>> 24 = stateCrcEntry j >>> 24) :
    entryPlace i.toNat = entryPlace j.toNat := by
  have hi := stateCrcEntry_eq i
  have hj := stateCrcEntry_eq j
  have htop := congrArg UInt32.toNat h
  have hmap : ∀ k : UInt8, (distinctEntries.map fun e => e.toNat >>> 24)[entryPlace k.toNat]? =
      some ((stateCrcEntry k).toNat >>> 24) := by
    intro k
    rw [List.getElem?_map, stateCrcEntry_eq, Option.map_some]
  obtain ⟨hlt, -⟩ := List.getElem?_eq_some_iff.mp (hmap i)
  apply (List.getElem?_inj hlt distinctEntries_tops).mp
  rw [hmap i, hmap j]
  simpa using htop

theorem stateCrcEntry_top : TableCrc.TopInjective stateCrcEntry := by
  intro i j h
  have hplace := entryPlace_inj h
  exact Option.some.inj (by rw [← stateCrcEntry_eq, ← stateCrcEntry_eq, hplace])

/-- An entry of the table and its copy. -/
def RepeatedEntry (i j : UInt8) : Prop :=
  (32 ≤ i ∧ i ≤ 111 ∧ j = i + 80) ∨ (32 ≤ j ∧ j ≤ 111 ∧ i = j + 80)

theorem repeatedEntry_iff {i j : UInt8} :
    i ≠ j ∧ stateCrcEntry i = stateCrcEntry j ↔ RepeatedEntry i j := by
  have hi := i.toNat_lt
  have hj := j.toNat_lt
  have hplace : stateCrcEntry i = stateCrcEntry j ↔ entryPlace i.toNat = entryPlace j.toNat := by
    refine ⟨fun h => entryPlace_inj (by rw [h]), fun h => ?_⟩
    exact Option.some.inj (by rw [← stateCrcEntry_eq, ← stateCrcEntry_eq, h])
  rw [hplace]
  unfold RepeatedEntry entryPlace
  simp only [ne_eq, ← UInt8.toNat_inj, UInt8.le_iff_toNat_le, UInt8.toNat_add, UInt8.reduceToNat]
  split <;> split <;> omega

/-! ## Runs that meet -/

/-- The register of the checksum after some bytes. -/
def crcRegister (data : List UInt8) : UInt32 := TableCrc.run stateCrcEntry crcInit data

/-- The runs over two strings that differ at a place select, there or later, an entry and its copy,
from registers that agree but for the low byte. -/
def RunsMeet (data' data : List UInt8) (pos : Nat) : Prop :=
  ∃ j b d, pos ≤ j ∧ data'[j]? = some b ∧ data[j]? = some d ∧
    crcRegister (data'.take j) >>> 8 = crcRegister (data.take j) >>> 8 ∧
    RepeatedEntry (TableCrc.index (crcRegister (data'.take j)) b)
      (TableCrc.index (crcRegister (data.take j)) d)

theorem stateCrc32_set_eq_iff {data : List UInt8} {pos : Nat} {v : UInt8} (hpos : pos < data.length)
    (hne : data[pos]? ≠ some v) :
    stateCrc32 (data.set pos v) = stateCrc32 data ↔ RunsMeet (data.set pos v) data pos := by
  unfold stateCrc32 RunsMeet
  rw [UInt32.xor_left_inj, TableCrc.run_set_eq_iff stateCrcEntry_top crcInit hpos hne]
  simp only [TableCrc.Meets, repeatedEntry_iff]
  rfl

/-! ## Altered files -/

section Altered

variable {pageSize fileSize : Int} {aValid : List UInt8} {pos : Nat} {v : UInt8}

/-- The alterations that the reader does not see: one of the page size, the file size or the
bitmap where the runs of the checksum meet, and a shorter bitmap that its own checksum follows. -/
def Unseen (pageSize fileSize : Int) (aValid : List UInt8) (pos : Nat) (v : UInt8) : Prop :=
  let data := stateHeader pageSize fileSize aValid.length ++ aValid
  let file := stateBytes pageSize fileSize aValid
  let n := aValid.length
  let m := readLE32 (field 20 4 (file.set pos v))
  (8 ≤ pos ∧ (pos < 20 ∨ 24 ≤ pos) ∧ pos < 24 + n ∧ n ≤ 1024 * 1024 ∧
      saneSize (readLE32 (field 8 4 (file.set pos v))) = true ∧
      RunsMeet (data.set pos v) data pos) ∨
    (20 ≤ pos ∧ pos < 24 ∧ 0 < m ∧ m < n ∧ m ≤ 1024 * 1024 ∧
      saneSize (readLE32 (field 8 4 file)) = true ∧
      readLE32 (field (24 + m) 4 file) = (stateCrc32 ((data.set pos v).take (24 + m))).toNat)

theorem readLE32_field {off : Nat} {file : List UInt8} (h : off + 4 ≤ file.length) :
    readLE32 (field off 4 file) = ofLE (field off 4 file) := by
  have hlen := length_field h
  rw [readLE32_eq (by omega), List.take_of_length_le (by omega)]

/-- The part of the altered file that a checksum is taken of. -/
theorem take_altered {k : Nat} (hk : k ≤ aValid.length) :
    ((stateBytes pageSize fileSize aValid).set pos v).take (24 + k) =
      ((stateHeader pageSize fileSize aValid.length ++ aValid).set pos v).take (24 + k) := by
  rw [← take_stateBytes, ← List.take_set, List.take_take, Nat.min_eq_left (by omega)]

/-- The length of the bitmap, unless it is what is altered. -/
theorem bitmapSize_altered (hint : aValid.length < 2 ^ 31) (hout : 24 ≤ pos ∨ pos < 20) :
    ofLE (field 20 4 ((stateBytes pageSize fileSize aValid).set pos v)) = aValid.length := by
  obtain ⟨-, -, -, -, hbits⟩ := stateBytes_fields pageSize fileSize aValid
  have hfield : field 20 4 ((stateBytes pageSize fileSize aValid).set pos v) =
      field 20 4 (stateBytes pageSize fileSize aValid) :=
    hout.elim (fun h => field_set_of_le h) fun h => field_set_of_lt h
  rw [hfield, hbits, ofLE_writeLE32 (by omega)]

/-- The checksum that the writer stored. -/
theorem ofLE_stored_crc :
    ofLE (field (24 + aValid.length) 4 (stateBytes pageSize fileSize aValid)) =
      (stateCrc32 (stateHeader pageSize fileSize aValid.length ++ aValid)).toNat := by
  rw [field_stateBytes_crc, ofLE_writeLE32 (UInt32.toNat_lt _)]

section Accepted

variable {x : SavedState} (hint : aValid.length < 2 ^ 31)
  (hne : (stateBytes pageSize fileSize aValid)[pos]? ≠ some v)
  (hpos : pos < (stateBytes pageSize fileSize aValid).length)
  (h : Accepts ((stateBytes pageSize fileSize aValid).set pos v) x)

include hne h in
/-- The magic word and the version of an accepted file are as written. -/
theorem Accepts.le_pos : 8 ≤ pos := by
  obtain ⟨hmagic, hver, -, -, -⟩ := stateBytes_fields pageSize fileSize aValid
  have hlen := length_stateBytes pageSize fileSize aValid
  rcases Nat.lt_or_ge pos 4 with h4 | h4
  · refine absurd ?_ (ofLE_field_set_ne 0 4 (Nat.zero_le pos) (by omega) (by omega) hne)
    rw [h.magic, hmagic]
  rcases Nat.lt_or_ge pos 8 with h8 | h8
  · refine absurd ?_ (ofLE_field_set_ne 4 4 h4 h8 (by omega) hne)
    rw [h.version, hver]
    rfl
  · exact h8

include hint hne hpos h in
/-- So is its checksum. -/
theorem Accepts.pos_lt : pos < 24 + aValid.length := by
  by_contra hge
  have hlen := length_stateBytes pageSize fileSize aValid
  have hm : ofLE (field 20 4 ((stateBytes pageSize fileSize aValid).set pos v)) = aValid.length :=
    bitmapSize_altered hint (.inl (by omega))
  have hsum := h.checksum
  have hdata : ((stateBytes pageSize fileSize aValid).set pos v).take (24 + aValid.length) =
      stateHeader pageSize fileSize aValid.length ++ aValid := by
    rw [List.take_set_of_le (by omega), take_stateBytes]
  rw [hm, hdata, ← ofLE_stored_crc] at hsum
  exact ofLE_field_set_ne (24 + aValid.length) 4 (by omega) (by omega) (by omega) hne hsum

end Accepted

/-- The sizes in a file of the writer's, and in one altered elsewhere. -/
theorem accepts_altered_iff (hint : aValid.length < 2 ^ 31) (hn : 0 < aValid.length)
    (hne : (stateBytes pageSize fileSize aValid)[pos]? ≠ some v)
    (hpos : pos < (stateBytes pageSize fileSize aValid).length) :
    (∃ x, Accepts ((stateBytes pageSize fileSize aValid).set pos v) x) ↔
      Unseen pageSize fileSize aValid pos v := by
  obtain ⟨hmagic, hver, hsize, -, hbits⟩ := stateBytes_fields pageSize fileSize aValid
  have hlen := length_stateBytes pageSize fileSize aValid
  have hlen' : ((stateBytes pageSize fileSize aValid).set pos v).length =
      24 + aValid.length + 4 := by
    rw [List.length_set, hlen]
  have hdata : (stateHeader pageSize fileSize aValid.length ++ aValid).length =
      24 + aValid.length := by
    rw [List.length_append, length_stateHeader]
  -- below the checksum the altered file differs from the data at the same place
  have hne' : pos < 24 + aValid.length →
      (stateHeader pageSize fileSize aValid.length ++ aValid)[pos]? ≠ some v := by
    intro h
    rwa [← take_stateBytes, List.getElem?_take_of_lt h]
  have hcrc : pos < 24 + aValid.length →
      ofLE (field (24 + aValid.length) 4 ((stateBytes pageSize fileSize aValid).set pos v)) =
        (stateCrc32 (stateHeader pageSize fileSize aValid.length ++ aValid)).toNat := by
    intro h
    rw [field_set_of_lt h, ofLE_stored_crc]
  unfold Unseen
  simp only [readLE32_field
    (show 20 + 4 ≤ ((stateBytes pageSize fileSize aValid).set pos v).length by omega),
    readLE32_field (show 8 + 4 ≤ ((stateBytes pageSize fileSize aValid).set pos v).length by omega),
    readLE32_field (show 8 + 4 ≤ (stateBytes pageSize fileSize aValid).length by omega)]
  constructor
  · rintro ⟨x, h⟩
    have h8 := h.le_pos hne
    have hlt := h.pos_lt hint hne hpos
    by_cases hin : 20 ≤ pos ∧ pos < 24
    · right
      have hm : ofLE (field 20 4 ((stateBytes pageSize fileSize aValid).set pos v)) ≠
          aValid.length := by
        have := ofLE_field_set_ne 20 4 hin.1 (by omega) (by omega) hne
        rwa [hbits, ofLE_writeLE32 (by omega)] at this
      have hroom := h.payload
      have hsum := h.checksum
      have hsane := h.sane
      rw [take_altered (by omega), field_set_of_lt (by omega)] at hsum
      rw [field_set_of_le (by omega)] at hsane
      rw [readLE32_field (by omega)]
      exact ⟨hin.1, hin.2, h.size_pos, by omega, h.size_le, hsane, hsum⟩
    · left
      have hm : ofLE (field 20 4 ((stateBytes pageSize fileSize aValid).set pos v)) =
          aValid.length :=
        bitmapSize_altered hint (by omega)
      have hsum := h.checksum
      rw [hm, take_altered (Nat.le_refl _), hcrc hlt, List.take_of_length_le (by
        rw [List.length_set]; omega)] at hsum
      refine ⟨h8, by omega, hlt, hm ▸ h.size_le, h.sane, ?_⟩
      apply (stateCrc32_set_eq_iff (by omega) (hne' hlt)).mp
      exact UInt32.toNat_inj.mp hsum.symm
  · have haccept : 8 ≤ pos →
        saneSize (ofLE (field 8 4 ((stateBytes pageSize fileSize aValid).set pos v))) = true →
        ∀ m, ofLE (field 20 4 ((stateBytes pageSize fileSize aValid).set pos v)) = m → 0 < m →
          m ≤ 1024 * 1024 → m ≤ aValid.length →
          ofLE (field (24 + m) 4 ((stateBytes pageSize fileSize aValid).set pos v)) =
            (stateCrc32 ((stateHeader pageSize fileSize aValid.length ++ aValid).set pos v |>.take
              (24 + m))).toNat →
          ∃ x, Accepts ((stateBytes pageSize fileSize aValid).set pos v) x := by
      rintro h8 hsane m rfl hmpos hmle hroom hsum
      refine ⟨⟨_, _, _⟩, {
        header := by omega
        magic := by rw [field_set_of_le (by omega), hmagic]
        version := by rw [field_set_of_le (by omega), hver]; rfl
        pageSize := rfl
        sane := hsane
        fileSize := rfl
        size_pos := hmpos
        size_le := hmle
        payload := by omega
        bitmap := rfl
        checksum := ?_ }⟩
      rw [hsum, take_altered hroom]
    rintro (⟨h8, hout, hlt, hle, hsane, hmeet⟩ | ⟨h20, h24, hmpos, hmlt, hmle, hsane, hsum⟩)
    · refine haccept h8 hsane _ (bitmapSize_altered hint hout.symm) hn hle (Nat.le_refl _) ?_
      rw [hcrc hlt, List.take_of_length_le (by rw [List.length_set]; omega),
        (stateCrc32_set_eq_iff (by omega) (hne' hlt)).mpr hmeet]
    · refine haccept (by omega) (by rwa [field_set_of_le (by omega)]) _ rfl hmpos hmle (by omega) ?_
      rw [field_set_of_lt (by omega), ← hsum, readLE32_field (by omega)]

/-- **The alterations that pass**: the reader rejects a file with one byte altered, whatever its
calls do, unless the alteration is one of `Unseen`. -/
theorem altered_state_rejected_iff {c : WriteCalls} {files files' : Files} {cachePath : String}
    {file : List UInt8} (hint : aValid.length < 2 ^ 31)
    (hwrite : writeStateFile c files (some cachePath) pageSize fileSize aValid = (0, files'))
    (hfile : files' (buildStatePath cachePath) = some file) (hpos : pos < file.length)
    (hne : file[pos]? ≠ some v) :
    (∀ r, readStateFile r (files'.set (buildStatePath cachePath) (some (file.set pos v)))
      (some cachePath) = none) ↔ ¬ Unseen pageSize fileSize aValid pos v := by
  obtain ⟨hn, path, hpath, hbytes⟩ := writeStateFile_ok hwrite
  obtain rfl := Option.some.inj hpath
  obtain rfl := Option.some.inj (hbytes.symm.trans hfile)
  rw [← accepts_altered_iff hint hn hne hpos]
  have hset : ∀ f : Option (List UInt8),
      files'.set (buildStatePath cachePath) f (buildStatePath cachePath) = f := by simp [Files.set]
  constructor
  · rintro h ⟨x, hx⟩
    have hnone := h {}
    rw [readStateFile_calls (hset _), readState_eq_some_iff.mpr hx] at hnone
    cases hnone
  · intro h r
    rw [readStateFile_some (hset _)]
    split
    · apply Option.eq_none_iff_forall_ne_some.mpr
      intro x hx
      exact h ⟨x, readState_eq_some_iff.mp (readState_of_calls hx)⟩
    · rfl

/-- The second page's bit of a bitmap is cleared. -/
theorem altered_state_rejected_bit : ∃ files' file,
    writeStateFile {} (fun _ => none) (some "db.cache") 4096 8192 [3] = (0, files') ∧
    files' (buildStatePath "db.cache") = some file ∧
    ∀ r, readStateFile r (files'.set (buildStatePath "db.cache") (some (file.set 24 1)))
      (some "db.cache") = none := by
  have hwrite : writeStateFile {} (fun _ => none) (some "db.cache") 4096 8192 [3] = _ :=
    writeStateFile_calls (by decide)
  obtain ⟨-, path, hpath, hfile⟩ := writeStateFile_ok hwrite
  obtain rfl := Option.some.inj hpath
  refine ⟨_, _, hwrite, hfile, ?_⟩
  refine (altered_state_rejected_iff (by decide) hwrite hfile (by decide)
    (by decide +kernel)).mpr ?_
  rintro (⟨-, -, -, -, -, j, b, d, hj, hb, hd, -, hrep⟩ | ⟨-, h24, -⟩)
  · obtain rfl : j = 24 := by
      have : j < 25 := (List.getElem?_eq_some_iff.mp hb).1
      omega
    obtain rfl := Option.some.inj hb
    obtain rfl := Option.some.inj hd
    revert hrep
    unfold RepeatedEntry
    decide +kernel
  · exact absurd h24 (by decide)

end Altered

/-- The bitmap of two pages that are both valid, altered to one where six more bits are set. -/
theorem altered_state_read : ∃ files' file,
    writeStateFile {} (fun _ => none) (some "db.cache") 4096 8192 [3] = (0, files') ∧
    files' (buildStatePath "db.cache") = some file ∧ file[24]? = some 3 ∧
    readStateFile {} (files'.set (buildStatePath "db.cache") (some (file.set 24 243)))
      (some "db.cache") = some ⟨4096, 8192, [243]⟩ := by
  refine ⟨_, _, writeStateFile_calls (by decide), by simp [Files.set]; rfl, by decide +kernel, ?_⟩
  rw [readStateFile_calls (by simp [Files.set]; rfl)]
  decide +kernel

end SqliteObjs.StateFile
