import SqliteObjs.Vfs.StateFile
import SqliteObjs.MainDb.Image

/-!
# What the `.state` reader accepts

The reader takes the file apart at fixed places, and `Accepts` lists the conditions of its
checks on those places. It accepts no file for a failing call that it does not accept
without, so a question about all its runs is one about the run where every call succeeds.

A file that the writer made is accepted exactly when its bitmap keeps the reader's bound of
one mebibyte, which the writer does not know of, and gives back what was written. The value
that stands for the file in the model of the disk is then the file.
-/

set_option autoImplicit false

namespace SqliteObjs.StateFile

open LittleEndian

/-! ## Numbers -/

theorem writeLE32_eq (v : Nat) : writeLE32 v = toLE 4 v := by
  simp only [writeLE32, toLE, Nat.shiftRight_eq_div_pow, Nat.div_div_eq_div_mul]

theorem writeLE64_eq (v : Nat) : writeLE64 v = toLE 8 v := by
  simp only [writeLE64, toLE, Nat.shiftRight_eq_div_pow, Nat.div_div_eq_div_mul,
    List.range_eq_range', List.range'_succ, List.range'_zero, List.map_cons, List.map_nil]
  simp

/-- A byte above the bits that are set already is added to them. -/
theorem or_shiftLeft {x k : Nat} (b : UInt8) (hx : x < 2 ^ k) :
    x ||| (b.toNat <<< k) = x + 2 ^ k * b.toNat := by
  rw [Nat.shiftLeft_eq, Nat.mul_comm, Nat.or_comm, ← Nat.two_pow_add_eq_or_of_lt hx, Nat.add_comm]

theorem readLE32_eq {p : List UInt8} (hp : 4 ≤ p.length) : readLE32 p = ofLE (p.take 4) := by
  match p, hp with
  | a :: b :: c :: d :: _, _ =>
    have ha := a.toNat_lt
    have hb := b.toNat_lt
    have hc := c.toNat_lt
    simp only [readLE32, List.getD_cons_zero, List.getD_cons_succ, List.take_succ_cons,
      List.take_zero, ofLE]
    rw [or_shiftLeft b (by omega), or_shiftLeft c (by omega), or_shiftLeft d (by omega)]
    omega

theorem readLE64_eq {p : List UInt8} (hp : 8 ≤ p.length) : readLE64 p = ofLE (p.take 8) := by
  match p, hp with
  | a :: b :: c :: d :: e :: f :: g :: h :: _, _ =>
    have ha := a.toNat_lt
    have hb := b.toNat_lt
    have hc := c.toNat_lt
    have hd := d.toNat_lt
    have he := e.toNat_lt
    have hf := f.toNat_lt
    have hg := g.toNat_lt
    simp only [readLE64, List.range_eq_range', List.range'_succ, List.range'_zero, List.foldl_cons,
      List.foldl_nil, List.getD_cons_zero, List.getD_cons_succ, List.take_succ_cons, List.take_zero,
      ofLE]
    rw [or_shiftLeft a (by omega), or_shiftLeft b (by omega), or_shiftLeft c (by omega),
      or_shiftLeft d (by omega), or_shiftLeft e (by omega), or_shiftLeft f (by omega),
      or_shiftLeft g (by omega), or_shiftLeft h (by omega)]
    omega

/-! ## Fields -/

/-- The bytes of a file from a place on. -/
def field (off len : Nat) (file : List UInt8) : List UInt8 := (file.drop off).take len

section Field

variable {off len pos : Nat} {file : List UInt8} {v : UInt8}

theorem length_field (h : off + len ≤ file.length) : (field off len file).length = len := by
  simp only [field, List.length_take, List.length_drop]
  omega

theorem field_set_of_lt (h : pos < off) : field off len (file.set pos v) = field off len file := by
  unfold field
  rw [List.drop_set, if_pos h]

theorem field_set_of_le (h : off + len ≤ pos) :
    field off len (file.set pos v) = field off len file := by
  unfold field
  rw [List.drop_set, if_neg (by omega), List.take_set_of_le (by omega)]

/-- A byte of a field that is altered alters the number in the field. -/
theorem ofLE_field_set_ne (off len : Nat) (hle : off ≤ pos) (hlt : pos < off + len)
    (hlen : off + len ≤ file.length) (hne : file[pos]? ≠ some v) :
    ofLE (field off len (file.set pos v)) ≠ ofLE (field off len file) := by
  intro h
  have hlen' : off + len ≤ (file.set pos v).length := by rwa [List.length_set]
  have heq := ofLE_inj (by rw [length_field hlen', length_field hlen]) h
  have hpos := congrArg (·[pos - off]?) heq
  simp only [field, List.getElem?_take, List.getElem?_drop, Nat.add_sub_cancel' hle,
    if_pos (show pos - off < len by omega),
    List.getElem?_set_self (show pos < file.length by omega)]
    at hpos
  exact hne hpos.symm

end Field

/-! ## The reader -/

/-- The checks of the reader on a file, when no call fails. -/
structure Accepts (file : List UInt8) (x : SavedState) : Prop where
  header : 24 ≤ file.length
  magic : field 0 4 file = stateMagic
  version : ofLE (field 4 4 file) = stateVersion
  pageSize : x.pageSize = ofLE (field 8 4 file)
  sane : saneSize (ofLE (field 8 4 file)) = true
  fileSize : x.fileSize = ofUint64 (ofLE (field 12 8 file))
  size_pos : 0 < ofLE (field 20 4 file)
  size_le : ofLE (field 20 4 file) ≤ 1024 * 1024
  payload : 24 + ofLE (field 20 4 file) + 4 ≤ file.length
  bitmap : x.bitmap = field 24 (ofLE (field 20 4 file)) file
  checksum : ofLE (field (24 + ofLE (field 20 4 file)) 4 file) =
    (stateCrc32 (file.take (24 + ofLE (field 20 4 file)))).toNat

theorem field_take {off len n : Nat} {file : List UInt8} (h : off + len ≤ n) :
    ((file.take n).drop off).take len = field off len file := by
  unfold field
  rw [List.drop_take, List.take_take, Nat.min_eq_left (by omega)]

theorem take_append_field (m n : Nat) (file : List UInt8) :
    file.take m ++ field m n file = file.take (m + n) := by
  unfold field
  rw [← List.take_add]

theorem field_field {off len m n : Nat} {file : List UInt8} (h : m + n ≤ len) :
    ((field off len file).drop m).take n = field (off + m) n file := by
  unfold field
  rw [List.drop_take, List.take_take, List.drop_drop, Nat.min_eq_left (by omega)]

/-- The numbers of the header, where the reader finds them. -/
theorem header_fields {file : List UInt8} (h : 24 ≤ file.length) :
    readLE32 ((file.take 24).drop 4) = ofLE (field 4 4 file) ∧
    readLE32 ((file.take 24).drop 8) = ofLE (field 8 4 file) ∧
    readLE64 ((file.take 24).drop 12) = ofLE (field 12 8 file) ∧
    readLE32 ((file.take 24).drop 20) = ofLE (field 20 4 file) := by
  have hlen : (file.take 24).length = 24 := by
    rw [List.length_take]
    omega
  have h32 : ∀ off, off + 4 ≤ 24 → readLE32 ((file.take 24).drop off) =
      ofLE (field off 4 file) := by
    intro off hoff
    rw [readLE32_eq (by rw [List.length_drop]; omega), field_take hoff]
  refine ⟨h32 4 (by omega), h32 8 (by omega), ?_, h32 20 (by omega)⟩
  rw [readLE64_eq (by rw [List.length_drop]; omega), field_take (by omega)]

theorem readState_eq_some_iff {file : List UInt8} {x : SavedState} :
    readState {} file = some x ↔ Accepts file x := by
  rcases Nat.lt_or_ge file.length 24 with hshort | hlong
  · have hlen : (file.take 24).length ≠ 24 := by
      rw [List.length_take]
      omega
    simp only [readState, hlen, ne_eq, not_false_eq_true, decide_true, Bool.or_true, if_true]
    exact ⟨fun h => (nomatch h), fun h => absurd h.header (by omega)⟩
  obtain ⟨hver, hps, hfs, hsize⟩ := header_fields hlong
  have hlen : (file.take 24).length = 24 := by
    rw [List.length_take]
    omega
  have hmagic : (file.take 24).take 4 = field 0 4 file := by
    rw [List.take_take]
    rfl
  unfold readState
  simp only [hver, hps, hfs, hsize, hlen, hmagic, Bool.not_true, Bool.false_or,
    Bool.false_eq_true, if_false, Option.ite_none_left_eq_some, ne_eq, not_true_eq_false,
    decide_false, Decidable.not_not, Option.some.injEq, decide_eq_true_eq,
    Bool.not_eq_true', Bool.not_eq_false, not_or, Nat.not_lt]
  generalize hm : ofLE (field 20 4 file) = m
  rw [show List.take (m + 4) (List.drop 24 file) = field 24 (m + 4) file from rfl]
  have hpay : (field 24 (m + 4) file).length = m + 4 ↔ 24 + m + 4 ≤ file.length := by
    simp only [field, List.length_take, List.length_drop]
    omega
  have hbits : (field 24 (m + 4) file).take m = field 24 m file := by
    unfold field
    rw [List.take_take, Nat.min_eq_left (by omega)]
  rw [hbits, take_append_field, hpay]
  have hcrc : 24 + m + 4 ≤ file.length →
      readLE32 ((field 24 (m + 4) file).drop m) = ofLE (field (24 + m) 4 file) := by
    intro h
    rw [readLE32_eq (by rw [List.length_drop, hpay.mpr h]; omega), field_field (Nat.le_refl _)]
  constructor
  · rintro ⟨hmg, hv, hsane, ⟨hpos, hle⟩, hroom, hsum, rfl⟩
    rw [hcrc hroom] at hsum
    subst hm
    exact ⟨hlong, hmg, hv, rfl, hsane, rfl, by omega, hle, hroom, rfl, hsum⟩
  · intro h
    have hroom : 24 + m + 4 ≤ file.length := hm ▸ h.payload
    refine ⟨h.magic, h.version, h.sane, ⟨?_, hm ▸ h.size_le⟩, hroom, ?_, ?_⟩
    · have := h.size_pos
      omega
    · rw [hcrc hroom, ← hm]
      exact h.checksum
    · obtain ⟨ps, fs, bm⟩ := x
      have h1 := h.pageSize
      have h2 := h.fileSize
      have h3 := h.bitmap
      simp only at h1 h2 h3
      rw [h1, h2, h3, hm]

/-- A failing call makes the reader reject, and nothing else. -/
theorem readState_of_calls {c : ReadCalls} {file : List UInt8} {x : SavedState}
    (h : readState c file = some x) : readState {} file = some x := by
  unfold readState at h ⊢
  simp only [Option.ite_none_left_eq_some, Bool.or_eq_true, not_or] at h ⊢
  tauto

/-! ## What the writer makes -/

section Written

variable (pageSize fileSize : Int) (aValid : List UInt8)

theorem length_stateHeader (n : Nat) : (stateHeader pageSize fileSize n).length = 24 := rfl

theorem length_stateBytes :
    (stateBytes pageSize fileSize aValid).length = 24 + aValid.length + 4 := by
  simp [stateBytes, length_stateHeader, writeLE32_eq, Nat.add_assoc]

/-- The part of the file that the checksum is of. -/
theorem take_stateBytes : (stateBytes pageSize fileSize aValid).take (24 + aValid.length) =
    stateHeader pageSize fileSize aValid.length ++ aValid := by
  unfold stateBytes
  apply List.take_left'
  rw [List.length_append, length_stateHeader]

/-- The fields of the header. -/
theorem stateBytes_fields :
    field 0 4 (stateBytes pageSize fileSize aValid) = stateMagic ∧
    field 4 4 (stateBytes pageSize fileSize aValid) = writeLE32 stateVersion ∧
    field 8 4 (stateBytes pageSize fileSize aValid) = writeLE32 (toUint32 pageSize) ∧
    field 12 8 (stateBytes pageSize fileSize aValid) = writeLE64 (toUint64 fileSize) ∧
    field 20 4 (stateBytes pageSize fileSize aValid) = writeLE32 aValid.length :=
  ⟨rfl, rfl, rfl, rfl, rfl⟩

theorem field_stateBytes_bitmap :
    field 24 aValid.length (stateBytes pageSize fileSize aValid) = aValid := by
  have htake := take_append_field 24 aValid.length (stateBytes pageSize fileSize aValid)
  rw [take_stateBytes] at htake
  exact (List.append_inj htake rfl).2

theorem field_stateBytes_crc :
    field (24 + aValid.length) 4 (stateBytes pageSize fileSize aValid) =
      writeLE32 (stateCrc32 (stateHeader pageSize fileSize aValid.length ++ aValid)).toNat := by
  unfold field stateBytes
  rw [List.drop_left' (by rw [List.length_append, length_stateHeader])]
  rfl

end Written

theorem saneSize_iff {n : Nat} : saneSize n = true ↔ LegalPageSize n := by
  simp only [saneSize, Bool.and_eq_true, decide_eq_true_eq, beq_iff_eq, LegalPageSize, and_assoc]
  refine and_congr_right fun hlow => and_congr_right fun _ => ?_
  exact Nat.and_sub_one_eq_zero_iff_isPowerOfTwo (by omega)

theorem toUint32_natCast {n : Nat} (h : n < 2 ^ 32) : toUint32 n = n := by
  unfold toUint32
  omega

theorem ofUint64_toUint64 {v : Int} (h0 : 0 ≤ v) (h : v < 2 ^ 63) : ofUint64 (toUint64 v) = v := by
  unfold ofUint64 toUint64
  split <;> omega

theorem ofLE_writeLE32 {n : Nat} (h : n < 2 ^ 32) : ofLE (writeLE32 n) = n := by
  rw [writeLE32_eq, ofLE_toLE_of_lt (by omega)]

theorem ofLE_writeLE64 {n : Nat} (h : n < 2 ^ 64) : ofLE (writeLE64 n) = n := by
  rw [writeLE64_eq, ofLE_toLE_of_lt (by omega)]

/-- The reader on a file of the writer's: the page size is checked, and the bitmap has a bound. -/
theorem readState_stateBytes {pageSize : Nat} {fileSize : Int} {aValid : List UInt8}
    (hps : pageSize < 2 ^ 32) (h0 : 0 ≤ fileSize) (hfs : fileSize < 2 ^ 63)
    (hn : aValid.length < 2 ^ 32) :
    readState {} (stateBytes pageSize fileSize aValid) =
      if saneSize pageSize = true ∧ 0 < aValid.length ∧ aValid.length ≤ 1024 * 1024 then
        some ⟨pageSize, fileSize, aValid⟩ else none := by
  obtain ⟨hmagic, hver, hsize, hfile, hbits⟩ := stateBytes_fields pageSize fileSize aValid
  have hm : ofLE (field 20 4 (stateBytes pageSize fileSize aValid)) = aValid.length := by
    rw [hbits, ofLE_writeLE32 hn]
  have hp : ofLE (field 8 4 (stateBytes pageSize fileSize aValid)) = pageSize := by
    rw [hsize, toUint32_natCast hps, ofLE_writeLE32 hps]
  have hf : ofUint64 (ofLE (field 12 8 (stateBytes pageSize fileSize aValid))) = fileSize := by
    rw [hfile, ofLE_writeLE64 (by unfold toUint64; omega), ofUint64_toUint64 h0 hfs]
  have hlen := length_stateBytes pageSize fileSize aValid
  split
  · next h =>
    obtain ⟨hsane, hpos, hle⟩ := h
    apply readState_eq_some_iff.mpr
    refine {
      header := by omega
      magic := hmagic
      version := by rw [hver]; rfl
      pageSize := by rw [hp]
      sane := by rw [hp]; exact hsane
      fileSize := hf.symm
      size_pos := by omega
      size_le := by omega
      payload := by omega
      bitmap := by rw [hm, field_stateBytes_bitmap]
      checksum := ?_ }
    rw [hm, field_stateBytes_crc, take_stateBytes]
    exact ofLE_writeLE32 (UInt32.toNat_lt _)
  · next h =>
    apply Option.eq_none_iff_forall_ne_some.mpr
    intro x hx
    have hacc := readState_eq_some_iff.mp hx
    exact h ⟨hp ▸ hacc.sane, hm ▸ hacc.size_pos, hm ▸ hacc.size_le⟩

/-! ## Writing and reading back -/

section RoundTrip

variable {c : WriteCalls} {files files' : Files} {cachePath : Option String}
  {pageSize fileSize : Int} {aValid : List UInt8}

/-- What a call of the writer that succeeds leaves behind. -/
theorem writeStateFile_ok
    (h : writeStateFile c files cachePath pageSize fileSize aValid = (0, files')) :
    0 < aValid.length ∧ ∃ path, cachePath = some path ∧
      files' (buildStatePath path) = some (stateBytes pageSize fileSize aValid) := by
  unfold writeStateFile at h
  cases cachePath with
  | none => simp at h
  | some path =>
    dsimp only at h
    split at h
    · simp at h
    split at h
    · simp at h
    split at h
    · simp at h
    split at h
    · simp at h
    next hne _ _ _ =>
      refine ⟨by omega, path, rfl, ?_⟩
      obtain ⟨-, rfl⟩ := Prod.mk.inj h
      simp [Files.set]

theorem writeStateFile_calls {path : String} (h : 0 < aValid.length) :
    writeStateFile {} files (some path) pageSize fileSize aValid =
      (0, (files.set (buildStatePath path ++ ".tmp") none).set (buildStatePath path)
        (some (stateBytes pageSize fileSize aValid))) := by
  unfold writeStateFile
  simp only [if_neg (Nat.ne_of_gt h)]
  rfl

/-- The reader on a file that is there. -/
theorem readStateFile_some {r : ReadCalls} {files : Files} {path : String} {file : List UInt8}
    (h : files (buildStatePath path) = some file) :
    readStateFile r files (some path) =
      if r.statePath && r.opened then readState r file else none := by
  unfold readStateFile
  dsimp only
  rw [h]
  cases r.statePath <;> cases r.opened <;> rfl

theorem readStateFile_calls {files : Files} {path : String} {file : List UInt8}
    (h : files (buildStatePath path) = some file) :
    readStateFile {} files (some path) = readState {} file :=
  (readStateFile_some h).trans rfl

/-- **What is written is read back up to one mebibyte of bitmap**, and is rejected beyond. -/
theorem written_state_reads_back {pageSize : Nat} (hps : LegalPageSize pageSize) (h0 : 0 ≤ fileSize)
    (hfs : fileSize < 2 ^ 63) (hint : aValid.length < 2 ^ 31)
    (hwrite : writeStateFile c files cachePath pageSize fileSize aValid = (0, files')) :
    readStateFile {} files' cachePath =
      if aValid.length ≤ 1024 * 1024 then some ⟨pageSize, fileSize, aValid⟩ else none := by
  obtain ⟨hpos, path, rfl, hfile⟩ := writeStateFile_ok hwrite
  rw [readStateFile_calls hfile]
  have hps' : pageSize < 2 ^ 32 := by
    have := hps.2.1
    omega
  rw [readState_stateBytes hps' h0 hfs (by omega)]
  simp only [saneSize_iff.mpr hps, hpos, true_and]

theorem written_state_reads_back_byte : ∃ files',
    writeStateFile {} (fun _ => none) (some "db.cache") (4096 : Nat) 8192 [3] = (0, files') ∧
    readStateFile {} files' (some "db.cache") = some ⟨4096, 8192, [3]⟩ := by
  refine ⟨_, writeStateFile_calls (by decide), ?_⟩
  refine (written_state_reads_back ⟨by decide, by decide, 12, rfl⟩ (by decide)
    (by decide) (by decide) (writeStateFile_calls (by decide))).trans ?_
  rfl

/-- A bitmap of a byte more than the reader takes. -/
def wideBitmap : List UInt8 := List.replicate (1024 * 1024 + 1) 255

theorem wide_bitmap_is_rejected : ∃ files',
    writeStateFile {} (fun _ => none) (some "db.cache") (4096 : Nat) 8192 wideBitmap = (0, files') ∧
    readStateFile {} files' (some "db.cache") = none := by
  have hlen : wideBitmap.length = 1024 * 1024 + 1 := List.length_replicate
  have hwrite : writeStateFile {} (fun _ => none) (some "db.cache") (4096 : Nat) 8192 wideBitmap =
      _ :=
    writeStateFile_calls (by omega)
  refine ⟨_, hwrite, ?_⟩
  obtain ⟨-, path, hpath, hfile⟩ := writeStateFile_ok hwrite
  obtain rfl := Option.some.inj hpath
  rw [readStateFile_calls hfile, readState_stateBytes (by decide) (by decide) (by decide)
    (by omega), if_neg (by omega)]

end RoundTrip

/-! ## The model of the disk -/

section Sidecar

open CS.Program

variable {a : Azure} {d : Disk} {path : Path}

/-- The reader of the model, where the sidecar is a value, returns what the reader of the bytes
of that value returns. -/
theorem wp_readStateFile_bytes {ps fs : Nat} {bm : List UInt8}
    (hs : d.sidecar path .state = some (.state ps fs bm)) (hps : ps < 2 ^ 32) (hfs : fs < 2 ^ 63)
    (hbm : bm.length < 2 ^ 32) :
    wp soundly (SqliteObjs.readStateFile path) (fun r w' => w' = ⟨a, d⟩ ∧
      r = (readState {} (stateBytes ps fs bm)).map fun x =>
        (x.pageSize.toNat, x.fileSize.toNat, x.bitmap)) ⟨a, d⟩ := by
  rw [readState_stateBytes hps (by omega) (by omega) hbm]
  unfold SqliteObjs.readStateFile
  refine wp_sys_sound fun c hc => ?_
  simp only [Disk.serve, hc.2, Bool.false_eq_true, if_false, hs]
  have hsane : saneSize ps = true ↔ ¬ (ps < 512 ∨ 65536 < ps ∨ ps &&& (ps - 1) ≠ 0) := by
    simp only [saneSize, Bool.and_eq_true, decide_eq_true_eq, beq_iff_eq]
    omega
  have hlen : (0 < bm.length ∧ bm.length ≤ 1024 * 1024) ↔
      ¬ (bm.length = 0 ∨ 1024 * 1024 < bm.length) := by
    omega
  split
  · next h => exact wp_alone_ret.mpr ⟨rfl, by rw [if_neg fun hand => hsane.mp hand.1 h]; rfl⟩
  split
  · next h => exact wp_alone_ret.mpr ⟨rfl, by rw [if_neg fun hand => hlen.mp hand.2 h]; rfl⟩
  · next hp hb =>
    refine wp_sys_sound fun c' hc' => ?_
    simp only [Disk.serve, hc'.2, Bool.false_eq_true, if_false, Bool.not_true]
    exact wp_alone_ret.mpr ⟨rfl, by rw [if_pos ⟨hsane.mpr hp, hlen.mpr hb⟩]; rfl⟩

end Sidecar

end SqliteObjs.StateFile
