import SqliteObjs.Vfs.World

/-!
# Page bitmaps

One bit per page with a running count of set bits, used for dirty pages (to be
flushed) and for valid pages (present in the cache file). Page indices are C
`int`s: a 64-bit quotient is narrowed by `cInt` before it is used, and an index
outside the allocated bytes is ignored by every operation.

The indices -7 to -1 are not outside: C divides towards zero, so their byte is the first one. The
bit in it would be `1 << n` with a negative `n`, which C leaves undefined. What a build makes of
it is a parameter of the bitmap, `NegShift`.
-/

set_option autoImplicit false

namespace SqliteObjs

/-- What a build makes of `1 << n` for a negative `n`: if the bit counts as set in a byte, and what
becomes of the byte and is added to the count when the bit is set or cleared. -/
structure NegShift where
  test : Int → UInt8 → Bool
  set : Int → UInt8 → UInt8 × Int
  clear : Int → UInt8 → UInt8 × Int

/-- The shift instructions of x86-64 and AArch64, as a build without optimisation uses them: they
take the lowest five bits of the count, and the bit is outside the byte. -/
def NegShift.unoptimised : NegShift where
  test _ _ := false
  set _ b := (b, 1)
  clear _ b := (b, 0)

/-- `data` is empty when the C pointer is `NULL`; `nAlloc` is its length. -/
structure Bitmap where
  data : List UInt8
  nSet : Int
  negShift : NegShift := .unoptimised

namespace Bitmap

/-- The bitmap of a zeroed structure, and after `bitmapFree`. -/
def null : Bitmap := { data := [], nSet := 0 }

/-- A bitmap with these bytes. -/
def ofBytes (data : List UInt8) (nSet : Int) : Bitmap := { data := data, nSet := nSet }

def nAlloc (bm : Bitmap) : Nat := bm.data.length

/-- `data[byteIdx]`, read as zero past the allocated bytes. -/
def byte (bm : Bitmap) (byteIdx : Nat) : UInt8 := bm.data[byteIdx]?.getD 0

/-- Bit `i`, clear past the allocated bytes. -/
def bit (bm : Bitmap) (i : Nat) : Bool := (bm.byte (i / 8)).toBitVec.getLsbD (i % 8)

end Bitmap

/-- `1 << bitIdx`, as far as it is in a byte. -/
def bitMask (bitIdx : Nat) : UInt8 := ⟨BitVec.twoPow 8 bitIdx⟩

/-- Number of bytes needed for a bitmap covering `fileSize / pageSize` pages. -/
def bitmapSize (fileSize pageSize : Nat) : Int :=
  if fileSize = 0 ∨ pageSize = 0 then 0
  else (cInt (cInt ((fileSize + pageSize - 1) / pageSize : Nat) + 7)).tdiv 8

namespace Bitmap

/-- `pageIdx / 8`, C division. -/
def byteIdx (pageIdx : Int) : Nat := (pageIdx.tdiv 8).toNat

/-- `pageIdx % 8`; the remainder of a negative index is negative. -/
def bitIdx (pageIdx : Int) : Int := pageIdx.tmod 8

/-- The bit of page `pageIdx` is set in its byte. -/
def testIn (bm : Bitmap) (pageIdx : Int) : Bool :=
  match bitIdx pageIdx with
  | .ofNat n => (bm.byte (byteIdx pageIdx) &&& bitMask n) != 0
  | n => bm.negShift.test n (bm.byte (byteIdx pageIdx))

/-- Another byte of page `pageIdx`, and a change of the count. -/
def putByte (bm : Bitmap) (pageIdx : Int) (x : UInt8 × Int) : Bitmap :=
  { bm with data := bm.data.set (byteIdx pageIdx) x.1, nSet := bm.nSet + x.2 }

/-- The byte of page `pageIdx` is allocated. -/
def inRange (bm : Bitmap) (pageIdx : Int) : Bool :=
  bm.data ≠ [] ∧ 0 ≤ pageIdx.tdiv 8 ∧ pageIdx.tdiv 8 < bm.nAlloc

end Bitmap

open Bitmap

def bitmapTestBit (bm : Bitmap) (pageIdx : Int) : Bool :=
  bm.inRange pageIdx && bm.testIn pageIdx

def bitmapSetBit (bm : Bitmap) (pageIdx : Int) : Bitmap :=
  if !bm.inRange pageIdx then bm
  else match bitIdx pageIdx with
  | .ofNat n =>
    if !bm.testIn pageIdx then bm.putByte pageIdx (bm.byte (byteIdx pageIdx) ||| bitMask n, 1)
    else bm
  | n => bm.putByte pageIdx (bm.negShift.set n (bm.byte (byteIdx pageIdx)))

def bitmapClearBit (bm : Bitmap) (pageIdx : Int) : Bitmap :=
  if !bm.inRange pageIdx then bm
  else match bitIdx pageIdx with
  | .ofNat n =>
    if bm.testIn pageIdx then bm.putByte pageIdx (bm.byte (byteIdx pageIdx) &&& ~~~bitMask n, -1)
    else bm
  | n => bm.putByte pageIdx (bm.negShift.clear n (bm.byte (byteIdx pageIdx)))

def bitmapClearAll (bm : Bitmap) : Bitmap :=
  { bm with data := bm.data.map fun _ => 0, nSet := 0 }

/-- Set all bits for the first `nPages` pages. The bits of later bytes stay. -/
def bitmapSetAll (bm : Bitmap) (nPages : Int) : Bitmap :=
  if bm.data = [] then bm
  else
    let fullBytes := min (nPages.tdiv 8) bm.nAlloc
    let remainBits := nPages.tmod 8
    let data := bm.data.mapIdx fun k b => if (k : Int) < fullBytes then 0xFF else b
    { bm with
      data :=
        if 0 < remainBits ∧ 0 ≤ fullBytes ∧ fullBytes < bm.nAlloc
        then data.set fullBytes.toNat (bitMask remainBits.toNat - 1) else data
      nSet := nPages }

/-- The loop of `bitmapSetRange`: it stops at the first index out of range. -/
def bitmapSetFrom : Bitmap → Int → Nat → Bitmap
  | bm, _, 0 => bm
  | bm, i, n + 1 => if bm.inRange i then bitmapSetFrom (bitmapSetBit bm i) (i + 1) n else bm

/-- Set bits for the page range `[startPage, endPage)`. -/
def bitmapSetRange (bm : Bitmap) (startPage endPage : Int) : Bitmap :=
  bitmapSetFrom bm startPage (endPage - startPage).toNat

def bitmapHasAny (bm : Bitmap) : Bool := bm.data.any (· != 0)

/-- Grow a bitmap to cover `fileSize / pageSize` pages; the new bytes are zero. -/
def bitmapEnsureCapacity (bm : Bitmap) (fileSize pageSize : Nat) : Prog (Bitmap × Rc) :=
  let needed := bitmapSize fileSize pageSize
  if needed ≤ 0 then return (bm, .ok)
  else if needed ≤ bm.nAlloc then return (bm, .ok)
  else do
    let m ← sys (.malloc needed.toNat)
    if !m.ok then return (bm, .nomem)
    else return ({ bm with data := bm.data ++ List.replicate (needed.toNat - bm.nAlloc) 0 }, .ok)

/-! ## The bits -/

namespace Bitmap

variable {bm : Bitmap} {i j : Nat}

theorem tdiv_natCast (i : Nat) : (i : Int).tdiv 8 = ((i / 8 : Nat) : Int) := by
  rw [Int.tdiv_eq_ediv_of_nonneg (by omega)]
  omega

@[simp] theorem byteIdx_natCast (i : Nat) : byteIdx i = i / 8 := by
  rw [byteIdx, tdiv_natCast, Int.toNat_natCast]

@[simp] theorem bitIdx_natCast (i : Nat) : bitIdx i = .ofNat (i % 8) := by
  rw [bitIdx, Int.tmod_eq_emod_of_nonneg (by omega), Int.ofNat_eq_natCast]
  omega

theorem testIn_natCast (bm : Bitmap) (i : Nat) :
    bm.testIn i = ((bm.byte (i / 8) &&& bitMask (i % 8)) != 0) := by
  unfold testIn
  rw [byteIdx_natCast, bitIdx_natCast]

theorem inRange_natCast (bm : Bitmap) (i : Nat) :
    bm.inRange i = decide (i / 8 < bm.nAlloc) := by
  unfold inRange
  rw [tdiv_natCast, decide_eq_decide]
  constructor
  · rintro ⟨-, -, h⟩
    omega
  · intro h
    refine ⟨fun h0 => ?_, by omega, by omega⟩
    simp [nAlloc, h0] at h

theorem and_bitMask_eq_zero (b : UInt8) {k : Nat} (hk : k < 8) :
    b &&& bitMask k = 0 ↔ b.toBitVec.getLsbD k = false := by
  rw [← UInt8.toBitVec_inj]
  simp only [bitMask, UInt8.toBitVec_and, UInt8.toBitVec_zero, BitVec.and_twoPow]
  split
  · next h =>
    simp only [h, Bool.true_eq_false, iff_false]
    intro h0
    have := congrArg (·.getLsbD k) h0
    simp [hk] at this
  · next h => simpa using h

/-- A page's bit is read off its byte by masking. -/
theorem testIn_eq (bm : Bitmap) (i : Nat) : bm.testIn i = bm.bit i := by
  have hmask : bm.byte (i / 8) &&& bitMask (i % 8) = 0 ↔ bm.bit i = false :=
    and_bitMask_eq_zero _ (Nat.mod_lt i (by omega))
  rw [testIn_natCast]
  cases hb : bm.bit i with
  | false => rw [hmask.mpr hb, bne_self_eq_false]
  | true =>
    refine bne_iff_ne.mpr fun h0 => ?_
    rw [hmask.mp h0] at hb
    cases hb

theorem bit_eq_false_of_le (h : bm.nAlloc ≤ i / 8) : bm.bit i = false := by
  unfold bit byte
  rw [List.getElem?_eq_none h]
  simp

/-- The bits are in the bytes. -/
theorem bit_congr {bm bm' : Bitmap} (h : bm.data = bm'.data) (j : Nat) : bm.bit j = bm'.bit j := by
  unfold bit byte
  rw [h]

theorem lt_of_bit (h : bm.bit i = true) : i / 8 < bm.nAlloc := by
  by_contra hn
  rw [bit_eq_false_of_le (by omega)] at h
  exact Bool.noConfusion h

theorem testBit_eq (bm : Bitmap) (i : Nat) : bitmapTestBit bm i = bm.bit i := by
  unfold bitmapTestBit
  rw [inRange_natCast, testIn_eq]
  cases hb : bm.bit i with
  | false => rw [Bool.and_false]
  | true => rw [decide_eq_true (lt_of_bit hb), Bool.true_and]

/-- The byte array after one byte was replaced. -/
theorem byte_set (bm : Bitmap) {k l : Nat} (hk : k < bm.nAlloc) (b : UInt8) (n : Int) :
    byte { bm with data := bm.data.set k b, nSet := n } l = if l = k then b else bm.byte l := by
  unfold byte
  rw [List.getElem?_set]
  by_cases h : l = k
  · subst h
    simp [show l < bm.data.length from hk]
  · simp [h, Ne.symm h]

/-- The mask of page `i` meets, in the byte of page `j`, only the bit of `i`. -/
theorem getLsbD_bitMask (h : j / 8 = i / 8) :
    (bitMask (i % 8)).toBitVec.getLsbD (j % 8) = decide (j = i) := by
  have hm : (i % 8 = j % 8) ↔ j = i := by omega
  have hj : j % 8 < 8 := Nat.mod_lt _ (by omega)
  simp only [bitMask, BitVec.getLsbD_twoPow, Nat.mod_lt _ (by omega : 0 < 8), decide_true,
    Bool.true_and, hm]

/-- The bits after the byte of page `i` was replaced. -/
theorem bit_putByte (bm : Bitmap) {i : Nat} (h : i / 8 < bm.nAlloc) (x : UInt8 × Int) (j : Nat) :
    (bm.putByte i x).bit j =
      if j / 8 = i / 8 then x.1.toBitVec.getLsbD (j % 8) else bm.bit j := by
  unfold bit putByte
  rw [byteIdx_natCast, byte_set bm h]
  split
  · rfl
  · rfl

@[simp] theorem nAlloc_putByte (bm : Bitmap) (i : Int) (x : UInt8 × Int) :
    (bm.putByte i x).nAlloc = bm.nAlloc := by
  simp [putByte, nAlloc]

/-- What setting the bit of a page does. -/
theorem setBit_natCast (bm : Bitmap) (i : Nat) : bitmapSetBit bm i =
    if i / 8 < bm.nAlloc ∧ bm.bit i = false then
      bm.putByte i (bm.byte (i / 8) ||| bitMask (i % 8), 1)
    else bm := by
  unfold bitmapSetBit
  rw [inRange_natCast, testIn_eq, byteIdx_natCast, bitIdx_natCast]
  by_cases h : i / 8 < bm.nAlloc
  · cases hb : bm.bit i with
    | false => simp [h]
    | true => simp [h]
  · simp [h]

/-- Setting a bit in range sets that bit and no other. -/
theorem bit_setBit (bm : Bitmap) (i j : Nat) :
    (bitmapSetBit bm i).bit j = (bm.bit j || (decide (j = i) && decide (i / 8 < bm.nAlloc))) := by
  rw [setBit_natCast]
  split
  · next h =>
    rw [bit_putByte bm h.1, decide_eq_true h.1, Bool.and_true]
    by_cases hq : j / 8 = i / 8
    · rw [if_pos hq, UInt8.toBitVec_or, BitVec.getLsbD_or, getLsbD_bitMask hq, bit, hq]
    · have hji : j ≠ i := fun e => hq (by rw [e])
      simp [hq, hji]
  · next h =>
    by_cases hji : j = i
    · subst hji
      cases hb : bm.bit j with
      | true => simp
      | false =>
        have hout : ¬ j / 8 < bm.nAlloc := fun hlt => h ⟨hlt, hb⟩
        simp [hout]
    · simp [hji]

/-- A bitmap that was never allocated stays as it is. -/
theorem setBit_null (h : bm.data = []) (i : Int) : bitmapSetBit bm i = bm := by
  unfold bitmapSetBit inRange
  simp [h]

@[simp] theorem nAlloc_setBit (bm : Bitmap) (i : Int) :
    (bitmapSetBit bm i).nAlloc = bm.nAlloc := by
  unfold bitmapSetBit
  split
  · rfl
  split
  · split
    · exact nAlloc_putByte bm i _
    · rfl
  · exact nAlloc_putByte bm i _

/-- What clearing the bit of a page does. -/
theorem clearBit_natCast (bm : Bitmap) (i : Nat) : bitmapClearBit bm i =
    if bm.bit i = true then bm.putByte i (bm.byte (i / 8) &&& ~~~bitMask (i % 8), -1) else bm := by
  unfold bitmapClearBit
  rw [inRange_natCast, testIn_eq, byteIdx_natCast, bitIdx_natCast]
  cases hb : bm.bit i with
  | false => simp
  | true => simp [lt_of_bit hb]

/-- Clearing a bit clears that bit and no other. -/
theorem bit_clearBit (bm : Bitmap) (i j : Nat) :
    (bitmapClearBit bm i).bit j = (bm.bit j && !decide (j = i)) := by
  rw [clearBit_natCast]
  split
  · next hb =>
    rw [bit_putByte bm (lt_of_bit hb)]
    by_cases hq : j / 8 = i / 8
    · rw [if_pos hq, UInt8.toBitVec_and, BitVec.getLsbD_and, UInt8.toBitVec_not,
        BitVec.getLsbD_not, getLsbD_bitMask hq, bit, hq]
      simp [Nat.mod_lt]
    · have hji : j ≠ i := fun e => hq (by rw [e])
      simp [hq, hji]
  · next hb =>
    by_cases hji : j = i
    · rw [hji, Bool.eq_false_iff.mpr hb, Bool.false_and]
    · simp [hji]

@[simp] theorem nAlloc_clearBit (bm : Bitmap) (i : Int) :
    (bitmapClearBit bm i).nAlloc = bm.nAlloc := by
  unfold bitmapClearBit
  split
  · rfl
  split
  · split
    · exact nAlloc_putByte bm i _
    · rfl
  · exact nAlloc_putByte bm i _

@[simp] theorem bit_clearAll (bm : Bitmap) (j : Nat) : (bitmapClearAll bm).bit j = false := by
  unfold bit byte bitmapClearAll
  rw [List.getElem?_map]
  rcases bm.data[j / 8]? with _ | _ <;> simp

@[simp] theorem nAlloc_clearAll (bm : Bitmap) : (bitmapClearAll bm).nAlloc = bm.nAlloc := by
  simp [bitmapClearAll, nAlloc]

@[simp] theorem nSet_clearAll (bm : Bitmap) : (bitmapClearAll bm).nSet = 0 := rfl

@[simp] theorem bit_null (j : Nat) : null.bit j = false :=
  bit_eq_false_of_le (by simp [null, nAlloc])

/-- The bitmap after it has been grown to `n` bytes. -/
def grow (bm : Bitmap) (n : Nat) : Bitmap :=
  { bm with data := bm.data ++ List.replicate (n - bm.nAlloc) 0 }

theorem bit_grow (bm : Bitmap) (n j : Nat) : (bm.grow n).bit j = bm.bit j := by
  unfold bit byte grow
  congr 2
  rw [List.getElem?_append]
  split
  · rfl
  · next h =>
    rw [List.getElem?_eq_none (l := bm.data) (by omega), List.getElem?_replicate]
    split <;> rfl

theorem nAlloc_grow (bm : Bitmap) (n : Nat) : (bm.grow n).nAlloc = max bm.nAlloc n := by
  simp only [nAlloc, grow, List.length_append, List.length_replicate]
  omega

/-- The loop of `bitmapSetRange` sets the bits from `i` on, as far as the bitmap
reaches. -/
theorem bit_setFrom (n : Nat) : ∀ (bm : Bitmap) (i j : Nat),
    (bitmapSetFrom bm i n).bit j =
      (bm.bit j || (decide (i ≤ j ∧ j < i + n) && decide (j / 8 < bm.nAlloc))) := by
  induction n with
  | zero =>
    intro bm i j
    simp [bitmapSetFrom]
  | succ n ih =>
    intro bm i j
    unfold bitmapSetFrom
    rw [inRange_natCast]
    by_cases h : i / 8 < bm.nAlloc
    · simp only [h, decide_true, if_true]
      have hcast : (i : Int) + 1 = ((i + 1 : Nat) : Int) := by omega
      rw [hcast, ih, bit_setBit, nAlloc_setBit]
      by_cases hji : j = i
      · subst hji
        simp [h]
      · have : (i + 1 ≤ j ∧ j < i + 1 + n) ↔ (i ≤ j ∧ j < i + (n + 1)) := by omega
        rw [decide_eq_false hji, decide_eq_decide.mpr this, Bool.false_and, Bool.or_false]
    · have : ¬ ((i ≤ j ∧ j < i + (n + 1)) ∧ j / 8 < bm.nAlloc) := by
        intro hh
        have := Nat.div_le_div_right (c := 8) hh.1.1
        omega
      simp only [h, decide_false, Bool.false_eq_true, if_false]
      rw [← Bool.decide_and, decide_eq_false this, Bool.or_false]

theorem bit_setRange (bm : Bitmap) (s e j : Nat) :
    (bitmapSetRange bm s e).bit j =
      (bm.bit j || (decide (s ≤ j ∧ j < e) && decide (j / 8 < bm.nAlloc))) := by
  unfold bitmapSetRange
  rw [bit_setFrom]
  have : (s ≤ j ∧ j < s + ((e : Int) - (s : Int)).toNat) ↔ (s ≤ j ∧ j < e) := by omega
  simp only [this]

@[simp] theorem nAlloc_setFrom (n : Nat) : ∀ (bm : Bitmap) (i : Int),
    (bitmapSetFrom bm i n).nAlloc = bm.nAlloc := by
  induction n with
  | zero => exact fun _ _ => rfl
  | succ n ih =>
    intro bm i
    unfold bitmapSetFrom
    split
    · rw [ih, nAlloc_setBit]
    · rfl

@[simp] theorem nAlloc_setRange (bm : Bitmap) (s e : Int) :
    (bitmapSetRange bm s e).nAlloc = bm.nAlloc :=
  nAlloc_setFrom _ bm s

theorem nAlloc_setAll (bm : Bitmap) (n : Int) : (bitmapSetAll bm n).nAlloc = bm.nAlloc := by
  unfold bitmapSetAll
  split
  · rfl
  · dsimp only
    split <;> simp [nAlloc]

/-- A zero count means an empty bitmap. The dirty bitmap keeps this. -/
structure Counted (bm : Bitmap) : Prop where
  nonneg : 0 ≤ bm.nSet
  none_of_zero : bm.nSet = 0 → ∀ j, bm.bit j = false

theorem counted_clearAll (bm : Bitmap) : Counted (bitmapClearAll bm) :=
  ⟨by simp, fun _ => bit_clearAll bm⟩

theorem Counted.setBit (h : Counted bm) (i : Nat) : Counted (bitmapSetBit bm i) := by
  have h0 := h.nonneg
  rw [setBit_natCast]
  split
  · have hone : (bm.putByte i (bm.byte (i / 8) ||| bitMask (i % 8), 1)).nSet = bm.nSet + 1 := rfl
    exact ⟨by omega, fun hz => by omega⟩
  · exact h

end Bitmap

/-- Enough bytes for every page, as long as the page count fits. -/
theorem bitmapSize_of_le {fileSize pageSize : Nat} (hp : 0 < pageSize)
    (h : (fileSize + pageSize - 1) / pageSize ≤ 2 ^ 31 - 8) :
    bitmapSize fileSize pageSize = (((fileSize + pageSize - 1) / pageSize + 7) / 8 : Nat) := by
  unfold bitmapSize
  by_cases hf : fileSize = 0
  · subst hf
    rw [if_pos (Or.inl rfl), Nat.div_eq_of_lt (by omega : 0 + pageSize - 1 < pageSize)]
    rfl
  · rw [if_neg (by omega)]
    generalize (fileSize + pageSize - 1) / pageSize = q at h
    rw [cInt_of_lt (by omega), show (q : Int) + 7 = ((q + 7 : Nat) : Int) by omega,
      cInt_of_lt (by omega), tdiv_natCast]

end SqliteObjs
