import SqliteObjs.MainDb.Prefetch

/-!
# Page indices as C integers

Every helper of the bitmaps narrows a 64-bit quotient to an `int`. SQLite allows 4294967294
pages and the service 8 TiB, and with pages of 4096 bytes or less both allow more pages than an
`int` counts. From there on `bitmapSize` is not positive, so that the capacity check succeeds
without any capacity.
-/

set_option autoImplicit false

namespace SqliteObjs

open Data

/-- The sizes that SQLite and the service allow a file with pages of `ps` bytes. -/
structure AllowedSize (n ps : Nat) : Prop where
  pages : n ≤ 4294967294 * ps
  blob : n ≤ 2 ^ 43

theorem AllowedSize.pagesOf_le {n ps : Nat} (h : AllowedSize n ps) (hps : 0 < ps) :
    pagesOf n ps ≤ 4294967294 :=
  (pagesOf_le_iff hps).mpr h.pages

/-- The pages of a file of `n` bytes are counted and found exactly: the bitmap has a bit for each
of them, a mark goes to the page it is for, and the scans reach every page. -/
structure ExactPages (n ps : Nat) : Prop where
  size : bitmapSize n ps = ((pagesOf n ps + 7) / 8 : Nat)
  capacity : (pagesOf n ps : Int) ≤ bitmapSize n ps * 8
  count : ∀ m ≤ n, pageCount m ps = pagesOf m ps
  dirtyMark : ∀ p : ObjsFile, p.pageSize = ps → bitmapSize n ps ≤ p.dirty.nAlloc →
    ∀ offset < n, ∀ k, (dirtyMarkPage p offset).dirty.bit k =
      (p.dirty.bit k || decide (k = offset / ps))
  validMark : ∀ p : ObjsFile, p.pageSize = ps → bitmapSize n ps ≤ p.valid.nAlloc →
    ∀ s e, s ≤ e → e ≤ n → ∀ k, (validMarkRange p s e).valid.bit k =
      (p.valid.bit k || decide (s / ps ≤ k ∧ k < pagesOf e ps))
  flushed : ∀ p : ObjsFile, p.pageSize = ps → p.nData = n → p.dirty.Counted →
    ∀ (maxRanges : Nat) (rs : List (Nat × Nat)), coalesceDirtyRanges p maxRanges = some rs →
      ∀ k < pagesOf n ps, p.dirty.bit k = true → ∃ r ∈ rs, Range.Has r (k * ps)
  prefetched : ∀ p : ObjsFile, p.pageSize = ps → p.nData = n → bitmapSize n ps ≤ p.valid.nAlloc →
    ∀ k < pagesOf n ps, p.valid.bit k = false → InRuns (prefetchRuns p) k

/-! ## Where the counts fit -/

section Fits

variable {n ps : Nat}

/-- The byte of a page is allocated when the bitmap has the size computed for it. -/
theorem lt_nAlloc_of_bitmapSize {a k : Nat} (hps : 0 < ps) (h : pagesOf n ps ≤ maxPages)
    (hroom : bitmapSize n ps ≤ a) (hk : k < pagesOf n ps) : k / 8 < a := by
  have hpages := room_of_bitmapSize hps h hroom
  omega

theorem div_lt_of_maxPages {offset : Nat} (hps : 0 < ps) (h : pagesOf n ps ≤ maxPages)
    (hoffset : offset < n) : offset / ps < 2 ^ 31 := by
  have hlt := div_lt_pagesOf hps hoffset
  unfold maxPages at h
  omega

/-- A range of the file ends in the file. -/
theorem div_le_pagesOf {s : Nat} (hps : 0 < ps) (hs : s ≤ n) : s / ps ≤ pagesOf n ps := by
  unfold pagesOf
  exact Nat.div_le_div_right (by omega)

theorem bit_dirtyMarkPage {p : ObjsFile} (hps : 0 < p.pageSize)
    (h : pagesOf n p.pageSize ≤ maxPages)
    (hroom : bitmapSize n p.pageSize ≤ p.dirty.nAlloc) {offset : Nat} (hoffset : offset < n)
    (k : Nat) : (dirtyMarkPage p offset).dirty.bit k =
      (p.dirty.bit k || decide (k = offset / p.pageSize)) := by
  have hbyte := lt_nAlloc_of_bitmapSize hps h hroom (div_lt_pagesOf hps hoffset)
  unfold dirtyMarkPage
  rw [if_neg (Nat.ne_of_gt hps), cInt_of_lt (div_lt_of_maxPages hps h hoffset)]
  dsimp only
  rw [Bitmap.bit_setBit, decide_eq_true hbyte, Bool.and_true]

theorem bit_validMarkRange_file {p : ObjsFile} (hps : 0 < p.pageSize)
    (h : pagesOf n p.pageSize ≤ maxPages) (hroom : bitmapSize n p.pageSize ≤ p.valid.nAlloc)
    {s e : Nat} (hse : s ≤ e) (he : e ≤ n) (k : Nat) : (validMarkRange p s e).valid.bit k =
      (p.valid.bit k || decide (s / p.pageSize ≤ k ∧ k < pagesOf e p.pageSize)) := by
  have hpages : pagesOf e p.pageSize ≤ pagesOf n p.pageSize := pagesOf_mono he
  have hstart := div_le_pagesOf hps hse
  have hmax : maxPages < 2 ^ 31 := by decide
  rw [bit_validMarkRange_of_lt hps (by omega) (by omega)]
  by_cases hk : s / p.pageSize ≤ k ∧ k < pagesOf e p.pageSize
  · have hbyte := lt_nAlloc_of_bitmapSize hps h hroom (show k < pagesOf n p.pageSize by omega)
    rw [decide_eq_true hbyte, Bool.and_true]
  · rw [decide_eq_false hk, Bool.false_and]

/-- Every dirty page is in a range. -/
theorem mem_coalesceDirtyRanges {p : ObjsFile} (hps : LegalPageSize p.pageSize)
    (h : pagesOf p.nData p.pageSize ≤ maxPages) (hc : p.dirty.Counted) {maxRanges : Nat}
    {rs : List (Nat × Nat)} (hrs : coalesceDirtyRanges p maxRanges = some rs) {k : Nat}
    (hk : k < pagesOf p.nData p.pageSize) (hbit : p.dirty.bit k = true) :
    ∃ r ∈ rs, Range.Has r (k * p.pageSize) := by
  have hspec := coalesceDirtyRanges_spec hps hc maxRanges
  rw [hrs, pageCount_eq h, Int.toNat_natCast] at hspec
  apply (hspec.1.mem_iff _).mp
  -- the first byte of the page is in the file
  have hlt := mul_lt_of_lt_pagesOf hps.pos hk
  have hle := le_align512 p.nData
  unfold dirtyBytes
  rw [Set.mem_ofPred_eq, Nat.mul_div_cancel _ hps.pos]
  exact ⟨hk, hbit, by omega⟩

theorem exactPages_of_le (hps : LegalPageSize ps) (h : pagesOf n ps ≤ maxPages) :
    ExactPages n ps where
  size := bitmapSize_of_le hps.pos h
  capacity := by
    rw [bitmapSize_of_le hps.pos h]
    unfold pagesOf
    omega
  count m hm := pageCount_eq (Nat.le_trans (pagesOf_mono hm) h)
  dirtyMark p hpage hroom offset hoffset k := by
    subst hpage
    exact bit_dirtyMarkPage hps.pos h hroom hoffset k
  validMark p hpage hroom s e hse he k := by
    subst hpage
    exact bit_validMarkRange_file hps.pos h hroom hse he k
  flushed p hpage hn hc maxRanges rs hrs k hk hbit := by
    subst hpage hn
    exact mem_coalesceDirtyRanges hps h hc hrs hk hbit
  prefetched p hpage hn hroom k hk hbit := by
    subst hpage hn
    have hbyte := lt_nAlloc_of_bitmapSize hps.pos h hroom hk
    exact inRuns_of_hole ⟨hk, hbit⟩ (by rw [pageCount_eq h, Int.toNat_natCast]; exact hk) hbyte

end Fits

/-! ## Where they wrap -/

/-- From 2^31 - 7 pages on no byte is computed for a bitmap. -/
theorem bitmapSize_nonpos {n ps : Nat} (h : maxPages < pagesOf n ps)
    (hle : pagesOf n ps ≤ 4294967294) : bitmapSize n ps ≤ 0 := by
  unfold bitmapSize
  split
  · exact Int.le_refl 0
  · unfold pagesOf maxPages at *
    generalize (n + ps - 1) / ps = q at *
    have hsum : cInt (cInt q + 7) ≤ 5 := by
      unfold cInt
      rw [Int.bmod_def, Int.bmod_def]
      split <;> split <;> omega
    generalize cInt (cInt q + 7) = x at hsum
    exact Int.le_trans (Int.tdiv_le_tdiv (by decide) hsum) (by decide)

/-- Where nothing is computed for the bitmap, the capacity check succeeds as it is. -/
theorem bitmapEnsureCapacity_of_nonpos (bm : Bitmap) {n ps : Nat} (h : bitmapSize n ps ≤ 0) :
    bitmapEnsureCapacity bm n ps = .ret (bm, .ok) := by
  unfold bitmapEnsureCapacity
  exact if_pos h

/-- Among the sizes that are allowed, pages are counted and found exactly up to 2^31 - 8 of
them. -/
theorem exact_pages_iff {n ps : Nat} (hps : LegalPageSize ps) (hn : AllowedSize n ps) :
    ExactPages n ps ↔ pagesOf n ps ≤ 2 ^ 31 - 8 := by
  constructor
  · intro h
    by_contra hgt
    have hwrap := bitmapSize_nonpos (Nat.lt_of_not_le hgt) (hn.pagesOf_le hps.pos)
    have hcapacity := h.capacity
    omega
  · exact exactPages_of_le hps

/-- A file of one gibibyte. -/
theorem exact_pages_gib : ExactPages (2 ^ 30) 4096 :=
  (exact_pages_iff ⟨by decide, by decide, 12, rfl⟩ ⟨by decide, by decide⟩).mpr (by decide)

/-- With pages of 4096 bytes a file of 8 TiB has one page more than an `int` counts. The capacity
check accepts a bitmap without bytes, the mark of a write is dropped, and a dirty page is in no
range. -/
theorem exact_pages_wrap :
    LegalPageSize 4096 ∧ AllowedSize (2 ^ 43) 4096 ∧ ¬ ExactPages (2 ^ 43) 4096 ∧
    bitmapSize (2 ^ 43) 4096 = -268435455 ∧
    bitmapEnsureCapacity .null (2 ^ 43) 4096 = .ret (.null, .ok) ∧
    (dirtyMarkPage (fileWith 4096 (2 ^ 43) .null) 0).dirty = .null ∧
    coalesceDirtyRanges (fileWith 4096 (2 ^ 43) (.ofBytes [1] 1)) 64 = some [] := by
  have hsize : bitmapSize (2 ^ 43) 4096 = -268435455 := by decide +kernel
  refine ⟨⟨by decide, by decide, 12, rfl⟩, ⟨by decide, by decide⟩, fun h => ?_, hsize, ?_, ?_,
    by decide +kernel⟩
  · have hcapacity := h.capacity
    rw [hsize] at hcapacity
    omega
  · exact bitmapEnsureCapacity_of_nonpos .null (by rw [hsize]; decide)
  · unfold dirtyMarkPage
    rw [if_neg (by decide)]
    exact Bitmap.setBit_null (show Bitmap.null.data = [] from rfl) (cInt (0 / 4096 : Nat))

end SqliteObjs
