import SqliteObjs.Vfs.Lock

/-!
# A cache file and its blob

`Mirror` is the invariant of a database whose cache file holds every page: away from
the dirty pages the cache and the blob agree, the blob is at least as long as the
last synced size and at most as long as the file, and a file that is longer than its
blob has its last page dirty. The operations on the three pieces of state (the file's
record, the cache file, the blob) keep it; all of this is about data, no request is
made here.

The C code keeps page numbers in an `int`. `Mirror.small` is the bound up to which
page numbers and bitmap sizes are what they should be.
-/

set_option autoImplicit false

namespace SqliteObjs

open Data

/-! ## Pages -/

/-- The number of pages of `n` bytes. -/
def pagesOf (n pageSize : Nat) : Nat := (n + pageSize - 1) / pageSize

/-- Up to this many pages the `int` arithmetic of the bitmaps is exact. -/
def maxPages : Nat := 2 ^ 31 - 8

section Pages

variable {n m j k ps : Nat}

theorem div_lt_pagesOf (hps : 0 < ps) (h : j < n) : j / ps < pagesOf n ps := by
  unfold pagesOf
  rw [Nat.div_lt_iff_lt_mul hps]
  have hdiv := Nat.div_add_mod (n + ps - 1) ps
  have hmod := Nat.mod_lt (n + ps - 1) hps
  rw [Nat.mul_comm] at hdiv
  omega

theorem mul_lt_of_lt_pagesOf (hps : 0 < ps) (h : k < pagesOf n ps) : k * ps < n := by
  unfold pagesOf at h
  have h' : (k + 1) * ps ≤ n + ps - 1 := (Nat.le_div_iff_mul_le hps).mp h
  rw [Nat.succ_mul] at h'
  omega

theorem pagesOf_le_iff (hps : 0 < ps) : pagesOf n ps ≤ k ↔ n ≤ k * ps := by
  constructor
  · intro h
    by_contra hlt
    have := div_lt_pagesOf hps (n := n) (j := k * ps) (by omega)
    rw [Nat.mul_div_cancel _ hps] at this
    omega
  · intro h
    by_contra hlt
    have := mul_lt_of_lt_pagesOf hps (n := n) (k := k) (by omega)
    omega

theorem pagesOf_mono (h : n ≤ m) : pagesOf n ps ≤ pagesOf m ps :=
  Nat.div_le_div_right (by omega)

theorem cInt_of_le_maxPages (h : n ≤ maxPages) : cInt n = n :=
  cInt_of_lt (by unfold maxPages at h; omega)

theorem pageCount_eq (h : pagesOf n ps ≤ maxPages) : pageCount n ps = pagesOf n ps :=
  cInt_of_le_maxPages h

end Pages

/-! ## Marking -/

section Marks

variable {p : ObjsFile}

/-- What marking pages leaves alone. -/
structure OnlyMarks (p p' : ObjsFile) : Prop where
  eq : p' = { p with dirty := p'.dirty, valid := p'.valid }
  nAlloc : p'.dirty.nAlloc = p.dirty.nAlloc

theorem OnlyMarks.refl (p : ObjsFile) : OnlyMarks p p := ⟨rfl, rfl⟩

theorem OnlyMarks.trans {p p' p'' : ObjsFile} (h : OnlyMarks p p') (h' : OnlyMarks p' p'') :
    OnlyMarks p p'' := by
  refine ⟨?_, h'.nAlloc.trans h.nAlloc⟩
  rw [h'.eq, h.eq]

theorem OnlyMarks.pageSize {p p' : ObjsFile} (h : OnlyMarks p p') : p'.pageSize = p.pageSize := by
  rw [h.eq]

theorem OnlyMarks.nData {p p' : ObjsFile} (h : OnlyMarks p p') : p'.nData = p.nData := by
  rw [h.eq]

theorem OnlyMarks.lastSyncedSize {p p' : ObjsFile} (h : OnlyMarks p p') :
    p'.lastSyncedSize = p.lastSyncedSize := by
  rw [h.eq]

/-- One round of `markWritten`. -/
def markOne (p : ObjsFile) (pageStart : Nat) : ObjsFile :=
  let p := dirtyMarkPage p pageStart
  if p.valid.data ≠ [] then validMarkPage p pageStart else p

theorem markOne_spec {k : Nat} (hps : 0 < p.pageSize) (hk : k < maxPages) :
    OnlyMarks p (markOne p (k * p.pageSize)) ∧
    (markOne p (k * p.pageSize)).dirty = bitmapSetBit p.dirty k ∧
    (markOne p (k * p.pageSize)).valid = bitmapSetBit p.valid k := by
  have hne : p.pageSize ≠ 0 := by omega
  have hcast : cInt (k * p.pageSize / p.pageSize : Nat) = k := by
    rw [Nat.mul_div_cancel _ hps]
    exact cInt_of_le_maxPages (by omega)
  have hdirty : dirtyMarkPage p (k * p.pageSize) = { p with dirty := bitmapSetBit p.dirty k } := by
    unfold dirtyMarkPage
    rw [if_neg hne, hcast]
  unfold markOne
  dsimp only
  rw [hdirty]
  split
  · unfold validMarkPage
    rw [if_neg hne, hcast]
    exact ⟨⟨rfl, Bitmap.nAlloc_setBit _ _⟩, rfl, rfl⟩
  · next hnull =>
    refine ⟨⟨rfl, Bitmap.nAlloc_setBit _ _⟩, rfl, ?_⟩
    exact (Bitmap.setBit_null (by simpa using hnull) k).symm

theorem onlyMarks_markOne (p : ObjsFile) (pageStart : Nat) : OnlyMarks p (markOne p pageStart) := by
  unfold markOne dirtyMarkPage validMarkPage
  dsimp only
  split_ifs
  · exact ⟨rfl, rfl⟩
  · exact ⟨rfl, rfl⟩
  · constructor
    · rfl
    · exact Bitmap.nAlloc_setBit p.dirty (cInt (pageStart / p.pageSize : Nat))
  · constructor
    · rfl
    · exact Bitmap.nAlloc_setBit p.dirty (cInt (pageStart / p.pageSize : Nat))

theorem onlyMarks_markWritten (n : Nat) : ∀ (p : ObjsFile) (pageStart : Nat),
    OnlyMarks p (markWritten p pageStart n) := by
  induction n with
  | zero => exact fun p _ => OnlyMarks.refl p
  | succ n ih => exact fun p pageStart => (onlyMarks_markOne p pageStart).trans (ih _ _)

theorem markWritten_succ (p : ObjsFile) (k n : Nat) : markWritten p (k * p.pageSize) (n + 1) =
    markWritten (markOne p (k * p.pageSize)) ((k + 1) * (markOne p (k * p.pageSize)).pageSize)
    n := by
  have hsucc : (k + 1) * (markOne p (k * p.pageSize)).pageSize =
      k * p.pageSize + (markOne p (k * p.pageSize)).pageSize := by
    rw [(onlyMarks_markOne p _).pageSize, Nat.succ_mul]
  rw [hsucc]
  rfl

/-- The loop marks its pages, as far as the bitmap reaches, and nothing else. -/
theorem markWritten_spec (n : Nat) : ∀ (p : ObjsFile) (k : Nat), 0 < p.pageSize →
    k + n ≤ maxPages → p.dirty.Counted →
    OnlyMarks p (markWritten p (k * p.pageSize) n) ∧
    (markWritten p (k * p.pageSize) n).dirty.Counted ∧
    ∀ j, (markWritten p (k * p.pageSize) n).dirty.bit j =
      (p.dirty.bit j || (decide (k ≤ j ∧ j < k + n) && decide (j / 8 < p.dirty.nAlloc))) := by
  induction n with
  | zero =>
    intro p k _ _ hc
    refine ⟨OnlyMarks.refl p, hc, fun j => ?_⟩
    simp [markWritten]
  | succ n ih =>
    intro p k hps hk hc
    obtain ⟨hone, hdirty, -⟩ := markOne_spec (k := k) hps (by omega)
    have hc' : (markOne p (k * p.pageSize)).dirty.Counted := by
      rw [hdirty]
      exact hc.setBit k
    obtain ⟨h₁, h₂, h₃⟩ := ih (markOne p (k * p.pageSize)) (k + 1)
      (by rw [hone.pageSize]; exact hps) (by omega) hc'
    rw [markWritten_succ]
    refine ⟨hone.trans h₁, h₂, fun j => ?_⟩
    rw [h₃ j, hone.nAlloc, hdirty, Bitmap.bit_setBit]
    by_cases hj : j = k
    · subst hj
      simp
    · have hiff : (k + 1 ≤ j ∧ j < k + 1 + n) ↔ (k ≤ j ∧ j < k + (n + 1)) := by omega
      rw [decide_eq_false hj, decide_eq_decide.mpr hiff, Bool.false_and, Bool.or_false]

/-- The loop marks the same pages valid, where validity is tracked. -/
theorem markWritten_valid (n : Nat) : ∀ (p : ObjsFile) (k : Nat), 0 < p.pageSize →
    k + n ≤ maxPages →
    (markWritten p (k * p.pageSize) n).valid.nAlloc = p.valid.nAlloc ∧
    ∀ j, (markWritten p (k * p.pageSize) n).valid.bit j =
      (p.valid.bit j || (decide (k ≤ j ∧ j < k + n) && decide (j / 8 < p.valid.nAlloc))) := by
  induction n with
  | zero =>
    intro p k _ _
    refine ⟨rfl, fun j => ?_⟩
    simp [markWritten]
  | succ n ih =>
    intro p k hps hk
    obtain ⟨hone, -, hvalid⟩ := markOne_spec (k := k) hps (by omega)
    obtain ⟨h₁, h₂⟩ := ih (markOne p (k * p.pageSize)) (k + 1)
      (by rw [hone.pageSize]; exact hps) (by omega)
    rw [markWritten_succ]
    rw [hvalid, Bitmap.nAlloc_setBit] at h₁ h₂
    refine ⟨h₁, fun j => ?_⟩
    rw [h₂ j, Bitmap.bit_setBit]
    by_cases hj : j = k
    · subst hj
      simp
    · have hiff : (k + 1 ≤ j ∧ j < k + 1 + n) ↔ (k ≤ j ∧ j < k + (n + 1)) := by omega
      rw [decide_eq_false hj, decide_eq_decide.mpr hiff, Bool.false_and, Bool.or_false]

/-- The rounds of a write go over its pages, from that of its first byte up to its end. -/
theorem written_rounds {ps iOfst fin : Nat} (hps : 0 < ps) (hle : iOfst ≤ fin)
    (hend : pagesOf fin ps ≤ maxPages) :
    iOfst / ps + (fin - iOfst / ps * ps + ps - 1) / ps ≤ maxPages ∧
    ∀ j, iOfst / ps ≤ j →
    (j < iOfst / ps + (fin - iOfst / ps * ps + ps - 1) / ps ↔ j * ps < fin) := by
  generalize hk : iOfst / ps = k
  generalize hcnt : (fin - k * ps + ps - 1) / ps = n
  have hkle : k * ps ≤ iOfst := by
    rw [← hk]
    exact Nat.div_mul_le_self _ _
  have hspan : ∀ j, k ≤ j → (j < k + n ↔ j * ps < fin) := by
    intro j hj
    have hn' : n = pagesOf (fin - k * ps) ps := hcnt.symm
    obtain ⟨d, rfl⟩ := Nat.exists_eq_add_of_le hj
    have hiff : d < n ↔ d * ps < fin - k * ps := by
      rw [hn', ← Nat.not_le, pagesOf_le_iff hps, Nat.not_le]
    rw [Nat.add_mul]
    omega
  refine ⟨?_, hspan⟩
  rcases Nat.eq_zero_or_pos n with rfl | hn
  · rw [← hk]
    refine Nat.le_trans (Nat.div_le_div_right ?_) hend
    omega
  · by_contra hgt
    -- the last page marked starts before the end of the write
    have hlast := (hspan (k + n - 1) (by omega)).mp (by omega)
    have hpage := div_lt_pagesOf hps hlast
    rw [Nat.mul_div_cancel _ hps] at hpage
    omega

/-- The marks of a write: its pages, from that of its first byte up to its end, as far
as the bitmap reaches. -/
theorem markWritten_span {q : ObjsFile} {iOfst fin : Nat} (hps : 0 < q.pageSize)
    (hle : iOfst ≤ fin) (hend : pagesOf fin q.pageSize ≤ maxPages) (hc : q.dirty.Counted) :
    OnlyMarks q (markWritten q (iOfst / q.pageSize * q.pageSize)
      ((fin - iOfst / q.pageSize * q.pageSize + q.pageSize - 1) / q.pageSize)) ∧
    (markWritten q (iOfst / q.pageSize * q.pageSize)
      ((fin - iOfst / q.pageSize * q.pageSize + q.pageSize - 1) / q.pageSize)).dirty.Counted ∧
    ∀ j, (markWritten q (iOfst / q.pageSize * q.pageSize)
      ((fin - iOfst / q.pageSize * q.pageSize + q.pageSize - 1) / q.pageSize)).dirty.bit j =
        true ↔ q.dirty.bit j = true ∨
      (iOfst / q.pageSize ≤ j ∧ j * q.pageSize < fin ∧ j / 8 < q.dirty.nAlloc) := by
  obtain ⟨hkn, hspan⟩ := written_rounds hps hle hend
  obtain ⟨honly, hcnt', hbit⟩ := markWritten_spec _ q _ hps hkn hc
  refine ⟨honly, hcnt', fun j => ?_⟩
  rw [hbit j, Bool.or_eq_true, Bool.and_eq_true, decide_eq_true_eq, decide_eq_true_eq]
  constructor
  · rintro (hj | ⟨⟨h₁, h₂⟩, h₃⟩)
    · exact Or.inl hj
    · exact Or.inr ⟨h₁, (hspan j h₁).mp h₂, h₃⟩
  · rintro (hj | ⟨h₁, h₂, h₃⟩)
    · exact Or.inl hj
    · exact Or.inr ⟨⟨h₁, (hspan j h₁).mpr h₂⟩, h₃⟩

/-- The valid marks of a write are the same pages. -/
theorem markWritten_valid_span {q : ObjsFile} {iOfst fin : Nat} (hps : 0 < q.pageSize)
    (hle : iOfst ≤ fin) (hend : pagesOf fin q.pageSize ≤ maxPages) :
    (markWritten q (iOfst / q.pageSize * q.pageSize)
      ((fin - iOfst / q.pageSize * q.pageSize + q.pageSize - 1) / q.pageSize)).valid.nAlloc =
        q.valid.nAlloc ∧
    ∀ j, (markWritten q (iOfst / q.pageSize * q.pageSize)
      ((fin - iOfst / q.pageSize * q.pageSize + q.pageSize - 1) / q.pageSize)).valid.bit j =
        true ↔ q.valid.bit j = true ∨
      (iOfst / q.pageSize ≤ j ∧ j * q.pageSize < fin ∧ j / 8 < q.valid.nAlloc) := by
  obtain ⟨hkn, hspan⟩ := written_rounds hps hle hend
  obtain ⟨halloc, hbit⟩ := markWritten_valid _ q _ hps hkn
  refine ⟨halloc, fun j => ?_⟩
  rw [hbit j, Bool.or_eq_true, Bool.and_eq_true, decide_eq_true_eq, decide_eq_true_eq]
  constructor
  · rintro (hj | ⟨⟨h₁, h₂⟩, h₃⟩)
    · exact Or.inl hj
    · exact Or.inr ⟨h₁, (hspan j h₁).mp h₂, h₃⟩
  · rintro (hj | ⟨h₁, h₂, h₃⟩)
    · exact Or.inl hj
    · exact Or.inr ⟨⟨h₁, (hspan j h₁).mpr h₂⟩, h₃⟩

end Marks

/-! ## The invariant -/

/-- The cache file mirrors the blob, away from the dirty pages. -/
structure Mirror (p : ObjsFile) (cache blob : Bytes) : Prop where
  page : LegalPageSize p.pageSize
  cacheSize : cache.size = p.nData
  aligned : 512 ∣ p.nData
  synced : p.lastSyncedSize ≤ blob.size
  blobSize : blob.size ≤ p.nData
  clean : ∀ j, p.dirty.bit (j / p.pageSize) = false → cache.get j = blob.get j
  tail : blob.size < p.nData → p.dirty.bit ((p.nData - 1) / p.pageSize) = true
  room : pagesOf p.nData p.pageSize ≤ 8 * p.dirty.nAlloc
  counted : p.dirty.Counted
  small : pagesOf p.nData p.pageSize ≤ maxPages

namespace Mirror

variable {p : ObjsFile} {cache blob : Bytes}

/-- Without dirty pages the blob is the cache. -/
theorem eq_of_clean (h : Mirror p cache blob) (hd : ∀ j, p.dirty.bit j = false) : blob = cache := by
  refine SparseFile.ext ?_ fun j => (h.clean j (hd _)).symm
  have hle := h.blobSize
  rw [h.cacheSize]
  by_contra hne
  have htail := h.tail (by omega)
  rw [hd] at htail
  exact Bool.noConfusion htail

/-- A cache file that is the blob mirrors it. -/
theorem of_eq (hp : LegalPageSize p.pageSize) (hs : cache.size = p.nData) (ha : 512 ∣ p.nData)
    (hl : p.lastSyncedSize ≤ p.nData) (hroom : pagesOf p.nData p.pageSize ≤ 8 * p.dirty.nAlloc)
    (hc : p.dirty.Counted) (hsmall : pagesOf p.nData p.pageSize ≤ maxPages) :
    Mirror p cache cache where
  page := hp
  cacheSize := hs
  aligned := ha
  synced := by rw [hs]; exact hl
  blobSize := by rw [hs]
  clean _ _ := rfl
  tail h := by rw [hs] at h; exact absurd h (Nat.lt_irrefl _)
  room := hroom
  counted := hc
  small := hsmall

/-- A write to the cache that marks its pages. `q` is the file once its size and its
bitmap have grown. -/
theorem write (h : Mirror p cache blob) {q : ObjsFile} {buf : Bytes} {iOfst : Nat}
    (hb : 0 < buf.size) (ho : 512 ∣ iOfst) (hl : 512 ∣ buf.size)
    (hend : pagesOf (iOfst + buf.size) p.pageSize ≤ maxPages)
    (hps : q.pageSize = p.pageSize) (hn : q.nData = max p.nData (iOfst + buf.size))
    (hls : q.lastSyncedSize = p.lastSyncedSize) (hbits : ∀ j, q.dirty.bit j = p.dirty.bit j)
    (hc : q.dirty.Counted) (hroom : pagesOf q.nData q.pageSize ≤ 8 * q.dirty.nAlloc) :
    Mirror (markWritten q (iOfst / q.pageSize * q.pageSize)
      ((iOfst + buf.size - iOfst / q.pageSize * q.pageSize + q.pageSize - 1) / q.pageSize))
      ((cache.truncate q.nData).pwrite iOfst buf) blob := by
  have hpos : 0 < p.pageSize := h.page.pos
  obtain ⟨honly, hcnt', hbit⟩ := markWritten_span (q := q) (by rw [hps]; exact hpos)
    (Nat.le_add_right iOfst buf.size) (by rw [hps]; exact hend) hc
  generalize hq' : markWritten q _ _ = q' at honly hcnt' hbit ⊢
  have hmarked : ∀ j, q'.dirty.bit j = true ↔ p.dirty.bit j = true ∨
      (iOfst / p.pageSize ≤ j ∧ j * p.pageSize < iOfst + buf.size) := by
    intro j
    rw [hbit j, hbits j, hps]
    constructor
    · rintro (hj | ⟨h₁, h₂, -⟩)
      · exact Or.inl hj
      · exact Or.inr ⟨h₁, h₂⟩
    · rintro (hj | ⟨h₁, h₂⟩)
      · exact Or.inl hj
      · refine Or.inr ⟨h₁, h₂, ?_⟩
        have hlt := div_lt_pagesOf hpos h₂
        rw [Nat.mul_div_cancel _ hpos] at hlt
        have hle : pagesOf (iOfst + buf.size) p.pageSize ≤ pagesOf q.nData p.pageSize :=
          pagesOf_mono (by rw [hn]; omega)
        rw [hps] at hroom
        omega
  have hin : ∀ j, iOfst ≤ j → j < iOfst + buf.size → q'.dirty.bit (j / p.pageSize) = true := by
    intro j h₁ h₂
    refine (hmarked _).mpr (Or.inr ⟨?_, ?_⟩)
    · exact Nat.div_le_div_right h₁
    · exact Nat.lt_of_le_of_lt (Nat.div_mul_le_self _ _) h₂
  have hsize : ((cache.truncate q.nData).pwrite iOfst buf).size = q.nData :=
    SparseFile.pwrite_size_of_le _ _ (by rw [SparseFile.truncate_size, hn]; omega)
  have hps' : q'.pageSize = p.pageSize := honly.pageSize.trans hps
  have hn' : q'.nData = q.nData := honly.nData
  refine {
    page := by rw [hps']; exact h.page
    cacheSize := by rw [hsize, hn']
    aligned := ?_
    synced := by rw [honly.lastSyncedSize, hls]; exact h.synced
    blobSize := by rw [hn', hn]; exact Nat.le_trans h.blobSize (Nat.le_max_left _ _)
    clean := ?_
    tail := ?_
    room := by rw [hps', hn', honly.nAlloc, ← hps]; exact hroom
    counted := hcnt'
    small := ?_ }
  · rw [hn', hn]
    rcases Nat.le_total p.nData (iOfst + buf.size) with hle | hle
    · rw [Nat.max_eq_right hle]
      exact Nat.dvd_add ho hl
    · rw [Nat.max_eq_left hle]
      exact h.aligned
  · intro j hj
    rw [hps'] at hj
    rw [SparseFile.pwrite_get_of_not_mem, SparseFile.truncate_get_of_le]
    · refine h.clean j ?_
      by_contra hbad
      rw [(hmarked _).mpr (Or.inl (by simpa using hbad))] at hj
      exact Bool.noConfusion hj
    · rw [h.cacheSize, hn]
      exact Nat.le_max_left _ _
    · rintro ⟨h₁, h₂⟩
      rw [hin j h₁ h₂] at hj
      exact Bool.noConfusion hj
  · intro hlt
    rw [hn', hps']
    rw [hn', hn] at hlt
    rcases Nat.lt_or_ge p.nData (iOfst + buf.size) with hle | hle
    · rw [hn, Nat.max_eq_right (Nat.le_of_lt hle)]
      exact hin _ (by omega) (by omega)
    · rw [hn, Nat.max_eq_left hle]
      rw [Nat.max_eq_left hle] at hlt
      exact (hmarked _).mpr (Or.inl (h.tail hlt))
  · rw [hps', hn', hn]
    rcases Nat.le_total p.nData (iOfst + buf.size) with hle | hle
    · rw [Nat.max_eq_right hle]
      exact hend
    · rw [Nat.max_eq_left hle]
      exact h.small

/-- Cache file and blob cut to the same size. -/
theorem truncate (h : Mirror p cache blob) {q : ObjsFile} {size : Nat} (hle : size ≤ p.nData)
    (ha : 512 ∣ size) (hps : q.pageSize = p.pageSize) (hn : q.nData = size)
    (hls : q.lastSyncedSize = size) (hd : q.dirty = p.dirty) :
    Mirror q (cache.truncate size) (blob.truncate size) where
  page := by rw [hps]; exact h.page
  cacheSize := by rw [SparseFile.truncate_size, hn]
  aligned := by rw [hn]; exact ha
  synced := by rw [hls, SparseFile.truncate_size]
  blobSize := by rw [hn, SparseFile.truncate_size]
  clean j hj := by
    rw [hd, hps] at hj
    rw [SparseFile.truncate_get, SparseFile.truncate_get, h.clean j hj]
  tail hlt := by
    rw [SparseFile.truncate_size, hn] at hlt
    exact absurd hlt (Nat.lt_irrefl _)
  room := by
    rw [hn, hps, hd]
    exact Nat.le_trans (pagesOf_mono hle) h.room
  counted := by rw [hd]; exact h.counted
  small := by
    rw [hn, hps]
    exact Nat.le_trans (pagesOf_mono hle) h.small

/-- The blob grown to the size of the file. -/
theorem resize (h : Mirror p cache blob) : Mirror p cache (blob.truncate p.nData) :=
  { h with
    synced := by
      rw [SparseFile.truncate_size]
      exact Nat.le_trans h.synced h.blobSize
    blobSize := by rw [SparseFile.truncate_size]
    clean := fun j hj => by
      rw [SparseFile.truncate_get_of_le _ h.blobSize]
      exact h.clean j hj
    tail := fun hlt => by
      rw [SparseFile.truncate_size] at hlt
      exact absurd hlt (Nat.lt_irrefl _) }

/-- Only some fields of the record matter. -/
theorem congr (h : Mirror p cache blob) {q : ObjsFile} (hps : q.pageSize = p.pageSize)
    (hn : q.nData = p.nData) (hd : q.dirty = p.dirty) (hls : q.lastSyncedSize ≤ blob.size) :
    Mirror q cache blob where
  page := by rw [hps]; exact h.page
  cacheSize := by rw [hn]; exact h.cacheSize
  aligned := by rw [hn]; exact h.aligned
  synced := hls
  blobSize := by rw [hn]; exact h.blobSize
  clean := by rw [hd, hps]; exact h.clean
  tail := by rw [hn, hd, hps]; exact h.tail
  room := by rw [hn, hd, hps]; exact h.room
  counted := by rw [hd]; exact h.counted
  small := by rw [hn, hps]; exact h.small

/-- Bytes of the cache written to the blob. -/
theorem flush (h : Mirror p cache blob) {off : Nat} {d : Bytes}
    (hd : ∀ i, i < d.size → d.get i = cache.get (off + i)) (hle : off + d.size ≤ blob.size) :
    Mirror p cache (blob.pwrite off d) := by
  have hsize := SparseFile.pwrite_size_of_le blob d hle
  exact { h with
    synced := by rw [hsize]; exact h.synced
    blobSize := by rw [hsize]; exact h.blobSize
    clean := fun j hj => by
      rw [SparseFile.pwrite_get]
      split
      · next hin =>
        rw [hd _ (by omega)]
        congr 1
        omega
      · exact h.clean j hj
    tail := by rw [hsize]; exact h.tail }

/-- The blob holds the dirty pages too, and has the size of the file. -/
theorem eq_of_flushed (h : Mirror p cache blob) (hsize : blob.size = p.nData)
    (hflushed : ∀ j, j < p.nData → p.dirty.bit (j / p.pageSize) = true →
      blob.get j = cache.get j) : blob = cache := by
  refine SparseFile.ext (by rw [hsize, h.cacheSize]) fun j => ?_
  by_cases hj : j < p.nData
  · cases hb : p.dirty.bit (j / p.pageSize) with
    | true => exact hflushed j hj hb
    | false => exact (h.clean j hb).symm
  · rw [blob.get_past j (by omega), cache.get_past j (by rw [h.cacheSize]; omega)]

end Mirror

/-! ## Truncating the record -/

/-- Clearing valid bits changes nothing else. -/
theorem clearValid_eq (n : Nat) : ∀ (p : ObjsFile) (pg : Int),
    clearValid p pg n = { p with valid := (clearValid p pg n).valid } := by
  induction n with
  | zero => exact fun p pg => rfl
  | succ n ih =>
    intro p pg
    simp only [clearValid]
    rw [ih]

theorem forgetPastEnd_eq (p : ObjsFile) {size : Nat} (hle : size ≤ p.nData) :
    forgetPastEnd p size = { p with nData := size, valid := (forgetPastEnd p size).valid } := by
  unfold forgetPastEnd
  split
  · dsimp only
    split
    · rw [clearValid_eq]
    · rfl
  · have : size = p.nData := by omega
    rw [this]

/-- Clearing sets no bit. -/
theorem clearValid_bit (n : Nat) : ∀ (p : ObjsFile) (pg : Nat),
    (clearValid p pg n).valid.nAlloc = p.valid.nAlloc ∧
    ∀ k, (clearValid p pg n).valid.bit k = true → p.valid.bit k = true := by
  induction n with
  | zero => exact fun p pg => ⟨rfl, fun _ => id⟩
  | succ n ih =>
    intro p pg
    obtain ⟨h₁, h₂⟩ := ih { p with valid := bitmapClearBit p.valid pg } (pg + 1)
    rw [Nat.cast_succ] at h₁ h₂
    refine ⟨h₁.trans (Bitmap.nAlloc_clearBit _ _), fun k hk => ?_⟩
    have hk := h₂ k hk
    dsimp only at hk
    rw [Bitmap.bit_clearBit, Bool.and_eq_true] at hk
    exact hk.1

theorem forgetPastEnd_valid (p : ObjsFile) (size : Nat)
    (hsmall : pagesOf size p.pageSize ≤ maxPages) :
    (forgetPastEnd p size).valid.nAlloc = p.valid.nAlloc ∧
    ∀ k, (forgetPastEnd p size).valid.bit k = true → p.valid.bit k = true := by
  unfold forgetPastEnd
  split
  · dsimp only
    split
    · rw [pageCount_eq hsmall]
      exact clearValid_bit _ p _
    · exact ⟨rfl, fun _ => id⟩
  · exact ⟨rfl, fun _ => id⟩

/-! ## The ranges of a flush -/

section Coalesce

variable {dirty : Bitmap} {ps nData nPages : Nat}

variable (dirty ps) in
/-- A run of dirty pages ends where it counted to, inside the file, and is not empty
if its first page is dirty. -/
theorem dirtyRun_spec (n : Nat) : ∀ i runPages, i ≤ nPages →
    i ≤ (dirtyRun dirty ps nPages n i runPages).1 ∧
    (dirtyRun dirty ps nPages n i runPages).1 ≤ nPages ∧
    (dirtyRun dirty ps nPages n i runPages).2 + i =
      runPages + (dirtyRun dirty ps nPages n i runPages).1 ∧
    (0 < n → i < nPages → dirty.bit i = true →
      i < (dirtyRun dirty ps nPages n i runPages).1) := by
  induction n with
  | zero => exact fun i runPages hi => ⟨Nat.le_refl _, hi, rfl, by simp⟩
  | succ n ih =>
    intro i runPages hi
    unfold dirtyRun
    rw [Bitmap.testBit_eq]
    split
    · next hd =>
      split
      · exact ⟨by dsimp only; omega, by dsimp only; omega, by dsimp only; omega,
          fun _ _ _ => by dsimp only; omega⟩
      · obtain ⟨h₁, h₂, h₃, -⟩ := ih (i + 1) (runPages + 1) (by omega)
        exact ⟨by omega, h₂, by omega, fun _ _ _ => by omega⟩
    · next hd =>
      refine ⟨Nat.le_refl _, hi, rfl, fun _ h₁ h₂ => absurd ⟨h₁, h₂⟩ hd⟩

variable (dirty ps nPages) in
/-- A run goes over dirty pages only. -/
theorem dirtyRun_dirty (n : Nat) : ∀ i runPages k, i ≤ k →
    k < (dirtyRun dirty ps nPages n i runPages).1 → dirty.bit k = true := by
  induction n with
  | zero =>
    intro i runPages k hk hlt
    exact absurd hlt (Nat.not_lt.mpr hk)
  | succ n ih =>
    intro i runPages k hk hlt
    unfold dirtyRun at hlt
    rw [Bitmap.testBit_eq] at hlt
    split at hlt
    · next hd =>
      rcases Nat.lt_or_eq_of_le hk with hik | rfl
      · split at hlt
        · dsimp only at hlt
          omega
        · exact ih (i + 1) (runPages + 1) k hik hlt
      · exact hd.2
    · exact absurd hlt (Nat.not_lt.mpr hk)

theorem align512_of_dvd {n : Nat} (h : 512 ∣ n) : align512 n = n := by
  unfold align512
  omega

/-- The length of a run needs no rounding. -/
theorem align512_run (hps : 512 ∣ ps) (hn : 512 ∣ nData) (a b : Nat) :
    align512 (min (a * ps + b * ps) nData - a * ps) = min (a * ps + b * ps) nData - a * ps := by
  apply align512_of_dvd
  apply Nat.dvd_sub _ (Dvd.dvd.mul_left hps _)
  rw [Nat.min_def]
  split
  · exact Nat.dvd_add (Dvd.dvd.mul_left hps _) (Dvd.dvd.mul_left hps _)
  · exact hn

/-- The ranges lie inside the file. -/
theorem coalesceFrom_le (hps : 512 ∣ ps) (hpos : 0 < ps) (hn : 512 ∣ nData)
    (hpages : nPages = pagesOf nData ps) (n : Nat) : ∀ i,
    ∀ r ∈ coalesceFrom dirty ps nData nPages n i, r.1 + r.2 ≤ nData := by
  induction n with
  | zero => simp [coalesceFrom]
  | succ n ih =>
    intro i r hr
    unfold coalesceFrom at hr
    split at hr
    · cases hr
    next hi =>
    split at hr
    · exact ih _ r hr
    rcases List.mem_cons.mp hr with rfl | hr
    · have hlt := mul_lt_of_lt_pagesOf hpos (k := i) (n := nData) (by omega)
      dsimp only
      rw [align512_run hps hn]
      omega
    · exact ih _ r hr

/-- The ranges have dirty pages only. -/
theorem coalesceFrom_dirty (hps : 512 ∣ ps) (hpos : 0 < ps) (hn : 512 ∣ nData) (n : Nat) : ∀ i,
    ∀ r ∈ coalesceFrom dirty ps nData nPages n i, ∀ j, r.1 ≤ j → j < r.1 + r.2 →
      dirty.bit (j / ps) = true := by
  induction n with
  | zero => simp [coalesceFrom]
  | succ n ih =>
    intro i r hr j hlo hhi
    unfold coalesceFrom at hr
    split at hr
    · cases hr
    split at hr
    · exact ih _ r hr j hlo hhi
    rcases List.mem_cons.mp hr with rfl | hr
    · dsimp only at hlo hhi
      rw [align512_run hps hn] at hhi
      obtain ⟨-, -, hcount, -⟩ := dirtyRun_spec dirty ps (nPages - i) i 0
        (show i ≤ nPages by omega)
      refine dirtyRun_dirty dirty ps nPages (nPages - i) i 0 _
        ((Nat.le_div_iff_mul_le hpos).mpr hlo) ((Nat.div_lt_iff_lt_mul hpos).mpr ?_)
      generalize dirtyRun dirty ps nPages (nPages - i) i 0 = run at hcount hhi
      have hend : run.1 * ps = i * ps + run.2 * ps := by
        rw [← Nat.add_mul]
        congr 1
        omega
      omega
    · exact ih _ r hr j hlo hhi

/-- The ranges cover the dirty pages. -/
theorem coalesceFrom_covers (hps : 512 ∣ ps) (hpos : 0 < ps) (hn : 512 ∣ nData)
    (hpages : nPages = pagesOf nData ps) (n : Nat) : ∀ i, nPages ≤ i + n →
    ∀ j, j < nData → i ≤ j / ps → dirty.bit (j / ps) = true →
      ∃ r ∈ coalesceFrom dirty ps nData nPages n i, r.1 ≤ j ∧ j < r.1 + r.2 := by
  induction n with
  | zero =>
    intro i hi j hj hij _
    have := div_lt_pagesOf hpos hj
    omega
  | succ n ih =>
    intro i hi j hj hij hd
    have hlt := div_lt_pagesOf hpos hj
    unfold coalesceFrom
    rw [if_neg (by omega), Bitmap.testBit_eq]
    by_cases hbit : dirty.bit i = true
    · rw [hbit]
      simp only [Bool.not_true, Bool.false_eq_true, if_false]
      obtain ⟨h₁, h₂, h₃, h₄⟩ := dirtyRun_spec dirty ps (nPages - i) i 0
        (show i ≤ nPages by omega)
      have h₄' := h₄ (by omega) (by omega) hbit
      generalize dirtyRun dirty ps nPages (nPages - i) i 0 = run at h₁ h₂ h₃ h₄'
      by_cases hjr : j / ps < run.1
      · -- the first range covers it
        refine ⟨_, List.mem_cons_self, ?_, ?_⟩
        · exact Nat.le_trans (Nat.mul_le_mul_right _ hij) (Nat.div_mul_le_self _ _)
        · dsimp only
          have hstart : i * ps ≤ j :=
            Nat.le_trans (Nat.mul_le_mul_right _ hij) (Nat.div_mul_le_self _ _)
          have hend : j < i * ps + run.2 * ps := by
            rw [← Nat.add_mul]
            have : (j / ps + 1) * ps ≤ (i + run.2) * ps := Nat.mul_le_mul_right _ (by omega)
            have := Nat.lt_div_mul_add hpos (a := j)
            rw [Nat.succ_mul] at *
            omega
          rw [align512_run hps hn]
          omega
      · obtain ⟨r, hr, hrj⟩ := ih run.1 (by omega) j hj (by omega) hd
        exact ⟨r, List.mem_cons_of_mem _ hr, hrj⟩
    · have hne : j / ps ≠ i := fun h => hbit (h ▸ hd)
      simp only [Bool.not_eq_true] at hbit
      rw [hbit]
      simp only [Bool.not_false, if_true]
      exact ih (i + 1) (by omega) j hj (by omega) hd

end Coalesce

/-- The ranges of `xSync` lie inside the file and are its dirty pages. -/
structure CoversDirty (p : ObjsFile) (ranges : List (Nat × Nat)) : Prop where
  inside : ∀ r ∈ ranges, r.1 + r.2 ≤ p.nData
  dirty : ∀ r ∈ ranges, ∀ j, r.1 ≤ j → j < r.1 + r.2 → p.dirty.bit (j / p.pageSize) = true
  covers : ∀ j, j < p.nData → p.dirty.bit (j / p.pageSize) = true →
    ∃ r ∈ ranges, r.1 ≤ j ∧ j < r.1 + r.2

theorem CoversDirty.congr {p q : ObjsFile} {ranges : List (Nat × Nat)} (h : CoversDirty p ranges)
    (hn : q.nData = p.nData) (hd : q.dirty = p.dirty) (hps : q.pageSize = p.pageSize) :
    CoversDirty q ranges := by
  obtain ⟨h₁, h₂, h₃⟩ := h
  rw [← hn] at h₁ h₃
  rw [← hd, ← hps] at h₂ h₃
  exact ⟨h₁, h₂, h₃⟩

theorem Mirror.coversDirty {p : ObjsFile} {cache blob : Bytes} (h : Mirror p cache blob)
    {maxRanges : Int} {ranges : List (Nat × Nat)}
    (hr : coalesceDirtyRanges p maxRanges = some ranges) : CoversDirty p ranges := by
  have hnone : (∀ j, j < p.nData → p.dirty.bit (j / p.pageSize) = false) → CoversDirty p [] := by
    intro hd
    refine ⟨by simp, by simp, fun j hj hb => ?_⟩
    rw [hd j hj] at hb
    exact Bool.noConfusion hb
  unfold coalesceDirtyRanges at hr
  split at hr
  · next h0 =>
    obtain rfl := Option.some.inj hr
    exact hnone fun j _ => h.counted.none_of_zero h0 _
  split at hr
  · next hempty =>
    obtain rfl := Option.some.inj hr
    apply hnone
    intro j hj
    rcases hempty with he | he | he
    · exact Bitmap.bit_eq_false_of_le (by simp [Bitmap.nAlloc, he])
    · exact absurd he (Nat.pos_iff_ne_zero.mp h.page.pos)
    · omega
  · rw [pageCount_eq h.small, Int.toNat_natCast] at hr
    dsimp only at hr
    split at hr
    · cases hr
    · obtain rfl := Option.some.inj hr
      exact ⟨coalesceFrom_le h.page.dvd h.page.pos h.aligned rfl _ 0,
        coalesceFrom_dirty h.page.dvd h.page.pos h.aligned _ 0, fun j hj hb =>
        coalesceFrom_covers h.page.dvd h.page.pos h.aligned rfl _ 0 (by omega) j hj
          (Nat.zero_le _) hb⟩

end SqliteObjs
