import SqliteObjs.MainDb.Image

/-!
# A lazy cache file and its blob

`Mirror` is for a cache file that holds every page. `LazyCache` is its counterpart for a file that
was opened with `prefetch=none`: a page counts if it is valid and not dirty, and then it has the
bytes of the blob. Of the other pages only this is kept: where the blob ends before the file, a
page that is not dirty is zero past the blob's end.

The operations on the record, the cache file and the blob keep it. All of this is about data, no
request is made here.
-/

set_option autoImplicit false

namespace SqliteObjs

open Data

/-- The size up to which page numbers fit, whatever the page size. -/
def sizeLimit : Nat := 512 * maxPages

/-- The valid pages of the cache file are those of the blob, away from the dirty ones. -/
structure LazyCache (p : ObjsFile) (cache blob : Bytes) : Prop where
  page : LegalPageSize p.pageSize
  cacheSize : cache.size = p.nData
  aligned : 512 ∣ p.nData
  small : p.nData ≤ sizeLimit
  synced : p.lastSyncedSize ≤ p.nData
  blobSize : blob.size ≤ p.nData
  blobAligned : 512 ∣ blob.size
  room : pagesOf p.nData p.pageSize ≤ 8 * p.dirty.nAlloc
  validRoom : pagesOf p.nData p.pageSize ≤ 8 * p.valid.nAlloc
  counted : p.dirty.Counted
  held : ∀ j, p.dirty.bit (j / p.pageSize) = false →
    p.valid.bit (j / p.pageSize) = true ∨ blob.size ≤ j → cache.get j = blob.get j

theorem pagesOf_le_maxPages {n ps : Nat} (hps : LegalPageSize ps) (hn : n ≤ sizeLimit) :
    pagesOf n ps ≤ maxPages := by
  refine (pagesOf_le_iff hps.pos).mpr (Nat.le_trans hn ?_)
  rw [sizeLimit, Nat.mul_comm]
  exact Nat.mul_le_mul_left _ hps.1

namespace LazyCache

variable {p q : ObjsFile} {cache blob : Bytes}

theorem pages (h : LazyCache p cache blob) : pagesOf p.nData p.pageSize ≤ maxPages :=
  pagesOf_le_maxPages h.page h.small

/-- For its dirty pages the file is like one whose blob is the cache file. -/
theorem mirror (h : LazyCache p cache blob) : Mirror p cache cache :=
  .of_eq h.page h.cacheSize h.aligned h.synced h.room h.counted h.pages

/-- A cache file that is the blob, whatever the marks. -/
theorem of_eq (hp : LegalPageSize p.pageSize) (hn : blob.size = p.nData) (ha : 512 ∣ p.nData)
    (hs : p.nData ≤ sizeLimit) (hl : p.lastSyncedSize ≤ p.nData)
    (hr : pagesOf p.nData p.pageSize ≤ 8 * p.dirty.nAlloc)
    (hv : pagesOf p.nData p.pageSize ≤ 8 * p.valid.nAlloc) (hc : p.dirty.Counted) :
    LazyCache p blob blob :=
  ⟨hp, hn, ha, hs, hl, Nat.le_of_eq hn, hn ▸ ha, hr, hv, hc, fun _ _ _ => rfl⟩

/-- Only some fields of the record matter. -/
theorem congr (h : LazyCache p cache blob) (hps : q.pageSize = p.pageSize) (hn : q.nData = p.nData)
    (hd : q.dirty = p.dirty) (hv : q.valid = p.valid) (hl : q.lastSyncedSize ≤ p.nData) :
    LazyCache q cache blob where
  page := by rw [hps]; exact h.page
  cacheSize := by rw [hn]; exact h.cacheSize
  aligned := by rw [hn]; exact h.aligned
  small := by rw [hn]; exact h.small
  synced := by rw [hn]; exact hl
  blobSize := by rw [hn]; exact h.blobSize
  blobAligned := h.blobAligned
  room := by rw [hn, hps, hd]; exact h.room
  validRoom := by rw [hn, hps, hv]; exact h.validRoom
  counted := by rw [hd]; exact h.counted
  held := by rw [hps, hd, hv]; exact h.held

/-- Past the file the cache file and the blob are zero. -/
theorem past (h : LazyCache p cache blob) {j : Nat} (hj : p.nData ≤ j) :
    cache.get j = 0 ∧ blob.get j = 0 :=
  ⟨cache.get_past j (by rw [h.cacheSize]; exact hj), blob.get_past j (Nat.le_trans h.blobSize hj)⟩

/-! ## Fetching -/

/-- The bytes of the blob from page `k` on, up to `stop`, stored with their pages marked. They end
with a page, with the file or with the blob. -/
theorem store (h : LazyCache p cache blob) {k e : Nat} (hlt : k * p.pageSize < e)
    (hle : e ≤ blob.size) (hstop : p.pageSize ∣ e ∨ e = p.nData ∨ e = blob.size) :
    LazyCache (validMarkRange p (k * p.pageSize) e)
      (cache.pwrite (k * p.pageSize) (blob.slice (k * p.pageSize) (e - k * p.pageSize))) blob := by
  have hpos := h.page.pos
  have hend : e ≤ p.nData := Nat.le_trans hle h.blobSize
  obtain ⟨hps, hn, -, hal⟩ := Image.validMarkRange_eq p (k * p.pageSize) e
  have honly := onlyValid_validMarkRange p (k * p.pageSize) e
  have hpages : pagesOf e p.pageSize ≤ maxPages := Nat.le_trans (pagesOf_mono hend) h.pages
  have hk : k < pagesOf e p.pageSize := by
    have := div_lt_pagesOf hpos hlt
    rwa [Nat.mul_div_cancel _ hpos] at this
  have hbit : ∀ i, (validMarkRange p (k * p.pageSize) e).valid.bit i = true →
      p.valid.bit i = true ∨ (k ≤ i ∧ i < pagesOf e p.pageSize) := by
    intro i hi
    unfold validMarkRange at hi
    rw [if_neg (Nat.pos_iff_ne_zero.mp hpos), Nat.mul_div_cancel _ hpos,
      cInt_of_le_maxPages (show k ≤ maxPages by omega), pageCount_eq hpages] at hi
    dsimp only at hi
    rw [Bitmap.bit_setRange, Bool.or_eq_true, Bool.and_eq_true, decide_eq_true_eq] at hi
    exact hi.imp_right And.left
  have hdirty : (validMarkRange p (k * p.pageSize) e).dirty = p.dirty := by
    unfold OnlyValid at honly
    rw [honly]
  have hsync : (validMarkRange p (k * p.pageSize) e).lastSyncedSize = p.lastSyncedSize := by
    unfold OnlyValid at honly
    rw [honly]
  refine {
    page := by rw [hps]; exact h.page
    cacheSize := ?_
    aligned := by rw [hn]; exact h.aligned
    small := by rw [hn]; exact h.small
    synced := by rw [hn, hsync]; exact h.synced
    blobSize := by rw [hn]; exact h.blobSize
    blobAligned := h.blobAligned
    room := by rw [hn, hps, hdirty]; exact h.room
    validRoom := by rw [hn, hps, hal]; exact h.validRoom
    counted := by rw [hdirty]; exact h.counted
    held := ?_ }
  · rw [SparseFile.pwrite_size_of_le _ _ (by rw [SparseFile.slice_size, h.cacheSize]; omega), hn]
    exact h.cacheSize
  · rw [hps, hdirty]
    intro j hclean hj
    rw [Image.pwrite_slice_get cache hle]
    split
    · rfl
    next hout =>
    rcases hj with hj | hj
    · rcases hbit _ hj with hj | ⟨h₁, h₂⟩
      · exact h.held j hclean (Or.inl hj)
      -- the rest of the last page that was stored
      have hlo : k * p.pageSize ≤ j :=
        Nat.le_trans (Nat.mul_le_mul_right _ h₁) (Nat.div_mul_le_self _ _)
      have hge : e ≤ j := Nat.le_of_not_lt fun hlt => hout ⟨hlo, hlt⟩
      rcases hstop with ⟨m, rfl⟩ | rfl | rfl
      · have hm : pagesOf (p.pageSize * m) p.pageSize ≤ m :=
          (pagesOf_le_iff hpos).mpr (by rw [Nat.mul_comm])
        have hjm : m ≤ j / p.pageSize :=
          (Nat.le_div_iff_mul_le hpos).mpr (by rw [Nat.mul_comm]; exact hge)
        omega
      · rw [(h.past hge).1, (h.past hge).2]
      · exact h.held j hclean (Or.inr hge)
    · exact h.held j hclean (Or.inr hj)

/-! ## Writing and truncating -/

/-- A write to the cache file that marks its pages. `q` is the file once its size and its bitmaps
have grown. -/
theorem write (h : LazyCache p cache blob) {buf : Bytes} {iOfst : Nat} (ha : 512 ∣ q.nData)
    (hs : q.nData ≤ sizeLimit) (hps : q.pageSize = p.pageSize)
    (hn : q.nData = max p.nData (iOfst + buf.size)) (hls : q.lastSyncedSize = p.lastSyncedSize)
    (hd : p.dirty.Extends q.dirty) (hv : p.valid.Extends q.valid)
    (hr : pagesOf q.nData q.pageSize ≤ 8 * q.dirty.nAlloc)
    (hvr : pagesOf q.nData q.pageSize ≤ 8 * q.valid.nAlloc) :
    LazyCache (markWritten q (iOfst / q.pageSize * q.pageSize)
      ((iOfst + buf.size - iOfst / q.pageSize * q.pageSize + q.pageSize - 1) / q.pageSize))
      ((cache.truncate q.nData).pwrite iOfst buf) blob := by
  have hpos : 0 < q.pageSize := by rw [hps]; exact h.page.pos
  have hlegal : LegalPageSize q.pageSize := by rw [hps]; exact h.page
  have hgrow : p.nData ≤ q.nData := by rw [hn]; exact Nat.le_max_left _ _
  have hend : iOfst + buf.size ≤ q.nData := by rw [hn]; exact Nat.le_max_right _ _
  have hpages : pagesOf (iOfst + buf.size) q.pageSize ≤ maxPages :=
    pagesOf_le_maxPages hlegal (Nat.le_trans hend hs)
  obtain ⟨honly, hcounted, hbit⟩ := markWritten_span (q := q) hpos (Nat.le_add_right iOfst buf.size)
    hpages (hd.counted h.counted)
  obtain ⟨halloc, hvbit⟩ := markWritten_valid_span (q := q) hpos (Nat.le_add_right iOfst buf.size)
    hpages
  generalize markWritten q _ _ = q' at honly hcounted hbit halloc hvbit ⊢
  refine {
    page := by rw [honly.pageSize]; exact hlegal
    cacheSize := ?_
    aligned := by rw [honly.nData]; exact ha
    small := by rw [honly.nData]; exact hs
    synced := by
      rw [honly.nData, honly.lastSyncedSize, hls]
      exact Nat.le_trans h.synced hgrow
    blobSize := by rw [honly.nData]; exact Nat.le_trans h.blobSize hgrow
    blobAligned := h.blobAligned
    room := by rw [honly.nData, honly.pageSize, honly.nAlloc]; exact hr
    validRoom := by rw [honly.nData, honly.pageSize, halloc]; exact hvr
    counted := hcounted
    held := ?_ }
  · rw [honly.nData]
    exact SparseFile.pwrite_size_of_le _ _ (by rw [SparseFile.truncate_size]; exact hend)
  rw [honly.pageSize]
  intro j hclean hj
  -- the page of `j` is none of those of the write
  have hout : ¬ (iOfst / q.pageSize ≤ j / q.pageSize ∧ j / q.pageSize * q.pageSize <
      iOfst + buf.size) := by
    rintro ⟨h₁, h₂⟩
    have hlt := div_lt_pagesOf hpos h₂
    rw [Nat.mul_div_cancel _ hpos] at hlt
    have hmono : pagesOf (iOfst + buf.size) q.pageSize ≤ pagesOf q.nData q.pageSize :=
      pagesOf_mono hend
    rw [(hbit _).mpr (Or.inr ⟨h₁, h₂, by omega⟩)] at hclean
    exact Bool.noConfusion hclean
  have hbefore : p.dirty.bit (j / p.pageSize) = false := by
    rw [← hps, ← hd.bits]
    by_contra hbad
    rw [(hbit _).mpr (Or.inl (by simpa using hbad))] at hclean
    exact Bool.noConfusion hclean
  rw [SparseFile.pwrite_get_of_not_mem, SparseFile.truncate_get_of_le _
    (by rw [h.cacheSize]; exact hgrow)]
  · refine h.held j hbefore (hj.imp_left fun hj => ?_)
    rcases (hvbit _).mp hj with hj | ⟨h₁, h₂, -⟩
    · rw [hv.bits, hps] at hj
      exact hj
    · exact absurd ⟨h₁, h₂⟩ hout
  · rintro ⟨h₁, h₂⟩
    exact hout ⟨Nat.div_le_div_right h₁, Nat.lt_of_le_of_lt (Nat.div_mul_le_self _ _) h₂⟩

/-- Cache file and blob cut to the same size. -/
theorem truncate (h : LazyCache p cache blob) {size : Nat} (ha : 512 ∣ size)
    (hle : size ≤ p.nData) :
    LazyCache (forgetPastEnd { p with lastSyncedSize := size } size) (cache.truncate size)
      (blob.truncate size) := by
  have hq := forgetPastEnd_eq { p with lastSyncedSize := size } hle
  obtain ⟨halloc, hbit⟩ := forgetPastEnd_valid { p with lastSyncedSize := size } size
    (pagesOf_le_maxPages h.page (Nat.le_trans hle h.small))
  generalize forgetPastEnd { p with lastSyncedSize := size } size = q' at hq halloc hbit ⊢
  have hpages : pagesOf size p.pageSize ≤ pagesOf p.nData p.pageSize := pagesOf_mono hle
  rw [hq]
  refine {
    page := h.page
    cacheSize := SparseFile.truncate_size _ _
    aligned := ha
    small := Nat.le_trans hle h.small
    synced := Nat.le_refl _
    blobSize := Nat.le_of_eq (SparseFile.truncate_size _ _)
    blobAligned := ha
    room := Nat.le_trans hpages h.room
    validRoom := ?_
    counted := h.counted
    held := ?_ }
  · dsimp only
    rw [halloc]
    exact Nat.le_trans hpages h.validRoom
  intro j hclean hj
  rw [SparseFile.truncate_get, SparseFile.truncate_get]
  split
  · next hlt =>
    rcases hj with hj | hj
    · exact h.held j hclean (Or.inl (hbit _ hj))
    · rw [SparseFile.truncate_size] at hj
      omega
  · rfl

/-! ## Flushing -/

/-- The blob grown to the size of the file. -/
theorem resize (h : LazyCache p cache blob) : LazyCache p cache (blob.truncate p.nData) :=
  { h with
    blobSize := Nat.le_of_eq (SparseFile.truncate_size _ _)
    blobAligned := h.aligned
    held := fun j hclean hj => by
      rw [SparseFile.truncate_get_of_le _ h.blobSize]
      refine h.held j hclean (hj.imp_right fun hj => ?_)
      rw [SparseFile.truncate_size] at hj
      exact Nat.le_trans h.blobSize hj }

/-- Bytes of the cache file written to the blob. -/
theorem flush (h : LazyCache p cache blob) {off : Nat} {data : Bytes}
    (hd : ∀ i, i < data.size → data.get i = cache.get (off + i))
    (hle : off + data.size ≤ blob.size) :
    LazyCache p cache (blob.pwrite off data) := by
  have hsize := SparseFile.pwrite_size_of_le blob data hle
  exact { h with
    blobSize := by rw [hsize]; exact h.blobSize
    blobAligned := by rw [hsize]; exact h.blobAligned
    held := fun j hclean hj => by
      rw [SparseFile.pwrite_get]
      split
      · next hin =>
        rw [hd _ (by omega)]
        congr 1
        omega
      · rw [hsize] at hj
        exact h.held j hclean hj }

/-- The dirty pages are in the blob, and no longer dirty. -/
theorem clear (h : LazyCache p cache blob) (hps : q.pageSize = p.pageSize) (hn : q.nData = p.nData)
    (hd : q.dirty = bitmapClearAll p.dirty) (hv : q.valid = p.valid)
    (hl : q.lastSyncedSize ≤ p.nData)
    (hflushed : ∀ j, j < p.nData → p.dirty.bit (j / p.pageSize) = true → blob.get j = cache.get j) :
    LazyCache q cache blob where
  page := by rw [hps]; exact h.page
  cacheSize := by rw [hn]; exact h.cacheSize
  aligned := by rw [hn]; exact h.aligned
  small := by rw [hn]; exact h.small
  synced := by rw [hn]; exact hl
  blobSize := by rw [hn]; exact h.blobSize
  blobAligned := h.blobAligned
  room := by rw [hn, hps, hd, Bitmap.nAlloc_clearAll]; exact h.room
  validRoom := by rw [hn, hps, hv]; exact h.validRoom
  counted := by rw [hd]; exact Bitmap.counted_clearAll _
  held := by
    rw [hps, hv]
    intro j _ hj
    rcases Nat.lt_or_ge j p.nData with hlt | hge
    · cases hb : p.dirty.bit (j / p.pageSize) with
      | true => exact (hflushed j hlt hb).symm
      | false => exact h.held j hb hj
    · rw [(h.past hge).1, (h.past hge).2]

end LazyCache
end SqliteObjs
