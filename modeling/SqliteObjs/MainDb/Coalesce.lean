import SqliteObjs.Data.Ranges
import SqliteObjs.MainDb.Mirror
import SqliteObjs.Vfs.Open

/-!
# Coalescing the dirty pages

`coalesceDirtyRanges` turns the dirty bits into ranges for page writes. For the page count
it works with, the ranges are a coalesced cover of the dirty bytes, and it gives up exactly
when no cover fits (`coalesceDirtyRanges_spec`).

The page count is narrowed to an `int`. With 2^31 pages or more, dirty pages from the
narrowed count on are left out without an error.
-/

set_option autoImplicit false

namespace SqliteObjs

open Data

/-! ## One run -/

section Run

variable (dirty : Bitmap) {ps : Nat}

/-- A run of dirty pages that cannot be made longer: `e` is where it ends. -/
structure MaxRun (ps nPages i e : Nat) : Prop where
  le : i ≤ e
  le_nPages : e ≤ nPages
  bits : ∀ k, i ≤ k → k < e → dirty.bit k = true
  cap : (e - i) * ps ≤ maxPutPage
  stop : e < nPages → dirty.bit e = true → (e - i) * ps = maxPutPage

/-- The scan for a run, with the pages `i₀` to `i` in it already. -/
theorem dirtyRun_maxRun (nPages : Nat) (hps : ps ∣ maxPutPage) (i₀ : Nat) :
    ∀ n i, i₀ ≤ i → i ≤ nPages →
    nPages ≤ i + n → (∀ k, i₀ ≤ k → k < i → dirty.bit k = true) → (i - i₀) * ps < maxPutPage →
    MaxRun dirty ps nPages i₀ (dirtyRun dirty ps nPages n i (i - i₀)).1 ∧
      (dirtyRun dirty ps nPages n i (i - i₀)).2 = (dirtyRun dirty ps nPages n i (i - i₀)).1 - i₀
  | 0, i, h₀, hi, hn, hd, hcap =>
    ⟨⟨h₀, hi, hd, Nat.le_of_lt hcap, fun h => by have : i < nPages := h; omega⟩, rfl⟩
  | n + 1, i, h₀, hi, hn, hd, hcap => by
    unfold dirtyRun
    rw [Bitmap.testBit_eq]
    have hsub : i - i₀ + 1 = i + 1 - i₀ := by omega
    rw [hsub]
    split
    · next hbit =>
      have hd' : ∀ k, i₀ ≤ k → k < i + 1 → dirty.bit k = true := by
        intro k h₁ h₂
        rcases Nat.lt_or_eq_of_le (Nat.le_of_lt_succ h₂) with hk | rfl
        · exact hd k h₁ hk
        · exact hbit.2
      split
      · next hfull =>
        -- the page size divides the cap, so the run is exactly as long as it
        have heq : (i + 1 - i₀) * ps = maxPutPage := by
          obtain ⟨m, hm⟩ := hps
          have hlt : i - i₀ < m := by
            rw [hm, Nat.mul_comm] at hcap
            exact Nat.lt_of_mul_lt_mul_left hcap
          have hge : m ≤ i + 1 - i₀ := by
            rw [hm, Nat.mul_comm] at hfull
            have hpos : 0 < ps := Nat.pos_of_ne_zero fun h0 => by
              rw [h0, Nat.zero_mul] at hm
              exact absurd hm (by decide)
            exact Nat.le_of_mul_le_mul_right hfull hpos
          rw [hm, Nat.mul_comm, show i + 1 - i₀ = m by omega]
        exact ⟨⟨by dsimp only; omega, by dsimp only; omega, hd', Nat.le_of_eq heq, fun _ _ => heq⟩,
          rfl⟩
      · next hfull =>
        exact dirtyRun_maxRun nPages hps i₀ n (i + 1) (by omega) (by omega) (by omega)
          hd' (by omega)
    · next hbit =>
      exact ⟨⟨h₀, hi, hd, Nat.le_of_lt hcap, fun h₁ h₂ => absurd ⟨h₁, h₂⟩ hbit⟩, rfl⟩

end Run

/-! ## All runs -/

/-- The bytes of the dirty pages below page `n`, up to the end of the last sector. -/
def dirtyBytes (dirty : Bitmap) (ps nData n : Nat) : Set Nat :=
  {j | j / ps < n ∧ dirty.bit (j / ps) = true ∧ j < align512 nData}

theorem le_align512 (n : Nat) : n ≤ align512 n := by
  unfold align512
  omega

/-- Where the range of a run ends. -/
theorem run_end {ps nData i e : Nat} (hps : 512 ∣ ps) (hle : i ≤ e) (hi : i * ps ≤ nData) :
    i * ps + align512 (min (i * ps + (e - i) * ps) nData - i * ps) =
      min (e * ps) (align512 nData) := by
  have hadd : i * ps + (e - i) * ps = e * ps := by
    rw [← Nat.add_mul]
    congr 1
    omega
  rw [hadd]
  have hmul : i * ps ≤ e * ps := Nat.mul_le_mul_right _ hle
  obtain ⟨x, hx⟩ : 512 ∣ i * ps := Dvd.dvd.mul_left hps _
  obtain ⟨y, hy⟩ : 512 ∣ e * ps := Dvd.dvd.mul_left hps _
  unfold align512
  omega

theorem LegalPageSize.dvd_maxPutPage {ps : Nat} (h : LegalPageSize ps) : ps ∣ maxPutPage :=
  Dvd.dvd.trans h.dvd_bootstrap (by decide)

section Coalesce

variable {dirty : Bitmap} {ps nData nPages : Nat}

theorem coalesceFrom_coalesced (hps : LegalPageSize ps) (hpages : nPages ≤ pagesOf nData ps) :
    ∀ n i, nPages ≤ i + n →
      Coalesced maxPutPage {j | i ≤ j / ps ∧ j ∈ dirtyBytes dirty ps nData nPages}
        (coalesceFrom dirty ps nData nPages n i) ∧
      ∀ r ∈ coalesceFrom dirty ps nData nPages n i, ps ∣ r.1 ∧ 512 ∣ r.2
  | 0, i, hn => by
    refine ⟨⟨⟨by simp [coalesceFrom], fun j => ?_⟩, by simp [coalesceFrom], .nil, .nil⟩,
      by simp [coalesceFrom]⟩
    simp only [coalesceFrom, List.not_mem_nil, false_and, exists_false, iff_false]
    rintro ⟨hij, hlt, -⟩
    omega
  | n + 1, i, hn => by
    have hpos := hps.pos
    unfold coalesceFrom
    split
    · next hle =>
      refine ⟨⟨⟨by simp, fun j => ?_⟩, by simp, .nil, .nil⟩, by simp⟩
      simp only [List.not_mem_nil, false_and, exists_false, iff_false]
      rintro ⟨hij, hlt, -⟩
      omega
    next hi =>
    rw [Bitmap.testBit_eq]
    split
    · next hclean =>
      -- a clean page is in no range
      obtain ⟨hc, hshape⟩ := coalesceFrom_coalesced hps hpages n (i + 1) (by omega)
      have hset : {j | i ≤ j / ps ∧ j ∈ dirtyBytes dirty ps nData nPages} =
          {j | i + 1 ≤ j / ps ∧ j ∈ dirtyBytes dirty ps nData nPages} := by
        ext j
        constructor
        · rintro ⟨h₁, h₂⟩
          refine ⟨?_, h₂⟩
          rcases Nat.lt_or_eq_of_le h₁ with hlt | heq
          · exact hlt
          · have := h₂.2.1
            rw [← heq] at this
            simp [this] at hclean
        · rintro ⟨h₁, h₂⟩
          exact ⟨by omega, h₂⟩
      rw [hset]
      exact ⟨hc, hshape⟩
    next hbit =>
    have hbit : dirty.bit i = true := by simpa using hbit
    obtain ⟨hrun, hlen⟩ := dirtyRun_maxRun dirty nPages hps.dvd_maxPutPage i (nPages - i) i
      (Nat.le_refl _) (by omega) (by omega) (fun k h₁ h₂ => by omega)
      (by rw [Nat.sub_self, Nat.zero_mul]; decide)
    have hstart := mul_lt_of_lt_pagesOf hpos (n := nData) (k := i) (by omega)
    rw [Nat.sub_self] at hrun hlen
    have hgrow := (dirtyRun_spec dirty ps (nPages - i) i 0 (show i ≤ nPages by omega)).2.2.2
      (by omega) (by omega) hbit
    dsimp only
    rw [hlen]
    generalize (dirtyRun dirty ps nPages (nPages - i) i 0).1 = e at hrun hgrow ⊢
    have hend := run_end hps.dvd hrun.le (Nat.le_of_lt hstart)
    generalize hL : align512 (min (i * ps + (e - i) * ps) nData - i * ps) = len at hend
    have hdvd : 512 ∣ len := by
      rw [← hL]
      exact Dvd.intro_left _ rfl
    have hmul : i * ps + (e - i) * ps = e * ps := by
      rw [← Nat.add_mul]
      congr 1
      omega
    have halign := le_align512 nData
    have hlt : i * ps < e * ps := Nat.mul_lt_mul_of_pos_right hgrow hpos
    obtain ⟨hc, hshape⟩ := coalesceFrom_coalesced hps hpages n e (by omega)
    -- the bytes of the run are those of its pages
    have hhas : ∀ j, Range.Has (i * ps, len) j ↔
        (i ≤ j / ps ∧ j / ps < e) ∧ j < align512 nData := by
      intro j
      unfold Range.Has
      dsimp only
      rw [Nat.le_div_iff_mul_le hpos, Nat.div_lt_iff_lt_mul hpos, hend]
      omega
    -- a later range starts at a later dirty page
    have hlater : ∀ r ∈ coalesceFrom dirty ps nData nPages n e, e * ps ≤ r.1 ∧
        r.1 / ps < nPages ∧ dirty.bit (r.1 / ps) = true := by
      intro r hr
      obtain ⟨h₁, h₂, h₃, -⟩ := hc.mem hr ⟨Nat.le_refl _, by have := hc.pos r hr; omega⟩
      exact ⟨(Nat.le_div_iff_mul_le hpos).mp h₁, h₂, h₃⟩
    refine ⟨⟨⟨?_, fun j => ?_⟩, ?_, ?_, ?_⟩, ?_⟩
    · intro r hr
      rcases List.mem_cons.mp hr with rfl | hr
      · have := hrun.cap
        dsimp only
        omega
      · exact hc.le_cap r hr
    · simp only [List.mem_cons, exists_eq_or_imp, hhas]
      constructor
      · rintro ⟨h₁, h₂, h₃, h₄⟩
        by_cases hje : j / ps < e
        · exact Or.inl ⟨⟨h₁, hje⟩, h₄⟩
        · exact Or.inr ((hc.mem_iff j).mp ⟨by omega, h₂, h₃, h₄⟩)
      · rintro (⟨⟨h₁, h₂⟩, h₃⟩ | h)
        · have := hrun.le_nPages
          exact ⟨h₁, by omega, hrun.bits _ h₁ h₂, h₃⟩
        · obtain ⟨h₁, h₂⟩ := (hc.mem_iff j).mpr h
          exact ⟨by omega, h₂⟩
    · intro r hr
      rcases List.mem_cons.mp hr with rfl | hr
      · dsimp only
        omega
      · exact hc.pos r hr
    · refine List.pairwise_cons.mpr ⟨fun r hr => ?_, hc.ascending⟩
      have := (hlater r hr).1
      dsimp only
      omega
    · cases hrest : coalesceFrom dirty ps nData nPages n e with
      | nil => exact .singleton _
      | cons r rs =>
        rw [hrest] at hlater hc
        refine .cons_cons (fun htouch => ?_) hc.full
        dsimp only at htouch ⊢
        obtain ⟨h₁, h₂, h₃⟩ := hlater r List.mem_cons_self
        obtain heq : r.1 = e * ps := by omega
        rw [heq, Nat.mul_div_cancel _ hpos] at h₂ h₃
        have := hrun.stop h₂ h₃
        omega
    · intro r hr
      rcases List.mem_cons.mp hr with rfl | hr
      · exact ⟨Dvd.intro_left _ rfl, hdvd⟩
      · exact hshape r hr

end Coalesce

/-! ## The specification -/

/-- The ranges of the dirty pages below page `n`. -/
structure RangesFor (p : ObjsFile) (n : Nat) (rs : List (Nat × Nat)) : Prop
    extends Coalesced maxPutPage (dirtyBytes p.dirty p.pageSize p.nData n) rs where
  start : ∀ r ∈ rs, p.pageSize ∣ r.1
  sectors : ∀ r ∈ rs, 512 ∣ r.2
  length : rs.length ≤ ((List.range n).filter p.dirty.bit).length

/-- Ranges that fit into an array of `maxRanges` entries, or nothing when no cover fits. -/
def ExactRanges (p : ObjsFile) (n maxRanges : Nat) : Option (List (Nat × Nat)) → Prop
  | none => ∀ qs, Covers maxPutPage (dirtyBytes p.dirty p.pageSize p.nData n) qs →
      maxRanges < qs.length
  | some rs => RangesFor p n rs ∧ rs.length ≤ maxRanges

section Spec

variable {p : ObjsFile} {n : Nat}

/-- One range for each dirty page. -/
theorem covers_pages (hps : LegalPageSize p.pageSize) (n : Nat) :
    Covers maxPutPage (dirtyBytes p.dirty p.pageSize p.nData n)
      (((List.range n).filter p.dirty.bit).map fun k =>
        (k * p.pageSize, min p.pageSize (align512 p.nData - k * p.pageSize))) := by
  have hpos := hps.pos
  refine ⟨fun r hr => ?_, fun j => ?_⟩
  · obtain ⟨k, -, rfl⟩ := List.mem_map.mp hr
    have h₁ := hps.2.1
    have h₂ : 65536 ≤ maxPutPage := by decide
    dsimp only
    omega
  · constructor
    · rintro ⟨h₁, h₂, h₃⟩
      refine ⟨_, List.mem_map_of_mem (List.mem_filter.mpr ⟨List.mem_range.mpr h₁, h₂⟩), ?_, ?_⟩
      · exact Nat.div_mul_le_self _ _
      · have := Nat.lt_div_mul_add hpos (a := j)
        have := Nat.div_mul_le_self j p.pageSize
        dsimp only
        omega
    · rintro ⟨r, hr, hj⟩
      obtain ⟨k, hk, rfl⟩ := List.mem_map.mp hr
      obtain ⟨hk, hbit⟩ := List.mem_filter.mp hk
      obtain ⟨h₁, h₂⟩ := hj
      dsimp only at h₁ h₂
      have hdiv : j / p.pageSize = k := by
        have hlo := (Nat.le_div_iff_mul_le hpos).mpr h₁
        have hhi : j / p.pageSize < k + 1 := by
          rw [Nat.div_lt_iff_lt_mul hpos, Nat.succ_mul]
          omega
        omega
      refine ⟨by rw [hdiv]; exact List.mem_range.mp hk, by rw [hdiv]; exact hbit, by omega⟩

theorem toNat_pageCount_le (nData ps : Nat) : (pageCount nData ps).toNat ≤ pagesOf nData ps := by
  unfold pageCount pagesOf cInt
  generalize (nData + ps - 1) / ps = m
  rw [Int.bmod_def]
  split <;> omega

/-- No page is dirty. -/
theorem rangesFor_nil (h : ∀ k, p.dirty.bit k = false) (n : Nat) : RangesFor p n [] := by
  refine ⟨⟨⟨by simp, fun j => ?_⟩, by simp, .nil, .nil⟩, by simp, by simp, Nat.zero_le _⟩
  simp only [List.not_mem_nil, false_and, exists_false, iff_false]
  rintro ⟨-, hb, -⟩
  rw [h] at hb
  exact Bool.noConfusion hb

/-- What the code computes, for the page count it computes with. -/
theorem coalesceDirtyRanges_spec (hps : LegalPageSize p.pageSize) (hc : p.dirty.Counted)
    (maxRanges : Nat) :
    ExactRanges p (pageCount p.nData p.pageSize).toNat maxRanges
      (coalesceDirtyRanges p maxRanges) := by
  have hle := toNat_pageCount_le p.nData p.pageSize
  unfold coalesceDirtyRanges
  generalize (pageCount p.nData p.pageSize).toNat = n at hle ⊢
  split
  · next h0 => exact ⟨rangesFor_nil (hc.none_of_zero h0) n, Nat.zero_le _⟩
  split
  · next h0 =>
    rcases h0 with h0 | h0 | h0
    · refine ⟨rangesFor_nil (fun k => ?_) n, Nat.zero_le _⟩
      exact Bitmap.bit_eq_false_of_le (by simp [Bitmap.nAlloc, h0])
    · exact absurd h0 (Nat.pos_iff_ne_zero.mp hps.pos)
    · -- an empty file has no page
      have hn : n = 0 := by
        have := (pagesOf_le_iff hps.pos (n := p.nData) (k := 0)).mpr (by omega)
        omega
      refine ⟨⟨⟨⟨by simp, fun j => ?_⟩, by simp, .nil, .nil⟩, by simp, by simp, Nat.zero_le _⟩,
        Nat.zero_le _⟩
      simp only [List.not_mem_nil, false_and, exists_false, iff_false]
      rintro ⟨hj, -⟩
      rw [hn] at hj
      exact Nat.not_lt_zero _ hj
  dsimp only
  obtain ⟨hco, hshape⟩ :
      Coalesced maxPutPage {j | 0 ≤ j / p.pageSize ∧ j ∈ dirtyBytes p.dirty p.pageSize p.nData n}
        (coalesceFrom p.dirty p.pageSize p.nData n n 0) ∧ _ :=
    coalesceFrom_coalesced hps hle n 0 (by omega)
  have hset : {j | 0 ≤ j / p.pageSize ∧ j ∈ dirtyBytes p.dirty p.pageSize p.nData n} =
      dirtyBytes p.dirty p.pageSize p.nData n := by
    ext j
    exact ⟨fun h => h.2, fun h => ⟨Nat.zero_le _, h⟩⟩
  rw [hset] at hco
  generalize coalesceFrom p.dirty p.pageSize p.nData n n 0 = rs at hco hshape ⊢
  split
  · next hmany =>
    intro qs hqs
    have := hco.length_le hqs
    omega
  · next hfit =>
    refine ⟨⟨hco, fun r hr => (hshape r hr).1, fun r hr => (hshape r hr).2, ?_⟩, ?_⟩
    · have := hco.length_le (covers_pages hps n)
      rwa [List.length_map] at this
    · by_contra hlt
      refine hfit ⟨?_, by omega⟩
      rintro rfl
      exact hlt (Nat.zero_le _)

/-- Coalescing is exact as long as no page at or above the narrowed page count is dirty; else
only when the ranges below it do not fit already. -/
theorem coalesce_exact_iff (hps : LegalPageSize p.pageSize) (hc : p.dirty.Counted)
    (maxRanges : Nat) :
    ExactRanges p (pagesOf p.nData p.pageSize) maxRanges (coalesceDirtyRanges p maxRanges) ↔
      (∀ k, (pageCount p.nData p.pageSize).toNat ≤ k → k < pagesOf p.nData p.pageSize →
        p.dirty.bit k = false) ∨
      ∀ qs, Covers maxPutPage
        (dirtyBytes p.dirty p.pageSize p.nData (pageCount p.nData p.pageSize).toNat) qs →
        maxRanges < qs.length := by
  have hpos := hps.pos
  have hspec := coalesceDirtyRanges_spec hps hc maxRanges
  have hle := toNat_pageCount_le p.nData p.pageSize
  generalize (pageCount p.nData p.pageSize).toNat = n at hspec hle ⊢
  -- the dirty bytes the code sees are those below page `n`
  have hcut : dirtyBytes p.dirty p.pageSize p.nData n =
      {j | j ∈ dirtyBytes p.dirty p.pageSize p.nData (pagesOf p.nData p.pageSize) ∧
        j < n * p.pageSize} := by
    ext j
    have hdiv := Nat.div_lt_iff_lt_mul hpos (x := j) (y := n)
    constructor
    · rintro ⟨h₁, h₂, h₃⟩
      exact ⟨⟨by omega, h₂, h₃⟩, hdiv.mp h₁⟩
    · rintro ⟨⟨-, h₂, h₃⟩, h₁⟩
      exact ⟨hdiv.mpr h₁, h₂, h₃⟩
  constructor
  · intro h
    cases hr : coalesceDirtyRanges p maxRanges with
    | none =>
      rw [hr] at hspec
      exact Or.inr hspec
    | some rs =>
      rw [hr] at h hspec
      refine Or.inl fun k h₁ h₂ => ?_
      by_contra hk
      have hk : p.dirty.bit k = true := by simpa using hk
      -- the first byte of page `k` is dirty and in no range
      have hlt := mul_lt_of_lt_pagesOf hpos h₂
      have hmem : k * p.pageSize ∈
          dirtyBytes p.dirty p.pageSize p.nData (pagesOf p.nData p.pageSize) := by
        have := le_align512 p.nData
        unfold dirtyBytes
        rw [Set.mem_ofPred_eq, Nat.mul_div_cancel _ hpos]
        exact ⟨h₂, hk, by omega⟩
      have hin := (hspec.1.mem_iff _).mpr ((h.1.mem_iff _).mp hmem)
      unfold dirtyBytes at hin
      rw [Set.mem_ofPred_eq, Nat.mul_div_cancel _ hpos] at hin
      omega
  · rintro (h | h)
    · have hset : dirtyBytes p.dirty p.pageSize p.nData n =
          dirtyBytes p.dirty p.pageSize p.nData (pagesOf p.nData p.pageSize) := by
        ext j
        constructor
        · exact fun ⟨h₁, h₂⟩ => ⟨by omega, h₂⟩
        · rintro ⟨h₁, h₂, h₃⟩
          refine ⟨?_, h₂, h₃⟩
          by_contra hge
          rw [h _ (by omega) h₁] at h₂
          exact Bool.noConfusion h₂
      cases hr : coalesceDirtyRanges p maxRanges with
      | none =>
        rw [hr] at hspec
        intro qs hqs
        exact hspec qs (by rw [hset]; exact hqs)
      | some rs =>
        rw [hr] at hspec
        obtain ⟨hrs, hfit⟩ := hspec
        have hco := hrs.toCoalesced
        rw [hset] at hco
        refine ⟨⟨hco, hrs.start, hrs.sectors, ?_⟩, hfit⟩
        have := hco.length_le (covers_pages hps _)
        rwa [List.length_map] at this
    · cases hr : coalesceDirtyRanges p maxRanges with
      | none =>
        intro qs hqs
        have hcovers := hqs.cut (n * p.pageSize)
        rw [← hcut] at hcovers
        have := h _ hcovers
        rwa [List.length_map] at this
      | some rs =>
        rw [hr] at hspec
        have := h rs hspec.1.toCovers
        exact absurd hspec.2 (by omega)

/-- A file with the given page size, size and dirty bits. -/
def fileWith (ps nData : Nat) (dirty : Bitmap) : ObjsFile :=
  { newFile azureProductionOps 0 "db" {} .mainDb with
    pageSize := ps, nData := nData, dirty := dirty }

/-- Two dirty pages. -/
theorem coalesce_exact_two_pages :
    coalesceDirtyRanges (fileWith 512 1000 (.ofBytes [3] 2)) 64 = some [(0, 1024)] ∧
    ExactRanges (fileWith 512 1000 (.ofBytes [3] 2)) 2 64
      (coalesceDirtyRanges (fileWith 512 1000 (.ofBytes [3] 2)) 64) := by
  have hiff := coalesce_exact_iff (p := fileWith 512 1000 (.ofBytes [3] 2))
    ⟨by decide, by decide, 9, rfl⟩
    ⟨by decide, fun h => absurd h (by decide)⟩ 64
  have hcount : (pageCount 1000 512).toNat = 2 := by decide +kernel
  refine ⟨by decide +kernel, hiff.mpr (Or.inl fun k h₁ h₂ => ?_)⟩
  have h₁ : (pageCount 1000 512).toNat ≤ k := h₁
  have h₂ : k < 2 := h₂
  omega

/-- A file of one tebibyte and a sector with 512-byte pages: the page count is negative as an
`int`, and the dirty first page is in no range. -/
theorem coalesce_misses_page :
    coalesceDirtyRanges (fileWith 512 (2 ^ 40 + 512) (.ofBytes [1] 1)) 64 = some [] ∧
    ¬ ExactRanges (fileWith 512 (2 ^ 40 + 512) (.ofBytes [1] 1))
      (pagesOf (2 ^ 40 + 512) 512) 64
      (coalesceDirtyRanges (fileWith 512 (2 ^ 40 + 512) (.ofBytes [1] 1)) 64) := by
  have hnone : coalesceDirtyRanges (fileWith 512 (2 ^ 40 + 512) (.ofBytes [1] 1)) 64 = some [] := by
    decide +kernel
  refine ⟨hnone, ?_⟩
  rw [hnone]
  rintro ⟨h, -⟩
  have hmem : 0 ∈ dirtyBytes (.ofBytes [1] 1) 512 (2 ^ 40 + 512) (pagesOf (2 ^ 40 + 512) 512) :=
    ⟨by decide, by decide, by decide⟩
  obtain ⟨r, hr, -⟩ := (h.mem_iff 0).mp hmem
  cases hr

end Spec
end SqliteObjs
