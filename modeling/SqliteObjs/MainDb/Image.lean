import SqliteObjs.MainDb.Durability

/-!
# A cache file that shows a content

A database file answers reads from its cache file. In lazy mode a page counts only once
its valid bit is set; the others are fetched before they are read. `Image p cache C` says
that the file `p` with the cache file `cache` shows the content `C`: it has the size of
`C`, and the pages that count hold the bytes of `C`.

The rules are for a client that meets no failure, alone with a service that holds a blob
with the content `C`: filling the cache file in any of the ways of the source ends in an
image of `C`, and reading an image returns `C`.
-/

set_option autoImplicit false

namespace SqliteObjs

open Data CS CS.Program

/-! ## Images -/

/-- Page `k` is read from the cache file as it is. -/
def ObjsFile.Counts (p : ObjsFile) (k : Nat) : Prop := p.prefetchMode = .none → p.valid.bit k = true

/-- The file shows the content `C`. -/
structure Image (p : ObjsFile) (cache C : Bytes) : Prop where
  page : LegalPageSize p.pageSize
  nData : p.nData = C.size
  cacheSize : cache.size = C.size
  small : pagesOf C.size p.pageSize ≤ maxPages
  bytes : ∀ j, p.Counts (j / p.pageSize) → cache.get j = C.get j
  room : p.prefetchMode = .none → pagesOf C.size p.pageSize ≤ 8 * p.valid.nAlloc

namespace Image

variable {p q : ObjsFile} {cache C : Bytes}

/-- A cache file that is the content is an image, whatever counts. -/
theorem of_eq (hp : LegalPageSize p.pageSize) (hn : p.nData = C.size)
    (hs : pagesOf C.size p.pageSize ≤ maxPages)
    (hr : p.prefetchMode = .none → pagesOf C.size p.pageSize ≤ 8 * p.valid.nAlloc) :
    Image p C C :=
  ⟨hp, hn, rfl, hs, fun _ _ => rfl, hr⟩

/-- Only some fields of the record matter. -/
theorem congr (h : Image p cache C) (hps : q.pageSize = p.pageSize) (hn : q.nData = p.nData)
    (hv : q.valid = p.valid) (hm : q.prefetchMode = p.prefetchMode) : Image q cache C where
  page := by rw [hps]; exact h.page
  nData := by rw [hn]; exact h.nData
  cacheSize := h.cacheSize
  small := by rw [hps]; exact h.small
  bytes j hj := by
    rw [hps] at hj
    refine h.bytes j fun hm' => ?_
    rw [← hv]
    exact hj (hm.trans hm')
  room hm' := by
    rw [hps, hv]
    exact h.room (hm.symm.trans hm')

/-- In eager mode every page counts. -/
theorem eq_of_all (h : Image p cache C) (hm : p.prefetchMode = .all) : cache = C :=
  SparseFile.ext h.cacheSize fun j => h.bytes j fun hn => by rw [hm] at hn; cases hn

/-- Pages are stored whole: a range ends with a page or with the content. -/
structure Pages (ps : Nat) (C : Bytes) (s e : Nat) : Prop where
  start : ps ∣ s
  lt : s < e
  le : e ≤ C.size
  stop : ps ∣ e ∨ e = C.size

theorem Pages.mem {ps s e j : Nat} (h : Pages ps C s e) (hps : 0 < ps) (hj : j < C.size)
    (hlo : s / ps ≤ j / ps) (hhi : j / ps < pagesOf e ps) : s ≤ j ∧ j < e := by
  constructor
  · rw [← Nat.div_mul_cancel h.start]
    exact Nat.le_trans (Nat.mul_le_mul_right _ hlo) (Nat.div_mul_le_self _ _)
  · rcases h.stop with hd | rfl
    · obtain ⟨k, rfl⟩ := hd
      have hk : pagesOf (ps * k) ps ≤ k := (pagesOf_le_iff hps).mpr (by rw [Nat.mul_comm])
      have := Nat.lt_div_mul_add hps (a := j)
      have hle : (j / ps + 1) * ps ≤ k * ps := Nat.mul_le_mul_right _ (by omega)
      rw [Nat.succ_mul] at hle
      rw [Nat.mul_comm ps k]
      omega
    · exact hj

/-- The marks of a stored range. -/
theorem bit_validMarkRange {s e : Nat} (h : Image p cache C) (hpg : Pages p.pageSize C s e)
    (k : Nat) :
    (validMarkRange p s e).valid.bit k = true ↔ p.valid.bit k = true ∨
      (s / p.pageSize ≤ k ∧ k < pagesOf e p.pageSize ∧ k / 8 < p.valid.nAlloc) := by
  have hpos := h.page.pos
  have hend : pagesOf e p.pageSize ≤ maxPages := Nat.le_trans (pagesOf_mono hpg.le) h.small
  have hstart : s / p.pageSize ≤ maxPages :=
    Nat.le_trans (Nat.le_of_lt (div_lt_pagesOf hpos hpg.lt)) hend
  unfold validMarkRange
  rw [if_neg (by omega), cInt_of_le_maxPages hstart, pageCount_eq hend]
  dsimp only
  rw [Bitmap.bit_setRange]
  simp [and_assoc]

theorem validMarkRange_eq (p : ObjsFile) (s e : Nat) :
    (validMarkRange p s e).pageSize = p.pageSize ∧ (validMarkRange p s e).nData = p.nData ∧
    (validMarkRange p s e).prefetchMode = p.prefetchMode ∧
    (validMarkRange p s e).valid.nAlloc = p.valid.nAlloc := by
  unfold validMarkRange
  generalize hv : bitmapSetRange p.valid _ _ = valid
  have hal : valid.nAlloc = p.valid.nAlloc := by
    rw [← hv]
    exact Bitmap.nAlloc_setRange _ _ _
  split
  · exact ⟨rfl, rfl, rfl, rfl⟩
  · exact ⟨rfl, rfl, rfl, hal⟩

/-- Bytes of the content stored in the cache file. -/
theorem pwrite_slice_get (cache : Bytes) {s e : Nat} (hle : e ≤ C.size) (j : Nat) :
    (cache.pwrite s (C.slice s (e - s))).get j =
      if s ≤ j ∧ j < e then C.get j else cache.get j := by
  rw [SparseFile.pwrite_get, SparseFile.slice_size]
  have : (s ≤ j ∧ j < s + min (e - s) (C.size - s)) ↔ (s ≤ j ∧ j < e) := by omega
  simp only [this]
  split
  · next hj =>
    rw [SparseFile.slice_get_of_lt _ (by omega)]
    congr 1
    omega
  · rfl

/-- Storing pages of the content and marking them valid. -/
theorem store (h : Image p cache C) {s e : Nat} (hpg : Pages p.pageSize C s e) :
    Image (validMarkRange p s e) (cache.pwrite s (C.slice s (e - s))) C := by
  obtain ⟨hps, hn, hm, hal⟩ := validMarkRange_eq p s e
  refine ⟨hps ▸ h.page, hn.trans h.nData, ?_, hps ▸ h.small, ?_, ?_⟩
  · rw [SparseFile.pwrite_size_of_le _ _ (by
      rw [SparseFile.slice_size, h.cacheSize]
      have := hpg.le
      have := hpg.lt
      omega)]
    exact h.cacheSize
  · intro j hj
    rw [pwrite_slice_get cache hpg.le]
    split
    · rfl
    next hout =>
    by_cases hjs : j < C.size
    · refine h.bytes j fun hmode => ?_
      have hbit := (bit_validMarkRange h hpg _).mp (hps ▸ hj (hm.trans hmode))
      rcases hbit with hbit | ⟨hlo, hhi, -⟩
      · exact hbit
      · exact absurd (hpg.mem h.page.pos hjs hlo hhi) hout
    · rw [cache.get_past j (by rw [h.cacheSize]; omega), C.get_past j (by omega)]
  · intro hmode
    rw [hps, hal]
    exact h.room (hm.symm.trans hmode)

/-- The pages of a stored range count from then on, and so do the others. -/
theorem counts_store (h : Image p cache C) {s e : Nat} (hpg : Pages p.pageSize C s e) (k : Nat) :
    (validMarkRange p s e).Counts k ↔
      p.Counts k ∨ (s / p.pageSize ≤ k ∧ k < pagesOf e p.pageSize) := by
  obtain ⟨-, -, hm, -⟩ := validMarkRange_eq p s e
  unfold ObjsFile.Counts
  rw [hm]
  constructor
  · intro hk
    by_cases hmode : p.prefetchMode = .none
    · rcases (bit_validMarkRange h hpg k).mp (hk hmode) with hb | hb
      · exact Or.inl fun _ => hb
      · exact Or.inr ⟨hb.1, hb.2.1⟩
    · exact Or.inl fun h => absurd h hmode
  · intro hk hmode
    apply (bit_validMarkRange h hpg k).mpr
    rcases hk with hk | ⟨h₁, h₂⟩
    · exact Or.inl (hk hmode)
    · refine Or.inr ⟨h₁, h₂, ?_⟩
      have := h.room hmode
      have : pagesOf e p.pageSize ≤ pagesOf C.size p.pageSize := pagesOf_mono hpg.le
      omega

end Image

/-! ## A client that meets no failure -/

/-- One client, alone, and nothing fails. -/
abbrev soundly : Setting World Ans := .alone (World.served Sound)

section Sound

variable {α : Type} {a : Azure} {b : Blob} {i : BlobId} {d : Disk} {fd : Fd} {p : ObjsFile}
  {Q : α → World → Prop}

theorem wp_sys_sound {r : SysReq} {f : SysReply → Prog α}
    (h : ∀ c, Sound c → wp soundly (f (d.serve c r).1) Q ⟨a, (d.serve c r).2⟩) :
    wp soundly (sys r >>= f) Q ⟨a, d⟩ := by
  apply wp_alone_call.mpr
  intro x w' hs
  obtain ⟨c, hc, rfl, rfl⟩ := served_sys hs
  exact h c hc

/-- A range read leaves everything as it is, and has the blob's bytes if the range starts
inside the blob. -/
theorem wp_azPageBlobRead_any {off len : Nat} {f : AzReply → Prog α}
    (h : ∀ x : AzReply, (∀ b, a.blobs i = some b → 0 < len → off < b.content.size →
      x.err = .ok ∧ x.body = b.content.slice off len) → wp soundly (f x) Q ⟨a, d⟩) :
    wp soundly (azPageBlobRead i off len >>= f) Q ⟨a, d⟩ := by
  unfold azPageBlobRead
  split
  · exact h _ fun b _ hlen _ => absurd hlen (by omega)
  refine wp_execute_healthy_bind (fun c hc => hc.1) (by intros; simp) ?_
  have hafter : (⟨a, d⟩ : World).after (.pageBlobRead i off len) = ⟨a, d⟩ := by
    simp only [World.after, (Azure.respond_pageBlobRead a i off len).1]
  rw [hafter]
  refine h _ fun b hb hlen hoff => ?_
  simp only [World.answer, Azure.respond, hb]
  rw [if_neg (by omega), if_neg (by omega)]
  exact ⟨rfl, rfl⟩

/-- A read of a range that starts inside the blob. -/
theorem wp_azPageBlobRead_sound (hb : a.blobs i = some b) {off len : Nat} (hlen : 0 < len)
    (hoff : off < b.content.size) {f : AzReply → Prog α}
    (h : ∀ x : AzReply, x.err = .ok → x.body = b.content.slice off len →
      wp soundly (f x) Q ⟨a, d⟩) : wp soundly (azPageBlobRead i off len >>= f) Q ⟨a, d⟩ := by
  refine wp_azPageBlobRead_any fun x hx => ?_
  obtain ⟨h₁, h₂⟩ := hx b hb hlen hoff
  exact h x h₁ h₂

/-- Downloaded bytes go to the cache file, then their pages are marked. -/
theorem wp_storeFetched_bind {s : Nat} {data : Bytes} {f : ObjsFile × Rc → Prog α}
    (h : wp soundly (f (validMarkRange p s (s + data.size), .ok)) Q
      ⟨a, d.setInode fd ((d.inode fd).pwrite s data)⟩) :
    wp soundly (storeFetched p fd s data >>= f) Q ⟨a, d⟩ := by
  rw [wp_bind]
  unfold storeFetched
  refine wp_sys_sound fun c hc => ?_
  simp only [Disk.serve, hc.2, Bool.false_eq_true, if_false, Bool.not_true]
  exact wp_alone_ret.mpr h

/-! ### Pages on a miss -/

/-- Where `f` had the bytes of `C`, so has `f'`. -/
def Closer (C f f' : Bytes) : Prop := ∀ j, f.get j = C.get j → f'.get j = C.get j

/-- Pages were fetched: the file still shows the content, and what counted still does. -/
structure Fetched (a : Azure) (d : Disk) (fd : Fd) (C : Bytes) (p p' : ObjsFile) (w' : World) :
    Prop where
  only : OnlyValid p p'
  counts : ∀ k, p.Counts k → p'.Counts k
  image : ∃ f, w' = ⟨a, d.setInode fd f⟩ ∧ Image p' f C ∧ Closer C (d.inode fd) f

theorem Fetched.refl {C : Bytes} (h : Image p (d.inode fd) C) : Fetched a d fd C p p ⟨a, d⟩ :=
  ⟨rfl, fun _ => id, _, by rw [Disk.setInode_self], h, fun _ => id⟩

theorem Fetched.image_at {C : Bytes} {p' : ObjsFile} {f : Bytes}
    (h : Fetched a d fd C p p' ⟨a, d.setInode fd f⟩) :
    Image p' f C ∧ Closer C (d.inode fd) f := by
  obtain ⟨g, hw, hi⟩ := h.image
  have hd := congrArg (fun w : World => w.disk.inode fd) hw
  simp only [Disk.setInode_inode_self] at hd
  rw [hd]
  exact hi

theorem Fetched.trans {C : Bytes} {p' p'' : ObjsFile} {f : Bytes} {w : World}
    (h : Fetched a d fd C p p' ⟨a, d.setInode fd f⟩)
    (h' : Fetched a (d.setInode fd f) fd C p' p'' w) : Fetched a d fd C p p'' w := by
  obtain ⟨g, hw, hi, hcl⟩ := h'.image
  refine ⟨h.only.trans h'.only, fun k hk => h'.counts k (h.counts k hk), g, ?_, hi, fun j hj => ?_⟩
  · rw [hw, Disk.setInode_setInode]
  · apply hcl j
    rw [Disk.setInode_inode_self]
    exact h.image_at.2 j hj

/-- Storing pages of the content. -/
theorem Image.fetched (h : Image p (d.inode fd) b.content) {s e : Nat}
    (hpg : Image.Pages p.pageSize b.content s e) :
    Fetched a d fd b.content p (validMarkRange p s (s + (b.content.slice s (e - s)).size))
      ⟨a, d.setInode fd ((d.inode fd).pwrite s (b.content.slice s (e - s)))⟩ := by
  have hsize : s + (b.content.slice s (e - s)).size = e := by
    have := hpg.le
    have := hpg.lt
    rw [SparseFile.slice_size]
    omega
  rw [hsize]
  refine ⟨onlyValid_validMarkRange _ _ _, fun k hk =>
    (h.counts_store hpg k).mpr (Or.inl hk), _, rfl, h.store hpg, fun j hj => ?_⟩
  rw [Image.pwrite_slice_get _ hpg.le]
  split
  · rfl
  · exact hj

theorem Image.wp_fetchPagesFromAzure (h : Image p (d.inode fd) b.content)
    (hb : a.blobs p.blob = some b) (hop : p.ops.pageBlobRead = true) (hfd : p.cacheFd = some fd)
    {k : Nat} (hk : k < pagesOf b.content.size p.pageSize) :
    wp soundly (fetchPagesFromAzure p k)
      (fun r w' => r.2 = .ok ∧ Fetched a d fd b.content p r.1 w' ∧ r.1.Counts k) ⟨a, d⟩ := by
  have hpos := h.page.pos
  have hlt := mul_lt_of_lt_pagesOf hpos hk
  -- the window ends with a page or with the file
  have hpg : Image.Pages p.pageSize b.content (k * p.pageSize)
      (min (k * p.pageSize + readaheadPages * p.pageSize) b.content.size) := by
    have hra : 0 < readaheadPages * p.pageSize := Nat.mul_pos (by decide) hpos
    refine ⟨Dvd.intro_left _ rfl, by omega, by omega, ?_⟩
    rcases Nat.le_total (k * p.pageSize + readaheadPages * p.pageSize) b.content.size with hle | hle
    · rw [Nat.min_eq_left hle, ← Nat.add_mul]
      exact Or.inl (Dvd.intro_left _ rfl)
    · exact Or.inr (Nat.min_eq_right hle)
  unfold fetchPagesFromAzure
  rw [hop, hfd]
  simp only [Bool.not_true, Bool.false_eq_true, if_false]
  rw [if_neg (by omega), if_neg (by omega), Int.toNat_natCast, h.nData, if_neg (by omega)]
  generalize hend : min (k * p.pageSize + readaheadPages * p.pageSize) b.content.size = stop
    at hpg ⊢
  have hlen := hpg.lt
  refine wp_azPageBlobRead_sound hb (by omega) hlt fun x hx hbody => ?_
  rw [if_neg (by simpa using hx), hbody, if_neg (by
    rw [SparseFile.slice_size]
    omega)]
  have hslice : (b.content.slice (k * p.pageSize) (stop - k * p.pageSize)).slice 0
      (stop - k * p.pageSize) = b.content.slice (k * p.pageSize) (stop - k * p.pageSize) :=
    SparseFile.slice_slice_zero _ _ _
  rw [hslice, ← bind_pure (storeFetched _ _ _ _)]
  refine wp_storeFetched_bind (wp_alone_ret.mpr ⟨rfl, h.fetched hpg, ?_⟩)
  have hsize : k * p.pageSize + (b.content.slice (k * p.pageSize) (stop - k * p.pageSize)).size =
      stop := by
    have := hpg.le
    rw [SparseFile.slice_size]
    omega
  rw [hsize]
  refine (h.counts_store hpg k).mpr (Or.inr ⟨by rw [Nat.mul_div_cancel _ hpos], ?_⟩)
  have := div_lt_pagesOf hpos hlen
  rwa [Nat.mul_div_cancel _ hpos] at this

theorem OnlyValid.pageSize {p p' : ObjsFile} (h : OnlyValid p p') : p'.pageSize = p.pageSize := by
  unfold OnlyValid at h
  rw [h]

theorem OnlyValid.nData {p p' : ObjsFile} (h : OnlyValid p p') : p'.nData = p.nData := by
  unfold OnlyValid at h
  rw [h]

/-- The pages of a range that are missing, one after the other. -/
theorem Image.wp_fetchMissing (hb : a.blobs p.blob = some b) (hop : p.ops.pageBlobRead = true)
    (hfd : p.cacheFd = some fd) :
    ∀ (n pg : Nat) {q : ObjsFile} {d : Disk}, OnlyValid p q → Image q (d.inode fd) b.content →
      pg + n ≤ pagesOf b.content.size p.pageSize → p.prefetchMode = .none →
      wp soundly (fetchMissing n pg q) (fun r w' => r.2 = .ok ∧
        Fetched a d fd b.content q r.1 w' ∧ ∀ k, pg ≤ k → k < pg + n → r.1.Counts k) ⟨a, d⟩
  | 0, pg, q, d, _, h, _, _ =>
    wp_alone_ret.mpr ⟨rfl, .refl h, fun k h₁ h₂ => absurd h₂ (by omega)⟩
  | n + 1, pg, q, d, hq, h, hle, hm => by
    have hcast : (pg : Int) + 1 = ((pg + 1 : Nat) : Int) := by omega
    unfold fetchMissing
    rw [hcast, Bitmap.testBit_eq]
    split
    · next hbit =>
      refine wp_mono ?_ (Image.wp_fetchMissing hb hop hfd n (pg + 1) hq h (by omega) hm)
      rintro r w' ⟨hrc, hf, hc⟩
      refine ⟨hrc, hf, fun k h₁ h₂ => ?_⟩
      rcases Nat.lt_or_eq_of_le h₁ with hlt | rfl
      · exact hc k hlt (by omega)
      · exact hf.counts pg fun _ => hbit
    · have hq' := hq
      unfold OnlyValid at hq'
      rw [wp_bind]
      refine wp_mono ?_ (h.wp_fetchPagesFromAzure (a := a) (k := pg) (by rw [hq.blob]; exact hb)
        (by rw [hq']; exact hop) (by rw [hq']; exact hfd) (by rw [hq.pageSize]; omega))
      rintro ⟨q₁, rc⟩ w₁ ⟨hrc, hf, hc⟩
      dsimp only at hrc hf hc ⊢
      subst hrc
      obtain ⟨f, rfl, hi, -⟩ := hf.image
      rw [if_neg (by simp)]
      refine wp_mono ?_ (Image.wp_fetchMissing hb hop hfd n (pg + 1) (hq.trans hf.only)
        (d := d.setInode fd f) (by rw [Disk.setInode_inode_self]; exact hi) (by omega) hm)
      rintro r w' ⟨hrc, hf', hc'⟩
      refine ⟨hrc, hf.trans hf', fun k h₁ h₂ => ?_⟩
      rcases Nat.lt_or_eq_of_le h₁ with hlt | rfl
      · exact hc' k hlt (by omega)
      · exact hf'.counts pg hc

/-- Before a read every page of its range counts. -/
theorem Image.wp_fetchForRead (h : Image p (d.inode fd) b.content) (hb : a.blobs p.blob = some b)
    (hop : p.ops.pageBlobRead = true) (hfd : p.cacheFd = some fd) {iAmt iOfst : Nat}
    (hin : iOfst < b.content.size) :
    wp soundly (fetchForRead p iAmt iOfst) (fun r w' => r.2 = .ok ∧
      Fetched a d fd b.content p r.1 w' ∧
      ∀ j, iOfst ≤ j → j < iOfst + iAmt → j < b.content.size → r.1.Counts (j / p.pageSize))
      ⟨a, d⟩ := by
  have hpos := h.page.pos
  unfold fetchForRead
  split
  · next hmode =>
    have hend : pagesOf (min (iOfst + iAmt) p.nData) p.pageSize ≤
        pagesOf b.content.size p.pageSize :=
        pagesOf_mono (by rw [h.nData]; exact Nat.min_le_right _ _)
    have hstart := div_lt_pagesOf hpos hin
    dsimp only
    rw [pageCount_eq (Nat.le_trans hend h.small),
      cInt_of_le_maxPages (Nat.le_trans (Nat.le_of_lt hstart) h.small)]
    refine wp_mono ?_ (Image.wp_fetchMissing hb hop hfd _ _ rfl h ?_ hmode.1)
    · rintro r w' ⟨hrc, hf, hc⟩
      refine ⟨hrc, hf, fun j h₁ h₂ h₃ => hc _ (Nat.div_le_div_right h₁) ?_⟩
      have := div_lt_pagesOf hpos (n := min (iOfst + iAmt) p.nData) (j := j)
        (by rw [h.nData]; omega)
      omega
    · omega
  · next hmode =>
    refine wp_alone_ret.mpr ⟨rfl, .refl h, fun j _ _ hj hm => absurd ⟨hm, ?_, hpos⟩ hmode⟩
    -- a lazy file that is not empty has marks
    intro hnil
    have hroom := h.room hm
    have hlt := div_lt_pagesOf hpos hj
    have hal : p.valid.nAlloc = 0 := by simp [Bitmap.nAlloc, hnil]
    rw [hal] at hroom
    exact absurd (Nat.lt_of_lt_of_le hlt hroom) (Nat.not_lt_zero _)

/-! ### Reading -/

/-- What `xRead` returns of a content: past the end zeros, across the end what there is
and zeros. -/
def readOf (C : Bytes) (iAmt iOfst : Nat) : Rc × Bytes :=
  (if iOfst + iAmt ≤ C.size then .ok else .ioerrShortRead, (C.slice iOfst iAmt).truncate iAmt)

theorem readOf_past {C : Bytes} {iAmt iOfst : Nat} (hpos : 0 < iAmt) (h : C.size ≤ iOfst) :
    readOf C iAmt iOfst = (.ioerrShortRead, zeroFill iAmt) := by
  unfold readOf
  rw [if_neg (by omega)]
  refine congrArg (Prod.mk _) (SparseFile.ext rfl fun j => ?_)
  have hnone : ¬ j < min iAmt (C.size - iOfst) := by omega
  unfold zeroFill
  rw [SparseFile.truncate_get, SparseFile.truncate_get, SparseFile.slice_get, if_neg hnone,
    SparseFile.empty_get]

/-- What a read leaves of the record. -/
def OnlyRead (p p' : ObjsFile) : Prop :=
  p' = { p with valid := p'.valid, readsSinceSharedLock := p'.readsSinceSharedLock }

/-- Reading an image returns the content. -/
theorem Image.wp_mainDbRead (h : Image p (d.inode fd) b.content) (hb : a.blobs p.blob = some b)
    (hop : p.ops.pageBlobRead = true) (hfd : p.cacheFd = some fd) {iAmt : Nat} (hpos : 0 < iAmt)
    (iOfst : Nat) :
    wp soundly (mainDbRead p iAmt iOfst) (fun r w' => r.2 = readOf b.content iAmt iOfst ∧
      OnlyRead p r.1 ∧ (∀ k, p.Counts k → r.1.Counts k) ∧
      ∃ f, w' = ⟨a, d.setInode fd f⟩ ∧ Image r.1 f b.content ∧ Closer b.content (d.inode fd) f)
      ⟨a, d⟩ := by
  unfold mainDbRead
  generalize hq : (if LockLevel.shared.rank ≤ p.eLock.rank then
    { p with readsSinceSharedLock := cInt (p.readsSinceSharedLock + 1) } else p) = q
  have honly : q = { p with readsSinceSharedLock := q.readsSinceSharedLock } := by
    rw [← hq]
    split <;> rfl
  have hcount : ∀ k, p.Counts k → q.Counts k := by
    rw [honly]
    exact fun _ => id
  have hqi : Image q (d.inode fd) b.content := by
    rw [honly]
    exact h.congr rfl rfl rfl rfl
  have hqfd : q.cacheFd = some fd := by rw [honly]; exact hfd
  have hqr : OnlyRead p q := by
    unfold OnlyRead
    rw [honly]
  have hqb : q.blob = p.blob := by rw [honly]; rfl
  simp only [hqfd, hqi.nData]
  split
  · next hpast =>
    refine wp_alone_ret.mpr ⟨(readOf_past hpos hpast).symm, hqr, hcount, _, ?_, hqi, fun _ => id⟩
    rw [Disk.setInode_self]
  next hin =>
  rw [wp_bind]
  refine wp_mono ?_ (hqi.wp_fetchForRead (a := a) (by rw [hqb]; exact hb)
    (by rw [honly]; exact hop) hqfd (by omega : iOfst < b.content.size))
  rintro ⟨q', rc⟩ w₁ ⟨hrc, hf, hc⟩
  dsimp only at hrc hf hc ⊢
  subst hrc
  obtain ⟨f, rfl, hi, hcl⟩ := hf.image
  rw [if_neg (by simp), hi.nData, if_neg (by omega)]
  refine wp_sys_sound fun c hch => ?_
  simp only [Disk.serve, hch.2, Bool.false_eq_true, if_false, Bool.not_true,
    Disk.setInode_inode_self]
  -- the bytes come from pages that count
  have hdata : (f.slice iOfst (min (b.content.size - iOfst) iAmt)).truncate iAmt =
      (b.content.slice iOfst iAmt).truncate iAmt := by
    refine SparseFile.ext rfl fun j => ?_
    rw [SparseFile.truncate_get, SparseFile.truncate_get]
    by_cases hj : j < iAmt
    · rw [if_pos hj, if_pos hj, SparseFile.slice_get, SparseFile.slice_get, hi.cacheSize]
      by_cases hjs : iOfst + j < b.content.size
      · rw [if_pos (by omega), if_pos (by omega)]
        apply hi.bytes
        rw [hf.only.pageSize]
        exact hc _ (by omega) (by omega) hjs
      · rw [if_neg (by omega), if_neg (by omega)]
    · rw [if_neg hj, if_neg hj]
  have hsize : (f.slice iOfst (min (b.content.size - iOfst) iAmt)).size =
      min (b.content.size - iOfst) iAmt := by
    rw [SparseFile.slice_size, hi.cacheSize]
    omega
  have hdone : ∀ rc, rc = (readOf b.content iAmt iOfst).1 → wp soundly
      (.ret (q', rc, (f.slice iOfst (min (b.content.size - iOfst) iAmt)).truncate iAmt))
      (fun r w' => r.2 = readOf b.content iAmt iOfst ∧ OnlyRead p r.1 ∧
        (∀ k, p.Counts k → r.1.Counts k) ∧
        ∃ f, w' = ⟨a, d.setInode fd f⟩ ∧ Image r.1 f b.content ∧ Closer b.content (d.inode fd) f)
      ⟨a, d.setInode fd f⟩ := by
    intro rc hrc
    refine wp_alone_ret.mpr ⟨Prod.ext hrc hdata, ?_, fun k hk =>
      hf.counts k (hcount k hk), f, rfl, hi, hcl⟩
    have hv := hf.only
    unfold OnlyValid at hv
    unfold OnlyRead
    rw [hv, honly]
  split
  · refine hdone _ ?_
    unfold readOf
    rw [if_neg (by omega)]
  split
  · next hlt => rw [hsize] at hlt; omega
  · refine hdone _ ?_
    unfold readOf
    rw [if_pos (by omega)]

end Sound
end SqliteObjs
