import SqliteObjs.MainDb.Image

/-!
# Filling the cache file

The ways a cache file gets the blob's bytes, for a client that meets no failure: a
download of the whole blob when a file is opened eagerly or refreshed, the first pages
when it is opened lazily, and the missing pages on request. Each of them succeeds and
ends in an image of the blob's content.
-/

set_option autoImplicit false

namespace SqliteObjs

open Data CS CS.Program

/-! ## Page sizes -/

/-- The page size in the header of a content, or the one that was known before. -/
def headerPageSize (C : Bytes) (old : Nat) : Nat :=
  if (C.slice 0 100).size = 100 ∧ 0 < detectPageSize (C.slice 0 100) 100 then
    detectPageSize (C.slice 0 100) 100 else old

theorem legalPageSize_header {C : Bytes} {old : Nat} (h : LegalPageSize old) :
    LegalPageSize (headerPageSize C old) := by
  unfold headerPageSize
  split
  · next hd => exact legalPageSize_detect hd.2
  · exact h

theorem headerPageSize_of_lt {C : Bytes} {old : Nat} (h : C.size < 100) :
    headerPageSize C old = old := by
  unfold headerPageSize
  rw [if_neg]
  rintro ⟨hs, -⟩
  rw [SparseFile.slice_size] at hs
  omega

/-- The header is in the first bytes. -/
theorem headerPageSize_congr {C C' : Bytes} {old : Nat} (h : C'.slice 0 100 = C.slice 0 100) :
    headerPageSize C' old = headerPageSize C old := by
  unfold headerPageSize
  rw [h]

section Filling

variable {α : Type} {a : Azure} {b : Blob} {d : Disk} {fd : Fd} {p : ObjsFile}
  {Q : α → World → Prop}

theorem wp_redetectPageSize_sound {f : ObjsFile → Prog α}
    (h : wp soundly (f { p with pageSize := headerPageSize (d.inode fd) p.pageSize }) Q ⟨a, d⟩) :
    wp soundly (redetectPageSize p fd >>= f) Q ⟨a, d⟩ := by
  rw [wp_bind]
  unfold redetectPageSize
  refine wp_sys_sound fun c hc => ?_
  simp only [Disk.serve, hc.2, Bool.false_eq_true, if_false, Bool.true_and, beq_iff_eq]
  unfold headerPageSize at h
  by_cases hs : ((d.inode fd).slice 0 100).size = 100
  · rw [if_pos hs]
    simp only [hs, true_and] at h
    split
    · next hd =>
      rw [if_pos hd] at h
      exact wp_alone_ret.mpr h
    · next hd =>
      rw [if_neg hd] at h
      exact wp_alone_ret.mpr h
  · rw [if_neg hs]
    simp only [hs, false_and, if_false] at h
    exact wp_alone_ret.mpr h

/-! ## Downloads -/

/-- Chunks that start inside the blob are answered, and nothing past the blob is stored. -/
theorem wp_readSend_ok {i : BlobId} (hb : a.blobs i = some b) {n : Nat} (hpos : 0 < n) :
    ∀ (order : List Nat) (dest : Bytes),
      (∀ k ∈ order, k * readChunkSize n < n ∧ k * readChunkSize n < b.content.size) →
      wp soundly (readSend i n order dest) (fun r w' =>
        ∃ replies dest', r = some (replies, dest') ∧ w' = ⟨a, d⟩ ∧
          (∀ k ∈ order, ∃ m ∈ replies, m.1 = k ∧ m.2.err = .ok) ∧
          ∀ j, b.content.size ≤ j → dest'.get j = dest.get j) ⟨a, d⟩
  | [], dest, _ => wp_alone_ret.mpr ⟨[], dest, rfl, rfl, by simp, fun _ _ => rfl⟩
  | k :: order, dest, hin => by
    obtain ⟨hlt, hoff⟩ := hin k List.mem_cons_self
    have hcs := readChunkSize_pos hpos
    unfold readSend
    apply wp_alone_call.mpr
    intro x w' hs
    obtain ⟨hx, rfl⟩ := served_azure (fun c hc => hc.1) (by intros; simp) hs
    have hafter : (⟨a, d⟩ : World).after (.pageBlobRead i (k * readChunkSize n)
        (min (n - k * readChunkSize n) (readChunkSize n))) = ⟨a, d⟩ := by
      simp only [World.after, (Azure.respond_pageBlobRead _ _ _ _).1]
    obtain ⟨herr, hbody⟩ : x.err = .ok ∧ x.body = b.content.slice (k * readChunkSize n)
        (min (n - k * readChunkSize n) (readChunkSize n)) := by
      rw [hx]
      simp only [World.answer, Azure.respond, hb]
      rw [if_neg (by omega), if_neg (by omega)]
      exact ⟨rfl, rfl⟩
    rw [hafter]
    show wp soundly (readSend i n order _ >>= _) _ _
    rw [wp_bind]
    refine wp_mono ?_ (wp_readSend_ok hb hpos order _ fun m hm => hin m (List.mem_cons_of_mem _ hm))
    rintro _ w₁ ⟨replies, dest', rfl, rfl, hall, hkeep⟩
    refine wp_alone_ret.mpr ⟨(k, x) :: replies, dest', rfl, rfl, fun m hm => ?_, fun j hj => ?_⟩
    · rcases List.mem_cons.mp hm with rfl | hm
      · exact ⟨(m, x), List.mem_cons_self, rfl, herr⟩
      · obtain ⟨r, hr, h⟩ := hall m hm
        exact ⟨r, List.mem_cons_of_mem _ hr, h⟩
    · rw [hkeep j hj, hbody]
      refine SparseFile.pwrite_get_of_not_mem _ _ ?_
      simp only [SparseFile.slice_size]
      omega

/-- A download whose chunks all start inside the blob succeeds, and stores nothing past it. -/
theorem wp_azPageBlobReadMulti_ok {i : BlobId} (hb : a.blobs i = some b) {n : Nat} (hpos : 0 < n)
    (hsize : 0 < b.content.size)
    (hin : ¬ n < parallelReadMinSize → ∀ k, k < pagesOf n (readChunkSize n) →
      k * readChunkSize n < b.content.size) (dest : Bytes) :
    wp soundly (azPageBlobReadMulti i n dest) (fun r _ => r.1 = .ok ∧
      ∀ j, b.content.size ≤ j → r.2.get j = dest.get j) ⟨a, d⟩ := by
  have hcs := readChunkSize_pos hpos
  unfold azPageBlobReadMulti
  rw [if_neg (by omega)]
  split
  · refine wp_azPageBlobRead_sound hb hpos hsize fun x hx hbody => ?_
    rw [if_pos ⟨hx, by rw [hbody, SparseFile.slice_size]; omega⟩]
    refine wp_alone_ret.mpr ⟨rfl, fun j hj => SparseFile.pwrite_get_of_not_mem _ _ ?_⟩
    rw [hbody]
    simp only [SparseFile.slice_size]
    omega
  next hlarge =>
  have hin := hin hlarge
  have hstart : ∀ k, k < pagesOf n (readChunkSize n) → k * readChunkSize n < n ∧
      k * readChunkSize n < b.content.size := fun k hk => ⟨mul_lt_of_lt_pagesOf hcs hk, hin k hk⟩
  dsimp only
  refine wp_transferSetup_bind quiet_alone fun e he => ?_
  rw [he allocates_sound, if_neg (by simp)]
  refine wp_and ?_ (wp_mono ?_ (wp_transfer_of (fun _ dest => dest) quiet_alone
    (J := fun _ dest' w => w = ⟨a, d⟩ ∧ ∀ j, b.content.size ≤ j → dest'.get j = dest.get j)
    (P := fun k => k < pagesOf n (readChunkSize n)) (fun _ _ => stable_alone)
    (by intro _ _ _ _ _ h; exact h) ?_ _
    (fun _ => False) _ dest List.nodup_range (fun _ _ => id) (fun _ hk => List.mem_range.mp hk)
    ⟨rfl, fun _ _ => rfl⟩))
  · refine wp_transfer_ok quiet_alone allocates_sound ?_ _
    intro order hp
    refine wp_mono ?_ (wp_readSend_ok hb hpos order dest fun k hk =>
      hstart k (List.mem_range.mp (hp.mem_iff.mp hk)))
    rintro r w' ⟨replies, dest', rfl, -, hall, -⟩
    exact ⟨replies, dest', rfl, hall⟩
  · exact fun r w' h => h.1.2
  · rintro A order dest' w - - hP ⟨rfl, hkeep⟩
    refine wp_mono ?_ (wp_readSend_ok hb hpos order dest' fun k hk => hstart k (hP k hk))
    rintro _ w' ⟨replies, dest₁, rfl, rfl, -, hkeep'⟩
    refine ⟨fun h => by simp at h, ?_⟩
    rintro _ _ ⟨⟩ msgs -
    exact ⟨rfl, fun j hj => (hkeep' j hj).trans (hkeep j hj)⟩

/-- The whole blob is downloaded. -/
theorem wp_downloadBlob_sound (hb : a.blobs p.blob = some b) (hpos : 0 < b.content.size)
    {dest : Bytes} (hs : dest.size = b.content.size) :
    wp soundly (downloadBlob p b.content.size dest)
      (fun r w' => r = (.ok, b.content) ∧ w' = ⟨a, d⟩) ⟨a, d⟩ := by
  have hR := reading_sound hb True
  have hk : Knows id (fun w => w.azure = a ∧ True) d ⟨a, d⟩ := ⟨⟨rfl, trivial⟩, rfl⟩
  have hok : wp soundly (downloadBlob p b.content.size dest) (fun r _ => r.1 = .ok) ⟨a, d⟩ := by
    unfold downloadBlob
    split
    · refine wp_mono (fun r w' h => h.1)
        (wp_azPageBlobReadMulti_ok hb hpos hpos (fun _ k hk => ?_) dest)
      exact mul_lt_of_lt_pagesOf (readChunkSize_pos hpos) hk
    refine wp_azPageBlobRead_sound hb hpos hpos fun x hx hbody => ?_
    rw [if_neg (by simpa using hx), if_neg (by rw [hbody, SparseFile.slice_size]; omega)]
    exact wp_alone_ret.mpr rfl
  refine wp_mono ?_ (wp_and (hR.wp_downloadBlob seen_sound hpos hs hk) hok)
  rintro ⟨e, data⟩ ⟨a', d'⟩ ⟨⟨-, hk'⟩, he⟩
  obtain ⟨⟨⟨ha, -⟩, hdata⟩, hd⟩ := hk'
  dsimp only at he ha hdata
  have hd : d' = d := hd
  rw [he, ha, hd, hdata trivial he]
  exact ⟨rfl, rfl⟩

theorem pwrite_slice_zero (f g : Bytes) : f.pwrite 0 (g.slice 0 0) = f :=
  SparseFile.ext (by simp [SparseFile.pwrite_size]) fun k => by simp [SparseFile.pwrite_get]

/-- An empty file is written, on a machine that works. -/
theorem wp_writeAll_empty {ok : Choice → Prop} (hok : ∀ c, ok c → c.sysFails = false) {C : Bytes}
    (hempty : d.inode fd = .empty) : wp (.alone (World.served ok)) (writeAll fd C C.size 0)
      (fun r w' => r = true ∧ w' = ⟨a, d.setInode fd C⟩) ⟨a, d⟩ := by
  have hk : Knows id (fun w => w.azure = a) (d.setInode fd ((d.inode fd).pwrite 0 (C.slice 0 0)))
      ⟨a, d⟩ := ⟨rfl, by rw [pwrite_slice_zero, Disk.setInode_self]; rfl⟩
  have hE : Seen (.alone (World.served ok)) id fun _ => ok := seen_alone fun _ _ _ _ h => h
  have hA : Fact (.alone (World.served ok)) fun w => w.azure = a :=
    fact_azure (fun _ _ _ _ h => show ∃ c, ok c ∧ _ from h) (· = a)
  refine wp_mono ?_ (Knows.wp_writeAll hE hA (d.inode fd) C C.size 0 (Nat.zero_le _) (by omega) hk)
  rintro r ⟨a', d'⟩ ⟨htrue, f, hk', hf⟩
  have hr := htrue fun _ c _ hc => hok c hc
  have ha : a' = a := hk'.1
  have hd : d' = d.setInode fd f := hk'.2
  rw [ha, hd, hf hr, hempty, SparseFile.empty_pwrite]
  exact ⟨hr, rfl⟩

/-! ## Filled files -/

/-- What filling sets in the record. -/
def OnlyContent (p p' : ObjsFile) : Prop :=
  p' = { p with
    nData := p'.nData, dirty := p'.dirty, pageSize := p'.pageSize, valid := p'.valid
    lastSyncedSize := p'.lastSyncedSize, etag := p'.etag, snapshot := p'.snapshot }

/-- The cache file was filled with the content `C`. -/
structure Filled (a : Azure) (d : Disk) (fd : Fd) (C : Bytes) (p p' : ObjsFile) (w' : World) :
    Prop where
  only : OnlyContent p p'
  etag : p'.etag = p.etag
  page : p'.pageSize = headerPageSize C p.pageSize
  image : ∃ f, w' = ⟨a, d.setInode fd f⟩ ∧ Image p' f C

/-- An empty cache file was filled, at least with the first page. -/
structure FirstFilled (a : Azure) (d : Disk) (fd : Fd) (C : Bytes) (p p' : ObjsFile)
    (w' : World) : Prop
    extends Filled a d fd C p p' w' where
  snapshot : p'.snapshot = p.snapshot
  eager : p.prefetchMode ≠ .none → p'.valid = p.valid
  first : 0 < C.size → p'.Counts 0

/-- Page size and bitmaps of a file whose cache file has the header of `C`. -/
theorem wp_fillFinish {C : Bytes} (hpage : LegalPageSize p.pageSize) (hn : p.nData = C.size)
    (hsmall : pagesOf C.size (headerPageSize C p.pageSize) ≤ maxPages)
    (hcache : (d.inode fd).slice 0 100 = C.slice 0 100) {f : ObjsFile × Rc → Prog α}
    (h : ∀ p', OnlyContent p p' → p'.etag = p.etag → p'.nData = p.nData → p'.snapshot = p.snapshot →
      p'.pageSize = headerPageSize C p.pageSize → LegalPageSize p'.pageSize →
      (p.prefetchMode = .none → pagesOf C.size p'.pageSize ≤ 8 * p'.valid.nAlloc) →
      (p.prefetchMode ≠ .none → p'.valid = p.valid) → wp soundly (f (p', .ok)) Q ⟨a, d⟩) :
    wp soundly (redetectPageSize p fd >>= fun p => bitmapsEnsureCapacity p >>= f) Q ⟨a, d⟩ := by
  refine wp_redetectPageSize_sound ?_
  rw [headerPageSize_congr hcache]
  have hlegal : LegalPageSize (headerPageSize C p.pageSize) := legalPageSize_header hpage
  refine wp_bitmapsEnsureCapacity_bind quiet_alone fun p' rc hgrown hrc => ?_
  obtain ⟨rfl, hroom⟩ := hrc allocates_sound
  have hps : p'.pageSize = headerPageSize C p.pageSize := by rw [hgrown.eq]
  refine h p' ?_ (by rw [hgrown.eq]) (by rw [hgrown.eq]) (by rw [hgrown.eq]) hps (hps ▸ hlegal) ?_
    hgrown.eager
  · unfold OnlyContent
    rw [hgrown.eq]
  · intro hmode
    rw [hps, ← hn]
    exact (hroom hlegal.pos (by dsimp only; rw [hn]; exact hsmall)).2 hmode

/-- The whole blob into an empty cache file. -/
theorem wp_eagerDownload_sound (hb : a.blobs p.blob = some b) (hpos : 0 < b.content.size)
    (heager : p.prefetchMode ≠ .none) (hpage : LegalPageSize p.pageSize)
    (hsmall : pagesOf b.content.size (headerPageSize b.content p.pageSize) ≤ maxPages)
    (hempty : d.inode fd = .empty) :
    wp soundly (eagerDownload p fd b.content.size)
      (fun r w' => ∃ p', r = .ok p' ∧ FirstFilled a d fd b.content p p' w') ⟨a, d⟩ := by
  unfold eagerDownload
  refine wp_sys_sound fun c hc => ?_
  simp only [Disk.serve, hc.2, Bool.false_eq_true, if_false, Bool.not_true]
  rw [wp_bind]
  refine wp_mono ?_ (wp_downloadBlob_sound hb hpos (SparseFile.truncate_size _ _))
  rintro _ _ ⟨rfl, rfl⟩
  dsimp only
  rw [if_neg (by simp), wp_bind]
  refine wp_mono ?_ (wp_writeAll_empty (fun _ hc => hc.2) hempty)
  rintro _ _ ⟨rfl, rfl⟩
  rw [if_neg (by simp)]
  refine wp_sys_sound fun c' hc' => ?_
  simp only [Disk.serve, hc'.2, Bool.not_false, Bool.not_true, Bool.false_eq_true, if_false]
  refine wp_fillFinish (p := { p with nData := b.content.size }) hpage rfl hsmall
    (by rw [Disk.setInode_inode_self]) fun p' honly he hn hsnap hps hlegal hroom hvalid => ?_
  refine wp_alone_ret.mpr ⟨_, rfl, ⟨?_, he, hps, b.content, rfl, ?_⟩, hsnap, hvalid, ?_⟩
  · unfold OnlyContent at honly ⊢
    rw [honly]
  · refine .of_eq hlegal hn (by dsimp only; rw [hps]; exact hsmall) fun hm => hroom ?_
    unfold OnlyContent at honly
    rw [honly] at hm
    exact hm
  · intro _ hm
    unfold OnlyContent at honly
    rw [honly] at hm
    exact absurd hm heager

/-- The blob's first pages into an empty cache file. -/
theorem wp_lazyDownload_sound (hb : a.blobs p.blob = some b) (hpos : 0 < b.content.size)
    (hlazy : p.prefetchMode = .none) (hpage : LegalPageSize p.pageSize)
    (hsmall : pagesOf b.content.size (headerPageSize b.content p.pageSize) ≤ maxPages)
    (hempty : d.inode fd = .empty) :
    wp soundly (lazyDownload p fd b.content.size)
      (fun r w' => ∃ p', r = .ok p' ∧ FirstFilled a d fd b.content p p' w') ⟨a, d⟩ := by
  have hboot : 0 < min page1Bootstrap b.content.size := by
    have : 0 < page1Bootstrap := by decide
    omega
  unfold lazyDownload
  refine wp_sys_sound fun c hc => ?_
  simp only [Disk.serve, hc.2, Bool.false_eq_true, if_false, Bool.not_true]
  refine wp_azPageBlobRead_sound hb hboot hpos fun x hx hbody => ?_
  rw [hbody, SparseFile.slice_slice_zero, if_neg (by
    rintro (h | h)
    · exact h hx
    · rw [SparseFile.slice_size] at h
      omega)]
  refine wp_sys_sound fun c' hc' => ?_
  simp only [Disk.serve, hc'.2, Bool.not_true, Bool.false_eq_true, if_false,
    Disk.setInode_inode_self, Disk.setInode_setInode, hempty]
  generalize hboots : min page1Bootstrap b.content.size = boot at hboot ⊢
  have hle : boot ≤ b.content.size := by omega
  generalize hcache : (SparseFile.empty.truncate b.content.size).pwrite 0 (b.content.slice 0 boot) =
    cache
  have hget : ∀ j, cache.get j = if j < boot then b.content.get j else 0 := by
    intro j
    rw [← hcache]
    have := Image.pwrite_slice_get (C := b.content) (SparseFile.empty.truncate b.content.size)
      (s := 0) hle j
    rw [Nat.sub_zero] at this
    rw [this, SparseFile.truncate_get, SparseFile.empty_get]
    simp
  have hsize : cache.size = b.content.size := by
    rw [← hcache, SparseFile.pwrite_size_of_le]
    · rfl
    · rw [SparseFile.slice_size, SparseFile.truncate_size]
      omega
  -- the header is among the first pages
  have hheader : cache.slice 0 100 = b.content.slice 0 100 := by
    refine SparseFile.ext (by simp only [SparseFile.slice_size, hsize]) fun j => ?_
    rw [SparseFile.slice_get, SparseFile.slice_get, hsize, hget, Nat.zero_add]
    have : 100 ≤ page1Bootstrap := by decide
    split
    · rw [if_pos (by omega)]
    · rfl
  refine wp_fillFinish (p := { p with nData := b.content.size }) hpage rfl hsmall
    (by rw [Disk.setInode_inode_self]; exact hheader)
    fun p' honly he hn hsnap hps hlegal hroom _ => ?_
  have hps : p'.pageSize = headerPageSize b.content p.pageSize := hps
  have hmode : p'.prefetchMode = p.prefetchMode := by
    unfold OnlyContent at honly
    rw [honly]
  refine wp_alone_ret.mpr ⟨_, rfl, ?_⟩
  have hlen : (b.content.slice 0 boot).size = boot := by
    rw [SparseFile.slice_size]
    omega
  rw [hlen]
  -- a file without marks is an image, and so it is with the first pages
  have hnone : Image { p' with valid := bitmapClearAll p'.valid }
      (SparseFile.empty.truncate b.content.size) b.content := by
    refine ⟨hlegal, hn, rfl, by dsimp only; rw [hps]; exact hsmall, fun j hj => ?_, fun _ => ?_⟩
    · have := hj (hmode.trans hlazy)
      rw [Bitmap.bit_clearAll] at this
      exact Bool.noConfusion this
    · dsimp only
      rw [Bitmap.nAlloc_clearAll]
      exact hroom hlazy
  have hpg : Image.Pages p'.pageSize b.content 0 boot := by
    refine ⟨Nat.dvd_zero _, hboot, hle, ?_⟩
    rcases Nat.le_total page1Bootstrap b.content.size with h | h
    · rw [← hboots, Nat.min_eq_left h]
      exact Or.inl hlegal.dvd_bootstrap
    · rw [← hboots, Nat.min_eq_right h]
      exact Or.inr rfl
  have hstored := hnone.store hpg
  rw [Nat.sub_zero, hcache] at hstored
  have hfirst := (hnone.counts_store hpg 0).mpr (Or.inr
    ⟨by simp, Nat.lt_of_le_of_lt (Nat.zero_le _) (div_lt_pagesOf hlegal.pos hboot)⟩)
  have honly' := onlyValid_validMarkRange { p' with valid := bitmapClearAll p'.valid } 0 boot
  generalize validMarkRange { p' with valid := bitmapClearAll p'.valid } 0 boot = q
    at hstored hfirst honly' ⊢
  unfold OnlyValid at honly'
  refine ⟨⟨?_, ?_, ?_, cache, rfl, hstored.congr rfl rfl rfl rfl⟩, ?_,
    fun hm => absurd hlazy hm, fun _ => hfirst⟩
  · unfold OnlyContent at honly ⊢
    rw [honly', honly]
  · rw [honly']
    exact he
  · rw [honly']
    exact hps
  · rw [honly']
    exact hsnap

/-- A file of no bytes shows an empty content. -/
theorem image_empty {C : Bytes} (hpage : LegalPageSize p.pageSize) (h0 : C.size = 0)
    (hn : p.nData = 0) : Image p .empty C := by
  have hpages : pagesOf C.size p.pageSize = 0 := by
    have := (pagesOf_le_iff hpage.pos (n := C.size) (k := 0)).mpr (by omega)
    omega
  refine ⟨hpage, hn.trans h0.symm, h0.symm, ?_, fun j _ => ?_, fun _ => ?_⟩
  · rw [hpages]
    exact Nat.zero_le _
  · rw [SparseFile.empty_get, C.get_past j (by omega)]
  · rw [hpages]
    exact Nat.zero_le _

/-- An empty cache file is filled, in either mode. -/
theorem wp_cacheDownload_sound (hb : a.blobs p.blob = some b) (hpage : LegalPageSize p.pageSize)
    (hsmall : pagesOf b.content.size (headerPageSize b.content p.pageSize) ≤ maxPages)
    (hempty : d.inode fd = .empty) :
    wp soundly (cacheDownload p fd b.content.size)
      (fun r w' => ∃ p', r = .ok p' ∧ FirstFilled a d fd b.content p p' w') ⟨a, d⟩ := by
  unfold cacheDownload
  split
  · next h0 =>
    refine wp_alone_ret.mpr ⟨_, rfl, ⟨rfl, rfl, (headerPageSize_of_lt (by omega)).symm, .empty, ?_,
      image_empty hpage h0 rfl⟩, rfl, fun _ => rfl, fun h => absurd h (by omega)⟩
    rw [← hempty, Disk.setInode_self]
  split
  · next hpos hlazy => exact wp_lazyDownload_sound hb (by omega) hlazy hpage hsmall hempty
  · next hpos heager => exact wp_eagerDownload_sound hb (by omega) heager hpage hsmall hempty

/-- A refresh makes the cache file the current content. -/
theorem wp_refreshMainDbCache_sound (hkind : p.eFileType = .mainDb) (hops : p.ops.Complete)
    (hfd : p.cacheFd = some fd) (hb : a.blobs p.blob = some b) (hpage : LegalPageSize p.pageSize)
    (hsmall : pagesOf b.content.size (headerPageSize b.content p.pageSize) ≤ maxPages) (e : ETag) :
    wp soundly (refreshMainDbCache p b.content.size (some e))
      (fun r w' => r.2 = .ok ∧ Filled a d fd b.content { p with etag := some e } r.1 w')
      ⟨a, d⟩ := by
  have hread : p.ops.pageBlobRead = true := by rw [hops]; rfl
  unfold refreshMainDbCache
  rw [if_neg (by simp [hkind])]
  split
  · next hnone => rw [hfd] at hnone; cases hnone
  next fd' hfd' =>
  obtain rfl : fd = fd' := Option.some.inj (hfd.symm.trans hfd')
  dsimp only
  split
  · next h0 =>
    refine wp_sys_sound fun c hc => ?_
    simp only [Disk.serve, hc.2, Bool.false_eq_true, if_false, Bool.not_true]
    refine wp_alone_ret.mpr ⟨rfl, rfl, rfl, (headerPageSize_of_lt (by omega)).symm, _, rfl, ?_⟩
    rw [SparseFile.eq_empty (SparseFile.truncate_size (d.inode fd) 0)]
    exact image_empty hpage h0 rfl
  next hpos =>
  refine wp_sys_sound fun c hc => ?_
  simp only [Disk.serve, hc.2, Bool.false_eq_true, if_false, Bool.not_true, hread, Bool.and_false]
  rw [wp_bind]
  refine wp_mono ?_ (wp_downloadBlob_sound (p := { p with etag := some e }) hb (by omega)
    (SparseFile.truncate_size _ _))
  rintro _ _ ⟨rfl, rfl⟩
  dsimp only
  rw [if_neg (by simp)]
  refine wp_sys_sound fun c₁ hc₁ => ?_
  simp only [Disk.serve, hc₁.2, Bool.not_false, Bool.not_true, Bool.false_eq_true, if_false]
  refine wp_sys_sound fun c₂ hc₂ => ?_
  simp only [Disk.serve, hc₂.2, Bool.not_true, Bool.false_eq_true, if_false]
  rw [SparseFile.eq_empty (SparseFile.truncate_size (d.inode fd) 0), wp_bind]
  refine wp_mono ?_ (wp_writeAll_empty (fun _ hc => hc.2) (Disk.setInode_inode_self _ _ _))
  rintro _ _ ⟨rfl, rfl⟩
  rw [if_neg (by simp), Disk.setInode_setInode]
  refine wp_sys_sound fun c₃ hc₃ => ?_
  simp only [Disk.serve, hc₃.2, Bool.not_false, Bool.not_true, Bool.false_eq_true, if_false]
  have hheader : ((d.setInode fd b.content).inode fd).slice 0 100 = b.content.slice 0 100 := by
    rw [Disk.setInode_inode_self]
  unfold finishRefresh
  refine wp_fillFinish
    (p := { p with etag := some e, nData := b.content.size, snapshot := none }) hpage rfl hsmall
    hheader fun p' honly he hn hsnap hps hlegal hroom _ => ?_
  have hn : p'.nData = b.content.size := hn
  have hps : p'.pageSize = headerPageSize b.content p.pageSize := hps
  have hmode : p'.prefetchMode = p.prefetchMode := by
    unfold OnlyContent at honly
    rw [honly]
  have hsmall' : pagesOf b.content.size p'.pageSize ≤ maxPages := by rw [hps]; exact hsmall
  dsimp only
  split
  · refine wp_alone_ret.mpr ⟨rfl, ?_, he, hps, _, rfl, ?_⟩
    · unfold OnlyContent at honly ⊢
      rw [honly]
    · exact .of_eq hlegal hn hsmall' fun hm => hroom (hmode.symm.trans hm)
  · refine wp_bitmapEnsureCapacity_bind quiet_alone fun valid rc hext _ _ => ?_
    refine wp_alone_ret.mpr ⟨rfl, ?_⟩
    have hal : ∀ n, (bitmapSetAll valid n).nAlloc = valid.nAlloc := Bitmap.nAlloc_setAll valid
    unfold validMarkAll
    rw [if_neg (by
      have := hlegal.pos
      dsimp only
      omega)]
    generalize pageCount _ _ = n
    refine ⟨?_, he, hps, _, rfl, .of_eq hlegal hn hsmall' fun hm => ?_⟩
    · unfold OnlyContent at honly ⊢
      rw [honly]
    · dsimp only
      rw [hal]
      exact Nat.le_trans (hroom (hmode.symm.trans hm)) (Nat.mul_le_mul_left 8 hext.nAlloc)

/-! ## Opening -/

/-- A `HEAD` of a blob that is there. -/
theorem wp_azBlobGetProperties_sound {i : BlobId} (hb : a.blobs i = some b) {f : AzReply → Prog α}
    (h : ∀ x : AzReply, x.err = .ok → x.etag = some b.etag → x.size = b.content.size →
      wp soundly (f x) Q ⟨a, d⟩) : wp soundly (azBlobGetProperties i >>= f) Q ⟨a, d⟩ := by
  unfold azBlobGetProperties
  refine wp_execute_healthy_bind (fun c hc => hc.1) (by intros; simp) ?_
  rw [World.after_getProperties]
  obtain ⟨-, hsome, -⟩ := Azure.respond_getProperties a i
  obtain ⟨h₁, h₂, h₃⟩ := hsome b hb
  exact h _ h₁ h₂ h₃

/-- A cache file with a random name is new and gets filled. -/
theorem wp_openTemp_sound {uri : UriParams} (hb : a.blobs p.blob = some b)
    (hpage : LegalPageSize p.pageSize)
    (hsmall : pagesOf b.content.size (headerPageSize b.content p.pageSize) ≤ maxPages) :
    wp soundly (openTemp p uri b.content.size) (fun r w' => ∃ p' n, r = .ok p' ∧
      FirstFilled a (d.newFile (.temp (cacheDirName uri.cacheDir) n)) d.nextInode b.content
        { p with
          cacheFd := some d.nextInode
          zCachePath := some (.temp (cacheDirName uri.cacheDir) n) } p' w') ⟨a, d⟩ := by
  unfold openTemp openTempCache
  rw [wp_bind]
  refine wp_sys_sound fun c hc => ?_
  simp only [Disk.serve, hc.2, Bool.false_eq_true, if_false, Bool.not_true]
  refine wp_sys_sound fun c' hc' => ?_
  simp only [Disk.serve, hc'.2, Bool.false_eq_true, if_false, Bool.not_true]
  refine wp_alone_ret.mpr (wp_mono ?_ (wp_cacheDownload_sound (p := { p with
    cacheFd := some d.nextInode
    zCachePath := some (.temp (cacheDirName uri.cacheDir) d.nextInode) })
    hb hpage hsmall (d.newFile_inode _)))
  rintro r w' ⟨p', rfl, hf⟩
  exact ⟨p', _, rfl, hf⟩

/-! ## The missing pages -/

theorem scanWhile_spec (f : Nat → Bool) : ∀ n i, i ≤ scanWhile f n i ∧ scanWhile f n i ≤ i + n ∧
    (0 < n → f i = true → i < scanWhile f n i)
  | 0, i => ⟨Nat.le_refl _, Nat.le_refl _, by simp⟩
  | n + 1, i => by
    unfold scanWhile
    split
    · obtain ⟨h₁, h₂, -⟩ := scanWhile_spec f n (i + 1)
      exact ⟨by omega, by omega, fun _ _ => by omega⟩
    · next hf => exact ⟨Nat.le_refl _, by omega, fun _ h => absurd h hf⟩

/-- A prefetch changes the cache file and valid bits, and keeps an image of the content. -/
def Prefetched (a : Azure) (d : Disk) (fd : Fd) (p : ObjsFile) (r : ObjsFile × Rc) (w' : World) :
    Prop :=
  OnlyValid p r.1 ∧ ∃ f, w' = ⟨a, d.setInode fd f⟩ ∧
    ∀ b, a.blobs p.blob = some b → Image p (d.inode fd) b.content →
      r.2 = .ok ∧ Image r.1 f b.content ∧ (∀ k, p.Counts k → r.1.Counts k) ∧
      Closer b.content (d.inode fd) f

theorem Prefetched.refl (a : Azure) (d : Disk) (fd : Fd) (p : ObjsFile) :
    Prefetched a d fd p (p, .ok) ⟨a, d⟩ :=
  ⟨rfl, _, by rw [Disk.setInode_self], fun _ _ h => ⟨rfl, h, fun _ => id, fun _ => id⟩⟩

theorem wp_prefetchFrom {nPages : Nat} : ∀ (n i : Nat) {p : ObjsFile} {d : Disk},
    (pagesOf p.nData p.pageSize ≤ maxPages → nPages = pagesOf p.nData p.pageSize) →
    wp soundly (prefetchFrom p fd nPages n i) (Prefetched a d fd p) ⟨a, d⟩
  | 0, _, _, _, _ => wp_alone_ret.mpr (.refl _ _ _ _)
  | n + 1, i, p, d, hpages => by
    unfold prefetchFrom
    split
    · exact wp_alone_ret.mpr (.refl _ _ _ _)
    next hi =>
    split
    · exact wp_prefetchFrom n (i + 1) hpages
    next hbit =>
    obtain ⟨h₁, h₂, h₃⟩ := scanWhile_spec (fun j => !bitmapTestBit p.valid j) (nPages - i) i
    have h₃ := h₃ (by omega) (by simpa using hbit)
    generalize scanWhile (fun j => !bitmapTestBit p.valid j) (nPages - i) i = rangeEnd at h₁ h₂ h₃ ⊢
    dsimp only
    split
    · exact wp_prefetchFrom n rangeEnd hpages
    next hlen =>
    -- where the file is an image the range is one of whole pages
    have hpg : ∀ b, a.blobs p.blob = some b → Image p (d.inode fd) b.content →
        Image.Pages p.pageSize b.content (i * p.pageSize)
          (min (rangeEnd * p.pageSize) b.content.size) := by
      intro b hb h
      have hlt := mul_lt_of_lt_pagesOf h.page.pos (n := b.content.size) (k := i)
        (by rw [← h.nData, ← hpages (by rw [h.nData]; exact h.small)]; omega)
      rw [h.nData] at hlen
      refine ⟨Dvd.intro_left _ rfl, by omega, Nat.min_le_right _ _, ?_⟩
      rcases Nat.le_total (rangeEnd * p.pageSize) b.content.size with hle | hle
      · rw [Nat.min_eq_left hle]
        exact Or.inl (Dvd.intro_left _ rfl)
      · exact Or.inr (Nat.min_eq_right hle)
    refine wp_azPageBlobRead_any fun x hx => ?_
    have hbody : ∀ b, a.blobs p.blob = some b → Image p (d.inode fd) b.content → x.err = .ok ∧
        x.body = b.content.slice (i * p.pageSize)
          (min (rangeEnd * p.pageSize) b.content.size - i * p.pageSize) := by
      intro b hb h
      have hpg := hpg b hb h
      have := hpg.lt
      have := hpg.le
      have hx' := hx b hb (by omega) (by omega)
      rwa [h.nData] at hx'
    have hfail : ∀ {e : Rc}, (∀ b, a.blobs p.blob = some b → ¬ Image p (d.inode fd) b.content) →
        wp soundly (.ret (p, e)) (Prefetched a d fd p) ⟨a, d⟩ :=
      fun hno => wp_alone_ret.mpr ⟨rfl, _, by rw [Disk.setInode_self],
        fun b hb h => absurd h (hno b hb)⟩
    split
    · next hne => exact hfail fun b hb h => hne (hbody b hb h).1
    split
    · next _ h0 =>
      refine hfail fun b hb h => ?_
      have hpg := hpg b hb h
      have := hpg.lt
      have := hpg.le
      rw [(hbody b hb h).2, SparseFile.slice_size] at h0
      omega
    refine wp_storeFetched_bind ?_
    dsimp only
    rw [if_neg (by simp)]
    -- what is stored is an image where the file was one
    have hstored : ∀ b, a.blobs p.blob = some b → Image p (d.inode fd) b.content →
        Fetched a d fd b.content p _ _ := fun b hb h => by
      have hf := h.fetched (a := a) (hpg b hb h)
      rw [← SparseFile.slice_slice_zero, ← (hbody b hb h).2, ← h.nData] at hf
      exact hf
    have hv := onlyValid_validMarkRange p (i * p.pageSize) (i * p.pageSize +
      (x.body.slice 0 (min (rangeEnd * p.pageSize) p.nData - i * p.pageSize)).size)
    generalize validMarkRange p _ _ = q at hstored hv ⊢
    generalize (d.inode fd).pwrite _ _ = cache at hstored ⊢
    refine wp_mono ?_ (wp_prefetchFrom n rangeEnd (p := q) (d := d.setInode fd cache)
      (by rw [hv.nData, hv.pageSize]; exact hpages))
    rintro r _ ⟨hv', f, rfl, hrest⟩
    rw [Disk.setInode_inode_self, hv.blob] at hrest
    refine ⟨hv.trans hv', f, by rw [Disk.setInode_setInode], fun b hb h => ?_⟩
    have hf := hstored b hb h
    obtain ⟨hrc, himg, hcounts, hcl⟩ := hrest b hb hf.image_at.1
    exact ⟨hrc, himg, fun k hk => hcounts k (hf.counts k hk), fun j hj =>
      hcl j (hf.image_at.2 j hj)⟩

/-- `PRAGMA sqlite_objs_prefetch` at any time. -/
theorem wp_fileControlPrefetch_sound (hread : p.ops.pageBlobRead = true)
    (hfd : p.cacheFd = some fd) :
    wp soundly (fileControlPrefetch p) (Prefetched a d fd p) ⟨a, d⟩ := by
  unfold fileControlPrefetch
  split
  · unfold prefetchInvalidPages
    split
    · exact wp_alone_ret.mpr (.refl _ _ _ _)
    simp only [hread, hfd, Bool.not_true, Bool.false_eq_true, if_false]
    generalize hn : (pageCount p.nData p.pageSize).toNat = nPages
    refine wp_prefetchFrom nPages 0 fun hsmall => ?_
    rw [← hn, pageCount_eq hsmall, Int.toNat_natCast]
  · exact wp_alone_ret.mpr (.refl _ _ _ _)

end Filling
end SqliteObjs
