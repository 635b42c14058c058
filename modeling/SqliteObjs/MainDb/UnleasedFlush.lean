import SqliteObjs.MainDb.Coalesce
import SqliteObjs.MainDb.Durability

/-!
# Flushing without a lease

Without a lease `xSync` sends the ETag of the file as `If-Match` with every page write, and it
is the same ETag for all of them. An accepted request changes the ETag of the blob, so one
request can be accepted and no more: the resize of a file that has grown counts as one, which
carries no condition itself.

So `xSync` succeeds without a lease when there is nothing to write, or one range to write and
no resize before it. Otherwise the second request is refused, in a batch as well as one range
after the other, and `xSync` returns `SQLITE_BUSY`. The dirty pages that it writes are those
below its page count, which is narrowed to an `int`: success means that all dirty pages are in
the blob unless there are dirty pages beyond that count (`unleased_flush_complete_iff`).
-/

set_option autoImplicit false

namespace SqliteObjs

open Data CS CS.Program

/-! ## Spending an ETag -/

/-- The blob is at version `e`. -/
def AtVersion (i : BlobId) (e : ETag) (a : Azure) : Prop :=
  ∃ b, a.blobs i = some b ∧ b.etag = e ∧ e < a.nextETag

/-- The blob has left version `e` for good. -/
def PastVersion (i : BlobId) (e : ETag) (a : Azure) : Prop :=
  ∃ b, a.blobs i = some b ∧ b.etag ≠ e ∧ e < a.nextETag

/-- Of the changes that need version `e`, those in `A` were accepted: none or one. -/
def Spent (i : BlobId) (e : ETag) (A : Nat → Prop) (a : Azure) : Prop :=
  (AtVersion i e a ∧ ∀ k, ¬ A k) ∨ (PastVersion i e a ∧ ∀ k l, A k → A l → k = l)

section Spent

variable {i : BlobId} {e : ETag} {A B : Nat → Prop} {a : Azure}

theorem Spent.mono (h : Spent i e B a) (hsub : ∀ k, A k → B k) : Spent i e A a :=
  h.imp (fun ⟨ha, hno⟩ => ⟨ha, fun k hk => hno k (hsub k hk)⟩)
    fun ⟨ha, hone⟩ => ⟨ha, fun k l hk hl => hone k l (hsub k hk) (hsub l hl)⟩

theorem pastVersion_change {b : Blob} (c : Bytes) (he : e < a.nextETag) :
    PastVersion i e (a.change i b c) := by
  refine ⟨_, Azure.change_blobs_self a i b c _, ?_, ?_⟩
  · exact Nat.ne_of_gt he
  · exact Nat.lt_succ_of_lt he

/-- A page write under the condition: accepted at version `e` and refused afterwards. -/
theorem Spent.write (h : Spent i e A a) (off : Nat) (data : Bytes) (lease : Option LeaseId)
    (k : Nat) : Spent i e A (a.respond (.pageBlobWrite i off data lease (some e))).2 ∧
      ((a.respond (.pageBlobWrite i off data lease (some e))).1.err = .ok →
        Spent i e (fun j => A j ∨ j = k)
          (a.respond (.pageBlobWrite i off data lease (some e))).2) := by
  by_cases hok : (a.respond (.pageBlobWrite i off data lease (some e))).1.err = .ok
  · rcases h with ⟨⟨b, hb, -, hlt⟩, hno⟩ | ⟨⟨b, hb, hne, -⟩, -⟩
    · obtain ⟨-, -, -, -, hstate⟩ := Azure.respond_pageBlobWrite hb hok
      rw [hstate]
      have hpast := pastVersion_change (i := i) (b := b) (b.content.pwrite off data) hlt
      refine ⟨Or.inr ⟨hpast, fun k l hk => absurd hk (hno k)⟩, fun _ => Or.inr ⟨hpast, ?_⟩⟩
      rintro m l (hm | rfl) (hl | rfl)
      · exact absurd hm (hno m)
      · exact absurd hm (hno m)
      · exact absurd hl (hno l)
      · rfl
    · -- a later version does not match
      obtain ⟨-, hmatch, -⟩ := Azure.respond_pageBlobWrite hb hok
      exact absurd (hmatch e rfl).symm hne
  · rw [Azure.respond_refused a _ hok]
    exact ⟨h, fun hok' => absurd hok' hok⟩

end Spent

/-! ## A flush under an ETag -/

/-- A file without a lease, whose ETag is that of its blob `b`: the machine has its cache file,
and nobody holds a lease on the blob. -/
structure Unleased (p : ObjsFile) (b : Blob) (w : World) : Prop where
  kind : p.eFileType = .mainDb
  ops : p.ops.Complete
  cache : p.cacheFd ≠ none
  page : LegalPageSize p.pageSize
  counted : p.dirty.Counted
  lease : p.leaseId = none
  blob : w.azure.blobs p.blob = some b
  free : b.admits none = true
  etag : p.etag = some b.etag
  fresh : b.etag < w.azure.nextETag
  synced : align512 p.lastSyncedSize ≤ b.content.size

section Flush

variable {p : ObjsFile} {e : ETag} {w : World}

theorem flushing_spent (hlease : p.leaseId = none) (hetag : p.etag = some e)
    (loaded : List PageRange) : Flushing (.alone (World.served Sound)) p loaded
      fun A _ w => Spent p.blob e A w.azure where
  fact _ _ := fact_sound _
  mono hsub _ h := h.mono hsub
  renew _ _ id hid := absurd (hlease.symm.trans hid) (by simp)
  put {k r} _ A _ w x w' h hs := by
    have hcond : syncIfMatch p = some e := by
      unfold syncIfMatch
      rw [hlease]
      exact hetag
    rw [hcond] at hs
    obtain ⟨hx, ha⟩ := served_sound hs
    obtain ⟨hkeep, hdone⟩ := h.write r.offset r.data p.leaseId k
    rw [← ha] at hkeep hdone
    refine ⟨trivial, hkeep, fun hok => hdone ?_⟩
    rw [hx] at hok
    exact hok

/-- A flush that finds its ETag spent, or needs it twice, does not succeed. -/
theorem wp_writeRanges_spent (hlease : p.leaseId = none) (hetag : p.etag = some e)
    {loaded : List PageRange} {A : Nat → Prop} (h : Spent p.blob e A w.azure)
    (htwice : ∃ k l, k ≠ l ∧ (A k ∨ k < loaded.length) ∧ (A l ∨ l < loaded.length))
    (hsome : loaded ≠ []) (aerr : Option (Option ETag)) :
    wp (.alone (World.served Sound)) (writeRanges p loaded aerr)
      (fun r _ => ∃ rc, r.2 = .error rc ∧ rc ≠ .ok) w := by
  have hF := flushing_spent hlease hetag loaded
  refine wp_mono ?_ (hF.wp_writeRanges seen_sound (A := A) (T := fun _ => False) (d := w.disk)
    ⟨h, rfl⟩ aerr)
  rintro ⟨q, res⟩ w' hend
  cases res with
  | error rc => exact ⟨rc, rfl, hend.failed rc rfl⟩
  | ok etag =>
    have hspent : Spent p.blob e (fun j => A j ∨ j < loaded.length) w'.azure :=
      (hend.written etag rfl hsome).1
    obtain ⟨k, l, hne, hk, hl⟩ := htwice
    rcases hspent with ⟨-, hno⟩ | ⟨-, hone⟩
    · exact absurd hk (hno k)
    · exact absurd (hone k l hk hl) hne

/-! ## The whole of `xSync` -/

/-- The dirty bytes on the pages that the flush looks at. -/
abbrev seenDirty (p : ObjsFile) : Set Nat :=
  dirtyBytes p.dirty p.pageSize p.nData (pageCount p.nData p.pageSize).toNat

/-- The dirty bytes of the file. -/
abbrev allDirty (p : ObjsFile) : Set Nat :=
  dirtyBytes p.dirty p.pageSize p.nData (pagesOf p.nData p.pageSize)

/-- The flush needs one request at most that changes the blob: none of the pages it looks at is
dirty, or one page write can cover the dirty ones and no resize comes before it. -/
def OneRequest (p : ObjsFile) : Prop :=
  ∃ rs, Covers maxPutPage (seenDirty p) rs ∧
    (rs = [] ∨ rs.length = 1 ∧ p.nData ≤ p.lastSyncedSize)

/-- On dirty pages that the flush does not look at, the blob has the bytes of the cache file. -/
def RestStored (p : ObjsFile) (blob cache : Bytes) : Prop :=
  ∀ j ∈ allDirty p, j ∉ seenDirty p → blob.get j = cache.get j

/-- What a successful flush makes of the content `old` of the blob. -/
structure StoredDirty (p : ObjsFile) (old cache C : Bytes) : Prop where
  dirty : ∀ j ∈ seenDirty p, C.get j = cache.get j
  rest : ∀ j, j < align512 p.nData → j ∉ seenDirty p → C.get j = old.get j

/-- After a successful flush all dirty pages are in the blob exactly if the others were. -/
theorem StoredDirty.all_iff {old cache C : Bytes} (h : StoredDirty p old cache C) :
    (∀ j ∈ allDirty p, C.get j = cache.get j) ↔ RestStored p old cache := by
  constructor
  · intro hall j hj hunseen
    rw [← h.rest j hj.2.2 hunseen]
    exact hall j hj
  · intro hrest j hj
    by_cases hseen : j ∈ seenDirty p
    · exact h.dirty j hseen
    · rw [h.rest j hj.2.2 hseen]
      exact hrest j hj hseen

theorem coalesceDirtyRanges_of_length_le {m : Int} {ranges : List (Nat × Nat)}
    (h : coalesceDirtyRanges p m = some ranges) (m' : Int) (hle : ranges.length ≤ m') :
    coalesceDirtyRanges p m' = some ranges := by
  unfold coalesceDirtyRanges at h ⊢
  dsimp only at h ⊢
  split at h
  · next h₀ => rwa [if_pos h₀]
  next h₀ =>
  split at h
  · next h₁ => rwa [if_neg h₀, if_pos h₁]
  next h₁ =>
  split at h
  · cases h
  · obtain rfl := Option.some.inj h
    rw [if_neg h₀, if_neg h₁, if_neg fun hmany => by omega]

theorem coalesceDirtyRanges_unique {m m' : Int} {ranges ranges' : List (Nat × Nat)}
    (h : coalesceDirtyRanges p m = some ranges) (h' : coalesceDirtyRanges p m' = some ranges') :
    ranges = ranges' := by
  have h₁ := coalesceDirtyRanges_of_length_le h (max ranges.length ranges'.length) (by omega)
  have h₂ := coalesceDirtyRanges_of_length_le h' (max ranges.length ranges'.length) (by omega)
  exact Option.some.inj (h₁.symm.trans h₂)

/-- What the code returns covers the dirty bytes it looks at, however large its array is. -/
theorem rangesFor_of_coalesce (hps : LegalPageSize p.pageSize) (hc : p.dirty.Counted) {m : Int}
    {ranges : List (Nat × Nat)} (h : coalesceDirtyRanges p m = some ranges) :
    RangesFor p (pageCount p.nData p.pageSize).toNat ranges := by
  have hspec := coalesceDirtyRanges_spec hps hc ranges.length
  rw [coalesceDirtyRanges_of_length_le h _ (Int.le_refl _)] at hspec
  exact hspec.1

/-- If one page write can cover the dirty bytes, the code finds one range. -/
theorem OneRequest.ranges (h : OneRequest p) (hps : LegalPageSize p.pageSize)
    (hc : p.dirty.Counted) : ∃ ranges, coalesceDirtyRanges p stackRanges = some ranges ∧
      (ranges = [] ∨ ranges.length = 1 ∧ p.nData ≤ p.lastSyncedSize) := by
  obtain ⟨rs, hrs, hone⟩ := h
  have hlen : rs.length ≤ 1 := by
    rcases hone with rfl | ⟨hone, -⟩
    · exact Nat.zero_le _
    · exact Nat.le_of_eq hone
  have hspec := coalesceDirtyRanges_spec hps hc stackRanges
  cases hr : coalesceDirtyRanges p stackRanges with
  | none =>
    rw [hr] at hspec
    have hmany : stackRanges < rs.length := hspec rs hrs
    exact absurd (Nat.lt_of_lt_of_le hmany hlen) (by decide)
  | some ranges =>
    rw [hr] at hspec
    have hle : ranges.length ≤ rs.length := hspec.1.length_le hrs
    refine ⟨ranges, rfl, ?_⟩
    rcases hone with rfl | ⟨hone, hsynced⟩
    · exact Or.inl (List.length_eq_zero_iff.mp (Nat.le_zero.mp hle))
    · rcases Nat.eq_zero_or_pos ranges.length with h0 | hpos
      · exact Or.inl (List.length_eq_zero_iff.mp h0)
      · exact Or.inr ⟨by omega, hsynced⟩

/-- Without a lease there is nothing to renew. -/
theorem leaseRenewIfNeeded_of_none (h : p.leaseId = none) :
    leaseRenewIfNeeded p = .ret (p, .ok) := by
  unfold leaseRenewIfNeeded
  rw [h]
  rfl

variable {b : Blob}

/-- The resize of a file that has grown is accepted, and takes the blob past the file's ETag. -/
theorem Unleased.wp_resizeForSync_bind (h : Unleased p b w) {α : Type}
    {f : ObjsFile × Rc × Option (Option ETag) → Prog α} {Q : α → World → Prop}
    (hf : ∀ n aerr w', w'.disk = w.disk →
      (p.nData ≤ p.lastSyncedSize → n = p.lastSyncedSize ∧ w' = w) →
      (p.lastSyncedSize < p.nData → PastVersion p.blob b.etag w'.azure ∧
        w'.azure.Has p.blob (· = b.content.truncate (align512 p.nData))) →
      wp (.alone (World.served Sound)) (f ({ p with lastSyncedSize := n }, .ok, aerr)) Q w') :
    wp (.alone (World.served Sound)) (resizeForSync p >>= f) Q w := by
  have hres : p.ops.pageBlobResize = true := by rw [h.ops]; rfl
  rw [wp_bind]
  unfold resizeForSync
  by_cases hlt : p.lastSyncedSize < p.nData
  · rw [if_pos ⟨hlt, hres⟩]
    unfold azPageBlobResize
    rw [if_neg (by unfold align512; omega)]
    refine wp_execute_bind (I := fun w' => w' = w) stable_alone rfl ?_
    rintro w x w' rfl hs
    obtain ⟨hx, ha⟩ := served_sound hs
    have hdisk : w'.disk = w.disk := seen_sound.azure_disk hs
    have hok : (w.azure.respond (.pageBlobResize p.blob (align512 p.nData) p.leaseId)).1.err =
        .ok := by
      simp [Azure.respond, h.blob, h.lease, h.free, align512]
    obtain ⟨-, -, hstate⟩ := Azure.respond_pageBlobResize h.blob hok
    have herr : x.err = .ok := by
      rw [hx]
      exact hok
    refine ⟨trivial, fun hretry => ?_, ?_⟩
    · rw [herr] at hretry
      cases hretry
    rw [if_neg (by rw [herr]; simp)]
    refine wp_alone_ret.mpr (hf _ _ w' hdisk (fun hle => absurd hlt (by omega)) fun _ => ?_)
    rw [ha, hstate]
    exact ⟨pastVersion_change _ h.fresh, _, Azure.change_blobs_self _ _ _ _ _, rfl⟩
  · rw [if_neg fun hgrown => hlt hgrown.1]
    exact wp_alone_ret.mpr (hf p.lastSyncedSize none w rfl (fun _ => ⟨rfl, rfl⟩) fun hgrown =>
      absurd hgrown hlt)

/-- A flush that needs a second request is refused. -/
theorem Unleased.wp_mainDbSync_refused (h : Unleased p b w) (hno : ¬ OneRequest p) :
    wp (.alone (World.served Sound)) (mainDbSync p) (fun r _ => r.2 ≠ .ok) w := by
  obtain ⟨fd, hfd⟩ := Option.ne_none_iff_exists'.mp h.cache
  unfold mainDbSync
  split
  · next h0 =>
    have hnone := rangesFor_nil (h.counted.none_of_zero h0) (pageCount p.nData p.pageSize).toNat
    exact absurd ⟨[], hnone.toCovers, Or.inl rfl⟩ hno
  have hwr : p.ops.pageBlobWrite = true := by rw [h.ops]; rfl
  rw [if_neg (by simp [hwr]), leaseRenewIfNeeded_of_none h.lease]
  dsimp only [ret_bind]
  rw [if_neg (by simp)]
  refine h.wp_resizeForSync_bind fun n aerr w₁ _ hsame hpast => ?_
  dsimp only
  rw [if_neg (by simp)]
  refine wp_syncRanges_bind_of quiet_alone (fun rc _ hrc => wp_alone_ret.mpr hrc) ?_
  intro m ranges hranges
  have hranges : RangesFor p (pageCount p.nData p.pageSize).toNat ranges :=
    rangesFor_of_coalesce (p := p) h.page h.counted hranges
  -- two requests: two ranges, or one after the resize
  have hne : ranges ≠ [] := by
    rintro rfl
    exact hno ⟨[], hranges.toCovers, Or.inl rfl⟩
  have hgrown : ranges.length = 1 → p.lastSyncedSize < p.nData := by
    intro hlen
    by_contra hle
    exact hno ⟨ranges, hranges.toCovers, Or.inr ⟨hlen, by omega⟩⟩
  have hk : Knows id (fun w => w.azure = w₁.azure) w₁.disk w₁ := ⟨rfl, rfl⟩
  refine hk.wp_loadRanges_padded_bind seen_sound (fact_sound (· = w₁.azure)) (fun _ c _ hc => hc.2)
    (show ({ p with lastSyncedSize := n } : ObjsFile).cacheFd = some fd from hfd) ?_ ?_
  · exact fun rc d' w' hal => absurd allocates_sound hal
  intro loaded d' w₂ hl _ hk₂
  have hlen : loaded.length = ranges.length := by
    have := congrArg List.length hl.spans
    rwa [List.length_map] at this
  have hpos : 0 < loaded.length := by
    rw [hlen]
    exact List.length_pos_iff.mpr hne
  dsimp only
  rw [wp_bind]
  have hazure : w₂.azure = w₁.azure := hk₂.1
  refine wp_mono (Q := fun r _ => ∃ rc, r.2 = .error rc ∧ rc ≠ .ok) ?_ ?_
  · rintro ⟨q, res⟩ w₃ ⟨rc, hres, hrc⟩
    obtain rfl : res = .error rc := hres
    exact wp_alone_ret.mpr hrc
  by_cases hlt : p.lastSyncedSize < p.nData
  · refine wp_writeRanges_spent (p := { p with lastSyncedSize := n }) h.lease h.etag
      (A := fun k => k = loaded.length) (Or.inr ⟨?_, fun k l hk hl => hk.trans hl.symm⟩)
      ⟨0, loaded.length, by omega, Or.inr hpos, Or.inl rfl⟩ (List.length_pos_iff.mp hpos) aerr
    rw [hazure]
    exact (hpast hlt).1
  · refine wp_writeRanges_spent (p := { p with lastSyncedSize := n }) h.lease h.etag
      (A := fun _ => False) (Or.inl ⟨⟨b, ?_, rfl, ?_⟩, fun _ => id⟩)
      ⟨0, 1, by decide, Or.inr hpos, Or.inr ?_⟩ (List.length_pos_iff.mp hpos) aerr
    · rw [hazure, (hsame (by omega)).2]
      exact h.blob
    · rw [hazure, (hsame (by omega)).2]
      exact h.fresh
    · by_contra hone
      exact hlt (hgrown (by omega))

/-- A page write that carries the ETag of the blob is accepted. -/
theorem wp_azPageBlobWrite_current {i : BlobId} (hb : w.azure.blobs i = some b)
    (hfree : b.admits none = true) {off : Nat} {data : Bytes} (hoff : 512 ∣ off)
    (hsize : 512 ∣ data.size) (hpos : 0 < data.size) (hcap : data.size ≤ maxPutPage)
    (hend : off + data.size ≤ b.content.size) :
    wp (.alone (World.served Sound)) (azPageBlobWrite i off data none (some b.etag)) (fun x w' =>
      x.err = .ok ∧ w'.disk = w.disk ∧ w'.azure.Has i (· = b.content.pwrite off data)) w := by
  have hcap : data.size ≤ 4 * 1024 * 1024 := hcap
  unfold azPageBlobWrite azureMaxPageWrite
  rw [if_neg (by omega), if_neg (by omega), if_neg (by omega)]
  refine wp_execute (I := fun w' => w' = w) stable_alone (fun _ => stable_alone) rfl ?_
  rintro w x w' rfl hs
  obtain ⟨hx, ha⟩ := served_sound hs
  have hok : (w.azure.respond (.pageBlobWrite i off data none (some b.etag))).1.err = .ok := by
    simp only [Azure.respond, hb, hfree]
    rw [if_neg (by omega), if_neg (by simp), if_neg (by simp), if_neg (by omega)]
  obtain ⟨-, -, -, -, hstate⟩ := Azure.respond_pageBlobWrite hb hok
  have herr : x.err = .ok := by
    rw [hx]
    exact hok
  refine ⟨trivial, fun hretry => ?_, herr, seen_sound.azure_disk hs, ?_⟩
  · rw [herr] at hretry
    cases hretry
  · rw [ha, hstate]
    exact ⟨_, Azure.change_blobs_self _ _ _ _ _, rfl⟩

/-- The writes of a flush of one range. -/
theorem wp_writeRanges_one (hlease : p.leaseId = none) (hetag : p.etag = some b.etag)
    (hb : w.azure.blobs p.blob = some b) (hfree : b.admits none = true) {r : PageRange}
    (hoff : 512 ∣ r.offset) (hsize : 512 ∣ r.data.size) (hpos : 0 < r.data.size)
    (hcap : r.data.size ≤ maxPutPage) (hend : r.offset + r.data.size ≤ b.content.size)
    (aerr : Option (Option ETag)) :
    wp (.alone (World.served Sound)) (writeRanges p [r] aerr) (fun res w' =>
      (∃ etag, res = (p, .ok etag)) ∧
      w'.azure.Has p.blob (· = b.content.pwrite r.offset r.data)) w := by
  have hcond : syncIfMatch p = some b.etag := by
    unfold syncIfMatch
    rw [hlease]
    exact hetag
  have hone := wp_azPageBlobWrite_current hb hfree hoff hsize hpos hcap hend
  unfold writeRanges
  split
  · unfold azPageBlobWriteBatch
    rw [wp_bind, hlease, hcond]
    refine wp_mono ?_ hone
    rintro x w' ⟨hx, -, hhas⟩
    rw [if_neg (by rw [hx]; decide), if_neg (by rw [hx]; simp)]
    exact wp_alone_ret.mpr ⟨⟨_, rfl⟩, hhas⟩
  have hseq : ∀ etag, wp (.alone (World.served Sound)) (writeSequential [r] 0 etag p) (fun res w' =>
      (∃ etag, res = (p, .ok etag)) ∧
      w'.azure.Has p.blob (· = b.content.pwrite r.offset r.data)) w := by
    intro etag
    unfold writeSequential renewEvery50
    rw [if_neg (by decide), pure_eq_ret, ret_bind]
    dsimp only
    rw [if_neg (by simp), wp_bind, hlease, hcond]
    refine wp_mono ?_ hone
    rintro x w' ⟨hx, -, hhas⟩
    rw [if_neg (by rw [hx]; decide), if_neg (by rw [hx]; simp)]
    exact wp_alone_ret.mpr ⟨⟨_, rfl⟩, hhas⟩
  cases aerr with
  | some e => exact hseq e
  | none => exact wp_quiet_bind quiet_alone rfl fun u _ => hseq _

/-- Without ranges a flush writes nothing. -/
theorem wp_writeRanges_nil (aerr : Option (Option ETag)) :
    wp (.alone (World.served Sound)) (writeRanges p [] aerr)
      (fun res w' => (∃ etag, res = (p, .ok etag)) ∧ w' = w) w := by
  unfold writeRanges
  split
  · exact wp_alone_ret.mpr ⟨⟨_, rfl⟩, rfl⟩
  unfold etagBefore
  split
  · exact wp_alone_ret.mpr ⟨⟨_, rfl⟩, rfl⟩
  · exact wp_quiet_bind quiet_alone rfl fun u _ => wp_alone_ret.mpr ⟨⟨_, rfl⟩, rfl⟩

/-- What follows the writes leaves the blob's content. -/
theorem wp_afterWrites {i : BlobId} {R : Bytes → Prop} (hi : p.blob = i) (hhas : w.azure.Has i R)
    (n : Int) (etag : Option ETag) :
    wp (.alone (World.served Sound)) (do
      let p ← finishFlush p n etag
      let p ← takeSnapshot p
      persistState p
      return (p, Rc.ok)) (fun r w' => r.2 = .ok ∧ w'.azure.Has i R) w := by
  have hA : Fact (.alone (World.served Sound)) fun w => w.azure.Has i R :=
    fact_sound fun a => a.Has i R
  have hk : Knows id (fun w => w.azure.Has i R) w.disk w := ⟨hhas, rfl⟩
  refine hk.wp_finishFlush_bind seen_sound hA fun d₁ w₁ _ hk₁ => ?_
  generalize hq : { p with
    lastSyncDirtyCount := n, etag := etag.or p.etag, dirty := bitmapClearAll p.dirty } = q
  have hqi : q.blob = i := by
    rw [← hq]
    exact hi
  have hlast : ∀ {q : ObjsFile} {w : World}, Knows id (fun w => w.azure.Has i R) d₁ w →
      wp (.alone (World.served Sound)) (do persistState q; return (q, Rc.ok))
        (fun r w' => r.2 = .ok ∧ w'.azure.Has i R) w :=
    fun hk => hk.wp_persistState_bind seen_sound hA fun _ _ _ hk' => wp_alone_ret.mpr ⟨rfl, hk'.1⟩
  rw [wp_bind]
  unfold takeSnapshot
  split
  · unfold azBlobSnapshotCreate
    rw [hqi]
    refine hk₁.wp_execute_bind seen_sound hA (fun w x w' h hs => ⟨trivial, ?_⟩) fun x w₂ hk₂ =>
      wp_alone_ret.mpr (hlast hk₂)
    obtain ⟨c, -, hc⟩ := hs
    exact h.snapshot (respond_azure hc)
  · exact wp_alone_ret.mpr (hlast hk₁)

/-- Nothing is dirty, so nothing is flushed. -/
theorem storedDirty_nothing {old cache C : Bytes} (hnone : ∀ j, j ∉ seenDirty p)
    (hsame : ∀ j, j < align512 p.nData → C.get j = old.get j) : StoredDirty p old cache C :=
  ⟨fun j hj => absurd hj (hnone j), fun j hj _ => hsame j hj⟩

/-- A flush that needs one request succeeds with the dirty pages it looks at. -/
theorem Unleased.wp_mainDbSync_complete (h : Unleased p b w) {fd : Fd} (hfd : p.cacheFd = some fd)
    (hone : OneRequest p) :
    wp (.alone (World.served Sound)) (mainDbSync p) (fun r w' => r.2 = .ok ∧
      w'.azure.Has p.blob (StoredDirty p b.content (w.disk.inode fd))) w := by
  obtain ⟨ranges, hranges, hone⟩ := hone.ranges h.page h.counted
  have hspec := rangesFor_of_coalesce h.page h.counted hranges
  unfold mainDbSync
  split
  · -- the count is right, so no page is dirty
    next h0 =>
    refine wp_alone_ret.mpr ⟨rfl, b, h.blob, storedDirty_nothing (fun j hj => ?_) fun _ _ => rfl⟩
    have hbit := hj.2.1
    rw [h.counted.none_of_zero h0] at hbit
    cases hbit
  have hwr : p.ops.pageBlobWrite = true := by rw [h.ops]; rfl
  rw [if_neg (by simp [hwr]), leaseRenewIfNeeded_of_none h.lease]
  dsimp only [ret_bind]
  rw [if_neg (by simp)]
  refine h.wp_resizeForSync_bind fun n aerr w₁ hdisk hsame hpast => ?_
  dsimp only
  rw [if_neg (by simp)]
  refine wp_syncRanges_bind_of quiet_alone (fun rc hnone => ?_) ?_
  · exact absurd (hranges.symm.trans hnone) (by simp)
  intro m ranges' hranges'
  obtain rfl : ranges' = ranges := coalesceDirtyRanges_unique (p := p) hranges' hranges
  have hk : Knows id (fun w => w.azure = w₁.azure) w₁.disk w₁ := ⟨rfl, rfl⟩
  refine hk.wp_loadRanges_padded_bind seen_sound (fact_sound (· = w₁.azure)) (fun _ c _ hc => hc.2)
    (show ({ p with lastSyncedSize := n } : ObjsFile).cacheFd = some fd from hfd) ?_ ?_
  · exact fun rc d' w' hal => absurd allocates_sound hal
  intro loaded d' w₂ hl _ hk₂
  rw [hdisk] at hl
  have hazure : w₂.azure = w₁.azure := hk₂.1
  dsimp only
  rw [wp_bind]
  rcases hone with rfl | ⟨hlen, hsynced⟩
  · -- nothing to write
    obtain rfl : loaded = [] := List.map_eq_nil_iff.mp hl.spans
    refine wp_mono ?_ (wp_writeRanges_nil aerr)
    rintro _ w₃ ⟨⟨etag, rfl⟩, rfl⟩
    refine wp_afterWrites (p := { p with lastSyncedSize := n }) rfl ?_ _ _
    have hnone : ∀ j, j ∉ seenDirty p := by
      intro j hj
      obtain ⟨r, hr, -⟩ := (hspec.mem_iff j).mp hj
      exact absurd hr List.not_mem_nil
    rw [hazure]
    rcases Nat.lt_or_ge p.lastSyncedSize p.nData with hlt | hge
    · obtain ⟨b', hb', hcontent⟩ := (hpast hlt).2
      refine ⟨b', hb', storedDirty_nothing hnone fun j hj => ?_⟩
      rw [hcontent, SparseFile.truncate_get, if_pos hj]
    · rw [(hsame hge).2]
      exact ⟨b, h.blob, storedDirty_nothing hnone fun _ _ => rfl⟩
  · -- one range: no resize came before it, so the ETag still matches
    obtain ⟨rfl, rfl⟩ := hsame hsynced
    have hlen' : loaded.length = 1 := by
      rw [← hlen, ← hl.spans, List.length_map]
    obtain ⟨r, rfl⟩ := List.length_eq_one_iff.mp hlen'
    obtain rfl : ranges' = [(r.offset, r.data.size)] := hl.spans.symm
    have hmem : (r.offset, r.data.size) ∈ [(r.offset, r.data.size)] := List.mem_singleton_self _
    have hpos : 0 < r.data.size := hspec.pos _ hmem
    -- the range ends with the last sector of the file
    have hend : r.offset + r.data.size ≤ b.content.size := by
      have hlast : r.offset + r.data.size - 1 ∈ dirtyBytes p.dirty p.pageSize p.nData _ :=
        hspec.toCovers.mem hmem ⟨by dsimp only; omega, by dsimp only; omega⟩
      have hlt := hlast.2.2
      have hmono : align512 p.nData ≤ align512 p.lastSyncedSize := by
        unfold align512
        omega
      have := h.synced
      omega
    have hoff : 512 ∣ r.offset := h.page.dvd.trans (hspec.start _ hmem)
    refine wp_mono ?_ (wp_writeRanges_one (p := { p with lastSyncedSize := p.lastSyncedSize })
      (b := b) h.lease h.etag (by rw [hazure]; exact h.blob) h.free hoff (hspec.sectors _ hmem) hpos
      (hspec.le_cap _ hmem) hend aerr)
    rintro _ w₃ ⟨⟨etag, rfl⟩, hhas⟩
    refine wp_afterWrites (p := { p with lastSyncedSize := p.lastSyncedSize }) rfl (hhas.imp ?_) _ _
    rintro _ rfl
    have hin : ∀ j, j ∈ seenDirty p ↔ r.offset ≤ j ∧ j < r.offset + r.data.size := by
      intro j
      rw [hspec.mem_iff j]
      simp only [List.mem_singleton, exists_eq_left]
      exact Iff.rfl
    constructor
    · intro j hj
      obtain ⟨hlo, hhi⟩ := (hin j).mp hj
      rw [SparseFile.pwrite_get_of_mem _ _ hlo hhi,
        hl.bytes r (List.mem_singleton_self r) _ (by omega)]
      congr 1
      omega
    · intro j _ hj
      exact SparseFile.pwrite_get_of_not_mem _ _ fun hr => hj ((hin j).mpr hr)

/-! ## A flush without a lease ends -/

theorem noRelock_azPageBlobWrite (i : BlobId) (off : Nat) (data : Bytes) (lease : Option LeaseId)
    (ifMatch : Option ETag) : NoRelock (azPageBlobWrite i off data lease ifMatch) := by
  unfold azPageBlobWrite
  exact Uses.ite trivial (Uses.ite trivial (Uses.ite trivial (noRelock_execute _)))

theorem noRelock_batchSend (i : BlobId) (ranges : List PageRange) (ifMatch : Option ETag) :
    ∀ (order : List Nat) (last : Nat), NoRelock (batchSend i ranges none ifMatch order last)
  | [], _ => trivial
  | k :: order, last => by
    unfold batchSend
    split
    · exact noRelock_batchSend i ranges ifMatch order last
    refine (noRelock_azure _).bind fun x => ?_
    unfold batchRenewLease
    exact (noRelock_batchSend i ranges ifMatch order last).bind fun _ => trivial

theorem noRelock_azPageBlobWriteBatch (i : BlobId) (ranges : List PageRange)
    (ifMatch : Option ETag) :
    NoRelock (azPageBlobWriteBatch i ranges none ifMatch) := by
  unfold azPageBlobWriteBatch
  split
  · trivial
  · exact noRelock_azPageBlobWrite _ _ _ _ _
  refine (noRelock_transferSetup _).bind fun e => Uses.ite trivial ?_
  refine Uses.bind (noRelock_transfer (fun order s => ?_) _ _ _) fun res => Uses.ite trivial trivial
  refine (noRelock_sys (by simp)).bind fun start => ?_
  exact (noRelock_batchSend i ranges ifMatch order start.n).bind fun _ => trivial

theorem noRelock_writeSequential :
    ∀ (rs : List PageRange) (k : Nat) (etag : Option ETag) (p : ObjsFile),
    NoRelock (writeSequential rs k etag p)
  | [], _, _, _ => trivial
  | r :: rs, k, etag, p => by
    have hrenew : NoRelock (renewEvery50 p k) := by
      unfold renewEvery50 leaseRenewIfNeeded
      refine Uses.ite ?_ trivial
      split
      · trivial
      refine (noRelock_sys (by simp)).bind fun _ => Uses.ite trivial ?_
      exact (noRelock_execute _).bind fun _ => Uses.ite trivial trivial
    unfold writeSequential
    refine hrenew.bind ?_
    rintro ⟨p', rc⟩
    refine Uses.ite trivial ?_
    refine (noRelock_azPageBlobWrite _ _ _ _ _).bind fun x => Uses.ite trivial (Uses.ite trivial ?_)
    exact noRelock_writeSequential rs _ _ _

theorem noRelock_writeRanges (h : p.leaseId = none) (loaded : List PageRange)
    (aerr : Option (Option ETag)) : NoRelock (writeRanges p loaded aerr) := by
  have hetag : NoRelock (etagBefore aerr) := by
    unfold etagBefore
    split
    · trivial
    · exact (noRelock_sys (by simp)).bind fun _ => trivial
  unfold writeRanges
  refine Uses.ite ?_ (hetag.bind fun etag => noRelock_writeSequential _ _ _ _)
  rw [h]
  exact (noRelock_azPageBlobWriteBatch _ _ _).bind fun x =>
    Uses.ite trivial (Uses.ite trivial trivial)

theorem noRelock_loadRanges (p : ObjsFile) (ranges : List (Nat × Nat)) :
    NoRelock (loadRanges p ranges) := by
  have hpad : NoRelock (padCache p.cacheFd ranges) := by
    unfold padCache
    split
    · refine (noRelock_sys (by simp)).bind fun _ => Uses.ite ?_ trivial
      exact (noRelock_sys (by simp)).bind fun _ => trivial
    · trivial
  have hread : ∀ rs : List (Nat × Nat), NoRelock (readRanges p.cacheFd rs) := by
    intro rs
    induction rs with
    | nil => trivial
    | cons r rs ih =>
      unfold readRanges
      split
      · trivial
      · exact (noRelock_sys (by simp)).bind fun _ => Uses.ite trivial (ih.bind fun _ => trivial)
  unfold loadRanges
  dsimp only
  refine Uses.ite trivial (hpad.bind fun _ => ?_)
  refine (noRelock_sys (by simp)).bind fun _ => Uses.ite trivial ?_
  exact (hread ranges).bind fun _ => trivial

theorem noRelock_finishFlush (p : ObjsFile) (n : Int) (etag : Option ETag) :
    NoRelock (finishFlush p n etag) := by
  have hpersist : ∀ q : ObjsFile, NoRelock (persistEtag q) := by
    intro q
    unfold persistEtag writeEtagFile
    split
    · split
      · trivial
      refine (noRelock_sys (by simp)).bind fun _ => Uses.ite trivial ?_
      refine (noRelock_sys (by simp)).bind fun _ => Uses.ite trivial ?_
      exact (noRelock_sys (by simp)).bind fun _ => trivial
    · trivial
  unfold finishFlush
  split
  · trivial
  · exact (hpersist _).bind fun _ => trivial

theorem noRelock_persistState (p : ObjsFile) : NoRelock (persistState p) := by
  unfold persistState writeStateFile
  split
  · refine Uses.ite trivial ((noRelock_sys (by simp)).bind fun _ => Uses.ite trivial ?_)
    exact (noRelock_sys (by simp)).bind fun _ => trivial
  · trivial

theorem noRelock_mainDbSync (h : p.leaseId = none) : NoRelock (mainDbSync p) := by
  have hresize : Within (fun r => r ≠ .sys .relock) (fun r => r.1.leaseId = none)
      (resizeForSync p) := by
    have hcall : NoRelock (azPageBlobResize p.blob (align512 p.nData) p.leaseId) := by
      unfold azPageBlobResize
      exact Uses.ite trivial (noRelock_execute _)
    unfold resizeForSync
    exact .ite (hcall.within.bind fun x _ => .ite (by exact h) (by exact h)) (by exact h)
  have hranges : ∀ q : ObjsFile, NoRelock (syncRanges q) := by
    intro q
    unfold syncRanges
    split
    · trivial
    refine (noRelock_sys (by simp)).bind fun _ => Uses.ite trivial ?_
    split
    · trivial
    · trivial
  have hsnap : ∀ q : ObjsFile, NoRelock (takeSnapshot q) := by
    intro q
    unfold takeSnapshot
    exact Uses.ite ((noRelock_execute _).bind fun _ => trivial) trivial
  unfold mainDbSync
  refine Uses.ite trivial (Uses.ite trivial ?_)
  dsimp only
  rw [leaseRenewIfNeeded_of_none h, ret_bind]
  dsimp only
  refine Uses.ite trivial (hresize.uses_bind fun (q, rc, aerr) hq => Uses.ite trivial ?_)
  refine (hranges q).bind fun ranges => ?_
  split
  · trivial
  refine (noRelock_loadRanges q _).bind fun loaded => ?_
  split
  · trivial
  refine (noRelock_writeRanges hq _ aerr).bind fun (q', res) => ?_
  cases res with
  | error rc => trivial
  | ok etag =>
    refine (noRelock_finishFlush q' _ etag).bind fun q₁ => (hsnap q₁).bind fun q₂ => ?_
    exact (noRelock_persistState q₂).bind fun _ => trivial

/-! ## When a flush without a lease is complete -/

/-- `xSync` succeeded, and the blob has the bytes of the cache file on all dirty pages. -/
def FlushComplete (p : ObjsFile) (w : World) (r : VfsData × ObjsFile × Rc) (w' : World) : Prop :=
  r.2.2 = .ok ∧ ∀ fd, p.cacheFd = some fd →
    w'.azure.Has p.blob fun C => ∀ j ∈ allDirty p, C.get j = (w.disk.inode fd).get j

/-- Every run of `xSync` without a lease is complete exactly if it needs one request at most that
changes the blob, and it looks at every dirty page that is not in the blob already. -/
theorem unleased_flush_complete_iff (h : Unleased p b w) (v : VfsData) :
    (∀ r w', Runs (World.served Sound) (sqliteObjsSync v p) w r w' → FlushComplete p w r w') ↔
    OneRequest p ∧ ∀ fd, p.cacheFd = some fd → RestStored p b.content (w.disk.inode fd) := by
  unfold sqliteObjsSync
  rw [h.kind]
  dsimp only
  constructor
  · intro hall
    obtain ⟨⟨q, rc⟩, w', hr⟩ := (noRelock_mainDbSync h.lease).exists_runs w
    obtain ⟨hok, hhas⟩ := hall _ _ (hr.bind (.ret _ _))
    have hone : OneRequest p := by
      by_contra hno
      exact wp_alone_iff.mp (h.wp_mainDbSync_refused hno) _ _ hr hok
    refine ⟨hone, fun fd hfd => ?_⟩
    obtain ⟨-, b₁, hb₁, hflushed⟩ := wp_alone_iff.mp (h.wp_mainDbSync_complete hfd hone) _ _ hr
    obtain ⟨b₂, hb₂, hdirty⟩ := hhas fd hfd
    obtain rfl : b₁ = b₂ := Option.some.inj (hb₁.symm.trans hb₂)
    exact hflushed.all_iff.mp hdirty
  · rintro ⟨hone, hstored⟩ r w' hr
    obtain ⟨fd, hfd⟩ := Option.ne_none_iff_exists'.mp h.cache
    have hwp := h.wp_mainDbSync_complete hfd hone
    apply wp_alone_iff.mp _ r w' hr
    rw [wp_bind]
    refine wp_mono ?_ hwp
    rintro ⟨q, rc⟩ w₁ ⟨hok, hhas⟩
    refine wp_alone_ret.mpr ⟨hok, fun fd' hfd' => ?_⟩
    obtain rfl : fd = fd' := Option.some.inj (hfd.symm.trans hfd')
    exact hhas.imp fun C hflushed => hflushed.all_iff.mpr (hstored fd hfd)

end Flush

/-- An account with a database of three sectors. -/
def threePageWorld : World :=
  { World.new with azure := World.new.azure.create ⟨0, "db"⟩ (SparseFile.empty.truncate 1536) }

/-- The database open without a lease, under the ETag of its blob. -/
def unleasedFile (dirty : Bitmap) : ObjsFile :=
  { fileWith 512 1536 dirty with cacheFd := some 0, etag := some 1, lastSyncedSize := 1536 }

theorem unleased_threePage (dirty : Bitmap) (hc : dirty.Counted) :
    ∃ b, Unleased (unleasedFile dirty) b threePageWorld := by
  refine ⟨_, rfl, complete_production, by simp [unleasedFile], ⟨?_, ?_, 9, rfl⟩, hc, rfl,
    Azure.create_blobs_self _ _ _ _, rfl, rfl, by decide, ?_⟩
  · exact show 512 ≤ 512 by decide
  · exact show 512 ≤ 65536 by decide
  · exact show align512 1536 ≤ 1536 by decide

/-- The page count of the database is no number that is narrowed. -/
theorem seenDirty_threePage (dirty : Bitmap) :
    seenDirty (unleasedFile dirty) = allDirty (unleasedFile dirty) := by
  have hcount : (pageCount 1536 512).toNat = pagesOf 1536 512 := by decide
  exact congrArg (dirtyBytes dirty 512 1536) hcount

/-- One dirty page is written. -/
theorem unleased_flush_complete_one_page : ∃ r w',
    Runs (World.served Sound) (sqliteObjsSync (.new 0) (unleasedFile (.ofBytes [1] 1)))
      threePageWorld r w' ∧
    FlushComplete (unleasedFile (.ofBytes [1] 1)) threePageWorld r w' := by
  obtain ⟨b, h⟩ := unleased_threePage (.ofBytes [1] 1) ⟨by decide, fun h => absurd h (by decide)⟩
  obtain ⟨⟨q, rc⟩, w', hr⟩ := (noRelock_mainDbSync h.lease).exists_runs threePageWorld
  have hrun : Runs (World.served Sound) (sqliteObjsSync (.new 0) (unleasedFile (.ofBytes [1] 1)))
      threePageWorld (.new 0, q, rc) w' := hr.bind (.ret _ _)
  have hranges : coalesceDirtyRanges (unleasedFile (.ofBytes [1] 1)) stackRanges =
      some [(0, 512)] := by
    decide +kernel
  have hcovers := rangesFor_of_coalesce h.page h.counted hranges
  refine ⟨_, w', hrun, (unleased_flush_complete_iff h (.new 0)).mpr ⟨?_, ?_⟩ _ _ hrun⟩
  · exact ⟨[(0, 512)], hcovers.toCovers, Or.inr ⟨rfl, Nat.le_refl _⟩⟩
  · rintro fd - j hj hunseen
    rw [seenDirty_threePage] at hunseen
    exact absurd hj hunseen

/-- The first and the third page are dirty: the second range is refused. -/
theorem unleased_flush_two_ranges : ∃ r w',
    Runs (World.served Sound) (sqliteObjsSync (.new 0) (unleasedFile (.ofBytes [5] 2)))
      threePageWorld r w' ∧
    ¬ FlushComplete (unleasedFile (.ofBytes [5] 2)) threePageWorld r w' := by
  obtain ⟨b, h⟩ := unleased_threePage (.ofBytes [5] 2) ⟨by decide, fun h => absurd h (by decide)⟩
  have hranges : coalesceDirtyRanges (unleasedFile (.ofBytes [5] 2)) stackRanges =
      some [(0, 512), (1024, 512)] := by
    decide +kernel
  have hno : ¬ OneRequest (unleasedFile (.ofBytes [5] 2)) := by
    intro hone
    obtain ⟨ranges, hr, hone⟩ := hone.ranges h.page h.counted
    obtain rfl := Option.some.inj (hranges.symm.trans hr)
    rcases hone with hnil | ⟨hlen, -⟩
    · cases hnil
    · cases hlen
  obtain ⟨⟨q, rc⟩, w', hr⟩ := (noRelock_mainDbSync h.lease).exists_runs threePageWorld
  have hfailed := wp_alone_iff.mp (h.wp_mainDbSync_refused hno) _ _ hr
  exact ⟨_, w', hr.bind (.ret _ _), fun hcomplete => hfailed hcomplete.1⟩

end SqliteObjs
