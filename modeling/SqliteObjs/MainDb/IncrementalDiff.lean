import SqliteObjs.MainDb.FailedWrite
import SqliteObjs.MainDb.ParallelRead

/-!
# The incremental diff of an eager file

`applyIncrementalDiff` patches a cache file of an earlier session with the ranges that changed
since a snapshot. The cache file is the snapshot's content or that of a later version. Either way
it agrees with the current version outside the ranges, since every version in between changed
bytes inside them only (`CoversChanges.outsideDiff`).

So a diff that succeeds leaves the bytes of the blob, and one that does not is followed by a
download over the same file (`incremental_diff_eq_download`). Both are said for every fault of
the service and of the machine.
-/

set_option autoImplicit false

namespace SqliteObjs

open Data CS CS.Program

/-! ## Versions -/

/-- The contents of a blob from a snapshot on, oldest first, up to the current one `C`: what one
version changed below the current size lies in the ranges, and a cleared range is zero now. -/
structure CoversChanges (versions : List Bytes) (C : Bytes) (rs : List DiffRange) : Prop where
  current : versions.getLast? = some C
  covers : versions.IsChain fun V V' => ∀ j, j < C.size → V.get j ≠ V'.get j → ∃ r ∈ rs, r.Has j
  cleared : ClearedIn C rs

/-- Along a chain of versions nothing changes outside the ranges. -/
theorem outsideDiff_of_isChain {C : Bytes} {rs : List DiffRange} : ∀ {versions : List Bytes},
    versions.IsChain (fun V V' => ∀ j, j < C.size → V.get j ≠ V'.get j → ∃ r ∈ rs, r.Has j) →
    versions.getLast? = some C → ∀ f ∈ versions, OutsideDiff C rs f
  | [], _, _, _, hf => absurd hf List.not_mem_nil
  | [V], _, hlast, f, hf => by
    obtain rfl := List.mem_singleton.mp hf
    obtain rfl : f = C := by simpa using hlast
    exact fun _ _ _ => rfl
  | V :: V' :: versions, hchain, hlast, f, hf => by
    obtain ⟨hstep, hrest⟩ := List.isChain_cons_cons.mp hchain
    have ih := outsideDiff_of_isChain hrest (by simpa using hlast)
    rcases List.mem_cons.mp hf with rfl | hf
    · intro j hj hno
      refine Eq.trans ?_ (ih V' List.mem_cons_self j hj hno)
      -- a byte that this version changed is in a range
      by_contra hne
      obtain ⟨r, hr, hhas⟩ := hstep j hj hne
      exact hno r hr hhas
    · exact ih f hf

theorem CoversChanges.outsideDiff {versions : List Bytes} {C f : Bytes} {rs : List DiffRange}
    (h : CoversChanges versions C rs) (hf : f ∈ versions) : OutsideDiff C rs f :=
  outsideDiff_of_isChain h.covers h.current f hf

/-- The ranges were applied to one of the versions. -/
theorem Diffed.get_eq {versions : List Bytes} {C f f' : Bytes} {rs : List DiffRange} {n : Nat}
    (h : Diffed C rs n f f') (hrs : CoversChanges versions C rs) (hf : f ∈ versions) {j : Nat}
    (hj : j < C.size) : f'.get j = C.get j :=
  h.bytes hrs.cleared (hrs.outsideDiff hf) j hj

/-! ## Any faults -/

section Served

variable {ok : Choice → Prop} {i : BlobId} {a : Azure} {b : Blob}

/-- A page diff changes nothing, and its ranges are the environment's. -/
theorem served_diff {s : Snapshot} {w w' : World} {x : AzReply}
    (hs : World.served ok (.azure (.blobGetPageRangesDiff i s)) w x w') :
    w'.azure = w.azure ∧ (x.err = .ok → ∃ c, ok c ∧ x.ranges = c.ranges) := by
  obtain ⟨c, hc, hr⟩ := hs
  have hstay := Azure.respond_pageRangesDiff w.azure i s
  simp only [World.respond, Azure.serve] at hr
  split at hr
  · next e applied _ =>
    split at hr
    · simp at hr
    next he =>
    simp only [Option.map_some, Option.some.injEq, Prod.mk.injEq] at hr
    obtain ⟨rfl, rfl⟩ := hr
    refine ⟨?_, fun h => absurd h he⟩
    dsimp only
    split
    · exact hstay
    · rfl
  · simp only [Option.map_some, Option.some.injEq, Prod.mk.injEq] at hr
    obtain ⟨rfl, rfl⟩ := hr
    exact ⟨hstay, fun _ => ⟨c, hc, rfl⟩⟩

/-- Reads of a blob that nobody changes, whatever fails. -/
theorem reading_served (ok : Choice → Prop) (hb : a.blobs i = some b) :
    Reading (.alone (World.served ok)) i (fun w => w.azure = a) (fun _ => True) b.content where
  fact := fact_azure (fun _ _ _ _ h => show ∃ c, ok c ∧ _ from h) (· = a)
  rely _ _ _ _ _ := trivial
  sys _ _ _ _ _ _ _ := trivial
  read off len w x w' ha hs := by
    obtain ⟨hstay, hbody⟩ := served_read hs (show w.azure.blobs i = some b by rw [ha]; exact hb)
    exact ⟨trivial, hstay.trans ha, fun _ => trivial, fun hok _ => (hbody hok).2⟩
  diff s w x w' ha hs := ⟨trivial, (served_diff hs).1.trans ha⟩

theorem DiffAnswer.exists_choice {rs : List DiffRange} {B : World → Prop}
    (h : DiffAnswer (.alone (World.served ok)) i B rs) : ∃ c, ok c ∧ rs = c.ranges := by
  obtain ⟨s, w, x, w', -, hs, herr, rfl⟩ := h
  exact (served_diff hs).2 herr

end Served

/-! ## Diff or download -/

/-- The cache file has the bytes of the blob, and the record says so. -/
structure Patched (p : ObjsFile) (fd : Fd) (C : Bytes) (w : World) : Prop where
  size : C.size ≤ (w.disk.inode fd).size
  bytes : ∀ j, j < C.size → (w.disk.inode fd).get j = C.get j
  nData : p.nData = C.size
  synced : p.lastSyncedSize = C.size
  clean : p.dirty.nSet = 0 ∧ ∀ k, p.dirty.bit k = false

section Diff

variable {versions : List Bytes} {b : Blob} {p : ObjsFile} {fd : Fd} {w : World}

/-- The answers of the world where a page diff covers what changed since the snapshot. -/
abbrev diffServed (versions : List Bytes) (C : Bytes) :
    (r : Req) → World → Ans r → World → Prop :=
  World.served fun c => CoversChanges versions C c.ranges

theorem wp_applyIncrementalDiff_patched (hb : w.azure.blobs p.blob = some b)
    (hcache : w.disk.inode fd ∈ versions) (hfd : p.cacheFd = some fd)
    (hn : p.nData ≤ (w.disk.inode fd).size) (hpage : LegalPageSize p.pageSize) :
    wp (.alone (diffServed versions b.content)) (applyIncrementalDiff p fd b.content.size)
      (fun r w' => r.2 = true → Patched r.1 fd b.content w') w := by
  have hk : Knows id (fun w' => w'.azure = w.azure) w.disk w := ⟨rfl, rfl⟩
  rw [← bind_pure (applyIncrementalDiff p fd b.content.size)]
  refine (reading_served _ hb).wp_applyIncrementalDiff_bind (q := p) (seen_served _) rfl rfl
    hpage hfd hk
    ?_ ?_
  · exact fun _ _ _ _ _ => wp_alone_ret.mpr fun h => by cases h
  · intro rs p' d' w' hanswer hready hsynced hdirty hk'
    obtain ⟨c, hc, rfl⟩ := hanswer.exists_choice
    have hdone : Diffed b.content c.ranges p.nData (w.disk.inode fd) (w'.disk.inode fd) := by
      rw [show w'.disk = d' from hk'.2]
      exact hk'.1.2 trivial
    refine wp_alone_ret.mpr fun _ => ?_
    refine ⟨hdone.size hn, fun j hj => hdone.get_eq hc hcache hj, hready.nData, hsynced, ?_⟩
    obtain ⟨bm, hbm⟩ := hdirty
    rw [hbm]
    exact ⟨rfl, Bitmap.bit_clearAll bm⟩

theorem wp_openStaleCache_content (hb : w.azure.blobs p.blob = some b)
    (hcache : w.disk.inode fd ∈ versions) (hmode : p.prefetchMode = .all)
    (hpage : LegalPageSize p.pageSize) (hpos : 0 < b.content.size) {path : Path}
    {snapshot : Snapshot} :
    wp (.alone (diffServed versions b.content)) (openStaleCache p path fd snapshot b.content.size)
      (fun r w' => ∀ p', r = .ok p' → p'.nData = b.content.size ∧
        ∀ j, j < b.content.size → (w'.disk.inode fd).get j = b.content.get j) w := by
  have hk : Knows id (fun w' => w'.azure = w.azure) w.disk w := ⟨rfl, rfl⟩
  refine wp_mono ?_ (wp_openStaleCache_over (seen_served _) (reading_served _ hb) hmode
    hpage hpos hk)
  rintro r w' ⟨-, hend⟩ p' hp'
  obtain ⟨d', hready, hk'⟩ := hend p' hp'
  refine ⟨hready.nData, fun j hj => ?_⟩
  rw [show w'.disk = d' from hk'.2]
  rcases hk'.1.2 trivial with ⟨rs, n, hanswer, -, hdone⟩ | ⟨g, hg⟩
  · obtain ⟨c, hc, rfl⟩ := hanswer.exists_choice
    exact hdone.get_eq hc hcache hj
  · rw [hg, SparseFile.pwrite_get_of_mem _ _ (Nat.zero_le _) (by omega)]
    rfl

/-- A diff that succeeds leaves the current content, its size and no dirty page. Opening a cache
file of an earlier session ends with the current content, by the diff or the download, or with an
error. -/
theorem incremental_diff_eq_download (hb : w.azure.blobs p.blob = some b)
    (hcache : w.disk.inode fd ∈ versions) (hmode : p.prefetchMode = .all)
    (hpage : LegalPageSize p.pageSize) :
    (p.cacheFd = some fd → p.nData ≤ (w.disk.inode fd).size → ∀ p' w',
      Runs (diffServed versions b.content) (applyIncrementalDiff p fd b.content.size) w
        (p', true) w' → Patched p' fd b.content w') ∧
    (0 < b.content.size → ∀ path snapshot p' w',
      Runs (diffServed versions b.content) (openStaleCache p path fd snapshot b.content.size) w
        (.ok p') w' → p'.nData = b.content.size ∧
        ∀ j, j < b.content.size → (w'.disk.inode fd).get j = b.content.get j) := by
  constructor
  · intro hfd hn p' w' hrun
    exact wp_alone_iff.mp (wp_applyIncrementalDiff_patched hb hcache hfd hn hpage) _ _ hrun rfl
  · intro hpos path snapshot p' w' hrun
    exact wp_alone_iff.mp (wp_openStaleCache_content hb hcache hmode hpage hpos) _ _ hrun p' rfl

end Diff

/-- The cache file of a session in which the database was empty, to be opened again. -/
def staleFile : ObjsFile :=
  { fileWith 4096 0 (.ofBytes [] 0) with cacheFd := some 0, snapshot := some 1 }

/-- The sector that was written since. -/
def writtenSector : DiffRange := { start := 0, stop := 511, isClear := false }

theorem coversChanges_writtenSector :
    CoversChanges [.empty, smallPageDb] smallPageDb [writtenSector] := by
  refine ⟨rfl, ?_, ?_⟩
  · refine List.isChain_cons_cons.mpr
      ⟨fun j hj _ => ⟨_, List.mem_singleton_self _, ?_⟩, .singleton _⟩
    exact ⟨Nat.zero_le _, Nat.le_of_lt_succ hj⟩
  · intro r hr hclear
    obtain rfl := List.mem_singleton.mp hr
    cases hclear

set_option maxRecDepth 8000 in
/-- The diff fetches the sector; where its read fails, opening downloads the blob. -/
theorem incremental_diff_eq_download_sector : (∃ p' w',
    Runs (diffServed [.empty, smallPageDb] smallPageDb) (applyIncrementalDiff staleFile 0 512)
      smallPageWorld (p', true) w' ∧ Patched p' 0 smallPageDb w') ∧
    ∃ p' w', Runs (diffServed [.empty, smallPageDb] smallPageDb)
      (openStaleCache staleFile (.temp "" 0) 0 1 512) smallPageWorld (.ok p') w' ∧
      p'.nData = 512 ∧ ∀ j, j < 512 → (w'.disk.inode 0).get j = smallPageDb.get j := by
  have hblob : smallPageWorld.azure.blobs staleFile.blob = some _ := Azure.create_blobs_self _ _ _ _
  have hpage : LegalPageSize staleFile.pageSize := legalPageSize_default
  have hversion : smallPageWorld.disk.inode 0 ∈ [.empty, smallPageDb] := List.mem_cons_self
  have hboth := incremental_diff_eq_download hblob hversion rfl hpage
  have hcovers : ∀ c : Choice, c.ranges = [writtenSector] →
      CoversChanges [.empty, smallPageDb] smallPageDb c.ranges := by
    intro c hc
    rw [hc]
    exact coversChanges_writtenSector
  obtain ⟨p₁, w₁, hrun₁⟩ : ∃ p' w', Runs (diffServed [.empty, smallPageDb] smallPageDb)
      (applyIncrementalDiff staleFile 0 512) smallPageWorld (p', true) w' := by
    refine ⟨_, _, Program.runs_of_exec (List.replicate 8 { ranges := [writtenSector] }) ?_ rfl⟩
    exact fun c hc => hcovers c (by rw [List.eq_of_mem_replicate hc])
  obtain ⟨p₂, w₂, hrun₂⟩ : ∃ p' w', Runs (diffServed [.empty, smallPageDb] smallPageDb)
      (openStaleCache staleFile (.temp "" 0) 0 1 512) smallPageWorld (.ok p') w' := by
    refine ⟨_, _, Program.runs_of_exec (List.replicate 3 { ranges := [writtenSector] } ++
      { ranges := [writtenSector], fault := some (.network, false) } ::
      List.replicate 12 { ranges := [writtenSector] }) ?_ rfl⟩
    intro c hc
    apply hcovers
    rcases List.mem_append.mp hc with hc | hc
    · rw [List.eq_of_mem_replicate hc]
    rcases List.mem_cons.mp hc with rfl | hc
    · rfl
    · rw [List.eq_of_mem_replicate hc]
  exact ⟨⟨p₁, w₁, hrun₁, hboth.1 rfl (Nat.zero_le _) p₁ w₁ hrun₁⟩,
    p₂, w₂, hrun₂, hboth.2 (by decide) (.temp "" 0) 1 p₂ w₂ hrun₂⟩

end SqliteObjs
