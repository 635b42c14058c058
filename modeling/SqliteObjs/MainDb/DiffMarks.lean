import SqliteObjs.MainDb.IncrementalDiff

/-!
# The valid marks of an incremental diff

In lazy mode `applyIncrementalDiff` marks the pages of every range it stores. A range is a list of
sectors and a mark is for a page, so a range marks more bytes than it stores. The marks are set
with the page size the record has before the call, and read with the one found in the header
afterwards. And the cache file of an earlier session has holes where nothing was ever fetched.

The bytes that the diff leaves are those of the blob in the ranges and those of the cache file
elsewhere (`patchedFile_get`). So the marks are right exactly if every marked page, taken with the
new page size, holds the bytes of the blob already where no range covers it
(`diff_valid_pages_current_iff`).
-/

set_option autoImplicit false

namespace SqliteObjs

open Data CS CS.Program

/-! ## What the ranges do -/

namespace DiffRange

/-- The number of bytes of a range. -/
def length (r : DiffRange) : Nat := r.stop + 1 - r.start

/-- What is stored for a range. -/
def stored (r : DiffRange) (C : Bytes) : Bytes :=
  if r.isClear then SparseFile.empty.truncate r.length else C.slice r.start r.length

/-- The marks of a range. -/
def mark (r : DiffRange) (p : ObjsFile) : ObjsFile :=
  if r.length = 0 ∨ p.valid.data = [] then p else validMarkRange p r.start (r.start + r.length)

end DiffRange

/-- The marks of the ranges, one after the other. -/
def markRanges (rs : List DiffRange) (p : ObjsFile) : ObjsFile := rs.foldl (fun p r => r.mark p) p

/-- The cache file after the ranges were stored. -/
def patchRanges (C : Bytes) (rs : List DiffRange) (f : Bytes) : Bytes :=
  rs.foldl (fun f r => f.pwrite r.start (r.stored C)) f

/-- The ranges are stored in a file that is as long as the blob. -/
def patchedFile (C : Bytes) (rs : List DiffRange) (n : Nat) (f : Bytes) : Bytes :=
  patchRanges C rs (if n < C.size then f.truncate C.size else f)

section Patched

variable {C f : Bytes} {rs : List DiffRange} {j : Nat}

theorem stored_get {r : DiffRange} (hclear : r.isClear = true → C.get j = 0) (hj : r.Has j) :
    (r.stored C).get (j - r.start) = C.get j := by
  unfold DiffRange.Has at hj
  unfold DiffRange.stored
  split
  · next h =>
    rw [SparseFile.truncate_get, SparseFile.empty_get, ite_self]
    exact (hclear h).symm
  · have hlen : j - r.start < r.length := by
      unfold DiffRange.length
      omega
    rw [SparseFile.slice_get_of_lt _ hlen]
    congr 1
    omega

/-- In the ranges the file has the bytes of the blob, elsewhere its own. -/
theorem patchRanges_get (hj : j < C.size) : ∀ {rs : List DiffRange} {f : Bytes}, ClearedIn C rs →
    ((∃ r ∈ rs, r.Has j) → (patchRanges C rs f).get j = C.get j) ∧
      ((∀ r ∈ rs, ¬ r.Has j) → (patchRanges C rs f).get j = f.get j)
  | [], f, _ => ⟨fun ⟨_, h, _⟩ => absurd h List.not_mem_nil, fun _ => rfl⟩
  | r :: rs, f, hclear => by
    have hclear' : ClearedIn C rs := fun r' hr' => hclear r' (List.mem_cons_of_mem _ hr')
    obtain ⟨hin, hout⟩ := patchRanges_get hj (f := f.pwrite r.start (r.stored C)) hclear'
    have hsize : (r.stored C).size =
        min r.length (if r.isClear then r.length else C.size - r.start) := by
      unfold DiffRange.stored
      split <;> simp
    -- what the first range does, if no later one covers the byte
    have hfirst : (r.Has j → (f.pwrite r.start (r.stored C)).get j = C.get j) ∧
        (¬ r.Has j → (f.pwrite r.start (r.stored C)).get j = f.get j) := by
      constructor
      · intro hr
        have hr' := hr
        unfold DiffRange.Has at hr'
        have hmem : j < r.start + (r.stored C).size := by
          rw [hsize]
          unfold DiffRange.length
          split <;> omega
        rw [SparseFile.pwrite_get_of_mem _ _ hr'.1 hmem]
        exact stored_get (fun h => hclear r List.mem_cons_self h j hr) hr
      · intro hr
        unfold DiffRange.Has at hr
        have hmem : ¬ (r.start ≤ j ∧ j < r.start + (r.stored C).size) := by
          rw [hsize]
          unfold DiffRange.length
          omega
        exact SparseFile.pwrite_get_of_not_mem _ _ hmem
    by_cases hrest : ∃ r ∈ rs, r.Has j
    · refine ⟨fun _ => hin hrest, fun hno => ?_⟩
      obtain ⟨r', hr', hhas⟩ := hrest
      exact absurd hhas (hno r' (List.mem_cons_of_mem _ hr'))
    · have hnone : ∀ r ∈ rs, ¬ r.Has j := fun r' hr' hhas => hrest ⟨r', hr', hhas⟩
      constructor
      · rintro ⟨r', hr', hhas⟩
        rcases List.mem_cons.mp hr' with rfl | hr'
        · exact (hout hnone).trans (hfirst.1 hhas)
        · exact absurd hhas (hnone r' hr')
      · intro hno
        exact (hout hnone).trans (hfirst.2 (hno r List.mem_cons_self))

/-- The file that the diff leaves agrees with the blob where a range covers it or where it
already did. -/
theorem patchedFile_get_eq_iff (hclear : ClearedIn C rs) (n : Nat) (hj : j < C.size) :
    (patchedFile C rs n f).get j = C.get j ↔ (∀ r ∈ rs, ¬ r.Has j) → f.get j = C.get j := by
  have hgrown : (if n < C.size then f.truncate C.size else f).get j = f.get j := by
    split
    · rw [SparseFile.truncate_get, if_pos hj]
    · rfl
  obtain ⟨hin, hout⟩ := patchRanges_get hj (f := if n < C.size then f.truncate C.size else f) hclear
  unfold patchedFile
  constructor
  · intro h hno
    rw [← h, hout hno, hgrown]
  · intro h
    by_cases hcov : ∃ r ∈ rs, r.Has j
    · exact hin hcov
    · have hno : ∀ r ∈ rs, ¬ r.Has j := fun r hr hhas => hcov ⟨r, hr, hhas⟩
      rw [hout hno, hgrown]
      exact h hno

end Patched

/-! ## The call -/

theorem onlyValid_mark (r : DiffRange) (p : ObjsFile) : OnlyValid p (r.mark p) := by
  unfold DiffRange.mark
  split
  · rfl
  · exact onlyValid_validMarkRange p _ _

theorem onlyValid_markRanges : ∀ (rs : List DiffRange) (p : ObjsFile), OnlyValid p (markRanges rs p)
  | [], _ => rfl
  | r :: rs, p => (onlyValid_mark r p).trans (onlyValid_markRanges rs (r.mark p))

/-- The page size in force once the header was read back from `f`, if it could be. -/
def pageSizeAfter (headerRead : Bool) (f : Bytes) (ps : Nat) : Nat :=
  if headerRead = true ∧ 0 < detectPageSize (f.slice 0 100) 100 then
    detectPageSize (f.slice 0 100) 100
  else ps

/-- The page size is in the first bytes. -/
theorem detectPageSize_congr {f g : Bytes} {n : Nat} (h : ∀ j, j < 18 → f.get j = g.get j) :
    detectPageSize f n = detectPageSize g n := by
  have hmagic : (List.range 16).map f.get = (List.range 16).map g.get := by
    refine List.map_congr_left fun j hj => h j ?_
    have := List.mem_range.mp hj
    omega
  unfold detectPageSize
  rw [hmagic, h 16 (by omega), h 17 (by omega)]

section Call

variable {ok : Choice → Prop} {a : Azure} {b : Blob} {d : Disk} {w : World} {p : ObjsFile} {fd : Fd}

theorem fact_azure_served (ok : Choice → Prop) (a : Azure) :
    Fact (.alone (World.served ok)) fun w => w.azure = a :=
  fact_azure (fun _ _ _ _ h => show ∃ c, ok c ∧ _ from h) (· = a)

theorem wp_storeDiff_marks (hk : Knows id (fun w => w.azure = a) d w) {start : Nat} {data : Bytes} :
    wp (.alone (World.served ok)) (storeDiff p fd start data) (fun r w' => r.2 = true →
      r.1 = (if p.valid.data = [] then p else validMarkRange p start (start + data.size)) ∧
      ∃ d', d'.inode fd = (d.inode fd).pwrite start data ∧
        Knows id (fun w => w.azure = a) d' w') w := by
  have hE := seen_served ok
  have hA := fact_azure_served ok a
  unfold storeDiff
  refine hk.wp_sys_bind hE hA fun c w₁ _ hk₁ => ?_
  split
  · exact hk₁.wp_ret hE hA fun w' _ h => by cases h
  next hok =>
  have hfile : (d.serve c (.pwrite fd start data)).2.inode fd = (d.inode fd).pwrite start data := by
    cases hf : c.sysFails with
    | true => simp [Disk.serve, hf] at hok
    | false => simp [Disk.serve, hf]
  split
  · exact hk₁.wp_ret hE hA fun w' hk' _ => ⟨rfl, _, hfile, hk'⟩
  · next hv =>
    refine hk₁.wp_ret hE hA fun w' hk' _ => ⟨?_, _, hfile, hk'⟩
    simp only [not_not.mp hv, if_true]

/-- The ranges one after the other, if all of them are stored. -/
theorem wp_applyDiffRanges_marks : ∀ (rs : List DiffRange) {p : ObjsFile} {d : Disk} {w : World},
    a.blobs p.blob = some b → Knows id (fun w => w.azure = a) d w →
    wp (.alone (World.served ok)) (applyDiffRanges fd rs p) (fun r w' => r.2 = true →
      r.1 = markRanges rs p ∧ ∃ d', d'.inode fd = patchRanges b.content rs (d.inode fd) ∧
        Knows id (fun w => w.azure = a) d' w') w
  | [], p, d, w, _, hk =>
    hk.wp_ret (seen_served ok) (fact_azure_served ok a) fun w' hk' _ => ⟨rfl, d, rfl, hk'⟩
  | r :: rs, p, d, w, hb, hk => by
    have hE := seen_served ok
    have hA := fact_azure_served ok a
    have hstop : ∀ {d : Disk} {w : World}, Knows id (fun w => w.azure = a) d w →
        wp (.alone (World.served ok)) (.ret (p, false)) (fun x w' => x.2 = true →
          x.1 = markRanges (r :: rs) p ∧
          ∃ d', d'.inode fd = patchRanges b.content (r :: rs) (d.inode fd) ∧
            Knows id (fun w => w.azure = a) d' w') w :=
      fun hk => hk.wp_ret hE hA fun w' _ h => by cases h
    have hrest : r.length ≠ 0 → ∀ {data : Bytes} {w : World}, Knows id (fun w => w.azure = a) d w →
        data = r.stored b.content → data.size = r.length →
        wp (.alone (World.served ok)) (storeDiff p fd r.start data >>= fun x =>
          if !x.2 then .ret (x.1, false) else applyDiffRanges fd rs x.1) (fun x w' => x.2 = true →
          x.1 = markRanges (r :: rs) p ∧
          ∃ d', d'.inode fd = patchRanges b.content (r :: rs) (d.inode fd) ∧
            Knows id (fun w => w.azure = a) d' w') w := by
      intro hlen data w hk hdata hsize
      rw [wp_bind]
      refine wp_mono ?_ (wp_storeDiff_marks hk)
      rintro ⟨p₁, stored⟩ w₁ hstored
      dsimp only at hstored ⊢
      split
      · exact wp_alone_ret.mpr fun h => by cases h
      next hok =>
      obtain ⟨hp₁, d₁, hd₁, hk₁⟩ := hstored (by simpa using hok)
      have hmark : p₁ = r.mark p := by
        rw [hp₁, hsize]
        unfold DiffRange.mark
        simp only [hlen, false_or]
      subst hmark
      refine wp_mono ?_ (wp_applyDiffRanges_marks rs ((onlyValid_mark r p).blob.symm ▸ hb) hk₁)
      rintro x w' hx hxok
      obtain ⟨hmarks, d', hd', hk'⟩ := hx hxok
      refine ⟨hmarks, d', ?_, hk'⟩
      rw [hd', hd₁, hdata]
      rfl
    unfold applyDiffRanges
    dsimp only
    split
    · next hzero =>
      -- an empty range stores nothing
      have hempty : (r.stored b.content).size = 0 := by
        unfold DiffRange.stored DiffRange.length
        rw [hzero]
        split <;> simp
      have hpatch : (d.inode fd).pwrite r.start (r.stored b.content) = d.inode fd := by
        refine SparseFile.ext ?_ fun j => SparseFile.pwrite_get_of_not_mem _ _ (by omega)
        rw [SparseFile.pwrite_size, if_pos hempty]
      have hmark : r.mark p = p := if_pos (Or.inl hzero)
      refine wp_mono ?_ (wp_applyDiffRanges_marks rs hb hk)
      rintro x w' hx hxok
      obtain ⟨hmarks, d', hd', hk'⟩ := hx hxok
      refine ⟨?_, d', ?_, hk'⟩
      · rw [hmarks]
        show _ = markRanges rs (r.mark p)
        rw [hmark]
      · rw [hd']
        show _ = patchRanges b.content rs ((d.inode fd).pwrite r.start (r.stored b.content))
        rw [hpatch]
    next hlen =>
    split
    · next hclear =>
      refine wp_quiet_bind hE.quiet rfl fun m _ => ?_
      split
      · exact hstop hk
      · refine hrest hlen hk ?_ rfl
        unfold DiffRange.stored
        rw [if_pos hclear]
        rfl
    · next hclear =>
      refine (reading_served ok hb).wp_azPageBlobRead_bind (P := True)
        hE ⟨⟨hk.1, fun _ => trivial⟩, hk.2⟩
        fun x w₁ hk₁ => ?_
      have hk₁' : Knows id (fun w => w.azure = a) d w₁ := ⟨hk₁.1.1, hk₁.2⟩
      split
      · exact hstop hk₁'
      next hx =>
      obtain ⟨herr, hsize⟩ := not_or.mp hx
      have hbody : x.body = b.content.slice r.start r.length :=
        (hk₁.1.2 trivial).2 (by simpa using herr)
      refine hrest hlen hk₁' ?_ ?_
      · unfold DiffRange.stored
        rw [if_neg hclear, hbody]
        exact SparseFile.slice_slice_zero _ _ _
      · rw [SparseFile.slice_size]
        unfold DiffRange.length
        omega

/-- The header is read back, or not. -/
theorem wp_redetectPageSize_after (hk : Knows id (fun w => w.azure = a) d w) {f : Bytes}
    (hf : 100 ≤ (d.inode fd).size → ∀ j, j < 100 → (d.inode fd).get j = f.get j) :
    wp (.alone (World.served ok)) (redetectPageSize p fd) (fun p' w' =>
      (∃ headerRead, p' = { p with pageSize := pageSizeAfter headerRead f p.pageSize }) ∧
        Knows id (fun w => w.azure = a) d w') w := by
  have hE := seen_served ok
  have hA := fact_azure_served ok a
  unfold redetectPageSize
  refine hk.wp_sys_bind hE hA fun c w₁ _ hk₁ => ?_
  have hd : (d.serve c (.pread fd 0 100)).2 = d := by
    simp only [Disk.serve]
    split <;> rfl
  rw [hd] at hk₁
  split
  · next hread =>
    have hdetect : detectPageSize (d.serve c (.pread fd 0 100)).1.data 100 =
        detectPageSize (f.slice 0 100) 100 := by
      cases hfail : c.sysFails with
      | true => simp [Disk.serve, hfail] at hread
      | false =>
        simp only [Disk.serve, hfail, Bool.false_eq_true, if_false] at hread ⊢
        simp only [SparseFile.slice_size, Bool.true_and, beq_iff_eq] at hread
        refine detectPageSize_congr fun j hj => ?_
        rw [SparseFile.slice_get_of_lt _ (by omega), SparseFile.slice_get_of_lt _ (by omega)]
        exact hf (by omega) _ (by omega)
    refine hk₁.wp_ret hE hA fun w' hk' => ⟨⟨true, ?_⟩, hk'⟩
    rw [hdetect]
    unfold pageSizeAfter
    by_cases hpos : 0 < detectPageSize (f.slice 0 100) 100
    · rw [if_pos hpos, if_pos ⟨rfl, hpos⟩]
    · rw [if_neg hpos, if_neg fun h => hpos h.2]
  · refine hk₁.wp_ret hE hA fun w' hk' => ⟨⟨false, ?_⟩, hk'⟩
    unfold pageSizeAfter
    rw [if_neg fun h => Bool.noConfusion h.1]

/-- What a diff that succeeds leaves: the size of the blob, a page size that was read from the
patched file or is the old one, the marks of the ranges, and the bytes of the patched file. -/
structure DiffApplied (p p' : ObjsFile) (C : Bytes) (rs : List DiffRange) (f : Bytes) (fd : Fd)
    (w' : World) : Prop where
  nData : p'.nData = C.size
  pageSize : ∃ headerRead,
    p'.pageSize = pageSizeAfter headerRead (patchedFile C rs p.nData f) p.pageSize
  valid : ∀ k, p'.valid.bit k = (markRanges rs p).valid.bit k
  bytes : ∀ j, j < C.size → (w'.disk.inode fd).get j = (patchedFile C rs p.nData f).get j

theorem wp_applyIncrementalDiff_applied {rs : List DiffRange} (hok : ∀ c, ok c → c.ranges = rs)
    (hb : w.azure.blobs p.blob = some b) :
    wp (.alone (World.served ok)) (applyIncrementalDiff p fd b.content.size) (fun r w' =>
      r.2 = true → DiffApplied p r.1 b.content rs (w.disk.inode fd) fd w') w := by
  have hE := seen_served ok
  have hA := fact_azure_served ok w.azure
  have hno : ∀ {q : ObjsFile} {w' : World}, wp (.alone (World.served ok)) (.ret (q, false))
      (fun r w' => r.2 = true → DiffApplied p r.1 b.content rs (w.disk.inode fd) fd w') w' :=
    wp_alone_ret.mpr fun h => by cases h
  have hk : Knows id (fun w' => w'.azure = w.azure) w.disk w := ⟨rfl, rfl⟩
  unfold applyIncrementalDiff
  split
  · exact hno
  split
  · exact hno
  unfold azBlobGetPageRangesDiff
  refine SqliteObjs.wp_execute_bind (hA.knows_stable hE) hk fun w₀ diff w₁ hk hs => ?_
  have hk₁ : Knows id (fun w' => w'.azure = w.azure) w.disk w₁ :=
    ⟨(served_diff hs).1.trans hk.1, (hE.azure_disk hs).trans hk.2⟩
  refine ⟨trivial, fun _ => hk₁, ?_⟩
  split
  · exact hno
  next hdiff =>
  obtain ⟨c, hc, hranges⟩ := (served_diff hs).2 (by simpa using hdiff)
  rw [hranges, hok c hc]
  rw [wp_bind]
  have hgrow : wp (.alone (World.served ok)) (growForDiff p fd b.content.size) (fun g w' =>
      g.ok = true → ∃ d', Knows id (fun w' => w'.azure = w.azure) d' w' ∧ d'.inode fd =
        if p.nData < b.content.size then (w.disk.inode fd).truncate b.content.size
        else w.disk.inode fd) w₁ := by
    unfold growForDiff
    split
    · rw [← bind_pure (SqliteObjs.sys _)]
      refine hk₁.wp_sys_bind hE hA fun c w' _ hk' => hk'.wp_ret hE hA fun w' hk' hgrown =>
        ⟨_, hk', ?_⟩
      cases hf : c.sysFails with
      | true => simp [Disk.serve, hf] at hgrown
      | false => simp [Disk.serve, hf]
    · exact hk₁.wp_ret hE hA fun w' hk' _ => ⟨_, hk', rfl⟩
  refine wp_mono ?_ hgrow
  intro grown w₂ hgrown
  split
  · exact hno
  next hgok =>
  obtain ⟨d₂, hk₂, hd₂⟩ := hgrown (by simpa using hgok)
  rw [wp_bind]
  refine wp_mono ?_ (wp_applyDiffRanges_marks rs hb hk₂)
  rintro ⟨q, applied⟩ w₃ happlied
  dsimp only at happlied ⊢
  split
  · exact hno
  next haok =>
  obtain ⟨rfl, d₃, hd₃, hk₃⟩ := happlied (by simpa using haok)
  have hfile : d₃.inode fd = patchedFile b.content rs p.nData (w.disk.inode fd) := by
    rw [hd₃, hd₂]
    rfl
  have honly := onlyValid_markRanges rs p
  rw [wp_bind]
  -- the file may be cut to the size of the blob, or not: its bytes below that size stay
  have hshrink : wp (.alone (World.served ok)) (shrinkForDiff (markRanges rs p) fd b.content.size)
      (fun _ w' => ∃ d', Knows id (fun w' => w'.azure = w.azure) d' w' ∧
        (d'.inode fd = patchedFile b.content rs p.nData (w.disk.inode fd) ∨
          d'.inode fd = (patchedFile b.content rs p.nData (w.disk.inode fd)).truncate
            b.content.size)) w₃ := by
    unfold shrinkForDiff
    split
    · refine hk₃.wp_sys_bind hE hA fun c w' _ hk' => hk'.wp_ret hE hA fun w' hk' => ⟨_, hk', ?_⟩
      cases hf : c.sysFails with
      | true =>
        left
        simp [Disk.serve, hf, hfile]
      | false =>
        right
        simp [Disk.serve, hf, hfile]
    · exact hk₃.wp_ret hE hA fun w' hk' => ⟨_, hk', Or.inl hfile⟩
  refine wp_mono ?_ hshrink
  rintro _ w₄ ⟨d₄, hk₄, hd₄⟩
  have hbytes : ∀ j, j < b.content.size → (d₄.inode fd).get j =
      (patchedFile b.content rs p.nData (w.disk.inode fd)).get j := by
    intro j hj
    rcases hd₄ with h | h
    · rw [h]
    · rw [h, SparseFile.truncate_get, if_pos hj]
  have hheader : 100 ≤ (d₄.inode fd).size → ∀ j, j < 100 → (d₄.inode fd).get j =
      (patchedFile b.content rs p.nData (w.disk.inode fd)).get j := by
    intro hsize j hj
    rcases hd₄ with h | h
    · rw [h]
    · rw [h, SparseFile.truncate_size] at hsize
      exact hbytes j (by omega)
  refine hk₄.wp_sys_bind hE hA fun c w₅ _ hk₅ => ?_
  have hd₅ : (d₄.serve c (.fsync fd)).2 = d₄ := rfl
  rw [hd₅] at hk₅
  rw [wp_bind]
  refine wp_mono ?_ (wp_redetectPageSize_after hk₅ hheader)
  rintro q w₆ ⟨⟨headerRead, rfl⟩, hk₆⟩
  refine wp_bitmapsEnsureCapacity_bind hE.quiet fun p' rc hgrown _ => ?_
  refine wp_alone_ret.mpr fun _ =>
    ⟨?_, ⟨headerRead, ?_⟩, fun k => hgrown.valid.bits k, fun j hj => ?_⟩
  · show p'.nData = _
    rw [hgrown.eq]
  · show p'.pageSize = _
    rw [hgrown.eq]
    dsimp only
    unfold OnlyValid at honly
    rw [honly]
  · rw [show w₆.disk = d₄ from hk₆.2]
    exact hbytes j hj

end Call

/-! ## When the marks are right -/

/-- Every valid page, in the page size of the record, has the bytes of `C` in the cache file. -/
def ValidPagesCurrent (p : ObjsFile) (fd : Fd) (C : Bytes) (w : World) : Prop :=
  ∀ k, p.valid.bit k = true → ∀ j, k * p.pageSize ≤ j → j < (k + 1) * p.pageSize → j < p.nData →
    (w.disk.inode fd).get j = C.get j

/-- Every page that is marked after the ranges, taken to have `ps` bytes, has the bytes of `C` in
the file `f` where no range covers it. -/
def MarkedPagesHeld (p : ObjsFile) (rs : List DiffRange) (C f : Bytes) (ps : Nat) : Prop :=
  ∀ k, (markRanges rs p).valid.bit k = true → ∀ j, k * ps ≤ j → j < (k + 1) * ps → j < C.size →
    (∀ r ∈ rs, ¬ r.Has j) → f.get j = C.get j

/-- After a diff that succeeds the valid pages are right exactly if the marked pages, in the page
size now in force, were held before wherever the ranges do not cover them. -/
theorem diff_valid_pages_current_iff {rs : List DiffRange} {b : Blob} {p p' : ObjsFile} {fd : Fd}
    {w w' : World} (hb : w.azure.blobs p.blob = some b) (hclear : ClearedIn b.content rs)
    (hrun : Runs (World.served fun c => c.ranges = rs) (applyIncrementalDiff p fd b.content.size) w
      (p', true) w') :
    ∃ headerRead ps,
      ps = pageSizeAfter headerRead (patchedFile b.content rs p.nData (w.disk.inode fd))
        p.pageSize ∧
      p'.pageSize = ps ∧ (ValidPagesCurrent p' fd b.content w' ↔
        MarkedPagesHeld p rs b.content (w.disk.inode fd) ps) := by
  have hdone : DiffApplied p p' b.content rs (w.disk.inode fd) fd w' :=
    wp_alone_iff.mp (wp_applyIncrementalDiff_applied (fun _ h => h) hb) _ _ hrun rfl
  obtain ⟨headerRead, hps⟩ := hdone.pageSize
  refine ⟨headerRead, p'.pageSize, hps, rfl, ?_⟩
  unfold ValidPagesCurrent MarkedPagesHeld
  rw [hdone.nData]
  -- page by page and byte by byte
  refine forall_congr' fun k => ?_
  rw [hdone.valid k]
  refine imp_congr_right fun _ => forall_congr' fun j => imp_congr_right fun _ =>
    imp_congr_right fun _ => ?_
  refine forall_congr' fun hj => ?_
  rw [hdone.bytes j hj]
  exact patchedFile_get_eq_iff hclear p.nData hj

/-- A database of seventeen pages. -/
def seventeenPageDb : Bytes := SparseFile.ofFn 69632 fun i => (sqliteMagic ++ [16, 0])[i]?.getD 1

/-- The cache file of a session that fetched the first sixteen pages when it opened the database,
and nothing later. -/
def holedCache : Bytes :=
  SparseFile.ofFn 69632 fun i => if i < 65536 then seventeenPageDb.get i else 0

/-- The database and the cache file. -/
def holedWorld : World :=
  { World.new with
    azure := World.new.azure.create ⟨0, "db"⟩ seventeenPageDb
    disk := { World.new.disk with inode := fun _ => holedCache } }

/-- The record of `xOpen` with `prefetch=none` and `cache_reuse=1`. -/
def lazyFile : ObjsFile :=
  newFile azureProductionOps 0 "db" { cacheReuse := true, prefetch := .none } .mainDb

/-- A sector of the last page was written since. -/
def lastPageSector : DiffRange := { start := 65536, stop := 66047, isClear := false }

/-- The record with which `xOpen` applies a diff to that cache file. -/
def staleLazyFile : ObjsFile :=
  { lazyFile with
    cacheFd := some 0, cacheReuse := true, nData := 69632, snapshot := some 1
    lastSyncedSize := 69632, dirty := .ofBytes [0, 0, 0] 0, valid := .ofBytes [0, 0, 0] 0 }

/-- The whole last page was written since. -/
def lastPage : DiffRange := { start := 65536, stop := 69631, isClear := false }

set_option maxRecDepth 8000 in
/-- With a range that is a whole page the mark is right. -/
theorem diff_valid_pages_current_whole_page : ∃ p' w',
    Runs (World.served fun c => c.ranges = [lastPage])
      (applyIncrementalDiff staleLazyFile 0 69632) holedWorld (p', true) w' ∧
    p'.valid.bit 16 = true ∧ ValidPagesCurrent p' 0 seventeenPageDb w' := by
  obtain ⟨p', w', hrun, hmarked, hps⟩ : ∃ p' w',
      Runs (World.served fun c => c.ranges = [lastPage])
        (applyIncrementalDiff staleLazyFile 0 69632) holedWorld (p', true) w' ∧
      p'.valid.bit 16 = true ∧ p'.pageSize = 4096 := by
    refine ⟨_, _, Program.runs_of_exec (List.replicate 12 { ranges := [lastPage] })
      ?_ rfl, rfl, rfl⟩
    intro c hc
    rw [List.eq_of_mem_replicate hc]
  have hclear : ClearedIn seventeenPageDb [lastPage] := by
    intro r hr h
    obtain rfl := List.mem_singleton.mp hr
    cases h
  have hblob : holedWorld.azure.blobs staleLazyFile.blob = some _ := Azure.create_blobs_self _ _ _ _
  obtain ⟨_, ps, -, hps', hiff⟩ := diff_valid_pages_current_iff hblob hclear hrun
  refine ⟨p', w', hrun, hmarked, hiff.mpr ?_⟩
  intro k hk j hj hj' _ hno
  obtain rfl : ps = 4096 := hps'.symm.trans hps
  -- only the last page is marked, and the range covers it
  have hmarks : (markRanges [lastPage] staleLazyFile).valid.data =
      (Bitmap.ofBytes [0, 0, 1] 1).data := rfl
  rw [Bitmap.bit_congr hmarks] at hk
  have hbyte : k / 8 < 3 := Bitmap.lt_of_bit hk
  have honly : ∀ k, k < 24 → Bitmap.bit (.ofBytes [0, 0, 1] 1) k = true → k = 16 := by decide
  obtain rfl := honly k (by omega) hk
  have hcover : lastPage.Has j := ⟨show 65536 ≤ j by omega, show j ≤ 69631 by omega⟩
  exact absurd hcover (hno lastPage List.mem_cons_self)

set_option maxRecDepth 8000 in
/-- The sector is fetched, its page is marked, and the rest of the page is a hole. -/
theorem diff_marks_hole_valid : ∃ p' w',
    Runs (World.served fun c => c.ranges = [lastPageSector])
      (openStaleCache lazyFile (.temp "" 0) 0 1 69632) holedWorld (.ok p') w' ∧
    p'.snapshot = some 1 ∧ p'.valid.bit 16 = true ∧ p'.pageSize = 4096 ∧ p'.nData = 69632 ∧
    (w'.disk.inode 0).get 66048 = 0 ∧ seventeenPageDb.get 66048 = 1 ∧
    ¬ ValidPagesCurrent p' 0 seventeenPageDb w' := by
  refine ⟨_, _, Program.runs_of_exec (List.replicate 12 { ranges := [lastPageSector] }) ?_ rfl,
    rfl, rfl, rfl, rfl, rfl, rfl, fun h => ?_⟩
  · intro c hc
    rw [List.eq_of_mem_replicate hc]
  · exact absurd (h 16 rfl 66048 (by decide) (by decide) (by decide)) (by decide)

end SqliteObjs
