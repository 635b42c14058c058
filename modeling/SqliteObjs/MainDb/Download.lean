import SqliteObjs.MainDb.Rules

/-!
# Downloading a blob into the cache file

A download is many requests, and the blob may change between two of them. What is
downloaded is the content `C` of one version as long as that version is still the
current one at the end: `Cur` says so, and a version that was replaced never comes
back. A client that is alone takes `True` for `Cur`.
-/

set_option autoImplicit false

namespace SqliteObjs

open Data CS CS.Program

/-- Reads of the blob `b`, whose content is `C` while `Cur` holds. Once `Cur` fails it
fails for good. -/
structure Reading {W : Type} (E : Setting W Ans) (b : BlobId) (B Cur : W → Prop) (C : Bytes) :
    Prop where
  fact : Fact E B
  rely : ∀ w w', E.rely w w' → B w → Cur w' → Cur w
  sys : ∀ (r : SysReq) w (x : SysReply) w', E.serve (.sys r) w x w' → B w → Cur w' → Cur w
  read : ∀ off len w (x : AzReply) w', B w →
    E.serve (.azure (.pageBlobRead b off len)) w x w' →
    E.guar w w' ∧ B w' ∧ (Cur w' → Cur w) ∧ (x.err = .ok → Cur w → x.body = C.slice off len)
  diff : ∀ s w (x : AzReply) w', B w → E.serve (.azure (.blobGetPageRangesDiff b s)) w x w' →
    E.guar w w' ∧ B w'

section Download

variable {W α : Type} {E : Setting W Ans} {view : W → World} {ok : Req → Choice → Prop}
  {B Cur : W → Prop} {C : Bytes} {b : BlobId} {d : Disk} {w : W} {p : ObjsFile} {fd : Fd}

/-- What was found while `Cur` held is right as long as it holds. -/
theorem Reading.fact_cur (hR : Reading E b B Cur C) (P : Prop) :
    Fact E fun w => B w ∧ (Cur w → P) where
  stable w w' hw h := ⟨hR.fact.stable w w' hw h.1, fun hc => h.2 (hR.rely w w' hw h.1 hc)⟩
  sys r w x w' hs h := ⟨hR.fact.sys r w x w' hs h.1, fun hc => h.2 (hR.sys r w x w' hs h.1 hc)⟩

/-- One range read. -/
theorem Reading.wp_azPageBlobRead_bind (hR : Reading E b B Cur C) (hE : Seen E view ok) {P : Prop}
    (hk : Knows view (fun w => B w ∧ (Cur w → P)) d w) {off len : Nat} {f : AzReply → Prog α}
    {Q : α → W → Prop}
    (h : ∀ x w', Knows view (fun w => B w ∧ (Cur w → P ∧ (x.err = .ok → x.body = C.slice off len)))
      d w' → wp E (f x) Q w') : wp E (azPageBlobRead b off len >>= f) Q w := by
  rw [wp_bind]
  unfold azPageBlobRead
  split
  · refine hk.wp_ret hE (hR.fact_cur P) fun w' hk' => h _ w' ⟨⟨hk'.1.1, fun hc => ?_⟩, hk'.2⟩
    exact ⟨hk'.1.2 hc, fun he => by simp at he⟩
  refine SqliteObjs.wp_execute (Q := fun x w => wp E (f x) Q w) ((hR.fact_cur P).knows_stable hE)
    (fun _ _ _ hw hq => wp_stable hw hq) hk fun w x w' hk hs => ?_
  obtain ⟨hg, hB, hback, hbody⟩ := hR.read off len w x w' hk.1.1 hs
  have hd : (view w').disk = d := (hE.azure_disk hs).trans hk.2
  refine ⟨hg, fun _ => ⟨⟨hB, fun hc => hk.1.2 (hback hc)⟩, hd⟩, h x w' ⟨⟨hB, fun hc => ?_⟩, hd⟩⟩
  exact ⟨hk.1.2 (hback hc), fun he => hbody he (hback hc)⟩

/-! ## Chunks -/

theorem readChunkSize_pos {n : Nat} (h : 0 < n) : 0 < readChunkSize n := by
  unfold readChunkSize
  omega

/-- Chunk `i` of the buffer is the blob's. -/
def ChunkDone (C dest : Bytes) (i : Nat) : Prop :=
  ∀ k, k / readChunkSize C.size = i → k < C.size → dest.get k = C.get k

/-- Storing one chunk leaves the others. -/
theorem ChunkDone.pwrite_ne {C dest body : Bytes} {i j : Nat} (h : ChunkDone C dest j)
    (hij : i ≠ j) (hb : body.size ≤ readChunkSize C.size) :
    ChunkDone C (dest.pwrite (i * readChunkSize C.size) body) j := by
  intro k hk hlt
  rw [SparseFile.pwrite_get_of_not_mem, h k hk hlt]
  rintro ⟨h₁, h₂⟩
  have hpos := readChunkSize_pos (n := C.size) (by omega)
  -- `k` would be in chunk `i`
  have hi : k / readChunkSize C.size = i := by
    rw [Nat.div_eq_iff hpos]
    generalize readChunkSize C.size = cs at *
    omega
  exact hij (hi.symm.trans hk)

theorem chunkDone_pwrite (C dest : Bytes) (i : Nat) :
    ChunkDone C (dest.pwrite (i * readChunkSize C.size) ((C.slice (i * readChunkSize C.size)
      (min (C.size - i * readChunkSize C.size) (readChunkSize C.size))).slice 0
      (min (C.size - i * readChunkSize C.size) (readChunkSize C.size)))) i := by
  intro k hk hlt
  have hpos := readChunkSize_pos (n := C.size) (by omega)
  rw [Nat.div_eq_iff hpos] at hk
  generalize readChunkSize C.size = cs at *
  rw [SparseFile.pwrite_get_of_mem _ _ (by omega)
    (by simp only [SparseFile.slice_size]; omega), SparseFile.slice_get_of_lt _ (by omega),
    SparseFile.slice_get_of_lt _ (by omega)]
  congr 1
  omega

/-- All chunks together are the blob. -/
theorem eq_of_chunksDone {C dest : Bytes} (hs : dest.size = C.size)
    (h : ∀ i, i < (C.size + readChunkSize C.size - 1) / readChunkSize C.size → ChunkDone C dest i) :
    dest = C := by
  refine SparseFile.ext hs fun k => ?_
  by_cases hk : k < C.size
  · have hpos := readChunkSize_pos (n := C.size) (by omega)
    exact h _ (div_lt_pagesOf hpos hk) k rfl hk
  · rw [dest.get_past k (by omega), C.get_past k (by omega)]

/-! ## The transfer -/

/-- The chunks of `A` are in the buffer. -/
def ChunksDone (Cur : W → Prop) (C : Bytes) (A : Nat → Prop) (dest : Bytes) (w : W) : Prop :=
  Cur w → ∀ i, A i → ChunkDone C dest i

theorem Reading.wp_readSend (hR : Reading E b B Cur C) (hE : Seen E view ok) :
    ∀ (order : List Nat) (A : Nat → Prop) (dest : Bytes) {w : W}, order.Nodup →
      (∀ i ∈ order, ¬ A i) → dest.size = C.size →
      Knows view (fun w => B w ∧ ChunksDone Cur C A dest w) d w →
      wp E (readSend b C.size order dest) (fun r w' => ∃ msgs dest', r = some (msgs, dest') ∧
        dest'.size = C.size ∧
        Knows view (fun w => B w ∧ ChunksDone Cur C (doneBy A msgs) dest' w) d w') w
  | [], A, dest, w, _, _, hs, hk => by
    refine hk.wp_ret hE (hR.fact_cur _) fun w' hk' => ⟨[], dest, rfl, hs, ⟨hk'.1.1, ?_⟩, hk'.2⟩
    exact fun hc i hi => hk'.1.2 hc i (by simpa [doneBy] using hi)
  | i :: order, A, dest, w, hnd, hnew, hs, hk => by
    obtain ⟨hi, hnd⟩ := List.nodup_cons.mp hnd
    unfold readSend
    refine SqliteObjs.wp_azure_bind hk ((hR.fact_cur _).knows_stable hE) fun w x w₁ hk hread => ?_
    obtain ⟨hg, hB, hback, hbody⟩ := hR.read _ _ w x w₁ hk.1.1 hread
    have hd : (view w₁).disk = d := (hE.azure_disk hread).trans hk.2
    refine ⟨hg, ?_⟩
    generalize hlen : min (C.size - i * readChunkSize C.size) (readChunkSize C.size) = len at *
    generalize hdest : dest.pwrite (i * readChunkSize C.size) (x.body.slice 0 len) = dest₁
    have hs₁ : dest₁.size = C.size := by
      rw [← hdest, SparseFile.pwrite_size, SparseFile.slice_size]
      split <;> omega
    have hk₁ : Knows view (fun w => B w ∧
        ChunksDone Cur C (fun j => A j ∨ j = i ∧ x.err = .ok) dest₁ w) d w₁ := by
      refine ⟨⟨hB, fun hc j hj => ?_⟩, hd⟩
      rcases hj with hj | ⟨rfl, hx⟩
      · rw [← hdest]
        apply (hk.1.2 (hback hc) j hj).pwrite_ne
        · rintro rfl
          exact hnew _ List.mem_cons_self hj
        · rw [SparseFile.slice_size]
          omega
      · rw [← hdest, hbody hx (hback hc), ← hlen]
        exact chunkDone_pwrite C dest j
    rw [wp_bind]
    refine wp_mono ?_ (hR.wp_readSend hE order _ dest₁ hnd ?_ hs₁ hk₁)
    · rintro _ w₂ ⟨msgs, dest', rfl, hs', hk₂⟩
      refine hk₂.wp_ret hE (hR.fact_cur _) fun w' hk' =>
        ⟨(i, x) :: msgs, dest', rfl, hs', ⟨hk'.1.1, fun hc j hj => hk'.1.2 hc j ?_⟩, hk'.2⟩
      rcases hj with hj | ⟨m, hm, rfl, hx⟩
      · exact Or.inl (Or.inl hj)
      rcases List.mem_cons.mp hm with rfl | hm
      · exact Or.inl (Or.inr ⟨rfl, hx⟩)
      · exact Or.inr ⟨m, hm, rfl, hx⟩
    · rintro j hj (ha | ⟨rfl, -⟩)
      · exact hnew j (List.mem_cons_of_mem _ hj) ha
      · exact hi hj

/-- A download that succeeds has the blob's content, if that is still the current one. -/
def Downloaded (view : W → World) (B Cur : W → Prop) (C : Bytes) (d : Disk) (r : AzErr × Bytes)
    (w : W) : Prop :=
  r.2.size = C.size ∧ Knows view (fun w => B w ∧ (Cur w → r.1 = .ok → r.2 = C)) d w

/-- A download whose buffer is as it should be, or that failed. -/
theorem Reading.wp_downloaded (hR : Reading E b B Cur C) (hE : Seen E view ok) {e : AzErr}
    {dest : Bytes} (hs : dest.size = C.size)
    (hk : Knows view (fun w => B w ∧ (Cur w → e = .ok → dest = C)) d w) :
    wp E (.ret (e, dest)) (Downloaded view B Cur C d) w :=
  hk.wp_ret hE (hR.fact_cur _) fun _ hk' => ⟨hs, hk'⟩

theorem pwrite_whole {dest body : Bytes} (h : dest.size ≤ body.size) :
    dest.pwrite 0 (body.slice 0 body.size) = body := by
  refine SparseFile.ext ?_ fun k => ?_
  · rw [SparseFile.pwrite_size, SparseFile.slice_size]
    split <;> omega
  · rw [SparseFile.pwrite_get, SparseFile.slice_size]
    split
    · next hk =>
      rw [SparseFile.slice_get_of_lt _ (by omega)]
      congr 1
      omega
    · next hk =>
      rw [dest.get_past k (by omega), body.get_past k (by omega)]

/-- The content in one request. -/
theorem slice_whole (C : Bytes) : C.slice 0 C.size = C := by
  refine SparseFile.ext (by simp) fun k => ?_
  rw [SparseFile.slice_get, Nat.sub_zero, Nat.min_self, Nat.zero_add]
  split
  · rfl
  · exact (C.get_past k (by omega)).symm

theorem Reading.wp_azPageBlobReadMulti (hR : Reading E b B Cur C) (hE : Seen E view ok)
    (hpos : 0 < C.size) {dest : Bytes} (hs : dest.size = C.size) (hk : Knows view B d w) :
    wp E (azPageBlobReadMulti b C.size dest) (Downloaded view B Cur C d) w := by
  have hnothing : Knows view (fun w => B w ∧ (Cur w → True)) d w :=
    ⟨⟨hk.1, fun _ => trivial⟩, hk.2⟩
  have hfail : ∀ {e : AzErr} {w : W}, e ≠ .ok → Knows view B d w →
      wp E (.ret (e, dest)) (Downloaded view B Cur C d) w :=
    fun he hk => hR.wp_downloaded hE hs ⟨⟨hk.1, fun _ h => absurd h he⟩, hk.2⟩
  unfold azPageBlobReadMulti
  rw [if_neg (by omega)]
  split
  · refine hR.wp_azPageBlobRead_bind hE hnothing fun x w₁ hk₁ => ?_
    split
    · next hx =>
      refine hR.wp_downloaded hE ?_ ⟨⟨hk₁.1.1, fun hc _ => ?_⟩, hk₁.2⟩
      · rw [SparseFile.pwrite_size, SparseFile.slice_size]
        split <;> omega
      · rw [(hk₁.1.2 hc).2 hx.1, slice_whole]
        exact pwrite_whole (Nat.le_of_eq hs)
    · next hx =>
      refine hR.wp_downloaded hE hs ⟨⟨hk₁.1.1, fun hc he => absurd ⟨he, ?_⟩ hx⟩, hk₁.2⟩
      rw [(hk₁.1.2 hc).2 he, slice_whole]
      exact hpos
  dsimp only
  refine wp_transferSetup_bind hE.quiet fun e _ => ?_
  split
  · next he => exact hfail he hk
  refine wp_mono ?_ (wp_transfer (fun _ dest => dest) hE.quiet
    (J := fun A dest w => dest.size = C.size ∧
      Knows view (fun w => B w ∧ ChunksDone Cur C A dest w) d w) ?_ ?_ ?_ _ (fun _ => False) _ dest
    List.nodup_range (fun _ _ => id) ⟨hs, ⟨hk.1, fun _ _ => False.elim⟩, hk.2⟩)
  · rintro ⟨e, dest'⟩ w' ⟨⟨hs', hk'⟩, hall⟩
    refine ⟨hs', ⟨hk'.1.1, fun hc he => eq_of_chunksDone hs' fun i hi => ?_⟩, hk'.2⟩
    exact (hall he).2.1.2 hc i (Or.inr (List.mem_range.mpr hi))
  · exact fun A dest w w' hw h => ⟨h.1, (hR.fact_cur _).knows_stable hE w w' hw h.2⟩
  · exact fun hsub h => ⟨h.1, ⟨h.2.1.1, fun hc i hi => h.2.1.2 hc i (hsub i hi)⟩, h.2.2⟩
  · intro A order dest w hnd hnew h
    refine wp_mono ?_ (hR.wp_readSend hE order A dest hnd hnew h.1 h.2)
    rintro _ w' ⟨msgs, dest', rfl, hs', hk'⟩
    refine ⟨fun h => by simp at h, ?_⟩
    rintro _ _ ⟨⟩ msgs' hp
    refine ⟨hs', ⟨hk'.1.1, fun hc i hi => hk'.1.2 hc i ?_⟩, hk'.2⟩
    rcases hi with hi | ⟨m, hm, hi⟩
    · exact Or.inl hi
    · exact Or.inr ⟨m, hp.mem_iff.mp hm, hi⟩

theorem Reading.wp_downloadBlob (hR : Reading E p.blob B Cur C) (hE : Seen E view ok)
    (hpos : 0 < C.size) {dest : Bytes} (hs : dest.size = C.size) (hk : Knows view B d w) :
    wp E (downloadBlob p C.size dest) (Downloaded view B Cur C d) w := by
  unfold downloadBlob
  split
  · exact hR.wp_azPageBlobReadMulti hE hpos hs hk
  have hnothing : Knows view (fun w => B w ∧ (Cur w → True)) d w :=
    ⟨⟨hk.1, fun _ => trivial⟩, hk.2⟩
  refine hR.wp_azPageBlobRead_bind hE hnothing fun x w₁ hk₁ => ?_
  split
  · next hx => exact hR.wp_downloaded hE hs ⟨⟨hk₁.1.1, fun _ h => absurd h hx⟩, hk₁.2⟩
  split
  · exact hR.wp_downloaded hE hs ⟨⟨hk₁.1.1, fun _ h => by simp at h⟩, hk₁.2⟩
  next hx _ =>
  refine hR.wp_downloaded hE ?_ ⟨⟨hk₁.1.1, fun hc _ => ?_⟩, hk₁.2⟩
  · rw [SparseFile.pwrite_size, SparseFile.slice_size]
    split <;> omega
  · rw [(hk₁.1.2 hc).2 (by simpa using hx), slice_whole]
    exact pwrite_whole (Nat.le_of_eq hs)

/-! ## Into the cache file -/

variable {A : W → Prop}

/-- The part that is written grows by what one `write` took. -/
theorem pwrite_slice_pwrite (f₀ f : Bytes) {total n : Nat} (hn : total + n ≤ f.size) :
    (f₀.pwrite 0 (f.slice 0 total)).pwrite total ((f.slice total (f.size - total)).slice 0 n) =
      f₀.pwrite 0 (f.slice 0 (total + n)) := by
  have hsize : ((f.slice total (f.size - total)).slice 0 n).size = n := by
    simp only [SparseFile.slice_size]
    omega
  have hle : ∀ m, m ≤ f.size → (f.slice 0 m).size = m := by
    intro m hm
    rw [SparseFile.slice_size]
    omega
  refine SparseFile.ext ?_ fun k => ?_
  · rw [SparseFile.pwrite_size, hsize, SparseFile.pwrite_size, SparseFile.pwrite_size,
      hle total (by omega), hle (total + n) hn]
    split_ifs <;> omega
  · rw [SparseFile.pwrite_get, hsize, SparseFile.pwrite_get, SparseFile.pwrite_get,
      hle total (by omega), hle (total + n) hn]
    by_cases hk : total ≤ k ∧ k < total + n
    · rw [if_pos hk, if_pos (by omega), SparseFile.slice_get_of_lt _ (by omega),
        SparseFile.slice_get_of_lt _ (by omega), SparseFile.slice_get_of_lt _ (by omega)]
      congr 1
      omega
    rw [if_neg hk]
    by_cases hlt : k < total
    · rw [if_pos (by omega), if_pos (by omega), SparseFile.slice_get_of_lt _ (by omega),
        SparseFile.slice_get_of_lt _ (by omega)]
    · rw [if_neg (by omega), if_neg (by omega)]

/-- The loop of `write`s over a file `f₀`. Every round makes progress, so that the
rounds suffice. -/
theorem Knows.wp_writeAll (hE : Seen E view ok) (hA : Fact E A) (f₀ buf : Bytes) :
    ∀ (n total : Nat) {w : W}, total ≤ buf.size → buf.size ≤ total + n →
      Knows view A (d.setInode fd (f₀.pwrite 0 (buf.slice 0 total))) w →
      wp E (writeAll fd buf n total) (fun r w' => (DiskWorks ok → r = true) ∧
        ∃ f, Knows view A (d.setInode fd f) w' ∧ (r = true → f = f₀.pwrite 0 buf)) w
  | 0, total, w, hle, hn, hk => by
    refine hk.wp_ret hE hA fun w' hk' => ⟨fun _ => rfl, _, hk', fun _ => ?_⟩
    rw [show total = buf.size by omega, slice_whole]
  | n + 1, total, w, hle, hn, hk => by
    unfold writeAll
    split
    · refine hk.wp_ret hE hA fun w' hk' => ⟨fun _ => rfl, _, hk', fun _ => ?_⟩
      rw [show total = buf.size by omega, slice_whole]
    refine hk.wp_sys_bind hE hA fun c w₁ hc hk₁ => ?_
    cases hf : c.sysFails with
    | true =>
      simp only [Disk.serve, hf, if_true, Bool.not_false, Bool.true_or] at hk₁ ⊢
      refine hk₁.wp_ret hE hA fun w' hk' => ⟨fun hdisk => ?_, _, hk', fun h => Bool.noConfusion h⟩
      have := hdisk (.write fd total (buf.slice total (buf.size - total))) c (by simp) hc
      rw [hf] at this
      exact Bool.noConfusion this
    | false =>
      -- between one byte and all of the rest
      obtain ⟨k, hk0, hkle, hcount⟩ : ∃ k, 0 < k ∧ total + k ≤ buf.size ∧
          (if 0 < c.count ∧ c.count < (buf.slice total (buf.size - total)).size then c.count
            else (buf.slice total (buf.size - total)).size) = k := by
        refine ⟨_, ?_, ?_, rfl⟩ <;> rw [SparseFile.slice_size] <;> split <;> omega
      simp only [Disk.serve, hf, Bool.false_eq_true, if_false, hcount, Disk.setInode_inode_self,
        Disk.setInode_setInode, pwrite_slice_pwrite f₀ buf hkle] at hk₁ ⊢
      rw [if_neg (by simp; omega)]
      exact Knows.wp_writeAll hE hA f₀ buf n (total + k) hkle (by omega) hk₁

theorem Knows.wp_redetectPageSize_bind (hk : Knows view A d w) (hE : Seen E view ok)
    (hA : Fact E A) {f : ObjsFile → Prog α} {Q : α → W → Prop}
    (h : ∀ ps w', (LegalPageSize p.pageSize → LegalPageSize ps) → Knows view A d w' →
      wp E (f { p with pageSize := ps }) Q w') :
    wp E (redetectPageSize p fd >>= f) Q w := by
  rw [wp_bind]
  unfold redetectPageSize
  refine hk.wp_sys_bind hE hA fun c w₁ _ hk₁ => ?_
  have hd : (d.serve c (.pread fd 0 100)).2 = d := by
    simp only [Disk.serve]
    split <;> rfl
  rw [hd] at hk₁
  split
  · refine hk₁.wp_ret hE hA fun w' hk' => ?_
    split
    · next hpos => exact h _ w' (fun _ => legalPageSize_detect hpos) hk'
    · exact h p.pageSize w' id hk'
  · exact hk₁.wp_ret hE hA fun w' hk' => h p.pageSize w' id hk'

end Download
end SqliteObjs
