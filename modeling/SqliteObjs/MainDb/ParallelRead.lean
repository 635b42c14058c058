import SqliteObjs.CS.Log
import SqliteObjs.Data.Ranges
import SqliteObjs.MainDb.Filling

/-!
# The parallel download

`az_page_blob_read_multi` takes the size of the blob from its caller and asks for chunks of
that many bytes. A chunk counts as done when its request was answered with success, also
when the answer is shorter than the chunk. The download is complete when the blob is as
long as its caller thought, and it fails when a whole chunk is past the blob's end. Where
the blob ends inside the last chunk it succeeds without the bytes that are not there
(`read_multi_complete_iff`).
-/

set_option autoImplicit false

namespace SqliteObjs

open Data CS CS.Program

/-! ## Chunks -/

/-- The chunks of a download of `n` bytes. -/
def chunksOf (n : Nat) : List Data.Range :=
  if n < parallelReadMinSize then [(0, n)]
  else (List.range (pagesOf n (readChunkSize n))).map fun i =>
    (i * readChunkSize n, min (n - i * readChunkSize n) (readChunkSize n))

/-- Where the last chunk starts. -/
def lastChunkStart (n : Nat) : Nat :=
  if n < parallelReadMinSize then 0
  else (pagesOf n (readChunkSize n) - 1) * readChunkSize n

theorem chunkCount_le (n : Nat) : pagesOf n (readChunkSize n) ≤ 16 := by
  rcases Nat.eq_zero_or_pos n with rfl | hpos
  · decide
  rw [pagesOf_le_iff (readChunkSize_pos hpos)]
  unfold readChunkSize
  omega

/-- The chunks are a partition into at most 16 pieces. -/
theorem chunksOf_partition {n : Nat} (hpos : 0 < n) :
    Partition n (chunksOf n) ∧ (chunksOf n).length ≤ 16 := by
  unfold chunksOf
  split
  · refine ⟨⟨by simpa using hpos, List.pairwise_singleton _ _, fun j => ?_⟩, by simp⟩
    simp [Data.Range.Has]
  have hcs := readChunkSize_pos hpos
  refine ⟨⟨fun r hr => ?_, ?_, fun j => ?_⟩, ?_⟩
  · obtain ⟨i, hi, rfl⟩ := List.mem_map.mp hr
    have := mul_lt_of_lt_pagesOf hcs (List.mem_range.mp hi)
    dsimp only
    omega
  · refine List.pairwise_map.mpr (List.pairwise_lt_range.imp fun {i k} hik => ?_)
    have : (i + 1) * readChunkSize n ≤ k * readChunkSize n := Nat.mul_le_mul_right _ hik
    rw [Nat.succ_mul] at this
    dsimp only
    omega
  · constructor
    · intro hj
      refine ⟨_, List.mem_map_of_mem (List.mem_range.mpr (div_lt_pagesOf hcs hj)), ?_, ?_⟩
      · exact Nat.div_mul_le_self _ _
      · have := Nat.lt_div_mul_add hcs (a := j)
        have := Nat.div_mul_le_self j (readChunkSize n)
        dsimp only
        omega
    · rintro ⟨r, hr, h₁, h₂⟩
      obtain ⟨i, -, rfl⟩ := List.mem_map.mp hr
      dsimp only at h₁ h₂
      omega
  · rw [List.length_map, List.length_range]
    exact chunkCount_le n

/-! ## What a download does -/

def Req.isAzure : Req → Bool
  | .azure _ => true
  | .sys _ => false

/-- The answers of the world under any faults, with the requests to the service logged. -/
abbrev anyRead : (r : Req) → Logged World Ans → Ans r → Logged World Ans → Prop :=
  Logged.serveOf Req.isAzure (World.served fun _ => True)

/-- The range was requested. -/
def Asked (i : BlobId) (log : List ((r : Req) × Ans r)) (c : Data.Range) : Prop :=
  ∃ x : AzReply, (⟨.azure (.pageBlobRead i c.1 c.2), x⟩ : (r : Req) × Ans r) ∈ log

/-- A download that reports success has every byte of the blob, wrote nothing else, and asked
for a partition of the bytes into at most 16 pieces. -/
def CompleteDownload (i : BlobId) (C : Bytes) (n : Nat) (dest : Bytes) (r : AzErr × Bytes)
    (log : List ((r : Req) × Ans r)) : Prop :=
  r.1 = .ok → (∀ j, j < n → r.2.get j = C.get j) ∧ (∀ j, n ≤ j → r.2.get j = dest.get j) ∧
    ∃ chunks, Partition n chunks ∧ chunks.length ≤ 16 ∧ ∀ c, Asked i log c ↔ c ∈ chunks

/-- The download so far: the chunks of `A` are done. -/
structure Progress (i : BlobId) (a : Azure) (C : Bytes) (n : Nat) (dest₀ : Bytes) (A : Nat → Prop)
    (dest : Bytes) (w : Logged World Ans) : Prop where
  azure : w.world.azure = a
  outside : ∀ j, n ≤ j → dest.get j = dest₀.get j
  asked : ∀ c, Asked i w.log c → c ∈ chunksOf n
  done : ∀ k, A k → k * readChunkSize n < C.size ∧
    Asked i w.log (k * readChunkSize n, min (n - k * readChunkSize n) (readChunkSize n)) ∧
    ∀ j, j / readChunkSize n = k → j < n → j < C.size → dest.get j = C.get j

section Runs

variable {α : Type} {i : BlobId} {a : Azure} {b : Blob} {n : Nat} {dest₀ dest : Bytes}
  {A B : Nat → Prop}
  {w : Logged World Ans}

theorem quiet_anyRead : Quiet (.alone anyRead) := by
  intro r hr w x w' hs
  have hs : anyRead (.sys r) w x w' := hs
  obtain ⟨hw, -⟩ := quiet_alone r hr w.world x w'.world hs.1
  refine ⟨?_, trivial⟩
  rw [Logged.serveOf_skip hs rfl, hw]

/-- A range read, whatever happens: only a success has the blob's bytes for sure. -/
theorem served_read {ok : Choice → Prop} {off len : Nat} {w w' : World} {x : AzReply}
    (hs : World.served ok (.azure (.pageBlobRead i off len)) w x w')
    (hb : w.azure.blobs i = some b) :
    w'.azure = w.azure ∧
      (x.err = .ok → off < b.content.size ∧ x.body = b.content.slice off len) := by
  obtain ⟨c, -, hr⟩ := hs
  obtain ⟨hstay, -⟩ := Azure.respond_pageBlobRead w.azure i off len
  simp only [World.respond, Azure.serve] at hr
  split at hr
  · next e applied _ =>
    split at hr
    · simp at hr
    next he =>
    simp only [Option.map_some, Option.some.injEq, Prod.mk.injEq] at hr
    obtain ⟨rfl, rfl⟩ := hr
    refine ⟨?_, fun h => absurd h he⟩
    dsimp only
    split
    · exact hstay
    · rfl
  · simp only [Option.map_some, Option.some.injEq, Prod.mk.injEq] at hr
    obtain ⟨rfl, rfl⟩ := hr
    refine ⟨hstay, fun hok => ?_⟩
    simp only [Azure.respond, hb] at hok ⊢
    split at hok
    · simp at hok
    · next hlen =>
      split at hok
      · simp at hok
      · next hoff =>
        rw [if_neg hlen, if_neg hoff]
        exact ⟨by omega, rfl⟩

theorem asked_cons {log : List ((r : Req) × Ans r)} {off len : Nat} {x : AzReply} {c : Data.Range} :
    Asked i (⟨.azure (.pageBlobRead i off len), x⟩ :: log) c ↔ c = (off, len) ∨ Asked i log c := by
  constructor
  · rintro ⟨y, hy⟩
    rcases List.mem_cons.mp hy with heq | hy
    · left
      have := congrArg (fun e : (r : Req) × Ans r => e.1) heq
      simp only [Req.azure.injEq, AzReq.pageBlobRead.injEq, true_and] at this
      exact Prod.ext this.1 this.2
    · exact Or.inr ⟨y, hy⟩
  · rintro (rfl | ⟨y, hy⟩)
    · exact ⟨x, List.mem_cons_self⟩
    · exact ⟨y, List.mem_cons_of_mem _ hy⟩

theorem not_asked_nil {c : Data.Range} : ¬ Asked i [] c := by
  rintro ⟨x, hx⟩
  cases hx

theorem Progress.mono (h : Progress i a b.content n dest₀ A dest w) (hsub : ∀ k, B k → A k) :
    Progress i a b.content n dest₀ B dest w :=
  ⟨h.azure, h.outside, h.asked, fun k hk => h.done k (hsub k hk)⟩

/-- One chunk was answered. -/
theorem Progress.answer (h : Progress i a b.content n dest₀ A dest w) (hb : a.blobs i = some b)
    (hlarge : ¬ n < parallelReadMinSize) {k : Nat} (hk : k < pagesOf n (readChunkSize n))
    (hnew : ¬ A k) {x : AzReply} {w' : Logged World Ans}
    (hs : anyRead (.azure (.pageBlobRead i (k * readChunkSize n)
      (min (n - k * readChunkSize n) (readChunkSize n)))) w x w') :
    Progress i a b.content n dest₀ (fun m => A m ∨ m = k ∧ x.err = .ok)
      (dest.pwrite (k * readChunkSize n)
        (x.body.slice 0 (min (n - k * readChunkSize n) (readChunkSize n)))) w' := by
  obtain ⟨ha, hbody⟩ := served_read hs.1 (by rw [h.azure]; exact hb)
  have hlog : w'.log = ⟨.azure (.pageBlobRead i (k * readChunkSize n)
      (min (n - k * readChunkSize n) (readChunkSize n))), x⟩ :: w.log := hs.2
  have hstart := mul_lt_of_lt_pagesOf (readChunkSize_pos (n := n) (by
    unfold parallelReadMinSize at hlarge
    omega)) hk
  have hcs := readChunkSize_pos (n := n) (by omega)
  generalize hlen : min (n - k * readChunkSize n) (readChunkSize n) = len at *
  have hsize : (x.body.slice 0 len).size ≤ len := by
    rw [SparseFile.slice_size]
    omega
  refine ⟨ha.trans h.azure, fun j hj => ?_, fun c hc => ?_, ?_⟩
  · rw [SparseFile.pwrite_get_of_not_mem _ _ (by omega), h.outside j hj]
  · rw [hlog] at hc
    rcases asked_cons.mp hc with rfl | hc
    · unfold chunksOf
      rw [if_neg hlarge, ← hlen]
      exact List.mem_map_of_mem (List.mem_range.mpr hk)
    · exact h.asked c hc
  · rintro m (hm | ⟨rfl, hok⟩)
    · obtain ⟨h₁, h₂, h₃⟩ := h.done m hm
      refine ⟨h₁, by rw [hlog]; exact asked_cons.mpr (Or.inr h₂), fun j hj hjn hjs => ?_⟩
      rw [SparseFile.pwrite_get_of_not_mem, h₃ j hj hjn hjs]
      -- the position would be in chunk `k`
      rintro ⟨hlo, hhi⟩
      have hjk : j / readChunkSize n = k := by
        rw [Nat.div_eq_iff hcs]
        generalize readChunkSize n = cs at *
        omega
      exact hnew (hjk ▸ hj ▸ hm)
    · obtain ⟨hoff, hbody⟩ := hbody hok
      refine ⟨hoff, by rw [hlog]; exact asked_cons.mpr (Or.inl (by rw [hlen])),
        fun j hj hjn hjs => ?_⟩
      rw [Nat.div_eq_iff hcs] at hj
      have hin : m * readChunkSize n ≤ j ∧ j < m * readChunkSize n + len := by
        generalize readChunkSize n = cs at *
        omega
      rw [hbody, SparseFile.slice_slice_zero, SparseFile.pwrite_get_of_mem _ _ hin.1
        (by rw [SparseFile.slice_size]; omega), SparseFile.slice_get_of_lt _ (by omega)]
      congr 1
      omega

/-- One attempt. -/
theorem wp_readSend_progress (hb : a.blobs i = some b) (hlarge : ¬ n < parallelReadMinSize) :
    ∀ (order : List Nat) {A : Nat → Prop} {dest : Bytes} {w : Logged World Ans}, order.Nodup →
      (∀ k ∈ order, ¬ A k) → (∀ k ∈ order, k < pagesOf n (readChunkSize n)) →
      Progress i a b.content n dest₀ A dest w →
      wp (.alone anyRead) (readSend i n order dest)
      (fun r w' => ∃ msgs dest', r = some (msgs, dest') ∧
        Progress i a b.content n dest₀ (doneBy A msgs) dest' w') w
  | [], A, dest, w, _, _, _, h =>
    wp_alone_ret.mpr ⟨[], dest, rfl, h.mono fun k hk => by simpa [doneBy] using hk⟩
  | k :: order, A, dest, w, hnd, hnew, hin, h => by
    obtain ⟨hk, hnd⟩ := List.nodup_cons.mp hnd
    unfold readSend
    apply wp_alone_call.mpr
    intro x w₁ hs
    have h₁ := h.answer hb hlarge (hin k List.mem_cons_self) (hnew k List.mem_cons_self) hs
    show wp (.alone anyRead) (readSend i n order _ >>= _) _ _
    rw [wp_bind]
    refine wp_mono ?_ (wp_readSend_progress hb hlarge order hnd ?_
      (fun m hm => hin m (List.mem_cons_of_mem _ hm)) h₁)
    · rintro _ w₂ ⟨msgs, dest', rfl, h₂⟩
      refine wp_alone_ret.mpr ⟨(k, x) :: msgs, dest', rfl, h₂.mono fun m hm => ?_⟩
      rcases hm with hm | ⟨m', hm', rfl, hx⟩
      · exact Or.inl (Or.inl hm)
      rcases List.mem_cons.mp hm' with rfl | hm'
      · exact Or.inl (Or.inr ⟨rfl, hx⟩)
      · exact Or.inr ⟨m', hm', rfl, hx⟩
    · rintro m hm (ha | ⟨rfl, -⟩)
      · exact hnew m (List.mem_cons_of_mem _ hm) ha
      · exact hk hm

/-- A download that reports success did all its chunks; so the last of them starts inside the
blob. -/
theorem wp_azPageBlobReadMulti_progress (hb : a.blobs i = some b) (hw : w.world.azure = a)
    (hlog : w.log = []) (hpos : 0 < n) (dest : Bytes) :
    wp (.alone anyRead) (azPageBlobReadMulti i n dest) (fun r w' => r.1 = .ok →
      lastChunkStart n < b.content.size ∧ (∀ c, Asked i w'.log c ↔ c ∈ chunksOf n) ∧
      (∀ j, n ≤ j → r.2.get j = dest.get j) ∧
      ∀ j, j < n → j < b.content.size → r.2.get j = b.content.get j) w := by
  unfold azPageBlobReadMulti
  rw [if_neg (by omega)]
  split
  · next hsmall =>
    -- one request, perhaps repeated
    have hchunks : chunksOf n = [(0, n)] := if_pos hsmall
    have hlast : lastChunkStart n = 0 := if_pos hsmall
    unfold azPageBlobRead
    rw [if_neg (by omega)]
    refine wp_execute_bind (I := fun w => w.world.azure = a ∧ ∀ c, Asked i w.log c → c = (0, n))
      stable_alone ⟨hw, fun c hc => absurd (hlog ▸ hc) not_asked_nil⟩ fun w x w' hI hs => ?_
    obtain ⟨ha, hbody⟩ := served_read hs.1 (by rw [hI.1]; exact hb)
    have hlog' : w'.log = ⟨.azure (.pageBlobRead i 0 n), x⟩ :: w.log := hs.2
    have hasked : ∀ c, Asked i w'.log c → c = (0, n) := by
      intro c hc
      rw [hlog'] at hc
      exact (asked_cons.mp hc).elim id (hI.2 c)
    refine ⟨trivial, fun _ => ⟨ha.trans hI.1, hasked⟩, ?_⟩
    have hall : ∀ c, Asked i w'.log c ↔ c ∈ chunksOf n := by
      intro c
      rw [hchunks, List.mem_singleton]
      refine ⟨hasked c, ?_⟩
      rintro rfl
      rw [hlog']
      exact asked_cons.mpr (Or.inl rfl)
    split
    · next hx =>
      refine wp_alone_ret.mpr fun _ => ?_
      obtain ⟨hoff, hbody⟩ := hbody hx.1
      rw [hlast, hbody, SparseFile.slice_slice_zero]
      refine ⟨hoff, hall, fun j hj => ?_, fun j hj hjs => ?_⟩
      · exact SparseFile.pwrite_get_of_not_mem _ _ (by rw [SparseFile.slice_size]; omega)
      · rw [SparseFile.pwrite_get_of_mem _ _ (Nat.zero_le _) (by rw [SparseFile.slice_size]; omega),
          SparseFile.slice_get_of_lt _ (by omega)]
        congr 1
        omega
    · next hx =>
      -- a success has a body
      refine wp_alone_ret.mpr fun hok => absurd ⟨hok, ?_⟩ hx
      obtain ⟨hoff, hbody⟩ := hbody hok
      rw [hbody, SparseFile.slice_size]
      omega
  next hlarge =>
  dsimp only
  refine wp_transferSetup_bind quiet_anyRead fun e _ => ?_
  split
  · next he => exact wp_alone_ret.mpr fun h => absurd h he
  have hstart : Progress i a b.content n dest (fun _ => False) dest w :=
    ⟨hw, fun _ _ => rfl, fun c hc => absurd (hlog ▸ hc) not_asked_nil, fun _ h => h.elim⟩
  refine wp_mono ?_ (wp_transfer_of (fun _ dest => dest) quiet_anyRead
    (J := fun A dest' w => Progress i a b.content n dest A dest' w)
    (P := fun k => k < pagesOf n (readChunkSize n)) (fun _ _ => stable_alone)
    (fun hsub h => h.mono hsub) ?_ _ (fun _ => False) _ dest List.nodup_range (fun _ _ => id)
    (fun _ hk => List.mem_range.mp hk) hstart)
  · rintro ⟨e, dest'⟩ w' ⟨-, hall⟩ hok
    have h := hall hok
    have hdone : ∀ k, k < pagesOf n (readChunkSize n) → _ :=
      fun k hk => h.done k (Or.inr (List.mem_range.mpr hk))
    have hcs := readChunkSize_pos hpos
    have hcount : 0 < pagesOf n (readChunkSize n) :=
      Nat.lt_of_le_of_lt (Nat.zero_le _) (div_lt_pagesOf hcs hpos)
    refine ⟨?_, fun c => ⟨h.asked c, fun hc => ?_⟩, h.outside, fun j hj hjs => ?_⟩
    · unfold lastChunkStart
      rw [if_neg hlarge]
      exact (hdone _ (by omega)).1
    · unfold chunksOf at hc
      rw [if_neg hlarge] at hc
      obtain ⟨k, hk, rfl⟩ := List.mem_map.mp hc
      exact (hdone k (List.mem_range.mp hk)).2.1
    · exact (hdone _ (div_lt_pagesOf hcs hj)).2.2 j rfl hj hjs
  · intro A order dest' w hnd hnew hP h
    refine wp_mono ?_ (wp_readSend_progress hb hlarge order hnd hnew hP h)
    rintro _ w' ⟨msgs, dest₁, rfl, h₁⟩
    refine ⟨fun h => by simp at h, ?_⟩
    rintro _ _ ⟨⟩ msgs' hp
    refine h₁.mono fun k hk => ?_
    rcases hk with hk | ⟨m, hm, hk⟩
    · exact Or.inl hk
    · exact Or.inr ⟨m, hp.mem_iff.mp hm, hk⟩

theorem noRelock_readSend (i : BlobId) (n : Nat) : ∀ (order : List Nat) (dest : Bytes),
    NoRelock (readSend i n order dest)
  | [], _ => trivial
  | k :: order, dest => by
    unfold readSend
    refine Uses.bind (noRelock_azure _) fun x => ?_
    exact (noRelock_readSend i n order _).bind fun _ => trivial

theorem noRelock_azPageBlobReadMulti (i : BlobId) (n : Nat) (dest : Bytes) :
    NoRelock (azPageBlobReadMulti i n dest) := by
  unfold azPageBlobReadMulti
  refine Uses.ite trivial (Uses.ite ?_ ?_)
  · exact (noRelock_azPageBlobRead _ _ _).bind fun _ => Uses.ite trivial trivial
  · refine (noRelock_transferSetup _).bind fun e => Uses.ite trivial ?_
    exact noRelock_transfer (fun order dest => noRelock_readSend i n order dest) _ _ _

/-- The download is complete whenever it reports success exactly if the blob has at least as
many bytes as its caller asks for, or ends before the last chunk. -/
theorem read_multi_complete_iff {w : World} (hb : w.azure.blobs i = some b) (hpos : 0 < n) :
    (∀ dest r w', Runs anyRead (azPageBlobReadMulti i n dest) ⟨w, []⟩ r w' →
      CompleteDownload i b.content n dest r w'.log) ↔
    n ≤ b.content.size ∨ b.content.size ≤ lastChunkStart n := by
  constructor
  · intro h
    by_contra hno
    obtain ⟨hshort, hlast⟩ : b.content.size < n ∧ lastChunkStart n < b.content.size := by omega
    -- without faults the download succeeds and leaves the bytes past the blob
    have hin : ¬ n < parallelReadMinSize → ∀ k, k < pagesOf n (readChunkSize n) →
        k * readChunkSize n < b.content.size := by
      intro hlarge k hk
      unfold lastChunkStart at hlast
      rw [if_neg hlarge] at hlast
      have : k * readChunkSize n ≤ (pagesOf n (readChunkSize n) - 1) * readChunkSize n :=
        Nat.mul_le_mul_right _ (by omega)
      omega
    generalize hdest : SparseFile.ofFn (n + 1) (fun _ => (1 : UInt8)) = dest
    obtain ⟨r, w₁, hr⟩ := (noRelock_azPageBlobReadMulti i n dest).exists_runs w
    obtain ⟨hok, hkeep⟩ := wp_alone_iff.mp
      (wp_azPageBlobReadMulti_ok (d := w.disk) hb hpos (by omega) hin dest) r w₁ hr
    have hany : Runs (World.served fun _ => True) (azPageBlobReadMulti i n dest) w r w₁ :=
      hr.mono fun _ _ _ _ ⟨c, _, hc⟩ => ⟨c, trivial, hc⟩
    obtain ⟨log, hlog⟩ := Logged.exists_runs_of Req.isAzure hany []
    have hbyte := (h dest r _ hlog hok).1 b.content.size hshort
    rw [hkeep _ (Nat.le_refl _), b.content.get_past _ (Nat.le_refl _), ← hdest,
      SparseFile.ofFn_get, if_pos (by omega)] at hbyte
    exact absurd hbyte (by decide)
  · intro h dest r w' hr hok
    obtain ⟨hlast, hasked, hout, hbytes⟩ := wp_alone_iff.mp
      (wp_azPageBlobReadMulti_progress hb rfl rfl hpos dest) r w' hr hok
    obtain ⟨hpart, hlen⟩ := chunksOf_partition hpos
    exact ⟨fun j hj => hbytes j hj (by omega), hout, chunksOf n, hpart, hlen, hasked⟩

/-- A blob of one sector that the caller takes to have two: the download reports success and the
second sector of the buffer is what it was. -/
theorem read_multi_short : ∃ dest r w',
    Runs anyRead (azPageBlobReadMulti ⟨0, "db"⟩ 1024 dest) ⟨smallPageWorld, []⟩ r w' ∧
    ¬ CompleteDownload ⟨0, "db"⟩ smallPageDb 1024 dest r w'.log := by
  obtain ⟨r, w', hr, hok, hbyte⟩ : ∃ r w',
      Runs (World.served Sound)
        (azPageBlobReadMulti ⟨0, "db"⟩ 1024 (SparseFile.ofFn 1024 fun _ => 1)) smallPageWorld r w' ∧
      r.1 = .ok ∧ r.2.get 512 = 1 :=
    ⟨_, _, runs_sound 3 rfl, rfl, rfl⟩
  have hany : Runs (World.served fun _ => True)
      (azPageBlobReadMulti ⟨0, "db"⟩ 1024 (SparseFile.ofFn 1024 fun _ => 1)) smallPageWorld r w' :=
    hr.mono fun _ _ _ _ ⟨c, _, hc⟩ => ⟨c, trivial, hc⟩
  obtain ⟨log, hlog⟩ := Logged.exists_runs_of Req.isAzure hany []
  refine ⟨_, r, _, hlog, fun h => ?_⟩
  have := (h hok).1 512 (by decide)
  rw [hbyte] at this
  exact absurd this (by decide)

/-- A download of the sector that is there. -/
theorem read_multi_complete_small : ∃ r w',
    Runs anyRead (azPageBlobReadMulti ⟨0, "db"⟩ 512 (SparseFile.empty.truncate 512))
      ⟨smallPageWorld, []⟩ r w' ∧ r.1 = .ok ∧
    CompleteDownload ⟨0, "db"⟩ smallPageDb 512 (SparseFile.empty.truncate 512) r w'.log := by
  obtain ⟨r, w', hr, hok⟩ : ∃ r w',
      Runs (World.served Sound)
        (azPageBlobReadMulti ⟨0, "db"⟩ 512 (SparseFile.empty.truncate 512)) smallPageWorld r w' ∧
      r.1 = .ok :=
    ⟨_, _, runs_sound 3 rfl, rfl⟩
  have hany : Runs (World.served fun _ => True)
      (azPageBlobReadMulti ⟨0, "db"⟩ 512 (SparseFile.empty.truncate 512)) smallPageWorld r w' :=
    hr.mono fun _ _ _ _ ⟨c, _, hc⟩ => ⟨c, trivial, hc⟩
  obtain ⟨log, hlog⟩ := Logged.exists_runs_of Req.isAzure hany []
  have hblob : ∃ b, smallPageWorld.azure.blobs ⟨0, "db"⟩ = some b ∧ b.content = smallPageDb :=
    ⟨_, rfl, rfl⟩
  obtain ⟨b, hb, hc⟩ := hblob
  refine ⟨r, _, hlog, hok, ?_⟩
  rw [← hc]
  exact (read_multi_complete_iff hb (by decide)).mpr (Or.inl (by rw [hc]; decide)) _ r _ hlog

end Runs
end SqliteObjs
