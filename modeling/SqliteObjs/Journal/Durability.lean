import SqliteObjs.Journal.Buffer

/-!
# What a synced journal or WAL leaves behind

After an `xSync` of a journal or WAL that returns `SQLITE_OK`, another process that
opens the name should load the file's content. A WAL meets this unless its chunk
count is lost in the narrowing to `int`. A rollback journal meets it when it has
content to upload, and otherwise only when there was no content to replace: an
empty journal is not uploaded, and the blob of the time before stays.
-/

set_option autoImplicit false

namespace SqliteObjs

open Data CS CS.Program

/-! ## Uploads -/

/-- Nobody holds a lease on the blob. -/
def Azure.Unleased (a : Azure) (i : BlobId) : Prop :=
  ∀ b, a.blobs i = some b → b.admits none = true

/-- The blob has this content. -/
def Azure.Holds (a : Azure) (i : BlobId) (d : Bytes) : Prop :=
  ∃ b, a.blobs i = some b ∧ b.content = d

/-- The blob is missing or empty. -/
def Azure.NoContent (a : Azure) (i : BlobId) : Prop :=
  ∀ b, a.blobs i = some b → b.content.size = 0

namespace Azure

variable {a : Azure} {i : BlobId}

theorem admits_leaseAfterChange (b : Blob) (h : b.admits none = true) (c : Bytes) (e : ETag)
    (u : ETag → Bytes) (m : Nat → Option Bytes) :
    ({ b with content := c, etag := e, lease := b.leaseAfterChange, history := u, committed := m }
      : Blob).admits none = true := by
  unfold Blob.admits Blob.leaseAfterChange at *
  cases hl : b.lease <;> simp_all

/-- Storing an unleased blob succeeds. -/
theorem putBlob_spec (h : a.Unleased i) (d : Bytes) (m : Nat → Option Bytes) :
    (a.putBlob i d m).1.err = .ok ∧ (a.putBlob i d m).2.Unleased i ∧
      (a.putBlob i d m).2.Holds i d := by
  unfold putBlob
  cases hb : a.blobs i with
  | none =>
    refine ⟨rfl, ?_, ?_⟩
    · intro b hb'
      rw [setBlocks_blobs, create_blobs_self, Option.some.injEq] at hb'
      subst hb'
      rfl
    · exact ⟨_, create_blobs_self a i d m, rfl⟩
  | some b =>
    have hadm := h b hb
    simp only [hadm, if_true]
    refine ⟨trivial, ?_, ?_⟩
    · intro b' hb'
      rw [setBlocks_blobs, change_blobs_self, Option.some.injEq] at hb'
      subst hb'
      exact admits_leaseAfterChange b hadm _ _ _ _
    · exact ⟨_, change_blobs_self a i b d m, rfl⟩

/-- An uncommitted block is the latest of its id. -/
theorem latest_of_block {id : Nat} {d : Bytes} (h : a.blocks i id = some d) :
    a.latest i id = some d := by
  rw [latest, h, Option.some_or]

/-- Consecutive blocks of a content make up a slice of it. -/
theorem concatBlocks_slices (d : Bytes) (cs : Nat) (blocks : Nat → Option Bytes) :
    ∀ (k i : Nat), (∀ j, i ≤ j → j < i + k → blocks j = some (d.slice (j * cs) cs)) →
      concatBlocks blocks (List.range' i k) = some (d.slice (i * cs) (k * cs)) := by
  intro k
  induction k with
  | zero =>
    intro i _
    rw [List.range'_zero, concatBlocks, Nat.zero_mul, Option.some.injEq]
    exact SparseFile.ext (by simp) fun j => by simp [SparseFile.slice_get]
  | succ k ih =>
    intro i h
    rw [List.range'_succ, concatBlocks, h i (Nat.le_refl _) (by omega),
      ih (i + 1) fun j hj hj' => h j (by omega) (by omega)]
    simp only [Option.bind_eq_bind, Option.bind_some, pure, Option.some.injEq]
    have hmul : (k + 1) * cs = k * cs + cs := Nat.succ_mul k cs
    have hmul' : (i + 1) * cs = i * cs + cs := Nat.succ_mul i cs
    refine SparseFile.ext ?_ fun j => ?_
    · rw [SparseFile.pwrite_size]
      simp only [SparseFile.slice_size, hmul, hmul']
      split <;> omega
    · rw [SparseFile.pwrite_get, SparseFile.slice_get, SparseFile.slice_get, SparseFile.slice_get,
        SparseFile.slice_size, SparseFile.slice_size]
      split
      · next hj =>
        rw [if_pos (by omega), if_pos (by omega)]
        congr 1
        omega
      · next hj =>
        by_cases hlt : j < min cs (d.size - i * cs)
        · rw [if_pos hlt, if_pos (by omega)]
        · rw [if_neg hlt, if_neg (by omega)]

end Azure

section Upload

variable {ok : Choice → Prop} {w : World} {i : BlobId} {d : Bytes}

/-- What an upload leaves: the blob unleased, and the stored content if it was
accepted. -/
def Stored (i : BlobId) (d : Bytes) (x : AzReply) (w : World) : Prop :=
  w.azure.Unleased i ∧ (x.err = .ok → w.azure.Holds i d)

theorem wp_azBlockBlobUpload (hok : ∀ c, ok c → c.fault = none) (hu : w.azure.Unleased i) :
    wp (.alone (World.served ok)) (azBlockBlobUpload i d)
      (fun x w' => x.err = .ok ∧ Stored i d x w') w := by
  obtain ⟨h₁, h₂, h₃⟩ := Azure.putBlob_spec hu d _
  exact wp_execute_healthy hok (by intros; simp) ⟨h₁, h₂, fun _ => h₃⟩

/-- Chunks that are stored as uncommitted blocks. -/
def ChunksAt (i : BlobId) (d : Bytes) (cs : Nat) (A : Nat → Prop) (w : World) : Prop :=
  w.azure.Unleased i ∧ ∀ j, A j → w.azure.blocks i j = some (d.slice (j * cs) cs)

theorem wp_blockSend (hok : ∀ c, ok c → c.fault = none) {cs : Nat} :
    ∀ (order : List Nat) (A : Nat → Prop) {w : World}, ChunksAt i d cs A w →
      wp (.alone (World.served ok)) (blockSend i d cs order) (fun replies w' =>
        (∀ j ∈ order, ∃ m ∈ replies, m.1 = j ∧ m.2.err = .ok) ∧
        ChunksAt i d cs (fun j => A j ∨ ∃ m ∈ replies, m.1 = j) w') w
  | [], A, w, h => by
    refine wp_alone_ret.mpr ⟨by simp, h.1, ?_⟩
    rintro j (hj | ⟨m, hm, -⟩)
    · exact h.2 j hj
    · cases hm
  | k :: order, A, w, h => by
    unfold blockSend
    refine wp_azure_bind (P := fun w' => w' = w) rfl stable_alone ?_
    rintro w x w' rfl hs
    obtain ⟨rfl, rfl⟩ := served_azure hok (by intros; simp) hs
    refine ⟨trivial, ?_⟩
    rw [wp_bind]
    have hk : ChunksAt i d cs (fun j => A j ∨ j = k) (w.after (.putBlock i k
        (d.slice (k * cs) cs))) := by
      refine ⟨h.1, fun j hj => ?_⟩
      simp only [World.after, Azure.respond, Azure.setBlocks, Function.update_self]
      by_cases hjk : j = k
      · rw [hjk, Function.update_self]
      · rw [Function.update_of_ne hjk]
        exact h.2 j (hj.resolve_right hjk)
    refine wp_mono ?_ (wp_blockSend hok order _ hk)
    rintro replies w' ⟨hall, hch⟩
    refine wp_alone_ret.mpr ⟨?_, hch.1, ?_⟩
    · intro j hj
      rcases List.mem_cons.mp hj with rfl | hj
      · exact ⟨_, List.mem_cons_self, rfl, rfl⟩
      · obtain ⟨m, hm, h₁⟩ := hall j hj
        exact ⟨m, List.mem_cons_of_mem _ hm, h₁⟩
    · rintro j (hj | ⟨m, hm, rfl⟩)
      · exact hch.2 j (Or.inl (Or.inl hj))
      · rcases List.mem_cons.mp hm with rfl | hm
        · exact hch.2 _ (Or.inl (Or.inr rfl))
        · exact hch.2 _ (Or.inr ⟨m, hm, rfl⟩)

/-- The blocks of a committed upload are a prefix of the content. -/
theorem respond_putBlockList {cs n : Nat} (h : ChunksAt i d cs (fun j => j ∈ List.range n) w)
    (hn : n ≤ Azure.maxBlockList) :
    (w.answer (.putBlockList i (List.range n))).err = .ok ∧
      Stored i (d.slice 0 (n * cs)) (w.answer (.putBlockList i (List.range n)))
        (w.after (.putBlockList i (List.range n))) := by
  have hc := Azure.concatBlocks_slices d cs (w.azure.latest i) n 0
    fun j _ hj => Azure.latest_of_block (h.2 j (List.mem_range.mpr (by omega)))
  rw [Nat.zero_mul, ← List.range_eq_range'] at hc
  obtain ⟨h₁, h₂, h₃⟩ := Azure.putBlob_spec h.1 (d.slice 0 (n * cs))
    fun id => if id ∈ List.range n then w.azure.latest i id else none
  simp only [World.answer, World.after, Azure.respond, List.length_range,
    if_neg (Nat.not_lt.mpr hn), hc]
  exact ⟨h₁, h₂, fun _ => h₃⟩

/-- The number of chunks of an upload, as the C code counts them. -/
def chunkCount (n cs : Nat) : Int := cInt ((n + cs - 1) / cs : Nat)

/-- What an accepted upload in chunks stores. -/
def storedInChunks (d : Bytes) (cs : Nat) : Bytes :=
  if d.size < blockUploadMinParallelSize ∨ chunkCount d.size cs ≤ 1 then d
  else d.slice 0 ((chunkCount d.size cs).toNat * cs)

/-- A block list that is too long is refused. -/
theorem respond_putBlockList_long {n : Nat} (hn : Azure.maxBlockList < n) :
    w.answer (.putBlockList i (List.range n)) = { err := .badRequest } ∧
      w.after (.putBlockList i (List.range n)) = w := by
  simp only [World.answer, World.after, Azure.respond, List.length_range, if_pos hn, and_self]

/-- Blocks that are put and committed store a prefix of the content. -/
theorem wp_uploadChunks (hok : ∀ c, ok c → c.fault = none) (hu : w.azure.Unleased i)
    (cs n : Nat) :
    wp (.alone (World.served ok)) (uploadChunks i d cs n) (fun x w' =>
      Stored i (d.slice 0 (n * cs)) x w' ∧ (x.err = .ok → n ≤ Azure.maxBlockList) ∧
      (Allocates (.alone (World.served ok)) → n ≤ Azure.maxBlockList → x.err = .ok)) w := by
  have hsend : ∀ (A : Nat → Prop) (order : List Nat) (s : Unit) (w : World),
      ChunksAt i d cs A w → wp (.alone (World.served ok))
        (blockSend i d cs order >>= fun replies => .ret (some (replies, ())))
        (fun r w' => (r = none → ChunksAt i d cs A w') ∧
          ∀ replies s', r = some (replies, s') → ∀ msgs, msgs.Perm replies →
            ChunksAt i d cs (doneBy A msgs) w') w := by
    intro A order s w h
    rw [wp_bind]
    refine wp_mono ?_ (wp_blockSend hok order A h)
    rintro replies w' ⟨-, hch⟩
    refine wp_alone_ret.mpr ⟨fun h => by simp at h, ?_⟩
    rintro _ _ ⟨⟩ msgs hp
    refine ⟨hch.1, fun j hj => hch.2 j ?_⟩
    rcases hj with hj | ⟨m, hm, hj, -⟩
    · exact Or.inl hj
    · exact Or.inr ⟨m, hp.mem_iff.mp hm, hj⟩
  unfold uploadChunks
  refine wp_transferSetup_bind quiet_alone fun e he => ?_
  split
  · next hne =>
    exact wp_alone_ret.mpr ⟨⟨hu, fun h => absurd h hne⟩, fun h => absurd h hne,
      fun ha => absurd (he ha) hne⟩
  rw [wp_bind]
  have hJ := wp_transfer (E := .alone (World.served ok)) (fun _ s => s) quiet_alone
    (J := fun A _ w => ChunksAt i d cs A w) (fun _ _ => stable_alone)
    (fun hAB h => ⟨h.1, fun j hj => h.2 j (hAB j hj)⟩)
    (fun A order s w _ _ => hsend A order s w) (transferRetries + 1)
    (fun _ => False) (List.range n) () List.nodup_range (fun _ _ => id) ⟨hu, fun _ h => h.elim⟩
  have hall : Allocates (.alone (World.served ok)) → wp (.alone (World.served ok))
      (transfer (fun order _ => blockSend i d cs order >>= fun replies =>
        .ret (some (replies, ()))) (fun _ s => s) (transferRetries + 1) (List.range n) ())
      (fun r _ => r.1 = .ok) w := by
    intro ha
    refine wp_transfer_ok quiet_alone ha ?_ _
    intro order _
    rw [wp_bind]
    refine wp_mono ?_ (wp_blockSend hok order (fun _ => False) ⟨hu, fun _ h => h.elim⟩)
    rintro replies w' ⟨h, -⟩
    exact wp_alone_ret.mpr ⟨replies, (), rfl, h⟩
  refine wp_mono ?_ (wp_and hJ (wp_imp hall fun _ => wp_mono (fun _ _ _ => trivial) hJ))
  rintro ⟨e, s⟩ w₁ ⟨⟨hA, hok₁⟩, hfine⟩
  split
  · next hne =>
    exact wp_alone_ret.mpr ⟨⟨hA.1, fun h => absurd h hne⟩, fun h => absurd h hne,
      fun ha => absurd (hfine ha) hne⟩
  next heq =>
  have hch : ChunksAt i d cs (fun j => j ∈ List.range n) w₁ := by
    have h := hok₁ (by simpa using heq)
    exact ⟨h.1, fun j hj => h.2 j (Or.inr hj)⟩
  refine wp_quiet_bind quiet_alone rfl fun x hx => ?_
  split
  · next hn =>
    refine wp_alone_ret.mpr ⟨⟨hA.1, fun h => by simp at h⟩, fun h => by simp at h, fun ha => ?_⟩
    rw [ha.ok hx] at hn
    exact Bool.noConfusion hn
  refine wp_execute_healthy hok (by intros; simp) ?_
  by_cases hn : n ≤ Azure.maxBlockList
  · obtain ⟨h₁, h₂⟩ := respond_putBlockList hch hn
    exact ⟨h₂, fun _ => hn, fun _ _ => h₁⟩
  · obtain ⟨h₁, h₂⟩ := respond_putBlockList_long (w := w₁) (i := i) (Nat.lt_of_not_le hn)
    rw [h₁, h₂]
    exact ⟨⟨hA.1, fun h => by simp at h⟩, fun h => by simp at h, fun _ h => absurd h hn⟩

/-- An upload in chunks that is accepted stores its chunks, and nothing but its
length or a failing allocation keeps it from being accepted. -/
theorem wp_azBlockBlobUploadParallel (hok : ∀ c, ok c → c.fault = none)
    (hu : w.azure.Unleased i) (cs : Nat) :
    wp (.alone (World.served ok)) (azBlockBlobUploadParallel i d cs) (fun x w' =>
      Stored i (storedInChunks d cs) x w' ∧
      (x.err = .ok → d.size < blockUploadMinParallelSize ∨
        (chunkCount d.size cs).toNat ≤ Azure.maxBlockList) ∧
      (Allocates (.alone (World.served ok)) →
        (chunkCount d.size cs).toNat ≤ Azure.maxBlockList → x.err = .ok)) w := by
  unfold azBlockBlobUploadParallel
  have hdef : cInt ((d.size + cs - 1) / cs : Nat) = chunkCount d.size cs := rfl
  simp only [hdef]
  by_cases hs : d.size < blockUploadMinParallelSize ∨ chunkCount d.size cs ≤ 1
  · -- a small upload is a single request
    have hstored : storedInChunks d cs = d := if_pos hs
    have hprog : (if d.size < blockUploadMinParallelSize then azBlockBlobUpload i d
        else if chunkCount d.size cs ≤ 1 then azBlockBlobUpload i d else
          uploadChunks i d cs (chunkCount d.size cs).toNat) = azBlockBlobUpload i d := by
      rcases hs with hs | hs
      · rw [if_pos hs]
      · rw [if_pos hs, ite_self]
    rw [hprog, hstored]
    refine wp_mono ?_ (wp_azBlockBlobUpload hok hu)
    rintro x w' ⟨h₁, h₂⟩
    have hmax : 1 ≤ Azure.maxBlockList := by decide
    exact ⟨h₂, fun _ => hs.imp_right fun h => by omega, fun _ _ => h₁⟩
  · have hstored : storedInChunks d cs = d.slice 0 ((chunkCount d.size cs).toNat * cs) :=
      if_neg hs
    rw [if_neg (fun h => hs (Or.inl h)), if_neg (fun h => hs (Or.inr h)), hstored]
    refine wp_mono ?_ (wp_uploadChunks hok hu cs _)
    rintro x w' ⟨h₁, h₂, h₃⟩
    exact ⟨h₁, fun h => Or.inr (h₂ h), h₃⟩

end Upload

/-! ## Sessions of a buffered file -/

/-- The calls that change a journal or WAL. -/
inductive BufferCall
  | write (buf : Bytes) (iOfst : Nat)
  | truncate (size : Nat)
  | sync

def BufferCall.code : BufferCall → VfsData × ObjsFile → Prog (VfsData × ObjsFile)
  | .write buf iOfst, (v, p) => do
    let (p, _) ← sqliteObjsWrite p buf iOfst
    return (v, p)
  | .truncate size, (v, p) => do
    let (p, _) ← sqliteObjsTruncate p size
    return (v, p)
  | .sync, (v, p) => do
    let (v, p, _) ← sqliteObjsSync v p
    return (v, p)

/-- Any sequence of these calls by the only client of a healthy service. -/
def bufferSession : Session World Ans (VfsData × ObjsFile) BufferCall where
  code := BufferCall.code
  may _ _ _ := True
  serve _ _ := World.served Healthy

/-- What holds of a journal or WAL between calls. -/
structure BufferInv (p : ObjsFile) (w : World) : Prop where
  complete : p.ops.Complete
  kind : p.eFileType ≠ .mainDb
  name : p.zBlobName ≠ ""
  jrnl : Buffered p.aJrnlData p.nJrnlData
  wal : Buffered p.aWalData p.nWalData
  unleased : w.azure.Unleased p.blob
  emptyWal : p.eFileType = .wal → p.nWalData = 0 → w.azure.NoContent p.blob

section Inv

variable {v : VfsData} {p : ObjsFile} {w : World}

theorem wp_bufferWrite {data : Bytes} {n : Nat} (hb : Buffered data n) (buf : Bytes)
    (iOfst : Nat) {ok : Choice → Prop} :
    wp (.alone (World.served ok)) (bufferWrite data n buf iOfst)
      (fun r w' => w' = w ∧ Buffered r.1 r.2.1 ∧ n ≤ r.2.1) w := by
  unfold bufferWrite
  refine wp_bufferEnsure_bind quiet_alone hb (wp_alone_ret.mpr ⟨rfl, hb, Nat.le_refl _⟩) ?_
  intro buf' hb' hle _
  refine wp_alone_ret.mpr ⟨rfl, ?_, Nat.le_max_left _ _⟩
  have hsize : (buf'.pwrite iOfst buf).size = buf'.size := SparseFile.pwrite_size_of_le _ _ hb'.le
  have hn := hb.le
  have hm := hb'.le
  exact hb'.of_size hsize (Nat.max_le.mpr ⟨by omega, hm⟩)

theorem BufferInv.write (h : BufferInv p w) (buf : Bytes) (iOfst : Nat) :
    wp (.alone (World.served Healthy)) (sqliteObjsWrite p buf iOfst)
      (fun r w' => BufferInv r.1 w') w := by
  unfold sqliteObjsWrite
  split
  · next hk =>
    rw [wp_bind]
    refine wp_mono ?_ (wp_bufferWrite h.wal buf iOfst)
    rintro ⟨data, n, rc⟩ w' ⟨rfl, hb, hn⟩
    refine wp_alone_ret.mpr { h with wal := hb, emptyWal := fun he h0 => h.emptyWal he ?_ }
    exact Nat.eq_zero_of_le_zero (h0 ▸ hn)
  · next hk =>
    rw [wp_bind]
    refine wp_mono ?_ (wp_bufferWrite h.jrnl buf iOfst)
    rintro ⟨data, n, rc⟩ w' ⟨rfl, hb, -⟩
    exact wp_alone_ret.mpr { h with jrnl := hb }
  · next hk => exact absurd hk h.kind

theorem wp_deleteWal (h : BufferInv p w) :
    wp (.alone (World.served Healthy)) (deleteWal p)
      (fun _ w' => w'.azure.Unleased p.blob ∧ w'.azure.NoContent p.blob) w := by
  have hdel : p.ops.blobDelete = true := by rw [h.complete]; rfl
  have hnone : ∀ a : Azure, a.blobs p.blob = none → a.Unleased p.blob ∧ a.NoContent p.blob := by
    intro a ha
    exact ⟨fun b hb => by simp [ha] at hb, fun b hb => by simp [ha] at hb⟩
  unfold deleteWal azBlobDelete
  rw [if_pos hdel]
  refine wp_execute_healthy_bind (fun c hc => hc) (by intros; simp) (wp_alone_ret.mpr ?_)
  refine hnone _ ?_
  simp only [World.after, Azure.respond]
  cases hb : w.azure.blobs p.blob with
  | none => exact hb
  | some b =>
    simp only [h.unleased b hb, if_true]
    exact Azure.set_blobs_self _ _ _

theorem BufferInv.truncate (h : BufferInv p w) (size : Nat) :
    wp (.alone (World.served Healthy)) (sqliteObjsTruncate p size)
      (fun r w' => BufferInv r.1 w') w := by
  unfold sqliteObjsTruncate
  split
  · next hk =>
    split
    · rw [wp_bind]
      refine wp_mono ?_ (wp_deleteWal h)
      rintro _ w' ⟨hu, hn⟩
      exact wp_alone_ret.mpr { h with
        unleased := hu
        wal := h.wal.of_size (by simp) (Nat.zero_le _)
        emptyWal := fun _ _ => hn }
    split
    · next h0 hlt =>
      have hle := h.wal.le
      exact wp_alone_ret.mpr { h with
        wal := h.wal.of_le (show size ≤ _ by omega)
        emptyWal := fun _ hz => absurd hz h0 }
    · exact wp_alone_ret.mpr h
  · next hk =>
    split
    · next hlt =>
      have hle := h.jrnl.le
      refine wp_alone_ret.mpr { h with jrnl := ?_ }
      dsimp only
      split
      · exact h.jrnl.of_size (by simp) (by omega)
      · exact h.jrnl.of_le (by omega)
    · exact wp_alone_ret.mpr h
  · next hk => exact absurd hk h.kind

/-! ## Syncing -/

/-- The chunk size of a parallel upload. -/
def walChunk (v : VfsData) : Nat := if 0 < v.walChunkSize then v.walChunkSize else walDefaultChunk

/-- A WAL goes up in chunks. -/
def UploadsInChunks (v : VfsData) (p : ObjsFile) : Prop :=
  p.eFileType = .wal ∧ v.walParallelUpload = true ∧ p.ops.blockBlobUploadParallel = true

instance (v : VfsData) (p : ObjsFile) : Decidable (UploadsInChunks v p) :=
  inferInstanceAs (Decidable (_ ∧ _))

/-- What an accepted upload of `xSync` stores. -/
def storedBySync (v : VfsData) (p : ObjsFile) : Bytes :=
  if UploadsInChunks v p then storedInChunks p.content (walChunk v) else p.content

/-- The upload of `xSync` is not refused for its length. -/
def AcceptedLength (v : VfsData) (p : ObjsFile) : Prop :=
  UploadsInChunks v p → (chunkCount p.nWalData (walChunk v)).toNat ≤ Azure.maxBlockList

variable {ok : Choice → Prop}

theorem wp_uploadWal (hok : ∀ c, ok c → c.fault = none) (h : BufferInv p w)
    (hk : p.eFileType = .wal) :
    wp (.alone (World.served ok)) (uploadWal v p) (fun x w' =>
      Stored p.blob (storedBySync v p) x w' ∧
      (x.err = .ok → UploadsInChunks v p → p.nWalData < blockUploadMinParallelSize ∨
        (chunkCount p.nWalData (walChunk v)).toNat ≤ Azure.maxBlockList) ∧
      (Allocates (.alone (World.served ok)) → AcceptedLength v p → x.err = .ok)) w := by
  have hc : p.content = p.aWalData.truncate p.nWalData := by simp only [ObjsFile.content, hk]
  unfold uploadWal
  dsimp only
  rw [← hc]
  split
  · next hpar =>
    rw [Bool.and_eq_true] at hpar
    have hstored : storedBySync v p = storedInChunks p.content (walChunk v) :=
      if_pos ⟨hk, hpar⟩
    rw [hstored]
    refine wp_mono ?_ (wp_azBlockBlobUploadParallel hok h.unleased (walChunk v))
    rintro x w' ⟨h₁, h₂, h₃⟩
    have hsize : p.content.size = p.nWalData := by rw [hc]; rfl
    rw [hsize] at h₂ h₃
    exact ⟨h₁, fun h _ => h₂ h, fun ha hl => h₃ ha (hl ⟨hk, hpar⟩)⟩
  · next hpar =>
    have hstored : storedBySync v p = p.content := by
      refine if_neg fun h' => hpar ?_
      rw [Bool.and_eq_true]
      exact h'.2
    rw [hstored]
    refine wp_mono ?_ (wp_azBlockBlobUpload hok h.unleased)
    rintro x w' ⟨h₁, h₂⟩
    refine ⟨h₂, fun _ h' => absurd ?_ hpar, fun _ _ => h₁⟩
    rw [Bool.and_eq_true]
    exact h'.2

/-- What `xSync` of a journal or WAL does: nothing to an empty file, else an upload. -/
structure SyncPost (ok : Choice → Prop) (v : VfsData) (p : ObjsFile) (w : World) (p' : ObjsFile)
    (rc : Rc) (w' : World) : Prop where
  file : p' = p
  inv : BufferInv p w'
  empty : sqliteObjsFileSize p = 0 → rc = .ok ∧ w' = w
  stored : sqliteObjsFileSize p ≠ 0 → rc = .ok → w'.azure.Holds p.blob (storedBySync v p)
  fits : rc = .ok → UploadsInChunks v p → p.nWalData < blockUploadMinParallelSize ∨
    (chunkCount p.nWalData (walChunk v)).toNat ≤ Azure.maxBlockList
  accepted : Allocates (.alone (World.served ok)) → AcceptedLength v p → rc = .ok

theorem wp_sqliteObjsSync_buffer (hok : ∀ c, ok c → c.fault = none) (h : BufferInv p w) :
    wp (.alone (World.served ok)) (sqliteObjsSync v p)
      (fun r w' => SyncPost ok v p w r.2.1 r.2.2 w') w := by
  have hup : p.ops.blockBlobUpload = true := by rw [h.complete]; rfl
  unfold sqliteObjsSync
  split
  · next hk =>
    have hsize : sqliteObjsFileSize p = p.nWalData := by simp only [sqliteObjsFileSize, hk]
    unfold walSync
    split
    · next h0 =>
      have hmin : 0 < blockUploadMinParallelSize := by decide
      exact wp_alone_ret.mpr ⟨rfl, h, fun _ => ⟨rfl, rfl⟩, fun hne => absurd (hsize ▸ h0) hne,
        fun _ _ => Or.inl (by omega), fun _ _ => rfl⟩
    next h0 =>
    rw [hup]
    simp only [Bool.not_true, Bool.false_eq_true, if_false]
    rw [wp_bind, wp_bind]
    refine wp_mono ?_ (wp_uploadWal (v := v) hok h hk)
    rintro x w' ⟨⟨hu, hst⟩, hfits, hacc⟩
    have hinv : BufferInv p w' := { h with unleased := hu, emptyWal := fun _ h' => absurd h' h0 }
    have hne : sqliteObjsFileSize p ≠ 0 := by rw [hsize]; exact h0
    split
    · next he =>
      exact wp_alone_ret.mpr (wp_alone_ret.mpr ⟨rfl, hinv, fun h' => absurd h' hne,
        fun _ h' => by simp at h', fun h' => by simp at h', fun ha hl => absurd (hacc ha hl) he⟩)
    · next he =>
      exact wp_alone_ret.mpr (wp_alone_ret.mpr ⟨rfl, hinv, fun h' => absurd h' hne,
        fun _ _ => hst (by simpa using he), fun _ => hfits (by simpa using he), fun _ _ => rfl⟩)
  · next hk =>
    have hsize : sqliteObjsFileSize p = p.nJrnlData := by simp only [sqliteObjsFileSize, hk]
    have hc : p.content = p.aJrnlData.truncate p.nJrnlData := by simp only [ObjsFile.content, hk]
    have hnot : ¬ UploadsInChunks v p := fun h' => by
      rw [UploadsInChunks, hk] at h'
      exact FileType.noConfusion h'.1
    have hstored : storedBySync v p = p.content := if_neg hnot
    unfold journalSync
    rw [hup]
    split
    · next h0 =>
      have hne : sqliteObjsFileSize p ≠ 0 := by omega
      rw [wp_bind, wp_bind]
      refine wp_mono ?_ (wp_azBlockBlobUpload hok h.unleased)
      rintro x w' ⟨hx, hu, hst⟩
      have hinv : BufferInv p w' := { h with
        unleased := hu
        emptyWal := fun h' => by rw [hk] at h'; exact FileType.noConfusion h' }
      rw [if_neg (not_not.mpr hx)]
      refine wp_alone_ret.mpr (wp_alone_ret.mpr ⟨rfl, hinv, fun h' => absurd h' hne,
        fun _ _ => ?_, fun _ h' => absurd h' hnot, fun _ _ => rfl⟩)
      rw [hstored, hc]
      exact hst hx
    · next h0 =>
      have hz : sqliteObjsFileSize p = 0 := by
        rw [hsize]
        by_contra h'
        exact h0 ⟨Nat.pos_of_ne_zero h', rfl⟩
      exact wp_alone_ret.mpr ⟨rfl, h, fun _ => ⟨rfl, rfl⟩, fun h' => absurd hz h',
        fun _ h' => absurd h' hnot, fun _ _ => rfl⟩
  · next hk => exact absurd hk h.kind

theorem BufferInv.reach {v₀ : VfsData} {p₀ : ObjsFile} {s : VfsData × ObjsFile} {w₀ w : World}
    (h : BufferInv p₀ w₀) (hr : bufferSession.Reach (v₀, p₀) w₀ s w) : BufferInv s.2 w := by
  refine Session.inv_of_reach (fun s w => BufferInv s.2 w) h ?_ (fun _ _ _ _ h => False.elim h) hr
  rintro (⟨buf, iOfst⟩ | size | _) ⟨v, p⟩ w h -
  · exact wp_bind.mpr (wp_mono (fun _ _ h => wp_alone_ret.mpr fun _ => h) (h.write buf iOfst))
  · exact wp_bind.mpr (wp_mono (fun _ _ h => wp_alone_ret.mpr fun _ => h) (h.truncate size))
  · refine wp_bind.mpr (wp_mono ?_ (wp_sqliteObjsSync_buffer (v := v) (fun c hc => hc) h))
    rintro ⟨v', p', rc⟩ w' h'
    refine wp_alone_ret.mpr fun _ => ?_
    have hfile : p' = p := h'.file
    exact hfile ▸ h'.inv

end Inv

/-! ## Opening -/

section Open

variable {ok : Choice → Prop} {w : World} {v : VfsData} {name : String} {uri : UriParams}
  {ft : FileType} {ops : AzureOps} {ctx : Nat}

/-- What opening a journal or WAL gives: the invariant, and the blob's content where
the journal cache has not decided that there is none. -/
structure OpenPost (ok : Choice → Prop) (v : VfsData) (p₀ : ObjsFile) (w : World)
    (r : Except Rc ObjsFile) (w' : World) : Prop where
  world : w' = w
  inv : ∀ p, r = .ok p → p.blob = p₀.blob ∧ p.eFileType = p₀.eFileType ∧ BufferInv p w
  loads : v.journalCache = [] → ∀ p, r = .ok p → p.content = w.azure.contentOf p₀.blob
  succeeds : Allocates (.alone (World.served ok)) →
    (w.azure.contentOf p₀.blob).size ≤ 2 ^ 62 → ∃ p, r = .ok p

/-- Loading a buffer from a body. -/
theorem wp_loadBuffer {α : Type} {body : Bytes} {f : Bytes × Rc → Prog α} {Q : α → World → Prop}
    (hfail : ¬ (Allocates (.alone (World.served ok)) ∧ body.size ≤ 2 ^ 62) →
      wp (.alone (World.served ok)) (f (.empty, .nomem)) Q w)
    (hload : ∀ buf : Bytes, Buffered buf body.size → (∀ i, buf.get i = 0) →
      wp (.alone (World.served ok)) (f (buf, .ok)) Q w) :
    wp (.alone (World.served ok)) (bufferEnsure .empty body.size >>= f) Q w := by
  by_cases hgood : Allocates (.alone (World.served ok)) ∧ body.size ≤ 2 ^ 62
  · obtain ⟨ha, hb⟩ := hgood
    unfold bufferEnsure
    split
    · next h0 =>
      exact hload .empty ⟨h0, Or.inl rfl, by simp⟩ fun _ => SparseFile.empty_get _
    next h0 =>
    simp only [SparseFile.empty_size, if_true]
    rw [if_neg (Nat.not_le.mpr (doubleUntil_initial_lt hb 64)), wp_bind]
    refine wp_quiet_bind quiet_alone rfl fun x hx => ?_
    rw [ha.ok hx]
    simp only [Bool.not_true, Bool.false_eq_true, if_false]
    refine wp_alone_ret.mpr (hload _ ⟨?_, Or.inr ?_, ?_⟩ fun i => ?_)
    · rcases doubleUntil_reaches body.size 64 initialAlloc with h | h
      · exact h
      · have := doubleUntil_initial_lt hb 64
        simp only [initialAlloc] at h this
        omega
    · exact doubleUntil_isPowerOfTwo _ _ initialAlloc_isPowerOfTwo
    · exact doubleUntil_initial_lt hb 64
    · rw [SparseFile.truncate_get]
      simp
  · refine wp_bufferEnsure_bind quiet_alone buffered_empty (hfail hgood) ?_
    intro buf hb _ hget
    exact hload buf hb fun i => by rw [hget, SparseFile.empty_get]

/-- A body stored in a zeroed buffer is the buffer's content. -/
theorem truncate_pwrite_body (buf body : Bytes) :
    (buf.pwrite 0 body).truncate body.size = body := by
  refine SparseFile.ext rfl fun i => ?_
  rw [SparseFile.truncate_get, SparseFile.pwrite_get]
  split
  · rw [if_pos (by omega), Nat.sub_zero]
  · exact (body.get_past i (by omega)).symm

theorem buffered_pwrite {buf body : Bytes} (hb : Buffered buf body.size) :
    Buffered (buf.pwrite 0 body) body.size :=
  hb.of_size (SparseFile.pwrite_size_of_le _ _ (by simpa using hb.le)) hb.le

/-- A file just created in memory. -/
theorem bufferInv_new (hc : ops.Complete) (hn : name ≠ "") (hft : ft ≠ .mainDb)
    (hu : w.azure.Unleased ⟨ctx, name⟩)
    (hw : ft = .wal → w.azure.NoContent ⟨ctx, name⟩) :
    BufferInv (newFile ops ctx name uri ft) w where
  complete := hc
  kind := hft
  name := hn
  jrnl := buffered_empty
  wal := buffered_empty
  unleased := hu
  emptyWal h _ := hw h

theorem content_new (hft : ft ≠ .mainDb) : (newFile ops ctx name uri ft).content = .empty := by
  unfold ObjsFile.content newFile
  cases ft with
  | mainDb => exact absurd rfl hft
  | mainJournal => exact SparseFile.truncate_self _
  | wal => exact SparseFile.truncate_self _

theorem noContent_of_none {a : Azure} {i : BlobId} (h : a.blobs i = none) : a.NoContent i :=
  fun b hb => by simp [h] at hb

theorem contentOf_of_none {a : Azure} {i : BlobId} (h : a.blobs i = none) :
    a.contentOf i = .empty := by simp only [Azure.contentOf, h]

theorem contentOf_of_some {a : Azure} {i : BlobId} {b : Blob} (h : a.blobs i = some b) :
    a.contentOf i = b.content := by simp only [Azure.contentOf, h]

/-- `xOpen` of a WAL. -/
theorem wp_openWal (hok : ∀ c, ok c → c.fault = none) (hc : ops.Complete) (hn : name ≠ "")
    (hu : w.azure.Unleased ⟨ctx, name⟩) :
    wp (.alone (World.served ok)) (openWal (newFile ops ctx name uri .wal))
      (OpenPost ok v (newFile ops ctx name uri .wal) w) w := by
  generalize hp : newFile ops ctx name uri .wal = p₀
  have hblob : p₀.blob = ⟨ctx, name⟩ := by rw [← hp]; rfl
  have hops : p₀.ops = ops := by rw [← hp]; rfl
  have hnew : w.azure.NoContent ⟨ctx, name⟩ → BufferInv p₀ w := by
    rw [← hp]
    exact fun h => bufferInv_new hc hn (by decide) hu fun _ => h
  have hcont : p₀.content = .empty := by rw [← hp]; exact content_new (by decide)
  have hbuf : p₀.aWalData = .empty := by rw [← hp]; rfl
  have hkind : p₀.eFileType = .wal := by rw [← hp]; rfl
  unfold openWal checkExists
  have h₁ : p₀.ops.blockBlobUpload = true := by rw [hops, hc]; rfl
  have h₂ : p₀.ops.blockBlobDownload = true := by rw [hops, hc]; rfl
  have h₃ : p₀.ops.blobExists = true := by rw [hops, hc]; rfl
  simp only [h₁, h₂, h₃, Bool.not_true, Bool.or_self, Bool.false_eq_true, if_false, if_true]
  refine wp_azBlobExists_bind hok ?_
  simp only [ne_eq, not_true_eq_false, false_and, if_false]
  cases hb : w.azure.blobs p₀.blob with
  | none =>
    have hno := noContent_of_none hb
    rw [hblob] at hno
    refine wp_alone_ret.mpr ⟨rfl, ?_, ?_, fun _ _ => ⟨_, rfl⟩⟩
    · rintro p ⟨⟩
      exact ⟨rfl, rfl, hnew hno⟩
    · rintro - p ⟨⟩
      rw [hcont, contentOf_of_none hb]
  | some b =>
    simp only [Option.isSome_some, Bool.not_true, Bool.false_eq_true, if_false]
    refine wp_azBlockBlobDownload_bind hok hb fun e => ?_
    simp only [not_true_eq_false, if_false]
    split
    · next h0 =>
      have hno : w.azure.NoContent ⟨ctx, name⟩ := by
        intro b' hb'
        rw [← hblob, hb, Option.some.injEq] at hb'
        exact hb' ▸ h0
      refine wp_alone_ret.mpr ⟨rfl, ?_, ?_, fun _ _ => ⟨_, rfl⟩⟩
      · rintro p ⟨⟩
        exact ⟨rfl, rfl, hnew hno⟩
      · rintro - p ⟨⟩
        rw [hcont, contentOf_of_some hb, SparseFile.eq_empty h0]
    next h0 =>
    rw [hbuf]
    refine wp_loadBuffer ?_ ?_
    · intro hbad
      refine wp_alone_ret.mpr ⟨rfl, by simp, by simp, fun ha hs => ?_⟩
      rw [contentOf_of_some hb] at hs
      exact absurd ⟨ha, hs⟩ hbad
    · intro buf hbuf' _
      refine wp_alone_ret.mpr ⟨rfl, ?_, ?_, fun _ _ => ⟨_, rfl⟩⟩
      · rintro p ⟨⟩
        refine ⟨rfl, rfl, ?_⟩
        rw [← hp]
        exact {
          complete := hc, kind := (show FileType.wal ≠ .mainDb by decide), name := hn,
          jrnl := buffered_empty
          wal := buffered_pwrite hbuf', unleased := hu
          emptyWal := fun _ h => absurd h h0 }
      · rintro - p ⟨⟩
        rw [contentOf_of_some hb]
        simp only [ObjsFile.content, hkind]
        exact truncate_pwrite_body buf _

/-- The existence check of a journal, where the cache has not decided it. -/
theorem wp_journalExists_bind {α : Type} {p : ObjsFile} (hok : ∀ c, ok c → c.fault = none)
    (hex : p.ops.blobExists = true) {f : VfsData × Bool → Prog α} {Q : α → World → Prop}
    (habsent : v.journalCache ≠ [] → ∀ v', wp (.alone (World.served ok)) (f (v', false)) Q w)
    (hask : ∀ v', wp (.alone (World.served ok)) (f (v', (w.azure.blobs p.blob).isSome)) Q w) :
    wp (.alone (World.served ok)) (journalExists v p >>= f) Q w := by
  rw [wp_bind]
  unfold journalExists
  dsimp only
  rw [if_pos hex]
  split
  · next hst =>
    refine wp_alone_ret.mpr (habsent (fun hnil => ?_) _)
    rw [journalCacheState_getOrCreate] at hst
    simp [journalCacheState, journalCacheFind, hnil] at hst
  · exact wp_azBlobExists_bind hok (wp_alone_ret.mpr (hask _))

/-- `xOpen` of a rollback journal. -/
theorem wp_openJournal (hok : ∀ c, ok c → c.fault = none) (hc : ops.Complete) (hn : name ≠ "")
    (hu : w.azure.Unleased ⟨ctx, name⟩) :
    wp (.alone (World.served ok)) (openJournal v (newFile ops ctx name uri .mainJournal))
      (fun r w' => OpenPost ok v (newFile ops ctx name uri .mainJournal) w r.2 w') w := by
  generalize hp : newFile ops ctx name uri .mainJournal = p₀
  have hops : p₀.ops = ops := by rw [← hp]; rfl
  have hnew : BufferInv p₀ w := by
    rw [← hp]
    exact bufferInv_new hc hn (by decide) hu fun h => FileType.noConfusion h
  have hcont : p₀.content = .empty := by rw [← hp]; exact content_new (by decide)
  have hbuf : p₀.aJrnlData = .empty := by rw [← hp]; rfl
  have hkind : p₀.eFileType = .mainJournal := by rw [← hp]; rfl
  have hdown : p₀.ops.blockBlobDownload = true := by rw [hops, hc]; rfl
  -- the journal opened empty
  have hempty : ∀ v' : VfsData, (v.journalCache = [] → w.azure.contentOf p₀.blob = .empty) →
      wp (.alone (World.served ok)) (.ret (v', (.ok p₀ : Except Rc ObjsFile)))
        (fun r w' => OpenPost ok v p₀ w r.2 w') w := by
    intro v' h
    refine wp_alone_ret.mpr ⟨rfl, ?_, ?_, fun _ _ => ⟨_, rfl⟩⟩
    · rintro p ⟨⟩
      exact ⟨rfl, rfl, hnew⟩
    · rintro hnil p ⟨⟩
      rw [hcont, h hnil]
  unfold openJournal
  refine wp_journalExists_bind hok (by rw [hops, hc]; rfl) ?_ ?_
  · intro hne v'
    exact hempty v' fun h => absurd h hne
  intro v'
  cases hb : w.azure.blobs p₀.blob with
  | none => exact hempty v' fun _ => contentOf_of_none hb
  | some b =>
    simp only [Option.isSome_some, hdown, Bool.and_self, if_true]
    refine wp_azBlockBlobDownload_bind hok hb fun e => ?_
    simp only [true_and]
    split
    · next h0 =>
      rw [hbuf]
      refine wp_loadBuffer ?_ ?_
      · intro hbad
        refine wp_alone_ret.mpr ⟨rfl, by simp, by simp, fun ha hs => ?_⟩
        rw [contentOf_of_some hb] at hs
        exact absurd ⟨ha, hs⟩ hbad
      · intro buf hbuf' _
        refine wp_alone_ret.mpr ⟨rfl, ?_, ?_, fun _ _ => ⟨_, rfl⟩⟩
        · rintro p ⟨⟩
          exact ⟨rfl, rfl, { hnew with jrnl := buffered_pwrite hbuf' }⟩
        · rintro - p ⟨⟩
          rw [contentOf_of_some hb]
          simp only [ObjsFile.content, hkind]
          exact truncate_pwrite_body buf _
    · next h0 =>
      refine hempty v' fun _ => ?_
      rw [contentOf_of_some hb]
      exact SparseFile.eq_empty (by omega)

/-- `xOpen` of a journal or WAL with the client it selects. -/
theorem wp_sqliteObjsOpen_buffer (hok : ∀ c, ok c → c.fault = none) (hft : ft ≠ .mainDb)
    (hsel : selectedOps v uri = some (ops, ctx)) (hc : ops.Complete) (hn : name ≠ "")
    (hu : w.azure.Unleased ⟨ctx, name⟩) (create : Bool) :
    wp (.alone (World.served ok)) (sqliteObjsOpen v name uri ft create)
      (fun r w' => OpenPost ok v (newFile ops ctx name uri ft) w r.2 w') w := by
  have hfail : ∀ {rc : Rc}, ¬ Allocates (.alone (World.served ok)) →
      OpenPost ok v (newFile ops ctx name uri ft) w (.error rc) w :=
    fun hna => ⟨rfl, by simp, by simp, fun ha => absurd ha hna⟩
  unfold sqliteObjsOpen
  rw [if_neg hn]
  refine wp_quiet_bind quiet_alone rfl fun m hm => ?_
  split
  · next h =>
    refine wp_alone_ret.mpr (hfail fun ha => ?_)
    rw [ha.ok hm] at h
    exact Bool.noConfusion h
  refine wp_selectOps_bind quiet_alone ?_ ?_
  · intro hno
    refine wp_alone_ret.mpr (hfail fun ha => ?_)
    rw [hno ha] at hsel
    cases hsel
  · intro ops' ctx' hsel'
    rw [hsel, Option.some.injEq, Prod.mk.injEq] at hsel'
    obtain ⟨rfl, rfl⟩ := hsel'
    -- the client was selected
    cases ft with
    | mainDb => exact absurd rfl hft
    | mainJournal => exact wp_openJournal hok hc hn hu
    | wal =>
      dsimp only
      rw [wp_bind]
      exact wp_mono (fun _ _ h => wp_alone_ret.mpr h) (wp_openWal hok hc hn hu)

end Open

/-! ## The programs can run -/

theorem noRelock_bufferEnsure (buf : Bytes) (n : Nat) : NoRelock (bufferEnsure buf n) := by
  unfold bufferEnsure
  split
  · trivial
  dsimp only
  generalize doubleUntil n 64 _ = alloc
  split
  · trivial
  refine (noRelock_sys (by simp)).bind fun _ => ?_
  split <;> trivial

theorem noRelock_blockSend (i : BlobId) (d : Bytes) (cs : Nat) :
    ∀ order, NoRelock (blockSend i d cs order)
  | [] => trivial
  | k :: order => by
    unfold blockSend
    exact (noRelock_azure _).bind fun _ => (noRelock_blockSend i d cs order).bind fun _ => trivial

theorem noRelock_uploadChunks (i : BlobId) (d : Bytes) (cs n : Nat) :
    NoRelock (uploadChunks i d cs n) := by
  unfold uploadChunks
  refine (noRelock_transferSetup n).bind fun e => ?_
  split
  · trivial
  refine Uses.bind (noRelock_transfer (fun order s => ?_) _ _ _) fun res => ?_
  · exact (noRelock_blockSend i d cs order).bind fun _ => uses_ret
  rcases res with ⟨e', s⟩
  dsimp only
  split
  · trivial
  refine (noRelock_sys (by simp)).bind fun _ => ?_
  split
  · trivial
  · exact noRelock_execute _

theorem noRelock_uploadWal (v : VfsData) (p : ObjsFile) : NoRelock (uploadWal v p) := by
  have hpar : ∀ cs, NoRelock
      (azBlockBlobUploadParallel p.blob (p.aWalData.truncate p.nWalData) cs) := by
    intro cs
    unfold azBlockBlobUploadParallel
    generalize cInt _ = nChunks
    dsimp only
    refine Uses.ite ?_ (Uses.ite ?_ ?_)
    · exact noRelock_execute _
    · exact noRelock_execute _
    · exact noRelock_uploadChunks _ _ _ _
  unfold uploadWal
  refine Uses.ite (hpar _) ?_
  exact noRelock_execute _

theorem noRelock_sync_buffer {p : ObjsFile} (hk : p.eFileType ≠ .mainDb) (v : VfsData) :
    NoRelock (sqliteObjsSync v p) := by
  unfold sqliteObjsSync
  split
  · refine Uses.bind ?_ fun _ => trivial
    unfold walSync
    split
    · trivial
    split
    · trivial
    refine (noRelock_uploadWal v p).bind fun _ => ?_
    split <;> trivial
  · refine Uses.bind ?_ fun _ => trivial
    unfold journalSync
    split
    · refine (noRelock_execute _).bind fun _ => ?_
      split <;> trivial
    · trivial
  · next h => exact absurd h hk

theorem noRelock_open_buffer {ft : FileType} (hk : ft ≠ .mainDb) (v : VfsData) (name : String)
    (uri : UriParams) (create : Bool) : NoRelock (sqliteObjsOpen v name uri ft create) := by
  unfold sqliteObjsOpen
  split
  · trivial
  refine (noRelock_sys (by simp)).bind fun _ => ?_
  split
  · trivial
  refine Uses.bind ?_ fun sel => ?_
  · unfold selectOps
    split
    · exact (noRelock_sys (by simp)).bind fun _ => trivial
    · trivial
  rcases sel with _ | ⟨ops, ctx⟩
  · trivial
  cases ft with
  | mainDb => exact absurd rfl hk
  | mainJournal =>
    dsimp only
    unfold openJournal
    refine Uses.bind ?_ fun r => ?_
    · unfold journalExists
      dsimp only
      split
      · trivial
      split
      · exact (noRelock_azBlobExists _).bind fun _ => trivial
      · trivial
    rcases r with ⟨v', ex⟩
    dsimp only
    split
    · refine (noRelock_execute _).bind fun _ => ?_
      split
      · refine (noRelock_bufferEnsure _ _).bind fun r => ?_
        rcases r with ⟨data, rc⟩
        dsimp only
        split <;> trivial
      · trivial
    · trivial
  | wal =>
    dsimp only
    refine Uses.bind ?_ fun _ => trivial
    unfold openWal
    split
    · trivial
    refine Uses.bind ?_ fun r => ?_
    · unfold checkExists
      split
      · exact noRelock_azBlobExists _
      · trivial
    rcases r with ⟨arc, ex⟩
    dsimp only
    split
    · trivial
    split
    · trivial
    refine (noRelock_execute _).bind fun _ => ?_
    split
    · trivial
    split
    · trivial
    refine (noRelock_bufferEnsure _ _).bind fun r => ?_
    rcases r with ⟨data, rc⟩
    dsimp only
    split <;> trivial

/-! ## Durability -/

/-- A process that has no journal cache yet and works on the same storage. -/
def FreshProcess (p : ObjsFile) (v : VfsData) (uri : UriParams) : Prop :=
  v.journalCache = [] ∧ ∃ ops : AzureOps, ops.Complete ∧ selectedOps v uri = some (ops, p.opsCtx)

/-- Every fresh process that opens the file's name now loads the file's content. -/
def LoadsContent (p : ObjsFile) (w : World) : Prop :=
  ∀ v uri create, FreshProcess p v uri → ∀ v' r w',
    Runs (World.served Sound) (sqliteObjsOpen v p.zBlobName uri p.eFileType create) w (v', r) w' →
      ∃ p', r = .ok p' ∧ p'.content = p.content

/-- The narrowing of the chunk count to `int` drops chunks of an upload that is
accepted. -/
def ChunksLost (v : VfsData) (p : ObjsFile) : Prop :=
  UploadsInChunks v p ∧ blockUploadMinParallelSize ≤ p.nWalData ∧
  1 < chunkCount p.nWalData (walChunk v) ∧
  chunkCount p.nWalData (walChunk v) ≠ ((p.nWalData + walChunk v - 1) / walChunk v : Nat) ∧
  (chunkCount p.nWalData (walChunk v)).toNat ≤ Azure.maxBlockList

/-- When `xSync` makes the content durable: a journal has something to upload or
nothing to replace, a WAL is not cut by its chunk count. -/
def SyncCondition (v : VfsData) (p : ObjsFile) (w : World) : Prop :=
  match p.eFileType with
  | .mainJournal => 0 < p.nJrnlData ∨ w.azure.NoContent p.blob
  | .wal => ¬ ChunksLost v p
  | .mainDb => True

section Durable

variable {v : VfsData} {p : ObjsFile} {w : World}

theorem BufferInv.content_size (h : BufferInv p w) : p.content.size ≤ 2 ^ 62 := by
  have h₁ := h.jrnl.size_le
  have h₂ := h.wal.size_le
  have h₃ := h.jrnl.le
  have h₄ := h.wal.le
  unfold ObjsFile.content
  split
  · rw [SparseFile.truncate_size]
    omega
  · rw [SparseFile.truncate_size]
    omega
  · simp

theorem BufferInv.size_content (h : BufferInv p w) : p.content.size = sqliteObjsFileSize p := by
  cases hk : p.eFileType with
  | mainDb => exact absurd hk h.kind
  | mainJournal => simp only [ObjsFile.content, sqliteObjsFileSize, hk, SparseFile.truncate_size]
  | wal => simp only [ObjsFile.content, sqliteObjsFileSize, hk, SparseFile.truncate_size]

/-- A fresh process loads what the blob holds. -/
theorem loadsContent_iff (h : BufferInv p w) :
    LoadsContent p w ↔ w.azure.contentOf p.blob = p.content := by
  have hspec : ∀ v uri create, FreshProcess p v uri → ∀ v' r w',
      Runs (World.served Sound) (sqliteObjsOpen v p.zBlobName uri p.eFileType create) w (v', r) w' →
      (∀ p', r = .ok p' → p'.content = w.azure.contentOf p.blob) ∧
      ((w.azure.contentOf p.blob).size ≤ 2 ^ 62 → ∃ p', r = .ok p') := by
    rintro v uri create ⟨hnil, ops, hc, hsel⟩ v' r w' hr
    have hpost := wp_alone_iff.mp (wp_sqliteObjsOpen_buffer (fun c hc => hc.1) h.kind hsel hc h.name
      h.unleased create) _ _ hr
    exact ⟨hpost.loads hnil, hpost.succeeds (allocates_alone fun c hc => hc.2)⟩
  constructor
  · intro hl
    have hfresh : FreshProcess p (.new 0) { client := some p.opsCtx } :=
      ⟨rfl, azureProductionOps, complete_production, rfl⟩
    obtain ⟨⟨v', r⟩, w', hr⟩ := (noRelock_open_buffer h.kind (.new 0) p.zBlobName
      { client := some p.opsCtx } false).exists_runs w
    obtain ⟨p', rfl, hp'⟩ := hl _ _ _ hfresh _ _ _ hr
    rw [← (hspec _ _ _ hfresh _ _ _ hr).1 p' rfl, hp']
  · intro heq v uri create hfresh v' r w' hr
    obtain ⟨h₁, h₂⟩ := hspec v uri create hfresh v' r w' hr
    obtain ⟨p', rfl⟩ := h₂ (by rw [heq]; exact h.content_size)
    exact ⟨p', rfl, by rw [h₁ p' rfl, heq]⟩

theorem contentOf_of_holds {a : Azure} {i : BlobId} {d : Bytes} (h : a.Holds i d) :
    a.contentOf i = d := by
  obtain ⟨b, hb, hd⟩ := h
  rw [contentOf_of_some hb, hd]

theorem contentOf_eq_empty_iff {a : Azure} {i : BlobId} :
    a.contentOf i = .empty ↔ a.NoContent i := by
  cases hb : a.blobs i with
  | none => exact ⟨fun _ => noContent_of_none hb, fun _ => contentOf_of_none hb⟩
  | some b =>
    rw [contentOf_of_some hb]
    constructor
    · intro h b' hb'
      rw [hb, Option.some.injEq] at hb'
      rw [← hb', h]
      rfl
    · exact fun h => SparseFile.eq_empty (h b hb)

/-- A slice that covers a content is the content. -/
theorem slice_of_le {d : Bytes} {n : Nat} (h : d.size ≤ n) : d.slice 0 n = d := by
  refine SparseFile.ext (by simp; omega) fun i => ?_
  rw [SparseFile.slice_get, Nat.zero_add]
  split
  · rfl
  · exact (d.get_past i (by omega)).symm

theorem walChunk_pos (v : VfsData) : 0 < walChunk v := by
  unfold walChunk
  split
  · assumption
  · decide

/-- The chunks an upload is cut into cover it. -/
theorem storedInChunks_eq_iff {d : Bytes} {cs : Nat} (hcs : 0 < cs) :
    storedInChunks d cs = d ↔ d.size < blockUploadMinParallelSize ∨ chunkCount d.size cs ≤ 1 ∨
      chunkCount d.size cs = ((d.size + cs - 1) / cs : Nat) := by
  unfold storedInChunks
  split
  · next h => exact ⟨fun _ => h.imp_right Or.inl, fun _ => rfl⟩
  next h =>
  have hpos : 1 < chunkCount d.size cs := by omega
  constructor
  · intro heq
    refine Or.inr (Or.inr ?_)
    have hle : d.size ≤ (chunkCount d.size cs).toNat * cs := by
      have hs := congrArg SparseFile.size heq
      simp only [SparseFile.slice_size] at hs
      omega
    -- a count that was narrowed is smaller than the quotient
    unfold chunkCount at hpos hle ⊢
    generalize hq : (d.size + cs - 1) / cs = q at *
    have hup : q ≤ (cInt q).toNat := by
      have : (d.size + cs - 1) / cs ≤ (cInt q).toNat := by
        rw [Nat.div_le_iff_le_mul_add_pred hcs, Nat.mul_comm]
        omega
      rwa [hq] at this
    have hle' : cInt q ≤ q := by
      unfold cInt at hpos ⊢
      have h₁ := Int.bmod_le (x := (q : Int)) (m := 2 ^ 32) (by decide)
      rcases Nat.lt_or_ge q (2 ^ 31) with h₂ | h₂
      · have := cInt_of_lt h₂
        unfold cInt at this
        omega
      · omega
    omega
  · rintro (h' | h' | h')
    · exact absurd (Or.inl h') h
    · exact absurd (Or.inr h') h
    · refine slice_of_le ?_
      rw [h', Int.toNat_natCast]
      have := Nat.div_add_mod (d.size + cs - 1) cs
      have := Nat.mod_lt (d.size + cs - 1) hcs
      rw [Nat.mul_comm]
      omega

/-- An upload of `xSync` is the whole content unless chunks are lost. -/
theorem storedBySync_eq_iff (h : BufferInv p w)
    (hfits : UploadsInChunks v p → p.nWalData < blockUploadMinParallelSize ∨
      (chunkCount p.nWalData (walChunk v)).toNat ≤ Azure.maxBlockList) :
    storedBySync v p = p.content ↔ ¬ ChunksLost v p := by
  by_cases hch : UploadsInChunks v p
  · have hsize : p.content.size = p.nWalData := by
      rw [h.size_content]
      simp only [sqliteObjsFileSize, hch.1]
    rw [storedBySync, if_pos hch, storedInChunks_eq_iff (walChunk_pos v), hsize]
    constructor
    · rintro (h' | h' | h') hl
      · exact Nat.lt_irrefl _ (Nat.lt_of_lt_of_le h' hl.2.1)
      · exact absurd hl.2.2.1 (by omega)
      · exact hl.2.2.2.1 h'
    · intro hl
      by_contra hne
      simp only [not_or, Nat.not_lt, not_le] at hne
      exact hl ⟨hch, hne.1, hne.2.1, hne.2.2,
        (hfits hch).resolve_left (Nat.not_lt.mpr hne.1)⟩
  · rw [storedBySync, if_neg hch]
    exact ⟨fun _ hl => hch hl.1, fun _ => rfl⟩

/-- After a successful `xSync` a fresh process loads the content, if and only if the
condition held before. -/
theorem BufferInv.sync_durable_iff (h : BufferInv p w) :
    (∀ v' p' w', Runs (World.served Healthy) (sqliteObjsSync v p) w (v', p', .ok) w' →
      LoadsContent p' w') ↔ SyncCondition v p w := by
  have hspec : ∀ {v' : VfsData} {p' : ObjsFile} {rc : Rc} {w' : World},
      Runs (World.served Healthy) (sqliteObjsSync v p) w (v', p', rc) w' →
        SyncPost Healthy v p w p' rc w' :=
    fun hr => wp_alone_iff.mp (wp_sqliteObjsSync_buffer (fun c hc => hc) h) _ _ hr
  -- a file without content loads exactly when the blob has none
  have hzero : sqliteObjsFileSize p = 0 → (LoadsContent p w ↔ w.azure.NoContent p.blob) := by
    intro h0
    have hc : p.content = .empty := SparseFile.eq_empty (by rw [h.size_content, h0])
    rw [loadsContent_iff h, hc, contentOf_eq_empty_iff]
  constructor
  · intro hall
    -- some run without faults ends in success whenever the length is accepted
    obtain ⟨⟨v', p', rc⟩, w', hr⟩ := (noRelock_sync_buffer h.kind v).exists_runs w
    have hr' : Runs (World.served Healthy) (sqliteObjsSync v p) w (v', p', rc) w' := by
      refine hr.mono ?_
      rintro r w x w₁ ⟨c, hc, hs⟩
      exact ⟨c, hc.healthy, hs⟩
    have hpost := hspec hr'
    have hok : AcceptedLength v p → rc = .ok := by
      intro ha
      have hsound : SyncPost Sound v p w p' rc w' :=
        wp_alone_iff.mp (wp_sqliteObjsSync_buffer (fun c hc => hc.1) h) _ _ hr
      exact hsound.accepted (allocates_alone fun c hc => hc.2) ha
    have hfile := hpost.file
    subst hfile
    unfold SyncCondition
    split
    · next hk =>
      rcases Nat.eq_zero_or_pos p'.nJrnlData with h0 | h0
      · refine Or.inr ?_
        have hz : sqliteObjsFileSize p' = 0 := by simp only [sqliteObjsFileSize, hk, h0]
        obtain ⟨hrc, hw⟩ := hpost.empty hz
        subst hrc hw
        exact (hzero hz).mp (hall _ _ _ hr')
      · exact Or.inl h0
    · next hk =>
      intro hl
      have hrc := hok fun _ => hl.2.2.2.2
      subst hrc
      have hne : sqliteObjsFileSize p' ≠ 0 := by
        have hmin : 0 < blockUploadMinParallelSize := by decide
        have := hl.2.1
        simp only [sqliteObjsFileSize, hk]
        omega
      have hload := (loadsContent_iff hpost.inv).mp (hall _ _ _ hr')
      rw [contentOf_of_holds (hpost.stored hne rfl)] at hload
      exact (storedBySync_eq_iff h fun _ => Or.inr hl.2.2.2.2).mp hload hl
    · trivial
  · intro hcond v' p' w' hr
    have hpost := hspec hr
    have hfile := hpost.file
    subst hfile
    by_cases h0 : sqliteObjsFileSize p' = 0
    · obtain ⟨-, hw⟩ := hpost.empty h0
      subst hw
      refine (hzero h0).mpr ?_
      unfold SyncCondition at hcond
      unfold sqliteObjsFileSize at h0
      split at hcond
      · next hk =>
        simp only [hk] at h0
        exact hcond.resolve_left (by omega)
      · next hk =>
        simp only [hk] at h0
        exact h.emptyWal hk h0
      · next hk => exact absurd hk h.kind
    · rw [loadsContent_iff hpost.inv, contentOf_of_holds (hpost.stored h0 rfl),
        storedBySync_eq_iff h (hpost.fits rfl)]
      unfold SyncCondition at hcond
      split at hcond
      · next hk =>
        intro hl
        have := hl.1.1
        rw [hk] at this
        exact FileType.noConfusion this
      · exact hcond
      · next hk => exact absurd hk h.kind

end Durable

section Main

variable {v₀ v₁ v : VfsData} {p₁ p : ObjsFile} {w₀ w₁ w : World} {name : String} {uri : UriParams}
  {ft : FileType} {create : Bool} {ops : AzureOps} {ctx : Nat}

/-- `xSync` of a journal or WAL is durable exactly when the state before it meets
`SyncCondition`, whatever sequence of calls led there. -/
theorem synced_buffer_loads_iff (hft : ft ≠ .mainDb)
    (hsel : selectedOps v₀ uri = some (ops, ctx)) (hc : ops.Complete) (hn : name ≠ "")
    (hu : w₀.azure.Unleased ⟨ctx, name⟩)
    (hopen : Runs (World.served Healthy) (sqliteObjsOpen v₀ name uri ft create) w₀
      (v₁, .ok p₁) w₁)
    (hreach : bufferSession.Reach (v₁, p₁) w₁ (v, p) w) :
    (∀ v' p' w', Runs (World.served Healthy) (sqliteObjsSync v p) w (v', p', .ok) w' →
      LoadsContent p' w') ↔ SyncCondition v p w := by
  have hpost := wp_alone_iff.mp
    (wp_sqliteObjsOpen_buffer (fun c hc => hc) hft hsel hc hn hu create) _ _ hopen
  obtain ⟨-, -, hinv⟩ := hpost.inv p₁ rfl
  have hw : w₁ = w₀ := hpost.world
  subst hw
  exact BufferInv.sync_durable_iff (hinv.reach hreach)

/-- A journal just opened, and written once. -/
theorem synced_buffer_loads_written : ∃ v₁ p₁ w₁ v p w,
    Runs (World.served Healthy) (sqliteObjsOpen (.new 0) "db-journal" {} .mainJournal true) .new
      (v₁, .ok p₁) w₁ ∧
    bufferSession.Reach (v₁, p₁) w₁ (v, p) w ∧
    ∀ v' p' w', Runs (World.served Healthy) (sqliteObjsSync v p) w (v', p', .ok) w' →
      LoadsContent p' w' := by
  obtain ⟨v₁, p₁, w₁, v, p, w, hopen, hreach, hk, hpos⟩ : ∃ v₁ p₁ w₁ v p w,
      Runs (World.served Healthy) (sqliteObjsOpen (.new 0) "db-journal" {} .mainJournal true) .new
        (v₁, .ok p₁) w₁ ∧
      bufferSession.Reach (v₁, p₁) w₁ (v, p) w ∧ p.eFileType = .mainJournal ∧ 0 < p.nJrnlData :=
    ⟨_, _, _, _, _, _, World.runs_of_exec 3 rfl,
      .call (.write (SparseFile.empty.truncate 1) 0) .refl trivial (World.runs_of_exec 3 rfl)
        trivial,
      rfl, by decide⟩
  have hcond : SyncCondition v p w := by
    simp only [SyncCondition, hk]
    exact Or.inl hpos
  refine ⟨v₁, p₁, w₁, v, p, w, hopen, hreach, ?_⟩
  exact (synced_buffer_loads_iff (by decide) rfl complete_production (by decide)
    (fun b hb => by simp [World.new] at hb) hopen hreach).mpr hcond

/-- A journal is written, synced, truncated to nothing and synced again with
`SQLITE_OK`: the blob is still there and a fresh process does not load an empty file. -/
theorem truncated_journal_stays : ∃ v₁ p₁ w₁ v p w v' p' w',
    Runs (World.served Healthy) (sqliteObjsOpen (.new 0) "db-journal" {} .mainJournal true) .new
      (v₁, .ok p₁) w₁ ∧
    bufferSession.Reach (v₁, p₁) w₁ (v, p) w ∧
    Runs (World.served Healthy) (sqliteObjsSync v p) w (v', p', .ok) w' ∧
    p'.content = .empty ∧ (w'.azure.contentOf p'.blob).size = 1 ∧ ¬ LoadsContent p' w' := by
  obtain ⟨v₁, p₁, w₁, v, p, w, hopen, hreach, hz, hsize⟩ : ∃ v₁ p₁ w₁ v p w,
      Runs (World.served Healthy) (sqliteObjsOpen (.new 0) "db-journal" {} .mainJournal true) .new
        (v₁, .ok p₁) w₁ ∧
      bufferSession.Reach (v₁, p₁) w₁ (v, p) w ∧ sqliteObjsFileSize p = 0 ∧
      (w.azure.contentOf p.blob).size = 1 :=
    ⟨_, _, _, _, _, _, World.runs_of_exec 3 rfl,
      .call (.truncate 0)
        (.call .sync
          (.call (.write (SparseFile.empty.truncate 1) 0) .refl trivial (World.runs_of_exec 3 rfl)
            trivial)
          trivial (World.runs_of_exec 3 rfl) trivial)
        trivial (World.runs_of_exec 3 rfl) trivial,
      rfl, rfl⟩
  have hpost := wp_alone_iff.mp (wp_sqliteObjsOpen_buffer (fun c hc => hc) (by decide) rfl
    complete_production (by decide) (fun b hb => by simp [World.new] at hb) true) _ _ hopen
  have hw : w₁ = .new := hpost.world
  have hinv : BufferInv p w :=
    BufferInv.reach (hw ▸ (hpost.inv p₁ rfl).2.2) hreach
  obtain ⟨⟨v', p', rc⟩, w', hr⟩ := (noRelock_sync_buffer hinv.kind v).exists_runs_healthy w
  have hsync := wp_alone_iff.mp (wp_sqliteObjsSync_buffer (fun c hc => hc) hinv) _ _ hr
  obtain ⟨hrc, hw'⟩ := hsync.empty hz
  have hfile := hsync.file
  dsimp only at hrc hw' hfile
  subst hrc hw' hfile
  have hempty : p'.content = .empty := SparseFile.eq_empty (by rw [hinv.size_content, hz])
  refine ⟨v₁, p₁, w₁, v, p', w', v', p', w', hopen, hreach, hr, hempty, hsize, fun hl => ?_⟩
  rw [loadsContent_iff hinv, hempty] at hl
  rw [hl] at hsize
  exact absurd hsize (by decide)

end Main
end SqliteObjs
