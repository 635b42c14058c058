import SqliteObjs.Azure.BlockIds
import SqliteObjs.Azure.Effects
import SqliteObjs.Azure.PageRangesParse
import SqliteObjs.CS.Crash
import SqliteObjs.Journal.Durability

/-!
# Uploads in chunks under faults

A WAL may be uploaded in chunks: blocks that are put at the same time, in any order, and
a list that commits them. Any of the requests may fail, with or without having taken
effect, and blocks that failed are put again. An upload that is reported as a success
stored the whole content, unless the number of chunks was cut down to an `int`
(`upload_parallel_stores_iff`). One that is not, or that a crash cuts off, left the blob as
it was or stored the same content: blocks show only together (`sync_atomic`).

The list is a text in a buffer whose size is estimated. `block_list_names_chunks` is about
that text: all of it is written, inside the buffer, and it names the chunks in order, by
names that differ and are of one length.
-/

set_option autoImplicit false

namespace SqliteObjs

open Data CS CS.Program

/-! ## Storing under faults -/

namespace Azure

variable {a : Azure} {i : BlobId}

/-- A content that is stored is the blob's, and the blocks it was committed from are
all that a block list can name. -/
theorem putBlob_accepted {d : Bytes} {m : Nat → Option Bytes}
    (h : (a.putBlob i d m).1.err = .ok) :
    (a.putBlob i d m).2.Holds i d ∧ (a.putBlob i d m).2.latest i = m := by
  unfold putBlob at h ⊢
  cases hb : a.blobs i with
  | none =>
    refine ⟨⟨_, create_blobs_self a i d m, rfl⟩, ?_⟩
    funext id
    simp [latest, create, set, setBlocks]
  | some b =>
    simp only [hb] at h
    dsimp only
    split
    · refine ⟨⟨_, change_blobs_self a i b d m, rfl⟩, ?_⟩
      funext id
      simp [latest, change, set, setBlocks]
    · next hno =>
      rw [if_neg hno] at h
      cases h

/-- A block list that is accepted is not too long, its blocks are all there, and they
still are afterwards. -/
theorem putBlockList_accepted {ids : List Nat} (h : (a.respond (.putBlockList i ids)).1.err = .ok) :
    ids.length ≤ maxBlockList ∧ ∃ d, concatBlocks (a.latest i) ids = some d ∧
      (a.respond (.putBlockList i ids)).2.Holds i d ∧
      ∀ id ∈ ids, (a.respond (.putBlockList i ids)).2.latest i id = a.latest i id := by
  simp only [respond] at h ⊢
  by_cases hlong : maxBlockList < ids.length
  · rw [if_pos hlong] at h
    cases h
  rw [if_neg hlong] at h ⊢
  cases hd : concatBlocks (a.latest i) ids with
  | none =>
    rw [hd] at h
    cases h
  | some d =>
    rw [hd] at h
    obtain ⟨hholds, hlatest⟩ := putBlob_accepted h
    refine ⟨Nat.le_of_not_lt hlong, d, rfl, hholds, fun id hid => ?_⟩
    exact (congrFun hlatest id).trans (if_pos hid)

end Azure

/-- Any answers, with any faults. -/
abbrev anyServed : (r : Req) → World → Ans r → World → Prop := World.served fun _ => True

/-- The request was refused, or it was accepted; a success was. -/
theorem anyServed_cases {r : AzReq} {w w' : World} {x : AzReply} (h : anyServed (.azure r) w x w') :
    (x.err ≠ .ok ∧ w' = w) ∨ ((w.answer r).err = .ok ∧ w' = w.after r) := by
  obtain ⟨c, -, hs⟩ := h
  simp only [World.respond, Option.map_eq_some_iff, Prod.mk.injEq] at hs
  obtain ⟨⟨x', a'⟩, hs, rfl, rfl⟩ := hs
  rcases Azure.serve_cases hs with ⟨hno, ha⟩ | ⟨hok, ha, -, -⟩
  · refine Or.inl ⟨hno, ?_⟩
    dsimp only at ha ⊢
    rw [ha]
  · refine Or.inr ⟨hok, ?_⟩
    dsimp only at ha ⊢
    rw [ha]
    rfl

/-- The blob is what it was in `a₀`, or it has the content `d`. -/
def Azure.Replacing (a₀ : Azure) (i : BlobId) (d : Bytes) (a : Azure) : Prop :=
  a.blobs i = a₀.blobs i ∨ a.Holds i d

theorem Azure.Replacing.congr {a₀ a a' : Azure} {i : BlobId} {d : Bytes} (h : a₀.Replacing i d a)
    (hb : a'.blobs = a.blobs) : a₀.Replacing i d a' := by
  unfold Azure.Replacing Azure.Holds at h ⊢
  rw [hb]
  exact h

/-- Any answers, to a party whose requests leave the blob as it was in `a₀` or as `d`. -/
abbrev replacing (a₀ : Azure) (i : BlobId) (d : Bytes) : Setting World Ans :=
  .keeping anyServed fun w => a₀.Replacing i d w.azure

section Faults

variable {i : BlobId} {d d' : Bytes} {cs n : Nat} {w : World} {a₀ : Azure}

theorem stable_replacing {P : World → Prop} : Stable (replacing a₀ i d) P := by
  rintro w _ rfl h
  exact h

theorem quiet_replacing : Quiet (replacing a₀ i d) :=
  fun r hr w x w' hs => ⟨(quiet_alone r hr w x w' hs).1, id⟩

/-- The blocks in `A` are there, each with its chunk of the content. -/
def BlocksAt (i : BlobId) (d : Bytes) (cs : Nat) (A : Nat → Prop) (w : World) : Prop :=
  ∀ j, A j → w.azure.blocks i j = some (d.slice (j * cs) cs)

theorem BlocksAt.put {A : Nat → Prop} (h : BlocksAt i d cs A w) (k : Nat) :
    BlocksAt i d cs (fun j => A j ∨ j = k) (w.after (.putBlock i k (d.slice (k * cs) cs))) := by
  intro j hj
  simp only [World.after, Azure.respond, Azure.setBlocks, Function.update_self]
  by_cases hjk : j = k
  · rw [hjk, Function.update_self]
  · rw [Function.update_of_ne hjk]
    exact h j (hj.resolve_right hjk)

/-- The blocks whose requests were answered with success are there. -/
theorem wp_blockSend_any : ∀ (order : List Nat) (A : Nat → Prop) {w : World}, BlocksAt i d cs A w →
    wp (replacing a₀ i d') (blockSend i d cs order) (fun replies w' =>
      BlocksAt i d cs (fun j => A j ∨ ∃ m ∈ replies, m.1 = j ∧ m.2.err = .ok) w') w := by
  intro order
  induction order with
  | nil =>
    intro A w h
    refine wp_keeping_ret.mpr fun j hj => ?_
    rcases hj with hj | ⟨m, hm, -⟩
    · exact h j hj
    · cases hm
  | cons k order ih =>
    intro A w h
    unfold blockSend
    refine wp_azure_bind (P := fun w' => w' = w) rfl stable_replacing ?_
    rintro w x w' rfl hs
    have hkeep : w'.azure.blobs = w.azure.blobs := by
      rcases anyServed_cases hs with ⟨-, rfl⟩ | ⟨-, rfl⟩
      · rfl
      · rfl
    refine ⟨fun h => h.congr hkeep, ?_⟩
    rw [wp_bind]
    have hk : BlocksAt i d cs (fun j => A j ∨ (j = k ∧ x.err = .ok)) w' := by
      rcases anyServed_cases hs with ⟨hno, rfl⟩ | ⟨-, rfl⟩
      · exact fun j hj => h j (hj.resolve_right fun hj => hno hj.2)
      · exact fun j hj => h.put k j (hj.imp_right And.left)
    refine wp_mono ?_ (ih _ hk)
    intro replies w'' hrest
    refine wp_keeping_ret.mpr fun j hj => hrest j ?_
    rcases hj with hj | ⟨m, hm, rfl, hok⟩
    · exact Or.inl (Or.inl hj)
    · rcases List.mem_cons.mp hm with rfl | hm
      · exact Or.inl (Or.inr ⟨rfl, hok⟩)
      · exact Or.inr ⟨m, hm, rfl, hok⟩

/-- A commit that succeeds stored the chunks. An attempt that took effect without the
answer leaves them for the next one, as the blocks the blob is made of. -/
theorem wp_commit (h : BlocksAt i d cs (fun j => j ∈ List.range n) w) :
    wp (replacing a₀ i (d.slice 0 (n * cs))) (execute (.putBlockList i (List.range n)))
      (fun x w' => x.err = .ok → w'.azure.Holds i (d.slice 0 (n * cs)) ∧
        n ≤ Azure.maxBlockList) w := by
  refine wp_execute (I := fun w => ∀ j ∈ List.range n,
    w.azure.latest i j = some (d.slice (j * cs) cs)) stable_replacing (fun _ => stable_replacing)
    (fun j hj => Azure.latest_of_block (h j hj)) ?_
  intro w x w' hI hs
  rcases anyServed_cases hs with ⟨hno, rfl⟩ | ⟨hacc, rfl⟩
  · exact ⟨id, fun _ => hI, fun hok => absurd hok hno⟩
  obtain ⟨hlen, d', hd', hholds, hkept⟩ := Azure.putBlockList_accepted hacc
  rw [List.length_range] at hlen
  have hc := Azure.concatBlocks_slices d cs (w.azure.latest i) n 0
    fun j _ hj => hI j (List.mem_range.mpr (by omega))
  rw [Nat.zero_mul, ← List.range_eq_range', hd', Option.some.injEq] at hc
  rw [hc] at hholds
  have hkeep : ∀ j ∈ List.range n, (w.after (.putBlockList i (List.range n))).azure.latest i j =
      some (d.slice (j * cs) cs) := by
    intro j hj
    exact (hkept j hj).trans (hI j hj)
  exact ⟨fun _ => Or.inr hholds, fun _ => hkeep, fun _ => ⟨hholds, hlen⟩⟩

/-- Blocks that are put and committed with success store a prefix of the content. -/
theorem wp_uploadChunks_any :
    wp (replacing a₀ i (d.slice 0 (n * cs))) (uploadChunks i d cs n) (fun x w' =>
      x.err = .ok → w'.azure.Holds i (d.slice 0 (n * cs)) ∧ n ≤ Azure.maxBlockList) w := by
  unfold uploadChunks
  refine wp_transferSetup_bind quiet_replacing fun e _ => ?_
  split
  · next hne => exact wp_keeping_ret.mpr fun hok => absurd hok hne
  rw [wp_bind]
  refine wp_mono ?_ (wp_transfer (fun _ s => s) quiet_replacing
    (J := fun A _ w => BlocksAt i d cs A w) (fun _ _ => stable_replacing)
    (fun hAB h j hj => h j (hAB j hj)) (fun A order s w _ _ h => ?_) (transferRetries + 1)
    (fun _ => False) (List.range n) () List.nodup_range (fun _ _ => id) fun _ h => h.elim)
  swap
  · rw [wp_bind]
    refine wp_mono ?_ (wp_blockSend_any order A h)
    intro replies w' hrest
    refine wp_keeping_ret.mpr ⟨fun hnone => (by cases hnone), ?_⟩
    rintro _ _ ⟨⟩ msgs hp j hj
    refine hrest j ?_
    rcases hj with hj | ⟨m, hm, hj, hok⟩
    · exact Or.inl hj
    · exact Or.inr ⟨m, hp.mem_iff.mp hm, hj, hok⟩
  rintro ⟨e, s⟩ w₁ ⟨-, hdone⟩
  split
  · next hne => exact wp_keeping_ret.mpr fun hok => absurd hok hne
  next heq =>
  have hall : BlocksAt i d cs (fun j => j ∈ List.range n) w₁ := fun j hj =>
    hdone (by simpa using heq) j (Or.inr hj)
  refine wp_quiet_bind quiet_replacing rfl fun x _ => ?_
  split
  · exact wp_keeping_ret.mpr fun hok => AzErr.noConfusion hok
  · exact wp_commit hall

/-- A whole upload that succeeds stored the content. -/
theorem wp_azBlockBlobUpload_any :
    wp (replacing a₀ i d) (azBlockBlobUpload i d) (fun x w' => x.err = .ok → w'.azure.Holds i d)
      w := by
  refine wp_execute (I := fun _ => True) stable_replacing (fun _ => stable_replacing) trivial ?_
  intro w x w' _ hs
  rcases anyServed_cases hs with ⟨hno, rfl⟩ | ⟨hacc, rfl⟩
  · exact ⟨id, fun _ => trivial, fun hok => absurd hok hno⟩
  · have hholds := (Azure.putBlob_accepted hacc).1
    exact ⟨fun _ => Or.inr hholds, fun _ => trivial, fun _ => hholds⟩

/-- An upload in chunks that succeeds stored its chunks, and their number is one that the
service accepts. -/
theorem wp_upload_any (cs : Nat) :
    wp (replacing a₀ i (storedInChunks d cs)) (azBlockBlobUploadParallel i d cs) (fun x w' =>
      x.err = .ok → w'.azure.Holds i (storedInChunks d cs) ∧ (d.size < blockUploadMinParallelSize ∨
        (chunkCount d.size cs).toNat ≤ Azure.maxBlockList)) w := by
  unfold azBlockBlobUploadParallel storedInChunks
  have hdef : cInt ((d.size + cs - 1) / cs : Nat) = chunkCount d.size cs := rfl
  rw [hdef]
  dsimp only
  have hmax : 1 ≤ Azure.maxBlockList := by decide
  generalize chunkCount d.size cs = n at *
  by_cases hs : d.size < blockUploadMinParallelSize
  · rw [if_pos hs, if_pos (Or.inl hs)]
    exact wp_mono (fun x w' h hok => ⟨h hok, Or.inl hs⟩) wp_azBlockBlobUpload_any
  by_cases hn : n ≤ 1
  · rw [if_neg hs, if_pos hn, if_pos (Or.inr hn)]
    exact wp_mono (fun x w' h hok => ⟨h hok, Or.inr (by omega)⟩) wp_azBlockBlobUpload_any
  · rw [if_neg hs, if_neg hn, if_neg (fun h => h.elim hs hn)]
    exact wp_mono (fun x w' h hok => ⟨(h hok).1, Or.inr (h hok).2⟩) wp_uploadChunks_any

end Faults

section Crash

variable {v : VfsData} {p : ObjsFile} {w w' : World}

/-- The upload of a WAL, in chunks or whole. -/
theorem wp_walSync_any {a₀ : Azure} (hk : p.eFileType = .wal) :
    wp (replacing a₀ p.blob (storedBySync v p)) (walSync v p) (fun _ _ => True) w := by
  have hc : p.content = p.aWalData.truncate p.nWalData := by simp only [ObjsFile.content, hk]
  have hrc : ∀ (x : AzReply) (w' : World), wp (replacing a₀ p.blob (storedBySync v p))
      (if x.err ≠ .ok then .ret .ioerrFsync else .ret Rc.ok) (fun _ _ => True) w' := by
    intro x w'
    split
    · exact wp_keeping_ret.mpr trivial
    · exact wp_keeping_ret.mpr trivial
  unfold walSync uploadWal
  split
  · exact wp_keeping_ret.mpr trivial
  split
  · exact wp_keeping_ret.mpr trivial
  dsimp only
  rw [wp_bind, ← hc]
  split
  · next hpar =>
    rw [Bool.and_eq_true] at hpar
    have hstored : storedBySync v p = storedInChunks p.content (walChunk v) := if_pos ⟨hk, hpar⟩
    rw [hstored] at hrc ⊢
    exact wp_mono (fun x w' _ => hrc x w') (wp_upload_any (walChunk v))
  · next hpar =>
    have hstored : storedBySync v p = p.content := by
      refine if_neg fun h => hpar ?_
      rw [Bool.and_eq_true]
      exact h.2
    rw [hstored] at hrc ⊢
    exact wp_mono (fun x w' _ => hrc x w') wp_azBlockBlobUpload_any

theorem wp_journalSync_any {a₀ : Azure} (hk : p.eFileType = .mainJournal) :
    wp (replacing a₀ p.blob (storedBySync v p)) (journalSync v p) (fun _ _ => True) w := by
  have hc : p.content = p.aJrnlData.truncate p.nJrnlData := by simp only [ObjsFile.content, hk]
  have hstored : storedBySync v p = p.content := if_neg fun h => by
    rw [UploadsInChunks, hk] at h
    exact FileType.noConfusion h.1
  rw [hstored]
  unfold journalSync
  split
  · rw [wp_bind, ← hc]
    refine wp_mono (fun x w' _ => ?_) wp_azBlockBlobUpload_any
    split
    · exact wp_keeping_ret.mpr trivial
    · exact wp_keeping_ret.mpr trivial
  · exact wp_keeping_ret.mpr trivial

/-- A sync of a journal or WAL is all or nothing: wherever it stops, and whatever failed on the
way, the blob is the one of before or has the content that a success stores. -/
theorem sync_atomic (hk : p.eFileType ≠ .mainDb)
    (hc : Crashes anyServed (sqliteObjsSync v p) w w') :
    w'.azure.blobs p.blob = w.azure.blobs p.blob ∨ w'.azure.Holds p.blob (storedBySync v p) := by
  refine wp_crashes (I := fun w' => w.azure.Replacing p.blob (storedBySync v p) w'.azure)
    (Q := fun _ _ => True) ?_ (Or.inl rfl) hc
  unfold sqliteObjsSync
  split
  · next hwal =>
    rw [wp_bind]
    exact wp_mono (fun _ _ _ => wp_keeping_ret.mpr trivial) (wp_walSync_any hwal)
  · next hjrnl =>
    rw [wp_bind]
    exact wp_mono (fun _ _ _ => wp_keeping_ret.mpr trivial) (wp_journalSync_any hjrnl)
  · next hdb => exact absurd hdb hk

/-- A WAL of three quarters of a mebibyte, which goes up in three chunks. -/
def threeChunkWal : ObjsFile :=
  { newFile azureProductionOps 0 "db-wal" {} .wal with
    aWalData := SparseFile.empty.truncate (2 ^ 20), nWalData := 3 * 2 ^ 18 }

/-- A VFS that uploads WALs in chunks of a quarter of a mebibyte. -/
def chunkedVfs : VfsData := { VfsData.new 0 with walParallelUpload := true, walChunkSize := 2 ^ 18 }

theorem sync_atomic_chunks : storedBySync chunkedVfs threeChunkWal =
      threeChunkWal.content.slice 0 (3 * 2 ^ 18) ∧
    ∀ w w', Crashes anyServed (sqliteObjsSync chunkedVfs threeChunkWal) w w' →
      w'.azure.blobs ⟨0, "db-wal"⟩ = w.azure.blobs ⟨0, "db-wal"⟩ ∨
      w'.azure.Holds ⟨0, "db-wal"⟩ (storedBySync chunkedVfs threeChunkWal) :=
  ⟨rfl, fun _ _ hc => sync_atomic (by decide) hc⟩

end Crash

/-! ## The names of the blocks -/

theorem ofDigitChars_decimal4 (n : Nat) : Nat.ofDigitChars 10 (decimal4 n) 0 = n := by
  unfold decimal4
  rw [Nat.ofDigitChars_append, Nat.ofDigitChars_replicate_zero, Nat.mul_zero,
    Nat.ofDigitChars_ten_toDigits]

theorem length_decimal4 (n : Nat) : (decimal4 n).length = max 4 (Nat.toDigits 10 n).length := by
  unfold decimal4
  rw [List.length_append, List.length_replicate]
  omega

theorem length_blockRawId (n : Nat) :
    (blockRawId n).length = min 15 (6 + max 4 (Nat.toDigits 10 n).length) := by
  have hblock : "block-".toList.length = 6 := rfl
  unfold blockRawId snprintf
  rw [List.length_take, List.length_append, length_decimal4, hblock]

/-- Below a milliard the name has all digits. -/
theorem blockRawId_eq {n : Nat} (hn : n < 10 ^ 9) :
    blockRawId n = "block-".toList ++ decimal4 n := by
  have hlen := (Nat.length_toDigits_le_iff (b := 10) (by decide) (k := 9) (by decide)).mpr hn
  have hblock : "block-".toList.length = 6 := rfl
  refine snprintf_eq ?_
  rw [List.length_append, length_decimal4, hblock]
  omega

theorem bytesOf_blockRawId_inj {m n : Nat} (hm : m < 10 ^ 9) (hn : n < 10 ^ 9)
    (h : bytesOf (blockRawId m) = bytesOf (blockRawId n)) : m = n := by
  have hbyte : ∀ k, ∀ c ∈ decimal4 k, c.toNat < 256 := by
    intro k c hc
    rcases List.mem_append.mp hc with hc | hc
    · obtain ⟨-, rfl⟩ := List.mem_replicate.mp hc
      decide
    · have hd := isDigit_of_mem c hc
      simp only [Char.isDigit, Bool.and_eq_true, decide_eq_true_eq, ge_iff_le,
        UInt32.le_iff_toNat_le, Char.reduceVal, UInt32.reduceToNat] at hd
      exact Nat.lt_of_le_of_lt hd.2 (by decide)
  have htext : ∀ k, bytesOf (blockRawId k) = bytesOf (blockRawId m) → k < 10 ^ 9 →
      (bytesOf (blockRawId m)).drop 6 = bytesOf (decimal4 k) := by
    intro k hk hlt
    rw [← hk, blockRawId_eq hlt, bytesOf, List.map_append]
    rfl
  have hdigits : bytesOf (decimal4 m) = bytesOf (decimal4 n) :=
    (htext m rfl hm).symm.trans (htext n h.symm hn)
  have hback : ∀ k, (bytesOf (decimal4 k)).map (fun b => Char.ofNat b.toNat) = decimal4 k := by
    intro k
    rw [bytesOf, List.map_map]
    refine (List.map_congr_left fun c hc => ?_).trans (List.map_id _)
    rw [Function.comp_apply, UInt8.toNat_ofNat', Nat.mod_eq_of_lt (hbyte k c hc), Char.ofNat_toNat,
      id_eq]
  have hchars : decimal4 m = decimal4 n := by rw [← hback m, ← hback n, hdigits]
  rw [← ofDigitChars_decimal4 m, ← ofDigitChars_decimal4 n, hchars]

theorem blockId_inj {m n : Nat} (hm : m < 10 ^ 9) (hn : n < 10 ^ 9) (h : blockId m = blockId n) :
    m = n :=
  bytesOf_blockRawId_inj hm hn (Base64.encode_injective h)

/-- Up to six digits the names are of one length. -/
theorem length_blockId (n : Nat) : (blockId n).length = if n < 10 ^ 6 then 16 else 20 := by
  have hlen := Nat.length_toDigits_le_iff (b := 10) (n := n) (by decide) (k := 6) (by decide)
  unfold blockId
  rw [Base64.length_encode, length_bytesOf, length_blockRawId]
  split
  · next h =>
    have := hlen.mpr h
    omega
  · next h =>
    have := mt hlen.mp h
    omega

/-! ## The block list -/

/-- What stands before, around and behind the names. -/
def blocklistHead : List Char := "<?xml version=\"1.0\" encoding=\"utf-8\"?>\n<BlockList>\n".toList

def blocklistOpen : List Char := "  <Latest>".toList

def blocklistClose : List Char := "</Latest>\n".toList

def blocklistEntry (id : List Char) : List Char := blocklistOpen ++ (id ++ blocklistClose)

def blocklistFoot : List Char := "</BlockList>\n".toList

/-- `snprintf(xml + off, est_size - off, ...)`, then `off += n`. -/
def xmlAppend (estSize : Nat) (xml : List Char × Nat) (s : List Char) : List Char × Nat :=
  (xml.1.take xml.2 ++ snprintf ((estSize + 2 ^ 64 - xml.2) % 2 ^ 64) s, xml.2 + s.length)

/-- The loop of `block_build_blocklist_xml`. -/
def blocklistEntries (estSize : Nat) : List Nat → List Char × Nat → Option (List Char × Nat)
  | [], xml => some xml
  | i :: chunks, xml =>
    match blockMakeId i 32 with
    | none => none
    | some b64Id => blocklistEntries estSize chunks (xmlAppend estSize xml (blocklistEntry b64Id))

/-- `block_build_blocklist_xml`: the text and its length. -/
def blockBuildBlocklistXml (nChunks : Nat) : Option (List Char × Nat) :=
  let estSize := 128 + nChunks * 48
  let head := xmlAppend estSize ([], 0) blocklistHead
  (blocklistEntries estSize (List.range nChunks) head).map fun xml =>
    xmlAppend estSize xml blocklistFoot

/-- Text that fits is appended. -/
theorem xmlAppend_eq {estSize : Nat} {t s : List Char} (hest : estSize < 2 ^ 64)
    (h : t.length + s.length < estSize) :
    xmlAppend estSize (t, t.length) s = (t ++ s, (t ++ s).length) := by
  have hsize : (estSize + 2 ^ 64 - t.length) % 2 ^ 64 = estSize - t.length := by
    rw [show estSize + 2 ^ 64 - t.length = estSize - t.length + 2 ^ 64 by omega,
      Nat.add_mod_right, Nat.mod_eq_of_lt (by omega)]
  rw [xmlAppend, hsize, snprintf_eq (by omega), List.take_length, List.length_append]

theorem length_blocklistEntry (id : List Char) : (blocklistEntry id).length = id.length + 20 := by
  have hopen : blocklistOpen.length = 10 := rfl
  have hclose : blocklistClose.length = 10 := rfl
  rw [blocklistEntry, List.length_append, List.length_append, hopen, hclose]
  omega

/-- The loop writes every entry, as long as there is room for as many. -/
theorem blocklistEntries_eq {estSize : Nat} (hest : estSize < 2 ^ 64) : ∀ (chunks : List Nat)
    (t : List Char), t.length + chunks.length * 40 < estSize →
    ∃ t', blocklistEntries estSize chunks (t, t.length) = some (t', t'.length) ∧
      t' = t ++ chunks.flatMap (fun i => blocklistEntry (blockId i)) ∧
      t'.length ≤ t.length + chunks.length * 40 := by
  intro chunks
  induction chunks with
  | nil => exact fun t _ => ⟨t, rfl, by simp, by simp⟩
  | cons i chunks ih =>
    intro t hroom
    have hentry : (blocklistEntry (blockId i)).length ≤ 40 := by
      have hid := length_blockId_le i
      rw [length_blocklistEntry]
      omega
    rw [List.length_cons] at hroom
    have happend := xmlAppend_eq (t := t) hest (s := blocklistEntry (blockId i)) (by omega)
    obtain ⟨t', h₁, h₂, h₃⟩ := ih (t ++ blocklistEntry (blockId i)) (by
      rw [List.length_append]
      omega)
    refine ⟨t', ?_, ?_, ?_⟩
    · rw [blocklistEntries, blockMakeId_eq]
      dsimp only
      rw [happend, h₁]
    · rw [h₂, List.flatMap_cons, List.append_assoc]
    · rw [List.length_append] at h₃
      rw [List.length_cons]
      omega

/-! ### Reading the list -/

def latestTag : List Char := "<Latest>".toList

def latestEnd : List Char := "</Latest>".toList

/-- The names that a block list has between its tags, `n` at most. -/
def latestIds : Nat → List Char → List (List Char)
  | 0, _ => []
  | n + 1, s =>
    match Search.find latestTag s with
    | none => []
    | some i =>
      let t := s.drop (i + latestTag.length)
      match Search.find latestEnd t with
      | none => []
      | some j => t.take j :: latestIds n (t.drop (j + latestEnd.length))

/-- What has no place for the tag is skipped. -/
theorem latestIds_skip {u s : List Char}
    (h : Search.find latestTag (u ++ s) = (Search.find latestTag s).map (u.length + ·)) (n : Nat) :
    latestIds n (u ++ s) = latestIds n s := by
  cases n with
  | zero => rfl
  | succ n =>
    rw [latestIds, latestIds, h]
    cases Search.find latestTag s with
    | none => rfl
    | some i =>
      rw [Option.map_some]
      dsimp only
      rw [Nat.add_assoc, List.drop_append, List.drop_eq_nil_of_le (by omega), List.nil_append,
        Nat.add_sub_cancel_left]

/-- One entry is one name. -/
theorem latestIds_entry {id : List Char} (hid : '<' ∉ id) (z : List Char) (n : Nat) :
    latestIds (n + 1) (blocklistEntry id ++ z) = id :: latestIds n z := by
  have hopen : blocklistOpen = [' ', ' '] ++ latestTag := rfl
  have hclose : blocklistClose = latestEnd ++ ['\n'] := rfl
  have hsplit : blocklistEntry id ++ z =
      [' ', ' '] ++ (latestTag ++ (id ++ (latestEnd ++ (['\n'] ++ z)))) := by
    rw [blocklistEntry, hopen, hclose]
    simp only [List.append_assoc]
  rw [hsplit, latestIds_skip (Search.find_append_of_not_mem (c := '<') rfl (by decide) _),
    latestIds, Search.find_append_self]
  dsimp only
  rw [Nat.zero_add, List.drop_left, Search.find_append_of_not_mem (c := '<') rfl hid,
    Search.find_append_self, Option.map_some]
  dsimp only
  rw [Nat.add_zero, List.take_left, List.drop_append, List.drop_eq_nil_of_le (by omega),
    List.nil_append, Nat.add_sub_cancel_left, List.drop_left]
  have hnewline : '<' ∉ ['\n'] := by decide
  rw [latestIds_skip (Search.find_append_of_not_mem (c := '<') rfl hnewline z)]

theorem latestIds_entries : ∀ (ids : List (List Char)) (n : Nat), (∀ id ∈ ids, '<' ∉ id) →
    ids.length < n → latestIds n (ids.flatMap blocklistEntry ++ blocklistFoot) = ids := by
  intro ids
  induction ids with
  | nil =>
    intro n _ hn
    obtain ⟨n, rfl⟩ : ∃ m, n = m + 1 := ⟨n - 1, by omega⟩
    rfl
  | cons id ids ih =>
    intro n hids hn
    rw [List.length_cons] at hn
    obtain ⟨n, rfl⟩ : ∃ m, n = m + 1 := ⟨n - 1, by omega⟩
    rw [List.flatMap_cons, List.append_assoc,
      latestIds_entry (hids id List.mem_cons_self),
      ih n (fun id' h => hids id' (List.mem_cons_of_mem _ h)) (by omega)]

theorem blockId_plain_text (i : Nat) : '<' ∉ blockId i := by
  intro h
  exact absurd (Base64.mem_encode h) (by decide)

/-- The block list of an upload is written completely and inside its buffer, and names the
chunks in order. The names differ up to a milliard of chunks, and are of one length up to
a million. -/
theorem block_list_names_chunks {n : Nat} (hn : n < 2 ^ 31) :
    ∃ xml, blockBuildBlocklistXml n = some (xml, xml.length) ∧ xml.length < 128 + n * 48 ∧
      latestIds xml.length xml = (List.range n).map blockId ∧
      (((List.range n).map blockId).Nodup ↔ n ≤ 10 ^ 9) ∧
      ((∀ i j, i < n → j < n → (blockId i).length = (blockId j).length) ↔ n ≤ 10 ^ 6) := by
  have hhead : blocklistHead.length = 51 := rfl
  have hfoot : blocklistFoot.length = 13 := rfl
  have hest : 128 + n * 48 < 2 ^ 64 := by omega
  have hfirst : xmlAppend (128 + n * 48) ([], 0) blocklistHead =
      (blocklistHead, blocklistHead.length) :=
    xmlAppend_eq (t := []) hest (by rw [List.length_nil, hhead]; omega)
  obtain ⟨t, h₁, h₂, h₃⟩ := blocklistEntries_eq hest (List.range n) blocklistHead (by
    rw [List.length_range, hhead]
    omega)
  rw [List.length_range, hhead] at h₃
  have hlast := xmlAppend_eq (t := t) hest (s := blocklistFoot) (by rw [hfoot]; omega)
  refine ⟨t ++ blocklistFoot, ?_, ?_, ?_, ?_, ?_⟩
  · unfold blockBuildBlocklistXml
    dsimp only
    rw [hfirst, h₁, Option.map_some, hlast]
  · rw [List.length_append, hfoot]
    omega
  · have hids : ∀ id ∈ (List.range n).map blockId, '<' ∉ id := by
      intro id hid
      obtain ⟨i, -, rfl⟩ := List.mem_map.mp hid
      exact blockId_plain_text i
    have hentries : (List.range n).flatMap (fun i => blocklistEntry (blockId i)) =
        ((List.range n).map blockId).flatMap blocklistEntry := by
      rw [List.flatMap_map]
    have hmany : ((List.range n).map blockId).length < (t ++ blocklistFoot).length := by
      have hle : ∀ l : List Nat, l.length ≤
          (l.flatMap fun i => blocklistEntry (blockId i)).length := by
        intro l
        induction l with
        | nil => exact Nat.le_refl _
        | cons i l ih =>
          rw [List.length_cons, List.flatMap_cons, List.length_append]
          rw [length_blocklistEntry]
          omega
      have hle := hle (List.range n)
      rw [List.length_map, List.length_append, hfoot, h₂, List.length_append]
      omega
    rw [h₂, hentries, List.append_assoc, latestIds_skip (Search.find_append_of_clash (by decide) _),
      ← hentries, ← List.append_assoc, ← h₂, hentries]
    exact latestIds_entries _ _ hids hmany
  · constructor
    · intro hnodup
      by_contra hlt
      have hcut : blockId (10 ^ 8) = blockId (10 ^ 9) := by decide
      have := List.inj_on_of_nodup_map hnodup (List.mem_range.mpr (by omega : 10 ^ 8 < n))
        (List.mem_range.mpr (by omega : 10 ^ 9 < n)) hcut
      omega
    · intro hle
      refine List.Nodup.map_on (fun i hi j hj h => ?_) List.nodup_range
      rw [List.mem_range] at hi hj
      exact blockId_inj (by omega) (by omega) h
  · constructor
    · intro hall
      by_contra hlt
      have h := hall 0 (10 ^ 6) (by omega) (by omega)
      rw [length_blockId, length_blockId, if_pos (by decide), if_neg (by decide)] at h
      omega
    · intro hle i j hi hj
      rw [length_blockId, length_blockId, if_pos (by omega), if_pos (by omega)]

theorem block_list_names_three_chunks : ∃ xml, blockBuildBlocklistXml 3 = some (xml, xml.length) ∧
    latestIds xml.length xml = [blockId 0, blockId 1, blockId 2] := by
  obtain ⟨xml, h₁, -, h₂, -⟩ := block_list_names_chunks (n := 3) (by decide)
  exact ⟨xml, h₁, h₂⟩

end SqliteObjs
