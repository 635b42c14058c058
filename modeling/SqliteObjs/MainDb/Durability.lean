import SqliteObjs.Azure.Effects
import SqliteObjs.MainDb.Flush
import SqliteObjs.MainDb.Opening

/-!
# Durability of `xSync` for a database

One client writes, truncates and syncs a database that holds its whole content in the
cache file. The local disk works and renewals are accepted; a sync may meet any other
failure, with or without effect at the service. When a sync returns `SQLITE_OK` the blob
is the cache file.

This is so as long as page numbers fit the C code's `int`, and no allocation fails in a
write: a page past the reach of the dirty bitmap is written to the cache file and never
flushed (`write_past_bitmap_lost`).
-/

set_option autoImplicit false

namespace SqliteObjs

open Data CS CS.Program

/-! ## Alone with the service -/

section Alone

variable {serve : (r : Req) → World → Ans r → World → Prop} {ok : Req → Choice → Prop}

/-- One client that is alone sees its world. -/
theorem seen_alone (h : ∀ r w (x : Ans r) w', serve r w x w' →
    ∃ c, ok r c ∧ World.respond c r w = some (x, w')) : Seen (.alone serve) id ok where
  rely_disk := by rintro w _ rfl; rfl
  serve := h
  guar_sys _ _ _ _ _ := trivial
  quiet := by
    intro r hr w x w' hs
    obtain ⟨c, -, hc⟩ := h (.sys r) w x w' hs
    exact ⟨(quiet_alone r hr w x w' (show World.served (fun _ => True) (.sys r) w x w' from
      ⟨c, trivial, hc⟩)).1, trivial⟩

/-- What is said of the service alone survives system calls. -/
theorem fact_azure (h : ∀ r w (x : Ans r) w', serve r w x w' →
    ∃ c, ok r c ∧ World.respond c r w = some (x, w')) (P : Azure → Prop) :
    Fact (.alone serve) fun w => P w.azure where
  stable := stable_alone
  sys r w x w' hs hP := by
    obtain ⟨c, -, hc⟩ := h (.sys r) w x w' hs
    have hs' : World.served (fun _ => True) (.sys r) w x w' := ⟨c, trivial, hc⟩
    obtain ⟨-, -, -, rfl⟩ := served_sys hs'
    exact hP

end Alone

/-- The blob is there and its content satisfies `P`. -/
def Azure.Has (a : Azure) (i : BlobId) (P : Bytes → Prop) : Prop :=
  ∃ b, a.blobs i = some b ∧ P b.content

section Has

variable {a a' : Azure} {i : BlobId} {P : Bytes → Prop} {c : Choice} {x : AzReply}

theorem Azure.Has.imp {P' : Bytes → Prop} (h : a.Has i P) (hP : ∀ c, P c → P' c) : a.Has i P' := by
  obtain ⟨b, hb, hc⟩ := h
  exact ⟨b, hb, hP _ hc⟩

theorem Azure.Has.renew (h : a.Has i P) {id : LeaseId}
    (hs : a.serve c (.leaseRenew i id) = some (x, a')) : a'.Has i P := by
  obtain ⟨b, hb, hP⟩ := h
  rcases Azure.serve_cases hs with ⟨-, rfl⟩ | ⟨hok, rfl, -⟩
  · exact ⟨b, hb, hP⟩
  · rw [(Azure.respond_leaseRenew hb hok).2]
    exact ⟨_, Azure.set_blobs_self a i _, hP⟩

theorem Azure.Has.snapshot (h : a.Has i P)
    (hs : a.serve c (.blobSnapshotCreate i) = some (x, a')) : a'.Has i P := by
  obtain ⟨b, hb, hP⟩ := h
  rcases Azure.serve_cases hs with ⟨-, rfl⟩ | ⟨-, rfl, -⟩
  · exact ⟨b, hb, hP⟩
  · obtain ⟨s, hs'⟩ := Azure.respond_snapshotCreate hb
    exact ⟨_, hs', hP⟩

/-- A page write is accepted with its effect, or fails; the effect may come all the
same. -/
theorem Azure.Has.write {P' : Bytes → Prop} (h : a.Has i P) {off : Nat} {data : Bytes}
    {lease : Option LeaseId} {ifMatch : Option ETag}
    (hs : a.serve c (.pageBlobWrite i off data lease ifMatch) = some (x, a'))
    (hstep : ∀ c, P c → off + data.size ≤ c.size → P (c.pwrite off data) ∧ P' (c.pwrite off data)) :
    a'.Has i P ∧ (x.err = .ok → a'.Has i P') := by
  obtain ⟨b, hb, hP⟩ := h
  rcases Azure.serve_cases hs with ⟨hx, rfl⟩ | ⟨hok, rfl, -⟩
  · exact ⟨⟨b, hb, hP⟩, fun h => absurd h hx⟩
  obtain ⟨-, -, hle, -, he⟩ := Azure.respond_pageBlobWrite hb hok
  obtain ⟨h₁, h₂⟩ := hstep _ hP hle
  rw [he]
  exact ⟨⟨_, Azure.change_blobs_self a i b _ _, h₁⟩, fun _ =>
    ⟨_, Azure.change_blobs_self a i b _ _, h₂⟩⟩

/-- A resize likewise. -/
theorem Azure.Has.resize {R : Bytes → Prop} (h : a.Has i P) {size : Nat} {lease : Option LeaseId}
    (hs : a.serve c (.pageBlobResize i size lease) = some (x, a'))
    (hstep : ∀ c, P c → R (c.truncate size)) :
    (x.err ≠ .ok ∧ a' = a) ∨ (a'.Has i R ∧ (c.fault = none → x.err = .ok)) := by
  obtain ⟨b, hb, hP⟩ := h
  rcases Azure.serve_cases hs with ⟨hx, rfl⟩ | ⟨hok, rfl, -, hf⟩
  · exact Or.inl ⟨hx, rfl⟩
  obtain ⟨-, -, he⟩ := Azure.respond_pageBlobResize hb hok
  rw [he]
  exact Or.inr ⟨⟨_, Azure.change_blobs_self a i b _ _, hstep _ hP⟩, hf⟩

end Has

/-! ## The session -/

/-- The calls on a database that is open. -/
inductive DbCall
  | write (buf : Bytes) (iOfst : Nat)
  | truncate (size : Nat)
  | sync

/-- What the environment may decide during a call: system calls succeed but for
allocations, and the service fails only in a sync. -/
def DbCall.allows (c : DbCall) : Req → Choice → Prop
  | .sys r, ch => (∀ n, r ≠ .malloc n) → ch.sysFails = false
  | .azure _, ch => c ≠ .sync → ch.fault = none

/-- No renewal of a lease fails. -/
def renewalAccepted : (r : Req) → Ans r → Prop
  | .azure (.leaseRenew _ _), x => x.err = .ok
  | _, _ => True

/-- A client that writes, truncates and syncs a database; leases may run out between
two calls. -/
def dbSession (v : VfsData) : Session World Ans ObjsFile DbCall where
  code
    | .write buf iOfst, p => do
      let (p, _) ← sqliteObjsWrite p buf iOfst
      return p
    | .truncate size, p => do
      let (p, _) ← sqliteObjsTruncate p size
      return p
    | .sync, p => do
      let (_, p, _) ← sqliteObjsSync v p
      return p
  may
    | .write buf iOfst, _, _ => 0 < buf.size ∧ 512 ∣ iOfst ∧ 512 ∣ buf.size
    | .truncate size, p, _ => 512 ∣ size ∧ size ≤ p.nData
    | .sync, _, _ => True
  serve c _ r w x w' :=
    (∃ ch, c.allows r ch ∧ World.respond ch r w = some (x, w')) ∧ renewalAccepted r x
  outside w w' := ∃ i, w' = { w with azure := w.azure.expire i }

/-- Every write ends on a page whose number the bitmaps can hold. -/
def DbCall.inRange : DbCall → ObjsFile → Prop
  | .write buf iOfst, p => pagesOf (iOfst + buf.size) p.pageSize ≤ maxPages
  | _, _ => True

/-- No allocation fails in a write. -/
def DbCall.allocates : DbCall → (r : Req) → Ans r → Prop
  | .write _ _, .sys (.malloc _), x => x.ok = true
  | _, _, _ => True

/-- The session under both conditions. -/
def boundedSession (v : VfsData) : Session World Ans ObjsFile DbCall :=
  (dbSession v).limit DbCall.inRange DbCall.allocates

/-- The invariant: the cache file mirrors the blob. -/
structure Mirrors (p : ObjsFile) (w : World) : Prop where
  kind : p.eFileType = .mainDb
  ops : p.ops.Complete
  mirror : ∃ fd, p.cacheFd = some fd ∧ w.azure.Has p.blob (Mirror p (w.disk.inode fd))

section Calls

variable {v : VfsData} {p : ObjsFile} {w : World} {fd : Fd} {cache : Bytes}

theorem seen_call (v : VfsData) (c : DbCall) (p : ObjsFile) :
    Seen (.alone ((boundedSession v).serve c p)) id c.allows :=
  seen_alone fun _ _ _ _ h => h.1.1

theorem diskWorks_call (c : DbCall) : DiskWorks c.allows := fun _ _ hr hc => hc hr

theorem renewsWell_call (v : VfsData) (c : DbCall) (p q : ObjsFile) :
    RenewsWell (.alone ((boundedSession v).serve c p)) q := fun _ _ _ _ h => h.1.2

theorem fact_call (v : VfsData) (c : DbCall) (p : ObjsFile) (P : Azure → Prop) :
    Fact (.alone ((boundedSession v).serve c p)) fun w => P w.azure :=
  fact_azure (fun _ _ _ _ h => h.1.1) P

theorem renewKeeps_call (v : VfsData) (c : DbCall) (p q : ObjsFile) (P : Bytes → Prop) :
    RenewKeeps (.alone ((boundedSession v).serve c p)) q fun w => w.azure.Has q.blob P := by
  intro id _ w x w' hP h
  obtain ⟨ch, -, hs⟩ := h.1.1
  exact ⟨trivial, hP.renew (respond_azure hs)⟩

theorem Written.mirrors {p p' : ObjsFile} {w w' : World} (h : Written p p') (hi : Mirrors p w)
    {fd : Fd} (hfd : p.cacheFd = some fd)
    (hm : w'.azure.Has p.blob (Mirror p' (w'.disk.inode fd))) :
    Mirrors p' w' := by
  unfold Written at h
  refine ⟨?_, ?_, fd, ?_, ?_⟩
  · rw [h]
    exact hi.kind
  · rw [h]
    exact hi.ops
  · rw [h]
    exact hfd
  · have hb : p'.blob = p.blob := by rw [h]; rfl
    rw [hb]
    exact hm

theorem Mirrors.wp_write (hi : Mirrors p w) {buf : Bytes} {iOfst : Nat} (hb : 0 < buf.size)
    (ho : 512 ∣ iOfst) (hl : 512 ∣ buf.size)
    (hend : pagesOf (iOfst + buf.size) p.pageSize ≤ maxPages) :
    wp (.alone ((boundedSession v).serve (.write buf iOfst) p)) (sqliteObjsWrite p buf iOfst)
      (fun r w' => Mirrors r.1 w') w := by
  obtain ⟨fd, hfd, hhas⟩ := hi.mirror
  obtain ⟨b, hblob, hm⟩ := hhas
  have hal : Allocates (.alone ((boundedSession v).serve (.write buf iOfst) p)) :=
    fun _ _ _ _ h => h.2
  have hk : Knows id (fun w => w.azure.Has p.blob (· = b.content)) w.disk w :=
    ⟨⟨b, hblob, rfl⟩, rfl⟩
  unfold sqliteObjsWrite
  rw [hi.kind]
  refine wp_mono ?_ (hk.wp_mainDbWrite (seen_call v _ p) (fact_call v _ p fun a => a.Has p.blob _)
    (diskWorks_call _) hal (renewKeeps_call v _ p p _) (renewsWell_call v _ p p) hfd hm
    hb ho hl hend)
  rintro ⟨p', rc⟩ w' ⟨-, hw, -, hm', hk'⟩
  apply hw.mirrors hi hfd
  have hd : w'.disk = _ := hk'.2
  rw [hd, Disk.setInode_inode_self]
  refine hk'.1.imp ?_
  rintro _ rfl
  exact hm'

theorem Mirrors.wp_truncate (hi : Mirrors p w) {size : Nat} (ha : 512 ∣ size)
    (hle : size ≤ p.nData) :
    wp (.alone ((boundedSession v).serve (.truncate size) p)) (sqliteObjsTruncate p size)
      (fun r w' => Mirrors r.1 w') w := by
  obtain ⟨fd, hfd, hhas⟩ := hi.mirror
  have hE := seen_call v (.truncate size) p
  have hop : p.ops.pageBlobResize = true := by rw [hi.ops]; rfl
  have hk : Knows id (fun w' => w'.azure = w.azure) w.disk w := ⟨rfl, rfl⟩
  unfold sqliteObjsTruncate
  rw [hi.kind]
  dsimp only
  unfold mainDbTruncate
  rw [wp_bind]
  unfold resizeForTruncate azPageBlobResize
  rw [if_pos hop, if_neg (by unfold align512; omega), align512_of_dvd ha]
  refine SqliteObjs.wp_execute_bind ((fact_call v _ p (· = w.azure)).knows_stable hE) hk ?_
  intro w₁ x w₂ hk₁ hserve
  obtain ⟨ch, hch, hs⟩ := hserve.1.1
  have hd : w₂.disk = w.disk := (hE.azure_disk hserve).trans hk₁.2
  have ha₁ : w₁.azure = w.azure := hk₁.1
  have hs' := respond_azure hs
  rw [ha₁] at hs'
  rcases hhas.resize hs' (R := Mirror { p with nData := size, lastSyncedSize := size }
      ((w.disk.inode fd).truncate size))
      (fun c hm => hm.truncate hle ha rfl rfl rfl rfl) with ⟨hx, ha₂⟩ | ⟨hhas', hx⟩
  · -- refused: nothing changed
    have hk₂ : Knows id (fun w' => w'.azure = w.azure) w.disk w₂ := ⟨ha₂, hd⟩
    refine ⟨trivial, fun _ => hk₂, ?_⟩
    rw [if_pos hx]
    refine hk₂.wp_ret hE (fact_call v _ p (· = w.azure)) fun w' hk' => ?_
    dsimp only
    rw [if_pos]
    · refine hk'.wp_ret hE (fact_call v _ p (· = w.azure)) fun w' hk' => ?_
      have ha' : w'.azure = w.azure := hk'.1
      have hd' : w'.disk = w.disk := hk'.2
      exact ⟨hi.kind, hi.ops, fd, hfd, by rw [ha', hd']; exact hhas⟩
    · intro h
      exact hx ((azureErrToSqlite_eq_ok (by decide)).mp h)
  · have hx := hx (hch (by simp))
    have hk₂ : Knows id (fun w' => w'.azure.Has p.blob (Mirror
        { p with nData := size, lastSyncedSize := size } ((w.disk.inode fd).truncate size)))
        w.disk w₂ := ⟨hhas', hd⟩
    refine ⟨trivial, fun hretry => ?_, ?_⟩
    · rw [hx] at hretry
      exact Bool.noConfusion hretry
    rw [if_neg (by simpa using hx)]
    refine hk₂.wp_ret hE (fact_call v _ p fun a => a.Has p.blob _) fun w₃ hk₃ => ?_
    dsimp only
    rw [if_neg (by simp)]
    split
    · next hnone => rw [hfd] at hnone; cases hnone
    next fd' hfd' =>
    obtain rfl : fd = fd' := Option.some.inj (hfd.symm.trans hfd')
    refine hk₃.wp_sys_bind hE (fact_call v _ p fun a => a.Has p.blob _) fun c w₄ hc hk₄ => ?_
    have hfails : c.sysFails = false := hc (by simp)
    simp only [Disk.serve, hfails, Bool.false_eq_true, if_false, Bool.not_true] at hk₄ ⊢
    refine hk₄.wp_ret hE (fact_call v _ p fun a => a.Has p.blob _) fun w' hk' => ?_
    have hd' : w'.disk = _ := hk'.2
    have hq := forgetPastEnd_eq { p with lastSyncedSize := size } hle
    generalize forgetPastEnd { p with lastSyncedSize := size } size = q at hq ⊢
    rw [hq]
    refine ⟨hi.kind, hi.ops, fd, hfd, ?_⟩
    rw [hd', Disk.setInode_inode_self]
    exact hk'.1.imp fun c hm => hm.congr rfl rfl rfl hm.synced

/-- The pieces of `A` are in the content. -/
def PiecesIn (loaded : List PageRange) (A : Nat → Prop) (c : Bytes) : Prop :=
  ∀ k, A k → ∀ r, loaded[k]? = some r → ∀ i, i < r.data.size → c.get (r.offset + i) = r.data.get i

/-- Pieces of one file do not undo each other. -/
theorem PiecesIn.pwrite {loaded : List PageRange} {A : Nat → Prop} {c : Bytes}
    (h : PiecesIn loaded A c)
    (hl : ∀ r ∈ loaded, ∀ i, i < r.data.size → r.data.get i = cache.get (r.offset + i))
    {k : Nat} {r : PageRange} (hr : loaded[k]? = some r) :
    PiecesIn loaded (fun j => A j ∨ j = k) (c.pwrite r.offset r.data) := by
  have hmem : r ∈ loaded := List.mem_of_getElem? hr
  intro j hj r' hr' i hi
  have hmem' : r' ∈ loaded := List.mem_of_getElem? hr'
  by_cases hin : r.offset ≤ r'.offset + i ∧ r'.offset + i < r.offset + r.data.size
  · rw [SparseFile.pwrite_get_of_mem _ _ hin.1 hin.2, hl r hmem _ (by omega), hl r' hmem' i hi]
    congr 1
    omega
  · rw [SparseFile.pwrite_get_of_not_mem _ _ hin]
    rcases hj with hj | rfl
    · exact h j hj r' hr' i hi
    · rw [hr] at hr'
      obtain rfl := Option.some.inj hr'
      exact absurd ⟨by omega, by omega⟩ hin

/-- The facts of a sync: before the resize the blob is mirrored, afterwards it has the
size of the file, and the pieces that are written. -/
theorem syncing_call (v : VfsData) (p : ObjsFile) (cache : Bytes) :
    Syncing (.alone ((boundedSession v).serve .sync p)) p cache
      (fun w => w.azure.Has p.blob (Mirror p cache))
      (fun loaded A _ w => w.azure.Has p.blob fun c =>
        Mirror p cache c ∧ c.size = p.nData ∧ PiecesIn loaded A c) where
  fact := fact_call v _ p fun a => a.Has p.blob _
  facts loaded A _ := fact_call v _ p fun a => a.Has p.blob _
  mono hA _ h := h.imp fun c hc => ⟨hc.1, hc.2.1, fun k hk => hc.2.2 k (hA k hk)⟩
  renew := renewKeeps_call v _ p p _
  start w hle h := h.imp fun c hm =>
    ⟨hm, Nat.le_antisymm hm.blobSize (Nat.le_trans hle hm.synced), fun _ h => h.elim⟩
  resize hlt w x w' h hs := by
    obtain ⟨ch, -, hs⟩ := hs.1.1
    have halign : ∀ c, Mirror p cache c → align512 p.nData = p.nData :=
      fun c hm => align512_of_dvd hm.aligned
    obtain ⟨b, hb, hm⟩ := h
    rw [halign _ hm] at hs
    refine ⟨trivial, ?_⟩
    rcases Azure.Has.resize ⟨b, hb, hm⟩ (respond_azure hs) (R := fun c => Mirror p cache c ∧
        c.size = p.nData) (fun c hm => ⟨hm.resize, rfl⟩) with ⟨hx, ha⟩ | ⟨hhas, -⟩
    · rw [ha]
      exact ⟨fun _ => ⟨b, hb, hm⟩, fun h => absurd h hx⟩
    · exact ⟨fun _ => hhas.imp fun _ h => h.1, fun _ => hhas.imp fun _ h =>
        ⟨h.1, h.2, fun _ h => h.elim⟩⟩
  load h := h.imp fun c hc => ⟨hc.1, hc.2.1, fun _ h => h.elim⟩
  flush hc hl := {
    fact := fun A _ => fact_call v _ p fun a => a.Has p.blob _
    mono := fun hA _ h => h.imp fun c hc => ⟨hc.1, hc.2.1, fun k hk => hc.2.2 k (hA k hk)⟩
    put := fun {k r} hr A _ w x w' h hs => by
      obtain ⟨ch, -, hs⟩ := hs.1.1
      refine ⟨trivial, h.write (respond_azure hs) fun c ⟨hm, hsize, hp⟩ hle => ?_⟩
      have hflush := hm.flush (hl.bytes r (List.mem_of_getElem? hr)) hle
      have hkeep := (SparseFile.pwrite_size_of_le c r.data hle).trans hsize
      have hall := hp.pwrite hl.bytes hr
      exact ⟨⟨hflush, hkeep, fun j hj => hall j (Or.inl hj)⟩, hflush, hkeep, hall⟩
    renew := fun A _ => renewKeeps_call v _ p p _ }
  snap loaded A _ w x w' h hs := by
    obtain ⟨ch, -, hs⟩ := hs.1.1
    exact ⟨trivial, h.snapshot (respond_azure hs)⟩

/-- What a sync with `SQLITE_OK` promises: the blob has the size of the file and the
bytes of the cache file, and no page is dirty. -/
structure Durable (p : ObjsFile) (w : World) : Prop where
  blob : ∃ fd b, p.cacheFd = some fd ∧ w.azure.blobs p.blob = some b ∧
    b.content.size = p.nData ∧ ∀ j, j < p.nData → b.content.get j = (w.disk.inode fd).get j
  dirty : ∀ j, p.dirty.bit j = false
  nSet : p.dirty.nSet = 0

theorem durable_of_eq (hfd : p.cacheFd = some fd) (hn : cache.size = p.nData)
    (hcache : w.disk.inode fd = cache) (h : w.azure.Has p.blob (· = cache))
    (hd : ∀ j, p.dirty.bit j = false) (h0 : p.dirty.nSet = 0) : Durable p w := by
  obtain ⟨b, hb, rfl⟩ := h
  exact ⟨⟨fd, b, hfd, hb, hn, fun j _ => by rw [hcache]⟩, hd, h0⟩

/-- The bytes of the dirty pages, once all ranges are written. -/
theorem get_of_piecesIn {blob : Bytes} {ranges : List (Nat × Nat)} {loaded : List PageRange}
    (hc : CoversDirty p ranges) (hl : Loaded cache ranges loaded)
    (h : PiecesIn loaded (· < loaded.length) blob) {j : Nat} (hj : j < p.nData)
    (hd : p.dirty.bit (j / p.pageSize) = true) : blob.get j = cache.get j := by
  obtain ⟨r, hr, h₁, h₂⟩ := hc.covers j hj hd
  -- the loaded piece of that range
  rw [← hl.spans] at hr
  obtain ⟨piece, hpiece, rfl⟩ := List.mem_map.mp hr
  obtain ⟨k, hk, hget⟩ := List.mem_iff_getElem.mp hpiece
  dsimp only at h₁ h₂
  have hin := h k hk piece (List.getElem?_eq_some_iff.mpr ⟨hk, hget⟩) (j - piece.offset) (by omega)
  have hbytes := hl.bytes piece hpiece (j - piece.offset) (by omega)
  rw [show piece.offset + (j - piece.offset) = j by omega] at hin hbytes
  rw [hin, hbytes]

/-- When all ranges are written the blob is the cache. -/
theorem eq_of_piecesIn {blob : Bytes} {ranges : List (Nat × Nat)} {loaded : List PageRange}
    (hm : Mirror p cache blob) (hsize : blob.size = p.nData) (hc : CoversDirty p ranges)
    (hl : Loaded cache ranges loaded) (h : PiecesIn loaded (· < loaded.length) blob) :
    blob = cache := by
  apply hm.eq_of_flushed hsize
  exact fun j hj hd => get_of_piecesIn hc hl h hj hd

theorem Mirrors.wp_sync (hi : Mirrors p w) :
    wp (.alone ((boundedSession v).serve .sync p)) (sqliteObjsSync v p)
      (fun r w' => Mirrors r.2.1 w' ∧ (r.2.2 = .ok → Durable r.2.1 w')) w := by
  obtain ⟨fd, hfd, hhas⟩ := hi.mirror
  obtain ⟨b, hb, hm⟩ := hhas
  unfold sqliteObjsSync
  rw [hi.kind]
  dsimp only
  rw [wp_bind]
  refine wp_mono ?_ ((syncing_call v p (w.disk.inode fd)).wp_mainDbSync (seen_call v _ p)
    (diskWorks_call _) hi.ops hfd hm rfl (show Knows id _ w.disk w from ⟨⟨b, hb, hm⟩, rfl⟩))
  rintro ⟨p', rc⟩ w₁ hend
  refine wp_alone_ret.mpr ?_
  cases hend with
  | clean h0 hk =>
    have hd : w₁.disk = w.disk := hk.2
    have hnone := hm.counted.none_of_zero h0
    refine ⟨⟨hi.kind, hi.ops, fd, hfd, by rw [hd]; exact hk.1⟩, fun _ => ?_⟩
    exact durable_of_eq hfd hm.cacheSize (by rw [hd]) (hk.1.imp fun c hc => hc.eq_of_clean hnone)
      hnone h0
  | early hrc hk =>
    have hd : w₁.disk = w.disk := hk.2
    refine ⟨⟨hi.kind, hi.ops, fd, hfd, ?_⟩, fun h => absurd h hrc⟩
    rw [hd]
    exact hk.1.imp fun c hc => hc.congr rfl rfl rfl hc.synced
  | late hrc hk =>
    have hd : w₁.disk = w.disk := hk.2
    refine ⟨⟨hi.kind, hi.ops, fd, hfd, ?_⟩, fun h => absurd h hrc⟩
    rw [hd]
    refine hk.1.imp fun c hc => hc.1.congr rfl rfl rfl ?_
    rw [hc.2.1]
    exact Nat.max_le.mpr ⟨Nat.le_trans hm.synced hm.blobSize, Nat.le_refl _⟩
  | @done t snapshot etag ranges loaded d' _ hcov hl _ hd' hk =>
    have hd : w₁.disk.inode fd = w.disk.inode fd := by
      rw [show w₁.disk = d' from hk.2, hd']
    have heq : w₁.azure.Has p.blob (· = w.disk.inode fd) :=
      hk.1.imp fun c hc => eq_of_piecesIn hc.1 hc.2.1 hcov hl hc.2.2
    refine ⟨⟨hi.kind, hi.ops, fd, hfd, ?_⟩, fun _ => ?_⟩
    · rw [hd]
      refine heq.imp ?_
      rintro _ rfl
      refine Mirror.of_eq hm.page hm.cacheSize hm.aligned ?_ ?_ (Bitmap.counted_clearAll _) hm.small
      · exact Nat.max_le.mpr ⟨Nat.le_trans hm.synced hm.blobSize, Nat.le_refl _⟩
      · rw [Bitmap.nAlloc_clearAll]
        exact hm.room
    · exact durable_of_eq hfd hm.cacheSize hd heq (Bitmap.bit_clearAll _) rfl

theorem Mirrors.expire (hi : Mirrors p w) (i : BlobId) :
    Mirrors p { w with azure := w.azure.expire i } := by
  obtain ⟨fd, hfd, b, hb, hm⟩ := hi.mirror
  refine ⟨hi.kind, hi.ops, fd, hfd, ?_⟩
  unfold Azure.expire
  split
  · exact ⟨b, hb, hm⟩
  next b' hb' =>
  split
  · by_cases hi : p.blob = i
    · subst hi
      rw [hb] at hb'
      obtain rfl := Option.some.inj hb'
      exact ⟨_, Azure.set_blobs_self _ _ _, hm⟩
    · exact ⟨b, by rw [Azure.set_blobs_ne _ _ hi]; exact hb, hm⟩
  · exact ⟨b, hb, hm⟩

/-- The invariant holds in every state the session gets to. -/
theorem Mirrors.reach {p₀ : ObjsFile} {w₀ : World} (h₀ : Mirrors p₀ w₀)
    (h : (boundedSession v).Reach p₀ w₀ p w) : Mirrors p w := by
  refine Session.inv_of_reach Mirrors h₀ ?_ ?_ h
  · intro c p w hi hmay
    cases c with
    | write buf iOfst =>
      refine wp_bind.mpr (wp_mono ?_ (hi.wp_write hmay.1.1 hmay.1.2.1 hmay.1.2.2 hmay.2))
      exact fun r w' hr => wp_alone_ret.mpr fun _ => hr
    | truncate size =>
      refine wp_bind.mpr (wp_mono ?_ (hi.wp_truncate hmay.1.1 hmay.1.2))
      exact fun r w' hr => wp_alone_ret.mpr fun _ => hr
    | sync =>
      refine wp_bind.mpr (wp_mono ?_ hi.wp_sync)
      exact fun r w' hr => wp_alone_ret.mpr fun _ => hr.1
  · rintro p w _ hi ⟨i, rfl⟩
    exact hi.expire i

end Calls

/-! ## From `xOpen` -/

section Open

variable {v : VfsData} {uri : UriParams} {name : String} {create : Bool}
  {ops : AzureOps} {ctx : Nat}
  {w : World}

/-- The cache file is the blob. -/
def CacheIsBlob (p : ObjsFile) (w : World) : Prop :=
  ∃ fd, p.cacheFd = some fd ∧ w.azure.Has p.blob (· = w.disk.inode fd)

theorem seen_sound : Seen (.alone (World.served Sound)) id fun _ c => Sound c :=
  seen_alone fun _ _ _ _ h => h

theorem fact_sound (P : Azure → Prop) : Fact (.alone (World.served Sound)) fun w => P w.azure :=
  fact_azure (fun _ _ _ _ h => show ∃ c, Sound c ∧ _ from h) P

/-- A sound service answers as it does. -/
theorem served_sound {r : AzReq} {w w' : World} {x : AzReply}
    (h : World.served Sound (.azure r) w x w') :
    x = { (w.azure.respond r).1 with ranges := x.ranges } ∧ w'.azure = (w.azure.respond r).2 := by
  obtain ⟨c, hc, hs⟩ := h
  exact (Azure.serve_healthy hc.1 (respond_azure hs)).symm

/-- Reads of a blob that nobody changes. -/
theorem reading_sound {a : Azure} {i : BlobId} {b : Blob} (hb : a.blobs i = some b) (P : Prop) :
    Reading (.alone (World.served Sound)) i (fun w => w.azure = a ∧ P) (fun _ => True)
      b.content where
  fact := fact_sound fun a' => a' = a ∧ P
  rely _ _ _ _ _ := trivial
  sys _ _ _ _ _ _ _ := trivial
  read off len w x w' ha hs := by
    obtain ⟨hx, ha'⟩ := served_sound hs
    obtain ⟨h₁, h₂⟩ := Azure.respond_pageBlobRead w.azure i off len
    refine ⟨trivial, ⟨ha'.trans (h₁.trans ha.1), ha.2⟩, fun _ => trivial, fun hok _ => ?_⟩
    rw [hx] at hok ⊢
    obtain ⟨b', hb', hbody⟩ := h₂ hok
    rw [ha.1, hb] at hb'
    rw [Option.some.inj hb']
    exact hbody
  diff s w x w' ha hs := by
    obtain ⟨-, ha'⟩ := served_sound hs
    exact ⟨trivial, ha'.trans ((Azure.respond_pageRangesDiff _ _ _).trans ha.1), ha.2⟩

/-- A database right after `xOpen`: its blob has a content `C`, the one it had or none,
and the cache file holds it unless it was taken over from an earlier session. -/
def JustOpened (ops : AzureOps) (i : BlobId) (uri : UriParams) (w₀ : World) (p : ObjsFile)
    (w : World) : Prop :=
  p.eFileType = .mainDb ∧ p.ops = ops ∧ p.blob = i ∧ LegalPageSize p.pageSize ∧
  (∀ j, p.dirty.bit j = false) ∧ p.dirty.nSet = 0 ∧
  (pagesOf p.nData p.pageSize ≤ maxPages → pagesOf p.nData p.pageSize ≤ 8 * p.dirty.nAlloc) ∧
  ∃ fd C, p.cacheFd = some fd ∧ p.nData = C.size ∧ p.lastSyncedSize ≤ C.size ∧
    w.azure.Has i (· = C) ∧ (C = .empty ∨ w₀.azure.Has i (· = C)) ∧
    (uri.cacheReuse = false → w.disk.inode fd = C)

theorem allocates_sound : Allocates (.alone (World.served Sound)) :=
  allocates_alone fun _ hc => hc.2

theorem wp_sqliteObjsOpen_sound (hmode : uri.prefetch = .all)
    (hsel : selectedOps v uri = some (ops, ctx)) (hops : ops.Complete) :
    wp (.alone (World.served Sound)) (sqliteObjsOpen v name uri .mainDb create) (fun r w' =>
      r.1 = v ∧ ∀ p, r.2 = .ok p → JustOpened ops ⟨ctx, name⟩ uri w p w') w := by
  refine wp_sqliteObjsOpen_mainDb quiet_alone (fun _ => stable_alone) ?_ ?_
  · exact fun rc => ⟨rfl, fun p h => by cases h⟩
  intro ops' ctx' hsel'
  obtain ⟨rfl, rfl⟩ : ops = ops' ∧ ctx = ctx' := by
    rw [hsel] at hsel'
    exact Prod.mk.inj (Option.some.inj hsel')
  generalize hnew : newFile ops ctx name uri .mainDb = p₀
  have hblob : p₀.blob = ⟨ctx, name⟩ := by rw [← hnew]; rfl
  -- what every way to open hands over
  have hready : ∀ {p : ObjsFile} {fd : Fd} {C : Bytes} {e : Option ETag} {w' : World},
      Ready (.alone (World.served Sound)) { p₀ with etag := e } p fd C.size →
      w'.azure.Has ⟨ctx, name⟩ (· = C) → (C = .empty ∨ w.azure.Has ⟨ctx, name⟩ (· = C)) →
      (uri.cacheReuse = false → w'.disk.inode fd = C) →
      JustOpened ops ⟨ctx, name⟩ uri w { p with dirty := bitmapClearAll p.dirty } w' := by
    intro p fd C e w' hr hC hfrom hcache
    have honly := hr.only
    unfold OnlyCache at honly
    refine ⟨?_, ?_, ?_, hr.page, Bitmap.bit_clearAll _, rfl, ?_, fd, C, hr.cacheFd, hr.nData,
      hr.synced, hC, hfrom, hcache⟩
    · rw [honly, ← hnew]
      rfl
    · rw [honly, ← hnew]
      rfl
    · rw [← hblob, honly]
      rfl
    · rw [hr.nData, Bitmap.nAlloc_clearAll]
      exact hr.room allocates_sound
  have hk : Knows id (fun w' => w'.azure = w.azure) w.disk w := ⟨rfl, rfl⟩
  refine wp_openMainDb (fun _ _ _ => True)
    (fun _ C w' => w'.azure = w.azure ∧ w.azure.Has ⟨ctx, name⟩ (· = C))
    (fun w' => w'.azure = w.azure ∧ w.azure.blobs ⟨ctx, name⟩ = none)
    (fun w' => w'.azure.Has ⟨ctx, name⟩ (· = .empty)) seen_sound
    (fact_sound (· = w.azure)) (fact_sound fun a => a = w.azure ∧ _)
    (fact_sound fun a => a.Has ⟨ctx, name⟩ (· = .empty)) ?_ ?_ ?_ ?_ ?_ ?_ ?_ hk ?_ ?_ ?_
  · rw [← hnew]
    exact hops
  · rw [hblob]
    intro w₁ x w₂ ha hs
    obtain ⟨hx, ha'⟩ := served_sound hs
    obtain ⟨h₁, h₂, h₃⟩ := Azure.respond_getProperties w₁.azure ⟨ctx, name⟩
    have ha : w₁.azure = w.azure := ha
    have ha₂ : w₂.azure = w.azure := ha'.trans (h₁.trans ha)
    refine ⟨trivial, ha₂, fun hok => ?_⟩
    cases hb : w.azure.blobs ⟨ctx, name⟩ with
    | none =>
      rw [hx] at hok
      have := h₃ (by rw [ha]; exact hb)
      rw [show (w₁.azure.respond (.blobGetProperties ⟨ctx, name⟩)).1.err = .ok from hok] at this
      cases this
    | some b =>
      obtain ⟨-, hetag, hsize⟩ := h₂ b (by rw [ha]; exact hb)
      refine ⟨b.etag, b.content, ?_, ?_, ⟨ha₂, b, hb, rfl⟩, ?_⟩
      · rw [hx]
        exact hetag
      · rw [hx]
        exact hsize
      · exact reading_sound hb _
  · rw [hblob]
    intro w₁ x w₂ ha hs hnf
    obtain ⟨hx, ha'⟩ := served_sound hs
    obtain ⟨h₁, h₂, -⟩ := Azure.respond_getProperties w₁.azure ⟨ctx, name⟩
    have ha : w₁.azure = w.azure := ha
    refine ⟨ha'.trans (h₁.trans ha), ?_⟩
    cases hb : w.azure.blobs ⟨ctx, name⟩ with
    | none => rfl
    | some b =>
      obtain ⟨hok, -⟩ := h₂ b (by rw [ha]; exact hb)
      rw [hx] at hnf
      rw [show (w₁.azure.respond (.blobGetProperties ⟨ctx, name⟩)).1.err = .notFound from hnf]
        at hok
      cases hok
  · rw [hblob]
    rintro w₁ x w₂ ⟨ha, hnone⟩ hs
    obtain ⟨hx, ha'⟩ := served_sound hs
    rw [ha] at hx ha'
    simp only [Azure.respond, Azure.putBlob, hnone] at hx ha'
    refine ⟨trivial, fun hne => absurd (by rw [hx]; rfl) hne, fun _ => ?_⟩
    rw [ha']
    exact ⟨_, Azure.create_blobs_self _ _ _ _, SparseFile.eq_empty rfl⟩
  · rw [← hnew]
    exact hmode
  · rw [← hnew]
    exact legalPageSize_default
  · rw [← hnew]
    rfl
  · exact fun rc w' _ => wp_alone_ret.mpr ⟨rfl, fun p h => by cases h⟩
  · intro e C r w' hend
    refine wp_alone_ret.mpr ⟨rfl, fun p hp => ?_⟩
    cases r with
    | error rc => cases hp
    | ok p' =>
      obtain ⟨fd, d, hr, hkn⟩ := hend.2 p' rfl
      obtain rfl := Except.ok.inj hp
      refine hready hr ?_ (Or.inr hkn.1.1.2) fun hno => ?_
      · rw [hkn.1.1.1]
        exact hkn.1.1.2
      · rw [show w'.disk = d from hkn.2]
        exact hkn.1.2 trivial hno
  · intro p' fd d' w' hr hempty hkn
    refine wp_alone_ret.mpr ⟨rfl, fun p hp => ?_⟩
    obtain rfl := Except.ok.inj hp
    refine hready (C := .empty) (e := p₀.etag) hr hkn.1 (Or.inl rfl) fun _ => ?_
    rw [show w'.disk = d' from hkn.2]
    exact hempty

/-- A database that was just opened mirrors its blob, once the cache file does. -/
theorem JustOpened.mirrors {w₀ : World} {p : ObjsFile} (h : JustOpened ops ⟨ctx, name⟩ uri w₀ p w)
    (hops : ops.Complete) (hpages : ∀ b, w₀.azure.blobs ⟨ctx, name⟩ = some b → 512 ∣ b.content.size)
    (hsmall : pagesOf p.nData p.pageSize ≤ maxPages)
    (hreuse : uri.cacheReuse = true → CacheIsBlob p w) (eLock : LockLevel) (lease : Option LeaseId)
    (t n : Nat) :
    Mirrors { p with
      eLock := eLock, leaseId := lease, leaseAcquiredAt := t, leaseDuration := n } w := by
  obtain ⟨hkind, rfl, hblob, hpage, hclean, h0, hroom, fd, C, hfd, hn, hls, hhas, hfrom,
    hcache⟩ := h
  have hC : w.disk.inode fd = C := by
    cases hr : uri.cacheReuse with
    | false => exact hcache hr
    | true =>
      obtain ⟨fd', hfd', b, hb, heq⟩ := hreuse hr
      obtain ⟨b', hb', rfl⟩ := hhas
      rw [hblob] at hb
      obtain rfl := Option.some.inj (hb.symm.trans hb')
      obtain rfl := Option.some.inj (hfd.symm.trans hfd')
      exact heq.symm
  have haligned : 512 ∣ C.size := by
    rcases hfrom with rfl | ⟨b, hb, rfl⟩
    · exact Nat.dvd_zero 512
    · exact hpages b hb
  refine ⟨hkind, hops, fd, hfd, ?_⟩
  rw [hC]
  obtain ⟨b, hb, rfl⟩ := hhas
  refine ⟨b, by rw [← hblob] at hb; exact hb, ?_⟩
  refine Mirror.of_eq hpage hn.symm ?_ (by rw [hn]; exact hls) (hroom hsmall) ?_ hsmall
  · rw [hn]
    exact haligned
  · exact ⟨by rw [h0], fun _ => hclean⟩

end Open

section Main

variable {v v₁ v' : VfsData} {uri : UriParams} {name : String} {create : Bool} {ops : AzureOps}
  {ctx : Nat} {p₁ p p' : ObjsFile} {w₀ w₁ w w' : World}

/-- A sync that returns `SQLITE_OK` is durable, in every state that writes, truncates and
syncs lead to, whatever lock the file holds and however earlier syncs failed. -/
theorem synced_db_durable (hmode : uri.prefetch = .all)
    (hsel : selectedOps v uri = some (ops, ctx)) (hops : ops.Complete)
    (hpages : ∀ b, w₀.azure.blobs ⟨ctx, name⟩ = some b → 512 ∣ b.content.size)
    (hopen : Runs (World.served Sound) (sqliteObjsOpen v name uri .mainDb create) w₀
      (v₁, .ok p₁) w₁)
    (hsmall : pagesOf p₁.nData p₁.pageSize ≤ maxPages)
    (hreuse : uri.cacheReuse = true → CacheIsBlob p₁ w₁)
    {eLock : LockLevel} {lease : Option LeaseId} {t n : Nat}
    (hreach : (boundedSession v).Reach { p₁ with
      eLock := eLock, leaseId := lease, leaseAcquiredAt := t, leaseDuration := n } w₁ p w)
    (hsync : Runs ((dbSession v).serve .sync p) (sqliteObjsSync v p) w (v', p', .ok) w') :
    Durable p' w' := by
  obtain ⟨-, hopened⟩ := wp_alone_iff.mp (wp_sqliteObjsOpen_sound hmode hsel hops) _ _ hopen
  have hstart := (hopened p₁ rfl).mirrors hops hpages hsmall hreuse eLock lease t n
  have hi := hstart.reach hreach
  have hr : Runs ((boundedSession v).serve .sync p) (sqliteObjsSync v p) w (v', p', .ok) w' :=
    hsync.mono fun r w x w' hs => ⟨hs, by unfold DbCall.allocates; trivial⟩
  exact (wp_alone_iff.mp hi.wp_sync _ _ hr).2 rfl

/-- An answer that is not a failure. -/
def flawless : (r : Req) → Ans r → Bool
  | .azure _, x => x.err == .ok
  | .sys _, x => x.ok

/-- A concrete run all of whose answers are successes. -/
theorem runs_flawless {α : Type} {m : Prog α} {a : α} {c : DbCall} (n : Nat)
    (h : exec (fun ch r w => (World.respond ch r w).filter fun xw => flawless r xw.1)
      (List.replicate n {}) m w = some (a, w')) :
    Runs ((boundedSession v).serve c p) m w a w' := by
  refine Runs.mono ?_ (Program.runs_of_exec _ (fun ch hch => show Sound ch from ?_) h)
  · rintro r w x w' ⟨ch, hok, hs⟩
    obtain ⟨hs, hflaw⟩ := Option.filter_eq_some_iff.mp hs
    refine ⟨⟨⟨ch, ?_, hs⟩, ?_⟩, ?_⟩
    · cases r with
      | azure r => exact fun _ => hok.1
      | sys r => exact fun _ => hok.2
    · unfold renewalAccepted
      split
      · exact of_decide_eq_true hflaw
      · trivial
    · unfold DbCall.allocates
      split
      · exact hflaw
      · trivial
  · rw [List.eq_of_mem_replicate hch]
    exact ⟨rfl, rfl⟩

theorem runs_sound {α : Type} {m : Prog α} {a : α} (n : Nat)
    (h : exec World.respond (List.replicate n {}) m w = some (a, w')) :
    Runs (World.served Sound) m w a w' :=
  Program.runs_of_exec _ (fun c hc => by rw [List.eq_of_mem_replicate hc]; exact ⟨rfl, rfl⟩) h

set_option maxRecDepth 8000 in
/-- A new database, one write and a sync. -/
theorem synced_db_durable_new : ∃ p₁ w₁ p w p' w',
    Runs (World.served Sound) (sqliteObjsOpen (.new 0) "db" {} .mainDb true) .new
      (.new 0, .ok p₁) w₁ ∧
    (boundedSession (.new 0)).Reach p₁ w₁ p w ∧
    Runs ((dbSession (.new 0)).serve .sync p) (sqliteObjsSync (.new 0) p) w (.new 0, p', .ok) w' ∧
    Durable p' w' := by
  obtain ⟨p₁, w₁, p, w, p', w', hopen, hsmall, hreach, hsync⟩ : ∃ p₁ w₁ p w p' w',
      Runs (World.served Sound) (sqliteObjsOpen (.new 0) "db" {} .mainDb true) .new
        (.new 0, .ok p₁) w₁ ∧ pagesOf p₁.nData p₁.pageSize ≤ maxPages ∧
      (boundedSession (.new 0)).Reach p₁ w₁ p w ∧
      Runs ((boundedSession (.new 0)).serve .sync p) (sqliteObjsSync (.new 0) p) w
        (.new 0, p', .ok) w' :=
    ⟨_, _, _, _, _, _, runs_sound 5 rfl, by decide,
      .call (.write (SparseFile.empty.truncate 512) 0) .refl
        ⟨⟨by decide, by decide, by decide⟩, show pagesOf _ _ ≤ maxPages by decide⟩
        (runs_flawless 4 rfl) trivial,
      runs_flawless 5 rfl⟩
  have hsync' : Runs ((dbSession (.new 0)).serve .sync p) (sqliteObjsSync (.new 0) p) w
      (.new 0, p', .ok) w' := hsync.mono fun _ _ _ _ h => h.1
  exact ⟨p₁, w₁, p, w, p', w', hopen, hreach, hsync', synced_db_durable rfl rfl
    complete_production (fun b hb => by simp [World.new] at hb) hopen hsmall (fun h => by cases h)
    hreach hsync'⟩

/-- A database of one sector with 512-byte pages. -/
def smallPageDb : Bytes := SparseFile.ofFn 512 fun i => (sqliteMagic ++ [2, 0])[i]?.getD 0

/-- An account with that database. -/
def smallPageWorld : World :=
  { World.new with azure := World.new.azure.create ⟨0, "db"⟩ smallPageDb }

set_option maxRecDepth 8000 in
/-- A write one tebibyte into a database with 512-byte pages: its page number does not fit
an `int`, no page is marked, and the sync returns `SQLITE_OK` without a request. -/
theorem write_past_bitmap_lost : ∃ p₁ w₁ p w,
    Runs (World.served Sound) (sqliteObjsOpen (.new 0) "db" {} .mainDb false) smallPageWorld
      (.new 0, .ok p₁) w₁ ∧
    (dbSession (.new 0)).Reach p₁ w₁ p w ∧
    Runs ((dbSession (.new 0)).serve .sync p) (sqliteObjsSync (.new 0) p) w (.new 0, p, .ok) w ∧
    p.nData = 2 ^ 40 + 512 ∧ (w.azure.contentOf p.blob).size = 512 ∧ ¬ Durable p w := by
  obtain ⟨p₁, w₁, p, w, hopen, hwrite, hsync, hn, hsize⟩ : ∃ p₁ w₁ p w,
      Runs (World.served Sound) (sqliteObjsOpen (.new 0) "db" {} .mainDb false) smallPageWorld
        (.new 0, .ok p₁) w₁ ∧
      Runs ((boundedSession (.new 0)).serve (.write (SparseFile.empty.truncate 512) (2 ^ 40)) p₁)
        ((dbSession (.new 0)).code (.write (SparseFile.empty.truncate 512) (2 ^ 40)) p₁) w₁ p w ∧
      Runs ((boundedSession (.new 0)).serve .sync p) (sqliteObjsSync (.new 0) p) w
        (.new 0, p, .ok) w ∧
      p.nData = 2 ^ 40 + 512 ∧ (w.azure.contentOf p.blob).size = 512 :=
    ⟨_, _, _, _, runs_sound 11 rfl, runs_flawless 3 rfl, runs_flawless 0 rfl, rfl, rfl⟩
  refine ⟨p₁, w₁, p, w, hopen,
    .call (.write (SparseFile.empty.truncate 512) (2 ^ 40)) .refl ⟨by decide, by decide, by decide⟩
    (hwrite.mono fun _ _ _ _ h => h.1) trivial, hsync.mono fun _ _ _ _ h => h.1, hn, hsize, ?_⟩
  rintro ⟨⟨fd, b, -, hb, hbsize, -⟩, -, -⟩
  have hcontent : w.azure.contentOf p.blob = b.content := by
    unfold Azure.contentOf
    rw [hb]
  rw [hcontent, hbsize, hn] at hsize
  omega

end Main
end SqliteObjs
