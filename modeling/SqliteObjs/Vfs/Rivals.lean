import SqliteObjs.CS.Simulation
import SqliteObjs.Vfs.Exclusion
import SqliteObjs.MainDb.Download

/-!
# Rivals

The other clients send any requests but present none of the lease ids that are `mine`, and are
handed none of them; leases run out. Between any two requests of a client they may make any
number of such moves, and the client's own requests and system calls fail as they like.

Two facts survive their moves: what content a version has (`Version`), and that a blob whose lease
is still mine is still of the version it had (`Guarded`).
-/

set_option autoImplicit false

namespace SqliteObjs

open Data CS CS.Program

/-- A move of another client, or of time. -/
inductive RivalMove (mine : LeaseId → Prop) (a : Azure) : Azure → Prop
  | request {c : Choice} {r : AzReq} {x : AzReply} {a' : Azure} :
      (∀ id, r.presents = some id → ¬ mine id) →
      (∀ b n, r = .leaseAcquire b n → ¬ mine a.nextLease) →
      a.serve c r = some (x, a') → RivalMove mine a a'
  | expire (j : BlobId) : RivalMove mine a (a.expire j)

/-- Content `C` belongs to version `e` of the blob, which is not a version of the future. -/
def Azure.Version (a : Azure) (i : BlobId) (e : ETag) (C : Bytes) : Prop :=
  e < a.nextETag ∧ ∀ b, a.blobs i = some b → b.etag = e → b.content = C

/-- The ETag of the blob was given out. -/
def Azure.Issued (a : Azure) (i : BlobId) : Prop :=
  ∀ b, a.blobs i = some b → b.etag < a.nextETag

/-- The blob is of version `e`. -/
def Azure.IsAt (a : Azure) (i : BlobId) (e : ETag) : Prop :=
  ∃ b, a.blobs i = some b ∧ b.etag = e

/-- While the lease is active the blob is of version `e`. -/
def Azure.Guarded (a : Azure) (i : BlobId) (id : LeaseId) (e : ETag) : Prop :=
  ∀ b, a.blobs i = some b → b.lease = .active id → b.etag = e

namespace Azure

variable {a a' : Azure} {i : BlobId} {e : ETag} {C : Bytes} {id : LeaseId} {r : AzReq}
  {mine : LeaseId → Prop}

theorem Version.advance (h : a.Version i e C) (ha : a.Advances a' i) : a'.Version i e C := by
  refine ⟨Nat.lt_of_lt_of_le h.1 ha.mono, fun b' hb' he => ?_⟩
  rcases ha.version b' hb' with ⟨b, hb, het, hc⟩ | ⟨het, -⟩
  · rw [hc]
    exact h.2 b hb (het.symm.trans he)
  · -- a new version has an ETag that was not given yet
    have hnew : e = a.nextETag := he.symm.trans het
    have hlt : e < a.nextETag := h.1
    rw [hnew] at hlt
    exact absurd hlt (Nat.lt_irrefl _)

theorem Issued.advance (h : a.Issued i) (ha : a.Advances a' i) : a'.Issued i := by
  intro b' hb'
  rcases ha.version b' hb' with ⟨b, hb, het, -⟩ | ⟨het, hnext⟩
  · rw [het]
    exact Nat.lt_of_lt_of_le (h b hb) ha.mono
  · rw [het]
    exact hnext

/-- A version that was replaced never comes back. -/
theorem IsAt.before (h : a'.IsAt i e) (ha : a.Advances a' i) (hlt : e < a.nextETag) :
    a.IsAt i e := by
  obtain ⟨b', hb', rfl⟩ := h
  rcases ha.version b' hb' with ⟨b, hb, het, -⟩ | ⟨het, -⟩
  · exact ⟨b, hb, het.symm⟩
  · rw [het] at hlt
    exact absurd hlt (Nat.lt_irrefl _)

theorem guarded_of_isAt (h : a.IsAt i e) : a.Guarded i id e := by
  intro b hb _
  obtain ⟨b', hb', rfl⟩ := h
  rw [Option.some.inj (hb.symm.trans hb')]

theorem version_of_blob {b : Blob} (hb : a.blobs i = some b) (hlt : b.etag < a.nextETag) :
    a.Version i b.etag b.content := by
  refine ⟨hlt, fun b' hb' _ => ?_⟩
  rw [hb] at hb'
  rw [Option.some.inj hb']

theorem advances_expire (a : Azure) (i j : BlobId) : a.Advances (a.expire j) i := by
  unfold expire
  split
  · exact advances_refl a i
  next b hb =>
  split
  · exact advances_set a hb rfl rfl
  · exact advances_refl a i

theorem advances_serve {c : Choice} {x : AzReply} (h : a.serve c r = some (x, a')) (i : BlobId) :
    a.Advances a' i := by
  rcases serve_cases h with ⟨-, rfl⟩ | ⟨-, rfl, -⟩
  · exact advances_refl _ i
  · exact advances_respond a r i

/-! ## Who may activate a lease -/

theorem leaseAfterChange_active {b : Blob} (h : b.leaseAfterChange = .active id) :
    b.lease = .active id := by
  unfold Blob.leaseAfterChange at h
  split at h
  · next id' hl => rw [hl, ← h]
  · cases h

/-- The blob was leased under `id` before it is found so. -/
def WasLeased (a a' : Azure) (i : BlobId) (id : LeaseId) : Prop :=
  ∀ b', a'.blobs i = some b' → b'.lease = .active id →
    ∃ b, a.blobs i = some b ∧ b.lease = .active id

theorem wasLeased_refl (a : Azure) (i : BlobId) (id : LeaseId) : WasLeased a a i id :=
  fun b' hb' hl => ⟨b', hb', hl⟩

theorem wasLeased_set {j : BlobId} {b : Blob} (b' : Blob) (hb : a.blobs j = some b)
    (hl : b'.lease = .active id → b.lease = .active id) : WasLeased a (a.set j (some b')) i id := by
  intro x hx hxl
  by_cases hij : i = j
  · subst hij
    rw [set_blobs_self] at hx
    obtain rfl := Option.some.inj hx
    exact ⟨b, hb, hl hxl⟩
  · rw [set_blobs_ne _ _ hij] at hx
    exact ⟨x, hx, hxl⟩

theorem wasLeased_change {j : BlobId} {b : Blob} (hb : a.blobs j = some b) (c : Bytes)
    (m : Nat → Option Bytes) : WasLeased a (a.change j b c m) i id :=
  fun x hx hl => wasLeased_set _ hb leaseAfterChange_active x hx hl

theorem wasLeased_create {j : BlobId} (c : Bytes) (m : Nat → Option Bytes) :
    WasLeased a (a.create j c m) i id := by
  intro x hx hl
  by_cases hij : i = j
  · subst hij
    rw [create_blobs_self] at hx
    obtain rfl := Option.some.inj hx
    cases hl
  · simp only [create] at hx
    rw [set_blobs_ne _ _ hij] at hx
    exact ⟨x, hx, hl⟩

theorem wasLeased_delete (j : BlobId) : WasLeased a (a.set j none) i id := by
  intro x hx hl
  by_cases hij : i = j
  · subst hij
    rw [set_blobs_self] at hx
    cases hx
  · rw [set_blobs_ne _ _ hij] at hx
    exact ⟨x, hx, hl⟩

theorem wasLeased_putBlob {j : BlobId} (c : Bytes) (m : Nat → Option Bytes) :
    WasLeased a (a.putBlob j c m).2 i id := by
  unfold putBlob
  split
  · exact wasLeased_create c m
  · next b hb =>
    split
    · exact wasLeased_change hb c m
    · exact wasLeased_refl a i id

/-- Only an acquisition or a renewal makes a lease active. -/
theorem wasLeased_respond (hr : r.presents ≠ some id)
    (hnew : ∀ b n, r = .leaseAcquire b n → a.nextLease ≠ id) :
    WasLeased a (a.respond r).2 i id := by
  cases r with
  | blobGetProperties j | blobGetPageRangesDiff j _ | blockBlobDownload j =>
    simp only [respond]
    split <;> exact wasLeased_refl a i id
  | pageBlobRead j o n =>
    simp only [respond]
    split
    · exact wasLeased_refl a i id
    split
    · exact wasLeased_refl a i id
    split <;> exact wasLeased_refl a i id
  | putBlock j k d => exact wasLeased_refl a i id
  | pageBlobCreate j n =>
    simp only [respond]
    split
    · exact wasLeased_refl a i id
    · exact wasLeased_putBlob _ _
  | blockBlobUpload j d => exact wasLeased_putBlob d _
  | putBlockList j ids =>
    simp only [respond]
    split
    · exact wasLeased_refl a i id
    split
    · exact wasLeased_refl a i id
    · exact wasLeased_putBlob _ _
  | pageBlobWrite j o d l m =>
    simp only [respond]
    split
    · exact wasLeased_refl a i id
    split
    · exact wasLeased_refl a i id
    next b hb =>
    split
    · exact wasLeased_refl a i id
    split
    · exact wasLeased_refl a i id
    split
    · exact wasLeased_refl a i id
    · exact wasLeased_change hb _ _
  | pageBlobResize j n l =>
    simp only [respond]
    split
    · exact wasLeased_refl a i id
    split
    · exact wasLeased_refl a i id
    next b hb =>
    split
    · exact wasLeased_refl a i id
    · exact wasLeased_change hb _ _
  | blobDelete j =>
    simp only [respond]
    split
    · exact wasLeased_refl a i id
    split
    · exact wasLeased_delete j
    · exact wasLeased_refl a i id
  | leaseAcquire j n =>
    simp only [respond]
    split
    · exact wasLeased_refl a i id
    next b hb =>
    split
    · exact wasLeased_refl a i id
    · refine fun x hx hl => wasLeased_set { b with lease := .active a.nextLease } hb ?_ x hx hl
      exact fun h => absurd (Lease.active.inj h) (hnew j n rfl)
  | leaseRenew j k =>
    simp only [respond]
    split
    · exact wasLeased_refl a i id
    next b hb =>
    split
    · refine wasLeased_set { b with lease := .active k } hb fun h => ?_
      exact absurd (congrArg some (Lease.active.inj h)) hr
    · exact wasLeased_refl a i id
  | leaseRelease j k =>
    simp only [respond]
    split
    · exact wasLeased_refl a i id
    next b hb =>
    split
    · exact wasLeased_set { b with lease := .available } hb fun h => by cases h
    · exact wasLeased_refl a i id
  | blobSnapshotCreate j =>
    simp only [respond]
    split
    · exact wasLeased_refl a i id
    next b hb =>
    exact fun x hx hl => wasLeased_set { b with
      snapshots := Function.update b.snapshots a.nextSnapshot (some b.etag) } hb
      (fun h => h) x hx hl

/-- A lease that is not presented guards the version of its blob. -/
theorem Guarded.respond (h : a.Guarded i id e) (hr : r.presents ≠ some id)
    (hnew : ∀ b n, r = .leaseAcquire b n → a.nextLease ≠ id) : (a.respond r).2.Guarded i id e := by
  intro b' hb' hl'
  obtain ⟨b, hb, hl⟩ := wasLeased_respond hr hnew b' hb' hl'
  obtain ⟨b₁, hb₁, -, he, -⟩ := respond_leased hb hl hr
  rw [hb'] at hb₁
  rw [Option.some.inj hb₁, he]
  exact h b hb hl

theorem Guarded.serve (h : a.Guarded i id e) {c : Choice} {x : AzReply}
    (hs : a.serve c r = some (x, a')) (hr : r.presents ≠ some id)
    (hnew : ∀ b n, r = .leaseAcquire b n → a.nextLease ≠ id) : a'.Guarded i id e := by
  rcases serve_cases hs with ⟨-, rfl⟩ | ⟨-, rfl, -⟩
  · exact h
  · exact h.respond hr hnew

theorem Guarded.expire (h : a.Guarded i id e) (j : BlobId) : (a.expire j).Guarded i id e := by
  unfold Azure.expire
  split
  · exact h
  next b hb =>
  split
  · intro b' hb' hl'
    by_cases hij : i = j
    · subst hij
      rw [set_blobs_self] at hb'
      obtain rfl := Option.some.inj hb'
      cases hl'
    · rw [set_blobs_ne _ _ hij] at hb'
      exact h b' hb' hl'
  · exact h

end Azure

section Moves

variable {mine : LeaseId → Prop} {a a' : Azure}

theorem RivalMove.advances (h : RivalMove mine a a') (i : BlobId) : a.Advances a' i := by
  cases h with
  | request _ _ hs => exact Azure.advances_serve hs i
  | expire j => exact Azure.advances_expire a i j

/-- The rivals do not get past a lease of mine. -/
theorem RivalMove.guarded (hm : RivalMove mine a a') {i : BlobId} {id : LeaseId} {e : ETag}
    (hid : mine id) (h : a.Guarded i id e) : a'.Guarded i id e := by
  cases hm with
  | request hr hnew hs =>
    exact h.serve hs (fun he => hr id he hid) fun b n hq he => hnew b n hq (he ▸ hid)
  | expire j => exact h.expire j

end Moves

/-! ## The setting -/

/-- The lease ids the client is handed are its own. -/
def HandsOut (mine : LeaseId → Prop) : (r : Req) → Ans r → Prop
  | .azure (.leaseAcquire _ _), x => x.err = .ok → mine x.leaseId
  | _, _ => True

/-- A client among rivals. -/
def amongRivals (mine : LeaseId → Prop) : Setting World Ans where
  rely w w' := w'.disk = w.disk ∧ Relation.ReflTransGen (RivalMove mine) w.azure w'.azure
  serve r w x w' := World.served (fun _ => True) r w x w' ∧ HandsOut mine r x
  guar _ _ := True
  rely_refl _ := ⟨rfl, .refl⟩
  rely_trans h h' := ⟨h'.1.trans h.1, h.2.trans h'.2⟩

section Setting

variable {mine : LeaseId → Prop}

theorem seen_amongRivals : Seen (amongRivals mine) id fun _ _ => True where
  rely_disk _ _ h := h.1
  serve _ _ _ _ hs := hs.1
  guar_sys _ _ _ _ _ := trivial
  quiet r hr w x w' hs := quiet_alone r hr w x w' hs.1

variable {i : BlobId} {e : ETag} {C : Bytes} {id : LeaseId}

/-- What the rivals' moves keep is a fact. -/
theorem fact_amongRivals {P : Azure → Prop} (h : ∀ a a', RivalMove mine a a' → P a → P a') :
    Fact (amongRivals mine) fun w => P w.azure where
  stable w w' hw hP := by
    obtain ⟨-, hmoves⟩ := hw
    generalize w'.azure = a' at hmoves ⊢
    induction hmoves with
    | refl => exact hP
    | tail _ hm ih => exact h _ _ hm ih
  sys r w x w' hs hP := by
    obtain ⟨c, -, -, rfl⟩ := served_sys hs.1
    exact hP

theorem fact_version (i : BlobId) (e : ETag) (C : Bytes) :
    Fact (amongRivals mine) fun w => w.azure.Version i e C :=
  fact_amongRivals (P := fun a => a.Version i e C) fun _ _ hm h => h.advance (hm.advances i)

theorem fact_issued (i : BlobId) : Fact (amongRivals mine) fun w => w.azure.Issued i :=
  fact_amongRivals (P := fun a => a.Issued i) fun _ _ hm h => h.advance (hm.advances i)

theorem served_rivals {r : AzReq} {w w' : World} {x : AzReply}
    (h : (amongRivals mine).serve (.azure r) w x w') :
    ∃ c, w.azure.serve c r = some (x, w'.azure) := by
  obtain ⟨⟨c, -, hs⟩, -⟩ := h
  exact ⟨c, respond_azure hs⟩

/-- The client's own requests make no old version either. -/
theorem advances_own {r : AzReq} {w w' : World} {x : AzReply}
    (h : (amongRivals mine).serve (.azure r) w x w') (i : BlobId) :
    w.azure.Advances w'.azure i := by
  obtain ⟨c, hs⟩ := served_rivals h
  exact Azure.advances_serve hs i

/-- A `HEAD` that succeeds tells the version and the size. -/
theorem head_rivals {w w' : World} {x : AzReply}
    (h : (amongRivals mine).serve (.azure (.blobGetProperties i)) w x w') :
    w'.azure = w.azure ∧ (x.err = .ok →
      ∃ b, w.azure.blobs i = some b ∧ x.etag = some b.etag ∧ x.size = b.content.size) := by
  obtain ⟨c, hs⟩ := served_rivals h
  obtain ⟨hsame, hthere, hgone⟩ := Azure.respond_getProperties w.azure i
  rcases Azure.serve_cases hs with ⟨hno, ha⟩ | ⟨hok, ha, hx, -⟩
  · exact ⟨ha, fun he => absurd he hno⟩
  · refine ⟨ha.trans hsame, fun he => ?_⟩
    have hx := hx he
    cases hb : w.azure.blobs i with
    | none =>
      rw [hgone hb] at hok
      cases hok
    | some b =>
      obtain ⟨-, het, hsize⟩ := hthere b hb
      rw [hx]
      exact ⟨b, rfl, het, hsize⟩

/-- A lease that is acquired is new, and what comes with it is the version of the leased blob. -/
theorem acquire_rivals {n : Nat} {w w' : World} {x : AzReply}
    (h : (amongRivals mine).serve (.azure (.leaseAcquire i n)) w x w') (hx : x.err = .ok) :
    mine x.leaseId ∧ ∀ e, x.etag = some e → w'.azure.Guarded i x.leaseId e := by
  refine ⟨h.2 hx, fun e he => Azure.guarded_of_isAt ?_⟩
  obtain ⟨c, hs⟩ := served_rivals h
  rcases Azure.serve_cases hs with ⟨hno, -⟩ | ⟨hok, ha, heq, -⟩
  · exact absurd hx hno
  have het : (w.azure.respond (.leaseAcquire i n)).1.etag = some e := by
    rw [heq hx] at he
    exact he
  rw [ha]
  revert hok het
  simp only [Azure.respond]
  split
  · intro hok
    cases hok
  next b hb =>
  split
  · intro hok
    cases hok
  · exact fun _ het => ⟨_, Azure.set_blobs_self _ _ _, Option.some.inj het⟩

/-- Reading among rivals, with whatever else their moves keep. -/
theorem reading_rivals {P : Azure → Prop} (hP : ∀ a a', RivalMove mine a a' → P a → P a')
    (i : BlobId) (e : ETag) (C : Bytes) :
    Reading (amongRivals mine) i (fun w => w.azure.Version i e C ∧ P w.azure)
      (fun w => w.azure.IsAt i e) C where
  fact := (fact_version i e C).and (fact_amongRivals hP)
  rely w w' hw hB hc := by
    obtain ⟨-, hmoves⟩ := hw
    generalize w'.azure = a' at hmoves hc
    have hback : a'.Version i e C ∧ (a'.IsAt i e → w.azure.IsAt i e) := by
      clear hc
      induction hmoves with
      | refl => exact ⟨hB.1, fun hc => hc⟩
      | tail _ hm ih =>
        have ha := hm.advances i
        exact ⟨ih.1.advance ha, fun hc => ih.2 (hc.before ha ih.1.1)⟩
    exact hback.2 hc
  sys r w x w' hs _ hc := by
    obtain ⟨c, -, -, rfl⟩ := served_sys hs.1
    exact hc
  read off len w x w' hB hs := by
    obtain ⟨c, hs⟩ := served_rivals hs
    obtain ⟨hsame, hbody⟩ := Azure.respond_pageBlobRead w.azure i off len
    have ha : w'.azure = w.azure := by
      rcases Azure.serve_cases hs with ⟨-, ha⟩ | ⟨-, ha, -⟩
      · exact ha
      · exact ha.trans hsame
    refine ⟨trivial, by rw [ha]; exact hB, by rw [ha]; exact id, fun hok hc => ?_⟩
    rcases Azure.serve_cases hs with ⟨hno, -⟩ | ⟨hr, -, hx, -⟩
    · exact absurd hok hno
    obtain ⟨b, hb, hslice⟩ := hbody hr
    obtain ⟨b', hb', he⟩ := hc
    obtain rfl := Option.some.inj (hb.symm.trans hb')
    rw [hx hok, ← hB.1.2 b hb he]
    exact hslice
  diff s w x w' hB hs := by
    obtain ⟨c, hs⟩ := served_rivals hs
    have ha : w'.azure = w.azure := by
      rcases Azure.serve_cases hs with ⟨-, ha⟩ | ⟨-, ha, -⟩
      · exact ha
      · exact ha.trans (Azure.respond_pageRangesDiff _ _ _)
    exact ⟨trivial, by rw [ha]; exact hB⟩

end Setting
end SqliteObjs
