import SqliteObjs.Azure.Service

/-!
# What requests do to a blob

A request is refused and changes nothing, or it is accepted. A fault of the network adds
that it may be accepted without the answer (`Azure.serve_cases`). What an accepted
request does is said in one lemma for each request a client makes about its database.
-/

set_option autoImplicit false

namespace SqliteObjs

namespace Azure

variable {a a' : Azure} {i : BlobId} {b : Blob} {x : AzReply} {c : Choice} {r : AzReq}

/-- A refused request changes nothing. -/
theorem respond_refused (a : Azure) (r : AzReq) (h : (a.respond r).1.err ≠ .ok) :
    (a.respond r).2 = a := by
  have hput : ∀ {i : BlobId} (d : Bytes) (blocks : Nat → Option Bytes),
      (a.putBlob i d blocks).1.err ≠ .ok → (a.putBlob i d blocks).2 = a := by
    intro i d blocks h
    unfold putBlob at h ⊢
    split
    · next hb => simp [hb] at h
    next b hb =>
    simp only [hb] at h
    split
    · next hadm => simp [hadm] at h
    · rfl
  revert h
  cases r <;> simp only [respond] <;>
    first
    | exact fun _ => rfl
    | exact hput _ _
    | (repeat' split) <;>
      first | exact fun _ => rfl | exact hput _ _ | exact fun h => absurd rfl h

/-- Without a fault the answer is the service's; of a page diff that is all but the
ranges. -/
theorem serve_healthy (hf : c.fault = none) (h : a.serve c r = some (x, a')) :
    a' = (a.respond r).2 ∧ x = { (a.respond r).1 with ranges := x.ranges } := by
  unfold serve at h
  rw [hf] at h
  dsimp only at h
  generalize a.respond r = xa at h ⊢
  split at h
  · obtain ⟨rfl, rfl⟩ := Prod.mk.inj (Option.some.inj h)
    exact ⟨rfl, rfl⟩
  · obtain rfl := Option.some.inj h
    exact ⟨rfl, rfl⟩

/-- A request was refused, or accepted. Without a fault the answer says which. -/
theorem serve_cases (h : a.serve c r = some (x, a')) :
    (x.err ≠ .ok ∧ a' = a) ∨
    ((a.respond r).1.err = .ok ∧ a' = (a.respond r).2 ∧
      (x.err = .ok → x = { (a.respond r).1 with ranges := x.ranges }) ∧
      (c.fault = none → x.err = .ok)) := by
  cases hf : c.fault with
  | none =>
    obtain ⟨ha, hx⟩ := serve_healthy hf h
    by_cases hr : (a.respond r).1.err = .ok
    · exact Or.inr ⟨hr, ha, fun _ => hx, fun _ => by rw [hx]; exact hr⟩
    · exact Or.inl ⟨by rw [hx]; exact hr, ha.trans (respond_refused a r hr)⟩
  | some f =>
    obtain ⟨e, applied⟩ := f
    simp only [serve, hf] at h
    split at h
    · cases h
    next he =>
    obtain ⟨rfl, rfl⟩ := Prod.mk.inj (Option.some.inj h)
    cases applied with
    | false => exact Or.inl ⟨he, rfl⟩
    | true =>
      by_cases hr : (a.respond r).1.err = .ok
      · exact Or.inr ⟨hr, rfl, fun h => absurd h he, fun hn => by cases hn⟩
      · exact Or.inl ⟨he, respond_refused a r hr⟩

/-! ## Requests that only tell -/

theorem respond_getProperties (a : Azure) (i : BlobId) :
    (a.respond (.blobGetProperties i)).2 = a ∧
    (∀ b, a.blobs i = some b → (a.respond (.blobGetProperties i)).1.err = .ok ∧
      (a.respond (.blobGetProperties i)).1.etag = some b.etag ∧
      (a.respond (.blobGetProperties i)).1.size = b.content.size) ∧
    (a.blobs i = none → (a.respond (.blobGetProperties i)).1.err = .notFound) := by
  simp only [respond]
  split
  · next h =>
    refine ⟨rfl, fun b hb => ?_, fun _ => rfl⟩
    rw [h] at hb
    cases hb
  · next b h =>
    refine ⟨rfl, fun b' hb => ?_, fun hb => by rw [h] at hb; cases hb⟩
    rw [h] at hb
    obtain rfl := Option.some.inj hb
    exact ⟨rfl, rfl, rfl⟩

theorem respond_pageBlobRead (a : Azure) (i : BlobId) (off len : Nat) :
    (a.respond (.pageBlobRead i off len)).2 = a ∧
    ((a.respond (.pageBlobRead i off len)).1.err = .ok → ∃ b, a.blobs i = some b ∧
      (a.respond (.pageBlobRead i off len)).1.body = b.content.slice off len) := by
  simp only [respond]
  split
  · exact ⟨rfl, fun h => by simp at h⟩
  split
  · exact ⟨rfl, fun h => by simp at h⟩
  next b hb =>
  split
  · exact ⟨rfl, fun h => by simp at h⟩
  · exact ⟨rfl, fun _ => ⟨b, hb, rfl⟩⟩

theorem respond_pageRangesDiff (a : Azure) (i : BlobId) (s : Snapshot) :
    (a.respond (.blobGetPageRangesDiff i s)).2 = a := by
  simp only [respond]
  split <;> rfl

/-! ## Changes -/

theorem respond_pageBlobWrite (hb : a.blobs i = some b) {off : Nat} {data : Bytes}
    {lease : Option LeaseId} {ifMatch : Option ETag}
    (h : (a.respond (.pageBlobWrite i off data lease ifMatch)).1.err = .ok) :
    b.admits lease = true ∧ (∀ e, ifMatch = some e → e = b.etag) ∧
      off + data.size ≤ b.content.size ∧
      (a.respond (.pageBlobWrite i off data lease ifMatch)).1.etag = some a.nextETag ∧
      (a.respond (.pageBlobWrite i off data lease ifMatch)).2 =
        a.change i b (b.content.pwrite off data) := by
  revert h
  simp only [respond, hb]
  split
  · exact fun h => by simp at h
  split
  · exact fun h => by simp at h
  next hadm =>
  split
  · exact fun h => by simp at h
  next hmatch =>
  split
  · exact fun h => by simp at h
  next hsize =>
  refine fun _ => ⟨by simpa using hadm, ?_, by omega, rfl, rfl⟩
  rintro e rfl
  simpa using hmatch

theorem respond_pageBlobResize (hb : a.blobs i = some b) {size : Nat} {lease : Option LeaseId}
    (h : (a.respond (.pageBlobResize i size lease)).1.err = .ok) :
    b.admits lease = true ∧ (a.respond (.pageBlobResize i size lease)).1.etag = some a.nextETag ∧
      (a.respond (.pageBlobResize i size lease)).2 = a.change i b (b.content.truncate size) := by
  revert h
  simp only [respond, hb]
  split
  · exact fun h => by simp at h
  split
  · exact fun h => by simp at h
  next hadm => exact fun _ => ⟨by simpa using hadm, rfl, rfl⟩

/-! ## Leases and snapshots -/

theorem respond_leaseRenew (hb : a.blobs i = some b) {id : LeaseId}
    (h : (a.respond (.leaseRenew i id)).1.err = .ok) :
    b.holds id = true ∧ (a.respond (.leaseRenew i id)).2 =
      a.set i (some { b with lease := .active id }) := by
  revert h
  simp only [respond, hb]
  split
  · next hh => exact fun _ => ⟨hh, rfl⟩
  · exact fun h => by simp at h

theorem respond_snapshotCreate (hb : a.blobs i = some b) :
    ∃ s, (a.respond (.blobSnapshotCreate i)).2.blobs i = some { b with snapshots := s } := by
  simp only [respond, hb]
  exact ⟨_, set_blobs_self a i _⟩

/-! ## Versions -/

/-- ETags are not used twice: a step leaves a blob's version alone, or stores one under the
next ETag. -/
structure Advances (a a' : Azure) (i : BlobId) : Prop where
  mono : a.nextETag ≤ a'.nextETag
  version : ∀ b', a'.blobs i = some b' →
    (∃ b, a.blobs i = some b ∧ b'.etag = b.etag ∧ b'.content = b.content) ∨
      (b'.etag = a.nextETag ∧ a.nextETag < a'.nextETag)

theorem advances_refl (a : Azure) (i : BlobId) : Advances a a i :=
  ⟨Nat.le_refl _, fun b hb => .inl ⟨b, hb, rfl, rfl⟩⟩

theorem advances_set (a : Azure) {i j : BlobId} {b b' : Blob} (hb : a.blobs j = some b)
    (he : b'.etag = b.etag) (hc : b'.content = b.content) : Advances a (a.set j (some b')) i := by
  refine ⟨Nat.le_refl _, fun x hx => .inl ?_⟩
  by_cases hij : i = j
  · subst hij
    rw [set_blobs_self] at hx
    obtain rfl := Option.some.inj hx
    exact ⟨b, hb, he, hc⟩
  · rw [set_blobs_ne _ _ hij] at hx
    exact ⟨x, hx, rfl, rfl⟩

theorem advances_change (a : Azure) (i : BlobId) {j : BlobId} (b : Blob) (c : Bytes)
    (m : Nat → Option Bytes) : Advances a (a.change j b c m) i := by
  refine ⟨Nat.le_succ _, fun x hx => ?_⟩
  by_cases hij : i = j
  · subst hij
    rw [change_blobs_self] at hx
    obtain rfl := Option.some.inj hx
    exact .inr ⟨rfl, Nat.lt_succ_self _⟩
  · simp only [change] at hx
    rw [set_blobs_ne _ _ hij] at hx
    exact .inl ⟨x, hx, rfl, rfl⟩

theorem advances_create (a : Azure) (i : BlobId) {j : BlobId} (c : Bytes)
    (m : Nat → Option Bytes) : Advances a (a.create j c m) i := by
  refine ⟨Nat.le_succ _, fun x hx => ?_⟩
  by_cases hij : i = j
  · subst hij
    rw [create_blobs_self] at hx
    obtain rfl := Option.some.inj hx
    exact .inr ⟨rfl, Nat.lt_succ_self _⟩
  · simp only [create] at hx
    rw [set_blobs_ne _ _ hij] at hx
    exact .inl ⟨x, hx, rfl, rfl⟩

theorem advances_delete (a : Azure) (i j : BlobId) : Advances a (a.set j none) i := by
  refine ⟨Nat.le_refl _, fun x hx => ?_⟩
  by_cases hij : i = j
  · subst hij
    rw [set_blobs_self] at hx
    cases hx
  · rw [set_blobs_ne _ _ hij] at hx
    exact .inl ⟨x, hx, rfl, rfl⟩

theorem advances_putBlob (a : Azure) (i : BlobId) {j : BlobId} (c : Bytes)
    (m : Nat → Option Bytes) : Advances a (a.putBlob j c m).2 i := by
  unfold putBlob
  split
  · have h := advances_create a i (j := j) c m
    exact ⟨h.mono, h.version⟩
  · next b _ =>
    split
    · have h := advances_change a i (j := j) b c m
      exact ⟨h.mono, h.version⟩
    · exact advances_refl a i

theorem advances_respond (a : Azure) (r : AzReq) (i : BlobId) : Advances a (a.respond r).2 i := by
  cases r <;> simp only [respond] <;> (repeat' split) <;>
    first
    | exact advances_refl a i
    | exact advances_putBlob a i _ _
    | exact advances_change a i _ _ _
    | exact advances_delete a i _
    | exact ⟨Nat.le_refl _, (advances_refl a i).version⟩
    | exact ⟨Nat.le_refl _, (advances_set a (by assumption) (by rfl) (by rfl)).version⟩

end Azure
end SqliteObjs
