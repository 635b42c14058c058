import SqliteObjs.Vfs.Rivals
import SqliteObjs.MainDb.Transaction

/-!
# Optimistic reads are validated

Below `RESERVED` a client reads its cache file without a lease, and the blob may change at any
request: then a refresh may even mix the bytes of several versions. The ETag that the client
recorded is compared when it gets the lease. If it is the blob's, all that was read since `SHARED`
is what the blob now has, and stays so while the lease is active: no update of another
client is lost.
-/

set_option autoImplicit false

namespace SqliteObjs

open Data CS CS.Program

/-! ## Refreshing -/

section Refresh

variable {E : Setting World Ans} {ok : Req → Choice → Prop} {A B Cur : World → Prop} {C : Bytes}
  {p : ObjsFile} {w : World} {d : Disk} {fd : Fd}

theorem onlyValid_validMarkAll (p : ObjsFile) : OnlyValid p (validMarkAll p) := by
  unfold OnlyValid validMarkAll
  split <;> rfl

theorem Knows.wp_finishRefresh (hk : Knows id A d w) (hE : Seen E id ok) (hA : Fact E A) (n : Nat) :
    wp E (finishRefresh p fd n) (fun r w' => r.2 = .ok ∧ OnlyContent p r.1 ∧ r.1.etag = p.etag ∧
      r.1.nData = n ∧ Knows id A d w') w := by
  unfold finishRefresh
  refine hk.wp_redetectPageSize_bind hE hA fun ps w₁ _ hk₁ => ?_
  refine wp_bitmapsEnsureCapacity_bind hE.quiet fun q rc hgrown _ => ?_
  dsimp only
  have hq := hgrown.eq
  split
  · refine hk₁.wp_ret hE hA fun w' hk' => ⟨rfl, ?_, ?_, ?_, hk'⟩
    · unfold OnlyContent
      rw [hq]
    · rw [hq]
    · rw [hq]
  · refine wp_bitmapEnsureCapacity_bind hE.quiet fun valid rc' _ _ _ => ?_
    refine hk₁.wp_ret hE hA fun w' hk' => ⟨rfl, ?_, ?_, ?_, hk'⟩
    · unfold OnlyContent
      rw [onlyValid_validMarkAll, hq]
    · rw [onlyValid_validMarkAll, hq]
    · rw [onlyValid_validMarkAll, hq]

/-- A file whose cache file was filled with `f`. -/
theorem OnlyContent.hasContent {p' : ObjsFile} {f : Bytes} (h : OnlyContent p p')
    (hkind : p.eFileType = .mainDb) (hmode : p.prefetchMode ≠ .none) (hfd : p.cacheFd = some fd)
    (hn : p'.nData = f.size) (hd : d.inode fd = f) : HasContent f p' d := by
  unfold OnlyContent at h
  refine ⟨by rw [h]; exact hkind, by rw [h]; exact hmode, hn.symm, fd, by rw [h]; exact hfd, ?_, ?_⟩
  · rw [hn, hd]
  · intro i
    rw [hd]

/-- A refresh that succeeds has filled the cache file, with `C` if the blob stayed at its version.
However it ends, the ETag is recorded. -/
theorem Reading.wp_refreshMainDbCache (hR : Reading E p.blob B Cur C) (hE : Seen E id ok)
    (hkind : p.eFileType = .mainDb) (hmode : p.prefetchMode ≠ .none) (hfd : p.cacheFd = some fd)
    (hk : Knows id B d w) (e : ETag) :
    wp E (refreshMainDbCache p C.size (some e)) (fun r w' => OnlyContent p r.1 ∧
      r.1.etag = some e ∧ B w' ∧
      (r.2 = .ok → ∃ f, HasContent f r.1 w'.disk ∧ (Cur w' → f = C))) w := by
  -- a refresh that fails has changed the ETag only
  have hfail : ∀ {rc : Rc} {w : World} {d : Disk}, rc ≠ .ok → Knows id B d w →
      wp E (.ret (({ p with etag := some e } : ObjsFile), rc)) (fun r w' => OnlyContent p r.1 ∧
        r.1.etag = some e ∧ B w' ∧
        (r.2 = .ok → ∃ f, HasContent f r.1 w'.disk ∧ (Cur w' → f = C))) w :=
    fun hrc hk => hk.wp_ret hE hR.fact fun w' hk' =>
      ⟨rfl, rfl, hk'.1, fun hok => absurd hok hrc⟩
  unfold refreshMainDbCache
  rw [if_neg (by simp [hkind])]
  split
  · next hnone => rw [hfd] at hnone; cases hnone
  next fd' hfd' =>
  obtain rfl : fd = fd' := Option.some.inj (hfd.symm.trans hfd')
  dsimp only
  split
  · next hzero =>
    refine hk.wp_sys_bind hE hR.fact fun c w₁ _ hk₁ => ?_
    simp only [Disk.serve] at hk₁ ⊢
    by_cases hf : c.sysFails = true
    · simp only [hf, if_true, Bool.not_false] at hk₁ ⊢
      exact hfail Rc.noConfusion hk₁
    simp only [hf, Bool.false_eq_true, if_false, Bool.not_true] at hk₁ ⊢
    refine hk₁.wp_ret hE hR.fact fun w' hk' => ⟨rfl, rfl, hk'.1, fun _ => ⟨.empty, ?_, fun _ => ?_⟩⟩
    · refine OnlyContent.hasContent rfl hkind hmode hfd rfl ?_
      rw [show w'.disk = _ from hk'.2, Disk.setInode_inode_self]
      exact SparseFile.eq_empty (SparseFile.truncate_size _ _)
    · exact (SparseFile.eq_empty hzero).symm
  next hpos =>
  refine hk.wp_sys_bind hE hR.fact fun c w₁ _ hk₁ => ?_
  have hd : (d.serve c (.malloc C.size)).2 = d := by
    simp only [Disk.serve]
    split <;> rfl
  rw [hd] at hk₁
  split
  · exact hfail Rc.noConfusion hk₁
  next hmalloc =>
  have hsize : (d.serve c (.malloc C.size)).1.data.size = C.size := by
    simp only [Disk.serve] at hmalloc ⊢
    split
    · next hf => simp [hf] at hmalloc
    · rfl
  split
  · exact hfail Rc.noConfusion hk₁
  rw [wp_bind]
  refine wp_mono ?_ (Reading.wp_downloadBlob (p := { p with etag := some e }) hR hE
    (by omega) hsize hk₁)
  rintro ⟨arc, data⟩ w₂ ⟨hs, hk₂⟩
  dsimp only at hs hk₂ ⊢
  split
  · next harc =>
    refine hfail ?_ ⟨hk₂.1.1, hk₂.2⟩
    rw [Ne, azureErrToSqlite_eq_ok Rc.noConfusion]
    exact harc
  next harc =>
  have hdata : Knows id (fun w => B w ∧ (Cur w → data = C)) d w₂ :=
    ⟨⟨hk₂.1.1, fun hc => hk₂.1.2 hc (by simpa using harc)⟩, hk₂.2⟩
  have hback : ∀ {w : World} {d : Disk}, Knows id (fun w => B w ∧ (Cur w → data = C)) d w →
      Knows id B d w := fun hk => ⟨hk.1.1, hk.2⟩
  refine hdata.wp_sys_bind hE (hR.fact_cur _) fun c₁ w₃ _ hk₃ => ?_
  split
  · exact hfail Rc.noConfusion (hback hk₃)
  simp only [Disk.serve] at hk₃
  refine hk₃.wp_sys_bind hE (hR.fact_cur _) fun c₂ w₄ _ hk₄ => ?_
  simp only [Disk.serve] at hk₄ ⊢
  by_cases hf : c₂.sysFails = true
  · simp only [hf, if_true, Bool.not_false] at hk₄ ⊢
    exact hfail Rc.noConfusion (hback hk₄)
  simp only [hf, Bool.false_eq_true, if_false, Bool.not_true] at hk₄ ⊢
  rw [SparseFile.eq_empty (SparseFile.truncate_size (d.inode fd) 0)] at hk₄
  rw [← SparseFile.eq_empty (SparseFile.slice_size data 0 0),
    ← SparseFile.empty_pwrite (data.slice 0 0)]
    at hk₄
  rw [wp_bind]
  refine wp_mono ?_ (Knows.wp_writeAll hE (hR.fact_cur _) .empty data C.size 0 (Nat.zero_le _)
    (by omega) hk₄)
  rintro written w₅ ⟨-, file, hk₅, hfile⟩
  split
  · exact hfail Rc.noConfusion (hback hk₅)
  next hwritten =>
  obtain rfl := hfile (by simpa using hwritten)
  refine hk₅.wp_sys_bind hE (hR.fact_cur _) fun c₃ w₆ _ hk₆ => ?_
  simp only [Disk.serve] at hk₆
  split
  · exact hfail Rc.noConfusion (hback hk₆)
  refine wp_mono ?_ (Knows.wp_finishRefresh (p := { p with etag := some e }) hk₆ hE (hR.fact_cur _)
    C.size)
  rintro r w₇ ⟨-, honly, het, hn, hk₇⟩
  have honly : OnlyContent p r.1 := by
    unfold OnlyContent at honly ⊢
    rw [honly]
  refine ⟨honly, het, hk₇.1.1, fun _ => ⟨data, ?_, hk₇.1.2⟩⟩
  refine honly.hasContent hkind hmode hfd (hn.trans hs.symm) ?_
  rw [show w₇.disk = _ from hk₇.2, Disk.setInode_inode_self, SparseFile.empty_pwrite]

end Refresh

/-! ## What the service vouches for -/

/-- Content `C` belongs to version `e`, and the lease `lease`, if it is active, keeps the blob
at it. -/
structure Azure.Backs (mine : LeaseId → Prop) (i : BlobId) (e : ETag) (C : Bytes)
    (lease : Option LeaseId) (a : Azure) : Prop where
  issued : a.Issued i
  version : a.Version i e C
  lease : ∀ id, lease = some id → mine id ∧ a.Guarded i id e

section Backs

variable {mine : LeaseId → Prop} {i : BlobId} {e : ETag} {C f : Bytes} {l l' : Option LeaseId}
  {a a' : Azure}

theorem Azure.Backs.unleased (h : a.Backs mine i e C l) : a.Backs mine i e C none :=
  { h with lease := fun _ hid => nomatch hid }

theorem Azure.Backs.advance (h : a.Backs mine i e C none) (ha : a.Advances a' i) :
    a'.Backs mine i e C none :=
  ⟨h.issued.advance ha, h.version.advance ha, fun _ hid => nomatch hid⟩

/-- Whatever content stands for the version while it is current belongs to it. -/
theorem Azure.Backs.content (h : a.Backs mine i e C l) (hf : a.IsAt i e → f = C) :
    a.Backs mine i e f l := by
  refine { h with version := ⟨h.version.1, fun b hb he => ?_⟩ }
  rw [hf ⟨b, hb, he⟩]
  exact h.version.2 b hb he

theorem RivalMove.backs (hm : RivalMove mine a a') (h : a.Backs mine i e C l) :
    a'.Backs mine i e C l where
  issued := h.issued.advance (hm.advances i)
  version := h.version.advance (hm.advances i)
  lease id hid := ⟨(h.lease id hid).1, hm.guarded (h.lease id hid).1 (h.lease id hid).2⟩

theorem fact_backs (i : BlobId) (e : ETag) (C : Bytes) (l : Option LeaseId) :
    Fact (amongRivals mine) fun w => w.azure.Backs mine i e C l :=
  fact_amongRivals (P := fun a => a.Backs mine i e C l) fun _ _ hm h => hm.backs h

theorem reading_backs (i : BlobId) (e : ETag) (C : Bytes) (l : Option LeaseId) :
    Reading (amongRivals mine) i
      (fun w => w.azure.Version i e C ∧ w.azure.Backs mine i e C l) (fun w => w.azure.IsAt i e) C :=
  reading_rivals (P := fun a => a.Backs mine i e C l) (fun _ _ hm h => hm.backs h) i e C

/-- The disk is known, and what the service vouches for. -/
abbrev Backed (mine : LeaseId → Prop) (i : BlobId) (e : ETag) (C : Bytes) (l : Option LeaseId)
    (d : Disk) : World → Prop :=
  Knows id (fun w => w.azure.Backs mine i e C l) d

variable {α : Type} {p q : ObjsFile} {w : World} {d : Disk} {Q : α → World → Prop}

/-- A `HEAD` tells the current version, and a lease that is active keeps the blob at it. -/
theorem wp_head_rivals {k : AzReply → Prog α} (hk : Backed mine i e C l d w)
    (hmine : ∀ id, l' = some id → mine id)
    (h : ∀ x w', Backed mine i e C l d w' → (x.err = .ok → ∃ e' C', x.etag = some e' ∧
      x.size = C'.size ∧ w'.azure.Backs mine i e' C' l') → wp (amongRivals mine) (k x) Q w') :
    wp (amongRivals mine) (azBlobGetProperties i >>= k) Q w := by
  unfold azBlobGetProperties
  refine SqliteObjs.wp_execute_bind ((fact_backs i e C l).knows_stable seen_amongRivals) hk
    fun w x w' hk hs => ?_
  obtain ⟨ha, hx⟩ := head_rivals hs
  have hback : w'.azure.Backs mine i e C l := by
    rw [ha]
    exact hk.1
  have hk' : Backed mine i e C l d w' := ⟨hback, (seen_amongRivals.azure_disk hs).trans hk.2⟩
  refine ⟨trivial, fun _ => hk', h x w' hk' fun hok => ?_⟩
  obtain ⟨b, hb, het, hsize⟩ := hx hok
  rw [← ha] at hb
  have hissued := hk'.1.issued
  exact ⟨b.etag, b.content, het, hsize, hissued, Azure.version_of_blob hb (hissued b hb),
    fun id hid => ⟨hmine id hid, Azure.guarded_of_isAt ⟨b, hb, rfl⟩⟩⟩

/-- A request that nothing is asked of. -/
theorem wp_request_rivals {r : AzReq} {k : AzReply → Prog α} (hk : Backed mine i e C none d w)
    (h : ∀ x w', Backed mine i e C none d w' → wp (amongRivals mine) (k x) Q w') :
    wp (amongRivals mine) (execute r >>= k) Q w :=
  Knows.wp_execute_bind hk seen_amongRivals (fact_backs i e C none)
    (fun _ _ _ hb hs => ⟨trivial, hb.advance (advances_own hs i)⟩) h

theorem returns_releaseLease (p : ObjsFile) :
    Returns always (fun q => q = { p with leaseId := none, leaseAcquiredAt := 0 })
    (releaseLease p) := by
  unfold releaseLease
  split
  · exact returns_bind _ fun _ => rfl
  · exact rfl

theorem wp_releaseLease_rivals (hk : Backed mine i e C l d w) :
    wp (amongRivals mine) (releaseLease p) (fun q w' =>
      q = { p with leaseId := none, leaseAcquiredAt := 0 } ∧ Backed mine i e C none d w') w := by
  have hk : Backed mine i e C none d w := ⟨hk.1.unleased, hk.2⟩
  have hret : ∀ {w : World}, Backed mine i e C none d w → wp (amongRivals mine)
      (.ret { p with leaseId := none, leaseAcquiredAt := 0 }) (fun q w' =>
        q = { p with leaseId := none, leaseAcquiredAt := 0 } ∧ Backed mine i e C none d w') w :=
    fun hk => hk.wp_ret seen_amongRivals (fact_backs i e C none) fun w' hk' => ⟨rfl, hk'⟩
  unfold releaseLease
  split
  · unfold azLeaseRelease
    exact wp_request_rivals hk fun _ _ hk' => hret hk'
  · exact hret hk

end Backs

/-! ## Locking -/

/-- The cache file of `p` shows content `C` for version `e` of the blob, and the service vouches
for that. -/
structure Coherent (mine : LeaseId → Prop) (i : BlobId) (e : ETag) (C : Bytes) (p : ObjsFile)
    (w : World) : Prop where
  ops : p.ops.Complete
  blob : p.blob = i
  etag : p.etag = some e
  content : HasContent C p w.disk
  backs : w.azure.Backs mine i e C p.leaseId

section Locking

variable {mine : LeaseId → Prop} {i : BlobId} {e : ETag} {C : Bytes} {l : Option LeaseId}
  {p q : ObjsFile} {w : World} {d : Disk}

/-- The fields of a file that its content does not depend on. -/
theorem Coherent.congr (h : Coherent mine i e C p w) (hops : q.ops = p.ops)
    (hblob : q.blob = p.blob)
    (het : q.etag = p.etag) (hview : q.cacheView = p.cacheView) (hlease : q.leaseId = p.leaseId) :
    Coherent mine i e C q w :=
  ⟨by rw [hops]; exact h.ops, hblob.trans h.blob, het.trans h.etag, h.content.congr hview rfl,
    by rw [hlease]; exact h.backs⟩

theorem Coherent.backed (h : Coherent mine i e C p w) : Backed mine i e C p.leaseId w.disk w :=
  ⟨h.backs, rfl⟩

/-- The rivals do not change what the cache file shows. -/
theorem stable_coherent : Stable (amongRivals mine) (Coherent mine i e C p) := by
  intro w w' hw h
  obtain ⟨hbacks, hd⟩ :=
    (fact_backs i e C p.leaseId).knows_stable seen_amongRivals w w' hw h.backed
  exact ⟨h.ops, h.blob, h.etag, h.content.congr rfl (by rw [show w'.disk = _ from hd]), hbacks⟩

theorem Coherent.wp_ret {α : Type} {a : α} {Q : α → World → Prop} (h : Coherent mine i e C p w)
    (hQ : ∀ w', Coherent mine i e C p w' → Q a w') : wp (amongRivals mine) (.ret a) Q w :=
  wp_ret_of h stable_coherent hQ

/-- What a check of the cache leaves: content other than `C` only if `fresh`. A check that fails
has left the content as it was, unless another ETag is recorded. -/
def Checked (mine : LeaseId → Prop) (i : BlobId) (e : ETag) (C : Bytes) (p : ObjsFile)
    (l : Option LeaseId) (fresh : Prop) (r : ObjsFile × Rc) (w : World) : Prop :=
  OnlyContent p r.1 ∧
  (r.2 = .ok → ∃ e' C', Coherent mine i e' C' r.1 w ∧ (C' = C ∨ fresh)) ∧
  (r.2 ≠ .ok → r.1.etag = p.etag → Coherent mine i e C { r.1 with leaseId := l } w)

/-- The cache file is refreshed to a version that a `HEAD` told. -/
theorem wp_refresh_rivals {fresh : Prop} {e' : ETag} {C' : Bytes} (hops : p.ops.Complete)
    (hblob : p.blob = i) (het : p.etag = some e) (hcontent : HasContent C p d)
    (hk : Backed mine i e' C' p.leaseId d w) (hne : e' ≠ e) (hfresh : fresh) :
    wp (amongRivals mine) (refreshMainDbCache p C'.size (some e'))
      (Checked mine i e C p l fresh) w := by
  obtain ⟨fd, hfd, -⟩ := hcontent.cache
  subst hblob
  have hread := (reading_backs p.blob e' C' p.leaseId).wp_refreshMainDbCache seen_amongRivals
    hcontent.kind hcontent.eager hfd ⟨⟨hk.1.version, hk.1⟩, hk.2⟩ e'
  refine wp_mono ?_ hread
  rintro r w' ⟨honly, het', hB, hdone⟩
  refine ⟨honly, fun hok => ?_, fun _ hsame => ?_⟩
  · obtain ⟨f, hf, hcur⟩ := hdone hok
    unfold OnlyContent at honly
    refine ⟨e', f, ⟨by rw [honly]; exact hops, by rw [honly]; rfl, het', hf, ?_⟩, Or.inr hfresh⟩
    rw [honly]
    exact hB.2.content hcur
  · -- another ETag was recorded
    rw [het', het] at hsame
    exact absurd (Option.some.inj hsame) hne

/-- The cache is checked against a `HEAD`. -/
theorem wp_checkHead {fresh : Prop} {f : AzReply → Prog (ObjsFile × Rc)} (hops : p.ops.Complete)
    (hblob : p.blob = i) (het : p.etag = some e) (hcontent : HasContent C p d)
    (hmine : ∀ id, p.leaseId = some id → mine id) (hk : Backed mine i e C l d w)
    (hf : ∀ x w' e' C', Backed mine i e C l d w' → Backed mine i e' C' p.leaseId d w' →
      x.etag = some e' → x.size = C'.size → e' ≠ e →
      wp (amongRivals mine) (f x) (Checked mine i e C p l fresh) w') :
    wp (amongRivals mine) (azBlobGetProperties p.blob >>= fun head =>
      if head.err ≠ .ok then return (p, azureErrToSqlite head.err .ioerrRead)
      else if head.etag = none ∨ p.etag = head.etag then return (p, .ok)
      else f head) (Checked mine i e C p l fresh) w := by
  rw [hblob]
  refine wp_head_rivals hk hmine fun x w₁ hk₁ hx => ?_
  have hbase : ∀ {w : World}, Backed mine i e C l d w →
      Coherent mine i e C { p with leaseId := l } w := by
    intro w hk
    exact ⟨hops, hblob, het, hcontent.congr rfl (by rw [show w.disk = _ from hk.2]), hk.1⟩
  split
  · next hno =>
    refine hk₁.wp_ret seen_amongRivals (fact_backs i e C l) fun w' hk' => ⟨rfl, fun hok => ?_, ?_⟩
    · exact absurd ((azureErrToSqlite_eq_ok Rc.noConfusion).mp hok) hno
    · exact fun _ _ => hbase hk'
  next hok =>
  obtain ⟨e', C', het', hsize, hbacks⟩ := hx (Decidable.not_not.mp hok)
  split
  · next hsame =>
    -- the version is the recorded one
    obtain rfl : e = e' := by
      rw [het, het'] at hsame
      exact Option.some.inj (hsame.resolve_left (Option.some_ne_none e'))
    have hfull : Backed mine i e C p.leaseId d w₁ :=
      ⟨⟨hk₁.1.issued, hk₁.1.version, hbacks.lease⟩, hk₁.2⟩
    refine hfull.wp_ret seen_amongRivals (fact_backs i e C p.leaseId) fun w' hk' =>
      ⟨rfl, fun _ => ⟨e, C, ?_, Or.inl rfl⟩, fun hno => absurd rfl hno⟩
    exact ⟨hops, hblob, het, hcontent.congr rfl (by rw [show w'.disk = _ from hk'.2]), hk'.1⟩
  · next hdiff =>
    refine hf x w₁ e' C' hk₁ ⟨hbacks, hk₁.2⟩ het' hsize fun he => hdiff (Or.inr ?_)
    rw [het, het', he]

/-- The refresh before the first read. -/
theorem Coherent.wp_revalidateBeforeRead (h : Coherent mine i e C p w) :
    wp (amongRivals mine) (revalidateBeforeRead p)
      (Checked mine i e C p p.leaseId True) w := by
  obtain ⟨fd, hfd, -⟩ := h.content.cache
  have hprops : p.ops.blobGetProperties = true := by rw [h.ops]; rfl
  unfold revalidateBeforeRead
  rw [if_neg (by simp [h.content.kind]), if_neg (by simp [hfd]), if_neg (by simp [h.etag]),
    if_neg (by simp [hprops])]
  refine wp_checkHead h.ops h.blob h.etag h.content (fun id hid => (h.backs.lease id hid).1)
    h.backed fun x w' e' C' _ hk' het hsize hne => ?_
  rw [het, hsize]
  exact wp_refresh_rivals h.ops h.blob h.etag h.content hk' hne trivial

/-- The check under a new lease. -/
theorem wp_revalidateAfterLease_rivals {leaseEtag : Option ETag} (hops : p.ops.Complete)
    (hblob : p.blob = i) (het : p.etag = some e) (hcontent : HasContent C p d)
    (hmine : ∀ id, p.leaseId = some id → mine id) (hk : Backed mine i e C none d w)
    (hlease : leaseEtag = some e → Backed mine i e C p.leaseId d w) :
    wp (amongRivals mine) (revalidateAfterLease p leaseEtag)
      (Checked mine i e C p none (p.readsSinceSharedLock = 0)) w := by
  obtain ⟨fd, hfd, -⟩ := hcontent.cache
  have hprops : p.ops.blobGetProperties = true := by rw [hops]; rfl
  unfold revalidateAfterLease
  rw [if_neg (by simp [hcontent.kind]), if_neg (by simp [hfd]), if_neg (by simp [het])]
  split
  · next hsame =>
    have hfull := hlease (hsame.2.symm.trans het)
    refine hfull.wp_ret seen_amongRivals (fact_backs i e C p.leaseId) fun w' hk' =>
      ⟨rfl, fun _ => ⟨e, C, ?_, Or.inl rfl⟩, fun hno => absurd rfl hno⟩
    exact ⟨hops, hblob, het, hcontent.congr rfl (by rw [show w'.disk = _ from hk'.2]), hk'.1⟩
  rw [if_neg (by simp [hprops])]
  refine wp_checkHead hops hblob het hcontent hmine hk fun x w' e' C' hold hk' het' hsize hne => ?_
  rw [het', hsize]
  split
  · next hzero => exact wp_refresh_rivals hops hblob het hcontent hk' hne hzero
  · refine hold.wp_ret seen_amongRivals (fact_backs i e C none) fun w' hk' =>
      ⟨rfl, (fun hok => nomatch hok), fun _ _ => ?_⟩
    exact ⟨hops, hblob, het, hcontent.congr rfl (by rw [show w'.disk = _ from hk'.2]), hk'.1⟩

/-- What a call leaves that may have checked the cache: content other than `C` only if nothing
was read. -/
def Settled (mine : LeaseId → Prop) (i : BlobId) (C : Bytes) (q : ObjsFile) (w : World) : Prop :=
  ∃ e' C', Coherent mine i e' C' q w ∧ (C' = C ∨ q.readsSinceSharedLock = 0)

theorem Coherent.settled (h : Coherent mine i e C q w) : Settled mine i C q w :=
  ⟨e, C, h, Or.inl rfl⟩

theorem stable_settled : Stable (amongRivals mine) (Settled mine i C q) := by
  rintro w w' hw ⟨e', C', hc, hC⟩
  exact ⟨e', C', stable_coherent w w' hw hc, hC⟩

theorem Coherent.wp_acquireLease (h : Coherent mine i e C p w) (hfree : p.leaseId = none) :
    wp (amongRivals mine) (acquireLease p) (fun r w' => r.1.eLock = p.eLock ∧
      r.1.readsSinceSharedLock = p.readsSinceSharedLock ∧
      (r.2 = .ok ∨ r.1.etag = p.etag → Settled mine i C r.1 w')) w := by
  have hnone : Backed mine i e C none w.disk w := ⟨h.backs.unleased, rfl⟩
  have hkeep : ∀ {rc : Rc} {w' : World}, Backed mine i e C none w.disk w' →
      wp (amongRivals mine) (.ret (p, rc)) (fun r w' => r.1.eLock = p.eLock ∧
        r.1.readsSinceSharedLock = p.readsSinceSharedLock ∧
        (r.2 = .ok ∨ r.1.etag = p.etag → Settled mine i C r.1 w')) w' :=
    fun hk => hk.wp_ret seen_amongRivals (fact_backs i e C none) fun w' hk' =>
      ⟨rfl, rfl, fun _ => Coherent.settled ⟨h.ops, h.blob, h.etag,
        h.content.congr rfl (by rw [show w'.disk = _ from hk'.2]), by rw [hfree]; exact hk'.1⟩⟩
  unfold acquireLease
  dsimp only
  generalize (if dirtyPageThreshold < p.lastSyncDirtyCount then leaseDurationLong
    else leaseDurationDefault) = duration
  unfold azLeaseAcquire
  split
  · exact hkeep hnone
  rw [h.blob]
  refine SqliteObjs.wp_execute_bind ((fact_backs i e C none).knows_stable seen_amongRivals) hnone
    fun w₀ x w₁ hk hs => ?_
  have hk₁ : Backed mine i e C none w.disk w₁ :=
    ⟨hk.1.advance (advances_own hs i), (seen_amongRivals.azure_disk hs).trans hk.2⟩
  refine ⟨trivial, fun _ => hk₁, ?_⟩
  split
  · exact hkeep hk₁
  split
  · exact hkeep hk₁
  next hok =>
  -- the lease is mine, and of the version that came with it
  obtain ⟨hmine, hguard⟩ := acquire_rivals hs (Decidable.not_not.mp hok)
  refine wp_quiet_bind seen_amongRivals.quiet rfl fun now _ => ?_
  generalize hp₁ : ({ p with
    leaseId := some x.leaseId, leaseAcquiredAt := now.n, leaseDuration := duration } :
    ObjsFile) = p₁
  have hlease₁ : p₁.leaseId = some x.leaseId := by rw [← hp₁]
  have hfield : p₁.eLock = p.eLock ∧ p₁.readsSinceSharedLock = p.readsSinceSharedLock ∧
      p₁.etag = p.etag := by
    rw [← hp₁]
    exact ⟨rfl, rfl, rfl⟩
  have hcheck : wp (amongRivals mine) (revalidateAfterLease p₁ x.etag) _ _ :=
    wp_revalidateAfterLease_rivals
    (by rw [← hp₁]; exact h.ops) (by rw [← hp₁]; exact h.blob) (hfield.2.2.trans h.etag)
    (h.content.congr (q := p₁) (by rw [← hp₁]; rfl) rfl) (fun id hid => ?_) hk₁ fun het => ?_
  · rw [wp_bind]
    refine wp_mono ?_ hcheck
    rintro ⟨q, rv⟩ w₂ ⟨honly, hdone, hfailed⟩
    dsimp only at honly hdone hfailed ⊢
    have hq : q.eLock = p.eLock ∧ q.readsSinceSharedLock = p.readsSinceSharedLock := by
      unfold OnlyContent at honly
      rw [honly]
      exact ⟨hfield.1, hfield.2.1⟩
    split
    · next hno =>
      by_cases hsame : q.etag = p₁.etag
      · have hc := hfailed hno hsame
        rw [wp_bind]
        refine wp_mono ?_ (wp_releaseLease_rivals (p := q) hc.backed)
        rintro _ w₃ ⟨rfl, hk₃⟩
        refine hk₃.wp_ret seen_amongRivals (fact_backs i e C none) fun w' hk' =>
          ⟨hq.1, hq.2, fun _ => Coherent.settled ⟨hc.ops, hc.blob, hc.etag, ?_, hk'.1⟩⟩
        exact hc.content.congr rfl (by rw [show w'.disk = _ from hk'.2])
      · rw [wp_bind]
        refine wp_mono ?_ ((returns_releaseLease q).wp fun _ _ _ _ _ => ⟨trivial, trivial⟩)
        rintro _ w₃ rfl
        refine wp_ret_of (P := fun _ => True) trivial (fun _ _ _ h => h) fun w' _ =>
          ⟨hq.1, hq.2, fun hor => ?_⟩
        rcases hor with hok | het
        · exact absurd hok hno
        · exact absurd (het.trans hfield.2.2.symm) hsame
    · next hok =>
      obtain ⟨e', C', hq', hC⟩ := hdone (Decidable.not_not.mp hok)
      refine hq'.wp_ret fun w' hq' =>
        ⟨hq.1, hq.2, fun _ => ⟨e', C', hq', hC.imp_right fun h0 => ?_⟩⟩
      exact hq.2.trans (hfield.2.1.symm.trans h0)
  · rw [hlease₁] at hid
    rw [← Option.some.inj hid]
    exact hmine
  · refine ⟨⟨hk₁.1.issued, hk₁.1.version, fun id hid => ?_⟩, hk₁.2⟩
    rw [hlease₁] at hid
    rw [← Option.some.inj hid]
    exact ⟨hmine, hguard e het⟩

/-- The count of reads after a lock. -/
def readsAfterLock (p : ObjsFile) (eLock : LockLevel) : Int :=
  if eLock = .shared ∧ p.eLock = .none then 0 else p.readsSinceSharedLock

theorem readsAfterLock_of_ne {eLock : LockLevel} (h : ¬ (eLock = .shared ∧ p.eLock = .none)) :
    readsAfterLock p eLock = p.readsSinceSharedLock := if_neg h

/-- A lock that is taken, and one that is refused and has recorded no other ETag. -/
theorem Coherent.wp_lock (h : Coherent mine i e C p w) (eLock : LockLevel) :
    wp (amongRivals mine) (sqliteObjsLock p eLock) (fun r w' =>
      (r.1.eLock = p.eLock → r.1.etag = p.etag) →
      r.1.readsSinceSharedLock = readsAfterLock p eLock ∧ Settled mine i C r.1 w') w := by
  unfold sqliteObjsLock
  split
  · next hrank =>
    refine h.wp_ret fun w' h' _ => ⟨(readsAfterLock_of_ne ?_).symm, h'.settled⟩
    rintro ⟨rfl, hnone⟩
    rw [hnone] at hrank
    exact absurd hrank (by decide)
  next hrank =>
  have hchanged : ∀ {q : ObjsFile}, q.eLock = eLock → q.eLock ≠ p.eLock := by
    rintro q hq hsame
    exact hrank (by rw [← hq, hsame])
  split
  · next hshared =>
    have hnone : p.eLock = .none := by
      cases hp : p.eLock with
      | none => rfl
      | _ => rw [hp, hshared] at hrank; exact absurd (by decide) hrank
    have hzero : readsAfterLock p eLock = 0 := if_pos ⟨hshared, hnone⟩
    have hstart : Coherent mine i e C { p with readsSinceSharedLock := 0 } w :=
      h.congr rfl rfl rfl rfl rfl
    rw [wp_bind]
    refine wp_mono ?_ hstart.wp_revalidateBeforeRead
    rintro ⟨q, rv⟩ w₁ ⟨honly, hdone, hfailed⟩
    dsimp only at honly hdone hfailed ⊢
    have hq : q.eLock = p.eLock ∧ q.readsSinceSharedLock = 0 ∧ q.leaseId = p.leaseId := by
      unfold OnlyContent at honly
      rw [honly]
      exact ⟨rfl, rfl, rfl⟩
    split
    · next hno =>
      by_cases hsame : q.etag = p.etag
      · have hc : Coherent mine i e C q w₁ := (hfailed hno hsame).congr rfl rfl rfl rfl hq.2.2
        exact hc.wp_ret fun w' hc _ => ⟨hq.2.1.trans hzero.symm, hc.settled⟩
      · refine wp_ret_of (P := fun _ => True) trivial (fun _ _ _ h => h) fun w' _ hkept => ?_
        exact absurd (hkept hq.1) hsame
    · next hok =>
      obtain ⟨e', C', hc, -⟩ := hdone (Decidable.not_not.mp hok)
      refine hc.wp_ret fun w' hc _ => ⟨hq.2.1.trans hzero.symm, e', C', ?_, Or.inr hq.2.1⟩
      exact hc.congr rfl rfl rfl rfl rfl
  next hshared =>
  have hcount : readsAfterLock p eLock = p.readsSinceSharedLock :=
    readsAfterLock_of_ne fun hor => hshared hor.1
  have htaken : ∀ {w : World}, Coherent mine i e C p w → wp (amongRivals mine)
      (.ret (({ p with eLock := eLock } : ObjsFile), Rc.ok)) (fun r w' =>
        (r.1.eLock = p.eLock → r.1.etag = p.etag) →
        r.1.readsSinceSharedLock = readsAfterLock p eLock ∧ Settled mine i C r.1 w') w :=
    fun h => h.wp_ret fun w' h _ =>
      ⟨hcount.symm, (h.congr (q := { p with eLock := eLock }) rfl rfl rfl rfl rfl).settled⟩
  split
  · exact htaken h
  next hfree =>
  split
  · exact htaken h
  rw [wp_bind]
  refine wp_mono ?_ (h.wp_acquireLease (by simpa using hfree))
  rintro ⟨q, rv⟩ w₁ ⟨hlock, hreads, hend⟩
  dsimp only at hlock hreads hend ⊢
  split
  · by_cases hsame : q.etag = p.etag
    · obtain ⟨e', C', hc, hC⟩ := hend (Or.inr hsame)
      exact hc.wp_ret fun w' hc _ => ⟨hreads.trans hcount.symm, e', C', hc, hC⟩
    · refine wp_ret_of (P := fun _ => True) trivial (fun _ _ _ h => h) fun w' _ hkept => ?_
      exact absurd (hkept hlock) hsame
  · next hok =>
    obtain ⟨e', C', hc, hC⟩ := hend (Or.inl (Decidable.not_not.mp hok))
    refine hc.wp_ret fun w' hc _ => ⟨hreads.trans hcount.symm, e', C', ?_, hC⟩
    exact hc.congr rfl rfl rfl rfl rfl

theorem Coherent.wp_unlock (h : Coherent mine i e C p w) (eLock : LockLevel) :
    wp (amongRivals mine) (sqliteObjsUnlock p eLock) (fun r w' =>
      r.1.readsSinceSharedLock = p.readsSinceSharedLock ∧ (p.eLock = .none → r.1.eLock = .none) ∧
      Coherent mine i e C r.1 w') w := by
  unfold sqliteObjsUnlock
  split
  · exact h.wp_ret fun w' h' => ⟨rfl, (fun hnone => hnone), h'⟩
  next hrank =>
  have hheld : p.eLock ≠ .none := by
    intro hnone
    rw [hnone] at hrank
    exact hrank (Nat.zero_le _)
  split
  · rw [wp_bind]
    refine wp_mono ?_ (wp_releaseLease_rivals h.backed)
    rintro _ w₁ ⟨rfl, hk₁⟩
    refine hk₁.wp_ret seen_amongRivals (fact_backs i e C none) fun w' hk' =>
      ⟨rfl, (fun hnone => absurd hnone hheld), h.ops, h.blob, h.etag, ?_, hk'.1⟩
    exact h.content.congr rfl (by rw [show w'.disk = _ from hk'.2])
  · exact h.wp_ret fun w' h' =>
      ⟨rfl, (fun hnone => absurd hnone hheld), h'.congr rfl rfl rfl rfl rfl⟩

end Locking

/-! ## Sessions -/

/-- A file, and what was read since `xLock` last asked for `SHARED`. -/
structure ReadTx where
  file : ObjsFile
  reads : List (TxCall × FileResult)

namespace ReadTx

/-- The calls of a transaction that has not written. The count of reads does not wrap, and the first
lock is `SHARED`. -/
def May (s : ReadTx) : TxCall → Prop
  | .file (.read _ _) => s.reads.length < 2 ^ 31 - 1
  | .lock eLock => s.file.eLock = .none → eLock = .shared
  | .unlock _ => True
  | _ => False

/-- The reads after a call: a read under a lock is one more, and `SHARED` starts again. -/
def readsAfter (s : ReadTx) (c : TxCall) (r : FileResult) : List (TxCall × FileResult) :=
  match c with
  | .file _ => if LockLevel.shared.rank ≤ s.file.eLock.rank then (c, r) :: s.reads else s.reads
  | .lock eLock => if eLock = .shared ∧ s.file.eLock = .none then [] else s.reads
  | _ => s.reads

def code (v : VfsData) (c : TxCall) (s : ReadTx) : Prog ReadTx := do
  let r ← c.code v s.file
  return ⟨r.1, s.readsAfter c r.2⟩

end ReadTx

/-- A transaction that reads, among rivals. A lock that is refused has not recorded another
ETag. -/
def readTxSession (mine : LeaseId → Prop) (v : VfsData) : Session World Ans ReadTx TxCall where
  code := ReadTx.code v
  may c s _ := s.May c
  serve _ _ := (amongRivals mine).disturbed
  accept _ s _ s' _ := s'.file.eLock = s.file.eLock → s'.file.etag = s.file.etag
  outside := (amongRivals mine).rely

/-- The call read the content `C`, or failed. -/
def ReadOf (C : Bytes) (x : TxCall × FileResult) : Prop :=
  x.2 = (IdealDb.apply C x.1).2 ∨ ∃ data, x.2 = .data .ioerrRead data

/-- All reads are of the content that the cache file shows. -/
structure ReadTx.Coherent (mine : LeaseId → Prop) (i : BlobId) (s : ReadTx) (w : World) : Prop where
  count : s.file.eLock ≠ .none → s.file.readsSinceSharedLock = s.reads.length
  small : s.reads.length < 2 ^ 31
  reads : ∃ e C, SqliteObjs.Coherent mine i e C s.file w ∧ ∀ x ∈ s.reads, ReadOf C x

section Session

variable {mine : LeaseId → Prop} {i : BlobId} {v : VfsData} {s : ReadTx} {w : World}

theorem ReadTx.Coherent.wp_read (h : s.Coherent mine i w) {iAmt iOfst : Nat}
    (hmay : s.reads.length < 2 ^ 31 - 1) :
    wp (amongRivals mine) (ReadTx.code v (.file (.read iAmt iOfst)) s)
      (fun s' w' => s'.Coherent mine i w') w := by
  obtain ⟨e, C, hc, hreads⟩ := h.reads
  show wp _ ((sqliteObjsRead s.file iAmt iOfst >>= fun r => pure (r.1, FileResult.data r.2.1 r.2.2))
    >>= _) _ w
  unfold sqliteObjsRead
  rw [hc.content.kind, LawfulMonad.bind_assoc, wp_bind]
  refine wp_mono ?_ (hc.content.wp_read seen_amongRivals (fact_backs i e C s.file.leaseId) hc.backed
    iAmt iOfst)
  rintro ⟨q, rc, data⟩ w₁ ⟨hq, hbacks, hcontent, hres⟩
  dsimp only at hq hcontent hres ⊢
  have hc₁ : SqliteObjs.Coherent mine i e C q w₁ := by
    refine ⟨?_, ?_, ?_, hcontent, ?_⟩
    all_goals
      rw [hq]
      unfold ObjsFile.countRead
    · split
      · exact hc.ops
      · exact hc.ops
    · split
      · exact hc.blob
      · exact hc.blob
    · split
      · exact hc.etag
      · exact hc.etag
    · split
      · exact hbacks
      · exact hbacks
  refine hc₁.wp_ret fun w' hc' => ?_
  by_cases hlock : LockLevel.shared.rank ≤ s.file.eLock.rank
  · have hafter : s.readsAfter (.file (.read iAmt iOfst)) (.data rc data) =
        (.file (.read iAmt iOfst), .data rc data) :: s.reads := if_pos hlock
    have hheld : s.file.eLock ≠ .none := by
      intro hnone
      rw [hnone] at hlock
      exact absurd hlock (by decide)
    refine ⟨fun _ => ?_, ?_, e, C, hc', ?_⟩
    · dsimp only
      rw [hafter, hq, ObjsFile.countRead, if_pos hlock, List.length_cons]
      dsimp only
      rw [h.count hheld]
      have hwrap := cInt_of_lt (n := s.reads.length + 1) (by omega)
      push_cast at hwrap ⊢
      exact hwrap
    · dsimp only
      rw [hafter, List.length_cons]
      omega
    · dsimp only
      rw [hafter]
      intro x hx
      rcases List.mem_cons.mp hx with rfl | hx
      · rcases hres with hres | rfl
        · exact Or.inl hres
        · exact Or.inr ⟨data, rfl⟩
      · exact hreads x hx
  · have hafter : s.readsAfter (.file (.read iAmt iOfst)) (.data rc data) = s.reads := if_neg hlock
    have hsame : q = s.file := hq.trans (if_neg hlock)
    refine ⟨fun hheld => ?_, ?_, e, C, hc', ?_⟩
    · dsimp only at hheld ⊢
      rw [hafter, hsame]
      rw [hsame] at hheld
      exact h.count hheld
    · dsimp only
      rw [hafter]
      exact h.small
    · dsimp only
      rw [hafter]
      exact hreads

/-- Where content may have changed nothing was read. -/
theorem ReadTx.Coherent.of_settled {q : ObjsFile} {C : Bytes} {w' : World}
    {rs : List (TxCall × FileResult)} (hq : Settled mine i C q w') (hrs : ∀ x ∈ rs, ReadOf C x)
    (hcount : q.readsSinceSharedLock = rs.length) (hsmall : rs.length < 2 ^ 31) :
    ReadTx.Coherent mine i ⟨q, rs⟩ w' := by
  obtain ⟨e', C', hc, hC⟩ := hq
  refine ⟨fun _ => hcount, hsmall, e', C', hc, ?_⟩
  rcases hC with rfl | hzero
  · exact hrs
  · have hnil : rs = [] := List.length_eq_zero_iff.mp (by
      rw [hzero] at hcount
      exact_mod_cast hcount.symm)
    rw [hnil]
    exact fun x hx => nomatch hx

/-- **One call** keeps the reads coherent. -/
theorem ReadTx.Coherent.wp_call (h : s.Coherent mine i w) {c : TxCall} (hmay : s.May c) :
    wp (amongRivals mine) (ReadTx.code v c s) (fun s' w' =>
      (s'.file.eLock = s.file.eLock → s'.file.etag = s.file.etag) → s'.Coherent mine i w') w := by
  obtain ⟨e, C, hc, hreads⟩ := h.reads
  cases c with
  | file c =>
    cases c with
    | read iAmt iOfst =>
      refine wp_mono ?_ (h.wp_read hmay)
      exact fun _ _ h' _ => h'
    | _ => exact hmay.elim
  | sync => exact hmay.elim
  | lock eLock =>
    show wp _ ((sqliteObjsLock s.file eLock >>= fun r => pure (r.1, FileResult.code r.2)) >>= _) _ w
    rw [LawfulMonad.bind_assoc, wp_bind]
    refine wp_mono ?_ (hc.wp_lock eLock)
    rintro ⟨q, rc⟩ w₁ hend
    refine wp_ret_of (P := fun w => (q.eLock = s.file.eLock → q.etag = s.file.etag) →
      q.readsSinceSharedLock = readsAfterLock s.file eLock ∧ Settled mine i C q w) hend
      (fun w w' hw hend hkept => ?_) fun w' hend hkept => ?_
    · exact ⟨(hend hkept).1, stable_settled w w' hw (hend hkept).2⟩
    obtain ⟨hcount, hq⟩ := hend hkept
    show ReadTx.Coherent mine i ⟨q, s.readsAfter (.lock eLock) (.code rc)⟩ w'
    unfold readsAfterLock at hcount
    split at hcount
    · next hstart =>
      have hafter : s.readsAfter (.lock eLock) (.code rc) = [] := if_pos hstart
      rw [hafter]
      exact .of_settled hq (fun x hx => nomatch hx) hcount (by simp)
    · next hstart =>
      have hafter : s.readsAfter (.lock eLock) (.code rc) = s.reads := if_neg hstart
      have hheld : s.file.eLock ≠ .none := fun hnone => hstart ⟨hmay hnone, hnone⟩
      rw [hafter]
      exact .of_settled hq hreads (hcount.trans (h.count hheld)) h.small
  | unlock eLock =>
    show wp _
      ((sqliteObjsUnlock s.file eLock >>= fun r => pure (r.1, FileResult.code r.2)) >>= _) _ w
    rw [LawfulMonad.bind_assoc, wp_bind]
    refine wp_mono ?_ (hc.wp_unlock eLock)
    rintro ⟨q, rc⟩ w₁ ⟨hcount, hnone, hq⟩
    exact hq.wp_ret fun w' hq' _ =>
      ⟨fun hheld => hcount.trans (h.count fun he => hheld (hnone he)), h.small, e, C, hq', hreads⟩

/-- Every run keeps the reads coherent. -/
theorem ReadTx.Coherent.reach {s₀ : ReadTx} {w₀ : World} (h₀ : s₀.Coherent mine i w₀)
    (hreach : (readTxSession mine v).Reach s₀ w₀ s w) : s.Coherent mine i w := by
  refine Session.inv_of_reach (fun s w => s.Coherent mine i w) h₀ ?_ ?_ hreach
  · exact fun c s w h hmay => wp_alone_disturbed (h.wp_call hmay)
  · intro s w w' h hw
    obtain ⟨e, C, hc, hreads⟩ := h.reads
    exact ⟨h.count, h.small, e, C, stable_coherent w w' hw hc, hreads⟩

end Session

section Main

variable {mine : LeaseId → Prop} {v v₁ : VfsData} {name : String} {uri : UriParams} {create : Bool}
  {ctx : Nat} {ops : AzureOps} {p₁ : ObjsFile} {s : ReadTx} {w₀ w₁ w : World} {b : Blob}
  {id : LeaseId}

/-- **Reads are validated.** A client opens an existing database with all of its bytes, and
locks, unlocks and reads it, while other clients change the blob between any two requests, leases
run out, and requests and system calls fail as they like; but no refused `xLock` has recorded
another ETag. Whenever the client has a lease that is active, all that it read since it
asked for `SHARED`, and all that it will read, is of the current content of the blob. -/
theorem reads_validated (hmode : uri.prefetch = .all) (hreuse : uri.cacheReuse = false)
    (hsel : selectedOps v uri = some (ops, ctx)) (hops : ops.Complete)
    (hblob : ∃ b, w₀.azure.blobs ⟨ctx, name⟩ = some b ∧ b.etag < w₀.azure.nextETag ∧
      pagesOf b.content.size (headerPageSize b.content defaultPageSize) ≤ maxPages)
    (hopen : Runs (World.served Sound) (sqliteObjsOpen v name uri .mainDb create) w₀
      (v₁, .ok p₁) w₁)
    (hreach : (readTxSession mine v).Reach ⟨p₁, []⟩ w₁ s w) (hlease : s.file.leaseId = some id)
    (hb : w.azure.blobs ⟨ctx, name⟩ = some b) (hactive : b.lease = .active id) :
    HasContent b.content s.file w.disk ∧ ∀ x ∈ s.reads, ReadOf b.content x := by
  obtain ⟨b₀, hb₀, hlt, hsmall⟩ := hblob
  have hopened := wp_alone_iff.mp (wp_open_sees (a := w₀.azure) (d := w₀.disk) hreuse hsel hops hb₀
    hlt hsmall) _ _ hopen
  obtain ⟨ha, -, -, hopened⟩ := hopened
  obtain ⟨hsees, hprefetch, hlock, -, het⟩ := hopened p₁ rfl
  have hb₁ : w₁.azure.blobs ⟨ctx, name⟩ = some b₀ := by rw [ha]; exact hb₀
  have hlt₁ : b₀.etag < w₁.azure.nextETag := by rw [ha]; exact hlt
  have hstart : ReadTx.Coherent mine ⟨ctx, name⟩ ⟨p₁, []⟩ w₁ := by
    refine ⟨fun hheld => absurd hlock hheld, by simp, b₀.etag, b₀.content, ?_, fun x hx =>
      nomatch hx⟩
    refine ⟨hsees.ops, hsees.blob, het, hsees.hasContent (hprefetch.trans hmode) hb₁ het, ?_⟩
    refine ⟨fun b hb => ?_, Azure.version_of_blob hb₁ hlt₁, fun id hid => ?_⟩
    · rw [← Option.some.inj (hb₁.symm.trans hb)]
      exact hlt₁
    · rw [hsees.lease] at hid
      cases hid
  obtain ⟨e, C, hc, hreads⟩ := (hstart.reach hreach).reads
  have hsame : b.content = C := hc.backs.version.2 b hb ((hc.backs.lease id hlease).2 b hb hactive)
  rw [hsame]
  exact ⟨hc.content, hreads⟩

/-- A machine that works, among rivals that get no lease. -/
theorem runs_amongRivals {α : Type} {m : Prog α} {a : α} {w w' : World} (n : Nat)
    (h : exec World.respond (List.replicate n {}) m w = some (a, w')) :
    Runs (amongRivals fun _ => True).disturbed m w a w' := by
  refine Setting.runs_disturbed (E := amongRivals fun _ => True)
    ((World.runs_of_exec n h).mono fun r w x w' hs => ⟨hs.imp fun _ hc => ⟨trivial, hc.2⟩, ?_⟩)
  unfold HandsOut
  split
  · exact fun _ => trivial
  · trivial

set_option maxRecDepth 8000 in
/-- A database of one sector is opened, another client doubles it; it is locked, read past its old
end, and then leased. -/
theorem reads_validated_grown : ∃ p₁ w₁ s w b,
    Runs (World.served Sound) (sqliteObjsOpen (.new 0) "db" {} .mainDb false) smallPageWorld
      (.new 0, .ok p₁) w₁ ∧
    (readTxSession (fun _ => True) (.new 0)).Reach ⟨p₁, []⟩ w₁ s w ∧ s.reads.length = 1 ∧
    w.azure.blobs ⟨0, "db"⟩ = some b ∧ b.content.size = 1024 ∧
    HasContent b.content s.file w.disk ∧ ∀ x ∈ s.reads, ReadOf b.content x := by
  obtain ⟨p₁, w₁, s, w, b, hopen, hreach, hlen, hlease, hb, hactive, hsize⟩ : ∃ p₁ w₁ s w b,
      Runs (World.served Sound) (sqliteObjsOpen (.new 0) "db" {} .mainDb false) smallPageWorld
        (.new 0, .ok p₁) w₁ ∧
      (readTxSession (fun _ => True) (.new 0)).Reach ⟨p₁, []⟩ w₁ s w ∧ s.reads.length = 1 ∧
      s.file.leaseId = some 1 ∧ w.azure.blobs ⟨0, "db"⟩ = some b ∧ b.lease = .active 1 ∧
      b.content.size = 1024 :=
    ⟨_, _, _, _, _, runs_sound 40 rfl,
      .call (.lock .reserved)
        (.call (.file (.read 100 600))
          (.call (.lock .shared)
            (.outside .refl (show (amongRivals fun _ => True).rely _
                ⟨(smallPageWorld.azure.respond (.pageBlobResize ⟨0, "db"⟩ 1024 none)).2, _⟩ from
              ⟨rfl, .single (.request (c := {}) (r := .pageBlobResize ⟨0, "db"⟩ 1024 none)
                (fun _ h => nomatch h) (fun _ _ h => nomatch h) rfl)⟩))
            (fun _ => rfl) (runs_amongRivals 40 rfl) (fun h => nomatch h))
          (show 0 < 2 ^ 31 - 1 by decide) (runs_amongRivals 10 rfl) (fun _ => rfl))
        (fun h => nomatch h) (runs_amongRivals 10 rfl) (fun h => nomatch h),
      rfl, rfl, rfl, rfl, rfl⟩
  have hsel : selectedOps (.new 0) ({} : UriParams) = some (azureProductionOps, 0) := rfl
  obtain ⟨hcontent, hreads⟩ := reads_validated rfl rfl hsel complete_production
    ⟨_, rfl, by decide, by decide⟩ hopen hreach hlease hb hactive
  exact ⟨p₁, w₁, s, w, b, hopen, hreach, hlen, hb, hsize, hcontent, hreads⟩

end Main
end SqliteObjs
