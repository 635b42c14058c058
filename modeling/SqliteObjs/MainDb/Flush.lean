import SqliteObjs.MainDb.Rules

/-!
# The writes of a flush

`xSync` writes its ranges in one batch, or one after the other. Both are followed here
with one fact `J A T`: the pieces of `A` are at the service, and the ETags in `T` are
answers to them. What a page write does to that fact is the premise `Flushing.put`, and
it is all that depends on who else is there.
-/

set_option autoImplicit false

namespace SqliteObjs

open Data CS CS.Program

/-- What the requests of a flush do to a fact about the pieces that are written and the
ETags that came back. -/
structure Flushing {W : Type} (E : Setting W Ans) (p : ObjsFile) (loaded : List PageRange)
    (J : (Nat → Prop) → (ETag → Prop) → W → Prop) : Prop where
  fact : ∀ A T, Fact E (J A T)
  mono : ∀ {A B : Nat → Prop} {T U : ETag → Prop} {w : W}, (∀ i, A i → B i) →
    (∀ e, T e → U e) → J B U w → J A T w
  /-- Piece `k` is written, perhaps without a word of it. -/
  put : ∀ {k : Nat} {r : PageRange}, loaded[k]? = some r → ∀ A T w (x : AzReply) w', J A T w →
    E.serve (.azure (.pageBlobWrite p.blob r.offset r.data p.leaseId (syncIfMatch p))) w x w' →
    E.guar w w' ∧ J A T w' ∧
      (x.err = .ok → J (fun i => A i ∨ i = k) (fun e => T e ∨ x.etag = some e) w')
  renew : ∀ A T, RenewKeeps E p (J A T)

section Flush

variable {W α : Type} {E : Setting W Ans} {view : W → World} {ok : Req → Choice → Prop}
  {d : Disk} {w : W} {p : ObjsFile} {loaded : List PageRange}
  {J : (Nat → Prop) → (ETag → Prop) → W → Prop} {A : Nat → Prop} {T : ETag → Prop}

/-! ## One page write -/

/-- The page write of piece `k`, with its argument checks and its retries. -/
theorem Flushing.wp_write_bind (hF : Flushing E p loaded J) (hE : Seen E view ok)
    (hk : Knows view (J A T) d w) {k : Nat} {r : PageRange} (hr : loaded[k]? = some r)
    {f : AzReply → Prog α} {Q : α → W → Prop}
    (hfail : ∀ x w', x.err ≠ .ok → Knows view (J A T) d w' → wp E (f x) Q w')
    (h : ∀ x w', x.err = .ok →
      Knows view (J (fun i => A i ∨ i = k) (fun e => T e ∨ x.etag = some e)) d w' →
      wp E (f x) Q w') :
    wp E (azPageBlobWrite p.blob r.offset r.data p.leaseId (syncIfMatch p) >>= f) Q w := by
  rw [wp_bind]
  have hbad : wp E (.ret { err := .invalidArg }) (fun x w => wp E (f x) Q w) w :=
    hk.wp_ret hE (hF.fact A T) fun w' hk' => hfail _ w' (by decide) hk'
  unfold azPageBlobWrite
  split
  · exact hbad
  split
  · exact hbad
  split
  · exact hbad
  refine SqliteObjs.wp_execute (Q := fun x w => wp E (f x) Q w) ((hF.fact A T).knows_stable hE)
    (fun _ _ _ hw hq => wp_stable hw hq) hk fun w x w' hk hs => ?_
  obtain ⟨hg, hkeep, hdone⟩ := hF.put hr A T w x w' hk.1 hs
  have hd : (view w').disk = d := (hE.azure_disk hs).trans hk.2
  refine ⟨hg, fun _ => ⟨hkeep, hd⟩, ?_⟩
  by_cases hx : x.err = .ok
  · exact h x w' hx ⟨hdone hx, hd⟩
  · exact hfail x w' hx ⟨hkeep, hd⟩

/-! ## A batch -/

/-- A renewal inside the event loop never comes back: the batch holds the mutex. -/
theorem Flushing.wp_batchRenewLease_bind (hF : Flushing E p loaded J) (hE : Seen E view ok)
    (hk : Knows view (J A T) d w) {last : Nat} {f : Option Nat → Prog α} {Q : α → W → Prop}
    (h : ∀ t w', Knows view (J A T) d w' → wp E (f (some t)) Q w') :
    wp E (batchRenewLease p.blob p.leaseId last >>= f) Q w := by
  have hret : ∀ t, wp E (.ret (some t)) (fun r w => wp E (f r) Q w) w :=
    fun t => hk.wp_ret hE (hF.fact A T) fun w' hk' => h t w' hk'
  rw [wp_bind]
  unfold batchRenewLease
  split
  · exact hret last
  refine wp_quiet_bind hE.quiet rfl fun now _ => ?_
  split
  · exact hret last
  · intro w₁ _ x w₂ hs
    obtain ⟨c, -, hr⟩ := hE.serve _ _ _ _ hs
    simp [World.respond] at hr

/-- The ETags of the answers that report success. -/
def tagsOf (msgs : List (Nat × AzReply)) (e : ETag) : Prop :=
  ∃ m ∈ msgs, m.2.err = .ok ∧ m.2.etag = some e

theorem Flushing.wp_batchSend (hF : Flushing E p loaded J) (hE : Seen E view ok) :
    ∀ (order : List Nat) (last : Nat) {A : Nat → Prop} {T : ETag → Prop} {w : W},
      Knows view (J A T) d w →
      wp E (batchSend p.blob loaded p.leaseId (syncIfMatch p) order last)
        (fun r w' => ∃ msgs, r = some msgs ∧
          Knows view (J (doneBy A msgs) (fun e => T e ∨ tagsOf msgs e)) d w') w
  | [], last, A, T, w, hk => by
    refine hk.wp_ret hE (hF.fact A T) fun w' hk' => ⟨[], rfl, ?_, hk'.2⟩
    exact hF.mono (fun i hi => by simpa [doneBy] using hi) (fun e he => by simpa [tagsOf] using he)
      hk'.1
  | i :: order, last, A, T, w, hk => by
    unfold batchSend
    split
    · exact hF.wp_batchSend hE order last hk
    next r hr =>
    refine SqliteObjs.wp_azure_bind hk ((hF.fact A T).knows_stable hE) fun w x w₁ hk hs => ?_
    obtain ⟨hg, hkeep, hdone⟩ := hF.put hr A T w x w₁ hk.1 hs
    have hd : (view w₁).disk = d := (hE.azure_disk hs).trans hk.2
    refine ⟨hg, ?_⟩
    -- the answer counts only if it reports success
    have hk₁ : Knows view (J (fun j => A j ∨ j = i ∧ x.err = .ok)
        (fun e => T e ∨ x.err = .ok ∧ x.etag = some e)) d w₁ := by
      refine ⟨?_, hd⟩
      by_cases hx : x.err = .ok
      · simpa [hx] using hdone hx
      · simpa [hx] using hkeep
    refine hF.wp_batchRenewLease_bind hE hk₁ fun t w₂ hk₂ => ?_
    rw [wp_bind]
    refine wp_mono ?_ (hF.wp_batchSend hE order t hk₂)
    rintro _ w₃ ⟨msgs, rfl, hk₃⟩
    refine hk₃.wp_ret hE (hF.fact _ _) fun w' hk' => ⟨(i, x) :: msgs, rfl, ?_, hk'.2⟩
    refine hF.mono ?_ ?_ hk'.1
    · rintro j (hj | ⟨m, hm, rfl, hx⟩)
      · exact Or.inl (Or.inl hj)
      rcases List.mem_cons.mp hm with rfl | hm
      · exact Or.inl (Or.inr ⟨rfl, hx⟩)
      · exact Or.inr ⟨m, hm, rfl, hx⟩
    · rintro e (he | ⟨m, hm, hx, he⟩)
      · exact Or.inl (Or.inl he)
      rcases List.mem_cons.mp hm with rfl | hm
      · exact Or.inl (Or.inr ⟨hx, he⟩)
      · exact Or.inr ⟨m, hm, hx, he⟩

/-- The ETag that is kept is one of the answers, or the one from before. -/
theorem foldl_etag {msgs : List (Nat × AzReply)} : ∀ {s : Option ETag} {e : ETag},
    msgs.foldl (fun s m => if m.2.err = .ok then m.2.etag.or s else s) s = some e →
      tagsOf msgs e ∨ s = some e := by
  induction msgs with
  | nil => exact fun h => Or.inr h
  | cons m msgs ih =>
    intro s e h
    rcases ih h with ⟨m', hm', h₁, h₂⟩ | h
    · exact Or.inl ⟨m', List.mem_cons_of_mem _ hm', h₁, h₂⟩
    dsimp only at h
    split at h
    · next hx =>
      cases he : m.2.etag with
      | none =>
        rw [he] at h
        exact Or.inr h
      | some e' =>
        rw [he] at h
        exact Or.inl ⟨m, List.mem_cons_self, hx, he.trans h⟩
    · exact Or.inr h

/-- A batch that succeeds wrote all its pieces. -/
theorem Flushing.wp_azPageBlobWriteBatch (hF : Flushing E p loaded J) (hE : Seen E view ok)
    (hk : Knows view (J A T) d w) :
    wp E (azPageBlobWriteBatch p.blob loaded p.leaseId (syncIfMatch p)) (fun x w' =>
      Knows view (J A T) d w' ∧ (x.err = .ok → (loaded = [] → x.etag = none) ∧
        Knows view (J (fun i => A i ∨ i < loaded.length) (fun e => T e ∨ x.etag = some e)) d w'))
      w := by
  have hfail : ∀ {x : AzReply} {w : W}, x.err ≠ .ok → Knows view (J A T) d w →
      wp E (.ret x) (fun x w' => Knows view (J A T) d w' ∧ (x.err = .ok →
        (loaded = [] → x.etag = none) ∧
        Knows view (J (fun i => A i ∨ i < loaded.length) (fun e => T e ∨ x.etag = some e)) d w'))
        w :=
    fun hx hk => hk.wp_ret hE (hF.fact A T) fun w' hk' => ⟨hk', fun h => absurd h hx⟩
  have hdone : ∀ {x : AzReply} {w : W}, (loaded = [] → x.etag = none) →
      Knows view (J (fun i => A i ∨ i < loaded.length) (fun e => T e ∨ x.etag = some e)) d w →
      wp E (.ret x) (fun x w' => Knows view (J A T) d w' ∧ (x.err = .ok →
        (loaded = [] → x.etag = none) ∧
        Knows view (J (fun i => A i ∨ i < loaded.length) (fun e => T e ∨ x.etag = some e)) d w'))
        w :=
    fun hnil hk => hk.wp_ret hE (hF.fact _ _) fun w' hk' =>
      ⟨⟨hF.mono (fun _ => Or.inl) (fun _ => Or.inl) hk'.1, hk'.2⟩, fun _ => ⟨hnil, hk'⟩⟩
  unfold azPageBlobWriteBatch
  split
  · exact hdone (fun _ => rfl) ⟨hF.mono (by simp) (by simp) hk.1, hk.2⟩
  · next r =>
    rw [← bind_pure (azPageBlobWrite _ _ _ _ _)]
    refine hF.wp_write_bind hE hk (k := 0) (r := r) rfl ?_ ?_
    · exact fun x w' hx hk' => hfail hx hk'
    · exact fun x w' _ hk' => hdone (by simp) ⟨hF.mono (by simp) (by simp) hk'.1, hk'.2⟩
  next hne _ =>
  refine wp_transferSetup_bind hE.quiet fun e _ => ?_
  split
  · next he => exact hfail he hk
  rw [wp_bind]
  have hstart : Knows view (J (fun i => A i ∨ False) (fun e => T e ∨ none = some e)) d w :=
    ⟨hF.mono (by simp) (by simp) hk.1, hk.2⟩
  refine wp_mono ?_ (wp_transfer _ hE.quiet
    (J := fun B (s : Option ETag) => Knows view (J (fun i => A i ∨ B i)
      (fun e => T e ∨ s = some e)) d)
    (fun B s => (hF.fact _ _).knows_stable hE) ?_ ?_ _ (fun _ => False) _ none List.nodup_range
    (fun _ _ => id) hstart)
  · rintro ⟨err, etag⟩ w₁ ⟨h₁, h₂⟩
    dsimp only at h₂ ⊢
    split
    · next herr =>
      have hall := h₂ herr
      exact hdone (fun h => absurd h hne) ⟨hF.mono (by simp) (by simp) hall.1, hall.2⟩
    · next herr =>
      exact hfail herr ⟨hF.mono (fun _ => Or.inl) (fun _ => Or.inl) h₁.1, h₁.2⟩
  · intro B C s w hsub hj
    exact ⟨hF.mono (fun i => Or.imp_right (hsub i)) (fun _ => id) hj.1, hj.2⟩
  · intro B order s w _ _ hj
    refine wp_quiet_bind hE.quiet rfl fun start _ => ?_
    rw [wp_bind]
    refine wp_mono ?_ (hF.wp_batchSend hE order start.n hj)
    rintro _ w₁ ⟨replies, rfl, hk₁⟩
    refine hk₁.wp_ret hE (hF.fact _ _) fun w' hk' => ⟨fun h => by simp at h, ?_⟩
    rintro _ _ ⟨⟩ msgs hp
    -- the answers in the order they came back
    refine ⟨hF.mono ?_ ?_ hk'.1, hk'.2⟩
    · rintro i (hi | hi | ⟨m, hm, hi⟩)
      · exact Or.inl (Or.inl hi)
      · exact Or.inl (Or.inr hi)
      · exact Or.inr ⟨m, hp.mem_iff.mp hm, hi⟩
    · rintro e (he | he)
      · exact Or.inl (Or.inl he)
      rcases foldl_etag he with ⟨m, hm, hx⟩ | he
      · exact Or.inr ⟨m, hp.mem_iff.mp hm, hx⟩
      · exact Or.inl (Or.inr he)

/-! ## One range after the other -/

/-- How the writes of a flush end. Only the time of the last renewal changes in the
file. Without ranges nothing is known of the ETag, unless there was a batch. -/
structure Flushed (view : W → World) (J : (Nat → Prop) → (ETag → Prop) → W → Prop) (d : Disk)
    (loaded : List PageRange) (A : Nat → Prop) (T : ETag → Prop) (p : ObjsFile)
    (r : ObjsFile × Except Rc (Option ETag)) (w : W) : Prop where
  file : ∃ t, r.1 = { p with leaseAcquiredAt := t }
  keeps : Knows view (J A T) d w
  failed : ∀ rc, r.2 = .error rc → rc ≠ .ok
  written : ∀ etag, r.2 = .ok etag → loaded ≠ [] →
    Knows view (J (fun i => A i ∨ i < loaded.length) (fun e => T e ∨ etag = some e)) d w
  nothing : loaded = [] → p.ops.pageBlobWriteBatch = true → ∀ etag, r.2 = .ok etag → etag = none

theorem Flushing.resized (hF : Flushing E p loaded J) (n t : Nat) :
    Flushing E { p with lastSyncedSize := n, leaseAcquiredAt := t } loaded J :=
  ⟨hF.fact, hF.mono, hF.put, hF.renew⟩

theorem Flushing.renewed (hF : Flushing E p loaded J) (t : Nat) :
    Flushing E { p with leaseAcquiredAt := t } loaded J :=
  hF.resized p.lastSyncedSize t

/-- A flush that stops with an error. -/
theorem Flushing.wp_stop (hF : Flushing E p loaded J) (hE : Seen E view ok)
    {q : ObjsFile} {rc : Rc} (hq : ∃ t, q = { p with leaseAcquiredAt := t }) (hrc : rc ≠ .ok)
    (hk : Knows view (J A T) d w) :
    wp E (.ret (q, .error rc)) (Flushed view J d loaded A T p) w := by
  refine hk.wp_ret hE (hF.fact _ _) fun w' hk' => ⟨hq, hk', ?_, ?_, ?_⟩
  · rintro _ ⟨⟩
    exact hrc
  · intro etag h
    cases h
  · intro _ _ etag h
    cases h

theorem Flushing.wp_renewEvery50_bind (hF : Flushing E p loaded J) (hE : Seen E view ok)
    (hk : Knows view (J A T) d w) {i : Nat} {f : ObjsFile × Rc → Prog α} {Q : α → W → Prop}
    (h : ∀ t rc w', Knows view (J A T) d w' → wp E (f ({ p with leaseAcquiredAt := t }, rc)) Q w') :
    wp E (renewEvery50 p i >>= f) Q w := by
  unfold renewEvery50
  split
  · exact hk.wp_leaseRenew_bind hE (hF.fact _ _) (hF.renew _ _) fun t rc w' hk' _ => h t rc w' hk'
  · exact h p.leaseAcquiredAt .ok w hk

/-- The ranges from `i` on. The ETag in hand is the answer to the range before. -/
theorem Flushing.wp_writeSequential (hE : Seen E view ok) :
    ∀ (rs : List PageRange) (i : Nat) (etag : Option ETag) {p : ObjsFile} {w : W},
      Flushing E p loaded J → loaded.drop i = rs → p.ops.pageBlobWriteBatch = false →
      Knows view (J (fun j => A j ∨ j < i) (fun e => T e ∨ 0 < i ∧ etag = some e)) d w →
      wp E (writeSequential rs i etag p) (Flushed view J d loaded A T p) w
  | [], i, etag, p, w, hF, hdrop, hops, hk => by
    refine hk.wp_ret hE (hF.fact _ _) fun w' hk' => ⟨⟨_, rfl⟩, ⟨?_, hk'.2⟩, ?_, ?_, ?_⟩
    · exact hF.mono (fun _ => Or.inl) (fun _ => Or.inl) hk'.1
    · intro rc h
      cases h
    · rintro _ ⟨⟩ hne
      have hlen : loaded.length ≤ i := List.drop_eq_nil_iff.mp hdrop
      have hpos : 0 < loaded.length := List.length_pos_iff.mpr hne
      refine ⟨hF.mono ?_ ?_ hk'.1, hk'.2⟩
      · exact fun j => Or.imp_right fun hj => by omega
      · exact fun e => Or.imp_right fun he => ⟨by omega, he⟩
    · intro _ hb
      rw [hops] at hb
      exact Bool.noConfusion hb
  | r :: rs, i, etag, p, w, hF, hdrop, hops, hk => by
    have hr : loaded[i]? = some r := by
      rw [← List.head?_drop, hdrop]
      rfl
    have hstop : ∀ {t : Nat} {rc : Rc} {w : W}, rc ≠ .ok →
        Knows view (J (fun j => A j ∨ j < i) (fun e => T e ∨ 0 < i ∧ etag = some e)) d w →
        wp E (.ret ({ p with leaseAcquiredAt := t }, .error rc)) (Flushed view J d loaded A T p)
        w :=
      fun hrc hk => hF.wp_stop hE ⟨_, rfl⟩ hrc
        ⟨hF.mono (fun _ => Or.inl) (fun _ => Or.inl) hk.1, hk.2⟩
    unfold writeSequential
    refine hF.wp_renewEvery50_bind hE hk fun t rc w₁ hk₁ => ?_
    dsimp only
    split
    · exact hstop (by decide) hk₁
    refine (hF.renewed t).wp_write_bind hE hk₁ hr ?_ ?_
    · intro x w₂ hx hk₂
      split
      · exact hstop (by decide) hk₂
      · exact hstop (by decide) hk₂
    intro x w₂ hx hk₂
    rw [if_neg (by rw [hx]; decide), if_neg (by rw [hx]; decide)]
    apply wp_mono (Q := Flushed view J d loaded A T { p with leaseAcquiredAt := t })
    · rintro q w' ⟨⟨t', hq⟩, h₁, h₂, h₃, h₄⟩
      exact ⟨⟨t', hq⟩, h₁, h₂, h₃, h₄⟩
    refine Flushing.wp_writeSequential hE rs (i + 1) x.etag (hF.renewed t) ?_ hops
      ⟨hF.mono ?_ ?_ hk₂.1, hk₂.2⟩
    · rw [← List.tail_drop, hdrop]
      rfl
    · rintro j (hj | hj)
      · exact Or.inl (Or.inl hj)
      · rcases Nat.lt_succ_iff_lt_or_eq.mp hj with hj | hj
        · exact Or.inl (Or.inr hj)
        · exact Or.inr hj
    · rintro e (he | he)
      · exact Or.inl (Or.inl he)
      · exact Or.inr he.2

/-- The writes of a flush, in a batch or one after the other. -/
theorem Flushing.wp_writeRanges (hF : Flushing E p loaded J) (hE : Seen E view ok)
    (hk : Knows view (J A T) d w) (aerr : Option (Option ETag)) :
    wp E (writeRanges p loaded aerr) (Flushed view J d loaded A T p) w := by
  unfold writeRanges
  split
  · rw [wp_bind]
    apply wp_mono _ (hF.wp_azPageBlobWriteBatch hE hk)
    rintro x w₁ ⟨hk₁, hx⟩
    split
    · exact hF.wp_stop hE ⟨_, rfl⟩ (by decide) hk₁
    split
    · exact hF.wp_stop hE ⟨_, rfl⟩ (by decide) hk₁
    next herr =>
    obtain ⟨hnil, hk₂⟩ := hx (by simpa using herr)
    refine hk₂.wp_ret hE (hF.fact _ _) fun w' hk' => ⟨⟨_, rfl⟩, ⟨?_, hk'.2⟩, ?_, ?_, ?_⟩
    · exact hF.mono (fun _ => Or.inl) (fun _ => Or.inl) hk'.1
    · intro rc h
      cases h
    · rintro _ ⟨⟩ _
      exact hk'
    · rintro h _ _ ⟨⟩
      exact hnil h
  · next hops =>
    have hseq : ∀ etag, wp E (writeSequential loaded 0 etag p) (Flushed view J d loaded A T p) w :=
      fun etag => Flushing.wp_writeSequential hE loaded 0 etag hF rfl (by simpa using hops)
        ⟨hF.mono (by simp) (by simp) hk.1, hk.2⟩
    unfold etagBefore
    split
    · exact hseq _
    · exact wp_quiet_bind hE.quiet rfl fun u _ => hseq _

/-! ## The whole of `xSync` -/

/-- What the requests of `xSync` do to a fact `B` from before the resize, and to the
facts `J` that follow the writes of the ranges. `cache` is the content of the cache
file. -/
structure Syncing (E : Setting W Ans) (p : ObjsFile) (cache : Bytes) (B : W → Prop)
    (J : List PageRange → (Nat → Prop) → (ETag → Prop) → W → Prop) : Prop where
  fact : Fact E B
  facts : ∀ loaded A T, Fact E (J loaded A T)
  mono : ∀ {loaded : List PageRange} {A A' : Nat → Prop} {T T' : ETag → Prop} {w : W},
    (∀ i, A i → A' i) → (∀ e, T e → T' e) → J loaded A' T' w → J loaded A T w
  renew : RenewKeeps E p B
  /-- No resize is needed. -/
  start : ∀ w, p.nData ≤ p.lastSyncedSize → B w → J [] (fun _ => False) (fun _ => False) w
  resize : p.lastSyncedSize < p.nData → ∀ w (x : AzReply) w', B w →
    E.serve (.azure (.pageBlobResize p.blob (align512 p.nData) p.leaseId)) w x w' →
    E.guar w w' ∧ (x.err ≠ .ok → B w') ∧
      (x.err = .ok → J [] (fun _ => False) (fun e => x.etag = some e) w')
  load : ∀ {loaded : List PageRange} {T : ETag → Prop} {w : W},
    J [] (fun _ => False) T w → J loaded (fun _ => False) T w
  flush : ∀ {ranges : List (Nat × Nat)} {loaded : List PageRange}, CoversDirty p ranges →
    Loaded cache ranges loaded → Flushing E p loaded (J loaded)
  snap : ∀ loaded A T w (x : AzReply) w', J loaded A T w →
    E.serve (.azure (.blobSnapshotCreate p.blob)) w x w' → E.guar w w' ∧ J loaded A T w'

/-- How `xSync` ends. -/
inductive SyncEnds (view : W → World) (B : W → Prop)
    (J : List PageRange → (Nat → Prop) → (ETag → Prop) → W → Prop) (d : Disk) (fd : Fd)
    (p : ObjsFile) : ObjsFile × Rc → W → Prop
  /-- There was nothing to do. -/
  | clean {w : W} : p.dirty.nSet = 0 → Knows view B d w → SyncEnds view B J d fd p (p, .ok) w
  /-- It failed before the blob had the size of the file. -/
  | early {rc : Rc} {t : Nat} {w : W} : rc ≠ .ok → Knows view B d w →
      SyncEnds view B J d fd p ({ p with leaseAcquiredAt := t }, rc) w
  /-- It failed later; some of the ranges may be written. -/
  | late {rc : Rc} {t : Nat} {loaded : List PageRange} {w : W} : rc ≠ .ok →
      Knows view (J loaded (fun _ => False) fun _ => False) d w →
      SyncEnds view B J d fd p
        ({ p with lastSyncedSize := max p.lastSyncedSize p.nData, leaseAcquiredAt := t }, rc) w
  | done {t : Nat} {snapshot : Option Snapshot} {etag : Option ETag} {ranges : List (Nat × Nat)}
      {loaded : List PageRange} {d' : Disk} {w : W} : CoversDirty p ranges →
      Loaded (d.inode fd) ranges loaded →
      (loaded = [] → p.ops.pageBlobWriteBatch = true → etag = none) →
      d'.inode = d.inode →
      Knows view (J loaded (· < loaded.length) fun e => loaded ≠ [] ∧ etag = some e) d' w →
      SyncEnds view B J d fd p
        ({ p with
            lastSyncedSize := max p.lastSyncedSize p.nData, leaseAcquiredAt := t
            lastSyncDirtyCount := p.dirty.nSet, etag := etag.or p.etag
            dirty := bitmapClearAll p.dirty, snapshot := snapshot }, .ok) w

/-! ### Sidecar files -/

/-- Sidecar files are not cache files. -/
theorem Disk.serve_sidecar_inode (d : Disk) (c : Choice) (path : Path) (ext : Ext)
    (content : Sidecar) : (d.serve c (.sidecarTrunc path ext)).2.inode = d.inode ∧
      (d.serve c (.sidecarWrite path ext content)).2.inode = d.inode ∧
      (d.serve c (.sidecarRename path ext content)).2.inode = d.inode := by
  simp only [Disk.serve]
  split <;> exact ⟨rfl, rfl, rfl⟩

variable {B : W → Prop}

theorem Knows.wp_persistEtag_bind (hk : Knows view B d w) (hE : Seen E view ok) (hB : Fact E B)
    {f : Unit → Prog α} {Q : α → W → Prop}
    (h : ∀ d' w', d'.inode = d.inode → Knows view B d' w' → wp E (f ()) Q w') :
    wp E (persistEtag p >>= f) Q w := by
  have hret : ∀ {d' : Disk} {w : W}, d'.inode = d.inode → Knows view B d' w →
      wp E (.ret ()) (fun u w => wp E (f u) Q w) w :=
    fun hd hk => hk.wp_ret hE hB fun w' hk' => h _ w' hd hk'
  rw [wp_bind]
  unfold persistEtag
  split
  · next path _ _ =>
    unfold writeEtagFile
    split
    · exact hret rfl hk
    refine wp_quiet_bind hE.quiet rfl fun m _ => ?_
    split
    · exact hret rfl hk
    refine hk.wp_sys_bind hE hB fun c w₁ _ hk₁ => ?_
    have h₁ := (d.serve_sidecar_inode c path .etag .empty).1
    split
    · exact hret h₁ hk₁
    refine hk₁.wp_sys_bind hE hB fun c' w₂ _ hk₂ => ?_
    exact hret ((Disk.serve_sidecar_inode _ c' path .etag _).2.1.trans h₁) hk₂
  · exact hret rfl hk

theorem Knows.wp_persistState_bind (hk : Knows view B d w) (hE : Seen E view ok) (hB : Fact E B)
    {f : Unit → Prog α} {Q : α → W → Prop}
    (h : ∀ d' w', d'.inode = d.inode → Knows view B d' w' → wp E (f ()) Q w') :
    wp E (persistState p >>= f) Q w := by
  have hret : ∀ {d' : Disk} {w : W}, d'.inode = d.inode → Knows view B d' w →
      wp E (.ret ()) (fun u w => wp E (f u) Q w) w :=
    fun hd hk => hk.wp_ret hE hB fun w' hk' => h _ w' hd hk'
  rw [wp_bind]
  unfold persistState
  split
  · unfold writeStateFile
    split
    · exact hret rfl hk
    refine wp_quiet_bind hE.quiet rfl fun m _ => ?_
    split
    · exact hret rfl hk
    refine hk.wp_sys_bind hE hB fun c w₁ _ hk₁ => ?_
    exact hret (d.serve_sidecar_inode c _ .state _).2.2 hk₁
  · exact hret rfl hk

theorem Knows.wp_finishFlush_bind (hk : Knows view B d w) (hE : Seen E view ok) (hB : Fact E B)
    {n : Int} {etag : Option ETag} {f : ObjsFile → Prog α} {Q : α → W → Prop}
    (h : ∀ d' w', d'.inode = d.inode → Knows view B d' w' →
      wp E (f { p with
        lastSyncDirtyCount := n, etag := etag.or p.etag, dirty := bitmapClearAll p.dirty }) Q w') :
    wp E (finishFlush p n etag >>= f) Q w := by
  rw [wp_bind]
  unfold finishFlush
  cases etag with
  | none => exact hk.wp_ret hE hB fun w' hk' => h d w' rfl hk'
  | some e =>
    refine hk.wp_persistEtag_bind hE hB fun d' w₁ hd hk₁ => ?_
    exact hk₁.wp_ret hE hB fun w' hk' => h d' w' hd hk'

/-! ### The steps of `xSync` -/

variable {J : List PageRange → (Nat → Prop) → (ETag → Prop) → W → Prop} {cache : Bytes}

theorem Syncing.renewed (hS : Syncing E p cache B J) (t : Nat) :
    Syncing E { p with leaseAcquiredAt := t } cache B J :=
  { hS with flush := fun hc hl => (hS.flush (hc.congr rfl rfl rfl) hl).renewed t }

theorem Syncing.wp_resizeForSync_bind (hS : Syncing E p cache B J) (hE : Seen E view ok)
    (hops : p.ops.Complete) (hk : Knows view B d w)
    {f : ObjsFile × Rc × Option (Option ETag) → Prog α} {Q : α → W → Prop}
    (hfail : ∀ rc w', rc ≠ .ok → Knows view B d w' → wp E (f (p, rc, none)) Q w')
    (h : ∀ T aerr w', Knows view (J [] (fun _ => False) T) d w' →
      wp E (f ({ p with lastSyncedSize := max p.lastSyncedSize p.nData }, .ok, aerr)) Q w') :
    wp E (resizeForSync p >>= f) Q w := by
  have hres : p.ops.pageBlobResize = true := by rw [hops]; rfl
  rw [wp_bind]
  unfold resizeForSync
  by_cases hlt : p.lastSyncedSize < p.nData
  · rw [if_pos ⟨hlt, hres⟩]
    unfold azPageBlobResize
    rw [if_neg (by unfold align512; omega)]
    refine SqliteObjs.wp_execute_bind (hS.fact.knows_stable hE) hk fun w x w' hk hs => ?_
    obtain ⟨hg, hbad, hgood⟩ := hS.resize hlt w x w' hk.1 hs
    have hd : (view w').disk = d := (hE.azure_disk hs).trans hk.2
    refine ⟨hg, fun hretry => ?_, ?_⟩
    · refine ⟨hbad fun h => ?_, hd⟩
      rw [h] at hretry
      exact Bool.noConfusion hretry
    split
    · next hx =>
      exact Knows.wp_ret ⟨hbad hx, hd⟩ hE hS.fact fun w' hk' => hfail _ w' (by decide) hk'
    · next hx =>
      have hmax : max p.lastSyncedSize p.nData = p.nData := Nat.max_eq_right (Nat.le_of_lt hlt)
      rw [hmax] at h
      exact Knows.wp_ret ⟨hgood (by simpa using hx), hd⟩ hE (hS.facts _ _ _)
        fun w' hk' => h _ _ w' hk'
  · rw [if_neg (fun h => hlt h.1)]
    rw [Nat.max_eq_left (Nat.le_of_not_lt hlt)] at h
    exact Knows.wp_ret ⟨hS.start w (Nat.le_of_not_lt hlt) hk.1, hk.2⟩ hE (hS.facts _ _ _)
      fun w' hk' => h _ _ w' hk'

theorem Syncing.wp_takeSnapshot_bind (hS : Syncing E p cache B J) (hE : Seen E view ok)
    {q : ObjsFile} {loaded : List PageRange} (hq : q.blob = p.blob)
    (hk : Knows view (J loaded A T) d w) {f : ObjsFile → Prog α} {Q : α → W → Prop}
    (h : ∀ s w', Knows view (J loaded A T) d w' → wp E (f { q with snapshot := s }) Q w') :
    wp E (takeSnapshot q >>= f) Q w := by
  rw [wp_bind]
  unfold takeSnapshot
  split
  · unfold azBlobSnapshotCreate
    rw [hq]
    refine hk.wp_execute_bind hE (hS.facts _ _ _) (hS.snap loaded A T) fun x w' hk' => ?_
    refine hk'.wp_ret hE (hS.facts _ _ _) fun w' hk' => ?_
    split
    · exact h _ w' hk'
    · exact h q.snapshot w' hk'
  · exact hk.wp_ret hE (hS.facts _ _ _) fun w' hk' => h q.snapshot w' hk'

/-- `xSync`, once the disk works: it fails, or the ranges cover the dirty pages and are
all written. -/
theorem Syncing.wp_mainDbSync (hS : Syncing E p cache B J) (hE : Seen E view ok)
    (hdisk : DiskWorks ok) (hops : p.ops.Complete) {fd : Fd} (hfd : p.cacheFd = some fd)
    {blob : Bytes} (hm : Mirror p cache blob) (hcache : d.inode fd = cache)
    (hk : Knows view B d w) : wp E (mainDbSync p) (SyncEnds view B J d fd p) w := by
  have hmax : max p.lastSyncedSize p.nData = p.nData :=
    Nat.max_eq_right (Nat.le_trans hm.synced hm.blobSize)
  unfold mainDbSync
  split
  · next h0 => exact hk.wp_ret hE hS.fact fun w' hk' => .clean h0 hk'
  have hwr : p.ops.pageBlobWrite = true := by rw [hops]; rfl
  rw [if_neg (by simp [hwr])]
  refine hk.wp_leaseRenew_bind hE hS.fact hS.renew fun t rc w₁ hk₁ _ => ?_
  dsimp only
  split
  · exact hk₁.wp_ret hE hS.fact fun w' hk' => .early (by decide) hk'
  refine (hS.renewed t).wp_resizeForSync_bind hE hops hk₁ ?_ ?_
  · intro rc w₂ hrc hk₂
    dsimp only
    rw [if_pos hrc]
    exact hk₂.wp_ret hE hS.fact fun w' hk' => .early hrc hk'
  intro T aerr w₂ hk₂
  dsimp only
  rw [if_neg (by simp)]
  -- every failure from here on leaves what the resize made
  have hlate : ∀ {loaded : List PageRange} {T : ETag → Prop} {t : Nat} {rc : Rc} {w : W}, rc ≠ .ok →
      Knows view (J loaded (fun _ => False) T) d w →
      wp E (.ret ({ p with
        lastSyncedSize := max p.lastSyncedSize p.nData, leaseAcquiredAt := t }, rc))
        (SyncEnds view B J d fd p) w :=
    fun hrc hk => hk.wp_ret hE (hS.facts _ _ _) fun w' hk' =>
      .late hrc ⟨hS.mono (fun _ => id) (fun _ => False.elim) hk'.1, hk'.2⟩
  generalize hp' : { p with
    lastSyncedSize := max p.lastSyncedSize p.nData, leaseAcquiredAt := t } = p'
  have hm' : Mirror p' cache (blob.truncate p.nData) := by
    apply hm.resize.congr <;> rw [← hp']
    exact Nat.le_of_eq hmax
  refine wp_syncRanges_bind hE.quiet hm' (fun rc hrc => hp' ▸ hlate hrc hk₂) fun ranges hc' => ?_
  have hc : CoversDirty p ranges := by
    apply hc'.congr <;> rw [← hp']
  have hin : ∀ r ∈ ranges, r.1 + r.2 ≤ (d.inode fd).size := by
    rw [hcache, hm.cacheSize]
    exact hc.inside
  refine hk₂.wp_loadRanges_bind hE (hS.facts _ _ _) hdisk (by rw [← hp']; exact hfd) hin ?_ ?_
  · exact fun rc w₃ hrc hk₃ => hp' ▸ hlate hrc hk₃
  intro loaded w₃ hl hk₃
  dsimp only
  rw [hcache] at hl
  have hF : Flushing E p' loaded (J loaded) := by
    rw [← hp']
    exact (hS.flush hc hl).resized _ t
  rw [wp_bind]
  refine wp_mono ?_ (hF.wp_writeRanges hE (A := fun _ => False) (T := T)
    ⟨hS.load hk₃.1, hk₃.2⟩ aerr)
  rintro ⟨q, rc | etag⟩ w₄ hend
  · obtain ⟨t', rfl⟩ := hend.file
    rw [← hp']
    exact hlate (hend.failed rc rfl) hend.keeps
  obtain ⟨t', rfl⟩ := hend.file
  dsimp only
  -- all the pieces are written; the rest only keeps the books
  have hall : Knows view (J loaded (· < loaded.length) fun e => loaded ≠ [] ∧ etag = some e)
      d w₄ := by
    by_cases hne : loaded = []
    · subst hne
      exact ⟨hS.mono (by simp) (by simp) hend.keeps.1, hend.keeps.2⟩
    · have hw := hend.written etag rfl hne
      exact ⟨hS.mono (fun _ => Or.inr) (fun _ he => Or.inr he.2) hw.1, hw.2⟩
  refine hall.wp_finishFlush_bind hE (hS.facts _ _ _) fun d₁ w₅ hd₁ hk₅ => ?_
  refine hS.wp_takeSnapshot_bind hE (by rw [← hp']; rfl) hk₅ fun snapshot w₆ hk₆ => ?_
  refine hk₆.wp_persistState_bind hE (hS.facts _ _ _) fun d₂ w₇ hd₂ hk₇ => ?_
  refine hk₇.wp_ret hE (hS.facts _ _ _) fun w' hk' => ?_
  have hnothing := hend.nothing
  rw [← hp'] at hnothing ⊢
  exact .done hc (hcache ▸ hl) (fun h hb => hnothing h hb etag rfl) (hd₂.trans hd₁) hk'

end Flush
end SqliteObjs
