import SqliteObjs.Vfs.Process

/-!
# Hot journals of other processes

A crashed process leaves its journal behind. Whether another process sees it depends
on what that process remembers: `xAccess` asks the service unless the journal cache
has an answer, and a remembered absence is never checked again. `hot_journal_seen_iff`
says that this is the only way to miss the journal.
-/

set_option autoImplicit false

namespace SqliteObjs

open Data CS CS.Program

/-! ## Programs while a blob stays -/

section Stays

variable {W α : Type} {E : Setting W Ans} {w : W} {i : BlobId} {P : W → Prop}

/-- While `P` holds the blob `i` is there, and nobody's request ends that. -/
structure KeepsBlob (E : Setting W Ans) (i : BlobId) (P : W → Prop) : Prop where
  stable : Stable E P
  guar : ∀ r w (x : Ans r) w', E.serve r w x w' → E.guar w w'
  keeps : ∀ r w (x : Ans r) w', P w → E.serve r w x w' → P w'
  head : ∀ w (x : AzReply) w', P w → E.serve (.azure (.blobGetProperties i)) w x w' →
    x.err = .ok
  delete : ∀ w (x : AzReply) w', P w → E.serve (.azure (.blobDelete i)) w x w' →
    x.err ≠ .ok ∧ x.err ≠ .notFound

/-- No program ends it. -/
theorem KeepsBlob.wp_any (hE : KeepsBlob E i P) (m : Prog α) :
    ∀ {w : W}, P w → wp E m (fun _ w' => P w') w := by
  induction m with
  | ret a => exact fun hP w₁ hw => hE.stable _ _ hw hP
  | call r k ih =>
    intro w hP w₁ hw x w₂ hs
    exact ⟨hE.guar r w₁ x w₂ hs, ih x (hE.keeps r w₁ x w₂ (hE.stable _ _ hw hP) hs)⟩

/-- A program whose result does not matter. -/
theorem KeepsBlob.wp_bind_any (hE : KeepsBlob E i P) {β : Type} {m : Prog α} {f : α → Prog β}
    {Q : β → W → Prop} (hP : P w) (h : ∀ a w', P w' → wp E (f a) Q w') :
    wp E (m >>= f) Q w :=
  wp_bind.mpr (wp_mono (fun a w' => h a w') (hE.wp_any m hP))

/-- The existence check of the blob finds it. -/
theorem KeepsBlob.wp_exists_bind (hE : KeepsBlob E i P) {f : AzErr × Bool → Prog α}
    {Q : α → W → Prop} (hP : P w) (h : ∀ w', P w' → wp E (f (.ok, true)) Q w') :
    wp E (azBlobExists i >>= f) Q w := by
  rw [wp_bind]
  unfold azBlobExists azBlobGetProperties
  refine wp_execute_bind hE.stable hP ?_
  intro w₁ x w₂ hP₁ hs
  have hP₂ := hE.keeps _ _ _ _ hP₁ hs
  refine ⟨hE.guar _ _ _ _ hs, fun _ => hP₂, ?_⟩
  rw [if_pos (hE.head _ _ _ hP₁ hs)]
  exact fun w₃ hw => h w₃ (hE.stable _ _ hw hP₂)

end Stays

/-! ## What the process remembers -/

section Remember

variable {W : Type} {E : Setting W Ans} {w : W} {i : BlobId} {P : W → Prop} {v : VfsData}

/-- The process does not remember that the blob's name is missing. -/
def NotAbsent (v : VfsData) (n : String) : Prop := journalCacheState v n ≠ some false

theorem NotAbsent.put {n m : String} (h : NotAbsent v n) {ex : Bool} (hm : m = n → ex = true) :
    NotAbsent (journalCachePut v m ex) n := by
  unfold NotAbsent
  by_cases hn : n = m
  · subst hn
    rw [hm rfl]
    rcases journalCacheState_put_self v n true with h' | h'
    · simp [h']
    · simp [h']
  · rw [journalCacheState_put_of_ne hn]
    exact h

/-- `xOpen` of any file. -/
theorem KeepsBlob.open (hE : KeepsBlob E i P) (hP : P w) (hv : NotAbsent v i.name) {uri : UriParams}
    (hctx : ∀ ops c, selectedOps v uri = some (ops, c) → c = i.ctx) (hq : Quiet E)
    (name : String) (ft : FileType) (create : Bool) :
    wp E (sqliteObjsOpen v name uri ft create)
      (fun r w' => P w' ∧ NotAbsent r.1 i.name) w := by
  have hdone : ∀ {r : Except Rc ObjsFile} {v' : VfsData} {w' : W}, NotAbsent v' i.name → P w' →
      wp E (.ret (v', r)) (fun r w' => P w' ∧ NotAbsent r.1 i.name) w' :=
    fun hv' hP' => wp_ret_of hP' hE.stable fun _ hP'' => ⟨hP'', hv'⟩
  unfold sqliteObjsOpen
  split
  · exact hdone hv hP
  refine wp_quiet_bind hq rfl fun m _ => ?_
  split
  · exact hdone hv hP
  refine wp_selectOps_bind hq (fun _ => hdone hv hP) ?_
  intro ops c hsel
  obtain rfl := hctx ops c hsel
  cases ft with
  | mainDb => exact hE.wp_bind_any hP fun r w' hP' => hdone hv hP'
  | wal => exact hE.wp_bind_any hP fun r w' hP' => hdone hv hP'
  | mainJournal =>
    dsimp only
    unfold openJournal
    -- the check gives the entry a right answer, or leaves it
    have hexists : wp E (journalExists v (newFile ops i.ctx name uri .mainJournal))
        (fun r w' => P w' ∧ NotAbsent r.1 i.name) w := by
      have hcreate : NotAbsent (journalCacheGetOrCreate v name).1 i.name := by
        unfold NotAbsent
        rw [journalCacheState_getOrCreate]
        exact hv
      unfold journalExists
      dsimp only
      split
      · exact wp_ret_of hP hE.stable fun _ hP' => ⟨hP', hcreate⟩
      split
      · by_cases hname : name = i.name
        · subst hname
          refine hE.wp_exists_bind hP fun w' hP' => ?_
          exact wp_ret_of hP' hE.stable fun _ hP'' => ⟨hP'', hv.put fun _ => rfl⟩
        · refine hE.wp_bind_any hP fun r w' hP' => ?_
          exact wp_ret_of hP' hE.stable fun _ hP'' => ⟨hP'', hv.put fun h => absurd h hname⟩
      · exact wp_ret_of hP hE.stable fun _ hP' => ⟨hP', hcreate⟩
    rw [wp_bind]
    refine wp_mono ?_ hexists
    rintro ⟨v', ex⟩ w' ⟨hP', hv'⟩
    dsimp only
    split
    · refine hE.wp_bind_any hP' fun x w'' hP'' => ?_
      split
      · refine hE.wp_bind_any hP'' fun r w₃ hP₃ => ?_
        rcases r with ⟨data, rc⟩
        dsimp only
        split
        · exact hdone hv' hP₃
        · exact hdone hv' hP₃
      · exact hdone hv' hP''
    · exact hdone hv' hP'

/-- `xSync` of any file. -/
theorem KeepsBlob.sync (hE : KeepsBlob E i P) (hP : P w) (hv : NotAbsent v i.name) (p : ObjsFile) :
    wp E (sqliteObjsSync v p) (fun r w' => P w' ∧ NotAbsent r.1 i.name) w := by
  have hdone : ∀ {r : ObjsFile × Rc} {v' : VfsData} {w' : W}, NotAbsent v' i.name → P w' →
      wp E (.ret (v', r)) (fun r w' => P w' ∧ NotAbsent r.1 i.name) w' :=
    fun hv' hP' => wp_ret_of hP' hE.stable fun _ hP'' => ⟨hP'', hv'⟩
  unfold sqliteObjsSync
  split
  · exact hE.wp_bind_any hP fun r w' hP' => hdone hv hP'
  · rw [wp_bind]
    unfold journalSync
    split
    · refine hE.wp_bind_any hP fun x w' hP' => ?_
      split
      · exact wp_ret_of hP' hE.stable fun _ hP'' => hdone hv hP''
      · exact wp_ret_of hP' hE.stable fun _ hP'' => hdone (hv.put fun _ => rfl) hP''
    · exact wp_ret_of hP hE.stable fun _ hP' => hdone hv hP'
  · exact hE.wp_bind_any hP fun r w' hP' => hdone hv hP'

/-- `xClose` of any file. -/
theorem KeepsBlob.close (hE : KeepsBlob E i P) (hP : P w) (hv : NotAbsent v i.name) (p : ObjsFile) :
    wp E (sqliteObjsClose v p) (fun r w' => P w' ∧ NotAbsent r.1 i.name) w := by
  have hflush : wp E (closeFlush v p) (fun r w' => P w' ∧ NotAbsent r.1 i.name) w := by
    unfold closeFlush
    split
    · exact hE.sync hP hv p
    split
    · exact hE.sync hP hv p
    · exact wp_ret_of hP hE.stable fun _ hP' => ⟨hP', hv⟩
  unfold sqliteObjsClose
  rw [wp_bind]
  refine wp_mono ?_ hflush
  rintro ⟨v', p', rc⟩ w' ⟨hP', hv'⟩
  refine hE.wp_bind_any hP' fun _ _ hP' => hE.wp_bind_any hP' fun _ _ hP' => ?_
  refine hE.wp_bind_any hP' fun _ _ hP' => hE.wp_bind_any hP' fun _ _ hP' => ?_
  exact wp_ret_of hP' hE.stable fun _ hP'' => ⟨hP'', hv'⟩

/-- `xDelete`: the blob's own name is not deleted. -/
theorem KeepsBlob.deleteName (hE : KeepsBlob E i P) (hP : P w) (hv : NotAbsent v i.name)
    {mainFile : Option (AzureOps × Nat)} {name : String}
    (hctx : ∀ ops c, resolveOps v mainFile name = some (ops, c) → c = i.ctx) :
    wp E (sqliteObjsDelete v mainFile name) (fun r w' => P w' ∧ NotAbsent r.1 i.name) w := by
  have hdone : ∀ {r : Delegated Rc} {w' : W}, P w' →
      wp E (.ret (v, r)) (fun r w' => P w' ∧ NotAbsent r.1 i.name) w' :=
    fun hP' => wp_ret_of hP' hE.stable fun _ hP'' => ⟨hP'', hv⟩
  unfold sqliteObjsDelete
  split
  · exact hdone hP
  split
  · exact hdone hP
  next ops c hres =>
  obtain rfl := hctx ops c hres
  split
  · exact hdone hP
  by_cases hname : name = i.name
  · subst hname
    unfold azBlobDelete
    refine wp_execute_bind hE.stable hP ?_
    intro w₁ x w₂ hP₁ hs
    have hP₂ := hE.keeps _ _ _ _ hP₁ hs
    obtain ⟨hok, hnf⟩ := hE.delete _ _ _ hP₁ hs
    refine ⟨hE.guar _ _ _ _ hs, fun _ => hP₂, ?_⟩
    rw [if_neg hnf, if_pos hok]
    exact hdone hP₂
  · have hset : NotAbsent (journalCacheSet v name false) i.name := by
      unfold NotAbsent
      rw [journalCacheState_set_of_ne (Ne.symm hname)]
      exact hv
    refine hE.wp_bind_any hP fun x w' hP' => ?_
    split
    · exact wp_ret_of hP' hE.stable fun _ hP'' => ⟨hP'', hset⟩
    split
    · exact hdone hP'
    · exact wp_ret_of hP' hE.stable fun _ hP'' => ⟨hP'', hset⟩

/-- `xAccess` of the blob's name finds it. -/
theorem KeepsBlob.access (hE : KeepsBlob E i P) (hP : P w) (hv : NotAbsent v i.name)
    {mainFile : Option (AzureOps × Nat)} {name : String} {flags : AccessFlag} {ops : AzureOps}
    (hops : ops.Complete) (hres : resolveOps v mainFile name = some (ops, i.ctx)) :
    wp E (sqliteObjsAccess v mainFile name flags) (fun r w' => P w' ∧ NotAbsent r.1 i.name ∧
        (sqliteObjsIsAzurePath name = true → name = i.name → flags ≠ .other →
          r.2 = .done true)) w := by
  have hyes : flags ≠ .other → accessResult flags true = true := by
    cases flags <;> simp [accessResult]
  have hex : ops.blobExists = true := by rw [hops]; rfl
  unfold sqliteObjsAccess
  split
  · next hpath =>
    exact wp_ret_of hP hE.stable fun _ hP' => ⟨hP', hv, fun h => by simp [h] at hpath⟩
  rw [hres]
  dsimp only
  rw [hex]
  simp only [Bool.not_true, Bool.false_eq_true, if_false]
  cases hst : journalCacheState v name with
  | some cached =>
    refine wp_ret_of hP hE.stable fun _ hP' => ⟨hP', hv, fun _ hname hf => ?_⟩
    subst hname
    cases cached with
    | false => exact absurd hst hv
    | true => exact congrArg _ (hyes hf)
  | none =>
    by_cases hname : name = i.name
    · subst hname
      refine hE.wp_exists_bind hP fun w' hP' => ?_
      simp only [ne_eq, not_true_eq_false, if_false]
      refine wp_ret_of hP' hE.stable fun _ hP'' => ⟨hP'', ?_, fun _ _ hf => congrArg _ (hyes hf)⟩
      dsimp only
      split
      · exact hv.put fun _ => rfl
      · exact hv
    · refine hE.wp_bind_any hP fun r w' hP' => ?_
      rcases r with ⟨arc, found⟩
      dsimp only
      split
      · exact wp_ret_of hP' hE.stable fun _ hP'' => ⟨hP'', hv, fun _ h => absurd h hname⟩
      · refine wp_ret_of hP' hE.stable fun _ hP'' => ⟨hP'', ?_, fun _ h => absurd h hname⟩
        dsimp only
        split
        · exact hv.put fun h => absurd h hname
        · exact hv

end Remember

/-! ## Runs of several processes -/

section Runs

variable {ι : Type} [DecidableEq ι] {A : ι} {i : BlobId}

/-- Nobody deletes or replaces the blob, the service is healthy, and process `A` works
in the blob's container. -/
def BlobStays (A : ι) (i : BlobId) : Interleaving.Condition ι (Machines ι) Choice Ans Process
    VfsCall where
  start j c s _ := j = A → c.inContainer i.ctx s.v
  serve _ _ _ ch r w := Healthy ch ∧ ∀ a, r = .azure a → ∀ b, w.azure.blobs i = some b →
    ∃ b', (w.azure.respond a).2.blobs i = some b' ∧ b'.etag = b.etag

/-- The blob is there. -/
def Present (i : BlobId) (w : Machines ι) : Prop := ∃ b, w.azure.blobs i = some b

theorem present_of_respond {j : ι} {c : VfsCall} {s : Process} {ch : Choice} {r : Req}
    {w w' : Machines ι} {x : Ans r} (hK : (BlobStays A i).serve j c s ch r w)
    (h : Machines.respond j ch r w = some (x, w')) (hP : Present i w) : Present i w' := by
  obtain ⟨b, hb⟩ := hP
  cases r with
  | azure a =>
    obtain ⟨b', hb', -⟩ := hK.2 a rfl b hb
    rw [Present, (Machines.respond_healthy hK.1 h).2]
    exact ⟨b', hb'⟩
  | sys r =>
    rw [Present, Machines.respond_sys h]
    exact ⟨b, hb⟩

omit [DecidableEq ι] in
theorem present_expire {w : Machines ι} (j : BlobId) (h : Present i w) :
    Present i { w with azure := w.azure.expire j } := by
  obtain ⟨b, hb⟩ := h
  unfold Present Azure.expire
  dsimp only
  split
  · exact ⟨b, hb⟩
  split
  · by_cases hij : i = j
    · subst hij
      exact ⟨_, Azure.set_blobs_self _ _ _⟩
    · exact ⟨b, by rw [Azure.set_blobs_ne _ _ hij]; exact hb⟩
  · exact ⟨b, hb⟩

/-- The interference while the blob stays. -/
def staysSetting (A : ι) (i : BlobId) (j : ι) (c : VfsCall) (s : Process) :
    Setting (Machines ι) Ans where
  rely w w' := Present i w → Present i w'
  serve r w x w' := ∃ ch, (BlobStays A i).serve j c s ch r w ∧
    (clients ι).respond j ch r w = some (x, w')
  guar w w' := ∀ k, k ≠ j → Present i w → Present i w'
  rely_refl _ h := h
  rely_trans h h' hp := h' (h hp)

theorem keepsBlob_stays (j : ι) (c : VfsCall) (s : Process) :
    KeepsBlob (staysSetting A i j c s) i (Present i) where
  stable _ _ h := h
  guar r w x w' := by
    rintro ⟨ch, hK, hs⟩ k -
    exact present_of_respond hK hs
  keeps r w x w' hP := by
    rintro ⟨ch, hK, hs⟩
    exact present_of_respond hK hs hP
  head w x w' hP := by
    rintro ⟨ch, hK, hs⟩
    obtain ⟨b, hb⟩ := hP
    rw [(Machines.respond_healthy hK.1 hs).1]
    simp only [Azure.respond, hb]
  delete w x w' hP := by
    rintro ⟨ch, hK, hs⟩
    obtain ⟨b, hb⟩ := hP
    obtain ⟨b', hb', -⟩ := hK.2 _ rfl b hb
    rw [(Machines.respond_healthy hK.1 hs).1]
    -- an accepted delete would end it
    simp only [Azure.respond, hb] at hb' ⊢
    split at hb'
    · simp at hb'
    · next hadm =>
      rw [if_neg hadm]
      simp

theorem quiet_stays (j : ι) (c : VfsCall) (s : Process) : Quiet (staysSetting A i j c s) := by
  rintro r hr w x w' ⟨ch, hK, hs⟩
  exact ⟨Machines.respond_quiet hr hs, fun _ _ h => h⟩

/-- One call of the process keeps what it remembers, and an `xAccess` of the blob's
name finds it. -/
theorem wp_call_stays {c : VfsCall} {s : Process} {w : Machines ι} (hP : Present i w)
    (hv : NotAbsent s.v i.name) (hc : c.inContainer i.ctx s.v) :
    wp (staysSetting A i A c s) (c.code s) (fun r w' => (Present i w' ∧ NotAbsent r.1.v i.name) ∧
      ∀ mainFile, c = .access mainFile i.name .exists → sqliteObjsIsAzurePath i.name = true →
        r.2 = .accessed (.done true)) w := by
  have hE := keepsBlob_stays (A := A) (i := i) A c s
  have hq := quiet_stays (A := A) (i := i) A c s
  have hdone : ∀ {r : Process × VfsResult} {w' : Machines ι},
      (∀ mainFile, c ≠ .access mainFile i.name .exists) → NotAbsent r.1.v i.name → Present i w' →
      wp (staysSetting A i A c s) (.ret r) (fun r w' => (Present i w' ∧ NotAbsent r.1.v i.name) ∧
        ∀ mainFile, c = .access mainFile i.name .exists → sqliteObjsIsAzurePath i.name = true →
          r.2 = .accessed (.done true)) w' :=
    fun hne hv' hP' => wp_ret_of hP' hE.stable fun _ hP'' =>
      ⟨⟨hP'', hv'⟩, fun mainFile h => absurd h (hne mainFile)⟩
  have hfile : (∀ mainFile, c ≠ .access mainFile i.name .exists) →
      ∀ h f, wp (staysSetting A i A c s) (VfsCall.onFile s h f)
        (fun r w' => (Present i w' ∧ NotAbsent r.1.v i.name) ∧
          ∀ mainFile, c = .access mainFile i.name .exists → sqliteObjsIsAzurePath i.name = true →
            r.2 = .accessed (.done true)) w := by
    intro hne h f
    unfold VfsCall.onFile
    split
    · exact hdone hne hv hP
    · exact hE.wp_bind_any hP fun r w' hP' => hdone hne hv hP'
  cases c with
  | «open» h name uri ft create =>
    refine wp_bind.mpr (wp_mono ?_ (hE.open hP hv hc hq name ft create))
    rintro ⟨v', r⟩ w' ⟨hP', hv'⟩
    cases r with
    | ok p => exact hdone (by simp) hv' hP'
    | error rc => exact hdone (by simp) hv' hP'
  | close h =>
    simp only [VfsCall.code]
    split
    · exact hdone (by simp) hv hP
    · next p _ =>
      refine wp_bind.mpr (wp_mono ?_ (hE.close hP hv p))
      rintro ⟨v', rc⟩ w' ⟨hP', hv'⟩
      exact hdone (by simp) hv' hP'
  | read h iAmt iOfst => exact hfile (by simp) h _
  | write h buf iOfst => exact hfile (by simp) h _
  | truncate h size => exact hfile (by simp) h _
  | sync h =>
    simp only [VfsCall.code]
    split
    · exact hdone (by simp) hv hP
    · next p _ =>
      refine wp_bind.mpr (wp_mono ?_ (hE.sync hP hv p))
      rintro ⟨v', p', rc⟩ w' ⟨hP', hv'⟩
      exact hdone (by simp) hv' hP'
  | lock h eLock => exact hfile (by simp) h _
  | unlock h eLock => exact hfile (by simp) h _
  | checkReservedLock h => exact hfile (by simp) h _
  | prefetch h => exact hfile (by simp) h _
  | delete mainFile name =>
    refine wp_bind.mpr (wp_mono ?_ (hE.deleteName hP hv hc))
    rintro ⟨v', r⟩ w' ⟨hP', hv'⟩
    exact hdone (by simp) hv' hP'
  | access mainFile name flags =>
    obtain ⟨ops, hops, hres⟩ := hc
    refine wp_bind.mpr (wp_mono ?_ (hE.access hP hv hops hres))
    rintro ⟨v', r⟩ w' ⟨hP', hv', hr⟩
    refine wp_ret_of hP' hE.stable fun _ hP'' => ⟨⟨hP'', hv'⟩, ?_⟩
    intro mainFile' hc' hpath
    obtain ⟨-, hname, hflags⟩ := VfsCall.access.inj hc'
    exact congrArg _ (hr (hname ▸ hpath) hname (by rw [hflags]; decide))

/-- The rely-guarantee argument while the blob stays. -/
def staysDiscipline (A : ι) (i : BlobId) : Discipline (clients ι) (BlobStays A i) where
  rely _ w w' := Present i w → Present i w'
  rely_refl _ _ h := h
  rely_trans _ _ _ _ h h' hp := h' (h hp)
  inv j s w := Present i w ∧ (j = A → NotAbsent s.v i.name)
  inv_stable h hi := ⟨h hi.1, hi.2⟩
  post j c _ r _ := j = A → ∀ mainFile, c = .access mainFile i.name .exists →
    sqliteObjsIsAzurePath i.name = true → r.2 = .accessed (.done true)
  outside_rely := by
    rintro o w w' j h hP
    obtain rfl := Option.some.inj h
    exact present_expire o hP
  enter_rely := by
    rintro j c s w w' k - - h hP
    obtain rfl := Option.some.inj h
    exact hP
  body := by
    rintro j c s w w' ⟨hP, hv⟩ hstart h
    obtain rfl := Option.some.inj h
    by_cases hj : j = A
    · subst hj
      refine wp_mono ?_ (wp_call_stays (A := j) hP (hv rfl) (hstart rfl))
      rintro r w' ⟨⟨hP', hv'⟩, hr⟩
      exact ⟨⟨hP', fun _ => hv'⟩, fun _ => hr⟩
    · refine wp_mono ?_ ((keepsBlob_stays (A := A) j c s).wp_any _ hP)
      exact fun r w' hP' => ⟨⟨hP', fun h => absurd h hj⟩, fun h => absurd h hj⟩

/-- From any moment on at which a journal is there and process `A` is between two
calls: every later `xAccess` of `A` finds the journal, as long as nobody deletes or
replaces it, if and only if `A` does not remember that it is missing. -/
theorem hot_journal_seen_iff {cfg : Interleaving.Config ι (Machines ι) Ans Process VfsCall
      (Process × VfsResult)} {s : Process} (hA : cfg.party A = .idle s)
    (hP : Present i cfg.world) (hpath : sqliteObjsIsAzurePath i.name = true)
    (hname : isJournalName i.name = true)
    (hops : ∀ ops, s.v.ops = some ops → ops.Complete ∧ s.v.opsCtx = i.ctx) :
    (∀ cfg', Interleaving.RunWithin (clients ι) (BlobStays A i) cfg cfg' →
      ∀ mainFile s' r, cfg'.party A = .busy (.access mainFile i.name .exists) s' (.ret r) →
        r.2 = .accessed (.done true)) ↔ journalCacheState s.v i.name ≠ some false := by
  constructor
  · -- a remembered absence is answered at once
    intro hall habs
    obtain ⟨ops, hc, hres⟩ : ∃ ops : AzureOps, ops.Complete ∧
        resolveOps s.v (some (azureProductionOps, i.ctx)) i.name = some (ops, i.ctx) := by
      unfold resolveOps
      cases ho : s.v.ops with
      | some ops => exact ⟨ops, (hops ops ho).1, by rw [(hops ops ho).2]⟩
      | none => exact ⟨azureProductionOps, rfl, by simp [hname]⟩
    have hex : ops.blobExists = true := by rw [hc]; rfl
    have hcode : VfsCall.code (.access (some (azureProductionOps, i.ctx)) i.name .exists) s =
        .ret ({ s with v := s.v }, .accessed (.done false)) := by
      simp only [VfsCall.code, sqliteObjsAccess, hpath, hres, hex, habs, Bool.not_true,
        Bool.false_eq_true, if_false, accessResult, pure_eq_ret, ret_bind]
    have hstep : (clients ι).step cfg
        (.start A (.access (some (azureProductionOps, i.ctx)) i.name .exists)) =
        some (cfg.set A cfg.world (.busy (.access (some (azureProductionOps, i.ctx)) i.name .exists)
          s (.ret ({ s with v := s.v }, .accessed (.done false))))) := by
      simp only [Interleaving.step, hA, clients, hcode, Option.map_some]
    have hmeets : (BlobStays A i).Meets cfg
        (.start A (.access (some (azureProductionOps, i.ctx)) i.name .exists) :
          Interleaving.Event ι Choice VfsCall BlobId) := by
      simp only [Interleaving.Condition.Meets, hA]
      exact fun _ => ⟨ops, hc, hres⟩
    have h := hall _ (.tail .refl hmeets hstep) _ _ _ (Interleaving.Config.set_party_self ..)
    simp at h
  · intro hv cfg' hr mainFile s' r hbusy
    refine (staysDiscipline A i).post_of_run ?_ hr hbusy rfl mainFile rfl hpath
    intro j
    by_cases hj : j = A
    · subst hj
      rw [hA]
      exact ⟨hP, fun _ => hv⟩
    · cases hp : cfg.party j with
      | idle s'' => exact ⟨hP, fun h => absurd h hj⟩
      | busy c s'' m =>
        refine wp_mono ?_ ((keepsBlob_stays (A := A) j c s'').wp_any m hP)
        exact fun r w' hP' => ⟨⟨hP', fun h => absurd h hj⟩, fun h => absurd h hj⟩

/-! ### A journal left behind -/

/-- Process `false` commits a transaction: it uploads its journal and deletes it. -/
def commitEvents : List (Interleaving.Event Bool Choice VfsCall BlobId) :=
  callEvents false (.open 1 "db-journal" {} .mainJournal true) 2 ++
  callEvents false (.write 1 (SparseFile.empty.truncate 512) 0) 1 ++
  callEvents false (.sync 1) 1 ++
  callEvents false (.delete none "db-journal") 1

/-- Process `true` uploads its journal, flushes its database and is not heard of again. -/
def crashEvents : List (Interleaving.Event Bool Choice VfsCall BlobId) :=
  callEvents true (.open 0 "db" {} .mainDb false) 11 ++
  callEvents true (.lock 0 .shared) 1 ++
  callEvents true (.lock 0 .reserved) 2 ++
  callEvents true (.open 1 "db-journal" {} .mainJournal true) 2 ++
  callEvents true (.write 1 (SparseFile.empty.truncate 512) 0) 1 ++
  callEvents true (.sync 1) 1 ++
  callEvents true (.write 0 (SparseFile.empty.truncate 512) 0) 2 ++
  callEvents true (.lock 0 .exclusive) 0 ++
  callEvents true (.sync 0) 5

/-- A process that did nothing before finds the journal. -/
theorem hot_journal_seen_by_newcomer : ∃ cfg,
    (clients Bool).run (startConfig Bool) crashEvents = some cfg ∧
    ∀ cfg', Interleaving.RunWithin (clients Bool) (BlobStays false ⟨0, "db-journal"⟩) cfg cfg' →
      ∀ mainFile s' r,
        cfg'.party false = .busy (.access mainFile "db-journal" .exists) s' (.ret r) →
        r.2 = .accessed (.done true) := by
  obtain ⟨cfg, hrun, hA, hP⟩ : ∃ cfg,
      (clients Bool).run (startConfig Bool) crashEvents = some cfg ∧
      cfg.party false = .idle (.new 0) ∧ Present ⟨0, "db-journal"⟩ cfg.world :=
    ⟨_, rfl, rfl, _, rfl⟩
  refine ⟨cfg, hrun, ?_⟩
  refine (hot_journal_seen_iff (i := ⟨0, "db-journal"⟩) hA hP (by decide) (by decide) ?_).mpr
    (by decide)
  intro ops ho
  obtain rfl := Option.some.inj ho
  exact ⟨rfl, rfl⟩

/-- A process that committed before does not: it remembers that it deleted the
journal. -/
theorem hot_journal_missed : ∃ cfg s r,
    (clients Bool).run (startConfig Bool) (commitEvents ++ crashEvents ++
      [.start false (.access none "db-journal" .exists)]) = some cfg ∧
    cfg.party false =
      .busy (.access none "db-journal" .exists) s (.ret (r, .accessed (.done false))) ∧
    Present ⟨0, "db-journal"⟩ cfg.world :=
  ⟨_, _, _, rfl, rfl, _, rfl⟩

end Runs
end SqliteObjs
