import SqliteObjs.Journal.Durability
import SqliteObjs.Journal.Existence
import SqliteObjs.Vfs.Handles

/-!
# Recovery files are loaded or the open fails

An `xOpen` of a journal or WAL that returns `SQLITE_OK` should have loaded what is in
the blob, and should never have covered a failed request with an empty file. A WAL is
opened so. A rollback journal is opened empty when its existence check failed, when its
download failed, and when the journal cache remembers it as missing.

The requests of the `xOpen` fail as they like, but never by calling a blob missing that
is there. What they were told is read from the log.
-/

set_option autoImplicit false

namespace SqliteObjs

open Data CS CS.Program

/-! ## What the requests were told -/

/-- The last answer to a `HEAD`. -/
def headAnswer : Log → Option AzErr
  | [] => none
  | ⟨.azure (.blobGetProperties _), x⟩ :: _ => some (AzReply.err x)
  | _ :: log => headAnswer log

/-- The last answer to a download. -/
def getAnswer : Log → Option AzErr
  | [] => none
  | ⟨.azure (.blockBlobDownload _), x⟩ :: _ => some (AzReply.err x)
  | _ :: log => getAnswer log

/-- The request was sent and failed. -/
def Failed (answer : Option AzErr) : Prop := ∃ e, answer = some e ∧ e ≠ .ok ∧ e ≠ .notFound

theorem not_failed_none : ¬ Failed none := by
  rintro ⟨e, h, -⟩
  cases h

theorem not_failed_ok : ¬ Failed (some .ok) := by
  rintro ⟨e, h, he, -⟩
  cases h
  exact he rfl

theorem not_failed_notFound : ¬ Failed (some .notFound) := by
  rintro ⟨e, h, -, he⟩
  cases h
  exact he rfl

/-- The answers of the world under transient faults, logged. -/
abbrev transientFault : (r : Req) → Logged World Ans → Ans r → Logged World Ans → Prop :=
  World.logged Transient

/-- The service is in the state `a`, and the requests were told `head` and `get`. -/
structure Told (a : Azure) (head get : Option AzErr) (w : Logged World Ans) : Prop where
  azure : w.world.azure = a
  head : headAnswer w.log = head
  get : getAnswer w.log = get

section Requests

variable {α : Type} {a : Azure} {head get : Option AzErr} {w : Logged World Ans} {i : BlobId}
  {Q : α → Logged World Ans → Prop}

/-- A program that stays on the machine asks nothing. -/
theorem Told.wp_local {m : Prog α} {P : α → Prop} (hw : Told a head get w)
    (hm : Within IsLocal P m) (h : ∀ x w', P x → Told a head get w' → Q x w') :
    wp (.alone transientFault) m Q w := by
  refine Logged.wp_of_within (I := Told a head get) hm ?_ hw h
  intro r w x w' hr hs hw
  cases r with
  | azure r => exact hr.elim
  | sys r =>
    obtain ⟨hs, hlog⟩ := hs
    obtain ⟨c, -, -, hw'⟩ := served_sys hs
    refine ⟨?_, by rw [hlog]; exact hw.head, by rw [hlog]; exact hw.get⟩
    rw [hw']
    exact hw.azure

theorem Told.wp_sys_bind {r : SysReq} {f : SysReply → Prog α} (hw : Told a head get w)
    (h : ∀ x w', Told a head get w' → wp (.alone transientFault) (f x) Q w') :
    wp (.alone transientFault) (sys r >>= f) Q w := by
  rw [wp_bind]
  exact hw.wp_local (m := sys r) (P := fun _ => True) ⟨trivial, fun _ => trivial⟩
    fun x w' _ hw' => h x w' hw'

/-- The existence check: right, or failed. -/
theorem Told.wp_azBlobExists_bind {f : AzErr × Bool → Prog α} (hw : Told a head get w)
    (hok : ∀ head' w', Told a head' get w' → ¬ Failed head' →
      wp (.alone transientFault) (f (.ok, (a.blobs i).isSome)) Q w')
    (hfail : ∀ arc head' w', arc ≠ .ok → arc ≠ .notFound → Told a head' get w' → Failed head' →
      wp (.alone transientFault) (f (arc, false)) Q w') :
    wp (.alone transientFault) (azBlobExists i >>= f) Q w := by
  rw [wp_bind]
  unfold azBlobExists azBlobGetProperties
  refine wp_execute_bind (I := fun w' => w'.world.azure = a ∧ getAnswer w'.log = get)
    stable_alone ⟨hw.azure, hw.get⟩ ?_
  rintro w₁ x w₂ ⟨ha, hg⟩ ⟨hs, hlog⟩
  have hrec : Recorded.served (.azure (.blobGetProperties i)) ⟨w₁.world, []⟩ x
      ⟨w₂.world, [x.err]⟩ := by
    obtain ⟨c, hc, hs⟩ := hs
    exact ⟨c, hc, by simp [Recorded.respond, hs, Recorded.headsAfter]⟩
  obtain ⟨ha', -, hex, hmiss⟩ := served_head hrec
  dsimp only at ha' hex hmiss
  rw [ha] at ha' hex hmiss
  have htold : Told a (some x.err) get w₂ := ⟨ha', by rw [hlog]; rfl, by rw [hlog]; exact hg⟩
  refine ⟨trivial, fun _ => ⟨ha', htold.get⟩, ?_⟩
  split
  · next he =>
    rw [he] at htold
    have := hok _ w₂ htold not_failed_ok
    rw [hex he] at this
    exact wp_alone_ret.mpr this
  next he =>
  split
  · next hn =>
    rw [hn] at htold
    have := hok _ w₂ htold not_failed_notFound
    rw [hmiss hn] at this
    exact wp_alone_ret.mpr this
  · next hn =>
    exact wp_alone_ret.mpr (hfail x.err _ w₂ he hn htold ⟨x.err, rfl, he, hn⟩)

theorem served_download {w w' : World} {b : Blob} (hb : w.azure.blobs i = some b) {x : AzReply}
    (h : World.served Transient (.azure (.blockBlobDownload i)) w x w') :
    w'.azure = w.azure ∧
      ((x.err = .ok ∧ x.body = b.content) ∨ (x.err ≠ .ok ∧ x.err ≠ .notFound)) := by
  obtain ⟨c, hc, hs⟩ := h
  simp only [World.respond, Option.map_eq_some_iff, Prod.mk.injEq] at hs
  obtain ⟨⟨x', a'⟩, hs, rfl, rfl⟩ := hs
  unfold Azure.serve at hs
  cases hf : c.fault with
  | none =>
    simp only [hf, Azure.respond, hb, Option.some.injEq, Prod.mk.injEq] at hs
    obtain ⟨rfl, rfl⟩ := hs
    exact ⟨rfl, Or.inl ⟨rfl, rfl⟩⟩
  | some e =>
    obtain ⟨e, applied⟩ := e
    simp only [hf, Azure.respond, hb, ite_self] at hs
    split at hs
    · cases hs
    · next he =>
      simp only [Option.some.injEq, Prod.mk.injEq] at hs
      obtain ⟨rfl, rfl⟩ := hs
      exact ⟨rfl, Or.inr ⟨he, hc e applied hf⟩⟩

/-- The download of a blob that is there: its content, or a failure. -/
theorem Told.wp_azBlockBlobDownload_bind {b : Blob} (hb : a.blobs i = some b)
    {f : AzReply → Prog α} (hw : Told a head get w)
    (hok : ∀ x get' w', AzReply.err x = .ok → x.body = b.content → Told a head get' w' →
      ¬ Failed get' → wp (.alone transientFault) (f x) Q w')
    (hfail : ∀ x get' w', AzReply.err x ≠ .ok → Told a head get' w' → Failed get' →
      wp (.alone transientFault) (f x) Q w') :
    wp (.alone transientFault) (azBlockBlobDownload i >>= f) Q w := by
  unfold azBlockBlobDownload
  refine wp_execute_bind (I := fun w' => w'.world.azure = a ∧ headAnswer w'.log = head)
    stable_alone ⟨hw.azure, hw.head⟩ ?_
  rintro w₁ x w₂ ⟨ha, hh⟩ ⟨hs, hlog⟩
  have hanswer := served_download (by rw [ha]; exact hb) hs
  rw [ha] at hanswer
  obtain ⟨ha', hx⟩ := hanswer
  have htold : Told a head (some x.err) w₂ := ⟨ha', by rw [hlog]; exact hh, by rw [hlog]; rfl⟩
  refine ⟨trivial, fun _ => ⟨ha', htold.head⟩, ?_⟩
  rcases hx with ⟨he, hbody⟩ | ⟨he, hn⟩
  · exact hok x _ w₂ he hbody htold (by rw [he]; exact not_failed_ok)
  · exact hfail x _ w₂ he htold ⟨x.err, rfl, he, hn⟩

end Requests

/-! ## The opens -/

/-- The opened file has the content of the blob, and no failed request was covered by an
empty file. -/
def Recovered (a : Azure) (i : BlobId) (p : ObjsFile) (log : Log) : Prop :=
  p.content = a.contentOf i ∧
    (Failed (headAnswer log) ∨ Failed (getAnswer log) → p.content ≠ .empty)

/-- A WAL, or a journal whose requests did not fail; and the blob has no content, or the
existence check is there and, for a journal, the download too and the journal cache does
not remember the name as missing. -/
def RecoversWhen (v : VfsData) (ops : AzureOps) (a : Azure) (i : BlobId) (ft : FileType)
    (log : Log) : Prop :=
  (ft = .wal ∨ ¬ Failed (headAnswer log) ∧ ¬ Failed (getAnswer log)) ∧
  (a.NoContent i ∨ ops.blobExists = true ∧
    (ft = .wal ∨ ops.blockBlobDownload = true ∧ journalCacheState v i.name ≠ some false))

section Opens

variable {v : VfsData} {a : Azure} {head get : Option AzErr} {w : Logged World Ans}
  {p : ObjsFile} {i : BlobId}

/-- What was just downloaded into a buffer is the content. -/
theorem truncate_pwrite_zero (buf d : Bytes) : (buf.pwrite 0 d).truncate d.size = d := by
  refine SparseFile.ext rfl fun i => ?_
  rw [SparseFile.truncate_get]
  split
  · next hi => rw [SparseFile.pwrite_get_of_mem _ _ (Nat.zero_le i) (by omega), Nat.sub_zero]
  · next hi => exact (d.get_past i (by omega)).symm

/-- A file opened empty after a request failed. -/
theorem not_recovered_of_failed {log : Log} (hp : p.content = .empty)
    (hf : Failed (headAnswer log) ∨ Failed (getAnswer log)) : ¬ Recovered a i p log :=
  fun h => h.2 hf hp

/-- A file opened empty with nothing failed. -/
theorem recovered_empty_iff {log : Log} (hp : p.content = .empty)
    (hf : ¬ Failed (headAnswer log) ∧ ¬ Failed (getAnswer log)) :
    Recovered a i p log ↔ a.NoContent i := by
  rw [Recovered, hp, eq_comm, contentOf_eq_empty_iff]
  exact ⟨fun h => h.1, fun h => ⟨h, fun hf' => absurd hf' (not_or.mpr hf)⟩⟩

/-- A file with the content of the blob, nothing failed. -/
theorem recovered_of_content {log : Log} (hp : p.content = a.contentOf i)
    (hf : ¬ Failed (headAnswer log) ∧ ¬ Failed (getAnswer log)) : Recovered a i p log :=
  ⟨hp, fun hf' => absurd hf' (not_or.mpr hf)⟩

theorem Told.not_failed (hw : Told a head get w) (hh : ¬ Failed head) (hg : ¬ Failed get) :
    ¬ Failed (headAnswer w.log) ∧ ¬ Failed (getAnswer w.log) := by
  rw [hw.head, hw.get]
  exact ⟨hh, hg⟩

/-- `xOpen` of a WAL with the existence check: whatever fails, it recovers or fails. -/
theorem wp_openWal_told (hw : Told a none none w) (hp : p.eFileType = .wal)
    (hcont : p.content = .empty) (hex : p.ops.blobExists = true) :
    wp (.alone transientFault) (openWal p)
      (fun r w' => ∀ p', r = .ok p' → Recovered a p.blob p' w'.log) w := by
  unfold openWal checkExists
  rw [hex, if_pos rfl]
  split
  · exact wp_alone_ret.mpr fun p' h => by cases h
  refine hw.wp_azBlobExists_bind ?_ ?_
  · intro head' w' hw' hh
    dsimp only
    rw [if_neg (by simp)]
    cases hb : a.blobs p.blob with
    | none =>
      refine wp_alone_ret.mpr ?_
      rintro _ ⟨⟩
      refine recovered_of_content ?_ (hw'.not_failed hh not_failed_none)
      rw [hcont, contentOf_of_none hb]
    | some b =>
      refine hw'.wp_azBlockBlobDownload_bind hb ?_ ?_
      · intro x get' w' he hbody hw' hg
        rw [if_neg (by simpa using he)]
        split
        · next h0 =>
          refine wp_alone_ret.mpr ?_
          rintro _ ⟨⟩
          refine recovered_of_content ?_ (hw'.not_failed hh hg)
          rw [hcont, contentOf_of_some hb, ← hbody, SparseFile.eq_empty h0]
        rw [wp_bind]
        refine hw'.wp_local (within_bufferEnsure _ _) fun (d, rc) w' _ hw' => ?_
        dsimp only
        split
        · exact wp_alone_ret.mpr fun p' h => by cases h
        refine wp_alone_ret.mpr ?_
        rintro _ ⟨⟩
        refine recovered_of_content ?_ (hw'.not_failed hh hg)
        simp only [ObjsFile.content, hp]
        rw [truncate_pwrite_zero, contentOf_of_some hb, hbody]
      · intro x get' w' he _ _
        rw [if_pos he]
        exact wp_alone_ret.mpr fun p' h => by cases h
  · intro arc head' w' h₁ h₂ _ _
    dsimp only
    rw [if_pos ⟨h₁, h₂⟩]
    exact wp_alone_ret.mpr fun p' h => by cases h

/-- `xOpen` of a WAL without the existence check: it is opened empty. -/
theorem wp_openWal_blind (hw : Told a none none w) (hex : p.ops.blobExists = false) :
    wp (.alone transientFault) (openWal p)
      (fun r w' => ∀ p', r = .ok p' → p' = p ∧ Told a none none w') w := by
  unfold openWal checkExists
  split
  · exact wp_alone_ret.mpr fun p' h => by cases h
  rw [hex]
  refine wp_alone_ret.mpr ?_
  rintro _ ⟨⟩
  exact ⟨rfl, hw⟩

theorem journalCacheGetOrCreate_of_state {name : String} {b : Bool}
    (h : journalCacheState v name = some b) : (journalCacheGetOrCreate v name).2 = true := by
  unfold journalCacheState at h
  unfold journalCacheGetOrCreate
  cases hf : journalCacheFind v name with
  | none => simp [hf] at h
  | some e => rfl

/-- The existence check of a journal: skipped, right, or failed. -/
theorem Told.wp_journalExists_bind {α : Type} {f : VfsData × Bool → Prog α}
    {Q : α → Logged World Ans → Prop} (hw : Told a none none w)
    (hskip : ∀ v', ¬ (p.ops.blobExists = true ∧ journalCacheState v p.zBlobName ≠ some false) →
      wp (.alone transientFault) (f (v', false)) Q w)
    (hok : ∀ v' head' w', p.ops.blobExists = true → journalCacheState v p.zBlobName ≠ some false →
      Told a head' none w' → ¬ Failed head' →
      wp (.alone transientFault) (f (v', (a.blobs p.blob).isSome)) Q w')
    (hfail : ∀ v' head' w', Told a head' none w' → Failed head' →
      wp (.alone transientFault) (f (v', false)) Q w') :
    wp (.alone transientFault) (journalExists v p >>= f) Q w := by
  rw [wp_bind]
  unfold journalExists
  dsimp only
  rw [journalCacheState_getOrCreate]
  split
  · next hno => exact wp_alone_ret.mpr (hskip _ fun h => h.2 hno.2)
  next hno =>
  have hstate : journalCacheState v p.zBlobName ≠ some false :=
    fun h => hno ⟨journalCacheGetOrCreate_of_state h, h⟩
  split
  · next hex =>
    refine hw.wp_azBlobExists_bind ?_ ?_
    · exact fun head' w' hw' hh => wp_alone_ret.mpr (hok _ head' w' hex hstate hw' hh)
    · exact fun arc head' w' _ _ hw' hh => wp_alone_ret.mpr (hfail _ head' w' hw' hh)
  · next hex => exact wp_alone_ret.mpr (hskip _ fun h => hex h.1)

/-- `xOpen` of a rollback journal. -/
theorem wp_openJournal_told (hw : Told a none none w) (hp : p.eFileType = .mainJournal)
    (hcont : p.content = .empty) :
    wp (.alone transientFault) (openJournal v p)
      (fun r w' => ∀ p', r.2 = .ok p' → (Recovered a p.blob p' w'.log ↔
        RecoversWhen v p.ops a p.blob .mainJournal w'.log)) w := by
  -- opened empty although nothing failed: right if there is no content
  have hquiet : ∀ {head : Option AzErr} {w' : Logged World Ans}, Told a head none w' →
      ¬ Failed head → (a.NoContent p.blob ∨ ¬ (p.ops.blobExists = true ∧
        p.ops.blockBlobDownload = true ∧ journalCacheState v p.zBlobName ≠ some false)) →
      (Recovered a p.blob p w'.log ↔ RecoversWhen v p.ops a p.blob .mainJournal w'.log) := by
    intro head w' hw' hh hno
    have hf := hw'.not_failed hh not_failed_none
    rw [recovered_empty_iff hcont hf, RecoversWhen]
    simp only [hf, reduceCtorEq, false_or, not_false_eq_true, and_self, true_and]
    exact ⟨Or.inl, fun h => h.elim id fun h' => hno.resolve_right fun hn => hn h'⟩
  -- opened empty after a failure
  have hcovered : ∀ {w' : Logged World Ans},
      Failed (headAnswer w'.log) ∨ Failed (getAnswer w'.log) →
      (Recovered a p.blob p w'.log ↔ RecoversWhen v p.ops a p.blob .mainJournal w'.log) := by
    intro w' hf
    refine iff_of_false (not_recovered_of_failed hcont hf) fun h => ?_
    exact h.1.elim (fun h => by cases h) fun h => hf.elim h.1 h.2
  unfold openJournal
  refine hw.wp_journalExists_bind ?_ ?_ ?_
  · intro v' hno
    refine wp_alone_ret.mpr ?_
    rintro _ ⟨⟩
    exact hquiet hw not_failed_none (Or.inr fun h => hno ⟨h.1, h.2.2⟩)
  · intro v' head' w' hex hstate hw' hh
    dsimp only
    cases hb : a.blobs p.blob with
    | none =>
      refine wp_alone_ret.mpr ?_
      rintro _ ⟨⟩
      exact hquiet hw' hh (Or.inl (contentOf_eq_empty_iff.mp (contentOf_of_none hb)))
    | some b =>
      cases hdown : p.ops.blockBlobDownload with
      | false =>
        refine wp_alone_ret.mpr ?_
        rintro _ ⟨⟩
        exact hquiet hw' hh (Or.inr fun h => by simp [hdown] at h)
      | true =>
        refine hw'.wp_azBlockBlobDownload_bind hb ?_ ?_
        · intro x get' w' he hbody hw' hg
          split
          · rw [wp_bind]
            refine hw'.wp_local (within_bufferEnsure _ _) fun (d, rc) w' _ hw' => ?_
            dsimp only
            split
            · exact wp_alone_ret.mpr fun p' h => by cases h
            refine wp_alone_ret.mpr ?_
            rintro _ ⟨⟩
            have hf := hw'.not_failed hh hg
            refine iff_of_true (recovered_of_content ?_ hf)
              ⟨Or.inr hf, Or.inr ⟨hex, Or.inr ⟨hdown, hstate⟩⟩⟩
            simp only [ObjsFile.content, hp]
            rw [truncate_pwrite_zero, contentOf_of_some hb, hbody]
          · next hsize =>
            have h0 : b.content.size = 0 := by
              rw [← hbody]
              simp only [he, true_and] at hsize
              omega
            refine wp_alone_ret.mpr ?_
            rintro _ ⟨⟩
            have hf := hw'.not_failed hh hg
            refine iff_of_true (recovered_of_content ?_ hf)
              ⟨Or.inr hf, Or.inr ⟨hex, Or.inr ⟨hdown, hstate⟩⟩⟩
            rw [hcont, contentOf_of_some hb, SparseFile.eq_empty h0]
        · intro x get' w' he hw' hg
          rw [if_neg fun h => he h.1]
          refine wp_alone_ret.mpr ?_
          rintro _ ⟨⟩
          exact hcovered (Or.inr (by rw [hw'.get]; exact hg))
  · intro v' head' w' hw' hh
    refine wp_alone_ret.mpr ?_
    rintro _ ⟨⟩
    exact hcovered (Or.inl (by rw [hw'.head]; exact hh))

end Opens

/-- An `xOpen` of a journal or WAL that returns `SQLITE_OK` has loaded the blob and
covered no failure exactly when `RecoversWhen` holds. -/
theorem recovery_file_loaded_iff {v : VfsData} {name : String} {uri : UriParams} {ft : FileType}
    {create : Bool} {ops : AzureOps} {ctx : Nat} {w : World} {v' : VfsData} {p : ObjsFile}
    {w' : Logged World Ans} (hft : ft ≠ .mainDb) (hsel : selectedOps v uri = some (ops, ctx))
    (hr : Runs transientFault (sqliteObjsOpen v name uri ft create) ⟨w, []⟩ (v', .ok p) w') :
    Recovered w.azure ⟨ctx, name⟩ p w'.log ↔
      RecoversWhen v ops w.azure ⟨ctx, name⟩ ft w'.log := by
  have hwp : wp (.alone transientFault) (sqliteObjsOpen v name uri ft create)
      (fun r w' => ∀ p, r.2 = .ok p → (Recovered w.azure ⟨ctx, name⟩ p w'.log ↔
        RecoversWhen v ops w.azure ⟨ctx, name⟩ ft w'.log)) ⟨w, []⟩ := by
    have hw : Told w.azure none none ⟨w, []⟩ := ⟨rfl, rfl, rfl⟩
    generalize (⟨w, []⟩ : Logged World Ans) = w₀ at hw
    unfold sqliteObjsOpen
    split
    · exact wp_alone_ret.mpr fun p h => by cases h
    refine hw.wp_sys_bind fun m w₁ hw => ?_
    split
    · exact wp_alone_ret.mpr fun p h => by cases h
    rw [wp_bind]
    refine hw.wp_local (within_selectOps uri) fun sel w₁ hsel' hw => ?_
    rcases sel with _ | ⟨ops', ctx'⟩
    · exact wp_alone_ret.mpr fun p h => by cases h
    obtain ⟨rfl, rfl⟩ : ops' = ops ∧ ctx' = ctx := by
      rw [hsel] at hsel'
      simpa using hsel'
    dsimp only
    cases ft with
    | mainDb => exact absurd rfl hft
    | mainJournal => exact wp_openJournal_told hw rfl (content_new (by decide))
    | wal =>
      have hcont : (newFile ops' ctx' name uri .wal).content = .empty := content_new (by decide)
      rw [wp_bind]
      cases hex : ops'.blobExists with
      | true =>
        refine wp_mono ?_ (wp_openWal_told hw rfl hcont hex)
        intro r w' hr
        refine wp_alone_ret.mpr fun p hp => ?_
        exact iff_of_true (hr p hp) ⟨Or.inl rfl, Or.inr ⟨hex, Or.inl rfl⟩⟩
      | false =>
        refine wp_mono ?_ (wp_openWal_blind hw hex)
        intro r w' hr
        refine wp_alone_ret.mpr fun p hp => ?_
        obtain ⟨rfl, hw'⟩ := hr p hp
        rw [recovered_empty_iff hcont (hw'.not_failed not_failed_none not_failed_none),
          RecoversWhen]
        simp [hex]
  exact wp_alone_iff.mp hwp _ _ hr p rfl

/-- An account with a recovery file of one byte, as a crash leaves it. -/
def crashedWorld (name : String) : World :=
  World.new.after (.blockBlobUpload ⟨0, name⟩ (SparseFile.empty.truncate 1))

theorem runs_crashed {name : String} {ft : FileType} {cs : List Choice}
    (hcs : ∀ c ∈ cs, Transient c) {v' : VfsData} {p : ObjsFile} {w' : World}
    (h : exec World.respond cs (sqliteObjsOpen (.new 0) name {} ft true) (crashedWorld name) =
      some ((v', .ok p), w')) :
    ∃ log, Runs transientFault (sqliteObjsOpen (.new 0) name {} ft true) ⟨crashedWorld name, []⟩
      (v', .ok p) ⟨w', log⟩ :=
  Logged.exists_runs (Program.runs_of_exec cs hcs h) []

theorem crashed_wal_loaded : ∃ v' p w', Runs transientFault
    (sqliteObjsOpen (.new 0) "db-wal" {} .wal true) ⟨crashedWorld "db-wal", []⟩ (v', .ok p) w' ∧
      p.content = (crashedWorld "db-wal").azure.contentOf ⟨0, "db-wal"⟩ := by
  obtain ⟨v', p, w', h⟩ : ∃ v' p w', exec World.respond (List.replicate 8 {})
      (sqliteObjsOpen (.new 0) "db-wal" {} .wal true) (crashedWorld "db-wal") =
        some ((v', .ok p), w') := ⟨_, _, _, rfl⟩
  obtain ⟨log, hr⟩ := runs_crashed (fun c hc => by
    rw [List.eq_of_mem_replicate hc]
    exact transient_default) h
  have hwhen : RecoversWhen (.new 0) azureProductionOps (crashedWorld "db-wal").azure
      ⟨0, "db-wal"⟩ .wal log := ⟨Or.inl rfl, Or.inr ⟨rfl, Or.inl rfl⟩⟩
  exact ⟨v', p, _, hr, ((recovery_file_loaded_iff (by decide) rfl hr).mpr hwhen).1⟩

/-- When the existence check fails, the journal of a crash is opened empty. -/
theorem crashed_journal_covered : ∃ v' p w', Runs transientFault
    (sqliteObjsOpen (.new 0) "db-journal" {} .mainJournal true) ⟨crashedWorld "db-journal", []⟩
      (v', .ok p) w' ∧
      p.content ≠ (crashedWorld "db-journal").azure.contentOf ⟨0, "db-journal"⟩ := by
  obtain ⟨v', p, w', h, hsize⟩ : ∃ v' p w', exec World.respond
      [{}, { fault := some (.network, false) }]
      (sqliteObjsOpen (.new 0) "db-journal" {} .mainJournal true) (crashedWorld "db-journal") =
        some ((v', .ok p), w') ∧ p.content.size = 0 := ⟨_, _, _, rfl, rfl⟩
  obtain ⟨log, hr⟩ := runs_crashed (fun c hc => by
    simp only [List.mem_cons, List.not_mem_nil, or_false] at hc
    rcases hc with rfl | rfl
    · exact transient_default
    · exact transient_network) h
  refine ⟨v', p, _, hr, fun heq => ?_⟩
  rw [heq] at hsize
  exact absurd hsize (by decide)

end SqliteObjs
