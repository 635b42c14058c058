import SqliteObjs.CS.History
import SqliteObjs.MainDb.Opening
import SqliteObjs.MainDb.Validation

/-!
# Reads among all clients

`SqliteObjs.MainDb.Validation` has one client and its rivals, whose moves are given. Here the rivals
are clients like it, in any number: their calls interleave with its own at every request, and it
opens its database among them. What they do is seen to be moves of rivals
(`rivalMoves_of_respond`), for a lease that a client was given is presented by no other.
-/

set_option autoImplicit false

namespace SqliteObjs

open Data CS CS.Program CS.Interleaving

/-! ## Opening among rivals -/

section Opening

variable {E : Setting World Ans} {ok : Req → Choice → Prop} {B Cur : World → Prop} {C : Bytes}
  {p : ObjsFile} {fd : Fd} {d : Disk} {w : World}

/-- What was opened: the cache file shows some content, the one of the version if that was current
to the end. -/
def Downloads (B Cur : World → Prop) (C : Bytes) (p : ObjsFile) (r : Except Rc ObjsFile)
    (w : World) : Prop :=
  B w ∧ ∀ q, r = .ok q → OnlyCache p q ∧ q.etag = p.etag ∧
    ∃ f, HasContent f q w.disk ∧ (Cur w → f = C)

theorem Reading.wp_eagerDownload_new (hR : Reading E p.blob B Cur C) (hE : Seen E id ok)
    (hkind : p.eFileType = .mainDb) (hmode : p.prefetchMode ≠ .none) (hfd : p.cacheFd = some fd)
    (hpage : LegalPageSize p.pageSize) (hpos : 0 < C.size) (hempty : d.inode fd = .empty)
    (hk : Knows id B d w) : wp E (eagerDownload p fd C.size) (Downloads B Cur C p) w := by
  have hfail : ∀ {rc : Rc} {w : World} {d : Disk}, Knows id B d w →
      wp E (failDownload p rc) (Downloads B Cur C p) w := by
    intro rc w d hk
    have hret : ∀ {w : World} {d : Disk}, Knows id B d w →
        wp E (.ret (.error rc)) (Downloads B Cur C p) w :=
      fun hk => hk.wp_ret hE hR.fact fun w' hk' => ⟨hk'.1, fun q hq => by cases hq⟩
    unfold failDownload
    split
    · exact hret hk
    · exact hk.wp_sys_bind hE hR.fact fun c w' _ hk' => hret hk'
  unfold eagerDownload
  refine hk.wp_sys_bind hE hR.fact fun c w₁ _ hk₁ => ?_
  have hd : (d.serve c (.malloc C.size)).2 = d := by
    simp only [Disk.serve]
    split <;> rfl
  rw [hd] at hk₁
  split
  · exact hfail hk₁
  next hmalloc =>
  have hsize : (d.serve c (.malloc C.size)).1.data.size = C.size := by
    simp only [Disk.serve] at hmalloc ⊢
    split
    · next hf => simp [hf] at hmalloc
    · rfl
  rw [wp_bind]
  refine wp_mono ?_ (hR.wp_downloadBlob hE hpos hsize hk₁)
  rintro ⟨arc, data⟩ w₂ ⟨hs, hk₂⟩
  dsimp only at hs hk₂ ⊢
  split
  · exact hfail ⟨hk₂.1.1, hk₂.2⟩
  next harc =>
  have hdata : Knows id (fun w => B w ∧ (Cur w → data = C))
      (d.setInode fd (SparseFile.empty.pwrite 0 (data.slice 0 0))) w₂ := by
    refine ⟨⟨hk₂.1.1, fun hc => hk₂.1.2 hc (by simpa using harc)⟩, ?_⟩
    rw [SparseFile.empty_pwrite, SparseFile.eq_empty (SparseFile.slice_size data 0 0), ← hempty,
      Disk.setInode_self]
    exact hk₂.2
  have hback : ∀ {w : World} {d : Disk}, Knows id (fun w => B w ∧ (Cur w → data = C)) d w →
      Knows id B d w := fun hk => ⟨hk.1.1, hk.2⟩
  rw [wp_bind]
  refine wp_mono ?_ (Knows.wp_writeAll hE (hR.fact_cur _) .empty data C.size 0 (Nat.zero_le _)
    (by omega) hdata)
  rintro written w₃ ⟨-, file, hk₃, hfile⟩
  split
  · exact hfail (hback hk₃)
  next hwritten =>
  obtain rfl := hfile (by simpa using hwritten)
  refine hk₃.wp_sys_bind hE (hR.fact_cur _) fun c₁ w₄ _ hk₄ => ?_
  split
  · exact hfail (hback hk₄)
  simp only [Disk.serve] at hk₄
  refine wp_openFinish (p := p) (q := { p with nData := C.size }) hE hR rfl rfl hpage hfd rfl hk₄
    fun p' _ w₅ hready hk₅ => ?_
  refine hk₅.wp_ret hE (hR.fact_cur _) fun w' hk' => ⟨hk'.1.1, ?_⟩
  rintro _ ⟨⟩
  have honly := hready.only
  refine ⟨honly, hready.etag, data,
    ⟨?_, ?_, hs.trans hready.nData.symm, fd, hready.cacheFd, ?_, ?_⟩, hk'.1.2⟩
  · unfold OnlyCache at honly
    rw [honly]
    exact hkind
  · unfold OnlyCache at honly
    rw [honly]
    exact hmode
  · rw [show w'.disk = _ from hk'.2, Disk.setInode_inode_self, SparseFile.empty_pwrite,
      hready.nData, hs]
  · intro j
    rw [show w'.disk = _ from hk'.2, Disk.setInode_inode_self, SparseFile.empty_pwrite]

/-- Downloading into a new cache file. -/
theorem Reading.wp_openTemp_new (hR : Reading E p.blob B Cur C) (hE : Seen E id ok)
    (hkind : p.eFileType = .mainDb) (hmode : p.prefetchMode ≠ .none)
    (hpage : LegalPageSize p.pageSize) (uri : UriParams) (hk : Knows id B d w) :
    wp E (openTemp p uri C.size) (Downloads B Cur C p) w := by
  unfold openTemp
  refine hk.wp_openTempCache_bind hE hR.fact ?_ fun path w₁ hk₁ => ?_
  · intro rc w₁ hk₁
    exact hk₁.wp_ret hE hR.fact fun w' hk' => ⟨hk'.1, fun q hq => by cases hq⟩
  have hinode : (d.newFile path).inode d.nextInode = .empty := d.newFile_inode path
  show wp E (cacheDownload { p with cacheFd := some d.nextInode, zCachePath := some path }
    d.nextInode C.size) (Downloads B Cur C p) w₁
  unfold cacheDownload
  split
  · next hzero =>
    refine hk₁.wp_ret hE hR.fact fun w' hk' => ⟨hk'.1, ?_⟩
    rintro _ ⟨⟩
    refine ⟨rfl, rfl, .empty, ⟨hkind, hmode, rfl, _, rfl, Nat.zero_le _, fun j => ?_⟩, fun _ => ?_⟩
    · rw [show w'.disk = _ from hk'.2, hinode]
    · exact (SparseFile.eq_empty hzero).symm
  next hpos =>
  refine wp_mono ?_ (Reading.wp_eagerDownload_new (p := { p with
    cacheFd := some d.nextInode
    zCachePath := some path }) hR hE hkind hmode rfl hpage (Nat.pos_of_ne_zero hpos) hinode hk₁)
  rintro r w' ⟨hB, hok⟩
  refine ⟨hB, fun q hq => ?_⟩
  obtain ⟨honly, het, hf⟩ := hok q hq
  have hnew : OnlyCache p { p with cacheFd := some d.nextInode, zCachePath := some path } := rfl
  exact ⟨hnew.trans honly, het, hf⟩

end Opening

section OpeningDb

variable {mine : LeaseId → Prop} {i : BlobId} {p : ObjsFile} {w : World} {d : Disk}
  {r : Except Rc ObjsFile}

/-- An open that succeeds leaves a file that is unlocked and coherent. -/
def OpensCoherent (mine : LeaseId → Prop) (i : BlobId) (r : Except Rc ObjsFile)
    (w : World) : Prop :=
  w.azure.Issued i ∧ ∀ p, r = .ok p → p.eLock = .none ∧ ∃ e C, Coherent mine i e C p w

theorem stable_opensCoherent : Stable (amongRivals mine) (OpensCoherent mine i r) := by
  intro w w' hw h
  refine ⟨(fact_issued i).stable w w' hw h.1, fun p hp => ?_⟩
  obtain ⟨hlock, e, C, hc⟩ := h.2 p hp
  exact ⟨hlock, e, C, stable_coherent w w' hw hc⟩

theorem opensCoherent_error {rc : Rc} (h : w.azure.Issued i) : OpensCoherent mine i (.error rc) w :=
  ⟨h, fun _ hp => by cases hp⟩

theorem wp_openExisting_rivals {uri : UriParams} (hreuse : uri.cacheReuse = false)
    (hops : p.ops.Complete) (hkind : p.eFileType = .mainDb) (hmode : p.prefetchMode ≠ .none)
    (hpage : LegalPageSize p.pageSize) (hlease : p.leaseId = none) (hlock : p.eLock = .none)
    (hk : Knows id (fun w => w.azure.Issued p.blob) d w) :
    wp (amongRivals mine) (openExisting p uri) (OpensCoherent mine p.blob) w := by
  unfold openExisting azBlobGetProperties
  refine SqliteObjs.wp_execute_bind ((fact_issued p.blob).knows_stable seen_amongRivals) hk
    fun w x w₁ hk hs => ?_
  obtain ⟨ha, hx⟩ := head_rivals hs
  have hissued : w₁.azure.Issued p.blob := by
    rw [ha]
    exact hk.1
  have hk₁ : Knows id (fun w => w.azure.Issued p.blob) d w₁ :=
    ⟨hissued, (seen_amongRivals.azure_disk hs).trans hk.2⟩
  refine ⟨trivial, fun _ => hk₁, ?_⟩
  split
  · exact hk₁.wp_ret seen_amongRivals (fact_issued p.blob) fun w' hk' => opensCoherent_error hk'.1
  next hok =>
  obtain ⟨b, hb, het, hsize⟩ := hx (by simpa using hok)
  rw [← ha] at hb
  have hversion := Azure.version_of_blob hb (hk₁.1 b hb)
  have hbacks : w₁.azure.Backs mine p.blob b.etag b.content none :=
    ⟨hk₁.1, hversion, fun _ hid => by cases hid⟩
  dsimp only
  rw [if_neg (by simp [hreuse]), het, hsize]
  refine wp_mono ?_ ((reading_backs p.blob b.etag b.content none).wp_openTemp_new
    (p := { p with etag := some b.etag }) seen_amongRivals hkind hmode hpage uri
    (d := d) ⟨⟨hversion, hbacks⟩, hk₁.2⟩)
  rintro r w' ⟨⟨-, hbacks'⟩, hdone⟩
  refine ⟨hbacks'.issued, fun q hq => ?_⟩
  obtain ⟨honly, hetag, f, hf, hcur⟩ := hdone q hq
  unfold OnlyCache at honly
  refine ⟨by rw [honly]; exact hlock, b.etag, f, by rw [honly]; exact hops, by rw [honly]; rfl,
    hetag, hf, ?_⟩
  rw [show q.leaseId = none by rw [honly]; exact hlease]
  exact hbacks'.content hcur

/-- A database that is there is opened among rivals. -/
theorem wp_open_rivals {v : VfsData} {name : String} {uri : UriParams} {ops : AzureOps} {ctx : Nat}
    (hmode : uri.prefetch = .all) (hreuse : uri.cacheReuse = false)
    (hsel : selectedOps v uri = some (ops, ctx)) (hops : ops.Complete)
    (h : w.azure.Issued ⟨ctx, name⟩) :
    wp (amongRivals mine) (sqliteObjsOpen v name uri .mainDb false)
      (fun r w' => OpensCoherent mine ⟨ctx, name⟩ r.2 w') w := by
  refine wp_sqliteObjsOpen_mainDb seen_amongRivals.quiet (fun rc => stable_opensCoherent)
    (fun rc => opensCoherent_error h) ?_
  intro ops' ctx' hsel'
  obtain ⟨rfl, rfl⟩ := Prod.mk.inj (Option.some.inj (hsel.symm.trans hsel'))
  have hex : (newFile ops ctx name uri .mainDb).ops.blobExists = true := by
    show ops.blobExists = true
    rw [hops]
    rfl
  have hprops : (newFile ops ctx name uri .mainDb).ops.blobGetProperties = true := by
    show ops.blobGetProperties = true
    rw [hops]
    rfl
  have heager : (newFile ops ctx name uri .mainDb).prefetchMode ≠ .none := by
    show uri.prefetch ≠ .none
    rw [hmode]
    exact PrefetchMode.noConfusion
  have hret : ∀ {r : Except Rc ObjsFile} {w : World}, OpensCoherent mine ⟨ctx, name⟩ r w →
      wp (amongRivals mine) (.ret (v, r.map fun p => { p with dirty := bitmapClearAll p.dirty }))
        (fun r w' => OpensCoherent mine ⟨ctx, name⟩ r.2 w') w := by
    intro r w hr
    refine wp_ret_of hr stable_opensCoherent fun w' hr' => ⟨hr'.1, fun q hq => ?_⟩
    cases r with
    | error rc => cases hq
    | ok p =>
      cases hq
      obtain ⟨hlock, e, C, hc⟩ := hr'.2 p rfl
      exact ⟨hlock, e, C, hc.congr rfl rfl rfl rfl rfl⟩
  have hfact : Fact (amongRivals mine)
      fun w => w.azure.Issued (newFile ops ctx name uri .mainDb).blob :=
    fact_issued _
  have herror : ∀ {rc : Rc} {w' : World},
      Knows id (fun w => w.azure.Issued (newFile ops ctx name uri .mainDb).blob) w.disk w' →
      wp (amongRivals mine) (.ret (Except.error rc : Except Rc ObjsFile)) (fun r w' =>
        wp (amongRivals mine) (.ret (v, r.map fun p => { p with dirty := bitmapClearAll p.dirty }))
          (fun r w' => OpensCoherent mine ⟨ctx, name⟩ r.2 w') w') w' :=
    fun hk => hk.wp_ret seen_amongRivals hfact fun w' hk' => hret (opensCoherent_error hk'.1)
  have hk : Knows id (fun w => w.azure.Issued (newFile ops ctx name uri .mainDb).blob) w.disk w :=
    ⟨h, rfl⟩
  unfold openMainDb checkExists azBlobExists azBlobGetProperties
  rw [if_pos hex, wp_bind]
  refine hk.wp_execute_bind seen_amongRivals hfact
    (fun w x w' hi hs => ⟨trivial, hi.advance (advances_own hs _)⟩) fun x w₁ hk₁ => ?_
  split
  · refine hk₁.wp_ret seen_amongRivals hfact fun w₂ hk₂ => ?_
    simp only [hprops, Bool.and_true, ne_eq, not_true_eq_false, false_and, if_false, if_true]
    exact wp_mono (fun r w' hr => hret hr) (wp_openExisting_rivals
      (p := newFile ops ctx name uri .mainDb) hreuse hops rfl heager
      legalPageSize_default rfl rfl hk₂)
  · -- a check that does not find the blob is an error, as none is created
    next hmissing =>
    split
    · refine hk₁.wp_ret seen_amongRivals hfact fun w₂ hk₂ => ?_
      simp only [Bool.false_and, Bool.false_eq_true, ne_eq, not_true_eq_false, false_and, if_false]
      exact herror hk₂
    · next hother =>
      refine hk₁.wp_ret seen_amongRivals hfact fun w₂ hk₂ => ?_
      dsimp only
      rw [if_pos ⟨hmissing, hother⟩]
      exact herror hk₂

end OpeningDb

/-! ## The moves of the other clients -/

section Others

variable {ι : Type} [DecidableEq ι] {mine : LeaseId → Prop} {i j : ι} {ch : Choice} {r : Req}
  {x : Ans r} {w w' : Machines ι}

theorem Machines.served_of_respond (h : Machines.respond i ch r w = some (x, w')) :
    World.served (fun _ => True) r (w.world i) x (w'.world i) := by
  obtain ⟨u, hu, rfl⟩ := Machines.of_respond h
  rw [Machines.world_setWorld]
  exact ⟨ch, trivial, hu⟩

theorem Machines.disk_of_respond (h : Machines.respond i ch r w = some (x, w')) (hj : j ≠ i) :
    w'.disk j = w.disk j := by
  obtain ⟨u, -, rfl⟩ := Machines.of_respond h
  exact Function.update_of_ne hj _ _

/-- A request of a client that presents no lease of mine, and after which none is newly out, is a
move of a rival if it changes anything. -/
theorem rivalMoves_of_respond (h : Machines.respond i ch r w = some (x, w'))
    (hown : ∀ id, mine id → ¬ Shows id r ∧ (id < w'.azure.nextLease → id < w.azure.nextLease)) :
    Relation.ReflTransGen (RivalMove mine) w.azure w'.azure := by
  cases r with
  | sys r => rw [Machines.respond_sys h]
  | azure r =>
    rcases Machines.azure_of_respond h with ⟨-, ha⟩ | ⟨hok, ha, -⟩
    · rw [ha]
    have hs := respond_azure (show World.respond ch (.azure r) (w.world i) = some (x, w'.world i) by
      obtain ⟨u, hu, rfl⟩ := Machines.of_respond h
      rw [Machines.world_setWorld]
      exact hu)
    refine .single (.request (fun id hshow hid => (hown id hid).1 hshow) (fun b n hr hid => ?_) hs)
    -- a request for a lease that took effect has handed out the next one
    have hnext := ((Azure.respond_nextLease w.azure r).2 b n hr hok).2
    have hlt := (hown _ hid).2 (by
      rw [ha, hnext]
      exact Nat.lt_succ_self _)
    exact absurd hlt (Nat.lt_irrefl _)

end Others

/-! ## What a client has read -/

/-- The lock of an open file. -/
def Process.lockOf (s : Process) (k : Nat) : LockLevel :=
  ((s.files k).map (·.eLock)).getD .none

/-- What was read under the lock since `xLock` last asked for `SHARED`, the last read first. -/
def readsSince (k : Nat) :
    History Process VfsCall (Process × VfsResult) → List (TxCall × FileResult)
  | [] => []
  | (s, c, a) :: h =>
    match c, a.2 with
    | .read _ iAmt iOfst, .data rc buf =>
      if LockLevel.shared.rank ≤ (s.lockOf k).rank then
        (.file (.read iAmt iOfst), .data rc buf) :: readsSince k h
      else readsSince k h
    | .lock _ eLock, _ =>
      if eLock = .shared ∧ s.lockOf k = .none then [] else readsSince k h
    | _, _ => readsSince k h

/-- A call of a client that opens the database `name` with all of its bytes, and then locks, unlocks
and reads it. The count of reads does not wrap, and the first lock is `SHARED`. -/
def Begins (k ctx : Nat) (name : String) (s : Process)
    (h : History Process VfsCall (Process × VfsResult)) : VfsCall → Prop
  | .open k' name' uri ft create => k' = k ∧ name' = name ∧ ft = .mainDb ∧ create = false ∧
      s.files k = none ∧ uri.prefetch = .all ∧ uri.cacheReuse = false ∧
      ∃ ops : AzureOps, ops.Complete ∧ selectedOps s.v uri = some (ops, ctx)
  | .read k' _ _ => k' = k ∧ (readsSince k h).length < 2 ^ 31 - 1
  | .lock k' eLock => k' = k ∧ (s.lockOf k = .none → eLock = .shared)
  | .unlock k' _ => k' = k
  | _ => False

/-- A call that leaves the lock as it was has not recorded another ETag: a refused `xLock` after a
failed refresh may have. -/
def Ends (k : Nat) (s s' : Process) : Prop :=
  ∀ p q, s.files k = some p → s'.files k = some q → q.eLock = p.eLock → q.etag = p.etag

/-- The client has only read the database. -/
def ReadsOnly (k ctx : Nat) (name : String) :
    History Process VfsCall (Process × VfsResult) → Prop
  | [] => True
  | (s, c, a) :: h => ReadsOnly k ctx name h ∧ Begins k ctx name s h c ∧ Ends k s a.1

/-- The database is not open yet, or what was read of it is coherent. -/
def ReadsTracked (mine : LeaseId → Prop) (k : Nat) (i : BlobId) (s : Process)
    (h : History Process VfsCall (Process × VfsResult)) (w : World) : Prop :=
  (s.files k = none ∧ readsSince k h = [] ∧ w.azure.Issued i) ∨
  ∃ p, s.files k = some p ∧ ReadTx.Coherent mine i ⟨p, readsSince k h⟩ w

section Call

variable {mine : LeaseId → Prop} {k ctx : Nat} {name : String} {s : Process}
  {h : History Process VfsCall (Process × VfsResult)} {w : World} {p : ObjsFile}

theorem lockOf_of_file (hp : s.files k = some p) : s.lockOf k = p.eLock := by
  rw [Process.lockOf, hp]
  rfl

theorem lockOf_of_none (hp : s.files k = none) : s.lockOf k = .none := by
  rw [Process.lockOf, hp]
  rfl

/-- Nothing is read through a handle that is not open. -/
theorem readsSince_cons_of_none (hp : s.files k = none) (hreads : readsSince k h = [])
    (c : VfsCall) (a : Process × VfsResult) : readsSince k ((s, c, a) :: h) = [] := by
  simp only [readsSince]
  split
  · rw [lockOf_of_none hp, if_neg (by decide)]
    exact hreads
  · split
    · rfl
    · exact hreads
  · exact hreads

/-- Two programs that do the same and return what belongs together. -/
theorem wp_ret_map {α β γ : Type} {E : Setting World Ans} {m : Prog α} {f : α → β} {g : α → γ}
    {Q : β → World → Prop} {Q' : γ → World → Prop} (hQ : ∀ a w, Q (f a) w → Q' (g a) w)
    (hm : wp E (m >>= fun a => .ret (f a)) Q w) : wp E (m >>= fun a => .ret (g a)) Q' w :=
  wp_bind.mpr (wp_mono (fun a _ ha w₁ hw => hQ a w₁ (ha w₁ hw)) (wp_bind.mp hm))

/-- The call opens the database. -/
theorem wp_open_tracked {uri : UriParams} {ops : AzureOps} (hfile : s.files k = none)
    (hreads : readsSince k h = []) (hissued : w.azure.Issued ⟨ctx, name⟩)
    (hmode : uri.prefetch = .all) (hreuse : uri.cacheReuse = false) (hops : ops.Complete)
    (hsel : selectedOps s.v uri = some (ops, ctx)) :
    wp (amongRivals mine) ((VfsCall.open k name uri .mainDb false).code s) (fun a w' =>
      ReadsTracked mine k ⟨ctx, name⟩ a.1 ((s, .open k name uri .mainDb false, a) :: h) w') w := by
  unfold VfsCall.code
  rw [wp_bind]
  refine wp_mono ?_ (wp_open_rivals hmode hreuse hsel hops hissued)
  rintro ⟨v, r⟩ w₁ hr
  dsimp only at hr ⊢
  cases r with
  | error rc =>
    refine wp_ret_of hr.1 (fact_issued _).stable fun w' hi => Or.inl ⟨hfile, ?_, hi⟩
    exact readsSince_cons_of_none hfile hreads _ _
  | ok p =>
    refine wp_ret_of hr stable_opensCoherent fun w' hr' => Or.inr ⟨p, setFile_files_self _ _ _, ?_⟩
    obtain ⟨hlock, e, C, hc⟩ := hr'.2 p rfl
    rw [readsSince_cons_of_none hfile hreads]
    exact ⟨fun hheld => absurd hlock hheld, by simp, e, C, hc, fun x hx => by cases hx⟩

/-- A call on the open file is a call of the transaction. -/
theorem wp_onFile_tracked {α : Type} {m : Prog α} {f : α → ObjsFile} {g : α → VfsResult}
    {c : VfsCall} {t : TxCall} {q : α → FileResult} (hp : s.files k = some p)
    (hm : wp (amongRivals mine) ((m >>= fun a => pure (f a, q a)) >>= fun r =>
        pure (⟨r.1, ReadTx.readsAfter ⟨p, readsSince k h⟩ t r.2⟩ : ReadTx)) (fun s' w' =>
      (s'.file.eLock = p.eLock → s'.file.etag = p.etag) → s'.Coherent mine ⟨ctx, name⟩ w') w)
    (hreads : ∀ a, readsSince k ((s, c, s.setFile k (some (f a)), g a) :: h) =
      ReadTx.readsAfter ⟨p, readsSince k h⟩ t (q a)) :
    wp (amongRivals mine) ((m >>= fun a => pure (f a, g a)) >>= fun r =>
        pure (s.setFile k (some r.1), r.2)) (fun a w' =>
      Ends k s a.1 → ReadsTracked mine k ⟨ctx, name⟩ a.1 ((s, c, a) :: h) w') w := by
  rw [LawfulMonad.bind_assoc] at hm ⊢
  refine wp_ret_map (f := fun a => (⟨f a, ReadTx.readsAfter ⟨p, readsSince k h⟩ t (q a)⟩ : ReadTx))
    (g := fun a => (s.setFile k (some (f a)), g a)) (fun a w' hc hends => ?_) hm
  refine Or.inr ⟨f a, setFile_files_self _ _ _, ?_⟩
  rw [hreads a]
  exact hc fun hlock => hends p (f a) hp (setFile_files_self _ _ _) hlock

/-- **One call** keeps what was read coherent. -/
theorem ReadsTracked.wp_call {c : VfsCall} (hb : Begins k ctx name s h c)
    (ht : ReadsTracked mine k ⟨ctx, name⟩ s h w) :
    wp (amongRivals mine) (c.code s) (fun a w' => Ends k s a.1 →
      ReadsTracked mine k ⟨ctx, name⟩ a.1 ((s, c, a) :: h) w') w := by
  rcases ht with ⟨hfile, hreads, hissued⟩ | ⟨p, hp, hc⟩
  · -- the handle is not open
    have hbad : ∀ {c : VfsCall} {f : ObjsFile → Prog (ObjsFile × VfsResult)},
        wp (amongRivals mine) (VfsCall.onFile s k f) (fun a w' => Ends k s a.1 →
          ReadsTracked mine k ⟨ctx, name⟩ a.1 ((s, c, a) :: h) w') w := by
      intro c f
      unfold VfsCall.onFile
      rw [hfile]
      refine wp_ret_of hissued (fact_issued _).stable fun w' hi _ => Or.inl ⟨hfile, ?_, hi⟩
      exact readsSince_cons_of_none hfile hreads _ _
    cases c with
    | «open» k' name' uri ft create =>
      obtain ⟨rfl, rfl, rfl, rfl, -, hmode, hreuse, ops, hops, hsel⟩ := hb
      have hopen : wp (amongRivals mine) ((VfsCall.open k' name' uri .mainDb false).code s)
          (fun a w' => ReadsTracked mine k' ⟨ctx, name'⟩ a.1 ((s, _, a) :: h) w') w :=
        wp_open_tracked hfile hreads hissued hmode hreuse hops hsel
      refine wp_mono (fun a w' ht => ?_) hopen
      exact fun _ => ht
    | read k' iAmt iOfst =>
      obtain rfl : k' = k := hb.1
      exact hbad
    | lock k' eLock =>
      obtain rfl : k' = k := hb.1
      exact hbad
    | unlock k' eLock =>
      obtain rfl : k' = k := hb
      exact hbad
    | _ => exact hb.elim
  · have hlock := lockOf_of_file hp
    cases c with
    | «open» k' name' uri ft create =>
      obtain ⟨-, -, -, -, hnone, -⟩ := hb
      rw [hp] at hnone
      cases hnone
    | read k' iAmt iOfst =>
      obtain ⟨rfl, hlen⟩ := hb
      have hcall := hc.wp_call (v := s.v) (c := .file (.read iAmt iOfst)) hlen
      simp only [VfsCall.code, VfsCall.onFile, hp]
      refine wp_onFile_tracked (m := sqliteObjsRead p iAmt iOfst) (f := fun a => a.1)
        (g := fun a => .data a.2.1 a.2.2) (q := fun a => .data a.2.1 a.2.2) hp hcall fun a => ?_
      simp only [readsSince, hlock, ReadTx.readsAfter]
    | lock k' eLock =>
      obtain ⟨rfl, hfirst⟩ := hb
      rw [hlock] at hfirst
      have hcall := hc.wp_call (v := s.v) (c := .lock eLock) hfirst
      simp only [VfsCall.code, VfsCall.onFile, hp]
      refine wp_onFile_tracked (m := sqliteObjsLock p eLock) (f := fun a => a.1)
        (g := fun a => .rc a.2) (q := fun a => .code a.2) hp hcall fun a => ?_
      simp only [readsSince, hlock, ReadTx.readsAfter]
    | unlock k' eLock =>
      obtain rfl : k' = k := hb
      have hcall := hc.wp_call (v := s.v) (c := .unlock eLock) trivial
      simp only [VfsCall.code, VfsCall.onFile, hp]
      refine wp_onFile_tracked (m := sqliteObjsUnlock p eLock) (f := fun a => a.1)
        (g := fun a => .rc a.2) (q := fun a => .code a.2) hp hcall fun a => ?_
      simp only [readsSince, ReadTx.readsAfter]
    | _ => exact hb.elim

end Call

/-! ## All clients -/

section Clients

variable {ι : Type} [DecidableEq ι]

/-- The clients, each with the history of its calls. -/
abbrev recordedClients (ι : Type) [DecidableEq ι] := (clients ι).recording

abbrev RecordedConfig (ι : Type) :=
  Config ι (Machines ι) Ans (Process × History Process VfsCall (Process × VfsResult)) VfsCall
    (Process × VfsResult)

/-- A client that has only read keeps what it read coherent, if `mine` are the leases that are its
own in the run. Nothing is claimed of the other clients. -/
def readsDiscipline (A : ι) (k ctx : Nat) (name : String) (mine : LeaseId → Prop) :
    Discipline (recordedClients ι) (Condition.own (leaseToken ι) A mine) where
  rely j w w' := j = A → (amongRivals mine).rely (w.world A) (w'.world A)
  rely_refl _ _ _ := (amongRivals mine).rely_refl _
  rely_trans _ _ _ _ h h' hj := (amongRivals mine).rely_trans (h hj) (h' hj)
  inv j s w := j = A → ReadsOnly k ctx name s.2 →
    ReadsTracked mine k ⟨ctx, name⟩ s.1 s.2 (w.world A)
  inv_stable := by
    intro j s w w' hw h hj honly
    obtain ⟨hfile, hreads, hissued⟩ | ⟨p, hp, hc⟩ := h hj honly
    · exact Or.inl ⟨hfile, hreads, (fact_issued _).stable _ _ (hw hj) hissued⟩
    · obtain ⟨e, C, hcoh, hreads⟩ := hc.reads
      exact Or.inr ⟨p, hp, hc.count, hc.small, e, C, stable_coherent _ _ (hw hj) hcoh, hreads⟩
  post _ _ _ _ _ := True
  outside_rely := by
    intro o w w' j ho _
    obtain rfl := Option.some.inj ho
    exact ⟨rfl, .single (.expire o)⟩
  enter_rely := by
    intro i c s w w' j _ _ he _
    obtain rfl := Option.some.inj he
    exact (amongRivals mine).rely_refl _
  body := by
    intro i c s w w' hinv _ he
    obtain rfl := Option.some.inj he
    by_cases hi : i = A
    swap
    · -- another client moves as a rival does
      refine wp_mono (fun a w' _ => ⟨fun hj => absurd hj hi, trivial⟩) (wp_respects ?_)
      rintro r w x w' ⟨ch, hown, hr⟩ j hj rfl
      refine ⟨Machines.disk_of_respond hr (Ne.symm hi), rivalMoves_of_respond hr fun id hid => ?_⟩
      exact (hown x w' hr id).2 hi hid
    subst hi
    have hserve : ∀ (r : Req) (u : Machines ι) (x : Ans r) (u' : Machines ι),
        (∃ ch, (Condition.own (leaseToken ι) i mine).serve i c s ch r u ∧
          (recordedClients ι).respond i ch r u = some (x, u')) →
        (amongRivals mine).serve r (u.world i) x (u'.world i) ∧
          ∀ j, j ≠ i → j = i → (amongRivals mine).rely (u.world i) (u'.world i) := by
      rintro r u x u' ⟨ch, hown, hr⟩
      refine ⟨⟨Machines.served_of_respond hr, ?_⟩, fun j hj he => absurd he hj⟩
      have hmine := fun id => (hown x u' hr id).1 rfl
      unfold HandsOut
      split
      · exact fun hok => hmine _ ⟨hok, rfl⟩
      · trivial
    by_cases hcall : ReadsOnly k ctx name s.2 ∧ Begins k ctx name s.1 s.2 c
    · have hview := ReadsTracked.wp_call hcall.2 (hinv rfl hcall.1)
      have hrely : ∀ u u' : Machines ι, (i = i → (amongRivals mine).rely (u.world i) (u'.world i)) →
          (amongRivals mine).rely (u.world i) (u'.world i) := fun u u' hw => hw rfl
      exact wp_mono (fun a w' ht => ⟨fun _ honly => ht honly.2.2, trivial⟩)
        (wp_view hrely hserve hview)
    · refine wp_mono (fun a w' _ => ⟨fun _ honly => absurd ⟨honly.1, honly.2.1⟩ hcall, trivial⟩)
        (wp_respects fun r u x u' hs => (hserve r u x u' hs).2)

variable {cfg₀ cfg : RecordedConfig ι} {A : ι} {k ctx : Nat} {name : String} {s₀ s : Process}
  {h : History Process VfsCall (Process × VfsResult)} {p : ObjsFile} {b : Blob} {id : LeaseId}

/-- **Reads are validated among all clients.** Any number of clients make any calls, in any
interleaving of their requests, with any faults and with leases that run out. One of them only opens
a database with all of its bytes and locks, unlocks and reads it. Whenever it has a lease that is
active, its cache file shows the content of the blob, and all it read since it asked for `SHARED`
was of that content. -/
theorem reads_validated_among_clients (h₀ : NoLeases cfg₀.forget)
    (hA : cfg₀.party A = .idle (s₀, []))
    (hclosed : s₀.files k = none) (hissued : cfg₀.world.azure.Issued ⟨ctx, name⟩)
    (hr : RunWithin (recordedClients ι) .any cfg₀ cfg) (hidle : cfg.party A = .idle (s, h))
    (honly : ReadsOnly k ctx name h) (hp : s.files k = some p) (hlease : p.leaseId = some id)
    (hb : cfg.world.azure.blobs ⟨ctx, name⟩ = some b) (hactive : b.lease = .active id) :
    HasContent b.content p (cfg.world.disk A) ∧ ∀ x ∈ readsSince k h, ReadOf b.content x := by
  obtain ⟨mine, hrun⟩ := Token.exists_own (A := A)
    (fun id => exclusive_leaseToken h₀ .refl id) hr
  have hstart : ∀ j, (readsDiscipline A k ctx name mine).Fine j cfg₀.world (cfg₀.party j) := by
    intro j
    obtain ⟨s', hs', -⟩ := h₀ j
    cases hq : cfg₀.party j with
    | busy c s m =>
      rw [show cfg₀.forget.party j = (cfg₀.party j).forget from rfl, hq] at hs'
      cases hs'
    | idle s =>
      rintro rfl _
      obtain rfl : s = (s₀, []) := by
        rw [hA] at hq
        cases hq
        rfl
      exact Or.inl ⟨hclosed, rfl, hissued⟩
  have hfine := (readsDiscipline A k ctx name mine).safe_of_run hstart hrun A
  rw [hidle] at hfine
  rcases hfine rfl honly with ⟨hnone, -, -⟩ | ⟨p', hp', hc⟩
  · rw [hp] at hnone
    cases hnone
  obtain rfl : p = p' := Option.some.inj (hp.symm.trans hp')
  obtain ⟨e, C, hcoh, hreads⟩ := hc.reads
  have hsame : b.content = C :=
    hcoh.backs.version.2 b hb ((hcoh.backs.lease id hlease).2 b hb hactive)
  rw [hsame]
  exact ⟨hcoh.content, hreads⟩

end Clients

/-! ## A run of two clients -/

theorem ends_of_files {k : Nat} {s s' : Process} {p q : ObjsFile} (hp : s.files k = some p)
    (hq : s'.files k = some q) (h : q.eLock = p.eLock → q.etag = p.etag) : Ends k s s' := by
  intro p' q' hp' hq'
  obtain rfl : p = p' := Option.some.inj (hp.symm.trans hp')
  obtain rfl : q = q' := Option.some.inj (hq.symm.trans hq')
  exact h

/-- The clients before their first call. -/
def recordedStart (ι : Type) : RecordedConfig ι where
  world := (startConfig ι).world
  party _ := .idle (.new 0, [])

/-- Both clients open the database of one sector, `true` doubles it, and `false` locks it, reads
past its old end and takes the lease. -/
def grownEvents : List (Event Bool Choice VfsCall BlobId) :=
  callEvents false (.open 0 "db" {} .mainDb false) 11 ++
  callEvents true (.open 0 "db" {} .mainDb false) 11 ++
  callEvents true (.truncate 0 1024) 2 ++
  callEvents false (.lock 0 .shared) 8 ++
  callEvents false (.read 0 100 600) 1 ++
  callEvents false (.lock 0 .reserved) 2

set_option maxRecDepth 8000 in
theorem reads_validated_among_two : ∃ cfg s h p b,
    (recordedClients Bool).run (recordedStart Bool) grownEvents = some cfg ∧
    cfg.party false = .idle (s, h) ∧ s.files 0 = some p ∧ (readsSince 0 h).length = 1 ∧
    cfg.world.azure.blobs ⟨0, "db"⟩ = some b ∧ b.content.size = 1024 ∧
    HasContent b.content p (cfg.world.disk false) ∧ ∀ x ∈ readsSince 0 h, ReadOf b.content x := by
  obtain ⟨cfg, s₁, s₂, s₃, s₄, r₁, r₂, r₃, r₄, p₁, p₂, p₃, p₄, b, hrun, hidle, hp₁, hp₂, hp₃, hp₄,
    hl₁, hl₂, hl₃, hl₄, het, hnone, hone, hlease, hb, hactive, hsize⟩ :
    ∃ cfg s₁ s₂ s₃ s₄ r₁ r₂ r₃ r₄ p₁ p₂ p₃ p₄ b,
      (recordedClients Bool).run (recordedStart Bool) grownEvents = some cfg ∧
      cfg.party false = .idle (s₄, [(s₃, .lock 0 .reserved, s₄, r₄), (s₂, .read 0 100 600, s₃, r₃),
        (s₁, .lock 0 .shared, s₂, r₂), (.new 0, .open 0 "db" {} .mainDb false, s₁, r₁)]) ∧
      s₁.files 0 = some p₁ ∧ s₂.files 0 = some p₂ ∧ s₃.files 0 = some p₃ ∧ s₄.files 0 = some p₄ ∧
      p₁.eLock = .none ∧ p₂.eLock = .shared ∧ p₃.eLock = .shared ∧ p₄.eLock = .reserved ∧
      p₃.etag = p₂.etag ∧
      (readsSince 0 [(s₁, .lock 0 .shared, s₂, r₂),
        (.new 0, .open 0 "db" {} .mainDb false, s₁, r₁)]).length = 0 ∧
      (readsSince 0 [(s₃, .lock 0 .reserved, s₄, r₄), (s₂, .read 0 100 600, s₃, r₃),
        (s₁, .lock 0 .shared, s₂, r₂),
        (.new 0, .open 0 "db" {} .mainDb false, s₁, r₁)]).length = 1 ∧
      p₄.leaseId = some 1 ∧ cfg.world.azure.blobs ⟨0, "db"⟩ = some b ∧ b.lease = .active 1 ∧
      b.content.size = 1024 :=
    ⟨_, _, _, _, _, _, _, _, _, _, _, _, _, _, rfl, rfl, rfl, rfl, rfl, rfl, rfl, rfl,
      rfl, rfl, rfl, rfl, rfl, rfl, rfl, rfl, rfl⟩
  have hstart : NoLeases (recordedStart Bool).forget := noLeases_startConfig
  have hissued : (recordedStart Bool).world.azure.Issued ⟨0, "db"⟩ := by
    intro b hb
    obtain rfl := Option.some.inj hb
    decide
  have honly : ReadsOnly 0 0 "db" [(s₃, .lock 0 .reserved, s₄, r₄), (s₂, .read 0 100 600, s₃, r₃),
      (s₁, .lock 0 .shared, s₂, r₂), (.new 0, .open 0 "db" {} .mainDb false, s₁, r₁)] := by
    refine ⟨⟨⟨⟨trivial, ⟨rfl, rfl, rfl, rfl, rfl, rfl, rfl, _, complete_production, rfl⟩, ?_⟩,
      ⟨rfl, fun _ => rfl⟩, ends_of_files hp₁ hp₂ ?_⟩, ⟨rfl, ?_⟩,
      ends_of_files hp₂ hp₃ fun _ => het⟩, ⟨rfl, ?_⟩, ends_of_files hp₃ hp₄ ?_⟩
    · intro p q hp
      cases hp
    · rw [hl₁, hl₂]
      exact LockLevel.noConfusion
    · rw [hnone]
      decide
    · rw [lockOf_of_file hp₃, hl₃]
      exact LockLevel.noConfusion
    · rw [hl₃, hl₄]
      exact LockLevel.noConfusion
  obtain ⟨hcontent, hreads⟩ := reads_validated_among_clients hstart rfl rfl hissued
    (runWithin_of_run hrun) hidle honly hp₄ hlease hb hactive
  exact ⟨cfg, s₄, _, p₄, b, hrun, hidle, hp₄, hone, hb, hsize, hcontent, hreads⟩

end SqliteObjs
