import SqliteObjs.Azure.Effects
import SqliteObjs.CS.Unwinding
import SqliteObjs.Journal.Storage

/-!
# Journals of different containers

A process that has no global client opens databases in several containers, each through
its URI. The journals of one container are observed: what `xOpen`, `xAccess` and the
other calls on them return. The rest of the run, on the other files of that container and
on databases of other containers, may be anything.

The journal cache is one table for the whole process. It is keyed by blob names alone, so
databases with equal names in two containers share an entry, and it has room for a fixed
number of names. `journals_isolated` says that this is all: when no other file has the
name of an observed journal, and the table has room when an observed call needs it, the
results do not depend on what else the process does.
-/

set_option autoImplicit false

namespace SqliteObjs

open Data CS CS.Program

/-! ## Observed calls -/

/-- The database lives in the container. -/
def Database.isIn (d : Database) (ctx : Nat) : Bool := d.uri.client == some ctx

/-- The call is about the rollback journal of a database in the container. -/
def VfsCall.onJournal (db : Nat → Database) (ctx : Nat) (c : VfsCall) : Bool :=
  match c with
  | .delete mainFile name | .access mainFile name _ =>
    isJournalName name && mainFile.any fun m => m.2 == ctx
  | c => c.file.any fun h => h % 3 == 1 && (db (h / 3)).isIn ctx

/-- SQLite takes locks on the database itself, and gives the pragma to it. -/
def VfsCall.locksMain : VfsCall → Prop
  | .lock h _ | .unlock h _ | .checkReservedLock h | .prefetch h => ∃ d, h = mainHandle d
  | _ => True

/-- The table has the entry, or room for it. -/
def Room (v : VfsData) (n : String) : Prop :=
  (journalCacheFind v n).isSome ∨ v.journalCache.length < maxJournalCache

/-- There is room for the entry the call may make. -/
def VfsCall.hasRoom (c : VfsCall) (s : Process) : Prop :=
  match c with
  | .open _ name _ _ _ | .access _ name _ => Room s.v name
  | .sync h => ∀ p, s.files h = some p → Room s.v p.zBlobName
  | _ => True

/-- The calls SQLite makes; those on the observed journals find room in the table. -/
def VfsCall.isolated (db : Nat → Database) (ctx : Nat) (c : VfsCall) (s : Process) (_ : World) :
    Prop :=
  c.ofDatabases db s ∧ c.locksMain ∧ (c.onJournal db ctx = true → c.hasRoom s)

/-- The journals of the container have names of their own: no database is called like one,
and no database of another container has one of that name. -/
structure OwnNames (db : Nat → Database) (ctx : Nat) : Prop where
  main : ∀ d e, (db d).isIn ctx = true → (db e).name ≠ (db d).auxName .journal
  journal : ∀ d e, (db d).isIn ctx = true → (db e).auxName .journal = (db d).auxName .journal →
    (db e).isIn ctx = true

/-! ## Where files are -/

/-- A file of the `d`-th database: its handle, its name and its type. -/
def FileOf (db : Nat → Database) (d h : Nat) (name : String) (ft : FileType) : Prop :=
  (h = mainHandle d ∧ name = (db d).name ∧ ft = .mainDb) ∨
    ∃ k, h = auxHandle d k ∧ name = (db d).auxName k ∧ ft = k.fileType

/-- There is no global client, and every open file is one of a database, in the container
of its URI. -/
structure Placed (db : Nat → Database) (s : Process) : Prop where
  ops : s.v.ops = none
  files : ∀ h p, s.files h = some p → ∃ d ctx, (db d).uri.client = some ctx ∧
    (p.ops, p.opsCtx) = (azureProductionOps, ctx) ∧ FileOf db d h p.zBlobName p.eFileType

section Placed

variable {db : Nat → Database} {ctx : Nat} {s s' : Process} {c : VfsCall}

theorem client_eq_none {v : VfsData} : v.client = none ↔ v.ops = none := by
  unfold VfsData.client
  exact Option.map_eq_none_iff

theorem Placed.step (h : Placed db s) (hc : c.ofDatabases db s) (hs : Follows c s s') :
    Placed db s' := by
  refine ⟨client_eq_none.mp (hs.client.trans (client_eq_none.mpr h.ops)), fun hd p' hp' => ?_⟩
  rcases hs.files hd p' hp' with ⟨p, hp, hid⟩ | ⟨name, uri, ft, create, sel, rfl, hsel, hid⟩
  · obtain ⟨d, x, hcl, hops, hf⟩ := h.files hd p hp
    refine ⟨d, x, hcl, (ObjsFile.client_of_ident hid).trans hops, ?_⟩
    rw [show p'.zBlobName = p.zBlobName from congrArg (·.2.1) hid,
      show p'.eFileType = p.eFileType from congrArg (·.2.2) hid]
    exact hf
  · obtain ⟨d, rfl, hf⟩ := hc
    unfold selectedOps at hsel
    cases hcl : (db d).uri.client with
    | none =>
      rw [hcl, h.ops] at hsel
      cases hsel
    | some x =>
      rw [hcl] at hsel
      obtain rfl := Option.some.inj hsel
      refine ⟨d, x, hcl, congrArg Prod.fst hid, ?_⟩
      rw [show p'.zBlobName = name from congrArg (·.2.1) hid,
        show p'.eFileType = ft from congrArg (·.2.2) hid]
      exact hf

/-- The name of a WAL is not that of a journal. -/
theorem isJournalName_wal (d : Database) : isJournalName (d.auxName .wal) = false := by
  by_contra h
  simp only [Bool.not_eq_false] at h
  unfold isJournalName Database.auxName at h
  rw [List.isSuffixOf_iff_suffix, String.toList_append] at h
  have hwal := List.suffix_of_suffix_length_le (List.suffix_append _ _) h (by decide)
  exact absurd (List.isSuffixOf_iff_suffix.mpr hwal) (by decide)

theorem isJournalName_journal (d : Database) : isJournalName (d.auxName .journal) = true := by
  unfold isJournalName Database.auxName
  rw [List.isSuffixOf_iff_suffix, String.toList_append]
  exact List.suffix_append _ _

theorem wal_ne_journal (d e : Database) : d.auxName .wal ≠ e.auxName .journal := by
  intro h
  have hj := isJournalName_journal e
  rw [← h, isJournalName_wal] at hj
  cases hj

/-- A file with the name of an observed journal is one, under the right handle. -/
theorem FileOf.of_name (hn : OwnNames db ctx) {d e h : Nat} {name : String} {ft : FileType}
    (hf : FileOf db e h name ft) (hd : (db d).isIn ctx = true)
    (hname : name = (db d).auxName .journal) :
    (db e).isIn ctx = true ∧ h = auxHandle e .journal ∧ ft = .mainJournal := by
  rcases hf with ⟨-, hm, -⟩ | ⟨k, hh, hm, hft⟩
  · exact absurd (hm.symm.trans hname) (hn.main d e hd)
  · cases k with
    | journal => exact ⟨hn.journal d e hd (hm.symm.trans hname), hh, hft⟩
    | wal => exact absurd (hm.symm.trans hname) (wal_ne_journal _ _)

theorem auxHandle_journal (d : Nat) :
    auxHandle d .journal % 3 = 1 ∧ auxHandle d .journal / 3 = d := by
  simp only [auxHandle]
  omega

/-- A call on the handle of an observed journal is observed. -/
theorem onJournal_of_file {d : Nat} (hd : (db d).isIn ctx = true)
    (hc : c.file = some (auxHandle d .journal)) : c.onJournal db ctx = true := by
  have hh := auxHandle_journal d
  cases c <;> simp only [VfsCall.file, Option.some.injEq, reduceCtorEq] at hc <;>
    simp [VfsCall.onJournal, VfsCall.file, hc, hh.1, hh.2, hd]

/-- A call that is not observed is about another name, and another handle. -/
theorem Placed.other (h : Placed db s) (hn : OwnNames db ctx) (hc : c.ofDatabases db s)
    (hown : c.onJournal db ctx = false) {d : Nat} (hd : (db d).isIn ctx = true) :
    c.name s ≠ some ((db d).auxName .journal) ∧ c.file ≠ some (auxHandle d .journal) := by
  have hfile : ∀ e, (db e).isIn ctx = true → c.file ≠ some (auxHandle e .journal) := by
    intro e he hf
    rw [onJournal_of_file he hf] at hown
    cases hown
  -- an open file with that name is under the handle of such a journal
  have hopen : ∀ h p, c.file = some h → s.files h = some p →
      p.zBlobName ≠ (db d).auxName .journal := by
    intro k p hk hp hname
    obtain ⟨e, -, -, -, hf⟩ := h.files k p hp
    obtain ⟨he, hh, -⟩ := hf.of_name hn hd hname
    exact hfile e he (hk.trans (congrArg some hh))
  -- a name that belongs to an open database
  have haux : ∀ {mf : Option (AzureOps × Nat)} {name : String},
      (isJournalName name && mf.any fun m => m.2 == ctx) = false →
      (∃ e k m, name = (db e).auxName k ∧ s.files (mainHandle e) = some m ∧
        mf = some (m.ops, m.opsCtx)) → name ≠ (db d).auxName .journal := by
    rintro mf name hno ⟨e, k, m, rfl, hm, rfl⟩ hname
    cases k with
    | wal => exact wal_ne_journal _ _ hname
    | journal =>
      have he := hn.journal d e hd hname
      obtain ⟨e', x, hcl, hops, hf⟩ := h.files _ m hm
      have hee : e' = e := by
        rcases hf with ⟨hh, -, -⟩ | ⟨k, hh, -, -⟩
        · exact (mainHandle_inj hh).symm
        · exact absurd hh (mainHandle_ne_auxHandle _ _ _)
      subst hee
      have hx : some x = some ctx := hcl.symm.trans (by simpa [Database.isIn] using he)
      obtain rfl := Option.some.inj hx
      have hctx : m.opsCtx = x := congrArg Prod.snd hops
      simp [isJournalName_journal, hctx] at hno
  refine ⟨?_, hfile d hd⟩
  cases c with
  | «open» k name uri ft create =>
    intro hname
    obtain ⟨e, -, hf⟩ := hc
    obtain ⟨he, hh, -⟩ := FileOf.of_name hn hf hd (Option.some.inj hname)
    exact hfile e he (congrArg some hh)
  | delete mf name => exact fun hname => haux hown hc (Option.some.inj hname)
  | access mf name flags => exact fun hname => haux hown hc (Option.some.inj hname)
  | _ =>
    intro hname
    obtain ⟨p, hp, hpn⟩ := Option.map_eq_some_iff.mp hname
    exact hopen _ p rfl hp hpn

end Placed

/-! ## What a journal's requests see -/

/-- What a request can tell of a blob, but for its ETag. -/
def Blob.face (b : Blob) : Bytes × Lease := (b.content, b.lease)

/-- The blob looks the same to both. -/
def SameFace (a a' : Azure) (i : BlobId) : Prop :=
  (a.blobs i).map Blob.face = (a'.blobs i).map Blob.face

/-- The requests the calls on journals make, for blobs in `B`. -/
def JournalReq (B : BlobId → Prop) : Req → Prop
  | .azure (.blobGetProperties i) | .azure (.blockBlobDownload i)
  | .azure (.blockBlobUpload i _) | .azure (.blobDelete i) => B i
  | .sys (.malloc _) => True
  | _ => False

/-- What they look at in the answers. -/
def SameAnswer : (r : Req) → Ans r → Ans r → Prop
  | .azure _, x, y => x.err = y.err ∧ x.body = y.body
  | .sys _, x, y => x = y

section Requests

variable {a a' : Azure} {i : BlobId}

/-- Both blobs are missing, or both are there and look alike. -/
theorem SameFace.cases (h : SameFace a a' i) :
    (a.blobs i = none ∧ a'.blobs i = none) ∨
    ∃ b b', a.blobs i = some b ∧ a'.blobs i = some b' ∧ b.content = b'.content ∧
      b.lease = b'.lease := by
  unfold SameFace at h
  cases hb : a.blobs i with
  | none =>
    rw [hb] at h
    exact Or.inl ⟨rfl, Option.map_eq_none_iff.mp h.symm⟩
  | some b =>
    rw [hb] at h
    obtain ⟨b', hb', hf⟩ := Option.map_eq_some_iff.mp h.symm
    obtain ⟨hc, hl⟩ := Prod.mk.inj hf
    exact Or.inr ⟨b, b', rfl, hb', hc.symm, hl.symm⟩

theorem admits_none_congr {b b' : Blob} (h : b.lease = b'.lease) :
    b.admits none = b'.admits none ∧ b.leaseAfterChange = b'.leaseAfterChange := by
  unfold Blob.admits Blob.leaseAfterChange
  rw [h]
  exact ⟨rfl, rfl⟩

theorem SameFace.putBlob (h : SameFace a a' i) (d : Bytes) :
    SameAnswer (.azure (.blockBlobUpload i d)) (a.putBlob i d).1 (a'.putBlob i d).1 ∧
      SameFace (a.putBlob i d).2 (a'.putBlob i d).2 i := by
  rcases h.cases with ⟨hb, hb'⟩ | ⟨b, b', hb, hb', hc, hl⟩
  · unfold Azure.putBlob
    rw [hb, hb']
    exact ⟨⟨rfl, rfl⟩, by simp [SameFace, Blob.face]⟩
  · obtain ⟨hadm, hlc⟩ := admits_none_congr hl
    unfold Azure.putBlob
    rw [hb, hb']
    dsimp only
    rw [hadm]
    split
    · exact ⟨⟨rfl, rfl⟩, by simp [SameFace, Blob.face, hlc]⟩
    · exact ⟨⟨rfl, rfl⟩, h⟩

theorem SameFace.respond {B : BlobId → Prop} {r : AzReq} (hr : JournalReq B (.azure r))
    (h : SameFace a a' r.blob) :
    SameAnswer (.azure r) (a.respond r).1 (a'.respond r).1 ∧
      SameFace (a.respond r).2 (a'.respond r).2 r.blob := by
  cases r <;> try exact hr.elim
  case blockBlobUpload i d => exact h.putBlob d
  all_goals
    simp only [AzReq.blob] at h
    simp only [Azure.respond, AzReq.blob]
    rcases h.cases with ⟨hb, hb'⟩ | ⟨b, b', hb, hb', hc, hl⟩
    · rw [hb, hb']
      exact ⟨⟨rfl, rfl⟩, h⟩
    · rw [hb, hb']
      dsimp only
      first
        | exact ⟨⟨rfl, rfl⟩, h⟩
        | exact ⟨⟨rfl, hc⟩, h⟩
        | rw [(admits_none_congr hl).1]
          split
          · exact ⟨⟨rfl, rfl⟩, by simp [SameFace]⟩
          · exact ⟨⟨rfl, rfl⟩, h⟩

end Requests

/-- The blobs in `B` look the same in both worlds. -/
def SameBlobs (B : BlobId → Prop) (w w' : World) : Prop := ∀ i, B i → SameFace w.azure w'.azure i

/-- The requests on journals are answered alike, and keep the blobs alike. -/
theorem SameBlobs.respond {B : BlobId → Prop} (c : Choice) (r : Req) (w w' : World) (x y : Ans r)
    (u u' : World) (hr : JournalReq B r) (h : SameBlobs B w w')
    (hx : World.respond c r w = some (x, u)) (hy : World.respond c r w' = some (y, u')) :
    SameAnswer r x y ∧ SameBlobs B u u' := by
  cases r with
  | sys r =>
    cases r <;> try exact hr.elim
    case malloc n =>
      simp only [World.respond, Option.some.injEq, Prod.mk.injEq] at hx hy
      obtain ⟨rfl, rfl⟩ := hx
      obtain ⟨rfl, rfl⟩ := hy
      refine ⟨?_, h⟩
      simp only [SameAnswer, Disk.serve]
      split
      · rfl
      · rfl
  | azure r =>
    have hB : B r.blob := by
      cases r <;> first | exact hr | exact hr.elim
    obtain ⟨hans, hface⟩ := SameFace.respond hr (h r.blob hB)
    have hall : ∀ i, B i → SameFace (w.azure.respond r).2 (w'.azure.respond r).2 i := by
      intro i hi
      by_cases hir : i = r.blob
      · rw [hir]
        exact hface
      · unfold SameFace
        rw [Azure.respond_blobs_ne _ _ hir, Azure.respond_blobs_ne _ _ hir]
        exact h i hi
    have hx' := respond_azure hx
    have hy' := respond_azure hy
    unfold Azure.serve at hx' hy'
    cases hf : c.fault with
    | some f =>
      obtain ⟨e, applied⟩ := f
      simp only [hf] at hx' hy'
      split at hx'
      · cases hx'
      next he =>
      rw [if_neg he] at hy'
      obtain ⟨rfl, hu⟩ := Prod.mk.inj (Option.some.inj hx')
      obtain ⟨rfl, hu'⟩ := Prod.mk.inj (Option.some.inj hy')
      refine ⟨⟨rfl, rfl⟩, fun i hi => ?_⟩
      rw [← hu, ← hu']
      cases applied with
      | true => exact hall i hi
      | false => exact h i hi
    | none =>
      simp only [hf] at hx' hy'
      cases r <;> try exact hr.elim
      all_goals
        obtain ⟨hx₁, hu⟩ := Prod.mk.inj (Option.some.inj hx')
        obtain ⟨hy₁, hu'⟩ := Prod.mk.inj (Option.some.inj hy')
        rw [← hx₁, ← hy₁]
        refine ⟨hans, fun i hi => ?_⟩
        rw [← hu, ← hu']
        exact hall i hi

/-! ## Calls on journals -/

section Coupled

variable {B : BlobId → Prop} {α β : Type} {Q : α → β → Prop}

theorem coupled_sys_bind {n : Nat} {f : SysReply → Prog α} {g : SysReply → Prog β}
    (h : ∀ x, Coupled SameAnswer (JournalReq B) Q (f x) (g x)) :
    Coupled SameAnswer (JournalReq B) Q (sys (.malloc n) >>= f) (sys (.malloc n) >>= g) := by
  refine .call trivial ?_
  rintro x _ rfl
  exact h x

theorem coupled_execute {r : AzReq} (hr : JournalReq B (.azure r)) :
    Coupled SameAnswer (JournalReq B) (SameAnswer (.azure r)) (execute r) (execute r) := by
  have hretry : ∀ n, Coupled SameAnswer (JournalReq B) (SameAnswer (.azure r))
      (executeWithRetry r n) (executeWithRetry r n) := by
    intro n
    induction n with
    | zero => exact .call hr fun x y hxy => .ret hxy
    | succ n ih =>
      refine .call hr fun x y hxy => ?_
      refine .ite (by rw [hxy.1]) (fun _ => .ret hxy) fun _ => ?_
      exact .ite (by rw [hxy.1]) (fun _ => .ret hxy) fun _ => ih
  exact hretry azureMaxRetries

theorem coupled_execute_bind {r : AzReq} (hr : JournalReq B (.azure r)) {f : AzReply → Prog α}
    {g : AzReply → Prog β}
    (h : ∀ x y : AzReply, x.err = y.err → x.body = y.body →
      Coupled SameAnswer (JournalReq B) Q (f x) (g y)) :
    Coupled SameAnswer (JournalReq B) Q (execute r >>= f) (execute r >>= g) :=
  (coupled_execute hr).bind fun x y hxy => h x y hxy.1 hxy.2

theorem coupled_azBlobExists {i : BlobId} (hi : B i) :
    Coupled SameAnswer (JournalReq B) Eq (azBlobExists i) (azBlobExists i) := by
  unfold azBlobExists azBlobGetProperties
  refine coupled_execute_bind (r := .blobGetProperties i) hi fun x y he _ => ?_
  rw [he]
  refine .ite Iff.rfl (fun _ => .ret rfl) fun _ => ?_
  exact .ite Iff.rfl (fun _ => .ret rfl) fun _ => .ret rfl

theorem coupled_bufferEnsure (d : Bytes) (n : Nat) :
    Coupled SameAnswer (JournalReq B) Eq (bufferEnsure d n) (bufferEnsure d n) := by
  unfold bufferEnsure
  refine .ite Iff.rfl (fun _ => .ret rfl) fun _ => ?_
  dsimp only
  refine .ite Iff.rfl (fun _ => .ret rfl) fun _ => ?_
  exact coupled_sys_bind fun x => .ite Iff.rfl (fun _ => .ret rfl) fun _ => .ret rfl

end Coupled

/-- A journal as `xOpen` makes it, with any content. -/
structure PlainJournal (p : ObjsFile) : Prop where
  kind : p.eFileType = .mainJournal
  ops : p.ops = azureProductionOps
  lease : p.leaseId = none
  clean : p.dirty = .null
  cacheFd : p.cacheFd = none
  path : p.zCachePath = none
  reuse : p.cacheReuse = false

/-- A journal stays what it is while its content changes. -/
theorem PlainJournal.setData {p : ObjsFile} (h : PlainJournal p) (d : Bytes) (n : Nat) :
    PlainJournal { p with eFileType := .mainJournal, aJrnlData := d, nJrnlData := n } :=
  ⟨rfl, h.ops, h.lease, h.clean, h.cacheFd, h.path, h.reuse⟩

/-! ## The table -/

/-- Both tables have the same entries for the names in `N`. -/
def SameEntries (N : String → Prop) (v v' : VfsData) : Prop :=
  ∀ n, N n → journalCacheFind v n = journalCacheFind v' n

section Table

variable {N : String → Prop} {v v' : VfsData} {n : String}

/-- With room for it, an entry is made for every name that is short enough. -/
theorem getOrCreate_of_room (hr : Room v n) :
    ((journalCacheGetOrCreate v n).2 = true ↔
      (journalCacheFind v n).isSome ∨ n.utf8ByteSize < 512) ∧
    journalCacheFind (journalCacheGetOrCreate v n).1 n = (journalCacheFind v n).or
      (if n.utf8ByteSize < 512 then some { state := none, zBlobName := n } else none) := by
  unfold journalCacheGetOrCreate
  cases hf : journalCacheFind v n with
  | some e => simp [hf]
  | none =>
    have hlen : ¬ maxJournalCache ≤ v.journalCache.length := by
      rcases hr with hr | hr
      · rw [hf] at hr
        cases hr
      · omega
    by_cases hshort : n.utf8ByteSize < 512
    · have hnew : journalCacheFind { v with
          journalCache := v.journalCache ++ [{ state := none, zBlobName := n }] } n =
          some { state := none, zBlobName := n } := by
        unfold journalCacheFind at hf ⊢
        rw [List.find?_append, hf]
        simp
      simp [hlen, hshort, Nat.not_le.mpr hshort, hnew]
    · simp [hlen, hshort, Nat.not_lt.mp hshort, hf]

theorem SameEntries.getOrCreate (h : SameEntries N v v') (hn : N n) (hr : Room v n)
    (hr' : Room v' n) :
    (journalCacheGetOrCreate v n).2 = (journalCacheGetOrCreate v' n).2 ∧
      SameEntries N (journalCacheGetOrCreate v n).1 (journalCacheGetOrCreate v' n).1 := by
  obtain ⟨h₁, h₂⟩ := getOrCreate_of_room hr
  obtain ⟨h₁', h₂'⟩ := getOrCreate_of_room hr'
  have hf := h n hn
  refine ⟨?_, fun m hm => ?_⟩
  · rw [hf, ← h₁'] at h₁
    exact Bool.eq_iff_iff.mpr h₁
  · by_cases hmn : m = n
    · subst hmn
      rw [h₂, h₂', hf]
    · rw [(onlyEntry_getOrCreate v n).others m hmn, (onlyEntry_getOrCreate v' n).others m hmn]
      exact h m hm

theorem SameEntries.set (h : SameEntries N v v') (n : String) (b : Bool) :
    SameEntries N (journalCacheSet v n b) (journalCacheSet v' n b) := by
  intro m hm
  rw [journalCacheFind_set, journalCacheFind_set, h m hm]

theorem SameEntries.put (h : SameEntries N v v') (hn : N n) (hr : Room v n) (hr' : Room v' n)
    (b : Bool) : SameEntries N (journalCachePut v n b) (journalCachePut v' n b) := by
  obtain ⟨hfound, hsame⟩ := h.getOrCreate hn hr hr'
  unfold journalCachePut
  dsimp only
  rw [hfound]
  split
  · exact hsame.set n b
  · exact hsame

theorem SameEntries.state (h : SameEntries N v v') (hn : N n) :
    journalCacheState v n = journalCacheState v' n := by
  unfold journalCacheState
  rw [h n hn]

end Table

/-! ## Observed calls in two runs -/

/-- The name of an observed journal. -/
def JournalName (db : Nat → Database) (ctx : Nat) (n : String) : Prop :=
  ∃ d, (db d).isIn ctx = true ∧ n = (db d).auxName .journal

/-- The blob of an observed journal. -/
def JournalBlob (db : Nat → Database) (ctx : Nat) (i : BlobId) : Prop :=
  i.ctx = ctx ∧ JournalName db ctx i.name

/-- Both processes have the same observed journals open, and the same entries for them. -/
structure SameJournals (db : Nat → Database) (ctx : Nat) (s t : Process) : Prop where
  files : ∀ d, (db d).isIn ctx = true →
    s.files (auxHandle d .journal) = t.files (auxHandle d .journal)
  plain : ∀ d p, (db d).isIn ctx = true → s.files (auxHandle d .journal) = some p → PlainJournal p
  cache : SameEntries (JournalName db ctx) s.v t.v

section Calls

variable {db : Nat → Database} {ctx : Nat} {s t : Process} {v v' : VfsData} {d : Nat}
  {p : ObjsFile}

theorem SameJournals.setFile (h : SameJournals db ctx s t)
    (hv : SameEntries (JournalName db ctx) v v')
    {q : Option ObjsFile} (hq : ∀ p, q = some p → PlainJournal p) (k : Nat) :
    SameJournals db ctx ({ s with v := v }.setFile k q) ({ t with v := v' }.setFile k q) := by
  refine ⟨fun e he => ?_, fun e p he hp => ?_, hv⟩
  · by_cases hk : auxHandle e .journal = k
    · simp [Process.setFile, hk]
    · simp [Process.setFile, hk, h.files e he]
  · by_cases hk : auxHandle e .journal = k
    · subst hk
      refine hq p ?_
      simpa [Process.setFile] using hp
    · refine h.plain e p he ?_
      simpa [Process.setFile, hk] using hp

theorem SameJournals.setData (h : SameJournals db ctx s t)
    (hv : SameEntries (JournalName db ctx) v v') :
    SameJournals db ctx { s with v := v } { t with v := v' } :=
  ⟨h.files, h.plain, hv⟩

/-- What both runs see of an observed call. -/
def SameOutcome (db : Nat → Database) (ctx : Nat) (x y : Process × VfsResult) : Prop :=
  x.2 = y.2 ∧ SameJournals db ctx x.1 y.1

/-- The same requests, answered alike, lead to the same outcome. -/
abbrev SameCall (db : Nat → Database) (ctx : Nat) {α β : Type} (Q : α → β → Prop) (m : Prog α)
    (m' : Prog β) : Prop :=
  Coupled SameAnswer (JournalReq (JournalBlob db ctx)) Q m m'

/-- What a call on one journal gives, with the VFS data it leaves. -/
def SameData (db : Nat → Database) (ctx : Nat) {α : Type} (x y : VfsData × α) : Prop :=
  x.2 = y.2 ∧ SameEntries (JournalName db ctx) x.1 y.1

theorem coupled_journalExists (hops : p.ops = azureProductionOps)
    (hb : JournalBlob db ctx p.blob) (hv : SameEntries (JournalName db ctx) v v')
    (hr : Room v p.zBlobName) (hr' : Room v' p.zBlobName) :
    SameCall db ctx (SameData db ctx) (journalExists v p) (journalExists v' p) := by
  have hn : JournalName db ctx p.zBlobName := hb.2
  obtain ⟨hfound, hsame⟩ := hv.getOrCreate hn hr hr'
  have hex : p.ops.blobExists = true := by rw [hops]; rfl
  unfold journalExists
  dsimp only
  rw [hfound, hsame.state hn]
  refine .ite Iff.rfl (fun _ => .ret ⟨rfl, hsame⟩) fun _ => ?_
  refine .ite Iff.rfl (fun _ => ?_) fun hno => absurd hex hno
  refine (coupled_azBlobExists hb).bind ?_
  rintro ⟨arc, ex⟩ _ rfl
  refine .ret ⟨rfl, ?_⟩
  dsimp only
  split
  · exact hsame.set _ ex
  · exact hsame

theorem coupled_openJournal (hp : PlainJournal p) (hb : JournalBlob db ctx p.blob)
    (hv : SameEntries (JournalName db ctx) v v') (hr : Room v p.zBlobName)
    (hr' : Room v' p.zBlobName) :
    SameCall db ctx (fun x y => SameData db ctx x y ∧ ∀ q, x.2 = .ok q → PlainJournal q)
      (openJournal v p) (openJournal v' p) := by
  unfold openJournal
  refine (coupled_journalExists hp.ops hb hv hr hr').bind ?_
  rintro ⟨v₁, ex⟩ ⟨v₂, _⟩ ⟨rfl, hv⟩
  have hok : ∀ {q : ObjsFile}, PlainJournal q → SameCall db ctx
      (fun x y => SameData db ctx x y ∧ ∀ q, x.2 = .ok q → PlainJournal q)
      (.ret (v₁, .ok q) : Prog (VfsData × Except Rc ObjsFile)) (.ret (v₂, .ok q)) := by
    intro q hq
    refine .ret ⟨⟨rfl, hv⟩, ?_⟩
    rintro _ ⟨⟩
    exact hq
  dsimp only
  refine .ite Iff.rfl (fun _ => ?_) fun _ => hok hp
  unfold azBlockBlobDownload
  refine coupled_execute_bind
    (show JournalReq (JournalBlob db ctx) (.azure (.blockBlobDownload p.blob)) from hb)
    fun x y he hbody => ?_
  rw [he, hbody]
  refine .ite Iff.rfl (fun _ => ?_) fun _ => hok hp
  refine (coupled_bufferEnsure _ _).bind ?_
  rintro ⟨data, rc⟩ _ rfl
  dsimp only
  refine .ite Iff.rfl (fun _ => .ret ⟨⟨rfl, hv⟩, fun q hq => by cases hq⟩) fun _ => ?_
  exact hok ⟨hp.kind, hp.ops, hp.lease, hp.clean, hp.cacheFd, hp.path, hp.reuse⟩

theorem plainJournal_newFile (ctx : Nat) (name : String) (uri : UriParams) :
    PlainJournal (newFile azureProductionOps ctx name uri .mainJournal) :=
  ⟨rfl, rfl, rfl, rfl, rfl, rfl, rfl⟩

theorem coupled_open (h : SameJournals db ctx s t) (hd : (db d).isIn ctx = true) (k : Nat)
    (create : Bool) (hr : Room s.v ((db d).auxName .journal))
    (hr' : Room t.v ((db d).auxName .journal)) :
    SameCall db ctx (SameOutcome db ctx)
      ((VfsCall.open k ((db d).auxName .journal) (db d).uri .mainJournal create).code s)
      ((VfsCall.open k ((db d).auxName .journal) (db d).uri .mainJournal create).code t) := by
  have hcl : (db d).uri.client = some ctx := by simpa [Database.isIn] using hd
  have herr : ∀ rc : Rc, SameCall db ctx
      (fun x y => SameData db ctx x y ∧ ∀ q, x.2 = .ok q → PlainJournal q)
      (.ret (s.v, .error rc) : Prog (VfsData × Except Rc ObjsFile)) (.ret (t.v, .error rc)) :=
    fun rc => .ret ⟨⟨rfl, h.cache⟩, fun q hq => by cases hq⟩
  have hopen : SameCall db ctx
      (fun x y => SameData db ctx x y ∧ ∀ q, x.2 = .ok q → PlainJournal q)
      (sqliteObjsOpen s.v ((db d).auxName .journal) (db d).uri .mainJournal create)
      (sqliteObjsOpen t.v ((db d).auxName .journal) (db d).uri .mainJournal create) := by
    unfold sqliteObjsOpen
    refine .ite Iff.rfl (fun _ => herr _) fun _ => ?_
    refine coupled_sys_bind fun m => .ite Iff.rfl (fun _ => herr _) fun _ => ?_
    unfold selectOps
    simp only [hcl]
    refine Coupled.bind (Q := fun x y => x = y ∧ (x = none ∨ x = some (azureProductionOps, ctx)))
      (coupled_sys_bind fun m => .ret ⟨rfl, ?_⟩) ?_
    · split
      · exact Or.inr rfl
      · exact Or.inl rfl
    rintro _ _ ⟨rfl, rfl | rfl⟩
    · exact herr _
    · exact coupled_openJournal (plainJournal_newFile ctx _ _) ⟨rfl, d, hd, rfl⟩ h.cache hr hr'
  unfold VfsCall.code
  refine hopen.bind ?_
  rintro ⟨v₁, r⟩ ⟨v₂, _⟩ ⟨⟨rfl, hv⟩, hplain⟩
  dsimp only
  cases r with
  | ok q =>
    refine .ret ⟨rfl, h.setFile hv ?_ k⟩
    rintro _ ⟨⟩
    exact hplain q rfl
  | error rc => exact .ret ⟨rfl, h.setData hv⟩

/-- A call on an observed journal that leaves the VFS data alone. -/
theorem coupled_onFile (h : SameJournals db ctx s t) (hd : (db d).isIn ctx = true)
    {f : ObjsFile → Prog (ObjsFile × VfsResult)}
    (hf : ∀ p, PlainJournal p → SameCall db ctx (fun x y => x = y ∧ PlainJournal x.1) (f p) (f p)) :
    SameCall db ctx (SameOutcome db ctx) (VfsCall.onFile s (auxHandle d .journal) f)
      (VfsCall.onFile t (auxHandle d .journal) f) := by
  unfold VfsCall.onFile
  rw [← h.files d hd]
  cases hp : s.files (auxHandle d .journal) with
  | none => exact .ret ⟨rfl, h⟩
  | some p =>
    refine (hf p (h.plain d p hd hp)).bind ?_
    rintro ⟨q, r⟩ _ ⟨rfl, hq⟩
    refine .ret ⟨rfl, h.setFile h.cache ?_ _⟩
    rintro _ ⟨⟩
    exact hq

theorem coupled_read (h : SameJournals db ctx s t) (hd : (db d).isIn ctx = true) (n o : Nat) :
    SameCall db ctx (SameOutcome db ctx) ((VfsCall.read (auxHandle d .journal) n o).code s)
      ((VfsCall.read (auxHandle d .journal) n o).code t) := by
  refine coupled_onFile h hd fun p hp => ?_
  unfold sqliteObjsRead
  rw [hp.kind]
  exact .ret ⟨rfl, hp⟩

theorem coupled_write (h : SameJournals db ctx s t) (hd : (db d).isIn ctx = true) (buf : Bytes)
    (o : Nat) :
    SameCall db ctx (SameOutcome db ctx) ((VfsCall.write (auxHandle d .journal) buf o).code s)
      ((VfsCall.write (auxHandle d .journal) buf o).code t) := by
  refine coupled_onFile h hd fun p hp => ?_
  have hbuf : SameCall db ctx Eq (bufferWrite p.aJrnlData p.nJrnlData buf o)
      (bufferWrite p.aJrnlData p.nJrnlData buf o) := by
    unfold bufferWrite
    refine (coupled_bufferEnsure _ _).bind ?_
    rintro ⟨data, rc⟩ _ rfl
    exact .ite Iff.rfl (fun _ => .ret rfl) fun _ => .ret rfl
  unfold sqliteObjsWrite
  rw [hp.kind]
  refine Coupled.bind (Q := fun x y => x = y ∧ PlainJournal x.1) (hbuf.bind ?_) ?_
  · rintro ⟨data, n, rc⟩ _ rfl
    exact .ret ⟨rfl, hp.setData _ _⟩
  · rintro ⟨q, rc⟩ _ ⟨rfl, hq⟩
    exact .ret ⟨rfl, hq⟩

theorem coupled_truncate (h : SameJournals db ctx s t) (hd : (db d).isIn ctx = true) (n : Nat) :
    SameCall db ctx (SameOutcome db ctx) ((VfsCall.truncate (auxHandle d .journal) n).code s)
      ((VfsCall.truncate (auxHandle d .journal) n).code t) := by
  refine coupled_onFile h hd fun p hp => ?_
  unfold sqliteObjsTruncate
  rw [hp.kind]
  dsimp only
  split
  · exact .ret ⟨rfl, hp.setData _ _⟩
  · exact .ret ⟨rfl, hp⟩

theorem coupled_sync (h : SameJournals db ctx s t) (hd : (db d).isIn ctx = true)
    (hfile : ∀ p, s.files (auxHandle d .journal) = some p → JournalBlob db ctx p.blob ∧
      Room s.v p.zBlobName ∧ Room t.v p.zBlobName) :
    SameCall db ctx (SameOutcome db ctx) ((VfsCall.sync (auxHandle d .journal)).code s)
      ((VfsCall.sync (auxHandle d .journal)).code t) := by
  simp only [VfsCall.code]
  rw [← h.files d hd]
  cases hp : s.files (auxHandle d .journal) with
  | none => exact .ret ⟨rfl, h⟩
  | some p =>
    have hplain := h.plain d p hd hp
    obtain ⟨hb, hr, hr'⟩ := hfile p hp
    have hsync : SameCall db ctx (SameData db ctx) (journalSync s.v p) (journalSync t.v p) := by
      unfold journalSync
      refine .ite Iff.rfl (fun _ => ?_) fun _ => .ret ⟨rfl, h.cache⟩
      unfold azBlockBlobUpload
      refine coupled_execute_bind (show JournalReq (JournalBlob db ctx)
        (.azure (.blockBlobUpload p.blob _)) from hb) fun x y he _ => ?_
      rw [he]
      refine .ite Iff.rfl (fun _ => .ret ⟨rfl, h.cache⟩) fun _ => ?_
      exact .ret ⟨rfl, h.cache.put hb.2 hr hr' true⟩
    dsimp only
    unfold sqliteObjsSync
    rw [hplain.kind]
    dsimp only
    refine Coupled.bind (Q := fun x y => SameData db ctx x y ∧ x.2.1 = p) (hsync.bind ?_) ?_
    · rintro ⟨v₁, rc⟩ ⟨v₂, _⟩ ⟨rfl, hv⟩
      exact .ret ⟨⟨rfl, hv⟩, rfl⟩
    · rintro ⟨v₁, q, rc⟩ ⟨v₂, _⟩ ⟨⟨rfl, hv⟩, rfl⟩
      refine .ret ⟨rfl, h.setFile hv ?_ _⟩
      rintro _ ⟨⟩
      exact hplain

/-- Closing a journal makes no request. -/
theorem close_plainJournal (hp : PlainJournal p) (v : VfsData) :
    sqliteObjsClose v p = .ret (v, .ok) := by
  unfold sqliteObjsClose closeFlush closeRefreshEtag closeReleaseLease closeCacheFd closeCache
  simp [hp.kind, hp.lease, hp.clean, hp.cacheFd, hp.path, hp.reuse, Bitmap.null]

theorem coupled_close (h : SameJournals db ctx s t) (hd : (db d).isIn ctx = true) :
    SameCall db ctx (SameOutcome db ctx) ((VfsCall.close (auxHandle d .journal)).code s)
      ((VfsCall.close (auxHandle d .journal)).code t) := by
  simp only [VfsCall.code]
  rw [← h.files d hd]
  cases hp : s.files (auxHandle d .journal) with
  | none => exact .ret ⟨rfl, h⟩
  | some p =>
    dsimp only
    rw [close_plainJournal (h.plain d p hd hp), close_plainJournal (h.plain d p hd hp)]
    exact .ret ⟨rfl, h.setFile h.cache (fun p hp => by cases hp) _⟩

theorem coupled_delete (h : SameJournals db ctx s t) (hs : s.v.ops = none) (ht : t.v.ops = none)
    (hd : (db d).isIn ctx = true) :
    SameCall db ctx (SameOutcome db ctx)
      ((VfsCall.delete (some (azureProductionOps, ctx)) ((db d).auxName .journal)).code s)
      ((VfsCall.delete (some (azureProductionOps, ctx)) ((db d).auxName .journal)).code t) := by
  have hdel : SameCall db ctx (SameData db ctx)
      (sqliteObjsDelete s.v (some (azureProductionOps, ctx)) ((db d).auxName .journal))
      (sqliteObjsDelete t.v (some (azureProductionOps, ctx)) ((db d).auxName .journal)) := by
    unfold sqliteObjsDelete resolveOps
    rw [hs, ht]
    simp only [isJournalName_journal, Bool.true_or, if_true]
    refine .ite Iff.rfl (fun _ => .ret ⟨rfl, h.cache⟩) fun _ => ?_
    refine .ite Iff.rfl (fun _ => .ret ⟨rfl, h.cache⟩) fun _ => ?_
    unfold azBlobDelete
    refine coupled_execute_bind (show JournalReq (JournalBlob db ctx)
      (.azure (.blobDelete ⟨ctx, (db d).auxName .journal⟩)) from ⟨rfl, d, hd, rfl⟩)
      fun x y he _ => ?_
    rw [he]
    refine .ite Iff.rfl (fun _ => .ret ⟨rfl, h.cache.set _ _⟩) fun _ => ?_
    exact .ite Iff.rfl (fun _ => .ret ⟨rfl, h.cache⟩) fun _ => .ret ⟨rfl, h.cache.set _ _⟩
  unfold VfsCall.code
  refine hdel.bind ?_
  rintro ⟨v₁, r⟩ ⟨v₂, _⟩ ⟨rfl, hv⟩
  exact .ret ⟨rfl, h.setData hv⟩

theorem coupled_access (h : SameJournals db ctx s t) (hs : s.v.ops = none) (ht : t.v.ops = none)
    (hd : (db d).isIn ctx = true) (flags : AccessFlag) (hr : Room s.v ((db d).auxName .journal))
    (hr' : Room t.v ((db d).auxName .journal)) :
    SameCall db ctx (SameOutcome db ctx)
      ((VfsCall.access (some (azureProductionOps, ctx)) ((db d).auxName .journal) flags).code s)
      ((VfsCall.access (some (azureProductionOps, ctx)) ((db d).auxName .journal) flags).code t)
      := by
  have hn : JournalName db ctx ((db d).auxName .journal) := ⟨d, hd, rfl⟩
  have hacc : SameCall db ctx (SameData db ctx)
      (sqliteObjsAccess s.v (some (azureProductionOps, ctx)) ((db d).auxName .journal) flags)
      (sqliteObjsAccess t.v (some (azureProductionOps, ctx)) ((db d).auxName .journal) flags) := by
    unfold sqliteObjsAccess resolveOps
    rw [hs, ht, h.cache.state hn]
    simp only [isJournalName_journal, Bool.true_or, if_true]
    refine .ite Iff.rfl (fun _ => .ret ⟨rfl, h.cache⟩) fun _ => ?_
    refine .ite Iff.rfl (fun _ => .ret ⟨rfl, h.cache⟩) fun _ => ?_
    split
    · exact .ret ⟨rfl, h.cache⟩
    refine (coupled_azBlobExists ⟨rfl, hn⟩).bind ?_
    rintro ⟨arc, found⟩ _ rfl
    dsimp only
    refine .ite Iff.rfl (fun _ => .ret ⟨rfl, h.cache⟩) fun _ => ?_
    exact .ret ⟨rfl, h.cache.put hn hr hr' found⟩
  unfold VfsCall.code
  refine hacc.bind ?_
  rintro ⟨v₁, r⟩ ⟨v₂, _⟩ ⟨rfl, hv⟩
  exact .ret ⟨rfl, h.setData hv⟩

/-- The two runs: databases are where they belong, and the observed journals are the same
in both, open or not. -/
structure Paired (db : Nat → Database) (ctx : Nat) (x y : Process × World) : Prop where
  placed : Placed db x.1
  placed' : Placed db y.1
  journals : SameJournals db ctx x.1 y.1
  blobs : SameBlobs (JournalBlob db ctx) x.2 y.2

theorem Paired.symm {x y : Process × World} (h : Paired db ctx x y) : Paired db ctx y x where
  placed := h.placed'
  placed' := h.placed
  journals := {
    files := fun d hd => (h.journals.files d hd).symm
    plain := fun d p hd hp => h.journals.plain d p hd ((h.journals.files d hd).trans hp)
    cache := fun n hn => (h.journals.cache n hn).symm }
  blobs i hi := (h.blobs i hi).symm

/-- What a call leaves of its process and of the blobs it is not about. -/
theorem follows_of_exec {c : VfsCall} {cs : List Choice} {s' : Process} {r : VfsResult}
    {w w' : World} (he : exec World.respond cs (c.code s) w = some ((s', r), w')) :
    Follows c s s' ∧ ∀ i, c.blob s ≠ some i → w'.azure.blobs i = w.azure.blobs i := by
  have hruns := Program.runs_of_exec (C := Choice) cs (fun _ _ => trivial) he
  have hin := within_code c s
  refine ⟨hin.of_runs hruns, fun i hi => ?_⟩
  refine hin.inv_of_runs (I := fun u => u.azure.blobs i = w.azure.blobs i) ?_ hruns rfl
  rintro r u x u' hr ⟨ch, -, hs⟩ hu
  cases r with
  | sys r =>
    obtain ⟨-, -, -, rfl⟩ := served_sys (show World.served (fun _ => True) (.sys r) u x u' from
      ⟨ch, trivial, hs⟩)
    exact hu
  | azure r =>
    have hne : i ≠ r.blob := by
      rintro rfl
      exact hi hr
    rw [← hu]
    rcases Azure.serve_cases (respond_azure hs) with ⟨-, ha⟩ | ⟨-, ha, -, -⟩
    · rw [ha]
    · rw [ha, Azure.respond_blobs_ne _ _ hne]

/-- The blob of a call has its name. -/
theorem name_of_blob {c : VfsCall} {i : BlobId} (h : c.blob s = some i) :
    c.name s = some i.name := by
  cases c with
  | «open» | delete | access =>
    obtain ⟨sel, -, rfl⟩ := Option.map_eq_some_iff.mp h
    rfl
  | _ =>
    obtain ⟨p, hp, rfl⟩ := Option.map_eq_some_iff.mp h
    exact Option.map_eq_some_iff.mpr ⟨p, hp, rfl⟩

/-- A call that is not observed leaves the observed journals alone. -/
theorem Paired.other (hn : OwnNames db ctx) {w w' : World} {y : Process × World} {c : VfsCall}
    {cs : List Choice} {s' : Process} {r : VfsResult} (h : Paired db ctx (s, w) y)
    (hown : c.onJournal db ctx = false) (hc : c.isolated db ctx s w)
    (he : exec World.respond cs (c.code s) w = some ((s', r), w')) :
    Paired db ctx (s', w') y := by
  obtain ⟨hfollows, hblobs⟩ := follows_of_exec he
  have hother := fun d hd => h.placed.other hn hc.1 hown (d := d) hd
  have hfile : ∀ d, (db d).isIn ctx = true →
      s'.files (auxHandle d .journal) = s.files (auxHandle d .journal) :=
    fun d hd => hfollows.frame _ (hother d hd).2
  refine ⟨h.placed.step hc.1 hfollows, h.placed', ⟨fun d hd => ?_, fun d p hd hp => ?_, ?_⟩, ?_⟩
  · exact (hfile d hd).trans (h.journals.files d hd)
  · exact h.journals.plain d p hd ((hfile d hd).symm.trans hp)
  · rintro _ ⟨d, hd, rfl⟩
    exact (hfollows.cache _ (hother d hd).1).trans (h.journals.cache _ ⟨d, hd, rfl⟩)
  · rintro ⟨x, _⟩ ⟨rfl, d, hd, rfl⟩
    have hne : c.blob s ≠ some ⟨x, (db d).auxName .journal⟩ :=
      fun hb => (hother d hd).1 (name_of_blob hb)
    unfold SameFace
    rw [hblobs _ hne]
    exact h.blobs _ ⟨rfl, d, hd, rfl⟩

/-- The handle of an observed call. -/
theorem of_onJournal_file {c : VfsCall} {h : Nat} (hc : c.file = some h)
    (hown : c.onJournal db ctx = true) :
    ∃ d, (db d).isIn ctx = true ∧ h = auxHandle d .journal := by
  have hb : (h % 3 == 1 && (db (h / 3)).isIn ctx) = true := by
    cases c <;> simp only [VfsCall.file, Option.some.injEq, reduceCtorEq] at hc <;>
      simpa [VfsCall.onJournal, VfsCall.file, hc] using hown
  obtain ⟨hm, hd⟩ := Bool.and_eq_true_iff.mp hb
  refine ⟨h / 3, hd, ?_⟩
  have hm : h % 3 = 1 := by simpa using hm
  simp only [auxHandle]
  omega

/-- The name in an observed `xDelete` or `xAccess`, and the client it is for. -/
theorem of_onJournal_name (hp : Placed db s) {mf : Option (AzureOps × Nat)} {name : String}
    (hc : ∃ d k m, name = (db d).auxName k ∧ s.files (mainHandle d) = some m ∧
      mf = some (m.ops, m.opsCtx))
    (hown : (isJournalName name && mf.any fun m => m.2 == ctx) = true) :
    ∃ d, (db d).isIn ctx = true ∧ name = (db d).auxName .journal ∧
      mf = some (azureProductionOps, ctx) := by
  obtain ⟨d, k, m, rfl, hm, rfl⟩ := hc
  obtain ⟨hname, hctx⟩ := Bool.and_eq_true_iff.mp hown
  obtain ⟨e, x, hcl, hops, hf⟩ := hp.files _ m hm
  obtain rfl : e = d := by
    rcases hf with ⟨hh, -, -⟩ | ⟨k, hh, -, -⟩
    · exact (mainHandle_inj hh).symm
    · exact absurd hh (mainHandle_ne_auxHandle _ _ _)
  have hx : x = ctx := by
    have hmx : m.opsCtx = x := congrArg Prod.snd hops
    simpa [hmx] using hctx
  cases k with
  | wal =>
    rw [isJournalName_wal] at hname
    cases hname
  | journal =>
    refine ⟨e, by simp [Database.isIn, hcl, hx], rfl, ?_⟩
    rw [hops, hx]

/-- An observed journal that is open is where it belongs. -/
theorem Placed.journalBlob (h : Placed db s) (hd : (db d).isIn ctx = true)
    (hp : s.files (auxHandle d .journal) = some p) : JournalBlob db ctx p.blob := by
  obtain ⟨e, x, hcl, hops, ⟨hh, -, -⟩ | ⟨k, hh, hname, -⟩⟩ := h.files _ p hp
  · exact absurd hh.symm (mainHandle_ne_auxHandle _ _ _)
  · obtain ⟨rfl, rfl⟩ := auxHandle_inj hh
    have hx : some x = some ctx := hcl.symm.trans (by simpa [Database.isIn] using hd)
    exact ⟨(congrArg Prod.snd hops).trans (Option.some.inj hx), d, hd, hname⟩

/-- An observed call does the same in both runs. -/
theorem coupled_code {c : VfsCall} {w u : World} (h : SameJournals db ctx s t)
    (hps : Placed db s) (hpt : Placed db t) (hown : c.onJournal db ctx = true)
    (hc : c.isolated db ctx s w) (hc' : c.isolated db ctx t u) :
    SameCall db ctx (SameOutcome db ctx) (c.code s) (c.code t) := by
  have hroom := hc.2.2 hown
  have hroom' := hc'.2.2 hown
  have hlock : ∀ k, c.file = some k → (∃ e, k = mainHandle e) → False := by
    rintro k hk ⟨e, rfl⟩
    obtain ⟨d, -, hh⟩ := of_onJournal_file hk hown
    exact mainHandle_ne_auxHandle _ _ _ hh
  cases c with
  | «open» k name uri ft create =>
    obtain ⟨d, hd, rfl⟩ := of_onJournal_file (h := k) rfl hown
    obtain ⟨e, rfl, ⟨hh, -, -⟩ | ⟨a, hh, rfl, rfl⟩⟩ := hc.1
    · exact absurd hh.symm (mainHandle_ne_auxHandle _ _ _)
    · obtain ⟨rfl, rfl⟩ := auxHandle_inj hh
      exact coupled_open h hd _ create hroom hroom'
  | close k =>
    obtain ⟨d, hd, rfl⟩ := of_onJournal_file (h := k) rfl hown
    exact coupled_close h hd
  | read k n o =>
    obtain ⟨d, hd, rfl⟩ := of_onJournal_file (h := k) rfl hown
    exact coupled_read h hd n o
  | write k buf o =>
    obtain ⟨d, hd, rfl⟩ := of_onJournal_file (h := k) rfl hown
    exact coupled_write h hd buf o
  | truncate k n =>
    obtain ⟨d, hd, rfl⟩ := of_onJournal_file (h := k) rfl hown
    exact coupled_truncate h hd n
  | sync k =>
    obtain ⟨d, hd, rfl⟩ := of_onJournal_file (h := k) rfl hown
    refine coupled_sync h hd fun p hp => ⟨hps.journalBlob hd hp, hroom p hp, hroom' p ?_⟩
    rw [← h.files d hd]
    exact hp
  | lock k l => exact (hlock k rfl hc.2.1).elim
  | unlock k l => exact (hlock k rfl hc.2.1).elim
  | checkReservedLock k => exact (hlock k rfl hc.2.1).elim
  | prefetch k => exact (hlock k rfl hc.2.1).elim
  | delete mf name =>
    obtain ⟨d, hd, rfl, rfl⟩ := of_onJournal_name hps hc.1 hown
    exact coupled_delete h hps.ops hpt.ops hd
  | access mf name flags =>
    obtain ⟨d, hd, rfl, rfl⟩ := of_onJournal_name hps hc.1 hown
    exact coupled_access h hps.ops hpt.ops hd flags hroom hroom'

/-- The observed journals stay the same in both runs. -/
theorem unwinding_journals (hn : OwnNames db ctx) :
    Unwinding World.respond VfsCall.code (VfsCall.onJournal db ctx) (VfsCall.isolated db ctx)
      (Paired db ctx) where
  symm := Paired.symm
  other h hown hc he := h.other hn hown hc he
  own {s w t u o s' r w' t' q u'} h hown hc hc' he he' := by
    obtain ⟨⟨hr, hj⟩, hb⟩ := (coupled_code h.journals h.placed h.placed' hown hc hc').exec
      SameBlobs.respond o.choices h.blobs he he'
    refine ⟨hr, ?_, ?_, hj, hb⟩
    · exact h.placed.step hc.1 (follows_of_exec he).1
    · exact h.placed'.step hc'.1 (follows_of_exec he').1

/-- A process without a global client that has not opened anything. -/
def Process.uriOnly (v : VfsData) : Process :=
  { v := { v with ops := none, journalCache := [] }, files := fun _ => none }

/-- What a process sees of the journals of one container does not depend on what it does
elsewhere: two runs that make the same calls on these journals, under the same choices of
the environment, get the same results. -/
theorem journals_isolated (hn : OwnNames db ctx) {v : VfsData} {w : World}
    {os os' : List (Op VfsCall Choice)} {rs rs' : List VfsResult}
    (hsame : os.filter (fun o => o.call.onJournal db ctx) =
      os'.filter fun o => o.call.onJournal db ctx)
    (hm : Meets World.respond VfsCall.code (VfsCall.isolated db ctx) os (.uriOnly v) w)
    (hm' : Meets World.respond VfsCall.code (VfsCall.isolated db ctx) os' (.uriOnly v) w)
    (ho : observe World.respond VfsCall.code (VfsCall.onJournal db ctx) os (.uriOnly v) w = some rs)
    (ho' : observe World.respond VfsCall.code (VfsCall.onJournal db ctx) os' (.uriOnly v) w =
      some rs') : rs = rs' := by
  have hstart : Paired db ctx (.uriOnly v, w) (.uriOnly v, w) := {
    placed := ⟨rfl, fun _ _ hp => by cases hp⟩
    placed' := ⟨rfl, fun _ _ hp => by cases hp⟩
    journals := ⟨fun _ _ => rfl, fun _ _ _ hp => (by cases hp), fun _ _ => rfl⟩
    blobs := fun _ _ => rfl }
  exact (unwinding_journals hn).observe_eq hstart hsame hm hm' ho ho'

end Calls

/-! ## Two databases -/

/-- A database in container 1, and others in container 2. -/
def twoContainers (name : String) (h : name ≠ "") : Nat → Database
  | 0 => { name := "a", uri := { client := some 1 }, name_ne := by decide }
  | _ + 1 => { name := name, uri := { client := some 2 }, name_ne := h }

/-- The journal of the first database is there. -/
def hotWorld : World :=
  { World.new with
    azure := World.new.azure.create ⟨1, "a-journal"⟩ (SparseFile.empty.truncate 512) }

/-- Open the first database and look for its journal. -/
def quietRun : List (Op VfsCall Choice) :=
  [⟨.open 0 "a" { client := some 1 } .mainDb true, List.replicate 6 {}⟩,
   ⟨.access (some (azureProductionOps, 1)) "a-journal" .exists, [{}]⟩]

/-- The same, after the second database was opened and its journal looked for. -/
def busyRun (name journal : String) : List (Op VfsCall Choice) :=
  [⟨.open 0 "a" { client := some 1 } .mainDb true, List.replicate 6 {}⟩,
   ⟨.open 3 name { client := some 2 } .mainDb true, List.replicate 6 {}⟩,
   ⟨.access (some (azureProductionOps, 2)) journal .exists, [{}]⟩,
   ⟨.access (some (azureProductionOps, 1)) "a-journal" .exists, [{}]⟩]

section Two

variable {name : String} {h : name ≠ ""}

theorem meets_quietRun : Meets World.respond VfsCall.code
    (VfsCall.isolated (twoContainers name h) 1) quietRun (.uriOnly (.new 0)) hotWorld := by
  refine .cons ⟨⟨0, rfl, Or.inl ⟨rfl, rfl, rfl⟩⟩, trivial, fun hj => by cases hj⟩ rfl ?_
  exact .cons ⟨⟨0, .journal, _, rfl, rfl, rfl⟩, trivial, fun _ => Or.inr (by decide)⟩ rfl trivial

end Two

/-- Databases with equal names in two containers: the journal of the first is there, and the
process sees it; after it has looked for the journal of the second, it does not. -/
theorem equal_names_interfere : ∃ os os' : List (Op VfsCall Choice), ∃ rs rs',
    os.filter (fun o => o.call.onJournal (twoContainers "a" (by decide)) 1) =
      os'.filter (fun o => o.call.onJournal (twoContainers "a" (by decide)) 1) ∧
    Meets World.respond VfsCall.code (VfsCall.isolated (twoContainers "a" (by decide)) 1) os
      (.uriOnly (.new 0)) hotWorld ∧
    Meets World.respond VfsCall.code (VfsCall.isolated (twoContainers "a" (by decide)) 1) os'
      (.uriOnly (.new 0)) hotWorld ∧
    observe World.respond VfsCall.code (VfsCall.onJournal (twoContainers "a" (by decide)) 1) os
      (.uriOnly (.new 0)) hotWorld = some rs ∧
    observe World.respond VfsCall.code (VfsCall.onJournal (twoContainers "a" (by decide)) 1) os'
      (.uriOnly (.new 0)) hotWorld = some rs' ∧
    rs = [.accessed (.done true)] ∧ rs' = [.accessed (.done false)] ∧ rs ≠ rs' := by
  refine ⟨quietRun, busyRun "a" "a-journal", _, _, rfl, meets_quietRun, ?_, rfl, rfl, rfl, rfl, ?_⟩
  · refine .cons ⟨⟨0, rfl, Or.inl ⟨rfl, rfl, rfl⟩⟩, trivial, fun hj => by cases hj⟩ rfl ?_
    refine .cons ⟨⟨1, rfl, Or.inl ⟨rfl, rfl, rfl⟩⟩, trivial, fun hj => by cases hj⟩ rfl ?_
    refine .cons ⟨⟨1, .journal, _, rfl, rfl, rfl⟩, trivial, fun hj => by cases hj⟩ rfl ?_
    exact .cons ⟨⟨0, .journal, _, rfl, rfl, rfl⟩, trivial, fun _ => Or.inr (by decide)⟩ rfl trivial
  · intro hrs
    cases hrs

/-- With different names it sees the journal in both runs. -/
theorem journals_isolated_two :
    observe World.respond VfsCall.code (VfsCall.onJournal (twoContainers "b" (by decide)) 1)
      quietRun (.uriOnly (.new 0)) hotWorld =
    observe World.respond VfsCall.code (VfsCall.onJournal (twoContainers "b" (by decide)) 1)
      (busyRun "b" "b-journal") (.uriOnly (.new 0)) hotWorld := by
  have hn : OwnNames (twoContainers "b" (by decide)) 1 := by
    refine ⟨fun d e hd => ?_, fun d e hd he => ?_⟩
    · cases d with
      | succ d => cases hd
      | zero =>
        cases e with
        | zero => decide
        | succ e => exact show "b" ≠ "a" ++ "-journal" by decide
    · cases d with
      | succ d => cases hd
      | zero =>
        cases e with
        | zero => rfl
        | succ e => exact absurd he (show "b" ++ "-journal" ≠ "a" ++ "-journal" by decide)
  obtain ⟨rs, rs', ho, ho'⟩ : ∃ rs rs',
      observe World.respond VfsCall.code (VfsCall.onJournal (twoContainers "b" (by decide)) 1)
        quietRun (.uriOnly (.new 0)) hotWorld = some rs ∧
      observe World.respond VfsCall.code (VfsCall.onJournal (twoContainers "b" (by decide)) 1)
        (busyRun "b" "b-journal") (.uriOnly (.new 0)) hotWorld = some rs' :=
    ⟨_, _, rfl, rfl⟩
  have hm' : Meets World.respond VfsCall.code (VfsCall.isolated (twoContainers "b" (by decide)) 1)
      (busyRun "b" "b-journal") (.uriOnly (.new 0)) hotWorld := by
    refine .cons ⟨⟨0, rfl, Or.inl ⟨rfl, rfl, rfl⟩⟩, trivial, fun hj => by cases hj⟩ rfl ?_
    refine .cons ⟨⟨1, rfl, Or.inl ⟨rfl, rfl, rfl⟩⟩, trivial, fun hj => by cases hj⟩ rfl ?_
    refine .cons ⟨⟨1, .journal, _, rfl, rfl, rfl⟩, trivial, fun hj => by cases hj⟩ rfl ?_
    exact .cons ⟨⟨0, .journal, _, rfl, rfl, rfl⟩, trivial, fun _ => Or.inr (by decide)⟩ rfl trivial
  have hsame : quietRun.filter (fun o => o.call.onJournal (twoContainers "b" (by decide)) 1) =
      (busyRun "b" "b-journal").filter
        (fun o => o.call.onJournal (twoContainers "b" (by decide)) 1) := rfl
  rw [ho, ho', journals_isolated hn hsame meets_quietRun hm' ho ho']

end SqliteObjs
