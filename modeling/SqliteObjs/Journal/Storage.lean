import SqliteObjs.Journal.Existence
import SqliteObjs.Vfs.Handles

/-!
# Which storage a journal lives in

A process has databases, each with the URI parameters that come with every file of it.
`xOpen` takes the client the URI names and falls back to the global one. `xDelete` and
`xAccess` only have a name: they take the global client, and ask the main database file
when there is none. `journal_storage_iff` says when the two agree in every run: never
for a database whose URI names another storage than the registered client.
-/

set_option autoImplicit false

namespace SqliteObjs

open Data CS CS.Program

/-! ## Databases of a process -/

/-- A database, with the URI parameters of its files. -/
structure Database where
  name : String
  uri : UriParams
  name_ne : name ≠ ""

/-- The bytes of a name. -/
def nameBytes (name : String) : List UInt8 := name.toUTF8.data.toList

/-- A database under the name that `xFullPathname` made of what the user wrote: SQLite passes no
other name to `xOpen`, `xDelete` and `xAccess`. -/
structure FullDatabase extends Database where
  full : ∃ zName nOut, sqliteObjsFullPathname zName nOut = (.ok, nameBytes name)

/-- The files beside a database. -/
inductive Aux
  | journal | wal
  deriving DecidableEq

namespace Aux

def suffix : Aux → String
  | .journal => "-journal"
  | .wal => "-wal"

def fileType : Aux → FileType
  | .journal => .mainJournal
  | .wal => .wal

end Aux

/-- The name SQLite gives a file beside the database. -/
def Database.auxName (d : Database) (k : Aux) : String := d.name ++ k.suffix

/-- The handle of the main file of the `d`-th database. -/
def mainHandle (d : Nat) : Nat := 3 * d

/-- The handle of a file beside the `d`-th database. -/
def auxHandle (d : Nat) : Aux → Nat
  | .journal => 3 * d + 1
  | .wal => 3 * d + 2

/-- How SQLite calls the VFS for these databases: a file of a database is opened under
its own handle, with the database's parameters, and a name that goes to `xDelete` or
`xAccess` belongs to a database that is open. -/
def VfsCall.ofDatabases (db : Nat → Database) (c : VfsCall) (s : Process) : Prop :=
  match c with
  | .open h name uri ft _ => ∃ d, uri = (db d).uri ∧
      ((h = mainHandle d ∧ name = (db d).name ∧ ft = .mainDb) ∨
        ∃ k, h = auxHandle d k ∧ name = (db d).auxName k ∧ ft = k.fileType)
  | .delete mainFile name | .access mainFile name _ => ∃ d k m,
      name = (db d).auxName k ∧ s.files (mainHandle d) = some m ∧ mainFile = some (m.ops, m.opsCtx)
  | _ => True

/-- A process, and for each handle the client of the file that was last open under it. -/
structure Clients where
  process : Process
  opened : Nat → Option (AzureOps × Nat)

/-- The files that are open now, else what was recorded before. -/
def Clients.record (s : Process) (opened : Nat → Option (AzureOps × Nat)) : Clients where
  process := s
  opened h := ((s.files h).map fun p => (p.ops, p.opsCtx)).or (opened h)

/-- Any sequence of calls, under transient faults; between two calls anybody else may
have changed the world. -/
def storageSession (db : Nat → Database) : Session World Ans Clients VfsCall where
  code c s := do
    let (s', _) ← c.code s.process
    return .record s' s.opened
  may c s _ := c.ofDatabases db s.process
  serve _ _ := World.served Transient
  outside _ _ := True

/-- A process that has not opened anything. -/
def Clients.start (v : VfsData) : Clients where
  process := { v := v, files := fun _ => none }
  opened _ := none

/-- The client `xDelete` and `xAccess` use for a name; `none` leaves it to the default
VFS. -/
def usedOps (v : VfsData) (mainFile : Option (AzureOps × Nat)) (zName : String) :
    Option (AzureOps × Nat) :=
  if sqliteObjsIsAzurePath zName then resolveOps v mainFile zName else none

/-- For every file beside an open database: `xDelete` and `xAccess` use the client its
`xOpen` used, its `xSync` uses no other, and an `xDelete` that reports success leaves no
blob there. -/
def SameStorage (db : Nat → Database) (s : Clients) : Prop :=
  ∀ d k m sel, s.process.files (mainHandle d) = some m → s.opened (auxHandle d k) = some sel →
    usedOps s.process.v (some (m.ops, m.opsCtx)) ((db d).auxName k) = some sel ∧
    (∀ p, s.process.files (auxHandle d k) = some p → (p.ops, p.opsCtx) = sel) ∧
    ∀ w v' w', Runs (World.served Transient)
      (sqliteObjsDelete s.process.v (some (m.ops, m.opsCtx)) ((db d).auxName k)) w
      (v', .done .ok) w' → w'.azure.blobs ⟨sel.2, (db d).auxName k⟩ = none

/-- The database's URI selects the global client, or there is none. -/
def ClientAgrees (v : VfsData) (d : Database) : Prop :=
  ∀ sel, selectedOps v d.uri = some sel → v.client = none ∨ v.client = some sel

/-! ## Names and clients -/

section Names

variable {v v' : VfsData} {d : Database} {k : Aux}

theorem isAux_auxName (d : Database) (k : Aux) :
    (isJournalName (d.auxName k) || isWalName (d.auxName k)) = true := by
  unfold isJournalName isWalName Database.auxName
  cases k with
  | journal => simp [Aux.suffix]
  | wal => simp [Aux.suffix]

/-- A file beside a database is relative when the database is. -/
theorem isAzurePath_auxName (d : Database) (k : Aux) :
    sqliteObjsIsAzurePath (d.auxName k) = sqliteObjsIsAzurePath d.name := by
  unfold sqliteObjsIsAzurePath Database.auxName
  rw [String.toList_append]
  cases h : d.name.toList with
  | nil => exact absurd (String.toList_eq_nil_iff.mp h) d.name_ne
  | cons c cs => rfl

theorem nameBytes_cons (c : Char) (cs : List Char) :
    nameBytes (String.ofList (c :: cs)) =
      nameBytes (String.ofList [c]) ++ nameBytes (String.ofList cs) := by
  have h : String.ofList (c :: cs) = String.ofList [c] ++ String.ofList cs := by
    rw [← String.ofList_append]
    rfl
  rw [h]
  simp [nameBytes, String.toByteArray_append, ByteArray.data_append]

/-- `xFullPathname` leaves no leading slash. -/
theorem head_fullPathname {zName : List UInt8} {nOut : Nat} {rc : Rc} {zOut : List UInt8}
    (h : sqliteObjsFullPathname zName nOut = (rc, zOut)) : zOut.head? ≠ some '/'.toUInt8 := by
  unfold sqliteObjsFullPathname at h
  split at h
  · obtain ⟨-, rfl⟩ := Prod.mk.inj h
    simp
  split at h
  · obtain ⟨-, rfl⟩ := Prod.mk.inj h
    simp
  obtain ⟨-, rfl⟩ := Prod.mk.inj h
  intro hhead
  rw [List.head?_take, Option.ite_none_left_eq_some] at hhead
  have hstrip := List.head?_dropWhile_not (· == '/'.toUInt8) zName
  rw [hhead.2] at hstrip
  simp at hstrip

/-- So every database that SQLite opens lives in Azure. -/
theorem FullDatabase.isAzurePath (d : FullDatabase) : sqliteObjsIsAzurePath d.name = true := by
  obtain ⟨zName, nOut, hfull⟩ := d.full
  have hhead := head_fullPathname hfull
  unfold sqliteObjsIsAzurePath
  cases hl : d.name.toList with
  | nil => exact absurd (String.toList_eq_nil_iff.mp hl) d.name_ne
  | cons c cs =>
    refine bne_iff_ne.mpr fun hc => hhead ?_
    have hname : d.name = String.ofList (c :: cs) := by rw [← hl, String.ofList_toList]
    rw [hname, nameBytes_cons, hc]
    rfl

theorem selectedOps_of_client (h : v'.client = v.client) (uri : UriParams) :
    selectedOps v' uri = selectedOps v uri := by
  unfold selectedOps
  cases uri.client with
  | some ctx => rfl
  | none => exact h

theorem resolveOps_eq (v : VfsData) (m : Option (AzureOps × Nat)) (d : Database) (k : Aux) :
    resolveOps v m (d.auxName k) = v.client.or m := by
  unfold resolveOps VfsData.client
  cases v.ops with
  | some ops => rfl
  | none => simp [isAux_auxName d k]

theorem mainHandle_ne_auxHandle (d d' : Nat) (k : Aux) : mainHandle d ≠ auxHandle d' k := by
  cases k with
  | journal => simp only [mainHandle, auxHandle]; omega
  | wal => simp only [mainHandle, auxHandle]; omega

theorem mainHandle_inj {d d' : Nat} (h : mainHandle d = mainHandle d') : d = d' := by
  simp only [mainHandle] at h
  omega

theorem auxHandle_inj {d d' : Nat} {k k' : Aux} (h : auxHandle d k = auxHandle d' k') :
    d = d' ∧ k = k' := by
  cases k <;> cases k' <;> simp only [auxHandle] at h <;>
    first | (exfalso; omega) | exact ⟨by omega, rfl⟩

end Names

/-! ## Deleting -/

/-- A deletion that succeeds, or finds nothing, leaves no blob. -/
theorem wp_azBlobDelete_transient {α : Type} {w : World} {i : BlobId} {f : AzReply → Prog α}
    {Q : α → World → Prop}
    (h : ∀ x w', (x.err = .ok ∨ x.err = .notFound → w'.azure.blobs i = none) →
      wp (.alone (World.served Transient)) (f x) Q w') :
    wp (.alone (World.served Transient)) (azBlobDelete i >>= f) Q w := by
  unfold azBlobDelete
  refine wp_execute_bind (I := fun _ => True) stable_alone trivial fun w x w' _ hs => ?_
  refine ⟨trivial, fun _ => trivial, h x w' fun hx => ?_⟩
  rcases served_transient hs with ⟨he, ha⟩ | ⟨hne, hnf, -⟩
  · rw [ha]
    simp only [Azure.respond] at he ⊢
    cases hb : w.azure.blobs i with
    | none => exact hb
    | some b =>
      rw [hb] at he
      dsimp only at he ⊢
      split
      · exact Azure.set_blobs_self _ _ _
      · next hno =>
        rw [if_neg hno] at he
        rcases hx with hx | hx
        · rw [hx] at he
          cases he
        · rw [hx] at he
          cases he
  · rcases hx with hx | hx
    · exact absurd hx hne
    · exact absurd hx hnf

theorem deleted_of_ok {v v' : VfsData} {m : Option (AzureOps × Nat)} {name : String}
    {sel : AzureOps × Nat} (hsel : resolveOps v m name = some sel) {w w' : World}
    (h : Runs (World.served Transient) (sqliteObjsDelete v m name) w (v', .done .ok) w') :
    w'.azure.blobs ⟨sel.2, name⟩ = none := by
  have hwp : wp (.alone (World.served Transient)) (sqliteObjsDelete v m name)
      (fun r w' => r.2 = .done .ok → w'.azure.blobs ⟨sel.2, name⟩ = none) w := by
    unfold sqliteObjsDelete
    rw [hsel]
    split
    · exact wp_alone_ret.mpr fun h => by cases h
    dsimp only
    split
    · exact wp_alone_ret.mpr fun h => by cases h
    refine wp_azBlobDelete_transient fun x w' hx => ?_
    split
    · next he => exact wp_alone_ret.mpr fun _ => hx (Or.inr he)
    split
    · exact wp_alone_ret.mpr fun h => by cases h
    · next he => exact wp_alone_ret.mpr fun _ => hx (Or.inl (by simpa using he))
  exact wp_alone_iff.mp hwp _ _ h rfl

/-! ## Every run -/

/-- The global client is the registered one, and every file of a database has the client
its URI selects. -/
structure StorageInv (db : Nat → Database) (v : VfsData) (s : Clients) : Prop where
  client : s.process.v.client = v.client
  main : ∀ d p, s.process.files (mainHandle d) = some p →
    selectedOps v (db d).uri = some (p.ops, p.opsCtx)
  aux : ∀ d k p, s.process.files (auxHandle d k) = some p →
    selectedOps v (db d).uri = some (p.ops, p.opsCtx)
  opened : ∀ d k sel, s.opened (auxHandle d k) = some sel →
    selectedOps v (db d).uri = some sel
  open_eq : ∀ h p, s.process.files h = some p → s.opened h = some (p.ops, p.opsCtx)

section Runs

variable {db : Nat → Database} {v : VfsData} {s : Clients}

theorem ObjsFile.client_of_ident {p p' : ObjsFile} (h : p'.ident = p.ident) :
    (p'.ops, p'.opsCtx) = (p.ops, p.opsCtx) := congrArg Prod.fst h

theorem storageInv_start (db : Nat → Database) (v : VfsData) : StorageInv db v (.start v) where
  client := rfl
  main _ _ h := by cases h
  aux _ _ _ h := by cases h
  opened _ _ _ h := by cases h
  open_eq _ _ h := by cases h

/-- A call keeps the clients of the files. -/
theorem StorageInv.step {c : VfsCall} {s' : Process} (h : StorageInv db v s)
    (hc : c.ofDatabases db s.process) (hs : Follows c s.process s') :
    StorageInv db v (.record s' s.opened) := by
  -- a file opened by the call has the client of its database's URI
  have hopen : ∀ d hd p,
      (∀ name uri ft create, c = .open hd name uri ft create → uri = (db d).uri) →
      (∀ p, s.process.files hd = some p → selectedOps v (db d).uri = some (p.ops, p.opsCtx)) →
      s'.files hd = some p → selectedOps v (db d).uri = some (p.ops, p.opsCtx) := by
    intro d hd p huri hold hp
    rcases hs.files hd p hp with ⟨p₀, hp₀, hid⟩ | ⟨name, uri, ft, create, sel, rfl, hsel, hid⟩
    · rw [ObjsFile.client_of_ident hid]
      exact hold p₀ hp₀
    · rw [← huri name uri ft create rfl, ← selectedOps_of_client h.client, hsel]
      exact congrArg some (congrArg Prod.fst hid).symm
  have hmain : ∀ d p, s'.files (mainHandle d) = some p →
      selectedOps v (db d).uri = some (p.ops, p.opsCtx) := by
    intro d p hp
    refine hopen d _ p ?_ (h.main d) hp
    rintro name uri ft create rfl
    obtain ⟨d', huri, ⟨hd, -, -⟩ | ⟨k, hd, -, -⟩⟩ := hc
    · rw [mainHandle_inj hd]
      exact huri
    · exact absurd hd (mainHandle_ne_auxHandle d d' k)
  have haux : ∀ d k p, s'.files (auxHandle d k) = some p →
      selectedOps v (db d).uri = some (p.ops, p.opsCtx) := by
    intro d k p hp
    refine hopen d _ p ?_ (h.aux d k) hp
    rintro name uri ft create rfl
    obtain ⟨d', huri, ⟨hd, -, -⟩ | ⟨k', hd, -, -⟩⟩ := hc
    · exact absurd hd.symm (mainHandle_ne_auxHandle d' d k)
    · rw [(auxHandle_inj hd).1]
      exact huri
  refine ⟨hs.client.trans h.client, hmain, haux, ?_, ?_⟩
  · intro d k sel ho
    cases hp : s'.files (auxHandle d k) with
    | some p =>
      simp only [Clients.record, hp, Option.map_some, Option.some_or, Option.some.injEq] at ho
      rw [← ho]
      exact haux d k p hp
    | none =>
      simp only [Clients.record, hp, Option.map_none, Option.none_or] at ho
      exact h.opened d k sel ho
  · intro hd p hp
    have hp : s'.files hd = some p := hp
    simp [Clients.record, hp]

theorem storage_inv {w₀ w : World} (h : (storageSession db).Reach (.start v) w₀ s w) :
    StorageInv db v s := by
  induction h with
  | refl => exact storageInv_start db v
  | outside _ _ ih => exact ih
  | @call s s' w w' c _ hm hr _ ih =>
    have hw : Within (fun _ => True) (fun s' => StorageInv db v s')
        ((storageSession db).code c s) := by
      refine ((within_code c s.process).mono (fun _ _ => trivial) fun _ hr => hr).bind
        fun (s', _) hs => ?_
      exact ih.step hm hs
    exact hw.of_runs hr

/-- With the same client on both sides, everything addresses one storage. -/
theorem StorageInv.sameStorage (h : StorageInv db v s)
    (hpath : ∀ d, sqliteObjsIsAzurePath (db d).name = true) (ha : ∀ d, ClientAgrees v (db d)) :
    SameStorage db s := by
  intro d k m sel hm ho
  have hsel := h.opened d k sel ho
  have hcl := ha d sel hsel
  have hmsel : (m.ops, m.opsCtx) = sel := by
    have := h.main d m hm
    rw [hsel, Option.some.injEq] at this
    exact this.symm
  have hres : resolveOps s.process.v (some (m.ops, m.opsCtx)) ((db d).auxName k) = some sel := by
    rw [resolveOps_eq, h.client, hmsel]
    rcases hcl with hcl | hcl
    · rw [hcl]
      rfl
    · rw [hcl]
      rfl
  refine ⟨?_, fun p hp => ?_, fun w v' w' hr => deleted_of_ok hres hr⟩
  · rw [usedOps, isAzurePath_auxName, if_pos (hpath d)]
    exact hres
  · have := h.open_eq _ p hp
    rw [ho, Option.some.injEq] at this
    exact this.symm

end Runs

/-! ## When the clients differ -/

section Differ

variable {v : VfsData} {uri : UriParams} {ops : AzureOps} {ctx : Nat} {name : String}

theorem runs_new {α : Type} {m : Prog α} {a : α} {w' : World} (n : Nat)
    (h : exec World.respond (List.replicate n {}) m World.new = some (a, w')) :
    Runs (World.served Transient) m World.new a w' := by
  refine Program.runs_of_exec _ (fun c hc => ?_) h
  rw [List.eq_of_mem_replicate hc]
  exact transient_default

/-- In an empty account every database can be created. -/
theorem exists_open_mainDb (hsel : selectedOps v uri = some (ops, ctx)) (hname : name ≠ "") :
    ∃ p w', Runs (World.served Transient) (sqliteObjsOpen v name uri .mainDb true) World.new
      (v, .ok p) w' := by
  have hrun : ∃ p w', exec World.respond (List.replicate 8 {})
      (sqliteObjsOpen v name uri .mainDb true) World.new = some ((v, .ok p), w') := by
    unfold sqliteObjsOpen selectOps
    rw [if_neg hname]
    obtain ⟨client, account, container, cacheDir, reuse, prefetch⟩ := uri
    obtain ⟨ops', ctx', par, chunk, cache⟩ := v
    cases client with
    | some c => cases reuse <;> exact ⟨_, _, rfl⟩
    | none =>
      cases ops' with
      | none => cases hsel
      | some ops' =>
        obtain ⟨create, _, _, _, _, _, _, _, ex, _, _, _, _, _, _, _⟩ := ops'
        cases reuse <;> cases create <;> cases ex <;> exact ⟨_, _, rfl⟩
  obtain ⟨p, w', h⟩ := hrun
  exact ⟨p, w', runs_new 8 h⟩

/-- In an empty account every journal can be opened. -/
theorem exists_open_journal (hsel : selectedOps v uri = some (ops, ctx)) (hname : name ≠ "") :
    ∃ v' p w', Runs (World.served Transient) (sqliteObjsOpen v name uri .mainJournal true)
      World.new (v', .ok p) w' := by
  have hopen : ∀ (ops : AzureOps) (ctx : Nat), ∃ v' p w',
      exec World.respond [{}] (openJournal v (newFile ops ctx name uri .mainJournal))
        World.new = some ((v', .ok p), w') := by
    intro ops ctx
    unfold openJournal journalExists
    generalize journalCacheGetOrCreate v _ = jce
    dsimp only
    split
    · exact ⟨_, _, _, rfl⟩
    obtain ⟨_, _, _, _, _, _, _, _, ex, _, _, _, _, _, _, _⟩ := ops
    cases ex with
    | false => exact ⟨_, _, _, rfl⟩
    | true => exact ⟨_, _, _, rfl⟩
  have hrun : ∃ n v' p w', exec World.respond (List.replicate n {})
      (sqliteObjsOpen v name uri .mainJournal true) World.new = some ((v', .ok p), w') := by
    unfold sqliteObjsOpen selectOps
    unfold selectedOps at hsel
    rw [if_neg hname]
    cases hcl : uri.client with
    | some c => exact ⟨3, hopen azureProductionOps c⟩
    | none =>
      cases hops : v.ops with
      | none => simp [hcl, hops] at hsel
      | some ops' => exact ⟨2, hopen ops' v.opsCtx⟩
  obtain ⟨n, v', p, w', h⟩ := hrun
  exact ⟨v', p, w', runs_new n h⟩

/-- A database and its journal can both be open. -/
theorem exists_reach_open (db : Nat → Database) (d : Nat)
    (hsel : selectedOps v (db d).uri = some (ops, ctx)) :
    ∃ s w m p, (storageSession db).Reach (.start v) World.new s w ∧
      s.process.files (mainHandle d) = some m ∧ s.opened (auxHandle d .journal) = some p := by
  obtain ⟨m, w₁, hm⟩ := exists_open_mainDb hsel (db d).name_ne
  have hjname : (db d).auxName .journal ≠ "" := by
    intro h
    have := congrArg String.toList h
    simp [Database.auxName, Aux.suffix] at this
  obtain ⟨v', p, w₂, hp⟩ := exists_open_journal hsel hjname
  let s₁ : Clients :=
    .record ((Clients.start v).process.setFile (mainHandle d) (some m)) fun _ => none
  have h₁ : (storageSession db).Reach (.start v) World.new s₁ w₁ := by
    refine .call (.open (mainHandle d) (db d).name (db d).uri .mainDb true) .refl
      ⟨d, rfl, Or.inl ⟨rfl, rfl, rfl⟩⟩ ?_ trivial
    exact .bind (hm.bind (.ret _ _)) (.ret _ _)
  -- the account is empty again when the journal is opened
  have h₁' : (storageSession db).Reach (.start v) World.new s₁ World.new := .outside h₁ trivial
  refine ⟨.record ({ s₁.process with v := v' }.setFile (auxHandle d .journal) (some p)) s₁.opened,
    w₂, m, (p.ops, p.opsCtx), ?_, ?_, ?_⟩
  · refine .call (.open (auxHandle d .journal) ((db d).auxName .journal) (db d).uri
      .mainJournal true)
      h₁' ⟨d, rfl, Or.inr ⟨.journal, rfl, rfl, rfl⟩⟩ ?_ trivial
    exact .bind (hp.bind (.ret _ _)) (.ret _ _)
  · simp [Clients.record, Process.setFile, mainHandle_ne_auxHandle, s₁]
  · simp [Clients.record, Process.setFile]

/-- If everything addresses one storage in every run, the clients agree. -/
theorem clientAgrees_of_sameStorage {db : Nat → Database}
    (h : ∀ w₀ s w, (storageSession db).Reach (.start v) w₀ s w → SameStorage db s) (d : Nat) :
    ClientAgrees v (db d) := by
  intro sel hsel
  obtain ⟨s, w, m, sel', hr, hm, ho⟩ := exists_reach_open db d hsel
  have hinv := storage_inv hr
  obtain ⟨hused, -, -⟩ := h _ s w hr d .journal m sel' hm ho
  have hsel' : sel' = sel := by
    have := hinv.opened d .journal sel' ho
    rw [hsel, Option.some.injEq] at this
    exact this.symm
  subst hsel'
  rw [usedOps, isAzurePath_auxName] at hused
  split at hused
  · rw [resolveOps_eq, hinv.client] at hused
    cases hc : v.client with
    | none => exact Or.inl rfl
    | some c =>
      rw [hc, Option.some_or] at hused
      exact Or.inr hused
  · cases hused

end Differ

/-- In every run `xDelete` and `xAccess` address the storage in which `xOpen` and `xSync`
put the journals and WALs, and a reported deletion is one, if and only if each database's
URI selects the registered client, or none is registered. -/
theorem journal_storage_iff (db : Nat → FullDatabase) (v : VfsData) :
    (∀ w₀ s w, (storageSession fun d => (db d).toDatabase).Reach (.start v) w₀ s w →
      SameStorage (fun d => (db d).toDatabase) s) ↔ ∀ d, ClientAgrees v (db d).toDatabase :=
  ⟨clientAgrees_of_sameStorage, fun h _ _ _ hr =>
    (storage_inv hr).sameStorage (fun d => (db d).isAzurePath) h⟩

/-- A database in container 1 of a process that registered a client for container 0. -/
def uriDatabase : FullDatabase where
  name := "db"
  uri := { client := some 1 }
  name_ne := by decide
  full := ⟨nameBytes "/db", 513, by decide⟩

/-- The journals of such a database are looked for and deleted in the wrong container. -/
theorem uri_journal_elsewhere :
    ¬ ∀ w₀ s w, (storageSession fun _ => uriDatabase.toDatabase).Reach (.start (.new 0)) w₀ s w →
      SameStorage (fun _ => uriDatabase.toDatabase) s := by
  intro h
  have hagrees := clientAgrees_of_sameStorage h 0
  rcases hagrees (azureProductionOps, 1) rfl with hc | hc
  · cases hc
  · simp [VfsData.client, VfsData.new] at hc

end SqliteObjs
