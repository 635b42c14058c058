import SqliteObjs.Journal.Commit
import SqliteObjs.Journal.Durability
import SqliteObjs.MainDb.Equivalence

/-!
# Opening a database after a crash

A new process on any machine opens the database, takes `SHARED`, asks for a journal of that name
and loads it. What it reads and what it loads are the two things `recovered` is made of
(`reopen_recovers`): the pages come from the blob, whether the file is eager or lazy, and the
journal is the one that was uploaded.
-/

set_option autoImplicit false

namespace SqliteObjs

open Data CS CS.Program

/-- The first calls of SQLite on a database another process left behind. -/
def reopen (v : VfsData) (uri : UriParams) (name jrnlName : String) :
    Prog (Option (ObjsFile × Option ObjsFile)) := do
  let (v, r) ← sqliteObjsOpen v name uri .mainDb false
  match r with
  | .error _ => return none
  | .ok db =>
    let (db, rc) ← sqliteObjsLock db .shared
    if rc ≠ .ok then return none
    else
      let (v, found) ← sqliteObjsAccess v (some (db.ops, db.opsCtx)) jrnlName .exists
      match found with
      | .defaultVfs => return none
      | .done false => return some (db, none)
      | .done true =>
        let (_, r) ← sqliteObjsOpen v jrnlName uri .mainJournal false
        match r with
        | .error _ => return none
        | .ok jrnl => return some (db, some jrnl)

/-- The content after the playback of what was loaded. -/
def playedBack (playback : Bytes → Bytes → Bytes) (jrnl : Option ObjsFile) (c : Bytes) : Bytes :=
  match jrnl with
  | none => c
  | some jrnl => playback jrnl.content c

/-- A lock that is granted is held. -/
theorem returns_sqliteObjsLock_rank (p : ObjsFile) (l : LockLevel) :
    Returns (fun _ _ => True) (fun r => r.2 = .ok → l.rank ≤ r.1.eLock.rank)
    (sqliteObjsLock p l) := by
  have hfail : ∀ (q : ObjsFile) (rc : Rc), rc ≠ .ok → Returns (fun _ _ => True)
      (fun r => r.2 = .ok → l.rank ≤ r.1.eLock.rank) (.ret (q, rc) : Prog (ObjsFile × Rc)) :=
    fun q rc hrc hok => absurd hok hrc
  unfold sqliteObjsLock
  split
  · next hle => exact fun _ => hle
  split
  · refine returns_bind _ fun r => ?_
    obtain ⟨q, rv⟩ := r
    dsimp only
    split
    · next hrv => exact hfail q rv hrv
    · exact fun _ => Nat.le_refl _
  refine .ite (fun _ => Nat.le_refl _) (.ite (fun _ => Nat.le_refl _) (returns_bind _ fun r => ?_))
  obtain ⟨q, rv⟩ := r
  dsimp only
  split
  · next hrv => exact hfail q rv hrv
  · exact fun _ => Nat.le_refl _

/-- `xOpen` of a database does not touch the VFS data. -/
theorem returns_sqliteObjsOpen_data (v : VfsData) (name : String) (uri : UriParams)
    (create : Bool) :
    Returns (fun _ _ => True) (fun r => r.1 = v) (sqliteObjsOpen v name uri .mainDb create) := by
  unfold sqliteObjsOpen
  split
  · exact rfl
  refine returns_bind _ fun m => ?_
  split
  · exact rfl
  refine returns_bind _ fun sel => ?_
  split
  · exact rfl
  · exact returns_bind _ fun r => rfl

section Loads

variable {v : VfsData} {w : World} {ops : AzureOps} {ctx : Nat} {name : String} {uri : UriParams}
  {j : Blob}

/-- A journal that is there is loaded, unless it was remembered as missing. -/
theorem wp_openJournal_loads (hops : ops.Complete) (hst : journalCacheState v name ≠ some false)
    (hj : w.azure.blobs ⟨ctx, name⟩ = some j) :
    wp soundly (openJournal v (newFile ops ctx name uri .mainJournal))
      (fun r w' => w' = w ∧ ∀ p, r.2 = .ok p → p.content = j.content) w := by
  generalize hp : newFile ops ctx name uri .mainJournal = p₀
  have hops₀ : p₀.ops = ops := by rw [← hp]; rfl
  have hkind : p₀.eFileType = .mainJournal := by rw [← hp]; rfl
  have hbuf : p₀.aJrnlData = .empty := by rw [← hp]; rfl
  have hname : p₀.zBlobName = name := by rw [← hp]; rfl
  have hblob : w.azure.blobs p₀.blob = some j := by rw [← hp]; exact hj
  have hcont : p₀.content = .empty := by rw [← hp]; exact content_new (by decide)
  have hex : p₀.ops.blobExists = true := by rw [hops₀, hops]; rfl
  have hdown : p₀.ops.blockBlobDownload = true := by rw [hops₀, hops]; rfl
  have hok : ∀ c, Sound c → c.fault = none := fun c hc => hc.1
  unfold openJournal
  rw [wp_bind]
  unfold journalExists
  dsimp only
  rw [journalCacheState_getOrCreate, hname, if_neg (fun h => hst h.2), if_pos hex]
  refine wp_azBlobExists_bind hok (wp_alone_ret.mpr ?_)
  simp only [hblob, Option.isSome_some, hdown, Bool.and_self, if_true]
  refine wp_azBlockBlobDownload_bind hok hblob fun e => ?_
  simp only [true_and]
  split
  · rw [hbuf]
    refine wp_loadBuffer (fun _ => wp_alone_ret.mpr ⟨rfl, by simp⟩) fun buf hbuf' _ => ?_
    refine wp_alone_ret.mpr ⟨rfl, ?_⟩
    rintro p ⟨⟩
    simp only [ObjsFile.content, hkind]
    exact truncate_pwrite_body buf _
  · next h0 =>
    refine wp_alone_ret.mpr ⟨rfl, ?_⟩
    rintro p ⟨⟩
    rw [hcont]
    exact (SparseFile.eq_empty (by omega)).symm

/-- The same for `xOpen`. -/
theorem wp_sqliteObjsOpen_loads (hsel : selectedOps v uri = some (ops, ctx)) (hops : ops.Complete)
    (hst : journalCacheState v name ≠ some false) (hj : w.azure.blobs ⟨ctx, name⟩ = some j) :
    wp soundly (sqliteObjsOpen v name uri .mainJournal false)
      (fun r w' => w' = w ∧ ∀ p, r.2 = .ok p → p.content = j.content) w := by
  unfold sqliteObjsOpen
  split
  · exact wp_alone_ret.mpr ⟨rfl, by simp⟩
  refine wp_quiet_bind quiet_alone rfl fun m _ => ?_
  split
  · exact wp_alone_ret.mpr ⟨rfl, by simp⟩
  refine wp_selectOps_bind quiet_alone (fun _ => wp_alone_ret.mpr ⟨rfl, by simp⟩) ?_
  intro ops' ctx' hsel'
  obtain ⟨rfl, rfl⟩ := Prod.mk.inj (Option.some.inj (hsel.symm.trans hsel'))
  exact wp_openJournal_loads hops hst hj

/-- A fresh process asks the service for a journal. -/
theorem wp_sqliteObjsAccess_fresh {m : Option (AzureOps × Nat)}
    (hstate : journalCacheState v name = none) (hpath : sqliteObjsIsAzurePath name = true)
    (hres : resolveOps v m name = some (ops, ctx))
    (hops : ops.Complete) :
    wp soundly (sqliteObjsAccess v m name .exists) (fun r w' => w' = w ∧
      r.2 = .done (w.azure.blobs ⟨ctx, name⟩).isSome ∧ r.1.client = v.client ∧
      ((w.azure.blobs ⟨ctx, name⟩).isSome = true → journalCacheState r.1 name ≠ some false)) w := by
  have hex : ops.blobExists = true := by rw [hops]; rfl
  unfold sqliteObjsAccess
  rw [hpath, hres]
  dsimp only
  rw [hex, hstate]
  simp only [Bool.not_true, Bool.false_eq_true, if_false]
  refine wp_azBlobExists_bind (fun c hc => hc.1) ?_
  simp only [ne_eq, not_true_eq_false, if_false]
  refine wp_alone_ret.mpr ⟨rfl, rfl, ?_, fun hfound => ?_⟩
  · split
    · exact (onlyEntry_put v name _).client
    · rfl
  · split
    · rcases journalCacheState_put_self v name (w.azure.blobs ⟨ctx, name⟩).isSome with h | h
      · rw [h, hfound]
        decide
      · rw [h]
        decide
    · rw [hstate]
      decide

end Loads

section Main

variable {playback : Bytes → Bytes → Bytes} {v : VfsData} {uri : UriParams} {name jrnlName : String}
  {ops aops : AzureOps} {ctx : Nat} {w w' : World} {b : Blob} {db : ObjsFile}
  {jrnl : Option ObjsFile}

/-- Below a tebibyte no page size makes more pages than the bitmaps hold. -/
theorem pagesOf_le_of_size {n ps : Nat} (hn : n ≤ 512 * maxPages) (hps : LegalPageSize ps) :
    pagesOf n ps ≤ maxPages := by
  rw [pagesOf_le_iff hps.pos, Nat.mul_comm maxPages]
  exact Nat.le_trans hn (Nat.mul_le_mul_right _ hps.1)

/-- Selection of a client looks at nothing else. -/
theorem selectedOps_congr {v' : VfsData} (hv : v'.client = v.client) (uri : UriParams) :
    selectedOps v' uri = selectedOps v uri := by
  unfold selectedOps
  split
  · rfl
  · exact hv

/-- A fresh process that opens the database sees what the crash left: every read returns the bytes
of a content that becomes, with the journal it loaded, what is recovered. -/
theorem reopen_recovers (hreuse : uri.cacheReuse = false)
    (hsel : selectedOps v uri = some (ops, ctx)) (hops : ops.Complete)
    (hstate : journalCacheState v jrnlName = none)
    (hpath : sqliteObjsIsAzurePath jrnlName = true)
    (hres : resolveOps v (some (ops, ctx)) jrnlName = some (aops, ctx)) (haops : aops.Complete)
    (hb : w.azure.blobs ⟨ctx, name⟩ = some b) (hlt : b.etag < w.azure.nextETag)
    (hsmall : b.content.size ≤ 512 * maxPages)
    (hr : Runs (World.served Sound) (reopen v uri name jrnlName) w (some (db, jrnl)) w') :
    w'.azure = w.azure ∧ ∃ C,
      (∀ iAmt iOfst, 0 < iAmt → ReadsAs db w' iAmt iOfst (readOf C iAmt iOfst)) ∧
      recovered playback ⟨ctx, jrnlName⟩ ⟨ctx, name⟩ w.azure = playedBack playback jrnl C := by
  obtain ⟨a, d⟩ := w
  have hpages : ∀ {ps : Nat}, LegalPageSize ps →
      pagesOf b.content.size (headerPageSize b.content ps) ≤ maxPages :=
    fun hps => pagesOf_le_of_size hsmall (legalPageSize_header hps)
  unfold reopen at hr
  -- the database
  obtain ⟨⟨v₁, r⟩, w₁, hopen, hr₁⟩ := hr.of_bind
  obtain rfl : v₁ = v := (returns_sqliteObjsOpen_data v name uri false).of_runs
    (fun _ _ _ _ _ => trivial) hopen
  obtain ⟨ha₁, -, -, hsees⟩ := wp_alone_iff.mp (wp_open_sees hreuse hsel hops hb hlt
    (hpages legalPageSize_default)) _ _ hopen
  cases r with
  | error rc =>
    obtain ⟨h, -⟩ := runs_ret hr₁
    cases h
  | ok p =>
  obtain ⟨a₁, d₁⟩ := w₁
  obtain rfl : a₁ = a := ha₁
  obtain ⟨hsee, -⟩ := hsees p rfl
  -- the lock
  obtain ⟨⟨q, rc⟩, w₂, hlock, hr₂⟩ := hr₁.of_bind
  obtain ⟨hrc, hstep⟩ := wp_alone_iff.mp (hsee.wp_lock hb hlt (hpages hsee.page)) _ _ hlock
  have hheld := (returns_sqliteObjsLock_rank p .shared).of_runs (fun _ _ _ _ _ => trivial) hlock hrc
  dsimp only at hr₂ hrc hstep hheld
  rw [if_neg (fun h => h hrc)] at hr₂
  have hlocked : q.eLock ≠ .none := by
    intro h
    rw [h] at hheld
    exact absurd hheld (by decide)
  obtain ⟨a₂, d₂⟩ := w₂
  obtain rfl : a₂ = a₁ := hstep.azure
  have hsee₂ := hstep.sees
  -- the journal
  obtain ⟨⟨v₃, found⟩, w₃, haccess, hr₃⟩ := hr₂.of_bind
  have hclient₂ : (q.ops, q.opsCtx) = (ops, ctx) := by
    have hident := (within_sqliteObjsLock p .shared).of_runs hlock
    obtain ⟨ops', ctx', hsel', hp⟩ := ((within_sqliteObjsOpen name uri .mainDb false).of_runs
      hopen).2 p rfl
    obtain ⟨rfl, rfl⟩ := Prod.mk.inj (Option.some.inj (hsel.symm.trans hsel'))
    exact (congrArg Prod.fst hident).trans
      (Prod.ext (congrArg Handle.ops hp) (congrArg Handle.opsCtx hp))
  rw [hclient₂] at haccess
  obtain ⟨rfl, hfound, hclient, hknown⟩ := wp_alone_iff.mp
    (wp_sqliteObjsAccess_fresh hstate hpath hres haops) _ _ haccess
  dsimp only at hr₃ hfound hclient hknown
  rw [hfound] at hr₃
  have hreads : ∀ w : World, w = ⟨a₂, d₂⟩ → ∀ iAmt iOfst, 0 < iAmt →
      ReadsAs q w iAmt iOfst (readOf b.content iAmt iOfst) := by
    rintro w rfl iAmt iOfst hpos
    refine ⟨?_, fun r w' hr => ?_⟩
    · unfold sqliteObjsRead
      rw [hsee₂.kind]
      exact (noRelock_mainDbRead q iAmt iOfst).exists_runs _
    · exact (wp_alone_iff.mp (hsee₂.wp_read hlocked hb hpos iOfst) r w' hr).1
  have hcontent : a₂.contentOf ⟨ctx, name⟩ = b.content := contentOf_of_some hb
  cases hj : a₂.blobs ⟨ctx, jrnlName⟩ with
  | none =>
    rw [show (⟨a₂, d₂⟩ : World).azure.blobs ⟨ctx, jrnlName⟩ = none from hj] at hr₃
    obtain ⟨h, rfl⟩ := runs_ret hr₃
    obtain ⟨rfl, rfl⟩ := Prod.mk.inj (Option.some.inj h)
    refine ⟨rfl, b.content, hreads _ rfl, ?_⟩
    rw [recovered_none hj]
    exact hcontent
  | some j =>
    rw [show (⟨a₂, d₂⟩ : World).azure.blobs ⟨ctx, jrnlName⟩ = some j from hj] at hr₃ hknown
    obtain ⟨⟨v₄, r⟩, w₄, hload, hr₄⟩ := hr₃.of_bind
    obtain ⟨rfl, hloaded⟩ := wp_alone_iff.mp (wp_sqliteObjsOpen_loads
      ((selectedOps_congr hclient uri).trans hsel) hops (hknown rfl) hj) _ _ hload
    cases r with
    | error rc =>
      obtain ⟨h, -⟩ := runs_ret hr₄
      cases h
    | ok p₄ =>
      obtain ⟨h, rfl⟩ := runs_ret hr₄
      obtain ⟨rfl, rfl⟩ := Prod.mk.inj (Option.some.inj h)
      refine ⟨rfl, b.content, hreads _ rfl, ?_⟩
      rw [recovered_has ⟨j, hj, rfl⟩, hcontent]
      exact congrArg (fun c => playback c b.content) (hloaded p₄ rfl).symm

/-- A journal with the one page of that database. -/
def smallPageJournal : Bytes :=
  (((journalHeader 1 1).truncate 1032).pwrite 512
    (SparseFile.ofFn 4 fun i => [0, 0, 0, 1][i]?.getD 0)).pwrite 516 smallPageDb

/-- An account with a database of one sector and the journal of a transaction on it. -/
def crashedAccount : World :=
  { smallPageWorld with azure := smallPageWorld.azure.create ⟨0, "db-journal"⟩ smallPageJournal }

set_option maxRecDepth 8000 in
theorem reopen_recovers_journal : ∃ db jrnl w',
    Runs (World.served Sound) (reopen (.new 0) {} "db" "db-journal") crashedAccount
      (some (db, some jrnl)) w' ∧
    w'.azure = crashedAccount.azure ∧ ∃ C,
      (∀ iAmt iOfst, 0 < iAmt → ReadsAs db w' iAmt iOfst (readOf C iAmt iOfst)) ∧
      recovered pagerPlayback ⟨0, "db-journal"⟩ ⟨0, "db"⟩ crashedAccount.azure =
        playedBack pagerPlayback (some jrnl) C := by
  obtain ⟨db, jrnl, w', hr⟩ : ∃ db jrnl w',
      Runs (World.served Sound) (reopen (.new 0) {} "db" "db-journal") crashedAccount
        (some (db, some jrnl)) w' :=
    ⟨_, _, _, runs_sound 20 rfl⟩
  exact ⟨db, jrnl, w', hr, reopen_recovers rfl rfl complete_production rfl rfl rfl
    complete_production rfl (by decide) (by decide) hr⟩

end Main

end SqliteObjs
