import SqliteObjs.Data.Search
import SqliteObjs.Vfs.Io

/-!
# The journal-existence cache

Which journal blobs exist, as far as the process knows, and the entry points that
only have a name: `xDelete` and `xAccess`.
-/

set_option autoImplicit false

namespace SqliteObjs

open Data

/-- Find a journal cache entry by blob name. -/
def journalCacheFind (v : VfsData) (zName : String) : Option JournalCacheEntry :=
  v.journalCache.find? fun e => e.zBlobName == zName

/-- Find or create a journal cache entry; `false` if the cache is full or the name
is too long. -/
def journalCacheGetOrCreate (v : VfsData) (zName : String) : VfsData × Bool :=
  if (journalCacheFind v zName).isSome then (v, true)
  else if maxJournalCache ≤ v.journalCache.length then (v, false)
  else if 512 ≤ zName.utf8ByteSize then (v, false)
  else ({ v with journalCache := v.journalCache ++ [{ state := none, zBlobName := zName }] }, true)

/-- `jce->state = state` for the entry of a name. -/
def journalCacheSet (v : VfsData) (zName : String) (state : Bool) : VfsData :=
  { v with
    journalCache := v.journalCache.map fun e =>
      if e.zBlobName = zName then { e with state := some state } else e }

/-- Find or create the entry and set its state. -/
def journalCachePut (v : VfsData) (zName : String) (state : Bool) : VfsData :=
  let (v, found) := journalCacheGetOrCreate v zName
  if found then journalCacheSet v zName state else v

/-- What the cache says of a name. -/
def journalCacheState (v : VfsData) (zName : String) : Option Bool :=
  (journalCacheFind v zName).bind (·.state)

/-! ## What the cache says -/

section State

variable {v : VfsData} {m n : String}

/-- A new entry is unknown, as a missing one. -/
theorem journalCacheState_getOrCreate (v : VfsData) (m n : String) :
    journalCacheState (journalCacheGetOrCreate v n).1 m = journalCacheState v m := by
  unfold journalCacheGetOrCreate
  split
  · rfl
  split
  · rfl
  split
  · rfl
  unfold journalCacheState journalCacheFind
  rw [List.find?_append]
  cases v.journalCache.find? fun e => e.zBlobName == m with
  | some e => rfl
  | none =>
    simp only [Option.none_or, List.find?_cons, List.find?_nil]
    split <;> rfl

theorem journalCacheFind_set (v : VfsData) (m n : String) (state : Bool) :
    journalCacheFind (journalCacheSet v n state) m =
      (journalCacheFind v m).map fun e => if m = n then { e with state := some state } else e := by
  unfold journalCacheFind journalCacheSet
  dsimp only
  induction v.journalCache with
  | nil => rfl
  | cons e es ih =>
    rw [List.map_cons, List.find?_cons, List.find?_cons]
    by_cases hm : e.zBlobName = m
    · subst hm
      by_cases hn : e.zBlobName = n
      · simp [hn]
      · simp [hn]
    · have hm' : (if e.zBlobName = n then { e with state := some state } else e).zBlobName ≠ m := by
        split
        · exact hm
        · exact hm
      rw [beq_false_of_ne hm, beq_false_of_ne hm']
      exact ih

theorem journalCacheState_set_self (h : (journalCacheFind v n).isSome) (state : Bool) :
    journalCacheState (journalCacheSet v n state) n = some state := by
  unfold journalCacheState
  rw [journalCacheFind_set]
  obtain ⟨e, he⟩ := Option.isSome_iff_exists.mp h
  simp [he]

theorem journalCacheState_set_of_ne (h : m ≠ n) (state : Bool) :
    journalCacheState (journalCacheSet v n state) m = journalCacheState v m := by
  unfold journalCacheState
  rw [journalCacheFind_set]
  simp [h]

theorem journalCacheFind_getOrCreate (h : (journalCacheGetOrCreate v n).2 = true) :
    (journalCacheFind (journalCacheGetOrCreate v n).1 n).isSome := by
  unfold journalCacheGetOrCreate at h ⊢
  split at h
  · next hs => rwa [if_pos hs]
  split at h
  · exact Bool.noConfusion h
  split at h
  · exact Bool.noConfusion h
  · next hs h₁ h₂ =>
    rw [if_neg hs, if_neg h₁, if_neg h₂]
    unfold journalCacheFind
    rw [List.find?_append]
    simp

/-- After an update the name is in the new state, or still not in the cache. -/
theorem journalCacheState_put_self (v : VfsData) (n : String) (state : Bool) :
    journalCacheState (journalCachePut v n state) n = some state ∨
      journalCacheState (journalCachePut v n state) n = none := by
  unfold journalCachePut
  dsimp only
  split
  · next h => exact Or.inl (journalCacheState_set_self (journalCacheFind_getOrCreate h) state)
  · next h =>
    refine Or.inr ?_
    rw [journalCacheState_getOrCreate]
    unfold journalCacheGetOrCreate at h
    split at h
    · exact absurd rfl h
    · next hs =>
      rw [journalCacheState, Option.not_isSome_iff_eq_none.mp hs]
      rfl

theorem journalCacheState_put_of_ne (h : m ≠ n) (state : Bool) :
    journalCacheState (journalCachePut v n state) m = journalCacheState v m := by
  unfold journalCachePut
  dsimp only
  split
  · rw [journalCacheState_set_of_ne h, journalCacheState_getOrCreate]
  · rw [journalCacheState_getOrCreate]

end State

/-! ## Entry points with a name -/

/-- `xFullPathname`, on the bytes of a name: strip leading slashes, reject paths with `..`. The
buffer has room for `nOut` bytes, the terminating zero included. -/
def sqliteObjsFullPathname (zName : List UInt8) (nOut : Nat) : Rc × List UInt8 :=
  if zName = [] then (.ok, [])
  else if (Search.find ['.'.toUInt8, '.'.toUInt8] zName).isSome then (.cantopen, [])
  else
    let p := zName.dropWhile (· == '/'.toUInt8)
    (.ok, p.take (if nOut ≤ p.length then nOut - 1 else p.length))

/-- Relative paths are Azure blob names. -/
def sqliteObjsIsAzurePath (zPath : String) : Bool :=
  match zPath.toList with
  | [] => false
  | c :: _ => c != '/'

def isJournalName (zName : String) : Bool := "-journal".toList.isSuffixOf zName.toList

def isWalName (zName : String) : Bool := "-wal".toList.isSuffixOf zName.toList

/-- Resolve Azure storage operations for `xDelete` and `xAccess`: the global client,
or the client of the main database file (`sqlite3_database_file_object`) for the
name of a journal or WAL. -/
def resolveOps (v : VfsData) (mainFile : Option (AzureOps × Nat)) (zName : String) :
    Option (AzureOps × Nat) :=
  match v.ops with
  | some ops => some (ops, v.opsCtx)
  | none => if isJournalName zName || isWalName zName then mainFile else none

/-- The answer of a call that is delegated to the default VFS. -/
inductive Delegated (α : Type)
  | done (a : α)
  | defaultVfs

/-- `xDelete`. -/
def sqliteObjsDelete (v : VfsData) (mainFile : Option (AzureOps × Nat)) (zName : String) :
    Prog (VfsData × Delegated Rc) :=
  if !sqliteObjsIsAzurePath zName then return (v, .defaultVfs)
  else match resolveOps v mainFile zName with
  | none => return (v, .defaultVfs)
  | some (ops, ctx) =>
    if !ops.blobDelete then return (v, .defaultVfs)
    else do
      let x ← azBlobDelete { ctx := ctx, name := zName }
      if x.err = .notFound then return (journalCacheSet v zName false, .done .ok)
      else if x.err ≠ .ok then return (v, .done .ioerrDelete)
      else return (journalCacheSet v zName false, .done .ok)

/-- `SQLITE_ACCESS_*`. -/
inductive AccessFlag
  | exists | readwrite | read | other
  deriving DecidableEq, Repr

/-- `*pResOut` for an existence `found`. -/
def accessResult (flags : AccessFlag) (found : Bool) : Bool :=
  match flags with
  | .exists | .readwrite | .read => found
  | .other => false

/-- `xAccess`: its result code is always `SQLITE_OK`. -/
def sqliteObjsAccess (v : VfsData) (mainFile : Option (AzureOps × Nat)) (zName : String)
    (flags : AccessFlag) : Prog (VfsData × Delegated Bool) :=
  if !sqliteObjsIsAzurePath zName then return (v, .defaultVfs)
  else match resolveOps v mainFile zName with
  | none => return (v, .defaultVfs)
  | some (ops, ctx) =>
    if !ops.blobExists then return (v, .defaultVfs)
    else match journalCacheState v zName with
    | some cached => return (v, .done (accessResult flags cached))
    | none => do
      let (arc, found) ← azBlobExists { ctx := ctx, name := zName }
      if arc ≠ .ok then return (v, .done false)
      else
        let v := if isJournalName zName then journalCachePut v zName found else v
        return (v, .done (accessResult flags found))

end SqliteObjs
