import SqliteObjs.Vfs.Handles

/-!
# The lock and its lease

A database file holds a lease exactly while its lock is `RESERVED` or higher, whatever
the service answers. The log of the requests tells how often a lease was acquired and
how often one was given back: `lease_acquire` succeeded as often as `lease_release` was
called, and once more while a lease is recorded.

A call of `lease_release` repeats its request while it fails for a transient reason, so
the log shows one call as up to `azureMaxRetries + 1` requests; `releaseCalls` counts
the calls.
-/

set_option autoImplicit false

namespace SqliteObjs

open Data CS CS.Program

/-! ## What the log tells -/

/-- The calls of `lease_acquire` that succeeded: a call ends with its first success. -/
def leasesAcquired : Log → Nat
  | [] => 0
  | ⟨.azure (.leaseAcquire _ _), x⟩ :: log =>
    leasesAcquired log + if AzReply.err x = .ok then 1 else 0
  | _ :: log => leasesAcquired log

/-- The calls of `lease_release`, and how many requests the last of them may still send. -/
def releaseCalls : Log → Nat × Nat
  | [] => (0, 0)
  | ⟨.azure (.leaseRelease _ _), x⟩ :: log =>
    let (calls, left) := releaseCalls log
    let (calls, left) := if left = 0 then (calls + 1, azureMaxRetries + 1) else (calls, left)
    (calls, if azureIsRetryable (AzReply.err x) then left - 1 else 0)
  | _ :: log => releaseCalls log

/-- The leases acquired, the releases called, and that no call is under way. -/
def Handed (acquired released : Nat) (log : Log) : Prop :=
  leasesAcquired log = acquired ∧ releaseCalls log = (released, 0)

/-- The answers of the world under any faults, logged. -/
abbrev anyFault : (r : Req) → Logged World Ans → Ans r → Logged World Ans → Prop :=
  World.logged fun _ => True

section Log

variable {b : BlobId} {a n : Nat} {log : Log}

/-- A request that is no handover does not count. -/
theorem Handed.other {r : Req} {x : Ans r} (hr : Touches b r) (h : Handed a n log) :
    Handed a n (⟨r, x⟩ :: log) := by
  cases r with
  | sys r => exact h
  | azure r =>
    obtain ⟨-, hr⟩ := hr
    cases r <;> first | exact h | cases hr

theorem handed_within {α : Type} {m : Prog α} {Q : α → Prop} {R : α → Logged World Ans → Prop}
    {w : Logged World Ans} (hm : Within (Touches b) Q m) (hw : Handed a n w.log)
    (hR : ∀ x w', Q x → Handed a n w'.log → R x w') : wp (.alone anyFault) m R w := by
  refine Logged.wp_of_within (I := fun w => Handed a n w.log) hm ?_ hw hR
  intro r w x w' hr hs hw
  rw [hs.2]
  exact hw.other hr

theorem handed_sys_bind {α : Type} {r : SysReq} {f : SysReply → Prog α}
    {Q : α → Logged World Ans → Prop} {w : Logged World Ans} (hw : Handed a n w.log)
    (h : ∀ x w', Handed a n w'.log → wp (.alone anyFault) (f x) Q w') :
    wp (.alone anyFault) (sys r >>= f) Q w := by
  rw [wp_bind]
  exact handed_within (b := ⟨0, ""⟩) (m := sys r) (Q := fun _ => True)
    ⟨trivial, fun _ => trivial⟩ hw
    fun x w' _ hw' => h x w' hw'

/-! ### One call -/

/-- The attempts of an acquisition: only a success counts. -/
theorem handed_acquire {α : Type} {d : Nat} {f : AzReply → Prog α}
    {Q : α → Logged World Ans → Prop} {w : Logged World Ans} (hw : Handed a n w.log)
    (h : ∀ (x : AzReply) w', Handed (a + if x.err = .ok then 1 else 0) n w'.log →
      wp (.alone anyFault) (f x) Q w') :
    wp (.alone anyFault) (azLeaseAcquire b d >>= f) Q w := by
  rw [wp_bind]
  unfold azLeaseAcquire
  split
  · exact wp_alone_ret.mpr (h _ w hw)
  refine wp_execute (I := fun w => Handed a n w.log) stable_alone (fun _ => stable_alone) hw ?_
  intro w x w' hw hs
  have hlog : Handed (a + if x.err = .ok then 1 else 0) n w'.log := by
    rw [hs.2]
    refine ⟨?_, hw.2⟩
    rw [leasesAcquired, hw.1]
  refine ⟨trivial, fun hretry => ?_, h x w' hlog⟩
  have hne : x.err ≠ .ok := by
    intro he
    rw [he] at hretry
    cases hretry
  rwa [if_neg hne] at hlog

/-- The attempts that are left of a release end it. -/
theorem wp_release_rest {id : LeaseId} : ∀ (k : Nat) {w : Logged World Ans},
    leasesAcquired w.log = a → releaseCalls w.log = (n, k + 1) →
    wp (.alone anyFault) (executeWithRetry (.leaseRelease b id) k)
      (fun _ w' => Handed a n w'.log) w := by
  intro k
  induction k with
  | zero =>
    intro w ha hn
    unfold executeWithRetry
    refine wp_azure_bind (f := .ret) (P := fun w' => w' = w) rfl stable_alone ?_
    rintro _ x w' rfl hs
    refine ⟨trivial, wp_alone_ret.mpr ?_⟩
    rw [hs.2]
    refine ⟨ha, ?_⟩
    simp [releaseCalls, hn]
  | succ k ih =>
    intro w ha hn
    unfold executeWithRetry
    refine wp_azure_bind (P := fun w' => w' = w) rfl stable_alone ?_
    rintro _ x w' rfl hs
    refine ⟨trivial, ?_⟩
    have ha' : leasesAcquired w'.log = a := by
      rw [hs.2]
      exact ha
    have hcalls : releaseCalls w'.log = (n, if azureIsRetryable x.err then k + 1 else 0) := by
      rw [hs.2]
      simp [releaseCalls, hn]
    split
    · next he =>
      refine wp_alone_ret.mpr ⟨ha', ?_⟩
      rw [hcalls, he]
      rfl
    split
    · next hno =>
      refine wp_alone_ret.mpr ⟨ha', ?_⟩
      rw [hcalls, if_neg (by simpa using hno)]
    · next hno =>
      exact ih ha' (by rw [hcalls, if_pos (by simpa using hno)])

/-- One call of `lease_release` counts once, however often its request was sent. -/
theorem handed_release {α : Type} {id : LeaseId} {f : AzReply → Prog α}
    {Q : α → Logged World Ans → Prop} {w : Logged World Ans} (hw : Handed a n w.log)
    (h : ∀ x w', Handed a (n + 1) w'.log → wp (.alone anyFault) (f x) Q w') :
    wp (.alone anyFault) (azLeaseRelease b id >>= f) Q w := by
  rw [wp_bind]
  refine wp_mono (Q := fun _ w' => Handed a (n + 1) w'.log) (fun x w' hw' => h x w' hw') ?_
  unfold azLeaseRelease execute azureMaxRetries executeWithRetry
  refine wp_azure_bind (P := fun w' => w' = w) rfl stable_alone ?_
  rintro _ x w' rfl hs
  refine ⟨trivial, ?_⟩
  have ha' : leasesAcquired w'.log = a := by
    rw [hs.2]
    exact hw.1
  have hcalls : releaseCalls w'.log = (n + 1, if azureIsRetryable x.err then 5 else 0) := by
    rw [hs.2]
    simp [releaseCalls, hw.2, azureMaxRetries]
  split
  · next he =>
    refine wp_alone_ret.mpr ⟨ha', ?_⟩
    rw [hcalls, he]
    rfl
  split
  · next hno =>
    refine wp_alone_ret.mpr ⟨ha', ?_⟩
    rw [hcalls, if_neg (by simpa using hno)]
  · next hno =>
    exact wp_release_rest 4 ha' (by rw [hcalls, if_pos (by simpa using hno)])

end Log

/-! ## The calls on a database file -/

/-- The calls that may follow each other on a database file. -/
inductive LeaseCall
  | open (v : VfsData) (name : String) (uri : UriParams) (create : Bool)
  | lock (eLock : LockLevel)
  | unlock (eLock : LockLevel)
  | read (iAmt iOfst : Nat)
  | write (buf : Bytes) (iOfst : Nat)
  | sync (v : VfsData)
  | truncate (size : Nat)
  | close (v : VfsData)

namespace LeaseCall

/-- A call on the file, if it is open. -/
def onOpen (s : Option ObjsFile) (f : ObjsFile → Prog (Option ObjsFile)) :
    Prog (Option ObjsFile) :=
  match s with
  | none => return none
  | some p => f p

def code (c : LeaseCall) (s : Option ObjsFile) : Prog (Option ObjsFile) :=
  match c with
  | .open v name uri create => do
    let (_, r) ← sqliteObjsOpen v name uri .mainDb create
    return r.toOption
  | .lock l => onOpen s fun p => return some (← sqliteObjsLock p l).1
  | .unlock l => onOpen s fun p => return some (← sqliteObjsUnlock p l).1
  | .read n o => onOpen s fun p => return some (← sqliteObjsRead p n o).1
  | .write buf o => onOpen s fun p => return some (← sqliteObjsWrite p buf o).1
  | .sync v => onOpen s fun p => return some (← sqliteObjsSync v p).2.1
  | .truncate n => onOpen s fun p => return some (← sqliteObjsTruncate p n).1
  | .close v => onOpen s fun p => do
    let _ ← sqliteObjsClose v p
    return none

/-- A file is opened once, with a client that can lease; `xUnlock` goes to `SHARED` or
`NONE`. -/
def may (c : LeaseCall) (s : Option ObjsFile) : Prop :=
  match c with
  | .open v _ uri _ => s = none ∧
      ∀ ops ctx, selectedOps v uri = some (ops, ctx) → ops.leaseAcquire ∧ ops.leaseRelease
  | .unlock l => l = .shared ∨ l = .none
  | _ => True

end LeaseCall

/-- Any sequence of these calls, with any faults; between two calls the world may change
in any way. -/
def leaseSession : Session (Logged World Ans) Ans (Option ObjsFile) LeaseCall where
  code := LeaseCall.code
  may c s _ := c.may s
  serve _ _ := anyFault
  outside w w' := w'.log = w.log

/-! ## The invariant -/

/-- The file's client can lease, and its lease follows its lock. -/
structure LeaseFollowsLock (p : ObjsFile) : Prop where
  acquire : p.ops.leaseAcquire = true
  release : p.ops.leaseRelease = true
  iff : p.leaseId.isSome ↔ LockLevel.reserved.rank ≤ p.eLock.rank

/-- 1 while a lease is recorded. -/
def leaseHeld (s : Option ObjsFile) : Nat := if (s.bind (·.leaseId)).isSome then 1 else 0

def LeaseInv (s : Option ObjsFile) (w : Logged World Ans) : Prop :=
  (∀ p, s = some p → LeaseFollowsLock p) ∧ ∃ n, Handed (n + leaseHeld s) n w.log

section Calls

variable {p p' : ObjsFile} {a n : Nat} {w : Logged World Ans}

theorem LeaseFollowsLock.of_handle (h : LeaseFollowsLock p) (hp : p'.handle = p.handle) :
    LeaseFollowsLock p' := by
  have hops : p'.ops = p.ops := congrArg Handle.ops hp
  have hlock : p'.eLock = p.eLock := congrArg Handle.eLock hp
  have hlease : p'.leaseId = p.leaseId := congrArg Handle.leaseId hp
  exact ⟨by rw [hops]; exact h.acquire, by rw [hops]; exact h.release,
    by rw [hlease, hlock]; exact h.iff⟩

theorem leaseHeld_of_handle (hp : p'.handle = p.handle) :
    leaseHeld (some p') = leaseHeld (some p) := by
  have hlease : p'.leaseId = p.leaseId := congrArg Handle.leaseId hp
  simp [leaseHeld, hlease]

/-- An operation that keeps the handle keeps the invariant. -/
theorem leaseInv_within {α : Type} {m : Prog α} {f : α → ObjsFile}
    (hm : Within (Touches p.handle.blob) (fun r => (f r).handle = p.handle) m)
    (h : LeaseInv (some p) w) :
    wp (.alone anyFault) (m >>= fun r => .ret (some (f r))) LeaseInv w := by
  obtain ⟨hp, n, hn⟩ := h
  rw [wp_bind]
  refine handed_within hm hn fun r w' hr hw' => wp_alone_ret.mpr ⟨?_, n, ?_⟩
  · rintro _ ⟨⟩
    exact (hp p rfl).of_handle hr
  · rwa [leaseHeld_of_handle hr]

/-- Releasing a recorded lease is one call. -/
theorem wp_releaseLease (hrel : p.ops.leaseRelease = true) {id : LeaseId}
    (hid : p.leaseId = some id) (hw : Handed a n w.log) :
    wp (.alone anyFault) (releaseLease p)
      (fun p' w' => p'.ops = p.ops ∧ p'.eLock = p.eLock ∧ p'.leaseId = none ∧
        Handed a (n + 1) w'.log) w := by
  unfold releaseLease
  rw [hrel, hid]
  refine handed_release hw fun x w' hw' => ?_
  exact wp_alone_ret.mpr ⟨rfl, rfl, rfl, hw'⟩

/-- A failed acquisition leaves lock and lease as they were; a successful one records a
lease. -/
theorem wp_acquireLease (hrel : p.ops.leaseRelease = true) (hid : p.leaseId = none)
    (hw : Handed n n w.log) :
    wp (.alone anyFault) (acquireLease p)
      (fun r w' => r.1.ops = p.ops ∧ r.1.eLock = p.eLock ∧
        (r.2 ≠ .ok → r.1.leaseId = none) ∧ (r.2 = .ok → r.1.leaseId.isSome) ∧
        ∃ n, Handed (n + leaseHeld (some r.1)) n w'.log) w := by
  have hnone : leaseHeld (some p) = 0 := by simp [leaseHeld, hid]
  unfold acquireLease
  generalize (if dirtyPageThreshold < p.lastSyncDirtyCount then leaseDurationLong
    else leaseDurationDefault) = duration
  dsimp only
  refine handed_acquire hw fun x w hw => ?_
  split
  · next he =>
    rw [he] at hw
    exact wp_alone_ret.mpr
      ⟨rfl, rfl, fun _ => hid, fun h => (by cases h), n, by rw [hnone]; exact hw⟩
  split
  · next he =>
    rw [if_neg he] at hw
    refine wp_alone_ret.mpr ⟨rfl, rfl, fun _ => hid, fun h => ?_, n, by rw [hnone]; exact hw⟩
    exact absurd ((azureErrToSqlite_eq_ok (by decide)).mp h) he
  next he =>
  rw [if_pos (by simpa using he)] at hw
  refine handed_sys_bind hw fun now w hw => ?_
  rw [wp_bind]
  refine handed_within (within_revalidateAfterLease rfl _) hw fun (q, rv) w hq hw => ?_
  have hops : q.ops = p.ops := congrArg Handle.ops hq
  have hlock : q.eLock = p.eLock := congrArg Handle.eLock hq
  have hlease : q.leaseId = some x.leaseId := congrArg Handle.leaseId hq
  dsimp only
  split
  · next hrv =>
    rw [wp_bind]
    refine wp_mono ?_ (wp_releaseLease (by rw [hops]; exact hrel) hlease hw)
    rintro q' w' ⟨hops', hlock', hlease', hw'⟩
    refine wp_alone_ret.mpr ⟨hops'.trans hops, hlock'.trans hlock, fun _ => hlease',
      fun h => absurd h hrv, n + 1, ?_⟩
    simpa [leaseHeld, hlease'] using hw'
  · next hrv =>
    refine wp_alone_ret.mpr
      ⟨hops, hlock, fun h => absurd rfl h, fun _ => by rw [hlease]; rfl, n, ?_⟩
    simpa [leaseHeld, hlease] using hw

/-- `xLock` keeps the invariant, and a failed one changes neither lock nor lease. -/
theorem wp_sqliteObjsLock (h : LeaseInv (some p) w) (l : LockLevel) :
    wp (.alone anyFault) (sqliteObjsLock p l)
      (fun r w' => LeaseInv (some r.1) w' ∧
        (r.2 ≠ .ok → r.1.eLock = p.eLock ∧ r.1.leaseId = p.leaseId)) w := by
  obtain ⟨hp, n, hn⟩ := h
  have hf := hp p rfl
  unfold sqliteObjsLock
  split
  · exact wp_alone_ret.mpr ⟨⟨hp, n, hn⟩, fun h => absurd rfl h⟩
  next hrank =>
  split
  · next hl =>
    -- a file without a lock holds no lease
    have hlow : p.leaseId = none := by
      by_contra hne
      have := hf.iff.mp (Option.isSome_iff_ne_none.mpr hne)
      subst hl
      simp only [LockLevel.rank] at hrank this
      omega
    rw [wp_bind]
    refine handed_within (within_revalidateBeforeRead rfl) hn fun (q, rv) w hq hw => ?_
    have hq' : q.handle = p.handle := hq
    have hops : q.ops = p.ops := congrArg Handle.ops hq'
    have hlease : q.leaseId = p.leaseId := congrArg Handle.leaseId hq'
    have hheld : leaseHeld (some q) = leaseHeld (some p) := leaseHeld_of_handle hq'
    dsimp only
    split
    · refine wp_alone_ret.mpr ⟨⟨?_, n, by rw [hheld]; exact hw⟩, fun _ =>
        ⟨congrArg Handle.eLock hq', hlease⟩⟩
      rintro _ ⟨⟩
      exact hf.of_handle hq'
    · refine wp_alone_ret.mpr ⟨⟨?_, n, ?_⟩, fun h => absurd rfl h⟩
      · rintro _ ⟨⟩
        refine ⟨by rw [hops]; exact hf.acquire, by rw [hops]; exact hf.release, ?_⟩
        subst hl
        simp [hlease, hlow, LockLevel.rank]
      · simpa [leaseHeld, hlease] using hw
  next hl =>
  have hreserved : LockLevel.reserved.rank ≤ l.rank := by
    cases l <;> simp [LockLevel.rank] at hrank hl ⊢
  split
  · next hsome =>
    refine wp_alone_ret.mpr ⟨⟨?_, n, hn⟩, fun h => absurd rfl h⟩
    rintro _ ⟨⟩
    exact ⟨hf.acquire, hf.release, iff_of_true hsome hreserved⟩
  next hsome =>
  rw [if_neg (by simp [hf.acquire])]
  have hnone : p.leaseId = none := by simpa using hsome
  have hn' : Handed n n w.log := by simpa [leaseHeld, hnone] using hn
  rw [wp_bind]
  refine wp_mono ?_ (wp_acquireLease hf.release hnone hn')
  rintro ⟨q, rv⟩ w' ⟨hops, hlock, hfail, hok, n', hw'⟩
  dsimp only at hops hlock hfail hok hw' ⊢
  split
  · next hrv =>
    refine wp_alone_ret.mpr ⟨⟨?_, n', hw'⟩, fun _ => ⟨hlock, (hfail hrv).trans hnone.symm⟩⟩
    rintro _ ⟨⟩
    refine ⟨by rw [hops]; exact hf.acquire, by rw [hops]; exact hf.release, ?_⟩
    rw [hfail hrv, hlock, ← hf.iff, hnone]
  · next hrv =>
    refine wp_alone_ret.mpr ⟨⟨?_, n', hw'⟩, fun h => absurd rfl h⟩
    rintro _ ⟨⟩
    exact ⟨by rw [hops]; exact hf.acquire, by rw [hops]; exact hf.release,
      iff_of_true (hok (by simpa using hrv)) hreserved⟩

/-- `xUnlock` to `SHARED` or `NONE`. -/
theorem wp_sqliteObjsUnlock (h : LeaseInv (some p) w) {l : LockLevel}
    (hl : l = .shared ∨ l = .none) :
    wp (.alone anyFault) (sqliteObjsUnlock p l) (fun r w' => LeaseInv (some r.1) w') w := by
  obtain ⟨hp, n, hn⟩ := h
  have hf := hp p rfl
  have hlow : l.rank ≤ LockLevel.shared.rank := by
    rcases hl with rfl | rfl <;> decide
  have hno : ¬ LockLevel.reserved.rank ≤ l.rank := by
    simp only [LockLevel.rank] at hlow ⊢
    omega
  unfold sqliteObjsUnlock
  split
  · exact wp_alone_ret.mpr ⟨hp, n, hn⟩
  split
  · next hrel =>
    obtain ⟨id, hid⟩ := Option.isSome_iff_exists.mp hrel.2
    rw [wp_bind]
    refine wp_mono ?_ (wp_releaseLease hf.release hid hn)
    rintro q w' ⟨hops, -, hlease, hw'⟩
    refine wp_alone_ret.mpr ⟨?_, n + 1, ?_⟩
    · rintro _ ⟨⟩
      refine ⟨by rw [hops]; exact hf.acquire, by rw [hops]; exact hf.release, ?_⟩
      simp only [hlease, Option.isSome_none, Bool.false_eq_true, false_iff]
      exact hno
    · simpa [leaseHeld, hlease, hid] using hw'
  · next hrel =>
    have hnone : p.leaseId = none := by
      by_contra hne
      exact hrel ⟨hlow, Option.isSome_iff_ne_none.mpr hne⟩
    refine wp_alone_ret.mpr ⟨?_, n, by simpa [leaseHeld, hnone] using hn⟩
    rintro _ ⟨⟩
    refine ⟨hf.acquire, hf.release, ?_⟩
    simp only [hnone, Option.isSome_none, Bool.false_eq_true, false_iff]
    exact hno

/-- `xClose` gives a recorded lease back. -/
theorem wp_sqliteObjsClose (h : LeaseInv (some p) w) (v : VfsData) :
    wp (.alone anyFault) (sqliteObjsClose v p) (fun _ w' => LeaseInv none w') w := by
  obtain ⟨hp, n, hn⟩ := h
  have hf := hp p rfl
  unfold sqliteObjsClose
  rw [wp_bind]
  refine handed_within (within_closeFlush p) hn fun (v', q, rc) w hq hw => ?_
  dsimp only
  rw [wp_bind]
  refine handed_within (within_closeRefreshEtag hq.2 rc) hw fun q w hq hw => ?_
  have hops : q.ops = p.ops := congrArg Handle.ops hq
  have hlease : q.leaseId = p.leaseId := congrArg Handle.leaseId hq
  -- after the lease is given back only the machine is touched
  have hrest : ∀ (q : ObjsFile) (k : Nat) (w : Logged World Ans), Handed k k w.log →
      wp (.alone anyFault) (do
        let q ← closeCacheFd q
        let _ ← closeCache q
        return (v', rc)) (fun _ w' => LeaseInv none w') w := by
    intro q k w hw
    rw [wp_bind]
    refine handed_within (b := q.blob) (within_touches (within_closeCacheFd q)) hw
      fun q w _ hw => ?_
    rw [wp_bind]
    refine handed_within (b := q.blob) (within_touches (within_closeCache q)) hw
      fun _ w _ hw => ?_
    refine wp_alone_ret.mpr ⟨?_, k, hw⟩
    rintro _ ⟨⟩
  rw [wp_bind]
  unfold closeReleaseLease
  rw [hops, hf.release]
  cases hid : q.leaseId with
  | none =>
    have hheld : leaseHeld (some p) = 0 := by simp [leaseHeld, ← hlease, hid]
    rw [hheld] at hw
    exact wp_alone_ret.mpr (hrest q n w hw)
  | some id =>
    have hheld : leaseHeld (some p) = 1 := by simp [leaseHeld, ← hlease, hid]
    rw [hheld] at hw
    refine handed_release hw fun x w hw => wp_alone_ret.mpr ?_
    exact hrest _ (n + 1) w hw

theorem wp_leaseOpen (h : LeaseInv none w) {v : VfsData} {name : String} {uri : UriParams}
    {create : Bool}
    (hops : ∀ ops ctx, selectedOps v uri = some (ops, ctx) → ops.leaseAcquire ∧ ops.leaseRelease) :
    wp (.alone anyFault) ((LeaseCall.open v name uri create).code none) LeaseInv w := by
  obtain ⟨-, n, hn⟩ := h
  simp only [LeaseCall.code]
  rw [wp_bind]
  have hopen := within_sqliteObjsOpen (v := v) name uri .mainDb create
  refine Logged.wp_of_within (I := fun w => Handed n n w.log) hopen ?_ hn
    fun (v', r) w' hr hw' => wp_alone_ret.mpr ?_
  · rintro r w x w' (hr | ⟨ops, ctx, -, hr⟩) hs hw
    · rw [hs.2]
      exact hw.other (touches_of_isLocal (b := ⟨0, name⟩) hr)
    · rw [hs.2]
      exact hw.other hr
  cases r with
  | error rc =>
    refine ⟨?_, n, hw'⟩
    rintro _ ⟨⟩
  | ok p =>
    obtain ⟨ops, ctx, hsel, hp⟩ := hr.2 p rfl
    obtain ⟨hacq, hrel⟩ := hops ops ctx hsel
    have hlease : p.leaseId = none := congrArg Handle.leaseId hp
    have hlock : p.eLock = .none := congrArg Handle.eLock hp
    have hpops : p.ops = ops := congrArg Handle.ops hp
    refine ⟨?_, n, ?_⟩
    · rintro _ ⟨⟩
      refine ⟨by rw [hpops]; exact hacq, by rw [hpops]; exact hrel, ?_⟩
      simp [hlease, hlock, LockLevel.rank]
    · simpa [leaseHeld, Except.toOption, hlease] using hw'

theorem wp_onOpen {s : Option ObjsFile} {f : ObjsFile → Prog (Option ObjsFile)}
    (h : LeaseInv s w) (hf : ∀ p, s = some p → wp (.alone anyFault) (f p) LeaseInv w) :
    wp (.alone anyFault) (LeaseCall.onOpen s f) LeaseInv w := by
  cases s with
  | none => exact wp_alone_ret.mpr h
  | some p => exact hf p rfl

/-- Every call keeps the invariant. -/
theorem wp_leaseCall {c : LeaseCall} {s : Option ObjsFile} (h : LeaseInv s w) (hc : c.may s) :
    wp (.alone anyFault) (c.code s) LeaseInv w := by
  cases c with
  | «open» v name uri create =>
    obtain ⟨rfl, hops⟩ := hc
    exact wp_leaseOpen h hops
  | lock l =>
    refine wp_onOpen h ?_
    rintro p rfl
    rw [wp_bind]
    exact wp_mono (fun _ _ hr => wp_alone_ret.mpr hr.1) (wp_sqliteObjsLock h l)
  | unlock l =>
    refine wp_onOpen h ?_
    rintro p rfl
    rw [wp_bind]
    exact wp_mono (fun _ _ hr => wp_alone_ret.mpr hr) (wp_sqliteObjsUnlock h hc)
  | read n o =>
    refine wp_onOpen h ?_
    rintro p rfl
    exact leaseInv_within (within_sqliteObjsRead rfl n o) h
  | write buf o =>
    refine wp_onOpen h ?_
    rintro p rfl
    exact leaseInv_within (within_sqliteObjsWrite rfl buf o) h
  | sync v =>
    refine wp_onOpen h ?_
    rintro p rfl
    have hsync := within_sqliteObjsSync (v := v) (p := p) rfl
    exact leaseInv_within (hsync.mono (fun _ hr => hr) fun _ hr => hr.2) h
  | truncate n =>
    refine wp_onOpen h ?_
    rintro p rfl
    exact leaseInv_within (within_sqliteObjsTruncate rfl n) h
  | close v =>
    refine wp_onOpen h ?_
    rintro p rfl
    rw [wp_bind]
    exact wp_mono (fun _ _ hr => wp_alone_ret.mpr hr) (wp_sqliteObjsClose h v)

end Calls

theorem leaseInv_start (w : World) : LeaseInv none ⟨w, []⟩ := by
  refine ⟨?_, 0, rfl, rfl⟩
  rintro _ ⟨⟩

theorem leaseInv_of_reach {w₀ : World} {s : Option ObjsFile} {w : Logged World Ans}
    (h : leaseSession.Reach none ⟨w₀, []⟩ s w) : LeaseInv s w := by
  refine Session.inv_of_reach LeaseInv (leaseInv_start w₀) ?_ ?_ h
  · exact fun c s w hi hc => wp_mono (fun _ _ hi' _ => hi') (wp_leaseCall hi hc)
  · rintro s w w' ⟨hp, n, hn⟩ ho
    have ho : w'.log = w.log := ho
    exact ⟨hp, n, by rw [ho]; exact hn⟩

/-- After any calls under any faults: a lease is recorded exactly from `RESERVED` on,
`lease_acquire` succeeded as often as `lease_release` was called and once more while a
lease is recorded, and an `xLock` that fails changes neither the lock nor the lease. -/
theorem lease_follows_lock {w₀ : World} {s : Option ObjsFile} {w : Logged World Ans}
    (h : leaseSession.Reach none ⟨w₀, []⟩ s w) :
    (∀ p, s = some p → (p.leaseId.isSome ↔ LockLevel.reserved.rank ≤ p.eLock.rank)) ∧
    leasesAcquired w.log = (releaseCalls w.log).1 + leaseHeld s ∧
    (∀ p l p' rc w', s = some p → Runs anyFault (sqliteObjsLock p l) w (p', rc) w' →
      rc ≠ .ok → p'.eLock = p.eLock ∧ p'.leaseId = p.leaseId) := by
  have hinv := leaseInv_of_reach h
  obtain ⟨hp, n, hn⟩ := hinv
  refine ⟨fun p hs => (hp p hs).iff, by rw [hn.1, hn.2], ?_⟩
  rintro p l p' rc w' rfl hr hrc
  exact (wp_alone_iff.mp (wp_sqliteObjsLock ⟨hp, n, hn⟩ l) _ _ hr).2 hrc

/-- A call without faults is a step of the session. -/
theorem lease_reach_exec {w₀ : World} {c : LeaseCall} {s s' : Option ObjsFile} {w w' : World}
    {log : Log} (h : leaseSession.Reach none ⟨w₀, []⟩ s ⟨w, log⟩) (hc : c.may s) (n : Nat)
    (he : exec World.respond (List.replicate n {}) (c.code s) w = some (s', w')) :
    ∃ log', leaseSession.Reach none ⟨w₀, []⟩ s' ⟨w', log'⟩ := by
  have hr : Runs (World.served fun _ => True) (c.code s) w s' w' := by
    refine (World.runs_of_exec n he).mono ?_
    rintro r w x w' ⟨ch, -, hs⟩
    exact ⟨ch, trivial, hs⟩
  obtain ⟨log', hlog⟩ := Logged.exists_runs hr log
  exact ⟨log', .call c h hc hlog trivial⟩

theorem lease_held_at_reserved : ∃ p w, leaseSession.Reach none ⟨World.new, []⟩ (some p) w ∧
    p.leaseId.isSome ∧ leasesAcquired w.log = (releaseCalls w.log).1 + 1 := by
  obtain ⟨s₁, w₁, s₂, w₂, p₃, w₃, he₁, he₂, he₃, hlock⟩ : ∃ s₁ w₁ s₂ w₂ p₃ w₃,
      exec World.respond (List.replicate 8 {})
        ((LeaseCall.open (.new 0) "db" {} true).code none) World.new = some (s₁, w₁) ∧
      exec World.respond (List.replicate 8 {}) ((LeaseCall.lock .shared).code s₁) w₁ =
        some (s₂, w₂) ∧
      exec World.respond (List.replicate 8 {}) ((LeaseCall.lock .reserved).code s₂) w₂ =
        some (some p₃, w₃) ∧ p₃.eLock = .reserved := ⟨_, _, _, _, _, _, rfl, rfl, rfl, rfl⟩
  have hmay : (LeaseCall.open (.new 0) "db" {} true).may none := by
    refine ⟨rfl, ?_⟩
    rintro _ _ ⟨⟩
    exact ⟨rfl, rfl⟩
  obtain ⟨log₁, h₁⟩ := lease_reach_exec .refl hmay 8 he₁
  obtain ⟨log₂, h₂⟩ := lease_reach_exec (c := .lock .shared) h₁ trivial 8 he₂
  obtain ⟨log₃, h₃⟩ := lease_reach_exec (c := .lock .reserved) h₂ trivial 8 he₃
  obtain ⟨hiff, hcount, -⟩ := lease_follows_lock h₃
  have hsome : p₃.leaseId.isSome := by
    rw [hiff p₃ rfl, hlock]
  refine ⟨p₃, ⟨w₃, log₃⟩, h₃, hsome, ?_⟩
  rw [hcount]
  simp [leaseHeld, hsome]

end SqliteObjs
