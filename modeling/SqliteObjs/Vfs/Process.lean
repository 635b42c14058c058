import SqliteObjs.CS.Parties
import SqliteObjs.Vfs.Alone

/-!
# Processes on their machines

A process has the VFS's data and its open files, by handle. `VfsCall` are the entry
points of the VFS that talk to the service or change a file. Several processes, each
on a machine of its own, share one service: `clients` interleaves their calls at
every request, and a lease may run out at any moment.
-/

set_option autoImplicit false

namespace SqliteObjs

open Data CS CS.Program

/-- The service and a machine for each client. -/
structure Machines (ι : Type) where
  azure : Azure
  disk : ι → Disk

namespace Machines

variable {ι : Type}

/-- The world one client sees. -/
def world (w : Machines ι) (i : ι) : World := { azure := w.azure, disk := w.disk i }

variable [DecidableEq ι]

/-- Put back the world of one client. -/
def setWorld (w : Machines ι) (i : ι) (x : World) : Machines ι :=
  { azure := x.azure, disk := Function.update w.disk i x.disk }

/-- The answer to a request of one client. -/
def respond (i : ι) (c : Choice) (r : Req) (w : Machines ι) : Option (Ans r × Machines ι) :=
  (World.respond c r (w.world i)).map fun xw => (xw.1, w.setWorld i xw.2)

/-- Empty machines and an empty storage account. -/
def new : Machines ι := { azure := World.new.azure, disk := fun _ => World.new.disk }

@[simp] theorem setWorld_world (w : Machines ι) (i : ι) : w.setWorld i (w.world i) = w := by
  simp [setWorld, world]

theorem of_respond {i : ι} {c : Choice} {r : Req} {w w' : Machines ι} {x : Ans r}
    (h : respond i c r w = some (x, w')) :
    ∃ u, World.respond c r (w.world i) = some (x, u) ∧ w' = w.setWorld i u := by
  simp only [respond, Option.map_eq_some_iff, Prod.mk.injEq] at h
  obtain ⟨⟨x', u⟩, hu, rfl, rfl⟩ := h
  exact ⟨u, hu, rfl⟩

@[simp] theorem world_setWorld (w : Machines ι) (i : ι) (x : World) :
    (w.setWorld i x).world i = x := by
  simp [setWorld, world]

@[simp] theorem setWorld_setWorld (w : Machines ι) (i : ι) (x y : World) :
    (w.setWorld i x).setWorld i y = w.setWorld i y := by
  simp [setWorld]

/-- What a client can do on its machine alone, it can do among the others. -/
theorem runs_of_world {ok : Choice → Prop} {α : Type} {m : Prog α} {i : ι} {a : α} {u u' : World}
    (h : Runs (World.served ok) m u a u') :
    ∀ w : Machines ι, w.world i = u →
      Runs (fun r w x w' => ∃ ch, respond i ch r w = some (x, w')) m w a (w.setWorld i u') := by
  induction h with
  | ret a u =>
    rintro w rfl
    rw [setWorld_world]
    exact .ret a w
  | @call r k u u₁ u₂ x a hs _ ih =>
    rintro w rfl
    obtain ⟨ch, -, hch⟩ := hs
    have hstep : respond i ch r w = some (x, w.setWorld i u₁) := by simp [respond, hch]
    have hrest := ih (w.setWorld i u₁) (world_setWorld w i u₁)
    rw [setWorld_setWorld] at hrest
    exact .call ⟨ch, hstep⟩ hrest

/-- A system call leaves the service alone. -/
theorem respond_sys {i : ι} {c : Choice} {r : SysReq} {w w' : Machines ι} {x : SysReply}
    (h : respond i c (.sys r) w = some (x, w')) : w'.azure = w.azure := by
  obtain ⟨u, hu, rfl⟩ := of_respond h
  have hs : World.served (fun _ => True) (.sys r) (w.world i) x u := ⟨c, trivial, hu⟩
  obtain ⟨-, -, -, rfl⟩ := served_sys hs
  rfl

theorem respond_quiet {i : ι} {c : Choice} {r : SysReq} (hr : r.isQuiet = true)
    {w w' : Machines ι} {x : SysReply} (h : respond i c (.sys r) w = some (x, w')) : w' = w := by
  obtain ⟨u, hu, rfl⟩ := of_respond h
  have hs : World.served (fun _ => True) (.sys r) (w.world i) x u := ⟨c, trivial, hu⟩
  obtain ⟨rfl, -⟩ := quiet_alone r hr _ _ _ hs
  exact setWorld_world w i

/-- A healthy service answers as it does. -/
theorem respond_healthy {i : ι} {c : Choice} (hc : Healthy c) {r : AzReq} {w w' : Machines ι}
    {x : AzReply} (h : respond i c (.azure r) w = some (x, w')) :
    x.err = (w.azure.respond r).1.err ∧ w'.azure = (w.azure.respond r).2 := by
  obtain ⟨u, hu, rfl⟩ := of_respond h
  simp only [World.respond, Azure.serve, show c.fault = none from hc, Option.map_eq_some_iff,
    Prod.mk.injEq] at hu
  obtain ⟨⟨x', a'⟩, hs, rfl, rfl⟩ := hu
  cases r <;> simp only [Option.some.injEq] at hs <;>
    exact ⟨(congrArg (fun xa => xa.1.err) hs).symm, (congrArg Prod.snd hs).symm⟩

end Machines

/-- A process: the VFS data and the open files. -/
structure Process where
  v : VfsData
  files : Nat → Option ObjsFile

/-- A process without open files. -/
def Process.new (ctx : Nat) : Process := { v := .new ctx, files := fun _ => none }

def Process.setFile (s : Process) (h : Nat) (p : Option ObjsFile) : Process :=
  { s with files := Function.update s.files h p }

/-- The entry points of the VFS. -/
inductive VfsCall
  | open (h : Nat) (name : String) (uri : UriParams) (ft : FileType) (create : Bool)
  | close (h : Nat)
  | read (h iAmt iOfst : Nat)
  | write (h : Nat) (buf : Bytes) (iOfst : Nat)
  | truncate (h size : Nat)
  | sync (h : Nat)
  | lock (h : Nat) (eLock : LockLevel)
  | unlock (h : Nat) (eLock : LockLevel)
  | checkReservedLock (h : Nat)
  | prefetch (h : Nat)
  | delete (mainFile : Option (AzureOps × Nat)) (name : String)
  | access (mainFile : Option (AzureOps × Nat)) (name : String) (flags : AccessFlag)

inductive VfsResult
  | badHandle
  | rc (rc : Rc)
  | data (rc : Rc) (buf : Bytes)
  | reserved (b : Bool)
  | deleted (r : Delegated Rc)
  | accessed (r : Delegated Bool)

namespace VfsCall

/-- A call on an open file that leaves the VFS data alone. -/
def onFile (s : Process) (h : Nat) (f : ObjsFile → Prog (ObjsFile × VfsResult)) :
    Prog (Process × VfsResult) :=
  match s.files h with
  | none => return (s, .badHandle)
  | some p => do
    let (p, r) ← f p
    return (s.setFile h p, r)

/-- The program of a call. -/
def code : VfsCall → Process → Prog (Process × VfsResult)
  | .open h name uri ft create, s => do
    let (v, r) ← sqliteObjsOpen s.v name uri ft create
    match r with
    | .ok p => return ({ s with v := v }.setFile h (some p), .rc .ok)
    | .error rc => return ({ s with v := v }, .rc rc)
  | .close h, s =>
    match s.files h with
    | none => return (s, .badHandle)
    | some p => do
      let (v, rc) ← sqliteObjsClose s.v p
      return ({ s with v := v }.setFile h none, .rc rc)
  | .read h iAmt iOfst, s => onFile s h fun p => do
    let (p, rc, buf) ← sqliteObjsRead p iAmt iOfst
    return (p, .data rc buf)
  | .write h buf iOfst, s => onFile s h fun p => do
    let (p, rc) ← sqliteObjsWrite p buf iOfst
    return (p, .rc rc)
  | .truncate h size, s => onFile s h fun p => do
    let (p, rc) ← sqliteObjsTruncate p size
    return (p, .rc rc)
  | .sync h, s =>
    match s.files h with
    | none => return (s, .badHandle)
    | some p => do
      let (v, p, rc) ← sqliteObjsSync s.v p
      return ({ s with v := v }.setFile h (some p), .rc rc)
  | .lock h eLock, s => onFile s h fun p => do
    let (p, rc) ← sqliteObjsLock p eLock
    return (p, .rc rc)
  | .unlock h eLock, s => onFile s h fun p => do
    let (p, rc) ← sqliteObjsUnlock p eLock
    return (p, .rc rc)
  | .checkReservedLock h, s => onFile s h fun p => do
    let b ← sqliteObjsCheckReservedLock p
    return (p, .reserved b)
  | .prefetch h, s => onFile s h fun p => do
    let (p, rc) ← fileControlPrefetch p
    return (p, .rc rc)
  | .delete mainFile name, s => do
    let (v, r) ← sqliteObjsDelete s.v mainFile name
    return ({ s with v := v }, .deleted r)
  | .access mainFile name flags, s => do
    let (v, r) ← sqliteObjsAccess s.v mainFile name flags
    return ({ s with v := v }, .accessed r)

end VfsCall

/-- The call is about the container `ctx`. -/
def VfsCall.inContainer (ctx : Nat) : VfsCall → VfsData → Prop
  | .open _ _ uri _ _, v => ∀ ops c, selectedOps v uri = some (ops, c) → c = ctx
  | .delete mainFile name, v => ∀ ops c, resolveOps v mainFile name = some (ops, c) → c = ctx
  | .access mainFile name _, v =>
    ∃ ops : AzureOps, ops.Complete ∧ resolveOps v mainFile name = some (ops, ctx)
  | _, _ => True

/-- Any number of processes that share the service. -/
def clients (ι : Type) [DecidableEq ι] :
    Interleaving ι (Machines ι) Choice Ans Process VfsCall (Process × VfsResult) BlobId where
  code _ c s := c.code s
  enter _ _ _ w := some w
  respond := Machines.respond
  leave _ _ _ r := r.1
  outside b w := some { w with azure := w.azure.expire b }

/-- The events of a call whose `n` requests are answered without faults. -/
def callEvents {ι : Type} (i : ι) (c : VfsCall) (n : Nat) :
    List (Interleaving.Event ι Choice VfsCall BlobId) :=
  .start i c :: List.replicate n (.serve i {}) ++ [.finish i]

/-- Processes that have not done anything yet, with a database of one sector. -/
def startConfig (ι : Type) : Interleaving.Config ι (Machines ι) Ans Process VfsCall
    (Process × VfsResult) where
  world := {
    azure := (World.new.after (.pageBlobCreate ⟨0, "db"⟩ 512)).azure
    disk := fun _ => World.new.disk }
  party _ := .idle (.new 0)

end SqliteObjs
