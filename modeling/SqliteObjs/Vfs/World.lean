import SqliteObjs.CS.Program
import SqliteObjs.Azure.Service

/-!
# The world of the VFS

Everything the VFS code calls and does not compute itself is a request: the Azure
operations of `SqliteObjs.Azure.Service`, and here the system calls on the machine
it runs on (allocation, the clock, cache files and their sidecar files). The code
is a `Prog`, a program over these requests.

Open files are inode numbers, so that an unlinked file stays readable through a
descriptor. Sidecar files hold a value each, or nothing when they were truncated
and not yet written.
-/

set_option autoImplicit false

namespace SqliteObjs

abbrev Fd := Nat

/-- A cache file is a `mkstemp` file or has a name derived from the blob. -/
inductive Path
  | temp (dir : String) (n : Nat)
  | cache (dir : String) (hash : UInt64)
  deriving DecidableEq

inductive Ext
  | etag | snapshot | state
  deriving DecidableEq, Repr

inductive Sidecar
  | empty
  | etag (e : ETag)
  | snapshot (s : Snapshot)
  | state (pageSize fileSize : Nat) (bitmap : List UInt8)
  deriving DecidableEq

/-- The local file system. -/
structure Disk where
  inode : Fd → Bytes
  dir : Path → Option Fd
  nextInode : Fd
  sidecar : Path → Ext → Option Sidecar

/-- System calls. -/
inductive SysReq
  | malloc (n : Nat)
  | time
  /-- Which of `n` transfers in flight is answered next. -/
  | pick (n : Nat)
  /-- Lock a mutex the caller holds itself. It is not recursive: no answer comes. -/
  | relock
  /-- Read a local variable that was never assigned. -/
  | uninit
  | mkstemp (dir : String)
  | openRdwr (path : Path)
  | openTrunc (path : Path)
  | lseekSet (fd : Fd)
  | fileSize (fd : Fd)
  | ftruncate (fd : Fd) (n : Nat)
  | pread (fd : Fd) (offset len : Nat)
  | pwrite (fd : Fd) (offset : Nat) (data : Bytes)
  /-- `write` at the file offset, which the code keeps equal to `offset`. -/
  | write (fd : Fd) (offset : Nat) (data : Bytes)
  | fsync (fd : Fd)
  | unlink (path : Path)
  | sidecarRead (path : Path) (ext : Ext)
  | sidecarTrunc (path : Path) (ext : Ext)
  | sidecarWrite (path : Path) (ext : Ext) (content : Sidecar)
  | sidecarRename (path : Path) (ext : Ext) (content : Sidecar)
  | sidecarUnlink (path : Path) (ext : Ext)

/-- The result of a system call: whether it succeeded, a number (size, count, time
or index), and what it read or opened. -/
structure SysReply where
  ok : Bool
  n : Nat := 0
  data : Bytes := .empty
  fd : Fd := 0
  path : Path := .temp "" 0
  sidecar : Sidecar := .empty

namespace Disk

def setInode (d : Disk) (fd : Fd) (f : Bytes) : Disk :=
  { d with inode := Function.update d.inode fd f }

@[simp] theorem setInode_inode_self (d : Disk) (fd : Fd) (f : Bytes) :
    (d.setInode fd f).inode fd = f := by
  simp [setInode]

/-- A new empty file under a name. -/
def newFile (d : Disk) (path : Path) : Disk :=
  { d with
    inode := Function.update d.inode d.nextInode .empty
    dir := Function.update d.dir path (some d.nextInode)
    nextInode := d.nextInode + 1 }

def setSidecar (d : Disk) (path : Path) (ext : Ext) (s : Option Sidecar) : Disk :=
  { d with
    sidecar := fun q e => if q = path ∧ e = ext then s else d.sidecar q e }

/-- The answer to a system call under the environment's choice. A failing `pwrite`
may have written a proper part of its data, a succeeding `write` too. -/
def serve (d : Disk) (c : Choice) : SysReq → SysReply × Disk
  | .malloc n =>
    if c.sysFails then ({ ok := false }, d) else ({ ok := true, data := c.junk.truncate n }, d)
  | .time => ({ ok := true, n := c.now }, d)
  | .pick n => ({ ok := true, n := c.pick % n }, d)
  | .relock => ({ ok := true }, d)
  | .uninit => ({ ok := !c.sysFails, n := c.pick }, d)
  | .mkstemp dir =>
    if c.sysFails then ({ ok := false }, d)
    else ({ ok := true, fd := d.nextInode, path := .temp dir d.nextInode },
      d.newFile (.temp dir d.nextInode))
  | .openRdwr path =>
    if c.sysFails then ({ ok := false }, d)
    else match d.dir path with
    | none => ({ ok := false }, d)
    | some fd => ({ ok := true, fd := fd }, d)
  | .openTrunc path =>
    if c.sysFails then ({ ok := false }, d)
    else match d.dir path with
    | none => ({ ok := true, fd := d.nextInode }, d.newFile path)
    | some fd => ({ ok := true, fd := fd }, d.setInode fd .empty)
  | .lseekSet _ => ({ ok := !c.sysFails }, d)
  | .fileSize fd =>
    if c.sysFails then ({ ok := false }, d) else ({ ok := true, n := (d.inode fd).size }, d)
  | .ftruncate fd n =>
    if c.sysFails then ({ ok := false }, d)
    else ({ ok := true }, d.setInode fd ((d.inode fd).truncate n))
  | .pread fd offset len =>
    if c.sysFails then ({ ok := false }, d)
    else ({ ok := true, data := (d.inode fd).slice offset len }, d)
  | .pwrite fd offset data =>
    if c.sysFails then
      ({ ok := false }, d.setInode fd ((d.inode fd).pwrite offset
        (data.slice 0 (min c.count (data.size - 1)))))
    else ({ ok := true }, d.setInode fd ((d.inode fd).pwrite offset data))
  | .write fd offset data =>
    if c.sysFails then ({ ok := false }, d)
    else
      let n := if 0 < c.count ∧ c.count < data.size then c.count else data.size
      ({ ok := true, n := n }, d.setInode fd ((d.inode fd).pwrite offset (data.slice 0 n)))
  | .fsync _ => ({ ok := !c.sysFails }, d)
  | .unlink path => ({ ok := true }, { d with dir := Function.update d.dir path none })
  | .sidecarRead path ext =>
    if c.sysFails then ({ ok := false }, d)
    else match d.sidecar path ext with
    | none => ({ ok := false }, d)
    | some s => ({ ok := true, sidecar := s }, d)
  | .sidecarTrunc path ext =>
    if c.sysFails then ({ ok := false }, d)
    else ({ ok := true }, d.setSidecar path ext (some .empty))
  | .sidecarWrite path ext content | .sidecarRename path ext content =>
    if c.sysFails then ({ ok := false }, d)
    else ({ ok := true }, d.setSidecar path ext (some content))
  | .sidecarUnlink path ext => ({ ok := true }, d.setSidecar path ext none)

end Disk

/-! ## Programs over these requests -/

/-- Conversion of a wide integer to C `int`. -/
def cInt (x : Int) : Int := x.bmod (2 ^ 32)

theorem cInt_of_lt {n : Nat} (h : n < 2 ^ 31) : cInt n = n := by
  unfold cInt
  rw [Int.bmod_eq_of_le] <;> omega

/-- The SQLite result codes the VFS returns. -/
inductive Rc
  | ok | busy | nomem | cantopen | ioerr | ioerrRead | ioerrShortRead | ioerrWrite
  | ioerrFsync | ioerrTruncate | ioerrLock | ioerrDelete
  deriving DecidableEq, Repr

inductive Req
  | azure (r : AzReq)
  | sys (r : SysReq)

abbrev Ans : Req → Type
  | .azure _ => AzReply
  | .sys _ => SysReply

abbrev Prog (α : Type) := CS.Program Ans α

/-- The service and one machine. -/
structure World where
  azure : Azure
  disk : Disk

namespace World

/-- An empty storage account and a machine without files. -/
def new : World where
  azure := {
    blobs := fun _ => none, blocks := fun _ _ => none
    nextETag := 1, nextLease := 1, nextSnapshot := 1 }
  disk := {
    inode := fun _ => .empty, dir := fun _ => none
    nextInode := 0, sidecar := fun _ _ => none }

/-- The answer to a request of a client on this machine. -/
def respond (c : Choice) : (r : Req) → World → Option (Ans r × World)
  | .azure r, w => (w.azure.serve c r).map fun xa => (xa.1, { w with azure := xa.2 })
  | .sys .relock, _ => none
  | .sys r, w => some ((w.disk.serve c r).1, { w with disk := (w.disk.serve c r).2 })

end World

/-- Issue an Azure request. -/
def azure (r : AzReq) : Prog AzReply := .call (.azure r) .ret

/-- Make a system call. -/
def sys (r : SysReq) : Prog SysReply := .call (.sys r) .ret

end SqliteObjs
