import LihaLinux.Lib.Transition
import Mathlib.Data.Int.Notation
import Mathlib.Data.Nat.Notation
import Mathlib.Logic.Function.Basic

/-!
# Device numbers

Where the numbers of special files are taken apart: in `open.c`, `char_dev.c`, `ioctl.c`,
`tty_ioctl.c`, `exit.c`, `ll_rw_blk.c` and the block drivers. The system has the tasks with the
special files that they have opened, the devices that have buffers, and the requests to the drivers.
Each index into a table of devices is recorded.
-/

namespace LihaLinux.Devices

/-- A device number. -/
abbrev DevNo := BitVec 16

/-- `MAJOR`. -/
def major (dev : DevNo) : ℕ := dev.toNat / 256

/-- `MINOR`. -/
def minor (dev : DevNo) : ℕ := dev.toNat % 256

/-- `S_ISCHR` and `S_ISBLK`. -/
inductive Kind
  | chr | blk
  deriving DecidableEq

/-- The inode of a special file; `i_zone[0]` is the device number. -/
structure Special where
  kind : Kind
  zone : DevNo

/-- The tables that are indexed with parts of device numbers. -/
inductive Table
  | tty | crw | ioctl | blkDev | floppyType | hd
  deriving DecidableEq

/-- A task. There is no terminal when `tty` is negative. -/
structure Task where
  pid : ℤ
  pgrp : ℤ
  leader : Bool
  tty : ℤ
  /-- The special files among the open ones. -/
  filp : ℕ → Option Special

/-- A request to a block driver. -/
structure Request where
  dev : DevNo
  sector : ℕ

/-- Tasks, buffers and drivers. -/
structure System where
  task : ℕ → Option Task
  /-- What is in memory as `tty_table[i].pgrp`. -/
  ttyPgrp : ℕ → ℤ
  /-- The devices of the buffers. -/
  buffers : List DevNo
  /-- `blk_dev[major].request_fn` is not `NULL`. -/
  requestFn : ℕ → Bool
  queue : ℕ → List Request
  /-- What is in memory as `floppy_type[i].size`. -/
  floppySize : ℕ → ℕ
  /-- `NR_HD`. -/
  nrHd : ℕ
  /-- `hd[i].nr_sects`. -/
  hdSects : ℕ → ℕ
  /-- The indices into tables, the last one first. -/
  log : List (Table × ℕ)

/-- `NR_OPEN`. -/
def nrOpen : ℕ := 20

/-- `NR_TASKS`. -/
def nrTasks : ℕ := 64

/-- `NR_BLK_DEV`. -/
def nrBlkDev : ℕ := 7

/-- The functions in `crw_table`. -/
inductive CrwPtr
  | rwMemory | rwTtyx | rwTty

/-- `crw_table`. -/
def crwTable : List (Option CrwPtr) :=
  [none, some .rwMemory, none, none, some .rwTtyx, some .rwTty, none, none]

/-- `ioctl_table`, in which every function is `tty_ioctl`. -/
def ioctlTable : List Bool := [false, false, false, false, true, true, false, false]

namespace System

variable (s : System) (t : ℕ) (p : Task)

/-- An index into a table. -/
def index (table : Table) (i : ℕ) : System := { s with log := (table, i) :: s.log }

def setTask : System := { s with task := Function.update s.task t (some p) }

def setQueue (m : ℕ) (q : List Request) : System :=
  { s with queue := Function.update s.queue m q }

/-- `tty_table[i].pgrp = pgrp`. -/
def setPgrp (i : ℕ) (pgrp : ℤ) : System :=
  { s.index .tty i with ttyPgrp := Function.update s.ttyPgrp i pgrp }

/-! ### Special files -/

/-- `sys_open` of a special file, with a free descriptor. For a block device `check_disk_change`
only looks at the drive. -/
def sysOpen (fd : ℕ) (inode : Special) : System :=
  let opened := { p with filp := Function.update p.filp fd (some inode) }
  if inode.kind = .chr ∧ major inode.zone = 4 then
    if p.leader ∧ p.tty < 0 then
      (s.setPgrp (minor inode.zone) p.pgrp).setTask t { opened with tty := minor inode.zone }
    else s.setTask t opened
  else if inode.kind = .chr ∧ major inode.zone = 5 ∧ p.tty < 0 then s
  else s.setTask t opened

/-- `tty_read` and `tty_write`. -/
def rwChannel (channel : ℕ) : System := if 2 < channel then s else s.index .tty channel

/-- `rw_tty`. -/
def rwTty : System := if p.tty < 0 then s else s.rwChannel p.tty.toNat

/-- `rw_char`. -/
def rwChar (dev : DevNo) : System :=
  if crwTable.length ≤ major dev then s
  else
    let s := s.index .crw (major dev)
    match crwTable[major dev]?.join with
    | none => s
    | some .rwMemory => s
    | some .rwTtyx => s.rwChannel (minor dev)
    | some .rwTty => s.rwTty p

/-- `sys_read` and `sys_write` of a special file. `block_read` and `block_write` get buffers of the
device. -/
def sysRw (inode : Special) (count : ℕ) : System :=
  if count = 0 then s
  else
    match inode.kind with
    | .chr => s.rwChar p inode.zone
    | .blk => { s with buffers := inode.zone :: s.buffers }

/-- `tty_ioctl`, where the kernel stops when there is no terminal. -/
def ttyIoctl (dev : DevNo) : Option System :=
  if major dev = 5 then
    if p.tty < 0 then none else some (s.index .tty p.tty.toNat)
  else some (s.index .tty (minor dev))

/-- `sys_ioctl` of a special file. -/
def sysIoctl (inode : Special) : Option System :=
  if ioctlTable.length ≤ major inode.zone then some s
  else
    let s := s.index .ioctl (major inode.zone)
    if ioctlTable[major inode.zone]? = some true then s.ttyIoctl p inode.zone else some s

/-- `sys_close`. -/
def sysClose (fd : ℕ) : System :=
  s.setTask t { p with filp := Function.update p.filp fd none }

/-- `do_exit`: the terminal of a session leader is given up. -/
def doExit : System :=
  let s := { s with task := Function.update s.task t none }
  if p.leader ∧ 0 ≤ p.tty then s.setPgrp p.tty.toNat 0 else s

/-! ### Block devices -/

/-- `add_request`. The current request stays where it is. -/
def addRequest (m place : ℕ) (r : Request) : System :=
  match s.queue m with
  | [] => s.setQueue m [r]
  | current :: rest => s.setQueue m (current :: (rest.take place ++ r :: rest.drop place))

/-- `ll_rw_block` for a buffer. -/
def llRwBlock (dev : DevNo) (sector place : ℕ) : System :=
  if nrBlkDev ≤ major dev then s
  else
    let s := s.index .blkDev (major dev)
    if s.requestFn (major dev) then s.addRequest (major dev) place ⟨dev, sector⟩ else s

/-- A request function goes through its queue: `attempt` looks at a request, and tells whether it is
ended at once. In the queue of another device the kernel stops. -/
def serve (attempt : System → Request → System × Bool) (m : ℕ) :
    List Request → System → Option System
  | [], s => some (s.setQueue m [])
  | r :: rest, s =>
    if major r.dev ≠ m then none
    else
      let a := attempt s r
      if a.2 then serve attempt m rest a.1 else some (a.1.setQueue m (r :: rest))

/-- A request in `do_rd_request`. -/
def tryRd (s : System) (_ : Request) : System × Bool := (s, true)

/-- A request in `do_fd_request`. -/
def tryFd (s : System) (r : Request) : System × Bool :=
  let i := minor r.dev / 4
  (s.index .floppyType i, s.floppySize i < (r.sector + 2) % 4294967296)

/-- A request in `do_hd_request`. -/
def tryHd (s : System) (r : Request) : System × Bool :=
  let dev := minor r.dev
  if 5 * s.nrHd ≤ dev then (s, true)
  else (s.index .hd dev, s.hdSects dev < (r.sector + 2) % 4294967296)

/-- The request function of a driver. The one for floppies does not look at a request as long as
the controller is reset or recalibrated. -/
def doRequest (m : ℕ) (again : Bool) : Option System :=
  if m = 1 then serve tryRd 1 (s.queue 1) s
  else if m = 2 then if again then some s else serve tryFd 2 (s.queue 2) s
  else if m = 3 then serve tryHd 3 (s.queue 3) s
  else none

/-! ### Runs -/

end System

/-- What the tasks and the drivers do. -/
inductive Event
  | fork (t child : ℕ) (pid : ℤ)
  | setsid (t : ℕ) (suser : Bool)
  | dup (t fd arg : ℕ)
  | openFile (t fd : ℕ) (inode : Special)
  | close (t fd : ℕ)
  | rw (t fd count : ℕ)
  | ioctl (t fd : ℕ)
  | exit (t : ℕ)
  /-- A file system on a device uses a buffer. -/
  | fileSystem (dev : DevNo)
  | llRwBlock (dev : DevNo) (sector place : ℕ)
  | doRequest (m : ℕ) (again : Bool)
  /-- `end_request` for the current request. -/
  | endRequest (m : ℕ)

namespace System

/-- A special file that a task has opened. -/
def file (s : System) (t fd : ℕ) : Option (Task × Special) :=
  if nrOpen ≤ fd then none
  else (s.task t).bind fun p => (p.filp fd).map fun inode => (p, inode)

/-- The state after an event. -/
def next (s : System) : Event → Option System
  | .fork t child pid =>
    if child < nrTasks ∧ (s.task child).isNone then
      (s.task t).map fun p => s.setTask child { p with pid := pid, leader := false }
    else none
  | .setsid t suser => (s.task t).map fun p =>
    if p.leader ∧ suser = false then s
    else s.setTask t { p with leader := true, pgrp := p.pid, tty := -1 }
  | .dup t fd arg => (s.file t fd).bind fun f =>
    if arg < nrOpen ∧ (f.1.filp arg).isNone then
      some (s.setTask t { f.1 with filp := Function.update f.1.filp arg (some f.2) })
    else none
  | .openFile t fd inode => (s.task t).bind fun p =>
    if fd < nrOpen ∧ (p.filp fd).isNone then some (s.sysOpen t p fd inode) else none
  | .close t fd => (s.file t fd).map fun f => s.sysClose t f.1 fd
  | .rw t fd count => (s.file t fd).map fun f => s.sysRw f.1 f.2 count
  | .ioctl t fd => (s.file t fd).bind fun f => s.sysIoctl f.1 f.2
  | .exit t => (s.task t).map fun p => s.doExit t p
  | .fileSystem dev => some { s with buffers := dev :: s.buffers }
  | .llRwBlock dev sector place =>
    if dev ∈ s.buffers then some (s.llRwBlock dev sector place) else none
  | .doRequest m again => s.doRequest m again
  | .endRequest m =>
    match s.queue m with
    | [] => none
    | _ :: rest => some (s.setQueue m rest)

/-- At boot there is the task 0, and nothing has been opened, read or requested. -/
structure Boot (s : System) : Prop where
  task : s.task = Function.update (fun _ => none) 0 (some ⟨0, 0, false, -1, fun _ => none⟩)
  buffers : s.buffers = []
  queue : s.queue = fun _ => []
  log : s.log = []

/-- A step of the system. -/
def Step (s s' : System) : Prop := ∃ e, s.next e = some s'

end System

/-- The number of entries of a table. -/
def Table.size (nrHd : ℕ) : Table → ℕ
  | .tty => 3
  | .crw => crwTable.length
  | .ioctl => ioctlTable.length
  | .blkDev => nrBlkDev
  | .floppyType => 8
  | .hd => 5 * nrHd

/-- All indices into tables have been in range. -/
def System.InRange (s : System) : Prop := ∀ a ∈ s.log, a.2 < a.1.size s.nrHd

end LihaLinux.Devices
