import LihaLinux.Kernel.Signals
import LihaLinux.Kernel.SleepOn

/-!
# Processes

The task table with what `fork`, `do_exit`, `sys_waitpid`, `sys_kill` and `schedule` use of it.
The kernel is not preempted: a call runs up to the place where it calls `schedule`, and what it
does after that is another step. `do_exit` can sleep in `iput` between giving its children away
and becoming a zombie.
-/

namespace LihaLinux.Kernel

/-- `NR_TASKS`. -/
def nrTasks : ℕ := 64

/-- `SIGHUP`. -/
def sigHup : ℕ := 1

/-- `SIGSTOP`. -/
def sigStop : ℕ := 19

/-- `_BLOCKABLE`. -/
def blockable : BitVec 32 := ~~~(sigBit sigKill ||| sigBit sigStop)

/-- Where a task is in the kernel. -/
inductive ProcPos
  /-- In user mode or in a call that does not concern the task table. -/
  | user
  /-- In `sys_waitpid`, in or after `schedule`. -/
  | waiting (pid : ℤ) (options : ℕ)
  /-- In `do_exit`, after the loop over the children. -/
  | exiting
  deriving DecidableEq

/-- `struct task_struct`, as far as it concerns the task table. -/
structure Proc where
  pid : ℤ
  father : ℤ
  pgrp : ℤ
  session : ℤ
  leader : Bool
  euid : ℕ
  state : TaskState
  signal : BitVec 32
  blocked : BitVec 32
  exitCode : ℤ
  pos : ProcPos
  /-- A number that no other task has ever had; no code reads this. -/
  serial : ℕ
  deriving DecidableEq

/-- The task table. -/
structure Processes where
  task : ℕ → Option Proc
  /-- `last_pid`. -/
  lastPid : ℤ
  nextSerial : ℕ
  /-- The tasks that `sys_waitpid` has reported; no code reads this. -/
  reports : List ℕ

namespace Processes

/-- Change every task. -/
def mapTasks (s : Processes) (f : ℕ → Proc → Proc) : Processes :=
  { s with task := fun i => (s.task i).map (f i) }

/-- Change one task. -/
def modify (s : Processes) (t : ℕ) (f : Proc → Proc) : Processes :=
  s.mapTasks fun i p => if i = t then f p else p

/-- Set bits of `signal`. -/
def addSignal (bits : BitVec 32) (p : Proc) : Proc := { p with signal := p.signal ||| bits }

/-! ### `fork` -/

/-- `++last_pid`, with 1 after the largest number. -/
def bumpPid (pid : ℤ) : ℤ := if pid + 1 = 2147483648 then 1 else pid + 1

/-- Whether a task has a number. -/
def pidInUse (s : Processes) (pid : ℤ) : Bool :=
  (List.range nrTasks).any fun i => (s.task i).any fun p => p.pid = pid

/-- The loop of `find_empty_process` for a new number. -/
def findPid (s : Processes) : ℕ → ℤ → Option ℤ
  | 0, _ => none
  | n + 1, pid =>
    if s.pidInUse (bumpPid pid) then findPid s n (bumpPid pid) else some (bumpPid pid)

/-- The loop of `find_empty_process` for an entry. -/
def freeTask (s : Processes) : Option ℕ :=
  (List.range nrTasks).find? fun i => i ≠ 0 && (s.task i).isNone

/-- The new task of `copy_process`. -/
def child (s : Processes) (p : Proc) (pid : ℤ) : Proc :=
  { p with
    pid
    father := p.pid
    state := .running
    signal := 0
    leader := false
    pos := .user
    serial := s.nextSerial }

/-- `find_empty_process` and `copy_process`, which may fail for want of memory. -/
def fork (s : Processes) (p : Proc) (ok : Bool) : Option Processes :=
  (s.findPid (nrTasks + 1) s.lastPid).map fun pid =>
    match s.freeTask, ok with
    | some nr, true => { s with
        task := Function.update s.task nr (some (s.child p pid))
        lastPid := pid
        nextSerial := s.nextSerial + 1 }
    | _, _ => { s with lastPid := pid }

/-! ### `do_exit` -/

/-- Whether a task has a child that is a zombie. -/
def hasZombie (s : Processes) (pid : ℤ) : Bool :=
  (List.range nrTasks).any fun i => (s.task i).any fun q => q.father = pid && q.state = .zombie

/-- The loop of `do_exit` over the children. -/
def giveAway (s : Processes) (pid : ℤ) : Processes :=
  let s' := s.mapTasks fun _ q => if q.father = pid then { q with father := 1 } else q
  if s.hasZombie pid then s'.modify 1 (addSignal (sigBit sigChld)) else s'

/-- `do_exit` up to where it can sleep. -/
def exitBegin (s : Processes) (t : ℕ) (p : Proc) : Processes :=
  (s.giveAway p.pid).modify t fun p => { p with pos := .exiting }

/-- `kill_session`. -/
def killSession (s : Processes) (session : ℤ) : Processes :=
  s.mapTasks fun i q => if i ≠ 0 ∧ q.session = session then addSignal (sigBit sigHup) q else q

/-- The first task with a number. -/
def findTask (s : Processes) (pid : ℤ) : Option ℕ :=
  (List.range nrTasks).find? fun i => (s.task i).any fun p => p.pid = pid

/-- `release`: free an entry of the table. -/
def release (s : Processes) (t : ℕ) : Processes := { s with task := Function.update s.task t none }

/-- `tell_father`: a task without a father releases itself. -/
def tellFather (s : Processes) (t : ℕ) (father : ℤ) : Processes :=
  match if father = 0 then none else s.findTask father with
  | some i => s.modify i (addSignal (sigBit sigChld))
  | none => s.release t

/-- The rest of `do_exit`. -/
def exitEnd (s : Processes) (t : ℕ) (p : Proc) (code : ℤ) : Processes :=
  let s' := if p.leader then s.killSession p.session else s
  (s'.modify t fun p => { p with state := .zombie, exitCode := code }).tellFather t p.father

/-! ### `sys_waitpid` -/

/-- `WNOHANG`. -/
def wNoHang (options : ℕ) : Bool := options % 2 = 1

/-- `WUNTRACED`. -/
def wUntraced (options : ℕ) : Bool := options / 2 % 2 = 1

/-- Whether `sys_waitpid` of the task `p` with a number looks at the task `q`. -/
def waitsFor (p : Proc) (pid : ℤ) (q : Proc) : Bool :=
  q.father = p.pid &&
    if 0 < pid then q.pid = pid else if pid = 0 then q.pgrp = p.pgrp
      else pid = -1 || q.pgrp = -pid

/-- What the loop of `sys_waitpid` finds. -/
inductive Found
  /-- A stopped child. -/
  | stopped
  /-- A zombie. -/
  | zombie (i : ℕ)
  /-- Neither; whether there are children at all. -/
  | none (flag : Bool)
  deriving DecidableEq

/-- The loop of `sys_waitpid` over the entries from `i` down to 1. -/
def findChild (s : Processes) (t : ℕ) (p : Proc) (pid : ℤ) (options : ℕ) : ℕ → Bool → Found
  | 0, flag => .none flag
  | i + 1, flag =>
    match s.task (i + 1) with
    | none => findChild s t p pid options i flag
    | some q =>
      if i + 1 = t ∨ waitsFor p pid q = false then findChild s t p pid options i flag
      else if q.state = .stopped then
        if wUntraced options then .stopped else findChild s t p pid options i flag
      else if q.state = .zombie then .zombie (i + 1)
      else findChild s t p pid options i true

/-- `sys_waitpid` from `repeat` up to the return or to `schedule`. -/
def sysWaitpid (s : Processes) (t : ℕ) (p : Proc) (pid : ℤ) (options : ℕ) : Processes :=
  match s.findChild t p pid options (nrTasks - 1) false with
  | .zombie i =>
    { s.release i with reports := ((s.task i).map Proc.serial).toList ++ s.reports }
  | .none true =>
    if wNoHang options then s
    else s.modify t fun p => { p with state := .interruptible, pos := .waiting pid options }
  | _ => s

/-- The rest of `sys_waitpid`, after `schedule`. -/
def resume (s : Processes) (t : ℕ) (p : Proc) (pid : ℤ) (options : ℕ) : Processes :=
  let signal := p.signal &&& ~~~sigBit sigChld
  let s' := s.modify t fun p => { p with signal, pos := .user }
  if signal = 0 then s'.sysWaitpid t p pid options else s'

/-! ### Signals -/

/-- `EPERM`. -/
def ePerm : ℤ := 1

/-- `EINVAL`. -/
def eInval : ℤ := 22

/-- `send_sig` to a task: the task, and what is returned. -/
def sendSig (cur : Proc) (sig : ℤ) (priv : Bool) (p : Proc) : Proc × ℤ :=
  if sig < 1 ∨ 32 < sig then (p, -eInval)
  else if priv || decide (cur.euid = p.euid) || decide (cur.euid = 0) then
    (addSignal (sigBit sig.toNat) p, 0)
  else (p, -ePerm)

/-- `if (err=send_sig(...)) retval = err`. -/
def keepErr (retval err : ℤ) : ℤ := if err = 0 then retval else err

/-- A loop of `sys_kill` over the entries from `i` down to 1, for the tasks that are selected. -/
def killLoop (cur : Proc) (sig : ℤ) (select : Proc → Bool) (priv : Bool) :
    ℕ → Processes → ℤ → Processes × ℤ
  | 0, s, retval => (s, retval)
  | i + 1, s, retval =>
    match s.task (i + 1) with
    | none => killLoop cur sig select priv i s retval
    | some p =>
      if select p then
        killLoop cur sig select priv i (s.modify (i + 1) fun p => (sendSig cur sig priv p).1)
          (keepErr retval (sendSig cur sig priv p).2)
      else killLoop cur sig select priv i s retval

/-- The loop of `sys_kill` for the number -1 over the entries from `i` down to 1. The `else` after
it belongs to the test of `err`, so that the first task that gets the signal starts the loop for
the process group `-pid`, which is 1. -/
def killAll (cur : Proc) (sig : ℤ) : ℕ → Processes → ℤ → Processes × ℤ
  | 0, s, retval => (s, retval)
  | i + 1, s, retval =>
    match s.task (i + 1) with
    | none => killAll cur sig i s (-eInval)
    | some p =>
      if (sendSig cur sig false p).2 ≠ 0 then killAll cur sig i s (sendSig cur sig false p).2
      else
        killLoop cur sig (fun q => q.pgrp = 1) false i
          (s.modify (i + 1) fun p => (sendSig cur sig false p).1) retval

/-- `sys_kill`: the tasks, and what is returned. The `else` for the numbers below -1 is in the loop
for -1. -/
def sysKill (s : Processes) (cur : Proc) (pid sig : ℤ) : Processes × ℤ :=
  if pid = 0 then killLoop cur sig (fun p => p.pgrp = cur.pid) true (nrTasks - 1) s 0
  else if 0 < pid then killLoop cur sig (fun p => p.pid = pid) false (nrTasks - 1) s 0
  else if pid = -1 then killAll cur sig (nrTasks - 1) s 0
  else (s, 0)

/-- The number of the first signal that `ret_from_sys_call` finds. -/
def firstSig (p : Proc) : Option ℕ :=
  ((List.range 32).find? fun i => (p.signal &&& ~~~p.blocked).getLsbD i).map (· + 1)

/-- `ret_from_sys_call` takes a signal, and `do_signal` adds `mask` to the mask of the task. -/
def takeSignal (signr : ℕ) (mask : BitVec 32) (p : Proc) : Proc :=
  { p with signal := p.signal &&& ~~~sigBit signr, blocked := p.blocked ||| mask }

/-- `sys_ssetmask`. -/
def sysSsetmask (newmask : BitVec 32) (p : Proc) : Proc :=
  { p with blocked := newmask &&& ~~~sigBit sigKill }

/-- The test of `schedule` for a signal that wakes a task. -/
def wakeSignal (p : Proc) : Proc :=
  if p.signal &&& ~~~(blockable &&& p.blocked) ≠ 0 ∧ p.state = .interruptible then
    { p with state := .running }
  else p

/-- The loop of `schedule` over the signals. -/
def scan (s : Processes) : Processes := s.mapTasks fun i p => if i = 0 then p else wakeSignal p

end Processes

/-! ### Runs -/

/-- What can happen to the task table. -/
inductive ProcEvent
  | fork (t : ℕ) (ok : Bool)
  | exitBegin (t : ℕ)
  | exitEnd (t : ℕ) (code : ℤ)
  | waitpid (t : ℕ) (pid : ℤ) (options : ℕ)
  | resume (t : ℕ)
  | ssetmask (t : ℕ) (newmask : BitVec 32)
  | kill (t : ℕ) (pid sig : ℤ)
  /-- A task takes a signal on its way to user mode. -/
  | deliver (t : ℕ) (mask : BitVec 32)
  /-- A signal from the clock, a terminal or a pipe. -/
  | send (t sig : ℕ)
  | schedule
  deriving DecidableEq

/-- The task that is in `sys_waitpid`. -/
def ProcEvent.waiter : ProcEvent → Option ℕ
  | .waitpid t _ _ => some t
  | .resume t => some t
  | _ => none

namespace Processes

/-- What a runnable task does in user mode. -/
def user (s : Processes) (t : ℕ) (f : Proc → Option Processes) : Option Processes :=
  (s.task t).bind fun p => if p.state = .running ∧ p.pos = .user then f p else none

/-- The next state of the task table. Task 0 forks once, before any other task is there, and then
only pauses, and task 1 does not exit. -/
def next (s : Processes) : ProcEvent → Option Processes
  | .fork t ok => s.user t fun p => if t = 0 → s.lastPid = 0 then s.fork p ok else none
  | .exitBegin t => s.user t fun p => if 2 ≤ t then some (s.exitBegin t p) else none
  | .exitEnd t code =>
    (s.task t).bind fun p =>
      if p.state = .running ∧ p.pos = .exiting then some (s.exitEnd t p code) else none
  | .waitpid t pid options =>
    s.user t fun p => if t = 0 then none else some (s.sysWaitpid t p pid options)
  | .resume t =>
    (s.task t).bind fun p =>
      match p.pos with
      | .waiting pid options =>
        if p.state = .running then some (s.resume t p pid options) else none
      | _ => none
  | .ssetmask t newmask => s.user t fun _ => some (s.modify t (sysSsetmask newmask))
  | .kill t pid sig => s.user t fun p => some (s.sysKill p pid sig).1
  | .deliver t mask =>
    s.user t fun p =>
      if t = 0 then none else (firstSig p).map fun signr => s.modify t (takeSignal signr mask)
  | .send t sig => some (s.modify t (addSignal (sigBit sig)))
  | .schedule => some s.scan

/-- `INIT_TASK`. -/
def initTask : Proc where
  pid := 0
  father := -1
  pgrp := 0
  session := 0
  leader := false
  euid := 0
  state := .running
  signal := 0
  blocked := 0
  exitCode := 0
  pos := .user
  serial := 0

/-- The task table after the boot. -/
def boot : Processes where
  task t := if t = 0 then some initTask else none
  lastPid := 0
  nextSerial := 1
  reports := []

/-- Any event. -/
def Step (s s' : Processes) : Prop := ∃ e, s.next e = some s'

end Processes

end LihaLinux.Kernel
