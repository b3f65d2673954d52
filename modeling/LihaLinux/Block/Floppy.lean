import LihaLinux.Lib.StringOps
import LihaLinux.Lib.Transition

/-!
# The floppy driver

`floppy.c` as it goes from interrupt to interrupt, with its timers. What the controller does in an
event is given by `Fdc`: which bytes it takes and what it replies.
-/

namespace LihaLinux.Fd

/-- `READ` and `WRITE`. -/
inductive Cmd
  | read | write
  deriving DecidableEq

/-- `struct request`, with the number of the call of `make_request` that has filled it in. The
device is a minor number. -/
structure Request where
  id : ℕ
  dev : ℕ
  cmd : Cmd
  errors : ℕ
  sector : ℕ
  buffer : ℕ

/-- `struct floppy_struct`. -/
structure FloppyType where
  size : ℕ
  sect : ℕ
  head : ℕ
  stretch : ℕ
  spec1 : ℤ

/-- The functions that `do_floppy` can be. -/
inductive Handler
  | null | rw | seek | recal | reset
  deriving DecidableEq

/-- The functions that a timer can call. -/
inductive Timer
  | floppyOn | transfer

/-- What must not happen to `CURRENT`: it is read when it is `NULL`, or the next request is read in
place of the one that has failed. -/
inductive Fault
  | null | stale
  deriving DecidableEq

/-- What the controller does in an event: which groups of bytes it takes, the bytes that it replies
and whether it ends its reply, the drive in `current_DOR`, and whether the motor is running. At the
address of `errors` from `NULL` there is any number. -/
structure Fdc where
  sense : Bool
  specify : Bool
  seekCmd : Bool
  setup : Bool
  recal : Bool
  reply : List ℕ
  replyEnds : Bool
  dorDrive : ℕ
  running : Bool
  nullErrors : ℕ

/-- The driver, with the timers that it has set and a record of the calls of `end_request` and of
the faults. -/
structure Floppy where
  queue : List Request
  doFloppy : Handler
  timers : List Timer
  recalibrate : Bool
  reset : Bool
  seek : Bool
  curSpec1 : ℤ
  floppy : FloppyType
  currentDrive : ℕ
  seekTrack : ℕ
  currentTrack : ℕ
  command : Cmd
  /-- `reply_buffer`. -/
  replies : ℕ → ℕ
  nextId : ℕ
  ended : List (Request × Bool)
  faults : List Fault

namespace Floppy

variable (types : ℕ → FloppyType) (f : Fdc) (s : Floppy)

/-- Record a fault. -/
def fault (x : Fault) : Floppy := { s with faults := x :: s.faults }

/-- `output_byte` for a group of bytes. -/
def outputBytes (taken : Bool) : Floppy :=
  if s.reset then s else if taken then s else { s with reset := true }

/-- `result`. -/
def result : ℤ × Floppy :=
  if s.reset then (-1, s)
  else
    let s := { s with
      replies := fun i => if i < 7 then f.reply.getD i (s.replies i) else s.replies i }
    if f.replyEnds ∧ f.reply.length ≤ 7 then (f.reply.length, s) else (-1, { s with reset := true })

/-- `end_request`. -/
def endRequest (uptodate : Bool) : Floppy :=
  match s.queue with
  | [] => s.fault .null
  | r :: rest => { s with queue := rest, ended := (r, uptodate) :: s.ended }

/-- `if (CURRENT->errors > MAX_ERRORS/2)`, for the request that has failed. -/
def checkErrors (failed : ℕ) : Floppy :=
  match s.queue with
  | [] =>
    let s := s.fault .null
    if 4 < f.nullErrors then { s with reset := true } else { s with recalibrate := true }
  | r :: _ =>
    let s := if r.id = failed then s else s.fault .stale
    if 4 < r.errors then { s with reset := true } else { s with recalibrate := true }

/-- `bad_flp_intr`. -/
def badFlpIntr : Floppy :=
  match s.queue with
  | [] => s.fault .null
  | r :: rest =>
    let s := { s with queue := { r with errors := r.errors + 1 } :: rest }
    (if 8 < r.errors + 1 then s.endRequest false else s).checkErrors f r.id

/-- `reset_floppy`. -/
def resetFloppy : Floppy :=
  { s with reset := false, curSpec1 := -1, recalibrate := true, doFloppy := .reset }

/-- `if (reset) do_fd_request()`. -/
def requestIfReset : Floppy :=
  if s.reset then ({ s with seek := false } : Floppy).resetFloppy else s

/-- `recalibrate_floppy`. -/
def recalibrateFloppy : Floppy :=
  let s := { s with recalibrate := false, currentTrack := 0, doFloppy := .recal }
  (s.outputBytes f.recal).requestIfReset

/-- `setup_DMA` reads the buffer of `CURRENT`. -/
def setupDma : Floppy :=
  match s.queue with
  | [] => s.fault .null
  | _ :: _ => s

/-- `setup_rw_floppy`. -/
def setupRwFloppy : Floppy :=
  let s := { s.setupDma with doFloppy := .rw }
  (s.outputBytes f.setup).requestIfReset

/-- `transfer`. -/
def transfer : Floppy :=
  let s := if s.curSpec1 ≠ s.floppy.spec1 then
    ({ s with curSpec1 := s.floppy.spec1 } : Floppy).outputBytes f.specify else s
  if s.reset then s.requestIfReset
  else if s.seek then
    (({ s with doFloppy := .seek } : Floppy).outputBytes f.seekCmd).requestIfReset
  else s.setupRwFloppy f

/-- `floppy_on_interrupt`. -/
def floppyOnInterrupt : Floppy :=
  if s.currentDrive ≠ f.dorDrive then { s with timers := .transfer :: s.timers } else s.transfer f

/-- The beginning of the turn of a request: its floppy type and its drive. -/
def choose (r : Request) : Floppy :=
  { s with
    floppy := types (r.dev / 4)
    seek := s.seek || decide (s.currentDrive ≠ r.dev % 4)
    currentDrive := r.dev % 4 }

/-- The end of the turn of a request: its track and the motor. `add_timer` calls the function at
once when there are no ticks to wait. -/
def start (r : Request) : Floppy :=
  let track := r.sector / s.floppy.sect / s.floppy.head
  let seekTrack := (track <<< s.floppy.stretch) % 256
  let s := { s with
    seekTrack := seekTrack
    seek := s.seek || decide (seekTrack ≠ s.currentTrack)
    command := r.cmd }
  if f.running then s.floppyOnInterrupt f else { s with timers := .floppyOn :: s.timers }

/-- The loop at `repeat`, for the requests in the queue. -/
def takeRequest : List Request → Floppy → Floppy
  | [], s => s
  | r :: rest, s =>
    let s := s.choose types r
    if s.floppy.size < add32 r.sector 2 then takeRequest rest (s.endRequest false)
    else s.start f r

/-- `do_fd_request`. -/
def doFdRequest : Floppy :=
  let s := { s with seek := false }
  if s.reset then s.resetFloppy
  else if s.recalibrate then s.recalibrateFloppy f
  else takeRequest types f s.queue s

/-- `result() != 7 || (ST0 & 0xf8) || (ST1 & 0xbf) || (ST2 & 0x73)`. -/
def rwFails : Bool :=
  let r := s.result f
  decide (r.1 ≠ 7 ∨ r.2.replies 0 &&& 0xf8 ≠ 0 ∨ r.2.replies 1 &&& 0xbf ≠ 0 ∨
    r.2.replies 2 &&& 0x73 ≠ 0)

/-- `ST1 & 0x02`. -/
def writeProtected : Bool := decide ((s.result f).2.replies 1 &&& 0x02 ≠ 0)

/-- `rw_interrupt`. -/
def rwInterrupt : Floppy :=
  let s' := (s.result f).2
  if s.rwFails f then
    (if s.writeProtected f then s'.endRequest false else s'.badFlpIntr f).doFdRequest types f
  else
    let s' := if s'.command = .read then s'.setupDma else s'
    (s'.endRequest true).doFdRequest types f

/-- `result() != 2 || (ST0 & 0xF8) != 0x20 || ST1 != seek_track`, after `FD_SENSEI`. -/
def seekFails : Bool :=
  let r := (s.outputBytes f.sense).result f
  decide (r.1 ≠ 2 ∨ r.2.replies 0 &&& 0xF8 ≠ 0x20 ∨ r.2.replies 1 ≠ s.seekTrack)

/-- `seek_interrupt`. -/
def seekInterrupt : Floppy :=
  let s' := ((s.outputBytes f.sense).result f).2
  if s.seekFails f then (s'.badFlpIntr f).doFdRequest types f
  else ({ s' with currentTrack := s'.replies 1 } : Floppy).setupRwFloppy f

/-- `result()!=2 || (ST0 & 0xE0) == 0x60`, after `FD_SENSEI`. -/
def senseFails : Bool :=
  let r := (s.outputBytes f.sense).result f
  decide (r.1 ≠ 2 ∨ r.2.replies 0 &&& 0xE0 = 0x60)

/-- `recal_interrupt`. -/
def recalInterrupt : Floppy :=
  let s' := ((s.outputBytes f.sense).result f).2
  (if s.senseFails f then { s' with reset := true }
    else { s' with recalibrate := false } : Floppy).doFdRequest types f

/-- `unexpected_floppy_interrupt`. -/
def unexpectedInterrupt : Floppy :=
  let s' := ((s.outputBytes f.sense).result f).2
  if s.senseFails f then { s' with reset := true } else { s' with recalibrate := true }

/-- `reset_interrupt`. -/
def resetInterrupt : Floppy :=
  (((s.outputBytes f.sense).result f).2.outputBytes f.specify).doFdRequest types f

/-- `floppy_interrupt` with the function in `do_floppy`. -/
def interrupt : Floppy :=
  let s' := { s with doFloppy := .null }
  match s.doFloppy with
  | .null => s'.unexpectedInterrupt f
  | .rw => s'.rwInterrupt types f
  | .seek => s'.seekInterrupt types f
  | .recal => s'.recalInterrupt types f
  | .reset => s'.resetInterrupt types f

/-- A timer calls its function. -/
def timer : Timer → Floppy
  | .floppyOn => s.floppyOnInterrupt f
  | .transfer => s.transfer f

/-- `make_request` and `add_request`, which puts the request at any place after `CURRENT`. -/
def addRequest (dev : ℕ) (cmd : Cmd) (blocknr buffer place : ℕ) : Floppy :=
  let r : Request := ⟨s.nextId, dev, cmd, 0, mul32 blocknr 2, buffer⟩
  let s := { s with nextId := s.nextId + 1 }
  match s.queue with
  | [] => ({ s with queue := [r] } : Floppy).doFdRequest types f
  | q :: qs => { s with queue := q :: (qs.take place ++ r :: qs.drop place) }

end Floppy

/-- What happens: an interrupt, a timer, or a request of a process. -/
inductive Event
  | interrupt (f : Fdc)
  | timer (i : ℕ) (f : Fdc)
  | add (dev : ℕ) (cmd : Cmd) (blocknr buffer place : ℕ) (f : Fdc)

namespace Floppy

/-- The state after an event. -/
def next (types : ℕ → FloppyType) (s : Floppy) : Event → Option Floppy
  | .interrupt f => some (s.interrupt types f)
  | .timer i f =>
    match s.timers[i]? with
    | none => none
    | some x => some (({ s with timers := s.timers.eraseIdx i } : Floppy).timer f x)
  | .add dev cmd blocknr buffer place f =>
    some (s.addRequest types f dev cmd blocknr buffer place)

/-- The state after `floppy_init`. -/
structure Boot (s : Floppy) : Prop where
  queue : s.queue = []
  doFloppy : s.doFloppy = .null
  timers : s.timers = []
  faults : s.faults = []

end Floppy

end LihaLinux.Fd
