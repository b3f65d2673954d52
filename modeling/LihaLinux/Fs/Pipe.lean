import LihaLinux.Lib.Transition
import LihaLinux.Lib.Ring

/-!
# Pipes

`read_pipe` and `write_pipe` of `fs/pipe.c`, executed by any number of tasks on one
pipe inode. A call is cut at the places where its task can be suspended: the
`sleep_on` of the inner loops, and the copy of one byte from or to the user, which
can fault. Between two such places a task runs alone.
-/

namespace LihaLinux.Fs

/-- `PAGE_SIZE`. -/
def pageSize : ℕ := 4096

/-- The fields of a pipe's `struct m_inode`, and the page `i_size` points to. -/
structure Pipe where
  /-- `PIPE_HEAD`, that is `i_zone[0]`. -/
  head : ℕ
  /-- `PIPE_TAIL`, that is `i_zone[1]`. -/
  tail : ℕ
  /-- `i_count`, the readers and writers. -/
  iCount : ℕ
  /-- The page of the ring. -/
  page : ℕ → BitVec 8

namespace Pipe

/-- `PIPE_SIZE(inode)`: `(PIPE_HEAD-PIPE_TAIL)&(PAGE_SIZE-1)`. -/
def size (p : Pipe) : ℕ := (((p.head : ℤ) - (p.tail : ℤ)) % (pageSize : ℤ)).toNat

/-- `PIPE_HEAD += chars; PIPE_HEAD &= (PAGE_SIZE-1)`, on an `unsigned short`. -/
def advanceHead (p : Pipe) (chars : ℕ) : Pipe :=
  { p with head := (p.head + chars) % 2 ^ 16 % pageSize }

/-- `PIPE_TAIL += chars; PIPE_TAIL &= (PAGE_SIZE-1)`, on an `unsigned short`. -/
def advanceTail (p : Pipe) (chars : ℕ) : Pipe :=
  { p with tail := (p.tail + chars) % 2 ^ 16 % pageSize }

/-- A store into the page. -/
def store (p : Pipe) (i : ℕ) (b : BitVec 8) : Pipe :=
  { p with page := fun j => if j = i then b else p.page j }

end Pipe

/-- Which of the two functions a call executes. -/
inductive PipeFn
  | readPipe
  | writePipe
  deriving DecidableEq

/-- Where a call stands. -/
inductive PipeAt
  /-- The test of the outer loop; a task in `sleep_on` resumes here. -/
  | loop
  /-- The copy loop, with the ring index `size` and the `chars` still to be copied. -/
  | copy (size chars : ℕ)
  /-- Inside `put_fs_byte`, with the byte in a register. -/
  | put (byte : BitVec 8) (size chars : ℕ)
  deriving DecidableEq

/-- A call of `read_pipe` or `write_pipe` in progress. -/
structure PipeCall where
  fn : PipeFn
  /-- The user's buffer, read by `get_fs_byte`. -/
  buf : ℕ → BitVec 8
  /-- The argument `count`. -/
  requested : ℤ
  /-- The variable `count`. -/
  count : ℤ
  /-- The variable `read` or `written`. -/
  done : ℤ
  /-- The bytes copied so far. -/
  moved : List (BitVec 8)
  pos : PipeAt

/-- A call of `fn` with the arguments `buf` and `count`. -/
def PipeCall.enter (fn : PipeFn) (buf : ℕ → BitVec 8) (count : ℤ) : PipeCall :=
  { fn, buf, requested := count, count, done := 0, moved := [], pos := .loop }

/-- What a call does next. -/
inductive PipeAction
  /-- `sleep_on(&inode->i_wait)`. -/
  | sleep
  /-- Return a value. -/
  | ret (value : ℤ)
  /-- Take `chars` bytes of the ring and enter the copy loop. -/
  | claim (chars : ℕ)
  /-- Read the next byte of the ring, for `put_fs_byte`. -/
  | fetch (size chars : ℕ)
  /-- Complete `put_fs_byte`. -/
  | deliver (byte : BitVec 8) (size chars : ℕ)
  /-- `get_fs_byte`, and the store into the ring. -/
  | accept (size chars : ℕ)
  /-- Leave the copy loop. -/
  | leave
  deriving DecidableEq

/-- The body of `read_pipe`, from the place where the call stands. -/
def readPipe (p : Pipe) (c : PipeCall) : PipeAction :=
  match c.pos with
  | .loop =>
    if c.count ≤ 0 then .ret c.done
    else if p.size = 0 then
      if p.iCount ≠ 2 then .ret c.done else .sleep
    else .claim (min (min (pageSize - p.tail) c.count.toNat) p.size)
  | .copy size (chars + 1) => .fetch size chars
  | .copy _ 0 => .leave
  | .put byte size chars => .deliver byte size chars

/-- The body of `write_pipe`, from the place where the call stands. -/
def writePipe (p : Pipe) (c : PipeCall) : PipeAction :=
  match c.pos with
  | .loop =>
    if c.count ≤ 0 then .ret c.done
    else if (pageSize - 1) - p.size = 0 then
      if p.iCount ≠ 2 then .ret (if c.done ≠ 0 then c.done else -1) else .sleep
    else .claim (min (min (pageSize - p.head) c.count.toNat) ((pageSize - 1) - p.size))
  | .copy size (chars + 1) => .accept size chars
  | .copy _ 0 => .leave
  | .put _ _ _ => .leave

/-- The next action of a call. -/
def PipeCall.next (p : Pipe) (c : PipeCall) : PipeAction :=
  match c.fn with
  | .readPipe => readPipe p c
  | .writePipe => writePipe p c

/-- A pipe, the calls on it, and the bytes that have gone through it. -/
structure PipeSystem (τ : Type*) where
  pipe : Pipe
  /-- The call each task is in. -/
  call : τ → Option PipeCall
  /-- The task that runs inside a call. -/
  current : Option τ
  /-- All bytes accepted by `write_pipe`, in order. -/
  accepted : List (BitVec 8)
  /-- All bytes delivered by `read_pipe`, in order. -/
  delivered : List (BitVec 8)

namespace PipeSystem

variable {τ : Type*} [DecidableEq τ]

/-- Replace the call of one task. -/
def setCall (s : PipeSystem τ) (t : τ) (c : Option PipeCall) : PipeSystem τ :=
  { s with call := fun u => if u = t then c else s.call u }

@[simp]
theorem setCall_accepted (s : PipeSystem τ) (t : τ) (c : Option PipeCall) :
    (s.setCall t c).accepted = s.accepted := rfl

@[simp]
theorem setCall_delivered (s : PipeSystem τ) (t : τ) (c : Option PipeCall) :
    (s.setCall t c).delivered = s.delivered := rfl

/-- The task in a call is suspended: another one may run. -/
def switch (s : PipeSystem τ) : PipeSystem τ := { s with current := none }

/-- The effect of an action of task `t`, which is in the call `c`. -/
def perform (s : PipeSystem τ) (t : τ) (c : PipeCall) : PipeAction → PipeSystem τ
  | .sleep => s.switch
  | .ret _ => (s.setCall t none).switch
  | .claim chars =>
    let c' (size : ℕ) : PipeCall :=
      { c with count := c.count - chars, done := c.done + chars, pos := .copy size chars }
    match c.fn with
    | .readPipe => { s.setCall t (some (c' s.pipe.tail)) with pipe := s.pipe.advanceTail chars }
    | .writePipe => { s.setCall t (some (c' s.pipe.head)) with pipe := s.pipe.advanceHead chars }
  | .fetch size chars =>
    s.setCall t (some { c with pos := .put (s.pipe.page size) (size + 1) chars })
  | .deliver byte size chars =>
    { s.setCall t (some { c with moved := c.moved ++ [byte], pos := .copy size chars }) with
      delivered := s.delivered ++ [byte] }
  | .accept size chars =>
    let byte := c.buf c.moved.length
    { s.setCall t (some { c with moved := c.moved ++ [byte], pos := .copy (size + 1) chars }) with
      pipe := s.pipe.store size byte
      accepted := s.accepted ++ [byte] }
  | .leave => s.setCall t (some { c with pos := .loop })

end PipeSystem

/-- What can happen on a pipe. -/
inductive PipeEvent (τ : Type*)
  /-- A task enters `read_pipe` or `write_pipe`. -/
  | enter (t : τ) (fn : PipeFn) (buf : ℕ → BitVec 8) (count : ℤ)
  /-- A suspended task resumes its call. -/
  | resume (t : τ)
  /-- The running task goes on to its next action. -/
  | exec (t : τ)
  /-- The copy of a byte by the running task faults, and `do_no_page` sleeps. -/
  | fault (t : τ)
  /-- Outside the calls, `i_count` changes. -/
  | count (n : ℕ)

/-- A call stands where a byte is copied from or to the user. -/
def PipeCall.AtUserByte (c : PipeCall) : Prop :=
  match c.fn, c.pos with
  | .readPipe, .put _ _ _ => True
  | .writePipe, .copy _ (_ + 1) => True
  | _, _ => False

/-- The steps of the tasks on a pipe, each with its event. -/
inductive PipeStep {τ : Type*} [DecidableEq τ] :
    PipeSystem τ → PipeEvent τ → PipeSystem τ → Prop
  | enter {s : PipeSystem τ} {t : τ} {fn : PipeFn} {buf : ℕ → BitVec 8} {count : ℤ}
      (hcurrent : s.current = none) (hcall : s.call t = none) :
      PipeStep s (.enter t fn buf count)
        { s.setCall t (some (.enter fn buf count)) with current := some t }
  | resume {s : PipeSystem τ} {t : τ} {c : PipeCall}
      (hcurrent : s.current = none) (hcall : s.call t = some c) :
      PipeStep s (.resume t) { s with current := some t }
  | exec {s : PipeSystem τ} {t : τ} {c : PipeCall}
      (hcurrent : s.current = some t) (hcall : s.call t = some c) :
      PipeStep s (.exec t) (s.perform t c (c.next s.pipe))
  | fault {s : PipeSystem τ} {t : τ} {c : PipeCall}
      (hcurrent : s.current = some t) (hcall : s.call t = some c) (hbyte : c.AtUserByte) :
      PipeStep s (.fault t) s.switch
  | count {s : PipeSystem τ} {n : ℕ} (hcurrent : s.current = none) :
      PipeStep s (.count n) { s with pipe := { s.pipe with iCount := n } }

instance (c : PipeCall) : Decidable c.AtUserByte := by
  unfold PipeCall.AtUserByte
  split <;> infer_instance

/-- The state after an event, if the event can happen. -/
def PipeSystem.step {τ : Type*} [DecidableEq τ] (s : PipeSystem τ) :
    PipeEvent τ → Option (PipeSystem τ)
  | .enter t fn buf count =>
    if s.current = none ∧ (s.call t).isNone then
      some { s.setCall t (some (.enter fn buf count)) with current := some t }
    else none
  | .resume t =>
    if s.current = none ∧ (s.call t).isSome then some { s with current := some t } else none
  | .exec t =>
    match s.call t with
    | some c => if s.current = some t then some (s.perform t c (c.next s.pipe)) else none
    | none => none
  | .fault t =>
    match s.call t with
    | some c => if s.current = some t ∧ c.AtUserByte then some s.switch else none
    | none => none
  | .count n =>
    if s.current = none then some { s with pipe := { s.pipe with iCount := n } } else none

/-- The executable form of the steps is sound. -/
theorem PipeStep.of_step {τ : Type*} [DecidableEq τ] {s s' : PipeSystem τ} {e : PipeEvent τ}
    (h : s.step e = some s') : PipeStep s e s' := by
  cases e with
  | enter t fn buf count =>
    simp only [PipeSystem.step, Option.ite_none_right_eq_some, Option.some.injEq] at h
    obtain ⟨⟨hcurrent, hcall⟩, rfl⟩ := h
    exact .enter hcurrent (by simpa using hcall)
  | resume t =>
    simp only [PipeSystem.step, Option.ite_none_right_eq_some, Option.some.injEq] at h
    obtain ⟨⟨hcurrent, hcall⟩, rfl⟩ := h
    obtain ⟨c, hc⟩ := Option.isSome_iff_exists.mp hcall
    exact .resume hcurrent hc
  | exec t =>
    cases hc : s.call t with
    | none => simp [PipeSystem.step, hc] at h
    | some c =>
      simp only [PipeSystem.step, hc, Option.ite_none_right_eq_some, Option.some.injEq] at h
      obtain ⟨hcurrent, rfl⟩ := h
      exact .exec hcurrent hc
  | fault t =>
    cases hc : s.call t with
    | none => simp [PipeSystem.step, hc] at h
    | some c =>
      simp only [PipeSystem.step, hc, Option.ite_none_right_eq_some, Option.some.injEq] at h
      obtain ⟨⟨hcurrent, hbyte⟩, rfl⟩ := h
      exact .fault hcurrent hc hbyte
  | count n =>
    simp only [PipeSystem.step, Option.ite_none_right_eq_some, Option.some.injEq] at h
    obtain ⟨hcurrent, rfl⟩ := h
    exact .count hcurrent

/-- The pipe that `get_pipe_inode` returns, with no call on it. -/
structure PipeBoot {τ : Type*} (s : PipeSystem τ) : Prop where
  head : s.pipe.head = 0
  tail : s.pipe.tail = 0
  iCount : s.pipe.iCount = 2
  call : ∀ t, s.call t = none
  current : s.current = none
  accepted : s.accepted = []
  delivered : s.delivered = []

/-- The events that suspend a task outside `sleep_on`. -/
def PipeEvent.isFault {τ : Type*} : PipeEvent τ → Bool
  | .fault _ => true
  | _ => false

/-- The steps in which tasks switch at `sleep_on` only. -/
def SleepStep {τ : Type*} [DecidableEq τ] (s s' : PipeSystem τ) : Prop :=
  ∃ e, PipeStep s e s' ∧ e.isFault = false

/-- The state after an event that is not a fault. -/
def PipeSystem.sleepStep {τ : Type*} [DecidableEq τ] (s : PipeSystem τ) (e : PipeEvent τ) :
    Option (PipeSystem τ) :=
  if e.isFault = false then s.step e else none

/-- The executable form of these steps is sound. -/
theorem SleepStep.of_sleepStep {τ : Type*} [DecidableEq τ] (s : PipeSystem τ) (e : PipeEvent τ)
    (s' : PipeSystem τ) (h : s.sleepStep e = some s') : SleepStep s s' := by
  simp only [PipeSystem.sleepStep, Option.ite_none_right_eq_some] at h
  exact ⟨e, .of_step h.2, h.1⟩

/-- A new pipe with no call on it. -/
def PipeSystem.boot (τ : Type*) : PipeSystem τ :=
  { pipe := { head := 0, tail := 0, iCount := 2, page := fun _ => 0 }
    call := fun _ => none, current := none, accepted := [], delivered := [] }

theorem PipeSystem.boot_init (τ : Type*) : PipeBoot (PipeSystem.boot τ) := by
  constructor <;> simp [PipeSystem.boot]

end LihaLinux.Fs
