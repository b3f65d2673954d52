import LihaLinux.Kernel.InterruptibleSleep
import LihaLinux.Lib.Transition
import LihaLinux.Tty.Read

/-!
# The serial lines

A serial line is shared by the tasks, which put characters into `write_q` and take them from
`secondary`, and by the interrupt routine of `rs_io.s`, which may run between any two of their
steps. `rs_write` switches the transmit interrupt on, and the routine switches it off when
`write_q` is empty. The interrupt routine makes the task in `proc_list` runnable without taking it
from the queue.
-/

namespace LihaLinux.Tty

open LihaLinux.Kernel

/-- What the kernel sees of the 8250: the interrupt enable register, and the characters that have
been stored for transmission. -/
structure Uart where
  ier : BitVec 8
  sent : List ℕ

/-- The queues of a line on which tasks sleep. -/
inductive LineQueue
  | write
  | secondary
  deriving DecidableEq

/-- A serial line, its tasks, and what has passed through it. -/
structure SerialLine (τ : Type*) where
  tty : TtyStruct Uart
  tasks : Sleepers LineQueue τ
  /-- A task is in `tty_write` after its loop has begun and before `rs_write`. -/
  writing : Bool
  /-- The characters that `tty_write` has queued. -/
  put : List ℕ
  /-- The characters that `read_char` has kept. -/
  kept : List ℕ
  /-- The characters that `tty_read` has taken. -/
  taken : List ℕ

/-- What happens to a line. -/
inductive LineEvent (τ : Type*)
  /-- `PUTCH` in the loop of `tty_write`. -/
  | putch (c : ℕ)
  /-- `tty->write(tty)`. -/
  | rsWrite
  /-- `GETCH` in the loop of `tty_read`. -/
  | getch
  /-- An interrupt, with the identifications that the routine reads, and what it finds in the data
  register for each. -/
  | interrupt (ids : List (BitVec 8 × BitVec 8))
  /-- The tasks sleep and run. -/
  | task (e : SleepersEvent LineQueue τ)

/-! ### The driver -/

/-- `rs_write`. -/
def TtyStruct.rsWrite (t : TtyStruct Uart) : TtyStruct Uart :=
  if t.writeQ.isEmpty then t
  else { t with driver := { t.driver with ier := t.driver.ier ||| 2 } }

namespace SerialLine

variable {τ : Type*} [DecidableEq τ]

/-- `movl $0,(%ebx)` for the task in `proc_list` of the write queue, if there is one. -/
def wakeWriter (s : SerialLine τ) : SerialLine τ :=
  { s with tasks := { s.tasks with
    state := SleepQueue.wake s.tasks.state (s.tasks.head .write) } }

/-- `write_buffer_empty`. -/
def writeBufferEmpty (s : SerialLine τ) : SerialLine τ :=
  let s := s.wakeWriter
  { s with tty := { s.tty with
    driver := { s.tty.driver with ier := s.tty.driver.ier &&& 0xd } } }

/-- `outb %al,%dx` for the first character of the write queue, and its new `tail`. -/
def transmit (s : SerialLine τ) : SerialLine τ :=
  { s with tty := { s.tty with
    writeQ := s.tty.writeQ.inc
    driver := { s.tty.driver with sent := s.tty.driver.sent ++ [s.tty.writeQ.first] } } }

/-- `write_char`. -/
def writeChar (s : SerialLine τ) : SerialLine τ :=
  if s.tty.writeQ.chars = 0 then s.writeBufferEmpty
  else
    let s := if 256 < s.tty.writeQ.chars then s else s.wakeWriter
    let s := s.transmit
    if s.tty.writeQ.isEmpty then s.writeBufferEmpty else s

/-- `do_tty_interrupt`: `copy_to_cooked`, with the `wake_up` at its end. -/
def doTtyInterrupt (s : SerialLine τ) : Option (SerialLine τ) :=
  (TtyStruct.copyToCooked (fun t => some t.rsWrite) 1024 s.tty).map fun t =>
    { s with tty := t, tasks := s.tasks.wakeUp .secondary }

/-- `read_char` up to the call: the character is stored at `head`, and `head` goes on if it does
not meet `tail`. -/
def store (s : SerialLine τ) (c : ℕ) : SerialLine τ :=
  let q := s.tty.readQ.putch c
  if q.head = s.tty.readQ.tail then
    { s with tty := { s.tty with readQ := { s.tty.readQ with buf := q.buf } } }
  else { s with tty := { s.tty with readQ := q }, kept := s.kept ++ [c] }

/-- `read_char`. -/
def readChar (s : SerialLine τ) (c : ℕ) : Option (SerialLine τ) := (s.store c).doTtyInterrupt

/-- The call through `jmp_table`. `modem_status` and `line_status` read a register and drop what
they find. -/
def serve (s : SerialLine τ) (id data : BitVec 8) : Option (SerialLine τ) :=
  if id = 2 then some s.writeChar
  else if id = 4 then s.readChar data.toNat
  else some s

/-- `rs_int`: identifications are served until there is no interrupt, or one that should not
happen. -/
def rsInt (s : SerialLine τ) : List (BitVec 8 × BitVec 8) → Option (SerialLine τ)
  | [] => some s
  | (id, data) :: ids =>
    if id.getLsbD 0 || decide (6 < id.toNat) then some s
    else (s.serve id data).bind fun s => rsInt s ids

/-- When a task goes to sleep: in `sleep_if_full`, at the beginning of the loop of `tty_write`,
with less than 128 characters left, and in `sleep_if_empty`. No task calls `wake_up` for the write
queue. -/
def allows (s : SerialLine τ) : SleepersEvent LineQueue τ → Bool
  | .sleepOn .write _ => !s.writing && decide (s.tty.writeQ.left < 128)
  | .sleepOn .secondary _ => s.tty.secondary.isEmpty
  | .wakeUp .write => false
  | _ => true

/-- The next state of a line. -/
def next (s : SerialLine τ) : LineEvent τ → Option (SerialLine τ)
  | .putch c =>
    if s.tty.writeQ.full then none
    else some { s with tty := s.tty.putWrite c, writing := true, put := s.put ++ [c] }
  | .rsWrite => some { s with tty := s.tty.rsWrite, writing := false }
  | .getch =>
    if s.tty.secondary.isEmpty then none
    else some { s with tty := s.tty.getch, taken := s.taken ++ [s.tty.secondary.first] }
  | .interrupt ids => s.rsInt ids
  | .task e =>
    if s.allows e then (s.tasks.next e).map fun tasks => { s with tasks } else none

/-- Any event. -/
def Step (s s' : SerialLine τ) : Prop := ∃ e, s.next e = some s'

/-- Neither `ICANON` nor `ISIG` nor `ECHO`, as in `tty_table` for both lines. -/
structure Plain (m : Termios) : Prop where
  canon : m.canon = false
  isig : m.isig = false
  echo : m.echo = false

/-- A line after `rs_init`. -/
structure Start (s : SerialLine τ) : Prop where
  plain : Plain s.tty.termios
  readQ : s.tty.readQ = .empty
  writeQ : s.tty.writeQ = .empty
  secondary : s.tty.secondary = .empty
  driver : s.tty.driver = ⟨0xd, []⟩
  tasks : s.tasks.Initial
  put : s.put = []
  kept : s.kept = []
  taken : s.taken = []

/-! ### Received characters -/

/-- What the input of a line leaves alone. -/
structure SameOutput (t t' : TtyStruct Uart) : Prop where
  termios : t'.termios = t.termios
  writeQ : t'.writeQ = t.writeQ
  driver : t'.driver = t.driver

theorem SameOutput.trans {t t' t'' : TtyStruct Uart} (h : SameOutput t t')
    (h' : SameOutput t' t'') : SameOutput t t'' :=
  ⟨h'.termios.trans h.termios, h'.writeQ.trans h.writeQ, h'.driver.trans h.driver⟩

section Input

variable (write : TtyStruct Uart → Option (TtyStruct Uart)) {t : TtyStruct Uart}

theorem countTerm_same (t : TtyStruct Uart) (c : ℕ) : SameOutput t (t.countTerm c) ∧
    (t.countTerm c).readQ = t.readQ ∧ (t.countTerm c).secondary = t.secondary := by
  rw [TtyStruct.countTerm]
  split_ifs with hterm
  · exact ⟨⟨rfl, rfl, rfl⟩, rfl, rfl⟩
  · exact ⟨⟨rfl, rfl, rfl⟩, rfl, rfl⟩

/-- A plain line stores what it receives. -/
theorem cookChar_plain (hplain : Plain t.termios) (hroom : t.secondary.full = false) (n c : ℕ) :
    ∃ t', TtyStruct.cookChar write n t c = some t' ∧ SameOutput t t' ∧ t'.readQ = t.readQ ∧
      t'.secondary.toList = t.secondary.toList ++ (t.termios.inputChar c).toList := by
  rw [TtyStruct.cookChar]
  cases hin : t.termios.inputChar c with
  | none => exact ⟨t, rfl, ⟨rfl, rfl, rfl⟩, rfl, (List.append_nil _).symm⟩
  | some c =>
    obtain ⟨hsame, hread, hsecondary⟩ := countTerm_same t c
    have hecho : (t.countTerm c).termios.echo = false := by
      rw [hsame.termios]
      exact hplain.echo
    simp only [hplain.canon, hplain.isig, hecho, TtyStruct.withEcho, Bool.false_and,
      Bool.false_eq_true, if_false, Option.map_some]
    refine ⟨_, rfl, ⟨hsame.termios, hsame.writeQ, hsame.driver⟩, hread, ?_⟩
    change ((t.countTerm c).secondary.putch c).toList = _
    rw [hsecondary]
    exact TtyQueue.toList_putch hroom c

/-- What has been received and not been taken, as `tty_read` will see it. -/
def waiting (t : TtyStruct Uart) : List ℕ :=
  t.secondary.toList ++ t.readQ.toList.filterMap t.termios.inputChar

/-- `copy_to_cooked` on a plain line moves characters, and loses none. -/
theorem copyToCooked_plain {n : ℕ} (hplain : Plain t.termios) (hn : t.readQ.chars < n) :
    ∃ t', TtyStruct.copyToCooked write n t = some t' ∧ SameOutput t t' ∧
      waiting t' = waiting t := by
  induction n generalizing t with
  | zero => omega
  | succ n ih =>
    rw [TtyStruct.copyToCooked]
    by_cases hends : (t.readQ.isEmpty || t.secondary.full) = true
    · rw [if_pos hends]
      exact ⟨t, rfl, ⟨rfl, rfl, rfl⟩, rfl⟩
    · rw [if_neg hends]
      rw [Bool.not_eq_true, Bool.or_eq_false_iff] at hends
      obtain ⟨hchar, hroom⟩ := hends
      have hfirst := TtyQueue.toList_inc hchar
      obtain ⟨t₁, ht₁, hsame, hread, hstored⟩ :=
        cookChar_plain write (t := { t with readQ := t.readQ.inc }) hplain hroom n
          t.readQ.first
      have hless : t₁.readQ.chars < n := by
        have hlength := congrArg List.length hfirst
        rw [List.length_cons, TtyQueue.length_toList, TtyQueue.length_toList] at hlength
        rw [hread]
        change t.readQ.inc.chars < n
        omega
      have hplain₁ : Plain t₁.termios := by
        rw [hsame.termios]
        exact hplain
      obtain ⟨t', ht', hsame', hwaiting⟩ := ih hplain₁ hless
      refine ⟨t', ?_, ⟨hsame'.termios.trans hsame.termios, hsame'.writeQ.trans hsame.writeQ,
        hsame'.driver.trans hsame.driver⟩, ?_⟩
      · rw [ht₁]
        exact ht'
      · rw [hwaiting, waiting, waiting, hstored, hread, hsame.termios, hfirst, List.append_assoc,
          List.filterMap_cons]
        congr 1
        cases t.termios.inputChar t.readQ.first with
        | none => rfl
        | some c => rfl

end Input

/-! ### Sleeping tasks -/

/-- The task in `proc_list` of a queue sleeps. -/
def Sleeps (s : SerialLine τ) (q : LineQueue) (t : τ) : Prop :=
  s.tasks.head q = some t ∧ s.tasks.state t = .interruptible

section Sleeping

variable {s : Sleepers LineQueue τ}

/-- A task that sleeps after a store of 0 has slept before, and is another one. -/
theorem interruptible_of_wake {state : τ → TaskState} {p : Option τ} {t : τ}
    (h : SleepQueue.wake state p t = .interruptible) : p ≠ some t ∧ state t = .interruptible := by
  have hp : p ≠ some t := by
    rintro rfl
    rw [SleepQueue.wake_self] at h
    cases h
  rw [SleepQueue.wake_of_ne hp] at h
  exact ⟨hp, h⟩

/-- `movl $0,(%ebx)` for the task at the head of a queue. -/
theorem wf_wake (hwf : s.Wf) (p : Option τ) :
    Sleepers.Wf { s with state := SleepQueue.wake s.state p } :=
  ⟨hwf.head, hwf.used, fun _ _ hin => hwf.state_wake p hin⟩

/-- A task that sleeps at the head of a queue has done so before, or has just gone to sleep. -/
theorem sleeps_next {s' : Sleepers LineQueue τ} {e : SleepersEvent LineQueue τ} {q : LineQueue}
    {t : τ} (hwf : s.Wf) (h : s.next e = some s') (hhead : s'.head q = some t)
    (hstate : s'.state t = .interruptible) :
    s.head q = some t ∧ s.state t = .interruptible ∨ e = .sleepOn q t := by
  have hset : ∀ {u : τ} {x : TaskState}, x ≠ .interruptible →
      (Function.update s.state u x) t = .interruptible → s.state t = .interruptible := by
    intro u x hx hnew
    by_cases hut : t = u
    · rw [hut, Function.update_self] at hnew
      exact absurd hnew hx
    · rwa [Function.update_of_ne hut] at hnew
  cases e with
  | sleepOn q' u =>
    simp only [Sleepers.next, Option.ite_none_right_eq_some, Option.some.injEq] at h
    obtain ⟨⟨hout, -⟩, rfl⟩ := h
    by_cases hq : q = q'
    · subst hq
      simp only [Sleepers.sleepOn, Function.update_self, Option.some.injEq] at hhead
      rw [hhead]
      exact Or.inr rfl
    · simp only [Sleepers.sleepOn, Function.update_of_ne hq] at hhead hstate
      refine Or.inl ⟨hhead, ?_⟩
      have hut : t ≠ u := by
        rintro rfl
        rw [hwf.head q t hhead] at hout
        cases hout
      rwa [Function.update_of_ne hut] at hstate
  | wakeUp q' =>
    obtain rfl := Option.some.inj h
    left
    by_cases hq : q = q'
    · subst hq
      simp only [Sleepers.wakeUp, Function.update_self, reduceCtorEq] at hhead
    · simp only [Sleepers.wakeUp, Function.update_of_ne hq] at hhead hstate
      exact ⟨hhead, (interruptible_of_wake hstate).2⟩
  | resume q' u =>
    simp only [Sleepers.next, Option.ite_none_right_eq_some, Option.some.injEq] at h
    obtain ⟨hwoken, rfl⟩ := h
    left
    rcases s.resume_cases q' u with ⟨v, hv, hvu, -, heq⟩ | ⟨-, -, heq⟩
    · rw [heq] at hhead hstate
      have hold : s.head q = some t := hhead
      refine ⟨hold, ?_⟩
      have hut : t ≠ u := by
        rintro rfl
        have hq := (hwf.head q t hold).symm.trans hwoken.1
        rw [Option.some.inj hq, hv] at hold
        exact hvu (Option.some.inj hold)
      simp only [Sleepers.sleepAgain, Function.update_of_ne hut] at hstate
      exact hset (by decide) hstate
    · rw [heq] at hhead hstate
      by_cases hq : q = q'
      · subst hq
        simp only [Sleepers.leave, Function.update_self, reduceCtorEq] at hhead
      · simp only [Sleepers.leave, Function.update_of_ne hq] at hhead hstate
        exact ⟨hhead, (interruptible_of_wake hstate).2⟩
  | signal u =>
    simp only [Sleepers.next, Option.ite_none_right_eq_some, Option.some.injEq] at h
    obtain ⟨-, rfl⟩ := h
    exact Or.inl ⟨hhead, hset (by decide) hstate⟩
  | exit u =>
    simp only [Sleepers.next, Option.ite_none_right_eq_some, Option.some.injEq] at h
    obtain ⟨-, rfl⟩ := h
    exact Or.inl ⟨hhead, hset (by decide) hstate⟩
  | release u =>
    simp only [Sleepers.next, Option.ite_none_right_eq_some, Option.some.injEq] at h
    obtain ⟨-, rfl⟩ := h
    exact Or.inl ⟨hhead, hstate⟩
  | fork u =>
    simp only [Sleepers.next, Option.ite_none_right_eq_some, Option.some.injEq] at h
    obtain ⟨-, rfl⟩ := h
    exact Or.inl ⟨hhead, hset (by decide) hstate⟩

end Sleeping

/-! ### The invariant -/

/-- The transmit interrupt is switched on. -/
def transmits (s : SerialLine τ) : Bool := s.tty.driver.ier.getLsbD 1

/-- What holds also before `write_char` has looked whether the queue is empty. -/
structure Flow (s : SerialLine τ) : Prop where
  plain : Plain s.tty.termios
  wf : s.tasks.Wf
  fifo : s.tty.driver.sent ++ s.tty.writeQ.toList = s.put
  live : s.writing = false → s.tty.writeQ.toList ≠ [] → s.transmits = true
  writer : ∀ t, s.Sleeps .write t → 256 ≤ s.tty.writeQ.chars
  input : s.taken ++ waiting s.tty = s.kept.filterMap s.tty.termios.inputChar
  reader : ∀ t, s.Sleeps .secondary t → s.tty.secondary.isEmpty = true

/-- What holds in every state of a run. -/
structure Inv (s : SerialLine τ) : Prop extends Flow s where
  idle : s.transmits = true → s.tty.writeQ.toList ≠ []

section Invariant

variable {s s' : SerialLine τ}

theorem toList_empty : TtyQueue.empty.toList = [] :=
  TtyQueue.isEmpty_iff.mp (by decide)

omit [DecidableEq τ] in
theorem Start.inv (h : Start s) : Inv s := by
  have hsleeps : ∀ q t, ¬s.Sleeps q t := by
    rintro q t ⟨hhead, -⟩
    rw [h.tasks.1 q] at hhead
    cases hhead
  have hidle : s.transmits = false := by
    rw [transmits, h.driver]
    decide
  refine ⟨⟨h.plain, h.tasks.wf, ?_, ?_, fun t ht => absurd ht (hsleeps _ t), ?_,
    fun t ht => absurd ht (hsleeps _ t)⟩, ?_⟩
  · rw [h.driver, h.writeQ, h.put, toList_empty]
    rfl
  · intro _ hne
    rw [h.writeQ] at hne
    exact absurd toList_empty hne
  · rw [waiting, h.taken, h.kept, h.secondary, h.readQ, toList_empty]
    rfl
  · rw [hidle]
    exact fun hfalse => absurd hfalse Bool.false_ne_true

omit [DecidableEq τ] in
/-- `rs_write` switches the transmit interrupt on if there is something to transmit. -/
theorem transmits_rsWrite (h : Inv s) :
    (s.tty.rsWrite.driver.ier.getLsbD 1 = true ↔ s.tty.writeQ.toList ≠ []) := by
  rw [TtyStruct.rsWrite]
  by_cases hempty : s.tty.writeQ.isEmpty = true
  · rw [if_pos hempty]
    have hnil := TtyQueue.isEmpty_iff.mp hempty
    exact ⟨fun hon => h.idle hon, fun hne => absurd hnil hne⟩
  · rw [if_neg hempty]
    have hne : s.tty.writeQ.toList ≠ [] := fun hnil => hempty (TtyQueue.isEmpty_iff.mpr hnil)
    refine ⟨fun _ => hne, fun _ => ?_⟩
    change (s.tty.driver.ier ||| 2).getLsbD 1 = true
    rw [BitVec.getLsbD_or]
    exact Bool.or_true _

theorem rsWrite_same (t : TtyStruct Uart) : t.rsWrite.writeQ = t.writeQ ∧
    t.rsWrite.driver.sent = t.driver.sent ∧ t.rsWrite.termios = t.termios ∧
    t.rsWrite.readQ = t.readQ ∧ t.rsWrite.secondary = t.secondary := by
  rw [TtyStruct.rsWrite]
  split_ifs
  · exact ⟨rfl, rfl, rfl, rfl, rfl⟩
  · exact ⟨rfl, rfl, rfl, rfl, rfl⟩

omit [DecidableEq τ] in
theorem Inv.rsWrite (h : Inv s) : Inv { s with tty := s.tty.rsWrite, writing := false } := by
  obtain ⟨hwriteQ, hsent, htermios, hreadQ, hsecondary⟩ := rsWrite_same s.tty
  have hon := transmits_rsWrite h
  refine ⟨⟨?_, h.wf, ?_, fun _ hne => ?_, fun t ht => ?_, ?_, fun t ht => ?_⟩, fun ht => ?_⟩
  · rw [htermios]
    exact h.plain
  · rw [hsent, hwriteQ]
    exact h.fifo
  · rw [hwriteQ] at hne
    exact hon.mpr hne
  · rw [hwriteQ]
    exact h.writer t ht
  · rw [waiting, hsecondary, hreadQ, htermios]
    exact h.input
  · rw [hsecondary]
    exact h.reader t ht
  · rw [hwriteQ]
    exact hon.mp ht

omit [DecidableEq τ] in
theorem Inv.putch (h : Inv s) (hroom : s.tty.writeQ.full = false) (c : ℕ) :
    Inv { s with tty := s.tty.putWrite c, writing := true, put := s.put ++ [c] } := by
  have hput := TtyQueue.toList_putch hroom c
  have hlength := congrArg List.length hput
  rw [List.length_append, TtyQueue.length_toList, TtyQueue.length_toList] at hlength
  refine ⟨⟨h.plain, h.wf, ?_, fun hw => ?_, fun t ht => ?_, h.input, h.reader⟩, fun _ => ?_⟩
  · change s.tty.driver.sent ++ (s.tty.writeQ.putch c).toList = _
    rw [hput, ← List.append_assoc, h.fifo]
  · cases hw
  · change 256 ≤ (s.tty.writeQ.putch c).chars
    have hchars := h.writer t ht
    omega
  · change (s.tty.writeQ.putch c).toList ≠ []
    rw [hput]
    exact List.append_ne_nil_of_right_ne_nil _ (List.cons_ne_nil _ _)

omit [DecidableEq τ] in
theorem Inv.getch (h : Inv s) (hchar : s.tty.secondary.isEmpty = false) :
    Inv { s with tty := s.tty.getch, taken := s.taken ++ [s.tty.secondary.first] } := by
  refine ⟨⟨h.plain, h.wf, h.fifo, h.live, h.writer, ?_, fun t ht => ?_⟩, h.idle⟩
  · have hinput := h.input
    rw [waiting, TtyQueue.toList_inc hchar] at hinput
    rw [waiting, List.append_assoc]
    exact hinput
  · rw [h.reader t ht] at hchar
    cases hchar

/-! ### The interrupt routine -/

/-- Without characters the transmit interrupt is off. -/
theorem Flow.writeBufferEmpty (h : Flow s) (hnil : s.tty.writeQ.toList = []) :
    Inv s.writeBufferEmpty := by
  have hoff : s.writeBufferEmpty.transmits = false := by
    change (s.tty.driver.ier &&& 0xd).getLsbD 1 = false
    rw [BitVec.getLsbD_and]
    exact Bool.and_false _
  refine ⟨⟨h.plain, wf_wake h.wf _, h.fifo, fun _ hne => absurd hnil hne, fun t ht => ?_,
    h.input, fun t ht => ?_⟩, fun hon => ?_⟩
  · exact h.writer t ⟨ht.1, (interruptible_of_wake ht.2).2⟩
  · exact h.reader t ⟨ht.1, (interruptible_of_wake ht.2).2⟩
  · rw [hoff] at hon
    cases hon

/-- The task in `proc_list` does not sleep after the store. -/
theorem not_sleeps_wakeWriter (s : SerialLine τ) (t : τ) : ¬s.wakeWriter.Sleeps .write t := by
  rintro ⟨hhead, hstate⟩
  exact (interruptible_of_wake hstate).1 hhead

theorem Flow.wakeWriter (h : Flow s) : Flow s.wakeWriter :=
  ⟨h.plain, wf_wake h.wf _, h.fifo, h.live,
    fun t ht => h.writer t ⟨ht.1, (interruptible_of_wake ht.2).2⟩, h.input,
    fun t ht => h.reader t ⟨ht.1, (interruptible_of_wake ht.2).2⟩⟩

omit [DecidableEq τ] in
/-- A character goes from the queue to the line. -/
theorem Flow.transmit (h : Flow s) (hchar : s.tty.writeQ.isEmpty = false)
    (hmany : ∀ t, s.Sleeps .write t → 256 < s.tty.writeQ.chars) : Flow s.transmit := by
  have hfirst := TtyQueue.toList_inc hchar
  have hlength := congrArg List.length hfirst
  rw [List.length_cons, TtyQueue.length_toList, TtyQueue.length_toList] at hlength
  refine ⟨h.plain, h.wf, ?_, fun hw _ => ?_, fun t ht => ?_, h.input, h.reader⟩
  · have hfifo := h.fifo
    rw [hfirst] at hfifo
    change (s.tty.driver.sent ++ [s.tty.writeQ.first]) ++ s.tty.writeQ.inc.toList = s.put
    rw [List.append_assoc]
    exact hfifo
  · refine h.live hw ?_
    rw [hfirst]
    exact List.cons_ne_nil _ _
  · change 256 ≤ s.tty.writeQ.inc.chars
    have hchars := hmany t ht
    omega

/-- The state of a line after the store of 0 in `write_char`. -/
def afterWake (s : SerialLine τ) : SerialLine τ :=
  if 256 < s.tty.writeQ.chars then s else s.wakeWriter

theorem afterWake_same (s : SerialLine τ) : s.afterWake.tty = s.tty ∧ s.afterWake.put = s.put ∧
    s.afterWake.writing = s.writing := by
  rw [afterWake]
  split_ifs
  · exact ⟨rfl, rfl, rfl⟩
  · exact ⟨rfl, rfl, rfl⟩

theorem Flow.afterWake (h : Flow s) : Flow s.afterWake ∧
    ∀ t, s.afterWake.Sleeps .write t → 256 < s.afterWake.tty.writeQ.chars := by
  rw [SerialLine.afterWake]
  by_cases hmany : 256 < s.tty.writeQ.chars
  · rw [if_pos hmany]
    exact ⟨h, fun _ _ => hmany⟩
  · rw [if_neg hmany]
    exact ⟨h.wakeWriter, fun t ht => absurd ht (not_sleeps_wakeWriter s t)⟩

/-- What `write_char` has done. -/
structure Transmitted (s s' : SerialLine τ) : Prop where
  inv : Inv s'
  put : s'.put = s.put
  chars : s'.tty.writeQ.chars = s.tty.writeQ.chars - 1

theorem Inv.writeChar (h : Inv s) : Transmitted s s.writeChar := by
  rw [SerialLine.writeChar]
  by_cases hchars : s.tty.writeQ.chars = 0
  · rw [if_pos hchars]
    have hnil : s.tty.writeQ.toList = [] := by
      rw [← List.length_eq_zero_iff, TtyQueue.length_toList]
      exact hchars
    refine ⟨h.toFlow.writeBufferEmpty hnil, rfl, ?_⟩
    change s.tty.writeQ.chars = _
    omega
  · rw [if_neg hchars]
    obtain ⟨htty, hput, -⟩ := afterWake_same s
    obtain ⟨hflow, hmany⟩ := h.toFlow.afterWake
    have hchar : s.afterWake.tty.writeQ.isEmpty = false := by
      rw [htty, ← Bool.not_eq_true, TtyQueue.isEmpty_iff, ← List.length_eq_zero_iff,
        TtyQueue.length_toList]
      exact hchars
    have hlength := congrArg List.length (TtyQueue.toList_inc hchar)
    rw [List.length_cons, TtyQueue.length_toList, TtyQueue.length_toList] at hlength
    have hsent := hflow.transmit hchar hmany
    have hone : s.afterWake.transmit.tty.writeQ.chars = s.tty.writeQ.chars - 1 := by
      change s.afterWake.tty.writeQ.inc.chars = _
      rw [← htty]
      omega
    change Transmitted s (if s.afterWake.transmit.tty.writeQ.isEmpty
      then s.afterWake.transmit.writeBufferEmpty else s.afterWake.transmit)
    by_cases hlast : s.afterWake.transmit.tty.writeQ.isEmpty = true
    · rw [if_pos hlast]
      exact ⟨hsent.writeBufferEmpty (TtyQueue.isEmpty_iff.mp hlast), hput, hone⟩
    · rw [if_neg hlast]
      exact ⟨⟨hsent, fun _ hnil => hlast (TtyQueue.isEmpty_iff.mpr hnil)⟩, hput, hone⟩

omit [DecidableEq τ] in
theorem store_same (s : SerialLine τ) (c : ℕ) : SameOutput s.tty (s.store c).tty ∧
    (s.store c).tty.secondary = s.tty.secondary ∧ (s.store c).tasks = s.tasks ∧
    (s.store c).put = s.put ∧ (s.store c).taken = s.taken ∧ (s.store c).writing = s.writing := by
  rw [store]
  split_ifs
  · exact ⟨⟨rfl, rfl, rfl⟩, rfl, rfl, rfl, rfl, rfl⟩
  · exact ⟨⟨rfl, rfl, rfl⟩, rfl, rfl, rfl, rfl, rfl⟩

/-- A store at `head` does not touch the characters of a queue. -/
theorem toList_update_head (q : TtyQueue) (c : ℕ) :
    TtyQueue.toList { q with buf := (q.putch c).buf } = q.toList := by
  have hlt := q.head.isLt
  have hlt' := q.tail.isLt
  have hnum := q.chars_eq
  apply ringSegment_congr
  intro j hj
  have hj' : j < q.chars := hj
  have hne : Fin.ofNat 1024 ((q.tail.val + j) % 1024) ≠ q.head := by
    rw [Ne, Fin.ext_iff, Fin.val_ofNat]
    omega
  exact Function.update_of_ne hne ..

/-- The test of `read_char` is `FULL`. -/
theorem full_of_meets {q : TtyQueue} (c : ℕ) : q.full = true ↔ (q.putch c).head = q.tail := by
  have hone : (1 : Fin 1024).val = 1 := rfl
  have hlt := q.head.isLt
  have hlt' := q.tail.isLt
  rw [TtyQueue.full, decide_eq_true_iff, TtyQueue.left_eq, TtyQueue.putch, Fin.ext_iff, Fin.val_add,
    hone]
  omega

omit [DecidableEq τ] in
/-- What has been kept is what waits, also with the new character. -/
theorem input_store (h : Inv s) (c : ℕ) : (s.store c).taken ++ waiting (s.store c).tty =
    (s.store c).kept.filterMap s.tty.termios.inputChar := by
  rw [store]
  by_cases hmeets : (s.tty.readQ.putch c).head = s.tty.readQ.tail
  · rw [if_pos hmeets, waiting, toList_update_head]
    exact h.input
  · rw [if_neg hmeets]
    have hroom : s.tty.readQ.full = false := by
      rw [← Bool.not_eq_true, full_of_meets c]
      exact hmeets
    rw [waiting, TtyQueue.toList_putch hroom]
    dsimp only
    rw [List.filterMap_append, List.filterMap_append, ← h.input, waiting, List.append_assoc,
      List.append_assoc]

/-- `read_char` always returns, and keeps the invariant. -/
theorem Inv.readChar (h : Inv s) (c : ℕ) :
    ∃ s', s.readChar c = some s' ∧ Inv s' ∧ s'.put = s.put := by
  obtain ⟨hsame, hsecondary, htasks, hput, htaken, hwriting⟩ := store_same s c
  have hplain : Plain (s.store c).tty.termios := by
    rw [hsame.termios]
    exact h.plain
  have hfew : (s.store c).tty.readQ.chars < 1024 := by
    have hsum := (s.store c).tty.readQ.left_add_chars
    omega
  obtain ⟨t, ht, hcooked, hwaiting⟩ :=
    copyToCooked_plain (fun t => some t.rsWrite) hplain hfew
  have hout := hsame.trans hcooked
  have hsleeps : ∀ q u, ((s.store c).tasks.wakeUp .secondary).head q = some u →
      ((s.store c).tasks.wakeUp .secondary).state u = .interruptible → s.Sleeps q u := by
    intro q u hhead hstate
    have hwf := h.wf
    rw [← htasks] at hwf
    rcases sleeps_next hwf (e := .wakeUp .secondary) rfl hhead hstate with hold | hnew
    · rw [htasks] at hold
      exact hold
    · cases hnew
  refine ⟨{ s.store c with tty := t, tasks := (s.store c).tasks.wakeUp .secondary }, ?_,
    ⟨⟨?_, ?_, ?_, ?_, ?_, ?_, ?_⟩, ?_⟩, hput⟩
  · rw [SerialLine.readChar, doTtyInterrupt, ht]
    rfl
  · rw [hout.termios]
    exact h.plain
  · rw [htasks]
    exact h.wf.wakeUp .secondary
  · change t.driver.sent ++ t.writeQ.toList = (s.store c).put
    rw [hout.driver, hout.writeQ, hput]
    exact h.fifo
  · change (s.store c).writing = false → t.writeQ.toList ≠ [] → t.driver.ier.getLsbD 1 = true
    rw [hwriting, hout.driver, hout.writeQ]
    exact h.live
  · rintro u ⟨hhead, hstate⟩
    change 256 ≤ t.writeQ.chars
    rw [hout.writeQ]
    exact h.writer u (hsleeps _ u hhead hstate)
  · change (s.store c).taken ++ waiting t = (s.store c).kept.filterMap t.termios.inputChar
    rw [hwaiting, hout.termios]
    exact input_store h c
  · rintro u ⟨hhead, -⟩
    simp only [Sleepers.wakeUp, Function.update_self, reduceCtorEq] at hhead
  · change t.driver.ier.getLsbD 1 = true → t.writeQ.toList ≠ []
    rw [hout.driver, hout.writeQ]
    exact h.idle

/-- The routine serves every interrupt, and keeps the invariant. -/
theorem Inv.serve (h : Inv s) (id data : BitVec 8) :
    ∃ s', s.serve id data = some s' ∧ Inv s' ∧ s'.put = s.put := by
  rw [SerialLine.serve]
  split_ifs
  · exact ⟨_, rfl, h.writeChar.inv, h.writeChar.put⟩
  · exact h.readChar data.toNat
  · exact ⟨s, rfl, h, rfl⟩

theorem Inv.rsInt (h : Inv s) (ids : List (BitVec 8 × BitVec 8)) :
    ∃ s', s.rsInt ids = some s' ∧ Inv s' ∧ s'.put = s.put := by
  induction ids generalizing s with
  | nil => exact ⟨s, rfl, h, rfl⟩
  | cons i ids ih =>
    obtain ⟨id, data⟩ := i
    rw [SerialLine.rsInt]
    split_ifs
    · exact ⟨s, rfl, h, rfl⟩
    · obtain ⟨s₁, hserve, hinv, hput⟩ := h.serve id data
      obtain ⟨s', hs', hinv', hput'⟩ := ih hinv
      rw [hserve]
      exact ⟨s', hs', hinv', hput'.trans hput⟩

/-- The tasks go to sleep only when they have to. -/
theorem Inv.task (h : Inv s) {e : SleepersEvent LineQueue τ} {tasks : Sleepers LineQueue τ}
    (hallows : s.allows e = true) (he : s.tasks.next e = some tasks) : Inv { s with tasks } := by
  refine ⟨⟨h.plain, h.wf.next he, h.fifo, h.live, fun t ht => ?_, h.input, fun t ht => ?_⟩, h.idle⟩
  · rcases sleeps_next h.wf he ht.1 ht.2 with hold | rfl
    · exact h.writer t hold
    · rw [allows, Bool.and_eq_true, decide_eq_true_iff] at hallows
      have hsum := s.tty.writeQ.left_add_chars
      change 256 ≤ s.tty.writeQ.chars
      omega
  · rcases sleeps_next h.wf he ht.1 ht.2 with hold | rfl
    · exact h.reader t hold
    · exact hallows

/-- Every event keeps the invariant. -/
theorem Inv.step (h : Inv s) (hstep : s.Step s') : Inv s' := by
  obtain ⟨e, he⟩ := hstep
  cases e with
  | putch c =>
    rw [next] at he
    split_ifs at he with hfull
    cases he
    exact h.putch (by simpa using hfull) c
  | rsWrite =>
    cases he
    exact h.rsWrite
  | getch =>
    rw [next] at he
    split_ifs at he with hempty
    cases he
    exact h.getch (by simpa using hempty)
  | interrupt ids =>
    obtain ⟨s₁, hs₁, hinv, -⟩ := h.rsInt ids
    cases hs₁.symm.trans he
    exact hinv
  | task e =>
    rw [next] at he
    split_ifs at he with hallows
    obtain ⟨tasks, htasks, rfl⟩ := Option.map_eq_some_iff.mp he
    exact h.task hallows htasks

theorem inv_of_reachable (h : Reachable Start Step s) : Inv s :=
  h.invariant (fun _ hs => hs.inv) fun _ _ hs hstep => hs.step hstep

/-- Transmit interrupts, as many as there are characters. -/
theorem Inv.drain (h : Inv s) {ids : List (BitVec 8 × BitVec 8)} (hids : ∀ i ∈ ids, i.1 = 2) :
    ∃ s', s.rsInt ids = some s' ∧ Inv s' ∧ s'.put = s.put ∧
      s'.tty.writeQ.chars = s.tty.writeQ.chars - ids.length := by
  induction ids generalizing s with
  | nil => exact ⟨s, rfl, h, rfl, rfl⟩
  | cons i ids ih =>
    obtain ⟨id, data⟩ := i
    obtain rfl : id = 2 := hids _ List.mem_cons_self
    obtain ⟨s', hs', hinv, hput, hchars⟩ :=
      ih h.writeChar.inv fun i hi => hids i (List.mem_cons_of_mem _ hi)
    refine ⟨s', hs', hinv, hput.trans h.writeChar.put, ?_⟩
    rw [hchars, h.writeChar.chars, List.length_cons]
    omega

end Invariant

/-! ### Two characters -/

/-- The settings of the serial lines in `tty_table`, with `INIT_C_CC`. -/
def serialTermios : Termios :=
  { consoleTermios with
    icrnl := false, isig := false, canon := false, echo := false, echoctl := false }

/-- A serial line and its tasks after `rs_init`. -/
def serialLine : SerialLine Bool :=
  ⟨.fresh serialTermios ⟨0xd, []⟩, .unused, false, [], [], []⟩

theorem serialLine_start : Start serialLine :=
  ⟨⟨rfl, rfl, rfl⟩, rfl, rfl, rfl, rfl, Sleepers.unused_initial, rfl, rfl, rfl⟩

/-- Two characters are written, one is transmitted, and two are received, of which a task that has
waited for them takes one. -/
def serialEvents : List (LineEvent Bool) :=
  [.task (.sleepOn .secondary true), .putch 104, .putch 105, .rsWrite,
    .interrupt [(2, 0), (4, 10), (4, 33), (1, 0)], .task (.resume .secondary true), .getch]

/-- Where the characters are after these events. -/
def serialPlaces (s : SerialLine Bool) : Bool :=
  decide (s.tty.driver.sent = [104] ∧ s.tty.writeQ.toList = [105] ∧ s.put = [104, 105] ∧
    s.taken = [10] ∧ s.tty.secondary.toList = [33] ∧ s.kept = [10, 33] ∧ s.writing = false)

theorem serialEvents_run : (runEvents next serialLine serialEvents).any serialPlaces = true := by
  decide +kernel

/-! ### Every run -/

/-- In every run of a plain line, whatever the order of the steps of the tasks and of the
interrupts: the line transmits what `tty_write` has queued, and `tty_read` gets what has been kept,
in order and without loss. Unless `tty_write` is in its loop, the transmit interrupt is on exactly
when there is something to transmit. A task sleeps at the head of the write queue only while that
is a quarter full, and at the head of the other queue only while there is nothing to read. The
interrupt routine always returns. -/
theorem line_keeps_order {s : SerialLine τ} (h : Reachable Start Step s) :
    s.tty.driver.sent ++ s.tty.writeQ.toList = s.put ∧
    s.taken ++ s.tty.secondary.toList ++ s.tty.readQ.toList.filterMap s.tty.termios.inputChar =
      s.kept.filterMap s.tty.termios.inputChar ∧
    (s.writing = false → (s.transmits = true ↔ s.tty.writeQ.toList ≠ [])) ∧
    (∀ t, s.Sleeps .write t → 256 ≤ s.tty.writeQ.chars) ∧
    (∀ t, s.Sleeps .secondary t → s.tty.secondary.toList = []) ∧
    ∀ ids, ∃ s', s.next (.interrupt ids) = some s' := by
  have hinv := inv_of_reachable h
  refine ⟨hinv.fifo, ?_, fun hw => ⟨hinv.idle, hinv.live hw⟩, hinv.writer,
    fun t ht => TtyQueue.isEmpty_iff.mp (hinv.reader t ht), fun ids => ?_⟩
  · rw [List.append_assoc]
    exact hinv.input
  · obtain ⟨s', hs', -⟩ := hinv.rsInt ids
    exact ⟨s', hs'⟩

/-- One of two characters has been sent, the other one is in the queue. -/
theorem line_keeps_order_two : ∃ s : SerialLine Bool, serialPlaces s = true ∧
    s.tty.driver.sent ++ s.tty.writeQ.toList = s.put ∧
    (s.writing = false → (s.transmits = true ↔ s.tty.writeQ.toList ≠ [])) := by
  have hstart : Reachable Start Step serialLine := .of_init serialLine_start
  obtain ⟨s, hs, -, hplaces⟩ := hstart.exists_runEvents (fun _ e _ he => ⟨e, he⟩) serialEvents_run
  have horder := line_keeps_order hs
  exact ⟨s, hplaces, horder.1, horder.2.2.1⟩

/-- From every state of a run, as many transmit interrupts as there are characters send everything
that `tty_write` has queued, switch the transmit interrupt off, and leave no task asleep at the
head of the write queue. -/
theorem line_drains {s : SerialLine τ} (h : Reachable Start Step s)
    {ids : List (BitVec 8 × BitVec 8)} (hids : ∀ i ∈ ids, i.1 = 2)
    (hlength : ids.length = s.tty.writeQ.chars) :
    ∃ s', s.next (.interrupt ids) = some s' ∧ s'.tty.driver.sent = s.put ∧
      s'.tty.writeQ.toList = [] ∧ s'.transmits = false ∧ ∀ t, ¬s'.Sleeps .write t := by
  obtain ⟨s', hs', hinv, hput, hchars⟩ := (inv_of_reachable h).drain hids
  have hzero : s'.tty.writeQ.chars = 0 := by omega
  have hnil : s'.tty.writeQ.toList = [] := by
    rw [← List.length_eq_zero_iff, TtyQueue.length_toList]
    exact hzero
  refine ⟨s', hs', ?_, hnil, ?_, fun t ht => ?_⟩
  · have hfifo := hinv.fifo
    rw [hnil, List.append_nil] at hfifo
    exact hfifo.trans hput
  · rw [← Bool.not_eq_true]
    exact fun hon => hinv.idle hon hnil
  · have hmany := hinv.writer t ht
    omega

/-- The other character is sent by one more interrupt. -/
theorem line_drains_two : ∃ s s' : SerialLine Bool, serialPlaces s = true ∧
    s.next (.interrupt [(2, 0)]) = some s' ∧ s'.tty.driver.sent = [104, 105] ∧
      s'.transmits = false := by
  have hstart : Reachable Start Step serialLine := .of_init serialLine_start
  obtain ⟨s, hs, -, hplaces⟩ := hstart.exists_runEvents (fun _ e _ he => ⟨e, he⟩) serialEvents_run
  obtain ⟨-, hqueue, hput, -⟩ := of_decide_eq_true hplaces
  have hone : s.tty.writeQ.chars = 1 := by rw [← TtyQueue.length_toList, hqueue]; rfl
  have hids : ∀ i ∈ [((2, 0) : BitVec 8 × BitVec 8)], i.1 = 2 := by simp
  obtain ⟨s', hs', hsent, -, hoff, -⟩ := line_drains hs hids hone.symm
  exact ⟨s, s', hplaces, hs', hsent.trans hput, hoff⟩

end SerialLine

end LihaLinux.Tty
