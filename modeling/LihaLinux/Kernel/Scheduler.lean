import LihaLinux.Kernel.Processes
import Mathlib.Algebra.Order.Ring.Int

/-!
# Time slices

`schedule` runs the runnable task with the most ticks left in `counter`. When all runnable tasks
have used theirs up, every task gets `priority` new ticks and keeps half of what it had, so the
counter of a task that sleeps grows towards twice its priority. `sys_nice` tests that the new
priority is positive and has no other bound. Arithmetic on `long` wraps at 32 bits.
-/

namespace LihaLinux.Kernel

/-- `SIGALRM`. -/
def sigAlrm : ℕ := 14

/-- The value of a `long` after an operation. -/
def toLong (n : ℤ) : ℤ := n.bmod 4294967296

/-- `struct task_struct`, as far as it concerns the scheduler. -/
structure SchedTask where
  state : TaskState
  counter : ℤ
  priority : ℤ
  signal : BitVec 32
  blocked : BitVec 32
  alarm : ℤ

/-- The tasks and the clock. -/
structure Scheduler where
  task : ℕ → Option SchedTask
  current : ℕ
  jiffies : ℤ

namespace Scheduler

/-- Change every task but the idle task. -/
def mapTasks (s : Scheduler) (f : SchedTask → SchedTask) : Scheduler :=
  { s with task := fun i => if i = 0 then s.task 0 else (s.task i).map f }

/-- Change one task. -/
def modify (s : Scheduler) (t : ℕ) (f : SchedTask → SchedTask) : Scheduler :=
  { s with task := fun i => if i = t then (s.task i).map f else s.task i }

/-! ### `schedule` -/

/-- The test of `schedule` for an alarm that is due. -/
def checkAlarm (jiffies : ℤ) (p : SchedTask) : SchedTask :=
  if p.alarm ≠ 0 ∧ p.alarm < jiffies then
    { p with signal := p.signal ||| sigBit sigAlrm, alarm := 0 }
  else p

/-- The test of `schedule` for a signal that wakes a task. -/
def checkSignal (p : SchedTask) : SchedTask :=
  if p.signal &&& ~~~(blockable &&& p.blocked) ≠ 0 ∧ p.state = .interruptible then
    { p with state := .running }
  else p

/-- The first loop of `schedule`. -/
def scan (s : Scheduler) : Scheduler := s.mapTasks fun p => checkSignal (checkAlarm s.jiffies p)

/-- The loop of `schedule` for the runnable task with the largest counter, over the entries from
`i` down to 1: `c` and `next`. -/
def pick (s : Scheduler) : ℕ → ℤ → ℕ → ℤ × ℕ
  | 0, c, next => (c, next)
  | i + 1, c, next =>
    match s.task (i + 1) with
    | none => pick s i c next
    | some p =>
      if p.state = .running ∧ c < p.counter then pick s i p.counter (i + 1) else pick s i c next

/-- The new time slice of a task. -/
def refill (p : SchedTask) : SchedTask :=
  { p with counter := toLong (p.counter / 2 + p.priority) }

/-- The endless loop of `schedule`, as far as `n` times, and `switch_to`. -/
def scheduleLoop : ℕ → Scheduler → Option Scheduler
  | 0, _ => none
  | n + 1, s =>
    if (s.pick (nrTasks - 1) (-1) 0).1 = 0 then scheduleLoop n (s.mapTasks refill)
    else some { s with current := (s.pick (nrTasks - 1) (-1) 0).2 }

/-- `schedule`. No more than two rounds are needed while priorities are positive. -/
def schedule (s : Scheduler) : Option Scheduler := scheduleLoop 2 s.scan

/-! ### The callers -/

/-- `do_timer`, as far as it concerns the running task; `user` says whether it was in user
mode. -/
def doTimer (s : Scheduler) (p : SchedTask) (user : Bool) : Option Scheduler :=
  if 0 < toLong (p.counter - 1) then
    some (s.modify s.current fun p => { p with counter := toLong (p.counter - 1) })
  else if user then (s.modify s.current fun p => { p with counter := 0 }).schedule
  else some (s.modify s.current fun p => { p with counter := 0 })

/-- The interrupt of the clock. -/
def timerInterrupt (s : Scheduler) (p : SchedTask) (user : Bool) : Option Scheduler :=
  { s with jiffies := toLong (s.jiffies + 1) }.doTimer p user

/-- `sys_nice`. -/
def sysNice (increment : ℤ) (p : SchedTask) : SchedTask :=
  if 0 < toLong (p.priority - increment) then
    { p with priority := toLong (p.priority - increment) }
  else p

/-- `sys_alarm`. -/
def sysAlarm (jiffies seconds : ℤ) (p : SchedTask) : SchedTask :=
  { p with alarm := if 0 < seconds then toLong (jiffies + 100 * seconds) else 0 }

/-- The entry that `find_empty_process` finds. -/
def freeTask (s : Scheduler) : Option ℕ :=
  (List.range nrTasks).find? fun i => i ≠ 0 && (s.task i).isNone

/-- `copy_process`, with memory. -/
def fork (s : Scheduler) (p : SchedTask) : Scheduler :=
  match s.freeTask with
  | none => s
  | some nr => { s with
      task := Function.update s.task nr (some { p with
        state := .running, counter := p.priority, signal := 0, alarm := 0 }) }

end Scheduler

/-! ### Runs -/

/-- What can happen to the time slices. All but the last three are done by the running task. -/
inductive SchedEvent
  | nice (increment : ℤ)
  | fork
  | alarm (seconds : ℤ)
  | ssetmask (newmask : BitVec 32)
  | schedule
  /-- The running task goes to sleep or exits. -/
  | sleep (state : TaskState)
  | timer (user : Bool)
  /-- A task is woken. -/
  | wake (t : ℕ)
  /-- A task gets a signal. -/
  | signal (t : ℕ) (bits : BitVec 32)
  /-- The entry of a zombie is freed. -/
  | release (t : ℕ)
  deriving DecidableEq

namespace Scheduler

/-- The next state. -/
def next (s : Scheduler) (e : SchedEvent) : Option Scheduler :=
  (s.task s.current).bind fun p =>
    match e with
    | .nice increment => some (s.modify s.current (sysNice increment))
    | .fork => some (s.fork p)
    | .alarm seconds => some (s.modify s.current (sysAlarm s.jiffies seconds))
    | .ssetmask newmask => some (s.modify s.current fun p =>
        { p with blocked := newmask &&& ~~~sigBit sigKill })
    | .schedule => s.schedule
    | .sleep state => (s.modify s.current fun p => { p with state }).schedule
    | .timer user => s.timerInterrupt p user
    | .wake t => some (s.modify t fun p => { p with state := .running })
    | .signal t bits => some (s.modify t fun p => { p with signal := p.signal ||| bits })
    | .release t =>
      if t ≠ 0 ∧ t ≠ s.current ∧ (s.task t).any (fun p => p.state = .zombie) = true then
        some { s with task := Function.update s.task t none }
      else none

/-- `INIT_TASK`. -/
def initTask : SchedTask where
  state := .running
  counter := 15
  priority := 15
  signal := 0
  blocked := 0
  alarm := 0

/-- The state after `sched_init`. -/
def start : Scheduler where
  task i := if i = 0 then some initTask else none
  current := 0
  jiffies := 0

/-! ### What the time slices promise -/

/-- Time slices are never negative, and the idle task runs only when no other task can. -/
structure Fair (s : Scheduler) : Prop where
  priority : ∀ t p, s.task t = some p → 1 ≤ p.priority
  counter : ∀ t p, s.task t = some p → 0 ≤ p.counter
  idle : ∃ s', s.schedule = some s' ∧ (s'.current = 0 →
    ∀ t p, t ≠ 0 → t < nrTasks → s'.task t = some p → p.state ≠ .running)

/-- A call of `sys_nice` that takes effect raises the priority to no more than `2 ^ 30`. -/
def Moderate (s : Scheduler) (e : SchedEvent) : Prop :=
  ∀ increment p, e = .nice increment → s.task s.current = some p →
    toLong (p.priority - increment) ≤ 1073741824

/-- Every task has a property. -/
def All (P : SchedTask → Prop) (s : Scheduler) : Prop := ∀ t p, s.task t = some p → P p

section All

variable {P : SchedTask → Prop} {s : Scheduler} {f : SchedTask → SchedTask}

theorem All.mapTasks (h : s.All P) (hf : ∀ p, P p → P (f p)) : (s.mapTasks f).All P := by
  intro t p hp
  simp only [Scheduler.mapTasks] at hp
  split at hp
  · exact h 0 p hp
  · obtain ⟨q, hq, rfl⟩ := Option.map_eq_some_iff.mp hp
    exact hf q (h t q hq)

theorem All.modify (h : s.All P) (t : ℕ) (hf : ∀ p, P p → P (f p)) : (s.modify t f).All P := by
  intro i p hp
  simp only [Scheduler.modify] at hp
  split at hp
  · obtain ⟨q, hq, rfl⟩ := Option.map_eq_some_iff.mp hp
    exact hf q (h i q hq)
  · exact h i p hp

theorem All.update (h : s.All P) (t : ℕ) {o : Option SchedTask} (ho : ∀ p, o = some p → P p) :
    All P { s with task := Function.update s.task t o } := by
  intro i p hp
  by_cases hi : i = t
  · subst hi
    exact ho p (by simpa using hp)
  · exact h i p (by simpa [hi] using hp)

theorem All.scheduleLoop {s' : Scheduler} {n : ℕ} (h : s.All P) (hrefill : ∀ p, P p → P (refill p))
    (hs : scheduleLoop n s = some s') : s'.All P := by
  induction n generalizing s with
  | zero => exact nomatch hs
  | succ n ih =>
    rw [Scheduler.scheduleLoop] at hs
    split at hs
    · exact ih (h.mapTasks hrefill) hs
    · obtain rfl := Option.some.inj hs
      exact h

end All

/-! ### The loop of `schedule` for the largest counter -/

/-- The result is the first one only if the idle task is chosen. -/
theorem pick_idle {s : Scheduler} {n : ℕ} {c : ℤ} {next : ℕ} (h : (s.pick n c next).2 = 0) :
    next = 0 ∧ (s.pick n c next).1 = c := by
  induction n generalizing c next with
  | zero => exact ⟨h, rfl⟩
  | succ n ih =>
    rw [pick] at h ⊢
    cases hp : s.task (n + 1) with
    | none => exact ih (by rwa [hp] at h)
    | some p =>
      rw [hp] at h
      dsimp only at h ⊢
      split at h
      · exact absurd (ih h).1 (Nat.succ_ne_zero n)
      · rename_i hnot
        rw [if_neg hnot]
        exact ih h

/-- The result is no less than the counter of a runnable task. -/
theorem le_pick (s : Scheduler) (n : ℕ) (c : ℤ) (next : ℕ) :
    c ≤ (s.pick n c next).1 ∧ ∀ t p, t ≠ 0 → t ≤ n → s.task t = some p → p.state = .running →
      p.counter ≤ (s.pick n c next).1 := by
  induction n generalizing c next with
  | zero => exact ⟨le_refl c, fun t p h0 hle => absurd (Nat.le_zero.mp hle) h0⟩
  | succ n ih =>
    have hsplit : ∀ t p, t ≤ n + 1 → s.task t = some p →
        t ≤ n ∨ s.task (n + 1) = some p := by
      intro t p hle hp
      rcases Nat.lt_or_eq_of_le hle with hlt | rfl
      · exact Or.inl (Nat.lt_succ_iff.mp hlt)
      · exact Or.inr hp
    rw [pick]
    cases hq : s.task (n + 1) with
    | none =>
      refine ⟨(ih _ _).1, fun t p h0 hle hp hrun => ?_⟩
      rcases hsplit t p hle hp with hle | hp
      · exact (ih _ _).2 t p h0 hle hp hrun
      · rw [hq] at hp
        exact nomatch hp
    | some q =>
      dsimp only
      split
      · rename_i hlt
        refine ⟨hlt.2.le.trans (ih _ _).1, fun t p h0 hle hp hrun => ?_⟩
        rcases hsplit t p hle hp with hle | hp
        · exact (ih _ _).2 t p h0 hle hp hrun
        · obtain rfl : q = p := Option.some.inj (hq.symm.trans hp)
          exact (ih _ _).1
      · rename_i hnot
        refine ⟨(ih _ _).1, fun t p h0 hle hp hrun => ?_⟩
        rcases hsplit t p hle hp with hle | hp
        · exact (ih _ _).2 t p h0 hle hp hrun
        · obtain rfl : q = p := Option.some.inj (hq.symm.trans hp)
          exact (not_lt.mp fun hlt => hnot ⟨hrun, hlt⟩).trans (ih _ _).1

/-- A result other than the first one is the counter of a runnable task. -/
theorem exists_of_pick {s : Scheduler} {n : ℕ} {c : ℤ} {next : ℕ} (h : c < (s.pick n c next).1) :
    ∃ t p, t ≠ 0 ∧ t ≤ n ∧ s.task t = some p ∧ p.state = .running ∧
      p.counter = (s.pick n c next).1 := by
  induction n generalizing c next with
  | zero => exact absurd h (lt_irrefl c)
  | succ n ih =>
    rw [pick] at h ⊢
    cases hq : s.task (n + 1) with
    | none =>
      rw [hq] at h
      obtain ⟨t, p, h0, hle, hp⟩ := ih h
      exact ⟨t, p, h0, hle.trans n.le_succ, hp⟩
    | some q =>
      rw [hq] at h
      dsimp only at h ⊢
      by_cases hrun : q.state = .running ∧ c < q.counter
      · rw [if_pos hrun] at h ⊢
        by_cases hlt : q.counter < (s.pick n q.counter (n + 1)).1
        · obtain ⟨t, p, h0, hle, hp⟩ := ih hlt
          exact ⟨t, p, h0, hle.trans n.le_succ, hp⟩
        · exact ⟨n + 1, q, n.succ_ne_zero, le_refl _, hq, hrun.1,
            le_antisymm (le_pick ..).1 (not_lt.mp hlt)⟩
      · rw [if_neg hrun] at h ⊢
        obtain ⟨t, p, h0, hle, hp⟩ := ih h
        exact ⟨t, p, h0, hle.trans n.le_succ, hp⟩

/-! ### Runs with moderate priorities -/

/-- The invariant of a task: the counter is below twice the largest priority. -/
structure Within (p : SchedTask) : Prop where
  priority_pos : 1 ≤ p.priority
  priority_le : p.priority ≤ 1073741824
  counter_nonneg : 0 ≤ p.counter
  counter_le : p.counter ≤ 2147483647

theorem toLong_eq {n : ℤ} (hmin : -2147483648 ≤ n) (hmax : n ≤ 2147483647) : toLong n = n := by
  rw [toLong]
  exact Int.bmod_eq_of_le (by omega) (by omega)

theorem Within.refill {p : SchedTask} (h : Within p) :
    (refill p).counter = p.counter / 2 + p.priority := by
  obtain ⟨hpos, hle, hnonneg, hmax⟩ := h
  exact toLong_eq (by omega) (by omega)

theorem Within.refill_within {p : SchedTask} (h : Within p) : Within (Scheduler.refill p) := by
  have hcounter := h.refill
  obtain ⟨hpos, hle, hnonneg, hmax⟩ := h
  exact ⟨hpos, hle, by omega, by omega⟩

theorem Within.check {p : SchedTask} (h : Within p) (jiffies : ℤ) :
    Within (checkSignal (checkAlarm jiffies p)) := by
  have halarm : Within (checkAlarm jiffies p) := by
    unfold checkAlarm
    split
    · exact ⟨h.1, h.2, h.3, h.4⟩
    · exact h
  unfold checkSignal
  split
  · exact ⟨halarm.1, halarm.2, halarm.3, halarm.4⟩
  · exact halarm

theorem Within.nice {p : SchedTask} (h : Within p) {increment : ℤ}
    (hle : toLong (p.priority - increment) ≤ 1073741824) : Within (sysNice increment p) := by
  unfold sysNice
  split
  · rename_i hpos
    exact ⟨hpos, hle, h.3, h.4⟩
  · exact h

/-- `schedule` keeps the invariant. -/
theorem All.schedule {s s' : Scheduler} (h : s.All Within) (hs : s.schedule = some s') :
    s'.All Within :=
  (h.mapTasks fun _ hp => hp.check s.jiffies).scheduleLoop (fun _ hp => hp.refill_within) hs

/-- Two rounds of `schedule` are enough, and they choose the idle task only if no other task is
runnable. -/
theorem All.scheduleLoop_two {s : Scheduler} (h : s.All Within) :
    ∃ s', Scheduler.scheduleLoop 2 s = some s' ∧ (s'.current = 0 →
      ∀ t p, t ≠ 0 → t < nrTasks → s'.task t = some p → p.state ≠ .running) := by
  have hidle : ∀ s : Scheduler, s.All Within → (s.pick (nrTasks - 1) (-1) 0).2 = 0 →
      ∀ t p, t ≠ 0 → t < nrTasks → s.task t = some p → p.state ≠ .running := by
    intro s h hnext t p h0 hlt hp hrun
    have hle := (le_pick s (nrTasks - 1) (-1) 0).2 t p h0 (Nat.le_sub_one_of_lt hlt) hp hrun
    rw [(pick_idle hnext).2] at hle
    have := (h t p hp).counter_nonneg
    omega
  rw [Scheduler.scheduleLoop]
  split
  · rename_i hzero
    have hlt : -1 < (s.pick (nrTasks - 1) (-1) 0).1 := by omega
    obtain ⟨t, p, h0, hle, hp, hrun, hcounter⟩ := exists_of_pick hlt
    have hrefill : (s.mapTasks Scheduler.refill).task t = some (Scheduler.refill p) := by
      simp only [Scheduler.mapTasks, if_neg h0, hp, Option.map_some]
    have hpick := (le_pick (s.mapTasks Scheduler.refill) (nrTasks - 1) (-1) 0).2 t _ h0 hle hrefill
      hrun
    have hpos := (h t p hp).priority_pos
    rw [(h t p hp).refill, hcounter, hzero] at hpick
    rw [Scheduler.scheduleLoop, if_neg (by omega)]
    exact ⟨_, rfl, hidle _ (h.mapTasks fun _ hp => hp.refill_within)⟩
  · exact ⟨_, rfl, hidle s h⟩

theorem All.fair {s : Scheduler} (h : s.All Within) : s.Fair where
  priority t p hp := (h t p hp).priority_pos
  counter t p hp := (h t p hp).counter_nonneg
  idle := (h.mapTasks fun _ hp => hp.check s.jiffies).scheduleLoop_two

theorem All.doTimer {s s' : Scheduler} {p : SchedTask} {user : Bool} (h : s.All Within)
    (hp : s.task s.current = some p) (hs : s.doTimer p user = some s') : s'.All Within := by
  have hstop : (s.modify s.current fun p => { p with counter := 0 }).All Within :=
    h.modify _ fun q hq => ⟨hq.1, hq.2, le_refl 0, (by decide : (0 : ℤ) ≤ 2147483647)⟩
  unfold Scheduler.doTimer at hs
  split at hs
  · rename_i hpos
    obtain rfl := Option.some.inj hs
    intro t q hq
    simp only [Scheduler.modify] at hq
    split at hq
    · rename_i ht
      rw [ht, hp, Option.map_some] at hq
      obtain rfl := Option.some.inj hq
      have hw := h _ p hp
      have htick : toLong (p.counter - 1) = p.counter - 1 :=
        by
        have := hw.counter_nonneg
        have := hw.counter_le
        exact toLong_eq (by omega) (by omega)
      have hmax : toLong (p.counter - 1) ≤ 2147483647 := by
        have := hw.counter_le
        omega
      exact ⟨hw.1, hw.2, hpos.le, hmax⟩
    · exact h t q hq
  · split at hs
    · exact hstop.schedule hs
    · obtain rfl := Option.some.inj hs
      exact hstop

theorem All.fork {s : Scheduler} {p : SchedTask} (h : s.All Within) (hp : Within p) :
    (s.fork p).All Within := by
  unfold Scheduler.fork
  split
  · exact h
  · refine h.update _ fun q hq => ?_
    obtain rfl := Option.some.inj hq
    exact ⟨hp.1, hp.2, zero_le_one.trans hp.1, hp.2.trans (by decide)⟩

/-- One step keeps the invariant. -/
theorem All.next {s s' : Scheduler} {e : SchedEvent} (h : s.All Within) (he : s.Moderate e)
    (hs : s.next e = some s') : s'.All Within := by
  obtain ⟨p, hp, hs⟩ := Option.bind_eq_some_iff.mp hs
  cases e with
  | nice increment =>
    obtain rfl := Option.some.inj hs
    intro t q hq
    simp only [Scheduler.modify] at hq
    split at hq
    · rename_i ht
      rw [ht, hp, Option.map_some] at hq
      obtain rfl := Option.some.inj hq
      exact (h _ p hp).nice (he increment p rfl hp)
    · exact h t q hq
  | fork =>
    obtain rfl := Option.some.inj hs
    exact h.fork (h _ p hp)
  | alarm seconds =>
    obtain rfl := Option.some.inj hs
    exact h.modify _ fun q hq => ⟨hq.1, hq.2, hq.3, hq.4⟩
  | ssetmask newmask =>
    obtain rfl := Option.some.inj hs
    exact h.modify _ fun q hq => ⟨hq.1, hq.2, hq.3, hq.4⟩
  | schedule => exact h.schedule hs
  | sleep state =>
    have hsleep : (s.modify s.current fun p => { p with state }).All Within :=
      h.modify _ fun q hq => ⟨hq.1, hq.2, hq.3, hq.4⟩
    exact hsleep.schedule hs
  | timer user =>
    have hclock : All Within { s with jiffies := toLong (s.jiffies + 1) } := h
    exact hclock.doTimer (p := p) hp hs
  | wake t =>
    obtain rfl := Option.some.inj hs
    exact h.modify _ fun q hq => ⟨hq.1, hq.2, hq.3, hq.4⟩
  | signal t bits =>
    obtain rfl := Option.some.inj hs
    exact h.modify _ fun q hq => ⟨hq.1, hq.2, hq.3, hq.4⟩
  | release t =>
    dsimp only at hs
    split at hs
    · obtain rfl := Option.some.inj hs
      exact h.update _ fun q hq => nomatch hq
    · exact nomatch hs

/-- While `sys_nice` raises no priority above `2 ^ 30`, time slices are never negative and a
runnable task is never passed over in favour of the idle task. -/
theorem fair_of_moderate {s : Scheduler}
    (h : Reachable (· = start) (fun s s' => ∃ e, s.Moderate e ∧ s.next e = some s') s) :
    s.Fair := by
  have hall : s.All Within := by
    refine h.invariant ?_ fun _ _ hs ⟨_, he, hnext⟩ => hs.next he hnext
    rintro _ rfl t p hp
    simp only [start] at hp
    split at hp
    · obtain rfl := Option.some.inj hp
      exact ⟨by decide, by decide, by decide, by decide⟩
    · exact nomatch hp
  exact hall.fair

/-- A run with a raised priority. -/
theorem fair_of_moderate_raised : (Scheduler.modify start 0 (sysNice (-5))).Fair := by
  have hmoderate : start.Moderate (.nice (-5)) := by
    intro increment p he hp
    obtain rfl := SchedEvent.nice.inj he
    obtain rfl : initTask = p := Option.some.inj hp
    decide
  have hstart : Reachable (· = start) (fun s s' => ∃ e, s.Moderate e ∧ s.next e = some s') start :=
    .of_init rfl
  exact fair_of_moderate (hstart.tail ⟨.nice (-5), hmoderate, rfl⟩)

/-- A priority of `2 ^ 31 - 1` makes the counter of a sleeping task negative, and the idle task
then runs in its place. -/
theorem exists_negative_counter :
    ∃ s, Reachable (· = start) (fun s s' => ∃ e, s.next e = some s') s ∧ s.current = 0 ∧
      (s.task 2).any (fun p => p.state = .running ∧ p.counter < 0) = true ∧ ¬ s.Fair := by
  have hrun : (runEvents next start ([.fork, .schedule, .nice (-2147483632), .fork] ++
      List.replicate 15 (.timer true) ++ [.sleep .interruptible, .wake 2,
        .sleep .interruptible])).any (fun s => s.current = 0 ∧
          (s.task 2).any (fun p => p.state = .running ∧ p.counter < 0) = true) = true := by
    decide +kernel
  have hstart : Reachable (· = start) (fun s s' => ∃ e, s.next e = some s') start := .of_init rfl
  obtain ⟨s, hs, -, hP⟩ := hstart.exists_runEvents (fun _ e _ he => ⟨e, he⟩) hrun
  obtain ⟨hcurrent, htask⟩ := of_decide_eq_true hP
  refine ⟨s, hs, hcurrent, htask, fun hfair => ?_⟩
  obtain ⟨p, hp, hneg⟩ := (Option.any_eq_true _ _).mp htask
  have := hfair.counter 2 p hp
  have := (of_decide_eq_true hneg).2
  omega

end Scheduler

end LihaLinux.Kernel
