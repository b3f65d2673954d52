import LihaLinux.Kernel.Scheduler

/-!
# The task that `schedule` selects

The selection loop of `schedule` starts with the counter -1 and the idle task, and takes every
runnable task with a larger counter. A result of 0 means that some task is runnable and that all
runnable tasks have used up their time slices; -1 means that no task is runnable. So the loop ends
in its second round at the latest, as the new counters of the runnable tasks are positive.
-/

namespace LihaLinux.Kernel.Scheduler

/-- A task other than the idle task that can run. -/
def Runnable (s : Scheduler) (t : ℕ) (p : SchedTask) : Prop :=
  t ≠ 0 ∧ t < nrTasks ∧ s.task t = some p ∧ p.state = .running

/-- The counters and priorities are within bounds that keep the arithmetic of `schedule` exact. -/
def Bounded (s : Scheduler) : Prop :=
  ∀ t p, t ≠ 0 → t < nrTasks → s.task t = some p →
    0 ≤ p.counter ∧ p.counter ≤ 536870912 ∧ 1 ≤ p.priority ∧ p.priority ≤ 536870912

/-- A runnable task with a positive counter that no other runnable task exceeds, and that no later
entry of the table equals. -/
def Selected (s : Scheduler) (t : ℕ) : Prop :=
  ∃ p, s.Runnable t p ∧ 0 < p.counter ∧ ∀ u q, s.Runnable u q →
    q.counter ≤ p.counter ∧ (q.counter = p.counter → u ≤ t)

/-- The counters after the recomputation: half of the old one and the priority, for every task but
the idle task. -/
def Recomputed (s s' : Scheduler) : Prop :=
  s'.task 0 = s.task 0 ∧ s'.current = s.current ∧ s'.jiffies = s.jiffies ∧
    ∀ t, t ≠ 0 → t < nrTasks →
      s'.task t = (s.task t).map fun p => { p with counter := p.counter / 2 + p.priority }

/-! ### The inner loop -/

/-- The loop keeps what it started with, or it ends with the last of the runnable tasks that have
the largest counter. -/
theorem pick_cases (s : Scheduler) (n : ℕ) (c : ℤ) (next : ℕ) :
    s.pick n c next = (c, next) ∨
      ∃ p, (s.pick n c next).2 ≠ 0 ∧ (s.pick n c next).2 ≤ n ∧
        s.task (s.pick n c next).2 = some p ∧ p.state = .running ∧
        p.counter = (s.pick n c next).1 ∧ c < p.counter ∧
        ∀ t q, t ≠ 0 → t ≤ n → s.task t = some q → q.state = .running →
          q.counter = p.counter → t ≤ (s.pick n c next).2 := by
  induction n generalizing c next with
  | zero =>
    left
    rw [pick]
  | succ n ih =>
    rw [pick]
    cases hq : s.task (n + 1) with
    | none =>
      rcases ih c next with heq | ⟨p, h0, hle, hp, hrun, hcounter, hlt, hlast⟩
      · exact Or.inl heq
      · right
        refine ⟨p, h0, hle.trans n.le_succ, hp, hrun, hcounter, hlt, ?_⟩
        intro t q h0' hle' hq' hrun' heq
        rcases Nat.lt_or_eq_of_le hle' with hlt' | rfl
        · exact hlast t q h0' (Nat.lt_succ_iff.mp hlt') hq' hrun' heq
        · rw [hq] at hq'
          exact absurd hq' (by simp)
    | some q =>
      dsimp only
      split
      · -- the later slots hold smaller counters or none, so this one stays unless beaten
        rename_i hbetter
        right
        rcases ih q.counter (n + 1) with heq | ⟨p, h0, hle, hp, hrun, hcounter, hlt, hlast⟩
        · rw [heq]
          exact ⟨q, n.succ_ne_zero, le_rfl, hq, hbetter.1, rfl, hbetter.2,
            fun t _ _ hle' _ _ _ => hle'⟩
        · refine ⟨p, h0, hle.trans n.le_succ, hp, hrun, hcounter, hbetter.2.trans hlt, ?_⟩
          intro t r h0' hle' hr hrun' heq
          rcases Nat.lt_or_eq_of_le hle' with hlt' | rfl
          · exact hlast t r h0' (Nat.lt_succ_iff.mp hlt') hr hrun' heq
          · rw [hq] at hr
            obtain rfl := Option.some.inj hr
            omega
      · rename_i hnot
        rcases ih c next with heq | ⟨p, h0, hle, hp, hrun, hcounter, hlt, hlast⟩
        · exact Or.inl heq
        · right
          refine ⟨p, h0, hle.trans n.le_succ, hp, hrun, hcounter, hlt, ?_⟩
          intro t r h0' hle' hr hrun' heq
          rcases Nat.lt_or_eq_of_le hle' with hlt' | rfl
          · exact hlast t r h0' (Nat.lt_succ_iff.mp hlt') hr hrun' heq
          · rw [hq] at hr
            obtain rfl := Option.some.inj hr
            exact absurd ⟨hrun', heq ▸ hlt⟩ hnot

/-- A round whose counter is not zero ends with the idle task if no task is runnable, and with a
selected task otherwise. -/
theorem pick_selected {s : Scheduler} (hbounded : s.Bounded)
    (hzero : (s.pick (nrTasks - 1) (-1) 0).1 ≠ 0) :
    ((s.pick (nrTasks - 1) (-1) 0).2 = 0 ∧ ∀ t p, ¬ s.Runnable t p) ∨
      s.Selected (s.pick (nrTasks - 1) (-1) 0).2 := by
  have hmax := (le_pick s (nrTasks - 1) (-1) 0).2
  rcases s.pick_cases (nrTasks - 1) (-1) 0 with heq | ⟨p, h0, hle, hp, hrun, hcounter, hlt, hlast⟩
  · left
    rw [heq] at hmax ⊢
    refine ⟨rfl, ?_⟩
    rintro t p ⟨h0, hlt, hp, hrun⟩
    have hle := hmax t p h0 (Nat.le_sub_one_of_lt hlt) hp hrun
    have hnonneg := (hbounded t p h0 hlt hp).1
    dsimp only at hle
    omega
  · right
    have hslot : (s.pick (nrTasks - 1) (-1) 0).2 < nrTasks := by
      have : nrTasks = 64 := rfl
      omega
    refine ⟨p, ⟨h0, hslot, hp, hrun⟩, ?_, ?_⟩
    · have hnonneg := (hbounded _ p h0 hslot hp).1
      omega
    · rintro u q ⟨hu, hlt', hq, hrun'⟩
      have hle' := Nat.le_sub_one_of_lt hlt'
      constructor
      · rw [hcounter]
        exact hmax u q hu hle' hq hrun'
      · exact hlast u q hu hle' hq hrun'

/-- A round ends with the counter zero if and only if some task is runnable and all runnable tasks
have used up their time slices. -/
theorem pick_zero_iff {s : Scheduler} (hbounded : s.Bounded) :
    (s.pick (nrTasks - 1) (-1) 0).1 = 0 ↔
      (∃ t p, s.Runnable t p) ∧ ∀ t p, s.Runnable t p → p.counter = 0 := by
  have hmax := (le_pick s (nrTasks - 1) (-1) 0).2
  constructor
  · intro hzero
    constructor
    · have hlt : -1 < (s.pick (nrTasks - 1) (-1) 0).1 := by omega
      obtain ⟨t, p, h0, hle, hp, hrun, -⟩ := exists_of_pick hlt
      exact ⟨t, p, h0, Nat.lt_of_le_sub_one (by decide) hle, hp, hrun⟩
    · rintro t p ⟨h0, hlt, hp, hrun⟩
      have hle := hmax t p h0 (Nat.le_sub_one_of_lt hlt) hp hrun
      have hnonneg := (hbounded t p h0 hlt hp).1
      omega
  · rintro ⟨⟨t, p, h0, hlt, hp, hrun⟩, hall⟩
    have hle := hmax t p h0 (Nat.le_sub_one_of_lt hlt) hp hrun
    rw [hall t p ⟨h0, hlt, hp, hrun⟩] at hle
    have hgt : -1 < (s.pick (nrTasks - 1) (-1) 0).1 := by omega
    obtain ⟨u, q, h0', hle', hq, hrun', hcounter⟩ := exists_of_pick hgt
    rw [← hcounter]
    exact hall u q ⟨h0', Nat.lt_of_le_sub_one (by decide) hle', hq, hrun'⟩

/-! ### The recomputation -/

/-- The recomputation is exact within the bounds. -/
theorem Bounded.recomputed {s : Scheduler} (hbounded : s.Bounded) :
    s.Recomputed (s.mapTasks refill) := by
  refine ⟨rfl, rfl, rfl, ?_⟩
  intro t h0 hlt
  simp only [mapTasks, if_neg h0]
  cases hp : s.task t with
  | none => rw [Option.map_none, Option.map_none]
  | some p =>
    obtain ⟨hnonneg, hle, hpos, hmax⟩ := hbounded t p h0 hlt hp
    rw [Option.map_some, Option.map_some, refill, toLong_eq (by omega) (by omega)]

/-- A round after the recomputation, while some task is runnable, ends with a selected task. -/
theorem Bounded.pick_refill {s : Scheduler} (hbounded : s.Bounded) {t : ℕ} {p : SchedTask}
    (hrun : s.Runnable t p) :
    ((s.mapTasks refill).pick (nrTasks - 1) (-1) 0).1 ≠ 0 ∧
      (s.mapTasks refill).Selected ((s.mapTasks refill).pick (nrTasks - 1) (-1) 0).2 := by
  obtain ⟨h0, hlt, hp, hstate⟩ := hrun
  have hnew := hbounded.recomputed.2.2.2 t h0 hlt
  rw [hp, Option.map_some] at hnew
  have hmax := (le_pick (s.mapTasks refill) (nrTasks - 1) (-1) 0).2
  have hpos := hbounded t p h0 hlt hp
  have hle := hmax t _ h0 (Nat.le_sub_one_of_lt hlt) hnew hstate
  dsimp only at hle
  have hgt : 0 < ((s.mapTasks refill).pick (nrTasks - 1) (-1) 0).1 := by omega
  refine ⟨hgt.ne', ?_⟩
  rcases (s.mapTasks refill).pick_cases (nrTasks - 1) (-1) 0 with
    heq | ⟨q, h0', hle', hq, hrun', hcounter, -, hlast⟩
  · rw [heq] at hgt
    exact absurd hgt (by decide)
  · refine ⟨q, ⟨h0', Nat.lt_of_le_sub_one (by decide) hle', hq, hrun'⟩, by omega, ?_⟩
    rintro u r ⟨hu, hlt', hr, hstate'⟩
    constructor
    · rw [hcounter]
      exact hmax u r hu (Nat.le_sub_one_of_lt hlt') hr hstate'
    · exact hlast u r hu (Nat.le_sub_one_of_lt hlt') hr hstate'

/-! ### The selection loop -/

/-- The first loop of `schedule` changes no counter and no priority. -/
theorem Bounded.scan {s : Scheduler} (hbounded : s.Bounded) : s.scan.Bounded := by
  intro t p h0 hlt hp
  simp only [Scheduler.scan, mapTasks, if_neg h0] at hp
  obtain ⟨q, hq, rfl⟩ := Option.map_eq_some_iff.mp hp
  have hcounter : (checkSignal (checkAlarm s.jiffies q)).counter = q.counter ∧
      (checkSignal (checkAlarm s.jiffies q)).priority = q.priority := by
    unfold checkSignal checkAlarm
    split <;> split <;> exact ⟨rfl, rfl⟩
  rw [hcounter.1, hcounter.2]
  exact hbounded t q h0 hlt hq

/-- However many rounds the loop may take, it ends in the first or the second one. The idle task is
selected if and only if no other task is runnable; otherwise a task with the largest counter is,
after one recomputation if all counters of runnable tasks were zero. -/
theorem scheduleLoop_selects {s : Scheduler} (hbounded : s.Bounded) (n : ℕ) :
    ∃ s' next, scheduleLoop (n + 2) s = some { s' with current := next } ∧
      (s' = s ∧ ¬ ((∃ t p, s.Runnable t p) ∧ ∀ t p, s.Runnable t p → p.counter = 0) ∨
        s.Recomputed s' ∧ ((∃ t p, s.Runnable t p) ∧ ∀ t p, s.Runnable t p → p.counter = 0)) ∧
      (next = 0 ↔ ∀ t p, ¬ s.Runnable t p) ∧ (next ≠ 0 → s'.Selected next) := by
  rw [scheduleLoop]
  split
  · rename_i hzero
    have hused := (pick_zero_iff hbounded).mp hzero
    obtain ⟨t, p, hrun⟩ := hused.1
    obtain ⟨hne, hselected⟩ := hbounded.pick_refill hrun
    rw [scheduleLoop, if_neg hne]
    refine ⟨_, _, rfl, Or.inr ⟨hbounded.recomputed, hused⟩, ?_, fun _ => hselected⟩
    obtain ⟨q, hq, -⟩ := hselected
    constructor
    · intro h0
      exact absurd h0 hq.1
    · intro hnone
      exact absurd hrun (hnone t p)
  · rename_i hzero
    have hnot := mt (pick_zero_iff hbounded).mpr hzero
    refine ⟨s, _, rfl, Or.inl ⟨rfl, hnot⟩, ?_⟩
    rcases pick_selected hbounded hzero with ⟨h0, hnone⟩ | hselected
    · exact ⟨iff_of_true h0 hnone, fun hne => absurd h0 hne⟩
    · refine ⟨?_, fun _ => hselected⟩
      obtain ⟨p, hp, -⟩ := hselected
      exact iff_of_false hp.1 fun hnone => hnone _ p hp

/-- `schedule` selects the idle task if and only if no other task is runnable once signals and
alarms have been looked at, and the task with the largest counter otherwise. -/
theorem schedule_selects {s : Scheduler} (hbounded : s.Bounded) :
    (∀ n, scheduleLoop (n + 2) s.scan = s.schedule) ∧
    ∃ s' next, s.schedule = some { s' with current := next } ∧
      (s' = s.scan ∧ ¬ ((∃ t p, s.scan.Runnable t p) ∧
          ∀ t p, s.scan.Runnable t p → p.counter = 0) ∨
        s.scan.Recomputed s' ∧ ((∃ t p, s.scan.Runnable t p) ∧
          ∀ t p, s.scan.Runnable t p → p.counter = 0)) ∧
      (next = 0 ↔ ∀ t p, ¬ s.scan.Runnable t p) ∧ (next ≠ 0 → s'.Selected next) := by
  constructor
  · intro n
    by_cases hzero : (s.scan.pick (nrTasks - 1) (-1) 0).1 = 0
    · obtain ⟨t, p, hrun⟩ := ((pick_zero_iff hbounded.scan).mp hzero).1
      have hne := (hbounded.scan.pick_refill hrun).1
      simp only [schedule, scheduleLoop, if_pos hzero, if_neg hne]
    · simp only [schedule, scheduleLoop, if_neg hzero]
  · exact scheduleLoop_selects hbounded.scan 0

/-- The first task that is forked runs at once. -/
theorem schedule_selects_fork :
    ∃ s', (start.fork initTask).schedule = some s' ∧ s'.current = 1 := by
  have htask : ∀ t p, t ≠ 0 → (start.fork initTask).task t = some p → t = 1 ∧ p = initTask := by
    have hfree : start.freeTask = some 1 := by decide
    intro t p h0 hp
    simp only [fork, hfree] at hp
    by_cases ht : t = 1
    · subst ht
      rw [Function.update_self] at hp
      exact ⟨rfl, (Option.some.inj hp).symm⟩
    · rw [Function.update_of_ne ht, start] at hp
      simp only [if_neg h0] at hp
      exact absurd hp (by simp)
  have hbounded : (start.fork initTask).Bounded := by
    intro t p h0 _ hp
    rw [(htask t p h0 hp).2]
    decide
  obtain ⟨-, s', next, hs, hround, hidle, hselected⟩ := schedule_selects hbounded
  have hone : (start.fork initTask).scan.Runnable 1 initTask :=
    ⟨by decide, by decide, rfl, rfl⟩
  have hne : next ≠ 0 := fun h0 => hidle.mp h0 1 initTask hone
  -- the round is the first one, as the new task has ticks left
  rcases hround with ⟨rfl, -⟩ | ⟨-, -, hused⟩
  · obtain ⟨p, ⟨-, -, hp, -⟩, -⟩ := hselected hne
    simp only [scan, mapTasks, if_neg hne] at hp
    obtain ⟨q, hq, -⟩ := Option.map_eq_some_iff.mp hp
    exact ⟨_, hs, (htask next q hne hq).1⟩
  · exact absurd (hused 1 initTask hone) (by decide)

end LihaLinux.Kernel.Scheduler
