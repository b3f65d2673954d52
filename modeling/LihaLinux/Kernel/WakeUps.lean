import LihaLinux.Kernel.InterruptibleSleep

/-!
# Which sleepers can be woken

A task that goes back to sleep in `interruptible_sleep_on` does not put itself into the queue
again. If it is not in the queue any more, because a `wake_up` has emptied it and another task
has gone to sleep meanwhile, nothing leads to it. And a task that leaves stores into the state of
the task that it has saved, also when that one has left long ago. These are the only two ways in
which a sleeper is lost and a store of 0 hits anything else than a sleeper.
-/

namespace LihaLinux.Kernel

namespace Sleepers

variable {ι τ : Type*} [DecidableEq ι] [DecidableEq τ]

/-- A task can be met from `*p`, or from a task that has been made runnable. -/
def Reached (s : Sleepers ι τ) (q : ι) (t : τ) : Prop :=
  ∃ r n, s.Root q r ∧ follow (s.saved q) n r = some t

/-- The condition on an event under which no sleeper is lost: a task that goes back to sleep
with another task at the head of the queue is itself met from the head, or from another task that
has been made runnable. -/
def Queued (s : Sleepers ι τ) (e : SleepersEvent ι τ) : Prop :=
  ∀ q t h, e = .resume q t → s.other q t = some h →
    ∃ r n, r ≠ t ∧ s.Root q r ∧ follow (s.saved q) n r = some t

/-- The condition on an event under which stores of 0 hit sleepers only: no task leaves while a task
that is inside a sleep on the queue has saved it. -/
def Unsaved (s : Sleepers ι τ) (e : SleepersEvent ι τ) : Prop :=
  ∀ q t, e = .resume q t → s.other q t = none → ∀ x, s.saved q x ≠ some t

/-- The steps of which no one loses a sleeper. -/
def QueuedStep (s s' : Sleepers ι τ) : Prop := ∃ e, s.next e = some s' ∧ s.Queued e

/-- The steps after which all saved tasks are sleepers. -/
def UnsavedStep (s s' : Sleepers ι τ) : Prop := ∃ e, s.next e = some s' ∧ s.Unsaved e

/-- Every sleeping task can be met. -/
def AllReached (s : Sleepers ι τ) : Prop := ∀ q t, s.Asleep q t → s.Reached q t

/-- Every saved task is inside a sleep on the same queue. -/
def AllSaved (s : Sleepers ι τ) : Prop := ∀ q x u, s.saved q x = some u → s.inside u = some q

section

variable {s s' : Sleepers ι τ} {e : SleepersEvent ι τ} {q : ι} {t : τ}

omit [DecidableEq τ] in
theorem saved_of_inside (h : s.inside t = some q) : s.saved q t = s.tmp t := if_pos h

omit [DecidableEq τ] in
theorem saved_of_not_inside (h : s.inside t ≠ some q) : s.saved q t = none := if_neg h

omit [DecidableEq τ] in
theorem inside_of_saved {u : τ} (h : s.saved q t = some u) : s.inside t = some q := by
  by_contra hin
  rw [saved_of_not_inside hin] at h
  exact absurd h (by simp)

omit [DecidableEq ι] [DecidableEq τ] in
theorem Asleep.not_running (h : s.Asleep q t) : s.state t ≠ .running := by
  rw [h.2]
  decide

/-! ### `interruptible_sleep_on` up to `schedule` -/

theorem saved_sleepOn_self : (s.sleepOn q t).saved q t = s.head q := by
  simp only [saved, sleepOn, Function.update_self, if_true]

theorem saved_sleepOn_of_ne {q' : ι} {x : τ} (hx : x ≠ t) :
    (s.sleepOn q t).saved q' x = s.saved q' x := by
  simp only [saved, sleepOn, Function.update_of_ne hx]

theorem saved_sleepOn_mono (hout : s.inside t = none) (q' : ι) (x y : τ)
    (h : s.saved q' x = some y) : (s.sleepOn q t).saved q' x = some y := by
  have hx : x ≠ t := by
    rintro rfl
    exact absurd (hout.symm.trans (inside_of_saved h)) (by simp)
  rw [saved_sleepOn_of_ne hx, h]

theorem AllReached.sleepOn (hall : s.AllReached) (hout : s.inside t = none) :
    (s.sleepOn q t).AllReached := by
  intro q' u hu
  by_cases hut : u = t
  · subst hut
    have hq : q = q' := by
      have hin := hu.1
      simp only [Sleepers.sleepOn, Function.update_self, Option.some.injEq] at hin
      exact hin
    subst hq
    exact ⟨u, 0, Or.inl (Function.update_self ..), rfl⟩
  · have hold : s.Asleep q' u := by
      simp only [Asleep, Sleepers.sleepOn, Function.update_of_ne hut] at hu
      exact hu
    obtain ⟨r, n, hr, hn⟩ := hall q' u hold
    have hn' := follow_mono (saved_sleepOn_mono (q := q) hout q') hn
    rcases hr with hr | hr
    · by_cases hq : q' = q
      · subst hq
        have hfirst : follow ((s.sleepOn q' t).saved q') 1 t = some r := saved_sleepOn_self.trans hr
        exact ⟨t, 1 + n, Or.inl (Function.update_self ..), follow_add hfirst hn'⟩
      · refine ⟨r, n, Or.inl ?_, hn'⟩
        simp only [Sleepers.sleepOn, Function.update_of_ne hq]
        exact hr
    · have hrt : r ≠ t := by
        rintro rfl
        exact absurd (hout.symm.trans hr.1) (by simp)
      refine ⟨r, n, Or.inr ?_, hn'⟩
      simp only [Woken, Sleepers.sleepOn, Function.update_of_ne hrt]
      exact hr

/-! ### `wake_up` -/

omit [DecidableEq ι] in
/-- A task that sleeps after a store of 0 has slept before. -/
theorem asleep_of_wake {p : Option τ} {u : τ} {x : TaskState}
    (h : SleepQueue.wake s.state p u = x) (hx : x ≠ .running) : p ≠ some u ∧ s.state u = x := by
  have hp : p ≠ some u := by
    rintro rfl
    rw [SleepQueue.wake_self] at h
    exact hx h.symm
  exact ⟨hp, (SleepQueue.wake_of_ne hp).symm.trans h⟩

theorem AllReached.wakeUp (hall : s.AllReached) (hwf : s.Wf) (q : ι) :
    (s.wakeUp q).AllReached := by
  intro q' u hu
  have hold : s.Asleep q' u := ⟨hu.1, (asleep_of_wake hu.2 (by decide)).2⟩
  obtain ⟨r, n, hr, hn⟩ := hall q' u hold
  refine ⟨r, n, ?_, hn⟩
  rcases hr with hr | hr
  · by_cases hq : q' = q
    · subst hq
      refine Or.inr ⟨hwf.head q' r hr, ?_⟩
      simp only [Sleepers.wakeUp, hr]
      exact SleepQueue.wake_self
    · left
      simp only [Sleepers.wakeUp, Function.update_of_ne hq]
      exact hr
  · exact Or.inr ⟨hr.1, SleepQueue.wake_running hr.2⟩

/-! ### `interruptible_sleep_on` after `schedule` -/

omit [DecidableEq ι] in
theorem root_sleepAgain {h r : τ} {q' : ι} (hr : s.Root q' r) (hrt : r ≠ t) :
    (s.sleepAgain h t).Root q' r := by
  rcases hr with hr | hr
  · exact Or.inl hr
  · refine Or.inr ⟨hr.1, ?_⟩
    simp only [sleepAgain, Function.update_of_ne hrt]
    exact SleepQueue.wake_running (p := some h) hr.2

/-- What is met from the task that goes back to sleep is met from where that task is met. -/
theorem AllReached.sleepAgain {h : τ} (hall : s.AllReached) (ht : s.Woken q t)
    (hqueued : ∃ r n, r ≠ t ∧ s.Root q r ∧ follow (s.saved q) n r = some t) :
    (s.sleepAgain h t).AllReached := by
  obtain ⟨r₀, n₀, hr₀t, hr₀, hn₀⟩ := hqueued
  intro q' u hu
  by_cases hut : u = t
  · subst hut
    obtain rfl : q = q' := Option.some.inj (ht.1.symm.trans hu.1)
    exact ⟨r₀, n₀, root_sleepAgain hr₀ hr₀t, hn₀⟩
  · have hold : s.Asleep q' u := by
      refine ⟨hu.1, ?_⟩
      have hstate := hu.2
      simp only [Sleepers.sleepAgain, Function.update_of_ne hut] at hstate
      exact (asleep_of_wake (p := some h) hstate (by decide)).2
    obtain ⟨r, n, hr, hn⟩ := hall q' u hold
    by_cases hrt : r = t
    · subst hrt
      rcases hr with hr | hr
      · exact ⟨r, n, Or.inl hr, hn⟩
      · obtain rfl : q = q' := Option.some.inj (ht.1.symm.trans hr.1)
        exact ⟨r₀, n₀ + n, root_sleepAgain hr₀ hr₀t, follow_add hn₀ hn⟩
    · exact ⟨r, n, root_sleepAgain hr hrt, hn⟩

theorem saved_leave_self {q' : ι} : (s.leave q t).saved q' t = none := by
  refine saved_of_not_inside ?_
  simp only [leave, Function.update_self, ne_eq, reduceCtorEq, not_false_eq_true]

theorem saved_leave_of_ne {q' : ι} {x : τ} (hx : x ≠ t) :
    (s.leave q t).saved q' x = s.saved q' x := by
  simp only [saved, leave, Function.update_of_ne hx]

/-- What was met behind the task that leaves is met from the task that it wakes. -/
theorem AllReached.leave (hall : s.AllReached) (ht : s.Woken q t)
    (hhead : ∀ h, s.head q = some h → h = t) : (s.leave q t).AllReached := by
  intro q' u hu
  have hut : u ≠ t := by
    rintro rfl
    have hin := hu.1
    simp only [Sleepers.leave, Function.update_self, reduceCtorEq] at hin
  have hold : s.Asleep q' u := by
    have hin := hu.1
    simp only [Sleepers.leave, Function.update_of_ne hut] at hin
    exact ⟨hin, (asleep_of_wake hu.2 (by decide)).2⟩
  obtain ⟨r, n, hr, hn⟩ := hall q' u hold
  have hcut : ∀ x, x ≠ t → (s.leave q t).saved q' x = s.saved q' x :=
    fun x hx => saved_leave_of_ne hx
  rcases follow_cut hcut hn with hn' | ⟨v, m, hv, hm⟩
  · have hrt : r ≠ t := by
      rintro rfl
      cases n with
      | zero => exact hut (Option.some.inj hn).symm
      | succ n =>
        rw [follow_of_none saved_leave_self] at hn'
        exact absurd hn' (by simp)
    refine ⟨r, n, ?_, hn'⟩
    rcases hr with hr | hr
    · by_cases hq : q' = q
      · exact absurd (hhead r (hq ▸ hr)) hrt
      · left
        simp only [Sleepers.leave, Function.update_of_ne hq]
        exact hr
    · right
      refine ⟨?_, SleepQueue.wake_running hr.2⟩
      simp only [Sleepers.leave, Function.update_of_ne hrt]
      exact hr.1
  · have hv' : s.tmp t = some v := (saved_of_inside (inside_of_saved hv)).symm.trans hv
    have hrun : (s.leave q t).state v = .running := by
      simp only [Sleepers.leave, hv']
      exact SleepQueue.wake_self
    cases m with
    | zero =>
      obtain rfl : v = u := Option.some.inj hm
      exact absurd hrun hu.not_running
    | succ m =>
      refine ⟨v, m + 1, Or.inr ⟨?_, hrun⟩, hm⟩
      by_contra hin
      rw [follow_of_none (saved_of_not_inside hin)] at hm
      exact absurd hm (by simp)

/-! ### The other events -/

/-- A change of the state of a task that is not inside a sleep, or to running. -/
theorem AllReached.setState {x : TaskState} (hall : s.AllReached)
    (hx : s.inside t = none ∨ x = .running) : (s.setState t x).AllReached := by
  intro q' u hu
  have hout : ∀ r, s.inside r = some q' → x ≠ .running → r ≠ t := by
    rintro r hr hxr rfl
    rcases hx with hx | hx
    · exact absurd (hx.symm.trans hr) (by simp)
    · exact hxr hx
  have hold : s.Asleep q' u := by
    refine ⟨hu.1, ?_⟩
    have hstate := hu.2
    by_cases hut : u = t
    · subst hut
      simp only [Sleepers.setState, Function.update_self] at hstate
      exact absurd rfl (hout u hu.1 (by rw [hstate]; decide))
    · simp only [Sleepers.setState, Function.update_of_ne hut] at hstate
      exact hstate
  obtain ⟨r, n, hr, hn⟩ := hall q' u hold
  refine ⟨r, n, ?_, hn⟩
  rcases hr with hr | hr
  · exact Or.inl hr
  · refine Or.inr ⟨hr.1, ?_⟩
    by_cases hrt : r = t
    · subst hrt
      by_cases hxr : x = .running
      · simp only [Sleepers.setState, Function.update_self, hxr]
      · exact absurd rfl (hout r hr.1 hxr)
    · simp only [Sleepers.setState, Function.update_of_ne hrt]
      exact hr.2

/-- A step loses a sleeper only if a task goes back to sleep outside the queue. -/
theorem AllReached.next (hall : s.AllReached) (hwf : s.Wf) (h : s.next e = some s')
    (hqueued : s.Queued e) : s'.AllReached := by
  cases e with
  | sleepOn q t =>
    simp only [Sleepers.next, Option.ite_none_right_eq_some, Option.some.injEq] at h
    obtain ⟨⟨hout, -⟩, rfl⟩ := h
    exact hall.sleepOn hout
  | wakeUp q =>
    obtain rfl := Option.some.inj h
    exact hall.wakeUp hwf q
  | resume q t =>
    simp only [Sleepers.next, Option.ite_none_right_eq_some, Option.some.injEq] at h
    obtain ⟨ht, rfl⟩ := h
    rcases s.resume_cases q t with ⟨h, -, -, hother, heq⟩ | ⟨hhead, -, heq⟩
    · rw [heq]
      exact hall.sleepAgain ht (hqueued q t h rfl hother)
    · rw [heq]
      exact hall.leave ht hhead
  | signal t =>
    simp only [Sleepers.next, Option.ite_none_right_eq_some, Option.some.injEq] at h
    obtain ⟨-, rfl⟩ := h
    exact hall.setState (Or.inr rfl)
  | exit t =>
    simp only [Sleepers.next, Option.ite_none_right_eq_some, Option.some.injEq] at h
    obtain ⟨⟨hout, -⟩, rfl⟩ := h
    exact hall.setState (Or.inl hout)
  | release t =>
    simp only [Sleepers.next, Option.ite_none_right_eq_some, Option.some.injEq] at h
    obtain ⟨-, rfl⟩ := h
    exact hall
  | fork t =>
    simp only [Sleepers.next, Option.ite_none_right_eq_some, Option.some.injEq] at h
    obtain ⟨-, rfl⟩ := h
    exact AllReached.setState (s := s.setUsed t true) hall (Or.inr rfl)

/-! ### Saved tasks -/

theorem AllSaved.sleepOn (hall : s.AllSaved) (hwf : s.Wf) (hout : s.inside t = none) :
    (s.sleepOn q t).AllSaved := by
  have hkeep : ∀ q' u, s.inside u = some q' → (s.sleepOn q t).inside u = some q' := by
    intro q' u hu
    have hut : u ≠ t := by
      rintro rfl
      exact absurd (hout.symm.trans hu) (by simp)
    simp only [Sleepers.sleepOn, Function.update_of_ne hut]
    exact hu
  intro q' x u hx
  by_cases hxt : x = t
  · subst hxt
    have hq : q = q' := by
      have hin := inside_of_saved hx
      simp only [Sleepers.sleepOn, Function.update_self, Option.some.injEq] at hin
      exact hin
    subst hq
    rw [saved_sleepOn_self] at hx
    exact hkeep q u (hwf.head q u hx)
  · rw [saved_sleepOn_of_ne hxt] at hx
    exact hkeep q' u (hall q' x u hx)

theorem AllSaved.leave (hall : s.AllSaved) (ht : s.Woken q t)
    (hunsaved : ∀ x, s.saved q x ≠ some t) : (s.leave q t).AllSaved := by
  intro q' x u hx
  have hxt : x ≠ t := by
    rintro rfl
    rw [saved_leave_self] at hx
    exact absurd hx (by simp)
  rw [saved_leave_of_ne hxt] at hx
  have hin := hall q' x u hx
  have hut : u ≠ t := by
    rintro rfl
    obtain rfl : q = q' := Option.some.inj (ht.1.symm.trans hin)
    exact hunsaved x hx
  simp only [Sleepers.leave, Function.update_of_ne hut]
  exact hin

/-- A step keeps all saved tasks inside, unless a task leaves that another one has saved. -/
theorem AllSaved.next (hall : s.AllSaved) (hwf : s.Wf) (h : s.next e = some s')
    (hunsaved : s.Unsaved e) : s'.AllSaved := by
  cases e with
  | sleepOn q t =>
    simp only [Sleepers.next, Option.ite_none_right_eq_some, Option.some.injEq] at h
    obtain ⟨⟨hout, -⟩, rfl⟩ := h
    exact hall.sleepOn hwf hout
  | wakeUp q =>
    obtain rfl := Option.some.inj h
    exact hall
  | resume q t =>
    simp only [Sleepers.next, Option.ite_none_right_eq_some, Option.some.injEq] at h
    obtain ⟨ht, rfl⟩ := h
    rcases s.resume_cases q t with ⟨h, -, -, -, heq⟩ | ⟨-, hother, heq⟩
    · rw [heq]
      exact hall
    · rw [heq]
      exact hall.leave ht (hunsaved q t rfl hother)
  | signal t | exit t | release t | fork t =>
    simp only [Sleepers.next, Option.ite_none_right_eq_some, Option.some.injEq] at h
    obtain ⟨-, rfl⟩ := h
    exact hall

/-! ### Runs -/

/-- In a run in which no task goes back to sleep outside the queue, every task that sleeps in
`interruptible_sleep_on` can be met from `*p` or from a task that has been made runnable. -/
theorem asleep_reached (h : Reachable Initial QueuedStep s) (ht : s.Asleep q t) :
    s.Reached q t := by
  have hinv : s.Wf ∧ s.AllReached := by
    refine h.invariant (P := fun s => s.Wf ∧ s.AllReached)
      (fun s hs => ⟨hs.wf, fun q t ht => ?_⟩) ?_
    · exact absurd ((hs.2 t).symm.trans ht.1) (by simp)
    · rintro s s' ⟨hwf, hall⟩ ⟨e, he, hqueued⟩
      exact ⟨hwf.next he, hall.next hwf he hqueued⟩
  exact hinv.2 q t ht

/-- In a run in which no task leaves that another one has saved, every store of 0 by `wake_up` and
`interruptible_sleep_on` is into the state of a task inside a sleep on the same queue, which is
no zombie and has not been released. -/
theorem wakes_inside {u : τ} (h : Reachable Initial UnsavedStep s) (he : s.next e = some s')
    (hu : s.wakes e = some (q, u)) :
    s.inside u = some q ∧ s.state u ≠ .zombie ∧ s.used u = true := by
  have hinv : s.Wf ∧ s.AllSaved := by
    refine h.invariant (P := fun s => s.Wf ∧ s.AllSaved)
      (fun s hs => ⟨hs.wf, fun q x u hx => ?_⟩) ?_
    · exact absurd ((hs.2 x).symm.trans (inside_of_saved hx)) (by simp)
    · rintro s s' ⟨hwf, hall⟩ ⟨e, he, hunsaved⟩
      exact ⟨hwf.next he, hall.next hwf he hunsaved⟩
  obtain ⟨hwf, hall⟩ := hinv
  suffices hin : s.inside u = some q by
    refine ⟨hin, fun hzombie => ?_, hwf.used q u hin⟩
    exact absurd ((hwf.outside_zombie hzombie).symm.trans hin) (by simp)
  cases e with
  | wakeUp q' =>
    simp only [wakes, Option.map_eq_some_iff, Prod.mk.injEq] at hu
    obtain ⟨u', hhead, rfl, rfl⟩ := hu
    exact hwf.head q' u' hhead
  | resume q' t =>
    simp only [Sleepers.next, Option.ite_none_right_eq_some, Option.some.injEq] at he
    obtain ⟨ht, -⟩ := he
    simp only [wakes, Option.map_eq_some_iff, Prod.mk.injEq] at hu
    obtain ⟨u', hstore, rfl, rfl⟩ := hu
    rcases s.resume_cases q' t with ⟨h, hhead, -, hother, -⟩ | ⟨-, hother, -⟩
    · rw [hother, Option.some_or, Option.some.injEq] at hstore
      exact hwf.head q' u' (hstore ▸ hhead)
    · rw [hother, Option.none_or] at hstore
      exact hall q' t u' ((saved_of_inside ht.1).trans hstore)
  | sleepOn q t | signal t | exit t | release t | fork t => exact absurd hu (by simp [wakes])

end

/-! ### Runs of two tasks -/

/-- A task goes to sleep, is woken, and finds another task in the queue when it resumes: when that
one has left too, nothing leads to the first. -/
theorem asleep_lost : ∃ s : Sleepers Unit (Fin 2), Reachable Initial Step s ∧
    s.Asleep () 0 ∧ ¬s.Reached () 0 := by
  have hstart : Reachable Initial Step (unused : Sleepers Unit (Fin 2)) :=
    .of_init unused_initial
  have hrun : (runEvents next (unused : Sleepers Unit (Fin 2))
      [.sleepOn () 0, .wakeUp (), .sleepOn () 1, .resume () 0, .resume () 1]).any
        (fun s => decide (s.Asleep () 0 ∧ ∀ r, ¬s.Root () r)) = true := by decide
  obtain ⟨s, hs, -, hP⟩ := hstart.exists_runEvents (fun _ e _ he => ⟨e, he⟩) hrun
  obtain ⟨hasleep, hroot⟩ := of_decide_eq_true hP
  exact ⟨s, hs, hasleep, fun ⟨r, _, hr, _⟩ => hroot r hr⟩

/-- A task goes to sleep and is woken: it can be met. -/
theorem asleep_reached_one : ∃ s : Sleepers Unit ℕ, s.Asleep () 1 ∧ s.Reached () 1 := by
  have hstart : Reachable Initial QueuedStep (unused : Sleepers Unit ℕ) :=
    .of_init unused_initial
  have hstep : QueuedStep (unused : Sleepers Unit ℕ) (unused.sleepOn () 1) :=
    ⟨.sleepOn () 1, rfl, fun q t h he => absurd he (by simp)⟩
  have hasleep : (unused.sleepOn () 1 : Sleepers Unit ℕ).Asleep () 1 := by decide
  exact ⟨_, hasleep, asleep_reached (hstart.tail hstep) hasleep⟩

/-- A task that has been woken by a signal leaves and exits before the task that has saved it
resumes: the store of 0 is into the state of a zombie. -/
theorem wakes_zombie : ∃ s s' : Sleepers Unit (Fin 2), ∃ e, Reachable Initial Step s ∧
    s.next e = some s' ∧ s.wakes e = some ((), 0) ∧ s.state 0 = .zombie ∧
    s'.state 0 = .running := by
  have hstart : Reachable Initial Step (unused : Sleepers Unit (Fin 2)) :=
    .of_init unused_initial
  have hrun : (runEvents next (unused : Sleepers Unit (Fin 2))
      [.sleepOn () 0, .sleepOn () 1, .wakeUp (), .signal 0, .resume () 0, .exit 0]).any
        (fun s => decide (s.Woken () 1 ∧ s.wakes (.resume () 1) = some ((), 0) ∧
          s.state 0 = .zombie ∧ (s.resume () 1).state 0 = .running)) = true := by decide
  obtain ⟨s, hs, -, hP⟩ := hstart.exists_runEvents (fun _ e _ he => ⟨e, he⟩) hrun
  obtain ⟨hwoken, hwakes, hzombie, hrun⟩ := of_decide_eq_true hP
  exact ⟨s, s.resume () 1, .resume () 1, hs, if_pos hwoken, hwakes, hzombie, hrun⟩

/-- A `wake_up` of a sleeping task. -/
theorem wakes_inside_one : ∃ s : Sleepers Unit ℕ, s.wakes (.wakeUp ()) = some ((), 1) ∧
    s.inside 1 = some () ∧ s.state 1 ≠ .zombie ∧ s.used 1 = true := by
  have hstart : Reachable Initial UnsavedStep (unused : Sleepers Unit ℕ) :=
    .of_init unused_initial
  have hstep : UnsavedStep (unused : Sleepers Unit ℕ) (unused.sleepOn () 1) :=
    ⟨.sleepOn () 1, rfl, fun q t he => absurd he (by simp)⟩
  exact ⟨_, rfl, wakes_inside (e := .wakeUp ()) (hstart.tail hstep) rfl rfl⟩

end Sleepers

end LihaLinux.Kernel
