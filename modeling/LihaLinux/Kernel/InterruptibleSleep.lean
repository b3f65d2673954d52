import LihaLinux.Kernel.SleepOn

/-!
# `interruptible_sleep_on`

A task in `interruptible_sleep_on` can be made runnable by a signal while it is in the middle of a
queue. When it runs again it looks at the head of the queue: if another task is there, it wakes that
task and goes back to sleep where it is, and otherwise it empties the queue, wakes the task that
it has saved and leaves. Tasks exit, are released and are made meanwhile.
-/

namespace LihaLinux.Kernel

/-- The wait queues and the tasks. -/
structure Sleepers (ι τ : Type*) where
  /-- `*p`. -/
  head : ι → Option τ
  state : τ → TaskState
  /-- Whether there is a task structure. -/
  used : τ → Bool
  /-- The queue of the `interruptible_sleep_on` that a task is inside. -/
  inside : τ → Option ι
  /-- `tmp` of a task that is inside `interruptible_sleep_on`. -/
  tmp : τ → Option τ

/-- What can happen to the queues and the tasks. -/
inductive SleepersEvent (ι τ : Type*)
  /-- A task calls `interruptible_sleep_on`, up to `schedule`. -/
  | sleepOn (q : ι) (t : τ)
  /-- A task or an interrupt calls `wake_up`. -/
  | wakeUp (q : ι)
  /-- A runnable task returns from `schedule`. -/
  | resume (q : ι) (t : τ)
  /-- `schedule` finds a signal for an interruptible task. -/
  | signal (t : τ)
  /-- A task becomes a zombie in `do_exit`. -/
  | exit (t : τ)
  /-- `release` of a zombie. -/
  | release (t : τ)
  /-- A task structure is allocated in `copy_process`. -/
  | fork (t : τ)
  deriving DecidableEq

namespace Sleepers

variable {ι τ : Type*}

/-- No task is in a queue. -/
def Initial (s : Sleepers ι τ) : Prop := (∀ q, s.head q = none) ∧ ∀ t, s.inside t = none

/-- Queues that have not been used, and one task structure for every task. -/
def unused : Sleepers ι τ where
  head _ := none
  state _ := .running
  used _ := true
  inside _ := none
  tmp _ := none

theorem unused_initial : (unused : Sleepers ι τ).Initial := ⟨fun _ => rfl, fun _ => rfl⟩

section

variable [DecidableEq ι] [DecidableEq τ]

/-- The saved pointer of a task that is inside a sleep on a queue. -/
def saved (s : Sleepers ι τ) (q : ι) (t : τ) : Option τ :=
  if s.inside t = some q then s.tmp t else none

/-- A task inside a sleep on a queue that has been made runnable. -/
def Woken (s : Sleepers ι τ) (q : ι) (t : τ) : Prop := s.inside t = some q ∧ s.state t = .running

instance (s : Sleepers ι τ) (q : ι) (t : τ) : Decidable (s.Woken q t) :=
  inferInstanceAs (Decidable (_ ∧ _))

/-- A task inside a sleep on a queue that has not been made runnable. -/
def Asleep (s : Sleepers ι τ) (q : ι) (t : τ) : Prop :=
  s.inside t = some q ∧ s.state t = .interruptible

/-- Where the pointers of a queue start: at `*p`, or at a task that has been made runnable. -/
def Root (s : Sleepers ι τ) (q : ι) (t : τ) : Prop := s.head q = some t ∨ s.Woken q t

instance (s : Sleepers ι τ) (q : ι) (t : τ) : Decidable (s.Asleep q t) :=
  inferInstanceAs (Decidable (_ ∧ _))

instance (s : Sleepers ι τ) (q : ι) (t : τ) : Decidable (s.Root q t) :=
  inferInstanceAs (Decidable (_ ∨ _))

/-- `*p && *p != current`. -/
def other (s : Sleepers ι τ) (q : ι) (t : τ) : Option τ := (s.head q).filter (· ≠ t)

/-! ### The functions -/

/-- `interruptible_sleep_on` up to `schedule`. -/
def sleepOn (s : Sleepers ι τ) (q : ι) (t : τ) : Sleepers ι τ :=
  { s with
    head := Function.update s.head q (some t)
    state := Function.update s.state t .interruptible
    inside := Function.update s.inside t (some q)
    tmp := Function.update s.tmp t (s.head q) }

/-- `wake_up`. -/
def wakeUp (s : Sleepers ι τ) (q : ι) : Sleepers ι τ :=
  { s with head := Function.update s.head q none, state := SleepQueue.wake s.state (s.head q) }

/-- `(**p).state=0` and `goto repeat`, when the task `h` is at the head. -/
def sleepAgain (s : Sleepers ι τ) (h t : τ) : Sleepers ι τ :=
  { s with state := Function.update (Function.update s.state h .running) t .interruptible }

/-- `*p=NULL`, `tmp->state=0` and the return. -/
def leave (s : Sleepers ι τ) (q : ι) (t : τ) : Sleepers ι τ :=
  { s with
    head := Function.update s.head q none
    state := SleepQueue.wake s.state (s.tmp t)
    inside := Function.update s.inside t none }

/-- `interruptible_sleep_on` after `schedule`. -/
def resume (s : Sleepers ι τ) (q : ι) (t : τ) : Sleepers ι τ :=
  match s.other q t with
  | some h => s.sleepAgain h t
  | none => s.leave q t

/-- Store the state of a task. -/
def setState (s : Sleepers ι τ) (t : τ) (x : TaskState) : Sleepers ι τ :=
  { s with state := Function.update s.state t x }

/-- Store whether there is a task structure. -/
def setUsed (s : Sleepers ι τ) (t : τ) (b : Bool) : Sleepers ι τ :=
  { s with used := Function.update s.used t b }

/-- The next state of the queues. A task that runs is not a zombie and has a structure. -/
def next (s : Sleepers ι τ) : SleepersEvent ι τ → Option (Sleepers ι τ)
  | .sleepOn q t =>
    if s.inside t = none ∧ s.state t = .running ∧ s.used t then some (s.sleepOn q t) else none
  | .wakeUp q => some (s.wakeUp q)
  | .resume q t => if s.Woken q t then some (s.resume q t) else none
  | .signal t => if s.state t = .interruptible then some (s.setState t .running) else none
  | .exit t =>
    if s.inside t = none ∧ s.state t = .running ∧ s.used t then some (s.setState t .zombie)
    else none
  | .release t => if s.state t = .zombie ∧ s.used t then some (s.setUsed t false) else none
  | .fork t =>
    if s.used t = false then some ((s.setUsed t true).setState t .running) else none

/-- The task into whose state an event stores 0, with the queue. -/
def wakes (s : Sleepers ι τ) : SleepersEvent ι τ → Option (ι × τ)
  | .wakeUp q => (s.head q).map (q, ·)
  | .resume q t => ((s.other q t).or (s.tmp t)).map (q, ·)
  | _ => none

/-- Any event. -/
def Step (s s' : Sleepers ι τ) : Prop := ∃ e, s.next e = some s'

/-- What holds in every run: the head of a queue is inside a sleep on it, and a task inside a sleep
has a structure and is no zombie. -/
structure Wf (s : Sleepers ι τ) : Prop where
  head : ∀ q u, s.head q = some u → s.inside u = some q
  used : ∀ q t, s.inside t = some q → s.used t = true
  state : ∀ q t, s.inside t = some q → s.state t = .running ∨ s.state t = .interruptible

/-- The branch that `resume` takes. -/
theorem resume_cases (s : Sleepers ι τ) (q : ι) (t : τ) :
    (∃ h, s.head q = some h ∧ h ≠ t ∧ s.other q t = some h ∧ s.resume q t = s.sleepAgain h t) ∨
      (∀ h, s.head q = some h → h = t) ∧ s.other q t = none ∧ s.resume q t = s.leave q t := by
  cases ho : s.other q t with
  | some h =>
    obtain ⟨hh, hht⟩ := Option.filter_eq_some_iff.mp ho
    refine Or.inl ⟨h, hh, of_decide_eq_true hht, rfl, ?_⟩
    simp only [resume, ho]
  | none =>
    refine Or.inr ⟨fun h hh => ?_, rfl, by simp only [resume, ho]⟩
    by_contra hht
    rw [other, Option.filter_eq_none_iff] at ho
    exact absurd hht (by simpa using ho h hh)

/-- A store of 0 leaves a task runnable or as it is. -/
theorem wake_cases (state : τ → TaskState) (p : Option τ) (t : τ) :
    SleepQueue.wake state p t = .running ∨ SleepQueue.wake state p t = state t := by
  by_cases hp : p = some t
  · rw [hp]
    exact Or.inl SleepQueue.wake_self
  · exact Or.inr (SleepQueue.wake_of_ne hp)

section Wf

variable {s s' : Sleepers ι τ} {e : SleepersEvent ι τ}

theorem Wf.sleepOn {q : ι} {t : τ} (hwf : s.Wf) (hout : s.inside t = none) (hused : s.used t) :
    (s.sleepOn q t).Wf := by
  refine ⟨fun q' u hu => ?_, fun q' u hu => ?_, fun q' u hu => ?_⟩
  · by_cases hq : q' = q
    · subst hq
      simp only [Sleepers.sleepOn, Function.update_self, Option.some.injEq] at hu ⊢
      rw [hu, Function.update_self]
    · simp only [Sleepers.sleepOn, Function.update_of_ne hq] at hu ⊢
      have hin := hwf.head q' u hu
      have hut : u ≠ t := by
        rintro rfl
        exact absurd (hout.symm.trans hin) (by simp)
      rw [Function.update_of_ne hut, hin]
  · by_cases hut : u = t
    · rw [hut]
      exact hused
    · simp only [Sleepers.sleepOn, Function.update_of_ne hut] at hu
      exact hwf.used q' u hu
  · by_cases hut : u = t
    · rw [hut]
      exact Or.inr (Function.update_self ..)
    · simp only [Sleepers.sleepOn, Function.update_of_ne hut] at hu ⊢
      exact hwf.state q' u hu

omit [DecidableEq ι] in
/-- The states of the tasks that sleep after a store of 0. -/
theorem Wf.state_wake {q : ι} {t : τ} (hwf : s.Wf) (p : Option τ) (ht : s.inside t = some q) :
    SleepQueue.wake s.state p t = .running ∨ SleepQueue.wake s.state p t = .interruptible := by
  rcases wake_cases s.state p t with h | h
  · exact Or.inl h
  · rw [h]
    exact hwf.state q t ht

theorem Wf.wakeUp (hwf : s.Wf) (q : ι) : (s.wakeUp q).Wf := by
  refine ⟨fun q' u hu => ?_, hwf.used, fun q' u hu => hwf.state_wake _ hu⟩
  by_cases hq : q' = q
  · simp only [Sleepers.wakeUp, hq, Function.update_self, reduceCtorEq] at hu
  · simp only [Sleepers.wakeUp, Function.update_of_ne hq] at hu
    exact hwf.head q' u hu

omit [DecidableEq ι] in
theorem Wf.sleepAgain {h t : τ} (hwf : s.Wf) : (s.sleepAgain h t).Wf := by
  refine ⟨hwf.head, hwf.used, fun q' u hu => ?_⟩
  by_cases hut : u = t
  · rw [hut]
    exact Or.inr (Function.update_self ..)
  · simp only [Sleepers.sleepAgain, Function.update_of_ne hut]
    exact hwf.state_wake (some h) hu

theorem Wf.leave {q : ι} {t : τ} (hwf : s.Wf) (ht : s.inside t = some q)
    (hhead : ∀ h, s.head q = some h → h = t) : (s.leave q t).Wf := by
  have hkeep : ∀ q' u, (s.leave q t).inside u = some q' → u ≠ t ∧ s.inside u = some q' := by
    intro q' u hu
    by_cases hut : u = t
    · simp only [Sleepers.leave, hut, Function.update_self, reduceCtorEq] at hu
    · simp only [Sleepers.leave, Function.update_of_ne hut] at hu
      exact ⟨hut, hu⟩
  refine ⟨fun q' u hu => ?_, fun q' u hu => hwf.used q' u (hkeep q' u hu).2,
    fun q' u hu => hwf.state_wake _ (hkeep q' u hu).2⟩
  by_cases hq : q' = q
  · simp only [Sleepers.leave, hq, Function.update_self, reduceCtorEq] at hu
  · simp only [Sleepers.leave, Function.update_of_ne hq] at hu ⊢
    have hin := hwf.head q' u hu
    have hut : u ≠ t := by
      rintro rfl
      exact hq (Option.some.inj (hin.symm.trans ht))
    rw [Function.update_of_ne hut, hin]

omit [DecidableEq ι] in
/-- A change of the state of a task that is not inside a sleep, or to a state that it can have
there. -/
theorem Wf.setState {t : τ} {x : TaskState} (hwf : s.Wf)
    (hx : s.inside t = none ∨ x = .running) : (s.setState t x).Wf := by
  refine ⟨hwf.head, hwf.used, fun q' u hu => ?_⟩
  by_cases hut : u = t
  · subst hut
    rcases hx with hx | rfl
    · exact absurd (hx.symm.trans hu) (by simp)
    · exact Or.inl (Function.update_self ..)
  · simp only [Sleepers.setState, Function.update_of_ne hut]
    exact hwf.state q' u hu

omit [DecidableEq ι] in
theorem Wf.setUsed {t : τ} {b : Bool} (hwf : s.Wf) (ht : s.inside t = none) :
    (s.setUsed t b).Wf := by
  refine ⟨hwf.head, fun q' u hu => ?_, hwf.state⟩
  have hut : u ≠ t := by
    rintro rfl
    exact absurd (ht.symm.trans hu) (by simp)
  simp only [Sleepers.setUsed, Function.update_of_ne hut]
  exact hwf.used q' u hu

omit [DecidableEq ι] [DecidableEq τ] in
theorem Wf.outside_zombie {t : τ} (hwf : s.Wf) (ht : s.state t = .zombie) : s.inside t = none := by
  cases hin : s.inside t with
  | none => rfl
  | some q =>
    have hstate := hwf.state q t hin
    rw [ht] at hstate
    exact absurd hstate (by decide)

omit [DecidableEq ι] [DecidableEq τ] in
theorem Wf.outside_unused {t : τ} (hwf : s.Wf) (ht : s.used t = false) : s.inside t = none := by
  cases hin : s.inside t with
  | none => rfl
  | some q => exact absurd ((hwf.used q t hin).symm.trans ht) (by decide)

theorem Wf.next (hwf : s.Wf) (h : s.next e = some s') : s'.Wf := by
  cases e with
  | sleepOn q t =>
    simp only [Sleepers.next, Option.ite_none_right_eq_some, Option.some.injEq] at h
    obtain ⟨⟨hout, -, hused⟩, rfl⟩ := h
    exact hwf.sleepOn hout hused
  | wakeUp q =>
    obtain rfl := Option.some.inj h
    exact hwf.wakeUp q
  | resume q t =>
    simp only [Sleepers.next, Option.ite_none_right_eq_some, Option.some.injEq] at h
    obtain ⟨ht, rfl⟩ := h
    rcases s.resume_cases q t with ⟨h, -, -, -, heq⟩ | ⟨hhead, -, heq⟩
    · rw [heq]
      exact hwf.sleepAgain
    · rw [heq]
      exact hwf.leave ht.1 hhead
  | signal t =>
    simp only [Sleepers.next, Option.ite_none_right_eq_some, Option.some.injEq] at h
    obtain ⟨-, rfl⟩ := h
    exact hwf.setState (Or.inr rfl)
  | exit t =>
    simp only [Sleepers.next, Option.ite_none_right_eq_some, Option.some.injEq] at h
    obtain ⟨⟨hout, -⟩, rfl⟩ := h
    exact hwf.setState (Or.inl hout)
  | release t =>
    simp only [Sleepers.next, Option.ite_none_right_eq_some, Option.some.injEq] at h
    obtain ⟨⟨hzombie, -⟩, rfl⟩ := h
    exact hwf.setUsed (hwf.outside_zombie hzombie)
  | fork t =>
    simp only [Sleepers.next, Option.ite_none_right_eq_some, Option.some.injEq] at h
    obtain ⟨hunused, rfl⟩ := h
    exact (hwf.setUsed (hwf.outside_unused hunused)).setState (Or.inr rfl)

omit [DecidableEq ι] [DecidableEq τ] in
theorem Initial.wf (h : s.Initial) : s.Wf :=
  ⟨by simp [h.1], by simp [h.2], by simp [h.2]⟩

end Wf

end

end Sleepers

end LihaLinux.Kernel
