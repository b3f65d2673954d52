import LihaLinux.Lib.Transition
import LihaLinux.Lib.Walk
import Mathlib.Logic.Function.Basic
import Mathlib.Tactic.Common

/-!
# `sleep_on`

A wait queue is one pointer to a task. A task that goes to sleep saves the pointer in the
variable `tmp` on its kernel stack and puts itself into it; when it runs again, it wakes the task
that it has saved. The queue is the chain of these variables, and a task that goes to sleep after a
`wake_up` starts another one before the first has been taken apart. The kernel is not preempted,
so what a task does between two calls of `schedule` is one step.
-/

namespace LihaLinux.Kernel

/-- The states of a task. -/
inductive TaskState
  | running
  | interruptible
  | uninterruptible
  | zombie
  | stopped
  deriving DecidableEq

/-- A queue pointer and the tasks that use it. -/
structure SleepQueue (τ : Type*) where
  /-- `*p`. -/
  head : Option τ
  state : τ → TaskState
  /-- Whether a task is inside `sleep_on`. -/
  inside : τ → Bool
  /-- `tmp` of a task that is inside `sleep_on`. -/
  tmp : τ → Option τ

/-- What can happen to a queue. -/
inductive SleepEvent (τ : Type*)
  /-- A task calls `sleep_on`, up to `schedule`. -/
  | sleepOn (t : τ)
  /-- A task or an interrupt calls `wake_up`. -/
  | wakeUp
  /-- A runnable task returns from `schedule` and leaves `sleep_on`. -/
  | resume (t : τ)
  deriving DecidableEq

namespace SleepQueue

variable {τ : Type*}

/-- A task that has entered `sleep_on` and has not been made runnable. -/
def Asleep (s : SleepQueue τ) (t : τ) : Prop := s.inside t = true ∧ s.state t = .uninterruptible

/-- A task that has been made runnable and has not resumed. -/
def Woken (s : SleepQueue τ) (t : τ) : Prop := s.inside t = true ∧ s.state t = .running

instance (s : SleepQueue τ) (t : τ) : Decidable (s.Woken t) := inferInstanceAs (Decidable (_ ∧ _))

/-- Where a chain starts: at `*p`, or at a task that has been made runnable and has not
resumed. -/
def Root (s : SleepQueue τ) (t : τ) : Prop := s.head = some t ∨ s.Woken t

/-- The saved pointer of a task that is inside `sleep_on`. -/
def saved (s : SleepQueue τ) (t : τ) : Option τ := if s.inside t then s.tmp t else none

/-- A queue before it is used. -/
def Initial (s : SleepQueue τ) : Prop :=
  s.head = none ∧ (∀ t, s.inside t = false) ∧ ∀ t, s.state t = .running

/-- A queue that has not been used. -/
def unused : SleepQueue τ where
  head := none
  state _ := .running
  inside _ := false
  tmp _ := none

theorem unused_initial : (unused : SleepQueue τ).Initial := ⟨rfl, fun _ => rfl, fun _ => rfl⟩

/-- The invariant: every pointer leads to a sleeping task, no two to the same one, and every
sleeping task is in a chain. -/
structure Inv (s : SleepQueue τ) : Prop where
  head : ∀ u, s.head = some u → s.Asleep u
  saved : ∀ t u, s.saved t = some u → s.Asleep u
  saved_ne_head : ∀ t u, s.saved t = some u → s.head ≠ some u
  saved_inj : ∀ t t' u, s.saved t = some u → s.saved t' = some u → t = t'
  states : ∀ t, s.state t = .running ∨ s.Asleep t
  chain : ∀ u, s.Asleep u → ∃ r n, s.Root r ∧ follow s.saved n r = some u

theorem Asleep.not_woken {s : SleepQueue τ} {t : τ} (h : s.Asleep t) : ¬s.Woken t := by
  intro hw
  rw [Woken, h.2] at hw
  exact absurd hw.2 (by decide)

theorem saved_of_inside {s : SleepQueue τ} {t : τ} (h : s.inside t = true) :
    s.saved t = s.tmp t := if_pos h

theorem saved_of_outside {s : SleepQueue τ} {t : τ} (h : s.inside t = false) :
    s.saved t = none := by simp only [saved, h, Bool.false_eq_true, if_false]

/-- Nothing points to the start of a chain. -/
theorem Inv.saved_ne_root {s : SleepQueue τ} (hinv : s.Inv) {r : τ} (hr : s.Root r) (x : τ) :
    s.saved x ≠ some r := by
  intro hx
  rcases hr with hr | hr
  · exact hinv.saved_ne_head x r hx hr
  · exact (hinv.saved x r hx).not_woken hr

/-! ### The functions -/

variable [DecidableEq τ]

/-- `(**p).state=0` or `tmp->state=0`, when the pointer is not null. -/
def wake (state : τ → TaskState) : Option τ → τ → TaskState
  | none => state
  | some u => Function.update state u .running

/-- `sleep_on` up to `schedule`. -/
def sleepOn (s : SleepQueue τ) (t : τ) : SleepQueue τ where
  head := some t
  state := Function.update s.state t .uninterruptible
  inside := Function.update s.inside t true
  tmp := Function.update s.tmp t s.head

/-- `wake_up`. -/
def wakeUp (s : SleepQueue τ) : SleepQueue τ :=
  { s with head := none, state := wake s.state s.head }

/-- `sleep_on` after `schedule`. -/
def resume (s : SleepQueue τ) (t : τ) : SleepQueue τ :=
  { s with state := wake s.state (s.tmp t), inside := Function.update s.inside t false }

/-- The next state of a queue. Only a running task can call `sleep_on` or return from
`schedule`. -/
def next (s : SleepQueue τ) : SleepEvent τ → Option (SleepQueue τ)
  | .sleepOn t => if s.inside t = false ∧ s.state t = .running then some (s.sleepOn t) else none
  | .wakeUp => some s.wakeUp
  | .resume t => if s.Woken t then some (s.resume t) else none

/-- The task into whose state an event stores 0. -/
def wakes (s : SleepQueue τ) : SleepEvent τ → Option τ
  | .sleepOn _ => none
  | .wakeUp => s.head
  | .resume t => s.tmp t

/-- Any event. -/
def Step (s s' : SleepQueue τ) : Prop := ∃ e, s.next e = some s'

theorem wake_of_ne {state : τ → TaskState} {p : Option τ} {t : τ} (h : p ≠ some t) :
    wake state p t = state t := by
  cases p with
  | none => rfl
  | some u =>
    have htu : t ≠ u := fun htu => h (by rw [htu])
    exact Function.update_of_ne htu ..

theorem wake_self {state : τ → TaskState} {t : τ} : wake state (some t) t = .running :=
  Function.update_self ..

theorem wake_running {state : τ → TaskState} {p : Option τ} {t : τ} (h : state t = .running) :
    wake state p t = .running := by
  by_cases hp : p = some t
  · rw [hp]
    exact wake_self
  · rw [wake_of_ne hp]
    exact h

/-! ### `sleep_on` up to `schedule` -/

section SleepOn

variable {s : SleepQueue τ} {t : τ}

theorem saved_sleepOn_self : (s.sleepOn t).saved t = s.head := by
  simp only [saved, sleepOn, Function.update_self, if_true]

theorem saved_sleepOn_of_ne {x : τ} (hx : x ≠ t) : (s.sleepOn t).saved x = s.saved x := by
  simp only [saved, sleepOn, Function.update_of_ne hx]

theorem asleep_sleepOn_of_ne {x : τ} (hx : x ≠ t) : (s.sleepOn t).Asleep x ↔ s.Asleep x := by
  simp only [Asleep, sleepOn, Function.update_of_ne hx]

theorem asleep_sleepOn_self : (s.sleepOn t).Asleep t :=
  ⟨Function.update_self .., Function.update_self ..⟩

theorem woken_sleepOn_of_ne {x : τ} (hx : x ≠ t) : (s.sleepOn t).Woken x ↔ s.Woken x := by
  simp only [Woken, sleepOn, Function.update_of_ne hx]

/-- A task that is not inside `sleep_on` has saved nothing, so all pointers are still there. -/
theorem saved_sleepOn_mono (hout : s.inside t = false) (x y : τ) (h : s.saved x = some y) :
    (s.sleepOn t).saved x = some y := by
  have hx : x ≠ t := by
    rintro rfl
    rw [saved_of_outside hout] at h
    exact absurd h (by simp)
  rw [saved_sleepOn_of_ne hx, h]

/-- The task that goes to sleep becomes the start of the chain that began at `*p`. -/
theorem Inv.sleepOn (hinv : s.Inv) (hout : s.inside t = false) : (s.sleepOn t).Inv := by
  have hne : ∀ u, s.Asleep u → u ≠ t := by
    rintro u hu rfl
    rw [Asleep, hout] at hu
    exact absurd hu.1 (by decide)
  have hkeep : ∀ u, s.Asleep u → (s.sleepOn t).Asleep u := fun u hu =>
    (asleep_sleepOn_of_ne (hne u hu)).mpr hu
  refine ⟨?_, ?_, ?_, ?_, ?_, ?_⟩
  · rintro u hu
    obtain rfl : t = u := Option.some.inj hu
    exact asleep_sleepOn_self
  · intro x u hx
    by_cases hxt : x = t
    · rw [hxt, saved_sleepOn_self] at hx
      exact hkeep u (hinv.head u hx)
    · rw [saved_sleepOn_of_ne hxt] at hx
      exact hkeep u (hinv.saved x u hx)
  · intro x u hx hu
    obtain rfl : t = u := Option.some.inj hu
    by_cases hxt : x = t
    · rw [hxt, saved_sleepOn_self] at hx
      exact hne t (hinv.head t hx) rfl
    · rw [saved_sleepOn_of_ne hxt] at hx
      exact hne t (hinv.saved x t hx) rfl
  · intro x x' u hx hx'
    by_cases hxt : x = t
    · by_cases hxt' : x' = t
      · rw [hxt, hxt']
      · rw [hxt, saved_sleepOn_self] at hx
        rw [saved_sleepOn_of_ne hxt'] at hx'
        exact absurd hx (hinv.saved_ne_head x' u hx')
    · rw [saved_sleepOn_of_ne hxt] at hx
      by_cases hxt' : x' = t
      · rw [hxt', saved_sleepOn_self] at hx'
        exact absurd hx' (hinv.saved_ne_head x u hx)
      · rw [saved_sleepOn_of_ne hxt'] at hx'
        exact hinv.saved_inj x x' u hx hx'
  · intro x
    by_cases hxt : x = t
    · rw [hxt]
      exact Or.inr asleep_sleepOn_self
    · rw [asleep_sleepOn_of_ne hxt]
      simp only [SleepQueue.sleepOn, Function.update_of_ne hxt]
      exact hinv.states x
  · intro u hu
    by_cases hut : u = t
    · exact ⟨t, 0, Or.inl rfl, by rw [hut, follow]⟩
    · rw [asleep_sleepOn_of_ne hut] at hu
      obtain ⟨r, n, hr, hn⟩ := hinv.chain u hu
      have hn' := follow_mono (saved_sleepOn_mono hout) hn
      rcases hr with hr | hr
      · have hfirst : follow (s.sleepOn t).saved 1 t = some r := by
          rw [follow, follow]
          exact saved_sleepOn_self.trans hr
        exact ⟨t, 1 + n, Or.inl rfl, follow_add hfirst hn'⟩
      · have hrt : r ≠ t := by
          rintro rfl
          rw [Woken, hout] at hr
          exact absurd hr.1 (by decide)
        exact ⟨r, n, Or.inr ((woken_sleepOn_of_ne hrt).mpr hr), hn'⟩

end SleepOn

/-! ### `wake_up` -/

section WakeUp

variable {s : SleepQueue τ}

theorem asleep_wakeUp {x : τ} : s.wakeUp.Asleep x ↔ s.Asleep x ∧ s.head ≠ some x := by
  constructor
  · intro h
    by_cases hx : s.head = some x
    · have hrun : s.wakeUp.state x = .running := by
        simp only [wakeUp, hx]
        exact wake_self
      rw [Asleep, hrun] at h
      exact absurd h.2 (by decide)
    · exact ⟨⟨h.1, (wake_of_ne hx).symm.trans h.2⟩, hx⟩
  · rintro ⟨h, hx⟩
    exact ⟨h.1, (wake_of_ne hx).trans h.2⟩

theorem woken_wakeUp {x : τ} (h : s.Woken x) : s.wakeUp.Woken x := ⟨h.1, wake_running h.2⟩

/-- The head of the queue becomes a task that has been made runnable. -/
theorem Inv.woken_head (hinv : s.Inv) {u : τ} (h : s.head = some u) : s.wakeUp.Woken u := by
  refine ⟨(hinv.head u h).1, ?_⟩
  simp only [wakeUp, h]
  exact wake_self

/-- The chain that began at `*p` begins at a task that has been made runnable. -/
theorem Inv.wakeUp (hinv : s.Inv) : s.wakeUp.Inv := by
  refine ⟨?_, ?_, ?_, ?_, ?_, ?_⟩
  · rintro u hu
    exact absurd hu (by simp [SleepQueue.wakeUp])
  · intro x u hx
    exact asleep_wakeUp.mpr ⟨hinv.saved x u hx, hinv.saved_ne_head x u hx⟩
  · intro x u hx
    simp [SleepQueue.wakeUp]
  · exact hinv.saved_inj
  · intro x
    by_cases hx : s.head = some x
    · exact Or.inl (hinv.woken_head hx).2
    · rcases hinv.states x with h | h
      · exact Or.inl (wake_running h)
      · exact Or.inr (asleep_wakeUp.mpr ⟨h, hx⟩)
  · intro u hu
    obtain ⟨r, n, hr, hn⟩ := hinv.chain u (asleep_wakeUp.mp hu).1
    refine ⟨r, n, Or.inr ?_, hn⟩
    rcases hr with hr | hr
    · exact hinv.woken_head hr
    · exact woken_wakeUp hr

end WakeUp

/-! ### `sleep_on` after `schedule` -/

section Resume

variable {s : SleepQueue τ} {t : τ}

theorem saved_resume_self : (s.resume t).saved t = none :=
  saved_of_outside (Function.update_self ..)

theorem saved_resume_of_ne {x : τ} (hx : x ≠ t) : (s.resume t).saved x = s.saved x := by
  simp only [saved, resume, Function.update_of_ne hx]

/-- The pointers after a task has left were there before. -/
theorem saved_of_resume {x y : τ} (h : (s.resume t).saved x = some y) :
    x ≠ t ∧ s.saved x = some y := by
  have hx : x ≠ t := by
    rintro rfl
    rw [saved_resume_self] at h
    exact absurd h (by simp)
  exact ⟨hx, (saved_resume_of_ne hx).symm.trans h⟩

theorem asleep_resume {x : τ} (ht : s.Woken t) :
    (s.resume t).Asleep x ↔ s.Asleep x ∧ s.saved t ≠ some x := by
  rw [saved_of_inside ht.1]
  constructor
  · intro h
    have hxt : x ≠ t := by
      rintro rfl
      have hout : (s.resume x).inside x = false := Function.update_self ..
      rw [Asleep, hout] at h
      exact absurd h.1 (by decide)
    have hin : s.inside x = true := by
      have h1 := h.1
      simp only [resume, Function.update_of_ne hxt] at h1
      exact h1
    by_cases hx : s.tmp t = some x
    · have hrun : (s.resume t).state x = .running := by
        simp only [resume, hx]
        exact wake_self
      rw [Asleep, hrun] at h
      exact absurd h.2 (by decide)
    · exact ⟨⟨hin, (wake_of_ne hx).symm.trans h.2⟩, hx⟩
  · rintro ⟨h, hx⟩
    have hxt : x ≠ t := by
      rintro rfl
      exact h.not_woken ht
    refine ⟨?_, (wake_of_ne hx).trans h.2⟩
    simp only [resume, Function.update_of_ne hxt]
    exact h.1

/-- The task that was next to a task that leaves is made runnable. -/
theorem Inv.woken_saved (hinv : s.Inv) (ht : s.Woken t) {u : τ} (h : s.saved t = some u) :
    (s.resume t).Woken u := by
  have hu := hinv.saved t u h
  have hut : u ≠ t := by
    rintro rfl
    exact hu.not_woken ht
  rw [saved_of_inside ht.1] at h
  refine ⟨?_, ?_⟩
  · simp only [resume, Function.update_of_ne hut]
    exact hu.1
  · simp only [resume, h]
    exact wake_self

theorem woken_resume_of_ne {x : τ} (hx : x ≠ t) (h : s.Woken x) : (s.resume t).Woken x := by
  refine ⟨?_, wake_running h.2⟩
  simp only [resume, Function.update_of_ne hx]
  exact h.1

/-- What could be met from a task that has been made runnable can still be met from one. -/
theorem Inv.follow_resume (hinv : s.Inv) (ht : s.Woken t) {r u : τ} {n : ℕ} (hr : s.Woken r)
    (hn : follow s.saved n r = some u) (hu : (s.resume t).Asleep u) :
    ∃ r' n', (s.resume t).Woken r' ∧ follow (s.resume t).saved n' r' = some u := by
  rcases follow_cut (fun x hx => saved_resume_of_ne hx) hn with hn' | ⟨v, m, hv, hm⟩
  · by_cases hrt : r = t
    · -- the walk ends where it begins, at the task that leaves
      cases n with
      | zero =>
        rw [follow, Option.some.injEq] at hn
        rw [← hn, hrt] at hu
        exact absurd ht ((asleep_resume ht).mp hu).1.not_woken
      | succ n =>
        rw [hrt, follow_of_none saved_resume_self] at hn'
        exact absurd hn' (by simp)
    · exact ⟨r, n, woken_resume_of_ne hrt hr, hn'⟩
  · exact ⟨v, m, hinv.woken_saved ht hv, hm⟩

/-- The chain of the task that leaves begins at the task that it has made runnable. -/
theorem Inv.resume (hinv : s.Inv) (ht : s.Woken t) : (s.resume t).Inv := by
  refine ⟨?_, ?_, ?_, ?_, ?_, ?_⟩
  · intro u hu
    exact (asleep_resume ht).mpr ⟨hinv.head u hu, fun h => hinv.saved_ne_head t u h hu⟩
  · intro x u hx
    obtain ⟨hxt, hx⟩ := saved_of_resume hx
    exact (asleep_resume ht).mpr ⟨hinv.saved x u hx, fun h => hxt (hinv.saved_inj x t u hx h)⟩
  · intro x u hx
    exact hinv.saved_ne_head x u (saved_of_resume hx).2
  · intro x x' u hx hx'
    exact hinv.saved_inj x x' u (saved_of_resume hx).2 (saved_of_resume hx').2
  · intro x
    by_cases hx : s.saved t = some x
    · exact Or.inl (hinv.woken_saved ht hx).2
    · rcases hinv.states x with h | h
      · exact Or.inl (wake_running h)
      · exact Or.inr ((asleep_resume ht).mpr ⟨h, hx⟩)
  · intro u hu
    obtain ⟨r, n, hr, hn⟩ := hinv.chain u ((asleep_resume ht).mp hu).1
    rcases hr with hr | hr
    · rcases follow_cut (fun x hx => saved_resume_of_ne hx) hn with hn' | ⟨v, m, hv, hm⟩
      · exact ⟨r, n, Or.inl hr, hn'⟩
      · exact ⟨v, m, Or.inr (hinv.woken_saved ht hv), hm⟩
    · obtain ⟨r', n', hr', hn'⟩ := hinv.follow_resume ht hr hn hu
      exact ⟨r', n', Or.inr hr', hn'⟩

end Resume

/-! ### Runs -/

section Runs

variable {s s' : SleepQueue τ} {e : SleepEvent τ}

/-- What an event does, and when it can happen. -/
theorem next_cases (h : s.next e = some s') :
    (∃ t, e = .sleepOn t ∧ s.inside t = false ∧ s' = s.sleepOn t) ∨
      (e = .wakeUp ∧ s' = s.wakeUp) ∨ ∃ t, e = .resume t ∧ s.Woken t ∧ s' = s.resume t := by
  cases e with
  | sleepOn t =>
    simp only [next, Option.ite_none_right_eq_some, Option.some.injEq] at h
    exact Or.inl ⟨t, rfl, h.1.1, h.2.symm⟩
  | wakeUp =>
    simp only [next, Option.some.injEq] at h
    exact Or.inr (Or.inl ⟨rfl, h.symm⟩)
  | resume t =>
    simp only [next, Option.ite_none_right_eq_some, Option.some.injEq] at h
    exact Or.inr (Or.inr ⟨t, rfl, h.1, h.2.symm⟩)

omit [DecidableEq τ] in
theorem Initial.inv (h : s.Initial) : s.Inv := by
  obtain ⟨hhead, hout, hrun⟩ := h
  have hsaved : ∀ t, s.saved t = none := fun t => saved_of_outside (hout t)
  refine ⟨?_, ?_, ?_, ?_, ?_, ?_⟩
  · simp [hhead]
  · simp [hsaved]
  · simp [hsaved]
  · simp [hsaved]
  · exact fun t => Or.inl (hrun t)
  · intro u hu
    rw [Asleep, hout] at hu
    exact absurd hu.1 (by decide)

theorem Inv.next (hinv : s.Inv) (h : s.next e = some s') : s'.Inv := by
  rcases next_cases h with ⟨t, -, hout, rfl⟩ | ⟨-, rfl⟩ | ⟨t, -, ht, rfl⟩
  · exact hinv.sleepOn hout
  · exact hinv.wakeUp
  · exact hinv.resume ht

/-- The invariant holds in every state of every run. -/
theorem Inv.of_reachable (h : Reachable Initial Step s) : s.Inv :=
  h.invariant (fun _ => Initial.inv) fun _ _ hinv ⟨_, he⟩ => hinv.next he

/-- A task that has been made runnable stays so until it calls `sleep_on`. -/
theorem next_running {t : τ} (h : s.next e = some s') (ht : s.state t = .running)
    (he : e ≠ .sleepOn t) : s'.state t = .running := by
  rcases next_cases h with ⟨x, rfl, -, rfl⟩ | ⟨-, rfl⟩ | ⟨x, -, -, rfl⟩
  · have htx : t ≠ x := fun htx => he (by rw [htx])
    simp only [sleepOn, Function.update_of_ne htx]
    exact ht
  · exact wake_running ht
  · exact wake_running ht

/-- A sleeping task that can be met from a task that has been made runnable stays so until it
is made runnable itself. -/
theorem Inv.next_behind (hinv : s.Inv) {t r : τ} {n : ℕ} (h : s.next e = some s') (hr : s.Woken r)
    (hn : follow s.saved n r = some t) :
    s'.state t = .running ∨ ∃ r n, s'.Woken r ∧ follow s'.saved n r = some t := by
  rcases (hinv.next h).states t with hrun | hasleep
  · exact Or.inl hrun
  · right
    rcases next_cases h with ⟨x, -, hout, rfl⟩ | ⟨-, rfl⟩ | ⟨x, -, hx, rfl⟩
    · have hrx : r ≠ x := by
        rintro rfl
        rw [Woken, hout] at hr
        exact absurd hr.1 (by decide)
      exact ⟨r, n, (woken_sleepOn_of_ne hrx).mpr hr, follow_mono (saved_sleepOn_mono hout) hn⟩
    · exact ⟨r, n, woken_wakeUp hr, hn⟩
    · exact hinv.follow_resume hx hr hn hasleep

/-- When every task that has been made runnable has resumed, so has every task that could be
met from one. -/
theorem Inv.runEvents_running {es : List (SleepEvent τ)} {t : τ} (hinv : s.Inv)
    (ht : s.state t = .running ∨ ∃ r n, s.Woken r ∧ follow s.saved n r = some t)
    (hrun : runEvents SleepQueue.next s es = some s') (hdone : ∀ u, ¬s'.Woken u)
    (hes : SleepEvent.sleepOn t ∉ es) : s'.state t = .running := by
  induction es generalizing s with
  | nil =>
    rw [runEvents, Option.some.injEq] at hrun
    subst hrun
    rcases ht with ht | ⟨r, -, hr, -⟩
    · exact ht
    · exact absurd hr (hdone r)
  | cons e es ih =>
    rw [runEvents, Option.bind_eq_some_iff] at hrun
    obtain ⟨s₁, hstep, hrest⟩ := hrun
    rw [List.mem_cons, not_or] at hes
    refine ih (hinv.next hstep) ?_ hrest hes.2
    rcases ht with ht | ⟨r, n, hr, hn⟩
    · exact Or.inl (next_running hstep ht (Ne.symm hes.1))
    · exact hinv.next_behind hstep hr hn

/-- In every reachable state a task inside `sleep_on` is runnable or at exactly one place of the
chains; every store of 0 is into the state of a sleeping task; and after a `wake_up`, once every
task that has been made runnable has resumed, every task that was asleep before is runnable,
unless it has called `sleep_on` again. -/
theorem sleepOn_lossless (h : Reachable Initial Step s) :
    (∀ t, s.inside t = true → s.state t = .running ∨
      ∃! x : τ × ℕ, s.Root x.1 ∧ follow s.saved x.2 x.1 = some t) ∧
    (∀ e s' u, s.next e = some s' → s.wakes e = some u → s.Asleep u) ∧
    (∀ es s', runEvents next s (.wakeUp :: es) = some s' → (∀ u, ¬s'.Woken u) →
      ∀ t, s.Asleep t → SleepEvent.sleepOn t ∉ es → s'.state t = .running) := by
  have hinv := Inv.of_reachable h
  refine ⟨fun t ht => ?_, fun e s' u he hu => ?_, fun es s' hrun hdone t ht hes => ?_⟩
  · rcases hinv.states t with hrun | hasleep
    · exact Or.inl hrun
    · obtain ⟨r, n, hr, hn⟩ := hinv.chain t hasleep
      refine Or.inr ⟨(r, n), ⟨hr, hn⟩, ?_⟩
      rintro ⟨r', n'⟩ ⟨hr', hn'⟩
      obtain ⟨rfl, rfl⟩ := follow_unique hinv.saved_inj (hinv.saved_ne_root hr')
        (hinv.saved_ne_root hr) hn' hn
      rfl
  · rcases next_cases he with ⟨t, rfl, -, -⟩ | ⟨rfl, -⟩ | ⟨t, rfl, ht, -⟩
    · exact absurd hu (by simp [wakes])
    · exact hinv.head u hu
    · exact hinv.saved t u ((saved_of_inside ht.1).trans hu)
  · rw [runEvents, Option.bind_eq_some_iff] at hrun
    obtain ⟨s₁, hstep, hrest⟩ := hrun
    obtain rfl : s.wakeUp = s₁ := Option.some.inj hstep
    refine hinv.wakeUp.runEvents_running ?_ hrest hdone hes
    by_cases hhead : s.head = some t
    · exact Or.inl (hinv.woken_head hhead).2
    · have hasleep := asleep_wakeUp.mpr ⟨ht, hhead⟩
      obtain ⟨r, n, hr, hn⟩ := hinv.wakeUp.chain t hasleep
      rcases hr with hr | hr
      · exact absurd hr (by simp [wakeUp])
      · exact Or.inr ⟨r, n, hr, hn⟩

/-- Two tasks go to sleep one after the other: both are in the chain of the second. -/
theorem sleepOn_lossless_two :
    ∃ s : SleepQueue ℕ, s.Asleep 1 ∧
      (s.state 1 = .running ∨ ∃! x : ℕ × ℕ, s.Root x.1 ∧ follow s.saved x.2 x.1 = some 1) := by
  have hrun : (runEvents next (unused : SleepQueue ℕ) [.sleepOn 1, .sleepOn 2]).any
      (fun s => s.inside 1 && decide (s.state 1 = .uninterruptible)) = true := by decide
  have hstart : Reachable Initial Step (unused : SleepQueue ℕ) := .of_init unused_initial
  obtain ⟨s, hs, -, hP⟩ := hstart.exists_runEvents (fun _ e _ he => ⟨e, he⟩) hrun
  rw [Bool.and_eq_true, decide_eq_true_eq] at hP
  exact ⟨s, hP, (sleepOn_lossless hs).1 1 hP.1⟩

end Runs

end SleepQueue

end LihaLinux.Kernel
