import LihaLinux.Lib.Transition
import Mathlib.Data.Nat.Notation
import Mathlib.Logic.Function.Basic
import Mathlib.Tactic.Common

/-!
# The floating-point unit

There is one set of floating-point registers, and it is saved when another task uses it, not when
tasks are switched. Every task should see the registers as if it had a unit of its own. This fails
where the kernel changes the owner of the registers without a trap: `copy_process` saves them with
`fnsave`, which clears them, and `do_execve` gives them up and leaves `TS` clear.
-/

namespace LihaLinux.Kernel

/-- The unit and the tasks, for register contents `φ`. -/
structure Fpu (τ φ : Type*) where
  current : τ
  /-- Whether there is such a task. -/
  alive : τ → Bool
  /-- The flag `TS` of `cr0`. -/
  ts : Bool
  /-- The registers. -/
  regs : φ
  /-- `last_task_used_math`. -/
  lastTask : Option τ
  usedMath : τ → Bool
  /-- `tss.i387`. -/
  i387 : τ → φ
  /-- The registers of a unit that a task has for itself; no code reads this. -/
  own : τ → φ

/-- What can happen to the unit. -/
inductive FpuEvent (τ φ : Type*)
  /-- The running task executes an instruction of the unit. -/
  | instr (f : φ → φ)
  | switchTo (t : τ)
  /-- The running task calls `copy_process`, which may fail in `copy_mem`. -/
  | fork (child : τ) (ok : Bool)
  /-- The running task calls `do_execve`, with success. -/
  | exec
  | exit

namespace Fpu

variable {τ φ : Type*} [DecidableEq τ]

/-! ### The functions -/

/-- `math_state_restore`, where `fnsave` and `fninit` leave `cleared` in the registers. -/
def mathStateRestore (cleared : φ) (s : Fpu τ φ) : Fpu τ φ :=
  if s.lastTask = some s.current then s
  else { s with
    i387 := s.lastTask.elim s.i387 fun t => Function.update s.i387 t s.regs
    lastTask := some s.current
    regs := if s.usedMath s.current then s.i387 s.current else cleared
    usedMath := Function.update s.usedMath s.current true }

/-- `device_not_available`, which an instruction calls when `TS` is set. -/
def trap (cleared : φ) (s : Fpu τ φ) : Fpu τ φ :=
  if s.ts then mathStateRestore cleared { s with ts := false } else s

/-- An instruction of the unit. -/
def instr (cleared : φ) (s : Fpu τ φ) (f : φ → φ) : Fpu τ φ :=
  { s.trap cleared with
    regs := f (s.trap cleared).regs
    own := Function.update s.own s.current (f (s.own s.current)) }

/-- `switch_to`: the processor sets `TS`, and the task that goes on clears it if the registers are
its own. -/
def switchTo (s : Fpu τ φ) (t : τ) : Fpu τ φ :=
  if t = s.current then s else { s with current := t, ts := decide (s.lastTask ≠ some t) }

/-- The copy of the task structure and the registers in `copy_process`. -/
def copyProcess (cleared : φ) (s : Fpu τ φ) (child : τ) : Fpu τ φ :=
  let s := { s with
    usedMath := Function.update s.usedMath child (s.usedMath s.current)
    i387 := Function.update s.i387 child (s.i387 s.current) }
  if s.lastTask = some s.current then
    { s with ts := false, i387 := Function.update s.i387 child s.regs, regs := cleared }
  else s

/-- `copy_process`; a child whose memory cannot be copied is freed. -/
def fork (cleared : φ) (s : Fpu τ φ) (child : τ) (ok : Bool) : Fpu τ φ :=
  { s.copyProcess cleared child with
    alive := Function.update s.alive child ok
    own := Function.update s.own child (s.own s.current) }

/-- The running task gives the registers up. -/
def giveUp (s : Fpu τ φ) : Fpu τ φ :=
  { s with lastTask := if s.lastTask = some s.current then none else s.lastTask }

/-- The part of `do_execve` for the unit. -/
def exec (cleared : φ) (s : Fpu τ φ) : Fpu τ φ :=
  { s.giveUp with
    usedMath := Function.update s.usedMath s.current false
    own := Function.update s.own s.current cleared }

/-- The part of `do_exit` for the unit. -/
def exit (s : Fpu τ φ) : Fpu τ φ :=
  { s.giveUp with alive := Function.update s.alive s.current false }

/-- The next state of the unit. After `exit` another task has to run. -/
def next (cleared : φ) (s : Fpu τ φ) : FpuEvent τ φ → Option (Fpu τ φ)
  | .instr f => if s.alive s.current then some (s.instr cleared f) else none
  | .switchTo t => if s.alive t then some (s.switchTo t) else none
  | .fork child ok =>
    if s.alive s.current ∧ s.alive child = false then some (s.fork cleared child ok) else none
  | .exec => if s.alive s.current then some (s.exec cleared) else none
  | .exit => if s.alive s.current then some s.exit else none

/-! ### Runs -/

/-- After the boot: one task, which has not used the unit, and cleared registers. -/
def Initial (cleared : φ) (s : Fpu τ φ) : Prop :=
  (∀ t, s.alive t = true ↔ t = s.current) ∧ s.lastTask = none ∧ s.regs = cleared ∧
    (∀ t, s.usedMath t = false) ∧ s.own s.current = cleared

/-- The registers change their owner in a trap only: a task that owns them does not fork, and a
task that does not own them traps when it uses them. -/
def Careful (s : Fpu τ φ) : FpuEvent τ φ → Prop
  | .instr _ => s.ts = false → s.lastTask = some s.current
  | .fork _ _ => s.lastTask ≠ some s.current
  | _ => True

/-- The steps that meet the condition. -/
def CarefulStep (cleared : φ) (s s' : Fpu τ φ) : Prop :=
  ∃ e, s.next cleared e = some s' ∧ s.Careful e

/-- Any event. -/
def Step (cleared : φ) (s s' : Fpu τ φ) : Prop := ∃ e, s.next cleared e = some s'

/-- The invariant: the registers are those of their owner, and every other task has its own in its
task structure, once it has used the unit. -/
structure Inv (cleared : φ) (s : Fpu τ φ) : Prop where
  owner : ∀ t, s.lastTask = some t → s.alive t = true ∧ s.usedMath t = true ∧ s.regs = s.own t
  saved : ∀ t, s.alive t = true → s.lastTask ≠ some t →
    s.own t = if s.usedMath t then s.i387 t else cleared

variable {cleared : φ} {s s' : Fpu τ φ} {e : FpuEvent τ φ}

omit [DecidableEq τ] in
theorem Initial.inv (h : s.Initial cleared) : s.Inv cleared := by
  obtain ⟨halive, hlast, -, hused, hown⟩ := h
  refine ⟨by simp [hlast], fun t ht _ => ?_⟩
  rw [(halive t).mp ht, hused, hown]
  rfl

/-- After `math_state_restore` the registers are those of the running task. -/
theorem Inv.mathStateRestore (hinv : s.Inv cleared) (halive : s.alive s.current = true) :
    (s.mathStateRestore cleared).Inv cleared ∧
      (s.mathStateRestore cleared).lastTask = some s.current := by
  by_cases howner : s.lastTask = some s.current
  · rw [Fpu.mathStateRestore, if_pos howner]
    exact ⟨hinv, howner⟩
  · rw [Fpu.mathStateRestore, if_neg howner]
    have hown := hinv.saved s.current halive howner
    refine ⟨⟨?_, fun t ht hne => ?_⟩, rfl⟩
    · rintro t ht
      obtain rfl : s.current = t := Option.some.inj ht
      exact ⟨halive, Function.update_self .., hown.symm⟩
    · have hne : t ≠ s.current := fun h => hne (by rw [h])
      simp only [Function.update_of_ne hne]
      cases hlast : s.lastTask with
      | none => exact hinv.saved t ht (by simp [hlast])
      | some o =>
        simp only [Option.elim_some]
        by_cases hto : t = o
        · -- the former owner has been saved with `fnsave`
          subst hto
          obtain ⟨-, hused, hregs⟩ := hinv.owner t hlast
          rw [Function.update_self, if_pos hused, hregs]
        · rw [Function.update_of_ne hto]
          exact hinv.saved t ht (by rw [hlast]; exact fun h => hto (Option.some.inj h).symm)

/-- When a careful instruction begins, the registers are those of the running task. -/
theorem Inv.trap {f : φ → φ} (hinv : s.Inv cleared) (halive : s.alive s.current = true)
    (hcareful : s.Careful (.instr f)) :
    (s.trap cleared).Inv cleared ∧ (s.trap cleared).lastTask = some s.current := by
  cases hts : s.ts with
  | false =>
    rw [Fpu.trap, hts, if_neg (by simp)]
    exact ⟨hinv, hcareful hts⟩
  | true =>
    rw [Fpu.trap, hts, if_pos rfl]
    exact Inv.mathStateRestore (s := { s with ts := false }) ⟨hinv.owner, hinv.saved⟩ halive

/-- The trap changes nothing but the unit. -/
theorem trap_same (s : Fpu τ φ) (cleared : φ) : (s.trap cleared).own = s.own ∧
    (s.trap cleared).current = s.current ∧ (s.trap cleared).alive = s.alive := by
  unfold Fpu.trap Fpu.mathStateRestore
  split_ifs <;> exact ⟨rfl, rfl, rfl⟩

theorem Inv.instr {f : φ → φ} (hinv : s.Inv cleared) (halive : s.alive s.current = true)
    (hcareful : s.Careful (.instr f)) : (s.instr cleared f).Inv cleared := by
  obtain ⟨htrap, hlast⟩ := hinv.trap halive hcareful
  obtain ⟨hown, -, hsame⟩ := trap_same s cleared
  refine ⟨fun t ht => ?_, fun t ht hne => ?_⟩
  · obtain rfl : s.current = t := Option.some.inj (hlast.symm.trans ht)
    obtain ⟨h1, h2, h3⟩ := htrap.owner s.current hlast
    refine ⟨h1, h2, ?_⟩
    simp only [Fpu.instr, Function.update_self, h3, hown]
  · have hne : t ≠ s.current := by
      rintro rfl
      exact hne hlast
    have hsaved := htrap.saved t ht (by rw [hlast]; exact fun h => hne (Option.some.inj h).symm)
    simp only [Fpu.instr, Function.update_of_ne hne]
    rw [← hown]
    exact hsaved

/-- A task that does not own the registers passes on what is in its task structure. -/
theorem Inv.fork {child : τ} {ok : Bool} (hinv : s.Inv cleared)
    (halive : s.alive s.current = true) (hchild : s.alive child = false)
    (hcareful : s.lastTask ≠ some s.current) : (s.fork cleared child ok).Inv cleared := by
  have hlast : s.lastTask ≠ some child := fun h => by
    rw [(hinv.owner child h).1] at hchild
    exact absurd hchild (by simp)
  simp only [Fpu.fork, copyProcess, if_neg hcareful]
  refine ⟨fun t ht => ?_, fun t ht hne => ?_⟩
  · have htc : t ≠ child := by
      rintro rfl
      exact hlast ht
    simp only [Function.update_of_ne htc]
    exact hinv.owner t ht
  · by_cases htc : t = child
    · subst htc
      simp only [Function.update_self]
      exact hinv.saved s.current halive hcareful
    · simp only [Function.update_of_ne htc] at ht ⊢
      exact hinv.saved t ht hne

/-- A task that owned the registers owns them no more. -/
theorem lastTask_giveUp {t : τ} (h : s.giveUp.lastTask = some t) :
    s.lastTask = some t ∧ t ≠ s.current := by
  by_cases howner : s.lastTask = some s.current
  · simp only [giveUp, if_pos howner, reduceCtorEq] at h
  · simp only [giveUp, if_neg howner] at h
    exact ⟨h, fun ht => howner (ht ▸ h)⟩

theorem lastTask_of_giveUp {t : τ} (h : s.giveUp.lastTask ≠ some t) (ht : t ≠ s.current) :
    s.lastTask ≠ some t := by
  intro hlast
  have howner : s.lastTask ≠ some s.current := by
    rw [hlast]
    exact fun h => ht (Option.some.inj h)
  simp only [giveUp, if_neg howner] at h
  exact h hlast

theorem Inv.exec (hinv : s.Inv cleared) : (s.exec cleared).Inv cleared := by
  refine ⟨fun t ht => ?_, fun t ht hne => ?_⟩
  · obtain ⟨hlast, htc⟩ := lastTask_giveUp ht
    simp only [Fpu.exec, Function.update_of_ne htc]
    exact hinv.owner t hlast
  · by_cases htc : t = s.current
    · simp [Fpu.exec, htc]
    · simp only [Fpu.exec, Function.update_of_ne htc]
      exact hinv.saved t ht (lastTask_of_giveUp hne htc)

theorem Inv.exit (hinv : s.Inv cleared) : s.exit.Inv cleared := by
  refine ⟨fun t ht => ?_, fun t ht hne => ?_⟩
  · obtain ⟨hlast, htc⟩ := lastTask_giveUp ht
    simp only [Fpu.exit, Function.update_of_ne htc]
    exact hinv.owner t hlast
  · have htc : t ≠ s.current := by
      rintro rfl
      simp only [Fpu.exit, Function.update_self, Bool.false_eq_true] at ht
    simp only [Fpu.exit, Function.update_of_ne htc] at ht
    exact hinv.saved t ht (lastTask_of_giveUp hne htc)

theorem Inv.next (hinv : s.Inv cleared) (h : s.next cleared e = some s') (hcareful : s.Careful e) :
    s'.Inv cleared := by
  cases e with
  | instr f =>
    simp only [Fpu.next, Option.ite_none_right_eq_some, Option.some.injEq] at h
    obtain ⟨halive, rfl⟩ := h
    exact hinv.instr halive hcareful
  | switchTo t =>
    simp only [Fpu.next, Option.ite_none_right_eq_some, Option.some.injEq] at h
    obtain ⟨-, rfl⟩ := h
    unfold switchTo
    split_ifs
    · exact hinv
    · exact ⟨hinv.owner, hinv.saved⟩
  | fork child ok =>
    simp only [Fpu.next, Option.ite_none_right_eq_some, Option.some.injEq] at h
    obtain ⟨⟨halive, hchild⟩, rfl⟩ := h
    exact hinv.fork halive hchild hcareful
  | exec =>
    simp only [Fpu.next, Option.ite_none_right_eq_some, Option.some.injEq] at h
    obtain ⟨-, rfl⟩ := h
    exact hinv.exec
  | exit =>
    simp only [Fpu.next, Option.ite_none_right_eq_some, Option.some.injEq] at h
    obtain ⟨-, rfl⟩ := h
    exact hinv.exit

/-- In a run in which no owner of the registers forks and every instruction of a task that does not
own them traps, an instruction finds the registers that its task would have if it had a unit of
its own. -/
theorem fpu_transparent {f : φ → φ} (h : Reachable (Initial cleared) (CarefulStep cleared) s)
    (halive : s.alive s.current = true) (hcareful : s.Careful (.instr f)) :
    (s.trap cleared).regs = s.own s.current := by
  have hinv : s.Inv cleared := h.invariant (fun _ hs => hs.inv)
    fun _ _ hs ⟨_, he, hc⟩ => hs.next he hc
  obtain ⟨htrap, hlast⟩ := hinv.trap halive hcareful
  rw [(htrap.owner s.current hlast).2.2, (trap_same s cleared).1]

/-- One task after the boot, with registers that are numbers. -/
def boot : Fpu ℕ ℕ where
  current := 0
  alive t := t = 0
  ts := false
  regs := 0
  lastTask := none
  usedMath _ := false
  i387 _ := 0
  own _ := 0

theorem boot_initial : boot.Initial 0 :=
  ⟨fun _ => decide_eq_true_iff, rfl, rfl, fun _ => rfl, rfl⟩

/-- Task 0 makes task 1, which uses the unit. -/
theorem fpu_transparent_fork : ∃ s : Fpu ℕ ℕ, s.current = 1 ∧
    (s.trap 0).regs = s.own s.current := by
  have hstart : Reachable (Initial 0) (CarefulStep 0) boot := .of_init boot_initial
  have hfork : CarefulStep 0 boot (boot.fork 0 1 true) := ⟨.fork 1 true, rfl, by
    change (none : Option ℕ) ≠ some 0
    decide⟩
  have hswitch : CarefulStep 0 (boot.fork 0 1 true) ((boot.fork 0 1 true).switchTo 1) :=
    ⟨.switchTo 1, rfl, trivial⟩
  exact ⟨(boot.fork 0 1 true).switchTo 1, rfl,
    fpu_transparent (f := id) ((hstart.tail hfork).tail hswitch) rfl
      fun hts => absurd hts (by decide)⟩

/-- Task 1 has stored 7 in the registers and forks: they are cleared. -/
theorem fpu_lost : ∃ s : Fpu ℕ ℕ, Reachable (Initial 0) (Step 0) s ∧
    s.alive s.current = true ∧ s.own s.current = 7 ∧ (s.trap 0).regs = 0 := by
  have hrun : (runEvents (next 0) boot
      [.fork 1 true, .switchTo 1, .instr fun _ => 7, .fork 2 true]).any
        (fun s => s.alive s.current && decide (s.own s.current = 7) &&
          decide ((s.trap 0).regs = 0)) = true := by decide
  have hstart : Reachable (Initial 0) (Step 0) boot := .of_init boot_initial
  obtain ⟨s, hs, -, hP⟩ := hstart.exists_runEvents (fun _ e _ he => ⟨e, he⟩) hrun
  rw [Bool.and_eq_true, Bool.and_eq_true, decide_eq_true_eq, decide_eq_true_eq] at hP
  exact ⟨s, hs, hP.1.1, hP.1.2, hP.2⟩

end Fpu

end LihaLinux.Kernel
