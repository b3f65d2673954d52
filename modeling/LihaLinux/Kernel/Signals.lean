import LihaLinux.Lib.Transition
import Mathlib.Data.Int.Notation
import Mathlib.Data.Nat.Notation
import Mathlib.Logic.Function.Basic
import Mathlib.Tactic.Common

/-!
# Signal masks

`sys_ssetmask` keeps `SIGKILL` out of the mask of a task, but `sys_sigaction` takes `sa_mask` from
the user as it is, and `do_signal` adds it to the mask when it calls the handler. `SIGKILL` is
unmasked exactly as long as no signal is delivered to a handler with `SIGKILL` in its `sa_mask`.
-/

namespace LihaLinux.Kernel

/-- `SIGKILL`. -/
def sigKill : ℕ := 9

/-- `SIGCHLD`. -/
def sigChld : ℕ := 17

/-- `1<<(sig-1)`. -/
def sigBit (sig : ℕ) : BitVec 32 := 1#32 <<< (sig - 1)

/-- `SA_NOMASK`. -/
def saNomask : BitVec 32 := 0x40000000#32

/-- `SA_ONESHOT`. -/
def saOneshot : BitVec 32 := 0x80000000#32

/-- `struct sigaction`. -/
structure SigAction where
  handler : BitVec 32
  mask : BitVec 32
  flags : BitVec 32
  restorer : BitVec 32
  deriving DecidableEq

/-- What a task has of signals. -/
structure SigTask where
  signal : BitVec 32
  blocked : BitVec 32
  /-- `sigaction[32]`. -/
  sigaction : ℕ → SigAction

namespace SigTask

/-! ### The functions -/

/-- `sys_ssetmask`. -/
def sysSsetmask (p : SigTask) (newmask : BitVec 32) : SigTask :=
  { p with blocked := newmask &&& ~~~sigBit sigKill }

/-- Whether `sys_signal` and `sys_sigaction` take a signal number. -/
def validSig (signum : ℤ) : Prop := 1 ≤ signum ∧ signum ≤ 32 ∧ signum ≠ 9

instance (signum : ℤ) : Decidable (validSig signum) := inferInstanceAs (Decidable (_ ∧ _))

/-- Store `current->sigaction[signum-1]`. -/
def setAction (p : SigTask) (signum : ℤ) (act : SigAction) : SigTask :=
  { p with sigaction := Function.update p.sigaction (signum - 1).toNat act }

/-- `sys_signal`. -/
def sysSignal (p : SigTask) (signum : ℤ) (handler restorer : BitVec 32) : SigTask :=
  if validSig signum then
    p.setAction signum { handler, mask := 0, flags := saOneshot ||| saNomask, restorer }
  else p

/-- `sys_sigaction`. -/
def sysSigaction (p : SigTask) (signum : ℤ) (action : SigAction) : SigTask :=
  if validSig signum then
    p.setAction signum { action with
      mask := if action.flags &&& saNomask ≠ 0 then 0
        else action.mask ||| sigBit signum.toNat }
  else p

/-- The signals that `ret_from_sys_call` finds: `signal & ~blocked`. -/
def deliverable (p : SigTask) : BitVec 32 := p.signal &&& ~~~p.blocked

/-- The number of the first signal that `ret_from_sys_call` finds. -/
def firstSig (p : SigTask) : Option ℕ :=
  ((List.range 32).find? fun i => p.deliverable.getLsbD i).map (· + 1)

/-- `do_signal`, without the frame on the user stack; the task exits when there is no result. -/
def doSignal (p : SigTask) (signr : ℕ) : Option SigTask :=
  let sa := p.sigaction (signr - 1)
  if sa.handler = 1 then some p
  else if sa.handler = 0 then
    if signr = sigChld then some p else none
  else
    let act := if sa.flags &&& saOneshot ≠ 0 then { sa with handler := 0 } else sa
    some { p with
      sigaction := Function.update p.sigaction (signr - 1) act
      blocked := p.blocked ||| sa.mask }

/-- `ret_from_sys_call`, on the way to user mode. -/
def retFromSysCall (p : SigTask) : Option SigTask :=
  match p.firstSig with
  | none => some p
  | some signr => { p with signal := p.signal &&& ~~~sigBit signr }.doSignal signr

/-- The action whose handler `ret_from_sys_call` calls. -/
def delivers (p : SigTask) : Option SigAction :=
  p.firstSig.bind fun signr =>
    if (p.sigaction (signr - 1)).handler = 1 ∨ (p.sigaction (signr - 1)).handler = 0 then none
    else some (p.sigaction (signr - 1))

/-- The parts of a new task: no signals are pending. -/
def forked (p : SigTask) : SigTask := { p with signal := 0 }

/-- `INIT_TASK`. -/
def init : SigTask where
  signal := 0
  blocked := 0
  sigaction _ := { handler := 0, mask := 0, flags := 0, restorer := 0 }

end SigTask

/-! ### Runs -/

/-- The tasks. -/
abbrev SigSystem : Type := ℕ → Option SigTask

/-- What can happen to the tasks. -/
inductive SigEvent
  | ssetmask (t : ℕ) (newmask : BitVec 32)
  | signal (t : ℕ) (signum : ℤ) (handler restorer : BitVec 32)
  | sigaction (t : ℕ) (signum : ℤ) (action : SigAction)
  /-- Anybody sends a signal. -/
  | send (t sig : ℕ)
  /-- A task returns to user mode. -/
  | ret (t : ℕ)
  | fork (t child : ℕ)
  | exit (t : ℕ)

namespace SigSystem

/-- Change a task. -/
def modify (s : SigSystem) (t : ℕ) (f : SigTask → Option SigTask) : Option SigSystem :=
  (s t).map fun p => Function.update s t (f p)

/-- The next state of the tasks. Task 0 has no signals. -/
def next (s : SigSystem) : SigEvent → Option SigSystem
  | .ssetmask t newmask => s.modify t fun p => some (p.sysSsetmask newmask)
  | .signal t signum handler restorer =>
    s.modify t fun p => some (p.sysSignal signum handler restorer)
  | .sigaction t signum action => s.modify t fun p => some (p.sysSigaction signum action)
  | .send t sig => s.modify t fun p => some { p with signal := p.signal ||| sigBit sig }
  | .ret t => if t = 0 then some s else s.modify t SigTask.retFromSysCall
  | .fork t child =>
    if s child = none then (s t).map fun p => Function.update s child (some p.forked) else none
  | .exit t => s.modify t fun _ => none

/-- The system with task 0 only. -/
def init : SigSystem := fun t => if t = 0 then some .init else none

/-- No handler is called whose `sa_mask` has `SIGKILL` in it. -/
def Careful (s : SigSystem) : SigEvent → Prop
  | .ret t => t ≠ 0 → ∀ p ∈ s t, ∀ sa ∈ p.delivers, sa.mask.getLsbD 8 = false
  | _ => True

/-- The steps that call no such handler. -/
def CarefulStep (s s' : SigSystem) : Prop := ∃ e, s.next e = some s' ∧ s.Careful e

/-- Any event. -/
def Step (s s' : SigSystem) : Prop := ∃ e, s.next e = some s'

/-- No task has `SIGKILL` in its mask. -/
def Unmasked (s : SigSystem) : Prop := ∀ t, ∀ p ∈ s t, p.blocked.getLsbD 8 = false

end SigSystem

/-! ### The mask -/

namespace SigTask

variable {p p' : SigTask}

theorem blocked_sysSsetmask (newmask : BitVec 32) :
    (p.sysSsetmask newmask).blocked.getLsbD 8 = false := by
  simp [sysSsetmask, sigBit, sigKill]

theorem blocked_sysSignal (signum : ℤ) (handler restorer : BitVec 32) :
    (p.sysSignal signum handler restorer).blocked = p.blocked := by
  unfold sysSignal
  split_ifs <;> rfl

theorem blocked_sysSigaction (signum : ℤ) (action : SigAction) :
    (p.sysSigaction signum action).blocked = p.blocked := by
  unfold sysSigaction
  split_ifs <;> rfl

/-- `do_signal` adds the mask of the handler that it calls. -/
theorem blocked_doSignal {signr : ℕ} (h : p.doSignal signr = some p') :
    p'.blocked =
      if (p.sigaction (signr - 1)).handler = 1 ∨ (p.sigaction (signr - 1)).handler = 0 then
        p.blocked
      else p.blocked ||| (p.sigaction (signr - 1)).mask := by
  simp only [doSignal] at h
  by_cases h1 : (p.sigaction (signr - 1)).handler = 1
  · rw [if_pos h1, Option.some.injEq] at h
    rw [if_pos (Or.inl h1), h]
  · rw [if_neg h1] at h
    by_cases h0 : (p.sigaction (signr - 1)).handler = 0
    · rw [if_pos h0, Option.ite_none_right_eq_some, Option.some.injEq] at h
      rw [if_pos (Or.inr h0), h.2]
    · rw [if_neg h0, Option.some.injEq] at h
      rw [if_neg (by simp only [h1, h0, or_self, not_false_eq_true]), ← h]

/-- The mask after the return to user mode: that of the handler has been added. -/
theorem blocked_retFromSysCall (h : p.retFromSysCall = some p') :
    p'.blocked = p.blocked ||| (p.delivers.map SigAction.mask).getD 0 := by
  unfold retFromSysCall at h
  cases hsig : p.firstSig with
  | none =>
    simp only [hsig, Option.some.injEq] at h
    rw [delivers, hsig, h, Option.bind_none, Option.map_none, Option.getD_none,
      BitVec.ofNat_eq_ofNat, BitVec.or_zero]
  | some signr =>
    simp only [hsig] at h
    rw [blocked_doSignal h, delivers, hsig, Option.bind_some]
    by_cases hdefault :
        (p.sigaction (signr - 1)).handler = 1 ∨ (p.sigaction (signr - 1)).handler = 0
    · rw [if_pos hdefault, if_pos hdefault, Option.map_none, Option.getD_none,
        BitVec.ofNat_eq_ofNat, BitVec.or_zero]
    · rw [if_neg hdefault, if_neg hdefault, Option.map_some, Option.getD_some]

/-- A task that exits calls no handler. -/
theorem delivers_of_exit (h : p.retFromSysCall = none) : p.delivers = none := by
  unfold retFromSysCall at h
  cases hsig : p.firstSig with
  | none => rw [delivers, hsig, Option.bind_none]
  | some signr =>
    simp only [hsig, doSignal] at h
    rw [delivers, hsig, Option.bind_some]
    by_cases h0 : (p.sigaction (signr - 1)).handler = 0
    · rw [if_pos (Or.inr h0)]
    · by_cases h1 : (p.sigaction (signr - 1)).handler = 1
      · rw [if_pos (Or.inl h1)]
      · rw [if_neg h1, if_neg h0] at h
        exact absurd h (by simp)

/-- Whether `SIGKILL` is unmasked after the return to user mode. -/
theorem unmasked_retFromSysCall (h : p.retFromSysCall = some p')
    (hp : p.blocked.getLsbD 8 = false) :
    p'.blocked.getLsbD 8 = false ↔ ∀ sa ∈ p.delivers, sa.mask.getLsbD 8 = false := by
  rw [blocked_retFromSysCall h, BitVec.getLsbD_or, hp, Bool.false_or]
  cases p.delivers with
  | none => simp
  | some sa => simp

/-- A pending signal that is not masked is found. -/
theorem deliverable_of_unmasked (hp : p.blocked.getLsbD 8 = false)
    (hsig : p.signal.getLsbD 8 = true) : p.deliverable.getLsbD 8 = true := by
  rw [deliverable, BitVec.getLsbD_and, BitVec.getLsbD_not, hp, hsig]
  rfl

end SigTask

namespace SigSystem

variable {s s' : SigSystem} {e : SigEvent}

/-- What `modify` does to the tasks. -/
theorem modify_eq_some {t : ℕ} {f : SigTask → Option SigTask} (h : s.modify t f = some s') :
    ∃ p, s t = some p ∧ s' = Function.update s t (f p) := by
  obtain ⟨p, hp, rfl⟩ := Option.map_eq_some_iff.mp h
  exact ⟨p, hp, rfl⟩

/-- Only the task that has been changed can have a new mask. -/
theorem Unmasked.update_iff {t : ℕ} {x : Option SigTask} (hs : s.Unmasked) :
    Unmasked (Function.update s t x) ↔ ∀ p ∈ x, p.blocked.getLsbD 8 = false := by
  constructor
  · intro h
    have ht := h t
    rwa [Function.update_self] at ht
  · intro h u
    by_cases hu : u = t
    · rw [hu, Function.update_self]
      exact h
    · rw [Function.update_of_ne hu]
      exact hs u

/-- A change that keeps the mask. -/
theorem Unmasked.modify {t : ℕ} {f : SigTask → SigTask} (hs : s.Unmasked)
    (h : s.modify t (fun p => some (f p)) = some s')
    (hf : ∀ p, p.blocked.getLsbD 8 = false → (f p).blocked.getLsbD 8 = false) : s'.Unmasked := by
  obtain ⟨p, hp, rfl⟩ := modify_eq_some h
  rw [hs.update_iff]
  rintro q ⟨⟩
  exact hf p (hs t p hp)

/-- A step masks `SIGKILL` if and only if it calls a handler that has it in `sa_mask`. -/
theorem Unmasked.next_iff (hs : s.Unmasked) (h : s.next e = some s') :
    s'.Unmasked ↔ s.Careful e := by
  cases e with
  | ssetmask t newmask =>
    exact iff_of_true (hs.modify h fun p _ => SigTask.blocked_sysSsetmask newmask) trivial
  | signal t signum handler restorer =>
    refine iff_of_true (hs.modify h fun p hp => ?_) trivial
    rw [SigTask.blocked_sysSignal]
    exact hp
  | sigaction t signum action =>
    refine iff_of_true (hs.modify h fun p hp => ?_) trivial
    rw [SigTask.blocked_sysSigaction]
    exact hp
  | send t sig => exact iff_of_true (hs.modify h fun p hp => hp) trivial
  | ret t =>
    by_cases ht : t = 0
    · simp only [next, if_pos ht, Option.some.injEq] at h
      refine iff_of_true (h ▸ hs) fun h0 => absurd ht h0
    · rw [next, if_neg ht] at h
      obtain ⟨p, hp, rfl⟩ := modify_eq_some h
      rw [hs.update_iff]
      simp only [Careful, ht, ne_eq, not_false_eq_true, forall_true_left, hp, Option.mem_some_iff,
        forall_eq']
      cases hret : p.retFromSysCall with
      | none => simp [SigTask.delivers_of_exit hret]
      | some p' =>
        rw [← SigTask.unmasked_retFromSysCall hret (hs t p hp)]
        simp
  | fork t child =>
    simp only [next, Option.ite_none_right_eq_some, Option.map_eq_some_iff] at h
    obtain ⟨-, p, hp, rfl⟩ := h
    refine iff_of_true (hs.update_iff.mpr ?_) trivial
    rintro q ⟨⟩
    exact hs t p hp
  | exit t =>
    obtain ⟨p, hp, rfl⟩ := modify_eq_some h
    exact iff_of_true (hs.update_iff.mpr (by simp)) trivial

theorem init_unmasked : init.Unmasked := by
  intro t p hp
  unfold init at hp
  split_ifs at hp with ht
  · obtain rfl := Option.some.inj hp
    rfl
  · exact absurd hp (by simp)

/-- In a run that calls no handler with `SIGKILL` in its `sa_mask`, no task masks `SIGKILL`, so a
pending one is found on the way to user mode; and the next step keeps it so if and only if it calls
no such handler. -/
theorem sigkill_unmasked (h : Reachable (· = init) CarefulStep s) :
    (∀ t, ∀ p ∈ s t, p.blocked.getLsbD 8 = false ∧
      (p.signal.getLsbD 8 = true → p.deliverable.getLsbD 8 = true)) ∧
      ∀ e s', s.next e = some s' → (s'.Unmasked ↔ s.Careful e) := by
  have hs : s.Unmasked := h.invariant (fun s hs => by rw [hs]; exact init_unmasked)
    fun s s' hs ⟨e, he, hcareful⟩ => (hs.next_iff he).mpr hcareful
  refine ⟨fun t p hp => ⟨hs t p hp, fun hsig => ?_⟩, fun e s' he => hs.next_iff he⟩
  exact SigTask.deliverable_of_unmasked (hs t p hp) hsig

/-- Task 0 makes task 1. -/
theorem sigkill_unmasked_fork : ∃ s : SigSystem, (s 1).isSome ∧
    ∀ p ∈ s 1, p.blocked.getLsbD 8 = false := by
  have hstep : CarefulStep init (Function.update init 1 (some SigTask.init.forked)) :=
    ⟨.fork 0 1, rfl, trivial⟩
  have hstart : Reachable (· = init) CarefulStep init := .of_init rfl
  exact ⟨_, rfl, fun p hp => ((sigkill_unmasked (hstart.tail hstep)).1 1 p hp).1⟩

/-- A handler for `SIGINT` with `SIGKILL` in its `sa_mask` is called: `SIGKILL` is masked, and a
pending one is not found. -/
theorem sigkill_masked : ∃ s : SigSystem, Reachable (· = init) Step s ∧
    ∃ p, s 1 = some p ∧ p.blocked.getLsbD 8 = true ∧ p.signal.getLsbD 8 = true ∧
      p.deliverable.getLsbD 8 = false := by
  have hrun : (runEvents next init [.fork 0 1,
      .sigaction 1 2 { handler := 4096, mask := 256, flags := 0, restorer := 0 },
      .send 1 2, .ret 1, .send 1 9]).any
        (fun s => (s 1).any fun p => p.blocked.getLsbD 8 && p.signal.getLsbD 8 &&
          !p.deliverable.getLsbD 8) = true := by decide +kernel
  have hstart : Reachable (· = init) Step init := .of_init rfl
  obtain ⟨s, hs, -, hP⟩ := hstart.exists_runEvents (fun _ e _ he => ⟨e, he⟩) hrun
  obtain ⟨p, hp, hbits⟩ := (Option.any_eq_true _ _).mp hP
  rw [Bool.and_eq_true, Bool.and_eq_true, Bool.not_eq_true'] at hbits
  exact ⟨s, hs, p, hp, hbits.1.1, hbits.1.2, hbits.2⟩

end SigSystem

end LihaLinux.Kernel
