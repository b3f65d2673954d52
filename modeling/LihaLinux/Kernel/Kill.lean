import LihaLinux.Kernel.Processes

/-!
# Whom `sys_kill` signals

The loops of `sys_kill` go down the task table with one cursor. The loop for -1 is left at the
first task that gets the signal, as the `else` after it belongs to the test inside; from there on
only tasks of the process group 1 are signalled. The numbers below -1 have no loop, and the loop
for 0 compares process groups with the number of the caller.
-/

namespace LihaLinux.Kernel

namespace Processes

variable {s : Processes} {cur : Proc} {sig pid : ℤ}

/-! ### The loops -/

theorem mapTasks_mapTasks (f g : ℕ → Proc → Proc) :
    (s.mapTasks f).mapTasks g = s.mapTasks fun i p => g i (f i p) := by
  simp only [mapTasks, Option.map_map, Function.comp_def]

/-- Two changes that agree on the tasks that there are. -/
theorem mapTasks_congr {f g : ℕ → Proc → Proc}
    (h : ∀ i p, s.task i = some p → f i p = g i p) : s.mapTasks f = s.mapTasks g := by
  have htask : (fun i => (s.task i).map (f i)) = fun i => (s.task i).map (g i) := by
    funext i
    cases hp : s.task i with
    | none => rfl
    | some p => rw [Option.map_some, Option.map_some, h i p hp]
  rw [mapTasks, mapTasks, htask]

/-- A change that leaves all tasks alone. -/
theorem mapTasks_self {f : ℕ → Proc → Proc} (h : ∀ i p, s.task i = some p → f i p = p) :
    s.mapTasks f = s := by
  rw [mapTasks_congr (g := fun _ p => p) h]
  simp only [mapTasks, Option.map_id']

theorem modify_task_ne {i j : ℕ} (hne : i ≠ j) (f : Proc → Proc) :
    (s.modify j f).task i = s.task i := by
  simp only [modify, mapTasks, if_neg hne, Option.map_id']

/-- A loop sends the signal to the tasks that are selected. -/
theorem killLoop_task (select : Proc → Bool) (priv : Bool) (n : ℕ) (s : Processes) (retval : ℤ) :
    (killLoop cur sig select priv n s retval).1 = s.mapTasks fun i p =>
      if i ≠ 0 ∧ i ≤ n ∧ select p = true then (sendSig cur sig priv p).1 else p := by
  induction n generalizing s retval with
  | zero =>
    rw [killLoop, mapTasks_self]
    intro i p _
    exact if_neg fun h => h.1 (Nat.le_zero.mp h.2.1)
  | succ n ih =>
    rw [killLoop]
    cases hq : s.task (n + 1) with
    | none =>
      dsimp only
      rw [ih]
      apply mapTasks_congr
      intro i p hp
      have hne : i ≠ n + 1 := by
        rintro rfl
        rw [hq] at hp
        exact absurd hp (by simp)
      have hle : i ≤ n + 1 ↔ i ≤ n := by omega
      simp only [hle]
    | some q =>
      dsimp only
      by_cases hsel : select q = true
      · rw [if_pos hsel, ih, modify, mapTasks_mapTasks]
        apply mapTasks_congr
        intro i p hp
        by_cases hi : i = n + 1
        · subst hi
          obtain rfl := Option.some.inj (hq.symm.trans hp)
          have hnot : ¬ n + 1 ≤ n := by omega
          simp only [hnot, false_and, and_false, if_false, if_true, Nat.le_refl, hsel, true_and,
            ne_eq, Nat.succ_ne_zero, not_false_eq_true]
        · have hle : i ≤ n + 1 ↔ i ≤ n := by omega
          simp only [if_neg hi, hle]
      · rw [if_neg hsel, ih]
        apply mapTasks_congr
        intro i p hp
        by_cases hi : i = n + 1
        · subst hi
          obtain rfl := Option.some.inj (hq.symm.trans hp)
          rw [if_neg fun h => hsel h.2.2, if_neg fun h => hsel h.2.2]
        · have hle : i ≤ n + 1 ↔ i ≤ n := by omega
          simp only [hle]

/-- A loop returns an error if it had one before or the signal cannot be sent to some task. -/
theorem killLoop_err (select : Proc → Bool) (priv : Bool) (n : ℕ) (s : Processes) (retval : ℤ) :
    (killLoop cur sig select priv n s retval).2 ≠ 0 ↔ retval ≠ 0 ∨
      ∃ i p, i ≠ 0 ∧ i ≤ n ∧ s.task i = some p ∧ select p = true ∧
        (sendSig cur sig priv p).2 ≠ 0 := by
  induction n generalizing s retval with
  | zero =>
    rw [killLoop]
    constructor
    · exact Or.inl
    · rintro (h | ⟨i, p, h0, hle, -⟩)
      · exact h
      · exact absurd (Nat.le_zero.mp hle) h0
  | succ n ih =>
    -- the entry `n + 1` comes first, and the others are as before
    have hsplit : (∃ i p, i ≠ 0 ∧ i ≤ n + 1 ∧ s.task i = some p ∧ select p = true ∧
        (sendSig cur sig priv p).2 ≠ 0) ↔
        (∃ p, s.task (n + 1) = some p ∧ select p = true ∧ (sendSig cur sig priv p).2 ≠ 0) ∨
        ∃ i p, i ≠ 0 ∧ i ≤ n ∧ s.task i = some p ∧ select p = true ∧
          (sendSig cur sig priv p).2 ≠ 0 := by
      constructor
      · rintro ⟨i, p, h0, hle, hrest⟩
        rcases Nat.lt_or_eq_of_le hle with hlt | rfl
        · exact Or.inr ⟨i, p, h0, Nat.lt_succ_iff.mp hlt, hrest⟩
        · exact Or.inl ⟨p, hrest⟩
      · rintro (⟨p, hrest⟩ | ⟨i, p, h0, hle, hrest⟩)
        · exact ⟨n + 1, p, n.succ_ne_zero, Nat.le_refl _, hrest⟩
        · exact ⟨i, p, h0, Nat.le_succ_of_le hle, hrest⟩
    rw [killLoop, hsplit]
    cases hq : s.task (n + 1) with
    | none =>
      dsimp only
      rw [ih]
      simp
    | some q =>
      dsimp only
      by_cases hsel : select q = true
      · have hothers : ∀ f i, i ≤ n → (s.modify (n + 1) f).task i = s.task i := by
          intro f i hle
          have hne : i ≠ n + 1 := by omega
          exact modify_task_ne hne f
        have hsame : ∀ f, (∃ i p, i ≠ 0 ∧ i ≤ n ∧ (s.modify (n + 1) f).task i = some p ∧
            select p = true ∧ (sendSig cur sig priv p).2 ≠ 0) ↔
            ∃ i p, i ≠ 0 ∧ i ≤ n ∧ s.task i = some p ∧ select p = true ∧
              (sendSig cur sig priv p).2 ≠ 0 := by
          intro f
          constructor
          · rintro ⟨i, p, h0, hle, hp, hrest⟩
            exact ⟨i, p, h0, hle, (hothers f i hle) ▸ hp, hrest⟩
          · rintro ⟨i, p, h0, hle, hp, hrest⟩
            exact ⟨i, p, h0, hle, (hothers f i hle).trans hp, hrest⟩
        rw [if_pos hsel, ih, hsame]
        by_cases herr : (sendSig cur sig priv q).2 = 0
        · simp [keepErr, herr]
        · simp [keepErr, herr, hsel]
      · rw [if_neg hsel, ih]
        simp [hsel]

/-- The loop for -1, if no task gets the signal. -/
theorem killAll_none {n : ℕ} (retval : ℤ)
    (hnone : ∀ i p, i ≠ 0 → i ≤ n → s.task i = some p → (sendSig cur sig false p).2 ≠ 0) :
    (killAll cur sig n s retval).1 = s ∧
      (retval ≠ 0 ∨ n ≠ 0 → (killAll cur sig n s retval).2 ≠ 0) := by
  induction n generalizing retval with
  | zero =>
    rw [killAll]
    exact ⟨rfl, fun h => h.resolve_right fun hne => hne rfl⟩
  | succ n ih =>
    have hbelow := fun i p h0 hle => hnone i p h0 (Nat.le_succ_of_le hle)
    rw [killAll]
    cases hq : s.task (n + 1) with
    | none =>
      have hih := ih (-eInval) hbelow
      exact ⟨hih.1, fun _ => hih.2 (Or.inl (by decide))⟩
    | some q =>
      have herr := hnone (n + 1) q n.succ_ne_zero (Nat.le_refl _) hq
      have hih := ih (sendSig cur sig false q).2 hbelow
      dsimp only
      rw [if_pos herr]
      exact ⟨hih.1, fun _ => hih.2 (Or.inl herr)⟩

/-- The loop for -1, if the task at entry `j` is the first one that gets the signal: it goes on as
a loop for the process group 1, with an error if there were entries before. -/
theorem killAll_first {n j : ℕ} {p : Proc} (retval : ℤ) (h0 : j ≠ 0) (hle : j ≤ n)
    (hp : s.task j = some p) (hok : (sendSig cur sig false p).2 = 0)
    (habove : ∀ i q, j < i → i ≤ n → s.task i = some q → (sendSig cur sig false q).2 ≠ 0) :
    ∃ err, killAll cur sig n s retval = killLoop cur sig (fun q => q.pgrp = 1) false (j - 1)
      (s.modify j fun p => (sendSig cur sig false p).1) err ∧
      (err ≠ 0 ↔ retval ≠ 0 ∨ j < n) := by
  induction n generalizing retval with
  | zero => exact absurd (Nat.le_zero.mp hle) h0
  | succ n ih =>
    rw [killAll]
    rcases Nat.lt_or_eq_of_le hle with hlt | rfl
    · have hle' : j ≤ n := Nat.lt_succ_iff.mp hlt
      have hbelow := fun i q hi hin => habove i q hi (Nat.le_succ_of_le hin)
      cases hq : s.task (n + 1) with
      | none =>
        obtain ⟨err, heq, herr⟩ := ih (-eInval) hle' hbelow
        refine ⟨err, heq, ?_⟩
        exact iff_of_true (herr.mpr (Or.inl (by decide))) (Or.inr hlt)
      | some q =>
        have hne := habove (n + 1) q hlt (Nat.le_refl _) hq
        obtain ⟨err, heq, herr⟩ := ih (sendSig cur sig false q).2 hle' hbelow
        dsimp only
        rw [if_pos hne]
        exact ⟨err, heq, iff_of_true (herr.mpr (Or.inl hne)) (Or.inr hlt)⟩
    · rw [hp]
      dsimp only
      rw [if_neg fun hne => hne hok]
      exact ⟨retval, rfl, by simp⟩

/-- The task at entry `j` is the first one down from entry `n` to which the signal can be sent. -/
def FirstSent (s : Processes) (cur : Proc) (sig : ℤ) (n j : ℕ) (p : Proc) : Prop :=
  j ≠ 0 ∧ j ≤ n ∧ s.task j = some p ∧ (sendSig cur sig false p).2 = 0 ∧
    ∀ i q, j < i → i ≤ n → s.task i = some q → (sendSig cur sig false q).2 ≠ 0

/-- Either the signal can be sent to no task, or there is a first one. -/
theorem firstSent_cases (s : Processes) (cur : Proc) (sig : ℤ) (n : ℕ) :
    (∀ i p, i ≠ 0 → i ≤ n → s.task i = some p → (sendSig cur sig false p).2 ≠ 0) ∨
      ∃ j p, FirstSent s cur sig n j p := by
  induction n with
  | zero => exact Or.inl fun i p h0 hle => absurd (Nat.le_zero.mp hle) h0
  | succ n ih =>
    by_cases hlast : ∃ p, s.task (n + 1) = some p ∧ (sendSig cur sig false p).2 = 0
    · obtain ⟨p, hp, hok⟩ := hlast
      exact Or.inr ⟨n + 1, p, n.succ_ne_zero, Nat.le_refl _, hp, hok, fun i q hlt hle => by omega⟩
    · have hne : ∀ q, s.task (n + 1) = some q → (sendSig cur sig false q).2 ≠ 0 :=
        fun q hq hok => hlast ⟨q, hq, hok⟩
      rcases ih with hnone | ⟨j, p, h0, hle, hp, hok, habove⟩
      · left
        intro i p h0 hle hp
        rcases Nat.lt_or_eq_of_le hle with hlt | rfl
        · exact hnone i p h0 (Nat.lt_succ_iff.mp hlt) hp
        · exact hne p hp
      · right
        refine ⟨j, p, h0, Nat.le_succ_of_le hle, hp, hok, ?_⟩
        intro i q hji hle' hq
        rcases Nat.lt_or_eq_of_le hle' with hlt | rfl
        · exact habove i q hji (Nat.lt_succ_iff.mp hlt) hq
        · exact hne q hq

/-- `sys_kill` leaves a task alone or sends it the signal. -/
theorem sysKill_mapTasks (s : Processes) (cur : Proc) (pid sig : ℤ) :
    ∃ f, (s.sysKill cur pid sig).1 = s.mapTasks f ∧
      ∀ i p, f i p = p ∨ ∃ priv, f i p = (sendSig cur sig priv p).1 := by
  have hloop : ∀ (select : Proc → Bool) priv n (s : Processes) retval,
      ∃ f, (killLoop cur sig select priv n s retval).1 = s.mapTasks f ∧
        ∀ i p, f i p = p ∨ i ≤ n ∧ f i p = (sendSig cur sig priv p).1 := by
    intro select priv n s retval
    refine ⟨_, killLoop_task select priv n s retval, fun i p => ?_⟩
    split
    · rename_i hsel
      exact Or.inr ⟨hsel.2.1, rfl⟩
    · exact Or.inl rfl
  have hsimple : ∀ (select : Proc → Bool) priv,
      ∃ f, (killLoop cur sig select priv (nrTasks - 1) s 0).1 = s.mapTasks f ∧
        ∀ i p, f i p = p ∨ ∃ priv, f i p = (sendSig cur sig priv p).1 := by
    intro select priv
    obtain ⟨f, heq, hf⟩ := hloop select priv (nrTasks - 1) s 0
    exact ⟨f, heq, fun i p => (hf i p).imp_right fun h => ⟨priv, h.2⟩⟩
  have hself : ∃ f, s = s.mapTasks f ∧ ∀ i p, f i p = p ∨ ∃ priv,
      f i p = (sendSig cur sig priv p).1 :=
    ⟨fun _ p => p, (mapTasks_self fun _ _ _ => rfl).symm, fun _ _ => Or.inl rfl⟩
  rw [sysKill]
  split
  · exact hsimple _ _
  · split
    · exact hsimple _ _
    · split
      · rcases firstSent_cases s cur sig (nrTasks - 1) with hnone | ⟨j, p, h0, hle, hp, hok, habove⟩
        · rw [(killAll_none 0 hnone).1]
          exact hself
        · obtain ⟨err, heq, -⟩ := killAll_first 0 h0 hle hp hok habove
          obtain ⟨f, hf, hsend⟩ := hloop (fun q => q.pgrp = 1) false (j - 1)
            (s.modify j fun p => (sendSig cur sig false p).1) err
          rw [heq, hf, modify, mapTasks_mapTasks]
          refine ⟨_, rfl, fun i q => ?_⟩
          by_cases hi : i = j
          · -- the loop below entry `j` does not come to it again
            subst hi
            rw [if_pos rfl]
            rcases hsend i (sendSig cur sig false q).1 with hsame | ⟨hlt, -⟩
            · exact Or.inr ⟨false, hsame⟩
            · omega
          · rw [if_neg hi]
            exact (hsend i q).imp_right fun h => ⟨false, h.2⟩
      · exact hself

/-! ### Whom it should signal -/

/-- An entry of the table other than that of the idle task. -/
def InTable (s : Processes) (i : ℕ) (p : Proc) : Prop := i ≠ 0 ∧ i < nrTasks ∧ s.task i = some p

/-- The tasks that a number addresses. -/
def Addressed (cur : Proc) (pid : ℤ) (p : Proc) : Prop :=
  if 0 < pid then p.pid = pid
  else if pid = 0 then p.pgrp = cur.pgrp
  else if pid = -1 then True
  else p.pgrp = -pid

/-- The task may be signalled: it has the same `euid`, or the caller is the superuser. -/
def MaySignal (cur p : Proc) : Prop := cur.euid = p.euid ∨ cur.euid = 0

/-- The bit of the signal is set already. -/
def HasSignal (sig : ℤ) (p : Proc) : Prop := p.signal ||| sigBit sig.toNat = p.signal

/-- The signal goes to the addressed tasks that may be signalled and to no other, and there is an
error if an addressed task may not be signalled. -/
structure KillsAddressed (s : Processes) (cur : Proc) (pid sig : ℤ) (r : Processes × ℤ) :
    Prop where
  inTable : ∀ i p, s.InTable i p →
    (Addressed cur pid p ∧ MaySignal cur p →
      r.1.task i = some (addSignal (sigBit sig.toNat) p)) ∧
    (¬ (Addressed cur pid p ∧ MaySignal cur p) → r.1.task i = some p)
  others : ∀ i, (∀ p, ¬ s.InTable i p) → r.1.task i = s.task i
  error : ∀ i p, s.InTable i p → Addressed cur pid p → ¬ MaySignal cur p → r.2 ≠ 0

theorem sendSig_of_may {priv : Bool} {p : Proc} (h1 : 1 ≤ sig) (h32 : sig ≤ 32)
    (hmay : priv = true ∨ MaySignal cur p) :
    sendSig cur sig priv p = (addSignal (sigBit sig.toNat) p, 0) := by
  have hvalid : ¬ (sig < 1 ∨ 32 < sig) := by omega
  have hcond : (priv || decide (cur.euid = p.euid) || decide (cur.euid = 0)) = true := by
    rcases hmay with rfl | hsame | hroot
    · rfl
    · simp [hsame]
    · simp [hroot]
  rw [sendSig, if_neg hvalid, if_pos hcond]

theorem sendSig_of_not_may {p : Proc} (h1 : 1 ≤ sig) (h32 : sig ≤ 32)
    (hmay : ¬ MaySignal cur p) : sendSig cur sig false p = (p, -ePerm) := by
  have hvalid : ¬ (sig < 1 ∨ 32 < sig) := by omega
  have hcond : ¬ (false || decide (cur.euid = p.euid) || decide (cur.euid = 0)) = true := by
    intro h
    simp only [Bool.false_or, Bool.or_eq_true, decide_eq_true_eq] at h
    exact hmay h
  rw [sendSig, if_neg hvalid, if_neg hcond]

theorem sendSig_err_iff {p : Proc} (h1 : 1 ≤ sig) (h32 : sig ≤ 32) :
    (sendSig cur sig false p).2 ≠ 0 ↔ ¬ MaySignal cur p := by
  by_cases hmay : MaySignal cur p
  · rw [sendSig_of_may h1 h32 (Or.inr hmay)]
    exact iff_of_false (fun h => h rfl) fun h => h hmay
  · have hne : -ePerm ≠ 0 := by decide
    rw [sendSig_of_not_may h1 h32 hmay]
    exact iff_of_true hne hmay

/-- A change that gives the signal to the tasks that satisfy `C`: it is right if and only if these
are the tasks that should get it, apart from those that have it. -/
theorem killsAddressed_iff {r : Processes × ℤ} {f : ℕ → Proc → Proc} {C : ℕ → Proc → Prop}
    (hr : r.1 = s.mapTasks f)
    (hyes : ∀ i p, s.task i = some p → C i p →
      s.InTable i p ∧ f i p = addSignal (sigBit sig.toNat) p)
    (hno : ∀ i p, s.task i = some p → ¬ C i p → f i p = p) :
    KillsAddressed s cur pid sig r ↔
      (∀ i p, s.InTable i p → HasSignal sig p ∨ (C i p ↔ Addressed cur pid p ∧ MaySignal cur p)) ∧
        ∀ i p, s.InTable i p → Addressed cur pid p → ¬ MaySignal cur p → r.2 ≠ 0 := by
  have hsame : ∀ p, addSignal (sigBit sig.toNat) p = p ↔ HasSignal sig p := by
    intro p
    constructor
    · intro h
      exact congrArg Proc.signal h
    · intro h
      rw [addSignal, h]
  have htask : ∀ i p, s.task i = some p → r.1.task i = some (f i p) := by
    intro i p hp
    rw [hr]
    simp only [mapTasks, hp, Option.map_some]
  constructor
  · intro h
    refine ⟨fun i p hin => ?_, h.error⟩
    obtain ⟨hget, hkeep⟩ := h.inTable i p hin
    rw [htask i p hin.2.2] at hget hkeep
    by_cases hC : C i p
    · by_cases hA : Addressed cur pid p ∧ MaySignal cur p
      · exact Or.inr (iff_of_true hC hA)
      · left
        rw [← hsame, ← (hyes i p hin.2.2 hC).2]
        exact Option.some.inj (hkeep hA)
    · by_cases hA : Addressed cur pid p ∧ MaySignal cur p
      · left
        rw [← hsame, ← Option.some.inj (hget hA)]
        exact hno i p hin.2.2 hC
      · exact Or.inr (iff_of_false hC hA)
  · rintro ⟨hright, herror⟩
    refine ⟨fun i p hin => ?_, fun i hout => ?_, herror⟩
    · rw [htask i p hin.2.2]
      rcases hright i p hin with hhas | hiff
      · have hid : f i p = p := by
          by_cases hC : C i p
          · rw [(hyes i p hin.2.2 hC).2, hsame]
            exact hhas
          · exact hno i p hin.2.2 hC
        rw [hid, (hsame p).mpr hhas]
        exact ⟨fun _ => rfl, fun _ => rfl⟩
      · constructor
        · intro hA
          rw [(hyes i p hin.2.2 (hiff.mpr hA)).2]
        · intro hA
          rw [hno i p hin.2.2 (mt hiff.mp hA)]
    · cases hp : s.task i with
      | none =>
        rw [hr]
        simp only [mapTasks, hp, Option.map_none]
      | some p =>
        rw [htask i p hp, hno i p hp fun hC => hout p (hyes i p hp hC).1]

/-! ### When it does -/

/-- The task at entry `j` is the first one down the table that may be signalled. -/
def FirstMay (s : Processes) (cur : Proc) (j : ℕ) (p : Proc) : Prop :=
  s.InTable j p ∧ MaySignal cur p ∧ ∀ i q, j < i → s.InTable i q → ¬ MaySignal cur q

/-- For the number 0: the tasks with the caller's number as their process group are those of its
own process group, and all of these may be signalled. -/
def KillsGroup (s : Processes) (cur : Proc) (sig : ℤ) : Prop :=
  ∀ i p, s.InTable i p → (p.pgrp = cur.pgrp → MaySignal cur p) ∧
    (HasSignal sig p ∨ (p.pgrp = cur.pid ↔ p.pgrp = cur.pgrp))

/-- For the number -1: behind the first task that may be signalled, those that may be signalled are
in the process group 1; and if that task is in the last entry, then one in the process group 1 may
not be signalled if any may not. -/
def KillsAll (s : Processes) (cur : Proc) (sig : ℤ) : Prop :=
  ∀ j p, FirstMay s cur j p →
    (∀ i q, s.InTable i q → i < j → MaySignal cur q → q.pgrp = 1 ∨ HasSignal sig q) ∧
    (j = nrTasks - 1 → (∃ i q, s.InTable i q ∧ ¬ MaySignal cur q) →
      ∃ i q, s.InTable i q ∧ q.pgrp = 1 ∧ ¬ MaySignal cur q)

/-- For the numbers below -1: the tasks of the process group have the signal already. -/
def GroupHasSignal (s : Processes) (cur : Proc) (pid sig : ℤ) : Prop :=
  ∀ i p, s.InTable i p → p.pgrp = -pid → MaySignal cur p ∧ HasSignal sig p

theorem inTable_iff {i : ℕ} {p : Proc} (hp : s.task i = some p) :
    s.InTable i p ↔ i ≠ 0 ∧ i ≤ nrTasks - 1 := by
  have : nrTasks = 64 := rfl
  constructor
  · rintro ⟨h0, hlt, -⟩
    exact ⟨h0, by omega⟩
  · rintro ⟨h0, hle⟩
    exact ⟨h0, by omega, hp⟩

/-- The loop for a positive number is right. -/
theorem killLoop_pid (h1 : 1 ≤ sig) (h32 : sig ≤ 32) (hpid : 0 < pid) :
    KillsAddressed s cur pid sig
      (killLoop cur sig (fun p => p.pid = pid) false (nrTasks - 1) s 0) := by
  have haddr : ∀ p, Addressed cur pid p ↔ p.pid = pid := fun p => by rw [Addressed, if_pos hpid]
  rw [killsAddressed_iff (C := fun i p => s.InTable i p ∧ p.pid = pid ∧ MaySignal cur p)
    (killLoop_task ..)]
  · constructor
    · intro i p hin
      right
      rw [haddr]
      exact and_iff_right hin
    · intro i p hin ha hmay
      rw [killLoop_err]
      obtain ⟨h0, hle⟩ := (inTable_iff hin.2.2).mp hin
      exact Or.inr ⟨i, p, h0, hle, hin.2.2, decide_eq_true ((haddr p).mp ha),
        (sendSig_err_iff h1 h32).mpr hmay⟩
  · rintro i p hp ⟨hin, ha, hmay⟩
    obtain ⟨h0, hle⟩ := (inTable_iff hp).mp hin
    rw [if_pos ⟨h0, hle, decide_eq_true ha⟩, sendSig_of_may h1 h32 (Or.inr hmay)]
    exact ⟨hin, rfl⟩
  · intro i p hp hC
    split
    · rename_i hsel
      have hmay : ¬ MaySignal cur p := fun hmay =>
        hC ⟨(inTable_iff hp).mpr ⟨hsel.1, hsel.2.1⟩, of_decide_eq_true hsel.2.2, hmay⟩
      rw [sendSig_of_not_may h1 h32 hmay]
    · rfl

/-- The loop for 0 sends to the process group with the number of the caller, without a test. -/
theorem killLoop_group (h1 : 1 ≤ sig) (h32 : sig ≤ 32) :
    KillsAddressed s cur 0 sig
      (killLoop cur sig (fun p => p.pgrp = cur.pid) true (nrTasks - 1) s 0) ↔
      KillsGroup s cur sig := by
  have haddr : ∀ p, Addressed cur 0 p ↔ p.pgrp = cur.pgrp := fun p => by
    rw [Addressed, if_neg (by decide), if_pos rfl]
  have hquiet : (killLoop cur sig (fun p => p.pgrp = cur.pid) true (nrTasks - 1) s 0).2 = 0 := by
    by_contra hne
    rcases (killLoop_err ..).mp hne with h | ⟨i, p, -, -, -, -, herr⟩
    · exact h rfl
    · rw [sendSig_of_may h1 h32 (Or.inl rfl)] at herr
      exact herr rfl
  rw [killsAddressed_iff (C := fun i p => s.InTable i p ∧ p.pgrp = cur.pid) (killLoop_task ..)]
  · rw [hquiet, KillsGroup]
    constructor
    · rintro ⟨hright, herror⟩ i p hin
      have hmay : p.pgrp = cur.pgrp → MaySignal cur p := by
        intro ha
        by_contra hmay
        exact herror i p hin ((haddr p).mpr ha) hmay rfl
      refine ⟨hmay, (hright i p hin).imp_right fun hiff => ?_⟩
      rw [haddr, and_iff_right hin] at hiff
      exact hiff.trans ⟨fun h => h.1, fun h => ⟨h, hmay h⟩⟩
    · intro h
      constructor
      · intro i p hin
        obtain ⟨hmay, hiff⟩ := h i p hin
        refine hiff.imp_right fun hiff => ?_
        rw [haddr, and_iff_right hin, hiff]
        exact ⟨fun ha => ⟨ha, hmay ha⟩, fun ha => ha.1⟩
      · intro i p hin ha hmay
        exact absurd ((h i p hin).1 ((haddr p).mp ha)) hmay
  · rintro i p hp ⟨hin, ha⟩
    obtain ⟨h0, hle⟩ := (inTable_iff hp).mp hin
    rw [if_pos ⟨h0, hle, decide_eq_true ha⟩, sendSig_of_may h1 h32 (Or.inl rfl)]
    exact ⟨hin, rfl⟩
  · intro i p hp hC
    rw [if_neg]
    rintro ⟨h0, hle, ha⟩
    exact hC ⟨(inTable_iff hp).mpr ⟨h0, hle⟩, of_decide_eq_true ha⟩

theorem firstSent_iff {j : ℕ} {p : Proc} (h1 : 1 ≤ sig) (h32 : sig ≤ 32) :
    FirstSent s cur sig (nrTasks - 1) j p ↔ FirstMay s cur j p := by
  constructor
  · rintro ⟨h0, hle, hp, hok, habove⟩
    refine ⟨(inTable_iff hp).mpr ⟨h0, hle⟩, ?_, ?_⟩
    · by_contra hmay
      exact (sendSig_err_iff h1 h32).mpr hmay hok
    · intro i q hlt hin
      have hle' := ((inTable_iff hin.2.2).mp hin).2
      exact (sendSig_err_iff h1 h32).mp (habove i q hlt hle' hin.2.2)
  · rintro ⟨hin, hmay, habove⟩
    obtain ⟨h0, hle⟩ := (inTable_iff hin.2.2).mp hin
    refine ⟨h0, hle, hin.2.2, ?_, ?_⟩
    · rw [sendSig_of_may h1 h32 (Or.inr hmay)]
    · intro i q hlt hle' hq
      have hi0 : i ≠ 0 := by omega
      exact (sendSig_err_iff h1 h32).mpr (habove i q hlt ((inTable_iff hq).mpr ⟨hi0, hle'⟩))

theorem FirstMay.unique {j j' : ℕ} {p p' : Proc} (h : FirstMay s cur j p)
    (h' : FirstMay s cur j' p') : j' = j := by
  rcases Nat.lt_trichotomy j' j with hlt | heq | hlt
  · exact absurd h.2.1 (h'.2.2 j p hlt h.1)
  · exact heq
  · exact absurd h'.2.1 (h.2.2 j' p' hlt h'.1)

/-- What the loop for -1 does when some task may be signalled. -/
theorem killAll_may {j : ℕ} {p : Proc} (h1 : 1 ≤ sig) (h32 : sig ≤ 32)
    (hfirst : FirstMay s cur j p) :
    ∃ f, (killAll cur sig (nrTasks - 1) s 0).1 = s.mapTasks f ∧
      (∀ i q, s.task i = some q → i = j ∨ i ≠ 0 ∧ i < j ∧ q.pgrp = 1 ∧ MaySignal cur q →
        f i q = addSignal (sigBit sig.toNat) q) ∧
      (∀ i q, s.task i = some q → ¬ (i = j ∨ i ≠ 0 ∧ i < j ∧ q.pgrp = 1 ∧ MaySignal cur q) →
        f i q = q) ∧
      ((killAll cur sig (nrTasks - 1) s 0).2 ≠ 0 ↔ j < nrTasks - 1 ∨
        ∃ i q, i ≠ 0 ∧ i < j ∧ s.task i = some q ∧ q.pgrp = 1 ∧ ¬ MaySignal cur q) := by
  obtain ⟨h0, hle, hp, hok, habove⟩ := (firstSent_iff h1 h32).mpr hfirst
  obtain ⟨err, heq, herr⟩ := killAll_first 0 h0 hle hp hok habove
  rw [heq]
  refine ⟨_, by rw [killLoop_task, modify, mapTasks_mapTasks], ?_, ?_, ?_⟩
  · rintro i q hq (rfl | ⟨hi0, hlt, hgroup, hmay⟩)
    · obtain rfl := Option.some.inj (hp.symm.trans hq)
      have hnot : ¬ i ≤ i - 1 := by omega
      rw [if_pos rfl, if_neg fun h => hnot h.2.1, sendSig_of_may h1 h32 (Or.inr hfirst.2.1)]
    · have hle' : i ≤ j - 1 := by omega
      rw [if_neg (Nat.ne_of_lt hlt), if_pos ⟨hi0, hle', decide_eq_true hgroup⟩,
        sendSig_of_may h1 h32 (Or.inr hmay)]
  · intro i q hq hnot
    have hne : i ≠ j := fun h => hnot (Or.inl h)
    rw [if_neg hne]
    split
    · rename_i hsel
      have hlt : i < j := by omega
      have hmay : ¬ MaySignal cur q := fun hmay =>
        hnot (Or.inr ⟨hsel.1, hlt, of_decide_eq_true hsel.2.2, hmay⟩)
      rw [sendSig_of_not_may h1 h32 hmay]
    · rfl
  · rw [killLoop_err, herr]
    constructor
    · rintro ((h | hlt) | ⟨i, q, hi0, hle', hq, hgroup, hbad⟩)
      · exact absurd rfl h
      · exact Or.inl hlt
      · have hne : i ≠ j := by omega
        have hlt : i < j := by omega
        rw [modify_task_ne hne] at hq
        exact Or.inr ⟨i, q, hi0, hlt, hq, of_decide_eq_true hgroup,
          (sendSig_err_iff h1 h32).mp hbad⟩
    · rintro (hlt | ⟨i, q, hi0, hlt, hq, hgroup, hmay⟩)
      · exact Or.inl (Or.inr hlt)
      · have hle' : i ≤ j - 1 := by omega
        refine Or.inr ⟨i, q, hi0, hle', ?_, decide_eq_true hgroup,
          (sendSig_err_iff h1 h32).mpr hmay⟩
        rw [modify_task_ne (Nat.ne_of_lt hlt)]
        exact hq

theorem addressed_all (cur p : Proc) : Addressed cur (-1) p := by
  rw [Addressed, if_neg (by decide), if_neg (by decide), if_pos rfl]
  trivial

/-- The loop for -1. -/
theorem killAll_iff (h1 : 1 ≤ sig) (h32 : sig ≤ 32) :
    KillsAddressed s cur (-1) sig (killAll cur sig (nrTasks - 1) s 0) ↔ KillsAll s cur sig := by
  have haddr := addressed_all cur
  rcases firstSent_cases s cur sig (nrTasks - 1) with hnone | ⟨j, p, hsent⟩
  · -- no task may be signalled, and every entry gives an error
    obtain ⟨hsame, herr⟩ := killAll_none 0 hnone
    have hmay : ∀ i q, s.InTable i q → ¬ MaySignal cur q := by
      intro i q hin
      obtain ⟨h0, hle⟩ := (inTable_iff hin.2.2).mp hin
      exact (sendSig_err_iff h1 h32).mp (hnone i q h0 hle hin.2.2)
    apply iff_of_true
    · rw [killsAddressed_iff (f := fun _ q => q) (C := fun _ _ => False)]
      · refine ⟨fun i q hin => Or.inr (iff_of_false id fun h => hmay i q hin h.2), ?_⟩
        exact fun _ _ _ _ _ => herr (Or.inr (by decide))
      · rw [hsame, mapTasks_self fun _ _ _ => rfl]
      · exact fun _ _ _ h => h.elim
      · exact fun _ _ _ _ => rfl
    · intro j p hfirst
      exact absurd hfirst.2.1 (hmay j p hfirst.1)
  · have hfirst := (firstSent_iff h1 h32).mp hsent
    obtain ⟨f, hf, hyes, hno, herr⟩ := killAll_may h1 h32 hfirst
    have hin : ∀ i q, s.task i = some q → i ≠ 0 → i < j → s.InTable i q := by
      intro i q hq h0 hlt
      exact ⟨h0, Nat.lt_trans hlt hfirst.1.2.1, hq⟩
    have hself : ∀ q, s.task j = some q → MaySignal cur q := by
      intro q hq
      obtain rfl := Option.some.inj (hfirst.1.2.2.symm.trans hq)
      exact hfirst.2.1
    rw [killsAddressed_iff hf (fun i q hq hC => ⟨?_, hyes i q hq hC⟩) hno]
    · constructor
      · rintro ⟨hright, herror⟩ j' p' hfirst'
        obtain rfl := hfirst.unique hfirst'
        constructor
        · intro i q hq hlt hmay
          rcases hright i q hq with hhas | hiff
          · exact Or.inr hhas
          · rcases hiff.mpr ⟨haddr q, hmay⟩ with heq | ⟨-, -, hgroup, -⟩
            · omega
            · exact Or.inl hgroup
        · rintro hlast ⟨i, q, hq, hmay⟩
          rcases herr.mp (herror i q hq (haddr q) hmay) with hlt | ⟨i', q', h0, hlt, hq', hbad⟩
          · omega
          · exact ⟨i', q', hin i' q' hq' h0 hlt, hbad⟩
      · intro h
        obtain ⟨hbelow, hlast⟩ := h j p hfirst
        constructor
        · intro i q hq
          rcases Nat.lt_trichotomy i j with hlt | rfl | hlt
          · by_cases hmay : MaySignal cur q
            · rcases hbelow i q hq hlt hmay with hgroup | hhas
              · exact Or.inr (iff_of_true (Or.inr ⟨hq.1, hlt, hgroup, hmay⟩) ⟨haddr q, hmay⟩)
              · exact Or.inl hhas
            · refine Or.inr (iff_of_false ?_ fun h => hmay h.2)
              rintro (heq | h)
              · omega
              · exact hmay h.2.2.2
          · exact Or.inr (iff_of_true (Or.inl rfl) ⟨haddr q, hself q hq.2.2⟩)
          · refine Or.inr (iff_of_false ?_ fun h => hfirst.2.2 i q hlt hq h.2)
            rintro (heq | h)
            · omega
            · omega
        · intro i q hq _ hmay
          rw [herr]
          have hle := ((inTable_iff hfirst.1.2.2).mp hfirst.1).2
          rcases Nat.lt_or_eq_of_le hle with hlt | heq
          · exact Or.inl hlt
          · obtain ⟨i', q', hq', hgroup, hbad⟩ := hlast heq ⟨i, q, hq, hmay⟩
            have hle' := ((inTable_iff hq'.2.2).mp hq').2
            have hne : i' ≠ j := fun h => hbad (hself q' (h ▸ hq'.2.2))
            exact Or.inr ⟨i', q', hq'.1, by omega, hq'.2.2, hgroup, hbad⟩
    · rcases hC with rfl | ⟨h0, hlt, -⟩
      · exact ⟨hfirst.1.1, hfirst.1.2.1, hq⟩
      · exact hin i q hq h0 hlt

/-- `sys_kill` with a valid signal signals the right tasks if and only if the condition for the
number holds; for a positive number there is none. -/
theorem sysKill_iff (h1 : 1 ≤ sig) (h32 : sig ≤ 32) :
    KillsAddressed s cur pid sig (s.sysKill cur pid sig) ↔
      (pid = 0 → KillsGroup s cur sig) ∧ (pid = -1 → KillsAll s cur sig) ∧
        (pid < -1 → GroupHasSignal s cur pid sig) := by
  rw [sysKill]
  by_cases hzero : pid = 0
  · subst hzero
    rw [if_pos rfl, killLoop_group h1 h32]
    exact ⟨fun h => ⟨fun _ => h, fun h0 => absurd h0 (by decide), fun h0 => absurd h0 (by decide)⟩,
      fun h => h.1 rfl⟩
  · rw [if_neg hzero]
    by_cases hpos : 0 < pid
    · rw [if_pos hpos]
      exact iff_of_true (killLoop_pid h1 h32 hpos)
        ⟨fun h => absurd h hzero, fun h => by omega, fun h => by omega⟩
    · rw [if_neg hpos]
      by_cases hall : pid = -1
      · subst hall
        rw [if_pos rfl, killAll_iff h1 h32]
        exact ⟨fun h => ⟨fun h0 => absurd h0 (by decide), fun _ => h,
          fun h0 => absurd h0 (by decide)⟩, fun h => h.2.1 rfl⟩
      · have hlt : pid < -1 := by omega
        have haddr : ∀ p, Addressed cur pid p ↔ p.pgrp = -pid := fun p => by
          rw [Addressed, if_neg hpos, if_neg hzero, if_neg hall]
        rw [if_neg hall, killsAddressed_iff (f := fun _ q => q) (C := fun _ _ => False)]
        · constructor
          · rintro ⟨hright, herror⟩
            refine ⟨fun h => absurd h hzero, fun h => absurd h hall, fun _ i p hin ha => ?_⟩
            have hmay : MaySignal cur p := by
              by_contra hmay
              exact herror i p hin ((haddr p).mpr ha) hmay rfl
            refine ⟨hmay, (hright i p hin).resolve_right fun hiff => ?_⟩
            exact hiff.mpr ⟨(haddr p).mpr ha, hmay⟩
          · rintro ⟨-, -, h⟩
            constructor
            · intro i p hin
              by_cases ha : p.pgrp = -pid
              · exact Or.inl (h hlt i p hin ha).2
              · exact Or.inr (iff_of_false id fun h => ha ((haddr p).mp h.1))
            · intro i p hin ha hmay
              exact absurd (h hlt i p hin ((haddr p).mp ha)).1 hmay
        · rw [mapTasks_self fun _ _ _ => rfl]
        · exact fun _ _ _ h => h.elim
        · exact fun _ _ _ _ => rfl

/-- Three tasks of the superuser in process groups of their own. -/
def threeTasks : Processes where
  task t :=
    if t = 0 then some initTask
    else if t < 4 then some { initTask with pid := t, pgrp := t + 4 }
    else none
  lastPid := 3
  nextSerial := 1
  reports := []

/-- The number -1 from the superuser reaches the last of three tasks only. -/
theorem sysKill_one_of_three :
    ¬ KillsAddressed threeTasks { initTask with pid := 1, pgrp := 5 } (-1) 15
      (threeTasks.sysKill { initTask with pid := 1, pgrp := 5 } (-1) 15) := by
  intro h
  have hin : threeTasks.InTable 2 { initTask with pid := 2, pgrp := 6 } :=
    ⟨by decide, by decide, rfl⟩
  have hget := (h.inTable 2 _ hin).1 ⟨addressed_all _ _, Or.inl rfl⟩
  exact absurd hget (by decide +kernel)

/-- The number of one of the tasks reaches that one. -/
theorem sysKill_iff_two :
    KillsAddressed threeTasks { initTask with pid := 1, pgrp := 5 } 2 15
      (threeTasks.sysKill { initTask with pid := 1, pgrp := 5 } 2 15) :=
  (sysKill_iff (by decide) (by decide)).mpr
    ⟨fun h => absurd h (by decide), fun h => absurd h (by decide), fun h => absurd h (by decide)⟩

end Processes

end LihaLinux.Kernel
