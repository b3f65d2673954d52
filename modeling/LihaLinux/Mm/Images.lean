import LihaLinux.Mm.TaskSteps

/-!
# The images of programs

A task without an executable has an empty image, and an executable is accepted only if its image
ends below 48 MB.
-/

namespace LihaLinux.Mm

variable {files : ℕ → Executable} {lo hi slot : ℕ} {k : Kernel} {q : Task}

/-- Where the tasks of a kernel come from that had other tasks before. -/
def TasksFrom (k k' : Kernel) : Prop :=
  ∀ slot t, k'.task slot = some t → (∃ slot', k.task slot' = some t) ∨ t.executable ≠ none

theorem TasksFrom.of_eq {k' : Kernel} (h : k'.task = k.task) : TasksFrom k k' := by
  intro slot t ht
  rw [h] at ht
  exact Or.inl ⟨slot, ht⟩

theorem TasksFrom.setTask {k' k'' : Kernel} (new : Option Task) (h : TasksFrom k k')
    (hnew : ∀ t ∈ new, (∃ slot', k.task slot' = some t) ∨ t.executable ≠ none)
    (hk : k''.task = (k'.setTask slot new).task) : TasksFrom k k'' := by
  intro slot' t ht
  rw [hk, Kernel.setTask] at ht
  simp only at ht
  split at ht
  · exact hnew t ht
  · exact h slot' t ht

theorem Kernel.task_replaceTask {k' : Kernel} {new : Option Task} {r : Result Unit}
    (h : k.replaceTask slot new r = some k') : k'.task = (k.setTask slot new).task := by
  cases r with
  | ok v s =>
    rw [Kernel.replaceTask] at h
    obtain rfl := Option.some.inj h
    rfl
  | oom s =>
    rw [Kernel.replaceTask] at h
    · cases h
    · intro _ _ hr
      cases hr
  | panic reason =>
    rw [Kernel.replaceTask] at h
    · cases h
    · intro _ _ hr
      cases hr

theorem TasksFrom.exitSlot {k' k'' : Kernel} (h : TasksFrom k k')
    (hexit : exitSlot k' slot = some k'') : TasksFrom k k'' := by
  rw [Mm.exitSlot] at hexit
  obtain ⟨t, -, hfree⟩ := Option.bind_eq_some_iff.mp hexit
  exact TasksFrom.setTask none h (fun _ ht => absurd ht (Option.not_mem_none _))
    (Kernel.task_replaceTask hfree)

theorem TasksFrom.after {k' k'' : Kernel} {r : Result Unit} (h : TasksFrom k k')
    (hafter : k'.after slot r = some k'') : TasksFrom k k'' := by
  cases r with
  | ok v s =>
    rw [Kernel.after] at hafter
    obtain rfl := Option.some.inj hafter
    exact h
  | oom s =>
    rw [Kernel.after] at hafter
    have hself : TasksFrom k (k'.withMm s) := h
    exact hself.exitSlot hafter
  | panic reason =>
    rw [Kernel.after] at hafter
    cases hafter

theorem TasksFrom.begun {k' : Kernel} {address : ℕ} {r : Result (Option ℕ)}
    (h : k.begun slot address r = some k') : TasksFrom k k' := by
  cases r with
  | ok v s =>
    cases v <;> rw [Kernel.begun] at h <;> obtain rfl := Option.some.inj h <;> exact .of_eq rfl
  | oom s =>
    rw [Kernel.begun] at h
    have hself : TasksFrom k (k.withMm s) := .of_eq rfl
    exact hself.exitSlot h
  | panic reason => cases h

theorem TasksFrom.forked {k' : Kernel} {toSlot : ℕ} {t : Task} {r : Result ℤ}
    (ht : k.task slot = some t) (h : k.forked toSlot t r = some k') : TasksFrom k k' := by
  cases r with
  | ok v s =>
    rw [Kernel.forked] at h
    obtain rfl := Option.some.inj h
    split
    · have hself : TasksFrom k k := .of_eq rfl
      exact TasksFrom.setTask (some t) hself
        (fun t' ht' => Or.inl ⟨slot, by rw [ht, ← Option.mem_some.mp ht']⟩) rfl
    · exact .of_eq rfl
  | oom s => cases h
  | panic reason => cases h

/-- A step makes no task without an executable, but by a fork of one. -/
theorem TaskOp.tasksFrom {k' : Kernel} {op : TaskOp} (h : op.run files k = some k') :
    TasksFrom k k' := by
  have hself : TasksFrom k k := .of_eq rfl
  cases op with
  | getFreePage =>
    simp only [TaskOp.run] at h
    split at h <;> obtain rfl := Option.some.inj h <;> exact .of_eq rfl
  | freePage page =>
    simp only [TaskOp.run] at h
    split at h
    · obtain rfl := Option.some.inj h
      exact .of_eq rfl
    · cases h
  | putPage page address =>
    simp only [TaskOp.run] at h
    split at h <;> obtain rfl := Option.some.inj h <;> exact .of_eq rfl
  | fork slot toSlot =>
    rw [TaskOp.run] at h
    obtain ⟨t, ht, hfork⟩ := Option.bind_eq_some_iff.mp h
    exact .forked ht hfork
  | exec slot executable =>
    simp only [TaskOp.run] at h
    split at h
    · obtain rfl := Option.some.inj h
      exact hself
    · obtain ⟨t, ht, hexec⟩ := Option.bind_eq_some_iff.mp h
      refine TasksFrom.setTask _ hself (fun t' ht' => Or.inr ?_) (Kernel.task_replaceTask hexec)
      rw [← Option.mem_some.mp ht']
      exact Option.some_ne_none executable
  | exit slot =>
    rw [TaskOp.run] at h
    exact hself.exitSlot h
  | noPageBegin slot address =>
    rw [TaskOp.run] at h
    exact .begun h
  | noPageFinish slot =>
    simp only [TaskOp.run] at h
    split at h
    · next address page t _ _ =>
      have hplaced : TasksFrom k ({ k with held := k.held.erase page }.setLoading slot none) :=
        .of_eq rfl
      exact hplaced.after h
    · cases h
  | doWpPage slot address =>
    rw [TaskOp.run] at h
    exact hself.after h
  | writeVerify slot address =>
    rw [TaskOp.run] at h
    exact hself.after h
  | userStore slot address b =>
    rw [TaskOp.run] at h
    exact hself.after h
  | kernelStore slot address b =>
    rw [TaskOp.run] at h
    obtain rfl := Option.some.inj h
    exact .of_eq rfl
  | setCount iCount =>
    rw [TaskOp.run] at h
    obtain rfl := Option.some.inj h
    exact .of_eq rfl

/-- The image of every program ends below 48 MB. -/
theorem endData_le (hlo : lowMem ≤ lo) (hhi : hi ≤ lowMem + pagingPages)
    (h : Reachable (TaskBoot lo hi) (TaskStep files) k) (htask : k.task slot = some q) :
    q.endData ≤ 0x3000000 := by
  have hnone : ∀ slot t, k.task slot = some t → t.executable = none → t.endData = 0 := by
    refine Reachable.invariant
      (P := fun k => ∀ slot t, k.task slot = some t → t.executable = none → t.endData = 0)
      (fun k hk slot t ht _ => ?_) (fun k k' hk hstep slot t ht hexe => ?_) h
    · rw [hk.2.2] at ht
      simp only at ht
      split at ht
      · obtain rfl := Option.some.inj ht
        rfl
      · cases ht
    · obtain ⟨op, -, hrun⟩ := hstep
      rcases TaskOp.tasksFrom hrun slot t ht with ⟨slot', ht'⟩ | hne
      · exact hk slot' t ht' hexe
      · exact absurd hexe hne
  cases hexe : q.executable with
  | none =>
    rw [hnone slot q htask hexe]
    exact Nat.zero_le _
  | some e => exact ((taskReachable_inv hlo hhi h).tasks slot q htask).endData e hexe |>.2

end LihaLinux.Mm
