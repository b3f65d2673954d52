import LihaLinux.Files.ExecHeader
import LihaLinux.Mm.ForkFailure
import LihaLinux.Mm.System

/-!
# `copy_process`

`fork` takes a page for the new task, enters it into `task[]`, copies the page tables, and only
then counts the files and inodes of the parent once more. When the page tables cannot be copied,
`copy_process` has to take all of this back.
-/

namespace LihaLinux.Files

open Mm (Inv ForkReady Config Moves Faded present frame slotBase)

/-- A call in `copy_process` that does not return. -/
inductive ForkPanic
  /-- A panic of `copy_mem` itself. -/
  | segments (reason : SegmentPanic)
  /-- A panic of the memory manager. -/
  | memory (reason : Mm.Panic)
  /-- `oom` has killed the task. -/
  | killed

/-- Go on if a call of the memory manager returns. -/
def returned {α : Type} : Mm.Result α → Except ForkPanic (α × Mm.State)
  | .ok a mm => .ok (a, mm)
  | .oom _ => .error .killed
  | .panic reason => .error (.memory reason)

/-- `copy_mem(nr,p)`. -/
def copyMem (l : Ldt) (nr : ℕ) (mm : Mm.State) : Except ForkPanic (ℤ × Mm.State) :=
  match segmentTest l with
  | some reason => .error (.segments reason)
  | none => returned (Mm.copyMem mm l.data.base (slotBase nr) l.data.getLimit)

/-- `copy_process`, for a parent with the descriptors `l`: the new task gets slot `nr`. -/
def copyProcess (l : Ldt) (nr : ℕ) (mm : Mm.State) :
    K (Except ForkPanic (Except Errno ℕ × Mm.State)) :=
  match Mm.getFreePage mm with
  | none => pure (.ok (.error .EAGAIN, mm))
  | some (page, mm) => do
    let p ← Prog.read Fs.cur
    Prog.update fun s => s.setTask nr { p with leader := false }
    match copyMem l nr mm with
    | .error reason => pure (.error reason)
    | .ok (v, mm) =>
      if v ≠ 0 then
        Prog.update fun s => s.setTask nr Task.zero
        pure ((returned (Mm.freePage mm page)).map fun r => (.error .EAGAIN, r.2))
      else
        copyFiles p.filp nrOpen 0
        incCountOpt p.pwd
        incCountOpt p.root
        incCountOpt p.executable
        pure (.ok (.ok nr, mm))

/-- The task that an entry of `task[]` points to. -/
def Fs.taskAt (s : Fs) (nr : ℕ) : Option Task := if (s.task nr).used then some (s.task nr) else none

variable {lo hi cur nr : ℕ} {held : Finset ℕ} {mm mm' : Mm.State} {s s' : Fs} {l : Ldt}

/-! ### Failures -/

/-- The memory is as before the call, except for write bits of the parent. -/
structure MemoryKept (cur nr : ℕ) (mm mm' : Mm.State) : Prop where
  memMap : mm'.memMap = mm.memMap
  newSlot : ∀ k < 16, mm'.mem 0 (16 * nr + k) = 0
  dir : ∀ k < 16, mm'.mem 0 (16 * cur + k) = mm.mem 0 (16 * cur + k)
  tables : ∀ k < 16, present (mm.mem 0 (16 * cur + k)) = true →
    Faded (frame (mm.mem 0 (16 * cur + k))) mm mm'

/-- The page tables of a task. -/
theorem isTable_frame (h : Inv lo hi ⟨mm, held⟩) (hcur : cur < 64) {k : ℕ} (hk : k < 16)
    (hp : present (mm.mem 0 (16 * cur + k)) = true) :
    mm.IsTable (frame (mm.mem 0 (16 * cur + k))) := by
  by_cases hzero : cur = 0
  · obtain ⟨⟨hge, hlt⟩, -⟩ := h.kernel.tables (16 * cur + k) (by omega) hp
    exact ⟨Nat.ne_of_gt hge, Or.inl hlt⟩
  · have ht := Mm.State.table_eq_some (Mm.mem_taskDirs.mpr ⟨by omega, by omega⟩) hp
    exact ⟨h.table_ne_zero ht, Or.inr ⟨_, ht⟩⟩

/-- A failed `copy_mem` and the `free_page` after it give back what the call has taken. -/
theorem copyMem_again (h : Inv lo hi ⟨mm, held⟩) (hcur : cur < 64) (hnr : 1 ≤ nr ∧ nr < 64)
    (hne : cur ≠ nr) (hbase : l.data.base = slotBase cur) (hlimit : l.data.getLimit ≤ 0x4000000)
    (hzero : cur = 0 → l.data.getLimit ≤ 0x400000)
    (hdest : ∀ k < 16, mm.mem 0 (16 * nr + k) = 0) {page : ℕ} {mm₁ mm₂ mm₃ : Mm.State} {v : ℤ}
    (hget : Mm.getFreePage mm = some (page, mm₁)) (hcopy : copyMem l nr mm₁ = .ok (v, mm₂))
    (hv : v ≠ 0) (hfree : Mm.freePage mm₂ page = .ok () mm₃) : MemoryKept cur nr mm mm₃ := by
  obtain ⟨htake, hrange, hheld, -, hfresh, htable₁, hentry₁, -, hmem₁⟩ := Mm.getFreePage_spec h hget
  have h₁ := htake.inv h
  have hlow := h.low
  have hpage0 : 0 ≠ page := by
    unfold Mm.lowMem at hlow
    omega
  have hdir₁ := hmem₁ 0 hpage0
  -- the copy
  have hrun : Mm.copyMem mm₁ (slotBase cur) (slotBase nr) l.data.getLimit = .ok v mm₂ := by
    rw [copyMem] at hcopy
    cases htest : segmentTest l with
    | some reason =>
      rw [htest] at hcopy
      cases hcopy
    | none =>
      rw [htest, hbase] at hcopy
      cases hresult : Mm.copyMem mm₁ (slotBase cur) (slotBase nr) l.data.getLimit with
      | ok a mm =>
        rw [hresult] at hcopy
        cases hcopy
        rfl
      | oom mm =>
        rw [hresult] at hcopy
        cases hcopy
      | panic reason =>
        rw [hresult] at hcopy
        cases hcopy
  have hready : ForkReady mm₁ cur nr l.data.getLimit := by
    refine ⟨hcur, hnr, hne, fun k hk => ?_, hlimit, hzero⟩
    rw [htable₁]
    apply Mm.State.table_eq_none
    rw [hdest k hk]
    exact Mm.present_zero
  have hdest₁ : ∀ k < 16, mm₁.mem 0 (16 * nr + k) = 0 := by
    rw [hdir₁]
    exact hdest
  obtain ⟨hmoves, hrefs, hdest₂, hdirs₂, hfaded⟩ :=
    Mm.copyMem_undone_spec h₁ hready hdest₁ hrun hv
  have h₂ := Moves.inv hmoves h₁
  -- the page of the task
  have hpage : page ∈ insert page held := Finset.mem_insert_self page held
  rw [Mm.freePage_held h₂ hpage] at hfree
  cases hfree
  have hdrop : Mm.Move ⟨mm₂, insert page held⟩ ⟨mm₂.decMap page, held⟩ := by
    have hmove : Mm.Move ⟨mm₂, insert page held⟩
        ⟨mm₂.decMap page, (insert page held).erase page⟩ := .drop hpage
    rwa [Finset.erase_insert hheld] at hmove
  have hall : Moves ⟨mm, held⟩ ⟨mm₂.decMap page, held⟩ :=
    ((Relation.ReflTransGen.single htake).trans hmoves).tail hdrop
  refine ⟨Moves.memMap_eq h hall ?_, hdest₂, fun k hk => ?_, fun k hk hp => ?_⟩
  · apply Mm.Refs.ext
    · have hdir := congrArg Mm.Refs.dir hrefs
      change mm₂.table = mm.table
      rw [← htable₁]
      exact hdir
    · have hpte := congrArg Mm.Refs.pte hrefs
      change (fun d j => (mm₂.entry d j).map frame) = fun d j => (mm.entry d j).map frame
      rw [← hentry₁]
      exact hpte
    · rfl
  · change mm₂.mem 0 (16 * cur + k) = _
    rw [hdirs₂ _ (by omega), hdir₁]
  · have htab := isTable_frame h hcur hk hp
    have hnepage : frame (mm.mem 0 (16 * cur + k)) ≠ page := by
      intro heq
      rw [heq] at htab
      obtain ⟨-, hlt | ⟨d, hd⟩⟩ := htab
      · omega
      · exact hfresh d hd
    have htab₁ : mm₁.IsTable (frame (mm.mem 0 (16 * cur + k))) := by
      unfold Mm.State.IsTable
      rw [htable₁]
      exact htab
    exact (Faded.of_eq (hmem₁ _ hnepage)).trans (hfaded _ htab₁)

/-- A `copy_process` that returns `-EAGAIN` leaves everything as it was: `task[]`, the tables of
files and inodes and `mem_map`. The directory entries of the new slot are 0, and the page tables of
the parent have lost write bits at most. A data limit is that of `change_ldt` at most; task 0 keeps
that of `INIT_TASK`, which is within one page table. -/
theorem copyProcess_again (h : Inv lo hi ⟨mm, held⟩) (hcur : cur < 64) (hnr : 1 ≤ nr ∧ nr < 64)
    (hne : cur ≠ nr) (hbase : l.data.base = slotBase cur) (hlimit : l.data.getLimit ≤ 0x4000000)
    (hzero : cur = 0 → l.data.getLimit ≤ 0x400000) (hnull : s.taskAt nr = none)
    (hdest : ∀ k < 16, mm.mem 0 (16 * nr + k) = 0)
    (hrun : copyProcess l nr mm s = .ok (.ok (.error .EAGAIN, mm'), s')) :
    (∀ t, s'.taskAt t = s.taskAt t) ∧ s'.file = s.file ∧ s'.inode = s.inode ∧
      MemoryKept cur nr mm mm' := by
  rw [copyProcess] at hrun
  cases hget : Mm.getFreePage mm with
  | none =>
    rw [hget] at hrun
    cases hrun
    exact ⟨fun _ => rfl, rfl, rfl, rfl, hdest, fun _ _ => rfl, fun _ _ _ => .of_eq rfl⟩
  | some res =>
    obtain ⟨page, mm₁⟩ := res
    rw [hget] at hrun
    simp only [Prog.read_run, Prog.update_run] at hrun
    cases hcopy : copyMem l nr mm₁ with
    | error reason =>
      rw [hcopy] at hrun
      cases hrun
    | ok res =>
      obtain ⟨v, mm₂⟩ := res
      rw [hcopy] at hrun
      by_cases hv : v = 0
      · simp only [hv, ne_eq, not_true_eq_false, if_false] at hrun
        obtain ⟨-, s₁, -, hrun⟩ := Prog.of_bind_run hrun
        obtain ⟨-, s₂, -, hrun⟩ := Prog.of_bind_run hrun
        obtain ⟨-, s₃, -, hrun⟩ := Prog.of_bind_run hrun
        obtain ⟨-, s₄, -, hrun⟩ := Prog.of_bind_run hrun
        cases hrun
      · simp only [ne_eq, hv, not_false_eq_true, if_true, Prog.update_run] at hrun
        cases hfree : Mm.freePage mm₂ page with
        | ok u mm₃ =>
          rw [hfree] at hrun
          cases hrun
          refine ⟨fun t => ?_, rfl, rfl, copyMem_again h hcur hnr hne hbase hlimit hzero hdest hget
            hcopy hv hfree⟩
          by_cases ht : t = nr
          · rw [ht, hnull, Fs.taskAt, Fs.setTask_self]
            rfl
          · rw [Fs.taskAt, Fs.setTask_ne _ ht, Fs.setTask_ne _ ht, Fs.taskAt]
        | oom mm₃ =>
          rw [hfree] at hrun
          cases hrun
        | panic reason =>
          rw [hfree] at hrun
          cases hrun

/-- A machine with one free page. -/
def tightMemory : Mm.State := Mm.memInit (Mm.setupPaging ⟨0, fun _ => 0, fun _ _ => 0⟩) 4095 4096

/-- Whether a fork has ended for want of memory. -/
def failedAgain :
    Except (Panic × Fs) (Except ForkPanic (Except Errno ℕ × Mm.State) × Fs) → Bool
  | .ok (.ok (.error .EAGAIN, _), _) => true
  | _ => false

theorem exists_of_failedAgain
    {r : Except (Panic × Fs) (Except ForkPanic (Except Errno ℕ × Mm.State) × Fs)}
    (h : failedAgain r = true) : ∃ mm' s', r = .ok (.ok (.error .EAGAIN, mm'), s') := by
  unfold failedAgain at h
  split at h
  · exact ⟨_, _, rfl⟩
  · cases h

/-- The first fork finds a page for the new task, but none for its page table. -/
theorem copyProcess_again_tight : ∃ mm' s',
    copyProcess initLdt 1 tightMemory Fs.empty = .ok (.ok (.error .EAGAIN, mm'), s') ∧
      (∀ t, s'.taskAt t = Fs.empty.taskAt t) ∧ s'.file = Fs.empty.file ∧
      s'.inode = Fs.empty.inode ∧ MemoryKept 0 1 tightMemory mm' := by
  have hinv : Inv 4095 4096 ⟨tightMemory, ∅⟩ := Mm.boot_inv (by decide) (by decide) ⟨_, rfl⟩
  have hlimit : initLdt.data.getLimit = 0xa0000 := by simp [initLdt, Desc.getLimit]
  have hdest : ∀ k < 16, tightMemory.mem 0 (16 * 1 + k) = 0 := by decide +kernel
  have hresult : failedAgain (copyProcess initLdt 1 tightMemory Fs.empty) = true := by
    decide +kernel
  obtain ⟨mm', s', hrun⟩ := exists_of_failedAgain hresult
  refine ⟨mm', s', hrun, ?_⟩
  have hbase : initLdt.data.base = slotBase 0 := rfl
  exact copyProcess_again hinv (by decide) (by decide) (by decide) hbase (by omega)
    (fun _ => by omega) rfl hdest hrun

end LihaLinux.Files
