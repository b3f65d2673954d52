import LihaLinux.Files.FailedCalls
import LihaLinux.Files.MountBalance
import LihaLinux.Lib.Transition

/-!
# Runs of system calls

The tasks make system calls one after another, from `mount_root` on. The counts of the file table
and of the inodes agree with the pointers between any two calls.
-/

namespace LihaLinux.Files

variable {s s' : Fs} {t f i : ℕ}

/-! ### Calls -/

/-- The calls that change descriptors, tasks or names. `memory` says whether `sys_fork` and
`do_execve` find the pages that they need. -/
inductive SysCall
  | descriptor (call : FdCall)
  | fcntl (fd cmd arg : ℕ)
  | fork (memory : Bool)
  | exit
  | execve (memory : Bool) (filename : List ℕ)
  | chdir (filename : List ℕ)
  | chroot (filename : List ℕ)
  | mknod (filename : List ℕ) (mode device : ℕ)
  | mkdir (pathname : List ℕ) (mode : ℕ)
  | rmdir (name : List ℕ)
  | unlink (name : List ℕ)
  | link (oldname newname : List ℕ)
  | mount (devName dirName : List ℕ)

/-- The changes that a call of the running task makes. -/
def SysCall.run : SysCall → K Unit
  | .descriptor call => do let _ ← call.run
  | .fcntl fd cmd arg => do let _ ← sysFcntl fd cmd arg
  | .fork memory => do let _ ← sysFork memory
  | .exit => doExit
  | .execve memory filename => do let _ ← doExecve memory filename
  | .chdir filename => do let _ ← sysChdir filename
  | .chroot filename => do let _ ← sysChroot filename
  | .mknod filename mode device => do let _ ← sysMknod filename mode device
  | .mkdir pathname mode => do let _ ← sysMkdir pathname mode
  | .rmdir name => do let _ ← sysRmdir name
  | .unlink name => do let _ ← sysUnlink name
  | .link oldname newname => do let _ ← sysLink oldname newname
  | .mount devName dirName => do let _ ← sysMount devName dirName

theorem FdCall.run_keeps (call : FdCall) : Keeps Balanced call.run [] fun _ => [] := by
  cases call with
  | «open» filename flag mode => exact sysOpen_keeps filename flag mode
  | close fd => exact (sysClose_keeps fd).next fun _ => Owns.pure rfl
  | dup fildes => exact dupfd_keeps fildes 0
  | dup2 oldfd newfd => exact sysDup2_keeps oldfd newfd
  | dupFcntl fd arg => exact sysFcntl_keeps fd fDupfd arg
  | pipe page => exact (sysPipe_keeps page).next fun _ => Owns.pure rfl

/-- Every call keeps the balance. -/
theorem SysCall.run_keeps (call : SysCall) : Keeps Balanced call.run [] fun _ => [] := by
  cases call with
  | descriptor call => exact call.run_keeps.unit
  | fcntl fd cmd arg => exact (sysFcntl_keeps fd cmd arg).unit
  | fork memory => exact (sysFork_keeps memory).unit
  | exit => exact doExit_keeps
  | execve memory filename => exact (doExecve_keeps memory filename).unit
  | chdir filename => exact (sysChdir_keeps filename).unit
  | chroot filename => exact (sysChroot_keeps filename).unit
  | mknod filename mode device =>
    exact (Holds.balanced fun _ => sysMknod_holds filename mode device).unit
  | mkdir pathname mode => exact (Holds.balanced fun _ => sysMkdir_holds pathname mode).unit
  | rmdir name => exact (Holds.balanced fun _ => sysRmdir_holds name).unit
  | unlink name => exact (Holds.balanced fun _ => sysUnlink_holds name).unit
  | link oldname newname => exact (Holds.balanced fun _ => sysLink_holds oldname newname).unit
  | mount devName dirName => exact (sysMount_keeps devName dirName).unit

/-! ### Tasks that have ended -/

theorem closeWhere_filp (n fd : ℕ) (hfd : fd + n ≤ nrOpen) (s : Fs) :
    (closeWhere (fun p fd => (p.filp fd).isSome) n fd).wp (fun _ s' =>
      (∀ i, fd ≤ i → i < fd + n → s'.cur.filp i = none) ∧
        ∀ i, s.cur.filp i = none → s'.cur.filp i = none) (fun _ _ => True) s := by
  induction n generalizing fd s with
  | zero => exact ⟨fun i hle hlt => by omega, fun _ h => h⟩
  | succ n ih =>
    have hnext : ∀ s₁ : Fs, s₁.cur.filp fd = none →
        (∀ i, s.cur.filp i = none → s₁.cur.filp i = none) →
        (closeWhere (fun p fd => (p.filp fd).isSome) n (fd + 1)).wp (fun _ s' =>
          (∀ i, fd ≤ i → i < fd + (n + 1) → s'.cur.filp i = none) ∧
            ∀ i, s.cur.filp i = none → s'.cur.filp i = none) (fun _ _ => True) s₁ := by
      intro s₁ hclosed hold
      refine (ih (fd + 1) (by omega) s₁).mono (fun _ s' h => ⟨fun i hle hlt => ?_, fun i hi => ?_⟩)
        fun _ _ _ => trivial
      · rcases eq_or_ne i fd with rfl | hne
        · exact h.2 i hclosed
        · exact h.1 i (by omega) (by omega)
      · exact h.2 i (hold i hi)
    rw [closeWhere, Prog.wp_bind, Prog.wp_read, Prog.wp_bind, Prog.wp_when]
    refine ⟨fun _ => ?_, fun hnone => hnext s ?_ fun _ h => h⟩
    · refine (sysClose_filp fd s).bind fun _ s₁ h₁ => ?_
      refine hnext s₁ (h₁.1 (by omega)) fun i hi => ?_
      rcases eq_or_ne i fd with rfl | hne
      · exact h₁.1 (by omega)
      · rw [h₁.2 i hne, hi]
    · simpa using hnone

/-- A pointer of the running task is replaced, and nothing else changes in the task. -/
theorem setPointer_cur (get : Task → Option ℕ) (set : Task → Task) (s : Fs) :
    (do
      let p ← Prog.read Fs.cur
      iputOpt (get p)
      modifyCur set : K Unit).wp (fun _ s' => s'.cur = set s.cur) (fun _ _ => True) s := by
  rw [Prog.wp_bind, Prog.wp_read]
  have hput : StaysTables (iputOpt (get s.cur)) := by
    cases get s.cur with
    | none => exact Owns.pure rfl
    | some i => exact iput_stays i
  refine (StaysTables.wp hput s).bind fun _ s' h => ?_
  rw [modifyCur, Prog.wp_update, Fs.setCur_cur, h.cur_eq]

/-- `do_exit` leaves no pointers in the task. -/
theorem doExit_null (h : Balanced [] s) :
    doExit.wp (fun _ s' => s'.cur.Null) (fun _ _ => True) s := by
  refine (closeWhere_filp nrOpen 0 (by omega) s).bind fun _ s₁ h₁ => ?_
  have hfilp : ∀ fd, s₁.cur.filp fd = none := by
    intro fd
    by_cases hfd : fd < nrOpen
    · exact h₁.1 fd (Nat.zero_le fd) (by omega)
    · refine h₁.2 fd (Option.eq_none_iff_forall_ne_some.mpr fun f hf => hfd ?_)
      exact (h.filp s.current fd f hf).2.1
  refine (setPointer_cur Task.pwd (fun p => { p with pwd := none }) s₁).bind fun _ s₂ h₂ => ?_
  refine (setPointer_cur Task.root (fun p => { p with root := none }) s₂).bind fun _ s₃ h₃ => ?_
  refine (setPointer_cur Task.executable (fun p => { p with executable := none }) s₃).mono
    (fun _ s₄ h₄ => ?_) fun _ _ _ => trivial
  rw [h₄, h₃, h₂]
  exact ⟨rfl, rfl, rfl, hfilp⟩

/-! ### Runs -/

/-- A call of the running task, the choice of another task by `schedule`, or the release of a
task that has left its pointers in `do_exit`. -/
inductive CallStep (s : Fs) : Fs → Prop
  | call (call : SysCall) {s' : Fs} (hrun : call.run s = .ok ((), s')) : CallStep s s'
  | schedule (t : ℕ) (ht : t < nrTasks) (hused : (s.task t).used = true) :
    CallStep s { s with current := t }
  | release (t : ℕ) (ht : t < nrTasks) (hne : t ≠ s.current) (hnull : (s.task t).Null) :
    CallStep s (s.setTask t .zero)

/-- The state after `mount_root`. -/
def Booted (s : Fs) : Prop := ∃ rootDev s₀, Booting s₀ ∧ mountRoot rootDev s₀ = .ok ((), s)

theorem CallStep.balanced (h : Balanced [] s) (hstep : CallStep s s') : Balanced [] s' := by
  cases hstep with
  | call call hrun => exact (call.run_keeps.run () [] s h).of_ok hrun
  | schedule t ht hused =>
    exact ⟨h.counted.congr rfl rfl, h.files, h.filp, h.idle, h.free, ht, hused⟩
  | release t ht hne hnull =>
    refine h.setTask ht (fun i => ?_) (fun f => ?_) (fun fd f hf => ?_) (fun _ => ?_)
      fun heq => absurd heq hne
    · rw [hnull.refs_eq, Task.Null.refs_eq ⟨rfl, rfl, rfl, fun _ => rfl⟩]
    · rw [hnull.holders_eq, Task.Null.holders_eq ⟨rfl, rfl, rfl, fun _ => rfl⟩]
    · exact absurd hf (by simp [Task.zero])
    · exact ⟨rfl, rfl, rfl, fun _ => rfl⟩

theorem balanced_of_reachable (h : Reachable Booted CallStep s) : Balanced [] s := by
  apply h.invariant
  · rintro s ⟨rootDev, s₀, hboot, hrun⟩
    exact (mountRoot_wp hboot rootDev).of_ok hrun
  · exact fun _ _ hs hstep => hstep.balanced hs

/-- In every run, `f_count` of every entry of the file table is the number of descriptors that
refer to it, and `i_count` of every inode is the number of its references from the file table, the
tasks and the super blocks. -/
theorem counts_of_reachable (h : Reachable Booted CallStep s) :
    (∀ f, (s.file f).count = s.holders f) ∧ ∀ i, (s.inode i).count = s.refs i :=
  ⟨(balanced_of_reachable h).files, (balanced_of_reachable h).count_eq⟩

/-- A disk with an empty file system, before it is mounted. -/
def bootDisk : Fs := { Fs.empty with
  disk := fun bh b => if bh.blocknr = 1 then if b = 16 then 0x7F else if b = 17 then 0x13 else 0
    else 0
  task := Function.update (fun _ => .zero) 0 { Task.zero with used := true } }

/-- The state in which a run ends. -/
def endState : Except (Panic × Fs) (Unit × Fs) → Fs
  | .ok (_, s) => s
  | .error (_, s) => s

/-- The disk is mounted as the root device. -/
def afterBoot : Fs := endState (mountRoot 1 bootDisk)

/-- A pipe is made. -/
def afterPipe : Fs := endState ((SysCall.descriptor (.pipe 1)).run afterBoot)

/-- The task with the pipe forks. -/
def afterFork : Fs := endState ((SysCall.fork true).run afterPipe)

theorem bootDisk_booting : Booting bootDisk := by
  refine ⟨fun _ => rfl, fun _ => rfl, fun _ => rfl, fun t => ?_, by decide, rfl⟩
  rcases eq_or_ne t 0 with rfl | ht
  · exact ⟨rfl, rfl, rfl, fun _ => rfl⟩
  · have hzero : bootDisk.task t = .zero := by
      simp only [bootDisk, Function.update_of_ne ht]
    rw [hzero]
    exact ⟨rfl, rfl, rfl, fun _ => rfl⟩

/-- Two tasks share a pipe; the root inode is referred to by both, and by the super block. -/
theorem counts_afterFork : ((∀ f, (afterFork.file f).count = afterFork.holders f) ∧
    ∀ i, (afterFork.inode i).count = afterFork.refs i) ∧
      (afterFork.file 0).count = 2 ∧ (afterFork.inode 1).count = 6 := by
  have hboot : Booted afterBoot := ⟨1, bootDisk, bootDisk_booting, rfl⟩
  have hpipe : Reachable Booted CallStep afterPipe :=
    (Reachable.of_init hboot).tail (.call (.descriptor (.pipe 1)) rfl)
  exact ⟨counts_of_reachable (hpipe.tail (.call (.fork true) rfl)), by decide⟩

end LihaLinux.Files
