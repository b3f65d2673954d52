import LihaLinux.Files.TaskBalance
import LihaLinux.Files.TableFrames

/-!
# Calls on descriptors that fail

A call that reserves descriptors and entries of the file table and then fails takes them back.
`sys_dup2` closes the new descriptor before it looks at the old one, so it can fail with the new
descriptor closed, and always does when both are the same.
-/

namespace LihaLinux.Files

variable {s s' : Fs} {fd f : ℕ}

/-- The descriptors of the running task and the counts of the file table are the same. -/
structure SameDescriptors (s s' : Fs) : Prop where
  filp : ∀ fd, s'.cur.filp fd = s.cur.filp fd
  count : ∀ f, (s'.file f).count = (s.file f).count

theorem SameTables.descriptors (h : SameTables s s') : SameDescriptors s s' := by
  constructor
  · intro fd
    rw [h.cur_eq]
  · intro f
    rw [h.file]

theorem SameDescriptors.refl (s : Fs) : SameDescriptors s s := ⟨fun _ => rfl, fun _ => rfl⟩

/-- Bits of `close_on_exec` do not count. -/
theorem setClose_descriptors (s : Fs) (fd : ℕ) (b : Bool) :
    SameDescriptors s (s.setCur (s.cur.setClose fd b)) := by
  refine ⟨fun i => ?_, fun _ => rfl⟩
  rw [Fs.setCur_cur]
  rfl

theorem SameDescriptors.trans {s'' : Fs} (h : SameDescriptors s s')
    (h' : SameDescriptors s' s'') : SameDescriptors s s'' :=
  ⟨fun fd => (h'.filp fd).trans (h.filp fd), fun f => (h'.count f).trans (h.count f)⟩

/-- What is known of a call that fails. -/
abbrev FailsClean {α : Type} (m : K (Except Errno α)) (s : Fs) : Prop :=
  m.wp (fun r s' => ∀ e, r = .error e → SameDescriptors s s') (fun _ _ => True) s

/-! ### `open` -/

/-- What is known after a program that keeps the tables. -/
theorem StaysTables.wp {α : Type} {m : K α} (hm : StaysTables m) (s : Fs) :
    m.wp (fun _ s' => SameTables s s') (fun _ _ => True) s := hm.run s [] s (.refl s)

/-- A descriptor and an entry of the file table that were not in use are taken back. -/
theorem openFile_fails (hfd : s.cur.filp fd = none) (hcount : (s.file f).count = 0)
    (filename : List ℕ) (flag mode : ℕ) : FailsClean (openFile fd f filename flag mode) s := by
  generalize hreserved :
    (s.setCur (s.cur.setFilp fd (some f))).setFile f ((s.file f).addCount 1) = s₁
  have hback : ∀ s', SameTables s₁ s' → SameDescriptors s (untake fd f s') := by
    intro s' h
    have hsame := untake_reserve hfd hcount
    rw [hreserved] at hsame
    exact (hsame.trans ((untake_rollback fd f).tables s₁ s' h)).descriptors
  rw [FailsClean, openFile, Prog.wp_bind]
  change Prog.wp (openNamei filename flag mode >>= _) _ _
    ((s.setCur (s.cur.setFilp fd (some f))).setFile f ((s.file f).addCount 1))
  rw [hreserved]
  refine (StaysTables.wp (openNamei_stays filename flag mode) s₁).bind fun r s₂ h₂ => ?_
  cases r with
  | error e => exact fun _ _ => hback s₂ h₂
  | ok inode =>
    dsimp only
    rw [openTty, Prog.wp_bind, Prog.wp_bind, Prog.wp_read, Prog.wp_bind, Prog.wp_read, Prog.wp_ite]
    refine ⟨fun _ => ?_, fun _ => ?_⟩
    · -- a terminal is opened without an error
      rw [Prog.wp_bind, Prog.wp_when]
      refine ⟨fun _ => ?_, fun _ => ?_⟩
      · exact fun e he => absurd he (by simp)
      · exact fun e he => absurd he (by simp)
    · rw [Prog.wp_pure, Prog.wp_ite]
      refine ⟨fun _ => fun e he => absurd he (by simp), fun _ => ?_⟩
      refine (StaysTables.wp (iput_stays inode) s₂).bind fun _ s₃ h₃ => ?_
      exact fun _ _ => hback s₃ (h₂.trans h₃)

theorem sysOpen_fails (filename : List ℕ) (flag mode : ℕ) (s : Fs) :
    FailsClean (sysOpen filename flag mode) s := by
  rw [FailsClean, sysOpen, Prog.wp_bind, Prog.wp_read]
  cases hfd : s.cur.freeFd 0 with
  | none => exact fun _ _ => .refl s
  | some fd =>
    obtain ⟨-, -, hfree⟩ := Task.freeFd_some hfd
    dsimp only
    rw [Prog.wp_bind, modifyCur, Prog.wp_update, Prog.wp_bind, Prog.wp_read]
    have hclose := setClose_descriptors s fd false
    cases hf : freeFile (s.setCur (s.cur.setClose fd false)).file 0 with
    | none => exact fun _ _ => hclose
    | some f =>
      obtain ⟨-, -, hcount⟩ := freeFile_some hf
      have hfree' : (s.setCur (s.cur.setClose fd false)).cur.filp fd = none := by
        rw [Fs.setCur_cur]
        exact hfree
      refine (openFile_fails hfree' hcount filename flag _).mono (fun r s' h e he => ?_)
        fun _ _ _ => trivial
      exact hclose.trans (h e he)

/-! ### `close` and the copies -/

theorem sysClose_fails (fd : ℕ) (s : Fs) : FailsClean (sysClose fd) s := by
  rw [FailsClean, sysClose, Prog.wp_ite]
  refine ⟨fun _ => fun _ _ => .refl s, fun _ => ?_⟩
  rw [Prog.wp_bind, modifyCur, Prog.wp_update, Prog.wp_bind, Prog.wp_read, Fs.setCur_cur]
  cases hfd : (s.cur.setClose fd false).filp fd with
  | none => exact fun _ _ => setClose_descriptors s fd false
  | some f =>
    dsimp only
    rw [Prog.wp_bind, modifyCur, Prog.wp_update, Prog.wp_bind]
    exact (Prog.wp.intro (fun _ _ _ => trivial) fun _ _ _ => trivial : Prog.wp (closeFile f)
      (fun _ _ => True) (fun _ _ => True) _).mono (fun _ _ _ _ he => absurd he (by simp))
      fun _ _ _ => trivial

theorem dupfd_fails (fd arg : ℕ) (s : Fs) : FailsClean (dupfd fd arg) s := by
  rw [FailsClean, dupfd, Prog.wp_bind, Prog.wp_read]
  cases s.cur.getFilp fd with
  | none => exact fun _ _ => .refl s
  | some f =>
    dsimp only
    rw [Prog.wp_ite]
    refine ⟨fun _ => fun _ _ => .refl s, fun _ => ?_⟩
    cases s.cur.freeFd arg with
    | none => exact fun _ _ => .refl s
    | some i => exact fun e he => absurd he (by simp)

/-! ### `pipe` -/

theorem getPipeInode_stays (page : ℕ) : StaysTables (getPipeInode page) := by
  apply getEmptyInode_stays.next
  intro inode
  apply Owns.ite
  · exact fun _ => (modifyInode_stays inode _).next fun _ => Owns.pure rfl
  · intro _
    apply Owns.next
    · exact Stays.update sameTables_frame fun _ => ⟨rfl, rfl, rfl, rfl⟩
    · exact fun _ => (modifyInode_stays inode _).next fun _ => Owns.pure rfl

/-- The descriptors and the entries for a pipe are taken back. -/
theorem pipeFiles_fails {fd₀ fd₁ f₀ f₁ : ℕ} (hfd₀ : s.cur.filp fd₀ = none)
    (hfd₁ : s.cur.filp fd₁ = none) (hf : f₁ ≠ f₀) (h₀ : (s.file f₀).count = 0)
    (h₁ : (s.file f₁).count = 0) (page : ℕ) :
    (pipeFiles fd₀ fd₁ f₀ f₁ page).wp (fun r s' => ∀ e, r = .error e → SameDescriptors s s')
      (fun _ _ => True)
      ((s.setFile f₀ ((s.file f₀).addCount 1)).setFile f₁ ((s.file f₁).addCount 1)) := by
  have hr := untakePipe_rollback fd₀ fd₁ f₀ f₁
  rw [pipeFiles, Prog.wp_bind, modifyCur, Prog.wp_update]
  change Prog.wp (getPipeInode page >>= _) _ _ (reservePipe fd₀ fd₁ f₀ f₁ s)
  refine (StaysTables.wp (getPipeInode_stays page) _).bind fun inode s' h' => ?_
  cases inode with
  | none =>
    intro e _
    have hback := ((untakePipe_reserve hf hfd₀ hfd₁ h₀ h₁).trans (hr.tables _ s' h')).descriptors
    refine hback.trans (SameTables.descriptors ?_)
    refine ⟨(hr.super s').symm, ?_, ?_, (hr.current s').symm⟩
    · rw [untakePipe, untake_file, untake_file]
      rfl
    · rw [untakePipe, untake_task, untake_task, untake_cur]
      exact (Function.update_idem ..).symm
  | some inode => exact fun e he => absurd he (by simp)

theorem sysPipe_fails (page : ℕ) (s : Fs) : FailsClean (sysPipe page) s := by
  rw [FailsClean, sysPipe, Prog.wp_bind, Prog.wp_read]
  cases hf₀ : freeFile s.file 0 with
  | none => exact fun _ _ => .refl s
  | some f₀ =>
    obtain ⟨-, -, h₀⟩ := freeFile_some hf₀
    dsimp only
    rw [Prog.wp_bind, modifyFile, Prog.wp_update, Prog.wp_bind, Prog.wp_read]
    cases hf₁ : freeFile (s.setFile f₀ ((s.file f₀).addCount 1)).file (f₀ + 1) with
    | none =>
      intro e _
      refine SameTables.descriptors ⟨rfl, ?_, rfl, rfl⟩
      change Function.update (Function.update s.file f₀ _) f₀
        (Function.update s.file f₀ ((s.file f₀).addCount 1) f₀).unused = s.file
      rw [Function.update_idem, Function.update_self, unused_addCount h₀,
        Function.update_eq_self]
    | some f₁ =>
      obtain ⟨hle, -, h₁⟩ := freeFile_some hf₁
      have hne : f₁ ≠ f₀ := by omega
      rw [Fs.setFile_ne s hne] at h₁
      dsimp only
      rw [Prog.wp_bind, modifyFile, Prog.wp_update, Prog.wp_bind, Prog.wp_read,
        Fs.setFile_ne s hne]
      generalize hs' : (s.setFile f₀ ((s.file f₀).addCount 1)).setFile f₁
        ((s.file f₁).addCount 1) = s'
      have hcur : s'.cur = s.cur := by
        rw [← hs']
        rfl
      have hback : SameDescriptors s ((s'.setFile f₀ (s'.file f₀).unused).setFile f₁
          ((s'.setFile f₀ (s'.file f₀).unused).file f₁).unused) := by
        rw [Fs.setFile_ne s' hne]
        subst hs'
        exact SameTables.descriptors ⟨rfl, files_back hne h₀ h₁ rfl, rfl, rfl⟩
      rw [hcur]
      cases hfd₀ : s.cur.freeFd 0 with
      | none => exact fun _ _ => hback
      | some fd₀ =>
        cases hfd₁ : s.cur.freeFd (fd₀ + 1) with
        | none =>
          simp only [Option.bind_some, hfd₁]
          exact fun _ _ => hback
        | some fd₁ =>
          obtain ⟨-, -, hfree₀⟩ := Task.freeFd_some hfd₀
          obtain ⟨-, -, hfree₁⟩ := Task.freeFd_some hfd₁
          simp only [Option.bind_some, hfd₁]
          rw [← hs']
          exact pipeFiles_fails hfree₀ hfree₁ hne h₀ h₁ page

/-! ### `dup2` -/

theorem closeFile_cur (f : ℕ) (s : Fs) :
    (closeFile f).wp (fun _ s' => s'.cur = s.cur) (fun _ _ => True) s := by
  rw [closeFile, Prog.wp_bind, Prog.wp_read, Prog.wp_ite]
  refine ⟨fun _ => trivial, fun _ => ?_⟩
  rw [Prog.wp_bind, modifyFile, Prog.wp_update, Prog.wp_when]
  refine ⟨fun _ => ?_, fun _ => rfl⟩
  exact (StaysTables.wp (iput_stays _) _).mono (fun _ _ h => h.cur_eq) fun _ _ _ => trivial

/-- What `sys_close` leaves of the descriptors. -/
theorem sysClose_filp (fd : ℕ) (s : Fs) :
    (sysClose fd).wp (fun _ s' => (fd < nrOpen → s'.cur.filp fd = none) ∧
      ∀ i, i ≠ fd → s'.cur.filp i = s.cur.filp i) (fun _ _ => True) s := by
  rw [sysClose, Prog.wp_ite]
  refine ⟨fun hle => ⟨fun hlt => absurd hle (Nat.not_le_of_lt hlt), fun _ _ => rfl⟩, fun _ => ?_⟩
  rw [Prog.wp_bind, modifyCur, Prog.wp_update, Prog.wp_bind, Prog.wp_read, Fs.setCur_cur]
  cases hfd : (s.cur.setClose fd false).filp fd with
  | none =>
    rw [Prog.wp_pure, Fs.setCur_cur]
    exact ⟨fun _ => hfd, fun _ _ => rfl⟩
  | some f =>
    dsimp only
    rw [Prog.wp_bind, modifyCur, Prog.wp_update]
    refine (closeFile_cur f _).bind fun _ s' h => ?_
    rw [Prog.wp_pure, h, Fs.setCur_cur, Fs.setCur_cur]
    refine ⟨fun _ => Task.setFilp_filp_self .., fun i hi => ?_⟩
    rw [Task.setFilp_filp_ne _ hi]
    rfl

/-- `sys_close` of a descriptor that is not in use. -/
theorem sysClose_unused (h : nrOpen ≤ fd ∨ s.cur.filp fd = none) :
    (sysClose fd).wp (fun _ s' => SameDescriptors s s') (fun _ _ => True) s := by
  rw [sysClose, Prog.wp_ite]
  refine ⟨fun _ => .refl s, fun hlt => ?_⟩
  rw [Prog.wp_bind, modifyCur, Prog.wp_update, Prog.wp_bind, Prog.wp_read, Fs.setCur_cur]
  have hnone : (s.cur.setClose fd false).filp fd = none := h.resolve_left hlt
  rw [hnone]
  exact setClose_descriptors s fd false

theorem getFilp_congr {p p' : Task} (h : p'.filp fd = p.filp fd) :
    p'.getFilp fd = p.getFilp fd := by
  rw [Task.getFilp, Task.getFilp, h]

/-- `dupfd` to a descriptor that is not in use. -/
theorem dupfd_free {fd arg f : ℕ} (hf : s.cur.getFilp fd = some f) (harg : arg < nrOpen)
    (hfree : s.cur.filp arg = none) :
    (dupfd fd arg).wp (fun r s' => r = .ok arg ∧ s'.cur.filp arg = some f ∧
      s'.cur.filp fd = some f) (fun _ _ => True) s := by
  have hfirst : s.cur.freeFd arg = some arg := by
    have hpos : nrOpen - arg ≠ 0 := by omega
    obtain ⟨n, hn⟩ := Nat.exists_eq_succ_of_ne_zero hpos
    rw [Task.freeFd, hn, Fs.firstZero, hfree]
    rfl
  have hfd := Task.getFilp_some hf
  have hne : fd ≠ arg := by
    rintro rfl
    rw [hfree] at hfd
    exact absurd hfd (by simp)
  rw [dupfd, Prog.wp_bind, Prog.wp_read, hf]
  dsimp only
  rw [Prog.wp_ite]
  refine ⟨fun hle => absurd hle (Nat.not_le_of_lt harg), fun _ => ?_⟩
  rw [hfirst]
  dsimp only
  rw [Prog.wp_bind, modifyCur, Prog.wp_update, Prog.wp_bind, modifyFile, Prog.wp_update,
    Prog.wp_pure]
  change _ ∧ (s.setCur _).cur.filp arg = some f ∧ (s.setCur _).cur.filp fd = some f
  rw [Fs.setCur_cur, Task.setFilp_filp_self, Task.setFilp_filp_ne _ hne]
  exact ⟨rfl, rfl, hfd⟩

/-- `dupfd` of a descriptor that is not in use. -/
theorem dupfd_bad {fd arg : ℕ} (hfd : s.cur.getFilp fd = none) :
    dupfd fd arg s = .ok (.error .EBADF, s) := by
  rw [dupfd, Prog.read_run, hfd]
  rfl

/-! ### All calls -/

/-- The calls that make and remove descriptors; `sys_pipe` gets a free page or 0. -/
inductive FdCall
  | open (filename : List ℕ) (flag mode : ℕ)
  | close (fd : ℕ)
  | dup (fildes : ℕ)
  | dup2 (oldfd newfd : ℕ)
  | dupFcntl (fd arg : ℕ)
  | pipe (page : ℕ)

/-- `F_DUPFD`. -/
def fDupfd : ℕ := 0

/-- A call, and what it returns; 0 is returned by `sys_close` and `sys_pipe`. -/
def FdCall.run : FdCall → K (Except Errno ℕ)
  | .open filename flag mode => sysOpen filename flag mode
  | .close fd => do
    let r ← sysClose fd
    pure (r.map fun _ => 0)
  | .dup fildes => sysDup fildes
  | .dup2 oldfd newfd => sysDup2 oldfd newfd
  | .dupFcntl fd arg => sysFcntl fd fDupfd arg
  | .pipe page => do
    let r ← sysPipe page
    pure (r.map fun _ => 0)

/-- A call that fails changes no descriptor, and `sys_dup2` of a descriptor in use makes the new
descriptor a copy of it. -/
structure FdCall.Sound (call : FdCall) (s : Fs) (r : Except Errno ℕ) (s' : Fs) : Prop where
  failed : ∀ e, r = .error e → SameDescriptors s s'
  copied : ∀ oldfd newfd f, call = .dup2 oldfd newfd → s.cur.getFilp oldfd = some f →
    newfd < nrOpen → r = .ok newfd ∧ s'.cur.filp newfd = some f ∧ s'.cur.filp oldfd = some f

/-- The new descriptor of `sys_dup2` is out of range or not in use, or the old one is in use and
another one. -/
def FdCall.Separate (s : Fs) : FdCall → Prop
  | .dup2 oldfd newfd => nrOpen ≤ newfd ∨ s.cur.filp newfd = none ∨
    oldfd ≠ newfd ∧ (s.cur.getFilp oldfd).isSome = true
  | _ => True

/-- A call other than `sys_dup2`. -/
theorem FdCall.sound_of_fails {call : FdCall} {r : Except Errno ℕ}
    (hcall : ∀ oldfd newfd, call ≠ .dup2 oldfd newfd) (hfails : FailsClean call.run s)
    (hrun : call.run s = .ok (r, s')) : call.Sound s r s' :=
  ⟨hfails.of_ok hrun, fun oldfd newfd _ h => absurd h (hcall oldfd newfd)⟩

/-- The result of a call is changed to a number. -/
theorem FailsClean.map {α : Type} {m : K (Except Errno α)} (h : FailsClean m s) :
    FailsClean (do let r ← m; pure (r.map fun _ => 0) : K (Except Errno ℕ)) s := by
  refine Prog.wp.bind h fun r s' h' => ?_
  intro e he
  cases r with
  | error e' => exact h' e' rfl
  | ok a => exact absurd he (by simp [Except.map])

/-- A call that returns does what it should if and only if it is not `sys_dup2` to a descriptor in
use of one that is not in use or of itself. -/
theorem FdCall.sound_iff {call : FdCall} {r : Except Errno ℕ}
    (hrun : call.run s = .ok (r, s')) : call.Sound s r s' ↔ call.Separate s := by
  cases call with
  | «open» filename flag mode =>
    exact iff_of_true (sound_of_fails (by simp) (sysOpen_fails filename flag mode s) hrun) trivial
  | close fd =>
    exact iff_of_true (sound_of_fails (by simp) (FailsClean.map (sysClose_fails fd s)) hrun)
      trivial
  | dup fildes =>
    exact iff_of_true (sound_of_fails (by simp) (dupfd_fails fildes 0 s) hrun) trivial
  | dupFcntl fd arg =>
    have hfails : FailsClean (sysFcntl fd fDupfd arg) s := by
      rw [FailsClean, sysFcntl, Prog.wp_bind, Prog.wp_read]
      cases s.cur.getFilp fd with
      | none => exact fun _ _ => .refl s
      | some f => exact dupfd_fails fd arg s
    exact iff_of_true (sound_of_fails (by simp) hfails hrun) trivial
  | pipe page =>
    exact iff_of_true (sound_of_fails (by simp) (FailsClean.map (sysPipe_fails page s)) hrun)
      trivial
  | dup2 oldfd newfd =>
    obtain ⟨c, s₁, hclose, hdup⟩ := Prog.of_bind_run hrun
    obtain ⟨hnone, hothers⟩ := (sysClose_filp newfd s).of_ok hclose
    constructor
    · intro h
      rw [Separate]
      by_contra hnot
      simp only [not_or, not_and] at hnot
      obtain ⟨hlt, hused, hbad⟩ := hnot
      have hclosed := hnone (Nat.lt_of_not_le hlt)
      -- the old descriptor is not in use, or it has just been closed
      have hget : s₁.cur.getFilp oldfd = none := by
        by_cases heq : oldfd = newfd
        · rw [heq, Task.getFilp, hclosed, ite_self]
        · rw [getFilp_congr (hothers oldfd heq), ← Option.not_isSome_iff_eq_none]
          exact hbad heq
      rw [dupfd_bad hget] at hdup
      obtain ⟨rfl, rfl⟩ := Prod.mk.inj (Except.ok.inj hdup)
      rw [← (h.failed .EBADF rfl).filp newfd] at hused
      exact hused hclosed
    · intro h
      have hfree : ∀ f, s.cur.getFilp oldfd = some f → newfd < nrOpen → oldfd ≠ newfd →
          r = .ok newfd ∧ s'.cur.filp newfd = some f ∧ s'.cur.filp oldfd = some f := by
        intro f hf hlt hne
        rw [← getFilp_congr (hothers oldfd hne)] at hf
        exact (dupfd_free hf hlt (hnone hlt)).of_ok hdup
      have hunused (hunused : nrOpen ≤ newfd ∨ s.cur.filp newfd = none) :
          (FdCall.dup2 oldfd newfd).Sound s r s' := by
        have hsame := (sysClose_unused hunused).of_ok hclose
        refine ⟨fun e he => hsame.trans ((dupfd_fails oldfd newfd s₁).of_ok hdup e he), ?_⟩
        rintro _ _ f ⟨⟩ hf hlt
        apply hfree f hf hlt
        rintro rfl
        rw [Task.getFilp, hunused.resolve_left (Nat.not_le_of_lt hlt), ite_self] at hf
        exact absurd hf (by simp)
      rcases h with hle | hnot | ⟨hne, hsome⟩
      · exact hunused (Or.inl hle)
      · exact hunused (Or.inr hnot)
      · by_cases hlt : newfd < nrOpen
        · obtain ⟨f, hf⟩ := Option.isSome_iff_exists.mp hsome
          have hok := hfree f hf hlt hne
          refine ⟨fun e he => ?_, ?_⟩
          · rw [hok.1] at he
            exact absurd he (by simp)
          · rintro _ _ f' ⟨⟩ hf' hlt'
            exact hfree f' hf' hlt' hne
        · exact hunused (Or.inl (Nat.le_of_not_lt hlt))

/-- The running task has the descriptors 0 and 1. -/
def twoFiles : Fs :=
  { Fs.empty with
    inode := fun i => if i < 2 then
        { MInode.zero with mode := 0o100644, nlinks := 1, dev := 769, num := i + 2, count := 2 }
      else .zero
    file := fun f =>
      if f < 2 then { mode := 0o100644, flags := 0, count := 1, inode := f, pos := 0 }
      else { mode := 0, flags := 0, count := 0, inode := 0, pos := 0 }
    task := fun t => if t = 0 then
        { Task.zero with used := true, filp := fun fd => if fd < 2 then some fd else none }
      else .zero }

/-- `sys_dup2` of a descriptor to itself closes it. -/
theorem dup2_self_closes :
    ∃ s', (FdCall.dup2 1 1).run twoFiles = .ok (.error .EBADF, s') ∧
      twoFiles.cur.getFilp 1 = some 1 ∧ s'.cur.filp 1 = none ∧
      ¬ (FdCall.dup2 1 1).Sound twoFiles (.error .EBADF) s' := by
  have hrun : ∃ s', (FdCall.dup2 1 1).run twoFiles = .ok (.error .EBADF, s') ∧
      s'.cur.filp 1 = none := ⟨_, rfl, rfl⟩
  obtain ⟨s', hrun, hnone⟩ := hrun
  refine ⟨s', hrun, rfl, hnone, fun h => ?_⟩
  have hsame := (h.failed .EBADF rfl).filp 1
  rw [hnone] at hsame
  exact absurd hsame (by decide)

/-- `sys_dup2` of another descriptor in use copies it. -/
theorem dup2_copies :
    ∃ s', (FdCall.dup2 0 1).Sound twoFiles (.ok 1) s' := by
  have hrun : ∃ s', (FdCall.dup2 0 1).run twoFiles = .ok (.ok 1, s') := ⟨_, rfl⟩
  obtain ⟨s', hrun⟩ := hrun
  exact ⟨s', (FdCall.sound_iff hrun).mpr (Or.inr (Or.inr ⟨by decide, by decide⟩))⟩

end LihaLinux.Files
