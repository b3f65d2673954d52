import LihaLinux.Files.FileBalance

/-!
# Pipes, `fork`, `exit` and `execve` keep the balance

A pipe is one inode with two references, `fork` counts everything that it copies, and `exit`
and `execve` give back what they drop.
-/

namespace LihaLinux.Files

open LihaLinux.Fs (firstZero firstZero_some)

variable {R R' : List ℕ} {s s' s₀ : Fs} {t f fd f₀ f₁ fd₀ fd₁ : ℕ}

/-! ### Pipes -/

/-- The inode of a pipe has one reference for its reader and one for its writer. -/
theorem getPipeInode_holds (page : ℕ) : Holds s₀ (getPipeInode page) []
    fun r => (r.map fun i => [i, i]).getD [] := by
  refine ⟨fun ρ R s h => (getEmptyInode_wp h).bind fun i s' h' => ?_⟩
  obtain ⟨h', hi⟩ := h'
  have hcount := h'.1.count i
  rw [hi, List.count_cons_self] at hcount
  change 1 = (ρ i + (R.count i + 1)) % 65536 at hcount
  have hlt : i < nrInode := h'.1.bound i (by rw [List.count_cons_self]; omega)
  have hdev : (s'.inode i).dev = 0 := by rw [hi]; rfl
  rw [Prog.wp_ite]
  refine ⟨fun _ => ⟨?_, h'.2.trans (setInode_sameTables ..)⟩, fun _ => ⟨?_, h'.2.trans ?_⟩⟩
  · refine h'.1.setInode (fun j hj => (count_cons_ne R hj).symm) (fun _ => hlt) ?_
      (fun hne => absurd hdev hne) fun hne => absurd hdev hne
    change 0 = (ρ i + R.count i) % 65536
    omega
  · refine (h'.1.congr rfl rfl : Counted ρ _ (s'.setPage page fun _ => 0)).setInode
      (fun j hj => count_cons_ne _ hj) (fun _ => hlt) ?_ (fun hne => absurd hdev hne)
      fun hne => absurd hdev hne
    change 2 = (ρ i + (i :: i :: R).count i) % 65536
    rw [List.count_cons_self, List.count_cons_self]
    omega
  · exact ⟨rfl, rfl, rfl, rfl⟩

/-- Take the two descriptors of a pipe back. -/
def untakePipe (fd₀ fd₁ f₀ f₁ : ℕ) (s : Fs) : Fs := untake fd₁ f₁ (untake fd₀ f₀ s)

theorem untakePipe_rollback (fd₀ fd₁ f₀ f₁ : ℕ) : Rollback (untakePipe fd₀ fd₁ f₀ f₁) :=
  (untake_rollback fd₁ f₁).comp (untake_rollback fd₀ f₀)

/-- The descriptors of a pipe are reserved, and nothing else refers to their entries. -/
structure TakenPipe (fd₀ fd₁ f₀ f₁ : ℕ) (s : Fs) : Prop where
  fst : Taken fd₀ f₀ s
  snd : Taken fd₁ f₁ s
  fstCount : (s.file f₀).count = 1
  sndCount : (s.file f₁).count = 1

theorem TakenPipe.congr (hsame : SameTables s s') (h : TakenPipe fd₀ fd₁ f₀ f₁ s) :
    TakenPipe fd₀ fd₁ f₀ f₁ s' := by
  refine ⟨h.fst.congr hsame, h.snd.congr hsame, ?_, ?_⟩
  · rw [hsame.file]
    exact h.fstCount
  · rw [hsame.file]
    exact h.sndCount

/-- The state in which the two descriptors of a pipe have been reserved. -/
def reservePipe (fd₀ fd₁ f₀ f₁ : ℕ) (s : Fs) : Fs :=
  ((s.setFile f₀ ((s.file f₀).addCount 1)).setFile f₁ ((s.file f₁).addCount 1)).setCur
    ((s.cur.setFilp fd₀ (some f₀)).setFilp fd₁ (some f₁))

theorem reservePipe_file (s : Fs) : (reservePipe fd₀ fd₁ f₀ f₁ s).file =
    Function.update (Function.update s.file f₀ ((s.file f₀).addCount 1)) f₁
      ((s.file f₁).addCount 1) := rfl

theorem reservePipe_task (s : Fs) : (reservePipe fd₀ fd₁ f₀ f₁ s).task =
    Function.update s.task s.current ((s.cur.setFilp fd₀ (some f₀)).setFilp fd₁ (some f₁)) := rfl

theorem reservePipe_current (s : Fs) : (reservePipe fd₀ fd₁ f₀ f₁ s).current = s.current := rfl

theorem reservePipe_cur (s : Fs) : (reservePipe fd₀ fd₁ f₀ f₁ s).cur =
    (s.cur.setFilp fd₀ (some f₀)).setFilp fd₁ (some f₁) := Fs.setCur_cur ..

/-- Two entries of a table that are changed and changed back. -/
theorem update_back {α : Type} (table : ℕ → α) {a b : ℕ} (x y : α) :
    Function.update (Function.update (Function.update (Function.update table a x) b y) a
      (table a)) b (table b) = table := by
  funext g
  rcases eq_or_ne g b with rfl | hb
  · rw [Function.update_self]
  · rcases eq_or_ne g a with rfl | ha
    · rw [Function.update_of_ne hb, Function.update_self]
    · rw [Function.update_of_ne hb, Function.update_of_ne ha, Function.update_of_ne hb,
        Function.update_of_ne ha]

theorem setFilp_back {p : Task} (h₀ : p.filp fd₀ = none) (h₁ : p.filp fd₁ = none)
    (x y : Option ℕ) :
    (((p.setFilp fd₀ x).setFilp fd₁ y).setFilp fd₀ none).setFilp fd₁ none = p := by
  have hfilp := update_back p.filp (a := fd₀) (b := fd₁) x y
  rw [h₀, h₁] at hfilp
  simp only [Task.setFilp, hfilp]

theorem untakePipe_reserve (hne : f₁ ≠ f₀) (hfd₀ : s.cur.filp fd₀ = none)
    (hfd₁ : s.cur.filp fd₁ = none) (hf₀ : (s.file f₀).count = 0) (hf₁ : (s.file f₁).count = 0) :
    SameTables s (untakePipe fd₀ fd₁ f₀ f₁ (reservePipe fd₀ fd₁ f₀ f₁ s)) := by
  have hr := untakePipe_rollback fd₀ fd₁ f₀ f₁
  refine ⟨(hr.super _).trans rfl, ?_, ?_, (hr.current _).trans rfl⟩
  · rw [untakePipe, untake_file, untake_file, reservePipe_file, Function.update_of_ne hne,
      Function.update_self, Function.update_of_ne hne.symm, Function.update_self,
      unused_addCount hf₀, unused_addCount hf₁, update_back]
  · have hcurrent : (untake fd₀ f₀ (reservePipe fd₀ fd₁ f₀ f₁ s)).current = s.current :=
      (untake_rollback fd₀ f₀).current _
    rw [untakePipe, untake_task, hcurrent, untake_task, untake_cur, reservePipe_cur,
      setFilp_back hfd₀ hfd₁, reservePipe_task, reservePipe_current, Function.update_idem,
      Function.update_idem, Fs.cur, Function.update_eq_self]

/-- The reserved descriptors are used for the inode of a pipe. -/
theorem Balanced.takePipe {inode : ℕ} {e₀ e₁ : File}
    (h : Balanced (inode :: inode :: R) (untakePipe fd₀ fd₁ f₀ f₁ s))
    (htaken : TakenPipe fd₀ fd₁ f₀ f₁ s) (hfd : fd₁ ≠ fd₀) (hf : f₁ ≠ f₀) (hfd₀ : fd₀ < nrOpen)
    (hfd₁ : fd₁ < nrOpen) (hf₀ : f₀ < nrFile) (hf₁ : f₁ < nrFile) (he₀ : e₀.count = 1)
    (he₁ : e₁.count = 1) (hi₀ : e₀.inode = inode) (hi₁ : e₁.inode = inode) :
    Balanced R ((s.setFile f₀ e₀).setFile f₁ e₁) := by
  have hsnd : Taken fd₁ f₁ (untake fd₀ f₀ s) := by
    rw [Taken, untake_cur, Task.setFilp_filp_ne _ hfd]
    exact htaken.snd
  have hone := Balanced.take h hsnd hfd₁ hf₁ he₁ hi₁
  have hone' : Balanced (inode :: R) (untake fd₀ f₀ (s.setFile f₁ e₁)) := by
    refine hone.congr rfl ⟨rfl, ?_, rfl, rfl⟩
    rw [untake_file, Fs.setFile_ne s hf.symm]
    exact Function.update_comm hf ..
  have htwo := Balanced.take hone' htaken.fst hfd₀ hf₀ he₀ hi₀
  exact htwo.congr rfl ⟨rfl, (Function.update_comm hf ..).symm, rfl, rfl⟩

/-- `pipe` with descriptors and entries of the file table that are reserved. -/
theorem Balanced.pipeFiles (h : Balanced R s) (hfd₀ : s.cur.freeFd 0 = some fd₀)
    (hfd₁ : s.cur.freeFd (fd₀ + 1) = some fd₁) (hf₀ : f₀ < nrFile) (hf₁ : f₁ < nrFile)
    (hf : f₁ ≠ f₀) (h₀ : (s.file f₀).count = 0) (h₁ : (s.file f₁).count = 0) (page : ℕ) :
    (pipeFiles fd₀ fd₁ f₀ f₁ page).wp (fun _ s' => Balanced R s')
      (fun e _ => e ≠ .writeNoDevice)
      ((s.setFile f₀ ((s.file f₀).addCount 1)).setFile f₁ ((s.file f₁).addCount 1)) := by
  obtain ⟨-, hlt₀, hfree₀⟩ := Task.freeFd_some hfd₀
  obtain ⟨hle, hlt₁, hfree₁⟩ := Task.freeFd_some hfd₁
  have hfd : fd₁ ≠ fd₀ := by omega
  have hr := untakePipe_rollback fd₀ fd₁ f₀ f₁
  have hpending : Pending (untakePipe fd₀ fd₁ f₀ f₁) (TakenPipe fd₀ fd₁ f₀ f₁) ([] ++ R)
      (reservePipe fd₀ fd₁ f₀ f₁ s) := by
    refine ⟨h.congr ((hr.inode _).trans rfl) (untakePipe_reserve hf hfree₀ hfree₁ h₀ h₁),
      ?_, ?_, ?_, ?_⟩
    · rw [Taken, reservePipe_cur, Task.setFilp_filp_ne _ hfd.symm, Task.setFilp_filp_self]
    · rw [Taken, reservePipe_cur, Task.setFilp_filp_self]
    · rw [reservePipe_file, Function.update_of_ne hf.symm, Function.update_self, File.addCount, h₀]
    · rw [reservePipe_file, Function.update_self, File.addCount, h₁]
  have hholds := Holds.pending (T := TakenPipe fd₀ fd₁ f₀ f₁) hr (fun _ _ => TakenPipe.congr)
    fun _ => getPipeInode_holds page
  rw [Files.pipeFiles, Prog.wp_bind, modifyCur, Prog.wp_update]
  refine (hholds.run () R _ hpending).bind fun inode s' h' => ?_
  obtain ⟨hbal, htaken⟩ := h'
  cases inode with
  | none =>
    refine hbal.congr (hr.inode s').symm ⟨(hr.super s').symm, ?_, ?_, (hr.current s').symm⟩
    · rw [untakePipe, untake_file, untake_file]
      rfl
    · rw [untakePipe, untake_task, untake_task, untake_cur]
      exact (Function.update_idem ..).symm
  | some inode =>
    refine hbal.takePipe htaken hfd hf hlt₀ hlt₁ hf₀ hf₁ ?_ ?_ rfl rfl
    · exact htaken.fstCount
    · change ((s'.setFile f₀ _).file f₁).count = 1
      rw [Fs.setFile_ne _ hf]
      exact htaken.sndCount

/-- Two entries of the file table that are counted and counted back. -/
theorem files_back (hne : f₁ ≠ f₀) (h₀ : (s.file f₀).count = 0) (h₁ : (s.file f₁).count = 0)
    (hs' : s' = (s.setFile f₀ ((s.file f₀).addCount 1)).setFile f₁ ((s.file f₁).addCount 1)) :
    Function.update (Function.update s'.file f₀ (s'.file f₀).unused) f₁ (s'.file f₁).unused =
      s.file := by
  have hf₀ : s'.file f₀ = (s.file f₀).addCount 1 := by
    rw [hs', Fs.setFile_ne _ hne.symm, Fs.setFile_self]
  have hf₁ : s'.file f₁ = (s.file f₁).addCount 1 := by rw [hs', Fs.setFile_self]
  rw [hf₀, hf₁, unused_addCount h₀, unused_addCount h₁, hs']
  exact update_back s.file ..

theorem sysPipe_keeps (page : ℕ) : Keeps Balanced (sysPipe page) [] fun _ => [] := by
  refine ⟨fun _ R s (h : Balanced R s) => ?_⟩
  rw [sysPipe, Prog.wp_bind, Prog.wp_read]
  cases hf₀ : freeFile s.file 0 with
  | none => exact h
  | some f₀ =>
    obtain ⟨-, hlt₀, h₀⟩ := freeFile_some hf₀
    dsimp only
    rw [Prog.wp_bind, modifyFile, Prog.wp_update, Prog.wp_bind, Prog.wp_read]
    cases hf₁ : freeFile (s.setFile f₀ ((s.file f₀).addCount 1)).file (f₀ + 1) with
    | none =>
      refine h.congr rfl ⟨rfl, ?_, rfl, rfl⟩
      change Function.update (Function.update s.file f₀ _) f₀
        (Function.update s.file f₀ ((s.file f₀).addCount 1) f₀).unused = s.file
      rw [Function.update_idem, Function.update_self, unused_addCount h₀,
        Function.update_eq_self]
    | some f₁ =>
      obtain ⟨hle, hlt₁, h₁⟩ := freeFile_some hf₁
      have hne : f₁ ≠ f₀ := by omega
      rw [Fs.setFile_ne s hne] at h₁
      dsimp only
      rw [Prog.wp_bind, modifyFile, Prog.wp_update, Prog.wp_bind, Prog.wp_read,
        Fs.setFile_ne s hne]
      generalize hs' : (s.setFile f₀ ((s.file f₀).addCount 1)).setFile f₁
        ((s.file f₁).addCount 1) = s'
      have hcur : s'.cur = s.cur := by
        rw [← hs']
        rfl
      have hback : Balanced R ((s'.setFile f₀ (s'.file f₀).unused).setFile f₁
          ((s'.setFile f₀ (s'.file f₀).unused).file f₁).unused) := by
        rw [Fs.setFile_ne s' hne]
        subst hs'
        exact h.congr rfl ⟨rfl, files_back hne h₀ h₁ rfl, rfl, rfl⟩
      rw [hcur]
      cases hfd₀ : s.cur.freeFd 0 with
      | none => exact hback
      | some fd₀ =>
        cases hfd₁ : s.cur.freeFd (fd₀ + 1) with
        | none =>
          simp only [Option.bind_some, hfd₁]
          exact hback
        | some fd₁ =>
          simp only [Option.bind_some, hfd₁]
          rw [← hs']
          exact Balanced.pipeFiles h hfd₀ hfd₁ hlt₀ hlt₁ hne h₀ h₁ page

/-! ### `fork` -/

/-- A new task with the first `k` descriptors of another one only. -/
def Task.cut (p : Task) (k : ℕ) : Task :=
  { p with
    pwd := none
    root := none
    executable := none
    filp := fun fd => if fd < k then p.filp fd else none }

theorem Task.cut_zero (p : Task) : (p.cut 0).Null := ⟨rfl, rfl, rfl, fun _ => rfl⟩

theorem Task.cut_succ (p : Task) (k : ℕ) : p.cut (k + 1) = (p.cut k).setFilp k (p.filp k) := by
  have hfilp : (fun fd => if fd < k + 1 then p.filp fd else none) =
      Function.update (fun fd => if fd < k then p.filp fd else none) k (p.filp k) := by
    funext fd
    rcases eq_or_ne fd k with rfl | hne
    · rw [Function.update_self, if_pos (Nat.lt_succ_self _)]
    · rw [Function.update_of_ne hne]
      by_cases hlt : fd < k
      · rw [if_pos hlt, if_pos (by omega)]
      · rw [if_neg hlt, if_neg (by omega)]
  rw [Task.cut, hfilp]
  rfl

theorem Task.Null.refs_eq {p : Task} (h : p.Null) (i : ℕ) : p.refs i = 0 := by
  rw [Task.refs, h.pwd, h.root, h.executable, indicator_false (by simp)]

theorem Task.Null.holders_eq {p : Task} (h : p.Null) (f : ℕ) : p.holders f = 0 := by
  refine Finset.sum_eq_zero fun fd _ => ?_
  rw [h.filp, indicator_false (by simp)]

/-- A task slot that is not in use gets a task without pointers. -/
theorem Balanced.newTask (h : Balanced R s) (ht : t < nrTasks)
    (hunused : (s.task t).used = false) {p : Task} (hp : p.Null) : Balanced R (s.setTask t p) := by
  have hnull := h.idle t hunused
  refine h.setTask ht (fun i => ?_) (fun f => ?_) (fun fd f hf => ?_) (fun _ => hp) fun hc => ?_
  · rw [hp.refs_eq, hnull.refs_eq]
  · rw [hp.holders_eq, hnull.holders_eq]
  · rw [hp.filp] at hf
    exact absurd hf (by simp)
  · have hused := h.running
    rw [Fs.cur, ← hc, hunused] at hused
    exact absurd hused (by decide)

/-- The descriptors of the new task are counted one after the other. -/
theorem copyFiles_wp {nr : ℕ} {q : Task} (hnr : nr < nrTasks) (hused : q.used = true) {n : ℕ}
    (hn : fd + n = nrOpen) (h : Balanced R (s.setTask nr (q.cut fd))) (hcur : s.current ≠ nr)
    (hq : s.cur.filp = q.filp) :
    (copyFiles q.filp n fd).wp (fun _ s' => Balanced R (s'.setTask nr (q.cut nrOpen)) ∧
      s'.task = s.task ∧ s'.current = s.current) (fun e _ => e ≠ .writeNoDevice) s := by
  induction n generalizing fd s with
  | zero =>
    rw [Nat.add_zero] at hn
    subst hn
    exact ⟨h, rfl, rfl⟩
  | succ n ih =>
    have hcut : ((s.setTask nr (q.cut fd)).task nr).filp fd = none := by
      rw [Fs.setTask_self]
      exact if_neg (Nat.lt_irrefl fd)
    rw [copyFiles]
    cases hf : q.filp fd with
    | none =>
      refine ih (by omega) ?_ hcur hq
      rw [Task.cut_succ, hf, setFilp_self]
      · exact h
      · rw [← Fs.setTask_self s nr (q.cut fd)]
        exact hcut
    | some f =>
      have hparent : (s.setTask nr (q.cut fd)).cur.filp fd = some f := by
        change ((s.setTask nr (q.cut fd)).task s.current).filp fd = some f
        rw [Fs.setTask_ne s hcur, ← hf, ← hq]
        rfl
      obtain ⟨hpos, hle⟩ := h.file_used hparent
      have hnew := h.attach hnr (by rw [Fs.setTask_self]; exact hused) (by omega) hcut
        (h.filp _ fd f hparent).2.2 hpos hle
      refine ih (s := s.setFile f ((s.file f).addCount 1)) (by omega) ?_ hcur hq
      refine hnew.congr rfl ⟨rfl, rfl, ?_, rfl⟩
      rw [Task.cut_succ, hf, Fs.setTask_self]
      exact (Function.update_idem ..).symm

theorem incCountOpt_wp {ρ : ℕ → ℕ} (h : Account s₀ ρ R s) (x : Option ℕ)
    (hx : ∀ j, x = some j → ρ j ≠ 0) :
    (incCountOpt x).wp (fun _ s' => Account s₀ ρ (x.toList ++ R) s')
      (fun e _ => e ≠ .writeNoDevice) s := by
  cases x with
  | none => exact h
  | some j =>
    have hpos := hx j rfl
    have hsum : ρ j + R.count j ≠ 0 := by omega
    exact h.inc (h.1.bound j hsum) fun hdev => h.1.mounted j hdev hsum

/-- The references of one task are part of all. -/
theorem taskRefs_le (s : Fs) (ht : t < nrTasks) (i : ℕ) : (s.task t).refs i ≤ s.refs i := by
  have hle : (s.task t).refs i ≤ ∑ t ∈ Finset.range nrTasks, (s.task t).refs i :=
    Finset.single_le_sum (f := fun t => (s.task t).refs i) (fun _ _ => Nat.zero_le _)
      (Finset.mem_range.mpr ht)
  rw [Fs.refs]
  omega

/-- The pointers of the new task are counted when its descriptors have been. -/
theorem Balanced.copyPointers {nr : ℕ} {p q : Task} (hnr : nr < nrTasks)
    (h : Balanced R (s.setTask nr (q.cut nrOpen))) (hq : s.task nr = q) (hp : s.cur = p)
    (hcur : s.current ≠ nr) (hpointers : SamePointers p q) (hused : p.used = true) :
    (do
      incCountOpt p.pwd
      incCountOpt p.root
      incCountOpt p.executable : K Unit).wp (fun _ s' => Balanced R s')
      (fun e _ => e ≠ .writeNoDevice) s := by
  have hpos : ∀ j, p.refs j ≠ 0 → (s.setTask nr (q.cut nrOpen)).refs j ≠ 0 := by
    intro j hj
    have hle := taskRefs_le (s.setTask nr (q.cut nrOpen)) (t := s.current) h.current j
    rw [Fs.setTask_ne s hcur, ← Fs.cur, hp] at hle
    omega
  have hacc : Account s (s.setTask nr (q.cut nrOpen)).refs R s :=
    ⟨h.counted.congr rfl rfl, .refl s⟩
  refine (incCountOpt_wp hacc p.pwd fun j hj => hpos j ?_).bind fun _ s₂ h₂ => ?_
  · rw [Task.refs, indicator_true hj]
    omega
  refine (incCountOpt_wp h₂ p.root fun j hj => hpos j ?_).bind fun _ s₃ h₃ => ?_
  · rw [Task.refs, indicator_true hj]
    omega
  refine (incCountOpt_wp h₃ p.executable fun j hj => hpos j ?_).mono (fun _ s₄ h₄ => ?_)
    fun _ _ he => he
  · rw [Task.refs, indicator_true hj]
    omega
  have hsame : SameTables (s.setTask nr (q.cut nrOpen)) (s₄.setTask nr (q.cut nrOpen)) := by
    refine ⟨h₄.2.super, h₄.2.file, ?_, h₄.2.current⟩
    rw [Fs.setTask, Fs.setTask, h₄.2.task]
  have hbal : Balanced (p.executable.toList ++ (p.root.toList ++ (p.pwd.toList ++ R)))
      (s₄.setTask nr (q.cut nrOpen)) := h.of_account ⟨h₄.1.congr rfl rfl, hsame⟩
  refine (hbal.setTask (t := nr) (p := q) hnr (fun i => ?_) (fun f => ?_)
    (fun fd f hf => ?_) (fun hu => ?_) fun _ => hpointers.used.trans hused).congr rfl
      ⟨rfl, rfl, ?_, rfl⟩
  · have hcut : (q.cut nrOpen).refs i = 0 := by
      rw [Task.refs]
      simp [Task.cut, indicator]
    rw [Fs.setTask_self, hpointers.refs_eq, hcut, Task.refs]
    simp only [List.count_append, count_toList]
    omega
  · rw [Fs.setTask_self]
    refine Finset.sum_congr rfl fun fd hfd => ?_
    rw [Task.cut]
    simp only [if_pos (Finset.mem_range.mp hfd)]
  · rw [hpointers.filp, ← hp] at hf
    have hparent : ((s.setTask nr (q.cut nrOpen)).task s.current).filp fd = some f := by
      rw [Fs.setTask_ne s hcur]
      exact hf
    exact (h.filp _ fd f hparent).2
  · rw [hpointers.used, hused] at hu
    exact absurd hu (by decide)
  · have hq₄ : s₄.task nr = q := by rw [h₄.2.task, hq]
    change s₄.task = Function.update (Function.update s₄.task nr _) nr q
    rw [Function.update_idem, ← hq₄, Function.update_eq_self]

theorem sysFork_keeps (memory : Bool) : Keeps Balanced (sysFork memory) [] fun _ => [] := by
  refine ⟨fun _ R s (h : Balanced R s) => ?_⟩
  rw [sysFork, Prog.wp_bind, Prog.wp_read]
  cases hnr : firstZero (fun t => (s.task t).used) (nrTasks - 1) 1 with
  | none => exact h
  | some nr =>
    obtain ⟨-, hbound, hunused, -⟩ := firstZero_some hnr
    have hlt : nr < nrTasks := by
      change nr < 1 + (64 - 1) at hbound
      exact hbound
    have hcur : s.current ≠ nr := by
      rintro rfl
      exact absurd (h.running.symm.trans hunused) (by decide)
    dsimp only
    rw [Prog.wp_ite]
    refine ⟨fun _ => ?_, fun _ => h⟩
    rw [Prog.wp_bind, Prog.wp_read, Prog.wp_bind, Prog.wp_update]
    have hpointers : SamePointers s.cur { s.cur with leader := false } := ⟨rfl, rfl, rfl, rfl, rfl⟩
    generalize ({ s.cur with leader := false } : Task) = q at hpointers
    have hstart : Balanced R ((s.setTask nr q).setTask nr (q.cut 0)) :=
      (h.newTask hlt hunused q.cut_zero).congr rfl ⟨rfl, rfl, Function.update_idem .., rfl⟩
    have hparent : (s.setTask nr q).cur = s.cur := Fs.setTask_ne s hcur q
    rw [← hpointers.filp]
    refine Prog.wp.bind (copyFiles_wp hlt (hpointers.used.trans h.running) rfl hstart hcur
      (by rw [hparent, hpointers.filp])) fun _ s₁ h₁ => ?_
    obtain ⟨hbal, htask, hcurrent⟩ := h₁
    have hpointers₁ := hbal.copyPointers (p := s.cur) hlt (by rw [htask, Fs.setTask_self])
      (by rw [Fs.cur, htask, hcurrent]; exact hparent) (by rw [hcurrent]; exact hcur) hpointers
      h.running
    simp only [Prog.wp_bind] at hpointers₁ ⊢
    exact hpointers₁

/-! ### `exit` and `execve` -/

theorem closeWhere_keeps (c : Task → ℕ → Bool) (n fd : ℕ) :
    Keeps Balanced (closeWhere c n fd) [] fun _ => [] := by
  induction n generalizing fd with
  | zero => exact Owns.pure rfl
  | succ n ih =>
    refine (Owns.read _).next fun p => Owns.next (Owns.when fun _ => ?_) fun _ => ih (fd + 1)
    exact (sysClose_keeps fd).unit

theorem doExit_keeps : Keeps Balanced doExit [] fun _ => [] := by
  refine (closeWhere_keeps ..).next fun _ => (setPwd_keeps none).bind fun _ => ?_
  exact (setRoot_keeps none).bind fun _ => setExecutable_keeps none

theorem replaceProgram_keeps (inode euid egid : ℕ) :
    Keeps Balanced (replaceProgram inode euid egid) [inode] fun _ => [] := by
  refine (setExecutable_keeps (some inode)).bind fun _ => (closeWhere_keeps ..).next fun _ => ?_
  exact modifyCur_keeps fun _ => ⟨rfl, rfl, rfl, rfl, rfl⟩

theorem execError_keeps (inode : ℕ) (e : Errno) :
    Keeps Balanced (execError inode e) [inode] fun _ => [] :=
  Holds.balanced fun _ => iput_last _ rfl

theorem execImage_keeps (memory : Bool) (m : MInode) (p : Task) (d : ℕ → ℕ) (inode : ℕ) :
    Keeps Balanced (execImage memory m p d inode) [inode] fun _ => [] := by
  refine Owns.ite (fun _ => execError_keeps ..) fun _ => Owns.ite (fun _ => execError_keeps ..)
    fun _ => ?_
  exact (replaceProgram_keeps ..).bind fun _ => Owns.pure rfl

theorem execFile_keeps (memory : Bool) {script : (ℕ → ℕ) → Option (K Status)} (inode : ℕ)
    (hscript : ∀ d m, script d = some m → Keeps Balanced m [inode] fun _ => []) :
    Keeps Balanced (execFile memory script inode) [inode] fun _ => [] := by
  refine (Owns.read _).next fun m => (Owns.read _).next fun p => ?_
  refine Owns.ite (fun _ => execError_keeps ..) fun _ => ?_
  refine Owns.ite (fun _ => execError_keeps ..) fun _ => ?_
  refine Owns.next (Holds.balanced fun _ => bread_holds ..) fun bh => ?_
  cases bh with
  | none => exact execError_keeps ..
  | some bh =>
    refine (Owns.read _).next fun d => Owns.next (Holds.balanced fun _ => brelse_holds bh)
      fun _ => ?_
    cases hs : script d with
    | none => exact execImage_keeps ..
    | some m => exact hscript d m hs

theorem execScript_keeps (memory : Bool) (inode : ℕ) (d : ℕ → ℕ) :
    Keeps Balanced (execScript memory inode d) [inode] fun _ => [] := by
  refine Owns.bind (Holds.balanced fun _ => iput_holds inode) fun _ => ?_
  cases interpreter d with
  | none => exact Owns.pure rfl
  | some interp =>
    refine Owns.ite (fun _ => ?_) fun _ => Owns.pure rfl
    refine Owns.bind (Holds.balanced fun _ => namei_holds interp) fun found => ?_
    cases found with
    | none => exact Owns.pure rfl
    | some found => exact execFile_keeps memory found fun _ _ h => nomatch h

theorem execInode_keeps (memory : Bool) (inode : ℕ) :
    Keeps Balanced (execInode memory inode) [inode] fun _ => [] := by
  refine execFile_keeps memory inode fun d m h => ?_
  split at h
  · obtain rfl := Option.some.inj h
    exact execScript_keeps memory inode d
  · exact nomatch h

theorem doExecve_keeps (memory : Bool) (filename : List ℕ) :
    Keeps Balanced (doExecve memory filename) [] fun _ => [] := by
  refine Owns.bind (Holds.balanced fun _ => namei_holds filename) fun inode => ?_
  cases inode with
  | none => exact Owns.pure rfl
  | some inode => exact execInode_keeps memory inode

end LihaLinux.Files
