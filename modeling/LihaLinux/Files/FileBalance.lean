import LihaLinux.Files.Balance
import LihaLinux.Fs.BmapPaths

/-!
# Descriptors keep the balance

Every call that changes descriptors or the pointers of a task counts what it changes. A call
that has reserved a descriptor before it looks for the inode is in balance with the descriptor
taken back.
-/

namespace LihaLinux.Files

open LihaLinux.Fs (firstZero_some)

variable {R R' : List ℕ} {s s' s₀ : Fs} {t f fd : ℕ}

/-! ### Fields that do not count -/

/-- The same pointers in two tasks. -/
structure SamePointers (p p' : Task) : Prop where
  used : p'.used = p.used
  pwd : p'.pwd = p.pwd
  root : p'.root = p.root
  executable : p'.executable = p.executable
  filp : p'.filp = p.filp

theorem SamePointers.refs_eq {p p' : Task} (h : SamePointers p p') (i : ℕ) :
    p'.refs i = p.refs i := by
  rw [Task.refs, Task.refs, h.pwd, h.root, h.executable]

theorem SamePointers.holders_eq {p p' : Task} (h : SamePointers p p') (f : ℕ) :
    p'.holders f = p.holders f := by
  rw [Task.holders, Task.holders, h.filp]

theorem SamePointers.null {p p' : Task} (h : SamePointers p p') (hp : p.Null) : p'.Null :=
  ⟨h.pwd.trans hp.pwd, h.root.trans hp.root, h.executable.trans hp.executable,
    fun fd => (congrFun h.filp fd).trans (hp.filp fd)⟩

theorem Balanced.setCur (h : Balanced R s) {p : Task} (hp : SamePointers s.cur p) :
    Balanced R (s.setCur p) := by
  refine h.setTask h.current (fun i => ?_) hp.holders_eq (fun fd f hf => ?_) (fun hused => ?_)
    fun _ => hp.used.trans h.running
  · rw [hp.refs_eq]
    rfl
  · rw [hp.filp] at hf
    exact (h.filp s.current fd f hf).2
  · rw [hp.used, h.running] at hused
    exact absurd hused (by decide)

theorem modifyCur_keeps {g : Task → Task} (hg : ∀ p, SamePointers p (g p)) :
    Keeps Balanced (modifyCur g) [] fun _ => [] := ⟨fun _ _ _ h => h.setCur (hg _)⟩

/-- A change of an entry of the file table that keeps its count and its inode. -/
theorem Balanced.setFile_same (h : Balanced R s) {e : File} (hcount : e.count = (s.file f).count)
    (hinode : e.inode = (s.file f).inode) : Balanced R (s.setFile f e) := by
  have hrefs : ∀ g i, ((s.setFile f e).file g).refs i = (s.file g).refs i := by
    intro g i
    rcases eq_or_ne g f with rfl | hne
    · rw [Fs.setFile_self, File.refs, File.refs, hcount, hinode]
    · rw [Fs.setFile_ne s hne]
  refine h.retable rfl rfl rfl (fun i => ?_) (fun g => ?_) h.filp h.idle h.running
  · simp only [Fs.refs, hrefs]
    rfl
  · refine Eq.trans ?_ (h.files g)
    rcases eq_or_ne g f with rfl | hne
    · rw [Fs.setFile_self, hcount]
    · rw [Fs.setFile_ne s hne]

theorem modifyFile_keeps {g : File → File}
    (hsame : ∀ e, (g e).count = e.count ∧ (g e).inode = e.inode) :
    Keeps Balanced (modifyFile f g) [] fun _ => [] :=
  ⟨fun _ _ _ h => h.setFile_same (hsame _).1 (hsame _).2⟩

/-! ### Pointers of tasks -/

theorem count_toList (x : Option ℕ) (i : ℕ) : x.toList.count i = indicator (x = some i) := by
  cases x with
  | none => rfl
  | some j =>
    rcases eq_or_ne j i with rfl | hne
    · rw [indicator_true rfl, Option.toList_some, List.count_cons_self, List.count_nil]
    · rw [indicator_false (by simpa using hne), Option.toList_some, List.count_cons_of_ne hne,
        List.count_nil]

/-- A pointer of the running task is given back and replaced by another one. -/
theorem setPointer_keeps (get : Task → Option ℕ) (set : Task → Option ℕ → Task)
    (hrefs : ∀ p x i, (set p x).refs i + indicator (get p = some i) =
      p.refs i + indicator (x = some i))
    (hfilp : ∀ p x, (set p x).filp = p.filp) (hused : ∀ p x, (set p x).used = p.used)
    (x : Option ℕ) :
    Keeps Balanced (do
      let p ← Prog.read Fs.cur
      iputOpt (get p)
      modifyCur fun p => set p x) x.toList fun _ => [] := by
  refine ⟨fun _ R s h => ?_⟩
  rw [Prog.wp_bind, Prog.wp_read]
  have hnew : Balanced ((get s.cur).toList ++ R) (s.setCur (set s.cur x)) := by
    refine h.setTask h.current (fun i => ?_) (fun f => ?_) (fun fd f hf => ?_) (fun hu => ?_)
      fun _ => (hused _ x).trans h.running
    · have hi := hrefs s.cur x i
      rw [List.count_append, List.count_append, count_toList, count_toList]
      change _ = s.cur.refs i + _
      omega
    · rw [Task.holders, hfilp]
      rfl
    · rw [hfilp] at hf
      exact (h.filp s.current fd f hf).2
    · rw [hused, h.running] at hu
      exact absurd hu (by decide)
  have hstart : Account s (s.setCur (set s.cur x)).refs ((get s.cur).toList ++ R) s :=
    ⟨hnew.counted.congr rfl rfl, .refl s⟩
  refine ((iputOpt_holds (get s.cur)).run _ R s hstart).bind fun _ s' h' => ?_
  obtain ⟨hcounted, hsame⟩ := h'
  refine hnew.of_account ⟨hcounted.congr rfl rfl, hsame.super, hsame.file, ?_, hsame.current⟩
  simp only [Fs.setCur, Fs.setTask, Fs.cur, hsame.task, hsame.current]

theorem setPwd_keeps (x : Option ℕ) : Keeps Balanced (setPwd x) x.toList fun _ => [] := by
  refine setPointer_keeps Task.pwd (fun p x => { p with pwd := x })
    (fun p x i => ?_) (fun _ _ => rfl) (fun _ _ => rfl) x
  simp only [Task.refs]
  omega

theorem setRoot_keeps (x : Option ℕ) : Keeps Balanced (setRoot x) x.toList fun _ => [] := by
  refine setPointer_keeps Task.root (fun p x => { p with root := x })
    (fun p x i => ?_) (fun _ _ => rfl) (fun _ _ => rfl) x
  simp only [Task.refs]
  omega

theorem setExecutable_keeps (x : Option ℕ) :
    Keeps Balanced (setExecutable x) x.toList fun _ => [] := by
  refine setPointer_keeps Task.executable (fun p x => { p with executable := x })
    (fun p x i => ?_) (fun _ _ => rfl) (fun _ _ => rfl) x
  simp only [Task.refs]
  omega

/-- The directory of a name becomes a pointer of the task. -/
theorem changeDir_keeps {set : Option ℕ → K Unit}
    (hset : ∀ x, Keeps Balanced (set x) x.toList fun _ => []) (filename : List ℕ) :
    Keeps Balanced (changeDir set filename) [] fun _ => [] := by
  refine Owns.bind (Holds.balanced fun _ => namei_holds filename) fun inode => ?_
  cases inode with
  | none => exact Owns.pure rfl
  | some inode =>
    refine (Owns.read _).next fun mode => Owns.ite (fun _ => ?_) fun _ => ?_
    · exact (hset (some inode)).bind fun _ => Owns.pure rfl
    · exact Holds.balanced fun _ => iput_last _ rfl

theorem sysChdir_keeps (filename : List ℕ) :
    Keeps Balanced (sysChdir filename) [] fun _ => [] := changeDir_keeps setPwd_keeps filename

theorem sysChroot_keeps (filename : List ℕ) :
    Keeps Balanced (sysChroot filename) [] fun _ => [] := changeDir_keeps setRoot_keeps filename

/-! ### Closing and copying -/

/-- An entry of the file table with a descriptor has a count. -/
theorem Balanced.file_used (h : Balanced R s) (hf : (s.task t).filp fd = some f) :
    (s.file f).count ≠ 0 ∧ (s.file f).count ≤ 1280 := by
  obtain ⟨ht, hfd, -⟩ := h.filp t fd f hf
  have htask : (s.task t).holders f ≤ s.holders f :=
    Finset.single_le_sum (f := fun t => (s.task t).holders f) (fun _ _ => Nat.zero_le _)
      (Finset.mem_range.mpr ht)
  have hone : indicator ((s.task t).filp fd = some f) ≤ (s.task t).holders f :=
    Finset.single_le_sum (f := fun fd => indicator ((s.task t).filp fd = some f))
      (fun _ _ => Nat.zero_le _) (Finset.mem_range.mpr hfd)
  rw [indicator_true hf] at hone
  have hle := holders_le s f
  rw [h.files f]
  omega

theorem File.addCount_one {e : File} (hle : e.count ≤ 1280) :
    e.addCount 1 = { e with count := e.count + 1 } := by
  have hcount : (e.count + 1) % 65536 = e.count + 1 := by omega
  rw [File.addCount, hcount]

theorem File.addCount_neg {e : File} (hpos : e.count ≠ 0) (hle : e.count ≤ 1280) :
    e.addCount 65535 = { e with count := e.count - 1 } := by
  have hcount : (e.count + 65535) % 65536 = e.count - 1 := by omega
  rw [File.addCount, hcount]

/-- The reference of an entry of the file table is given back with its last descriptor. -/
theorem File.refs_close {e : File} (hpos : e.count ≠ 0) (i : ℕ) :
    ({ e with count := e.count - 1 } : File).refs i +
      (if e.count = 1 then [e.inode] else []).count i = e.refs i := by
  by_cases hone : e.count = 1
  · rw [if_pos hone, File.refs, File.refs, indicator_false fun hi => hi.1 (by simp [hone]),
      List.count_singleton]
    rcases eq_or_ne e.inode i with hi | hi
    · rw [indicator_true ⟨hpos, hi⟩, if_pos (by simpa using hi)]
    · rw [indicator_false fun h => hi h.2, if_neg (by simpa using hi)]
  · have hne : e.count - 1 ≠ 0 := by omega
    rw [if_neg hone, File.refs, File.refs, List.count_nil]
    simp only [hne, hpos, ne_eq, not_false_eq_true, true_and, Nat.add_zero]

/-- A descriptor is closed. -/
theorem Balanced.closeFile (h : Balanced R s) (hf : s.cur.filp fd = some f) :
    (closeFile f).wp (fun _ s' => Balanced R s') (fun e _ => e ≠ .writeNoDevice)
      (s.setCur (s.cur.setFilp fd none)) := by
  obtain ⟨ht, hfd, hlt⟩ := h.filp s.current fd f hf
  obtain ⟨hpos, hle⟩ := h.file_used hf
  have hclose : Balanced ((if (s.file f).count = 1 then [(s.file f).inode] else []) ++ R)
      ((s.setCur (s.cur.setFilp fd none)).setFile f ((s.file f).addCount 65535)) := by
    rw [File.addCount_neg hpos hle]
    refine h.setFd ht hfd hlt (fun g hg => ?_) (fun _ hg => absurd hg (by simp)) h.running ?_
      fun i => ?_
    · exact Option.some.inj (hg.symm.trans hf)
    · have hold : (s.task s.current).filp fd = some f := hf
      rw [indicator_true hold, indicator_false (by simp)]
      change (s.file f).count - 1 + 1 = _
      omega
    · rw [List.count_append, ← Nat.add_assoc, File.refs_close hpos]
  rw [Files.closeFile, Prog.wp_bind, Prog.wp_read]
  change Prog.wp (if (s.file f).count = 0 then _ else _) _ _ _
  rw [if_neg hpos, Prog.wp_bind]
  change Prog.wp (Prog.when ((s.file f).count = 1) (iput (s.file f).inode)) _ _
    ((s.setCur (s.cur.setFilp fd none)).setFile f ((s.file f).addCount 65535))
  rw [Prog.wp_when]
  refine ⟨fun hone => ?_, fun hmany => ?_⟩
  · rw [if_pos hone] at hclose
    exact (Holds.balanced fun _ => iput_holds (s.file f).inode).run () R _ hclose
  · rwa [if_neg hmany] at hclose

theorem sysClose_keeps (fd : ℕ) : Keeps Balanced (sysClose fd) [] fun _ => [] := by
  refine Owns.ite (fun _ => Owns.pure rfl) fun _ => ?_
  refine Owns.next (modifyCur_keeps fun _ => ⟨rfl, rfl, rfl, rfl, rfl⟩) fun _ => ?_
  refine ⟨fun _ R s h => ?_⟩
  rw [Prog.wp_bind, Prog.wp_read]
  cases hf : s.cur.filp fd with
  | none => exact h
  | some f =>
    dsimp only
    rw [Prog.wp_bind]
    exact (Balanced.closeFile h hf).bind fun _ s' h' => h'

/-- One more descriptor for an entry of the file table that is in use. -/
theorem Balanced.attach (h : Balanced R s) (ht : t < nrTasks) (hused : (s.task t).used = true)
    (hfd : fd < nrOpen) (hfree : (s.task t).filp fd = none) (hf : f < nrFile)
    (hpos : (s.file f).count ≠ 0) (hle : (s.file f).count ≤ 1280) :
    Balanced R ((s.setTask t ((s.task t).setFilp fd (some f))).setFile f
      ((s.file f).addCount 1)) := by
  rw [File.addCount_one hle]
  refine h.setFd ht hfd hf (fun g hg => ?_) (fun g hg => (Option.some.inj hg).symm) hused ?_
    fun i => ?_
  · rw [hfree] at hg
    exact absurd hg (by simp)
  · rw [indicator_false (by simp [hfree]), indicator_true rfl]
  · have hsame : ({ s.file f with count := (s.file f).count + 1 } : File).refs i =
        (s.file f).refs i := by
      simp only [File.refs, hpos, Nat.add_one_ne_zero, ne_eq, not_false_eq_true, true_and]
    rw [hsame]

theorem Task.freeFd_some {p : Task} {i : ℕ} (h : p.freeFd fd = some i) :
    fd ≤ i ∧ i < nrOpen ∧ p.filp i = none := by
  obtain ⟨hle, hlt, hi, -⟩ := firstZero_some h
  exact ⟨hle, by omega, by simpa using hi⟩

theorem freeFile_some {file : ℕ → File} {g : ℕ} (h : freeFile file f = some g) :
    f ≤ g ∧ g < nrFile ∧ (file g).count = 0 := by
  obtain ⟨hle, hlt, hg, -⟩ := firstZero_some h
  exact ⟨hle, by omega, by simpa using hg⟩

theorem Task.getFilp_some {p : Task} (h : p.getFilp fd = some f) : p.filp fd = some f := by
  rw [Task.getFilp, Option.ite_none_right_eq_some] at h
  exact h.2

theorem dupfd_keeps (fd arg : ℕ) : Keeps Balanced (dupfd fd arg) [] fun _ => [] := by
  refine ⟨fun _ R s h => ?_⟩
  rw [dupfd, Prog.wp_bind, Prog.wp_read]
  cases hget : s.cur.getFilp fd with
  | none => exact h
  | some f =>
    have hf := Task.getFilp_some hget
    obtain ⟨hpos, hle⟩ := h.file_used hf
    dsimp only
    rw [Prog.wp_ite]
    refine ⟨fun _ => h, fun _ => ?_⟩
    cases hfree : s.cur.freeFd arg with
    | none => exact h
    | some i =>
      obtain ⟨-, hi, hnone⟩ := Task.freeFd_some hfree
      have hclose : Balanced R (s.setCur (s.cur.setClose i false)) :=
        h.setCur ⟨rfl, rfl, rfl, rfl, rfl⟩
      have hcur := Fs.setCur_cur s (s.cur.setClose i false)
      have hnew := hclose.attach hclose.current hclose.running hi
        (by rw [← Fs.cur, hcur]; exact hnone) (h.filp s.current fd f hf).2.2 hpos hle
      refine hnew.congr rfl ⟨rfl, rfl, ?_, rfl⟩
      rw [← Fs.cur, hcur]
      exact (Function.update_idem ..).symm

theorem sysDup2_keeps (oldfd newfd : ℕ) :
    Keeps Balanced (sysDup2 oldfd newfd) [] fun _ => [] :=
  (sysClose_keeps newfd).next fun _ => dupfd_keeps oldfd newfd

theorem sysFcntl_keeps (fd cmd arg : ℕ) :
    Keeps Balanced (sysFcntl fd cmd arg) [] fun _ => [] := by
  refine (Owns.read _).next fun p => ?_
  cases p.getFilp fd with
  | none => exact Owns.pure rfl
  | some f =>
    refine Owns.ite (fun _ => dupfd_keeps fd arg) fun _ => ?_
    refine Owns.ite (fun _ => Owns.pure rfl) fun _ => Owns.ite (fun _ => ?_) fun _ => ?_
    · refine Owns.next (modifyCur_keeps fun _ => ⟨rfl, rfl, rfl, rfl, rfl⟩) fun _ => ?_
      exact Owns.pure rfl
    · refine Owns.ite (fun _ => (Owns.read _).next fun flags => Owns.pure rfl) fun _ => ?_
      refine Owns.ite (fun _ => ?_) fun _ => Owns.pure rfl
      exact Owns.next (modifyFile_keeps fun _ => ⟨rfl, rfl⟩) fun _ => Owns.pure rfl

/-! ### Reserved descriptors -/

/-- A change of the file table and the tasks that looks at these tables only. -/
structure Rollback (r : Fs → Fs) : Prop where
  inode : ∀ s, (r s).inode = s.inode
  super : ∀ s, (r s).super = s.super
  current : ∀ s, (r s).current = s.current
  tables : ∀ s s', SameTables s s' → SameTables (r s) (r s')

theorem Rollback.comp {r r' : Fs → Fs} (hr : Rollback r) (hr' : Rollback r') :
    Rollback fun s => r (r' s) where
  inode s := (hr.inode _).trans (hr'.inode s)
  super s := (hr.super _).trans (hr'.super s)
  current s := (hr.current _).trans (hr'.current s)
  tables s s' h := hr.tables _ _ (hr'.tables s s' h)

/-- A state that is in balance after a change has been taken back, and a property of its
tables. -/
def Pending (r : Fs → Fs) (T : Fs → Prop) (R : List ℕ) (s : Fs) : Prop := Balanced R (r s) ∧ T s

/-- A program that does not change the tables does not see what is reserved. -/
theorem Holds.pending {α : Type} {m : K α} {pre : List ℕ} {post : α → List ℕ} {r : Fs → Fs}
    {T : Fs → Prop} (hr : Rollback r) (hT : ∀ s s', SameTables s s' → T s → T s')
    (hm : ∀ s₀, Holds s₀ m pre post) : Keeps (Pending r T) m pre post := by
  refine ⟨fun _ R s h => ?_⟩
  have hstart : Account s (r s).refs (pre ++ R) s :=
    ⟨h.1.counted.congr (hr.inode s).symm (hr.super s).symm, .refl s⟩
  refine ((hm s).run _ R s hstart).mono (fun a s' h' => ⟨?_, hT s s' h'.2 h.2⟩) fun _ _ he => he
  exact h.1.of_account ⟨h'.1.congr (hr.inode s') (hr.super s'), hr.tables s s' h'.2⟩

/-- An entry of the file table that is not in use any more. -/
def File.unused (e : File) : File := { e with count := 0 }

/-- Take a reserved descriptor back. -/
def untake (fd f : ℕ) (s : Fs) : Fs :=
  (s.setCur (s.cur.setFilp fd none)).setFile f (s.file f).unused

theorem untake_file (fd f : ℕ) (s : Fs) :
    (untake fd f s).file = Function.update s.file f (s.file f).unused := rfl

theorem untake_task (fd f : ℕ) (s : Fs) :
    (untake fd f s).task = Function.update s.task s.current (s.cur.setFilp fd none) := rfl

theorem untake_cur (fd f : ℕ) (s : Fs) : (untake fd f s).cur = s.cur.setFilp fd none :=
  Fs.setTask_self s s.current (s.cur.setFilp fd none)

theorem SameTables.cur_eq (h : SameTables s s') : s'.cur = s.cur := by
  rw [Fs.cur, Fs.cur, h.task, h.current]

theorem untake_rollback (fd f : ℕ) : Rollback (untake fd f) where
  inode _ := rfl
  super _ := rfl
  current _ := rfl
  tables s s' h := by
    refine ⟨h.super, ?_, ?_, h.current⟩
    · rw [untake_file, untake_file, h.file]
    · rw [untake_task, untake_task, h.task, h.current, h.cur_eq]

/-- A reserved descriptor refers to its entry. -/
def Taken (fd f : ℕ) (s : Fs) : Prop := s.cur.filp fd = some f

theorem Taken.congr {s' : Fs} (hsame : SameTables s s') (h : Taken fd f s) : Taken fd f s' := by
  rw [Taken, hsame.cur_eq]
  exact h

/-- Storing a descriptor twice. -/
theorem setFilp_setFilp (p : Task) (fd : ℕ) (x y : Option ℕ) :
    (p.setFilp fd x).setFilp fd y = p.setFilp fd y := by
  simp only [Task.setFilp, Function.update_idem]

theorem setFilp_self {p : Task} {x : Option ℕ} (h : p.filp fd = x) : p.setFilp fd x = p := by
  rw [Task.setFilp, ← h, Function.update_eq_self]

/-- The reserved descriptor is used for an inode. -/
theorem Balanced.take {inode : ℕ} {e : File} (h : Balanced (inode :: R) (untake fd f s))
    (htaken : Taken fd f s) (hfd : fd < nrOpen) (hf : f < nrFile) (hcount : e.count = 1)
    (hinode : e.inode = inode) : Balanced R (s.setFile f e) := by
  have hcur : (untake fd f s).task s.current = s.cur.setFilp fd none := untake_cur fd f s
  have hfile : (untake fd f s).file f = (s.file f).unused := Fs.setFile_self ..
  have hnew : Balanced R (((untake fd f s).setTask s.current
      (((untake fd f s).task s.current).setFilp fd (some f))).setFile f e) := by
    refine h.setFd h.current hfd hf (fun g hg => ?_) (fun g hg => (Option.some.inj hg).symm)
      h.running ?_ fun i => ?_
    · rw [hcur, Task.setFilp_filp_self] at hg
      exact absurd hg (by simp)
    · rw [hcur, hfile, hcount, indicator_true rfl, indicator_false]
      · rfl
      · rw [Task.setFilp_filp_self]
        simp
    · have hzero : (s.file f).unused.refs i = 0 := indicator_false fun hi => hi.1 rfl
      rw [hfile, hzero, File.refs, hcount, hinode, List.count_cons]
      rcases eq_or_ne inode i with hi | hi
      · rw [indicator_true ⟨by decide, hi⟩, if_pos (by simpa using hi)]
        omega
      · rw [indicator_false fun h => hi h.2, if_neg (by simpa using hi)]
        omega
  refine hnew.congr rfl ⟨rfl, ?_, ?_, rfl⟩
  · exact (Function.update_idem ..).symm
  · rw [hcur, setFilp_setFilp, setFilp_self htaken]
    change s.task = Function.update (Function.update s.task s.current _) s.current s.cur
    rw [Function.update_idem, Fs.cur, Function.update_eq_self]

/-- An entry of the file table that is not in use keeps its count of 0. -/
theorem unused_addCount {e : File} (hcount : e.count = 0) (n : ℕ) :
    (e.addCount n).unused = e := by
  rcases e with ⟨mode, flags, count, inode, pos⟩
  obtain rfl : count = 0 := hcount
  rfl

/-- A descriptor that is reserved and taken back leaves the tables as they were. -/
theorem untake_reserve (hfree : s.cur.filp fd = none) (hcount : (s.file f).count = 0) :
    SameTables s (untake fd f
      ((s.setCur (s.cur.setFilp fd (some f))).setFile f ((s.file f).addCount 1))) := by
  refine ⟨rfl, ?_, ?_, rfl⟩
  · change Function.update (Function.update s.file f _) f
      (Function.update s.file f ((s.file f).addCount 1) f).unused = s.file
    rw [Function.update_idem, Function.update_self, unused_addCount hcount,
      Function.update_eq_self]
  · change Function.update (Function.update s.task s.current _) s.current
      (((s.setCur (s.cur.setFilp fd (some f))).cur).setFilp fd none) = s.task
    rw [Function.update_idem, Fs.setCur_cur, setFilp_setFilp, setFilp_self hfree, Fs.cur,
      Function.update_eq_self]

/-- `open` of a terminal changes nothing that counts. -/
theorem openTty_keeps (inode : ℕ) :
    Keeps (Pending (untake fd f) (Taken fd f)) (openTty inode) [] fun _ => [] := by
  refine (Owns.read _).next fun m => (Owns.read _).next fun p => ?_
  refine Owns.ite (fun _ => Owns.next (Owns.when fun _ => ?_) fun _ => Owns.pure rfl)
    fun _ => Owns.pure rfl
  refine ⟨fun _ R s h => ⟨?_, ?_⟩⟩
  · have hcur := untake_cur fd f s
    have hnew := h.1.setCur (p := { (untake fd f s).cur with tty := some (minor (m.zone 0)) })
      ⟨rfl, rfl, rfl, rfl, rfl⟩
    refine hnew.congr rfl ⟨rfl, rfl, ?_, rfl⟩
    rw [hcur]
    change Function.update (Function.update s.task s.current _) s.current
      ((s.setCur { s.cur with tty := some (minor (m.zone 0)) }).cur.setFilp fd none) =
        Function.update (Function.update s.task s.current _) s.current _
    rw [Function.update_idem, Function.update_idem, Fs.setCur_cur]
    rfl
  · rw [Taken, Fs.setCur_cur]
    exact h.2

/-- `open` with a descriptor and an entry of the file table that are not in use. -/
theorem Balanced.openFile (h : Balanced R s) (hfd : fd < nrOpen) (hfree : s.cur.filp fd = none)
    (hf : f < nrFile) (hcount : (s.file f).count = 0) (filename : List ℕ) (flag mode : ℕ) :
    (openFile fd f filename flag mode).wp (fun _ s' => Balanced R s')
      (fun e _ => e ≠ .writeNoDevice) s := by
  have hpending : Pending (untake fd f) (Taken fd f) ([] ++ R)
      ((s.setCur (s.cur.setFilp fd (some f))).setFile f ((s.file f).addCount 1)) := by
    refine ⟨h.congr rfl (untake_reserve hfree hcount), ?_⟩
    change (s.setCur _).cur.filp fd = some f
    rw [Fs.setCur_cur, Task.setFilp_filp_self]
  have hholds {α : Type} {m : K α} {pre : List ℕ} {post : α → List ℕ}
      (hm : ∀ s₀, Holds s₀ m pre post) : Keeps (Pending (untake fd f) (Taken fd f)) m pre post :=
    Holds.pending (untake_rollback fd f) (fun _ _ => Taken.congr) hm
  rw [Files.openFile, Prog.wp_bind]
  change Prog.wp (openNamei filename flag mode >>= _) _ _
    ((s.setCur (s.cur.setFilp fd (some f))).setFile f ((s.file f).addCount 1))
  refine ((hholds fun _ => openNamei_holds filename flag mode).run () R _ hpending).bind
    fun r s' h' => ?_
  cases r with
  | error e => exact h'.1
  | ok inode =>
    dsimp only
    refine (((openTty_keeps inode).keep (X := [inode])).run () R s' h').bind fun may s'' h'' => ?_
    rw [Prog.wp_ite]
    refine ⟨fun _ => ?_, fun _ => ?_⟩
    · exact Balanced.take (e := ⟨(s''.inode inode).mode, flag, 1, inode, 0⟩) h''.1 h''.2 hfd hf
        rfl rfl
    · exact ((hholds fun _ => iput_holds inode).run () R s'' h'').bind fun _ s₁ h₁ => h₁.1

theorem sysOpen_keeps (filename : List ℕ) (flag mode : ℕ) :
    Keeps Balanced (sysOpen filename flag mode) [] fun _ => [] := by
  refine ⟨fun _ R s h => ?_⟩
  rw [sysOpen, Prog.wp_bind, Prog.wp_read]
  cases hfd : s.cur.freeFd 0 with
  | none => exact h
  | some fd =>
    obtain ⟨-, hlt, hfree⟩ := Task.freeFd_some hfd
    dsimp only
    rw [Prog.wp_bind, modifyCur, Prog.wp_update, Prog.wp_bind, Prog.wp_read]
    have hclose : Balanced R (s.setCur (s.cur.setClose fd false)) :=
      Balanced.setCur h ⟨rfl, rfl, rfl, rfl, rfl⟩
    cases hf : freeFile (s.setCur (s.cur.setClose fd false)).file 0 with
    | none => exact hclose
    | some f =>
      obtain ⟨-, hflt, hcount⟩ := freeFile_some hf
      refine Balanced.openFile hclose hlt ?_ hflt hcount ..
      rw [Fs.setCur_cur]
      exact hfree

end LihaLinux.Files
