import LihaLinux.Lib.Counting
import LihaLinux.Files.InodeCalls
import LihaLinux.Files.Mounts
import Mathlib.Algebra.Order.BigOperators.Group.Finset
import Mathlib.Algebra.Group.Action.Defs

/-!
# The references of the tables

The entries of the file table, the tasks and the super blocks refer to inodes, and the
descriptors of the tasks refer to entries of the file table. `Balanced R s` says that all counts
agree with these references and those in `R`, which the running call holds.
-/

namespace LihaLinux.Files

open Finset (range)

/-! ### References -/

/-- The references of an entry of the file table to an inode. -/
def File.refs (e : File) (i : ℕ) : ℕ := indicator (e.count ≠ 0 ∧ e.inode = i)

/-- The references of a task to an inode. -/
def Task.refs (p : Task) (i : ℕ) : ℕ :=
  indicator (p.pwd = some i) + indicator (p.root = some i) + indicator (p.executable = some i)

/-- The references of a super block to an inode. -/
def SuperBlock.refs (sb : SuperBlock) (i : ℕ) : ℕ :=
  indicator (sb.isup = some i) + indicator (sb.imount = some i)

/-- The descriptors of a task that refer to an entry of the file table. -/
def Task.holders (p : Task) (f : ℕ) : ℕ := ∑ fd ∈ range nrOpen, indicator (p.filp fd = some f)

namespace Fs

/-- The references of all tables to an inode. -/
def refs (s : Fs) (i : ℕ) : ℕ :=
  (∑ f ∈ range nrFile, (s.file f).refs i) + (∑ t ∈ range nrTasks, (s.task t).refs i) +
    ∑ k ∈ range nrSuper, (s.super k).refs i

/-- The descriptors of all tasks that refer to an entry of the file table. -/
def holders (s : Fs) (f : ℕ) : ℕ := ∑ t ∈ range nrTasks, (s.task t).holders f

end Fs

/-- The pointers of a task are all null. -/
structure Task.Null (p : Task) : Prop where
  pwd : p.pwd = none
  root : p.root = none
  executable : p.executable = none
  filp : ∀ fd, p.filp fd = none

/-- All counts agree with the references of the tables and the references `R` of the running
call, and what is not in use refers to nothing. -/
structure Balanced (R : List ℕ) (s : Fs) : Prop where
  counted : Counted s.refs R s
  files : ∀ f, (s.file f).count = s.holders f
  filp : ∀ t fd f, (s.task t).filp fd = some f → t < nrTasks ∧ fd < nrOpen ∧ f < nrFile
  idle : ∀ t, (s.task t).used = false → (s.task t).Null
  free : ∀ k, (s.super k).dev = 0 → (s.super k).isup = none ∧ (s.super k).imount = none
  current : s.current < nrTasks
  running : s.cur.used = true

section References

variable {s s' : Fs} {i f t k fd : ℕ}

theorem refs_setFile (s : Fs) (hf : f < nrFile) (e : File) (i : ℕ) :
    (s.setFile f e).refs i + (s.file f).refs i = s.refs i + e.refs i := by
  have hsum := sum_range_update s.file (fun e => e.refs i) hf e
  simp only [Fs.refs, Fs.setFile] at hsum ⊢
  omega

theorem refs_setTask (s : Fs) (ht : t < nrTasks) (p : Task) (i : ℕ) :
    (s.setTask t p).refs i + (s.task t).refs i = s.refs i + p.refs i := by
  have hsum := sum_range_update s.task (fun p => p.refs i) ht p
  simp only [Fs.refs, Fs.setTask] at hsum ⊢
  omega

theorem refs_setSuper (s : Fs) (hk : k < nrSuper) (sb : SuperBlock) (i : ℕ) :
    (s.setSuper k sb).refs i + (s.super k).refs i = s.refs i + sb.refs i := by
  have hsum := sum_range_update s.super (fun sb => sb.refs i) hk sb
  simp only [Fs.refs, Fs.setSuper] at hsum ⊢
  omega

theorem holders_setTask (s : Fs) (ht : t < nrTasks) (p : Task) (f : ℕ) :
    (s.setTask t p).holders f + (s.task t).holders f = s.holders f + p.holders f :=
  sum_range_update s.task (fun p => p.holders f) ht p

theorem holders_setFilp (p : Task) (hfd : fd < nrOpen) (x : Option ℕ) (f : ℕ) :
    (p.setFilp fd x).holders f + indicator (p.filp fd = some f) =
      p.holders f + indicator (x = some f) :=
  sum_range_update p.filp (fun y => indicator (y = some f)) hfd x

theorem refs_congr (hfile : s'.file = s.file) (htask : s'.task = s.task)
    (hsuper : s'.super = s.super) : s'.refs = s.refs := by
  funext i
  rw [Fs.refs, Fs.refs, hfile, htask, hsuper]

theorem SameTables.refs_eq (h : SameTables s s') : s'.refs = s.refs :=
  refs_congr h.file h.task h.super

/-- The references of one super block are part of all. -/
theorem superRefs_le (s : Fs) (hk : k < nrSuper) (i : ℕ) : (s.super k).refs i ≤
    ∑ k ∈ range nrSuper, (s.super k).refs i :=
  Finset.single_le_sum (f := fun k => (s.super k).refs i) (fun _ _ => Nat.zero_le _)
    (Finset.mem_range.mpr hk)

/-- The mount point of a super block is referred to. -/
theorem refs_mounted (hk : k < nrSuper) (hmount : (s.super k).imount = some i) : s.refs i ≠ 0 := by
  have hle := superRefs_le s hk i
  rw [SuperBlock.refs, indicator_true hmount] at hle
  rw [Fs.refs]
  omega

theorem File.refs_le (e : File) (i : ℕ) : e.refs i ≤ 1 := indicator_le_one _

theorem Task.refs_le (p : Task) (i : ℕ) : p.refs i ≤ 3 := by
  have hpwd := indicator_le_one (p.pwd = some i)
  have hroot := indicator_le_one (p.root = some i)
  have hexec := indicator_le_one (p.executable = some i)
  rw [Task.refs]
  omega

theorem SuperBlock.refs_le (sb : SuperBlock) (i : ℕ) : sb.refs i ≤ 2 := by
  have hisup := indicator_le_one (sb.isup = some i)
  have hmount := indicator_le_one (sb.imount = some i)
  rw [SuperBlock.refs]
  omega

/-- The tables are small. -/
theorem refs_lt (s : Fs) (i : ℕ) : s.refs i ≤ 272 := by
  have hfile := Finset.sum_le_card_nsmul (range nrFile) (fun f => (s.file f).refs i) 1
    fun f _ => File.refs_le _ i
  have htask := Finset.sum_le_card_nsmul (range nrTasks) (fun t => (s.task t).refs i) 3
    fun t _ => Task.refs_le _ i
  have hsuper := Finset.sum_le_card_nsmul (range nrSuper) (fun k => (s.super k).refs i) 2
    fun k _ => SuperBlock.refs_le _ i
  simp only [Finset.card_range, smul_eq_mul, nrFile, nrTasks, nrSuper] at hfile htask hsuper
  simp only [Fs.refs, nrFile, nrTasks, nrSuper]
  omega

theorem holders_le (s : Fs) (f : ℕ) : s.holders f ≤ 1280 := by
  have htask : ∀ p : Task, p.holders f ≤ 20 := by
    intro p
    have hsum := Finset.sum_le_card_nsmul (range nrOpen)
      (fun fd => indicator (p.filp fd = some f)) 1 fun fd _ => indicator_le_one _
    rwa [Finset.card_range] at hsum
  have hsum := Finset.sum_le_card_nsmul (range nrTasks) (fun t => (s.task t).holders f) 20
    fun t _ => htask _
  rwa [Finset.card_range] at hsum

end References

/-! ### Changes of the tables -/

namespace Balanced

variable {R R' : List ℕ} {s s' : Fs} {t f fd k : ℕ}

/-- The count of an inode is the number of its references. -/
theorem count_eq (h : Balanced [] s) (i : ℕ) : (s.inode i).count = s.refs i := by
  have hcount := h.counted.count i
  have hle := refs_lt s i
  rw [List.count_nil] at hcount
  omega

/-- The tables after a change of the file table and the tasks. -/
theorem retable (h : Balanced R s) (hinode : s'.inode = s.inode) (hsuper : s'.super = s.super)
    (hcurrent : s'.current = s.current)
    (hsum : ∀ i, s'.refs i + R'.count i = s.refs i + R.count i)
    (hfiles : ∀ f, (s'.file f).count = s'.holders f)
    (hfilp : ∀ t fd f, (s'.task t).filp fd = some f → t < nrTasks ∧ fd < nrOpen ∧ f < nrFile)
    (hidle : ∀ t, (s'.task t).used = false → (s'.task t).Null)
    (hrunning : s'.cur.used = true) : Balanced R' s' := by
  refine ⟨?_, hfiles, hfilp, hidle, ?_, ?_, hrunning⟩
  · refine (h.counted.change hsum fun k hk j hj => refs_mounted hk ?_).congr hinode hsuper
    rwa [hsuper]
  · rw [hsuper]
    exact h.free
  · rw [hcurrent]
    exact h.current

/-- A change that the counts and the tables do not see. -/
theorem congr (h : Balanced R s) (hinode : s'.inode = s.inode) (hsame : SameTables s s') :
    Balanced R s' := by
  have hrefs := hsame.refs_eq
  refine h.retable hinode hsame.super hsame.current (fun i => ?_) (fun f => ?_) ?_ ?_ ?_
  · rw [hrefs]
  · rw [Fs.holders, hsame.task, hsame.file]
    exact h.files f
  · rw [hsame.task]
    exact h.filp
  · rw [hsame.task]
    exact h.idle
  · rw [Fs.cur, hsame.task, hsame.current]
    exact h.running

/-- A program that does not change the tables. -/
theorem of_account (h : Balanced R s) (h' : Account s s.refs R' s') : Balanced R' s' := by
  obtain ⟨hcounted, hsame⟩ := h'
  have hb : Balanced R { s' with inode := s.inode } :=
    h.congr rfl ⟨hsame.super, hsame.file, hsame.task, hsame.current⟩
  refine ⟨?_, hb.files, hb.filp, hb.idle, hb.free, hb.current, hb.running⟩
  rw [hsame.refs_eq]
  exact hcounted

/-- A change of one task. -/
theorem setTask {p : Task} (h : Balanced R s) (ht : t < nrTasks)
    (hrefs : ∀ i, p.refs i + R'.count i = (s.task t).refs i + R.count i)
    (hholders : ∀ f, p.holders f = (s.task t).holders f)
    (hfilp : ∀ fd f, p.filp fd = some f → fd < nrOpen ∧ f < nrFile)
    (hidle : p.used = false → p.Null) (hrunning : t = s.current → p.used = true) :
    Balanced R' (s.setTask t p) := by
  refine h.retable rfl rfl rfl (fun i => ?_) (fun f => ?_) ?_ ?_ ?_
  · have hsum := refs_setTask s ht p i
    have hi := hrefs i
    omega
  · have hsum := holders_setTask s ht p f
    rw [hholders f] at hsum
    exact (h.files f).trans (by omega)
  · intro u fd f hf
    rcases eq_or_ne u t with rfl | hu
    · rw [Fs.setTask_self] at hf
      exact ⟨ht, hfilp fd f hf⟩
    · rw [Fs.setTask_ne s hu] at hf
      exact h.filp u fd f hf
  · intro u hu
    rcases eq_or_ne u t with rfl | hne
    · rw [Fs.setTask_self] at hu ⊢
      exact hidle hu
    · rw [Fs.setTask_ne s hne] at hu ⊢
      exact h.idle u hu
  · rcases eq_or_ne s.current t with hct | hct
    · subst hct
      rw [← Fs.setCur, Fs.setCur_cur]
      exact hrunning rfl
    · change ((s.setTask t p).task s.current).used = true
      rw [Fs.setTask_ne s hct]
      exact h.running

/-- A change of one entry of the file table. -/
theorem setFile {e : File} (h : Balanced R s) (hf : f < nrFile)
    (hcount : e.count = (s.file f).count)
    (hrefs : ∀ i, e.refs i + R'.count i = (s.file f).refs i + R.count i) :
    Balanced R' (s.setFile f e) := by
  refine h.retable rfl rfl rfl (fun i => ?_) (fun g => ?_) h.filp h.idle h.running
  · have hsum := refs_setFile s hf e i
    have hi := hrefs i
    omega
  · have hg : ((s.setFile f e).file g).count = (s.file g).count := by
      rcases eq_or_ne g f with rfl | hne
      · rw [Fs.setFile_self, hcount]
      · rw [Fs.setFile_ne s hne]
    rw [hg]
    exact h.files g

/-- A change of one descriptor, from or to an entry of the file table whose count changes with
it. -/
theorem setFd {e : File} {x : Option ℕ} (h : Balanced R s) (ht : t < nrTasks) (hfd : fd < nrOpen)
    (hf : f < nrFile) (hold : ∀ g, (s.task t).filp fd = some g → g = f)
    (hx : ∀ g, x = some g → g = f) (hused : (s.task t).used = true)
    (hcount : e.count + indicator ((s.task t).filp fd = some f) =
      (s.file f).count + indicator (x = some f))
    (hrefs : ∀ i, e.refs i + R'.count i = (s.file f).refs i + R.count i) :
    Balanced R' ((s.setTask t ((s.task t).setFilp fd x)).setFile f e) := by
  have hholders : ∀ g, (s.setTask t ((s.task t).setFilp fd x)).holders g +
      indicator ((s.task t).filp fd = some g) = s.holders g + indicator (x = some g) := by
    intro g
    have htask := holders_setTask s ht ((s.task t).setFilp fd x) g
    have hfilp := holders_setFilp (s.task t) hfd x g
    omega
  refine h.retable rfl rfl rfl (fun i => ?_) (fun g => ?_) ?_ ?_ ?_
  · have hfile := refs_setFile (s.setTask t ((s.task t).setFilp fd x)) hf e i
    have htask := refs_setTask s ht ((s.task t).setFilp fd x) i
    have hi := hrefs i
    change _ + (s.file f).refs i = _ at hfile
    change _ = _ + (s.task t).refs i at htask
    omega
  · have hg := hholders g
    have hfiles := h.files g
    change _ = (s.setTask t ((s.task t).setFilp fd x)).holders g
    rcases eq_or_ne g f with rfl | hne
    · rw [Fs.setFile_self]
      omega
    · rw [indicator_false fun hg => hne (hold g hg), indicator_false fun hg => hne (hx g hg)] at hg
      rw [Fs.setFile_ne _ hne]
      exact hfiles.trans (by omega)
  · intro u d g hg
    change ((s.setTask t _).task u).filp d = some g at hg
    rcases eq_or_ne u t with rfl | hu
    · rw [Fs.setTask_self] at hg
      rcases eq_or_ne d fd with rfl | hd
      · rw [Task.setFilp_filp_self] at hg
        obtain rfl := hx g hg
        exact ⟨ht, hfd, hf⟩
      · rw [Task.setFilp_filp_ne _ hd] at hg
        exact h.filp u d g hg
    · rw [Fs.setTask_ne s hu] at hg
      exact h.filp u d g hg
  · intro u hu
    change ((s.setTask t _).task u).used = false at hu
    change ((s.setTask t _).task u).Null
    rcases eq_or_ne u t with rfl | hne
    · rw [Fs.setTask_self] at hu
      exact absurd (hused.symm.trans hu) (by decide)
    · rw [Fs.setTask_ne s hne] at hu ⊢
      exact h.idle u hu
  · change ((s.setTask t _).task s.current).used = true
    rcases eq_or_ne s.current t with hct | hct
    · rw [hct, Fs.setTask_self]
      exact hused
    · rw [Fs.setTask_ne s hct]
      exact h.running

end Balanced

/-! ### Programs -/

/-- A program that keeps a property of the held references and the state. -/
abbrev Keeps (P : List ℕ → Fs → Prop) {α : Type} (m : K α) (pre : List ℕ) (post : α → List ℕ) :
    Prop := Owns (fun _ : Unit => P) (fun _ e _ => e ≠ .writeNoDevice) m pre post

/-- A program that does not change the tables keeps the balance. -/
theorem Holds.balanced {α : Type} {m : K α} {pre : List ℕ} {post : α → List ℕ}
    (hm : ∀ s₀, Holds s₀ m pre post) : Keeps Balanced m pre post := by
  refine ⟨fun _ R s h => ?_⟩
  exact ((hm s).run s.refs R s ⟨h.counted, .refl s⟩).mono (fun _ _ h' => h.of_account h')
    fun _ _ he => he

end LihaLinux.Files
