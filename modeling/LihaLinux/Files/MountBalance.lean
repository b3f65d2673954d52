import LihaLinux.Files.TaskBalance
import LihaLinux.Files.TableFrames

/-!
# Mounting keeps the balance

A slot of the table of super blocks has no pointers before a device is loaded into it, so
`read_super` changes no reference. `sys_mount` keeps the reference to the mount point that it
gets by the name.
-/

namespace LihaLinux.Files

variable {R R' : List ℕ} {s s' s₀ : Fs} {k dev : ℕ}

/-! ### Slots -/

/-- All but one slot of the table of super blocks is the same. -/
structure SameButSlot (k : ℕ) (s s' : Fs) : Prop where
  inode : s'.inode = s.inode
  file : s'.file = s.file
  task : s'.task = s.task
  current : s'.current = s.current
  super : ∀ j, j ≠ k → s'.super j = s.super j

/-- A slot without pointers, for a device. -/
structure Slot (dev : ℕ) (sb : SuperBlock) : Prop where
  dev : sb.dev = dev
  isup : sb.isup = none
  imount : sb.imount = none

/-- The references of a slot without pointers. -/
theorem Slot.refs_eq {sb : SuperBlock} (h : Slot dev sb) (i : ℕ) : sb.refs i = 0 := by
  rw [SuperBlock.refs, h.isup, h.imount]
  rfl

theorem SameButSlot.trans {s'' : Fs} (h : SameButSlot k s s') (h' : SameButSlot k s' s'') :
    SameButSlot k s s'' :=
  ⟨h'.inode.trans h.inode, h'.file.trans h.file, h'.task.trans h.task,
    h'.current.trans h.current, fun j hj => (h'.super j hj).trans (h.super j hj)⟩

theorem setSuper_sameBut (s : Fs) (k : ℕ) (sb : SuperBlock) : SameButSlot k s (s.setSuper k sb) :=
  ⟨rfl, rfl, rfl, rfl, fun _ hj => Fs.setSuper_ne s hj sb⟩

theorem SameInodesTables.sameBut (h : SameInodesTables s s') : SameButSlot k s s' :=
  ⟨h.inode, h.file, h.task, h.current, fun j _ => congrFun h.super j⟩

/-- The references after a change of a slot. -/
theorem SameButSlot.refs_eq (h : SameButSlot k s s') (hk : k < nrSuper) (i : ℕ) :
    s'.refs i + (s.super k).refs i = s.refs i + (s'.super k).refs i := by
  have hsuper : s'.super = (s.setSuper k (s'.super k)).super := by
    funext j
    rcases eq_or_ne j k with rfl | hj
    · exact (Fs.setSuper_self ..).symm
    · rw [Fs.setSuper_ne s hj]
      exact h.super j hj
  have hrefs : s'.refs = (s.setSuper k (s'.super k)).refs := refs_congr h.file h.task hsuper
  rw [hrefs]
  exact refs_setSuper s hk (s'.super k) i

/-- A slot gets a super block with other pointers. -/
theorem Balanced.setSlot (h : Balanced R s) (hk : k < nrSuper) (hsame : SameButSlot k s s')
    (hrefs : ∀ i, (s'.super k).refs i + R'.count i = (s.super k).refs i + R.count i)
    (hfree : (s'.super k).dev = 0 → (s'.super k).isup = none ∧ (s'.super k).imount = none)
    (hmounted : ∀ i, (s.inode i).dev = (s.super k).dev → (s.inode i).dev ≠ 0 →
      s.refs i + R.count i ≠ 0 → Mounted s'.super (s.inode i).dev) : Balanced R' s' := by
  have hsum : ∀ i, s'.refs i + R'.count i = s.refs i + R.count i := by
    intro i
    have hi := hsame.refs_eq hk i
    have hri := hrefs i
    omega
  refine ⟨⟨fun i hne => ?_, fun i => ?_, fun i hdev hzero => ?_, fun i hdev hne => ?_,
    fun j hj i hmount => refs_mounted hj hmount⟩, fun f => ?_, ?_, ?_, fun j hj => ?_, ?_, ?_⟩
  · rw [hsum] at hne
    exact h.counted.bound i hne
  · rw [hsame.inode, hsum]
    exact h.counted.count i
  · rw [hsame.inode] at hdev ⊢
    rw [hsum] at hzero
    exact h.counted.clean i hdev hzero
  · rw [hsame.inode] at hdev ⊢
    rw [hsum] at hne
    obtain ⟨j, hj, hjdev⟩ := h.counted.mounted i hdev hne
    rcases eq_or_ne j k with rfl | hjk
    · exact hmounted i hjdev.symm hdev hne
    · exact ⟨j, hj, (congrArg SuperBlock.dev (hsame.super j hjk)).trans hjdev⟩
  · rw [Fs.holders, hsame.file, hsame.task]
    exact h.files f
  · rw [hsame.task]
    exact h.filp
  · rw [hsame.task]
    exact h.idle
  · rcases eq_or_ne j k with rfl | hjk
    · exact hfree hj
    · rw [hsame.super j hjk] at hj ⊢
      exact h.free j hj
  · rw [hsame.current]
    exact h.current
  · rw [Fs.cur, hsame.task, hsame.current]
    exact h.running

/-- A slot that is not in use has no pointers. -/
theorem Balanced.freeSlot (h : Balanced R s) (hold : (s.super k).dev = 0) :
    Slot 0 (s.super k) := ⟨hold, (h.free k hold).1, (h.free k hold).2⟩

/-! ### Loading a super block -/

theorem sameInodesTables_frame : TableFrame SameInodesTables where
  refl _ := ⟨rfl, rfl, rfl, rfl, rfl⟩
  trans _ _ _ h h' := ⟨h'.inode.trans h.inode, h'.super.trans h.super, h'.file.trans h.file,
    h'.task.trans h.task, h'.current.trans h.current⟩
  same _ _ h := h

/-- A slot that is being filled for a device, in a table that was `s₀`. -/
structure Loading (k dev : ℕ) (s₀ : Fs) (R : List ℕ) (s : Fs) : Prop where
  same : SameButSlot k s₀ s
  slot : Slot dev (s.super k)
  balanced : Balanced R s

/-- A program that works on a slot that is being filled. -/
abbrev Loads (k dev : ℕ) {α : Type} (m : K α) : Prop :=
  Owns (Loading k dev) (fun _ e _ => e ≠ .writeNoDevice) m [] fun _ => []

/-- A program on buffers. -/
theorem Loads.of_buffers {α : Type} {m : K α} (hholds : ∀ s₀, Holds s₀ m [] fun _ => [])
    (hstays : Stays SameInodesTables (fun _ => True) m) : Loads k dev m := by
  refine ⟨fun s₀ R s h => ?_⟩
  have hkeeps := (Holds.balanced hholds).run () R s h.balanced
  have hsame := hstays.run s [] s (sameInodesTables_frame.refl s)
  refine (hkeeps.and hsame).mono (fun _ s' h' => ?_) fun _ _ he => he.1
  refine ⟨h.same.trans h'.2.sameBut, ?_, h'.1⟩
  rw [h'.2.super]
  exact h.slot

theorem bread_loads (device block : ℕ) : Loads k dev (bread device block) :=
  .of_buffers (fun _ => bread_holds ..) (bread_stays sameInodesTables_frame anyPanic ..)

theorem brelse_loads (bh : Bh) : Loads k dev (brelse bh) :=
  .of_buffers (fun _ => brelse_holds bh) (brelse_stays sameInodesTables_frame anyPanic bh)

theorem breadAll_loads (device n block : ℕ) : Loads k dev (breadAll device n block) := by
  induction n generalizing block with
  | zero => exact Owns.pure rfl
  | succ n ih =>
    apply (bread_loads device block).next
    intro bh
    cases bh with
    | none => exact Owns.pure rfl
    | some bh => exact (ih (block + 1)).next fun bhs => Owns.pure rfl

theorem brelseAll_loads (bhs : List Bh) : Loads k dev (brelseAll bhs) := by
  induction bhs with
  | nil => exact Owns.pure rfl
  | cons bh bhs ih => exact (brelse_loads bh).next fun _ => ih

/-- The fields of the slot that are read from the device. -/
theorem load_loads (hk : k < nrSuper) (hdev : dev ≠ 0) (d : ℕ → ℕ) :
    Loads k dev (modifySuper k fun sb => sb.load d) := by
  refine ⟨fun s₀ R s h => ?_⟩
  have hslot : Slot dev ((s.setSuper k ((s.super k).load d)).super k) := by
    rw [Fs.setSuper_self]
    exact ⟨h.slot.dev, h.slot.isup, h.slot.imount⟩
  refine ⟨h.same.trans (setSuper_sameBut ..), hslot, ?_⟩
  refine h.balanced.setSlot hk (setSuper_sameBut ..) (fun i => ?_) (fun hzero => ?_)
    fun i hi _ _ => ⟨k, hk, ?_⟩
  · rw [hslot.refs_eq, h.slot.refs_eq]
  · exact absurd (hslot.dev.symm.trans hzero) hdev
  · rw [hslot.dev, hi, h.slot.dev]

/-- What is known after `read_super` has looked at a slot. -/
structure Filled (k dev : ℕ) (s₀ : Fs) (R : List ℕ) (r : Option ℕ) (s : Fs) : Prop where
  same : SameButSlot k s₀ s
  balanced : Balanced R s
  slot : r ≠ none → r = some k ∧ Slot dev (s.super k)

/-- The slot is given up. -/
theorem dropSuper_wp (hk : k < nrSuper) (h₀ : Balanced R s₀)
    (hnew : ∀ j, j < nrSuper → (s₀.super j).dev ≠ dev) (hold : (s₀.super k).dev = 0)
    (h : Loading k dev s₀ R s) :
    (dropSuper k).wp (fun r s' => Filled k dev s₀ R r s') (fun e _ => e ≠ .writeNoDevice) s := by
  have hslot : Slot 0 ((s.setSuper k { s.super k with dev := 0 }).super k) := by
    rw [Fs.setSuper_self]
    exact ⟨rfl, h.slot.isup, h.slot.imount⟩
  have hrefs : ∀ i, s.refs i = s₀.refs i := by
    intro i
    have hi := h.same.refs_eq hk i
    rwa [h.slot.refs_eq, (h₀.freeSlot hold).refs_eq, Nat.add_zero, Nat.add_zero] at hi
  refine ⟨h.same.trans (setSuper_sameBut ..), ?_, fun hne => absurd rfl hne⟩
  refine h.balanced.setSlot hk (setSuper_sameBut ..) (fun i => ?_)
    (fun _ => ⟨hslot.isup, hslot.imount⟩) fun i hi hne hcount => ?_
  · rw [hslot.refs_eq, h.slot.refs_eq]
  · rw [h.same.inode] at hi hne
    rw [hrefs] at hcount
    obtain ⟨j, hj, hjdev⟩ := h₀.counted.mounted i hne hcount
    exact absurd (hjdev.trans (hi.trans h.slot.dev)) (hnew j hj)

theorem loadSuper_wp (h : Balanced R s) (hk : k < nrSuper) (hdev : dev ≠ 0)
    (hnew : ∀ j, j < nrSuper → (s.super j).dev ≠ dev) (hold : (s.super k).dev = 0) :
    (loadSuper dev k).wp (fun r s' => Filled k dev s R r s') (fun e _ => e ≠ .writeNoDevice)
      s := by
  have hslot : Slot dev ((s.setSuper k { s.super k with dev, isup := none, imount := none }).super
      k) := by
    rw [Fs.setSuper_self]
    exact ⟨rfl, rfl, rfl⟩
  have hstart : Loading k dev s R
      (s.setSuper k { s.super k with dev, isup := none, imount := none }) := by
    refine ⟨setSuper_sameBut .., hslot, h.setSlot hk (setSuper_sameBut ..) (fun i => ?_)
      (fun hzero => ?_) fun i hi hne _ => ?_⟩
    · rw [hslot.refs_eq, (h.freeSlot hold).refs_eq]
    · exact absurd (hslot.dev.symm.trans hzero) hdev
    · exact absurd (hi.trans hold) hne
  have hdrop := fun s' (h' : Loading k dev s R s') => dropSuper_wp hk h hnew hold h'
  rw [loadSuper, Prog.wp_bind, modifySuper, Prog.wp_update]
  refine ((bread_loads dev 1).run s R _ hstart).bind fun bh s₁ h₁ => ?_
  cases bh with
  | none => exact hdrop s₁ h₁
  | some bh =>
    dsimp only
    rw [Prog.wp_bind, Prog.wp_read]
    refine ((load_loads hk hdev (s₁.data bh)).run s R s₁ h₁).bind fun _ s₂ h₂ => ?_
    refine ((brelse_loads bh).run s R s₂ h₂).bind fun _ s₃ h₃ => ?_
    rw [Prog.wp_ite]
    refine ⟨fun _ => hdrop s₃ h₃, fun _ => ?_⟩
    rw [Prog.wp_bind, Prog.wp_read]
    refine ((breadAll_loads dev _ 2).run s R s₃ h₃).bind fun imap s₄ h₄ => ?_
    refine ((breadAll_loads dev _ _).run s R s₄ h₄).bind fun zmap s₅ h₅ => ?_
    rw [Prog.wp_ite]
    refine ⟨fun _ => ?_, fun _ => ?_⟩
    · refine ((brelseAll_loads imap).run s R s₅ h₅).bind fun _ s₆ h₆ => ?_
      exact ((brelseAll_loads zmap).run s R s₆ h₆).bind fun _ s₇ h₇ => hdrop s₇ h₇
    · rw [Prog.wp_bind, Prog.wp_update, Prog.wp_pure]
      refine ⟨h₅.same.trans ⟨rfl, rfl, rfl, rfl, fun _ _ => rfl⟩, ?_, fun _ => ⟨rfl, h₅.slot⟩⟩
      exact h₅.balanced.congr rfl ⟨rfl, rfl, rfl, rfl⟩

theorem findSuper_none {super : ℕ → SuperBlock} {n j : ℕ} (h : findSuper super dev n 0 = none)
    (hj : j < n) : (super j).dev ≠ dev := by
  intro hdev
  have hlt : j < 0 + n := by omega
  have hsome := findSuper_isSome (Nat.zero_le j) hlt hdev
  rw [h] at hsome
  exact absurd hsome (by decide)

/-- What `read_super` finds is a slot for the device, which has no pointers if the device was not
mounted. -/
structure SuperRead (dev : ℕ) (s₀ : Fs) (R : List ℕ) (r : Option ℕ) (s : Fs) : Prop where
  tables : s.file = s₀.file ∧ s.task = s₀.task ∧ s.current = s₀.current
  balanced : Balanced R s
  found : ∀ k, r = some k → k < nrSuper ∧ (s.super k).dev = dev ∧ dev ≠ 0
  fresh : ∀ k, r = some k → (∀ j, j < nrSuper → (s₀.super j).dev ≠ dev) → Slot dev (s.super k)

/-- Without a result of `read_super`. -/
theorem Balanced.superRead (h : Balanced R s) : SuperRead dev s R none s :=
  ⟨⟨rfl, rfl, rfl⟩, h, fun _ hk => absurd hk (by simp), fun _ hk => absurd hk (by simp)⟩

theorem readSuper_wp (h : Balanced R s) (dev : ℕ) :
    (readSuper dev).wp (fun r s' => SuperRead dev s R r s') (fun e _ => e ≠ .writeNoDevice) s := by
  rw [readSuper, Prog.wp_ite]
  refine ⟨fun _ => h.superRead, fun hdev => ?_⟩
  rw [Prog.wp_bind, Prog.wp_read]
  cases hfind : findSuper s.super dev nrSuper 0 with
  | some k =>
    obtain ⟨-, hlt, hk⟩ := findSuper_spec hfind
    have hlt : k < nrSuper := by omega
    dsimp only
    rw [Prog.wp_pure]
    refine ⟨⟨rfl, rfl, rfl⟩, h, fun k' hk' => ?_, fun k' hk' hnew => ?_⟩
    · cases hk'
      exact ⟨hlt, hk, hdev⟩
    · exact absurd hk (hnew k hlt)
  | none =>
    dsimp only
    rw [Prog.wp_bind, Prog.wp_read]
    cases hfree : findSuper s.super 0 nrSuper 0 with
    | none => exact h.superRead
    | some k =>
      obtain ⟨-, hlt, hk⟩ := findSuper_spec hfree
      have hlt : k < nrSuper := by omega
      refine (loadSuper_wp h hlt hdev (fun j => findSuper_none hfind) hk).mono
        (fun r s' h' => ?_) fun _ _ he => he
      have hslot : ∀ k', r = some k' → k' = k ∧ Slot dev (s'.super k) := by
        rintro k' rfl
        obtain ⟨heq, hslot⟩ := h'.slot (by simp)
        exact ⟨Option.some.inj heq, hslot⟩
      refine ⟨⟨h'.same.file, h'.same.task, h'.same.current⟩, h'.balanced, fun k' hk' => ?_,
        fun k' hk' _ => ?_⟩
      · obtain ⟨rfl, hslot⟩ := hslot k' hk'
        exact ⟨hlt, hslot.dev, hdev⟩
      · obtain ⟨rfl, hslot⟩ := hslot k' hk'
        exact hslot

/-! ### `mount` -/

/-- An inode that has references is changed apart from its count and its device. -/
theorem Balanced.setInode {i : ℕ} {n : MInode} (h : Balanced R s) (hi : s.refs i + R.count i ≠ 0)
    (hcount : n.count = (s.inode i).count) (hdev : n.dev = (s.inode i).dev) :
    Balanced R (s.setInode i n) := by
  refine h.of_account ⟨?_, setInode_sameTables s i n⟩
  refine h.counted.setInode (fun _ _ => rfl) (h.counted.bound i) (hcount.trans (h.counted.count i))
    (fun _ hzero => absurd hzero hi) fun hne hsum => ?_
  rw [hdev] at hne ⊢
  exact h.counted.mounted i hne hsum

theorem mountOn_keeps (dev dir : ℕ) : Keeps Balanced (mountOn dev dir) [dir] fun _ => [] := by
  have hrefuse : ∀ e, Keeps Balanced (refuse dir e) [dir] fun _ => [] := fun e =>
    Holds.balanced fun _ => iput_last _ rfl
  refine (Owns.read _).next fun m => Owns.ite (fun _ => hrefuse _) fun _ => ?_
  refine Owns.ite (fun _ => hrefuse _) fun _ => ⟨fun _ R s h => ?_⟩
  refine (readSuper_wp h dev).bind fun r s₁ h₁ => ?_
  cases r with
  | none => exact (hrefuse _).run () R s₁ h₁.balanced
  | some k =>
    obtain ⟨hk, hkdev, hdev⟩ := h₁.found k rfl
    dsimp only
    rw [Prog.wp_bind, Prog.wp_read, Prog.wp_bind, Prog.wp_read, Prog.wp_ite, Prog.wp_ite]
    refine ⟨fun _ => (hrefuse _).run () R s₁ h₁.balanced, fun hnone =>
      ⟨fun _ => (hrefuse _).run () R s₁ h₁.balanced, fun _ => ?_⟩⟩
    have hnone : (s₁.super k).imount = none := not_not.mp hnone
    rw [Prog.wp_bind, modifySuper, Prog.wp_update, Prog.wp_bind, modifyInode, Prog.wp_update,
      Prog.wp_pure]
    have hsuper : Balanced R (s₁.setSuper k { s₁.super k with imount := some dir }) := by
      refine h₁.balanced.setSlot hk (setSuper_sameBut ..) (fun i => ?_) (fun hzero => ?_)
        fun i hi _ _ => ⟨k, hk, ?_⟩
      · have hcount := count_toList (some dir) i
        have hnot : ¬(none : Option ℕ) = some i := by simp
        rw [Option.toList_some] at hcount
        simp only [Fs.setSuper_self, SuperBlock.refs, hnone, List.count_append, hcount,
          indicator_false hnot]
        omega
      · rw [Fs.setSuper_self] at hzero
        exact absurd (hkdev.symm.trans hzero) hdev
      · rw [Fs.setSuper_self, hi]
    refine hsuper.setInode ?_ rfl rfl
    have hne := refs_mounted (s := s₁.setSuper k { s₁.super k with imount := some dir })
      (i := dir) hk (by rw [Fs.setSuper_self])
    omega

/-- The device of a name. -/
theorem nameDevice_keeps (devName : List ℕ) (e : Errno) :
    Keeps Balanced (nameDevice devName e) [] fun _ => [] := by
  refine Owns.bind (Holds.balanced fun _ => namei_holds devName) fun inode => ?_
  cases inode with
  | none => exact Owns.pure rfl
  | some inode =>
    refine (Owns.read _).next fun m => ?_
    exact (Holds.balanced fun _ => iput_holds inode).bind fun _ => Owns.pure rfl

theorem sysMount_keeps (devName dirName : List ℕ) :
    Keeps Balanced (sysMount devName dirName) [] fun _ => [] := by
  refine (nameDevice_keeps ..).next fun r => ?_
  cases r with
  | error e => exact Owns.pure rfl
  | ok dev =>
    refine Owns.bind (Holds.balanced fun _ => namei_holds dirName) fun dir => ?_
    cases dir with
    | none => exact Owns.pure rfl
    | some dir => exact mountOn_keeps dev dir

/-! ### The root device -/

/-- The tables before `mount_root`: nothing is in use but the running task, which has no
pointers. -/
structure Booting (s : Fs) : Prop where
  inode : ∀ i, s.inode i = .zero
  super : ∀ k, s.super k = .zero
  file : ∀ f, (s.file f).count = 0
  task : ∀ t, (s.task t).Null
  current : s.current < nrTasks
  running : s.cur.used = true

/-- Nothing refers to anything. -/
theorem Booting.balanced (h : Booting s) : Balanced [] s := by
  have hrefs : ∀ i, s.refs i = 0 := by
    intro i
    have hfile : ∀ f, (s.file f).refs i = 0 := fun f => indicator_false fun he => he.1 (h.file f)
    have htask : ∀ t, (s.task t).refs i = 0 := fun t => (h.task t).refs_eq i
    have hsuper : ∀ k, (s.super k).refs i = 0 := by
      intro k
      have hslot : Slot 0 (s.super k) := by
        rw [h.super]
        exact ⟨rfl, rfl, rfl⟩
      exact hslot.refs_eq i
    simp only [Fs.refs, hfile, htask, hsuper, Finset.sum_const_zero, Nat.add_zero]
  refine ⟨⟨fun i hne => ?_, fun i => ?_, fun i hne => ?_, fun i hne => ?_, fun k _ j hj => ?_⟩,
    fun f => ?_, fun t fd f hf => ?_, fun t _ => h.task t, fun k _ => ?_, h.current, h.running⟩
  · rw [hrefs, List.count_nil] at hne
    exact absurd rfl hne
  · rw [hrefs, h.inode, List.count_nil]
    rfl
  · rw [h.inode] at hne
    exact absurd rfl hne
  · rw [h.inode] at hne
    exact absurd rfl hne
  · rw [h.super] at hj
    exact absurd hj (by simp [SuperBlock.zero])
  · have hholders : ∀ t, (s.task t).holders f = 0 := fun t => (h.task t).holders_eq f
    simp only [Fs.holders, hholders, Finset.sum_const_zero, h.file f]
  · rw [(h.task t).filp] at hf
    exact absurd hf (by simp)
  · rw [h.super]
    exact ⟨rfl, rfl⟩

/-- Three more references to an inode. -/
theorem Balanced.addThree {i : ℕ} (h : Balanced [i] s) :
    Balanced [i, i, i, i] (s.setInode i ((s.inode i).addCount 3)) := by
  have hcount := h.counted.count i
  have hle := refs_lt s i
  refine h.of_account ⟨h.counted.setInode (fun j hj => ?_) (fun _ => h.counted.bound i ?_) ?_
    (fun _ hzero => ?_) fun hne _ => h.counted.mounted i hne ?_, setInode_sameTables ..⟩
  · simp only [count_cons_ne _ hj]
  · simp only [List.count_cons_self]
    omega
  · simp only [MInode.addCount, List.count_cons_self, List.count_nil] at hcount ⊢
    omega
  · simp only [List.count_cons_self] at hzero
    omega
  · simp only [List.count_cons_self]
    omega

/-- The root inode becomes the root of the device, its mount point and the two directories of
the running task. -/
theorem Balanced.rootPointers {mi : ℕ} (h : Balanced [mi, mi, mi, mi] s) (hk : k < nrSuper)
    (hslot : Slot dev (s.super k)) (hdev : dev ≠ 0) (hcur : s.cur.Null) :
    Balanced [] ((s.setSuper k { s.super k with isup := some mi, imount := some mi }).setCur
      { s.cur with pwd := some mi, root := some mi }) := by
  have hself := Fs.setSuper_self s k { s.super k with isup := some mi, imount := some mi }
  have hsuper : Balanced [mi, mi]
      (s.setSuper k { s.super k with isup := some mi, imount := some mi }) := by
    refine h.setSlot hk (setSuper_sameBut ..) (fun i => ?_) (fun hzero => ?_)
      fun i hi _ _ => ⟨k, hk, ?_⟩
    · have hcount := count_toList (some mi) i
      rw [hslot.refs_eq, hself]
      simp only [SuperBlock.refs, Option.toList_some, List.count_cons, List.count_nil] at hcount ⊢
      omega
    · rw [hself] at hzero
      exact absurd (hslot.dev.symm.trans hzero) hdev
    · rw [hself]
      exact hi.symm
  refine hsuper.setTask hsuper.current (fun i => ?_) (fun f => rfl) (fun fd f hf => ?_)
    (fun hused => ?_) fun _ => hsuper.running
  · have hcount := count_toList (some mi) i
    have hnone : indicator ((none : Option ℕ) = some i) = 0 := indicator_false (by simp)
    change Task.refs _ i + _ = s.cur.refs i + _
    rw [hcur.refs_eq]
    simp only [Task.refs, hcur.executable, hnone, Option.toList_some, List.count_cons,
      List.count_nil] at hcount ⊢
    omega
  · exact absurd ((hcur.filp fd).symm.trans hf) (by simp)
  · exact absurd (hsuper.running.symm.trans hused) (by decide)

/-- After `mount_root` the root inode has four references. -/
theorem mountRoot_wp (h : Booting s) (rootDev : ℕ) :
    (mountRoot rootDev).wp (fun _ s' => Balanced [] s') (fun _ _ => True) s := by
  rw [mountRoot]
  refine ((readSuper_wp h.balanced rootDev).mono (fun _ _ h' => h') fun _ _ _ => trivial).bind
    fun r s₁ h₁ => ?_
  cases r with
  | none => trivial
  | some k =>
    obtain ⟨hk, hkdev, hdev⟩ := h₁.found k rfl
    have hslot : Slot rootDev (s₁.super k) := by
      apply h₁.fresh k rfl
      intro j _
      rw [h.super]
      exact hdev.symm
    have hholds : Holds s₁ (iget rootDev rootIno) [] fun i => [i] :=
      iget_holds fun _ => ⟨k, hk, hkdev⟩
    have higet := hholds.run s₁.refs [] s₁ ⟨h₁.balanced.counted, .refl s₁⟩
    refine (higet.mono (fun _ _ h' => h') fun _ _ _ => trivial).bind fun mi s₂ h₂ => ?_
    have hroot := (h₁.balanced.of_account h₂).addThree
    have hslot₂ : Slot rootDev (s₂.super k) := by
      rw [h₂.2.super]
      exact hslot
    have hcur : s₂.cur.Null := by
      rw [Fs.cur, h₂.2.task, h₁.tables.2.1]
      exact h.task s₂.current
    rw [Prog.wp_bind, modifyInode, Prog.wp_update, Prog.wp_bind, modifySuper, Prog.wp_update,
      modifyCur, Prog.wp_update]
    exact hroot.rootPointers hk hslot₂ hdev hcur

end LihaLinux.Files
