import LihaLinux.Files.Attributes
import LihaLinux.Files.TableFrames

/-!
# `access` and `permission`

Both choose three bits of `i_mode` by the owner and the group of the file. `sys_access` looks at
the owner and the group after `iput`, which may write the inode and does not change them. It
shifts by 6 for the group, where `permission` shifts by 3.
-/

namespace LihaLinux.Files

/-! ### What `iput` keeps -/

/-- The running task and what an inode says of the owner are the same. -/
structure SameOwners (s₀ s : Fs) : Prop where
  cur : s.cur = s₀.cur
  owner : ∀ i, (s.inode i).uid = (s₀.inode i).uid ∧ (s.inode i).gid = (s₀.inode i).gid ∧
    (s.inode i).nlinks = (s₀.inode i).nlinks

theorem SameOwners.trans {s₀ s s' : Fs} (h : SameOwners s₀ s) (h' : SameOwners s s') :
    SameOwners s₀ s' := by
  constructor
  · exact h'.cur.trans h.cur
  · intro i
    obtain ⟨huid, hgid, hlinks⟩ := h'.owner i
    rw [huid, hgid, hlinks]
    exact h.owner i

/-- An inode is stored with the same owner, group and number of links. -/
theorem SameOwners.setInode {s : Fs} {i : ℕ} {n : MInode} (huid : n.uid = (s.inode i).uid)
    (hgid : n.gid = (s.inode i).gid) (hlinks : n.nlinks = (s.inode i).nlinks) :
    SameOwners s (s.setInode i n) := by
  refine ⟨rfl, fun j => ?_⟩
  by_cases hj : j = i
  · subst hj
    simp only [Fs.setInode, Function.update_self]
    exact ⟨huid, hgid, hlinks⟩
  · simp only [Fs.setInode, Function.update_of_ne hj, and_self]

theorem sameOwners_frame : TableFrame SameOwners where
  refl _ := ⟨rfl, fun _ => ⟨rfl, rfl, rfl⟩⟩
  trans _ _ _ h h' := h.trans h'
  same s s' h := by
    constructor
    · rw [Fs.cur, Fs.cur, h.task, h.current]
    · intro i
      rw [h.inode]
      exact ⟨rfl, rfl, rfl⟩

/-- A change of an inode that keeps the owner. -/
theorem modifyInode_owners (i : ℕ) {f : MInode → MInode}
    (hf : ∀ m, (f m).uid = m.uid ∧ (f m).gid = m.gid ∧ (f m).nlinks = m.nlinks) :
    Stays SameOwners (fun _ => True) (modifyInode i f) :=
  Stays.update sameOwners_frame fun _ =>
    SameOwners.setInode (hf _).1 (hf _).2.1 (hf _).2.2

/-- A reference more or less does not change the owner. -/
theorem addCount_owners (m : MInode) (n : ℕ) :
    (m.addCount n).uid = m.uid ∧ (m.addCount n).gid = m.gid ∧
      (m.addCount n).nlinks = m.nlinks := ⟨rfl, rfl, rfl⟩

/-- `iput` of an inode with links keeps the owner. -/
theorem iput_owners {i : ℕ} {s s' : Fs} (hlinks : (s.inode i).nlinks ≠ 0)
    (hrun : iput i s = .ok ((), s')) : SameOwners s s' := by
  have hdec : Stays SameOwners (fun _ => True) (decCount i) :=
    modifyInode_owners i fun m => addCount_owners m 65535
  have hclean : ∀ s inode, SameOwners s
      (s.setInode inode { s.inode inode with dirt := false }) :=
    fun _ _ => .setInode rfl rfl rfl
  have hfile : ∀ s, (s.inode i).nlinks ≠ 0 →
      (iputFile i).wp (fun _ s' => SameOwners s s') (fun _ _ => True) s := by
    intro s hlinks
    have hwrite : Stays SameOwners (fun _ => True) (do writeInode i; decCount i) :=
      (writeInode_stays sameOwners_frame anyPanic fun s => hclean s i).next fun _ => hdec
    rw [iputFile, Prog.wp_bind, Prog.wp_read, Prog.wp_ite, Prog.wp_ite]
    refine ⟨fun _ => ?_, fun _ => ⟨fun hzero => absurd hzero hlinks, fun _ => ?_⟩⟩
    · exact hdec.run s [] s (sameOwners_frame.refl s)
    · exact hwrite.run s [] s (sameOwners_frame.refl s)
  have hpipe : Stays SameOwners (fun _ => True)
      (modifyInode i fun m => { m with count := 0, dirt := false, pipe := false }) :=
    modifyInode_owners i fun _ => ⟨rfl, rfl, rfl⟩
  have hwp : (iput i).wp (fun _ s' => SameOwners s s') (fun _ _ => True) s := by
    rw [iput, Prog.wp_bind, Prog.wp_read, Prog.wp_ite, Prog.wp_ite, Prog.wp_ite, Prog.wp_ite,
      Prog.wp_bind]
    refine ⟨fun _ => trivial, fun _ => ⟨fun _ => ⟨fun _ => ?_, fun _ => ?_⟩, fun _ =>
      ⟨fun _ => ?_, fun _ => ?_⟩⟩⟩
    · exact hpipe.run s [] s (sameOwners_frame.refl s)
    · exact hdec.run s [] s (sameOwners_frame.refl s)
    · exact hdec.run s [] s (sameOwners_frame.refl s)
    · have hsync : Stays SameOwners (fun _ => True)
          (Prog.when (isBlk (s.inode i).mode) (syncDev ((s.inode i).zone 0))) :=
        Owns.when fun _ => syncDev_stays sameOwners_frame anyPanic hclean _
      refine (hsync.run s [] s (sameOwners_frame.refl s)).mono (fun _ s₁ h₁ => ?_)
        fun _ _ _ => trivial
      have hlinks' : (s₁.inode i).nlinks ≠ 0 := by
        rw [(h₁.owner i).2.2]
        exact hlinks
      exact (hfile s₁ hlinks').mono (fun _ s₂ h₂ => h₁.trans h₂) fun _ _ _ => trivial
  exact hwp.of_ok hrun

/-! ### The bits -/

/-- The bits of `i_mode` that `sys_access` tests. -/
def accessBits (p : Task) (m : MInode) : ℕ :=
  if p.uid = m.uid ∨ p.gid = m.gid then m.mode >>> 6 else m.mode

/-- The bits of `i_mode` that `permission` tests. -/
def permissionBits (p : Task) (m : MInode) : ℕ :=
  if p.euid = m.uid then m.mode >>> 6
  else if p.egid = m.gid then m.mode >>> 3 else m.mode

/-- Three bits include a mask. -/
def Includes (bits mask : ℕ) : Prop := bits &&& mask &&& 7 = mask

instance (bits mask : ℕ) : Decidable (Includes bits mask) := Nat.decEq _ _

/-- The higher bits of `i_mode` do not matter to `sys_access`. -/
theorem includes_mod {mode mask k : ℕ} (hk : k ≤ 6) :
    (mode % 512) >>> k &&& 7 &&& mask = mask ↔ Includes (mode >>> k) mask := by
  have hshift : (mode % 512) >>> k &&& 7 = mode >>> k &&& 7 := by
    apply Nat.eq_of_testBit_eq
    intro j
    rw [show (512 : ℕ) = 2 ^ 9 from rfl, show (7 : ℕ) = 2 ^ 3 - 1 from rfl]
    simp only [Nat.testBit_and, Nat.testBit_shiftRight, Nat.testBit_mod_two_pow,
      Nat.testBit_two_pow_sub_one]
    by_cases hj : j < 3
    · simp only [hj, decide_true, Bool.and_true, show k + j < 9 by omega, Bool.true_and]
    · simp only [hj, decide_false, Bool.and_false]
  rw [hshift, Includes, Nat.and_assoc, Nat.and_comm 7 mask, ← Nat.and_assoc]

theorem permitted_iff {p : Task} {m : MInode} {mask : ℕ} (hlinks : m.nlinks ≠ 0)
    (hroot : p.euid ≠ 0) : permitted p m mask = true ↔ Includes (permissionBits p m) mask := by
  have hnot : ¬ (m.dev ≠ 0 ∧ m.nlinks = 0) := fun h => hlinks h.2
  rw [permitted, if_neg hnot, Task.suser, decide_eq_false hroot, Bool.or_false, decide_eq_true_iff,
    Includes, permissionBits]

/-- What `sys_access` returns for a file that it has found. -/
theorem sysAccess_run {s s₁ s₂ : Fs} {filename : List ℕ} {inode : ℕ} (mask : ℕ)
    (hnamei : namei filename s = .ok (some inode, s₁)) (hiput : iput inode s₁ = .ok ((), s₂))
    (hlinks : (s₁.inode inode).nlinks ≠ 0) (hmask : mask < 8) (hroot : s₁.cur.uid ≠ 0) :
    sysAccess filename mask s =
      .ok (if Includes (accessBits s₁.cur (s₁.inode inode)) mask then .ok () else .error .EACCES,
        s₂) := by
  have hsame := iput_owners hlinks hiput
  have hmod : mask % 8 = mask := Nat.mod_eq_of_lt hmask
  have hbits : (if s₁.cur.uid = (s₁.inode inode).uid ∨ s₁.cur.gid = (s₁.inode inode).gid then
      ((s₁.inode inode).mode % 512) >>> 6 else (s₁.inode inode).mode % 512) &&& 7 &&& mask = mask ↔
      Includes (accessBits s₁.cur (s₁.inode inode)) mask := by
    rw [accessBits]
    split
    · exact includes_mod (Nat.le_refl 6)
    · exact includes_mod (k := 0) (Nat.zero_le 6)
  rw [sysAccess, withInode, Prog.bind_run hnamei]
  dsimp only
  rw [Prog.read_run, Prog.bind_run hiput, Prog.read_run, Prog.read_run, hsame.cur,
    (hsame.owner inode).1, (hsame.owner inode).2.1, hmod]
  by_cases hincl : Includes (accessBits s₁.cur (s₁.inode inode)) mask
  · rw [if_pos hincl]
    exact congrFun (if_pos (hbits.mpr hincl)) s₂
  · rw [if_neg hincl]
    exact (congrFun (if_neg (mt hbits.mp hincl)) s₂).trans
      (congrFun (if_neg fun h => hroot h.1) s₂)

/-- For a task that is not the superuser and whose real and effective numbers are the same,
`sys_access` and `permission` agree on a file if and only if the task owns the file, or is not in
its group, or the bits of the owner and of the group say the same of the mask. -/
theorem sysAccess_agrees_iff {s s₁ s₂ : Fs} {filename : List ℕ} {inode mask : ℕ}
    (hnamei : namei filename s = .ok (some inode, s₁)) (hiput : iput inode s₁ = .ok ((), s₂))
    (hlinks : (s₁.inode inode).nlinks ≠ 0) (hmask : mask < 8) (huid : s₁.cur.uid = s₁.cur.euid)
    (hgid : s₁.cur.gid = s₁.cur.egid) (hroot : s₁.cur.euid ≠ 0) :
    (sysAccess filename mask s = .ok (.ok (), s₂) ↔
        permitted s₁.cur (s₁.inode inode) mask = true) ↔
      (s₁.cur.uid = (s₁.inode inode).uid ∨ s₁.cur.gid ≠ (s₁.inode inode).gid ∨
        (Includes ((s₁.inode inode).mode >>> 6) mask ↔
          Includes ((s₁.inode inode).mode >>> 3) mask)) := by
  have hgrants : sysAccess filename mask s = .ok (.ok (), s₂) ↔
      Includes (accessBits s₁.cur (s₁.inode inode)) mask := by
    rw [sysAccess_run _ hnamei hiput hlinks hmask (huid ▸ hroot)]
    by_cases hincl : Includes (accessBits s₁.cur (s₁.inode inode)) mask
    · rw [if_pos hincl]
      exact iff_of_true rfl hincl
    · rw [if_neg hincl]
      refine iff_of_false (fun h => ?_) hincl
      injection h with h
      injection h with h
      exact absurd h (by simp)
  rw [hgrants, permitted_iff hlinks hroot, accessBits, permissionBits, ← huid, ← hgid]
  by_cases howner : s₁.cur.uid = (s₁.inode inode).uid
  · simp only [howner, true_or, if_true]
  · by_cases hgroup : s₁.cur.gid = (s₁.inode inode).gid
    · simp only [howner, hgroup, or_true, if_true, if_false, not_true_eq_false, false_or, ne_eq]
    · simp only [howner, hgroup, or_self, if_false, not_false_eq_true, true_or, or_true, ne_eq]

/-- A root directory that its group may search only, and a task of the group. -/
def groupDir : Fs :=
  { Fs.empty with
    inode := fun i => if i = 0 then
        { MInode.zero with mode := 0o040710, uid := 1, gid := 5, nlinks := 2, dev := 769, num := 1,
                           count := 2 }
      else .zero
    task := fun t => if t = 0 then
        { Task.zero with used := true, uid := 7, euid := 7, gid := 5, egid := 5, root := some 0,
                         pwd := some 0 }
      else .zero }

/-- `namei` of `/` takes a reference to the root directory. -/
def groupDirFound : Fs := groupDir.setInode 0 ((groupDir.inode 0).addCount 1)

/-- `sys_access` says that the task may read the directory, and `permission` says that it may
not. -/
theorem sysAccess_disagrees :
    ∃ s₂, namei [47] groupDir = .ok (some 0, groupDirFound) ∧
      iput 0 groupDirFound = .ok ((), s₂) ∧ (groupDirFound.inode 0).nlinks ≠ 0 ∧
      groupDirFound.cur.uid = groupDirFound.cur.euid ∧
      groupDirFound.cur.gid = groupDirFound.cur.egid ∧ groupDirFound.cur.euid ≠ 0 ∧
      sysAccess [47] 4 groupDir = .ok (.ok (), s₂) ∧
      permitted groupDirFound.cur (groupDirFound.inode 0) 4 = false := by
  have hnamei : namei [47] groupDir = .ok (some 0, groupDirFound) := rfl
  have hiput : iput 0 groupDirFound =
      .ok ((), groupDirFound.setInode 0 ((groupDirFound.inode 0).addCount 65535)) := rfl
  have hrun := sysAccess_run 4 hnamei hiput (by decide) (by decide) (by decide)
  rw [if_pos (by decide)] at hrun
  exact ⟨_, hnamei, hiput, by decide, by decide, by decide, by decide, hrun, by decide⟩

/-- Both say that the task may search the directory. -/
theorem sysAccess_agrees_search :
    ∃ s₂, sysAccess [47] 1 groupDir = .ok (.ok (), s₂) ↔
      permitted groupDirFound.cur (groupDirFound.inode 0) 1 = true := by
  have hnamei : namei [47] groupDir = .ok (some 0, groupDirFound) := rfl
  have hiput : iput 0 groupDirFound =
      .ok ((), groupDirFound.setInode 0 ((groupDirFound.inode 0).addCount 65535)) := rfl
  exact ⟨_, (sysAccess_agrees_iff hnamei hiput (by decide) (by decide) (by decide) (by decide)
    (by decide)).mpr (by decide)⟩

end LihaLinux.Files
