import LihaLinux.Fs.Frames

/-!
# One step and the slots of the inode table

`iget` takes a spare slot before it searches the table. The steps of the calls change the
identity of a slot in two places only: `get_empty_inode` clears a slot that is not in use, and
`iget` fills its spare slot with an inode that it has not found. Everything else leaves the
spare slots of the other calls alone.
-/

namespace LihaLinux.Fs

/-! ### The searches -/

/-- A slot that is replaced by one of the same inode. -/
theorem Tables.setInode_identity (w : Tables) (j : ℕ) {n : MInode} (hdev : n.dev = (w.inode j).dev)
    (hnum : n.num = (w.inode j).num) (i : ℕ) :
    ((w.setInode j n).inode i).dev = (w.inode i).dev ∧
      ((w.setInode j n).inode i).num = (w.inode i).num := by
  rw [setInode_apply]
  split_ifs with hij
  · rw [hij]
    exact ⟨hdev, hnum⟩
  · exact ⟨rfl, rfl⟩

/-- The file system mounted on an inode. -/
theorem Tables.findMount_some {w : Tables} {i k : ℕ} (h : w.findMount i = some k) :
    (w.super k).imount = some i := by
  simpa using List.find?_some h

/-- If nothing is found, no slot has the inode. -/
theorem Tables.findInode_none {w : Tables} {dev nr : ℕ} (h : w.findInode dev nr = none) {i : ℕ}
    (hi : i < nrInode) (hdev : (w.inode i).dev = dev) : (w.inode i).num ≠ nr := by
  simp only [Tables.findInode, List.find?_eq_none, List.mem_range, decide_eq_true_eq,
    not_and] at h
  exact h i hi hdev

/-- No inode is in two slots. -/
def Tables.Unique (w : Tables) : Prop :=
  ∀ i < nrInode, ∀ j < nrInode, (w.inode i).dev ≠ 0 → (w.inode i).dev = (w.inode j).dev →
    (w.inode i).num = (w.inode j).num → i = j

/-- A slot can be cleared, or get an inode that is in no slot. -/
theorem Tables.Unique.setInode {w : Tables} (h : w.Unique) (k : ℕ) {n : MInode}
    (hn : n.dev = 0 ∨ ∀ j < nrInode, (w.inode j).dev = n.dev → (w.inode j).num ≠ n.num) :
    (w.setInode k n).Unique := by
  intro i hilt j hjlt hdev hij hij'
  rw [setInode_apply] at hdev hij hij'
  rw [setInode_apply] at hij hij'
  by_cases hi : i = k <;> by_cases hj : j = k
  · rw [hi, hj]
  · rw [if_pos hi] at hdev hij hij'
    rw [if_neg hj] at hij hij'
    exact absurd hij'.symm (hn.resolve_left hdev j hjlt hij.symm)
  · rw [if_neg hi] at hdev hij hij'
    rw [if_pos hj] at hij hij'
    rw [hij] at hdev
    exact absurd hij' (hn.resolve_left hdev i hilt hij)
  · rw [if_neg hi] at hdev hij hij'
    rw [if_neg hj] at hij hij'
    exact h i hilt j hjlt hdev hij hij'

/-! ### Calls of `iget` -/

/-- The spare slot of a call of `iget`. -/
def Frame.spare : Frame → Option ℕ
  | .igetSearch _ _ empty | .igetWait _ _ empty _ | .igetCross _ empty => some empty
  | _ => none

/-- `iget` looks for inodes of a device. -/
def Frame.Device (super : ℕ → SuperBlock) : Frame → Prop
  | .igetEmpty dev _ | .igetSearch dev _ _ | .igetWait dev _ _ _ => dev ≠ 0
  | .igetCross k _ => (super k).dev ≠ 0
  | _ => True

/-- A resumed `iget` looks for the same inode. -/
theorem Frame.Device.resume {super : ℕ → SuperBlock} {f : Frame} (v : Option ℕ)
    (h : f.Device super) : (f.resume v).Device super := by
  unfold Frame.resume
  split
  all_goals try split
  all_goals exact h

/-- A step does not change the super blocks. -/
theorem Frame.exec_super {w w' : Tables} {ch : Choice} {f : Frame} {n : Next}
    (h : f.exec w ch = some (w', n)) : w'.super = w.super := by
  replace h := Frame.exec_rule h
  cases h
  all_goals
    rfl

/-- A step of `iget` looks for inodes of a device. -/
theorem Frame.exec_device {w w' : Tables} {ch : Choice} {f : Frame} {n : Next}
    (h : f.exec w ch = some (w', n)) (hf : f.Device w.super)
    (hmount : ∀ k i, (w.super k).imount = some i → (w.super k).dev ≠ 0) :
    ∀ g ∈ n.frames, g.Device w.super := by
  replace h := Frame.exec_rule h
  cases h
  all_goals
    simp only [Next.frames, List.forall_mem_cons, List.not_mem_nil, false_imp_iff, implies_true,
      and_true, Frame.Device]
  · exact ⟨trivial, by assumption⟩
  · exact hf
  · exact hf
  · exact ⟨trivial, hmount _ _ (Tables.findMount_some (by assumption))⟩
  · exact hf

/-- A step leaves the identity of all slots alone, or it is the end of `get_empty_inode` with a
slot that is not in use, or `iget` fills its spare slot with an inode that is in no slot. -/
theorem Frame.exec_identity {w w' : Tables} {ch : Choice} {f : Frame} {n : Next}
    (h : f.exec w ch = some (w', n)) (hf : f.frees = false) :
    (∀ i, (w'.inode i).dev = (w.inode i).dev ∧ (w'.inode i).num = (w.inode i).num) ∨
      (∃ i, f = .emptyWait i ∧ (w.inode i).count = 0 ∧
        w' = w.setInode i { MInode.zero with count := 1 } ∧ n = .ret (some i)) ∨
      ∃ dev nr empty, f = .igetSearch dev nr empty ∧ w.findInode dev nr = none ∧
        w' = w.setInode empty { w.inode empty with dev := dev, num := nr } ∧
        n = .call (.igetRead empty) (.readInode empty) := by
  replace h := Frame.exec_rule h
  cases h
  all_goals
    simp only [Frame.frees, Bool.true_eq_false] at hf
  all_goals
    first
      | exact .inl fun _ => ⟨rfl, rfl⟩
      | left
        intro j
        simp only [Tables.setInode_apply, Tables.withCache, MInode.load]
        split_ifs with hj
        · subst hj
          simp only [MInode.inc_identity, MInode.dec_identity, and_self]
        · simp only [and_self]
      | exact .inr (.inl ⟨_, rfl, by assumption, rfl, rfl⟩)
      | exact .inr (.inr ⟨_, _, _, rfl, by assumption, rfl, rfl⟩)

/-- A step leaves a slot alone that is in use without a device and that it has no reference
to. -/
theorem Frame.exec_unused {w w' : Tables} {ch : Choice} {f : Frame} {n : Next} {e : ℕ}
    (h : f.exec w ch = some (w', n)) (hf : f.frees = false) (hdevice : f.Device w.super)
    (he : e ∉ f.inodes) (hdev : (w.inode e).dev = 0) (hcount : (w.inode e).count ≠ 0) :
    (w'.inode e).count = (w.inode e).count ∧ (w'.inode e).dev = 0 := by
  replace h := Frame.exec_rule h
  cases h
  all_goals
    simp only [Frame.frees, Bool.true_eq_false] at hf
  all_goals
    simp only [Frame.inodes, List.mem_singleton] at he
    simp only [Frame.Device] at hdevice
    simp only [Tables.setInode_apply, Tables.withCache, MInode.load]
    try split_ifs
  all_goals
    first
      | exact ⟨rfl, hdev⟩
      | simp_all

/-- While `iget` goes on with its spare slot, its steps leave the slot alone. -/
theorem Frame.exec_spare {w w' : Tables} {ch : Choice} {f g : Frame} {n : Next} {e : ℕ}
    (h : f.exec w ch = some (w', n)) (hdevice : f.Device w.super) (hg : g ∈ n.frames)
    (he : g.spare = some e) :
    f.spare = some e ∧ ((w.inode e).dev = 0 →
      (w'.inode e).count = (w.inode e).count ∧ (w'.inode e).dev = 0) := by
  replace h := Frame.exec_rule h
  cases h
  all_goals
    simp only [Next.frames, List.mem_cons, List.not_mem_nil, or_false] at hg
  all_goals
    simp only [Frame.Device] at hdevice
    rcases hg with rfl | rfl <;> simp only [Frame.spare, reduceCtorEq] at he
  all_goals
    simp only [Option.some.injEq] at he
    subst he
    simp only [Frame.spare, Tables.setInode_apply, true_and]
    intro hdev
    try split_ifs
  all_goals simp_all

/-- A resumed `iget` goes on with its spare slot, or has just got one. -/
theorem Frame.resume_spare {g : Frame} {v : Option ℕ} {e : ℕ} (h : (g.resume v).spare = some e) :
    g.spare = some e ∨ ∃ dev nr, g = .igetEmpty dev nr ∧ v = some e := by
  cases g
  case igetEmpty dev nr =>
    cases v with
    | none => cases h
    | some e' => exact .inr ⟨dev, nr, rfl, h⟩
  all_goals exact .inl h

/-- The end of `get_empty_inode` leaves a slot that is in use without a device. -/
theorem Frame.exec_empty {w w' : Tables} {ch : Choice} {f : Frame} {v : Option ℕ}
    (h : f.exec w ch = some (w', .ret v)) (hf : f = .emptyPick ∨ ∃ i, f = .emptyWait i) :
    ∃ i, f = .emptyWait i ∧ v = some i ∧ w'.inode i = { MInode.zero with count := 1 } := by
  rcases hf with rfl | ⟨i, rfl⟩
  · cases Frame.exec_rule h
  · cases Frame.exec_rule h
    exact ⟨i, rfl, rfl, by simp [Tables.setInode_apply]⟩

/-- `iget` calls `get_empty_inode`. -/
def EmptyCalled (f g : Frame) : Prop := ∀ dev nr, g = .igetEmpty dev nr →
  f = .emptyPick ∨ ∃ i, f = .emptyWait i

/-- A step keeps `get_empty_inode` above the `iget` that has called it. -/
theorem Frame.exec_emptyCalled {w w' : Tables} {ch : Choice} {f : Frame} {n : Next}
    {rest : List Frame} (h : f.exec w ch = some (w', n))
    (hs : List.IsChain EmptyCalled (f :: rest)) :
    List.IsChain EmptyCalled (FsSystem.stackAfter rest n) := by
  apply isChain_stackAfter _ _ _ hs
  · intro g v g' hg dev nr hg'
    rcases hg dev nr hg' with rfl | ⟨i, rfl⟩
    · exact .inl rfl
    · exact .inr ⟨i, rfl⟩
  · intro f' hf' g hg dev nr hg'
    rcases hg dev nr hg' with rfl | ⟨i, rfl⟩
    · cases Frame.exec_rule h
      cases hf'
      exact .inr ⟨_, rfl⟩
    · cases Frame.exec_rule h <;> cases hf'
      · exact .inr ⟨_, rfl⟩
      · exact .inl rfl
  · rintro f' callee rfl dev nr rfl
    cases Frame.exec_rule h
    exact .inl rfl

/-- A step keeps `i_count` a sixteen-bit counter. -/
theorem Frame.exec_inodeCount_lt {w w' : Tables} {ch : Choice} {f : Frame} {n : Next}
    (h : f.exec w ch = some (w', n)) (hw : ∀ i, (w.inode i).count < 65536) (i : ℕ) :
    (w'.inode i).count < 65536 := by
  have hi := hw i
  replace h := Frame.exec_rule h
  cases h
  all_goals
    try simp only [Tables.setInode_apply, Tables.withCache, MInode.load_count, MInode.inc_count,
      MInode.dec_count, MInode.zero, apply_ite MInode.count]
    try split_ifs
  all_goals
    try subst_vars
    omega

end LihaLinux.Fs
