import LihaLinux.Fs.CacheRuns
import LihaLinux.Fs.InodeSteps

/-!
# The inode table in every run

`iget` takes a spare slot before it searches the table, and may sleep between the two. As long
as `i_count` counts all references to a slot, the spare slot stays unused until `iget` fills
it, no inode is in two slots, and a slot keeps its inode while it is in use.
-/

namespace LihaLinux.Fs

/-! ### References -/

/-- The super blocks that refer to an inode as their mount point. -/
def Tables.superRefs (w : Tables) (i : ℕ) : ℕ :=
  ((Finset.range nrSuper).filter fun k => (w.super k).imount = some i).card

/-- A super block that gets a mount point refers to it. -/
theorem Tables.superRefs_mount {w w' : Tables} {j k : ℕ} (hk : k < nrSuper)
    (hnone : (w.super k).imount = none) (hother : ∀ l, l ≠ k → w'.super l = w.super l)
    (hnew : (w'.super k).imount = some j) (i : ℕ) :
    w'.superRefs i = w.superRefs i + if i = j then 1 else 0 := by
  have hcard := card_filter_update (p := fun l => (w.super l).imount = some i)
    (q := fun l => (w'.super l).imount = some i) (Finset.mem_range.mpr hk) (by
      intro l _ hl
      rw [hother l hl])
  rw [indicator_false (by simp [hnone])] at hcard
  unfold superRefs
  split_ifs with hij
  · rw [indicator_true (by rw [hnew, hij])] at hcard
    omega
  · rw [indicator_false (by rw [hnew, Option.some.injEq]; exact fun h => hij h.symm)] at hcard
    omega

namespace FsSystem

section

variable {τ : Type*} [Fintype τ]

/-- The inode references of a task, between and in its calls. -/
def taskInodes (s : FsSystem τ) (t : τ) : List ℕ := s.inodes t ++ stackInodes (s.stack t)

/-- The references to an inode. -/
def inodeRefs (s : FsSystem τ) (i : ℕ) : ℕ :=
  ∑ t, (s.taskInodes t).count i + s.tables.superRefs i

/-- The references of one task are references. -/
theorem taskInodes_le (s : FsSystem τ) (t : τ) (i : ℕ) :
    (s.taskInodes t).count i ≤ s.inodeRefs i := by
  have hle : (s.taskInodes t).count i ≤ ∑ u, (s.taskInodes u).count i :=
    Finset.single_le_sum (f := fun u => (s.taskInodes u).count i) (fun _ _ => Nat.zero_le _)
      (Finset.mem_univ t)
  unfold inodeRefs
  omega

/-- The references of two tasks are references. -/
theorem taskInodes_add_le (s : FsSystem τ) {t u : τ} (htu : t ≠ u) (i : ℕ) :
    (s.taskInodes t).count i + (s.taskInodes u).count i ≤ s.inodeRefs i := by
  classical
  have hle : ∑ v ∈ {t, u}, (s.taskInodes v).count i ≤ ∑ v, (s.taskInodes v).count i :=
    Finset.sum_le_sum_of_subset (Finset.subset_univ _)
  rw [Finset.sum_pair htu] at hle
  unfold inodeRefs
  omega

/-- An event that leaves the references of the tasks and the super blocks alone keeps the
number of references. -/
theorem inodeRefs_congr {s s' : FsSystem τ} {i : ℕ}
    (htask : ∀ t, (s'.taskInodes t).count i = (s.taskInodes t).count i)
    (hsuper : s'.tables.superRefs i = s.tables.superRefs i) : s'.inodeRefs i = s.inodeRefs i := by
  simp only [inodeRefs, htask, hsuper]

/-- A call on a stack has references of its task. -/
theorem mem_stackInodes {l : List Frame} {f : Frame} {i : ℕ} (hf : f ∈ l) (hi : i ∈ f.inodes) :
    1 ≤ (stackInodes l).count i :=
  List.count_pos_iff.mpr (List.mem_flatMap.mpr ⟨f, hf, hi⟩)

/-- What holds of the inode table and of the calls as long as `i_count` counts all
references. -/
structure InodeInv (s : FsSystem τ) : Prop where
  stacked : ∀ t, Stacked (s.stack t)
  emptyCalled : ∀ t, List.IsChain EmptyCalled (s.stack t)
  device : ∀ t, ∀ f ∈ s.stack t, f.Device s.tables.super
  mounted : ∀ k i, (s.tables.super k).imount = some i → (s.tables.super k).dev ≠ 0
  count : ∀ i, (s.tables.inode i).count = s.inodeRefs i
  count_lt : ∀ i, (s.tables.inode i).count < 65536
  spare : ∀ t, ∀ f ∈ s.stack t, ∀ e, f.spare = some e →
    (s.tables.inode e).dev = 0 ∧ (s.tables.inode e).count = 1
  unique : s.tables.Unique

/-- The invariant holds at the start. -/
theorem inodeInv_boot {s : FsSystem τ} (h : s.Boot) : s.InodeInv := by
  obtain ⟨n, blocknr, -, rfl⟩ := h
  constructor
  · simp [boot, Stacked]
  · simp [boot]
  · simp [boot]
  · simp [boot]
  · simp [boot, inodeRefs, taskInodes, stackInodes, Tables.superRefs, MInode.zero]
  · simp [boot, MInode.zero]
  · simp [boot]
  · simp [boot, Tables.Unique, MInode.zero]

/-- What an event other than a step of a call has to leave alone. -/
theorem InodeInv.outside {s s' : FsSystem τ} (hi : s.InodeInv)
    (hstack : ∀ t, s'.stack t = s.stack t ∨ s'.stack t = [] ∨ ∃ c : FsCall, s'.stack t = c.frames)
    (hident : ∀ i, (s'.tables.inode i).dev = (s.tables.inode i).dev ∧
      (s'.tables.inode i).num = (s.tables.inode i).num)
    (hsuper : ∀ k, (s.tables.super k).dev ≠ 0 → (s'.tables.super k).dev ≠ 0)
    (hmounted : ∀ k i, (s'.tables.super k).imount = some i → (s'.tables.super k).dev ≠ 0)
    (hcount : ∀ i, (s'.tables.inode i).count = s'.inodeRefs i)
    (hlt : ∀ i, (s'.tables.inode i).count < 65536)
    (hspare : ∀ t, ∀ f ∈ s.stack t, ∀ e, f.spare = some e →
      (s'.tables.inode e).count = (s.tables.inode e).count) : s'.InodeInv := by
  constructor
  · intro t
    rcases hstack t with h | h | ⟨c, h⟩ <;> rw [h]
    · exact hi.stacked t
    · trivial
    · exact stacked_frames c
  · intro t
    rcases hstack t with h | h | ⟨c, h⟩ <;> rw [h]
    · exact hi.emptyCalled t
    · exact .nil
    · cases c <;> simp [FsCall.frames, EmptyCalled]
  · intro t f hf
    rcases hstack t with h | h | ⟨c, h⟩ <;> rw [h] at hf
    · have hdev := hi.device t f hf
      unfold Frame.Device at hdev ⊢
      split <;> simp_all
    · cases hf
    · cases c <;> simp [FsCall.frames] at hf <;> rcases hf with rfl | rfl <;> trivial
  · exact hmounted
  · exact hcount
  · exact hlt
  · intro t f hf e he
    rcases hstack t with h | h | ⟨c, h⟩ <;> rw [h] at hf
    · rw [(hident e).1, hspare t f hf e he]
      exact hi.spare t f hf e he
    · cases hf
    · cases c <;> simp [FsCall.frames] at hf <;> rcases hf with rfl | rfl <;> cases he
  · intro i hilt j hjlt hdev
    rw [(hident i).1, (hident i).2, (hident j).1, (hident j).2]
    rw [(hident i).1] at hdev
    exact hi.unique i hilt j hjlt hdev

end

/-! ### Runs -/

section

variable {τ : Type*} [DecidableEq τ]

/-- A step after which no task is in `truncate` or `free_inode`. -/
def LinkedStep (s s' : FsSystem τ) : Prop := Step s s' ∧ ∀ t, ∀ f ∈ s'.stack t, f.frees = false

/-- An event other than a step of a call leaves the identity of all slots alone. -/
theorem next_identity {s s' : FsSystem τ} {e : FsEvent τ} (h : s.next e = some s')
    (he : ∀ t ch, e ≠ .exec t ch) (i : ℕ) : (s'.tables.inode i).dev = (s.tables.inode i).dev ∧
      (s'.tables.inode i).num = (s.tables.inode i).num := by
  cases e with
  | exec t ch => exact absurd rfl (he t ch)
  | take t =>
    simp only [next] at h
    split at h <;> cases h <;> exact ⟨rfl, rfl⟩
  | call t c =>
    simp only [next, Option.ite_none_right_eq_some, Option.some.injEq] at h
    obtain ⟨-, rfl⟩ := h
    exact ⟨rfl, rfl⟩
  | interrupt bh uptodate =>
    simp only [next, Option.ite_none_right_eq_some, Option.some.injEq] at h
    obtain ⟨-, rfl⟩ := h
    exact ⟨rfl, rfl⟩
  | modify t bh =>
    simp only [next, Option.ite_none_right_eq_some, Option.some.injEq] at h
    obtain ⟨-, rfl⟩ := h
    exact ⟨rfl, rfl⟩
  | modifyInode t j d =>
    simp only [next, Option.ite_none_right_eq_some, Option.some.injEq] at h
    obtain ⟨-, rfl⟩ := h
    refine Tables.setInode_identity s.tables j ?_ ?_ i <;> rfl
  | readSuper k dev imapBlocks zmapBlocks =>
    simp only [next, Option.ite_none_right_eq_some, Option.some.injEq] at h
    obtain ⟨-, rfl⟩ := h
    exact ⟨rfl, rfl⟩
  | mount t j k =>
    simp only [next, Option.ite_none_right_eq_some, Option.some.injEq] at h
    obtain ⟨-, rfl⟩ := h
    refine Tables.setInode_identity s.tables j ?_ ?_ i <;> rfl
  | pipe t j =>
    simp only [next, Option.ite_none_right_eq_some, Option.some.injEq] at h
    obtain ⟨-, rfl⟩ := h
    refine Tables.setInode_identity s.tables j ?_ ?_ i <;> rfl

variable [Fintype τ]

/-- A step after which, besides, no inode has more references than `i_count` can count. -/
def InodeStep (s s' : FsSystem τ) : Prop := LinkedStep s s' ∧ ∀ i, s'.inodeRefs i ≤ 65535

/-- A step of a call changes the references to an inode with its `i_count`. -/
theorem InodeInv.count_exec {s : FsSystem τ} (hi : s.InodeInv) {t : τ} {ch : Choice} {f : Frame}
    {rest : List Frame} {w : Tables} {n : Next} (hstack : s.stack t = f :: rest)
    (hexec : f.exec s.tables ch = some (w, n)) (hf : f.frees = false) {i : ℕ}
    (hrefs : ((s.withTables w).setStack t (stackAfter rest n)).inodeRefs i ≤ 65535) :
    (w.inode i).count = ((s.withTables w).setStack t (stackAfter rest n)).inodeRefs i := by
  have hstacked := hi.stacked t
  rw [hstack] at hstacked
  have hstep := Frame.exec_stackInodes hexec hstacked hf i
  have hlt := Frame.exec_inodeCount_lt hexec hi.count_lt i
  have hcount := hi.count i
  have hsum := sum_update_add (f := fun u => (s.taskInodes u).count i)
    (g := fun u => (((s.withTables w).setStack t (stackAfter rest n)).taskInodes u).count i) t
    (by
      intro u hu
      simp only [taskInodes, setStack, withTables, Function.update_of_ne hu])
  have hsuper : w.superRefs i = s.tables.superRefs i := by
    unfold Tables.superRefs
    rw [Frame.exec_super hexec]
  simp only [inodeRefs] at hcount hrefs ⊢
  simp only [taskInodes, setStack, withTables, Function.update_self, hstack,
    List.count_append, hsuper] at hcount hsum hrefs ⊢
  omega

/-- The spare slots of the calls after a step. -/
theorem InodeInv.spare_exec {s : FsSystem τ} (hi : s.InodeInv) {t : τ} {ch : Choice} {f : Frame}
    {rest : List Frame} {w : Tables} {n : Next} (hstack : s.stack t = f :: rest)
    (hexec : f.exec s.tables ch = some (w, n)) (hf : f.frees = false) (u : τ) (g : Frame)
    (hg : g ∈ ((s.withTables w).setStack t (stackAfter rest n)).stack u) (e : ℕ)
    (he : g.spare = some e) : (w.inode e).dev = 0 ∧ (w.inode e).count = 1 := by
  have hdevice := hi.device t f (by simp [hstack])
  -- a call that has been there before the step, but is not the one that takes it
  have hold : ∀ v, ∀ g' ∈ s.stack v, (v ≠ t ∨ g' ∈ rest) → g'.spare = some e →
      (w.inode e).dev = 0 ∧ (w.inode e).count = 1 := by
    intro v g' hg' hv he'
    obtain ⟨hdev, hcount⟩ := hi.spare v g' hg' e he'
    have hmem : e ∈ g'.inodes := by
      cases g' <;> simp only [Frame.spare, reduceCtorEq, Option.some.injEq] at he' <;>
        simp [Frame.inodes, he']
    have hrefs := hi.count e
    have hnotin : e ∉ f.inodes := by
      intro hef
      have hftop : 1 ≤ f.inodes.count e := List.count_pos_iff.mpr hef
      by_cases hvt : v = t
      · have hgrest := mem_stackInodes (hv.resolve_left (not_not_intro hvt)) hmem
        have hle := s.taskInodes_le t e
        simp only [taskInodes, hstack, stackInodes, List.flatMap_cons, List.count_append]
          at hle hgrest
        omega
      · have hgv := mem_stackInodes hg' hmem
        have hle := s.taskInodes_add_le hvt e
        simp only [taskInodes, hstack, stackInodes, List.flatMap_cons, List.count_append]
          at hle hgv
        omega
    have hsame := Frame.exec_unused hexec hf hdevice hnotin hdev (by omega)
    exact ⟨hsame.2, by omega⟩
  by_cases hu : u = t
  · subst u
    simp only [setStack, Function.update_self] at hg
    rcases mem_stackAfter hg with hg | hg | ⟨g₀, rest', v, rfl, rfl, rfl⟩
    · obtain ⟨hfe, hsame⟩ := Frame.exec_spare hexec hdevice hg he
      obtain ⟨hdev, hcount⟩ := hi.spare t f (by simp [hstack]) e hfe
      exact ⟨(hsame hdev).2, by rw [(hsame hdev).1, hcount]⟩
    · exact hold t g (by simp [hstack, hg]) (.inr hg) he
    · rcases Frame.resume_spare he with he | ⟨dev, nr, rfl, rfl⟩
      · exact hold t g₀ (by simp [hstack]) (.inr List.mem_cons_self) he
      · have hcalled := hi.emptyCalled t
        rw [hstack, List.isChain_cons_cons] at hcalled
        obtain ⟨i, -, hv, hslot⟩ := Frame.exec_empty hexec (hcalled.1 dev nr rfl)
        rw [Option.some.injEq] at hv
        subst e
        rw [hslot]
        exact ⟨rfl, rfl⟩
  · simp only [setStack, withTables, Function.update_of_ne hu] at hg
    exact hold u g hg (.inl hu) he

/-- A step of a call keeps the invariant. -/
theorem InodeInv.exec {s : FsSystem τ} (hi : s.InodeInv) {t : τ} {ch : Choice} {f : Frame}
    {rest : List Frame} {w : Tables} {n : Next} (hstack : s.stack t = f :: rest)
    (hexec : f.exec s.tables ch = some (w, n)) (hf : f.frees = false)
    (hrefs : ∀ i, ((s.withTables w).setStack t (stackAfter rest n)).inodeRefs i ≤ 65535) :
    ((s.withTables w).setStack t (stackAfter rest n)).InodeInv := by
  have hstacked := hi.stacked t
  have hcalled := hi.emptyCalled t
  have hdevice := hi.device t
  rw [hstack] at hstacked hcalled hdevice
  rw [List.forall_mem_cons] at hdevice
  have hsuper := Frame.exec_super hexec
  constructor
  · intro u
    by_cases hu : u = t
    · subst u
      simpa only [setStack, Function.update_self] using Frame.exec_stacked hexec hstacked
    · simpa only [setStack, withTables, Function.update_of_ne hu] using hi.stacked u
  · intro u
    by_cases hu : u = t
    · subst u
      simpa only [setStack, Function.update_self] using Frame.exec_emptyCalled hexec hcalled
    · simpa only [setStack, withTables, Function.update_of_ne hu] using hi.emptyCalled u
  · intro u
    simp only [setStack, withTables]
    rw [hsuper]
    by_cases hu : u = t
    · subst u
      rw [Function.update_self]
      exact forall_mem_stackAfter (fun g v hg => hg.resume v)
        (Frame.exec_device hexec hdevice.1 hi.mounted) hdevice.2
    · rw [Function.update_of_ne hu]
      exact hi.device u
  · intro k i
    simp only [setStack, withTables, hsuper]
    exact hi.mounted k i
  · intro i
    exact hi.count_exec hstack hexec hf (hrefs i)
  · exact Frame.exec_inodeCount_lt hexec hi.count_lt
  · intro u g hg e he
    exact hi.spare_exec hstack hexec hf u g hg e he
  · rcases Frame.exec_identity hexec hf with hsame | ⟨k, rfl, -, rfl, -⟩ |
      ⟨dev, nr, empty, rfl, hfind, rfl, -⟩
    · intro i hilt j hjlt
      simp only [setStack, withTables]
      rw [(hsame i).1, (hsame i).2, (hsame j).1, (hsame j).2]
      exact hi.unique i hilt j hjlt
    · exact hi.unique.setInode k (.inl rfl)
    · exact hi.unique.setInode empty (.inr fun j hj => Tables.findInode_none hfind hj)

/-- Making a call keeps the invariant. -/
theorem InodeInv.call {s s' : FsSystem τ} (hi : s.InodeInv) {t : τ} {c : FsCall}
    (h : s.next (.call t c) = some s') : s'.InodeInv := by
  have hout := next_cases h
  simp only [next, Option.ite_none_right_eq_some, Option.some.injEq] at h
  obtain ⟨⟨hstack, -, hinode⟩, rfl⟩ := h
  rcases hout with ⟨u, ch, f, rest, w, n, he, -⟩ | hout
  · cases he
  refine hi.outside hout.stack (fun i => ⟨rfl, rfl⟩) (fun k hk => hk) hi.mounted ?_ hi.count_lt ?_
  · intro i
    refine (hi.count i).trans (inodeRefs_congr ?_ ?_).symm
    swap
    · rfl
    intro u
    by_cases hu : u = t
    · subst u
      simp only [taskInodes, setInodes, setBufs, setStack, Function.update_self, hstack]
      cases c <;> simp [FsCall.inode, FsCall.frames, stackInodes, Frame.inodes] at hinode ⊢
      rename_i j
      rw [List.count_erase]
      have := List.count_pos_iff.mpr hinode
      grind
    · simp only [taskInodes, setInodes, setBufs, setStack, Function.update_of_ne hu]
  · intros
    rfl

/-- Taking the result of a call keeps the invariant. -/
theorem InodeInv.take {s s' : FsSystem τ} (hi : s.InodeInv) {t : τ}
    (h : s.next (.take t) = some s') : s'.InodeInv := by
  have hout := next_cases h
  rcases hout with ⟨u, ch, f, rest, w, n, he, -⟩ | hout
  · cases he
  have htables : s'.tables = s.tables ∧ ∀ u i, (s'.taskInodes u).count i =
      (s.taskInodes u).count i := by
    simp only [next] at h
    split at h
    · rename_i v hstack
      cases h
      refine ⟨rfl, ?_⟩
      intro u i
      by_cases hu : u = t
      · subst u
        simp [taskInodes, setBufs, setStack, hstack, stackInodes, Frame.inodes]
      · simp only [taskInodes, setBufs, setStack, Function.update_of_ne hu]
    · rename_i v hstack
      cases h
      refine ⟨rfl, ?_⟩
      intro u i
      by_cases hu : u = t
      · subst u
        simp [taskInodes, setInodes, setStack, hstack, stackInodes, Frame.inodes, Nat.add_comm]
      · simp only [taskInodes, setInodes, setStack, Function.update_of_ne hu]
    · cases h
  apply hi.outside hout.stack
  · simp [htables.1]
  · simp [htables.1]
  · rw [htables.1]
    exact hi.mounted
  · intro i
    rw [inodeRefs_congr (fun u => htables.2 u i) (by rw [htables.1]), htables.1]
    exact hi.count i
  · rw [htables.1]
    exact hi.count_lt
  · simp [htables.1]

/-- Changing an inode in use keeps the invariant. -/
theorem InodeInv.modifyInode {s s' : FsSystem τ} (hi : s.InodeInv) {t : τ} {j : ℕ} {d : DInode}
    (h : s.next (.modifyInode t j d) = some s') : s'.InodeInv := by
  have hident := next_identity h (by simp)
  simp only [next, Option.ite_none_right_eq_some, Option.some.injEq] at h
  obtain ⟨-, rfl⟩ := h
  have hsame : ∀ i, ((s.tables.setInode j
      { (s.tables.inode j).load d with dirt := true }).inode i).count =
        (s.tables.inode i).count := by
    intro i
    rw [Tables.setInode_apply]
    split_ifs with hij
    · rw [hij]
      rfl
    · rfl
  refine hi.outside (fun u => .inl rfl) hident (fun k hk => hk) hi.mounted ?_ ?_ ?_
  · intro i
    exact (hsame i).trans (hi.count i)
  · intro i
    exact (hsame i).trans_lt (hi.count_lt i)
  · intro u f _ e _
    exact hsame e

/-- Taking a super block keeps the invariant. -/
theorem InodeInv.readSuper {s s' : FsSystem τ} (hi : s.InodeInv) {k dev imap zmap : ℕ}
    (h : s.next (.readSuper k dev imap zmap) = some s') : s'.InodeInv := by
  simp only [next, Option.ite_none_right_eq_some, Option.some.injEq] at h
  obtain ⟨⟨-, hfree, hdev⟩, rfl⟩ := h
  -- an unused super block is mounted on nothing
  have hunmounted : (s.tables.super k).imount = none := by
    cases himount : (s.tables.super k).imount with
    | none => rfl
    | some i => exact absurd hfree (hi.mounted k i himount)
  refine hi.outside (fun u => .inl rfl) (fun i => ⟨rfl, rfl⟩) ?_ ?_ ?_ hi.count_lt ?_
  · intro l hl
    simp only [withTables, Function.update_apply]
    split_ifs
    · exact hdev
    · exact hl
  · intro l i
    simp only [withTables, Function.update_apply]
    split_ifs
    · exact fun _ => hdev
    · exact hi.mounted l i
  · intro i
    refine (hi.count i).trans (inodeRefs_congr ?_ ?_).symm
    · intro u
      rfl
    simp only [Tables.superRefs, withTables]
    congr 1
    apply Finset.filter_congr
    intro l _
    rw [Function.update_apply]
    split_ifs with hl
    · simp [hl, hunmounted]
    · rfl
  · intro u f _ e _
    rfl

/-- The references after a change of the inodes a task holds between calls. -/
theorem sum_taskInodes_setInodes (s : FsSystem τ) (w : Tables) (t : τ) (l : List ℕ) (i : ℕ) :
    ∑ u, (((s.withTables w).setInodes t l).taskInodes u).count i + (s.inodes t).count i =
      ∑ u, (s.taskInodes u).count i + l.count i := by
  have hsum := sum_update_add (f := fun u => (s.taskInodes u).count i)
    (g := fun u => (((s.withTables w).setInodes t l).taskInodes u).count i) t
    (by
      intro u hu
      simp only [taskInodes, setInodes, withTables, Function.update_of_ne hu])
  simp only [taskInodes, setInodes, withTables, Function.update_self, List.count_append] at hsum ⊢
  omega

/-- A slot held between calls is not the spare slot of a call. -/
theorem InodeInv.held_ne_spare {s : FsSystem τ} (hi : s.InodeInv) {t u : τ} {i e : ℕ} {f : Frame}
    (hheld : i ∈ s.inodes t) (hf : f ∈ s.stack u) (he : f.spare = some e) : i ≠ e := by
  rintro rfl
  have hcount := (hi.spare u f hf i he).2
  have hrefs := hi.count i
  have hmem : i ∈ f.inodes := by
    cases f <;> simp only [Frame.spare, reduceCtorEq, Option.some.injEq] at he <;>
      simp [Frame.inodes, he]
  have hstack := mem_stackInodes hf hmem
  have hlist := List.count_pos_iff.mpr hheld
  by_cases htu : t = u
  · subst u
    have hle := s.taskInodes_le t i
    simp only [taskInodes, List.count_append] at hle
    omega
  · have hle := s.taskInodes_add_le htu i
    simp only [taskInodes, List.count_append] at hle
    omega

/-- An event between calls keeps the invariant if it changes the references of a task and of the
super blocks with `i_count`. -/
theorem InodeInv.setInodes {s : FsSystem τ} (hi : s.InodeInv) {w : Tables} {t : τ} {l : List ℕ}
    (hident : ∀ i, (w.inode i).dev = (s.tables.inode i).dev ∧
      (w.inode i).num = (s.tables.inode i).num)
    (hsuper : ∀ k, (s.tables.super k).dev ≠ 0 → (w.super k).dev ≠ 0)
    (hmounted : ∀ k i, (w.super k).imount = some i → (w.super k).dev ≠ 0)
    (hcount : ∀ i, (w.inode i).count + (s.inodes t).count i + s.tables.superRefs i =
      (s.tables.inode i).count + l.count i + w.superRefs i)
    (hlt : ∀ i, (w.inode i).count < 65536)
    (hspare : ∀ u, ∀ f ∈ s.stack u, ∀ e, f.spare = some e →
      (w.inode e).count = (s.tables.inode e).count) :
    ((s.withTables w).setInodes t l).InodeInv := by
  refine hi.outside (fun u => .inl rfl) hident hsuper hmounted ?_ hlt hspare
  intro i
  have hold := hi.count i
  have hnew := hcount i
  have hsum := s.sum_taskInodes_setInodes w t l i
  unfold inodeRefs at hold ⊢
  change (w.inode i).count = _ + w.superRefs i
  omega

/-- The end of `sys_mount` keeps the invariant. -/
theorem InodeInv.mount {s s' : FsSystem τ} (hi : s.InodeInv) {t : τ} {j k : ℕ}
    (h : s.next (.mount t j k) = some s') : s'.InodeInv := by
  have hident := next_identity h (by simp)
  simp only [next, Option.ite_none_right_eq_some, Option.some.injEq] at h
  obtain ⟨⟨hk, hdev, hunmounted, hheld, -, -, -⟩, rfl⟩ := h
  have hsame : ∀ i, ((s.tables.mountOn j k).inode i).count = (s.tables.inode i).count := by
    intro i
    simp only [Tables.mountOn]
    rw [Tables.setInode_apply]
    split_ifs with hij
    · rw [hij]
    · rfl
  have hsuper : ∀ l, ((s.tables.mountOn j k).super l).dev = (s.tables.super l).dev := by
    intro l
    simp only [Tables.mountOn, Function.update_apply]
    split_ifs with hl
    · rw [hl]
    · rfl
  apply hi.setInodes (w := s.tables.mountOn j k) hident
  · intro l hl
    rw [hsuper]
    exact hl
  · intro l i himount
    rw [hsuper]
    simp only [Tables.mountOn, Function.update_apply] at himount
    split_ifs at himount with hl
    · rw [hl]
      exact hdev
    · exact hi.mounted l i himount
  · intro i
    have hrefs : (s.tables.mountOn j k).superRefs i =
        s.tables.superRefs i + if i = j then 1 else 0 :=
      Tables.superRefs_mount hk hunmounted (fun l hl => Function.update_of_ne hl _ _)
        (by simp [Tables.mountOn]) i
    have hlist := List.count_pos_iff.mpr hheld
    rw [hrefs, hsame i, List.count_erase]
    simp only [beq_iff_eq]
    by_cases hij : i = j
    · subst i
      simp only [if_true]
      omega
    · rw [if_neg hij, if_neg (Ne.symm hij)]
      omega
  · intro i
    rw [hsame i]
    exact hi.count_lt i
  · intro u f _ e _
    exact hsame e

/-- The end of `get_pipe_inode` keeps the invariant. -/
theorem InodeInv.pipe {s s' : FsSystem τ} (hi : s.InodeInv) {t : τ} {j : ℕ}
    (h : s.next (.pipe t j) = some s') : s'.InodeInv := by
  have hident := next_identity h (by simp)
  simp only [next, Option.ite_none_right_eq_some, Option.some.injEq] at h
  obtain ⟨⟨hheld, hslot⟩, rfl⟩ := h
  apply hi.setInodes (w := s.tables.setInode j
    { s.tables.inode j with count := 2, pipe := true }) hident
  · exact fun k hk => hk
  · exact hi.mounted
  · intro i
    change _ = _ + _ + s.tables.superRefs i
    rw [Tables.setInode_apply, List.count_cons]
    simp only [beq_iff_eq]
    by_cases hij : i = j
    · subst i
      rw [if_pos rfl, if_pos rfl, hslot]
      simp only
      omega
    · rw [if_neg hij, if_neg (Ne.symm hij)]
      omega
  · intro i
    rw [Tables.setInode_apply]
    split_ifs
    · simp
    · exact hi.count_lt i
  · intro u f hf e he
    have hne := hi.held_ne_spare hheld hf he
    rw [Tables.setInode_apply, if_neg hne.symm]

/-- A step of a run keeps the invariant. -/
theorem InodeInv.step {s s' : FsSystem τ} (hi : s.InodeInv)
    (hfrees : ∀ t, ∀ f ∈ s.stack t, f.frees = false) (h : InodeStep s s') : s'.InodeInv := by
  obtain ⟨⟨⟨e, he⟩, -⟩, hrefs⟩ := h
  cases e with
  | call t c => exact hi.call he
  | exec t ch =>
    obtain ⟨f, rest, w, n, hstack, hexec, rfl⟩ := next_exec he
    exact hi.exec hstack hexec (hfrees t f (by simp [hstack])) hrefs
  | take t => exact hi.take he
  | interrupt bh uptodate =>
    simp only [next, Option.ite_none_right_eq_some, Option.some.injEq] at he
    obtain ⟨-, rfl⟩ := he
    exact ⟨hi.stacked, hi.emptyCalled, hi.device, hi.mounted, hi.count, hi.count_lt, hi.spare,
      hi.unique⟩
  | modify t bh =>
    simp only [next, Option.ite_none_right_eq_some, Option.some.injEq] at he
    obtain ⟨-, rfl⟩ := he
    exact ⟨hi.stacked, hi.emptyCalled, hi.device, hi.mounted, hi.count, hi.count_lt, hi.spare,
      hi.unique⟩
  | modifyInode t i d => exact hi.modifyInode he
  | readSuper k dev imapBlocks zmapBlocks => exact hi.readSuper he
  | mount t i k => exact hi.mount he
  | pipe t i => exact hi.pipe he

/-- A slot with an inode gets another one only while it is not in use. -/
theorem InodeInv.identity {s s' : FsSystem τ} (hi : s.InodeInv)
    (hfrees : ∀ t, ∀ f ∈ s.stack t, f.frees = false) (h : InodeStep s s') {i : ℕ}
    (hdev : (s.tables.inode i).dev ≠ 0)
    (hchange : (s'.tables.inode i).dev ≠ (s.tables.inode i).dev ∨
      (s'.tables.inode i).num ≠ (s.tables.inode i).num) : (s.tables.inode i).count = 0 := by
  obtain ⟨⟨⟨e, he⟩, -⟩, -⟩ := h
  by_cases hexec : ∃ t ch, e = .exec t ch
  · obtain ⟨t, ch, rfl⟩ := hexec
    obtain ⟨f, rest, w, n, hstack, hexec, rfl⟩ := next_exec he
    simp only [setStack, withTables] at hchange
    rcases Frame.exec_identity hexec (hfrees t f (by simp [hstack])) with hsame |
      ⟨k, rfl, hzero, rfl, -⟩ | ⟨dev, nr, empty, rfl, -, rfl, -⟩
    · rw [(hsame i).1, (hsame i).2] at hchange
      simp at hchange
    · have hik : i = k := by
        by_contra hne
        rw [Tables.setInode_apply, if_neg hne] at hchange
        simp at hchange
      rw [hik]
      exact hzero
    · -- the spare slot has no device
      have hie : i = empty := by
        by_contra hne
        rw [Tables.setInode_apply, if_neg hne] at hchange
        simp at hchange
      rw [hie] at hdev
      exact absurd (hi.spare t _ (by rw [hstack]; exact List.mem_cons_self) empty rfl).1 hdev
  · have hsame := next_identity he (fun t ch h => hexec ⟨t, ch, h⟩) i
    rw [hsame.1, hsame.2] at hchange
    simp at hchange

/-- In every run of any number of tasks without `truncate`, and with at most 65535 references
to one inode, no inode is in two slots of the table, and a slot with an inode gets another one
only while its `i_count` is 0. -/
theorem inode_identity {s : FsSystem τ} (h : Reachable Boot InodeStep s) :
    s.tables.Unique ∧ ∀ s', InodeStep s s' → ∀ i, (s.tables.inode i).dev ≠ 0 →
      ((s'.tables.inode i).dev ≠ (s.tables.inode i).dev ∨
        (s'.tables.inode i).num ≠ (s.tables.inode i).num) → (s.tables.inode i).count = 0 := by
  obtain ⟨hi, hfrees⟩ : s.InodeInv ∧ ∀ t, ∀ f ∈ s.stack t, f.frees = false := by
    refine h.invariant (P := fun s => s.InodeInv ∧ ∀ t, ∀ f ∈ s.stack t, f.frees = false) ?_ ?_
    · intro s hs
      refine ⟨inodeInv_boot hs, ?_⟩
      obtain ⟨n, blocknr, -, rfl⟩ := hs
      simp [boot]
    · intro s s' hs hstep
      exact ⟨hs.1.step hs.2 hstep, hstep.1.2⟩
  exact ⟨hi.unique, fun s' hstep i hdev hchange => hi.identity hfrees hstep hdev hchange⟩

/-- The events of a run with few references and without `truncate`. -/
def inodeNext (s : FsSystem τ) (e : FsEvent τ) : Option (FsSystem τ) :=
  (s.next e).filter fun s' => decide ((∀ t, ∀ f ∈ s'.stack t, f.frees = false) ∧
    ∑ t, (s'.taskInodes t).length + nrSuper ≤ 65535)

/-- Few references in all are few to each inode. -/
theorem InodeStep.of_inodeNext {s s' : FsSystem τ} {e : FsEvent τ}
    (h : s.inodeNext e = some s') : InodeStep s s' := by
  obtain ⟨hnext, hP⟩ := Option.filter_eq_some_iff.mp h
  obtain ⟨hfrees, hle⟩ := of_decide_eq_true hP
  refine ⟨⟨⟨e, hnext⟩, hfrees⟩, ?_⟩
  intro i
  have hsum : ∑ t, (s'.taskInodes t).count i ≤ ∑ t, (s'.taskInodes t).length :=
    Finset.sum_le_sum fun t _ => List.count_le_length
  have hsuper : s'.tables.superRefs i ≤ nrSuper := by
    have hcard := Finset.card_filter_le (Finset.range nrSuper)
      fun k => (s'.tables.super k).imount = some i
    rw [Finset.card_range] at hcard
    exact hcard
  unfold inodeRefs
  omega

end

/-- The theorem in a state in which one task reads an inode and another one has found it in the
table. -/
theorem inode_identity_sample : ∃ s : FsSystem Bool,
    s.stack true = [.readSuper 1, .igetRead 1, .userInode] ∧
    s.stack false = [.igetWait 1 5 2 1, .userInode] ∧ s.tables.Unique := by
  have hrun : (runEvents inodeNext (boot Bool 1 fun _ => 0) [.readSuper 0 1 1 1,
      .call true (.iget 1 5), .exec true choice, .exec true choice, .exec true choice,
      .exec true choice, .exec true choice, .call false (.iget 1 5), .exec false choice,
      .exec false choice, .exec false choice, .exec false choice]).any (fun s =>
        decide (s.stack true = [.readSuper 1, .igetRead 1, .userInode] ∧
          s.stack false = [.igetWait 1 5 2 1, .userInode])) = true := by
    decide +kernel
  have hboot : Reachable Boot InodeStep (boot Bool 1 fun _ => 0) :=
    .of_init ⟨1, _, by omega, rfl⟩
  obtain ⟨s, hs, -, hP⟩ := hboot.exists_runEvents (fun _ _ _ he => .of_inodeNext he) hrun
  have hstack := of_decide_eq_true hP
  exact ⟨s, hstack.1, hstack.2, (inode_identity hs).1⟩

/-! ### 65536 references -/

section

variable {τ : Type*} [DecidableEq τ]

/-- No task is in `truncate` in such runs. -/
theorem frees_of_reachable {s : FsSystem τ} (h : Reachable Boot LinkedStep s) :
    ∀ t, ∀ f ∈ s.stack t, f.frees = false := by
  apply h.invariant (P := fun s => ∀ t, ∀ f ∈ s.stack t, f.frees = false)
  · rintro s ⟨n, blocknr, -, rfl⟩
    simp [boot]
  · exact fun s s' _ hstep => hstep.2

/-- An event of one task outside `truncate` continues such a run. -/
theorem reachable_linked {s s' : FsSystem τ} (h : Reachable Boot LinkedStep s) {e : FsEvent τ}
    (hnext : s.next e = some s') (t : τ) (hother : ∀ u, u ≠ t → s'.stack u = s.stack u)
    (hself : ∀ f ∈ s'.stack t, f.frees = false) : Reachable Boot LinkedStep s' := by
  refine h.tail ⟨⟨e, hnext⟩, ?_⟩
  intro u f hf
  by_cases hu : u = t
  · rw [hu] at hf
    exact hself f hf
  · rw [hother u hu] at hf
    exact frees_of_reachable h u f hf

/-- A step of a call outside `truncate` continues such a run. -/
theorem reachable_linked_exec {s : FsSystem τ} {t : τ} {f : Frame} {rest l : List Frame}
    {w w' : Tables} {n : Next}
    (h : Reachable Boot LinkedStep ((s.withTables w).setStack t (f :: rest))) (ch : Choice)
    (hexec : f.exec w ch = some (w', n)) (hl : stackAfter rest n = l)
    (hself : ∀ g ∈ l, g.frees = false) :
    Reachable Boot LinkedStep ((s.withTables w').setStack t l) := by
  apply reachable_linked h (e := .exec t ch) _ t
  · intro u hu
    simp only [setStack, withTables, Function.update_of_ne hu]
  · simpa only [setStack, Function.update_self] using hself
  · simp only [next, execTop, setStack, withTables, Function.update_self, hexec, Option.map_some,
      Function.update_idem, hl]

/-- A task outside any call takes another reference to an inode in the table. -/
theorem reachable_iget {s : FsSystem τ} (h : Reachable Boot LinkedStep s) (t : τ)
    (dev nr : ℕ) {e i : ℕ} (hstack : s.stack t = []) (hdev : dev ≠ 0)
    (hpick : s.tables.pickInode nrInode s.tables.lastInode none = (e, some e))
    (he : s.tables.inode e = .zero)
    (hfind : (s.tables.setInode e { MInode.zero with count := 1 }).findInode dev nr = some i)
    (hie : i ≠ e) (hlock : (s.tables.inode i).lock = false)
    (hmount : (s.tables.inode i).mount = false) (hi : (s.tables.inode i).dev = dev)
    (hnum : (s.tables.inode i).num = nr) :
    Reachable Boot LinkedStep ((s.withTables { s.tables.setInode i (s.tables.inode i).inc with
      lastInode := e }).setInodes t (i :: s.inodes t)) := by
  have hcall : s.next (.call t (.iget dev nr)) =
      some ((s.withTables s.tables).setStack t [.iget dev nr, .userInode]) := by
    simp [next, hstack, FsCall.buf, FsCall.inode, FsCall.frames, setBufs, setInodes, setStack,
      withTables]
  have h₁ := reachable_linked h hcall t (fun u hu => Function.update_of_ne hu _ _)
    (by simp [setStack, Frame.frees])
  have h₂ := reachable_linked_exec h₁ choice (by simp only [Frame.exec, hdev, if_false]; rfl) rfl
    (by simp [stackAfter, Frame.frees])
  -- `get_empty_inode` takes the spare slot
  obtain ⟨w, hw⟩ : ∃ w, w = ({ s.tables with lastInode := e } : Tables).setInode e
      { MInode.zero with count := 1 } := ⟨_, rfl⟩
  have hwi : w.inode i = s.tables.inode i := by rw [hw, Tables.setInode_apply, if_neg hie]
  have h₃ := reachable_linked_exec h₂ choice (by simp only [Frame.exec, hpick]; rfl) rfl
    (by simp [stackAfter, Frame.frees])
  have h₄ := reachable_linked_exec h₃ choice (l := [.igetSearch dev nr e, .userInode])
    (n := .ret (some e)) (show _ = some (w, _) by simp [Frame.exec, he, MInode.zero, hw]) rfl
    (by simp [Frame.frees])
  -- the search finds the inode, and the spare slot is given back
  have hfind' : w.findInode dev nr = some i := by
    rw [hw]
    exact hfind
  have h₅ := reachable_linked_exec h₄ choice (l := [.igetWait dev nr e i, .userInode])
    (n := .go (.igetWait dev nr e i)) (show _ = some (w, _) by simp only [Frame.exec, hfind']) rfl
    (by simp [Frame.frees])
  have h₆ := reachable_linked_exec h₅ choice (l := [.iput e, .igetDone i, .userInode])
    (n := .call (.igetDone i) (.iput e))
    (show _ = some (w.setInode i (s.tables.inode i).inc, _) by
      simp [Frame.exec, hwi, hlock, hi, hnum, hmount]) rfl (by simp [Frame.frees])
  have hwe : (w.setInode i (s.tables.inode i).inc).inode e = { MInode.zero with count := 1 } := by
    rw [Tables.setInode_apply, if_neg (Ne.symm hie), hw, Tables.setInode_apply, if_pos rfl]
  have h₇ := reachable_linked_exec h₆ choice (l := [.igetDone i, .userInode]) (n := .ret none)
    (show _ = some ((w.setInode i (s.tables.inode i).inc).setInode e .zero, _) by
      simp [Frame.exec, hwe, MInode.zero, MInode.dec]) rfl (by simp [Frame.frees])
  have h₈ := reachable_linked_exec h₇ choice (l := [.gotInode (some i)]) (by rfl) rfl
    (by simp [Frame.frees])
  have htables : (w.setInode i (s.tables.inode i).inc).setInode e .zero =
      { s.tables.setInode i (s.tables.inode i).inc with lastInode := e } := by
    rw [hw]
    simp only [Tables.setInode, Tables.mk.injEq, and_true, true_and]
    rw [Function.update_comm (Ne.symm hie), Function.update_idem, ← he,
      Function.update_comm hie, Function.update_eq_self]
  apply reachable_linked h₈ (e := .take t) _ t
  · intro u hu
    simp [setStack, setInodes, withTables, Function.update_of_ne hu]
  · simp [setInodes, withTables, hstack]
  · simp only [next, setStack, withTables, Function.update_self, htables, setInodes,
      Function.update_idem, Option.toList_some, List.singleton_append]
    rw [← hstack, Function.update_eq_self]

end

/-- `get_empty_inode` passes over the slots in use. -/
theorem pickInode_skip (w : Tables) (n m last : ℕ) (hlast : last < nrInode)
    (hbusy : ∀ j < m, (w.inode ((last + j + 1) % nrInode)).count ≠ 0) :
    w.pickInode (n + m) last none = w.pickInode n ((last + m) % nrInode) none := by
  induction m generalizing last with
  | zero =>
    rw [Nat.add_zero, Nat.add_zero, Nat.mod_eq_of_lt hlast]
  | succ m ih =>
    have hstep : (if nrInode ≤ last + 1 then 0 else last + 1) = (last + 1) % nrInode := by
      unfold nrInode at hlast ⊢
      split_ifs <;> omega
    have hlt : (last + 1) % nrInode < nrInode := Nat.mod_lt _ (by decide)
    rw [← Nat.add_assoc, Tables.pickInode, hstep]
    have hfirst := hbusy 0 (by omega)
    simp only [Nat.add_zero] at hfirst
    simp only [hfirst, if_false]
    rw [ih _ hlt]
    · congr 1
      unfold nrInode
      omega
    · intro j hj
      have hj' := hbusy (j + 1) (by omega)
      rwa [show (last + (j + 1) + 1) % nrInode = ((last + 1) % nrInode + j + 1) % nrInode by
        unfold nrInode; omega] at hj'

/-- Inode 5 of device 1 with two references. -/
def slotFive : MInode := { MInode.zero with nlinks := 1, dev := 1, num := 5, count := 2 }

/-- Slot 1 has inode 5 of device 1, and slot 2 is the only unused one. -/
structure Filled (s : FsSystem (Fin 3)) : Prop where
  stack : s.stack 0 = []
  lastInode : s.tables.lastInode = 2
  spare : s.tables.inode 2 = .zero
  slot : s.tables.inode 1 = slotFive
  busy : ∀ i < 32, i = 1 ∨ i = 2 ∨ (s.tables.inode i).count ≠ 0
  unused : (s.tables.inode 0).dev = 0

/-- The state after `k` more references to the inode in slot 1. -/
def referenced (s : FsSystem (Fin 3)) (k : ℕ) : FsSystem (Fin 3) :=
  (s.withTables (s.tables.setInode 1 { s.tables.inode 1 with count := (k + 2) % 65536 })).setInodes
    0 (List.replicate k 1 ++ s.inodes 0)

/-- The slots other than 1 stay as they are. -/
theorem referenced_inode (s : FsSystem (Fin 3)) (k : ℕ) {i : ℕ} (hi : i ≠ 1) :
    (s.referenced k).tables.inode i = s.tables.inode i := by
  simp only [referenced, setInodes, withTables]
  rw [Tables.setInode_apply, if_neg hi]

theorem referenced_one (s : FsSystem (Fin 3)) (k : ℕ) : (s.referenced k).tables.inode 1 =
    { s.tables.inode 1 with count := (k + 2) % 65536 } := by
  simp only [referenced, setInodes, withTables]
  rw [Tables.setInode_apply, if_pos rfl]

/-- One more reference. -/
theorem Filled.referenced_succ {s : FsSystem (Fin 3)} (h : s.Filled) (k : ℕ) :
    ((s.referenced k).withTables { (s.referenced k).tables.setInode 1
      ((s.referenced k).tables.inode 1).inc with lastInode := 2 }).setInodes 0
        (1 :: (s.referenced k).inodes 0) = s.referenced (k + 1) := by
  have hinc : ((s.referenced k).tables.inode 1).inc =
      { s.tables.inode 1 with count := (k + 1 + 2) % 65536 } := by
    rw [referenced_one]
    unfold MInode.inc
    simp only [MInode.mk.injEq, and_true, true_and]
    omega
  rw [hinc]
  simp only [referenced, setInodes, withTables, Tables.setInode, Function.update_idem,
    Function.update_self, List.replicate_succ, List.cons_append, FsSystem.mk.injEq,
    Tables.mk.injEq, true_and, and_true]
  exact h.lastInode.symm

/-- Any number of references up to 65536 can be taken. -/
theorem Filled.reachable_referenced {s : FsSystem (Fin 3)} (h : s.Filled)
    (hs : Reachable Boot LinkedStep s) {k : ℕ} (hk : k ≤ 65534) :
    Reachable Boot LinkedStep (s.referenced k) := by
  induction k with
  | zero =>
    have hzero : s.referenced 0 = s := by
      have hcount : { s.tables.inode 1 with count := (0 + 2) % 65536 } = s.tables.inode 1 := by
        rw [h.slot]
        rfl
      simp only [referenced, hcount, setInodes, withTables, Tables.setInode,
        Function.update_eq_self, List.replicate_zero, List.nil_append]
    rw [hzero]
    exact hs
  | succ k ih =>
    rw [← h.referenced_succ]
    have hone := s.referenced_one k
    rw [h.slot] at hone
    have htwo := (s.referenced_inode k (show 2 ≠ 1 by omega)).trans h.spare
    apply reachable_iget (ih (by omega)) 0 1 5
    · exact h.stack
    · omega
    · -- all slots but 2 are in use
      have hskip := pickInode_skip (s.referenced k).tables 1 31 2
        (by decide)
        (by
          intro j hj
          by_cases hj30 : j = 30
          · subst j
            rw [show (2 + 30 + 1) % nrInode = 1 by rfl, hone]
            simp only
            omega
          · have hlt : (2 + j + 1) % nrInode < 32 ∧ (2 + j + 1) % nrInode ≠ 1 ∧
                (2 + j + 1) % nrInode ≠ 2 := by
              unfold nrInode
              omega
            rw [referenced_inode s k hlt.2.1]
            exact ((h.busy _ hlt.1).resolve_left hlt.2.1).resolve_left hlt.2.2)
      rw [show (s.referenced k).tables.lastInode = 2 from h.lastInode,
        show nrInode = 1 + 31 from rfl, hskip, show (2 + 31) % nrInode = 1 from rfl]
      simp [Tables.pickInode, nrInode, htwo, MInode.zero]
    · exact htwo
    · simp only [Tables.findInode]
      rw [List.find?_range_eq_some]
      refine ⟨?_, by decide, ?_⟩
      · rw [Tables.setInode_apply, if_neg (by omega), hone]
        rfl
      · intro j hj
        obtain rfl : j = 0 := by omega
        rw [Tables.setInode_apply, if_neg (by omega), referenced_inode s k (by omega), h.unused]
        rfl
    · omega
    · rw [hone]
      rfl
    · rw [hone]
      rfl
    · rw [hone]
      rfl
    · rw [hone]
      rfl

/-- The data of an inode with a link. -/
def linked : Choice := { device := true, data := ⟨0, 1, 0⟩, trunc := .finish }

/-- A call of a task with a number of its steps. -/
def calls (t : Fin 3) (c : FsCall) (k : ℕ) : List (FsEvent (Fin 3)) :=
  .call t c :: List.replicate k (.exec t linked)

/-- More steps of a task, after which it takes its result. -/
def takes (t : Fin 3) (k : ℕ) : List (FsEvent (Fin 3)) :=
  (.take t :: List.replicate k (.exec t linked)).reverse

/-- The events of a run without `truncate`. -/
def linkedNext (s : FsSystem (Fin 3)) (e : FsEvent (Fin 3)) : Option (FsSystem (Fin 3)) :=
  (s.next e).filter fun s' => decide (∀ t, ∀ f ∈ s'.stack t, f.frees = false)

/-- Task 1 takes slot 3 and task 0 all others; task 0 releases the slots 1 and 2, and gets inode 5
of device 1 twice. -/
def fillTable : List (FsEvent (Fin 3)) :=
  List.flatten [[.readSuper 0 1 1 1],
    (0 :: 0 :: 1 :: List.replicate 29 0).flatMap fun t => calls t .getEmptyInode 0 ++ takes t 2,
    calls 0 (.iput 1) 2, calls 0 (.iput 2) 2, calls 0 (.iget 1 5) 14, [.interrupt 0 true],
    takes 0 5, calls 0 (.iget 1 5) 0, takes 0 7]

/-- With 65536 references to slot 1 its `i_count` is 0. Task 1 reads inode 40 into slot 3; task 2
looks for the same inode, gets slot 1 as its spare slot and waits for slot 3; task 0 releases a
reference to slot 1, gets the slot again for inode 9, and clears slot 3 after task 1 has
released it. -/
def overwrite : List (FsEvent (Fin 3)) :=
  List.flatten [calls 1 (.iput 3) 2, calls 1 (.iget 1 40) 14, calls 2 (.iget 1 40) 4,
    calls 0 (.iput 1) 2, calls 0 .getEmptyInode 0, takes 0 2, calls 0 (.iget 1 9) 0, takes 0 16,
    [.interrupt 1 true], takes 1 5, calls 1 (.iput 3) 3, calls 0 .getEmptyInode 0, takes 0 2,
    [.exec 2 linked]]

theorem LinkedStep.of_linkedNext {s s' : FsSystem (Fin 3)} {e : FsEvent (Fin 3)}
    (h : linkedNext s e = some s') : LinkedStep s s' := by
  obtain ⟨hnext, hP⟩ := Option.filter_eq_some_iff.mp h
  exact ⟨⟨e, hnext⟩, of_decide_eq_true hP⟩

/-- Task 2 is woken up and fills its spare slot, slot 1, which task 0 has in use. -/
theorem iget_overwrites : ∃ s s' : FsSystem (Fin 3), Reachable Boot LinkedStep s ∧
    LinkedStep s s' ∧ (s.tables.inode 1).dev = 1 ∧ (s.tables.inode 1).num = 9 ∧
    (s.tables.inode 1).count = 1 ∧ (s'.tables.inode 1).dev = 1 ∧
    (s'.tables.inode 1).num = 40 := by
  have hrun : (runEvents linkedNext (boot (Fin 3) 2 fun _ => 0) fillTable).any (fun s =>
      decide (s.stack 0 = [] ∧ s.tables.lastInode = 2 ∧ s.tables.inode 2 = .zero ∧
        s.tables.inode 1 = slotFive ∧
        (∀ i : ℕ, i < 32 → i = 1 ∨ i = 2 ∨ (s.tables.inode i).count ≠ 0) ∧
        (s.tables.inode 0).dev = 0) &&
      (runEvents linkedNext (s.referenced 65534) overwrite).any (fun s' =>
        decide ((s'.tables.inode 1).dev = 1 ∧ (s'.tables.inode 1).num = 9 ∧
          (s'.tables.inode 1).count = 1) &&
        (linkedNext s' (.exec 2 linked)).any fun s'' =>
          decide ((s''.tables.inode 1).dev = 1 ∧ (s''.tables.inode 1).num = 40))) = true := by
    decide +kernel
  have hboot : Reachable Boot LinkedStep (boot (Fin 3) 2 fun _ => 0) :=
    .of_init ⟨2, _, by omega, rfl⟩
  obtain ⟨s, hs, -, hP⟩ := hboot.exists_runEvents (fun _ _ _ he => .of_linkedNext he) hrun
  obtain ⟨hfilled, hover⟩ := Bool.and_eq_true_iff.mp hP
  obtain ⟨hstack, hlast, hspare, hslot, hbusy, hunused⟩ := of_decide_eq_true hfilled
  have hreferenced := Filled.reachable_referenced ⟨hstack, hlast, hspare, hslot, hbusy, hunused⟩ hs
    (le_refl 65534)
  obtain ⟨s', hs', -, hP'⟩ :=
    hreferenced.exists_runEvents (fun _ _ _ he => .of_linkedNext he) hover
  obtain ⟨hbefore, hlast⟩ := Bool.and_eq_true_iff.mp hP'
  obtain ⟨hdev, hnum, hcount⟩ := of_decide_eq_true hbefore
  obtain ⟨s'', hstep, hafter⟩ := (Option.any_eq_true _ _).mp hlast
  obtain ⟨hdev', hnum'⟩ := of_decide_eq_true hafter
  exact ⟨s', s'', hs', .of_linkedNext hstep, hdev, hnum, hcount, hdev', hnum'⟩

end FsSystem

end LihaLinux.Fs
