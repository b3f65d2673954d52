import LihaLinux.Mm.TaskSystem

/-!
# The invariants of runs of tasks

Beyond exact counters and private writable frames: page tables exist only
inside the segments of live tasks, and a task asleep in a demand load owns the
page it waits for. The second invariant, `Pristine`, is about contents: a clean
page of an executable still holds what `do_no_page` would load.
-/

namespace LihaLinux.Mm

variable {files : ℕ → Executable} {lo hi : ℕ} {k : Kernel} {s s' : State} {held : Finset ℕ}
  {d d' j t t' f slot : ℕ} {w w' : Word} {q : Task}

/-- The directory entries a slot may use. -/
def slotDirs (task : ℕ → Option Task) (slot : ℕ) : ℕ :=
  ((task slot).map fun t => dirCount t.limit).getD 0

private theorem getD_map_some {o : Option Task} (h : o = some q) (g : Task → ℕ) :
    (o.map g).getD 0 = g q := by
  rw [h]
  rfl

theorem slotDirs_some {task : ℕ → Option Task} (h : task slot = some q) :
    slotDirs task slot = dirCount q.limit := getD_map_some h _

/-- The segments of the tasks. -/
structure Task.Sound (files : ℕ → Executable) (slot : ℕ) (t : Task) : Prop where
  code_le : t.codeLimit ≤ t.limit
  limit_le : t.limit ≤ 0x4000000
  kernel : slot = 0 → t.limit ≤ 0x400000 ∧ t.executable = none
  endData : ∀ e, t.executable = some e →
    t.endData = (files e).text + (files e).data ∧ t.endData ≤ 0x3000000

/-- A task asleep in a demand load. -/
structure Loading (k : Kernel) (slot address page : ℕ) : Prop where
  range : 1 ≤ slot ∧ slot < 64
  held : page ∈ k.held
  inSlot : InSlot slot address
  absent : k.mm.pageOf address = none
  task : ∃ t e, k.task slot = some t ∧ t.executable = some e ∧
    address - address % 4096 - slotBase slot < t.endData ∧ address - slotBase slot < t.limit

/-- The invariant of runs of tasks. -/
structure TaskInv (files : ℕ → Executable) (lo hi : ℕ) (k : Kernel) : Prop where
  inv : Inv lo hi ⟨k.mm, k.held⟩
  isolated : k.mm.Private
  tables : ∀ e, k.mm.table e ≠ none → e % 16 < slotDirs k.task (e / 16)
  tasks : ∀ slot t, k.task slot = some t → t.Sound files slot
  loads : ∀ slot address page, k.loading slot = some (address, page) → Loading k slot address page
  distinct : ∀ slot slot' a a' page, k.loading slot = some (a, page) →
    k.loading slot' = some (a', page) → slot = slot'

/-- The task-relative address of a page-table entry. -/
def pageOffset (d j : ℕ) : ℕ := d % 16 * 0x400000 + j * 4096

theorem pageOffset_eq {address : ℕ} (ha : InSlot slot address) :
    pageOffset (dirIndex address) (tableIndex address) =
      address - address % 4096 - slotBase slot := by
  obtain ⟨hlow, hhigh⟩ := ha
  rw [pageOffset, dirIndex_eq, tableIndex_eq]
  unfold slotBase at *
  omega

/-- An entry of a task that runs an executable maps a counted page, and a clean
page of the image has the contents of the file. -/
def PristineAt (files : ℕ → Executable) (task : ℕ → Option Task) (s : State) (d j : ℕ)
    (w : Word) : Prop :=
  ∀ t e, task (d / 16) = some t → t.executable = some e → lowMem ≤ frame w ∧
    (dirty w = false → pageOffset d j < t.endData →
      ∀ x < 4096, s.byte (frame w) x = imageByte (files e) t.endData (pageOffset d j + x))

/-- Every entry is pristine. -/
def Pristine (files : ℕ → Executable) (task : ℕ → Option Task) (s : State) : Prop :=
  ∀ d j w, s.entry d j = some w → PristineAt files task s d j w

theorem frame_eq_of_key (h : key w' = key w) : frame w' = frame w := (Prod.mk.inj h).1

theorem dirty_eq_of_key (h : key w' = key w) : dirty w' = dirty w := (Prod.mk.inj h).2

/-- A pristine entry stays so while its frame, its dirty bit and its page do. -/
theorem PristineAt.keep {task : ℕ → Option Task} (h : PristineAt files task s d j w)
    (hkey : key w' = key w) (hmem : frame w ≠ 0 → s'.mem (frame w) = s.mem (frame w)) :
    PristineAt files task s' d j w' := by
  intro t e ht he
  obtain ⟨hhigh, hbytes⟩ := h t e ht he
  rw [frame_eq_of_key hkey]
  refine ⟨hhigh, fun hclean hin x hx => ?_⟩
  rw [← hbytes (by rw [← dirty_eq_of_key hkey]; exact hclean) hin x hx]
  unfold State.byte
  rw [hmem (ne_kernel_page hhigh).1]

theorem PristineAt.of_dirty {task : ℕ → Option Task} (hdirty : dirty w = true)
    (hhigh : lowMem ≤ frame w) : PristineAt files task s d j w := by
  intro t e _ _
  exact ⟨hhigh, fun hclean => by simp [hdirty] at hclean⟩

/-! ### Changes of memory that keep the task table -/

/-- Memory changes on behalf of one slot: page tables appear only inside its
segment, and entries only in its slot. -/
theorem TaskInv.memory (h : TaskInv files lo hi k) (hinv : Inv lo hi ⟨s', held⟩)
    (hpriv : s'.Private)
    (hheld : ∀ slot a page, k.loading slot = some (a, page) → page ∈ held)
    (htable : ∀ e, s'.table e ≠ none → k.mm.table e = none → e % 16 < slotDirs k.task (e / 16))
    (hentry : ∀ e i, s'.entry e i ≠ none → k.mm.entry e i = none → k.loading (e / 16) = none) :
    TaskInv files lo hi { k with mm := s', held := held } where
  inv := hinv
  isolated := hpriv
  tables := by
    intro e he
    by_cases hold : k.mm.table e = none
    · exact htable e he hold
    · exact h.tables e hold
  tasks := h.tasks
  loads := by
    intro slot address page hload
    obtain ⟨hrange, _, hslot, habsent, htask⟩ := h.loads slot address page hload
    refine ⟨hrange, hheld slot address page hload, hslot, ?_, htask⟩
    by_contra hne
    have := hentry _ _ hne habsent
    rw [hslot.dir_div hrange.2] at this
    simp only at hload
    rw [hload] at this
    simp at this
  distinct := h.distinct

theorem TaskInv.held_of_loading (h : TaskInv files lo hi k) (slot a page : ℕ)
    (hload : k.loading slot = some (a, page)) : page ∈ k.held := (h.loads slot a page hload).held

theorem TaskInv.ne_of_notLoading (h : TaskInv files lo hi k) {page : ℕ} (hfree : k.NotLoading page)
    {slot a p : ℕ} (hload : k.loading slot = some (a, p)) : p ≠ page :=
  hfree slot (List.mem_range.mpr (h.loads slot a p hload).range.2) (a, p) hload

/-- The directory entry of an address inside the segment. -/
theorem dir_lt_slotDirs {address : ℕ} (htask : k.task slot = some q) (hlimit : q.limit ≤ 0x4000000)
    (hlt : slot < 64) (ha : InSlot slot address) (hin : address - slotBase slot < q.limit) :
    dirIndex address % 16 < slotDirs k.task (dirIndex address / 16) := by
  rw [ha.dir_div hlt, slotDirs_some htask, dirCount_eq hlimit, dirIndex_eq]
  obtain ⟨hlow, hhigh⟩ := ha
  unfold slotBase at *
  omega

/-- One entry of a task's slot is written, with all mapped pages unchanged. -/
theorem TaskInv.rewrites (h : TaskInv files lo hi k) {v : Word} {address : ℕ}
    (hinv : Inv lo hi ⟨s', held⟩) (hpriv : s'.Private)
    (hheld : ∀ slot a page, k.loading slot = some (a, page) → page ∈ held)
    (hrew : Rewrites (dirIndex address) (tableIndex address) (some v) k.mm s')
    (htable : k.mm.table (dirIndex address) ≠ none ∨
      dirIndex address % 16 < slotDirs k.task (dirIndex address / 16))
    (hload : k.mm.pageOf address ≠ none ∨ k.loading (dirIndex address / 16) = none) :
    TaskInv files lo hi { k with mm := s', held := held } := by
  refine h.memory hinv hpriv hheld (fun e he hold => ?_) (fun e i he hold => ?_)
  · by_cases heq : e = dirIndex address
    · rw [heq] at hold ⊢
      exact htable.resolve_left fun hne => hne hold
    · rw [hrew.table e heq] at he
      exact absurd hold he
  · rw [hrew.entry] at he
    split at he
    · next heq =>
      rw [heq.1, heq.2] at hold
      rw [heq.1]
      exact hload.resolve_left fun hne => hne hold
    · exact absurd hold he

theorem Pristine.rewrites {task : ℕ → Option Task} (hp : Pristine files task s) {v : Word}
    (hrew : Rewrites d j (some v) s s') (hv : PristineAt files task s' d j v) :
    Pristine files task s' := by
  intro e i u hu
  rw [hrew.entry] at hu
  split at hu
  · next heq =>
    obtain rfl : v = u := by simpa using hu
    rw [heq.1, heq.2]
    exact hv
  · exact (hp e i u hu).keep rfl fun hne => hrew.data _ hne ⟨e, i, u, hu, rfl⟩

theorem Pristine.untouched {task : ℕ → Option Task} (hp : Pristine files task s)
    (hsame : Untouched s s') : Pristine files task s' := by
  intro e i u hu
  rw [hsame.entry] at hu
  exact (hp e i u hu).keep rfl fun _ => hsame.data _ ⟨e, i, u, hu, rfl⟩

theorem TaskInv.untouched (h : TaskInv files lo hi k) (hinv : Inv lo hi ⟨s', held⟩)
    (hpriv : s'.Private)
    (hheld : ∀ slot a page, k.loading slot = some (a, page) → page ∈ held)
    (hsame : Untouched k.mm s') : TaskInv files lo hi { k with mm := s', held := held } := by
  refine h.memory hinv hpriv hheld (fun e he hold => ?_) (fun e i he hold => ?_)
  · rw [hsame.table] at he
    exact absurd hold he
  · rw [hsame.entry] at he
    exact absurd hold he

/-! ### Emptying a slot -/

/-- `do_exit` and `do_execve` empty the slot and touch nothing else. -/
theorem freeSlot_spec (h : TaskInv files lo hi k) (hslot : 1 ≤ slot) (hlt : slot < 64)
    (htask : k.task slot = some q) :
    ∃ s', freeSlot k.mm slot q = .ok () s' ∧ Moves ⟨k.mm, k.held⟩ ⟨s', k.held⟩ ∧
      (∀ g, g ≠ 0 → k.mm.Mapped g → s'.mem g = k.mm.mem g) ∧
      (∀ e, s'.table e = if e / 16 = slot then none else k.mm.table e) ∧
      ∀ e i, s'.entry e i = if e / 16 = slot then none else k.mm.entry e i := by
  have hsound := h.tasks slot q htask
  obtain ⟨s₁, hrun1, hmoves1, hdata1, htable1, hentry1⟩ :=
    freePageTables_spec h.inv hslot hlt (hsound.code_le.trans hsound.limit_le)
  have h1 := Moves.inv hmoves1 h.inv
  obtain ⟨s₂, hrun2, hmoves2, hdata2, htable2, hentry2⟩ :=
    freePageTables_spec h1 hslot hlt hsound.limit_le
  have hle : dirCount q.codeLimit ≤ dirCount q.limit := by
    rw [dirCount_eq hsound.limit_le, dirCount_eq (hsound.code_le.trans hsound.limit_le)]
    have := hsound.code_le
    omega
  have hcount := dirCount_le hsound.limit_le
  -- beyond the segment there was no page table
  have hnone : ∀ e, e / 16 = slot → ¬(16 * slot ≤ e ∧ e < 16 * slot + dirCount q.limit) →
      k.mm.table e = none := by
    intro e he hout
    by_contra hne
    have := h.tables e hne
    rw [he, slotDirs_some htask] at this
    omega
  have htable : ∀ e, s₂.table e = if e / 16 = slot then none else k.mm.table e := by
    intro e
    rw [htable2, htable1]
    by_cases hin : 16 * slot ≤ e ∧ e < 16 * slot + dirCount q.limit
    · rw [if_pos hin, if_pos (by omega)]
    · rw [if_neg hin, if_neg (by omega)]
      split
      · next he => exact hnone e he hin
      · rfl
  refine ⟨s₂, ?_, hmoves1.trans hmoves2, ?_, htable, ?_⟩
  · rw [freeSlot, Result.bind_of_ok hrun1, hrun2]
  · intro g hg hmapped
    have hnot := h.inv.mapped_not_table hmapped
    rw [hdata2 g hg ?_, hdata1 g hg hnot]
    intro e he
    rw [htable1] at he
    split at he
    · simp at he
    · exact hnot e he
  · intro e i
    rw [hentry2, hentry1]
    by_cases hin : 16 * slot ≤ e ∧ e < 16 * slot + dirCount q.limit
    · rw [if_pos hin, if_pos (by omega)]
    · rw [if_neg hin, if_neg (by omega)]
      split
      · next he => exact State.entry_of_table_none (hnone e he hin) i
      · rfl

/-- The slot is emptied and the task replaced. -/
theorem TaskInv.replace (h : TaskInv files lo hi k) {new : Option Task}
    (hload : k.loading slot = none) (hmoves : Moves ⟨k.mm, k.held⟩ ⟨s', k.held⟩)
    (htable : ∀ e, s'.table e = if e / 16 = slot then none else k.mm.table e)
    (hentry : ∀ e i, s'.entry e i = if e / 16 = slot then none else k.mm.entry e i)
    (hnew : ∀ t, new = some t → t.Sound files slot) :
    TaskInv files lo hi ((k.withMm s').setTask slot new) where
  inv := Moves.inv hmoves h.inv
  isolated := Moves.private hmoves h.inv h.isolated
  tables := by
    intro e he
    simp only [Kernel.setTask, Kernel.withMm] at he ⊢
    rw [htable] at he
    by_cases heq : e / 16 = slot
    · rw [if_pos heq] at he
      exact absurd rfl he
    · rw [if_neg heq] at he
      have := h.tables e he
      unfold slotDirs at this ⊢
      simp only [if_neg heq]
      exact this
  tasks := by
    intro slot' t ht
    simp only [Kernel.setTask, Kernel.withMm] at ht
    split at ht
    · next heq =>
      rw [heq]
      exact hnew t ht
    · exact h.tasks slot' t ht
  loads := by
    intro slot' address page hl
    obtain ⟨hrange, hheld, hslot, habsent, htask⟩ := h.loads slot' address page hl
    have hne : slot' ≠ slot := by
      rintro rfl
      simp only [Kernel.setTask, Kernel.withMm] at hl
      rw [hload] at hl
      simp at hl
    refine ⟨hrange, hheld, hslot, ?_, ?_⟩
    · simp only [Kernel.setTask, Kernel.withMm, State.pageOf]
      rw [hentry]
      split
      · rfl
      · exact habsent
    · simp only [Kernel.setTask, Kernel.withMm, if_neg hne]
      exact htask
  distinct := h.distinct

theorem Pristine.replace {task : ℕ → Option Task} (hp : Pristine files task s) {new : Option Task}
    (hdata : ∀ g, g ≠ 0 → s.Mapped g → s'.mem g = s.mem g)
    (hentry : ∀ e i, s'.entry e i = if e / 16 = slot then none else s.entry e i) :
    Pristine files (fun n => if n = slot then new else task n) s' := by
  intro e i u hu
  rw [hentry] at hu
  split at hu
  · simp at hu
  · next hne =>
    intro t x ht hx
    simp only [if_neg hne] at ht
    exact (hp e i u hu).keep rfl (fun hne => hdata _ hne ⟨e, i, u, hu, rfl⟩) t x ht hx

theorem exitSlot_eq (htask : k.task slot = some q) (hrun : freeSlot k.mm slot q = .ok () s') :
    exitSlot k slot = some ((k.withMm s').setTask slot none) := by
  rw [exitSlot, htask, Option.bind_some, hrun, Kernel.replaceTask]

/-- `do_exit` keeps both invariants. -/
theorem exitSlot_spec (h : TaskInv files lo hi k) (hslot : 1 ≤ slot) (hlt : slot < 64)
    (htask : k.task slot ≠ none) (hload : k.loading slot = none) :
    ∃ k', exitSlot k slot = some k' ∧ TaskInv files lo hi k' ∧
      (Pristine files k.task k.mm → Pristine files k'.task k'.mm) := by
  obtain ⟨q, hq⟩ := Option.ne_none_iff_exists'.mp htask
  obtain ⟨s', hrun, hmoves, hdata, htable, hentry⟩ := freeSlot_spec h hslot hlt hq
  refine ⟨(k.withMm s').setTask slot none, exitSlot_eq hq hrun,
    h.replace hload hmoves htable hentry (by simp), fun hp => hp.replace hdata hentry⟩

end LihaLinux.Mm
