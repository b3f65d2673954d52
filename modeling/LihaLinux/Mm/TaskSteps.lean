import LihaLinux.Mm.TaskInvariant

/-!
# Every step of a run of tasks keeps the invariants

One lemma for each kind of step. The invariant `TaskInv` survives every step;
`Pristine` survives every step that is clean: `un_wp_page` is not made to copy
a dirty page of an executable, except within a user store.
-/

namespace LihaLinux.Mm

variable {files : ℕ → Executable} {lo hi : ℕ} {k k' : Kernel} {s s' : State} {held : Finset ℕ}
  {d d' j t t' f slot : ℕ} {w w' : Word} {q : Task}

/-- `un_wp_page` at this address does not copy a dirty page of an image: a dirty
page of an executable has a single reference. -/
def CleanFault (k : Kernel) (address : ℕ) : Prop :=
  ∀ w t, k.mm.pageOf address = some w → dirty w = true →
    k.task (dirIndex address / 16) = some t → t.executable ≠ none →
    pageOffset (dirIndex address) (tableIndex address) < t.endData →
    lowMem ≤ frame w ∧ k.mm.memMap (mapNr (frame w)) = 1

/-- Steps that do not lose a dirty bit. In a user store the copy is followed by
the store, which marks it dirty again. -/
def TaskOp.Clean (k : Kernel) : TaskOp → Prop
  | .doWpPage _ address => CleanFault k address
  | .writeVerify _ address => CleanFault k address
  | _ => True

/-- Both invariants after a step; the second one if the step is clean. -/
def Keeps (files : ℕ → Executable) (lo hi : ℕ) (clean : Prop) (k k' : Kernel) : Prop :=
  TaskInv files lo hi k' ∧ (clean → Pristine files k.task k.mm → Pristine files k'.task k'.mm)

theorem Keeps.refl (h : TaskInv files lo hi k) (clean : Prop) : Keeps files lo hi clean k k :=
  ⟨h, fun _ hp => hp⟩

/-! ### Frames taken and given back -/

theorem untouched_of_getFreePage (h : Inv lo hi ⟨s, held⟩) (hget : getFreePage s = some (f, s')) :
    Untouched s s' := by
  obtain ⟨_, _, _, hfree, _, htable, hentry, _, hmem⟩ := getFreePage_spec h hget
  exact ⟨hentry, htable, fun g hg => hmem g (by rintro rfl; exact hfree hg)⟩

theorem keeps_getFreePage (h : TaskInv files lo hi k) (clean : Prop)
    (hrun : TaskOp.getFreePage.run files k = some k') : Keeps files lo hi clean k k' := by
  simp only [TaskOp.run] at hrun
  cases hget : getFreePage k.mm with
  | none =>
    rw [hget] at hrun
    obtain rfl : k = k' := by simpa using hrun
    exact .refl h clean
  | some res =>
    obtain ⟨page, s⟩ := res
    rw [hget] at hrun
    obtain rfl := Option.some.inj hrun
    have hmove := (getFreePage_spec h.inv hget).1
    have hsame := untouched_of_getFreePage h.inv hget
    refine ⟨h.untouched (hmove.inv h.inv) (hmove.private h.inv h.isolated) ?_ hsame,
      fun _ hp => hp.untouched hsame⟩
    intro slot a p hload
    exact Finset.mem_insert_of_mem (h.held_of_loading slot a p hload)

theorem keeps_freePage (h : TaskInv files lo hi k) (clean : Prop) {page : ℕ}
    (hen : (TaskOp.freePage page).Enabled k)
    (hrun : (TaskOp.freePage page).run files k = some k') : Keeps files lo hi clean k k' := by
  obtain ⟨hheld, hfree⟩ := hen
  simp only [TaskOp.run] at hrun
  rw [freePage_held h.inv hheld] at hrun
  obtain rfl := Option.some.inj hrun
  have hmove : Move ⟨k.mm, k.held⟩ ⟨k.mm.decMap page, k.held.erase page⟩ := .drop hheld
  have hsame : Untouched k.mm (k.mm.decMap page) := ⟨rfl, rfl, fun _ _ => rfl⟩
  refine ⟨h.untouched (hmove.inv h.inv) (hmove.private h.inv h.isolated) ?_ hsame,
    fun _ hp => hp.untouched hsame⟩
  intro slot a p hload
  exact Finset.mem_erase.mpr ⟨h.ne_of_notLoading hfree hload, h.held_of_loading slot a p hload⟩

/-- A fresh page outside the image of an executable is pristine. -/
theorem pristineAt_fresh (hf : lowMem ≤ f) (hlt : f < lowMem + pagingPages) {address : ℕ}
    (ha : InSlot slot address) (hslot : slot < 64) (htask : k.task slot = some q)
    (hout : q.executable = none ∨ q.endData ≤ address - address % 4096 - slotBase slot) :
    PristineAt files k.task s (dirIndex address) (tableIndex address) (pageAddr f ||| 7#32) := by
  intro t e ht he
  rw [ha.dir_div hslot, htask] at ht
  obtain rfl := Option.some.inj ht
  have hframe : frame (pageAddr f ||| 7#32) = f := by
    apply frame_fresh
    unfold lowMem pagingPages at hlt
    omega
  rw [hframe]
  refine ⟨hf, fun _ hin => ?_⟩
  rw [pageOffset_eq ha] at hin
  rcases hout with hnone | hle
  · simp [hnone] at he
  · omega

/-- The slot of a user address. -/
theorem slot_of_user {address : ℕ} (h : UserAddress address) :
    1 ≤ address / 0x4000000 ∧ address / 0x4000000 < 64 ∧
      InSlot (address / 0x4000000) address ∧
      address % 0x4000000 = address - slotBase (address / 0x4000000) ∧
      address % 0x4000000 - address % 4096 =
        address - address % 4096 - slotBase (address / 0x4000000) := by
  obtain ⟨hlow, hhigh⟩ := h
  unfold InSlot slotBase
  omega

theorem keeps_putPage (h : TaskInv files lo hi k) (clean : Prop) {page address : ℕ}
    (hen : (TaskOp.putPage page address).Enabled k)
    (hrun : (TaskOp.putPage page address).run files k = some k') :
    Keeps files lo hi clean k k' := by
  obtain ⟨⟨hheld, hfree⟩, huser, hempty, hload, q, htask, hin, hout⟩ := hen
  obtain ⟨hslot, hlt, ha, hrel, hrel'⟩ := slot_of_user huser
  generalize address / 0x4000000 = slot at *
  rw [hrel] at hin
  rw [hrel'] at hout
  simp only [TaskOp.run] at hrun
  rcases putPage_spec h.inv hheld (ha.user hslot hlt) hempty with ⟨hput, _⟩ |
    ⟨s', hput, hmoves, hrew, _⟩
  · rw [hput] at hrun
    obtain rfl := Option.some.inj hrun
    exact .refl h clean
  · obtain ⟨hlo, hhi⟩ := h.inv.held_range hheld
    have hrun' : k' = { k with mm := s', held := k.held.erase page } := by
      obtain ⟨n, hn⟩ := Nat.exists_eq_succ_of_ne_zero (h.inv.held_ge_two hheld).1
      rw [hput, hn] at hrun
      rw [hn]
      exact (Option.some.inj hrun).symm
    rw [hrun']
    constructor
    · refine h.rewrites (Moves.inv hmoves h.inv) (Moves.private hmoves h.inv h.isolated) ?_ hrew
        (.inr (dir_lt_slotDirs htask (h.tasks _ _ htask).limit_le hlt ha hin))
        (.inr (by rw [ha.dir_div hlt]; exact hload))
      intro slot' a p hload'
      exact Finset.mem_erase.mpr ⟨h.ne_of_notLoading hfree hload',
        h.held_of_loading slot' a p hload'⟩
    · intro _ hp
      exact hp.rewrites hrew (pristineAt_fresh (h.inv.low.trans hlo)
        (lt_of_lt_of_le hhi h.inv.high) ha hlt htask hout)

/-! ### Fork, exec and exit -/

/-- A fork finds its target slot empty. -/
theorem TaskInv.forkReady (h : TaskInv files lo hi k) {toSlot : ℕ} (hslot : slot < 64)
    (htask : k.task slot = some q) (hto : 1 ≤ toSlot ∧ toSlot < 64)
    (hnone : k.task toSlot = none) : ForkReady k.mm slot toSlot q.limit where
  source := hslot
  target := hto
  distinct := by
    rintro rfl
    rw [htask] at hnone
    simp at hnone
  empty := by
    intro x hx
    by_contra hne
    have := h.tables _ hne
    rw [show (16 * toSlot + x) / 16 = toSlot by omega, slotDirs, hnone] at this
    simp at this
  size_le := (h.tasks _ _ htask).limit_le
  kernel := fun hz => ((h.tasks _ _ htask).kernel hz).1

/-- `copy_mem` that fails: the task table is unchanged. -/
theorem TaskInv.forkFailed (h : TaskInv files lo hi k) {toSlot : ℕ} {limit : ℕ}
    (hlimit : limit ≤ 0x4000000) (hmoves : Moves ⟨k.mm, k.held⟩ ⟨s', k.held⟩)
    (htable : ∀ e, ¬(16 * toSlot ≤ e ∧ e < 16 * toSlot + dirCount limit) →
      s'.table e = k.mm.table e)
    (hkeys : ∀ e i, ¬(16 * toSlot ≤ e ∧ e < 16 * toSlot + dirCount limit) →
      (s'.entry e i).map key = (k.mm.entry e i).map key)
    (hempty : s'.EmptySlot toSlot) : TaskInv files lo hi (k.withMm s') := by
  have hcount := dirCount_le hlimit
  have hin : ∀ e, (16 * toSlot ≤ e ∧ e < 16 * toSlot + dirCount limit) → s'.table e = none := by
    intro e he
    have := hempty (e - 16 * toSlot) (by omega)
    rwa [Nat.add_sub_cancel' he.1] at this
  refine h.memory (Moves.inv hmoves h.inv) (Moves.private hmoves h.inv h.isolated)
    h.held_of_loading (fun e he hold => ?_) (fun e i he hold => ?_)
  · by_cases hr : 16 * toSlot ≤ e ∧ e < 16 * toSlot + dirCount limit
    · exact absurd (hin e hr) he
    · rw [htable e hr] at he
      exact absurd hold he
  · by_cases hr : 16 * toSlot ≤ e ∧ e < 16 * toSlot + dirCount limit
    · exact absurd (State.entry_of_table_none (hin e hr) i) he
    · have := hkeys e i hr
      rw [hold, Option.map_none, Option.map_eq_none_iff] at this
      exact absurd this he

/-- `copy_mem` that succeeds: the child has the parent's task. -/
theorem TaskInv.forked (h : TaskInv files lo hi k) {toSlot : ℕ}
    (htask : k.task slot = some q) (hto : 1 ≤ toSlot ∧ toSlot < 64)
    (hnone : k.task toSlot = none) (hmoves : Moves ⟨k.mm, k.held⟩ ⟨s', k.held⟩)
    (htable : ∀ e, ¬(16 * toSlot ≤ e ∧ e < 16 * toSlot + dirCount q.limit) →
      s'.table e = k.mm.table e)
    (hkeys : ∀ e i, ¬(16 * toSlot ≤ e ∧ e < 16 * toSlot + dirCount q.limit) →
      (s'.entry e i).map key = (k.mm.entry e i).map key) :
    TaskInv files lo hi ((k.withMm s').setTask toSlot (some q)) where
  inv := Moves.inv hmoves h.inv
  isolated := Moves.private hmoves h.inv h.isolated
  tables := by
    intro e he
    simp only [Kernel.setTask, Kernel.withMm] at he ⊢
    have hcount := dirCount_le (h.tasks _ _ htask).limit_le
    by_cases heq : e / 16 = toSlot
    · rw [slotDirs_some (q := q) (by rw [if_pos heq])]
      by_contra hlt
      rw [htable e (by omega)] at he
      have := h.tables e he
      rw [heq, slotDirs, hnone] at this
      simp at this
    · rw [htable e (by omega)] at he
      have := h.tables e he
      unfold slotDirs at this ⊢
      simp only [if_neg heq]
      exact this
  tasks := by
    intro slot' t ht
    simp only [Kernel.setTask, Kernel.withMm] at ht
    split at ht
    · next heq =>
      obtain rfl := Option.some.inj ht
      have hsound := h.tasks _ _ htask
      exact ⟨hsound.code_le, hsound.limit_le, fun hz => by omega, hsound.endData⟩
    · exact h.tasks slot' t ht
  loads := by
    intro slot' address page hl
    obtain ⟨hrange, hheld, hslot, habsent, ht, e, hq, hrest⟩ := h.loads slot' address page hl
    have hne : slot' ≠ toSlot := by
      rintro rfl
      rw [hnone] at hq
      simp at hq
    have hcount := dirCount_le (h.tasks _ _ htask).limit_le
    refine ⟨hrange, hheld, hslot, ?_, ht, e, ?_, hrest⟩
    · have hdir := hslot.dir_div hrange.2
      have := hkeys (dirIndex address) (tableIndex address) (by omega)
      rw [show k.mm.entry (dirIndex address) (tableIndex address) = none from habsent,
        Option.map_none, Option.map_eq_none_iff] at this
      exact this
    · simp only [Kernel.setTask, Kernel.withMm, if_neg hne]
      exact hq
  distinct := h.distinct

/-- Entries that keep their keys and pages stay pristine. -/
theorem pristineAt_of_key (hp : Pristine files k.task k.mm) {e i : ℕ} {u : Word}
    (hdata : ∀ g, g ≠ 0 → k.mm.Mapped g → s'.mem g = k.mm.mem g)
    (hkey : (s'.entry e i).map key = (k.mm.entry e i).map key) (hu : s'.entry e i = some u) :
    PristineAt files k.task s' e i u := by
  rw [hu, Option.map_some] at hkey
  obtain ⟨v, hv, hkv⟩ := Option.map_eq_some_iff.mp hkey.symm
  exact (hp e i v hv).keep hkv.symm fun hne => hdata _ hne ⟨e, i, v, hv, rfl⟩

theorem Pristine.forked (hp : Pristine files k.task k.mm) (h : TaskInv files lo hi k) {toSlot : ℕ}
    (hready : ForkReady k.mm slot toSlot q.limit) (htask : k.task slot = some q)
    (hnone : k.task toSlot = none)
    (htable : ∀ e, ¬(16 * toSlot ≤ e ∧ e < 16 * toSlot + dirCount q.limit) →
      s'.table e = k.mm.table e)
    (hkeys : ∀ e i, ¬(16 * toSlot ≤ e ∧ e < 16 * toSlot + dirCount q.limit) →
      (s'.entry e i).map key = (k.mm.entry e i).map key)
    (hdata : ∀ g, g ≠ 0 → k.mm.Mapped g → s'.mem g = k.mm.mem g)
    (hcopy : ∀ x < dirCount q.limit,
      (∀ i < copyCount slot, (s'.entry (16 * toSlot + x) i).map key =
        (k.mm.sourceEntry (16 * slot + x) i).map key) ∧
      ∀ i w, s'.entry (16 * toSlot + x) i = some w → i < copyCount slot) :
    Pristine files (fun n => if n = toSlot then some q else k.task n) s' := by
  have hcount := dirCount_le hready.size_le
  intro e i u hu t x ht hx
  simp only at ht
  by_cases heq : e / 16 = toSlot
  · rw [if_pos heq] at ht
    obtain rfl := Option.some.inj ht
    have hslot : slot ≠ 0 := by
      rintro rfl
      simp [((h.tasks _ _ htask).kernel rfl).2] at hx
    by_cases hr : 16 * toSlot ≤ e ∧ e < 16 * toSlot + dirCount q.limit
    · -- a copied entry has the key of the parent's entry at the same offset
      obtain ⟨y, rfl⟩ : ∃ y, e = 16 * toSlot + y := ⟨e - 16 * toSlot, by omega⟩
      obtain ⟨hentry, hbound⟩ := hcopy y (by omega)
      have hi := hbound i u hu
      have hi' : i < 1024 := by
        unfold copyCount at hi
        split at hi <;> omega
      have hsource := hready.source
      have hkey := hentry i hi
      rw [State.sourceEntry_slot (mem_taskDirs.mpr ⟨by omega, by omega⟩) hi', hu,
        Option.map_some] at hkey
      obtain ⟨v, hv, hkv⟩ := Option.map_eq_some_iff.mp hkey.symm
      have hold : PristineAt files k.task s' (16 * slot + y) i u := (hp _ _ v hv).keep hkv.symm
        fun hne => hdata _ hne ⟨_, _, v, hv, rfl⟩
      have hparent := hold q x (by rw [show (16 * slot + y) / 16 = slot by omega]; exact htask) hx
      rw [show pageOffset (16 * toSlot + y) i = pageOffset (16 * slot + y) i by
        unfold pageOffset; omega]
      exact hparent
    · exfalso
      have htab : k.mm.table e = none := by
        by_contra hne
        have := h.tables e hne
        rw [heq, slotDirs, hnone] at this
        simp at this
      rw [State.entry_of_table_none (by rw [htable e hr]; exact htab)] at hu
      simp at hu
  · rw [if_neg heq] at ht
    exact pristineAt_of_key hp hdata (hkeys e i (by omega)) hu t x ht hx

theorem keeps_fork (h : TaskInv files lo hi k) (clean : Prop) {toSlot : ℕ}
    (hen : (TaskOp.fork slot toSlot).Enabled k)
    (hrun : (TaskOp.fork slot toSlot).run files k = some k') : Keeps files lo hi clean k k' := by
  obtain ⟨hslot, htask, _, hto, hnone⟩ := hen
  obtain ⟨q, hq⟩ := Option.ne_none_iff_exists'.mp htask
  have hready := h.forkReady hslot hq hto hnone
  obtain ⟨v, s', hcopy, hmoves, htable, hkeys, hdata, hcase⟩ := copyMem_spec h.inv hready
  rw [TaskOp.run, hq, Option.bind_some, hcopy, Kernel.forked] at hrun
  obtain rfl := Option.some.inj hrun
  rcases hcase with ⟨rfl, hcopied⟩ | ⟨rfl, hempty⟩
  · rw [if_pos rfl]
    exact ⟨h.forked hq hto hnone hmoves htable hkeys,
      fun _ hp => hp.forked h hready hq hnone htable hkeys hdata hcopied⟩
  · rw [if_neg (by decide)]
    refine ⟨h.forkFailed hready.size_le hmoves htable hkeys hempty, fun _ hp => ?_⟩
    intro e i u hu
    by_cases hr : 16 * toSlot ≤ e ∧ e < 16 * toSlot + dirCount q.limit
    · have hcount := dirCount_le hready.size_le
      have := hempty (e - 16 * toSlot) (by omega)
      rw [Nat.add_sub_cancel' hr.1] at this
      simp only [Kernel.withMm] at hu
      rw [State.entry_of_table_none this] at hu
      simp at hu
    · exact pristineAt_of_key hp hdata (hkeys e i hr) hu

theorem execTask_sound (hslot : 1 ≤ slot) {e : ℕ}
    (hsize : ¬0x3000000 < (files e).text + (files e).data + (files e).bss) :
    (execTask (files e) e).Sound files slot where
  code_le := by
    simp only [execTask]
    omega
  limit_le := le_refl _
  kernel := fun hz => by omega
  endData := by
    intro x hx
    obtain rfl : e = x := by simpa [execTask] using hx
    refine ⟨rfl, ?_⟩
    simp only [execTask]
    omega

theorem keeps_exec (h : TaskInv files lo hi k) (clean : Prop) {e : ℕ}
    (hen : (TaskOp.exec slot e).Enabled k) (hrun : (TaskOp.exec slot e).run files k = some k') :
    Keeps files lo hi clean k k' := by
  obtain ⟨⟨hslot, hlt⟩, htask, hload⟩ := hen
  rw [TaskOp.run] at hrun
  split at hrun
  · obtain rfl := Option.some.inj hrun
    exact .refl h clean
  · next hsize =>
    obtain ⟨q, hq⟩ := Option.ne_none_iff_exists'.mp htask
    obtain ⟨s', hfree, hmoves, hdata, htable, hentry⟩ := freeSlot_spec h hslot hlt hq
    rw [hq, Option.bind_some, hfree, Kernel.replaceTask] at hrun
    obtain rfl := Option.some.inj hrun
    refine ⟨h.replace hload hmoves htable hentry ?_, fun _ hp => hp.replace hdata hentry⟩
    intro t ht
    obtain rfl := Option.some.inj ht
    exact execTask_sound hslot hsize

theorem keeps_exitSlot (h : TaskInv files lo hi k) (clean : Prop) (hslot : 1 ≤ slot ∧ slot < 64)
    (htask : k.task slot ≠ none) (hload : k.loading slot = none)
    (hrun : exitSlot k slot = some k') : Keeps files lo hi clean k k' := by
  obtain ⟨k₁, hrun₁, hinv, hpris⟩ := exitSlot_spec h hslot.1 hslot.2 htask hload
  obtain rfl : k₁ = k' := by
    rw [hrun] at hrun₁
    exact (Option.some.inj hrun₁).symm
  exact ⟨hinv, fun _ => hpris⟩

/-! ### Demand loads -/

/-- A clean page of another task is mapped. -/
theorem TaskInv.shares (h : TaskInv files lo hi k) {address : ℕ}
    (hmoves : Moves ⟨k.mm, k.held⟩ ⟨s', k.held⟩)
    (hshares : Shares d (dirIndex address) (tableIndex address) w k.mm s')
    (htable : dirIndex address % 16 < slotDirs k.task (dirIndex address / 16))
    (hload : k.loading (dirIndex address / 16) = none) :
    TaskInv files lo hi (k.withMm s') := by
  refine h.memory (Moves.inv hmoves h.inv) (Moves.private hmoves h.inv h.isolated)
    h.held_of_loading (fun e he hold => ?_) (fun e i he hold => ?_)
  · by_cases heq : e = dirIndex address
    · rw [heq]
      exact htable
    · rw [hshares.table e heq] at he
      exact absurd hold he
  · rw [hshares.entry] at he
    split at he
    · next heq =>
      rcases heq.1 with hfrom | hto
      · rw [hfrom, heq.2, hshares.source] at hold
        simp at hold
      · rw [hto]
        exact hload
    · exact absurd hold he

/-- Sharing maps a page with the same contents at the same offset. -/
theorem Pristine.shares (hp : Pristine files k.task k.mm) (h : TaskInv files lo hi k)
    {address p e : ℕ}
    {q' : Task} (hslot : slot < 64) (ha : InSlot slot address) (htask : k.task slot = some q)
    (hexe : q.executable = some e) (hp' : p < 64) (htask' : k.task p = some q')
    (hexe' : q'.executable = some e)
    (hshares : Shares (dirIndex (slotBase p + (address - address % 4096 - slotBase slot)))
      (dirIndex address) (tableIndex address) w k.mm s') :
    Pristine files k.task s' := by
  have hoff : address - address % 4096 - slotBase slot < 0x4000000 := by
    obtain ⟨_, hlt⟩ := ha
    omega
  have hfrom : InSlot p (slotBase p + (address - address % 4096 - slotBase slot)) :=
    ⟨Nat.le_add_right _ _, by omega⟩
  have hdir := hfrom.dir_div hp'
  have htab : tableIndex (slotBase p + (address - address % 4096 - slotBase slot)) =
      tableIndex address := by
    rw [(dirIndex_slot_add p hoff).2, ← (dirIndex_slot_add slot hoff).2,
      Nat.add_sub_cancel' ha.page.1.1, ha.page.2.2]
  have hpage : pageOffset (dirIndex (slotBase p + (address - address % 4096 - slotBase slot)))
      (tableIndex address) = pageOffset (dirIndex address) (tableIndex address) := by
    rw [pageOffset_eq ha, ← htab, pageOffset_eq hfrom]
    have : (slotBase p + (address - address % 4096 - slotBase slot)) % 4096 = 0 := by
      unfold slotBase
      omega
    omega
  have hend : q'.endData = q.endData := by
    rw [((h.tasks _ _ htask').endData e hexe').1, ((h.tasks _ _ htask).endData e hexe).1]
  -- the source entry is pristine, so both entries are
  have hkeep : PristineAt files k.task s'
      (dirIndex (slotBase p + (address - address % 4096 - slotBase slot))) (tableIndex address)
      (writeProtect w) :=
    (hp _ _ w hshares.source).keep (key_writeProtect w)
      fun hne => hshares.data _ hne ⟨_, _, w, hshares.source, rfl⟩
  intro d₁ j₁ u hu
  rw [hshares.entry] at hu
  split at hu
  · next heq =>
    obtain rfl := Option.some.inj hu
    rw [heq.2]
    rcases heq.1 with rfl | rfl
    · exact hkeep
    · intro t x ht hx
      rw [ha.dir_div hslot, htask] at ht
      obtain rfl := Option.some.inj ht
      obtain rfl : e = x := by
        rw [hexe] at hx
        exact Option.some.inj hx
      obtain ⟨hhigh, hbytes⟩ := hkeep q' e (by rw [hdir]; exact htask') hexe'
      rw [hpage, hend] at hbytes
      exact ⟨hhigh, hbytes⟩
  · exact (hp d₁ j₁ u hu).keep rfl fun hne => hshares.data _ hne ⟨d₁, j₁, u, hu, rfl⟩

/-- A task goes to sleep waiting for a page of its executable. -/
theorem TaskInv.sleep (h : TaskInv files lo hi k) {address page e : ℕ}
    (hslot : 1 ≤ slot ∧ slot < 64) (ha : InSlot slot address) (hempty : k.mm.pageOf address = none)
    (htask : k.task slot = some q) (hexe : q.executable = some e)
    (hin : address - address % 4096 - slotBase slot < q.endData)
    (hlimit : address - slotBase slot < q.limit) (hget : getFreePage k.mm = some (page, s')) :
    TaskInv files lo hi
      ({ k with mm := s', held := insert page k.held }.setLoading slot (some (address, page))) := by
  obtain ⟨hmove, _, hheld, _⟩ := getFreePage_spec h.inv hget
  have hsame := untouched_of_getFreePage h.inv hget
  have h1 : TaskInv files lo hi { k with mm := s', held := insert page k.held } := by
    refine h.untouched (hmove.inv h.inv) (hmove.private h.inv h.isolated) ?_ hsame
    intro slot a p hload
    exact Finset.mem_insert_of_mem (h.held_of_loading slot a p hload)
  refine ⟨h1.inv, h1.isolated, h1.tables, h1.tasks, ?_, ?_⟩
  · intro slot' a p hl
    simp only [Kernel.setLoading] at hl
    split at hl
    · next heq =>
      simp only [Option.some.injEq, Prod.mk.injEq] at hl
      obtain ⟨rfl, rfl⟩ := hl
      rw [heq]
      refine ⟨hslot, Finset.mem_insert_self _ _, ha, ?_, q, e, htask, hexe, hin, hlimit⟩
      simp only [Kernel.setLoading, State.pageOf, hsame.entry]
      exact hempty
    · obtain ⟨hrange, hheld', hslot', habsent, htask'⟩ := h1.loads slot' a p hl
      exact ⟨hrange, hheld', hslot', habsent, htask'⟩
  · intro slot₁ slot₂ a₁ a₂ p hl₁ hl₂
    have hnew : ∀ n a, k.loading n = some (a, page) → False := fun n a hl =>
      hheld (h.held_of_loading n a page hl)
    simp only [Kernel.setLoading] at hl₁ hl₂
    split at hl₁ <;> split at hl₂
    · next h₁ h₂ => rw [h₁, h₂]
    · simp only [Option.some.injEq, Prod.mk.injEq] at hl₁
      rw [← hl₁.2] at hl₂
      exact (hnew _ _ hl₂).elim
    · simp only [Option.some.injEq, Prod.mk.injEq] at hl₂
      rw [← hl₂.2] at hl₁
      exact (hnew _ _ hl₁).elim
    · exact h.distinct _ _ _ _ _ hl₁ hl₂

theorem keeps_noPageBegin (h : TaskInv files lo hi k) (clean : Prop) {address : ℕ}
    (hen : (TaskOp.noPageBegin slot address).Enabled k)
    (hrun : (TaskOp.noPageBegin slot address).run files k = some k') :
    Keeps files lo hi clean k k' := by
  obtain ⟨hslot, hload, ha, hempty, q, hmem, hlimit⟩ := hen
  have htask : k.task slot = some q := hmem
  have hdir := dir_lt_slotDirs htask (h.tasks _ _ htask).limit_le hslot.2 ha hlimit
  have hload' : k.loading (dirIndex address / 16) = none := by
    rw [ha.dir_div hslot.2]
    exact hload
  have hspec := noPageBegin_spec h.inv hslot.1 hslot.2 ha htask hempty
  rw [TaskOp.run] at hrun
  generalize noPageBegin k slot address k.mm = r at hspec hrun
  cases hspec with
  | killed hmoves hsame =>
    have h1 := h.untouched (Moves.inv hmoves h.inv) (Moves.private hmoves h.inv h.isolated)
      h.held_of_loading hsame
    obtain ⟨hinv, hpris⟩ := keeps_exitSlot (k := { k with mm := _, held := k.held }) h1 clean hslot
      (by simp [htask]) hload hrun
    exact ⟨hinv, fun hc hp => hpris hc (hp.untouched hsame)⟩
  | empty hout hmoves hrew hfree hlo hhi =>
    obtain rfl := Option.some.inj hrun
    refine ⟨h.rewrites (Moves.inv hmoves h.inv) (Moves.private hmoves h.inv h.isolated)
      h.held_of_loading hrew (.inr hdir) (.inr hload'), fun _ hp => hp.rewrites hrew ?_⟩
    exact pristineAt_fresh (h.inv.low.trans hlo) (lt_of_lt_of_le hhi h.inv.high) ha hslot.2 htask
      hout
  | shared hin hexe hcount hmoves hp1 hp2 hne htask' hexe' hshares =>
    obtain rfl := Option.some.inj hrun
    exact ⟨h.shares hmoves hshares hdir hload', fun _ hp =>
      hp.shares h hslot.2 ha htask hexe hp2 htask' hexe' hshares⟩
  | load hin hexe hget =>
    obtain rfl := Option.some.inj hrun
    exact ⟨h.sleep hslot ha hempty htask hexe hin hlimit hget,
      fun _ hp => hp.untouched (untouched_of_getFreePage h.inv hget)⟩

/-- A task wakes up: it no longer waits for its page. -/
theorem TaskInv.wake (h : TaskInv files lo hi k) (slot : ℕ) :
    TaskInv files lo hi (k.setLoading slot none) where
  inv := h.inv
  isolated := h.isolated
  tables := h.tables
  tasks := h.tasks
  loads := by
    intro slot' a p hl
    simp only [Kernel.setLoading] at hl
    split at hl
    · simp at hl
    · obtain ⟨hrange, hheld, hslot, habsent, htask⟩ := h.loads slot' a p hl
      exact ⟨hrange, hheld, hslot, habsent, htask⟩
  distinct := by
    intro slot₁ slot₂ a₁ a₂ p hl₁ hl₂
    simp only [Kernel.setLoading] at hl₁ hl₂
    split at hl₁
    · simp at hl₁
    · split at hl₂
      · simp at hl₂
      · exact h.distinct _ _ _ _ _ hl₁ hl₂

theorem keeps_noPageFinish (h : TaskInv files lo hi k) (clean : Prop)
    (hen : (TaskOp.noPageFinish slot).Enabled k)
    (hrun : (TaskOp.noPageFinish slot).run files k = some k') : Keeps files lo hi clean k k' := by
  obtain ⟨⟨address, page⟩, hl⟩ := Option.ne_none_iff_exists'.mp hen
  obtain ⟨hslot, hheld, ha, habsent, q, e, htask, hexe, hin, hlimit⟩ := h.loads slot address page hl
  have hspec := noPageFinish_spec h.inv hslot.1 hslot.2 ha habsent hheld (files e) hin
  have hwake := h.wake slot
  have hload : (k.setLoading slot none).loading slot = none := by simp [Kernel.setLoading]
  have hheld' : ∀ slot' a p, (k.setLoading slot none).loading slot' = some (a, p) →
      p ∈ k.held.erase page := by
    intro slot' a p hl'
    refine Finset.mem_erase.mpr ⟨?_, hwake.held_of_loading slot' a p hl'⟩
    rintro rfl
    simp only [Kernel.setLoading] at hl'
    split at hl'
    · simp at hl'
    · next hne => exact hne (h.distinct _ _ _ _ _ hl' hl)
  simp only [TaskOp.run, hl, htask, hexe, Option.getD_some] at hrun
  rcases hspec with ⟨s', hoom, hmoves, hsame⟩ | ⟨s', hok, hmoves, hrew, hbytes⟩
  · rw [hoom, Kernel.after] at hrun
    have h1 := hwake.untouched (Moves.inv hmoves h.inv) (Moves.private hmoves h.inv h.isolated)
      hheld' hsame
    obtain ⟨hinv, hpris⟩ := keeps_exitSlot h1 clean hslot (by simp [Kernel.setLoading, htask]) hload
      hrun
    exact ⟨hinv, fun hc hp => hpris hc (hp.untouched hsame)⟩
  · rw [hok, Kernel.after] at hrun
    obtain rfl := Option.some.inj hrun
    refine ⟨hwake.rewrites (Moves.inv hmoves h.inv) (Moves.private hmoves h.inv h.isolated) hheld'
      hrew (.inr (dir_lt_slotDirs htask (h.tasks _ _ htask).limit_le hslot.2 ha hlimit))
      (.inr (by rw [ha.dir_div hslot.2]; exact hload)), fun _ hp => hp.rewrites hrew ?_⟩
    intro t x ht hx
    rw [ha.dir_div hslot.2, htask] at ht
    obtain rfl := Option.some.inj ht
    obtain rfl : e = x := by
      rw [hexe] at hx
      exact Option.some.inj hx
    obtain ⟨hlo, hhi⟩ := h.inv.held_range hheld
    rw [h.inv.frame_fresh hhi, pageOffset_eq ha]
    exact ⟨h.inv.low.trans hlo, fun _ _ => hbytes⟩

/-! ### Write faults and stores -/

/-- Continue after a call that either changes memory well or runs out of it. -/
theorem keeps_after (h : TaskInv files lo hi k) {clean : Prop} (hslot : 1 ≤ slot ∧ slot < 64)
    (htask : k.task slot ≠ none) (hload : k.loading slot = none) {r : Result Unit}
    (hok : ∀ s', r = .ok () s' → Keeps files lo hi clean k (k.withMm s'))
    (hoom : ∀ s', r = .oom s' → s' = k.mm) (hrun : k.after slot r = some k') :
    Keeps files lo hi clean k k' := by
  cases r with
  | ok v s' =>
    obtain rfl := Option.some.inj hrun
    exact hok s' rfl
  | oom s' =>
    rw [Kernel.after, hoom s' rfl] at hrun
    exact keeps_exitSlot h clean hslot htask hload hrun
  | panic reason => simp [Kernel.after] at hrun

/-- `un_wp_page` on behalf of any task. -/
theorem keeps_unprotect (h : TaskInv files lo hi k) {address : ℕ} {v : Word}
    (hw : k.mm.pageOf address = some w) (hmoves : Moves ⟨k.mm, k.held⟩ ⟨s', k.held⟩)
    (hrew : Rewrites (dirIndex address) (tableIndex address) (some v) k.mm s')
    (hcontent : s'.mem (frame v) = k.mm.mem (frame w))
    (hcase : v = w ||| 2#32 ∧ lowMem ≤ frame w ∧ k.mm.memMap (mapNr (frame w)) = 1 ∨
      dirty v = false ∧ ¬k.mm.Mapped (frame v) ∧ lowMem ≤ frame v ∧
        ¬(lowMem ≤ frame w ∧ k.mm.memMap (mapNr (frame w)) = 1)) :
    Keeps files lo hi (CleanFault k address) k (k.withMm s') := by
  obtain ⟨t, ht, _⟩ := State.pageOf_iff.mp hw
  refine ⟨h.rewrites (Moves.inv hmoves h.inv) (Moves.private hmoves h.inv h.isolated)
    h.held_of_loading hrew (.inl (by simp [ht])) (.inl (by simp [hw])), fun hclean hp => ?_⟩
  have hold := hp _ _ w hw
  refine hp.rewrites hrew fun t e ht he => ?_
  simp only [Kernel.withMm] at ht ⊢
  obtain ⟨hhigh, hbytes⟩ := hold t e ht he
  rcases hcase with ⟨rfl, _, _⟩ | ⟨_, _, hhigh', hshared⟩
  · rw [frame_unprotect, dirty_unprotect]
    rw [frame_unprotect] at hcontent
    refine ⟨hhigh, fun hd hin x hx => ?_⟩
    rw [← hbytes hd hin x hx]
    unfold State.byte
    rw [hcontent]
  · refine ⟨hhigh', fun _ hin x hx => ?_⟩
    have hd : dirty w = false := by
      by_contra hdirty
      exact hshared (hclean w t hw (by simpa using hdirty) ht (by simp [he]) hin)
    rw [← hbytes hd hin x hx]
    unfold State.byte
    rw [hcontent]

theorem keeps_doWpPage (h : TaskInv files lo hi k) {address : ℕ}
    (hen : (TaskOp.doWpPage slot address).Enabled k)
    (hrun : (TaskOp.doWpPage slot address).run files k = some k') :
    Keeps files lo hi (CleanFault k address) k k' := by
  obtain ⟨hslot, htask, hload, _, hpage⟩ := hen
  obtain ⟨w, hw⟩ := Option.ne_none_iff_exists'.mp hpage
  refine keeps_after h hslot htask hload ?_ ?_ hrun
  all_goals
    intro s' hs'
    rcases doWpPage_spec h.inv hw with ⟨hoom, _⟩ |
      ⟨s₁, v, hok, hmoves, hrew, _, _, hcontent, hcase⟩
  · rw [hoom] at hs'
    simp at hs'
  · rw [hok] at hs'
    simp only [Result.ok.injEq, true_and] at hs'
    rw [← hs']
    exact keeps_unprotect h hw hmoves hrew hcontent hcase
  · rw [hoom] at hs'
    simpa using hs'.symm
  · rw [hok] at hs'
    simp at hs'

theorem keeps_writeVerify (h : TaskInv files lo hi k) {address : ℕ}
    (hen : (TaskOp.writeVerify slot address).Enabled k)
    (hrun : (TaskOp.writeVerify slot address).run files k = some k') :
    Keeps files lo hi (CleanFault k address) k k' := by
  obtain ⟨hslot, htask, hload, ha⟩ := hen
  refine keeps_after h hslot htask hload ?_ ?_ hrun
  all_goals
    intro s' hs'
    rcases writeVerify_spec h.inv ha with ⟨hoom, _⟩ | ⟨hok, _⟩ |
      ⟨s₁, w, v, hok, hw, _, hmoves, hrew, _, _, hcontent, hcase⟩
  · rw [hoom] at hs'
    simp at hs'
  · rw [hok] at hs'
    simp only [Result.ok.injEq, true_and] at hs'
    rw [← hs']
    exact .refl h _
  · rw [hok] at hs'
    simp only [Result.ok.injEq, true_and] at hs'
    rw [← hs']
    exact keeps_unprotect h hw hmoves hrew hcontent hcase
  · rw [hoom] at hs'
    simpa using hs'.symm
  · rw [hok] at hs'
    simp at hs'
  · rw [hok] at hs'
    simp at hs'

/-- A store through a writable entry: it marks the entry dirty, and no other
entry maps the page. -/
theorem keeps_writeByte (h : TaskInv files lo hi k) (clean : Prop) {address : ℕ}
    (hw : k.mm.pageOf address = some w) (hwr : writable w = true) (b : BitVec 8) :
    Keeps files lo hi clean k (k.withMm (writeByte k.mm address b)) := by
  obtain ⟨hhigh, honly⟩ := h.isolated _ _ w hw hwr
  have hmove : Move ⟨k.mm, k.held⟩ ⟨writeByte k.mm address b, k.held⟩ := writeByte_move hw hhigh b
  obtain ⟨htable, hentry⟩ := writeByte_effect h.inv hw hhigh b
  constructor
  · refine h.memory (hmove.inv h.inv) (hmove.private h.inv h.isolated) h.held_of_loading
      (fun e he hold => ?_) (fun e i he hold => ?_)
    · rw [htable] at he
      exact absurd hold he
    · rw [hentry] at he
      split at he
      · next heq =>
        rw [heq.1, heq.2, show k.mm.entry (dirIndex address) (tableIndex address) = some w from hw]
          at hold
        simp at hold
      · exact absurd hold he
  · intro _ hp e i u hu
    simp only [Kernel.withMm] at hu ⊢
    rw [hentry] at hu
    split at hu
    · obtain rfl := Option.some.inj hu
      exact .of_dirty (by simp) (by simpa using hhigh)
    · next hne =>
      refine (hp e i u hu).keep rfl fun _ => ?_
      exact writeByte_mem hw b (fun heq => hne (honly e i u hu heq)) (h.inv.entry_ne_table hu)

/-- The entry of a store is dirty afterwards, so nothing is required of the page
the store copied. -/
theorem keeps_copyAndStore (h : TaskInv files lo hi k) (clean : Prop) {address : ℕ} {v : Word}
    (hw : k.mm.pageOf address = some w) (hmoves : Moves ⟨k.mm, k.held⟩ ⟨s', k.held⟩)
    (hrew : Rewrites (dirIndex address) (tableIndex address) (some v) k.mm s')
    (hwr : writable v = true) (b : BitVec 8) :
    Keeps files lo hi clean k (k.withMm (writeByte s' address b)) := by
  obtain ⟨t, ht, _⟩ := State.pageOf_iff.mp hw
  have h1 : TaskInv files lo hi (k.withMm s') :=
    h.rewrites (Moves.inv hmoves h.inv) (Moves.private hmoves h.inv h.isolated)
      h.held_of_loading hrew (.inl (by simp [ht])) (.inl (by simp [hw]))
  have hw1 : (k.withMm s').mm.pageOf address = some v := hrew.self
  obtain ⟨hinv, _⟩ := keeps_writeByte h1 clean hw1 hwr b
  refine ⟨hinv, fun _ hp e i u hu => ?_⟩
  obtain ⟨hhigh, honly⟩ := h1.isolated _ _ v hw1 hwr
  obtain ⟨_, hentry⟩ := writeByte_effect h1.inv hw1 hhigh b
  simp only [Kernel.withMm] at hu hentry honly ⊢
  rw [hentry] at hu
  split at hu
  · obtain rfl := Option.some.inj hu
    exact .of_dirty (by simp) (by simpa using hhigh)
  · next hne =>
    have hold : k.mm.entry e i = some u := by
      rw [hrew.entry, if_neg hne] at hu
      exact hu
    refine (hp e i u hold).keep rfl fun hz => ?_
    have hmem := writeByte_mem hw1 b (fun heq => hne (honly e i u hu heq))
      (h1.inv.entry_ne_table hu)
    exact hmem.trans (hrew.data _ hz ⟨e, i, u, hold, rfl⟩)

theorem keeps_userStore (h : TaskInv files lo hi k) (clean : Prop) {address : ℕ} {b : BitVec 8}
    (hen : (TaskOp.userStore slot address b).Enabled k)
    (hrun : (TaskOp.userStore slot address b).run files k = some k') :
    Keeps files lo hi clean k k' := by
  obtain ⟨hslot, htask, hload, _, hpage⟩ := hen
  obtain ⟨w, hw⟩ := Option.ne_none_iff_exists'.mp hpage
  obtain ⟨t, ht, rfl, _, hmem⟩ := State.pageOf_iff.mp hw
  rw [TaskOp.run, userStore, hmem] at hrun
  by_cases hwr : writable w = true
  · rw [if_pos hwr, Kernel.after] at hrun
    obtain rfl := Option.some.inj hrun
    exact keeps_writeByte h clean hw hwr b
  · rw [if_neg hwr] at hrun
    rcases doWpPage_spec h.inv hw with ⟨hoom, _⟩ | ⟨s₁, v, hok, hmoves, hrew, _, hwv, _⟩
    · rw [Result.bind_of_oom hoom, Kernel.after] at hrun
      exact keeps_exitSlot h clean hslot htask hload hrun
    · rw [Result.bind_of_ok hok, Kernel.after] at hrun
      obtain rfl := Option.some.inj hrun
      exact keeps_copyAndStore h clean hw hmoves hrew hwv b

/-! ### Runs -/

/-- Every step keeps the invariants. -/
theorem TaskOp.keeps (h : TaskInv files lo hi k) {op : TaskOp} (hen : op.Enabled k)
    (hrun : op.run files k = some k') : Keeps files lo hi (op.Clean k) k k' := by
  cases op with
  | getFreePage => exact keeps_getFreePage h _ hrun
  | freePage page => exact keeps_freePage h _ hen hrun
  | putPage page address => exact keeps_putPage h _ hen hrun
  | fork slot toSlot => exact keeps_fork h _ hen hrun
  | exec slot e => exact keeps_exec h _ hen hrun
  | exit slot => exact keeps_exitSlot h _ hen.1 hen.2.1 hen.2.2 hrun
  | noPageBegin slot address => exact keeps_noPageBegin h _ hen hrun
  | noPageFinish slot => exact keeps_noPageFinish h _ hen hrun
  | doWpPage slot address => exact keeps_doWpPage h hen hrun
  | writeVerify slot address => exact keeps_writeVerify h hen hrun
  | userStore slot address b => exact keeps_userStore h _ hen hrun
  | kernelStore slot address b =>
    obtain ⟨_, _, _, _, w, hw, hwr⟩ := hen
    obtain rfl := Option.some.inj hrun
    exact keeps_writeByte h _ hw hwr b
  | setCount iCount =>
    obtain rfl := Option.some.inj hrun
    refine ⟨⟨h.inv, h.isolated, h.tables, h.tasks, fun slot a p hl => ?_, h.distinct⟩,
      fun _ hp => hp⟩
    obtain ⟨hrange, hheld, hslot, habsent, htask⟩ := h.loads slot a p hl
    exact ⟨hrange, hheld, hslot, habsent, htask⟩

theorem taskBoot_inv (hlo : lowMem ≤ lo) (hhi : hi ≤ lowMem + pagingPages)
    (h : TaskBoot lo hi k) : TaskInv files lo hi k ∧ Pristine files k.task k.mm := by
  obtain ⟨hboot, hload, htask⟩ := h
  have hinv := boot_inv hlo hhi hboot
  obtain ⟨s, hs⟩ := hboot
  have hmm : k.mm = memInit (setupPaging s) lo hi := congrArg Config.state hs
  have hentry : ∀ d j, k.mm.entry d j = none := by
    intro d j
    rw [hmm, boot_entry]
  refine ⟨⟨hinv, ?_, ?_, ?_, ?_, ?_⟩, ?_⟩
  · intro d j w hw
    rw [hentry] at hw
    simp at hw
  · intro e he
    rw [hmm, boot_table] at he
    exact absurd rfl he
  · intro slot t ht
    rw [htask] at ht
    simp only at ht
    split at ht
    · obtain rfl := Option.some.inj ht
      exact ⟨by decide, by decide, fun _ => ⟨by decide, rfl⟩, by simp [initTask]⟩
    · simp at ht
  · intro slot a p hl
    rw [hload] at hl
    simp at hl
  · intro _ _ _ _ _ hl
    rw [hload] at hl
    simp at hl
  · intro d j w hw
    rw [hentry] at hw
    simp at hw

/-- The invariant holds in every reachable state of every run of tasks. -/
theorem taskReachable_inv (hlo : lowMem ≤ lo) (hhi : hi ≤ lowMem + pagingPages)
    (h : Reachable (TaskBoot lo hi) (TaskStep files) k) : TaskInv files lo hi k := by
  refine Reachable.invariant (P := fun k => TaskInv files lo hi k)
    (fun _ hk => (taskBoot_inv hlo hhi hk).1) ?_ h
  rintro k k' hk ⟨op, hen, hrun⟩
  exact (TaskOp.keeps hk hen hrun).1

end LihaLinux.Mm
