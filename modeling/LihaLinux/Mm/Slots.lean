import LihaLinux.Mm.Isolation

/-!
# Operations on whole task slots, and stores

A task slot is 64 MB of the linear address space, sixteen directory entries.
`fork` copies a slot, `exit` and `exec` empty one. A store goes through one
entry; the last part of the file says which bytes of the address spaces it
changes.
-/

namespace LihaLinux.Mm

variable {lo hi : ℕ} {s : State} {held : Finset ℕ} {d d' j t t' f : ℕ} {w : Word}

/-- `nr * 0x4000000`: the linear base address of a task slot. -/
def slotBase (slot : ℕ) : ℕ := slot * 0x4000000

theorem dirIndex_slotBase {slot : ℕ} (h : slot < 64) : dirIndex (slotBase slot) = 16 * slot := by
  rw [dirIndex_eq, slotBase]
  omega

theorem slotBase_aligned (slot : ℕ) : slotBase slot &&& 0x3fffff = 0 := by
  rw [show (0x3fffff : ℕ) = 2 ^ 22 - 1 from rfl, Nat.and_two_pow_sub_one_eq_mod, slotBase]
  omega

theorem dirCount_eq {size : ℕ} (h : size ≤ 0x4000000) :
    dirCount size = (size + 0x3fffff) / 2 ^ 22 := by
  rw [dirCount, Nat.shiftRight_eq_div_pow]
  omega

theorem dirCount_le {size : ℕ} (h : size ≤ 0x4000000) : dirCount size ≤ 16 := by
  rw [dirCount_eq h]
  omega

/-- No page table is attached to the slot. -/
def State.EmptySlot (s : State) (slot : ℕ) : Prop := ∀ k < 16, s.table (16 * slot + k) = none

/-! ### `free_page_tables` -/

/-- `free_page_tables` on a task slot removes the page tables of the range. -/
theorem freePageTables_spec (h : Inv lo hi ⟨s, held⟩) {slot size : ℕ} (hslot : 1 ≤ slot)
    (hlt : slot < 64) (hsize : size ≤ 0x4000000) :
    ∃ s', freePageTables s (slotBase slot) size = .ok () s' ∧ Moves ⟨s, held⟩ ⟨s', held⟩ ∧
      s.SameData s' ∧
      (∀ e, s'.table e =
        if 16 * slot ≤ e ∧ e < 16 * slot + dirCount size then none else s.table e) ∧
      ∀ e i, s'.entry e i =
        if 16 * slot ≤ e ∧ e < 16 * slot + dirCount size then none else s.entry e i := by
  have hcount := dirCount_le hsize
  have hpos : slotBase slot ≠ 0 := by
    unfold slotBase
    omega
  obtain ⟨s', hrun, hrest⟩ := freeTables_spec h (by omega : 16 ≤ 16 * slot)
    (by omega : 16 * slot + dirCount size ≤ 1024)
  refine ⟨s', ?_, hrest⟩
  rw [freePageTables, if_neg (by simp [slotBase_aligned]), if_neg hpos, dirIndex_slotBase hlt, hrun]

/-! ### `copy_page_tables` -/

/-- The conditions on a fork from one slot into another: the target is empty, and
the segment of task 0 lies within one directory entry. -/
structure ForkReady (s : State) (fromSlot toSlot size : ℕ) : Prop where
  source : fromSlot < 64
  target : 1 ≤ toSlot ∧ toSlot < 64
  distinct : fromSlot ≠ toSlot
  empty : s.EmptySlot toSlot
  size_le : size ≤ 0x4000000
  kernel : fromSlot = 0 → size ≤ 0x400000

/-- The number of entries copied from each page table. -/
def copyCount (fromSlot : ℕ) : ℕ := if fromSlot = 0 then 160 else 1024

theorem ForkReady.dirSource {fromSlot toSlot size : ℕ} (h : ForkReady s fromSlot toSlot size) :
    DirSource (16 * fromSlot) (16 * toSlot) (dirCount size) (copyCount fromSlot) := by
  have hsource := h.source
  have htarget := h.target
  have hne := h.distinct
  have hcount := dirCount_le h.size_le
  unfold copyCount
  split
  · next hzero =>
    have hsmall := h.kernel hzero
    refine .kernel (by omega) ?_
    rw [dirCount_eq h.size_le]
    omega
  · exact .slot (by omega) (by omega) (by omega) (by omega)

/-- `copy_page_tables` between task slots: it returns, and a copy that succeeds
has the frames and dirty bits of the source. -/
theorem copyPageTables_spec (h : Inv lo hi ⟨s, held⟩) {fromSlot toSlot size : ℕ}
    (hready : ForkReady s fromSlot toSlot size) :
    ∃ v s', copyPageTables s (slotBase fromSlot) (slotBase toSlot) size = .ok v s' ∧
      (v = 0 ∨ v = -1) ∧ Moves ⟨s, held⟩ ⟨s', held⟩ ∧
      Copied (16 * toSlot) (dirCount size) s s' ∧
      (v = 0 → ∀ k < dirCount size,
        (∀ i < copyCount fromSlot, (s'.entry (16 * toSlot + k) i).map key =
          (s.sourceEntry (16 * fromSlot + k) i).map key) ∧
        ∀ i w, s'.entry (16 * toSlot + k) i = some w → i < copyCount fromSlot) := by
  obtain ⟨htarget, htarget'⟩ := hready.target
  have hcount := dirCount_le hready.size_le
  have hempty : ∀ e, 16 * toSlot ≤ e → e < 16 * toSlot + dirCount size → s.table e = none := by
    intro e he he'
    have := hready.empty (e - 16 * toSlot) (by omega)
    rwa [Nat.add_sub_cancel' he] at this
  obtain ⟨v, s', hrun, hrest⟩ := copyTables_spec h hready.dirSource (by omega) (by omega) hempty
  refine ⟨v, s', ?_, hrest⟩
  have hnr : (if slotBase fromSlot = 0 then 0xA0 else 1024) = copyCount fromSlot := by
    unfold copyCount
    by_cases hzero : fromSlot = 0
    · rw [if_pos hzero, if_pos (by rw [hzero, slotBase, Nat.zero_mul])]
    · rw [if_neg hzero, if_neg (by unfold slotBase; omega)]
  rw [copyPageTables, if_neg (by simp [slotBase_aligned]), dirIndex_slotBase hready.source,
    dirIndex_slotBase htarget', hnr, hrun]

theorem copyMem_ok {s₁ : State} {oldBase newBase limit : ℕ}
    (hcopy : copyPageTables s oldBase newBase limit = .ok 0 s₁) :
    copyMem s oldBase newBase limit = .ok 0 s₁ := by
  simp [copyMem, hcopy, Result.bind]

theorem copyMem_undone {s₁ s₂ : State} {oldBase newBase limit : ℕ}
    (hcopy : copyPageTables s oldBase newBase limit = .ok (-1) s₁)
    (hfree : freePageTables s₁ newBase limit = .ok () s₂) :
    copyMem s oldBase newBase limit = .ok (-12) s₂ := by
  simp [copyMem, hcopy, hfree, Result.bind]

/-- `copy_mem`: a fork that runs out of memory leaves the target slot empty and
everything else as after the copy. -/
theorem copyMem_spec (h : Inv lo hi ⟨s, held⟩) {fromSlot toSlot size : ℕ}
    (hready : ForkReady s fromSlot toSlot size) :
    ∃ v s', copyMem s (slotBase fromSlot) (slotBase toSlot) size = .ok v s' ∧
      Moves ⟨s, held⟩ ⟨s', held⟩ ∧
      (∀ e, ¬(16 * toSlot ≤ e ∧ e < 16 * toSlot + dirCount size) → s'.table e = s.table e) ∧
      (∀ e i, ¬(16 * toSlot ≤ e ∧ e < 16 * toSlot + dirCount size) →
        (s'.entry e i).map key = (s.entry e i).map key) ∧
      (∀ g, g ≠ 0 → s.Mapped g → s'.mem g = s.mem g) ∧
      (v = 0 ∧ (∀ k < dirCount size,
        (∀ i < copyCount fromSlot, (s'.entry (16 * toSlot + k) i).map key =
          (s.sourceEntry (16 * fromSlot + k) i).map key) ∧
        ∀ i w, s'.entry (16 * toSlot + k) i = some w → i < copyCount fromSlot) ∨
      v = -12 ∧ s'.EmptySlot toSlot) := by
  obtain ⟨v, s₁, hcopy, hv, hmoves1, hcopied, hzero⟩ := copyPageTables_spec h hready
  have htables : ∀ e, ¬(16 * toSlot ≤ e ∧ e < 16 * toSlot + dirCount size) →
      s₁.table e = s.table e := by
    intro e he
    unfold State.table
    rw [hcopied.dirs e he]
  have hempty : ∀ e, 16 * toSlot ≤ e → e < 16 * toSlot + dirCount size → s.table e = none := by
    intro e he he'
    have hcount := dirCount_le hready.size_le
    have := hready.empty (e - 16 * toSlot) (by omega)
    rwa [Nat.add_sub_cancel' he] at this
  rcases hv with rfl | rfl
  · exact ⟨0, s₁, copyMem_ok hcopy, hmoves1, htables, hcopied.keys,
      hcopied.data, .inl ⟨rfl, hzero rfl⟩⟩
  · have h1 := Moves.inv hmoves1 h
    obtain ⟨s₂, hfree, hmoves2, hdata2, htable2, hentry2⟩ := freePageTables_spec h1
      hready.target.1 hready.target.2 hready.size_le
    refine ⟨-12, s₂, copyMem_undone hcopy hfree, hmoves1.trans hmoves2, ?_, ?_,
      ?_, .inr ⟨rfl, ?_⟩⟩
    · intro e he
      rw [htable2, if_neg he, htables e he]
    · intro e i he
      rw [hentry2, if_neg he, hcopied.keys e i he]
    · intro g hg hmapped
      rw [hdata2 g hg (h1.mapped_not_table (hcopied.mapped hempty hmapped)),
        hcopied.data g hg hmapped]
    · intro k hk
      rw [htable2]
      split
      · rfl
      · next hout => rw [htables _ hout, hready.empty k hk]

/-! ### Stores -/

/-- A byte store through the present entry of a linear address; the CPU sets the
accessed and dirty bits of the entry. -/
def writeByte (s : State) (address : ℕ) (b : BitVec 8) : State :=
  let table := frame (s.mem 0 (dirIndex address))
  let entry := s.mem table (tableIndex address)
  (s.setWord table (tableIndex address) (entry ||| 0x60#32)).setByteAt (frame entry)
    (address % 4096) b

/-- The byte a task sees at a linear address, if the page is present. -/
def State.view (s : State) (address : ℕ) : Option (BitVec 8) :=
  (s.pageOf address).map fun w => s.byte (frame w) (address % 4096)

/-- Where a present linear address is mapped. -/
theorem State.pageOf_iff {address : ℕ} : s.pageOf address = some w ↔
    ∃ t, s.table (dirIndex address) = some t ∧ t = frame (s.mem 0 (dirIndex address)) ∧
      present (s.mem t (tableIndex address)) = true ∧ s.mem t (tableIndex address) = w := by
  rw [State.pageOf, State.entry_iff]
  constructor
  · rintro ⟨t, ht, _, hp, hmem⟩
    exact ⟨t, ht, (State.table_iff.mp ht).2.2.symm, hp, hmem⟩
  · rintro ⟨t, ht, _, hp, hmem⟩
    exact ⟨t, ht, tableIndex_lt address, hp, hmem⟩

/-- Two linear addresses on the same page differ in the offset. -/
theorem eq_of_same_page {a a' : ℕ} (ha : a < 2 ^ 32) (ha' : a' < 2 ^ 32)
    (hd : dirIndex a' = dirIndex a) (ht : tableIndex a' = tableIndex a)
    (hoff : a' % 4096 = a % 4096) : a' = a := by
  rw [dirIndex_eq, dirIndex_eq] at hd
  rw [tableIndex_eq, tableIndex_eq] at ht
  omega

theorem State.byte_setByteAt (s : State) (page offset offset' : ℕ) (b : BitVec 8) :
    (s.setByteAt page offset b).byte page offset' =
      if offset' = offset then b else s.byte page offset' := by
  unfold State.byte State.setByteAt
  rw [State.mem_setWord]
  by_cases hdiv : offset' / 4 = offset / 4
  · rw [if_pos ⟨rfl, hdiv⟩, byteOf_setByte _ (by omega) (by omega), hdiv]
    by_cases heq : offset' = offset
    · rw [if_pos heq, heq, if_pos rfl]
    · rw [if_neg heq, if_neg (by omega)]
  · rw [if_neg (fun h => hdiv h.2), if_neg (by rintro rfl; exact hdiv rfl)]

section WriteByte

variable {address : ℕ} (h : Inv lo hi ⟨s, held⟩) (hw : s.pageOf address = some w)
  (hhigh : lowMem ≤ frame w) (b : BitVec 8)

include hw

theorem writeByte_mem {g : ℕ} (hg : g ≠ frame w)
    (htable : ∀ e, s.table e ≠ some g) : (writeByte s address b).mem g = s.mem g := by
  obtain ⟨t, ht, rfl, _, rfl⟩ := State.pageOf_iff.mp hw
  simp only [writeByte, State.setByteAt]
  rw [State.mem_setWord_of_ne _ hg, State.mem_setWord_of_ne]
  rintro rfl
  exact htable _ ht

include hhigh

theorem writeByte_move : Move ⟨s, held⟩ ⟨writeByte s address b, held⟩ := by
  obtain ⟨t, ht, rfl, _, rfl⟩ := State.pageOf_iff.mp hw
  exact Move.store ht hw hhigh b

include h

theorem writeByte_effect : (writeByte s address b).table = s.table ∧
    ∀ e i, (writeByte s address b).entry e i =
      if e = dirIndex address ∧ i = tableIndex address then some (w ||| 0x60#32)
      else s.entry e i := by
  obtain ⟨t, ht, rfl, _, rfl⟩ := State.pageOf_iff.mp hw
  exact store_effect h ht hw hhigh _ b

theorem writeByte_byte (offset : ℕ) : (writeByte s address b).byte (frame w) offset =
    if offset = address % 4096 then b else s.byte (frame w) offset := by
  have hne := h.entry_ne_table (d := dirIndex address) (j := tableIndex address) hw
  obtain ⟨t, ht, rfl, _, rfl⟩ := State.pageOf_iff.mp hw
  simp only [writeByte]
  rw [State.byte_setByteAt]
  congr 1
  unfold State.byte
  rw [State.mem_setWord_of_ne]
  intro heq
  exact hne (dirIndex address) (by rw [ht, heq])

/-- A store through an entry whose frame nobody else maps is seen at its own
address and nowhere else. -/
theorem view_writeByte (hlt : address < 2 ^ 32)
    (honly : ∀ e i u, s.entry e i = some u → frame u = frame w →
      e = dirIndex address ∧ i = tableIndex address) {a : ℕ} (ha : a < 2 ^ 32) :
    (writeByte s address b).view a = if a = address then some b else s.view a := by
  obtain ⟨_, hentry⟩ := writeByte_effect h hw hhigh b
  unfold State.view
  rw [State.pageOf, hentry]
  by_cases hplace : dirIndex a = dirIndex address ∧ tableIndex a = tableIndex address
  · have hpage : s.pageOf a = some w := by
      rw [← hw, State.pageOf, State.pageOf, hplace.1, hplace.2]
    rw [if_pos hplace, hpage, Option.map_some, Option.map_some, frame_touch,
      writeByte_byte h hw hhigh b]
    by_cases heq : a = address
    · rw [if_pos heq, heq, if_pos rfl]
    · rw [if_neg heq, if_neg fun hoff => heq (eq_of_same_page hlt ha hplace.1 hplace.2 hoff)]
  · rw [if_neg hplace, if_neg (by rintro rfl; exact hplace ⟨rfl, rfl⟩), State.pageOf]
    cases hu : s.entry (dirIndex a) (tableIndex a) with
    | none => rfl
    | some u =>
      rw [Option.map_some, Option.map_some]
      unfold State.byte
      rw [writeByte_mem hw b (fun heq => hplace (honly _ _ u hu heq))]
      exact h.entry_ne_table hu

end WriteByte

/-- Rewriting one entry leaves the views at all other pages, as far as they do not
lie in the page directory. -/
theorem Rewrites.view {v : Option Word} {s s' : State} (hrew : Rewrites d j v s s') {a : ℕ}
    (hplace : ¬(dirIndex a = d ∧ tableIndex a = j))
    (hdir : s'.mem 0 = s.mem 0 ∨ ∀ w, s.pageOf a = some w → frame w ≠ 0) :
    s'.view a = s.view a := by
  unfold State.view
  rw [State.pageOf, hrew.entry, if_neg hplace, State.pageOf]
  cases hu : s.entry (dirIndex a) (tableIndex a) with
  | none => rfl
  | some u =>
    rw [Option.map_some, Option.map_some]
    unfold State.byte
    have hmem : s'.mem (frame u) = s.mem (frame u) := by
      by_cases hzero : frame u = 0
      · rcases hdir with heq | hne
        · rw [hzero, heq]
        · exact absurd hzero (hne u hu)
      · exact hrew.data _ hzero ⟨_, _, u, hu, rfl⟩
    rw [hmem]

end LihaLinux.Mm
