import LihaLinux.Mm.Tables

/-!
# The elementary moves of the memory manager

Every function of `mm/memory.c` is a sequence of a few moves: a frame is taken
or given back, a page table is attached or detached, an entry is written,
cleared, shared, unshared or only has its flags changed. The moves are listed
once here, with the conditions under which the code makes them, and the
reference-counting invariant is proved move by move.
-/

namespace LihaLinux.Mm

/-- A memory-manager state together with the frames held by the kernel: task
structures, pipe pages, argument pages that are not mapped yet, and the page
that a page-fault handler is about to map. -/
structure Config where
  state : State
  held : Finset ℕ

namespace Config

/-- The reference graph of a configuration. -/
def refs (c : Config) : Refs := c.state.refs c.held

@[simp] theorem refs_dir (c : Config) : c.refs.dir = c.state.table := rfl
@[simp] theorem refs_pte (c : Config) (d j : ℕ) :
    c.refs.pte d j = (c.state.entry d j).map frame := rfl
@[simp] theorem refs_held (c : Config) : c.refs.held = c.held := rfl

end Config

/-- A byte of a data page. -/
def State.byte (s : State) (page offset : ℕ) : BitVec 8 :=
  byteOf (s.mem page (offset / 4)) (offset % 4)

/-- A byte store into a data page. -/
def State.setByteAt (s : State) (page offset : ℕ) (b : BitVec 8) : State :=
  s.setWord page (offset / 4) (setByte (s.mem page (offset / 4)) (offset % 4) b)

/-- `mem_map[MAP_NR(page)]--`, left out for the pages below 1 MB. -/
def State.decHigh (s : State) (page : ℕ) : State :=
  if lowMem ≤ page then s.decMap page else s

/-- One elementary move. -/
inductive Move : Config → Config → Prop
  /-- `get_free_page`. -/
  | take {s : State} {held : Finset ℕ} {f : ℕ} (hlow : lowMem ≤ f) (hf : f < lowMem + pagingPages)
      (hzero : s.memMap (mapNr f) = 0) :
      Move ⟨s, held⟩ ⟨(s.setMap (mapNr f) 1).setPage f fun _ => 0, insert f held⟩
  /-- `free_page` of a frame held by the kernel. -/
  | drop {s : State} {held : Finset ℕ} {f : ℕ} (hf : f ∈ held) :
      Move ⟨s, held⟩ ⟨s.decMap f, held.erase f⟩
  /-- A cleared frame becomes a page table. -/
  | attach {s : State} {held : Finset ℕ} {d f : ℕ} (hf : f ∈ held) (hd : d ∈ taskDirs)
      (hempty : s.table d = none) (hclear : ∀ j, s.mem f j = 0) :
      Move ⟨s, held⟩ ⟨s.setWord 0 d (pageAddr f ||| 7#32), held.erase f⟩
  /-- An empty page table is given back. -/
  | detach {s : State} {held : Finset ℕ} {d t : ℕ} (ht : s.table d = some t)
      (hempty : ∀ j, s.entry d j = none) :
      Move ⟨s, held⟩ ⟨(s.decMap t).setWord 0 d 0, held⟩
  /-- A held frame is mapped at an address that is not present. -/
  | map {s : State} {held : Finset ℕ} {d j t f : ℕ} (hf : f ∈ held) (ht : s.table d = some t)
      (hj : j < 1024) (hempty : s.entry d j = none) :
      Move ⟨s, held⟩ ⟨s.setWord t j (pageAddr f ||| 7#32), held.erase f⟩
  /-- A present entry is cleared and its frame loses the reference. -/
  | unmap {s : State} {held : Finset ℕ} {d j t : ℕ} {w : Word} (ht : s.table d = some t)
      (hw : s.entry d j = some w) :
      Move ⟨s, held⟩ ⟨(s.decHigh (frame w)).setWord t j 0, held⟩
  /-- An entry that is not present is cleared. -/
  | clear {s : State} {held : Finset ℕ} {d j t : ℕ} (ht : s.table d = some t) (hj : j < 1024)
      (hempty : s.entry d j = none) :
      Move ⟨s, held⟩ ⟨s.setWord t j 0, held⟩
  /-- An entry is write-protected. -/
  | protect {s : State} {held : Finset ℕ} {d j t : ℕ} {w : Word} (ht : s.table d = some t)
      (hw : s.entry d j = some w) :
      Move ⟨s, held⟩ ⟨s.setWord t j (writeProtect w), held⟩
  /-- A write-protected frame of one slot is also mapped in another slot. -/
  | share {s : State} {held : Finset ℕ} {d d' j t' : ℕ} {w : Word}
      (hw : s.entry d j = some w) (hro : writable w = false) (hhigh : lowMem ≤ frame w)
      (ht' : s.table d' = some t') (hempty : s.entry d' j = none) (hmod : d % 16 = d' % 16) :
      Move ⟨s, held⟩ ⟨(s.setWord t' j w).incMap (frame w), held⟩
  /-- A page below 1 MB is mapped read-only; such pages are not counted. -/
  | shareLow {s : State} {held : Finset ℕ} {d' j t' : ℕ} {w : Word} (hp : present w = true)
      (hro : writable w = false) (hlow : frame w < lowMem) (ht' : s.table d' = some t')
      (hj : j < 1024) (hempty : s.entry d' j = none) :
      Move ⟨s, held⟩ ⟨s.setWord t' j w, held⟩
  /-- `un_wp_page` on a frame with a single reference. -/
  | unprotect {s : State} {held : Finset ℕ} {d j t : ℕ} {w : Word} (ht : s.table d = some t)
      (hw : s.entry d j = some w) (hhigh : lowMem ≤ frame w)
      (hone : s.memMap (mapNr (frame w)) = 1) :
      Move ⟨s, held⟩ ⟨s.setWord t j (w ||| 2#32), held⟩
  /-- `un_wp_page` on a shared frame: the entry moves to a copy. -/
  | copy {s : State} {held : Finset ℕ} {d j t f : ℕ} {w : Word} (hf : f ∈ held)
      (ht : s.table d = some t) (hw : s.entry d j = some w) :
      Move ⟨s, held⟩
        ⟨((s.decHigh (frame w)).setWord t j (pageAddr f ||| 7#32)).copyPage (frame w) f,
          held.erase f⟩
  /-- The kernel fills a frame it holds. -/
  | fill {s : State} {held : Finset ℕ} {f : ℕ} (hf : f ∈ held) (content : ℕ → Word) :
      Move ⟨s, held⟩ ⟨s.setPage f content, held⟩
  /-- A store through a present entry of a frame that is not below 1 MB; the CPU
  marks the entry. -/
  | store {s : State} {held : Finset ℕ} {d j t offset : ℕ} {w : Word} (ht : s.table d = some t)
      (hw : s.entry d j = some w) (hhigh : lowMem ≤ frame w) (b : BitVec 8) :
      Move ⟨s, held⟩ ⟨(s.setWord t j (w ||| 0x60#32)).setByteAt (frame w) offset b, held⟩

/-- Sequences of moves. -/
abbrev Moves : Config → Config → Prop := Relation.ReflTransGen Move

/-- The directory entries and page tables of the kernel, slot 0: the first table
maps pages below 640 kB where `fork` copies it, and no entry is read-only. -/
structure State.KernelMapped (s : State) : Prop where
  dir : present (s.mem 0 0) = true ∧ frame (s.mem 0 0) = 1
  pages : ∀ j < 160, frame (s.mem 1 j) < lowMem
  tables : ∀ d < 16, present (s.mem 0 d) = true →
    (1 ≤ frame (s.mem 0 d) ∧ frame (s.mem 0 d) < lowMem) ∧
      ∀ j < 1024, writable (s.mem (frame (s.mem 0 d)) j) = true

/-- The reference-counting invariant over the frames `lo .. hi - 1`. -/
structure Inv (lo hi : ℕ) (c : Config) : Prop where
  low : lowMem ≤ lo
  high : hi ≤ lowMem + pagingPages
  highMemory : c.state.highMemory = hi
  wf : c.refs.WF lo hi
  counts : ∀ f, lo ≤ f → f < hi → c.state.memMap (mapNr f) = c.refs.count f
  outside : ∀ f, lowMem ≤ f → f < lowMem + pagingPages → (f < lo ∨ hi ≤ f) →
    c.state.memMap (mapNr f) ≠ 0
  kernel : c.state.KernelMapped

theorem mapNr_inj {f g : ℕ} (hf : lowMem ≤ f) (hg : lowMem ≤ g) (h : mapNr f = mapNr g) :
    f = g := by
  unfold mapNr at h
  omega

theorem State.memMap_setMap (s : State) (n c m : ℕ) :
    (s.setMap n c).memMap m = if m = n then c else s.memMap m := rfl

/-- A counter after `mem_map[MAP_NR(f)] = v`, at the pages of the array. -/
theorem State.memMap_setMap_page (s : State) {f g : ℕ} (hf : lowMem ≤ f) (hg : lowMem ≤ g)
    (v : ℕ) : (s.setMap (mapNr f) v).memMap (mapNr g) =
      if g = f then v else s.memMap (mapNr g) := by
  rw [State.memMap_setMap]
  by_cases h : g = f
  · simp [h]
  · rw [if_neg h, if_neg (fun heq => h (mapNr_inj hg hf heq))]

namespace Inv

variable {lo hi : ℕ} {c : Config}

/-- Page numbers of the allocator fit an entry. -/
theorem frame_fresh (h : Inv lo hi c) {f : ℕ} (hf : f < hi) : frame (pageAddr f ||| 7#32) = f := by
  have hhigh := h.high
  simp only [lowMem, pagingPages] at hhigh
  have hlt : f < 2 ^ 20 := by norm_num; omega
  exact Mm.frame_fresh hlt

/-- A frame of the graph is not page 0 and not a kernel page table. -/
theorem table_ge (h : Inv lo hi c) {d t : ℕ} (ht : c.state.table d = some t) :
    lo ≤ t ∧ t < hi := h.wf.dir_range ht

theorem table_ne_zero (h : Inv lo hi c) {d t : ℕ} (ht : c.state.table d = some t) : t ≠ 0 := by
  have := (h.table_ge ht).1
  have := h.low
  unfold lowMem at this
  omega

theorem table_ne_one (h : Inv lo hi c) {d t : ℕ} (ht : c.state.table d = some t) : t ≠ 1 := by
  have := (h.table_ge ht).1
  have := h.low
  unfold lowMem at this
  omega

theorem table_inj (h : Inv lo hi c) {d t : ℕ} (ht : c.state.table d = some t) :
    ∀ d', c.state.table d' = some t → d' = d := fun _ hd' => h.wf.dir_inj hd' ht

/-- Mapped frames of the allocator's range. -/
theorem entry_range (h : Inv lo hi c) {d j : ℕ} {w : Word} (hw : c.state.entry d j = some w) :
    frame w < lowMem ∨ lo ≤ frame w ∧ frame w < hi :=
  h.wf.pte_range (d := d) (j := j) (by simp [hw])

theorem entry_high (h : Inv lo hi c) {d j : ℕ} {w : Word} (hw : c.state.entry d j = some w)
    (hhigh : lowMem ≤ frame w) : lo ≤ frame w ∧ frame w < hi := by
  rcases h.entry_range hw with hlow | hrange
  · omega
  · exact hrange

theorem entry_index (h : Inv lo hi c) {d j : ℕ} {w : Word} (hw : c.state.entry d j = some w) :
    j < 1024 := (h.wf.pte_dom (d := d) (f := frame w) (by simp [hw])).1

theorem held_range (h : Inv lo hi c) {f : ℕ} (hf : f ∈ c.held) : lo ≤ f ∧ f < hi :=
  h.wf.held_range hf

theorem held_ne_table (h : Inv lo hi c) {f : ℕ} (hf : f ∈ c.held) (d : ℕ) :
    c.state.table d ≠ some f := fun hd => h.wf.dir_unheld hd hf

theorem held_ge_two (h : Inv lo hi c) {f : ℕ} (hf : f ∈ c.held) : f ≠ 0 ∧ f ≠ 1 := by
  have := (h.held_range hf).1
  have := h.low
  unfold lowMem at this
  omega

/-- A mapped frame is not a page table. -/
theorem entry_ne_table (h : Inv lo hi c) {d j : ℕ} {w : Word} (hw : c.state.entry d j = some w)
    (d' : ℕ) : c.state.table d' ≠ some (frame w) := fun hd =>
  h.wf.dir_unmapped hd (by simp [hw] : c.refs.pte d j = some (frame w))

theorem count_lt (h : Inv lo hi c) {f : ℕ} (hf : lo ≤ f) : c.refs.count f ≤ 65 :=
  h.wf.count_le h.low hf

/-- A free frame of the array is an unreferenced frame of the allocator's range. -/
theorem free_frame (h : Inv lo hi c) {f : ℕ} (hlow : lowMem ≤ f) (hf : f < lowMem + pagingPages)
    (hzero : c.state.memMap (mapNr f) = 0) :
    (lo ≤ f ∧ f < hi) ∧ (∀ d j, c.refs.pte d j ≠ some f) ∧ (∀ d, c.refs.dir d ≠ some f) ∧
      f ∉ c.held := by
  have hrange : lo ≤ f ∧ f < hi := by
    by_contra hnot
    exact h.outside f hlow hf (by omega) hzero
  refine ⟨hrange, ?_⟩
  apply h.wf.unreferenced
  rw [← h.counts f hrange.1 hrange.2, hzero]

/-- The invariant after a move, from what the move changes. -/
theorem update (h : Inv lo hi c) {s' : State} {held' : Finset ℕ}
    (hhigh : s'.highMemory = c.state.highMemory) (hkernel : s'.KernelMapped)
    (hwf : (Config.refs ⟨s', held'⟩).WF lo hi)
    (hcounts : ∀ g, lo ≤ g → g < hi → s'.memMap (mapNr g) = (Config.refs ⟨s', held'⟩).count g)
    (houtside : ∀ g, lowMem ≤ g → (g < lo ∨ hi ≤ g) →
      s'.memMap (mapNr g) = c.state.memMap (mapNr g)) : Inv lo hi ⟨s', held'⟩ where
  low := h.low
  high := h.high
  highMemory := hhigh.trans h.highMemory
  wf := hwf
  counts := hcounts
  outside := fun g hg hlt hout => by
    rw [houtside g hg hout]
    exact h.outside g hg hlt hout
  kernel := hkernel

end Inv

end LihaLinux.Mm
