import LihaLinux.Mm.Moves

/-!
# The functions of `mm/memory.c` as moves

For each function: under the invariant, and for the arguments its callers
pass, the moves it makes, the page-table entries it leaves, and the data pages
it does not touch. In particular none of them reaches `panic`.
-/

namespace LihaLinux.Mm

variable {lo hi : ℕ} {s : State} {held : Finset ℕ} {d d' j t t' f : ℕ} {w : Word}

/-- A frame mapped by some task. -/
def State.Mapped (s : State) (g : ℕ) : Prop := ∃ d j w, s.entry d j = some w ∧ frame w = g

/-- Data pages: memory that is neither the directory nor a page table. -/
def State.SameData (s s' : State) : Prop :=
  ∀ g, g ≠ 0 → (∀ d, s.table d ≠ some g) → s'.mem g = s.mem g

theorem State.SameData.trans {s₁ s₂ s₃ : State} (h : s₁.SameData s₂) (h' : s₂.SameData s₃)
    (htable : ∀ d g, s₂.table d = some g → ∃ e, s₁.table e = some g) : s₁.SameData s₃ := by
  intro g hg hg'
  rw [h' g hg fun d hd => ?_, h g hg hg']
  obtain ⟨e, he⟩ := htable d g hd
  exact hg' e he

theorem State.sameData_setEntry (ht : s.table d = some t) (v : Word) :
    s.SameData (s.setWord t j v) := by
  intro g _ hg
  apply State.mem_setWord_of_ne
  rintro rfl
  exact hg d ht

/-- Under the invariant a mapped frame is a data page. -/
theorem Inv.mapped_not_table (h : Inv lo hi ⟨s, held⟩) {g : ℕ} (hg : s.Mapped g) :
    ∀ e, s.table e ≠ some g := by
  obtain ⟨d, j, w, hw, rfl⟩ := hg
  exact h.entry_ne_table hw

/-! ### `get_free_page` and `free_page` -/

/-- A frame returned by `get_free_page` was unreferenced; it is now held by the
kernel, cleared, and nothing else has changed. -/
theorem getFreePage_spec (h : Inv lo hi ⟨s, held⟩) {s' : State}
    (hget : getFreePage s = some (f, s')) :
    Move ⟨s, held⟩ ⟨s', insert f held⟩ ∧ (lo ≤ f ∧ f < hi) ∧ f ∉ held ∧ ¬s.Mapped f ∧
      (∀ d, s.table d ≠ some f) ∧ s'.table = s.table ∧ s'.entry = s.entry ∧
      (∀ i, s'.mem f i = 0) ∧ ∀ g, g ≠ f → s'.mem g = s.mem g := by
  obtain ⟨hlow, hf, hzero, rfl⟩ := getFreePage_some hget
  obtain ⟨hrange, hpte, hdir, hheld⟩ := h.free_frame hlow hf hzero
  obtain ⟨htable, hentry⟩ := take_effect h hlow hf hzero
  refine ⟨.take hlow hf hzero, hrange, hheld, ?_, hdir, htable, hentry, ?_, ?_⟩
  · rintro ⟨d, j, w, hw, hframe⟩
    exact hpte d j (by simp [hw, hframe])
  · intro i
    rw [State.mem_setPage_self]
  · intro g hg
    exact State.mem_setPage_of_ne _ hg _

/-- The counter of a referenced frame of the allocator's range is not zero. -/
theorem Inv.memMap_ne_zero (h : Inv lo hi ⟨s, held⟩) (hlo : lo ≤ f) (hhi : f < hi)
    (hpos : 0 < (Config.refs ⟨s, held⟩).count f) : s.memMap (mapNr f) ≠ 0 := by
  have hcount := h.counts f hlo hhi
  simp only at hcount
  omega

theorem freePage_counted (h : Inv lo hi ⟨s, held⟩) (hlo : lo ≤ f) (hhi : f < hi)
    (hpos : 0 < (Config.refs ⟨s, held⟩).count f) : freePage s f = .ok () (s.decMap f) := by
  have hlow := h.low
  have hhigh : s.highMemory = hi := h.highMemory
  rw [freePage, if_neg (by omega), if_neg (by omega), if_pos (h.memMap_ne_zero hlo hhi hpos)]

theorem freePage_held (h : Inv lo hi ⟨s, held⟩) (hf : f ∈ held) :
    freePage s f = .ok () (s.decMap f) := by
  obtain ⟨hlo, hhi⟩ := h.held_range hf
  apply freePage_counted h hlo hhi
  have := Refs.count_release (r := Config.refs ⟨s, held⟩) hf f
  rw [indicator_true rfl] at this
  omega

theorem freePage_entry (h : Inv lo hi ⟨s, held⟩) (hw : s.entry d j = some w) :
    freePage s (frame w) = .ok () (s.decHigh (frame w)) := by
  unfold State.decHigh
  split
  · next hhigh =>
    obtain ⟨hlo, hhi⟩ := h.entry_high hw hhigh
    apply freePage_counted h hlo hhi
    have := Refs.count_clear held hw (frame w)
    rw [indicator_true rfl] at this
    omega
  · next hlow => rw [freePage, if_pos (by omega)]

theorem freePage_table (h : Inv lo hi ⟨s, held⟩) (ht : s.table d = some t) :
    freePage s t = .ok () (s.decMap t) := by
  obtain ⟨hlo, hhi⟩ := h.table_ge ht
  apply freePage_counted h hlo hhi
  have := Refs.count_setDir (r := Config.refs ⟨s, held⟩) (State.table_iff.mp ht).1 none t
  rw [show (Config.refs ⟨s, held⟩).dir d = some t from ht, indicator_true rfl,
    indicator_false (by simp)] at this
  omega

/-! ### `free_page_tables` -/

/-- The inner loop clears the entries it walks over and nothing else. -/
theorem freeEntries_spec {nr : ℕ} :
    ∀ {index : ℕ} {s : State}, Inv lo hi ⟨s, held⟩ → s.table d = some t → index + nr ≤ 1024 →
      ∃ s', freeEntries t index nr s = .ok () s' ∧ Moves ⟨s, held⟩ ⟨s', held⟩ ∧
        s'.table = s.table ∧ s.SameData s' ∧ s'.mem 0 = s.mem 0 ∧
        ∀ e i, s'.entry e i =
          if e = d ∧ index ≤ i ∧ i < index + nr then none else s.entry e i := by
  induction nr with
  | zero =>
    intro index s h ht _
    refine ⟨s, rfl, .refl, rfl, fun _ _ _ => rfl, rfl, fun e i => ?_⟩
    rw [if_neg (by omega)]
  | succ nr ih =>
    intro index s h ht hle
    -- one iteration: free the page if the entry is present, then clear the word
    have hstep : ∃ s₁, (if present (s.mem t index) then freePage s (frame (s.mem t index))
          else .ok () s) = .ok () s₁ ∧ Move ⟨s, held⟩ ⟨s₁.setWord t index 0, held⟩ ∧
        s₁.mem = s.mem ∧ s₁.table = s.table ∧ s₁.entry = s.entry := by
      by_cases hp : present (s.mem t index) = true
      · have hw : s.entry d index = some (s.mem t index) := by
          rw [State.entry_of_table ht, if_pos ⟨by omega, hp⟩]
        refine ⟨s.decHigh (frame (s.mem t index)), ?_, .unmap ht hw, ?_, ?_, ?_⟩
        · rw [if_pos hp, freePage_entry h hw]
        all_goals simp
      · have hw : s.entry d index = none := by
          rw [State.entry_of_table ht, if_neg (by simp [hp])]
        refine ⟨s, ?_, .clear ht (by omega) hw, rfl, rfl, rfl⟩
        rw [if_neg hp]
    obtain ⟨s₁, hfree, hmove, hmem, htable, hentry⟩ := hstep
    have h1 := hmove.inv h
    have hne : t ≠ 0 := h.table_ne_zero ht
    obtain ⟨htable1, hentry1⟩ := State.table_entry_setWord (s := s₁) (by rw [htable]; exact ht)
      hne (by rw [htable]; exact h.table_inj ht) (by omega : index < 1024) 0
    obtain ⟨s', hrun, hmoves, htable', hdata, hdir, hentry'⟩ :=
      ih h1 (by rw [htable1, htable]; exact ht) (by omega : index + 1 + nr ≤ 1024)
    refine ⟨s', ?_, .head hmove hmoves, by rw [htable', htable1, htable], ?_, ?_, ?_⟩
    · rw [freeEntries, hfree]
      exact hrun
    · refine State.SameData.trans ?_ hdata ?_
      · intro g _ hg
        have hne' : g ≠ t := by
          rintro rfl
          exact hg d ht
        rw [State.mem_setWord_of_ne s₁ hne', hmem]
      · intro e g he
        exact ⟨e, by rwa [htable1, htable] at he⟩
    · rw [hdir, State.mem_setWord_of_ne s₁ (Ne.symm hne), hmem]
    · intro e i
      rw [hentry', hentry1, hentry]
      by_cases he : e = d ∧ index ≤ i ∧ i < index + (nr + 1)
      · rw [if_pos he]
        by_cases hi : i = index
        · rw [if_neg (by omega), if_pos ⟨he.1, hi⟩, if_neg (by simp)]
        · rw [if_pos (by omega)]
      · rw [if_neg he, if_neg (by omega), if_neg (by omega)]

/-- The outer loop removes the page tables of the directory entries it walks
over, with all their entries, and nothing else. -/
theorem freeTables_spec {size : ℕ} :
    ∀ {dir : ℕ} {s : State}, Inv lo hi ⟨s, held⟩ → 16 ≤ dir → dir + size ≤ 1024 →
      ∃ s', freeTables dir size s = .ok () s' ∧ Moves ⟨s, held⟩ ⟨s', held⟩ ∧ s.SameData s' ∧
        (∀ e, s'.table e = if dir ≤ e ∧ e < dir + size then none else s.table e) ∧
        ∀ e i, s'.entry e i = if dir ≤ e ∧ e < dir + size then none else s.entry e i := by
  induction size with
  | zero =>
    intro dir s h _ _
    refine ⟨s, rfl, .refl, fun _ _ _ => rfl, fun e => ?_, fun e i => ?_⟩ <;> rw [if_neg (by omega)]
  | succ size ih =>
    intro dir s h hdir hle
    have hmem : dir ∈ taskDirs := mem_taskDirs.mpr ⟨hdir, by omega⟩
    by_cases hp : present (s.mem 0 dir) = true
    · have ht := State.table_eq_some hmem hp
      obtain ⟨s₁, hrun1, hmoves1, htable1, hdata1, hdir1, hentry1⟩ :=
        freeEntries_spec h ht (by omega : 0 + 1024 ≤ 1024)
      have h1 := Moves.inv hmoves1 h
      have ht1 : s₁.table dir = some (frame (s.mem 0 dir)) := by rw [htable1]; exact ht
      have hempty1 : ∀ i, s₁.entry dir i = none := by
        intro i
        rw [hentry1]
        split
        · rfl
        · next hi =>
          rw [State.entry_of_table ht, if_neg (by omega)]
      have hdetach : Move ⟨s₁, held⟩ ⟨(s₁.decMap (frame (s.mem 0 dir))).setWord 0 dir 0, held⟩ :=
        .detach ht1 hempty1
      have h2 := hdetach.inv h1
      obtain ⟨htable2, hentry2⟩ := detach_effect h1 ht1 hempty1
      obtain ⟨s', hrun, hmoves, hdata, htable', hentry'⟩ :=
        ih h2 (by omega : 16 ≤ dir + 1) (by omega)
      refine ⟨s', ?_, (hmoves1.tail hdetach).trans hmoves, ?_, ?_, ?_⟩
      · rw [freeTables, if_pos hp, hrun1]
        simp only [Result.bind]
        rw [hdir1, freePage_table h1 ht1]
        exact hrun
      · have hdata2 : s₁.SameData ((s₁.decMap (frame (s.mem 0 dir))).setWord 0 dir 0) :=
          fun g hg _ => State.mem_setWord_of_ne _ hg _ _
        refine hdata1.trans (hdata2.trans hdata ?_) (fun e g he => ⟨e, by rwa [htable1] at he⟩)
        · intro e g he
          rw [htable2] at he
          split at he
          · simp at he
          · exact ⟨e, he⟩
      · intro e
        rw [htable', htable2, htable1]
        by_cases he : dir ≤ e ∧ e < dir + (size + 1)
        · rw [if_pos he]
          by_cases heq : e = dir
          · rw [if_neg (by omega), if_pos heq]
          · rw [if_pos (by omega)]
        · rw [if_neg he, if_neg (by omega), if_neg (by omega)]
      · intro e i
        rw [hentry', hentry2]
        by_cases he : dir ≤ e ∧ e < dir + (size + 1)
        · rw [if_pos he]
          by_cases heq : e = dir
          · rw [if_neg (by omega), heq, hempty1]
          · rw [if_pos (by omega)]
        · rw [if_neg he, if_neg (by omega), hentry1, if_neg (by omega)]
    · have ht : s.table dir = none := State.table_eq_none (by simpa using hp)
      obtain ⟨s', hrun, hmoves, hdata, htable', hentry'⟩ := ih h (by omega : 16 ≤ dir + 1)
        (by omega)
      refine ⟨s', ?_, hmoves, hdata, ?_, ?_⟩
      · rw [freeTables, if_neg hp, hrun]
      · intro e
        rw [htable']
        by_cases heq : e = dir
        · rw [if_neg (by omega), if_pos (by omega), heq, ht]
        · by_cases he : dir + 1 ≤ e ∧ e < dir + 1 + size
          · rw [if_pos he, if_pos (by omega)]
          · rw [if_neg he, if_neg (by omega)]
      · intro e i
        rw [hentry']
        by_cases heq : e = dir
        · rw [if_neg (by omega), if_pos (by omega), heq, State.entry_of_table_none ht]
        · by_cases he : dir + 1 ≤ e ∧ e < dir + 1 + size
          · rw [if_pos he, if_pos (by omega)]
          · rw [if_neg he, if_neg (by omega)]

end LihaLinux.Mm
