import LihaLinux.Mm.Slots

/-!
# A copy that is undone

When `copy_page_tables` runs out of memory, `copy_mem` frees what has been copied. The counters
of all pages are then what they were, because they are determined by the references, and the
page tables of the parent have lost write bits at most.
-/

namespace LihaLinux.Mm

variable {lo hi : ℕ} {c c' : Config} {s s' : State} {held : Finset ℕ} {p : ℕ}

/-! ### Counters -/

theorem State.memMap_decHigh_outside {f g : ℕ} (hg : lowMem ≤ g) (hne : g ≠ f) :
    (s.decHigh f).memMap (mapNr g) = s.memMap (mapNr g) := by
  unfold State.decHigh
  split_ifs with hf
  · rw [State.decMap, State.memMap_setMap_page _ hf hg, if_neg hne]
  · rfl

/-- A move leaves alone the counters of the pages that are never handed out. -/
theorem Move.memMap_outside (h : Inv lo hi c) (hmove : Move c c') {g : ℕ} (hg : lowMem ≤ g)
    (hout : g < lo ∨ hi ≤ g) : c'.state.memMap (mapNr g) = c.state.memMap (mapNr g) := by
  have hlow := h.low
  cases hmove with
  | take hf hlt hzero =>
    obtain ⟨hrange, -⟩ := h.free_frame hf hlt hzero
    rw [State.memMap_setPage, State.memMap_setMap_page _ hf hg, if_neg (by omega)]
  | drop hf =>
    have hrange := h.held_range hf
    rw [State.decMap, State.memMap_setMap_page _ (by omega) hg, if_neg (by omega)]
  | attach hf hd hempty hclear => rw [State.memMap_setWord]
  | detach ht hempty =>
    have hrange := h.table_ge ht
    rw [State.memMap_setWord, State.decMap, State.memMap_setMap_page _ (by omega) hg,
      if_neg (by omega)]
  | map hf ht hj hempty => rw [State.memMap_setWord]
  | unmap ht hw =>
    rw [State.memMap_setWord]
    apply State.memMap_decHigh_outside hg
    rintro rfl
    have hrange := h.entry_high hw hg
    omega
  | clear ht hj hempty => rw [State.memMap_setWord]
  | protect ht hw => rw [State.memMap_setWord]
  | share hw hro hhigh ht' hempty hmod =>
    have hrange := h.entry_high hw hhigh
    rw [State.incMap, State.memMap_setMap_page _ hhigh hg, if_neg (by omega), State.memMap_setWord]
  | shareLow hp hro hl ht' hj hempty => rw [State.memMap_setWord]
  | unprotect ht hw hhigh hone => rw [State.memMap_setWord]
  | copy hf ht hw =>
    rw [State.copyPage, State.memMap_setPage, State.memMap_setWord]
    apply State.memMap_decHigh_outside hg
    rintro rfl
    have hrange := h.entry_high hw hg
    omega
  | fill hf content => rw [State.memMap_setPage]
  | store ht hw hhigh b => rw [State.setByteAt, State.memMap_setWord, State.memMap_setWord]

theorem Moves.memMap_outside (h : Inv lo hi c) (hmoves : Moves c c') {g : ℕ} (hg : lowMem ≤ g)
    (hout : g < lo ∨ hi ≤ g) : c'.state.memMap (mapNr g) = c.state.memMap (mapNr g) := by
  induction hmoves with
  | refl => rfl
  | tail hfirst hmove ih => rw [hmove.memMap_outside (Moves.inv hfirst h) hg hout, ih]

/-- The counters are determined by the references. -/
theorem Moves.memMap_eq (h : Inv lo hi c) (hmoves : Moves c c') (hrefs : c'.refs = c.refs) :
    c'.state.memMap = c.state.memMap := by
  have h' := Moves.inv hmoves h
  funext n
  have hn : mapNr (n + lowMem) = n := Nat.add_sub_cancel n lowMem
  rw [← hn]
  by_cases hin : lo ≤ n + lowMem ∧ n + lowMem < hi
  · rw [h'.counts _ hin.1 hin.2, h.counts _ hin.1 hin.2, hrefs]
  · exact Moves.memMap_outside h hmoves (Nat.le_add_left ..) (by omega)

/-! ### The page tables of the parent -/

/-- The entries of a page table are what they were, or have lost the write bit. -/
def Faded (p : ℕ) (s s' : State) : Prop :=
  ∀ i, s'.mem p i = s.mem p i ∨ s'.mem p i = writeProtect (s.mem p i)

theorem Faded.of_eq (h : s'.mem p = s.mem p) : Faded p s s' := fun i => Or.inl (by rw [h])

theorem writeProtect_writeProtect (w : Word) : writeProtect (writeProtect w) = writeProtect w := by
  rw [writeProtect, writeProtect, BitVec.and_assoc, BitVec.and_self]

theorem Faded.trans {s'' : State} (h : Faded p s s') (h' : Faded p s' s'') : Faded p s s'' := by
  intro i
  rcases h' i with hi' | hi' <;> rcases h i with hi | hi
  · left
    rw [hi', hi]
  · right
    rw [hi', hi]
  · right
    rw [hi', hi]
  · right
    rw [hi', hi, writeProtect_writeProtect]

/-- A page table of the kernel or of a task. -/
def State.IsTable (s : State) (p : ℕ) : Prop := p ≠ 0 ∧ (p < lowMem ∨ ∃ d, s.table d = some p)

/-- The three ways of an iteration of the inner loop of `copy_page_tables`. -/
theorem copyEntry_cases (s : State) (fromTable toTable index : ℕ) :
    copyEntry s fromTable toTable index = s ∨
      copyEntry s fromTable toTable index =
        s.setWord toTable index (writeProtect (s.mem fromTable index)) ∨
      copyEntry s fromTable toTable index =
        ((s.setWord toTable index (writeProtect (s.mem fromTable index))).setWord fromTable index
          (writeProtect (s.mem fromTable index))).incMap
            (frame (writeProtect (s.mem fromTable index))) := by
  by_cases hp : present (s.mem fromTable index) = true
  · by_cases hhigh : 0x100000 < (writeProtect (s.mem fromTable index)).toNat
    · right
      right
      simp only [copyEntry, if_pos hp, if_pos hhigh]
    · right
      left
      simp only [copyEntry, if_pos hp, if_neg hhigh]
  · left
    simp only [copyEntry, if_neg hp]

/-- The inner loop of `copy_page_tables` writes to two pages. -/
theorem copyEntries_mem {fromTable toTable : ℕ} (hfrom : p ≠ fromTable) (hto : p ≠ toTable)
    (nr index : ℕ) : (copyEntries fromTable toTable index nr s).mem p = s.mem p := by
  induction nr generalizing index s with
  | zero => rw [copyEntries]
  | succ nr ih =>
    rw [copyEntries, ih]
    rcases copyEntry_cases s fromTable toTable index with heq | heq | heq
    · rw [heq]
    · rw [heq, State.mem_setWord_of_ne _ hto]
    · rw [heq, State.incMap, State.mem_setMap, State.mem_setWord_of_ne _ hfrom,
        State.mem_setWord_of_ne _ hto]

theorem copyEntry_faded {fromTable toTable : ℕ} (hto : p ≠ toTable) (index : ℕ) :
    Faded p s (copyEntry s fromTable toTable index) := by
  rcases copyEntry_cases s fromTable toTable index with heq | heq | heq
  · exact .of_eq (by rw [heq])
  · exact .of_eq (by rw [heq, State.mem_setWord_of_ne _ hto])
  · intro i
    rw [heq, State.incMap, State.mem_setMap, State.mem_setWord, State.mem_setWord_of_ne _ hto]
    split_ifs with hi
    · right
      rw [hi.1, hi.2]
    · left
      rfl

/-- The inner loop of `copy_page_tables` takes away write bits only, except in its target. -/
theorem copyEntries_faded {fromTable toTable : ℕ} (hto : p ≠ toTable) (nr index : ℕ) :
    Faded p s (copyEntries fromTable toTable index nr s) := by
  induction nr generalizing index s with
  | zero => exact .of_eq rfl
  | succ nr ih => exact (copyEntry_faded hto index).trans (ih (index + 1))

theorem DirSource.frame_ne_zero (h : Inv lo hi ⟨s, held⟩) {fromDir toDir size nr : ℕ}
    (hsource : DirSource fromDir toDir (size + 1) nr) (hp : present (s.mem 0 fromDir) = true) :
    frame (s.mem 0 fromDir) ≠ 0 := by
  cases hsource with
  | kernel hdir _ =>
    have hone : frame (s.mem 0 0) = 1 := h.kernel.dir.2
    rw [hdir, hone]
    decide
  | slot hfrom hle _ _ =>
    exact h.table_ne_zero (State.table_eq_some (mem_taskDirs.mpr ⟨hfrom, by omega⟩) hp)

/-- The rest of a copy has a source, too. -/
theorem DirSource.tail {fromDir toDir size nr : ℕ} (h : DirSource fromDir toDir (size + 1) nr) :
    size = 0 ∨ DirSource (fromDir + 1) (toDir + 1) size nr := by
  cases h with
  | kernel hdir hsize =>
    left
    omega
  | slot hfrom hle hmod hdisj =>
    right
    exact .slot (by omega) (by omega) (by omega) (by omega)

/-- The outer loop of `copy_page_tables`: the page tables that are there lose write bits only, and
the directory gets present entries only. -/
theorem copyTables_faded {nr size fromDir toDir : ℕ} {v : ℤ} (h : Inv lo hi ⟨s, held⟩)
    (hsource : size = 0 ∨ DirSource fromDir toDir size nr) (hto : 16 ≤ toDir)
    (hle : toDir + size ≤ 1024) (hempty : ∀ e, toDir ≤ e → e < toDir + size → s.table e = none)
    (hrun : copyTables nr fromDir toDir size s = .ok v s') (hp : s.IsTable p) :
    Faded p s s' ∧ ∀ e, s'.mem 0 e = s.mem 0 e ∨ present (s'.mem 0 e) = true := by
  induction size generalizing fromDir toDir s with
  | zero =>
    cases hrun
    exact ⟨.of_eq rfl, fun e => Or.inl rfl⟩
  | succ size ih =>
    have hsource := hsource.resolve_left (Nat.succ_ne_zero size)
    have hmem : toDir ∈ taskDirs := mem_taskDirs.mpr ⟨hto, by omega⟩
    have hnone := hempty toDir le_rfl (by omega)
    have hnp := State.not_present_of_table_none hmem hnone
    rw [copyTables, if_neg (by simp [hnp])] at hrun
    by_cases hpresent : present (s.mem 0 fromDir) = true
    · rw [if_pos hpresent] at hrun
      cases hget : getFreePage s with
      | none =>
        rw [hget] at hrun
        cases hrun
        exact ⟨.of_eq rfl, fun e => Or.inl rfl⟩
      | some res =>
        obtain ⟨f, s₁⟩ := res
        rw [hget] at hrun
        obtain ⟨hmoves, hdirs, -⟩ := copyTable_step h hsource hmem hpresent hnone hget
        obtain ⟨-, hrange, -, -, hfresh, -, -, -, hmem₁⟩ := getFreePage_spec h hget
        have hlow := h.low
        have hpf : p ≠ f := by
          rintro rfl
          obtain ⟨-, hlt | ⟨d, hd⟩⟩ := hp
          · omega
          · exact hfresh d hd
        have hf0 : (0 : ℕ) ≠ f := by
          unfold lowMem at hlow
          omega
        have hfrom0 : 0 ≠ frame (s.mem 0 fromDir) := (hsource.frame_ne_zero h hpresent).symm
        -- the first page table
        have hfaded : Faded p s (copyEntries (frame (s.mem 0 fromDir)) f 0 nr
            (s₁.setWord 0 toDir (pageAddr f ||| 7#32))) := by
          apply Faded.trans _ (copyEntries_faded hpf nr 0)
          apply Faded.of_eq
          rw [State.mem_setWord_of_ne _ hp.1, hmem₁ p hpf]
        have hkeep : ∀ d t, s.table d = some t →
            (copyEntries (frame (s.mem 0 fromDir)) f 0 nr
              (s₁.setWord 0 toDir (pageAddr f ||| 7#32))).table d = some t := by
          intro d t hd
          have hne : d ≠ toDir := by
            rintro rfl
            rw [hnone] at hd
            cases hd
          rw [State.table, hdirs d hne, ← State.table, hd]
        have hempty' : ∀ e, toDir + 1 ≤ e → e < toDir + 1 + size →
            (copyEntries (frame (s.mem 0 fromDir)) f 0 nr
              (s₁.setWord 0 toDir (pageAddr f ||| 7#32))).table e = none := by
          intro e hle' hlt
          rw [State.table, hdirs e (by omega), ← State.table, hempty e (by omega) (by omega)]
        -- the others
        obtain ⟨hfaded', hdirs'⟩ := ih (Moves.inv hmoves h) hsource.tail (by omega) (by omega)
          hempty' hrun ⟨hp.1, hp.2.imp id (Exists.imp fun d => hkeep d p)⟩
        refine ⟨hfaded.trans hfaded', fun e => ?_⟩
        rcases hdirs' e with heq | hpe
        · by_cases he : e = toDir
          · right
            rw [heq, he, copyEntries_mem hfrom0 hf0, State.mem_setWord, if_pos ⟨rfl, rfl⟩]
            exact present_fresh f
          · left
            rw [heq, hdirs e he]
        · exact Or.inr hpe
    · rw [if_neg hpresent] at hrun
      exact ih h hsource.tail (by omega) (by omega)
        (fun e hle' hlt => hempty e (by omega) (by omega)) hrun hp

/-! ### The clean-up -/

theorem freePage_mem (hrun : freePage s p = .ok () s') : s'.mem = s.mem := by
  unfold freePage at hrun
  split_ifs at hrun <;> cases hrun <;> rfl

/-- The inner loop of `free_page_tables` writes to one page. -/
theorem freeEntries_mem {table nr index : ℕ} (hrun : freeEntries table index nr s = .ok () s')
    (hp : p ≠ table) : s'.mem p = s.mem p := by
  induction nr generalizing index s with
  | zero =>
    cases hrun
    rfl
  | succ nr ih =>
    rw [freeEntries] at hrun
    split_ifs at hrun with hpresent
    · cases hfree : freePage s (frame (s.mem table index)) with
      | ok u s₁ =>
        rw [hfree] at hrun
        rw [ih hrun, State.mem_setWord_of_ne _ hp, freePage_mem hfree]
      | oom s₁ =>
        rw [hfree] at hrun
        cases hrun
      | panic reason =>
        rw [hfree] at hrun
        cases hrun
    · rw [ih hrun, State.mem_setWord_of_ne _ hp]

/-- `free_page_tables` writes to the page tables that it frees, and clears their entries of the
directory. -/
theorem freeTables_mem {dir size : ℕ} (hrun : freeTables dir size s = .ok () s')
    (hne : ∀ e, dir ≤ e → e < dir + size → present (s.mem 0 e) = true →
      0 ≠ frame (s.mem 0 e) ∧ p ≠ frame (s.mem 0 e)) (hp : p ≠ 0) :
    s'.mem p = s.mem p ∧ ∀ e, s'.mem 0 e =
      if (dir ≤ e ∧ e < dir + size) ∧ present (s.mem 0 e) = true then 0 else s.mem 0 e := by
  induction size generalizing dir s with
  | zero =>
    cases hrun
    refine ⟨rfl, fun e => ?_⟩
    rw [if_neg (by omega)]
  | succ size ih =>
    rw [freeTables] at hrun
    split_ifs at hrun with hpresent
    · obtain ⟨h0, hpt⟩ := hne dir le_rfl (by omega) hpresent
      cases hentries : freeEntries (frame (s.mem 0 dir)) 0 1024 s with
      | ok u s₁ =>
        rw [hentries] at hrun
        simp only [Result.bind] at hrun
        have hdir₁ : s₁.mem 0 = s.mem 0 := freeEntries_mem hentries h0
        have hp₁ : s₁.mem p = s.mem p := freeEntries_mem hentries hpt
        rw [hdir₁] at hrun
        cases hfree : freePage s₁ (frame (s.mem 0 dir)) with
        | ok u' s₂ =>
          rw [hfree] at hrun
          simp only at hrun
          have hmem₂ := freePage_mem hfree
          have hdir₂ : ∀ e, (s₂.setWord 0 dir 0).mem 0 e = if e = dir then 0 else s.mem 0 e := by
            intro e
            rw [State.mem_setWord, hmem₂, hdir₁]
            simp
          obtain ⟨hp', hdirs'⟩ := ih hrun (by
            intro e hle hlt hpe
            rw [hdir₂, if_neg (by omega)] at hpe ⊢
            exact hne e (by omega) (by omega) hpe)
          refine ⟨?_, fun e => ?_⟩
          · rw [hp', State.mem_setWord_of_ne _ hp, hmem₂, hp₁]
          · rw [hdirs', hdir₂]
            by_cases he : e = dir
            · rw [if_pos he, if_neg (by omega), he, if_pos ⟨by omega, hpresent⟩]
            · rw [if_neg he]
              by_cases hin : (dir ≤ e ∧ e < dir + (size + 1)) ∧ present (s.mem 0 e) = true
              · rw [if_pos hin, if_pos ⟨by omega, hin.2⟩]
              · rw [if_neg hin, if_neg fun hin' => hin ⟨by omega, hin'.2⟩]
        | oom s₂ =>
          rw [hfree] at hrun
          cases hrun
        | panic reason =>
          rw [hfree] at hrun
          cases hrun
      | oom s₁ =>
        rw [hentries] at hrun
        cases hrun
      | panic reason =>
        rw [hentries] at hrun
        cases hrun
    · obtain ⟨hp', hdirs'⟩ := ih hrun fun e hle hlt => hne e (by omega) (by omega)
      refine ⟨hp', fun e => ?_⟩
      rw [hdirs']
      by_cases hin : (dir ≤ e ∧ e < dir + (size + 1)) ∧ present (s.mem 0 e) = true
      · have he : e ≠ dir := by
          rintro rfl
          exact hpresent hin.2
        rw [if_pos hin, if_pos ⟨by omega, hin.2⟩]
      · rw [if_neg hin, if_neg fun hin' => hin ⟨by omega, hin'.2⟩]

/-! ### `copy_mem` -/

/-- A `copy_mem` that fails is a copy that stops, and the clean-up. -/
theorem copyMem_fails {fromBase toBase limit : ℕ} {v : ℤ}
    (hrun : copyMem s fromBase toBase limit = .ok v s') (hv : v ≠ 0) :
    ∃ v₁ s₁, copyPageTables s fromBase toBase limit = .ok v₁ s₁ ∧ v₁ ≠ 0 ∧
      freePageTables s₁ toBase limit = .ok () s' := by
  rw [copyMem] at hrun
  cases hcopy : copyPageTables s fromBase toBase limit with
  | ok v₁ s₁ =>
    rw [hcopy, Result.bind] at hrun
    split_ifs at hrun with hv₁
    · cases hfree : freePageTables s₁ toBase limit with
      | ok u s₂ =>
        rw [hfree] at hrun
        cases hrun
        exact ⟨v₁, s₁, rfl, hv₁, hfree⟩
      | oom s₂ =>
        rw [hfree] at hrun
        cases hrun
      | panic reason =>
        rw [hfree] at hrun
        cases hrun
    · cases hrun
      exact absurd rfl hv
  | oom s₁ =>
    rw [hcopy] at hrun
    cases hrun
  | panic reason =>
    rw [hcopy] at hrun
    cases hrun

/-- A `copy_mem` that fails gives everything back: the references and the counters are as before,
the directory of the new slot is empty, and other page tables have lost write bits at most. -/
theorem copyMem_undone_spec (h : Inv lo hi ⟨s, held⟩) {fromSlot toSlot limit : ℕ} {v : ℤ}
    (hready : ForkReady s fromSlot toSlot limit)
    (hdest : ∀ k < 16, s.mem 0 (16 * toSlot + k) = 0)
    (hrun : copyMem s (slotBase fromSlot) (slotBase toSlot) limit = .ok v s') (hv : v ≠ 0) :
    Moves ⟨s, held⟩ ⟨s', held⟩ ∧ Config.refs ⟨s', held⟩ = Config.refs ⟨s, held⟩ ∧
      (∀ k < 16, s'.mem 0 (16 * toSlot + k) = 0) ∧
      (∀ e, ¬(16 * toSlot ≤ e ∧ e < 16 * toSlot + 16) → s'.mem 0 e = s.mem 0 e) ∧
      ∀ p, s.IsTable p → Faded p s s' := by
  have hcount := dirCount_le hready.size_le
  have htarget := hready.target
  obtain ⟨v', s₂, hrun', hmoves, htables, hkeys, -, hcase⟩ := copyMem_spec h hready
  rw [hrun] at hrun'
  cases hrun'
  obtain ⟨rfl, -⟩ | ⟨-, hslot⟩ := hcase
  · exact absurd rfl hv
  -- the copy
  obtain ⟨v₁, s₁, hcopy, -, hfree⟩ := copyMem_fails hrun hv
  obtain ⟨v₂, s₂, hcopy', -, hmoves₁, hcopied, -⟩ := copyPageTables_spec h hready
  rw [hcopy] at hcopy'
  cases hcopy'
  have h₁ := Moves.inv hmoves₁ h
  have hempty : ∀ e, 16 * toSlot ≤ e → e < 16 * toSlot + dirCount limit → s.table e = none := by
    intro e hle hlt
    have hk := hready.empty (e - 16 * toSlot) (by omega)
    rwa [Nat.add_sub_cancel' hle] at hk
  have hloop : copyTables (copyCount fromSlot) (16 * fromSlot) (16 * toSlot) (dirCount limit) s =
      .ok v₁ s₁ := by
    have hnr : (if slotBase fromSlot = 0 then 0xA0 else 1024) = copyCount fromSlot := by
      unfold copyCount slotBase
      split_ifs <;> omega
    rw [copyPageTables, if_neg (by simp [slotBase_aligned]), dirIndex_slotBase hready.source,
      dirIndex_slotBase htarget.2, hnr] at hcopy
    exact hcopy
  -- the clean-up
  have hclean : freeTables (16 * toSlot) (dirCount limit) s₁ = .ok () s' := by
    have hpos : slotBase toSlot ≠ 0 := by
      unfold slotBase
      omega
    rwa [freePageTables, if_neg (by simp [slotBase_aligned]), if_neg hpos,
      dirIndex_slotBase htarget.2] at hfree
  have hcleaned : ∀ p, (p < lowMem ∨ ∃ d, s.table d = some p) → p ≠ 0 →
      s'.mem p = s₁.mem p ∧ ∀ e, s'.mem 0 e =
        if (16 * toSlot ≤ e ∧ e < 16 * toSlot + dirCount limit) ∧ present (s₁.mem 0 e) = true
        then 0 else s₁.mem 0 e := by
    intro p hp hp0
    refine freeTables_mem hclean (fun e hle hlt hpe => ?_) hp0
    have ht : s₁.table e = some (frame (s₁.mem 0 e)) :=
      State.table_eq_some (mem_taskDirs.mpr ⟨by omega, by omega⟩) hpe
    refine ⟨(h₁.table_ne_zero ht).symm, ?_⟩
    rintro rfl
    have hlow := h₁.low
    have hrange := h₁.table_ge ht
    obtain hlt' | ⟨d, hd⟩ := hp
    · omega
    · have hout : ¬(16 * toSlot ≤ d ∧ d < 16 * toSlot + dirCount limit) := by
        rintro ⟨hle', hlt'⟩
        rw [hempty d hle' hlt'] at hd
        cases hd
      have hd₁ : s₁.table d = some (frame (s₁.mem 0 e)) := by
        rw [State.table, hcopied.dirs d hout, ← State.table, hd]
      have hde := h₁.table_inj ht d hd₁
      omega
  have hfaded := fun {p} (hp : s.IsTable p) => copyTables_faded h (Or.inr hready.dirSource)
    (by omega) (by omega) hempty hloop hp
  -- the directory
  have hone : s.IsTable 1 := ⟨one_ne_zero, Or.inl (by decide)⟩
  have hdirs := (hcleaned 1 hone.2 hone.1).2
  have hdirs₁ := (hfaded hone).2
  refine ⟨hmoves, ?_, fun k hk => ?_, fun e he => ?_, fun p hp => ?_⟩
  · -- the references
    have hrange : ∀ e, (16 * toSlot ≤ e ∧ e < 16 * toSlot + dirCount limit) →
        s.table e = none ∧ s'.table e = none := by
      intro e he
      refine ⟨hempty e he.1 he.2, ?_⟩
      have hk := hslot (e - 16 * toSlot) (by omega)
      rwa [Nat.add_sub_cancel' he.1] at hk
    apply Refs.ext
    · funext e
      by_cases he : 16 * toSlot ≤ e ∧ e < 16 * toSlot + dirCount limit
      · obtain ⟨hnone, hnone'⟩ := hrange e he
        rw [Config.refs_dir, Config.refs_dir, hnone, hnone']
      · exact htables e he
    · funext e i
      rw [Config.refs_pte, Config.refs_pte]
      by_cases he : 16 * toSlot ≤ e ∧ e < 16 * toSlot + dirCount limit
      · obtain ⟨hnone, hnone'⟩ := hrange e he
        rw [State.entry_of_table_none hnone, State.entry_of_table_none hnone']
      · have hkey := congrArg (Option.map Prod.fst) (hkeys e i he)
        rw [Option.map_map, Option.map_map] at hkey
        exact hkey
    · rfl
  · rw [hdirs]
    split_ifs with hin
    · rfl
    · rcases hdirs₁ (16 * toSlot + k) with heq | hpe
      · rw [heq, hdest k hk]
      · have hout : ¬(16 * toSlot ≤ 16 * toSlot + k ∧
            16 * toSlot + k < 16 * toSlot + dirCount limit) := fun hin' => hin ⟨hin', hpe⟩
        rw [hcopied.dirs _ hout, hdest k hk]
  · rw [hdirs, if_neg (by omega), hcopied.dirs e (by omega)]
  · exact (hfaded hp).1.trans (.of_eq (hcleaned p hp.2 hp.1).1)

end LihaLinux.Mm
