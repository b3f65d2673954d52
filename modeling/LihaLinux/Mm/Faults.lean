import LihaLinux.Mm.CopyTables

/-!
# Mapping, unsharing and sharing single pages

The functions behind the page-fault handlers: `put_page`, `un_wp_page`,
`get_empty_page` and `try_to_share`. Each either leaves the page tables alone
or rewrites one entry (two for sharing), and no mapped page changes.
-/

namespace LihaLinux.Mm

variable {lo hi : ℕ} {s : State} {held : Finset ℕ} {d d' j t t' f : ℕ} {w : Word}

/-! ### Linear addresses -/

private theorem and_ffc_div (x : ℕ) : (x &&& 0xffc) / 4 = x / 4 % 1024 := by
  have h : (x &&& 0xffc) >>> 2 = x >>> 2 &&& (2 ^ 10 - 1) := by
    rw [Nat.shiftRight_and_distrib, show (0xffc : ℕ) >>> 2 = 2 ^ 10 - 1 from rfl]
  rw [Nat.and_two_pow_sub_one_eq_mod, Nat.shiftRight_eq_div_pow, Nat.shiftRight_eq_div_pow] at h
  simpa using h

theorem dirIndex_eq (address : ℕ) : dirIndex address = address / 2 ^ 22 % 1024 := by
  rw [dirIndex, and_ffc_div, Nat.shiftRight_eq_div_pow]
  omega

theorem tableIndex_eq (address : ℕ) : tableIndex address = address / 2 ^ 12 % 1024 := by
  rw [tableIndex, and_ffc_div, Nat.shiftRight_eq_div_pow]
  omega

theorem tableIndex_lt (address : ℕ) : tableIndex address < 1024 := by
  rw [tableIndex_eq]
  omega

/-- The linear addresses of the task slots 1 to 63. -/
def UserAddress (address : ℕ) : Prop := 0x4000000 ≤ address ∧ address < 2 ^ 32
  deriving Decidable

theorem UserAddress.mem_taskDirs {address : ℕ} (h : UserAddress address) :
    dirIndex address ∈ taskDirs := by
  obtain ⟨hlow, hhigh⟩ := h
  rw [Mm.mem_taskDirs, dirIndex_eq]
  omega

/-- The present entry that maps a linear address. -/
def State.pageOf (s : State) (address : ℕ) : Option Word :=
  s.entry (dirIndex address) (tableIndex address)

/-- A change of the page tables at one place, with all mapped pages unchanged. -/
structure Rewrites (d j : ℕ) (v : Option Word) (s s' : State) : Prop where
  entry : ∀ e i, s'.entry e i = if e = d ∧ i = j then v else s.entry e i
  table : ∀ e, e ≠ d → s'.table e = s.table e
  data : ∀ g, g ≠ 0 → s.Mapped g → s'.mem g = s.mem g
  dir : s.table d ≠ none → s'.mem 0 = s.mem 0

theorem Rewrites.self {v : Option Word} {s s' : State} (h : Rewrites d j v s s') :
    s'.entry d j = v := by rw [h.entry, if_pos ⟨rfl, rfl⟩]

/-! ### `put_page` -/

/-- `put_page` of a held frame at an address that is not present. -/
theorem putPage_spec (h : Inv lo hi ⟨s, held⟩) (hf : f ∈ held) {address : ℕ}
    (ha : UserAddress address) (hempty : s.pageOf address = none) :
    (putPage s f address = (0, s) ∧ getFreePage s = none) ∨
    ∃ s', putPage s f address = (f, s') ∧ Moves ⟨s, held⟩ ⟨s', held.erase f⟩ ∧
      Rewrites (dirIndex address) (tableIndex address) (some (pageAddr f ||| 7#32)) s s' ∧
      ∀ g ∈ held, s'.mem g = s.mem g := by
  have hd := ha.mem_taskDirs
  have hj := tableIndex_lt address
  by_cases hp : present (s.mem 0 (dirIndex address)) = true
  · right
    have ht := State.table_eq_some hd hp
    obtain ⟨htable, hentry⟩ := setEntry_effect h ht hj (pageAddr f ||| 7#32)
    refine ⟨_, by rw [putPage, if_pos hp], .single (.map hf ht hj hempty), ⟨?_, ?_, ?_, ?_⟩, ?_⟩
    · intro e i
      rw [hentry, if_pos (present_fresh f)]
    · intro e _
      rw [htable]
    · intro g hg hmapped
      exact State.sameData_setEntry ht _ g hg (h.mapped_not_table hmapped)
    · intro _
      exact State.mem_setWord_of_ne _ (Ne.symm (h.table_ne_zero ht)) _ _
    · intro g hg
      apply State.mem_setWord_of_ne
      rintro rfl
      exact h.held_ne_table hg _ ht
  · have hnone : s.table (dirIndex address) = none := State.table_eq_none (by simpa using hp)
    cases hget : getFreePage s with
    | none =>
      left
      refine ⟨?_, rfl⟩
      rw [putPage, if_neg hp]
      simp only [hget]
    | some res =>
      right
      obtain ⟨tmp, s₁⟩ := res
      obtain ⟨htake, hrange, hheld, hfree, hfreeT, htable1, hentry1, hclear, hmem1⟩ :=
        getFreePage_spec h hget
      have h1 := htake.inv h
      have hattach : Move ⟨s₁, insert tmp held⟩
          ⟨s₁.setWord 0 (dirIndex address) (pageAddr tmp ||| 7#32), (insert tmp held).erase tmp⟩ :=
        .attach (Finset.mem_insert_self tmp held) hd (by rw [htable1]; exact hnone) hclear
      rw [Finset.erase_insert hheld] at hattach
      obtain ⟨htable2, hentry2⟩ := attach_effect h1 (Finset.mem_insert_self tmp held) hd
        (by rw [htable1]; exact hnone) hclear
      have h2 := hattach.inv h1
      have ht2 : (s₁.setWord 0 (dirIndex address) (pageAddr tmp ||| 7#32)).table
          (dirIndex address) = some tmp := by rw [htable2, if_pos rfl]
      have hempty2 : (s₁.setWord 0 (dirIndex address) (pageAddr tmp ||| 7#32)).entry
          (dirIndex address) (tableIndex address) = none := by rw [hentry2, hentry1]; exact hempty
      have hmap := Move.map hf ht2 hj hempty2
      obtain ⟨htable3, hentry3⟩ := setEntry_effect h2 ht2 hj (pageAddr f ||| 7#32)
      have hmem3 : ∀ g, g ≠ 0 → g ≠ tmp →
          ((s₁.setWord 0 (dirIndex address) (pageAddr tmp ||| 7#32)).setWord tmp
            (tableIndex address) (pageAddr f ||| 7#32)).mem g = s.mem g := by
        intro g hg hgt
        rw [State.mem_setWord_of_ne _ hgt, State.mem_setWord_of_ne _ hg, hmem1 g hgt]
      refine ⟨_, ?_, ((Relation.ReflTransGen.single htake).tail hattach).tail hmap,
        ⟨?_, ?_, ?_, fun hsome => absurd hnone hsome⟩, ?_⟩
      · rw [putPage, if_neg hp]
        simp only [hget]
      · intro e i
        rw [hentry3, hentry2, hentry1, if_pos (present_fresh f)]
      · intro e he
        rw [htable3, htable2, if_neg he, htable1]
      · intro g hg hmapped
        apply hmem3 g hg
        rintro rfl
        exact hfree hmapped
      · intro g hg
        apply hmem3 g (h.held_ge_two hg).1
        rintro rfl
        exact hheld hg

/-! ### `un_wp_page` -/

/-- `un_wp_page` on a present entry: the entry ends up writable, either in place
or on a private copy. -/
theorem unWpPage_spec (h : Inv lo hi ⟨s, held⟩) (ht : s.table d = some t)
    (hw : s.entry d j = some w) :
    (unWpPage s t j = .oom s ∧ getFreePage s = none) ∨
    ∃ s' v, unWpPage s t j = .ok () s' ∧ Moves ⟨s, held⟩ ⟨s', held⟩ ∧
      Rewrites d j (some v) s s' ∧ s'.mem 0 = s.mem 0 ∧ writable v = true ∧
      s'.mem (frame v) = s.mem (frame w) ∧
      (v = w ||| 2#32 ∧ lowMem ≤ frame w ∧ s.memMap (mapNr (frame w)) = 1 ∨
        dirty v = false ∧ ¬s.Mapped (frame v) ∧ lowMem ≤ frame v ∧
          ¬(lowMem ≤ frame w ∧ s.memMap (mapNr (frame w)) = 1)) := by
  have hj := h.entry_index hw
  have hword : s.mem t j = w := by
    obtain ⟨t₀, ht₀, _, _, hmem⟩ := State.entry_iff.mp hw
    obtain rfl : t = t₀ := by rw [ht] at ht₀; simpa using ht₀
    exact hmem
  by_cases hone : lowMem ≤ frame w ∧ s.memMap (mapNr (frame w)) = 1
  · right
    obtain ⟨htable, hentry⟩ := setEntry_effect h ht hj (w ||| 2#32)
    have hpres : present (w ||| 2#32) = true := by simp [State.present_of_entry hw]
    refine ⟨s.setWord t j (w ||| 2#32), w ||| 2#32, ?_, .single (.unprotect ht hw hone.1 hone.2),
      ⟨?_, fun e _ => by rw [htable], ?_, fun _ => ?_⟩, ?_, by simp, ?_, .inl ⟨rfl, hone⟩⟩
    · simp only [unWpPage, hword, if_pos hone]
    · intro e i
      rw [hentry, if_pos hpres]
    · intro g hg hmapped
      exact State.sameData_setEntry ht _ g hg (h.mapped_not_table hmapped)
    · exact State.mem_setWord_of_ne _ (Ne.symm (h.table_ne_zero ht)) _ _
    · exact State.mem_setWord_of_ne _ (Ne.symm (h.table_ne_zero ht)) _ _
    · rw [frame_unprotect, State.mem_setWord_of_ne]
      rintro rfl
      exact h.entry_ne_table hw d ht
  · cases hget : getFreePage s with
    | none =>
      left
      refine ⟨?_, rfl⟩
      simp only [unWpPage, hword, if_neg hone, hget]
    | some res =>
      right
      obtain ⟨newPage, s₁⟩ := res
      obtain ⟨htake, hrange, hheld, hfree, hfreeT, htable1, hentry1, _, hmem1⟩ :=
        getFreePage_spec h hget
      have h1 := htake.inv h
      have hmem : newPage ∈ insert newPage held := Finset.mem_insert_self newPage held
      have ht1 : s₁.table d = some t := by rw [htable1]; exact ht
      have hw1 : s₁.entry d j = some w := by rw [hentry1]; exact hw
      have hcopy := Move.copy hmem ht1 hw1
      rw [Finset.erase_insert hheld] at hcopy
      obtain ⟨htable2, hentry2⟩ := copy_effect h1 hmem ht1 hw1
      have hframe : frame (pageAddr newPage ||| 7#32) = newPage := h.frame_fresh hrange.2
      have hnew : frame w ≠ newPage := by
        rintro heq
        exact hfree ⟨d, j, w, hw, heq⟩
      have hdir : (((s₁.decHigh (frame w)).setWord t j (pageAddr newPage ||| 7#32)).copyPage
          (frame w) newPage).mem 0 = s.mem 0 := by
        have hn0 : newPage ≠ 0 := (ne_kernel_page (h.low.trans hrange.1)).1
        rw [State.copyPage, State.mem_setPage_of_ne _ (Ne.symm hn0),
          State.mem_setWord_of_ne _ (Ne.symm (h.table_ne_zero ht)), State.mem_decHigh,
          hmem1 0 (Ne.symm hn0)]
      refine ⟨_, pageAddr newPage ||| 7#32, ?_, (Relation.ReflTransGen.single htake).tail hcopy,
        ⟨fun e i => by rw [hentry2, hentry1], fun e _ => by rw [htable2, htable1], ?_,
          fun _ => hdir⟩, hdir, by simp, ?_,
          .inr ⟨by simp, by rwa [hframe], by rw [hframe]; exact h.low.trans hrange.1, hone⟩⟩
      · simp only [unWpPage, hword, if_neg hone, hget]
        rfl
      · intro g hg hmapped
        have hgn : g ≠ newPage := by
          rintro rfl
          exact hfree hmapped
        rw [State.copyPage, State.mem_setPage_of_ne _ hgn, State.mem_setWord_of_ne,
          State.mem_decHigh, hmem1 g hgn]
        rintro rfl
        exact h.mapped_not_table hmapped d ht
      · rw [hframe, State.copyPage, State.mem_setPage_self, State.mem_setWord_of_ne,
          State.mem_decHigh, hmem1 _ hnew]
        rintro heq
        exact h.entry_ne_table hw d (by rw [ht, heq])

/-! ### `get_empty_page` -/

/-- `get_empty_page` at an address that is not present. -/
theorem getEmptyPage_spec (h : Inv lo hi ⟨s, held⟩) {address : ℕ} (ha : UserAddress address)
    (hempty : s.pageOf address = none) :
    (∃ s', getEmptyPage s address = .oom s' ∧ Moves ⟨s, held⟩ ⟨s', held⟩ ∧
      s'.entry = s.entry ∧ s'.table = s.table ∧ ∀ g, s.Mapped g → s'.mem g = s.mem g) ∨
    ∃ s' f, getEmptyPage s address = .ok () s' ∧ Moves ⟨s, held⟩ ⟨s', held⟩ ∧
      Rewrites (dirIndex address) (tableIndex address) (some (pageAddr f ||| 7#32)) s s' ∧
      ¬s.Mapped f ∧ lo ≤ f ∧ f < hi := by
  cases hget : getFreePage s with
  | none => exact .inl ⟨s, by simp [getEmptyPage, hget], .refl, rfl, rfl, fun _ _ => rfl⟩
  | some res =>
    obtain ⟨tmp, s₁⟩ := res
    obtain ⟨htake, hrange, hheld, hfree, hfreeT, htable1, hentry1, _, hmem1⟩ :=
      getFreePage_spec h hget
    have h1 := htake.inv h
    have hmem : tmp ∈ insert tmp held := Finset.mem_insert_self tmp held
    have hempty1 : s₁.pageOf address = none := by
      rw [State.pageOf, hentry1]
      exact hempty
    rcases putPage_spec h1 hmem ha hempty1 with ⟨hput, _⟩ | ⟨s', hput, hmoves, hrew, _⟩
    · left
      have hdrop := Move.drop (s := s₁) hmem
      rw [Finset.erase_insert hheld] at hdrop
      refine ⟨s₁.decMap tmp, ?_, (Relation.ReflTransGen.single htake).tail hdrop, hentry1, htable1,
        ?_⟩
      · simp only [getEmptyPage, hget, hput, freePage_held h1 hmem, Result.bind]
      · intro g hg
        exact hmem1 g (by rintro rfl; exact hfree hg)
    · right
      rw [Finset.erase_insert hheld] at hmoves
      refine ⟨s', tmp, ?_, .head htake hmoves, ⟨?_, ?_, ?_, ?_⟩, hfree, hrange⟩
      · have hpos : tmp ≠ 0 := (ne_kernel_page (h.low.trans hrange.1)).1
        obtain ⟨n, rfl⟩ := Nat.exists_eq_succ_of_ne_zero hpos
        simp only [getEmptyPage, hget, hput]
      · intro e i
        rw [hrew.entry, hentry1]
      · intro e he
        rw [hrew.table e he, htable1]
      · intro g hg hmapped
        have hmapped1 : s₁.Mapped g := by
          obtain ⟨e, i, w, hw, hframe⟩ := hmapped
          exact ⟨e, i, w, by rw [hentry1]; exact hw, hframe⟩
        rw [hrew.data g hg hmapped1, hmem1 g (by rintro rfl; exact hfree hmapped)]
      · intro hsome
        have hn0 : tmp ≠ 0 := (ne_kernel_page (h.low.trans hrange.1)).1
        rw [hrew.dir (by rw [htable1]; exact hsome), hmem1 0 (Ne.symm hn0)]

/-! ### `try_to_share` -/

/-- The table acquired by `try_to_share`: nothing but an empty page table is
added. -/
theorem shareTable_spec (h : Inv lo hi ⟨s, held⟩) (hd : d ∈ taskDirs) :
    (shareTable s d = .oom s ∧ getFreePage s = none) ∨
    ∃ s' t, shareTable s d = .ok t s' ∧ Moves ⟨s, held⟩ ⟨s', held⟩ ∧ s'.table d = some t ∧
      s'.entry = s.entry ∧ (∀ e, e ≠ d → s'.table e = s.table e) ∧
      (∀ g, g ≠ 0 → s.Mapped g → s'.mem g = s.mem g) ∧
      ∀ e u, s.table e = some u → s'.mem u = s.mem u := by
  by_cases hp : present (s.mem 0 d) = true
  · refine .inr ⟨s, frame (s.mem 0 d), by rw [shareTable, if_pos hp], .refl,
      State.table_eq_some hd hp, rfl, fun _ _ => rfl, fun _ _ _ => rfl, fun _ _ _ => rfl⟩
  · have hnone : s.table d = none := State.table_eq_none (by simpa using hp)
    cases hget : getFreePage s with
    | none =>
      left
      refine ⟨?_, rfl⟩
      rw [shareTable, if_neg hp]
      simp only [hget]
    | some res =>
      right
      obtain ⟨page, s₁⟩ := res
      obtain ⟨htake, hrange, hheld, hfree, hfreeT, htable1, hentry1, hclear, hmem1⟩ :=
        getFreePage_spec h hget
      have h1 := htake.inv h
      have hmem : page ∈ insert page held := Finset.mem_insert_self page held
      have hattach : Move ⟨s₁, insert page held⟩
          ⟨s₁.setWord 0 d (pageAddr page ||| 7#32), (insert page held).erase page⟩ :=
        .attach hmem hd (by rw [htable1]; exact hnone) hclear
      rw [Finset.erase_insert hheld] at hattach
      obtain ⟨htable2, hentry2⟩ := attach_effect h1 hmem hd (by rw [htable1]; exact hnone) hclear
      refine ⟨_, page, ?_, (Relation.ReflTransGen.single htake).tail hattach,
        by rw [htable2, if_pos rfl], hentry2.trans hentry1,
        fun e he => by rw [htable2, if_neg he, htable1], ?_, ?_⟩
      · rw [shareTable, if_neg hp]
        simp only [hget]
      · intro g hg hmapped
        rw [State.mem_setWord_of_ne _ hg, hmem1 g (by rintro rfl; exact hfree hmapped)]
      · intro e u hu
        rw [State.mem_setWord_of_ne _ (h.table_ne_zero hu),
          hmem1 u (by rintro rfl; exact hfreeT e hu)]

/-- `try_to_share` towards an address that is not present: either the page tables
stay as they are, or a clean page of the other task is mapped, read-only in
both tasks. -/
theorem tryToShare_spec (h : Inv lo hi ⟨s, held⟩) {address startCode currentStartCode : ℕ}
    (hfrom : dirIndex address + dirIndex startCode ∈ taskDirs)
    (hto : dirIndex address + dirIndex currentStartCode ∈ taskDirs)
    (hmod : dirIndex startCode % 16 = dirIndex currentStartCode % 16)
    (hempty : s.entry (dirIndex address + dirIndex currentStartCode) (tableIndex address) = none) :
    tryToShare s address startCode currentStartCode = .ok false s ∨
    (tryToShare s address startCode currentStartCode = .oom s ∧ getFreePage s = none) ∨
    ∃ s' w, tryToShare s address startCode currentStartCode = .ok true s' ∧
      Moves ⟨s, held⟩ ⟨s', held⟩ ∧
      s.entry (dirIndex address + dirIndex startCode) (tableIndex address) = some w ∧
      dirty w = false ∧ lowMem ≤ frame w ∧
      (∀ e i, s'.entry e i =
        if (e = dirIndex address + dirIndex startCode ∨
          e = dirIndex address + dirIndex currentStartCode) ∧ i = tableIndex address
        then some (writeProtect w) else s.entry e i) ∧
      (∀ e, e ≠ dirIndex address + dirIndex currentStartCode → s'.table e = s.table e) ∧
      ∀ g, g ≠ 0 → s.Mapped g → s'.mem g = s.mem g := by
  have hj := tableIndex_lt address
  by_cases hp : present (s.mem 0 (dirIndex address + dirIndex startCode)) = true
  swap
  · left
    simp [tryToShare, hp]
  have ht := State.table_eq_some hfrom hp
  by_cases hclean : s.mem (frame (s.mem 0 (dirIndex address + dirIndex startCode)))
      (tableIndex address) &&& 0x41#32 = 0x01#32
  swap
  · left
    simp [tryToShare, hp, hclean]
  obtain ⟨hpres, hdirty⟩ := (and_present_clean_iff _).mp hclean
  have hw : s.entry (dirIndex address + dirIndex startCode) (tableIndex address) =
      some (s.mem (frame (s.mem 0 (dirIndex address + dirIndex startCode)))
        (tableIndex address)) := by
    rw [State.entry_of_table ht, if_pos ⟨hj, hpres⟩]
  have hne : dirIndex address + dirIndex startCode ≠
      dirIndex address + dirIndex currentStartCode := by
    intro heq
    rw [heq, hempty] at hw
    simp at hw
  by_cases hrange : s.highMemory ≤ frame (s.mem (frame (s.mem 0
      (dirIndex address + dirIndex startCode))) (tableIndex address)) ∨
      frame (s.mem (frame (s.mem 0 (dirIndex address + dirIndex startCode)))
        (tableIndex address)) < lowMem
  · left
    simp [tryToShare, hp, hclean, hrange]
  right
  set w := s.mem (frame (s.mem 0 (dirIndex address + dirIndex startCode))) (tableIndex address)
    with hwdef
  rcases shareTable_spec h hto with ⟨hoom, hget⟩ |
    ⟨s₁, toTable, hok, hmoves1, htable1, hentry1, hother1, hdata1, hmemT1⟩
  · left
    refine ⟨?_, hget⟩
    simp only [tryToShare, if_pos hp, ← hwdef, if_pos hclean, if_neg hrange, hoom, Result.bind]
  · right
    have h1 := Moves.inv hmoves1 h
    have hhigh : lowMem ≤ frame w := by omega
    have ht1 : s₁.table (dirIndex address + dirIndex startCode) =
        some (frame (s.mem 0 (dirIndex address + dirIndex startCode))) := by
      rw [hother1 _ hne]
      exact ht
    have hw1 : s₁.entry (dirIndex address + dirIndex startCode) (tableIndex address) = some w := by
      rw [hentry1]
      exact hw
    have hempty1 : s₁.entry (dirIndex address + dirIndex currentStartCode) (tableIndex address) =
        none := by
      rw [hentry1]
      exact hempty
    have hnp : present (s₁.mem toTable (tableIndex address)) = false := by
      by_contra hcon
      rw [State.entry_of_table htable1, if_pos ⟨hj, by simpa using hcon⟩] at hempty1
      simp at hempty1
    have hmove2 : Move ⟨s₁, held⟩ ⟨s₁.setWord _ (tableIndex address) (writeProtect w), held⟩ :=
      .protect ht1 hw1
    have h2 := hmove2.inv h1
    obtain ⟨htable2, hentry2⟩ := setEntry_effect h1 ht1 hj (writeProtect w)
    have hpw : present (writeProtect w) = true := by simp [hpres]
    have hmove3 : Move ⟨_, held⟩ _ := Move.share
      (by rw [hentry2, if_pos ⟨rfl, rfl⟩, if_pos hpw] : _ = some (writeProtect w)) (by simp)
      (by simpa using hhigh) (by rw [htable2]; exact htable1)
      (by rw [hentry2, if_neg (fun heq => hne heq.1.symm)]; exact hempty1) (by omega)
    rw [frame_writeProtect] at hmove3
    obtain ⟨htable3, hentry3⟩ := setEntry_effect h2 (by rw [htable2]; exact htable1) hj
      (writeProtect w)
    have hword1 : s₁.mem (frame (s.mem 0 (dirIndex address + dirIndex startCode)))
        (tableIndex address) = w := by rw [hmemT1 _ _ ht]
    refine ⟨_, w, ?_, (hmoves1.tail hmove2).tail hmove3, hw, hdirty, hhigh, ?_, ?_, ?_⟩
    · have hself : (s₁.setWord (frame (s.mem 0 (dirIndex address + dirIndex startCode)))
          (tableIndex address) (writeProtect w)).mem
          (frame (s.mem 0 (dirIndex address + dirIndex startCode))) (tableIndex address) =
          writeProtect w := by simp [State.mem_setWord]
      simp only [tryToShare, if_pos hp, ← hwdef, if_pos hclean, if_neg hrange, hok, Result.bind,
        hnp, Bool.false_eq_true, if_false, hword1, hself]
    · intro e i
      rw [State.incMap, State.entry_setMap, hentry3, hentry2, hentry1, if_pos hpw]
      by_cases hi : i = tableIndex address
      · by_cases he : e = dirIndex address + dirIndex currentStartCode
        · rw [if_pos ⟨he, hi⟩, if_pos ⟨.inr he, hi⟩]
        · by_cases he' : e = dirIndex address + dirIndex startCode
          · rw [if_neg (fun heq => he heq.1), if_pos ⟨he', hi⟩, if_pos ⟨.inl he', hi⟩]
          · rw [if_neg (fun heq => he heq.1), if_neg (fun heq => he' heq.1),
              if_neg (fun heq => heq.1.elim he' he)]
      · rw [if_neg (fun heq => hi heq.2), if_neg (fun heq => hi heq.2),
          if_neg (fun heq => hi heq.2)]
    · intro e he
      rw [State.incMap, State.table_setMap, htable3, htable2, hother1 e he]
    · intro g hg hmapped
      have hmapped1 : s₁.Mapped g := by
        obtain ⟨e, i, u, hu, hframe⟩ := hmapped
        exact ⟨e, i, u, by rw [hentry1]; exact hu, hframe⟩
      rw [State.incMap, State.mem_setMap, State.mem_setWord_of_ne, State.mem_setWord_of_ne,
        hdata1 g hg hmapped]
      · rintro rfl
        exact h1.mapped_not_table hmapped1 _ ht1
      · rintro rfl
        exact h1.mapped_not_table hmapped1 _ htable1

end LihaLinux.Mm
