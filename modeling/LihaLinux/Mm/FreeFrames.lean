import LihaLinux.Mm.Faults

/-!
# Free pages

How many pages are free, and what the functions of `mm/memory.c` take of them. With enough free
pages `put_page` and `get_empty_page` succeed, and `free_page_tables` never takes a page.
-/

namespace LihaLinux.Mm

variable {lo hi : ℕ} {s s' : State} {held : Finset ℕ} {f m n address : ℕ}

/-- At least `n` counters of `mem_map` are zero. -/
def State.Free (s : State) (n : ℕ) : Prop :=
  ∃ F : Finset ℕ, n ≤ F.card ∧ ∀ g ∈ F, g < pagingPages ∧ s.memMap g = 0

namespace State.Free

theorem mono (h : s.Free n) (hmn : m ≤ n) : s.Free m := by
  obtain ⟨F, hcard, hF⟩ := h
  exact ⟨F, hmn.trans hcard, hF⟩

theorem congr (h : s.Free n) (hmap : s'.memMap = s.memMap) : s'.Free n := by
  obtain ⟨F, hcard, hF⟩ := h
  exact ⟨F, hcard, fun g hg => by rw [hmap]; exact hF g hg⟩

/-- The first counters are zero. -/
theorem of_all (hn : n ≤ pagingPages)
    (h : ((List.range n).all fun g => s.memMap g == 0) = true) : s.Free n := by
  refine ⟨Finset.range n, (Finset.card_range n).ge, fun g hg => ?_⟩
  have hlt : g < n := Finset.mem_range.mp hg
  have hzero := List.all_eq_true.mp h g (List.mem_range.mpr hlt)
  exact ⟨hlt.trans_le hn, beq_iff_eq.mp hzero⟩

theorem scanFree_none {memMap : ℕ → ℕ} {bound : ℕ} (h : scanFree memMap bound = none) :
    ∀ g < bound, memMap g ≠ 0 := by
  induction bound with
  | zero => exact fun g hg => absurd hg (Nat.not_lt_zero g)
  | succ bound ih =>
    rw [scanFree] at h
    split at h
    · cases h
    · next hne =>
      intro g hg
      by_cases hgb : g = bound
      · rwa [hgb]
      · exact ih h g (by omega)

/-- `get_free_page` takes one of the free pages. -/
theorem getFreePage (h : s.Free (n + 1)) : ∃ f s', getFreePage s = some (f, s') ∧ s'.Free n := by
  obtain ⟨F, hcard, hF⟩ := h
  cases hget : Mm.getFreePage s with
  | none =>
    obtain ⟨g, hg⟩ : F.Nonempty := Finset.card_pos.mp (by omega)
    have hscan : scanFree s.memMap pagingPages = none := by
      cases hs : scanFree s.memMap pagingPages with
      | none => rfl
      | some i =>
        rw [Mm.getFreePage, hs] at hget
        cases hget
    exact absurd (hF g hg).2 (scanFree_none hscan g (hF g hg).1)
  | some r =>
    obtain ⟨f, s'⟩ := r
    obtain ⟨hlow, hf, hzero, rfl⟩ := getFreePage_some hget
    refine ⟨f, _, rfl, F.erase (mapNr f), ?_, fun g hg => ?_⟩
    · have := Finset.pred_card_le_card_erase (s := F) (a := mapNr f)
      omega
    · obtain ⟨hne, hg⟩ := Finset.mem_erase.mp hg
      refine ⟨(hF g hg).1, ?_⟩
      rw [memMap_setPage, State.memMap_setMap, if_neg hne]
      exact (hF g hg).2

/-- What `get_free_page` takes was free. -/
theorem of_getFreePage (hget : Mm.getFreePage s = some (f, s')) (h : s'.Free n) :
    s.Free (n + 1) := by
  obtain ⟨hlow, hf, hzero, rfl⟩ := getFreePage_some hget
  obtain ⟨F, hcard, hF⟩ := h
  have hnew : mapNr f ∉ F := fun hmem => by
    have hone := (hF _ hmem).2
    rw [memMap_setPage, State.memMap_setMap, if_pos rfl] at hone
    exact one_ne_zero hone
  refine ⟨insert (mapNr f) F, ?_, fun g hg => ?_⟩
  · rw [Finset.card_insert_of_notMem hnew]
    omega
  · rcases Finset.mem_insert.mp hg with heq | hg
    · rw [heq]
      refine ⟨?_, hzero⟩
      unfold mapNr
      omega
    · have hne : g ≠ mapNr f := fun heq => hnew (heq ▸ hg)
      refine ⟨(hF g hg).1, ?_⟩
      have hg0 := (hF g hg).2
      rwa [memMap_setPage, State.memMap_setMap, if_neg hne] at hg0

/-- `get_free_page` takes exactly one of the free pages. -/
theorem getFreePage_iff (hget : Mm.getFreePage s = some (f, s')) : s'.Free n ↔ s.Free (n + 1) := by
  constructor
  · exact of_getFreePage hget
  · intro h
    obtain ⟨f', s'', hget', hfree⟩ := h.getFreePage
    rw [hget] at hget'
    cases hget'
    exact hfree

/-- The free pages are those without a reference. -/
theorem of_refs (h : s.Free n) (hinv : Inv lo hi ⟨s, held⟩) (hinv' : Inv lo hi ⟨s', held⟩)
    (htable : ∀ d t, s'.table d = some t → s.table d = some t)
    (hentry : ∀ d j w, s'.entry d j = some w → s.entry d j = some w) : s'.Free n := by
  obtain ⟨F, hcard, hF⟩ := h
  refine ⟨F, hcard, fun g hg => ⟨(hF g hg).1, ?_⟩⟩
  have hnr : mapNr (g + lowMem) = g := Nat.add_sub_cancel ..
  have hzero : s.memMap (mapNr (g + lowMem)) = 0 := by
    rw [hnr]
    exact (hF g hg).2
  obtain ⟨⟨hlo, hhi⟩, hpte, hdir, hheld⟩ := hinv.free_frame (Nat.le_add_left ..)
    (by have := (hF g hg).1; omega) hzero
  rw [← hnr, hinv'.counts _ hlo hhi]
  refine Refs.count_eq_zero (fun d j hp => ?_) (fun d hd => hdir d (htable d _ hd)) hheld
  obtain ⟨w, hw, hframe⟩ := Option.map_eq_some_iff.mp hp
  exact hpte d j (Option.map_eq_some_iff.mpr ⟨w, hentry d j w hw, hframe⟩)

end State.Free

/-- The number of page tables that an address still needs: one or none. -/
def State.tableNeed (s : State) (address : ℕ) : ℕ :=
  if present (s.mem 0 (dirIndex address)) then 0 else 1

/-- `put_page` takes a page for the page table, if there is none. -/
theorem putPage_free (h : s.Free (n + s.tableNeed address)) : (putPage s f address).2.Free n := by
  rw [State.tableNeed] at h
  rw [putPage]
  split
  · next hp =>
    rw [if_pos hp] at h
    exact h.congr rfl
  · next hp =>
    rw [if_neg hp] at h
    obtain ⟨tmp, s', hget, hfree⟩ := h.getFreePage
    rw [hget]
    exact hfree.congr rfl

/-- `put_page` of a held page at an address that is not present, with a free page for the table. -/
theorem putPage_ok (h : Inv lo hi ⟨s, held⟩) (hf : f ∈ held) (ha : UserAddress address)
    (hempty : s.pageOf address = none) (hfree : s.Free (n + s.tableNeed address)) :
    ∃ s', putPage s f address = (f, s') ∧ Moves ⟨s, held⟩ ⟨s', held.erase f⟩ ∧
      Rewrites (dirIndex address) (tableIndex address) (some (pageAddr f ||| 7#32)) s s' ∧
      (∀ g ∈ held, s'.mem g = s.mem g) ∧ s'.Free n := by
  have hput := putPage_free (f := f) hfree
  rcases putPage_spec h hf ha hempty with ⟨hfail, hget⟩ | ⟨s', hok, hmoves, hrew, hmem⟩
  · by_cases hp : present (s.mem 0 (dirIndex address)) = true
    · rw [putPage, if_pos hp] at hfail
      exact absurd (Prod.mk.inj hfail).1 (h.held_ge_two hf).1
    · rw [State.tableNeed, if_neg hp] at hfree
      obtain ⟨tmp, s', hsome, -⟩ := hfree.getFreePage
      rw [hget] at hsome
      cases hsome
  · rw [hok] at hput
    exact ⟨s', hok, hmoves, hrew, hmem, hput⟩

/-- `get_empty_page` at an address that is not present, with enough free pages. -/
theorem getEmptyPage_ok (h : Inv lo hi ⟨s, held⟩) (ha : UserAddress address)
    (hempty : s.pageOf address = none) (hfree : s.Free (n + s.tableNeed address + 1)) :
    ∃ s' f, getEmptyPage s address = .ok () s' ∧ Moves ⟨s, held⟩ ⟨s', held⟩ ∧
      Rewrites (dirIndex address) (tableIndex address) (some (pageAddr f ||| 7#32)) s s' ∧
      s'.Free n := by
  obtain ⟨tmp, s₁, hget, hfree₁⟩ := hfree.getFreePage
  obtain ⟨htake, hrange, hheld, hnot, hnotT, htable, hentry, -, hmem⟩ := getFreePage_spec h hget
  have hn0 : tmp ≠ 0 := (ne_kernel_page (h.low.trans hrange.1)).1
  have hneed : s₁.tableNeed address = s.tableNeed address := by
    rw [State.tableNeed, State.tableNeed, hmem 0 (Ne.symm hn0)]
  rw [← hneed] at hfree₁
  have hempty₁ : s₁.pageOf address = none := by
    rw [State.pageOf, hentry]
    exact hempty
  have h₁ := htake.inv h
  obtain ⟨s', hput, -, -, -, hfree'⟩ :=
    putPage_ok h₁ (Finset.mem_insert_self tmp held) ha hempty₁ hfree₁
  obtain ⟨n, hn⟩ := Nat.exists_eq_succ_of_ne_zero hn0
  have hok : getEmptyPage s address = .ok () s' := by
    rw [hn] at hput
    simp only [getEmptyPage, hget, hn, hput]
  rcases getEmptyPage_spec h ha hempty with ⟨s'', hoom, -⟩ | ⟨s'', f, hok', hmoves, hrew, -⟩
  · cases hok.symm.trans hoom
  · obtain rfl : s' = s'' := by
      rw [hok] at hok'
      exact (Result.ok.inj hok').2
    exact ⟨s', f, hok, hmoves, hrew, hfree'⟩

end LihaLinux.Mm
