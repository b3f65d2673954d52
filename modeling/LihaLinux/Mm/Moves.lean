import LihaLinux.Mm.Invariant

/-!
# The moves keep the reference counts

For each move: what it does to the page tables, and that the invariant holds
after it. The counters change exactly as the number of references does.
-/

namespace LihaLinux.Mm

variable {lo hi : ℕ} {s : State} {held : Finset ℕ} {d d' j t t' f : ℕ} {w : Word}

theorem State.KernelMapped.congr {s s' : State} (h : s.KernelMapped)
    (hdir : ∀ d < 16, s'.mem 0 d = s.mem 0 d)
    (hpage : ∀ p, 1 ≤ p → p < lowMem → s'.mem p = s.mem p) : s'.KernelMapped where
  dir := by
    rw [hdir 0 (by omega)]
    exact h.dir
  pages := by
    rw [hpage 1 le_rfl (by decide)]
    exact h.pages
  tables := by
    intro d hd
    rw [hdir d hd]
    intro hp
    obtain ⟨hrange, hwrite⟩ := h.tables d hd hp
    rw [hpage _ hrange.1 hrange.2]
    exact ⟨hrange, hwrite⟩

/-- A store outside the kernel's tables keeps them. -/
theorem State.KernelMapped.setWord (h : s.KernelMapped) {page index : ℕ}
    (hpage : lowMem ≤ page ∨ page = 0 ∧ 16 ≤ index) (v : Word) :
    (s.setWord page index v).KernelMapped := by
  unfold lowMem at hpage
  refine h.congr (fun d hd => ?_) (fun p hp hlow => ?_)
  · rw [State.mem_setWord, if_neg (by omega)]
  · unfold lowMem at hlow
    exact State.mem_setWord_of_ne s (by omega) _ _

theorem State.KernelMapped.setPage (h : s.KernelMapped) {page : ℕ} (hpage : lowMem ≤ page)
    (content : ℕ → Word) : (s.setPage page content).KernelMapped := by
  unfold lowMem at hpage
  refine h.congr (fun d hd => ?_) (fun p hp hlow => ?_)
  · rw [State.mem_setPage_of_ne s (by omega)]
  · unfold lowMem at hlow
    exact State.mem_setPage_of_ne s (by omega) _

theorem State.KernelMapped.setMap (h : s.KernelMapped) (n v : ℕ) : (s.setMap n v).KernelMapped :=
  ⟨h.dir, h.pages, h.tables⟩

theorem ne_kernel_page (hlow : lowMem ≤ f) : f ≠ 0 ∧ f ≠ 1 := by
  unfold lowMem at hlow
  omega

/-! ### Taking and giving back frames -/

theorem take_effect (h : Inv lo hi ⟨s, held⟩) (hlow : lowMem ≤ f) (hf : f < lowMem + pagingPages)
    (hzero : s.memMap (mapNr f) = 0) :
    ((s.setMap (mapNr f) 1).setPage f fun _ => 0).table = s.table ∧
      ((s.setMap (mapNr f) 1).setPage f fun _ => 0).entry = s.entry := by
  obtain ⟨_, _, hdir, _⟩ := h.free_frame hlow hf hzero
  exact State.table_entry_setPage (s := s.setMap (mapNr f) 1) (ne_kernel_page hlow).1 hdir _

theorem Inv.take (h : Inv lo hi ⟨s, held⟩) (hlow : lowMem ≤ f) (hf : f < lowMem + pagingPages)
    (hzero : s.memMap (mapNr f) = 0) :
    Inv lo hi ⟨(s.setMap (mapNr f) 1).setPage f fun _ => 0, insert f held⟩ := by
  obtain ⟨hrange, hpte, hdir, hheld⟩ := h.free_frame hlow hf hzero
  obtain ⟨htable, hentry⟩ := take_effect h hlow hf hzero
  have hrefs : Config.refs ⟨(s.setMap (mapNr f) 1).setPage f fun _ => 0, insert f held⟩ =
      (Config.refs ⟨s, held⟩).hold f := by
    simp only [Config.refs, State.refs, htable, hentry, Refs.hold]
  refine h.update rfl ((h.kernel.setMap _ _).setPage hlow _) ?_ ?_ ?_
  · rw [hrefs]
    exact h.wf.hold hrange ⟨hpte, hdir⟩
  · intro g hg hg'
    have hcount := h.counts g hg hg'
    rw [hrefs, Refs.count_hold hheld, State.memMap_setPage,
      State.memMap_setMap_page s hlow (h.low.trans hg)]
    by_cases heq : g = f
    · subst heq
      rw [if_pos rfl, indicator_true rfl, ← hcount]
      exact (congrArg (· + 1) hzero).symm
    · rw [if_neg heq, indicator_false heq]
      exact hcount
  · intro g hg hout
    rw [State.memMap_setPage, State.memMap_setMap_page s hlow hg, if_neg (by omega)]

/-- The counter of a referenced frame is not zero and `mem_map[..]--` does not wrap. -/
theorem Inv.memMap_decMap (h : Inv lo hi ⟨s, held⟩) (hf : lo ≤ f) (hf' : f < hi) {g : ℕ}
    (hg : lowMem ≤ g) (hpos : 0 < (Config.refs ⟨s, held⟩).count f) :
    (s.decMap f).memMap (mapNr g) + indicator (g = f) = s.memMap (mapNr g) := by
  have hcount := h.counts f hf hf'
  have hle := h.count_lt hf
  rw [State.decMap, State.memMap_setMap_page s (h.low.trans hf) hg]
  by_cases heq : g = f
  · subst heq
    rw [if_pos rfl, indicator_true rfl]
    simp only at hcount
    omega
  · rw [if_neg heq, indicator_false heq, Nat.add_zero]

theorem Inv.drop (h : Inv lo hi ⟨s, held⟩) (hf : f ∈ held) :
    Inv lo hi ⟨s.decMap f, held.erase f⟩ := by
  obtain ⟨hlo, hhi⟩ := h.held_range hf
  have hrefs : Config.refs ⟨s.decMap f, held.erase f⟩ = (Config.refs ⟨s, held⟩).release f := rfl
  have hrelease := Refs.count_release (r := Config.refs ⟨s, held⟩) hf
  have hpos : 0 < (Config.refs ⟨s, held⟩).count f := by
    have := hrelease f
    rw [indicator_true rfl] at this
    omega
  refine h.update rfl (h.kernel.setMap _ _) ?_ ?_ ?_
  · rw [hrefs]
    exact h.wf.release f
  · intro g hg hg'
    have hdec := h.memMap_decMap hlo hhi (h.low.trans hg) hpos
    have hcount := h.counts g hg hg'
    have := hrelease g
    rw [hrefs]
    simp only at hcount
    omega
  · intro g hg hout
    have hdec := h.memMap_decMap hlo hhi hg hpos
    rwa [indicator_false (by omega), Nat.add_zero] at hdec

/-! ### Page tables -/

theorem attach_effect (h : Inv lo hi ⟨s, held⟩) (hf : f ∈ held) (hd : d ∈ taskDirs)
    (hempty : s.table d = none) (hclear : ∀ j, s.mem f j = 0) :
    (∀ e, (s.setWord 0 d (pageAddr f ||| 7#32)).table e = if e = d then some f else s.table e) ∧
      (s.setWord 0 d (pageAddr f ||| 7#32)).entry = s.entry := by
  obtain ⟨_, hhi⟩ := h.held_range hf
  have hframe := h.frame_fresh hhi
  obtain ⟨htable, hentry⟩ := State.table_entry_setDir hd
    (fun e he => h.table_ne_zero (d := e) he rfl) (pageAddr f ||| 7#32)
  simp only [present_fresh, if_true, hframe] at htable
  refine ⟨htable, ?_⟩
  funext e i
  by_cases he : e = d
  · subst he
    have ht : (s.setWord 0 e (pageAddr f ||| 7#32)).table e = some f := by rw [htable, if_pos rfl]
    rw [State.entry_of_table ht, State.entry_of_table_none hempty,
      State.mem_setWord_of_ne s (h.held_ge_two hf).1, hclear i]
    simp
  · exact hentry e i he

theorem Inv.attach (h : Inv lo hi ⟨s, held⟩) (hf : f ∈ held) (hd : d ∈ taskDirs)
    (hempty : s.table d = none) (hclear : ∀ j, s.mem f j = 0) :
    Inv lo hi ⟨s.setWord 0 d (pageAddr f ||| 7#32), held.erase f⟩ := by
  obtain ⟨htable, hentry⟩ := attach_effect h hf hd hempty hclear
  have hrefs : Config.refs ⟨s.setWord 0 d (pageAddr f ||| 7#32), held.erase f⟩ =
      ((Config.refs ⟨s, held⟩).release f).setDir d (some f) := by
    simp only [Config.refs, State.refs, hentry, Refs.release, Refs.setDir, Refs.mk.injEq, and_true]
    exact funext htable
  have hd16 : 16 ≤ d := (mem_taskDirs.mp hd).1
  refine h.update rfl (h.kernel.setWord (.inr ⟨rfl, hd16⟩) _) ?_ ?_ ?_
  · rw [hrefs]
    exact h.wf.attach hd hf
  · intro g hg hg'
    have hcount := h.counts g hg hg'
    have hrelease := Refs.count_release (r := Config.refs ⟨s, held⟩) hf g
    have hset := Refs.count_setDir (r := (Config.refs ⟨s, held⟩).release f) hd (some f) g
    have hnone : ((Config.refs ⟨s, held⟩).release f).dir d = none := hempty
    rw [hnone, indicator_false (by simp)] at hset
    rw [hrefs]
    by_cases heq : g = f
    · subst heq
      rw [indicator_true rfl] at hrelease hset
      simp only [State.memMap_setWord] at hcount ⊢
      omega
    · rw [indicator_false heq] at hrelease
      rw [indicator_false (by simpa using Ne.symm heq)] at hset
      simp only [State.memMap_setWord] at hcount ⊢
      omega
  · intro g _ _
    rfl

theorem detach_effect (h : Inv lo hi ⟨s, held⟩) (ht : s.table d = some t)
    (hempty : ∀ j, s.entry d j = none) :
    (∀ e, ((s.decMap t).setWord 0 d 0).table e = if e = d then none else s.table e) ∧
      ((s.decMap t).setWord 0 d 0).entry = s.entry := by
  have hd := (State.table_iff.mp ht).1
  obtain ⟨htable, hentry⟩ := State.table_entry_setDir (s := s.decMap t) hd
    (fun e he => h.table_ne_zero (d := e) he rfl) 0
  rw [if_neg (by decide)] at htable
  refine ⟨htable, ?_⟩
  funext e i
  by_cases he : e = d
  · subst he
    rw [hempty i, State.entry_of_table_none (by rw [htable, if_pos rfl])]
  · exact hentry e i he

theorem Inv.detach (h : Inv lo hi ⟨s, held⟩) (ht : s.table d = some t)
    (hempty : ∀ j, s.entry d j = none) : Inv lo hi ⟨(s.decMap t).setWord 0 d 0, held⟩ := by
  obtain ⟨htable, hentry⟩ := detach_effect h ht hempty
  obtain ⟨hlo, hhi⟩ := h.table_ge ht
  have hd := (State.table_iff.mp ht).1
  have hd16 : 16 ≤ d := (mem_taskDirs.mp hd).1
  have hrefs : Config.refs ⟨(s.decMap t).setWord 0 d 0, held⟩ =
      (Config.refs ⟨s, held⟩).setDir d none := by
    simp only [Config.refs, State.refs, hentry, Refs.setDir, Refs.mk.injEq, and_true]
    exact funext htable
  have hset := Refs.count_setDir (r := Config.refs ⟨s, held⟩) hd none
  have hold : (Config.refs ⟨s, held⟩).dir d = some t := ht
  have hpos : 0 < (Config.refs ⟨s, held⟩).count t := by
    have := hset t
    rw [hold, indicator_true rfl, indicator_false (by simp)] at this
    omega
  refine h.update rfl ((h.kernel.setMap _ _).setWord (.inr ⟨rfl, hd16⟩) _) ?_ ?_ ?_
  · rw [hrefs]
    exact h.wf.detach fun j => by simp [hempty j]
  · intro g hg hg'
    have hdec := h.memMap_decMap hlo hhi (h.low.trans hg) hpos
    have hcount := h.counts g hg hg'
    have hsetg := hset g
    rw [hold, indicator_false (p := none = some g) (by simp)] at hsetg
    rw [hrefs, State.memMap_setWord]
    simp only at hcount
    by_cases heq : g = t
    · subst heq
      rw [indicator_true rfl] at hdec hsetg
      omega
    · rw [indicator_false heq] at hdec
      rw [indicator_false (by simpa using Ne.symm heq)] at hsetg
      omega
  · intro g hg hout
    have hdec := h.memMap_decMap hlo hhi hg hpos
    rw [State.memMap_setWord]
    rwa [indicator_false (by omega), Nat.add_zero] at hdec

/-! ### Page-table entries -/

theorem setEntry_effect (h : Inv lo hi ⟨s, held⟩) (ht : s.table d = some t) (hj : j < 1024)
    (v : Word) :
    (s.setWord t j v).table = s.table ∧
      ∀ d' j', (s.setWord t j v).entry d' j' =
        if d' = d ∧ j' = j then (if present v = true then some v else none) else s.entry d' j' :=
  State.table_entry_setWord ht (h.table_ne_zero ht) (h.table_inj ht) hj v

/-- A store into a table rewrites one place of the graph. -/
theorem refs_setEntry (h : Inv lo hi ⟨s, held⟩) (ht : s.table d = some t) (hj : j < 1024)
    (v : Word) (held' : Finset ℕ) :
    Config.refs ⟨s.setWord t j v, held'⟩ = (Config.refs ⟨s, held'⟩).setPte d j
      (if present v = true then some (frame v) else none) := by
  obtain ⟨htable, hentry⟩ := setEntry_effect h ht hj v
  simp only [Config.refs, State.refs, htable, Refs.setPte, Refs.mk.injEq, and_true, true_and]
  funext d' j'
  rw [hentry]
  split
  · split <;> rfl
  · rfl

theorem State.KernelMapped.setEntry (hk : s.KernelMapped) (h : Inv lo hi ⟨s, held⟩)
    (ht : s.table d = some t) (v : Word) : (s.setWord t j v).KernelMapped :=
  hk.setWord (.inl (h.low.trans (h.table_ge ht).1)) v

theorem Inv.map (h : Inv lo hi ⟨s, held⟩) (hf : f ∈ held) (ht : s.table d = some t)
    (hj : j < 1024) (hempty : s.entry d j = none) :
    Inv lo hi ⟨s.setWord t j (pageAddr f ||| 7#32), held.erase f⟩ := by
  obtain ⟨hlo, hhi⟩ := h.held_range hf
  have hd := (State.table_iff.mp ht).1
  have hrefs : Config.refs ⟨s.setWord t j (pageAddr f ||| 7#32), held.erase f⟩ =
      ((Config.refs ⟨s, held⟩).release f).setPte d j (some f) := by
    rw [refs_setEntry h ht hj, if_pos (present_fresh f), h.frame_fresh hhi]
    rfl
  refine h.update rfl (h.kernel.setEntry h ht _) ?_ ?_ (fun _ _ _ => rfl)
  · rw [hrefs]
    apply (h.wf.release f).setPte
    · intro _
      exact ⟨hj, by simp [Refs.release, ht]⟩
    · intro g hg
      obtain rfl : f = g := by simpa using hg
      exact Or.inr ⟨hlo, hhi⟩
    · intro g e hg he
      obtain rfl : f = g := by simpa using hg
      exact h.held_ne_table hf e he
    · intro g hg hmem
      obtain rfl : f = g := by simpa using hg
      exact Finset.notMem_erase f _ hmem
    · intro g e i hg _ hp _
      obtain rfl : f = g := by simpa using hg
      exact absurd hp (h.wf.held_unmapped hf)
  · intro g hg hg'
    have hcount := h.counts g hg hg'
    have hrelease := Refs.count_release (r := Config.refs ⟨s, held⟩) hf g
    have hset := Refs.count_setPte (r := (Config.refs ⟨s, held⟩).release f) hd hj (some f) g
    have hnone : ((Config.refs ⟨s, held⟩).release f).pte d j = none := by
      simp [Refs.release, hempty]
    rw [hnone, indicator_false (p := none = some g) (by simp)] at hset
    rw [hrefs, State.memMap_setWord]
    simp only at hcount
    by_cases heq : g = f
    · subst heq
      rw [indicator_true rfl] at hrelease hset
      omega
    · rw [indicator_false heq] at hrelease
      rw [indicator_false (by simpa using Ne.symm heq)] at hset
      omega

/-- The references to a frame mapped at a place, when the place is cleared. -/
theorem Refs.count_clear (held : Finset ℕ) (hw : s.entry d j = some w) (g : ℕ) :
    ((Config.refs ⟨s, held⟩).setPte d j none).count g + indicator (g = frame w) =
      (Config.refs ⟨s, held⟩).count g := by
  obtain ⟨t, ht, hj, _, _⟩ := State.entry_iff.mp hw
  have hset := Refs.count_setPte (r := Config.refs ⟨s, held⟩) (State.table_iff.mp ht).1 hj none g
  have hold : (Config.refs ⟨s, held⟩).pte d j = some (frame w) := by simp [hw]
  rw [hold, indicator_false (p := none = some g) (by simp), Nat.add_zero] at hset
  rw [← hset]
  by_cases heq : g = frame w
  · rw [heq, indicator_true rfl, indicator_true rfl]
  · rw [indicator_false heq, indicator_false (by simpa using Ne.symm heq)]

/-- The counters after a frame loses the reference of an entry. -/
theorem Inv.memMap_decHigh (h : Inv lo hi ⟨s, held⟩) (hw : s.entry d j = some w) {g : ℕ}
    (hg : lowMem ≤ g) :
    (s.decHigh (frame w)).memMap (mapNr g) + indicator (g = frame w) = s.memMap (mapNr g) := by
  unfold State.decHigh
  split
  · next hhigh =>
    obtain ⟨hlo, hhi⟩ := h.entry_high hw hhigh
    apply h.memMap_decMap hlo hhi hg
    have := Refs.count_clear held hw (frame w)
    rw [indicator_true rfl] at this
    omega
  · next hlow =>
    rw [indicator_false (by omega), Nat.add_zero]

@[simp] theorem State.mem_decHigh (s : State) (page : ℕ) : (s.decHigh page).mem = s.mem := by
  unfold State.decHigh
  split <;> rfl

@[simp] theorem State.table_decHigh (s : State) (page : ℕ) : (s.decHigh page).table = s.table := by
  unfold State.decHigh
  split <;> rfl

@[simp] theorem State.entry_decHigh (s : State) (page : ℕ) : (s.decHigh page).entry = s.entry := by
  unfold State.decHigh
  split <;> rfl

@[simp] theorem State.highMemory_decHigh (s : State) (page : ℕ) :
    (s.decHigh page).highMemory = s.highMemory := by
  unfold State.decHigh
  split <;> rfl

theorem State.KernelMapped.decHigh (h : s.KernelMapped) (page : ℕ) :
    (s.decHigh page).KernelMapped := 
  h.congr (by simp) (by simp)

theorem setEntry_decHigh_effect (h : Inv lo hi ⟨s, held⟩) (ht : s.table d = some t)
    (hj : j < 1024) (page : ℕ) (v : Word) :
    ((s.decHigh page).setWord t j v).table = s.table ∧
      ∀ d' j', ((s.decHigh page).setWord t j v).entry d' j' =
        if d' = d ∧ j' = j then (if present v = true then some v else none) else s.entry d' j' := by
  have := State.table_entry_setWord (s := s.decHigh page) (d := d) (t := t) (by simpa using ht)
    (h.table_ne_zero ht) (by simpa using h.table_inj ht) hj v
  simpa using this

theorem refs_setEntry_decHigh (h : Inv lo hi ⟨s, held⟩) (ht : s.table d = some t) (hj : j < 1024)
    (page : ℕ) (v : Word) (held' : Finset ℕ) :
    Config.refs ⟨(s.decHigh page).setWord t j v, held'⟩ = (Config.refs ⟨s, held'⟩).setPte d j
      (if present v = true then some (frame v) else none) := by
  rw [← refs_setEntry h ht hj v held']
  obtain ⟨htable, hentry⟩ := setEntry_decHigh_effect h ht hj page v
  obtain ⟨htable', hentry'⟩ := setEntry_effect h ht hj v
  have heq : ((s.decHigh page).setWord t j v).entry = (s.setWord t j v).entry := by
    funext d' j'
    rw [hentry, hentry']
  simp only [Config.refs, State.refs, htable, htable', heq]

theorem Inv.unmap (h : Inv lo hi ⟨s, held⟩) (ht : s.table d = some t)
    (hw : s.entry d j = some w) : Inv lo hi ⟨(s.decHigh (frame w)).setWord t j 0, held⟩ := by
  have hj := h.entry_index hw
  have hrefs : Config.refs ⟨(s.decHigh (frame w)).setWord t j 0, held⟩ =
      (Config.refs ⟨s, held⟩).setPte d j none := by
    rw [refs_setEntry_decHigh h ht hj, if_neg (by decide)]
  refine h.update (by simp) ((h.kernel.decHigh _).setWord
    (.inl (h.low.trans (h.table_ge ht).1)) _) ?_ ?_ ?_
  · rw [hrefs]
    exact h.wf.clearPte d j
  · intro g hg hg'
    have hcount := h.counts g hg hg'
    have hclear := Refs.count_clear held hw g
    have hdec := h.memMap_decHigh hw (h.low.trans hg)
    rw [hrefs, State.memMap_setWord]
    simp only at hcount
    omega
  · intro g hg hout
    have hdec := h.memMap_decHigh hw hg
    have hne : g ≠ frame w := by
      rintro rfl
      have := h.entry_high hw hg
      omega
    rwa [indicator_false hne, Nat.add_zero] at hdec

/-- Rewriting an entry without changing which frame it maps keeps the invariant. -/
theorem Inv.reflag (h : Inv lo hi ⟨s, held⟩) (ht : s.table d = some t) (hj : j < 1024) {v : Word}
    (hsame : (if present v = true then some (frame v) else none) = (s.entry d j).map frame) :
    Inv lo hi ⟨s.setWord t j v, held⟩ := by
  have hrefs : Config.refs ⟨s.setWord t j v, held⟩ = Config.refs ⟨s, held⟩ := by
    rw [refs_setEntry h ht hj, hsame]
    ext1
    · rfl
    · funext d' j'
      simp only [Refs.setPte, Config.refs_pte]
      split
      · next heq => rw [heq.1, heq.2]
      · rfl
    · rfl
  refine h.update rfl (h.kernel.setEntry h ht v) ?_ ?_ (fun _ _ _ => rfl)
  · rw [hrefs]
    exact h.wf
  · rw [hrefs]
    exact h.counts

theorem Inv.share (h : Inv lo hi ⟨s, held⟩) (hw : s.entry d j = some w)
    (hhigh : lowMem ≤ frame w) (ht' : s.table d' = some t') (hempty : s.entry d' j = none)
    (hmod : d % 16 = d' % 16) : Inv lo hi ⟨(s.setWord t' j w).incMap (frame w), held⟩ := by
  have hj := h.entry_index hw
  have hd' := (State.table_iff.mp ht').1
  obtain ⟨hlo, hhi⟩ := h.entry_high hw hhigh
  have hpte : (Config.refs ⟨s, held⟩).pte d j = some (frame w) := by simp [hw]
  have hrefs : Config.refs ⟨(s.setWord t' j w).incMap (frame w), held⟩ =
      (Config.refs ⟨s, held⟩).setPte d' j (some (frame w)) := by
    rw [show Config.refs ⟨(s.setWord t' j w).incMap (frame w), held⟩ =
      Config.refs ⟨s.setWord t' j w, held⟩ from rfl, refs_setEntry h ht' hj,
      if_pos (State.present_of_entry hw)]
  refine h.update rfl ((h.kernel.setEntry h ht' w).setMap _ _) ?_ ?_ ?_
  · rw [hrefs]
    apply h.wf.setPte
    · intro _
      exact ⟨hj, by simp [ht']⟩
    · intro g hg
      obtain rfl : frame w = g := by simpa using hg
      exact Or.inr ⟨hlo, hhi⟩
    · intro g e hg he
      obtain rfl : frame w = g := by simpa using hg
      exact h.entry_ne_table hw e he
    · intro g hg hmem
      obtain rfl : frame w = g := by simpa using hg
      exact h.wf.held_unmapped hmem hpte
    · intro g e i hg _ hp hge
      obtain rfl : frame w = g := by simpa using hg
      obtain ⟨hm, hi'⟩ := h.wf.pte_place hp hpte hge
      exact ⟨by omega, hi'⟩
  · intro g hg hg'
    have hcount := h.counts g hg hg'
    have hle := h.count_lt hg
    have hset := Refs.count_setPte (r := Config.refs ⟨s, held⟩) hd' hj (some (frame w)) g
    have hnone : (Config.refs ⟨s, held⟩).pte d' j = none := by simp [hempty]
    rw [hnone, indicator_false (p := none = some g) (by simp), Nat.add_zero] at hset
    rw [hrefs, hset, State.incMap,
      State.memMap_setMap_page _ (h.low.trans hlo) (h.low.trans hg), State.memMap_setWord]
    simp only at hcount
    by_cases heq : g = frame w
    · subst heq
      rw [if_pos rfl, indicator_true rfl]
      omega
    · rw [if_neg heq, indicator_false (by simpa using Ne.symm heq)]
      exact hcount
  · intro g hg hout
    rw [State.incMap, State.memMap_setMap_page _ (h.low.trans hlo) hg, if_neg (by omega),
      State.memMap_setWord]

theorem Inv.shareLow (h : Inv lo hi ⟨s, held⟩) (hp : present w = true) (hlow : frame w < lowMem)
    (ht' : s.table d' = some t') (hj : j < 1024) (hempty : s.entry d' j = none) :
    Inv lo hi ⟨s.setWord t' j w, held⟩ := by
  have hd' := (State.table_iff.mp ht').1
  have hlo := h.low
  have hrefs : Config.refs ⟨s.setWord t' j w, held⟩ =
      (Config.refs ⟨s, held⟩).setPte d' j (some (frame w)) := by
    rw [refs_setEntry h ht' hj, if_pos hp]
  refine h.update rfl (h.kernel.setEntry h ht' w) ?_ ?_ (fun _ _ _ => rfl)
  · rw [hrefs]
    apply h.wf.setPte
    · intro _
      exact ⟨hj, by simp [ht']⟩
    · intro g hg
      obtain rfl : frame w = g := by simpa using hg
      exact Or.inl hlow
    · intro g e hg he
      obtain rfl : frame w = g := by simpa using hg
      have := (h.table_ge he).1
      omega
    · intro g hg hmem
      obtain rfl : frame w = g := by simpa using hg
      have := (h.held_range hmem).1
      omega
    · intro g e i hg _ _ hge
      obtain rfl : frame w = g := by simpa using hg
      unfold lowMem at hlow
      omega
  · intro g hg hg'
    have hcount := h.counts g hg hg'
    have hset := Refs.count_setPte (r := Config.refs ⟨s, held⟩) hd' hj (some (frame w)) g
    have hnone : (Config.refs ⟨s, held⟩).pte d' j = none := by simp [hempty]
    have hne : frame w ≠ g := by omega
    rw [hnone, indicator_false (p := none = some g) (by simp), Nat.add_zero,
      indicator_false (by simpa using hne), Nat.add_zero] at hset
    rw [hrefs, hset, State.memMap_setWord]
    exact hcount

/-! ### Data pages -/

/-- Writing a page that is neither a table nor one of the kernel's keeps the invariant. -/
theorem Inv.setPage (h : Inv lo hi ⟨s, held⟩) {page : ℕ} (hpage : lowMem ≤ page)
    (htable : ∀ e, s.table e ≠ some page) (content : ℕ → Word) :
    Inv lo hi ⟨s.setPage page content, held⟩ := by
  obtain ⟨h0, h1⟩ := ne_kernel_page hpage
  obtain ⟨ht, he⟩ := State.table_entry_setPage h0 htable content
  have hrefs : Config.refs ⟨s.setPage page content, held⟩ = Config.refs ⟨s, held⟩ := by
    simp only [Config.refs, State.refs, ht, he]
  refine h.update rfl (h.kernel.setPage hpage content) ?_ ?_ (fun _ _ _ => rfl)
  · rw [hrefs]
    exact h.wf
  · rw [hrefs]
    exact h.counts

theorem Inv.setByteAt (h : Inv lo hi ⟨s, held⟩) {page : ℕ} (hpage : lowMem ≤ page)
    (htable : ∀ e, s.table e ≠ some page) (offset : ℕ) (b : BitVec 8) :
    Inv lo hi ⟨s.setByteAt page offset b, held⟩ := by
  obtain ⟨h0, h1⟩ := ne_kernel_page hpage
  obtain ⟨ht, he⟩ := State.table_entry_setWord_data h0 htable (offset / 4)
    (setByte (s.mem page (offset / 4)) (offset % 4) b)
  have hrefs : Config.refs ⟨s.setByteAt page offset b, held⟩ = Config.refs ⟨s, held⟩ := by
    simp only [Config.refs, State.refs, State.setByteAt, ht, he]
  refine h.update rfl (h.kernel.setWord (.inl hpage) _) ?_ ?_ (fun _ _ _ => rfl)
  · rw [hrefs]
    exact h.wf
  · rw [hrefs]
    exact h.counts

theorem copy_effect (h : Inv lo hi ⟨s, held⟩) (hf : f ∈ held) (ht : s.table d = some t)
    (hw : s.entry d j = some w) :
    (((s.decHigh (frame w)).setWord t j (pageAddr f ||| 7#32)).copyPage (frame w) f).table =
        s.table ∧
      ∀ d' j', (((s.decHigh (frame w)).setWord t j (pageAddr f ||| 7#32)).copyPage
          (frame w) f).entry d' j' =
        if d' = d ∧ j' = j then some (pageAddr f ||| 7#32) else s.entry d' j' := by
  obtain ⟨htable, hentry⟩ := setEntry_decHigh_effect h ht (h.entry_index hw) (frame w)
    (pageAddr f ||| 7#32)
  obtain ⟨hpage, hpentry⟩ := State.table_entry_setPage
    (s := (s.decHigh (frame w)).setWord t j (pageAddr f ||| 7#32)) (h.held_ge_two hf).1
    (by rw [htable]; exact h.held_ne_table hf)
    (((s.decHigh (frame w)).setWord t j (pageAddr f ||| 7#32)).mem (frame w))
  refine ⟨hpage.trans htable, fun d' j' => ?_⟩
  rw [State.copyPage, hpentry, hentry, if_pos (present_fresh f)]

theorem Inv.copy (h : Inv lo hi ⟨s, held⟩) (hf : f ∈ held) (ht : s.table d = some t)
    (hw : s.entry d j = some w) :
    Inv lo hi ⟨((s.decHigh (frame w)).setWord t j (pageAddr f ||| 7#32)).copyPage (frame w) f,
      held.erase f⟩ := by
  have hj := h.entry_index hw
  have hd := (State.table_iff.mp ht).1
  obtain ⟨hlo, hhi⟩ := h.held_range hf
  obtain ⟨h0, h1⟩ := h.held_ge_two hf
  obtain ⟨htable, hentry⟩ := copy_effect h hf ht hw
  have hrefs : Config.refs ⟨((s.decHigh (frame w)).setWord t j (pageAddr f ||| 7#32)).copyPage
      (frame w) f, held.erase f⟩ = ((Config.refs ⟨s, held⟩).release f).setPte d j (some f) := by
    ext1
    · exact htable
    · funext d' j'
      rw [Config.refs_pte, hentry]
      simp only [Refs.setPte, Refs.release, Config.refs_pte]
      split
      · simp [h.frame_fresh hhi]
      · rfl
    · rfl
  refine h.update (by simp [State.copyPage]) (((h.kernel.decHigh _).setWord
    (.inl (h.low.trans (h.table_ge ht).1)) _).setPage (h.low.trans hlo) _) ?_ ?_ ?_
  · rw [hrefs]
    apply (h.wf.release f).setPte
    · intro _
      exact ⟨hj, by simp [Refs.release, ht]⟩
    · intro g hg
      obtain rfl : f = g := by simpa using hg
      exact Or.inr ⟨hlo, hhi⟩
    · intro g e hg he
      obtain rfl : f = g := by simpa using hg
      exact h.held_ne_table hf e he
    · intro g hg hmem
      obtain rfl : f = g := by simpa using hg
      exact Finset.notMem_erase f _ hmem
    · intro g e i hg _ hp _
      obtain rfl : f = g := by simpa using hg
      exact absurd hp (h.wf.held_unmapped hf)
  · intro g hg hg'
    have hcount := h.counts g hg hg'
    have hrelease := Refs.count_release (r := Config.refs ⟨s, held⟩) hf g
    have hset := Refs.count_setPte (r := (Config.refs ⟨s, held⟩).release f) hd hj (some f) g
    have hold : ((Config.refs ⟨s, held⟩).release f).pte d j = some (frame w) := by
      simp [Refs.release, hw]
    have hdec := h.memMap_decHigh hw (h.low.trans hg)
    rw [hold] at hset
    rw [hrefs, State.copyPage, State.memMap_setPage, State.memMap_setWord]
    simp only at hcount
    have hold_eq : indicator (some (frame w) = some g) = indicator (g = frame w) := by
      by_cases heq : g = frame w
      · rw [heq, indicator_true rfl, indicator_true rfl]
      · rw [indicator_false heq, indicator_false (by simpa using Ne.symm heq)]
    have hnew_eq : indicator (some f = some g) = indicator (g = f) := by
      by_cases heq : g = f
      · rw [heq, indicator_true rfl, indicator_true rfl]
      · rw [indicator_false heq, indicator_false (by simpa using Ne.symm heq)]
    rw [hold_eq, hnew_eq] at hset
    omega
  · intro g hg hout
    have hdec := h.memMap_decHigh hw hg
    have hne : g ≠ frame w := by
      rintro rfl
      have := h.entry_high hw hg
      omega
    rw [State.copyPage, State.memMap_setPage, State.memMap_setWord]
    rwa [indicator_false hne, Nat.add_zero] at hdec

/-- Every move keeps the reference-counting invariant. -/
theorem Move.inv {c c' : Config} (hmove : Move c c') (h : Inv lo hi c) : Inv lo hi c' := by
  cases hmove with
  | take hlow hf hzero => exact h.take hlow hf hzero
  | drop hf => exact h.drop hf
  | attach hf hd hempty hclear => exact h.attach hf hd hempty hclear
  | detach ht hempty => exact h.detach ht hempty
  | map hf ht hj hempty => exact h.map hf ht hj hempty
  | unmap ht hw => exact h.unmap ht hw
  | clear ht hj hempty => exact h.reflag ht hj (by simp [hempty])
  | protect ht hw =>
    exact h.reflag ht (h.entry_index hw) (by simp [hw, State.present_of_entry hw])
  | share hw _ hhigh ht' hempty hmod => exact h.share hw hhigh ht' hempty hmod
  | shareLow hp _ hlow ht' hj hempty => exact h.shareLow hp hlow ht' hj hempty
  | unprotect ht hw _ _ =>
    exact h.reflag ht (h.entry_index hw) (by simp [hw, State.present_of_entry hw])
  | copy hf ht hw => exact h.copy hf ht hw
  | fill hf content =>
    exact h.setPage (h.low.trans (h.held_range hf).1) (h.held_ne_table hf) content
  | @store s held d j t offset w ht hw hhigh b =>
    have hflag := h.reflag (v := w ||| 0x60#32) ht (h.entry_index hw)
      (by simp [hw, State.present_of_entry hw])
    obtain ⟨htable, _⟩ := setEntry_effect h ht (h.entry_index hw) (w ||| 0x60#32)
    exact hflag.setByteAt hhigh (by rw [htable]; exact h.entry_ne_table hw) _ b

/-- Sequences of moves keep the reference-counting invariant. -/
theorem Moves.inv {c c' : Config} (hmoves : Moves c c') (h : Inv lo hi c) : Inv lo hi c' := by
  induction hmoves with
  | refl => exact h
  | tail _ hmove ih => exact hmove.inv ih

end LihaLinux.Mm
