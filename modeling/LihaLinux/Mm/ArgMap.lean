import LihaLinux.Mm.ArgPages
import LihaLinux.Mm.KernelStores

/-!
# The argument pages in the new address space

`do_execve` frees the old memory of the task, and `change_ldt` maps the argument pages at the end of
the data segment. After this the task has only pages of its own, and there are free pages for the
tables that `create_tables` writes below the arguments.
-/

namespace LihaLinux.Mm

variable {files : ℕ → Executable} {lo hi n slot : ℕ} {k : Kernel} {held : Finset ℕ} {s s' : State}
  {q : Task} {c : ArgCopy} {enough : Prop}

/-- The number of pages at the end of the data segment that arguments and tables may need. -/
def stackPages : ℕ := 164

/-- The directory entry of the end of the data segment. -/
def stackDir (slot : ℕ) : ℕ := 16 * slot + 15

/-- The pages at the end of the data segment that are missing. -/
def State.stackMissing (s : State) (slot : ℕ) : ℕ :=
  ((Finset.Ico (1024 - stackPages) 1024).filter fun j => s.entry (stackDir slot) j = none).card

/-- The page table of the end of the data segment, if it is missing. -/
def State.stackTable (s : State) (slot : ℕ) : ℕ := if s.table (stackDir slot) = none then 1 else 0

/-- What a task sees of its own memory. -/
def State.userView (s : State) (slot off : ℕ) : Option (BitVec 8) := s.view (slotBase slot + off)

/-- The memory of a task that has only pages of its own. If there is enough memory, there are free
pages for the end of its data segment. -/
structure Owned (enough : Prop) (lo hi slot : ℕ) (held : Finset ℕ) (s : State) : Prop where
  inv : Inv lo hi ⟨s, held⟩
  isolated : s.Private
  writable : ∀ off < dataLimit, ∀ w, s.pageOf (slotBase slot + off) = some w → writable w = true
  free : enough → s.Free (s.stackMissing slot + s.stackTable slot)

/-- The end of the data segment. -/
def InStack (off : ℕ) : Prop := dataLimit - stackPages * 4096 ≤ off ∧ off < dataLimit

theorem InStack.mono {off off' : ℕ} (h : InStack off) (hle : off ≤ off') (hlt : off' < dataLimit) :
    InStack off' := ⟨h.1.trans hle, hlt⟩

theorem InStack.place (hslot : slot < 64) {off : ℕ} (h : InStack off) :
    dirIndex (slotBase slot + off) = stackDir slot ∧
      tableIndex (slotBase slot + off) ∈ Finset.Ico (1024 - stackPages) 1024 := by
  obtain ⟨hlo, hhi⟩ := h
  simp only [dataLimit, stackPages] at *
  rw [dirIndex_eq, tableIndex_eq, stackDir, Finset.mem_Ico, slotBase]
  omega

/-- Pages of one segment that are different have different entries. -/
theorem page_ne {off off' : ℕ} (hoff : off < dataLimit)
    (hoff' : off' < dataLimit) (hne : off / 4096 ≠ off' / 4096) :
    ¬(dirIndex (slotBase slot + off') = dirIndex (slotBase slot + off) ∧
      tableIndex (slotBase slot + off') = tableIndex (slotBase slot + off)) := by
  rintro ⟨hdir, htab⟩
  rw [dirIndex_eq, dirIndex_eq] at hdir
  rw [tableIndex_eq, tableIndex_eq] at htab
  simp only [dataLimit, slotBase] at *
  omega

theorem tableNeed_eq {address : ℕ} (ha : UserAddress address) :
    s.tableNeed address = if s.table (dirIndex address) = none then 1 else 0 := by
  rw [State.tableNeed]
  by_cases hp : present (s.mem 0 (dirIndex address)) = true
  · rw [if_pos hp, State.table_eq_some ha.mem_taskDirs hp, if_neg (Option.some_ne_none _)]
  · rw [if_neg hp, if_pos (State.table_eq_none (by simpa using hp))]

theorem InStack.tableNeed (hslot : 1 ≤ slot ∧ slot < 64) {off : ℕ} (h : InStack off) :
    s.tableNeed (slotBase slot + off) = s.stackTable slot := by
  have hin : InSlot slot (slotBase slot + off) := inSlot_add h.2
  rw [tableNeed_eq (hin.user hslot.1 hslot.2), (h.place hslot.2).1, State.stackTable]

/-- A new page at the end of the data segment is one that is not missing any more. -/
theorem stackMissing_rewrites (hslot : slot < 64) {off f : ℕ} (h : InStack off)
    (hempty : s.pageOf (slotBase slot + off) = none)
    (hrew : Rewrites (dirIndex (slotBase slot + off)) (tableIndex (slotBase slot + off))
      (some (pageAddr f ||| 7#32)) s s') :
    s'.stackMissing slot + 1 = s.stackMissing slot ∧ s'.stackTable slot = 0 := by
  obtain ⟨hdir, htab⟩ := h.place hslot
  rw [State.pageOf] at hempty
  rw [hdir] at hempty hrew
  have hmem : tableIndex (slotBase slot + off) ∈ (Finset.Ico (1024 - stackPages) 1024).filter
      fun j => s.entry (stackDir slot) j = none := Finset.mem_filter.mpr ⟨htab, hempty⟩
  have herase : ((Finset.Ico (1024 - stackPages) 1024).filter
      fun j => s'.entry (stackDir slot) j = none) =
        ((Finset.Ico (1024 - stackPages) 1024).filter
          fun j => s.entry (stackDir slot) j = none).erase (tableIndex (slotBase slot + off)) := by
    ext j
    rw [Finset.mem_erase, Finset.mem_filter, Finset.mem_filter, hrew.entry]
    by_cases hj : j = tableIndex (slotBase slot + off)
    · rw [if_pos ⟨rfl, hj⟩]
      simp [hj]
    · rw [if_neg fun he => hj he.2]
      simp [hj]
  refine ⟨?_, ?_⟩
  · rw [State.stackMissing, State.stackMissing, herase, Finset.card_erase_of_mem hmem]
    have := Finset.card_pos.mpr ⟨_, hmem⟩
    omega
  · rw [State.stackTable, if_neg]
    intro hnone
    have hself := hrew.self
    rw [State.entry_of_table_none hnone] at hself
    cases hself

/-- The entries of a task with pages of its own do not map the page directory. -/
theorem Owned.frame_ne_zero (h : Owned enough lo hi slot held s) {off : ℕ} (hoff : off < dataLimit)
    {w : Word} (hw : s.pageOf (slotBase slot + off) = some w) : frame w ≠ 0 :=
  (ne_kernel_page (h.isolated _ _ w hw (h.writable off hoff w hw)).1).1

/-- A new page is put where there was none. -/
theorem Owned.rewrites (h : Owned enough lo hi slot held s) {off f : ℕ}
    (hoff : off < dataLimit) {held' : Finset ℕ} (hmoves : Moves ⟨s, held⟩ ⟨s', held'⟩)
    (hrew : Rewrites (dirIndex (slotBase slot + off)) (tableIndex (slotBase slot + off))
      (some (pageAddr f ||| 7#32)) s s')
    (hfree : enough → s'.Free (s'.stackMissing slot + s'.stackTable slot)) :
    Owned enough lo hi slot held' s' ∧
      ∀ off' < dataLimit, off' / 4096 ≠ off / 4096 →
        s'.userView slot off' = s.userView slot off' := by
  refine ⟨⟨Moves.inv hmoves h.inv, Moves.private hmoves h.inv h.isolated, fun off' hoff' w hw => ?_,
    hfree⟩, fun off' hoff' hne => ?_⟩
  · rw [State.pageOf, hrew.entry] at hw
    split at hw
    · obtain rfl := Option.some.inj hw
      exact writable_fresh f
    · exact h.writable off' hoff' w hw
  · exact hrew.view (page_ne hoff hoff' hne.symm)
      (Or.inr fun w hw => h.frame_ne_zero hoff' hw)

/-! ### Freeing the old memory -/

/-- The pages of the kernel keep their contents when a slot is freed. -/
theorem freeSlot_held (h : Inv lo hi ⟨s, held⟩) (hslot : 1 ≤ slot ∧ slot < 64)
    (hsound : q.Sound files slot) (hrun : freeSlot s slot q = .ok () s') {g : ℕ} (hg : g ∈ held) :
    s'.mem g = s.mem g := by
  obtain ⟨s₁, hrun₁, hmoves₁, hdata₁, -, -⟩ :=
    freePageTables_spec h hslot.1 hslot.2 (hsound.code_le.trans hsound.limit_le)
  have h₁ := Moves.inv hmoves₁ h
  obtain ⟨s₂, hrun₂, -, hdata₂, -, -⟩ :=
    freePageTables_spec h₁ hslot.1 hslot.2 hsound.limit_le
  rw [freeSlot, Result.bind_of_ok hrun₁, hrun₂] at hrun
  obtain rfl := (Result.ok.inj hrun).2
  rw [hdata₂ g (h.held_ge_two hg).1 (h₁.held_ne_table hg),
    hdata₁ g (h.held_ge_two hg).1 (h.held_ne_table hg)]

/-- After the old memory is freed the task has no pages, and there are free pages for the end of the
data segment. -/
theorem Copying.freeSlot (h : Copying enough lo hi (stackPages + 1) k held c)
    (hk : TaskInv files lo hi k) (hslot : 1 ≤ slot ∧ slot < 64) (htask : k.task slot = some q) :
    ∃ s', freeSlot c.mm slot q = .ok () s' ∧ Owned enough lo hi slot held s' ∧
      (∀ off < dataLimit, s'.pageOf (slotBase slot + off) = none) ∧
      ∀ g ∈ held, s'.mem g = c.mm.mem g := by
  have hk' : TaskInv files lo hi { k with mm := c.mm, held } :=
    hk.untouched h.inv h.isolated
      (fun slot a page hload => h.held_subset (hk.held_of_loading slot a page hload)) h.same
  obtain ⟨s', hrun, hmoves, -, htable, hentry⟩ := freeSlot_spec hk' hslot.1 hslot.2 htask
  have hinv' := Moves.inv hmoves h.inv
  have habsent : ∀ off < dataLimit, s'.pageOf (slotBase slot + off) = none := by
    intro off hoff
    rw [State.pageOf, hentry, if_pos ((inSlot_add hoff).dir_div hslot.2)]
  have hdir : stackDir slot / 16 = slot := by
    rw [stackDir]
    omega
  refine ⟨s', hrun, ⟨hinv', Moves.private hmoves h.inv h.isolated, fun off hoff w hw => ?_, ?_⟩,
    habsent, fun g hg => freeSlot_held h.inv hslot (hk.tasks slot q htask) hrun hg⟩
  · rw [habsent off hoff] at hw
    cases hw
  · have hcard : s'.stackMissing slot ≤ stackPages := by
      have hle := Finset.card_filter_le (Finset.Ico (1024 - stackPages) 1024)
        fun j => s'.entry (stackDir slot) j = none
      rw [Nat.card_Ico] at hle
      exact hle
    have hone : s'.stackTable slot ≤ 1 := by
      rw [State.stackTable]
      split <;> omega
    intro henough
    refine ((h.free henough).of_refs h.inv hinv' (fun d t ht => ?_) fun d j w hw => ?_).mono
      (by omega)
    · rw [htable] at ht
      split at ht
      · cases ht
      · exact ht
    · rw [hentry] at hw
      split at hw
      · cases hw
      · exact hw

/-! ### Mapping the argument pages -/

theorem argBase_add : argBase + 4096 * maxArgPages = dataLimit := rfl

theorem maxArgPages_eq : maxArgPages = 32 := rfl

theorem dataLimit_eq : dataLimit = 0x4000000 := rfl

/-- The argument pages from `i` on are mapped, those below are not. -/
structure ArgsMapped (enough : Prop) (lo hi slot i : ℕ) (c : ArgCopy) (held : Finset ℕ)
    (s : State) : Prop where
  owned : Owned enough lo hi slot held s
  absent : ∀ off < argBase + 4096 * i, s.pageOf (slotBase slot + off) = none
  waiting : ∀ j < i, ∀ f, c.page j = some f → f ∈ held ∧ s.mem f = c.mm.mem f
  mapped : ∀ p b, 4096 * i ≤ p → p < 4096 * maxArgPages → c.byteAt p = some b →
    s.userView slot (argBase + p) = some b

theorem inStack_argBase {p : ℕ} (hp : p < 4096 * maxArgPages) : InStack (argBase + p) := by
  have hbase := argBase_add
  have hpages : maxArgPages * 4096 ≤ stackPages * 4096 := by decide
  unfold InStack
  omega

/-- There is no free page, and no page table for the end of the data segment. -/
structure State.Exhausted (slot : ℕ) (s : State) : Prop where
  table : present (s.mem 0 (stackDir slot)) = false
  free : getFreePage s = none

/-- The next page of the arguments is put into its place. -/
def putArgPage (slot : ℕ) (c : ArgCopy) (i : ℕ) (s : State) : State :=
  ((c.page i).map fun f => (putPage s f (slotBase slot + (argBase + 4096 * i))).2).getD s

/-- Without a page for the page table, `put_page` does nothing. -/
theorem State.Exhausted.putPage (h : s.Exhausted slot) (hslot : slot < 64) {off : ℕ}
    (hoff : InStack off) (f : ℕ) : Mm.putPage s f (slotBase slot + off) = (0, s) := by
  rw [Mm.putPage, (hoff.place hslot).1, if_neg (by rw [h.table]; decide), h.free]

/-- One page is mapped, or there is no memory left. -/
theorem ArgsMapped.put {i : ℕ} (h : ArgsMapped enough lo hi slot (i + 1) c held s)
    (hslot : 1 ≤ slot ∧ slot < 64) (hlast : i < maxArgPages)
    (hinj : ∀ i j f, c.page i = some f → c.page j = some f → i = j) :
    (∃ held', ArgsMapped enough lo hi slot i c held' (putArgPage slot c i s)) ∨
      ¬enough ∧ (putArgPage slot c i s).Exhausted slot := by
  unfold putArgPage
  have hadd := argBase_add
  have hpages := maxArgPages_eq
  have hlimit := dataLimit_eq
  have hstack : InStack (argBase + 4096 * i) := inStack_argBase (by omega)
  have hin : InSlot slot (slotBase slot + (argBase + 4096 * i)) := inSlot_add hstack.2
  cases hpage : c.page i with
  | none =>
    refine Or.inl ⟨held, h.owned, fun off hoff => h.absent off (by omega),
      fun j hj => h.waiting j (by omega), fun p b hle hlt hb => ?_⟩
    refine h.mapped p b ?_ hlt hb
    by_contra hp
    have hdiv : p / 4096 = i := by omega
    rw [ArgCopy.byteAt, hdiv, hpage] at hb
    cases hb
  | some f =>
    obtain ⟨hf, hmem⟩ := h.waiting i (by omega) f hpage
    have hempty := h.absent (argBase + 4096 * i) (by omega)
    have hneed := hstack.tableNeed (s := s) hslot
    have huser := hin.user hslot.1 hslot.2
    rcases putPage_spec h.owned.inv hf huser hempty with
      ⟨hfail, hget⟩ | ⟨s', hput, hmoves, hrew, hheld⟩
    · -- the page table is missing, and there is no page for it
      have hzero := (h.owned.inv.held_ge_two hf).1
      have htable : present (s.mem 0 (stackDir slot)) = false := by
        rw [← (hstack.place hslot.2).1]
        by_contra hp
        rw [putPage, if_pos (by simpa using hp)] at hfail
        exact hzero (Prod.mk.inj hfail).1
      refine Or.inr ⟨fun henough => ?_, ?_⟩
      · obtain ⟨s', hok, -⟩ := putPage_ok h.owned.inv hf huser hempty
          (by rw [hneed]; exact h.owned.free henough)
        rw [hfail] at hok
        exact hzero (Prod.mk.inj hok).1.symm
      · rw [Option.map_some, Option.getD_some, hfail]
        exact ⟨htable, hget⟩
    left
    have hfree : enough → s'.Free (s.stackMissing slot) := by
      intro henough
      obtain ⟨s'', hok, -, -, -, hfree⟩ := putPage_ok h.owned.inv hf huser hempty
        (by rw [hneed]; exact h.owned.free henough)
      rw [hput] at hok
      rw [(Prod.mk.inj hok).2]
      exact hfree
    obtain ⟨hmissing, htable⟩ := stackMissing_rewrites hslot.2 hstack hempty hrew
    obtain ⟨howned, hviews⟩ := h.owned.rewrites hstack.2 hmoves hrew
      (fun henough => (hfree henough).mono (by omega))
    have hframe : frame (pageAddr f ||| 7#32) = f :=
      h.owned.inv.frame_fresh (h.owned.inv.held_range hf).2
    refine ⟨held.erase f, ?_⟩
    rw [Option.map_some, Option.getD_some, hput]
    refine ⟨howned, fun off hoff => ?_, fun j hj g hg => ?_, fun p b hle hlt hb => ?_⟩
    · have hofflt : off < dataLimit := by
        have := hstack.2
        omega
      rw [State.pageOf, hrew.entry, if_neg]
      · exact h.absent off (by omega)
      · exact page_ne hstack.2 hofflt (by omega)
    · obtain ⟨hgheld, hgmem⟩ := h.waiting j (by omega) g hg
      have hgf : g ≠ f := by
        rintro rfl
        have := hinj j i g hg hpage
        omega
      exact ⟨Finset.mem_erase.mpr ⟨hgf, hgheld⟩, (hheld g hgheld).trans hgmem⟩
    · have hplt : argBase + p < dataLimit := (inStack_argBase hlt).2
      by_cases hp : p / 4096 = i
      · have hpageOf : s'.pageOf (slotBase slot + (argBase + p)) = some (pageAddr f ||| 7#32) := by
          rw [State.pageOf, hrew.entry, if_pos]
          rw [dirIndex_eq, dirIndex_eq, tableIndex_eq, tableIndex_eq, slotBase]
          omega
        rw [ArgCopy.byteAt, hp, hpage, Option.map_some, Option.some.injEq] at hb
        rw [State.userView, State.view, hpageOf, Option.map_some, hframe, ← hb]
        have hmod : (slotBase slot + (argBase + p)) % 4096 = p % 4096 := by
          rw [slotBase]
          omega
        rw [hmod, State.byte, State.byte, hheld f hf, hmem]
      · rw [hviews (argBase + p) hplt (by omega)]
        exact h.mapped p b (by omega) hlt hb

/-- Nothing changes without memory. -/
theorem State.Exhausted.putArgPages {i : ℕ} (h : s.Exhausted slot) (hslot : slot < 64)
    (hlast : i ≤ maxArgPages) :
    Mm.putArgPages c.page i (slotBase slot + (argBase + 4096 * i)) s = s := by
  have hadd := argBase_add
  induction i with
  | zero => rfl
  | succ i ih =>
    have hsub : slotBase slot + (argBase + 4096 * (i + 1)) - 4096 =
        slotBase slot + (argBase + 4096 * i) := by omega
    rw [Mm.putArgPages, hsub]
    cases c.page i with
    | none => exact ih (by omega)
    | some f =>
      rw [Option.map_some, Option.getD_some, h.putPage hslot (inStack_argBase (by omega))]
      exact ih (by omega)

/-- The loop of `change_ldt`. -/
theorem ArgsMapped.putArgPages {i : ℕ} (h : ArgsMapped enough lo hi slot i c held s)
    (hslot : 1 ≤ slot ∧ slot < 64) (hlast : i ≤ maxArgPages)
    (hinj : ∀ i j f, c.page i = some f → c.page j = some f → i = j) :
    (∃ held', ArgsMapped enough lo hi slot 0 c held'
      (putArgPages c.page i (slotBase slot + (argBase + 4096 * i)) s)) ∨
    ¬enough ∧ (putArgPages c.page i (slotBase slot + (argBase + 4096 * i)) s).Exhausted slot := by
  induction i generalizing s held with
  | zero => exact Or.inl ⟨held, h⟩
  | succ i ih =>
    have hsub : slotBase slot + (argBase + 4096 * (i + 1)) - 4096 =
        slotBase slot + (argBase + 4096 * i) := by omega
    rw [Mm.putArgPages, hsub, ← putArgPage]
    rcases h.put hslot (by omega) hinj with ⟨held', h'⟩ | ⟨hnot, hexhausted⟩
    · exact ih h' (by omega)
    · rw [hexhausted.putArgPages hslot.2 (by omega)]
      exact Or.inr ⟨hnot, hexhausted⟩

/-- `change_ldt` maps what lies in the argument pages at the end of the data segment, unless there
is no memory for the page table. -/
theorem Copying.changeLdt (h : Copying enough lo hi (stackPages + 1) k held c)
    (hslot : 1 ≤ slot ∧ slot < 64) (howned : Owned enough lo hi slot held s)
    (habsent : ∀ off < dataLimit, s.pageOf (slotBase slot + off) = none)
    (hmem : ∀ g ∈ held, s.mem g = c.mm.mem g) :
    (∃ held', Owned enough lo hi slot held' (changeLdt slot c.page s) ∧
      ∀ p b, p < 4096 * maxArgPages → c.byteAt p = some b →
        (changeLdt slot c.page s).userView slot (argBase + p) = some b) ∨
    ¬enough ∧ (changeLdt slot c.page s).Exhausted slot := by
  have hlimit : argBase + 4096 * maxArgPages = dataLimit := rfl
  have hstart : ArgsMapped enough lo hi slot maxArgPages c held s := by
    refine ⟨howned, fun off hoff => habsent off (by omega), fun j _ f hf => ?_,
      fun p b hle hlt => absurd hle (by omega)⟩
    exact ⟨h.mem_held j f hf, hmem f (h.mem_held j f hf)⟩
  have hmapped := hstart.putArgPages hslot le_rfl h.inj
  rw [hlimit] at hmapped
  rcases hmapped with ⟨held', hmapped⟩ | hexhausted
  · exact Or.inl ⟨held', hmapped.owned, fun p b hlt hb => hmapped.mapped p b (Nat.zero_le _) hlt hb⟩
  · exact Or.inr hexhausted

end LihaLinux.Mm
