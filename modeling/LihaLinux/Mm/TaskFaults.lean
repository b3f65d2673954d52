import LihaLinux.Mm.Tasks

/-!
# What the page-fault handlers of a task do

For each of `share_page`, the two halves of `do_no_page` and `verify_area`: the
outcomes, the entry that is written, and the pages that stay as they are.
-/

namespace LihaLinux.Mm

variable {lo hi : ℕ} {s : State} {held : Finset ℕ} {d d' j t t' f : ℕ} {w : Word}

/-- Linear addresses of a slot. -/
def InSlot (slot address : ℕ) : Prop :=
  slotBase slot ≤ address ∧ address < slotBase slot + 0x4000000
  deriving Decidable

theorem InSlot.user {slot address : ℕ} (h : InSlot slot address) (hpos : 1 ≤ slot)
    (hlt : slot < 64) : UserAddress address := by
  obtain ⟨hlow, hhigh⟩ := h
  unfold slotBase at hlow hhigh
  exact ⟨by omega, by omega⟩

theorem InSlot.dir_div {slot address : ℕ} (h : InSlot slot address) (hlt : slot < 64) :
    dirIndex address / 16 = slot := by
  obtain ⟨hlow, hhigh⟩ := h
  unfold slotBase at hlow hhigh
  rw [dirIndex_eq]
  omega

/-- The address of the page of a linear address, and the same page. -/
theorem InSlot.page {slot address : ℕ} (h : InSlot slot address) :
    InSlot slot (address - address % 4096) ∧
      dirIndex (address - address % 4096) = dirIndex address ∧
      tableIndex (address - address % 4096) = tableIndex address := by
  obtain ⟨hlow, hhigh⟩ := h
  refine ⟨?_, ?_, ?_⟩
  · unfold InSlot
    unfold slotBase at *
    omega
  · rw [dirIndex_eq, dirIndex_eq]
    omega
  · rw [tableIndex_eq, tableIndex_eq]
    omega

theorem InSlot.pageOf {slot address : ℕ} (h : InSlot slot address) :
    s.pageOf (address - address % 4096) = s.pageOf address := by
  rw [State.pageOf, State.pageOf, h.page.2.1, h.page.2.2]

theorem Rewrites.of_same {v : Option Word} {s s₁ s' : State} (hentry : s₁.entry = s.entry)
    (htable : s₁.table = s.table) (hdata : ∀ g, s.Mapped g → s₁.mem g = s.mem g)
    (hdir : s₁.mem 0 = s.mem 0) (h : Rewrites d j v s₁ s') : Rewrites d j v s s' where
  entry := by
    intro e i
    rw [h.entry, hentry]
  table := by
    intro e he
    rw [h.table e he, htable]
  data := by
    rintro g hg ⟨e, i, w, hw, hframe⟩
    rw [h.data g hg ⟨e, i, w, by rw [hentry]; exact hw, hframe⟩, hdata g ⟨e, i, w, hw, hframe⟩]
  dir := by
    intro hsome
    rw [h.dir (by rw [htable]; exact hsome), hdir]

/-! ### Sharing a page -/

/-- A clean page at `(d, j)` is mapped at `(d', j)` too, read-only at both places. -/
structure Shares (d d' j : ℕ) (w : Word) (s s' : State) : Prop where
  source : s.entry d j = some w
  clean : dirty w = false
  high : lowMem ≤ frame w
  entry : ∀ e i, s'.entry e i =
    if (e = d ∨ e = d') ∧ i = j then some (writeProtect w) else s.entry e i
  table : ∀ e, e ≠ d' → s'.table e = s.table e
  data : ∀ g, g ≠ 0 → s.Mapped g → s'.mem g = s.mem g

/-- `try_to_share` between two slots. -/
theorem tryToShare_slots (h : Inv lo hi ⟨s, held⟩) {address slot current : ℕ} (hslot : 1 ≤ slot)
    (hslot' : slot < 64) (hcur : 1 ≤ current) (hcur' : current < 64) (ha : address < 0x4000000)
    (hempty : s.pageOf (slotBase current + address) = none) :
    tryToShare s address (slotBase slot) (slotBase current) = .ok false s ∨
    tryToShare s address (slotBase slot) (slotBase current) = .oom s ∨
    ∃ s' w, tryToShare s address (slotBase slot) (slotBase current) = .ok true s' ∧
      Moves ⟨s, held⟩ ⟨s', held⟩ ∧
      Shares (dirIndex (slotBase slot + address)) (dirIndex (slotBase current + address))
        (tableIndex address) w s s' := by
  have hdir := dirIndex_slot_add current ha
  have hdir' := dirIndex_slot_add slot ha
  have hlt : dirIndex address < 16 := by
    rw [dirIndex_eq]
    omega
  rw [State.pageOf, hdir.1, hdir.2] at hempty
  have hbase := dirIndex_slotBase hslot'
  have hbase' := dirIndex_slotBase hcur'
  have hfrom : dirIndex address + dirIndex (slotBase slot) ∈ taskDirs :=
    mem_taskDirs.mpr ⟨by omega, by omega⟩
  have hto : dirIndex address + dirIndex (slotBase current) ∈ taskDirs :=
    mem_taskDirs.mpr ⟨by omega, by omega⟩
  rw [hdir.1, hdir'.1]
  rcases tryToShare_spec h hfrom hto (by omega) hempty with hno | ⟨hoom, _⟩ |
    ⟨s', w, hok, hmoves, hw, hclean, hhigh, hentry, htable, hdata⟩
  · exact .inl hno
  · exact .inr (.inl hoom)
  · exact .inr (.inr ⟨s', w, hok, hmoves, hw, hclean, hhigh, hentry, htable, hdata⟩)

section Share

variable {task : ℕ → Option Task} {current executable address : ℕ}

/-- Some other task has a clean page of the executable that can be shared. -/
def CanShare (task : ℕ → Option Task) (current executable address : ℕ) (s : State) : Prop :=
  ∃ p t w, 1 ≤ p ∧ p < 64 ∧ p ≠ current ∧ task p = some t ∧ t.executable = some executable ∧
    s.pageOf (slotBase p + address) = some w ∧ dirty w = false ∧ lowMem ≤ frame w

theorem shareLoop_spec (h : Inv lo hi ⟨s, held⟩) (hcur : 1 ≤ current) (hcur' : current < 64)
    (ha : address < 0x4000000) (hempty : s.pageOf (slotBase current + address) = none) {n : ℕ}
    (hn : n < 64) :
    shareLoop task current executable address n s = .ok false s ∨
    shareLoop task current executable address n s = .oom s ∨
    ∃ s' p q w, shareLoop task current executable address n s = .ok true s' ∧
      Moves ⟨s, held⟩ ⟨s', held⟩ ∧ 1 ≤ p ∧ p < 64 ∧ p ≠ current ∧ task p = some q ∧
      q.executable = some executable ∧
      Shares (dirIndex (slotBase p + address)) (dirIndex (slotBase current + address))
        (tableIndex address) w s s' := by
  induction n with
  | zero => exact .inl rfl
  | succ n ih =>
    have hrest := ih (by omega)
    rw [shareLoop]
    cases htask : task (n + 1) with
    | none => exact hrest
    | some q =>
      by_cases hself : current = n + 1
      · simp only [if_pos hself]
        exact hrest
      by_cases hexe : q.executable = some executable
      swap
      · simp only [if_neg hself, if_pos hexe]
        exact hrest
      simp only [if_neg hself, hexe, ne_eq, not_true_eq_false, if_false]
      rcases tryToShare_slots h (by omega : 1 ≤ n + 1) hn hcur hcur' ha hempty with hno | hoom |
        ⟨s', w, hok, hmoves, hshares⟩
      · rw [Result.bind_of_ok hno]
        exact hrest
      · rw [Result.bind_of_oom hoom]
        exact .inr (.inl rfl)
      · rw [Result.bind_of_ok hok]
        exact .inr (.inr ⟨s', n + 1, q, w, rfl, hmoves, by omega, hn, Ne.symm hself, htask, hexe,
          hshares⟩)

end Share

/-! ### `do_no_page` -/

/-- The byte of an executable's image: the file after its header, zero from the
end of the data on. -/
def imageByte (file : Executable) (endData offset : ℕ) : BitVec 8 :=
  if offset < endData then file.byte (1024 + offset) else 0

/-- A missing page that `do_no_page` would try to share. -/
def Shareable (k : Kernel) (current address : ℕ) (s : State) : Prop :=
  ∃ t e, k.task current = some t ∧ t.executable = some e ∧
    address - address % 4096 - slotBase current < t.endData ∧ 2 ≤ k.iCount e ∧
    CanShare k.task current e (address - address % 4096 - slotBase current) s

/-- The page tables and all mapped pages are as before. -/
structure Untouched (s s' : State) : Prop where
  entry : s'.entry = s.entry
  table : s'.table = s.table
  data : ∀ g, s.Mapped g → s'.mem g = s.mem g

theorem Untouched.refl (s : State) : Untouched s s := ⟨rfl, rfl, fun _ _ => rfl⟩

section NoPage

variable {k : Kernel} {current address : ℕ} {q : Task}

/-- The outcomes of the first half of `do_no_page`. -/
inductive NoPageOutcome (lo hi : ℕ) (k : Kernel) (q : Task) (current address : ℕ)
    (held : Finset ℕ) (s : State) : Result (Option ℕ) → Prop
  | killed {s' : State} (hmoves : Moves ⟨s, held⟩ ⟨s', held⟩) (hsame : Untouched s s') :
      NoPageOutcome lo hi k q current address held s (.oom s')
  | empty {s' : State} {f : ℕ}
      (hout : q.executable = none ∨ q.endData ≤ address - address % 4096 - slotBase current)
      (hmoves : Moves ⟨s, held⟩ ⟨s', held⟩)
      (hrew : Rewrites (dirIndex address) (tableIndex address) (some (pageAddr f ||| 7#32)) s s')
      (hfree : ¬s.Mapped f) (hlo : lo ≤ f) (hhi : f < hi) :
      NoPageOutcome lo hi k q current address held s (.ok none s')
  | shared {s' : State} {p e : ℕ} {q' : Task} {w : Word}
      (hin : address - address % 4096 - slotBase current < q.endData)
      (hexe : q.executable = some e) (hcount : 2 ≤ k.iCount e)
      (hmoves : Moves ⟨s, held⟩ ⟨s', held⟩) (hp : 1 ≤ p) (hp' : p < 64) (hne : p ≠ current)
      (htask : k.task p = some q') (hexe' : q'.executable = some e)
      (hshares : Shares (dirIndex (slotBase p + (address - address % 4096 - slotBase current)))
        (dirIndex address) (tableIndex address) w s s') :
      NoPageOutcome lo hi k q current address held s (.ok none s')
  | load {s' : State} {page e : ℕ}
      (hin : address - address % 4096 - slotBase current < q.endData)
      (hexe : q.executable = some e) (hget : getFreePage s = some (page, s')) :
      NoPageOutcome lo hi k q current address held s (.ok (some page) s')

/-- The first half of `do_no_page` at an address that is not present. -/
theorem noPageBegin_spec (h : Inv lo hi ⟨s, held⟩) (hcur : 1 ≤ current) (hcur' : current < 64)
    (ha : InSlot current address) (htask : k.task current = some q)
    (hempty : s.pageOf address = none) :
    NoPageOutcome lo hi k q current address held s (noPageBegin k current address s) := by
  obtain ⟨hslot, hdir, htab⟩ := ha.page
  have hempty' := ha.pageOf.trans hempty
  have hoff : address - address % 4096 - slotBase current < 0x4000000 := by
    obtain ⟨_, hlt⟩ := hslot
    omega
  have hsum : slotBase current + (address - address % 4096 - slotBase current) =
      address - address % 4096 := Nat.add_sub_cancel' hslot.1
  by_cases hout : q.executable = none ∨ q.endData ≤ address - address % 4096 - slotBase current
  · simp only [noPageBegin, htask]
    rw [if_pos hout]
    rcases getEmptyPage_spec h (hslot.user hcur hcur') hempty' with
      ⟨s', hoom, hmoves, hentry, htable, hdata⟩ | ⟨s', f, hok, hmoves, hrew, hfree, hlo, hhi⟩
    · rw [Result.bind_of_oom hoom]
      exact .killed hmoves ⟨hentry, htable, hdata⟩
    · rw [Result.bind_of_ok hok]
      rw [hdir, htab] at hrew
      exact .empty hout hmoves hrew hfree hlo hhi
  · obtain ⟨hexe, hin⟩ := not_or.mp hout
    obtain ⟨e, hexe⟩ := Option.ne_none_iff_exists'.mp hexe
    replace hin : address - address % 4096 - slotBase current < q.endData := by omega
    -- a page that is not shared is loaded
    have hload : sharePage k current (address - address % 4096 - slotBase current) s = .ok false s →
        NoPageOutcome lo hi k q current address held s (noPageBegin k current address s) := by
      intro hno
      simp only [noPageBegin, htask]
      rw [if_neg hout, Result.bind_of_ok hno]
      simp only [Bool.false_eq_true, if_false]
      cases hget : getFreePage s with
      | none => exact .killed .refl (.refl s)
      | some res => exact .load hin hexe hget
    have hshare : sharePage k current (address - address % 4096 - slotBase current) s =
        if k.iCount e < 2 then .ok false s else shareLoop k.task current e
          (address - address % 4096 - slotBase current) 63 s := by
      simp only [sharePage, htask, Option.bind_some, hexe]
    by_cases hcount : k.iCount e < 2
    · exact hload (by rw [hshare, if_pos hcount])
    · rw [if_neg hcount] at hshare
      rcases shareLoop_spec h hcur hcur' hoff (by rw [hsum]; exact hempty') (by omega : 63 < 64)
        with hno | hoom | ⟨s', p, q', w, hok, hmoves, hp, hp', hne, htask', hexe', hshares⟩
      · exact hload (by rw [hshare, hno])
      · simp only [noPageBegin, htask]
        rw [if_neg hout, Result.bind_of_oom (by rw [hshare, hoom])]
        exact .killed .refl (.refl s)
      · simp only [noPageBegin, htask]
        rw [if_neg hout, Result.bind_of_ok (by rw [hshare, hok])]
        have htab' : tableIndex (address - address % 4096 - slotBase current) =
            tableIndex address := by
          rw [← htab, ← (dirIndex_slot_add current hoff).2, hsum]
        rw [hsum, hdir, htab'] at hshares
        exact .shared hin hexe (by omega) hmoves hp hp' hne htask' hexe' hshares

theorem State.setByteAt_eq_setPage (s : State) (page offset : ℕ) (b : BitVec 8) :
    s.setByteAt page offset b = s.setPage page ((s.setByteAt page offset b).mem page) := by
  unfold State.setByteAt State.setPage State.setWord
  congr
  funext p i
  by_cases hp : p = page
  · simp [hp]
  · simp [hp]

theorem State.setPage_setPage (s : State) (page : ℕ) (c c' : ℕ → Word) :
    (s.setPage page c).setPage page c' = s.setPage page c' := by
  unfold State.setPage
  congr
  funext p i
  by_cases hp : p = page <;> simp [hp]

/-- `clear_tail` after a fill is a fill. -/
theorem clearTail_eq_setPage (s : State) (page : ℕ) (c : ℕ → Word) (n : ℕ) :
    ∃ c', clearTail page n (s.setPage page c) = s.setPage page c' := by
  induction n with
  | zero => exact ⟨c, rfl⟩
  | succ n ih =>
    obtain ⟨c', hc'⟩ := ih
    rw [clearTail, hc', State.setByteAt_eq_setPage, State.setPage_setPage]
    exact ⟨_, rfl⟩

theorem loadedPage_eq_setPage (file : Executable) (tmp page n : ℕ) (s : State) :
    ∃ c, clearTail page n (breadPage file tmp page s) = s.setPage page c := by
  unfold breadPage
  exact clearTail_eq_setPage s page _ n

theorem clearTail_byte (s : State) (page : ℕ) {n x : ℕ} (hn : n ≤ 4096) (hx : x < 4096) :
    (clearTail page n s).byte page x = if 4096 - n ≤ x then 0 else s.byte page x := by
  induction n with
  | zero => rw [clearTail, if_neg (by omega)]
  | succ n ih =>
    rw [clearTail, State.byte_setByteAt, ih (by omega)]
    by_cases heq : x = 4096 - (n + 1)
    · rw [if_pos heq, if_pos (by omega)]
    · by_cases hle : 4096 - n ≤ x
      · rw [if_neg heq, if_pos hle, if_pos (by omega)]
      · rw [if_neg heq, if_neg hle, if_neg (by omega)]

theorem breadPage_byte (file : Executable) (tmp page x : ℕ) (s : State) :
    (breadPage file tmp page s).byte page x = file.byte (1024 + tmp + x) := by
  unfold State.byte breadPage
  rw [State.mem_setPage_self, byteOf_ofBytes _ (by omega)]
  congr 1
  omega

/-- The page filled by `do_no_page` is the page of the executable's image. -/
theorem loadedPage_byte (file : Executable) {tmp endData : ℕ} (page : ℕ) (s : State)
    (hin : tmp < endData) {x : ℕ} (hx : x < 4096) :
    (clearTail page (tmp + 4096 - endData) (breadPage file tmp page s)).byte page x =
      imageByte file endData (tmp + x) := by
  rw [clearTail_byte _ _ (by omega) hx, breadPage_byte]
  unfold imageByte
  by_cases hle : 4096 - (tmp + 4096 - endData) ≤ x
  · rw [if_pos hle, if_neg (by omega)]
  · rw [if_neg hle, if_pos (by omega), Nat.add_assoc]

theorem putOrOom_spec (h : Inv lo hi ⟨s, held⟩) (ha : UserAddress address)
    (hempty : s.pageOf address = none) {page : ℕ} (hpage : page ∈ held) :
    (putOrOom s page address = .oom (s.decMap page) ∧
      Moves ⟨s, held⟩ ⟨s.decMap page, held.erase page⟩) ∨
    ∃ s', putOrOom s page address = .ok () s' ∧ Moves ⟨s, held⟩ ⟨s', held.erase page⟩ ∧
      Rewrites (dirIndex address) (tableIndex address) (some (pageAddr page ||| 7#32)) s s' ∧
      s'.mem page = s.mem page := by
  unfold putOrOom
  rcases putPage_spec h hpage ha hempty with ⟨hput, _⟩ | ⟨s', hput, hmoves, hrew, hheld⟩
  · left
    rw [hput]
    exact ⟨Result.bind_of_ok (freePage_held h hpage) _, .single (.drop hpage)⟩
  · right
    refine ⟨s', ?_, hmoves, hrew, hheld page hpage⟩
    obtain ⟨n, hn⟩ := Nat.exists_eq_succ_of_ne_zero (h.held_ge_two hpage).1
    rw [hput, hn]

/-- The page built by the second half of `do_no_page`, before it is mapped. -/
theorem loadedPage_spec (h : Inv lo hi ⟨s, held⟩) {page : ℕ} (hpage : page ∈ held)
    (file : Executable) (tmp n : ℕ) :
    Moves ⟨s, held⟩ ⟨clearTail page n (breadPage file tmp page s), held⟩ ∧
      Untouched s (clearTail page n (breadPage file tmp page s)) ∧
      (clearTail page n (breadPage file tmp page s)).mem 0 = s.mem 0 := by
  obtain ⟨c, hc⟩ := loadedPage_eq_setPage file tmp page n s
  obtain ⟨htable, hentry⟩ := State.table_entry_setPage (h.held_ge_two hpage).1
    (h.held_ne_table hpage) c
  rw [hc]
  refine ⟨.single (.fill hpage c), ⟨hentry, htable, fun g hg => ?_⟩,
    State.mem_setPage_of_ne _ (Ne.symm (h.held_ge_two hpage).1) _⟩
  apply State.mem_setPage_of_ne
  rintro rfl
  exact h.held_not_mapped hpage hg

/-- Filling a held page from an executable and mapping it. -/
theorem putLoaded_spec (h : Inv lo hi ⟨s, held⟩) (ha : UserAddress address)
    (hempty : s.pageOf address = none) {page tmp : ℕ} (hpage : page ∈ held) (file : Executable)
    (hin : tmp < q.endData) {s₁ : State}
    (hs₁ : clearTail page (tmp + 4096 - q.endData) (breadPage file tmp page s) = s₁) :
    (∃ s', putOrOom s₁ page address = .oom s' ∧
      Moves ⟨s, held⟩ ⟨s', held.erase page⟩ ∧ Untouched s s') ∨
    ∃ s', putOrOom s₁ page address = .ok () s' ∧
      Moves ⟨s, held⟩ ⟨s', held.erase page⟩ ∧
      Rewrites (dirIndex address) (tableIndex address) (some (pageAddr page ||| 7#32)) s s' ∧
      ∀ x < 4096, s'.byte page x = imageByte file q.endData (tmp + x) := by
  obtain ⟨hmoves1, hsame, hdir0⟩ := loadedPage_spec h hpage file tmp (tmp + 4096 - q.endData)
  have hbytes := fun x => loadedPage_byte (x := x) file page s hin
  rw [hs₁] at hmoves1 hsame hdir0
  simp only [hs₁] at hbytes
  have h1 := Moves.inv hmoves1 h
  have hempty1 : s₁.pageOf address = none := by
    rw [State.pageOf, hsame.entry]
    exact hempty
  rcases putOrOom_spec h1 ha hempty1 hpage with ⟨hoom, hmoves⟩ | ⟨s', hok, hmoves, hrew, hmem⟩
  · exact .inl ⟨_, hoom, hmoves1.trans hmoves, hsame.entry, hsame.table, hsame.data⟩
  · refine .inr ⟨s', hok, hmoves1.trans hmoves,
      hrew.of_same hsame.entry hsame.table hsame.data hdir0, fun x hx => ?_⟩
    rw [← hbytes x hx]
    unfold State.byte
    rw [hmem]

/-- The second half of `do_no_page`. -/
theorem noPageFinish_spec (h : Inv lo hi ⟨s, held⟩) (hcur : 1 ≤ current) (hcur' : current < 64)
    (ha : InSlot current address) (hempty : s.pageOf address = none) {page : ℕ}
    (hpage : page ∈ held) (file : Executable)
    (hin : address - address % 4096 - slotBase current < q.endData) :
    (∃ s', noPageFinish file q current address page s = .oom s' ∧
      Moves ⟨s, held⟩ ⟨s', held.erase page⟩ ∧ Untouched s s') ∨
    ∃ s', noPageFinish file q current address page s = .ok () s' ∧
      Moves ⟨s, held⟩ ⟨s', held.erase page⟩ ∧
      Rewrites (dirIndex address) (tableIndex address) (some (pageAddr page ||| 7#32)) s s' ∧
      ∀ x < 4096, s'.byte page x =
        imageByte file q.endData (address - address % 4096 - slotBase current + x) := by
  obtain ⟨hslot, hdir, htab⟩ := ha.page
  have hspec := putLoaded_spec h (hslot.user hcur hcur') (ha.pageOf.trans hempty) hpage file hin rfl
  rw [hdir, htab] at hspec
  exact hspec

end NoPage

end LihaLinux.Mm
