import LihaLinux.Mm.SharedPages

/-!
# Kernel stores into user memory

In supervisor mode the CPU ignores the write bit, so the kernel calls
`verify_area` before it stores into a user buffer. The stores stay private to
the task when `verify_area` computes the length without overflow, and when no
missing page of the buffer is mapped afterwards by page sharing.
-/

namespace LihaLinux.Mm

variable {files : ℕ → Executable} {lo hi : ℕ} {k k' : Kernel} {s s' : State} {held : Finset ℕ}
  {d d' j t t' f slot : ℕ} {w w' : Word} {q : Task}

/-! ### `verify_area` -/

/-- In the kernel's part of the address space `write_verify` finds no read-only page. -/
theorem writeVerify_kernel (h : Inv lo hi ⟨s, held⟩) {address : ℕ} (ha : address < 0x4000000) :
    writeVerify s address = .ok () s := by
  rw [writeVerify]
  split
  · next hp =>
    have hd : dirIndex address < 16 := by
      rw [dirIndex_eq]
      omega
    have hwr := (h.kernel.tables _ hd hp).2 _ (tableIndex_lt address)
    rw [if_neg]
    intro hro
    rw [((three_and_eq_one_iff _).mp hro).2] at hwr
    simp at hwr
  · rfl

/-- The places that a walk of `n` pages from `start` visits. -/
def Walked (start n e i : ℕ) : Prop :=
  ∃ m < n, e = dirIndex ((start + 4096 * m) % 2 ^ 32) ∧ i = tableIndex ((start + 4096 * m) % 2 ^ 32)

/-- What `verify_area` may change: read-only entries it walks over become
writable; no view changes. -/
structure Verified (start n : ℕ) (held : Finset ℕ) (s s' : State) : Prop where
  moves : Moves ⟨s, held⟩ ⟨s', held⟩
  dir : s'.mem 0 = s.mem 0
  view : ∀ a, s'.view a = s.view a
  entry : ∀ e i, s'.entry e i = s.entry e i ∨ ∃ w v, s.entry e i = some w ∧
    writable w = false ∧ s'.entry e i = some v ∧ writable v = true ∧ Walked start n e i

theorem Verified.refl (start n : ℕ) (held : Finset ℕ) (s : State) : Verified start n held s s :=
  ⟨.refl, rfl, fun _ => rfl, fun _ _ => .inl rfl⟩

theorem walk_succ (start m : ℕ) :
    ((start + 4096) % 2 ^ 32 + 4096 * m) % 2 ^ 32 = (start + 4096 * (m + 1)) % 2 ^ 32 := by
  omega

/-- The first page of a walk. -/
theorem writeVerify_verified (h : Inv lo hi ⟨s, held⟩) {start : ℕ} (hlt : start < 2 ^ 32) (n : ℕ) :
    writeVerify s start = .oom s ∨
    ∃ s', writeVerify s start = .ok () s' ∧ Verified start (n + 1) held s s' ∧
      ∀ w, s'.pageOf start = some w → writable w = true := by
  have hmod : (start + 4096 * 0) % 2 ^ 32 = start := by omega
  by_cases huser : 0x4000000 ≤ start
  · rcases writeVerify_spec h ⟨huser, hlt⟩ with ⟨hoom, _⟩ | ⟨hok, hwr⟩ |
      ⟨s', w, v, hok, hw, hro, hmoves, hrew, hdir, hwv, hcontent, _⟩
    · exact .inl hoom
    · exact .inr ⟨s, hok, .refl _ _ _ _, hwr⟩
    · refine .inr ⟨s', hok, ⟨hmoves, hdir, view_of_rewrite hrew hdir hw hcontent, ?_⟩, ?_⟩
      · intro e i
        rw [hrew.entry]
        split
        · next heq =>
          right
          rw [heq.1, heq.2]
          exact ⟨w, v, hw, hro, rfl, hwv, 0, by omega, by rw [hmod], by rw [hmod]⟩
        · exact .inl rfl
      · intro u hu
        rw [State.pageOf, hrew.self] at hu
        obtain rfl := Option.some.inj hu
        exact hwv
  · refine .inr ⟨s, writeVerify_kernel h (by omega), .refl _ _ _ _, fun w hw => ?_⟩
    obtain ⟨t, ht, _⟩ := State.pageOf_iff.mp hw
    have := mem_taskDirs.mp (State.table_iff.mp ht).1
    rw [dirIndex_eq] at this
    omega

/-- Walking one page and then the others. -/
theorem Verified.trans {start n : ℕ} {s₁ s₂ s₃ : State} (h : Verified start (n + 1) held s₁ s₂)
    (h' : Verified ((start + 4096) % 2 ^ 32) n held s₂ s₃) : Verified start (n + 1) held s₁ s₃ where
  moves := h.moves.trans h'.moves
  dir := h'.dir.trans h.dir
  view := fun a => (h'.view a).trans (h.view a)
  entry := by
    intro e i
    rcases h'.entry e i with hsame | ⟨w, v, hw, hro, hv, hwv, m, hm, he, hi⟩
    · rw [hsame]
      exact h.entry e i
    · rcases h.entry e i with hsame | ⟨w₁, v₁, _, _, hv₁, hwv₁, _⟩
      · rw [hsame] at hw
        rw [walk_succ] at he hi
        exact .inr ⟨w, v, hw, hro, hv, hwv, m + 1, by omega, he, hi⟩
      · rw [hv₁] at hw
        obtain rfl := Option.some.inj hw
        simp [hro] at hwv₁

/-- The loop of `verify_area`: afterwards every present page it walked over is
writable. -/
theorem verifyLoop_spec {n : ℕ} : ∀ {start : ℕ} {s : State}, Inv lo hi ⟨s, held⟩ →
    start < 2 ^ 32 →
    (∃ s', verifyLoop n start s = .oom s' ∧ Verified start n held s s') ∨
    ∃ s', verifyLoop n start s = .ok () s' ∧ Verified start n held s s' ∧
      ∀ m < n, ∀ w, s'.pageOf ((start + 4096 * m) % 2 ^ 32) = some w → writable w = true := by
  induction n with
  | zero =>
    intro start s _ _
    exact .inr ⟨s, rfl, .refl _ _ _ _, fun m hm => absurd hm (by omega)⟩
  | succ n ih =>
    intro start s h hlt
    rw [verifyLoop]
    rcases writeVerify_verified h hlt n with hoom | ⟨s₁, hok, hfirst, hwr⟩
    · exact .inl ⟨s, Result.bind_of_oom hoom _, .refl _ _ _ _⟩
    · rw [Result.bind_of_ok hok]
      rcases ih (Moves.inv hfirst.moves h) (Nat.mod_lt _ (by norm_num)) with
        ⟨s', hrun, hrest⟩ | ⟨s', hrun, hrest, hwrites⟩
      · exact .inl ⟨s', hrun, hfirst.trans hrest⟩
      · refine .inr ⟨s', hrun, hfirst.trans hrest, fun m hm w hw => ?_⟩
        cases m with
        | zero =>
          rw [show (start + 4096 * 0) % 2 ^ 32 = start by omega] at hw
          rcases hrest.entry (dirIndex start) (tableIndex start) with hsame |
            ⟨w₁, v₁, _, _, hv₁, hwv₁, _⟩
          · exact hwr w (hsame.symm.trans hw)
          · obtain rfl := Option.some.inj (hv₁.symm.trans hw)
            exact hwv₁
        | succ m =>
          rw [← walk_succ] at hw
          exact hwrites m (by omega) w hw

/-! ### Stores to missing pages -/

/-- `do_no_page` at a page that cannot be shared maps a page of its own. -/
theorem doNoPage_spec (h : Inv lo hi ⟨s, held⟩) (hslot : 1 ≤ slot ∧ slot < 64) {address : ℕ}
    (ha : InSlot slot address) (htask : k.task slot = some q) (hempty : s.pageOf address = none)
    (hno : ¬Shareable k slot address s) :
    (∃ s', doNoPage files k slot address s = .oom s' ∧ Moves ⟨s, held⟩ ⟨s', held⟩ ∧
      Untouched s s') ∨
    ∃ s' f, doNoPage files k slot address s = .ok () s' ∧ Moves ⟨s, held⟩ ⟨s', held⟩ ∧
      Rewrites (dirIndex address) (tableIndex address) (some (pageAddr f ||| 7#32)) s s' := by
  have hspec := noPageBegin_spec h hslot.1 hslot.2 ha htask hempty
  rw [doNoPage, htask]
  generalize noPageBegin k slot address s = r at hspec
  cases hspec with
  | @killed s' hmoves hsame => exact .inl ⟨s', Result.bind_of_oom rfl _, hmoves, hsame⟩
  | @empty s' f hout hmoves hrew hfree hlo hhi =>
    refine .inr ⟨s', f, ?_, hmoves, hrew⟩
    rw [Result.bind_of_ok rfl, noPageResume]
    simp
  | @shared s' p e q' w hin hexe hcount hmoves hp hp' hne htask' hexe' hshares =>
    exfalso
    have hoff : address - address % 4096 - slotBase slot < 0x4000000 := by
      obtain ⟨_, hlt⟩ := ha
      omega
    have htab : tableIndex (slotBase p + (address - address % 4096 - slotBase slot)) =
        tableIndex address := by
      rw [(dirIndex_slot_add p hoff).2, ← (dirIndex_slot_add slot hoff).2,
        Nat.add_sub_cancel' ha.page.1.1, ha.page.2.2]
    refine hno ⟨q, e, htask, hexe, hin, hcount, p, q', w, hp, hp', hne, htask', hexe', ?_,
      hshares.clean, hshares.high⟩
    rw [State.pageOf, htab]
    exact hshares.source
  | @load s₁ page e hin hexe hget =>
    obtain ⟨hmove, hrange, hheld, _, _, _, _, _, hmem⟩ := getFreePage_spec h hget
    have hsame := untouched_of_getFreePage h hget
    have hempty1 : s₁.pageOf address = none := by
      rw [State.pageOf, hsame.entry]
      exact hempty
    have hn0 : page ≠ 0 := (ne_kernel_page (h.low.trans hrange.1)).1
    rw [Result.bind_of_ok rfl, noPageResume]
    rcases noPageFinish_spec (hmove.inv h) hslot.1 hslot.2 ha hempty1
      (Finset.mem_insert_self page held) (files (q.executable.getD 0)) hin with
      ⟨s', hrun, hmoves, hsame'⟩ | ⟨s', hrun, hmoves, hrew, _⟩
    · rw [Finset.erase_insert hheld] at hmoves
      refine .inl ⟨s', hrun, .head hmove hmoves, hsame'.entry.trans hsame.entry,
        hsame'.table.trans hsame.table, fun g hg => ?_⟩
      rw [hsame'.data g ?_, hsame.data g hg]
      obtain ⟨e, i, u, hu, hframe⟩ := hg
      exact ⟨e, i, u, by rw [hsame.entry]; exact hu, hframe⟩
    · rw [Finset.erase_insert hheld] at hmoves
      exact .inr ⟨s', page, hrun, .head hmove hmoves,
        hrew.of_same hsame.entry hsame.table hsame.data (hmem 0 (Ne.symm hn0))⟩

/-! ### The stores after `verify_area` -/

/-- The views of all tasks but one. -/
def OthersKept (slot : ℕ) (s s' : State) : Prop :=
  ∀ a, UserAddress a → ¬InSlot slot a → s'.view a = s.view a

theorem OthersKept.trans {s₁ s₂ s₃ : State} (h : OthersKept slot s₁ s₂)
    (h' : OthersKept slot s₂ s₃) : OthersKept slot s₁ s₃ :=
  fun a ha hout => (h' a ha hout).trans (h a ha hout)

theorem Untouched.view (h : Untouched s s') (a : ℕ) : s'.view a = s.view a := by
  unfold State.view State.pageOf
  rw [h.entry]
  cases hu : s.entry (dirIndex a) (tableIndex a) with
  | none => rfl
  | some u =>
    rw [Option.map_some, Option.map_some]
    unfold State.byte
    rw [h.data _ ⟨_, _, u, hu, rfl⟩]

/-- A missing page that may be mapped without changing what other tasks see: it
is not shared, and no page table has to be added to a directory that some task
can read. -/
def CanAdd (k : Kernel) (slot address : ℕ) (s : State) : Prop :=
  ¬Shareable k slot address s ∧ (s.table (dirIndex address) ≠ none ∨ ¬s.Mapped 0)

/-- The state in which the kernel may store to the offsets `a .. b - 1` of a task. -/
structure Ready (lo hi : ℕ) (k : Kernel) (slot : ℕ) (q : Task) (a b : ℕ) (held : Finset ℕ)
    (s : State) : Prop where
  inv : Inv lo hi ⟨s, held⟩
  isolated : s.Private
  present : ∀ off, a ≤ off → off < b → off < q.limit →
    ∀ w, s.pageOf (slotBase slot + off) = some w → writable w = true
  absent : ∀ off, a ≤ off → off < b → off < q.limit → s.pageOf (slotBase slot + off) = none →
    CanAdd k slot (slotBase slot + off) s

theorem inSlot_add {off : ℕ} (hoff : off < 0x4000000) : InSlot slot (slotBase slot + off) :=
  ⟨Nat.le_add_right _ _, Nat.add_lt_add_left hoff _⟩

/-- Sharing looks at the entries of the other slots only. -/
theorem Shareable.congr {address : ℕ} (h : Shareable k slot address s') (ha : InSlot slot address)
    (hentry : ∀ e i, e / 16 ≠ slot → s'.entry e i = s.entry e i) : Shareable k slot address s := by
  obtain ⟨t, e, htask, hexe, hin, hcount, p, q', w, hp, hp', hne, htask', hexe', hw, hrest⟩ := h
  refine ⟨t, e, htask, hexe, hin, hcount, p, q', w, hp, hp', hne, htask', hexe', ?_, hrest⟩
  have hoff : address - address % 4096 - slotBase slot < 0x4000000 := by
    obtain ⟨_, hlt⟩ := ha
    omega
  rw [State.pageOf, hentry] at hw
  · exact hw
  · rw [(inSlot_add hoff).dir_div hp']
    exact hne

/-- The kernel may go on after one entry of the task was made writable. -/
theorem Ready.rewrite {a b : ℕ} {v : Word} (h : Ready lo hi k slot q a b held s)
    (hlimit : q.limit ≤ 0x4000000) (hd : d / 16 = slot)
    (hmoves : Moves ⟨s, held⟩ ⟨s', held⟩)
    (hentry : ∀ e i, s'.entry e i = if e = d ∧ i = j then some v else s.entry e i)
    (htable : ∀ e, e ≠ d → s'.table e = s.table e) (hwr : writable v = true) :
    Ready lo hi k slot q a b held s' := by
  have hpriv := Moves.private hmoves h.inv h.isolated
  have hself : s'.entry d j = some v := by rw [hentry, if_pos ⟨rfl, rfl⟩]
  have hhigh := (hpriv d j v hself hwr).1
  refine ⟨Moves.inv hmoves h.inv, hpriv, ?_, ?_⟩
  · intro off hlo hhi hlt w hw
    rw [State.pageOf, hentry] at hw
    split at hw
    · obtain rfl := Option.some.inj hw
      exact hwr
    · exact h.present off hlo hhi hlt w hw
  · intro off hlo hhi hlt hnone
    have hold : s.pageOf (slotBase slot + off) = none := by
      rw [State.pageOf, hentry] at hnone
      split at hnone
      · simp at hnone
      · exact hnone
    obtain ⟨hno, hadd⟩ := h.absent off hlo hhi hlt hold
    refine ⟨fun hshare => hno (hshare.congr (inSlot_add (by omega)) fun e i he => ?_), ?_⟩
    · rw [hentry, if_neg]
      rintro ⟨rfl, _⟩
      exact he hd
    · rcases hadd with htab | hmapped
      · left
        by_cases heq : dirIndex (slotBase slot + off) = d
        · rw [heq]
          intro hnot
          rw [State.entry_of_table_none hnot] at hself
          simp at hself
        · rw [htable _ heq]
          exact htab
      · right
        rintro ⟨e, i, u, hu, hzero⟩
        rw [hentry] at hu
        split at hu
        · obtain rfl := Option.some.inj hu
          exact (ne_kernel_page hhigh).1 hzero
        · exact hmapped ⟨e, i, u, hu, hzero⟩

/-- An address of another slot is on another page. -/
theorem other_place {a address : ℕ} (hslot : slot < 64) (ha : UserAddress a)
    (hout : ¬InSlot slot a) (hin : InSlot slot address) :
    ¬(dirIndex a = dirIndex address ∧ tableIndex a = tableIndex address) := by
  rintro ⟨heq, _⟩
  have hdir := hin.dir_div hslot
  rw [← heq, dirIndex_eq] at hdir
  apply hout
  obtain ⟨_, hlt⟩ := ha
  unfold InSlot slotBase
  omega

/-- The page of the next store is made present. -/
theorem ready_page {a b : ℕ} (h : Ready lo hi k slot q a b held s) (hslot : 1 ≤ slot ∧ slot < 64)
    (htask : k.task slot = some q) (hlimit : q.limit ≤ 0x4000000) {off : ℕ} (hlo : a ≤ off)
    (hhi : off < b) (hlt : off < q.limit) {r : Result Unit}
    (hr : (if (s.pageOf (slotBase slot + off)).isSome then .ok () s
      else doNoPage files k slot (slotBase slot + off) s) = r) :
    (∃ s', r = .oom s' ∧ OthersKept slot s s') ∨
    ∃ s', r = .ok () s' ∧ Ready lo hi k slot q a b held s' ∧ OthersKept slot s s' ∧
      s'.pageOf (slotBase slot + off) ≠ none := by
  have hin : InSlot slot (slotBase slot + off) := inSlot_add (by omega)
  by_cases hsome : (s.pageOf (slotBase slot + off)).isSome = true
  · rw [if_pos hsome] at hr
    refine .inr ⟨s, hr.symm, h, fun _ _ _ => rfl, fun hnone => ?_⟩
    simp [hnone] at hsome
  · rw [if_neg hsome] at hr
    have hnone : s.pageOf (slotBase slot + off) = none := by simpa using hsome
    obtain ⟨hno, hadd⟩ := h.absent off hlo hhi hlt hnone
    rcases doNoPage_spec h.inv hslot hin htask hnone hno with
      ⟨s', hrun, _, hsame⟩ | ⟨s', f, hrun, hmoves, hrew⟩
    · exact .inl ⟨s', hr.symm.trans hrun, fun a _ _ => hsame.view a⟩
    · refine .inr ⟨s', hr.symm.trans hrun, h.rewrite hlimit (hin.dir_div hslot.2) hmoves
        hrew.entry hrew.table (writable_fresh f), fun a ha hout => ?_, ?_⟩
      · refine hrew.view (other_place hslot.2 ha hout hin) ?_
        rcases hadd with htab | hmapped
        · exact .inl (hrew.dir htab)
        · exact .inr fun w hw hzero => hmapped ⟨_, _, w, hw, hzero⟩
      · rw [State.pageOf, hrew.self]
        simp

/-- One kernel store. -/
theorem putFsByte_spec {a b : ℕ} (h : Ready lo hi k slot q a b held s)
    (hslot : 1 ≤ slot ∧ slot < 64) (htask : k.task slot = some q)
    (hlimit : q.limit ≤ 0x4000000) {off : ℕ} (hlo : a ≤ off)
    (hhi : off < b) (val : BitVec 8) :
    (∃ s', putFsByte files k slot off val s = .oom s' ∧ OthersKept slot s s') ∨
    ∃ s', putFsByte files k slot off val s = .ok () s' ∧ Ready lo hi k slot q a b held s' ∧
      OthersKept slot s s' := by
  rw [putFsByte, htask]
  by_cases hlt : off < q.limit
  swap
  · exact .inl ⟨s, if_neg hlt, fun _ _ _ => rfl⟩
  simp only [if_pos hlt]
  have hin : InSlot slot (slotBase slot + off) := inSlot_add (by omega)
  rcases ready_page h hslot htask hlimit hlo hhi hlt rfl with
    ⟨s', hrun, hkept⟩ | ⟨s₁, hrun, hready, hkept, hpage⟩
  · exact .inl ⟨s', Result.bind_of_oom hrun _, hkept⟩
  · rw [Result.bind_of_ok hrun]
    obtain ⟨w, hw⟩ := Option.ne_none_iff_exists'.mp hpage
    have hwr := hready.present off hlo hhi hlt w hw
    obtain ⟨hhigh, honly⟩ := hready.isolated _ _ w hw hwr
    obtain ⟨htable, hentry⟩ := writeByte_effect hready.inv hw hhigh val
    have hready' := hready.rewrite hlimit (hin.dir_div hslot.2)
      (.single (writeByte_move hw hhigh val)) hentry (fun e _ => by rw [htable])
      (by simpa using hwr)
    refine .inr ⟨_, rfl, hready', fun a ha hout => ?_⟩
    have hne : a ≠ slotBase slot + off := by
      rintro rfl
      exact hout hin
    rw [view_writeByte hready.inv hw hhigh val (hin.user hslot.1 hslot.2).2 honly ha.2, if_neg hne]
    exact hkept a ha hout

/-- Any number of kernel stores inside the range. -/
theorem putFs_spec {a b : ℕ} (hslot : 1 ≤ slot ∧ slot < 64) (htask : k.task slot = some q)
    (hlimit : q.limit ≤ 0x4000000) {bytes : List (BitVec 8)} :
    ∀ {off : ℕ} {s : State}, Ready lo hi k slot q a b held s → a ≤ off → off + bytes.length ≤ b →
      (∃ s', putFs files k slot off bytes s = .oom s' ∧ OthersKept slot s s') ∨
      ∃ s', putFs files k slot off bytes s = .ok () s' ∧ OthersKept slot s s' := by
  induction bytes with
  | nil =>
    intro off s _ _ _
    exact .inr ⟨s, rfl, fun _ _ _ => rfl⟩
  | cons val rest ih =>
    intro off s h hlo hhi
    rw [List.length_cons] at hhi
    rw [putFs]
    rcases putFsByte_spec h hslot htask hlimit hlo (by omega : off < b) val with
      ⟨s', hrun, hkept⟩ | ⟨s₁, hrun, hready, hkept⟩
    · exact .inl ⟨s', Result.bind_of_oom hrun _, hkept⟩
    · rw [Result.bind_of_ok hrun]
      rcases ih hready (by omega : a ≤ off + 1) (by omega) with ⟨s', hrest, hkept'⟩ |
        ⟨s', hrest, hkept'⟩
      · exact .inl ⟨s', hrest, hkept.trans hkept'⟩
      · exact .inr ⟨s', hrest, hkept.trans hkept'⟩

/-! ### `verify_area` and the stores together -/

/-- Another task of the same executable has the page of this offset read-only
where the walk of `verify_area` passes: the walk may turn it into a clean copy. -/
def Exposes (k : Kernel) (slot start n off : ℕ) : Prop :=
  ∃ p w, (1 ≤ p ∧ p < 64) ∧ p ≠ slot ∧
    (k.task p).bind Task.executable = (k.task slot).bind Task.executable ∧
    k.mm.pageOf (slotBase p + (off - off % 4096)) = some w ∧ writable w = false ∧
    Walked start n (dirIndex (slotBase p + (off - off % 4096)))
      (tableIndex (slotBase p + (off - off % 4096)))

/-- A page of the buffer that stays private: it is present when `verify_area` is
called, or it is mapped later without sharing. -/
def StoreSafe (k : Kernel) (slot buf : ℕ) (count : ℤ) (off : ℕ) : Prop :=
  k.mm.pageOf (slotBase slot + off) ≠ none ∨
    CanAdd k slot (slotBase slot + off) k.mm ∧
      ¬Exposes k slot ((buf - buf % 4096 + slotBase slot) % 2 ^ 32)
        (verifyPages (count + (buf % 4096 : ℕ))) off

theorem pageStart_add {off : ℕ} :
    slotBase slot + off - (slotBase slot + off) % 4096 - slotBase slot = off - off % 4096 := by
  unfold slotBase
  omega

/-- The page of an offset of the buffer is walked over. -/
theorem walked_offset {buf off : ℕ} {count : ℤ} (hslot : slot < 64) (hlo : buf ≤ off)
    (hhi : (off : ℤ) < buf + count) (hlt : off < 0x4000000) :
    ∃ m < verifyPages (count + (buf % 4096 : ℕ)),
      ((buf - buf % 4096 + slotBase slot) % 2 ^ 32 + 4096 * m) % 2 ^ 32 =
        slotBase slot + off - (slotBase slot + off) % 4096 := by
  refine ⟨(off - (buf - buf % 4096)) / 4096, ?_, ?_⟩
  · unfold verifyPages
    omega
  · unfold slotBase
    omega

/-- A verified buffer is ready for the kernel's stores. -/
theorem Verified.ready (h : TaskInv files lo hi k) (hslot : 1 ≤ slot ∧ slot < 64)
    (htask : k.task slot = some q) {buf : ℕ} {count : ℤ}
    (hsafe : ∀ off, buf ≤ off → (off : ℤ) < buf + count → off < q.limit →
      StoreSafe k slot buf count off)
    (hver : Verified ((buf - buf % 4096 + slotBase slot) % 2 ^ 32)
      (verifyPages (count + (buf % 4096 : ℕ))) k.held k.mm s')
    (hwrites : ∀ m < verifyPages (count + (buf % 4096 : ℕ)), ∀ w,
      s'.pageOf (((buf - buf % 4096 + slotBase slot) % 2 ^ 32 + 4096 * m) % 2 ^ 32) = some w →
        writable w = true) :
    Ready lo hi k slot q buf (buf + count.toNat) k.held s' := by
  have hlimit := (h.tasks _ _ htask).limit_le
  have hpriv := Moves.private hver.moves h.inv h.isolated
  refine ⟨Moves.inv hver.moves h.inv, hpriv, ?_, ?_⟩
  · intro off hlo hhi hlt w hw
    obtain ⟨m, hm, hstart⟩ := walked_offset hslot.2 hlo (by omega : (off : ℤ) < buf + count)
      (by omega)
    refine hwrites m hm w ?_
    rw [hstart, (inSlot_add (by omega)).pageOf]
    exact hw
  · intro off hlo hhi hlt hnone
    have hold : k.mm.pageOf (slotBase slot + off) = none := by
      rcases hver.entry (dirIndex (slotBase slot + off)) (tableIndex (slotBase slot + off)) with
        hsame | ⟨w, v, _, _, hv, _⟩
      · exact hsame.symm.trans hnone
      · rw [State.pageOf, hv] at hnone
        simp at hnone
    obtain ⟨⟨hno, hadd⟩, hexposes⟩ :=
      (hsafe off hlo (by omega) hlt).resolve_left fun hne => hne hold
    refine ⟨?_, ?_⟩
    · rintro ⟨t, e, ht, hexe, hin, hcount, p, q', w, hp, hp', hne, htask', hexe', hw, hclean, hhigh⟩
      rcases hver.entry _ _ with hsame | ⟨u, v, hu, hro, _, _, hwalk⟩
      · exact hno ⟨t, e, ht, hexe, hin, hcount, p, q', w, hp, hp', hne, htask', hexe',
          hsame.symm.trans hw, hclean, hhigh⟩
      · rw [pageStart_add] at hu hwalk
        refine hexposes ⟨p, u, ⟨hp, hp'⟩, hne, ?_, hu, hro, hwalk⟩
        rw [htask', ht, Option.bind_some, Option.bind_some, hexe, hexe']
    · rcases hadd with htab | hmapped
      · left
        unfold State.table at htab ⊢
        rw [hver.dir]
        exact htab
      · right
        rintro ⟨e, i, u, hu, hzero⟩
        rcases hver.entry e i with hsame | ⟨_, v, _, _, hv, hwv, _⟩
        · exact hmapped ⟨e, i, u, hsame.symm.trans hu, hzero⟩
        · obtain rfl := Option.some.inj (hv.symm.trans hu)
          exact (ne_kernel_page (hpriv e i v hv hwv).1).1 hzero

/-- A parent and a child share the first page of their executable. -/
def sampleShared : List TaskOp := sampleLoads ++ [.userStore 1 0x4000000 7, .fork 1 2]

theorem sample_reachable {ops : List TaskOp}
    (hk : runTaskOps sampleFiles sampleExeced ops = some k) :
    Reachable (TaskBoot 256 4096) (TaskStep sampleFiles) k := by
  have hstep : ∀ (ops : List TaskOp), ∀ op ∈ ops, ∀ k k', op.Enabled k →
      op.run sampleFiles k = some k' → TaskStep sampleFiles k k' :=
    fun _ op _ _ _ hen hrun => ⟨op, hen, hrun⟩
  exact runTaskOps_reachable (hstep ops) (sampleExeced_reachable (hstep _)) hk

/-- What the task in slot `other` sees at an offset before and after a read into
the memory of the task in slot `slot`. -/
def seenByOther (slot buf : ℕ) (count : ℤ) (bytes : List (BitVec 8)) (other : ℕ) (k : Kernel) :
    Option (Option (BitVec 8) × Option (BitVec 8)) :=
  match readInto sampleFiles k slot buf count bytes with
  | .ok _ s => some (k.mm.view (slotBase other + buf), s.view (slotBase other + buf))
  | _ => none

theorem seenByOther_eq_some {buf other : ℕ} {count : ℤ} {bytes : List (BitVec 8)}
    {v v' : Option (BitVec 8)} (h : seenByOther slot buf count bytes other k = some (v, v')) :
    ∃ s', readInto sampleFiles k slot buf count bytes = .ok () s' ∧
      k.mm.view (slotBase other + buf) = v ∧ s'.view (slotBase other + buf) = v' := by
  unfold seenByOther at h
  split at h
  · next s' hs' =>
    simp only [Option.some.injEq, Prod.mk.injEq] at h
    exact ⟨s', hs', h.1, h.2⟩
  · simp at h

set_option maxRecDepth 4000 in
/-- The parent and the child share the page, and a read into it by the child is seen by the parent
only when the length overflows. -/
theorem sampleShared_run : ∃ k, runTaskOps sampleFiles sampleExeced sampleShared = some k ∧
    k.task 2 = some (execTask (sampleFiles 1) 1) ∧
    (k.mm.pageOf (slotBase 2 + 1)).isSome = true ∧
    seenByOther 2 1 1 [9#8] 1 k = some (some 1#8, some 1#8) ∧
    seenByOther 2 1 (2 ^ 31 - 1) [9#8] 1 k = some (some 1#8, some 9#8) := by
  have hcheck : (runTaskOps sampleFiles sampleExeced sampleShared).any (fun k =>
      decide (k.task 2 = some (execTask (sampleFiles 1) 1) ∧
        (k.mm.pageOf (slotBase 2 + 1)).isSome = true ∧
        seenByOther 2 1 1 [9#8] 1 k = some (some 1#8, some 1#8) ∧
        seenByOther 2 1 (2 ^ 31 - 1) [9#8] 1 k = some (some 1#8, some 9#8))) = true := by
    decide +kernel
  obtain ⟨k, hk, hseen⟩ := (Option.any_eq_true _ _).mp hcheck
  exact ⟨k, hk, of_decide_eq_true hseen⟩

set_option maxRecDepth 4000 in
/-- A page that is missing when `verify_area` walks is mapped by sharing when the
kernel stores to it, and the store is seen by the task it is shared with. -/
theorem readInto_shared_visible : ∃ k s',
    Reachable (TaskBoot 256 4096) (TaskStep sampleFiles) k ∧
    readInto sampleFiles k 3 1 1 [9#8] = .ok () s' ∧
    s'.view (slotBase 1 + 1) ≠ k.mm.view (slotBase 1 + 1) := by
  have hcheck : (runTaskOps sampleFiles sampleExeced
      (sampleLoads ++ [.setCount fun _ => 2])).bind (seenByOther 3 1 1 [9#8] 1) =
        some (some 1#8, some 9#8) := by decide +kernel
  obtain ⟨k, hk, hseen⟩ := Option.bind_eq_some_iff.mp hcheck
  obtain ⟨s', hs', hbefore, hafter⟩ := seenByOther_eq_some hseen
  refine ⟨k, s', sample_reachable hk, hs', ?_⟩
  rw [hbefore, hafter]
  decide

end LihaLinux.Mm
