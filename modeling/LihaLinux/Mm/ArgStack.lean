import LihaLinux.Mm.ArgTables
import LihaLinux.Mm.Images

/-!
# The stack of a new program

The arguments of `execve` survive the way into the new address space: the new program finds the
number of its arguments, and tables of pointers to strings that are equal to those of the caller.
-/

namespace LihaLinux.Mm

variable {files : ℕ → Executable} {lo hi slot : ℕ} {k : Kernel} {held : Finset ℕ} {s s' : State}
  {q : Task} {strs : List (List (BitVec 8))} {enough : Prop}

/-- A word in memory. -/
def HoldsLong (view : ℕ → Option (BitVec 8)) (a : ℕ) (val : Word) : Prop :=
  Stored view a (longBytes val)

/-- A table of pointers to strings that lie between `low` and the end of the segment, with a zero at
its end. -/
structure PointerTable (view : ℕ → Option (BitVec 8)) (low table : ℕ)
    (strs : List (List (BitVec 8))) : Prop where
  pointer : ∀ i str, strs[i]? = some str → ∃ a, low ≤ a ∧
    a + (cString str).length ≤ dataLimit ∧ HoldsLong view (table + 4 * i) (BitVec.ofNat 32 a) ∧
      Stored view a (cString str)
  null : HoldsLong view (table + 4 * strs.length) 0

/-- The stack of a new program: the number of its arguments and pointers to the two tables. The
tables lie one behind the other, and the strings behind them. -/
structure StackLayout (view : ℕ → Option (BitVec 8)) (sp argvTable envpTable low : ℕ)
    (argv envp : List (List (BitVec 8))) : Prop where
  argc : HoldsLong view sp (BitVec.ofNat 32 argv.length)
  argc_lt : argv.length < 2 ^ 32
  argv_pointer : HoldsLong view (sp + 4) (BitVec.ofNat 32 argvTable)
  envp_pointer : HoldsLong view (sp + 8) (BitVec.ofNat 32 envpTable)
  argv_above : sp + 12 ≤ argvTable
  envp_above : argvTable + 4 * (argv.length + 1) ≤ envpTable
  strings_above : envpTable + 4 * (envp.length + 1) ≤ low
  below_limit : low ≤ dataLimit
  argv_table : PointerTable view low argvTable argv
  envp_table : PointerTable view low envpTable envp

theorem KeepsView.stored {P : ℕ → Prop} (h : KeepsView slot s s' P) {a : ℕ} {l : List (BitVec 8)}
    (hl : Stored (s.userView slot) a l) (hle : a + l.length ≤ dataLimit)
    (hP : ∀ x, a ≤ x → x < a + l.length → P x) : Stored (s'.userView slot) a l :=
  hl.congr fun x b hx hx' hb => h x (by omega) (hP x hx hx') b hb

theorem KeepsView.holdsLong {P : ℕ → Prop} (h : KeepsView slot s s' P) {a : ℕ} {val : Word}
    (hl : HoldsLong (s.userView slot) a val) (hle : a + 4 ≤ dataLimit)
    (hP : ∀ x, a ≤ x → x < a + 4 → P x) : HoldsLong (s'.userView slot) a val := by
  have hlen := longBytes_length val
  exact h.stored hl (by omega) fun x hx hx' => hP x hx (by omega)

/-- A table stays when neither it nor the strings are written to. -/
theorem PointerTable.keep {P : ℕ → Prop} {low table : ℕ}
    (h : PointerTable (s.userView slot) low table strs) (hkeep : KeepsView slot s s' P)
    (htable : table + 4 * (strs.length + 1) ≤ dataLimit)
    (hP : ∀ x, table ≤ x → x < table + 4 * (strs.length + 1) → P x)
    (hstr : ∀ x, low ≤ x → P x) : PointerTable (s'.userView slot) low table strs := by
  refine ⟨fun i str hi => ?_, ?_⟩
  · have hlt : i < strs.length := (List.getElem?_eq_some_iff.mp hi).1
    obtain ⟨a, hlow, ha, hlong, hstored⟩ := h.pointer i str hi
    exact ⟨a, hlow, ha, hkeep.holdsLong hlong (by omega) fun x hx hx' => hP x (by omega) (by omega),
      hkeep.stored hstored ha fun x hx _ => hstr x (by omega)⟩
  · exact hkeep.holdsLong h.null (by omega) fun x hx hx' => hP x (by omega) (by omega)

variable (files) in
/-- One of the loops of `create_tables`: it finds the strings one behind the other. -/
theorem Owned.fillTable {p table : ℕ} (low : ℕ) (h : Owned enough lo hi slot held s)
    (ht : Starting k slot q)
    (hstored : Stored (s.userView slot) p (packed strs)) (hne : ∀ str ∈ strs, ∀ b ∈ str, b ≠ 0)
    (htable : InStack table) (hsep : table + 4 * (strs.length + 1) ≤ low) (hlow : low ≤ p)
    (hend : p + (packed strs).length + 4 ≤ dataLimit) :
    Served enough (fun e s' => e = p + (packed strs).length ∧ Owned enough lo hi slot held s' ∧
      PointerTable (s'.userView slot) low table strs ∧
      KeepsView slot s s' fun x => x < table ∨ table + 4 * (strs.length + 1) ≤ x)
      (fillTable files k slot strs.length p table s) := by
  induction strs generalizing p table s with
  | nil =>
    rw [List.length_nil] at hsep ⊢
    rw [Mm.fillTable]
    refine (h.putFsLong files ht htable (by omega) 0).bind fun _ s' hput => ?_
    obtain ⟨h', hlong, hkeep⟩ := hput
    exact Or.inl ⟨p, s', rfl, rfl, h', ⟨fun i str hi => absurd hi (by simp), hlong⟩, hkeep⟩
  | cons str strs ih =>
    rw [List.length_cons] at hsep ⊢
    have hpacked : (packed (str :: strs)).length = (cString str).length + (packed strs).length := by
      rw [packed, List.flatMap_cons, List.length_append, packed]
    have hstrlen : (cString str).length = str.length + 1 := List.length_append ..
    rw [hpacked] at hend ⊢
    rw [Mm.fillTable]
    refine (h.putFsLong files ht htable (by omega) (BitVec.ofNat 32 p)).bind fun _ s₁ hput => ?_
    obtain ⟨h₁, hlong, hkeep₁⟩ := hput
    have hsplit : Stored (s.userView slot) p (cString str ++ packed strs) := hstored
    obtain ⟨hstr, hrest⟩ := Stored.append_iff.mp hsplit
    have hstr₁ := hkeep₁.stored hstr (by omega) fun x hx _ => Or.inr (by omega)
    have hrest₁ := hkeep₁.stored hrest (by omega) fun x hx _ => Or.inr (by omega)
    have htable' : InStack (table + 4) := htable.mono (by omega) (by omega)
    rw [Result.bind_of_ok (skipString_eq ht hstr₁ (hne str (by simp)) (by omega) (by omega))]
    refine (ih h₁ hrest₁ (fun l hl => hne l (by simp [hl])) htable' (by omega) (by omega)
      (by omega)).mono fun e s' hfill => ?_
    obtain ⟨he, h', htab, hkeep⟩ := hfill
    refine ⟨by rw [he, Nat.add_assoc], h', ⟨fun i l hl => ?_, ?_⟩, fun x hx hxt b hb => ?_⟩
    · cases i with
      | zero =>
        obtain rfl := Option.some.inj hl
        exact ⟨p, hlow, by omega, hkeep.holdsLong hlong (by omega) fun x _ hx => Or.inl (by omega),
          hkeep.stored hstr₁ (by omega) fun x hx _ => Or.inr (by omega)⟩
      | succ i =>
        obtain ⟨a, ha, hal, hptr, hstored'⟩ := htab.pointer i l hl
        refine ⟨a, ha, hal, ?_, hstored'⟩
        rwa [show table + 4 * (i + 1) = table + 4 + 4 * i by omega]
    · have hnull := htab.null
      rwa [show table + 4 + 4 * strs.length = table + 4 * (strs.length + 1) by omega] at hnull
    · exact hkeep x hx (by omega) b (hkeep₁ x hx (by omega) b hb)

theorem sub32_eq {a b : ℕ} (hb : b ≤ a) (ha : a < 2 ^ 32) : sub32 a b = a - b := by
  rw [sub32]
  omega

theorem length_le_packed : strs.length ≤ (packed strs).length := by
  induction strs with
  | nil => exact Nat.le_refl _
  | cons str strs ih =>
    have hpacked : (packed (str :: strs)).length = (cString str).length + (packed strs).length := by
      rw [packed, List.flatMap_cons, List.length_append, packed]
    have hstrlen : (cString str).length = str.length + 1 := List.length_append ..
    rw [hpacked, List.length_cons]
    omega

/-- The first word that `create_tables` stores is on the stack. -/
theorem createTables_first (argv envp : List (List (BitVec 8))) {p : ℕ}
    (hp : p + (packed argv).length + (packed envp).length + 4 ≤ dataLimit)
    (hlow : dataLimit < p + 4096 * maxArgPages) : ∃ off, InStack off ∧
      sub32 (sub32 (sub32 (p - p % 4) (4 * (envp.length + 1))) (4 * (argv.length + 1))) 4 =
        off := by
  have hlimit := dataLimit_eq
  have hpages := maxArgPages_eq
  have hsize : stackPages = 164 := rfl
  have hargc : argv.length ≤ (packed argv).length := length_le_packed
  have henvc : envp.length ≤ (packed envp).length := length_le_packed
  have hsub : sub32 (p - p % 4) (4 * (envp.length + 1)) = p - p % 4 - 4 * (envp.length + 1) :=
    sub32_eq (by omega) (by omega)
  have hsub' : sub32 (p - p % 4 - 4 * (envp.length + 1)) (4 * (argv.length + 1)) =
      p - p % 4 - 4 * (envp.length + 1) - 4 * (argv.length + 1) :=
    sub32_eq (by omega) (by omega)
  rw [hsub, hsub', sub32_eq (by omega) (by omega)]
  refine ⟨_, ⟨?_, ?_⟩, rfl⟩
  · rw [hsize]
    omega
  · omega

variable (files) in
/-- `create_tables` builds the stack below the strings. -/
theorem Owned.createTables {argv envp : List (List (BitVec 8))} {p : ℕ}
    (h : Owned enough lo hi slot held s) (ht : Starting k slot q)
    (hstored : Stored (s.userView slot) p (packed argv ++ packed envp))
    (hargv : ∀ str ∈ argv, ∀ b ∈ str, b ≠ 0) (henvp : ∀ str ∈ envp, ∀ b ∈ str, b ≠ 0)
    (hp : p + (packed argv).length + (packed envp).length + 4 ≤ dataLimit)
    (hlow : dataLimit < p + 4096 * maxArgPages) :
    Served enough (fun sp s' => Owned enough lo hi slot held s' ∧ ∃ argvTable envpTable low,
      StackLayout (s'.userView slot) sp argvTable envpTable low argv envp)
      (createTables files k slot p argv.length envp.length s) := by
  have hlimit := dataLimit_eq
  have hpages := maxArgPages_eq
  have hargc : argv.length ≤ (packed argv).length := length_le_packed
  have henvc : envp.length ≤ (packed envp).length := length_le_packed
  obtain ⟨low, hlow⟩ : ∃ low, low = p - p % 4 := ⟨_, rfl⟩
  obtain ⟨te, hte⟩ : ∃ te, te = low - 4 * (envp.length + 1) := ⟨_, rfl⟩
  obtain ⟨ta, hta⟩ : ∃ ta, ta = te - 4 * (argv.length + 1) := ⟨_, rfl⟩
  -- The same without subtraction, for the arithmetic below.
  have hbelow : low ≤ p ∧ p < low + 4 := by omega
  have henvTable : te + 4 * (envp.length + 1) = low := by omega
  have hargTable : ta + 4 * (argv.length + 1) = te := by omega
  have hroom : dataLimit < ta + 4096 * 164 := by omega
  have hstack : ∀ x, ta - 12 ≤ x → x < dataLimit → InStack x := by
    intro x hx hx'
    have hsize : stackPages = 164 := rfl
    refine ⟨?_, hx'⟩
    rw [hsize]
    omega
  have hstored' := Stored.append_iff.mp hstored
  have hsub₁ : sub32 low (4 * (envp.length + 1)) = te := by
    rw [sub32_eq (by omega) (by omega), hte]
  have hsub₂ : sub32 te (4 * (argv.length + 1)) = ta := by
    rw [sub32_eq (by omega) (by omega), hta]
  simp only [Mm.createTables, ← hlow, hsub₁, hsub₂]
  rw [sub32_eq (by omega) (by omega), sub32_eq (by omega) (by omega),
    sub32_eq (by omega) (by omega)]
  clear hlow hte hta hsub₁ hsub₂
  refine (h.putFsLong files ht (hstack (ta - 4) (by omega) (by omega)) (by omega)
    (BitVec.ofNat 32 te)).bind fun _ s₁ hput₁ => ?_
  obtain ⟨h₁, hlong₁, hkeep₁⟩ := hput₁
  refine (h₁.putFsLong files ht (hstack (ta - 8) (by omega) (by omega)) (by omega)
    (BitVec.ofNat 32 ta)).bind fun _ s₂ hput₂ => ?_
  obtain ⟨h₂, hlong₂, hkeep₂⟩ := hput₂
  refine (h₂.putFsLong files ht (hstack (ta - 12) (by omega) (by omega)) (by omega)
    (BitVec.ofNat 32 argv.length)).bind fun _ s₃ hput₃ => ?_
  obtain ⟨h₃, hlong₃, hkeep₃⟩ := hput₃
  have hargs : Stored (s₃.userView slot) p (packed argv) :=
    hkeep₃.stored (hkeep₂.stored (hkeep₁.stored hstored'.1 (by omega) fun x hx _ =>
      Or.inr (by omega)) (by omega) fun x hx _ => Or.inr (by omega)) (by omega) fun x hx _ =>
        Or.inr (by omega)
  have henvs : Stored (s₃.userView slot) (p + (packed argv).length) (packed envp) :=
    hkeep₃.stored (hkeep₂.stored (hkeep₁.stored hstored'.2 (by omega) fun x hx _ =>
      Or.inr (by omega)) (by omega) fun x hx _ => Or.inr (by omega)) (by omega) fun x hx _ =>
        Or.inr (by omega)
  refine (h₃.fillTable files low ht hargs hargv (hstack ta (by omega) (by omega)) (by omega)
    (by omega) (by omega)).bind fun p₄ s₄ hfill₄ => ?_
  obtain ⟨rfl, h₄, htable₄, hkeep₄⟩ := hfill₄
  have henvs₄ := hkeep₄.stored henvs (by omega) fun x hx _ => Or.inr (by omega)
  refine (h₄.fillTable files low ht henvs₄ henvp (hstack te (by omega) (by omega)) (by omega)
    (by omega) (by omega)).bind fun p₅ s₅ hfill₅ => ?_
  obtain ⟨-, h₅, htable₅, hkeep₅⟩ := hfill₅
  refine Or.inl ⟨ta - 12, s₅, rfl, h₅, ta, te, low, ?_, by omega, ?_, ?_, by omega, by omega,
    by omega, by omega, ?_, htable₅⟩
  · exact hkeep₅.holdsLong (hkeep₄.holdsLong hlong₃ (by omega) fun x _ hx => Or.inl (by omega))
      (by omega) fun x _ hx => Or.inl (by omega)
  · rw [show ta - 12 + 4 = ta - 8 by omega]
    exact hkeep₅.holdsLong (hkeep₄.holdsLong (hkeep₃.holdsLong hlong₂ (by omega) fun x hx _ =>
      Or.inr (by omega)) (by omega) fun x _ hx => Or.inl (by omega)) (by omega) fun x _ hx =>
        Or.inl (by omega)
  · rw [show ta - 12 + 8 = ta - 4 by omega]
    exact hkeep₅.holdsLong (hkeep₄.holdsLong (hkeep₃.holdsLong (hkeep₂.holdsLong hlong₁ (by omega)
      fun x hx _ => Or.inr (by omega)) (by omega) fun x hx _ => Or.inr (by omega)) (by omega)
        fun x _ hx => Or.inl (by omega)) (by omega) fun x _ hx => Or.inl (by omega)
  · exact htable₄.keep hkeep₅ (by omega) (fun x _ hx => Or.inl (by omega))
      fun x hx => Or.inr (by omega)

/-! ### The whole way -/

/-- Enough free pages for any arguments: the argument pages, and the page table and the pages of the
end of the data segment. -/
def execPages : ℕ := maxArgPages + (stackPages + 1)

theorem ok_bind {α β : Type} {a : α} {f : α → Except ExecError β} :
    (Except.ok a >>= f) = f a := rfl

theorem HasStrings.ne_zero {tab fs : ℕ → BitVec 8} {ptr : ℕ} (h : HasStrings tab fs ptr strs) :
    ∀ str ∈ strs, ∀ b ∈ str, b ≠ 0 := by
  intro str hstr
  obtain ⟨i, hi⟩ := List.mem_iff_getElem?.mp hstr
  exact (h i str hi).2.ne_zero

/-- `do_execve` begins to copy. -/
theorem Copying.start (hinv : TaskInv files lo hi k) :
    Copying (k.mm.Free execPages) lo hi (stackPages + 1) k k.held (ArgCopy.start k.mm) := by
  have hneed : pagesNeeded (fun _ => none) = maxArgPages := by
    simp [pagesNeeded]
  refine ⟨hinv.inv, hinv.isolated, .refl k.mm, subset_rfl, fun _ _ hf => ?_, fun _ _ _ hf => ?_, ?_,
    le_rfl⟩
  · cases hf
  · cases hf
  · change k.mm.Free _ → k.mm.Free (pagesNeeded (fun _ => none) + _)
    rw [hneed]
    exact id

variable (files) in
/-- Without memory the first store to the stack kills the task. -/
theorem State.Exhausted.putFsLong (h : s.Exhausted slot) (ht : Starting k slot q) {off : ℕ}
    (hoff : InStack off) (val : Word) : ∃ s', putFsLong files k slot val off s = .oom s' := by
  have hlt : off < q.limit := by
    rw [ht.limit]
    exact hoff.2
  have hdir := (hoff.place ht.slot_range.2).1
  have htable : s.table (stackDir slot) = none := State.table_eq_none h.table
  have hempty : (s.pageOf (slotBase slot + off)).isSome = false := by
    rw [State.pageOf, hdir, State.entry_of_table_none htable]
    rfl
  have hfault : doNoPage files k slot (slotBase slot + off) s = .oom s := by
    apply doNoPage_stack ht hoff
    rw [getEmptyPage, h.free]
  have hbyte : putFsByte files k slot off (byteOf val 0) s = .oom s := by
    simp only [putFsByte, ht.task, hlt, if_true, hempty, Bool.false_eq_true, if_false]
    exact Result.bind_of_oom hfault _
  have hbytes : (List.range 4).map (byteOf val) =
      byteOf val 0 :: [byteOf val 1, byteOf val 2, byteOf val 3] := rfl
  refine ⟨s, ?_⟩
  rw [Mm.putFsLong, hbytes, putFs]
  exact Result.bind_of_oom hbyte _

variable (files) in
/-- Without memory `create_tables` kills the task. -/
theorem State.Exhausted.createTables (h : s.Exhausted slot) (ht : Starting k slot q)
    (argv envp : List (List (BitVec 8))) {p : ℕ}
    (hp : p + (packed argv).length + (packed envp).length + 4 ≤ dataLimit)
    (hlow : dataLimit < p + 4096 * maxArgPages) :
    ∃ s', createTables files k slot p argv.length envp.length s = .oom s' := by
  obtain ⟨off, hoff, hsub⟩ := createTables_first argv envp hp hlow
  obtain ⟨s', hput⟩ := h.putFsLong files ht hoff
    (BitVec.ofNat 32 (sub32 (p - p % 4) (4 * (envp.length + 1))))
  refine ⟨s', ?_⟩
  simp only [Mm.createTables, hsub]
  exact Result.bind_of_oom hput _

/-- The strings in the argument pages become those of the new program, if `create_tables` gets the
memory for the tables. -/
theorem Copying.startProgram {c : ArgCopy} {argv envp : List (List (BitVec 8))}
    (h : Copying enough lo hi (stackPages + 1) k held c) (hlo : lowMem ≤ lo)
    (hhi : hi ≤ lowMem + pagingPages) (hreach : Reachable (TaskBoot lo hi) (TaskStep files) k)
    (hslot : 1 ≤ slot ∧ slot < 64) (htask : k.task slot = some q) (files' : ℕ → Executable)
    (executable : ℕ) (hstored : Stored c.byteAt c.p (packed argv ++ packed envp))
    (hargv : ∀ str ∈ argv, ∀ b ∈ str, b ≠ 0) (henvp : ∀ str ∈ envp, ∀ b ∈ str, b ≠ 0)
    (hpos : 0 < c.p)
    (hp : c.p + (packed argv).length + (packed envp).length ≤ 4096 * maxArgPages - 4) :
    (∃ sp s' held',
      startProgram files' k slot executable q argv.length envp.length c = .ok (sp, s') ∧
      Owned enough lo hi slot held' s' ∧ ∃ argvTable envpTable low,
        StackLayout (s'.userView slot) sp argvTable envpTable low argv envp) ∨
    ¬enough ∧
      startProgram files' k slot executable q argv.length envp.length c = .error .killed := by
  have hpages := maxArgPages_eq
  have hadd := argBase_add
  obtain ⟨s₁, hfreed, howned, habsent, hmem⟩ :=
    h.freeSlot (taskReachable_inv hlo hhi hreach) hslot htask
  have hend := endData_le hlo hhi hreach htask
  have hstarting : Starting (k.setTask slot (some (q.exec (files' executable).text executable)))
      slot (q.exec (files' executable).text executable) :=
    ⟨hslot, if_pos rfl, rfl, hend⟩
  have hf : (Mm.freeSlot c.mm slot q).exec = .ok ((), s₁) := by rw [hfreed, Result.exec]
  rw [Mm.startProgram, hf, ok_bind]
  simp only
  rw [Nat.add_comm c.p argBase]
  rcases h.changeLdt hslot howned habsent hmem with ⟨held₁, howned₁, hviews⟩ | ⟨hnot, hexhausted⟩
  · have hstored' : Stored ((Mm.changeLdt slot c.page s₁).userView slot) (argBase + c.p)
        (packed argv ++ packed envp) := by
      refine hstored.shift fun x b _ hx hb => hviews x b ?_ hb
      rw [List.length_append] at hx
      omega
    rcases howned₁.createTables files' hstarting hstored' hargv henvp (by omega) (by omega) with
      ⟨sp, s', hcreate, howned', hlayout⟩ | ⟨hnot, s', hcreate⟩
    · rw [hcreate]
      exact Or.inl ⟨sp, s', held₁, rfl, howned', hlayout⟩
    · rw [hcreate]
      exact Or.inr ⟨hnot, rfl⟩
  · obtain ⟨s', hcreate⟩ := hexhausted.createTables files' hstarting argv envp
      (by omega : argBase + c.p + (packed argv).length + (packed envp).length + 4 ≤ dataLimit)
      (by omega)
    rw [hcreate]
    exact Or.inr ⟨hnot, rfl⟩

/-- The arguments of a program survive `do_execve`. -/
theorem execArgs_layout (hlo : lowMem ≤ lo) (hhi : hi ≤ lowMem + pagingPages)
    (h : Reachable (TaskBoot lo hi) (TaskStep files) k) (hslot : 1 ≤ slot ∧ slot < 64)
    (htask : k.task slot = some q) (hfree : k.mm.Free execPages) (executable : ℕ)
    {fs : ℕ → BitVec 8} {argvPtr envpPtr : ℕ} {argv envp : List (List (BitVec 8))}
    (hargv : HasTable fs argvPtr argv) (henvp : HasTable fs envpPtr envp)
    (htotal : (packed argv).length + (packed envp).length < 4096 * maxArgPages - 4) :
    ∃ sp s', execArgs files k slot executable fs argvPtr envpPtr = .ok (sp, s') ∧
      ∃ argvTable envpTable low,
        StackLayout (s'.userView slot) sp argvTable envpTable low argv envp := by
  have hpages := maxArgPages_eq
  have hargc : argv.length ≤ (packed argv).length := length_le_packed
  have henvc : envp.length ≤ (packed envp).length := length_le_packed
  have hstart := Copying.start (taskReachable_inv hlo hhi h)
  have hcalls : List.Forall₂ (HasCall (fun _ => fs) (ArgCopy.start k.mm).fs)
      [⟨envp.length, envpPtr, 0⟩, ⟨argv.length, argvPtr, 0⟩] [envp, argv] :=
    .cons ⟨rfl, henvp.1⟩ (.cons ⟨rfl, hargv.1⟩ .nil)
  have hstacked : packed (stacked [envp, argv]) = packed argv ++ packed envp := by
    simp [stacked, packed]
  have hroom : (ArgCopy.start k.mm).p = 4096 * maxArgPages - 4 := rfl
  have hcopied := hstart.copyAll rfl hcalls (by
    rw [hstacked, List.length_append, hroom]
    exact htotal)
  obtain ⟨c, hcopy, held, hc, hp, -, hstored, -⟩ := hcopied.ok hfree
  rw [hstacked, List.length_append, hroom] at hp
  rw [hstacked] at hstored
  have hstarted := hc.startProgram hlo hhi h hslot htask files executable hstored
    hargv.1.ne_zero henvp.1.ne_zero (by omega) (by omega)
  obtain ⟨sp, s', -, hrun, -, hlayout⟩ := hstarted.resolve_right fun hkilled => hkilled.1 hfree
  refine ⟨sp, s', ?_, hlayout⟩
  have hq : orElseError .killed (k.task slot) = .ok q := by rw [htask, orElseError]
  have hcount : orElseError .endless (count fs argvPtr) = .ok argv.length := by
    rw [count_eq hargv (by omega), orElseError]
  have hcount' : orElseError .endless (count fs envpPtr) = .ok envp.length := by
    rw [count_eq henvp (by omega), orElseError]
  have hne : c.p ≠ 0 := by omega
  rw [execArgs, hq, ok_bind, hcount, ok_bind, hcount', ok_bind, execCalls, hcopy, ok_bind,
    if_neg hne]
  exact hrun

/-- The memory of a caller with a table of one pointer. -/
def sampleCaller (a : ℕ) : BitVec 8 := if a = 100 then 200 else if a = 200 then 97 else 0

/-- A program with one argument and without an environment. -/
theorem execArgs_layout_sample : ∃ k sp s',
    Reachable (TaskBoot 256 4096) (TaskStep sampleFiles) k ∧
    execArgs sampleFiles k 1 1 sampleCaller 100 0 = .ok (sp, s') ∧
    ∃ argvTable envpTable low,
      StackLayout (s'.userView 1) sp argvTable envpTable low [[97#8]] [] := by
  have hk : Reachable (TaskBoot 256 4096) (TaskStep sampleFiles) sampleExeced :=
    sampleExeced_reachable fun op _ k k' hen hrun => ⟨op, hen, hrun⟩
  have hfree : sampleExeced.mm.Free execPages := .of_all (by decide) (by decide +kernel)
  have hargv : HasTable sampleCaller 100 [[97#8]] := by
    refine ⟨fun i str hi => ?_, Or.inr ⟨by decide, by decide +kernel⟩⟩
    cases i with
    | zero =>
      obtain rfl := Option.some.inj hi
      have hptr : getFsLong sampleCaller (100 + 4 * 0) = 200 := by decide +kernel
      rw [hptr]
      exact ⟨by decide, ⟨rfl, rfl, trivial⟩, by decide⟩
    | succ i => cases hi
  have henvp : HasTable sampleCaller 0 [] :=
    ⟨fun i str hi => absurd hi (by simp), Or.inl ⟨rfl, rfl⟩⟩
  obtain ⟨sp, s', hrun, hlayout⟩ := execArgs_layout (by decide) (by decide) hk (by decide)
    sampleExeced_task hfree 1 hargv henvp (by decide)
  exact ⟨sampleExeced, sp, s', hk, hrun, hlayout⟩

end LihaLinux.Mm
