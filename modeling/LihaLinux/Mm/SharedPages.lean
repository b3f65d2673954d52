import LihaLinux.Mm.TaskSteps

/-!
# Shared pages of an executable are pristine

`try_to_share` takes the dirty bit of one entry as proof that a page still has
the contents of the file. In runs where `un_wp_page` does not copy a dirty page
of the image this is right; `un_wp_page` gives the copy a clean entry, so
without that restriction it is wrong.
-/

namespace LihaLinux.Mm

variable {files : ℕ → Executable} {lo hi : ℕ} {k k' : Kernel} {s s' : State} {held : Finset ℕ}
  {d d' j t t' f slot : ℕ} {w w' : Word} {q : Task}

/-- A step that keeps the dirty bits of the images. -/
def CleanStep (files : ℕ → Executable) (k k' : Kernel) : Prop :=
  ∃ op : TaskOp, op.Enabled k ∧ op.Clean k ∧ op.run files k = some k'

/-- Both invariants in every state of every run of clean steps. -/
theorem cleanReachable_inv (hlo : lowMem ≤ lo) (hhi : hi ≤ lowMem + pagingPages)
    (h : Reachable (TaskBoot lo hi) (CleanStep files) k) :
    TaskInv files lo hi k ∧ Pristine files k.task k.mm := by
  refine Reachable.invariant (P := fun k => TaskInv files lo hi k ∧ Pristine files k.task k.mm)
    (fun _ hk => taskBoot_inv hlo hhi hk) ?_ h
  rintro k k' ⟨hk, hp⟩ ⟨op, hen, hclean, hrun⟩
  obtain ⟨hinv, hpris⟩ := TaskOp.keeps hk hen hrun
  exact ⟨hinv, hpris hclean hp⟩

/-- `try_to_share` panics where the page is present already, so it succeeds only
where it is missing. -/
theorem absent_of_tryToShare {address p : ℕ} (ha : address < 0x4000000)
    (hrun : tryToShare s address (slotBase p) (slotBase slot) = .ok true s') :
    s.pageOf (slotBase slot + address) = none := by
  obtain ⟨hdir, htab⟩ := dirIndex_slot_add slot ha
  by_contra hne
  obtain ⟨w, hw⟩ := Option.ne_none_iff_exists'.mp hne
  obtain ⟨t, ht, rfl, hpres, _⟩ := State.pageOf_iff.mp hw
  have hp := (State.table_iff.mp ht).2.1
  rw [hdir] at hp hpres
  rw [htab] at hpres
  have hshare : shareTable s (dirIndex address + dirIndex (slotBase slot)) =
      .ok (frame (s.mem 0 (dirIndex address + dirIndex (slotBase slot)))) s := by
    rw [shareTable, if_pos hp]
  unfold tryToShare at hrun
  simp only [Result.bind_of_ok hshare, hpres, if_true] at hrun
  split at hrun
  · split at hrun
    · split at hrun <;> simp at hrun
    · simp at hrun
  · simp at hrun

/-- In every run of clean steps, what `try_to_share` maps at an offset below
`end_data` is the page that `do_no_page` would have loaded. -/
theorem tryToShare_pristine (hlo : lowMem ≤ lo) (hhi : hi ≤ lowMem + pagingPages)
    (h : Reachable (TaskBoot lo hi) (CleanStep files) k) {p address e : ℕ} {q' : Task}
    (hslot : 1 ≤ slot ∧ slot < 64) (hp : 1 ≤ p ∧ p < 64) (htask : k.task slot = some q)
    (htask' : k.task p = some q') (hexe : q.executable = some e) (hexe' : q'.executable = some e)
    (halign : address % 4096 = 0) (hin : address < q.endData)
    (hrun : tryToShare k.mm address (slotBase p) (slotBase slot) = .ok true s') {x : ℕ}
    (hx : x < 4096) :
    s'.view (slotBase slot + address + x) =
      some (imageByte (files e) q.endData (address + x)) := by
  obtain ⟨hinv, hpris⟩ := cleanReachable_inv hlo hhi h
  obtain ⟨_, hle⟩ := (hinv.tasks _ _ htask).endData e hexe
  have hlt : address < 0x4000000 := by omega
  have habsent := absent_of_tryToShare hlt hrun
  have ha : InSlot slot (slotBase slot + address) := ⟨Nat.le_add_right _ _, by omega⟩
  have halign' : (slotBase slot + address) % 4096 = 0 := by
    unfold slotBase
    omega
  rcases tryToShare_slots hinv.inv hp.1 hp.2 hslot.1 hslot.2 hlt habsent with hno | hoom |
    ⟨s₁, w, hok, hmoves, hshares⟩
  · rw [hno] at hrun
    simp at hrun
  · rw [hoom] at hrun
    simp at hrun
  · obtain rfl : s₁ = s' := by
      rw [hok] at hrun
      simpa using hrun
    have hoff : slotBase slot + address - (slotBase slot + address) % 4096 - slotBase slot =
        address := by omega
    rw [← (dirIndex_slot_add slot hlt).2] at hshares
    have hpris' : Pristine files k.task s₁ :=
      hpris.shares hinv hslot.2 ha htask hexe hp.2 htask' hexe' (by rw [hoff]; exact hshares)
    have hentry : s₁.pageOf (slotBase slot + address) = some (writeProtect w) := by
      rw [State.pageOf, hshares.entry, if_pos ⟨.inr rfl, rfl⟩]
    obtain ⟨_, hbytes⟩ := hpris' _ _ _ hentry q e (by rw [ha.dir_div hslot.2]; exact htask) hexe
    rw [pageOffset_eq ha, hoff, dirty_writeProtect] at hbytes
    have hx' : InSlot slot (slotBase slot + address + x) := ⟨by omega, by omega⟩
    have hpage : s₁.pageOf (slotBase slot + address + x) = some (writeProtect w) := by
      rw [← hx'.pageOf, ← hentry]
      congr 1
      omega
    have hmod : (slotBase slot + address + x) % 4096 = x := by omega
    rw [State.view, hpage, Option.map_some, ← hbytes hshares.clean hin x hx, hmod]

/-! ### A run that loses a dirty bit

A task of an executable loads and changes a page and forks; the child calls
`verify_area` on the page, and a third task of the same executable then shares
the child's copy, whose entry is clean. -/

/-- A run of the listed steps, each of them enabled. -/
def runTaskOps (files : ℕ → Executable) : Kernel → List TaskOp → Option Kernel
  | k, [] => some k
  | k, op :: ops =>
    if op.Enabled k then (op.run files k).bind fun k => runTaskOps files k ops else none

theorem runTaskOps_reachable {init : Kernel → Prop} {step : Kernel → Kernel → Prop}
    {ops : List TaskOp}
    (hstep : ∀ op ∈ ops, ∀ k k', op.Enabled k → op.run files k = some k' → step k k') :
    ∀ {k k' : Kernel}, Reachable init step k → runTaskOps files k ops = some k' →
      Reachable init step k' := by
  induction ops with
  | nil =>
    intro k k' h hrun
    obtain rfl := Option.some.inj hrun
    exact h
  | cons op ops ih =>
    intro k k' h hrun
    rw [runTaskOps] at hrun
    split at hrun
    · next hen =>
      obtain ⟨k₁, hone, hrest⟩ := Option.bind_eq_some_iff.mp hrun
      exact ih (fun op' hop => hstep op' (List.mem_cons_of_mem op hop))
        (h.tail (hstep op List.mem_cons_self k k₁ hen hone)) hrest
    · simp at hrun

/-- The words `a .. b - 1` of a page cleared. -/
def State.zeroWords (s : State) (page a b : ℕ) : State :=
  { s with mem := fun p i => if p = page ∧ a ≤ i ∧ i < b then 0 else s.mem p i }

theorem State.highMemory_zeroWords (s : State) (page a b : ℕ) :
    (s.zeroWords page a b).highMemory = s.highMemory := rfl

theorem State.memMap_zeroWords (s : State) (page a b : ℕ) :
    (s.zeroWords page a b).memMap = s.memMap := rfl

theorem State.mem_zeroWords_of_ne (s : State) {page p : ℕ} (hp : p ≠ page) (a b : ℕ) :
    (s.zeroWords page a b).mem p = s.mem p := by
  funext i
  exact if_neg fun h => hp h.1

theorem State.zeroWords_self (s : State) (page a : ℕ) : s.zeroWords page a a = s := by
  unfold State.zeroWords
  congr
  funext p i
  rw [if_neg (by omega)]

theorem State.zeroWords_setWord (s : State) (page : ℕ) {a b : ℕ} (hab : a < b) :
    (s.setWord page a 0).zeroWords page (a + 1) b = s.zeroWords page a b := by
  simp only [State.zeroWords, State.setWord, State.mk.injEq, true_and]
  funext p i
  by_cases hp : p = page ∧ i = a
  · rw [if_neg (by omega), if_pos hp, if_pos (by omega)]
  · by_cases hr : p = page ∧ a + 1 ≤ i ∧ i < b
    · rw [if_pos hr, if_pos (by omega)]
    · rw [if_neg hr, if_neg hp, if_neg (by omega)]

/-- Freeing a page table whose entries all map pages below 1 MB clears it and
touches no counter. -/
theorem freeEntries_low {table nr : ℕ} : ∀ {index : ℕ} {s : State},
    (∀ i, index ≤ i → i < index + nr → present (s.mem table i) = true →
      frame (s.mem table i) < lowMem) →
    freeEntries table index nr s = .ok () (s.zeroWords table index (index + nr)) := by
  induction nr with
  | zero =>
    intro index s _
    rw [freeEntries, Nat.add_zero, State.zeroWords_self]
  | succ nr ih =>
    intro index s hlow
    have hfree : (if present (s.mem table index) then freePage s (frame (s.mem table index))
        else .ok () s) = .ok () s := by
      split
      · next hp => rw [freePage, if_pos (hlow index le_rfl (by omega) hp)]
      · rfl
    rw [freeEntries, hfree, Result.bind_of_ok rfl, ih, Nat.add_right_comm, Nat.add_assoc index,
      State.zeroWords_setWord s table (by omega)]
    intro i hi hi' hp
    rw [State.mem_setWord] at hp ⊢
    split at hp
    · simp at hp
    · next hne =>
      rw [if_neg hne]
      exact hlow i (by omega) (by omega) hp

/-- Executables of one page. -/
def sampleFiles (_ : ℕ) : Executable := ⟨4096, 0, 0, fun _ => 1⟩

/-- Right after boot. -/
def sampleKernel : Kernel where
  mm := sampleBoot.state
  held := ∅
  task := fun slot => if slot = 0 then some initTask else none
  iCount := fun _ => 0
  loading := fun _ => none

theorem sampleKernel_boot : TaskBoot 256 4096 sampleKernel := ⟨sampleBoot_boot, rfl, rfl⟩

/-- After the first fork. -/
def sampleForked : Kernel :=
  ((TaskOp.fork 0 1).run sampleFiles sampleKernel).getD sampleKernel

/-- The child of the first fork has its page table in the last page of memory. -/
theorem sampleForked_table : sampleForked.task 1 = some initTask ∧
    sampleForked.mm.table 16 = some 4095 ∧ present (sampleForked.mm.mem 0 16) = true ∧
    frame (sampleForked.mm.mem 0 16) = 4095 ∧ sampleForked.mm.memMap (mapNr 4095) ≠ 0 ∧
    4095 < sampleForked.mm.highMemory ∧ sampleForked.loading 1 = none := by decide +kernel

theorem sampleForked_run :
    (TaskOp.fork 0 1).run sampleFiles sampleKernel = some sampleForked := by
  have htask := sampleForked_table.1
  rw [sampleForked] at htask ⊢
  cases hrun : (TaskOp.fork 0 1).run sampleFiles sampleKernel with
  | none =>
    -- the child would be missing from the table of tasks
    rw [hrun] at htask
    cases htask
  | some k => rfl

/-- The page table of the first fork maps pages below 1 MB only. -/
theorem sampleForked_low {i : ℕ} (hi : i < 1024)
    (hp : present (sampleForked.mm.mem 4095 i) = true) :
    frame (sampleForked.mm.mem 4095 i) < lowMem := by
  have hinv : TaskInv sampleFiles 256 4096 sampleKernel :=
    (taskBoot_inv (by decide) (by decide) sampleKernel_boot).1
  have hready := hinv.forkReady (by decide : 0 < 64) rfl (by decide : 1 ≤ 1 ∧ 1 < 64) rfl
  obtain ⟨v, s', hcopy, _, _, _, _, hcase⟩ := copyMem_spec hinv.inv hready
  have hrun := sampleForked_run
  rw [TaskOp.run, show sampleKernel.task 0 = some initTask from rfl, Option.bind_some, hcopy,
    Kernel.forked] at hrun
  have hchild : (sampleForked.task 1).isSome = true := by
    rw [sampleForked_table.1]
    rfl
  rcases hcase with ⟨rfl, hcopied⟩ | ⟨rfl, _⟩
  · have hmm : s' = sampleForked.mm := by
      rw [← Option.some.inj hrun]
      rfl
    obtain ⟨hkeys, hbound⟩ := hcopied 0 (by decide)
    rw [hmm] at hkeys hbound
    have htable := sampleForked_table.2.1
    have hentry : sampleForked.mm.entry 16 i = some (sampleForked.mm.mem 4095 i) := by
      rw [State.entry_of_table htable, if_pos ⟨hi, hp⟩]
    have h160 := hbound i _ hentry
    have hkey := hkeys i h160
    rw [show 16 * 1 + 0 = 16 from rfl, hentry, Option.map_some] at hkey
    obtain ⟨u, hu, hku⟩ := Option.map_eq_some_iff.mp hkey.symm
    rw [← frame_eq_of_key hku]
    have hkernel := hinv.inv.kernel
    rw [State.sourceEntry, if_pos hkernel.dir.1, hkernel.dir.2, State.wordAt] at hu
    split at hu
    · obtain rfl := Option.some.inj hu
      exact hkernel.pages i h160
    · simp at hu
  · exfalso
    rw [← Option.some.inj hrun] at hchild
    simp [Kernel.withMm, sampleKernel] at hchild

/-- After the child of the first fork has run `exec`. -/
def sampleExeced : Kernel :=
  (sampleForked.withMm
    (((sampleForked.mm.zeroWords 4095 0 (0 + 1024)).decMap 4095).setWord 0 16 0)).setTask
    1 (some (execTask (sampleFiles 1) 1))

theorem sampleExeced_task : sampleExeced.task 1 = some (execTask (sampleFiles 1) 1) := by
  simp [sampleExeced, Kernel.setTask]

theorem freePageTables_one (s : State) :
    freePageTables s (slotBase 1) 0xa0000 = freeTables 16 1 s := by
  rw [freePageTables, if_neg (by decide), if_neg (by decide),
    show dirIndex (slotBase 1) = 16 by decide, show dirCount 0xa0000 = 1 by decide]

/-- Freeing one page table that maps pages below 1 MB only. -/
theorem freeTables_one {dir table : ℕ} (hp : present (s.mem 0 dir) = true)
    (hframe : frame (s.mem 0 dir) = table) (hlow : lowMem ≤ table)
    (hhigh : table < s.highMemory) (hcount : s.memMap (mapNr table) ≠ 0)
    (hentries : ∀ i < 1024, present (s.mem table i) = true → frame (s.mem table i) < lowMem) :
    freeTables dir 1 s =
      .ok () (((s.zeroWords table 0 (0 + 1024)).decMap table).setWord 0 dir 0) := by
  have hloop : freeEntries table 0 1024 s = .ok () (s.zeroWords table 0 (0 + 1024)) :=
    freeEntries_low fun i _ hi hp => hentries i (by omega) hp
  have hdir : (s.zeroWords table 0 (0 + 1024)).mem 0 dir = s.mem 0 dir := by
    rw [State.mem_zeroWords_of_ne s (Ne.symm (ne_kernel_page hlow).1)]
  have hfree : freePage (s.zeroWords table 0 (0 + 1024)) table =
      .ok () ((s.zeroWords table 0 (0 + 1024)).decMap table) := by
    rw [freePage, if_neg (by omega), State.highMemory_zeroWords, if_neg (by omega),
      State.memMap_zeroWords, if_pos hcount]
  rw [freeTables, if_pos hp, hframe, Result.bind_of_ok hloop, hdir, hframe,
    Result.bind_of_ok hfree, freeTables]

theorem freeTables_absent {dir : ℕ} : freeTables dir 1 (s.setWord 0 dir 0) =
    .ok () (s.setWord 0 dir 0) := by
  have hdir : present ((s.setWord 0 dir 0).mem 0 dir) = false := by simp [State.mem_setWord]
  rw [freeTables, hdir, if_neg (by decide), freeTables]

theorem freeSlot_one (h : freeTables 16 1 s = .ok () (s'.setWord 0 16 0)) :
    freeSlot s 1 initTask = .ok () (s'.setWord 0 16 0) := by
  rw [freeSlot, show initTask.codeLimit = 0xa0000 from rfl, show initTask.limit = 0xa0000 from rfl,
    Result.bind_of_ok ((freePageTables_one s).trans h), freePageTables_one, freeTables_absent]

theorem sampleExeced_run : (TaskOp.exec 1 1).run sampleFiles sampleForked = some sampleExeced := by
  obtain ⟨htask, -, hpresent, hframe, hcount, hhigh, -⟩ := sampleForked_table
  have hslot := freeSlot_one (freeTables_one hpresent hframe (by decide) hhigh hcount
    fun i hi hp => sampleForked_low hi hp)
  rw [TaskOp.run, if_neg (by decide), htask, Option.bind_some, hslot, Kernel.replaceTask,
    sampleExeced]

/-- Both a parent and a child run the executable; the parent loads its first page. -/
def sampleLoads : List TaskOp := [.fork 1 3, .noPageBegin 1 0x4000000, .noPageFinish 1]

/-- The parent stores into the page and forks again; the new child has the page
verified for writing. -/
def sampleLoses : List TaskOp := [.userStore 1 0x4000000 7, .fork 1 2, .writeVerify 2 0x8000000]

theorem sampleExeced_reachable {step : Kernel → Kernel → Prop}
    (hstep : ∀ op ∈ [TaskOp.fork 0 1, .exec 1 1], ∀ k k', op.Enabled k →
      op.run sampleFiles k = some k' → step k k') :
    Reachable (TaskBoot 256 4096) step sampleExeced := by
  refine runTaskOps_reachable hstep (.of_init sampleKernel_boot) ?_
  have hfork : (TaskOp.fork 0 1).Enabled sampleKernel := by decide
  have hexec : (TaskOp.exec 1 1).Enabled sampleForked := by
    obtain ⟨htask, -, -, -, -, -, hloading⟩ := sampleForked_table
    exact ⟨by decide, by simp [htask], hloading⟩
  rw [runTaskOps, if_pos hfork, sampleForked_run, Option.bind_some, runTaskOps, if_pos hexec,
    sampleExeced_run, Option.bind_some, runTaskOps]

/-- The byte that a third task sees after sharing the first page of the task in
slot `p`. -/
def sharedByte (p : ℕ) (k : Kernel) : Option (BitVec 8) :=
  match tryToShare k.mm 0 (slotBase p) (slotBase 3) with
  | .ok true s => s.view (slotBase 3 + 0 + 0)
  | _ => none

theorem sharedByte_eq_some {p : ℕ} {b : BitVec 8} (h : sharedByte p k = some b) :
    ∃ s', tryToShare k.mm 0 (slotBase p) (slotBase 3) = .ok true s' ∧
      s'.view (slotBase 3 + 0 + 0) = some b := by
  unfold sharedByte at h
  split at h
  · next s' hs' => exact ⟨s', hs', h⟩
  · simp at h

/-- The hypotheses of the result above are met by a run. -/
theorem tryToShare_pristine_sample : ∃ k s',
    Reachable (TaskBoot 256 4096) (CleanStep sampleFiles) k ∧
    tryToShare k.mm 0 (slotBase 1) (slotBase 3) = .ok true s' ∧
    s'.view (slotBase 3 + 0 + 0) = some (imageByte (sampleFiles 1) 4096 (0 + 0)) := by
  have hclean : ∀ op ∈ [TaskOp.fork 0 1, .exec 1 1] ++ sampleLoads, ∀ k k', op.Enabled k →
      op.run sampleFiles k = some k' → CleanStep sampleFiles k k' := by
    intro op hop k k' hen hrun
    refine ⟨op, hen, ?_, hrun⟩
    simp only [sampleLoads, List.cons_append, List.nil_append, List.mem_cons, List.not_mem_nil,
      or_false] at hop
    rcases hop with rfl | rfl | rfl | rfl | rfl <;> trivial
  have hstart := sampleExeced_reachable fun op hop => hclean op (List.mem_append_left _ hop)
  have hcheck : (runTaskOps sampleFiles sampleExeced sampleLoads).any (fun k =>
      decide ((sharedByte 1 k).isSome = true ∧ k.task 3 = some (execTask (sampleFiles 1) 1) ∧
        k.task 1 = some (execTask (sampleFiles 1) 1))) = true := by decide +kernel
  obtain ⟨k, hk, hall⟩ := (Option.any_eq_true _ _).mp hcheck
  obtain ⟨hshared, hchild, hparent⟩ := of_decide_eq_true hall
  obtain ⟨b, hbyte⟩ := Option.isSome_iff_exists.mp hshared
  have hreach := runTaskOps_reachable (fun op hop => hclean op (List.mem_append_right _ hop))
    hstart hk
  obtain ⟨s', hs', _⟩ := sharedByte_eq_some hbyte
  exact ⟨k, s', hreach, hs', tryToShare_pristine (by decide) (by decide) hreach
    (by decide) (by decide) hchild hparent rfl rfl rfl (by decide) hs' (by decide)⟩

set_option maxRecDepth 4000 in
/-- Without the restriction the result fails: the copy that `verify_area` made of
a changed page is shared as if it were the file's. -/
theorem tryToShare_not_pristine : ∃ k s',
    Reachable (TaskBoot 256 4096) (TaskStep sampleFiles) k ∧
    k.task 2 = some (execTask (sampleFiles 1) 1) ∧ k.task 3 = some (execTask (sampleFiles 1) 1) ∧
    tryToShare k.mm 0 (slotBase 2) (slotBase 3) = .ok true s' ∧
    s'.view (slotBase 3 + 0 + 0) ≠ some (imageByte (sampleFiles 1) 4096 (0 + 0)) := by
  have hstep : ∀ (ops : List TaskOp), ∀ op ∈ ops, ∀ k k', op.Enabled k →
      op.run sampleFiles k = some k' → TaskStep sampleFiles k k' :=
    fun _ op _ _ _ hen hrun => ⟨op, hen, hrun⟩
  have hcheck : (runTaskOps sampleFiles sampleExeced (sampleLoads ++ sampleLoses)).any (fun k =>
      decide (sharedByte 2 k = some 7#8 ∧ k.task 2 = some (execTask (sampleFiles 1) 1) ∧
        k.task 3 = some (execTask (sampleFiles 1) 1))) = true := by decide +kernel
  obtain ⟨k, hk, hall⟩ := (Option.any_eq_true _ _).mp hcheck
  obtain ⟨hbyte, hcopy, hother⟩ := of_decide_eq_true hall
  have hreach := runTaskOps_reachable (hstep _) (sampleExeced_reachable (hstep _)) hk
  obtain ⟨s', hs', hview⟩ := sharedByte_eq_some hbyte
  refine ⟨k, s', hreach, hcopy, hother, hs', ?_⟩
  rw [hview]
  decide

end LihaLinux.Mm
