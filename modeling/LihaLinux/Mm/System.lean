import LihaLinux.Lib.Transition
import LihaLinux.Mm.Slots

/-!
# Runs of the memory manager

The operations the rest of the kernel makes on `mm/memory.c`, with what their
callers guarantee, as a transition system that starts after `mem_init`. The
main results: in every reachable state `mem_map` is the exact number of
references, and a user store is seen by no other task.
-/

namespace LihaLinux.Mm

variable {lo hi : ℕ} {s : State} {held : Finset ℕ} {d d' j t t' f : ℕ} {w : Word}

/-! ### Write faults and user stores -/

/-- `do_wp_page` on a present page. -/
theorem doWpPage_spec (h : Inv lo hi ⟨s, held⟩) {address : ℕ} (hw : s.pageOf address = some w) :
    (doWpPage s address = .oom s ∧ getFreePage s = none) ∨
    ∃ s' v, doWpPage s address = .ok () s' ∧ Moves ⟨s, held⟩ ⟨s', held⟩ ∧
      Rewrites (dirIndex address) (tableIndex address) (some v) s s' ∧ s'.mem 0 = s.mem 0 ∧
      writable v = true ∧ s'.mem (frame v) = s.mem (frame w) ∧
      (v = w ||| 2#32 ∧ lowMem ≤ frame w ∧ s.memMap (mapNr (frame w)) = 1 ∨
        dirty v = false ∧ ¬s.Mapped (frame v) ∧ lowMem ≤ frame v ∧
          ¬(lowMem ≤ frame w ∧ s.memMap (mapNr (frame w)) = 1)) := by
  obtain ⟨t, ht, rfl, _, _⟩ := State.pageOf_iff.mp hw
  exact unWpPage_spec h ht hw

/-- A user-mode store to a present page: a read-only page first faults into
`do_wp_page`, and the store is then retried. -/
def userStore (s : State) (address : ℕ) (b : BitVec 8) : Result Unit :=
  if writable (s.mem (frame (s.mem 0 (dirIndex address))) (tableIndex address)) then
    .ok () (writeByte s address b)
  else (doWpPage s address).bind fun _ s => .ok () (writeByte s address b)

/-- The page of a write fault has the same content as before. -/
theorem view_of_rewrite {v : Word} {s s' : State} {address : ℕ}
    (hrew : Rewrites (dirIndex address) (tableIndex address) (some v) s s')
    (hdir : s'.mem 0 = s.mem 0) (hw : s.pageOf address = some w)
    (hcontent : s'.mem (frame v) = s.mem (frame w)) (a : ℕ) : s'.view a = s.view a := by
  by_cases hplace : dirIndex a = dirIndex address ∧ tableIndex a = tableIndex address
  · have hpage : s.pageOf a = some w := by
      rw [← hw, State.pageOf, State.pageOf, hplace.1, hplace.2]
    have hpage' : s'.pageOf a = some v := by
      rw [State.pageOf, hplace.1, hplace.2, hrew.self]
    unfold State.view
    rw [hpage, hpage', Option.map_some, Option.map_some]
    unfold State.byte
    rw [hcontent]
  · exact hrew.view hplace (.inl hdir)

/-- A user store: the byte is changed in the task's own view and in no other. -/
theorem userStore_spec (h : Inv lo hi ⟨s, held⟩) (hp : s.Private) {address : ℕ}
    (hlt : address < 2 ^ 32) (hw : s.pageOf address = some w) (b : BitVec 8) :
    (userStore s address b = .oom s ∧ getFreePage s = none) ∨
    ∃ s', userStore s address b = .ok () s' ∧ Moves ⟨s, held⟩ ⟨s', held⟩ ∧
      ∀ a < 2 ^ 32, s'.view a = if a = address then some b else s.view a := by
  obtain ⟨t, ht, rfl, _, hmem⟩ := State.pageOf_iff.mp hw
  by_cases hwr : writable w = true
  · right
    obtain ⟨hhigh, honly⟩ := hp _ _ w hw hwr
    refine ⟨writeByte s address b, ?_, .single (writeByte_move hw hhigh b), fun a ha => ?_⟩
    · rw [userStore, hmem, if_pos hwr]
    · exact view_writeByte h hw hhigh b hlt honly ha
  · rcases doWpPage_spec h hw with ⟨hoom, hget⟩ |
      ⟨s₁, v, hok, hmoves, hrew, hdir, hwv, hcontent, _⟩
    · left
      rw [userStore, hmem, if_neg hwr, hoom]
      exact ⟨rfl, hget⟩
    · right
      have h1 := Moves.inv hmoves h
      have hw1 : s₁.pageOf address = some v := hrew.self
      obtain ⟨hhigh, honly⟩ := Moves.private hmoves h hp _ _ v hw1 hwv
      refine ⟨writeByte s₁ address b, ?_, hmoves.tail (writeByte_move hw1 hhigh b), fun a ha => ?_⟩
      · rw [userStore, hmem, if_neg hwr, hok]
        rfl
      · rw [view_writeByte h1 hw1 hhigh b hlt honly ha,
          view_of_rewrite hrew hdir hw hcontent]

/-- `write_verify` at any linear address of a task slot. -/
theorem writeVerify_spec (h : Inv lo hi ⟨s, held⟩) {address : ℕ} (ha : UserAddress address) :
    (writeVerify s address = .oom s ∧ getFreePage s = none) ∨
    (writeVerify s address = .ok () s ∧ ∀ w, s.pageOf address = some w → writable w = true) ∨
    ∃ s' w v, writeVerify s address = .ok () s' ∧ s.pageOf address = some w ∧
      writable w = false ∧ Moves ⟨s, held⟩ ⟨s', held⟩ ∧
      Rewrites (dirIndex address) (tableIndex address) (some v) s s' ∧ s'.mem 0 = s.mem 0 ∧
      writable v = true ∧ s'.mem (frame v) = s.mem (frame w) ∧
      (v = w ||| 2#32 ∧ lowMem ≤ frame w ∧ s.memMap (mapNr (frame w)) = 1 ∨
        dirty v = false ∧ ¬s.Mapped (frame v) ∧ lowMem ≤ frame v ∧
          ¬(lowMem ≤ frame w ∧ s.memMap (mapNr (frame w)) = 1)) := by
  by_cases hdir : present (s.mem 0 (dirIndex address)) = true
  · have ht := State.table_eq_some ha.mem_taskDirs hdir
    by_cases hro : 3#32 &&& s.mem (frame (s.mem 0 (dirIndex address))) (tableIndex address) = 1#32
    · obtain ⟨hpres, hnw⟩ := (three_and_eq_one_iff _).mp hro
      have hw : s.pageOf address = some (s.mem (frame (s.mem 0 (dirIndex address)))
          (tableIndex address)) := State.pageOf_iff.mpr ⟨_, ht, rfl, hpres, rfl⟩
      have hrun : writeVerify s address = doWpPage s address := by
        rw [writeVerify, if_pos hdir, if_pos hro, doWpPage]
      rw [hrun]
      rcases doWpPage_spec h hw with hoom | ⟨s', v, hok, hrest⟩
      · exact .inl hoom
      · exact .inr (.inr ⟨s', _, v, hok, hw, hnw, hrest⟩)
    · refine .inr (.inl ⟨by rw [writeVerify, if_pos hdir, if_neg hro], fun w hw => ?_⟩)
      obtain ⟨t, _, rfl, hpres, hmem⟩ := State.pageOf_iff.mp hw
      rw [three_and_eq_one_iff, hmem] at hro
      rw [hmem] at hpres
      simpa [hpres] using hro
  · refine .inr (.inl ⟨by rw [writeVerify, if_neg hdir], fun w hw => ?_⟩)
    obtain ⟨t, ht, _⟩ := State.pageOf_iff.mp hw
    exact absurd (State.table_iff.mp ht).2.1 hdir

/-! ### The transition system -/

/-- The operations of a run. -/
inductive Op
  | getFreePage
  | freePage (page : ℕ)
  | putPage (page address : ℕ)
  | copyPageTables (fromSlot toSlot size : ℕ)
  | copyMem (fromSlot toSlot limit : ℕ)
  | freePageTables (slot size : ℕ)
  | doWpPage (address : ℕ)
  | writeVerify (address : ℕ)
  | getEmptyPage (address : ℕ)
  | tryToShare (address slot current : ℕ)
  | userStore (address : ℕ) (b : BitVec 8)

/-- What the callers guarantee. A frame is freed or mapped by the kernel only
while the kernel holds it; pages are mapped at addresses that are not present;
a fork goes into an empty slot. -/
def Op.Enabled (c : Config) : Op → Prop
  | .getFreePage => True
  | .freePage page => page ∈ c.held
  | .putPage page address =>
    page ∈ c.held ∧ UserAddress address ∧ c.state.pageOf address = none
  | .copyPageTables fromSlot toSlot size => ForkReady c.state fromSlot toSlot size
  | .copyMem fromSlot toSlot size => ForkReady c.state fromSlot toSlot size
  | .freePageTables slot size => 1 ≤ slot ∧ slot < 64 ∧ size ≤ 0x4000000
  | .doWpPage address => c.state.pageOf address ≠ none
  | .writeVerify address => UserAddress address
  | .getEmptyPage address => UserAddress address ∧ c.state.pageOf address = none
  | .tryToShare address slot current =>
    1 ≤ slot ∧ slot < 64 ∧ 1 ≤ current ∧ current < 64 ∧ address < 0x4000000 ∧
      c.state.pageOf (slotBase current + address) = none
  | .userStore address _ => UserAddress address ∧ c.state.pageOf address ≠ none

/-- The result of an operation; the value is the set of frames the kernel holds
afterwards. -/
def Op.run (c : Config) : Op → Result (Finset ℕ)
  | .getFreePage =>
    match Mm.getFreePage c.state with
    | none => .ok c.held c.state
    | some (page, s) => .ok (insert page c.held) s
  | .freePage page => (Mm.freePage c.state page).bind fun _ s => .ok (c.held.erase page) s
  | .putPage page address =>
    match Mm.putPage c.state page address with
    | (0, s) => .ok c.held s
    | (_ + 1, s) => .ok (c.held.erase page) s
  | .copyPageTables fromSlot toSlot size =>
    (Mm.copyPageTables c.state (slotBase fromSlot) (slotBase toSlot) size).bind
      fun _ s => .ok c.held s
  | .copyMem fromSlot toSlot limit =>
    (Mm.copyMem c.state (slotBase fromSlot) (slotBase toSlot) limit).bind fun _ s => .ok c.held s
  | .freePageTables slot size =>
    (Mm.freePageTables c.state (slotBase slot) size).bind fun _ s => .ok c.held s
  | .doWpPage address => (Mm.doWpPage c.state address).bind fun _ s => .ok c.held s
  | .writeVerify address => (Mm.writeVerify c.state address).bind fun _ s => .ok c.held s
  | .getEmptyPage address => (Mm.getEmptyPage c.state address).bind fun _ s => .ok c.held s
  | .tryToShare address slot current =>
    (Mm.tryToShare c.state address (slotBase slot) (slotBase current)).bind
      fun _ s => .ok c.held s
  | .userStore address b => (Mm.userStore c.state address b).bind fun _ s => .ok c.held s

/-- The configuration after an operation, unless the kernel panicked. A task
killed by `oom` leaves its page tables to the `free_page_tables` of `do_exit`. -/
def Result.config (held : Finset ℕ) : Result (Finset ℕ) → Option Config
  | .ok held' s => some ⟨s, held'⟩
  | .oom s => some ⟨s, held⟩
  | .panic _ => none

/-- One step of a run. -/
def Step (c c' : Config) : Prop := ∃ op : Op, op.Enabled c ∧ (op.run c).config c.held = some c'

/-- The state after `setup_paging` and `mem_init(start_mem,end_mem)`, for any
contents of the rest of memory. -/
def Boot (lo hi : ℕ) (c : Config) : Prop :=
  ∃ s, c = ⟨memInit (setupPaging s) lo hi, ∅⟩

/-! ### Boot -/

theorem memMap_memInit (s : State) (startMem endMem n : ℕ) :
    (memInit s startMem endMem).memMap n =
      if mapNr startMem ≤ n ∧ n < mapNr startMem + (endMem - startMem) then 0 else used := by
  simp only [memInit]

/-- The page tables right after boot: no task has any. -/
theorem boot_table (s : State) (lo hi : ℕ) :
    (memInit (setupPaging s) lo hi).table = fun _ => none := by
  funext d
  unfold State.table
  rw [if_neg]
  rintro ⟨hd, hp⟩
  have := mem_taskDirs.mp hd
  simp [memInit, setupPaging, show ¬d < 4 by omega] at hp

theorem boot_kernelMapped (s : State) (lo hi : ℕ) :
    (memInit (setupPaging s) lo hi).KernelMapped where
  dir := ⟨present_fresh 1, frame_fresh (by norm_num)⟩
  pages := by
    intro i hi160
    have hword : (memInit (setupPaging s) lo hi).mem 1 i = pageAddr i ||| 7#32 := by
      simp [memInit, setupPaging]
    rw [hword, frame_fresh (by norm_num; omega)]
    unfold lowMem
    omega
  tables := by
    intro d hd hp
    by_cases h4 : d < 4
    · have hword : (memInit (setupPaging s) lo hi).mem 0 d = pageAddr (d + 1) ||| 7#32 := by
        simp [memInit, setupPaging, h4]
      rw [hword, frame_fresh (by norm_num; omega)]
      refine ⟨⟨by omega, by unfold lowMem; omega⟩, fun j _ => ?_⟩
      have hentry : (memInit (setupPaging s) lo hi).mem (d + 1) j =
          pageAddr (d * 1024 + j) ||| 7#32 := by
        simp [memInit, setupPaging, show d + 1 < 5 by omega]
      rw [hentry, writable_fresh]
    · simp [memInit, setupPaging, h4] at hp

theorem boot_entry (s : State) (lo hi d j : ℕ) :
    (memInit (setupPaging s) lo hi).entry d j = none := by
  rw [State.entry_of_table_none]
  rw [boot_table]

/-- The invariant holds after `mem_init`. -/
theorem boot_inv {c : Config} (hlo : lowMem ≤ lo) (hhi : hi ≤ lowMem + pagingPages)
    (h : Boot lo hi c) : Inv lo hi c := by
  obtain ⟨s, rfl⟩ := h
  refine ⟨hlo, hhi, rfl, ?_, ?_, ?_, boot_kernelMapped s lo hi⟩
  · constructor <;> simp [boot_entry, boot_table]
  · intro f hf hf'
    have hin : mapNr lo ≤ mapNr f ∧ mapNr f < mapNr lo + (hi - lo) := by
      unfold mapNr
      omega
    rw [memMap_memInit, if_pos hin, Refs.count_eq_zero]
    all_goals simp [boot_entry, boot_table]
  · intro f hf _ hout
    have hnot : ¬(mapNr lo ≤ mapNr f ∧ mapNr f < mapNr lo + (hi - lo)) := by
      unfold mapNr
      omega
    rw [memMap_memInit, if_neg hnot]
    decide

/-! ### Every operation is a sequence of moves -/

/-- An operation returns, possibly by killing the task, and makes moves only. -/
def Op.Good (c : Config) (op : Op) : Prop :=
  ∃ c', (op.run c).config c.held = some c' ∧ Moves c c'

theorem good_of_moves {c : Config} {op : Op} {s' : State} {held' : Finset ℕ}
    (hrun : op.run c = .ok held' s') (hmoves : Moves c ⟨s', held'⟩) : op.Good c :=
  ⟨⟨s', held'⟩, by rw [hrun]; rfl, hmoves⟩

theorem good_of_oom {c : Config} {op : Op} {s' : State} (hrun : op.run c = .oom s')
    (hmoves : Moves c ⟨s', c.held⟩) : op.Good c := ⟨⟨s', c.held⟩, by rw [hrun]; rfl, hmoves⟩

theorem dirIndex_slot_add (slot : ℕ) {address : ℕ} (ha : address < 0x4000000) :
    dirIndex (slotBase slot + address) = dirIndex address + dirIndex (slotBase slot) ∧
      tableIndex (slotBase slot + address) = tableIndex address := by
  simp only [dirIndex_eq, tableIndex_eq, slotBase]
  omega

theorem Op.good_tryToShare (h : Inv lo hi ⟨s, held⟩) {address slot current : ℕ}
    (hen : (Op.tryToShare address slot current).Enabled ⟨s, held⟩) :
    (Op.tryToShare address slot current).Good ⟨s, held⟩ := by
  obtain ⟨_, hslot', _, hcur', ha, hempty⟩ := hen
  have hdir := dirIndex_slot_add current ha
  have hlt : dirIndex address < 16 := by
    rw [dirIndex_eq]
    omega
  rw [State.pageOf, hdir.1, hdir.2] at hempty
  have hbase := dirIndex_slotBase hslot'
  have hbase' := dirIndex_slotBase hcur'
  have hfrom : dirIndex address + dirIndex (slotBase slot) ∈ taskDirs :=
    mem_taskDirs.mpr ⟨by omega, by omega⟩
  have hto : dirIndex address + dirIndex (slotBase current) ∈ taskDirs :=
    mem_taskDirs.mpr ⟨by omega, by omega⟩
  rcases tryToShare_spec h hfrom hto (by omega) hempty with
    hno | ⟨hoom, _⟩ | ⟨s', w, hok, hmoves, _⟩
  · exact good_of_moves (Result.bind_of_ok hno _) .refl
  · exact good_of_oom (Result.bind_of_oom hoom _) .refl
  · exact good_of_moves (Result.bind_of_ok hok _) hmoves

/-- Every enabled operation is a sequence of moves; in particular none panics. -/
theorem Op.good (h : Inv lo hi ⟨s, held⟩) (hp : s.Private) {op : Op}
    (hen : op.Enabled ⟨s, held⟩) : op.Good ⟨s, held⟩ := by
  cases op with
  | getFreePage =>
    cases hget : Mm.getFreePage s with
    | none => exact good_of_moves (by simp only [Op.run, hget]) .refl
    | some res =>
      exact good_of_moves (by simp only [Op.run, hget]) (.single (getFreePage_spec h hget).1)
  | freePage page =>
    exact good_of_moves (Result.bind_of_ok (freePage_held h hen) _)
      (.single (.drop hen))
  | putPage page address =>
    obtain ⟨hf, ha, hempty⟩ := hen
    rcases putPage_spec h hf ha hempty with ⟨hput, _⟩ | ⟨s', hput, hmoves, _⟩
    · exact good_of_moves (by simp only [Op.run, hput]) .refl
    · obtain ⟨n, rfl⟩ := Nat.exists_eq_succ_of_ne_zero (h.held_ge_two hf).1
      exact good_of_moves (by simp only [Op.run, hput]) hmoves
  | copyPageTables fromSlot toSlot size =>
    obtain ⟨v, s', hrun, _, hmoves, _⟩ := copyPageTables_spec h hen
    exact good_of_moves (Result.bind_of_ok hrun _) hmoves
  | copyMem fromSlot toSlot limit =>
    obtain ⟨v, s', hrun, hmoves, _⟩ := copyMem_spec h hen
    exact good_of_moves (Result.bind_of_ok hrun _) hmoves
  | freePageTables slot size =>
    obtain ⟨hslot, hlt, hsize⟩ := hen
    obtain ⟨s', hrun, hmoves, _⟩ := freePageTables_spec h hslot hlt hsize
    exact good_of_moves (Result.bind_of_ok hrun _) hmoves
  | doWpPage address =>
    obtain ⟨w, hw⟩ := Option.ne_none_iff_exists'.mp hen
    rcases doWpPage_spec h hw with ⟨hoom, _⟩ | ⟨s', v, hok, hmoves, _⟩
    · exact good_of_oom (Result.bind_of_oom hoom _) .refl
    · exact good_of_moves (Result.bind_of_ok hok _) hmoves
  | writeVerify address =>
    rcases writeVerify_spec h hen with ⟨hoom, _⟩ | ⟨hok, _⟩ | ⟨s', w, v, hok, _, _, hmoves, _⟩
    · exact good_of_oom (Result.bind_of_oom hoom _) .refl
    · exact good_of_moves (Result.bind_of_ok hok _) .refl
    · exact good_of_moves (Result.bind_of_ok hok _) hmoves
  | getEmptyPage address =>
    rcases getEmptyPage_spec h hen.1 hen.2 with ⟨s', hoom, hmoves, _⟩ | ⟨s', f, hok, hmoves, _⟩
    · exact good_of_oom (Result.bind_of_oom hoom _) hmoves
    · exact good_of_moves (Result.bind_of_ok hok _) hmoves
  | tryToShare address slot current => exact Op.good_tryToShare h hen
  | userStore address b =>
    obtain ⟨ha, hpage⟩ := hen
    obtain ⟨w, hw⟩ := Option.ne_none_iff_exists'.mp hpage
    rcases userStore_spec h hp ha.2 hw b with ⟨hoom, _⟩ | ⟨s', hok, hmoves, _⟩
    · exact good_of_oom (Result.bind_of_oom hoom _) .refl
    · exact good_of_moves (Result.bind_of_ok hok _) hmoves

/-- Every reachable configuration has exact counters and private writable frames. -/
theorem reachable_inv (hlo : lowMem ≤ lo) (hhi : hi ≤ lowMem + pagingPages) {c : Config}
    (h : Reachable (Boot lo hi) Step c) : Inv lo hi c ∧ c.state.Private := by
  refine Reachable.invariant (P := fun c => Inv lo hi c ∧ c.state.Private) ?_ ?_ h
  · rintro c hboot
    refine ⟨boot_inv hlo hhi hboot, ?_⟩
    obtain ⟨s, rfl⟩ := hboot
    intro d j w hw
    rw [boot_entry] at hw
    simp at hw
  · rintro c c' ⟨hinv, hpriv⟩ ⟨op, hen, hrun⟩
    obtain ⟨c₁, hrun₁, hmoves⟩ := Op.good hinv hpriv hen
    obtain rfl : c₁ = c' := by
      rw [hrun] at hrun₁
      simpa using hrun₁.symm
    exact ⟨Moves.inv hmoves hinv, Moves.private hmoves hinv hpriv⟩

/-! ### Reference counts and isolation over whole runs -/

/-- In every reachable configuration the counter of each frame is the number of
its references; `get_free_page` returns unreferenced frames only, and no
operation panics. -/
theorem memMap_eq_references (hlo : lowMem ≤ lo) (hhi : hi ≤ lowMem + pagingPages) {c : Config}
    (h : Reachable (Boot lo hi) Step c) :
    (∀ f, lo ≤ f → f < hi → c.state.memMap (mapNr f) = c.refs.count f) ∧
    (∀ f s', getFreePage c.state = some (f, s') → (lo ≤ f ∧ f < hi) ∧
      (∀ d j, c.refs.pte d j ≠ some f) ∧ (∀ d, c.refs.dir d ≠ some f) ∧ f ∉ c.held) ∧
    ∀ op : Op, op.Enabled c → ∀ reason, op.run c ≠ .panic reason := by
  obtain ⟨hinv, hpriv⟩ := reachable_inv hlo hhi h
  refine ⟨hinv.counts, fun f s' hget => ?_, fun op hen reason hpanic => ?_⟩
  · obtain ⟨hlow, hlt, hzero, _⟩ := getFreePage_some hget
    exact hinv.free_frame hlow hlt hzero
  · obtain ⟨c', hrun, _⟩ := Op.good hinv hpriv hen
    rw [hpanic] at hrun
    simp [Result.config] at hrun

/-- A machine with 16 MB, all of it above 1 MB for the allocator, and cleared memory. -/
def sampleBoot : Config := ⟨memInit (setupPaging ⟨0, fun _ => 0, fun _ _ => 0⟩) 256 4096, ∅⟩

theorem sampleBoot_boot : Boot 256 4096 sampleBoot := ⟨_, rfl⟩

/-- The configuration after a list of operations, if all of them return. -/
def runOps (c : Config) : List Op → Option Config
  | [] => some c
  | op :: ops => ((op.run c).config c.held).bind fun c => runOps c ops

/-- One page mapped in slot 1. -/
def sampleOps : List Op := [.getEmptyPage 0x4000000]

theorem sampleOps_reachable : ∃ c, runOps sampleBoot sampleOps = some c ∧
    Reachable (Boot 256 4096) Step c := by
  have hsome : (runOps sampleBoot sampleOps).isSome = true := by decide +kernel
  obtain ⟨c, hc⟩ := Option.isSome_iff_exists.mp hsome
  refine ⟨c, hc, (Reachable.of_init sampleBoot_boot).tail ⟨.getEmptyPage 0x4000000, ?_, ?_⟩⟩
  · exact ⟨by decide, by decide +kernel⟩
  · simpa [runOps, sampleOps] using hc

theorem memMap_eq_references_sample : ∃ c, runOps sampleBoot sampleOps = some c ∧
    c.state.memMap (mapNr 4095) = c.refs.count 4095 := by
  obtain ⟨c, hc, hreach⟩ := sampleOps_reachable
  exact ⟨c, hc,
    (memMap_eq_references (by decide) (by decide) hreach).1 4095 (by decide) (by decide)⟩

/-- In every reachable configuration a writable entry maps a frame above 1 MB with
counter 1 that no other entry maps, and a user store changes the addressed byte
of its own task and no other byte of any task. -/
theorem userStore_isolated (hlo : lowMem ≤ lo) (hhi : hi ≤ lowMem + pagingPages) {c : Config}
    (h : Reachable (Boot lo hi) Step c) :
    (∀ d j w, c.state.entry d j = some w → writable w = true →
      lowMem ≤ frame w ∧ c.state.memMap (mapNr (frame w)) = 1 ∧
        ∀ d' j' w', c.state.entry d' j' = some w' → frame w' = frame w → d' = d ∧ j' = j) ∧
    ∀ address b, UserAddress address → c.state.pageOf address ≠ none →
      userStore c.state address b = .oom c.state ∨
      ∃ s', userStore c.state address b = .ok () s' ∧ s'.view address = some b ∧
        ∀ a, UserAddress a → a ≠ address → s'.view a = c.state.view a := by
  obtain ⟨hinv, hpriv⟩ := reachable_inv hlo hhi h
  constructor
  · intro d j w hw hwr
    obtain ⟨hhigh, honly⟩ := hpriv d j w hw hwr
    exact ⟨hhigh, hinv.memMap_eq_one hw hhigh honly, honly⟩
  · intro address b ha hpage
    obtain ⟨w, hw⟩ := Option.ne_none_iff_exists'.mp hpage
    rcases userStore_spec hinv hpriv ha.2 hw b with ⟨hoom, _⟩ | ⟨s', hok, _, hview⟩
    · exact .inl hoom
    · refine .inr ⟨s', hok, ?_, fun a ha' hne => ?_⟩
      · rw [hview address ha.2, if_pos rfl]
      · rw [hview a ha'.2, if_neg hne]

theorem userStore_isolated_sample : ∃ c, runOps sampleBoot sampleOps = some c ∧
    ∃ s', userStore c.state 0x4000123 7#8 = .ok () s' ∧ s'.view 0x4000123 = some 7#8 := by
  obtain ⟨c, hc, hreach⟩ := sampleOps_reachable
  have hpage : (runOps sampleBoot sampleOps).map (fun c => (c.state.pageOf 0x4000123).isSome) =
      some true := by decide +kernel
  rw [hc, Option.map_some, Option.some_inj] at hpage
  have hstore := (userStore_isolated (by decide) (by decide) hreach).2 0x4000123 7#8 (by decide)
    (by intro hnone; simp [hnone] at hpage)
  have hnooom : (runOps sampleBoot sampleOps).map (fun c =>
      match userStore c.state 0x4000123 7#8 with | .oom _ => true | _ => false) = some false := by
    decide +kernel
  rw [hc, Option.map_some, Option.some_inj] at hnooom
  rcases hstore with hoom | ⟨s', hok, hview, _⟩
  · simp [hoom] at hnooom
  · exact ⟨c, hc, s', hok, hview⟩

end LihaLinux.Mm
