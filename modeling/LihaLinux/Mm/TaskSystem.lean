import LihaLinux.Mm.TaskFaults

/-!
# Runs of tasks

The transition system of the task table and the memory manager: forks, execs
and exits, demand loads, write faults, user stores and kernel stores, in any
order. A demand load is two steps, because `bread_page` sleeps. A task killed
by `oom` exits. `exec` is one step; the pages of its arguments are put where
the new program has no image.
-/

namespace LihaLinux.Mm

/-- The steps of a run of tasks. -/
inductive TaskOp
  | getFreePage
  | freePage (page : ℕ)
  | putPage (page address : ℕ)
  | fork (slot toSlot : ℕ)
  | exec (slot executable : ℕ)
  | exit (slot : ℕ)
  | noPageBegin (slot address : ℕ)
  | noPageFinish (slot : ℕ)
  | doWpPage (slot address : ℕ)
  | writeVerify (slot address : ℕ)
  | userStore (slot address : ℕ) (b : BitVec 8)
  | kernelStore (slot address : ℕ) (b : BitVec 8)
  | setCount (iCount : ℕ → ℕ)

/-- The two calls of `free_page_tables` in `do_exit` and in `do_execve`. -/
def freeSlot (s : State) (slot : ℕ) (t : Task) : Result Unit :=
  (freePageTables s (slotBase slot) t.codeLimit).bind fun _ s =>
    freePageTables s (slotBase slot) t.limit

/-- Assign a slot of the task table after its memory was freed. -/
def Kernel.replaceTask (k : Kernel) (slot : ℕ) (new : Option Task) : Result Unit → Option Kernel
  | .ok _ s => some ((k.withMm s).setTask slot new)
  | _ => none

/-- The memory side of `do_exit`. -/
def exitSlot (k : Kernel) (slot : ℕ) : Option Kernel :=
  (k.task slot).bind fun t => k.replaceTask slot none (freeSlot k.mm slot t)

/-- The task table after `copy_mem`: a fork without memory leaves the slot free. -/
def Kernel.forked (k : Kernel) (toSlot : ℕ) (t : Task) : Result ℤ → Option Kernel
  | .ok v s => some (if v = 0 then (k.withMm s).setTask toSlot (some t) else k.withMm s)
  | _ => none

/-- Continue a task after a call on its behalf; `oom` makes it exit. -/
def Kernel.after (k : Kernel) (slot : ℕ) : Result Unit → Option Kernel
  | .ok _ s => some (k.withMm s)
  | .oom s => exitSlot (k.withMm s) slot
  | .panic _ => none

/-- The first half of `do_no_page` done: the fault is served, or the task sleeps. -/
def Kernel.begun (k : Kernel) (slot address : ℕ) : Result (Option ℕ) → Option Kernel
  | .ok none s => some (k.withMm s)
  | .ok (some page) s =>
    some ({ k with mm := s, held := insert page k.held }.setLoading slot (some (address, page)))
  | .oom s => exitSlot (k.withMm s) slot
  | .panic _ => none

/-- The task after a successful `do_execve`. -/
def execTask (file : Executable) (executable : ℕ) : Task where
  executable := some executable
  endData := file.text + file.data
  codeLimit := (file.text + 4095) / 4096 * 4096
  limit := 0x4000000

/-- No task waits for the contents of this page. -/
def Kernel.NotLoading (k : Kernel) (page : ℕ) : Prop :=
  ∀ slot ∈ List.range 64, ∀ l ∈ k.loading slot, l.2 ≠ page
  deriving Decidable

/-- What the callers and the hardware guarantee: a task acts while it is not
asleep, and inside its segment; faults on missing pages happen at missing
pages. A kernel store is made to a page that is writable. -/
def TaskOp.Enabled (k : Kernel) : TaskOp → Prop
  | .getFreePage => True
  | .freePage page => page ∈ k.held ∧ k.NotLoading page
  | .putPage page address => (page ∈ k.held ∧ k.NotLoading page) ∧
      UserAddress address ∧ k.mm.pageOf address = none ∧ k.loading (address / 0x4000000) = none ∧
      ∃ t ∈ k.task (address / 0x4000000), address % 0x4000000 < t.limit ∧
        (t.executable = none ∨ t.endData ≤ address % 0x4000000 - address % 4096)
  | .fork slot toSlot => slot < 64 ∧ k.task slot ≠ none ∧ k.loading slot = none ∧
      (1 ≤ toSlot ∧ toSlot < 64) ∧ k.task toSlot = none
  | .exec slot _ => (1 ≤ slot ∧ slot < 64) ∧ k.task slot ≠ none ∧ k.loading slot = none
  | .exit slot => (1 ≤ slot ∧ slot < 64) ∧ k.task slot ≠ none ∧ k.loading slot = none
  | .noPageBegin slot address => (1 ≤ slot ∧ slot < 64) ∧ k.loading slot = none ∧
      InSlot slot address ∧ k.mm.pageOf address = none ∧
      ∃ t ∈ k.task slot, address - slotBase slot < t.limit
  | .noPageFinish slot => k.loading slot ≠ none
  | .doWpPage slot address => (1 ≤ slot ∧ slot < 64) ∧ k.task slot ≠ none ∧
      k.loading slot = none ∧ InSlot slot address ∧ k.mm.pageOf address ≠ none
  | .writeVerify slot address => (1 ≤ slot ∧ slot < 64) ∧ k.task slot ≠ none ∧
      k.loading slot = none ∧ UserAddress address
  | .userStore slot address _ => (1 ≤ slot ∧ slot < 64) ∧ k.task slot ≠ none ∧
      k.loading slot = none ∧ InSlot slot address ∧ k.mm.pageOf address ≠ none
  | .kernelStore slot address _ => (1 ≤ slot ∧ slot < 64) ∧ k.task slot ≠ none ∧
      k.loading slot = none ∧ InSlot slot address ∧
      ∃ w ∈ k.mm.pageOf address, writable w = true
  | .setCount _ => True

instance (k : Kernel) : ∀ op : TaskOp, Decidable (op.Enabled k)
  | .getFreePage | .setCount _ => .isTrue trivial
  | .freePage .. | .putPage .. | .fork .. | .exec .. | .exit .. | .noPageBegin ..
  | .noPageFinish .. | .doWpPage .. | .writeVerify .. | .userStore .. | .kernelStore .. => by
    dsimp only [TaskOp.Enabled]
    infer_instance

/-- The effect of a step. -/
def TaskOp.run (files : ℕ → Executable) (k : Kernel) : TaskOp → Option Kernel
  | .getFreePage =>
    match Mm.getFreePage k.mm with
    | none => some k
    | some (page, s) => some { k with mm := s, held := insert page k.held }
  | .freePage page =>
    match Mm.freePage k.mm page with
    | .ok _ s => some { k with mm := s, held := k.held.erase page }
    | _ => none
  | .putPage page address =>
    match Mm.putPage k.mm page address with
    | (0, s) => some (k.withMm s)
    | (_ + 1, s) => some { k with mm := s, held := k.held.erase page }
  | .fork slot toSlot =>
    (k.task slot).bind fun t =>
      k.forked toSlot t (copyMem k.mm (slotBase slot) (slotBase toSlot) t.limit)
  | .exec slot executable =>
    if 0x3000000 < (files executable).text + (files executable).data + (files executable).bss then
      some k
    else
      (k.task slot).bind fun t =>
        k.replaceTask slot (some (execTask (files executable) executable)) (freeSlot k.mm slot t)
  | .exit slot => exitSlot k slot
  | .noPageBegin slot address =>
    k.begun slot address (Mm.noPageBegin k slot address k.mm)
  | .noPageFinish slot =>
    match k.loading slot, k.task slot with
    | some (address, page), some t =>
      ({ k with held := k.held.erase page }.setLoading slot none).after slot
        (Mm.noPageFinish (files (t.executable.getD 0)) t slot address page k.mm)
    | _, _ => none
  | .doWpPage slot address => k.after slot (Mm.doWpPage k.mm address)
  | .writeVerify slot address => k.after slot (Mm.writeVerify k.mm address)
  | .userStore slot address b => k.after slot (Mm.userStore k.mm address b)
  | .kernelStore _ address b => some (k.withMm (writeByte k.mm address b))
  | .setCount iCount => some { k with iCount := iCount }

/-- A step of a run of tasks. -/
def TaskStep (files : ℕ → Executable) (k k' : Kernel) : Prop :=
  ∃ op : TaskOp, op.Enabled k ∧ op.run files k = some k'

/-- Task 0: no executable, segments of 640 kB. -/
def initTask : Task := ⟨none, 0, 0xa0000, 0xa0000⟩

/-- After boot only task 0 exists. -/
def TaskBoot (lo hi : ℕ) (k : Kernel) : Prop :=
  Boot lo hi ⟨k.mm, k.held⟩ ∧ k.loading = (fun _ => none) ∧
    k.task = fun slot => if slot = 0 then some initTask else none

end LihaLinux.Mm
