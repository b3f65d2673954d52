import LihaLinux.Mm.System

/-!
# Tasks: demand loading, page sharing and kernel stores

The functions of `mm/memory.c` and `kernel/fork.c` that look at the tasks:
`share_page` and `do_no_page`, which map a missing page of an executable, and
`verify_area`, which the kernel calls before it stores into user memory.
A task's `start_code` is the base of its slot, and so are its code and data
segments.
-/

namespace LihaLinux.Mm

/-- The fields of `struct task_struct` that the memory manager reads. -/
structure Task where
  /-- `executable`, an inode. -/
  executable : Option ℕ
  /-- `end_data`. -/
  endData : ℕ
  /-- `get_limit(0x0f)`: the code segment. -/
  codeLimit : ℕ
  /-- `get_limit(0x17)`: the data segment. -/
  limit : ℕ
  deriving DecidableEq

/-- An executable file: the sizes in its header, and its bytes. -/
structure Executable where
  /-- `a_text`. -/
  text : ℕ
  /-- `a_data`. -/
  data : ℕ
  /-- `a_bss`. -/
  bss : ℕ
  byte : ℕ → BitVec 8

/-- The memory manager together with the task table. -/
structure Kernel where
  mm : State
  /-- The frames held by the kernel. -/
  held : Finset ℕ
  /-- `task[]`, by slot. -/
  task : ℕ → Option Task
  /-- `i_count` of the inodes of executables. -/
  iCount : ℕ → ℕ
  /-- The tasks asleep in the `bread_page` of `do_no_page`, with the address that
  faulted and the page taken for it. -/
  loading : ℕ → Option (ℕ × ℕ)

namespace Kernel

/-- Replace the memory. -/
def withMm (k : Kernel) (s : State) : Kernel := { k with mm := s }

/-- Assign one slot of the task table. -/
def setTask (k : Kernel) (slot : ℕ) (t : Option Task) : Kernel :=
  { k with task := fun n => if n = slot then t else k.task n }

/-- Record what a task sleeps on. -/
def setLoading (k : Kernel) (slot : ℕ) (l : Option (ℕ × ℕ)) : Kernel :=
  { k with loading := fun n => if n = slot then l else k.loading n }

end Kernel

/-! ### `share_page` -/

/-- The loop of `share_page`, over the slots `n` down to 1. -/
def shareLoop (task : ℕ → Option Task) (current executable address : ℕ) :
    ℕ → State → Result Bool
  | 0, s => .ok false s
  | n + 1, s =>
    match task (n + 1) with
    | none => shareLoop task current executable address n s
    | some p =>
      if current = n + 1 then shareLoop task current executable address n s
      else if p.executable ≠ some executable then shareLoop task current executable address n s
      else (tryToShare s address (slotBase (n + 1)) (slotBase current)).bind fun shared s =>
        if shared then .ok true s else shareLoop task current executable address n s

/-- `share_page(address)`, for the task in slot `current`. -/
def sharePage (k : Kernel) (current address : ℕ) (s : State) : Result Bool :=
  match (k.task current).bind Task.executable with
  | none => .ok false s
  | some executable =>
    if k.iCount executable < 2 then .ok false s
    else shareLoop k.task current executable address 63 s

/-! ### `do_no_page` -/

/-- `do_no_page(error_code,address)` up to the read of the page: the value is the
page to be filled, if the fault is not served yet. -/
def noPageBegin (k : Kernel) (current address : ℕ) (s : State) : Result (Option ℕ) :=
  let address := address - address % 4096
  let tmp := address - slotBase current
  match k.task current with
  | none => .ok none s
  | some t =>
    if t.executable = none ∨ t.endData ≤ tmp then
      (getEmptyPage s address).bind fun _ s => .ok none s
    else
      (sharePage k current tmp s).bind fun shared s =>
        if shared then .ok none s
        else
          match getFreePage s with
          | none => .oom s
          | some (page, s) => .ok (some page) s

/-- `bread_page(page,dev,nr)` for the four blocks of the executable after its
header block. -/
def breadPage (file : Executable) (tmp page : ℕ) (s : State) : State :=
  s.setPage page fun i => ofBytes fun b => file.byte (1024 + tmp + 4 * i + b)

/-- `while (i-- > 0) *--tmp = 0`: clear the last `i` bytes of a page. -/
def clearTail (page : ℕ) : ℕ → State → State
  | 0, s => s
  | i + 1, s => (clearTail page i s).setByteAt page (4096 - (i + 1)) 0

/-- `if (put_page(page,address)) return; free_page(page); oom();` -/
def putOrOom (s : State) (page address : ℕ) : Result Unit :=
  match putPage s page address with
  | (0, s) => (freePage s page).bind fun _ s => .oom s
  | (_ + 1, s) => .ok () s

/-- The rest of `do_no_page`, with the page taken in its first part. -/
def noPageFinish (file : Executable) (t : Task) (current address page : ℕ) (s : State) :
    Result Unit :=
  let address := address - address % 4096
  let tmp := address - slotBase current
  putOrOom (clearTail page (tmp + 4096 - t.endData) (breadPage file tmp page s)) page address

/-- Continue `do_no_page` with the page to be filled, if there is one. -/
def noPageResume (files : ℕ → Executable) (current address : ℕ) :
    Option ℕ → Option Task → State → Result Unit
  | some page, some t, s => noPageFinish (files (t.executable.getD 0)) t current address page s
  | _, _, s => .ok () s

/-- `do_no_page` when no other task runs during the read. -/
def doNoPage (files : ℕ → Executable) (k : Kernel) (current address : ℕ) (s : State) :
    Result Unit :=
  (noPageBegin k current address s).bind fun page s =>
    noPageResume files current address page (k.task current) s

/-! ### `verify_area` and kernel stores -/

/-- The iterations of `while (size>0) size -= 4096`. -/
def verifyPages (size : ℤ) : ℕ := ((size + 4095) / 4096).toNat

theorem verifyPages_eq (size : ℤ) :
    verifyPages size = if 0 < size then verifyPages (size - 4096) + 1 else 0 := by
  unfold verifyPages
  split <;> omega

/-- The loop of `verify_area`. -/
def verifyLoop : ℕ → ℕ → State → Result Unit
  | 0, _, s => .ok () s
  | n + 1, start, s =>
    (writeVerify s start).bind fun _ s => verifyLoop n ((start + 4096) % 2 ^ 32) s

/-- `verify_area(addr,size)` for the task in slot `current`. `size` is a signed
32-bit integer. -/
def verifyArea (current addr : ℕ) (size : ℤ) (s : State) : Result Unit :=
  verifyLoop (verifyPages ((size + (addr % 4096 : ℕ)).bmod (2 ^ 32)))
    ((addr - addr % 4096 + slotBase current) % 2 ^ 32) s

/-- `put_fs_byte(val,addr)`: the CPU checks the segment limit and the present bit,
and in supervisor mode not the write bit. A store to a page that is not present
runs `do_no_page` and is retried; beyond the segment limit the task is killed. -/
def putFsByte (files : ℕ → Executable) (k : Kernel) (current addr : ℕ) (val : BitVec 8)
    (s : State) : Result Unit :=
  match k.task current with
  | none => .oom s
  | some t =>
    if addr < t.limit then
      (if (s.pageOf (slotBase current + addr)).isSome then .ok () s
        else doNoPage files k current (slotBase current + addr) s).bind fun _ s =>
          .ok () (writeByte s (slotBase current + addr) val)
    else .oom s

/-- Stores of successive bytes. -/
def putFs (files : ℕ → Executable) (k : Kernel) (current : ℕ) :
    ℕ → List (BitVec 8) → State → Result Unit
  | _, [], s => .ok () s
  | addr, val :: rest, s =>
    (putFsByte files k current addr val s).bind fun _ s => putFs files k current (addr + 1) rest s

/-- What `sys_read` does to memory: `verify_area(buf,count)`, then stores of the
bytes that were read. -/
def readInto (files : ℕ → Executable) (k : Kernel) (current buf : ℕ) (count : ℤ)
    (bytes : List (BitVec 8)) : Result Unit :=
  (verifyArea current buf count k.mm).bind fun _ s => putFs files k current buf bytes s

end LihaLinux.Mm
