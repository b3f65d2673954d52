import LihaLinux.Mm.TaskSystem

/-!
# The arguments of `execve`

The functions of `fs/exec.c` that carry the arguments of a program into its new address space.
`copy_strings` copies the strings of the caller backwards into pages of the kernel, `change_ldt`
maps these pages at the end of the new data segment, and `create_tables` builds the tables of
pointers below the strings.

The memory of the caller is the function that `get_fs_byte` reads; a page that is missing there is
loaded before it is read. What `do_execve` does with the file is modelled with the file system.
-/

namespace LihaLinux.Mm

/-- `MAX_ARG_PAGES`. -/
def maxArgPages : ℕ := 32

/-- The length of a data segment. -/
def dataLimit : ℕ := 0x4000000

/-- A difference of two 32-bit words. -/
def sub32 (a b : ℕ) : ℕ := (a + 2 ^ 32 - b) % 2 ^ 32

/-- What the register `fs` selects. -/
inductive Seg
  /-- The data segment of the task. -/
  | user
  /-- `get_ds()` -/
  | kernel
  deriving DecidableEq

/-- The variables of `copy_strings`, and those that it changes. -/
structure ArgCopy where
  mm : State
  page : ℕ → Option ℕ
  p : ℕ
  offset : ℤ
  pag : ℕ
  /-- The register `fs`. -/
  fs : Seg
  /-- The indices of `page` that have been used. -/
  used : List ℕ

/-- How `do_execve` ends if the program does not start. -/
inductive ExecError
  /-- The `panic` of `copy_strings`. -/
  | argcIsWrong
  /-- A `panic` of the memory manager. -/
  | panic (reason : Panic)
  /-- `copy_strings` has returned 0. -/
  | noMemory (c : ArgCopy)
  /-- The task is killed by `oom`, or leaves its segment. -/
  | killed
  /-- A string or a table of the caller does not end. -/
  | endless

/-- Go on if there is a value. -/
def orElseError {α : Type} (e : ExecError) : Option α → Except ExecError α
  | some a => .ok a
  | none => .error e

/-- Go on if a call of the memory manager returns. -/
def Result.exec {α : Type} : Result α → Except ExecError (α × State)
  | .ok a s => .ok (a, s)
  | .oom _ => .error .killed
  | .panic reason => .error (.panic reason)

/-! ### `count` and `copy_strings` -/

section Caller

variable (fs : ℕ → BitVec 8)

/-- `get_fs_long`. -/
def getFsLong (a : ℕ) : ℕ := (ofBytes fun k => fs (a + k)).toNat

/-- The loop of `count`. -/
def countLoop : ℕ → ℕ → Option ℕ
  | 0, _ => none
  | n + 1, tmp => if getFsLong fs tmp = 0 then some 0 else (countLoop n (tmp + 4)).map (· + 1)

/-- `count`. -/
def count (argv : ℕ) : Option ℕ := if argv = 0 then some 0 else countLoop fs (2 ^ 30) argv

/-- The length of a string with the zero at its end: the `do` loop of `copy_strings`. -/
def strLen : ℕ → ℕ → Option ℕ
  | 0, _ => none
  | n + 1, tmp => if fs tmp = 0 then some 1 else (strLen n (tmp + 1)).map (· + 1)

end Caller

/-- `if (from_kmem==n) set_fs(fs)`. -/
def ArgCopy.setFsIf (fromKmem n : ℕ) (fs : Seg) (c : ArgCopy) : ArgCopy :=
  { c with fs := if fromKmem = n then fs else c.fs }

/-- A page from `get_free_page` becomes the page of `p`. -/
def ArgCopy.addPage (c : ArgCopy) (f : ℕ) (s : State) : ArgCopy :=
  { c with mm := s, page := Function.update c.page (c.p / 4096) (some f), pag := f }

/-- `pag` becomes the page of `p`, which is taken from the free pages if there is none. -/
def ArgCopy.getPag (c : ArgCopy) : Option ArgCopy :=
  match c.page (c.p / 4096) with
  | some f => some { c with pag := f }
  | none => (getFreePage c.mm).map fun r => c.addPage r.1 r.2

/-- `--p`, `--offset` and the page of the next byte. -/
def ArgCopy.stepBack (fromKmem : ℕ) (oldFs : Seg) (c : ArgCopy) : Except ExecError ArgCopy :=
  let c := { c with p := sub32 c.p 1, offset := c.offset - 1 }
  if c.offset < 0 then
    let c := { c with offset := (c.p % 4096 : ℕ), used := c.p / 4096 :: c.used }
    let c := c.setFsIf fromKmem 2 oldFs
    (orElseError (.noMemory c) c.getPag).map (·.setFsIf fromKmem 2 .kernel)
  else .ok c

section CopyStrings

variable (mem : Seg → ℕ → BitVec 8) (fromKmem : ℕ)

/-- The inner loop of `copy_strings`: `len` bytes before `tmp`, from the last to the first. -/
def copyBytes (oldFs : Seg) : ℕ → ℕ → ArgCopy → Except ExecError ArgCopy
  | 0, _, c => .ok c
  | len + 1, tmp, c => (c.stepBack fromKmem oldFs).bind fun c =>
      copyBytes oldFs len (tmp - 1)
        { c with mm := c.mm.setByteAt c.pag c.offset.toNat (mem c.fs (tmp - 1)) }

/-- The outer loop of `copy_strings`. The test `p-len < 0` is one of unsigned words, and fails. -/
def copyLoop (oldFs : Seg) (argv : ℕ) : ℕ → ArgCopy → Except ExecError ArgCopy
  | 0, c => .ok c
  | argc + 1, c =>
    let c := c.setFsIf fromKmem 1 .kernel
    let tmp := getFsLong (mem c.fs) (argv + 4 * argc)
    if tmp = 0 then .error .argcIsWrong
    else
      let c := c.setFsIf fromKmem 1 oldFs
      (orElseError .endless (strLen (mem c.fs) (2 ^ 32) tmp)).bind fun len =>
        (copyBytes mem fromKmem oldFs len (tmp + len) c).bind (copyLoop oldFs argv argc)

/-- `copy_strings`. When it returns 0, its further calls return 0 at once. -/
def copyStrings (argc argv : ℕ) (c : ArgCopy) : Except ExecError ArgCopy :=
  if c.p = 0 then .error (.noMemory c)
  else
    (copyLoop mem fromKmem c.fs argv argc { c.setFsIf fromKmem 2 .kernel with offset := 0 }).map
      (·.setFsIf fromKmem 2 c.fs)

end CopyStrings

/-- The arguments `argc`, `argv` and `from_kmem` of a call of `copy_strings`. -/
structure ArgCall where
  argc : ℕ
  argv : ℕ
  fromKmem : ℕ

/-- Calls of `copy_strings`, one after another. -/
def copyAll (mem : Seg → ℕ → BitVec 8) : List ArgCall → ArgCopy → Except ExecError ArgCopy
  | [], c => .ok c
  | call :: calls, c =>
    (copyStrings mem call.fromKmem call.argc call.argv c).bind (copyAll mem calls)

/-- No argument page is there, and `p` is at their end. -/
def ArgCopy.start (mm : State) : ArgCopy :=
  ⟨mm, fun _ => none, 4096 * maxArgPages - 4, 0, 0, .user, []⟩


/-! ### `change_ldt` -/

/-- The loop of `change_ldt`: the pages below `i` come below the address `dataBase`. -/
def putArgPages (page : ℕ → Option ℕ) : ℕ → ℕ → State → State
  | 0, _, s => s
  | i + 1, dataBase, s =>
    putArgPages page i (dataBase - 4096)
      (((page i).map fun f => (putPage s f (dataBase - 4096)).2).getD s)

/-- `change_ldt() - MAX_ARG_PAGES*PAGE_SIZE`: where the argument pages begin in the data segment. -/
def argBase : ℕ := dataLimit - maxArgPages * 4096

/-- `change_ldt`, as far as it puts pages. -/
def changeLdt (slot : ℕ) (page : ℕ → Option ℕ) (s : State) : State :=
  putArgPages page maxArgPages (slotBase slot + dataLimit) s

/-- The task after `change_ldt`: `end_data` is still that of the old program. -/
def Task.exec (t : Task) (text executable : ℕ) : Task :=
  { t with
    executable := some executable, codeLimit := (text + 4095) / 4096 * 4096, limit := dataLimit }

/-! ### `create_tables` -/

section Tables

variable (files : ℕ → Executable) (k : Kernel) (current : ℕ)

/-- `put_fs_long`. -/
def putFsLong (val : Word) (addr : ℕ) (s : State) : Result Unit :=
  putFs files k current addr ((List.range 4).map (byteOf val)) s

/-- `get_fs_byte` in the new address space. -/
def getFsByte (addr : ℕ) (s : State) : Result (BitVec 8) :=
  match k.task current with
  | none => .oom s
  | some t =>
    if addr < t.limit then
      (if (s.pageOf (slotBase current + addr)).isSome then .ok () s
        else doNoPage files k current (slotBase current + addr) s).bind fun _ s =>
          .ok ((s.view (slotBase current + addr)).getD 0) s
    else .oom s

/-- `while (get_fs_byte(p++))`, which ends at the end of the segment at the latest. -/
def skipString : ℕ → ℕ → State → Result ℕ
  | 0, _, s => .oom s
  | n + 1, p, s => (getFsByte files k current p s).bind fun b s =>
      if b = 0 then .ok (p + 1) s else skipString n (p + 1) s

/-- The loop of `create_tables` for a table with `argc` pointers, and the zero behind it. -/
def fillTable : ℕ → ℕ → ℕ → State → Result ℕ
  | 0, p, table, s => (putFsLong files k current 0 table s).bind fun _ s => .ok p s
  | argc + 1, p, table, s =>
    (putFsLong files k current (BitVec.ofNat 32 p) table s).bind fun _ s =>
      (skipString files k current (dataLimit + 1) p s).bind fun p s =>
        fillTable argc p (table + 4) s

/-- `create_tables`. -/
def createTables (p argc envc : ℕ) (s : State) : Result ℕ :=
  let sp := p - p % 4
  let envp := sub32 sp (4 * (envc + 1))
  let argv := sub32 envp (4 * (argc + 1))
  (putFsLong files k current (BitVec.ofNat 32 envp) (sub32 argv 4) s).bind fun _ s =>
    (putFsLong files k current (BitVec.ofNat 32 argv) (sub32 argv 8) s).bind fun _ s =>
      (putFsLong files k current (BitVec.ofNat 32 argc) (sub32 argv 12) s).bind fun _ s =>
        (fillTable files k current argc p argv s).bind fun p s =>
          (fillTable files k current envc p envp s).bind fun _ s => .ok (sub32 argv 12) s

end Tables

/-! ### `do_execve` -/

/-- `do_execve` after the point of no return: the stack pointer of the new program, and the
memory. -/
def startProgram (files : ℕ → Executable) (k : Kernel) (current executable : ℕ) (t : Task)
    (argc envc : ℕ) (c : ArgCopy) : Except ExecError (ℕ × State) := do
  let (_, s) ← (freeSlot c.mm current t).exec
  let s := changeLdt current c.page s
  let k := k.setTask current (some (t.exec (files executable).text executable))
  (createTables files k current (c.p + argBase) argc envc s).exec

/-- `do_execve` from the first `copy_strings` on, for a file that is accepted. -/
def execCalls (files : ℕ → Executable) (k : Kernel) (current executable : ℕ) (t : Task)
    (mem : Seg → ℕ → BitVec 8) (calls : List ArgCall) (argc envc : ℕ) :
    Except ExecError (ℕ × State) := do
  let c ← copyAll mem calls (ArgCopy.start k.mm)
  if c.p = 0 then .error (.noMemory c)
  startProgram files k current executable t argc envc c

/-- The way of the arguments through `do_execve`, if the file is no script. -/
def execArgs (files : ℕ → Executable) (k : Kernel) (current executable : ℕ) (fs : ℕ → BitVec 8)
    (argv envp : ℕ) : Except ExecError (ℕ × State) := do
  let t ← orElseError .killed (k.task current)
  let argc ← orElseError .endless (count fs argv)
  let envc ← orElseError .endless (count fs envp)
  execCalls files k current executable t (fun _ => fs) [⟨envc, envp, 0⟩, ⟨argc, argv, 0⟩] argc envc

end LihaLinux.Mm
