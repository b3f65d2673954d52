import LihaLinux.Files.NameCalls

/-!
# Descriptors

The calls that change the file table and the pointers of the tasks: `sys_open`, `sys_close`,
the copies of descriptors, pipes, and the parts of `fork`, `exit` and `execve` that have to do
with files.
-/

namespace LihaLinux.Files

open LihaLinux.Fs (firstZero)

/-! ### Fields -/

/-- Store `filp[fd]`. -/
def Task.setFilp (p : Task) (fd : ℕ) (f : Option ℕ) : Task :=
  { p with filp := Function.update p.filp fd f }

@[simp] theorem Task.setFilp_filp_self (p : Task) (fd : ℕ) (f : Option ℕ) :
    (p.setFilp fd f).filp fd = f := Function.update_self ..

theorem Task.setFilp_filp_ne (p : Task) {fd i : ℕ} (hi : i ≠ fd) (f : Option ℕ) :
    (p.setFilp fd f).filp i = p.filp i := Function.update_of_ne hi ..

/-- Store a bit of `close_on_exec`. -/
def Task.setClose (p : Task) (fd : ℕ) (b : Bool) : Task :=
  { p with closeOnExec := Function.update p.closeOnExec fd b }

/-- `filp[fd]`, for a descriptor below `NR_OPEN`. -/
def Task.getFilp (p : Task) (fd : ℕ) : Option ℕ := if fd < nrOpen then p.filp fd else none

/-- The first empty entry of `filp` from entry `fd` on. -/
def Task.freeFd (p : Task) (fd : ℕ) : Option ℕ :=
  firstZero (fun i => (p.filp i).isSome) (nrOpen - fd) fd

/-- Change `f_count`, an `unsigned short`. -/
def File.addCount (e : File) (n : ℕ) : File := { e with count := (e.count + n) % 65536 }

/-- The first entry of the file table from entry `f` on that is not in use. -/
def freeFile (file : ℕ → File) (f : ℕ) : Option ℕ :=
  firstZero (fun i => decide ((file i).count ≠ 0)) (nrFile - f) f

/-- `MAJOR`. -/
def major (dev : ℕ) : ℕ := dev / 256

/-- `MINOR`. -/
def minor (dev : ℕ) : ℕ := dev % 256

/-- `mode & 0777 & ~umask`. -/
def maskMode (umask mode : ℕ) : ℕ := (mode &&& 0o777) - (mode &&& 0o777 &&& umask)

/-! ### `open` and `close` -/

/-- What `sys_open` does for terminals, and whether it goes on. -/
def openTty (inode : ℕ) : K Bool := do
  let m ← Prog.read fun s => s.inode inode
  let p ← Prog.read Fs.cur
  if isChr m.mode ∧ major (m.zone 0) = 4 then
    Prog.when (p.leader = true ∧ p.tty = none)
      (modifyCur fun p => { p with tty := some (minor (m.zone 0)) })
    pure true
  else pure (!decide (isChr m.mode ∧ major (m.zone 0) = 5 ∧ p.tty = none))

/-- Take a descriptor and its entry of the file table back. -/
def dropFile (fd f : ℕ) : K Unit := do
  modifyCur fun p => p.setFilp fd none
  modifyFile f fun e => { e with count := 0 }

/-- The part of `sys_open` after a descriptor and an entry of the file table have been found. -/
def openFile (fd f : ℕ) (filename : List ℕ) (flag mode : ℕ) : K (Except Errno ℕ) := do
  modifyCur fun p => p.setFilp fd (some f)
  modifyFile f fun e => e.addCount 1
  match ← openNamei filename flag mode with
  | .error e =>
    dropFile fd f
    pure (.error e)
  | .ok inode =>
    let may ← openTty inode
    if may then
      let m ← Prog.read fun s => s.inode inode
      modifyFile f fun _ => { mode := m.mode, flags := flag, count := 1, inode, pos := 0 }
      pure (.ok fd)
    else
      iput inode
      dropFile fd f
      pure (.error .EPERM)

/-- `sys_open`. -/
def sysOpen (filename : List ℕ) (flag mode : ℕ) : K (Except Errno ℕ) := do
  let p ← Prog.read Fs.cur
  match p.freeFd 0 with
  | none => pure (.error .EINVAL)
  | some fd =>
    modifyCur fun p => p.setClose fd false
    match ← Prog.read fun s => freeFile s.file 0 with
    | none => pure (.error .EINVAL)
    | some f => openFile fd f filename flag (maskMode p.umask mode)

/-- `sys_creat`. -/
def sysCreat (pathname : List ℕ) (mode : ℕ) : K (Except Errno ℕ) :=
  sysOpen pathname (oCreat ||| oTrunc) mode

/-- The part of `sys_close` for an entry of the file table. -/
def closeFile (f : ℕ) : K Unit := do
  let e ← Prog.read fun s => s.file f
  if e.count = 0 then Prog.fail .closeCount
  else
    modifyFile f fun e => e.addCount 65535
    Prog.when (e.count = 1) (iput e.inode)

/-- `sys_close`. -/
def sysClose (fd : ℕ) : K Status :=
  if nrOpen ≤ fd then pure (.error .EINVAL)
  else do
    modifyCur fun p => p.setClose fd false
    let p ← Prog.read Fs.cur
    match p.filp fd with
    | none => pure (.error .EINVAL)
    | some f =>
      modifyCur fun p => p.setFilp fd none
      closeFile f
      pure (.ok ())

/-! ### Copies of descriptors -/

/-- `dupfd`. -/
def dupfd (fd arg : ℕ) : K (Except Errno ℕ) := do
  let p ← Prog.read Fs.cur
  match p.getFilp fd with
  | none => pure (.error .EBADF)
  | some f =>
    if nrOpen ≤ arg then pure (.error .EINVAL)
    else
      match p.freeFd arg with
      | none => pure (.error .EMFILE)
      | some i =>
        modifyCur fun p => (p.setClose i false).setFilp i (some f)
        modifyFile f fun e => e.addCount 1
        pure (.ok i)

/-- `sys_dup2`. -/
def sysDup2 (oldfd newfd : ℕ) : K (Except Errno ℕ) := do
  let _ ← sysClose newfd
  dupfd oldfd newfd

/-- `sys_dup`. -/
def sysDup (fildes : ℕ) : K (Except Errno ℕ) := dupfd fildes 0

/-- `O_APPEND`. -/
def oAppend : ℕ := 0o2000

/-- `O_APPEND | O_NONBLOCK`. -/
def setFlags : ℕ := 0o6000

/-- `sys_fcntl`. The commands for locks return -1 like an unknown one. -/
def sysFcntl (fd cmd arg : ℕ) : K (Except Errno ℕ) := do
  let p ← Prog.read Fs.cur
  match p.getFilp fd with
  | none => pure (.error .EBADF)
  | some f =>
    if cmd = 0 then dupfd fd arg
    else if cmd = 1 then pure (.ok (p.closeOnExec fd).toNat)
    else if cmd = 2 then
      modifyCur fun p => p.setClose fd (arg % 2 = 1)
      pure (.ok 0)
    else if cmd = 3 then
      let flags ← Prog.read fun s => (s.file f).flags
      pure (.ok flags)
    else if cmd = 4 then
      modifyFile f fun e =>
        { e with flags := e.flags - (e.flags &&& setFlags) + (arg &&& setFlags) }
      pure (.ok 0)
    else pure (.error .EPERM)

/-! ### Pipes -/

/-- `get_pipe_inode`, when `get_free_page` returns `page`. -/
def getPipeInode (page : ℕ) : K (Option ℕ) := do
  let inode ← getEmptyInode
  if page = 0 then
    modifyInode inode fun m => { m with size := 0, count := 0 }
    pure none
  else
    Prog.update fun s => s.setPage page fun _ => 0
    modifyInode inode fun m => { m with
      size := page
      count := 2
      zone := Function.update (Function.update m.zone 1 0) 0 0
      pipe := true }
    pure (some inode)

/-- The part of `sys_pipe` after two descriptors and two entries of the file table have been
found. -/
def pipeFiles (fd₀ fd₁ f₀ f₁ page : ℕ) : K (Except Errno (ℕ × ℕ)) := do
  modifyCur fun p => (p.setFilp fd₀ (some f₀)).setFilp fd₁ (some f₁)
  match ← getPipeInode page with
  | none =>
    modifyCur fun p => (p.setFilp fd₀ none).setFilp fd₁ none
    modifyFile f₀ fun e => { e with count := 0 }
    modifyFile f₁ fun e => { e with count := 0 }
    pure (.error .EPERM)
  | some inode =>
    modifyFile f₀ fun e => { e with inode, pos := 0, mode := 1 }
    modifyFile f₁ fun e => { e with inode, pos := 0, mode := 2 }
    pure (.ok (fd₀, fd₁))

/-- `sys_pipe`, when `get_free_page` returns `page`. -/
def sysPipe (page : ℕ) : K (Except Errno (ℕ × ℕ)) := do
  match ← Prog.read fun s => freeFile s.file 0 with
  | none => pure (.error .EPERM)
  | some f₀ =>
    modifyFile f₀ fun e => e.addCount 1
    match ← Prog.read fun s => freeFile s.file (f₀ + 1) with
    | none =>
      modifyFile f₀ fun e => { e with count := 0 }
      pure (.error .EPERM)
    | some f₁ =>
      modifyFile f₁ fun e => e.addCount 1
      let p ← Prog.read Fs.cur
      match p.freeFd 0, (p.freeFd 0).bind fun fd => p.freeFd (fd + 1) with
      | some fd₀, some fd₁ => pipeFiles fd₀ fd₁ f₀ f₁ page
      | _, _ =>
        modifyFile f₀ fun e => { e with count := 0 }
        modifyFile f₁ fun e => { e with count := 0 }
        pure (.error .EPERM)

/-! ### Tasks -/

/-- `iput(current->pwd)`, and a new `pwd`. -/
def setPwd (inode : Option ℕ) : K Unit := do
  let p ← Prog.read Fs.cur
  iputOpt p.pwd
  modifyCur fun p => { p with pwd := inode }

/-- `iput(current->root)`, and a new `root`. -/
def setRoot (inode : Option ℕ) : K Unit := do
  let p ← Prog.read Fs.cur
  iputOpt p.root
  modifyCur fun p => { p with root := inode }

/-- `iput(current->executable)`, and a new `executable`. -/
def setExecutable (inode : Option ℕ) : K Unit := do
  let p ← Prog.read Fs.cur
  iputOpt p.executable
  modifyCur fun p => { p with executable := inode }

/-- A pointer of the task, kept by `set`, becomes the directory of that name. -/
def changeDir (set : Option ℕ → K Unit) (filename : List ℕ) : K Status := do
  match ← namei filename with
  | none => pure (.error .ENOENT)
  | some inode =>
    let mode ← Prog.read fun s => (s.inode inode).mode
    if isDir mode then
      set (some inode)
      pure (.ok ())
    else
      iput inode
      pure (.error .ENOTDIR)

/-- `sys_chdir`. -/
def sysChdir (filename : List ℕ) : K Status := changeDir setPwd filename

/-- `sys_chroot`. -/
def sysChroot (filename : List ℕ) : K Status := changeDir setRoot filename

/-- `inode->i_count++`, unless the pointer is null. -/
def incCountOpt : Option ℕ → K Unit
  | none => pure ()
  | some inode => incCount inode

/-- The loop of `copy_process` over `n` descriptors from descriptor `fd` on. -/
def copyFiles (filp : ℕ → Option ℕ) : ℕ → ℕ → K Unit
  | 0, _ => pure ()
  | n + 1, fd => do
    match filp fd with
    | none => pure ()
    | some f => modifyFile f fun e => e.addCount 1
    copyFiles filp n (fd + 1)

/-- `fork`: the task slot of the new task. Without memory for it, `copy_process` takes the slot
back. -/
def sysFork (memory : Bool) : K (Except Errno ℕ) := do
  match ← Prog.read fun s => firstZero (fun t => (s.task t).used) (nrTasks - 1) 1 with
  | none => pure (.error .EAGAIN)
  | some nr =>
    if memory then
      let p ← Prog.read Fs.cur
      Prog.update fun s => s.setTask nr { p with leader := false }
      copyFiles p.filp nrOpen 0
      incCountOpt p.pwd
      incCountOpt p.root
      incCountOpt p.executable
      pure (.ok nr)
    else pure (.error .EAGAIN)

/-- Close those of `n` descriptors from descriptor `fd` on that satisfy a condition. -/
def closeWhere (c : Task → ℕ → Bool) : ℕ → ℕ → K Unit
  | 0, _ => pure ()
  | n + 1, fd => do
    let p ← Prog.read Fs.cur
    Prog.when (c p fd) (do let _ ← sysClose fd)
    closeWhere c n (fd + 1)

/-- The part of `do_exit` for the files of a task. -/
def doExit : K Unit := do
  closeWhere (fun p fd => (p.filp fd).isSome) nrOpen 0
  setPwd none
  setRoot none
  setExecutable none

/-! ### `execve` -/

/-- The `unsigned long` at index `k` of a block. -/
def long (d : ℕ → ℕ) (k : ℕ) : ℕ := word d (2 * k) + 65536 * word d (2 * k + 1)

/-- `ZMAGIC`. -/
def zmagic : ℕ := 0o413

/-- `N_TXTOFF`. -/
def txtOff (d : ℕ → ℕ) : ℕ := if long d 0 = zmagic then 1024 else 32

/-- The test of the header of a program of a size: `a_magic`, `a_text`, `a_data`, `a_bss`,
`a_syms`, `a_entry`, `a_trsize` and `a_drsize`. -/
def goodHeader (d : ℕ → ℕ) (size : ℕ) : Bool :=
  long d 0 = zmagic && long d 6 = 0 && long d 7 = 0 &&
    (long d 1 + long d 2 + long d 3) % 4294967296 ≤ 0x3000000 &&
    (long d 1 + long d 2 + long d 4 + txtOff d) % 4294967296 ≤ size && txtOff d = 1024

/-- The first line of a script after `#!`, if it ends in the block. -/
def firstLine (d : ℕ → ℕ) : ℕ → ℕ → Option (List ℕ)
  | 0, _ => none
  | n + 1, k =>
    if d k = 0 then none
    else if d k = 10 then some []
    else (firstLine d n (k + 1)).map fun line => d k :: line

/-- A space or a tab. -/
def isBlank (c : ℕ) : Bool := c = 32 || c = 9

/-- The name of the interpreter of a script. -/
def interpreter (d : ℕ → ℕ) : Option (List ℕ) :=
  match firstLine d 1022 2 with
  | none => none
  | some line =>
    match (line.dropWhile isBlank).takeWhile fun c => !isBlank c with
    | [] => none
    | c :: cs => some (c :: cs)

/-- Whether the running task may execute a file. -/
def mayExecute (p : Task) (m : MInode) : Bool :=
  let i := if p.euid = m.uid then m.mode >>> 6
    else if p.egid = m.gid then m.mode >>> 3 else m.mode
  i % 2 = 1 || (m.mode &&& 0o111 ≠ 0 && p.suser)

/-- The end of `do_execve`: the program of an inode replaces that of the running task. -/
def replaceProgram (inode euid egid : ℕ) : K Unit := do
  setExecutable (some inode)
  closeWhere (fun p fd => p.closeOnExec fd) nrOpen 0
  modifyCur fun p => { p with closeOnExec := fun _ => false, euid, egid }

/-- The error returns of `do_execve` with an inode. -/
def execError (inode : ℕ) (e : Errno) : K Status := do
  iput inode
  pure (.error e)

/-- `do_execve` from the test of the header on; `memory` says whether the arguments fit. -/
def execImage (memory : Bool) (m : MInode) (p : Task) (d : ℕ → ℕ) (inode : ℕ) : K Status := do
  if goodHeader d m.size = false then execError inode .ENOEXEC
  else if memory = false then execError inode .ENOMEM
  else
    replaceProgram inode (if m.mode &&& 0o4000 ≠ 0 then m.uid else p.euid)
      (if m.mode &&& 0o2000 ≠ 0 then m.gid else p.egid)
    pure (.ok ())

/-- `do_execve` from `restart_interp` on; `script` is what it does instead with a script. -/
def execFile (memory : Bool) (script : (ℕ → ℕ) → Option (K Status)) (inode : ℕ) : K Status := do
  let m ← Prog.read fun s => s.inode inode
  let p ← Prog.read Fs.cur
  if isReg m.mode = false then execError inode .EACCES
  else if mayExecute p m = false then execError inode .ENOEXEC
  else
    match ← bread m.dev (m.zone 0) with
    | none => execError inode .EACCES
    | some bh =>
      let d ← Prog.read fun s => s.data bh
      brelse bh
      (script d).getD (execImage memory m p d inode)

/-- The `#!` part of `do_execve`: the interpreter is executed, and is not a script again. -/
def execScript (memory : Bool) (inode : ℕ) (d : ℕ → ℕ) : K Status := do
  iput inode
  match interpreter d with
  | none => pure (.error .ENOEXEC)
  | some interp =>
    if memory then
      match ← namei interp with
      | none => pure (.error .ENOENT)
      | some inode => execFile memory (fun _ => none) inode
    else pure (.error .ENOMEM)

/-- `do_execve` with the inode of the program. -/
def execInode (memory : Bool) (inode : ℕ) : K Status :=
  execFile memory (fun d => if d 0 = 35 ∧ d 1 = 33 then some (execScript memory inode d) else none)
    inode

/-- `do_execve`. -/
def doExecve (memory : Bool) (filename : List ℕ) : K Status := do
  match ← namei filename with
  | none => pure (.error .ENOENT)
  | some inode => execInode memory inode

end LihaLinux.Files
