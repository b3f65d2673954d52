import LihaLinux.Files.FileCalls

/-!
# Attributes of files

The calls that look up a file and read or change the fields of its inode.
-/

namespace LihaLinux.Files

/-- Look up a file, do something with its inode, and give the inode back. -/
def withInode (filename : List ℕ) (e : Errno) (f : ℕ → K Status) : K Status := do
  match ← namei filename with
  | none => pure (.error e)
  | some inode => f inode

/-- Change an inode that has been looked up, and give it back. -/
def changeInode (inode : ℕ) (f : MInode → MInode) : K Status := do
  modifyInode inode f
  iput inode
  pure (.ok ())

/-- Give an inode back and return an error. -/
def refuse (inode : ℕ) (e : Errno) : K Status := do
  iput inode
  pure (.error e)

/-- `sys_utime`, with `actime` and `modtime` if the pointer is not null. -/
def sysUtime (filename : List ℕ) (times : Option (ℕ × ℕ)) : K Status :=
  withInode filename .ENOENT fun inode => do
    let time ← Prog.read Fs.time
    let (actime, modtime) := times.getD (time, time)
    changeInode inode fun m => { m with atime := actime, mtime := modtime, dirt := true }

/-- `sys_access`. The group test shifts by 6 like that of the owner. -/
def sysAccess (filename : List ℕ) (mode : ℕ) : K Status :=
  withInode filename .EACCES fun inode => do
    let i ← Prog.read fun s => (s.inode inode).mode % 512
    iput inode
    let m ← Prog.read fun s => s.inode inode
    let p ← Prog.read Fs.cur
    let res := if p.uid = m.uid ∨ p.gid = m.gid then i >>> 6 else i
    if res &&& 7 &&& (mode % 8) = mode % 8 then pure (.ok ())
    else if p.uid = 0 ∧ (mode % 2 = 0 ∨ i &&& 0o111 ≠ 0) then pure (.ok ())
    else pure (.error .EACCES)

/-- `sys_chmod`. -/
def sysChmod (filename : List ℕ) (mode : ℕ) : K Status :=
  withInode filename .ENOENT fun inode => do
    let p ← Prog.read Fs.cur
    let m ← Prog.read fun s => s.inode inode
    if p.euid ≠ m.uid ∧ p.suser = false then refuse inode .EACCES
    else changeInode inode fun m =>
      { m with mode := mode % 4096 + 4096 * (m.mode / 4096), dirt := true }

/-- `sys_chown`; `i_uid` is an `unsigned short` and `i_gid` an `unsigned char`. -/
def sysChown (filename : List ℕ) (uid gid : ℕ) : K Status :=
  withInode filename .ENOENT fun inode => do
    let p ← Prog.read Fs.cur
    if p.suser = false then refuse inode .EACCES
    else changeInode inode fun m =>
      { m with uid := uid % 65536, gid := gid % 256, dirt := true }

/-- What `cp_stat` copies of an inode. -/
structure Stat where
  dev : ℕ
  ino : ℕ
  mode : ℕ
  nlink : ℕ
  uid : ℕ
  gid : ℕ
  rdev : ℕ
  size : ℕ
  atime : ℕ
  mtime : ℕ
  ctime : ℕ

/-- `cp_stat`. -/
def cpStat (m : MInode) : Stat where
  dev := m.dev
  ino := m.num
  mode := m.mode
  nlink := m.nlinks
  uid := m.uid
  gid := m.gid
  rdev := m.zone 0
  size := m.size
  atime := m.atime
  mtime := m.mtime
  ctime := m.ctime

/-- `sys_stat`. -/
def sysStat (filename : List ℕ) : K (Except Errno Stat) := do
  match ← namei filename with
  | none => pure (.error .ENOENT)
  | some inode =>
    let m ← Prog.read fun s => s.inode inode
    iput inode
    pure (.ok (cpStat m))

/-- `sys_fstat`. -/
def sysFstat (fd : ℕ) : K (Except Errno Stat) := do
  let p ← Prog.read Fs.cur
  match p.getFilp fd with
  | none => pure (.error .EBADF)
  | some f =>
    let e ← Prog.read fun s => s.file f
    let m ← Prog.read fun s => s.inode e.inode
    pure (.ok (cpStat m))

end LihaLinux.Files
