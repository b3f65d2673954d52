import LihaLinux.Lib.Prog
import Mathlib.Logic.Function.Basic

/-!
# The state of the file system

The state that the file-system calls share when they are executed one after another: the
buffer cache and the devices, the inode table and the inodes on the devices, the bitmaps, the
super blocks, the file table and the tasks. The inode blocks and the bitmap blocks of a device
are kept as tables of inodes and bits; their buffers are counted like all others. No call sees
another one half done, so the locks and the waiting on them are left out.
-/

namespace LihaLinux.Files

/-! ### Inodes -/

/-- `struct d_inode`, the part of an inode that is on the device. -/
structure DInode where
  mode : ℕ
  uid : ℕ
  size : ℕ
  mtime : ℕ
  gid : ℕ
  nlinks : ℕ
  /-- `i_zone[9]`. -/
  zone : ℕ → ℕ

/-- `struct m_inode`. -/
structure MInode extends DInode where
  atime : ℕ
  ctime : ℕ
  dev : ℕ
  num : ℕ
  count : ℕ
  dirt : Bool
  pipe : Bool
  mount : Bool

/-- `memset(inode,0,sizeof(*inode))`. -/
def MInode.zero : MInode where
  mode := 0
  uid := 0
  size := 0
  mtime := 0
  gid := 0
  nlinks := 0
  zone _ := 0
  atime := 0
  ctime := 0
  dev := 0
  num := 0
  count := 0
  dirt := false
  pipe := false
  mount := false

/-- `mode & S_IFMT`, shifted to the right. -/
def fileType (mode : ℕ) : ℕ := mode / 4096 % 16

/-- `S_ISREG`. -/
def isReg (mode : ℕ) : Bool := fileType mode = 8

/-- `S_ISDIR`. -/
def isDir (mode : ℕ) : Bool := fileType mode = 4

/-- `S_ISCHR`. -/
def isChr (mode : ℕ) : Bool := fileType mode = 2

/-- `S_ISBLK`. -/
def isBlk (mode : ℕ) : Bool := fileType mode = 6

/-! ### Tables -/

/-- A block of a device, and the buffer for it. -/
structure Bh where
  dev : ℕ
  blocknr : ℕ
  deriving DecidableEq

/-- `struct super_block`. -/
structure SuperBlock where
  ninodes : ℕ
  nzones : ℕ
  /-- The number of blocks in `s_imap`. -/
  imapBlocks : ℕ
  /-- The number of blocks in `s_zmap`. -/
  zmapBlocks : ℕ
  firstdatazone : ℕ
  dev : ℕ
  isup : Option ℕ
  imount : Option ℕ

/-- `struct file`. -/
structure File where
  mode : ℕ
  flags : ℕ
  count : ℕ
  /-- `f_inode`, which is stale in an entry that is not in use. -/
  inode : ℕ
  pos : ℕ

/-- A super block that is not in use. -/
def SuperBlock.zero : SuperBlock where
  ninodes := 0
  nzones := 0
  imapBlocks := 0
  zmapBlocks := 0
  firstdatazone := 0
  dev := 0
  isup := none
  imount := none

/-- What the file system uses of `struct task_struct`. The pointers of a task slot that is not
in use are null. -/
structure Task where
  used : Bool
  uid : ℕ
  gid : ℕ
  euid : ℕ
  egid : ℕ
  umask : ℕ
  leader : Bool
  /-- `tty`, when it is not negative. -/
  tty : Option ℕ
  closeOnExec : ℕ → Bool
  pwd : Option ℕ
  root : Option ℕ
  executable : Option ℕ
  filp : ℕ → Option ℕ

/-- A task slot that is not in use. -/
def Task.zero : Task where
  used := false
  uid := 0
  gid := 0
  euid := 0
  egid := 0
  umask := 0
  leader := false
  tty := none
  closeOnExec _ := false
  pwd := none
  root := none
  executable := none
  filp _ := none

/-- `NR_INODE`. -/
def nrInode : ℕ := 32

/-- `NR_SUPER`. -/
def nrSuper : ℕ := 8

/-- `NR_FILE`. -/
def nrFile : ℕ := 64

/-- `NR_OPEN`. -/
def nrOpen : ℕ := 20

/-- `NR_TASKS`. -/
def nrTasks : ℕ := 64

/-- `NAME_LEN`. -/
def nameLen : ℕ := 14

/-- `ROOT_INO`. -/
def rootIno : ℕ := 1

/-- `INODES_PER_BLOCK`. -/
def inodesPerBlock : ℕ := 32

/-- `DIR_ENTRIES_PER_BLOCK`. -/
def dirEntriesPerBlock : ℕ := 64

/-- The state of the file system. -/
structure Fs where
  /-- The bytes of the buffer of a block. -/
  data : Bh → ℕ → ℕ
  /-- `b_uptodate` of the buffer of a block, which is clear for a block without a buffer. -/
  uptodate : Bh → Bool
  /-- The bytes of a block on the device. -/
  disk : Bh → ℕ → ℕ
  /-- `b_count` of the buffer of a block. -/
  bcount : Bh → ℕ
  /-- The blocks whose reading fails. -/
  bad : Bh → Bool
  /-- The inodes on the devices, by device and number. -/
  dinode : ℕ → ℕ → DInode
  /-- The bits of `s_imap`, by device. -/
  imap : ℕ → ℕ → Bool
  /-- The bits of `s_zmap`, by device. -/
  zmap : ℕ → ℕ → Bool
  inode : ℕ → MInode
  lastInode : ℕ
  super : ℕ → SuperBlock
  file : ℕ → File
  task : ℕ → Task
  /-- The bytes of the pages of pipes, by their addresses. -/
  page : ℕ → ℕ → ℕ
  /-- `current`. -/
  current : ℕ
  /-- `CURRENT_TIME`. -/
  time : ℕ
  /-- The buffers to which a reference has been dropped without `brelse`; no code reads this. -/
  leaked : List Bh
  /-- The buffers that are about to be released a second time; no code reads this. -/
  twice : List Bh

/-- The state with nothing in the tables and on the devices. -/
def Fs.empty : Fs where
  data _ _ := 0
  uptodate _ := false
  disk _ _ := 0
  bcount _ := 0
  bad _ := false
  dinode _ _ := MInode.zero.toDInode
  imap _ _ := false
  zmap _ _ := false
  inode _ := .zero
  lastInode := 0
  super _ := .zero
  file _ := { mode := 0, flags := 0, count := 0, inode := 0, pos := 0 }
  task _ := .zero
  page _ _ := 0
  current := 0
  time := 0
  leaked := []
  twice := []

/-- The calls of `panic`, and an endless loop. -/
inductive Panic
  | freeFreeBuffer
  | bmapBlock
  | getBlockNoDevice
  | bitSet
  | countNotOne
  | freeBlockNoDevice
  | notInDatazone
  | bitCleared
  | freeInodeCount
  | freeInodeLinks
  | freeInodeNoDevice
  | freeInodeNumber
  | noImap
  | noZmap
  | newInodeNoDevice
  | writeNoDevice
  | readNoDevice
  | inodeBlock
  | iputFree
  | noFreeInodes
  | igetNoDevice
  | noRoot
  | noPwd
  | closeCount
  | noSuper
  | endless
  deriving DecidableEq

/-- A program of the file system. -/
abbrev K (α : Type) : Type := Prog Fs Panic α

namespace Fs

/-- The task that runs. -/
def cur (s : Fs) : Task := s.task s.current

/-- Store an inode. -/
def setInode (s : Fs) (i : ℕ) (n : MInode) : Fs := { s with inode := Function.update s.inode i n }

/-- Store `b_count`. -/
def setCount (s : Fs) (bh : Bh) (c : ℕ) : Fs :=
  { s with bcount := Function.update s.bcount bh c }

/-- Store the bytes of a block. -/
def setData (s : Fs) (bh : Bh) (d : ℕ → ℕ) : Fs := { s with data := Function.update s.data bh d }

/-- Store `b_uptodate`. -/
def setUptodate (s : Fs) (bh : Bh) (b : Bool) : Fs :=
  { s with uptodate := Function.update s.uptodate bh b }

/-- Read a block into its buffer. -/
def load (s : Fs) (bh : Bh) : Fs := (s.setData bh (s.disk bh)).setUptodate bh true

/-- Store a bit of `s_zmap`. -/
def setZmap (s : Fs) (dev k : ℕ) (b : Bool) : Fs :=
  { s with zmap := Function.update s.zmap dev (Function.update (s.zmap dev) k b) }

/-- Store a bit of `s_imap`. -/
def setImap (s : Fs) (dev k : ℕ) (b : Bool) : Fs :=
  { s with imap := Function.update s.imap dev (Function.update (s.imap dev) k b) }

/-- Store an inode in its block. -/
def setDinode (s : Fs) (dev num : ℕ) (d : DInode) : Fs :=
  { s with dinode := Function.update s.dinode dev (Function.update (s.dinode dev) num d) }

/-- Store an entry of the file table. -/
def setFile (s : Fs) (f : ℕ) (e : File) : Fs := { s with file := Function.update s.file f e }

/-- Store a super block. -/
def setSuper (s : Fs) (k : ℕ) (sb : SuperBlock) : Fs :=
  { s with super := Function.update s.super k sb }

/-- Store the bytes of a page. -/
def setPage (s : Fs) (a : ℕ) (d : ℕ → ℕ) : Fs := { s with page := Function.update s.page a d }

/-- Store a task. -/
def setTask (s : Fs) (t : ℕ) (p : Task) : Fs := { s with task := Function.update s.task t p }

/-- Store the fields of the running task. -/
def setCur (s : Fs) (p : Task) : Fs := s.setTask s.current p

@[simp] theorem setFile_self (s : Fs) (f : ℕ) (e : File) : (s.setFile f e).file f = e :=
  Function.update_self ..

theorem setFile_ne (s : Fs) {f g : ℕ} (hg : g ≠ f) (e : File) :
    (s.setFile f e).file g = s.file g := Function.update_of_ne hg ..

@[simp] theorem setSuper_self (s : Fs) (k : ℕ) (sb : SuperBlock) :
    (s.setSuper k sb).super k = sb := Function.update_self ..

theorem setSuper_ne (s : Fs) {k j : ℕ} (hj : j ≠ k) (sb : SuperBlock) :
    (s.setSuper k sb).super j = s.super j := Function.update_of_ne hj ..

@[simp] theorem setTask_self (s : Fs) (t : ℕ) (p : Task) : (s.setTask t p).task t = p :=
  Function.update_self ..

theorem setTask_ne (s : Fs) {t u : ℕ} (hu : u ≠ t) (p : Task) :
    (s.setTask t p).task u = s.task u := Function.update_of_ne hu ..

@[simp] theorem setCur_cur (s : Fs) (p : Task) : (s.setCur p).cur = p := setTask_self ..

end Fs

/-- Change an inode. -/
def modifyInode (i : ℕ) (f : MInode → MInode) : K Unit :=
  Prog.update fun s => s.setInode i (f (s.inode i))

/-- Change the file table. -/
def modifyFile (i : ℕ) (f : File → File) : K Unit :=
  Prog.update fun s => s.setFile i (f (s.file i))

/-- Change a super block. -/
def modifySuper (k : ℕ) (f : SuperBlock → SuperBlock) : K Unit :=
  Prog.update fun s => s.setSuper k (f (s.super k))

/-- Change the running task. -/
def modifyCur (f : Task → Task) : K Unit := Prog.update fun s => s.setCur (f s.cur)

/-! ### Numbers in blocks -/

/-- The `unsigned short` at index `k` of a block. -/
def word (d : ℕ → ℕ) (k : ℕ) : ℕ := d (2 * k) + 256 * d (2 * k + 1)

/-- A block with the `unsigned short` at index `k` stored. -/
def setWord (d : ℕ → ℕ) (k v : ℕ) : ℕ → ℕ :=
  Function.update (Function.update d (2 * k) (v % 256)) (2 * k + 1) (v / 256 % 256)

/-- `de->inode` of the directory entry at index `k` of a block. -/
def entryInode (d : ℕ → ℕ) (k : ℕ) : ℕ := word d (8 * k)

/-- `de->name[i]` of the directory entry at index `k` of a block. -/
def entryName (d : ℕ → ℕ) (k i : ℕ) : ℕ := d (16 * k + 2 + i)

/-- A block with `de->inode` of the entry at index `k` stored. -/
def setEntryInode (d : ℕ → ℕ) (k v : ℕ) : ℕ → ℕ := setWord d (8 * k) v

/-- A block with the first `n` bytes of `de->name` of the entry at index `k` stored. -/
def setEntryName (d : ℕ → ℕ) (k n : ℕ) (name : ℕ → ℕ) : ℕ → ℕ := fun b =>
  if 16 * k + 2 ≤ b ∧ b < 16 * k + 2 + n then name (b - (16 * k + 2)) else d b

/-! ### The buffer cache -/

/-- `getblk`: a reference to the buffer of a block. -/
def getblk (dev block : ℕ) : K Bh := do
  Prog.update fun s => s.setCount ⟨dev, block⟩ (s.bcount ⟨dev, block⟩ + 1)
  pure ⟨dev, block⟩

/-- `ll_rw_block(READ,bh)` and `wait_on_buffer`. -/
def readBlock (bh : Bh) : K Unit :=
  Prog.update fun s => if s.uptodate bh || s.bad bh then s else s.load bh

/-- `brelse` of a buffer. -/
def brelse (bh : Bh) : K Unit := do
  let count ← Prog.read fun s => s.bcount bh
  if count = 0 then Prog.fail .freeFreeBuffer
  else Prog.update fun s => s.setCount bh (count - 1)

/-- `bread`: a reference to the buffer of a block with the bytes of the block in it. -/
def bread (dev block : ℕ) : K (Option Bh) := do
  let bh ← getblk dev block
  readBlock bh
  let uptodate ← Prog.read fun s => s.uptodate bh
  if uptodate then pure (some bh)
  else
    brelse bh
    pure none

/-- `brelse` of a buffer or of `NULL`. -/
def brelseOpt : Option Bh → K Unit
  | none => pure ()
  | some bh => brelse bh

/-- Note that the code forgets a reference to a buffer. -/
def leak (bh : Bh) : K Unit := Prog.update fun s => { s with leaked := bh :: s.leaked }

/-- Note that the code goes on with a buffer that it has released. -/
def releaseTwice (bh : Bh) : K Unit := Prog.update fun s => { s with twice := bh :: s.twice }

/-- Change the bytes of a block. -/
def modifyData (bh : Bh) (f : (ℕ → ℕ) → ℕ → ℕ) : K Unit :=
  Prog.update fun s => s.setData bh (f (s.data bh))

/-! ### Super blocks -/

/-- The search of `get_super` from entry `k` on. -/
def findSuper (super : ℕ → SuperBlock) (dev : ℕ) : ℕ → ℕ → Option ℕ
  | 0, _ => none
  | n + 1, k => if (super k).dev = dev then some k else findSuper super dev n (k + 1)

/-- `get_super`. -/
def getSuper (dev : ℕ) : K (Option SuperBlock) := Prog.read fun s =>
  if dev = 0 then none else (findSuper s.super dev nrSuper 0).map s.super

end LihaLinux.Files
