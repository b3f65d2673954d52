import LihaLinux.Files.Inodes

/-!
# Names

The lookup of path names in directories, and the calls that make and remove directory entries.
A path name is the list of its bytes up to the terminating 0.
-/

namespace LihaLinux.Files

/-! ### Permissions -/

/-- `MAY_EXEC`. -/
def mayExec : ℕ := 1

/-- `MAY_WRITE`. -/
def mayWrite : ℕ := 2

/-- `suser()`. -/
def Task.suser (p : Task) : Bool := p.euid = 0

/-- The test of `permission`. -/
def permitted (p : Task) (m : MInode) (mask : ℕ) : Bool :=
  if m.dev ≠ 0 ∧ m.nlinks = 0 then false
  else
    let mode := if p.euid = m.uid then m.mode >>> 6
      else if p.egid = m.gid then m.mode >>> 3 else m.mode
    mode &&& mask &&& 7 = mask || p.suser

/-- `permission`. -/
def permission (inode mask : ℕ) : K Bool :=
  Prog.read fun s => permitted s.cur (s.inode inode) mask

/-- The error numbers. -/
inductive Errno
  | EPERM
  | ENOENT
  | EIoError
  | EBADF
  | EACCES
  | ENOTBLK
  | EBUSY
  | EEXIST
  | EXDEV
  | ENODEV
  | ENOTDIR
  | EISDIR
  | EINVAL
  | EMFILE
  | ENOSPC
  | ESPIPE
  | ENOEXEC
  | ENOMEM
  | EAGAIN
  | ENOTEMPTY
  | ERROR
  deriving DecidableEq

/-! ### Directories -/

/-- `match`: whether a directory entry has the name. -/
def matchEntry (namelen : ℕ) (name : List ℕ) (d : ℕ → ℕ) (k : ℕ) : Bool :=
  entryInode d k ≠ 0 && namelen ≤ nameLen && (namelen = nameLen || entryName d k namelen = 0) &&
    (List.range namelen).all fun i => name.getD i 0 = entryName d k i

/-- Where the loop over the entries of a directory stands. -/
inductive DirPos
  /-- At the entry `k` of a buffer. -/
  | entry (bh : Bh) (k : ℕ)
  /-- At a block without a buffer. -/
  | skip
  /-- `create_block` has found no zone. -/
  | full

/-- The first part of the loop over the entries of a directory: at the end of a block, or
without a buffer, go on to the block of entry `i`. -/
def dirPos (dir : ℕ) (create : Bool) (i : ℕ) (bh : Option Bh) (k : ℕ) : K DirPos :=
  match bh, decide (k < dirEntriesPerBlock) with
  | some bh, true => pure (.entry bh k)
  | bh, _ => do
    brelseOpt bh
    let block ← bmapBlock dir (i / dirEntriesPerBlock) create
    if block = 0 then pure (if create then .full else .skip)
    else
      let dev ← Prog.read fun s => (s.inode dir).dev
      match ← bread dev block with
      | none => pure .skip
      | some bh => pure (.entry bh 0)

/-- The loop of `find_entry` from entry `i` on, which is entry `k` of the buffer. -/
def findLoop (dir namelen : ℕ) (name : List ℕ) (entries : ℕ) :
    ℕ → ℕ → Option Bh → ℕ → K (Option (Bh × ℕ))
  | 0, _, bh, _ => do
    brelseOpt bh
    pure none
  | n + 1, i, bh, k =>
    if entries ≤ i then do
      brelseOpt bh
      pure none
    else do
      match ← dirPos dir false i bh k with
      | .entry bh k =>
        let d ← Prog.read fun s => s.data bh
        if matchEntry namelen name d k then pure (some (bh, k))
        else findLoop dir namelen name entries n (i + 1) (some bh) (k + 1)
      | _ => findLoop dir namelen name entries n (i + dirEntriesPerBlock) none k

/-- The special cases of `find_entry` for `..`: the name is cut to `.` in the root, and the
root of a mounted device is exchanged for its mount point. -/
def dotDot (dir : ℕ) (name : List ℕ) (namelen : ℕ) : K (ℕ × ℕ) := do
  let p ← Prog.read Fs.cur
  let m ← Prog.read fun s => s.inode dir
  if namelen = 2 ∧ name.getD 0 0 = 46 ∧ name.getD 1 0 = 46 then
    if p.root = some dir then pure (dir, 1)
    else if m.num = rootIno then
      match ← getSuper m.dev with
      | none => Prog.fail .noSuper
      | some sb =>
        match sb.imount with
        | none => pure (dir, namelen)
        | some mounted =>
          iput dir
          incCount mounted
          pure (mounted, namelen)
    else pure (dir, namelen)
  else pure (dir, namelen)

/-- The search of `find_entry` in a directory, for a number of entries. -/
def findIn (dir namelen : ℕ) (name : List ℕ) (entries : ℕ) : K (Option (Bh × ℕ)) := do
  let m ← Prog.read fun s => s.inode dir
  if m.zone 0 = 0 then pure none
  else
    match ← bread m.dev (m.zone 0) with
    | none => pure none
    | some bh => findLoop dir namelen name entries entries 0 (some bh) 0

/-- `find_entry`: the directory it has searched, and the entry with the buffer it is in. -/
def findEntry (dir : ℕ) (name : List ℕ) : K (ℕ × Option (Bh × ℕ)) := do
  let namelen := min name.length nameLen
  -- the size is that of the directory before the exchange
  let entries ← Prog.read fun s => (s.inode dir).size / 16
  if namelen = 0 then pure (dir, none)
  else
    let (dir, namelen) ← dotDot dir name namelen
    let res ← findIn dir namelen name entries
    pure (dir, res)

/-- The loop of `add_entry` from entry `i` on, which is entry `k` of the buffer. -/
def addLoop (dir namelen : ℕ) (name : List ℕ) : ℕ → ℕ → Option Bh → ℕ → K (Option (Bh × ℕ))
  | 0, _, _, _ => Prog.fail .bmapBlock
  | n + 1, i, bh, k => do
    match ← dirPos dir true i bh k with
    | .full => pure none
    | .skip => addLoop dir namelen name n (i + dirEntriesPerBlock) none k
    | .entry bh k =>
      let size ← Prog.read fun s => (s.inode dir).size
      let time ← Prog.read Fs.time
      Prog.when (size ≤ 16 * i) do
        modifyData bh fun d => setEntryInode d k 0
        modifyInode dir fun m => { m with size := 16 * (i + 1), dirt := true, ctime := time }
      let inr ← Prog.read fun s => entryInode (s.data bh) k
      if inr = 0 then
        modifyInode dir fun m => { m with mtime := time }
        modifyData bh fun d =>
          setEntryName d k nameLen fun i => if i < namelen then name.getD i 0 else 0
        pure (some (bh, k))
      else addLoop dir namelen name n (i + 1) (some bh) (k + 1)

/-- `add_entry`: a free entry with the name, and the buffer it is in. -/
def addEntry (dir : ℕ) (name : List ℕ) : K (Option (Bh × ℕ)) := do
  let namelen := min name.length nameLen
  if namelen = 0 then pure none
  else
    let m ← Prog.read fun s => s.inode dir
    if m.zone 0 = 0 then pure none
    else
      match ← bread m.dev (m.zone 0) with
      | none => pure none
      | some bh =>
        -- `_bmap` panics before the loop comes to the end of its fuel
        addLoop dir namelen name (dirEntriesPerBlock * Fs.maxBlock + 1) 0 (some bh) 0

/-! ### Path names -/

/-- The first component of a path name, and what comes after the `/` behind it. -/
def splitName : List ℕ → List ℕ × Option (List ℕ)
  | [] => ([], none)
  | c :: cs =>
    if c = 47 then ([], some cs)
    else (c :: (splitName cs).1, (splitName cs).2)

/-- What comes after the last `/` of a path name. -/
def baseName : List ℕ → List ℕ → List ℕ
  | [], base => base
  | c :: cs, base => baseName cs (if c = 47 then cs else base)

/-- `iget` of the inode that an entry names, after the entry and its directory have been
given back. -/
def getEntry (dir : ℕ) (bh : Bh) (k : ℕ) : K ℕ := do
  let inr ← Prog.read fun s => entryInode (s.data bh) k
  let dev ← Prog.read fun s => (s.inode dir).dev
  brelse bh
  iput dir
  iget dev inr

/-- The loop of `get_dir`. -/
def getDirLoop : ℕ → ℕ → List ℕ → K (Option ℕ)
  | 0, _, _ => Prog.fail .endless
  | n + 1, inode, pathname => do
    let m ← Prog.read fun s => s.inode inode
    let may ← permission inode mayExec
    if isDir m.mode && may then
      match splitName pathname with
      | (_, none) => pure (some inode)
      | (thisname, some pathname) =>
        let (dir, res) ← findEntry inode thisname
        match res with
        | none =>
          iput dir
          pure none
        | some (bh, k) =>
          let inode ← getEntry dir bh k
          getDirLoop n inode pathname
    else
      iput inode
      pure none

/-- `get_dir`: the directory of the last component of a path name. -/
def getDir (pathname : List ℕ) : K (Option ℕ) := do
  let p ← Prog.read Fs.cur
  let inodes ← Prog.read Fs.inode
  match p.root, p.pwd with
  | none, _ => Prog.fail .noRoot
  | some _, none => Prog.fail .noPwd
  | some root, some pwd =>
    if (inodes root).count = 0 then Prog.fail .noRoot
    else if (inodes pwd).count = 0 then Prog.fail .noPwd
    else
      match pathname with
      | [] => pure none
      | c :: rest =>
        if c = 47 then
          incCount root
          getDirLoop (rest.length + 1) root rest
        else
          incCount pwd
          getDirLoop (pathname.length + 1) pwd pathname

/-- `dir_namei`: the directory of a path name, and the name in it. -/
def dirNamei (pathname : List ℕ) : K (Option (ℕ × List ℕ)) := do
  match ← getDir pathname with
  | none => pure none
  | some dir => pure (some (dir, baseName pathname pathname))

/-- `namei`. -/
def namei (pathname : List ℕ) : K (Option ℕ) := do
  match ← dirNamei pathname with
  | none => pure none
  | some (dir, basename) =>
    if basename = [] then pure (some dir)
    else
      let (dir, res) ← findEntry dir basename
      match res with
      | none =>
        iput dir
        pure none
      | some (bh, k) =>
        let inode ← getEntry dir bh k
        let time ← Prog.read Fs.time
        modifyInode inode fun m => { m with atime := time, dirt := true }
        pure (some inode)

/-! ### `open_namei` -/

/-- `O_ACCMODE` of the flags. -/
def accMode (flag : ℕ) : ℕ := flag &&& 3

/-- `O_CREAT`. -/
def oCreat : ℕ := 0o100

/-- `O_EXCL`. -/
def oExcl : ℕ := 0o200

/-- `O_TRUNC`. -/
def oTrunc : ℕ := 0o1000

/-- Whether a flag is set. -/
def hasFlag (flag bit : ℕ) : Bool := flag &&& bit ≠ 0

/-- The string `ACC_MODE`: what `permission` is asked for, with `\377` for a mode that only the
super user gets. -/
def accMask (flag : ℕ) : ℕ := [4, 2, 6, 255].getD (accMode flag) 0

/-- `flag |= O_WRONLY` for `O_TRUNC` without an access mode. -/
def truncFlag (flag : ℕ) : ℕ :=
  if hasFlag flag oTrunc && accMode flag = 0 then flag ||| 1 else flag

/-- `inode->i_nlinks--`, of an `unsigned char`. -/
def MInode.addLinks (m : MInode) (n : ℕ) : MInode := { m with nlinks := (m.nlinks + n) % 256 }

/-- Store the number of an inode in a directory entry. -/
def storeEntry (bh : Bh) (k num : ℕ) : K Unit := modifyData bh fun d => setEntryInode d k num

/-- The part of `open_namei` that makes a file. -/
def openCreate (dir : ℕ) (basename : List ℕ) (mode : ℕ) : K (Except Errno ℕ) := do
  let may ← permission dir mayWrite
  if may then
    let dev ← Prog.read fun s => (s.inode dir).dev
    match ← newInode dev with
    | none =>
      iput dir
      pure (.error .ENOSPC)
    | some inode =>
      let p ← Prog.read Fs.cur
      modifyInode inode fun m => { m with uid := p.euid, mode, dirt := true }
      match ← addEntry dir basename with
      | none =>
        modifyInode inode fun m => m.addLinks 255
        iput inode
        iput dir
        pure (.error .ENOSPC)
      | some (bh, k) =>
        let num ← Prog.read fun s => (s.inode inode).num
        storeEntry bh k num
        brelse bh
        iput dir
        pure (.ok inode)
  else
    iput dir
    pure (.error .EACCES)

/-- The part of `open_namei` for a file that exists. -/
def openExisting (dir : ℕ) (bh : Bh) (k flag : ℕ) : K (Except Errno ℕ) := do
  let inr ← Prog.read fun s => entryInode (s.data bh) k
  let dev ← Prog.read fun s => (s.inode dir).dev
  brelse bh
  iput dir
  if hasFlag flag oExcl then pure (.error .EEXIST)
  else
    let inode ← iget dev inr
    let m ← Prog.read fun s => s.inode inode
    let may ← permission inode (accMask flag)
    if (isDir m.mode && accMode flag ≠ 0) || !may then
      iput inode
      pure (.error .EPERM)
    else
      let time ← Prog.read Fs.time
      modifyInode inode fun m => { m with atime := time }
      Prog.when (hasFlag flag oTrunc) (truncate inode)
      pure (.ok inode)

/-- `open_namei`. -/
def openNamei (pathname : List ℕ) (flag mode : ℕ) : K (Except Errno ℕ) := do
  let flag := truncFlag flag
  let umask ← Prog.read fun s => s.cur.umask
  -- `mode & 0777 & ~umask | I_REGULAR`
  let mode := (mode &&& 0o777) - (mode &&& 0o777 &&& umask) + 0o100000
  match ← dirNamei pathname with
  | none => pure (.error .ENOENT)
  | some (dir, basename) =>
    if basename = [] then
      if accMode flag = 0 ∧ hasFlag flag oCreat = false ∧ hasFlag flag oTrunc = false then
        pure (.ok dir)
      else
        iput dir
        pure (.error .EISDIR)
    else
      let (dir, res) ← findEntry dir basename
      match res with
      | none =>
        if hasFlag flag oCreat then openCreate dir basename mode
        else
          iput dir
          pure (.error .ENOENT)
      | some (bh, k) => openExisting dir bh k flag

end LihaLinux.Files
