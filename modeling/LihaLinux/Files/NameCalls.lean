import LihaLinux.Files.Namei

/-!
# Calls that change directories

`sys_mknod`, `sys_mkdir`, `sys_rmdir`, `sys_unlink` and `sys_link`.
-/

namespace LihaLinux.Files

/-- The result of a call that returns 0 or an error. -/
abbrev Status := Except Errno Unit

/-! ### Making entries -/

/-- The directory of a path name in which the running task may make an entry, with the name;
`e` is the error when the task may not write the directory. -/
def createIn (dir : ℕ) (basename : List ℕ) (e : Errno) (make : ℕ → K Status) : K Status := do
  if basename = [] then
    iput dir
    pure (.error .ENOENT)
  else
    let may ← permission dir mayWrite
    if may then
      let (dir, res) ← findEntry dir basename
      match res with
      | some (bh, _) =>
        brelse bh
        iput dir
        pure (.error .EEXIST)
      | none => make dir
    else
      iput dir
      pure (.error e)

/-- The part of `sys_mknod` that makes the inode and its entry. -/
def mknodIn (basename : List ℕ) (mode device dir : ℕ) : K Status := do
  let dev ← Prog.read fun s => (s.inode dir).dev
  match ← newInode dev with
  | none =>
    iput dir
    pure (.error .ENOSPC)
  | some inode =>
    let time ← Prog.read Fs.time
    modifyInode inode fun m => { m with
      mode := mode % 65536
      zone := if isBlk mode || isChr mode then Function.update m.zone 0 (device % 65536) else m.zone
      mtime := time
      atime := time
      dirt := true }
    match ← addEntry dir basename with
    | none =>
      iput dir
      modifyInode inode fun m => { m with nlinks := 0 }
      iput inode
      pure (.error .ENOSPC)
    | some (bh, k) =>
      let num ← Prog.read fun s => (s.inode inode).num
      storeEntry bh k num
      iput dir
      iput inode
      brelse bh
      pure (.ok ())

/-- `sys_mknod`. -/
def sysMknod (filename : List ℕ) (mode device : ℕ) : K Status := do
  let p ← Prog.read Fs.cur
  if p.suser then
    match ← dirNamei filename with
    | none => pure (.error .ENOENT)
    | some (dir, basename) => createIn dir basename .EPERM (mknodIn basename mode device)
  else pure (.error .EPERM)

/-- The entries `.` and `..` of a new directory. -/
def dotEntries (num parent : ℕ) (d : ℕ → ℕ) : ℕ → ℕ :=
  let d := setEntryName (setEntryInode d 0 num) 0 2 fun i => [46, 0].getD i 0
  setEntryName (setEntryInode d 1 parent) 1 3 fun i => [46, 46, 0].getD i 0

/-- The part of `sys_mkdir` that makes the entry in the parent directory, after the block of the
new directory has been made. -/
def mkdirEntry (basename : List ℕ) (dir inode : ℕ) : K Status := do
  match ← addEntry dir basename with
  | none =>
    iput dir
    let m ← Prog.read fun s => s.inode inode
    freeBlock m.dev (m.zone 0)
    modifyInode inode fun m => { m with nlinks := 0 }
    iput inode
    pure (.error .ENOSPC)
  | some (bh, k) =>
    let num ← Prog.read fun s => (s.inode inode).num
    storeEntry bh k num
    modifyInode dir fun m => { m.addLinks 1 with dirt := true }
    iput dir
    iput inode
    brelse bh
    pure (.ok ())

/-- The part of `sys_mkdir` that makes the inode, its block and its entry. -/
def mkdirIn (basename : List ℕ) (mode dir : ℕ) : K Status := do
  let dev ← Prog.read fun s => (s.inode dir).dev
  match ← newInode dev with
  | none =>
    iput dir
    pure (.error .ENOSPC)
  | some inode =>
    let time ← Prog.read Fs.time
    modifyInode inode fun m =>
      { m with size := 32, dirt := true, mtime := time, atime := time }
    let zone ← newBlock dev
    modifyInode inode fun m => { m with zone := Function.update m.zone 0 zone }
    if zone = 0 then
      iput dir
      modifyInode inode fun m => m.addLinks 255
      iput inode
      pure (.error .ENOSPC)
    else
      modifyInode inode fun m => { m with dirt := true }
      match ← bread dev zone with
      | none =>
        iput dir
        freeBlock dev zone
        modifyInode inode fun m => m.addLinks 255
        iput inode
        pure (.error .ERROR)
      | some bh =>
        let num ← Prog.read fun s => (s.inode inode).num
        let parent ← Prog.read fun s => (s.inode dir).num
        modifyData bh (dotEntries num parent)
        modifyInode inode fun m => { m with nlinks := 2 }
        brelse bh
        let umask ← Prog.read fun s => s.cur.umask
        -- `I_DIRECTORY | mode & 0777 & ~umask`
        modifyInode inode fun m => { m with
          mode := 0o040000 + ((mode &&& 0o777) - (mode &&& 0o777 &&& umask)), dirt := true }
        mkdirEntry basename dir inode

/-- `sys_mkdir`. -/
def sysMkdir (pathname : List ℕ) (mode : ℕ) : K Status := do
  let p ← Prog.read Fs.cur
  if p.suser then
    match ← dirNamei pathname with
    | none => pure (.error .ENOENT)
    | some (dir, basename) => createIn dir basename .EPERM (mkdirIn basename mode)
  else pure (.error .EPERM)

/-! ### Removing entries -/

/-- The loop of `empty_dir` from entry `nr` on, which is entry `k` of the buffer. A block that
is not there leaves the buffer as it is, released. -/
def emptyLoop (dir len : ℕ) : ℕ → ℕ → Bh → ℕ → K Bool
  | 0, _, bh, _ => do
    brelse bh
    pure true
  | n + 1, nr, bh, k =>
    if len ≤ nr then do
      brelse bh
      pure true
    else if k < dirEntriesPerBlock then do
      let inr ← Prog.read fun s => entryInode (s.data bh) k
      if inr ≠ 0 then
        brelse bh
        pure false
      else emptyLoop dir len n (nr + 1) bh (k + 1)
    else do
      brelse bh
      let block ← bmap dir (nr / dirEntriesPerBlock)
      if block = 0 then
        releaseTwice bh
        emptyLoop dir len n (nr + dirEntriesPerBlock) bh k
      else
        let dev ← Prog.read fun s => (s.inode dir).dev
        match ← bread dev block with
        | none => pure false
        | some bh =>
          let inr ← Prog.read fun s => entryInode (s.data bh) 0
          if inr ≠ 0 then
            brelse bh
            pure false
          else emptyLoop dir len n (nr + 1) bh 1

/-- The test of `empty_dir` for the first two entries of a directory. -/
def goodDir (num : ℕ) (d : ℕ → ℕ) : Bool :=
  entryInode d 0 = num && entryInode d 1 ≠ 0 && entryName d 0 0 = 46 && entryName d 0 1 = 0 &&
    entryName d 1 0 = 46 && entryName d 1 1 = 46 && entryName d 1 2 = 0

/-- `empty_dir`. -/
def emptyDir (inode : ℕ) : K Bool := do
  let m ← Prog.read fun s => s.inode inode
  if m.size / 16 < 2 ∨ m.zone 0 = 0 then pure false
  else
    match ← bread m.dev (m.zone 0) with
    | none => pure false
    | some bh =>
      let d ← Prog.read fun s => s.data bh
      if goodDir m.num d then emptyLoop inode (m.size / 16) (m.size / 16) 2 bh 2
      else
        leak bh
        pure false

/-- The error returns of `sys_rmdir` and `sys_unlink` after the entry has been found. -/
def leaveEntry (dir inode : ℕ) (bh : Bh) (e : Errno) : K Status := do
  iput dir
  iput inode
  brelse bh
  pure (.error e)

/-- `leaveEntry`, with the inode before the directory. -/
def leaveInode (dir inode : ℕ) (bh : Bh) (e : Errno) : K Status := do
  iput inode
  iput dir
  brelse bh
  pure (.error e)

/-- The directory of a path name from which the running task may remove an entry, with the
entry and its inode. -/
def removeFrom (pathname : List ℕ) (remove : ℕ → ℕ → Bh → ℕ → K Status) : K Status := do
  match ← dirNamei pathname with
  | none => pure (.error .ENOENT)
  | some (dir, basename) =>
    if basename = [] then
      iput dir
      pure (.error .ENOENT)
    else
      let may ← permission dir mayWrite
      if may then
        let (dir, res) ← findEntry dir basename
        match res with
        | none =>
          iput dir
          pure (.error .ENOENT)
        | some (bh, k) =>
          let inr ← Prog.read fun s => entryInode (s.data bh) k
          let dev ← Prog.read fun s => (s.inode dir).dev
          let inode ← iget dev inr
          remove dir inode bh k
      else
        iput dir
        pure (.error .EPERM)

/-- `mode & S_ISVTX`. -/
def isSticky (mode : ℕ) : Bool := mode / 512 % 2 = 1

/-- The part of `sys_rmdir` that removes the entry. -/
def rmdirEntry (dir inode : ℕ) (bh : Bh) (k : ℕ) : K Status := do
  let p ← Prog.read Fs.cur
  let d ← Prog.read fun s => s.inode dir
  let m ← Prog.read fun s => s.inode inode
  if isSticky d.mode ∧ p.euid ≠ 0 ∧ m.uid ≠ p.euid then leaveEntry dir inode bh .EPERM
  else if m.dev ≠ d.dev ∨ 1 < m.count then leaveEntry dir inode bh .EPERM
  else if inode = dir then leaveInode dir inode bh .EPERM
  else if isDir m.mode = false then leaveInode dir inode bh .ENOTDIR
  else
    let empty ← emptyDir inode
    if empty then
      storeEntry bh k 0
      brelse bh
      modifyInode inode fun m => { m with nlinks := 0, dirt := true }
      let time ← Prog.read Fs.time
      modifyInode dir fun m =>
        { m.addLinks 255 with ctime := time, mtime := time, dirt := true }
      iput dir
      iput inode
      pure (.ok ())
    else leaveInode dir inode bh .ENOTEMPTY

/-- `sys_rmdir`. -/
def sysRmdir (name : List ℕ) : K Status := do
  let p ← Prog.read Fs.cur
  if p.suser then removeFrom name rmdirEntry else pure (.error .EPERM)

/-- The part of `sys_unlink` that removes the entry. -/
def unlinkEntry (dir inode : ℕ) (bh : Bh) (k : ℕ) : K Status := do
  let p ← Prog.read Fs.cur
  let d ← Prog.read fun s => s.inode dir
  let m ← Prog.read fun s => s.inode inode
  if isSticky d.mode ∧ p.suser = false ∧ p.euid ≠ m.uid ∧ p.euid ≠ d.uid then
    leaveEntry dir inode bh .EPERM
  else if isDir m.mode then leaveInode dir inode bh .EPERM
  else
    Prog.when (m.nlinks = 0) (modifyInode inode fun m => { m with nlinks := 1 })
    storeEntry bh k 0
    brelse bh
    let time ← Prog.read Fs.time
    modifyInode inode fun m => { m.addLinks 255 with dirt := true, ctime := time }
    iput inode
    iput dir
    pure (.ok ())

/-- `sys_unlink`. -/
def sysUnlink (name : List ℕ) : K Status := removeFrom name unlinkEntry

/-- The part of `sys_link` that makes the entry. -/
def linkIn (basename : List ℕ) (oldinode dir : ℕ) : K Status := do
  match ← addEntry dir basename with
  | none =>
    iput dir
    iput oldinode
    pure (.error .ENOSPC)
  | some (bh, k) =>
    let num ← Prog.read fun s => (s.inode oldinode).num
    storeEntry bh k num
    brelse bh
    iput dir
    let time ← Prog.read Fs.time
    modifyInode oldinode fun m => { m.addLinks 1 with ctime := time, dirt := true }
    iput oldinode
    pure (.ok ())

/-- The error returns of `sys_link`. -/
def leaveLink (dir oldinode : ℕ) (e : Errno) : K Status := do
  iput dir
  iput oldinode
  pure (.error e)

/-- `sys_link`. -/
def sysLink (oldname newname : List ℕ) : K Status := do
  match ← namei oldname with
  | none => pure (.error .ENOENT)
  | some oldinode =>
    let m ← Prog.read fun s => s.inode oldinode
    if isDir m.mode then
      iput oldinode
      pure (.error .EPERM)
    else
      match ← dirNamei newname with
      | none =>
        iput oldinode
        pure (.error .EACCES)
      | some (dir, basename) =>
        if basename = [] then
          iput oldinode
          iput dir
          pure (.error .EPERM)
        else
          let d ← Prog.read fun s => (s.inode dir).dev
          let dev ← Prog.read fun s => (s.inode oldinode).dev
          if d ≠ dev then leaveLink dir oldinode .EXDEV
          else
            let may ← permission dir mayWrite
            if may then
              let (dir, res) ← findEntry dir basename
              match res with
              | some (bh, _) =>
                brelse bh
                leaveLink dir oldinode .EEXIST
              | none => linkIn basename oldinode dir
            else leaveLink dir oldinode .EACCES

end LihaLinux.Files
