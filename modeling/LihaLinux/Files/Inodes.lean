import LihaLinux.Files.Zones

/-!
# The inode table

`iget` finds an inode in the table or reads it into a slot that is not in use, `iput` gives a
reference back, and the last reference to an inode without links frees it.
-/

namespace LihaLinux.Files

/-! ### Reading and writing -/

/-- The block of an inode on its device. -/
def inodeBlock (sb : SuperBlock) (num : ℕ) : ℕ :=
  2 + sb.imapBlocks + sb.zmapBlocks + (num - 1) / inodesPerBlock

/-- `read_inode`. -/
def readInode (inode : ℕ) : K Unit := do
  let m ← Prog.read fun s => s.inode inode
  match ← getSuper m.dev with
  | none => Prog.fail .readNoDevice
  | some sb =>
    match ← bread m.dev (inodeBlock sb m.num) with
    | none => Prog.fail .inodeBlock
    | some bh =>
      Prog.update fun s =>
        s.setInode inode { s.inode inode with toDInode := s.dinode m.dev m.num }
      brelse bh

/-- `write_inode`. -/
def writeInode (inode : ℕ) : K Unit := do
  let m ← Prog.read fun s => s.inode inode
  if m.dirt = false ∨ m.dev = 0 then pure ()
  else
    match ← getSuper m.dev with
    | none => Prog.fail .writeNoDevice
    | some sb =>
      match ← bread m.dev (inodeBlock sb m.num) with
      | none => Prog.fail .inodeBlock
      | some bh =>
        Prog.update fun s => s.setDinode m.dev m.num m.toDInode
        modifyInode inode fun m => { m with dirt := false }
        brelse bh

/-- `sync_inodes`, with `n` slots left from slot `i` on. -/
def syncInodes : ℕ → ℕ → K Unit
  | 0, _ => pure ()
  | n + 1, i => do
    let m ← Prog.read fun s => s.inode i
    Prog.when (m.dirt = true ∧ m.pipe = false) (writeInode i)
    syncInodes n (i + 1)

/-- Write the buffers of a device. -/
def syncBuffers (dev : ℕ) : K Unit := Prog.update fun s =>
  { s with disk := fun bh => if bh.dev = dev ∧ s.uptodate bh then s.data bh else s.disk bh }

/-- `sync_dev`. -/
def syncDev (dev : ℕ) : K Unit := do
  syncBuffers dev
  syncInodes nrInode 0
  syncBuffers dev

/-! ### Freeing -/

/-- `free_inode`. -/
def freeInode (inode : ℕ) : K Unit := do
  let m ← Prog.read fun s => s.inode inode
  if m.dev = 0 then modifyInode inode fun _ => .zero
  else if 1 < m.count then Prog.fail .freeInodeCount
  else if m.nlinks ≠ 0 then Prog.fail .freeInodeLinks
  else
    match ← getSuper m.dev with
    | none => Prog.fail .freeInodeNoDevice
    | some sb =>
      if m.num < 1 ∨ sb.ninodes < m.num then Prog.fail .freeInodeNumber
      else if sb.imapBlocks ≤ m.num / 8192 then Prog.fail .noImap
      else
        -- a bit that is clear already is reported only
        Prog.update fun s => s.setImap m.dev m.num false
        modifyInode inode fun _ => .zero

/-- Change `i_count`, an `unsigned short`. -/
def MInode.addCount (m : MInode) (n : ℕ) : MInode := { m with count := (m.count + n) % 65536 }

/-- `inode->i_count++`. -/
def incCount (inode : ℕ) : K Unit := modifyInode inode fun m => m.addCount 1

/-- `inode->i_count--`. -/
def decCount (inode : ℕ) : K Unit := modifyInode inode fun m => m.addCount 65535

/-- The end of `iput`, for an inode that is not a pipe. -/
def iputFile (inode : ℕ) : K Unit := do
  let m ← Prog.read fun s => s.inode inode
  if 1 < m.count then decCount inode
  else if m.nlinks = 0 then
    truncate inode
    freeInode inode
  else
    -- a written inode is clean, and `repeat` comes to the end
    writeInode inode
    decCount inode

/-- `iput` of an inode. -/
def iput (inode : ℕ) : K Unit := do
  let m ← Prog.read fun s => s.inode inode
  if m.count = 0 then Prog.fail .iputFree
  else if m.pipe then
    if m.count = 1 then
      modifyInode inode fun m => { m with count := 0, dirt := false, pipe := false }
    else decCount inode
  else if m.dev = 0 then decCount inode
  else
    Prog.when (isBlk m.mode) (syncDev (m.zone 0))
    iputFile inode

/-- `iput` of an inode or of `NULL`. -/
def iputOpt : Option ℕ → K Unit
  | none => pure ()
  | some inode => iput inode

/-! ### Getting -/

/-- The loop of `get_empty_inode` over the table, with `n` slots left: the last slot looked at,
and the best slot so far. -/
def pickInode (inode : ℕ → MInode) : ℕ → ℕ → Option ℕ → ℕ × Option ℕ
  | 0, last, best => (last, best)
  | n + 1, last, best =>
    let next := if nrInode ≤ last + 1 then 0 else last + 1
    if (inode next).count = 0 then
      if (inode next).dirt then pickInode inode n next (some next) else (next, some next)
    else pickInode inode n next best

/-- `get_empty_inode`. -/
def getEmptyInode : K ℕ := do
  let (last, best) ← Prog.read fun s => pickInode s.inode nrInode s.lastInode none
  Prog.update fun s => { s with lastInode := last }
  match best with
  | none => Prog.fail .noFreeInodes
  | some inode =>
    let m ← Prog.read fun s => s.inode inode
    -- a dirty inode without a device stays dirty for ever
    if m.dirt = true ∧ m.dev = 0 then Prog.fail .endless
    else
      writeInode inode
      modifyInode inode fun _ => { MInode.zero with count := 1 }
      pure inode

/-- The search of `iget` in the table, with `n` slots left from slot `i` on. -/
def findInode (inode : ℕ → MInode) (dev nr : ℕ) : ℕ → ℕ → Option ℕ
  | 0, _ => none
  | n + 1, i =>
    if (inode i).dev = dev ∧ (inode i).num = nr then some i
    else findInode inode dev nr n (i + 1)

/-- The super block with an inode as its mount point, with `n` left from `k` on. -/
def findMount (super : ℕ → SuperBlock) (inode : ℕ) : ℕ → ℕ → Option ℕ
  | 0, _ => none
  | n + 1, k => if (super k).imount = some inode then some k else findMount super inode n (k + 1)

/-- The loop of `iget`, with the slot that is not in use; it starts again at every mount
point. -/
def igetLoop (empty : ℕ) : ℕ → ℕ → ℕ → K ℕ
  | 0, _, _ => Prog.fail .endless
  | n + 1, dev, nr => do
    match ← Prog.read fun s => findInode s.inode dev nr nrInode 0 with
    | none =>
      modifyInode empty fun m => { m with dev, num := nr }
      readInode empty
      pure empty
    | some inode =>
      incCount inode
      let m ← Prog.read fun s => s.inode inode
      if m.mount then
        match ← Prog.read fun s => findMount s.super inode nrSuper 0 with
        | none =>
          iput empty
          pure inode
        | some k =>
          iput inode
          let dev ← Prog.read fun s => (s.super k).dev
          igetLoop empty n dev rootIno
      else
        iput empty
        pure inode

/-- `iget`. -/
def iget (dev nr : ℕ) : K ℕ :=
  if dev = 0 then Prog.fail .igetNoDevice
  else do
    let empty ← getEmptyInode
    igetLoop empty (nrSuper + 1) dev nr

/-- `set_bit` in a block of `s_imap`. -/
def setImapBit (dev j : ℕ) : K Unit := do
  let bit ← Prog.read fun s => s.imap dev j
  if bit then Prog.fail .bitSet
  else Prog.update fun s => s.setImap dev j true

/-- `new_inode`. -/
def newInode (dev : ℕ) : K (Option ℕ) := do
  let inode ← getEmptyInode
  match ← getSuper dev with
  | none => Prog.fail .newInodeNoDevice
  | some sb =>
    match ← Prog.read fun s => findClear sb.imapBlocks (s.imap dev) 8 0 with
    | none =>
      iput inode
      pure none
    | some j =>
      if sb.ninodes < j then
        iput inode
        pure none
      else
        setImapBit dev j
        let p ← Prog.read Fs.cur
        let time ← Prog.read Fs.time
        modifyInode inode fun m => { m with
          count := 1
          nlinks := 1
          dev
          uid := p.euid
          gid := p.egid % 256
          dirt := true
          num := j
          mtime := time
          atime := time
          ctime := time }
        pure (some inode)

end LihaLinux.Files
