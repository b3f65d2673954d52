import LihaLinux.Files.ReadWrite
import LihaLinux.Files.Attributes

/-!
# Mounted devices

`read_super` and `put_super`, `sys_mount` and `sys_umount`, and `mount_root`, with which every
run begins. The disks are never exchanged.
-/

namespace LihaLinux.Files

/-! ### Super blocks -/

/-- `SUPER_MAGIC`. -/
def superMagic : ℕ := 0x137F

/-- The fields of `struct d_super_block`: `s_ninodes`, `s_nzones`, `s_imap_blocks`,
`s_zmap_blocks` and `s_firstdatazone`. -/
def SuperBlock.load (sb : SuperBlock) (d : ℕ → ℕ) : SuperBlock :=
  { sb with
    ninodes := word d 0
    nzones := word d 1
    imapBlocks := word d 2
    zmapBlocks := word d 3
    firstdatazone := word d 4 }

/-- Get the `n` blocks of a device from `block` on, up to one that cannot be read. -/
def breadAll (dev : ℕ) : ℕ → ℕ → K (List Bh)
  | 0, _ => pure []
  | n + 1, block => do
    match ← bread dev block with
    | none => pure []
    | some bh =>
      let bhs ← breadAll dev n (block + 1)
      pure (bh :: bhs)

/-- Release buffers. -/
def brelseAll : List Bh → K Unit
  | [] => pure ()
  | bh :: bhs => do
    brelse bh
    brelseAll bhs

/-- The error return of `read_super` for a slot. -/
def dropSuper (k : ℕ) : K (Option ℕ) := do
  modifySuper k fun sb => { sb with dev := 0 }
  pure none

/-- The part of `read_super` that fills a slot. -/
def loadSuper (dev k : ℕ) : K (Option ℕ) := do
  modifySuper k fun sb => { sb with dev, isup := none, imount := none }
  match ← bread dev 1 with
  | none => dropSuper k
  | some bh =>
    let d ← Prog.read fun s => s.data bh
    modifySuper k fun sb => sb.load d
    brelse bh
    -- `s_magic` is behind `s_log_zone_size` and `s_max_size`
    if word d 8 ≠ superMagic then dropSuper k
    else
      let sb ← Prog.read fun s => s.super k
      let imap ← breadAll dev sb.imapBlocks 2
      let zmap ← breadAll dev sb.zmapBlocks (2 + imap.length)
      if imap.length + zmap.length ≠ sb.imapBlocks + sb.zmapBlocks then
        brelseAll imap
        brelseAll zmap
        dropSuper k
      else
        Prog.update fun s => (s.setImap dev 0 true).setZmap dev 0 true
        pure (some k)

/-- `read_super`: the slot of the super block of a device. -/
def readSuper (dev : ℕ) : K (Option ℕ) :=
  if dev = 0 then pure none
  else do
    match ← Prog.read fun s => findSuper s.super dev nrSuper 0 with
    | some k => pure (some k)
    | none =>
      match ← Prog.read fun s => findSuper s.super 0 nrSuper 0 with
      | none => pure none
      | some k => loadSuper dev k

/-- `put_super`, with `ROOT_DEV`. -/
def putSuper (rootDev dev : ℕ) : K Unit :=
  if dev = rootDev ∨ dev = 0 then pure ()
  else do
    match ← Prog.read fun s => findSuper s.super dev nrSuper 0 with
    | none => pure ()
    | some k =>
      let sb ← Prog.read fun s => s.super k
      if sb.imount ≠ none then pure ()
      else
        modifySuper k fun sb => { sb with dev := 0 }
        brelseAll ((List.range (sb.imapBlocks + sb.zmapBlocks)).map fun i => ⟨dev, 2 + i⟩)

/-! ### `mount` and `umount` -/

/-- The device of a block special file that is looked up by a name. -/
def nameDevice (devName : List ℕ) (e : Errno) : K (Except Errno ℕ) := do
  match ← namei devName with
  | none => pure (.error .ENOENT)
  | some inode =>
    let m ← Prog.read fun s => s.inode inode
    iput inode
    pure (if isBlk m.mode then .ok (m.zone 0) else .error e)

/-- The part of `sys_mount` for a directory. -/
def mountOn (dev dir : ℕ) : K Status := do
  let m ← Prog.read fun s => s.inode dir
  if m.count ≠ 1 ∨ m.num = rootIno then refuse dir .EBUSY
  else if isDir m.mode = false then refuse dir .EPERM
  else
    match ← readSuper dev with
    | none => refuse dir .EBUSY
    | some k =>
      let sb ← Prog.read fun s => s.super k
      let m ← Prog.read fun s => s.inode dir
      if sb.imount ≠ none then refuse dir .EBUSY
      else if m.mount then refuse dir .EPERM
      else
        modifySuper k fun sb => { sb with imount := some dir }
        -- `sys_umount` gives the inode back
        modifyInode dir fun m => { m with mount := true, dirt := true }
        pure (.ok ())

/-- `sys_mount`. -/
def sysMount (devName dirName : List ℕ) : K Status := do
  match ← nameDevice devName .EPERM with
  | .error e => pure (.error e)
  | .ok dev =>
    match ← namei dirName with
    | none => pure (.error .ENOENT)
    | some dir => mountOn dev dir

/-- The busy check of `sys_umount`, with `n` slots left from slot `i` on. -/
def deviceBusy (inode : ℕ → MInode) (dev : ℕ) : ℕ → ℕ → Bool
  | 0, _ => false
  | n + 1, i =>
    if (inode i).dev = dev ∧ (inode i).count ≠ 0 then true else deviceBusy inode dev n (i + 1)

/-- The part of `sys_umount` for a super block with a mount point, after the busy check. -/
def umountSuper (rootDev dev k mounted : ℕ) : K Unit := do
  modifyInode mounted fun m => { m with mount := false }
  iput mounted
  modifySuper k fun sb => { sb with imount := none }
  let sb ← Prog.read fun s => s.super k
  iputOpt sb.isup
  modifySuper k fun sb => { sb with isup := none }
  putSuper rootDev dev
  syncDev dev

/-- The part of `sys_umount` for a device. -/
def umountDev (rootDev dev : ℕ) : K Status :=
  if dev = rootDev then pure (.error .EBUSY)
  else if dev = 0 then pure (.error .ENOENT)
  else do
    match ← Prog.read fun s => findSuper s.super dev nrSuper 0 with
    | none => pure (.error .ENOENT)
    | some k =>
      let sb ← Prog.read fun s => s.super k
      match sb.imount with
      | none => pure (.error .ENOENT)
      | some mounted =>
        let busy ← Prog.read fun s => deviceBusy s.inode dev nrInode 0
        if busy then pure (.error .EBUSY)
        else
          umountSuper rootDev dev k mounted
          pure (.ok ())

/-- `sys_umount`, with `ROOT_DEV`. -/
def sysUmount (rootDev : ℕ) (devName : List ℕ) : K Status := do
  match ← nameDevice devName .ENOTBLK with
  | .error e => pure (.error e)
  | .ok dev => umountDev rootDev dev

/-- Write all buffers. -/
def syncAll : K Unit := Prog.update fun s =>
  { s with disk := fun bh => if s.uptodate bh then s.data bh else s.disk bh }

/-- `sys_sync`. -/
def sysSync : K Unit := do
  syncInodes nrInode 0
  syncAll

/-- `mount_root`, for tables that are empty. -/
def mountRoot (rootDev : ℕ) : K Unit := do
  match ← readSuper rootDev with
  | none => Prog.fail .noSuper
  | some k =>
    let mi ← iget rootDev rootIno
    modifyInode mi fun m => m.addCount 3
    modifySuper k fun sb => { sb with isup := some mi, imount := some mi }
    modifyCur fun p => { p with pwd := some mi, root := some mi }

end LihaLinux.Files
