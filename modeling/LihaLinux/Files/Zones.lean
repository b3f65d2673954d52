import LihaLinux.Fs.Bmap
import LihaLinux.Files.State

/-!
# The zones of an inode

`new_block` and `free_block` take zones from the bitmap and give them back, `_bmap` walks from
an inode to the zone of a logical block, and `truncate` frees all zones of an inode.
-/

namespace LihaLinux.Files

open LihaLinux.Fs (path maxBlock firstZero)

/-! ### The bitmap -/

/-- `find_first_zero` from bit `ecx` on, with `n` words left: the first clear bit, or the end. -/
def findFirstZero (bits : ℕ → Bool) : ℕ → ℕ → ℕ
  | 0, ecx => ecx
  | n + 1, ecx =>
    -- `notl` and `bsfl` find a clear bit of the word
    match firstZero bits 32 ecx with
    | some k => k
    | none => findFirstZero bits n (ecx + 32)

/-- The bits of block `i` of a map. -/
def mapBlock (bits : ℕ → Bool) (i : ℕ) : ℕ → Bool := fun j => bits (8192 * i + j)

/-- The loop of `new_block` and `new_inode` over the blocks of a map, with `n` left from block
`i` on. -/
def findClear (blocks : ℕ) (bits : ℕ → Bool) : ℕ → ℕ → Option ℕ
  | 0, _ => none
  | n + 1, i =>
    if i < blocks ∧ findFirstZero (mapBlock bits i) 256 0 < 8192 then
      some (8192 * i + findFirstZero (mapBlock bits i) 256 0)
    else findClear blocks bits n (i + 1)

/-- The zone of bit `k`, as an unsigned number. -/
def SuperBlock.zone (sb : SuperBlock) (k : ℕ) : ℕ :=
  if k + sb.firstdatazone = 0 then 0xffffffff else k + sb.firstdatazone - 1

/-- The bit of a zone. -/
def SuperBlock.bit (sb : SuperBlock) (block : ℕ) : ℕ := block + 1 - sb.firstdatazone

/-- `set_bit` in a block of `s_zmap`. -/
def setZmapBit (dev k : ℕ) : K Unit := do
  let bit ← Prog.read fun s => s.zmap dev k
  if bit then Prog.fail .bitSet
  else Prog.update fun s => s.setZmap dev k true

/-- `clear_block`, and the buffer is up to date. -/
def clearBlock (bh : Bh) : K Unit := do
  modifyData bh fun _ _ => 0
  Prog.update fun s => s.setUptodate bh true

/-- `new_block`: the number of a cleared zone, or 0. -/
def newBlock (dev : ℕ) : K ℕ := do
  match ← getSuper dev with
  | none => Prog.fail .getBlockNoDevice
  | some sb =>
    match ← Prog.read fun s => findClear sb.zmapBlocks (s.zmap dev) 8 0 with
    | none => pure 0
    | some k =>
      -- the bit is set before the number is compared with `s_nzones`
      setZmapBit dev k
      if sb.nzones < k + sb.firstdatazone then pure 0
      else
        let bh ← getblk dev (sb.zone k)
        let count ← Prog.read fun s => s.bcount bh
        if count ≠ 1 then Prog.fail .countNotOne
        else
          clearBlock bh
          brelse bh
          pure (sb.zone k)

/-- `clear_bit` in a block of `s_zmap`. -/
def clearZmapBit (sb : SuperBlock) (dev k : ℕ) : K Unit :=
  if sb.zmapBlocks ≤ k / 8192 then Prog.fail .noZmap
  else do
    let bit ← Prog.read fun s => s.zmap dev k
    if bit then Prog.update fun s => s.setZmap dev k false
    else Prog.fail .bitCleared

/-- `free_block`. -/
def freeBlock (dev block : ℕ) : K Unit := do
  match ← getSuper dev with
  | none => Prog.fail .freeBlockNoDevice
  | some sb =>
    if block < sb.firstdatazone ∨ sb.nzones ≤ block then Prog.fail .notInDatazone
    else
      let count ← Prog.read fun s => s.bcount ⟨dev, block⟩
      if count ≠ 0 then
        -- the reference of `get_hash_table` is not given back
        let bh ← getblk dev block
        leak bh
      else
        Prog.update fun s => s.setUptodate ⟨dev, block⟩ false
        clearZmapBit sb dev (sb.bit block)

/-! ### `_bmap` -/

/-- The first step of `_bmap`: `i_zone[n]`, filled if it is empty and `create` is set. -/
def bmapZone (inode n : ℕ) (create : Bool) : K ℕ := do
  let m ← Prog.read fun s => s.inode inode
  if create ∧ m.zone n = 0 then
    let j ← newBlock m.dev
    let time ← Prog.read Fs.time
    modifyInode inode fun m => { m with zone := Function.update m.zone n (j % 65536) }
    Prog.when (j % 65536 ≠ 0) (modifyInode inode fun m => { m with ctime := time, dirt := true })
    pure (j % 65536)
  else pure (m.zone n)

/-- The number in an entry of an indirect block, or a new zone if it is empty and `create` is
set. -/
def bmapWord (dev : ℕ) (bh : Bh) (k : ℕ) (create : Bool) : K ℕ := do
  let i ← Prog.read fun s => word (s.data bh) k
  if create ∧ i = 0 then
    let j ← newBlock dev
    Prog.when (j ≠ 0) (modifyData bh fun d => setWord d k j)
    pure j
  else pure i

/-- One step of `_bmap` through an indirect block. -/
def bmapEntry (dev z k : ℕ) (create : Bool) : K ℕ := do
  match ← bread dev z with
  | none => pure 0
  | some bh =>
    let i ← bmapWord dev bh k create
    brelse bh
    pure i

/-- The steps of `_bmap` through the indirect blocks. -/
def bmapEntries (dev : ℕ) (create : Bool) : List ℕ → ℕ → K ℕ
  | [], z => pure z
  | k :: ks, z =>
    if z = 0 then pure 0
    else do
      let i ← bmapEntry dev z k create
      bmapEntries dev create ks i

/-- `_bmap`. -/
def bmapBlock (inode block : ℕ) (create : Bool) : K ℕ :=
  if maxBlock ≤ block then Prog.fail .bmapBlock
  else do
    let dev ← Prog.read fun s => (s.inode inode).dev
    let z ← bmapZone inode (path block).1 create
    bmapEntries dev create (path block).2 z

/-- `bmap`. -/
def bmap (inode block : ℕ) : K ℕ := bmapBlock inode block false

/-- `create_block`. -/
def createBlock (inode block : ℕ) : K ℕ := bmapBlock inode block true

/-! ### `truncate` -/

/-- Call a function for the numbers in the `n` entries of a block from entry `k` on. -/
def forWords (bh : Bh) (f : ℕ → K Unit) : ℕ → ℕ → K Unit
  | 0, _ => pure ()
  | n + 1, k => do
    let v ← Prog.read fun s => word (s.data bh) k
    Prog.when (v ≠ 0) (f v)
    forWords bh f n (k + 1)

/-- Free what the entries of a block name. -/
def freeNamed (f : ℕ → K Unit) (dev block : ℕ) : K Unit := do
  match ← bread dev block with
  | none => pure ()
  | some bh =>
    forWords bh f 512 0
    brelse bh

/-- Free what the entries of a block name, and the block. -/
def freeTree (f : ℕ → K Unit) (dev block : ℕ) : K Unit :=
  if block = 0 then pure ()
  else do
    freeNamed f dev block
    freeBlock dev block

/-- `free_ind`. -/
def freeInd (dev block : ℕ) : K Unit := freeTree (freeBlock dev) dev block

/-- `free_dind`. -/
def freeDind (dev block : ℕ) : K Unit := freeTree (freeInd dev) dev block

/-- The loop of `truncate` over `n` direct zones from zone `k` on. -/
def freeDirect (inode : ℕ) : ℕ → ℕ → K Unit
  | 0, _ => pure ()
  | n + 1, k => do
    let m ← Prog.read fun s => s.inode inode
    Prog.when (m.zone k ≠ 0) do
      freeBlock m.dev (m.zone k)
      modifyInode inode fun m => { m with zone := Function.update m.zone k 0 }
    freeDirect inode n (k + 1)

/-- `truncate`. -/
def truncate (inode : ℕ) : K Unit := do
  let mode ← Prog.read fun s => (s.inode inode).mode
  if isReg mode || isDir mode then
    freeDirect inode 7 0
    let m ← Prog.read fun s => s.inode inode
    freeInd m.dev (m.zone 7)
    freeDind m.dev (m.zone 8)
    let time ← Prog.read Fs.time
    modifyInode inode fun m => { m with
      zone := Function.update (Function.update m.zone 7 0) 8 0
      size := 0
      dirt := true
      mtime := time
      ctime := time }
  else pure ()

end LihaLinux.Files
