import LihaLinux.Fs.CacheQueues

/-!
# Tasks in the buffer cache and the inode table

The functions of `fs/buffer.c` and `fs/inode.c` call each other in both directions:
`getblk` may have to write dirty buffers, `sync_dev` writes the inodes first, and an inode
is read and written through `bread`. A task is modelled by its stack of calls. One step runs
the topmost call up to the next place where its task can sleep; a `while (lock) sleep_on`
loop is a step that waits until the lock is free.
-/

namespace LihaLinux.Fs

/-- `NR_INODE`. -/
def nrInode : ℕ := 32

/-- `NR_SUPER`. -/
def nrSuper : ℕ := 8

/-- `ROOT_INO`. -/
def rootIno : ℕ := 1

/-- The fields of `struct m_inode` that these functions read. -/
structure MInode where
  mode : ℕ
  nlinks : ℕ
  /-- `i_zone[0]`, the device of a block special file. -/
  zone0 : ℕ
  dev : ℕ
  num : ℕ
  /-- `i_count`, an `unsigned short`. -/
  count : ℕ
  lock : Bool
  dirt : Bool
  pipe : Bool
  mount : Bool
  deriving DecidableEq

/-- A slot cleared by `memset`. -/
def MInode.zero : MInode :=
  { mode := 0, nlinks := 0, zone0 := 0, dev := 0, num := 0, count := 0, lock := false,
    dirt := false, pipe := false, mount := false }

/-- `S_ISBLK(inode->i_mode)`. -/
def MInode.isBlk (n : MInode) : Bool := n.mode &&& 0o170000 = 0o060000

/-- `inode->i_count++`. -/
def MInode.inc (n : MInode) : MInode := { n with count := (n.count + 1) % 65536 }

/-- `inode->i_count--`. -/
def MInode.dec (n : MInode) : MInode := { n with count := (n.count + 65535) % 65536 }

theorem MInode.inc_count (n : MInode) : n.inc.count = (n.count + 1) % 65536 := rfl

theorem MInode.dec_count (n : MInode) : n.dec.count = (n.count + 65535) % 65536 := rfl

/-- A change of the counter does not change the inode. -/
theorem MInode.inc_identity (n : MInode) : n.inc.dev = n.dev ∧ n.inc.num = n.num := by
  cases n
  exact ⟨rfl, rfl⟩

theorem MInode.dec_identity (n : MInode) : n.dec.dev = n.dev ∧ n.dec.num = n.num := by
  cases n
  exact ⟨rfl, rfl⟩

/-- The part of an inode that is read from the disk. -/
structure DInode where
  mode : ℕ
  nlinks : ℕ
  zone0 : ℕ
  deriving DecidableEq

/-- `*(struct d_inode *)inode = ...`. -/
def MInode.load (n : MInode) (d : DInode) : MInode :=
  { n with mode := d.mode, nlinks := d.nlinks, zone0 := d.zone0 }

theorem MInode.load_count (n : MInode) (d : DInode) : (n.load d).count = n.count := rfl

/-- The fields of `struct super_block` that these functions read. -/
structure SuperBlock where
  dev : ℕ
  imapBlocks : ℕ
  zmapBlocks : ℕ
  imount : Option ℕ
  deriving DecidableEq

/-- The tables shared by the tasks. -/
structure Tables where
  cache : Cache
  /-- `inode_table`. -/
  inode : ℕ → MInode
  /-- `last_inode` of `get_empty_inode`. -/
  lastInode : ℕ
  /-- `super_block`. -/
  super : ℕ → SuperBlock
  /-- The buffer references that `free_block` has dropped without a `brelse`. -/
  leaked : List ℕ

namespace Tables

/-- Replace the cache. -/
def withCache (w : Tables) (c : Cache) : Tables := { w with cache := c }

/-- Replace one inode. -/
def setInode (w : Tables) (i : ℕ) (n : MInode) : Tables :=
  { w with inode := Function.update w.inode i n }

/-- Reading an inode after one has been replaced. -/
theorem setInode_apply (w : Tables) (i j : ℕ) (n : MInode) :
    (w.setInode i n).inode j = if j = i then n else w.inode j := by
  simp only [setInode, Function.update_apply]

/-- The stores at the end of `sys_mount`. -/
def mountOn (w : Tables) (i k : ℕ) : Tables :=
  { w.setInode i { w.inode i with mount := true, dirt := true } with
    super := Function.update w.super k { w.super k with imount := some i } }

/-- `get_super(dev)`. -/
def getSuper (w : Tables) (dev : ℕ) : Option ℕ :=
  if dev = 0 then none else (List.range nrSuper).find? fun k => (w.super k).dev = dev

/-- The block of the inode table that holds an inode. -/
def inodeBlock (sb : SuperBlock) (num : ℕ) : ℕ := 2 + sb.imapBlocks + sb.zmapBlocks + (num - 1) / 32

/-- The search of `iget` in `inode_table`. -/
def findInode (w : Tables) (dev nr : ℕ) : Option ℕ :=
  (List.range nrInode).find? fun i => (w.inode i).dev = dev ∧ (w.inode i).num = nr

/-- The search of `iget` for the file system mounted on an inode. -/
def findMount (w : Tables) (i : ℕ) : Option ℕ :=
  (List.range nrSuper).find? fun k => (w.super k).imount = some i

/-- The search of `get_empty_inode`: `last_inode` and the slot found. -/
def pickInode (w : Tables) : ℕ → ℕ → Option ℕ → ℕ × Option ℕ
  | 0, last, inode => (last, inode)
  | k + 1, last, inode =>
    let last := if nrInode ≤ last + 1 then 0 else last + 1
    if (w.inode last).count = 0 then
      if !(w.inode last).dirt && !(w.inode last).lock then (last, some last)
      else pickInode w k last (some last)
    else pickInode w k last inode

end Tables

/-- `READ` and `WRITE`. -/
inductive Rw
  | read
  | write
  deriving DecidableEq

/-- The calls on a task's stack, each at a place where its task can be suspended: where it
sleeps, where it is about to start, or where it waits for a callee to return. -/
inductive Frame
  /-- `get_hash_table`: the search. -/
  | hashFind (dev block : ℕ)
  /-- `get_hash_table`: the wait for the buffer found. -/
  | hashWait (dev block bh : ℕ)
  /-- `getblk`: `repeat`. -/
  | getblk (dev block : ℕ)
  /-- `getblk`, in `get_hash_table`. -/
  | getblkHash (dev block : ℕ)
  /-- `getblk`, with the result of `get_hash_table`. -/
  | getblkGot (dev block : ℕ) (found : Option ℕ)
  /-- `getblk`: the wait for the chosen buffer, also after `sync_dev`. -/
  | getblkWait (dev block bh : ℕ)
  /-- `bread`. -/
  | bread (dev block : ℕ)
  /-- `bread`, in `getblk`. -/
  | breadBlk
  /-- `bread`, with the result of `getblk`. -/
  | breadGot (found : Option ℕ)
  /-- `bread`: the wait for the buffer, also in `ll_rw_block`. -/
  | breadWait (bh : ℕ)
  /-- `bread`, in the `brelse` of an unreadable buffer. -/
  | breadFail
  /-- `brelse`. -/
  | brelse (bh : ℕ)
  /-- `ll_rw_block` and `make_request`, up to `lock_buffer`. -/
  | llRwBlock (rw : Rw) (bh : ℕ)
  /-- `make_request`: the wait for a free request. -/
  | request (rw : Rw) (bh : ℕ)
  /-- `sync_dev`, in its first or second loop, at a buffer. -/
  | syncDev (dev : ℕ) (first : Bool) (i : ℕ)
  /-- `sync_inodes`, at an inode. -/
  | syncInodes (i : ℕ)
  /-- `sys_sync`. -/
  | sysSync
  /-- `sys_sync`, at a buffer. -/
  | sysSyncLoop (i : ℕ)
  /-- `write_inode`: `lock_inode`. -/
  | writeInode (i : ℕ)
  /-- `write_inode`: `get_super`. -/
  | writeSuper (i : ℕ)
  /-- `write_inode`, in `bread`. -/
  | writeRead (i : ℕ)
  /-- `write_inode`, with the result of `bread`. -/
  | writeCopy (i : ℕ) (found : Option ℕ)
  /-- `write_inode`: `unlock_inode`, also in `brelse`. -/
  | writeUnlock (i : ℕ)
  /-- `read_inode`: `lock_inode`. -/
  | readInode (i : ℕ)
  /-- `read_inode`: `get_super`. -/
  | readSuper (i : ℕ)
  /-- `read_inode`, in `bread`. -/
  | readRead (i : ℕ)
  /-- `read_inode`, with the result of `bread`. -/
  | readCopy (i : ℕ) (found : Option ℕ)
  /-- `read_inode`: `unlock_inode`, also in `brelse`. -/
  | readUnlock (i : ℕ)
  /-- `get_empty_inode`: the search. -/
  | emptyPick
  /-- `get_empty_inode`: the wait for the slot found, also in `write_inode`. -/
  | emptyWait (i : ℕ)
  /-- `iput`. -/
  | iput (i : ℕ)
  /-- `iput`: `repeat`, also in `sync_dev` and `write_inode` and in the wait after these. -/
  | iputWait (i : ℕ)
  /-- `iput`, in `truncate` and `free_inode`, with the indirect blocks held. -/
  | iputTrunc (i : ℕ) (held : List ℕ)
  /-- `truncate`, in `bread`. -/
  | truncRead (i : ℕ) (held : List ℕ)
  /-- `free_block`, in `get_hash_table`. -/
  | truncHash (i : ℕ) (held : List ℕ)
  /-- `free_block`, with the result of `get_hash_table`. -/
  | truncFree (i : ℕ) (held : List ℕ) (found : Option ℕ)
  /-- `iget`. -/
  | iget (dev nr : ℕ)
  /-- `iget`, in `get_empty_inode`. -/
  | igetEmpty (dev nr : ℕ)
  /-- `iget`: the search. -/
  | igetSearch (dev nr empty : ℕ)
  /-- `iget`: the wait for the inode found. -/
  | igetWait (dev nr empty i : ℕ)
  /-- `iget`, in the `iput` of a mount point. -/
  | igetCross (sb empty : ℕ)
  /-- `iget`, in `read_inode`. -/
  | igetRead (i : ℕ)
  /-- `iget`, in the `iput` of the spare slot. -/
  | igetDone (i : ℕ)
  /-- A caller that gets a buffer. -/
  | userBuffer
  /-- A caller with its buffer. -/
  | gotBuffer (found : Option ℕ)
  /-- A caller that gets an inode. -/
  | userInode
  /-- A caller with its inode. -/
  | gotInode (found : Option ℕ)
  /-- A caller that gets nothing. -/
  | userDone
  deriving DecidableEq

/-- A call is resumed with the value its callee returns. -/
def Frame.resume (v : Option ℕ) : Frame → Frame
  | .getblkHash dev block => .getblkGot dev block v
  | .breadBlk => .breadGot v
  | .writeRead i => .writeCopy i v
  | .readRead i => .readCopy i v
  | .truncRead i held => .iputTrunc i (v.toList ++ held)
  | .truncHash i held => .truncFree i held v
  | .igetEmpty dev nr =>
    match v with
    | some empty => .igetSearch dev nr empty
    | none => .igetEmpty dev nr
  | .userBuffer => .gotBuffer v
  | .userInode => .gotInode v
  | f => f

/-- What a call does at the end of a step. -/
inductive Next
  /-- It stands at another place. -/
  | go (f : Frame)
  /-- It calls a function and waits for it. -/
  | call (f callee : Frame)
  /-- It returns. -/
  | ret (v : Option ℕ)
  deriving DecidableEq

/-- What `truncate` does next. Which blocks it frees is not followed. -/
inductive TruncOp
  /-- Read an indirect block. -/
  | read (block : ℕ)
  /-- Free a block. -/
  | free (block : ℕ)
  /-- Release an indirect block. -/
  | release
  /-- Go on to `free_inode`. -/
  | finish
  deriving DecidableEq

/-- The data a step takes from outside: whether a device has a driver, what an inode on the
disk holds, and what `truncate` does. -/
structure Choice where
  device : Bool
  data : DInode
  trunc : TruncOp

/-- One step of the topmost call. There is no result while the call has to wait, and none
after a panic. -/
def Frame.exec (w : Tables) (ch : Choice) : Frame → Option (Tables × Next)
  | .hashFind dev block =>
    match w.cache.findBuffer dev block with
    | none => some (w, .ret none)
    | some bh => some (w.withCache (w.cache.incCount bh), .go (.hashWait dev block bh))
  | .hashWait dev block bh =>
    if w.cache.lock bh then none
    else if w.cache.dev bh = dev ∧ w.cache.blocknr bh = block then some (w, .ret (some bh))
    else some (w.withCache (w.cache.decCount bh), .go (.hashFind dev block))
  | .getblk dev block => some (w, .call (.getblkHash dev block) (.hashFind dev block))
  | .getblkGot dev block found =>
    match found with
    | some bh => some (w, .ret (some bh))
    | none =>
      match w.cache.chooseFree with
      | none => some (w, .go (.getblk dev block))
      | some bh => some (w, .go (.getblkWait dev block bh))
  | .getblkWait dev block bh =>
    if w.cache.lock bh then none
    else if w.cache.count bh ≠ 0 then some (w, .go (.getblk dev block))
    else if w.cache.dirt bh then
      some (w, .call (.getblkWait dev block bh) (.syncDev (w.cache.dev bh) true 0))
    else if (w.cache.findBuffer dev block).isSome then some (w, .go (.getblk dev block))
    else
      match w.cache.assign dev block bh with
      | none => none
      | some c => some (w.withCache c, .ret (some bh))
  | .bread dev block => some (w, .call .breadBlk (.getblk dev block))
  | .breadGot found =>
    match found with
    | none => none
    | some bh =>
      if w.cache.uptodate bh then some (w, .ret (some bh))
      else some (w, .call (.breadWait bh) (.llRwBlock .read bh))
  | .breadWait bh =>
    if w.cache.lock bh then none
    else if w.cache.uptodate bh then some (w, .ret (some bh))
    else some (w, .call .breadFail (.brelse bh))
  | .breadFail => some (w, .ret none)
  | .brelse bh =>
    if w.cache.lock bh then none
    else if w.cache.count bh = 0 then none
    else some (w.withCache (w.cache.decCount bh), .ret none)
  | .llRwBlock rw bh =>
    if !ch.device then some (w, .ret none)
    else if w.cache.lock bh then none
    else if rw = .write ∧ !w.cache.dirt bh ∨ rw = .read ∧ w.cache.uptodate bh then
      some (w, .ret none)
    else some (w.withCache (w.cache.setLock bh true), .go (.request rw bh))
  | .request _ bh => some (w.withCache (w.cache.setDirt bh false), .ret none)
  | .syncDev dev first i =>
    if w.cache.nrBuffers ≤ i then
      if first then some (w, .call (.syncDev dev false 0) (.syncInodes 0)) else some (w, .ret none)
    else if w.cache.dev i ≠ dev then some (w, .go (.syncDev dev first (i + 1)))
    else if w.cache.lock i then none
    else if w.cache.dirt i then
      some (w, .call (.syncDev dev first (i + 1)) (.llRwBlock .write i))
    else some (w, .go (.syncDev dev first (i + 1)))
  | .syncInodes i =>
    if nrInode ≤ i then some (w, .ret none)
    else if (w.inode i).lock then none
    else if (w.inode i).dirt && !(w.inode i).pipe then
      some (w, .call (.syncInodes (i + 1)) (.writeInode i))
    else some (w, .go (.syncInodes (i + 1)))
  | .sysSync => some (w, .call (.sysSyncLoop 0) (.syncInodes 0))
  | .sysSyncLoop i =>
    if w.cache.nrBuffers ≤ i then some (w, .ret none)
    else if w.cache.lock i then none
    else if w.cache.dirt i then some (w, .call (.sysSyncLoop (i + 1)) (.llRwBlock .write i))
    else some (w, .go (.sysSyncLoop (i + 1)))
  | .writeInode i =>
    if (w.inode i).lock then none
    else if !(w.inode i).dirt ∨ (w.inode i).dev = 0 then some (w, .ret none)
    else some (w.setInode i { w.inode i with lock := true }, .go (.writeSuper i))
  | .writeSuper i =>
    match w.getSuper (w.inode i).dev with
    | none => none
    | some k =>
      some (w, .call (.writeRead i)
        (.bread (w.inode i).dev (Tables.inodeBlock (w.super k) (w.inode i).num)))
  | .writeCopy i found =>
    match found with
    | none => none
    | some bh =>
      some ((w.withCache (w.cache.setDirt bh true)).setInode i { w.inode i with dirt := false },
        .call (.writeUnlock i) (.brelse bh))
  | .writeUnlock i => some (w.setInode i { w.inode i with lock := false }, .ret none)
  | .readInode i =>
    if (w.inode i).lock then none
    else some (w.setInode i { w.inode i with lock := true }, .go (.readSuper i))
  | .readSuper i =>
    match w.getSuper (w.inode i).dev with
    | none => none
    | some k =>
      some (w, .call (.readRead i)
        (.bread (w.inode i).dev (Tables.inodeBlock (w.super k) (w.inode i).num)))
  | .readCopy i found =>
    match found with
    | none => none
    | some bh =>
      some (w.setInode i ((w.inode i).load ch.data), .call (.readUnlock i) (.brelse bh))
  | .readUnlock i => some (w.setInode i { w.inode i with lock := false }, .ret none)
  | .emptyPick =>
    match w.pickInode nrInode w.lastInode none with
    | (_, none) => none
    | (last, some i) => some ({ w with lastInode := last }, .go (.emptyWait i))
  | .emptyWait i =>
    if (w.inode i).lock then none
    else if (w.inode i).dirt then some (w, .call (.emptyWait i) (.writeInode i))
    else if (w.inode i).count ≠ 0 then some (w, .go .emptyPick)
    else some (w.setInode i { MInode.zero with count := 1 }, .ret (some i))
  | .iput i =>
    if (w.inode i).lock then none
    else if (w.inode i).count = 0 then none
    else if (w.inode i).pipe then
      if (w.inode i).dec.count ≠ 0 then some (w.setInode i (w.inode i).dec, .ret none)
      else some (w.setInode i { (w.inode i).dec with dirt := false, pipe := false }, .ret none)
    else if (w.inode i).dev = 0 then some (w.setInode i (w.inode i).dec, .ret none)
    else if (w.inode i).isBlk then
      some (w, .call (.iputWait i) (.syncDev (w.inode i).zone0 true 0))
    else some (w, .go (.iputWait i))
  | .iputWait i =>
    if (w.inode i).lock then none
    else if 1 < (w.inode i).count then some (w.setInode i (w.inode i).dec, .ret none)
    else if (w.inode i).nlinks = 0 then some (w, .go (.iputTrunc i []))
    else if (w.inode i).dirt then some (w, .call (.iputWait i) (.writeInode i))
    else some (w.setInode i (w.inode i).dec, .ret none)
  | .iputTrunc i held =>
    match ch.trunc, held with
    | .read block, held => some (w, .call (.truncRead i held) (.bread (w.inode i).dev block))
    | .free block, held => some (w, .call (.truncHash i held) (.hashFind (w.inode i).dev block))
    | .release, bh :: held => some (w, .call (.iputTrunc i held) (.brelse bh))
    | .finish, [] =>
      if 1 < (w.inode i).count ∨ (w.inode i).nlinks ≠ 0 then none
      else some (w.setInode i .zero, .ret none)
    | _, _ => none
  | .truncFree i held found =>
    match found with
    | none => some (w, .go (.iputTrunc i held))
    | some bh =>
      if w.cache.count bh ≠ 1 then
        some ({ w with leaked := bh :: w.leaked }, .go (.iputTrunc i held))
      else
        some (w.withCache ((w.cache.setDirt bh false).setUptodate bh false),
          .call (.iputTrunc i held) (.brelse bh))
  | .iget dev nr => if dev = 0 then none else some (w, .call (.igetEmpty dev nr) .emptyPick)
  | .igetSearch dev nr empty =>
    match w.findInode dev nr with
    | some i => some (w, .go (.igetWait dev nr empty i))
    | none =>
      some (w.setInode empty { w.inode empty with dev := dev, num := nr },
        .call (.igetRead empty) (.readInode empty))
  | .igetWait dev nr empty i =>
    if (w.inode i).lock then none
    else if (w.inode i).dev ≠ dev ∨ (w.inode i).num ≠ nr then
      some (w, .go (.igetSearch dev nr empty))
    else if (w.inode i).mount then
      match w.findMount i with
      | none => some (w.setInode i (w.inode i).inc, .call (.igetDone i) (.iput empty))
      | some k => some (w.setInode i (w.inode i).inc, .call (.igetCross k empty) (.iput i))
    else some (w.setInode i (w.inode i).inc, .call (.igetDone i) (.iput empty))
  | .igetCross k empty => some (w, .go (.igetSearch (w.super k).dev rootIno empty))
  | .igetRead i => some (w, .ret (some i))
  | .igetDone i => some (w, .ret (some i))
  | .userDone => some (w, .ret none)
  | _ => none

/-! ### The tasks -/

/-- The tables and the tasks: their stacks, topmost call first, and the buffers and inodes
they hold between calls. -/
structure FsSystem (τ : Type*) where
  tables : Tables
  stack : τ → List Frame
  bufs : τ → List ℕ
  inodes : τ → List ℕ

/-- The calls a task can make. -/
inductive FsCall
  | getblk (dev block : ℕ)
  | getHashTable (dev block : ℕ)
  | bread (dev block : ℕ)
  | brelse (bh : ℕ)
  | syncDev (dev : ℕ)
  | sysSync
  | syncInodes
  | iget (dev nr : ℕ)
  | getEmptyInode
  | iput (i : ℕ)
  deriving DecidableEq

/-- The stack of a task that has just made a call. -/
def FsCall.frames : FsCall → List Frame
  | .getblk dev block => [.getblk dev block, .userBuffer]
  | .getHashTable dev block => [.hashFind dev block, .userBuffer]
  | .bread dev block => [.bread dev block, .userBuffer]
  | .brelse bh => [.brelse bh, .userDone]
  | .syncDev dev => [.syncDev dev true 0, .userDone]
  | .sysSync => [.sysSync, .userDone]
  | .syncInodes => [.syncInodes 0, .userDone]
  | .iget dev nr => [.iget dev nr, .userInode]
  | .getEmptyInode => [.emptyPick, .userInode]
  | .iput i => [.iput i, .userDone]

/-- The buffer a call releases. -/
def FsCall.buf : FsCall → Option ℕ
  | .brelse bh => some bh
  | _ => none

/-- The inode a call releases. -/
def FsCall.inode : FsCall → Option ℕ
  | .iput i => some i
  | _ => none

/-- What can happen. -/
inductive FsEvent (τ : Type*)
  /-- A task outside any call makes one. -/
  | call (t : τ) (c : FsCall)
  /-- The topmost call of a task takes a step. -/
  | exec (t : τ) (ch : Choice)
  /-- A task that is back from a call takes its result. -/
  | take (t : τ)
  /-- The interrupt at the end of a transfer: `b_uptodate` is set and the buffer unlocked. -/
  | interrupt (bh : ℕ) (uptodate : Bool)
  /-- A task changes the data of a buffer it holds. -/
  | modify (t : τ) (bh : ℕ)
  /-- A task changes an inode it holds. -/
  | modifyInode (t : τ) (i : ℕ) (d : DInode)
  /-- `read_super` takes a free super block. -/
  | readSuper (k dev imapBlocks zmapBlocks : ℕ)
  /-- The end of `sys_mount`: the reference to the directory goes to the super block. -/
  | mount (t : τ) (i k : ℕ)
  /-- The end of `get_pipe_inode`: the spare slot gets a second reference. -/
  | pipe (t : τ) (i : ℕ)

namespace FsSystem

variable {τ : Type*} [DecidableEq τ]

/-- Replace the stack of a task. -/
def setStack (s : FsSystem τ) (t : τ) (l : List Frame) : FsSystem τ :=
  { s with stack := Function.update s.stack t l }

/-- Replace the buffers of a task. -/
def setBufs (s : FsSystem τ) (t : τ) (l : List ℕ) : FsSystem τ :=
  { s with bufs := Function.update s.bufs t l }

/-- Replace the inodes of a task. -/
def setInodes (s : FsSystem τ) (t : τ) (l : List ℕ) : FsSystem τ :=
  { s with inodes := Function.update s.inodes t l }

/-- Replace the tables. -/
def withTables (s : FsSystem τ) (w : Tables) : FsSystem τ := { s with tables := w }

/-- The stack after a step of its topmost call. -/
def stackAfter (rest : List Frame) : Next → List Frame
  | .go f => f :: rest
  | .call f callee => callee :: f :: rest
  | .ret v =>
    match rest with
    | [] => []
    | f :: rest => f.resume v :: rest

/-- The state after a step of the topmost call of `t`. -/
def execTop (s : FsSystem τ) (t : τ) (ch : Choice) : Option (FsSystem τ) :=
  match s.stack t with
  | [] => none
  | f :: rest =>
    (f.exec s.tables ch).map fun r => (s.withTables r.1).setStack t (stackAfter rest r.2)

/-- The state after an event, if it can happen. -/
def next (s : FsSystem τ) : FsEvent τ → Option (FsSystem τ)
  | .call t c =>
    if s.stack t = [] ∧ (∀ b ∈ c.buf, b ∈ s.bufs t) ∧ (∀ i ∈ c.inode, i ∈ s.inodes t) then
      some (((s.setStack t c.frames).setBufs t ((s.bufs t).diff c.buf.toList)).setInodes t
        ((s.inodes t).diff c.inode.toList))
    else none
  | .exec t ch => s.execTop t ch
  | .take t =>
    match s.stack t with
    | [.gotBuffer v] => some ((s.setStack t []).setBufs t (v.toList ++ s.bufs t))
    | [.gotInode v] => some ((s.setStack t []).setInodes t (v.toList ++ s.inodes t))
    | _ => none
  | .interrupt bh uptodate =>
    if s.tables.cache.lock bh then
      some (s.withTables (s.tables.withCache
        ((s.tables.cache.setUptodate bh uptodate).setLock bh false)))
    else none
  | .modify t bh =>
    if bh ∈ s.bufs t then
      some (s.withTables (s.tables.withCache
        ((s.tables.cache.setUptodate bh true).setDirt bh true)))
    else none
  | .modifyInode t i d =>
    if i ∈ s.inodes t ∧ (s.tables.inode i).dev ≠ 0 then
      some (s.withTables (s.tables.setInode i { (s.tables.inode i).load d with dirt := true }))
    else none
  | .readSuper k dev imapBlocks zmapBlocks =>
    if k < nrSuper ∧ (s.tables.super k).dev = 0 ∧ dev ≠ 0 then
      some (s.withTables { s.tables with
        super := Function.update s.tables.super k { dev, imapBlocks, zmapBlocks, imount := none } })
    else none
  | .mount t i k =>
    if k < nrSuper ∧ (s.tables.super k).dev ≠ 0 ∧ (s.tables.super k).imount = none ∧
        i ∈ s.inodes t ∧ (s.tables.inode i).count = 1 ∧ (s.tables.inode i).num ≠ rootIno ∧
        (s.tables.inode i).mount = false then
      some ((s.withTables (s.tables.mountOn i k)).setInodes t ((s.inodes t).erase i))
    else none
  | .pipe t i =>
    if i ∈ s.inodes t ∧ s.tables.inode i = { MInode.zero with count := 1 } then
      some ((s.withTables (s.tables.setInode i
        { s.tables.inode i with count := 2, pipe := true })).setInodes t (i :: s.inodes t))
    else none

/-- One step of the system. -/
def Step (s s' : FsSystem τ) : Prop := ∃ e, s.next e = some s'

end FsSystem

end LihaLinux.Fs
