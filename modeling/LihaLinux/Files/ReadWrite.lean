import LihaLinux.Files.FileCalls
import Mathlib.Data.Int.Notation

/-!
# Reading and writing

`sys_lseek`, `sys_read` and `sys_write` with the functions for regular files, pipes, block
devices and character devices. What a program writes is a list of bytes, and so is what it
reads. The blocks of a block device are read and written through their buffers, as if all
buffers were up to date.
-/

namespace LihaLinux.Files

/-- Bytes of a block. -/
def getBytes (d : ℕ → ℕ) (c n : ℕ) : List ℕ := (List.range n).map fun j => d (c + j)

/-- A block with bytes stored from index `c` on. -/
def setBytes (d : ℕ → ℕ) (c : ℕ) (bytes : List ℕ) : ℕ → ℕ := fun b =>
  if c ≤ b ∧ b < c + bytes.length then bytes.getD (b - c) 0 else d b

/-- `BLOCK_SIZE`. -/
def blockSize : ℕ := 1024

/-- Add to `f_pos`. -/
def advance (f n : ℕ) : K Unit := modifyFile f fun e => { e with pos := e.pos + n }

/-! ### Regular files -/

/-- One step of the loop of `file_read`: at most `left` bytes from `f_pos` on. -/
def readChunk (inode f left : ℕ) : K (Option (List ℕ)) := do
  let pos ← Prog.read fun s => (s.file f).pos
  let chars := min (blockSize - pos % blockSize) left
  let nr ← bmap inode (pos / blockSize)
  if nr = 0 then
    advance f chars
    pure (some (List.replicate chars 0))
  else
    let dev ← Prog.read fun s => (s.inode inode).dev
    match ← bread dev nr with
    | none => pure none
    | some bh =>
      advance f chars
      let d ← Prog.read fun s => s.data bh
      brelse bh
      pure (some (getBytes d (pos % blockSize) chars))

/-- The loop of `file_read`. -/
def readLoop (inode f : ℕ) : ℕ → ℕ → K (List ℕ)
  | 0, _ => pure []
  | n + 1, left =>
    if left = 0 then pure []
    else do
      match ← readChunk inode f left with
      | none => pure []
      | some bytes =>
        let rest ← readLoop inode f n (left - bytes.length)
        pure (bytes ++ rest)

/-- `file_read`. -/
def fileRead (inode f count : ℕ) : K (Except Errno (List ℕ)) :=
  if count = 0 then pure (.ok [])
  else do
    let bytes ← readLoop inode f count count
    let time ← Prog.read Fs.time
    modifyInode inode fun m => { m with atime := time }
    pure (if bytes = [] then .error .ERROR else .ok bytes)

/-- One step of the loop of `file_write`: the number of bytes stored. -/
def writeChunk (inode pos : ℕ) (buf : List ℕ) : K (Option ℕ) := do
  let block ← createBlock inode (pos / blockSize)
  if block = 0 then pure none
  else
    let dev ← Prog.read fun s => (s.inode inode).dev
    match ← bread dev block with
    | none => pure none
    | some bh =>
      let c := min (blockSize - pos % blockSize) buf.length
      let size ← Prog.read fun s => (s.inode inode).size
      Prog.when (size < pos + c)
        (modifyInode inode fun m => { m with size := pos + c, dirt := true })
      modifyData bh fun d => setBytes d (pos % blockSize) (buf.take c)
      brelse bh
      pure (some c)

/-- The loop of `file_write` from position `pos` on: where it ends. -/
def writeLoop (inode : ℕ) : ℕ → ℕ → List ℕ → K ℕ
  | 0, pos, _ => pure pos
  | n + 1, pos, buf =>
    if buf = [] then pure pos
    else do
      match ← writeChunk inode pos buf with
      | none => pure pos
      | some c => writeLoop inode n (pos + c) (buf.drop c)

/-- `file_write`; -1 is the error of a call that has stored nothing. -/
def fileWrite (inode f : ℕ) (buf : List ℕ) : K (Except Errno ℕ) := do
  let e ← Prog.read fun s => s.file f
  let size ← Prog.read fun s => (s.inode inode).size
  let start := if hasFlag e.flags oAppend then size else e.pos
  let pos ← writeLoop inode buf.length start buf
  let time ← Prog.read Fs.time
  modifyInode inode fun m => { m with mtime := time }
  Prog.when (hasFlag e.flags oAppend = false) do
    modifyFile f fun e => { e with pos }
    modifyInode inode fun m => { m with ctime := time }
  pure (if pos = start then .error .EPERM else .ok (pos - start))

/-! ### Pipes -/

/-- `PAGE_SIZE`. -/
def pageSize : ℕ := 4096

/-- `PIPE_SIZE`. -/
def MInode.pipeSize (m : MInode) : ℕ := (m.zone 0 + pageSize - m.zone 1) % pageSize

/-- The loop of `read_pipe`. A reader that finds the pipe empty and a writer at it would wait for
ever. -/
def readPipe (inode : ℕ) : ℕ → ℕ → K (List ℕ)
  | 0, _ => pure []
  | n + 1, count =>
    if count = 0 then pure []
    else do
      let m ← Prog.read fun s => s.inode inode
      if m.pipeSize = 0 then
        if m.count ≠ 2 then pure [] else Prog.fail .endless
      else
        let chars := min (min (pageSize - m.zone 1) count) m.pipeSize
        modifyInode inode fun m =>
          { m with zone := Function.update m.zone 1 ((m.zone 1 + chars) % pageSize) }
        let d ← Prog.read fun s => s.page m.size
        let rest ← readPipe inode n (count - chars)
        pure (getBytes d (m.zone 1) chars ++ rest)

/-- The loop of `write_pipe`: the number of bytes written. A writer that finds the pipe full and
a reader at it would wait for ever. -/
def writePipe (inode : ℕ) : ℕ → List ℕ → K ℕ
  | 0, _ => pure 0
  | n + 1, buf =>
    if buf = [] then pure 0
    else do
      let m ← Prog.read fun s => s.inode inode
      if m.pipeSize = pageSize - 1 then
        if m.count ≠ 2 then pure 0 else Prog.fail .endless
      else
        let chars := min (min (pageSize - m.zone 0) buf.length) (pageSize - 1 - m.pipeSize)
        modifyInode inode fun m =>
          { m with zone := Function.update m.zone 0 ((m.zone 0 + chars) % pageSize) }
        Prog.update fun s =>
          s.setPage m.size (setBytes (s.page m.size) (m.zone 0) (buf.take chars))
        let written ← writePipe inode n (buf.drop chars)
        pure (chars + written)

/-! ### Devices -/

/-- The loop of `block_read` for device `dev`. -/
def blockRead (dev f : ℕ) : ℕ → ℕ → K (List ℕ)
  | 0, _ => pure []
  | n + 1, count =>
    if count = 0 then pure []
    else do
      let pos ← Prog.read fun s => (s.file f).pos
      match ← bread dev (pos / blockSize) with
      | none => pure []
      | some bh =>
        let chars := min (blockSize - pos % blockSize) count
        advance f chars
        let d ← Prog.read fun s => s.data bh
        brelse bh
        let rest ← blockRead dev f n (count - chars)
        pure (getBytes d (pos % blockSize) chars ++ rest)

/-- The buffer of a block that `block_write` writes to: a whole block is not read before. -/
def writeBuffer (dev block chars : ℕ) : K (Option Bh) :=
  if chars = blockSize then do
    let bh ← getblk dev block
    pure (some bh)
  else bread dev block

/-- The loop of `block_write` for device `dev`: the number of bytes written. -/
def blockWrite (dev f : ℕ) : ℕ → List ℕ → K ℕ
  | 0, _ => pure 0
  | n + 1, buf =>
    if buf = [] then pure 0
    else do
      let pos ← Prog.read fun s => (s.file f).pos
      let chars := min (blockSize - pos % blockSize) buf.length
      match ← writeBuffer dev (pos / blockSize) chars with
      | none => pure 0
      | some bh =>
        advance f chars
        modifyData bh fun d => setBytes d (pos % blockSize) (buf.take chars)
        brelse bh
        let written ← blockWrite dev f n (buf.drop chars)
        pure (chars + written)

/-- What the character devices do: the results of the functions for terminals, and the bytes of
the ports. -/
structure CharDevices where
  ttyRead : Except Errno (List ℕ)
  ttyWrite : Except Errno ℕ
  inb : ℕ → ℕ

/-- The number of ports that `rw_port` reads or writes. -/
def portCount (pos count : ℕ) : ℕ := min count (65536 - pos)

/-- `rw_char` for reading. -/
def readChar (c : CharDevices) (dev f count : ℕ) : K (Except Errno (List ℕ)) := do
  let p ← Prog.read Fs.cur
  if major dev = 1 ∧ minor dev = 3 then pure (.ok [])
  else if major dev = 1 ∧ minor dev = 4 then
    let pos ← Prog.read fun s => (s.file f).pos
    advance f (portCount pos count)
    pure (.ok (getBytes c.inb pos (portCount pos count)))
  else if major dev = 1 then pure (.error .EIoError)
  else if major dev = 4 then pure c.ttyRead
  else if major dev = 5 then pure (if p.tty = none then .error .EPERM else c.ttyRead)
  else pure (.error .ENODEV)

/-- `rw_char` for writing. -/
def writeChar (c : CharDevices) (dev f count : ℕ) : K (Except Errno ℕ) := do
  let p ← Prog.read Fs.cur
  if major dev = 1 ∧ minor dev = 3 then pure (.ok count)
  else if major dev = 1 ∧ minor dev = 4 then
    let pos ← Prog.read fun s => (s.file f).pos
    advance f (portCount pos count)
    pure (.ok (portCount pos count))
  else if major dev = 1 then pure (.error .EIoError)
  else if major dev = 4 then pure c.ttyWrite
  else if major dev = 5 then pure (if p.tty = none then .error .EPERM else c.ttyWrite)
  else pure (.error .ENODEV)

/-! ### The calls -/

/-- `IS_SEEKABLE`. -/
def isSeekable (major : ℕ) : Bool := 1 ≤ major && major ≤ 3

/-- A number as a `long`. -/
def toLong (n : ℤ) : ℤ := Int.bmod n 4294967296

/-- Where `sys_lseek` goes: the sum, unless it is negative. -/
def seekPos (base : ℕ) (offset : ℤ) : Except Errno ℕ :=
  if toLong (base + offset) < 0 then .error .EINVAL else .ok (toLong (base + offset)).toNat

/-- `sys_lseek`. -/
def sysLseek (fd : ℕ) (offset : ℤ) (origin : ℕ) : K (Except Errno ℕ) := do
  let p ← Prog.read Fs.cur
  match p.getFilp fd with
  | none => pure (.error .EBADF)
  | some f =>
    let e ← Prog.read fun s => s.file f
    let m ← Prog.read fun s => s.inode e.inode
    if isSeekable (major m.dev) = false then pure (.error .EBADF)
    else if m.pipe then pure (.error .ESPIPE)
    else
      match ([seekPos 0 offset, seekPos e.pos offset, seekPos m.size offset].getD origin
          (.error .EINVAL)) with
      | .error e => pure (.error e)
      | .ok pos =>
        modifyFile f fun e => { e with pos }
        pure (.ok pos)

/-- A list of bytes, or an error if there are none. -/
def bytesOr (e : Errno) (bytes : List ℕ) : Except Errno (List ℕ) :=
  if bytes = [] then .error e else .ok bytes

/-- `sys_read` of an inode that is not a pipe. -/
def readInodeAt (c : CharDevices) (inode f count : ℕ) : K (Except Errno (List ℕ)) := do
  let m ← Prog.read fun s => s.inode inode
  if isChr m.mode then readChar c (m.zone 0) f count
  else if isBlk m.mode then
    let bytes ← blockRead (m.zone 0) f count count
    pure (bytesOr .EIoError bytes)
  else if isDir m.mode || isReg m.mode then
    let pos ← Prog.read fun s => (s.file f).pos
    let count := if m.size < count + pos then m.size - pos else count
    if count = 0 then pure (.ok []) else fileRead inode f count
  else pure (.error .EINVAL)

/-- `sys_read`. -/
def sysRead (c : CharDevices) (fd count : ℕ) : K (Except Errno (List ℕ)) := do
  let p ← Prog.read Fs.cur
  match p.getFilp fd with
  | none => pure (.error .EINVAL)
  | some f =>
    if count = 0 then pure (.ok [])
    else
      let e ← Prog.read fun s => s.file f
      let pipe ← Prog.read fun s => (s.inode e.inode).pipe
      if pipe then
        if e.mode % 2 = 1 then
          let bytes ← readPipe e.inode count count
          pure (.ok bytes)
        else pure (.error .EIoError)
      else readInodeAt c e.inode f count

/-- A number of bytes, or an error if it is 0. -/
def countOr (e : Errno) (n : ℕ) : Except Errno ℕ := if n = 0 then .error e else .ok n

/-- `sys_write` to an inode that is not a pipe. -/
def writeInodeAt (c : CharDevices) (inode f : ℕ) (buf : List ℕ) : K (Except Errno ℕ) := do
  let m ← Prog.read fun s => s.inode inode
  if isChr m.mode then writeChar c (m.zone 0) f buf.length
  else if isBlk m.mode then
    let n ← blockWrite (m.zone 0) f buf.length buf
    pure (countOr .EIoError n)
  else if isReg m.mode then fileWrite inode f buf
  else pure (.error .EINVAL)

/-- `sys_write`; -1 is the error of a call that has written nothing to a pipe. -/
def sysWrite (c : CharDevices) (fd : ℕ) (buf : List ℕ) : K (Except Errno ℕ) := do
  let p ← Prog.read Fs.cur
  match p.getFilp fd with
  | none => pure (.error .EINVAL)
  | some f =>
    if buf = [] then pure (.ok 0)
    else
      let e ← Prog.read fun s => s.file f
      let pipe ← Prog.read fun s => (s.inode e.inode).pipe
      if pipe then
        if e.mode / 2 % 2 = 1 then
          let n ← writePipe e.inode buf.length buf
          pure (countOr .EPERM n)
        else pure (.error .EIoError)
      else writeInodeAt c e.inode f buf

end LihaLinux.Files
