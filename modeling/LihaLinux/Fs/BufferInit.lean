import LihaLinux.Fs.CacheQueues
import LihaLinux.Lib.StringOps

/-!
# The memory of the buffer cache

`buffer_init` of `fs/buffer.c`. The buffer heads grow upwards from the end of the kernel, the
blocks for their data grow downwards from the end of the buffer memory and leave out the memory
between 640 kB and 1 MB. Addresses are 32-bit words.
-/

namespace LihaLinux.Fs

/-- `struct buffer_head`, with addresses as pointers, 0 for `NULL`. -/
structure BufferHead where
  data : ℕ
  blocknr : ℕ
  dev : ℕ
  uptodate : Bool
  dirt : Bool
  count : ℕ
  lock : Bool
  wait : ℕ
  prev : ℕ
  next : ℕ
  prevFree : ℕ
  nextFree : ℕ

/-- The memory that `buffer_init` writes to. -/
structure BufferMem where
  /-- The buffer head at an address. -/
  head : ℕ → BufferHead
  /-- `NR_BUFFERS`. -/
  nrBuffers : ℕ
  freeList : ℕ
  hashTable : ℕ → ℕ

/-- `sizeof(struct buffer_head)`. -/
def headSize : ℕ := 36

/-- `BLOCK_SIZE`. -/
def blockSize : ℕ := 1024

/-- A buffer head at the address `h` for the block at `b`, where `b_blocknr` stays as it is. -/
def BufferHead.reset (bh : BufferHead) (h b : ℕ) : BufferHead :=
  { bh with
    dev := 0
    dirt := false
    count := 0
    lock := false
    uptodate := false
    wait := 0
    next := 0
    prev := 0
    data := b
    prevFree := sub32 h headSize
    nextFree := add32 h headSize }

namespace BufferMem

/-- The stores into one buffer head in the loop of `buffer_init`. -/
def setHead (m : BufferMem) (h b : ℕ) : BufferMem :=
  { m with
    head := Function.update m.head h ((m.head h).reset h b)
    nrBuffers := m.nrBuffers + 1 }

/-- The loop of `buffer_init`, for a number of rounds: the pointer `h` at its end. -/
def initLoop : ℕ → ℕ → ℕ → BufferMem → Option (ℕ × BufferMem)
  | 0, _, _, _ => none
  | n + 1, h, b, m =>
    let b := sub32 b blockSize
    if add32 h headSize ≤ b then
      initLoop n (add32 h headSize) (if b = 0x100000 then 0xA0000 else b) (m.setHead h b)
    else some (h, m)

/-- A store to `b_prev_free`. -/
def setPrevFree (m : BufferMem) (h p : ℕ) : BufferMem :=
  { m with head := Function.update m.head h { m.head h with prevFree := p } }

/-- A store to `b_next_free`. -/
def setNextFree (m : BufferMem) (h n : ℕ) : BufferMem :=
  { m with head := Function.update m.head h { m.head h with nextFree := n } }

/-- The end of `buffer_init`: the free list becomes a ring, and the hash table is empty. -/
def closeList (m : BufferMem) (startBuffer h : ℕ) : BufferMem :=
  let m := { m with freeList := startBuffer }
  let m := m.setPrevFree m.freeList h
  let m := m.setNextFree h m.freeList
  { m with hashTable := fun i => if i < nrHash then 0 else m.hashTable i }

/-- `buffer_init`, for a number of rounds of its loop. `start_buffer` is the end of the kernel. -/
def bufferInit (n startBuffer bufferEnd : ℕ) (m : BufferMem) : Option BufferMem :=
  let b := if bufferEnd = 2 ^ 20 then 640 * 1024 else bufferEnd
  (initLoop n startBuffer b m).map fun r => r.2.closeList startBuffer (sub32 r.1 headSize)

end BufferMem

/-! ### The blocks -/

/-- The number of blocks above 1 MB. -/
def blocksAbove (bufferEnd : ℕ) : ℕ := (bufferEnd - 0x100000) / blockSize

/-- The address behind the block of the `i`th buffer head. -/
def blockTop (bufferEnd i : ℕ) : ℕ :=
  if i < blocksAbove bufferEnd then bufferEnd - 1024 * i
  else 0xA0000 - 1024 * (i - blocksAbove bufferEnd)

/-- The address of the `i`th buffer head. -/
def headAddr (startBuffer i : ℕ) : ℕ := startBuffer + headSize * i

/-- The `i`th buffer head and its block are apart. -/
def BlockFits (startBuffer bufferEnd i : ℕ) : Prop :=
  headAddr startBuffer (i + 1) + blockSize ≤ blockTop bufferEnd i

/-- What `buffer_init` is told: the kernel ends below 640 kB, and the buffer memory ends with a
block, at 1 MB or above. -/
structure MemoryEnds (startBuffer bufferEnd : ℕ) : Prop where
  kernel : startBuffer < 640 * 1024
  blocks : bufferEnd % blockSize = 0
  low : 1024 * 1024 ≤ bufferEnd
  /-- The parameter is a positive `long`. -/
  high : bufferEnd < 2147483648

variable {startBuffer bufferEnd i : ℕ}

/-- A buffer that fits leaves room for few more below 640 kB. -/
theorem BlockFits.succ_le (h : BlockFits startBuffer bufferEnd i) :
    i + 1 ≤ blocksAbove bufferEnd + 618 := by
  rw [BlockFits, headAddr, headSize, blockSize, blockTop] at h
  split_ifs at h <;> omega

/-- The first block below the top. -/
theorem sub32_blockTop (hends : MemoryEnds startBuffer bufferEnd)
    (hi : i ≤ blocksAbove bufferEnd + 618) :
    blockSize ≤ blockTop bufferEnd i ∧
      sub32 (blockTop bufferEnd i) blockSize = blockTop bufferEnd i - blockSize := by
  have hlow := hends.low
  have hhigh := hends.high
  have htop : blockSize ≤ blockTop bufferEnd i ∧ blockTop bufferEnd i < 2 ^ 32 := by
    rw [blockTop, blockSize]
    rw [blocksAbove, blockSize] at hi ⊢
    split_ifs <;> omega
  exact ⟨htop.1, sub32_eq htop.1 htop.2⟩

/-- The next block begins where this one ends, or at 640 kB. -/
theorem blockTop_succ (hends : MemoryEnds startBuffer bufferEnd)
    (hi : i ≤ blocksAbove bufferEnd + 618) :
    blockTop bufferEnd (i + 1) = if blockTop bufferEnd i - blockSize = 0x100000 then 0xA0000
      else blockTop bufferEnd i - blockSize := by
  have habove : 1024 * blocksAbove bufferEnd + 0x100000 = bufferEnd := by
    have hblocks := hends.blocks
    have hlow := hends.low
    rw [blockSize] at hblocks
    rw [blocksAbove, blockSize]
    omega
  rw [blockTop, blockTop, blockSize]
  generalize blocksAbove bufferEnd = above at *
  by_cases hi₁ : i + 1 < above
  · have hi₂ : i < above := by omega
    rw [if_pos hi₁, if_pos hi₂, if_neg (by omega)]
    omega
  · rw [if_neg hi₁]
    by_cases hlast : i < above
    · rw [if_pos hlast, if_pos (by omega)]
      omega
    · rw [if_neg hlast, if_neg (by omega)]
      omega

/-- The address of a buffer head does not wrap. -/
theorem headAddr_lt (hends : MemoryEnds startBuffer bufferEnd)
    (hi : i ≤ blocksAbove bufferEnd + 619) : headAddr startBuffer i < 2 ^ 32 := by
  have hkernel := hends.kernel
  have hhigh := hends.high
  rw [blocksAbove, blockSize] at hi
  rw [headAddr, headSize]
  omega

/-- The next buffer head. -/
theorem add32_headAddr (hends : MemoryEnds startBuffer bufferEnd)
    (hi : i ≤ blocksAbove bufferEnd + 618) :
    add32 (headAddr startBuffer i) headSize = headAddr startBuffer (i + 1) := by
  have hlt := headAddr_lt hends (Nat.succ_le_succ hi)
  have hsucc : headAddr startBuffer (i + 1) = headAddr startBuffer i + headSize := by
    rw [headAddr, headAddr, Nat.mul_succ, Nat.add_assoc]
  rw [hsucc] at hlt ⊢
  exact add32_eq hlt

/-- Buffer heads have different addresses. -/
theorem headAddr_inj {j : ℕ} (h : headAddr startBuffer i = headAddr startBuffer j) : i = j := by
  rw [headAddr, headAddr, headSize] at h
  omega

/-- The loop has set up the buffer heads from the `i`th one on. -/
structure Written (startBuffer bufferEnd i count : ℕ) (m m' : BufferMem) : Prop where
  nrBuffers : m'.nrBuffers + i = m.nrBuffers + count
  before : ∀ k < i, m'.head (headAddr startBuffer k) = m.head (headAddr startBuffer k)
  head : ∀ k, i ≤ k → k < count → m'.head (headAddr startBuffer k) =
    (m.head (headAddr startBuffer k)).reset (headAddr startBuffer k)
      (blockTop bufferEnd k - blockSize)

/-- One round, and the rounds after it. -/
theorem Written.cons {count : ℕ} {m m' : BufferMem}
    (h : Written startBuffer bufferEnd (i + 1) count
      (m.setHead (headAddr startBuffer i) (blockTop bufferEnd i - blockSize)) m') :
    Written startBuffer bufferEnd i count m m' := by
  constructor
  · have hsum := h.nrBuffers
    rw [BufferMem.setHead] at hsum
    dsimp only at hsum
    omega
  · intro k hk
    have hne : headAddr startBuffer k ≠ headAddr startBuffer i :=
      fun heq => (Nat.ne_of_lt hk) (headAddr_inj heq)
    rw [h.before k (by omega)]
    exact Function.update_of_ne hne ..
  · intro k hik hk
    rcases Nat.eq_or_lt_of_le hik with rfl | hik
    · rw [h.before i (by omega)]
      exact Function.update_self ..
    · have hne : headAddr startBuffer k ≠ headAddr startBuffer i :=
        fun heq => (Nat.ne_of_gt hik) (headAddr_inj heq)
      have hsame : (m.setHead (headAddr startBuffer i) (blockTop bufferEnd i - blockSize)).head
          (headAddr startBuffer k) = m.head (headAddr startBuffer k) :=
        Function.update_of_ne hne ..
      rw [h.head k hik hk, hsame]

/-- The loop ends, and sets up the buffer heads of blocks that fit. -/
theorem initLoop_spec (hends : MemoryEnds startBuffer bufferEnd) {n : ℕ}
    (hi : i ≤ blocksAbove bufferEnd + 618) (hn : blocksAbove bufferEnd + 618 < n + i)
    (m : BufferMem) :
    ∃ count m', i ≤ count ∧ count ≤ blocksAbove bufferEnd + 618 ∧
      (∀ k, i ≤ k → k < count → BlockFits startBuffer bufferEnd k) ∧
      ¬BlockFits startBuffer bufferEnd count ∧
      BufferMem.initLoop n (headAddr startBuffer i) (blockTop bufferEnd i) m =
        some (headAddr startBuffer count, m') ∧
      Written startBuffer bufferEnd i count m m' := by
  induction n generalizing i m with
  | zero => omega
  | succ n ih =>
    obtain ⟨htop, hsub⟩ := sub32_blockTop hends hi
    have hfits : add32 (headAddr startBuffer i) headSize ≤ blockTop bufferEnd i - blockSize ↔
        BlockFits startBuffer bufferEnd i := by
      rw [add32_headAddr hends hi, BlockFits]
      omega
    rw [BufferMem.initLoop, hsub]
    rw [← blockTop_succ hends hi]
    by_cases hfit : BlockFits startBuffer bufferEnd i
    · have hnext := hfit.succ_le
      rw [if_pos (hfits.mpr hfit), add32_headAddr hends hi]
      obtain ⟨count, m', hle, hcount, hall, hend, hloop, hwritten⟩ := ih hnext (by omega)
        (m.setHead (headAddr startBuffer i) (blockTop bufferEnd i - blockSize))
      refine ⟨count, m', by omega, hcount, fun k hik hk => ?_, hend, hloop, hwritten.cons⟩
      rcases Nat.eq_or_lt_of_le hik with rfl | hik
      · exact hfit
      · exact hall k hik hk
    · rw [if_neg (mt hfits.mp hfit)]
      refine ⟨i, m, Nat.le_refl i, hi, fun k hik hk => ?_, hfit, rfl, rfl, fun _ _ => rfl,
        fun k hik hk => ?_⟩
      · omega
      · omega

/-! ### The result -/

/-- The pointer to a buffer. -/
def pointer (startBuffer : ℕ) : Option ℕ → ℕ
  | none => 0
  | some i => headAddr startBuffer i

/-- The memory has a cache, whose buffers are numbered from `start_buffer` on. -/
structure Represents (startBuffer : ℕ) (m : BufferMem) (c : Cache) : Prop where
  nrBuffers : m.nrBuffers = c.nrBuffers
  freeList : m.freeList = pointer startBuffer c.freeList
  hashTable : ∀ h < nrHash, m.hashTable h = pointer startBuffer (c.hashTable h)
  dev : ∀ i < c.nrBuffers, (m.head (headAddr startBuffer i)).dev = c.dev i
  blocknr : ∀ i < c.nrBuffers, (m.head (headAddr startBuffer i)).blocknr = c.blocknr i
  uptodate : ∀ i < c.nrBuffers, (m.head (headAddr startBuffer i)).uptodate = c.uptodate i
  dirt : ∀ i < c.nrBuffers, (m.head (headAddr startBuffer i)).dirt = c.dirt i
  lock : ∀ i < c.nrBuffers, (m.head (headAddr startBuffer i)).lock = c.lock i
  count : ∀ i < c.nrBuffers, (m.head (headAddr startBuffer i)).count = c.count i
  next : ∀ i < c.nrBuffers, (m.head (headAddr startBuffer i)).next = pointer startBuffer (c.next i)
  prev : ∀ i < c.nrBuffers, (m.head (headAddr startBuffer i)).prev = pointer startBuffer (c.prev i)
  nextFree : ∀ i < c.nrBuffers,
    (m.head (headAddr startBuffer i)).nextFree = pointer startBuffer (c.nextFree i)
  prevFree : ∀ i < c.nrBuffers,
    (m.head (headAddr startBuffer i)).prevFree = pointer startBuffer (c.prevFree i)

namespace BufferMem

theorem head_setPrevFree (m : BufferMem) (h p a : ℕ) : (m.setPrevFree h p).head a =
    { m.head a with prevFree := if a = h then p else (m.head a).prevFree } := by
  rw [setPrevFree]
  by_cases ha : a = h
  · rw [ha, if_pos rfl]
    exact Function.update_self ..
  · rw [if_neg ha]
    exact Function.update_of_ne ha ..

theorem head_setNextFree (m : BufferMem) (h n a : ℕ) : (m.setNextFree h n).head a =
    { m.head a with nextFree := if a = h then n else (m.head a).nextFree } := by
  rw [setNextFree]
  by_cases ha : a = h
  · rw [ha, if_pos rfl]
    exact Function.update_self ..
  · rw [if_neg ha]
    exact Function.update_of_ne ha ..

/-- The end of `buffer_init` changes two pointers of the free list. -/
theorem head_closeList (m : BufferMem) (startBuffer h a : ℕ) :
    (m.closeList startBuffer h).head a =
      { m.head a with
        prevFree := if a = startBuffer then h else (m.head a).prevFree
        nextFree := if a = h then startBuffer else (m.head a).nextFree } := by
  have hclose : (m.closeList startBuffer h).head a =
      ((({ m with freeList := startBuffer } : BufferMem).setPrevFree startBuffer h).setNextFree h
        startBuffer).head a := rfl
  rw [hclose, head_setNextFree, head_setPrevFree]

end BufferMem

/-- What `buffer_init` makes of the memory. -/
structure Layout (startBuffer bufferEnd : ℕ) (m : BufferMem) : Prop where
  /-- There are as many buffers as fit. -/
  fits : ∀ i < m.nrBuffers, BlockFits startBuffer bufferEnd i
  full : ¬BlockFits startBuffer bufferEnd m.nrBuffers
  disjoint : ∀ i < m.nrBuffers, ∀ j < m.nrBuffers, i ≠ j →
    (m.head (headAddr startBuffer i)).data + blockSize ≤ (m.head (headAddr startBuffer j)).data ∨
      (m.head (headAddr startBuffer j)).data + blockSize ≤ (m.head (headAddr startBuffer i)).data
  /-- The blocks are behind the array of the buffer heads. -/
  heads : ∀ i < m.nrBuffers,
    headAddr startBuffer m.nrBuffers ≤ (m.head (headAddr startBuffer i)).data
  adapter : ∀ i < m.nrBuffers,
    (m.head (headAddr startBuffer i)).data + blockSize ≤ 0xA0000 ∨
      0x100000 ≤ (m.head (headAddr startBuffer i)).data
  memory : ∀ i < m.nrBuffers, (m.head (headAddr startBuffer i)).data + blockSize ≤ bufferEnd
  freeList : 0 < m.nrBuffers → m.freeList = startBuffer ∧
    Ring (fun a => some (m.head a).nextFree) (fun a => some (m.head a).prevFree)
      ((List.range m.nrBuffers).map (headAddr startBuffer))

/-- The blocks lie one below the other. -/
theorem blockTop_lt {j : ℕ} (hends : MemoryEnds startBuffer bufferEnd) (hij : i < j)
    (hj : j ≤ blocksAbove bufferEnd + 618) :
    blockTop bufferEnd j + blockSize ≤ blockTop bufferEnd i := by
  have hlow := hends.low
  rw [blockTop, blockTop]
  rw [blocksAbove, blockSize] at hj ⊢
  split_ifs <;> omega

/-- No block is between 640 kB and 1 MB. -/
theorem blockTop_adapter (hends : MemoryEnds startBuffer bufferEnd) :
    blockTop bufferEnd i ≤ 0xA0000 ∨ 0x100000 + blockSize ≤ blockTop bufferEnd i := by
  have hlow := hends.low
  have hblocks := hends.blocks
  rw [blockTop, blocksAbove]
  rw [blockSize] at *
  split_ifs
  · right
    omega
  · left
    omega

/-- The blocks end with the memory. -/
theorem blockTop_le (hends : MemoryEnds startBuffer bufferEnd) :
    blockTop bufferEnd i ≤ bufferEnd := by
  have hlow := hends.low
  rw [blockTop]
  split_ifs <;> omega

section Result

variable {count : ℕ} {m m' : BufferMem}

/-- `buffer_init` ends. -/
theorem bufferInit_eq (hends : MemoryEnds startBuffer bufferEnd) (n : ℕ) (m : BufferMem) :
    ∃ count m', count ≤ blocksAbove bufferEnd + 618 ∧
      (∀ k < count, BlockFits startBuffer bufferEnd k) ∧ ¬BlockFits startBuffer bufferEnd count ∧
      BufferMem.bufferInit (n + bufferEnd / blockSize) startBuffer bufferEnd m =
        some (m'.closeList startBuffer (sub32 (headAddr startBuffer count) headSize)) ∧
      Written startBuffer bufferEnd 0 count m m' := by
  have hlow := hends.low
  have hfuel : blocksAbove bufferEnd + 618 < n + bufferEnd / blockSize + 0 := by
    rw [blocksAbove, blockSize]
    omega
  obtain ⟨count, m', -, hcount, hfits, hfull, hloop, hwritten⟩ :=
    initLoop_spec hends (Nat.zero_le _) hfuel m
  have hhead : headAddr startBuffer 0 = startBuffer := rfl
  have htop : blockTop bufferEnd 0 = if bufferEnd = 2 ^ 20 then 640 * 1024 else bufferEnd := by
    rw [blockTop, blocksAbove, blockSize]
    have hblocks := hends.blocks
    rw [blockSize] at hblocks
    by_cases hend : bufferEnd = 2 ^ 20
    · rw [if_pos hend, if_neg (by omega), hend]
      decide
    · rw [if_neg hend, if_pos (by omega)]
      rfl
  rw [hhead, htop] at hloop
  refine ⟨count, m', hcount, fun k hk => hfits k (Nat.zero_le k) hk, hfull, ?_, hwritten⟩
  rw [BufferMem.bufferInit, hloop, Option.map_some]

/-- The buffer head before another one. -/
theorem sub32_headAddr (hends : MemoryEnds startBuffer bufferEnd)
    (hi : i ≤ blocksAbove bufferEnd + 618) :
    sub32 (headAddr startBuffer (i + 1)) headSize = headAddr startBuffer i := by
  have hlt := headAddr_lt hends (Nat.succ_le_succ hi)
  have hsucc : headAddr startBuffer (i + 1) = headAddr startBuffer i + headSize := by
    rw [headAddr, headAddr, Nat.mul_succ, Nat.add_assoc]
  rw [hsucc] at hlt ⊢
  rw [sub32_eq (Nat.le_add_left _ _) hlt, Nat.add_sub_cancel]

/-- The buffer heads after `buffer_init`. -/
theorem Written.head_closeList {last b : ℕ} (hends : MemoryEnds startBuffer bufferEnd)
    (hlast : last ≤ blocksAbove bufferEnd + 617)
    (h : Written startBuffer bufferEnd 0 (last + 1) m m') (blocknr : ℕ → ℕ) (hi : i < last + 1)
    (hb : blockTop bufferEnd i - blockSize = b) :
    (m'.closeList startBuffer (sub32 (headAddr startBuffer (last + 1)) headSize)).head
        (headAddr startBuffer i) =
      { (m.head (headAddr startBuffer i)).reset (headAddr startBuffer i) b with
        prevFree := pointer startBuffer ((Cache.init (last + 1) blocknr).prevFree i)
        nextFree := pointer startBuffer ((Cache.init (last + 1) blocknr).nextFree i) } := by
  have hprev : (if headAddr startBuffer i = startBuffer then headAddr startBuffer last
      else sub32 (headAddr startBuffer i) headSize) =
        pointer startBuffer ((Cache.init (last + 1) blocknr).prevFree i) := by
    have hinit : (Cache.init (last + 1) blocknr).prevFree i =
        if i = 0 then some last else some (i - 1) := rfl
    rw [hinit]
    cases i with
    | zero =>
      have hzero : headAddr startBuffer 0 = startBuffer := rfl
      rw [if_pos hzero, if_pos rfl]
      rfl
    | succ k =>
      have hne : headAddr startBuffer (k + 1) ≠ startBuffer := by
        rw [headAddr, headSize]
        omega
      rw [if_neg hne, if_neg (Nat.succ_ne_zero k), sub32_headAddr hends (by omega)]
      rfl
  have hnext : (if headAddr startBuffer i = headAddr startBuffer last then startBuffer
      else add32 (headAddr startBuffer i) headSize) =
        pointer startBuffer ((Cache.init (last + 1) blocknr).nextFree i) := by
    have hinit : (Cache.init (last + 1) blocknr).nextFree i =
        if i + 1 = last + 1 then some 0 else some (i + 1) := rfl
    rw [hinit]
    by_cases hil : i = last
    · rw [hil, if_pos rfl, if_pos rfl]
      rfl
    · have hne : headAddr startBuffer i ≠ headAddr startBuffer last :=
        fun heq => hil (headAddr_inj heq)
      rw [if_neg hne, if_neg (by omega), add32_headAddr hends (by omega)]
      rfl
  rw [BufferMem.head_closeList, h.head i (Nat.zero_le i) hi, hb, sub32_headAddr hends (by omega),
    ← hprev, ← hnext]
  rfl

/-- The memory after `buffer_init` has the cache in which all buffers are free. -/
theorem Written.represents (hends : MemoryEnds startBuffer bufferEnd) (hm : m.nrBuffers = 0)
    (hcount : count ≤ blocksAbove bufferEnd + 618) (hpos : 0 < count)
    (h : Written startBuffer bufferEnd 0 count m m') :
    Represents startBuffer
      (m'.closeList startBuffer (sub32 (headAddr startBuffer count) headSize))
      (Cache.init count fun i => (m.head (headAddr startBuffer i)).blocknr) := by
  obtain ⟨last, rfl⟩ : ∃ last, count = last + 1 := ⟨count - 1, by omega⟩
  have hnr : m'.nrBuffers = last + 1 := by
    have hsum := h.nrBuffers
    omega
  constructor
  · exact hnr
  · rfl
  · intro i hi
    exact if_pos hi
  all_goals
    intro i hi
    -- the address of the block is hidden, so that records are compared without computing it
    obtain ⟨b, hb⟩ : ∃ b, blockTop bufferEnd i - blockSize = b := ⟨_, rfl⟩
    rw [h.head_closeList hends (by omega) (fun i => (m.head (headAddr startBuffer i)).blocknr) hi
      hb]
  all_goals simp only [BufferHead.reset, Cache.init, pointer]

/-- The blocks of the buffer heads after `buffer_init`. -/
theorem Written.data_closeList {h : ℕ} (hwritten : Written startBuffer bufferEnd 0 count m m')
    (hi : i < count) : ((m'.closeList startBuffer h).head (headAddr startBuffer i)).data =
      blockTop bufferEnd i - blockSize := by
  rw [BufferMem.head_closeList, hwritten.head i (Nat.zero_le i) hi]
  dsimp only [BufferHead.reset]

/-- The free list of a memory with the cache of `buffer_init`. -/
theorem Represents.freeList_ring {blocknr : ℕ → ℕ} (hpos : 0 < count)
    (h : Represents startBuffer m (Cache.init count blocknr)) :
    m.freeList = startBuffer ∧
      Ring (fun a => some (m.head a).nextFree) (fun a => some (m.head a).prevFree)
        ((List.range count).map (headAddr startBuffer)) := by
  refine ⟨h.freeList, ?_⟩
  have hring := (Cache.wf_init hpos blocknr).ring
  have hnext : ∀ b ∈ List.range count, some (m.head (headAddr startBuffer b)).nextFree =
      ((Cache.init count blocknr).nextFree b).map (headAddr startBuffer) := by
    intro b hb
    have hinit : (Cache.init count blocknr).nextFree b =
        if b + 1 = count then some 0 else some (b + 1) := rfl
    rw [h.nextFree b (List.mem_range.mp hb), hinit]
    split_ifs <;> rfl
  have hprev : ∀ b ∈ List.range count, some (m.head (headAddr startBuffer b)).prevFree =
      ((Cache.init count blocknr).prevFree b).map (headAddr startBuffer) := by
    intro b hb
    have hinit : (Cache.init count blocknr).prevFree b =
        if b = 0 then some (count - 1) else some (b - 1) := rfl
    rw [h.prevFree b (List.mem_range.mp hb), hinit]
    split_ifs <;> rfl
  have hmap : DSeg (fun a => some (m.head a).nextFree) (fun a => some (m.head a).prevFree) _ _ _ :=
    DSeg.map (headAddr startBuffer) hring hnext hprev
  rw [Ring, List.getLast?_map, List.head?_map]
  exact hmap

/-- For every end of the kernel below 640 kB and every end of the buffer memory `buffer_init` ends.
The blocks of the buffers do not overlap each other, the buffer heads, or the memory between 640 kB
and 1 MB, and the buffers are a ring, the free list of an empty cache. -/
theorem bufferInit_layout (hends : MemoryEnds startBuffer bufferEnd) (n : ℕ)
    (hm : m.nrBuffers = 0) :
    ∃ m', BufferMem.bufferInit (n + bufferEnd / blockSize) startBuffer bufferEnd m = some m' ∧
      Layout startBuffer bufferEnd m' ∧
      (0 < m'.nrBuffers → Represents startBuffer m' (Cache.init m'.nrBuffers
        fun i => (m.head (headAddr startBuffer i)).blocknr)) := by
  obtain ⟨count, m', hcount, hfits, hfull, hinit, hwritten⟩ := bufferInit_eq hends n m
  have hnr : (m'.closeList startBuffer (sub32 (headAddr startBuffer count) headSize)).nrBuffers =
      count := by
    have hsum := hwritten.nrBuffers
    change m'.nrBuffers = count
    omega
  have hdata : ∀ i < count, _ := fun i hi =>
    hwritten.data_closeList (h := sub32 (headAddr startBuffer count) headSize) (i := i) hi
  have hrep := hwritten.represents hends hm hcount
  refine ⟨_, hinit, ?_, ?_⟩
  · constructor
    all_goals rw [hnr]
    · exact hfits
    · exact hfull
    · intro i hi j hj hne
      rw [hdata i hi, hdata j hj]
      have hi' := (sub32_blockTop hends (by omega : i ≤ _)).1
      have hj' := (sub32_blockTop hends (by omega : j ≤ _)).1
      rcases Nat.lt_or_gt_of_ne hne with hlt | hlt
      · have hbelow := blockTop_lt hends hlt (by omega)
        omega
      · have hbelow := blockTop_lt hends hlt (by omega)
        omega
    · intro i hi
      obtain ⟨last, rfl⟩ : ∃ last, count = last + 1 := ⟨count - 1, by omega⟩
      have hfit := hfits last (Nat.lt_succ_self last)
      rw [hdata i hi]
      rw [BlockFits] at hfit
      rcases Nat.eq_or_lt_of_le (Nat.le_of_lt_succ hi) with rfl | hlt
      · omega
      · have hbelow := blockTop_lt hends hlt (by omega)
        omega
    · intro i hi
      have hi' := (sub32_blockTop hends (by omega : i ≤ _)).1
      have hout := blockTop_adapter (i := i) hends
      rw [hdata i hi]
      omega
    · intro i hi
      have hi' := (sub32_blockTop hends (by omega : i ≤ _)).1
      have hle := blockTop_le (i := i) hends
      rw [hdata i hi]
      omega
    · intro hpos
      exact (hrep hpos).freeList_ring hpos
  · rw [hnr]
    exact hrep

/-- A kernel of 100000 bytes and 4 MB of buffer memory, with room for a buffer. -/
theorem bufferInit_layout_fourMb : ∃ m',
    BufferMem.bufferInit (4194304 / 1024) 100000 4194304
      ⟨fun _ => ⟨0, 0, 0, true, true, 0, true, 0, 0, 0, 0, 0⟩, 0, 0, fun _ => 0⟩ = some m' ∧
      Layout 100000 4194304 m' ∧ 0 < m'.nrBuffers := by
  have hends : MemoryEnds 100000 4194304 := ⟨by decide, by decide, by decide, by decide⟩
  obtain ⟨m', hinit, hlayout, -⟩ := bufferInit_layout hends 0
    (m := ⟨fun _ => ⟨0, 0, 0, true, true, 0, true, 0, 0, 0, 0, 0⟩, 0, 0, fun _ => 0⟩) rfl
  refine ⟨m', ?_, hlayout, ?_⟩
  · rw [← hinit]
    rfl
  · apply Nat.pos_of_ne_zero
    intro hzero
    apply hlayout.full
    rw [hzero, BlockFits]
    decide

end Result

end LihaLinux.Fs
