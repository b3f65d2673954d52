import LihaLinux.Lib.HashChains
import Mathlib.Data.Nat.Bitwise
import Mathlib.Tactic.Ring

/-!
# The buffer cache

The buffer heads of `fs/buffer.c`, one function per field of `struct buffer_head`, with
the hash table and the free list: `remove_from_queues`, `insert_into_queues`,
`find_buffer`, and the parts of `getblk` between its sleeps. Buffers are numbered from
`start_buffer` on.
-/

namespace LihaLinux.Fs

/-- The buffer heads, `hash_table` and `free_list`. -/
structure Cache where
  /-- `NR_BUFFERS`. -/
  nrBuffers : ℕ
  /-- `b_dev`, 0 for a buffer that has never been used. -/
  dev : ℕ → ℕ
  blocknr : ℕ → ℕ
  uptodate : ℕ → Bool
  dirt : ℕ → Bool
  lock : ℕ → Bool
  /-- `b_count`, an `unsigned char`. -/
  count : ℕ → ℕ
  next : ℕ → Option ℕ
  prev : ℕ → Option ℕ
  nextFree : ℕ → Option ℕ
  prevFree : ℕ → Option ℕ
  hashTable : ℕ → Option ℕ
  freeList : Option ℕ

/-- `NR_HASH`. -/
def nrHash : ℕ := 307

/-- `_hashfn(dev,block)`. -/
def hashfn (dev block : ℕ) : ℕ := (dev ^^^ block) % nrHash

namespace Cache

/-! ### The two queues -/

/-- The first half of `remove_from_queues(bh)`: the hash queue. -/
def removeFromHash (c : Cache) (bh : ℕ) : Cache :=
  let c := { c with prev := unlinkPrev c.next c.prev bh }
  let c := { c with next := unlinkNext c.next c.prev bh }
  let h := hashfn (c.dev bh) (c.blocknr bh)
  if c.hashTable h = some bh then
    { c with hashTable := Function.update c.hashTable h (c.next bh) }
  else c

/-- The second half of `remove_from_queues(bh)`: the free list. There is no result if the
kernel panics with "Free block list corrupted". -/
def removeFromFree (c : Cache) (bh : ℕ) : Option Cache :=
  match c.prevFree bh, c.nextFree bh with
  | some p, some n =>
    some { c with
      nextFree := Function.update c.nextFree p (some n)
      prevFree := Function.update c.prevFree n (some p)
      freeList := if c.freeList = some bh then some n else c.freeList }
  | _, _ => none

/-- The first half of `insert_into_queues(bh)`: the end of the free list. There is no
result if a null pointer is followed. -/
def insertIntoFree (c : Cache) (bh : ℕ) : Option Cache :=
  match c.freeList with
  | none => none
  | some f =>
    let nextFree := Function.update c.nextFree bh (some f)
    let prevFree := Function.update c.prevFree bh (c.prevFree f)
    match prevFree f with
    | none => none
    | some p =>
      some { c with
        nextFree := Function.update nextFree p (some bh)
        prevFree := Function.update prevFree f (some bh) }

/-- The second half of `insert_into_queues(bh)`: the hash queue of a buffer with a device.
The store through a null `b_next` touches no buffer. -/
def insertIntoHash (c : Cache) (bh : ℕ) : Cache :=
  let c := { c with
    prev := Function.update c.prev bh none
    next := Function.update c.next bh none }
  if c.dev bh = 0 then c
  else
    let h := hashfn (c.dev bh) (c.blocknr bh)
    let c := { c with
      next := Function.update c.next bh (c.hashTable h)
      hashTable := Function.update c.hashTable h (some bh) }
    match c.next bh with
    | none => c
    | some n => { c with prev := Function.update c.prev n (some bh) }

/-- The end of `getblk(dev,block)`: the buffer `bh` is taken for the block. -/
def assign (c : Cache) (dev block bh : ℕ) : Option Cache :=
  let c := { c with
    count := Function.update c.count bh 1
    dirt := Function.update c.dirt bh false
    uptodate := Function.update c.uptodate bh false }
  ((c.removeFromHash bh).removeFromFree bh).bind fun c =>
    let c := { c with
      dev := Function.update c.dev bh dev
      blocknr := Function.update c.blocknr bh block }
    (c.insertIntoFree bh).map fun c => c.insertIntoHash bh

/-! ### Searches -/

/-- `find_buffer(dev,block)`. -/
def findBuffer (c : Cache) (dev block : ℕ) : Option ℕ :=
  walk c.next (fun b => c.dev b = dev ∧ c.blocknr b = block) (c.nrBuffers + 1)
    (c.hashTable (hashfn dev block))

/-- `BADNESS(bh)`. -/
def badness (c : Cache) (bh : ℕ) : ℕ := 2 * (c.dirt bh).toNat + (c.lock bh).toNat

/-- The loop of `getblk` over the free list, from `tmp` on, with the best buffer so far. -/
def scanFree (c : Cache) : ℕ → ℕ → Option ℕ → Option ℕ
  | 0, _, best => best
  | fuel + 1, tmp, best =>
    let rest (best : Option ℕ) : Option ℕ :=
      match c.nextFree tmp with
      | none => best
      | some n => if c.freeList = some n then best else scanFree c fuel n best
    if c.count tmp ≠ 0 then rest best
    else
      match best with
      | none => if c.badness tmp = 0 then some tmp else rest (some tmp)
      | some b =>
        if c.badness tmp < c.badness b then
          if c.badness tmp = 0 then some tmp else rest (some tmp)
        else rest (some b)

/-- The buffer that `getblk` chooses from the free list. -/
def chooseFree (c : Cache) : Option ℕ :=
  match c.freeList with
  | none => none
  | some f => c.scanFree c.nrBuffers f none

/-! ### Single fields -/

/-- `bh->b_count++`. -/
def incCount (c : Cache) (bh : ℕ) : Cache :=
  { c with count := Function.update c.count bh ((c.count bh + 1) % 256) }

/-- `bh->b_count--`. -/
def decCount (c : Cache) (bh : ℕ) : Cache :=
  { c with count := Function.update c.count bh ((c.count bh + 255) % 256) }

/-- `bh->b_lock = v`. -/
def setLock (c : Cache) (bh : ℕ) (v : Bool) : Cache :=
  { c with lock := Function.update c.lock bh v }

/-- `bh->b_dirt = v`. -/
def setDirt (c : Cache) (bh : ℕ) (v : Bool) : Cache :=
  { c with dirt := Function.update c.dirt bh v }

/-- `bh->b_uptodate = v`. -/
def setUptodate (c : Cache) (bh : ℕ) (v : Bool) : Cache :=
  { c with uptodate := Function.update c.uptodate bh v }

/-! ### The representation invariant -/

/-- The cache represents the free list `free` and the hash chains `chain`: the free list is
a ring of all buffers, the chain of `h` holds the buffers in use whose block hashes to `h`,
and no block has two buffers. -/
structure Wf (c : Cache) (free : List ℕ) (chain : ℕ → List ℕ) : Prop where
  ring : Ring c.nextFree c.prevFree free
  head : c.freeList = free.head?
  perm : free.Perm (List.range c.nrBuffers)
  chains : Chains c.next c.prev c.hashTable chain
  mem : ∀ {h b}, b ∈ chain h ↔
    b < c.nrBuffers ∧ c.dev b ≠ 0 ∧ hashfn (c.dev b) (c.blocknr b) = h
  unused : ∀ {b}, b < c.nrBuffers → c.dev b = 0 → c.next b = none ∧ c.prev b = none
  unique : ∀ {a b}, a < c.nrBuffers → b < c.nrBuffers → c.dev a ≠ 0 → c.dev a = c.dev b →
    c.blocknr a = c.blocknr b → a = b

namespace Wf

variable {c : Cache} {free : List ℕ} {chain : ℕ → List ℕ}

/-- The free list has no repetition. -/
theorem nodup (h : c.Wf free chain) : free.Nodup := h.perm.nodup_iff.mpr List.nodup_range

/-- The free list has all buffers. -/
theorem mem_free (h : c.Wf free chain) {b : ℕ} : b ∈ free ↔ b < c.nrBuffers := by
  rw [h.perm.mem_iff, List.mem_range]

/-- A chain is no longer than the list of buffers. -/
theorem length_chain (h : c.Wf free chain) (g : ℕ) : (chain g).length ≤ c.nrBuffers := by
  have hsub : chain g ⊆ List.range c.nrBuffers := by
    intro b hb
    exact List.mem_range.mpr (h.mem.mp hb).1
  have hle := (h.chains.nodup g).length_le_of_subset hsub
  rwa [List.length_range] at hle

/-- `find_buffer` searches the chain of the block. -/
theorem findBuffer_eq (h : c.Wf free chain) (dev block : ℕ) :
    c.findBuffer dev block =
      (chain (hashfn dev block)).find? fun b => c.dev b = dev ∧ c.blocknr b = block := by
  unfold findBuffer
  rw [h.chains.head, walk_eq_find (h.chains.links _)]
  have := h.length_chain (hashfn dev block)
  omega

/-- What `find_buffer` finds is a buffer of the block. -/
theorem findBuffer_some (h : c.Wf free chain) {dev block b : ℕ}
    (hfind : c.findBuffer dev block = some b) :
    b < c.nrBuffers ∧ c.dev b ≠ 0 ∧ c.dev b = dev ∧ c.blocknr b = block := by
  rw [h.findBuffer_eq] at hfind
  have htest := List.find?_some hfind
  have hmem := h.mem.mp (List.mem_of_find?_eq_some hfind)
  simp only [decide_eq_true_eq] at htest
  exact ⟨hmem.1, hmem.2.1, htest.1, htest.2⟩

/-- If `find_buffer` finds nothing, no buffer is in use for the block. -/
theorem findBuffer_none (h : c.Wf free chain) {dev block : ℕ}
    (hfind : c.findBuffer dev block = none) {b : ℕ} (hb : b < c.nrBuffers) (hdev : c.dev b ≠ 0)
    (hb' : c.dev b = dev) : c.blocknr b ≠ block := by
  intro hblock
  rw [h.findBuffer_eq, List.find?_eq_none] at hfind
  have hmem : b ∈ chain (hashfn dev block) := h.mem.mpr ⟨hb, hdev, by rw [hb', hblock]⟩
  have := hfind b hmem
  simp [hb', hblock] at this

end Wf

end Cache

end LihaLinux.Fs
