import Mathlib.Data.Nat.Basic
import Mathlib.Tactic.IntervalCases

/-!
# Page-table words

An entry of the page directory or of a page table is a 32-bit word: a page
number in its upper twenty bits, and flags below. `mm/memory.c` reads and
builds these words with masks; the lemmas here say what the masks do to the
page number and to the three flags the kernel looks at.
-/

namespace LihaLinux.Mm

/-- A machine word, the source's `unsigned long`. -/
abbrev Word := BitVec 32

/-- `1 & entry`: the present bit. -/
def present (w : Word) : Bool := (1#32 &&& w) != 0#32

/-- The read/write bit, the one cleared by `&= ~2`. -/
def writable (w : Word) : Bool := (2#32 &&& w) != 0#32

/-- The dirty bit, set by the CPU on a store through the entry. -/
def dirty (w : Word) : Bool := (0x40#32 &&& w) != 0#32

/-- `0xfffff000 & entry`, as a page number. -/
def frame (w : Word) : ℕ := ((0xfffff000#32 &&& w) >>> 12).toNat

/-- The address of a page. -/
def pageAddr (page : ℕ) : Word := BitVec.ofNat 32 page <<< 12

/-- `entry & ~2`: the entry without write permission. -/
def writeProtect (w : Word) : Word := w &&& ~~~2#32

private theorem mask_ne_zero_iff (w : Word) (k : ℕ) (hk : k < 32) :
    (BitVec.twoPow 32 k &&& w) ≠ 0#32 ↔ w.getLsbD k = true := by
  rw [BitVec.and_comm, BitVec.and_twoPow]
  by_cases h : w.getLsbD k
  · rw [if_pos h]
    simp only [h, iff_true]
    intro hz
    have := congrArg (BitVec.getLsbD · k) hz
    simp [hk] at this
  · simp [h]

theorem present_eq (w : Word) : present w = w.getLsbD 0 := by
  rw [Bool.eq_iff_iff, present, bne_iff_ne]
  exact mask_ne_zero_iff w 0 (by omega)

theorem writable_eq (w : Word) : writable w = w.getLsbD 1 := by
  rw [Bool.eq_iff_iff, writable, bne_iff_ne]
  exact mask_ne_zero_iff w 1 (by omega)

theorem dirty_eq (w : Word) : dirty w = w.getLsbD 6 := by
  rw [Bool.eq_iff_iff, dirty, bne_iff_ne]
  exact mask_ne_zero_iff w 6 (by omega)

/-- The page number of a word is its upper twenty bits. -/
theorem frame_eq_div (w : Word) : frame w = w.toNat / 4096 := by
  have hmask : (0xfffff000#32 &&& w) >>> 12 = w >>> 12 := by
    ext i hi
    simp only [BitVec.getElem_ushiftRight, BitVec.getLsbD_and]
    interval_cases i <;> simp
  rw [frame, hmask, BitVec.toNat_ushiftRight, Nat.shiftRight_eq_div_pow]

private theorem frame_or {w v : Word} (h : 0xfffff000#32 &&& v = 0#32) :
    frame (w ||| v) = frame w := by
  rw [frame, BitVec.and_or_distrib_left, h, BitVec.or_zero, frame]

private theorem frame_and {w v : Word} (h : 0xfffff000#32 &&& v = 0xfffff000#32) :
    frame (w &&& v) = frame w := by
  rw [frame, BitVec.and_comm w v, ← BitVec.and_assoc, h, frame]

private theorem frame_pageAddr {page : ℕ} (h : page < 2 ^ 20) : frame (pageAddr page) = page := by
  rw [frame_eq_div, pageAddr, BitVec.toNat_shiftLeft, Nat.shiftLeft_eq, BitVec.toNat_ofNat]
  omega

@[simp] theorem present_zero : present 0#32 = false := by decide

/-! ### Clearing the write bit: `entry & ~2` -/

@[simp] theorem frame_writeProtect (w : Word) : frame (writeProtect w) = frame w :=
  frame_and (by decide)

@[simp] theorem present_writeProtect (w : Word) : present (writeProtect w) = present w := by
  simp [present_eq, writeProtect]

@[simp] theorem writable_writeProtect (w : Word) : writable (writeProtect w) = false := by
  simp [writable_eq, writeProtect]

@[simp] theorem dirty_writeProtect (w : Word) : dirty (writeProtect w) = dirty w := by
  simp [dirty_eq, writeProtect]

/-! ### Setting the write bit: `entry | 2` -/

@[simp] theorem frame_unprotect (w : Word) : frame (w ||| 2#32) = frame w :=
  frame_or (by decide)

@[simp] theorem present_unprotect (w : Word) : present (w ||| 2#32) = present w := by
  simp [present_eq]

@[simp] theorem writable_unprotect (w : Word) : writable (w ||| 2#32) = true := by
  simp [writable_eq]

@[simp] theorem dirty_unprotect (w : Word) : dirty (w ||| 2#32) = dirty w := by
  simp [dirty_eq]

/-! ### A store through an entry: the CPU sets the accessed and dirty bits -/

@[simp] theorem frame_touch (w : Word) : frame (w ||| 0x60#32) = frame w :=
  frame_or (by decide)

@[simp] theorem present_touch (w : Word) : present (w ||| 0x60#32) = present w := by
  simp [present_eq]

@[simp] theorem writable_touch (w : Word) : writable (w ||| 0x60#32) = writable w := by
  simp [writable_eq]

@[simp] theorem dirty_touch (w : Word) : dirty (w ||| 0x60#32) = true := by
  simp [dirty_eq]

/-! ### A fresh entry: `page | 7` -/

theorem frame_fresh {page : ℕ} (h : page < 2 ^ 20) : frame (pageAddr page ||| 7#32) = page := by
  rw [frame_or (by decide), frame_pageAddr h]

@[simp] theorem present_fresh (page : ℕ) : present (pageAddr page ||| 7#32) = true := by
  simp [present_eq, pageAddr]

@[simp] theorem writable_fresh (page : ℕ) : writable (pageAddr page ||| 7#32) = true := by
  simp [writable_eq, pageAddr]

@[simp] theorem dirty_fresh (page : ℕ) : dirty (pageAddr page ||| 7#32) = false := by
  simp [dirty_eq, pageAddr]

/-- `(3 & entry) == 1`: present and not writable. -/
theorem three_and_eq_one_iff (w : Word) :
    3#32 &&& w = 1#32 ↔ present w = true ∧ writable w = false := by
  rw [present_eq, writable_eq]
  constructor
  · intro h
    have h0 := congrArg (BitVec.getLsbD · 0) h
    have h1 := congrArg (BitVec.getLsbD · 1) h
    simp only [BitVec.getLsbD_and] at h0 h1
    simpa using And.intro h0 h1
  · rintro ⟨h0, h1⟩
    rw [BitVec.getLsbD_eq_getElem (by omega)] at h0 h1
    ext i hi
    rw [BitVec.getElem_and]
    interval_cases i <;> simp [h0, h1]

/-- `(entry & 0x41) == 0x01`: present and clean. -/
theorem and_present_clean_iff (w : Word) :
    w &&& 0x41#32 = 0x01#32 ↔ present w = true ∧ dirty w = false := by
  rw [present_eq, dirty_eq]
  constructor
  · intro h
    have h0 := congrArg (BitVec.getLsbD · 0) h
    have h1 := congrArg (BitVec.getLsbD · 6) h
    simp only [BitVec.getLsbD_and] at h0 h1
    simpa using And.intro h0 h1
  · rintro ⟨h0, h1⟩
    rw [BitVec.getLsbD_eq_getElem (by omega)] at h0 h1
    ext i hi
    rw [BitVec.getElem_and]
    interval_cases i <;> simp [h0, h1]

/-- `this_page > LOW_MEM` for a present word: its page is not below 1 MB. The
present bit makes the strict comparison with the flags included harmless. -/
theorem gt_lowMem_iff {w : Word} (h : present w = true) : 0x100000 < w.toNat ↔ 256 ≤ frame w := by
  have hodd : w.toNat % 2 = 1 := by
    rw [present_eq, BitVec.getLsbD, Nat.testBit_zero] at h
    simpa using h
  rw [frame_eq_div]
  omega

/-! ### Bytes of a word -/

/-- Byte `k` of a word, in the byte order of the machine. -/
def byteOf (w : Word) (k : ℕ) : BitVec 8 := w.extractLsb' (8 * k) 8

/-- Replace byte `k` of a word. -/
def setByte (w : Word) (k : ℕ) (b : BitVec 8) : Word :=
  (w &&& ~~~(0xff#32 <<< (8 * k))) ||| (b.setWidth 32 <<< (8 * k))

/-- A byte store changes the addressed byte of the word and no other. -/
theorem byteOf_setByte (w : Word) {k k' : ℕ} (hk : k < 4) (hk' : k' < 4) (b : BitVec 8) :
    byteOf (setByte w k b) k' = if k' = k then b else byteOf w k' := by
  interval_cases k <;> interval_cases k' <;>
    (ext i hi; simp only [byteOf, setByte]; interval_cases i <;> simp)

/-- The word with the given four bytes. -/
def ofBytes (b : ℕ → BitVec 8) : Word :=
  setByte (setByte (setByte (setByte 0 0 (b 0)) 1 (b 1)) 2 (b 2)) 3 (b 3)

theorem byteOf_ofBytes (b : ℕ → BitVec 8) {k : ℕ} (hk : k < 4) : byteOf (ofBytes b) k = b k := by
  unfold ofBytes
  repeat rw [byteOf_setByte _ (by omega) hk]
  interval_cases k <;> simp

end LihaLinux.Mm
