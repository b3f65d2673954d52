import LihaLinux.Tty.Queue
import Mathlib.Data.Nat.Find

/-!
# The queue of the keyboard

`put_queue` of `keyboard.S` puts the bytes of the registers `ebx:eax` into the read queue of the
console. It stores a byte before it looks whether there is room, and sets `head` with the last one.
-/

namespace LihaLinux.Tty

/-- An index is masked with `size-1`. -/
theorem index_lt (i : ℕ) : i % 1024 < 1024 := Nat.mod_lt i (Nat.succ_pos 1023)

/-- `incl %ecx` and `andl $size-1,%ecx`. -/
def incIndex (i : Fin 1024) : Fin 1024 := ⟨(i.val + 1) % 1024, index_lt _⟩

/-- `shrdl $8,%ebx,%eax`: the new `eax`. -/
def shrdl (ebx eax : BitVec 32) : BitVec 32 := (eax >>> 8) ||| (ebx <<< 24)

/-- The store of a byte at an index of the buffer. -/
def TtyQueue.setBuf (q : TtyQueue) (i : Fin 1024) (al : BitVec 8) : TtyQueue :=
  { q with buf := Function.update q.buf i al.toNat }

/-- The loop of `put_queue`, for a number of rounds: the queue at its end, and whether it ends at
the label 2 with a new `head`. -/
def putQueueLoop : ℕ → BitVec 32 → BitVec 32 → Fin 1024 → TtyQueue → Option (TtyQueue × Bool)
  | 0, _, _, _, _ => none
  | n + 1, ebx, eax, ecx, q =>
    let q := q.setBuf ecx (eax.setWidth 8)
    let ecx := incIndex ecx
    if q.tail = ecx then some (q, false)
    else
      let eax := shrdl ebx eax
      if eax = 0 then some ({ q with head := ecx }, true)
      else putQueueLoop n (ebx >>> 8) eax ecx q

/-- `put_queue`, with the value of `proc_list`: the queue, and where the state of a task is set
to 0. -/
def putQueue (n : ℕ) (ebx eax : BitVec 32) (procList : ℕ) (q : TtyQueue) :
    Option (TtyQueue × Option ℕ) :=
  (putQueueLoop n ebx eax q.head q).map fun r =>
    (r.1, if r.2 ∧ procList ≠ 0 then some procList else none)

/-! ### The bytes of a key -/

/-- The low half of the registers. -/
def low (v : BitVec 64) : BitVec 32 := v.setWidth 32

/-- The high half of the registers. -/
def high (v : BitVec 64) : BitVec 32 := (v >>> 32).setWidth 32

theorem exists_low_eq_zero (v : BitVec 64) : ∃ n, 0 < n ∧ low (v >>> (8 * n)) = 0 := by
  refine ⟨8, by decide, ?_⟩
  rw [BitVec.ushiftRight_eq_zero (by decide)]
  rfl

/-- The number of bytes that are shifted out until the low half of the rest is zero. -/
def keyLength (v : BitVec 64) : ℕ := Nat.find (exists_low_eq_zero v)

/-- The bytes that are shifted out until the low half of the rest is zero. -/
def keySequence (v : BitVec 64) : List ℕ :=
  (List.range (keyLength v)).map fun k => ((v >>> (8 * k)).setWidth 8).toNat

/-- The shift over both registers. -/
theorem shrdl_eq (v : BitVec 64) : shrdl (high v) (low v) = low (v >>> 8) := by
  rw [shrdl, high, low, low]
  ext i hi
  by_cases hlow : i < 24
  · have hin : 8 + i < 32 := by omega
    simp [hlow, hin]
  · have hout : ¬8 + i < 32 := by omega
    have hsame : 32 + (i - 24) = 8 + i := by omega
    simp [hlow, hout, hsame]

theorem high_shiftRight (v : BitVec 64) : high v >>> 8 = high (v >>> 8) := by
  rw [high, high]
  ext i hi
  by_cases hlow : i < 24
  · have hin : 8 + i < 32 := by omega
    have hsame : 32 + (8 + i) = 40 + i := by omega
    simp [hin, hsame]
  · have hout : ¬8 + i < 32 := by omega
    have hend : v.getLsbD (40 + i) = false := BitVec.getLsbD_of_ge v (40 + i) (by omega)
    simp [hout, hend]

/-- Bytes are shifted out one by one. -/
theorem shiftRight_byte (v : BitVec 64) (k : ℕ) : v >>> 8 >>> (8 * k) = v >>> (8 * (k + 1)) := by
  rw [← BitVec.shiftRight_add, Nat.mul_add, Nat.mul_one, Nat.add_comm]

theorem keyLength_spec (v : BitVec 64) : 0 < keyLength v ∧ low (v >>> (8 * keyLength v)) = 0 :=
  Nat.find_spec (exists_low_eq_zero v)

/-- At most the eight bytes of the registers are taken. -/
theorem keyLength_le (v : BitVec 64) : keyLength v ≤ 8 := by
  apply Nat.find_min'
  constructor
  · decide
  · rw [BitVec.ushiftRight_eq_zero (by decide)]
    rfl

/-- One byte is enough if the low half of the rest is zero. -/
theorem keyLength_of_zero {v : BitVec 64} (h : low (v >>> 8) = 0) : keyLength v = 1 := by
  apply Nat.le_antisymm
  · apply Nat.find_min'
    exact ⟨Nat.one_pos, h⟩
  · exact (keyLength_spec v).1

/-- Otherwise the rest of the bytes follows. -/
theorem keyLength_of_ne {v : BitVec 64} (h : low (v >>> 8) ≠ 0) :
    keyLength v = keyLength (v >>> 8) + 1 := by
  obtain ⟨hpos, hzero⟩ := keyLength_spec v
  obtain ⟨hpos', hzero'⟩ := keyLength_spec (v >>> 8)
  obtain ⟨k, hk⟩ : ∃ k, keyLength v = k + 1 := ⟨keyLength v - 1, by omega⟩
  rw [hk, ← shiftRight_byte] at hzero
  rw [shiftRight_byte] at hzero'
  have hk0 : 0 < k := by
    rcases Nat.eq_zero_or_pos k with rfl | hk0
    · exact absurd hzero h
    · exact hk0
  apply Nat.le_antisymm
  · apply Nat.find_min'
    exact ⟨Nat.succ_pos _, hzero'⟩
  · rw [hk]
    apply Nat.succ_le_succ
    apply Nat.find_min'
    exact ⟨hk0, hzero⟩

theorem length_keySequence (v : BitVec 64) : (keySequence v).length = keyLength v := by
  rw [keySequence, List.length_map, List.length_range]

theorem keySequence_of_zero {v : BitVec 64} (h : low (v >>> 8) = 0) :
    keySequence v = [(v.setWidth 8).toNat] := by
  rw [keySequence, keyLength_of_zero h]
  simp

theorem keySequence_of_ne {v : BitVec 64} (h : low (v >>> 8) ≠ 0) :
    keySequence v = (v.setWidth 8).toNat :: keySequence (v >>> 8) := by
  rw [keySequence, keyLength_of_ne h, List.range_succ_eq_map, List.map_cons, List.map_map]
  simp [keySequence, Function.comp_def, shiftRight_byte]

theorem low_byte (v : BitVec 64) : (low v).setWidth 8 = v.setWidth 8 := by
  rw [low, BitVec.setWidth_setWidth_of_le v (by decide)]

/-! ### The loop -/

namespace TtyQueue

variable {q : TtyQueue}

/-- The queue with the bytes up to an index, where `head` has not been set yet. -/
def upTo (q : TtyQueue) (i : Fin 1024) : TtyQueue := { q with head := i }

/-- A store with the next index is a `PUTCH`. -/
theorem upTo_setBuf (q : TtyQueue) (i : Fin 1024) (al : BitVec 8) :
    (q.setBuf i al).upTo (incIndex i) = (q.upTo i).putch al.toNat := by
  have hone : (1 : Fin 1024).val = 1 := rfl
  have hnext : incIndex i = i + 1 := by
    rw [Fin.ext_iff, Fin.val_add, hone, incIndex]
  rw [upTo, upTo, putch, setBuf, hnext]

/-- The next index is `tail` exactly if there is no room. -/
theorem tail_eq_incIndex_iff (q : TtyQueue) (i : Fin 1024) :
    q.tail = incIndex i ↔ (q.upTo i).left = 0 := by
  have hlt := i.isLt
  have hlt' := q.tail.isLt
  have hnext : (incIndex i).val = (i.val + 1) % 1024 := rfl
  have hhead : (q.upTo i).head = i := rfl
  have htail : (q.upTo i).tail = q.tail := rfl
  rw [left_eq, Fin.ext_iff, hnext, hhead, htail]
  omega

end TtyQueue

open TtyQueue

/-- The loop puts the sequence behind the bytes that are there, or stops with the byte for which
there is no room. -/
theorem putQueueLoop_eq {v : BitVec 64} {n : ℕ} (hn : keyLength v ≤ n) (i : Fin 1024)
    (q : TtyQueue) :
    putQueueLoop n (high v) (low v) i q =
      if keyLength v ≤ (q.upTo i).left then
        some ((keySequence v).foldl putch (q.upTo i), true)
      else
        some ((((keySequence v).take ((q.upTo i).left + 1)).foldl putch (q.upTo i)).upTo q.head,
          false) := by
  induction n generalizing v i q with
  | zero => exact absurd (keyLength_spec v).1 (by omega)
  | succ n ih =>
    have hpos := (keyLength_spec v).1
    have hstore := upTo_setBuf q i (v.setWidth 8)
    have htail : (q.setBuf i (v.setWidth 8)).tail = q.tail := rfl
    have hhead : (q.setBuf i (v.setWidth 8)).head = q.head := rfl
    rw [putQueueLoop, low_byte, shrdl_eq]
    dsimp only
    rw [htail]
    by_cases hroom : (q.upTo i).left = 0
    · rw [if_pos ((tail_eq_incIndex_iff q i).mpr hroom), if_neg (by omega), hroom]
      have hfirst : (keySequence v).take 1 = [(v.setWidth 8).toNat] := by
        by_cases hzero : low (v >>> 8) = 0
        · rw [keySequence_of_zero hzero]
          rfl
        · rw [keySequence_of_ne hzero]
          rfl
      rw [hfirst, List.foldl_cons, List.foldl_nil, ← hstore]
      rfl
    · have hleft := left_putch hroom (v.setWidth 8).toNat
      rw [← hstore] at hleft
      rw [if_neg (mt (tail_eq_incIndex_iff q i).mp hroom)]
      by_cases hzero : low (v >>> 8) = 0
      · have hlen := keyLength_of_zero hzero
        rw [if_pos hzero, if_pos (by omega), keySequence_of_zero hzero, List.foldl_cons,
          List.foldl_nil, ← hstore]
        rfl
      · have hlen := keyLength_of_ne hzero
        rw [if_neg hzero, high_shiftRight, ih (by omega), keySequence_of_ne hzero, hhead,
          List.foldl_cons, ← hstore, hleft]
        have hsucc : (q.upTo i).left - 1 + 1 = (q.upTo i).left := by omega
        rw [hsucc, List.take_succ_cons, List.foldl_cons, ← hstore]
        by_cases hfit : keyLength v ≤ (q.upTo i).left
        · rw [if_pos hfit, if_pos (by omega)]
        · rw [if_neg hfit, if_neg (by omega)]

namespace TtyQueue

variable {q : TtyQueue} {l : List ℕ}

/-- Characters are put in without a change of `tail`. -/
theorem tail_foldl_putch (q : TtyQueue) (l : List ℕ) : (l.foldl putch q).tail = q.tail := by
  induction l generalizing q with
  | nil => rfl
  | cons c l ih => rw [List.foldl_cons, ih, putch]

/-- Characters for which there is room come behind the ones that are there. -/
theorem toList_foldl_putch (h : l.length ≤ q.left) :
    (l.foldl putch q).toList = q.toList ++ l := by
  induction l generalizing q with
  | nil => rw [List.foldl_nil, List.append_nil]
  | cons c l ih =>
    rw [List.length_cons] at h
    have hroom : q.left ≠ 0 := by omega
    have hfull : q.full = false := by simpa [full] using hroom
    have hleft := left_putch hroom c
    rw [List.foldl_cons, ih (by omega), toList_putch hfull, List.append_assoc,
      List.singleton_append]

/-- Characters are stored from `head` on. -/
theorem buf_foldl_putch {i : Fin 1024} (h : ∀ j < l.length, i.val ≠ (q.head.val + j) % 1024) :
    (l.foldl putch q).buf i = q.buf i := by
  induction l generalizing q with
  | nil => rfl
  | cons c l ih =>
    have hone : (1 : Fin 1024).val = 1 := rfl
    have hhead : (q.putch c).head.val = (q.head.val + 1) % 1024 := by
      change (q.head + 1).val = _
      rw [Fin.val_add, hone]
    have hlt := q.head.isLt
    rw [List.foldl_cons, ih]
    · have hne : i ≠ q.head := by
        intro hi
        apply h 0 (by simp)
        rw [hi]
        omega
      exact Function.update_of_ne hne ..
    · intro j hj
      have hother := h (j + 1) (by simpa using hj)
      rw [hhead]
      omega

/-- One character more than there is room for does not reach the ones that are there. -/
theorem toList_upTo_foldl_putch (h : l.length ≤ q.left + 1) :
    ((l.foldl putch q).upTo q.head).toList = q.toList := by
  have hlt := q.head.isLt
  have hlt' := q.tail.isLt
  have hleft := q.left_eq
  have hchars := q.chars_eq
  have hsame : ((l.foldl putch q).upTo q.head).chars = q.chars := by
    rw [chars, chars]
    change (q.head - (l.foldl putch q).tail).val = _
    rw [tail_foldl_putch]
  rw [toList, hsame, toList]
  change ringSegment 1024 (fun i => (l.foldl putch q).buf (Fin.ofNat 1024 i))
    (l.foldl putch q).tail.val q.chars = _
  rw [tail_foldl_putch]
  apply ringSegment_congr
  intro k hk
  apply buf_foldl_putch
  intro j hj
  rw [Fin.val_ofNat]
  omega

end TtyQueue

/-- For every queue and every value of `ebx:eax` the loop ends. The sequence of the value comes
behind the characters of the queue if there is room for it, and a task that waits is woken up.
Otherwise `head` does not change. The characters that are there stay as they are. -/
theorem putQueue_spec (n : ℕ) (v : BitVec 64) (procList : ℕ) (q : TtyQueue) :
    ∃ q' woken, putQueue (n + 8) (high v) (low v) procList q = some (q', woken) ∧
      q'.tail = q.tail ∧
      if (keySequence v).length ≤ q.left then
        q'.toList = q.toList ++ keySequence v ∧
          woken = if procList ≠ 0 then some procList else none
      else q'.head = q.head ∧ q'.toList = q.toList ∧ woken = none := by
  have hlen := keyLength_le v
  have hsame : q.upTo q.head = q := rfl
  rw [putQueue, putQueueLoop_eq (by omega), length_keySequence, hsame]
  by_cases hfit : keyLength v ≤ q.left
  · rw [if_pos hfit]
    refine ⟨_, _, rfl, tail_foldl_putch q _, ?_⟩
    rw [if_pos hfit]
    refine ⟨toList_foldl_putch (by rwa [length_keySequence]), ?_⟩
    simp
  · rw [if_neg hfit]
    refine ⟨_, _, rfl, tail_foldl_putch q _, ?_⟩
    rw [if_neg hfit]
    refine ⟨rfl, toList_upTo_foldl_putch (List.length_take_le _ _), ?_⟩
    simp

end LihaLinux.Tty
