import LihaLinux.Lib.Ring
import Mathlib.Data.Fin.Basic
import Mathlib.Logic.Function.Basic

/-!
# The queues of a terminal

`struct tty_queue` is a ring of 1024 characters. `PUTCH` does not look whether there is room, and
`GETCH` does not look whether there is a character.
-/

namespace LihaLinux.Tty

/-- `struct tty_queue`, without `data` and `proc_list`. -/
structure TtyQueue where
  head : Fin 1024
  tail : Fin 1024
  buf : Fin 1024 → ℕ

namespace TtyQueue

/-- A queue without characters. -/
def empty : TtyQueue := ⟨0, 0, fun _ => 0⟩

/-- `LEFT`. -/
def left (q : TtyQueue) : ℕ := (q.tail - q.head - 1).val

/-- `FULL`. -/
def full (q : TtyQueue) : Bool := q.left = 0

/-- `PUTCH`. -/
def putch (q : TtyQueue) (c : ℕ) : TtyQueue :=
  { q with head := q.head + 1, buf := Function.update q.buf q.head c }

/-- `EMPTY`. -/
def isEmpty (q : TtyQueue) : Bool := q.head = q.tail

/-- `CHARS`. -/
def chars (q : TtyQueue) : ℕ := (q.head - q.tail).val

/-- `LAST`. -/
def last (q : TtyQueue) : ℕ := q.buf (q.head - 1)

/-- The character that `GETCH` reads. -/
def first (q : TtyQueue) : ℕ := q.buf q.tail

/-- `INC(tail)`, the other half of `GETCH`. -/
def inc (q : TtyQueue) : TtyQueue := { q with tail := q.tail + 1 }

/-- `DEC(head)`. -/
def dec (q : TtyQueue) : TtyQueue := { q with head := q.head - 1 }

/-- The characters between `tail` and `head`, the next one first. -/
def toList (q : TtyQueue) : List ℕ :=
  ringSegment 1024 (fun i => q.buf (Fin.ofNat 1024 i)) q.tail.val q.chars

/-- `LEFT` on numbers. -/
theorem left_eq (q : TtyQueue) : q.left = (q.tail.val + 1023 + (1024 - q.head.val)) % 1024 := by
  have hone : (1 : Fin 1024).val = 1 := rfl
  rw [left, Fin.val_sub, Fin.val_sub, hone]
  omega

/-- A character takes the room of one. -/
theorem left_putch {q : TtyQueue} (h : q.left ≠ 0) (c : ℕ) : (q.putch c).left = q.left - 1 := by
  have hone : (1 : Fin 1024).val = 1 := rfl
  have hhead : (q.head + 1).val = (q.head.val + 1) % 1024 := by
    rw [Fin.val_add, hone]
  have hlt := q.head.isLt
  have hlt' := q.tail.isLt
  rw [left_eq] at h
  rw [left_eq, left_eq, putch, hhead]
  dsimp only
  omega

/-! ### The characters of a queue -/

section Characters

variable {q : TtyQueue}

/-- `CHARS` on numbers. -/
theorem chars_eq (q : TtyQueue) : q.chars = (q.head.val + (1024 - q.tail.val)) % 1024 := by
  rw [chars, Fin.val_sub]
  omega

theorem length_toList (q : TtyQueue) : q.toList.length = q.chars := length_ringSegment ..

/-- What is not left is used. -/
theorem left_add_chars (q : TtyQueue) : q.left + q.chars = 1023 := by
  have hlt := q.head.isLt
  have hlt' := q.tail.isLt
  rw [left_eq, chars_eq]
  omega

theorem isEmpty_iff : q.isEmpty = true ↔ q.toList = [] := by
  have hlt := q.head.isLt
  have hlt' := q.tail.isLt
  rw [← List.length_eq_zero_iff, length_toList, chars_eq, isEmpty, decide_eq_true_iff, Fin.ext_iff]
  omega

theorem full_iff : q.full = true ↔ q.toList.length = 1023 := by
  have h := q.left_add_chars
  rw [length_toList, full, decide_eq_true_iff]
  omega

/-- `PUTCH` adds a character at the end if there is room. -/
theorem toList_putch (h : q.full = false) (c : ℕ) : (q.putch c).toList = q.toList ++ [c] := by
  have hroom : q.left ≠ 0 := by simpa [full] using h
  have hsum := q.left_add_chars
  have hsum' := (q.putch c).left_add_chars
  rw [left_putch hroom] at hsum'
  have hchars : (q.putch c).chars = q.chars + 1 := by omega
  have hlt := q.head.isLt
  have hlt' := q.tail.isLt
  have hnum := q.chars_eq
  rw [toList, hchars, ringSegment_succ_last, toList]
  congr 1
  · apply ringSegment_congr
    intro j hj
    have hne : Fin.ofNat 1024 ((q.tail.val + j) % 1024) ≠ q.head := by
      rw [Ne, Fin.ext_iff, Fin.val_ofNat]
      omega
    exact Function.update_of_ne hne ..
  · have hhead : Fin.ofNat 1024 (((q.putch c).tail.val + q.chars) % 1024) = q.head := by
      rw [Fin.ext_iff, Fin.val_ofNat]
      change (q.tail.val + q.chars) % 1024 % 1024 = q.head.val
      omega
    rw [hhead]
    exact congrArg (fun c => [c]) (Function.update_self ..)

/-- `PUTCH` into a full queue loses all characters. -/
theorem toList_putch_full (h : q.full = true) (c : ℕ) : (q.putch c).toList = [] := by
  have hleft : q.left = 0 := by simpa [full] using h
  have hone : (1 : Fin 1024).val = 1 := rfl
  have hlt := q.head.isLt
  have hlt' := q.tail.isLt
  rw [left_eq] at hleft
  rw [← isEmpty_iff, isEmpty, decide_eq_true_iff, Fin.ext_iff]
  change (q.head + 1).val = q.tail.val
  rw [Fin.val_add, hone]
  omega

/-- `GETCH` takes the first character if there is one. -/
theorem toList_inc (h : q.isEmpty = false) : q.toList = q.first :: q.inc.toList := by
  have hne : q.toList ≠ [] := by
    intro hnil
    rw [isEmpty_iff.mpr hnil] at h
    cases h
  have hlt := q.head.isLt
  have hlt' := q.tail.isLt
  have hone : (1 : Fin 1024).val = 1 := rfl
  have htail : q.inc.tail.val = (q.tail.val + 1) % 1024 := by
    change (q.tail + 1).val = _
    rw [Fin.val_add, hone]
  have hchars : q.chars = q.inc.chars + 1 := by
    have hpos : q.chars ≠ 0 := by
      rw [← length_toList]
      exact mt List.length_eq_zero_iff.mp hne
    rw [chars_eq] at hpos
    rw [chars_eq, chars_eq, htail]
    change _ = (q.head.val + _) % 1024 + 1
    omega
  have hfirst : Fin.ofNat 1024 (q.tail.val % 1024) = q.tail := by
    rw [Fin.ext_iff, Fin.val_ofNat]
    omega
  rw [toList, hchars, ringSegment_succ, hfirst, toList, htail, ringSegment_mod]
  rfl

/-- `DEC(head)` drops the last character if there is one, which is `LAST`. -/
theorem toList_dec (h : q.isEmpty = false) : q.toList = q.dec.toList ++ [q.last] := by
  have hne : q.toList ≠ [] := by
    intro hnil
    rw [isEmpty_iff.mpr hnil] at h
    cases h
  have hlt := q.head.isLt
  have hlt' := q.tail.isLt
  have hone : (1 : Fin 1024).val = 1 := rfl
  have hhead : q.dec.head.val = (q.head.val + 1023) % 1024 := by
    change (q.head - 1).val = _
    rw [Fin.val_sub, hone]
    omega
  have hchars : q.chars = q.dec.chars + 1 := by
    have hpos : q.chars ≠ 0 := by
      rw [← length_toList]
      exact mt List.length_eq_zero_iff.mp hne
    rw [chars_eq] at hpos
    rw [chars_eq, chars_eq, hhead]
    change _ = (_ + (1024 - q.tail.val)) % 1024 + 1
    omega
  have hnum := q.dec.chars_eq
  have hlast : Fin.ofNat 1024 ((q.tail.val + q.dec.chars) % 1024) = q.head - 1 := by
    rw [Fin.ext_iff, Fin.val_ofNat]
    change _ = q.dec.head.val
    rw [hnum]
    change (q.tail.val + (q.dec.head.val + (1024 - q.tail.val)) % 1024) % 1024 % 1024 = _
    omega
  rw [toList, hchars, ringSegment_succ_last, hlast]
  rfl

end Characters

end TtyQueue

end LihaLinux.Tty
