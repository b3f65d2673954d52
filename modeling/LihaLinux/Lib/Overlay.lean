import Mathlib.Data.List.GetD
import Mathlib.Data.Nat.Notation
import Mathlib.Tactic.Common

/-!
# Overlays

An array that is given by its values at all positions, with a list written over it from a position
on, and the lists that are read from it.
-/

namespace LihaLinux

variable {β : Type*}

/-- An array with a list written over it. -/
def overlay (a : ℕ → β) (pos : ℕ) (l : List β) : ℕ → β := fun p =>
  if pos ≤ p then l.getD (p - pos) (a p) else a p

/-- The list of the values of an array from a position on. -/
def slice (a : ℕ → β) (pos : ℕ) : ℕ → List β
  | 0 => []
  | n + 1 => a pos :: slice a (pos + 1) n

section Overlay

variable {a a' : ℕ → β} {pos p n k : ℕ} {l l' : List β}

@[simp]
theorem overlay_nil : overlay a pos [] = a := by
  funext p
  simp [overlay]

/-- Positions before the list keep their values. -/
theorem overlay_before (h : p < pos) : overlay a pos l p = a p := if_neg (by omega)

/-- Positions behind the list keep their values. -/
theorem overlay_after (h : pos + l.length ≤ p) : overlay a pos l p = a p := by
  rw [overlay]
  split_ifs
  · exact List.getD_eq_default _ _ (by omega)
  · rfl

/-- The values of the list. -/
theorem overlay_add {i : ℕ} (h : i < l.length) : overlay a pos l (pos + i) = l[i] := by
  rw [overlay, if_pos (by omega), Nat.add_sub_cancel_left]
  exact List.getD_eq_getElem _ _ h

/-- Only the value at a position matters for the overlay there. -/
theorem overlay_congr (h : a p = a' p) : overlay a pos l p = overlay a' pos l p := by
  rw [overlay, overlay, h]

/-- The overlay of an array that is shifted. -/
theorem overlay_shift (a : ℕ → β) (d : ℕ) :
    overlay (fun p => a (d + p)) pos l p = overlay a (d + pos) l (d + p) := by
  rw [overlay, overlay]
  by_cases h : pos ≤ p
  · rw [if_pos h, if_pos (by omega), Nat.add_sub_add_left]
  · rw [if_neg h, if_neg (by omega)]

/-- One list behind another. -/
theorem overlay_append :
    overlay (overlay a pos l) (pos + l.length) l' = overlay a pos (l ++ l') := by
  funext p
  rcases Nat.lt_or_ge p pos with hlt | hle
  · rw [overlay_before (by omega), overlay_before hlt, overlay_before hlt]
  · rcases Nat.lt_or_ge p (pos + l.length) with hmid | hlast
    · rw [overlay_before hmid]
      simp only [overlay, if_pos hle]
      rw [List.getD_append _ _ _ _ (by omega)]
    · have hold := overlay_after (a := a) hlast
      have hdiff : p - pos - l.length = p - (pos + l.length) := by omega
      rw [overlay, if_pos hlast, hold, overlay, if_pos hle,
        List.getD_append_right _ _ _ _ (by omega), hdiff]

@[simp]
theorem length_slice : (slice a pos n).length = n := by
  induction n generalizing pos with
  | zero => rfl
  | succ n ih => rw [slice, List.length_cons, ih]

/-- A slice is read in two parts. -/
theorem slice_add : slice a pos (k + n) = slice a pos k ++ slice a (pos + k) n := by
  induction k generalizing pos with
  | zero => simp [slice]
  | succ k ih =>
    have hpos : pos + (k + 1) = pos + 1 + k := by omega
    rw [Nat.add_right_comm, slice, slice, ih, List.cons_append, hpos]

/-- Only the positions that are read matter. -/
theorem slice_congr (h : ∀ i, i < n → a (pos + i) = a' (k + i)) :
    slice a pos n = slice a' k n := by
  induction n generalizing pos k with
  | zero => rfl
  | succ n ih =>
    have hfirst := h 0 (Nat.succ_pos n)
    rw [Nat.add_zero, Nat.add_zero] at hfirst
    rw [slice, slice, hfirst, ih]
    intro i hi
    have hi' := h (i + 1) (by omega)
    rwa [show pos + (i + 1) = pos + 1 + i by omega, show k + (i + 1) = k + 1 + i by omega] at hi'

end Overlay

end LihaLinux
