import Mathlib.Data.Nat.Notation
import Mathlib.Tactic.Common

/-!
# Regions of a memory

A memory gives a value at every address. A region of it is replaced by the values of another
memory; what is replaced is read from there, and everything else stays.
-/

namespace LihaLinux

variable {β : Type*}

/-- A memory with the `len` values from `base` on replaced. -/
def patch (m : ℕ → β) (base len : ℕ) (src : ℕ → β) : ℕ → β := fun a =>
  if base ≤ a ∧ a < base + len then src (a - base) else m a

section Patch

variable {m m' : ℕ → β} {base len len' a : ℕ} {src : ℕ → β}

/-- The values of the region. -/
theorem patch_add {i : ℕ} (h : i < len) : patch m base len src (base + i) = src i := by
  rw [patch, if_pos (by omega), Nat.add_sub_cancel_left]

/-- The values in front of the region. -/
theorem patch_before (h : a < base) : patch m base len src a = m a := if_neg (by omega)

/-- The values behind the region. -/
theorem patch_after (h : base + len ≤ a) : patch m base len src a = m a := if_neg (by omega)

/-- Values outside of a larger region stay. -/
theorem patch_outside {lo hi : ℕ} (hlo : lo ≤ base) (hhi : base + len ≤ hi)
    (h : a < lo ∨ hi ≤ a) : patch m base len src a = m a := if_neg (by omega)

@[simp]
theorem patch_zero : patch m base 0 src = m := by
  funext a
  exact if_neg (by omega)

/-- Only the values that are read matter. -/
theorem patch_congr {src' : ℕ → β} (h : ∀ i < len, src i = src' i) :
    patch m base len src = patch m base len src' := by
  funext a
  by_cases ha : base ≤ a ∧ a < base + len
  · rw [patch, patch, if_pos ha, if_pos ha, h _ (by omega)]
  · rw [patch, patch, if_neg ha, if_neg ha]

/-- The region that follows is replaced by the values that follow. -/
theorem patch_patch :
    patch (patch m base len src) (base + len) len' (fun i => src (len + i)) =
      patch m base (len + len') src := by
  funext a
  rcases Nat.lt_or_ge a base with hbefore | hbase
  · rw [patch_before (by omega), patch_before hbefore, patch_before hbefore]
  · obtain ⟨i, rfl⟩ := Nat.exists_eq_add_of_le hbase
    rcases Nat.lt_or_ge i len with hfirst | hge
    · rw [patch_before (by omega), patch_add hfirst, patch_add (by omega)]
    · obtain ⟨k, rfl⟩ := Nat.exists_eq_add_of_le hge
      by_cases hk : k < len'
      · rw [patch_add (by omega), ← Nat.add_assoc, patch_add hk]
      · rw [patch_after (by omega), patch_after (by omega), patch_after (by omega)]

end Patch

end LihaLinux
