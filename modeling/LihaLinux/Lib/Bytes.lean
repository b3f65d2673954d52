import Mathlib.Data.Nat.Notation
import Mathlib.Tactic.Common

/-!
# Bytes in a memory

A memory gives the contents of its addresses, as far as they exist. A list of values lies in it
from an address on.
-/

namespace LihaLinux

variable {β : Type*}

/-- The values of a list lie in a memory from an address on. -/
def Stored (m : ℕ → Option β) : ℕ → List β → Prop
  | _, [] => True
  | a, b :: l => m a = some b ∧ Stored m (a + 1) l

namespace Stored

variable {m m' : ℕ → Option β} {a : ℕ} {l l' : List β}

/-- Only the addresses of the list matter. -/
theorem congr (h : Stored m a l) (hm : ∀ x b, a ≤ x → x < a + l.length → m x = some b →
    m' x = some b) : Stored m' a l := by
  induction l generalizing a with
  | nil => trivial
  | cons b l ih =>
    rw [List.length_cons] at hm
    refine ⟨hm a b (Nat.le_refl a) (by omega) h.1, ih h.2 fun x c hx hx' => ?_⟩
    exact hm x c (by omega) (by omega)

/-- A copy of the addresses of the list, somewhere else. -/
theorem shift (h : Stored m a l) {d : ℕ} (hm : ∀ x b, a ≤ x → x < a + l.length → m x = some b →
    m' (d + x) = some b) : Stored m' (d + a) l := by
  induction l generalizing a with
  | nil => trivial
  | cons b l ih =>
    rw [List.length_cons] at hm
    refine ⟨hm a b (Nat.le_refl a) (by omega) h.1, ?_⟩
    exact ih h.2 fun x c hx hx' => hm x c (by omega) (by omega)

/-- One list behind another. -/
theorem append_iff : Stored m a (l ++ l') ↔ Stored m a l ∧ Stored m (a + l.length) l' := by
  induction l generalizing a with
  | nil => simp [Stored]
  | cons b l ih =>
    have hlen : a + (b :: l).length = a + 1 + l.length := by
      rw [List.length_cons]
      omega
    rw [List.cons_append, Stored, Stored, ih, hlen, and_assoc]

/-- The values of a list, one by one. -/
theorem of_forall (h : ∀ i b, l[i]? = some b → m (a + i) = some b) : Stored m a l := by
  induction l generalizing a with
  | nil => trivial
  | cons b l ih =>
    refine ⟨h 0 b rfl, ih fun i c hc => ?_⟩
    have hnext := h (i + 1) c hc
    rwa [show a + (i + 1) = a + 1 + i by omega] at hnext

end Stored

end LihaLinux
