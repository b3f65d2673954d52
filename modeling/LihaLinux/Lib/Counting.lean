import Mathlib.Algebra.BigOperators.Group.Finset.Basic
import Mathlib.Data.Finset.Card
import Mathlib.Data.Finset.Prod
import Mathlib.Order.Interval.Finset.Nat

/-!
# Counting the holders of a resource

A reference counter is meant to equal the number of places that refer to a
resource. When one place is rewritten, the number of places changes only by
the difference at that place. The lemma is stated as an equation between sums,
so that it can be used by `omega` without subtraction.
-/

namespace LihaLinux

/-- A proposition counted as zero or one. -/
def indicator (p : Prop) [Decidable p] : ℕ := if p then 1 else 0

@[simp] theorem indicator_true {p : Prop} [Decidable p] (h : p) : indicator p = 1 := if_pos h

@[simp] theorem indicator_false {p : Prop} [Decidable p] (h : ¬p) : indicator p = 0 := if_neg h

theorem indicator_le_one (p : Prop) [Decidable p] : indicator p ≤ 1 := by
  unfold indicator
  split <;> omega

/-- Rewriting one place changes the number of places satisfying a predicate by
the difference at that place. -/
theorem card_filter_update {α : Type*} [DecidableEq α] {places : Finset α} {p q : α → Prop}
    [DecidablePred p] [DecidablePred q] {a : α} (ha : a ∈ places)
    (hother : ∀ b ∈ places, b ≠ a → (q b ↔ p b)) :
    (places.filter q).card + indicator (p a) = (places.filter p).card + indicator (q a) := by
  have hsplit (r : α → Prop) [DecidablePred r] :
      (places.filter r).card = ((places.erase a).filter r).card + indicator (r a) := by
    conv_lhs => rw [← Finset.insert_erase ha, Finset.filter_insert]
    by_cases hr : r a
    · rw [if_pos hr, Finset.card_insert_of_notMem (by simp), indicator_true hr]
    · rw [if_neg hr, indicator_false hr, Nat.add_zero]
  have hsame : (places.erase a).filter q = (places.erase a).filter p := by
    apply Finset.filter_congr
    intro b hb
    exact hother b (Finset.mem_of_mem_erase hb) (Finset.ne_of_mem_erase hb)
  rw [hsplit q, hsplit p, hsame]
  omega

/-- Changing one summand changes the sum by the difference at that summand. -/
theorem sum_update_add {ι : Type*} [Fintype ι] [DecidableEq ι] {f g : ι → ℕ} (t : ι)
    (hother : ∀ u, u ≠ t → g u = f u) : (∑ u, g u) + f t = (∑ u, f u) + g t := by
  have hsplit (r : ι → ℕ) : ∑ u, r u = r t + ∑ u ∈ Finset.univ.erase t, r u :=
    (Finset.add_sum_erase Finset.univ r (Finset.mem_univ t)).symm
  have hsame : ∑ u ∈ Finset.univ.erase t, g u = ∑ u ∈ Finset.univ.erase t, f u := by
    apply Finset.sum_congr rfl
    intro u hu
    exact hother u (Finset.ne_of_mem_erase hu)
  rw [hsplit f, hsplit g, hsame]
  omega

/-- Changing one entry of a table changes a sum over the table by the difference at that
entry. -/
theorem sum_range_update {α : Type*} (table : ℕ → α) (g : α → ℕ) {n k : ℕ} (hk : k < n) (v : α) :
    (∑ j ∈ Finset.range n, g (Function.update table k v j)) + g (table k) =
      (∑ j ∈ Finset.range n, g (table j)) + g v := by
  have hsplit (r : ℕ → ℕ) :
      ∑ j ∈ Finset.range n, r j = r k + ∑ j ∈ (Finset.range n).erase k, r j :=
    (Finset.add_sum_erase _ r (Finset.mem_range.mpr hk)).symm
  have hsame : ∑ j ∈ (Finset.range n).erase k, g (Function.update table k v j) =
      ∑ j ∈ (Finset.range n).erase k, g (table j) := by
    apply Finset.sum_congr rfl
    intro j hj
    rw [Function.update_of_ne (Finset.ne_of_mem_erase hj)]
  rw [hsplit, hsplit fun j => g (table j), hsame, Function.update_self]
  omega

end LihaLinux
