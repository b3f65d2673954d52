import Mathlib.Data.List.Range
import Mathlib.Tactic.Ring

/-!
# Segments of a ring

A ring of `n` cells is indexed modulo `n`. A segment is the list of the cells met
when one walks from a start index; a queue kept in a ring is the segment between
its two indices.
-/

namespace LihaLinux

variable {α : Type*}

/-- The `k` cells of a ring of size `n` from index `i` on. -/
def ringSegment (n : ℕ) (cell : ℕ → α) (i k : ℕ) : List α :=
  (List.range k).map fun j => cell ((i + j) % n)

/-- A segment has as many elements as cells were asked for. -/
@[simp]
theorem length_ringSegment (n : ℕ) (cell : ℕ → α) (i k : ℕ) :
    (ringSegment n cell i k).length = k := by
  simp [ringSegment]

/-- The empty segment. -/
@[simp]
theorem ringSegment_zero (n : ℕ) (cell : ℕ → α) (i : ℕ) : ringSegment n cell i 0 = [] := by
  simp [ringSegment]

/-- A start index counts modulo the size. -/
theorem ringSegment_mod (n : ℕ) (cell : ℕ → α) (i k : ℕ) :
    ringSegment n cell (i % n) k = ringSegment n cell i k := by
  unfold ringSegment
  apply List.map_congr_left
  intro j _
  rw [Nat.mod_add_mod]

/-- A segment is cut in two at any length. -/
theorem ringSegment_add (n : ℕ) (cell : ℕ → α) (i k l : ℕ) :
    ringSegment n cell i (k + l) = ringSegment n cell i k ++ ringSegment n cell (i + k) l := by
  unfold ringSegment
  rw [List.range_add, List.map_append, List.map_map]
  congr 1
  apply List.map_congr_left
  intro j _
  simp only [Function.comp_apply]
  rw [Nat.add_assoc]

/-- The first cell of a segment. -/
theorem ringSegment_succ (n : ℕ) (cell : ℕ → α) (i k : ℕ) :
    ringSegment n cell i (k + 1) = cell (i % n) :: ringSegment n cell (i + 1) k := by
  rw [Nat.add_comm, ringSegment_add]
  simp [ringSegment]

/-- The last cell of a segment. -/
theorem ringSegment_succ_last (n : ℕ) (cell : ℕ → α) (i k : ℕ) :
    ringSegment n cell i (k + 1) = ringSegment n cell i k ++ [cell ((i + k) % n)] := by
  rw [ringSegment_add]
  simp [ringSegment]

/-- A segment depends on its own cells only. -/
theorem ringSegment_congr {n : ℕ} {cell cell' : ℕ → α} {i k : ℕ}
    (h : ∀ j < k, cell' ((i + j) % n) = cell ((i + j) % n)) :
    ringSegment n cell' i k = ringSegment n cell i k := by
  unfold ringSegment
  apply List.map_congr_left
  intro j hj
  exact h j (List.mem_range.mp hj)

end LihaLinux
