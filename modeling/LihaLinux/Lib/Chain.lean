import Mathlib.Data.List.Nodup
import Mathlib.Logic.Function.Basic
import Mathlib.Tactic.Common

/-!
# Singly linked lists

A list of nodes with a pointer from each node to the next one. Two nodes may not share a
successor within one list, so a list without repetition is changed by setting the pointers of the
nodes at the place of the change only.
-/

namespace LihaLinux

variable {α : Type*}

/-- The nodes of the list that begins at a pointer. -/
def Linked (next : α → Option α) : Option α → List α → Prop
  | p, [] => p = none
  | p, b :: l => p = some b ∧ Linked next (next b) l

namespace Linked

variable {next next' : α → Option α} {p : Option α} {l : List α}

/-- A list depends on the pointers of its own nodes only. -/
theorem congr (h : Linked next p l) (hnext : ∀ b ∈ l, next' b = next b) : Linked next' p l := by
  induction l generalizing p with
  | nil => exact h
  | cons b l ih =>
    refine ⟨h.1, ?_⟩
    rw [hnext b (by simp)]
    exact ih h.2 fun c hc => hnext c (by simp [hc])

/-- A list begins at its first node. -/
theorem head (h : Linked next p l) : p = l.head? := by
  cases l with
  | nil => exact h
  | cons b l => exact h.1

/-- A pointer begins one list only. -/
theorem unique {l' : List α} (h : Linked next p l) (h' : Linked next p l') : l = l' := by
  induction l generalizing p l' with
  | nil =>
    cases l' with
    | nil => rfl
    | cons b l' => exact nomatch h.symm.trans h'.1
  | cons b l ih =>
    cases l' with
    | nil => exact nomatch h'.symm.trans h.1
    | cons b' l' =>
      obtain rfl : b = b' := Option.some.inj (h.1.symm.trans h'.1)
      rw [ih h.2 h'.2]

/-- A new node is linked behind the first one. -/
theorem insertAfter [DecidableEq α] {a x : α} (h : Linked next (some a) (a :: l))
    (hnodup : (a :: l).Nodup) (hx : x ∉ a :: l) :
    Linked (Function.update (Function.update next x (next a)) a (some x)) (some a)
      (a :: x :: l) := by
  have hxa : x ≠ a := fun hxa => hx (by simp [hxa])
  refine ⟨rfl, by rw [Function.update_self], ?_⟩
  rw [Function.update_of_ne hxa, Function.update_self]
  refine h.2.congr fun b hb => ?_
  have hba : b ≠ a := fun hba => (List.nodup_cons.mp hnodup).1 (hba ▸ hb)
  have hbx : b ≠ x := fun hbx => hx (by simp [← hbx, hb])
  rw [Function.update_of_ne hba, Function.update_of_ne hbx]

/-- A node points to the one behind it. -/
theorem next_eq {u v : List α} {a x : α} (h : Linked next p (u ++ a :: x :: v)) :
    next a = some x := by
  induction u generalizing p with
  | nil => exact h.2.1
  | cons b u ih => exact ih h.2

/-- The node behind a node is taken out. -/
theorem remove [DecidableEq α] {u v : List α} {a x : α} (h : Linked next p (u ++ a :: x :: v))
    (hnodup : (u ++ a :: x :: v).Nodup) :
    Linked (Function.update next a (next x)) p (u ++ a :: v) := by
  induction u generalizing p with
  | nil =>
    refine ⟨h.1, ?_⟩
    rw [Function.update_self]
    refine h.2.2.congr fun b hb => Function.update_of_ne (fun hba => ?_) ..
    exact (List.nodup_cons.mp hnodup).1 (hba ▸ List.mem_cons_of_mem x hb)
  | cons b u ih =>
    have hba : b ≠ a := fun hba => (List.nodup_cons.mp hnodup).1 (by simp [hba])
    refine ⟨h.1, ?_⟩
    rw [Function.update_of_ne hba]
    exact ih h.2 (List.nodup_cons.mp hnodup).2

end Linked

end LihaLinux
