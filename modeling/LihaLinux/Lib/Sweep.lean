import LihaLinux.Lib.Chain
import Mathlib.Order.Nat

/-!
# Elevator queues

A queue that is served from its front and whose entries have an order. A new entry is put where
the order of its two neighbours has room for it, or where the order of the queue breaks and the
next entry comes after the new one, and at the end otherwise; never at the front. A queue of at
most two ascending sweeps stays one.
-/

namespace LihaLinux

variable {α : Type*}

section Lists

variable (r : α → α → Prop) [DecidableRel r]

/-- The insertion of an entry behind the first one of a queue. -/
def sweepInsert (x : α) : List α → List α
  | [] => [x]
  | [a] => [a, x]
  | a :: b :: l =>
    if (r a x ∨ ¬ r a b) ∧ r x b then a :: x :: b :: l else a :: sweepInsert x (b :: l)

/-- The number of neighbours that are not in order. -/
def descents : List α → ℕ
  | [] => 0
  | [_] => 0
  | a :: b :: l => (if r a b then 0 else 1) + descents (b :: l)

/-- The queue has one more entry. -/
theorem sweepInsert_perm (x : α) (l : List α) : (sweepInsert r x l).Perm (x :: l) := by
  induction l with
  | nil => exact List.Perm.refl _
  | cons a l ih =>
    cases l with
    | nil => exact List.Perm.swap x a []
    | cons b l =>
      rw [sweepInsert]
      split
      · exact List.Perm.swap x a (b :: l)
      · exact (ih.cons a).trans (List.Perm.swap x a (b :: l))

/-- The front of a queue is not displaced. -/
theorem head?_sweepInsert (x a : α) (l : List α) :
    (sweepInsert r x (a :: l)).head? = some a := by
  cases l with
  | nil => rfl
  | cons b l =>
    rw [sweepInsert]
    split <;> rfl

/-- A queue that loses its front has no more descents than before. -/
theorem descents_tail_le (l : List α) : descents r l.tail ≤ descents r l := by
  cases l with
  | nil => exact le_refl 0
  | cons a l =>
    cases l with
    | nil => exact le_refl 0
    | cons b l => exact Nat.le_add_left ..

variable {r}

/-- Descents depend on the order of the entries only. -/
theorem descents_congr {r' : α → α → Prop} [DecidableRel r'] {l : List α}
    (h : ∀ a ∈ l, ∀ b ∈ l, r' a b ↔ r a b) : descents r' l = descents r l := by
  induction l with
  | nil => rfl
  | cons a l ih =>
    cases l with
    | nil => rfl
    | cons b l =>
      have hab : r' a b ↔ r a b := h a (by simp) b (by simp)
      rw [descents, descents, ih fun c hc d hd => h c (by simp [hc]) d (by simp [hd])]
      simp only [hab]

/-- A place between two neighbours makes no descent. -/
theorem descents_between (htrans : ∀ a b c, r a b → r b c → r a c) {x a b : α} {l : List α}
    (hplace : (r a x ∨ ¬ r a b) ∧ r x b) :
    descents r (a :: x :: b :: l) ≤ descents r (a :: b :: l) := by
  obtain ⟨hax | hab, hxb⟩ := hplace
  · simp only [descents, if_pos hax, if_pos hxb, if_pos (htrans a x b hax hxb)]
    omega
  · simp only [descents, if_neg hab, if_pos hxb]
    split <;> omega

/-- An entry that comes after the front makes no descent. -/
theorem descents_sweepInsert_le (htrans : ∀ a b c, r a b → r b c → r a c) {x a : α}
    {l : List α} (hconn : ∀ b ∈ l, r x b ∨ r b x) (hax : r a x) :
    descents r (sweepInsert r x (a :: l)) ≤ descents r (a :: l) := by
  induction l generalizing a with
  | nil =>
    simp only [sweepInsert, descents, if_pos hax]
    omega
  | cons b l ih =>
    rw [sweepInsert]
    split
    · rename_i hplace
      exact descents_between htrans hplace
    · rename_i hplace
      have hxb : ¬ r x b := fun hxb => hplace ⟨Or.inl hax, hxb⟩
      have hbx : r b x := (hconn b (by simp)).resolve_left hxb
      have hrest := ih (fun c hc => hconn c (by simp [hc])) hbx
      obtain ⟨l', hl'⟩ := List.head?_eq_some_iff.mp (head?_sweepInsert r x b l)
      rw [hl'] at hrest ⊢
      simp only [descents]
      omega

/-- A queue of at most two sweeps stays one. -/
theorem descents_sweepInsert_le_one (htrans : ∀ a b c, r a b → r b c → r a c) {x : α}
    {l : List α} (hconn : ∀ b ∈ l, r x b ∨ r b x) (h : descents r l ≤ 1) :
    descents r (sweepInsert r x l) ≤ 1 := by
  induction l with
  | nil => exact h
  | cons a l ih =>
    cases l with
    | nil =>
      simp only [sweepInsert, descents]
      split <;> omega
    | cons b l =>
      have hconn' : ∀ c ∈ b :: l, r x c ∨ r c x := fun c hc => hconn c (by simp [hc])
      rw [sweepInsert]
      split
      · rename_i hplace
        exact (descents_between htrans hplace).trans h
      · rename_i hplace
        obtain ⟨l', hl'⟩ := List.head?_eq_some_iff.mp (head?_sweepInsert r x b l)
        by_cases hab : r a b
        · -- the order breaks further on, if at all
          have hrest := ih hconn' (by simp only [descents, if_pos hab] at h; omega)
          rw [hl'] at hrest ⊢
          simp only [descents, if_pos hab]
          omega
        · -- the order breaks here, so the new entry comes after `b`
          have hxb : ¬ r x b := fun hxb => hplace ⟨Or.inr hab, hxb⟩
          have hbx : r b x := (hconn b (by simp)).resolve_left hxb
          have hconn'' : ∀ c ∈ l, r x c ∨ r c x := fun c hc => hconn c (by simp [hc])
          have hrest := descents_sweepInsert_le htrans hconn'' hbx
          rw [hl'] at hrest ⊢
          simp only [descents, if_neg hab] at h ⊢
          omega

end Lists

/-! ### Linked queues -/

section Pointers

variable [DecidableEq α] (r : α → α → Prop) [DecidableRel r]

/-- The node behind which an entry is inserted, from the node `a` on. -/
def sweepPlace (next : α → Option α) (x : α) : ℕ → α → Option α
  | 0, _ => none
  | n + 1, a =>
    match next a with
    | none => some a
    | some b => if (r a x ∨ ¬ r a b) ∧ r x b then some a else sweepPlace next x n b

/-- A new node linked behind the node that the search finds is in its place in the queue. -/
theorem Linked.sweepInsert {next : α → Option α} {x a : α} {l : List α} {n : ℕ}
    (h : Linked next (some a) (a :: l)) (hnodup : (a :: l).Nodup) (hx : x ∉ a :: l)
    (hn : l.length < n) : ∃ t ∈ a :: l, sweepPlace r next x n a = some t ∧
      Linked (Function.update (Function.update next x (next t)) t (some x)) (some a)
        (sweepInsert r x (a :: l)) := by
  induction l generalizing a n with
  | nil =>
    cases n with
    | zero => exact absurd hn (Nat.not_lt_zero _)
    | succ n =>
      have hnone : next a = none := h.2
      exact ⟨a, by simp, by simp only [sweepPlace, hnone], h.insertAfter hnodup hx⟩
  | cons b l ih =>
    cases n with
    | zero => exact absurd hn (Nat.not_lt_zero _)
    | succ n =>
      have hb : next a = some b := h.2.1
      rw [sweepPlace, hb, LihaLinux.sweepInsert]
      dsimp only
      split
      · exact ⟨a, by simp, rfl, hb ▸ h.insertAfter hnodup hx⟩
      · have hrest : Linked next (some b) (b :: l) := hb ▸ h.2
        obtain ⟨ha, hnodup⟩ := List.nodup_cons.mp hnodup
        have hlength : l.length < n := by
          simp only [List.length_cons] at hn
          omega
        obtain ⟨t, ht, hplace, hlinked⟩ := ih hrest hnodup (fun hmem => hx (by simp [hmem])) hlength
        have hat : a ≠ t := fun hat => ha (hat ▸ ht)
        have hax : a ≠ x := fun hax => hx (by simp [hax])
        refine ⟨t, by simp [ht], hplace, rfl, ?_⟩
        rw [Function.update_of_ne hat, Function.update_of_ne hax, hb]
        exact hlinked

end Pointers

end LihaLinux
