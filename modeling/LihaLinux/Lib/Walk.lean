import Mathlib.Data.Nat.Notation
import Mathlib.Data.Option.Basic

/-!
# Walks along pointers

A pointer function gives every node at most one successor. A follow follows the pointers a number
of times. When no two nodes point to the same one, a node is met on at most one follow from the
nodes to which nothing points.
-/

namespace LihaLinux

variable {α : Type*} {f g : α → Option α}

/-- The node that is met after `n` pointers have been followed from `r`. -/
def follow (f : α → Option α) : ℕ → α → Option α
  | 0, r => some r
  | n + 1, r => (follow f n r).bind f

/-- The last step of a walk. -/
theorem follow_succ {n : ℕ} {r x y : α} (h : follow f n r = some x) (hxy : f x = some y) :
    follow f (n + 1) r = some y := by
  rw [follow, h]
  exact hxy

/-- A walk that takes a step comes from somewhere. -/
theorem exists_of_follow_succ {n : ℕ} {r y : α} (h : follow f (n + 1) r = some y) :
    ∃ x, follow f n r = some x ∧ f x = some y := Option.bind_eq_some_iff.mp h

/-- A follow from a node without a pointer goes nowhere. -/
theorem follow_of_none {r : α} (h : f r = none) (n : ℕ) : follow f (n + 1) r = none := by
  induction n with
  | zero => exact h
  | succ n ih => rw [follow, ih, Option.bind_none]

/-- One walk after another. -/
theorem follow_add {m n : ℕ} {r x y : α} (h : follow f m r = some x) (h' : follow f n x = some y) :
    follow f (m + n) r = some y := by
  induction n generalizing y with
  | zero =>
    rw [follow, Option.some.injEq] at h'
    rw [← h']
    exact h
  | succ n ih =>
    obtain ⟨z, hz, hzy⟩ := exists_of_follow_succ h'
    exact follow_succ (ih hz) hzy

/-- A walk along pointers that are still there. -/
theorem follow_mono (hfg : ∀ x y, f x = some y → g x = some y) {n : ℕ} {r y : α}
    (h : follow f n r = some y) : follow g n r = some y := by
  induction n generalizing y with
  | zero => exact h
  | succ n ih =>
    obtain ⟨x, hx, hxy⟩ := exists_of_follow_succ h
    exact follow_succ (ih hx) (hfg x y hxy)

/-- When the pointer of one node is taken away, a walk is still there, or it has gone through that
node and what it has met behind it can still be met from there. -/
theorem follow_cut {t : α} (hfg : ∀ x, x ≠ t → g x = f x) {n : ℕ} {r y : α}
    (h : follow f n r = some y) :
    follow g n r = some y ∨ ∃ u m, f t = some u ∧ follow g m u = some y := by
  induction n generalizing y with
  | zero => exact Or.inl h
  | succ n ih =>
    obtain ⟨x, hx, hxy⟩ := exists_of_follow_succ h
    by_cases hxt : x = t
    · subst hxt
      exact Or.inr ⟨y, 0, hxy, rfl⟩
    · have hstep : g x = some y := by rw [hfg x hxt, hxy]
      rcases ih hx with hkept | ⟨u, m, htu, hm⟩
      · exact Or.inl (follow_succ hkept hstep)
      · exact Or.inr ⟨u, m + 1, htu, follow_succ hm hstep⟩

/-- A follow from a node to which nothing points comes to a node in one way only. -/
theorem follow_unique (hinj : ∀ x x' y, f x = some y → f x' = some y → x = x') {m n : ℕ}
    {r r' y : α} (hr : ∀ x, f x ≠ some r) (hr' : ∀ x, f x ≠ some r')
    (h : follow f m r = some y) (h' : follow f n r' = some y) : r = r' ∧ m = n := by
  induction m generalizing n y with
  | zero =>
    rw [follow, Option.some.injEq] at h
    subst h
    cases n with
    | zero =>
      rw [follow, Option.some.injEq] at h'
      exact ⟨h'.symm, rfl⟩
    | succ n =>
      obtain ⟨x, -, hx⟩ := exists_of_follow_succ h'
      exact absurd hx (hr x)
  | succ m ih =>
    obtain ⟨x, hx, hxy⟩ := exists_of_follow_succ h
    cases n with
    | zero =>
      rw [follow, Option.some.injEq] at h'
      subst h'
      exact absurd hxy (hr' x)
    | succ n =>
      obtain ⟨x', hx', hxy'⟩ := exists_of_follow_succ h'
      obtain ⟨hrr, hmn⟩ := ih hx (hinj x x' y hxy hxy' ▸ hx')
      exact ⟨hrr, by omega⟩

end LihaLinux
