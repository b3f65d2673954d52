import Mathlib.Logic.Basic

/-!
# Exclusive holders

A resource that has at most one holder. A holder may give a resource up, take one that nobody
has, or hand its own over.
-/

namespace LihaLinux

variable {ι β : Type*} {R R' : ι → β → Prop}

/-- No resource has two holders. -/
def Exclusive (R : ι → β → Prop) : Prop := ∀ ⦃x y b⦄, R x b → R y b → x = y

/-- Holders may give resources up. -/
theorem Exclusive.mono (h : Exclusive R) (hsub : ∀ x b, R' x b → R x b) : Exclusive R' :=
  fun x y b hx hy => h (hsub x b hx) (hsub y b hy)

/-- A holder takes a resource that nobody has. -/
theorem Exclusive.acquire (h : Exclusive R) {o : ι} {b₀ : β} (hfree : ∀ x, ¬ R x b₀)
    (hsub : ∀ x b, R' x b → R x b ∨ x = o ∧ b = b₀) : Exclusive R' := by
  intro x y b hx hy
  rcases hsub x b hx with hx | ⟨rfl, rfl⟩
  · rcases hsub y b hy with hy | ⟨-, rfl⟩
    · exact h hx hy
    · exact absurd hx (hfree x)
  · rcases hsub y b hy with hy | ⟨rfl, -⟩
    · exact absurd hy (hfree y)
    · rfl

/-- A holder hands over what it has. -/
theorem Exclusive.move (h : Exclusive R) {o p : ι} (hgone : ∀ b, ¬ R' o b)
    (hsub : ∀ x b, R' x b → R x b ∨ x = p ∧ R o b) : Exclusive R' := by
  have hne : ∀ {x b}, R' x b → R x b → ¬ R o b := by
    intro x b hx hold h₀
    obtain rfl := h hold h₀
    exact hgone b hx
  intro x y b hx hy
  rcases hsub x b hx with hx' | ⟨rfl, hx'⟩
  · rcases hsub y b hy with hy' | ⟨-, hy'⟩
    · exact h hx' hy'
    · exact absurd hy' (hne hx hx')
  · rcases hsub y b hy with hy' | ⟨rfl, -⟩
    · exact absurd hx' (hne hy hy')
    · rfl

end LihaLinux
