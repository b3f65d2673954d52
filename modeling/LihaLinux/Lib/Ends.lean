import Mathlib.Data.Nat.Find
import Mathlib.Logic.Relation

/-!
# Ends of calls

A task takes its own steps, and its environment takes steps between them. `Ends P s` says that from
the state `s` the task comes to a state with `P` after finitely many steps of its own, and that on
the way it never stops but to wait for its environment, as long as the states that it steps from
satisfy a condition. A task that is not kept from running and does not wait forever then comes to a
state with `P`.
-/

namespace LihaLinux

variable {σ : Type*}

/-- A task among others: the steps of its environment, its own steps, the condition on the states
that it steps from, and the states in which it waits. -/
structure Tasking (σ : Type*) where
  env : σ → σ → Prop
  own : σ → σ → Prop
  ok : σ → Prop
  waits : σ → Prop

namespace Tasking

variable (T : Tasking σ)

/-- The task comes to a state with a property. -/
inductive Ends (P : σ → Prop) : σ → Prop
  | done {s : σ} (h : P s) : Ends P s
  | step {s : σ}
      (hgo : ∀ s', Relation.ReflTransGen T.env s s' → T.ok s' → T.waits s' ∨ ∃ s'', T.own s' s'')
      (hnext : ∀ s' s'', Relation.ReflTransGen T.env s s' → T.ok s' → T.own s' s'' → Ends P s'') :
      Ends P s

variable {T} {P Q : σ → Prop}

/-- What the task comes to first may lead to something else. -/
theorem Ends.bind {s : σ} (h : T.Ends P s) (hP : ∀ s, P s → T.Ends Q s) : T.Ends Q s := by
  induction h with
  | done h => exact hP _ h
  | step hgo _ ih => exact .step hgo ih

/-- A run in which every state satisfies the condition, the task does not wait forever, and it takes
a step if it can take one all the time. -/
structure Fair (T : Tasking σ) (ρ : ℕ → σ) : Prop where
  step : ∀ n, ρ (n + 1) = ρ n ∨ T.env (ρ n) (ρ (n + 1)) ∨ T.own (ρ n) (ρ (n + 1))
  ok : ∀ n, T.ok (ρ n)
  runs : ∀ n, (∀ m, n ≤ m → ∃ s, T.own (ρ m) s) → ∃ m, n ≤ m ∧ T.own (ρ m) (ρ (m + 1))
  waits : ∀ n, (∀ m, n ≤ m → ¬T.own (ρ m) (ρ (m + 1))) → ∃ m, n ≤ m ∧ ∀ k, m ≤ k → ¬T.waits (ρ k)

/-- Without steps of the task, the environment leads from one state of a run to the others. -/
theorem Fair.env_of_idle {ρ : ℕ → σ} (hρ : T.Fair ρ) {n k : ℕ}
    (hidle : ∀ m, n ≤ m → m < n + k → ¬T.own (ρ m) (ρ (m + 1))) :
    Relation.ReflTransGen T.env (ρ n) (ρ (n + k)) := by
  induction k with
  | zero => exact .refl
  | succ k ih =>
    have hprev := ih fun m hm hlt => hidle m hm (Nat.lt_succ_of_lt hlt)
    rcases hρ.step (n + k) with hsame | henv | hown
    · rw [← Nat.add_assoc, hsame]
      exact hprev
    · exact hprev.tail henv
    · exact absurd hown (hidle (n + k) (Nat.le_add_right n k) (Nat.lt_succ_self _))

/-- A task that ends comes to its end in every fair run. -/
theorem Ends.reaches {ρ : ℕ → σ} (hρ : T.Fair ρ) {n : ℕ} (h : T.Ends P (ρ n)) :
    ∃ m, n ≤ m ∧ P (ρ m) := by
  generalize hs : ρ n = s at h
  induction h generalizing n with
  | done h => exact ⟨n, Nat.le_refl n, hs ▸ h⟩
  | @step s hgo _ ih =>
    subst hs
    by_cases hown : ∃ m, n ≤ m ∧ T.own (ρ m) (ρ (m + 1))
    · classical
      -- the first step of the task
      obtain ⟨hle, hstep⟩ := Nat.find_spec hown
      obtain ⟨k, hk⟩ := Nat.exists_eq_add_of_le hle
      have henv : Relation.ReflTransGen T.env (ρ n) (ρ (Nat.find hown)) := by
        rw [hk]
        apply hρ.env_of_idle
        intro m hm hlt h
        exact Nat.find_min hown (hk ▸ hlt) ⟨hm, h⟩
      obtain ⟨m, hm, hP⟩ := ih _ _ henv (hρ.ok _) hstep rfl
      exact ⟨m, Nat.le_trans hle (Nat.le_trans (Nat.le_succ _) hm), hP⟩
    · -- the task would be kept from running forever
      have hidle : ∀ m, n ≤ m → ¬T.own (ρ m) (ρ (m + 1)) := fun m hm h => hown ⟨m, hm, h⟩
      obtain ⟨m, hm, hwaits⟩ := hρ.waits n hidle
      have henabled : ∀ k, m ≤ k → ∃ s, T.own (ρ k) s := by
        intro k hk
        obtain ⟨j, rfl⟩ := Nat.exists_eq_add_of_le (Nat.le_trans hm hk)
        have henv := hρ.env_of_idle fun i hi (_ : i < n + j) => hidle i hi
        exact (hgo _ henv (hρ.ok _)).resolve_left (hwaits _ hk)
      obtain ⟨k, hk, hstep⟩ := hρ.runs m henabled
      exact absurd ⟨k, Nat.le_trans hm hk, hstep⟩ hown

end Tasking

end LihaLinux
