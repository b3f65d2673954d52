import Mathlib.Data.Nat.Notation
import Mathlib.Logic.Function.Basic
import Mathlib.Tactic.Common

/-!
# Tables that are searched from the beginning

A table has `n` slots. `has e k` says that slot `e` is in use for the key `k`, and `val e` is what
is stored there. A search finds the first slot for a key. While no key has two slots, the table is
a finite map: using a free slot changes the map at one key, and giving a slot back removes it.
-/

namespace LihaLinux.SlotTable

variable {κ ν : Type*} {has has' : ℕ → κ → Prop} {val val' : ℕ → ν} {n n' e : ℕ} {k : κ}

/-- The slot that a search finds. -/
def IsFirst (has : ℕ → κ → Prop) (n : ℕ) (k : κ) (e : ℕ) : Prop :=
  e < n ∧ has e k ∧ ∀ e' < e, ¬has e' k

/-- No key has two slots. -/
def Unique (has : ℕ → κ → Prop) (n : ℕ) : Prop :=
  ∀ k e e', e < n → e' < n → has e k → has e' k → e = e'

/-- The table holds the map. -/
structure Holds (has : ℕ → κ → Prop) (val : ℕ → ν) (n : ℕ) (map : κ → Option ν) : Prop where
  unique : Unique has n
  some : ∀ e k, e < n → has e k → map k = .some (val e)
  none : ∀ k, (∀ e < n, ¬has e k) → map k = .none

/-- A table in which no key has two slots holds a map. -/
theorem exists_holds (val : ℕ → ν) (h : Unique has n) : ∃ map, Holds has val n map := by
  classical
  refine ⟨fun k => if hk : ∃ e < n, has e k then .some (val hk.choose) else .none, h,
    fun e k he hk => ?_, fun k hk => ?_⟩
  · have hex : ∃ e < n, has e k := ⟨e, he, hk⟩
    rw [dif_pos hex, h k _ e hex.choose_spec.1 he hex.choose_spec.2 hk]
  · rw [dif_neg]
    rintro ⟨e, he, hek⟩
    exact hk e he hek

namespace Holds

variable {map : κ → Option ν}

/-- What a search finds is what the map has. -/
theorem find (h : Holds has val n map) (he : IsFirst has n k e) : map k = .some (val e) :=
  h.some e k he.1 he.2.1

/-- The map depends on the slots only. -/
theorem congr (h : Holds has val n map) (hhas : ∀ e < n, ∀ k, has' e k ↔ has e k)
    (hval : ∀ e < n, ∀ k, has e k → val' e = val e) : Holds has' val' n map := by
  refine ⟨fun k e e' he he' hk hk' => ?_, fun e k he hk => ?_, fun k hk => ?_⟩
  · exact h.unique k e e' he he' ((hhas e he k).mp hk) ((hhas e' he' k).mp hk')
  · have hold := (hhas e he k).mp hk
    rw [hval e he k hold]
    exact h.some e k he hold
  · exact h.none k fun e he hold => hk e he ((hhas e he k).mpr hold)

variable [DecidableEq κ]

/-- A free slot, or the one behind the last one, is used for a key that has none. -/
theorem insert (h : Holds has val n map) (hk : map k = .none) (he : e ≤ n)
    (hn' : n' = max n (e + 1)) (hfree : e < n → ∀ k', ¬has e k')
    (hself : ∀ k', has' e k' ↔ k' = k)
    (hother : ∀ e' < n, e' ≠ e → (∀ k', has' e' k' ↔ has e' k') ∧ val' e' = val e') :
    Holds has' val' n' (Function.update map k (.some (val' e))) := by
  have hold : ∀ e' < n', e' ≠ e → e' < n := by
    intro e' he' hne
    omega
  have hnot : ∀ e' < n, ¬has e' k := by
    intro e' he' hek
    rw [h.some e' k he' hek] at hk
    cases hk
  refine ⟨fun k' e₁ e₂ h₁ h₂ hk₁ hk₂ => ?_, fun e' k' he' hk' => ?_, fun k' hk' => ?_⟩
  · by_cases hne₁ : e₁ = e
    · by_cases hne₂ : e₂ = e
      · rw [hne₁, hne₂]
      · rw [hne₁, hself] at hk₁
        rw [hk₁, (hother e₂ (hold e₂ h₂ hne₂) hne₂).1] at hk₂
        exact absurd hk₂ (hnot e₂ (hold e₂ h₂ hne₂))
    · rw [(hother e₁ (hold e₁ h₁ hne₁) hne₁).1] at hk₁
      by_cases hne₂ : e₂ = e
      · rw [hne₂, hself] at hk₂
        rw [hk₂] at hk₁
        exact absurd hk₁ (hnot e₁ (hold e₁ h₁ hne₁))
      · rw [(hother e₂ (hold e₂ h₂ hne₂) hne₂).1] at hk₂
        exact h.unique k' e₁ e₂ (hold e₁ h₁ hne₁) (hold e₂ h₂ hne₂) hk₁ hk₂
  · by_cases hne : e' = e
    · rw [hne, hself] at hk'
      rw [hne, hk', Function.update_self]
    · have hin := hold e' he' hne
      rw [(hother e' hin hne).1] at hk'
      have hkey : k' ≠ k := by
        rintro rfl
        exact hnot e' hin hk'
      rw [Function.update_of_ne hkey, (hother e' hin hne).2]
      exact h.some e' k' hin hk'
  · have hkey : k' ≠ k := by
      rintro rfl
      exact hk' e (by omega) ((hself k').mpr rfl)
    rw [Function.update_of_ne hkey]
    refine h.none k' fun e' he' hek => ?_
    by_cases hne : e' = e
    · rw [hne] at he' hek
      exact hfree he' k' hek
    · exact hk' e' (by omega) (((hother e' he' hne).1 k').mpr hek)

/-- The slot of a key is given back. -/
theorem erase (h : Holds has val n map) (he : e < n) (hk : has e k)
    (hone : ∀ k', has e k' → k' = k) (hself : ∀ k', ¬has' e k')
    (hother : ∀ e' < n, e' ≠ e → (∀ k', has' e' k' ↔ has e' k') ∧ val' e' = val e') :
    Holds has' val' n (Function.update map k .none) := by
  refine ⟨fun k' e₁ e₂ h₁ h₂ hk₁ hk₂ => ?_, fun e' k' he' hk' => ?_, fun k' hk' => ?_⟩
  · have hne₁ : e₁ ≠ e := by
      rintro rfl
      exact hself k' hk₁
    have hne₂ : e₂ ≠ e := by
      rintro rfl
      exact hself k' hk₂
    rw [(hother e₁ h₁ hne₁).1] at hk₁
    rw [(hother e₂ h₂ hne₂).1] at hk₂
    exact h.unique k' e₁ e₂ h₁ h₂ hk₁ hk₂
  · have hne : e' ≠ e := by
      rintro rfl
      exact hself k' hk'
    rw [(hother e' he' hne).1] at hk'
    have hkey : k' ≠ k := by
      rintro rfl
      exact hne (h.unique k' e' e he' he hk' hk)
    rw [Function.update_of_ne hkey, (hother e' he' hne).2]
    exact h.some e' k' he' hk'
  · by_cases hkey : k' = k
    · rw [hkey, Function.update_self]
    · rw [Function.update_of_ne hkey]
      refine h.none k' fun e' he' hek => ?_
      have hne : e' ≠ e := by
        rintro rfl
        exact hkey (hone k' hek)
      exact hk' e' he' (((hother e' he' hne).1 k').mpr hek)

end Holds

end LihaLinux.SlotTable
