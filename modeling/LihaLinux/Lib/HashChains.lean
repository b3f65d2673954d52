import LihaLinux.Lib.Linked
import Mathlib.Data.List.Nodup
import Mathlib.Tactic.Common

/-!
# Hash tables with doubly linked chains

The chains of a hash table share the link functions of their nodes. A node is taken out
of its chain, or put in front of a chain, by setting the links of the node and of its
neighbours; the other chains do not see it.
-/

namespace LihaLinux

variable {α β : Type*}

/-- A table of heads, and the chain of nodes that hangs on each of them. -/
structure Chains (next prev : α → Option α) (table : β → Option α) (chain : β → List α) :
    Prop where
  head : ∀ h, table h = (chain h).head?
  links : ∀ h, DSeg next prev none (chain h) none
  nodup : ∀ h, (chain h).Nodup
  disjoint : ∀ {g h b}, b ∈ chain g → b ∈ chain h → g = h

namespace Chains

variable [DecidableEq α] [DecidableEq β] {next prev : α → Option α} {table : β → Option α}
  {chain : β → List α}

omit [DecidableEq β] in
/-- Taking a node out of a chain keeps the links of the other chains. -/
theorem unlink_other (hc : Chains next prev table chain) {g h : β} {x : α} (hx : x ∈ chain h)
    (hgh : g ≠ h) :
    DSeg (unlinkNext next prev x) (unlinkPrev next prev x) none (chain g) none := by
  obtain ⟨u, v, huv⟩ := List.append_of_mem hx
  have hlinks := hc.links h
  rw [huv] at hlinks
  obtain ⟨hprev, hnext⟩ := hlinks.mid
  apply (hc.links g).congr
  · intro b hb
    apply unlinkNext_of_ne
    rw [hprev, Option.or_none]
    intro hlast
    have hmem : b ∈ chain h := by
      rw [huv]
      simp [List.mem_of_getLast? hlast]
    exact hgh (hc.disjoint hb hmem)
  · intro b hb
    apply unlinkPrev_of_ne
    rw [hnext, Option.or_none]
    intro hhead
    have hmem : b ∈ chain h := by
      rw [huv]
      simp [List.mem_of_mem_head? hhead]
    exact hgh (hc.disjoint hb hmem)

/-- A node is taken out of its chain. -/
theorem remove (hc : Chains next prev table chain) {h : β} {x : α} (hx : x ∈ chain h) :
    Chains (unlinkNext next prev x) (unlinkPrev next prev x)
      (if table h = some x then Function.update table h (next x) else table)
      (Function.update chain h ((chain h).erase x)) := by
  obtain ⟨u, v, huv⟩ := List.append_of_mem hx
  have hnodup := hc.nodup h
  have hlinks := hc.links h
  rw [huv] at hnodup hlinks
  have hxu : x ∉ u := by
    intro hmem
    exact (List.nodup_append.mp hnodup).2.2 x hmem x (by simp) rfl
  have herase : (chain h).erase x = u ++ v := by
    rw [huv, List.erase_append_right _ hxu, List.erase_cons_head]
  constructor
  · intro g
    by_cases hg : g = h
    · subst g
      rw [Function.update_self, herase]
      cases u with
      | nil =>
        have hnext := hlinks.mid.2
        have htable : table h = some x := by rw [hc.head h, huv]; rfl
        rw [if_pos htable, Function.update_self, hnext]
        simp
      | cons a u =>
        have htable : table h = some a := by rw [hc.head h, huv]; rfl
        have hne : a ≠ x := by
          rintro rfl
          simp at hxu
        rw [htable, if_neg (by simpa using hne), htable]
        rfl
    · rw [Function.update_of_ne hg]
      split_ifs
      · rw [Function.update_of_ne hg]
        exact hc.head g
      · exact hc.head g
  · intro g
    by_cases hg : g = h
    · subst g
      rw [Function.update_self, herase]
      exact hlinks.unlink hnodup
    · rw [Function.update_of_ne hg]
      exact hc.unlink_other hx hg
  · intro g
    by_cases hg : g = h
    · subst g
      rw [Function.update_self]
      exact (hc.nodup h).erase x
    · rw [Function.update_of_ne hg]
      exact hc.nodup g
  · have hsub : ∀ g b, b ∈ Function.update chain h ((chain h).erase x) g → b ∈ chain g := by
      intro g b hb
      by_cases hg : g = h
      · subst g
        rw [Function.update_self] at hb
        exact List.mem_of_mem_erase hb
      · rwa [Function.update_of_ne hg] at hb
    intro g g' b hb hb'
    exact hc.disjoint (hsub g b hb) (hsub g' b hb')

/-- A node outside the chains is put in front of one. -/
theorem push (hc : Chains next prev table chain) (h : β) {x : α} (hx : ∀ g, x ∉ chain g)
    {next' prev' : α → Option α} (hnext : ∀ b, b ≠ x → next' b = next b)
    (hself : next' x = table h) (hself' : prev' x = none)
    (hprev : ∀ b, b ≠ x → prev' b = if table h = some b then some x else prev b) :
    Chains next' prev' (Function.update table h (some x))
      (Function.update chain h (x :: chain h)) := by
  have hne : ∀ g, ∀ b ∈ chain g, b ≠ x := by
    rintro g b hb rfl
    exact hx g hb
  have hmem : ∀ g b, b ∈ Function.update chain h (x :: chain h) g →
      b ∈ chain g ∨ b = x ∧ g = h := by
    intro g b hb
    by_cases hg : g = h
    · subst g
      rw [Function.update_self] at hb
      rcases List.mem_cons.mp hb with rfl | hb
      · exact .inr ⟨rfl, rfl⟩
      · exact .inl hb
    · rw [Function.update_of_ne hg] at hb
      exact .inl hb
  constructor
  · intro g
    by_cases hg : g = h
    · subst g
      simp
    · rw [Function.update_of_ne hg, Function.update_of_ne hg]
      exact hc.head g
  · intro g
    by_cases hg : g = h
    · subst g
      rw [Function.update_self]
      apply (hc.links h).push
      · exact List.nodup_cons.mpr ⟨hx h, hc.nodup h⟩
      · intro b hb
        exact hnext b (hne h b hb)
      · rw [hself, hc.head h]
      · exact hself'
      · intro b hb
        rw [hprev b (hne h b hb), hc.head h]
    · rw [Function.update_of_ne hg]
      apply (hc.links g).congr
      · intro b hb
        exact hnext b (hne g b hb)
      · intro b hb
        rw [hprev b (hne g b hb), if_neg]
        intro hhead
        have hb' : b ∈ chain h := List.mem_of_mem_head? (by rw [← hc.head h]; exact hhead)
        exact hg (hc.disjoint hb hb')
  · intro g
    by_cases hg : g = h
    · subst g
      rw [Function.update_self]
      exact List.nodup_cons.mpr ⟨hx h, hc.nodup h⟩
    · rw [Function.update_of_ne hg]
      exact hc.nodup g
  · intro g g' b hb hb'
    rcases hmem g b hb with hold | ⟨hbx, hg⟩
    · rcases hmem g' b hb' with hold' | ⟨hbx, hg'⟩
      · exact hc.disjoint hold hold'
      · exact absurd hbx (hne g b hold)
    · rcases hmem g' b hb' with hold' | ⟨-, hg'⟩
      · exact absurd hbx (hne g' b hold')
      · rw [hg, hg']

omit [DecidableEq β] in
/-- A node with null links that heads no chain is left alone. -/
theorem unlink_null (hc : Chains next prev table chain) {x : α} (hnext : next x = none)
    (hprev : prev x = none) :
    Chains (unlinkNext next prev x) (unlinkPrev next prev x) table chain := by
  have hn : unlinkNext next prev x = next := by simp [unlinkNext, hprev]
  have hp : unlinkPrev next prev x = prev := by simp [unlinkPrev, hnext]
  rwa [hn, hp]

end Chains

/-! ### Searching a chain -/

/-- Walk along the links until a node satisfies the test, at most `fuel` nodes far. -/
def walk (next : α → Option α) (test : α → Bool) : ℕ → Option α → Option α
  | 0, _ => none
  | _ + 1, none => none
  | fuel + 1, some x => if test x then some x else walk next test fuel (next x)

/-- The walk over a linked list finds the first node that satisfies the test. -/
theorem walk_eq_find {next prev : α → Option α} {test : α → Bool} {l : List α} {p : Option α}
    (h : DSeg next prev p l none) {fuel : ℕ} (hfuel : l.length < fuel) :
    walk next test fuel l.head? = l.find? test := by
  induction l generalizing p fuel with
  | nil =>
    cases fuel with
    | zero => simp at hfuel
    | succ fuel => rfl
  | cons x l ih =>
    obtain ⟨-, hnext, hl⟩ := h
    cases fuel with
    | zero => simp at hfuel
    | succ fuel =>
      rw [Option.or_none] at hnext
      simp only [List.head?_cons, walk, List.find?_cons]
      cases htest : test x with
      | true => rfl
      | false =>
        simp only [Bool.false_eq_true, if_false]
        rw [hnext]
        exact ih hl (by simp only [List.length_cons] at hfuel; omega)

end LihaLinux
