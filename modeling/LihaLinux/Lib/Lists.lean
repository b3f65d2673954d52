import LihaLinux.Lib.Chain

/-!
# Singly linked lists that share their pointers

A family of lists uses one table of pointers, and a node is in one of them at most. A list is
changed by new pointers for its own nodes and for nodes that are in no list.
-/

namespace LihaLinux

variable {α β : Type*}

/-- A family of lists without common nodes, given by their first nodes and one table of pointers. -/
structure Lists (next : α → Option α) (first : β → Option α) (list : β → List α) : Prop where
  linked : ∀ b, Linked next (first b) (list b)
  nodup : ∀ b, (list b).Nodup
  disjoint : ∀ {b c x}, x ∈ list b → x ∈ list c → b = c

namespace Lists

variable {next next' : α → Option α} {first : β → Option α} {list : β → List α}

/-- The pointers of other nodes do not matter. -/
theorem congr (h : Lists next first list) (hnext : ∀ b, ∀ x ∈ list b, next' x = next x) :
    Lists next' first list :=
  ⟨fun b => (h.linked b).congr (hnext b), h.nodup, h.disjoint⟩

variable [DecidableEq β]

/-- One list is replaced, where the pointers of the other lists stay as they are. -/
theorem replace (h : Lists next first list) {b : β} {p : Option α} {l : List α}
    (hl : Linked next' p l) (hnodup : l.Nodup) (hnew : ∀ c, c ≠ b → ∀ x ∈ l, x ∉ list c)
    (hnext : ∀ c, c ≠ b → ∀ x ∈ list c, next' x = next x) :
    Lists next' (Function.update first b p) (Function.update list b l) := by
  refine ⟨fun c => ?_, fun c => ?_, fun {c d x} hc hd => ?_⟩
  · by_cases hcb : c = b
    · subst hcb
      rw [Function.update_self, Function.update_self]
      exact hl
    · rw [Function.update_of_ne hcb, Function.update_of_ne hcb]
      exact (h.linked c).congr (hnext c hcb)
  · by_cases hcb : c = b
    · subst hcb
      rw [Function.update_self]
      exact hnodup
    · rw [Function.update_of_ne hcb]
      exact h.nodup c
  · by_cases hcb : c = b <;> by_cases hdb : d = b
    · exact hcb.trans hdb.symm
    · subst hcb
      rw [Function.update_self] at hc
      rw [Function.update_of_ne hdb] at hd
      exact absurd hd (hnew d hdb x hc)
    · subst hdb
      rw [Function.update_self] at hd
      rw [Function.update_of_ne hcb] at hc
      exact absurd hc (hnew c hcb x hd)
    · rw [Function.update_of_ne hcb] at hc
      rw [Function.update_of_ne hdb] at hd
      exact h.disjoint hc hd

/-- The first node is taken out of a list. -/
theorem pop (h : Lists next first list) {b : β} {x : α} {l : List α} (hb : list b = x :: l) :
    Lists next (Function.update first b (next x)) (Function.update list b l) := by
  have hlinked := h.linked b
  have hnodup := h.nodup b
  rw [hb] at hlinked hnodup
  refine h.replace hlinked.2 (List.nodup_cons.mp hnodup).2 (fun c hcb y hy hc => ?_)
    fun c _ y _ => rfl
  exact hcb (h.disjoint hc (hb ▸ List.mem_cons_of_mem x hy))

variable [DecidableEq α]

/-- A node that is in no list is put in front of one. -/
theorem push (h : Lists next first list) {b : β} {x : α} (hx : ∀ c, x ∉ list c) :
    Lists (Function.update next x (first b)) (Function.update first b (some x))
      (Function.update list b (x :: list b)) := by
  have hother : ∀ c, ∀ y ∈ list c, Function.update next x (first b) y = next y :=
    fun c y hy => Function.update_of_ne (ne_of_mem_of_not_mem hy (hx c)) ..
  refine h.replace ⟨rfl, ?_⟩ (List.nodup_cons.mpr ⟨hx b, h.nodup b⟩) (fun c hcb y hy hc => ?_)
    fun c _ => hother c
  · rw [Function.update_self]
    exact (h.linked b).congr (hother b)
  · rcases List.mem_cons.mp hy with rfl | hy
    · exact hx c hc
    · exact hcb (h.disjoint hc hy)

/-- A node is taken out of a list behind its predecessor. -/
theorem remove (h : Lists next first list) {b : β} {p x : α} {u v : List α}
    (hb : list b = u ++ p :: x :: v) :
    Lists (Function.update next p (next x)) first (Function.update list b (u ++ p :: v)) := by
  have hnodup := h.nodup b
  rw [hb] at hnodup
  have hsub : (u ++ p :: v).Sublist (u ++ p :: x :: v) :=
    (List.Sublist.refl u).append ((List.sublist_cons_self x v).cons_cons p)
  have hmem : ∀ y ∈ u ++ p :: v, y ∈ list b := fun y hy => hb ▸ hsub.subset hy
  have hlinked : Linked (Function.update next p (next x)) (first b) (u ++ p :: v) :=
    (hb ▸ h.linked b).remove hnodup
  have hreplaced := h.replace hlinked (hsub.nodup hnodup)
    (fun c hcb y hy hc => hcb (h.disjoint hc (hmem y hy)))
    (fun c hcb y hy => Function.update_of_ne
      (ne_of_mem_of_not_mem hy fun hp => hcb (h.disjoint hp (hmem p (by simp)))) ..)
  rwa [Function.update_eq_self] at hreplaced

end Lists

/-! ### Loops over a list -/

/-- A loop over a list that stops at the first node with a property: the pointer it stops at, and
the node before. There is no result if it has gone through more nodes than it may. -/
def scanList (next : α → Option α) (P : α → Bool) :
    ℕ → Option α → Option α → Option (Option α × Option α)
  | _, prev, none => some (prev, none)
  | 0, _, some _ => none
  | n + 1, prev, some x => if P x then some (prev, some x) else scanList next P n (some x) (next x)

variable {next : α → Option α} {P : α → Bool}

/-- The loop finds nothing. -/
theorem scanList_none {n : ℕ} {prev p : Option α} {l : List α} (hl : Linked next p l)
    (hn : l.length ≤ n) (hP : ∀ x ∈ l, P x = false) :
    scanList next P n prev p = some ((l.getLast?).or prev, none) := by
  induction l generalizing n prev p with
  | nil =>
    rw [show p = none from hl, scanList, List.getLast?_nil, Option.none_or]
  | cons x l ih =>
    obtain ⟨rfl, hrest⟩ := hl
    cases n with
    | zero => simp at hn
    | succ n =>
      rw [scanList, hP x (by simp), if_neg (by simp),
        ih hrest (by simpa using hn) fun y hy => hP y (by simp [hy]), List.getLast?_cons]
      cases l.getLast? <;> rfl

/-- The loop finds the first node with the property, and the node before it. -/
theorem scanList_some {n : ℕ} {prev p : Option α} {u v : List α} {x : α}
    (hl : Linked next p (u ++ x :: v)) (hn : (u ++ x :: v).length ≤ n)
    (hu : ∀ y ∈ u, P y = false) (hx : P x = true) :
    scanList next P n prev p = some ((u.getLast?).or prev, some x) := by
  induction u generalizing n prev p with
  | nil =>
    obtain ⟨rfl, -⟩ := hl
    cases n with
    | zero => simp at hn
    | succ n => rw [scanList, if_pos hx, List.getLast?_nil, Option.none_or]
  | cons y u ih =>
    obtain ⟨rfl, hrest⟩ := hl
    cases n with
    | zero => simp at hn
    | succ n =>
      rw [scanList, hu y (by simp), if_neg (by simp),
        ih hrest (by simpa using hn) fun z hz => hu z (by simp [hz]), List.getLast?_cons]
      cases u.getLast? <;> rfl

/-- The loop ends, and it has found a node unless there is none. -/
theorem scanList_cases {n : ℕ} {p : Option α} {l : List α} (hl : Linked next p l)
    (hn : l.length ≤ n) :
    (∃ prev, scanList next P n none p = some (prev, none) ∧ ∀ x ∈ l, P x = false) ∨
      ∃ u x v, l = u ++ x :: v ∧ P x = true ∧
        scanList next P n none p = some (u.getLast?, some x) := by
  cases hfind : l.find? P with
  | none =>
    left
    have hP : ∀ x ∈ l, P x = false := fun x hx =>
      Bool.eq_false_iff.mpr (List.find?_eq_none.mp hfind x hx)
    exact ⟨_, scanList_none hl hn hP, hP⟩
  | some x =>
    right
    obtain ⟨hx, u, v, rfl, hu⟩ := List.find?_eq_some_iff_append.mp hfind
    refine ⟨u, x, v, rfl, hx, ?_⟩
    rw [scanList_some hl hn (fun y hy => by simpa using hu y hy) hx, Option.or_none]

end LihaLinux
