import Mathlib.Data.List.Induction
import Mathlib.Data.List.Nodup
import Mathlib.Data.Nat.Notation
import Mathlib.Logic.Function.Basic

/-!
# Trees of numbered nodes

Nodes have numbers and entries, and the entries are numbers of nodes again; the number 0 stands
for no node. A slot is a place for a number: a root, or an entry of the node in another slot,
given by the indices on the way to it. Filling an empty slot with a fresh node changes the
number in this slot only, if no node is in two slots.
-/

namespace LihaLinux.IndexTree

/-! ### Ways through the nodes -/

/-- The number at the end of a way from node `z` on. -/
def follow (entry : ℕ → ℕ → ℕ) (z : ℕ) : List ℕ → ℕ
  | [] => z
  | k :: p => if z = 0 then 0 else follow entry (entry z k) p

variable {entry entry' : ℕ → ℕ → ℕ} {root root' : ℕ → ℕ}

theorem follow_zero (entry : ℕ → ℕ → ℕ) (p : List ℕ) : follow entry 0 p = 0 := by
  cases p with
  | nil => rfl
  | cons k p => rw [follow, if_pos rfl]

/-- The last step of a way. -/
theorem follow_concat (z : ℕ) (p : List ℕ) (k : ℕ) :
    follow entry z (p ++ [k]) =
      if follow entry z p = 0 then 0 else entry (follow entry z p) k := by
  induction p generalizing z with
  | nil => rfl
  | cons l p ih =>
    rw [List.cons_append, follow, follow]
    by_cases hz : z = 0
    · rw [if_pos hz, if_pos hz, if_pos rfl]
    · rw [if_neg hz, if_neg hz, ih]

/-- The number in a slot. -/
def value (root : ℕ → ℕ) (entry : ℕ → ℕ → ℕ) (x : ℕ × List ℕ) : ℕ := follow entry (root x.1) x.2

theorem value_root (n : ℕ) : value root entry (n, []) = root n := rfl

theorem value_concat (n : ℕ) (p : List ℕ) (k : ℕ) :
    value root entry (n, p ++ [k]) =
      if value root entry (n, p) = 0 then 0 else entry (value root entry (n, p)) k :=
  follow_concat ..

/-! ### Slots -/

/-- No node is in two of the slots. -/
def Distinct (root : ℕ → ℕ) (entry : ℕ → ℕ → ℕ) (slots : Set (ℕ × List ℕ)) : Prop :=
  ∀ x ∈ slots, ∀ y ∈ slots, value root entry x ≠ 0 → value root entry x = value root entry y → x = y

/-- With a slot, the slots on the way to it are there. -/
def Closed (slots : Set (ℕ × List ℕ)) : Prop :=
  ∀ n p k, (n, p ++ [k]) ∈ slots → (n, p) ∈ slots

variable {slots : Set (ℕ × List ℕ)}

/-- A fresh node without entries is put into an empty root. -/
theorem value_fill_root (hclosed : Closed slots) {n j : ℕ} (hempty : root n = 0)
    (hfresh : ∀ y ∈ slots, value root entry y ≠ j) (hroot : root' = Function.update root n j)
    (hentry : ∀ z, z ≠ j → entry' z = entry z) (hnew : ∀ k, entry' j k = 0) {y : ℕ × List ℕ}
    (hy : y ∈ slots) :
    value root' entry' y = if y = (n, []) then j else value root entry y := by
  obtain ⟨m, p⟩ := y
  induction p using List.reverseRecOn with
  | nil =>
    rw [value_root, value_root, hroot]
    by_cases hm : m = n
    · rw [hm, Function.update_self, if_pos rfl]
    · rw [Function.update_of_ne hm, if_neg (by simp [hm])]
  | append_singleton p k ih =>
    have hp := hclosed m p k hy
    have hne : (m, p ++ [k]) ≠ (n, []) := by simp
    rw [value_concat, value_concat, ih hp, if_neg hne]
    by_cases hx : (m, p) = (n, [])
    · have hzero : value root entry (m, p) = 0 := by
        rw [hx, value_root, hempty]
      rw [if_pos hx, hzero, if_pos rfl, hnew]
      split_ifs <;> rfl
    · rw [if_neg hx, hentry _ (hfresh _ hp)]

/-- A fresh node without entries is put into an empty entry of the node in slot `(m, p)`. -/
theorem value_fill_entry (hclosed : Closed slots) (hdistinct : Distinct root entry slots)
    {m k j : ℕ} {p : List ℕ} (hslot : (m, p) ∈ slots) (hnode : value root entry (m, p) ≠ 0)
    (hempty : entry (value root entry (m, p)) k = 0)
    (hfresh : ∀ y ∈ slots, value root entry y ≠ j)
    (hentry : ∀ z, z ≠ j → z ≠ value root entry (m, p) → entry' z = entry z)
    (hset : entry' (value root entry (m, p)) =
      Function.update (entry (value root entry (m, p))) k j)
    (hnew : ∀ k, entry' j k = 0) {y : ℕ × List ℕ} (hy : y ∈ slots) :
    value root entry' y = if y = (m, p ++ [k]) then j else value root entry y := by
  obtain ⟨n, q⟩ := y
  induction q using List.reverseRecOn with
  | nil => rw [value_root, value_root, if_neg (by simp)]
  | append_singleton q l ih =>
    have hq := hclosed n q l hy
    rw [value_concat, value_concat, ih hq]
    by_cases hx : (n, q) = (m, p ++ [k])
    · -- the slots behind the filled one are empty before and after
      have hzero : value root entry (n, q) = 0 := by
        rw [hx, value_concat, if_neg hnode, hempty]
      have hne : (n, q ++ [l]) ≠ (m, p ++ [k]) := by
        intro heq
        rw [Prod.mk.injEq] at hx heq
        have hlen := congrArg List.length heq.2
        rw [hx.2] at hlen
        simp at hlen
      rw [if_pos hx, if_neg hne, hzero, if_pos rfl, hnew]
      split_ifs <;> rfl
    · rw [if_neg hx]
      by_cases hpar : (n, q) = (m, p)
      · rw [hpar, if_neg hnode, if_neg hnode, hset]
        rw [Prod.mk.injEq] at hpar
        by_cases hl : l = k
        · rw [hl, Function.update_self, if_pos (by rw [hpar.1, hpar.2])]
        · rw [Function.update_of_ne hl, if_neg]
          rw [hpar.1, hpar.2]
          simp [hl]
      · have hne : (n, q ++ [l]) ≠ (m, p ++ [k]) := by
          intro heq
          have hparts : n = m ∧ q = p ∧ l = k := by simpa using heq
          exact hpar (by rw [hparts.1, hparts.2.1])
        rw [if_neg hne]
        by_cases hz : value root entry (n, q) = 0
        · rw [if_pos hz, if_pos hz]
        · rw [if_neg hz, if_neg hz, hentry _ (hfresh _ hq)]
          intro heq
          exact hpar (hdistinct _ hq _ hslot hz heq)

/-- A filled slot keeps the nodes distinct. -/
theorem Distinct.fill (h : Distinct root entry slots) {x : ℕ × List ℕ} {j : ℕ}
    (hfresh : ∀ y ∈ slots, value root entry y ≠ j)
    (hvalue : ∀ y ∈ slots, value root' entry' y = if y = x then j else value root entry y) :
    Distinct root' entry' slots := by
  intro y hy z hz hne heq
  rw [hvalue y hy] at hne
  rw [hvalue y hy, hvalue z hz] at heq
  by_cases hyx : y = x
  · by_cases hzx : z = x
    · rw [hyx, hzx]
    · rw [if_pos hyx, if_neg hzx] at heq
      exact absurd heq.symm (hfresh z hz)
  · rw [if_neg hyx] at heq hne
    by_cases hzx : z = x
    · rw [if_pos hzx] at heq
      exact absurd heq (hfresh y hy)
    · rw [if_neg hzx] at heq
      exact h y hy z hz hne heq

/-! ### The nodes of a tree -/

/-- The nodes that are reached from `z` by at most `d` entries with indices below `width`,
every node after those below it. -/
def nodes (entry : ℕ → ℕ → ℕ) (width : ℕ) : ℕ → ℕ → List ℕ
  | 0, z => if z = 0 then [] else [z]
  | d + 1, z =>
    if z = 0 then []
    else ((List.range width).flatMap fun k => nodes entry width d (entry z k)) ++ [z]

variable {width d z : ℕ}

/-- The ways that `nodes` takes. -/
def Short (width d : ℕ) (p : List ℕ) : Prop := p.length ≤ d ∧ ∀ k ∈ p, k < width

theorem short_cons {k : ℕ} {p : List ℕ} :
    Short width (d + 1) (k :: p) ↔ k < width ∧ Short width d p := by
  simp only [Short, List.length_cons, List.mem_cons, forall_eq_or_imp]
  constructor
  · rintro ⟨hlen, hk, hp⟩
    exact ⟨hk, by omega, hp⟩
  · rintro ⟨hk, hlen, hp⟩
    exact ⟨by omega, hk, hp⟩

theorem mem_nodes {w : ℕ} :
    w ∈ nodes entry width d z ↔ w ≠ 0 ∧ ∃ p, Short width d p ∧ follow entry z p = w := by
  induction d generalizing z with
  | zero =>
    by_cases hz : z = 0
    · rw [nodes, if_pos hz, hz]
      simp only [List.not_mem_nil, false_iff, not_and, not_exists]
      intro hw p _ hfollow
      exact hw (hfollow.symm.trans (follow_zero entry p))
    · rw [nodes, if_neg hz, List.mem_singleton]
      constructor
      · rintro rfl
        exact ⟨hz, [], ⟨Nat.le_refl _, by simp⟩, rfl⟩
      · rintro ⟨-, p, ⟨hlen, -⟩, rfl⟩
        rw [List.eq_nil_of_length_eq_zero (Nat.le_zero.mp hlen), follow]
  | succ d ih =>
    by_cases hz : z = 0
    · rw [nodes, if_pos hz, hz]
      simp only [List.not_mem_nil, false_iff, not_and, not_exists]
      intro hw p _ hfollow
      exact hw (hfollow.symm.trans (follow_zero entry p))
    · rw [nodes, if_neg hz, List.mem_append, List.mem_flatMap, List.mem_singleton]
      constructor
      · rintro (⟨k, hk, hw⟩ | rfl)
        · obtain ⟨hne, p, hp, hfollow⟩ := ih.mp hw
          refine ⟨hne, k :: p, short_cons.mpr ⟨List.mem_range.mp hk, hp⟩, ?_⟩
          rw [follow, if_neg hz, hfollow]
        · exact ⟨hz, [], ⟨Nat.zero_le _, by simp⟩, rfl⟩
      · rintro ⟨hne, p, hp, hfollow⟩
        cases p with
        | nil => exact Or.inr hfollow.symm
        | cons k p =>
          obtain ⟨hk, hp⟩ := short_cons.mp hp
          rw [follow, if_neg hz] at hfollow
          exact Or.inl ⟨k, List.mem_range.mpr hk, ih.mpr ⟨hne, p, hp, hfollow⟩⟩

/-- The nodes of a tree depend on the entries of its nodes only. -/
theorem nodes_congr (h : ∀ w ∈ nodes entry width d z, entry' w = entry w) :
    nodes entry' width d z = nodes entry width d z := by
  induction d generalizing z with
  | zero => rfl
  | succ d ih =>
    by_cases hz : z = 0
    · rw [nodes, nodes, if_pos hz, if_pos hz]
    · rw [nodes, if_neg hz] at h
      have hself : entry' z = entry z := h z (List.mem_append_right _ (List.mem_singleton.mpr rfl))
      rw [nodes, nodes, if_neg hz, if_neg hz, hself]
      congr 1
      refine List.flatMap_congr fun k hk => ih fun w hw => h w ?_
      exact List.mem_append_left _ (List.mem_flatMap.mpr ⟨k, hk, hw⟩)

/-- If no two ways lead to one node, every node is listed once. -/
theorem nodup_nodes
    (h : ∀ p q, Short width d p → Short width d q → follow entry z p ≠ 0 →
      follow entry z p = follow entry z q → p = q) : (nodes entry width d z).Nodup := by
  induction d generalizing z with
  | zero =>
    rw [nodes]
    split_ifs <;> simp
  | succ d ih =>
    rw [nodes]
    split_ifs with hz
    · exact List.nodup_nil
    · have hstep (k : ℕ) (p : List ℕ) : follow entry z (k :: p) = follow entry (entry z k) p := by
        rw [follow, if_neg hz]
      have hchild : ((List.range width).flatMap fun k =>
          nodes entry width d (entry z k)).Nodup := by
        rw [List.nodup_flatMap]
        constructor
        · intro k hk
          refine ih fun p q hp hq hne heq => ?_
          have hkp := h (k :: p) (k :: q) (short_cons.mpr ⟨List.mem_range.mp hk, hp⟩)
            (short_cons.mpr ⟨List.mem_range.mp hk, hq⟩) (by rwa [hstep])
            (by rw [hstep, hstep, heq])
          exact (List.cons.inj hkp).2
        · refine (List.nodup_range).imp_of_mem fun {k l} hk hl hkl => ?_
          intro w hw hw'
          obtain ⟨hne, p, hp, hfollow⟩ := mem_nodes.mp hw
          obtain ⟨-, q, hq, hfollow'⟩ := mem_nodes.mp hw'
          have hkp := h (k :: p) (l :: q) (short_cons.mpr ⟨List.mem_range.mp hk, hp⟩)
            (short_cons.mpr ⟨List.mem_range.mp hl, hq⟩) (by rwa [hstep, hfollow])
            (by rw [hstep, hstep, hfollow, hfollow'])
          exact hkl (List.cons.inj hkp).1
      refine List.Nodup.append hchild (List.nodup_singleton z) ?_
      intro w hw hwz
      obtain ⟨k, hk, hw⟩ := List.mem_flatMap.mp hw
      obtain ⟨hne, p, hp, hfollow⟩ := mem_nodes.mp hw
      rw [List.mem_singleton] at hwz
      have hkp := h (k :: p) [] (short_cons.mpr ⟨List.mem_range.mp hk, hp⟩)
        ⟨Nat.zero_le _, by simp⟩ (by rwa [hstep, hfollow]) (by rw [hstep, hfollow, hwz, follow])
      exact List.cons_ne_nil _ _ hkp

end LihaLinux.IndexTree
