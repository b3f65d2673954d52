import Mathlib.Data.List.Basic
import Mathlib.Logic.Function.Basic

/-!
# Doubly linked lists

Two link functions `next` and `prev` on an arbitrary type of nodes. A segment is a
list of nodes linked in both directions, with given neighbours at its two ends; a
list that ends in null links and a ring are the two special cases. The lemmas say
what the two elementary operations, unlinking a node and linking it in front of
another one, do to these lists.
-/

namespace LihaLinux

variable {α : Type*}

/-- The nodes of `l` are linked in order; the node before the first is `p`, the node
after the last is `q`. -/
def DSeg (next prev : α → Option α) : Option α → List α → Option α → Prop
  | _, [], _ => True
  | p, b :: t, q => prev b = p ∧ next b = t.head?.or q ∧ DSeg next prev (some b) t q

/-- A ring: the neighbours of the ends are the other ends. -/
def Ring (next prev : α → Option α) (l : List α) : Prop := DSeg next prev l.getLast? l l.head?

namespace DSeg

variable {next prev : α → Option α}

/-- A segment is cut in two at any place. -/
theorem append_iff {p q : Option α} {u v : List α} :
    DSeg next prev p (u ++ v) q ↔
      DSeg next prev p u (v.head?.or q) ∧ DSeg next prev (u.getLast?.or p) v q := by
  induction u generalizing p with
  | nil => simp [DSeg]
  | cons b u ih =>
    have hlast : (b :: u).getLast?.or p = u.getLast?.or (some b) := by
      rw [List.getLast?_cons]
      cases u.getLast? <;> rfl
    simp only [List.cons_append, DSeg, ih, List.head?_append, Option.or_assoc, hlast, and_assoc]

/-- The node in the middle of a segment. -/
theorem mid {p q : Option α} {u v : List α} {x : α} (h : DSeg next prev p (u ++ x :: v) q) :
    prev x = u.getLast?.or p ∧ next x = v.head?.or q := by
  obtain ⟨-, hprev, hnext, -⟩ := append_iff.mp h
  exact ⟨hprev, hnext⟩

/-- A segment depends on the links of its own nodes only. -/
theorem congr {next' prev' : α → Option α} {p q : Option α} {l : List α}
    (h : DSeg next prev p l q) (hnext : ∀ b ∈ l, next' b = next b)
    (hprev : ∀ b ∈ l, prev' b = prev b) : DSeg next' prev' p l q := by
  induction l generalizing p with
  | nil => trivial
  | cons b l ih =>
    obtain ⟨hb, hb', hl⟩ := h
    refine ⟨?_, ?_, ?_⟩
    · rw [hprev b (by simp), hb]
    · rw [hnext b (by simp), hb']
    · exact ih hl (fun c hc => hnext c (by simp [hc])) (fun c hc => hprev c (by simp [hc]))

/-- A segment under other names of its nodes. -/
theorem map {β : Type*} {next' prev' : β → Option β} (f : α → β) {p q : Option α} {l : List α}
    (h : DSeg next prev p l q) (hnext : ∀ b ∈ l, next' (f b) = (next b).map f)
    (hprev : ∀ b ∈ l, prev' (f b) = (prev b).map f) :
    DSeg next' prev' (p.map f) (l.map f) (q.map f) := by
  induction l generalizing p with
  | nil => trivial
  | cons b l ih =>
    obtain ⟨hb, hb', hl⟩ := h
    refine ⟨?_, ?_, ?_⟩
    · rw [hprev b (by simp), hb]
    · rw [hnext b (by simp), hb', List.head?_map]
      cases l.head? <;> rfl
    · exact ih hl (fun c hc => hnext c (by simp [hc])) (fun c hc => hprev c (by simp [hc]))

variable [DecidableEq α]

/-- Setting the link after the last node. -/
theorem setNext {p q : Option α} {l : List α} (h : DSeg next prev p l q) (hl : l.Nodup)
    {a : α} (ha : l.getLast? = some a) (q' : Option α) :
    DSeg (Function.update next a q') prev p l q' := by
  obtain ⟨u, rfl⟩ : ∃ u, l = u ++ [a] := by
    obtain ⟨u, hu⟩ := List.getLast?_eq_some_iff.mp ha
    exact ⟨u, hu⟩
  obtain ⟨hu, hprev, -, -⟩ := append_iff.mp h
  have hnotin : a ∉ u := by
    intro hmem
    exact (List.nodup_append.mp hl).2.2 a hmem a (by simp) rfl
  refine append_iff.mpr ⟨?_, hprev, by simp, trivial⟩
  apply hu.congr
  · intro b hb
    rw [Function.update_of_ne]
    rintro rfl
    exact hnotin hb
  · intro b _
    rfl

/-- Setting the link before the first node. -/
theorem setPrev {p q : Option α} {l : List α} (h : DSeg next prev p l q) (hl : l.Nodup)
    {a : α} (ha : l.head? = some a) (p' : Option α) :
    DSeg next (Function.update prev a p') p' l q := by
  cases l with
  | nil => simp at ha
  | cons b l =>
    simp only [List.head?_cons, Option.some.injEq] at ha
    subst b
    obtain ⟨-, hnext, hrest⟩ := h
    refine ⟨by simp, hnext, ?_⟩
    apply hrest.congr
    · intro b _
      rfl
    · intro b hb
      rw [Function.update_of_ne]
      rintro rfl
      exact (List.nodup_cons.mp hl).1 hb

end DSeg

/-! ### Unlinking and linking -/

section Operations

variable [DecidableEq α]

/-- `if (x->prev) x->prev->next = x->next`. -/
def unlinkNext (next prev : α → Option α) (x : α) : α → Option α :=
  match prev x with
  | some a => Function.update next a (next x)
  | none => next

/-- `if (x->next) x->next->prev = x->prev`. -/
def unlinkPrev (next prev : α → Option α) (x : α) : α → Option α :=
  match next x with
  | some b => Function.update prev b (prev x)
  | none => prev

/-- Links are set at the neighbours of the unlinked node only. -/
theorem unlinkNext_of_ne {next prev : α → Option α} {x b : α} (h : prev x ≠ some b) :
    unlinkNext next prev x b = next b := by
  unfold unlinkNext
  cases hx : prev x with
  | none => rfl
  | some a =>
    rw [hx] at h
    simp only
    rw [Function.update_of_ne]
    rintro rfl
    exact h rfl

theorem unlinkPrev_of_ne {next prev : α → Option α} {x b : α} (h : next x ≠ some b) :
    unlinkPrev next prev x b = prev b := by
  unfold unlinkPrev
  cases hx : next x with
  | none => rfl
  | some a =>
    rw [hx] at h
    simp only
    rw [Function.update_of_ne]
    rintro rfl
    exact h rfl

/-- A node is unlinked from the middle of a list that ends in null links. -/
theorem DSeg.unlink {next prev : α → Option α} {u v : List α} {x : α}
    (h : DSeg next prev none (u ++ x :: v) none) (hl : (u ++ x :: v).Nodup) :
    DSeg (unlinkNext next prev x) (unlinkPrev next prev x) none (u ++ v) none := by
  obtain ⟨hprev, hnext⟩ := h.mid
  obtain ⟨hu, -, -, hv⟩ := DSeg.append_iff.mp h
  simp only [Option.or_none] at hprev hnext
  have hdisj := (List.nodup_append.mp hl).2.2
  have hunodup := (List.nodup_append.mp hl).1
  have hvnodup := (List.nodup_cons.mp (List.nodup_append.mp hl).2.1).2
  refine DSeg.append_iff.mpr ⟨?_, ?_⟩
  · have hu' : DSeg (unlinkNext next prev x) prev none u v.head? := by
      unfold unlinkNext
      rw [hprev, hnext]
      cases hlast : u.getLast? with
      | none =>
        rw [List.getLast?_eq_none_iff] at hlast
        rw [hlast]
        trivial
      | some a => exact hu.setNext hunodup hlast _
    rw [Option.or_none]
    apply hu'.congr
    · intro b _
      rfl
    · intro b hb
      apply unlinkPrev_of_ne
      rw [hnext]
      intro hhead
      have hmem : b ∈ v := List.mem_of_mem_head? hhead
      exact hdisj b hb b (by simp [hmem]) rfl
  · have hv' : DSeg next (unlinkPrev next prev x) u.getLast? v none := by
      unfold unlinkPrev
      rw [hprev, hnext]
      cases hhead : v.head? with
      | none =>
        rw [List.head?_eq_none_iff] at hhead
        rw [hhead]
        trivial
      | some b => exact hv.setPrev hvnodup hhead _
    rw [Option.or_none]
    apply hv'.congr
    · intro b hb
      apply unlinkNext_of_ne
      rw [hprev]
      intro hlast
      have hmem : b ∈ u := List.mem_of_getLast? hlast
      exact hdisj b hmem b (by simp [hb]) rfl
    · intro b _
      rfl

/-- A node is linked in front of a list that ends in null links. -/
theorem DSeg.push {next prev : α → Option α} {l : List α} {x : α}
    (h : DSeg next prev none l none) (hl : (x :: l).Nodup) {next' prev' : α → Option α}
    (hnext : ∀ b ∈ l, next' b = next b) (hx : next' x = l.head?) (hx' : prev' x = none)
    (hprev : ∀ b ∈ l, prev' b = if l.head? = some b then some x else prev b) :
    DSeg next' prev' none (x :: l) none := by
  refine ⟨hx', by simpa using hx, ?_⟩
  cases l with
  | nil => trivial
  | cons a l =>
    have ha := h.setPrev (List.nodup_cons.mp hl).2 (a := a) rfl (some x)
    apply ha.congr
    · exact hnext
    · intro b hb
      rw [hprev b hb]
      by_cases hab : b = a
      · simp [hab]
      · rw [Function.update_of_ne hab, if_neg]
        simpa using fun h => hab h.symm

namespace Ring

variable {next prev : α → Option α}

omit [DecidableEq α] in
/-- A ring has no first node. -/
theorem rotate {u v : List α} (h : Ring next prev (u ++ v)) : Ring next prev (v ++ u) := by
  unfold Ring at h ⊢
  obtain ⟨hu, hv⟩ := DSeg.append_iff.mp h
  refine DSeg.append_iff.mpr ?_
  simp only [List.getLast?_append, List.head?_append] at hu hv ⊢
  cases u with
  | nil => simp_all [DSeg]
  | cons a u =>
    cases v with
    | nil => simp_all [DSeg]
    | cons b v =>
      simp only [List.getLast?_cons, List.head?_cons, Option.some_or] at hu hv ⊢
      exact ⟨hv, hu⟩

omit [DecidableEq α] in
/-- The neighbours of the first node of a ring. -/
theorem first {x : α} {w : List α} (h : Ring next prev (x :: w)) :
    prev x = w.getLast?.or (some x) ∧ next x = w.head?.or (some x) := by
  obtain ⟨hprev, hnext, -⟩ := h
  refine ⟨?_, hnext⟩
  rw [hprev, List.getLast?_cons]
  cases w.getLast? <;> rfl

/-- A node is unlinked from a ring of several nodes. -/
theorem unlink {x p n : α} {w : List α} (h : Ring next prev (x :: w)) (hl : (x :: w).Nodup)
    (hp : w.getLast? = some p) (hn : w.head? = some n) :
    Ring (Function.update next p (some n)) (Function.update prev n (some p)) w := by
  obtain ⟨-, -, hw⟩ := h
  have hnodup := (List.nodup_cons.mp hl).2
  have hend := hw.setNext hnodup hp (some n)
  have hboth := hend.setPrev hnodup hn (some p)
  unfold Ring
  rw [hp, hn]
  exact hboth

/-- A node is linked in front of the first node of a ring, that is, at its end. -/
theorem insert {f x p : α} {w : List α} (h : Ring next prev (f :: w))
    (hl : (x :: f :: w).Nodup) (hp : (f :: w).getLast? = some p) {next' prev' : α → Option α}
    (hnext : ∀ b ∈ f :: w, next' b = if b = p then some x else next b)
    (hprev : ∀ b ∈ f :: w, prev' b = if b = f then some x else prev b)
    (hx : next' x = some f) (hx' : prev' x = some p) : Ring next' prev' (f :: w ++ [x]) := by
  have hnodup := (List.nodup_cons.mp hl).2
  have hend := DSeg.setNext h hnodup hp (some x)
  have hboth := hend.setPrev hnodup (a := f) rfl (some x)
  unfold Ring
  refine DSeg.append_iff.mpr ⟨?_, ?_, ?_, trivial⟩
  · simp only [List.getLast?_concat, List.head?_cons, Option.some_or]
    apply hboth.congr
    · intro b hb
      rw [hnext b hb, Function.update_apply]
    · intro b hb
      rw [hprev b hb, Function.update_apply]
  · rw [hx', hp]
    rfl
  · rw [hx]
    rfl

end Ring

end Operations

end LihaLinux
