import Mathlib.Data.List.GetD
import Mathlib.Data.Nat.Notation

/-!
# Sequences that are read and written in pieces

A piece is fetched from a position on as far as the sequence goes. A piece that is stored replaces
what it covers, makes the sequence longer where it has to, and a gap in front of it is filled. What
is fetched or stored in two pieces is what is fetched or stored at once.
-/

namespace LihaLinux.Extents

variable {α : Type*}

/-- What is read from position `pos` on, at most `count` elements. -/
def fetch (l : List α) (pos count : ℕ) : List α := (l.drop pos).take count

/-- A sequence with `buf` stored from position `pos` on; gaps are filled with `z`. Nothing is
stored for an empty piece. -/
def store (z : α) (l : List α) (pos : ℕ) (buf : List α) : List α :=
  if buf = [] then l else (l.rightpad pos z).take pos ++ buf ++ l.drop (pos + buf.length)

variable {z : α} {l l' buf : List α} {pos : ℕ}

/-- A piece that is fetched in two steps. -/
theorem fetch_add (l : List α) (pos m n : ℕ) :
    fetch l pos (m + n) = fetch l pos m ++ fetch l (pos + m) n := by
  rw [fetch, fetch, fetch, List.take_add, List.drop_drop]

/-- The elements of a piece that lies in the sequence. -/
theorem fetch_eq (z : α) {count : ℕ} (h : pos + count ≤ l.length) :
    fetch l pos count = (List.range count).map fun j => l.getD (pos + j) z := by
  apply List.ext_getElem
  · rw [fetch, List.length_take, List.length_drop, List.length_map, List.length_range]
    omega
  · intro j hj _
    rw [fetch, List.length_take, List.length_drop] at hj
    simp only [fetch, List.getElem_take, List.getElem_drop, List.getElem_map, List.getElem_range]
    rw [List.getD_eq_getElem _ _ (by omega)]

@[simp]
theorem store_nil : store z l pos [] = l := if_pos rfl

theorem length_store (h : buf ≠ []) :
    (store z l pos buf).length = max l.length (pos + buf.length) := by
  rw [store, if_neg h, List.length_append, List.length_append, List.length_take,
    List.length_drop, List.length_rightpad]
  omega

/-- The elements of the piece that was stored, and those around it. -/
theorem getD_store (h : buf ≠ []) (n : ℕ) :
    (store z l pos buf).getD n z =
      if pos ≤ n ∧ n < pos + buf.length then buf.getD (n - pos) z else l.getD n z := by
  have hpad : ((l.rightpad pos z).take pos).length = pos := by
    rw [List.length_take, List.length_rightpad]
    omega
  rw [store, if_neg h, List.append_assoc]
  rcases Nat.lt_or_ge n pos with hbefore | hge
  · rw [List.getD_append _ _ _ _ (by rw [hpad]; exact hbefore), if_neg (by omega)]
    simp only [List.getD_eq_getElem?_getD]
    rw [List.getElem?_take_of_lt hbefore, List.rightpad]
    rcases Nat.lt_or_ge n l.length with hin | hout
    · rw [List.getElem?_append_left hin]
    · rw [List.getElem?_append_right hout, List.getElem?_eq_none hout, List.getElem?_replicate,
        if_pos (by omega)]
      rfl
  · rw [List.getD_append_right _ _ _ _ (by rw [hpad]; exact hge), hpad]
    rcases Nat.lt_or_ge n (pos + buf.length) with hin | hbehind
    · rw [List.getD_append _ _ _ _ (by omega), if_pos ⟨hge, hin⟩]
    · rw [List.getD_append_right _ _ _ _ (by omega), if_neg (by omega)]
      simp only [List.getD_eq_getElem?_getD, List.getElem?_drop]
      congr 2
      omega

/-- A sequence is known by its length and its elements. -/
theorem eq_of_getD (z : α) (hlen : l.length = l'.length)
    (h : ∀ n < l.length, l.getD n z = l'.getD n z) : l = l' := by
  apply List.ext_getElem hlen
  intro n hn hn'
  have hget := h n hn
  rwa [List.getD_eq_getElem _ _ hn, List.getD_eq_getElem _ _ hn'] at hget

/-- A piece that is stored in two steps. -/
theorem store_append (xs ys : List α) :
    store z (store z l pos xs) (pos + xs.length) ys = store z l pos (xs ++ ys) := by
  by_cases hx : xs = []
  · rw [hx, store_nil, List.length_nil, Nat.add_zero, List.nil_append]
  · by_cases hy : ys = []
    · rw [hy, store_nil, List.append_nil]
    · have hxy : xs ++ ys ≠ [] := by simp [hx]
      apply eq_of_getD z
      · rw [length_store hy, length_store hx, length_store hxy, List.length_append]
        omega
      · intro n _
        rw [getD_store hy, getD_store hx, getD_store hxy, List.length_append]
        by_cases hsecond : pos + xs.length ≤ n ∧ n < pos + xs.length + ys.length
        · rw [if_pos hsecond, if_pos (by omega), List.getD_append_right _ _ _ _ (by omega),
            Nat.sub_sub]
        · rw [if_neg hsecond]
          by_cases hfirst : pos ≤ n ∧ n < pos + xs.length
          · rw [if_pos hfirst, if_pos (by omega), List.getD_append _ _ _ _ (by omega)]
          · rw [if_neg hfirst, if_neg (by omega)]

end LihaLinux.Extents
