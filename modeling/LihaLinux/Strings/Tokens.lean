import LihaLinux.Lib.Processor

/-!
# Tokens

The tokens of a string are its maximal runs without delimiters. They are found from the left: the
delimiters before a token, the token, and the delimiter behind it.
-/

namespace LihaLinux.Strings

/-! ### Maximal runs -/

/-- A maximal run of indices below `len` without marks, from `i` up to `j`. -/
structure MaxRun (mark : ℕ → Prop) (len i j : ℕ) : Prop where
  lt : i < j
  le : j ≤ len
  free : ∀ k, i ≤ k → k < j → ¬mark k
  start : i = 0 ∨ mark (i - 1)
  stop : j = len ∨ mark j

section MaxRun

variable {mark mark' : ℕ → Prop} {len i j p q : ℕ}

/-- Without an index that has no mark there is no run. -/
theorem not_maxRun (h : ∀ k < len, mark k) : ¬MaxRun mark len i j := by
  intro hrun
  have hlt := hrun.lt
  have hle := hrun.le
  exact hrun.free i (Nat.le_refl i) hrun.lt (h i (by omega))

/-- The only run, which goes up to the end. -/
theorem maxRun_last_iff (hpq : p < q) (hmark : ∀ k < p, mark k)
    (hfree : ∀ k, p ≤ k → k < q → ¬mark k) : MaxRun mark q i j ↔ i = p ∧ j = q := by
  constructor
  · intro hrun
    have hlt := hrun.lt
    have hle := hrun.le
    have hpi : p ≤ i := by
      by_contra hip
      exact hrun.free i (Nat.le_refl i) hlt (hmark i (by omega))
    have hip : i = p := by
      rcases hrun.start with hzero | hbefore
      · omega
      · by_contra hne
        exact hfree (i - 1) (by omega) (by omega) hbefore
    have hjq : j = q := by
      rcases hrun.stop with hend | hafter
      · exact hend
      · by_contra hne
        exact hfree j (by omega) (by omega) hafter
    exact ⟨hip, hjq⟩
  · rintro ⟨rfl, rfl⟩
    refine ⟨hpq, Nat.le_refl j, hfree, ?_, Or.inl rfl⟩
    rcases Nat.eq_zero_or_pos i with hzero | hpos
    · exact Or.inl hzero
    · exact Or.inr (hmark (i - 1) (by omega))

/-- The first run, and the runs behind the mark that ends it. -/
theorem maxRun_cons_iff (hpq : p < q) (hmark : ∀ k < p, mark k)
    (hfree : ∀ k, p ≤ k → k < q → ¬mark k) (hq : mark q)
    (hrest : ∀ k, mark (q + 1 + k) ↔ mark' k) :
    MaxRun mark (q + 1 + len) i j ↔ i = p ∧ j = q ∨
      ∃ i' j', MaxRun mark' len i' j' ∧ i = q + 1 + i' ∧ j = q + 1 + j' := by
  constructor
  · intro hrun
    have hlt := hrun.lt
    have hle := hrun.le
    have hpi : p ≤ i := by
      by_contra hip
      exact hrun.free i (Nat.le_refl i) hlt (hmark i (by omega))
    rcases Nat.lt_or_ge i q with hiq | hqi
    · left
      have hip : i = p := by
        rcases hrun.start with hzero | hbefore
        · omega
        · by_contra hne
          exact hfree (i - 1) (by omega) (by omega) hbefore
      have hjq : j ≤ q := by
        by_contra hqj
        exact hrun.free q (by omega) (by omega) hq
      refine ⟨hip, ?_⟩
      rcases hrun.stop with hend | hafter
      · omega
      · by_contra hne
        exact hfree j (by omega) (by omega) hafter
    · right
      have hne : i ≠ q := by
        rintro rfl
        exact hrun.free i (Nat.le_refl i) hlt hq
      obtain ⟨i', rfl⟩ : ∃ i', i = q + 1 + i' := ⟨i - (q + 1), by omega⟩
      obtain ⟨j', rfl⟩ : ∃ j', j = q + 1 + j' := ⟨j - (q + 1), by omega⟩
      refine ⟨i', j', ⟨by omega, by omega, fun k hik hkj => ?_, ?_, ?_⟩, rfl, rfl⟩
      · rw [← hrest]
        exact hrun.free _ (by omega) (by omega)
      · rcases Nat.eq_zero_or_pos i' with hzero | hpos
        · exact Or.inl hzero
        · right
          rw [← hrest]
          have hbefore := hrun.start.resolve_left (by omega)
          have hsame : q + 1 + i' - 1 = q + 1 + (i' - 1) := by omega
          rwa [hsame] at hbefore
      · rcases hrun.stop with hend | hafter
        · exact Or.inl (by omega)
        · exact Or.inr ((hrest j').mp hafter)
  · rintro (⟨rfl, rfl⟩ | ⟨i', j', hrun, rfl, rfl⟩)
    · refine ⟨hpq, by omega, hfree, ?_, Or.inr hq⟩
      rcases Nat.eq_zero_or_pos i with hzero | hpos
      · exact Or.inl hzero
      · exact Or.inr (hmark (i - 1) (by omega))
    · have hlt := hrun.lt
      have hle := hrun.le
      refine ⟨by omega, by omega, fun k hik hkj => ?_, ?_, ?_⟩
      · obtain ⟨k', rfl⟩ : ∃ k', k = q + 1 + k' := ⟨k - (q + 1), by omega⟩
        rw [hrest]
        exact hrun.free k' (by omega) (by omega)
      · right
        rcases hrun.start with rfl | hbefore
        · exact hq
        · rcases Nat.eq_zero_or_pos i' with rfl | hpos
          · exact hq
          · have hsame : q + 1 + i' - 1 = q + 1 + (i' - 1) := by omega
            rw [hsame, hrest]
            exact hbefore
      · rcases hrun.stop with hend | hafter
        · exact Or.inl (by omega)
        · exact Or.inr ((hrest j').mpr hafter)

end MaxRun

/-! ### Strings -/

/-- A position of a string with a delimiter. -/
def DelimAt (d l : List (BitVec 8)) (k : ℕ) : Prop := ∃ b ∈ d, l[k]? = some b

/-- A token of a string, from `i` up to `j`. -/
def IsToken (d l : List (BitVec 8)) (i j : ℕ) : Prop := MaxRun (DelimAt d l) l.length i j

section Tokens

variable {d l u t v : List (BitVec 8)} {x : BitVec 8} {i j k : ℕ}

/-- A string has only delimiters, or a first token behind delimiters. -/
theorem split_token (d l : List (BitVec 8)) : (∀ b ∈ l, b ∈ d) ∨
    ∃ u t v, l = u ++ (t ++ v) ∧ (∀ b ∈ u, b ∈ d) ∧ t ≠ [] ∧ (∀ b ∈ t, b ∉ d) ∧
      ∀ b ∈ v.head?, b ∈ d := by
  induction l with
  | nil => exact Or.inl fun b hb => absurd hb List.not_mem_nil
  | cons b l ih =>
    by_cases hb : b ∈ d
    · rcases ih with hall | ⟨u, t, v, rfl, hu, hne, ht, hv⟩
      · left
        intro y hy
        rcases List.mem_cons.mp hy with rfl | hy
        · exact hb
        · exact hall y hy
      · right
        refine ⟨b :: u, t, v, rfl, fun y hy => ?_, hne, ht, hv⟩
        rcases List.mem_cons.mp hy with rfl | hy
        · exact hb
        · exact hu y hy
    · right
      refine ⟨[], b :: l.takeWhile fun y => y ∉ d, l.dropWhile fun y => y ∉ d, ?_,
        fun y hy => absurd hy List.not_mem_nil, List.cons_ne_nil _ _, fun y hy => ?_,
        fun y hy => ?_⟩
      · rw [List.nil_append, List.cons_append, List.takeWhile_append_dropWhile]
      · rcases List.mem_cons.mp hy with rfl | hy
        · exact hb
        · simpa using List.mem_takeWhile_imp hy
      · have hstop := List.head?_dropWhile_not (fun y => decide (y ∉ d)) l
        rw [Option.mem_def.mp hy] at hstop
        simpa using hstop

theorem delimAt_of_lt (hu : ∀ b ∈ u, b ∈ d) (hk : k < u.length) : DelimAt d (u ++ v) k := by
  refine ⟨u[k], hu _ (List.getElem_mem hk), ?_⟩
  rw [List.getElem?_append_left hk, List.getElem?_eq_getElem hk]

theorem not_delimAt (ht : ∀ b ∈ t, b ∉ d) (hlow : u.length ≤ k)
    (hhigh : k < u.length + t.length) : ¬DelimAt d (u ++ (t ++ v)) k := by
  rintro ⟨b, hb, hk⟩
  rw [List.getElem?_append_right hlow, List.getElem?_append_left (by omega)] at hk
  exact ht b (List.mem_of_getElem? hk) hb

theorem delimAt_add (k : ℕ) :
    DelimAt d (u ++ (t ++ x :: v)) (u.length + t.length + 1 + k) ↔ DelimAt d v k := by
  have hsame : (u ++ (t ++ x :: v))[u.length + t.length + 1 + k]? = v[k]? := by
    rw [List.getElem?_append_right (by omega), List.getElem?_append_right (by omega)]
    have hindex : u.length + t.length + 1 + k - u.length - t.length = k + 1 := by omega
    rw [hindex, List.getElem?_cons_succ]
  rw [DelimAt, DelimAt, hsame]

theorem delimAt_stop (hx : x ∈ d) :
    DelimAt d (u ++ (t ++ x :: v)) (u.length + t.length) := by
  refine ⟨x, hx, ?_⟩
  rw [List.getElem?_append_right (by omega), List.getElem?_append_right (by omega)]
  simp

/-- A string of delimiters has no token. -/
theorem not_isToken (h : ∀ b ∈ l, b ∈ d) : ¬IsToken d l i j := by
  apply not_maxRun
  intro k hk
  rw [← List.append_nil l]
  exact delimAt_of_lt h hk

/-- The token at the end of a string. -/
theorem isToken_last_iff (hu : ∀ b ∈ u, b ∈ d) (hne : t ≠ []) (ht : ∀ b ∈ t, b ∉ d) :
    IsToken d (u ++ (t ++ [])) i j ↔ i = u.length ∧ j = u.length + t.length := by
  have hpos := List.length_pos_iff.mpr hne
  rw [IsToken, List.append_nil, List.length_append]
  apply maxRun_last_iff (by omega)
  · intro k hk
    exact delimAt_of_lt hu hk
  · intro k hlow hhigh
    rw [← List.append_nil t]
    exact not_delimAt ht hlow hhigh

/-- The first token of a string, and the tokens behind the delimiter that ends it. -/
theorem isToken_cons_iff (hu : ∀ b ∈ u, b ∈ d) (hne : t ≠ []) (ht : ∀ b ∈ t, b ∉ d)
    (hx : x ∈ d) : IsToken d (u ++ (t ++ x :: v)) i j ↔
      i = u.length ∧ j = u.length + t.length ∨ ∃ i' j', IsToken d v i' j' ∧
        i = u.length + t.length + 1 + i' ∧ j = u.length + t.length + 1 + j' := by
  have hpos := List.length_pos_iff.mpr hne
  have hlen : (u ++ (t ++ x :: v)).length = u.length + t.length + 1 + v.length := by
    simp only [List.length_append, List.length_cons]
    omega
  rw [IsToken, hlen]
  apply maxRun_cons_iff (by omega)
  · intro k hk
    exact delimAt_of_lt hu hk
  · intro k hlow hhigh
    exact not_delimAt ht hlow hhigh
  · exact delimAt_stop hx
  · exact delimAt_add

/-- A place of a delimiter is a place of the string. -/
theorem DelimAt.lt (h : DelimAt d l k) : k < l.length := by
  obtain ⟨b, -, hb⟩ := h
  exact (List.getElem?_eq_some_iff.mp hb).1

/-! ### All tokens in order -/

/-- A run further behind. -/
def shift (k : ℕ) (run : ℕ × ℕ) : ℕ × ℕ := (k + run.1, k + run.2)

/-- The tokens of a string from the left to the right. -/
inductive Runs (d : List (BitVec 8)) : List (BitVec 8) → List (ℕ × ℕ) → Prop where
  | none {l : List (BitVec 8)} : (∀ b ∈ l, b ∈ d) → Runs d l []
  | last {u t : List (BitVec 8)} : (∀ b ∈ u, b ∈ d) → t ≠ [] → (∀ b ∈ t, b ∉ d) →
      Runs d (u ++ (t ++ [])) [(u.length, u.length + t.length)]
  | token {u t v : List (BitVec 8)} {x : BitVec 8} {runs : List (ℕ × ℕ)} : (∀ b ∈ u, b ∈ d) →
      t ≠ [] → (∀ b ∈ t, b ∉ d) → x ∈ d → Runs d v runs →
      Runs d (u ++ (t ++ x :: v)) ((u.length, u.length + t.length) ::
        runs.map (shift (u.length + t.length + 1)))

/-- Every string has its tokens. -/
theorem exists_runs (d l : List (BitVec 8)) : ∃ runs, Runs d l runs := by
  induction hlen : l.length using Nat.strong_induction_on generalizing l with
  | h len ih =>
    rcases split_token d l with hall | ⟨u, t, v, rfl, hu, hne, ht, hv⟩
    · exact ⟨[], Runs.none hall⟩
    · cases v with
      | nil => exact ⟨_, Runs.last hu hne ht⟩
      | cons x v =>
        have hlt : v.length < len := by
          rw [← hlen]
          simp only [List.length_append, List.length_cons]
          omega
        obtain ⟨runs, hruns⟩ := ih v.length hlt v rfl
        exact ⟨_, Runs.token hu hne ht (hv x rfl) hruns⟩

/-- The tokens found are the tokens. -/
theorem Runs.mem_iff {runs : List (ℕ × ℕ)} (h : Runs d l runs) (i j : ℕ) :
    (i, j) ∈ runs ↔ IsToken d l i j := by
  induction h generalizing i j with
  | none hall =>
    constructor
    · intro hmem
      cases hmem
    · intro htoken
      exact absurd htoken (not_isToken hall)
  | last hu hne ht =>
    rw [isToken_last_iff hu hne ht, List.mem_singleton, Prod.mk.injEq]
  | token hu hne ht hx _ ih =>
    rw [isToken_cons_iff hu hne ht hx, List.mem_cons, Prod.mk.injEq, List.mem_map]
    apply or_congr Iff.rfl
    constructor
    · rintro ⟨⟨i', j'⟩, hmem, heq⟩
      cases heq
      exact ⟨i', j', (ih i' j').mp hmem, rfl, rfl⟩
    · rintro ⟨i', j', htoken, rfl, rfl⟩
      exact ⟨(i', j'), (ih i' j').mpr htoken, rfl⟩

/-- The tokens found are in order. -/
theorem Runs.pairwise {runs : List (ℕ × ℕ)} (h : Runs d l runs) :
    runs.Pairwise fun run run' => run.2 < run'.1 := by
  induction h with
  | none _ => exact List.Pairwise.nil
  | last _ _ _ => exact List.pairwise_singleton _ _
  | token _ _ _ _ _ ih =>
    apply List.Pairwise.cons
    · intro run hrun
      obtain ⟨run', -, rfl⟩ := List.mem_map.mp hrun
      exact Nat.lt_of_lt_of_le (Nat.lt_succ_self _) (Nat.le_add_right _ _)
    · rw [List.pairwise_map]
      apply ih.imp
      intro run run' hlt
      exact Nat.add_lt_add_left hlt _

end Tokens

end LihaLinux.Strings
