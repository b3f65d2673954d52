import LihaLinux.Lib.Bytes
import LihaLinux.Mm.ExecArgs
import LihaLinux.Mm.FreeFrames
import LihaLinux.Mm.TaskSteps

/-!
# The pages of the arguments

`copy_strings` puts the strings of a table one behind the other, from the end of the argument pages
downwards. The pages come from the free pages, and each is taken when the first byte is put on it.
-/

namespace LihaLinux.Mm

variable {lo hi n : ℕ} {k : Kernel} {held : Finset ℕ} {fs : ℕ → BitVec 8}

/-! ### The arguments of the caller -/

/-- A string with the zero at its end. -/
def cString (str : List (BitVec 8)) : List (BitVec 8) := str ++ [0]

/-- Strings one behind the other. -/
def packed (strs : List (List (BitVec 8))) : List (BitVec 8) := strs.flatMap cString

theorem packed_concat (strs : List (List (BitVec 8))) (str : List (BitVec 8)) :
    packed (strs ++ [str]) = packed strs ++ cString str := by
  simp [packed]

/-- A string in the memory of the caller. -/
structure HasString (fs : ℕ → BitVec 8) (a : ℕ) (str : List (BitVec 8)) : Prop where
  stored : Stored (fun x => some (fs x)) a (cString str)
  ne_zero : ∀ b ∈ str, b ≠ 0

/-- The strings of a table in a memory `tab`; they may lie in another memory `fs`. -/
def HasStrings (tab fs : ℕ → BitVec 8) (argv : ℕ) (strs : List (List (BitVec 8))) : Prop :=
  ∀ i str, strs[i]? = some str →
    getFsLong tab (argv + 4 * i) ≠ 0 ∧ HasString fs (getFsLong tab (argv + 4 * i)) str

/-- A table in the memory of the caller, or no table. -/
def HasTable (fs : ℕ → BitVec 8) (argv : ℕ) (strs : List (List (BitVec 8))) : Prop :=
  HasStrings fs fs argv strs ∧
    (argv = 0 ∧ strs = [] ∨ argv ≠ 0 ∧ getFsLong fs (argv + 4 * strs.length) = 0)

theorem countLoop_eq {argv i m : ℕ} {strs : List (List (BitVec 8))}
    (h : HasStrings fs fs argv strs) (hend : getFsLong fs (argv + 4 * strs.length) = 0)
    (hi : i + m = strs.length) {fuel : ℕ} (hfuel : m < fuel) :
    countLoop fs fuel (argv + 4 * i) = some m := by
  induction m generalizing i fuel with
  | zero =>
    obtain ⟨fuel, rfl⟩ := Nat.exists_eq_add_of_lt hfuel
    obtain rfl : i = strs.length := by omega
    rw [countLoop, if_pos hend]
  | succ m ih =>
    obtain ⟨fuel, rfl⟩ : ∃ f, fuel = f + 1 := ⟨fuel - 1, by omega⟩
    have hne := (h i strs[i] (List.getElem?_eq_getElem (by omega))).1
    have hrest := ih (i := i + 1) (by omega) (by omega : m < fuel)
    rw [countLoop, if_neg hne, show argv + 4 * i + 4 = argv + 4 * (i + 1) by omega, hrest]
    rfl

/-- `count` returns the length of the table. -/
theorem count_eq {argv : ℕ} {strs : List (List (BitVec 8))} (h : HasTable fs argv strs)
    (hlen : strs.length < 2 ^ 30) : count fs argv = some strs.length := by
  obtain ⟨hstrs, ⟨rfl, rfl⟩ | ⟨hne, hend⟩⟩ := h
  · rfl
  · rw [count, if_neg hne]
    exact countLoop_eq (i := 0) hstrs hend (Nat.zero_add _) hlen

theorem strLen_eq {a : ℕ} {str : List (BitVec 8)} (h : HasString fs a str) {fuel : ℕ}
    (hfuel : str.length < fuel) : strLen fs fuel a = some (cString str).length := by
  obtain ⟨hstored, hne⟩ := h
  induction str generalizing a fuel with
  | nil =>
    obtain ⟨fuel, rfl⟩ : ∃ f, fuel = f + 1 := ⟨fuel - 1, by omega⟩
    have hzero : fs a = 0 := Option.some.inj hstored.1
    rw [strLen, if_pos hzero]
    rfl
  | cons b str ih =>
    rw [List.length_cons] at hfuel
    obtain ⟨fuel, rfl⟩ : ∃ f, fuel = f + 1 := ⟨fuel - 1, by omega⟩
    have hb : fs a = b := Option.some.inj hstored.1
    have hrest : strLen fs fuel (a + 1) = some (cString str).length :=
      ih (by omega) hstored.2 fun c hc => hne c (by simp [hc])
    rw [strLen, if_neg (by rw [hb]; exact hne b (by simp)), hrest]
    rfl

/-! ### The argument pages -/

/-- The byte for an address of the argument pages. -/
def ArgCopy.byteAt (c : ArgCopy) (q : ℕ) : Option (BitVec 8) :=
  (c.page (q / 4096)).map fun f => c.mm.byte f (q % 4096)

/-- The number of argument pages that are not there yet. -/
def pagesNeeded (page : ℕ → Option ℕ) : ℕ :=
  ((Finset.range maxArgPages).filter fun i => page i = none).card

/-- The state of `copy_strings`: its pages are pages of the kernel, and the memory of the tasks is
as it was. If there is enough memory, there are free pages for the other argument pages. -/
structure Copying (enough : Prop) (lo hi n : ℕ) (k : Kernel) (held : Finset ℕ) (c : ArgCopy) :
    Prop where
  inv : Inv lo hi ⟨c.mm, held⟩
  isolated : c.mm.Private
  same : Untouched k.mm c.mm
  held_subset : k.held ⊆ held
  mem_held : ∀ i f, c.page i = some f → f ∈ held
  inj : ∀ i j f, c.page i = some f → c.page j = some f → i = j
  free : enough → c.mm.Free (pagesNeeded c.page + n)
  p_le : c.p ≤ 4096 * maxArgPages - 4

/-- `pag` and `offset` belong to `p`. -/
def ArgCopy.Placed (c : ArgCopy) : Prop :=
  c.offset = (c.p % 4096 : ℕ) ∧ c.page (c.p / 4096) = some c.pag

/-- Nothing is lost of what lies in the argument pages from an address on. -/
def ArgCopy.Keeps (c c' : ArgCopy) (p : ℕ) : Prop :=
  ∀ q b, p ≤ q → c.byteAt q = some b → c'.byteAt q = some b

variable {c : ArgCopy} {s s' s'' : State} {enough : Prop}

/-- `copy_strings` has gone on to a state with a property, or it has returned 0 because there was
not enough memory. -/
def GoesOn (enough : Prop) (Q : ArgCopy → Prop) (r : Except ExecError ArgCopy) : Prop :=
  (∃ c, r = .ok c ∧ Q c) ∨ ¬enough ∧ ∃ c, r = .error (.noMemory c)

theorem GoesOn.bind {Q R : ArgCopy → Prop} {r : Except ExecError ArgCopy}
    {f : ArgCopy → Except ExecError ArgCopy} (h : GoesOn enough Q r)
    (hf : ∀ c, Q c → GoesOn enough R (f c)) : GoesOn enough R (r.bind f) := by
  rcases h with ⟨c, rfl, hc⟩ | ⟨hnot, c, rfl⟩
  · exact hf c hc
  · exact Or.inr ⟨hnot, c, rfl⟩

theorem GoesOn.mono {Q R : ArgCopy → Prop} {r : Except ExecError ArgCopy} (h : GoesOn enough Q r)
    (hQ : ∀ c, Q c → R c) : GoesOn enough R r := by
  rcases h with ⟨c, hr, hc⟩ | hnot
  · exact Or.inl ⟨c, hr, hQ c hc⟩
  · exact Or.inr hnot

theorem GoesOn.ok {Q : ArgCopy → Prop} {r : Except ExecError ArgCopy} (h : GoesOn enough Q r)
    (henough : enough) : ∃ c, r = .ok c ∧ Q c := by
  rcases h with hok | ⟨hnot, -⟩
  · exact hok
  · exact absurd henough hnot

theorem Untouched.trans (h : Untouched s s') (h' : Untouched s' s'') : Untouched s s'' := by
  refine ⟨h'.entry.trans h.entry, h'.table.trans h.table, fun g hg => ?_⟩
  obtain ⟨d, j, w, hw, hframe⟩ := hg
  rw [h'.data g ⟨d, j, w, by rw [h.entry, hw], hframe⟩, h.data g ⟨d, j, w, hw, hframe⟩]

/-- A page of the kernel is filled. -/
theorem Inv.untouched_fill (h : Inv lo hi ⟨s, held⟩) {f : ℕ} (hf : f ∈ held)
    (content : ℕ → Word) : Untouched s (s.setPage f content) := by
  obtain ⟨htable, hentry⟩ := State.table_entry_setPage (h.held_ge_two hf).1 (h.held_ne_table hf)
    content
  refine ⟨hentry, htable, fun g hg => State.mem_setPage_of_ne _ ?_ _⟩
  rintro rfl
  exact h.held_not_mapped hf hg

theorem pagesNeeded_update {page : ℕ → Option ℕ} {i f : ℕ} (hi : i < maxArgPages)
    (hnone : page i = none) :
    pagesNeeded page = pagesNeeded (Function.update page i (some f)) + 1 := by
  have hmem : i ∈ (Finset.range maxArgPages).filter fun j => page j = none :=
    Finset.mem_filter.mpr ⟨Finset.mem_range.mpr hi, hnone⟩
  have herase : ((Finset.range maxArgPages).filter fun j =>
      Function.update page i (some f) j = none) =
        ((Finset.range maxArgPages).filter fun j => page j = none).erase i := by
    ext j
    by_cases hj : j = i
    · subst hj
      simp
    · simp [hj]
  rw [pagesNeeded, pagesNeeded, herase, Finset.card_erase_of_mem hmem]
  have := Finset.card_pos.mpr ⟨i, hmem⟩
  omega

/-- The page of `p` is there, or it is taken. -/
theorem Copying.getPag (h : Copying enough lo hi n k held c) :
    (∃ c' held', c.getPag = some c' ∧ Copying enough lo hi n k held' c' ∧ c'.p = c.p ∧
      c'.offset = c.offset ∧ c'.fs = c.fs ∧ c'.page (c.p / 4096) = some c'.pag ∧
      c.Keeps c' 0) ∨ ¬enough ∧ c.getPag = none := by
  have hp := h.p_le
  rw [ArgCopy.getPag]
  cases hpage : c.page (c.p / 4096) with
  | some f =>
    exact Or.inl ⟨_, held, rfl, ⟨h.inv, h.isolated, h.same, h.held_subset, h.mem_held, h.inj,
      h.free, h.p_le⟩, rfl, rfl, rfl, hpage, fun q b _ hb => hb⟩
  | none =>
    have hi : c.p / 4096 < maxArgPages := by
      simp only [maxArgPages] at *
      omega
    have hfree := h.free
    rw [pagesNeeded_update (f := 0) hi hpage, Nat.add_right_comm] at hfree
    rcases hget : getFreePage c.mm with _ | ⟨f, s'⟩
    · refine Or.inr ⟨fun henough => ?_, rfl⟩
      obtain ⟨f, s', hsome, -⟩ := (hfree henough).getFreePage
      rw [hget] at hsome
      cases hsome
    left
    have hfree' : enough →
        s'.Free (pagesNeeded (Function.update c.page (c.p / 4096) (some 0)) + n) :=
      fun henough => (State.Free.getFreePage_iff hget).mpr (hfree henough)
    obtain ⟨hmove, -, hheld, -, -, -, -, -, hmem⟩ := getFreePage_spec h.inv hget
    have hfresh : ∀ j g, c.page j = some g → g ≠ f := fun j g hg hgf =>
      hheld (hgf ▸ h.mem_held j g hg)
    have hneed : pagesNeeded (Function.update c.page (c.p / 4096) (some 0)) =
        pagesNeeded (Function.update c.page (c.p / 4096) (some f)) := by
      have h0 := pagesNeeded_update (f := 0) hi hpage
      have h1 := pagesNeeded_update (f := f) hi hpage
      omega
    have hself : ∀ {g}, (c.addPage f s').page (c.p / 4096) = some g → g = f := fun hg =>
      Option.some.inj (hg.symm.trans (Function.update_self ..))
    have hold : ∀ {j g}, j ≠ c.p / 4096 → (c.addPage f s').page j = some g → c.page j = some g :=
      fun hj hg => (Function.update_of_ne hj ..).symm.trans hg
    refine ⟨c.addPage f s', insert f held, rfl, ⟨hmove.inv h.inv,
      hmove.private h.inv h.isolated, h.same.trans (untouched_of_getFreePage h.inv hget),
      h.held_subset.trans (Finset.subset_insert ..), fun j g hg => ?_, fun j j' g hg hg' => ?_, ?_,
      h.p_le⟩, rfl, rfl, rfl, Function.update_self .., fun q b _ hb => ?_⟩
    · by_cases hj : j = c.p / 4096
      · rw [hj] at hg
        rw [hself hg]
        exact Finset.mem_insert_self ..
      · exact Finset.mem_insert_of_mem (h.mem_held j g (hold hj hg))
    · by_cases hj : j = c.p / 4096 <;> by_cases hj' : j' = c.p / 4096
      · rw [hj, hj']
      · rw [hj] at hg
        exact absurd (hself hg) (hfresh j' g (hold hj' hg'))
      · rw [hj'] at hg'
        exact absurd (hself hg') (hfresh j g (hold hj hg))
      · exact h.inj j j' g (hold hj hg) (hold hj' hg')
    · have hpage' : (c.addPage f s').page = Function.update c.page (c.p / 4096) (some f) := rfl
      rw [hpage', ← hneed]
      exact hfree'
    · obtain ⟨g, hg, rfl⟩ := Option.map_eq_some_iff.mp hb
      have hq : q / 4096 ≠ c.p / 4096 := fun hq => by simp [hq, hpage] at hg
      have hg' : Function.update c.page (c.p / 4096) (some f) (q / 4096) = some g := by
        rw [Function.update_of_ne hq, hg]
      rw [ArgCopy.byteAt]
      simp only [ArgCopy.addPage, hg', Option.map_some, State.byte, hmem g (hfresh _ g hg)]

/-- `copy_strings` changes nothing of this by what it does to `fs` and `offset`. -/
theorem Copying.moveTo (h : Copying enough lo hi n k held c) {c' : ArgCopy} (hmm : c'.mm = c.mm)
    (hpage : c'.page = c.page) (hp : c'.p ≤ 4096 * maxArgPages - 4) :
    Copying enough lo hi n k held c' := by
  constructor
  · rw [hmm]
    exact h.inv
  · rw [hmm]
    exact h.isolated
  · rw [hmm]
    exact h.same
  · exact h.held_subset
  · rw [hpage]
    exact h.mem_held
  · rw [hpage]
    exact h.inj
  · rw [hmm, hpage]
    exact h.free
  · exact hp

/-- `--p`: afterwards `pag` and `offset` belong to the new `p`. -/
theorem Copying.stepBack (h : Copying enough lo hi n k held c) {fromKmem : ℕ} (oldFs : Seg)
    (hfs : fromKmem = 2 → c.fs = .kernel) (hpos : 0 < c.p) (hrun : c.offset = 0 ∨ c.Placed) :
    GoesOn enough (fun c' => ∃ held', Copying enough lo hi n k held' c' ∧
      c'.p = c.p - 1 ∧ c'.fs = c.fs ∧ c'.Placed ∧ c.Keeps c' 0) (c.stepBack fromKmem oldFs) := by
  have hp := h.p_le
  have hsub : sub32 c.p 1 = c.p - 1 := by
    simp only [maxArgPages] at hp
    rw [sub32]
    omega
  have hle : c.p - 1 ≤ 4096 * maxArgPages - 4 := by omega
  rw [ArgCopy.stepBack, hsub]
  by_cases hneg : c.offset - 1 < 0
  · have hback : Copying enough lo hi n k held
        (ArgCopy.setFsIf fromKmem 2 oldFs { c with
          p := c.p - 1, offset := ((c.p - 1) % 4096 : ℕ), used := (c.p - 1) / 4096 :: c.used }) :=
      h.moveTo rfl rfl hle
    simp only [if_pos hneg]
    rcases hback.getPag with ⟨c', held', hget, hc', hp', hoff, hseg, hpag, hkeep⟩ | ⟨hnot, hget⟩
    swap
    · rw [hget]
      exact Or.inr ⟨hnot, _, rfl⟩
    rw [hget]
    refine Or.inl ⟨c'.setFsIf fromKmem 2 .kernel, rfl, held', hc'.moveTo rfl rfl hc'.p_le, hp', ?_,
      ⟨?_, ?_⟩, hkeep⟩
    · change (if fromKmem = 2 then Seg.kernel else c'.fs) = c.fs
      split_ifs with htwo
      · exact (hfs htwo).symm
      · rw [hseg]
        exact if_neg htwo
    · change c'.offset = (c'.p % 4096 : ℕ)
      rw [hoff, hp']
      rfl
    · change c'.page (c'.p / 4096) = some c'.pag
      rw [hp']
      exact hpag
  · refine Or.inl ⟨_, if_neg hneg, held, h.moveTo rfl rfl hle, rfl, rfl, ?_, fun q b _ hb => hb⟩
    obtain ⟨hoff, hpag⟩ := hrun.resolve_left (by omega)
    have hdiv : (c.p - 1) / 4096 = c.p / 4096 := by omega
    constructor
    · change c.offset - 1 = ((c.p - 1) % 4096 : ℕ)
      omega
    · change c.page ((c.p - 1) / 4096) = some c.pag
      rw [hdiv, hpag]

/-- The byte for `p` is put into its place. -/
theorem Copying.store (h : Copying enough lo hi n k held c) (hplaced : c.Placed) (b : BitVec 8) :
    Copying enough lo hi n k held { c with mm := c.mm.setByteAt c.pag c.offset.toNat b } ∧
      ArgCopy.byteAt { c with mm := c.mm.setByteAt c.pag c.offset.toNat b } c.p = some b ∧
      c.Keeps { c with mm := c.mm.setByteAt c.pag c.offset.toNat b } (c.p + 1) := by
  obtain ⟨hoff, hpag⟩ := hplaced
  have hheld := h.mem_held _ _ hpag
  have htoNat : c.offset.toNat = c.p % 4096 := by rw [hoff, Int.toNat_natCast]
  have hset := State.setByteAt_eq_setPage c.mm c.pag c.offset.toNat b
  have hmove : Move ⟨c.mm, held⟩ ⟨c.mm.setByteAt c.pag c.offset.toNat b, held⟩ := by
    rw [hset]
    exact .fill hheld _
  have hsame : Untouched c.mm (c.mm.setByteAt c.pag c.offset.toNat b) := by
    rw [hset]
    exact h.inv.untouched_fill hheld _
  refine ⟨⟨hmove.inv h.inv, hmove.private h.inv h.isolated, h.same.trans hsame, h.held_subset,
    h.mem_held, h.inj, fun henough => (h.free henough).congr rfl, h.p_le⟩, ?_, fun q d hq hd => ?_⟩
  · rw [ArgCopy.byteAt]
    simp only [hpag, Option.map_some, State.byte_setByteAt, htoNat, if_true]
  · obtain ⟨g, hg, rfl⟩ := Option.map_eq_some_iff.mp hd
    rw [ArgCopy.byteAt]
    simp only [hg, Option.map_some, Option.some.injEq]
    by_cases hgp : g = c.pag
    · subst hgp
      have hdiv := h.inj _ _ _ hg hpag
      rw [State.byte_setByteAt, htoNat, if_neg (by omega)]
    · rw [State.byte, State.byte, State.setByteAt, State.mem_setWord_of_ne _ hgp]

variable {mem : Seg → ℕ → BitVec 8} {fromKmem : ℕ}

/-- The bytes of a string are copied. -/
theorem Copying.copyBytes {a : ℕ} {l : List (BitVec 8)} (oldFs : Seg)
    (hl : Stored (fun x => some (mem c.fs x)) a l) (h : Copying enough lo hi n k held c)
    (hfs : fromKmem = 2 → c.fs = .kernel) (hlen : l.length ≤ c.p)
    (hrun : c.offset = 0 ∨ c.Placed) :
    GoesOn enough (fun c' => ∃ held', Copying enough lo hi n k held' c' ∧
      c'.p = c.p - l.length ∧ c'.fs = c.fs ∧ (c'.offset = 0 ∨ c'.Placed) ∧
      Stored c'.byteAt (c.p - l.length) l ∧ c.Keeps c' c.p)
      (copyBytes mem fromKmem oldFs l.length (a + l.length) c) := by
  induction l using List.reverseRecOn generalizing c held with
  | nil => exact Or.inl ⟨c, rfl, held, h, rfl, rfl, hrun, trivial, fun q b _ hb => hb⟩
  | append_singleton l b ih =>
    rw [List.length_append, List.length_singleton] at hlen ⊢
    obtain ⟨hl, hb⟩ := Stored.append_iff.mp hl
    have hb : mem c.fs (a + l.length) = b := Option.some.inj hb.1
    rw [Mm.copyBytes, show a + (l.length + 1) - 1 = a + l.length by omega]
    refine (h.stepBack oldFs hfs (by omega) hrun).bind fun c₁ hc₁ => ?_
    obtain ⟨held₁, h₁, hp₁, hfs₁, hplaced₁, hkeep₁⟩ := hc₁
    rw [← hfs₁] at hb
    rw [hb]
    obtain ⟨h₂, hat, hkeep₂⟩ := h₁.store hplaced₁ b
    rw [← hfs₁] at hl hfs
    refine (ih (c := { c₁ with mm := c₁.mm.setByteAt c₁.pag c₁.offset.toNat b }) hl h₂ hfs
      (by simp only; omega) (Or.inr hplaced₁)).mono fun c' hc' => ?_
    obtain ⟨held', hc', hp', hfs', hrun', hstored, hkeep⟩ := hc'
    have hpp : ({ c₁ with mm := c₁.mm.setByteAt c₁.pag c₁.offset.toNat b } : ArgCopy).p = c.p - 1 :=
      hp₁
    rw [hpp] at hp' hstored hkeep
    have hsub : c.p - (l.length + 1) = c.p - 1 - l.length := by omega
    refine ⟨held', hc', by omega, hfs'.trans hfs₁, hrun', ?_, fun q d hq hd => ?_⟩
    · rw [hsub]
      refine Stored.append_iff.mpr ⟨hstored, ?_, trivial⟩
      rw [show c.p - 1 - l.length + l.length = c.p - 1 by omega]
      exact hkeep _ _ le_rfl (hp₁ ▸ hat)
    · exact hkeep q d (by omega) (hkeep₂ q d (by omega) (hkeep₁ q d (Nat.zero_le q) hd))

/-- The segment of the pointers of a table. -/
def tableSeg (fromKmem : ℕ) (fs : Seg) : Seg := if fromKmem = 1 then .kernel else fs

/-- The last string of a table is copied first. -/
theorem copyLoop_concat {argv : ℕ} {strs : List (List (BitVec 8))} {str : List (BitVec 8)}
    {oldFs : Seg}
    (hstrs : HasStrings (mem (tableSeg fromKmem c.fs)) (mem c.fs) argv (strs ++ [str]))
    (hold : fromKmem = 1 → c.fs = oldFs) (hlen : str.length < 2 ^ 32) :
    HasString (mem c.fs) (getFsLong (mem (tableSeg fromKmem c.fs)) (argv + 4 * strs.length)) str ∧
      copyLoop mem fromKmem oldFs argv (strs ++ [str]).length c =
        (copyBytes mem fromKmem oldFs (cString str).length
          (getFsLong (mem (tableSeg fromKmem c.fs)) (argv + 4 * strs.length) +
            (cString str).length) c).bind (copyLoop mem fromKmem oldFs argv strs.length) := by
  obtain ⟨hne, hstr⟩ := hstrs strs.length str (by simp)
  refine ⟨hstr, ?_⟩
  -- `fs` is what it was when the bytes are copied
  have hback : (c.setFsIf fromKmem 1 .kernel).setFsIf fromKmem 1 oldFs = c := by
    have hseg : (if fromKmem = 1 then oldFs else if fromKmem = 1 then Seg.kernel else c.fs) =
        c.fs := by
      split_ifs with hone
      · exact (hold hone).symm
      · rfl
    rw [ArgCopy.setFsIf, ArgCopy.setFsIf]
    simp only [hseg]
  have htab : (c.setFsIf fromKmem 1 .kernel).fs = tableSeg fromKmem c.fs := rfl
  rw [List.length_append, List.length_singleton, Mm.copyLoop]
  simp only [hback, htab]
  rw [if_neg hne, strLen_eq hstr hlen, orElseError, Except.bind]

/-- The strings before the last one of a table. -/
theorem HasStrings.init {tab fs : ℕ → BitVec 8} {argv : ℕ} {strs : List (List (BitVec 8))}
    {str : List (BitVec 8)} (h : HasStrings tab fs argv (strs ++ [str])) :
    HasStrings tab fs argv strs := by
  intro i s hs
  apply h i s
  rw [List.getElem?_append_left (List.getElem?_eq_some_iff.mp hs).1, hs]

/-- The strings of a table are copied one behind the other. -/
theorem Copying.copyLoop {argv : ℕ} {strs : List (List (BitVec 8))} {oldFs : Seg}
    (hstrs : HasStrings (mem (tableSeg fromKmem c.fs)) (mem c.fs) argv strs)
    (h : Copying enough lo hi n k held c) (hfs : fromKmem = 2 → c.fs = .kernel)
    (hold : fromKmem = 1 → c.fs = oldFs) (hlen : (packed strs).length ≤ c.p)
    (hrun : c.offset = 0 ∨ c.Placed) :
    GoesOn enough (fun c' => ∃ held', Copying enough lo hi n k held' c' ∧
      c'.p = c.p - (packed strs).length ∧ c'.fs = c.fs ∧
      Stored c'.byteAt (c.p - (packed strs).length) (packed strs) ∧ c.Keeps c' c.p)
      (copyLoop mem fromKmem oldFs argv strs.length c) := by
  induction strs using List.reverseRecOn generalizing c held with
  | nil => exact Or.inl ⟨c, rfl, held, h, rfl, rfl, trivial, fun q b _ hb => hb⟩
  | append_singleton strs str ih =>
    have hp := h.p_le
    have happend : (packed (strs ++ [str])).length =
        (packed strs).length + (cString str).length := by
      rw [packed_concat, List.length_append]
    rw [happend] at hlen ⊢
    have hstrlen : str.length < 2 ^ 32 := by
      have hcstr : (cString str).length = str.length + 1 := List.length_append ..
      simp only [maxArgPages] at hp
      omega
    obtain ⟨hstr, hfirst⟩ := copyLoop_concat hstrs hold hstrlen
    rw [hfirst]
    refine (h.copyBytes oldFs hstr.stored hfs (by omega) hrun).bind fun c₁ hc₁ => ?_
    obtain ⟨held₁, h₁, hp₁, hfs₁, hrun₁, hstored₁, hkeep₁⟩ := hc₁
    have hinit := hstrs.init
    rw [← hfs₁] at hfs hold hinit
    refine (ih hinit h₁ hfs hold (by omega) hrun₁).mono fun c' hc' => ?_
    obtain ⟨held', hc', hp', hfs', hstored, hkeep⟩ := hc'
    rw [hp₁] at hp' hstored hkeep
    have hsub : c.p - ((packed strs).length + (cString str).length) =
        c.p - (cString str).length - (packed strs).length := by omega
    refine ⟨held', hc', by omega, hfs'.trans hfs₁, ?_, fun q d hq hd => ?_⟩
    · rw [hsub, packed_concat]
      refine Stored.append_iff.mpr ⟨hstored, ?_⟩
      rw [show c.p - (cString str).length - (packed strs).length + (packed strs).length =
        c.p - (cString str).length by omega]
      exact hstored₁.congr fun q d hq _ hd => hkeep q d hq hd
    · exact hkeep q d (by omega) (hkeep₁ q d hq hd)

/-- The segment of the strings of a table. -/
def stringSeg (fromKmem : ℕ) (fs : Seg) : Seg := if fromKmem = 2 then .kernel else fs

/-- `copy_strings`. -/
theorem Copying.copyStrings {argv : ℕ} {strs : List (List (BitVec 8))}
    (hstrs : HasStrings (mem (tableSeg fromKmem (stringSeg fromKmem c.fs)))
      (mem (stringSeg fromKmem c.fs)) argv strs)
    (h : Copying enough lo hi n k held c) (hlen : (packed strs).length ≤ c.p) (hpos : 0 < c.p) :
    GoesOn enough (fun c' => ∃ held', Copying enough lo hi n k held' c' ∧
      c'.p = c.p - (packed strs).length ∧ c'.fs = c.fs ∧
      Stored c'.byteAt (c.p - (packed strs).length) (packed strs) ∧ c.Keeps c' c.p)
      (copyStrings mem fromKmem strs.length argv c) := by
  have hstart : Copying enough lo hi n k held { c.setFsIf fromKmem 2 .kernel with offset := 0 } :=
    h.moveTo rfl rfl h.p_le
  have hseg : ({ c.setFsIf fromKmem 2 .kernel with offset := 0 } : ArgCopy).fs =
      stringSeg fromKmem c.fs := rfl
  have hfs : fromKmem = 2 → stringSeg fromKmem c.fs = .kernel := fun htwo => if_pos htwo
  have hold : fromKmem = 1 → stringSeg fromKmem c.fs = c.fs := by
    intro hone
    exact if_neg (by omega)
  rw [← hseg] at hstrs hfs hold
  rw [Mm.copyStrings, if_neg (by omega)]
  rcases hstart.copyLoop hstrs hfs hold hlen (Or.inl rfl) with
    ⟨c', hloop, held', hc', hp', hfs', hrest⟩ | ⟨hnot, c', hloop⟩
  · rw [hloop]
    refine Or.inl ⟨c'.setFsIf fromKmem 2 c.fs, rfl, held', hc'.moveTo rfl rfl hc'.p_le, hp', ?_,
      hrest⟩
    change (if fromKmem = 2 then c.fs else c'.fs) = c.fs
    split_ifs with htwo
    · rfl
    · rw [hfs']
      exact if_neg htwo
  · rw [hloop]
    exact Or.inr ⟨hnot, c', rfl⟩

/-! ### Several tables -/

theorem packed_append (l l' : List (List (BitVec 8))) :
    packed (l ++ l') = packed l ++ packed l' := by
  rw [packed, List.flatMap_append, ← packed, ← packed]

/-- The strings of tables that are copied one after another, as they lie in memory. -/
def stacked : List (List (List (BitVec 8))) → List (List (BitVec 8))
  | [] => []
  | strs :: rest => stacked rest ++ strs

/-- A call of `copy_strings` with `fs` for the strings of a table. -/
structure HasCall (mem : Seg → ℕ → BitVec 8) (fs : Seg) (call : ArgCall)
    (strs : List (List (BitVec 8))) : Prop where
  argc : call.argc = strs.length
  strings : HasStrings (mem (tableSeg call.fromKmem (stringSeg call.fromKmem fs)))
    (mem (stringSeg call.fromKmem fs)) call.argv strs

/-- Calls of `copy_strings`, one after another. -/
theorem Copying.copyAll {calls : List ArgCall} {strss : List (List (List (BitVec 8)))} {fs : Seg}
    (h : Copying enough lo hi n k held c) (hfs : c.fs = fs)
    (hcalls : List.Forall₂ (HasCall mem fs) calls strss)
    (hlen : (packed (stacked strss)).length < c.p) :
    GoesOn enough (fun c' => ∃ held', Copying enough lo hi n k held' c' ∧
      c'.p = c.p - (packed (stacked strss)).length ∧ c'.fs = fs ∧
      Stored c'.byteAt c'.p (packed (stacked strss)) ∧ c.Keeps c' c.p) (copyAll mem calls c) := by
  induction hcalls generalizing c held with
  | nil => exact Or.inl ⟨c, rfl, held, h, rfl, hfs, trivial, fun q b _ hb => hb⟩
  | @cons call strs calls rest hcall hrest ih =>
    have happend : packed (stacked (strs :: rest)) = packed (stacked rest) ++ packed strs :=
      packed_append ..
    rw [happend, List.length_append] at hlen ⊢
    rw [Mm.copyAll, hcall.argc]
    refine (h.copyStrings (hfs ▸ hcall.strings) (by omega) (by omega)).bind fun c₁ hc₁ => ?_
    obtain ⟨held₁, h₁, hp₁, hfs₁, hstored₁, hkeep₁⟩ := hc₁
    refine (ih h₁ (hfs₁.trans hfs) (by omega)).mono fun c' hc' => ?_
    obtain ⟨held', h', hp', hfs', hstored', hkeep'⟩ := hc'
    have hsum : c'.p + (packed (stacked rest)).length = c₁.p := by omega
    refine ⟨held', h', by omega, hfs', ?_, fun q b hq hb => ?_⟩
    · refine Stored.append_iff.mpr ⟨hstored', ?_⟩
      rw [hsum]
      rw [← hp₁] at hstored₁
      exact hstored₁.congr fun q b hq _ hb => hkeep' q b hq hb
    · exact hkeep' q b (by omega) (hkeep₁ q b hq hb)

end LihaLinux.Mm
