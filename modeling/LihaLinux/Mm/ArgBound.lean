import LihaLinux.Mm.ArgPages
import LihaLinux.Mm.SharedPages

/-!
# The bounds of the argument pages

`copy_strings` counts `p` down to 0. Its test for too long arguments, `p-len < 0`, is one of
unsigned words: they are rejected only if the free pages run out before `p` has come to 0, or if a
table ends there exactly. Otherwise `p` goes on below 0.
-/

namespace LihaLinux.Mm

variable {c c' : ArgCopy} {r : Except ExecError ArgCopy} {P : ArgCopy → Prop}
  {mem : Seg → ℕ → BitVec 8} {fromKmem n len tmp argv : ℕ} {oldFs fs : Seg}

/-- The room for the strings: `p` in the beginning. -/
def argRoom : ℕ := 4096 * maxArgPages - 4

theorem argRoom_eq : argRoom = 131068 := rfl

/-! ### The ends of a copy -/

/-- All indices of `page` that have been used are within the array. -/
def ArgCopy.InBounds (c : ArgCopy) : Prop := ∀ i ∈ c.used, i < maxArgPages

/-- A copy that begins with the `fs` of `c` ends in a state with a property, or returns 0 in such a
state. -/
def Ends (P : ArgCopy → Prop) (c : ArgCopy) (r : Except ExecError ArgCopy) : Prop :=
  ∃ c', P c' ∧ (r = .ok c' ∧ c'.fs = c.fs ∨ r = .error (.noMemory c'))

/-- A copy that ends and has used no fewer indices than before. -/
abbrev Goes (c : ArgCopy) (r : Except ExecError ArgCopy) : Prop :=
  Ends (fun c' => c.used ⊆ c'.used) c r

/-- A copy that ends and has left the array of pages. -/
abbrev Wild (c : ArgCopy) (r : Except ExecError ArgCopy) : Prop := Ends (fun c' => ¬c'.InBounds) c r

theorem Ends.bind {f : ArgCopy → Except ExecError ArgCopy} (h : Ends P c r)
    (hf : ∀ c', P c' → c'.fs = c.fs → Ends P c' (f c')) : Ends P c (r.bind f) := by
  obtain ⟨c₁, hP, ⟨rfl, hfs⟩ | rfl⟩ := h
  · obtain ⟨c₂, hP₂, ⟨hr, hfs₂⟩ | hr⟩ := hf c₁ hP hfs
    · exact ⟨c₂, hP₂, Or.inl ⟨hr, hfs₂.trans hfs⟩⟩
    · exact ⟨c₂, hP₂, Or.inr hr⟩
  · exact ⟨c₁, hP, Or.inr rfl⟩

theorem Goes.bind {f : ArgCopy → Except ExecError ArgCopy} (h : Goes c r)
    (hf : ∀ c', c'.fs = c.fs → Goes c' (f c')) : Goes c (r.bind f) :=
  Ends.bind h fun c' hsub hfs => by
    obtain ⟨c₂, hsub₂, hr⟩ := hf c' hfs
    exact ⟨c₂, List.Subset.trans hsub hsub₂, hr⟩

theorem Wild.bind {f : ArgCopy → Except ExecError ArgCopy} (h : Wild c r)
    (hf : ∀ c', c'.fs = c.fs → Goes c' (f c')) : Wild c (r.bind f) :=
  Ends.bind h fun c' hwild hfs => by
    obtain ⟨c₂, hsub, hr⟩ := hf c' hfs
    exact ⟨c₂, fun hin => hwild fun i hi => hin i (hsub hi), hr⟩

/-- `fs` within a call of `copy_strings`. -/
def FsFor (fromKmem : ℕ) (oldFs fs : Seg) : Prop :=
  (fromKmem = 2 → fs = .kernel) ∧ (fromKmem = 1 → fs = oldFs)

theorem getPag_fields (hget : c.getPag = some c') :
    c'.p = c.p ∧ c'.offset = c.offset ∧ c'.fs = c.fs ∧ c'.used = c.used ∧
      c'.page (c.p / 4096) = some c'.pag ∧ ∀ i, c.page i ≠ none → c'.page i ≠ none := by
  unfold ArgCopy.getPag at hget
  split at hget
  · next f hf =>
    cases hget
    exact ⟨rfl, rfl, rfl, rfl, hf, fun _ h => h⟩
  · obtain ⟨r, -, rfl⟩ := Option.map_eq_some_iff.mp hget
    refine ⟨rfl, rfl, rfl, rfl, Function.update_self .., fun i hi => ?_⟩
    change Function.update c.page (c.p / 4096) (some r.1) i ≠ none
    by_cases heq : i = c.p / 4096
    · rw [heq, Function.update_self]
      simp
    · rwa [Function.update_of_ne heq]

/-- The index of the next byte is used if it lies on another page. -/
theorem stepBack_ends (hfs : fromKmem = 2 → c.fs = .kernel) :
    Ends (fun c' => c.used ⊆ c'.used ∧ (c.offset - 1 < 0 → sub32 c.p 1 / 4096 ∈ c'.used)) c
      (c.stepBack fromKmem oldFs) := by
  unfold ArgCopy.stepBack
  simp only
  split_ifs with hneg
  · obtain ⟨c₁, hc₁⟩ : ∃ c₁, c₁ = ArgCopy.setFsIf fromKmem 2 oldFs { c with
        p := sub32 c.p 1
        offset := (sub32 c.p 1 % 4096 : ℕ)
        used := sub32 c.p 1 / 4096 :: c.used } := ⟨_, rfl⟩
    have hused : c₁.used = sub32 c.p 1 / 4096 :: c.used := by rw [hc₁]; rfl
    have hsub : c.used ⊆ c₁.used := by
      rw [hused]
      exact List.subset_cons_self ..
    have hmem : sub32 c.p 1 / 4096 ∈ c₁.used := by
      rw [hused]
      exact List.mem_cons_self
    have hseg : c₁.fs = if fromKmem = 2 then oldFs else c.fs := by rw [hc₁, ArgCopy.setFsIf]
    rw [← hc₁]
    cases hget : c₁.getPag with
    | none => exact ⟨c₁, ⟨hsub, fun _ => hmem⟩, Or.inr rfl⟩
    | some c₂ =>
      obtain ⟨-, -, hfs₂, hused₂, -⟩ := getPag_fields hget
      rw [← hused₂] at hsub hmem
      refine ⟨c₂.setFsIf fromKmem 2 .kernel, ⟨hsub, fun _ => hmem⟩, Or.inl ⟨rfl, ?_⟩⟩
      change (if fromKmem = 2 then Seg.kernel else c₂.fs) = c.fs
      rw [hfs₂, hseg]
      split_ifs with htwo
      · exact (hfs htwo).symm
      · rfl
  · exact ⟨{ c with p := sub32 c.p 1, offset := c.offset - 1 },
      ⟨List.Subset.refl c.used, fun h => absurd h hneg⟩, Or.inl ⟨rfl, rfl⟩⟩

theorem stepBack_goes (hfs : fromKmem = 2 → c.fs = .kernel) :
    Goes c (c.stepBack fromKmem oldFs) := by
  obtain ⟨c', ⟨hsub, -⟩, hr⟩ := stepBack_ends hfs
  exact ⟨c', hsub, hr⟩

theorem copyBytes_goes (hfs : fromKmem = 2 → c.fs = .kernel) :
    Goes c (copyBytes mem fromKmem oldFs len tmp c) := by
  induction len generalizing c tmp with
  | zero => exact ⟨c, List.Subset.refl _, Or.inl ⟨rfl, rfl⟩⟩
  | succ len ih =>
    rw [copyBytes]
    refine (stepBack_goes hfs).bind fun c' hfs' => ?_
    exact ih (c := { c' with mm := c'.mm.setByteAt c'.pag c'.offset.toNat _ })
      (by rwa [← hfs'] at hfs)

/-- The strings of a table end. -/
theorem copyLoop_goes {strs : List (List (BitVec 8))}
    (hstrs : HasStrings (mem (tableSeg fromKmem c.fs)) (mem c.fs) argv strs)
    (hshort : ∀ str ∈ strs, str.length < 2 ^ 32) (hfs : FsFor fromKmem oldFs c.fs) :
    Goes c (copyLoop mem fromKmem oldFs argv strs.length c) := by
  induction strs using List.reverseRecOn generalizing c with
  | nil => exact ⟨c, List.Subset.refl _, Or.inl ⟨rfl, rfl⟩⟩
  | append_singleton strs str ih =>
    obtain ⟨-, hfirst⟩ := copyLoop_concat hstrs hfs.2 (hshort str (by simp))
    rw [hfirst]
    refine (copyBytes_goes hfs.1).bind fun c' hfs' => ?_
    have hinit := hstrs.init
    rw [← hfs'] at hinit hfs
    exact ih hinit (fun s hs => hshort s (List.mem_append_left _ hs)) hfs

/-- `fs` is given back at the end of `copy_strings`. -/
theorem copyStrings_ends {strs : List (List (BitVec 8))} (hpos : c.p ≠ 0)
    (h : Ends P { c.setFsIf fromKmem 2 .kernel with offset := 0 } (copyLoop mem fromKmem c.fs argv
      strs.length { c.setFsIf fromKmem 2 .kernel with offset := 0 }))
    (hP : ∀ c' fs, P c' → P { c' with fs }) :
    Ends P c (copyStrings mem fromKmem strs.length argv c) := by
  rw [copyStrings, if_neg hpos]
  obtain ⟨c₁, hP₁, ⟨hr, hfs₁⟩ | hr⟩ := h
  · refine ⟨c₁.setFsIf fromKmem 2 c.fs, hP _ _ hP₁, Or.inl ⟨by rw [hr]; rfl, ?_⟩⟩
    change (if fromKmem = 2 then c.fs else c₁.fs) = c.fs
    split_ifs with htwo
    · rfl
    · rw [hfs₁]
      exact if_neg htwo
  · exact ⟨c₁, hP₁, Or.inr (by rw [hr]; rfl)⟩

theorem fsFor_start (fromKmem : ℕ) (fs : Seg) : FsFor fromKmem fs (stringSeg fromKmem fs) := by
  constructor
  · intro htwo
    exact if_pos htwo
  · intro hone
    exact if_neg (by omega)

theorem copyStrings_goes {strs : List (List (BitVec 8))}
    (hstrs : HasStrings (mem (tableSeg fromKmem (stringSeg fromKmem c.fs)))
      (mem (stringSeg fromKmem c.fs)) argv strs)
    (hshort : ∀ str ∈ strs, str.length < 2 ^ 32) :
    Goes c (copyStrings mem fromKmem strs.length argv c) := by
  by_cases hpos : c.p = 0
  · rw [copyStrings, if_pos hpos]
    exact ⟨c, List.Subset.refl _, Or.inr rfl⟩
  · have hseg : ({ c.setFsIf fromKmem 2 .kernel with offset := 0 } : ArgCopy).fs =
        stringSeg fromKmem c.fs := rfl
    have hfor := fsFor_start fromKmem c.fs
    rw [← hseg] at hstrs hfor
    apply copyStrings_ends hpos (copyLoop_goes hstrs hshort hfor)
    intro c' fs h
    exact h

/-- All strings of a list of tables are shorter than the address space. -/
def Short (strss : List (List (List (BitVec 8)))) : Prop :=
  ∀ strs ∈ strss, ∀ str ∈ strs, str.length < 2 ^ 32

theorem copyAll_goes {calls : List ArgCall} {strss : List (List (List (BitVec 8)))}
    (hcalls : List.Forall₂ (HasCall mem fs) calls strss) (hshort : Short strss) (hfs : c.fs = fs) :
    Goes c (copyAll mem calls c) := by
  induction hcalls generalizing c with
  | nil => exact ⟨c, List.Subset.refl _, Or.inl ⟨rfl, rfl⟩⟩
  | @cons call strs calls rest hcall hrest ih =>
    rw [copyAll, hcall.argc]
    apply (copyStrings_goes (hfs ▸ hcall.strings) (hshort _ List.mem_cons_self)).bind
    intro c' hfs'
    exact ih (fun s hs => hshort s (List.mem_cons_of_mem _ hs)) (hfs'.trans hfs)

/-! ### Copies within bounds -/

/-- There are free pages for all argument pages that are not there yet. -/
def ArgCopy.Provided (c : ArgCopy) : Prop := c.mm.Free (pagesNeeded c.page)

/-- `p` has not gone below 0, and the pages above it are there. -/
structure ArgCopy.Sane (c : ArgCopy) : Prop where
  p_le : c.p ≤ argRoom
  inBounds : c.InBounds
  above : c.p < argRoom → ∀ i < maxArgPages, c.p < 4096 * (i + 1) → c.page i ≠ none
  placed : c.offset = 0 ∨ c.Placed

/-- The free pages have run out within bounds. -/
def Starved (c : ArgCopy) (r : Except ExecError ArgCopy) : Prop :=
  ¬c.Provided ∧ ∃ c', r = .error (.noMemory c') ∧ c'.InBounds

/-- `n` bytes have been copied within bounds. -/
def Fitted (n : ℕ) (c : ArgCopy) (r : Except ExecError ArgCopy) : Prop :=
  ∃ c', r = .ok c' ∧ c'.Sane ∧ c'.p = c.p - n ∧ c'.fs = c.fs ∧ (c'.Provided ↔ c.Provided)

theorem ArgCopy.Sane.congr (h : c.Sane) (hp : c'.p = c.p) (hpage : c'.page = c.page)
    (hused : c'.used = c.used) (hplaced : c'.offset = 0 ∨ c'.Placed) : c'.Sane := by
  constructor
  · rw [hp]
    exact h.p_le
  · rw [ArgCopy.InBounds, hused]
    exact h.inBounds
  · rw [hp, hpage]
    exact h.above
  · exact hplaced

theorem provided_congr (hmap : c'.mm.memMap = c.mm.memMap) (hpage : c'.page = c.page) :
    c'.Provided ↔ c.Provided := by
  rw [ArgCopy.Provided, ArgCopy.Provided, hpage]
  constructor
  · intro h
    exact h.congr hmap.symm
  · intro h
    exact h.congr hmap

/-- A page is taken if and only if one is free. -/
theorem getPag_provided (hi : c.p / 4096 < maxArgPages) :
    (c.getPag = none ∧ ¬c.Provided) ∨ ∃ c', c.getPag = some c' ∧ (c'.Provided ↔ c.Provided) := by
  unfold ArgCopy.getPag
  cases hpage : c.page (c.p / 4096) with
  | some f => exact Or.inr ⟨_, rfl, provided_congr rfl rfl⟩
  | none =>
    cases hget : getFreePage c.mm with
    | none =>
      left
      refine ⟨rfl, fun h => ?_⟩
      rw [ArgCopy.Provided, pagesNeeded_update (f := 0) hi hpage] at h
      obtain ⟨f, s', hsome, -⟩ := h.getFreePage
      rw [hget] at hsome
      cases hsome
    | some res =>
      obtain ⟨f, s'⟩ := res
      right
      refine ⟨c.addPage f s', rfl, ?_⟩
      rw [ArgCopy.Provided, ArgCopy.Provided, pagesNeeded_update (f := f) hi hpage]
      exact State.Free.getFreePage_iff hget

/-- `--p` above 0. -/
theorem ArgCopy.Sane.stepBack (h : c.Sane) (hfs : fromKmem = 2 → c.fs = .kernel) (hpos : 0 < c.p) :
    Fitted 1 c (c.stepBack fromKmem oldFs) ∨ Starved c (c.stepBack fromKmem oldFs) := by
  have hp := h.p_le
  rw [argRoom_eq] at hp
  have hsub : sub32 c.p 1 = c.p - 1 := by
    rw [sub32]
    omega
  have hi : (c.p - 1) / 4096 < maxArgPages := by
    rw [maxArgPages]
    omega
  rw [ArgCopy.stepBack, hsub]
  by_cases hneg : c.offset - 1 < 0
  · simp only [if_pos hneg]
    obtain ⟨c₁, hc₁⟩ : ∃ c₁, c₁ = ArgCopy.setFsIf fromKmem 2 oldFs { c with
        p := c.p - 1
        offset := ((c.p - 1) % 4096 : ℕ)
        used := (c.p - 1) / 4096 :: c.used } := ⟨_, rfl⟩
    have hused₁ : c₁.used = (c.p - 1) / 4096 :: c.used := by rw [hc₁]; rfl
    have hp₁ : c₁.p = c.p - 1 := by rw [hc₁]; rfl
    have hoff₁ : c₁.offset = ((c.p - 1) % 4096 : ℕ) := by rw [hc₁]; rfl
    have hpage₁ : c₁.page = c.page := by rw [hc₁]; rfl
    have hseg₁ : c₁.fs = if fromKmem = 2 then oldFs else c.fs := by rw [hc₁, ArgCopy.setFsIf]
    have hprov₁ : c₁.Provided ↔ c.Provided := provided_congr (by rw [hc₁]; rfl) hpage₁
    have hbounds₁ : c₁.InBounds := by
      intro i hi'
      rw [hused₁] at hi'
      rcases List.mem_cons.mp hi' with rfl | hi'
      · exact hi
      · exact h.inBounds i hi'
    rw [← hc₁]
    rcases getPag_provided (c := c₁) (by rw [hp₁]; exact hi) with ⟨hget, hnot⟩ | ⟨c₂, hget, hiff⟩
    · right
      refine ⟨fun hprov => hnot (hprov₁.mpr hprov), c₁, ?_, hbounds₁⟩
      rw [hget]
      rfl
    · left
      obtain ⟨hp₂, hoff₂, hfs₂, hused₂, hpag₂, hkeep₂⟩ := getPag_fields hget
      have hplaced : (c₂.setFsIf fromKmem 2 .kernel).Placed := by
        constructor
        · change c₂.offset = (c₂.p % 4096 : ℕ)
          rw [hoff₂, hoff₁, hp₂, hp₁]
        · change c₂.page (c₂.p / 4096) = some c₂.pag
          rw [hp₂, hpag₂]
      have hrun : (orElseError (.noMemory c₁) c₁.getPag).map (·.setFsIf fromKmem 2 .kernel) =
          .ok (c₂.setFsIf fromKmem 2 .kernel) := by
        rw [hget]
        rfl
      refine ⟨_, hrun, ⟨?_, ?_, ?_, Or.inr hplaced⟩, ?_, ?_, ?_⟩
      · change c₂.p ≤ argRoom
        rw [hp₂, hp₁, argRoom_eq]
        omega
      · intro i hi'
        change i ∈ c₂.used at hi'
        rw [hused₂] at hi'
        exact hbounds₁ i hi'
      · intro hlt i hi' hpi
        change c₂.p < 4096 * (i + 1) at hpi
        rw [hp₂, hp₁] at hpi
        change c₂.page i ≠ none
        by_cases heq : i = (c.p - 1) / 4096
        · rw [heq, ← hp₁, hpag₂]
          simp
        · apply hkeep₂
          rw [hpage₁]
          apply h.above _ i hi'
          · omega
          · rw [argRoom_eq]
            rw [maxArgPages] at hi'
            omega
      · change c₂.p = c.p - 1
        rw [hp₂, hp₁]
      · change (if fromKmem = 2 then Seg.kernel else c₂.fs) = c.fs
        rw [hfs₂, hseg₁]
        split_ifs with htwo
        · exact (hfs htwo).symm
        · rfl
      · exact (provided_congr rfl rfl).trans (hiff.trans hprov₁)
  · left
    simp only [if_neg hneg]
    obtain ⟨hoff, hpag⟩ := h.placed.resolve_left (by omega)
    have hdiv : (c.p - 1) / 4096 = c.p / 4096 := by omega
    have hplaced : ArgCopy.Placed { c with p := c.p - 1, offset := c.offset - 1 } := by
      constructor
      · change c.offset - 1 = ((c.p - 1) % 4096 : ℕ)
        omega
      · change c.page ((c.p - 1) / 4096) = some c.pag
        rw [hdiv, hpag]
    refine ⟨_, rfl, ⟨?_, h.inBounds, ?_, Or.inr hplaced⟩, rfl, rfl, provided_congr rfl rfl⟩
    · change c.p - 1 ≤ argRoom
      rw [argRoom_eq]
      omega
    · intro hlt i hi' hpi
      change c.p - 1 < 4096 * (i + 1) at hpi
      change c.page i ≠ none
      by_cases heq : i = c.p / 4096
      · rw [heq, hpag]
        simp
      · apply h.above _ i hi'
        · omega
        · rw [argRoom_eq]
          rw [maxArgPages] at hi'
          omega

/-! ### Outcomes -/

/-- How a copy of `n` bytes that begins within bounds ends: within bounds as well, unless there
are more bytes than room and enough free pages to get there. -/
structure Outcome (n : ℕ) (c : ArgCopy) (r : Except ExecError ArgCopy) : Prop where
  fits : n ≤ c.p → Fitted n c r ∨ Starved c r
  exceeds : c.p < n → (c.Provided ∧ Wild c r) ∨ Starved c r

theorem Starved.bind {f : ArgCopy → Except ExecError ArgCopy} (h : Starved c r) :
    Starved c (r.bind f) := by
  obtain ⟨hnot, c', rfl, hin⟩ := h
  exact ⟨hnot, c', rfl, hin⟩

/-- One copy after another. -/
theorem Outcome.bind {m : ℕ} {f : ArgCopy → Except ExecError ArgCopy} (h : Outcome n c r)
    (hf : ∀ c', c'.Sane → c'.fs = c.fs → Outcome m c' (f c'))
    (hgoes : ∀ c', c'.fs = c.fs → Goes c' (f c')) : Outcome (n + m) c (r.bind f) := by
  constructor
  · intro hle
    rcases h.fits (by omega) with ⟨c', rfl, hsane, hp, hfs, hprov⟩ | hstarved
    · rcases (hf c' hsane hfs).fits (by omega) with hfit | ⟨hnot, hin⟩
      · obtain ⟨c'', hr, hsane', hp', hfs', hprov'⟩ := hfit
        exact Or.inl ⟨c'', hr, hsane', by omega, hfs'.trans hfs, hprov'.trans hprov⟩
      · exact Or.inr ⟨fun hc => hnot (hprov.mpr hc), hin⟩
    · exact Or.inr hstarved.bind
  · intro hlt
    by_cases hle : n ≤ c.p
    · rcases h.fits hle with ⟨c', rfl, hsane, hp, hfs, hprov⟩ | hstarved
      · rcases (hf c' hsane hfs).exceeds (by omega) with ⟨hc', hwild⟩ | ⟨hnot, hin⟩
        · obtain ⟨c'', hout, ⟨hr, hfs'⟩ | hr⟩ := hwild
          · exact Or.inl ⟨hprov.mp hc', c'', hout, Or.inl ⟨hr, hfs'.trans hfs⟩⟩
          · exact Or.inl ⟨hprov.mp hc', c'', hout, Or.inr hr⟩
        · exact Or.inr ⟨fun hc => hnot (hprov.mpr hc), hin⟩
      · exact Or.inr hstarved.bind
    · rcases h.exceeds (by omega) with ⟨hc, hwild⟩ | hstarved
      · exact Or.inl ⟨hc, hwild.bind hgoes⟩
      · exact Or.inr hstarved.bind

/-- Below 0 `copy_strings` leaves the array. -/
theorem ArgCopy.Sane.stepBack_zero (h : c.Sane) (hfs : fromKmem = 2 → c.fs = .kernel)
    (hp : c.p = 0) : c.Provided ∧ Wild c (c.stepBack fromKmem oldFs) := by
  constructor
  · have hnone : pagesNeeded c.page = 0 := by
      rw [pagesNeeded, Finset.card_eq_zero, Finset.filter_eq_empty_iff]
      intro i hi
      apply h.above _ i (Finset.mem_range.mp hi)
      · omega
      · rw [hp, argRoom_eq]
        decide
    rw [ArgCopy.Provided, hnone]
    exact ⟨∅, Nat.zero_le _, fun g hg => absurd hg (Finset.notMem_empty g)⟩
  · have hoff : c.offset = 0 := by
      rcases h.placed with hzero | ⟨hoff, -⟩
      · exact hzero
      · rw [hoff, hp]
        rfl
    obtain ⟨c', ⟨-, hmem⟩, hr⟩ := stepBack_ends (c := c) hfs
    refine ⟨c', fun hin => ?_, hr⟩
    have hlast := hin _ (hmem (by omega))
    rw [hp, sub32, maxArgPages] at hlast
    omega

theorem ArgCopy.Sane.stepBack_outcome (h : c.Sane) (hfs : fromKmem = 2 → c.fs = .kernel) :
    Outcome 1 c (c.stepBack fromKmem oldFs) :=
  ⟨fun hpos => h.stepBack hfs hpos, fun hzero => Or.inl (h.stepBack_zero hfs (by omega))⟩

/-- The inner loop. -/
theorem ArgCopy.Sane.copyBytes (h : c.Sane) (hfs : fromKmem = 2 → c.fs = .kernel) :
    Outcome len c (copyBytes mem fromKmem oldFs len tmp c) := by
  induction len generalizing c tmp with
  | zero =>
    refine ⟨fun _ => Or.inl ⟨c, rfl, h, rfl, rfl, Iff.rfl⟩, fun hlt => ?_⟩
    exact absurd hlt (Nat.not_lt_zero _)
  | succ len ih =>
    rw [Mm.copyBytes, Nat.add_comm len 1]
    refine (h.stepBack_outcome hfs).bind (fun c' h' hfs' => ?_) fun c' hfs' => ?_
    · rw [← hfs'] at hfs
      have hstored (b : BitVec 8) :
          ({ c' with mm := c'.mm.setByteAt c'.pag c'.offset.toNat b } : ArgCopy).Sane :=
        h'.congr rfl rfl rfl h'.placed
      obtain ⟨hfits, hover⟩ := ih (hstored _) hfs
      exact ⟨hfits, hover⟩
    · rw [← hfs'] at hfs
      exact copyBytes_goes (c := { c' with mm := c'.mm.setByteAt c'.pag c'.offset.toNat _ }) hfs

/-- The outer loop. -/
theorem ArgCopy.Sane.copyLoop {strs : List (List (BitVec 8))} (h : c.Sane)
    (hstrs : HasStrings (mem (tableSeg fromKmem c.fs)) (mem c.fs) argv strs)
    (hshort : ∀ str ∈ strs, str.length < 2 ^ 32) (hfs : FsFor fromKmem oldFs c.fs) :
    Outcome (packed strs).length c (copyLoop mem fromKmem oldFs argv strs.length c) := by
  induction strs using List.reverseRecOn generalizing c with
  | nil =>
    refine ⟨fun _ => Or.inl ⟨c, rfl, h, rfl, rfl, Iff.rfl⟩, fun hlt => ?_⟩
    exact absurd hlt (Nat.not_lt_zero _)
  | append_singleton strs str ih =>
    obtain ⟨-, hfirst⟩ := copyLoop_concat hstrs hfs.2 (hshort str (by simp))
    rw [hfirst, packed_concat, List.length_append, Nat.add_comm]
    have hinit := hstrs.init
    have hshort' : ∀ s ∈ strs, s.length < 2 ^ 32 := fun s hs =>
      hshort s (List.mem_append_left _ hs)
    refine (h.copyBytes hfs.1).bind (fun c' h' hfs' => ?_) fun c' hfs' => ?_
    · rw [← hfs'] at hinit hfs
      exact ih h' hinit hshort' hfs
    · rw [← hfs'] at hinit hfs
      exact copyLoop_goes hinit hshort' hfs

/-- `copy_strings`, with `p` above 0. -/
theorem ArgCopy.Sane.copyStrings {strs : List (List (BitVec 8))} (h : c.Sane) (hpos : c.p ≠ 0)
    (hstrs : HasStrings (mem (tableSeg fromKmem (stringSeg fromKmem c.fs)))
      (mem (stringSeg fromKmem c.fs)) argv strs)
    (hshort : ∀ str ∈ strs, str.length < 2 ^ 32) :
    Outcome (packed strs).length c (copyStrings mem fromKmem strs.length argv c) := by
  have hseg : ({ c.setFsIf fromKmem 2 .kernel with offset := 0 } : ArgCopy).fs =
      stringSeg fromKmem c.fs := rfl
  have hfor := fsFor_start fromKmem c.fs
  rw [← hseg] at hstrs hfor
  have hsane : ({ c.setFsIf fromKmem 2 .kernel with offset := 0 } : ArgCopy).Sane :=
    h.congr rfl rfl rfl (Or.inl rfl)
  have hprov : ({ c.setFsIf fromKmem 2 .kernel with offset := 0 } : ArgCopy).Provided ↔
      c.Provided := provided_congr rfl rfl
  obtain ⟨hfits, hover⟩ := hsane.copyLoop hstrs hshort hfor
  have hstarved : Starved { c.setFsIf fromKmem 2 .kernel with offset := 0 }
      (Mm.copyLoop mem fromKmem c.fs argv strs.length
        { c.setFsIf fromKmem 2 .kernel with offset := 0 }) →
      Starved c (Mm.copyStrings mem fromKmem strs.length argv c) := by
    rintro ⟨hnot, c', hr, hin⟩
    refine ⟨fun hc => hnot (hprov.mpr hc), c', ?_, hin⟩
    rw [Mm.copyStrings, if_neg hpos, hr]
    rfl
  constructor
  · intro hle
    rcases hfits hle with ⟨c', hr, hsane', hp', hfs', hprov'⟩ | hs
    · left
      refine ⟨c'.setFsIf fromKmem 2 c.fs, ?_, hsane'.congr rfl rfl rfl hsane'.placed, hp', ?_,
        (provided_congr rfl rfl).trans (hprov'.trans hprov)⟩
      · rw [Mm.copyStrings, if_neg hpos, hr]
        rfl
      · change (if fromKmem = 2 then c.fs else c'.fs) = c.fs
        split_ifs with htwo
        · rfl
        · rw [hfs']
          exact if_neg htwo
    · exact Or.inr (hstarved hs)
  · intro hlt
    rcases hover hlt with ⟨hc, hwild⟩ | hs
    · exact Or.inl ⟨hprov.mp hc, copyStrings_ends hpos hwild fun _ _ hout => hout⟩
    · exact Or.inr (hstarved hs)

/-! ### All tables -/

/-- The strings of a table do not fit behind those of the tables before it, which do. Nothing is
copied when `p` is 0. -/
def Overruns : ℕ → List ℕ → Prop
  | _, [] => False
  | p, n :: ns => p ≠ 0 ∧ (p < n ∨ Overruns (p - n) ns)

/-- The lengths of the strings of some tables, with their zeros. -/
def sizes (strss : List (List (List (BitVec 8)))) : List ℕ :=
  strss.map fun strs => (packed strs).length

theorem sum_sizes (strss : List (List (List (BitVec 8)))) :
    (sizes strss).sum = (packed (stacked strss)).length := by
  induction strss with
  | nil => rfl
  | cons strs rest ih =>
    rw [stacked, packed_append, List.length_append, ← ih, sizes, List.map_cons, List.sum_cons,
      ← sizes, Nat.add_comm]

/-- How the calls of `copy_strings` end. -/
structure CallsEnd (ns : List ℕ) (c : ArgCopy) (r : Except ExecError ArgCopy) : Prop where
  wild : Overruns c.p ns → c.Provided → Wild c r
  inBounds : ¬(Overruns c.p ns ∧ c.Provided) →
    ∀ c', r = .ok c' ∨ r = .error (.noMemory c') → c'.InBounds
  rejected : ¬(Overruns c.p ns ∧ c.Provided) → c.p < ns.sum → ∃ c', r = .error (.noMemory c')

theorem CallsEnd.of_starved {ns : List ℕ} (h : Starved c r) : CallsEnd ns c r := by
  obtain ⟨hnot, c', rfl, hin⟩ := h
  refine ⟨fun _ hc => absurd hc hnot, fun _ c'' hr => ?_, fun _ _ => ⟨c', rfl⟩⟩
  rcases hr with hr | hr
  · cases hr
  · cases hr
    exact hin

theorem copyAll_end {calls : List ArgCall} {strss : List (List (List (BitVec 8)))} (h : c.Sane)
    (hfs : c.fs = fs) (hcalls : List.Forall₂ (HasCall mem fs) calls strss) (hshort : Short strss) :
    CallsEnd (sizes strss) c (copyAll mem calls c) := by
  induction hcalls generalizing c with
  | nil =>
    refine ⟨fun hover => hover.elim, fun _ c' hr => ?_, fun _ hlt => absurd hlt (Nat.not_lt_zero _)⟩
    rcases hr with hr | hr
    · cases hr
      exact h.inBounds
    · cases hr
  | @cons call strs calls rest hcall hrest ih =>
    have hshort' : Short rest := fun s hs => hshort s (List.mem_cons_of_mem _ hs)
    have hsizes : sizes (strs :: rest) = (packed strs).length :: sizes rest := rfl
    rw [hsizes, copyAll, hcall.argc]
    by_cases hpos : c.p = 0
    · -- nothing more is copied
      have hrun : copyStrings mem call.fromKmem strs.length call.argv c = .error (.noMemory c) := by
        rw [copyStrings, if_pos hpos]
      rw [hrun]
      refine ⟨fun hover => absurd hpos hover.1, fun _ c' hr => ?_, fun _ _ => ⟨c, rfl⟩⟩
      rcases hr with hr | hr
      · cases hr
      · cases hr
        exact h.inBounds
    · have hout := h.copyStrings hpos (hfs ▸ hcall.strings) (hshort strs List.mem_cons_self)
      by_cases hle : (packed strs).length ≤ c.p
      · rcases hout.fits hle with ⟨c₁, hr₁, h₁, hp₁, hfs₁, hprov₁⟩ | hstarved
        · obtain ⟨hwild, hin, hrej⟩ := ih h₁ (hfs₁.trans hfs) hshort'
          have hiff : Overruns c.p ((packed strs).length :: sizes rest) ↔
              Overruns c₁.p (sizes rest) := by
            rw [Overruns, hp₁]
            constructor
            · rintro ⟨-, hlt | hover⟩
              · omega
              · exact hover
            · intro hover
              exact ⟨hpos, Or.inr hover⟩
          rw [hr₁]
          refine ⟨fun hover hc => ?_, fun hnot => hin ?_, fun hnot hlt => hrej ?_ ?_⟩
          · obtain ⟨c₂, hout₂, ⟨hr₂, hfs₂⟩ | hr₂⟩ := hwild (hiff.mp hover) (hprov₁.mpr hc)
            · exact ⟨c₂, hout₂, Or.inl ⟨hr₂, hfs₂.trans hfs₁⟩⟩
            · exact ⟨c₂, hout₂, Or.inr hr₂⟩
          · rwa [← hiff, hprov₁]
          · rwa [← hiff, hprov₁]
          · rw [List.sum_cons] at hlt
            omega
        · exact .of_starved hstarved.bind
      · have hover : Overruns c.p ((packed strs).length :: sizes rest) :=
          ⟨hpos, Or.inl (by omega)⟩
        rcases hout.exceeds (by omega) with ⟨hc, hwild⟩ | hstarved
        · refine ⟨fun _ _ => hwild.bind fun c' hfs' => copyAll_goes hrest hshort' (hfs'.trans hfs),
            fun hnot => absurd ⟨hover, hc⟩ hnot, fun hnot => absurd ⟨hover, hc⟩ hnot⟩
        · exact .of_starved hstarved.bind

theorem ArgCopy.start_sane (s : State) : (ArgCopy.start s).Sane :=
  ⟨le_rfl, fun _ hi => absurd hi List.not_mem_nil, fun hlt => absurd hlt (lt_irrefl _), Or.inl rfl⟩

theorem ArgCopy.start_provided (s : State) :
    (ArgCopy.start s).Provided ↔ s.Free maxArgPages := by
  have hneed : pagesNeeded (fun _ => none) = maxArgPages := by
    simp [pagesNeeded]
  rw [← hneed]
  rfl

/-- Whatever the arguments are, no index is out of bounds, and arguments that do not fit make
`do_execve` return `-ENOMEM`. -/
structure ArgsSafe (files : ℕ → Executable) (k : Kernel) (current executable : ℕ) (t : Task)
    (mem : Seg → ℕ → BitVec 8) (calls : List ArgCall) (argc envc total : ℕ) : Prop where
  inBounds : ∀ c, copyAll mem calls (ArgCopy.start k.mm) = .ok c ∨
    copyAll mem calls (ArgCopy.start k.mm) = .error (.noMemory c) → c.InBounds
  rejected : argRoom < total → ∃ c,
    copyAll mem calls (ArgCopy.start k.mm) = .error (.noMemory c) ∧
      execCalls files k current executable t mem calls argc envc = .error (.noMemory c)

/-- The arguments are safe unless the strings of a table do not fit behind those of the tables
before it, while these leave room, and there are free pages for all argument pages. -/
theorem argsSafe_iff (files : ℕ → Executable) (k : Kernel) (current executable : ℕ) (t : Task)
    {calls : List ArgCall} {strss : List (List (List (BitVec 8)))} (argc envc : ℕ)
    (hcalls : List.Forall₂ (HasCall mem .user) calls strss) (hshort : Short strss) :
    ArgsSafe files k current executable t mem calls argc envc (packed (stacked strss)).length ↔
      ¬(Overruns argRoom (sizes strss) ∧ k.mm.Free maxArgPages) := by
  obtain ⟨hwild, hin, hrej⟩ := copyAll_end (ArgCopy.start_sane k.mm) rfl hcalls hshort
  rw [ArgCopy.start_provided] at hwild hin hrej
  constructor
  · rintro hsafe ⟨hover, hfree⟩
    obtain ⟨c', hout, ⟨hr, -⟩ | hr⟩ := hwild hover hfree
    · exact hout (hsafe.inBounds c' (Or.inl hr))
    · exact hout (hsafe.inBounds c' (Or.inr hr))
  · intro hnot
    refine ⟨hin hnot, fun htotal => ?_⟩
    rw [← sum_sizes] at htotal
    obtain ⟨c', hr⟩ := hrej hnot htotal
    refine ⟨c', hr, ?_⟩
    rw [execCalls, hr]
    rfl

/-- The memory of a caller with a table of one pointer to a string of `n` letters. -/
def longCaller (n a : ℕ) : BitVec 8 :=
  if a = 100 then 200 else if 200 ≤ a ∧ a < 200 + n then 97 else 0

theorem longCaller_low {n a : ℕ} (ha : a < 200) : longCaller n a = if a = 100 then 200 else 0 := by
  unfold longCaller
  split_ifs with h h'
  · rfl
  · omega
  · rfl

/-- One letter after another, and the zero. -/
theorem longCaller_string (n : ℕ) : HasString (longCaller n) 200 (List.replicate n 97) := by
  refine ⟨Stored.of_forall fun i b hb => ?_, fun b hb => ?_⟩
  · rw [cString, List.getElem?_append, List.length_replicate] at hb
    have hfar : 200 + i ≠ 100 := by omega
    by_cases hin : i < n
    · rw [if_pos hin, List.getElem?_replicate, if_pos hin] at hb
      rw [longCaller, if_neg hfar, if_pos (by omega)]
      exact hb
    · rw [if_neg hin] at hb
      obtain rfl : i = n := by
        have hlen := (List.getElem?_eq_some_iff.mp hb).1
        rw [List.length_singleton] at hlen
        omega
      rw [longCaller, if_neg hfar, if_neg (by omega)]
      simpa using hb
  · rw [List.eq_of_mem_replicate hb]
    decide

theorem longCaller_table (n : ℕ) : HasTable (longCaller n) 100 [List.replicate n 97] := by
  have hptr : getFsLong (longCaller n) 100 = 200 := by
    simp [getFsLong, ofBytes, longCaller_low]
    decide
  have hnull : getFsLong (longCaller n) 104 = 0 := by
    simp [getFsLong, ofBytes, longCaller_low]
    decide
  refine ⟨fun i str hi => ?_, Or.inr ⟨by decide, hnull⟩⟩
  obtain rfl : i = 0 := by
    have hlen := (List.getElem?_eq_some_iff.mp hi).1
    simp only [List.length_singleton] at hlen
    omega
  cases hi
  rw [Nat.mul_zero, Nat.add_zero, hptr]
  exact ⟨by decide, longCaller_string n⟩

/-- The calls of `copy_strings` for that caller, without an environment. -/
def longCalls : List ArgCall := [⟨0, 0, 0⟩, ⟨1, 100, 0⟩]

theorem longCalls_strings (n : ℕ) :
    List.Forall₂ (HasCall (fun _ => longCaller n) .user) longCalls [[], [List.replicate n 97]] := by
  constructor
  · exact ⟨rfl, fun i str hi => absurd hi (by simp)⟩
  · constructor
    · exact ⟨rfl, (longCaller_table n).1⟩
    · constructor

theorem sizes_longCalls (n : ℕ) : sizes [[], [List.replicate n 97]] = [0, n + 1] := by
  simp [sizes, packed, cString]

theorem short_longCalls {n : ℕ} (hn : n < 2 ^ 32) :
    Short [[], [List.replicate n (97 : BitVec 8)]] := by
  simpa [Short] using hn

/-- One letter fits. -/
theorem argsSafe_short : ArgsSafe sampleFiles sampleExeced 1 1 (execTask (sampleFiles 1) 1)
    (fun _ => longCaller 1) longCalls 1 0 2 := by
  have hsafe := (argsSafe_iff sampleFiles sampleExeced 1 1 (execTask (sampleFiles 1) 1) 1 0
    (longCalls_strings 1) (short_longCalls (by decide))).mpr
  have htotal : (packed (stacked [[], [List.replicate 1 (97 : BitVec 8)]])).length = 2 := by
    rw [← sum_sizes, sizes_longCalls]
    decide
  rw [htotal] at hsafe
  apply hsafe
  rintro ⟨hover, -⟩
  rw [sizes_longCalls] at hover
  simp [Overruns, argRoom_eq] at hover

theorem sampleExeced_free : sampleExeced.mm.Free maxArgPages :=
  .of_all (by decide) (by decide +kernel)

/-- One letter too many. -/
theorem hugeArgument_unsafe : ¬ArgsSafe sampleFiles sampleExeced 1 1 (execTask (sampleFiles 1) 1)
    (fun _ => longCaller 131068) longCalls 1 0 131069 := by
  obtain ⟨hwild, -, -⟩ := copyAll_end (ArgCopy.start_sane sampleExeced.mm) rfl
    (longCalls_strings 131068) (short_longCalls (by decide))
  rw [ArgCopy.start_provided, sizes_longCalls] at hwild
  have hover : Overruns argRoom [0, 131068 + 1] := by
    simp [Overruns, argRoom_eq]
  intro hsafe
  obtain ⟨c', hout, ⟨hr, -⟩ | hr⟩ := hwild hover sampleExeced_free
  · exact hout (hsafe.inBounds c' (Or.inl hr))
  · exact hout (hsafe.inBounds c' (Or.inr hr))

end LihaLinux.Mm
