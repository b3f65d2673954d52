import LihaLinux.Mm.Faults

/-!
# Writable frames are private

The copy-on-write discipline: an entry with the write bit set maps a frame
above 1 MB that no other entry maps. It is preserved by every move, and it is
what makes a store of one task invisible to the others.
-/

namespace LihaLinux.Mm

variable {lo hi : ℕ} {s : State} {held : Finset ℕ} {d d' j t t' f : ℕ} {w : Word}

/-- Every writable entry maps a frame above 1 MB that no other entry maps. -/
def State.Private (s : State) : Prop :=
  ∀ d j w, s.entry d j = some w → writable w = true → lowMem ≤ frame w ∧
    ∀ d' j' w', s.entry d' j' = some w' → frame w' = frame w → d' = d ∧ j' = j

theorem State.Private.congr {s s' : State} (h : s.Private) (hentry : s'.entry = s.entry) :
    s'.Private := by
  intro d j w
  rw [hentry]
  exact h d j w

/-- Rewriting one entry keeps the discipline when a writable frame is put only
where nobody else maps it, and no frame is added that is writable elsewhere. -/
theorem State.Private.rewrite {s s' : State} (h : s.Private) {v : Option Word}
    (hentry : ∀ e i, s'.entry e i = if e = d ∧ i = j then v else s.entry e i)
    (hwrite : ∀ w, v = some w → writable w = true → lowMem ≤ frame w ∧
      ∀ e i u, ¬(e = d ∧ i = j) → s.entry e i = some u → frame u ≠ frame w)
    (hold : ∀ w, v = some w → ∀ e i u, ¬(e = d ∧ i = j) → s.entry e i = some u →
      writable u = true → frame u ≠ frame w) : s'.Private := by
  intro e i u hu hwu
  rw [hentry] at hu
  split at hu
  · next heq =>
    obtain ⟨hlow, hother⟩ := hwrite u hu hwu
    refine ⟨hlow, fun e' i' u' hu' hframe => ?_⟩
    rw [hentry] at hu'
    split at hu'
    · next heq' => exact ⟨by rw [heq.1, heq'.1], by rw [heq.2, heq'.2]⟩
    · next hne => exact absurd hframe (hother e' i' u' hne hu')
  · next hne =>
    obtain ⟨hlow, hother⟩ := h e i u hu hwu
    refine ⟨hlow, fun e' i' u' hu' hframe => ?_⟩
    rw [hentry] at hu'
    split at hu'
    · exact absurd hframe.symm (hold u' hu' e i u hne hu hwu)
    · exact hother e' i' u' hu' hframe

/-- An entry that keeps its frame, and becomes writable only when it was. -/
theorem State.Private.reflag {s s' : State} (h : s.Private) {v : Word}
    (hw : s.entry d j = some w)
    (hentry : ∀ e i, s'.entry e i = if e = d ∧ i = j then some v else s.entry e i)
    (hframe : frame v = frame w) (hwrite : writable v = true → writable w = true) :
    s'.Private := by
  refine h.rewrite hentry ?_ ?_
  · intro u hu hwu
    obtain rfl : v = u := by simpa using hu
    obtain ⟨hlow, hother⟩ := h d j w hw (hwrite hwu)
    rw [hframe]
    exact ⟨hlow, fun e i u hne hu' heq => hne (hother e i u hu' heq)⟩
  · intro u hu e i u' hne hu' hwu' heq
    obtain rfl : v = u := by simpa using hu
    obtain ⟨rfl, rfl⟩ := (h e i u' hu' hwu').2 d j w hw (by rw [heq, hframe])
    exact hne ⟨rfl, rfl⟩

/-- A frame that nobody maps may be mapped writable. -/
theorem State.Private.fresh {s s' : State} (h : s.Private) {v : Word} (hlow : lowMem ≤ frame v)
    (hfree : ¬s.Mapped (frame v))
    (hentry : ∀ e i, s'.entry e i = if e = d ∧ i = j then some v else s.entry e i) :
    s'.Private := by
  refine h.rewrite hentry ?_ ?_
  · intro u hu _
    obtain rfl : v = u := by simpa using hu
    exact ⟨hlow, fun e i u _ hu heq => hfree ⟨e, i, u, hu, heq⟩⟩
  · intro u hu e i u' _ hu' _ heq
    obtain rfl : v = u := by simpa using hu
    exact hfree ⟨e, i, u', hu', heq⟩

/-- A frame mapped read-only at one place may be mapped read-only at another. -/
theorem State.Private.readOnly {s s' : State} (h : s.Private) {v : Word}
    (hro : writable v = false)
    (hsource : frame v < lowMem ∨
      ∃ e i u, s.entry e i = some u ∧ writable u = false ∧ frame u = frame v)
    (hentry : ∀ e i, s'.entry e i = if e = d ∧ i = j then some v else s.entry e i) :
    s'.Private := by
  refine h.rewrite hentry ?_ ?_
  · intro u hu hwu
    obtain rfl : v = u := by simpa using hu
    simp [hro] at hwu
  · intro u hu e i u' _ hu' hwu' heq
    obtain rfl : v = u := by simpa using hu
    obtain ⟨hlow, hother⟩ := h e i u' hu' hwu'
    rcases hsource with hlow' | ⟨e', i', u'', hu'', hro'', hframe''⟩
    · omega
    · obtain ⟨rfl, rfl⟩ := hother e' i' u'' hu'' (by rw [hframe'', heq])
      rw [hu'] at hu''
      obtain rfl : u' = u'' := by simpa using hu''
      simp [hro''] at hwu'

theorem Inv.held_not_mapped (h : Inv lo hi ⟨s, held⟩) (hf : f ∈ held) : ¬s.Mapped f := by
  rintro ⟨e, i, u, hu, rfl⟩
  exact h.wf.held_unmapped hf (d := e) (j := i) (by simp [hu])

/-- A frame whose counter is 1 is mapped at most once. -/
theorem Inv.single_reference (h : Inv lo hi ⟨s, held⟩) (hw : s.entry d j = some w)
    (hhigh : lowMem ≤ frame w) (hone : s.memMap (mapNr (frame w)) = 1) {u : Word}
    (hu : s.entry d' t = some u) (hframe : frame u = frame w) : d' = d ∧ t = j := by
  obtain ⟨hlo, hhi⟩ := h.entry_high hw hhigh
  have hcount := h.counts _ hlo hhi
  simp only at hcount
  rw [hone] at hcount
  by_contra hne
  -- clearing the place (d, j) leaves another reference, so the count was at least two
  have hclear := Refs.count_clear held hw (frame w)
  rw [indicator_true rfl] at hclear
  have hzero : ((Config.refs ⟨s, held⟩).setPte d j none).count (frame w) = 0 := by omega
  have hfree := ((h.wf.clearPte d j).unreferenced hzero).1 d' t
  simp only [Refs.setPte, Config.refs_pte, if_neg hne, hu, Option.map_some, hframe] at hfree
  exact hfree rfl

/-- A frame above 1 MB that is mapped at one place only has the counter 1. -/
theorem Inv.memMap_eq_one (h : Inv lo hi ⟨s, held⟩) (hw : s.entry d j = some w)
    (hhigh : lowMem ≤ frame w)
    (honly : ∀ d' j' w', s.entry d' j' = some w' → frame w' = frame w → d' = d ∧ j' = j) :
    s.memMap (mapNr (frame w)) = 1 := by
  obtain ⟨hlo, hhi⟩ := h.entry_high hw hhigh
  have hcount := h.counts _ hlo hhi
  simp only at hcount
  have hclear := Refs.count_clear held hw (frame w)
  rw [indicator_true rfl] at hclear
  have hzero : ((Config.refs ⟨s, held⟩).setPte d j none).count (frame w) = 0 := by
    apply Refs.count_eq_zero
    · intro d' j' hp
      simp only [Refs.setPte, Config.refs_pte] at hp
      split at hp
      · simp at hp
      · next hne =>
        obtain ⟨w', hw', hframe⟩ := Option.map_eq_some_iff.mp hp
        exact hne (honly d' j' w' hw' hframe)
    · exact h.entry_ne_table hw
    · intro hheld
      exact h.wf.held_unmapped hheld (d := d) (j := j) (by simp [hw])
  omega

theorem store_effect (h : Inv lo hi ⟨s, held⟩) (ht : s.table d = some t)
    (hw : s.entry d j = some w) (hhigh : lowMem ≤ frame w) (offset : ℕ) (b : BitVec 8) :
    ((s.setWord t j (w ||| 0x60#32)).setByteAt (frame w) offset b).table = s.table ∧
      ∀ e i, ((s.setWord t j (w ||| 0x60#32)).setByteAt (frame w) offset b).entry e i =
        if e = d ∧ i = j then some (w ||| 0x60#32) else s.entry e i := by
  obtain ⟨htable, hentry⟩ := setEntry_effect h ht (h.entry_index hw) (w ||| 0x60#32)
  obtain ⟨hdt, hde⟩ := State.table_entry_setWord_data (s := s.setWord t j (w ||| 0x60#32))
    (ne_kernel_page hhigh).1 (by rw [htable]; exact h.entry_ne_table hw) (offset / 4)
    (setByte ((s.setWord t j (w ||| 0x60#32)).mem (frame w) (offset / 4)) (offset % 4) b)
  have hpres : present (w ||| 0x60#32) = true := by simp [State.present_of_entry hw]
  refine ⟨hdt.trans htable, fun e i => ?_⟩
  rw [State.setByteAt, hde, hentry, if_pos hpres]

/-- Every move keeps the copy-on-write discipline. -/
theorem Move.private {c c' : Config} (hmove : Move c c') (h : Inv lo hi c)
    (hp : c.state.Private) : c'.state.Private := by
  cases hmove with
  | take hlow hf hzero => exact hp.congr (take_effect h hlow hf hzero).2
  | drop hf => exact hp.congr rfl
  | attach hf hd hempty hclear => exact hp.congr (attach_effect h hf hd hempty hclear).2
  | detach ht hempty => exact hp.congr (detach_effect h ht hempty).2
  | map hf ht hj hempty =>
    obtain ⟨hlo, hhi⟩ := h.held_range hf
    obtain ⟨_, hentry⟩ := setEntry_effect h ht hj _
    rw [if_pos (present_fresh _)] at hentry
    refine hp.fresh ?_ ?_ hentry
    · rw [h.frame_fresh hhi]
      exact h.low.trans hlo
    · rw [h.frame_fresh hhi]
      exact h.held_not_mapped hf
  | unmap ht hw =>
    obtain ⟨_, hentry⟩ := setEntry_decHigh_effect h ht (h.entry_index hw) _ 0
    rw [if_neg (by decide)] at hentry
    exact hp.rewrite hentry (by simp) (by simp)
  | clear ht hj hempty =>
    obtain ⟨_, hentry⟩ := setEntry_effect h ht hj 0
    rw [if_neg (by decide)] at hentry
    exact hp.rewrite hentry (by simp) (by simp)
  | @protect s held d j t w ht hw =>
    have hpres : present (writeProtect w) = true := by simp [State.present_of_entry hw]
    obtain ⟨_, hentry⟩ := setEntry_effect h ht (h.entry_index hw) (writeProtect w)
    rw [if_pos hpres] at hentry
    exact hp.reflag hw hentry (by simp) (by simp)
  | share hw hro hhigh ht' hempty hmod =>
    obtain ⟨_, hentry⟩ := setEntry_effect h ht' (h.entry_index hw) _
    rw [if_pos (State.present_of_entry hw)] at hentry
    exact hp.readOnly hro (.inr ⟨_, _, _, hw, hro, rfl⟩) hentry
  | shareLow hpres hro hlow ht' hj hempty =>
    obtain ⟨_, hentry⟩ := setEntry_effect h ht' hj _
    rw [if_pos hpres] at hentry
    exact hp.readOnly hro (.inl hlow) hentry
  | @unprotect s held d j t w ht hw hhigh hone =>
    have hpres : present (w ||| 2#32) = true := by simp [State.present_of_entry hw]
    obtain ⟨_, hentry⟩ := setEntry_effect h ht (h.entry_index hw) (w ||| 2#32)
    rw [if_pos hpres] at hentry
    refine hp.rewrite hentry ?_ ?_
    · intro u hu _
      obtain rfl : w ||| 2#32 = u := by simpa using hu
      rw [frame_unprotect]
      exact ⟨hhigh, fun e i u hne hu heq => hne (h.single_reference hw hhigh hone hu heq)⟩
    · intro u hu e i u' hne hu' _ heq
      obtain rfl : w ||| 2#32 = u := by simpa using hu
      rw [frame_unprotect] at heq
      exact hne (h.single_reference hw hhigh hone hu' heq)
  | copy hf ht hw =>
    obtain ⟨hlo, hhi⟩ := h.held_range hf
    obtain ⟨_, hentry⟩ := copy_effect h hf ht hw
    refine hp.fresh ?_ ?_ hentry
    · rw [h.frame_fresh hhi]
      exact h.low.trans hlo
    · rw [h.frame_fresh hhi]
      exact h.held_not_mapped hf
  | fill hf content =>
    exact hp.congr (State.table_entry_setPage (h.held_ge_two hf).1 (h.held_ne_table hf) _).2
  | store ht hw hhigh b =>
    obtain ⟨_, hentry⟩ := store_effect h ht hw hhigh _ b
    exact hp.reflag hw hentry (by simp) (by simp)

theorem Moves.private {c c' : Config} (hmoves : Moves c c') (h : Inv lo hi c)
    (hp : c.state.Private) : c'.state.Private := by
  induction hmoves with
  | refl => exact hp
  | tail hprev hmove ih => exact hmove.private (Moves.inv hprev h) ih

end LihaLinux.Mm
