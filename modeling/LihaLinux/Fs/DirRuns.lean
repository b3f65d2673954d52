import LihaLinux.Fs.DirNames

/-!
# Runs of calls that give names

The condition and the invariant of the names, for whole runs: as long as the condition holds, all
names in the directory are different. Two calls that look for one name before either of them
stores it both store it.
-/

namespace LihaLinux.Fs

namespace DirSystem

variable {τ : Type*} [DecidableEq τ] {sb : ZoneSuper} {s s' : DirSystem τ} {t : τ} {c : DirCall}

/-! ### Steps -/

/-- A call goes on to its next sleep. -/
theorem Inv.run (hi : s.Inv sb) (hc : s.call t = some c) (hrace : ¬s.Races (.run t))
    (h : s.runCall sb t c = some s') : s'.Inv sb := by
  have hplace := (hi.call t c hc).pos
  unfold runCall at h
  cases hpos : c.pos with
  | find k b =>
    rw [hpos] at h hplace
    have hnone := hi.bmap_none hc (by simp [hpos])
    rw [← Option.some.inj h]
    by_cases hfinds : s.finds c k b = true
    · rw [if_pos hfinds]
      exact hi.setCall hnone fun d hd => absurd hd (by simp)
    · rw [if_neg hfinds]
      exact hi.goto hc hnone
        (posOk_toBlock (hplace.1.scan hplace.2 (Bool.eq_false_of_not_eq_true hfinds)))
  | next k =>
    rw [hpos] at h hplace
    obtain ⟨hk, h⟩ := Option.ite_none_right_eq_some.mp h
    rw [← Option.some.inj h]
    exact hi.goto hc (hi.bmap_none hc (by simp [hpos])) (posOk_descend hk hplace .start rfl)
  | bread k z a ks =>
    rw [hpos] at h hplace
    obtain ⟨hseen, hk, hz, x, hpath, hx⟩ := hplace
    rw [← Option.some.inj h]
    refine hi.goto hc (hi.bmap_none hc (by simp [hpos])) ⟨hk, ?_⟩
    have hpath' : s.bmap.zones.OnPath k (.entry z a) ks := hx ▸ hpath.next (hx ▸ hz)
    by_cases h0 : s.bmap.zones.entry z a = 0
    · exact Or.inl ⟨h0, hseen.skip fun b => not_at_of_zero hpath' h0⟩
    · exact Or.inr ⟨h0, hseen, _, hpath', rfl⟩
  | brelse k i ks =>
    rw [hpos] at h hplace
    rw [← Option.some.inj h]
    refine hi.goto hc (hi.bmap_none hc (by simp [hpos])) ?_
    obtain ⟨hk, ⟨rfl, hseen⟩ | ⟨-, hseen, x, hpath, hx⟩⟩ := hplace
    · cases ks <;> exact posOk_toBlock hseen
    · exact posOk_descend hk hseen hpath hx
  | make =>
    rw [hpos] at h hplace
    rw [← Option.some.inj h]
    by_cases hmkdir : c.mkdir = true
    · rw [if_pos hmkdir]
      exact hi.mkdirBlock hc hpos
    · rw [if_neg hmkdir]
      exact hi.addEntry hc (hi.bmap_none hc (by simp [hpos])) hplace
  | made =>
    rw [hpos] at h hplace
    rw [← Option.some.inj h]
    exact hi.addEntry hc (hi.bmap_none hc (by simp [hpos])) hplace
  | add i b =>
    rw [hpos] at h hplace
    cases hfree : s.freeEntry i b with
    | some j =>
      simp only [hfree, Option.some.injEq] at h
      rw [← h]
      refine hi.store hc hpos hfree fun hmem => hrace ?_
      refine Or.inr ⟨c, hc, ?_, hmem⟩
      rw [takes, hpos]
      dsimp only
      rw [hfree, Option.isSome_some]
    | none =>
      simp only [hfree] at h
      exact hi.create hc (hi.bmap_none hc (by simp [hpos])) hplace.1
        (Nat.dvd_add hplace.2.1 (Nat.dvd_refl _)) h
  | create i =>
    rw [hpos] at h
    exact hi.runCreate hc hpos (fun hr => hrace (Or.inl hr)) h

/-- The read of a block fails, not in `find_entry`. -/
theorem Inv.readError (hi : s.Inv sb) (hc : s.call t = some c) (hrace : ¬s.Races (.readError t))
    (h : s.readFails sb t c = some s') : s'.Inv sb := by
  have hplace := (hi.call t c hc).pos
  have hlooks : looks c ≠ true := fun hl => hrace ⟨c, hc, hl⟩
  unfold readFails at h
  cases hpos : c.pos with
  | find k b => exact absurd (by rw [looks, hpos]) hlooks
  | bread k z a ks => exact absurd (by rw [looks, hpos]) hlooks
  | add i b =>
    rw [hpos] at h hplace
    have hnone := hi.bmap_none hc (by simp [hpos])
    dsimp only at h
    split_ifs at h
    · rw [← Option.some.inj h]
      exact hi.setCall hnone fun d hd => absurd hd (by simp)
    · exact hi.create hc hnone hplace.1 (Nat.dvd_add hplace.2.1 (Nat.dvd_refl _)) h
  | create i =>
    rw [hpos] at h
    obtain ⟨b, hb, rfl⟩ := Option.map_eq_some_iff.mp h
    obtain ⟨z, hbmap⟩ := hi.bmap
    have hinv : b.Inv sb z := hbmap.step ⟨_, hb, id⟩
    have hb' : b = { s.bmap with call := Function.update s.bmap.call t none } := by
      rw [BmapSystem.next] at hb
      split at hb
      · exact (Option.some.inj hb).symm
      · exact absurd hb (by simp)
    have hself : b.call t = none := by
      rw [hb']
      exact Function.update_self ..
    have hcalls : ∀ u, u ≠ t → b.call u = s.bmap.call u := by
      intro u hu
      rw [hb']
      exact Function.update_of_ne hu ..
    have hzones : b.zones = s.bmap.zones := by rw [hb']
    refine hi.congr (t := t) (F := fun _ => False) ⟨z, hinv⟩ (.of_get fun _ _ => ?_) rfl rfl ?_ ?_
      hcalls (fun u hu => Function.update_of_ne hu ..) ?_ fun _ => hself
    · exact congrFun (congrArg Zones.get hzones) _
    · intro p e
      unfold Live
      exact hzones ▸ Iff.rfl
    · rintro u j ⟨block, x, ks, hu⟩ a
      refine hi.blank u j ⟨block, x, ks, ?_⟩ a
      by_cases hut : u = t
      · subst hut
        exact absurd (hself.symm.trans hu) (by simp)
      · rw [← hcalls u hut]
        exact hu
    · intro d hd
      have hover : ({ s with bmap := b }.setCall t none).call t = none := Function.update_self ..
      rw [hover] at hd
      exact absurd hd (by simp)
  | _ =>
    rw [hpos] at h
    exact absurd h (by simp)

/-- A step that the condition allows keeps the invariant. -/
theorem Inv.step (hi : s.Inv sb) (h : CarefulStep sb s s') : s'.Inv sb := by
  obtain ⟨e, he, hrace⟩ := h
  cases e with
  | start t name mkdir root num => exact hi.start he
  | run t =>
    obtain ⟨c, hc, he⟩ := Option.bind_eq_some_iff.mp he
    exact hi.run hc hrace he
  | fail t =>
    obtain ⟨c, hc, he⟩ := Option.bind_eq_some_iff.mp he
    obtain ⟨hpos, he⟩ := Option.ite_none_right_eq_some.mp he
    rw [← Option.some.inj he]
    exact hi.setCall (hi.bmap_none hc (by simp [hpos])) fun d hd => absurd hd (by simp)
  | readError t =>
    obtain ⟨c, hc, he⟩ := Option.bind_eq_some_iff.mp he
    exact hi.readError hc hrace he

omit [DecidableEq τ] in
theorem Start.inv (h : s.Start sb) : s.Inv sb where
  bmap := ⟨_, h.bmap.inv⟩
  zone := h.zone
  size := h.size
  bound := h.bound
  unique := h.unique
  dot := h.dot
  given p hp := absurd (h.given ▸ hp) List.not_mem_nil
  nodup := h.given ▸ List.nodup_nil
  blank u j hstores := by
    obtain ⟨block, x, ks, hu⟩ := hstores
    rw [h.bmap.quiescent u] at hu
    exact absurd hu (by simp)
  call u c hc := by
    rw [h.call u] at hc
    exact absurd hc (by simp)
  outside u _ := h.bmap.quiescent u

/-- In every run in which no call stores a name that another call has stored since the first one
has begun to look for it, no read fails in `find_entry`, and no calls of `create_block` race, all
names in the directory are different and no entry is handed out twice. -/
theorem names_unique {s₀ : DirSystem τ} (hstart : s₀.Start sb)
    (hs : Reachable (· = s₀) (CarefulStep sb) s) : s.UniqueNames ∧ s.given.Nodup := by
  have hi : s.Inv sb := hs.invariant (P := fun s => s.Inv sb)
    (fun _ h => h ▸ hstart.inv) fun _ _ hi hstep => hi.step hstep
  exact ⟨hi.unique, hi.nodup⟩

/-! ### Two calls on a new directory -/

/-- A directory with `.` and `..` in zone 5. -/
def newDir (τ : Type*) : DirSystem τ where
  num := 1
  bmap :=
    { zones := ⟨fun n => if n = 0 then 5 else 0, fun _ _ => 0, fun k => k < 2⟩
      call := fun _ => none
      returned := [] }
  size := 32
  entry b := if b = 5 then dotEntries 1 1 else fun _ => .zero
  call _ := none
  given := []

omit [DecidableEq τ] in
theorem newDir_slot {x : Slot} (hx : (newDir τ).bmap.zones.get x ≠ 0) : x = .izone 0 := by
  cases x with
  | izone n =>
    by_cases hn : n = 0
    · rw [hn]
    · exact absurd (if_neg hn) hx
  | entry z k => exact absurd rfl hx

omit [DecidableEq τ] in
theorem newDir_live {p : ℕ} {e : DirEntry} (h : (newDir τ).Live p e) :
    p = 0 ∧ e.name = padName [46] ∨ p = 1 ∧ e.name = padName [46, 46] := by
  obtain ⟨b, ⟨hk, hb, x, hpath, rfl⟩, rfl, hinode⟩ := h
  obtain rfl := newDir_slot hb
  have hpath0 : path (p / dirEntries) = (0, []) := by
    cases hpath' : path (p / dirEntries) with
    | mk n l =>
      rcases hpath.slot with ⟨hslot, hks⟩ | ⟨_, hslot, -⟩ | ⟨_, _, hslot, -⟩ | hlen
      · rw [hpath'] at hslot hks
        obtain rfl : 0 = n := Slot.izone.inj hslot
        obtain rfl : [] = l := hks
        rfl
      · exact absurd hslot (by simp)
      · exact absurd hslot (by simp)
      · rcases path_cases hk with ⟨_, -, h⟩ | ⟨_, -, h⟩ | ⟨_, -, _, -, h⟩ <;>
          simp [h] at hlen
  have hp0 : p / dirEntries = 0 := Zones.path_injective hk (by decide) hpath0
  have hlt : p < dirEntries := by
    unfold dirEntries at *
    omega
  rw [Nat.mod_eq_of_lt hlt] at hinode ⊢
  have hentry : ∀ q, (newDir τ).entry ((newDir τ).bmap.zones.get (.izone 0)) q =
      dotEntries 1 1 q := fun q => rfl
  rw [hentry] at hinode ⊢
  unfold dotEntries at hinode ⊢
  split_ifs at hinode ⊢ with h0 h1
  · exact Or.inl ⟨h0, rfl⟩
  · exact Or.inr ⟨h1, rfl⟩
  · exact absurd rfl hinode

omit [DecidableEq τ] in
theorem newDir_start : (newDir τ).Start BmapSystem.smallDevice := by
  have hget : ∀ x, (newDir τ).bmap.zones.get x ≠ 0 → (newDir τ).bmap.zones.get x = 5 := by
    intro x hx
    rw [newDir_slot hx]
    rfl
  have hnames : padName [46] ≠ padName [46, 46] := by decide
  refine ⟨⟨⟨by decide, rfl, fun x _ hx => ⟨1, hget x hx, rfl⟩, ?_⟩, fun _ => rfl, rfl⟩, ?_, ?_, ?_,
    ?_, ?_, fun _ => rfl, rfl⟩
  · intro x y _ _ heq hne
    rw [newDir_slot (x := x) hne, newDir_slot (x := y) (heq ▸ hne)]
  · exact Nat.succ_ne_zero 4
  · exact ⟨2, rfl⟩
  · intro p e he
    change 16 * p < 32
    rcases newDir_live he with ⟨rfl, -⟩ | ⟨rfl, -⟩ <;> omega
  · intro p p' e e' he he' hname
    rcases newDir_live he with ⟨rfl, h⟩ | ⟨rfl, h⟩ <;>
      rcases newDir_live he' with ⟨rfl, h'⟩ | ⟨rfl, h'⟩
    · rfl
    · exact absurd (h.symm.trans (hname.trans h')) hnames
    · exact absurd (h'.symm.trans (hname.symm.trans h)) hnames
    · rfl
  · exact ⟨0, ⟨1, padName [46]⟩, ⟨5, ⟨by decide, by decide, .izone 0, .start, rfl⟩, rfl, by decide⟩,
      rfl⟩

instance [Fintype τ] (s : DirSystem τ) : DecidablePred s.Races
  | .run t => inferInstanceAs (Decidable (s.bmap.Races (.run t) ∨
      ∃ c ∈ s.call t, s.takes c = true ∧ padName c.name ∈ c.since))
  | .readError t => inferInstanceAs (Decidable (∃ c ∈ s.call t, looks c = true))
  | .start _ _ _ _ _ => inferInstanceAs (Decidable False)
  | .fail _ => inferInstanceAs (Decidable False)

/-- The next state, when the condition allows the step. -/
def carefulNext [Fintype τ] (sb : ZoneSuper) (s : DirSystem τ) (e : DirEvent τ) :
    Option (DirSystem τ) :=
  if s.Races e then none else s.next sb e

theorem CarefulStep.of_carefulNext [Fintype τ] {e : DirEvent τ}
    (h : s.carefulNext sb e = some s') : CarefulStep sb s s' := by
  unfold carefulNext at h
  split_ifs at h with hrace
  exact ⟨e, h, hrace⟩

/-- Two calls at the same time, for two names. -/
theorem names_unique_two : ∃ s : DirSystem Bool,
    Reachable (· = newDir Bool) (CarefulStep BmapSystem.smallDevice) s ∧ s.given = [3, 2] ∧
      s.UniqueNames ∧ s.given.Nodup := by
  have hrun : (runEvents (carefulNext BmapSystem.smallDevice) (newDir Bool)
      [.start true [97] false false 2, .run true, .start false [98] true false 3, .run false,
        .run true, .run false, .run true, .run false, .run false]).any
        (fun s => decide (s.given = [3, 2])) = true := by
    decide +kernel
  have hstart : Reachable (· = newDir Bool) (CarefulStep BmapSystem.smallDevice) (newDir Bool) :=
    .of_init rfl
  obtain ⟨s, hs, -, hP⟩ := hstart.exists_runEvents (fun _ _ _ he => .of_carefulNext he) hrun
  exact ⟨s, hs, of_decide_eq_true hP, names_unique newDir_start hs⟩

/-- Two calls look for one name before either of them stores it. -/
theorem names_twice : ∃ s : DirSystem Bool,
    Reachable (· = newDir Bool) (Step BmapSystem.smallDevice) s ∧
      (newDir Bool).Start BmapSystem.smallDevice ∧ (∀ t, s.call t = none) ∧ ¬s.UniqueNames := by
  have hrun : (runEvents (next BmapSystem.smallDevice) (newDir Bool)
      [.start true [97] false false 2, .run true, .start false [97] false false 3, .run false,
        .run true, .run true, .run false, .run false]).any
        (fun s => decide ((∀ t, (s.call t).isNone) ∧ s.bmap.zones.zone 0 = 5 ∧
          (s.entry 5 2).inode ≠ 0 ∧ (s.entry 5 3).inode ≠ 0 ∧
          (s.entry 5 2).name = (s.entry 5 3).name)) = true := by
    decide +kernel
  have hstart : Reachable (· = newDir Bool) (Step BmapSystem.smallDevice) (newDir Bool) :=
    .of_init rfl
  obtain ⟨s, hs, -, hP⟩ := hstart.exists_runEvents (fun _ e _ he => ⟨e, he⟩) hrun
  obtain ⟨hcall, hzone, h2, h3, hname⟩ := of_decide_eq_true hP
  have hat : s.bmap.zones.At 0 5 := ⟨by decide, by decide, .izone 0, .start, hzone⟩
  refine ⟨s, hs, newDir_start, fun t => Option.isNone_iff_eq_none.mp (hcall t), fun h => ?_⟩
  exact absurd (h 2 3 _ _ ⟨5, hat, rfl, h2⟩ ⟨5, hat, rfl, h3⟩ hname) (by decide)

end DirSystem

end LihaLinux.Fs
