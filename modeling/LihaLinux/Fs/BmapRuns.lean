import LihaLinux.Fs.BmapPaths
import Mathlib.Data.Fintype.Basic

/-!
# Zones in every run of `create_block`

As long as no call finds a slot empty that another call is about to fill, every zone that
`new_block` has taken from the bitmap ends up in a slot of the inode, and all calls for one
logical block return the same zone. Two calls that find the same slot empty both allocate a
zone, and the first one is lost.
-/

namespace LihaLinux.Fs

/-! ### The calls -/

/-- The slot and the zone of a call that has taken a zone and has not stored it. -/
def Bmap.pending : Bmap → Option (Slot × ℕ)
  | .getblk x j _ | .brelseNew x j _ => some (x, j)
  | _ => none

/-- The walk for a logical block ends with a number; with 0 only on a full device, at a slot
that will stay empty. -/
def Ends (sb : ZoneSuper) (w : Zones) (P : Slot → Prop) (block i : ℕ) : Prop :=
  ∃ x ks, w.OnPath block x ks ∧ w.get x = i ∧ (i ≠ 0 → ks = []) ∧ (i = 0 → w.Full sb ∧ ¬P x)

/-- A call stands where the walk for its logical block has brought it. -/
def Bmap.Ok (sb : ZoneSuper) (w : Zones) (P : Slot → Prop) (block : ℕ) : Bmap → Prop
  | .start block' => block' = block
  | .newBlock x ks | .getblk x _ ks | .brelseNew x _ ks => w.OnPath block x ks ∧ w.get x = 0
  | .bread z k ks => z ≠ 0 ∧ ∃ x, w.OnPath block x (k :: ks) ∧ w.get x = z
  | .brelse i ks => ∃ x, w.OnPath block x ks ∧ w.get x = i ∧ (i = 0 → w.Full sb ∧ ¬P x)

/-- A call goes on from a slot with a number, or returns what the walk ends with. -/
def Bmap.Next.Ok (sb : ZoneSuper) (w : Zones) (P : Slot → Prop) (block : ℕ) : Bmap.Next → Prop
  | .go f => f.Ok sb w P block ∧ f.fills = none
  | .ret i => Ends sb w P block i

/-- Whoever has taken a zone for a slot is about to fill it. -/
theorem Bmap.fills_of_pending {f : Bmap} {x : Slot} {j : ℕ} (h : f.pending = some (x, j)) :
    f.fills = some x := by
  cases f <;> simp only [Bmap.pending, Option.some.injEq, Prod.mk.injEq, reduceCtorEq] at h
  · rw [h.1]
    rfl
  · rw [h.1]
    rfl

/-- A call that fills no slot has taken no zone. -/
theorem Bmap.pending_eq_none {f : Bmap} (h : f.fills = none) : f.pending = none := by
  cases f <;> first | rfl | cases h

/-- The slot that a call is about to fill is empty and on its walk. -/
theorem Bmap.Ok.of_fills {sb : ZoneSuper} {w : Zones} {P : Slot → Prop} {block : ℕ} {f : Bmap}
    {x : Slot} (h : f.Ok sb w P block) (hf : f.fills = some x) :
    w.get x = 0 ∧ ∃ ks, w.OnPath block x ks := by
  cases f <;> simp only [Bmap.fills, Option.some.injEq, reduceCtorEq] at hf
  all_goals
    subst hf
    exact ⟨h.2, _, h.1⟩

/-- A call that goes on from a slot it has met. -/
theorem Bmap.descend_ok {sb : ZoneSuper} {w : Zones} {P : Slot → Prop} {block i : ℕ} {x : Slot}
    {ks : List ℕ} (hpath : w.OnPath block x ks) (hx : w.get x = i)
    (hi : i = 0 → w.Full sb ∧ ¬P x) : (Bmap.descend i ks).Ok sb w P block := by
  cases ks with
  | nil => exact ⟨x, [], hpath, hx, fun _ => rfl, hi⟩
  | cons k ks =>
    by_cases h0 : i = 0
    · simp only [Bmap.descend, if_pos h0]
      exact ⟨x, _, hpath, by rw [hx, h0], fun h => absurd rfl h, fun _ => hi h0⟩
    · simp only [Bmap.descend, if_neg h0]
      exact ⟨⟨h0, x, hpath, hx⟩, rfl⟩

/-- After `new_block` the number is in the slot, and the call goes on from there. -/
theorem Bmap.assign_ok (sb : ZoneSuper) {w : Zones} (P : Slot → Prop) {block j : ℕ} {x : Slot}
    {ks : List ℕ} (hpath : w.OnPath block x ks) (hx : w.get x = 0)
    (hj : j = 0 → w.Full sb ∧ ¬P x) :
    (Bmap.assign w x j ks).1 = w.set x j ∧
      (Bmap.assign w x j ks).2.Ok sb (w.set x j) P block := by
  have hpath' : (w.set x j).OnPath block x ks := hpath.set hx
  have hget : (w.set x j).get x = j := by rw [Zones.get_set, if_pos rfl]
  have hj' : j = 0 → (w.set x j).Full sb ∧ ¬P x := by
    rintro rfl
    rw [Zones.set_zero hx]
    exact hj rfl
  cases x with
  | izone n => exact ⟨rfl, Bmap.descend_ok hpath' hget hj'⟩
  | entry z k =>
    constructor
    · by_cases h0 : j = 0
      · subst h0
        rw [Zones.set_zero hx]
        rfl
      · simp only [Bmap.assign, if_neg h0]
    · exact ⟨⟨_, hpath', hget, hj'⟩, rfl⟩

/-- A step of some call, as the other calls see it: full slots stay, and so do empty slots for
which no zone has been taken, on a full device. -/
structure Grows (sb : ZoneSuper) (w w' : Zones) (P P' : Slot → Prop) : Prop where
  path : ∀ block x ks, block < maxBlock → w.OnPath block x ks → w'.OnPath block x ks
  get : ∀ x, w.Owns x → w.get x ≠ 0 → w'.get x = w.get x
  full : w.Full sb → w'.Full sb
  empty : ∀ x, w.Owns x → w.get x = 0 → w.Full sb → ¬P x → w'.get x = 0 ∧ ¬P' x

section Grows

variable {sb : ZoneSuper} {w w' : Zones} {P P' : Slot → Prop} {block : ℕ}

/-- What is known of a slot that the walk has met stays true. -/
theorem Grows.slot (h : Grows sb w w' P P') {x : Slot} {i : ℕ} (hx : w.Owns x)
    (hget : w.get x = i) (hi : i = 0 → w.Full sb ∧ ¬P x) :
    w'.get x = i ∧ (i = 0 → w'.Full sb ∧ ¬P' x) := by
  by_cases h0 : i = 0
  · obtain ⟨hfull, hP⟩ := hi h0
    obtain ⟨hget', hP'⟩ := h.empty x hx (by rw [hget, h0]) hfull hP
    exact ⟨by rw [hget', h0], fun _ => ⟨h.full hfull, hP'⟩⟩
  · exact ⟨by rw [h.get x hx (by rw [hget]; exact h0), hget], fun h => absurd h h0⟩

/-- The end of a walk stays its end. -/
theorem Grows.ends (h : Grows sb w w' P P') (hblock : block < maxBlock) {i : ℕ}
    (he : Ends sb w P block i) : Ends sb w' P' block i := by
  obtain ⟨x, ks, hpath, hget, hks, hi⟩ := he
  obtain ⟨hget', hi'⟩ := h.slot ⟨block, ks, hblock, hpath⟩ hget hi
  exact ⟨x, ks, h.path _ _ _ hblock hpath, hget', hks, hi'⟩

/-- A call that does not step stands where it has stood. -/
theorem Grows.ok (h : Grows sb w w' P P') (hblock : block < maxBlock) {f : Bmap}
    (hf : f.Ok sb w P block) (hfills : ∀ x, f.fills = some x → w'.get x = 0) :
    f.Ok sb w' P' block := by
  cases f with
  | start b => exact hf
  | newBlock x ks => exact ⟨h.path _ _ _ hblock hf.1, hfills x rfl⟩
  | getblk x j ks => exact ⟨h.path _ _ _ hblock hf.1, hfills x rfl⟩
  | brelseNew x j ks => exact ⟨h.path _ _ _ hblock hf.1, hfills x rfl⟩
  | bread z k ks =>
    obtain ⟨hz, x, hpath, hget⟩ := hf
    refine ⟨hz, x, h.path _ _ _ hblock hpath, ?_⟩
    rw [h.get x ⟨block, _, hblock, hpath⟩ (by rw [hget]; exact hz), hget]
  | brelse i ks =>
    obtain ⟨x, hpath, hget, hi⟩ := hf
    exact ⟨x, h.path _ _ _ hblock hpath, h.slot ⟨block, ks, hblock, hpath⟩ hget hi⟩

end Grows

/-- A zone that is marked as used and is in no slot of the inode. -/
def Taken (sb : ZoneSuper) (w : Zones) (j : ℕ) : Prop :=
  (∃ k, j = k + sb.firstdatazone - 1 ∧ w.zmap k = true) ∧ j ≠ 0 ∧ ∀ y, w.Owns y → w.get y ≠ j

/-- The zone that a call has taken, and has cleared after `getblk`. -/
def Bmap.Holds (sb : ZoneSuper) (w : Zones) : Bmap → Prop
  | .getblk _ j _ => Taken sb w j
  | .brelseNew _ j _ => Taken sb w j ∧ ∀ k, w.get (.entry j k) = 0
  | _ => True

theorem Taken.congr {sb : ZoneSuper} {w w' : Zones} {j : ℕ} (h : Taken sb w j)
    (hget : ∀ y, w.Owns y → w'.get y = w.get y)
    (hmono : ∀ k, w.zmap k = true → w'.zmap k = true) : Taken sb w' j := by
  obtain ⟨⟨k, hk, hbit⟩, hj, hown⟩ := h
  refine ⟨⟨k, hk, hmono k hbit⟩, hj, ?_⟩
  intro y hy
  rw [Zones.owns_congr hget] at hy
  rw [hget y hy]
  exact hown y hy

theorem Bmap.Holds.congr {sb : ZoneSuper} {w w' : Zones} {f : Bmap} (h : f.Holds sb w)
    (hget : ∀ y, w.Owns y → w'.get y = w.get y) (hzero : ∀ y, w.get y = 0 → w'.get y = 0)
    (hmono : ∀ k, w.zmap k = true → w'.zmap k = true) : f.Holds sb w' := by
  cases f with
  | getblk x j ks => exact Taken.congr h hget hmono
  | brelseNew x j ks => exact ⟨h.1.congr hget hmono, fun k => hzero _ (h.2 k)⟩
  | _ => trivial

theorem Bmap.Holds.taken {sb : ZoneSuper} {w : Zones} {f : Bmap} {x : Slot} {j : ℕ}
    (h : f.Holds sb w) (hf : f.pending = some (x, j)) : Taken sb w j := by
  cases f <;> simp only [Bmap.pending, Option.some.injEq, Prod.mk.injEq, reduceCtorEq] at hf
  · obtain ⟨rfl, rfl⟩ := hf
    exact h
  · obtain ⟨rfl, rfl⟩ := hf
    exact h.1

/-! ### Storing a zone in its slot -/

section Store

variable {sb : ZoneSuper} {w : Zones} {x y : Slot} {j : ℕ}

theorem Zones.Owns.set (h : w.Owns y) (hx : w.get x = 0) : (w.set x j).Owns y := by
  obtain ⟨block, ks, hblock, h⟩ := h
  exact ⟨block, ks, hblock, h.set hx⟩

/-- What is in a slot of the inode, apart from the new zone, was in the same slot before. -/
theorem Zones.Owns.of_set (h : (w.set x j).Owns y) (hclear : ∀ k, w.get (.entry j k) = 0)
    (hy : (w.set x j).get y ≠ 0) (hyx : y ≠ x) :
    w.Owns y ∧ (w.set x j).get y = w.get y := by
  obtain ⟨block, ks, hblock, h⟩ := h
  rw [Zones.get_set, if_neg hyx] at hy ⊢
  rcases h.of_set hclear with h | ⟨k, rfl⟩
  · exact ⟨⟨block, ks, hblock, h⟩, rfl⟩
  · exact absurd (hclear k) hy

/-- The inode stays consistent. -/
theorem Zones.Consistent.set (h : w.Consistent sb) (htaken : Taken sb w j)
    (hclear : ∀ k, w.get (.entry j k) = 0) : (w.set x j).Consistent sb := by
  obtain ⟨⟨k, hk, hbit⟩, -, hnotin⟩ := htaken
  have hself : (w.set x j).get x = j := by rw [Zones.get_set, if_pos rfl]
  refine ⟨h.firstdatazone, ?_, ?_, ?_⟩
  · rw [Zones.zmap_set]
    exact h.reserved
  · intro y hy hne
    rw [Zones.zmap_set]
    by_cases hyx : y = x
    · rw [hyx, hself]
      exact ⟨k, hk, hbit⟩
    · obtain ⟨hy', heq⟩ := hy.of_set hclear hne hyx
      rw [heq] at hne ⊢
      exact h.used y hy' hne
  · intro y y' hy hy' heq hne
    by_cases hyx : y = x <;> by_cases hyx' : y' = x
    · rw [hyx, hyx']
    · obtain ⟨hown', heq'⟩ := hy'.of_set hclear (by rwa [← heq]) hyx'
      rw [hyx, hself, heq'] at heq
      exact absurd heq.symm (hnotin y' hown')
    · obtain ⟨hown', heq'⟩ := hy.of_set hclear hne hyx
      rw [hyx', hself, heq'] at heq
      exact absurd heq (hnotin y hown')
    · obtain ⟨hown₁, heq₁⟩ := hy.of_set hclear hne hyx
      obtain ⟨hown₂, heq₂⟩ := hy'.of_set hclear (by rwa [← heq]) hyx'
      rw [heq₁] at heq hne
      rw [heq₂] at heq
      exact h.inj y y' hown₁ hown₂ heq hne

/-- Another zone that is in no slot of the inode stays so. -/
theorem Taken.set {i : ℕ} (h : Taken sb w i) (hij : i ≠ j)
    (hclear : ∀ k, w.get (.entry j k) = 0) : Taken sb (w.set x j) i := by
  obtain ⟨⟨k, hk, hbit⟩, hi, hnotin⟩ := h
  refine ⟨⟨k, hk, by rw [Zones.zmap_set]; exact hbit⟩, hi, ?_⟩
  intro y hy heq
  by_cases hyx : y = x
  · rw [Zones.get_set, if_pos hyx] at heq
    exact hij heq.symm
  · obtain ⟨hown, heq'⟩ := hy.of_set hclear (by rwa [heq]) hyx
    rw [heq'] at heq
    exact hnotin y hown heq

/-- A call that has taken another zone keeps it. -/
theorem Bmap.Holds.set {f : Bmap} (h : f.Holds sb w) (hown : w.Owns x)
    (hj : ∀ y, f.pending ≠ some (y, j)) (hclear : ∀ k, w.get (.entry j k) = 0) :
    f.Holds sb (w.set x j) := by
  cases f with
  | getblk y i ks => exact Taken.set h (fun hij => hj y (by rw [hij]; rfl)) hclear
  | brelseNew y i ks =>
    obtain ⟨htaken, hentry⟩ := h
    refine ⟨htaken.set (fun hij => hj y (by rw [hij]; rfl)) hclear, ?_⟩
    intro k
    have hne : Slot.entry i k ≠ x := by
      rintro rfl
      obtain ⟨y', hy', heq, -⟩ := hown.parent
      exact htaken.2.2 y' hy' heq
    rw [Zones.get_set, if_neg hne]
    exact hentry k
  | _ => trivial

end Store

/-! ### The invariant -/

namespace BmapSystem

variable {τ : Type*} [DecidableEq τ] {sb : ZoneSuper} {zmap₀ : ℕ → Bool}

/-- Some call has taken a zone for the slot. -/
def Pending (s : BmapSystem τ) (x : Slot) : Prop :=
  ∃ t, ∃ c ∈ s.call t, ∃ j, c.2.pending = some (x, j)

/-- Every zone taken from the bitmap is in a slot of the inode or in the hands of one call, and
every slot is being filled by one call only. -/
structure Inv (sb : ZoneSuper) (zmap₀ : ℕ → Bool) (s : BmapSystem τ) : Prop where
  consistent : s.zones.Consistent sb
  call : ∀ t, ∀ c ∈ s.call t,
    c.1 < maxBlock ∧ c.2.Ok sb s.zones s.Pending c.1 ∧ c.2.Holds sb s.zones
  fills_inj : ∀ t t', ∀ c ∈ s.call t, ∀ c' ∈ s.call t', ∀ x, c.2.fills = some x →
    c'.2.fills = some x → t = t'
  zone_inj : ∀ t t', ∀ c ∈ s.call t, ∀ c' ∈ s.call t', ∀ x x' j, c.2.pending = some (x, j) →
    c'.2.pending = some (x', j) → t = t'
  accounted : ∀ k, s.zones.zmap k = true → zmap₀ k = true ∨
    sb.nzones ≤ k + sb.firstdatazone - 1 ∨
    (∃ x, s.zones.Owns x ∧ s.zones.get x = k + sb.firstdatazone - 1 ∧ s.zones.get x ≠ 0) ∨
    ∃ t, ∃ c ∈ s.call t, ∃ x, c.2.pending = some (x, k + sb.firstdatazone - 1)
  returned : ∀ p ∈ s.returned, p.1 < maxBlock ∧ Ends sb s.zones s.Pending p.1 p.2

/-- The calls after a step of one of them. -/
theorem mem_call_update {s : BmapSystem τ} {t t' : τ} {o : Option (ℕ × Bmap)} {c : ℕ × Bmap} :
    c ∈ Function.update s.call t o t' ↔ t' = t ∧ c ∈ o ∨ t' ≠ t ∧ c ∈ s.call t' := by
  by_cases h : t' = t
  · subst h
    simp
  · simp [h]

/-- What has to be known of a step of one call. -/
theorem Inv.advance {s s' : BmapSystem τ} {t : τ} {block : ℕ} {o : Option (ℕ × Bmap)}
    (hi : s.Inv sb zmap₀) (hblock : block < maxBlock)
    (hs' : s'.call = Function.update s.call t o) (hcons : s'.zones.Consistent sb)
    (hgrows : Grows sb s.zones s'.zones s.Pending s'.Pending)
    (hret : ∀ p ∈ s'.returned, p ∈ s.returned ∨
      p.1 = block ∧ Ends sb s'.zones s'.Pending block p.2)
    (hnew : ∀ c ∈ o, c.1 = block ∧ c.2.Ok sb s'.zones s'.Pending block ∧ c.2.Holds sb s'.zones)
    (hholds : ∀ t' ≠ t, ∀ c ∈ s.call t', c.2.Holds sb s'.zones)
    (hfills : ∀ t' ≠ t, ∀ c ∈ s.call t', ∀ x, c.2.fills = some x →
      s'.zones.get x = 0 ∧ ∀ c' ∈ o, c'.2.fills ≠ some x)
    (hzone : ∀ t' ≠ t, ∀ c ∈ s.call t', ∀ x x' j, c.2.pending = some (x, j) →
      ∀ c' ∈ o, c'.2.pending ≠ some (x', j))
    (hacc : ∀ k, s'.zones.zmap k = true → zmap₀ k = true ∨
      sb.nzones ≤ k + sb.firstdatazone - 1 ∨
      (∃ x, s'.zones.Owns x ∧ s'.zones.get x = k + sb.firstdatazone - 1 ∧ s'.zones.get x ≠ 0) ∨
      ∃ t, ∃ c ∈ s'.call t, ∃ x, c.2.pending = some (x, k + sb.firstdatazone - 1)) :
    s'.Inv sb zmap₀ := by
  refine ⟨hcons, ?_, ?_, ?_, hacc, ?_⟩
  · intro t' c hc
    rw [hs', mem_call_update] at hc
    rcases hc with ⟨-, hc⟩ | ⟨hne, hc⟩
    · obtain ⟨h1, hok, hh⟩ := hnew c hc
      rw [h1]
      exact ⟨hblock, hok, hh⟩
    · obtain ⟨hlt, hok, -⟩ := hi.call t' c hc
      exact ⟨hlt, hgrows.ok hlt hok fun x hx => (hfills t' hne c hc x hx).1, hholds t' hne c hc⟩
  · intro t₁ t₂ c₁ hc₁ c₂ hc₂ x hx₁ hx₂
    rw [hs', mem_call_update] at hc₁ hc₂
    rcases hc₁ with ⟨rfl, hc₁⟩ | ⟨hne₁, hc₁⟩ <;> rcases hc₂ with ⟨rfl, hc₂⟩ | ⟨hne₂, hc₂⟩
    · rfl
    · exact absurd hx₁ ((hfills _ hne₂ c₂ hc₂ x hx₂).2 c₁ hc₁)
    · exact absurd hx₂ ((hfills _ hne₁ c₁ hc₁ x hx₁).2 c₂ hc₂)
    · exact hi.fills_inj t₁ t₂ c₁ hc₁ c₂ hc₂ x hx₁ hx₂
  · intro t₁ t₂ c₁ hc₁ c₂ hc₂ x₁ x₂ j hx₁ hx₂
    rw [hs', mem_call_update] at hc₁ hc₂
    rcases hc₁ with ⟨rfl, hc₁⟩ | ⟨hne₁, hc₁⟩ <;> rcases hc₂ with ⟨rfl, hc₂⟩ | ⟨hne₂, hc₂⟩
    · rfl
    · exact absurd hx₁ (hzone _ hne₂ c₂ hc₂ _ _ _ hx₂ c₁ hc₁)
    · exact absurd hx₂ (hzone _ hne₁ c₁ hc₁ _ _ _ hx₁ c₂ hc₂)
    · exact hi.zone_inj t₁ t₂ c₁ hc₁ c₂ hc₂ x₁ x₂ j hx₁ hx₂
  · intro p hp
    rcases hret p hp with hp | ⟨h1, hends⟩
    · obtain ⟨hlt, hends⟩ := hi.returned p hp
      exact ⟨hlt, hgrows.ends hlt hends⟩
    · rw [h1]
      exact ⟨hblock, hends⟩

/-- A step that does not change the slots of the inode. -/
theorem Inv.unchanged {s s' : BmapSystem τ} {t : τ} {block : ℕ} {o : Option (ℕ × Bmap)}
    (hi : s.Inv sb zmap₀) (hblock : block < maxBlock)
    (hs' : s'.call = Function.update s.call t o)
    (hget : ∀ y, s.zones.Owns y → s'.zones.get y = s.zones.get y)
    (hzero : ∀ y, s.zones.get y = 0 → s'.zones.get y = 0)
    (hmono : ∀ k, s.zones.zmap k = true → s'.zones.zmap k = true)
    (hP : s.zones.Full sb → ∀ x, s'.Pending x → s.Pending x)
    (hret : ∀ p ∈ s'.returned, p ∈ s.returned ∨
      p.1 = block ∧ Ends sb s'.zones s'.Pending block p.2)
    (hnew : ∀ c ∈ o, c.1 = block ∧ c.2.Ok sb s'.zones s'.Pending block ∧ c.2.Holds sb s'.zones)
    (hfills : ∀ t' ≠ t, ∀ c ∈ s.call t', ∀ x, c.2.fills = some x →
      ∀ c' ∈ o, c'.2.fills ≠ some x)
    (hzone : ∀ t' ≠ t, ∀ c ∈ s.call t', ∀ x x' j, c.2.pending = some (x, j) →
      ∀ c' ∈ o, c'.2.pending ≠ some (x', j))
    (hkeep : ∀ c ∈ s.call t, ∀ x j, c.2.pending = some (x, j) →
      ∃ c ∈ o, ∃ x', c.2.pending = some (x', j))
    (hbits : ∀ k, s'.zones.zmap k = true → s.zones.zmap k = true ∨
      sb.nzones ≤ k + sb.firstdatazone - 1 ∨
      ∃ c ∈ o, ∃ x, c.2.pending = some (x, k + sb.firstdatazone - 1)) :
    s'.Inv sb zmap₀ := by
  have hgrows : Grows sb s.zones s'.zones s.Pending s'.Pending := by
    refine ⟨fun b x ks hb h => h.congr hb hget, fun x hx _ => hget x hx, ?_, ?_⟩
    · intro hfull k hk hlt
      exact hmono k (hfull k hk hlt)
    · intro x hx h0 hfull hx'
      exact ⟨by rw [hget x hx, h0], fun h => hx' (hP hfull x h)⟩
  refine hi.advance hblock hs' (hi.consistent.congr hget hmono) hgrows hret hnew ?_ ?_ hzone ?_
  · intro t' _ c hc
    exact (hi.call t' c hc).2.2.congr hget hzero hmono
  · intro t' hne c hc x hx
    refine ⟨hzero x ?_, hfills t' hne c hc x hx⟩
    exact ((hi.call t' c hc).2.1.of_fills hx).1
  · intro k hk
    rcases hbits k hk with hk | hk | ⟨c, hc, x, hx⟩
    · rcases hi.accounted k hk with h | h | ⟨x, hx, hk⟩ | ⟨t', c, hc, x, hx⟩
      · exact .inl h
      · exact .inr (.inl h)
      · exact .inr (.inr (.inl ⟨x, (Zones.owns_congr hget).mpr hx, by rwa [hget x hx]⟩))
      · by_cases ht : t' = t
        · subst ht
          obtain ⟨c', hc', x', hx'⟩ := hkeep c hc x _ hx
          refine .inr (.inr (.inr ⟨t', c', ?_, x', hx'⟩))
          rw [hs', mem_call_update]
          exact .inl ⟨rfl, hc'⟩
        · refine .inr (.inr (.inr ⟨t', c, ?_, x, hx⟩))
          rw [hs', mem_call_update]
          exact .inr ⟨ht, hc⟩
    · exact .inr (.inl hk)
    · refine .inr (.inr (.inr ⟨t, c, ?_, x, hx⟩))
      rw [hs', mem_call_update]
      exact .inl ⟨rfl, hc⟩

/-- A step that changes no slot, of a call that has taken no zone before and after. -/
theorem Inv.idle {s s' : BmapSystem τ} {t : τ} {block : ℕ} {o : Option (ℕ × Bmap)}
    (hi : s.Inv sb zmap₀) (hblock : block < maxBlock) (hf : ∀ c ∈ s.call t, c.2.pending = none)
    (hs' : s'.call = Function.update s.call t o)
    (hget : ∀ x, s'.zones.get x = s.zones.get x)
    (hmono : ∀ k, s.zones.zmap k = true → s'.zones.zmap k = true)
    (hbits : ∀ k, s'.zones.zmap k = true → s.zones.zmap k = true ∨
      sb.nzones ≤ k + sb.firstdatazone - 1)
    (ho : ∀ c ∈ o, c.1 = block ∧ c.2.Ok sb s'.zones s.Pending block ∧ c.2.pending = none ∧
      ∀ x, c.2.fills = some x → ∀ t' ≠ t, ∀ c' ∈ s.call t', c'.2.fills ≠ some x)
    (hret : ∀ p ∈ s'.returned, p ∈ s.returned ∨
      p.1 = block ∧ Ends sb s'.zones s.Pending block p.2) :
    s'.Inv sb zmap₀ := by
  have hpending : s'.Pending = s.Pending := by
    funext x
    apply propext
    constructor
    · rintro ⟨t', c, hc, j, hj⟩
      rw [hs', mem_call_update] at hc
      rcases hc with ⟨-, hc⟩ | ⟨-, hc⟩
      · rw [(ho c hc).2.2.1] at hj
        cases hj
      · exact ⟨t', c, hc, j, hj⟩
    · rintro ⟨t', c, hc, j, hj⟩
      refine ⟨t', c, ?_, j, hj⟩
      rw [hs', mem_call_update]
      refine .inr ⟨?_, hc⟩
      rintro rfl
      rw [hf c hc] at hj
      cases hj
  refine hi.unchanged hblock hs' (fun y _ => hget y) ?_ hmono ?_ ?_ ?_ ?_ ?_ ?_ ?_
  · intro y hy
    rw [hget y, hy]
  · intro _ x hx
    rwa [hpending] at hx
  · rwa [hpending]
  · intro c hc
    obtain ⟨h1, hok, hnone, -⟩ := ho c hc
    refine ⟨h1, by rwa [hpending], ?_⟩
    obtain ⟨b, g⟩ := c
    cases g <;> trivial
  · intro t' hne c hc x hx c' hc' hx'
    exact (ho c' hc').2.2.2 x hx' t' hne c hc hx
  · intro t' _ c _ x x' j _ c' hc' hx'
    rw [(ho c' hc').2.2.1] at hx'
    cases hx'
  · intro c hc x j hx
    rw [hf c hc] at hx
    cases hx
  · intro k hk
    rcases hbits k hk with hk | hk
    · exact .inl hk
    · exact .inr (.inl hk)

/-- A step in which a call tests a slot, goes on, returns, or has found no zone. -/
theorem Inv.quiet {s : BmapSystem τ} {t : τ} {block : ℕ} {f : Bmap} {w' : Zones} {n : Bmap.Next}
    (hi : s.Inv sb zmap₀) (hcall : s.call t = some (block, f)) (hf : f.pending = none)
    (hget : ∀ x, w'.get x = s.zones.get x)
    (hmono : ∀ k, s.zones.zmap k = true → w'.zmap k = true)
    (hbits : ∀ k, w'.zmap k = true → s.zones.zmap k = true ∨
      sb.nzones ≤ k + sb.firstdatazone - 1)
    (hn : n.Ok sb w' s.Pending block ∨ ∃ x ks, n = .go (.newBlock x ks) ∧
      w'.OnPath block x ks ∧ w'.get x = 0 ∧
      ∀ t' ≠ t, ∀ c ∈ s.call t', c.2.fills ≠ some x) :
    (s.after t block (w', n)).Inv sb zmap₀ := by
  have hblock := (hi.call t _ hcall).1
  have hnone : ∀ c ∈ s.call t, c.2.pending = none := by
    intro c hc
    rw [hcall] at hc
    cases hc
    exact hf
  cases n with
  | go g =>
    apply hi.idle (o := some (block, g)) hblock hnone rfl hget hmono hbits
    · rintro c hc
      cases hc
      rcases hn with ⟨hok, hfills⟩ | ⟨x, ks, heq, hpath, h0, hfree⟩
      · refine ⟨rfl, hok, Bmap.pending_eq_none hfills, ?_⟩
        intro x hx
        rw [hfills] at hx
        cases hx
      · cases heq
        refine ⟨rfl, ⟨hpath, h0⟩, rfl, ?_⟩
        rintro x' hx'
        cases hx'
        exact hfree
    · intro p hp
      exact .inl hp
  | ret i =>
    apply hi.idle (o := none) hblock hnone rfl hget hmono hbits
    · rintro c hc
      cases hc
    · intro p hp
      rcases List.mem_cons.mp hp with rfl | hp
      · rcases hn with hends | ⟨x, ks, heq, -⟩
        · exact .inr ⟨rfl, hends⟩
        · cases heq
      · exact .inl hp

omit [DecidableEq τ] in
/-- No other call fills the slot that a call fills. -/
theorem Inv.fills_ne {s : BmapSystem τ} {t t' : τ} {c c' : ℕ × Bmap} {x : Slot}
    (hi : s.Inv sb zmap₀) (hc : s.call t = some c) (hx : c.2.fills = some x) (hne : t' ≠ t)
    (hc' : c' ∈ s.call t') : c'.2.fills ≠ some x :=
  fun h => hne (hi.fills_inj t' t c' hc' c hc x h hx)

omit [DecidableEq τ] in
/-- No other call has taken the zone that a call has taken. -/
theorem Inv.zone_ne {s : BmapSystem τ} {t t' : τ} {c c' : ℕ × Bmap} {x x' : Slot} {j : ℕ}
    (hi : s.Inv sb zmap₀) (hc : s.call t = some c) (hx : c.2.pending = some (x, j))
    (hne : t' ≠ t) (hc' : c' ∈ s.call t') : c'.2.pending ≠ some (x', j) :=
  fun h => hne (hi.zone_inj t' t c' hc' c hc x' x j h hx)

/-- `new_block` finds no zone. -/
theorem Inv.noZone {s : BmapSystem τ} {t : τ} {block : ℕ} {x : Slot} {ks : List ℕ} {w' : Zones}
    (hi : s.Inv sb zmap₀) (hcall : s.call t = some (block, .newBlock x ks))
    (hget : ∀ x, w'.get x = s.zones.get x)
    (hmono : ∀ k, s.zones.zmap k = true → w'.zmap k = true)
    (hbits : ∀ k, w'.zmap k = true → s.zones.zmap k = true ∨
      sb.nzones ≤ k + sb.firstdatazone - 1)
    (hfull : w'.Full sb) : (s.after t block (Bmap.assign w' x 0 ks)).Inv sb zmap₀ := by
  obtain ⟨hblock, ⟨hpath, hx⟩, -⟩ := hi.call t _ hcall
  have hx' : w'.get x = 0 := by rw [hget, hx]
  have hfree : ¬s.Pending x := by
    rintro ⟨t', c, hc, j, hj⟩
    have ht : t' = t := hi.fills_inj t' t c hc _ hcall x (Bmap.fills_of_pending hj) rfl
    subst ht
    rw [hcall] at hc
    cases hc
    cases hj
  obtain ⟨hfirst, hnext⟩ := Bmap.assign_ok sb s.Pending (j := 0)
    (hpath.congr hblock fun y _ => hget y) hx' fun _ => ⟨hfull, hfree⟩
  rw [Zones.set_zero hx'] at hfirst hnext
  rcases hpair : Bmap.assign w' x 0 ks with ⟨w, n⟩
  rw [hpair] at hfirst hnext
  cases hfirst
  exact hi.quiet hcall rfl hget hmono hbits (.inl hnext)

/-- `new_block` takes a zone. -/
theorem Inv.alloc {s : BmapSystem τ} {t : τ} {block k : ℕ} {x : Slot} {ks : List ℕ}
    (hi : s.Inv sb zmap₀) (hcall : s.call t = some (block, .newBlock x ks))
    (hk : firstZero s.zones.zmap (8192 * sb.zmapBlocks) 0 = some k)
    (hlt : k + sb.firstdatazone - 1 < sb.nzones) :
    (s.after t block (s.zones.setBit k, .go (.getblk x (k + sb.firstdatazone - 1) ks))).Inv sb
      zmap₀ := by
  obtain ⟨-, hkn, hclear, -⟩ := firstZero_some hk
  obtain ⟨hpath, hx⟩ := (hi.call t _ hcall).2.1
  have hfirst := hi.consistent.firstdatazone
  have hget : ∀ y, s.zones.Owns y → (s.zones.setBit k).get y = s.zones.get y :=
    fun y _ => Zones.get_setBit ..
  have hmono : ∀ l, s.zones.zmap l = true → (s.zones.setBit k).zmap l = true :=
    fun l hl => s.zones.setBit_mono k hl
  -- a zone with its bit set is another one
  have hother : ∀ l, s.zones.zmap l = true →
      l + sb.firstdatazone - 1 ≠ k + sb.firstdatazone - 1 := by
    intro l hl heq
    have : l = k := by omega
    rw [this, hclear] at hl
    cases hl
  have htaken : Taken sb (s.zones.setBit k) (k + sb.firstdatazone - 1) := by
    refine ⟨⟨k, rfl, by simp [Zones.setBit]⟩, ?_, ?_⟩
    · have := hother 0 hi.consistent.reserved
      omega
    · intro y hy heq
      rw [Zones.owns_congr hget] at hy
      rw [hget y hy] at heq
      obtain ⟨l, hl, hbit⟩ := hi.consistent.used y hy (by
        have := hother 0 hi.consistent.reserved
        omega)
      exact hother l hbit (by omega)
  refine hi.unchanged (hi.call t _ hcall).1
    (o := some (block, .getblk x (k + sb.firstdatazone - 1) ks)) rfl hget
    ?_ hmono ?_ (fun p hp => .inl hp) ?_ ?_ ?_ ?_ ?_
  · intro y hy
    exact (Zones.get_setBit ..).trans hy
  · intro hfull
    have := hfull k (by omega) hlt
    rw [hclear] at this
    cases this
  · rintro c hc
    cases hc
    refine ⟨rfl, ⟨hpath.congr (hi.call t _ hcall).1 hget, ?_⟩, htaken⟩
    exact (Zones.get_setBit ..).trans hx
  · rintro t' hne c hc y hy c' hc' hy'
    cases hc'
    cases hy'
    exact hi.fills_ne hcall rfl hne hc hy
  · rintro t' hne c hc y y' j hy c' hc' hy'
    cases hc'
    cases hy'
    obtain ⟨⟨l, hl, hbit⟩, -⟩ := (hi.call t' c hc).2.2.taken hy
    exact hother l hbit hl.symm
  · intro c hc y j hy
    rw [hcall] at hc
    cases hc
    cases hy
  · intro l hl
    by_cases hlk : l = k
    · subst hlk
      exact .inr (.inr ⟨_, rfl, x, rfl⟩)
    · left
      simpa [after, Zones.setBit, Function.update_of_ne hlk] using hl

/-- `new_block` clears the block of the zone. -/
theorem Inv.clear {s : BmapSystem τ} {t : τ} {block j : ℕ} {x : Slot} {ks : List ℕ}
    (hi : s.Inv sb zmap₀) (hcall : s.call t = some (block, .getblk x j ks)) :
    (s.after t block (s.zones.clearBlock j, .go (.brelseNew x j ks))).Inv sb zmap₀ := by
  obtain ⟨hblock, ⟨hpath, hx⟩, hholds⟩ := hi.call t _ hcall
  have htaken : Taken sb s.zones j := hholds
  have hget : ∀ y, s.zones.Owns y → (s.zones.clearBlock j).get y = s.zones.get y := by
    intro y hy
    apply Zones.get_clearBlock
    rintro k rfl
    obtain ⟨y', hy', heq, -⟩ := hy.parent
    exact htaken.2.2 y' hy' heq
  have hzero : ∀ y, s.zones.get y = 0 → (s.zones.clearBlock j).get y = 0 := by
    intro y hy
    by_cases h : ∃ k, y = .entry j k
    · obtain ⟨k, rfl⟩ := h
      exact Zones.clearBlock_entry ..
    · rw [Zones.get_clearBlock _ _ (fun k hk => h ⟨k, hk⟩), hy]
  refine hi.unchanged (hi.call t _ hcall).1 (o := some (block, .brelseNew x j ks)) rfl hget hzero
    (fun k hk => hk) ?_ (fun p hp => .inl hp) ?_ ?_ ?_ ?_ (fun k hk => .inl hk)
  · rintro - y ⟨t', c, hc, i, hy⟩
    replace hc := (mem_call_update (o := some (block, .brelseNew x j ks))).mp hc
    rcases hc with ⟨rfl, hc⟩ | ⟨-, hc⟩
    · cases hc
      cases hy
      exact ⟨t', _, hcall, j, rfl⟩
    · exact ⟨t', c, hc, i, hy⟩
  · rintro c hc
    cases hc
    exact ⟨rfl, ⟨hpath.congr hblock hget, hzero x hx⟩, htaken.congr hget fun k hk => hk,
      fun k => Zones.clearBlock_entry ..⟩
  · rintro t' hne c hc y hy c' hc' hy'
    cases hc'
    cases hy'
    exact hi.fills_ne hcall rfl hne hc hy
  · rintro t' hne c hc y y' i hy c' hc' hy'
    cases hc'
    cases hy'
    exact hi.zone_ne hcall rfl hne hc hy
  · intro c hc y i hy
    rw [hcall] at hc
    cases hc
    cases hy
    exact ⟨_, rfl, x, rfl⟩

/-- The zone is stored in its slot. -/
theorem Inv.store {s : BmapSystem τ} {t : τ} {block j : ℕ} {x : Slot} {ks : List ℕ}
    (hi : s.Inv sb zmap₀) (hcall : s.call t = some (block, .brelseNew x j ks)) :
    (s.after t block (Bmap.assign s.zones x j ks)).Inv sb zmap₀ := by
  obtain ⟨hblock, ⟨hpath, hx⟩, htaken, hclear⟩ := hi.call t _ hcall
  have hown : s.zones.Owns x := ⟨block, ks, hblock, hpath⟩
  have hother : ∀ y, y ≠ x → (s.zones.set x j).get y = s.zones.get y := by
    intro y hy
    rw [Zones.get_set, if_neg hy]
  have hcommon : ∀ {s' : BmapSystem τ} {o : Option (ℕ × Bmap)}, s'.zones = s.zones.set x j →
      s'.call = Function.update s.call t o →
      (∀ c ∈ o, c.1 = block ∧ c.2.Ok sb s'.zones s'.Pending block ∧ c.2.fills = none) →
      (∀ p ∈ s'.returned, p ∈ s.returned ∨
        p.1 = block ∧ Ends sb s'.zones s'.Pending block p.2) →
      s'.Inv sb zmap₀ := by
    intro s' o hzones hs' ho hret
    have hP : ∀ y, s'.Pending y → s.Pending y := by
      rintro y ⟨t', c, hc, i, hy⟩
      rw [hs', mem_call_update] at hc
      rcases hc with ⟨-, hc⟩ | ⟨-, hc⟩
      · rw [Bmap.pending_eq_none (ho c hc).2.2] at hy
        cases hy
      · exact ⟨t', c, hc, i, hy⟩
    have hgrows : Grows sb s.zones s'.zones s.Pending s'.Pending := by
      rw [hzones]
      refine ⟨fun b y l _ h => h.set hx, ?_, ?_, ?_⟩
      · intro y _ hne
        apply hother
        rintro rfl
        exact hne hx
      · intro hfull l
        rw [Zones.zmap_set]
        exact hfull l
      · intro y _ h0 _ hy
        refine ⟨?_, fun h => hy (hP y h)⟩
        rw [hother y (by rintro rfl; exact hy ⟨t, _, hcall, j, rfl⟩), h0]
    refine hi.advance hblock hs' (by rw [hzones]; exact hi.consistent.set htaken hclear) hgrows
      hret ?_ ?_ ?_ ?_ ?_
    · intro c hc
      obtain ⟨h1, hok, hfills⟩ := ho c hc
      refine ⟨h1, hok, ?_⟩
      obtain ⟨b, g⟩ := c
      cases g <;> trivial
    · intro t' hne c hc
      rw [hzones]
      exact (hi.call t' c hc).2.2.set hown (fun y => hi.zone_ne hcall rfl hne hc) hclear
    · intro t' hne c hc y hy
      have hyx : y ≠ x := by
        rintro rfl
        exact hi.fills_ne hcall rfl hne hc hy
      rw [hzones, hother y hyx]
      refine ⟨((hi.call t' c hc).2.1.of_fills hy).1, ?_⟩
      intro c' hc' hy'
      rw [(ho c' hc').2.2] at hy'
      cases hy'
    · intro t' _ c _ y y' i _ c' hc' hy'
      rw [Bmap.pending_eq_none (ho c' hc').2.2] at hy'
      cases hy'
    · intro l hl
      rw [hzones, Zones.zmap_set] at hl
      rw [hzones]
      rcases hi.accounted l hl with h | h | ⟨y, hy, heq⟩ | ⟨t', c, hc, y, hy⟩
      · exact .inl h
      · exact .inr (.inl h)
      · refine .inr (.inr (.inl ⟨y, hy.set hx, ?_⟩))
        rwa [hother y (by rintro rfl; exact heq.2 hx)]
      · by_cases ht : t' = t
        · -- the zone that was in the hands of the call is now in the slot
          subst ht
          rw [hcall] at hc
          cases hc
          cases hy
          refine .inr (.inr (.inl ⟨x, hown.set hx, ?_⟩))
          rw [Zones.get_set, if_pos rfl]
          exact ⟨rfl, htaken.2.1⟩
        · refine .inr (.inr (.inr ⟨t', c, ?_, y, hy⟩))
          rw [hs', mem_call_update]
          exact .inr ⟨ht, hc⟩
  have hassign := fun P => Bmap.assign_ok sb P hpath hx
    (fun h => absurd h htaken.2.1)
  rcases hpair : Bmap.assign s.zones x j ks with ⟨w', n⟩
  rw [hpair] at hassign
  cases n with
  | go g =>
    apply hcommon (o := some (block, g)) (hassign fun _ => True).1 rfl
    · rintro c hc
      cases hc
      have hok := (hassign (s.after t block (w', .go g)).Pending)
      rw [← hok.1] at hok
      exact ⟨rfl, hok.2⟩
    · intro p hp
      exact .inl hp
  | ret i =>
    apply hcommon (o := none) (hassign fun _ => True).1 rfl
    · rintro c hc
      cases hc
    · intro p hp
      rcases List.mem_cons.mp hp with rfl | hp
      · have hok := (hassign (s.after t block (w', .ret i)).Pending)
        rw [← hok.1] at hok
        exact .inr ⟨rfl, hok.2⟩
      · exact .inl hp

/-- A careful step keeps the invariant. -/
theorem Inv.step {s s' : BmapSystem τ} (hi : s.Inv sb zmap₀) (h : CarefulStep sb s s') :
    s'.Inv sb zmap₀ := by
  obtain ⟨e, he, hrace⟩ := h
  cases e with
  | createBlock t block =>
    simp only [next] at he
    split_ifs at he with hidle
    cases he
    refine hi.idle (t := t) (o := some (block, .start block)) hidle.2 ?_ rfl (fun _ => rfl)
      (fun _ hk => hk) (fun _ hk => .inl hk) ?_ (fun p hp => .inl hp)
    · intro c hc
      rw [hidle.1] at hc
      cases hc
    · rintro c hc
      cases hc
      exact ⟨rfl, rfl, rfl, fun x hx => by cases hx⟩
  | readError t =>
    simp only [next] at he
    split at he
    · rename_i block z k ks hcall
      cases he
      refine hi.idle (t := t) (o := none) (hi.call t _ hcall).1 ?_ rfl (fun _ => rfl)
        (fun _ hk => hk) (fun _ hk => .inl hk) ?_ (fun p hp => .inl hp)
      · intro c hc
        rw [hcall] at hc
        cases hc
        rfl
      · rintro c hc
        cases hc
    · cases he
  | run t =>
    simp only [next, Option.map_eq_some_iff] at he
    obtain ⟨⟨block, f⟩, hcall, rfl⟩ := he
    obtain ⟨hblock, hok, -⟩ := hi.call t _ hcall
    -- a slot that the call finds empty is not being filled
    have hfree : ∀ x, f.tests = some x → s.zones.get x = 0 → ∀ t' ≠ t, ∀ c ∈ s.call t',
        c.2.fills ≠ some x :=
      fun x hx h0 t' _ c hc hfill => hrace ⟨_, hcall, x, hx, h0, t', c, hc, hfill⟩
    cases f with
    | start b =>
      have hb : b = block := hok
      subst hb
      simp only [Bmap.exec]
      split_ifs with h0
      · exact hi.quiet hcall rfl (fun _ => rfl) (fun _ hk => hk) (fun _ hk => .inl hk)
          (.inr ⟨_, _, rfl, .start, h0, hfree _ rfl h0⟩)
      · exact hi.quiet hcall rfl (fun _ => rfl) (fun _ hk => hk) (fun _ hk => .inl hk)
          (.inl (Bmap.descend_ok .start rfl fun h => absurd h h0))
    | newBlock x ks =>
      simp only [Bmap.exec]
      split
      · rename_i hnone
        refine hi.noZone hcall (fun _ => rfl) (fun _ hk => hk) (fun _ hk => .inl hk) ?_
        intro k hk _
        exact firstZero_none hnone k (by omega) (by omega)
      · rename_i k hk
        split_ifs with hn
        · obtain ⟨-, -, -, hset⟩ := firstZero_some hk
          refine hi.noZone hcall (fun _ => Zones.get_setBit ..) ?_ ?_ ?_
          · intro l hl
            exact s.zones.setBit_mono k hl
          · intro l hl
            by_cases hlk : l = k
            · exact .inr (by rw [hlk]; exact hn)
            · left
              simpa [Zones.setBit, Function.update_of_ne hlk] using hl
          · intro l _ hl
            exact s.zones.setBit_mono k (hset l (by omega) (by omega))
        · exact hi.alloc hcall hk (by omega)
    | getblk x j ks => exact hi.clear hcall
    | brelseNew x j ks => exact hi.store hcall
    | bread z k ks =>
      obtain ⟨hz, x, hpath, hget⟩ := hok
      have hpath' : s.zones.OnPath block (.entry z k) ks := by
        rw [← hget]
        exact hpath.next (by rw [hget]; exact hz)
      simp only [Bmap.exec]
      split_ifs with h0
      · exact hi.quiet hcall rfl (fun _ => rfl) (fun _ hk => hk) (fun _ hk => .inl hk)
          (.inr ⟨_, _, rfl, hpath', h0, hfree _ rfl h0⟩)
      · exact hi.quiet hcall rfl (fun _ => rfl) (fun _ hk => hk) (fun _ hk => .inl hk)
          (.inl ⟨⟨_, hpath', rfl, fun h => absurd h h0⟩, rfl⟩)
    | brelse i ks =>
      obtain ⟨x, hpath, hget, h0⟩ := hok
      exact hi.quiet hcall rfl (fun _ => rfl) (fun _ hk => hk) (fun _ hk => .inl hk)
        (.inl (Bmap.descend_ok hpath hget h0))

/-! ### The zones of the inode -/

/-- The inode and the bitmap are consistent and no call has been made. -/
structure Start (sb : ZoneSuper) (s : BmapSystem τ) : Prop where
  consistent : s.zones.Consistent sb
  quiescent : s.Quiescent
  returned : s.returned = []

/-- Every zone whose bit has been set since the bitmap was `zmap₀` can be reached from the
inode. -/
def NoZoneLost (sb : ZoneSuper) (zmap₀ : ℕ → Bool) (s : BmapSystem τ) : Prop :=
  ∀ k, k + sb.firstdatazone - 1 < sb.nzones → s.zones.zmap k = true → zmap₀ k = false →
    s.zones.Reaches (k + sb.firstdatazone - 1)

/-- All calls for one logical block have returned the same zone. -/
def SameZone (s : BmapSystem τ) : Prop :=
  ∀ block z z', (block, z) ∈ s.returned → (block, z') ∈ s.returned → z = z'

omit [DecidableEq τ] in
/-- The invariant holds before the first call. -/
theorem Start.inv {s : BmapSystem τ} (h : s.Start sb) : s.Inv sb s.zones.zmap := by
  have hnone : ∀ {t c}, c ∈ s.call t → False := by
    intro t c hc
    rw [h.quiescent t] at hc
    cases hc
  refine ⟨h.consistent, fun t c hc => (hnone hc).elim, fun t t' c hc => (hnone hc).elim,
    fun t t' c hc => (hnone hc).elim, fun k hk => .inl hk, ?_⟩
  intro p hp
  rw [h.returned] at hp
  cases hp

/-- In every run in which no call finds a slot empty that another call is about to fill, no zone
is lost, and the calls for one logical block return the same zone. -/
theorem createBlock_zones {s₀ s : BmapSystem τ} (hs₀ : s₀.Start sb)
    (hs : Reachable (· = s₀) (CarefulStep sb) s) (hquiet : s.Quiescent) :
    s.NoZoneLost sb s₀.zones.zmap ∧ s.SameZone := by
  have hi : s.Inv sb s₀.zones.zmap := by
    refine Reachable.invariant (P := Inv sb s₀.zones.zmap) ?_ (fun _ _ hi h => hi.step h) hs
    rintro _ rfl
    exact hs₀.inv
  constructor
  · intro k hlt hk hk₀
    rcases hi.accounted k hk with h | h | ⟨x, hx, heq, -⟩ | ⟨t, c, hc, -⟩
    · rw [hk₀] at h
      cases h
    · omega
    · rw [← heq]
      exact hx.reaches
    · rw [hquiet t] at hc
      cases hc
  · intro block z z' hz hz'
    obtain ⟨-, x, ks, hpath, hget, hks, -⟩ := hi.returned _ hz
    obtain ⟨-, x', ks', hpath', hget', hks', -⟩ := hi.returned _ hz'
    have heq : x = x' := hpath.end_unique hpath' (by rwa [hget]) (by rwa [hget'])
    subst heq
    exact hget.symm.trans hget'

/-! ### Two calls on an empty file -/

instance [Fintype τ] (s : BmapSystem τ) : DecidablePred s.Races
  | .run t => inferInstanceAs (Decidable (∃ c ∈ s.call t, ∃ x ∈ c.2.tests, s.zones.get x = 0 ∧
      ∃ t', ∃ c' ∈ s.call t', c'.2.fills = some x))
  | .createBlock _ _ => inferInstanceAs (Decidable False)
  | .readError _ => inferInstanceAs (Decidable False)

/-- The next state, when no call finds a slot empty that another call is about to fill. -/
def carefulNext [Fintype τ] (sb : ZoneSuper) (s : BmapSystem τ) (e : BmapEvent τ) :
    Option (BmapSystem τ) :=
  if s.Races e then none else s.next sb e

theorem CarefulStep.of_carefulNext [Fintype τ] {s s' : BmapSystem τ} {e : BmapEvent τ}
    (h : s.carefulNext sb e = some s') : CarefulStep sb s s' := by
  unfold carefulNext at h
  split_ifs at h with hrace
  exact ⟨e, h, hrace⟩

/-- A device with the zones 5 to 19. -/
def smallDevice : ZoneSuper := ⟨1, 5, 20⟩

/-- An empty file on an empty device. -/
def emptyFile (τ : Type*) : BmapSystem τ where
  zones := ⟨fun _ => 0, fun _ _ => 0, fun k => k = 0⟩
  call _ := none
  returned := []

omit [DecidableEq τ] in
theorem emptyFile_start : (emptyFile τ).Start smallDevice := by
  have hzero : ∀ x, (emptyFile τ).zones.get x = 0 := by
    rintro (_ | _) <;> rfl
  refine ⟨⟨by decide, rfl, fun x _ hx => absurd (hzero x) hx,
    fun x _ _ _ _ hx => absurd (hzero x) hx⟩, fun _ => rfl, rfl⟩

/-- Two calls for two blocks of one indirect block, the second one after the indirect blocks
have been filled. -/
theorem createBlock_zones_sample : ∃ s : BmapSystem Bool,
    Reachable (· = emptyFile Bool) (CarefulStep smallDevice) s ∧ s.Quiescent ∧
      s.returned = [(600, 7), (601, 8)] ∧
      s.NoZoneLost smallDevice (emptyFile Bool).zones.zmap ∧ s.SameZone := by
  have hrun : (runEvents (carefulNext smallDevice) (emptyFile Bool)
      (List.flatten [[.createBlock true 600], List.replicate 11 (.run true),
        [.createBlock false 601], List.replicate 4 (.run false), [.run true],
        List.replicate 4 (.run false), [.run true, .run true]])).any (fun s =>
        decide ((∀ t, (s.call t).isNone) ∧ s.returned = [(600, 7), (601, 8)])) = true := by
    decide +kernel
  have hstart : Reachable (· = emptyFile Bool) (CarefulStep smallDevice) (emptyFile Bool) :=
    .of_init rfl
  obtain ⟨s, hs, -, hP⟩ := hstart.exists_runEvents (fun _ _ _ he => .of_carefulNext he) hrun
  obtain ⟨hcall, hreturned⟩ := of_decide_eq_true hP
  have hquiet : s.Quiescent := fun t => Option.isNone_iff_eq_none.mp (hcall t)
  exact ⟨s, hs, hquiet, hreturned, createBlock_zones emptyFile_start hs hquiet⟩

/-- Two calls find the first slot empty: both take a zone, and the first one is lost. -/
theorem createBlock_loses_zone : ∃ s : BmapSystem Bool,
    Reachable (· = emptyFile Bool) (Step smallDevice) s ∧ (emptyFile Bool).Start smallDevice ∧
      s.Quiescent ∧ ¬s.NoZoneLost smallDevice (emptyFile Bool).zones.zmap ∧ ¬s.SameZone := by
  have hrun : (runEvents (next smallDevice) (emptyFile Bool)
      (List.flatten [[.createBlock true 0, .createBlock false 0, .run true, .run false],
        List.replicate 3 (.run true), List.replicate 3 (.run false)])).any (fun s =>
        decide ((∀ t, (s.call t).isNone) ∧ s.returned = [(0, 6), (0, 5)] ∧
          s.zones.zmap 1 = true ∧ s.zones.zone 0 = 6 ∧
          ∀ n : ℕ, n < 8 → s.zones.zone (n + 1) = 0)) = true := by
    decide +kernel
  have hstart : Reachable (· = emptyFile Bool) (Step smallDevice) (emptyFile Bool) :=
    .of_init rfl
  obtain ⟨s, hs, -, hP⟩ := hstart.exists_runEvents (fun _ e _ he => ⟨e, he⟩) hrun
  obtain ⟨hcall, hreturned, hbit, hzone, hrest⟩ := of_decide_eq_true hP
  refine ⟨s, hs, emptyFile_start, fun t => Option.isNone_iff_eq_none.mp (hcall t), ?_, ?_⟩
  · intro h
    rcases h 1 (by decide) hbit rfl with ⟨n, hn, heq⟩ | ⟨h7, -⟩ | ⟨h8, -⟩ | ⟨h8, -⟩
    · cases n with
      | zero =>
        rw [hzone] at heq
        exact absurd heq (by decide)
      | succ n =>
        rw [hrest n (by omega)] at heq
        exact absurd heq (by decide)
    · exact h7 (hrest 6 (by omega))
    · exact h8 (hrest 7 (by omega))
    · exact h8 (hrest 7 (by omega))
  · intro h
    have := h 0 6 5 (by simp [hreturned]) (by simp [hreturned])
    cases this

end BmapSystem

end LihaLinux.Fs
