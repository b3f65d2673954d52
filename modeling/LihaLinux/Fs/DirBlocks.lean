import LihaLinux.Fs.Directory

/-!
# The blocks of a directory

A logical block of the directory is in the zone that the walk of `_bmap` ends with. In a consistent
inode a zone belongs to one logical block. As long as the calls of `create_block` do not race, a
logical block keeps its zone, and a zone that comes to the directory has been cleared.
-/

namespace LihaLinux.Fs

namespace Zones

variable {w w' : Zones} {k k' b b' : ℕ}

/-- The logical block `k` is in the zone `b`. -/
def At (w : Zones) (k b : ℕ) : Prop :=
  k < maxBlock ∧ b ≠ 0 ∧ ∃ x, w.OnPath k x [] ∧ w.get x = b

theorem At.unique (h : w.At k b) (h' : w.At k b') : b = b' := by
  obtain ⟨-, -, x, hpath, rfl⟩ := h
  obtain ⟨-, -, x', hpath', rfl⟩ := h'
  rw [(hpath.unique hpath' rfl).1]

theorem At.owns (h : w.At k b) : ∃ x, w.Owns x ∧ w.get x = b := by
  obtain ⟨hk, -, x, hpath, hx⟩ := h
  exact ⟨x, ⟨k, [], hk, hpath⟩, hx⟩

/-- Different logical blocks have different indices. -/
theorem path_injective (hk : k < maxBlock) (hk' : k' < maxBlock) (h : path k = path k') :
    k = k' := by
  unfold maxBlock at hk hk'
  unfold path at h
  split_ifs at h <;> simp only [Prod.mk.injEq, List.cons.injEq] at h <;> omega

/-- Two walks that meet in a slot have come the same way. -/
theorem OnPath.same_way {sb : ZoneSuper} {x : Slot} {ks ks' : List ℕ} (hcons : w.Consistent sb)
    (hk : k < maxBlock) (hk' : k' < maxBlock) (h : w.OnPath k x ks) (h' : w.OnPath k' x ks') :
    ∃ n l, path k = (n, l ++ ks) ∧ path k' = (n, l ++ ks') := by
  generalize hxx' : x = x' at h'
  induction h generalizing x' ks' with
  | start =>
    cases h' with
    | start => exact ⟨(path k).1, [], rfl, by rw [Slot.izone.inj hxx']; rfl⟩
    | next h' hx' => cases hxx'
  | @next x a ks h hx ih =>
    cases h' with
    | start => cases hxx'
    | @next x' a' ks' h' hx' =>
      obtain ⟨hget, rfl⟩ := Slot.entry.inj hxx'
      have hslot := hcons.inj x x' ⟨k, _, hk, h⟩ ⟨k', _, hk', h'⟩ hget hx
      obtain ⟨n, l, hl, hl'⟩ := ih _ hslot h'
      exact ⟨n, l ++ [a], by simpa using hl, by simpa using hl'⟩

/-- A zone belongs to one logical block. -/
theorem At.index {sb : ZoneSuper} (hcons : w.Consistent sb) (h : w.At k b) (h' : w.At k' b) :
    k = k' := by
  obtain ⟨hk, hb, x, hpath, hx⟩ := h
  obtain ⟨hk', -, x', hpath', hx'⟩ := h'
  obtain rfl := hcons.inj x x' ⟨k, [], hk, hpath⟩ ⟨k', [], hk', hpath'⟩ (hx.trans hx'.symm)
    (hx ▸ hb)
  obtain ⟨n, l, hl, hl'⟩ := hpath.same_way hcons hk hk' hpath'
  exact path_injective hk hk' (hl.trans hl'.symm)

/-- What the others see of a step of a call of `create_block`. New zones are those in `F`. -/
structure Advances (w w' : Zones) (F : ℕ → Prop) : Prop where
  path : ∀ k x ks, k < maxBlock → w.OnPath k x ks → w'.OnPath k x ks
  get : ∀ x, w.Owns x → w.get x ≠ 0 → w'.get x = w.get x
  new : ∀ k b, w'.At k b → w.At k b ∨ F b

variable {F : ℕ → Prop}

/-- The slots of the inode do not change. -/
theorem Advances.of_get (hget : ∀ y, w.Owns y → w'.get y = w.get y) : Advances w w' F where
  path _ _ _ hk h := h.congr hk hget
  get x hx _ := hget x hx
  new := by
    rintro k b ⟨hk, hb, x, hpath, hx⟩
    have hpath' := hpath.of_congr hk hget
    exact Or.inl ⟨hk, hb, x, hpath', (hget x ⟨k, [], hk, hpath'⟩).symm.trans hx⟩

theorem Advances.at (h : Advances w w' F) (hb : w.At k b) : w'.At k b := by
  obtain ⟨hk, hne, x, hpath, hx⟩ := hb
  exact ⟨hk, hne, x, h.path k x [] hk hpath, (h.get x ⟨k, [], hk, hpath⟩ (hx ▸ hne)).trans hx⟩

/-- A zone is stored in an empty slot. -/
theorem Advances.set {x : Slot} {j : ℕ} (hx : w.get x = 0) (hclear : ∀ a, w.get (.entry j a) = 0) :
    Advances w (w.set x j) (· = j) where
  path _ _ _ _ h := h.set hx
  get y _ hy := by
    rw [get_set, if_neg]
    rintro rfl
    exact hy hx
  new := by
    rintro k b ⟨hk, hb, y, hpath, hy⟩
    by_cases hyx : y = x
    · rw [get_set, if_pos hyx] at hy
      exact Or.inr hy.symm
    · rw [get_set, if_neg hyx] at hy
      rcases hpath.of_set hclear with hpath | ⟨a, rfl⟩
      · exact Or.inl ⟨hk, hb, y, hpath, hy⟩
      · exact absurd ((hclear a).symm.trans hy).symm hb

end Zones

/-! ### Steps of `create_block` -/

namespace BmapSystem

variable {τ : Type*} [DecidableEq τ] {sb : ZoneSuper} {s b : BmapSystem τ} {t : τ}

theorem zones_after {block : ℕ} {r : Zones × Bmap.Next} : (s.after t block r).zones = r.1 := by
  obtain ⟨w, n⟩ := r
  cases n <;> rfl

theorem call_after_ne {block : ℕ} {r : Zones × Bmap.Next} {u : τ} (h : u ≠ t) :
    (s.after t block r).call u = s.call u := by
  obtain ⟨w, n⟩ := r
  cases n <;> exact Function.update_of_ne h ..

/-- The zones that a call is about to store. -/
def Stores (s : BmapSystem τ) (t : τ) (j : ℕ) : Prop :=
  ∃ block x ks, s.call t = some (block, .brelseNew x j ks)

/-- A call of `create_block` goes on. -/
theorem Inv.advances {z : ℕ → Bool} (hi : s.Inv sb z) (h : s.next sb (.run t) = some b) :
    Zones.Advances s.zones b.zones (s.Stores t) := by
  obtain ⟨⟨block, f⟩, hcall, rfl⟩ := Option.map_eq_some_iff.mp h
  obtain ⟨hblock, hok, hholds⟩ := hi.call t _ hcall
  rw [zones_after]
  cases f with
  | start b =>
    dsimp only [Bmap.exec]
    split_ifs
    · exact .of_get fun _ _ => rfl
    · exact .of_get fun _ _ => rfl
  | newBlock x ks =>
    obtain ⟨hpath, hx⟩ := hok
    have hassign : ∀ w', (∀ y, w'.get y = s.zones.get y) →
        Zones.Advances s.zones (Bmap.assign w' x 0 ks).1 (s.Stores t) := by
      intro w' hget
      have hx' : w'.get x = 0 := (hget x).trans hx
      refine .of_get fun y _ => ?_
      cases x with
      | izone n =>
        have hzero := Zones.set_zero hx'
        rw [Bmap.assign, hzero]
        exact hget y
      | entry v a => exact hget y
    dsimp only [Bmap.exec]
    split
    · exact hassign _ fun _ => rfl
    · split_ifs
      · exact hassign _ fun _ => Zones.get_setBit ..
      · exact .of_get fun _ _ => Zones.get_setBit ..
  | getblk x j ks =>
    refine .of_get fun y hy => Zones.get_clearBlock _ _ ?_
    rintro a rfl
    obtain ⟨y', hy', heq, -⟩ := hy.parent
    exact hholds.2.2 y' hy' heq
  | brelseNew x j ks =>
    obtain ⟨hpath, hx⟩ := hok
    have hassign := (Bmap.assign_ok sb (fun _ => True) hpath hx
      fun h => absurd h hholds.1.2.1).1
    dsimp only [Bmap.exec]
    rw [hassign]
    have hset := Zones.Advances.set (j := j) hx hholds.2
    refine ⟨hset.path, hset.get, fun k b hb => ?_⟩
    rcases hset.new k b hb with hb | rfl
    · exact Or.inl hb
    · exact Or.inr ⟨block, x, ks, hcall⟩
  | bread v a ks =>
    dsimp only [Bmap.exec]
    split_ifs
    · exact .of_get fun _ _ => rfl
    · exact .of_get fun _ _ => rfl
  | brelse i ks => exact .of_get fun _ _ => rfl

end BmapSystem

end LihaLinux.Fs
