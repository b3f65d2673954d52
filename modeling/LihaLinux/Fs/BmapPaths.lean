import LihaLinux.Fs.Bmap
import Mathlib.Tactic.Common

/-!
# The slots of an inode

The walk of `_bmap` for a logical block meets slots that are full until it ends at the last one
or at an empty one. The slots that the walks meet are `i_zone` and the entries of its indirect
blocks. In a consistent inode the zones in these slots are all different and marked as used.
-/

namespace LihaLinux.Fs

/-! ### Slots of the inode -/

namespace Zones

variable {w : Zones} {x y : Slot} {j : ℕ}

theorem get_set (w : Zones) (x y : Slot) (j : ℕ) :
    (w.set x j).get y = if y = x then j else w.get y := by
  cases x <;> cases y <;> simp [get, set, Function.update_apply]
  split_ifs <;> simp_all

@[simp]
theorem get_setBit (w : Zones) (k : ℕ) (x : Slot) : (w.setBit k).get x = w.get x := by
  cases x <;> rfl

theorem setBit_mono (w : Zones) (k : ℕ) {l : ℕ} (h : w.zmap l = true) :
    (w.setBit k).zmap l = true := by
  simp only [setBit, Function.update_apply]
  split_ifs
  · rfl
  · exact h

theorem zmap_set (w : Zones) (x : Slot) (j : ℕ) : (w.set x j).zmap = w.zmap := by
  cases x <;> rfl

/-- Nothing changes when an empty slot is stored 0. -/
theorem set_zero (h : w.get x = 0) : w.set x 0 = w := by
  cases x with
  | izone n =>
    have hn : Function.update w.zone n 0 = w.zone := Function.update_eq_self_iff.mpr h.symm
    simp only [set, hn]
  | entry z k =>
    have hk : Function.update (w.entry z) k 0 = w.entry z :=
      Function.update_eq_self_iff.mpr h.symm
    simp only [set, hk, Function.update_eq_self]

theorem get_clearBlock (w : Zones) (j : ℕ) (hx : ∀ k, x ≠ .entry j k) :
    (w.clearBlock j).get x = w.get x := by
  cases x with
  | izone n => rfl
  | entry z k =>
    have hz : z ≠ j := fun hz => hx k (by rw [hz])
    simp [get, clearBlock, Function.update_of_ne hz]

theorem clearBlock_entry (w : Zones) (j k : ℕ) : (w.clearBlock j).get (.entry j k) = 0 := by
  simp [get, clearBlock]

/-- The slots that the walk for a logical block meets, with the indices that are left. -/
inductive OnPath (w : Zones) (block : ℕ) : Slot → List ℕ → Prop
  | start : OnPath w block (.izone (path block).1) (path block).2
  | next {x : Slot} {k : ℕ} {ks : List ℕ} (h : OnPath w block x (k :: ks)) (hx : w.get x ≠ 0) :
    OnPath w block (.entry (w.get x) k) ks

/-- The slots of the inode: those that the walk for some logical block meets. -/
def Owns (w : Zones) (x : Slot) : Prop := ∃ block ks, block < maxBlock ∧ w.OnPath block x ks

/-- The walk uses up its indices. -/
theorem OnPath.length_le {block : ℕ} {ks : List ℕ} (h : w.OnPath block x ks) :
    ks.length ≤ (path block).2.length := by
  induction h with
  | start => exact Nat.le_refl _
  | next h hx ih =>
    simp only [List.length_cons] at ih
    omega

/-- The walk meets one slot for each number of indices left. -/
theorem OnPath.unique {block : ℕ} {ks l : List ℕ} (h : w.OnPath block x ks)
    (h' : w.OnPath block y l) (hlen : ks.length = l.length) : x = y ∧ ks = l := by
  induction h generalizing y l with
  | start =>
    cases h' with
    | start => exact ⟨rfl, rfl⟩
    | next h' hy =>
      have hle := h'.length_le
      simp only [List.length_cons] at hle
      omega
  | next h hx ih =>
    cases h' with
    | start =>
      have hle := h.length_le
      simp only [List.length_cons] at hle
      omega
    | next h' hy =>
      obtain ⟨rfl, heq⟩ := ih h' (by simp only [List.length_cons]; omega)
      cases heq
      exact ⟨rfl, rfl⟩

/-- Before a slot with fewer indices left, the walk has met full slots only. -/
theorem OnPath.full {block : ℕ} {ks l : List ℕ} (h : w.OnPath block x ks)
    (h' : w.OnPath block y l) (hlen : ks.length < l.length) : w.get y ≠ 0 := by
  induction h with
  | start =>
    have hle := h'.length_le
    omega
  | @next x k ks h hx ih =>
    rcases Nat.lt_or_ge (ks.length + 1) l.length with hlt | hge
    · exact ih (by simpa using hlt)
    · obtain ⟨rfl, -⟩ := h.unique h' (by simp only [List.length_cons]; omega)
      exact hx

/-- The walk for a logical block ends in one slot. -/
theorem OnPath.end_unique {block : ℕ} {ks l : List ℕ} (h : w.OnPath block x ks)
    (h' : w.OnPath block y l) (hx : w.get x ≠ 0 → ks = []) (hy : w.get y ≠ 0 → l = []) :
    x = y := by
  rcases Nat.lt_trichotomy ks.length l.length with hlt | heq | hgt
  · have hnil := hy (h.full h' hlt)
    rw [hnil, List.length_nil] at hlt
    omega
  · exact (h.unique h' heq).1
  · have hnil := hx (h'.full h hgt)
    rw [hnil, List.length_nil] at hgt
    omega

/-- The walk depends on the slots of the inode only. -/
theorem OnPath.congr {w' : Zones} {block : ℕ} {ks : List ℕ} (h : w.OnPath block x ks)
    (hblock : block < maxBlock) (hget : ∀ y, w.Owns y → w'.get y = w.get y) :
    w'.OnPath block x ks := by
  induction h with
  | start => exact .start
  | next h hx ih =>
    have heq := hget _ ⟨block, _, hblock, h⟩
    rw [← heq]
    exact ih.next (by rw [heq]; exact hx)

/-- The walk depends on the slots of the inode only, in the other direction. -/
theorem OnPath.of_congr {w' : Zones} {block : ℕ} {ks : List ℕ} (h : w'.OnPath block x ks)
    (hblock : block < maxBlock) (hget : ∀ y, w.Owns y → w'.get y = w.get y) :
    w.OnPath block x ks := by
  induction h with
  | start => exact .start
  | next h hx ih =>
    have heq := hget _ ⟨block, _, hblock, ih⟩
    rw [heq] at hx ⊢
    exact ih.next hx

/-- The block of an entry of the inode is in a slot of the inode. -/
theorem Owns.parent {z k : ℕ} (h : w.Owns (.entry z k)) : ∃ y, w.Owns y ∧ w.get y = z ∧ z ≠ 0 := by
  obtain ⟨block, ks, hblock, h⟩ := h
  cases h with
  | next h hx => exact ⟨_, ⟨block, _, hblock, h⟩, rfl, hx⟩

/-- A walk goes on when an empty slot is filled. -/
theorem OnPath.set {block : ℕ} {ks : List ℕ} (h : w.OnPath block x ks) (hy : w.get y = 0) :
    (w.set y j).OnPath block x ks := by
  induction h with
  | start => exact .start
  | @next x k ks h hx ih =>
    have hne : x ≠ y := by
      rintro rfl
      exact hx hy
    have heq : (w.set y j).get x = w.get x := by rw [get_set, if_neg hne]
    rw [← heq]
    exact ih.next (by rw [heq]; exact hx)

/-- Filling an empty slot with a cleared block adds the entries of this block. -/
theorem OnPath.of_set {block : ℕ} {ks : List ℕ} (h : (w.set y j).OnPath block x ks)
    (hclear : ∀ k, w.get (.entry j k) = 0) :
    w.OnPath block x ks ∨ ∃ k, x = .entry j k := by
  induction h with
  | start => exact .inl .start
  | @next x k ks h hx ih =>
    rw [get_set] at hx ⊢
    split_ifs at hx ⊢ with hxy
    · exact .inr ⟨k, rfl⟩
    · rcases ih with ih | ⟨k', rfl⟩
      · exact .inl (ih.next hx)
      · exact absurd (hclear k') hx

/-- The inode and the bitmap are consistent: the zones in the slots of the inode are marked as
used, no zone is in two slots, and bit 0, which belongs to no zone, is set. -/
structure Consistent (sb : ZoneSuper) (w : Zones) : Prop where
  firstdatazone : 0 < sb.firstdatazone
  reserved : w.zmap 0 = true
  used : ∀ x, w.Owns x → w.get x ≠ 0 →
    ∃ k, w.get x = k + sb.firstdatazone - 1 ∧ w.zmap k = true
  inj : ∀ x y, w.Owns x → w.Owns y → w.get x = w.get y → w.get x ≠ 0 → x = y

/-- The slots of the inode depend on themselves only. -/
theorem owns_congr {w' : Zones} (hget : ∀ y, w.Owns y → w'.get y = w.get y) :
    w'.Owns x ↔ w.Owns x := by
  constructor
  · rintro ⟨block, ks, hblock, h⟩
    exact ⟨block, ks, hblock, h.of_congr hblock hget⟩
  · rintro ⟨block, ks, hblock, h⟩
    exact ⟨block, ks, hblock, h.congr hblock hget⟩

/-- A consistent inode stays so when its slots do not change and no bit is cleared. -/
theorem Consistent.congr {sb : ZoneSuper} {w' : Zones} (h : w.Consistent sb)
    (hget : ∀ y, w.Owns y → w'.get y = w.get y)
    (hmono : ∀ k, w.zmap k = true → w'.zmap k = true) : w'.Consistent sb := by
  refine ⟨h.firstdatazone, hmono 0 h.reserved, ?_, ?_⟩
  · intro x hx hne
    rw [owns_congr hget] at hx
    rw [hget x hx] at hne ⊢
    obtain ⟨k, hk, hbit⟩ := h.used x hx hne
    exact ⟨k, hk, hmono k hbit⟩
  · intro x y hx hy heq hne
    rw [owns_congr hget] at hx hy
    rw [hget x hx] at heq hne
    rw [hget y hy] at heq
    exact h.inj x y hx hy heq hne

/-- All zones of the device are in use. -/
def Full (sb : ZoneSuper) (w : Zones) : Prop :=
  ∀ k, k < 8192 * sb.zmapBlocks → k + sb.firstdatazone - 1 < sb.nzones → w.zmap k = true

end Zones

/-! ### The search in the zone map -/

/-- The bits before the first clear one are set. -/
theorem firstZero_some {zmap : ℕ → Bool} {n i k : ℕ} (h : firstZero zmap n i = some k) :
    i ≤ k ∧ k < i + n ∧ zmap k = false ∧ ∀ l, i ≤ l → l < k → zmap l = true := by
  induction n generalizing i with
  | zero => cases h
  | succ n ih =>
    simp only [firstZero] at h
    split_ifs at h with hi
    · obtain ⟨hle, hlt, hk, hall⟩ := ih h
      refine ⟨by omega, by omega, hk, ?_⟩
      intro l hl hlk
      rcases Nat.eq_or_lt_of_le hl with rfl | hl
      · exact hi
      · exact hall l hl hlk
    · cases h
      exact ⟨Nat.le_refl _, by omega, by simpa using hi, fun l hl hlk => by omega⟩

/-- Without a clear bit, all bits are set. -/
theorem firstZero_none {zmap : ℕ → Bool} {n i : ℕ} (h : firstZero zmap n i = none) :
    ∀ l, i ≤ l → l < i + n → zmap l = true := by
  induction n generalizing i with
  | zero =>
    intro l hl hlt
    omega
  | succ n ih =>
    simp only [firstZero] at h
    split_ifs at h with hi
    intro l hl hlt
    rcases Nat.eq_or_lt_of_le hl with rfl | hl
    · exact hi
    · exact ih h l hl (by omega)

/-! ### The zones of the inode -/

/-- The zones that can be reached from the inode through `i_zone` and its indirect blocks. -/
def Zones.Reaches (w : Zones) (z : ℕ) : Prop :=
  (∃ n < 9, w.zone n = z) ∨
  (w.zone 7 ≠ 0 ∧ ∃ k < 512, w.entry (w.zone 7) k = z) ∨
  (w.zone 8 ≠ 0 ∧ ∃ k < 512, w.entry (w.zone 8) k = z) ∨
  (w.zone 8 ≠ 0 ∧ ∃ k < 512, w.entry (w.zone 8) k ≠ 0 ∧
    ∃ l < 512, w.entry (w.entry (w.zone 8) k) l = z)

/-- The three forms of the walk for a logical block. -/
theorem path_cases {block : ℕ} (h : block < maxBlock) :
    (∃ n < 9, path block = (n, [])) ∨ (∃ k < 512, path block = (7, [k])) ∨
      ∃ k < 512, ∃ l < 512, path block = (8, [k, l]) := by
  unfold maxBlock at h
  unfold path
  split_ifs with h1 h2
  · exact .inl ⟨block, by omega, rfl⟩
  · exact .inr (.inl ⟨block - 7, h2, rfl⟩)
  · exact .inr (.inr ⟨_, by omega, _, by omega, rfl⟩)

/-- The slots that a walk meets are those of `i_zone` and of its indirect blocks. -/
theorem Zones.OnPath.slot {w : Zones} {block : ℕ} {x : Slot} {ks : List ℕ}
    (h : w.OnPath block x ks) :
    (x = .izone (path block).1 ∧ ks = (path block).2) ∨
    (∃ k, x = .entry (w.zone (path block).1) k ∧ w.zone (path block).1 ≠ 0 ∧
      (path block).2 = k :: ks) ∨
    (∃ k l, x = .entry (w.entry (w.zone (path block).1) k) l ∧ w.zone (path block).1 ≠ 0 ∧
      w.entry (w.zone (path block).1) k ≠ 0 ∧ (path block).2 = k :: l :: ks) ∨
    2 < (path block).2.length := by
  induction h with
  | start => exact .inl ⟨rfl, rfl⟩
  | @next x k ks h hx ih =>
    rcases ih with ⟨rfl, hks⟩ | ⟨k', rfl, hzone, hks⟩ | ⟨k', l, rfl, hzone, hentry, hks⟩ | hlen
    · exact .inr (.inl ⟨k, rfl, hx, hks.symm⟩)
    · exact .inr (.inr (.inl ⟨k', k, rfl, hzone, hx, hks⟩))
    · refine .inr (.inr (.inr ?_))
      rw [hks]
      simp only [List.length_cons]
      omega
    · exact .inr (.inr (.inr hlen))

/-- What is in a slot of the inode can be reached from the inode. -/
theorem Zones.Owns.reaches {w : Zones} {x : Slot} (h : w.Owns x) : w.Reaches (w.get x) := by
  obtain ⟨block, ks, hblock, h⟩ := h
  have hslot := h.slot
  rcases path_cases hblock with ⟨n, hn, hpath⟩ | ⟨k, hk, hpath⟩ | ⟨k, hk, l, hl, hpath⟩
  · -- a direct block
    rw [hpath] at hslot
    rcases hslot with ⟨rfl, -⟩ | ⟨_, -, -, hks⟩ | ⟨_, _, -, -, -, hks⟩ | hlen
    · exact .inl ⟨n, hn, rfl⟩
    · cases hks
    · cases hks
    · simp at hlen
  · -- a block of the indirect block
    rw [hpath] at hslot
    rcases hslot with ⟨rfl, -⟩ | ⟨_, rfl, hzone, hks⟩ | ⟨_, _, -, -, -, hks⟩ | hlen
    · exact .inl ⟨7, by omega, rfl⟩
    · cases hks
      exact .inr (.inl ⟨hzone, k, hk, rfl⟩)
    · cases hks
    · simp at hlen
  · -- a block of a doubly indirect block
    rw [hpath] at hslot
    rcases hslot with ⟨rfl, -⟩ | ⟨_, rfl, hzone, hks⟩ | ⟨_, _, rfl, hzone, hentry, hks⟩ | hlen
    · exact .inl ⟨8, by omega, rfl⟩
    · cases hks
      exact .inr (.inr (.inl ⟨hzone, k, hk, rfl⟩))
    · cases hks
      exact .inr (.inr (.inr ⟨hzone, k, hk, hentry, l, hl, rfl⟩))
    · simp at hlen

end LihaLinux.Fs
