import LihaLinux.Lib.Transition
import LihaLinux.Files.ZoneMap
import Mathlib.Data.Set.Insert

/-!
# The zone map as an allocator

The calls of `new_block` and `free_block` on a device, one after another, while the owners of
the zones may hold their buffers. The bits of the zone map say which zones are allocated, in
every state of every run.
-/

namespace LihaLinux.Files

/-! ### Freeing -/

variable {s s' : Fs} {sb : SuperBlock} {dev k z : ℕ}

/-- The state after `free_block` of a zone. -/
def Fs.free (s : Fs) (sb : SuperBlock) (dev z : ℕ) : Fs :=
  (s.setUptodate ⟨dev, z⟩ false).setZmap dev (sb.bit z) false

/-- `free_block` of an allocated zone whose buffer is not held. -/
theorem freeBlock_run (hsb : superOf s.super dev = some sb) (hlow : sb.firstdatazone ≤ z)
    (hhigh : z < sb.nzones) (hcount : s.bcount ⟨dev, z⟩ = 0)
    (hmap : sb.bit z < 8192 * sb.zmapBlocks) (hbit : s.zmap dev (sb.bit z) = true) :
    freeBlock dev z s = .ok ((), s.free sb dev z) := by
  have hclear : clearZmapBit sb dev (sb.bit z) (s.setUptodate ⟨dev, z⟩ false) =
      .ok ((), s.free sb dev z) := by
    have hbit' : (s.setUptodate ⟨dev, z⟩ false).zmap dev (sb.bit z) = true := hbit
    rw [clearZmapBit, if_neg (by omega), Prog.read_run, hbit', if_pos rfl]
    rfl
  rw [freeBlock, Prog.bind_run (getSuper_run hsb)]
  dsimp only
  rw [if_neg (by omega), Prog.read_run, hcount, if_neg (by simp), Prog.update_run]
  exact hclear

/-! ### Zones and bits -/

/-- A zone of the data area. -/
def SuperBlock.DataZone (sb : SuperBlock) (z : ℕ) : Prop := sb.firstdatazone ≤ z ∧ z < sb.nzones

theorem SuperBlock.zone_bit (sb : SuperBlock) (hfirst : 1 ≤ sb.firstdatazone)
    (hz : sb.DataZone z) : sb.zone (sb.bit z) = z := by
  obtain ⟨hlow, -⟩ := hz
  rw [SuperBlock.zone, SuperBlock.bit, if_neg (by omega)]
  omega

theorem SuperBlock.bit_zone (sb : SuperBlock) (hfirst : 1 ≤ sb.firstdatazone) (k : ℕ) :
    sb.bit (sb.zone k) = k := by
  rw [SuperBlock.zone, SuperBlock.bit, if_neg (by omega)]
  omega

theorem SuperBlock.bit_inj (sb : SuperBlock) {y z : ℕ} (hy : sb.DataZone y) (hz : sb.DataZone z)
    (h : sb.bit y = sb.bit z) : y = z := by
  obtain ⟨hlow, -⟩ := hy
  obtain ⟨hlow', -⟩ := hz
  rw [SuperBlock.bit, SuperBlock.bit] at h
  omega

/-! ### The allocator -/

/-- A device whose map has enough blocks, with bit 0 and the bits behind those of the zones
set. -/
structure ZoneDevice (dev : ℕ) (sb : SuperBlock) (s : Fs) : Prop where
  super : superOf s.super dev = some sb
  nzones : sb.nzones < 65536
  blocks : sb.nzones - sb.firstdatazone < 8192 * sb.zmapBlocks
  bit_zero : s.zmap dev 0 = true
  bits_behind : ∀ k, sb.nzones - sb.firstdatazone < k → k < 8192 * sb.zmapBlocks →
    s.zmap dev k = true

/-- The bits of the zone map are those of the allocated zones, and no buffer of a zone that is
not allocated is held. -/
structure ZonesExact (dev : ℕ) (sb : SuperBlock) (s : Fs) (allocated : Set ℕ) : Prop where
  device : ZoneDevice dev sb s
  zone : ∀ z ∈ allocated, sb.DataZone z
  bit : ∀ z, sb.DataZone z → (s.zmap dev (sb.bit z) = true ↔ z ∈ allocated)
  free : ∀ z, sb.DataZone z → z ∉ allocated → s.bcount ⟨dev, z⟩ = 0

/-- What happens to a device: the calls that return, and what the owners of the allocated zones
do with their buffers. -/
inductive ZoneStep (dev : ℕ) : Fs × Set ℕ → Fs × Set ℕ → Prop
  /-- `new_block` returns a zone. -/
  | new {s s' : Fs} {allocated : Set ℕ} {z : ℕ} (hz : z ≠ 0) (h : newBlock dev s = .ok (z, s')) :
    ZoneStep dev (s, allocated) (s', insert z allocated)
  /-- `new_block` returns 0. -/
  | full {s s' : Fs} {allocated : Set ℕ} (h : newBlock dev s = .ok (0, s')) :
    ZoneStep dev (s, allocated) (s', allocated)
  /-- `free_block` of an allocated zone whose buffer is not held. -/
  | free {s s' : Fs} {allocated : Set ℕ} {z : ℕ} (hz : z ∈ allocated)
    (hcount : s.bcount ⟨dev, z⟩ = 0) (h : freeBlock dev z s = .ok ((), s')) :
    ZoneStep dev (s, allocated) (s', allocated \ {z})
  /-- The buffer of an allocated zone is held from now on, or less often. -/
  | hold {s : Fs} {allocated : Set ℕ} {z : ℕ} (hz : z ∈ allocated) (n : ℕ) :
    ZoneStep dev (s, allocated) (s.setCount ⟨dev, z⟩ n, allocated)

variable {allocated : Set ℕ}

/-- A first clear bit belongs to a zone that is not allocated. -/
theorem ZonesExact.firstClear (h : ZonesExact dev sb s allocated) (hfirst : 1 ≤ sb.firstdatazone)
    (hk : FirstClear sb.zmapBlocks (s.zmap dev) k) :
    k + sb.firstdatazone ≤ sb.nzones ∧ sb.DataZone (sb.zone k) ∧ sb.zone k ∉ allocated := by
  have hpos : k ≠ 0 := by
    rintro rfl
    exact absurd h.device.bit_zero (by simp [hk.clear])
  have hlt := hk.lt
  have hle : k ≤ sb.nzones - sb.firstdatazone := by
    by_contra hbehind
    have hset := h.device.bits_behind k (by omega) (by omega)
    exact absurd hset (by simp [hk.clear])
  have hzone : sb.DataZone (sb.zone k) := by
    rw [SuperBlock.DataZone, SuperBlock.zone, if_neg (by omega)]
    omega
  refine ⟨by omega, hzone, fun hmem => ?_⟩
  have hset := (h.bit _ hzone).mpr hmem
  rw [sb.bit_zone hfirst] at hset
  exact absurd hset (by simp [hk.clear])

/-- Without a clear bit all zones are allocated. -/
theorem ZonesExact.full (h : ZonesExact dev sb s allocated)
    (hfull : ∀ l < 8192 * min sb.zmapBlocks 8, s.zmap dev l = true) (hz : sb.DataZone z) :
    z ∈ allocated := by
  refine (h.bit z hz).mp (hfull _ ?_)
  obtain ⟨hlow, hhigh⟩ := hz
  have hblocks := h.device.blocks
  have hnzones := h.device.nzones
  rw [SuperBlock.bit]
  omega

/-- The step lemma for the zone that `new_block` takes. -/
theorem ZonesExact.take (h : ZonesExact dev sb s allocated) (hfirst : 1 ≤ sb.firstdatazone)
    (hzone : sb.DataZone (sb.zone k)) :
    ZonesExact dev sb (s.take dev k (sb.zone k)) (insert (sb.zone k) allocated) := by
  have hzmap (l : ℕ) : (s.take dev k (sb.zone k)).zmap dev l =
      Function.update (s.zmap dev) k true l := by
    change Function.update s.zmap dev (Function.update (s.zmap dev) k true) dev l = _
    rw [Function.update_self]
  have hset (l : ℕ) (hl : s.zmap dev l = true) : (s.take dev k (sb.zone k)).zmap dev l = true := by
    rw [hzmap]
    by_cases hlk : l = k
    · rw [hlk, Function.update_self]
    · rwa [Function.update_of_ne hlk]
  constructor
  · exact ⟨h.device.super, h.device.nzones, h.device.blocks, hset 0 h.device.bit_zero,
      fun l hl hl' => hset l (h.device.bits_behind l hl hl')⟩
  · intro y hy
    rcases Set.mem_insert_iff.mp hy with rfl | hy
    · exact hzone
    · exact h.zone y hy
  · intro y hy
    rw [hzmap, Set.mem_insert_iff]
    by_cases heq : y = sb.zone k
    · rw [heq, sb.bit_zone hfirst, Function.update_self]
      simp
    · have hne : sb.bit y ≠ k := by
        rintro rfl
        exact heq (sb.zone_bit hfirst hy).symm
      rw [Function.update_of_ne hne, h.bit y hy]
      simp [heq]
  · intro y hy hnot
    rw [Set.mem_insert_iff, not_or] at hnot
    exact h.free y hy hnot.2

/-- The step lemma for `free_block`. -/
theorem ZonesExact.free_step (h : ZonesExact dev sb s allocated)
    (hz : z ∈ allocated) (hcount : s.bcount ⟨dev, z⟩ = 0) :
    ZonesExact dev sb (s.free sb dev z) (allocated \ {z}) := by
  have hzone := h.zone z hz
  have hzmap (l : ℕ) : (s.free sb dev z).zmap dev l =
      Function.update (s.zmap dev) (sb.bit z) false l := by
    change Function.update s.zmap dev (Function.update (s.zmap dev) (sb.bit z) false) dev l = _
    rw [Function.update_self]
  have hbit : 1 ≤ sb.bit z ∧ sb.bit z ≤ sb.nzones - sb.firstdatazone := by
    obtain ⟨hlow, hhigh⟩ := hzone
    rw [SuperBlock.bit]
    omega
  have hset (l : ℕ) (hne : l ≠ sb.bit z) (hl : s.zmap dev l = true) :
      (s.free sb dev z).zmap dev l = true := by
    rwa [hzmap, Function.update_of_ne hne]
  constructor
  · exact ⟨h.device.super, h.device.nzones, h.device.blocks,
      hset 0 (by omega) h.device.bit_zero,
      fun l hl hl' => hset l (by omega) (h.device.bits_behind l hl hl')⟩
  · intro y hy
    exact h.zone y hy.1
  · intro y hy
    rw [hzmap]
    by_cases heq : y = z
    · rw [heq, Function.update_self]
      simp
    · have hne : sb.bit y ≠ sb.bit z := fun hb => heq (sb.bit_inj hy hzone hb)
      rw [Function.update_of_ne hne, h.bit y hy]
      simp [heq]
  · intro y hy hnot
    by_cases heq : y = z
    · rw [heq]
      exact hcount
    · exact h.free y hy fun hmem => hnot ⟨hmem, heq⟩

/-- `free_block` of an allocated zone runs to its end. -/
theorem ZonesExact.freeBlock (h : ZonesExact dev sb s allocated) (hz : z ∈ allocated)
    (hcount : s.bcount ⟨dev, z⟩ = 0) : freeBlock dev z s = .ok ((), s.free sb dev z) := by
  have hzone := h.zone z hz
  have hmap : sb.bit z < 8192 * sb.zmapBlocks := by
    obtain ⟨hlow, hhigh⟩ := hzone
    have hblocks := h.device.blocks
    rw [SuperBlock.bit]
    omega
  exact freeBlock_run h.device.super hzone.1 hzone.2 hcount hmap ((h.bit z hzone).mpr hz)

/-- `new_block` takes a zone that is not allocated, if there is one. -/
theorem ZonesExact.newBlock (h : ZonesExact dev sb s allocated) (hfirst : 1 ≤ sb.firstdatazone) :
    (newBlock dev s = .ok (0, s) ∧ ∀ z, sb.DataZone z → z ∈ allocated) ∨
      ∃ k, newBlock dev s = .ok (sb.zone k, s.take dev k (sb.zone k)) ∧
        sb.DataZone (sb.zone k) ∧ sb.zone k ∉ allocated := by
  cases hfind : findClear sb.zmapBlocks (s.zmap dev) 8 0 with
  | none =>
    have hfull := findClear_none hfind
    exact Or.inl ⟨newBlock_full h.device.super hfull, fun z hz => h.full hfull hz⟩
  | some k =>
    have hk := findClear_some hfind
    obtain ⟨hle, hzone, hnot⟩ := h.firstClear hfirst hk
    have hcount := h.free _ hzone hnot
    exact Or.inr ⟨k, newBlock_take h.device.super hk hle hcount, hzone, hnot⟩

/-- Every step keeps the map exact. -/
theorem ZonesExact.step (hfirst : 1 ≤ sb.firstdatazone) {w w' : Fs × Set ℕ}
    (h : ZonesExact dev sb w.1 w.2) (hstep : ZoneStep dev w w') : ZonesExact dev sb w'.1 w'.2 := by
  cases hstep with
  | new hz hnew =>
    rcases h.newBlock hfirst with ⟨hfull, -⟩ | ⟨k, htake, hzone, -⟩
    · rw [hfull] at hnew
      cases hnew
      exact absurd rfl hz
    · rw [htake] at hnew
      cases hnew
      exact h.take hfirst hzone
  | full hnew =>
    rcases h.newBlock hfirst with ⟨hfull, -⟩ | ⟨k, htake, hzone, -⟩
    · rw [hfull] at hnew
      cases hnew
      exact h
    · rw [htake, Except.ok.injEq, Prod.mk.injEq] at hnew
      have hpos : sb.zone k ≠ 0 := by
        obtain ⟨hlow, -⟩ := hzone
        omega
      exact absurd hnew.1 hpos
  | free hz hcount hfree =>
    rw [h.freeBlock hz hcount] at hfree
    cases hfree
    exact h.free_step hz hcount
  | @hold s allocated z hz n =>
    refine ⟨⟨h.device.super, h.device.nzones, h.device.blocks, h.device.bit_zero,
      h.device.bits_behind⟩, h.zone, h.bit, fun y hy hnot => ?_⟩
    change Function.update s.bcount ⟨dev, z⟩ n ⟨dev, y⟩ = 0
    rw [Function.update_of_ne]
    · exact h.free y hy hnot
    · rintro heq
      cases heq
      exact hnot hz

/-- A device before its first call: a zone is allocated if its bit is set. -/
structure ZoneStart (dev : ℕ) (sb : SuperBlock) (w : Fs × Set ℕ) : Prop where
  device : ZoneDevice dev sb w.1
  allocated : w.2 = {z | sb.DataZone z ∧ w.1.zmap dev (sb.bit z) = true}
  free : ∀ z, sb.DataZone z → z ∉ w.2 → w.1.bcount ⟨dev, z⟩ = 0

theorem ZoneStart.exact {w : Fs × Set ℕ} (h : ZoneStart dev sb w) :
    ZonesExact dev sb w.1 w.2 := by
  refine ⟨h.device, fun z hz => ?_, fun z hz => ?_, h.free⟩
  · rw [h.allocated] at hz
    exact hz.1
  · rw [h.allocated]
    exact ⟨fun hbit => ⟨hz, hbit⟩, fun hmem => hmem.2⟩

/-- The zone map is an exact allocator. In every state of every run the set bits of the zones
are those of the allocated ones, `new_block` returns with a zone of the data area that is not
allocated, whose buffer is up to date and full of zeros, or with 0, and this if and only if all
zones are allocated, and `free_block` of an allocated zone whose buffer is not held returns. -/
theorem zoneMap_exact (hfirst : 1 ≤ sb.firstdatazone) {w : Fs × Set ℕ}
    (h : Reachable (ZoneStart dev sb) (ZoneStep dev) w) :
    (∀ z, sb.DataZone z → (w.1.zmap dev (sb.bit z) = true ↔ z ∈ w.2)) ∧
    (∀ z ∈ w.2, sb.DataZone z) ∧
    (∃ z s', newBlock dev w.1 = .ok (z, s') ∧ (z = 0 ↔ ∀ y, sb.DataZone y → y ∈ w.2) ∧
      (z ≠ 0 → sb.DataZone z ∧ z ∉ w.2 ∧ s'.uptodate ⟨dev, z⟩ = true ∧
        ∀ b, s'.data ⟨dev, z⟩ b = 0)) ∧
    ∀ z ∈ w.2, w.1.bcount ⟨dev, z⟩ = 0 → ∃ s', freeBlock dev z w.1 = .ok ((), s') := by
  have hexact : ZonesExact dev sb w.1 w.2 :=
    Reachable.invariant (P := fun w => ZonesExact dev sb w.1 w.2) (fun _ => ZoneStart.exact)
      (fun _ _ => ZonesExact.step hfirst) h
  refine ⟨hexact.bit, hexact.zone, ?_, fun z hz hcount => ⟨_, hexact.freeBlock hz hcount⟩⟩
  rcases hexact.newBlock hfirst with ⟨hfull, hall⟩ | ⟨k, htake, hzone, hnot⟩
  · exact ⟨0, w.1, hfull, by simpa using hall, fun hne => absurd rfl hne⟩
  · refine ⟨_, _, htake, ⟨fun hzero => ?_, fun hall => absurd (hall _ hzone) hnot⟩, fun _ =>
      ⟨hzone, hnot, Function.update_self .., fun b => ?_⟩⟩
    · have hlow := hzone.1
      omega
    · have hzero : (w.1.take dev k (sb.zone k)).data ⟨dev, sb.zone k⟩ = fun _ => 0 :=
        Function.update_self ..
      rw [hzero]

/-- A device with the zones 5 to 9, of which only zone 5 is allocated. -/
def oneZone : Fs :=
  { Fs.empty with
    zmap := fun _ k => decide (k ≤ 1 ∨ 6 ≤ k)
    super := fun _ => { SuperBlock.zero with
      ninodes := 32, nzones := 10, imapBlocks := 1, zmapBlocks := 1, firstdatazone := 5,
      dev := 1 } }

/-- `new_block` on a device with one allocated zone. -/
theorem zoneMap_exact_sample :
    ∃ z s', newBlock 1 oneZone = .ok (z, s') ∧
      (z = 0 ↔ ∀ y, (oneZone.super 0).DataZone y → y = 5) ∧
      (z ≠ 0 → (oneZone.super 0).DataZone z ∧ z ≠ 5 ∧ s'.uptodate ⟨1, z⟩ = true ∧
        ∀ b, s'.data ⟨1, z⟩ b = 0) := by
  have hstart : ZoneStart 1 (oneZone.super 0) (oneZone, {5}) := by
    constructor
    · exact ⟨rfl, by decide, by decide, rfl, fun k hk _ => decide_eq_true (Or.inr hk)⟩
    · ext z
      change z = 5 ↔ (5 ≤ z ∧ z < 10) ∧ decide (z + 1 - 5 ≤ 1 ∨ 6 ≤ z + 1 - 5) = true
      rw [decide_eq_true_iff]
      omega
    · intro _ _ _
      rfl
  exact (zoneMap_exact (by decide) (Reachable.of_init hstart)).2.2.1

/-- A device whose data zones are 0 and 1, both of them free. -/
def zeroFirst : Fs :=
  { Fs.empty with
    zmap := fun _ k => decide (k = 0 ∨ 3 ≤ k)
    super := fun _ => { SuperBlock.zero with
      ninodes := 32, nzones := 2, imapBlocks := 1, zmapBlocks := 1, firstdatazone := 0, dev := 1 } }

/-- Zone 0 is taken first if it is a data zone, and looks like a failure. -/
theorem zoneMap_zeroFirst :
    ∃ w : Fs × Set ℕ, ∃ s', ZoneStart 1 (zeroFirst.super 0) w ∧ newBlock 1 w.1 = .ok (0, s') ∧
      (zeroFirst.super 0).DataZone 1 ∧ 1 ∉ w.2 := by
  have hk : FirstClear 1 (zeroFirst.zmap 1) 1 := by
    constructor
    · decide
    · decide
    · intro l hl
      exact decide_eq_true (by omega)
  have hrun : newBlock 1 zeroFirst = .ok (0, zeroFirst.take 1 1 0) :=
    newBlock_take (show superOf zeroFirst.super 1 = some (zeroFirst.super 0) from rfl) hk
      (by decide) rfl
  refine ⟨(zeroFirst, ∅), _, ?_, hrun, ⟨by decide, by decide⟩, Set.notMem_empty _⟩
  constructor
  · exact ⟨rfl, by decide, by decide, rfl, fun k hk _ => decide_eq_true (Or.inr hk)⟩
  · ext z
    constructor
    · exact False.elim
    · rintro ⟨⟨-, hlt⟩, hbit⟩
      have hset : z + 1 = 0 ∨ 3 ≤ z + 1 := of_decide_eq_true hbit
      change z < 2 at hlt
      omega
  · intro _ _ _
    rfl

end LihaLinux.Files
