import LihaLinux.Block.HardDisk
import Mathlib.Tactic.Ring

/-!
# Sectors and commands

A block of a partition has two sectors, and a command denotes them by a cylinder, a head and a
sector of the track.
-/

namespace LihaLinux.Hd

/-- The partitions are on their disks, which have geometries as the BIOS gives them. -/
structure Tables.Valid (t : Tables) : Prop where
  nrHd : t.nrHd ≤ 2
  sect : ∀ d, (t.hdInfo d).sect ≤ 255
  head : ∀ d, (t.hdInfo d).head ≤ 255
  cyl : ∀ d, (t.hdInfo d).cyl ≤ 65535
  inside : ∀ dev < 5 * t.nrHd, (t.hd dev).startSect + (t.hd dev).nrSects ≤
    (t.hdInfo (dev / 5)).cyl * ((t.hdInfo (dev / 5)).head * (t.hdInfo (dev / 5)).sect)

/-- A request is for a block of a partition. -/
def InPartition (t : Tables) (r : Request) : Prop :=
  r.dev < 5 * t.nrHd ∧ 2 * r.bh.blocknr + 2 ≤ (t.hd r.dev).nrSects

/-- The sectors of the block of a request. -/
def sectorOf (t : Tables) (r : Request) (k : ℕ) : ℕ :=
  (t.hd r.dev).startSect + 2 * r.bh.blocknr + k

/-- `k` sectors of a request are done. -/
structure AtHalf (r : Request) (k : ℕ) : Prop where
  le : k ≤ 1
  sector : r.sector = add32 (mul32 r.bh.blocknr 2) k
  nrSectors : r.nrSectors = 2 - k
  buffer : r.buffer = r.bh.data + 512 * k

/-- A command is for the two sectors of its request, and its cylinder, head and sector are of the
disk. -/
structure Addresses (t : Tables) (c : Command) : Prop where
  drive : c.drive = c.request.dev / 5
  sect : 1 ≤ c.sect ∧ c.sect ≤ (t.hdInfo c.drive).sect
  head : c.head < (t.hdInfo c.drive).head
  sectors : ∀ j < c.nsect, c.first t + j = sectorOf t c.request 0 ∨
    c.first t + j = sectorOf t c.request 1

section Geometry

variable {t : Tables} {r : Request} {k : ℕ}

theorem Tables.Valid.lt (ht : t.Valid) {dev : ℕ} (hdev : dev < 5 * t.nrHd) :
    (t.hd dev).startSect + (t.hd dev).nrSects < 4294967296 := by
  have hsect := ht.sect (dev / 5)
  have hhead := ht.head (dev / 5)
  have hcyl := ht.cyl (dev / 5)
  calc (t.hd dev).startSect + (t.hd dev).nrSects
      ≤ _ := ht.inside dev hdev
    _ ≤ 65535 * (255 * 255) := Nat.mul_le_mul hcyl (Nat.mul_le_mul hhead hsect)
    _ < 4294967296 := by decide

/-- The sector of a request does not wrap, and neither does its number on the disk. -/
theorem AtHalf.sector_eq (h : AtHalf r k) (ht : t.Valid) (hr : InPartition t r) :
    r.sector = 2 * r.bh.blocknr + k ∧ add32 r.sector (t.hd r.dev).startSect = sectorOf t r k := by
  have hlt := ht.lt hr.1
  have hblock := hr.2
  have hk := h.le
  have hmul : mul32 r.bh.blocknr 2 = 2 * r.bh.blocknr := by
    rw [mul32_eq (by omega), Nat.mul_comm]
  have hsector : r.sector = 2 * r.bh.blocknr + k := by
    rw [h.sector, hmul, add32_eq (by omega)]
  refine ⟨hsector, ?_⟩
  rw [hsector, add32_eq (by omega), sectorOf]
  omega

/-- The next sector of a request. -/
theorem AtHalf.succ (h : AtHalf r 0) : add32 r.sector 1 = add32 (mul32 r.bh.blocknr 2) 1 := by
  rw [h.sector]
  simp only [add32, Nat.add_zero, Nat.mod_add_mod]

/-- A cylinder, a head and a sector denote the block that they have been computed from. -/
theorem denotes (block sect head : ℕ) :
    (block / sect / head * head + block / sect % head) * sect + block % sect = block := by
  rw [Nat.mul_comm (block / sect / head) head, Nat.div_add_mod, Nat.mul_comm, Nat.div_add_mod]

/-- The command for a request of a partition. -/
theorem AtHalf.command_addresses (h : AtHalf r k) (ht : t.Valid) (hr : InPartition t r)
    (hpos : ¬((t.hdInfo (r.dev / 5)).sect = 0 ∨ (t.hdInfo (r.dev / 5)).head = 0)) {c : Command}
    (hc : c = command r (r.dev / 5) r.nrSectors
      (add32 r.sector (t.hd r.dev).startSect % (t.hdInfo (r.dev / 5)).sect + 1)
      (add32 r.sector (t.hd r.dev).startSect / (t.hdInfo (r.dev / 5)).sect %
        (t.hdInfo (r.dev / 5)).head)
      (add32 r.sector (t.hd r.dev).startSect / (t.hdInfo (r.dev / 5)).sect /
        (t.hdInfo (r.dev / 5)).head)) :
    c.first t = sectorOf t r k ∧ Addresses t c := by
  have hsector := (h.sector_eq ht hr).2
  have hinside := ht.inside r.dev hr.1
  have hsect := ht.sect (r.dev / 5)
  have hcyl := ht.cyl (r.dev / 5)
  have hblock := hr.2
  have hk := h.le
  rw [hsector] at hc
  obtain ⟨block, hblockEq⟩ : ∃ block, sectorOf t r k = block := ⟨_, rfl⟩
  rw [hblockEq] at hc ⊢
  have hlt : block < (t.hdInfo (r.dev / 5)).cyl *
      ((t.hdInfo (r.dev / 5)).head * (t.hdInfo (r.dev / 5)).sect) := by
    rw [← hblockEq, sectorOf]
    omega
  have hmod : block % (t.hdInfo (r.dev / 5)).sect < (t.hdInfo (r.dev / 5)).sect :=
    Nat.mod_lt _ (by omega)
  have hhead : block / (t.hdInfo (r.dev / 5)).sect % (t.hdInfo (r.dev / 5)).head <
      (t.hdInfo (r.dev / 5)).head := Nat.mod_lt _ (by omega)
  have hcylinder : block / (t.hdInfo (r.dev / 5)).sect / (t.hdInfo (r.dev / 5)).head <
      (t.hdInfo (r.dev / 5)).cyl := by
    rw [Nat.div_div_eq_div_mul, Nat.mul_comm (t.hdInfo (r.dev / 5)).sect]
    exact Nat.div_lt_of_lt_mul (by rwa [Nat.mul_comm])
  have hcsect : c.sect = block % (t.hdInfo (r.dev / 5)).sect + 1 := by
    rw [hc]
    exact Nat.mod_eq_of_lt (by omega)
  have hccyl : c.cyl = block / (t.hdInfo (r.dev / 5)).sect / (t.hdInfo (r.dev / 5)).head := by
    rw [hc]
    exact Nat.mod_eq_of_lt (by omega)
  have hdrive : c.drive = r.dev / 5 := by rw [hc]; rfl
  have hchead : c.head = block / (t.hdInfo (r.dev / 5)).sect % (t.hdInfo (r.dev / 5)).head := by
    rw [hc]
    rfl
  have hrequest : c.request = r := by rw [hc]; rfl
  have hnsect : c.nsect = 2 - k := by
    rw [hc]
    change r.nrSectors % 256 = _
    rw [h.nrSectors]
    omega
  have hfirst : c.first t = block := by
    rw [Command.first, hdrive, hcsect, hccyl, hchead, Nat.add_sub_cancel]
    exact denotes _ _ _
  refine ⟨hfirst, ⟨?_, ?_, ?_, ?_⟩⟩
  · rw [hdrive, hrequest]
  · rw [hcsect, hdrive]
    omega
  · rw [hchead, hdrive]
    exact hhead
  · intro j hj
    rw [hfirst, hrequest, ← hblockEq]
    rw [hnsect] at hj
    simp only [sectorOf]
    omega

end Geometry

end LihaLinux.Hd
