import LihaLinux.Malloc.Heap
import Mathlib.Algebra.Order.Ring.Nat
import Mathlib.Data.List.Range

/-!
# Slots

A page is divided into slots of one size, for objects or for descriptors. The loops that link the
slots of a page make them a list.
-/

namespace LihaLinux.Malloc

/-- The parts of a page, given by their number and their size. -/
def slots (p n size : ℕ) : List ℕ := List.range' p n size

theorem slots_succ (p n size : ℕ) : slots p (n + 1) size = p :: slots (p + size) n size := rfl

theorem mem_slots {p n size a : ℕ} : a ∈ slots p n size ↔ ∃ k < n, a = p + size * k :=
  List.mem_range'

theorem nodup_slots {size : ℕ} (hsize : 0 < size) (p n : ℕ) : (slots p n size).Nodup :=
  List.nodup_range' size hsize

/-- Two slots do not overlap. -/
theorem slots_disjoint {p n size a b : ℕ} (ha : a ∈ slots p n size) (hb : b ∈ slots p n size)
    (hne : a ≠ b) : a + size ≤ b ∨ b + size ≤ a := by
  obtain ⟨k, -, rfl⟩ := mem_slots.mp ha
  obtain ⟨j, -, rfl⟩ := mem_slots.mp hb
  have hkj : k ≠ j := fun hkj => hne (by rw [hkj])
  rcases Nat.lt_or_gt_of_ne hkj with hlt | hlt
  · left
    have hmul : size * (k + 1) ≤ size * j := Nat.mul_le_mul_left size hlt
    rw [Nat.mul_succ] at hmul
    omega
  · right
    have hmul : size * (j + 1) ≤ size * k := Nat.mul_le_mul_left size hlt
    rw [Nat.mul_succ] at hmul
    omega

/-- A slot lies on its page. -/
theorem slots_bounds {p n size a : ℕ} (ha : a ∈ slots p n size) :
    p ≤ a ∧ a + size ≤ p + n * size := by
  obtain ⟨k, hk, rfl⟩ := mem_slots.mp ha
  have hmul : size * (k + 1) ≤ size * n := Nat.mul_le_mul_left size hk
  rw [Nat.mul_succ, Nat.mul_comm size n] at hmul
  omega

theorem pageOf_eq {p a : ℕ} (hp : p % pageSize = 0) (hle : p ≤ a) (hlt : a < p + pageSize) :
    pageOf a = p := by
  simp only [pageOf, pageSize] at *
  omega

theorem pageOf_slot {p n size a : ℕ} (hp : p % pageSize = 0) (hsize : 0 < size)
    (hn : n * size = pageSize) (ha : a ∈ slots p n size) : pageOf a = p := by
  have hb := slots_bounds ha
  exact pageOf_eq hp hb.1 (by omega)

/-! ### Sizes -/

/-- A page is divided into objects of one of the sizes without remainder. -/
theorem bucketSize_dvd : ∀ i < nrBuckets, 16 ≤ bucketSize i ∧ bucketSize i % 16 = 0 ∧
    pageSize / bucketSize i * bucketSize i = pageSize ∧ 0 < pageSize / bucketSize i ∧
      pageSize / bucketSize i ≤ 256 := by
  decide

/-- There is a size for every length that fits on a page. -/
theorem exists_findBucket {len : ℕ} (h : len ≤ pageSize) : ∃ i, findBucket len = some i := by
  rw [← Option.isSome_iff_exists, findBucket, List.find?_isSome]
  exact ⟨8, List.mem_range.mpr (by decide), decide_eq_true h⟩

theorem findBucket_spec {len i : ℕ} (h : findBucket len = some i) :
    i < nrBuckets ∧ len ≤ bucketSize i := by
  rw [findBucket] at h
  have hlen := List.find?_some h
  exact ⟨List.mem_range.mp (List.mem_of_find?_eq_some h), of_decide_eq_true hlen⟩

/-- The slots for objects on a page of a bucket. -/
def objectSlots (p i : ℕ) : List ℕ := slots p (pageSize / bucketSize i) (bucketSize i)

theorem nodup_objectSlots (p : ℕ) {i : ℕ} (hi : i < nrBuckets) : (objectSlots p i).Nodup :=
  nodup_slots (by have := (bucketSize_dvd i hi).1; omega) ..

theorem pageOf_objectSlots {p i a : ℕ} (hp : p % pageSize = 0) (hi : i < nrBuckets)
    (ha : a ∈ objectSlots p i) : pageOf a = p :=
  pageOf_slot hp (by have := (bucketSize_dvd i hi).1; omega) (bucketSize_dvd i hi).2.2.1 ha

theorem objectSlots_length (p i : ℕ) : (objectSlots p i).length = pageSize / bucketSize i :=
  List.length_range'

/-- An object ends on its page. -/
theorem objectSlots_bounds {p i a : ℕ} (hi : i < nrBuckets) (ha : a ∈ objectSlots p i) :
    p ≤ a ∧ a + bucketSize i ≤ p + pageSize := by
  have hb := slots_bounds ha
  rwa [(bucketSize_dvd i hi).2.2.1] at hb

/-- The words of an object are not in another slot. -/
theorem word_notMem_objectSlots {p i a b : ℕ} (hp : p % pageSize = 0) (hi : i < nrBuckets)
    (ha : a ∈ objectSlots p i) (hle : a ≤ b) (hlt : b < a + bucketSize i)
    (hb : b - b % 4 ∈ objectSlots p i) : b - b % 4 = a := by
  by_contra hne
  have hsize := bucketSize_dvd i hi
  have hmod : a % 4 = 0 := by
    obtain ⟨k, -, rfl⟩ := mem_slots.mp ha
    have hmul : bucketSize i * k % 16 = 0 := by
      rw [Nat.mul_mod, hsize.2.1, Nat.zero_mul, Nat.zero_mod]
    simp only [pageSize] at hp
    omega
  rcases slots_disjoint ha hb (Ne.symm hne) with h | h
  · omega
  · have hpos := hsize.1
    omega

/-- The descriptors on a page. -/
def descSlots (p : ℕ) : List ℕ := slots p (pageSize / descSize) descSize

theorem nodup_descSlots (p : ℕ) : (descSlots p).Nodup := nodup_slots (by decide) ..

theorem pageOf_descSlots {p d : ℕ} (hp : p % pageSize = 0) (hd : d ∈ descSlots p) : pageOf d = p :=
  pageOf_slot hp (by decide) (by decide) hd

/-! ### Linked slots -/

/-- Only the slots are written. -/
theorem linkRun_of_notMem {size n cp a : ℕ} {last : Option ℕ} {f : ℕ → Option ℕ}
    (ha : a ∉ slots cp (n + 1) size) : linkRun size last n cp f a = f a := by
  induction n generalizing cp f with
  | zero => exact Function.update_of_ne (fun h => ha (by simp [h, slots_succ])) ..
  | succ n ih =>
    rw [slots_succ, List.mem_cons, not_or] at ha
    rw [linkRun, ih ha.2, Function.update_of_ne ha.1]

/-- The slots become a list, with another list behind it. -/
theorem linked_linkRun {size : ℕ} (hsize : 0 < size) {n cp : ℕ} {last : Option ℕ}
    {f : ℕ → Option ℕ} {l : List ℕ} (hl : Linked f last l)
    (hout : ∀ a ∈ l, a ∉ slots cp (n + 1) size) :
    Linked (linkRun size last n cp f) (some cp) (slots cp (n + 1) size ++ l) := by
  induction n generalizing cp f with
  | zero =>
    refine ⟨rfl, ?_⟩
    rw [linkRun, Function.update_self]
    exact hl.congr fun a ha => linkRun_of_notMem (n := 0) (hout a ha)
  | succ n ih =>
    rw [slots_succ, List.cons_append]
    refine ⟨rfl, ?_⟩
    have hcp : cp ∉ slots (cp + size) (n + 1) size := by
      intro h
      have := (slots_bounds h).1
      omega
    rw [linkRun, linkRun_of_notMem hcp, Function.update_self]
    have hne : ∀ a ∈ l, a ≠ cp := fun a ha hac => hout a ha (by simp [hac, slots_succ])
    refine ih (hl.congr fun a ha => Function.update_of_ne (hne a ha) ..) fun a ha hmem => ?_
    exact hout a ha (by rw [slots_succ]; exact List.mem_cons_of_mem cp hmem)

theorem descSlots_eq (p : ℕ) : slots p (pageSize / descSize - 1 + 1) descSize = descSlots p := by
  rw [Nat.sub_add_cancel (by decide), descSlots]

theorem objectSlots_eq (p : ℕ) {i : ℕ} (hi : i < nrBuckets) :
    slots p (pageSize / bucketSize i - 1 + 1) (bucketSize i) = objectSlots p i := by
  have := (bucketSize_dvd i hi).2.2.2.1
  rw [Nat.sub_add_cancel (by omega), objectSlots]

end LihaLinux.Malloc
