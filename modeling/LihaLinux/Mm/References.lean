import LihaLinux.Lib.Counting
import Mathlib.Data.Finset.Basic

/-!
# The reference graph of the page frames

What `mem_map` is for, independently of how page tables are stored: a frame is
referred to by page-table entries, by page-directory entries that use it as a
page table, and by the kernel while it holds the frame outside any page table.
The directory entries `16 * n .. 16 * n + 15` belong to task slot `n`; the
first sixteen are the kernel's and are not counted.
-/

namespace LihaLinux.Mm

/-- The page-directory entries of the task slots 1 to 63. -/
@[irreducible] def taskDirs : Finset ℕ := Finset.Ico 16 1024

/-- The page-table entries of the task slots 1 to 63. -/
@[irreducible] def taskPlaces : Finset (ℕ × ℕ) := taskDirs ×ˢ Finset.range 1024

theorem mem_taskDirs {d : ℕ} : d ∈ taskDirs ↔ 16 ≤ d ∧ d < 1024 := by
  simp [taskDirs]

theorem mem_taskPlaces {d j : ℕ} : (d, j) ∈ taskPlaces ↔ d ∈ taskDirs ∧ j < 1024 := by
  simp [taskPlaces]

/-- Who refers to which frame. -/
@[ext] structure Refs where
  /-- The frame used as page table by a directory entry. -/
  dir : ℕ → Option ℕ
  /-- The frame mapped by an entry of the page table of a directory entry. -/
  pte : ℕ → ℕ → Option ℕ
  /-- The frames held by the kernel. -/
  held : Finset ℕ

namespace Refs

/-- The number of references to a frame. -/
def count (r : Refs) (f : ℕ) : ℕ :=
  (taskPlaces.filter fun p => r.pte p.1 p.2 = some f).card +
    (taskDirs.filter fun d => r.dir d = some f).card + indicator (f ∈ r.held)

/-- Rewrite one page-table entry. -/
def setPte (r : Refs) (d j : ℕ) (v : Option ℕ) : Refs :=
  { r with pte := fun d' j' => if d' = d ∧ j' = j then v else r.pte d' j' }

/-- Rewrite one directory entry. -/
def setDir (r : Refs) (d : ℕ) (v : Option ℕ) : Refs :=
  { r with dir := fun d' => if d' = d then v else r.dir d' }

/-- The kernel takes a frame. -/
def hold (r : Refs) (f : ℕ) : Refs := { r with held := insert f r.held }

/-- The kernel gives a frame up. -/
def release (r : Refs) (f : ℕ) : Refs := { r with held := r.held.erase f }

/-- The graph is well formed over the frames `lo .. hi - 1`: every frame has one
role, a page table and a frame held by the kernel have no other reference, and
a shared frame sits at one task-relative address. -/
structure WF (lo hi : ℕ) (r : Refs) : Prop where
  dir_dom : ∀ {d t}, r.dir d = some t → d ∈ taskDirs
  pte_dom : ∀ {d j f}, r.pte d j = some f → j < 1024 ∧ r.dir d ≠ none
  dir_range : ∀ {d t}, r.dir d = some t → lo ≤ t ∧ t < hi
  dir_inj : ∀ {d d' t}, r.dir d = some t → r.dir d' = some t → d = d'
  dir_unmapped : ∀ {d d' j t}, r.dir d = some t → r.pte d' j ≠ some t
  dir_unheld : ∀ {d t}, r.dir d = some t → t ∉ r.held
  held_range : ∀ {f}, f ∈ r.held → lo ≤ f ∧ f < hi
  held_unmapped : ∀ {d j f}, f ∈ r.held → r.pte d j ≠ some f
  pte_range : ∀ {d j f}, r.pte d j = some f → f < 256 ∨ lo ≤ f ∧ f < hi
  pte_place : ∀ {d j d' j' f}, r.pte d j = some f → r.pte d' j' = some f → 256 ≤ f →
    d % 16 = d' % 16 ∧ j = j'

variable {lo hi : ℕ} {r : Refs}

/-- A mapped place is one of the places counted. -/
theorem WF.mem_places (h : r.WF lo hi) {d j f : ℕ} (hp : r.pte d j = some f) :
    (d, j) ∈ taskPlaces := by
  obtain ⟨hj, hd⟩ := h.pte_dom hp
  obtain ⟨t, ht⟩ := Option.ne_none_iff_exists'.mp hd
  exact mem_taskPlaces.mpr ⟨h.dir_dom ht, hj⟩

/-- A frame with count zero has no reference at all. -/
theorem WF.unreferenced (h : r.WF lo hi) {f : ℕ} (hf : r.count f = 0) :
    (∀ d j, r.pte d j ≠ some f) ∧ (∀ d, r.dir d ≠ some f) ∧ f ∉ r.held := by
  have hsum : (taskPlaces.filter fun p => r.pte p.1 p.2 = some f).card = 0 ∧
      (taskDirs.filter fun d => r.dir d = some f).card = 0 ∧ indicator (f ∈ r.held) = 0 := by
    unfold count at hf
    omega
  obtain ⟨hpte, hdir, hheld⟩ := hsum
  rw [Finset.card_eq_zero, Finset.filter_eq_empty_iff] at hpte hdir
  refine ⟨fun d j hp => hpte (h.mem_places hp) hp, fun d hd => hdir (h.dir_dom hd) hd, ?_⟩
  intro hmem
  rw [indicator_true hmem] at hheld
  omega

theorem count_eq_zero {f : ℕ} (hpte : ∀ d j, r.pte d j ≠ some f) (hdir : ∀ d, r.dir d ≠ some f)
    (hheld : f ∉ r.held) : r.count f = 0 := by
  simp [count, hpte, hdir, hheld]

/-- The counters never reach 256: a frame is mapped at most once in each of the
63 task slots, because it sits at one task-relative address. -/
theorem WF.count_le (h : r.WF lo hi) {f : ℕ} (hlo : 256 ≤ lo) (hf : lo ≤ f) :
    r.count f ≤ 65 := by
  have hpte : (taskPlaces.filter fun p => r.pte p.1 p.2 = some f).card ≤ 63 := by
    have hinj : Set.InjOn (fun p : ℕ × ℕ => p.1 / 16)
        (taskPlaces.filter fun p => r.pte p.1 p.2 = some f) := by
      rintro ⟨d, j⟩ hp ⟨d', j'⟩ hp' heq
      simp only [Finset.coe_filter, Set.mem_ofPred_eq] at hp hp' heq
      obtain ⟨hmod, hj⟩ := h.pte_place hp.2 hp'.2 (by omega)
      have hd : d = d' := by omega
      rw [hd, hj]
    have hsub : (taskPlaces.filter fun p => r.pte p.1 p.2 = some f).image (fun p => p.1 / 16) ⊆
        Finset.Ico 1 64 := by
      intro n hn
      obtain ⟨⟨d, j⟩, hp, rfl⟩ := Finset.mem_image.mp hn
      have hd := mem_taskDirs.mp (mem_taskPlaces.mp (Finset.mem_filter.mp hp).1).1
      simp only [Finset.mem_Ico]
      omega
    have hcard := Finset.card_le_card hsub
    rw [Finset.card_image_of_injOn hinj, Nat.card_Ico] at hcard
    omega
  have hdir : (taskDirs.filter fun d => r.dir d = some f).card ≤ 1 := by
    rw [Finset.card_le_one]
    intro d hd d' hd'
    exact h.dir_inj (Finset.mem_filter.mp hd).2 (Finset.mem_filter.mp hd').2
  have hheld := indicator_le_one (f ∈ r.held)
  unfold count
  omega

/-! ### Rewriting an entry -/

theorem count_setPte {d j : ℕ} (hd : d ∈ taskDirs) (hj : j < 1024) (v : Option ℕ) (f : ℕ) :
    (r.setPte d j v).count f + indicator (r.pte d j = some f) =
      r.count f + indicator (v = some f) := by
  have hcard := card_filter_update
    (p := fun p => r.pte p.1 p.2 = some f) (q := fun p => (r.setPte d j v).pte p.1 p.2 = some f)
    (mem_taskPlaces.mpr ⟨hd, hj⟩) (by
      rintro ⟨d', j'⟩ _ hne
      have hpair : ¬(d' = d ∧ j' = j) := fun h => hne (Prod.ext h.1 h.2)
      simp only [setPte, if_neg hpair])
  have hself : (r.setPte d j v).pte d j = v := by simp [setPte]
  simp only [hself] at hcard
  have hrest : (r.setPte d j v).dir = r.dir ∧ (r.setPte d j v).held = r.held := ⟨rfl, rfl⟩
  simp only [count, hrest.1, hrest.2]
  omega

theorem count_setDir {d : ℕ} (hd : d ∈ taskDirs) (v : Option ℕ) (f : ℕ) :
    (r.setDir d v).count f + indicator (r.dir d = some f) =
      r.count f + indicator (v = some f) := by
  have hcard := card_filter_update
    (p := fun d => r.dir d = some f) (q := fun d' => (r.setDir d v).dir d' = some f) hd (by
      intro d' _ hne
      simp only [setDir, if_neg hne])
  have hself : (r.setDir d v).dir d = v := by simp [setDir]
  simp only [hself] at hcard
  have hrest : (r.setDir d v).pte = r.pte ∧ (r.setDir d v).held = r.held := ⟨rfl, rfl⟩
  simp only [count, hrest.1, hrest.2]
  omega

theorem count_hold {f : ℕ} (hf : f ∉ r.held) (g : ℕ) :
    (r.hold f).count g = r.count g + indicator (g = f) := by
  have hrest : (r.hold f).pte = r.pte ∧ (r.hold f).dir = r.dir := ⟨rfl, rfl⟩
  simp only [count, hrest.1, hrest.2]
  by_cases hg : g = f
  · subst hg
    simp [hold, hf]
  · by_cases hmem : g ∈ r.held <;> simp [hold, hg, hmem]

theorem count_release {f : ℕ} (hf : f ∈ r.held) (g : ℕ) :
    (r.release f).count g + indicator (g = f) = r.count g := by
  have hrest : (r.release f).pte = r.pte ∧ (r.release f).dir = r.dir := ⟨rfl, rfl⟩
  simp only [count, hrest.1, hrest.2]
  by_cases hg : g = f
  · subst hg
    simp [release, hf]
  · by_cases hmem : g ∈ r.held <;> simp [release, hg, hmem]

/-! ### Preservation of well-formedness -/

/-- The kernel may take an unreferenced frame. -/
theorem WF.hold (h : r.WF lo hi) {f : ℕ} (hrange : lo ≤ f ∧ f < hi)
    (hfree : (∀ d j, r.pte d j ≠ some f) ∧ ∀ d, r.dir d ≠ some f) : (r.hold f).WF lo hi where
  dir_dom := h.dir_dom
  pte_dom := h.pte_dom
  dir_range := h.dir_range
  dir_inj := h.dir_inj
  dir_unmapped := h.dir_unmapped
  dir_unheld := by
    intro d t hd hmem
    rcases Finset.mem_insert.mp hmem with rfl | hmem
    · exact hfree.2 d hd
    · exact h.dir_unheld hd hmem
  held_range := by
    intro g hg
    rcases Finset.mem_insert.mp hg with rfl | hg
    · exact hrange
    · exact h.held_range hg
  held_unmapped := by
    intro d j g hg hp
    rcases Finset.mem_insert.mp hg with rfl | hg
    · exact hfree.1 d j hp
    · exact h.held_unmapped hg hp
  pte_range := h.pte_range
  pte_place := h.pte_place

/-- The kernel may give up a frame. -/
theorem WF.release (h : r.WF lo hi) (f : ℕ) : (r.release f).WF lo hi where
  dir_dom := h.dir_dom
  pte_dom := h.pte_dom
  dir_range := h.dir_range
  dir_inj := h.dir_inj
  dir_unmapped := h.dir_unmapped
  dir_unheld := fun hd hmem => h.dir_unheld hd (Finset.mem_of_mem_erase hmem)
  held_range := fun hg => h.held_range (Finset.mem_of_mem_erase hg)
  held_unmapped := fun hg => h.held_unmapped (Finset.mem_of_mem_erase hg)
  pte_range := h.pte_range
  pte_place := h.pte_place

/-- A page-table entry may be cleared, or set to a frame that is no page table,
is not held, and is mapped elsewhere only at the same task-relative address. -/
theorem WF.setPte (h : r.WF lo hi) {d j : ℕ} {v : Option ℕ}
    (hdom : v ≠ none → j < 1024 ∧ r.dir d ≠ none)
    (hrange : ∀ f, v = some f → f < 256 ∨ lo ≤ f ∧ f < hi)
    (htable : ∀ f d', v = some f → r.dir d' ≠ some f)
    (hheld : ∀ f, v = some f → f ∉ r.held)
    (hplace : ∀ f d' j', v = some f → ¬(d' = d ∧ j' = j) → r.pte d' j' = some f → 256 ≤ f →
      d' % 16 = d % 16 ∧ j' = j) : (r.setPte d j v).WF lo hi where
  dir_dom := h.dir_dom
  pte_dom := by
    intro d' j' f hp
    simp only [Refs.setPte] at hp ⊢
    split at hp
    · next heq =>
      rw [heq.1, heq.2]
      exact hdom (by simp [hp])
    · exact h.pte_dom hp
  dir_range := h.dir_range
  dir_inj := h.dir_inj
  dir_unmapped := by
    intro e d' j' t hd hp
    simp only [Refs.setPte] at hd hp
    split at hp
    · exact htable t e hp hd
    · exact h.dir_unmapped hd hp
  dir_unheld := h.dir_unheld
  held_range := h.held_range
  held_unmapped := by
    intro d' j' f hf hp
    simp only [Refs.setPte] at hf hp
    split at hp
    · exact hheld f hp hf
    · exact h.held_unmapped hf hp
  pte_range := by
    intro d' j' f hp
    simp only [Refs.setPte] at hp
    split at hp
    · exact hrange f hp
    · exact h.pte_range hp
  pte_place := by
    intro e i e' i' f hp hp' hf
    simp only [Refs.setPte] at hp hp'
    split at hp <;> split at hp'
    · next h1 h2 => exact ⟨by rw [h1.1, h2.1], by rw [h1.2, h2.2]⟩
    · next h1 h2 =>
      obtain ⟨hmod, hj⟩ := hplace f e' i' hp h2 hp' hf
      exact ⟨by rw [h1.1, hmod], by rw [h1.2, hj]⟩
    · next h1 h2 =>
      obtain ⟨hmod, hj⟩ := hplace f e i hp' h1 hp hf
      exact ⟨by rw [h2.1, hmod], by rw [h2.2, hj]⟩
    · exact h.pte_place hp hp' hf

/-- An entry may always be cleared. -/
theorem WF.clearPte (h : r.WF lo hi) (d j : ℕ) : (r.setPte d j none).WF lo hi :=
  h.setPte (by simp) (by simp) (by simp) (by simp) (by simp)

/-- A frame held by the kernel may become the page table of a directory entry. -/
theorem WF.attach (h : r.WF lo hi) {d t : ℕ} (hd : d ∈ taskDirs) (ht : t ∈ r.held) :
    ((r.release t).setDir d (some t)).WF lo hi where
  dir_dom := by
    intro e u he
    simp only [Refs.setDir, Refs.release] at he
    split at he
    · next heq => rw [heq]; exact hd
    · exact h.dir_dom he
  pte_dom := by
    intro e j f hp
    obtain ⟨hj, he⟩ := h.pte_dom hp
    refine ⟨hj, ?_⟩
    simp only [Refs.setDir, Refs.release]
    split
    · simp
    · exact he
  dir_range := by
    intro e u he
    simp only [Refs.setDir, Refs.release] at he
    split at he
    · obtain rfl : t = u := by simpa using he
      exact h.held_range ht
    · exact h.dir_range he
  dir_inj := by
    intro e e' u he he'
    simp only [Refs.setDir, Refs.release] at he he'
    split at he <;> split at he'
    · next h1 h2 => rw [h1, h2]
    · obtain rfl : t = u := by simpa using he
      exact absurd ht (h.dir_unheld he')
    · obtain rfl : t = u := by simpa using he'
      exact absurd ht (h.dir_unheld he)
    · exact h.dir_inj he he'
  dir_unmapped := by
    intro e e' j u he hp
    simp only [Refs.setDir, Refs.release] at he hp
    split at he
    · obtain rfl : t = u := by simpa using he
      exact h.held_unmapped ht hp
    · exact h.dir_unmapped he hp
  dir_unheld := by
    intro e u he hmem
    simp only [Refs.setDir, Refs.release] at he hmem
    split at he
    · obtain rfl : t = u := by simpa using he
      exact Finset.notMem_erase t _ hmem
    · exact h.dir_unheld he (Finset.mem_of_mem_erase hmem)
  held_range := fun hg => h.held_range (Finset.mem_of_mem_erase hg)
  held_unmapped := fun hg => h.held_unmapped (Finset.mem_of_mem_erase hg)
  pte_range := h.pte_range
  pte_place := h.pte_place

/-- A directory entry whose page table maps nothing may be cleared. -/
theorem WF.detach (h : r.WF lo hi) {d : ℕ} (hempty : ∀ j, r.pte d j = none) :
    (r.setDir d none).WF lo hi where
  dir_dom := by
    intro e u he
    simp only [Refs.setDir] at he
    split at he
    · simp at he
    · exact h.dir_dom he
  pte_dom := by
    intro e j f hp
    obtain ⟨hj, he⟩ := h.pte_dom hp
    refine ⟨hj, ?_⟩
    simp only [Refs.setDir]
    split
    · next heq =>
      have hnone := hempty j
      rw [← heq] at hnone
      rw [show (r.setDir d none).pte e j = r.pte e j from rfl, hnone] at hp
      simp at hp
    · exact he
  dir_range := by
    intro e u he
    simp only [Refs.setDir] at he
    split at he
    · simp at he
    · exact h.dir_range he
  dir_inj := by
    intro e e' u he he'
    simp only [Refs.setDir] at he he'
    split at he
    · simp at he
    · split at he'
      · simp at he'
      · exact h.dir_inj he he'
  dir_unmapped := by
    intro e e' j u he hp
    simp only [Refs.setDir] at he hp
    split at he
    · simp at he
    · exact h.dir_unmapped he hp
  dir_unheld := by
    intro e u he
    simp only [Refs.setDir] at he
    split at he
    · simp at he
    · exact h.dir_unheld he
  held_range := h.held_range
  held_unmapped := h.held_unmapped
  pte_range := h.pte_range
  pte_place := h.pte_place

end Refs

end LihaLinux.Mm
