import LihaLinux.Mm.Memory
import LihaLinux.Mm.References

/-!
# Page tables in physical memory

The reference graph of a memory-manager state is read off physical memory:
the directory is page 0, and the entries of a present directory entry are the
words of the page it names. Since page tables share memory with everything
else, a store leaves the graph alone only when it does not hit the directory
or a page table; these are the frame conditions proved here.
-/

namespace LihaLinux.Mm

namespace State

/-- The page table of a directory entry of the task slots. -/
def table (s : State) (d : ℕ) : Option ℕ :=
  if d ∈ taskDirs ∧ present (s.mem 0 d) = true then some (frame (s.mem 0 d)) else none

/-- The present entry at an index of the page table of a directory entry. -/
def entry (s : State) (d j : ℕ) : Option Word :=
  (s.table d).bind fun t =>
    if j < 1024 ∧ present (s.mem t j) = true then some (s.mem t j) else none

/-- The reference graph of a state, with the frames the kernel holds. -/
def refs (s : State) (held : Finset ℕ) : Refs where
  dir := s.table
  pte d j := (s.entry d j).map frame
  held := held

@[simp] theorem mem_setMap (s : State) (n c : ℕ) : (s.setMap n c).mem = s.mem := rfl
@[simp] theorem memMap_setWord (s : State) (p i : ℕ) (w : Word) :
    (s.setWord p i w).memMap = s.memMap := rfl
@[simp] theorem memMap_setPage (s : State) (p : ℕ) (c : ℕ → Word) :
    (s.setPage p c).memMap = s.memMap := rfl
@[simp] theorem highMemory_setWord (s : State) (p i : ℕ) (w : Word) :
    (s.setWord p i w).highMemory = s.highMemory := rfl
@[simp] theorem highMemory_setPage (s : State) (p : ℕ) (c : ℕ → Word) :
    (s.setPage p c).highMemory = s.highMemory := rfl
@[simp] theorem highMemory_setMap (s : State) (n c : ℕ) :
    (s.setMap n c).highMemory = s.highMemory := rfl
@[simp] theorem table_setMap (s : State) (n c : ℕ) : (s.setMap n c).table = s.table := rfl
@[simp] theorem entry_setMap (s : State) (n c : ℕ) : (s.setMap n c).entry = s.entry := rfl
@[simp] theorem refs_setMap (s : State) (n c : ℕ) (held : Finset ℕ) :
    (s.setMap n c).refs held = s.refs held := rfl

theorem mem_setWord (s : State) (page index : ℕ) (w : Word) (p i : ℕ) :
    (s.setWord page index w).mem p i = if p = page ∧ i = index then w else s.mem p i := rfl

theorem mem_setWord_of_ne (s : State) {page p : ℕ} (hp : p ≠ page) (index : ℕ) (w : Word) :
    (s.setWord page index w).mem p = s.mem p := by
  funext i
  rw [mem_setWord, if_neg (fun h => hp h.1)]

theorem mem_setPage_of_ne (s : State) {page p : ℕ} (hp : p ≠ page) (c : ℕ → Word) :
    (s.setPage page c).mem p = s.mem p := by
  funext i
  simp [setPage, hp]

@[simp] theorem mem_setPage_self (s : State) (page : ℕ) (c : ℕ → Word) :
    (s.setPage page c).mem page = c := by
  funext i
  simp [setPage]

/-- A present directory entry, as a table. -/
theorem table_eq_some {s : State} {d : ℕ} (hd : d ∈ taskDirs) (hp : present (s.mem 0 d) = true) :
    s.table d = some (frame (s.mem 0 d)) := if_pos ⟨hd, hp⟩

theorem table_eq_none {s : State} {d : ℕ} (hp : present (s.mem 0 d) = false) :
    s.table d = none := if_neg (by simp [hp])

theorem table_iff {s : State} {d t : ℕ} :
    s.table d = some t ↔ d ∈ taskDirs ∧ present (s.mem 0 d) = true ∧ frame (s.mem 0 d) = t := by
  unfold table
  split
  · next h => simp [h]
  · next h =>
    simp only [reduceCtorEq, false_iff]
    exact fun hd => h ⟨hd.1, hd.2.1⟩

/-- A directory entry of a task slot without a table is not present. -/
theorem not_present_of_table_none {s : State} {d : ℕ} (hd : d ∈ taskDirs)
    (h : s.table d = none) : present (s.mem 0 d) = false := by
  by_contra hp
  rw [table_eq_some hd (by simpa using hp)] at h
  simp at h

theorem entry_of_table {s : State} {d t : ℕ} (ht : s.table d = some t) (j : ℕ) :
    s.entry d j = if j < 1024 ∧ present (s.mem t j) = true then some (s.mem t j) else none := by
  simp [entry, ht]

theorem entry_of_table_none {s : State} {d : ℕ} (ht : s.table d = none) (j : ℕ) :
    s.entry d j = none := by
  simp [entry, ht]

/-- An entry is a present word of a table. -/
theorem entry_iff {s : State} {d j : ℕ} {w : Word} :
    s.entry d j = some w ↔
      ∃ t, s.table d = some t ∧ j < 1024 ∧ present (s.mem t j) = true ∧ s.mem t j = w := by
  constructor
  · intro h
    obtain ⟨t, ht, hw⟩ := Option.bind_eq_some_iff.mp h
    split at hw
    · next hpres => exact ⟨t, ht, hpres.1, hpres.2, by simpa using hw⟩
    · simp at hw
  · rintro ⟨t, ht, hj, hp, rfl⟩
    rw [entry_of_table ht, if_pos ⟨hj, hp⟩]

/-- Every entry found is present. -/
theorem present_of_entry {s : State} {d j : ℕ} {w : Word} (h : s.entry d j = some w) :
    present w = true := by
  obtain ⟨t, _, _, hp, rfl⟩ := entry_iff.mp h
  exact hp

/-- The graph only reads page 0 and the pages used as tables. -/
theorem table_entry_congr {s s' : State} (hdir : s'.mem 0 = s.mem 0)
    (htable : ∀ d t, s.table d = some t → s'.mem t = s.mem t) :
    s'.table = s.table ∧ s'.entry = s.entry := by
  have ht : s'.table = s.table := by
    funext d
    simp [table, hdir]
  refine ⟨ht, ?_⟩
  funext d j
  cases h : s.table d with
  | none => rw [entry_of_table_none h, entry_of_table_none (by rw [ht, h])]
  | some t => rw [entry_of_table h, entry_of_table (by rw [ht, h]), htable d t h]

/-- Filling a page that is neither the directory nor a table keeps the graph. -/
theorem table_entry_setPage {s : State} {page : ℕ} (h0 : page ≠ 0)
    (hpage : ∀ d, s.table d ≠ some page) (c : ℕ → Word) :
    (s.setPage page c).table = s.table ∧ (s.setPage page c).entry = s.entry := by
  apply table_entry_congr
  · exact mem_setPage_of_ne s (Ne.symm h0) c
  · intro d t ht
    apply mem_setPage_of_ne
    rintro rfl
    exact hpage d ht

/-- Storing into a page that is neither the directory nor a table keeps the graph. -/
theorem table_entry_setWord_data {s : State} {page : ℕ} (h0 : page ≠ 0)
    (hpage : ∀ d, s.table d ≠ some page) (i : ℕ) (w : Word) :
    (s.setWord page i w).table = s.table ∧ (s.setWord page i w).entry = s.entry := by
  apply table_entry_congr
  · exact mem_setWord_of_ne s (Ne.symm h0) i w
  · intro d t ht
    apply mem_setWord_of_ne
    rintro rfl
    exact hpage d ht

/-- Storing into a table rewrites one entry. -/
theorem table_entry_setWord {s : State} {d t : ℕ} (ht : s.table d = some t) (h0 : t ≠ 0)
    (hinj : ∀ d', s.table d' = some t → d' = d) {j : ℕ} (hj : j < 1024) (w : Word) :
    (s.setWord t j w).table = s.table ∧
      ∀ d' j', (s.setWord t j w).entry d' j' =
        if d' = d ∧ j' = j then (if present w = true then some w else none) else s.entry d' j' := by
  have htable : (s.setWord t j w).table = s.table := by
    funext e
    simp [table, mem_setWord_of_ne s (Ne.symm h0) j w]
  refine ⟨htable, fun e i => ?_⟩
  cases he : s.table e with
  | none =>
    have hne : ¬(e = d ∧ i = j) := by
      rintro ⟨rfl, _⟩
      simp [ht] at he
    rw [if_neg hne, entry_of_table_none he, entry_of_table_none (by rw [htable, he])]
  | some u =>
    rw [entry_of_table (by rw [htable, he] : (s.setWord t j w).table e = some u)]
    by_cases hu : u = t
    · subst hu
      obtain rfl := hinj e he
      by_cases hi : i = j
      · subst hi
        simp [mem_setWord, hj]
      · rw [entry_of_table he]
        simp [mem_setWord, hi]
    · have hne : ¬(e = d ∧ i = j) := by
        rintro ⟨rfl, _⟩
        rw [ht] at he
        exact hu (by simpa using he.symm)
      rw [if_neg hne, entry_of_table he, mem_setWord_of_ne s hu]

/-- Storing into the directory rewrites one directory entry; the entries of the
others stay. -/
theorem table_entry_setDir {s : State} {d : ℕ} (hd : d ∈ taskDirs)
    (h0 : ∀ d', s.table d' ≠ some 0) (w : Word) :
    (∀ d', (s.setWord 0 d w).table d' =
        if d' = d then (if present w = true then some (frame w) else none) else s.table d') ∧
      ∀ d' j, d' ≠ d → (s.setWord 0 d w).entry d' j = s.entry d' j := by
  have htable : ∀ d', (s.setWord 0 d w).table d' =
      if d' = d then (if present w = true then some (frame w) else none) else s.table d' := by
    intro e
    by_cases he : e = d
    · subst he
      simp [table, mem_setWord, hd]
    · simp [table, mem_setWord, he]
  refine ⟨htable, fun e j he => ?_⟩
  have hsame : (s.setWord 0 d w).table e = s.table e := by rw [htable, if_neg he]
  cases ht : s.table e with
  | none => rw [entry_of_table_none ht, entry_of_table_none (by rw [hsame, ht])]
  | some t =>
    have hne : t ≠ 0 := by
      rintro rfl
      exact h0 e ht
    rw [entry_of_table ht, entry_of_table (by rw [hsame, ht]), mem_setWord_of_ne s hne]

end State

/-- The scan of `get_free_page` finds a zero counter of the array. -/
theorem scanFree_some {memMap : ℕ → ℕ} {bound n : ℕ} (h : scanFree memMap bound = some n) :
    n < bound ∧ memMap n = 0 := by
  induction bound with
  | zero => simp [scanFree] at h
  | succ bound ih =>
    unfold scanFree at h
    split at h
    · next hz =>
      obtain rfl : bound = n := by simpa using h
      exact ⟨by omega, hz⟩
    · obtain ⟨hlt, hz⟩ := ih h
      exact ⟨by omega, hz⟩

/-- What `get_free_page` does when it succeeds. -/
theorem getFreePage_some {s t : State} {f : ℕ} (h : getFreePage s = some (f, t)) :
    lowMem ≤ f ∧ f < lowMem + pagingPages ∧ s.memMap (mapNr f) = 0 ∧
      t = (s.setMap (mapNr f) 1).setPage f fun _ => 0 := by
  unfold getFreePage at h
  split at h
  · simp at h
  · next n hn =>
    obtain ⟨hlt, hz⟩ := scanFree_some hn
    simp only [Option.some.injEq, Prod.mk.injEq] at h
    obtain ⟨rfl, rfl⟩ := h
    have hnr : mapNr (n + lowMem) = n := by simp [mapNr]
    rw [hnr]
    exact ⟨by omega, by omega, hz, rfl⟩

end LihaLinux.Mm
