import LihaLinux.Mm.Functions

/-!
# `copy_page_tables`

The copy loop write-protects the entries of both slots, except that pages
below 1 MB stay as they are in the source. What fork needs to know about an
entry that is kept is its frame and its dirty bit, called its `key` here.
-/

namespace LihaLinux.Mm

variable {lo hi : ℕ} {s : State} {held : Finset ℕ} {d d' j t t' f : ℕ} {w : Word}

/-- The part of an entry that `fork` does not change. -/
def key (w : Word) : ℕ × Bool := (frame w, dirty w)

@[simp] theorem key_writeProtect (w : Word) : key (writeProtect w) = key w := by
  simp [key]

/-- The present entry at an index of a page read as a page table. -/
def State.wordAt (s : State) (table i : ℕ) : Option Word :=
  if present (s.mem table i) = true then some (s.mem table i) else none

/-- The source of a copy: the kernel's first page table, up to 640 kB, or the
page table of the same task-relative address in another slot. -/
inductive CopySource (s : State) (d' fromTable bound : ℕ) : Prop
  | kernel (htable : fromTable = 1) (hbound : bound ≤ 160)
  | slot (d : ℕ) (ht : s.table d = some fromTable) (hne : d ≠ d') (hmod : d % 16 = d' % 16)
      (hbound : bound ≤ 1024)

theorem CopySource.bound_le {fromTable bound : ℕ} (h : CopySource s d' fromTable bound) :
    bound ≤ 1024 := by
  cases h with
  | kernel _ hbound => omega
  | slot _ _ _ _ hbound => exact hbound

private theorem setWord_comm (s : State) {p q : ℕ} (hne : p ≠ q) (i k : ℕ) (v u : Word) :
    (s.setWord p i v).setWord q k u = (s.setWord q k u).setWord p i v := by
  simp only [State.setWord, State.mk.injEq, true_and]
  funext a b
  by_cases hq : a = q
  · subst hq
    simp [Ne.symm hne]
  · simp [hq]

/-- One iteration of the copy loop. -/
theorem copyEntry_spec {fromTable bound index : ℕ} (h : Inv lo hi ⟨s, held⟩)
    (ht' : s.table d' = some t') (hsource : CopySource s d' fromTable bound)
    (hindex : index < bound) (hempty : s.entry d' index = none) :
    Moves ⟨s, held⟩ ⟨copyEntry s fromTable t' index, held⟩ ∧
      (copyEntry s fromTable t' index).table = s.table ∧
      (copyEntry s fromTable t' index).mem 0 = s.mem 0 ∧
      s.SameData (copyEntry s fromTable t' index) ∧
      (∀ i, i ≠ index → (copyEntry s fromTable t' index).wordAt fromTable i =
        s.wordAt fromTable i) ∧
      (∀ e i, e ≠ d' → ((copyEntry s fromTable t' index).entry e i).map key =
        (s.entry e i).map key) ∧
      ∀ i, (copyEntry s fromTable t' index).entry d' i =
        if i = index then (s.wordAt fromTable index).map writeProtect else s.entry d' i := by
  have hj : index < 1024 := by have := hsource.bound_le; omega
  have hne0 := h.table_ne_zero ht'
  have hne' : t' ≠ fromTable := by
    cases hsource with
    | kernel htable _ => rw [htable]; exact h.table_ne_one ht'
    | slot d ht hne _ _ =>
      rintro rfl
      exact hne (h.table_inj ht' d ht)
  by_cases hp : present (s.mem fromTable index) = true
  · obtain ⟨htable, hentry⟩ := setEntry_effect h ht' hj (writeProtect (s.mem fromTable index))
    have hword : s.wordAt fromTable index = some (s.mem fromTable index) := if_pos hp
    have hpw : present (writeProtect (s.mem fromTable index)) = true := by simp [hp]
    by_cases hhigh : lowMem ≤ frame (s.mem fromTable index)
    · -- a counted page: protect the source entry, then share it
      cases hsource with
      | kernel htab hbound =>
        have hlow : frame (s.mem 1 index) < lowMem := h.kernel.pages index (by omega)
        rw [htab] at hhigh
        omega
      | slot d ht hne hmod _ =>
        have hw : s.entry d index = some (s.mem fromTable index) := by
          rw [State.entry_of_table ht, if_pos ⟨hj, hp⟩]
        have hcopy : copyEntry s fromTable t' index =
            ((s.setWord fromTable index (writeProtect (s.mem fromTable index))).setWord t' index
              (writeProtect (s.mem fromTable index))).incMap (frame (s.mem fromTable index)) := by
          have hgt : 0x100000 < (writeProtect (s.mem fromTable index)).toNat := by
            rw [gt_lowMem_iff hpw, frame_writeProtect]
            exact hhigh
          simp only [copyEntry, if_pos hp, if_pos hgt, frame_writeProtect]
          rw [setWord_comm s hne']
        have hmove1 : Move ⟨s, held⟩
            ⟨s.setWord fromTable index (writeProtect (s.mem fromTable index)), held⟩ :=
          .protect ht hw
        have h1 := hmove1.inv h
        obtain ⟨htable1, hentry1⟩ := setEntry_effect h ht hj
          (writeProtect (s.mem fromTable index))
        have hw1 :
            (s.setWord fromTable index (writeProtect (s.mem fromTable index))).entry d index =
              some (writeProtect (s.mem fromTable index)) := by
          rw [hentry1, if_pos ⟨rfl, rfl⟩, if_pos hpw]
        have hempty1 : (s.setWord fromTable index
            (writeProtect (s.mem fromTable index))).entry d' index = none := by
          rw [hentry1, if_neg (fun heq => hne heq.1.symm), hempty]
        have hmove2 : Move ⟨_, held⟩ _ := Move.share hw1 (by simp) (by simpa using hhigh)
          (by rw [htable1]; exact ht') hempty1 hmod
        rw [frame_writeProtect] at hmove2
        obtain ⟨htable2, hentry2⟩ := setEntry_effect h1 (by rw [htable1]; exact ht') hj
          (writeProtect (s.mem fromTable index))
        rw [hcopy]
        refine ⟨(Relation.ReflTransGen.single hmove1).tail hmove2, ?_, ?_, ?_, ?_, ?_, ?_⟩
        · rw [State.incMap, State.table_setMap, htable2, htable1]
        · rw [State.incMap, State.mem_setMap, State.mem_setWord_of_ne _ (Ne.symm hne0),
            State.mem_setWord_of_ne _ (Ne.symm (h.table_ne_zero ht))]
        · intro g _ hg
          rw [State.incMap, State.mem_setMap, State.mem_setWord_of_ne, State.mem_setWord_of_ne]
          · rintro rfl
            exact hg d ht
          · rintro rfl
            exact hg d' ht'
        · intro i hi
          have hmem : ((s.setWord fromTable index (writeProtect (s.mem fromTable index))).setWord
              t' index (writeProtect (s.mem fromTable index))).mem fromTable i =
              s.mem fromTable i := by
            rw [State.mem_setWord_of_ne _ (Ne.symm hne'), State.mem_setWord,
              if_neg (fun heq => hi heq.2)]
          simp only [State.wordAt, State.incMap, State.mem_setMap, hmem]
        · intro e i he
          rw [State.incMap, State.entry_setMap, hentry2, if_neg (fun heq => he heq.1), hentry1]
          split
          · next heq =>
            rw [heq.1, heq.2, hw]
            simp
          · rfl
        · intro i
          rw [State.incMap, State.entry_setMap, hentry2]
          by_cases hi : i = index
          · rw [if_pos ⟨rfl, hi⟩, if_pos hi, if_pos hpw, hword]
            rfl
          · rw [if_neg (fun heq => hi heq.2), if_neg hi, hentry1, if_neg (fun heq => hi heq.2)]
    · -- a page below 1 MB: only the target entry is written
      have hcopy : copyEntry s fromTable t' index =
          s.setWord t' index (writeProtect (s.mem fromTable index)) := by
        have hgt : ¬0x100000 < (writeProtect (s.mem fromTable index)).toNat := by
          rw [gt_lowMem_iff hpw, frame_writeProtect]
          exact hhigh
        simp only [copyEntry, if_pos hp, if_neg hgt]
      have hmove : Move ⟨s, held⟩
          ⟨s.setWord t' index (writeProtect (s.mem fromTable index)), held⟩ :=
        .shareLow hpw (by simp) (by simpa using hhigh) ht' hj hempty
      rw [hcopy]
      refine ⟨.single hmove, htable, State.mem_setWord_of_ne _ (Ne.symm hne0) _ _,
        State.sameData_setEntry ht' _, ?_, ?_, ?_⟩
      · intro i _
        simp only [State.wordAt, State.mem_setWord_of_ne s (Ne.symm hne')]
      · intro e i he
        rw [hentry, if_neg (fun heq => he heq.1)]
      · intro i
        rw [hentry]
        by_cases hi : i = index
        · rw [if_pos ⟨rfl, hi⟩, if_pos hi, if_pos hpw, hword]
          rfl
        · rw [if_neg (fun heq => hi heq.2), if_neg hi]
  · have hcopy : copyEntry s fromTable t' index = s := by simp [copyEntry, hp]
    rw [hcopy]
    refine ⟨.refl, rfl, rfl, fun _ _ _ => rfl, fun _ _ => rfl, fun _ _ _ => rfl, fun i => ?_⟩
    by_cases hi : i = index
    · rw [if_pos hi, hi, hempty, State.wordAt, if_neg hp]
      rfl
    · rw [if_neg hi]

theorem CopySource.congr {s s' : State} {fromTable bound : ℕ}
    (h : CopySource s d' fromTable bound) (htable : s'.table = s.table) :
    CopySource s' d' fromTable bound := by
  cases h with
  | kernel htab hbound => exact .kernel htab hbound
  | slot d ht hne hmod hbound => exact .slot d (by rw [htable]; exact ht) hne hmod hbound

/-- The inner copy loop. -/
theorem copyEntries_spec {fromTable bound nr : ℕ} :
    ∀ {index : ℕ} {s : State}, Inv lo hi ⟨s, held⟩ → s.table d' = some t' →
      CopySource s d' fromTable bound → index + nr ≤ bound →
      (∀ i, index ≤ i → s.entry d' i = none) →
      Moves ⟨s, held⟩ ⟨copyEntries fromTable t' index nr s, held⟩ ∧
        (copyEntries fromTable t' index nr s).table = s.table ∧
        (copyEntries fromTable t' index nr s).mem 0 = s.mem 0 ∧
        s.SameData (copyEntries fromTable t' index nr s) ∧
        (∀ e i, e ≠ d' → ((copyEntries fromTable t' index nr s).entry e i).map key =
          (s.entry e i).map key) ∧
        ∀ i, (copyEntries fromTable t' index nr s).entry d' i =
          if index ≤ i ∧ i < index + nr then (s.wordAt fromTable i).map writeProtect
          else s.entry d' i := by
  induction nr with
  | zero =>
    intro index s _ _ _ _ _
    refine ⟨.refl, rfl, rfl, fun _ _ _ => rfl, fun _ _ _ => rfl, fun i => ?_⟩
    rw [if_neg (by omega)]
    rfl
  | succ nr ih =>
    intro index s h ht' hsource hle hempty
    obtain ⟨hmoves1, htable1, hdir1, hdata1, hword1, hkey1, hentry1⟩ :=
      copyEntry_spec h ht' hsource (by omega : index < bound) (hempty index le_rfl)
    have hempty1 : ∀ i, index + 1 ≤ i →
        (copyEntry s fromTable t' index).entry d' i = none := by
      intro i hi
      rw [hentry1, if_neg (by omega), hempty i (by omega)]
    obtain ⟨hmoves, htable, hdir, hdata, hkey, hentry⟩ := ih (Moves.inv hmoves1 h)
      (by rw [htable1]; exact ht') (hsource.congr htable1) (by omega : index + 1 + nr ≤ bound)
      hempty1
    rw [copyEntries]
    refine ⟨hmoves1.trans hmoves, htable.trans htable1, hdir.trans hdir1,
      hdata1.trans hdata fun e g he => ⟨e, by rwa [htable1] at he⟩, ?_, ?_⟩
    · intro e i he
      rw [hkey e i he, hkey1 e i he]
    · intro i
      rw [hentry, hentry1]
      by_cases hi : i = index
      · rw [if_neg (by omega), if_pos hi, if_pos (by omega), hi]
      · by_cases hr : index + 1 ≤ i ∧ i < index + 1 + nr
        · rw [if_pos hr, if_pos (by omega), hword1 i hi]
        · rw [if_neg hr, if_neg hi, if_neg (by omega)]

/-- The directory entries copied from: the kernel's first, or a range of another
slot at the same task-relative addresses. -/
inductive DirSource (fromDir toDir size : ℕ) : ℕ → Prop
  | kernel (hdir : fromDir = 0) (hsize : size ≤ 1) : DirSource fromDir toDir size 160
  | slot (hfrom : 16 ≤ fromDir) (hle : fromDir + size ≤ 1024) (hmod : fromDir % 16 = toDir % 16)
      (hdisj : fromDir + size ≤ toDir ∨ toDir + size ≤ fromDir) :
      DirSource fromDir toDir size 1024

/-- The present entry of the source of a copy, read through the directory. -/
def State.sourceEntry (s : State) (fromDir i : ℕ) : Option Word :=
  if present (s.mem 0 fromDir) = true then s.wordAt (frame (s.mem 0 fromDir)) i else none

theorem State.sourceEntry_slot {fromDir i : ℕ} (hd : fromDir ∈ taskDirs) (hi : i < 1024) :
    s.sourceEntry fromDir i = s.entry fromDir i := by
  unfold State.sourceEntry
  split
  · next hp => simp [State.entry_of_table (State.table_eq_some hd hp), State.wordAt, hi]
  · next hp => rw [State.entry_of_table_none (State.table_eq_none (by simpa using hp))]

/-- One iteration of the outer copy loop: a page table is taken, attached and
filled. -/
theorem copyTable_step {nr fromDir toDir size : ℕ} {s₁ : State} (h : Inv lo hi ⟨s, held⟩)
    (hsource : DirSource fromDir toDir (size + 1) nr) (hto : toDir ∈ taskDirs)
    (hp : present (s.mem 0 fromDir) = true) (hempty : s.table toDir = none)
    (hget : getFreePage s = some (f, s₁)) :
    Moves ⟨s, held⟩ ⟨copyEntries (frame (s.mem 0 fromDir)) f 0 nr
        (s₁.setWord 0 toDir (pageAddr f ||| 7#32)), held⟩ ∧
      (∀ e, e ≠ toDir → (copyEntries (frame (s.mem 0 fromDir)) f 0 nr
        (s₁.setWord 0 toDir (pageAddr f ||| 7#32))).mem 0 e = s.mem 0 e) ∧
      (∀ e i, e ≠ toDir → ((copyEntries (frame (s.mem 0 fromDir)) f 0 nr
        (s₁.setWord 0 toDir (pageAddr f ||| 7#32))).entry e i).map key = (s.entry e i).map key) ∧
      (∀ i < nr, (copyEntries (frame (s.mem 0 fromDir)) f 0 nr
        (s₁.setWord 0 toDir (pageAddr f ||| 7#32))).entry toDir i =
          (s.sourceEntry fromDir i).map writeProtect) ∧
      (∀ i, nr ≤ i → (copyEntries (frame (s.mem 0 fromDir)) f 0 nr
        (s₁.setWord 0 toDir (pageAddr f ||| 7#32))).entry toDir i = none) ∧
      ∀ g, g ≠ 0 → s.Mapped g → (copyEntries (frame (s.mem 0 fromDir)) f 0 nr
        (s₁.setWord 0 toDir (pageAddr f ||| 7#32))).mem g = s.mem g := by
  obtain ⟨htake, hrange, hheld, hfree, hfreeT, htable1, hentry1, hclear, hmem1⟩ :=
    getFreePage_spec h hget
  have hlow : lowMem ≤ f := h.low.trans hrange.1
  obtain ⟨hf0, hf1⟩ := ne_kernel_page hlow
  have h1 := htake.inv h
  have hattach : Move ⟨s₁, insert f held⟩
      ⟨s₁.setWord 0 toDir (pageAddr f ||| 7#32), (insert f held).erase f⟩ :=
    .attach (Finset.mem_insert_self f held) hto (by rw [htable1]; exact hempty) hclear
  rw [Finset.erase_insert hheld] at hattach
  have h2 := hattach.inv h1
  obtain ⟨htable2, hentry2⟩ := attach_effect h1 (Finset.mem_insert_self f held) hto
    (by rw [htable1]; exact hempty) hclear
  have hfromMem : (s₁.setWord 0 toDir (pageAddr f ||| 7#32)).mem (frame (s.mem 0 fromDir)) =
      s.mem (frame (s.mem 0 fromDir)) := by
    have hne : frame (s.mem 0 fromDir) ≠ 0 ∧ frame (s.mem 0 fromDir) ≠ f := by
      cases hsource with
      | kernel hdir _ =>
        rw [hdir, show frame (s.mem 0 0) = 1 from h.kernel.dir.2]
        exact ⟨by omega, Ne.symm hf1⟩
      | slot hfrom hle _ _ =>
        have ht := State.table_eq_some (mem_taskDirs.mpr ⟨hfrom, by omega⟩) hp
        refine ⟨h.table_ne_zero ht, fun heq => hfreeT fromDir ?_⟩
        rw [ht, heq]
    rw [State.mem_setWord_of_ne _ hne.1, hmem1 _ hne.2]
  have hcsource : CopySource (s₁.setWord 0 toDir (pageAddr f ||| 7#32)) toDir
      (frame (s.mem 0 fromDir)) nr := by
    cases hsource with
    | kernel hdir _ => exact .kernel (by rw [hdir]; exact h.kernel.dir.2) le_rfl
    | slot hfrom hle hmod hdisj =>
      have hne : fromDir ≠ toDir := by omega
      refine .slot fromDir ?_ hne hmod le_rfl
      rw [htable2, if_neg hne, htable1]
      exact State.table_eq_some (mem_taskDirs.mpr ⟨hfrom, by omega⟩) hp
  have hempty2 : ∀ i, 0 ≤ i → (s₁.setWord 0 toDir (pageAddr f ||| 7#32)).entry toDir i = none := by
    intro i _
    rw [hentry2, hentry1, State.entry_of_table_none hempty]
  obtain ⟨hmoves3, htable3, hdir3, hdata3, hkey3, hentry3⟩ := copyEntries_spec h2
    (by rw [htable2, if_pos rfl]) hcsource (by omega : 0 + nr ≤ nr) hempty2
  refine ⟨((Relation.ReflTransGen.single htake).tail hattach).trans hmoves3, ?_, ?_, ?_, ?_, ?_⟩
  · intro e he
    rw [hdir3, State.mem_setWord, if_neg (fun heq => he heq.2), hmem1 0 (Ne.symm hf0)]
  · intro e i he
    rw [hkey3 e i he, hentry2, hentry1]
  · intro i hi
    rw [hentry3, if_pos (by omega), State.sourceEntry, if_pos hp]
    simp only [State.wordAt, hfromMem]
  · intro i hi
    rw [hentry3, if_neg (by omega), hempty2 i (by omega)]
  · intro g hg hmapped
    have hgf : g ≠ f := by
      rintro rfl
      exact hfree hmapped
    rw [hdata3 g hg ?_, State.mem_setWord_of_ne _ hg, hmem1 g hgf]
    intro e he
    rw [htable2] at he
    split at he
    · exact hgf (by simpa using he.symm)
    · rw [htable1] at he
      exact h.mapped_not_table hmapped e he

/-- What a copy of page tables leaves alone: outside the target range every
entry keeps its frame and dirty bit, and every mapped page is unchanged. -/
structure Copied (toDir size : ℕ) (s s' : State) : Prop where
  dirs : ∀ e, ¬(toDir ≤ e ∧ e < toDir + size) → s'.mem 0 e = s.mem 0 e
  keys : ∀ e i, ¬(toDir ≤ e ∧ e < toDir + size) →
    (s'.entry e i).map key = (s.entry e i).map key
  data : ∀ g, g ≠ 0 → s.Mapped g → s'.mem g = s.mem g

theorem Copied.refl (toDir size : ℕ) (s : State) : Copied toDir size s s :=
  ⟨fun _ _ => rfl, fun _ _ _ => rfl, fun _ _ _ => rfl⟩

theorem Copied.mapped {toDir size : ℕ} {s s' : State} (h : Copied toDir size s s')
    (hempty : ∀ e, toDir ≤ e → e < toDir + size → s.table e = none) {g : ℕ} (hg : s.Mapped g) :
    s'.Mapped g := by
  obtain ⟨e, i, w, hw, hframe⟩ := hg
  have hout : ¬(toDir ≤ e ∧ e < toDir + size) := by
    rintro ⟨hle, hlt⟩
    rw [State.entry_of_table_none (hempty e hle hlt)] at hw
    simp at hw
  have hkey := h.keys e i hout
  rw [hw] at hkey
  obtain ⟨w', hw', hkey'⟩ := Option.map_eq_some_iff.mp hkey
  exact ⟨e, i, w', hw', by rw [← hframe]; exact (Prod.mk.inj hkey').1⟩

/-- Copying one directory entry and then the following ones. -/
theorem Copied.append {toDir size : ℕ} {s₁ s₂ s₃ : State} (h : Copied toDir 1 s₁ s₂)
    (hempty : ∀ e, toDir ≤ e → e < toDir + 1 → s₁.table e = none)
    (h' : Copied (toDir + 1) size s₂ s₃) : Copied toDir (size + 1) s₁ s₃ where
  dirs := fun e he => by rw [h'.dirs e (by omega), h.dirs e (by omega)]
  keys := fun e i he => by rw [h'.keys e i (by omega), h.keys e i (by omega)]
  data := fun g hg hmapped => by rw [h'.data g hg (h.mapped hempty hmapped), h.data g hg hmapped]

/-- The outer copy loop: it never panics when the target range is empty. -/
theorem copyTables_spec {nr size : ℕ} :
    ∀ {fromDir toDir : ℕ} {s : State}, Inv lo hi ⟨s, held⟩ → DirSource fromDir toDir size nr →
      16 ≤ toDir → toDir + size ≤ 1024 →
      (∀ e, toDir ≤ e → e < toDir + size → s.table e = none) →
      ∃ v s', copyTables nr fromDir toDir size s = .ok v s' ∧ (v = 0 ∨ v = -1) ∧
        Moves ⟨s, held⟩ ⟨s', held⟩ ∧ Copied toDir size s s' ∧
        (v = 0 → ∀ k < size,
          (∀ i < nr, (s'.entry (toDir + k) i).map key =
            (s.sourceEntry (fromDir + k) i).map key) ∧
          (∀ i w, s'.entry (toDir + k) i = some w → i < nr)) := by
  induction size with
  | zero =>
    intro fromDir toDir s h _ _ _ _
    exact ⟨0, s, rfl, .inl rfl, .refl, ⟨fun _ _ => rfl, fun _ _ _ => rfl, fun _ _ _ => rfl⟩,
      fun _ k hk => absurd hk (by omega)⟩
  | succ size ih =>
    intro fromDir toDir s h hsource hto hle hempty
    have hmem : toDir ∈ taskDirs := mem_taskDirs.mpr ⟨hto, by omega⟩
    have hnone := hempty toDir le_rfl (by omega)
    have hnp := State.not_present_of_table_none hmem hnone
    -- the rest of the loop, from the state after the first directory entry
    have hrest : ∀ s₂, Inv lo hi ⟨s₂, held⟩ → (∀ e, e ≠ toDir → s₂.mem 0 e = s.mem 0 e) →
        ∃ v s', copyTables nr (fromDir + 1) (toDir + 1) size s₂ = .ok v s' ∧ (v = 0 ∨ v = -1) ∧
          Moves ⟨s₂, held⟩ ⟨s', held⟩ ∧ Copied (toDir + 1) size s₂ s' ∧
          (v = 0 → ∀ k < size,
            (∀ i < nr, (s'.entry (toDir + 1 + k) i).map key =
              (s₂.sourceEntry (fromDir + 1 + k) i).map key) ∧
            ∀ i w, s'.entry (toDir + 1 + k) i = some w → i < nr) := by
      intro s₂ h₂ hdirs
      have hempty₂ : ∀ e, toDir + 1 ≤ e → e < toDir + 1 + size → s₂.table e = none := by
        intro e he he'
        have hold := hempty e (by omega) (by omega)
        unfold State.table at hold ⊢
        rw [hdirs e (by omega)]
        exact hold
      cases hsource with
      | kernel _ hsize =>
        obtain rfl : size = 0 := by omega
        exact ⟨0, s₂, rfl, .inl rfl, .refl, .refl _ _ _, fun _ k hk => absurd hk (by omega)⟩
      | slot hfrom hle' hmod hdisj =>
        exact ih h₂ (.slot (by omega) (by omega) (by omega) (by omega)) (by omega) (by omega)
          hempty₂
    -- the sources of the later directory entries are not touched by the first one
    have hlater : ∀ s₂ : State,
        (∀ e i, e ≠ toDir → (s₂.entry e i).map key = (s.entry e i).map key) →
        ∀ k < size, ∀ i < nr, (s₂.sourceEntry (fromDir + 1 + k) i).map key =
          (s.sourceEntry (fromDir + 1 + k) i).map key := by
      intro s₂ hkeys k hk i hi
      cases hsource with
      | kernel _ hsize => omega
      | slot hfrom hle' hmod hdisj =>
        have hdir : fromDir + 1 + k ∈ taskDirs := mem_taskDirs.mpr ⟨by omega, by omega⟩
        rw [State.sourceEntry_slot hdir hi, State.sourceEntry_slot hdir hi]
        exact hkeys _ i (by omega)
    by_cases hp : present (s.mem 0 fromDir) = true
    · cases hget : getFreePage s with
      | none =>
        refine ⟨-1, s, ?_, .inr rfl, .refl, .refl _ _ _, fun hv => absurd hv (by decide)⟩
        rw [copyTables, if_neg (by simp [hnp]), if_pos hp]
        simp only [hget]
      | some res =>
        obtain ⟨f, s₁⟩ := res
        obtain ⟨hmoves1, hdirs1, hkeys1, hcopy1, hcopy1', hdata1⟩ :=
          copyTable_step h hsource hmem hp hnone hget
        have hcopied1 : Copied toDir 1 s (copyEntries (frame (s.mem 0 fromDir)) f 0 nr
            (s₁.setWord 0 toDir (pageAddr f ||| 7#32))) :=
          ⟨fun e he => hdirs1 e (by omega), fun e i he => hkeys1 e i (by omega), hdata1⟩
        obtain ⟨v, s', hrun, hv, hmoves, hcopied, hzero⟩ :=
          hrest _ (Moves.inv hmoves1 h) hdirs1
        refine ⟨v, s', ?_, hv, hmoves1.trans hmoves, ?_, ?_⟩
        · rw [copyTables, if_neg (by simp [hnp]), if_pos hp]
          simp only [hget]
          exact hrun
        · exact hcopied1.append (fun e _ _ => hempty e (by omega) (by omega)) hcopied
        · intro hv0 k hk
          have hfirst := fun i => hcopied.keys toDir i (by omega)
          cases k with
          | zero =>
            refine ⟨fun i hi => ?_, fun i w hw => ?_⟩
            · rw [Nat.add_zero, Nat.add_zero, hfirst, hcopy1 i hi, Option.map_map]
              congr 1
              funext w
              simp
            · by_contra hi
              have := hfirst i
              rw [hcopy1' i (by omega), show s'.entry toDir i = some w from hw] at this
              simp at this
          | succ k =>
            obtain ⟨hkey, hbound⟩ := hzero hv0 k (by omega)
            rw [show toDir + (k + 1) = toDir + 1 + k by omega,
              show fromDir + (k + 1) = fromDir + 1 + k by omega]
            exact ⟨fun i hi => (hkey i hi).trans (hlater _ hkeys1 k (by omega) i hi), hbound⟩
    · obtain ⟨v, s', hrun, hv, hmoves, hcopied, hzero⟩ := hrest s h (fun _ _ => rfl)
      refine ⟨v, s', ?_, hv, hmoves, ?_, ?_⟩
      · rw [copyTables, if_neg (by simp [hnp]), if_neg hp, hrun]
      · exact (Copied.refl toDir 1 s).append (fun e _ _ => hempty e (by omega) (by omega)) hcopied
      · intro hv0 k hk
        cases k with
        | zero =>
          have hentry : ∀ i, s'.entry toDir i = none := by
            intro i
            have := hcopied.keys toDir i (by omega)
            rw [State.entry_of_table_none hnone] at this
            simpa using this
          refine ⟨fun i _ => ?_, fun i w hw => ?_⟩
          · rw [Nat.add_zero, Nat.add_zero, hentry, State.sourceEntry, if_neg hp]
          · rw [Nat.add_zero, hentry] at hw
            simp at hw
        | succ k =>
          obtain ⟨hkey, hbound⟩ := hzero hv0 k (by omega)
          rw [show toDir + (k + 1) = toDir + 1 + k by omega,
            show fromDir + (k + 1) = fromDir + 1 + k by omega]
          exact ⟨hkey, hbound⟩

end LihaLinux.Mm
