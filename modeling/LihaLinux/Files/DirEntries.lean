import LihaLinux.Files.ByteCalls
import LihaLinux.Files.Namei

/-!
# The entries of a directory

The entries of a directory are those in its blocks up to its size. `find_entry` returns the first
one that has a name, with its block in a buffer, and `add_entry` returns the first free one, or one
behind the last, in which it has stored a name.
-/

namespace LihaLinux.Files

open LihaLinux.Fs (maxBlock path)

variable {s s' t : Fs} {sb : SuperBlock} {bh : Option Bh} {i e k : ℕ} {d d' : ℕ → ℕ}

/-! ### Entries in a block -/

theorem entryInode_setEntryInode (d : ℕ → ℕ) (k v l : ℕ) :
    entryInode (setEntryInode d k v) l = if l = k then v % 65536 else entryInode d l := by
  rw [entryInode, setEntryInode, word_setWord]
  by_cases hl : l = k
  · rw [if_pos hl, if_pos (by rw [hl])]
  · rw [if_neg hl, if_neg (by omega)]
    rfl

theorem entryName_setEntryInode (d : ℕ → ℕ) (k v l : ℕ) {j : ℕ} (hj : j < nameLen) :
    entryName (setEntryInode d k v) l j = entryName d l j := by
  have hlen : nameLen = 14 := rfl
  rw [entryName, setEntryInode, setWord, Function.update_of_ne (by omega),
    Function.update_of_ne (by omega)]
  rfl

theorem entryInode_setEntryName (d : ℕ → ℕ) (k : ℕ) (name : ℕ → ℕ) (l : ℕ) :
    entryInode (setEntryName d k nameLen name) l = entryInode d l := by
  have hlen : nameLen = 14 := rfl
  have hbyte : ∀ b, b = 16 * l ∨ b = 16 * l + 1 → setEntryName d k nameLen name b = d b := by
    intro b hb
    exact if_neg (by omega)
  rw [entryInode, entryInode, word, word, hbyte _ (by omega), hbyte _ (by omega)]

theorem entryName_setEntryName (d : ℕ → ℕ) (k : ℕ) (name : ℕ → ℕ) (l : ℕ) {j : ℕ}
    (hj : j < nameLen) :
    entryName (setEntryName d k nameLen name) l j = if l = k then name j else entryName d l j := by
  have hlen : nameLen = 14 := rfl
  rw [entryName, setEntryName]
  by_cases hl : l = k
  · have hsub : 16 * k + 2 + j - (16 * k + 2) = j := by omega
    rw [if_pos hl, hl, if_pos (by omega), hsub]
  · rw [if_neg hl, if_neg (by omega)]
    rfl

theorem matchEntry_iff {n : ℕ} {name : List ℕ} : matchEntry n name d k = true ↔
    entryInode d k ≠ 0 ∧ n ≤ nameLen ∧ (n = nameLen ∨ entryName d k n = 0) ∧
      ∀ j < n, name.getD j 0 = entryName d k j := by
  simp only [matchEntry, Bool.and_eq_true, Bool.or_eq_true, decide_eq_true_eq, List.all_eq_true,
    List.mem_range, and_assoc]

/-- Entry `k` of a block has another inode and another name, and all other entries are the same. -/
structure EntrySet (d d' : ℕ → ℕ) (k num : ℕ) (name : ℕ → ℕ) : Prop where
  num : entryInode d' k = num
  name : ∀ j < nameLen, entryName d' k j = name j
  inode_other : ∀ l, l ≠ k → entryInode d' l = entryInode d l
  name_other : ∀ l, l ≠ k → ∀ j < nameLen, entryName d' l j = entryName d l j

/-- Only the inode of an entry is stored. -/
theorem setEntryInode_set (d : ℕ → ℕ) (k : ℕ) {v : ℕ} (hv : v < 65536) :
    EntrySet d (setEntryInode d k v) k v (entryName d k) := by
  refine ⟨?_, fun j hj => entryName_setEntryInode d k v k hj, fun l hl => ?_,
    fun l _ j hj => entryName_setEntryInode d k v l hj⟩
  · rw [entryInode_setEntryInode, if_pos rfl, Nat.mod_eq_of_lt hv]
  · rw [entryInode_setEntryInode, if_neg hl]

/-- A name is stored, and then an inode. -/
theorem EntrySet.enter {num : ℕ} {name : ℕ → ℕ} (h : EntrySet d d' k num name) (name' : ℕ → ℕ)
    {v : ℕ} (hv : v < 65536) :
    EntrySet d (setEntryInode (setEntryName d' k nameLen name') k v) k v name' := by
  refine ⟨?_, fun j hj => ?_, fun l hl => ?_, fun l hl j hj => ?_⟩
  · rw [entryInode_setEntryInode, if_pos rfl, Nat.mod_eq_of_lt hv]
  · rw [entryName_setEntryInode _ _ _ _ hj, entryName_setEntryName _ _ _ _ hj, if_pos rfl]
  · rw [entryInode_setEntryInode, if_neg hl, entryInode_setEntryName, h.inode_other l hl]
  · rw [entryName_setEntryInode _ _ _ _ hj, entryName_setEntryName _ _ _ _ hj, if_neg hl,
      h.name_other l hl j hj]

/-! ### Names -/

/-- A name in a directory: not empty, without NUL, and of at most `NAME_LEN` characters. -/
def EntryName : Type := {l : List ℕ // l ≠ [] ∧ 0 ∉ l ∧ l.length ≤ nameLen}

instance : DecidableEq EntryName :=
  inferInstanceAs (DecidableEq {l : List ℕ // l ≠ [] ∧ 0 ∉ l ∧ l.length ≤ nameLen})

/-- A name that a directory is asked for. -/
def FileName : Type := {l : List ℕ // l ≠ [] ∧ 0 ∉ l}

/-- A name that is too long is cut. -/
def FileName.entryName (x : FileName) : EntryName := by
  refine ⟨x.1.take nameLen, ?_, fun hmem => x.2.2 (List.mem_of_mem_take hmem), ?_⟩
  · rw [Ne, List.take_eq_nil_iff]
    exact fun h => h.elim (by decide) x.2.1
  · rw [List.length_take]
    exact Nat.min_le_left ..

/-- Whether a block has the name in entry `k`. -/
def HasName (d : ℕ → ℕ) (k : ℕ) (x : EntryName) : Prop := matchEntry x.1.length x.1 d k = true

instance (d : ℕ → ℕ) (k : ℕ) (x : EntryName) : Decidable (HasName d k x) :=
  inferInstanceAs (Decidable (_ = true))

/-- `match` does not look behind the length. -/
theorem matchEntry_fileName (x : FileName) (d : ℕ → ℕ) (k : ℕ) :
    matchEntry (min x.1.length nameLen) x.1 d k = true ↔ HasName d k x.entryName := by
  have hlen : x.entryName.1.length = min x.1.length nameLen := by
    change (x.1.take nameLen).length = _
    rw [List.length_take, Nat.min_comm]
  rw [HasName, hlen, matchEntry_iff, matchEntry_iff]
  have hchar : ∀ j < min x.1.length nameLen, x.entryName.1.getD j 0 = x.1.getD j 0 := by
    intro j hj
    have hlt : j < x.entryName.1.length := by rwa [hlen]
    rw [List.getD_eq_getElem _ _ hlt, List.getD_eq_getElem _ _ (by omega)]
    exact List.getElem_take
  constructor
  · rintro ⟨hinode, hle, hend, hall⟩
    exact ⟨hinode, hle, hend, fun j hj => by rw [hchar j hj, hall j hj]⟩
  · rintro ⟨hinode, hle, hend, hall⟩
    exact ⟨hinode, hle, hend, fun j hj => by rw [← hchar j hj, hall j hj]⟩

/-- The characters of a name are not NUL. -/
theorem EntryName.getD_ne_zero (x : EntryName) {j : ℕ} (hj : j < x.1.length) :
    x.1.getD j 0 ≠ 0 := by
  rw [List.getD_eq_getElem _ _ hj]
  intro hzero
  have hmem := List.getElem_mem hj
  rw [hzero] at hmem
  exact x.2.2.1 hmem

/-- A name that ends is not longer than another name in the same entry. -/
theorem HasName.length_le {x y : EntryName} (hx : HasName d k x) (hy : HasName d k y) :
    y.1.length ≤ x.1.length := by
  obtain ⟨-, -, hend, -⟩ := matchEntry_iff.mp hx
  obtain ⟨-, hle, -, hall⟩ := matchEntry_iff.mp hy
  by_contra hlt
  rcases hend with hend | hend
  · omega
  · exact y.getD_ne_zero (by omega) ((hall x.1.length (by omega)).trans hend)

/-- An entry has one name. -/
theorem HasName.unique {x y : EntryName} (hx : HasName d k x) (hy : HasName d k y) : x = y := by
  have hlen : x.1.length = y.1.length := Nat.le_antisymm (hy.length_le hx) (hx.length_le hy)
  obtain ⟨-, -, -, hall⟩ := matchEntry_iff.mp hx
  obtain ⟨-, -, -, hall'⟩ := matchEntry_iff.mp hy
  apply Subtype.ext
  apply List.ext_getElem hlen
  intro j hj hj'
  have hchar := (hall j hj).trans (hall' j hj').symm
  rwa [List.getD_eq_getElem _ _ hj, List.getD_eq_getElem _ _ hj'] at hchar

/-- An entry that is not in use has no name. -/
theorem not_hasName (hzero : entryInode d k = 0) (x : EntryName) : ¬HasName d k x :=
  fun hx => (matchEntry_iff.mp hx).1 hzero

/-- The bytes of a name in an entry, as `add_entry` stores them. -/
def padded (n : ℕ) (name : List ℕ) (j : ℕ) : ℕ := if j < n then name.getD j 0 else 0

/-- The entry in which a name has been stored has this name. -/
theorem EntrySet.hasName {num : ℕ} {x : FileName}
    (h : EntrySet d d' k num (padded (min x.1.length nameLen) x.1)) (hnum : num ≠ 0)
    (y : EntryName) : HasName d' k y ↔ y = x.entryName := by
  have hself : HasName d' k x.entryName := by
    rw [← matchEntry_fileName, matchEntry_iff]
    refine ⟨by rw [h.num]; exact hnum, Nat.min_le_right .., ?_, fun j hj => ?_⟩
    · by_cases hshort : x.1.length < nameLen
      · right
        rw [h.name _ (by omega), padded, if_neg (Nat.lt_irrefl _)]
      · left
        omega
    · rw [h.name _ (by omega), padded, if_pos hj]
  constructor
  · exact fun hy => hy.unique hself
  · rintro rfl
    exact hself

/-- The names in the other entries are the same. -/
theorem EntrySet.hasName_other {num l : ℕ} {name : ℕ → ℕ} (h : EntrySet d d' k num name)
    (hl : l ≠ k) (y : EntryName) : HasName d' l y ↔ HasName d l y := by
  rw [HasName, HasName, matchEntry_iff, matchEntry_iff, h.inode_other l hl]
  have hname := h.name_other l hl
  constructor
  · rintro ⟨hinode, hle, hend, hall⟩
    refine ⟨hinode, hle, ?_, fun j hj => by rw [← hname j (by omega), hall j hj]⟩
    by_cases hlen : y.1.length = nameLen
    · exact Or.inl hlen
    · exact hend.imp_right fun hzero => by rwa [← hname _ (by omega)]
  · rintro ⟨hinode, hle, hend, hall⟩
    refine ⟨hinode, hle, ?_, fun j hj => by rw [hname j (by omega), hall j hj]⟩
    by_cases hlen : y.1.length = nameLen
    · exact Or.inl hlen
    · exact hend.imp_right fun hzero => by rwa [hname _ (by omega)]

/-! ### The entries of a directory -/

/-- The block with entry `e` of a directory. -/
def Fs.entryBlock (s : Fs) (i e : ℕ) : ℕ → ℕ := s.blockData i (path (e / dirEntriesPerBlock))

/-- The inode of entry `e` of a directory. -/
def Fs.entryNum (s : Fs) (i e : ℕ) : ℕ := entryInode (s.entryBlock i e) (e % dirEntriesPerBlock)

/-- Whether entry `e` of a directory has a name. -/
def Fs.Named (s : Fs) (i e : ℕ) (x : EntryName) : Prop :=
  HasName (s.entryBlock i e) (e % dirEntriesPerBlock) x

/-- The buffer for the block with entry `e` of a directory. -/
def Fs.entryBh (s : Fs) (i e : ℕ) : Bh :=
  ⟨(s.inode i).dev, s.zoneIn i (path (e / dirEntriesPerBlock))⟩

/-- There is a block with entry `e`. -/
def Fs.HasEntry (s : Fs) (i e : ℕ) : Prop := s.zoneIn i (path (e / dirEntriesPerBlock)) ≠ 0

/-- An entry in a block that is missing is not in use. -/
theorem entryNum_of_missing (h : ¬s.HasEntry i e) : s.entryNum i e = 0 := by
  rw [Fs.entryNum, Fs.entryBlock, Fs.blockData, if_pos (not_not.mp h)]
  rfl

theorem not_named_of_missing (h : ¬s.HasEntry i e) (x : EntryName) : ¬s.Named i e x :=
  not_hasName (entryNum_of_missing h) x

/-- The bytes in the buffer for an entry. -/
theorem held_entryBh (hbad : ∀ b, s.bad b = false) (h : s.HasEntry i e) :
    (s.held (s.entryBh i e)).data (s.entryBh i e) = s.entryBlock i e := by
  have hblock : s.entryBlock i e = s.bytes (s.entryBh i e) := if_neg h
  rw [held_data hbad, hblock]

/-- Where a loop over the entries stands: at entry `e`, which is in a buffer, or at the first entry
of a block that has not been read, perhaps with the buffer of the block before it. -/
inductive EntryAt (i : ℕ) (s : Fs) (e : ℕ) : Option Bh → ℕ → Fs → Prop
  | unread (k : ℕ) (he : e % dirEntriesPerBlock = 0) : EntryAt i s e none k s
  | behind (bh : Bh) (he : e % dirEntriesPerBlock = 0) :
    EntryAt i s e (some bh) dirEntriesPerBlock (s.held bh)
  | inside (hlt : e / dirEntriesPerBlock < maxBlock) (he : s.HasEntry i e) :
    EntryAt i s e (some (s.entryBh i e)) (e % dirEntriesPerBlock) (s.held (s.entryBh i e))

/-- The loop goes on to the next entry. -/
theorem EntryAt.succ (hlt : e / dirEntriesPerBlock < maxBlock) (h : s.HasEntry i e) :
    EntryAt i s (e + 1) (some (s.entryBh i e)) (e % dirEntriesPerBlock + 1)
      (s.held (s.entryBh i e)) := by
  by_cases hlast : (e + 1) % dirEntriesPerBlock = 0
  · have hk : e % dirEntriesPerBlock + 1 = dirEntriesPerBlock := by
      rw [dirEntriesPerBlock] at hlast ⊢
      omega
    rw [hk]
    exact .behind _ hlast
  · have hk : e % dirEntriesPerBlock + 1 = (e + 1) % dirEntriesPerBlock := by
      rw [dirEntriesPerBlock] at hlast ⊢
      omega
    have hblock : e / dirEntriesPerBlock = (e + 1) / dirEntriesPerBlock := by
      rw [dirEntriesPerBlock] at hlast ⊢
      omega
    have hbh : s.entryBh i e = s.entryBh i (e + 1) := by
      rw [Fs.entryBh, Fs.entryBh, hblock]
    rw [hk, hbh]
    refine .inside (by rwa [← hblock]) ?_
    rwa [Fs.HasEntry, ← hblock]

/-- The block of entry `e` is read. -/
def dirLoad (dir : ℕ) (create : Bool) (e : ℕ) : K DirPos := do
  let block ← bmapBlock dir (e / dirEntriesPerBlock) create
  if block = 0 then pure (if create then .full else .skip)
  else
    let dev ← Prog.read fun s => (s.inode dir).dev
    match ← bread dev block with
    | none => pure .skip
    | some bh => pure (.entry bh 0)

/-- In the middle of a block there is nothing to do. -/
theorem dirPos_inside {create : Bool} (bh : Bh) (hk : k < dirEntriesPerBlock) :
    dirPos i create e (some bh) k = pure (.entry bh k) := by
  rw [dirPos]
  exact decide_eq_true hk

/-- At the end of a block the buffer is given back, and the next block is read. -/
theorem dirPos_load {create : Bool}
    (h : ∀ b, bh = some b → ¬k < dirEntriesPerBlock) :
    dirPos i create e bh k = (do brelseOpt bh; dirLoad i create e) := by
  rw [dirPos]
  · rfl
  · exact fun b hb hk => h b hb (of_decide_eq_true hk)

/-- The loop is in the middle of a block, or the block of the entry has to be read. -/
theorem EntryAt.dirPos_run (h : EntryAt i s e bh k t) (create : Bool) :
    (e / dirEntriesPerBlock < maxBlock ∧ s.HasEntry i e ∧ dirPos i create e bh k t =
        .ok (.entry (s.entryBh i e) (e % dirEntriesPerBlock), s.held (s.entryBh i e))) ∨
      (e % dirEntriesPerBlock = 0 ∧ ∃ s', SameBytes s s' ∧
        dirPos i create e bh k t = dirLoad i create e s') := by
  cases h with
  | unread k he =>
    refine Or.inr ⟨he, s, .refl s, ?_⟩
    rw [dirPos_load fun b hb => absurd hb (by simp)]
    rfl
  | behind bh he =>
    refine Or.inr ⟨he, s.released bh, released_sameBytes s bh, ?_⟩
    rw [dirPos_load fun b _ => Nat.lt_irrefl _]
    exact Prog.bind_run (brelse_run (held_count s bh))
  | inside hlt he =>
    left
    refine ⟨hlt, he, ?_⟩
    rw [dirPos_inside _ (Nat.mod_lt _ (by decide))]
    rfl

/-! ### The place of a directory -/

/-- The tasks and the numbers of the inodes are the same. -/
structure SamePlaces (s s' : Fs) : Prop where
  task : s'.task = s.task
  current : s'.current = s.current
  num : ∀ j, (s'.inode j).num = (s.inode j).num

theorem SamePlaces.trans {s'' : Fs} (h : SamePlaces s s') (h' : SamePlaces s' s'') :
    SamePlaces s s'' :=
  ⟨h'.task.trans h.task, h'.current.trans h.current, fun j => (h'.num j).trans (h.num j)⟩

theorem SamePlaces.setInode {m : MInode} (hnum : m.num = (s.inode i).num) :
    SamePlaces s (s.setInode i m) := by
  refine ⟨rfl, rfl, fun j => ?_⟩
  by_cases hj : j = i
  · subst hj
    simp only [Fs.setInode, Function.update_self]
    exact hnum
  · simp only [Fs.setInode, Function.update_of_ne hj]

theorem samePlaces_frame : TableFrame SamePlaces where
  refl _ := ⟨rfl, rfl, fun _ => rfl⟩
  trans _ _ _ h h' := h.trans h'
  same s s' h := ⟨h.task, h.current, fun j => by rw [h.inode]⟩

/-- A change of an inode that keeps its number. -/
theorem modifyInode_places (i : ℕ) {f : MInode → MInode} (hf : ∀ m, (f m).num = m.num) :
    Stays SamePlaces (fun _ => True) (modifyInode i f) :=
  Stays.update samePlaces_frame fun _ => .setInode (hf _)

/-- `_bmap` keeps the numbers of the inodes. -/
theorem bmapBlock_places (inode block : ℕ) (create : Bool) :
    Stays SamePlaces (fun _ => True) (bmapBlock inode block create) := by
  have hzone : ∀ n, Stays SamePlaces (fun _ => True) (bmapZone inode n create) := by
    intro n
    apply (Owns.read _).next
    intro m
    apply Owns.ite
    · intro _
      apply (newBlock_stays samePlaces_frame anyPanic m.dev).next
      intro j
      apply (Owns.read _).next
      intro time
      apply Owns.next
      · exact modifyInode_places inode fun _ => rfl
      · intro _
        apply Owns.next
        · exact Owns.when fun _ => modifyInode_places inode fun _ => rfl
        · exact fun _ => Owns.pure rfl
    · exact fun _ => Owns.pure rfl
  apply Owns.ite
  · exact fun _ => Stays.fail trivial
  · intro _
    apply (Owns.read _).next
    intro dev
    exact (hzone _).next fun z => bmapEntries_stays samePlaces_frame anyPanic dev create _ z

/-- `find_entry` looks for `..` elsewhere if the directory is the root of the task or of a
device. -/
def Fs.Ordinary (s : Fs) (i : ℕ) (x : FileName) : Prop :=
  x.1 = [46, 46] → s.cur.root ≠ some i ∧ (s.inode i).num ≠ rootIno

theorem SamePlaces.ordinary {x : FileName} (h : SamePlaces s s') (hx : s.Ordinary i x) :
    s'.Ordinary i x := by
  intro hname
  rw [Fs.cur, h.task, h.current, h.num]
  exact hx hname

/-! ### `find_entry` -/

theorem SameBytes.entryBlock (h : SameBytes s s') (he : e / dirEntriesPerBlock < maxBlock) :
    s'.entryBlock i e = s.entryBlock i e := h.sameData i _ (leaf_path he)

theorem SameBytes.hasEntry (h : SameBytes s s') : s'.HasEntry i e ↔ s.HasEntry i e := by
  rw [Fs.HasEntry, Fs.HasEntry, h.zoneIn]

theorem SameBytes.entryBh (h : SameBytes s s') (i e : ℕ) : s'.entryBh i e = s.entryBh i e := by
  rw [Fs.entryBh, Fs.entryBh, h.zoneIn, (h.inode i).dev]

theorem SameBytes.places (h : SameBytes s s') : SamePlaces s s' :=
  ⟨h.task, h.current, fun j => (h.inode j).num⟩

/-- Without `create`, a block that is missing is skipped. -/
theorem dirLoad_find (h : FileZones i sb s) (he : e / dirEntriesPerBlock < maxBlock) :
    ∃ s', SameBytes s s' ∧
      (s'.HasEntry i e ∧ dirLoad i false e s =
          .ok (.entry (s'.entryBh i e) 0, s'.held (s'.entryBh i e)) ∨
        ¬s'.HasEntry i e ∧ dirLoad i false e s = .ok (.skip, s')) := by
  obtain ⟨s₁, hrun, hsame⟩ := bmap_run h.bad i he
  have hbmap : bmapBlock i (e / dirEntriesPerBlock) false s = _ := hrun
  have htables : SameTables s s₁ :=
    Stays.of_ok sameTables_frame (bmapBlock_stays i _ false) hbmap
  have hbytes := hsame.sameBytes htables
  have hbad₁ : ∀ b, s₁.bad b = false := by
    rw [hsame.bad]
    exact h.bad
  refine ⟨s₁, hbytes, ?_⟩
  rw [hbytes.hasEntry, hbytes.entryBh]
  by_cases hzero : s.zoneIn i (path (e / dirEntriesPerBlock)) = 0
  · refine Or.inr ⟨not_not.mpr hzero, ?_⟩
    rw [dirLoad, Prog.bind_run hbmap, if_pos hzero]
    rfl
  · refine Or.inl ⟨hzero, ?_⟩
    rw [dirLoad, Prog.bind_run hbmap, if_neg hzero, Prog.read_run,
      Prog.bind_run (bread_run hbad₁ ..), hsame.inode]
    rfl

/-- A step of the loop of `find_entry` comes to an entry, or skips a block. -/
theorem EntryAt.dirPos_find (hat : EntryAt i s e bh k t) (h : FileZones i sb s)
    (he : e / dirEntriesPerBlock < maxBlock) : ∃ s', SameBytes s s' ∧
      (s'.HasEntry i e ∧ dirPos i false e bh k t =
          .ok (.entry (s'.entryBh i e) (e % dirEntriesPerBlock), s'.held (s'.entryBh i e)) ∨
        ¬s'.HasEntry i e ∧ e % dirEntriesPerBlock = 0 ∧
          dirPos i false e bh k t = .ok (.skip, s')) := by
  rcases hat.dirPos_run false with ⟨-, hentry, hrun⟩ | ⟨hfirst, s₁, hsame, hrun⟩
  · exact ⟨s, .refl s, Or.inl ⟨hentry, hrun⟩⟩
  · obtain ⟨s₂, hsame₂, ⟨hentry, hload⟩ | ⟨hmissing, hload⟩⟩ :=
      dirLoad_find (hsame.fileZones h) he
    · refine ⟨s₂, hsame.trans hsame₂, Or.inl ⟨hentry, ?_⟩⟩
      rw [hrun, hload, hfirst]
    · refine ⟨s₂, hsame.trans hsame₂, Or.inr ⟨hmissing, hfirst, ?_⟩⟩
      rw [hrun, hload]

/-- What a search of a directory has found: the first entry with a name, or nothing. -/
inductive Found (i : ℕ) (s : Fs) (x : EntryName) (start entries : ℕ) :
    Option (Bh × ℕ) → Fs → Prop
  | found (s' : Fs) (e : ℕ) (hsame : SameBytes s s') (hstart : start ≤ e) (hlt : e < entries)
    (hentry : s.HasEntry i e) (hname : s.Named i e x)
    (hfirst : ∀ e', start ≤ e' → e' < e → ¬s.Named i e' x) :
    Found i s x start entries (some (s.entryBh i e, e % dirEntriesPerBlock))
      (s'.held (s.entryBh i e))
  | nothing (s' : Fs) (hsame : SameBytes s s')
    (hnone : ∀ e, start ≤ e → e < entries → ¬s.Named i e x) :
    Found i s x start entries none s'

/-- A search that has gone over entries without the name. -/
theorem Found.of_later {x : EntryName} {start start' entries : ℕ} {r : Option (Bh × ℕ)}
    (h : Found i s' x start' entries r t) (hsame : SameBytes s s')
    (hmax : entries ≤ dirEntriesPerBlock * maxBlock) (hle : start ≤ start')
    (hskip : ∀ e, start ≤ e → e < start' → e < entries → ¬s.Named i e x) :
    Found i s x start entries r t := by
  have hblock : ∀ e, e < entries → s'.entryBlock i e = s.entryBlock i e := fun e he =>
    hsame.entryBlock (Nat.div_lt_of_lt_mul (Nat.lt_of_lt_of_le he hmax))
  cases h with
  | found s₁ e hsame₁ hstart hlt hentry hname hfirst =>
    rw [hsame.entryBh]
    refine .found s₁ e (hsame.trans hsame₁) (hle.trans hstart) hlt (hsame.hasEntry.mp hentry) ?_
      fun e' hlow hhigh => ?_
    · rw [Fs.Named, ← hblock e hlt]
      exact hname
    · by_cases hlater : start' ≤ e'
      · rw [Fs.Named, ← hblock e' (hhigh.trans hlt)]
        exact hfirst e' hlater hhigh
      · exact hskip e' hlow (by omega) (hhigh.trans hlt)
  | nothing _ hsame₁ hnone =>
    refine .nothing t (hsame.trans hsame₁) fun e' hlow hhigh => ?_
    by_cases hlater : start' ≤ e'
    · rw [Fs.Named, ← hblock e' hhigh]
      exact hnone e' hlater hhigh
    · exact hskip e' hlow (by omega) hhigh

/-- Behind the last entry the loop ends. -/
theorem findLoop_end (x : EntryName) {entries : ℕ} (hat : EntryAt i s e bh k t)
    (hend : entries ≤ e) : ∃ r t',
      (do brelseOpt bh; pure none : K (Option (Bh × ℕ))) t = .ok (r, t') ∧
        Found i s x e entries r t' := by
  have hnone : ∀ e', e ≤ e' → e' < entries → ¬s.Named i e' x := by
    intro e' hlow hhigh
    omega
  cases hat with
  | unread k he => exact ⟨none, s, rfl, .nothing s (.refl s) hnone⟩
  | behind b he =>
    exact ⟨none, s.released b, Prog.bind_run (brelse_run (held_count s b)),
      .nothing _ (released_sameBytes s b) hnone⟩
  | inside hlt he =>
    exact ⟨none, s.released _, Prog.bind_run (brelse_run (held_count s _)),
      .nothing _ (released_sameBytes s _) hnone⟩

/-- The loop of `find_entry` finds the first entry with the name. -/
theorem findLoop_found (h : FileZones i sb s) {x : FileName} {entries n : ℕ}
    (hmax : entries ≤ dirEntriesPerBlock * maxBlock) (hn : entries ≤ e + n)
    (hat : EntryAt i s e bh k t) : ∃ r t',
      findLoop i (min x.1.length nameLen) x.1 entries n e bh k t = .ok (r, t') ∧
        Found i s x.entryName e entries r t' := by
  induction n generalizing s t e bh k with
  | zero => exact findLoop_end x.entryName hat (by omega)
  | succ n ih =>
    rw [findLoop]
    by_cases hend : entries ≤ e
    · rw [if_pos hend]
      exact findLoop_end x.entryName hat hend
    · have hblock : e / dirEntriesPerBlock < maxBlock := Nat.div_lt_of_lt_mul (by omega)
      obtain ⟨s₁, hsame, ⟨hentry, hrun⟩ | ⟨hmissing, hfirst, hrun⟩⟩ := hat.dirPos_find h hblock
      · have h₁ := hsame.fileZones h
        have hnamed : ¬s₁.Named i e x.entryName → ¬s.Named i e x.entryName := by
          rw [Fs.Named, Fs.Named, hsame.entryBlock hblock]
          exact id
        rw [if_neg hend, Prog.bind_run hrun]
        dsimp only
        rw [Prog.read_run, held_entryBh h₁.bad hentry]
        by_cases hmatch : matchEntry (min x.1.length nameLen) x.1 (s₁.entryBlock i e)
            (e % dirEntriesPerBlock) = true
        · rw [if_pos hmatch]
          have hfound : Found i s₁ x.entryName e entries _ _ :=
            .found s₁ e (.refl s₁) (Nat.le_refl e) (by omega) hentry
              ((matchEntry_fileName x ..).mp hmatch) fun e' hlow hhigh => by omega
          exact ⟨_, _, rfl,
            hfound.of_later hsame hmax (Nat.le_refl e) fun e' hlow hhigh => by omega⟩
        · rw [if_neg hmatch]
          obtain ⟨r, t', hrest, hfound⟩ := ih h₁ (by omega) (EntryAt.succ hblock hentry)
          refine ⟨r, t', hrest,
            hfound.of_later hsame hmax (Nat.le_succ e) fun e' hlow hhigh _ => ?_⟩
          obtain rfl : e' = e := by omega
          exact hnamed fun hx => hmatch ((matchEntry_fileName x ..).mpr hx)
      · rw [if_neg hend, Prog.bind_run hrun]
        dsimp only
        have hlen : dirEntriesPerBlock = 64 := rfl
        have hfuel : entries ≤ e + dirEntriesPerBlock + n := by omega
        obtain ⟨r, t', hrest, hfound⟩ := ih (hsame.fileZones h) hfuel
          (.unread k (by rwa [Nat.add_mod_right]))
        refine ⟨r, t', hrest, hfound.of_later hsame hmax (Nat.le_add_right ..)
          fun e' hlow hhigh _ => not_named_of_missing ?_ _⟩
        -- the entry lies in the block that is missing
        have hsameBlock : e' / dirEntriesPerBlock = e / dirEntriesPerBlock := by
          rw [dirEntriesPerBlock] at hfirst hhigh ⊢
          omega
        rw [Fs.HasEntry, hsameBlock]
        exact fun hentry => hmissing (hsame.hasEntry.mpr hentry)

/-- `find_entry` in a directory finds the first entry with the name. -/
theorem findEntry_found (h : FileZones i sb s) (hstart : (s.inode i).zone 0 ≠ 0)
    (hmax : (s.inode i).size ≤ maxBytes) {x : FileName} (hx : s.Ordinary i x) : ∃ r t',
      findEntry i x.1 s = .ok ((i, r), t') ∧
        Found i s x.entryName 0 ((s.inode i).size / 16) r t' := by
  have hbound : (s.inode i).size / 16 ≤ dirEntriesPerBlock * maxBlock := by
    rw [maxBytes, blockSize] at hmax
    rw [dirEntriesPerBlock]
    omega
  have hzero : s.entryBh i 0 = ⟨(s.inode i).dev, (s.inode i).zone 0⟩ := rfl
  obtain ⟨r, t', hloop, hfound⟩ := findLoop_found h (x := x) (n := (s.inode i).size / 16) hbound
    (Nat.le_add_left ..) (EntryAt.inside (e := 0) (by decide) hstart)
  have hin : findIn i (min x.1.length nameLen) x.1 ((s.inode i).size / 16) s = .ok (r, t') := by
    rw [findIn, Prog.read_run, if_neg hstart, Prog.bind_run (bread_run h.bad ..), ← hzero]
    exact hloop
  have hdots : dotDot i x.1 (min x.1.length nameLen) s = .ok ((i, min x.1.length nameLen), s) := by
    have hname : min x.1.length nameLen = 2 ∧ x.1.getD 0 0 = 46 ∧ x.1.getD 1 0 = 46 →
        x.1 = [46, 46] := by
      rintro ⟨hlen, hfirst, hsecond⟩
      have htwo : x.1.length = 2 := by
        have hlen' : nameLen = 14 := rfl
        omega
      apply List.ext_getElem htwo
      intro j hj _
      rw [List.getD_eq_getElem _ _ (by omega)] at hfirst hsecond
      rcases (by omega : j = 0 ∨ j = 1) with rfl | rfl
      · exact hfirst
      · exact hsecond
    rw [dotDot, Prog.read_run, Prog.read_run]
    split_ifs with hdots hroot hnum
    · exact absurd hroot (hx (hname hdots)).1
    · exact absurd hnum (hx (hname hdots)).2
    · rfl
    · rfl
  refine ⟨r, t', ?_, hfound⟩
  have hne : min x.1.length nameLen ≠ 0 := by
    have hlen := List.length_pos_iff.mpr x.2.1
    have hlen' : nameLen = 14 := rfl
    omega
  rw [findEntry, Prog.read_run, if_neg hne, Prog.bind_run hdots]
  dsimp only
  rw [Prog.bind_run hin]
  rfl

/-! ### `add_entry` -/

/-- What happens to a directory while its entries stay the same: it may get blocks. -/
structure DirKept (i : ℕ) (sb : SuperBlock) (s s' : Fs) : Prop where
  zones : FileZones i sb s'
  data : SameData i s s'
  slots : ∀ x ∈ zoneSlots, s.zoneIn i x ≠ 0 → s'.zoneIn i x = s.zoneIn i x
  size : (s'.inode i).size = (s.inode i).size
  dev : (s'.inode i).dev = (s.inode i).dev
  bits : ∀ k, s.zmap (s.inode i).dev k = true → s'.zmap (s.inode i).dev k = true
  places : SamePlaces s s'

theorem DirKept.trans {s'' : Fs} (h : DirKept i sb s s') (h' : DirKept i sb s' s'') :
    DirKept i sb s s'' := by
  refine ⟨h'.zones, h.data.trans h'.data, fun x hx hne => ?_, h'.size.trans h.size,
    h'.dev.trans h.dev, fun k hk => ?_, h.places.trans h'.places⟩
  · have hfirst := h.slots x hx hne
    rw [h'.slots x hx (by rwa [hfirst]), hfirst]
  · have hk' := h.bits k hk
    rw [← h.dev] at hk' ⊢
    exact h'.bits k hk'

theorem SameBytes.dirKept (hsame : SameBytes s s') (h : FileZones i sb s) : DirKept i sb s s' :=
  ⟨hsame.fileZones h, hsame.sameData i, fun _ _ _ => by rw [hsame.zoneIn], (hsame.inode i).size,
    (hsame.inode i).dev, fun k hk => by rwa [hsame.zmap], hsame.places⟩

theorem GrowsEmpty.dirKept {v : ℕ} (h : GrowsEmpty i sb v s s') (hplaces : SamePlaces s s') :
    DirKept i sb s s' :=
  ⟨h.grows.zones, h.data, h.grows.slots, h.size, h.grows.dev, h.grows.bits, hplaces⟩

/-- With `create`, a block that is missing is made. -/
theorem dirLoad_add (h : FileZones i sb s) (he : e / dirEntriesPerBlock < maxBlock) :
    ∃ s', DirKept i sb s s' ∧
      (s'.HasEntry i e ∧ dirLoad i true e s =
          .ok (.entry (s'.entryBh i e) 0, s'.held (s'.entryBh i e)) ∨
        Full (s'.inode i).dev sb s' ∧ dirLoad i true e s = .ok (.full, s')) := by
  obtain ⟨v, s₁, hrun, hv, hgrown⟩ := createBlock_grows h he
  have hbmap : bmapBlock i (e / dirEntriesPerBlock) true s = .ok (v, s₁) := hrun
  have hplaces : SamePlaces s s₁ :=
    Stays.of_ok samePlaces_frame (bmapBlock_places i _ true) hbmap
  refine ⟨s₁, hgrown.dirKept hplaces, ?_⟩
  by_cases hzero : v = 0
  · refine Or.inr ⟨hgrown.full hzero, ?_⟩
    rw [dirLoad, Prog.bind_run hbmap, if_pos hzero]
    rfl
  · subst hv
    refine Or.inl ⟨hzero, ?_⟩
    rw [dirLoad, Prog.bind_run hbmap, if_neg hzero, Prog.read_run,
      Prog.bind_run (bread_run hgrown.grows.zones.bad ..)]
    rfl

/-- A step of the loop of `add_entry` comes to an entry, or finds the device full. -/
theorem EntryAt.dirPos_add (hat : EntryAt i s e bh k t) (h : FileZones i sb s)
    (he : e / dirEntriesPerBlock < maxBlock) : ∃ s', DirKept i sb s s' ∧
      (s'.HasEntry i e ∧ dirPos i true e bh k t =
          .ok (.entry (s'.entryBh i e) (e % dirEntriesPerBlock), s'.held (s'.entryBh i e)) ∨
        Full (s'.inode i).dev sb s' ∧ dirPos i true e bh k t = .ok (.full, s')) := by
  rcases hat.dirPos_run true with ⟨-, hentry, hrun⟩ | ⟨hfirst, s₁, hsame, hrun⟩
  · exact ⟨s, (SameBytes.refl s).dirKept h, Or.inl ⟨hentry, hrun⟩⟩
  · obtain ⟨s₂, hkept, ⟨hentry, hload⟩ | ⟨hfull, hload⟩⟩ :=
      dirLoad_add (hsame.fileZones h) he
    · refine ⟨s₂, (hsame.dirKept h).trans hkept, Or.inl ⟨hentry, ?_⟩⟩
      rw [hrun, hload, hfirst]
    · refine ⟨s₂, (hsame.dirKept h).trans hkept, Or.inr ⟨hfull, ?_⟩⟩
      rw [hrun, hload]

/-- The inode of a directory after entry `e` has got a name. -/
def MInode.withEntry (m : MInode) (e time : ℕ) : MInode :=
  let m := if m.size ≤ 16 * e then { m with size := 16 * (e + 1), dirt := true, ctime := time }
    else m
  { m with mtime := time }

/-- The block of entry `e` when it gets a name: an entry behind the last one is cleared first. -/
def Fs.freshEntry (s : Fs) (i e : ℕ) : ℕ → ℕ :=
  if (s.inode i).size ≤ 16 * e then setEntryInode (s.entryBlock i e) (e % dirEntriesPerBlock) 0
  else s.entryBlock i e

/-- The state after `add_entry` has stored a name in an entry that is held, and perhaps a new
size. -/
def Fs.named (s : Fs) (i e : ℕ) (name : ℕ → ℕ) : Fs :=
  let bh := s.entryBh i e
  ((s.held bh).setInode i ((s.inode i).withEntry e s.time)).setData bh
    (setEntryName (s.freshEntry i e) (e % dirEntriesPerBlock) nameLen name)

/-- What `add_entry` has done: the device is full, or a name has been stored in the first free entry
or in the one behind the last. -/
inductive Added (i : ℕ) (sb : SuperBlock) (s : Fs) (name : ℕ → ℕ) : Option (Bh × ℕ) → Fs → Prop
  | full (s' : Fs) (hkept : DirKept i sb s s') (hfull : Full (s'.inode i).dev sb s') :
    Added i sb s name none s'
  | added (s' : Fs) (e : ℕ) (hkept : DirKept i sb s s') (hle : 16 * e ≤ (s.inode i).size)
    (hlt : e / dirEntriesPerBlock < maxBlock) (hentry : s'.HasEntry i e)
    (hfree : 16 * e < (s.inode i).size → s.entryNum i e = 0) :
    Added i sb s name (some (s'.entryBh i e, e % dirEntriesPerBlock)) (s'.named i e name)

theorem Added.of_kept {name : ℕ → ℕ} {r : Option (Bh × ℕ)} (h : Added i sb s' name r t)
    (hkept : DirKept i sb s s') : Added i sb s name r t := by
  cases h with
  | full _ hkept' hfull => exact .full t (hkept.trans hkept') hfull
  | added s₁ e hkept' hle hlt hentry hfree =>
    rw [hkept.size] at hle hfree
    refine .added s₁ e (hkept.trans hkept') hle hlt hentry fun hin => ?_
    have hblock : s'.entryBlock i e = s.entryBlock i e := hkept.data _ (leaf_path hlt)
    rw [Fs.entryNum, ← hblock]
    exact hfree hin

/-- What holding a block leaves alone. -/
theorem held_entry_reads (s : Fs) (bh : Bh) :
    (s.held bh).inode = s.inode ∧ (s.held bh).time = s.time := by
  refine ⟨(held_same s bh).inode, ?_⟩
  unfold Fs.held
  dsimp only
  split_ifs <;> rfl

/-- The end of `add_entry`: the name is stored. -/
def takeEntry (i : ℕ) (bh : Bh) (k time : ℕ) (name : ℕ → ℕ) : K (Option (Bh × ℕ)) := do
  modifyInode i fun m => { m with mtime := time }
  modifyData bh fun d => setEntryName d k nameLen name
  pure (some (bh, k))

theorem takeEntry_run (s : Fs) (i : ℕ) (bh : Bh) (k time : ℕ) (name : ℕ → ℕ) :
    takeEntry i bh k time name s = .ok (some (bh, k),
      (s.setInode i { s.inode i with mtime := time }).setData bh
        (setEntryName (s.data bh) k nameLen name)) := rfl

/-- An entry that is free, or behind the last one, gets the name; another one is passed over. -/
theorem addLoop_entry (h : FileZones i sb s) (hentry : s.HasEntry i e) (n len : ℕ)
    (name : List ℕ) (hrun : dirPos i true e bh k t =
      .ok (.entry (s.entryBh i e) (e % dirEntriesPerBlock), s.held (s.entryBh i e))) :
    addLoop i len name (n + 1) e bh k t =
      if (s.inode i).size ≤ 16 * e ∨ s.entryNum i e = 0 then
        .ok (some (s.entryBh i e, e % dirEntriesPerBlock), s.named i e (padded len name))
      else addLoop i len name n (e + 1) (some (s.entryBh i e)) (e % dirEntriesPerBlock + 1)
        (s.held (s.entryBh i e)) := by
  obtain ⟨hinode, htime⟩ := held_entry_reads s (s.entryBh i e)
  have hdata := held_entryBh h.bad hentry
  rw [addLoop, Prog.bind_run hrun]
  dsimp only
  rw [Prog.read_run, Prog.read_run, hinode, htime]
  by_cases hbig : (s.inode i).size ≤ 16 * e
  · rw [Prog.when, if_pos hbig, if_pos (Or.inl hbig)]
    refine (Prog.bind_run rfl).trans ?_
    rw [Prog.read_run]
    refine (congrFun (if_pos ?_) _).trans ((takeEntry_run ..).trans ?_)
    · simp only [Fs.setData, Fs.setInode, Function.update_self]
      rw [entryInode_setEntryInode, if_pos rfl]
    · simp only [Fs.named, MInode.withEntry, Fs.freshEntry, Fs.setData, Fs.setInode,
        Function.update_self, Function.update_idem, if_pos hbig, hinode, hdata]
      rfl
  · rw [Prog.when, if_neg hbig]
    refine (Prog.bind_run rfl).trans ?_
    rw [Prog.read_run, hdata]
    by_cases hzero : s.entryNum i e = 0
    · rw [if_pos (Or.inr hzero)]
      refine (congrFun (if_pos hzero) _).trans ((takeEntry_run ..).trans ?_)
      simp only [Fs.named, MInode.withEntry, Fs.freshEntry, if_neg hbig, hinode, hdata]
      rfl
    · rw [if_neg (not_or.mpr ⟨hbig, hzero⟩)]
      exact congrFun (if_neg hzero) _

/-- The loop of `add_entry` stores the name, or finds the device full. It panics in a directory that
has the maximal size. -/
theorem addLoop_added (h : FileZones i sb s) (hmax : (s.inode i).size ≤ maxBytes)
    (hwhole : (s.inode i).size % 16 = 0) {n len : ℕ} {name : List ℕ}
    (hn : dirEntriesPerBlock * maxBlock < e + n) (hle : 16 * e ≤ (s.inode i).size)
    (hat : EntryAt i s e bh k t) :
    (addLoop i len name n e bh k).wp (Added i sb s (padded len name))
      (fun err t' => err = .bmapBlock ∧ (t'.inode i).size = maxBytes) t := by
  have hlen : dirEntriesPerBlock = 64 := rfl
  have hbytes : maxBytes = 16 * (dirEntriesPerBlock * maxBlock) := rfl
  induction n generalizing s t e bh k with
  | zero => omega
  | succ n ih =>
    by_cases hlt : e / dirEntriesPerBlock < maxBlock
    · obtain ⟨s₁, hkept, ⟨hentry, hrun⟩ | ⟨hfull, hrun⟩⟩ := hat.dirPos_add h hlt
      · have hnum : s₁.entryNum i e = s.entryNum i e := by
          have hblock : s₁.entryBlock i e = s.entryBlock i e := hkept.data _ (leaf_path hlt)
          rw [Fs.entryNum, hblock]
          rfl
        have hstep := addLoop_entry hkept.zones hentry n len name hrun
        by_cases htake : (s₁.inode i).size ≤ 16 * e ∨ s₁.entryNum i e = 0
        · rw [if_pos htake] at hstep
          apply Prog.wp_of_run hstep
          refine .added s₁ e hkept hle hlt hentry fun hin => ?_
          rcases htake with hbig | hfree
          · rw [hkept.size] at hbig
            omega
          · rw [← hnum]
            exact hfree
        · rw [if_neg htake] at hstep
          have hbig := (not_or.mp htake).1
          rw [hkept.size] at hbig
          apply Prog.wp_of_run_eq hstep
          have hrest := ih hkept.zones (by rw [hkept.size]; exact hmax)
            (by rw [hkept.size]; exact hwhole) (by omega) (by rw [hkept.size]; omega)
            (EntryAt.succ hlt hentry)
          exact hrest.mono (fun r t' hr => hr.of_kept hkept) fun err t' herr => herr
      · have hstop : addLoop i len name (n + 1) e bh k t = .ok (none, s₁) := by
          rw [addLoop, Prog.bind_run hrun]
          rfl
        exact Prog.wp_of_run hstop (.full s₁ hkept hfull)
    · have hlast : (s.inode i).size = maxBytes := by
        have hge := Nat.mul_le_mul_left dirEntriesPerBlock (Nat.not_lt.mp hlt)
        have hdiv := Nat.mul_div_le e dirEntriesPerBlock
        omega
      rcases hat.dirPos_run true with ⟨hin, -⟩ | ⟨-, s₁, hsame, hrun⟩
      · exact absurd hin hlt
      · have hpanic : dirLoad i true e s₁ = .error (.bmapBlock, s₁) := by
          rw [dirLoad, bmapBlock, if_pos (Nat.not_lt.mp hlt)]
          rfl
        rw [addLoop]
        refine Prog.wp_bind_of_error (hrun.trans hpanic) ⟨rfl, ?_⟩
        rw [(hsame.inode i).size, hlast]

/-- `add_entry` stores the name, or finds the device full. It panics in a directory that has the
maximal size. -/
theorem addEntry_added (h : FileZones i sb s) (hstart : (s.inode i).zone 0 ≠ 0)
    (hmax : (s.inode i).size ≤ maxBytes) (hwhole : (s.inode i).size % 16 = 0) (x : FileName) :
    (addEntry i x.1).wp (Added i sb s (padded (min x.1.length nameLen) x.1))
      (fun err t' => err = .bmapBlock ∧ (t'.inode i).size = maxBytes) s := by
  have hne : min x.1.length nameLen ≠ 0 := by
    have hlen := List.length_pos_iff.mpr x.2.1
    have hlen' : nameLen = 14 := rfl
    omega
  have hzero : s.entryBh i 0 = ⟨(s.inode i).dev, (s.inode i).zone 0⟩ := rfl
  rw [addEntry, if_neg hne, Prog.wp_bind, Prog.wp_read, if_neg hstart]
  apply Prog.wp_bind_of_run (bread_run h.bad ..)
  rw [← hzero]
  exact addLoop_added h hmax hwhole (by omega) (Nat.zero_le _)
    (EntryAt.inside (e := 0) (by decide) hstart)

end LihaLinux.Files
