import LihaLinux.Files.ByteRuns
import LihaLinux.Files.DirEntries
import LihaLinux.Lib.SlotTable

/-!
# Directories as finite maps

A directory maps names to inodes. `find_entry` looks a name up, a call that makes a file looks
whether the name is there before it calls `add_entry` and stores the inode, and a call that removes
one clears the inode of the entry. Entries are used again, and the directory gets longer when none
is free.
-/

namespace LihaLinux.Files

open LihaLinux.Fs (maxBlock path)

variable {s s' t : Fs} {sb : SuperBlock} {i e : ℕ} {map : EntryName → Option ℕ}

/-- The number of entries. -/
def Fs.entries (s : Fs) (i : ℕ) : ℕ := (s.inode i).size / 16

/-- A directory that maps names to inodes. -/
structure DirMap (i : ℕ) (sb : SuperBlock) (s : Fs) (map : EntryName → Option ℕ) : Prop
    extends FileZones i sb s where
  start : (s.inode i).zone 0 ≠ 0
  size : (s.inode i).size ≤ maxBytes
  whole : (s.inode i).size % 16 = 0
  holds : SlotTable.Holds (s.Named i) (s.entryNum i) (s.entries i) map

/-- A directory with different names in its entries is such a map. -/
theorem exists_dirMap (h : FileZones i sb s) (hstart : (s.inode i).zone 0 ≠ 0)
    (hsize : (s.inode i).size ≤ maxBytes) (hwhole : (s.inode i).size % 16 = 0)
    (hunique : SlotTable.Unique (s.Named i) (s.entries i)) : ∃ map, DirMap i sb s map := by
  obtain ⟨map, hmap⟩ := SlotTable.exists_holds (s.entryNum i) hunique
  exact ⟨map, h, hstart, hsize, hwhole, hmap⟩

/-- The entries lie in blocks that `_bmap` accepts. -/
theorem entry_lt (hsize : (s.inode i).size ≤ maxBytes) (he : e < s.entries i) :
    e / dirEntriesPerBlock < maxBlock := by
  rw [Fs.entries] at he
  rw [maxBytes, blockSize] at hsize
  rw [dirEntriesPerBlock]
  omega

/-- A directory that gets blocks holds the same map. -/
theorem DirMap.kept (h : DirMap i sb s map) (hkept : DirKept i sb s s') : DirMap i sb s' map := by
  have hentries : s'.entries i = s.entries i := by
    rw [Fs.entries, hkept.size]
    rfl
  have hblock : ∀ e, e < s.entries i → s'.entryBlock i e = s.entryBlock i e := fun e he =>
    hkept.data _ (leaf_path (entry_lt h.size he))
  refine ⟨hkept.zones, ?_, ?_, ?_, ?_⟩
  · have hslot := hkept.slots (path 0) (path_mem (by decide)) h.start
    rw [show (s'.inode i).zone 0 = (s.inode i).zone 0 from hslot]
    exact h.start
  · rw [hkept.size]
    exact h.size
  · rw [hkept.size]
    exact h.whole
  · rw [hentries]
    refine h.holds.congr (fun e he x => ?_) fun e he _ _ => ?_
    · rw [Fs.Named, hblock e he]
      exact Iff.rfl
    · rw [Fs.entryNum, hblock e he]
      rfl

/-- The directory holds a map after a call. -/
structure Replied (i : ℕ) (sb : SuperBlock) (s s' : Fs) (map' : EntryName → Option ℕ) : Prop where
  dir : DirMap i sb s' map'
  dev : (s'.inode i).dev = (s.inode i).dev
  bits : ∀ k, s.zmap (s.inode i).dev k = true → s'.zmap (s.inode i).dev k = true
  places : SamePlaces s s'

theorem DirKept.replied (hkept : DirKept i sb s s') (h : DirMap i sb s map) :
    Replied i sb s s' map := ⟨h.kept hkept, hkept.dev, hkept.bits, hkept.places⟩

theorem Replied.trans {s'' : Fs} {map' map'' : EntryName → Option ℕ}
    (h : Replied i sb s s' map') (h' : Replied i sb s' s'' map'') : Replied i sb s s'' map'' := by
  refine ⟨h'.dir, h'.dev.trans h.dev, fun k hk => ?_, h.places.trans h'.places⟩
  have hk' := h.bits k hk
  rw [← h.dev] at hk' ⊢
  exact h'.bits k hk'

/-- A device that is full stays full. -/
theorem Replied.full {map' : EntryName → Option ℕ} (h : Replied i sb s s' map')
    (hfull : Full (s.inode i).dev sb s) : Full (s.inode i).dev sb s' :=
  fun z hz hbit => h.bits _ (hfull z hz hbit)

/-! ### An entry that is stored -/

/-- What happens when an entry and the inode of the directory are stored. -/
theorem put_entry (h : FileZones i sb s) (hlt : e / dirEntriesPerBlock < maxBlock)
    (hentry : s.HasEntry i e) {m : MInode} (hzone : m.zone = (s.inode i).zone)
    (hdev : m.dev = (s.inode i).dev) (hmode : m.mode = (s.inode i).mode)
    (hpipe : m.pipe = (s.inode i).pipe) {d : ℕ → ℕ} {num : ℕ} {name : ℕ → ℕ}
    (hset : EntrySet (s.entryBlock i e) d (e % dirEntriesPerBlock) num name)
    (hs' : s' = s.put i m (s.entryBh i e) d) :
    Grows i sb s s' ∧ s'.inode i = m ∧ s'.entryNum i e = num ∧
      (∀ x, s'.Named i e x ↔ HasName d (e % dirEntriesPerBlock) x) ∧
      ∀ e', e' / dirEntriesPerBlock < maxBlock → e' ≠ e →
        (∀ x, s'.Named i e' x ↔ s.Named i e' x) ∧ s'.entryNum i e' = s.entryNum i e' := by
  obtain ⟨hgrows, hinode, hdata⟩ :=
    put_grows h (leaf_path hlt) hentry hzone hdev hmode hpipe hs'
  have hself : s'.entryBlock i e = d := by
    rw [Fs.entryBlock, hdata _ (leaf_path hlt), if_pos rfl]
  refine ⟨hgrows, hinode, ?_, fun x => ?_, fun e' hlt' hne => ?_⟩
  · rw [Fs.entryNum, hself, hset.num]
  · rw [Fs.Named, hself]
  · by_cases hblock : e' / dirEntriesPerBlock = e / dirEntriesPerBlock
    · have hk : e' % dirEntriesPerBlock ≠ e % dirEntriesPerBlock := by
        intro hmod
        apply hne
        rw [← Nat.div_add_mod e' dirEntriesPerBlock, hblock, hmod, Nat.div_add_mod]
      have hnew : s'.entryBlock i e' = d := by
        rw [Fs.entryBlock, hblock]
        exact hself
      have hold : s.entryBlock i e' = s.entryBlock i e := by
        rw [Fs.entryBlock, hblock]
        rfl
      refine ⟨fun x => ?_, ?_⟩
      · rw [Fs.Named, Fs.Named, hnew, hold]
        exact hset.hasName_other hk x
      · rw [Fs.entryNum, Fs.entryNum, hnew, hold]
        exact hset.inode_other _ hk
    · have hsame : s'.entryBlock i e' = s.entryBlock i e' := by
        rw [Fs.entryBlock, hdata _ (leaf_path hlt'), if_neg fun heq => hblock (path_inj heq)]
        rfl
      refine ⟨fun x => ?_, ?_⟩
      · rw [Fs.Named, hsame]
        exact Iff.rfl
      · rw [Fs.entryNum, hsame]
        rfl

/-- An inode is stored with the same number. -/
theorem put_places {m : MInode} (hnum : m.num = (s.inode i).num) {bh : Bh} {d : ℕ → ℕ}
    (hs' : s' = s.put i m bh d) : SamePlaces s s' := by
  obtain ⟨-, htask, hcurrent, -⟩ := put_same s i m bh d
  rw [hs']
  refine ⟨htask, hcurrent, fun j => ?_⟩
  rw [put_inode]
  by_cases hj : j = i
  · rw [hj, Function.update_self, hnum]
  · rw [Function.update_of_ne hj]

/-- The map after the entry of a name has been cleared. -/
theorem DirMap.erase (h : DirMap i sb s map) {x : EntryName}
    (he : SlotTable.IsFirst (s.Named i) (s.entries i) x e) (hentry : s.HasEntry i e)
    (hs' : s' = s.put i (s.inode i) (s.entryBh i e)
      (setEntryInode (s.entryBlock i e) (e % dirEntriesPerBlock) 0)) :
    Replied i sb s s' (Function.update map x none) := by
  have hlt := entry_lt h.size he.1
  obtain ⟨hgrows, hinode, hnum, -, hother⟩ := put_entry h.toFileZones hlt hentry rfl rfl rfl rfl
    (setEntryInode_set _ _ (by decide)) hs'
  refine ⟨⟨hgrows.zones, ?_, ?_, ?_, ?_⟩, hgrows.dev, hgrows.bits, put_places rfl hs'⟩
  · rw [hinode]
    exact h.start
  · rw [hinode]
    exact h.size
  · rw [hinode]
    exact h.whole
  · have hentries : s'.entries i = s.entries i := by
      rw [Fs.entries, hinode]
      rfl
    rw [hentries]
    exact h.holds.erase he.1 he.2.1 (fun y hy => hy.unique he.2.1)
      (fun y => not_hasName hnum y)
      fun e' he' hne => hother e' (entry_lt h.size he') hne

/-- The inode of a directory after an entry has been made. -/
theorem withEntry_same (m : MInode) (e time : ℕ) (hwhole : m.size % 16 = 0) :
    (m.withEntry e time).size = max m.size (16 * (e + 1)) ∧ (m.withEntry e time).zone = m.zone ∧
      (m.withEntry e time).dev = m.dev ∧ (m.withEntry e time).mode = m.mode ∧
      (m.withEntry e time).pipe = m.pipe ∧ (m.withEntry e time).num = m.num := by
  unfold MInode.withEntry
  split_ifs with hbig
  · refine ⟨?_, rfl, rfl, rfl, rfl, rfl⟩
    change 16 * (e + 1) = _
    omega
  · refine ⟨?_, rfl, rfl, rfl, rfl, rfl⟩
    change m.size = _
    omega

/-- The map after a free entry has been given to a name. -/
theorem DirMap.insert (h : DirMap i sb s map) {x : FileName} (hx : map x.entryName = none)
    {num time : ℕ} (hnum : 0 < num) (hnum' : num < 65536) (hle : 16 * e ≤ (s.inode i).size)
    (hlt : e / dirEntriesPerBlock < maxBlock) (hentry : s.HasEntry i e)
    (hfree : 16 * e < (s.inode i).size → s.entryNum i e = 0)
    (hs' : s' = s.put i ((s.inode i).withEntry e time) (s.entryBh i e)
      (setEntryInode (setEntryName (s.freshEntry i e) (e % dirEntriesPerBlock) nameLen
        (padded (min x.1.length nameLen) x.1)) (e % dirEntriesPerBlock) num)) :
    Replied i sb s s' (Function.update map x.entryName (some num)) := by
  obtain ⟨hsize, hzone, hdev, hmode, hpipe, hsame⟩ := withEntry_same (s.inode i) e time h.whole
  have hfresh : EntrySet (s.entryBlock i e) (s.freshEntry i e) (e % dirEntriesPerBlock) 0
      (entryName (s.entryBlock i e) (e % dirEntriesPerBlock)) := by
    unfold Fs.freshEntry
    split_ifs with hbig
    · exact setEntryInode_set _ _ (by decide)
    · exact ⟨hfree (by omega), fun _ _ => rfl, fun _ _ => rfl, fun _ _ _ _ => rfl⟩
  have hset := hfresh.enter (padded (min x.1.length nameLen) x.1) hnum'
  obtain ⟨hgrows, hinode, hself, hname, hother⟩ :=
    put_entry h.toFileZones hlt hentry hzone hdev hmode hpipe hset hs'
  have hmax : 16 * (e + 1) ≤ maxBytes := by
    rw [dirEntriesPerBlock] at hlt
    rw [maxBytes, blockSize]
    omega
  refine ⟨⟨hgrows.zones, ?_, ?_, ?_, ?_⟩, hgrows.dev, hgrows.bits, put_places hsame hs'⟩
  · rw [hinode, hzone]
    exact h.start
  · rw [hinode, hsize]
    exact Nat.max_le.mpr ⟨h.size, hmax⟩
  · rw [hinode, hsize]
    have hwhole := h.whole
    omega
  · rw [← hself]
    refine h.holds.insert hx (e := e) ?_ ?_ (fun he => ?_) (fun y => ?_) fun e' he' hne =>
      hother e' (entry_lt h.size he') hne
    · rw [Fs.entries]
      omega
    · rw [Fs.entries, Fs.entries, hinode, hsize]
      omega
    · rw [Fs.entries] at he
      exact not_hasName (hfree (by omega))
    · rw [hname]
      exact hset.hasName (by omega) y

/-! ### The calls -/

/-- The number of an inode, which is not 0 and fits into an entry. -/
def InodeNum : Type := {n : ℕ // 0 < n ∧ n < 65536}

/-- What is done with a directory. -/
inductive DirCall
  /-- A name is looked up. -/
  | find (name : FileName)
  /-- An entry is made for a name that is not there. -/
  | enter (name : FileName) (num : InodeNum)
  /-- The entry of a name is cleared. -/
  | remove (name : FileName)

/-- `add_entry`, and the number of an inode that is stored in the entry. -/
def addName (dir : ℕ) (name : FileName) (num : ℕ) : K (Except Errno ℕ) := do
  match ← addEntry dir name.1 with
  | none => pure (.error .ENOSPC)
  | some (bh, k) =>
    storeEntry bh k num
    brelse bh
    pure (.ok num)

/-- The name of a call. -/
def DirCall.name : DirCall → FileName
  | .find name | .enter name _ | .remove name => name

/-- The use of `find_entry` and `add_entry` by `namei`, by `sys_link`, and by `sys_unlink`. -/
def DirCall.run (dir : ℕ) : DirCall → K (Except Errno ℕ)
  | .find name => do
    match (← findEntry dir name.1).2 with
    | none => pure (.error .ENOENT)
    | some (bh, k) =>
      let inr ← Prog.read fun s => entryInode (s.data bh) k
      brelse bh
      pure (.ok inr)
  | .enter name num => do
    let found ← findEntry dir name.1
    match found.2 with
    | some (bh, _) =>
      brelse bh
      pure (.error .EEXIST)
    | none => addName found.1 name num.1
  | .remove name => do
    match (← findEntry dir name.1).2 with
    | none => pure (.error .ENOENT)
    | some (bh, k) =>
      let inr ← Prog.read fun s => entryInode (s.data bh) k
      storeEntry bh k 0
      brelse bh
      pure (.ok inr)

/-- Calls one after another. -/
def runDirCalls (dir : ℕ) : List DirCall → K (List (Except Errno ℕ))
  | [] => pure []
  | call :: calls => do
    let r ← call.run dir
    let rs ← runDirCalls dir calls
    pure (r :: rs)

/-- What a finite map answers, and the map after the call. -/
inductive MapAnswers (map : EntryName → Option ℕ) :
    DirCall → Except Errno ℕ → (EntryName → Option ℕ) → Prop
  | found {x : FileName} {num : ℕ} (h : map x.entryName = some num) :
    MapAnswers map (.find x) (.ok num) map
  | missing {x : FileName} (h : map x.entryName = none) :
    MapAnswers map (.find x) (.error .ENOENT) map
  | entered {x : FileName} {num : InodeNum} (h : map x.entryName = none) :
    MapAnswers map (.enter x num) (.ok num.1) (Function.update map x.entryName (some num.1))
  | present {x : FileName} {num : InodeNum} {old : ℕ} (h : map x.entryName = some old) :
    MapAnswers map (.enter x num) (.error .EEXIST) map
  | noSpace {x : FileName} {num : InodeNum} (h : map x.entryName = none) :
    MapAnswers map (.enter x num) (.error .ENOSPC) map
  | removed {x : FileName} {num : ℕ} (h : map x.entryName = some num) :
    MapAnswers map (.remove x) (.ok num) (Function.update map x.entryName none)
  | absent {x : FileName} (h : map x.entryName = none) :
    MapAnswers map (.remove x) (.error .ENOENT) map

/-- Calls that are answered one after another. -/
inductive MapServes : (EntryName → Option ℕ) → List DirCall → List (Except Errno ℕ) →
    (EntryName → Option ℕ) → Prop
  | nil {map : EntryName → Option ℕ} : MapServes map [] [] map
  | cons {map map₁ map₂ : EntryName → Option ℕ} {call : DirCall} {calls : List DirCall}
    {r : Except Errno ℕ} {rs : List (Except Errno ℕ)} (hfirst : MapAnswers map call r map₁)
    (hrest : MapServes map₁ calls rs map₂) : MapServes map (call :: calls) (r :: rs) map₂

/-- What `find_entry` finds is what the map has. -/
theorem DirMap.find (h : DirMap i sb s map) {x : FileName} (hx : s.Ordinary i x) : ∃ r t,
    findEntry i x.1 s = .ok ((i, r), t) ∧ Found i s x.entryName 0 (s.entries i) r t :=
  findEntry_found h.toFileZones h.start h.size hx

/-- The buffer with the entry is given back, and the inode is not stored. -/
theorem put_self (s : Fs) (i : ℕ) (bh : Bh) (d : ℕ → ℕ) : s.put i (s.inode i) bh d =
    ((s.held bh).setData bh d).setCount bh (s.bcount bh) := by
  have hinode := (held_same s bh).inode
  rw [Fs.put, ← hinode, setInode_self]

theorem SameBytes.named (h : SameBytes s s') (he : e / dirEntriesPerBlock < maxBlock)
    (x : EntryName) : s'.Named i e x ↔ s.Named i e x := by
  rw [Fs.Named, h.entryBlock he]
  exact Iff.rfl

/-- Where a search of a directory has ended. -/
theorem DirMap.found (h : DirMap i sb s map) {x : EntryName} {r : Option (Bh × ℕ)}
    (hr : Found i s x 0 (s.entries i) r t) :
    (∃ s' e, SameBytes s s' ∧ DirMap i sb s' map ∧
      SlotTable.IsFirst (s'.Named i) (s'.entries i) x e ∧ s'.HasEntry i e ∧
        r = some (s'.entryBh i e, e % dirEntriesPerBlock) ∧ t = s'.held (s'.entryBh i e)) ∨
      SameBytes s t ∧ DirMap i sb t map ∧ map x = none ∧ r = none := by
  cases hr with
  | found s₁ e hsame hstart hlt hentry hname hfirst =>
    have hentries : s₁.entries i = s.entries i := by
      rw [Fs.entries, (hsame.inode i).size]
      rfl
    have hblock := entry_lt h.size hlt
    refine Or.inl ⟨s₁, e, hsame, h.kept (hsame.dirKept h.toFileZones), ⟨?_, ?_, ?_⟩,
      hsame.hasEntry.mpr hentry, ?_, ?_⟩
    · rwa [hentries]
    · exact (hsame.named hblock x).mpr hname
    · intro e' he' hnamed
      have hlt' := entry_lt h.size (Nat.lt_trans he' hlt)
      exact hfirst e' (Nat.zero_le _) he' ((hsame.named hlt' x).mp hnamed)
    · rw [hsame.entryBh]
    · rw [hsame.entryBh]
  | nothing _ hsame hnone =>
    exact Or.inr ⟨hsame, h.kept (hsame.dirKept h.toFileZones),
      h.holds.none x fun e he => hnone e (Nat.zero_le _) he, rfl⟩

/-- The inode is stored in the entry that has got the name. -/
theorem named_put (s : Fs) (i e num : ℕ) (name : ℕ → ℕ) :
    ((s.named i e name).setData (s.entryBh i e) (setEntryInode
      ((s.named i e name).data (s.entryBh i e)) (e % dirEntriesPerBlock) num)).setCount
        (s.entryBh i e) (s.bcount (s.entryBh i e)) =
      s.put i ((s.inode i).withEntry e s.time) (s.entryBh i e)
        (setEntryInode (setEntryName (s.freshEntry i e) (e % dirEntriesPerBlock) nameLen name)
          (e % dirEntriesPerBlock) num) := by
  simp only [Fs.named, Fs.put, Fs.setData, Function.update_self, Function.update_idem]

/-- What a call has done to a directory. -/
def Answered (i : ℕ) (sb : SuperBlock) (s : Fs) (map : EntryName → Option ℕ) (call : DirCall)
    (r : Except Errno ℕ) (s' : Fs) : Prop :=
  ∃ map', MapAnswers map call r map' ∧ Replied i sb s s' map' ∧
    (r = .error .ENOSPC → Full (s.inode i).dev sb s')

/-- The panic of `_bmap`: one of the calls enters a name, and the directory has the maximal size. -/
def Overgrown (i : ℕ) (calls : List DirCall) (err : Panic) (s' : Fs) : Prop :=
  err = .bmapBlock ∧ (s'.inode i).size = maxBytes ∧ ∃ x num, .enter x num ∈ calls

theorem Overgrown.mono {calls calls' : List DirCall} {err : Panic} (h : Overgrown i calls err s)
    (hsub : calls ⊆ calls') : Overgrown i calls' err s := by
  obtain ⟨herr, hsize, x, num, hmem⟩ := h
  exact ⟨herr, hsize, x, num, hsub hmem⟩

/-- Every call is answered as by the map. -/
theorem DirMap.answers (h : DirMap i sb s map) (call : DirCall) (hx : s.Ordinary i call.name) :
    (call.run i).wp (Answered i sb s map call) (Overgrown i [call]) s := by
  cases call with
  | find x =>
    obtain ⟨r, t, hrun, hfound⟩ := h.find hx
    rw [DirCall.run]
    apply Prog.wp_bind_of_run hrun
    rcases h.found hfound with ⟨s₁, e, hsame, h₁, hfirst, hentry, rfl, rfl⟩ |
      ⟨hsame, -, hnone, rfl⟩
    · dsimp only
      rw [Prog.wp_bind, Prog.wp_read, held_entryBh h₁.bad hentry]
      apply Prog.wp_bind_of_run (brelse_run (held_count s₁ _))
      have hback := hsame.trans (released_sameBytes s₁ (s₁.entryBh i e))
      exact ⟨map, .found (h₁.holds.find hfirst), (hback.dirKept h.toFileZones).replied h,
        fun hno => by cases hno⟩
    · exact ⟨map, .missing hnone, (hsame.dirKept h.toFileZones).replied h,
        fun hno => by cases hno⟩
  | enter x num =>
    obtain ⟨r, t, hrun, hfound⟩ := h.find hx
    rw [DirCall.run]
    apply Prog.wp_bind_of_run hrun
    rcases h.found hfound with ⟨s₁, e, hsame, h₁, hfirst, -, rfl, rfl⟩ | ⟨hsame, h₁, hnone, rfl⟩
    · dsimp only
      apply Prog.wp_bind_of_run (brelse_run (held_count s₁ _))
      have hback := hsame.trans (released_sameBytes s₁ (s₁.entryBh i e))
      exact ⟨map, .present (h₁.holds.find hfirst), (hback.dirKept h.toFileZones).replied h,
        fun hno => by cases hno⟩
    · have hkept := hsame.dirKept h.toFileZones
      dsimp only
      rw [addName]
      have hadd := (addEntry_added h₁.toFileZones h₁.start h₁.size h₁.whole x).mono
        (fun _ _ hadded => hadded)
        fun err t' herr => (⟨herr.1, herr.2, x, num, List.mem_cons_self⟩ :
          Overgrown i [.enter x num] err t')
      refine hadd.bind fun r t' hadded => ?_
      cases hadded with
      | full _ hkept' hfull =>
        refine ⟨map, .noSpace hnone, (hkept.trans hkept').replied h, fun _ => ?_⟩
        rwa [← hkept.dev, ← hkept'.dev]
      | added s₂ e hkept' hle hlt hentry hfree =>
        have h₂ := h₁.kept hkept'
        have hnum : s₂.entryNum i e = t.entryNum i e := by
          have hblock : s₂.entryBlock i e = t.entryBlock i e := hkept'.data _ (leaf_path hlt)
          rw [Fs.entryNum, hblock]
          rfl
        rw [← hkept'.size] at hle hfree
        rw [← hnum] at hfree
        dsimp only
        rw [storeEntry, modifyData, Prog.wp_bind, Prog.wp_update]
        apply Prog.wp_bind_of_run (brelse_run (n := s₂.bcount (s₂.entryBh i e)) ?_)
        · have hstored := h₂.insert hnone num.2.1 num.2.2 hle hlt hentry hfree
            (named_put s₂ i e num.1 _)
          exact ⟨_, .entered hnone, ((hkept.trans hkept').replied h).trans hstored,
            fun hno => by cases hno⟩
        · exact held_count s₂ _
  | remove x =>
    obtain ⟨r, t, hrun, hfound⟩ := h.find hx
    rw [DirCall.run]
    apply Prog.wp_bind_of_run hrun
    rcases h.found hfound with ⟨s₁, e, hsame, h₁, hfirst, hentry, rfl, rfl⟩ |
      ⟨hsame, -, hnone, rfl⟩
    · dsimp only
      rw [Prog.wp_bind, Prog.wp_read, storeEntry, modifyData, Prog.wp_bind, Prog.wp_update,
        held_entryBh h₁.bad hentry]
      apply Prog.wp_bind_of_run (brelse_run (n := s₁.bcount (s₁.entryBh i e)) ?_)
      · have hstored := h₁.erase hfirst hentry (put_self s₁ i _ _).symm
        exact ⟨_, .removed (h₁.holds.find hfirst),
          ((hsame.dirKept h.toFileZones).replied h).trans hstored, fun hno => by cases hno⟩
      · exact held_count s₁ _
    · exact ⟨map, .absent hnone, (hsame.dirKept h.toFileZones).replied h,
        fun hno => by cases hno⟩

/-! ### Runs -/

/-- The induction over the calls. -/
theorem runDirCalls_wp (h : DirMap i sb s map) (calls : List DirCall)
    (hx : ∀ call ∈ calls, s.Ordinary i call.name) :
    (runDirCalls i calls).wp
      (fun rs s' => ∃ map', MapServes map calls rs map' ∧ Replied i sb s s' map' ∧
        (.error .ENOSPC ∈ rs → Full (s.inode i).dev sb s')) (Overgrown i calls) s := by
  induction calls generalizing s map with
  | nil =>
    exact ⟨map, .nil, ⟨h, rfl, fun _ hk => hk, samePlaces_frame.refl s⟩, fun hmem => by cases hmem⟩
  | cons call calls ih =>
    rw [runDirCalls]
    have hcall := (h.answers call (hx call List.mem_cons_self)).mono (fun _ _ hr => hr)
      fun _ _ herr => herr.mono (List.cons_subset_cons call (List.nil_subset calls))
    refine hcall.bind fun r s₁ hr => ?_
    obtain ⟨map₁, hfirst, hreplied, hfull⟩ := hr
    have hx₁ : ∀ call ∈ calls, s₁.Ordinary i call.name := fun call hcall =>
      hreplied.places.ordinary (hx call (List.mem_cons_of_mem _ hcall))
    have hcalls := (ih hreplied.dir hx₁).mono (fun _ _ hrs => hrs)
      fun _ _ herr => herr.mono (List.subset_cons_self call calls)
    refine hcalls.bind fun rs s₂ hrs => ?_
    obtain ⟨map₂, hrest, hreplied₂, hfull₂⟩ := hrs
    refine ⟨map₂, .cons hfirst hrest, hreplied.trans hreplied₂, fun hmem => ?_⟩
    rcases List.mem_cons.mp hmem with heq | hmem
    · have hearly := hfull heq.symm
      rw [← hreplied.dev] at hearly ⊢
      exact hreplied₂.full hearly
    · have hlate := hfull₂ hmem
      rwa [hreplied.dev] at hlate

/-- A directory is a finite map from names to inodes. Names are looked up, entered and removed in
any order, but for `..` in a root: every call is answered as the map answers it, and leaves the
directory with the map after the call, where a name is refused for lack of space only by a full
device. The only way for the kernel to panic is to enter a name in a directory of the maximal
size. -/
theorem runDirCalls_map (h : DirMap i sb s map) (calls : List DirCall)
    (hx : ∀ call ∈ calls, s.Ordinary i call.name) :
    (∀ rs s', runDirCalls i calls s = .ok (rs, s') → ∃ map', DirMap i sb s' map' ∧
      MapServes map calls rs map' ∧ (.error .ENOSPC ∈ rs → Full (s.inode i).dev sb s')) ∧
      ∀ err s', runDirCalls i calls s = .error (err, s') →
        err = .bmapBlock ∧ (s'.inode i).size = maxBytes ∧ ∃ x num, .enter x num ∈ calls := by
  constructor
  · intro rs s' hrun
    obtain ⟨map', hserves, hreplied, hfull⟩ := (runDirCalls_wp h calls hx).of_ok hrun
    exact ⟨map', hreplied.dir, hserves, hfull⟩
  · exact fun err s' hrun => (runDirCalls_wp h calls hx).of_error hrun

/-! ### A small directory -/

/-- A directory with one block and no entries. -/
def blankDir : Fs :=
  { pairedFiles with
    zmap := fun _ k => decide (k ≤ 1)
    inode := fun _ => { MInode.zero with
      mode := 0o040755, nlinks := 2, dev := 0x301, num := 2, count := 1
      zone := fun n => if n = 0 then 5 else 0 } }

theorem blankDir_zoneIn {x : ℕ × List ℕ} (hx : x ∈ zoneSlots) (hne : blankDir.zoneIn 0 x ≠ 0) :
    x = (0, []) := by
  obtain ⟨n, p⟩ := x
  by_cases hn : n = 0
  · subst hn
    have hlen : p.length ≤ 0 - 6 := hx.2.1
    have hnil : p = [] := List.length_eq_zero_iff.mp (by omega)
    rw [hnil]
  · have hzero : (blankDir.inode 0).zone n = 0 := if_neg hn
    apply absurd _ hne
    change IndexTree.follow _ ((blankDir.inode 0).zone n) p = 0
    rw [hzero, IndexTree.follow_zero]

theorem blankDir_map : DirMap 0 (blankDir.super 0) blankDir fun _ => none := by
  have hrefers : ∀ z, blankDir.Refers 0 z → z = 5 := by
    rintro z ⟨hz, x, hx, hxz⟩
    rw [← hxz] at hz
    rw [blankDir_zoneIn hx hz] at hxz
    exact hxz.symm
  refine ⟨⟨⟨rfl, by decide, rfl, fun _ => rfl, ?_, fun z hz => ?_⟩, by decide, fun _ _ => rfl,
    fun z hz => ?_⟩, by decide, by decide, by decide, ⟨?_, ?_, fun _ _ => rfl⟩⟩
  · intro x hx y hy hne heq
    have hne' : blankDir.zoneIn 0 y ≠ 0 := by
      rwa [show blankDir.zoneIn 0 y = blankDir.zoneIn 0 x from heq.symm]
    rw [blankDir_zoneIn hx hne, blankDir_zoneIn hy hne']
  · rw [hrefers z hz]
    exact ⟨by decide, by decide⟩
  · rw [hrefers z hz]
    exact ⟨by decide, by decide⟩
  · exact fun _ e _ he => absurd he (Nat.not_lt_zero e)
  · exact fun e _ he => absurd he (Nat.not_lt_zero e)

/-- The name `a`. -/
def nameA : FileName := ⟨[97], by decide⟩

/-- The name `ab`. -/
def nameAB : FileName := ⟨[97, 98], by decide⟩

/-- The name `..`. -/
def dots : FileName := ⟨[46, 46], by decide⟩

/-- The name `ab` takes the place of `a`, which has been removed. -/
def sampleDirCalls : List DirCall :=
  [.enter dots ⟨1, by decide⟩, .enter nameA ⟨7, by decide⟩, .find nameAB, .remove nameA,
    .enter nameAB ⟨300, by decide⟩, .find nameA, .find nameAB, .enter nameAB ⟨8, by decide⟩,
    .find dots]

/-- What the calls return. -/
def sampleReplies : List (Except Errno ℕ) :=
  [.ok 1, .ok 7, .error .ENOENT, .ok 7, .ok 300, .error .ENOENT, .ok 300, .error .EEXIST, .ok 1]

/-- The calls are answered as by a map. -/
theorem runDirCalls_map_sample : ∃ s' map', DirMap 0 (blankDir.super 0) s' map' ∧
    MapServes (fun _ => none) sampleDirCalls sampleReplies map' := by
  have hx : ∀ call ∈ sampleDirCalls, blankDir.Ordinary 0 call.name :=
    fun _ _ _ => ⟨by decide, by decide⟩
  obtain ⟨s', hrun⟩ := exists_of_resultOf (s := blankDir) (m := runDirCalls 0 sampleDirCalls)
    (a := sampleReplies) (by decide +kernel)
  obtain ⟨map', hdir, hserves, -⟩ := (runDirCalls_map blankDir_map sampleDirCalls hx).1 _ _ hrun
  exact ⟨s', map', hdir, hserves⟩

/-- Two entries are made without a search, and the second name is looked up. -/
def addTwice (name name' : FileName) (num num' : ℕ) : K (Except Errno ℕ) := do
  let _ ← addName 0 name num
  let _ ← addName 0 name' num'
  (DirCall.find name').run 0

/-- If nobody looks whether a name is there, `add_entry` makes a second entry for it, and the first
one is found. In the root of the task, `.` is found for `..`. -/
theorem addTwice_first :
    resultOf (addTwice nameA nameA 7 8) blankDir = some (.ok 7) ∧
      resultOf (addTwice ⟨[46], by decide⟩ dots 7 8)
        { blankDir with task := fun t => { blankDir.task t with root := some 0 } } =
          some (.ok 7) := by
  constructor
  · decide +kernel
  · decide +kernel

end LihaLinux.Files
