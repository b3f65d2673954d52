import LihaLinux.Files.BufferRefs

/-!
# Buffer references of the calls

The calls that work with path names, typed with the buffers that they hold, from the inode
table up to the system calls.
-/

namespace LihaLinux.Files

/-! ### The inode table -/

theorem incCount_refs (inode : ℕ) : Refs (incCount inode) [] fun _ => [] :=
  modifyInode_refs ..

theorem decCount_refs (inode : ℕ) : Refs (decCount inode) [] fun _ => [] :=
  modifyInode_refs ..

theorem readInode_refs (inode : ℕ) : Refs (readInode inode) [] fun _ => [] := by
  refine (Owns.read _).next fun m => (getSuper_refs m.dev).next fun sb => ?_
  cases sb with
  | none => exact Refs.fail (by decide)
  | some sb =>
    refine (bread_refs ..).bind fun bh => ?_
    cases bh with
    | none => exact Refs.fail (by decide)
    | some bh =>
      exact Owns.next (Refs.update (fun _ => rfl) (fun _ => rfl) fun _ => rfl) fun _ =>
        brelse_refs bh

theorem writeInode_refs (inode : ℕ) : Refs (writeInode inode) [] fun _ => [] := by
  refine (Owns.read _).next fun m => Owns.ite (fun _ => Owns.pure rfl) fun _ => ?_
  refine (getSuper_refs m.dev).next fun sb => ?_
  cases sb with
  | none => exact Refs.fail (by decide)
  | some sb =>
    refine (bread_refs ..).bind fun bh => ?_
    cases bh with
    | none => exact Refs.fail (by decide)
    | some bh =>
      refine Owns.next (Refs.update (fun _ => rfl) (fun _ => rfl) fun _ => rfl) fun _ => ?_
      exact (modifyInode_refs ..).next fun _ => brelse_refs bh

theorem syncInodes_refs (n i : ℕ) : Refs (syncInodes n i) [] fun _ => [] := by
  induction n generalizing i with
  | zero => exact Owns.pure rfl
  | succ n ih =>
    refine (Owns.read _).next fun m => Owns.next ?_ fun _ => ih (i + 1)
    exact Owns.when fun _ => writeInode_refs i

theorem syncDev_refs (dev : ℕ) : Refs (syncDev dev) [] fun _ => [] := by
  have hbuffers : Refs (syncBuffers dev) [] fun _ => [] :=
    Refs.update (fun _ => rfl) (fun _ => rfl) fun _ => rfl
  exact hbuffers.next fun _ => (syncInodes_refs ..).next fun _ => hbuffers

theorem freeInode_refs (inode : ℕ) : Refs (freeInode inode) [] fun _ => [] := by
  refine (Owns.read _).next fun m => Owns.ite (fun _ => modifyInode_refs ..) fun _ => ?_
  refine Owns.ite (fun _ => Refs.fail (by decide)) fun _ => ?_
  refine Owns.ite (fun _ => Refs.fail (by decide)) fun _ => ?_
  refine (getSuper_refs m.dev).next fun sb => ?_
  cases sb with
  | none => exact Refs.fail (by decide)
  | some sb =>
    refine Owns.ite (fun _ => Refs.fail (by decide)) fun _ => ?_
    refine Owns.ite (fun _ => Refs.fail (by decide)) fun _ => ?_
    exact Owns.next (Refs.update (fun _ => rfl) (fun _ => rfl) fun _ => rfl) fun _ =>
      modifyInode_refs ..

theorem iputFile_refs (inode : ℕ) : Refs (iputFile inode) [] fun _ => [] := by
  refine (Owns.read _).next fun m => Owns.ite (fun _ => decCount_refs inode) fun _ => ?_
  refine Owns.ite (fun _ => ?_) fun _ => ?_
  · exact (truncate_refs inode).next fun _ => freeInode_refs inode
  · exact (writeInode_refs inode).next fun _ => decCount_refs inode

theorem iput_refs (inode : ℕ) : Refs (iput inode) [] fun _ => [] := by
  refine (Owns.read _).next fun m => Owns.ite (fun _ => Refs.fail (by decide)) fun _ => ?_
  refine Owns.ite (fun _ => ?_) fun _ => Owns.ite (fun _ => decCount_refs inode) fun _ => ?_
  · exact Owns.ite (fun _ => modifyInode_refs ..) fun _ => decCount_refs inode
  · exact Owns.next (Owns.when fun _ => syncDev_refs _) fun _ => iputFile_refs inode

theorem getEmptyInode_refs : Refs getEmptyInode [] fun _ => [] := by
  refine (Owns.read _).next fun picked => ?_
  refine Owns.next (Refs.update (fun _ => rfl) (fun _ => rfl) fun _ => rfl) fun _ => ?_
  rcases picked with ⟨last, _ | inode⟩
  · exact Refs.fail (by decide)
  · refine (Owns.read _).next fun m => Owns.ite (fun _ => Refs.fail (by decide)) fun _ => ?_
    refine (writeInode_refs inode).next fun _ => (modifyInode_refs ..).next fun _ => ?_
    exact Owns.pure rfl

theorem igetLoop_refs (empty n dev nr : ℕ) : Refs (igetLoop empty n dev nr) [] fun _ => [] := by
  induction n generalizing dev nr with
  | zero => exact Refs.fail (by decide)
  | succ n ih =>
    refine (Owns.read _).next fun found => ?_
    cases found with
    | none =>
      exact (modifyInode_refs ..).next fun _ => (readInode_refs empty).next fun _ => Owns.pure rfl
    | some inode =>
      have hgive : Refs (iput empty >>= fun _ => Pure.pure inode) [] fun _ => [] :=
        (iput_refs empty).next fun _ => Owns.pure rfl
      refine (incCount_refs inode).next fun _ => (Owns.read _).next fun m => ?_
      refine Owns.ite (fun _ => (Owns.read _).next fun k => ?_) fun _ => hgive
      cases k with
      | none => exact hgive
      | some k => exact (iput_refs inode).next fun _ => (Owns.read _).next fun dev => ih dev rootIno

theorem iget_refs (dev nr : ℕ) : Refs (iget dev nr) [] fun _ => [] := by
  refine Owns.ite (fun _ => Refs.fail (by decide)) fun _ => ?_
  exact getEmptyInode_refs.next fun empty => igetLoop_refs ..

theorem setImapBit_refs (dev j : ℕ) : Refs (setImapBit dev j) [] fun _ => [] := by
  refine (Owns.read _).next fun bit => Owns.ite (fun _ => Refs.fail (by decide)) fun _ => ?_
  exact Refs.update (fun _ => rfl) (fun _ => rfl) fun _ => rfl

theorem newInode_refs (dev : ℕ) : Refs (newInode dev) [] fun _ => [] := by
  refine getEmptyInode_refs.next fun inode => (getSuper_refs dev).next fun sb => ?_
  cases sb with
  | none => exact Refs.fail (by decide)
  | some sb =>
    have hnone : Refs (iput inode >>= fun _ => Pure.pure (none : Option ℕ)) [] fun _ => [] :=
      (iput_refs inode).next fun _ => Owns.pure rfl
    refine (Owns.read _).next fun j => ?_
    cases j with
    | none => exact hnone
    | some j =>
      refine Owns.ite (fun _ => hnone) fun _ => (setImapBit_refs dev j).next fun _ => ?_
      refine (Owns.read _).next fun p => (Owns.read _).next fun time => ?_
      exact (modifyInode_refs ..).next fun _ => Owns.pure rfl

/-! ### Directories -/

/-- The buffer at which the loop over the entries of a directory stands. -/
def DirPos.held : DirPos → List Bh
  | .entry bh _ => [bh]
  | .skip => []
  | .full => []

/-- The buffer of a directory entry. -/
def heldEntry (res : Option (Bh × ℕ)) : List Bh := (res.map Prod.fst).toList

theorem dirPos_refs (dir : ℕ) (create : Bool) (i : ℕ) (bh : Option Bh) (k : ℕ) :
    Refs (dirPos dir create i bh k) bh.toList DirPos.held := by
  have hnext : Refs (brelseOpt bh >>= fun _ => dirPos dir create i none k) bh.toList
      DirPos.held := by
    refine (brelseOpt_refs bh).bind fun _ => Owns.next (Owns.pure rfl) fun _ => ?_
    refine (bmapBlock_refs ..).next fun block => Owns.ite (fun _ => Owns.pure ?_) fun _ => ?_
    · cases create <;> rfl
    · refine (Owns.read _).next fun dev => (bread_refs dev block).bind fun found => ?_
      cases found with
      | none => exact Owns.pure rfl
      | some found => exact Owns.pure rfl
  unfold dirPos
  cases bh with
  | none => exact hnext
  | some bh =>
    by_cases hk : k < dirEntriesPerBlock
    · simp only [hk, decide_true]
      exact Owns.pure rfl
    · simp only [hk, decide_false]
      exact hnext

theorem findLoop_refs (dir namelen : ℕ) (name : List ℕ) (entries n i : ℕ) (bh : Option Bh)
    (k : ℕ) : Refs (findLoop dir namelen name entries n i bh k) bh.toList heldEntry := by
  have hnone : ∀ bh : Option Bh,
      Refs (brelseOpt bh >>= fun _ => Pure.pure none) bh.toList heldEntry :=
    fun bh => (brelseOpt_refs bh).bind fun _ => Owns.pure rfl
  induction n generalizing i bh k with
  | zero => exact hnone bh
  | succ n ih =>
    refine Owns.ite (fun _ => hnone bh) fun _ => (dirPos_refs ..).bind fun pos => ?_
    cases pos with
    | entry bh k =>
      exact (Owns.read _).next fun d => Owns.ite (fun _ => Owns.pure rfl) fun _ => ih ..
    | skip => exact ih ..
    | full => exact ih ..

theorem dotDot_refs (dir : ℕ) (name : List ℕ) (namelen : ℕ) :
    Refs (dotDot dir name namelen) [] fun _ => [] := by
  refine (Owns.read _).next fun p => (Owns.read _).next fun m => ?_
  refine Owns.ite (fun _ => Owns.ite (fun _ => Owns.pure rfl) fun _ => ?_) fun _ => Owns.pure rfl
  refine Owns.ite (fun _ => (getSuper_refs m.dev).next fun sb => ?_) fun _ => Owns.pure rfl
  cases sb with
  | none => exact Refs.fail (by decide)
  | some sb =>
    dsimp only
    rcases sb.imount with _ | mounted
    · exact Owns.pure rfl
    · exact (iput_refs dir).next fun _ => (incCount_refs mounted).next fun _ => Owns.pure rfl

theorem findIn_refs (dir namelen : ℕ) (name : List ℕ) (entries : ℕ) :
    Refs (findIn dir namelen name entries) [] heldEntry := by
  refine (Owns.read _).next fun m => Owns.ite (fun _ => Owns.pure rfl) fun _ => ?_
  refine (bread_refs ..).bind fun bh => ?_
  cases bh with
  | none => exact Owns.pure rfl
  | some bh => exact findLoop_refs dir namelen name entries entries 0 (some bh) 0

theorem findEntry_refs (dir : ℕ) (name : List ℕ) :
    Refs (findEntry dir name) [] fun r => heldEntry r.2 := by
  refine (Owns.read _).next fun entries => Owns.ite (fun _ => Owns.pure rfl) fun _ => ?_
  exact (dotDot_refs ..).next fun r => (findIn_refs ..).bind fun res => Owns.pure rfl

theorem addLoop_refs (dir namelen : ℕ) (name : List ℕ) (n i : ℕ) (bh : Option Bh) (k : ℕ) :
    Refs (addLoop dir namelen name n i bh k) bh.toList heldEntry := by
  induction n generalizing i bh k with
  | zero => exact Refs.fail (by decide)
  | succ n ih =>
    refine (dirPos_refs ..).bind fun pos => ?_
    cases pos with
    | full => exact Owns.pure rfl
    | skip => exact ih ..
    | entry bh k =>
      refine (Owns.read _).next fun size => (Owns.read _).next fun time => ?_
      refine Owns.next (Owns.when fun _ => ?_) fun _ => (Owns.read _).next fun inr => ?_
      · exact (modifyData_refs ..).next fun _ => modifyInode_refs ..
      · refine Owns.ite (fun _ => ?_) fun _ => ih ..
        refine (modifyInode_refs ..).next fun _ => (modifyData_refs ..).next fun _ => ?_
        exact Owns.pure rfl

theorem addEntry_refs (dir : ℕ) (name : List ℕ) : Refs (addEntry dir name) [] heldEntry := by
  refine Owns.ite (fun _ => Owns.pure rfl) fun _ => (Owns.read _).next fun m => ?_
  refine Owns.ite (fun _ => Owns.pure rfl) fun _ => (bread_refs ..).bind fun bh => ?_
  cases bh with
  | none => exact Owns.pure rfl
  | some bh => exact addLoop_refs _ _ _ _ 0 (some bh) 0

/-! ### Path names -/

theorem permission_refs (inode mask : ℕ) : Refs (permission inode mask) [] fun _ => [] :=
  Owns.read _

theorem getEntry_refs (dir : ℕ) (bh : Bh) (k : ℕ) : Refs (getEntry dir bh k) [bh] fun _ => [] := by
  refine (Owns.read _).next fun inr => (Owns.read _).next fun dev => ?_
  exact (brelse_refs bh).bind fun _ => (iput_refs dir).next fun _ => iget_refs ..

/-- The end of a lookup that has found nothing. -/
theorem iput_none_refs {α : Type} (inode : ℕ) (a : α) :
    Refs (iput inode >>= fun _ => Pure.pure a) [] fun _ => [] :=
  (iput_refs inode).next fun _ => Owns.pure rfl

theorem getDirLoop_refs (n inode : ℕ) (pathname : List ℕ) :
    Refs (getDirLoop n inode pathname) [] fun _ => [] := by
  induction n generalizing inode pathname with
  | zero => exact Refs.fail (by decide)
  | succ n ih =>
    refine (Owns.read _).next fun m => (permission_refs ..).next fun may => ?_
    refine Owns.ite (fun _ => ?_) fun _ => iput_none_refs ..
    rcases splitName pathname with ⟨thisname, _ | rest⟩
    · exact Owns.pure rfl
    · refine (findEntry_refs ..).bind fun r => ?_
      rcases r with ⟨dir, _ | ⟨bh, k⟩⟩
      · exact iput_none_refs ..
      · exact (getEntry_refs ..).bind fun inode => ih inode rest

theorem getDir_refs (pathname : List ℕ) : Refs (getDir pathname) [] fun _ => [] := by
  refine (Owns.read _).next fun p => (Owns.read _).next fun inodes => ?_
  rcases p.root with _ | root
  · exact Refs.fail (by decide)
  · rcases p.pwd with _ | pwd
    · exact Refs.fail (by decide)
    · refine Owns.ite (fun _ => Refs.fail (by decide)) fun _ => ?_
      refine Owns.ite (fun _ => Refs.fail (by decide)) fun _ => ?_
      cases pathname with
      | nil => exact Owns.pure rfl
      | cons c rest =>
        refine Owns.ite (fun _ => ?_) fun _ => ?_
        · exact (incCount_refs root).next fun _ => getDirLoop_refs ..
        · exact (incCount_refs pwd).next fun _ => getDirLoop_refs ..

theorem dirNamei_refs (pathname : List ℕ) : Refs (dirNamei pathname) [] fun _ => [] := by
  refine (getDir_refs pathname).next fun dir => ?_
  cases dir with
  | none => exact Owns.pure rfl
  | some dir => exact Owns.pure rfl

theorem namei_refs (pathname : List ℕ) : Refs (namei pathname) [] fun _ => [] := by
  refine (dirNamei_refs pathname).next fun r => ?_
  rcases r with _ | ⟨dir, basename⟩
  · exact Owns.pure rfl
  · refine Owns.ite (fun _ => Owns.pure rfl) fun _ => (findEntry_refs ..).bind fun r => ?_
    rcases r with ⟨dir, _ | ⟨bh, k⟩⟩
    · exact iput_none_refs ..
    · refine (getEntry_refs ..).bind fun inode => (Owns.read _).next fun time => ?_
      exact (modifyInode_refs ..).next fun _ => Owns.pure rfl

/-! ### `open_namei` -/

theorem storeEntry_refs (bh : Bh) (k num : ℕ) : Refs (storeEntry bh k num) [] fun _ => [] :=
  modifyData_refs ..

theorem openCreate_refs (dir : ℕ) (basename : List ℕ) (mode : ℕ) :
    Refs (openCreate dir basename mode) [] fun _ => [] := by
  refine (permission_refs ..).next fun may => Owns.ite (fun _ => ?_) fun _ => iput_none_refs ..
  refine (Owns.read _).next fun dev => (newInode_refs dev).next fun inode => ?_
  cases inode with
  | none => exact iput_none_refs ..
  | some inode =>
    refine (Owns.read _).next fun p => (modifyInode_refs ..).next fun _ => ?_
    refine (addEntry_refs ..).bind fun res => ?_
    rcases res with _ | ⟨bh, k⟩
    · refine (modifyInode_refs ..).next fun _ => (iput_refs inode).next fun _ => ?_
      exact iput_none_refs ..
    · refine (Owns.read _).next fun num => (storeEntry_refs ..).next fun _ => ?_
      exact (brelse_refs bh).bind fun _ => iput_none_refs ..

theorem openExisting_refs (dir : ℕ) (bh : Bh) (k flag : ℕ) :
    Refs (openExisting dir bh k flag) [bh] fun _ => [] := by
  refine (Owns.read _).next fun inr => (Owns.read _).next fun dev => ?_
  refine (brelse_refs bh).bind fun _ => (iput_refs dir).next fun _ => ?_
  refine Owns.ite (fun _ => Owns.pure rfl) fun _ => (iget_refs ..).next fun inode => ?_
  refine (Owns.read _).next fun m => (permission_refs ..).next fun may => ?_
  refine Owns.ite (fun _ => iput_none_refs ..) fun _ => (Owns.read _).next fun time => ?_
  refine (modifyInode_refs ..).next fun _ => Owns.next ?_ fun _ => Owns.pure rfl
  exact Owns.when fun _ => truncate_refs inode

theorem openNamei_refs (pathname : List ℕ) (flag mode : ℕ) :
    Refs (openNamei pathname flag mode) [] fun _ => [] := by
  refine (Owns.read _).next fun umask => (dirNamei_refs pathname).next fun r => ?_
  rcases r with _ | ⟨dir, basename⟩
  · exact Owns.pure rfl
  · refine Owns.ite (fun _ => ?_) fun _ => (findEntry_refs ..).bind fun r => ?_
    · exact Owns.ite (fun _ => Owns.pure rfl) fun _ => iput_none_refs ..
    · rcases r with ⟨dir, _ | ⟨bh, k⟩⟩
      · exact Owns.ite (fun _ => openCreate_refs ..) fun _ => iput_none_refs ..
      · exact openExisting_refs ..

/-! ### Calls that change directories -/

theorem createIn_refs {make : ℕ → K Status} (hmake : ∀ dir, Refs (make dir) [] fun _ => [])
    (dir : ℕ) (basename : List ℕ) (e : Errno) :
    Refs (createIn dir basename e make) [] fun _ => [] := by
  refine Owns.ite (fun _ => iput_none_refs ..) fun _ => (permission_refs ..).next fun may => ?_
  refine Owns.ite (fun _ => (findEntry_refs ..).bind fun r => ?_) fun _ => iput_none_refs ..
  rcases r with ⟨dir, _ | ⟨bh, k⟩⟩
  · exact hmake dir
  · exact (brelse_refs bh).bind fun _ => iput_none_refs ..

theorem mknodIn_refs (basename : List ℕ) (mode device dir : ℕ) :
    Refs (mknodIn basename mode device dir) [] fun _ => [] := by
  refine (Owns.read _).next fun dev => (newInode_refs dev).next fun inode => ?_
  cases inode with
  | none => exact iput_none_refs ..
  | some inode =>
    refine (Owns.read _).next fun time => (modifyInode_refs ..).next fun _ => ?_
    refine (addEntry_refs ..).bind fun res => ?_
    rcases res with _ | ⟨bh, k⟩
    · refine (iput_refs dir).next fun _ => (modifyInode_refs ..).next fun _ => ?_
      exact iput_none_refs ..
    · refine (Owns.read _).next fun num => (storeEntry_refs ..).next fun _ => ?_
      refine (iput_refs dir).next fun _ => (iput_refs inode).next fun _ => ?_
      exact (brelse_refs bh).bind fun _ => Owns.pure rfl

theorem sysMknod_refs (filename : List ℕ) (mode device : ℕ) :
    Refs (sysMknod filename mode device) [] fun _ => [] := by
  refine (Owns.read _).next fun p => Owns.ite (fun _ => ?_) fun _ => Owns.pure rfl
  refine (dirNamei_refs filename).next fun r => ?_
  rcases r with _ | ⟨dir, basename⟩
  · exact Owns.pure rfl
  · exact createIn_refs (fun dir => mknodIn_refs ..) ..

theorem mkdirEntry_refs (basename : List ℕ) (dir inode : ℕ) :
    Refs (mkdirEntry basename dir inode) [] fun _ => [] := by
  refine (addEntry_refs ..).bind fun res => ?_
  rcases res with _ | ⟨bh, k⟩
  · refine (iput_refs dir).next fun _ => (Owns.read _).next fun m => ?_
    refine (freeBlock_refs ..).next fun _ => (modifyInode_refs ..).next fun _ => ?_
    exact iput_none_refs ..
  · refine (Owns.read _).next fun num => (storeEntry_refs ..).next fun _ => ?_
    refine (modifyInode_refs ..).next fun _ => (iput_refs dir).next fun _ => ?_
    exact (iput_refs inode).next fun _ => (brelse_refs bh).bind fun _ => Owns.pure rfl

theorem mkdirIn_refs (basename : List ℕ) (mode dir : ℕ) :
    Refs (mkdirIn basename mode dir) [] fun _ => [] := by
  refine (Owns.read _).next fun dev => (newInode_refs dev).next fun inode => ?_
  cases inode with
  | none => exact iput_none_refs ..
  | some inode =>
    refine (Owns.read _).next fun time => (modifyInode_refs ..).next fun _ => ?_
    refine (newBlock_refs dev).next fun zone => (modifyInode_refs ..).next fun _ => ?_
    refine Owns.ite (fun _ => ?_) fun _ => (modifyInode_refs ..).next fun _ => ?_
    · refine (iput_refs dir).next fun _ => (modifyInode_refs ..).next fun _ => ?_
      exact iput_none_refs ..
    · refine (bread_refs dev zone).bind fun bh => ?_
      cases bh with
      | none =>
        refine (iput_refs dir).next fun _ => (freeBlock_refs ..).next fun _ => ?_
        exact (modifyInode_refs ..).next fun _ => iput_none_refs ..
      | some bh =>
        refine (Owns.read _).next fun num => (Owns.read _).next fun parent => ?_
        refine (modifyData_refs ..).next fun _ => (modifyInode_refs ..).next fun _ => ?_
        refine (brelse_refs bh).bind fun _ => (Owns.read _).next fun umask => ?_
        exact (modifyInode_refs ..).next fun _ => mkdirEntry_refs ..

theorem sysMkdir_refs (pathname : List ℕ) (mode : ℕ) :
    Refs (sysMkdir pathname mode) [] fun _ => [] := by
  refine (Owns.read _).next fun p => Owns.ite (fun _ => ?_) fun _ => Owns.pure rfl
  refine (dirNamei_refs pathname).next fun r => ?_
  rcases r with _ | ⟨dir, basename⟩
  · exact Owns.pure rfl
  · exact createIn_refs (fun dir => mkdirIn_refs ..) ..

/-- A block that is not there is where `empty_dir` goes on with a buffer it has released. -/
theorem emptyLoop_refs (dir len n nr : ℕ) (bh : Bh) (k : ℕ) :
    Refs (emptyLoop dir len n nr bh k) [bh] fun _ => [] := by
  have hend : ∀ (bh : Bh) (b : Bool), Refs (brelse bh >>= fun _ => Pure.pure b) [bh] fun _ => [] :=
    fun bh b => (brelse_refs bh).bind fun _ => Owns.pure rfl
  induction n generalizing nr bh k with
  | zero => exact hend ..
  | succ n ih =>
    refine Owns.ite (fun _ => hend ..) fun _ => Owns.ite (fun _ => ?_) fun _ => ?_
    · exact (Owns.read _).next fun inr => Owns.ite (fun _ => hend ..) fun _ => ih ..
    · refine (brelse_refs bh).bind fun _ => (bmapBlock_refs ..).next fun block => ?_
      refine Owns.ite (fun _ => (releaseTwice_refs bh).bind fun _ => ih ..) fun _ => ?_
      refine (Owns.read _).next fun dev => (bread_refs dev block).bind fun found => ?_
      cases found with
      | none => exact Owns.pure rfl
      | some found =>
        exact (Owns.read _).next fun inr => Owns.ite (fun _ => hend ..) fun _ => ih ..

/-- A bad directory is where `empty_dir` forgets its buffer. -/
theorem emptyDir_refs (inode : ℕ) : Refs (emptyDir inode) [] fun _ => [] := by
  refine (Owns.read _).next fun m => Owns.ite (fun _ => Owns.pure rfl) fun _ => ?_
  refine (bread_refs ..).bind fun bh => ?_
  cases bh with
  | none => exact Owns.pure rfl
  | some bh =>
    refine (Owns.read _).next fun d => Owns.ite (fun _ => emptyLoop_refs ..) fun _ => ?_
    exact (leak_refs bh).bind fun _ => Owns.pure rfl

theorem leaveEntry_refs (dir inode : ℕ) (bh : Bh) (e : Errno) :
    Refs (leaveEntry dir inode bh e) [bh] fun _ => [] := by
  refine (iput_refs dir).next fun _ => (iput_refs inode).next fun _ => ?_
  exact (brelse_refs bh).bind fun _ => Owns.pure rfl

theorem leaveInode_refs (dir inode : ℕ) (bh : Bh) (e : Errno) :
    Refs (leaveInode dir inode bh e) [bh] fun _ => [] := leaveEntry_refs inode dir bh e

theorem removeFrom_refs {remove : ℕ → ℕ → Bh → ℕ → K Status}
    (hremove : ∀ dir inode bh k, Refs (remove dir inode bh k) [bh] fun _ => [])
    (pathname : List ℕ) : Refs (removeFrom pathname remove) [] fun _ => [] := by
  refine (dirNamei_refs pathname).next fun r => ?_
  rcases r with _ | ⟨dir, basename⟩
  · exact Owns.pure rfl
  · refine Owns.ite (fun _ => iput_none_refs ..) fun _ => (permission_refs ..).next fun may => ?_
    refine Owns.ite (fun _ => (findEntry_refs ..).bind fun r => ?_) fun _ => iput_none_refs ..
    rcases r with ⟨dir, _ | ⟨bh, k⟩⟩
    · exact iput_none_refs ..
    · refine (Owns.read _).next fun inr => (Owns.read _).next fun dev => ?_
      exact (iget_refs dev inr).next fun inode => hremove ..

theorem rmdirEntry_refs (dir inode : ℕ) (bh : Bh) (k : ℕ) :
    Refs (rmdirEntry dir inode bh k) [bh] fun _ => [] := by
  refine (Owns.read _).next fun p => (Owns.read _).next fun d => (Owns.read _).next fun m => ?_
  refine Owns.ite (fun _ => leaveEntry_refs ..) fun _ => ?_
  refine Owns.ite (fun _ => leaveEntry_refs ..) fun _ => ?_
  refine Owns.ite (fun _ => leaveInode_refs ..) fun _ => ?_
  refine Owns.ite (fun _ => leaveInode_refs ..) fun _ => (emptyDir_refs inode).next fun empty => ?_
  refine Owns.ite (fun _ => (storeEntry_refs ..).next fun _ => ?_) fun _ => leaveInode_refs ..
  refine (brelse_refs bh).bind fun _ => (modifyInode_refs ..).next fun _ => ?_
  refine (Owns.read _).next fun time => (modifyInode_refs ..).next fun _ => ?_
  exact (iput_refs dir).next fun _ => iput_none_refs ..

theorem sysRmdir_refs (name : List ℕ) : Refs (sysRmdir name) [] fun _ => [] := by
  refine (Owns.read _).next fun p => Owns.ite (fun _ => ?_) fun _ => Owns.pure rfl
  exact removeFrom_refs rmdirEntry_refs name

theorem unlinkEntry_refs (dir inode : ℕ) (bh : Bh) (k : ℕ) :
    Refs (unlinkEntry dir inode bh k) [bh] fun _ => [] := by
  refine (Owns.read _).next fun p => (Owns.read _).next fun d => (Owns.read _).next fun m => ?_
  refine Owns.ite (fun _ => leaveEntry_refs ..) fun _ => ?_
  refine Owns.ite (fun _ => leaveInode_refs ..) fun _ => Owns.next ?_ fun _ => ?_
  · exact Owns.when fun _ => modifyInode_refs ..
  · refine (storeEntry_refs ..).next fun _ => (brelse_refs bh).bind fun _ => ?_
    refine (Owns.read _).next fun time => (modifyInode_refs ..).next fun _ => ?_
    exact (iput_refs inode).next fun _ => iput_none_refs ..

theorem sysUnlink_refs (name : List ℕ) : Refs (sysUnlink name) [] fun _ => [] :=
  removeFrom_refs unlinkEntry_refs name

theorem linkIn_refs (basename : List ℕ) (oldinode dir : ℕ) :
    Refs (linkIn basename oldinode dir) [] fun _ => [] := by
  refine (addEntry_refs ..).bind fun res => ?_
  rcases res with _ | ⟨bh, k⟩
  · exact (iput_refs dir).next fun _ => iput_none_refs ..
  · refine (Owns.read _).next fun num => (storeEntry_refs ..).next fun _ => ?_
    refine (brelse_refs bh).bind fun _ => (iput_refs dir).next fun _ => ?_
    refine (Owns.read _).next fun time => (modifyInode_refs ..).next fun _ => ?_
    exact iput_none_refs ..

theorem leaveLink_refs (dir oldinode : ℕ) (e : Errno) :
    Refs (leaveLink dir oldinode e) [] fun _ => [] :=
  (iput_refs dir).next fun _ => iput_none_refs ..

theorem sysLink_refs (oldname newname : List ℕ) :
    Refs (sysLink oldname newname) [] fun _ => [] := by
  refine (namei_refs oldname).next fun oldinode => ?_
  cases oldinode with
  | none => exact Owns.pure rfl
  | some oldinode =>
    refine (Owns.read _).next fun m => Owns.ite (fun _ => iput_none_refs ..) fun _ => ?_
    refine (dirNamei_refs newname).next fun r => ?_
    rcases r with _ | ⟨dir, basename⟩
    · exact iput_none_refs ..
    · refine Owns.ite (fun _ => (iput_refs oldinode).next fun _ => iput_none_refs ..) fun _ => ?_
      refine (Owns.read _).next fun d => (Owns.read _).next fun dev => ?_
      refine Owns.ite (fun _ => leaveLink_refs ..) fun _ => (permission_refs ..).next fun may => ?_
      refine Owns.ite (fun _ => (findEntry_refs ..).bind fun r => ?_) fun _ => leaveLink_refs ..
      rcases r with ⟨dir, _ | ⟨bh, k⟩⟩
      · exact linkIn_refs ..
      · exact (brelse_refs bh).bind fun _ => leaveLink_refs ..

/-! ### Every call -/

/-- The calls that work with path names. -/
inductive NameCall
  | namei (pathname : List ℕ)
  | openNamei (pathname : List ℕ) (flag mode : ℕ)
  | mknod (filename : List ℕ) (mode device : ℕ)
  | mkdir (pathname : List ℕ) (mode : ℕ)
  | rmdir (name : List ℕ)
  | unlink (name : List ℕ)
  | link (oldname newname : List ℕ)

/-- A call, without its result. -/
def NameCall.run : NameCall → K Unit
  | namei pathname => do let _ ← Files.namei pathname
  | openNamei pathname flag mode => do let _ ← Files.openNamei pathname flag mode
  | mknod filename mode device => do let _ ← sysMknod filename mode device
  | mkdir pathname mode => do let _ ← sysMkdir pathname mode
  | rmdir name => do let _ ← sysRmdir name
  | unlink name => do let _ ← sysUnlink name
  | link oldname newname => do let _ ← sysLink oldname newname

theorem NameCall.run_refs (c : NameCall) : Refs c.run [] fun _ => [] := by
  cases c with
  | namei pathname => exact (namei_refs pathname).unit
  | openNamei pathname flag mode => exact (openNamei_refs pathname flag mode).unit
  | mknod filename mode device => exact (sysMknod_refs filename mode device).unit
  | mkdir pathname mode => exact (sysMkdir_refs pathname mode).unit
  | rmdir name => exact (sysRmdir_refs name).unit
  | unlink name => exact (sysUnlink_refs name).unit
  | link oldname newname => exact (sysLink_refs oldname newname).unit

/-- The number of references to a buffer after a program that ends with a value. -/
def countAfter (m : K Unit) (s : Fs) (bh : Bh) : Option ℕ :=
  match m s with
  | .ok r => some (r.2.bcount bh)
  | .error _ => none

/-- The panic of a program. -/
def panicOf (m : K Unit) (s : Fs) : Option Panic :=
  match m s with
  | .ok _ => none
  | .error e => some e.1

/-- A root directory with an entry `a` for the directory with inode 2, which has one block. -/
def oneDir (size : ℕ) (block : ℕ → ℕ) : Fs :=
  let root := { MInode.zero with
    mode := 0o040755, size := 48, nlinks := 3, zone := fun k => if k = 0 then 10 else 0,
    dev := 1, num := 1, count := 2 }
  let sub := { root.toDInode with
    size, nlinks := 2, zone := fun k => if k = 0 then 11 else 0 }
  { Fs.empty with
    disk := fun bh =>
      if bh.blocknr = 10 then
        setEntryName (setEntryInode (dotEntries 1 1 fun _ => 0) 2 2) 2 1 fun _ => 97
      else if bh.blocknr = 11 then block else fun _ => 0
    dinode := fun _ _ => sub
    inode := fun i => if i = 0 then root else .zero
    super := fun k => if k = 0 then { SuperBlock.zero with
      ninodes := 100, nzones := 100, imapBlocks := 1, zmapBlocks := 1, firstdatazone := 5,
      dev := 1 } else .zero
    task := fun _ => { Task.zero with used := true, root := some 0, pwd := some 0 } }

end LihaLinux.Files
