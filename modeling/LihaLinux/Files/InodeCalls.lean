import LihaLinux.Files.InodeTable

/-!
# References to inodes in path names

The lookup of names gives a reference to the inode it finds and none to the directories on the
way, and the calls that make and remove entries give back all that they have taken.
-/

namespace LihaLinux.Files

variable {s₀ : Fs}

/-! ### Directories -/

theorem dirPos_holds (dir : ℕ) (create : Bool) (i : ℕ) (bh : Option Bh) (k : ℕ) :
    Holds s₀ (dirPos dir create i bh k) [dir] fun _ => [dir] := by
  have hnext : Holds s₀ (brelseOpt bh >>= fun _ => dirPos dir create i none k) [dir]
      fun _ => [dir] := by
    refine (brelseOpt_holds bh).next fun _ => Owns.next (Owns.pure rfl) fun _ => ?_
    refine (bmapBlock_holds ..).bind fun block => Owns.ite (fun _ => Owns.pure rfl) fun _ => ?_
    refine (Owns.read _).next fun dev => (bread_holds dev block).next fun found => ?_
    cases found with
    | none => exact Owns.pure rfl
    | some found => exact Owns.pure rfl
  unfold dirPos
  cases bh with
  | none => exact hnext
  | some bh =>
    by_cases hk : k < dirEntriesPerBlock
    · simp only [hk, decide_true]
      exact Owns.pure rfl
    · simp only [hk, decide_false]
      exact hnext

theorem findLoop_holds (dir namelen : ℕ) (name : List ℕ) (entries n i : ℕ) (bh : Option Bh)
    (k : ℕ) : Holds s₀ (findLoop dir namelen name entries n i bh k) [dir] fun _ => [dir] := by
  have hnone : ∀ bh : Option Bh, Holds s₀ (brelseOpt bh >>= fun _ =>
      Pure.pure (none : Option (Bh × ℕ))) [dir] fun _ => [dir] :=
    fun bh => (brelseOpt_holds bh).next fun _ => Owns.pure rfl
  induction n generalizing i bh k with
  | zero => exact hnone bh
  | succ n ih =>
    refine Owns.ite (fun _ => hnone bh) fun _ => (dirPos_holds ..).bind fun pos => ?_
    cases pos with
    | entry bh k =>
      exact (Owns.read _).next fun d => Owns.ite (fun _ => Owns.pure rfl) fun _ => ih ..
    | skip => exact ih ..
    | full => exact ih ..

/-- The mount point of a device is referred to by its super block. -/
theorem incCount_mounted {k j : ℕ} (hk : k < nrSuper) (hj : (s₀.super k).imount = some j) :
    Holds s₀ (incCount j) [] fun _ => [j] := by
  refine ⟨fun ρ R s h => ?_⟩
  rw [← h.2.super] at hj
  have hpos := h.1.mounts k hk j hj
  have hsum : ρ j + R.count j ≠ 0 := by omega
  exact h.inc (h.1.bound j hsum) fun hdev => h.1.mounted j hdev hsum

/-- The directory may be exchanged for the mount point of its device. -/
theorem dotDot_holds (dir : ℕ) (name : List ℕ) (namelen : ℕ) :
    Holds s₀ (dotDot dir name namelen) [dir] fun r => [r.1] := by
  refine (Owns.read _).next fun p => (Owns.read _).next fun m => ?_
  refine Owns.ite (fun _ => Owns.ite (fun _ => Owns.pure rfl) fun _ => ?_) fun _ => Owns.pure rfl
  refine Owns.ite (fun _ => Holds.getSuper ?_) fun _ => Owns.pure rfl
  cases hsb : superOf s₀.super m.dev with
  | none => exact Holds.fail (by decide)
  | some sb =>
    obtain ⟨k, hk, rfl, -⟩ := superOf_spec hsb
    dsimp only
    rcases hmount : (s₀.super k).imount with _ | mounted
    · exact Owns.pure rfl
    · exact iput_first ((incCount_mounted hk hmount).bind fun _ => Owns.pure rfl)

theorem findIn_holds (dir namelen : ℕ) (name : List ℕ) (entries : ℕ) :
    Holds s₀ (findIn dir namelen name entries) [dir] fun _ => [dir] := by
  refine (Owns.read _).next fun m => Owns.ite (fun _ => Owns.pure rfl) fun _ => ?_
  refine (bread_holds ..).next fun bh => ?_
  cases bh with
  | none => exact Owns.pure rfl
  | some bh => exact findLoop_holds dir namelen name entries entries 0 (some bh) 0

theorem findEntry_holds (dir : ℕ) (name : List ℕ) :
    Holds s₀ (findEntry dir name) [dir] fun r => [r.1] := by
  refine (Owns.read _).next fun entries => Owns.ite (fun _ => Owns.pure rfl) fun _ => ?_
  exact (dotDot_holds ..).bind fun r => (findIn_holds ..).bind fun res => Owns.pure rfl

theorem addLoop_holds (dir namelen : ℕ) (name : List ℕ) (n i : ℕ) (bh : Option Bh) (k : ℕ) :
    Holds s₀ (addLoop dir namelen name n i bh k) [dir] fun _ => [dir] := by
  induction n generalizing i bh k with
  | zero => exact Holds.fail (by decide)
  | succ n ih =>
    refine (dirPos_holds ..).bind fun pos => ?_
    cases pos with
    | full => exact Owns.pure rfl
    | skip => exact ih ..
    | entry bh k =>
      refine (Owns.read _).next fun size => (Owns.read _).next fun time => ?_
      refine Owns.bind (Owns.when fun _ => ?_) fun _ => (Owns.read _).next fun inr => ?_
      · exact (modifyData_holds ..).next fun _ => modifyInode_holds fun _ => ⟨rfl, rfl⟩
      · refine Owns.ite (fun _ => ?_) fun _ => ih ..
        refine Owns.bind (modifyInode_holds fun _ => ⟨rfl, rfl⟩) fun _ => ?_
        refine (modifyData_holds ..).next fun _ => ?_
        exact Owns.pure rfl

theorem addEntry_holds (dir : ℕ) (name : List ℕ) :
    Holds s₀ (addEntry dir name) [dir] fun _ => [dir] := by
  refine Owns.ite (fun _ => Owns.pure rfl) fun _ => (Owns.read _).next fun m => ?_
  refine Owns.ite (fun _ => Owns.pure rfl) fun _ => (bread_holds ..).next fun bh => ?_
  cases bh with
  | none => exact Owns.pure rfl
  | some bh => exact addLoop_holds _ _ _ _ 0 (some bh) 0

/-! ### Path names -/

theorem permission_holds (inode mask : ℕ) : Holds s₀ (permission inode mask) [] fun _ => [] :=
  Owns.read _

/-- An entry names an inode on the device of its directory. -/
theorem getEntry_holds (dir : ℕ) (bh : Bh) (k : ℕ) :
    Holds s₀ (getEntry dir bh k) [dir] fun i => [i] := by
  refine (Owns.read _).next fun inr => Holds.readHeld (fun m => m.dev) (by simp) fun m hdev => ?_
  exact (brelse_holds bh).next fun _ => iput_first (iget_holds hdev)

theorem getDirLoop_holds (n inode : ℕ) (pathname : List ℕ) :
    Holds s₀ (getDirLoop n inode pathname) [inode] fun r => r.toList := by
  induction n generalizing inode pathname with
  | zero => exact Holds.fail (by decide)
  | succ n ih =>
    refine (Owns.read _).next fun m => (permission_holds ..).next fun may => ?_
    refine Owns.ite (fun _ => ?_) fun _ => iput_last _ rfl
    rcases splitName pathname with ⟨thisname, _ | rest⟩
    · exact Owns.pure rfl
    · refine (findEntry_holds ..).bind fun r => ?_
      rcases r with ⟨dir, _ | ⟨bh, k⟩⟩
      · exact iput_last _ rfl
      · exact (getEntry_holds ..).bind fun inode => ih inode rest

/-- A reference to an inode that has one already. -/
theorem Account.inc_used {s : Fs} {ρ : ℕ → ℕ} {R : List ℕ} {i : ℕ} (h : Account s₀ ρ R s)
    (hi : (s.inode i).count ≠ 0) :
    (incCount i).wp (fun _ s' => Account s₀ ρ (i :: R) s') (fun e _ => e ≠ .writeNoDevice) s := by
  have hsum : ρ i + R.count i ≠ 0 := by
    intro hzero
    rw [h.1.count i, hzero] at hi
    exact hi rfl
  exact h.inc (h.1.bound i hsum) fun hdev => h.1.mounted i hdev hsum

/-- The lookup starts with a reference to the root or to the working directory. -/
theorem getDir_holds (pathname : List ℕ) : Holds s₀ (getDir pathname) [] fun r => r.toList := by
  refine ⟨fun ρ R s h => ?_⟩
  rw [getDir, Prog.wp_bind, Prog.wp_read, Prog.wp_bind, Prog.wp_read]
  rcases s.cur.root with _ | root
  · exact fail_wp (by decide)
  · rcases s.cur.pwd with _ | pwd
    · exact fail_wp (by decide)
    · dsimp only
      rw [Prog.wp_ite, Prog.wp_ite]
      refine ⟨fun _ => fail_wp (by decide), fun hroot => ⟨fun _ => fail_wp (by decide),
        fun hpwd => ?_⟩⟩
      cases pathname with
      | nil => exact h
      | cons c rest =>
        dsimp only
        rw [Prog.wp_ite]
        refine ⟨fun _ => ?_, fun _ => ?_⟩
        · exact (h.inc_used hroot).bind fun _ s' h' => (getDirLoop_holds ..).run ρ R s' h'
        · exact (h.inc_used hpwd).bind fun _ s' h' => (getDirLoop_holds ..).run ρ R s' h'

theorem dirNamei_holds (pathname : List ℕ) :
    Holds s₀ (dirNamei pathname) [] fun r => (r.map Prod.fst).toList := by
  refine (getDir_holds pathname).bind fun dir => ?_
  cases dir with
  | none => exact Owns.pure rfl
  | some dir => exact Owns.pure rfl

theorem namei_holds (pathname : List ℕ) : Holds s₀ (namei pathname) [] fun r => r.toList := by
  refine (dirNamei_holds pathname).bind fun r => ?_
  rcases r with _ | ⟨dir, basename⟩
  · exact Owns.pure rfl
  · refine Owns.ite (fun _ => Owns.pure rfl) fun _ => (findEntry_holds ..).bind fun r => ?_
    rcases r with ⟨dir, _ | ⟨bh, k⟩⟩
    · exact iput_last _ rfl
    · refine (getEntry_holds ..).bind fun inode => (Owns.read _).next fun time => ?_
      exact Owns.bind (modifyInode_holds fun _ => ⟨rfl, rfl⟩) fun _ => Owns.pure rfl

/-! ### `open_namei` -/

/-- The inode of a result that is no error. -/
def okInode : Except Errno ℕ → List ℕ
  | .ok inode => [inode]
  | .error _ => []

theorem storeEntry_holds (bh : Bh) (k num : ℕ) : Holds s₀ (storeEntry bh k num) [] fun _ => [] :=
  modifyData_holds ..

theorem openCreate_holds (dir : ℕ) (basename : List ℕ) (mode : ℕ) :
    Holds s₀ (openCreate dir basename mode) [dir] okInode := by
  refine (permission_holds ..).next fun may => Owns.ite (fun _ => ?_) fun _ => iput_last _ rfl
  refine (Owns.read _).next fun dev => ((newInode_holds dev).frame [dir]).bind fun inode => ?_
  cases inode with
  | none => exact iput_last _ rfl
  | some inode =>
    refine (Owns.read _).next fun p =>
      Holds.andThen (i := inode) (modifyInode_holds fun _ => ⟨rfl, rfl⟩) (by simp)
        fun _ => ?_
    refine Holds.andThen (addEntry_holds ..) (by simp) fun res => ?_
    rcases res with _ | ⟨bh, k⟩
    · refine Holds.andThen (i := inode) (modifyInode_holds fun _ => ⟨rfl, rfl⟩)
        (by simp) fun _ => iput_first ?_
      exact iput_last _ rfl
    · refine (Owns.read _).next fun num => (storeEntry_holds ..).next fun _ => ?_
      exact (brelse_holds bh).next fun _ => iput_second (Owns.pure rfl)

theorem openExisting_holds (dir : ℕ) (bh : Bh) (k flag : ℕ) :
    Holds s₀ (openExisting dir bh k flag) [dir] okInode := by
  refine (Owns.read _).next fun inr => Holds.readHeld (fun m => m.dev) (by simp) fun m hdev => ?_
  refine (brelse_holds bh).next fun _ => iput_first ?_
  refine Owns.ite (fun _ => Owns.pure rfl) fun _ => (iget_holds hdev).bind fun inode => ?_
  refine (Owns.read _).next fun m => (permission_holds ..).next fun may => ?_
  refine Owns.ite (fun _ => iput_last _ rfl) fun _ => (Owns.read _).next fun time => ?_
  refine Owns.bind (modifyInode_holds fun _ => ⟨rfl, rfl⟩) fun _ => ?_
  refine Owns.bind ?_ fun _ => Owns.pure rfl
  exact Owns.when fun _ => truncate_holds inode

theorem openNamei_holds (pathname : List ℕ) (flag mode : ℕ) :
    Holds s₀ (openNamei pathname flag mode) [] okInode := by
  refine (Owns.read _).next fun umask => (dirNamei_holds pathname).bind fun r => ?_
  rcases r with _ | ⟨dir, basename⟩
  · exact Owns.pure rfl
  · refine Owns.ite (fun _ => ?_) fun _ => (findEntry_holds ..).bind fun r => ?_
    · exact Owns.ite (fun _ => Owns.pure rfl) fun _ => iput_last _ rfl
    · rcases r with ⟨dir, _ | ⟨bh, k⟩⟩
      · exact Owns.ite (fun _ => openCreate_holds ..) fun _ => iput_last _ rfl
      · exact openExisting_holds ..

/-! ### Calls that change directories -/

theorem createIn_holds {make : ℕ → K Status}
    (hmake : ∀ dir, Holds s₀ (make dir) [dir] fun _ => []) (dir : ℕ) (basename : List ℕ)
    (e : Errno) : Holds s₀ (createIn dir basename e make) [dir] fun _ => [] := by
  refine Owns.ite (fun _ => iput_last _ rfl) fun _ => (permission_holds ..).next fun may => ?_
  refine Owns.ite (fun _ => (findEntry_holds ..).bind fun r => ?_) fun _ => iput_last _ rfl
  rcases r with ⟨dir, _ | ⟨bh, k⟩⟩
  · exact hmake dir
  · exact (brelse_holds bh).next fun _ => iput_last _ rfl

theorem mknodIn_holds (basename : List ℕ) (mode device dir : ℕ) :
    Holds s₀ (mknodIn basename mode device dir) [dir] fun _ => [] := by
  refine (Owns.read _).next fun dev => ((newInode_holds dev).frame [dir]).bind fun inode => ?_
  cases inode with
  | none => exact iput_last _ rfl
  | some inode =>
    refine (Owns.read _).next fun time => ?_
    refine Holds.andThen (i := inode) (modifyInode_holds fun _ => ⟨rfl, rfl⟩) (by simp) fun _ => ?_
    refine Holds.andThen (addEntry_holds ..) (by simp) fun res => ?_
    rcases res with _ | ⟨bh, k⟩
    · apply iput_second
      exact Owns.bind (modifyInode_holds fun _ => ⟨rfl, rfl⟩) fun _ => iput_last _ rfl
    · refine (Owns.read _).next fun num => (storeEntry_holds ..).next fun _ => ?_
      refine iput_second (iput_first ?_)
      exact (brelse_holds bh).next fun _ => Owns.pure rfl

theorem sysMknod_holds (filename : List ℕ) (mode device : ℕ) :
    Holds s₀ (sysMknod filename mode device) [] fun _ => [] := by
  refine (Owns.read _).next fun p => Owns.ite (fun _ => ?_) fun _ => Owns.pure rfl
  refine (dirNamei_holds filename).bind fun r => ?_
  rcases r with _ | ⟨dir, basename⟩
  · exact Owns.pure rfl
  · exact createIn_holds (fun dir => mknodIn_holds ..) ..

theorem mkdirEntry_holds (basename : List ℕ) (dir inode : ℕ) :
    Holds s₀ (mkdirEntry basename dir inode) [inode, dir] fun _ => [] := by
  refine Holds.andThen (addEntry_holds ..) (by simp) fun res => ?_
  rcases res with _ | ⟨bh, k⟩
  · refine iput_second ((Owns.read _).next fun m => ?_)
    refine (freeBlock_holds ..).next fun _ => ?_
    refine Owns.bind (modifyInode_holds fun _ => ⟨rfl, rfl⟩) fun _ => ?_
    exact iput_last _ rfl
  · refine (Owns.read _).next fun num => (storeEntry_holds ..).next fun _ => ?_
    refine Holds.andThen (i := dir) (modifyInode_holds fun _ => ⟨rfl, rfl⟩) (by simp) fun _ => ?_
    refine iput_second (iput_first ?_)
    exact (brelse_holds bh).next fun _ => Owns.pure rfl

theorem mkdirIn_holds (basename : List ℕ) (mode dir : ℕ) :
    Holds s₀ (mkdirIn basename mode dir) [dir] fun _ => [] := by
  refine (Owns.read _).next fun dev => ((newInode_holds dev).frame [dir]).bind fun inode => ?_
  cases inode with
  | none => exact iput_last _ rfl
  | some inode =>
    refine (Owns.read _).next fun time => ?_
    refine Holds.andThen (i := inode) (modifyInode_holds fun _ => ⟨rfl, rfl⟩) (by simp) fun _ => ?_
    refine (newBlock_holds dev).next fun zone => ?_
    refine Holds.andThen (i := inode) (modifyInode_holds fun _ => ⟨rfl, rfl⟩) (by simp) fun _ => ?_
    refine Owns.ite (fun _ => ?_) fun _ => ?_
    · exact iput_second (Owns.bind (modifyInode_holds fun _ => ⟨rfl, rfl⟩) fun _ => iput_last _ rfl)
    · refine Holds.andThen (i := inode) (modifyInode_holds fun _ => ⟨rfl, rfl⟩)
        (by simp) fun _ => ?_
      refine (bread_holds dev zone).next fun bh => ?_
      cases bh with
      | none =>
        refine iput_second ((freeBlock_holds ..).next fun _ => ?_)
        exact Owns.bind (modifyInode_holds fun _ => ⟨rfl, rfl⟩) fun _ => iput_last _ rfl
      | some bh =>
        refine (Owns.read _).next fun num => (Owns.read _).next fun parent => ?_
        refine (modifyData_holds ..).next fun _ => ?_
        refine Holds.andThen (i := inode) (modifyInode_holds fun _ => ⟨rfl, rfl⟩)
          (by simp) fun _ => ?_
        refine (brelse_holds bh).next fun _ => (Owns.read _).next fun umask => ?_
        exact Holds.andThen (i := inode) (modifyInode_holds fun _ => ⟨rfl, rfl⟩)
          (by simp) fun _ => mkdirEntry_holds ..

theorem sysMkdir_holds (pathname : List ℕ) (mode : ℕ) :
    Holds s₀ (sysMkdir pathname mode) [] fun _ => [] := by
  refine (Owns.read _).next fun p => Owns.ite (fun _ => ?_) fun _ => Owns.pure rfl
  refine (dirNamei_holds pathname).bind fun r => ?_
  rcases r with _ | ⟨dir, basename⟩
  · exact Owns.pure rfl
  · exact createIn_holds (fun dir => mkdirIn_holds ..) ..

theorem emptyLoop_holds (dir len n nr : ℕ) (bh : Bh) (k : ℕ) :
    Holds s₀ (emptyLoop dir len n nr bh k) [dir] fun _ => [dir] := by
  have hend : ∀ (bh : Bh) (b : Bool),
      Holds s₀ (brelse bh >>= fun _ => Pure.pure b) [dir] fun _ => [dir] :=
    fun bh b => (brelse_holds bh).next fun _ => Owns.pure rfl
  induction n generalizing nr bh k with
  | zero => exact hend ..
  | succ n ih =>
    refine Owns.ite (fun _ => hend ..) fun _ => Owns.ite (fun _ => ?_) fun _ => ?_
    · exact (Owns.read _).next fun inr => Owns.ite (fun _ => hend ..) fun _ => ih ..
    · refine (brelse_holds bh).next fun _ => (bmapBlock_holds ..).bind fun block => ?_
      refine Owns.ite (fun _ => (releaseTwice_holds bh).next fun _ => ih ..) fun _ => ?_
      refine (Owns.read _).next fun dev => (bread_holds dev block).next fun found => ?_
      cases found with
      | none => exact Owns.pure rfl
      | some found =>
        exact (Owns.read _).next fun inr => Owns.ite (fun _ => hend ..) fun _ => ih ..

theorem emptyDir_holds (inode : ℕ) : Holds s₀ (emptyDir inode) [inode] fun _ => [inode] := by
  refine (Owns.read _).next fun m => Owns.ite (fun _ => Owns.pure rfl) fun _ => ?_
  refine (bread_holds ..).next fun bh => ?_
  cases bh with
  | none => exact Owns.pure rfl
  | some bh =>
    refine (Owns.read _).next fun d => Owns.ite (fun _ => emptyLoop_holds ..) fun _ => ?_
    exact (leak_holds bh).next fun _ => Owns.pure rfl

theorem leaveEntry_holds (dir inode : ℕ) (bh : Bh) (e : Errno) :
    Holds s₀ (leaveEntry dir inode bh e) [inode, dir] fun _ => [] :=
  iput_second (iput_first ((brelse_holds bh).next fun _ => Owns.pure rfl))

theorem leaveInode_holds (dir inode : ℕ) (bh : Bh) (e : Errno) :
    Holds s₀ (leaveInode dir inode bh e) [inode, dir] fun _ => [] :=
  iput_first (iput_first ((brelse_holds bh).next fun _ => Owns.pure rfl))

theorem removeFrom_holds {remove : ℕ → ℕ → Bh → ℕ → K Status}
    (hremove : ∀ dir inode bh k, Holds s₀ (remove dir inode bh k) [inode, dir] fun _ => [])
    (pathname : List ℕ) : Holds s₀ (removeFrom pathname remove) [] fun _ => [] := by
  refine (dirNamei_holds pathname).bind fun r => ?_
  rcases r with _ | ⟨dir, basename⟩
  · exact Owns.pure rfl
  · refine Owns.ite (fun _ => iput_last _ rfl) fun _ => (permission_holds ..).next fun may => ?_
    refine Owns.ite (fun _ => (findEntry_holds ..).bind fun r => ?_) fun _ => iput_last _ rfl
    rcases r with ⟨dir, _ | ⟨bh, k⟩⟩
    · exact iput_last _ rfl
    · refine (Owns.read _).next fun inr => ?_
      refine Holds.readHeld (fun m => m.dev) (by simp) fun m hdev => ?_
      exact ((iget_holds hdev).frame [dir]).bind fun inode => hremove ..

theorem rmdirEntry_holds (dir inode : ℕ) (bh : Bh) (k : ℕ) :
    Holds s₀ (rmdirEntry dir inode bh k) [inode, dir] fun _ => [] := by
  refine (Owns.read _).next fun p => (Owns.read _).next fun d => (Owns.read _).next fun m => ?_
  refine Owns.ite (fun _ => leaveEntry_holds ..) fun _ => ?_
  refine Owns.ite (fun _ => leaveEntry_holds ..) fun _ => ?_
  refine Owns.ite (fun _ => leaveInode_holds ..) fun _ => ?_
  refine Owns.ite (fun _ => leaveInode_holds ..) fun _ => ?_
  refine Holds.andThen (emptyDir_holds inode) (by simp) fun empty => ?_
  refine Owns.ite (fun _ => (storeEntry_holds ..).next fun _ => ?_) fun _ => leaveInode_holds ..
  refine (brelse_holds bh).next fun _ => ?_
  refine Holds.andThen (i := inode) (modifyInode_holds fun _ => ⟨rfl, rfl⟩) (by simp) fun _ => ?_
  refine (Owns.read _).next fun time => ?_
  refine Holds.andThen (i := dir) (modifyInode_holds fun _ => ⟨rfl, rfl⟩) (by simp) fun _ => ?_
  exact iput_second (iput_last _ rfl)

theorem sysRmdir_holds (name : List ℕ) : Holds s₀ (sysRmdir name) [] fun _ => [] := by
  refine (Owns.read _).next fun p => Owns.ite (fun _ => ?_) fun _ => Owns.pure rfl
  exact removeFrom_holds rmdirEntry_holds name

theorem unlinkEntry_holds (dir inode : ℕ) (bh : Bh) (k : ℕ) :
    Holds s₀ (unlinkEntry dir inode bh k) [inode, dir] fun _ => [] := by
  refine (Owns.read _).next fun p => (Owns.read _).next fun d => (Owns.read _).next fun m => ?_
  refine Owns.ite (fun _ => leaveEntry_holds ..) fun _ => ?_
  refine Owns.ite (fun _ => leaveInode_holds ..) fun _ => ?_
  refine Owns.bind (Owns.when fun _ => ?_) fun _ => ?_
  · exact Holds.among (i := inode) (modifyInode_holds fun _ => ⟨rfl, rfl⟩) (by simp)
  · refine (storeEntry_holds ..).next fun _ => (brelse_holds bh).next fun _ => ?_
    refine (Owns.read _).next fun time => ?_
    refine Holds.andThen (i := inode) (modifyInode_holds fun _ => ⟨rfl, rfl⟩) (by simp) fun _ => ?_
    exact iput_first (iput_last _ rfl)

theorem sysUnlink_holds (name : List ℕ) : Holds s₀ (sysUnlink name) [] fun _ => [] :=
  removeFrom_holds unlinkEntry_holds name

theorem linkIn_holds (basename : List ℕ) (oldinode dir : ℕ) :
    Holds s₀ (linkIn basename oldinode dir) [dir, oldinode] fun _ => [] := by
  refine Holds.andThen (addEntry_holds ..) (by simp) fun res => ?_
  rcases res with _ | ⟨bh, k⟩
  · exact iput_first (iput_last _ rfl)
  · refine (Owns.read _).next fun num => (storeEntry_holds ..).next fun _ => ?_
    refine (brelse_holds bh).next fun _ => iput_first ((Owns.read _).next fun time => ?_)
    exact Owns.bind (modifyInode_holds fun _ => ⟨rfl, rfl⟩) fun _ => iput_last _ rfl

theorem leaveLink_holds (dir oldinode : ℕ) (e : Errno) :
    Holds s₀ (leaveLink dir oldinode e) [dir, oldinode] fun _ => [] :=
  iput_first (iput_last _ rfl)

theorem sysLink_holds (oldname newname : List ℕ) :
    Holds s₀ (sysLink oldname newname) [] fun _ => [] := by
  refine (namei_holds oldname).bind fun oldinode => ?_
  cases oldinode with
  | none => exact Owns.pure rfl
  | some oldinode =>
    refine (Owns.read _).next fun m => Owns.ite (fun _ => iput_last _ rfl) fun _ => ?_
    refine ((dirNamei_holds newname).frame [oldinode]).bind fun r => ?_
    rcases r with _ | ⟨dir, basename⟩
    · exact iput_last _ rfl
    · refine Owns.ite (fun _ => iput_second (iput_last _ rfl)) fun _ => ?_
      refine (Owns.read _).next fun d => (Owns.read _).next fun dev => ?_
      refine Owns.ite (fun _ => leaveLink_holds ..) fun _ => ?_
      refine (permission_holds ..).next fun may => ?_
      refine Owns.ite (fun _ => ?_) fun _ => leaveLink_holds ..
      refine ((findEntry_holds dir basename).frame [oldinode]).bind fun r => ?_
      rcases r with ⟨dir, _ | ⟨bh, k⟩⟩
      · exact linkIn_holds ..
      · exact (brelse_holds bh).next fun _ => leaveLink_holds ..

end LihaLinux.Files
