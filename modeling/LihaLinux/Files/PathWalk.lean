import LihaLinux.Files.Namei

/-!
# Path names as lists of pieces

`get_dir` goes through a path name to its last `/`, and `dir_namei` then looks for that `/` from
the start of the name again. Together they cut the name into its pieces between the slashes, and
`namei` looks the pieces up one after another.
-/

namespace LihaLinux.Files

/-! ### Pieces -/

/-- A path name without one `/` in front. -/
def dropSlash : List ℕ → List ℕ
  | [] => []
  | c :: cs => if c = 47 then cs else c :: cs

/-- The pieces of a path name between its slashes, after one `/` in front. -/
def pieces (pathname : List ℕ) : List (List ℕ) := (dropSlash pathname).splitOn 47

/-- The piece that `dir_namei` returns. -/
def lastPiece (pathname : List ℕ) : List ℕ := (pieces pathname).getLastD []

theorem splitOn_cons (c : ℕ) (cs : List ℕ) :
    (c :: cs).splitOn 47 =
      if c = 47 then [] :: cs.splitOn 47 else (cs.splitOn 47).modifyHead (c :: ·) := by
  rw [List.splitOn_cons_eq_if_modifyHead]
  by_cases hc : c = 47
  · simp [hc]
  · simp [hc]

/-- The scan of `get_dir` finds the first piece and the rest of the name. -/
theorem splitName_spec (cs : List ℕ) :
    cs.splitOn 47 = (splitName cs).1 :: ((splitName cs).2.map (List.splitOn 47 ·)).getD [] := by
  induction cs with
  | nil => rfl
  | cons c cs ih =>
    rw [splitOn_cons, splitName]
    by_cases hc : c = 47
    · rw [if_pos hc, if_pos hc]
      rfl
    · rw [if_neg hc, if_neg hc, ih]
      rfl

/-- A name with a slash has two pieces or more. -/
theorem splitOn_of_mem {cs : List ℕ} (h : 47 ∈ cs) :
    ∃ a b rest, cs.splitOn 47 = a :: b :: rest := by
  induction cs with
  | nil => exact absurd h List.not_mem_nil
  | cons c cs ih =>
    rw [splitOn_cons]
    by_cases hc : c = 47
    · obtain ⟨b, rest, hrest⟩ := List.exists_cons_of_ne_nil (List.splitOn_ne_nil 47 cs)
      rw [if_pos hc, hrest]
      exact ⟨[], b, rest, rfl⟩
    · have hmem : 47 ∈ cs := (List.mem_cons.mp h).resolve_left (Ne.symm hc)
      obtain ⟨a, b, rest, hrest⟩ := ih hmem
      rw [if_neg hc, hrest]
      exact ⟨c :: a, b, rest, rfl⟩

/-- The scan of `dir_namei` ends at the last piece. -/
theorem baseName_eq (cs base : List ℕ) :
    baseName cs base = if 47 ∈ cs then (cs.splitOn 47).getLastD [] else base := by
  induction cs generalizing base with
  | nil => rfl
  | cons c cs ih =>
    rw [baseName, ih, splitOn_cons]
    by_cases hc : c = 47
    · rw [if_pos hc, if_pos hc, if_pos (List.mem_cons.mpr (Or.inl hc.symm))]
      by_cases hmem : 47 ∈ cs
      · obtain ⟨a, b, rest, hrest⟩ := splitOn_of_mem hmem
        rw [if_pos hmem, hrest]
        rfl
      · rw [if_neg hmem, List.splitOn_eq_singleton hmem]
        rfl
    · have hiff : 47 ∈ c :: cs ↔ 47 ∈ cs := by
        rw [List.mem_cons]
        exact or_iff_right (Ne.symm hc)
      rw [if_neg hc, if_neg hc]
      by_cases hmem : 47 ∈ cs
      · obtain ⟨a, b, rest, hrest⟩ := splitOn_of_mem hmem
        rw [if_pos hmem, if_pos (hiff.mpr hmem), hrest]
        rfl
      · rw [if_neg hmem, if_neg (mt hiff.mp hmem)]

/-- A slash in front does not matter for the last piece. -/
theorem baseName_self (pathname : List ℕ) : baseName pathname pathname = lastPiece pathname := by
  rw [baseName_eq, lastPiece, pieces]
  cases pathname with
  | nil => rfl
  | cons c cs =>
    rw [dropSlash]
    by_cases hc : c = 47
    · obtain ⟨b, rest, hrest⟩ := List.exists_cons_of_ne_nil (List.splitOn_ne_nil 47 cs)
      rw [if_pos hc, if_pos (List.mem_cons.mpr (Or.inl hc.symm)), splitOn_cons, if_pos hc, hrest]
      rfl
    · rw [if_neg hc]
      by_cases hmem : 47 ∈ c :: cs
      · rw [if_pos hmem]
      · rw [if_neg hmem, List.splitOn_eq_singleton hmem]
        rfl

/-! ### Looking pieces up -/

/-- Whether an inode is a directory that the running task may search. -/
def searchable (inode : ℕ) (s : Fs) : Bool :=
  isDir (s.inode inode).mode && permitted s.cur (s.inode inode) mayExec

/-- Look a piece up in a directory, and go to the inode that it names. -/
def enter (inode : ℕ) (piece : List ℕ) : K (Option ℕ) := do
  let (dir, res) ← findEntry inode piece
  match res with
  | none =>
    iput dir
    pure none
  | some (bh, k) =>
    let inode ← getEntry dir bh k
    pure (some inode)

/-- Do something in a directory that may be searched, and give any other inode back. -/
def inDirectory (inode : ℕ) (f : K (Option ℕ)) : K (Option ℕ) := do
  let ok ← Prog.read (searchable inode)
  if ok then f
  else
    iput inode
    pure none

/-- Look pieces up one after another, and check that the last inode is a directory. -/
def walkDirs : List (List ℕ) → ℕ → K (Option ℕ)
  | [], inode => inDirectory inode (pure (some inode))
  | piece :: rest, inode => inDirectory inode do
    match ← enter inode piece with
    | none => pure none
    | some inode => walkDirs rest inode

/-- The directory that the lookup of a path name starts in, with a reference for it. -/
def startDir (pathname : List ℕ) : K ℕ := do
  let p ← Prog.read Fs.cur
  let inodes ← Prog.read Fs.inode
  match p.root, p.pwd with
  | none, _ => Prog.fail .noRoot
  | some _, none => Prog.fail .noPwd
  | some root, some pwd =>
    if (inodes root).count = 0 then Prog.fail .noRoot
    else if (inodes pwd).count = 0 then Prog.fail .noPwd
    else
      let inode := if pathname.head? = some 47 then root else pwd
      incCount inode
      pure inode

theorem splitName_length {cs rest : List ℕ} (h : (splitName cs).2 = some rest) :
    rest.length < cs.length := by
  induction cs with
  | nil => exact absurd h (by simp [splitName])
  | cons c cs ih =>
    rw [splitName] at h
    by_cases hc : c = 47
    · rw [if_pos hc] at h
      rw [← Option.some.inj h]
      exact Nat.lt_succ_self _
    · rw [if_neg hc] at h
      exact Nat.lt_succ_of_lt (ih h)

/-- The loop of `get_dir` looks up all pieces but the last one. -/
theorem getDirLoop_eq {n : ℕ} {cs : List ℕ} (hn : cs.length < n) (inode : ℕ) :
    getDirLoop n inode cs = walkDirs (cs.splitOn 47).dropLast inode := by
  induction n generalizing cs inode with
  | zero => exact absurd hn (Nat.not_lt_zero _)
  | succ n ih =>
    have hspec := splitName_spec cs
    rcases hname : splitName cs with ⟨piece, rest⟩
    rw [hname] at hspec
    funext s
    rw [getDirLoop, Prog.read_run, permission, Prog.read_run, hname]
    cases rest with
    | none =>
      rw [hspec]
      rfl
    | some rest =>
      have hsnd : (splitName cs).2 = some rest := by rw [hname]
      have hlt : rest.length < n :=
        Nat.lt_of_lt_of_le (splitName_length hsnd) (Nat.le_of_lt_succ hn)
      have hdrop : (cs.splitOn 47).dropLast = piece :: (rest.splitOn 47).dropLast := by
        rw [hspec]
        exact List.dropLast_cons_of_ne_nil (List.splitOn_ne_nil 47 rest)
      rw [hdrop, walkDirs, inDirectory, Prog.read_run, searchable]
      by_cases hok : (isDir (s.inode inode).mode && permitted s.cur (s.inode inode) mayExec) = true
      · rw [if_pos hok, if_pos hok, enter]
        refine congrFun ?_ s
        rw [Prog.bind_assoc]
        refine congrArg (findEntry inode piece >>= ·) (funext fun r => ?_)
        rcases r with ⟨dir, _ | ⟨bh, k⟩⟩
        · rw [Prog.bind_assoc]
          rfl
        · dsimp only
          rw [Prog.bind_assoc]
          exact congrArg (getEntry dir bh k >>= ·) (funext fun inode => ih hlt inode)
      · rw [if_neg hok, if_neg hok]

/-- `get_dir` looks up all pieces of a path name but the last one. -/
theorem getDir_eq {pathname : List ℕ} (hpath : pathname ≠ []) :
    getDir pathname = startDir pathname >>= walkDirs (pieces pathname).dropLast := by
  obtain ⟨c, cs, rfl⟩ := List.exists_cons_of_ne_nil hpath
  funext s
  rw [getDir, startDir, Prog.bind_assoc, Prog.read_run, Prog.read_run, Prog.read_run,
    Prog.bind_assoc, Prog.read_run]
  rcases s.cur.root with _ | root
  · rfl
  · rcases s.cur.pwd with _ | pwd
    · rfl
    · dsimp only
      by_cases hroot : (s.inode root).count = 0
      · rw [if_pos hroot, if_pos hroot]
        rfl
      · rw [if_neg hroot, if_neg hroot]
        by_cases hpwd : (s.inode pwd).count = 0
        · rw [if_pos hpwd, if_pos hpwd]
          rfl
        · rw [if_neg hpwd, if_neg hpwd, Prog.bind_assoc]
          by_cases hc : c = 47
          · subst hc
            rw [if_pos rfl, List.head?_cons, if_pos rfl,
              funext fun _ => getDirLoop_eq (Nat.lt_succ_self cs.length) root]
            rfl
          · have hne : ¬ (c :: cs).head? = some 47 := by
              rw [List.head?_cons]
              exact fun h => hc (Option.some.inj h)
            rw [if_neg hc, if_neg hne,
              funext fun _ => getDirLoop_eq (Nat.lt_succ_self (c :: cs).length) pwd, pieces,
              dropSlash, if_neg hc]
            rfl

/-- The pieces that `get_dir` looks up and the piece that `dir_namei` returns are the pieces of the
path name in order. -/
theorem pieces_eq (pathname : List ℕ) :
    pieces pathname = (pieces pathname).dropLast ++ [lastPiece pathname] := by
  have hne : pieces pathname ≠ [] := List.splitOn_ne_nil 47 _
  rw [lastPiece, List.getLastD_eq_getLast?, List.getLast?_eq_some_getLast hne, Option.getD_some,
    List.dropLast_concat_getLast hne]

theorem dirNamei_eq {pathname : List ℕ} (hpath : pathname ≠ []) :
    dirNamei pathname = (do
      let inode ← startDir pathname
      let dir ← walkDirs (pieces pathname).dropLast inode
      pure (dir.map fun dir => (dir, lastPiece pathname))) := by
  rw [dirNamei, getDir_eq hpath, Prog.bind_assoc, baseName_self]
  refine congrArg (startDir pathname >>= ·) (funext fun inode => ?_)
  refine congrArg (walkDirs (pieces pathname).dropLast inode >>= ·) (funext fun dir => ?_)
  cases dir with
  | none => rfl
  | some dir => rfl

/-- Go from the directory of a path name to the inode that the last piece names, if it is not
empty. -/
def lastStep (piece : List ℕ) (inode : ℕ) : K (Option ℕ) :=
  if piece = [] then pure (some inode)
  else do
    match ← enter inode piece with
    | none => pure none
    | some inode =>
      let time ← Prog.read Fs.time
      modifyInode inode fun m => { m with atime := time, dirt := true }
      pure (some inode)

/-- Look pieces up one after another, the last one included. -/
def walk : List (List ℕ) → List ℕ → ℕ → K (Option ℕ)
  | [], last, inode => inDirectory inode (lastStep last inode)
  | piece :: rest, last, inode => inDirectory inode do
    match ← enter inode piece with
    | none => pure none
    | some inode => walk rest last inode

/-- The last piece is looked up in the directory of the others. -/
theorem walk_eq (rest : List (List ℕ)) (last : List ℕ) (inode : ℕ) :
    walk rest last inode = (do
      match ← walkDirs rest inode with
      | none => pure none
      | some dir => lastStep last dir) := by
  induction rest generalizing inode with
  | nil =>
    funext s
    rw [walk, walkDirs, inDirectory, inDirectory, Prog.bind_assoc, Prog.read_run, Prog.read_run]
    by_cases hok : searchable inode s = true
    · rw [if_pos hok, if_pos hok]
      rfl
    · rw [if_neg hok, if_neg hok, Prog.bind_assoc]
      rfl
  | cons piece rest ih =>
    funext s
    rw [walk, walkDirs, inDirectory, inDirectory, Prog.bind_assoc, Prog.read_run, Prog.read_run]
    by_cases hok : searchable inode s = true
    · rw [if_pos hok, if_pos hok, Prog.bind_assoc]
      refine congrFun (congrArg (enter inode piece >>= ·) (funext fun r => ?_)) s
      cases r with
      | none => rfl
      | some inode => exact ih inode
    · rw [if_neg hok, if_neg hok, Prog.bind_assoc]
      rfl

/-- `namei` walks to the inode of a path name. -/
theorem namei_eq {pathname : List ℕ} (hpath : pathname ≠ []) :
    namei pathname = startDir pathname >>=
      walk (pieces pathname).dropLast (lastPiece pathname) := by
  rw [namei, dirNamei_eq hpath, Prog.bind_assoc]
  refine congrArg (startDir pathname >>= ·) (funext fun inode => ?_)
  rw [walk_eq, Prog.bind_assoc]
  refine congrArg (walkDirs (pieces pathname).dropLast inode >>= ·) (funext fun dir => ?_)
  cases dir with
  | none => rfl
  | some dir =>
    change (if lastPiece pathname = [] then pure (some dir) else _) = lastStep _ dir
    rw [lastStep]
    by_cases hempty : lastPiece pathname = []
    · rw [if_pos hempty, if_pos hempty]
    · rw [if_neg hempty, if_neg hempty, enter, Prog.bind_assoc]
      refine congrArg (findEntry dir (lastPiece pathname) >>= ·) (funext fun r => ?_)
      rcases r with ⟨dir, _ | ⟨bh, k⟩⟩
      · dsimp only
        rw [Prog.bind_assoc]
        rfl
      · dsimp only
        rw [Prog.bind_assoc]
        rfl

/-! ### What a walk finds -/

/-- `namei` notes when an inode was looked up. -/
def touch (inode : ℕ) (s : Fs) : Fs :=
  s.setInode inode { s.inode inode with atime := s.time, dirt := true }

/-- From an inode, the pieces are looked up one after another: the inode that is found. -/
inductive Walks : Fs → ℕ → List (List ℕ) → Option ℕ → Fs → Prop
  /-- A piece is applied to an inode that is not a directory, or that may not be searched. -/
  | notDirectory {s s' : Fs} {inode : ℕ} {ps : List (List ℕ)} (hps : ps ≠ [])
      (hdir : searchable inode s = false) (hput : iput inode s = .ok ((), s')) :
      Walks s inode ps none s'
  /-- The last piece is empty. -/
  | self {s : Fs} {inode : ℕ} (hdir : searchable inode s = true) :
      Walks s inode [[]] (some inode) s
  /-- A piece is not found. -/
  | missing {s s' : Fs} {inode : ℕ} {piece : List ℕ} {rest : List (List ℕ)}
      (hdir : searchable inode s = true) (hpiece : piece ≠ [] ∨ rest ≠ [])
      (henter : enter inode piece s = .ok (none, s')) : Walks s inode (piece :: rest) none s'
  /-- The last piece is found. -/
  | last {s s' : Fs} {inode i : ℕ} {piece : List ℕ} (hdir : searchable inode s = true)
      (hpiece : piece ≠ []) (henter : enter inode piece s = .ok (some i, s')) :
      Walks s inode [piece] (some i) (touch i s')
  /-- A piece before the last is found. -/
  | next {s s₁ s' : Fs} {inode i : ℕ} {piece : List ℕ} {rest : List (List ℕ)} {r : Option ℕ}
      (hdir : searchable inode s = true) (hrest : rest ≠ [])
      (henter : enter inode piece s = .ok (some i, s₁)) (hwalk : Walks s₁ i rest r s') :
      Walks s inode (piece :: rest) r s'

/-- Why a walk finds nothing. -/
inductive WalkFails : Fs → ℕ → List (List ℕ) → Prop
  /-- The inode that the next piece is applied to is not a directory that may be searched. -/
  | notDirectory {s : Fs} {inode : ℕ} {ps : List (List ℕ)} (hps : ps ≠ [])
      (hdir : searchable inode s = false) : WalkFails s inode ps
  /-- A piece before the last is empty. -/
  | empty {s : Fs} {inode : ℕ} {ps : List (List ℕ)} (hempty : [] ∈ ps.dropLast) :
      WalkFails s inode ps
  /-- A piece that is not empty is not in the directory. -/
  | notFound {s s₁ : Fs} {inode dir : ℕ} {piece : List ℕ} {rest : List (List ℕ)}
      (hpiece : piece ≠ []) (hfind : findEntry inode piece s = .ok ((dir, none), s₁)) :
      WalkFails s inode (piece :: rest)
  /-- The piece leads to an inode from which the walk fails. -/
  | next {s s₁ : Fs} {inode i : ℕ} {piece : List ℕ} {rest : List (List ℕ)} (hrest : rest ≠ [])
      (henter : enter inode piece s = .ok (some i, s₁)) (hfails : WalkFails s₁ i rest) :
      WalkFails s inode (piece :: rest)

/-- An empty piece is never found. -/
theorem enter_nil {s s' : Fs} {inode : ℕ} {r : Option ℕ}
    (h : enter inode [] s = .ok (r, s')) : r = none := by
  have hfind : findEntry inode [] s = .ok ((inode, none), s) := rfl
  rw [enter, Prog.bind_run hfind] at h
  obtain ⟨_, _, -, hpure⟩ := Prog.of_bind_run h
  exact (Prod.mk.inj (Except.ok.inj hpure)).1.symm

/-- A piece that is looked up without success is not in the directory. -/
theorem findEntry_of_enter {s s' : Fs} {inode : ℕ} {piece : List ℕ}
    (h : enter inode piece s = .ok (none, s')) :
    ∃ dir s₁, findEntry inode piece s = .ok ((dir, none), s₁) := by
  obtain ⟨⟨dir, res⟩, s₁, hfind, hrest⟩ := Prog.of_bind_run h
  cases res with
  | none => exact ⟨dir, s₁, hfind⟩
  | some e =>
    obtain ⟨i, s₂, -, hpure⟩ := Prog.of_bind_run hrest
    exact absurd (Prod.mk.inj (Except.ok.inj hpure)).1 (by simp)

/-- A piece that is not in the directory is looked up without success. -/
theorem enter_of_findEntry {s s₁ s' : Fs} {inode dir : ℕ} {piece : List ℕ} {r : Option ℕ}
    (hfind : findEntry inode piece s = .ok ((dir, none), s₁))
    (h : enter inode piece s = .ok (r, s')) : r = none := by
  rw [enter, Prog.bind_run hfind] at h
  obtain ⟨_, _, -, hpure⟩ := Prog.of_bind_run h
  exact (Prod.mk.inj (Except.ok.inj hpure)).1.symm

theorem inDirectory_run {s : Fs} {inode : ℕ} (f : K (Option ℕ))
    (hdir : searchable inode s = true) : inDirectory inode f s = f s := by
  rw [inDirectory, Prog.read_run, if_pos hdir]

/-- Nothing is done in an inode that may not be searched. -/
theorem inDirectory_none_iff {s s' : Fs} {inode : ℕ} {f : K (Option ℕ)} {r : Option ℕ}
    (hdir : searchable inode s = false) :
    inDirectory inode f s = .ok (r, s') ↔ iput inode s = .ok ((), s') ∧ r = none := by
  rw [inDirectory, Prog.read_run, if_neg (Bool.eq_false_iff.mp hdir)]
  constructor
  · intro h
    obtain ⟨_, s₁, hput, hpure⟩ := Prog.of_bind_run h
    obtain ⟨hr, hs⟩ := Prod.mk.inj (Except.ok.inj hpure)
    exact ⟨hs ▸ hput, hr.symm⟩
  · rintro ⟨hput, rfl⟩
    rw [Prog.bind_run hput]
    rfl

/-- The step of `namei` to the last piece. -/
theorem lastStep_run_iff {s s' : Fs} {inode : ℕ} {last : List ℕ} {r : Option ℕ}
    (hdir : searchable inode s = true) :
    lastStep last inode s = .ok (r, s') ↔ Walks s inode [last] r s' := by
  rw [lastStep]
  constructor
  · intro h
    by_cases hempty : last = []
    · subst hempty
      rw [if_pos rfl] at h
      obtain ⟨rfl, rfl⟩ := Prod.mk.inj (Except.ok.inj h)
      exact Walks.self hdir
    · rw [if_neg hempty] at h
      obtain ⟨found, s₁, henter, hrest⟩ := Prog.of_bind_run h
      cases found with
      | none =>
        obtain ⟨rfl, rfl⟩ := Prod.mk.inj (Except.ok.inj hrest)
        exact Walks.missing hdir (Or.inl hempty) henter
      | some i =>
        obtain ⟨rfl, rfl⟩ := Prod.mk.inj (Except.ok.inj hrest)
        exact Walks.last hdir hempty henter
  · intro h
    cases h with
    | notDirectory _ hnot _ => exact absurd hdir (Bool.eq_false_iff.mp hnot)
    | self _ => rfl
    | missing _ hpiece henter =>
      have hempty : last ≠ [] := hpiece.resolve_right fun h => h rfl
      rw [if_neg hempty, Prog.bind_run henter]
      rfl
    | last _ hempty henter =>
      rw [if_neg hempty, Prog.bind_run henter]
      rfl
    | next _ hrest _ _ => exact absurd rfl hrest

/-- The walk of `namei` is the lookup of the pieces. -/
theorem walk_run_iff {rest : List (List ℕ)} {last : List ℕ} {inode : ℕ} {r : Option ℕ}
    {s s' : Fs} :
    walk rest last inode s = .ok (r, s') ↔ Walks s inode (rest ++ [last]) r s' := by
  have hnotdir {ps : List (List ℕ)} {f : K (Option ℕ)} {inode : ℕ} {s : Fs} (hps : ps ≠ [])
      (hdir : searchable inode s = false) :
      inDirectory inode f s = .ok (r, s') ↔ Walks s inode ps r s' := by
    rw [inDirectory_none_iff hdir]
    constructor
    · rintro ⟨hput, rfl⟩
      exact Walks.notDirectory hps hdir hput
    · intro h
      have habs (h : searchable inode s = true) : False := Bool.eq_false_iff.mp hdir h
      cases h with
      | notDirectory _ _ hput => exact ⟨hput, rfl⟩
      | self h => exact (habs h).elim
      | missing h => exact (habs h).elim
      | last h => exact (habs h).elim
      | next h => exact (habs h).elim
  induction rest generalizing inode s with
  | nil =>
    rw [walk, List.nil_append]
    cases hdir : searchable inode s with
    | false => exact hnotdir (List.cons_ne_nil _ _) hdir
    | true => rw [inDirectory_run _ hdir, lastStep_run_iff hdir]
  | cons piece rest ih =>
    have hmore : rest ++ [last] ≠ [] := List.append_ne_nil_of_right_ne_nil _ (List.cons_ne_nil _ _)
    rw [walk, List.cons_append]
    cases hdir : searchable inode s with
    | false => exact hnotdir (List.cons_ne_nil _ _) hdir
    | true =>
      rw [inDirectory_run _ hdir]
      constructor
      · intro h
        obtain ⟨found, s₁, henter, hrest⟩ := Prog.of_bind_run h
        cases found with
        | none =>
          obtain ⟨rfl, rfl⟩ := Prod.mk.inj (Except.ok.inj hrest)
          exact Walks.missing hdir (Or.inr hmore) henter
        | some i => exact Walks.next hdir hmore henter (ih.mp hrest)
      · intro h
        generalize hps : piece :: (rest ++ [last]) = ps at h
        cases h with
        | notDirectory _ hnot _ => exact absurd hdir (Bool.eq_false_iff.mp hnot)
        | self _ => exact absurd (List.cons.inj hps).2 hmore
        | missing _ _ henter =>
          rw [(List.cons.inj hps).1, Prog.bind_run henter]
          rfl
        | last _ _ _ => exact absurd (List.cons.inj hps).2 hmore
        | next _ _ henter hwalk =>
          obtain ⟨rfl, rfl⟩ := List.cons.inj hps
          rw [Prog.bind_run henter]
          exact ih.mpr hwalk

/-- An empty piece before the last ends a walk. -/
theorem Walks.eq_none_of_empty {s s' : Fs} {inode : ℕ} {ps : List (List ℕ)} {r : Option ℕ}
    (h : Walks s inode ps r s') (hempty : [] ∈ ps.dropLast) : r = none := by
  induction h with
  | notDirectory => rfl
  | self => exact absurd hempty List.not_mem_nil
  | missing => rfl
  | last => exact absurd hempty List.not_mem_nil
  | next _ hrest henter _ ih =>
    rw [List.dropLast_cons_of_ne_nil hrest] at hempty
    rcases List.mem_cons.mp hempty with rfl | hmem
    · exact absurd (enter_nil henter) (by simp)
    · exact ih hmem

/-- A walk finds nothing for the reasons of `WalkFails`, and for no others. -/
theorem Walks.eq_none_iff {s s' : Fs} {inode : ℕ} {ps : List (List ℕ)} {r : Option ℕ}
    (h : Walks s inode ps r s') : r = none ↔ WalkFails s inode ps := by
  constructor
  · intro hr
    induction h with
    | notDirectory hps hdir _ => exact WalkFails.notDirectory hps hdir
    | self _ => exact absurd hr (by simp)
    | @missing s s' inode piece rest hdir hpiece henter =>
      by_cases hempty : piece = []
      · apply WalkFails.empty
        rw [List.dropLast_cons_of_ne_nil (hpiece.resolve_left fun h => h hempty), hempty]
        exact List.mem_cons_self
      · obtain ⟨dir, s₁, hfind⟩ := findEntry_of_enter henter
        exact WalkFails.notFound hempty hfind
    | last _ _ _ => exact absurd hr (by simp)
    | next _ hrest henter _ ih => exact WalkFails.next hrest henter (ih hr)
  · intro hfails
    induction hfails generalizing r s' with
    | @notDirectory s inode ps hps hdir =>
      have habs (h : searchable inode s = true) : False := Bool.eq_false_iff.mp hdir h
      cases h with
      | notDirectory => rfl
      | self h => exact (habs h).elim
      | missing h => exact (habs h).elim
      | last h => exact (habs h).elim
      | next h => exact (habs h).elim
    | empty hempty => exact h.eq_none_of_empty hempty
    | notFound hpiece hfind =>
      cases h with
      | notDirectory => rfl
      | self => exact absurd rfl hpiece
      | missing => rfl
      | last _ _ henter => exact enter_of_findEntry hfind henter
      | next _ _ henter _ => exact absurd (enter_of_findEntry hfind henter) (by simp)
    | next hrest henter _ ih =>
      cases h with
      | notDirectory => rfl
      | self => exact absurd rfl hrest
      | missing => rfl
      | last => exact absurd rfl hrest
      | next _ _ henter' hwalk =>
        rw [henter] at henter'
        obtain ⟨hi, hs⟩ := Prod.mk.inj (Except.ok.inj henter')
        rw [← Option.some.inj hi, ← hs] at hwalk
        exact ih hwalk

/-- `get_dir` and `dir_namei` cut a path name into its pieces, and `namei` looks them up one after
another from the root directory or the working directory. -/
theorem namei_walks {pathname : List ℕ} (hpath : pathname ≠ []) :
    getDir pathname = startDir pathname >>= walkDirs (pieces pathname).dropLast ∧
    dirNamei pathname = (do
      let dir ← getDir pathname
      pure (dir.map fun dir => (dir, lastPiece pathname))) ∧
    pieces pathname = (pieces pathname).dropLast ++ [lastPiece pathname] ∧
    ∀ s s' r, (namei pathname s = .ok (r, s') ↔
        ∃ inode s₁, startDir pathname s = .ok (inode, s₁) ∧
          Walks s₁ inode (pieces pathname) r s') ∧
      ∀ inode s₁, startDir pathname s = .ok (inode, s₁) → namei pathname s = .ok (r, s') →
        (r = none ↔ WalkFails s₁ inode (pieces pathname)) := by
  have hrun (s s' : Fs) (r : Option ℕ) : namei pathname s = .ok (r, s') ↔
      ∃ inode s₁, startDir pathname s = .ok (inode, s₁) ∧
        Walks s₁ inode (pieces pathname) r s' := by
    rw [namei_eq hpath]
    constructor
    · intro h
      obtain ⟨inode, s₁, hstart, hwalk⟩ := Prog.of_bind_run h
      rw [walk_run_iff, ← pieces_eq] at hwalk
      exact ⟨inode, s₁, hstart, hwalk⟩
    · rintro ⟨inode, s₁, hstart, hwalk⟩
      rw [pieces_eq, ← walk_run_iff] at hwalk
      rw [Prog.bind_run hstart]
      exact hwalk
  constructor
  · exact getDir_eq hpath
  constructor
  · rw [dirNamei_eq hpath, getDir_eq hpath, Prog.bind_assoc]
  constructor
  · exact pieces_eq pathname
  · intro s s' r
    constructor
    · exact hrun s s' r
    · intro inode s₁ hstart hnamei
      obtain ⟨i, s₂, hstart', hwalk⟩ := (hrun s s' r).mp hnamei
      rw [hstart] at hstart'
      obtain ⟨rfl, rfl⟩ := Prod.mk.inj (Except.ok.inj hstart')
      exact hwalk.eq_none_iff

/-- The path name `/a/` has the pieces `a` and the empty one, and its walk ends in the directory
`a`. -/
theorem namei_walks_slash : pieces [47, 97, 47] = [[97], []] ∧
    getDir [47, 97, 47] = startDir [47, 97, 47] >>= walkDirs [[97]] ∧
    ∀ s s' r, namei [47, 97, 47] s = .ok (r, s') ↔
      ∃ inode s₁, startDir [47, 97, 47] s = .ok (inode, s₁) ∧
        Walks s₁ inode [[97], []] r s' := by
  have hpath : ([47, 97, 47] : List ℕ) ≠ [] := List.cons_ne_nil _ _
  obtain ⟨hdir, -, -, hrun⟩ := namei_walks hpath
  exact ⟨rfl, hdir, fun s s' r => (hrun s s' r).1⟩

end LihaLinux.Files
