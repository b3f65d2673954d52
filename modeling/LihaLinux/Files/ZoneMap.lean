import LihaLinux.Fs.BmapPaths
import LihaLinux.Files.InodeTable

/-!
# The search in the bitmaps

`new_block` and `new_inode` search up to eight blocks of a map word by word. The search finds
the first clear bit of the map. What the two functions do is told here from that bit: which
calls find a zone or an inode, and what a call that finds none leaves behind.
-/

namespace LihaLinux.Files

open LihaLinux.Fs (firstZero firstZero_some firstZero_none)

/-! ### The search -/

variable {bits : ℕ → Bool}

/-- A search can be cut into two. -/
theorem firstZero_add (m n i : ℕ) :
    firstZero bits (m + n) i = (firstZero bits m i).or (firstZero bits n (i + m)) := by
  induction m generalizing i with
  | zero => rw [Nat.zero_add, Nat.add_zero, firstZero, Option.none_or]
  | succ m ih =>
    rw [Nat.add_right_comm, firstZero, firstZero]
    by_cases hi : bits i = true
    · rw [if_pos hi, if_pos hi, ih, Nat.add_assoc, Nat.add_comm 1 m]
    · rw [if_neg hi, if_neg hi, Option.some_or]

/-- A search in the bits from `a` on. -/
theorem firstZero_shift (a n i : ℕ) :
    (firstZero (fun j => bits (a + j)) n i).map (a + ·) = firstZero bits n (a + i) := by
  induction n generalizing i with
  | zero => rw [firstZero, firstZero, Option.map_none]
  | succ n ih =>
    rw [firstZero, firstZero]
    by_cases hi : bits (a + i) = true
    · rw [if_pos hi, if_pos hi, ih, Nat.add_assoc]
    · rw [if_neg hi, if_neg hi, Option.map_some]

/-- `find_first_zero` finds the first clear bit of its words. -/
theorem findFirstZero_eq (n ecx : ℕ) :
    findFirstZero bits n ecx = (firstZero bits (32 * n) ecx).getD (ecx + 32 * n) := by
  induction n generalizing ecx with
  | zero => rw [findFirstZero, Nat.mul_zero, firstZero, Option.getD_none, Nat.add_zero]
  | succ n ih =>
    have hsplit : 32 * (n + 1) = 32 + 32 * n := by omega
    rw [findFirstZero, hsplit, firstZero_add]
    cases firstZero bits 32 ecx with
    | some k => rw [Option.some_or, Option.getD_some]
    | none => rw [Option.none_or, ih, Nat.add_assoc]

/-- `find_first_zero` in a block of a map. -/
theorem findFirstZero_mapBlock (i : ℕ) :
    8192 * i + findFirstZero (mapBlock bits i) 256 0 =
      (firstZero bits 8192 (8192 * i)).getD (8192 * i + 8192) := by
  have hshift : _ = firstZero bits 8192 (8192 * i + 0) := firstZero_shift (8192 * i) 8192 0
  rw [Nat.add_zero] at hshift
  rw [findFirstZero_eq, ← hshift]
  change 8192 * i + (firstZero (mapBlock bits i) 8192 0).getD 8192 =
    ((firstZero (mapBlock bits i) 8192 0).map (8192 * i + ·)).getD (8192 * i + 8192)
  cases firstZero (mapBlock bits i) 8192 0 with
  | none => rw [Option.map_none, Option.getD_none, Option.getD_none]
  | some k => rw [Option.map_some, Option.getD_some, Option.getD_some]

/-- The search by blocks and words finds the first clear bit. -/
theorem findClear_eq (blocks n i : ℕ) :
    findClear blocks bits n i =
      firstZero bits (8192 * (min blocks (i + n) - i)) (8192 * i) := by
  induction n generalizing i with
  | zero =>
    have hzero : 8192 * (min blocks (i + 0) - i) = 0 := by omega
    rw [findClear, hzero, firstZero]
  | succ n ih =>
    have hblock : 8192 * i + findFirstZero (mapBlock bits i) 256 0 = _ := findFirstZero_mapBlock i
    rw [findClear, ih]
    by_cases hi : i < blocks
    · have hsplit : 8192 * (min blocks (i + (n + 1)) - i) =
          8192 + 8192 * (min blocks (i + 1 + n) - (i + 1)) := by omega
      rw [hsplit, firstZero_add]
      cases hfirst : firstZero bits 8192 (8192 * i) with
      | none =>
        rw [hfirst, Option.getD_none] at hblock
        rw [if_neg (by omega), Option.none_or]
        congr 1
      | some k =>
        obtain ⟨hle, hlt, -⟩ := firstZero_some hfirst
        rw [hfirst, Option.getD_some] at hblock
        rw [if_pos ⟨hi, by omega⟩, hblock, Option.some_or]
    · have hnone : min blocks (i + (n + 1)) - i = 0 := by omega
      have hnone' : min blocks (i + 1 + n) - (i + 1) = 0 := by omega
      rw [if_neg fun h => hi h.1, hnone, hnone', Nat.mul_zero, firstZero, firstZero]

/-- The first clear bit of a map of so many blocks, of which eight are looked at. -/
structure FirstClear (blocks : ℕ) (bits : ℕ → Bool) (k : ℕ) : Prop where
  lt : k < 8192 * min blocks 8
  clear : bits k = false
  before : ∀ l < k, bits l = true

theorem FirstClear.unique {blocks k l : ℕ} (hk : FirstClear blocks bits k)
    (hl : FirstClear blocks bits l) : k = l := by
  rcases Nat.lt_trichotomy k l with hlt | heq | hlt
  · exact absurd (hl.before k hlt) (by simp [hk.clear])
  · exact heq
  · exact absurd (hk.before l hlt) (by simp [hl.clear])

theorem findClear_some {blocks k : ℕ} (h : findClear blocks bits 8 0 = some k) :
    FirstClear blocks bits k := by
  rw [findClear_eq] at h
  obtain ⟨-, hlt, hclear, hbefore⟩ := firstZero_some h
  constructor
  · omega
  · exact hclear
  · intro l hl
    exact hbefore l (by omega) hl

theorem findClear_none {blocks : ℕ} (h : findClear blocks bits 8 0 = none) :
    ∀ l < 8192 * min blocks 8, bits l = true := by
  rw [findClear_eq] at h
  intro l hl
  exact firstZero_none h l (by omega) (by omega)

theorem FirstClear.findClear {blocks k : ℕ} (h : FirstClear blocks bits k) :
    findClear blocks bits 8 0 = some k := by
  cases hfind : Files.findClear blocks bits 8 0 with
  | none => exact absurd (findClear_none hfind k h.lt) (by simp [h.clear])
  | some l => rw [(findClear_some hfind).unique h]

/-! ### `new_block` -/

variable {s : Fs} {sb : SuperBlock} {dev k : ℕ}

/-- The state after `new_block` has taken bit `k` and cleared the block. -/
def Fs.take (s : Fs) (dev k block : ℕ) : Fs :=
  ((s.setZmap dev k true).setData ⟨dev, block⟩ fun _ => 0).setUptodate ⟨dev, block⟩ true

theorem getSuper_run (h : superOf s.super dev = some sb) : getSuper dev s = .ok (some sb, s) := by
  change Except.ok (superOf s.super dev, s) = _
  rw [h]

theorem getblk_run (dev block : ℕ) (s : Fs) :
    getblk dev block s =
      .ok (⟨dev, block⟩, s.setCount ⟨dev, block⟩ (s.bcount ⟨dev, block⟩ + 1)) := rfl

theorem brelse_run {bh : Bh} {n : ℕ} (h : s.bcount bh = n + 1) :
    brelse bh s = .ok ((), s.setCount bh n) := by
  rw [brelse, Prog.read_run, if_neg (by omega), h]
  rfl

/-- Nothing is free in the map. -/
theorem newBlock_full (hsb : superOf s.super dev = some sb)
    (hfull : ∀ l < 8192 * min sb.zmapBlocks 8, s.zmap dev l = true) :
    newBlock dev s = .ok (0, s) := by
  rw [newBlock, Prog.bind_run (getSuper_run hsb)]
  dsimp only
  rw [Prog.read_run]
  cases hfind : findClear sb.zmapBlocks (s.zmap dev) 8 0 with
  | none => rfl
  | some k =>
    have hk := findClear_some hfind
    exact absurd (hfull k hk.lt) (by simp [hk.clear])

/-- The start of `new_block` with a clear bit in the map. -/
theorem newBlock_found (hsb : superOf s.super dev = some sb)
    (hk : FirstClear sb.zmapBlocks (s.zmap dev) k) :
    newBlock dev s =
      (if sb.nzones < k + sb.firstdatazone then pure 0
      else do
        let bh ← getblk dev (sb.zone k)
        let count ← Prog.read fun s => s.bcount bh
        if count ≠ 1 then Prog.fail .countNotOne
        else
          clearBlock bh
          brelse bh
          pure (sb.zone k) : K ℕ) (s.setZmap dev k true) := by
  have hbit : setZmapBit dev k s = .ok ((), s.setZmap dev k true) := by
    rw [setZmapBit, Prog.read_run, hk.clear, if_neg (by decide)]
    rfl
  rw [newBlock, Prog.bind_run (getSuper_run hsb)]
  dsimp only
  rw [Prog.read_run, hk.findClear]
  exact Prog.bind_run hbit

/-- The first clear bit belongs to no zone, but it has been set. -/
theorem newBlock_beyond (hsb : superOf s.super dev = some sb)
    (hk : FirstClear sb.zmapBlocks (s.zmap dev) k) (hbeyond : sb.nzones < k + sb.firstdatazone) :
    newBlock dev s = .ok (0, s.setZmap dev k true) := by
  rw [newBlock_found hsb hk, if_pos hbeyond]
  rfl

/-- The zone of the first clear bit is taken. -/
theorem newBlock_take (hsb : superOf s.super dev = some sb)
    (hk : FirstClear sb.zmapBlocks (s.zmap dev) k) (hzone : k + sb.firstdatazone ≤ sb.nzones)
    (hcount : s.bcount ⟨dev, sb.zone k⟩ = 0) :
    newBlock dev s = .ok (sb.zone k, s.take dev k (sb.zone k)) := by
  have hone : ((s.setZmap dev k true).setCount ⟨dev, sb.zone k⟩
      ((s.setZmap dev k true).bcount ⟨dev, sb.zone k⟩ + 1)).bcount ⟨dev, sb.zone k⟩ = 1 := by
    change Function.update s.bcount _ (s.bcount ⟨dev, sb.zone k⟩ + 1) _ = 1
    rw [Function.update_self, hcount]
  rw [newBlock_found hsb hk, if_neg (by omega), Prog.bind_run (getblk_run ..), Prog.read_run, hone,
    if_neg (by decide)]
  have hclear (t : Fs) (bh : Bh) : clearBlock bh t =
      .ok ((), (t.setData bh fun _ => 0).setUptodate bh true) := rfl
  rw [Prog.bind_run (hclear ..)]
  refine (Prog.bind_run (brelse_run (n := 0) ?_)).trans ?_
  · exact hone
  have hback : Function.update (Function.update s.bcount ⟨dev, sb.zone k⟩
      (s.bcount ⟨dev, sb.zone k⟩ + 1)) ⟨dev, sb.zone k⟩ 0 = s.bcount := by
    rw [Function.update_idem, ← hcount, Function.update_eq_self]
  change Except.ok (sb.zone k, { s.take dev k (sb.zone k) with
    bcount := Function.update (Function.update s.bcount ⟨dev, sb.zone k⟩
      (s.bcount ⟨dev, sb.zone k⟩ + 1)) ⟨dev, sb.zone k⟩ 0 }) = _
  rw [hback]
  rfl

/-- The buffer of the zone of the first clear bit is held by somebody. -/
theorem newBlock_busy (hsb : superOf s.super dev = some sb)
    (hk : FirstClear sb.zmapBlocks (s.zmap dev) k) (hzone : k + sb.firstdatazone ≤ sb.nzones)
    (hcount : s.bcount ⟨dev, sb.zone k⟩ ≠ 0) : ∃ e, newBlock dev s = .error e := by
  have hone : ((s.setZmap dev k true).setCount ⟨dev, sb.zone k⟩
      ((s.setZmap dev k true).bcount ⟨dev, sb.zone k⟩ + 1)).bcount ⟨dev, sb.zone k⟩ ≠ 1 := by
    change Function.update s.bcount _ (s.bcount ⟨dev, sb.zone k⟩ + 1) _ ≠ 1
    rw [Function.update_self]
    omega
  rw [newBlock_found hsb hk, if_neg (by omega), Prog.bind_run (getblk_run ..), Prog.read_run,
    if_pos hone]
  exact ⟨_, rfl⟩

/-- What `new_block` returns and leaves. -/
theorem newBlock_cases {z : ℕ} {s' : Fs} (h : newBlock dev s = .ok (z, s')) :
    ∃ sb, superOf s.super dev = some sb ∧
      ((z = 0 ∧ s' = s ∧ ∀ l < 8192 * min sb.zmapBlocks 8, s.zmap dev l = true) ∨
      ∃ k, FirstClear sb.zmapBlocks (s.zmap dev) k ∧
        ((sb.nzones < k + sb.firstdatazone ∧ z = 0 ∧ s' = s.setZmap dev k true) ∨
        (k + sb.firstdatazone ≤ sb.nzones ∧ s.bcount ⟨dev, sb.zone k⟩ = 0 ∧ z = sb.zone k ∧
          s' = s.take dev k (sb.zone k)))) := by
  cases hsb : superOf s.super dev with
  | none =>
    have hnone : getSuper dev s = .ok (none, s) := by
      change Except.ok (superOf s.super dev, s) = _
      rw [hsb]
    rw [newBlock, Prog.bind_run hnone] at h
    cases h
  | some sb =>
    refine ⟨sb, rfl, ?_⟩
    cases hfind : findClear sb.zmapBlocks (s.zmap dev) 8 0 with
    | none =>
      have hfull := findClear_none hfind
      rw [newBlock_full hsb hfull] at h
      cases h
      exact Or.inl ⟨rfl, rfl, hfull⟩
    | some k =>
      have hk := findClear_some hfind
      refine Or.inr ⟨k, hk, ?_⟩
      by_cases hzone : k + sb.firstdatazone ≤ sb.nzones
      · right
        by_cases hcount : s.bcount ⟨dev, sb.zone k⟩ = 0
        · rw [newBlock_take hsb hk hzone hcount] at h
          cases h
          exact ⟨hzone, hcount, rfl, rfl⟩
        · obtain ⟨e, he⟩ := newBlock_busy hsb hk hzone hcount
          rw [he] at h
          cases h
      · left
        rw [newBlock_beyond hsb hk (by omega)] at h
        cases h
        exact ⟨by omega, rfl, rfl⟩

/-! ### `new_inode` -/

/-- The bits of the inode map and the counts of the inodes are those of another state. -/
structure SameInodes (s s' : Fs) : Prop where
  imap : s'.imap = s.imap
  count : ∀ i, (s'.inode i).count = (s.inode i).count

/-- Writing an inode changes no count. -/
theorem writeInode_sameInodes (i : ℕ) (s : Fs) :
    (writeInode i).wp (fun _ s' => SameInodes s s') (fun _ _ => True) s := by
  have hbread (dev block : ℕ) : (bread dev block).wp
      (fun _ s' => s'.imap = s.imap ∧ s'.inode = s.inode) (fun _ _ => True) s := by
    simp only [bread, getblk, readBlock, brelse, Prog.wp_bind, Prog.wp_update, Prog.wp_pure,
      Prog.wp_read, Prog.wp_ite, Prog.wp_fail]
    split_ifs <;> simp [Fs.load, Fs.setCount, Fs.setUptodate, Fs.setData]
  rw [writeInode, Prog.wp_bind, Prog.wp_read, Prog.wp_ite]
  constructor
  · intro _
    exact ⟨rfl, fun _ => rfl⟩
  · intro _
    rw [Prog.wp_bind, wp_getSuper]
    cases superOf s.super (s.inode i).dev with
    | none => trivial
    | some sb =>
      apply (hbread ..).bind
      rintro bh s' ⟨himap, hinode⟩
      cases bh with
      | none => trivial
      | some bh =>
        simp only [brelse, modifyInode, Prog.wp_bind, Prog.wp_update, Prog.wp_read, Prog.wp_ite,
          Prog.wp_fail]
        refine ⟨fun _ => trivial, fun _ => ⟨himap, fun j => ?_⟩⟩
        change (Function.update s'.inode i _ j).count = _
        by_cases hj : j = i
        · rw [hj, Function.update_self]
          change (s'.inode i).count = _
          rw [hinode]
        · rw [Function.update_of_ne hj, hinode]

/-- `get_empty_inode` takes a slot with count 0. -/
theorem getEmptyInode_cases (s : Fs) :
    getEmptyInode.wp (fun i s' => (s.inode i).count = 0 ∧ s'.imap = s.imap ∧
      s'.inode i = { MInode.zero with count := 1 } ∧
      ∀ j ≠ i, (s'.inode j).count = (s.inode j).count) (fun _ _ => True) s := by
  rw [getEmptyInode, Prog.wp_bind, Prog.wp_read]
  rcases hpick : pickInode s.inode nrInode s.lastInode none with ⟨last, best⟩
  dsimp only
  rw [Prog.wp_bind, Prog.wp_update]
  cases best with
  | none => trivial
  | some i =>
    obtain ⟨-, hfree⟩ := pickInode_spec (fun j hj => absurd hj (by simp)) hpick
    dsimp only
    rw [Prog.wp_bind, Prog.wp_read, Prog.wp_ite]
    refine ⟨fun _ => trivial, fun _ => ?_⟩
    apply (writeInode_sameInodes i _).bind
    intro _ s' hsame
    refine ⟨hfree, hsame.imap, Function.update_self .., fun j hj => ?_⟩
    change (Function.update s'.inode i _ j).count = _
    rw [Function.update_of_ne hj]
    exact hsame.count j

/-- A fresh slot is given back. -/
theorem iput_fresh {i : ℕ} (h : s.inode i = { MInode.zero with count := 1 }) :
    iput i s = .ok ((), s.setInode i { MInode.zero with count := 0 }) := by
  rw [iput, Prog.read_run, h, if_neg (by decide), if_neg (by decide), if_pos (by rfl)]
  change Except.ok ((), s.setInode i ((s.inode i).addCount 65535)) = _
  rw [h]
  rfl

/-- When `new_inode` finds nothing, it has changed no bit of the inode map and no count. -/
theorem newInode_none (dev : ℕ) (s : Fs) :
    (newInode dev).wp (fun r s' => r = none → SameInodes s s') (fun _ _ => True) s := by
  apply (getEmptyInode_cases s).bind
  rintro i s₁ ⟨hfree, himap, hfresh, hothers⟩
  have hgive : (iput i >>= fun _ => pure (none : Option ℕ)).wp
      (fun r s' => r = none → SameInodes s s') (fun _ _ => True) s₁ := by
    rw [Prog.wp_bind, Prog.wp, iput_fresh hfresh]
    intro _
    refine ⟨himap, fun j => ?_⟩
    change (Function.update s₁.inode i _ j).count = _
    by_cases hj : j = i
    · rw [hj, Function.update_self, hfree]
    · rw [Function.update_of_ne hj, hothers j hj]
  rw [Prog.wp_bind, wp_getSuper]
  cases superOf s₁.super dev with
  | none => trivial
  | some sb =>
    dsimp only
    rw [Prog.wp_bind, Prog.wp_read]
    cases findClear sb.imapBlocks (s₁.imap dev) 8 0 with
    | none => exact hgive
    | some j =>
      dsimp only
      rw [Prog.wp_ite]
      refine ⟨fun _ => hgive, fun _ => ?_⟩
      rw [setImapBit, Prog.wp_bind, Prog.wp_bind, Prog.wp_read, Prog.wp_ite]
      refine ⟨fun _ => trivial, fun _ hsome => absurd hsome (by simp)⟩

/-! ### Failed allocations -/

/-- The first clear bit of the zone map, if there is one, belongs to a zone below `s_nzones`,
and this is not zone 0 with a buffer that nobody holds. -/
def FirstZoneExists (dev : ℕ) (s : Fs) : Prop :=
  ∀ sb k, superOf s.super dev = some sb → FirstClear sb.zmapBlocks (s.zmap dev) k →
    k + sb.firstdatazone ≤ sb.nzones ∧ (k + sb.firstdatazone = 1 → s.bcount ⟨dev, 0⟩ ≠ 0)

/-- A call of `new_block` that returns 0 leaves the bits of the zone maps alone if and only if
the first clear bit belongs to a zone. -/
theorem newBlock_zmap_iff (dev : ℕ) (s : Fs) :
    (∀ s', newBlock dev s = .ok (0, s') → s'.zmap = s.zmap) ↔ FirstZoneExists dev s := by
  have hset {k : ℕ} (hclear : s.zmap dev k = false) :
      Function.update s.zmap dev (Function.update (s.zmap dev) k true) ≠ s.zmap := by
    intro heq
    have hk := congrFun (congrFun heq dev) k
    rw [Function.update_self, Function.update_self, hclear] at hk
    cases hk
  constructor
  · intro hsame sb k hsb hk
    have hzone : k + sb.firstdatazone ≤ sb.nzones := by
      by_contra hbeyond
      exact hset hk.clear (hsame _ (newBlock_beyond hsb hk (by omega)))
    refine ⟨hzone, fun hone hcount => ?_⟩
    have hzero : sb.zone k = 0 := by
      rw [SuperBlock.zone, if_neg (by omega), hone]
    have htake := newBlock_take hsb hk hzone (by rw [hzero]; exact hcount)
    rw [hzero] at htake
    exact hset hk.clear (hsame _ htake)
  · intro hexists s' h
    obtain ⟨sb, hsb, hcase⟩ := newBlock_cases h
    rcases hcase with ⟨-, rfl, -⟩ | ⟨k, hk, hcase⟩
    · rfl
    · obtain ⟨hzone, hzero⟩ := hexists sb k hsb hk
      rcases hcase with ⟨hbeyond, -⟩ | ⟨-, hcount, hz, -⟩
      · omega
      · rw [SuperBlock.zone] at hz
        split_ifs at hz with h0
        have hone : k + sb.firstdatazone = 1 := by omega
        rw [SuperBlock.zone, if_neg h0, hone] at hcount
        exact absurd hcount (hzero hone)

/-- Failed calls leave the maps alone: a call of `new_block` that returns 0 changes no bit of
the zone maps, and a call of `new_inode` that returns nothing changes no bit of the inode maps
and no `i_count`. This holds if and only if the first clear bit of the zone map belongs to a
zone. -/
theorem allocation_clean_iff (dev : ℕ) (s : Fs) :
    ((∀ s', newBlock dev s = .ok (0, s') → s'.zmap = s.zmap) ∧
      ∀ s', newInode dev s = .ok (none, s') →
        s'.imap = s.imap ∧ ∀ i, (s'.inode i).count = (s.inode i).count) ↔
      FirstZoneExists dev s := by
  rw [newBlock_zmap_iff, and_iff_left]
  intro s' h
  have hsame := (newInode_none dev s).of_ok h rfl
  exact ⟨hsame.imap, hsame.count⟩

/-- A device with the zones 5 to 9, all of them in use, whose map has clear bits behind them. -/
def tailClear : Fs :=
  { Fs.empty with
    zmap := fun _ k => decide (k ≤ 5)
    super := fun _ => { SuperBlock.zero with
      ninodes := 32, nzones := 10, imapBlocks := 1, zmapBlocks := 1, firstdatazone := 5,
      dev := 1 } }

/-- `new_block` returns 0 and has set a bit behind the last zone. -/
theorem newBlock_sets_tail :
    ¬∀ s', newBlock 1 tailClear = .ok (0, s') → s'.zmap = tailClear.zmap := by
  intro hsame
  have hk : FirstClear 1 (tailClear.zmap 1) 6 := by
    constructor
    · decide
    · decide
    · intro l hl
      exact decide_eq_true (by omega)
  have hrun : newBlock 1 tailClear = .ok (0, tailClear.setZmap 1 6 true) :=
    newBlock_beyond (show superOf tailClear.super 1 = some (tailClear.super 0) from rfl) hk
      (by decide)
  have hbit := congrFun (congrFun (hsame _ hrun) 1) 6
  exact absurd hbit (by decide)

end LihaLinux.Files
