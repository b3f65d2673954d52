import LihaLinux.Files.CreateBlock

/-!
# Growing files

`create_block` gives zones to a file. What it changes on the device are the zones that the file has
got and the indirect blocks on the way to them, and no byte of the file changes, because a zone
that has been taken is cleared. The calls that are made here end: nobody holds the buffer of a zone
in the data area.
-/

namespace LihaLinux.Files

open LihaLinux.Fs (maxBlock path)

variable {s s' s'' : Fs} {sb : SuperBlock} {dev i k v : ℕ} {x : ℕ × List ℕ}

/-! ### `new_block` -/

/-- Every zone that has a bit in the zone map is taken. -/
def Full (dev : ℕ) (sb : SuperBlock) (s : Fs) : Prop :=
  ∀ z, sb.DataZone z → sb.bit z < 8192 * sb.zmapBlocks → s.zmap dev (sb.bit z) = true

/-- What `new_block` returns and leaves when it does not panic. -/
inductive Allocated (dev : ℕ) (sb : SuperBlock) (s : Fs) : ℕ → Fs → Prop
  /-- No bit is clear. -/
  | full (hfull : Full dev sb s) : Allocated dev sb s 0 s
  /-- The first clear bit belongs to no zone. -/
  | beyond (k : ℕ) (hfull : Full dev sb s) : Allocated dev sb s 0 (s.setZmap dev k true)
  /-- The first clear bit belongs to a zone. -/
  | fresh (k : ℕ) (hk : FirstClear sb.zmapBlocks (s.zmap dev) k) (hpos : 0 < k)
    (hle : k + sb.firstdatazone ≤ sb.nzones) :
    Allocated dev sb s (sb.zone k) (s.take dev k (sb.zone k))

/-- `new_block` ends if nobody holds the buffer of a zone that is not taken. -/
theorem newBlock_allocated (hsb : superOf s.super dev = some sb) (hnzones : sb.nzones < 65536)
    (hfirst : 1 ≤ sb.firstdatazone) (hzero : s.zmap dev 0 = true)
    (hfree : ∀ z, sb.DataZone z → s.zmap dev (sb.bit z) = false → s.bcount ⟨dev, z⟩ = 0) :
    ∃ v s', newBlock dev s = .ok (v, s') ∧ Allocated dev sb s v s' := by
  have hbelow : ∀ z, sb.DataZone z →
      sb.bit z < 65536 ∧ sb.bit z + sb.firstdatazone ≤ sb.nzones := by
    rintro z ⟨hlow, hhigh⟩
    rw [SuperBlock.bit]
    omega
  cases hfind : findClear sb.zmapBlocks (s.zmap dev) 8 0 with
  | none =>
    have hset := findClear_none hfind
    refine ⟨0, s, newBlock_full hsb hset, .full fun z hz hbit => hset _ ?_⟩
    have hlt := (hbelow z hz).1
    omega
  | some k =>
    have hk := findClear_some hfind
    have hpos : 0 < k := by
      rcases Nat.eq_zero_or_pos k with rfl | hpos
      · exact absurd hzero (by simp [hk.clear])
      · exact hpos
    by_cases hle : k + sb.firstdatazone ≤ sb.nzones
    · have hdata : sb.DataZone (sb.zone k) := by
        rw [SuperBlock.DataZone, SuperBlock.zone, if_neg (by omega)]
        omega
      have hcount := hfree _ hdata (by rw [sb.bit_zone hfirst]; exact hk.clear)
      exact ⟨_, _, newBlock_take hsb hk hle hcount, .fresh k hk hpos hle⟩
    · refine ⟨0, _, newBlock_beyond hsb hk (by omega), .beyond k fun z hz _ => hk.before _ ?_⟩
      have hlt := (hbelow z hz).2
      omega

namespace Allocated

theorem bytes (h : Allocated dev sb s v s') (hfirst : 1 ≤ sb.firstdatazone) (bh : Bh) :
    s'.bytes bh = if v ≠ 0 ∧ bh = ⟨dev, v⟩ then fun _ => 0 else s.bytes bh := by
  cases h with
  | full => rw [if_neg fun h => h.1 rfl]
  | beyond k =>
    rw [if_neg fun h => h.1 rfl]
    rfl
  | fresh k hk hpos =>
    have hne : sb.zone k ≠ 0 := by
      rw [SuperBlock.zone, if_neg (by omega)]
      omega
    rw [take_bytes]
    simp only [hne, ne_eq, not_false_eq_true, true_and]

/-- Only the map of the device changes. -/
theorem zmap_other (h : Allocated dev sb s v s') {d : ℕ} (hd : d ≠ dev) : s'.zmap d = s.zmap d := by
  cases h with
  | full => rfl
  | beyond k => exact Function.update_of_ne hd ..
  | fresh k => exact Function.update_of_ne hd ..

/-- A zone that is returned was free. -/
theorem data (h : Allocated dev sb s v s') (hfirst : 1 ≤ sb.firstdatazone) (hv : v ≠ 0) :
    sb.DataZone v ∧ s.zmap dev (sb.bit v) = false := by
  cases h with
  | full => exact absurd rfl hv
  | beyond k => exact absurd rfl hv
  | fresh k hk hpos hle =>
    refine ⟨?_, by rw [sb.bit_zone hfirst]; exact hk.clear⟩
    rw [SuperBlock.DataZone, SuperBlock.zone, if_neg (by omega)]
    omega

/-- Nothing is returned by a full device only. -/
theorem full_of_zero (h : Allocated dev sb s v s') (hfirst : 1 ≤ sb.firstdatazone) (hv : v = 0) :
    Full dev sb s' := by
  cases h with
  | full hfull => exact hfull
  | beyond k hfull => exact fun z hz hbit => setZmap_bits s dev k (hfull z hz hbit)
  | fresh k hk hpos hle =>
    rw [SuperBlock.zone, if_neg (by omega)] at hv
    omega

end Allocated

/-! ### What does not change -/

/-- The open files are the same, and of the inodes only `i` has changed, in its zones and times. -/
structure SameOpen (i : ℕ) (s s' : Fs) : Prop where
  file : s'.file = s.file
  task : s'.task = s.task
  current : s'.current = s.current
  super : s'.super = s.super
  bad : s'.bad = s.bad
  bcount : s'.bcount = s.bcount
  other : ∀ j, j ≠ i → s'.inode j = s.inode j
  dev : (s'.inode i).dev = (s.inode i).dev
  mode : (s'.inode i).mode = (s.inode i).mode
  size : (s'.inode i).size = (s.inode i).size
  pipe : (s'.inode i).pipe = (s.inode i).pipe

theorem SameOpen.refl (i : ℕ) (s : Fs) : SameOpen i s s :=
  ⟨rfl, rfl, rfl, rfl, rfl, rfl, fun _ _ => rfl, rfl, rfl, rfl, rfl⟩

theorem SameOpen.trans (h : SameOpen i s s') (h' : SameOpen i s' s'') : SameOpen i s s'' :=
  ⟨h'.file.trans h.file, h'.task.trans h.task, h'.current.trans h.current, h'.super.trans h.super,
    h'.bad.trans h.bad, h'.bcount.trans h.bcount,
    fun j hj => (h'.other j hj).trans (h.other j hj), h'.dev.trans h.dev, h'.mode.trans h.mode,
    h'.size.trans h.size, h'.pipe.trans h.pipe⟩

/-- A file whose zones are distinct, marked and in the data area, where nobody holds a buffer. -/
structure FileZones (i : ℕ) (sb : SuperBlock) (s : Fs) : Prop extends ZonesOk i sb s where
  first : 1 ≤ sb.firstdatazone
  quiet : ∀ z, sb.DataZone z → s.bcount ⟨(s.inode i).dev, z⟩ = 0
  data : ∀ z, s.Refers i z → sb.DataZone z

/-- What the calls that give zones to a file and write to its zones do to everything else. -/
structure Grows (i : ℕ) (sb : SuperBlock) (s s' : Fs) : Prop where
  zones : FileZones i sb s'
  file : s'.file = s.file
  task : s'.task = s.task
  current : s'.current = s.current
  super : s'.super = s.super
  bad : s'.bad = s.bad
  bcount : s'.bcount = s.bcount
  other : ∀ j, j ≠ i → s'.inode j = s.inode j
  dev : (s'.inode i).dev = (s.inode i).dev
  mode : (s'.inode i).mode = (s.inode i).mode
  pipe : (s'.inode i).pipe = (s.inode i).pipe
  slots : ∀ x ∈ zoneSlots, s.zoneIn i x ≠ 0 → s'.zoneIn i x = s.zoneIn i x
  refers : ∀ z, s.Refers i z → s'.Refers i z
  fresh : ∀ z, s'.Refers i z → s.Refers i z ∨ s.zmap (s.inode i).dev (sb.bit z) = false
  changed : ∀ bh, s'.bytes bh ≠ s.bytes bh →
    bh.dev = (s.inode i).dev ∧ s'.Refers i bh.blocknr
  zmap_other : ∀ d, d ≠ (s.inode i).dev → s'.zmap d = s.zmap d
  bits : ∀ k, s.zmap (s.inode i).dev k = true → s'.zmap (s.inode i).dev k = true

theorem Grows.refl (h : FileZones i sb s) : Grows i sb s s :=
  ⟨h, rfl, rfl, rfl, rfl, rfl, rfl, fun _ _ => rfl, rfl, rfl, rfl, fun _ _ _ => rfl,
    fun _ hz => hz, fun _ hz => Or.inl hz, fun _ hne => absurd rfl hne, fun _ _ => rfl,
    fun _ hk => hk⟩

theorem Grows.trans (h : Grows i sb s s') (h' : Grows i sb s' s'') : Grows i sb s s'' where
  zones := h'.zones
  file := h'.file.trans h.file
  task := h'.task.trans h.task
  current := h'.current.trans h.current
  super := h'.super.trans h.super
  bad := h'.bad.trans h.bad
  bcount := h'.bcount.trans h.bcount
  other j hj := (h'.other j hj).trans (h.other j hj)
  dev := h'.dev.trans h.dev
  mode := h'.mode.trans h.mode
  pipe := h'.pipe.trans h.pipe
  slots x hx hne := by
    have hfirst := h.slots x hx hne
    rw [h'.slots x hx (by rwa [hfirst]), hfirst]
  refers z hz := h'.refers z (h.refers z hz)
  fresh z hz := by
    rcases h'.fresh z hz with hz | hclear
    · exact h.fresh z hz
    · right
      rw [h.dev] at hclear
      by_contra hset
      rw [h.bits _ (by simpa using hset)] at hclear
      cases hclear
  changed bh hne := by
    by_cases hsecond : s''.bytes bh = s'.bytes bh
    · rw [hsecond] at hne
      obtain ⟨hdev, hz⟩ := h.changed bh hne
      exact ⟨hdev, h'.refers _ hz⟩
    · obtain ⟨hdev, hz⟩ := h'.changed bh hsecond
      exact ⟨hdev.trans h.dev, hz⟩
  zmap_other d hd := (h'.zmap_other d (by rwa [h.dev])).trans (h.zmap_other d hd)
  bits k hk := by
    have hk' := h.bits k hk
    rw [← h.dev] at hk' ⊢
    exact h'.bits k hk'

/-! ### The bytes of a file -/

/-- A place for the number of a block that holds bytes of the file. -/
def Leaf (x : ℕ × List ℕ) : Prop := x ∈ zoneSlots ∧ x.2.length = x.1 - 6

/-- The bytes of the block in a slot; a block that is missing is read as zeros. -/
def Fs.blockData (s : Fs) (i : ℕ) (x : ℕ × List ℕ) : ℕ → ℕ :=
  if s.zoneIn i x = 0 then fun _ => 0 else s.bytes ⟨(s.inode i).dev, s.zoneIn i x⟩

/-- The bytes of the file are the same. -/
def SameData (i : ℕ) (s s' : Fs) : Prop := ∀ x, Leaf x → s'.blockData i x = s.blockData i x

/-- The number of an indirect block of the file. -/
def Inner (i : ℕ) (s : Fs) (z : ℕ) : Prop :=
  z ≠ 0 ∧ ∃ y ∈ zoneSlots, y.2.length < y.1 - 6 ∧ s.zoneIn i y = z

theorem leaf_path {block : ℕ} (h : block < maxBlock) : Leaf (path block) :=
  ⟨path_mem h, path_length⟩

theorem SameData.trans (h : SameData i s s') (h' : SameData i s' s'') : SameData i s s'' :=
  fun x hx => (h' x hx).trans (h x hx)

/-- A block of the file is no indirect block. -/
theorem ZonesOk.leaf_ne_inner (h : ZonesOk i sb s) {z : ℕ} (hx : Leaf x) (hz : Inner i s z) :
    s.zoneIn i x ≠ z := by
  obtain ⟨hz0, y, hy, hlen, hyz⟩ := hz
  intro heq
  have hxy : x = y := h.distinct x hx.1 y hy (by
    change s.zoneIn i x ≠ 0
    rwa [heq]) (heq.trans hyz.symm)
  rw [← hxy, hx.2] at hlen
  exact absurd hlen (Nat.lt_irrefl _)

/-- A step of `create_block` that changes at most a fresh zone and indirect blocks of the file. -/
theorem Created.grows (hc : Created i sb x v s s') (hx : x ∈ zoneSlots) (h : FileZones i sb s)
    (hsame : SameOpen i s s')
    (hzmap : ∀ d, d ≠ (s.inode i).dev → s'.zmap d = s.zmap d)
    (hbytes : ∀ bh, s'.bytes bh ≠ s.bytes bh → bh.dev = (s.inode i).dev ∧
      (bh.blocknr = v ∧ v ≠ 0 ∧ s.zoneIn i x = 0 ∨ Inner i s bh.blocknr))
    (hnew : s.zoneIn i x = 0 → v ≠ 0 → sb.DataZone v ∧
      s.zmap (s.inode i).dev (sb.bit v) = false ∧ s'.bytes ⟨(s.inode i).dev, v⟩ = fun _ => 0) :
    Grows i sb s s' ∧ SameData i s s' := by
  have hrefers : ∀ z, s.Refers i z → s'.Refers i z := by
    rintro z ⟨hz, y, hy, hyz⟩
    refine ⟨hz, y, hy, ?_⟩
    rw [hc.value y hy]
    split_ifs with hyx
    · rw [hyx] at hyz
      rw [(hc.mapped (by rwa [hyz])).1, hyz]
    · exact hyz
  have hfresh : ∀ z, s'.Refers i z → s.Refers i z ∨
      (sb.DataZone z ∧ s.zmap (s.inode i).dev (sb.bit z) = false) := by
    rintro z ⟨hz, y, hy, hyz⟩
    rw [hc.value y hy] at hyz
    split_ifs at hyz with hyx
    · rw [hyz] at hc hnew
      by_cases hempty : s.zoneIn i x = 0
      · exact Or.inr ⟨(hnew hempty hz).1, (hnew hempty hz).2.1⟩
      · exact Or.inl ⟨hz, x, hx, (hc.mapped hempty).1.symm⟩
    · exact Or.inl ⟨hz, y, hy, hyz⟩
  constructor
  · constructor
    · refine ⟨hc.ok, h.first, fun z hz => ?_, fun z hz => ?_⟩
      · rw [hsame.bcount, hsame.dev]
        exact h.quiet z hz
      · rcases hfresh z hz with hold | ⟨hdata, -⟩
        · exact h.data z hold
        · exact hdata
    · exact hsame.file
    · exact hsame.task
    · exact hsame.current
    · exact hsame.super
    · exact hsame.bad
    · exact hsame.bcount
    · exact hsame.other
    · exact hsame.dev
    · exact hsame.mode
    · exact hsame.pipe
    · intro y hy hne
      rw [hc.value y hy]
      split_ifs with hyx
      · rw [hyx] at hne ⊢
        exact (hc.mapped hne).1
      · rfl
    · exact hrefers
    · exact fun z hz => (hfresh z hz).imp_right fun hclear => hclear.2
    · intro bh hne
      obtain ⟨hdev, ⟨hv, hv0, -⟩ | ⟨hz, y, hy, -, hyz⟩⟩ := hbytes bh hne
      · rw [hv]
        exact ⟨hdev, hv0, x, hx, by rw [hc.value x hx, if_pos rfl]⟩
      · exact ⟨hdev, hrefers _ ⟨hz, y, hy, hyz⟩⟩
    · exact hzmap
    · exact hc.bits
  · intro y hy
    by_cases hyx : y = x ∧ s.zoneIn i x = 0
    · obtain ⟨rfl, hempty⟩ := hyx
      have hvalue := hc.value y hx
      rw [if_pos rfl] at hvalue
      rw [Fs.blockData, Fs.blockData, if_pos hempty, hvalue, hsame.dev]
      split_ifs with hv
      · rfl
      · exact (hnew hempty hv).2.2
    · -- the number in the slot is the same, and the block with this number has not changed
      have hvalue : s'.zoneIn i y = s.zoneIn i y := by
        rw [hc.value y hy.1]
        split_ifs with heq
        · rw [heq]
          exact (hc.mapped fun hempty => hyx ⟨heq, hempty⟩).1
        · rfl
      rw [Fs.blockData, Fs.blockData, hvalue, hsame.dev]
      split_ifs with hz
      · rfl
      · by_contra hne
        obtain ⟨-, ⟨hv, hv0, hempty⟩ | hinner⟩ := hbytes _ hne
        · have hxv := hc.value x hx
          rw [if_pos rfl] at hxv
          have heq : y = x := hc.ok.distinct y hy.1 x hx (by
            change s'.zoneIn i y ≠ 0
            rwa [hvalue]) (by
            change s'.zoneIn i y = s'.zoneIn i x
            rw [hvalue, hxv]
            exact hv)
          exact hyx ⟨heq, hempty⟩
        · exact h.leaf_ne_inner hy hinner rfl

/-! ### The steps of `create_block` -/

/-- What one step has done, or several of them. -/
structure GrowsEmpty (i : ℕ) (sb : SuperBlock) (v : ℕ) (s s' : Fs) : Prop where
  grows : Grows i sb s s'
  data : SameData i s s'
  size : (s'.inode i).size = (s.inode i).size
  full : v = 0 → Full (s'.inode i).dev sb s'

/-- A slot that is in use is only read. -/
theorem GrowsEmpty.of_mapped (h : FileZones i sb s) (hx : x ∈ zoneSlots) (hv : s.zoneIn i x ≠ 0)
    (hsame : SameFiles s s') (hopen : SameOpen i s s') :
    GrowsEmpty i sb (s.zoneIn i x) s s' := by
  have hgrows := (Created.of_same h.toZonesOk x hsame).grows hx h hopen
    (fun d _ => by rw [hsame.zmap])
    (fun bh hne => absurd (by rw [hsame.bytes]) hne) fun hzero => absurd hzero hv
  exact ⟨hgrows.1, hgrows.2, hopen.size, fun hzero => absurd hzero hv⟩

/-- What `new_block` leaves alone. -/
theorem Allocated.sameOpen (h : Allocated dev sb s v s') (i : ℕ) : SameOpen i s s' := by
  cases h with
  | full => exact .refl i s
  | beyond k => exact ⟨rfl, rfl, rfl, rfl, rfl, rfl, fun _ _ => rfl, rfl, rfl, rfl, rfl⟩
  | fresh k => exact ⟨rfl, rfl, rfl, rfl, rfl, rfl, fun _ _ => rfl, rfl, rfl, rfl, rfl⟩

/-- The number of a zone fits into an entry. -/
theorem Allocated.lt (h : Allocated dev sb s v s') (hnzones : sb.nzones < 65536) : v < 65536 := by
  cases h with
  | full => omega
  | beyond k => omega
  | fresh k hk hpos hle =>
    rw [SuperBlock.zone, if_neg (by omega)]
    omega

/-- An inode with other zones and times is stored. -/
theorem setInode_sameOpen (s : Fs) (i : ℕ) {m : MInode} (hdev : m.dev = (s.inode i).dev)
    (hmode : m.mode = (s.inode i).mode) (hsize : m.size = (s.inode i).size)
    (hpipe : m.pipe = (s.inode i).pipe) : SameOpen i s (s.setInode i m) := by
  have hself : (s.setInode i m).inode i = m := Function.update_self ..
  refine ⟨rfl, rfl, rfl, rfl, rfl, rfl, fun j hj => Function.update_of_ne hj .., ?_, ?_, ?_, ?_⟩
  · rw [hself, hdev]
  · rw [hself, hmode]
  · rw [hself, hsize]
  · rw [hself, hpipe]

/-- An empty entry of `i_zone` is filled with what `new_block` returns. -/
theorem bmapZone_run {s₁ : Fs} {n j : ℕ} (hzero : (s.inode i).zone n = 0)
    (hnew : newBlock (s.inode i).dev s = .ok (j, s₁)) :
    ∃ m, bmapZone i n true s = .ok (j % 65536, s₁.setInode i m) ∧ m.dev = (s₁.inode i).dev ∧
      m.mode = (s₁.inode i).mode ∧ m.size = (s₁.inode i).size ∧ m.pipe = (s₁.inode i).pipe := by
  rw [bmapZone, Prog.read_run, if_pos ⟨rfl, hzero⟩, Prog.bind_run hnew, Prog.read_run, modifyInode,
    Prog.update_run]
  by_cases hj : j % 65536 = 0
  · rw [Prog.when, if_neg (by simpa using hj)]
    exact ⟨_, rfl, rfl, rfl, rfl, rfl⟩
  · have hself (m : MInode) : (s₁.setInode i m).inode i = m := Function.update_self ..
    have hagain (m m' : MInode) : (s₁.setInode i m).setInode i m' = s₁.setInode i m' := by
      rw [Fs.setInode, Fs.setInode, Function.update_idem]
      rfl
    rw [Prog.when, if_pos hj, modifyInode, Prog.update_run, hself, hagain]
    exact ⟨_, rfl, rfl, rfl, rfl, rfl⟩

/-- The step at `i_zone` ends. -/
theorem bmapZone_grows (h : FileZones i sb s) {n : ℕ} (hn : n < 9) :
    ∃ v s', bmapZone i n true s = .ok (v, s') ∧ s'.zoneIn i (n, []) = v ∧
      GrowsEmpty i sb v s s' := by
  have hx : (n, []) ∈ zoneSlots := ⟨hn, Nat.zero_le _, by simp⟩
  have hslot : s.zoneIn i (n, []) = (s.inode i).zone n := rfl
  by_cases hzero : (s.inode i).zone n = 0
  · obtain ⟨v, s₁, hnew, halloc⟩ := newBlock_allocated h.super h.nzones h.first h.bit_zero
      fun z hz _ => h.quiet z hz
    obtain ⟨m, hrun, hdev, hmode, hsize, hpipe⟩ := bmapZone_run hzero hnew
    rw [Nat.mod_eq_of_lt (halloc.lt h.nzones)] at hrun
    have hopen := (halloc.sameOpen i).trans (setInode_sameOpen s₁ i hdev hmode hsize hpipe)
    have hc := bmapZone_created h.toZonesOk hrun
    have hgrows := hc.grows hx h hopen (fun d hd => halloc.zmap_other hd)
      (fun bh hne => ?_) fun _ hv => ?_
    · refine ⟨v, _, hrun, ?_, hgrows.1, hgrows.2, hopen.size, fun hv => ?_⟩
      · rw [hc.value _ hx, if_pos rfl]
      · rw [hopen.dev]
        exact halloc.full_of_zero h.first hv
    · have hbytes : s₁.bytes bh ≠ s.bytes bh := hne
      rw [halloc.bytes h.first] at hbytes
      by_cases hbh : v ≠ 0 ∧ bh = ⟨(s.inode i).dev, v⟩
      · rw [hbh.2]
        exact ⟨rfl, Or.inl ⟨rfl, hbh.1, hslot.trans hzero⟩⟩
      · rw [if_neg hbh] at hbytes
        exact absurd rfl hbytes
    · obtain ⟨hdata, hclear⟩ := halloc.data h.first hv
      refine ⟨hdata, hclear, ?_⟩
      change s₁.bytes _ = _
      rw [halloc.bytes h.first, if_pos ⟨hv, rfl⟩]
  · refine ⟨_, s, ?_, hslot, ?_⟩
    · rw [bmapZone, Prog.read_run, if_neg (fun hcond => hzero hcond.2)]
      rfl
    · rw [← hslot]
      exact .of_mapped h hx (by rwa [hslot]) (SameFiles.refl s) (SameOpen.refl i s)

/-- Holding a block is seen in its count only. -/
theorem held_sameOpen (s : Fs) (bh : Bh) (i : ℕ) :
    SameOpen i s ((s.held bh).setCount bh (s.bcount bh)) := by
  have hcount : ((s.held bh).setCount bh (s.bcount bh)).bcount = s.bcount := by
    change Function.update (s.held bh).bcount bh (s.bcount bh) = s.bcount
    rw [held_bcount, Function.update_idem, Function.update_eq_self]
  have htables : (s.held bh).file = s.file ∧ (s.held bh).task = s.task ∧
      (s.held bh).current = s.current := by
    unfold Fs.held
    dsimp only
    split_ifs
    · exact ⟨rfl, rfl, rfl⟩
    · exact ⟨rfl, rfl, rfl⟩
  have hsame := held_same s bh
  have hinode : ((s.held bh).setCount bh (s.bcount bh)).inode = s.inode := hsame.inode
  refine ⟨htables.1, htables.2.1, htables.2.2, hsame.super, hsame.bad, hcount, fun j _ => ?_, ?_,
    ?_, ?_, ?_⟩ <;> rw [hinode]

/-- The state after the number of a fresh zone has been stored in a block, if there is one. -/
def Fs.filled (s : Fs) (bh : Bh) (k v : ℕ) : Fs :=
  if v = 0 then s else s.setData bh (setWord (s.data bh) k v)

/-- An empty entry of an indirect block is filled with what `new_block` returns. -/
theorem bmapEntry_fill_run {s₂ : Fs} {z : ℕ} (hbad : ∀ b, s.bad b = false)
    (hzero : s.entry dev z k = 0) (hnew : newBlock dev (s.held ⟨dev, z⟩) = .ok (v, s₂))
    (hcount : s₂.bcount = (s.held ⟨dev, z⟩).bcount) :
    bmapEntry dev z k true s =
      .ok (v, (s₂.filled ⟨dev, z⟩ k v).setCount ⟨dev, z⟩ (s.bcount ⟨dev, z⟩)) := by
  have hword : bmapWord dev ⟨dev, z⟩ k true (s.held ⟨dev, z⟩) =
      .ok (v, s₂.filled ⟨dev, z⟩ k v) := by
    rw [bmapWord, Prog.read_run, held_word hbad, if_pos ⟨rfl, hzero⟩, Prog.bind_run hnew, Fs.filled]
    by_cases hv : v = 0
    · rw [Prog.when, if_neg (by simpa using hv), if_pos hv]
      rfl
    · rw [Prog.when, if_pos hv, if_neg hv]
      rfl
  have hheld : (s₂.filled ⟨dev, z⟩ k v).bcount ⟨dev, z⟩ = s.bcount ⟨dev, z⟩ + 1 := by
    have hsame : (s₂.filled ⟨dev, z⟩ k v).bcount = s₂.bcount := by
      unfold Fs.filled
      split_ifs <;> rfl
    rw [hsame, hcount, held_bcount, Function.update_self]
  rw [bmapEntry, Prog.bind_run (bread_run hbad dev z)]
  dsimp only
  rw [Prog.bind_run hword, Prog.bind_run (brelse_run hheld)]
  rfl

/-- What filling an entry leaves alone. -/
theorem filled_same (s : Fs) (bh : Bh) (k v : ℕ) :
    SameOpen i s (s.filled bh k v) ∧ (s.filled bh k v).zmap = s.zmap ∧
      ∀ b, b ≠ bh → (s.filled bh k v).bytes b = s.bytes b := by
  unfold Fs.filled
  split_ifs
  · exact ⟨.refl i s, rfl, fun _ _ => rfl⟩
  · refine ⟨⟨rfl, rfl, rfl, rfl, rfl, rfl, fun _ _ => rfl, rfl, rfl, rfl, rfl⟩, rfl, fun b hb => ?_⟩
    change (if s.uptodate b then Function.update s.data bh _ b else s.disk b) = s.bytes b
    rw [Function.update_of_ne hb]
    rfl

/-- The step at an entry of an indirect block ends. -/
theorem bmapEntry_grows (h : FileZones i sb s) {n z : ℕ} {p : List ℕ} (hk : k < 512)
    (hslot : (n, p) ∈ zoneSlots) (hinner : p.length < n - 6) (hz : s.zoneIn i (n, p) = z)
    (hne : z ≠ 0) (hdev : (s.inode i).dev = dev) :
    ∃ v s', bmapEntry dev z k true s = .ok (v, s') ∧ s'.zoneIn i (n, p ++ [k]) = v ∧
      GrowsEmpty i sb v s s' := by
  subst hdev
  have hx : (n, p ++ [k]) ∈ zoneSlots := by
    obtain ⟨hn, -, hbound⟩ := hslot
    refine ⟨hn, by simpa using by omega, fun l hl => ?_⟩
    rcases List.mem_append.mp hl with hl | hl
    · exact hbound l hl
    · rw [List.mem_singleton.mp hl]
      exact hk
  have hvalue : s.zoneIn i (n, p ++ [k]) = s.entry (s.inode i).dev z k := by
    rw [Fs.zoneIn, IndexTree.value_concat]
    change (if s.zoneIn i (n, p) = 0 then 0 else s.entry _ (s.zoneIn i (n, p)) k) = _
    rw [hz, if_neg hne]
  have hheld := held_sameOpen s ⟨(s.inode i).dev, z⟩ i
  have hsame := held_same s ⟨(s.inode i).dev, z⟩
  by_cases hzero : s.entry (s.inode i).dev z k = 0
  · have hmarked := (h.marked z ⟨hne, _, hslot, hz⟩).2
    have hzmap : (s.held ⟨(s.inode i).dev, z⟩).zmap = s.zmap := hsame.zmap
    -- the zone whose buffer is held is not the one that is taken
    have hsuper : superOf (s.held ⟨(s.inode i).dev, z⟩).super (s.inode i).dev = some sb := by
      rw [hsame.super]
      exact h.super
    obtain ⟨v, s₂, hnew, halloc⟩ := newBlock_allocated hsuper h.nzones h.first
      (by rw [hzmap]; exact h.bit_zero) fun y hy hclear => by
        rw [hzmap] at hclear
        have hyz : (⟨(s.inode i).dev, y⟩ : Bh) ≠ ⟨(s.inode i).dev, z⟩ := by
          intro heq
          rw [(Bh.mk.inj heq).2, hmarked] at hclear
          cases hclear
        rw [held_bcount, Function.update_of_ne hyz]
        exact h.quiet y hy
    have hopen₂ := halloc.sameOpen i
    have hrun := bmapEntry_fill_run h.bad hzero hnew hopen₂.bcount
    obtain ⟨hfill, hmap, hother⟩ := filled_same (i := i) s₂ ⟨(s.inode i).dev, z⟩ k v
    generalize s₂.filled ⟨(s.inode i).dev, z⟩ k v = s₃ at hrun hfill hmap hother
    have hopen : SameOpen i s
        (s₃.setCount ⟨(s.inode i).dev, z⟩ (s.bcount ⟨(s.inode i).dev, z⟩)) := by
      have h₃ := hopen₂.trans hfill
      refine ⟨h₃.file.trans hheld.file, h₃.task.trans hheld.task, h₃.current.trans hheld.current,
        h₃.super.trans hheld.super, h₃.bad.trans hheld.bad, ?_,
        fun j hj => (h₃.other j hj).trans (hheld.other j hj), h₃.dev.trans hheld.dev,
        h₃.mode.trans hheld.mode, h₃.size.trans hheld.size, h₃.pipe.trans hheld.pipe⟩
      change Function.update s₃.bcount _ _ = s.bcount
      rw [h₃.bcount]
      exact hheld.bcount
    have hc := bmapEntry_created h.toZonesOk hslot hz hne rfl hrun
    have hgrows := hc.grows hx h hopen (fun d hd => ?_) (fun bh hbytes => ?_) fun _ hv => ?_
    · refine ⟨v, _, hrun, ?_, hgrows.1, hgrows.2, hopen.size, fun hv => ?_⟩
      · rw [hc.value _ hx, if_pos rfl]
      · rw [hopen.dev]
        intro y hy hbit
        change s₃.zmap _ _ = true
        rw [hmap]
        exact halloc.full_of_zero h.first hv y hy hbit
    · change s₃.zmap d = s.zmap d
      rw [hmap, halloc.zmap_other hd, hzmap]
    · by_cases hbh : bh = ⟨(s.inode i).dev, z⟩
      · rw [hbh]
        exact ⟨rfl, Or.inr ⟨hne, (n, p), hslot, hinner, hz⟩⟩
      · change s₃.bytes bh ≠ s.bytes bh at hbytes
        rw [hother bh hbh, halloc.bytes h.first, held_bytes] at hbytes
        by_cases hnewbh : v ≠ 0 ∧ bh = ⟨(s.inode i).dev, v⟩
        · rw [hnewbh.2]
          exact ⟨rfl, Or.inl ⟨rfl, hnewbh.1, hvalue.trans hzero⟩⟩
        · rw [if_neg hnewbh] at hbytes
          exact absurd rfl hbytes
    · obtain ⟨hdata, hclear⟩ := halloc.data h.first hv
      rw [hzmap] at hclear
      refine ⟨hdata, hclear, ?_⟩
      have hvz : (⟨(s.inode i).dev, v⟩ : Bh) ≠ ⟨(s.inode i).dev, z⟩ := by
        intro heq
        rw [(Bh.mk.inj heq).2, hmarked] at hclear
        cases hclear
      change s₃.bytes _ = _
      rw [hother _ hvz, halloc.bytes h.first, if_pos ⟨hv, rfl⟩]
  · refine ⟨_, _, bmapEntry_run h.bad (Or.inr hzero), ?_, ?_⟩
    · rw [(released_same ..).zoneIn, hvalue]
    · rw [← hvalue]
      exact .of_mapped h hx (by rwa [hvalue]) (released_same ..) hheld

/-- The steps through the indirect blocks end. -/
theorem bmapEntries_grows (h : FileZones i sb s) {n z : ℕ} {p ks : List ℕ}
    (hslot : (n, p ++ ks) ∈ zoneSlots) (hz : s.zoneIn i (n, p) = z)
    (hdev : (s.inode i).dev = dev) (hfull : z = 0 → Full dev sb s) :
    ∃ v s', bmapEntries dev true ks z s = .ok (v, s') ∧ GrowsEmpty i sb v s s' := by
  induction ks generalizing s p z with
  | nil =>
    refine ⟨z, s, rfl, Grows.refl h, fun _ _ => rfl, rfl, fun hzero => ?_⟩
    rw [hdev]
    exact hfull hzero
  | cons k ks ih =>
    rw [bmapEntries]
    by_cases hzero : z = 0
    · rw [if_pos hzero]
      refine ⟨0, s, rfl, Grows.refl h, fun _ _ => rfl, rfl, fun _ => ?_⟩
      rw [hdev]
      exact hfull hzero
    · have hway : p ++ k :: ks = p ++ [k] ++ ks := by simp
      obtain ⟨hn, hlen, hbound⟩ := hslot
      have hlen' : p.length + (ks.length + 1) ≤ n - 6 := by simpa using hlen
      have hfirst : (n, p) ∈ zoneSlots :=
        ⟨hn, by dsimp only; omega, fun l hl => hbound l (List.mem_append_left _ hl)⟩
      obtain ⟨w, s₁, hrun, hw, hstep⟩ := bmapEntry_grows h (hbound k (by simp)) hfirst
        (by omega) hz hzero hdev
      have hdev₁ := hstep.grows.dev.trans hdev
      obtain ⟨v, s', hrest, hend⟩ := ih hstep.grows.zones
        (by rw [← hway]; exact ⟨hn, hlen, hbound⟩) hw hdev₁ fun hw0 => by
          rw [← hdev₁]
          exact hstep.full hw0
      rw [if_neg hzero, Prog.bind_run hrun]
      exact ⟨v, s', hrest, hstep.grows.trans hend.grows, hstep.data.trans hend.data,
        hend.size.trans hstep.size, hend.full⟩

/-- `create_block` ends and changes no byte of the file. If it returns 0, the device is full. -/
theorem createBlock_grows (h : FileZones i sb s) {b : ℕ} (hb : b < maxBlock) :
    ∃ v s', createBlock i b s = .ok (v, s') ∧ s'.zoneIn i (path b) = v ∧
      GrowsEmpty i sb v s s' := by
  have hslot := path_mem hb
  obtain ⟨z, s₁, hzone, hz, hstep⟩ := bmapZone_grows h hslot.1
  have hdev₁ := hstep.grows.dev
  obtain ⟨v, s', hrest, hend⟩ := bmapEntries_grows (p := []) hstep.grows.zones hslot hz hdev₁
    fun hz0 => by
      rw [← hdev₁]
      exact hstep.full hz0
  have hrun : createBlock i b s = .ok (v, s') := by
    rw [createBlock, bmapBlock, if_neg (by omega), Prog.read_run, Prog.bind_run hzone]
    exact hrest
  refine ⟨v, s', hrun, (createBlock_created h.toZonesOk hb hrun).2.1,
    hstep.grows.trans hend.grows, hstep.data.trans hend.data, hend.size.trans hstep.size, hend.full⟩

end LihaLinux.Files
