import LihaLinux.Files.Truncate

/-!
# Block mapping

`bmap` finds the zone in the slot of a logical block, and `create_block` fills the empty slots on
the way to it with fresh zones. Every fill changes the zone in one slot only, so the mapping of
all other blocks stays as it is.
-/

namespace LihaLinux.Files

open LihaLinux.Fs (maxBlock path)
open LihaLinux.IndexTree (Closed Distinct Short follow follow_zero value value_concat
  value_fill_entry value_fill_root value_root)

variable {s s' s'' : Fs} {sb : SuperBlock} {dev i : ℕ}

/-! ### Slots of logical blocks -/

theorem path_mem {block : ℕ} (h : block < maxBlock) : path block ∈ zoneSlots := by
  rw [maxBlock] at h
  unfold path
  split_ifs with h₁ h₂
  · refine ⟨by dsimp only; omega, by simp, by simp⟩
  · refine ⟨by simp, by simp, ?_⟩
    intro k hk
    rw [List.mem_singleton] at hk
    omega
  · refine ⟨by simp, by simp, ?_⟩
    intro k hk
    rw [List.mem_cons, List.mem_singleton] at hk
    omega

/-- The ways of all logical blocks under an entry of `i_zone` have the same length. -/
theorem path_length {block : ℕ} : (path block).2.length = (path block).1 - 6 := by
  unfold path
  split_ifs with h₁ h₂
  · dsimp only
    rw [List.length_nil]
    omega
  · rfl
  · rfl

theorem path_inj {b b' : ℕ} (h : path b = path b') : b = b' := by
  unfold path at h
  split_ifs at h <;> simp only [Prod.mk.injEq, List.cons.injEq, and_true, reduceCtorEq, and_false,
    true_and] at h <;> omega

theorem zoneSlots_closed : Closed zoneSlots := by
  rintro n p k ⟨hn, hlen, hp⟩
  rw [List.length_append, List.length_singleton] at hlen
  exact ⟨hn, by dsimp only; omega, fun l hl => hp l (List.mem_append_left _ hl)⟩

/-! ### States with the same files -/

/-- Nothing that a call can see has changed: at most some blocks are in their buffers now. -/
structure SameFiles (s s' : Fs) : Prop where
  inode : s'.inode = s.inode
  super : s'.super = s.super
  bad : s'.bad = s.bad
  zmap : s'.zmap = s.zmap
  bcount : s'.bcount = s.bcount
  bytes : s'.bytes = s.bytes

theorem SameFiles.refl (s : Fs) : SameFiles s s := ⟨rfl, rfl, rfl, rfl, rfl, rfl⟩

theorem SameFiles.trans (h : SameFiles s s') (h' : SameFiles s' s'') : SameFiles s s'' :=
  ⟨h'.inode.trans h.inode, h'.super.trans h.super, h'.bad.trans h.bad, h'.zmap.trans h.zmap,
    h'.bcount.trans h.bcount, h'.bytes.trans h.bytes⟩

theorem SameFiles.entry (h : SameFiles s s') : s'.entry = s.entry := by
  funext e z k
  rw [Fs.entry, Fs.entry, h.bytes]

theorem SameFiles.zoneIn (h : SameFiles s s') (i : ℕ) : s'.zoneIn i = s.zoneIn i := by
  funext x
  rw [Fs.zoneIn, Fs.zoneIn, h.entry, h.inode]

/-- The state after a block has been held for a while. -/
def Fs.released (s : Fs) (bh : Bh) : Fs := (s.held bh).setCount bh (s.bcount bh)

theorem released_same (s : Fs) (bh : Bh) : SameFiles s (s.released bh) := by
  have hsame := held_same s bh
  refine ⟨hsame.inode, hsame.super, hsame.bad, hsame.zmap, ?_, held_bytes s bh⟩
  change Function.update (s.held bh).bcount bh (s.bcount bh) = s.bcount
  rw [held_bcount, Function.update_idem, Function.update_eq_self]

/-! ### `bmap` -/

/-- The number in a block that is in its buffer. -/
theorem held_word (hbad : ∀ b, s.bad b = false) (dev z k : ℕ) :
    word ((s.held ⟨dev, z⟩).data ⟨dev, z⟩) k = s.entry dev z k := by
  have hup : (s.held ⟨dev, z⟩).uptodate ⟨dev, z⟩ = true := by
    rw [held_uptodate hbad, Function.update_self]
  have hbytes : (s.held ⟨dev, z⟩).bytes ⟨dev, z⟩ = (s.held ⟨dev, z⟩).data ⟨dev, z⟩ := by
    rw [Fs.bytes, hup, if_pos rfl]
  rw [← hbytes, held_bytes]
  rfl

theorem held_count (s : Fs) (bh : Bh) : (s.held bh).bcount bh = s.bcount bh + 1 := by
  rw [held_bcount, Function.update_self]

/-- An entry that is only read, or is not empty. -/
theorem bmapEntry_run (hbad : ∀ b, s.bad b = false) {dev z k : ℕ} {create : Bool}
    (h : create = false ∨ s.entry dev z k ≠ 0) :
    bmapEntry dev z k create s = .ok (s.entry dev z k, s.released ⟨dev, z⟩) := by
  have hword : bmapWord dev ⟨dev, z⟩ k create (s.held ⟨dev, z⟩) =
      .ok (s.entry dev z k, s.held ⟨dev, z⟩) := by
    have hread : ¬(create = true ∧ s.entry dev z k = 0) := by
      rintro ⟨hcreate, hzero⟩
      rcases h with h | h
      · rw [h] at hcreate
        cases hcreate
      · exact h hzero
    rw [bmapWord, Prog.read_run, held_word hbad, if_neg hread]
    rfl
  rw [bmapEntry, Prog.bind_run (bread_run hbad dev z)]
  dsimp only
  rw [Prog.bind_run hword, Prog.bind_run (brelse_run (held_count s _))]
  rfl

/-- `bmap` finds the number at the end of the way. -/
theorem bmapEntries_run (hbad : ∀ b, s.bad b = false) (ks : List ℕ) (z : ℕ) :
    ∃ s', bmapEntries dev false ks z s = .ok (follow (s.entry dev) z ks, s') ∧ SameFiles s s' := by
  induction ks generalizing s z with
  | nil => exact ⟨s, rfl, SameFiles.refl s⟩
  | cons k ks ih =>
    rw [bmapEntries, follow]
    by_cases hz : z = 0
    · rw [if_pos hz, if_pos hz]
      exact ⟨s, rfl, SameFiles.refl s⟩
    · have hsame := released_same s ⟨dev, z⟩
      have hbad' : ∀ b, (s.released ⟨dev, z⟩).bad b = false := by
        rw [hsame.bad]
        exact hbad
      obtain ⟨s', hrun, hsame'⟩ := ih hbad' (s.entry dev z k)
      rw [hsame.entry] at hrun
      refine ⟨s', ?_, hsame.trans hsame'⟩
      rw [if_neg hz, if_neg hz, Prog.bind_run (bmapEntry_run hbad (Or.inl rfl))]
      exact hrun

/-- `bmap` finds the zone in the slot of a logical block and changes nothing. -/
theorem bmap_run (hbad : ∀ b, s.bad b = false) (i : ℕ) {block : ℕ} (hblock : block < maxBlock) :
    ∃ s', bmap i block s = .ok (s.zoneIn i (path block), s') ∧ SameFiles s s' := by
  have hzone : bmapZone i (path block).1 false s = .ok ((s.inode i).zone (path block).1, s) := by
    rw [bmapZone, Prog.read_run, if_neg (by simp)]
    rfl
  obtain ⟨s', hrun, hsame⟩ := bmapEntries_run hbad (path block).2 ((s.inode i).zone (path block).1)
  refine ⟨s', ?_, hsame⟩
  rw [bmap, bmapBlock, if_neg (by omega), Prog.read_run, Prog.bind_run hzone]
  exact hrun

/-! ### Files whose zones are distinct and marked -/

/-- An inode on a mounted device whose zones are distinct and marked. Bit 0 of the zone map has
been set by `read_super`. -/
structure ZonesOk (i : ℕ) (sb : SuperBlock) (s : Fs) : Prop where
  super : superOf s.super (s.inode i).dev = some sb
  nzones : sb.nzones < 65536
  bit_zero : s.zmap (s.inode i).dev 0 = true
  bad : ∀ b, s.bad b = false
  distinct : s.ZonesDistinct i
  marked : ∀ z, s.Refers i z → Marked (s.inode i).dev sb s z

/-- Nothing happens to the slots, and no bit of the zone map is cleared. -/
structure SlotsKept (i : ℕ) (s s' : Fs) : Prop where
  super : s'.super = s.super
  bad : s'.bad = s.bad
  dev : (s'.inode i).dev = (s.inode i).dev
  bits : ∀ k, s.zmap (s.inode i).dev k = true → s'.zmap (s.inode i).dev k = true

/-- A change of the state that puts zone `v` into slot `x` and leaves all other slots alone. -/
structure SlotSet (i : ℕ) (x : ℕ × List ℕ) (v : ℕ) (s s' : Fs) : Prop extends
    SlotsKept i s s' where
  value : ∀ y ∈ zoneSlots, s'.zoneIn i y = if y = x then v else s.zoneIn i y

variable {x : ℕ × List ℕ} {k v : ℕ}

theorem SlotsKept.marked (h : SlotsKept i s s') {z : ℕ} (hz : Marked (s.inode i).dev sb s z) :
    Marked (s'.inode i).dev sb s' z := by
  rw [h.dev]
  exact ⟨hz.1, h.bits _ hz.2⟩

/-- A zone with a clear bit is not referred to. -/
theorem ZonesOk.fresh (h : ZonesOk i sb s)
    (hk : FirstClear sb.zmapBlocks (s.zmap (s.inode i).dev) k) (hne : sb.zone k ≠ 0)
    {y : ℕ × List ℕ} (hy : y ∈ zoneSlots) : s.zoneIn i y ≠ sb.zone k := by
  intro heq
  have hpos : k ≠ 0 := by
    rintro rfl
    exact absurd h.bit_zero (by simp [hk.clear])
  have hmarked := (h.marked (sb.zone k) ⟨hne, y, hy, heq⟩).2
  have hbit : sb.bit (sb.zone k) = k := by
    rw [SuperBlock.bit, SuperBlock.zone, if_neg (by omega)]
    omega
  rw [hbit, hk.clear] at hmarked
  cases hmarked

/-- An empty slot stays empty. -/
theorem ZonesOk.keep (h : ZonesOk i sb s) (hset : SlotSet i x 0 s s') (hempty : s.zoneIn i x = 0) :
    ZonesOk i sb s' := by
  have hvalue : ∀ y ∈ zoneSlots, s'.zoneIn i y = s.zoneIn i y := by
    intro y hy
    rw [hset.value y hy]
    split_ifs with hyx
    · rw [hyx, hempty]
    · rfl
  constructor
  · rw [hset.super, hset.dev]
    exact h.super
  · exact h.nzones
  · rw [hset.dev]
    exact hset.bits 0 h.bit_zero
  · rw [hset.bad]
    exact h.bad
  · intro y hy z hz hne heq
    have hy' : value (s'.inode i).zone (s'.entry (s'.inode i).dev) y = s.zoneIn i y := hvalue y hy
    have hz' : value (s'.inode i).zone (s'.entry (s'.inode i).dev) z = s.zoneIn i z := hvalue z hz
    rw [hy'] at hne heq
    rw [hz'] at heq
    exact h.distinct y hy z hz hne heq
  · rintro z ⟨hne, y, hy, hyz⟩
    rw [hvalue y hy] at hyz
    exact hset.marked (h.marked z ⟨hne, y, hy, hyz⟩)

/-- A zone with a clear bit is put into a slot, and its bit is set. -/
theorem ZonesOk.fill (h : ZonesOk i sb s)
    (hk : FirstClear sb.zmapBlocks (s.zmap (s.inode i).dev) k) (hne : sb.zone k ≠ 0)
    (hset : SlotSet i x (sb.zone k) s s') (hbit : s'.zmap (s.inode i).dev k = true) :
    ZonesOk i sb s' := by
  have hpos : k ≠ 0 := by
    rintro rfl
    exact absurd h.bit_zero (by simp [hk.clear])
  constructor
  · rw [hset.super, hset.dev]
    exact h.super
  · exact h.nzones
  · rw [hset.dev]
    exact hset.bits 0 h.bit_zero
  · rw [hset.bad]
    exact h.bad
  · exact Distinct.fill h.distinct (fun y hy => h.fresh hk hne hy) hset.value
  · rintro z ⟨hz, y, hy, hyz⟩
    rw [hset.value y hy] at hyz
    split_ifs at hyz with hyx
    · have hlt := hk.lt
      have hzk : sb.bit z = k := by
        rw [← hyz, SuperBlock.bit, SuperBlock.zone, if_neg (by omega)]
        omega
      rw [Marked, hzk, hset.dev]
      exact ⟨by omega, hbit⟩
    · exact hset.marked (h.marked z ⟨hz, y, hy, hyz⟩)

/-- What a call of `create_block` has done when it has come to slot `x` with zone `v`. -/
structure Created (i : ℕ) (sb : SuperBlock) (x : ℕ × List ℕ) (v : ℕ) (s s' : Fs) : Prop extends
    SlotSet i x v s s' where
  ok : ZonesOk i sb s'
  mapped : s.zoneIn i x ≠ 0 → v = s.zoneIn i x ∧ SameFiles s s'

/-- A slot that is in use is only read. -/
theorem Created.of_same (h : ZonesOk i sb s) (x : ℕ × List ℕ) (hsame : SameFiles s s') :
    Created i sb x (s.zoneIn i x) s s' := by
  have hinode : s'.inode i = s.inode i := congrFun hsame.inode i
  have hkept : SlotsKept i s s' :=
    ⟨hsame.super, hsame.bad, by rw [hinode], fun k hk => by rw [hsame.zmap]; exact hk⟩
  refine ⟨⟨hkept, fun y _ => ?_⟩, ?_, fun _ => ⟨rfl, hsame⟩⟩
  · rw [hsame.zoneIn]
    split_ifs with hyx
    · rw [hyx]
    · rfl
  · constructor
    · rw [hkept.super, hkept.dev]
      exact h.super
    · exact h.nzones
    · rw [hkept.dev]
      exact hkept.bits 0 h.bit_zero
    · rw [hkept.bad]
      exact h.bad
    · have hdistinct := h.distinct
      unfold Fs.ZonesDistinct at hdistinct ⊢
      rwa [hinode, hsame.entry]
    · rintro z ⟨hne, y, hy, hyz⟩
      rw [hsame.zoneIn] at hyz
      exact hkept.marked (h.marked z ⟨hne, y, hy, hyz⟩)

/-! ### `new_block` and the blocks -/

theorem take_bytes (s : Fs) (dev k block : ℕ) (bh : Bh) :
    (s.take dev k block).bytes bh = if bh = ⟨dev, block⟩ then fun _ => 0 else s.bytes bh := by
  change (if Function.update s.uptodate ⟨dev, block⟩ true bh then
    Function.update s.data ⟨dev, block⟩ (fun _ => 0) bh else s.disk bh) = _
  split_ifs with h₁ h₂ h₂
  · rw [h₂, Function.update_self]
  · rw [Function.update_of_ne h₂] at h₁ ⊢
    rw [Fs.bytes, if_pos h₁]
  · rw [h₂, Function.update_self] at h₁
    exact absurd rfl h₁
  · rw [Function.update_of_ne h₂] at h₁
    rw [Fs.bytes, if_neg h₁]

theorem take_entry (s : Fs) (dev k block z : ℕ) :
    (s.take dev k block).entry dev z = if z = block then fun _ => 0 else s.entry dev z := by
  funext l
  rw [Fs.entry, take_bytes]
  by_cases hz : z = block
  · rw [if_pos (by rw [hz]), if_pos hz]
    rfl
  · have hne : (⟨dev, z⟩ : Bh) ≠ ⟨dev, block⟩ := by
      intro heq
      cases heq
      exact hz rfl
    rw [if_neg hne, if_neg hz]
    rfl

theorem setZmap_bits (s : Fs) (dev k : ℕ) {l : ℕ} (hl : s.zmap dev l = true) :
    (s.setZmap dev k true).zmap dev l = true := by
  change Function.update s.zmap dev (Function.update (s.zmap dev) k true) dev l = true
  rw [Function.update_self]
  by_cases hlk : l = k
  · rw [hlk, Function.update_self]
  · rwa [Function.update_of_ne hlk]

/-- A block with the number 0 is no indirect block. -/
theorem zoneIn_congr (hzone : (s'.inode i).zone = (s.inode i).zone)
    (hdev : (s'.inode i).dev = (s.inode i).dev)
    (hentry : ∀ z, z ≠ 0 → s'.entry (s.inode i).dev z = s.entry (s.inode i).dev z)
    (y : ℕ × List ℕ) : s'.zoneIn i y = s.zoneIn i y := by
  obtain ⟨n, p⟩ := y
  rw [Fs.zoneIn, Fs.zoneIn, hzone, hdev]
  induction p using List.reverseRecOn with
  | nil => rfl
  | append_singleton p k ih =>
    rw [value_concat, value_concat, ih]
    split_ifs with hz
    · rfl
    · rw [hentry _ hz]

/-- What a call of `new_block` that returns 0 can have done. -/
structure AllocFailed (dev : ℕ) (s s' : Fs) : Prop where
  inode : s'.inode = s.inode
  super : s'.super = s.super
  bad : s'.bad = s.bad
  bcount : s'.bcount = s.bcount
  bits : ∀ k, s.zmap dev k = true → s'.zmap dev k = true
  entry : ∀ z, z ≠ 0 → s'.entry dev z = s.entry dev z

/-- `new_block` has returned 0, or the number of a zone with a clear bit. -/
theorem newBlock_outcome (hsb : superOf s.super dev = some sb) {j : ℕ}
    (h : newBlock dev s = .ok (j, s')) :
    (j = 0 ∧ AllocFailed dev s s') ∨
      ∃ k, FirstClear sb.zmapBlocks (s.zmap dev) k ∧ k + sb.firstdatazone ≤ sb.nzones ∧
        j = sb.zone k ∧ j ≠ 0 ∧ s' = s.take dev k j := by
  obtain ⟨sb', hsb', hcase⟩ := newBlock_cases h
  obtain rfl : sb = sb' := Option.some.inj (hsb.symm.trans hsb')
  rcases hcase with ⟨rfl, rfl, -⟩ | ⟨k, hk, ⟨-, rfl, rfl⟩ | ⟨hle, -, rfl, rfl⟩⟩
  · exact Or.inl ⟨rfl, rfl, rfl, rfl, rfl, fun _ hl => hl, fun _ _ => rfl⟩
  · exact Or.inl ⟨rfl, rfl, rfl, rfl, rfl, fun _ => setZmap_bits s dev k, fun _ _ => rfl⟩
  · by_cases hzero : sb.zone k = 0
    · -- bit 1 of a device whose first data zone is 0
      refine Or.inl ⟨hzero, rfl, rfl, rfl, rfl, fun _ => setZmap_bits s dev k, fun z hz => ?_⟩
      rw [take_entry, if_neg (by rwa [hzero])]
    · exact Or.inr ⟨k, hk, hle, rfl, hzero, rfl⟩

/-! ### The steps of `create_block` -/

theorem AllocFailed.slotsKept (h : AllocFailed (s.inode i).dev s s') : SlotsKept i s s' :=
  ⟨h.super, h.bad, by rw [h.inode], h.bits⟩

/-- An empty entry of `i_zone` is filled. -/
theorem bmapZone_fills {n : ℕ} (hzero : (s.inode i).zone n = 0)
    (h : bmapZone i n true s = .ok (v, s')) :
    ∃ j s₁, newBlock (s.inode i).dev s = .ok (j, s₁) ∧ v = j % 65536 ∧
      (s'.inode i).zone = Function.update (s₁.inode i).zone n v ∧
      (s'.inode i).dev = (s₁.inode i).dev ∧ s'.super = s₁.super ∧ s'.bad = s₁.bad ∧
      s'.zmap = s₁.zmap ∧ s'.entry = s₁.entry := by
  rw [bmapZone, Prog.read_run, if_pos ⟨rfl, hzero⟩] at h
  obtain ⟨j, s₁, hnew, h⟩ := Prog.of_bind_run h
  refine ⟨j, s₁, hnew, ?_⟩
  rw [Prog.read_run, modifyInode, Prog.update_run] at h
  by_cases hj : j % 65536 = 0
  · rw [Prog.when, if_neg (by simpa using hj)] at h
    cases h
    refine ⟨rfl, ?_, ?_, rfl, rfl, rfl, rfl⟩
    · change (Function.update s₁.inode i _ i).zone = _
      rw [Function.update_self]
    · change (Function.update s₁.inode i _ i).dev = _
      rw [Function.update_self]
  · rw [Prog.when, if_pos hj] at h
    cases h
    refine ⟨rfl, ?_, ?_, rfl, rfl, rfl, rfl⟩
    · change (Function.update (Function.update s₁.inode i _) i _ i).zone = _
      rw [Function.update_self]
      change (Function.update s₁.inode i _ i).zone = _
      rw [Function.update_self]
    · change (Function.update (Function.update s₁.inode i _) i _ i).dev = _
      rw [Function.update_self]
      change (Function.update s₁.inode i _ i).dev = _
      rw [Function.update_self]

/-- The step of `create_block` at `i_zone`. -/
theorem bmapZone_created (h : ZonesOk i sb s) {n : ℕ}
    (hrun : bmapZone i n true s = .ok (v, s')) : Created i sb (n, []) v s s' := by
  have hslot : s.zoneIn i (n, []) = (s.inode i).zone n := rfl
  by_cases hzero : (s.inode i).zone n = 0
  · obtain ⟨j, s₁, hnew, hv, hzone, hdev, hsuper, hbad, hzmap, hentry⟩ := bmapZone_fills hzero hrun
    have hnever {P : Prop} (hne : s.zoneIn i (n, []) ≠ 0) : P := absurd (hslot.trans hzero) hne
    rcases newBlock_outcome h.super hnew with ⟨rfl, hfail⟩ | ⟨k, hk, hle, hj, hne, rfl⟩
    · have hkept : SlotsKept i s s' := by
        have hsame := hfail.slotsKept
        exact ⟨hsuper.trans hsame.super, hbad.trans hsame.bad, hdev.trans hsame.dev,
          fun k hk => by rw [hzmap]; exact hsame.bits k hk⟩
      rw [Nat.zero_mod] at hv
      have hset : SlotSet i (n, []) v s s' := by
        refine ⟨hkept, fun y _ => ?_⟩
        have hvalue : s'.zoneIn i y = s.zoneIn i y := by
          refine zoneIn_congr ?_ hkept.dev (fun z hz => ?_) y
          · rw [hzone, hfail.inode, hv, ← hzero, Function.update_eq_self]
          · rw [hentry]
            exact hfail.entry z hz
        rw [hvalue]
        split_ifs with hy
        · rw [hy, hv]
          exact hzero
        · rfl
      refine ⟨hset, ?_, hnever⟩
      rw [hv] at hset
      exact h.keep hset hzero
    · have hlt : j < 65536 := by
        have hnzones := h.nzones
        rw [hj, SuperBlock.zone, if_neg]
        · omega
        · intro h0
          have hk0 : k = 0 := by omega
          have hclear := hk.clear
          rw [hk0, h.bit_zero] at hclear
          cases hclear
      rw [Nat.mod_eq_of_lt hlt] at hv
      subst hv
      have hkept : SlotsKept i s s' := by
        refine ⟨hsuper, hbad, hdev, fun l hl => ?_⟩
        rw [hzmap]
        exact setZmap_bits s _ k hl
      have hset : SlotSet i (n, []) v s s' := by
        refine ⟨hkept, fun y hy => ?_⟩
        have hother (z : ℕ) (hz : z ≠ v) :
            s'.entry (s'.inode i).dev z = s.entry (s.inode i).dev z := by
          rw [hkept.dev, hentry, take_entry, if_neg hz]
        have hnew (l : ℕ) : s'.entry (s'.inode i).dev v l = 0 := by
          rw [hkept.dev, hentry, take_entry, if_pos rfl]
        have hfresh : ∀ y ∈ zoneSlots, s.zoneIn i y ≠ v := by
          intro y hy
          rw [hj]
          exact h.fresh hk (hj ▸ hne) hy
        exact value_fill_root zoneSlots_closed hzero hfresh hzone hother hnew hy
      refine ⟨hset, ?_, hnever⟩
      rw [hj] at hset
      refine h.fill hk (hj ▸ hne) hset ?_
      rw [hzmap]
      change Function.update s.zmap _ (Function.update (s.zmap _) k true) _ k = true
      rw [Function.update_self, Function.update_self]
  · have hread : bmapZone i n true s = .ok ((s.inode i).zone n, s) := by
      rw [bmapZone, Prog.read_run, if_neg (fun hcond => hzero hcond.2)]
      rfl
    rw [hread] at hrun
    cases hrun
    exact Created.of_same h _ (SameFiles.refl s)

theorem of_brelse_run {bh : Bh} {u : Unit} (h : brelse bh s = .ok (u, s')) :
    s' = s.setCount bh (s.bcount bh - 1) := by
  rw [brelse, Prog.read_run] at h
  split_ifs at h
  · cases h
  · cases h
    rfl

/-- An empty entry of an indirect block is filled. -/
theorem bmapEntry_fills (hbad : ∀ b, s.bad b = false) {z : ℕ} (hzero : s.entry dev z k = 0)
    (hrun : bmapEntry dev z k true s = .ok (v, s')) :
    ∃ s₂ c, newBlock dev (s.held ⟨dev, z⟩) = .ok (v, s₂) ∧
      s' = (if v = 0 then s₂ else
        s₂.setData ⟨dev, z⟩ (setWord (s₂.data ⟨dev, z⟩) k v)).setCount ⟨dev, z⟩ c := by
  rw [bmapEntry, Prog.bind_run (bread_run hbad dev z)] at hrun
  dsimp only at hrun
  obtain ⟨w, s₃, hword, hrun⟩ := Prog.of_bind_run hrun
  obtain ⟨_, s₄, hrelease, hrun⟩ := Prog.of_bind_run hrun
  cases hrun
  rw [bmapWord, Prog.read_run, held_word hbad, if_pos ⟨rfl, hzero⟩] at hword
  obtain ⟨j, s₂, hnew, hword⟩ := Prog.of_bind_run hword
  obtain ⟨_, s₅, hstore, hword⟩ := Prog.of_bind_run hword
  cases hword
  have hs₃ : s₃ = if v = 0 then s₂ else
      s₂.setData ⟨dev, z⟩ (setWord (s₂.data ⟨dev, z⟩) k v) := by
    by_cases hv : v = 0
    · rw [Prog.when, if_neg (by simpa using hv)] at hstore
      cases hstore
      rw [if_pos hv]
    · rw [Prog.when, if_pos hv] at hstore
      cases hstore
      rw [if_neg hv]
  refine ⟨s₂, s₃.bcount ⟨dev, z⟩ - 1, hnew, ?_⟩
  rw [← hs₃]
  exact of_brelse_run hrelease

/-- The numbers in the blocks after one has been stored. -/
theorem setData_entry {z : ℕ} (hup : s.uptodate ⟨dev, z⟩ = true) (k v y : ℕ) :
    (s.setData ⟨dev, z⟩ (setWord (s.data ⟨dev, z⟩) k v)).entry dev y =
      if y = z then Function.update (s.entry dev z) k (v % 65536) else s.entry dev y := by
  funext l
  rw [Fs.entry, Fs.bytes]
  by_cases hy : y = z
  · rw [if_pos hy, hy]
    have hdata : (s.setData ⟨dev, z⟩ (setWord (s.data ⟨dev, z⟩) k v)).data ⟨dev, z⟩ =
        setWord (s.data ⟨dev, z⟩) k v := Function.update_self ..
    have hup' : (s.setData ⟨dev, z⟩ (setWord (s.data ⟨dev, z⟩) k v)).uptodate ⟨dev, z⟩ = true := hup
    rw [hup', if_pos rfl, hdata, word_setWord]
    by_cases hl : l = k
    · rw [if_pos hl, hl, Function.update_self]
    · rw [if_neg hl, Function.update_of_ne hl, Fs.entry, Fs.bytes, hup, if_pos rfl]
  · rw [if_neg hy, Fs.entry, Fs.bytes]
    have hne : (⟨dev, y⟩ : Bh) ≠ ⟨dev, z⟩ := by
      intro heq
      cases heq
      exact hy rfl
    have hdata : (s.setData ⟨dev, z⟩ (setWord (s.data ⟨dev, z⟩) k v)).data ⟨dev, y⟩ =
        s.data ⟨dev, y⟩ := Function.update_of_ne hne ..
    rw [hdata]
    rfl

/-- The state after a fresh zone has been stored in an entry of a block. -/
def Fs.stored (s : Fs) (dev z k l v c : ℕ) : Fs :=
  let s₂ := (s.held ⟨dev, z⟩).take dev l v
  (s₂.setData ⟨dev, z⟩ (setWord (s₂.data ⟨dev, z⟩) k v)).setCount ⟨dev, z⟩ c

theorem stored_same (s : Fs) (dev z k l v c : ℕ) :
    (s.stored dev z k l v c).inode = s.inode ∧ (s.stored dev z k l v c).super = s.super ∧
      (s.stored dev z k l v c).bad = s.bad ∧
      (s.stored dev z k l v c).zmap = (s.setZmap dev l true).zmap := by
  have hsame := held_same s ⟨dev, z⟩
  refine ⟨hsame.inode, hsame.super, hsame.bad, ?_⟩
  change Function.update (s.held ⟨dev, z⟩).zmap dev
    (Function.update ((s.held ⟨dev, z⟩).zmap dev) l true) = _
  rw [hsame.zmap]
  rfl

theorem stored_entry (hbad : ∀ b, s.bad b = false) {dev z k l v c : ℕ} (hne : z ≠ v)
    (hlt : v < 65536) (y : ℕ) :
    (s.stored dev z k l v c).entry dev y =
      if y = z then Function.update (s.entry dev z) k v
      else if y = v then fun _ => 0 else s.entry dev y := by
  have hup : ((s.held ⟨dev, z⟩).take dev l v).uptodate ⟨dev, z⟩ = true := by
    have hbh : (⟨dev, z⟩ : Bh) ≠ ⟨dev, v⟩ := fun heq => hne (Bh.mk.inj heq).2
    change Function.update (s.held ⟨dev, z⟩).uptodate ⟨dev, v⟩ true ⟨dev, z⟩ = true
    rw [Function.update_of_ne hbh, held_uptodate hbad, Function.update_self]
  have hentry := setData_entry hup k v y
  rw [take_entry, take_entry, if_neg hne, held_entry, Nat.mod_eq_of_lt hlt] at hentry
  exact hentry

/-- A zone with a clear bit has a number that fits into an entry. -/
theorem ZonesOk.zone_lt (h : ZonesOk i sb s)
    (hk : FirstClear sb.zmapBlocks (s.zmap (s.inode i).dev) k)
    (hle : k + sb.firstdatazone ≤ sb.nzones) : sb.zone k < 65536 := by
  have hnzones := h.nzones
  rw [SuperBlock.zone, if_neg]
  · omega
  · intro h0
    have hk0 : k = 0 := by omega
    have hclear := hk.clear
    rw [hk0, h.bit_zero] at hclear
    cases hclear

/-- The step of `create_block` at an entry of an indirect block. -/
theorem bmapEntry_created (h : ZonesOk i sb s) {n z : ℕ} {p : List ℕ} (hslot : (n, p) ∈ zoneSlots)
    (hz : s.zoneIn i (n, p) = z) (hne : z ≠ 0) (hdev : (s.inode i).dev = dev)
    (hrun : bmapEntry dev z k true s = .ok (v, s')) : Created i sb (n, p ++ [k]) v s s' := by
  have hvalue : s.zoneIn i (n, p ++ [k]) = s.entry dev z k := by
    have hconcat : value (s.inode i).zone (s.entry (s.inode i).dev) (n, p ++ [k]) = _ :=
      value_concat n p k
    have hz' : value (s.inode i).zone (s.entry (s.inode i).dev) (n, p) = z := hz
    rw [hz', if_neg hne, hdev] at hconcat
    rw [Fs.zoneIn, hdev]
    exact hconcat
  by_cases hzero : s.entry dev z k = 0
  · have hsame := held_same s ⟨dev, z⟩
    have hsb : superOf (s.held ⟨dev, z⟩).super dev = some sb := by
      rw [hsame.super, ← hdev]
      exact h.super
    have hempty : s.zoneIn i (n, p ++ [k]) = 0 := hvalue.trans hzero
    obtain ⟨s₂, c, hnew, rfl⟩ := bmapEntry_fills h.bad hzero hrun
    rcases newBlock_outcome hsb hnew with ⟨rfl, hfail⟩ | ⟨l, hl, hle, rfl, hv0, rfl⟩
    · rw [if_pos rfl]
      have hinode : s₂.inode = s.inode := hfail.inode.trans hsame.inode
      have hkept : SlotsKept i s (s₂.setCount ⟨dev, z⟩ c) := by
        refine ⟨hfail.super.trans hsame.super, hfail.bad.trans hsame.bad, ?_, fun l hl => ?_⟩
        · exact congrArg MInode.dev (congrFun hinode i)
        · rw [hdev] at hl ⊢
          exact hfail.bits l (by rwa [hsame.zmap])
      have hset : SlotSet i (n, p ++ [k]) 0 s (s₂.setCount ⟨dev, z⟩ c) := by
        refine ⟨hkept, fun y _ => ?_⟩
        have hzone : s₂.inode i = s.inode i := congrFun hinode i
        rw [zoneIn_congr (s := s) (congrArg (fun m => m.zone) hzone) hkept.dev (fun z hz => ?_) y]
        · split_ifs with hy
          · rw [hy, hempty]
          · rfl
        · rw [hdev]
          exact (hfail.entry z hz).trans (by rw [held_entry])
      exact ⟨hset, h.keep hset hempty, fun hmapped => absurd hempty hmapped⟩
    · rw [hsame.zmap, ← hdev] at hl
      rw [if_neg hv0]
      change Created i sb (n, p ++ [k]) (sb.zone l) s (s.stored dev z k l (sb.zone l) c)
      have hfresh : ∀ y ∈ zoneSlots, s.zoneIn i y ≠ sb.zone l := fun y hy => h.fresh hl hv0 hy
      have hother : z ≠ sb.zone l := hz ▸ hfresh _ hslot
      obtain ⟨hinode, hsuper, hbad, hzmap⟩ := stored_same s dev z k l (sb.zone l) c
      have hentry (y : ℕ) : (s.stored dev z k l (sb.zone l) c).entry dev y =
          if y = z then Function.update (s.entry dev z) k (sb.zone l)
          else if y = sb.zone l then fun _ => 0 else s.entry dev y :=
        stored_entry h.bad hother (h.zone_lt hl hle) y
      have hkept : SlotsKept i s (s.stored dev z k l (sb.zone l) c) := by
        refine ⟨hsuper, hbad, by rw [hinode], fun b hb => ?_⟩
        rw [hzmap, hdev]
        exact setZmap_bits s _ l (hdev ▸ hb)
      have hset : SlotSet i (n, p ++ [k]) (sb.zone l) s (s.stored dev z k l (sb.zone l) c) := by
        refine ⟨hkept, fun y hy => ?_⟩
        have hnode : value (s.inode i).zone (s.entry dev) (n, p) = z := by
          rw [← hdev]
          exact hz
        have hdistinct := h.distinct
        unfold Fs.ZonesDistinct at hdistinct
        unfold Fs.zoneIn at hfresh ⊢
        rw [hinode]
        rw [hdev] at hdistinct hfresh ⊢
        refine value_fill_entry zoneSlots_closed hdistinct hslot (by rwa [hnode])
          (by rwa [hnode]) hfresh (fun y hyv hyz => ?_) ?_ (fun b => ?_) hy
        · rw [hnode] at hyz
          rw [hentry, if_neg hyz, if_neg hyv]
        · rw [hnode, hentry, if_pos rfl]
        · rw [hentry, if_neg hother.symm, if_pos rfl]
      refine ⟨hset, ?_, fun hmapped => absurd hempty hmapped⟩
      refine h.fill hl hv0 hset ?_
      rw [hzmap, hdev]
      change Function.update s.zmap dev (Function.update (s.zmap dev) l true) dev l = true
      rw [Function.update_self, Function.update_self]
  · rw [bmapEntry_run h.bad (Or.inr hzero)] at hrun
    cases hrun
    rw [← hvalue]
    exact Created.of_same h _ (released_same ..)

/-! ### `create_block` -/

/-- What a call of `create_block` has done when it has come from slot `(n, p)` to the slot behind
it along `ks`: at most the slots on this way have changed. -/
structure CreatedAlong (i : ℕ) (sb : SuperBlock) (n : ℕ) (p ks : List ℕ) (v : ℕ) (s s' : Fs) :
    Prop where
  ok : ZonesOk i sb s'
  value : s'.zoneIn i (n, p ++ ks) = v
  others : ∀ y ∈ zoneSlots, (∀ q, q ≠ [] → q <+: ks → y ≠ (n, p ++ q)) →
    s'.zoneIn i y = s.zoneIn i y
  mapped : s.zoneIn i (n, p ++ ks) ≠ 0 → v = s.zoneIn i (n, p ++ ks) ∧ SameFiles s s'

/-- Behind an empty slot all slots are empty. -/
theorem zoneIn_append {n : ℕ} {p : List ℕ} (h : s.zoneIn i (n, p) = 0) (ks : List ℕ) :
    s.zoneIn i (n, p ++ ks) = 0 := by
  induction ks using List.reverseRecOn with
  | nil => rwa [List.append_nil]
  | append_singleton ks k ih =>
    have hconcat : value (s.inode i).zone (s.entry (s.inode i).dev) (n, p ++ ks ++ [k]) = _ :=
      value_concat n (p ++ ks) k
    have ih' : value (s.inode i).zone (s.entry (s.inode i).dev) (n, p ++ ks) = 0 := ih
    rw [ih', if_pos rfl] at hconcat
    rw [← List.append_assoc]
    exact hconcat

/-- The induction over the indirect blocks. -/
theorem bmapEntries_created (h : ZonesOk i sb s) {n z : ℕ} {p ks : List ℕ}
    (hslot : (n, p ++ ks) ∈ zoneSlots) (hz : s.zoneIn i (n, p) = z)
    (hdev : (s.inode i).dev = dev) (hrun : bmapEntries dev true ks z s = .ok (v, s')) :
    CreatedAlong i sb n p ks v s s' := by
  induction ks generalizing s p z with
  | nil =>
    cases hrun
    refine ⟨h, by rw [List.append_nil, hz], fun _ _ _ => rfl, fun _ => ⟨?_, SameFiles.refl _⟩⟩
    rw [List.append_nil, hz]
  | cons k ks ih =>
    rw [bmapEntries] at hrun
    by_cases hzero : z = 0
    · rw [if_pos hzero] at hrun
      cases hrun
      have hempty := zoneIn_append (hz.trans hzero) (k :: ks)
      exact ⟨h, hempty, fun _ _ _ => rfl, fun hmapped => absurd hempty hmapped⟩
    · rw [if_neg hzero] at hrun
      obtain ⟨w, s₁, hentry, hrest⟩ := Prog.of_bind_run hrun
      have hway : p ++ k :: ks = p ++ [k] ++ ks := by simp
      have hprefix : (n, p) ∈ zoneSlots := by
        obtain ⟨hn, hlen, hbound⟩ := hslot
        rw [List.length_append] at hlen
        exact ⟨hn, by dsimp only; omega, fun l hl => hbound l (List.mem_append_left _ hl)⟩
      have hstep := bmapEntry_created h hprefix hz hzero hdev hentry
      rw [hway] at hslot
      have hnext : (n, p ++ [k]) ∈ zoneSlots := by
        obtain ⟨hn, hlen, hbound⟩ := hslot
        rw [List.length_append] at hlen
        exact ⟨hn, by dsimp only; omega, fun l hl => hbound l (List.mem_append_left _ hl)⟩
      have hw : s₁.zoneIn i (n, p ++ [k]) = w := by
        rw [hstep.value _ hnext, if_pos rfl]
      have hend := ih hstep.ok hslot hw (hstep.dev.trans hdev) hrest
      constructor
      · exact hend.ok
      · rw [hway]
        exact hend.value
      · intro y hy hway'
        rw [hend.others y hy fun q hq hpre => ?_, hstep.value y hy, if_neg ?_]
        · exact hway' [k] (by simp) (by simp)
        · have hne := hway' (k :: q) (by simp) (by simpa using hpre)
          simpa using hne
      · intro hmapped
        rw [hway] at hmapped ⊢
        have hmid : s.zoneIn i (n, p ++ [k]) ≠ 0 := fun h0 => hmapped (zoneIn_append h0 ks)
        obtain ⟨-, hsame⟩ := hstep.mapped hmid
        rw [← hsame.zoneIn] at hmapped ⊢
        obtain ⟨hv, hsame'⟩ := hend.mapped hmapped
        exact ⟨hv, hsame.trans hsame'⟩

/-- What `create_block` has done for a logical block. -/
theorem createBlock_created (h : ZonesOk i sb s) {b : ℕ} (hb : b < maxBlock)
    (hrun : createBlock i b s = .ok (v, s')) :
    ZonesOk i sb s' ∧ s'.zoneIn i (path b) = v ∧
      (∀ b' < maxBlock, b' ≠ b → s'.zoneIn i (path b') = s.zoneIn i (path b')) ∧
      (s.zoneIn i (path b) ≠ 0 → v = s.zoneIn i (path b) ∧ SameFiles s s') := by
  rw [createBlock, bmapBlock, if_neg (by omega), Prog.read_run] at hrun
  obtain ⟨z, s₁, hzone, hrest⟩ := Prog.of_bind_run hrun
  have hslot := path_mem hb
  have hfirst : ((path b).1, []) ∈ zoneSlots := ⟨hslot.1, Nat.zero_le _, by simp⟩
  have hstep := bmapZone_created h hzone
  have hz : s₁.zoneIn i ((path b).1, []) = z := by
    rw [hstep.value _ hfirst, if_pos rfl]
  have hend : CreatedAlong i sb (path b).1 [] (path b).2 v s₁ s' :=
    bmapEntries_created hstep.ok hslot hz hstep.dev hrest
  refine ⟨hend.ok, hend.value, fun b' hb' hne => ?_, fun hmapped => ?_⟩
  · -- the slot of another block is not on the way
    have hother : path b' ≠ path b := fun heq => hne (path_inj heq)
    have hlen : (path b').1 = (path b).1 → (path b').2.length = (path b).2.length := by
      intro heq
      rw [path_length, path_length, heq]
    rw [hend.others _ (path_mem hb') fun q hq hpre heq => ?_, hstep.value _ (path_mem hb'), if_neg]
    · intro heq
      have hnil : (path b).2.length = 0 := by
        rw [← hlen (by rw [heq]), heq, List.length_nil]
      have hpath : path b = ((path b).1, []) :=
        Prod.ext rfl (List.eq_nil_of_length_eq_zero hnil)
      exact hother (heq.trans hpath.symm)
    · have hq : q = (path b).2 := by
        refine hpre.eq_of_length ?_
        rw [← hlen (by rw [heq]), heq, List.nil_append]
      rw [hq, List.nil_append] at heq
      exact hother heq
  · have hroot : s.zoneIn i ((path b).1, []) ≠ 0 := fun h0 =>
      hmapped (zoneIn_append h0 (path b).2)
    obtain ⟨-, hsame⟩ := hstep.mapped hroot
    have hmapped' : s₁.zoneIn i ((path b).1, [] ++ (path b).2) ≠ 0 := by
      rw [hsame.zoneIn]
      exact hmapped
    obtain ⟨hv, hsame'⟩ := hend.mapped hmapped'
    rw [hsame.zoneIn] at hv
    exact ⟨hv, hsame.trans hsame'⟩

/-- The value that a program ends with. -/
def resultOf {α : Type} (m : K α) (s : Fs) : Option α :=
  match m s with
  | .ok r => some r.1
  | .error _ => none

theorem bmap_result (hbad : ∀ b, s.bad b = false) (i : ℕ) {b : ℕ} (hb : b < maxBlock) :
    resultOf (bmap i b) s = some (s.zoneIn i (path b)) := by
  obtain ⟨s', hrun, -⟩ := bmap_run hbad i hb
  rw [resultOf, hrun]

/-- Block mapping is injective and local. If `create_block` returns `z` for block `b` of an inode
whose zones are distinct and marked, then `bmap` returns `z` for `b` and what it returned before
for all other blocks, the zones are distinct and marked again, nothing has changed if `b` was
mapped, and nothing has changed for any block if `z` is 0. -/
theorem createBlock_local (h : ZonesOk i sb s) {b z : ℕ} (hb : b < maxBlock)
    (hrun : createBlock i b s = .ok (z, s')) :
    (z ≠ 0 → resultOf (bmap i b) s' = some z) ∧
    (∀ b' < maxBlock, b' ≠ b → resultOf (bmap i b') s' = resultOf (bmap i b') s) ∧
    s'.ZonesDistinct i ∧ (∀ y, s'.Refers i y → Marked (s'.inode i).dev sb s' y) ∧
    (resultOf (bmap i b) s ≠ some 0 → SameFiles s s') ∧
    (z = 0 → ∀ b' < maxBlock, resultOf (bmap i b') s' = resultOf (bmap i b') s) := by
  obtain ⟨hok, hvalue, hothers, hmapped⟩ := createBlock_created h hb hrun
  have hlocal : ∀ b' < maxBlock, b' ≠ b → resultOf (bmap i b') s' = resultOf (bmap i b') s := by
    intro b' hb' hne
    rw [bmap_result hok.bad i hb', bmap_result h.bad i hb', hothers b' hb' hne]
  refine ⟨fun _ => ?_, hlocal, hok.distinct, hok.marked, fun hne => ?_, fun hzero b' hb' => ?_⟩
  · rw [bmap_result hok.bad i hb, hvalue]
  · rw [bmap_result h.bad i hb] at hne
    exact (hmapped fun h0 => hne (by rw [h0])).2
  · by_cases hbb : b' = b
    · rw [hbb, bmap_result hok.bad i hb, bmap_result h.bad i hb, hvalue, hzero]
      by_contra hne
      have hne' : s.zoneIn i (path b) ≠ 0 := fun h0 => hne (by rw [h0])
      exact hne' ((hmapped hne').1.symm.trans hzero)
    · exact hlocal b' hb' hbb

/-- The file of `smallFile` on a device on which the zones from 13 on are free. -/
def growingFile : Fs := { smallFile with zmap := fun _ k => decide (k ≤ 8 ∨ 95 < k) }

theorem growingFile_ok : ZonesOk 0 (smallFile.super 0) growingFile := by
  constructor
  · rfl
  · decide
  · rfl
  · intro _
    rfl
  · exact smallFile_distinct
  · rintro z ⟨hne, x, hx, rfl⟩
    rcases smallFile_slot hx hne with ⟨-, h⟩ | ⟨-, h⟩ | ⟨-, h⟩
    · have hz : growingFile.zoneIn 0 x = 10 := h
      rw [hz]
      exact ⟨by decide, by decide⟩
    · have hz : growingFile.zoneIn 0 x = 11 := h
      rw [hz]
      exact ⟨by decide, by decide⟩
    · have hz : growingFile.zoneIn 0 x = 12 := h
      rw [hz]
      exact ⟨by decide, by decide⟩

/-- Block 8 of the file is put into zone 13. -/
theorem createBlock_local_sample :
    ∃ s', createBlock 0 8 growingFile = .ok (13, s') ∧ resultOf (bmap 0 8) s' = some 13 ∧
      ∀ b' < maxBlock, b' ≠ 8 → resultOf (bmap 0 b') s' = resultOf (bmap 0 b') growingFile := by
  obtain ⟨s', hrun⟩ : ∃ s', createBlock 0 8 growingFile = .ok (13, s') := ⟨_, rfl⟩
  have hlocal := createBlock_local growingFile_ok (by decide) hrun
  exact ⟨s', hrun, hlocal.1 (by decide), hlocal.2.1⟩

end LihaLinux.Files
