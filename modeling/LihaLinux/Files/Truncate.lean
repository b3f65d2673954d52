import LihaLinux.Lib.IndexTree
import LihaLinux.Files.ZoneRuns

/-!
# The zones of an inode and `truncate`

The zones that an inode refers to are found through its `i_zone` and the indirect blocks: slot
`(n, p)` is entry `p` of the tree under `i_zone[n]`. `truncate` walks over all these slots and
frees every zone it finds there.
-/

namespace LihaLinux.Files

open LihaLinux.IndexTree (Distinct Short follow mem_nodes nodes nodes_congr nodup_nodes value)

variable {s s' s'' : Fs} {sb : SuperBlock} {dev i z : ℕ}

/-! ### Zones of an inode -/

/-- The bytes of a block, which are in its buffer if this is up to date. -/
def Fs.bytes (s : Fs) (bh : Bh) : ℕ → ℕ := if s.uptodate bh then s.data bh else s.disk bh

/-- The numbers in an indirect block. -/
def Fs.entry (s : Fs) (dev z k : ℕ) : ℕ := word (s.bytes ⟨dev, z⟩) k

/-- A stored number, and the numbers beside it. -/
theorem word_setWord (d : ℕ → ℕ) (k v l : ℕ) :
    word (setWord d k v) l = if l = k then v % 65536 else word d l := by
  unfold word setWord
  by_cases hl : l = k
  · have hne : 2 * k ≠ 2 * k + 1 := by omega
    rw [if_pos hl, hl, Function.update_of_ne hne, Function.update_self, Function.update_self]
    omega
  · have h₁ : 2 * l ≠ 2 * k + 1 := by omega
    have h₂ : 2 * l ≠ 2 * k := by omega
    have h₃ : 2 * l + 1 ≠ 2 * k + 1 := by omega
    have h₄ : 2 * l + 1 ≠ 2 * k := by omega
    rw [if_neg hl, Function.update_of_ne h₁, Function.update_of_ne h₂, Function.update_of_ne h₃,
      Function.update_of_ne h₄]

/-- The places for the zones of an inode: nine in `i_zone`, and those in the indirect blocks. -/
def zoneSlots : Set (ℕ × List ℕ) := {x | x.1 < 9 ∧ Short 512 (x.1 - 6) x.2}

/-- The zone in a slot. -/
def Fs.zoneIn (s : Fs) (i : ℕ) (x : ℕ × List ℕ) : ℕ :=
  value (s.inode i).zone (s.entry (s.inode i).dev) x

/-- A zone that the inode refers to. -/
def Fs.Refers (s : Fs) (i z : ℕ) : Prop := z ≠ 0 ∧ ∃ x ∈ zoneSlots, s.zoneIn i x = z

/-- No zone is in two slots of an inode. -/
def Fs.ZonesDistinct (s : Fs) (i : ℕ) : Prop :=
  Distinct (s.inode i).zone (s.entry (s.inode i).dev) zoneSlots

/-- A zone whose bit is set in the zone map. -/
def Marked (dev : ℕ) (sb : SuperBlock) (s : Fs) (z : ℕ) : Prop :=
  sb.bit z < 8192 * sb.zmapBlocks ∧ s.zmap dev (sb.bit z) = true

/-! ### Reading a block -/

/-- The state in which a block is held once more and is in its buffer. -/
def Fs.held (s : Fs) (bh : Bh) : Fs :=
  let s' := s.setCount bh (s.bcount bh + 1)
  if s'.uptodate bh || s'.bad bh then s' else s'.load bh

theorem held_bytes (s : Fs) (bh : Bh) : (s.held bh).bytes = s.bytes := by
  unfold Fs.held
  dsimp only
  split_ifs with hload
  · rfl
  · funext b
    have hup : s.uptodate bh = false := by
      have hnot : ¬(s.uptodate bh || s.bad bh) = true := hload
      simp only [Bool.or_eq_true, not_or, Bool.not_eq_true] at hnot
      exact hnot.1
    by_cases hb : b = bh
    · rw [hb]
      change (if Function.update s.uptodate bh true bh then Function.update s.data bh (s.disk bh) bh
        else s.disk bh) = if s.uptodate bh then s.data bh else s.disk bh
      rw [Function.update_self, Function.update_self, hup]
      rfl
    · change (if Function.update s.uptodate bh true b then Function.update s.data bh (s.disk bh) b
        else s.disk b) = if s.uptodate b then s.data b else s.disk b
      rw [Function.update_of_ne hb, Function.update_of_ne hb]

/-- What reading a block leaves alone. -/
structure SameMaps (s s' : Fs) : Prop where
  inode : s'.inode = s.inode
  super : s'.super = s.super
  bad : s'.bad = s.bad
  zmap : s'.zmap = s.zmap
  time : s'.time = s.time

theorem held_same (s : Fs) (bh : Bh) : SameMaps s (s.held bh) := by
  unfold Fs.held
  dsimp only
  split_ifs
  · exact ⟨rfl, rfl, rfl, rfl, rfl⟩
  · exact ⟨rfl, rfl, rfl, rfl, rfl⟩

theorem held_bcount (s : Fs) (bh : Bh) :
    (s.held bh).bcount = Function.update s.bcount bh (s.bcount bh + 1) := by
  unfold Fs.held
  dsimp only
  split_ifs
  · rfl
  · rfl

theorem held_uptodate (hbad : ∀ b, s.bad b = false) (bh : Bh) :
    (s.held bh).uptodate = Function.update s.uptodate bh true := by
  unfold Fs.held
  dsimp only
  split_ifs with hload
  · have hup : s.uptodate bh = true := by
      have hor : (s.uptodate bh || s.bad bh) = true := hload
      rwa [hbad, Bool.or_false] at hor
    rw [← hup, Function.update_eq_self]
    rfl
  · rfl

/-- `bread` without device errors. -/
theorem bread_run (hbad : ∀ b, s.bad b = false) (dev block : ℕ) :
    bread dev block s = .ok (some ⟨dev, block⟩, s.held ⟨dev, block⟩) := by
  have hread : readBlock ⟨dev, block⟩ (s.setCount ⟨dev, block⟩ (s.bcount ⟨dev, block⟩ + 1)) =
      .ok ((), s.held ⟨dev, block⟩) := rfl
  have hup : (s.held ⟨dev, block⟩).uptodate ⟨dev, block⟩ = true := by
    rw [held_uptodate hbad, Function.update_self]
  rw [bread, Prog.bind_run (getblk_run ..), Prog.bind_run hread, Prog.read_run, hup, if_pos rfl]
  rfl

/-! ### Freeing zones -/

/-- A zone that `free_block` can free. -/
structure Freeable (dev : ℕ) (sb : SuperBlock) (s : Fs) (z : ℕ) : Prop where
  data : sb.DataZone z
  marked : Marked dev sb s z
  count : s.bcount ⟨dev, z⟩ = 0

/-- The zones in a list have been freed and nothing else has been done to the maps. The buffers
of all other blocks are as before. -/
structure Freed (dev : ℕ) (sb : SuperBlock) (zones : List ℕ) (s s' : Fs) : Prop where
  super : s'.super = s.super
  bad : s'.bad = s.bad
  time : s'.time = s.time
  bcount : s'.bcount = s.bcount
  cleared : ∀ z ∈ zones, s'.zmap dev (sb.bit z) = false
  kept : ∀ d k, (d = dev → ∀ z ∈ zones, sb.bit z ≠ k) → s'.zmap d k = s.zmap d k
  bytes : ∀ bh : Bh, bh.blocknr ∉ zones → s'.bytes bh = s.bytes bh
  uptodate : ∀ bh : Bh, bh.blocknr ∉ zones → s.uptodate bh = true → s'.uptodate bh = true

namespace Freed

theorem refl (dev : ℕ) (sb : SuperBlock) (s : Fs) : Freed dev sb [] s s where
  super := rfl
  bad := rfl
  time := rfl
  bcount := rfl
  cleared _ h := absurd h List.not_mem_nil
  kept _ _ _ := rfl
  bytes _ _ := rfl
  uptodate _ _ h := h

variable {L L' : List ℕ}

theorem trans (h : Freed dev sb L s s') (h' : Freed dev sb L' s' s'') :
    Freed dev sb (L ++ L') s s'' where
  super := h'.super.trans h.super
  bad := h'.bad.trans h.bad
  time := h'.time.trans h.time
  bcount := h'.bcount.trans h.bcount
  cleared z hz := by
    by_cases hk : ∀ y ∈ L', sb.bit y ≠ sb.bit z
    · rw [h'.kept dev _ fun _ => hk]
      rcases List.mem_append.mp hz with hz | hz
      · exact h.cleared z hz
      · exact absurd rfl (hk z hz)
    · push Not at hk
      obtain ⟨y, hy, heq⟩ := hk
      rw [← heq]
      exact h'.cleared y hy
  kept d k hk := by
    rw [h'.kept d k fun hd z hz => hk hd z (List.mem_append_right _ hz),
      h.kept d k fun hd z hz => hk hd z (List.mem_append_left _ hz)]
  bytes bh hbh := by
    rw [List.mem_append, not_or] at hbh
    rw [h'.bytes bh hbh.2, h.bytes bh hbh.1]
  uptodate bh hbh hup := by
    rw [List.mem_append, not_or] at hbh
    exact h'.uptodate bh hbh.2 (h.uptodate bh hbh.1 hup)

/-- The numbers in a block that is not freed. -/
theorem entry (h : Freed dev sb L s s') (hz : z ∉ L) : s'.entry dev z = s.entry dev z := by
  funext k
  rw [Fs.entry, Fs.entry, h.bytes ⟨dev, z⟩ hz]

theorem nodes (h : Freed dev sb L s s') {d : ℕ}
    (hdis : ∀ w ∈ nodes (s.entry dev) 512 d z, w ∉ L) :
    nodes (s'.entry dev) 512 d z = nodes (s.entry dev) 512 d z :=
  nodes_congr fun w hw => h.entry (hdis w hw)

/-- A zone that is not freed stays freeable. -/
theorem freeable (h : Freed dev sb L s s') (hL : ∀ y ∈ L, sb.DataZone y) (hz : z ∉ L)
    (hf : Freeable dev sb s z) : Freeable dev sb s' z := by
  refine ⟨hf.data, ⟨hf.marked.1, ?_⟩, ?_⟩
  · rw [h.kept dev _ fun _ y hy heq => hz (sb.bit_inj (hL y hy) hf.data heq ▸ hy)]
    exact hf.marked.2
  · rw [h.bcount]
    exact hf.count

end Freed

/-- A program frees the zones in a list, if this can be done. -/
def Frees (dev : ℕ) (sb : SuperBlock) (m : K Unit) (s : Fs) (zones : List ℕ) : Prop :=
  zones.Nodup → (∀ z ∈ zones, Freeable dev sb s z) →
    ∃ s', m s = .ok ((), s') ∧ s'.inode = s.inode ∧ Freed dev sb zones s s'

/-- A device that can be read, with its super block. -/
structure ReadableDevice (dev : ℕ) (sb : SuperBlock) (s : Fs) : Prop where
  super : superOf s.super dev = some sb
  bad : ∀ b, s.bad b = false

variable {L L' : List ℕ} {m m' : K Unit}

theorem ReadableDevice.freed (h : ReadableDevice dev sb s)
    (hfreed : Freed dev sb L s s') : ReadableDevice dev sb s' := by
  constructor
  · rw [hfreed.super]
    exact h.super
  · rw [hfreed.bad]
    exact h.bad

theorem Frees.nil (hm : m s = .ok ((), s)) : Frees dev sb m s [] := by
  intro _ _
  exact ⟨s, hm, rfl, Freed.refl dev sb s⟩

/-- What is freed first has nothing in common with what is freed then. -/
theorem Frees.andThen (hm : Frees dev sb m s L)
    (hm' : (L ++ L').Nodup → ∀ s', s'.inode = s.inode → Freed dev sb L s s' →
      Frees dev sb m' s' L') :
    Frees dev sb (do m; m') s (L ++ L') := by
  intro hnodup hready
  obtain ⟨hL, hL', hdis⟩ := List.nodup_append'.mp hnodup
  obtain ⟨s', hrun, hinode, hfreed⟩ := hm hL fun z hz => hready z (List.mem_append_left _ hz)
  obtain ⟨s'', hrun', hinode', hfreed'⟩ := hm' hnodup s' hinode hfreed hL' fun z hz =>
    hfreed.freeable (fun y hy => (hready y (List.mem_append_left _ hy)).data)
      (fun hmem => hdis hmem hz) (hready z (List.mem_append_right _ hz))
  exact ⟨s'', (Prog.bind_run hrun).trans hrun', hinode'.trans hinode, hfreed.trans hfreed'⟩

theorem freeBlock_frees (hdev : ReadableDevice dev sb s) (z : ℕ) :
    Frees dev sb (freeBlock dev z) s [z] := by
  intro _ hready
  have hz := hready z (List.mem_singleton.mpr rfl)
  refine ⟨_, freeBlock_run hdev.super hz.data.1 hz.data.2 hz.count hz.marked.1 hz.marked.2,
    rfl, ?_⟩
  have hzmap (d k : ℕ) : (s.free sb dev z).zmap d k =
      Function.update s.zmap dev (Function.update (s.zmap dev) (sb.bit z) false) d k := rfl
  have hup (bh : Bh) (hbh : bh.blocknr ∉ [z]) : (s.free sb dev z).uptodate bh = s.uptodate bh := by
    have hne : bh ≠ ⟨dev, z⟩ := by
      rintro rfl
      exact hbh (List.mem_singleton.mpr rfl)
    exact Function.update_of_ne hne ..
  constructor
  · rfl
  · rfl
  · rfl
  · rfl
  · intro y hy
    rw [List.mem_singleton.mp hy, hzmap, Function.update_self, Function.update_self]
  · intro d k hk
    rw [hzmap]
    by_cases hd : d = dev
    · have hne : k ≠ sb.bit z := fun heq => hk hd z (List.mem_singleton.mpr rfl) heq.symm
      rw [hd, Function.update_self, Function.update_of_ne hne]
    · rw [Function.update_of_ne hd]
  · intro bh hbh
    rw [Fs.bytes, Fs.bytes, hup bh hbh]
    rfl
  · intro bh hbh h
    rw [hup bh hbh, h]

/-! ### Trees of zones -/

/-- The zones that the `n` entries from `k` on of a block lead to. -/
def Fs.below (s : Fs) (dev d p n k : ℕ) : List ℕ :=
  (List.range' k n).flatMap fun l => nodes (s.entry dev) 512 d (s.entry dev p l)

theorem below_succ (s : Fs) (dev d p n k : ℕ) :
    s.below dev d p (n + 1) k =
      nodes (s.entry dev) 512 d (s.entry dev p k) ++ s.below dev d p n (k + 1) := by
  rw [Fs.below, List.range'_succ, List.flatMap_cons, Fs.below]

theorem Freed.below (h : Freed dev sb L s s') {d p n k : ℕ} (hp : p ∉ L)
    (hdis : ∀ w ∈ s.below dev d p n k, w ∉ L) : s'.below dev d p n k = s.below dev d p n k := by
  rw [Fs.below, Fs.below, h.entry hp]
  refine List.flatMap_congr fun l hl => h.nodes fun w hw => hdis w ?_
  exact List.mem_flatMap.mpr ⟨l, hl, hw⟩

/-- `f` frees the trees of depth `d`. -/
def FreesTrees (dev : ℕ) (sb : SuperBlock) (d : ℕ) (f : ℕ → K Unit) : Prop :=
  ∀ v s, ReadableDevice dev sb s → v ≠ 0 → Frees dev sb (f v) s (nodes (s.entry dev) 512 d v)

variable {d : ℕ} {f : ℕ → K Unit}

/-- The loop over the entries of a block that is held. -/
theorem forWords_frees (hf : FreesTrees dev sb d f) {p : ℕ} (n k : ℕ)
    (hdev : ReadableDevice dev sb s) (hup : s.uptodate ⟨dev, p⟩ = true)
    (hp : p ∉ s.below dev d p n k) :
    Frees dev sb (forWords ⟨dev, p⟩ f n k) s (s.below dev d p n k) := by
  induction n generalizing k s with
  | zero => exact Frees.nil rfl
  | succ n ih =>
    rw [below_succ, List.mem_append, not_or] at hp
    have hword : word (s.data ⟨dev, p⟩) k = s.entry dev p k := by
      rw [Fs.entry, Fs.bytes, hup, if_pos rfl]
    have hfirst : Frees dev sb (Prog.when (s.entry dev p k ≠ 0) (f (s.entry dev p k))) s
        (nodes (s.entry dev) 512 d (s.entry dev p k)) := by
      by_cases hv : s.entry dev p k = 0
      · have hnil : nodes (s.entry dev) 512 d 0 = [] := by cases d <;> rfl
        rw [hv, hnil]
        exact Frees.nil rfl
      · rw [Prog.when, if_pos hv]
        exact hf _ s hdev hv
    have hrest : Frees dev sb (do Prog.when (s.entry dev p k ≠ 0) (f (s.entry dev p k))
                                  forWords ⟨dev, p⟩ f n (k + 1)) s
        (nodes (s.entry dev) 512 d (s.entry dev p k) ++ s.below dev d p n (k + 1)) := by
      refine hfirst.andThen fun hnodup s' _ hfreed => ?_
      have hdis := (List.nodup_append'.mp hnodup).2.2
      have hbelow := hfreed.below hp.1 fun w hw hw' => hdis hw' hw
      rw [← hbelow]
      apply ih (k + 1) (hdev.freed hfreed) (hfreed.uptodate _ hp.1 hup)
      rw [hbelow]
      exact hp.2
    intro hnodup hready
    rw [below_succ] at hnodup hready ⊢
    obtain ⟨s', hrun, hend⟩ := hrest hnodup hready
    refine ⟨s', ?_, hend⟩
    rw [forWords, Prog.read_run, hword]
    exact hrun

theorem ReadableDevice.held (hdev : ReadableDevice dev sb s) (bh : Bh) :
    ReadableDevice dev sb (s.held bh) := by
  have hsame := held_same s bh
  constructor
  · rw [hsame.super]
    exact hdev.super
  · rw [hsame.bad]
    exact hdev.bad

theorem held_entry (s : Fs) (bh : Bh) : (s.held bh).entry = s.entry := by
  funext e z k
  rw [Fs.entry, Fs.entry, held_bytes]

/-- The entries of a block are read while it is held. -/
theorem freeNamed_frees (hf : FreesTrees dev sb d f) (hdev : ReadableDevice dev sb s)
    (hz : z ∉ s.below dev d z 512 0) :
    Frees dev sb (freeNamed f dev z) s (s.below dev d z 512 0) := by
  intro hnodup hready
  have hbelow : (s.held ⟨dev, z⟩).below dev d z 512 0 = s.below dev d z 512 0 := by
    rw [Fs.below, Fs.below, held_entry]
  have hup : (s.held ⟨dev, z⟩).uptodate ⟨dev, z⟩ = true := by
    rw [held_uptodate hdev.bad, Function.update_self]
  have hsame := held_same s ⟨dev, z⟩
  have hloop := forWords_frees (s := s.held ⟨dev, z⟩) hf 512 0 (hdev.held _) hup (by rwa [hbelow])
  rw [hbelow] at hloop
  obtain ⟨s', hrun, hinode, hfreed⟩ := hloop hnodup fun y hy => by
    have hy' := hready y hy
    refine ⟨hy'.data, ⟨hy'.marked.1, by rw [hsame.zmap]; exact hy'.marked.2⟩, ?_⟩
    have hne : (⟨dev, y⟩ : Bh) ≠ ⟨dev, z⟩ := by
      intro heq
      cases heq
      exact hz hy
    rw [held_bcount, Function.update_of_ne hne, hy'.count]
  have hcount : s'.bcount ⟨dev, z⟩ = s.bcount ⟨dev, z⟩ + 1 := by
    rw [hfreed.bcount, held_bcount, Function.update_self]
  refine ⟨s'.setCount ⟨dev, z⟩ (s.bcount ⟨dev, z⟩), ?_, hinode.trans hsame.inode, ?_⟩
  · rw [freeNamed, Prog.bind_run (bread_run hdev.bad dev z)]
    exact (Prog.bind_run hrun).trans (brelse_run hcount)
  · constructor
    · exact hfreed.super.trans hsame.super
    · exact hfreed.bad.trans hsame.bad
    · exact hfreed.time.trans hsame.time
    · change Function.update s'.bcount ⟨dev, z⟩ (s.bcount ⟨dev, z⟩) = s.bcount
      rw [hfreed.bcount, held_bcount, Function.update_idem, Function.update_eq_self]
    · exact hfreed.cleared
    · intro e k hk
      rw [← hsame.zmap]
      exact hfreed.kept e k hk
    · intro bh hbh
      rw [← held_bytes s ⟨dev, z⟩]
      exact hfreed.bytes bh hbh
    · intro bh hbh hbup
      apply hfreed.uptodate bh hbh
      rw [held_uptodate hdev.bad]
      by_cases heq : bh = ⟨dev, z⟩
      · rw [heq, Function.update_self]
      · rw [Function.update_of_ne heq, hbup]

/-- One more level of indirect blocks. -/
theorem freeTree_frees (hf : FreesTrees dev sb d f) :
    FreesTrees dev sb (d + 1) (freeTree f dev) := by
  intro z s hdev hz hnodup hready
  have hnodes : nodes (s.entry dev) 512 (d + 1) z = s.below dev d z 512 0 ++ [z] := by
    rw [nodes, if_neg hz, List.range_eq_range']
    rfl
  rw [hnodes] at hnodup hready ⊢
  have hnot : z ∉ s.below dev d z 512 0 := fun hmem =>
    (List.nodup_append'.mp hnodup).2.2 hmem (List.mem_singleton.mpr rfl)
  rw [freeTree, if_neg hz]
  exact ((freeNamed_frees hf hdev hnot).andThen fun _ s' _ hfreed =>
    freeBlock_frees (hdev.freed hfreed) z) hnodup hready

theorem freeBlock_freesTrees (dev : ℕ) (sb : SuperBlock) :
    FreesTrees dev sb 0 (freeBlock dev) := by
  intro v s hdev hv
  rw [nodes, if_neg hv]
  exact freeBlock_frees hdev v

/-- `free_ind` and `free_dind` also take 0. -/
theorem freeTree_zero (hf : FreesTrees dev sb (d + 1) (freeTree f dev))
    (hdev : ReadableDevice dev sb s) (z : ℕ) :
    Frees dev sb (freeTree f dev z) s (nodes (s.entry dev) 512 (d + 1) z) := by
  by_cases hz : z = 0
  · rw [hz, freeTree, if_pos rfl, nodes, if_pos rfl]
    exact Frees.nil rfl
  · exact hf z s hdev hz

/-! ### `truncate` -/

theorem Freed.setInode (h : Freed dev sb L s s') (i : ℕ) (m : MInode) :
    Freed dev sb L s (s'.setInode i m) :=
  ⟨h.super, h.bad, h.time, h.bcount, h.cleared, h.kept, h.bytes, h.uptodate⟩

/-- The zones of the `n` entries of `i_zone` from `k` on, at depth `n - 6` in entry `n`. -/
def Fs.zonesFrom (s : Fs) (i n k : ℕ) : List ℕ :=
  (List.range' k n).flatMap fun l =>
    nodes (s.entry (s.inode i).dev) 512 (l - 6) ((s.inode i).zone l)

/-- The inode after the `n` entries of `i_zone` from `k` on have been cleared. -/
def MInode.clearZones (m : MInode) (n k : ℕ) : MInode :=
  { m with zone := fun l => if k ≤ l ∧ l < k + n then 0 else m.zone l }

theorem clearZones_zero (m : MInode) (k : ℕ) : m.clearZones 0 k = m := by
  have hzone : (fun l => if k ≤ l ∧ l < k + 0 then 0 else m.zone l) = m.zone := by
    funext l
    rw [if_neg (by omega)]
  rw [MInode.clearZones, hzone]

theorem clearZones_succ (m : MInode) (n k : ℕ) :
    ({ m with zone := Function.update m.zone k 0 } : MInode).clearZones n (k + 1) =
      m.clearZones (n + 1) k := by
  have hzone : (fun l => if k + 1 ≤ l ∧ l < k + 1 + n then 0 else Function.update m.zone k 0 l) =
      fun l => if k ≤ l ∧ l < k + (n + 1) then 0 else m.zone l := by
    funext l
    by_cases hl : l = k
    · rw [if_neg (by omega), if_pos (by omega), hl, Function.update_self]
    · rw [Function.update_of_ne hl]
      congr 1
      rw [eq_iff_iff]
      omega
  rw [MInode.clearZones, MInode.clearZones, hzone]

/-- The loop over the direct zones frees them and clears their entries. -/
theorem freeDirect_run (n k : ℕ) (hn : k + n ≤ 7) (hdev : ReadableDevice dev sb s)
    (hi : (s.inode i).dev = dev) (hnodup : (s.zonesFrom i n k).Nodup)
    (hready : ∀ z ∈ s.zonesFrom i n k, Freeable dev sb s z) :
    ∃ s', freeDirect i n k s = .ok ((), s') ∧
      s'.inode = Function.update s.inode i ((s.inode i).clearZones n k) ∧
      Freed dev sb (s.zonesFrom i n k) s s' := by
  induction n generalizing k s with
  | zero =>
    refine ⟨s, rfl, ?_, Freed.refl dev sb s⟩
    rw [clearZones_zero, Function.update_eq_self]
  | succ n ih =>
    have hsplit : s.zonesFrom i (n + 1) k =
        (if (s.inode i).zone k = 0 then [] else [(s.inode i).zone k]) ++
          s.zonesFrom i n (k + 1) := by
      have hdepth : k - 6 = 0 := by omega
      rw [Fs.zonesFrom, List.range'_succ, List.flatMap_cons, hdepth, nodes, Fs.zonesFrom]
    rw [hsplit] at hnodup hready ⊢
    rw [freeDirect, Prog.read_run]
    by_cases hz : (s.inode i).zone k = 0
    · rw [if_pos hz, List.nil_append] at hnodup hready
      obtain ⟨s', hrun, hinode, hfreed⟩ := ih (k + 1) (by omega) hdev hi hnodup hready
      refine ⟨s', ?_, ?_, by rwa [if_pos hz]⟩
      · rw [Prog.when, if_neg (by simpa using hz)]
        exact hrun
      · have hupdate : Function.update (s.inode i).zone k 0 = (s.inode i).zone := by
          rw [← hz, Function.update_eq_self]
        rw [hinode, ← clearZones_succ, hupdate]
    · rw [if_neg hz] at hnodup hready ⊢
      obtain ⟨-, hnodup', hdis⟩ := List.nodup_append'.mp hnodup
      obtain ⟨s₁, hrun, hinode, hfreed⟩ := freeBlock_frees hdev ((s.inode i).zone k)
        (List.nodup_singleton _) fun z hz => hready z (List.mem_append_left _ hz)
      let s₂ := s₁.setInode i { s₁.inode i with zone := Function.update (s₁.inode i).zone k 0 }
      have hfreed₂ : Freed dev sb [(s.inode i).zone k] s s₂ := hfreed.setInode i _
      have hinode₂ : s₂.inode = Function.update s.inode i
          { s.inode i with zone := Function.update (s.inode i).zone k 0 } := by
        change Function.update s₁.inode i _ = _
        rw [hinode]
      have hmem : s₂.inode i =
          { s.inode i with zone := Function.update (s.inode i).zone k 0 } := by
        rw [hinode₂, Function.update_self]
      have hlist : s₂.zonesFrom i n (k + 1) = s.zonesFrom i n (k + 1) := by
        rw [Fs.zonesFrom, Fs.zonesFrom, hmem]
        refine List.flatMap_congr fun l hl => ?_
        have hle := (List.mem_range'_1.mp hl).1
        have hne : l ≠ k := by omega
        dsimp only
        rw [Function.update_of_ne hne, hi]
        refine hfreed₂.nodes fun w hw hw' => hdis hw' ?_
        refine List.mem_flatMap.mpr ⟨l, hl, ?_⟩
        rwa [hi]
      obtain ⟨s', hrun', hinode', hfreed'⟩ := ih (s := s₂) (k + 1) (by omega)
        (hdev.freed hfreed₂) (by rw [hmem]; exact hi) (by rwa [hlist]) fun z hz => by
          rw [hlist] at hz
          exact hfreed₂.freeable
            (fun y hy => (hready y (List.mem_append_left _ hy)).data)
            (fun hmem => hdis hmem hz) (hready z (List.mem_append_right _ hz))
      rw [hlist] at hfreed'
      refine ⟨s', ?_, ?_, hfreed₂.trans hfreed'⟩
      · have hrun₂ : (do freeBlock (s.inode i).dev ((s.inode i).zone k)
                         modifyInode i fun m =>
                           { m with zone := Function.update m.zone k 0 } : K Unit) s =
            .ok ((), s₂) := by
          rw [hi]
          exact Prog.bind_run hrun
        rw [Prog.when, if_pos hz]
        exact (Prog.bind_run hrun₂).trans hrun'
      · rw [hinode', hmem, hinode₂, clearZones_succ, Function.update_idem]

/-- All zones of an inode are listed once. -/
theorem zonesFrom_nodup (h : s.ZonesDistinct i) : (s.zonesFrom i 9 0).Nodup := by
  have hslot (n : ℕ) (hn : n ∈ List.range' 0 9) (p : List ℕ) (hp : Short 512 (n - 6) p) :
      (n, p) ∈ zoneSlots := ⟨by simpa using hn, hp⟩
  rw [Fs.zonesFrom, List.nodup_flatMap]
  constructor
  · intro n hn
    refine nodup_nodes fun p q hp hq hne heq => ?_
    exact (Prod.mk.inj (h (n, p) (hslot n hn p hp) (n, q) (hslot n hn q hq) hne heq)).2
  · have hrange : (List.range' 0 9).Nodup := by decide
    refine hrange.imp_of_mem fun {n m} hn hm hnm => ?_
    intro w hw hw'
    obtain ⟨hne, p, hp, hfollow⟩ := mem_nodes.mp hw
    obtain ⟨-, q, hq, hfollow'⟩ := mem_nodes.mp hw'
    have hvalue : value (s.inode i).zone (s.entry (s.inode i).dev) (n, p) = w := hfollow
    have hvalue' : value (s.inode i).zone (s.entry (s.inode i).dev) (m, q) = w := hfollow'
    have heq := h (n, p) (hslot n hn p hp) (m, q) (hslot m hm q hq) (by rwa [hvalue])
      (by rw [hvalue, hvalue'])
    exact hnm (Prod.mk.inj heq).1

/-- These zones are those that the inode refers to. -/
theorem mem_zonesFrom : z ∈ s.zonesFrom i 9 0 ↔ s.Refers i z := by
  rw [Fs.zonesFrom, List.mem_flatMap]
  constructor
  · rintro ⟨n, hn, hz⟩
    obtain ⟨hne, p, hp, hfollow⟩ := mem_nodes.mp hz
    exact ⟨hne, (n, p), ⟨by simpa using hn, hp⟩, hfollow⟩
  · rintro ⟨hne, ⟨n, p⟩, ⟨hn, hp⟩, hvalue⟩
    exact ⟨n, by simpa using hn, mem_nodes.mpr ⟨hne, p, hp, hvalue⟩⟩

/-- The two indirect zones. -/
theorem freeIndirect_frees (hdev : ReadableDevice dev sb s) (y z : ℕ) :
    Frees dev sb (do freeInd dev y; freeDind dev z) s
      (nodes (s.entry dev) 512 1 y ++ nodes (s.entry dev) 512 2 z) := by
  have hind := freeTree_frees (freeBlock_freesTrees dev sb)
  refine (freeTree_zero hind hdev y).andThen fun hnodup s' _ hfreed => ?_
  have hsame : nodes (s'.entry dev) 512 2 z = nodes (s.entry dev) 512 2 z :=
    hfreed.nodes fun w hw hw' => (List.nodup_append'.mp hnodup).2.2 hw' hw
  rw [← hsame]
  exact freeTree_zero (freeTree_frees hind) (hdev.freed hfreed) z

/-- `truncate` of a regular file or a directory whose zones are distinct, lie in the data area,
are marked and have buffers that nobody holds: it ends, clears the bits of the zones that the
inode refers to and of no others, and sets the nine entries of `i_zone` and `i_size` to 0. -/
theorem truncate_frees (hsb : superOf s.super (s.inode i).dev = some sb)
    (hmode : isReg (s.inode i).mode = true ∨ isDir (s.inode i).mode = true)
    (hbad : ∀ b, s.bad b = false) (hdistinct : s.ZonesDistinct i)
    (hzones : ∀ z, s.Refers i z → sb.DataZone z ∧ Marked (s.inode i).dev sb s z ∧
      s.bcount ⟨(s.inode i).dev, z⟩ = 0) :
    ∃ s', truncate i s = .ok ((), s') ∧
      (∀ z, s.Refers i z → s'.zmap (s.inode i).dev (sb.bit z) = false) ∧
      (∀ d k, (d = (s.inode i).dev → ∀ z, s.Refers i z → sb.bit z ≠ k) →
        s'.zmap d k = s.zmap d k) ∧
      (∀ n < 9, (s'.inode i).zone n = 0) ∧ (s'.inode i).size = 0 := by
  have hdev : ReadableDevice (s.inode i).dev sb s := ⟨hsb, hbad⟩
  have hnodup := zonesFrom_nodup hdistinct
  have hready : ∀ z ∈ s.zonesFrom i 9 0, Freeable (s.inode i).dev sb s z := fun z hz => by
    obtain ⟨hdata, hmarked, hcount⟩ := hzones z (mem_zonesFrom.mp hz)
    exact ⟨hdata, hmarked, hcount⟩
  have hsplit : s.zonesFrom i 9 0 = s.zonesFrom i 7 0 ++
      (nodes (s.entry (s.inode i).dev) 512 1 ((s.inode i).zone 7) ++
        nodes (s.entry (s.inode i).dev) 512 2 ((s.inode i).zone 8)) := by
    have hrange : List.range' 0 9 = List.range' 0 7 ++ [7, 8] := rfl
    rw [Fs.zonesFrom, hrange, List.flatMap_append, List.flatMap_cons, List.flatMap_cons,
      List.flatMap_nil, List.append_nil, Fs.zonesFrom]
  have hmem := fun z => mem_zonesFrom (s := s) (i := i) (z := z)
  rw [hsplit] at hnodup hready hmem
  obtain ⟨hdirect, hindirect, hdis⟩ := List.nodup_append'.mp hnodup
  -- the direct zones
  obtain ⟨s₁, hrun₁, hinode₁, hfreed₁⟩ := freeDirect_run 7 0 (by omega) hdev rfl hdirect
    fun z hz => hready z (List.mem_append_left _ hz)
  have hfields : (s₁.inode i).dev = (s.inode i).dev ∧ (s₁.inode i).zone 7 = (s.inode i).zone 7 ∧
      (s₁.inode i).zone 8 = (s.inode i).zone 8 := by
    rw [hinode₁, Function.update_self]
    exact ⟨rfl, rfl, rfl⟩
  -- the indirect zones
  have hsame (d l : ℕ) (hl : ∀ w ∈ nodes (s.entry (s.inode i).dev) 512 d ((s.inode i).zone l),
      w ∉ s.zonesFrom i 7 0) :
      nodes (s₁.entry (s.inode i).dev) 512 d ((s.inode i).zone l) =
        nodes (s.entry (s.inode i).dev) 512 d ((s.inode i).zone l) := hfreed₁.nodes hl
  have hrest := freeIndirect_frees (hdev.freed hfreed₁) ((s.inode i).zone 7) ((s.inode i).zone 8)
  rw [hsame 1 7 fun w hw hw' => hdis hw' (List.mem_append_left _ hw),
    hsame 2 8 fun w hw hw' => hdis hw' (List.mem_append_right _ hw)] at hrest
  obtain ⟨s₂, hrun₂, hinode₂, hfreed₂⟩ := hrest hindirect fun z hz =>
    hfreed₁.freeable (fun y hy => (hready y (List.mem_append_left _ hy)).data)
      (fun hmem => hdis hmem hz) (hready z (List.mem_append_right _ hz))
  have hfreed := hfreed₁.trans hfreed₂
  let s₃ := s₂.setInode i { s₂.inode i with
    zone := Function.update (Function.update (s₂.inode i).zone 7 0) 8 0
    size := 0
    dirt := true
    mtime := s₂.time
    ctime := s₂.time }
  have hrun : truncate i s = .ok ((), s₃) := by
    have hbool : (isReg (s.inode i).mode || isDir (s.inode i).mode) = true := by
      rcases hmode with h | h
      · rw [h, Bool.true_or]
      · rw [h, Bool.or_true]
    have hind : (do freeInd (s₁.inode i).dev ((s₁.inode i).zone 7)
                    freeDind (s₁.inode i).dev ((s₁.inode i).zone 8) : K Unit) s₁ =
        .ok ((), s₂) := by
      rw [hfields.1, hfields.2.1, hfields.2.2]
      exact hrun₂
    rw [truncate, Prog.read_run, hbool, if_pos rfl, Prog.bind_run hrun₁, Prog.read_run]
    exact Prog.bind_bind_run hind
  refine ⟨s₃, hrun, fun z hz => hfreed.cleared z ((hmem z).mpr hz), fun d k hk => ?_, ?_, ?_⟩
  · exact hfreed.kept d k fun hd z hz => hk hd z ((hmem z).mp hz)
  · intro n hn
    have hzone : (s₃.inode i).zone =
        Function.update (Function.update ((s.inode i).clearZones 7 0).zone 7 0) 8 0 := by
      change (Function.update s₂.inode i _ i).zone = _
      rw [Function.update_self, hinode₂, hinode₁, Function.update_self]
    rw [hzone]
    by_cases h8 : n = 8
    · rw [h8, Function.update_self]
    · rw [Function.update_of_ne h8]
      by_cases h7 : n = 7
      · rw [h7, Function.update_self]
      · rw [Function.update_of_ne h7]
        change (if 0 ≤ n ∧ n < 0 + 7 then 0 else _) = 0
        rw [if_pos (by omega)]
  · change (Function.update s₂.inode i _ i).size = 0
    rw [Function.update_self]

/-- A regular file with the direct zone 10 and the indirect zone 11, whose first entry is 12. -/
def smallFile : Fs :=
  { Fs.empty with
    disk := fun bh => if bh.blocknr = 11 then setWord (fun _ => 0) 0 12 else fun _ => 0
    zmap := fun _ _ => true
    inode := fun _ => { MInode.zero with
      mode := 0o100644, size := 8192, nlinks := 1, dev := 1, num := 2, count := 1,
      zone := fun n => if n = 0 then 10 else if n = 7 then 11 else 0 }
    super := fun _ => { SuperBlock.zero with
      ninodes := 32, nzones := 100, imapBlocks := 1, zmapBlocks := 1, firstdatazone := 5,
      dev := 1 } }

theorem smallFile_entry (k : ℕ) : smallFile.entry 1 11 k = if k = 0 then 12 else 0 := by
  have hword : smallFile.entry 1 11 k = word (setWord (fun _ => 0) 0 12) k := rfl
  rw [hword, word_setWord]
  rfl

/-- The slots in use of the file. -/
theorem smallFile_slot {x : ℕ × List ℕ} (hx : x ∈ zoneSlots) (hne : smallFile.zoneIn 0 x ≠ 0) :
    (x = (0, []) ∧ smallFile.zoneIn 0 x = 10) ∨ (x = (7, []) ∧ smallFile.zoneIn 0 x = 11) ∨
      (x = (7, [0]) ∧ smallFile.zoneIn 0 x = 12) := by
  obtain ⟨n, p⟩ := x
  obtain ⟨-, hlen, -⟩ := hx
  have hvalue : smallFile.zoneIn 0 (n, p) =
      follow (smallFile.entry 1) (if n = 0 then 10 else if n = 7 then 11 else 0) p := rfl
  rw [hvalue] at hne ⊢
  by_cases h0 : n = 0
  · subst h0
    have hp : p = [] := List.eq_nil_of_length_eq_zero (by simpa using hlen)
    subst hp
    exact Or.inl ⟨rfl, rfl⟩
  · rw [if_neg h0] at hne ⊢
    by_cases h7 : n = 7
    · subst h7
      rw [if_pos rfl] at hne ⊢
      match p, hlen with
      | [], _ => exact Or.inr (Or.inl ⟨rfl, rfl⟩)
      | [k], _ =>
        rw [follow, if_neg (by decide), follow, smallFile_entry] at hne ⊢
        have hk : k = 0 := by
          by_contra hk
          exact hne (if_neg hk)
        exact Or.inr (Or.inr ⟨by rw [hk], if_pos hk⟩)
    · rw [if_neg h7, LihaLinux.IndexTree.follow_zero] at hne
      exact absurd rfl hne

theorem smallFile_distinct : smallFile.ZonesDistinct 0 := by
  intro x hx y hy hne heq
  have hne' : smallFile.zoneIn 0 y ≠ 0 := fun h0 => hne (heq.trans h0)
  have heq' : smallFile.zoneIn 0 x = smallFile.zoneIn 0 y := heq
  rcases smallFile_slot hx hne with ⟨rfl, h⟩ | ⟨rfl, h⟩ | ⟨rfl, h⟩ <;>
    rcases smallFile_slot hy hne' with ⟨rfl, h'⟩ | ⟨rfl, h'⟩ | ⟨rfl, h'⟩ <;>
    first | rfl | (rw [h, h'] at heq'; cases heq')

/-- `truncate` of the file. -/
theorem truncate_frees_sample :
    ∃ s', truncate 0 smallFile = .ok ((), s') ∧
      (∀ z, smallFile.Refers 0 z → s'.zmap 1 ((smallFile.super 0).bit z) = false) ∧
      (∀ d k, (d = 1 → ∀ z, smallFile.Refers 0 z → (smallFile.super 0).bit z ≠ k) →
        s'.zmap d k = smallFile.zmap d k) ∧
      (∀ n < 9, (s'.inode 0).zone n = 0) ∧ (s'.inode 0).size = 0 := by
  have hsb : superOf smallFile.super (smallFile.inode 0).dev = some (smallFile.super 0) := rfl
  refine truncate_frees hsb
    (Or.inl (by decide)) (fun _ => rfl) smallFile_distinct ?_
  rintro z ⟨hne, x, hx, rfl⟩
  rcases smallFile_slot hx hne with ⟨-, h⟩ | ⟨-, h⟩ | ⟨-, h⟩ <;> rw [h] <;>
    exact ⟨⟨by decide, by decide⟩, ⟨by decide, rfl⟩, rfl⟩

end LihaLinux.Files
