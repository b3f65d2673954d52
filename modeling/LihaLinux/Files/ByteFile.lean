import LihaLinux.Files.BlockGrowth
import LihaLinux.Files.Offsets
import LihaLinux.Lib.Extents

/-!
# The bytes of a file

The bytes of a regular file are those of its blocks up to its size; blocks that are missing and
the bytes behind the size are zeros. A step of `file_write` stores a piece of the buffer in this
sequence of bytes, a step of `file_read` fetches a piece of it, and the loops do this for the whole
buffer.
-/

namespace LihaLinux.Files

open LihaLinux.Fs (maxBlock path)
open Extents (fetch store)

variable {s s' s'' : Fs} {sb : SuperBlock} {dev i b c v pos : ℕ}

/-- The byte of a file at a position. -/
def Fs.byteAt (s : Fs) (i n : ℕ) : ℕ := s.blockData i (path (n / blockSize)) (n % blockSize)

/-- The bytes of a file up to its size. -/
def Fs.contents (s : Fs) (i : ℕ) : List ℕ := (List.range (s.inode i).size).map (s.byteAt i)

/-- A regular file with zeros behind its size. -/
structure ByteFile (i : ℕ) (sb : SuperBlock) (s : Fs) : Prop extends FileZones i sb s where
  mode : isReg (s.inode i).mode = true
  pipe : (s.inode i).pipe = false
  seekable : isSeekable (major (s.inode i).dev) = true
  size : (s.inode i).size ≤ maxBytes
  tail : ∀ n, (s.inode i).size ≤ n → n < maxBytes → s.byteAt i n = 0

theorem contents_length (s : Fs) (i : ℕ) : (s.contents i).length = (s.inode i).size := by
  rw [Fs.contents, List.length_map, List.length_range]

/-- The bytes behind the size are read as zeros, too. -/
theorem ByteFile.getD_contents (h : ByteFile i sb s) {n : ℕ} (hn : n < maxBytes) :
    (s.contents i).getD n 0 = s.byteAt i n := by
  rcases Nat.lt_or_ge n (s.inode i).size with hin | hout
  · rw [List.getD_eq_getElem _ _ (by rwa [contents_length])]
    simp only [Fs.contents, List.getElem_map, List.getElem_range]
  · rw [List.getD_eq_default _ _ (by rwa [contents_length]), h.tail n hout hn]

/-- The bytes are known from the blocks. -/
theorem SameData.byteAt (h : SameData i s s') {n : ℕ} (hn : n < maxBytes) :
    s'.byteAt i n = s.byteAt i n := by
  have hblock : n / blockSize < maxBlock := Nat.div_lt_of_lt_mul hn
  rw [Fs.byteAt, Fs.byteAt, h _ (leaf_path hblock)]

/-- Files of the same size with the same blocks have the same bytes. -/
theorem contents_congr (hsize : (s'.inode i).size = (s.inode i).size)
    (hmax : (s.inode i).size ≤ maxBytes) (h : SameData i s s') :
    s'.contents i = s.contents i := by
  rw [Fs.contents, Fs.contents, hsize]
  apply List.map_congr_left
  intro n hn
  exact h.byteAt (by rw [List.mem_range] at hn; omega)

/-! ### The zones of a file whose indirect blocks are the same -/

/-- The numbers in the slots depend on the indirect blocks only. -/
theorem zoneIn_of_inner (hzone : (s'.inode i).zone = (s.inode i).zone)
    (hdev : (s'.inode i).dev = (s.inode i).dev)
    (hentry : ∀ z, Inner i s z → s'.bytes ⟨(s.inode i).dev, z⟩ = s.bytes ⟨(s.inode i).dev, z⟩)
    {y : ℕ × List ℕ} (hy : y ∈ zoneSlots) : s'.zoneIn i y = s.zoneIn i y := by
  obtain ⟨n, p⟩ := y
  induction p using List.reverseRecOn with
  | nil =>
    change (s'.inode i).zone n = (s.inode i).zone n
    rw [hzone]
  | append_singleton p k ih =>
    have hp := zoneSlots_closed n p k hy
    have hprev : IndexTree.value (s'.inode i).zone (s'.entry (s'.inode i).dev) (n, p) =
        IndexTree.value (s.inode i).zone (s.entry (s.inode i).dev) (n, p) := ih hp
    rw [Fs.zoneIn, Fs.zoneIn, IndexTree.value_concat, IndexTree.value_concat, hprev, hdev]
    split_ifs with hz
    · rfl
    · have hlen : (p ++ [k]).length ≤ n - 6 := hy.2.1
      rw [List.length_append, List.length_singleton] at hlen
      rw [Fs.entry, Fs.entry, hentry _ ⟨hz, (n, p), hp, by dsimp only; omega, rfl⟩]

/-- A file with the same zones on a device where no bit has been cleared for them. -/
theorem FileZones.congr (h : FileZones i sb s)
    (hzone : ∀ y ∈ zoneSlots, s'.zoneIn i y = s.zoneIn i y)
    (hdev : (s'.inode i).dev = (s.inode i).dev) (hsuper : s'.super = s.super)
    (hbad : s'.bad = s.bad) (hbcount : s'.bcount = s.bcount)
    (hzero : s'.zmap (s.inode i).dev 0 = true)
    (hbits : ∀ z, s.Refers i z → s'.zmap (s.inode i).dev (sb.bit z) = true) :
    FileZones i sb s' := by
  have hrefers : ∀ z, s'.Refers i z → s.Refers i z := by
    rintro z ⟨hz, y, hy, hyz⟩
    exact ⟨hz, y, hy, by rw [← hzone y hy, hyz]⟩
  refine ⟨⟨?_, h.nzones, ?_, ?_, ?_, fun z hz => ?_⟩, h.first, fun z hz => ?_, fun z hz => ?_⟩
  · rw [hsuper, hdev]
    exact h.super
  · rw [hdev]
    exact hzero
  · rw [hbad]
    exact h.bad
  · intro x hx y hy hne heq
    have hx' : IndexTree.value (s'.inode i).zone (s'.entry (s'.inode i).dev) x = s.zoneIn i x :=
      hzone x hx
    have hy' : IndexTree.value (s'.inode i).zone (s'.entry (s'.inode i).dev) y = s.zoneIn i y :=
      hzone y hy
    rw [hx'] at hne heq
    rw [hy'] at heq
    exact h.distinct x hx y hy hne heq
  · rw [hdev]
    exact ⟨(h.marked z (hrefers z hz)).1, hbits z (hrefers z hz)⟩
  · rw [hbcount, hdev]
    exact h.quiet z hz
  · exact h.data z (hrefers z hz)

/-! ### Writing a block -/

/-- The bytes of a block after some have been stored. -/
theorem setBytes_eq (d : ℕ → ℕ) (c : ℕ) (bytes : List ℕ) (n : ℕ) :
    setBytes d c bytes n =
      if c ≤ n ∧ n < c + bytes.length then bytes.getD (n - c) 0 else d n := rfl

/-- The state after a block has been held, an inode and the block have been changed, and the block
has been given back. -/
def Fs.put (s : Fs) (i : ℕ) (m : MInode) (bh : Bh) (d : ℕ → ℕ) : Fs :=
  (((s.held bh).setInode i m).setData bh d).setCount bh (s.bcount bh)

section Put

variable (s : Fs) (i : ℕ) (m : MInode) (bh : Bh) (d : ℕ → ℕ)

theorem put_inode : (s.put i m bh d).inode = Function.update s.inode i m := by
  change Function.update (s.held bh).inode i m = _
  rw [(held_same s bh).inode]

/-- No table and no map changes. -/
theorem put_same : (s.put i m bh d).file = s.file ∧ (s.put i m bh d).task = s.task ∧
    (s.put i m bh d).current = s.current ∧ (s.put i m bh d).super = s.super ∧
    (s.put i m bh d).bad = s.bad ∧ (s.put i m bh d).zmap = s.zmap ∧
    (s.put i m bh d).bcount = s.bcount := by
  obtain ⟨hfile, htask, hcurrent, hsuper, hbad, hbcount, -⟩ := held_sameOpen s bh i
  exact ⟨hfile, htask, hcurrent, hsuper, hbad, (held_same s bh).zmap, hbcount⟩

/-- One block changes. -/
theorem put_bytes (hbad : ∀ b, s.bad b = false) (b : Bh) :
    (s.put i m bh d).bytes b = if b = bh then d else s.bytes b := by
  have hup : (s.held bh).uptodate bh = true := by
    rw [held_uptodate hbad, Function.update_self]
  change (if (s.held bh).uptodate b then Function.update (s.held bh).data bh d b
    else (s.held bh).disk b) = _
  by_cases hb : b = bh
  · rw [hb, hup, if_pos rfl, Function.update_self, if_pos rfl]
  · rw [if_neg hb, Function.update_of_ne hb]
    exact congrFun (held_bytes s bh) b

end Put

/-- A block of the file is replaced. -/
theorem put_grows (h : FileZones i sb s) {x : ℕ × List ℕ} (hx : Leaf x)
    (hne : s.zoneIn i x ≠ 0) {m : MInode} (hzone : m.zone = (s.inode i).zone)
    (hdev : m.dev = (s.inode i).dev) (hmode : m.mode = (s.inode i).mode)
    (hpipe : m.pipe = (s.inode i).pipe) {d : ℕ → ℕ}
    (hs' : s' = s.put i m ⟨(s.inode i).dev, s.zoneIn i x⟩ d) :
    Grows i sb s s' ∧ s'.inode i = m ∧
      ∀ y, Leaf y → s'.blockData i y = if y = x then d else s.blockData i y := by
  have hinode := put_inode s i m ⟨(s.inode i).dev, s.zoneIn i x⟩ d
  obtain ⟨hfile, htask, hcurrent, hsuper, hbad, hzmap, hbcount⟩ :=
    put_same s i m ⟨(s.inode i).dev, s.zoneIn i x⟩ d
  have hbytes := put_bytes s i m ⟨(s.inode i).dev, s.zoneIn i x⟩ d h.bad
  rw [← hs'] at hinode hfile htask hcurrent hsuper hbad hzmap hbcount hbytes
  have hself : s'.inode i = m := by
    rw [hinode, Function.update_self]
  rw [← hself] at hzone hdev hmode hpipe
  have hslots : ∀ y ∈ zoneSlots, s'.zoneIn i y = s.zoneIn i y := by
    intro y hy
    apply zoneIn_of_inner hzone hdev _ hy
    intro z hz
    rw [hbytes, if_neg]
    intro heq
    exact h.leaf_ne_inner hx hz (Bh.mk.inj heq).2.symm
  have hzones : FileZones i sb s' := h.congr hslots hdev hsuper hbad hbcount
    (by rw [hzmap]; exact h.bit_zero) fun z hz => by
      rw [hzmap]
      exact (h.marked z hz).2
  have hrefers : ∀ z, s'.Refers i z ↔ s.Refers i z := by
    intro z
    constructor
    · rintro ⟨hz, y, hy, hyz⟩
      exact ⟨hz, y, hy, by rw [← hslots y hy, hyz]⟩
    · rintro ⟨hz, y, hy, hyz⟩
      exact ⟨hz, y, hy, by rw [hslots y hy, hyz]⟩
  have hother : ∀ j, j ≠ i → s'.inode j = s.inode j := by
    intro j hj
    rw [hinode, Function.update_of_ne hj]
  refine ⟨⟨hzones, hfile, htask, hcurrent, hsuper, hbad, hbcount, hother, hdev, hmode, hpipe,
    fun y hy _ => hslots y hy, fun z hz => (hrefers z).mpr hz,
    fun z hz => Or.inl ((hrefers z).mp hz), fun b hb => ?_,
    fun d _ => by rw [hzmap], fun k hk => by rwa [hzmap]⟩, hself, fun y hy => ?_⟩
  · rw [hbytes] at hb
    split_ifs at hb with hbh
    · rw [hbh]
      exact ⟨rfl, (hrefers _).mpr ⟨hne, x, hx.1, rfl⟩⟩
    · exact absurd rfl hb
  · rw [Fs.blockData, Fs.blockData, hslots y hy.1, hdev, hbytes]
    by_cases hyx : y = x
    · rw [hyx, if_neg hne, if_pos rfl, if_pos rfl]
    · rw [if_neg hyx]
      split_ifs with hzero heq
      · rfl
      · exact absurd (h.distinct y hy.1 x hx.1 hzero (Bh.mk.inj heq).2) hyx
      · rfl

/-- The bytes of a block that is held. -/
theorem held_data (hbad : ∀ b, s.bad b = false) (bh : Bh) : (s.held bh).data bh = s.bytes bh := by
  have hup : (s.held bh).uptodate bh = true := by
    rw [held_uptodate hbad, Function.update_self]
  rw [← held_bytes s bh, Fs.bytes, hup, if_pos rfl]

/-- The inode after a write up to `size`. -/
def MInode.extended (m : MInode) (size : ℕ) : MInode :=
  if m.size < size then { m with size := size, dirt := true } else m

/-- A longer file is the same but for its size. -/
theorem MInode.extended_same (m : MInode) (size : ℕ) :
    (m.extended size).size = max m.size size ∧ (m.extended size).zone = m.zone ∧
      (m.extended size).dev = m.dev ∧ (m.extended size).mode = m.mode ∧
      (m.extended size).pipe = m.pipe := by
  unfold MInode.extended
  split_ifs with hlt
  · exact ⟨(Nat.max_eq_right (Nat.le_of_lt hlt)).symm, rfl, rfl, rfl, rfl⟩
  · exact ⟨(Nat.max_eq_left (by omega)).symm, rfl, rfl, rfl, rfl⟩

/-- The state after the bytes of a block that is held have been stored, and perhaps a new size. -/
def Fs.written (s : Fs) (i size : ℕ) (bh : Bh) (c : ℕ) (bytes : List ℕ) : Fs :=
  s.put i ((s.inode i).extended size) bh (setBytes (s.bytes bh) c bytes)

/-- To store the inode that is there changes nothing. -/
theorem setInode_self (s : Fs) (i : ℕ) : s.setInode i (s.inode i) = s := by
  rw [Fs.setInode, Function.update_eq_self]

/-- A step of `file_write` that has got a block stores its bytes in it. -/
theorem writeChunk_stored {s₁ : Fs} {buf : List ℕ} {z : ℕ}
    (hcreate : createBlock i (pos / blockSize) s = .ok (z, s₁)) (hz : z ≠ 0)
    (hbad : ∀ b, s₁.bad b = false) (hc : min (blockSize - pos % blockSize) buf.length = c) :
    writeChunk i pos buf s = .ok (some c,
      s₁.written i (pos + c) ⟨(s₁.inode i).dev, z⟩ (pos % blockSize) (buf.take c)) := by
  rw [writeChunk, Prog.bind_run hcreate, if_neg hz, Prog.read_run,
    Prog.bind_run (bread_run hbad ..)]
  dsimp only
  rw [hc, Prog.read_run]
  generalize (⟨(s₁.inode i).dev, z⟩ : Bh) = bh
  have hcount := held_count s₁ bh
  have hinode := (held_same s₁ bh).inode
  rw [Fs.written, Fs.put, MInode.extended, ← held_data hbad, ← hinode]
  by_cases hlt : ((s₁.held bh).inode i).size < pos + c
  · rw [Prog.when, if_pos hlt, modifyInode, Prog.update_run, modifyData, Prog.update_run]
    refine (Prog.bind_run (brelse_run (n := s₁.bcount bh) ?_)).trans ?_
    · exact hcount
    · rw [if_pos hlt]
      rfl
  · rw [Prog.when, if_neg hlt]
    refine (Prog.bind_run rfl).trans ?_
    rw [modifyData, Prog.update_run]
    refine (Prog.bind_run (brelse_run (n := s₁.bcount bh) ?_)).trans ?_
    · exact hcount
    · rw [if_neg hlt, setInode_self]
      rfl

/-- Bytes are stored in a block of the file. -/
theorem written_grows (h : FileZones i sb s) {x : ℕ × List ℕ} (hx : Leaf x)
    (hne : s.zoneIn i x ≠ 0) (size c : ℕ) (bytes : List ℕ)
    (hs' : s' = s.written i size ⟨(s.inode i).dev, s.zoneIn i x⟩ c bytes) :
    Grows i sb s s' ∧ (s'.inode i).size = max (s.inode i).size size ∧
      ∀ y, Leaf y → s'.blockData i y =
        if y = x then setBytes (s.blockData i x) c bytes else s.blockData i y := by
  obtain ⟨hsize, hzone, hdev, hmode, hpipe⟩ := (s.inode i).extended_same size
  obtain ⟨hgrows, hself, hdata⟩ := put_grows h hx hne hzone hdev hmode hpipe hs'
  have hold : s.blockData i x = s.bytes ⟨(s.inode i).dev, s.zoneIn i x⟩ := if_neg hne
  refine ⟨hgrows, by rw [hself, hsize], fun y hy => ?_⟩
  rw [hdata y hy, hold]

/-! ### `file_write` -/

/-- What a step or several steps of `file_write` have done. -/
structure Wrote (i : ℕ) (sb : SuperBlock) (pos : ℕ) (stored : List ℕ) (s s' : Fs) : Prop where
  file : ByteFile i sb s'
  grows : Grows i sb s s'
  contents : s'.contents i = store 0 (s.contents i) pos stored

/-- Nothing has been written so far. -/
theorem Wrote.refl (h : ByteFile i sb s) (pos : ℕ) (buf : List ℕ) :
    Wrote i sb pos (buf.take (pos - pos)) s s := by
  rw [Nat.sub_self, List.take_zero]
  exact ⟨h, Grows.refl h.toFileZones, Extents.store_nil.symm⟩

theorem Wrote.trans {xs ys : List ℕ} (h : Wrote i sb pos xs s s')
    (h' : Wrote i sb (pos + xs.length) ys s' s'') : Wrote i sb pos (xs ++ ys) s s'' := by
  refine ⟨h'.file, h.grows.trans h'.grows, ?_⟩
  rw [h'.contents, h.contents, Extents.store_append]

/-- A step of `file_write` before the end of the largest file stores as much of the buffer as fits
into a block, or finds the device full. -/
theorem writeChunk_run (h : ByteFile i sb s) (hpos : pos < maxBytes) {buf : List ℕ}
    (hbuf : buf ≠ []) :
    ∃ r s', writeChunk i pos buf s = .ok (r, s') ∧
      (r = none ∧ Wrote i sb pos [] s s' ∧ Full (s'.inode i).dev sb s' ∨
        ∃ c, r = some c ∧ 0 < c ∧ c ≤ buf.length ∧ Wrote i sb pos (buf.take c) s s') := by
  have hblock : pos / blockSize < maxBlock := Nat.div_lt_of_lt_mul hpos
  have hleaf := leaf_path hblock
  obtain ⟨v, s₁, hcreate, hv, hgrown⟩ := createBlock_grows h.toFileZones hblock
  have hzones := hgrown.grows.zones
  have htail : ∀ n, (s.inode i).size ≤ n → n < maxBytes → s₁.byteAt i n = 0 := by
    intro n hle hlt
    rw [hgrown.data.byteAt hlt, h.tail n hle hlt]
  have hcontents : s₁.contents i = s.contents i := contents_congr hgrown.size h.size hgrown.data
  have hfile₁ : ByteFile i sb s₁ := by
    refine ⟨hzones, ?_, ?_, ?_, ?_, ?_⟩
    · rw [hgrown.grows.mode]
      exact h.mode
    · rw [hgrown.grows.pipe]
      exact h.pipe
    · rw [hgrown.grows.dev]
      exact h.seekable
    · rw [hgrown.size]
      exact h.size
    · rw [hgrown.size]
      exact htail
  by_cases hzero : v = 0
  · have hrun : writeChunk i pos buf s = .ok (none, s₁) := by
      rw [writeChunk, Prog.bind_run hcreate, if_pos hzero]
      rfl
    refine ⟨none, s₁, hrun, Or.inl ⟨rfl, ⟨hfile₁, hgrown.grows, ?_⟩, hgrown.full hzero⟩⟩
    rw [hcontents, Extents.store_nil]
  · have hlen : 0 < buf.length := List.length_pos_iff.mpr hbuf
    have hmod : pos % blockSize < blockSize := Nat.mod_lt _ (by decide)
    generalize hc : min (blockSize - pos % blockSize) buf.length = c
    have hcpos : 0 < c := by omega
    have htake : (buf.take c).length = c := by
      rw [List.length_take]
      omega
    have hfit : pos + c ≤ maxBytes := by
      have hdiv := Nat.div_add_mod pos blockSize
      have hnext : blockSize * (pos / blockSize + 1) ≤ maxBytes :=
        Nat.mul_le_mul_left blockSize hblock
      rw [Nat.mul_add] at hnext
      omega
    have hrun := writeChunk_stored hcreate hzero hzones.bad hc
    subst hv
    obtain ⟨hgrows, hsize, hdata⟩ := written_grows hzones hleaf hzero (pos + c) (pos % blockSize)
      (buf.take c) rfl
    generalize s₁.written i (pos + c) ⟨(s₁.inode i).dev, s₁.zoneIn i (path (pos / blockSize))⟩
      (pos % blockSize) (buf.take c) = s₂ at hrun hgrows hsize hdata
    rw [hgrown.size] at hsize
    have hmax := h.size
    -- the byte at a position
    have hbyte : ∀ n < maxBytes, s₂.byteAt i n =
        if pos ≤ n ∧ n < pos + c then (buf.take c).getD (n - pos) 0 else s.byteAt i n := by
      intro n hn
      have hnblock : n / blockSize < maxBlock := Nat.div_lt_of_lt_mul hn
      have hdivpos := Nat.div_add_mod pos blockSize
      have hdivn := Nat.div_add_mod n blockSize
      rw [Fs.byteAt, hdata _ (leaf_path hnblock)]
      by_cases hsame : n / blockSize = pos / blockSize
      · rw [if_pos (by rw [hsame]), setBytes_eq, htake, ← hsame]
        rw [hsame] at hdivn
        by_cases hin : pos ≤ n ∧ n < pos + c
        · have hsub : n % blockSize - pos % blockSize = n - pos := by omega
          rw [if_pos hin, if_pos (by omega), hsub]
        · rw [if_neg hin, if_neg (by omega)]
          exact hgrown.data.byteAt hn
      · have hother : path (n / blockSize) ≠ path (pos / blockSize) :=
          fun heq => hsame (path_inj heq)
        rw [if_neg hother, if_neg]
        · exact hgrown.data.byteAt hn
        · rintro ⟨hle, hlt⟩
          have hblocks : n / blockSize = pos / blockSize := by
            apply Nat.div_eq_of_lt_le
            · rw [Nat.mul_comm]
              omega
            · rw [Nat.add_mul, Nat.mul_comm]
              omega
          exact hsame hblocks
    refine ⟨some c, s₂, hrun, Or.inr ⟨c, rfl, hcpos, by omega, ?_, ?_, ?_⟩⟩
    · refine ⟨hgrows.zones, ?_, ?_, ?_, ?_, ?_⟩
      · rw [hgrows.mode]
        exact hfile₁.mode
      · rw [hgrows.pipe]
        exact hfile₁.pipe
      · rw [hgrows.dev]
        exact hfile₁.seekable
      · rw [hsize]
        omega
      · intro n hle hn
        rw [hsize] at hle
        rw [hbyte n hn, if_neg (by omega), h.tail n (by omega) hn]
    · exact hgrown.grows.trans hgrows
    · have hne : buf.take c ≠ [] := by
        rw [← List.length_pos_iff, htake]
        exact hcpos
      apply Extents.eq_of_getD 0
      · rw [contents_length, Extents.length_store hne, contents_length, htake, hsize]
      · intro n hn
        rw [contents_length, hsize] at hn
        have hn' : n < maxBytes := by omega
        rw [List.getD_eq_getElem _ _ (by rw [contents_length, hsize]; exact hn),
          Extents.getD_store hne, htake, h.getD_contents hn', ← hbyte n hn']
        simp only [Fs.contents, List.getElem_map, List.getElem_range]

/-- A block behind the end of the largest file is the panic of `_bmap`. -/
theorem writeChunk_behind (hpos : maxBytes ≤ pos) (buf : List ℕ) :
    writeChunk i pos buf s = .error (.bmapBlock, s) := by
  have hblock : maxBlock ≤ pos / blockSize := by
    rw [Nat.le_div_iff_mul_le (by decide), Nat.mul_comm]
    exact hpos
  have hcreate : createBlock i (pos / blockSize) s = .error (.bmapBlock, s) := by
    rw [createBlock, bmapBlock, if_pos hblock]
    rfl
  exact Prog.bind_run_error hcreate

/-- The loop of `file_write` stores the buffer as far as it comes. It stops early on a full device,
and panics behind the end of the largest file. -/
theorem writeLoop_stores (h : ByteFile i sb s) {n : ℕ} {buf : List ℕ} (hn : buf.length ≤ n) :
    (writeLoop i n pos buf).wp
      (fun e s' => pos ≤ e ∧ e ≤ pos + buf.length ∧ Wrote i sb pos (buf.take (e - pos)) s s' ∧
        (e < pos + buf.length → Full (s'.inode i).dev sb s'))
      (fun e _ => e = .bmapBlock ∧ maxBytes < pos + buf.length) s := by
  induction n generalizing s pos buf with
  | zero => exact ⟨Nat.le_refl _, Nat.le_add_right .., .refl h pos buf, fun hlt => by omega⟩
  | succ n ih =>
    rw [writeLoop, Prog.wp_ite]
    constructor
    · rintro rfl
      refine ⟨Nat.le_refl _, Nat.le_add_right .., .refl h pos [], fun hlt => ?_⟩
      rw [List.length_nil] at hlt
      omega
    · intro hbuf
      have hlen : 0 < buf.length := List.length_pos_iff.mpr hbuf
      rcases Nat.lt_or_ge pos maxBytes with hpos | hbehind
      · obtain ⟨r, s₁, hrun, ⟨rfl, hwrote, hfull⟩ | ⟨c, rfl, hc, hle, hwrote⟩⟩ :=
          writeChunk_run h hpos hbuf
        · refine Prog.wp_bind_of_run hrun ⟨Nat.le_refl _, Nat.le_add_right .., ?_, fun _ => hfull⟩
          rwa [Nat.sub_self, List.take_zero]
        · have htake : (buf.take c).length = c := by
            rw [List.length_take]
            omega
          have hnext : (buf.drop c).length ≤ n := by
            rw [List.length_drop]
            omega
          apply Prog.wp_bind_of_run hrun
          have hloop : (writeLoop i n (pos + c) (buf.drop c)).wp _ _ s₁ := ih hwrote.file hnext
          refine hloop.mono (fun e s₂ he => ?_) fun e s₂ he => ?_
          · obtain ⟨hlow, hhigh, hrest, hfull⟩ := he
            rw [List.length_drop] at hhigh hfull
            refine ⟨by omega, by omega, ?_, fun hlt => hfull (by omega)⟩
            have hsum : e - pos = c + (e - (pos + c)) := by omega
            rw [hsum, List.take_add]
            apply hwrote.trans
            rwa [htake]
          · rw [List.length_drop] at he
            exact ⟨he.1, by omega⟩
      · exact Prog.wp_bind_of_error (writeChunk_behind hbehind buf) ⟨rfl, by omega⟩

end LihaLinux.Files
