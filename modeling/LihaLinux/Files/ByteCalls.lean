import LihaLinux.Files.ByteFile

/-!
# Calls on the bytes of files

`file_read` fetches bytes and moves the offset, `file_write` stores bytes, and `truncate` leaves no
bytes. What each of them does to the other files of the device is said by one relation: blocks and
bits are touched only if they belong to the file or are free.
-/

namespace LihaLinux.Files

open LihaLinux.Fs (maxBlock path)
open LihaLinux.IndexTree (follow_zero value value_concat)
open Extents (fetch store)

variable {s s' s'' : Fs} {sb : SuperBlock} {dev i j f pos : ℕ}

/-! ### The same bytes -/

/-- The inodes of the same file, at other times. -/
structure SameInode (m m' : MInode) : Prop where
  zone : m'.zone = m.zone
  dev : m'.dev = m.dev
  mode : m'.mode = m.mode
  size : m'.size = m.size
  pipe : m'.pipe = m.pipe
  num : m'.num = m.num

theorem SameInode.refl (m : MInode) : SameInode m m := ⟨rfl, rfl, rfl, rfl, rfl, rfl⟩

theorem SameInode.trans {m m' m'' : MInode} (h : SameInode m m') (h' : SameInode m' m'') :
    SameInode m m'' :=
  ⟨h'.zone.trans h.zone, h'.dev.trans h.dev, h'.mode.trans h.mode, h'.size.trans h.size,
    h'.pipe.trans h.pipe, h'.num.trans h.num⟩

/-- At most offsets and times have changed. -/
structure SameBytes (s s' : Fs) : Prop where
  file : ∀ f, (s'.file f).inode = (s.file f).inode ∧ (s'.file f).flags = (s.file f).flags
  task : s'.task = s.task
  current : s'.current = s.current
  super : s'.super = s.super
  bad : s'.bad = s.bad
  bcount : s'.bcount = s.bcount
  zmap : s'.zmap = s.zmap
  bytes : s'.bytes = s.bytes
  inode : ∀ j, SameInode (s.inode j) (s'.inode j)

theorem SameBytes.refl (s : Fs) : SameBytes s s :=
  ⟨fun _ => ⟨rfl, rfl⟩, rfl, rfl, rfl, rfl, rfl, rfl, rfl, fun _ => .refl _⟩

theorem SameBytes.trans (h : SameBytes s s') (h' : SameBytes s' s'') : SameBytes s s'' :=
  ⟨fun f => ⟨(h'.file f).1.trans (h.file f).1, (h'.file f).2.trans (h.file f).2⟩,
    h'.task.trans h.task, h'.current.trans h.current, h'.super.trans h.super, h'.bad.trans h.bad,
    h'.bcount.trans h.bcount, h'.zmap.trans h.zmap, h'.bytes.trans h.bytes,
    fun j => (h.inode j).trans (h'.inode j)⟩

theorem SameFiles.sameBytes (h : SameFiles s s') (htables : SameTables s s') : SameBytes s s' := by
  refine ⟨fun f => ?_, htables.task, htables.current, h.super, h.bad, h.bcount, h.zmap, h.bytes,
    fun j => ?_⟩
  · rw [htables.file]
    exact ⟨rfl, rfl⟩
  · rw [h.inode]
    exact .refl _

/-- Reading a block changes no byte. -/
theorem released_sameBytes (s : Fs) (bh : Bh) : SameBytes s (s.released bh) := by
  have hopen := held_sameOpen s bh 0
  exact (released_same s bh).sameBytes ⟨hopen.super, hopen.file, hopen.task, hopen.current⟩

/-- An inode with other times is stored. -/
theorem setInode_sameBytes (s : Fs) {m : MInode} (h : SameInode (s.inode i) m) :
    SameBytes s (s.setInode i m) := by
  refine ⟨fun _ => ⟨rfl, rfl⟩, rfl, rfl, rfl, rfl, rfl, rfl, rfl, fun j => ?_⟩
  change SameInode (s.inode j) (Function.update s.inode i m j)
  by_cases hj : j = i
  · rw [hj, Function.update_self]
    exact h
  · rw [Function.update_of_ne hj]
    exact .refl _

/-- An offset is stored. -/
theorem setPos_sameBytes (s : Fs) (f pos : ℕ) :
    SameBytes s (s.setFile f { s.file f with pos := pos }) := by
  refine ⟨fun g => ?_, rfl, rfl, rfl, rfl, rfl, rfl, rfl, fun _ => .refl _⟩
  by_cases hg : g = f
  · rw [hg, Fs.setFile_self]
    exact ⟨rfl, rfl⟩
  · rw [Fs.setFile_ne s hg]
    exact ⟨rfl, rfl⟩

theorem SameBytes.zoneIn (h : SameBytes s s') (i : ℕ) : s'.zoneIn i = s.zoneIn i := by
  have hentry : s'.entry = s.entry := by
    funext e z k
    rw [Fs.entry, Fs.entry, h.bytes]
  funext x
  rw [Fs.zoneIn, Fs.zoneIn, hentry, (h.inode i).zone, (h.inode i).dev]

theorem SameBytes.sameData (h : SameBytes s s') (i : ℕ) : SameData i s s' := by
  intro x _
  rw [Fs.blockData, Fs.blockData, h.zoneIn, h.bytes, (h.inode i).dev]

theorem SameBytes.fileZones (h : SameBytes s s') (hi : FileZones i sb s) : FileZones i sb s' := by
  refine hi.congr (fun y _ => by rw [h.zoneIn]) (h.inode i).dev h.super h.bad h.bcount ?_
    fun z hz => ?_
  · rw [h.zmap]
    exact hi.bit_zero
  · rw [h.zmap]
    exact (hi.marked z hz).2

/-- A regular file whose inode has at most other times and whose blocks are the same. -/
theorem ByteFile.congr (h : ByteFile i sb s) (hzones : FileZones i sb s')
    (hinode : SameInode (s.inode i) (s'.inode i)) (hdata : SameData i s s') :
    ByteFile i sb s' ∧ s'.contents i = s.contents i := by
  refine ⟨⟨hzones, ?_, ?_, ?_, ?_, ?_⟩, contents_congr hinode.size h.size hdata⟩
  · rw [hinode.mode]
    exact h.mode
  · rw [hinode.pipe]
    exact h.pipe
  · rw [hinode.dev]
    exact h.seekable
  · rw [hinode.size]
    exact h.size
  · rw [hinode.size]
    intro n hle hlt
    rw [hdata.byteAt hlt, h.tail n hle hlt]

theorem SameBytes.byteFile (h : SameBytes s s') (hi : ByteFile i sb s) :
    ByteFile i sb s' ∧ s'.contents i = s.contents i :=
  hi.congr (h.fileZones hi.toFileZones) (h.inode i) (h.sameData i)

/-! ### Reading -/

/-- The offset of entry `f` of the file table has gone on by `n`, and nothing else has changed but
times. -/
structure Advanced (f n : ℕ) (s s' : Fs) : Prop where
  bytes : SameBytes s s'
  pos : (s'.file f).pos = (s.file f).pos + n
  other : ∀ g, g ≠ f → (s'.file g).pos = (s.file g).pos

theorem Advanced.trans {m n : ℕ} (h : Advanced f m s s') (h' : Advanced f n s' s'') :
    Advanced f (m + n) s s'' := by
  refine ⟨h.bytes.trans h'.bytes, ?_, fun g hg => (h'.other g hg).trans (h.other g hg)⟩
  rw [h'.pos, h.pos, Nat.add_assoc]

/-- Nothing but times has changed. -/
theorem Advanced.of_file (h : SameBytes s s') (hfile : s'.file = s.file) : Advanced f 0 s s' :=
  ⟨h, by rw [hfile, Nat.add_zero], fun g _ => by rw [hfile]⟩

theorem advance_advanced (f n : ℕ) (s : Fs) :
    Advanced f n s (s.setFile f { s.file f with pos := (s.file f).pos + n }) := by
  refine ⟨setPos_sameBytes s f _, ?_, fun g hg => ?_⟩
  · rw [Fs.setFile_self]
  · rw [Fs.setFile_ne s hg]

/-- A step of `file_read` in the file fetches what it can from one block. -/
theorem readChunk_run (h : ByteFile i sb s) {left : ℕ} (hleft : left ≠ 0)
    (hin : (s.file f).pos + left ≤ (s.inode i).size) :
    ∃ n s', readChunk i f left s =
        .ok (some (fetch (s.contents i) (s.file f).pos n), s') ∧
      0 < n ∧ n ≤ left ∧ Advanced f n s s' := by
  have hsize := h.size
  have hpos : (s.file f).pos < maxBytes := by omega
  obtain ⟨s₁, hbmap, hsame⟩ := bmap_run h.bad i (block_lt hpos)
  have htables : SameTables s s₁ :=
    Stays.of_ok sameTables_frame (bmapBlock_stays i _ false) hbmap
  have hbytes₁ := hsame.sameBytes htables
  generalize hp : (s.file f).pos = pos at hin hpos hbmap
  generalize hn : min (blockSize - pos % blockSize) left = n
  have hmod : pos % blockSize < blockSize := Nat.mod_lt _ (by decide)
  have hlen : (s.contents i).length = (s.inode i).size := contents_length s i
  -- the bytes of the block
  have hfetch : fetch (s.contents i) pos n =
      getBytes (s.blockData i (path (pos / blockSize))) (pos % blockSize) n := by
    rw [Extents.fetch_eq 0 (by omega), getBytes]
    apply List.map_congr_left
    intro k hk
    rw [List.mem_range] at hk
    have hdiv : (pos + k) / blockSize = pos / blockSize := by
      have hsplit := Nat.div_add_mod pos blockSize
      apply Nat.div_eq_of_lt_le
      · rw [Nat.mul_comm]
        omega
      · rw [Nat.add_mul, Nat.mul_comm]
        omega
    have hmodk : (pos + k) % blockSize = pos % blockSize + k := by
      have hsplit := Nat.div_add_mod pos blockSize
      have hsplit' := Nat.div_add_mod (pos + k) blockSize
      rw [hdiv] at hsplit'
      omega
    rw [h.getD_contents (by omega), Fs.byteAt, hdiv, hmodk]
  have hpos₁ : (s₁.file f).pos = pos := by rw [htables.file, hp]
  have hend : ∃ s', readChunk i f left s = .ok (some (fetch (s.contents i) pos n), s') ∧
      Advanced f n s s' := by
    rw [readChunk, Prog.read_run, hp, Prog.bind_run hbmap, hn, hfetch]
    by_cases hzero : s.zoneIn i (path (pos / blockSize)) = 0
    · have hdata : getBytes (s.blockData i (path (pos / blockSize))) (pos % blockSize) n =
          List.replicate n 0 := by
        rw [Fs.blockData, if_pos hzero, getBytes, List.map_const', List.length_range]
      have hall := (Advanced.of_file (f := f) hbytes₁ htables.file).trans (advance_advanced f n s₁)
      rw [Nat.zero_add] at hall
      rw [if_pos hzero, hdata]
      exact ⟨_, rfl, hall⟩
    · have hbad₁ : ∀ b, s₁.bad b = false := by
        rw [hsame.bad]
        exact h.bad
      rw [if_neg hzero, Prog.read_run, Prog.bind_run (bread_run hbad₁ ..), hsame.inode]
      dsimp only
      generalize hbh : (⟨(s.inode i).dev, s.zoneIn i (path (pos / blockSize))⟩ : Bh) = bh
      have hdata : (s₁.held bh).data bh = s.blockData i (path (pos / blockSize)) := by
        rw [held_data hbad₁, hsame.bytes, Fs.blockData, if_neg hzero, hbh]
      have hall := ((Advanced.of_file (f := f) hbytes₁ htables.file).trans
        (.of_file (released_sameBytes s₁ bh) (held_sameOpen s₁ bh i).file)).trans
          (advance_advanced f n (s₁.released bh))
      rw [Nat.add_zero, Nat.zero_add] at hall
      refine ⟨_, ?_, hall⟩
      rw [advance, modifyFile, Prog.update_run, Prog.read_run]
      refine (Prog.bind_run (brelse_run (n := s₁.bcount bh) ?_)).trans ?_
      · exact held_count s₁ bh
      change Except.ok (some (getBytes ((s₁.held bh).data bh) (pos % blockSize) n), _) = _
      rw [hdata]
      rfl
  obtain ⟨s', hrun, hadv⟩ := hend
  exact ⟨n, s', hrun, by omega, by omega, hadv⟩

/-- The loop of `file_read` in the file fetches all that it is asked for. -/
theorem readLoop_run (h : ByteFile i sb s) {n left : ℕ} (hn : left ≤ n)
    (hin : (s.file f).pos + left ≤ (s.inode i).size) :
    ∃ s', readLoop i f n left s = .ok (fetch (s.contents i) (s.file f).pos left, s') ∧
      Advanced f left s s' := by
  induction n generalizing s left with
  | zero =>
    obtain rfl : left = 0 := by omega
    refine ⟨s, ?_, .of_file (.refl s) rfl⟩
    rw [readLoop, fetch, List.take_zero]
    rfl
  | succ n ih =>
    rw [readLoop]
    by_cases hleft : left = 0
    · rw [if_pos hleft, hleft, fetch, List.take_zero]
      exact ⟨s, rfl, .of_file (.refl s) rfl⟩
    · obtain ⟨m, s₁, hrun, hm, hle, hadv⟩ := readChunk_run h hleft hin
      obtain ⟨hfile₁, hcontents₁⟩ := hadv.bytes.byteFile h
      have hsize₁ := (hadv.bytes.inode i).size
      have hlen : (fetch (s.contents i) (s.file f).pos m).length = m := by
        rw [fetch, List.length_take, List.length_drop, contents_length]
        omega
      have hin₁ : (s₁.file f).pos + (left - m) ≤ (s₁.inode i).size := by
        rw [hadv.pos, hsize₁]
        omega
      obtain ⟨s₂, hrest, hadv₂⟩ := ih hfile₁ (by omega) hin₁
      rw [hcontents₁, hadv.pos] at hrest
      have hsum : left = m + (left - m) := by omega
      refine ⟨s₂, ?_, ?_⟩
      · rw [if_neg hleft, Prog.bind_run hrun]
        dsimp only
        rw [hlen, Prog.bind_run hrest]
        conv_rhs => rw [hsum, Extents.fetch_add]
        rfl
      · rw [hsum]
        exact hadv.trans hadv₂

/-- `file_read` in the file. -/
theorem fileRead_run (h : ByteFile i sb s) {count : ℕ} (hcount : count ≠ 0)
    (hin : (s.file f).pos + count ≤ (s.inode i).size) :
    ∃ s', fileRead i f count s =
        .ok (.ok (fetch (s.contents i) (s.file f).pos count), s') ∧ Advanced f count s s' := by
  obtain ⟨s₁, hrun, hadv⟩ := readLoop_run h (Nat.le_refl count) hin
  have hne : fetch (s.contents i) (s.file f).pos count ≠ [] := by
    rw [← List.length_pos_iff, fetch, List.length_take, List.length_drop, contents_length]
    omega
  have htime := setInode_sameBytes (i := i) s₁ (m := { s₁.inode i with atime := s₁.time })
    ⟨rfl, rfl, rfl, rfl, rfl, rfl⟩
  refine ⟨_, ?_, hadv.trans (.of_file htime rfl)⟩
  rw [fileRead, if_neg hcount, Prog.bind_run hrun, Prog.read_run, modifyInode, Prog.update_run,
    if_neg hne]
  rfl

/-! ### What a call touches -/

/-- Of the device of file `i` a call on it changes blocks that belong to the file or are free, and
clears bits of its zones. -/
structure Touches (i : ℕ) (sb : SuperBlock) (s s' : Fs) : Prop where
  file : ∀ f, (s'.file f).inode = (s.file f).inode ∧ (s'.file f).flags = (s.file f).flags
  task : s'.task = s.task
  current : s'.current = s.current
  super : s'.super = s.super
  bad : s'.bad = s.bad
  bcount : s'.bcount = s.bcount
  other : ∀ j, j ≠ i → SameInode (s.inode j) (s'.inode j)
  dev : (s'.inode i).dev = (s.inode i).dev
  bytes : ∀ z, s'.bytes ⟨(s.inode i).dev, z⟩ ≠ s.bytes ⟨(s.inode i).dev, z⟩ →
    s.Refers i z ∨ s.zmap (s.inode i).dev (sb.bit z) = false
  zmap : ∀ k, s.zmap (s.inode i).dev k = true → s'.zmap (s.inode i).dev k = false →
    ∃ z, s.Refers i z ∧ sb.bit z = k
  refers : ∀ z, s'.Refers i z → s.Refers i z ∨ s.zmap (s.inode i).dev (sb.bit z) = false

theorem SameBytes.refers (h : SameBytes s s') (i z : ℕ) : s'.Refers i z ↔ s.Refers i z := by
  rw [Fs.Refers, Fs.Refers, h.zoneIn]

theorem SameBytes.touches (h : SameBytes s s') (i : ℕ) (sb : SuperBlock) : Touches i sb s s' := by
  refine ⟨h.file, h.task, h.current, h.super, h.bad, h.bcount, fun j _ => h.inode j,
    (h.inode i).dev, fun z hne => absurd (by rw [h.bytes]) hne, fun k hset hclear => ?_,
    fun z hz => Or.inl ((h.refers i z).mp hz)⟩
  rw [h.zmap, hset] at hclear
  cases hclear

/-- Growing, and then other offsets and times. -/
theorem Grows.touches (h : Grows i sb s s') (h' : SameBytes s' s'') : Touches i sb s s'' := by
  refine ⟨fun f => ?_, h'.task.trans h.task, h'.current.trans h.current, h'.super.trans h.super,
    h'.bad.trans h.bad, h'.bcount.trans h.bcount, fun j hj => ?_, (h'.inode i).dev.trans h.dev,
    fun z hne => ?_, fun k hset hclear => ?_, fun z hz => h.fresh z ((h'.refers i z).mp hz)⟩
  · rw [← h.file]
    exact h'.file f
  · rw [← h.other j hj]
    exact h'.inode j
  · rw [h'.bytes] at hne
    exact h.fresh z (h.changed _ hne).2
  · rw [h'.zmap, h.bits k hset] at hclear
    cases hclear

/-- The other files of the device keep their zones and bytes. -/
theorem Touches.other_file (h : Touches i sb s s') (hi : FileZones i sb s) (hj : ByteFile j sb s)
    (hne : j ≠ i) (hdev : (s.inode j).dev = (s.inode i).dev)
    (hdisjoint : ∀ z, s.Refers j z → ¬s.Refers i z) :
    ByteFile j sb s' ∧ s'.contents j = s.contents j ∧ ∀ z, s'.Refers j z → s.Refers j z := by
  have hsame := h.other j hne
  have hbytes := h.bytes
  have hzmap := h.zmap
  rw [← hdev] at hbytes hzmap
  have hblock : ∀ z, s.Refers j z →
      s'.bytes ⟨(s.inode j).dev, z⟩ = s.bytes ⟨(s.inode j).dev, z⟩ := by
    intro z hz
    by_contra hchanged
    rcases hbytes z hchanged with hown | hfree
    · exact hdisjoint z hz hown
    · rw [(hj.marked z hz).2] at hfree
      cases hfree
  have hslots : ∀ y ∈ zoneSlots, s'.zoneIn j y = s.zoneIn j y := by
    intro y hy
    apply zoneIn_of_inner hsame.zone hsame.dev _ hy
    rintro z ⟨hz, x, hx, -, hxz⟩
    exact hblock z ⟨hz, x, hx, hxz⟩
  have hzones : FileZones j sb s' := by
    refine hj.toFileZones.congr hslots hsame.dev h.super h.bad h.bcount ?_ fun z hz => ?_
    · by_contra hclear
      obtain ⟨y, hy, hbit⟩ := hzmap 0 hj.bit_zero (by simpa using hclear)
      have hlow := (hi.data y hy).1
      rw [SuperBlock.bit] at hbit
      omega
    · by_contra hclear
      obtain ⟨y, hy, hbit⟩ := hzmap _ (hj.marked z hz).2 (by simpa using hclear)
      rw [sb.bit_inj (hi.data y hy) (hj.data z hz) hbit] at hy
      exact hdisjoint z hz hy
  have hdata : SameData j s s' := by
    intro x hx
    rw [Fs.blockData, Fs.blockData, hslots x hx.1, hsame.dev]
    split_ifs with hzero
    · rfl
    · exact hblock _ ⟨hzero, x, hx.1, rfl⟩
  obtain ⟨hfile, hcontents⟩ := hj.congr hzones hsame hdata
  refine ⟨hfile, hcontents, ?_⟩
  rintro z ⟨hz, y, hy, hyz⟩
  exact ⟨hz, y, hy, by rw [← hslots y hy, hyz]⟩

/-! ### `file_write` -/

/-- The times and the offset that `file_write` stores when its loop is over. -/
def Fs.wroteTo (s : Fs) (i f pos : ℕ) (append : Bool) : Fs :=
  let s₁ := s.setInode i { s.inode i with mtime := s.time }
  if append then s₁
  else
    let s₂ := s₁.setFile f { s₁.file f with pos := pos }
    s₂.setInode i { s₂.inode i with ctime := s.time }

theorem wroteTo_sameBytes (s : Fs) (i f pos : ℕ) (append : Bool) :
    SameBytes s (s.wroteTo i f pos append) := by
  have h₁ := setInode_sameBytes (i := i) s (m := { s.inode i with mtime := s.time })
    ⟨rfl, rfl, rfl, rfl, rfl, rfl⟩
  unfold Fs.wroteTo
  dsimp only
  split_ifs
  · exact h₁
  · exact (h₁.trans (setPos_sameBytes _ f pos)).trans
      (setInode_sameBytes _ ⟨rfl, rfl, rfl, rfl, rfl, rfl⟩)

/-- The offsets after `file_write`. -/
theorem wroteTo_pos (s : Fs) (i f pos : ℕ) (append : Bool) (g : ℕ) :
    ((s.wroteTo i f pos append).file g).pos =
      if g = f ∧ append = false then pos else (s.file g).pos := by
  unfold Fs.wroteTo
  dsimp only
  cases append with
  | true => rw [if_pos rfl, if_neg (by simp)]; rfl
  | false =>
    rw [if_neg (by simp)]
    change (Function.update s.file f { s.file f with pos := pos } g).pos = _
    by_cases hg : g = f
    · rw [hg, Function.update_self, if_pos ⟨rfl, rfl⟩]
    · rw [Function.update_of_ne hg, if_neg fun h => hg h.1]

/-- `file_write` stores the first bytes of the buffer, and the others only if the device is full. It
returns their number, moves the offset unless it appends, and panics behind the end of the largest
file. -/
theorem fileWrite_stores (h : ByteFile i sb s) (f : ℕ) (buf : List ℕ) :
    (fileWrite i f buf).wp
      (fun r s' => ∃ k s₁, k ≤ buf.length ∧ (k < buf.length → Full (s'.inode i).dev sb s') ∧
        r = (if k = 0 then .error .EPERM else .ok k) ∧
        Wrote i sb (writeStart (s.file f) (s.inode i)) (buf.take k) s s₁ ∧
        s' = s₁.wroteTo i f (writeStart (s.file f) (s.inode i) + k)
          (hasFlag (s.file f).flags oAppend))
      (fun e _ => e = .bmapBlock ∧
        maxBytes < writeStart (s.file f) (s.inode i) + buf.length) s := by
  have hstart : (if hasFlag (s.file f).flags oAppend = true then (s.inode i).size
      else (s.file f).pos) = writeStart (s.file f) (s.inode i) := rfl
  rw [fileWrite, Prog.wp_bind, Prog.wp_read, Prog.wp_bind, Prog.wp_read]
  dsimp only
  rw [hstart]
  generalize writeStart (s.file f) (s.inode i) = start
  generalize hasFlag (s.file f).flags oAppend = append
  have hloop : (writeLoop i buf.length start buf).wp _ _ s :=
    writeLoop_stores h (Nat.le_refl buf.length)
  refine hloop.bind fun e s₁ he => ?_
  obtain ⟨hlow, hhigh, hwrote, hfull⟩ := he
  have hdone : ∃ k s₂, k ≤ buf.length ∧
      (k < buf.length → Full ((s₁.wroteTo i f e append).inode i).dev sb
        (s₁.wroteTo i f e append)) ∧
      (if e = start then Except.error Errno.EPERM else Except.ok (e - start)) =
        (if k = 0 then .error .EPERM else .ok k) ∧
      Wrote i sb start (buf.take k) s s₂ ∧
      s₁.wroteTo i f e append = s₂.wroteTo i f (start + k) append := by
    have hsame := wroteTo_sameBytes s₁ i f e append
    have hsum : start + (e - start) = e := by omega
    refine ⟨e - start, s₁, by omega, fun hlt z hz hbit => ?_, ?_, hwrote, by rw [hsum]⟩
    · rw [hsame.zmap, (hsame.inode i).dev]
      exact hfull (by omega) z hz hbit
    · by_cases heq : e = start
      · rw [if_pos heq, if_pos (by omega)]
      · rw [if_neg heq, if_neg (by omega)]
  rw [Prog.wp_bind, Prog.wp_read, modifyInode, Prog.wp_bind, Prog.wp_update, Prog.wp_bind,
    Prog.wp_when]
  cases append with
  | true => exact ⟨fun hfalse => absurd hfalse (by simp), fun _ => hdone⟩
  | false => exact ⟨fun _ => hdone, fun htrue => absurd rfl htrue⟩

/-! ### `truncate` -/

/-- The zones of a file: those of the direct entries, and those of the two indirect ones. -/
theorem zonesFrom_split (s : Fs) (i : ℕ) :
    s.zonesFrom i 9 0 = s.zonesFrom i 7 0 ++
      (IndexTree.nodes (s.entry (s.inode i).dev) 512 1 ((s.inode i).zone 7) ++
        IndexTree.nodes (s.entry (s.inode i).dev) 512 2 ((s.inode i).zone 8)) := by
  have hrange : List.range' 0 9 = List.range' 0 7 ++ [7, 8] := rfl
  rw [Fs.zonesFrom, hrange, List.flatMap_append, List.flatMap_cons, List.flatMap_cons,
    List.flatMap_nil, List.append_nil, Fs.zonesFrom]

/-- `truncate` of a regular file frees its zones, clears the entries of `i_zone` and the size, and
leaves all other inodes alone. -/
theorem truncate_run (h : ByteFile i sb s) :
    ∃ s' m, truncate i s = .ok ((), s') ∧ s'.inode = Function.update s.inode i m ∧
      Freed (s.inode i).dev sb (s.zonesFrom i 9 0) s s' ∧ (∀ n < 9, m.zone n = 0) ∧ m.size = 0 ∧
      m.dev = (s.inode i).dev ∧ m.mode = (s.inode i).mode ∧ m.pipe = (s.inode i).pipe := by
  have hdev : ReadableDevice (s.inode i).dev sb s := ⟨h.super, h.bad⟩
  have hnodup := zonesFrom_nodup h.distinct
  have hready : ∀ z ∈ s.zonesFrom i 9 0, Freeable (s.inode i).dev sb s z := fun z hz => by
    have hrefers := mem_zonesFrom.mp hz
    exact ⟨h.data z hrefers, h.marked z hrefers, h.quiet z (h.data z hrefers)⟩
  rw [zonesFrom_split] at hnodup hready ⊢
  obtain ⟨hdirect, hindirect, hdis⟩ := List.nodup_append'.mp hnodup
  -- the direct zones
  obtain ⟨s₁, hrun₁, hinode₁, hfreed₁⟩ := freeDirect_run 7 0 (by omega) hdev rfl hdirect
    fun z hz => hready z (List.mem_append_left _ hz)
  have hself₁ : s₁.inode i = (s.inode i).clearZones 7 0 := by
    rw [hinode₁, Function.update_self]
  -- the indirect zones
  have hsame (d l : ℕ) (hl : ∀ w ∈ IndexTree.nodes (s.entry (s.inode i).dev) 512 d
      ((s.inode i).zone l), w ∉ s.zonesFrom i 7 0) :
      IndexTree.nodes (s₁.entry (s.inode i).dev) 512 d ((s.inode i).zone l) =
        IndexTree.nodes (s.entry (s.inode i).dev) 512 d ((s.inode i).zone l) := hfreed₁.nodes hl
  have hrest := freeIndirect_frees (hdev.freed hfreed₁) ((s.inode i).zone 7) ((s.inode i).zone 8)
  rw [hsame 1 7 fun w hw hw' => hdis hw' (List.mem_append_left _ hw),
    hsame 2 8 fun w hw hw' => hdis hw' (List.mem_append_right _ hw)] at hrest
  obtain ⟨s₂, hrun₂, hinode₂, hfreed₂⟩ := hrest hindirect fun z hz =>
    hfreed₁.freeable (fun y hy => (hready y (List.mem_append_left _ hy)).data)
      (fun hmem => hdis hmem hz) (hready z (List.mem_append_right _ hz))
  have hself₂ : s₂.inode i = (s.inode i).clearZones 7 0 := by rw [hinode₂, hself₁]
  generalize hm : ({ s₂.inode i with
    zone := Function.update (Function.update (s₂.inode i).zone 7 0) 8 0
    size := 0
    dirt := true
    mtime := s₂.time
    ctime := s₂.time } : MInode) = m
  have hrun : truncate i s = .ok ((), s₂.setInode i m) := by
    have hind : (do freeInd (s₁.inode i).dev ((s₁.inode i).zone 7)
                    freeDind (s₁.inode i).dev ((s₁.inode i).zone 8) : K Unit) s₁ =
        .ok ((), s₂) := by
      rw [hself₁]
      exact hrun₂
    rw [truncate, Prog.read_run, h.mode, Bool.true_or, if_pos rfl, Prog.bind_run hrun₁,
      Prog.read_run, ← hm]
    exact Prog.bind_bind_run hind
  have hclear : ∀ n < 9, m.zone n = 0 := by
    intro n hn
    rw [← hm]
    change Function.update (Function.update (s₂.inode i).zone 7 0) 8 0 n = 0
    by_cases h8 : n = 8
    · rw [h8, Function.update_self]
    · rw [Function.update_of_ne h8]
      by_cases h7 : n = 7
      · rw [h7, Function.update_self]
      · rw [Function.update_of_ne h7, hself₂]
        exact if_pos (by omega)
  refine ⟨_, m, hrun, ?_, (hfreed₁.trans hfreed₂).setInode i m, hclear, ?_, ?_, ?_, ?_⟩
  · change Function.update s₂.inode i m = _
    rw [hinode₂, hinode₁, Function.update_idem]
  · rw [← hm]
  · rw [← hm]
    change (s₂.inode i).dev = _
    rw [hself₂]
    rfl
  · rw [← hm]
    change (s₂.inode i).mode = _
    rw [hself₂]
    rfl
  · rw [← hm]
    change (s₂.inode i).pipe = _
    rw [hself₂]
    rfl

/-- After `truncate` a file has no bytes. -/
theorem truncate_empties (h : ByteFile i sb s) :
    ∃ s', truncate i s = .ok ((), s') ∧ ByteFile i sb s' ∧ s'.contents i = [] ∧
      Touches i sb s s' ∧ s'.file = s.file := by
  obtain ⟨s', m, hrun, hinode, hfreed, hzone, hsize, hdev, hmode, hpipe⟩ := truncate_run h
  have htables : SameTables s s' := Stays.of_ok sameTables_frame (truncate_stays i) hrun
  have hself : s'.inode i = m := by rw [hinode, Function.update_self]
  have hempty : ∀ y ∈ zoneSlots, s'.zoneIn i y = 0 := by
    rintro ⟨n, p⟩ hy
    change IndexTree.follow _ ((s'.inode i).zone n) p = 0
    rw [hself, hzone n hy.1, follow_zero]
  have hrefers : ∀ z, ¬s'.Refers i z := by
    rintro z ⟨hz, y, hy, hyz⟩
    exact hz (by rw [← hyz, hempty y hy])
  have hbytes : ∀ n, n < maxBytes → s'.byteAt i n = 0 := by
    intro n hn
    rw [Fs.byteAt, Fs.blockData, if_pos (hempty _ (path_mem (block_lt hn)))]
  have hmaps : ∀ k, (∀ z, s.Refers i z → sb.bit z ≠ k) →
      s'.zmap (s.inode i).dev k = s.zmap (s.inode i).dev k := by
    intro k hk
    exact hfreed.kept _ k fun _ z hz => hk z (mem_zonesFrom.mp hz)
  refine ⟨s', hrun, ⟨⟨⟨?_, h.nzones, ?_, ?_, ?_, ?_⟩, h.first, ?_, ?_⟩, ?_, ?_, ?_, ?_, ?_⟩, ?_,
    ?_, htables.file⟩
  · rw [hself, hdev, hfreed.super]
    exact h.super
  · rw [hself, hdev, hmaps 0 fun z hz hbit => ?_]
    · exact h.bit_zero
    · have hlow := (h.data z hz).1
      rw [SuperBlock.bit] at hbit
      omega
  · rw [hfreed.bad]
    exact h.bad
  · intro x hx y hy hne
    exact absurd (hempty x hx) hne
  · intro z hz
    exact absurd hz (hrefers z)
  · intro z hz
    rw [hself, hdev, hfreed.bcount]
    exact h.quiet z hz
  · intro z hz
    exact absurd hz (hrefers z)
  · rw [hself, hmode]
    exact h.mode
  · rw [hself, hpipe]
    exact h.pipe
  · rw [hself, hdev]
    exact h.seekable
  · rw [hself, hsize]
    exact Nat.zero_le _
  · intro n _ hn
    exact hbytes n hn
  · rw [Fs.contents, hself, hsize]
    rfl
  · refine ⟨fun f => by rw [htables.file]; exact ⟨rfl, rfl⟩, htables.task, htables.current,
      htables.super, hfreed.bad, hfreed.bcount, fun j hj => ?_, by rw [hself, hdev],
      fun z hne => ?_, fun k hset hclear => ?_, fun z hz => absurd hz (hrefers z)⟩
    · rw [hinode, Function.update_of_ne hj]
      exact .refl _
    · left
      by_contra hnot
      exact hne (hfreed.bytes _ fun hmem => hnot (mem_zonesFrom.mp hmem))
    · by_contra hnone
      push Not at hnone
      rw [hmaps k hnone, hset] at hclear
      cases hclear

end LihaLinux.Files
