import LihaLinux.Boot.Image
import LihaLinux.Lib.Regions
import LihaLinux.Lib.Transition

/-!
# The loader of the boot sector

`read_it` of `boot/bootsect.s` reads the system from a floppy to address 0x10000. It reads as
many sectors as it can with one call of the BIOS, but a call cannot go beyond the end of a track,
nor beyond the end of a block of 64 kB in memory. A call that fails is made again.
-/

namespace LihaLinux.Boot

/-- `SYSSIZE`, in clicks of 16 bytes. -/
def loadSize : ℕ := 0x3000

/-- `SETUPLEN`. -/
def setupLen : ℕ := 4

/-- `SYSSEG`. -/
def sysSeg : ℕ := 0x1000

/-- `ENDSEG`. -/
def endSeg : ℕ := sysSeg + loadSize

/-- Physical memory. -/
abbrev Memory := ℕ → Byte

/-- A floppy disk with two heads: the sectors of a track, and all bytes in the order of the
sectors. -/
structure Floppy where
  sectors : ℕ
  byte : ℕ → Byte

/-- A call of `int 0x13` that reads sectors: `ch`, `dh`, `cl`, `al` and `es:bx`. -/
structure ReadCall where
  track : ℕ
  head : ℕ
  sector : ℕ
  count : ℕ
  seg : ℕ
  off : ℕ
  deriving DecidableEq

namespace ReadCall

/-- The address of the buffer. -/
def buffer (c : ReadCall) : ℕ := c.seg * 16 + c.off

/-- The bytes that are read. -/
def bytes (c : ReadCall) : ℕ := 512 * c.count

/-- The number of the first sector, in the order of the disk. -/
def first (c : ReadCall) (sectors : ℕ) : ℕ := (c.track * 2 + c.head) * sectors + (c.sector - 1)

/-- What the BIOS can do in one call: some sectors of one track, to one block of 64 kB. -/
def Fits (c : ReadCall) (sectors : ℕ) : Prop :=
  0 < c.count ∧ c.head ≤ 1 ∧ 1 ≤ c.sector ∧ c.sector - 1 + c.count ≤ sectors ∧
    c.off + c.bytes ≤ 0x10000 ∧ c.buffer % 0x10000 + c.bytes ≤ 0x10000

instance (c : ReadCall) (sectors : ℕ) : Decidable (c.Fits sectors) :=
  inferInstanceAs (Decidable (_ ∧ _ ∧ _ ∧ _ ∧ _ ∧ _))

end ReadCall

/-- How a call of the BIOS ends. After an error anything may be in the buffer. -/
inductive Attempt
  | done
  | error (junk : ℕ → Byte)

/-- The attempt succeeds. -/
def Attempt.isDone : Attempt → Bool
  | .done => true
  | .error _ => false

/-- `int 0x13`: the carry flag is clear, and memory. -/
def readSectors (d : Floppy) (c : ReadCall) (m : Memory) : Attempt → Bool × Memory
  | .done =>
    if c.Fits d.sectors then
      (true, patch m c.buffer c.bytes fun i => d.byte (512 * c.first d.sectors + i))
    else (false, m)
  | .error junk => (false, patch m c.buffer c.bytes junk)

/-- The registers and variables of `read_it` at `rp_read`, and memory. -/
structure Loader where
  es : ℕ
  bx : ℕ
  sread : ℕ
  head : ℕ
  track : ℕ
  memory : Memory

namespace Loader

/-- `read_it` starts. -/
def start (m : Memory) : Loader :=
  { es := sysSeg, bx := 0, sread := 1 + setupLen, head := 0, track := 0, memory := m }

/-- `ax` at `ok2_read`: the sectors to read. -/
def count (sectors : ℕ) (s : Loader) : ℕ :=
  let ax := (sectors + 65536 - s.sread) % 65536
  let cx := ax * 512 % 65536 + s.bx
  if 65536 ≤ cx ∧ cx % 65536 ≠ 0 then (65536 - s.bx) % 65536 / 512 else ax

/-- The call of `read_track`. The upper bits of `cl` belong to the track. -/
def call (sectors : ℕ) (s : Loader) : ReadCall :=
  let cl := (s.sread + 1) % 256
  { track := s.track % 256 + cl / 64 * 256, head := s.head % 2, sector := cl % 64,
    count := s.count sectors % 256, seg := s.es, off := s.bx }

/-- The next place on the disk: `sread`, `head` and `track` at `ok3_read`. -/
def nextPlace (sectors : ℕ) (s : Loader) : Loader :=
  let ax := (s.count sectors + s.sread) % 65536
  if ax = sectors then
    let head := (1 + 65536 - s.head) % 65536
    { s with
      sread := 0
      head
      track := if head = 0 then (s.track + 1) % 65536 else s.track }
  else { s with sread := ax }

/-- The next place in memory: `es` and `bx` back at `rp_read`. -/
def nextBuffer (sectors : ℕ) (s : Loader) : Loader :=
  let bx := s.count sectors * 512 % 65536 + s.bx
  if 65536 ≤ bx then { s with es := (s.es + 0x1000) % 65536, bx := 0 } else { s with bx }

/-- The loader after one attempt to read. There is none after `read_it` has returned. -/
def next (d : Floppy) (s : Loader) (a : Attempt) : Option Loader :=
  if endSeg ≤ s.es then none
  else
    match readSectors d (s.call d.sectors) s.memory a with
    | (true, m) =>
      some { s.nextPlace d.sectors with
        es := (s.nextBuffer d.sectors).es
        bx := (s.nextBuffer d.sectors).bx
        memory := m }
    | (false, m) => some { s with memory := m }

/-- `read_it` has returned. -/
def Done (s : Loader) : Prop := endSeg ≤ s.es

instance (s : Loader) : Decidable s.Done := inferInstanceAs (Decidable (_ ≤ _))

/-- `read_it`: the state in which it returns. -/
def readIt (d : Floppy) (s : Loader) : List Attempt → Option Loader
  | [] => if s.Done then some s else none
  | a :: as => if s.Done then some s else (s.next d a).bind fun s => readIt d s as

end Loader

/-- The sectors of a track that the boot sector can deal with: `setup` has to fit on the first
track, and the BIOS counts sectors with six bits. -/
structure Floppy.Usable (d : Floppy) : Prop where
  setup_lt : 1 + setupLen < d.sectors
  le : d.sectors ≤ 63

/-! ### One attempt -/

/-- After `n` sectors of the system: `j` sectors of the `k`th block of 64 kB. -/
structure Loading (d : Floppy) (m₀ : Memory) (k j : ℕ) (s : Loader) : Prop where
  es_eq : s.es = 0x1000 * (k + 1)
  bx_eq : s.bx = 512 * j
  blocks : k < 3 ∧ j < 128 ∨ k = 3 ∧ j = 0
  place : (s.track * 2 + s.head) * d.sectors + s.sread = 5 + (128 * k + j)
  sread_lt : s.sread < d.sectors
  head_le : s.head ≤ 1
  memory_eq : ∀ i < 512 * (128 * k + j), s.memory (0x10000 + i) = d.byte (2560 + i)
  outside : ∀ a, a < 0x10000 ∨ 0x40000 ≤ a → s.memory a = m₀ a

namespace Loading

variable {d : Floppy} {m₀ : Memory} {k j : ℕ} {s : Loader}

/-- The start of `read_it`. -/
theorem start (hd : d.Usable) : Loading d m₀ 0 0 (Loader.start m₀) where
  es_eq := rfl
  bx_eq := rfl
  blocks := .inl ⟨by omega, by omega⟩
  place := by simp [Loader.start, setupLen]
  sread_lt := hd.setup_lt
  head_le := Nat.zero_le 1
  memory_eq := fun i hi => absurd hi (Nat.not_lt_zero i)
  outside := fun _ _ => rfl

/-- `read_it` returns when three blocks of 64 kB have been read. -/
theorem done_iff (h : Loading d m₀ k j s) : s.Done ↔ k = 3 := by
  have hes := h.es_eq
  have hblocks := h.blocks
  unfold Loader.Done endSeg sysSeg loadSize
  omega

/-- The rest of the track, or the rest of the block of 64 kB, is read. -/
theorem count_eq (h : Loading d m₀ k j s) (hd : d.Usable) (hk : k < 3) :
    s.count d.sectors = min (d.sectors - s.sread) (128 - j) := by
  have hsread := h.sread_lt
  have hle := hd.le
  have hj : j < 128 := by
    have hblocks := h.blocks
    omega
  have hax : (d.sectors + 65536 - s.sread) % 65536 = d.sectors - s.sread := by omega
  have hcx : (d.sectors - s.sread) * 512 % 65536 = (d.sectors - s.sread) * 512 := by omega
  unfold Loader.count
  simp only [hax, hcx, h.bx_eq]
  split_ifs with hover
  · omega
  · omega

/-- No more than 32 tracks are needed. -/
theorem track_lt (h : Loading d m₀ k j s) (hd : d.Usable) : s.track < 64 := by
  have hplace := h.place
  have hblocks := h.blocks
  have hsectors : 6 ≤ d.sectors := hd.setup_lt
  have hmul : s.track * 2 * 6 ≤ (s.track * 2 + s.head) * d.sectors :=
    Nat.mul_le_mul (Nat.le_add_right _ _) hsectors
  omega

/-- The call of the BIOS. -/
theorem call_eq (h : Loading d m₀ k j s) (hd : d.Usable) (hk : k < 3) :
    s.call d.sectors =
      { track := s.track, head := s.head, sector := s.sread + 1,
        count := min (d.sectors - s.sread) (128 - j), seg := s.es, off := s.bx } := by
  have hsread := h.sread_lt
  have hle := hd.le
  have htrack := h.track_lt hd
  have hhead := h.head_le
  unfold Loader.call
  rw [h.count_eq hd hk]
  simp only [ReadCall.mk.injEq, and_true]
  omega

/-- The BIOS can do what it is asked to. -/
theorem fits (h : Loading d m₀ k j s) (hd : d.Usable) (hk : k < 3) :
    (s.call d.sectors).Fits d.sectors := by
  have hsread := h.sread_lt
  have hes := h.es_eq
  have hbx := h.bx_eq
  have hblocks := h.blocks
  rw [h.call_eq hd hk]
  unfold ReadCall.Fits ReadCall.buffer ReadCall.bytes
  refine ⟨?_, h.head_le, ?_, ?_, ?_, ?_⟩
  all_goals
    simp only
    omega

/-- The next place on the disk. -/
theorem nextPlace_spec (h : Loading d m₀ k j s) (hd : d.Usable) (hk : k < 3) {c : ℕ}
    (hc : c = min (d.sectors - s.sread) (128 - j)) :
    ((s.nextPlace d.sectors).track * 2 + (s.nextPlace d.sectors).head) * d.sectors +
        (s.nextPlace d.sectors).sread = 5 + (128 * k + j) + c ∧
      (s.nextPlace d.sectors).sread < d.sectors ∧ (s.nextPlace d.sectors).head ≤ 1 := by
  have hsread := h.sread_lt
  have hle := hd.le
  have hplace := h.place
  have htrack := h.track_lt hd
  have hsum : (c + s.sread) % 65536 = c + s.sread := by omega
  unfold Loader.nextPlace
  rw [h.count_eq hd hk, ← hc]
  simp only [hsum]
  split_ifs with hend hhead
  · -- the second head, and the next track
    have hone : s.head = 1 := by
      have hhead := h.head_le
      omega
    have hindex : (s.track + 1) % 65536 * 2 + (1 + 65536 - s.head) % 65536 =
        s.track * 2 + s.head + 1 := by omega
    refine ⟨?_, Nat.zero_lt_of_lt hsread, Nat.le_trans (Nat.le_of_eq hhead) (Nat.zero_le 1)⟩
    change (_ * 2 + _) * d.sectors + 0 = _
    rw [hindex, Nat.succ_mul]
    omega
  · -- the second head of the track
    have hzero : s.head = 0 := by
      have hle := h.head_le
      omega
    have hindex : s.track * 2 + (1 + 65536 - s.head) % 65536 = s.track * 2 + s.head + 1 := by
      omega
    refine ⟨?_, Nat.zero_lt_of_lt hsread, by simp only; omega⟩
    change (_ * 2 + _) * d.sectors + 0 = _
    rw [hindex, Nat.succ_mul]
    omega
  · refine ⟨?_, ?_, h.head_le⟩
    all_goals
      simp only
      omega

/-- The next place in memory. -/
theorem nextBuffer_spec (h : Loading d m₀ k j s) (hd : d.Usable) (hk : k < 3) {c : ℕ}
    (hc : c = min (d.sectors - s.sread) (128 - j)) :
    (s.nextBuffer d.sectors).es = 0x1000 * ((128 * k + j + c) / 128 + 1) ∧
      (s.nextBuffer d.sectors).bx = 512 * ((128 * k + j + c) % 128) := by
  have hes := h.es_eq
  have hbx := h.bx_eq
  have hblocks := h.blocks
  have hc_le : c ≤ 63 ∧ c ≤ 128 - j := by
    have hle := hd.le
    omega
  have hshift : c * 512 % 65536 = c * 512 := by omega
  unfold Loader.nextBuffer
  rw [h.count_eq hd hk, ← hc, hshift]
  simp only
  clear hc
  split_ifs with hfull
  · have hdone : (128 * k + j + c) / 128 = k + 1 ∧ (128 * k + j + c) % 128 = 0 := by omega
    rw [hdone.1, hdone.2]
    constructor
    · change (s.es + 0x1000) % 65536 = _
      omega
    · rfl
  · have hmore : (128 * k + j + c) / 128 = k ∧ (128 * k + j + c) % 128 = j + c := by omega
    rw [hmore.1, hmore.2]
    constructor
    · exact hes
    · simp only
      omega

/-- The place of the buffer. -/
theorem buffer_eq (h : Loading d m₀ k j s) (hd : d.Usable) (hk : k < 3) :
    (s.call d.sectors).buffer = 0x10000 + 512 * (128 * k + j) := by
  have hes := h.es_eq
  have hbx := h.bx_eq
  rw [h.call_eq hd hk]
  change s.es * 16 + s.bx = _
  omega

/-- The size of the buffer. -/
theorem bytes_eq (h : Loading d m₀ k j s) (hd : d.Usable) (hk : k < 3) :
    (s.call d.sectors).bytes = 512 * min (d.sectors - s.sread) (128 - j) := by
  rw [h.call_eq hd hk]
  rfl

/-- The buffer lies in the memory for the system. -/
theorem buffer_le (h : Loading d m₀ k j s) (hd : d.Usable) (hk : k < 3) :
    (s.call d.sectors).buffer + (s.call d.sectors).bytes ≤ 0x40000 := by
  have hblocks := h.blocks
  rw [h.buffer_eq hd hk, h.bytes_eq hd hk]
  omega

/-- An attempt that fails changes nothing but the buffer. -/
theorem error (h : Loading d m₀ k j s) (hd : d.Usable) (hk : k < 3) {m : Memory} {junk : ℕ → Byte}
    (hm : m = patch s.memory (s.call d.sectors).buffer (s.call d.sectors).bytes junk) :
    Loading d m₀ k j { s with memory := m } := by
  have hbuffer := h.buffer_eq hd hk
  have hend := h.buffer_le hd hk
  refine ⟨h.es_eq, h.bx_eq, h.blocks, h.place, h.sread_lt, h.head_le, ?_, ?_⟩
  · intro i hi
    rw [hm]
    change patch _ _ _ _ _ = _
    rw [patch_before (by omega), h.memory_eq i hi]
  · intro a ha
    rw [hm]
    change patch _ _ _ _ _ = _
    rw [patch_outside (by omega) hend ha, h.outside a ha]

/-- An attempt that succeeds reads the next sectors of the disk. -/
theorem success (h : Loading d m₀ k j s) (hd : d.Usable) (hk : k < 3) {c : ℕ}
    (hc : c = min (d.sectors - s.sread) (128 - j)) {m : Memory}
    (hm : m = patch s.memory (s.call d.sectors).buffer (s.call d.sectors).bytes fun i =>
      d.byte (512 * (s.call d.sectors).first d.sectors + i)) :
    Loading d m₀ ((128 * k + j + c) / 128) ((128 * k + j + c) % 128)
      { s.nextPlace d.sectors with
        es := (s.nextBuffer d.sectors).es
        bx := (s.nextBuffer d.sectors).bx
        memory := m } := by
  have hblocks := h.blocks
  have hbuffer := h.buffer_eq hd hk
  have hend := h.buffer_le hd hk
  obtain ⟨hdisk, hnext, hhead⟩ := h.nextPlace_spec hd hk hc
  obtain ⟨hes', hbx'⟩ := h.nextBuffer_spec hd hk hc
  have hbytes : (s.call d.sectors).bytes = 512 * c := by rw [h.bytes_eq hd hk, hc]
  have hfirst : (s.call d.sectors).first d.sectors = 5 + (128 * k + j) := by
    rw [h.call_eq hd hk]
    exact h.place
  have hfits : j + c ≤ 128 := by omega
  clear hc
  have hsplit : 128 * ((128 * k + j + c) / 128) + (128 * k + j + c) % 128 = 128 * k + j + c :=
    Nat.div_add_mod _ _
  refine ⟨hes', hbx', ?_, ?_, hnext, hhead, ?_, ?_⟩
  · omega
  · rw [hsplit]
    exact hdisk.trans (Nat.add_assoc _ _ _)
  · rw [hsplit]
    intro i hi
    change m _ = _
    rw [hm, hbytes, hbuffer, hfirst]
    rcases Nat.lt_or_ge i (512 * (128 * k + j)) with hold | hnew
    · rw [patch_before (by omega), h.memory_eq i hold]
    · obtain ⟨i', rfl⟩ := Nat.exists_eq_add_of_le hnew
      have haddr : 2560 + (512 * (128 * k + j) + i') = 512 * (5 + (128 * k + j)) + i' := by omega
      have hplace : 0x10000 + (512 * (128 * k + j) + i') = 0x10000 + 512 * (128 * k + j) + i' := by
        omega
      rw [hplace, patch_add (by omega), haddr]
  · intro a ha
    change m a = _
    rw [hm, patch_outside (by omega) hend ha, h.outside a ha]

/-- One attempt: it reads some sectors, or it leaves what has been read. -/
theorem next (h : Loading d m₀ k j s) (hd : d.Usable) {a : Attempt} {s' : Loader}
    (hs : s.next d a = some s') :
    ∃ k' j', Loading d m₀ k' j' s' ∧
      128 * k + j + (if a.isDone then 1 else 0) ≤ 128 * k' + j' := by
  have hk : k < 3 := by
    have hblocks := h.blocks
    have hrun : ¬s.Done := by
      intro hdone
      rw [Loader.next, if_pos (show endSeg ≤ s.es from hdone)] at hs
      cases hs
    rw [h.done_iff] at hrun
    omega
  have hrun : ¬endSeg ≤ s.es := fun hdone => Nat.ne_of_lt hk (h.done_iff.mp hdone)
  rw [Loader.next, if_neg hrun] at hs
  cases a with
  | done =>
    simp only [readSectors, if_pos (h.fits hd hk), Option.some.injEq] at hs
    subst hs
    refine ⟨_, _, h.success hd hk rfl rfl, ?_⟩
    have hsread := h.sread_lt
    have hblocks := h.blocks
    have hsplit := Nat.div_add_mod (128 * k + j + min (d.sectors - s.sread) (128 - j)) 128
    rw [hsplit, Attempt.isDone, if_pos rfl]
    omega
  | error junk =>
    simp only [readSectors, Option.some.injEq] at hs
    subst hs
    exact ⟨k, j, h.error hd hk rfl, by simp [Attempt.isDone]⟩

/-- The attempts of a run. -/
theorem run (h : Loading d m₀ k j s) (hd : d.Usable) {as : List Attempt} {s' : Loader}
    (hs : runEvents (Loader.next d) s as = some s') :
    ∃ k' j', Loading d m₀ k' j' s' ∧ 128 * k + j + as.countP Attempt.isDone ≤ 128 * k' + j' := by
  induction as generalizing s k j with
  | nil =>
    rw [runEvents, Option.some.injEq] at hs
    subst hs
    exact ⟨k, j, h, Nat.le_refl _⟩
  | cons a as ih =>
    rw [runEvents, Option.bind_eq_some_iff] at hs
    obtain ⟨s₁, hfirst, hrest⟩ := hs
    obtain ⟨k₁, j₁, h₁, hle₁⟩ := h.next hd hfirst
    obtain ⟨k', j', h', hle'⟩ := ih h₁ hrest
    refine ⟨k', j', h', ?_⟩
    rw [List.countP_cons]
    omega

/-- As long as `read_it` has not returned, it makes another attempt. -/
theorem next_isSome (hrun : ¬s.Done) (a : Attempt) : (s.next d a).isSome := by
  rw [Loader.next, if_neg (show ¬endSeg ≤ s.es from hrun)]
  split <;> rfl

end Loading

/-! ### Whole runs -/

/-- A disk of 1.44 MB. -/
def blankFloppy : Floppy := ⟨18, fun _ => 0⟩

/-- The disk can be used. -/
theorem blankFloppy_usable : blankFloppy.Usable := ⟨by decide, by decide⟩

/-- `read_it` returns at the end of a run. -/
theorem Loader.readIt_run {d : Floppy} {as : List Attempt} {s s' : Loader}
    (h : s.readIt d as = some s') :
    s'.Done ∧ ∃ bs, bs <+: as ∧ runEvents (Loader.next d) s bs = some s' := by
  induction as generalizing s with
  | nil =>
    rw [readIt] at h
    split_ifs at h with hdone
    rw [Option.some.injEq] at h
    subst h
    exact ⟨hdone, [], List.nil_prefix, rfl⟩
  | cons a as ih =>
    rw [readIt] at h
    split_ifs at h with hdone
    · rw [Option.some.injEq] at h
      subst h
      exact ⟨hdone, [], List.nil_prefix, rfl⟩
    · obtain ⟨s₁, hs₁, hrest⟩ := Option.bind_eq_some_iff.mp h
      obtain ⟨hend, bs, hbs, hrun⟩ := ih hrest
      refine ⟨hend, a :: bs, List.cons_prefix_cons.mpr ⟨rfl, hbs⟩, ?_⟩
      rw [runEvents, hs₁]
      exact hrun

/-- With enough successful attempts `read_it` returns. -/
theorem Loading.readIt_isSome {d : Floppy} (hd : d.Usable) {m₀ : Memory} {as : List Attempt}
    {k j : ℕ} {s : Loader} (h : Loading d m₀ k j s)
    (has : 384 ≤ 128 * k + j + as.countP Attempt.isDone) : (s.readIt d as).isSome := by
  induction as generalizing s k j with
  | nil =>
    have hblocks := h.blocks
    rw [List.countP_nil] at has
    rw [Loader.readIt, if_pos (h.done_iff.mpr (by omega))]
    rfl
  | cons a as ih =>
    rw [Loader.readIt]
    split_ifs with hdone
    · rfl
    · obtain ⟨s₁, hs₁⟩ := Option.isSome_iff_exists.mp (Loading.next_isSome (d := d) hdone a)
      obtain ⟨k₁, j₁, h₁, hle⟩ := h.next hd hs₁
      rw [List.countP_cons] at has
      rw [hs₁]
      exact ih h₁ (by omega)

/-- Memory when `read_it` has returned. -/
theorem Loader.readIt_memory {d : Floppy} (hd : d.Usable) {m₀ : Memory} {as : List Attempt}
    {s : Loader} (hs : (Loader.start m₀).readIt d as = some s) :
    (∀ i < 0x30000, s.memory (0x10000 + i) = d.byte (2560 + i)) ∧
      ∀ a, a < 0x10000 ∨ 0x40000 ≤ a → s.memory a = m₀ a := by
  obtain ⟨hdone, bs, -, hrun⟩ := Loader.readIt_run hs
  obtain ⟨k, j, h, -⟩ := (Loading.start hd).run hd hrun
  have hblocks := h.blocks
  rw [h.done_iff] at hdone
  exact ⟨fun i hi => h.memory_eq i (by omega), h.outside⟩

/-- If 384 attempts succeed, `read_it` returns with the whole system in memory, whatever other
attempts fail. -/
theorem readIt_returns {d : Floppy} (hd : d.Usable) (m₀ : Memory) {as : List Attempt}
    (has : 384 ≤ as.countP Attempt.isDone) :
    ∃ s, (Loader.start m₀).readIt d as = some s ∧
      (∀ i < 0x30000, s.memory (0x10000 + i) = d.byte (2560 + i)) ∧
      ∀ a, a < 0x10000 ∨ 0x40000 ≤ a → s.memory a = m₀ a := by
  have hcount : 384 ≤ 128 * 0 + 0 + as.countP Attempt.isDone := by omega
  obtain ⟨s, hs⟩ := Option.isSome_iff_exists.mp ((Loading.start hd).readIt_isSome hd hcount)
  exact ⟨s, hs, Loader.readIt_memory hd hs⟩

/-- A disk without errors. -/
theorem readIt_returns_blank :
    ∃ s, (Loader.start fun _ => 1).readIt blankFloppy (List.replicate 384 .done) = some s ∧
      (∀ i < 0x30000, s.memory (0x10000 + i) = blankFloppy.byte (2560 + i)) ∧
      ∀ a, a < 0x10000 ∨ 0x40000 ≤ a → s.memory a = 1 :=
  readIt_returns blankFloppy_usable (fun _ => 1)
    (by rw [List.countP_replicate]; exact Nat.le_refl 384)

end LihaLinux.Boot
