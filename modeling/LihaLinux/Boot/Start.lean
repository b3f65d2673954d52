import LihaLinux.Boot.Loader
import Mathlib.Data.List.GetD

/-!
# From the disk to address 0

The boot sector is loaded at 0x7c00 and moves itself to 0x90000. It loads `setup` behind itself and
the system at 0x10000, and finds out the root device. `setup` stores what it asks the BIOS in the
place of the boot sector, and moves the system to address 0.
-/

namespace LihaLinux.Boot

/-- `BOOTSEG`. -/
def bootSeg : ℕ := 0x07c0

/-- `INITSEG`. -/
def initSeg : ℕ := 0x9000

/-- `movw`: one word. -/
def movw (dst src : ℕ) (m : Memory) : Memory := patch m dst 2 fun i => m (src + i)

/-- `rep ; movw` upwards: `cx` words from `ds:si` to `es:di`. -/
def repMovw (ds es : ℕ) : ℕ → ℕ → ℕ → Memory → Memory
  | 0, _, _, m => m
  | cx + 1, si, di, m =>
    repMovw ds es cx ((si + 2) % 65536) ((di + 2) % 65536) (movw (es * 16 + di) (ds * 16 + si) m)

/-- A word of memory. -/
def word (m : Memory) (a : ℕ) : BitVec 16 := m (a + 1) ++ m a

/-- Store a word. -/
def storeWord (a : ℕ) (w : BitVec 16) (m : Memory) : Memory :=
  patch m a 2 fun i => if i = 0 then w.setWidth 8 else (w >>> 8).setWidth 8

/-- The call of the BIOS at `load_setup`. -/
def setupCall : ReadCall :=
  { track := 0, head := 0, sector := 2, count := setupLen, seg := initSeg, off := 0x0200 }

/-- The loop at `load_setup`. -/
def loadSetup (d : Floppy) (m : Memory) : List Attempt → Option Memory
  | [] => none
  | a :: as =>
    match readSectors d setupCall m a with
    | (true, m) => some m
    | (false, m) => loadSetup d m as

/-- The address of `root_dev`. -/
def rootDev : ℕ := 0x901fc

/-- The root device: the one that has been stored, or a floppy of the type that is used. At
`undef_root` the machine stops. -/
def rootDevice (sectors : ℕ) (dev : BitVec 16) : Option (BitVec 16) :=
  if dev ≠ 0 then some dev
  else if sectors = 15 then some 0x0208
  else if sectors = 18 then some 0x021c
  else none

/-- The stores of `setup` at `INITSEG`. The values come from the BIOS. -/
def storeInfo (info : ℕ → Byte) (m : Memory) : Memory :=
  patch (patch m 0x90000 14 info) 0x90080 32 fun i => info (0x80 + i)

/-- The loop at `do_move`, with `ax`, for a number of rounds. -/
def doMove : ℕ → ℕ → Memory → Option Memory
  | 0, _, _ => none
  | n + 1, ax, m =>
    let es := ax
    let ax := (ax + 0x1000) % 65536
    if ax = 0x9000 then some m else doMove n ax (repMovw ax es 0x8000 0 0 m)

/-- From the start of the boot sector to the end of `setup`, with the attempts to read `setup` and
the system. -/
def bootUp (d : Floppy) (setupReads systemReads : List Attempt) (info : ℕ → Byte) (m : Memory) :
    Option Memory :=
  let m := patch m 0x7c00 512 d.byte
  let m := repMovw bootSeg initSeg 256 0 0 m
  (loadSetup d m setupReads).bind fun m =>
  ((Loader.start m).readIt d systemReads).bind fun s =>
  (rootDevice d.sectors (word s.memory rootDev)).bind fun dev =>
  doMove 9 0 (storeInfo info (storeWord rootDev dev s.memory))

/-! ### Moving -/

/-- Words that are moved to another place. -/
theorem repMovw_eq {ds es n : ℕ} (si di : ℕ) (m : Memory) (hsi : si + 2 * n ≤ 65536)
    (hdi : di + 2 * n ≤ 65536)
    (hapart : ds * 16 + si + 2 * n ≤ es * 16 + di ∨ es * 16 + di + 2 * n ≤ ds * 16 + si) :
    repMovw ds es n si di m = patch m (es * 16 + di) (2 * n) fun i => m (ds * 16 + si + i) := by
  induction n generalizing si di m with
  | zero => exact patch_zero.symm
  | succ n ih =>
    have hone : movw (es * 16 + di) (ds * 16 + si) m =
        patch m (es * 16 + di) 2 fun i => m (ds * 16 + si + i) := rfl
    have htwo : 2 * (n + 1) = 2 + 2 * n := by omega
    rw [repMovw, hone, htwo, ← patch_patch]
    cases n with
    | zero => exact patch_zero.symm
    | succ n =>
      have hsi' : (si + 2) % 65536 = si + 2 := by omega
      have hdi' : (di + 2) % 65536 = di + 2 := by omega
      rw [hsi', hdi', ih _ _ _ (by omega) (by omega) (by omega), ← Nat.add_assoc]
      apply patch_congr
      intro i hi
      have haddr : ds * 16 + (si + 2) + i = ds * 16 + si + (2 + i) := by omega
      rw [haddr]
      exact patch_outside (Nat.le_refl _) (Nat.le_refl _) (by omega)

/-- One block of 64 kB moves down by its size. -/
theorem repMovw_block {k : ℕ} (m : Memory) :
    repMovw (0x1000 * (k + 1)) (0x1000 * k) 0x8000 0 0 m =
      patch m (0x10000 * k) 0x10000 fun i => m (0x10000 * (k + 1) + i) := by
  have hsrc : 0x1000 * (k + 1) * 16 + 0 = 0x10000 * (k + 1) := by omega
  have hdst : 0x1000 * k * 16 + 0 = 0x10000 * k := by omega
  rw [repMovw_eq 0 0 m (by omega) (by omega) (by omega), hsrc, hdst]

/-- The loop at `do_move` after `k` blocks. -/
theorem doMove_blocks {m₀ : Memory} (n k : ℕ) (hk : n + k = 8) (m : Memory)
    (hdone : ∀ a < 0x10000 * k, m a = m₀ (a + 0x10000))
    (hrest : ∀ a, 0x10000 * k ≤ a → m a = m₀ a) :
    ∃ m', doMove (n + 1) (0x1000 * k) m = some m' ∧
      (∀ a < 0x80000, m' a = m₀ (a + 0x10000)) ∧ ∀ a, 0x80000 ≤ a → m' a = m₀ a := by
  have hax : (0x1000 * k + 0x1000) % 65536 = 0x1000 * (k + 1) := by omega
  induction n generalizing k m with
  | zero =>
    obtain rfl : k = 8 := by omega
    exact ⟨m, rfl, hdone, hrest⟩
  | succ n ih =>
    rw [doMove]
    simp only [hax]
    rw [if_neg (by omega), repMovw_block]
    apply ih (k + 1) (by omega)
    · intro a ha
      by_cases hlow : a < 0x10000 * k
      · rw [patch_before hlow, hdone a hlow]
      · obtain ⟨i, rfl⟩ := Nat.exists_eq_add_of_le (Nat.not_lt.mp hlow)
        have haddr : 0x10000 * (k + 1) + i = 0x10000 * k + i + 0x10000 := by omega
        rw [patch_add (by omega), hrest _ (by omega), haddr]
    · intro a ha
      rw [patch_after (by omega), hrest a (by omega)]
    · omega

/-- `setup` moves the 512 kB from 0x10000 to address 0. -/
theorem doMove_eq (m : Memory) :
    ∃ m', doMove 9 0 m = some m' ∧ (∀ a < 0x80000, m' a = m (a + 0x10000)) ∧
      ∀ a, 0x80000 ≤ a → m' a = m a :=
  doMove_blocks 8 0 rfl m (fun a ha => absurd ha (Nat.not_lt_zero a)) fun _ _ => rfl

/-! ### Loading `setup` -/

/-- The BIOS can read `setup` with one call. -/
theorem setupCall_fits {d : Floppy} (hd : d.Usable) : setupCall.Fits d.sectors := by
  have hlt := hd.setup_lt
  unfold setupLen at hlt
  unfold ReadCall.Fits ReadCall.buffer ReadCall.bytes setupCall setupLen initSeg
  simp only
  omega

/-- When the loop ends, `setup` lies behind the boot sector. -/
theorem loadSetup_eq {d : Floppy} (hd : d.Usable) {as : List Attempt} {m m' : Memory}
    (h : loadSetup d m as = some m') :
    (∀ i < 2048, m' (0x90200 + i) = d.byte (512 + i)) ∧
      ∀ a, a < 0x90200 ∨ 0x90a00 ≤ a → m' a = m a := by
  induction as generalizing m with
  | nil => cases h
  | cons a as ih =>
    cases a with
    | done =>
      simp only [loadSetup, readSectors, if_pos (setupCall_fits hd), Option.some.injEq] at h
      subst h
      have hfirst : setupCall.first d.sectors = 1 := by
        unfold ReadCall.first setupCall
        simp
      refine ⟨fun i hi => ?_, fun a ha => ?_⟩
      · change patch m 0x90200 2048 _ _ = _
        rw [patch_add hi, hfirst]
      · exact patch_outside (Nat.le_refl 0x90200) (Nat.le_refl 0x90a00) ha
    | error junk =>
      obtain ⟨hsetup, houtside⟩ := ih h
      refine ⟨hsetup, fun a ha => ?_⟩
      rw [houtside a ha]
      exact patch_outside (Nat.le_refl 0x90200) (Nat.le_refl 0x90a00) ha

/-- One attempt that succeeds ends the loop. -/
theorem loadSetup_isSome {d : Floppy} (hd : d.Usable) {as : List Attempt} (m : Memory)
    (has : 0 < as.countP Attempt.isDone) : (loadSetup d m as).isSome := by
  induction as generalizing m with
  | nil => exact absurd has (Nat.lt_irrefl 0)
  | cons a as ih =>
    cases a with
    | done => simp only [loadSetup, readSectors, if_pos (setupCall_fits hd), Option.isSome_some]
    | error junk =>
      rw [List.countP_cons_of_neg (by simp [Attempt.isDone])] at has
      exact ih _ has

/-! ### The whole start -/

/-- The bytes of the image, part by part. -/
theorem Parts.image_getD (p : Parts) :
    (∀ i < 512, p.image.getD i 0 = p.bootSector.getD i 0) ∧
      (∀ i, i < p.setup.length → p.image.getD (512 + i) 0 = p.setup.getD i 0) ∧
      ∀ i, p.image.getD (2560 + i) 0 = p.system.getD i 0 := by
  have hboot := p.bootSector_length
  have hsetup := p.setupSectors_length
  have hsplit : (p.bootSector ++ p.setupSectors).length = 2560 := by
    rw [List.length_append, hboot, hsetup]
    rfl
  refine ⟨fun i hi => ?_, fun i hi => ?_, fun i => ?_⟩
  · rw [Parts.image, List.append_assoc, List.getD_append _ _ _ _ (by omega)]
  · have hle := p.setup_le
    unfold setupSects at hle
    rw [Parts.image, List.append_assoc, List.getD_append_right _ _ _ _ (by omega), hboot,
      Nat.add_sub_cancel_left, List.getD_append _ _ _ _ (by rw [hsetup, setupSects]; omega),
      Parts.setupSectors, List.getD_append _ _ _ _ hi]
  · rw [Parts.image, List.getD_append_right _ _ _ _ (by omega), hsplit, Nat.add_sub_cancel_left]

/-- The word at `root_dev` in the boot sector of the image. -/
theorem Parts.root_word (p : Parts) :
    p.bootSector.getD 509 0 ++ p.bootSector.getD 508 0 = p.major ++ p.minor := by
  have hlength := p.boot_length
  have hmajor : p.bootSector.getD 509 0 = p.major := by
    unfold Parts.bootSector
    simp [hlength]
  have hminor : p.bootSector.getD 508 0 = p.minor := by
    unfold Parts.bootSector
    simp [hlength]
  rw [hmajor, hminor]

/-- The image lies on the disk. -/
def Floppy.Holds (d : Floppy) (image : List Byte) : Prop :=
  ∀ i < image.length, d.byte i = image.getD i 0

/-- Memory at the end of `setup`: the system at address 0, `setup` and the root device. -/
structure Booted (p : Parts) (dev : BitVec 16) (m : Memory) : Prop where
  system : ∀ i < p.system.length, m i = p.system.getD i 0
  setup : ∀ i < p.setup.length, m (0x90200 + i) = p.setup.getD i 0
  root : word m rootDev = dev

/-- The boot sector at 0x90000. -/
theorem moved_eq (d : Floppy) (m : Memory) :
    ∃ m', repMovw bootSeg initSeg 256 0 0 (patch m 0x7c00 512 d.byte) = m' ∧
      ∀ i < 512, m' (0x90000 + i) = d.byte i := by
  refine ⟨_, rfl, fun i hi => ?_⟩
  rw [repMovw_eq 0 0 _ (by omega) (by omega) (by unfold bootSeg initSeg; omega)]
  change patch _ 0x90000 512 (fun i => patch m 0x7c00 512 d.byte (0x7c00 + i)) _ = _
  rw [patch_add hi, patch_add hi]

/-- The root device that the boot sector finds, and memory at the end of `setup`. -/
theorem bootUp_steps (info : ℕ → Byte) (dev : BitVec 16) {d : Floppy} (hd : d.Usable)
    {m₀ : Memory} {setupReads : List Attempt} {m₂ : Memory} {systemReads : List Attempt}
    {s : Loader} {p : Parts} (hdisk : d.Holds p.image)
    (hsetup : loadSetup d (repMovw bootSeg initSeg 256 0 0 (patch m₀ 0x7c00 512 d.byte))
      setupReads = some m₂)
    (hs : (Loader.start m₂).readIt d systemReads = some s) :
    word s.memory rootDev = p.major ++ p.minor ∧
      ∃ m, doMove 9 0 (storeInfo info (storeWord rootDev dev s.memory)) = some m ∧
        Booted p dev m := by
  obtain ⟨m₁, hm₁, hboot⟩ := moved_eq d m₀
  rw [hm₁] at hsetup
  obtain ⟨hread₂, hout₂⟩ := loadSetup_eq hd hsetup
  obtain ⟨hread, hout⟩ := Loader.readIt_memory hd hs
  obtain ⟨himageBoot, himageSetup, himageSystem⟩ := p.image_getD
  have hlength : p.image.length = 2560 + p.system.length := by
    rw [Parts.image, List.length_append, List.length_append, p.bootSector_length,
      p.setupSectors_length]
    rfl
  have hsystemLe := p.system_le
  have hsetupLe := p.setup_le
  unfold sysSize at hsystemLe
  unfold setupSects at hsetupLe
  constructor
  · -- nothing has been loaded over the boot sector
    have hbyte : ∀ i < 512, s.memory (0x90000 + i) = p.bootSector.getD i 0 := by
      intro i hi
      rw [hout _ (by omega), hout₂ _ (by omega), hboot i hi, hdisk i (by omega), himageBoot i hi]
    have hhigh := hbyte 509 (by omega)
    have hlow := hbyte 508 (by omega)
    rw [← p.root_word, ← hhigh, ← hlow]
    rfl
  · obtain ⟨m, hm, hmoved, hkept⟩ := doMove_eq (storeInfo info (storeWord rootDev dev s.memory))
    have hstored : ∀ a, a < 0x90000 ∨ 0x90200 ≤ a →
        storeInfo info (storeWord rootDev dev s.memory) a = s.memory a := by
      intro a ha
      unfold storeInfo storeWord rootDev
      rw [patch_outside (Nat.le_refl 0x90080) (Nat.le_refl 0x900a0) (by omega),
        patch_outside (Nat.le_refl 0x90000) (Nat.le_refl 0x9000e) (by omega),
        patch_outside (Nat.le_refl 0x901fc) (Nat.le_refl 0x901fe) (by omega)]
    refine ⟨m, hm, ?_, ?_, ?_⟩
    · intro i hi
      rw [hmoved i (by omega), hstored _ (by omega), Nat.add_comm i, hread i (by omega),
        hdisk _ (by omega), himageSystem i]
    · intro i hi
      rw [hkept _ (by omega), hstored _ (by omega), hout _ (by omega), hread₂ i (by omega),
        hdisk _ (by omega), himageSetup i hi]
    · have hbyte : ∀ i < 2, m (rootDev + i) =
          if i = 0 then dev.setWidth 8 else (dev >>> 8).setWidth 8 := by
        intro i hi
        rw [hkept _ (by unfold rootDev; omega)]
        unfold storeInfo storeWord
        rw [patch_after (by unfold rootDev; omega), patch_after (by unfold rootDev; omega),
          patch_add hi]
      have hlow := hbyte 0 (by omega)
      have hhigh := hbyte 1 (by omega)
      rw [Nat.add_zero, if_pos rfl] at hlow
      rw [if_neg (by omega)] at hhigh
      rw [word, hlow, hhigh]
      apply BitVec.eq_of_getLsbD_eq
      intro i hi
      rw [BitVec.getLsbD_append]
      split_ifs with hbit
      · simp [hbit]
      · simp [show i - 8 < 8 by omega, show 8 + (i - 8) = i by omega]

/-- Whatever attempts to read the disk fail: if the machine that is started with the image gets to
the end of `setup`, then the system that `build` has been given lies at address 0, `setup` lies
where it runs, and the root device is the one given to `build`, or a floppy of the type that is
used. -/
theorem bootUp_booted {root : RootArg} {boot setup system : Option (List Byte)}
    {image : List Byte} (hbuild : build root boot setup system = .ok image) {d : Floppy}
    (hd : d.Usable) (hdisk : d.Holds image) {setupReads systemReads : List Attempt}
    {info : ℕ → Byte} {m₀ m : Memory} (hrun : bootUp d setupReads systemReads info m₀ = some m) :
    ∃ p : Parts, p.Of root boot setup system ∧
      ∃ dev, rootDevice d.sectors (p.major ++ p.minor) = some dev ∧ Booted p dev m := by
  obtain ⟨p, hp, rfl⟩ := build_eq_ok_iff.mp hbuild
  obtain ⟨m₂, hsetup, hrest⟩ := Option.bind_eq_some_iff.mp hrun
  obtain ⟨s, hs, hrest⟩ := Option.bind_eq_some_iff.mp hrest
  obtain ⟨dev, hdev, hmove⟩ := Option.bind_eq_some_iff.mp hrest
  obtain ⟨hroot, m', hm', hbooted⟩ := bootUp_steps info dev hd hdisk hsetup hs
  rw [hroot] at hdev
  rw [hm', Option.some.injEq] at hmove
  subst hmove
  exact ⟨p, hp, dev, hdev, hbooted⟩

/-- The header of a file without data, bss and symbols. -/
def minixHeaderBytes : List Byte :=
  [0x01, 0x03, 0x10, 0x04, 32, 0, 0, 0, 0, 0, 0, 0, 0, 0, 0, 0,
    0, 0, 0, 0, 0, 0, 0, 0, 0, 0, 0, 0, 0, 0, 0, 0]

/-- A file with this header is accepted. -/
theorem minixFile_of (code : List Byte) : MinixFile (minixHeaderBytes ++ code) code where
  length := by
    rw [List.length_append]
    exact Nat.le_add_right 32 code.length
  magic := by simp [long, minixHeaderBytes]
  header := by simp [long, minixHeaderBytes]
  data := by simp [long, minixHeaderBytes]
  bss := by simp [long, minixHeaderBytes]
  entry := by simp [long, minixHeaderBytes]
  symbols := by simp [long, minixHeaderBytes]
  code_eq := rfl

/-- A system with an empty header is accepted. -/
theorem gccFile_of (code : List Byte) : GccFile (List.replicate 1024 0 ++ code) code where
  length := by
    rw [List.length_append, List.length_replicate]
    exact Nat.le_add_right 1024 code.length
  entry := by
    have hzero : ∀ i < 1024, (List.replicate 1024 0 ++ code).getD i 0 = 0 := by
      intro i hi
      rw [List.getD_append _ _ _ _ (by rwa [List.length_replicate]), List.getD_replicate _ hi]
    rw [long, hzero _ (by omega), hzero _ (by omega), hzero _ (by omega), hzero _ (by omega)]
    rfl
  code_eq := List.drop_left' List.length_replicate

/-- A boot sector without code. -/
def blankBoot : List Byte := List.replicate 510 0 ++ [0x55, 0xAA]

/-- The boot flag of the empty boot sector. -/
theorem blankBoot_flag : blankBoot.getD 511 0 ++ blankBoot.getD 510 0 = 0xAA55#16 := by
  unfold blankBoot
  rw [List.getD_append_right _ _ _ _ (by rw [List.length_replicate]; omega),
    List.getD_append_right _ _ _ _ (Nat.le_of_eq List.length_replicate),
    List.length_replicate]
  rfl

/-- A small image. -/
def sampleParts : Parts where
  major := 3
  minor := 6
  boot := blankBoot
  setup := [0xb8, 0x00]
  system := [0xb8, 0x10, 0x00]
  major_mem := .inr (.inl rfl)
  boot_length := by
    rw [blankBoot, List.length_append, List.length_replicate]
    rfl
  boot_flag := blankBoot_flag
  setup_le := by decide
  system_le := by decide

/-- The files of the small image. -/
theorem sampleParts_of :
    sampleParts.Of .default (some (minixHeaderBytes ++ sampleParts.boot))
      (some (minixHeaderBytes ++ sampleParts.setup))
      (some (List.replicate 1024 0 ++ sampleParts.system)) where
  root_eq := rfl
  boot_file := ⟨_, rfl, minixFile_of _⟩
  setup_file := ⟨_, rfl, minixFile_of _⟩
  system_file := ⟨_, rfl, gccFile_of _⟩

/-- The machine gets to the end of `setup` if one attempt to read `setup` and 384 attempts to read
the system succeed, and there is a root device. -/
theorem bootUp_isSome {p : Parts} {d : Floppy} (hd : d.Usable) (hdisk : d.Holds p.image)
    {setupReads systemReads : List Attempt} (hsetup : 0 < setupReads.countP Attempt.isDone)
    (hsystem : 384 ≤ systemReads.countP Attempt.isDone)
    (hroot : (rootDevice d.sectors (p.major ++ p.minor)).isSome) (info : ℕ → Byte) (m₀ : Memory) :
    (bootUp d setupReads systemReads info m₀).isSome := by
  obtain ⟨m₂, hm₂⟩ := Option.isSome_iff_exists.mp (loadSetup_isSome hd
    (repMovw bootSeg initSeg 256 0 0 (patch m₀ 0x7c00 512 d.byte)) hsetup)
  have hcount : 384 ≤ 128 * 0 + 0 + systemReads.countP Attempt.isDone := by omega
  have hstart : Loading d m₂ 0 0 (Loader.start m₂) := Loading.start hd
  obtain ⟨s, hs⟩ := Option.isSome_iff_exists.mp (hstart.readIt_isSome hd hcount)
  obtain ⟨dev, hdev⟩ := Option.isSome_iff_exists.mp hroot
  obtain ⟨hword, m, hm, -⟩ := bootUp_steps info dev hd hdisk hm₂ hs
  rw [bootUp, hm₂, Option.bind_some, hs, Option.bind_some, hword, hdev, Option.bind_some, hm]
  rfl

/-- The small image is started. -/
theorem bootUp_booted_sample :
    ∃ (p : Parts) (dev : BitVec 16) (m : Memory),
      rootDevice 18 (p.major ++ p.minor) = some dev ∧ Booted p dev m := by
  have hbuild := build_eq_ok_iff.mpr ⟨sampleParts, sampleParts_of, rfl⟩
  have hd : (Floppy.mk 18 fun i => sampleParts.image.getD i 0).Usable := ⟨by decide, by decide⟩
  have hcount : 384 ≤ (List.replicate 384 Attempt.done).countP Attempt.isDone := by
    rw [List.countP_replicate]
    exact Nat.le_refl 384
  have hone : 0 < [Attempt.done].countP Attempt.isDone := by decide
  obtain ⟨m, hm⟩ := Option.isSome_iff_exists.mp (bootUp_isSome (p := sampleParts) hd
    (fun i _ => rfl) hone hcount (by decide) (fun _ => 0) fun _ => 0)
  obtain ⟨p, -, dev, hdev, hbooted⟩ := bootUp_booted hbuild hd (fun i _ => rfl) hm
  exact ⟨p, dev, m, hdev, hbooted⟩

end LihaLinux.Boot
