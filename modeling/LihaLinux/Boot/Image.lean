import Mathlib.Data.List.TakeDrop
import Mathlib.Data.Nat.Notation
import Mathlib.Tactic.Common

/-!
# The disk image

`tools/build.c` joins the boot sector, `setup` and the system to a disk image. It checks the
headers of the three files and removes them, stores the root device in the boot sector and pads
`setup` with zeros.
-/

namespace LihaLinux.Boot

/-- A byte of a file or of memory. -/
abbrev Byte := BitVec 8

/-- `MINIX_HEADER`. -/
def minixHeader : ℕ := 32

/-- `GCC_HEADER`. -/
def gccHeader : ℕ := 1024

/-- `SYS_SIZE` of `tools/build.c`, in clicks of 16 bytes. -/
def sysSize : ℕ := 0x2000

/-- `SETUP_SECTS`. -/
def setupSects : ℕ := 4

/-- `sizeof buf`. -/
def bufSize : ℕ := 1024

/-- The last argument of `build`: missing, `FLOPPY`, or a file and its `st_rdev`, if there is
one. -/
inductive RootArg
  | default
  | floppy
  | device (rdev : Option (BitVec 16))
  deriving DecidableEq

/-- `((long *) buf)[k]`. -/
def long (buf : List Byte) (k : ℕ) : BitVec 32 :=
  buf.getD (4 * k + 3) 0 ++ buf.getD (4 * k + 2) 0 ++ buf.getD (4 * k + 1) 0 ++ buf.getD (4 * k) 0

/-- `major_root` and `minor_root`. -/
def rootNumbers : RootArg → Except String (Byte × Byte)
  | .default => .ok (3, 6)
  | .floppy => .ok (0, 0)
  | .device none => .error "Couldn't stat root device."
  | .device (some rdev) => .ok ((rdev >>> 8).setWidth 8, rdev.setWidth 8)

/-- The check of `major_root`. -/
def checkRoot (root : Byte × Byte) : Except String (Byte × Byte) :=
  if root.1 ≠ 2 ∧ root.1 ≠ 3 ∧ root.1 ≠ 0 then .error "Bad root device --- major #" else .ok root

/-- `open`, of a file that may not exist. -/
def openFile (name : String) : Option (List Byte) → Except String (List Byte)
  | none => .error ("Unable to open '" ++ name ++ "'")
  | some file => .ok file

/-- The checks of the header of `boot` and of `setup`: what follows the header. -/
def readMinix (name : String) (file : List Byte) : Except String (List Byte) :=
  if file.length < minixHeader then .error ("Unable to read header of '" ++ name ++ "'")
  else if long file 0 ≠ 0x04100301 then .error ("Non-Minix header of '" ++ name ++ "'")
  else if long file 1 ≠ 32 then .error ("Non-Minix header of '" ++ name ++ "'")
  else if long file 3 ≠ 0 then .error ("Illegal data segment in '" ++ name ++ "'")
  else if long file 4 ≠ 0 then .error ("Illegal bss in '" ++ name ++ "'")
  else if long file 5 ≠ 0 then .error ("Non-Minix header of '" ++ name ++ "'")
  else if long file 7 ≠ 0 then .error ("Illegal symbol table in '" ++ name ++ "'")
  else .ok (file.drop minixHeader)

/-- The check of the header of `system`: what follows the header. -/
def readGcc (file : List Byte) : Except String (List Byte) :=
  if file.length < gccHeader then .error "Unable to read header of 'system'"
  else if long file 5 ≠ 0 then .error "Non-GCC header of 'system'"
  else .ok (file.drop gccHeader)

/-- The boot sector with the root device. One `read` takes at most `sizeof buf` bytes. -/
def bootBlock (root : Byte × Byte) (code : List Byte) : Except String (List Byte) :=
  let buf := code.take bufSize
  if buf.length ≠ 512 then .error "Boot block must be exactly 512 bytes"
  else if buf.getD 511 0 ++ buf.getD 510 0 ≠ 0xAA55#16 then
    .error "Boot block hasn't got boot flag (0xAA55)"
  else .ok ((buf.set 508 root.2).set 509 root.1)

/-- `for (i=0 ; (c=read(id,buf,sizeof buf))>0 ; i+=c )` with its `write`: what has been written,
and `i`. -/
def copyLoop (rest out : List Byte) (i : ℕ) : List Byte × ℕ :=
  if rest.length = 0 then (out, i)
  else copyLoop (rest.drop bufSize) (out ++ rest.take bufSize) (i + (rest.take bufSize).length)
termination_by rest.length
decreasing_by
  rw [List.length_drop]
  exact Nat.sub_lt (Nat.pos_of_ne_zero (by assumption)) (Nat.succ_pos 1023)

/-- `while (i<SETUP_SECTS*512)`: zeros up to the end of the last sector of `setup`. -/
def padLoop (out : List Byte) (i : ℕ) : List Byte :=
  if i < setupSects * 512 then
    let c := min (setupSects * 512 - i) bufSize
    padLoop (out ++ List.replicate c 0) (i + c)
  else out
termination_by setupSects * 512 - i
decreasing_by
  have hpos : 0 < bufSize := Nat.succ_pos 1023
  omega

/-- `setup`, padded. -/
def setupBlock (code : List Byte) : Except String (List Byte) :=
  let r := copyLoop code [] 0
  if setupSects * 512 < r.2 then .error "Setup exceeds 4 sectors - rewrite build/boot/setup"
  else .ok (padLoop r.1 r.2)

/-- The system. -/
def systemBlock (code : List Byte) : Except String (List Byte) :=
  let r := copyLoop code [] 0
  if sysSize * 16 < r.2 then .error "System is too big" else .ok r.1

/-- `main` of `tools/build.c`: what is written to the standard output, unless `die` is called. -/
def build (root : RootArg) (boot setup system : Option (List Byte)) : Except String (List Byte) :=
  (rootNumbers root).bind fun root =>
  (checkRoot root).bind fun root =>
  (openFile "boot" boot).bind fun boot =>
  (readMinix "boot" boot).bind fun boot =>
  (bootBlock root boot).bind fun boot =>
  (openFile "setup" setup).bind fun setup =>
  (readMinix "setup" setup).bind fun setup =>
  (setupBlock setup).bind fun setup =>
  (openFile "system" system).bind fun system =>
  (readGcc system).bind fun system =>
  (systemBlock system).bind fun system => .ok (boot ++ setup ++ system)

/-! ### The loops -/

/-- The loop copies the whole rest of a file. -/
theorem copyLoop_eq (rest out : List Byte) (i : ℕ) :
    copyLoop rest out i = (out ++ rest, i + rest.length) := by
  fun_induction copyLoop rest out i with
  | case1 rest out i hempty =>
    rw [List.length_eq_zero_iff.mp hempty, List.append_nil]
    rfl
  | case2 rest out i hsome ih =>
    have hlength : (rest.take bufSize).length + (rest.drop bufSize).length = rest.length := by
      rw [← List.length_append, List.take_append_drop]
    rw [ih, List.append_assoc, List.take_append_drop, Nat.add_assoc, hlength]

/-- The loop writes zeros up to the end of the last sector. -/
theorem padLoop_eq (out : List Byte) (i : ℕ) :
    padLoop out i = out ++ List.replicate (setupSects * 512 - i) 0 := by
  fun_induction padLoop out i with
  | case1 out i hi c ih =>
    have hle : c ≤ setupSects * 512 - i := Nat.min_le_left _ _
    have hc : c + (setupSects * 512 - (i + c)) = setupSects * 512 - i := by
      rw [Nat.sub_add_eq, Nat.add_sub_cancel' hle]
    simp only [ih, List.append_assoc, List.replicate_append_replicate, hc]
  | case2 out i hi =>
    have hnone : setupSects * 512 - i = 0 := by omega
    rw [hnone, List.replicate_zero, List.append_nil]

/-! ### What is accepted -/

/-- A file with a header that is accepted for `boot` and `setup`, and what follows the header. -/
structure MinixFile (file code : List Byte) : Prop where
  length : minixHeader ≤ file.length
  magic : long file 0 = 0x04100301
  header : long file 1 = 32
  data : long file 3 = 0
  bss : long file 4 = 0
  entry : long file 5 = 0
  symbols : long file 7 = 0
  code_eq : file.drop minixHeader = code

/-- A file with a header that is accepted for `system`, and what follows the header. -/
structure GccFile (file code : List Byte) : Prop where
  length : gccHeader ≤ file.length
  entry : long file 5 = 0
  code_eq : file.drop gccHeader = code

/-- The header check accepts just these files. -/
theorem readMinix_eq_ok_iff {name : String} {file code : List Byte} :
    readMinix name file = .ok code ↔ MinixFile file code := by
  unfold readMinix
  constructor
  · intro h
    split_ifs at h with h0 h1 h2 h3 h4 h5 h6
    rw [Except.ok.injEq] at h
    exact ⟨Nat.not_lt.mp h0, not_not.mp h1, not_not.mp h2, not_not.mp h3, not_not.mp h4,
      not_not.mp h5, not_not.mp h6, h⟩
  · rintro ⟨h0, h1, h2, h3, h4, h5, h6, rfl⟩
    rw [if_neg (Nat.not_lt.mpr h0), if_neg (not_not.mpr h1), if_neg (not_not.mpr h2),
      if_neg (not_not.mpr h3), if_neg (not_not.mpr h4), if_neg (not_not.mpr h5),
      if_neg (not_not.mpr h6)]

/-- The header check accepts just these files. -/
theorem readGcc_eq_ok_iff {file code : List Byte} :
    readGcc file = .ok code ↔ GccFile file code := by
  unfold readGcc
  constructor
  · intro h
    split_ifs at h with h0 h1
    rw [Except.ok.injEq] at h
    exact ⟨Nat.not_lt.mp h0, not_not.mp h1, h⟩
  · rintro ⟨h0, h1, rfl⟩
    rw [if_neg (Nat.not_lt.mpr h0), if_neg (not_not.mpr h1)]

/-- The parts of an image. -/
structure Parts where
  major : Byte
  minor : Byte
  boot : List Byte
  setup : List Byte
  system : List Byte
  major_mem : major = 2 ∨ major = 3 ∨ major = 0
  boot_length : boot.length = 512
  boot_flag : boot.getD 511 0 ++ boot.getD 510 0 = 0xAA55#16
  setup_le : setup.length ≤ setupSects * 512
  system_le : system.length ≤ sysSize * 16

namespace Parts

/-- The boot sector of the image. -/
def bootSector (p : Parts) : List Byte := (p.boot.set 508 p.minor).set 509 p.major

/-- The sectors of `setup`. -/
def setupSectors (p : Parts) : List Byte :=
  p.setup ++ List.replicate (setupSects * 512 - p.setup.length) 0

/-- The image. -/
def image (p : Parts) : List Byte := p.bootSector ++ p.setupSectors ++ p.system

/-- The parts come from these files. -/
structure Of (p : Parts) (root : RootArg) (boot setup system : Option (List Byte)) : Prop where
  root_eq : rootNumbers root = .ok (p.major, p.minor)
  boot_file : ∃ file, boot = some file ∧ MinixFile file p.boot
  setup_file : ∃ file, setup = some file ∧ MinixFile file p.setup
  system_file : ∃ file, system = some file ∧ GccFile file p.system

@[simp]
theorem bootSector_length (p : Parts) : p.bootSector.length = 512 := by
  rw [bootSector, List.length_set, List.length_set, p.boot_length]

@[simp]
theorem setupSectors_length (p : Parts) : p.setupSectors.length = setupSects * 512 := by
  rw [setupSectors, List.length_append, List.length_replicate, Nat.add_sub_cancel' p.setup_le]

end Parts

/-- The boot sector is accepted if it has the right length and the boot flag. -/
theorem bootBlock_eq_ok_iff {root : Byte × Byte} {code block : List Byte} :
    bootBlock root code = .ok block ↔ code.length = 512 ∧
      code.getD 511 0 ++ code.getD 510 0 = 0xAA55#16 ∧
      (code.set 508 root.2).set 509 root.1 = block := by
  have htake : (code.take bufSize).length = 512 ↔ code.length = 512 := by
    rw [List.length_take, bufSize]
    omega
  unfold bootBlock
  by_cases hlength : code.length = 512
  · have hwhole : code.take bufSize = code := by
      apply List.take_of_length_le
      rw [hlength, bufSize]
      omega
    rw [hwhole, if_neg (not_not.mpr hlength)]
    by_cases hflag : code.getD 511 0 ++ code.getD 510 0 = 0xAA55#16
    · rw [if_neg (not_not.mpr hflag), Except.ok.injEq, and_iff_right hlength, and_iff_right hflag]
    · rw [if_pos hflag]
      exact iff_of_false (fun h => by cases h) fun h => hflag h.2.1
  · rw [if_pos (htake.not.mpr hlength)]
    exact iff_of_false (fun h => by cases h) fun h => hlength h.1

/-- `setup` is accepted up to its four sectors. -/
theorem setupBlock_eq_ok_iff {code block : List Byte} :
    setupBlock code = .ok block ↔ code.length ≤ setupSects * 512 ∧
      code ++ List.replicate (setupSects * 512 - code.length) 0 = block := by
  unfold setupBlock
  rw [copyLoop_eq]
  by_cases hlong : setupSects * 512 < code.length
  · rw [if_pos (by rwa [Nat.zero_add])]
    exact iff_of_false (fun h => by cases h) fun h => Nat.not_le.mpr hlong h.1
  · rw [if_neg (by rwa [Nat.zero_add]), Except.ok.injEq, and_iff_right (Nat.not_lt.mp hlong),
      padLoop_eq, List.nil_append, Nat.zero_add]

/-- The system is accepted up to `SYS_SIZE` clicks. -/
theorem systemBlock_eq_ok_iff {code block : List Byte} :
    systemBlock code = .ok block ↔ code.length ≤ sysSize * 16 ∧ code = block := by
  rw [systemBlock, copyLoop_eq, List.nil_append, Nat.zero_add]
  split_ifs with hlong
  · simp [Nat.not_le.mpr hlong]
  · simp [Nat.not_lt.mp hlong]

/-- The root device is accepted if it is a floppy, a hard disk or not given. -/
theorem checkRoot_eq_ok_iff {root root' : Byte × Byte} :
    checkRoot root = .ok root' ↔ (root.1 = 2 ∨ root.1 = 3 ∨ root.1 = 0) ∧ root = root' := by
  unfold checkRoot
  by_cases hok : root.1 = 2 ∨ root.1 = 3 ∨ root.1 = 0
  · have hgood : ¬(root.1 ≠ 2 ∧ root.1 ≠ 3 ∧ root.1 ≠ 0) := by
      rw [← not_or, ← not_or]
      exact not_not.mpr hok
    rw [if_neg hgood, Except.ok.injEq, and_iff_right hok]
  · have hbad : root.1 ≠ 2 ∧ root.1 ≠ 3 ∧ root.1 ≠ 0 := by
      simpa only [not_or] using hok
    rw [if_pos hbad]
    exact iff_of_false (fun h => by cases h) fun h => hok h.1

/-- A file that exists is opened. -/
theorem openFile_eq_ok_iff {name : String} {f : Option (List Byte)} {file : List Byte} :
    openFile name f = .ok file ↔ f = some file := by
  cases f <;> simp [openFile]

/-- A computation goes on after a result. -/
theorem bind_eq_ok_iff {ε α β : Type} {x : Except ε α} {f : α → Except ε β} {b : β} :
    x.bind f = .ok b ↔ ∃ a, x = .ok a ∧ f a = .ok b := by
  cases x <;> simp [Except.bind]

/-- `build` writes the image of its parts, and nothing else is accepted. -/
theorem build_eq_ok_iff {root : RootArg} {boot setup system : Option (List Byte)}
    {image : List Byte} :
    build root boot setup system = .ok image ↔
      ∃ p : Parts, p.Of root boot setup system ∧ p.image = image := by
  simp only [build, bind_eq_ok_iff, checkRoot_eq_ok_iff, openFile_eq_ok_iff, readMinix_eq_ok_iff,
    readGcc_eq_ok_iff, bootBlock_eq_ok_iff, setupBlock_eq_ok_iff, systemBlock_eq_ok_iff]
  constructor
  · rintro ⟨⟨major, minor⟩, hroot, _, ⟨hmajor, rfl⟩, bootFile, hboot, code, hcode, _,
      ⟨hlength, hflag, rfl⟩, setupFile, hsetup, setupCode, hsetupCode, _, ⟨hsetupLe, rfl⟩,
      systemFile, hsystem, systemCode, hsystemCode, _, ⟨hsystemLe, rfl⟩, himage⟩
    exact ⟨⟨major, minor, code, setupCode, systemCode, hmajor, hlength, hflag, hsetupLe,
      hsystemLe⟩, ⟨hroot, ⟨bootFile, hboot, hcode⟩, ⟨setupFile, hsetup, hsetupCode⟩,
      ⟨systemFile, hsystem, hsystemCode⟩⟩, Except.ok.inj himage⟩
  · rintro ⟨p, ⟨hroot, ⟨bootFile, hboot, hcode⟩, ⟨setupFile, hsetup, hsetupCode⟩,
      ⟨systemFile, hsystem, hsystemCode⟩⟩, rfl⟩
    exact ⟨_, hroot, _, ⟨p.major_mem, rfl⟩, bootFile, hboot, p.boot, hcode, _,
      ⟨p.boot_length, p.boot_flag, rfl⟩, setupFile, hsetup, p.setup, hsetupCode, _,
      ⟨p.setup_le, rfl⟩, systemFile, hsystem, p.system, hsystemCode, _, ⟨p.system_le, rfl⟩, rfl⟩

end LihaLinux.Boot
