import LihaLinux.Files.FileCalls
import LihaLinux.Mm.ExecArgs

/-!
# The header of a program

`do_execve` tests sums of 32-bit numbers of the header. `change_ldt` makes the size of the text the
limit of the code segment, and `copy_mem` compares the limits of both segments at every fork.
-/

namespace LihaLinux.Files

/-! ### The segments of a task -/

/-- A descriptor of `ldt[]`. Its limit counts pages: the descriptors of `INIT_TASK` do so, and
nothing changes that. -/
structure Desc where
  base : ℕ
  limit : BitVec 20
  deriving DecidableEq

/-- `ldt[1]` and `ldt[2]`. -/
structure Ldt where
  code : Desc
  data : Desc
  deriving DecidableEq

/-- `set_base`. -/
def Desc.setBase (d : Desc) (base : ℕ) : Desc := { d with base }

/-- `set_limit`. -/
def Desc.setLimit (d : Desc) (limit : ℕ) : Desc :=
  { d with limit := BitVec.ofNat 20 (Mm.sub32 limit 1 / 4096) }

/-- `get_limit`: the last byte of the segment as `lsll` loads it, and one more. -/
def Desc.getLimit (d : Desc) : ℕ := (4096 * d.limit.toNat + 4095 + 1) % 4294967296

/-- `code_limit` in `change_ldt`. -/
def codeLimit (textSize : ℕ) : ℕ := (textSize + 4095) % 4294967296 / 4096 * 4096

/-- The descriptors after `change_ldt`. -/
def changeDescs (textSize : ℕ) (l : Ldt) : Ldt where
  code := (l.code.setBase l.code.base).setLimit (codeLimit textSize)
  data := (l.data.setBase l.code.base).setLimit Mm.dataLimit

/-- The panics of `copy_mem` itself. -/
inductive SegmentPanic
  /-- We don't support separate I&D -/
  | separateID
  /-- Bad data_limit -/
  | badDataLimit
  deriving DecidableEq

/-- The tests at the beginning of `copy_mem`. -/
def segmentTest (l : Ldt) : Option SegmentPanic :=
  if l.data.base ≠ l.code.base then some .separateID
  else if l.data.getLimit < l.code.getLimit then some .badDataLimit
  else none

/-- The descriptors that `copy_mem` makes for the new task in slot `nr`. -/
def Ldt.copyMem (l : Ldt) (nr : ℕ) : Ldt where
  code := l.code.setBase (nr * 0x4000000)
  data := l.data.setBase (nr * 0x4000000)

/-- A task with the descriptors `l` forks, and its child has the descriptors `l'`. -/
def Forks (l l' : Ldt) : Prop := segmentTest l = none ∧ ∃ nr < nrTasks, l' = l.copyMem nr

/-! ### Limits -/

/-- What `set_limit` stores of a multiple of the page size is what `get_limit` loads. -/
theorem getLimit_setLimit (d : Desc) {limit : ℕ} (hpages : limit % 4096 = 0)
    (hlt : limit < 4294967296) : (d.setLimit limit).getLimit = limit := by
  have hstored : (BitVec.ofNat 20 (Mm.sub32 limit 1 / 4096)).toNat = Mm.sub32 limit 1 / 4096 := by
    rw [BitVec.toNat_ofNat, Mm.sub32]
    omega
  rw [Desc.getLimit, Desc.setLimit, hstored, Mm.sub32]
  omega

theorem codeLimit_spec (textSize : ℕ) :
    codeLimit textSize % 4096 = 0 ∧ codeLimit textSize < 4294967296 := by
  unfold codeLimit
  constructor <;> omega

theorem changeDescs_code (textSize : ℕ) (l : Ldt) :
    (changeDescs textSize l).code.getLimit = codeLimit textSize := by
  obtain ⟨hpages, hlt⟩ := codeLimit_spec textSize
  exact getLimit_setLimit _ hpages hlt

theorem changeDescs_data (textSize : ℕ) (l : Ldt) :
    (changeDescs textSize l).data.getLimit = Mm.dataLimit :=
  getLimit_setLimit _ (by decide) (by decide)

/-- A fork does not change the limits. -/
theorem Forks.getLimit {l l' : Ldt} (h : Forks l l') :
    l'.code.getLimit = l.code.getLimit ∧ l'.data.getLimit = l.data.getLimit := by
  obtain ⟨-, nr, -, rfl⟩ := h
  constructor <;> rfl

/-- No number of forks changes the limits. -/
theorem forks_getLimit {l l' : Ldt} (h : Relation.ReflTransGen Forks l l') :
    l'.code.getLimit = l.code.getLimit ∧ l'.data.getLimit = l.data.getLimit := by
  induction h with
  | refl => constructor <;> rfl
  | tail _ hfork ih =>
    obtain ⟨hcode, hdata⟩ := hfork.getLimit
    exact ⟨hcode.trans ih.1, hdata.trans ih.2⟩

theorem segmentTest_ne {l : Ldt} (h : l.code.getLimit ≤ l.data.getLimit) :
    segmentTest l ≠ some .badDataLimit := by
  unfold segmentTest
  by_cases hbase : l.data.base ≠ l.code.base
  · rw [if_pos hbase]
    decide
  · rw [if_neg hbase, if_neg (by omega)]
    decide

/-! ### The test of the header -/

/-- What the test of the header of a file of a size is for: its sizes are in range, and a task
with the descriptors `l` that executes the file can fork, and its children can. -/
structure HeaderInRange (d : ℕ → ℕ) (size : ℕ) (l : Ldt) : Prop where
  image : long d 1 + long d 2 + long d 3 ≤ 0x3000000
  file : long d 1 + long d 2 + long d 4 + 1024 ≤ size
  code : (changeDescs (long d 1) l).code.getLimit ≤ (changeDescs (long d 1) l).data.getLimit
  forks : ∀ l', Relation.ReflTransGen Forks (changeDescs (long d 1) l) l' →
    segmentTest l' ≠ some .badDataLimit

/-- The descriptors of `INIT_TASK`. -/
def initLdt : Ldt := ⟨⟨0, 0x9f⟩, ⟨0, 0x9f⟩⟩

/-- The header of a program with a page of text and a page of data. -/
def smallHeader (k : ℕ) : ℕ :=
  if k = 0 then 0x0b else if k = 1 then 0x01 else if k = 5 ∨ k = 9 then 0x10 else 0

/-- The header of a program with 2 GB of text and 2 GB of data. -/
def hugeHeader (k : ℕ) : ℕ :=
  if k = 0 then 0x0b else if k = 1 then 0x01 else if k = 7 ∨ k = 11 then 0x80 else 0

end LihaLinux.Files
