import Mathlib.Data.List.Infix
import Mathlib.Data.List.TakeWhile
import Mathlib.Logic.Function.Basic

/-!
# String instructions and the zero flag

A 32-bit processor as far as byte strings are scanned: its registers, the zero and the direction
flag, and byte memory. An instruction is a function on states. A repeated instruction whose count
is 0 leaves the zero flag as it is.
-/

namespace LihaLinux

/-- An address, or the contents of a register. -/
abbrev Word := BitVec 32

/-- Registers, flags and memory. -/
structure Cpu where
  eax : Word
  ebx : Word
  ecx : Word
  edx : Word
  esi : Word
  edi : Word
  /-- The zero flag. -/
  zf : Bool
  /-- The direction flag. -/
  df : Bool
  mem : Word → BitVec 8
  /-- The addresses stored to, the last one first. -/
  stored : List Word

namespace Cpu

/-- `%al`. -/
def al (c : Cpu) : BitVec 8 := c.eax.setWidth 8

/-- The address after another one in the direction of the string instructions. -/
def advance (c : Cpu) (a : Word) : Word := if c.df then a - 1 else a + 1

/-- `cld`. -/
def cld (c : Cpu) : Cpu := { c with df := false }

/-- `lodsb`. -/
def lodsb (c : Cpu) : Cpu :=
  { c with
    eax := c.eax.extractLsb' 8 24 ++ c.mem c.esi
    esi := c.advance c.esi }

/-- `testb %al,%al`. -/
def testAl (c : Cpu) : Cpu := { c with zf := c.al = 0 }

/-- `testl` of a register with itself. -/
def testl (c : Cpu) (w : Word) : Cpu := { c with zf := w = 0 }

/-- `cmpb $0` with a byte of memory. -/
def cmpZero (c : Cpu) (a : Word) : Cpu := { c with zf := c.mem a = 0 }

/-- `movb $0` to memory. -/
def storeZero (c : Cpu) (a : Word) : Cpu :=
  { c with mem := Function.update c.mem a 0, stored := a :: c.stored }

/-- `notl %ecx`. -/
def notEcx (c : Cpu) : Cpu := { c with ecx := ~~~c.ecx }

/-- `decl %ecx`. -/
def decEcx (c : Cpu) : Cpu := { c with ecx := c.ecx - 1, zf := c.ecx - 1 = 0 }

/-- `decl %esi`. -/
def decEsi (c : Cpu) : Cpu := { c with esi := c.esi - 1, zf := c.esi - 1 = 0 }

/-- `incl %esi`. -/
def incEsi (c : Cpu) : Cpu := { c with esi := c.esi + 1, zf := c.esi + 1 = 0 }

/-- `scasb`. -/
def scasb (c : Cpu) : Cpu := { c with zf := c.al = c.mem c.edi, edi := c.advance c.edi }

/-- `cmpsb`. -/
def cmpsb (c : Cpu) : Cpu :=
  { c with
    zf := c.mem c.esi = c.mem c.edi
    esi := c.advance c.esi
    edi := c.advance c.edi }

/-- An instruction that is repeated up to `n` times, as long as the zero flag has a value after
it. -/
def repeated (instr : Cpu → Cpu) (flag : Bool) : ℕ → Cpu → Cpu
  | 0, c => c
  | n + 1, c =>
    let c := instr { c with ecx := c.ecx - 1 }
    if c.zf = flag then repeated instr flag n c else c

/-- `repne scasb`. -/
def repneScasb (c : Cpu) : Cpu := repeated scasb false c.ecx.toNat c

/-- `repe cmpsb`. -/
def repeCmpsb (c : Cpu) : Cpu := repeated cmpsb true c.ecx.toNat c

theorem al_lodsb (c : Cpu) : c.lodsb.al = c.mem c.esi := by
  rw [al, lodsb]
  ext i hi
  rw [BitVec.getElem_setWidth]
  exact BitVec.getLsbD_append.trans (by simp [hi])

end Cpu

/-! ### Strings -/

/-- The bytes from an address on, with a `NUL` behind them. -/
def StringAt (m : Word → BitVec 8) (a : Word) : List (BitVec 8) → Prop
  | [] => m a = 0
  | b :: l => m a = b ∧ b ≠ 0 ∧ StringAt m (a + 1) l

/-- A string of a program: it does not begin at the null pointer, and it ends before the end of
the memory. -/
structure CString (m : Word → BitVec 8) (a : Word) (l : List (BitVec 8)) : Prop where
  bytes : StringAt m a l
  ne_null : 0 < a.toNat
  fits : a.toNat + l.length < 4294967296

section Bytes

variable {m m' : Word → BitVec 8} {a : Word} {l u t v : List (BitVec 8)} {b : BitVec 8} {k : ℕ}

theorem add_ofNat_zero (a : Word) : a + BitVec.ofNat 32 0 = a := BitVec.add_zero a

theorem add_ofNat_succ (a : Word) (k : ℕ) :
    a + BitVec.ofNat 32 (k + 1) = a + 1 + BitVec.ofNat 32 k := by
  bv_omega

theorem add_ofNat_add (a : Word) (j k : ℕ) :
    a + BitVec.ofNat 32 (j + k) = a + BitVec.ofNat 32 j + BitVec.ofNat 32 k := by
  bv_omega

/-- What is left of a string behind some of its bytes. -/
theorem StringAt.drop (h : StringAt m a (u ++ v)) :
    StringAt m (a + BitVec.ofNat 32 u.length) v := by
  induction u generalizing a with
  | nil => exact (add_ofNat_zero a).symm ▸ h
  | cons b u ih =>
    rw [List.length_cons, add_ofNat_succ]
    exact ih h.2.2

/-- A byte of a string. -/
theorem StringAt.byte (h : StringAt m a l) (hb : l[k]? = some b) :
    m (a + BitVec.ofNat 32 k) = b ∧ b ≠ 0 := by
  induction l generalizing a k with
  | nil => cases hb
  | cons y l ih =>
    cases k with
    | zero =>
      cases hb
      rw [add_ofNat_zero]
      exact ⟨h.1, h.2.1⟩
    | succ k =>
      rw [add_ofNat_succ]
      exact ih h.2.2 hb

/-- The string at an address is determined. -/
theorem StringAt.unique (h : StringAt m a u) (h' : StringAt m a v) : u = v := by
  induction u generalizing a v with
  | nil =>
    cases v with
    | nil => rfl
    | cons b v => exact absurd (h'.1.symm.trans h) h'.2.1
  | cons b u ih =>
    cases v with
    | nil => exact absurd (h.1.symm.trans h') h.2.1
    | cons b' v => rw [h.1.symm.trans h'.1, ih h.2.2 h'.2.2]

/-- A string stays where it is when its bytes and its `NUL` do. -/
theorem StringAt.congr (h : StringAt m a l)
    (hsame : ∀ k ≤ l.length, m' (a + BitVec.ofNat 32 k) = m (a + BitVec.ofNat 32 k)) :
    StringAt m' a l := by
  induction l generalizing a with
  | nil =>
    have hnul := hsame 0 (Nat.le_refl 0)
    rw [add_ofNat_zero] at hnul
    exact hnul.trans h
  | cons b l ih =>
    have hbyte := hsame 0 (Nat.zero_le _)
    rw [add_ofNat_zero] at hbyte
    refine ⟨hbyte.trans h.1, h.2.1, ih h.2.2 fun k hk => ?_⟩
    rw [← add_ofNat_succ]
    exact hsame (k + 1) (Nat.succ_le_succ hk)

/-- A `NUL` in a string ends it. -/
theorem StringAt.cut (h : StringAt m a (t ++ v)) (hfits : a.toNat + t.length < 4294967296) :
    StringAt (Function.update m (a + BitVec.ofNat 32 t.length) 0) a t := by
  induction t generalizing a with
  | nil =>
    rw [List.length_nil, add_ofNat_zero]
    exact Function.update_self a 0 m
  | cons b t ih =>
    rw [List.length_cons] at hfits ⊢
    have hne : a ≠ a + BitVec.ofNat 32 (t.length + 1) := by bv_omega
    refine ⟨(Function.update_of_ne hne _ _).trans h.1, h.2.1, ?_⟩
    rw [add_ofNat_succ]
    apply ih h.2.2
    bv_omega

/-- The address of a place in a string. -/
theorem CString.toNat_add (h : CString m a l) (hk : k ≤ l.length) :
    (a + BitVec.ofNat 32 k).toNat = a.toNat + k := by
  have hfits := h.fits
  rw [BitVec.toNat_add, BitVec.toNat_ofNat]
  omega

/-- No place in a string is the null pointer. -/
theorem CString.add_ne_zero (h : CString m a l) (hk : k ≤ l.length) :
    a + BitVec.ofNat 32 k ≠ 0 := by
  intro hzero
  have hpos := h.ne_null
  have hnat := h.toNat_add hk
  rw [hzero] at hnat
  change 0 = a.toNat + k at hnat
  omega

/-- Different places in a string have different addresses. -/
theorem CString.add_inj (h : CString m a l) {j : ℕ} (hj : j ≤ l.length) (hk : k ≤ l.length)
    (heq : a + BitVec.ofNat 32 j = a + BitVec.ofNat 32 k) : j = k := by
  have hnat := congrArg BitVec.toNat heq
  rw [h.toNat_add hj, h.toNat_add hk] at hnat
  omega

/-- What is left of a string behind some of its bytes is one, too. -/
theorem CString.drop (h : CString m a (u ++ v)) :
    CString m (a + BitVec.ofNat 32 u.length) v := by
  have hpos := h.ne_null
  have hfits := h.fits
  have hnat := h.toNat_add (k := u.length) (by simp)
  rw [List.length_append] at hfits
  exact ⟨h.bytes.drop, by omega, by omega⟩

end Bytes

namespace Cpu

/-- One round of `repne scasb`. -/
theorem repeated_scasb_succ {c : Cpu} (hdf : c.df = false) (n : ℕ) :
    repeated scasb false (n + 1) c =
      if c.al = c.mem c.edi then { c with ecx := c.ecx - 1, edi := c.edi + 1, zf := true }
      else repeated scasb false n { c with ecx := c.ecx - 1, edi := c.edi + 1, zf := false } := by
  have hstep : scasb { c with ecx := c.ecx - 1 } =
      { c with ecx := c.ecx - 1, edi := c.edi + 1, zf := decide (c.al = c.mem c.edi) } := by
    rw [scasb, advance, if_neg (by simp [hdf])]
    rfl
  rw [repeated, hstep]
  by_cases hb : c.al = c.mem c.edi
  · rw [if_pos hb, if_neg (by simp [hb])]
    simp [hb]
  · rw [if_neg hb, if_pos (by simp [hb])]
    simp [hb]

/-- The scan for the end of a string. -/
theorem repeated_scasb_nul {c : Cpu} {l : List (BitVec 8)} {n : ℕ} (hdf : c.df = false)
    (hal : c.al = 0) (h : StringAt c.mem c.edi l) (hn : l.length < n) :
    ∃ edi, repeated scasb false n c =
      { c with ecx := c.ecx - BitVec.ofNat 32 (l.length + 1), edi := edi, zf := true } := by
  induction l generalizing c n with
  | nil =>
    obtain ⟨n, rfl⟩ : ∃ k, n = k + 1 := ⟨n - 1, by simp only [List.length_nil] at hn; omega⟩
    have hnul : c.mem c.edi = 0 := h
    refine ⟨c.edi + 1, ?_⟩
    rw [repeated_scasb_succ hdf, if_pos (by rw [hal, hnul])]
    rfl
  | cons b l ih =>
    obtain ⟨n, rfl⟩ : ∃ k, n = k + 1 := ⟨n - 1, by simp only [List.length_cons] at hn; omega⟩
    obtain ⟨hbyte, hne, hrest⟩ := h
    rw [repeated_scasb_succ hdf, if_neg (by rw [hal, hbyte]; exact hne.symm)]
    obtain ⟨edi, hedi⟩ := ih (c := { c with ecx := c.ecx - 1, edi := c.edi + 1, zf := false }) hdf
      hal hrest (Nat.lt_of_succ_lt_succ hn)
    refine ⟨edi, ?_⟩
    rw [hedi, List.length_cons]
    simp only [Cpu.mk.injEq, true_and, and_true]
    bv_omega

/-- `repne scasb` finds the end of a string. -/
theorem repneScasb_nul {c : Cpu} {l : List (BitVec 8)} (hdf : c.df = false) (hal : c.al = 0)
    (h : StringAt c.mem c.edi l) (hecx : l.length < c.ecx.toNat) :
    ∃ edi, c.repneScasb =
      { c with ecx := c.ecx - BitVec.ofNat 32 (l.length + 1), edi := edi, zf := true } :=
  repeated_scasb_nul hdf hal h hecx

/-- The search for a byte in a string. -/
theorem repeated_scasb_mem {c : Cpu} {l : List (BitVec 8)} (hdf : c.df = false)
    (hzf : c.zf = false) (h : StringAt c.mem c.edi l) :
    ∃ ecx edi, repeated scasb false l.length c =
      { c with ecx := ecx, edi := edi, zf := decide (c.al ∈ l) } := by
  induction l generalizing c with
  | nil => 
    refine ⟨c.ecx, c.edi, ?_⟩
    simp [repeated, ← hzf]
  | cons b l ih =>
    obtain ⟨hbyte, hne, hrest⟩ := h
    rw [List.length_cons, repeated_scasb_succ hdf]
    by_cases hb : c.al = b
    · rw [if_pos (by rw [hbyte, hb])]
      refine ⟨c.ecx - 1, c.edi + 1, ?_⟩
      simp [hb]
    · rw [if_neg (by rwa [hbyte])]
      obtain ⟨ecx, edi, heq⟩ := ih (c := { c with ecx := c.ecx - 1, edi := c.edi + 1, zf := false })
        hdf rfl hrest
      refine ⟨ecx, edi, ?_⟩
      have hmem : decide (c.al ∈ b :: l) = decide (c.al ∈ l) := by simp [hb]
      rw [heq, hmem]
      rfl

/-- `repne scasb` looks for a byte in a string. -/
theorem repneScasb_mem {c : Cpu} {l : List (BitVec 8)} (hdf : c.df = false)
    (hzf : c.zf = false) (h : StringAt c.mem c.edi l) (hecx : c.ecx.toNat = l.length) :
    ∃ ecx edi, c.repneScasb = { c with ecx := ecx, edi := edi, zf := decide (c.al ∈ l) } := by
  rw [repneScasb, hecx]
  exact repeated_scasb_mem hdf hzf h

/-- One round of `repe cmpsb`. -/
theorem repeated_cmpsb_succ {c : Cpu} (hdf : c.df = false) (n : ℕ) :
    repeated cmpsb true (n + 1) c =
      if c.mem c.esi = c.mem c.edi then
        repeated cmpsb true n
          { c with ecx := c.ecx - 1, esi := c.esi + 1, edi := c.edi + 1, zf := true }
      else { c with ecx := c.ecx - 1, esi := c.esi + 1, edi := c.edi + 1, zf := false } := by
  have hadvance : ∀ a, ({ c with ecx := c.ecx - 1 } : Cpu).advance a = a + 1 := by
    intro a
    rw [advance, if_neg (by simp [hdf])]
  have hstep : cmpsb { c with ecx := c.ecx - 1 } =
      { c with
        ecx := c.ecx - 1
        esi := c.esi + 1
        edi := c.edi + 1
        zf := decide (c.mem c.esi = c.mem c.edi) } := by
    rw [cmpsb, hadvance, hadvance]
  rw [repeated, hstep]
  by_cases hb : c.mem c.esi = c.mem c.edi
  · rw [if_pos hb, if_pos (by simp [hb])]
    simp [hb]
  · rw [if_neg hb, if_neg (by simp [hb])]
    simp [hb]

/-- The comparison of a string with the bytes of another one. If they differ, then the byte before
`%esi` is the one that differs. -/
theorem repeated_cmpsb {c : Cpu} {l d : List (BitVec 8)} (hdf : c.df = false)
    (hzf : d = [] → c.zf = true) (hl : StringAt c.mem c.esi l) (hd : StringAt c.mem c.edi d) :
    ∃ ecx esi edi, repeated cmpsb true d.length c =
        { c with ecx := ecx, esi := esi, edi := edi, zf := d.isPrefixOf l } ∧
      (d.isPrefixOf l = false → (c.mem (esi - 1) = 0 ↔ l <+: d)) := by
  induction d generalizing c l with
  | nil =>
    refine ⟨c.ecx, c.esi, c.edi, ?_, fun hbegins => absurd hbegins (by simp)⟩
    simp [repeated, ← hzf rfl]
  | cons b d ih =>
    obtain ⟨hbyte, hne, hrest⟩ := hd
    rw [List.length_cons, repeated_cmpsb_succ hdf]
    cases l with
    | nil =>
      have hnul : c.mem c.esi = 0 := hl
      rw [if_neg (by rw [hnul, hbyte]; exact hne.symm)]
      refine ⟨_, _, _, rfl, fun _ => ?_⟩
      rw [BitVec.add_sub_cancel, hnul]
      simp
    | cons x l =>
      obtain ⟨hbyte', hne', hrest'⟩ := hl
      by_cases hx : x = b
      · rw [if_pos (by rw [hbyte, hbyte', hx])]
        obtain ⟨ecx, esi, edi, heq, hdiffer⟩ := ih
          (c := { c with ecx := c.ecx - 1, esi := c.esi + 1, edi := c.edi + 1, zf := true })
          (l := l) hdf (fun _ => rfl) hrest' hrest
        have hsame : (b :: d).isPrefixOf (x :: l) = d.isPrefixOf l := by simp [hx]
        rw [hsame, heq, hx, List.cons_prefix_cons]
        refine ⟨ecx, esi, edi, rfl, fun hbegins => ?_⟩
        rw [hdiffer hbegins]
        simp
      · rw [if_neg (by rw [hbyte, hbyte']; exact hx)]
        have hsame : (b :: d).isPrefixOf (x :: l) = false := by
          rw [List.isPrefixOf, beq_eq_false_iff_ne.mpr (Ne.symm hx), Bool.false_and]
        rw [hsame]
        refine ⟨_, _, _, rfl, fun _ => ?_⟩
        rw [BitVec.add_sub_cancel, hbyte', List.cons_prefix_cons]
        exact ⟨fun hzero => absurd hzero hne', fun hbegins => absurd hbegins.1 hx⟩

/-- `repe cmpsb` compares a string with the bytes of another one. -/
theorem repeCmpsb_eq {c : Cpu} {l d : List (BitVec 8)} (hdf : c.df = false)
    (hzf : d = [] → c.zf = true) (hl : StringAt c.mem c.esi l) (hd : StringAt c.mem c.edi d)
    (hecx : c.ecx.toNat = d.length) :
    ∃ ecx esi edi, c.repeCmpsb =
        { c with ecx := ecx, esi := esi, edi := edi, zf := d.isPrefixOf l } ∧
      (d.isPrefixOf l = false → (c.mem (esi - 1) = 0 ↔ l <+: d)) := by
  rw [repeCmpsb, hecx]
  exact repeated_cmpsb hdf hzf hl hd

/-- A byte is loaded and compared with `NUL`. -/
theorem testAl_lodsb {c : Cpu} (hdf : c.df = false) :
    ∃ eax, c.lodsb.testAl =
        { c with eax := eax, esi := c.esi + 1, zf := decide (c.mem c.esi = 0) } ∧
      c.lodsb.testAl.al = c.mem c.esi := by
  have hal := c.al_lodsb
  refine ⟨c.lodsb.eax, ?_, hal⟩
  rw [testAl, hal, lodsb, advance, if_neg (by simp [hdf])]

end Cpu

end LihaLinux
