import LihaLinux.Lib.Processor

/-!
# strspn, strcspn, strpbrk and strstr

The scanners of `string.h`, instruction by instruction: a conditional jump is a test of the zero
flag, and a loop has a number of rounds. `%4` is the parameter `ct`.
-/

namespace LihaLinux.Strings

/-- The registers that the constraints set. -/
def enter (cs : Word) (c : Cpu) : Cpu := { c with eax := 0, ecx := 0xffffffff, esi := cs }

/-- From `cld` to `decl %ecx`: `%ecx` becomes the length of `ct`. -/
def countLength (ct : Word) (c : Cpu) : Cpu :=
  let c := c.cld
  let c := { c with edi := ct }
  c.repneScasb.notEcx.decEcx

/-- The instructions before the label 1, where `%edx` keeps the length. -/
def countChars (ct : Word) (c : Cpu) : Cpu :=
  let c := countLength ct c
  { c with edx := c.ecx }

/-- `movl %4,%edi`, `movl %edx,%ecx`, `repne` and `scasb`. -/
def scanChars (ct : Word) (c : Cpu) : Cpu := ({ c with edi := ct, ecx := c.edx } : Cpu).repneScasb

/-- The loop at the label 1, which goes on as long as the last jump finds a value of the zero flag:
the state after it, and whether it has ended with the jump at the `NUL`. -/
def scanLoop (ct : Word) (flag : Bool) : ℕ → Cpu → Option (Cpu × Bool)
  | 0, _ => none
  | n + 1, c =>
    let c := c.lodsb.testAl
    if c.zf then some (c, true)
    else
      let c := scanChars ct c
      if c.zf = flag then scanLoop ct flag n c else some (c, false)

/-- `strspn`. -/
def strspn (n : ℕ) (cs ct : Word) (c : Cpu) : Option Word :=
  (scanLoop ct true n (countChars ct (enter cs c))).map fun r => r.1.decEsi.esi - cs

/-- `strcspn`. -/
def strcspn (n : ℕ) (cs ct : Word) (c : Cpu) : Option Word :=
  (scanLoop ct false n (countChars ct (enter cs c))).map fun r => r.1.decEsi.esi - cs

/-- `strpbrk`. -/
def strpbrk (n : ℕ) (cs ct : Word) (c : Cpu) : Option Word :=
  (scanLoop ct false n (countChars ct (enter cs c))).map fun r =>
    if r.2 then 0 else r.1.decEsi.esi

/-- The loop at the label 1 of `strstr`: `%eax` after it. -/
def strstrLoop (ct : Word) : ℕ → Cpu → Option Word
  | 0, _ => none
  | n + 1, c =>
    let c := ({ c with edi := ct, eax := c.esi, ecx := c.edx } : Cpu).repeCmpsb
    if c.zf then some c.eax
    else
      let c := ({ c with eax := c.esi, esi := c.eax } : Cpu).incEsi
      let c := c.cmpZero (c.eax - 1)
      if c.zf then some 0 else strstrLoop ct n c

/-- `strstr`. -/
def strstr (n : ℕ) (cs ct : Word) (c : Cpu) : Option Word :=
  strstrLoop ct n (countChars ct (enter cs c))

/-! ### The beginning -/

section

variable {c : Cpu} {cs ct : Word} {l d : List (BitVec 8)}

/-- The length of `ct` is counted, and the zero flag says whether it is empty. -/
theorem countLength_eq (hal : c.al = 0) (hecx : c.ecx = 0xffffffff) (h : CString c.mem ct d) :
    ∃ edi, countLength ct c =
      { c with
        ecx := BitVec.ofNat 32 d.length
        edi := edi
        zf := d.isEmpty
        df := false } := by
  have hpos := h.ne_null
  have hfits := h.fits
  have hmax : (0xffffffff : Word).toNat = 4294967295 := rfl
  have hcount : d.length < c.ecx.toNat := by
    rw [hecx, hmax]
    omega
  obtain ⟨edi, hscan⟩ := Cpu.repneScasb_nul (c := { c.cld with edi := ct }) rfl hal h.bytes hcount
  have hlen : ~~~((0xffffffff : Word) - BitVec.ofNat 32 (d.length + 1)) - 1 =
      BitVec.ofNat 32 d.length := by
    bv_omega
  have hzero : decide (BitVec.ofNat 32 d.length = 0) = d.isEmpty := by
    cases d with
    | nil => rfl
    | cons b d =>
      rw [List.isEmpty_cons, decide_eq_false_iff_not]
      intro heq
      have hnat := congrArg BitVec.toNat heq
      rw [BitVec.toNat_ofNat, Nat.mod_eq_of_lt (by omega)] at hnat
      cases hnat
  refine ⟨edi, ?_⟩
  rw [countLength, hscan]
  simp only [Cpu.notEcx, Cpu.decEcx, Cpu.cld, hecx, hlen, hzero]

/-- The state at the label 1: `%edx` has the length of `ct`, and `%esi` points to what is left of
`cs`. -/
structure AtLoop (c : Cpu) (ct : Word) (d l : List (BitVec 8)) : Prop where
  forward : c.df = false
  ct : CString c.mem ct d
  edx : c.edx = BitVec.ofNat 32 d.length
  rest : StringAt c.mem c.esi l

/-- The length of `ct` as the count of a repeated instruction. -/
theorem AtLoop.toNat_edx (h : AtLoop c ct d l) : c.edx.toNat = d.length := by
  have hfits := h.ct.fits
  rw [h.edx, BitVec.toNat_ofNat]
  omega

/-- After the beginning the loop is at the first character. -/
theorem atLoop_countChars (hcs : StringAt c.mem cs l) (hct : CString c.mem ct d) :
    AtLoop (countChars ct (enter cs c)) ct d l ∧ (countChars ct (enter cs c)).esi = cs ∧
      (countChars ct (enter cs c)).zf = d.isEmpty := by
  obtain ⟨edi, heq⟩ := countLength_eq (c := enter cs c) rfl rfl hct
  rw [countChars, heq]
  exact ⟨⟨rfl, hct, rfl, hcs⟩, rfl, rfl⟩

/-- A character is looked up in `ct`. -/
theorem scanChars_eq (h : AtLoop c ct d l) (hzf : c.zf = false) :
    ∃ ecx edi, scanChars ct c =
      { c with ecx := ecx, edi := edi, zf := decide (c.al ∈ d) } := by
  obtain ⟨ecx, edi, heq⟩ := Cpu.repneScasb_mem (c := { c with edi := ct, ecx := c.edx }) h.forward
    hzf h.ct.bytes h.toNat_edx
  exact ⟨ecx, edi, heq⟩

/-- The `NUL` is loaded. -/
theorem testAl_nul (h : AtLoop c ct d []) :
    ∃ eax, c.lodsb.testAl = { c with eax := eax, esi := c.esi + 1, zf := true } := by
  obtain ⟨eax, heq, -⟩ := Cpu.testAl_lodsb h.forward
  have hnul : c.mem c.esi = 0 := h.rest
  refine ⟨eax, ?_⟩
  rw [heq, decide_eq_true hnul]

/-- A character is loaded, which is not the `NUL`, and looked up in `ct`. -/
theorem scanChars_lodsb {b : BitVec 8} (h : AtLoop c ct d (b :: l)) :
    c.lodsb.testAl.zf = false ∧ ∃ eax ecx edi, scanChars ct c.lodsb.testAl =
      { c with
        eax := eax
        ecx := ecx
        edi := edi
        esi := c.esi + 1
        zf := decide (b ∈ d) } := by
  obtain ⟨hbyte, hne, hrest⟩ := h.rest
  obtain ⟨eax, heq, hal⟩ := Cpu.testAl_lodsb h.forward
  generalize c.lodsb.testAl = c₁ at heq hal
  have hzf : c₁.zf = false := by
    rw [heq, hbyte]
    exact decide_eq_false hne
  have hloop : AtLoop c₁ ct d l := by
    rw [heq]
    exact ⟨h.forward, h.ct, h.edx, hrest⟩
  obtain ⟨ecx, edi, hscan⟩ := scanChars_eq hloop hzf
  rw [hal, hbyte] at hscan
  refine ⟨hzf, eax, ecx, edi, ?_⟩
  rw [hscan, heq]

/-- The characters that the loop passes. -/
def passed (flag : Bool) (d l : List (BitVec 8)) : List (BitVec 8) :=
  l.takeWhile fun b => decide (b ∈ d) = flag

/-- The loop ends behind the first character that it does not pass, or behind the `NUL`. -/
theorem scanLoop_spec (flag : Bool) {n : ℕ} (h : AtLoop c ct d l) (hn : l.length < n) :
    ∃ c', scanLoop ct flag n c = some (c', decide ((passed flag d l).length = l.length)) ∧
      c'.esi = c.esi + BitVec.ofNat 32 ((passed flag d l).length + 1) := by
  induction l generalizing c n with
  | nil =>
    obtain ⟨n, rfl⟩ : ∃ k, n = k + 1 := ⟨n - 1, by simp only [List.length_nil] at hn; omega⟩
    obtain ⟨eax, heq⟩ := testAl_nul h
    refine ⟨c.lodsb.testAl, ?_, ?_⟩
    · rw [scanLoop, heq]
      simp [passed]
    · rw [heq]
      rfl
  | cons b l ih =>
    obtain ⟨n, rfl⟩ : ∃ k, n = k + 1 := ⟨n - 1, by simp only [List.length_cons] at hn; omega⟩
    obtain ⟨hzf, eax, ecx, edi, hscan⟩ := scanChars_lodsb h
    rw [scanLoop]
    generalize c.lodsb.testAl = c₁ at hzf hscan
    rw [if_neg (by rw [hzf]; exact Bool.false_ne_true), hscan]
    by_cases hflag : decide (b ∈ d) = flag
    · rw [if_pos hflag]
      obtain ⟨c', hresult, hend⟩ := ih
        (c := { c with eax, ecx, edi, esi := c.esi + 1, zf := decide (b ∈ d) })
        ⟨h.forward, h.ct, h.edx, h.rest.2.2⟩ (Nat.lt_of_succ_lt_succ hn)
      have hpassed : passed flag d (b :: l) = b :: passed flag d l :=
        List.takeWhile_cons_of_pos (by simpa using hflag)
      refine ⟨c', ?_, ?_⟩
      · rw [hresult, hpassed]
        simp
      · rw [hend, hpassed, List.length_cons]
        bv_omega
    · rw [if_neg hflag]
      have hpassed : passed flag d (b :: l) = [] :=
        List.takeWhile_cons_of_neg (by simpa using hflag)
      have hlast : decide ((passed flag d (b :: l)).length = (b :: l).length) = false := by
        rw [hpassed]
        rfl
      refine ⟨_, by rw [hlast], ?_⟩
      rw [hpassed]
      rfl

/-- The position behind which the loop ends. -/
theorem decEsi_esi {c' : Cpu} {k : ℕ} (h : c'.esi = cs + BitVec.ofNat 32 (k + 1)) :
    c'.decEsi.esi = cs + BitVec.ofNat 32 k := by
  change c'.esi - 1 = _
  rw [h]
  bv_omega

theorem sub_start (k : ℕ) : cs + BitVec.ofNat 32 k - cs = BitVec.ofNat 32 k := by
  bv_omega

theorem passed_true (d l : List (BitVec 8)) : passed true d l = l.takeWhile fun b => b ∈ d := by
  simp [passed]

theorem passed_false (d l : List (BitVec 8)) : passed false d l = l.takeWhile fun b => b ∉ d := by
  simp [passed]

/-- The first character with a property comes behind the ones without it. -/
theorem findIdx?_eq_takeWhile (d l : List (BitVec 8)) :
    (l.findIdx? fun b => b ∈ d) =
      if (passed false d l).length = l.length then none else some (passed false d l).length := by
  rw [passed_false]
  induction l with
  | nil => rfl
  | cons b l ih =>
    rw [List.findIdx?_cons, ih]
    by_cases hb : b ∈ d
    · simp [hb]
    · rw [if_neg (by simpa using hb), List.takeWhile_cons_of_pos (by simpa using hb),
        List.length_cons, List.length_cons]
      by_cases hlen : (l.takeWhile fun b => b ∉ d).length = l.length
      · rw [if_pos hlen, if_pos (congrArg Nat.succ hlen)]
        rfl
      · rw [if_neg hlen, if_neg fun h => hlen (Nat.succ.inj h)]
        rfl

/-- `strspn` counts the characters of `cs` before the first one that is not in `ct`. -/
theorem strspn_eq (hcs : StringAt c.mem cs l) (hct : CString c.mem ct d) {n : ℕ}
    (hn : l.length < n) :
    strspn n cs ct c = some (BitVec.ofNat 32 (l.takeWhile fun b => b ∈ d).length) := by
  obtain ⟨hloop, hesi, -⟩ := atLoop_countChars hcs hct
  obtain ⟨c', hresult, hend⟩ := scanLoop_spec true hloop hn
  rw [hesi] at hend
  rw [strspn, hresult, Option.map_some, decEsi_esi hend, sub_start, passed_true]

/-- `strcspn` counts the characters of `cs` before the first one that is in `ct`. -/
theorem strcspn_eq (hcs : StringAt c.mem cs l) (hct : CString c.mem ct d) {n : ℕ}
    (hn : l.length < n) :
    strcspn n cs ct c = some (BitVec.ofNat 32 (l.takeWhile fun b => b ∉ d).length) := by
  obtain ⟨hloop, hesi, -⟩ := atLoop_countChars hcs hct
  obtain ⟨c', hresult, hend⟩ := scanLoop_spec false hloop hn
  rw [hesi] at hend
  rw [strcspn, hresult, Option.map_some, decEsi_esi hend, sub_start, passed_false]

/-- `strpbrk` finds the first character of `cs` that is in `ct`. -/
theorem strpbrk_eq (hcs : StringAt c.mem cs l) (hct : CString c.mem ct d) {n : ℕ}
    (hn : l.length < n) :
    strpbrk n cs ct c =
      some ((l.findIdx? fun b => b ∈ d).elim 0 fun k => cs + BitVec.ofNat 32 k) := by
  obtain ⟨hloop, hesi, -⟩ := atLoop_countChars hcs hct
  obtain ⟨c', hresult, hend⟩ := scanLoop_spec false hloop hn
  rw [hesi] at hend
  rw [strpbrk, hresult, Option.map_some, decEsi_esi hend, findIdx?_eq_takeWhile]
  by_cases hall : (passed false d l).length = l.length
  · rw [if_pos hall, if_pos (decide_eq_true hall)]
    rfl
  · rw [if_neg hall, if_neg (by simpa using hall)]
    rfl

/-! ### strstr -/

/-- A string that is left over before the end of `ct` does not have `ct` any more. -/
theorem findIdx?_tails_eq_none (hbegins : l <+: d) (hne : d.isPrefixOf l = false) :
    (l.tails.findIdx? fun t => d.isPrefixOf t) = none := by
  rw [List.findIdx?_eq_none_iff]
  intro t ht
  by_contra hfound
  have hdt : d <+: t := List.isPrefixOf_iff_prefix.mp (by simpa using hfound)
  have htl : t.length ≤ l.length := ((List.mem_tails t l).mp ht).length_le
  have hld : l = d := hbegins.eq_of_length_le (hdt.length_le.trans htl)
  rw [hld, List.isPrefixOf_iff_prefix.mpr (List.prefix_refl d)] at hne
  cases hne

/-- One round of the loop of `strstr`: it ends where `ct` begins, or at the end of `cs`, or goes on
with the next character. -/
theorem strstrLoop_succ (h : AtLoop c ct d l) (hzf : d = [] → c.zf = true) (n : ℕ) :
    (d.isPrefixOf l = true → strstrLoop ct (n + 1) c = some c.esi) ∧
      (d.isPrefixOf l = false → l <+: d → strstrLoop ct (n + 1) c = some 0) ∧
      (d.isPrefixOf l = false → ¬l <+: d → ∃ c', strstrLoop ct (n + 1) c = strstrLoop ct n c' ∧
        c'.esi = c.esi + 1 ∧ c'.mem = c.mem ∧ c'.edx = c.edx ∧ c'.df = c.df) := by
  obtain ⟨ecx, esi, edi, hcmp, hdiffer⟩ := Cpu.repeCmpsb_eq
    (c := { c with edi := ct, eax := c.esi, ecx := c.edx }) h.forward hzf h.rest h.ct.bytes
    h.toNat_edx
  rw [strstrLoop, hcmp]
  refine ⟨fun hbegins => ?_, fun hbegins hend => ?_, fun hbegins hend => ?_⟩
  · rw [if_pos hbegins]
  · have hnul : c.mem (esi - 1) = 0 := (hdiffer hbegins).mpr hend
    rw [if_neg (by simp [hbegins])]
    exact if_pos (decide_eq_true hnul)
  · have hne : c.mem (esi - 1) ≠ 0 := mt (hdiffer hbegins).mp hend
    rw [if_neg (by simp [hbegins])]
    have hzf : decide (c.mem (esi - 1) = 0) = false := decide_eq_false hne
    exact ⟨_, if_neg (Bool.eq_false_iff.mp hzf), rfl, rfl, rfl, rfl⟩

/-- The loop of `strstr` finds the first place where `ct` occurs in what is left of `cs`. -/
theorem strstrLoop_spec {n : ℕ} (h : AtLoop c ct d l) (hzf : d = [] → c.zf = true)
    (hn : l.length < n) :
    strstrLoop ct n c =
      some ((l.tails.findIdx? fun t => d.isPrefixOf t).elim 0 fun k =>
        c.esi + BitVec.ofNat 32 k) := by
  induction l generalizing c n with
  | nil =>
    obtain ⟨n, rfl⟩ : ∃ k, n = k + 1 := ⟨n - 1, by simp only [List.length_nil] at hn; omega⟩
    obtain ⟨hfound, hend, -⟩ := strstrLoop_succ h hzf n
    cases hbegins : d.isPrefixOf [] with
    | true =>
      rw [hfound hbegins]
      simp [hbegins]
    | false =>
      rw [hend hbegins List.nil_prefix, findIdx?_tails_eq_none List.nil_prefix hbegins]
      rfl
  | cons x l ih =>
    obtain ⟨n, rfl⟩ : ∃ k, n = k + 1 := ⟨n - 1, by simp only [List.length_cons] at hn; omega⟩
    obtain ⟨hfound, hend, hnext⟩ := strstrLoop_succ h hzf n
    cases hbegins : d.isPrefixOf (x :: l) with
    | true =>
      rw [hfound hbegins]
      simp [hbegins, List.findIdx?_cons]
    | false =>
      by_cases hover : (x :: l) <+: d
      · rw [hend hbegins hover, findIdx?_tails_eq_none hover hbegins]
        rfl
      · obtain ⟨c', hstep, hesi, hmem, hedx, hdf⟩ := hnext hbegins hover
        have hrest : StringAt c'.mem c'.esi l := by
          rw [hmem, hesi]
          exact h.rest.2.2
        have hne : d = [] → c'.zf = true := by
          intro hd
          rw [hd] at hbegins
          cases hbegins
        rw [hstep, ih ⟨hdf.trans h.forward, hmem ▸ h.ct, hedx.trans h.edx, hrest⟩ hne
          (Nat.lt_of_succ_lt_succ hn), List.tails_cons, List.findIdx?_cons, hbegins, hesi]
        cases l.tails.findIdx? fun t => d.isPrefixOf t with
        | none => rfl
        | some k =>
          refine congrArg some ?_
          change c.esi + 1 + BitVec.ofNat 32 k = c.esi + BitVec.ofNat 32 (k + 1)
          bv_omega

/-- `strstr` finds the first place where `ct` occurs in `cs`. -/
theorem strstr_eq (hcs : StringAt c.mem cs l) (hct : CString c.mem ct d) {n : ℕ}
    (hn : l.length < n) :
    strstr n cs ct c =
      some ((l.tails.findIdx? fun t => d.isPrefixOf t).elim 0 fun k =>
        cs + BitVec.ofNat 32 k) := by
  obtain ⟨hloop, hesi, hzf⟩ := atLoop_countChars hcs hct
  have hempty : d = [] → (countChars ct (enter cs c)).zf = true := by
    intro hd
    rw [hzf, hd]
    rfl
  rw [strstr, strstrLoop_spec hloop hempty hn, hesi]

/-- For all strings the scanners end. `strspn` returns the length of the longest prefix of `cs` that
has only characters of `ct`, `strcspn` the length of the longest one without them, `strpbrk` the
first place with a character of `ct`, and `strstr` the first place where `ct` occurs. -/
theorem scanners_correct (hcs : CString c.mem cs l) (hct : CString c.mem ct d) (n : ℕ) :
    (strspn (n + l.length + 1) cs ct c).map BitVec.toNat =
        some (l.takeWhile fun b => b ∈ d).length ∧
      (strcspn (n + l.length + 1) cs ct c).map BitVec.toNat =
        some (l.takeWhile fun b => b ∉ d).length ∧
      strpbrk (n + l.length + 1) cs ct c =
        some ((l.findIdx? fun b => b ∈ d).elim 0 fun k => cs + BitVec.ofNat 32 k) ∧
      strstr (n + l.length + 1) cs ct c =
        some ((l.tails.findIdx? fun t => d.isPrefixOf t).elim 0 fun k =>
          cs + BitVec.ofNat 32 k) := by
  have hfits := hcs.fits
  have hn : l.length < n + l.length + 1 := by omega
  have htoNat : ∀ p : BitVec 8 → Bool,
      (BitVec.ofNat 32 (l.takeWhile p).length).toNat = (l.takeWhile p).length := by
    intro p
    have hle := (List.takeWhile_prefix (l := l) p).length_le
    rw [BitVec.toNat_ofNat]
    omega
  rw [strspn_eq hcs.bytes hct hn, strcspn_eq hcs.bytes hct hn, strpbrk_eq hcs.bytes hct hn,
    strstr_eq hcs.bytes hct hn, Option.map_some, Option.map_some, htoNat, htoNat]
  exact ⟨rfl, rfl, rfl, rfl⟩

end

/-- Memory with "abc" at 16 and "cb" at 32. -/
def sampleMem (a : Word) : BitVec 8 :=
  if a = 16 then 97 else if a = 17 then 98 else if a = 18 then 99
  else if a = 32 then 99 else if a = 33 then 98 else 0

/-- "abc" is scanned for "cb": there is a character of it behind the first one, and it does not
occur. -/
theorem scanners_correct_sample :
    (strcspn 5 16 32 ⟨0, 0, 0, 0, 0, 0, false, true, sampleMem, []⟩).map BitVec.toNat = some 1 ∧
      strstr 5 16 32 ⟨0, 0, 0, 0, 0, 0, false, true, sampleMem, []⟩ = some 0 := by
  have hcs : CString sampleMem 16 [97, 98, 99] :=
    ⟨by simp [StringAt, sampleMem], by decide, by decide⟩
  have hct : CString sampleMem 32 [99, 98] :=
    ⟨by simp [StringAt, sampleMem], by decide, by decide⟩
  obtain ⟨-, hstrcspn, -, hstrstr⟩ := scanners_correct
    (c := ⟨0, 0, 0, 0, 0, 0, false, true, sampleMem, []⟩) hcs hct 1
  exact ⟨hstrcspn, hstrstr⟩

end LihaLinux.Strings
