import LihaLinux.Strings.Scanners

/-!
# strtok

`strtok` of `string.h`, instruction by instruction, and the sequence of its calls for one string.
`%0` is `%ebx`, the result, which enters with `___strtok`; `%1` is `%esi`, which enters with `s` and
leaves as `___strtok`; `%4` is `ct`.
-/

namespace LihaLinux.Strings

/-- From the label 7 on. -/
def strtok7 (c : Cpu) : Cpu :=
  let c := c.testl c.ebx
  if c.zf then { c with esi := c.ebx } else c

/-- From the label 6 on. -/
def strtok6 (c : Cpu) : Cpu :=
  let c := c.cmpZero c.ebx
  if c.zf then strtok7 { c with ebx := 0, zf := true } else strtok7 c

/-- From the label 5 on. -/
def strtok5 (c : Cpu) : Cpu := strtok6 { c with esi := 0, zf := true }

/-- The loop at the label 3, which looks for the end of a token. -/
def strtok3 (ct : Word) : ℕ → Cpu → Option Cpu
  | 0, _ => none
  | n + 1, c =>
    let c := c.lodsb.testAl
    if c.zf then some (strtok5 c)
    else
      let c := scanChars ct c
      if c.zf then
        let c := c.decEsi
        let c := c.cmpZero c.esi
        if c.zf then some (strtok5 c) else some (strtok6 (c.storeZero c.esi).incEsi)
      else strtok3 ct n c

/-- The loop at the label 2, which looks for the beginning of a token, with the rounds that the loop
at the label 3 has. -/
def strtok2 (ct : Word) (m : ℕ) : ℕ → Cpu → Option Cpu
  | 0, _ => none
  | n + 1, c =>
    let c := c.lodsb.testAl
    if c.zf then some (strtok7 c)
    else
      let c := scanChars ct c
      if c.zf then strtok2 ct m n c
      else
        let c := c.decEsi
        let c := c.cmpZero c.esi
        if c.zf then some (strtok7 c) else strtok3 ct m { c with ebx := c.esi }

/-- From the label 1 on. -/
def strtok1 (ct : Word) (n : ℕ) (c : Cpu) : Option Cpu :=
  let c := countLength ct { c with ebx := 0, ecx := 0xffffffff, eax := 0 }
  if c.zf then some (strtok7 c) else strtok2 ct n n { c with edx := c.ecx }

/-- `strtok`, for a number of rounds of its loops. -/
def strtok (n : ℕ) (s ct old : Word) (c : Cpu) : Option Cpu :=
  let c := ({ c with ebx := old, esi := s } : Cpu).testl s
  if c.zf then
    let c := c.testl c.ebx
    if c.zf then some c else strtok1 ct n { c with esi := c.ebx }
  else strtok1 ct n c

/-! ### The exits -/

/-- What a call leaves: the result, `___strtok`, and memory with the addresses stored to. -/
structure Outcome where
  result : Word
  saved : Word
  mem : Word → BitVec 8
  stored : List Word

/-- The outcome of a call that ends in a state. -/
def outcome (c : Cpu) : Outcome := ⟨c.ebx, c.esi, c.mem, c.stored⟩

/-- Without a result `___strtok` is cleared. -/
theorem outcome_strtok7_zero {c : Cpu} (h : c.ebx = 0) :
    outcome (strtok7 c) = ⟨0, 0, c.mem, c.stored⟩ := by
  have hzf : (c.testl c.ebx).zf = true := decide_eq_true h
  rw [strtok7, if_pos hzf, ← h]
  rfl

/-- With a result `___strtok` stays as it is. -/
theorem outcome_strtok7 {c : Cpu} (h : c.ebx ≠ 0) : outcome (strtok7 c) = outcome c := by
  have hzf : (c.testl c.ebx).zf = false := decide_eq_false h
  rw [strtok7, if_neg (Bool.eq_false_iff.mp hzf)]
  rfl

/-- A token that is not empty is a result. -/
theorem outcome_strtok6 {c : Cpu} (h : c.ebx ≠ 0) (hbyte : c.mem c.ebx ≠ 0) :
    outcome (strtok6 c) = outcome c := by
  have hzf : (c.cmpZero c.ebx).zf = false := decide_eq_false hbyte
  rw [strtok6, if_neg (Bool.eq_false_iff.mp hzf)]
  exact outcome_strtok7 h

/-- The character that has been loaded last is not the `NUL`. -/
theorem cmpZero_decEsi {c : Cpu} {a : Word} (h : c.esi = a + 1) (hbyte : c.mem a ≠ 0) :
    c.decEsi.cmpZero c.decEsi.esi = { c with esi := a, zf := false } := by
  have hback : c.esi - 1 = a := by
    rw [h]
    exact BitVec.add_sub_cancel a 1
  have hzf : decide (c.mem (c.esi - 1) = 0) = false := by
    rw [hback]
    exact decide_eq_false hbyte
  change ({ c with esi := c.esi - 1, zf := decide (c.mem (c.esi - 1) = 0) } : Cpu) = _
  rw [hzf, hback]

/-! ### The loops -/

section

variable {c : Cpu} {ct : Word} {l d u t v : List (BitVec 8)} {b x : BitVec 8} {m n : ℕ}

/-- A delimiter before a token is passed. -/
theorem strtok2_delim (h : AtLoop c ct d (b :: l)) (hb : b ∈ d) :
    ∃ c', strtok2 ct m (n + 1) c = strtok2 ct m n c' ∧ AtLoop c' ct d l ∧
      c'.esi = c.esi + 1 ∧ c'.ebx = c.ebx ∧ c'.mem = c.mem ∧ c'.stored = c.stored := by
  obtain ⟨hzf, eax, ecx, edi, hscan⟩ := scanChars_lodsb h
  refine ⟨{ c with eax, ecx, edi, esi := c.esi + 1, zf := true }, ?_,
    ⟨h.forward, h.ct, h.edx, h.rest.2.2⟩, rfl, rfl, rfl, rfl⟩
  rw [strtok2]
  generalize c.lodsb.testAl = c₁ at hzf hscan
  rw [if_neg (Bool.eq_false_iff.mp hzf), hscan, decide_eq_true hb]
  rfl

/-- The first character of a token ends the loop. -/
theorem strtok2_start (h : AtLoop c ct d (b :: l)) (hb : b ∉ d) :
    ∃ c', strtok2 ct m (n + 1) c = strtok3 ct m c' ∧ AtLoop c' ct d (b :: l) ∧
      c'.esi = c.esi ∧ c'.ebx = c.esi ∧ c'.mem = c.mem ∧ c'.stored = c.stored := by
  obtain ⟨hzf, eax, ecx, edi, hscan⟩ := scanChars_lodsb h
  have hnul : c.mem c.esi ≠ 0 := h.rest.1 ▸ h.rest.2.1
  refine ⟨{ c with eax, ecx, edi, ebx := c.esi, zf := false }, ?_,
    ⟨h.forward, h.ct, h.edx, h.rest⟩, rfl, rfl, rfl, rfl⟩
  rw [strtok2]
  generalize c.lodsb.testAl = c₁ at hzf hscan
  rw [if_neg (Bool.eq_false_iff.mp hzf), hscan, decide_eq_false hb]
  dsimp only
  rw [if_neg Bool.false_ne_true, cmpZero_decEsi
    (c := { c with eax, ecx, edi, esi := c.esi + 1, zf := false }) rfl hnul]
  rfl

/-- A string that has only delimiters has no token. -/
theorem strtok2_none (h : AtLoop c ct d l) (hl : ∀ b ∈ l, b ∈ d) (hebx : c.ebx = 0)
    (hn : l.length < n) :
    (strtok2 ct m n c).map outcome = some ⟨0, 0, c.mem, c.stored⟩ := by
  induction l generalizing c n with
  | nil =>
    obtain ⟨n, rfl⟩ : ∃ k, n = k + 1 := ⟨n - 1, by simp only [List.length_nil] at hn; omega⟩
    obtain ⟨eax, heq⟩ := testAl_nul h
    rw [strtok2, heq, if_pos rfl, Option.map_some]
    exact congrArg some (outcome_strtok7_zero hebx)
  | cons b l ih =>
    obtain ⟨n, rfl⟩ : ∃ k, n = k + 1 := ⟨n - 1, by simp only [List.length_cons] at hn; omega⟩
    obtain ⟨c', hstep, hloop, -, hebx', hmem, hstored⟩ :=
      strtok2_delim (m := m) (n := n) h (hl b List.mem_cons_self)
    rw [hstep, ← hmem, ← hstored]
    exact ih hloop (fun y hy => hl y (List.mem_cons_of_mem b hy)) (hebx'.trans hebx)
      (Nat.lt_of_succ_lt_succ hn)

/-- The delimiters before a token are passed. -/
theorem strtok2_token (h : AtLoop c ct d (u ++ l)) (hu : ∀ b ∈ u, b ∈ d)
    (hl : ∃ b ∈ l.head?, b ∉ d) (hn : u.length < n) :
    ∃ c', strtok2 ct m n c = strtok3 ct m c' ∧ AtLoop c' ct d l ∧
      c'.esi = c.esi + BitVec.ofNat 32 u.length ∧
      c'.ebx = c.esi + BitVec.ofNat 32 u.length ∧ c'.mem = c.mem ∧ c'.stored = c.stored := by
  induction u generalizing c n with
  | nil =>
    obtain ⟨n, rfl⟩ : ∃ k, n = k + 1 := ⟨n - 1, by simp only [List.length_nil] at hn; omega⟩
    obtain ⟨b, hhead, hb⟩ := hl
    obtain ⟨l, rfl⟩ := List.head?_eq_some_iff.mp hhead
    have hzero : c.esi + BitVec.ofNat 32 ([] : List (BitVec 8)).length = c.esi :=
      BitVec.add_zero c.esi
    rw [hzero]
    exact strtok2_start h hb
  | cons b u ih =>
    obtain ⟨n, rfl⟩ : ∃ k, n = k + 1 := ⟨n - 1, by simp only [List.length_cons] at hn; omega⟩
    obtain ⟨c₁, hstep, hloop, hesi, hebx, hmem, hstored⟩ :=
      strtok2_delim (m := m) (n := n) h (hu b List.mem_cons_self)
    obtain ⟨c', hrest, hloop', hesi', hebx', hmem', hstored'⟩ :=
      ih hloop (fun y hy => hu y (List.mem_cons_of_mem b hy)) (Nat.lt_of_succ_lt_succ hn)
    have hshift : c₁.esi + BitVec.ofNat 32 u.length =
        c.esi + BitVec.ofNat 32 (b :: u).length := by
      rw [hesi, List.length_cons]
      bv_omega
    exact ⟨c', hstep.trans hrest, hloop', hesi'.trans hshift, hebx'.trans hshift,
      hmem'.trans hmem, hstored'.trans hstored⟩

/-- A character of a token is passed. -/
theorem strtok3_char (h : AtLoop c ct d (b :: l)) (hb : b ∉ d) :
    ∃ c', strtok3 ct (n + 1) c = strtok3 ct n c' ∧ AtLoop c' ct d l ∧
      c'.esi = c.esi + 1 ∧ c'.ebx = c.ebx ∧ c'.mem = c.mem ∧ c'.stored = c.stored := by
  obtain ⟨hzf, eax, ecx, edi, hscan⟩ := scanChars_lodsb h
  refine ⟨{ c with eax, ecx, edi, esi := c.esi + 1, zf := false }, ?_,
    ⟨h.forward, h.ct, h.edx, h.rest.2.2⟩, rfl, rfl, rfl, rfl⟩
  rw [strtok3]
  generalize c.lodsb.testAl = c₁ at hzf hscan
  rw [if_neg (Bool.eq_false_iff.mp hzf), hscan, decide_eq_false hb]
  rfl

/-- The token at the end of the string leaves nothing to go on with. -/
theorem strtok3_last (h : AtLoop c ct d t) (ht : ∀ b ∈ t, b ∉ d) (hebx : c.ebx ≠ 0)
    (hbyte : c.mem c.ebx ≠ 0) (hn : t.length < n) :
    (strtok3 ct n c).map outcome = some ⟨c.ebx, 0, c.mem, c.stored⟩ := by
  induction t generalizing c n with
  | nil =>
    obtain ⟨n, rfl⟩ : ∃ k, n = k + 1 := ⟨n - 1, by simp only [List.length_nil] at hn; omega⟩
    obtain ⟨eax, heq⟩ := testAl_nul h
    rw [strtok3, heq, if_pos rfl, Option.map_some, strtok5]
    exact congrArg some (outcome_strtok6 hebx hbyte)
  | cons b t ih =>
    obtain ⟨n, rfl⟩ : ∃ k, n = k + 1 := ⟨n - 1, by simp only [List.length_cons] at hn; omega⟩
    obtain ⟨c', hstep, hloop, -, hebx', hmem, hstored⟩ :=
      strtok3_char (n := n) h (ht b List.mem_cons_self)
    rw [hstep, ← hmem, ← hstored, ← hebx']
    rw [← hebx'] at hebx
    rw [← hmem, ← hebx'] at hbyte
    exact ih hloop (fun y hy => ht y (List.mem_cons_of_mem b hy)) hebx hbyte
      (Nat.lt_of_succ_lt_succ hn)

/-- The delimiter behind a token is cleared, and `___strtok` points behind it. -/
theorem strtok3_delim (h : AtLoop c ct d (x :: l)) (hx : x ∈ d) (hebx : c.ebx ≠ 0)
    (hbyte : c.mem c.ebx ≠ 0) (hne : c.ebx ≠ c.esi) :
    (strtok3 ct (n + 1) c).map outcome =
      some ⟨c.ebx, c.esi + 1, Function.update c.mem c.esi 0, c.esi :: c.stored⟩ := by
  obtain ⟨hzf, eax, ecx, edi, hscan⟩ := scanChars_lodsb h
  have hnul : c.mem c.esi ≠ 0 := h.rest.1 ▸ h.rest.2.1
  have hstep : strtok3 ct (n + 1) c = some (strtok6 ((({ c with eax, ecx, edi, zf := false } :
      Cpu).storeZero c.esi).incEsi)) := by
    rw [strtok3]
    generalize c.lodsb.testAl = c₁ at hzf hscan
    rw [if_neg (Bool.eq_false_iff.mp hzf), hscan, decide_eq_true hx]
    dsimp only
    rw [if_pos rfl, cmpZero_decEsi
      (c := { c with eax, ecx, edi, esi := c.esi + 1, zf := true }) rfl hnul]
    rfl
  have hbyte' : Function.update c.mem c.esi 0 c.ebx ≠ 0 := by
    rwa [Function.update_of_ne hne]
  rw [hstep, Option.map_some]
  exact congrArg some (outcome_strtok6 hebx hbyte')

/-- A token is ended by a `NUL` in the place of the delimiter behind it. -/
theorem strtok3_token (h : AtLoop c ct d (t ++ x :: v)) (ht : ∀ b ∈ t, b ∉ d) (hx : x ∈ d)
    (hebx : c.ebx ≠ 0) (hbyte : c.mem c.ebx ≠ 0)
    (hne : c.ebx ≠ c.esi + BitVec.ofNat 32 t.length) (hn : t.length < n) :
    (strtok3 ct n c).map outcome =
      some ⟨c.ebx, c.esi + BitVec.ofNat 32 (t.length + 1),
        Function.update c.mem (c.esi + BitVec.ofNat 32 t.length) 0,
        (c.esi + BitVec.ofNat 32 t.length) :: c.stored⟩ := by
  induction t generalizing c n with
  | nil =>
    obtain ⟨n, rfl⟩ : ∃ k, n = k + 1 := ⟨n - 1, by simp only [List.length_nil] at hn; omega⟩
    have hzero : c.esi + BitVec.ofNat 32 ([] : List (BitVec 8)).length = c.esi :=
      BitVec.add_zero c.esi
    rw [hzero] at hne ⊢
    exact strtok3_delim h hx hebx hbyte hne
  | cons b t ih =>
    obtain ⟨n, rfl⟩ : ∃ k, n = k + 1 := ⟨n - 1, by simp only [List.length_cons] at hn; omega⟩
    obtain ⟨c', hstep, hloop, hesi, hebx', hmem, hstored⟩ :=
      strtok3_char (n := n) h (ht b List.mem_cons_self)
    have hshift : ∀ k, c.esi + BitVec.ofNat 32 (k + 1) = c'.esi + BitVec.ofNat 32 k := by
      intro k
      rw [hesi]
      bv_omega
    rw [List.length_cons, hshift] at hne ⊢
    rw [hshift, hstep, ← hmem, ← hstored, ← hebx']
    rw [← hebx'] at hebx hne
    rw [← hmem, ← hebx'] at hbyte
    exact ih hloop (fun y hy => ht y (List.mem_cons_of_mem b hy)) hebx hbyte hne
      (Nat.lt_of_succ_lt_succ hn)

/-! ### One call -/

/-- From the label 1 on the length of `ct` is counted first. -/
theorem strtok1_eq (hct : CString c.mem ct d) (hd : d ≠ []) (hl : StringAt c.mem c.esi l) :
    ∃ c', strtok1 ct n c = strtok2 ct n n c' ∧ AtLoop c' ct d l ∧ c'.esi = c.esi ∧
      c'.ebx = 0 ∧ c'.mem = c.mem ∧ c'.stored = c.stored := by
  obtain ⟨edi, heq⟩ := countLength_eq
    (c := { c with ebx := 0, ecx := 0xffffffff, eax := 0 }) rfl rfl hct
  refine ⟨{ c with
    eax := 0
    ebx := 0
    ecx := BitVec.ofNat 32 d.length
    edx := BitVec.ofNat 32 d.length
    edi := edi
    zf := d.isEmpty
    df := false }, ?_, ⟨rfl, hct, rfl, hl⟩, rfl, rfl, rfl, rfl⟩
  rw [strtok1, heq]
  exact if_neg (by simpa using hd)

/-- Without delimiters there is no token. -/
theorem strtok1_empty (hct : CString c.mem ct []) :
    (strtok1 ct n c).map outcome = some ⟨0, 0, c.mem, c.stored⟩ := by
  obtain ⟨edi, heq⟩ := countLength_eq
    (c := { c with ebx := 0, ecx := 0xffffffff, eax := 0 }) rfl rfl hct
  rw [strtok1, heq]
  dsimp only
  rw [if_pos List.isEmpty_nil, Option.map_some]
  exact congrArg some (outcome_strtok7_zero rfl)

/-- No call finds a token in a string of delimiters. -/
theorem strtok1_none (hct : CString c.mem ct d) (hd : d ≠ []) (hstring : StringAt c.mem c.esi l)
    (hl : ∀ b ∈ l, b ∈ d) (hn : l.length < n) :
    (strtok1 ct n c).map outcome = some ⟨0, 0, c.mem, c.stored⟩ := by
  obtain ⟨c', heq, hloop, -, hebx, hmem, hstored⟩ := strtok1_eq (n := n) hct hd hstring
  rw [heq, ← hmem, ← hstored]
  exact strtok2_none hloop hl hebx hn

/-- A token has a first character. -/
theorem head_notMem (hne : t ≠ []) (ht : ∀ b ∈ t, b ∉ d) (v : List (BitVec 8)) :
    ∃ b ∈ (t ++ v).head?, b ∉ d := by
  obtain ⟨b, t, rfl⟩ := List.exists_cons_of_ne_nil hne
  exact ⟨b, rfl, ht b List.mem_cons_self⟩

/-- The loop for the end of a token begins at a token. -/
theorem strtok1_start (hct : CString c.mem ct d) (hd : d ≠ [])
    (hs : CString c.mem c.esi (u ++ (t ++ v))) (hu : ∀ b ∈ u, b ∈ d) (hne : t ≠ [])
    (ht : ∀ b ∈ t, b ∉ d) (hn : u.length < n) :
    ∃ c', strtok1 ct n c = strtok3 ct n c' ∧ AtLoop c' ct d (t ++ v) ∧
      c'.esi = c.esi + BitVec.ofNat 32 u.length ∧
      c'.ebx = c.esi + BitVec.ofNat 32 u.length ∧ c'.mem = c.mem ∧ c'.stored = c.stored ∧
      c'.ebx ≠ 0 ∧ c'.mem c'.ebx ≠ 0 := by
  obtain ⟨c₁, heq₁, hloop₁, hesi₁, -, hmem₁, hstored₁⟩ := strtok1_eq (n := n) hct hd hs.bytes
  obtain ⟨c', heq, hloop, hesi, hebx, hmem, hstored⟩ :=
    strtok2_token (m := n) hloop₁ hu (head_notMem hne ht v) hn
  rw [hesi₁] at hesi hebx
  have hnull : c'.ebx ≠ 0 := by
    rw [hebx]
    exact hs.add_ne_zero (by simp)
  have hbyte : c'.mem c'.ebx ≠ 0 := by
    obtain ⟨b, t, rfl⟩ := List.exists_cons_of_ne_nil hne
    rw [hebx, ← hesi, hloop.rest.1]
    exact hloop.rest.2.1
  exact ⟨c', heq₁.trans heq, hloop, hesi, hebx, hmem.trans hmem₁, hstored.trans hstored₁, hnull,
    hbyte⟩

/-- A call that returns the token at the end of the string. -/
theorem strtok1_last (hct : CString c.mem ct d) (hd : d ≠ [])
    (hs : CString c.mem c.esi (u ++ (t ++ []))) (hu : ∀ b ∈ u, b ∈ d) (hne : t ≠ [])
    (ht : ∀ b ∈ t, b ∉ d) (hn : (u ++ (t ++ [])).length < n) :
    (strtok1 ct n c).map outcome =
      some ⟨c.esi + BitVec.ofNat 32 u.length, 0, c.mem, c.stored⟩ := by
  simp only [List.length_append, List.length_nil] at hn
  obtain ⟨c', heq, hloop, -, hebx, hmem, hstored, hnull, hbyte⟩ :=
    strtok1_start (n := n) hct hd hs hu hne ht (by omega)
  rw [List.append_nil] at hloop
  rw [heq, ← hmem, ← hstored, ← hebx]
  exact strtok3_last hloop ht hnull hbyte (by omega)

/-- A call that returns a token with a delimiter behind it. -/
theorem strtok1_token (hct : CString c.mem ct d) (hd : d ≠ [])
    (hs : CString c.mem c.esi (u ++ (t ++ x :: v))) (hu : ∀ b ∈ u, b ∈ d) (hne : t ≠ [])
    (ht : ∀ b ∈ t, b ∉ d) (hx : x ∈ d) (hn : (u ++ (t ++ x :: v)).length < n) :
    (strtok1 ct n c).map outcome =
      some ⟨c.esi + BitVec.ofNat 32 u.length,
        c.esi + BitVec.ofNat 32 (u.length + t.length + 1),
        Function.update c.mem (c.esi + BitVec.ofNat 32 (u.length + t.length)) 0,
        (c.esi + BitVec.ofNat 32 (u.length + t.length)) :: c.stored⟩ := by
  have hpos := List.length_pos_iff.mpr hne
  simp only [List.length_append, List.length_cons] at hn
  obtain ⟨c', heq, hloop, hesi, hebx, hmem, hstored, hnull, hbyte⟩ :=
    strtok1_start (n := n) hct hd hs hu hne ht (by omega)
  have hshift : ∀ k, c.esi + BitVec.ofNat 32 (u.length + k) = c'.esi + BitVec.ofNat 32 k := by
    intro k
    rw [hesi, add_ofNat_add]
  have hdiffer : c'.ebx ≠ c'.esi + BitVec.ofNat 32 t.length := by
    rw [hebx, ← hshift]
    intro hsame
    have hindex := hs.add_inj (by simp) (by simp) hsame
    omega
  rw [Nat.add_assoc, hshift, hshift, heq, ← hmem, ← hstored, ← hebx]
  exact strtok3_token hloop ht hx hnull hbyte hdiffer (by omega)

end

end LihaLinux.Strings
