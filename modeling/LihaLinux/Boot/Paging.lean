import LihaLinux.Mm.Faults

/-!
# The first page tables

`setup_paging` of `boot/head.s`, instruction by instruction: the page directory and four page
tables are cleared, the directory is filled, and a loop fills the tables from their end. The result
is the map that the memory manager starts from, and it maps the first 16 MB to themselves.
-/

namespace LihaLinux.Boot

open Mm

/-- `stosl`: the word at the physical address `edi`. -/
def stosl (edi : ℕ) (eax : Mm.Word) (s : State) : State :=
  s.setWord (edi / 4096) (edi % 4096 / 4) eax

/-- `cld ; rep ; stosl`, with `ecx`. -/
def repStosl (eax : Mm.Word) : ℕ → ℕ → State → State
  | 0, _, s => s
  | ecx + 1, edi, s => repStosl eax ecx (edi + 4) (stosl edi eax s)

/-- `pg0`. -/
def pg0 : ℕ := 0x1000

/-- `pg1`. -/
def pg1 : ℕ := 0x2000

/-- `pg2`. -/
def pg2 : ℕ := 0x3000

/-- `pg3`. -/
def pg3 : ℕ := 0x4000

/-- `1: stosl ; subl $0x1000,%eax ; jge 1b` with the direction flag set, for a number of rounds.
The jump is taken while the difference is not negative. -/
def fillPages : ℕ → ℕ → Mm.Word → State → Option State
  | 0, _, _, _ => none
  | n + 1, edi, eax, s =>
    let s := stosl edi eax s
    if (0x1000#32).sle eax then fillPages n (edi - 4) (eax - 0x1000#32) s else some s

/-- `setup_paging`, up to the load of `cr3`. -/
def headPaging (s : State) : Option State :=
  let s := repStosl 0 (1024 * 5) 0 s
  let s := stosl 0 (BitVec.ofNat 32 (pg0 + 7)) s
  let s := stosl 4 (BitVec.ofNat 32 (pg1 + 7)) s
  let s := stosl 8 (BitVec.ofNat 32 (pg2 + 7)) s
  let s := stosl 12 (BitVec.ofNat 32 (pg3 + 7)) s
  fillPages 4096 (pg3 + 4092) 0xfff007#32 s

/-- The physical address of a linear address. -/
def physical (s : State) (a : ℕ) : ℕ :=
  frame (s.mem (frame (s.mem 0 (dirIndex a))) (tableIndex a)) * 4096 + a % 4096

/-! ### The loops -/

/-- The word with the number `w`, counted from address 0. -/
def State.wordAt (s : State) (w : ℕ) : Mm.Word := s.mem (w / 1024) (w % 1024)

/-- A store changes one word. -/
theorem wordAt_stosl (s : State) (eax : Mm.Word) (v w : ℕ) :
    State.wordAt (stosl (4 * v) eax s) w = if w = v then eax else State.wordAt s w := by
  have hplace : w / 1024 = 4 * v / 4096 ∧ w % 1024 = 4 * v % 4096 / 4 ↔ w = v := by omega
  unfold State.wordAt stosl
  rw [State.mem_setWord]
  simp only [hplace]

/-- A store changes memory only. -/
theorem stosl_frame (edi : ℕ) (eax : Mm.Word) (s : State) :
    (stosl edi eax s).memMap = s.memMap ∧ (stosl edi eax s).highMemory = s.highMemory := by
  unfold stosl
  exact ⟨rfl, rfl⟩

/-- The words that are cleared. -/
theorem wordAt_repStosl (eax : Mm.Word) (n v : ℕ) (s : State) (w : ℕ) :
    State.wordAt (repStosl eax n (4 * v) s) w =
      if v ≤ w ∧ w < v + n then eax else State.wordAt s w := by
  induction n generalizing v s with
  | zero => rw [repStosl, if_neg (by omega)]
  | succ n ih =>
    have hnext : 4 * v + 4 = 4 * (v + 1) := by omega
    rw [repStosl, hnext, ih, wordAt_stosl]
    by_cases hfirst : w = v
    · rw [if_neg (by omega), if_pos hfirst, if_pos (by omega)]
    · by_cases hin : v ≤ w ∧ w < v + (n + 1)
      · rw [if_pos (by omega), if_pos hin]
      · rw [if_neg (by omega), if_neg hfirst, if_neg hin]

/-- The entry for a page, as the loop counts them. -/
theorem entry_sub (k : ℕ) :
    BitVec.ofNat 32 ((k + 1) * 0x1000 + 7) - 0x1000#32 = BitVec.ofNat 32 (k * 0x1000 + 7) := by
  apply BitVec.eq_of_toNat_eq
  rw [BitVec.toNat_sub]
  simp only [BitVec.toNat_ofNat]
  omega

/-- The loop goes on until the entry for page 0 has been stored. -/
theorem sle_entry {k : ℕ} (hk : k < 4096) :
    (0x1000#32).sle (BitVec.ofNat 32 (k * 0x1000 + 7)) = decide (0 < k) := by
  have hvalue : (BitVec.ofNat 32 (k * 0x1000 + 7)).toInt = ((k * 0x1000 + 7 : ℕ) : ℤ) := by
    rw [BitVec.toInt_eq_toNat_of_lt]
    · rw [BitVec.toNat_ofNat, Nat.mod_eq_of_lt (by omega)]
    · rw [BitVec.toNat_ofNat, Nat.mod_eq_of_lt (by omega)]
      omega
  have hlimit : (0x1000#32).toInt = 4096 := by decide
  rw [BitVec.sle, hvalue, hlimit, decide_eq_decide]
  omega

/-- From the entry for page `k` on, the loop stores the entries for all pages down to page 0. -/
theorem fillPages_eq {k : ℕ} (hk : k < 4096) (v : ℕ) (s : State) :
    ∃ t, fillPages (k + 1) (4 * (v + k)) (BitVec.ofNat 32 (k * 0x1000 + 7)) s = some t ∧
      (∀ w, State.wordAt t w = if v ≤ w ∧ w ≤ v + k then BitVec.ofNat 32 ((w - v) * 0x1000 + 7)
        else State.wordAt s w) ∧ t.memMap = s.memMap ∧ t.highMemory = s.highMemory := by
  induction k generalizing s with
  | zero =>
    refine ⟨stosl (4 * v) (BitVec.ofNat 32 7) s, ?_, fun w => ?_, rfl, rfl⟩
    · rw [fillPages, sle_entry hk]
      rfl
    · rw [wordAt_stosl]
      by_cases hw : w = v
      · rw [if_pos hw, if_pos (by omega), hw, Nat.sub_self]
      · rw [if_neg hw, if_neg (by omega)]
  | succ k ih =>
    have hprev : 4 * (v + (k + 1)) - 4 = 4 * (v + k) := by omega
    obtain ⟨t, ht, hword, hmap, hhigh⟩ := ih (by omega)
      (stosl (4 * (v + (k + 1))) (BitVec.ofNat 32 ((k + 1) * 0x1000 + 7)) s)
    refine ⟨t, ?_, fun w => ?_, hmap, hhigh⟩
    · rw [fillPages, sle_entry hk, entry_sub k, hprev]
      exact ht
    · rw [hword, wordAt_stosl]
      by_cases hlow : v ≤ w ∧ w ≤ v + k
      · rw [if_pos hlow, if_pos (by omega)]
      · rw [if_neg hlow]
        by_cases hlast : w = v + (k + 1)
        · rw [if_pos hlast, if_pos (by omega), hlast, Nat.add_sub_cancel_left]
        · rw [if_neg hlast, if_neg (by omega)]

/-! ### The map -/

/-- The clearing loop changes memory only. -/
theorem repStosl_frame (eax : Mm.Word) (n edi : ℕ) (s : State) :
    (repStosl eax n edi s).memMap = s.memMap ∧
      (repStosl eax n edi s).highMemory = s.highMemory := by
  induction n generalizing edi s with
  | zero => exact ⟨rfl, rfl⟩
  | succ n ih => exact ih _ _

/-- The word of an entry. -/
theorem entry_eq {page : ℕ} (hpage : page < 4096) :
    BitVec.ofNat 32 (page * 0x1000 + 7) = pageAddr page ||| 7#32 := by
  have hor : page * 0x1000 ||| 7 = page * 0x1000 + 7 := by
    have h := Nat.shiftLeft_add_eq_or_of_lt (b := 7) (i := 12) (by omega) page
    rw [Nat.shiftLeft_eq] at h
    exact h.symm
  apply BitVec.eq_of_toNat_eq
  rw [pageAddr, BitVec.toNat_or, BitVec.toNat_shiftLeft, BitVec.toNat_ofNat, BitVec.toNat_ofNat,
    BitVec.toNat_ofNat, Nat.shiftLeft_eq, Nat.mod_eq_of_lt (by omega : page < 2 ^ 32),
    Nat.mod_eq_of_lt (by omega : page * 2 ^ 12 < 2 ^ 32), Nat.mod_eq_of_lt (by omega)]
  exact hor.symm

/-- The words of the directory and of the page tables after `setup_paging`. -/
theorem headPaging_words (s : State) :
    ∃ t, headPaging s = some t ∧ t.memMap = s.memMap ∧ t.highMemory = s.highMemory ∧
      ∀ w, State.wordAt t w =
        if 5120 ≤ w then State.wordAt s w
        else if 1024 ≤ w then pageAddr (w - 1024) ||| 7#32
        else if w < 4 then pageAddr (w + 1) ||| 7#32
        else 0 := by
  obtain ⟨hmap₀, hhigh₀⟩ := repStosl_frame 0 5120 (4 * 0) s
  have hclear := wordAt_repStosl 0 5120 0 s
  generalize hs₀ : repStosl 0 5120 (4 * 0) s = s₀ at hmap₀ hhigh₀ hclear
  have hdir : ∀ w, State.wordAt (stosl (4 * 3) (BitVec.ofNat 32 (pg3 + 7)) (stosl (4 * 2)
      (BitVec.ofNat 32 (pg2 + 7)) (stosl (4 * 1) (BitVec.ofNat 32 (pg1 + 7))
        (stosl (4 * 0) (BitVec.ofNat 32 (pg0 + 7)) s₀)))) w =
      if w = 3 then BitVec.ofNat 32 (pg3 + 7) else if w = 2 then BitVec.ofNat 32 (pg2 + 7)
      else if w = 1 then BitVec.ofNat 32 (pg1 + 7) else if w = 0 then BitVec.ofNat 32 (pg0 + 7)
      else State.wordAt s₀ w := by
    intro w
    rw [wordAt_stosl, wordAt_stosl, wordAt_stosl, wordAt_stosl]
  generalize hs₁ : stosl (4 * 3) (BitVec.ofNat 32 (pg3 + 7)) (stosl (4 * 2)
    (BitVec.ofNat 32 (pg2 + 7)) (stosl (4 * 1) (BitVec.ofNat 32 (pg1 + 7))
      (stosl (4 * 0) (BitVec.ofNat 32 (pg0 + 7)) s₀))) = s₁ at hdir
  obtain ⟨t, ht, hword, hmap, hhigh⟩ := fillPages_eq (k := 4095) (by omega) 1024 s₁
  have hframe : s₁.memMap = s₀.memMap ∧ s₁.highMemory = s₀.highMemory := by
    rw [← hs₁]
    simp only [stosl_frame, and_self]
  refine ⟨t, ?_, hmap.trans (hframe.1.trans hmap₀), hhigh.trans (hframe.2.trans hhigh₀), ?_⟩
  · rw [← hs₁, ← hs₀] at ht
    exact ht
  · intro w
    rw [hword]
    by_cases hlast : 5120 ≤ w
    · rw [if_pos hlast, if_neg (by omega), hdir, if_neg (by omega), if_neg (by omega),
        if_neg (by omega), if_neg (by omega), hclear, if_neg (by omega)]
    · rw [if_neg hlast]
      by_cases htable : 1024 ≤ w
      · rw [if_pos (by omega), if_pos htable, entry_eq (by omega)]
      · rw [if_neg (by omega), if_neg htable, hdir, hclear]
        by_cases hfour : w < 4
        · rw [if_pos hfour]
          interval_cases w <;> rfl
        · rw [if_neg hfour, if_neg (by omega), if_neg (by omega), if_neg (by omega),
            if_neg (by omega), if_pos (by omega)]

/-- `setup_paging` ends, and every word of memory is as the memory manager expects it. -/
theorem headPaging_eq (s : State) :
    ∃ t, headPaging s = some t ∧ t.memMap = s.memMap ∧ t.highMemory = s.highMemory ∧
      ∀ p, ∀ i < 1024, t.mem p i = (setupPaging s).mem p i := by
  obtain ⟨t, ht, hmap, hhigh, hword⟩ := headPaging_words s
  refine ⟨t, ht, hmap, hhigh, fun p i hi => ?_⟩
  have hplace : (p * 1024 + i) / 1024 = p ∧ (p * 1024 + i) % 1024 = i := by omega
  have hat : ∀ u : State, State.wordAt u (p * 1024 + i) = u.mem p i := by
    intro u
    rw [State.wordAt, hplace.1, hplace.2]
  rw [← hat t, hword, hat s]
  simp only [setupPaging]
  by_cases hzero : p = 0
  · subst hzero
    rw [if_neg (by omega), if_neg (by omega), if_pos rfl, Nat.zero_mul, Nat.zero_add]
  · by_cases hfive : p < 5
    · have hpage : p * 1024 + i - 1024 = (p - 1) * 1024 + i := by
        have hmul : (p - 1) * 1024 = p * 1024 - 1024 := Nat.sub_one_mul p 1024
        omega
      rw [if_neg (by omega), if_pos (by omega), if_neg hzero, if_pos hfive, hpage]
    · rw [if_pos (by omega), if_neg hzero, if_neg hfive]

/-- `setup_paging` ends with the page tables that the memory manager starts from, and every linear
address of the first 16 MB is then its own physical address, on a page that is present and
writable. -/
theorem headPaging_identity (s : State) :
    ∃ t, headPaging s = some t ∧ (∀ p, ∀ i < 1024, t.mem p i = (setupPaging s).mem p i) ∧
      ∀ a < 2 ^ 24, physical t a = a ∧ present (t.mem 0 (dirIndex a)) = true ∧
        ∃ w, t.mem (frame (t.mem 0 (dirIndex a))) (tableIndex a) = w ∧ present w = true ∧
          writable w = true := by
  obtain ⟨t, ht, -, -, hmem⟩ := headPaging_eq s
  refine ⟨t, ht, hmem, fun a ha => ?_⟩
  have hdir := dirIndex_eq a
  have htable := tableIndex_eq a
  have hdirWord : t.mem 0 (dirIndex a) = pageAddr (dirIndex a + 1) ||| 7#32 := by
    rw [hmem 0 _ (by omega)]
    rw [setupPaging]
    simp only
    rw [if_pos trivial, if_pos (by omega)]
  have htableWord : t.mem (dirIndex a + 1) (tableIndex a) = pageAddr (a / 4096) ||| 7#32 := by
    have hpage : (dirIndex a + 1 - 1) * 1024 + tableIndex a = a / 4096 := by omega
    rw [hmem _ _ (by omega)]
    simp only [setupPaging]
    rw [if_neg (Nat.succ_ne_zero _), if_pos (by omega), hpage]
  have hframe : frame (t.mem 0 (dirIndex a)) = dirIndex a + 1 := by
    rw [hdirWord, frame_fresh (by omega)]
  refine ⟨?_, ?_, _, rfl, ?_, ?_⟩
  · rw [physical, hframe, htableWord, frame_fresh (by omega)]
    exact Nat.div_add_mod' a 4096
  · rw [hdirWord, present_fresh]
  · rw [hframe, htableWord, present_fresh]
  · rw [hframe, htableWord, writable_fresh]

end LihaLinux.Boot
