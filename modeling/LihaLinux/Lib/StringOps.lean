import Mathlib.Logic.Function.Basic
import Mathlib.Tactic.Ring

/-!
# Memory and the string instructions

Byte memory that records which addresses were stored to, with the repeated string
instructions of a 32-bit processor: `stosw` fills with one word, `movsl` copies four
bytes at a time, each upwards or downwards as the direction flag says.
-/

namespace LihaLinux

/-- A sum of 32-bit words. -/
def add32 (a b : ℕ) : ℕ := (a + b) % 2 ^ 32

/-- A difference of 32-bit words. -/
def sub32 (a b : ℕ) : ℕ := (a + 2 ^ 32 - b) % 2 ^ 32

/-- A product of 32-bit words. -/
def mul32 (a b : ℕ) : ℕ := a * b % 2 ^ 32

/-- A sum that fits does not wrap. -/
theorem add32_eq {a b : ℕ} (h : a + b < 2 ^ 32) : add32 a b = a + b := Nat.mod_eq_of_lt h

/-- A difference that is not negative does not wrap. -/
theorem sub32_eq {a b : ℕ} (hb : b ≤ a) (ha : a < 2 ^ 32) : sub32 a b = a - b := by
  unfold sub32
  omega

/-- A product that fits does not wrap. -/
theorem mul32_eq {a b : ℕ} (h : a * b < 2 ^ 32) : mul32 a b = a * b := Nat.mod_eq_of_lt h

/-- Memory, and the addresses stored to so far. -/
structure Ram where
  /-- The byte at each address. -/
  byte : ℕ → BitVec 8
  /-- The addresses stored to, the last one first. -/
  stored : List ℕ

namespace Ram

/-- The low byte of a word. -/
def low (v : BitVec 16) : BitVec 8 := v.setWidth 8

/-- The high byte of a word. -/
def high (v : BitVec 16) : BitVec 8 := (v >>> 8).setWidth 8

/-- Store a byte. -/
def storeb (m : Ram) (a : ℕ) (v : BitVec 8) : Ram :=
  ⟨Function.update m.byte a v, a :: m.stored⟩

/-- Store a word, its low byte first. -/
def storew (m : Ram) (a : ℕ) (v : BitVec 16) : Ram :=
  (m.storeb a (low v)).storeb (a + 1) (high v)

/-- Load a word. -/
def loadw (m : Ram) (a : ℕ) : BitVec 16 := m.byte (a + 1) ++ m.byte a

/-- Copy the four bytes at `src`, all read before the first is stored. -/
def copyl (m : Ram) (dst src : ℕ) : Ram :=
  (((m.storeb dst (m.byte src)).storeb (dst + 1) (m.byte (src + 1))).storeb (dst + 2)
    (m.byte (src + 2))).storeb (dst + 3) (m.byte (src + 3))

/-- The next address of a string instruction with elements of `k` bytes. -/
def advance (down : Bool) (k a : ℕ) : ℕ := if down then sub32 a k else add32 a k

/-- The address register after `n` elements of `k` bytes. -/
def advanced (down : Bool) (k : ℕ) : ℕ → ℕ → ℕ
  | 0, a => a
  | n + 1, a => advanced down k n (advance down k a)

/-- Store the word `v` at `n` successive places from `edi` on. -/
def stosw (down : Bool) (v : BitVec 16) : ℕ → ℕ → Ram → Ram
  | 0, _, m => m
  | n + 1, edi, m => stosw down v n (advance down 2 edi) (m.storew edi v)

/-- Copy `n` successive groups of four bytes from `esi` to `edi`. -/
def movsl (down : Bool) : ℕ → ℕ → ℕ → Ram → Ram
  | 0, _, _, m => m
  | n + 1, edi, esi, m =>
    movsl down n (advance down 4 edi) (advance down 4 esi) (m.copyl edi esi)

/-- The byte at `b` after a byte store. -/
theorem byte_storeb (m : Ram) (a b : ℕ) (v : BitVec 8) :
    (m.storeb a v).byte b = if b = a then v else m.byte b := by
  change Function.update m.byte a v b = _
  rw [Function.update_apply]

/-- The byte at `b` after a word store. -/
theorem byte_storew (m : Ram) (a b : ℕ) (v : BitVec 16) :
    (m.storew a v).byte b =
      if b = a + 1 then high v else if b = a then low v else m.byte b := by
  unfold storew
  rw [byte_storeb, byte_storeb]

/-- The byte at `b` after a copy of four. -/
theorem byte_copyl (m : Ram) (dst src b : ℕ) :
    (m.copyl dst src).byte b =
      if dst ≤ b ∧ b < dst + 4 then m.byte (src + (b - dst)) else m.byte b := by
  unfold copyl
  rw [byte_storeb, byte_storeb, byte_storeb, byte_storeb]
  by_cases hin : dst ≤ b ∧ b < dst + 4
  · obtain ⟨k, rfl⟩ := Nat.exists_eq_add_of_le hin.1
    have hk : k = 0 ∨ k = 1 ∨ k = 2 ∨ k = 3 := by omega
    rw [if_pos hin, Nat.add_sub_cancel_left]
    obtain rfl | rfl | rfl | rfl := hk <;> simp
  · rw [if_neg hin, if_neg (by omega), if_neg (by omega), if_neg (by omega), if_neg (by omega)]

/-- Upwards the address register grows. -/
theorem advanced_up {k n a : ℕ} (h : a + k * n < 2 ^ 32) :
    advanced false k n a = a + k * n := by
  induction n generalizing a with
  | zero => rfl
  | succ n ih =>
    have hsum : k * (n + 1) = k * n + k := Nat.mul_succ k n
    rw [advanced, advance, if_neg Bool.false_ne_true, add32_eq (by omega), ih (by omega)]
    omega

/-- Downwards the address register shrinks. -/
theorem advanced_down {k n a : ℕ} (h : k * n ≤ a) (ha : a < 2 ^ 32) :
    advanced true k n a = a - k * n := by
  induction n generalizing a with
  | zero => rfl
  | succ n ih =>
    have hsum : k * (n + 1) = k * n + k := Nat.mul_succ k n
    rw [advanced, advance, if_pos rfl, sub32_eq (by omega) ha, ih (by omega) (by omega)]
    omega

/-! ## What the upward instructions write -/

/-- An upward fill alternates the two bytes of its word. -/
theorem byte_stosw_up (v : BitVec 16) (b : ℕ) {n a : ℕ} (m : Ram) (h : a + 2 * n < 2 ^ 32) :
    (stosw false v n a m).byte b =
      if a ≤ b ∧ b < a + 2 * n then if (b - a) % 2 = 0 then low v else high v
      else m.byte b := by
  induction n generalizing a m with
  | zero => rw [stosw, if_neg (by omega)]
  | succ n ih =>
    rw [stosw, advance, if_neg Bool.false_ne_true, add32_eq (by omega), ih _ (by omega),
      byte_storew]
    by_cases hlater : a + 2 ≤ b ∧ b < a + 2 + 2 * n
    · have hall : a ≤ b ∧ b < a + 2 * (n + 1) := by omega
      have hparity : (b - (a + 2)) % 2 = (b - a) % 2 := by omega
      rw [if_pos hlater, if_pos hall, hparity]
    · rw [if_neg hlater]
      by_cases hsecond : b = a + 1
      · rw [if_pos hsecond, if_pos (by omega), if_neg (by omega)]
      · by_cases hfirst : b = a
        · rw [if_neg hsecond, if_pos hfirst, if_pos (by omega), if_pos (by omega)]
        · rw [if_neg hsecond, if_neg hfirst, if_neg (by omega)]

/-- An upward copy to a lower place moves the bytes. -/
theorem byte_movsl_up (b : ℕ) {n dst src : ℕ} (m : Ram) (hle : dst ≤ src)
    (h : src + 4 * n < 2 ^ 32) :
    (movsl false n dst src m).byte b =
      if dst ≤ b ∧ b < dst + 4 * n then m.byte (src + (b - dst)) else m.byte b := by
  induction n generalizing dst src m with
  | zero => rw [movsl, if_neg (by omega)]
  | succ n ih =>
    rw [movsl, advance, if_neg Bool.false_ne_true, advance, if_neg Bool.false_ne_true,
      add32_eq (by omega), add32_eq (by omega), ih _ (by omega) (by omega)]
    by_cases hlater : dst + 4 ≤ b ∧ b < dst + 4 + 4 * n
    · have hall : dst ≤ b ∧ b < dst + 4 * (n + 1) := by omega
      have hfrom : src + 4 + (b - (dst + 4)) = src + (b - dst) := by omega
      rw [if_pos hlater, if_pos hall, hfrom, byte_copyl, if_neg (by omega)]
    · rw [if_neg hlater, byte_copyl]
      by_cases hfirst : dst ≤ b ∧ b < dst + 4
      · rw [if_pos hfirst, if_pos (by omega)]
      · rw [if_neg hfirst, if_neg (by omega)]

/-! ## Where stores fall -/

/-- All stores fall in `[lo, hi)`. -/
def StoresIn (lo hi : ℕ) (m : Ram) : Prop := ∀ a ∈ m.stored, lo ≤ a ∧ a < hi

section
variable {lo hi : ℕ} {m : Ram}

/-- A byte store inside the range. -/
theorem StoresIn.storeb (h : StoresIn lo hi m) {a : ℕ} (v : BitVec 8) (hlo : lo ≤ a)
    (hhi : a < hi) : StoresIn lo hi (m.storeb a v) := by
  intro b hb
  obtain rfl | hb := List.mem_cons.mp hb
  · exact ⟨hlo, hhi⟩
  · exact h b hb

/-- A word store inside the range. -/
theorem StoresIn.storew (h : StoresIn lo hi m) {a : ℕ} (v : BitVec 16) (hlo : lo ≤ a)
    (hhi : a + 2 ≤ hi) : StoresIn lo hi (m.storew a v) :=
  (h.storeb _ hlo (by omega)).storeb _ (by omega) (by omega)

/-- A copy of four bytes inside the range. -/
theorem StoresIn.copyl (h : StoresIn lo hi m) {dst : ℕ} (src : ℕ) (hlo : lo ≤ dst)
    (hhi : dst + 4 ≤ hi) : StoresIn lo hi (m.copyl dst src) := by
  unfold Ram.copyl
  have h0 := h.storeb (m.byte src) hlo (by omega)
  have h1 := h0.storeb (a := dst + 1) (m.byte (src + 1)) (by omega) (by omega)
  have h2 := h1.storeb (a := dst + 2) (m.byte (src + 2)) (by omega) (by omega)
  exact h2.storeb _ (by omega) (by omega)

/-- An upward fill inside the range. -/
theorem StoresIn.stosw_up (h : StoresIn lo hi m) (v : BitVec 16) {n a : ℕ} (hlo : lo ≤ a)
    (hhi : a + 2 * n ≤ hi) (hword : hi < 2 ^ 32) : StoresIn lo hi (stosw false v n a m) := by
  induction n generalizing a m with
  | zero => exact h
  | succ n ih =>
    rw [stosw, advance, if_neg Bool.false_ne_true, add32_eq (by omega)]
    exact ih (h.storew v hlo (by omega)) (by omega) (by omega)

/-- A downward fill inside the range: `a` is the place of its topmost word. -/
theorem StoresIn.stosw_down (h : StoresIn lo hi m) (v : BitVec 16) {n a : ℕ}
    (hlo : lo + 2 * n ≤ a + 2) (hhi : n ≠ 0 → a + 2 ≤ hi) (hword : hi < 2 ^ 32) :
    StoresIn lo hi (stosw true v n a m) := by
  induction n generalizing a m with
  | zero => exact h
  | succ n ih =>
    have ha := hhi (Nat.succ_ne_zero n)
    rw [stosw, advance, if_pos rfl]
    have hnext := h.storew v (a := a) (by omega) ha
    cases n with
    | zero => exact hnext
    | succ n =>
      rw [sub32_eq (by omega) (by omega)]
      exact ih hnext (by omega) fun _ => by omega

/-- An upward copy inside the range. -/
theorem StoresIn.movsl_up (h : StoresIn lo hi m) {n dst src : ℕ} (hlo : lo ≤ dst)
    (hhi : dst + 4 * n ≤ hi) (hword : hi < 2 ^ 32) :
    StoresIn lo hi (movsl false n dst src m) := by
  induction n generalizing dst src m with
  | zero => exact h
  | succ n ih =>
    rw [movsl, advance, if_neg Bool.false_ne_true, add32_eq (by omega)]
    exact ih (h.copyl src hlo (by omega)) (by omega) (by omega)

/-- A downward copy inside the range: `dst` is the place of its topmost four bytes. -/
theorem StoresIn.movsl_down (h : StoresIn lo hi m) {n dst src : ℕ}
    (hlo : lo + 4 * n ≤ dst + 4) (hhi : n ≠ 0 → dst + 4 ≤ hi) (hword : hi < 2 ^ 32) :
    StoresIn lo hi (movsl true n dst src m) := by
  induction n generalizing dst src m with
  | zero => exact h
  | succ n ih =>
    have hdst := hhi (Nat.succ_ne_zero n)
    rw [movsl, advance, if_pos rfl]
    have hnext : StoresIn lo hi (m.copyl dst src) := h.copyl src (by omega) hdst
    cases n with
    | zero => exact hnext
    | succ n =>
      rw [sub32_eq (by omega) (by omega)]
      exact ih hnext (by omega) fun _ => by omega

end

/-! ## Equal windows -/

/-- The `size` bytes from `o` of one memory are those from `o'` of another. -/
def Agree (size o o' : ℕ) (m m' : Ram) : Prop := ∀ i < size, m.byte (o + i) = m'.byte (o' + i)

section
variable {size o o' : ℕ} {m m' : Ram}

/-- Equal windows are equal in both directions. -/
theorem Agree.symm (h : Agree size o o' m m') : Agree size o' o m' m :=
  fun i hi => (h i hi).symm

/-- Equality of windows is transitive. -/
theorem Agree.trans {o'' : ℕ} {m'' : Ram} (h : Agree size o o' m m')
    (h' : Agree size o' o'' m' m'') : Agree size o o'' m m'' :=
  fun i hi => (h i hi).trans (h' i hi)

/-- The same byte stored at the same place of both windows. -/
theorem Agree.storeb (h : Agree size o o' m m') (d : ℕ) (v : BitVec 8) :
    Agree size o o' (m.storeb (o + d) v) (m'.storeb (o' + d) v) := by
  intro i hi
  rw [byte_storeb, byte_storeb]
  by_cases hid : i = d
  · rw [if_pos (by omega), if_pos (by omega)]
  · rw [if_neg (by omega), if_neg (by omega), h i hi]

/-- The same word stored at the same place of both windows. -/
theorem Agree.storew (h : Agree size o o' m m') (d : ℕ) (v : BitVec 16) :
    Agree size o o' (m.storew (o + d) v) (m'.storew (o' + d) v) :=
  (h.storeb d (low v)).storeb (d + 1) (high v)

/-- Equal windows hold equal words. -/
theorem Agree.loadw (h : Agree size o o' m m') {d : ℕ} (hd : d + 2 ≤ size) :
    m.loadw (o + d) = m'.loadw (o' + d) := by
  unfold Ram.loadw
  rw [Nat.add_assoc, Nat.add_assoc, h d (by omega), h (d + 1) (by omega)]

/-- Four bytes copied between the same places of both windows. -/
theorem Agree.copyl (h : Agree size o o' m m') (d : ℕ) {e : ℕ} (he : e + 4 ≤ size) :
    Agree size o o' (m.copyl (o + d) (o + e)) (m'.copyl (o' + d) (o' + e)) := by
  intro i hi
  rw [byte_copyl, byte_copyl]
  by_cases hin : d ≤ i ∧ i < d + 4
  · rw [if_pos (by omega), if_pos (by omega)]
    have hfrom : o + e + (o + i - (o + d)) = o + (e + (i - d)) := by omega
    have hfrom' : o' + e + (o' + i - (o' + d)) = o' + (e + (i - d)) := by omega
    rw [hfrom, hfrom', h _ (by omega)]
  · rw [if_neg (by omega), if_neg (by omega), h i hi]

/-- The same upward fill of both windows. -/
theorem Agree.stosw_up (h : Agree size o o' m m') (v : BitVec 16) {n d : ℕ}
    (hword : o + d + 2 * n < 2 ^ 32) (hword' : o' + d + 2 * n < 2 ^ 32) :
    Agree size o o' (stosw false v n (o + d) m) (stosw false v n (o' + d) m') := by
  induction n generalizing d m m' with
  | zero => exact h
  | succ n ih =>
    rw [stosw, stosw, advance, advance, if_neg Bool.false_ne_true, if_neg Bool.false_ne_true,
      add32_eq (by omega), add32_eq (by omega), Nat.add_assoc, Nat.add_assoc]
    exact ih (h.storew d v) (by omega) (by omega)

/-- The same downward fill of both windows. -/
theorem Agree.stosw_down (h : Agree size o o' m m') (v : BitVec 16) {n d : ℕ}
    (hn : 2 * n ≤ d + 2) (hword : o + d < 2 ^ 32) (hword' : o' + d < 2 ^ 32) :
    Agree size o o' (stosw true v n (o + d) m) (stosw true v n (o' + d) m') := by
  induction n generalizing d m m' with
  | zero => exact h
  | succ n ih =>
    rw [stosw, stosw, advance, advance, if_pos rfl, if_pos rfl]
    cases n with
    | zero => exact h.storew d v
    | succ n =>
      rw [sub32_eq (by omega) hword, sub32_eq (by omega) hword', Nat.add_sub_assoc (by omega),
        Nat.add_sub_assoc (by omega)]
      exact ih (h.storew d v) (by omega) (by omega) (by omega)

/-- The same upward copy in both windows. -/
theorem Agree.movsl_up (h : Agree size o o' m m') {n d e : ℕ} (he : e + 4 * n ≤ size)
    (hword : o + d + 4 * n < 2 ^ 32) (hword' : o' + d + 4 * n < 2 ^ 32)
    (hsrc : o + e + 4 * n < 2 ^ 32) (hsrc' : o' + e + 4 * n < 2 ^ 32) :
    Agree size o o' (movsl false n (o + d) (o + e) m) (movsl false n (o' + d) (o' + e) m') := by
  induction n generalizing d e m m' with
  | zero => exact h
  | succ n ih =>
    rw [movsl, movsl]
    simp only [advance, if_neg Bool.false_ne_true]
    rw [add32_eq (by omega), add32_eq (by omega), add32_eq (by omega), add32_eq (by omega)]
    simp only [Nat.add_assoc]
    exact ih (h.copyl d (by omega)) (by omega) (by omega) (by omega) (by omega) (by omega)

/-- The same downward copy in both windows. -/
theorem Agree.movsl_down (h : Agree size o o' m m') {n d e : ℕ} (hd : 4 * n ≤ d + 4)
    (hen : 4 * n ≤ e + 4) (he : n ≠ 0 → e + 4 ≤ size) (hword : o + d < 2 ^ 32)
    (hword' : o' + d < 2 ^ 32) (hsrc : o + e < 2 ^ 32) (hsrc' : o' + e < 2 ^ 32) :
    Agree size o o' (movsl true n (o + d) (o + e) m) (movsl true n (o' + d) (o' + e) m') := by
  induction n generalizing d e m m' with
  | zero => exact h
  | succ n ih =>
    have hsize := he (Nat.succ_ne_zero n)
    rw [movsl, movsl]
    simp only [advance, if_pos]
    cases n with
    | zero => exact h.copyl d hsize
    | succ n =>
      rw [sub32_eq (by omega) hword, sub32_eq (by omega) hword', sub32_eq (by omega) hsrc,
        sub32_eq (by omega) hsrc', Nat.add_sub_assoc (by omega), Nat.add_sub_assoc (by omega),
        Nat.add_sub_assoc (by omega), Nat.add_sub_assoc (by omega)]
      exact ih (h.copyl d hsize) (by omega) (by omega) (fun _ => by omega) (by omega)
        (by omega) (by omega) (by omega)

end

end Ram

end LihaLinux
