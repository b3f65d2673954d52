import LihaLinux.Print.FormatLanguage
import Mathlib.Data.Nat.Digits.Lemmas

/-!
# Numbers in a field

`number` prints what the format language says, for every base, width, precision and set of flags.
The array `tmp` has room for the digits.
-/

namespace LihaLinux.Print

/-! ### Digits -/

/-- The loop finds the digits in the base when there is room for them. -/
theorem divLoop_eq_digits {base room num : ℕ} (hbase : 2 ≤ base) (hroom : num < base ^ room) :
    divLoop base room num = Nat.digits base num := by
  induction room generalizing num with
  | zero =>
    obtain rfl : num = 0 := Nat.lt_one_iff.mp hroom
    exact (Nat.digits_zero base).symm
  | succ room ih =>
    rw [divLoop]
    by_cases hnum : num = 0
    · rw [if_pos hnum, hnum, Nat.digits_zero]
    · have hdiv : num / base < base ^ room := Nat.div_lt_of_lt_mul (by rwa [← Nat.pow_succ'])
      rw [if_neg hnum, ih hdiv, Nat.digits_def' hbase (Nat.pos_of_ne_zero hnum)]

/-- There is room in `tmp` for a number of 32 bits in every base. -/
theorem toNat_lt_pow (base : Base) (w : BitVec 32) : w.toNat < base.val ^ 36 :=
  calc w.toNat < 2 ^ 32 := w.isLt
    _ ≤ 2 ^ 36 := Nat.pow_le_pow_right (by decide) (by decide)
    _ ≤ base.val ^ 36 := Nat.pow_le_pow_left base.two_le 36

/-- The digits of a number that is not padded. -/
theorem tmpOf_reverse (num : BitVec 32) (base : Base) (type : Flags) :
    (tmpOf num base type).reverse = if num.toNat = 0 then ['0']
      else ((Nat.digits base.val num.toNat).map (digit type.small)).reverse := by
  rw [tmpOf, divLoop_eq_digits base.two_le (toNat_lt_pow base num)]
  by_cases hnum : num = 0
  · rw [if_pos hnum, if_pos (by rw [hnum]; rfl)]
    rfl
  · have hzero : num.toNat ≠ 0 := fun h => hnum (BitVec.eq_of_toNat_eq h)
    rw [if_neg hnum, if_neg hzero]

/-! ### Padding -/

/-- An `int` that is -1 when there is no number. -/
def IntOf (i : ℤ) (n : ℕ) : Prop := i = n ∨ i = -1 ∧ n = 0

/-! ### Numbers -/

/-- The flags for `number`. -/
def Style.flags (style : Style) (kind : NumberKind) : Flags :=
  ⟨style.zero, kind.signed, style.plus, style.space, style.left, style.special, kind.small⟩

section Number

variable {kind : NumberKind} {style : Style} {w : BitVec 32}

theorem signOf_flags : signOf w (style.flags kind) =
    signText style (kind.signed && decide (w.toInt < 0)) := by
  rw [signOf, signText]
  apply if_congr
  · rw [Bool.and_eq_true, decide_eq_true_iff]
    rfl
  · rfl
  · rfl

theorem specialOf_flags : specialOf kind.base (style.flags kind) = specialText style kind := by
  rw [specialOf, specialText]
  cases hspecial : style.special with
  | false =>
    rw [if_neg (by rw [Style.flags, hspecial]; exact Bool.false_ne_true)]
    rfl
  | true =>
    have hdigit : digit kind.small 33 = if kind.small then 'x' else 'X' := by
      cases kind.small <;> rfl
    rw [if_pos (by rw [Style.flags, hspecial]), ← hdigit]
    rfl

theorem unsignedOf_flags : (unsignedOf w (style.flags kind)).toNat =
    if kind.signed then w.toInt.natAbs else w.toNat := by
  rw [unsignedOf]
  cases hsigned : kind.signed with
  | false =>
    rw [if_neg fun h => by rw [Style.flags, hsigned] at h; exact Bool.false_ne_true h.1]
    rfl
  | true =>
    have hint := BitVec.toInt_eq_toNat_cond w
    have hlt := w.isLt
    by_cases hneg : w.toInt < 0
    · rw [if_pos ⟨hsigned, hneg⟩, if_pos rfl, BitVec.toNat_neg]
      split_ifs at hint <;> omega
    · rw [if_neg fun h => hneg h.2, if_pos rfl]
      split_ifs at hint <;> omega

/-- The digits that `number` prints. -/
theorem digitsText_eq {tmp : List Char} {base digits num : ℕ} {small : Bool} {precision : ℤ}
    (htmp : tmp.reverse = if num = 0 then ['0']
      else ((Nat.digits base num).map (digit small)).reverse)
    (hprecision : IntOf precision digits) :
    (pad (max precision tmp.length - tmp.length) '0').1 ++ tmp.reverse =
        digitsText small base digits num ∧
      (digitsText small base digits num).length = max precision tmp.length := by
  have hlen : tmp.reverse.length = tmp.length := List.length_reverse
  have hcount : (max precision tmp.length - tmp.length).toNat = digits - tmp.length := by
    rcases hprecision with rfl | ⟨rfl, rfl⟩ <;> omega
  rw [digitsText, ← htmp, hlen, pad, hcount, List.length_append, List.length_replicate, hlen]
  constructor
  · rfl
  · rcases hprecision with rfl | ⟨rfl, rfl⟩ <;> omega

/-- The number stands in its field as the flags say. -/
theorem number_eq_ite (type : Flags) (base : Base) (size precision : ℤ) {n : ℤ}
    {lead text : List Char}
    (hlead : signOf w type ++ specialOf base type = lead)
    (htext : (pad (max precision (tmpOf (unsignedOf w type) base type).length -
      (tmpOf (unsignedOf w type) base type).length) '0').1 ++
        (tmpOf (unsignedOf w type) base type).reverse = text)
    (hn : size - (signOf w type).length - (specialOf base type).length -
      max precision (tmpOf (unsignedOf w type) base type).length = n) :
    number w base size precision type =
      if type.left then lead ++ text ++ List.replicate n.toNat ' '
      else if type.zeroPad then lead ++ List.replicate n.toNat '0' ++ text
      else List.replicate n.toNat ' ' ++ lead ++ text := by
  have hnumber : number w base size precision type =
      (let zero := type.zeroPad && !type.left
       let before := if zero ∨ type.left then ([], n) else pad n ' '
       let fill := if type.left then ([], before.2) else pad before.2 (if zero then '0' else ' ')
       before.1 ++ lead ++ fill.1 ++ text ++ (pad fill.2 ' ').1) := by
    rw [← hlead, ← htext, ← hn, number]
    simp only [List.append_assoc]
    rfl
  rw [hnumber]
  cases hleft : type.left with
  | true => simp [pad]
  | false =>
    cases hzero : type.zeroPad with
    | true => simp [pad]
    | false => simp [pad]

/-- `number` prints the number in its field. -/
theorem number_eq_numberText {size precision : ℤ} {width digits : ℕ} (hsize : IntOf size width)
    (hprecision : IntOf precision digits) :
    number w kind.base size precision (style.flags kind) =
      numberText kind style width digits w := by
  obtain ⟨num, hnum⟩ : ∃ num, (if kind.signed then w.toInt.natAbs else w.toNat) = num := ⟨_, rfl⟩
  have hreverse := tmpOf_reverse (unsignedOf w (style.flags kind)) kind.base (style.flags kind)
  rw [unsignedOf_flags, hnum] at hreverse
  obtain ⟨hdigits, hlength⟩ := digitsText_eq hreverse hprecision
  obtain ⟨lead, hlead⟩ : ∃ lead, signOf w (style.flags kind) ++
    specialOf kind.base (style.flags kind) = lead := ⟨_, rfl⟩
  have hlead' : signText style (kind.signed && decide (w.toInt < 0)) ++ specialText style kind =
      lead := by
    rw [← signOf_flags, ← specialOf_flags, hlead]
  have hleadLength : ((signOf w (style.flags kind)).length : ℤ) +
      (specialOf kind.base (style.flags kind)).length = lead.length := by
    rw [← hlead, List.length_append, Nat.cast_add]
  rw [number_eq_ite _ _ size precision hlead hdigits rfl, ← hlength, numberText, hlead', hnum]
  obtain ⟨text, htext⟩ : ∃ text, digitsText (style.flags kind).small kind.base.val digits num =
    text := ⟨_, rfl⟩
  rw [htext]
  have hroom : (size - (signOf w (style.flags kind)).length -
      (specialOf kind.base (style.flags kind)).length - text.length).toNat =
        width - (lead ++ text).length := by
    rw [List.length_append]
    rcases hsize with rfl | ⟨rfl, rfl⟩ <;> omega
  rw [hroom]
  change _ = fillNumber width style.left style.zero lead (digitsText (style.flags kind).small _ _ _)
  rw [htext, fillNumber, fill]
  change (if style.left then _ else if style.zero then _ else _) = _
  cases style.left <;> cases style.zero <;> simp

end Number

end LihaLinux.Print
