import LihaLinux.Print.Numbers

/-!
# Numbers and the range of an `int`

`number` counts the room in its field with one `int`. Here its steps wrap around at the ends of
the range, and it is said exactly for which widths and precisions the field is right.
-/

namespace LihaLinux.Print

/-- `while(size-->0) *str++ = c` with an `int` that wraps around. -/
def pad32 (size : ℤ) (c : Char) : List Char × ℤ :=
  (List.replicate size.toNat c, toInt32 (min size 0 - 1))

/-- `size` without the room for the sign. -/
def signSize (sign : List Char) (size : ℤ) : ℤ := if sign = [] then size else toInt32 (size - 1)

/-- `size` without the room for what `SPECIAL` prints. -/
def specialSize (base : Base) (type : Flags) (size : ℤ) : ℤ :=
  if type.special then
    if base.val = 16 then toInt32 (size - 2) else if base.val = 8 then toInt32 (size - 1) else size
  else size

/-- `number`, where `size` and `precision` are `int`s. -/
def number32 (num : BitVec 32) (base : Base) (size precision : BitVec 32) (type : Flags) :
    List Char :=
  let type := { type with zeroPad := type.zeroPad && !type.left }
  let c := if type.zeroPad then '0' else ' '
  let sign := signOf num type
  let special := specialOf base type
  let size := specialSize base type (signSize sign size.toInt)
  let tmp := tmpOf (unsignedOf num type) base type
  let precision := max precision.toInt tmp.length
  let size := toInt32 (size - precision)
  let before := if type.zeroPad ∨ type.left then ([], size) else pad32 size ' '
  let fill := if type.left then ([], before.2) else pad32 before.2 c
  before.1 ++ sign ++ special ++ fill.1 ++ (pad32 (precision - tmp.length) '0').1 ++ tmp.reverse ++
    (pad32 fill.2 ' ').1

/-! ### What is to be printed -/

/-- The number that is printed after the sign. -/
def magnitude (num : BitVec 32) (type : Flags) : ℕ :=
  if type.sign then num.toInt.natAbs else num.toNat

/-- The number of digits that the number has at least. -/
def digitCount (num : BitVec 32) (base : Base) (type : Flags) : ℕ :=
  max 1 (Nat.digits base.val (magnitude num type)).length

/-- The sign and the prefix of the base, the digits, and `n` characters of padding. -/
def arrange (type : Flags) (lead digits : List Char) (n : ℕ) : List Char :=
  if type.left then lead ++ digits ++ List.replicate n ' '
  else if type.zeroPad then lead ++ List.replicate n '0' ++ digits
  else List.replicate n ' ' ++ lead ++ digits

/-- The text is the number in its field: the digits make the number in its base, there are as many
as the number and the precision need, and the padding fills the field. -/
def PrintsNumber (num : BitVec 32) (base : Base) (size precision : ℤ) (type : Flags)
    (text : List Char) : Prop :=
  ∃ (ds : List ℕ) (n : ℕ), (∀ d ∈ ds, d < base.val) ∧
    Nat.ofDigits base.val ds.reverse = magnitude num type ∧
    (ds.length : ℤ) = max precision (digitCount num base type) ∧
    text = arrange type (signOf num type ++ specialOf base type) (ds.map (digit type.small)) n ∧
    (text.length : ℤ) =
      max size ((signOf num type ++ specialOf base type).length + ds.length : ℤ)

/-- The room that is left in the field. -/
def roomLeft (num : BitVec 32) (base : Base) (size precision : ℤ) (type : Flags) : ℤ :=
  size - (signOf num type ++ specialOf base type).length -
    max precision (digitCount num base type)

/-- The number of loops over `size` before the last one. -/
def earlierLoops (type : Flags) : ℤ := if type.left then 0 else if type.zeroPad then 1 else 2

/-- The room does not wrap around, or so far that it is not positive again. -/
def SizeFits (num : BitVec 32) (base : Base) (size precision : ℤ) (type : Flags) : Prop :=
  -2147483648 + earlierLoops type ≤ roomLeft num base size precision type ∨
    roomLeft num base size precision type ≤ -4294967296

/-! ### The range of an `int` -/

/-- A number that wraps around. -/
theorem toInt32_eq (i : ℤ) :
    toInt32 i = if i % 4294967296 < 2147483648 then i % 4294967296
      else i % 4294967296 - 4294967296 := by
  rw [toInt32, Int.bmod_def]
  norm_num

theorem toInt32_sub (i j : ℤ) : toInt32 (toInt32 i - j) = toInt32 (i - j) := by
  rw [toInt32, toInt32, toInt32, Int.bmod_sub_bmod]

theorem toInt32_toInt (w : BitVec 32) : toInt32 w.toInt = w.toInt := by
  have hlow := w.le_toInt
  have hhigh := w.toInt_lt
  rw [toInt32_eq]
  norm_num at hlow hhigh
  split_ifs <;> omega

theorem toInt32_low {i n : ℤ} (hn : toInt32 i = n) : -2147483648 ≤ n := by
  rw [← hn, toInt32_eq]
  split_ifs <;> omega

/-! ### The room in the field -/

section Number

variable {num : BitVec 32} {base : Base} {size precision : BitVec 32} {type : Flags}

theorem length_signOf (num : BitVec 32) (type : Flags) :
    signOf num type = [] ∨ (signOf num type).length = 1 := by
  rw [signOf]
  split_ifs <;> simp

theorem signSize_eq (num : BitVec 32) (type : Flags) (size : BitVec 32) :
    signSize (signOf num type) size.toInt = toInt32 (size.toInt - (signOf num type).length) := by
  rw [signSize]
  rcases length_signOf num type with hnil | hone
  · rw [if_pos hnil, hnil, List.length_nil, Nat.cast_zero, sub_zero, toInt32_toInt]
  · have hne : signOf num type ≠ [] := by
      intro hnil
      rw [hnil] at hone
      cases hone
    rw [if_neg hne, hone, Nat.cast_one]

theorem specialSize_eq (base : Base) (type : Flags) (i : ℤ) :
    specialSize base type (toInt32 i) = toInt32 (i - (specialOf base type).length) := by
  rw [specialSize, specialOf]
  by_cases hspecial : type.special
  · rw [if_pos hspecial, if_pos hspecial]
    by_cases h16 : base.val = 16
    · have h8 : base.val ≠ 8 := by omega
      rw [if_pos h16, if_neg h8, if_pos h16, toInt32_sub]
      rfl
    · rw [if_neg h16, if_neg h16]
      by_cases h8 : base.val = 8
      · rw [if_pos h8, if_pos h8, toInt32_sub]
        rfl
      · rw [if_neg h8, if_neg h8, List.length_nil, Nat.cast_zero, sub_zero]
  · rw [if_neg hspecial, if_neg hspecial, List.length_nil, Nat.cast_zero, sub_zero]

/-- The number without its sign, as a number. -/
theorem toNat_unsignedOf (num : BitVec 32) (type : Flags) :
    (unsignedOf num type).toNat = magnitude num type := by
  have hint := BitVec.toInt_eq_toNat_cond num
  have hlt := num.isLt
  rw [unsignedOf, magnitude]
  by_cases hsign : type.sign
  · by_cases hneg : num.toInt < 0
    · rw [if_pos ⟨hsign, hneg⟩, if_pos hsign, BitVec.toNat_neg]
      split_ifs at hint <;> omega
    · rw [if_neg fun h => hneg h.2, if_pos hsign]
      split_ifs at hint <;> omega
  · rw [if_neg fun h => hsign h.1, if_neg hsign]

/-- The digits that are printed at least. -/
theorem tmpOf_eq (num : BitVec 32) (base : Base) (type : Flags) :
    ∃ ds : List ℕ, (tmpOf (unsignedOf num type) base type).reverse = ds.map (digit type.small) ∧
      (∀ d ∈ ds, d < base.val) ∧ Nat.ofDigits base.val ds.reverse = magnitude num type ∧
      ds.length = digitCount num base type := by
  have hbase := base.two_le
  rw [tmpOf_reverse, toNat_unsignedOf, digitCount]
  by_cases hzero : magnitude num type = 0
  · refine ⟨[0], ?_, ?_, ?_, ?_⟩
    · rw [if_pos hzero]
      cases type.small <;> rfl
    · intro d hd
      rw [List.mem_singleton.mp hd]
      omega
    · rw [hzero]
      rfl
    · rw [hzero, Nat.digits_zero]
      rfl
  · refine ⟨(Nat.digits base.val (magnitude num type)).reverse, ?_, ?_, ?_, ?_⟩
    · rw [if_neg hzero, List.map_reverse]
    · intro d hd
      exact Nat.digits_lt_base hbase (List.mem_reverse.mp hd)
    · rw [List.reverse_reverse, Nat.ofDigits_digits]
    · have hpos : (Nat.digits base.val (magnitude num type)).length ≠ 0 := by
        intro hlen
        exact hzero (Nat.digits_eq_nil_iff_eq_zero.mp (List.length_eq_zero_iff.mp hlen))
      rw [List.length_reverse]
      omega

theorem length_tmpOf (num : BitVec 32) (base : Base) (type : Flags) :
    (tmpOf (unsignedOf num type) base type).length = digitCount num base type := by
  obtain ⟨ds, htext, -, -, hlen⟩ := tmpOf_eq num base type
  rw [← hlen, ← List.length_map (digit type.small), ← htext, List.length_reverse]

/-- The digits with the zeros of the precision. -/
theorem digits_eq (num : BitVec 32) (base : Base) (precision : ℤ) (type : Flags) :
    ∃ ds : List ℕ, (pad32 (max precision (tmpOf (unsignedOf num type) base type).length -
        (tmpOf (unsignedOf num type) base type).length) '0').1 ++
          (tmpOf (unsignedOf num type) base type).reverse = ds.map (digit type.small) ∧
      (∀ d ∈ ds, d < base.val) ∧ Nat.ofDigits base.val ds.reverse = magnitude num type ∧
      (ds.length : ℤ) = max precision (digitCount num base type) := by
  have hbase := base.two_le
  obtain ⟨ds, htext, hlt, hvalue, hlen⟩ := tmpOf_eq num base type
  rw [length_tmpOf, htext]
  obtain ⟨z, hz⟩ : ∃ z, (max precision (digitCount num base type : ℤ) -
    digitCount num base type).toNat = z := ⟨_, rfl⟩
  refine ⟨List.replicate z 0 ++ ds, ?_, ?_, ?_, ?_⟩
  · have hdigit : digit type.small 0 = '0' := by cases type.small <;> rfl
    rw [pad32, hz, List.map_append, List.map_replicate, hdigit]
  · intro d hd
    rcases List.mem_append.mp hd with hd | hd
    · rw [List.eq_of_mem_replicate hd]
      omega
    · exact hlt d hd
  · rw [List.reverse_append, List.reverse_replicate, Nat.ofDigits_append_replicate_zero, hvalue]
  · rw [List.length_append, List.length_replicate, hlen]
    omega

/-- `size` after a loop that stops at 0. -/
def nextSize (size : ℤ) : ℤ := toInt32 (min size 0 - 1)

/-- What is printed, with the padding of each loop. -/
theorem number32_eq_ite {lead text : List Char} {n : ℤ}
    (hlead : signOf num type ++ specialOf base type = lead)
    (htext : (pad32 (max precision.toInt (tmpOf (unsignedOf num type) base type).length -
        (tmpOf (unsignedOf num type) base type).length) '0').1 ++
          (tmpOf (unsignedOf num type) base type).reverse = text)
    (hn : toInt32 (roomLeft num base size.toInt precision.toInt type) = n) :
    number32 num base size precision type =
      if type.left then lead ++ text ++ List.replicate n.toNat ' '
      else if type.zeroPad then
        lead ++ List.replicate n.toNat '0' ++ text ++ List.replicate (nextSize n).toNat ' '
      else List.replicate n.toNat ' ' ++ lead ++ List.replicate (nextSize n).toNat ' ' ++ text ++
        List.replicate (nextSize (nextSize n)).toNat ' ' := by
  have hsize : toInt32 (specialSize base type (signSize (signOf num type) size.toInt) -
      max precision.toInt (tmpOf (unsignedOf num type) base type).length) = n := by
    rw [signSize_eq, specialSize_eq, toInt32_sub, ← hn, roomLeft, List.length_append, length_tmpOf]
    congr 1
    push_cast
    ring
  have hnumber : number32 num base size precision type =
      (let zero := type.zeroPad && !type.left
       let before := if zero ∨ type.left then ([], n) else pad32 n ' '
       let fill := if type.left then ([], before.2) else pad32 before.2 (if zero then '0' else ' ')
       before.1 ++ lead ++ fill.1 ++ text ++ (pad32 fill.2 ' ').1) := by
    rw [← hlead, ← htext, ← hsize, number32]
    simp only [List.append_assoc]
    rfl
  rw [hnumber]
  cases hleft : type.left with
  | true => simp [pad32]
  | false =>
    cases hzero : type.zeroPad with
    | true => simp [pad32, nextSize]
    | false => simp [pad32, nextSize]

/-- A number of 32 bits has between 1 and 36 digits. -/
theorem digitCount_bounds (num : BitVec 32) (base : Base) (type : Flags) :
    1 ≤ digitCount num base type ∧ digitCount num base type ≤ 36 := by
  have hlt : magnitude num type < base.val ^ 36 := by
    rw [← toNat_unsignedOf]
    exact toNat_lt_pow base _
  have hlen := (Nat.digits_length_le_iff base.two_le _).mpr hlt
  rw [digitCount]
  omega

/-- The room in a field is not far out of the range. -/
theorem roomLeft_bounds (num : BitVec 32) (base : Base) (size precision : BitVec 32)
    (type : Flags) : -4294967300 < roomLeft num base size.toInt precision.toInt type ∧
      roomLeft num base size.toInt precision.toInt type < 2147483647 := by
  have hlow := size.le_toInt
  have hhigh := size.toInt_lt
  have hhigh' := precision.toInt_lt
  norm_num at hlow hhigh hhigh'
  have hsign : (signOf num type).length ≤ 1 := by
    rcases length_signOf num type with hnil | hone
    · rw [hnil]
      exact Nat.zero_le 1
    · exact hone.le
  have hspecial : (specialOf base type).length ≤ 2 := by
    rw [specialOf]
    split_ifs <;> simp
  obtain ⟨hcount, hcount'⟩ := digitCount_bounds num base type
  rw [roomLeft, List.length_append]
  push_cast
  omega

/-- The next value of `size`. -/
theorem nextSize_eq {n : ℤ} (hlow : -2147483648 ≤ n) :
    nextSize n = if n = -2147483648 then 2147483647 else min n 0 - 1 := by
  rw [nextSize, toInt32_eq]
  split_ifs <;> omega

/-- The paddings of the loops fill the room exactly if the room fits. -/
theorem paddings_eq_iff (type : Flags) {room n : ℤ} (hlow : -4294967300 < room)
    (hhigh : room < 2147483647) (hn : toInt32 room = n) :
    (if type.left then n.toNat
      else if type.zeroPad then n.toNat + (nextSize n).toNat
      else n.toNat + (nextSize n).toNat + (nextSize (nextSize n)).toNat) = room.toNat ↔
        -2147483648 + earlierLoops type ≤ room ∨ room ≤ -4294967296 := by
  have hrange : n = if -2147483648 ≤ room then room else room + 4294967296 := by
    rw [← hn, toInt32_eq]
    split_ifs <;> omega
  have hnlow : -2147483648 ≤ n := by
    split_ifs at hrange <;> omega
  have hnext := nextSize_eq hnlow
  have hnextlow : -2147483648 ≤ nextSize n := by
    split_ifs at hnext <;> omega
  have hnext' := nextSize_eq hnextlow
  rw [earlierLoops]
  cases type.left <;> cases type.zeroPad
  all_goals
    simp only [Bool.false_eq_true, if_true, if_false]
    split_ifs at hrange hnext hnext' <;> omega

/-- A loop that starts below 1 pads nothing, or more than a field has room for. -/
theorem nextSize_toNat_eq_zero {n room : ℤ} (hlow : -2147483648 ≤ n) (hhigh : room < 2147483647)
    (hle : (nextSize n).toNat ≤ room.toNat) : (nextSize n).toNat = 0 := by
  have hnext := nextSize_eq hlow
  split_ifs at hnext <;> omega

theorem length_arrange (type : Flags) (lead digits : List Char) (n : ℕ) :
    (arrange type lead digits n).length = lead.length + digits.length + n := by
  rw [arrange]
  split_ifs <;> simp <;> omega

/-- If the number is printed in its field, then the room in the field fits. -/
theorem sizeFits_of_prints (h : PrintsNumber num base size.toInt precision.toInt type
    (number32 num base size precision type)) :
    SizeFits num base size.toInt precision.toInt type := by
  obtain ⟨ds, htext, -, -, hlen⟩ := digits_eq num base precision.toInt type
  obtain ⟨lead, hlead⟩ : ∃ lead, signOf num type ++ specialOf base type = lead := ⟨_, rfl⟩
  obtain ⟨n, hn⟩ : ∃ n, toInt32 (roomLeft num base size.toInt precision.toInt type) = n := ⟨_, rfl⟩
  obtain ⟨hlow, hhigh⟩ := roomLeft_bounds num base size precision type
  have hroom : roomLeft num base size.toInt precision.toInt type =
      size.toInt - lead.length - ds.length := by
    rw [roomLeft, hlead, hlen]
  have hnumber := number32_eq_ite hlead htext hn
  obtain ⟨ds', n', -, -, hlen', -, htotal⟩ := h
  have hsame : ds'.length = ds.length := by omega
  rw [hlead, hsame, hnumber] at htotal
  rw [SizeFits, ← paddings_eq_iff type hlow hhigh hn]
  split_ifs at htotal ⊢
  all_goals
    simp only [List.length_append, List.length_replicate, List.length_map] at htotal
    omega

/-- The number in its field, with the room that is left as its padding. -/
theorem number_eq_arrange {lead text : List Char}
    (hlead : signOf num type ++ specialOf base type = lead)
    (htext : (pad32 (max precision.toInt (tmpOf (unsignedOf num type) base type).length -
        (tmpOf (unsignedOf num type) base type).length) '0').1 ++
          (tmpOf (unsignedOf num type) base type).reverse = text) :
    number num base size.toInt precision.toInt type =
      arrange type lead text (roomLeft num base size.toInt precision.toInt type).toNat := by
  rw [arrange]
  apply number_eq_ite type base size.toInt precision.toInt hlead htext
  rw [roomLeft, List.length_append, length_tmpOf]
  push_cast
  ring

/-- If the room in the field fits, then nothing is lost by counting it without bounds. -/
theorem SizeFits.number32_eq_number
    (h : SizeFits num base size.toInt precision.toInt type) :
    number32 num base size precision type =
      number num base size.toInt precision.toInt type := by
  obtain ⟨ds, htext, -⟩ := digits_eq num base precision.toInt type
  obtain ⟨lead, hlead⟩ : ∃ lead, signOf num type ++ specialOf base type = lead := ⟨_, rfl⟩
  obtain ⟨n, hn⟩ : ∃ n, toInt32 (roomLeft num base size.toInt precision.toInt type) = n := ⟨_, rfl⟩
  obtain ⟨hlow, hhigh⟩ := roomLeft_bounds num base size precision type
  have hnlow := toInt32_low hn
  rw [SizeFits, ← paddings_eq_iff type hlow hhigh hn] at h
  rw [number32_eq_ite hlead htext hn, number_eq_arrange hlead htext, arrange]
  obtain ⟨room, hroom⟩ : ∃ room, roomLeft num base size.toInt precision.toInt type = room :=
    ⟨_, rfl⟩
  rw [hroom] at h hhigh ⊢
  split_ifs at h ⊢
  · rw [h]
  · have hzero := nextSize_toNat_eq_zero hnlow hhigh (by omega)
    have hfirst : n.toNat = room.toNat := by omega
    rw [hzero, hfirst, List.replicate_zero, List.append_nil]
  · have hzero := nextSize_toNat_eq_zero hnlow hhigh (by omega)
    have hnextlow : -2147483648 ≤ nextSize n := toInt32_low rfl
    have hzero' := nextSize_toNat_eq_zero hnextlow hhigh (by omega)
    have hfirst : n.toNat = room.toNat := by omega
    rw [hzero, hzero', hfirst, List.replicate_zero, List.append_nil, List.append_nil]

/-- Without bounds for its `int`s `number` prints every number in its field. -/
theorem prints_number (num : BitVec 32) (base : Base) (size precision : BitVec 32)
    (type : Flags) : PrintsNumber num base size.toInt precision.toInt type
      (number num base size.toInt precision.toInt type) := by
  obtain ⟨ds, htext, hlt, hvalue, hlen⟩ := digits_eq num base precision.toInt type
  obtain ⟨lead, hlead⟩ : ∃ lead, signOf num type ++ specialOf base type = lead := ⟨_, rfl⟩
  have hroom : roomLeft num base size.toInt precision.toInt type =
      size.toInt - lead.length - ds.length := by
    rw [roomLeft, hlead, hlen]
  have hnumber := @number_eq_arrange num base size precision type lead _ hlead htext
  refine ⟨ds, (roomLeft num base size.toInt precision.toInt type).toNat, hlt, hvalue, hlen, ?_,
    ?_⟩
  · rw [hlead, hnumber]
  · rw [hlead, hnumber, length_arrange, List.length_map]
    push_cast
    omega

/-- For every number, base, width, precision and set of flags, the number is printed in its field
exactly if the room in the field fits into an `int`. -/
theorem number32_prints_iff (num : BitVec 32) (base : Base) (size precision : BitVec 32)
    (type : Flags) :
    PrintsNumber num base size.toInt precision.toInt type
        (number32 num base size precision type) ↔
      SizeFits num base size.toInt precision.toInt type := by
  constructor
  · exact sizeFits_of_prints
  · intro h
    rw [h.number32_eq_number]
    exact prints_number num base size precision type

/-- The conversion `%2147483648d` of the number 5, whose width is the least `int`, is not the number
in its field. -/
theorem not_prints_leastSize :
    ¬PrintsNumber 5 decimal (2147483648 : BitVec 32).toInt (4294967295 : BitVec 32).toInt
      { Flags.none with sign := true }
      (number32 5 decimal 2147483648 4294967295 { Flags.none with sign := true }) := by
  intro hprints
  have hfits := sizeFits_of_prints hprints
  have hsize : (2147483648 : BitVec 32).toInt = -2147483648 := by decide
  have hprecision : (4294967295 : BitVec 32).toInt = -1 := by decide
  have hlead : signOf 5 { Flags.none with sign := true } ++
      specialOf decimal { Flags.none with sign := true } = [] := by decide
  obtain ⟨hlow, hhigh⟩ := digitCount_bounds 5 decimal { Flags.none with sign := true }
  rw [SizeFits, roomLeft, hlead, hsize, hprecision, List.length_nil, earlierLoops] at hfits
  simp only [Flags.none, Bool.false_eq_true, if_false] at hfits hlow hhigh
  omega

end Number

end LihaLinux.Print
