import LihaLinux.Print.Numbers

/-!
# Conversions without `*`

What is between `%` and a conversion is read as it is written, and the conversion prints what the
format language says.
-/

namespace LihaLinux.Print

/-! ### Flags -/

/-- A flag is set. -/
def Flag.add (f : Flags) : Flag → Flags
  | minus => { f with left := true }
  | plus => { f with plus := true }
  | space => { f with space := true }
  | hash => { f with special := true }
  | zero => { f with zeroPad := true }

theorem addFlag_char (f : Flags) (fl : Flag) : addFlag f fl.char = some (fl.add f) := by
  cases fl <;> rfl

/-- All flags of a list are set. -/
theorem foldl_add (fs : List Flag) (f : Flags) :
    fs.foldl Flag.add f =
      ⟨f.zeroPad || decide (Flag.zero ∈ fs), f.sign, f.plus || decide (Flag.plus ∈ fs),
        f.space || decide (Flag.space ∈ fs), f.left || decide (Flag.minus ∈ fs),
        f.special || decide (Flag.hash ∈ fs), f.small⟩ := by
  induction fs generalizing f with
  | nil => simp
  | cons fl fs ih =>
    rw [List.foldl_cons, ih]
    cases fl <;> simp [Flag.add]

/-- A character that is not a flag. -/
def NotFlag (c : Char) : Prop := ∀ f, addFlag f c = none

theorem readFlags_map (fs : List Flag) (f : Flags) {c : Char} (hc : NotFlag c)
    (rest : List Char) :
    readFlags f (fs.map Flag.char ++ c :: rest) = (fs.foldl Flag.add f, c :: rest) := by
  induction fs generalizing f with
  | nil =>
    rw [List.map_nil, List.nil_append, List.foldl_nil, readFlags, hc f]
  | cons fl fs ih =>
    rw [List.map_cons, List.cons_append, readFlags, addFlag_char]
    exact ih (fl.add f)

/-! ### Numbers -/

theorem le_valueFrom (ds : List ℕ) (i : ℕ) : i ≤ valueFrom i ds := by
  induction ds generalizing i with
  | nil => exact Nat.le_refl i
  | cons d ds ih =>
    have hrest : i * 10 + d ≤ valueFrom i (d :: ds) := ih (i * 10 + d)
    omega

theorem isDigit_ofNat {d : ℕ} (hd : d < 10) : (Char.ofNat (48 + d)).isDigit = true := by
  interval_cases d <;> rfl

theorem toNat_ofNat {d : ℕ} (hd : d < 10) : (Char.ofNat (48 + d)).toNat = 48 + d := by
  interval_cases d <;> rfl

/-- The digits of a number are read up to the first character that is not a digit. -/
theorem skipAtoi_text {ds : List ℕ} {i : ℕ} (hdigit : ∀ d ∈ ds, d < 10)
    (hfits : valueFrom i ds < 2147483648) {c : Char} (hc : c.isDigit = false)
    (rest : List Char) :
    skipAtoi i (ds.map (fun d => Char.ofNat (48 + d)) ++ c :: rest) =
      ((valueFrom i ds : ℤ), c :: rest) := by
  induction ds generalizing i with
  | nil =>
    change (if c.isDigit then _ else _) = _
    rw [if_neg (by rw [hc]; exact Bool.false_ne_true)]
    rfl
  | cons d ds ih =>
    have hd := hdigit d List.mem_cons_self
    have hle : i * 10 + d ≤ valueFrom i (d :: ds) := le_valueFrom ds (i * 10 + d)
    have hint : toInt32 ((i : ℤ) * 10 + (Char.ofNat (48 + d)).toNat - 48) = (i * 10 + d : ℕ) := by
      rw [toNat_ofNat hd, toInt32, Int.bmod_eq_of_le] <;> omega
    change (if (Char.ofNat (48 + d)).isDigit then
      skipAtoi (toInt32 ((i : ℤ) * 10 + (Char.ofNat (48 + d)).toNat - 48)) _ else _) = _
    rw [if_pos (isDigit_ofNat hd), hint]
    exact ih (fun d' hd' => hdigit d' (List.mem_cons_of_mem d hd')) hfits

/-! ### What follows -/

/-- A character that does not belong to the flags, to a number or to a `*`. -/
structure Ordinary (c : Char) : Prop where
  notFlag : NotFlag c
  digit : c.isDigit = false
  star : c ≠ '*'

theorem Conversion.ordinary (conv : Conversion) : Ordinary conv.char := by
  cases conv <;> exact ⟨fun _ => rfl, rfl, by decide⟩

theorem Qualifier.ordinary (q : Qualifier) : Ordinary q.char := by
  cases q <;> exact ⟨fun _ => rfl, rfl, by decide⟩

theorem point_ordinary : Ordinary '.' := ⟨fun _ => rfl, rfl, by decide⟩

section Reading

variable (d : Directive) (e : Args) (used : ℕ) (rest : List Char)

/-- The qualifier and the conversion, with what follows. -/
def Directive.tail : List Char :=
  (d.qualifier.map Qualifier.char).toList ++ d.conv.char :: rest

theorem Directive.tail_head : ∃ c t, d.tail rest = c :: t ∧ Ordinary c ∧ c ≠ '.' := by
  rw [tail]
  cases d.qualifier with
  | none => exact ⟨_, _, rfl, d.conv.ordinary, by cases d.conv <;> decide⟩
  | some q => exact ⟨_, _, rfl, q.ordinary, by cases q <;> decide⟩

theorem Directive.precision_head :
    ∃ c t, precisionText d.precision ++ d.tail rest = c :: t ∧ Ordinary c := by
  cases d.precision with
  | none =>
    obtain ⟨c, t, hct, hc, -⟩ := d.tail_head rest
    exact ⟨c, t, hct, hc⟩
  | some a => exact ⟨_, _, rfl, point_ordinary⟩

theorem notFlag_digit {n : ℕ} (hn : n < 10) (hzero : n ≠ 0) : NotFlag (Char.ofNat (48 + n)) := by
  intro f
  interval_cases n
  · exact absurd rfl hzero
  all_goals rfl

theorem Numeral.text_cons {n : Numeral} {x : ℕ} {ds : List ℕ} (hds : n.ds = x :: ds) :
    n.text = Char.ofNat (48 + x) :: ds.map fun d => Char.ofNat (48 + d) := by
  rw [text, hds]
  rfl

theorem Directive.width_head (hstar : d.width ≠ some .star) :
    ∃ c t, widthText d.width ++ (precisionText d.precision ++ d.tail rest) = c :: t ∧
      NotFlag c := by
  obtain ⟨c, t, hct, hc⟩ := d.precision_head rest
  cases hwidth : d.width with
  | none => exact ⟨c, t, hct, hc.notFlag⟩
  | some a =>
    cases a with
    | star => exact absurd hwidth hstar
    | digits n =>
      obtain ⟨x, ds, hds, hx⟩ := d.width_digits n hwidth
      have hlt : x < 10 := n.digit x (by rw [hds]; exact List.mem_cons_self)
      rw [widthText, Amount.text, Numeral.text_cons hds]
      exact ⟨_, _, rfl, notFlag_digit hlt hx⟩

/-- A number that begins with a digit is read. -/
theorem skipAtoi_numeral (n : Numeral) {c : Char} (hc : c.isDigit = false) :
    skipAtoi 0 (n.text ++ c :: rest) = ((n.value : ℤ), c :: rest) :=
  skipAtoi_text n.digit n.fits hc rest

theorem readWidth_text (f : Flags) (hstar : d.width ≠ some .star) :
    ∃ width : ℤ, readWidth e
        ⟨f, -1, -1, used, widthText d.width ++ (precisionText d.precision ++ d.tail rest)⟩ =
          ⟨f, width, -1, used, precisionText d.precision ++ d.tail rest⟩ ∧
      IntOf width (d.widthValue e used) ∧ (width = -1 ↔ d.width = none) := by
  obtain ⟨c, t, hct, hc⟩ := d.precision_head rest
  rw [Directive.widthValue, hct]
  cases hwidth : d.width with
  | none =>
    refine ⟨-1, ?_, Or.inr ⟨rfl, rfl⟩, iff_of_true rfl rfl⟩
    change (if c.isDigit then _ else if c = '*' then _ else _) = _
    rw [if_neg (by rw [hc.digit]; exact Bool.false_ne_true), if_neg hc.star]
    rfl
  | some a =>
    cases a with
    | star => exact absurd hwidth hstar
    | digits n =>
      obtain ⟨x, ds, hds, -⟩ := d.width_digits n hwidth
      have hlt : x < 10 := n.digit x (by rw [hds]; exact List.mem_cons_self)
      have hskip := skipAtoi_numeral t n hc.digit
      refine ⟨n.value, ?_, Or.inl rfl, iff_of_false (by omega) (Option.some_ne_none _)⟩
      change readWidth e ⟨f, -1, -1, used, n.text ++ c :: t⟩ = _
      rw [Numeral.text_cons hds] at hskip ⊢
      change (if (Char.ofNat (48 + x)).isDigit then _ else _) = _
      rw [if_pos (isDigit_ofNat hlt)]
      dsimp only
      rw [hskip]

/-- The precision that has been read. -/
def PrecisionRead (i : ℤ) : Option ℕ → Prop
  | none => i = -1
  | some n => i = n

theorem PrecisionRead.intOf {i : ℤ} {o : Option ℕ} (h : PrecisionRead i o) :
    IntOf i (o.getD 0) := by
  cases o with
  | none => exact Or.inr ⟨h, rfl⟩
  | some n => exact Or.inl h

/-- The digits after the point are read, and there may be none. -/
theorem readPoint_text (n : Numeral) (f : Flags) (width : ℤ) {c : Char} (hc : Ordinary c) :
    ∃ precision : ℤ, readPoint e ⟨f, width, -1, used, n.text ++ c :: rest⟩ =
        ⟨f, width, precision, used, c :: rest⟩ ∧ max precision 0 = n.value := by
  cases hds : n.ds with
  | nil =>
    have htext : n.text = [] := by
      rw [Numeral.text, hds]
      rfl
    have hvalue : n.value = 0 := by
      rw [Numeral.value, hds]
      rfl
    rw [htext, hvalue]
    refine ⟨-1, ?_, rfl⟩
    change (if c.isDigit then _ else if c = '*' then _ else _) = _
    rw [if_neg (by rw [hc.digit]; exact Bool.false_ne_true), if_neg hc.star]
    rfl
  | cons x ds =>
    have hlt : x < 10 := n.digit x (by rw [hds]; exact List.mem_cons_self)
    have hskip := skipAtoi_numeral rest n hc.digit
    refine ⟨n.value, ?_, max_eq_left (by omega)⟩
    rw [Numeral.text_cons hds] at hskip ⊢
    change (if (Char.ofNat (48 + x)).isDigit then _ else _) = _
    rw [if_pos (isDigit_ofNat hlt)]
    dsimp only
    rw [hskip]

theorem readPrecision_text (f : Flags) (width : ℤ) (hstar : d.precision ≠ some .star) (i : ℕ) :
    ∃ precision : ℤ, readPrecision e
        ⟨f, width, -1, used, precisionText d.precision ++ d.tail rest⟩ =
          ⟨f, width, precision, used, d.tail rest⟩ ∧
      PrecisionRead precision (d.precisionValue e i) := by
  obtain ⟨c, t, hct, hc, hpoint⟩ := d.tail_head rest
  rw [Directive.precisionValue, hct]
  cases hprecision : d.precision with
  | none =>
    refine ⟨-1, ?_, rfl⟩
    change (if c = '.' then _ else _) = _
    rw [if_neg hpoint]
    rfl
  | some a =>
    cases a with
    | star => exact absurd hprecision hstar
    | digits n =>
      obtain ⟨precision, hread, hmax⟩ := readPoint_text e used t n f width hc
      refine ⟨n.value, ?_, rfl⟩
      rw [← hmax]
      change (let p := readPoint e ⟨f, width, -1, used, n.text ++ c :: t⟩
        ({ p with precision := max p.precision 0 } : Field)) = _
      rw [hread]

theorem readQualifier_tail (f : Flags) (width precision : ℤ) :
    readQualifier ⟨f, width, precision, used, d.tail rest⟩ =
      ⟨f, width, precision, used, d.conv.char :: rest⟩ := by
  rw [Directive.tail]
  cases d.qualifier with
  | none => cases d.conv <;> rfl
  | some q => cases q <;> rfl

/-- A conversion without `*`. -/
def Directive.NoStar : Prop := d.width ≠ some .star ∧ d.precision ≠ some .star

/-- All that is between `%` and the conversion is read. -/
theorem readField_text (hstar : d.NoStar) :
    ∃ width precision : ℤ, readField e used (d.text ++ rest) =
        ⟨d.flags.foldl Flag.add Flags.none, width, precision, used, d.conv.char :: rest⟩ ∧
      IntOf width (d.widthValue e used) ∧ (width = -1 ↔ d.width = none) ∧
      PrecisionRead precision (d.precisionValue e used) := by
  obtain ⟨c, t, hct, hc⟩ := d.width_head rest hstar.1
  obtain ⟨width, hwidth, hwidthValue, hnone⟩ :=
    readWidth_text d e used rest (d.flags.foldl Flag.add Flags.none) hstar.1
  obtain ⟨precision, hprecision, hprecisionValue⟩ :=
    readPrecision_text d e used rest (d.flags.foldl Flag.add Flags.none) width hstar.2 used
  have htext : d.text ++ rest = d.flags.map Flag.char ++
      (widthText d.width ++ (precisionText d.precision ++ d.tail rest)) := by
    simp only [Directive.text, Directive.tail, List.append_assoc, List.singleton_append]
  refine ⟨width, precision, ?_, hwidthValue, hnone, hprecisionValue⟩
  rw [readField, htext, hct, readFlags_map _ _ hc, ← hct]
  dsimp only
  rw [hwidth, hprecision, readQualifier_tail]

end Reading

/-! ### Printing -/

section Printing

variable {d : Directive} {e : Args} {f : Field} {p : Printer} {rest : List Char}

theorem charText_eq_fill {w : BitVec 32} {width : ℕ} (hwidth : IntOf f.width width) :
    charText w f = fill width f.flags.left [Char.ofNat (w.toNat % 256)] := by
  rw [charText, fill]
  have hcount : (f.width - 1).toNat = width - 1 := by
    rcases hwidth with h | ⟨h, rfl⟩ <;> omega
  cases f.flags.left with
  | true => simp [pad, hcount]
  | false =>
    have hafter : (min f.width 1 - 1 - 1).toNat = 0 := by omega
    simp [pad, hcount, hafter]

theorem stringText_eq_fill {s : List Char} {width : ℕ} (hwidth : IntOf f.width width)
    {precision : Option ℕ} (hprecision : PrecisionRead f.precision precision) :
    stringText s f = fill width f.flags.left (cut precision s) := by
  obtain ⟨len, hlen⟩ : ∃ len : ℤ, min (s.length : ℤ)
    (if f.precision < 0 then (s.length : ℤ) else f.precision) = len := ⟨_, rfl⟩
  obtain ⟨text, htext⟩ : ∃ text, s.take len.toNat = text := ⟨_, rfl⟩
  have hexpected : cut precision s = text := by
    rw [← htext, ← hlen]
    cases precision with
    | none =>
      have hneg : f.precision = -1 := hprecision
      rw [if_pos (by omega), min_self, Int.toNat_natCast, List.take_length, cut]
    | some n =>
      have hnonneg : f.precision = n := hprecision
      have htake : (min (s.length : ℤ) n).toNat = min n s.length := by omega
      rw [if_neg (by omega), hnonneg, htake, ← List.take_take, List.take_length, cut]
  have hlength : len = text.length := by
    have hbound : 0 ≤ len ∧ len ≤ s.length := by
      rw [← hlen]
      split_ifs <;> omega
    rw [← htext, List.length_take]
    omega
  rw [hexpected, fill]
  have hcount : (f.width - len).toNat = width - text.length := by
    rcases hwidth with h | ⟨h, rfl⟩ <;> omega
  change (let before := if f.flags.left then ([], f.width) else
      ((pad (f.width - min (s.length : ℤ) _) ' ').1, min f.width (min (s.length : ℤ) _) - 1)
    before.1 ++ s.take (min (s.length : ℤ) _).toNat ++
      (pad (before.2 - min (s.length : ℤ) _) ' ').1) = _
  rw [hlen, htext]
  cases f.flags.left with
  | true => simp [pad, hcount]
  | false =>
    have hafter : (min f.width len - 1 - len).toNat = 0 := by omega
    simp [pad, hcount, hafter]

theorem starCount_eq_zero {a : Option Amount} (h : a ≠ some .star) :
    Directive.starCount a = 0 := by
  cases a with
  | none => rfl
  | some a =>
    cases a with
    | digits n => rfl
    | star => exact absurd rfl h

/-- The flags are those of the style. -/
theorem foldl_add_style (base : Base) (hstar : d.NoStar) (i : ℕ) :
    d.flags.foldl Flag.add Flags.none = (d.style e i).flags ⟨base, false, false⟩ := by
  have hleft : d.widthLeft e i = false := by
    rw [Directive.widthLeft]
    split
    · exact absurd ‹_› hstar.1
    · rfl
  rw [foldl_add, Style.flags, Directive.style, hleft]
  simp [Flags.none]

namespace Directive

/-- What is printed for a conversion when `%%` and `%n` are not padded. -/
def printed (d : Directive) (e : Args) (i : ℕ) : List Char :=
  match d.conv with
  | .n => []
  | .percent => ['%']
  | _ => d.expected e i

end Directive

/-- A part of the format is printed, and `%%` and `%n` are not padded. -/
def Piece.printed (e : Args) (p : Printer) : Piece → Printer
  | literal c _ => p.write [c]
  | directive d =>
    { out := p.out ++ d.printed e p.used
      used := p.used + d.arguments
      stores := p.stores ++ d.stored e p.used p.out.length }

/-- A conversion of a word to text. -/
theorem take_eq_printed (hstar : d.NoStar) (hconv : d.conv ≠ .percent ∧ d.conv ≠ .n)
    {text : List Char} (htext : text = d.expected e p.used) :
    p.take text = (Piece.directive d).printed e p := by
  have hstored : d.stored e p.used p.out.length = [] := by
    rw [Directive.stored]
    split
    · exact absurd ‹_› hconv.2
    · rfl
  have harguments : d.arguments = 1 := by
    rw [Directive.arguments, starCount_eq_zero hstar.1, starCount_eq_zero hstar.2]
    split
    · exact absurd ‹_› hconv.1
    · rfl
  have hprinted : d.printed e p.used = text := by
    rw [Directive.printed]
    split
    · exact absurd ‹_› hconv.2
    · exact absurd ‹_› hconv.1
    · exact htext.symm
  rw [Piece.printed, hstored, harguments, hprinted, List.append_nil]
  rfl

/-- A conversion does what the format language says, but it pads neither `%%` nor `%n`. -/
theorem convert_directive (hstar : d.NoStar) {width precision : ℤ}
    (hwidth : IntOf width (d.widthValue e p.used)) (hnone : width = -1 ↔ d.width = none)
    (hprecision : PrecisionRead precision (d.precisionValue e p.used)) :
    convert e ⟨d.flags.foldl Flag.add Flags.none, width, precision, p.used,
      d.conv.char :: rest⟩ p = ((Piece.directive d).printed e p, rest) := by
  have hword : d.word e p.used = e.word p.used := by
    rw [Directive.word, starCount_eq_zero hstar.1, starCount_eq_zero hstar.2]
    rfl
  have hnumber (base : Base) (signed small : Bool) :
      number (e.word p.used) base width precision
          ((d.style e p.used).flags ⟨base, signed, small⟩) =
        d.number e p.used ⟨base, signed, small⟩ := by
    rw [Directive.number, hword]
    exact number_eq_numberText hwidth hprecision.intOf
  have hprint {text : List Char} (hconv : d.conv ≠ .percent ∧ d.conv ≠ .n)
      (htext : text = d.expected e p.used) : p.take text = (Piece.directive d).printed e p :=
    take_eq_printed hstar hconv htext
  rw [foldl_add_style octal hstar p.used]
  apply Prod.ext
  · cases hconv : d.conv with
    | c =>
      apply hprint (by rw [hconv]; decide)
      rw [Directive.expected, hconv, charText_eq_fill hwidth, hword]
      rfl
    | s =>
      apply hprint (by rw [hconv]; decide)
      rw [Directive.expected, hconv, stringText_eq_fill hwidth hprecision, hword]
      rfl
    | o =>
      apply hprint (by rw [hconv]; decide)
      rw [Directive.expected, hconv]
      exact hnumber octal false false
    | p =>
      apply hprint (by rw [hconv]; decide)
      rw [Directive.expected, hconv, pointerText, Directive.pointer]
      cases hw : d.width with
      | none =>
        rw [if_pos (hnone.mpr hw), hword]
        exact @number_eq_numberText ⟨hexadecimal, false, false⟩
          { d.style e p.used with zero := true } (e.word p.used) 8 precision 8 _ (Or.inl rfl)
          hprecision.intOf
      | some a =>
        rw [if_neg fun h => absurd (hnone.mp h) (by rw [hw]; exact Option.some_ne_none a)]
        exact hnumber hexadecimal false false
    | x =>
      apply hprint (by rw [hconv]; decide)
      rw [Directive.expected, hconv]
      exact hnumber hexadecimal false true
    | X =>
      apply hprint (by rw [hconv]; decide)
      rw [Directive.expected, hconv]
      exact hnumber hexadecimal false false
    | d =>
      apply hprint (by rw [hconv]; decide)
      rw [Directive.expected, hconv]
      exact hnumber decimal true false
    | i =>
      apply hprint (by rw [hconv]; decide)
      rw [Directive.expected, hconv]
      exact hnumber decimal true false
    | u =>
      apply hprint (by rw [hconv]; decide)
      rw [Directive.expected, hconv]
      exact hnumber decimal false false
    | n =>
      rw [Piece.printed, Directive.printed, Directive.stored, Directive.arguments, hconv,
        starCount_eq_zero hstar.1, starCount_eq_zero hstar.2, List.append_nil, hword]
      rfl
    | percent =>
      rw [Piece.printed, Directive.printed, Directive.stored, Directive.arguments, hconv,
        starCount_eq_zero hstar.1, starCount_eq_zero hstar.2, List.append_nil]
      rfl
  · cases d.conv <;> rfl

/-- The parts of a format without `*` are printed one after another. -/
theorem printLoop_format {f : List Piece} (hstar : ∀ d, Piece.directive d ∈ f → d.NoStar)
    {rounds : ℕ} (hrounds : (formatText f).length ≤ rounds) (p : Printer) :
    printLoop e rounds (formatText f) p = f.foldl (Piece.printed e) p := by
  induction f generalizing rounds p with
  | nil =>
    cases rounds with
    | zero => rfl
    | succ rounds => rfl
  | cons piece f ih =>
    have hrest : ∀ d, Piece.directive d ∈ f → d.NoStar :=
      fun d hd => hstar d (List.mem_cons_of_mem piece hd)
    have htext : formatText (piece :: f) = piece.text ++ formatText f := List.flatMap_cons
    rw [htext, List.length_append] at hrounds
    rw [htext, List.foldl_cons]
    cases piece with
    | literal c hc =>
      change 1 + _ ≤ _ at hrounds
      obtain ⟨n, rfl⟩ : ∃ n, rounds = n + 1 := ⟨rounds - 1, by omega⟩
      change (if c ≠ '%' then _ else _) = _
      rw [if_pos hc]
      exact ih hrest (by omega) _
    | directive d =>
      change (d.text).length + 1 + _ ≤ _ at hrounds
      obtain ⟨n, rfl⟩ : ∃ n, rounds = n + 1 := ⟨rounds - 1, by omega⟩
      have hd := hstar d List.mem_cons_self
      obtain ⟨width, precision, hread, hwidth, hnone, hprecision⟩ :=
        readField_text d e p.used (formatText f) hd
      change (if ('%' : Char) ≠ '%' then _ else
        (let r := convert e (readField e p.used (d.text ++ formatText f)) p
        printLoop e n r.2 r.1)) = _
      rw [if_neg (by decide), hread, convert_directive hd hwidth hnone hprecision]
      exact ih hrest (by omega) _

end Printing

end LihaLinux.Print
