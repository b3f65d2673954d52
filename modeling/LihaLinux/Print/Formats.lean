import LihaLinux.Print.Conversions

/-!
# Formats that are printed as they say

A `*` takes its argument but stays in the format, so `vsprintf` prints it. All that it reads of a
format without printing it has no `*`.
-/

namespace LihaLinux.Print

/-! ### What is printed of a `*` -/

/-- The format is read up to `fmt'`, and there is no `*` in what is read. -/
def Skips (fmt fmt' : List Char) : Prop := ∃ read, fmt = read ++ fmt' ∧ '*' ∉ read

namespace Skips

variable {a b c : List Char}

theorem refl (a : List Char) : Skips a a := ⟨[], rfl, List.not_mem_nil⟩

theorem trans (h : Skips a b) (h' : Skips b c) : Skips a c := by
  obtain ⟨r, rfl, hr⟩ := h
  obtain ⟨r', rfl, hr'⟩ := h'
  refine ⟨r ++ r', (List.append_assoc ..).symm, ?_⟩
  rw [List.mem_append, not_or]
  exact ⟨hr, hr'⟩

theorem cons {x : Char} (hx : x ≠ '*') (h : Skips a b) : Skips (x :: a) b := by
  obtain ⟨r, rfl, hr⟩ := h
  refine ⟨x :: r, rfl, ?_⟩
  rw [List.mem_cons, not_or]
  exact ⟨hx.symm, hr⟩

theorem count_eq (h : Skips a b) : b.count '*' = a.count '*' := by
  obtain ⟨r, rfl, hr⟩ := h
  rw [List.count_append, List.count_eq_zero.mpr hr, Nat.zero_add]

theorem length_le (h : Skips a b) : b.length ≤ a.length := by
  obtain ⟨r, rfl, -⟩ := h
  rw [List.length_append]
  exact Nat.le_add_left ..

end Skips

section Reading

variable (e : Args) (p : Field)

theorem readFlags_skips (f : Flags) (fmt : List Char) : Skips fmt (readFlags f fmt).2 := by
  induction fmt generalizing f with
  | nil => exact Skips.refl []
  | cons c fmt ih =>
    rw [readFlags]
    cases hflag : addFlag f c with
    | none => exact Skips.refl _
    | some f' =>
      apply (ih f').cons
      rintro rfl
      exact absurd hflag.symm (Option.some_ne_none f')

theorem skipAtoi_skips (i : ℤ) (fmt : List Char) : Skips fmt (skipAtoi i fmt).2 := by
  induction fmt generalizing i with
  | nil => exact Skips.refl []
  | cons c fmt ih =>
    rw [skipAtoi]
    split_ifs with hdigit
    · apply (ih _).cons
      rintro rfl
      exact absurd hdigit (by decide)
    · exact Skips.refl _

theorem readWidth_skips : Skips p.fmt (readWidth e p).fmt := by
  rw [readWidth]
  split
  · exact Skips.refl _
  · dsimp only
    split_ifs
    · exact skipAtoi_skips 0 p.fmt
    all_goals exact Skips.refl _

theorem readPoint_skips : Skips p.fmt (readPoint e p).fmt := by
  rw [readPoint]
  split
  · exact Skips.refl _
  · split_ifs
    · exact skipAtoi_skips 0 p.fmt
    all_goals exact Skips.refl _

theorem readPrecision_skips : Skips p.fmt (readPrecision e p).fmt := by
  rw [readPrecision]
  split
  · exact Skips.refl _
  · next c fmt hfmt =>
    split_ifs with hpoint
    · rw [hfmt]
      apply (readPoint_skips e { p with fmt := fmt }).cons
      rw [hpoint]
      decide
    · exact Skips.refl _

theorem readQualifier_skips : Skips p.fmt (readQualifier p).fmt := by
  rw [readQualifier]
  split
  · exact Skips.refl _
  · next c fmt hfmt =>
    split_ifs with hqualifier
    · rw [hfmt]
      apply (Skips.refl fmt).cons
      rintro rfl
      exact absurd hqualifier (by decide)
    · exact Skips.refl _

/-- What is read between `%` and the conversion has no `*`. -/
theorem readField_skips (used : ℕ) (fmt : List Char) :
    Skips fmt (readField e used fmt).fmt := by
  rw [readField]
  have hwidth := readWidth_skips e
    ⟨(readFlags Flags.none fmt).1, -1, -1, used, (readFlags Flags.none fmt).2⟩
  exact (readFlags_skips _ fmt).trans (hwidth.trans
    ((readPrecision_skips e _).trans (readQualifier_skips _)))

end Reading

/-! ### Text without `*` -/

/-- All arguments are 0, and the string at address 0 is empty. -/
def zeros : Args := ⟨fun _ => 0, fun _ => []⟩

theorem digit_ne_star (small : Bool) (i : ℕ) : digit small i ≠ '*' := by
  have hstar : '*' ∉ digits small := by cases small <;> simp [digits]
  rw [digit, List.getD_eq_getElem?_getD]
  cases hi : (digits small)[i]? with
  | none => decide
  | some c =>
    rintro rfl
    exact hstar (List.mem_of_getElem? hi)

theorem notMem_replicate {c : Char} (hc : c ≠ '*') (n : ℕ) : '*' ∉ List.replicate n c :=
  fun h => hc (List.eq_of_mem_replicate h).symm

theorem notMem_append {a b : List Char} (ha : '*' ∉ a) (hb : '*' ∉ b) : '*' ∉ a ++ b := by
  rw [List.mem_append, not_or]
  exact ⟨ha, hb⟩

theorem notMem_fill {text : List Char} (h : '*' ∉ text) {width : ℕ} {left : Bool} :
    '*' ∉ fill width left text := by
  rw [fill]
  split_ifs
  · exact notMem_append h (notMem_replicate (by decide) _)
  · exact notMem_append (notMem_replicate (by decide) _) h

theorem notMem_signOf (w : BitVec 32) (type : Flags) : '*' ∉ signOf w type := by
  rw [signOf]
  split_ifs <;> decide

theorem notMem_specialOf (base : Base) (type : Flags) : '*' ∉ specialOf base type := by
  rw [specialOf]
  split_ifs
  · decide
  · simpa using (digit_ne_star type.small 33).symm
  · exact List.not_mem_nil
  · exact List.not_mem_nil

theorem notMem_tmpOf (w : BitVec 32) (base : Base) (type : Flags) :
    '*' ∉ (tmpOf w base type).reverse := by
  rw [List.mem_reverse, tmpOf]
  split_ifs
  · decide
  · intro h
    obtain ⟨i, -, hi⟩ := List.mem_map.mp h
    exact digit_ne_star type.small i hi

/-- A number has no `*`. -/
theorem notMem_number {w : BitVec 32} {base : Base} {size precision : ℤ} {type : Flags} :
    '*' ∉ number w base size precision type := by
  have htext : '*' ∉ (pad (max precision (tmpOf (unsignedOf w type) base type).length -
      (tmpOf (unsignedOf w type) base type).length) '0').1 ++
        (tmpOf (unsignedOf w type) base type).reverse :=
    notMem_append (notMem_replicate (by decide) _) (notMem_tmpOf _ _ _)
  have hlead : '*' ∉ signOf w type ++ specialOf base type :=
    notMem_append (notMem_signOf w type) (notMem_specialOf base type)
  rw [number_eq_ite type base size precision rfl rfl rfl]
  split_ifs
  · exact notMem_append (notMem_append hlead htext) (notMem_replicate (by decide) _)
  · exact notMem_append (notMem_append hlead (notMem_replicate (by decide) _)) htext
  · exact notMem_append (notMem_append (notMem_replicate (by decide) _) hlead) htext

theorem notMem_numberText {kind : NumberKind} {style : Style} {width digits : ℕ}
    {w : BitVec 32} : '*' ∉ numberText kind style width digits w := by
  rw [← number_eq_numberText (Or.inl rfl) (Or.inl rfl)]
  exact notMem_number

/-- Nothing that is to be printed for arguments that are 0 has a `*`. -/
theorem notMem_expected (d : Directive) (i : ℕ) : '*' ∉ d.expected zeros i := by
  have hnumber (kind : NumberKind) : '*' ∉ d.number zeros i kind := notMem_numberText
  rw [Directive.expected]
  cases d.conv with
  | c =>
    have hchar : '*' ∉ [Char.ofNat ((0 : BitVec 32).toNat % 256)] := by decide
    exact notMem_fill hchar
  | s =>
    have hcut : cut (d.precisionValue zeros i) [] = [] := by
      cases d.precisionValue zeros i with
      | none => rfl
      | some n => exact List.take_nil
    change '*' ∉ fill _ _ (cut _ [])
    rw [hcut]
    exact notMem_fill List.not_mem_nil
  | o => exact hnumber _
  | p =>
    change '*' ∉ d.pointer zeros i
    rw [Directive.pointer]
    split
    · exact notMem_numberText
    · exact hnumber _
  | x => exact hnumber _
  | X => exact hnumber _
  | d => exact hnumber _
  | i => exact hnumber _
  | u => exact hnumber _
  | n => exact notMem_fill List.not_mem_nil
  | percent =>
    have hchar : '*' ∉ ['%'] := by decide
    exact notMem_fill hchar

theorem notMem_charText (f : Field) : '*' ∉ charText 0 f := by
  rw [charText]
  split_ifs
  · exact notMem_append (notMem_append List.not_mem_nil (by decide))
      (notMem_replicate (by decide) _)
  · exact notMem_append (notMem_append (notMem_replicate (by decide) _) (by decide))
      (notMem_replicate (by decide) _)

theorem notMem_stringText (f : Field) : '*' ∉ stringText [] f := by
  have htake (n : ℕ) : '*' ∉ ([] : List Char).take n := by
    rw [List.take_nil]
    exact List.not_mem_nil
  have hspaces (n : ℕ) : '*' ∉ List.replicate n ' ' := notMem_replicate (by decide) n
  rw [stringText]
  apply notMem_append (notMem_append _ (htake _)) (hspaces _)
  cases f.flags.left with
  | true => exact List.not_mem_nil
  | false => exact hspaces _

theorem notMem_pointerText (w : BitVec 32) (f : Field) : '*' ∉ pointerText w f := by
  rw [pointerText]
  split_ifs
  · exact notMem_number
  · exact notMem_number

/-- A conversion prints the `*` that it reads, when the arguments are 0, and no other. -/
theorem convert_zeros (f : Field) (p : Printer) :
    ∃ text read, (convert zeros f p).1.out = p.out ++ text ∧
      f.fmt = read ++ (convert zeros f p).2 ∧ text.count '*' = read.count '*' := by
  have hplain {text : List Char} {c : Char} (htext : '*' ∉ text) (hc : c ≠ '*') :
      text.count '*' = [c].count '*' := by
    rw [List.count_eq_zero.mpr htext, List.count_singleton]
    exact (if_neg (by simpa using hc)).symm
  rw [convert]
  split
  · next hfmt => exact ⟨['%'], [], rfl, hfmt, rfl⟩
  · next c fmt hfmt =>
    rw [hfmt]
    dsimp only
    split
    · exact ⟨_, _, rfl, rfl, hplain (notMem_charText f) (by decide)⟩
    · exact ⟨_, _, rfl, rfl, hplain (notMem_stringText f) (by decide)⟩
    · exact ⟨_, _, rfl, rfl, hplain notMem_number (by decide)⟩
    · exact ⟨_, _, rfl, rfl, hplain (notMem_pointerText _ f) (by decide)⟩
    · exact ⟨_, _, rfl, rfl, hplain notMem_number (by decide)⟩
    · exact ⟨_, _, rfl, rfl, hplain notMem_number (by decide)⟩
    · exact ⟨_, _, rfl, rfl, hplain notMem_number (by decide)⟩
    · exact ⟨_, _, rfl, rfl, hplain notMem_number (by decide)⟩
    · exact ⟨_, _, rfl, rfl, hplain notMem_number (by decide)⟩
    · exact ⟨[], ['n'], (List.append_nil _).symm, rfl, rfl⟩
    · exact ⟨_, _, rfl, rfl, rfl⟩
    · exact ⟨_, [_], rfl, rfl, List.count_cons_of_ne (by decide)⟩

/-- The `*` of a format are all printed when the arguments are 0. -/
theorem count_printLoop_zeros {rounds : ℕ} {fmt : List Char} (hrounds : fmt.length ≤ rounds)
    (p : Printer) :
    (printLoop zeros rounds fmt p).out.count '*' = p.out.count '*' + fmt.count '*' := by
  induction rounds generalizing fmt p with
  | zero =>
    obtain rfl : fmt = [] := List.eq_nil_of_length_eq_zero (Nat.le_zero.mp hrounds)
    rfl
  | succ rounds ih =>
    cases fmt with
    | nil => rfl
    | cons c fmt =>
      have hlength : fmt.length ≤ rounds := Nat.le_of_succ_le_succ hrounds
      rw [printLoop]
      split_ifs with hc
      · rw [ih hlength]
        change (p.out ++ [c]).count '*' + _ = _
        rw [List.count_append, Nat.add_assoc, ← List.count_append]
        rfl
      · have hskips := readField_skips zeros p.used fmt
        obtain ⟨text, read, hout, hfmt, hcount⟩ := convert_zeros (readField zeros p.used fmt) p
        have hfield := hskips.length_le
        rw [hfmt, List.length_append] at hfield
        rw [ih (by omega), hout, List.count_append, hcount, Nat.add_assoc, ← List.count_append,
          ← hfmt, hskips.count_eq, List.count_cons, not_not.mp hc]
        rfl

/-! ### Formats -/

section Formats

variable {f : List Piece} {d : Directive} {e : Args}

/-- The width in digits of a conversion. -/
def Directive.fieldWidth (d : Directive) : ℕ :=
  match d.width with
  | some (.digits n) => n.value
  | _ => 0

/-- A conversion that has no `*`, and no width that would pad `%%` or `%n`. -/
structure Directive.Plain (d : Directive) : Prop where
  noStar : d.NoStar
  percent : d.conv = .percent → d.fieldWidth ≤ 1
  n : d.conv = .n → d.fieldWidth = 0

theorem formatText_append (f g : List Piece) :
    formatText (f ++ g) = formatText f ++ formatText g := List.flatMap_append

theorem Directive.NoStar.widthValue (h : d.NoStar) (e : Args) (i : ℕ) :
    d.widthValue e i = d.fieldWidth := by
  rw [Directive.widthValue, Directive.fieldWidth]
  cases hwidth : d.width with
  | none => rfl
  | some a =>
    cases a with
    | digits n => rfl
    | star => exact absurd hwidth h.1

theorem length_fill (width : ℕ) (left : Bool) (text : List Char) :
    (fill width left text).length = max width text.length := by
  rw [fill]
  split_ifs <;> rw [List.length_append, List.length_replicate] <;> omega

theorem fill_of_le {width : ℕ} {left : Bool} {text : List Char} (h : width ≤ text.length) :
    fill width left text = text := by
  rw [fill, Nat.sub_eq_zero_of_le h]
  split_ifs
  · exact List.append_nil text
  · rfl

/-- A conversion without `*` prints too little when it is not plain. -/
theorem length_printed (hstar : d.NoStar) (e : Args) (i : ℕ) :
    (d.printed e i).length ≤ (d.expected e i).length ∧
      (¬d.Plain → (d.printed e i).length < (d.expected e i).length) := by
  have hvalue := hstar.widthValue e i
  cases hconv : d.conv with
  | n =>
    rw [Directive.printed, Directive.expected, hconv]
    dsimp only
    rw [length_fill, hvalue]
    refine ⟨Nat.zero_le _, fun hplain => ?_⟩
    by_contra hle
    refine hplain ⟨hstar, fun h => ?_, fun _ => by simpa using hle⟩
    rw [hconv] at h
    exact absurd h (by decide)
  | percent =>
    rw [Directive.printed, Directive.expected, hconv]
    dsimp only
    rw [length_fill, hvalue]
    refine ⟨le_max_right _ _, fun hplain => ?_⟩
    by_contra hle
    refine hplain ⟨hstar, fun _ => by simpa using hle, fun h => ?_⟩
    rw [hconv] at h
    exact absurd h (by decide)
  | _ =>
    rw [Directive.printed, hconv]
    refine ⟨Nat.le_refl _, fun hplain => absurd ⟨hstar, fun h => ?_, fun h => ?_⟩ hplain⟩
    · rw [hconv] at h
      exact absurd h (by decide)
    · rw [hconv] at h
      exact absurd h (by decide)

/-- A plain conversion prints what it is to print. -/
theorem Directive.Plain.printed_eq (h : d.Plain) (e : Args) (i : ℕ) :
    d.printed e i = d.expected e i := by
  have hvalue := h.noStar.widthValue e i
  cases hconv : d.conv with
  | n =>
    rw [printed, expected, hconv]
    dsimp only
    rw [hvalue, h.n hconv]
    exact (fill_of_le (Nat.zero_le _)).symm
  | percent =>
    rw [printed, expected, hconv]
    dsimp only
    rw [hvalue]
    exact (fill_of_le (h.percent hconv)).symm
  | _ => rw [printed, hconv]

theorem foldl_printed_eq (h : ∀ d, Piece.directive d ∈ f → d.Plain) (e : Args) (p : Printer) :
    f.foldl (Piece.printed e) p = f.foldl (Piece.print e) p := by
  induction f generalizing p with
  | nil => rfl
  | cons piece f ih =>
    have hpiece : piece.printed e p = piece.print e p := by
      cases piece with
      | literal c hc => rfl
      | directive d =>
        rw [Piece.printed, Piece.print, (h d List.mem_cons_self).printed_eq]
    rw [List.foldl_cons, List.foldl_cons, hpiece]
    exact ih (fun d hd => h d (List.mem_cons_of_mem piece hd)) _

/-- The two printers have taken the same words, and the first has not printed more. -/
structure Behind (p p' : Printer) : Prop where
  used : p.used = p'.used
  length : p.out.length ≤ p'.out.length

/-- A part without `*` keeps the first printer behind. -/
theorem Behind.piece {p p' : Printer} (h : Behind p p') {piece : Piece}
    (hstar : ∀ d, piece = .directive d → d.NoStar) :
    Behind (piece.printed e p) (piece.print e p') ∧
      ((p.out.length < p'.out.length ∨ ∃ d, piece = .directive d ∧ ¬d.Plain) →
        (piece.printed e p).out.length < (piece.print e p').out.length) := by
  have hlength := h.length
  cases piece with
  | literal c hc =>
    have hout : ∀ q : Printer, (q.write [c]).out.length = q.out.length + 1 :=
      fun q => List.length_append
    change Behind (p.write [c]) (p'.write [c]) ∧
      (_ → (p.write [c]).out.length < (p'.write [c]).out.length)
    rw [hout, hout]
    refine ⟨⟨h.used, by rw [hout, hout]; omega⟩, fun hless => ?_⟩
    rcases hless with hless | ⟨d, hd, -⟩
    · omega
    · exact absurd hd Piece.noConfusion
  | directive d =>
    obtain ⟨hle, hlt⟩ := length_printed (hstar d rfl) e p'.used
    have hout : ((Piece.directive d).printed e p).out.length =
        p.out.length + (d.printed e p'.used).length := by
      rw [← h.used]
      exact List.length_append
    have hout' : ((Piece.directive d).print e p').out.length =
        p'.out.length + (d.expected e p'.used).length := List.length_append
    rw [hout, hout']
    refine ⟨⟨congrArg (· + d.arguments) h.used, by rw [hout, hout']; omega⟩, fun hless => ?_⟩
    rcases hless with hless | ⟨d', hd', hplain⟩
    · omega
    · cases hd'
      have := hlt hplain
      omega

/-- A format without `*` prints no more than it is to print, and less if a conversion is not
plain. -/
theorem Behind.foldl {p p' : Printer} (h : Behind p p')
    (hstar : ∀ d, Piece.directive d ∈ f → d.NoStar)
    (hless : p.out.length < p'.out.length ∨ ∃ d, Piece.directive d ∈ f ∧ ¬d.Plain) :
    (f.foldl (Piece.printed e) p).out.length < (f.foldl (Piece.print e) p').out.length := by
  induction f generalizing p p' with
  | nil =>
    rcases hless with hless | ⟨d, hd, -⟩
    · exact hless
    · exact absurd hd List.not_mem_nil
  | cons piece f ih =>
    have hpieceStar : ∀ d, piece = .directive d → d.NoStar := fun d hd =>
      hstar d (by rw [← hd]; exact List.mem_cons_self)
    have hpiece := h.piece (e := e) hpieceStar
    rw [List.foldl_cons, List.foldl_cons]
    apply ih hpiece.1 fun d hd => hstar d (List.mem_cons_of_mem piece hd)
    rcases hless with hless | ⟨d, hd, hplain⟩
    · exact Or.inl (hpiece.2 (Or.inl hless))
    · rcases List.mem_cons.mp hd with hd | hd
      · exact Or.inl (hpiece.2 (Or.inr ⟨d, hd.symm, hplain⟩))
      · exact Or.inr ⟨d, hd, hplain⟩

/-- No more `*` is to be printed than the format has, when the arguments are 0. -/
theorem count_foldl_print (f : List Piece) (p : Printer) :
    (f.foldl (Piece.print zeros) p).out.count '*' ≤
      p.out.count '*' + (formatText f).count '*' := by
  induction f generalizing p with
  | nil => exact Nat.le_refl _
  | cons piece f ih =>
    have hpiece : (piece.print zeros p).out.count '*' ≤
        p.out.count '*' + piece.text.count '*' := by
      cases piece with
      | literal c hc =>
        change (p.out ++ [c]).count '*' ≤ _
        rw [List.count_append]
        exact Nat.le_refl _
      | directive d =>
        change (p.out ++ d.expected zeros p.used).count '*' ≤ _
        rw [List.count_append, List.count_eq_zero.mpr (notMem_expected d p.used)]
        omega
    have htext : formatText (piece :: f) = piece.text ++ formatText f := List.flatMap_cons
    have hrest := ih (piece.print zeros p)
    rw [List.foldl_cons, htext, List.count_append]
    omega

theorem star_mem_text (h : ¬d.NoStar) : '*' ∈ d.text := by
  rw [Directive.NoStar, not_and_or, not_not, not_not] at h
  simp only [Directive.text, List.mem_append]
  rcases h with h | h
  · have hwidth : '*' ∈ widthText d.width := by
      rw [h]
      exact List.mem_singleton_self _
    tauto
  · have hprecision : '*' ∈ precisionText d.precision := by
      rw [h]
      exact List.mem_cons_of_mem _ (List.mem_singleton_self _)
    tauto

/-- Fewer `*` are to be printed than the format has if one belongs to a conversion. -/
theorem count_expected_lt (hd : Piece.directive d ∈ f) (hstar : ¬d.NoStar) :
    (f.foldl (Piece.print zeros) ⟨[], 0, []⟩).out.count '*' < (formatText f).count '*' := by
  obtain ⟨f₁, f₂, rfl⟩ := List.append_of_mem hd
  have hfirst := count_foldl_print f₁ ⟨[], 0, []⟩
  have hlast := count_foldl_print f₂
    ((Piece.directive d).print zeros (f₁.foldl (Piece.print zeros) ⟨[], 0, []⟩))
  have htext : formatText (f₁ ++ .directive d :: f₂) =
      formatText f₁ ++ ('%' :: d.text ++ formatText f₂) := by
    rw [formatText_append]
    rfl
  have hmiddle (p : Printer) :
      ((Piece.directive d).print zeros p).out.count '*' = p.out.count '*' := by
    change (p.out ++ d.expected zeros p.used).count '*' = _
    rw [List.count_append, List.count_eq_zero.mpr (notMem_expected d p.used), Nat.add_zero]
  have hpos : 0 < ('%' :: d.text).count '*' :=
    List.count_pos_iff.mpr (List.mem_cons_of_mem _ (star_mem_text hstar))
  rw [hmiddle] at hlast
  rw [List.foldl_append, List.foldl_cons, htext, List.count_append, List.count_append]
  change _ ≤ 0 + _ at hfirst
  omega

/-- The format `%*d`. -/
def starFormat : List Piece := [.directive ⟨[], some .star, none, none, .d, by simp⟩]

/-- The arguments 5 and 7. -/
def fiveSeven : Args := ⟨fun i => if i = 0 then 5 else 7, fun _ => []⟩

end Formats

end LihaLinux.Print
