import LihaLinux.Print.Vsprintf

/-!
# The format language

A format is a list of literal characters and conversions `%[flags][width][.precision][h|l|L]c`.
What is to be printed for it is said here without the steps of `vsprintf`.
-/

namespace LihaLinux.Print

/-! ### Formats -/

/-- The characters `-`, `+`, space, `#` and `0`. -/
inductive Flag
  | minus | plus | space | hash | zero
  deriving DecidableEq

/-- The character of a flag. -/
def Flag.char : Flag → Char
  | minus => '-'
  | plus => '+'
  | space => ' '
  | hash => '#'
  | zero => '0'

/-- The number that the digits from `i` on make. -/
def valueFrom (i : ℕ) (ds : List ℕ) : ℕ := ds.foldl (fun i d => i * 10 + d) i

/-- The digits of an `int`. -/
structure Numeral where
  ds : List ℕ
  digit : ∀ d ∈ ds, d < 10
  fits : valueFrom 0 ds < 2147483648

/-- The number. -/
def Numeral.value (n : Numeral) : ℕ := valueFrom 0 n.ds

/-- The characters of a number. -/
def Numeral.text (n : Numeral) : List Char := n.ds.map fun d => Char.ofNat (48 + d)

/-- A width or a precision: digits, or the next argument. -/
inductive Amount
  | digits (n : Numeral)
  | star

/-- The characters of a width or a precision. -/
def Amount.text : Amount → List Char
  | digits n => n.text
  | star => ['*']

/-- `h`, `l` and `L`, which do not change the size of an argument. -/
inductive Qualifier
  | h | l | L

/-- The character of a qualifier. -/
def Qualifier.char : Qualifier → Char
  | h => 'h'
  | l => 'l'
  | L => 'L'

/-- The conversions. -/
inductive Conversion
  | c | s | o | p | x | X | d | i | u | n | percent
  deriving DecidableEq

/-- The character of a conversion. -/
def Conversion.char : Conversion → Char
  | c => 'c'
  | s => 's'
  | o => 'o'
  | p => 'p'
  | x => 'x'
  | X => 'X'
  | d => 'd'
  | i => 'i'
  | u => 'u'
  | n => 'n'
  | percent => '%'

/-- A conversion with its flags, its width, its precision and its qualifier. A width of digits does
not begin with 0, which is a flag. -/
structure Directive where
  flags : List Flag
  width : Option Amount
  precision : Option Amount
  qualifier : Option Qualifier
  conv : Conversion
  width_digits : ∀ n, width = some (.digits n) → ∃ d ds, n.ds = d :: ds ∧ d ≠ 0

/-- The precision with its point. -/
def precisionText : Option Amount → List Char
  | none => []
  | some a => '.' :: a.text

/-- The characters of a width, if there is one. -/
def widthText : Option Amount → List Char
  | none => []
  | some a => a.text

/-- The characters after `%`. -/
def Directive.text (d : Directive) : List Char :=
  d.flags.map Flag.char ++ widthText d.width ++ precisionText d.precision ++
    (d.qualifier.map Qualifier.char).toList ++ [d.conv.char]

/-- A part of a format. -/
inductive Piece
  | literal (c : Char) (h : c ≠ '%')
  | directive (d : Directive)

/-- The characters of a part. -/
def Piece.text : Piece → List Char
  | literal c _ => [c]
  | directive d => '%' :: d.text

/-- The characters of a format. -/
def formatText (f : List Piece) : List Char := f.flatMap Piece.text

/-! ### What is to be printed -/

/-- Text in a field. -/
def fill (width : ℕ) (left : Bool) (text : List Char) : List Char :=
  if left then text ++ List.replicate (width - text.length) ' '
  else List.replicate (width - text.length) ' ' ++ text

/-- The characters of a string that are printed, with the precision if there is one. -/
def cut : Option ℕ → List Char → List Char
  | none, s => s
  | some n, s => s.take n

/-- A number in a field, with `lead` before its digits. Zeros stand between them. -/
def fillNumber (width : ℕ) (left zero : Bool) (lead text : List Char) : List Char :=
  if !left && zero then lead ++ List.replicate (width - (lead ++ text).length) '0' ++ text
  else fill width left (lead ++ text)

/-- The digits of a number, `precision` of them at least. -/
def digitsText (small : Bool) (base precision num : ℕ) : List Char :=
  let text := if num = 0 then ['0'] else ((Nat.digits base num).map (digit small)).reverse
  List.replicate (precision - text.length) '0' ++ text

/-- The flags that there are. -/
structure Style where
  left : Bool
  plus : Bool
  space : Bool
  special : Bool
  zero : Bool

/-- How a number is printed. -/
structure NumberKind where
  base : Base
  signed : Bool
  small : Bool

/-- The sign of a number. -/
def signText (style : Style) (negative : Bool) : List Char :=
  if negative then ['-'] else if style.plus then ['+'] else if style.space then [' '] else []

/-- What is before a number in base 8 or 16. -/
def specialText (style : Style) (kind : NumberKind) : List Char :=
  if !style.special then []
  else if kind.base.val = 8 then ['0']
  else if kind.base.val = 16 then ['0', if kind.small then 'x' else 'X']
  else []

/-- A number in a field. -/
def numberText (kind : NumberKind) (style : Style) (width precision : ℕ) (w : BitVec 32) :
    List Char :=
  let negative := kind.signed && decide (w.toInt < 0)
  fillNumber width style.left style.zero (signText style negative ++ specialText style kind)
    (digitsText kind.small kind.base.val precision
      (if kind.signed then w.toInt.natAbs else w.toNat))

namespace Directive

variable (d : Directive) (e : Args) (i : ℕ)

/-- The argument of a width or a precision has been taken. -/
def starCount : Option Amount → ℕ
  | some .star => 1
  | _ => 0

/-- The width when argument `i` is the next. -/
def widthValue : ℕ :=
  match d.width with
  | none => 0
  | some (.digits n) => n.value
  | some .star => (e.word i).toInt.natAbs

/-- The width is an argument that is negative. -/
def widthLeft : Bool :=
  match d.width with
  | some .star => decide ((e.word i).toInt < 0)
  | _ => false

/-- The precision when argument `i` is the next. -/
def precisionValue : Option ℕ :=
  match d.precision with
  | none => none
  | some (.digits n) => some n.value
  | some .star => some (e.word (i + starCount d.width)).toInt.toNat

/-- The flags, when argument `i` is the next. -/
def style : Style where
  left := decide (Flag.minus ∈ d.flags) || d.widthLeft e i
  plus := decide (Flag.plus ∈ d.flags)
  space := decide (Flag.space ∈ d.flags)
  special := decide (Flag.hash ∈ d.flags)
  zero := decide (Flag.zero ∈ d.flags)

/-- The word that is converted. -/
def word : BitVec 32 := e.word (i + starCount d.width + starCount d.precision)

/-- The number of arguments: one for each `*`, and one for the conversion unless it is `%`. -/
def arguments : ℕ :=
  starCount d.width + starCount d.precision +
    match d.conv with
    | .percent => 0
    | _ => 1

/-- A number as the directive says. -/
def number (kind : NumberKind) : List Char :=
  numberText kind (d.style e i) (d.widthValue e i) ((d.precisionValue e i).getD 0) (d.word e i)

/-- A pointer has eight digits when there is no width. -/
def pointer : List Char :=
  match d.width with
  | none =>
    numberText ⟨hexadecimal, false, false⟩ { d.style e i with zero := true } 8
      ((d.precisionValue e i).getD 0) (d.word e i)
  | some _ => d.number e i ⟨hexadecimal, false, false⟩

/-- What is printed for a conversion. -/
def expected : List Char :=
  let field := fill (d.widthValue e i) (d.style e i).left
  match d.conv with
  | .c => field [Char.ofNat ((d.word e i).toNat % 256)]
  | .s => field (cut (d.precisionValue e i) (e.str (d.word e i)))
  | .o => d.number e i ⟨octal, false, false⟩
  | .p => d.pointer e i
  | .x => d.number e i ⟨hexadecimal, false, true⟩
  | .X => d.number e i ⟨hexadecimal, false, false⟩
  | .d => d.number e i ⟨decimal, true, false⟩
  | .i => d.number e i ⟨decimal, true, false⟩
  | .u => d.number e i ⟨decimal, false, false⟩
  | .n => field []
  | .percent => field ['%']

/-- What is stored for a conversion, when `written` characters have been written. -/
def stored (written : ℕ) : List (BitVec 32 × ℕ) :=
  match d.conv with
  | .n => [(d.word e i, written)]
  | _ => []

end Directive

/-- A part of the format is printed. -/
def Piece.print (e : Args) (p : Printer) : Piece → Printer
  | literal c _ => p.write [c]
  | directive d =>
    { out := p.out ++ d.expected e p.used
      used := p.used + d.arguments
      stores := p.stores ++ d.stored e p.used p.out.length }

/-- What `vsprintf` is to leave: the parts are printed one after another. -/
def expectedResult (e : Args) (f : List Piece) : Result :=
  (f.foldl (Piece.print e) ⟨[], 0, []⟩).finish

end LihaLinux.Print
