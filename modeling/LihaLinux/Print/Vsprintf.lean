import Mathlib.Data.Nat.Digits.Defs
import Mathlib.Data.Nat.Notation

/-!
# vsprintf

`number`, `skip_atoi` and `vsprintf`. A format is the list of its characters before the `NUL`, the
arguments are the words that `va_arg` takes one after another, and the output is what has been
written to the buffer so far.
-/

namespace LihaLinux.Print

/-! ### Numbers -/

/-- `ZEROPAD`, `SIGN`, `PLUS`, `SPACE`, `LEFT`, `SPECIAL` and `SMALL`. -/
structure Flags where
  zeroPad : Bool
  sign : Bool
  plus : Bool
  space : Bool
  left : Bool
  special : Bool
  small : Bool

/-- No flags. -/
def Flags.none : Flags := ⟨false, false, false, false, false, false, false⟩

/-- A base that `number` accepts. -/
structure Base where
  val : ℕ
  two_le : 2 ≤ val
  le_max : val ≤ 36

theorem octal_bounds : 2 ≤ 8 ∧ 8 ≤ 36 := by decide

theorem decimal_bounds : 2 ≤ 10 ∧ 10 ≤ 36 := by decide

theorem hexadecimal_bounds : 2 ≤ 16 ∧ 16 ≤ 36 := by decide

/-- Base 8. -/
def octal : Base := ⟨8, octal_bounds.1, octal_bounds.2⟩

/-- Base 10. -/
def decimal : Base := ⟨10, decimal_bounds.1, decimal_bounds.2⟩

/-- Base 16. -/
def hexadecimal : Base := ⟨16, hexadecimal_bounds.1, hexadecimal_bounds.2⟩

/-- `digits`. -/
def digits (small : Bool) : List Char :=
  ['0', '1', '2', '3', '4', '5', '6', '7', '8', '9'] ++
    if small then
      ['a', 'b', 'c', 'd', 'e', 'f', 'g', 'h', 'i', 'j', 'k', 'l', 'm', 'n', 'o', 'p', 'q', 'r',
        's', 't', 'u', 'v', 'w', 'x', 'y', 'z']
    else
      ['A', 'B', 'C', 'D', 'E', 'F', 'G', 'H', 'I', 'J', 'K', 'L', 'M', 'N', 'O', 'P', 'Q', 'R',
        'S', 'T', 'U', 'V', 'W', 'X', 'Y', 'Z']

/-- `digits[i]`. -/
def digit (small : Bool) (i : ℕ) : Char := (digits small).getD i '0'

/-- The loop over `do_div`, with the room that there is in `tmp`. -/
def divLoop (base : ℕ) : ℕ → ℕ → List ℕ
  | 0, _ => []
  | room + 1, num => if num = 0 then [] else num % base :: divLoop base room (num / base)

/-- `while(size-->0) *str++ = c`: what is written, and `size` after the loop. -/
def pad (size : ℤ) (c : Char) : List Char × ℤ :=
  (List.replicate size.toNat c, min size 0 - 1)

/-- `sign`. -/
def signOf (num : BitVec 32) (type : Flags) : List Char :=
  if type.sign ∧ num.toInt < 0 then ['-']
  else if type.plus then ['+'] else if type.space then [' '] else []

/-- The number without its sign. -/
def unsignedOf (num : BitVec 32) (type : Flags) : BitVec 32 :=
  if type.sign ∧ num.toInt < 0 then -num else num

/-- What is written for `SPECIAL`. -/
def specialOf (base : Base) (type : Flags) : List Char :=
  if type.special then
    if base.val = 8 then ['0'] else if base.val = 16 then ['0', digit type.small 33] else []
  else []

/-- `tmp`, with the least digit first. -/
def tmpOf (num : BitVec 32) (base : Base) (type : Flags) : List Char :=
  if num = 0 then ['0'] else (divLoop base.val 36 num.toNat).map (digit type.small)

/-- `number`. -/
def number (num : BitVec 32) (base : Base) (size precision : ℤ) (type : Flags) : List Char :=
  let type := { type with zeroPad := type.zeroPad && !type.left }
  let c := if type.zeroPad then '0' else ' '
  let sign := signOf num type
  let special := specialOf base type
  let tmp := tmpOf (unsignedOf num type) base type
  let precision := max precision tmp.length
  let size := size - sign.length - special.length - precision
  let before := if type.zeroPad ∨ type.left then ([], size) else pad size ' '
  let fill := if type.left then ([], before.2) else pad before.2 c
  before.1 ++ sign ++ special ++ fill.1 ++ (pad (precision - tmp.length) '0').1 ++ tmp.reverse ++
    (pad fill.2 ' ').1

/-! ### The format -/

/-- The arguments: the words on the stack, and the string at an address. -/
structure Args where
  word : ℕ → BitVec 32
  str : BitVec 32 → List Char

/-- What has been written to the buffer, the number of words that have been taken, and the numbers
that `%n` has stored at addresses. -/
structure Printer where
  out : List Char
  used : ℕ
  stores : List (BitVec 32 × ℕ)

/-- Write to the buffer. -/
def Printer.write (p : Printer) (text : List Char) : Printer := { p with out := p.out ++ text }

/-- Write what has been made of one word. -/
def Printer.take (p : Printer) (text : List Char) : Printer :=
  { p with out := p.out ++ text, used := p.used + 1 }

/-- A number as an `int`. -/
def toInt32 (i : ℤ) : ℤ := i.bmod 4294967296

/-- `skip_atoi`. -/
def skipAtoi (i : ℤ) : List Char → ℤ × List Char
  | [] => (i, [])
  | c :: fmt =>
    if c.isDigit then skipAtoi (toInt32 (i * 10 + c.toNat - 48)) fmt else (i, c :: fmt)

/-- A character of the flags. -/
def addFlag (f : Flags) (c : Char) : Option Flags :=
  if c = '-' then some { f with left := true }
  else if c = '+' then some { f with plus := true }
  else if c = ' ' then some { f with space := true }
  else if c = '#' then some { f with special := true }
  else if c = '0' then some { f with zeroPad := true }
  else none

/-- The loop at `repeat`. -/
def readFlags (f : Flags) : List Char → Flags × List Char
  | [] => (f, [])
  | c :: fmt =>
    match addFlag f c with
    | some f => readFlags f fmt
    | none => (f, c :: fmt)

/-- What has been read of a conversion. -/
structure Field where
  flags : Flags
  width : ℤ
  precision : ℤ
  used : ℕ
  fmt : List Char

/-- "get field width". -/
def readWidth (e : Args) (p : Field) : Field :=
  match p.fmt with
  | [] => p
  | c :: _ =>
    if c.isDigit then { p with width := (skipAtoi 0 p.fmt).1, fmt := (skipAtoi 0 p.fmt).2 }
    else if c = '*' then
      let w := e.word p.used
      if w.toInt < 0 then
        { p with width := (-w).toInt, flags := { p.flags with left := true }, used := p.used + 1 }
      else { p with width := w.toInt, used := p.used + 1 }
    else p

/-- The precision after the point. -/
def readPoint (e : Args) (p : Field) : Field :=
  match p.fmt with
  | [] => p
  | c :: _ =>
    if c.isDigit then { p with precision := (skipAtoi 0 p.fmt).1, fmt := (skipAtoi 0 p.fmt).2 }
    else if c = '*' then { p with precision := (e.word p.used).toInt, used := p.used + 1 }
    else p

/-- "get the precision". -/
def readPrecision (e : Args) (p : Field) : Field :=
  match p.fmt with
  | [] => p
  | c :: fmt =>
    if c = '.' then
      let p := readPoint e { p with fmt := fmt }
      { p with precision := max p.precision 0 }
    else p

/-- "get the conversion qualifier". -/
def readQualifier (p : Field) : Field :=
  match p.fmt with
  | [] => p
  | c :: fmt => if c = 'h' ∨ c = 'l' ∨ c = 'L' then { p with fmt := fmt } else p

/-- What is read between `%` and the conversion. -/
def readField (e : Args) (used : ℕ) (fmt : List Char) : Field :=
  let r := readFlags Flags.none fmt
  readQualifier (readPrecision e (readWidth e ⟨r.1, -1, -1, used, r.2⟩))

/-- `case 'c'`. -/
def charText (w : BitVec 32) (p : Field) : List Char :=
  let before := if p.flags.left then ([], p.width) else
    ((pad (p.width - 1) ' ').1, min p.width 1 - 1)
  before.1 ++ [Char.ofNat (w.toNat % 256)] ++ (pad (before.2 - 1) ' ').1

/-- `case 's'`. -/
def stringText (s : List Char) (p : Field) : List Char :=
  let precision := if p.precision < 0 then (s.length : ℤ) else p.precision
  let len := min (s.length : ℤ) precision
  let before := if p.flags.left then ([], p.width) else
    ((pad (p.width - len) ' ').1, min p.width len - 1)
  before.1 ++ s.take len.toNat ++ (pad (before.2 - len) ' ').1

/-- `case 'p'`. -/
def pointerText (w : BitVec 32) (p : Field) : List Char :=
  if p.width = -1 then number w hexadecimal 8 p.precision { p.flags with zeroPad := true }
  else number w hexadecimal p.width p.precision p.flags

/-- The conversion: what is printed, and the rest of the format. -/
def convert (e : Args) (f : Field) (p : Printer) : Printer × List Char :=
  let p := { p with used := f.used }
  let w := e.word f.used
  match f.fmt with
  | [] => (p.write ['%'], [])
  | c :: fmt =>
    match c with
    | 'c' => (p.take (charText w f), fmt)
    | 's' => (p.take (stringText (e.str w) f), fmt)
    | 'o' => (p.take (number w octal f.width f.precision f.flags), fmt)
    | 'p' => (p.take (pointerText w f), fmt)
    | 'x' =>
      (p.take (number w hexadecimal f.width f.precision { f.flags with small := true }), fmt)
    | 'X' => (p.take (number w hexadecimal f.width f.precision f.flags), fmt)
    | 'd' => (p.take (number w decimal f.width f.precision { f.flags with sign := true }), fmt)
    | 'i' => (p.take (number w decimal f.width f.precision { f.flags with sign := true }), fmt)
    | 'u' => (p.take (number w decimal f.width f.precision f.flags), fmt)
    | 'n' => ({ p with used := p.used + 1, stores := p.stores ++ [(w, p.out.length)] }, fmt)
    | '%' => (p.write ['%'], fmt)
    | c => (p.write ['%', c], fmt)

/-- The loop of `vsprintf`. Each round takes a character of the format at least. -/
def printLoop (e : Args) : ℕ → List Char → Printer → Printer
  | 0, _, p => p
  | _ + 1, [], p => p
  | rounds + 1, c :: fmt, p =>
    if c ≠ '%' then printLoop e rounds fmt (p.write [c])
    else
      let r := convert e (readField e p.used fmt) p
      printLoop e rounds r.2 r.1

/-- What `vsprintf` leaves: the buffer with its `NUL`, the words taken, the numbers stored and the
result. -/
structure Result where
  buf : List Char
  used : ℕ
  stores : List (BitVec 32 × ℕ)
  length : ℕ

/-- The buffer is ended. -/
def Printer.finish (p : Printer) : Result :=
  ⟨p.out ++ [Char.ofNat 0], p.used, p.stores, p.out.length⟩

/-- `vsprintf`. -/
def vsprintf (e : Args) (fmt : List Char) : Result :=
  (printLoop e fmt.length fmt ⟨[], 0, []⟩).finish

end LihaLinux.Print
