import LihaLinux.Tty.Queue
import Mathlib.Data.Nat.Notation

/-!
# Cooking

`copy_to_cooked` moves the characters that a terminal has received from `read_q` to `secondary`,
and echoes them to `write_q`. What the terminal does with `write_q` is a parameter.
-/

namespace LihaLinux.Tty

/-! ### Settings -/

/-- The settings of a terminal in canonical mode: flags of `c_iflag` and `c_lflag`, characters of
`c_cc`, and `isupper` of the characters from 128 on, for which it reads the memory before
`_ctype`. -/
structure CookMode where
  icrnl : Bool
  igncr : Bool
  inlcr : Bool
  iuclc : Bool
  isig : Bool
  kill : ℕ
  erase : ℕ
  stop : ℕ
  start : ℕ
  intr : ℕ
  quit : ℕ
  eof : ℕ
  high : ℕ → Bool

namespace CookMode

variable (m : CookMode)

/-- `tolower`. -/
def tolower (c : ℕ) : ℕ :=
  if (if c < 128 then decide (65 ≤ c ∧ c ≤ 90) else m.high c) then (c + 32) % 256 else c

/-- `c==x` for a character `c`, which has a sign, and an element `x` of `c_cc`, which has none. -/
def same (c x : ℕ) : Bool := decide (c = x ∧ c < 128)

/-- `c==EOF_CHAR(tty)`. -/
def isEof (c : ℕ) : Bool := same c m.eof

/-- The characters after which a line is complete. -/
def isTerm (c : ℕ) : Bool := decide (c = 10) || m.isEof c

/-- `ICRNL`, `IGNCR`, `INLCR` and `IUCLC`. -/
def inputChar (c : ℕ) : Option ℕ :=
  if c = 13 ∧ m.icrnl = false ∧ m.igncr = true then none
  else
    let c := if c = 13 then if m.icrnl then 10 else 13
      else if c = 10 ∧ m.inlcr = true then 13 else c
    some (if m.iuclc then m.tolower c else c)

end CookMode

/-- The settings of a terminal: the ones above, `ICANON`, `ECHO` and `ECHOCTL` of `c_lflag`, and
`VTIME` and `VMIN` of `c_cc`. -/
structure Termios extends CookMode where
  canon : Bool
  echo : Bool
  echoctl : Bool
  vtime : ℕ
  vmin : ℕ

/-- The settings of the console in `tty_table`. -/
def consoleTermios : Termios where
  icrnl := true
  igncr := false
  inlcr := false
  iuclc := false
  isig := true
  kill := 21
  erase := 127
  stop := 19
  start := 17
  intr := 3
  quit := 28
  eof := 4
  high _ := false
  canon := true
  echo := true
  echoctl := true
  vtime := 0
  vmin := 1

/-- `c<32` for a character, which has a sign. -/
def isControl (c : ℕ) : Bool := decide (c < 32 ∨ 128 ≤ c)

/-- The signals that a terminal sends to its process group. -/
inductive TtySignal
  | sigint
  | sigquit

/-- `struct tty_struct`, with the signals that `tty_intr` has sent and the variables of the driver
behind `write`. -/
structure TtyStruct (δ : Type) where
  termios : Termios
  stopped : Bool
  readQ : TtyQueue
  writeQ : TtyQueue
  secondary : TtyQueue
  /-- `secondary.data`. -/
  data : ℕ
  sent : List TtySignal
  driver : δ

/-- A terminal without characters. -/
def TtyStruct.fresh {δ : Type} (m : Termios) (driver : δ) : TtyStruct δ :=
  ⟨m, false, .empty, .empty, .empty, 0, [], driver⟩

/-! ### `copy_to_cooked` -/

namespace TtyStruct

variable {δ : Type}

/-- `PUTCH(c,tty->write_q)`. -/
def putWrite (t : TtyStruct δ) (c : ℕ) : TtyStruct δ := { t with writeQ := t.writeQ.putch c }

/-- The echo of a character that is erased. -/
def echoErased (t : TtyStruct δ) (c : ℕ) : TtyStruct δ :=
  if isControl c then (t.putWrite 127).putWrite 127 else t.putWrite 127

/-- The echo of a character that is stored. -/
def echoChar (t : TtyStruct δ) (c : ℕ) : TtyStruct δ :=
  if c = 10 then (t.putWrite 10).putWrite 13
  else if isControl c then
    if t.termios.echoctl then (t.putWrite 94).putWrite ((c + 64) % 256) else t
  else t.putWrite c

/-- Whether erasing stops: there is no character, or the last one completes a line. -/
def atLineStart (t : TtyStruct δ) : Bool :=
  t.secondary.isEmpty || t.termios.isTerm t.secondary.last

/-- `DEC(tty->secondary.head)`. -/
def decSecondary (t : TtyStruct δ) : TtyStruct δ := { t with secondary := t.secondary.dec }

/-- `PUTCH(c,tty->secondary)`. -/
def putSecondary (t : TtyStruct δ) (c : ℕ) : TtyStruct δ :=
  { t with secondary := t.secondary.putch c }

/-- A character that completes a line is counted. -/
def countTerm (t : TtyStruct δ) (c : ℕ) : TtyStruct δ :=
  if t.termios.isTerm c then { t with data := (t.data + 1) % 4294967296 } else t

variable (write : TtyStruct δ → Option (TtyStruct δ))

/-- Echo, if the terminal does. -/
def withEcho (t echoed : TtyStruct δ) : Option (TtyStruct δ) :=
  if t.termios.echo then write echoed else some t

/-- The last character is erased. -/
def eraseLast (t : TtyStruct δ) : Option (TtyStruct δ) :=
  (t.withEcho write (t.echoErased t.secondary.last)).map decSecondary

/-- The loop for `KILL_CHAR`, for at most `n` characters. -/
def killLoop : ℕ → TtyStruct δ → Option (TtyStruct δ)
  | 0, _ => none
  | n + 1, t => if t.atLineStart then some t else (t.eraseLast write).bind (killLoop n)

/-- What is done with a character of `read_q`. -/
def cookChar (n : ℕ) (t : TtyStruct δ) (c : ℕ) : Option (TtyStruct δ) :=
  match t.termios.inputChar c with
  | none => some t
  | some c =>
    if t.termios.canon && CookMode.same c t.termios.kill then killLoop write n t
    else if t.termios.canon && CookMode.same c t.termios.erase then
      if t.atLineStart then some t else t.eraseLast write
    else if t.termios.canon && CookMode.same c t.termios.stop then some { t with stopped := true }
    else if t.termios.canon && CookMode.same c t.termios.start then
      some { t with stopped := false }
    else if t.termios.isig && CookMode.same c t.termios.intr then
      some { t with sent := t.sent ++ [.sigint] }
    else if t.termios.isig && CookMode.same c t.termios.quit then
      some { t with sent := t.sent ++ [.sigquit] }
    else
      ((t.countTerm c).withEcho write ((t.countTerm c).echoChar c)).map fun t => t.putSecondary c

/-- `copy_to_cooked`, for at most `n` characters. -/
def copyToCooked : ℕ → TtyStruct δ → Option (TtyStruct δ)
  | 0, _ => none
  | n + 1, t =>
    if t.readQ.isEmpty || t.secondary.full then some t
    else (cookChar write n { t with readQ := t.readQ.inc } t.readQ.first).bind (copyToCooked n)

end TtyStruct

end LihaLinux.Tty
