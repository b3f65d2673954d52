import LihaLinux.Tty.Cooking
import Mathlib.Data.Int.Notation

/-!
# Reading from a terminal

`tty_read`, cut where an interrupt makes a difference: before `sleep_if_empty` looks at the queue,
between a test that `secondary` is not empty and `GETCH`, and after each character.
-/

namespace LihaLinux.Tty

/-- Where a call of `tty_read` is. -/
inductive ReadPoint
  /-- At the head of the main loop. -/
  | loop
  /-- At the test of `sleep_if_empty`. -/
  | test
  /-- In `interruptible_sleep_on`. -/
  | asleep
  /-- Before `GETCH`. -/
  | getch
  /-- At the end of the inner loop. -/
  | inner
  /-- After the inner loop. -/
  | after
  /-- Back, with a result. -/
  | done (ret : ℤ)
  deriving DecidableEq

/-- A task that calls `tty_read`, with the variables of the call. -/
structure Reader where
  point : ReadPoint
  nr : ℕ
  /-- The characters in `buf`, `b-buf` of them. -/
  got : List ℕ
  time : ℕ
  minimum : ℕ
  flag : Bool
  oldalarm : ℤ
  /-- `current->alarm`. -/
  alarm : ℤ
  /-- `current->signal & ALRMMASK`. -/
  sigalrm : Bool
  /-- Whether `current->signal` has another signal. -/
  signal : Bool

variable {δ : Type}

namespace Reader

variable (r : Reader) (jiffies : ℤ) (t : TtyStruct δ)

/-- Whether there is a signal in `current->signal`. -/
def signalled : Bool := r.sigalrm || r.signal

/-- The end of `tty_read`; 4 is `EINTR`. -/
def finish : Reader :=
  { r with
    alarm := r.oldalarm
    point := .done (if r.signalled = true ∧ r.got = [] then -4 else r.got.length) }

/-- The end of `time`, if there is no earlier alarm. -/
def timesOut : Bool := decide (r.oldalarm = 0 ∨ r.time + jiffies < r.oldalarm)

/-- After the inner loop, without `ICANON`: the time starts again. -/
def rearm : Reader :=
  if r.time ≠ 0 ∧ t.termios.canon = false then
    { r with
      flag := r.timesOut jiffies
      alarm := if r.timesOut jiffies then r.time + jiffies else r.oldalarm }
  else r

/-- After the inner loop: whether the characters are enough. -/
def enough : Bool :=
  if t.termios.canon then decide (r.got ≠ []) else decide (r.minimum ≤ r.got.length)

/-- The call of `tty_read` up to its main loop. -/
def ttyRead (channel : ℕ) (nr : ℤ) : Reader :=
  if 2 < channel ∨ nr < 0 then { r with point := .done (-1) }
  else
    let r : Reader := { r with
      point := .loop, nr := nr.toNat, got := [], oldalarm := r.alarm, flag := false
      time := 10 * t.termios.vtime, minimum := t.termios.vmin }
    let r : Reader :=
      if r.time ≠ 0 ∧ r.minimum = 0 then
        { r with
          minimum := 1
          flag := r.timesOut jiffies
          alarm := if r.timesOut jiffies then r.time + jiffies else r.alarm }
      else r
    { r with minimum := min r.minimum r.nr }

end Reader

namespace TtyStruct

/-- The test for `sleep_if_empty`. -/
def waits (t : TtyStruct δ) : Bool :=
  t.secondary.isEmpty || (t.termios.canon && decide (t.data = 0) && decide (20 < t.secondary.left))

/-- `GETCH(tty->secondary,c)`, with the count. -/
def getch (t : TtyStruct δ) : TtyStruct δ :=
  { t with
    secondary := t.secondary.inc
    data := if t.termios.isTerm t.secondary.first then (t.data + 4294967295) % 4294967296
      else t.data }

end TtyStruct

/-- What `tty_read` does next. -/
def readStep (jiffies : ℤ) (t : TtyStruct δ) (r : Reader) : TtyStruct δ × Reader :=
  match r.point with
  | .loop =>
    if r.nr = 0 then (t, r.finish)
    else if r.flag && r.sigalrm then (t, { r with sigalrm := false }.finish)
    else if r.signalled then (t, r.finish)
    else (t, { r with point := if t.waits then .test else .getch })
  | .test =>
    (t, { r with point := if !r.signalled && t.secondary.isEmpty then .asleep else .loop })
  | .asleep => (t, r)
  | .getch =>
    if t.termios.isEof t.secondary.first && t.termios.canon then
      (t.getch, { r with point := .done r.got.length })
    else
      (t.getch, { r with
        got := r.got ++ [t.secondary.first]
        nr := r.nr - 1
        point := if r.nr = 1 then .after else .inner })
  | .inner => (t, { r with point := if t.secondary.isEmpty then .after else .getch })
  | .after =>
    (t, if r.enough t then (r.rearm jiffies t).finish
      else { r.rearm jiffies t with point := .loop })
  | .done _ => (t, r)

end LihaLinux.Tty
