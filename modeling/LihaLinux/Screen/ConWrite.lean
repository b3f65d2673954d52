import LihaLinux.Lib.StringOps

/-!
# The console

The screen driver: a window of text cells in video memory, the cursor, the scroll
region and the state machine that interprets control characters and escape
sequences. Addresses and counters are 32-bit words, characters are signed bytes.
-/

namespace LihaLinux.Screen

/-- The code of an ASCII character. -/
def ascii (ch : Char) : BitVec 8 := BitVec.ofNat 8 ch.toNat

/-- The kinds of video card the driver tells apart. -/
inductive VideoType
  /-- Monochrome display. -/
  | mda
  /-- Colour display. -/
  | cga
  /-- EGA or VGA in monochrome mode. -/
  | egam
  /-- EGA or VGA in colour mode. -/
  | egac
  deriving DecidableEq

/-- The cards whose display start can be moved. -/
def VideoType.IsEga (t : VideoType) : Prop := t = .egac ∨ t = .egam

instance (t : VideoType) : Decidable t.IsEga := inferInstanceAs (Decidable (_ ∨ _))

/-- The largest number of parameters of an escape sequence. -/
def npars : ℕ := 16

/-- The variables of the console driver, with video memory. -/
structure Console where
  /-- Kind of video card. -/
  videoType : VideoType
  /-- Number of text columns. -/
  videoNumColumns : ℕ
  /-- Bytes of a row. -/
  videoSizeRow : ℕ
  /-- Number of text lines. -/
  videoNumLines : ℕ
  /-- Start of video memory. -/
  videoMemStart : ℕ
  /-- End of video memory. -/
  videoMemEnd : ℕ
  /-- Character and attribute of an erased cell. -/
  videoEraseChar : BitVec 16
  /-- Address of the first cell shown. -/
  origin : ℕ
  /-- Address after the last cell shown. -/
  scrEnd : ℕ
  /-- Address of the cursor's cell. -/
  pos : ℕ
  /-- Column of the cursor. -/
  x : ℕ
  /-- Line of the cursor. -/
  y : ℕ
  /-- First line of the scroll region. -/
  top : ℕ
  /-- Line after the scroll region. -/
  bottom : ℕ
  /-- State of the escape sequence parser. -/
  state : ℕ
  /-- Number of the parameter being read. -/
  npar : ℕ
  /-- The parameters read. -/
  par : ℕ → ℕ
  /-- Whether the sequence started with a question mark. -/
  ques : Bool
  /-- Attribute of the characters written. -/
  attr : BitVec 8
  /-- Column of the saved cursor. -/
  savedX : ℕ
  /-- Line of the saved cursor. -/
  savedY : ℕ
  /-- Memory. -/
  ram : Ram

/-! ## Cursor and scrolling -/

/-- Move the cursor, unless the place is off the screen. -/
def gotoxy (c : Console) (newX newY : ℕ) : Console :=
  if c.videoNumColumns < newX ∨ c.videoNumLines ≤ newY then c
  else
    { c with
      x := newX
      y := newY
      pos := add32 (add32 c.origin (mul32 newY c.videoSizeRow)) (mul32 newX 2) }

/-- Copy the scroll region up one line and erase its last line. -/
def copyUp (c : Console) : Console :=
  let n := mul32 (sub32 (sub32 c.bottom c.top) 1) c.videoNumColumns / 2
  let dst := add32 c.origin (mul32 c.videoSizeRow c.top)
  let src := add32 c.origin (mul32 c.videoSizeRow (add32 c.top 1))
  { c with
    ram := Ram.stosw false c.videoEraseChar c.videoNumColumns (Ram.advanced false 4 n dst)
      (Ram.movsl false n dst src c.ram) }

/-- Copy the screen, whose origin has left the room for it, back to the start of
video memory. -/
def copyBack (c : Console) : Console :=
  let n := mul32 (sub32 c.videoNumLines 1) c.videoNumColumns / 2
  let moved := sub32 c.origin c.videoMemStart
  { c with
    ram := Ram.stosw false c.videoEraseChar c.videoNumColumns
      (Ram.advanced false 4 n c.videoMemStart)
      (Ram.movsl false n c.videoMemStart c.origin c.ram)
    scrEnd := sub32 c.scrEnd moved
    pos := sub32 c.pos moved
    origin := c.videoMemStart }

/-- Erase the last line of the screen. -/
def eraseLast (c : Console) : Console :=
  { c with
    ram := Ram.stosw false c.videoEraseChar c.videoNumColumns (sub32 c.scrEnd c.videoSizeRow)
      c.ram }

/-- Move the screen one line down in video memory. -/
def moveOrigin (c : Console) : Console :=
  { c with
    origin := add32 c.origin c.videoSizeRow
    pos := add32 c.pos c.videoSizeRow
    scrEnd := add32 c.scrEnd c.videoSizeRow }

/-- Scroll the whole screen by moving its origin. -/
def scrupOrigin (c : Console) : Console :=
  if c.videoMemEnd < (moveOrigin c).scrEnd then copyBack (moveOrigin c)
  else eraseLast (moveOrigin c)

/-- Scroll the region up. -/
def scrup (c : Console) : Console :=
  if c.videoType.IsEga then
    if c.top = 0 ∧ c.bottom = c.videoNumLines then scrupOrigin c else copyUp c
  else copyUp c

/-- Scroll the region down: copy it down one line and erase its first line. All
cards take the same instructions. -/
def scrdown (c : Console) : Console :=
  let n := mul32 (sub32 (sub32 c.bottom c.top) 1) c.videoNumColumns / 2
  let dst := sub32 (add32 c.origin (mul32 c.videoSizeRow c.bottom)) 4
  let src := sub32 (add32 c.origin (mul32 c.videoSizeRow (sub32 c.bottom 1))) 4
  { c with
    ram := Ram.stosw true c.videoEraseChar c.videoNumColumns
      (add32 (Ram.advanced true 4 n dst) 2) (Ram.movsl true n dst src c.ram) }

/-- Line feed. -/
def lf (c : Console) : Console :=
  if add32 c.y 1 < c.bottom then
    { c with y := add32 c.y 1, pos := add32 c.pos c.videoSizeRow }
  else scrup c

/-- Reverse line feed. -/
def ri (c : Console) : Console :=
  if c.top < c.y then { c with y := sub32 c.y 1, pos := sub32 c.pos c.videoSizeRow }
  else scrdown c

/-- Carriage return. -/
def cr (c : Console) : Console := { c with pos := sub32 c.pos (mul32 c.x 2), x := 0 }

/-- Step back one cell. -/
def back (c : Console) : Console := { c with pos := sub32 c.pos 2, x := sub32 c.x 1 }

/-- Erase the cell before the cursor. -/
def del (c : Console) : Console :=
  if c.x ≠ 0 then { back c with ram := c.ram.storew (back c).pos c.videoEraseChar } else c

/-! ## Escape sequences -/

/-- Fill `count` cells from `start` on with the erase character. -/
def erase (c : Console) (count start : ℕ) : Console :=
  { c with ram := Ram.stosw false c.videoEraseChar count start c.ram }

/-- Erase in display. -/
def csiJ (c : Console) (par : ℕ) : Console :=
  match par with
  | 0 => erase c (sub32 c.scrEnd c.pos / 2) c.pos
  | 1 => erase c (sub32 c.pos c.origin / 2) c.origin
  | 2 => erase c (mul32 c.videoNumColumns c.videoNumLines) c.origin
  | _ => c

/-- Erase in line. -/
def csiK (c : Console) (par : ℕ) : Console :=
  match par with
  | 0 =>
    if c.videoNumColumns ≤ c.x then c else erase c (sub32 c.videoNumColumns c.x) c.pos
  | 1 =>
    erase c (if c.x < c.videoNumColumns then c.x else c.videoNumColumns)
      (sub32 c.pos (mul32 c.x 2))
  | 2 => erase c c.videoNumColumns (sub32 c.pos (mul32 c.x 2))
  | _ => c

/-- The attribute after one parameter of a rendition sequence. -/
def rendition (attr : BitVec 8) (par : ℕ) : BitVec 8 :=
  if par = 0 then 0x07
  else if par = 1 then 0x0f
  else if par = 4 then 0x0f
  else if par = 7 then 0x70
  else if par = 27 then 0x07
  else attr

/-- Set the attribute. -/
def csim (c : Console) : Console :=
  { c with attr := (List.range (c.npar + 1)).foldl (fun attr i => rendition attr (c.par i)) c.attr }

/-- Shift `n` cells right by one from `p` on, `old` going in first. -/
def insertLoop : ℕ → ℕ → BitVec 16 → Ram → Ram
  | 0, _, _, m => m
  | n + 1, p, old, m => insertLoop n (add32 p 2) (m.loadw p) (m.storew p old)

/-- Insert a cell at the cursor. -/
def insertChar (c : Console) : Console :=
  { c with ram := insertLoop (c.videoNumColumns - c.x) c.pos c.videoEraseChar c.ram }

/-- Run an operation with another scroll region. -/
def withRegion (c : Console) (top bottom : ℕ) (op : Console → Console) : Console :=
  { op { c with top := top, bottom := bottom } with top := c.top, bottom := c.bottom }

/-- Insert a line at the cursor. -/
def insertLine (c : Console) : Console := withRegion c c.y c.videoNumLines scrdown

/-- Shift `n` cells left by one to `p` and erase the cell after them. -/
def deleteLoop (erase : BitVec 16) : ℕ → ℕ → Ram → Ram
  | 0, p, m => m.storew p erase
  | n + 1, p, m => deleteLoop erase n (add32 p 2) (m.storew p (m.loadw (add32 p 2)))

/-- Delete the cell at the cursor. -/
def deleteChar (c : Console) : Console :=
  if c.videoNumColumns ≤ c.x then c
  else { c with ram := deleteLoop c.videoEraseChar (c.videoNumColumns - c.x - 1) c.pos c.ram }

/-- Delete the line at the cursor. -/
def deleteLine (c : Console) : Console := withRegion c c.y c.videoNumLines scrup

/-- A repetition count, at least one and at most `limit`. -/
def clampCount (limit nr : ℕ) : ℕ := if limit < nr then limit else if nr = 0 then 1 else nr

/-- Insert cells. -/
def csiAt (c : Console) (nr : ℕ) : Console := insertChar^[clampCount c.videoNumColumns nr] c

/-- Insert lines. -/
def csiL (c : Console) (nr : ℕ) : Console := insertLine^[clampCount c.videoNumLines nr] c

/-- Delete cells. -/
def csiP (c : Console) (nr : ℕ) : Console := deleteChar^[clampCount c.videoNumColumns nr] c

/-- Delete lines. -/
def csiM (c : Console) (nr : ℕ) : Console := deleteLine^[clampCount c.videoNumLines nr] c

/-- Save the cursor. -/
def saveCur (c : Console) : Console := { c with savedX := c.x, savedY := c.y }

/-- Go back to the saved cursor. -/
def restoreCur (c : Console) : Console := gotoxy c c.savedX c.savedY

/-- Set the scroll region, if it is one. -/
def setRegion (c : Console) (top bottom : ℕ) : Console :=
  if top < bottom ∧ bottom ≤ c.videoNumLines then { c with top := top, bottom := bottom } else c

/-- Set a parameter. -/
def setPar (c : Console) (i v : ℕ) : Console := { c with par := Function.update c.par i v }

/-- Set the parser state. -/
def setState (c : Console) (s : ℕ) : Console := { c with state := s }

/-- Lower a parameter that is not zero by one. -/
def lowerPar (c : Console) (i : ℕ) : Console :=
  if c.par i ≠ 0 then setPar c i (sub32 (c.par i) 1) else c

/-- Take the first parameter as at least one. -/
def raisePar (c : Console) : Console :=
  if c.par 0 = 0 then setPar c 0 (add32 (c.par 0) 1) else c

/-- The parameter of a region's end, by default the last line. -/
def defaultBottom (c : Console) : Console :=
  if c.par 1 = 0 then setPar c 1 c.videoNumLines else c

/-- Carry out the escape sequence that `ch` ends; 96 is the grave accent. -/
def csiFinal (ch : BitVec 8) (c : Console) : Console :=
  if ch = ascii 'G' ∨ ch = 96#8 then
    gotoxy (lowerPar c 0) ((lowerPar c 0).par 0) c.y
  else if ch = ascii 'A' then gotoxy (raisePar c) c.x (sub32 c.y ((raisePar c).par 0))
  else if ch = ascii 'B' ∨ ch = ascii 'e' then
    gotoxy (raisePar c) c.x (add32 c.y ((raisePar c).par 0))
  else if ch = ascii 'C' ∨ ch = ascii 'a' then
    gotoxy (raisePar c) (add32 c.x ((raisePar c).par 0)) c.y
  else if ch = ascii 'D' then gotoxy (raisePar c) (sub32 c.x ((raisePar c).par 0)) c.y
  else if ch = ascii 'E' then gotoxy (raisePar c) 0 (add32 c.y ((raisePar c).par 0))
  else if ch = ascii 'F' then gotoxy (raisePar c) 0 (sub32 c.y ((raisePar c).par 0))
  else if ch = ascii 'd' then gotoxy (lowerPar c 0) c.x ((lowerPar c 0).par 0)
  else if ch = ascii 'H' ∨ ch = ascii 'f' then
    gotoxy (lowerPar (lowerPar c 0) 1) ((lowerPar (lowerPar c 0) 1).par 1)
      ((lowerPar (lowerPar c 0) 1).par 0)
  else if ch = ascii 'J' then csiJ c (c.par 0)
  else if ch = ascii 'K' then csiK c (c.par 0)
  else if ch = ascii 'L' then csiL c (c.par 0)
  else if ch = ascii 'M' then csiM c (c.par 0)
  else if ch = ascii 'P' then csiP c (c.par 0)
  else if ch = ascii '@' then csiAt c (c.par 0)
  else if ch = ascii 'm' then csim c
  else if ch = ascii 'r' then
    setRegion (defaultBottom (lowerPar c 0)) ((defaultBottom (lowerPar c 0)).par 0)
      ((defaultBottom (lowerPar c 0)).par 1)
  else if ch = ascii 's' then saveCur c
  else if ch = ascii 'u' then restoreCur c
  else c

/-! ## Characters -/

/-- Go on to the next line when the column has passed the limit. -/
def wrapLine (c : Console) : Console :=
  lf { c with x := sub32 c.x c.videoNumColumns, pos := sub32 c.pos c.videoSizeRow }

/-- Store a character at the cursor and step over it. -/
def putCell (ch : BitVec 8) (c : Console) : Console :=
  { c with
    ram := c.ram.storew c.pos (c.attr ++ ch)
    pos := add32 c.pos 2
    x := add32 c.x 1 }

/-- Write a printable character. -/
def putChar (ch : BitVec 8) (c : Console) : Console :=
  putCell ch (if c.videoNumColumns ≤ c.x then wrapLine c else c)

/-- The cells to the next tab stop. -/
def tabWidth (x : ℕ) : ℕ := 8 - x % 8

/-- Step to the next tab stop. -/
def tabStep (c : Console) : Console :=
  { c with x := add32 c.x (tabWidth c.x), pos := add32 c.pos (2 * tabWidth c.x) }

/-- Horizontal tab. -/
def tab (c : Console) : Console :=
  if c.videoNumColumns < (tabStep c).x then wrapLine (tabStep c) else tabStep c

/-- A character outside of escape sequences; `eraseCc` is the erase character of the
terminal, and the bell stores nothing. -/
def normalChar (eraseCc ch : BitVec 8) (c : Console) : Console :=
  if 31 < ch.toInt ∧ ch.toInt < 127 then putChar ch c
  else if ch = 27#8 then setState c 1
  else if ch = 10#8 ∨ ch = 11#8 ∨ ch = 12#8 then lf c
  else if ch = 13#8 then cr c
  else if ch.toInt = (eraseCc.toNat : ℤ) then del c
  else if ch = 8#8 then if c.x ≠ 0 then back c else c
  else if ch = 9#8 then tab c
  else c

/-- The character after an escape; the answer to `Z` goes to the terminal's read queue.
The tests for `7` and `8` look at the column. -/
def escChar (ch : BitVec 8) (c : Console) : Console :=
  if ch = ascii '[' then setState c 2
  else if ch = ascii 'E' then gotoxy c 0 (add32 c.y 1)
  else if ch = ascii 'M' then ri c
  else if ch = ascii 'D' then lf c
  else if ch = ascii 'Z' then c
  else if c.x = (ascii '7').toNat then saveCur c
  else if c.x = (ascii '8').toNat then restoreCur c
  else c

/-- Whether a character makes the console answer. -/
def Answers (ch : BitVec 8) (c : Console) : Prop := c.state = 1 ∧ ch = ascii 'Z'

instance (ch : BitVec 8) (c : Console) : Decidable (Answers ch c) :=
  inferInstanceAs (Decidable (_ ∧ _))

/-- A parameter's character, or the end of the sequence. -/
def parChar (ch : BitVec 8) (c : Console) : Console :=
  if ch = ascii ';' ∧ c.npar < npars - 1 then { c with npar := c.npar + 1 }
  else if (ascii '0').toInt ≤ ch.toInt ∧ ch.toInt ≤ (ascii '9').toInt then
    setPar c c.npar (sub32 (add32 (mul32 10 (c.par c.npar)) ch.toNat) (ascii '0').toNat)
  else csiFinal ch (setState c 0)

/-- Forget the parameters of the last sequence. -/
def clearPars (ques : Bool) (c : Console) : Console :=
  { c with par := fun i => if i < npars then 0 else c.par i, npar := 0, state := 3, ques := ques }

/-- The state machine on one character. -/
def conChar (eraseCc ch : BitVec 8) (c : Console) : Console :=
  match c.state with
  | 0 => normalChar eraseCc ch c
  | 1 => escChar ch (setState c 0)
  | 2 =>
    if ch = ascii '?' then clearPars true c else parChar ch (clearPars false c)
  | 3 => parChar ch c
  | 4 => csiFinal ch (setState c 0)
  | _ => c

/-- A character for the console, with the erase character in force when it comes. -/
structure Input where
  /-- The erase character of the terminal. -/
  eraseCc : BitVec 8
  /-- The character. -/
  ch : BitVec 8

/-- The state machine on a sequence of characters. -/
def conChars (inputs : List Input) (c : Console) : Console :=
  inputs.foldl (fun c i => conChar i.eraseCc i.ch c) c

/-! ## Initialization -/

/-- What the setup code left for the driver. -/
structure Setup where
  /-- Column of the BIOS cursor. -/
  origX : BitVec 8
  /-- Line of the BIOS cursor. -/
  origY : BitVec 8
  /-- Video mode in the low byte, columns in the high byte. -/
  modeCols : BitVec 16
  /-- Answer of the BIOS about an EGA card. -/
  egaBx : BitVec 16

namespace Setup

/-- The video mode. -/
def videoMode (s : Setup) : ℕ := (s.modeCols &&& 0xff#16).toNat

/-- The number of columns. -/
def videoCols (s : Setup) : ℕ := ((s.modeCols &&& 0xff00#16) >>> 8).toNat

/-- Whether the BIOS found an EGA card. -/
def hasEga (s : Setup) : Prop := s.egaBx &&& 0xff#16 ≠ 0x10#16

instance (s : Setup) : Decidable s.hasEga := inferInstanceAs (Decidable (_ ≠ _))

/-- The kind of card. -/
def videoType (s : Setup) : VideoType :=
  if s.videoMode = 7 then if s.hasEga then .egam else .mda
  else if s.hasEga then .egac else .cga

/-- Start of the card's memory. -/
def memStart (s : Setup) : ℕ := if s.videoMode = 7 then 0xb0000 else 0xb8000

/-- End of the card's memory. -/
def memEnd (s : Setup) : ℕ :=
  if s.videoMode = 7 then if s.hasEga then 0xb8000 else 0xb2000
  else if s.hasEga then 0xbc000 else 0xba000

/-- The name of the card shown on the first line. -/
def displayDesc (s : Setup) : List (BitVec 8) :=
  if s.videoMode = 7 then
    if s.hasEga then ['E', 'G', 'A', 'm'].map ascii else ['*', 'M', 'D', 'A'].map ascii
  else if s.hasEga then ['E', 'G', 'A', 'c'].map ascii else ['*', 'C', 'G', 'A'].map ascii

end Setup

/-- Number of lines of every display. -/
def origVideoLines : ℕ := 25

/-- Write characters to every second byte from `p` on. -/
def describe : List (BitVec 8) → ℕ → Ram → Ram
  | [], _, m => m
  | ch :: chs, p, m => describe chs (add32 p 2) (m.storeb p ch)

/-- The driver's variables as `con_init` finds and sets them, before the cursor. -/
def conBlank (s : Setup) (m : Ram) : Console where
  videoType := s.videoType
  videoNumColumns := s.videoCols
  videoSizeRow := s.videoCols * 2
  videoNumLines := origVideoLines
  videoMemStart := s.memStart
  videoMemEnd := s.memEnd
  videoEraseChar := 0x0720
  origin := s.memStart
  scrEnd := add32 s.memStart (mul32 origVideoLines (s.videoCols * 2))
  pos := 0
  x := 0
  y := 0
  top := 0
  bottom := origVideoLines
  state := 0
  npar := 0
  par := fun _ => 0
  ques := false
  attr := 0x07
  savedX := 0
  savedY := 0
  ram := describe s.displayDesc (sub32 (add32 s.memStart (s.videoCols * 2)) 8) m

/-- Initialize the console. -/
def conInit (s : Setup) (m : Ram) : Console :=
  gotoxy (conBlank s m) s.origX.toNat s.origY.toNat

end LihaLinux.Screen
