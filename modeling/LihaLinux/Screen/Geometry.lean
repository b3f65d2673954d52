import LihaLinux.Screen.ConWrite

/-!
# The geometry of the console

Every operation of the driver keeps the cursor on the screen, the screen inside video
memory and the addresses in step with the coordinates, and it stores only inside video
memory.
-/

namespace LihaLinux.Screen

/-- What holds of the console after every character. -/
structure Geometry (c : Console) : Prop where
  /-- A row has two bytes for each column. -/
  size_row : c.videoSizeRow = c.videoNumColumns * 2
  /-- A tab fits on a line. -/
  columns : 8 ≤ c.videoNumColumns
  /-- The number of lines. -/
  lines : c.videoNumLines = origVideoLines
  /-- Video memory is addressable. -/
  mem_end : c.videoMemEnd < 2 ^ 31
  /-- The cursor is on a line or just after its end. -/
  x_le : c.x ≤ c.videoNumColumns
  /-- The cursor's line is on the screen. -/
  y_lt : c.y < c.videoNumLines
  /-- The cursor's address. -/
  pos_eq : c.pos = c.origin + c.y * c.videoSizeRow + 2 * c.x
  /-- The scroll region is not empty. -/
  top_lt : c.top < c.bottom
  /-- The scroll region is on the screen. -/
  bottom_le : c.bottom ≤ c.videoNumLines
  /-- The end of the screen. -/
  scrEnd_eq : c.scrEnd = c.origin + c.videoNumLines * c.videoSizeRow
  /-- The screen starts in video memory. -/
  origin_ge : c.videoMemStart ≤ c.origin
  /-- The screen ends in video memory. -/
  scrEnd_le : c.scrEnd ≤ c.videoMemEnd
  /-- The parser's state. -/
  state_le : c.state ≤ 4
  /-- The parameter read has a place. -/
  npar_lt : c.npar < npars
  /-- Every store fell in video memory. -/
  stores : Ram.StoresIn c.videoMemStart c.videoMemEnd c.ram

/-- The console with its cursor elsewhere. -/
def cursorAt (c : Console) (x y : ℕ) : Console :=
  { c with x := x, y := y, pos := c.origin + y * c.videoSizeRow + 2 * x }

/-- The console with other memory. -/
def withRam (c : Console) (m : Ram) : Console := { c with ram := m }

/-- The console with its screen elsewhere in video memory. -/
def shownAt (c : Console) (origin : ℕ) : Console :=
  { c with
    origin := origin
    pos := origin + c.y * c.videoSizeRow + 2 * c.x
    scrEnd := origin + c.videoNumLines * c.videoSizeRow }

/-- The console with another scroll region. -/
def region (c : Console) (top bottom : ℕ) : Console := { c with top := top, bottom := bottom }

/-- A row of the screen ends on the screen. -/
theorem row_le (c : Console) {r : ℕ} (hr : r < c.videoNumLines) :
    r * c.videoSizeRow + c.videoSizeRow ≤ c.videoNumLines * c.videoSizeRow := by
  have hmul := Nat.mul_le_mul_right c.videoSizeRow (Nat.succ_le_of_lt hr)
  rwa [Nat.succ_mul] at hmul

/-- The number of long words that scrolling the region copies. -/
def regionCount (c : Console) : ℕ := (c.bottom - c.top - 1) * c.videoNumColumns / 2

/-! ## What the operations leave alone -/

theorem scrupOrigin_keeps (c : Console) :
    (scrupOrigin c).x = c.x ∧ (scrupOrigin c).videoNumColumns = c.videoNumColumns ∧
      (scrupOrigin c).videoNumLines = c.videoNumLines := by
  unfold scrupOrigin
  split <;> exact ⟨rfl, rfl, rfl⟩

theorem scrup_keeps (c : Console) :
    (scrup c).x = c.x ∧ (scrup c).videoNumColumns = c.videoNumColumns ∧
      (scrup c).videoNumLines = c.videoNumLines := by
  unfold scrup
  split
  · split
    · exact scrupOrigin_keeps c
    · exact ⟨rfl, rfl, rfl⟩
  · exact ⟨rfl, rfl, rfl⟩

/-- A line feed keeps the column and the width of the screen. -/
theorem lf_keeps (c : Console) :
    (lf c).x = c.x ∧ (lf c).videoNumColumns = c.videoNumColumns := by
  unfold lf
  split
  · exact ⟨rfl, rfl⟩
  · obtain ⟨hx, hcolumns, -⟩ := scrup_keeps c
    exact ⟨hx, hcolumns⟩

/-- The shift of `insert_char` stores to the cells that it shifts. -/
theorem insertLoop_stores {lo hi n p : ℕ} (old : BitVec 16) {m : Ram}
    (h : Ram.StoresIn lo hi m) (hlo : lo ≤ p) (hhi : p + 2 * n ≤ hi) (hword : hi < 2 ^ 32) :
    Ram.StoresIn lo hi (insertLoop n p old m) := by
  induction n generalizing p old m with
  | zero => exact h
  | succ n ih =>
    rw [insertLoop, add32_eq (by omega)]
    exact ih _ (h.storew old hlo (by omega)) (by omega) (by omega)

/-- The shift of `delete_char` stores to the cells that it shifts and the one after them. -/
theorem deleteLoop_stores {lo hi n p : ℕ} (erase : BitVec 16) {m : Ram}
    (h : Ram.StoresIn lo hi m) (hlo : lo ≤ p) (hhi : p + 2 * n + 2 ≤ hi) (hword : hi < 2 ^ 32) :
    Ram.StoresIn lo hi (deleteLoop erase n p m) := by
  induction n generalizing p m with
  | zero => exact h.storew erase hlo (by omega)
  | succ n ih =>
    rw [deleteLoop, add32_eq (by omega)]
    exact ih (h.storew _ hlo (by omega)) (by omega) (by omega)

namespace Geometry

variable {c : Console}

/-- The screen ends below the end of the address space. -/
theorem screen_lt (h : Geometry c) :
    c.origin + c.videoNumLines * c.videoSizeRow < 2 ^ 31 := by
  have hle := h.scrEnd_le
  have hmem := h.mem_end
  rw [h.scrEnd_eq] at hle
  omega

/-- A place on the screen. -/
theorem place_le (h : Geometry c) {r k : ℕ} (hr : r < c.videoNumLines)
    (hk : k ≤ c.videoNumColumns) :
    r * c.videoSizeRow + 2 * k ≤ c.videoNumLines * c.videoSizeRow := by
  have hrow := row_le c hr
  have hsize := h.size_row
  omega

/-- The cursor moved to another place on the screen. -/
theorem cursorAt (h : Geometry c) {x y : ℕ} (hx : x ≤ c.videoNumColumns)
    (hy : y < c.videoNumLines) : Geometry (cursorAt c x y) :=
  { h with x_le := hx, y_lt := hy, pos_eq := rfl }

/-- Stores on the screen. -/
theorem withRam (h : Geometry c) {m : Ram}
    (hm : Ram.StoresIn c.videoMemStart c.videoMemEnd m) : Geometry (withRam c m) :=
  { h with stores := hm }

/-- The screen moved inside video memory. -/
theorem shownAt (h : Geometry c) {o : ℕ} (hlo : c.videoMemStart ≤ o)
    (hhi : o + c.videoNumLines * c.videoSizeRow ≤ c.videoMemEnd) : Geometry (shownAt c o) :=
  { h with pos_eq := rfl, scrEnd_eq := rfl, origin_ge := hlo, scrEnd_le := hhi }

/-- Another scroll region on the screen. -/
theorem region (h : Geometry c) {t b : ℕ} (ht : t < b) (hb : b ≤ c.videoNumLines) :
    Geometry (region c t b) :=
  { h with top_lt := ht, bottom_le := hb }

/-- Another state of the parser. -/
theorem setState (h : Geometry c) {s : ℕ} (hs : s ≤ 4) : Geometry (setState c s) :=
  { h with state_le := hs }

/-- Another parameter. -/
theorem setPar (h : Geometry c) (i v : ℕ) : Geometry (setPar c i v) := { h with }

/-! ## Cursor motion -/

/-- Moving the cursor either does nothing or puts it at a place on the screen. -/
theorem gotoxy_eq (h : Geometry c) (newX newY : ℕ) :
    gotoxy c newX newY =
      if c.videoNumColumns < newX ∨ c.videoNumLines ≤ newY then c
      else Screen.cursorAt c newX newY := by
  unfold gotoxy
  split
  · rfl
  · rename_i hon
    have hplace := h.place_le (r := newY) (k := newX) (by omega) (by omega)
    have hend := h.screen_lt
    have hx : newX * 2 = 2 * newX := Nat.mul_comm newX 2
    have hmul := mul32_eq (a := newY) (b := c.videoSizeRow) (by omega)
    have hmulx := mul32_eq (a := newX) (b := 2) (by omega)
    have hsum := add32_eq (a := c.origin) (b := newY * c.videoSizeRow) (by omega)
    have hpos := add32_eq (a := c.origin + newY * c.videoSizeRow) (b := newX * 2) (by omega)
    rw [hmul, hmulx, hsum, hpos, hx]
    rfl

/-- `gotoxy` keeps the geometry. -/
theorem gotoxy (h : Geometry c) (newX newY : ℕ) : Geometry (gotoxy c newX newY) := by
  rw [h.gotoxy_eq]
  split
  · exact h
  · exact h.cursorAt (by omega) (by omega)

/-- A carriage return puts the cursor at the start of its line. -/
theorem cr_eq (h : Geometry c) : cr c = Screen.cursorAt c 0 c.y := by
  have hx := h.x_le
  have hend := h.screen_lt
  have hplace := h.place_le h.y_lt hx
  have hpos := h.pos_eq
  have hmul := mul32_eq (a := c.x) (b := 2) (by omega)
  have hsub := sub32_eq (a := c.pos) (b := c.x * 2) (by omega) (by omega)
  have hstart : c.pos - c.x * 2 = c.origin + c.y * c.videoSizeRow + 2 * 0 := by omega
  unfold cr
  rw [hmul, hsub, hstart]
  rfl

/-- Stepping back puts the cursor one column to the left. -/
theorem back_eq (h : Geometry c) (hx : c.x ≠ 0) : back c = Screen.cursorAt c (c.x - 1) c.y := by
  have hend := h.screen_lt
  have hplace := h.place_le h.y_lt h.x_le
  have hpos := h.pos_eq
  have hsub := sub32_eq (a := c.pos) (b := 2) (by omega) (by omega)
  have hsubx := sub32_eq (a := c.x) (b := 1) (by omega) (by omega)
  have hcell : c.pos - 2 = c.origin + c.y * c.videoSizeRow + 2 * (c.x - 1) := by omega
  unfold back
  rw [hsub, hsubx, hcell]
  rfl

/-- A line feed puts the cursor on the next line or scrolls. -/
theorem lf_eq (h : Geometry c) :
    lf c = if c.y + 1 < c.bottom then Screen.cursorAt c c.x (c.y + 1) else scrup c := by
  have hy := h.y_lt
  have hlines := h.lines
  have hsum : add32 c.y 1 = c.y + 1 := add32_eq (by unfold origVideoLines at hlines; omega)
  unfold lf
  rw [hsum]
  split
  · rename_i hnext
    have hbottom := h.bottom_le
    have hend := h.screen_lt
    have hplace := h.place_le (r := c.y + 1) (k := c.x) (by omega) h.x_le
    have hmul : (c.y + 1) * c.videoSizeRow = c.y * c.videoSizeRow + c.videoSizeRow :=
      Nat.succ_mul ..
    have hpos := h.pos_eq
    have hadd := add32_eq (a := c.pos) (b := c.videoSizeRow) (by omega)
    have hcell : c.pos + c.videoSizeRow = c.origin + (c.y + 1) * c.videoSizeRow + 2 * c.x := by
      omega
    rw [hadd, hcell]
    rfl
  · rfl

/-- A reverse line feed puts the cursor on the previous line or scrolls. -/
theorem ri_eq (h : Geometry c) :
    ri c = if c.top < c.y then Screen.cursorAt c c.x (c.y - 1) else scrdown c := by
  unfold ri
  split
  · rename_i habove
    have hend := h.screen_lt
    have hplace := h.place_le h.y_lt h.x_le
    obtain ⟨r, hr⟩ : ∃ r, c.y = r + 1 := ⟨c.y - 1, by omega⟩
    have hmul : (r + 1) * c.videoSizeRow = r * c.videoSizeRow + c.videoSizeRow :=
      Nat.succ_mul ..
    have hlines := h.lines
    have hy := h.y_lt
    have hpos := h.pos_eq
    unfold origVideoLines at hlines
    have hsuby := sub32_eq (a := c.y) (b := 1) (by omega) (by omega)
    rw [hr] at hpos hplace
    have hsub := sub32_eq (a := c.pos) (b := c.videoSizeRow) (by omega) (by omega)
    have hcell : c.pos - c.videoSizeRow = c.origin + r * c.videoSizeRow + 2 * c.x := by omega
    have hpred : c.y - 1 = r := by omega
    rw [hsub, hsuby, hcell, hpred]
    rfl
  · rfl

/-- Past the end of a line, the cursor goes on at the same column less the width. -/
theorem wrapLine_eq (h : Geometry c) {x : ℕ} (hx : c.videoNumColumns ≤ x)
    (hx' : x ≤ 2 * c.videoNumColumns) :
    wrapLine (Screen.cursorAt c x c.y) =
      lf (Screen.cursorAt c (x - c.videoNumColumns) c.y) := by
  have hend := h.screen_lt
  have hsize := h.size_row
  have hplace := row_le c h.y_lt
  have hsubx := sub32_eq (a := x) (b := c.videoNumColumns) hx (by omega)
  have hsub := sub32_eq (a := c.origin + c.y * c.videoSizeRow + 2 * x) (b := c.videoSizeRow)
    (by omega) (by omega)
  have hcell : c.origin + c.y * c.videoSizeRow + 2 * x - c.videoSizeRow =
      c.origin + c.y * c.videoSizeRow + 2 * (x - c.videoNumColumns) := by omega
  unfold wrapLine Screen.cursorAt
  dsimp only
  rw [hsubx, hsub, hcell]

/-- A tab step moves the cursor to the right, possibly past the end of the line. -/
theorem tabStep_eq (h : Geometry c) :
    tabStep c = Screen.cursorAt c (c.x + tabWidth c.x) c.y := by
  have hend := h.screen_lt
  have hsize := h.size_row
  have hplace := h.place_le h.y_lt h.x_le
  have hx := h.x_le
  have hpos := h.pos_eq
  have hcols := h.columns
  have hwidth : tabWidth c.x ≤ 8 := Nat.sub_le ..
  have hlines := h.lines
  have haddx := add32_eq (a := c.x) (b := tabWidth c.x) (by omega)
  have hadd := add32_eq (a := c.pos) (b := 2 * tabWidth c.x) (by omega)
  have hcell : c.pos + 2 * tabWidth c.x =
      c.origin + c.y * c.videoSizeRow + 2 * (c.x + tabWidth c.x) := by omega
  unfold tabStep
  rw [haddx, hadd, hcell]
  rfl

/-! ## Scrolling -/

/-- The rows copied and the row erased make up at most the region. -/
theorem region_fits (h : Geometry c) :
    4 * regionCount c + (c.videoSizeRow * c.top + c.videoSizeRow) ≤ c.videoSizeRow * c.bottom := by
  obtain ⟨k, hk⟩ : ∃ k, c.bottom = c.top + 1 + k := ⟨c.bottom - c.top - 1, by
    have := h.top_lt
    omega⟩
  have hcount : c.bottom - c.top - 1 = k := by omega
  have hrows : c.videoSizeRow * c.bottom =
      c.videoSizeRow * c.top + c.videoSizeRow + 2 * (k * c.videoNumColumns) := by
    rw [hk, h.size_row]
    ring
  unfold regionCount
  rw [hcount]
  omega

/-- The region ends on the screen. -/
theorem region_le (h : Geometry c) :
    c.videoSizeRow * c.bottom ≤ c.videoNumLines * c.videoSizeRow := by
  rw [Nat.mul_comm]
  exact Nat.mul_le_mul_right _ h.bottom_le

/-- The count that the driver computes for its copies. -/
theorem count_eq (h : Geometry c) :
    mul32 (sub32 (sub32 c.bottom c.top) 1) c.videoNumColumns / 2 = regionCount c := by
  have htop := h.top_lt
  have hbottom := h.bottom_le
  have hlines := h.lines
  unfold origVideoLines at hlines
  have hsize := h.size_row
  have hend := h.screen_lt
  have hle : (c.bottom - c.top - 1) * c.videoNumColumns ≤
      c.videoNumLines * c.videoSizeRow := Nat.mul_le_mul (by omega) (by omega)
  have hsub := sub32_eq (a := c.bottom) (b := c.top) (by omega) (by omega)
  have hone := sub32_eq (a := c.bottom - c.top) (b := 1) (by omega) (by omega)
  have hmul := mul32_eq (a := c.bottom - c.top - 1) (b := c.videoNumColumns) (by omega)
  rw [hsub, hone, hmul]
  rfl

/-- Copying the region up, with addresses relative to the screen. -/
theorem copyUp_eq (h : Geometry c) :
    copyUp c = Screen.withRam c
      (Ram.stosw false c.videoEraseChar c.videoNumColumns
        (c.origin + (c.videoSizeRow * c.top + 4 * regionCount c))
        (Ram.movsl false (regionCount c) (c.origin + c.videoSizeRow * c.top)
          (c.origin + (c.videoSizeRow * c.top + c.videoSizeRow)) c.ram)) := by
  have hfits := h.region_fits
  have hle := h.region_le
  have hend := h.screen_lt
  have htop := h.top_lt
  have hbottom := h.bottom_le
  have hlines := h.lines
  unfold origVideoLines at hlines
  have hone := add32_eq (a := c.top) (b := 1) (by omega)
  have hsucc : c.videoSizeRow * (c.top + 1) = c.videoSizeRow * c.top + c.videoSizeRow :=
    Nat.mul_succ ..
  have hmul := mul32_eq (a := c.videoSizeRow) (b := c.top) (by omega)
  have hmul' := mul32_eq (a := c.videoSizeRow) (b := c.top + 1) (by omega)
  have hdst := add32_eq (a := c.origin) (b := c.videoSizeRow * c.top) (by omega)
  have hsrc := add32_eq (a := c.origin) (b := c.videoSizeRow * c.top + c.videoSizeRow) (by omega)
  have hadv := Ram.advanced_up (k := 4) (n := regionCount c)
    (a := c.origin + c.videoSizeRow * c.top) (by omega)
  unfold copyUp
  dsimp only
  rw [h.count_eq, hone, hmul, hmul', hsucc, hdst, hsrc, hadv, Nat.add_assoc]
  rfl

/-- Copying the region up keeps the geometry. -/
theorem copyUp (h : Geometry c) : Geometry (copyUp c) := by
  have hfits := h.region_fits
  have hle := h.region_le
  have hend := h.scrEnd_le
  have hstart := h.origin_ge
  have hmem := h.mem_end
  have hsize := h.size_row
  rw [h.scrEnd_eq] at hend
  rw [h.copyUp_eq]
  apply h.withRam
  apply Ram.StoresIn.stosw_up _ _ (by omega) (by omega) (by omega)
  exact h.stores.movsl_up (by omega) (by omega) (by omega)

/-- Scrolling down, with addresses relative to the screen. -/
theorem scrdown_eq (h : Geometry c) :
    scrdown c = Screen.withRam c
      (Ram.stosw true c.videoEraseChar c.videoNumColumns
        (c.origin + (c.videoSizeRow * c.bottom - 2 - 4 * regionCount c))
        (Ram.movsl true (regionCount c) (c.origin + (c.videoSizeRow * c.bottom - 4))
          (c.origin + (c.videoSizeRow * c.bottom - c.videoSizeRow - 4)) c.ram)) := by
  have hfits := h.region_fits
  have hle := h.region_le
  have hend := h.screen_lt
  have htop := h.top_lt
  have hbottom := h.bottom_le
  have hlines := h.lines
  have hsize := h.size_row
  have hcols := h.columns
  unfold origVideoLines at hlines
  have hone := sub32_eq (a := c.bottom) (b := 1) (by omega) (by omega)
  have hpred : c.videoSizeRow * (c.bottom - 1) = c.videoSizeRow * c.bottom - c.videoSizeRow := by
    rw [Nat.mul_sub, Nat.mul_one]
  have hmul := mul32_eq (a := c.videoSizeRow) (b := c.bottom) (by omega)
  have hmul' := mul32_eq (a := c.videoSizeRow) (b := c.bottom - 1) (by omega)
  have hdst := add32_eq (a := c.origin) (b := c.videoSizeRow * c.bottom) (by omega)
  have hdst4 := sub32_eq (a := c.origin + c.videoSizeRow * c.bottom) (b := 4) (by omega) (by omega)
  have hsrc := add32_eq (a := c.origin) (b := c.videoSizeRow * c.bottom - c.videoSizeRow) (by omega)
  have hadv := Ram.advanced_down (k := 4) (n := regionCount c)
    (a := c.origin + c.videoSizeRow * c.bottom - 4) (by omega) (by omega)
  have hedi := add32_eq (a := c.origin + c.videoSizeRow * c.bottom - 4 - 4 * regionCount c)
    (b := 2) (by omega)
  have hfill : c.origin + c.videoSizeRow * c.bottom - 4 - 4 * regionCount c + 2 =
      c.origin + (c.videoSizeRow * c.bottom - 2 - 4 * regionCount c) := by omega
  have hto : c.origin + c.videoSizeRow * c.bottom - 4 =
      c.origin + (c.videoSizeRow * c.bottom - 4) := by omega
  unfold scrdown
  dsimp only
  rw [h.count_eq, hone, hmul, hmul', hpred, hdst, hsrc, hdst4, hadv, hedi, hfill, hto]
  -- with a region of one line nothing is copied, and its source may lie before the screen
  cases hcount : regionCount c with
  | zero =>
    simp only [Ram.movsl]
    rfl
  | succ n =>
    have hsrc4 := sub32_eq (a := c.origin + (c.videoSizeRow * c.bottom - c.videoSizeRow)) (b := 4)
      (by omega) (by omega)
    have hfrom : c.origin + (c.videoSizeRow * c.bottom - c.videoSizeRow) - 4 =
        c.origin + (c.videoSizeRow * c.bottom - c.videoSizeRow - 4) := by omega
    rw [hsrc4, hfrom]
    rfl

/-- Scrolling down keeps the geometry. -/
theorem scrdown (h : Geometry c) : Geometry (scrdown c) := by
  have hfits := h.region_fits
  have hle := h.region_le
  have hend := h.scrEnd_le
  have hstart := h.origin_ge
  have hmem := h.mem_end
  have hsize := h.size_row
  have hcols := h.columns
  rw [h.scrEnd_eq] at hend
  rw [h.scrdown_eq]
  apply h.withRam
  apply Ram.StoresIn.stosw_down _ _ (by omega) (by omega) (by omega)
  exact h.stores.movsl_down (by omega) (by omega) (by omega)

/-- The address after the rows that scrolling the whole screen keeps. -/
def keptCount (c : Console) : ℕ := (c.videoNumLines - 1) * c.videoNumColumns / 2

/-- The long words of the rows kept are all their cells. -/
theorem kept_eq (h : Geometry c) :
    4 * keptCount c + c.videoSizeRow = c.videoNumLines * c.videoSizeRow := by
  unfold keptCount
  rw [h.lines, h.size_row]
  unfold origVideoLines
  omega

/-- Scrolling the whole screen by its origin moves the screen one line down in video
memory, or back to its start when the room has run out. -/
theorem scrupOrigin_eq (h : Geometry c) :
    scrupOrigin c =
      if c.videoMemEnd < c.origin + c.videoNumLines * c.videoSizeRow + c.videoSizeRow then
        Screen.shownAt (Screen.withRam c
          (Ram.stosw false c.videoEraseChar c.videoNumColumns
            (c.videoMemStart + 4 * keptCount c)
            (Ram.movsl false (keptCount c) c.videoMemStart (c.origin + c.videoSizeRow) c.ram)))
          c.videoMemStart
      else
        Screen.shownAt (Screen.withRam c
          (Ram.stosw false c.videoEraseChar c.videoNumColumns
            (c.origin + c.videoNumLines * c.videoSizeRow) c.ram))
          (c.origin + c.videoSizeRow) := by
  have hend := h.screen_lt
  have hmem := h.mem_end
  have hrow := row_le c h.y_lt
  have hplace := h.place_le h.y_lt h.x_le
  have hstart := h.origin_ge
  have hkept := h.kept_eq
  have hpos := h.pos_eq
  have hscr := h.scrEnd_eq
  have hadd := add32_eq (a := c.origin) (b := c.videoSizeRow) (by omega)
  have haddpos := add32_eq (a := c.pos) (b := c.videoSizeRow) (by omega)
  have haddend := add32_eq (a := c.scrEnd) (b := c.videoSizeRow) (by omega)
  unfold scrupOrigin moveOrigin
  dsimp only
  rw [hadd, haddpos, haddend, hscr]
  split
  · rename_i hout
    have hlines := h.lines
    unfold origVideoLines at hlines
    have hone := sub32_eq (a := c.videoNumLines) (b := 1) (by omega) (by omega)
    have hcount : mul32 (c.videoNumLines - 1) c.videoNumColumns / 2 = keptCount c := by
      have hsize := h.size_row
      have hle : (c.videoNumLines - 1) * c.videoNumColumns ≤
          c.videoNumLines * c.videoSizeRow := Nat.mul_le_mul (by omega) (by omega)
      rw [mul32_eq (by omega)]
      rfl
    have hadv := Ram.advanced_up (k := 4) (n := keptCount c) (a := c.videoMemStart) (by omega)
    have hmoved := sub32_eq (a := c.origin + c.videoSizeRow) (b := c.videoMemStart) (by omega)
      (by omega)
    have hsubend := sub32_eq (a := c.origin + c.videoNumLines * c.videoSizeRow + c.videoSizeRow)
      (b := c.origin + c.videoSizeRow - c.videoMemStart) (by omega) (by omega)
    have hsubpos := sub32_eq (a := c.pos + c.videoSizeRow)
      (b := c.origin + c.videoSizeRow - c.videoMemStart) (by omega) (by omega)
    have hnewend : c.origin + c.videoNumLines * c.videoSizeRow + c.videoSizeRow -
        (c.origin + c.videoSizeRow - c.videoMemStart) =
        c.videoMemStart + c.videoNumLines * c.videoSizeRow := by omega
    have hnewpos : c.pos + c.videoSizeRow - (c.origin + c.videoSizeRow - c.videoMemStart) =
        c.videoMemStart + c.y * c.videoSizeRow + 2 * c.x := by omega
    unfold copyBack
    dsimp only
    rw [hone, hcount, hadv, hmoved, hsubend, hsubpos, hnewend, hnewpos]
    rfl
  · have hlast := sub32_eq (a := c.origin + c.videoNumLines * c.videoSizeRow + c.videoSizeRow)
      (b := c.videoSizeRow) (by omega) (by omega)
    have hnewpos : c.pos + c.videoSizeRow =
        c.origin + c.videoSizeRow + c.y * c.videoSizeRow + 2 * c.x := by omega
    have hnewend : c.origin + c.videoNumLines * c.videoSizeRow + c.videoSizeRow =
        c.origin + c.videoSizeRow + c.videoNumLines * c.videoSizeRow := Nat.add_right_comm ..
    unfold eraseLast
    dsimp only
    rw [hlast, Nat.add_sub_cancel, hnewpos, hnewend]
    rfl

/-- Scrolling by the origin keeps the geometry. -/
theorem scrupOrigin (h : Geometry c) : Geometry (scrupOrigin c) := by
  have hend := h.scrEnd_le
  have hstart := h.origin_ge
  have hmem := h.mem_end
  have hsize := h.size_row
  have hkept := h.kept_eq
  rw [h.scrEnd_eq] at hend
  rw [h.scrupOrigin_eq]
  split
  · have hstores : Ram.StoresIn c.videoMemStart c.videoMemEnd
        (Ram.stosw false c.videoEraseChar c.videoNumColumns (c.videoMemStart + 4 * keptCount c)
          (Ram.movsl false (keptCount c) c.videoMemStart (c.origin + c.videoSizeRow) c.ram)) := by
      apply Ram.StoresIn.stosw_up _ _ (by omega) (by omega) (by omega)
      exact h.stores.movsl_up (by omega) (by omega) (by omega)
    apply (h.withRam hstores).shownAt
    · exact Nat.le_refl c.videoMemStart
    · change c.videoMemStart + c.videoNumLines * c.videoSizeRow ≤ c.videoMemEnd
      omega
  · have hstores := h.stores.stosw_up c.videoEraseChar (n := c.videoNumColumns)
      (a := c.origin + c.videoNumLines * c.videoSizeRow) (by omega) (by omega) (by omega)
    apply (h.withRam hstores).shownAt
    · change c.videoMemStart ≤ c.origin + c.videoSizeRow
      omega
    · change c.origin + c.videoSizeRow + c.videoNumLines * c.videoSizeRow ≤ c.videoMemEnd
      omega

/-- Scrolling up keeps the geometry. -/
theorem scrup (h : Geometry c) : Geometry (scrup c) := by
  unfold Screen.scrup
  split
  · split
    · exact h.scrupOrigin
    · exact h.copyUp
  · exact h.copyUp

/-- A line feed keeps the geometry. -/
theorem lf (h : Geometry c) : Geometry (lf c) := by
  rw [h.lf_eq]
  split
  · have hbottom := h.bottom_le
    exact h.cursorAt h.x_le (by omega)
  · exact h.scrup

/-- A reverse line feed keeps the geometry. -/
theorem ri (h : Geometry c) : Geometry (ri c) := by
  rw [h.ri_eq]
  split
  · have hy := h.y_lt
    exact h.cursorAt h.x_le (by omega)
  · exact h.scrdown

/-! ## Erasing, inserting and deleting -/

/-- A fill on the screen. -/
theorem erase (h : Geometry c) {n d : ℕ} (hd : d + 2 * n ≤ c.videoNumLines * c.videoSizeRow) :
    Geometry (erase c n (c.origin + d)) := by
  have hend := h.scrEnd_le
  have hstart := h.origin_ge
  have hmem := h.mem_end
  rw [h.scrEnd_eq] at hend
  exact h.withRam (h.stores.stosw_up _ (by omega) (by omega) (by omega))

/-- The start of the cursor's line. -/
theorem lineStart_eq (h : Geometry c) :
    sub32 c.pos (mul32 c.x 2) = c.origin + c.y * c.videoSizeRow := by
  have hx := h.x_le
  have hend := h.screen_lt
  have hplace := h.place_le h.y_lt hx
  have hpos := h.pos_eq
  have hmul := mul32_eq (a := c.x) (b := 2) (by omega)
  rw [hmul, sub32_eq (by omega) (by omega)]
  omega

/-- `csi_J` with places relative to the screen. -/
theorem csiJ_eq (h : Geometry c) (par : ℕ) :
    csiJ c par =
      if par = 0 then
        Screen.erase c ((c.videoNumLines * c.videoSizeRow - (c.y * c.videoSizeRow + 2 * c.x)) / 2)
          (c.origin + (c.y * c.videoSizeRow + 2 * c.x))
      else if par = 1 then
        Screen.erase c ((c.y * c.videoSizeRow + 2 * c.x) / 2) (c.origin + 0)
      else if par = 2 then
        Screen.erase c (c.videoNumColumns * c.videoNumLines) (c.origin + 0)
      else c := by
  have hx := h.x_le
  have hend := h.screen_lt
  have hplace := h.place_le h.y_lt hx
  have hpos : c.pos = c.origin + (c.y * c.videoSizeRow + 2 * c.x) := by
    rw [h.pos_eq, Nat.add_assoc]
  have hscr := h.scrEnd_eq
  match par with
  | 0 =>
    have hsub := sub32_eq (a := c.scrEnd) (b := c.pos) (by omega) (by omega)
    have hcount : c.scrEnd - c.pos =
        c.videoNumLines * c.videoSizeRow - (c.y * c.videoSizeRow + 2 * c.x) := by omega
    rw [if_pos rfl, csiJ, hsub, hcount, hpos]
  | 1 =>
    have hsub := sub32_eq (a := c.pos) (b := c.origin) (by omega) (by omega)
    have hcount : c.pos - c.origin = c.y * c.videoSizeRow + 2 * c.x := by omega
    rw [if_neg Nat.one_ne_zero, if_pos rfl, csiJ, hsub, hcount, Nat.add_zero]
  | 2 =>
    have hsize := h.size_row
    have harea : c.videoNumLines * c.videoSizeRow =
        2 * (c.videoNumColumns * c.videoNumLines) := by
      rw [hsize]
      ring
    have hmul := mul32_eq (a := c.videoNumColumns) (b := c.videoNumLines) (by omega)
    rw [if_neg (by decide), if_neg (by decide), if_pos rfl, csiJ, hmul, Nat.add_zero]
  | par + 3 =>
    rw [if_neg (by omega), if_neg (by omega), if_neg (by omega)]
    rfl

/-- `csi_J` keeps the geometry. -/
theorem csiJ (h : Geometry c) (par : ℕ) : Geometry (csiJ c par) := by
  have hplace := h.place_le h.y_lt h.x_le
  have hsize := h.size_row
  have harea : c.videoNumLines * c.videoSizeRow =
      2 * (c.videoNumColumns * c.videoNumLines) := by
    rw [hsize]
    ring
  rw [h.csiJ_eq]
  split
  · exact h.erase (by omega)
  · split
    · exact h.erase (by omega)
    · split
      · exact h.erase (by omega)
      · exact h

/-- `csi_K` with places relative to the screen. -/
theorem csiK_eq (h : Geometry c) (par : ℕ) :
    csiK c par =
      if par = 0 then
        if c.videoNumColumns ≤ c.x then c
        else
          Screen.erase c (c.videoNumColumns - c.x) (c.origin + (c.y * c.videoSizeRow + 2 * c.x))
      else if par = 1 then Screen.erase c c.x (c.origin + c.y * c.videoSizeRow)
      else if par = 2 then Screen.erase c c.videoNumColumns (c.origin + c.y * c.videoSizeRow)
      else c := by
  have hx := h.x_le
  have hend := h.screen_lt
  have hplace := h.place_le h.y_lt hx
  have hpos : c.pos = c.origin + (c.y * c.videoSizeRow + 2 * c.x) := by
    rw [h.pos_eq, Nat.add_assoc]
  have hsize := h.size_row
  have hlines := h.lines
  have hrow := row_le c h.y_lt
  match par with
  | 0 =>
    rw [if_pos rfl, csiK]
    split
    · rfl
    · have hsub := sub32_eq (a := c.videoNumColumns) (b := c.x) (by omega) (by omega)
      rw [hsub, hpos]
  | 1 =>
    have hmin : (if c.x < c.videoNumColumns then c.x else c.videoNumColumns) = c.x := by
      split <;> omega
    rw [if_neg Nat.one_ne_zero, if_pos rfl, csiK, hmin, h.lineStart_eq]
  | 2 => rw [if_neg (by decide), if_neg (by decide), if_pos rfl, csiK, h.lineStart_eq]
  | par + 3 =>
    rw [if_neg (by omega), if_neg (by omega), if_neg (by omega)]
    rfl

/-- `csi_K` keeps the geometry. -/
theorem csiK (h : Geometry c) (par : ℕ) : Geometry (csiK c par) := by
  have hx := h.x_le
  have hsize := h.size_row
  have hrow := row_le c h.y_lt
  rw [h.csiK_eq]
  split
  · split
    · exact h
    · exact h.erase (by omega)
  · split
    · exact h.erase (by omega)
    · split
      · exact h.erase (by omega)
      · exact h

/-- `insert_char` keeps the geometry. -/
theorem insertChar (h : Geometry c) : Geometry (insertChar c) := by
  have hx := h.x_le
  have hsize := h.size_row
  have hrow := row_le c h.y_lt
  have hend := h.scrEnd_le
  have hstart := h.origin_ge
  have hmem := h.mem_end
  have hpos := h.pos_eq
  rw [h.scrEnd_eq] at hend
  exact h.withRam (insertLoop_stores _ h.stores (by omega) (by omega) (by omega))

/-- `delete_char` keeps the geometry. -/
theorem deleteChar (h : Geometry c) : Geometry (deleteChar c) := by
  unfold Screen.deleteChar
  split
  · exact h
  · have hsize := h.size_row
    have hrow := row_le c h.y_lt
    have hend := h.scrEnd_le
    have hstart := h.origin_ge
    have hmem := h.mem_end
    have hpos := h.pos_eq
    rw [h.scrEnd_eq] at hend
    exact h.withRam (deleteLoop_stores _ h.stores (by omega) (by omega) (by omega))

/-- An operation on the lines from the cursor's line on keeps the geometry. -/
theorem withRegion (h : Geometry c) {op : Console → Console}
    (hop : ∀ {c}, Geometry c → Geometry (op c))
    (hlines : ∀ c, (op c).videoNumLines = c.videoNumLines) :
    Geometry (withRegion c c.y c.videoNumLines op) := by
  have hnew : Geometry (op (Screen.region c c.y c.videoNumLines)) :=
    hop (h.region h.y_lt (Nat.le_refl _))
  have hbottom : c.bottom ≤ (op (Screen.region c c.y c.videoNumLines)).videoNumLines := by
    rw [hlines]
    exact h.bottom_le
  exact hnew.region h.top_lt hbottom

/-- `insert_line` keeps the geometry. -/
theorem insertLine (h : Geometry c) : Geometry (insertLine c) :=
  h.withRegion Geometry.scrdown fun _ => rfl

/-- `delete_line` keeps the geometry. -/
theorem deleteLine (h : Geometry c) : Geometry (deleteLine c) :=
  h.withRegion Geometry.scrup fun c => (scrup_keeps c).2.2

/-- A repeated operation keeps the geometry. -/
theorem iterate {op : Console → Console} (hop : ∀ {c}, Geometry c → Geometry (op c)) (n : ℕ)
    (h : Geometry c) : Geometry (op^[n] c) := by
  induction n generalizing c with
  | zero => exact h
  | succ n ih => exact ih (hop h)

/-! ## The state machine -/

/-- A carriage return keeps the geometry. -/
theorem cr (h : Geometry c) : Geometry (cr c) := by
  rw [h.cr_eq]
  exact h.cursorAt (Nat.zero_le _) h.y_lt

/-- A step back keeps the geometry. -/
theorem back (h : Geometry c) (hx : c.x ≠ 0) : Geometry (back c) := by
  have hle := h.x_le
  rw [h.back_eq hx]
  exact h.cursorAt (by omega) h.y_lt

/-- Storing a cell of the screen. -/
theorem storeCell (h : Geometry c) {x y : ℕ} (hx : x < c.videoNumColumns)
    (hy : y < c.videoNumLines) (v : BitVec 16) :
    Geometry (Screen.withRam c (c.ram.storew (c.origin + (y * c.videoSizeRow + 2 * x)) v)) := by
  have hsize := h.size_row
  have hrow := row_le c hy
  have hend := h.scrEnd_le
  have hstart := h.origin_ge
  rw [h.scrEnd_eq] at hend
  exact h.withRam (h.stores.storew v (by omega) (by omega))

/-- `del` erases the cell to the left and puts the cursor there. -/
theorem del_eq (h : Geometry c) :
    del c =
      if c.x ≠ 0 then
        Screen.cursorAt
          (Screen.withRam c (c.ram.storew
            (c.origin + (c.y * c.videoSizeRow + 2 * (c.x - 1))) c.videoEraseChar)) (c.x - 1) c.y
      else c := by
  unfold del
  split
  · rename_i hx
    rw [h.back_eq hx]
    unfold Screen.cursorAt Screen.withRam
    dsimp only
    rw [Nat.add_assoc]
  · rfl

/-- `del` keeps the geometry. -/
theorem del (h : Geometry c) : Geometry (del c) := by
  have hle := h.x_le
  rw [h.del_eq]
  split
  · have hstored := h.storeCell (x := c.x - 1) (by omega) h.y_lt c.videoEraseChar
    exact hstored.cursorAt (by change c.x - 1 ≤ c.videoNumColumns; omega) h.y_lt
  · exact h

/-- A character stored at the cursor. -/
theorem putCell_eq (h : Geometry c) (hx : c.x < c.videoNumColumns) (ch : BitVec 8) :
    putCell ch c =
      Screen.cursorAt
        (Screen.withRam c (c.ram.storew (c.origin + (c.y * c.videoSizeRow + 2 * c.x))
          (c.attr ++ ch))) (c.x + 1) c.y := by
  have hend := h.screen_lt
  have hsize := h.size_row
  have hrow := row_le c h.y_lt
  have hlines := h.lines
  have hpos := h.pos_eq
  have haddx := add32_eq (a := c.x) (b := 1) (by omega)
  have hadd := add32_eq (a := c.pos) (b := 2) (by omega)
  have hcell : c.pos + 2 = c.origin + c.y * c.videoSizeRow + 2 * (c.x + 1) := by omega
  unfold putCell Screen.cursorAt Screen.withRam
  dsimp only
  rw [haddx, hadd, hcell, hpos, Nat.add_assoc c.origin _ (2 * c.x)]

/-- Storing a character keeps the geometry. -/
theorem putCell (h : Geometry c) (hx : c.x < c.videoNumColumns) (ch : BitVec 8) :
    Geometry (putCell ch c) := by
  rw [h.putCell_eq hx]
  exact (h.storeCell hx h.y_lt _).cursorAt hx h.y_lt

/-- The console before a printable character is stored. -/
theorem wrapped_eq (h : Geometry c) :
    (if c.videoNumColumns ≤ c.x then wrapLine c else c) =
      if c.videoNumColumns ≤ c.x then Screen.lf (Screen.cursorAt c (c.x - c.videoNumColumns) c.y)
      else c := by
  split
  · rename_i hx
    have hle := h.x_le
    rw [← h.wrapLine_eq hx (by omega)]
    unfold Screen.cursorAt
    rw [← h.pos_eq]
  · rfl

/-- A printable character keeps the geometry. -/
theorem putChar (h : Geometry c) (ch : BitVec 8) : Geometry (putChar ch c) := by
  have hle := h.x_le
  have hcols := h.columns
  unfold Screen.putChar
  rw [h.wrapped_eq]
  split
  · have hline := h.cursorAt (x := c.x - c.videoNumColumns) (by omega) h.y_lt
    refine hline.lf.putCell ?_ ch
    obtain ⟨hx, hcolumns⟩ := lf_keeps (Screen.cursorAt c (c.x - c.videoNumColumns) c.y)
    rw [hx, hcolumns]
    change c.x - c.videoNumColumns < c.videoNumColumns
    omega
  · exact h.putCell (by omega) ch

/-- A tab steps to the next stop, on the next line if need be. -/
theorem tab_eq (h : Geometry c) :
    tab c =
      if c.videoNumColumns < c.x + tabWidth c.x then
        Screen.lf (Screen.cursorAt c (c.x + tabWidth c.x - c.videoNumColumns) c.y)
      else Screen.cursorAt c (c.x + tabWidth c.x) c.y := by
  have hle := h.x_le
  have hcols := h.columns
  have hwidth : tabWidth c.x ≤ 8 := Nat.sub_le ..
  unfold tab
  rw [h.tabStep_eq]
  change (if c.videoNumColumns < c.x + tabWidth c.x then _ else _) = _
  split
  · exact h.wrapLine_eq (by omega) (by omega)
  · rfl

/-- A tab keeps the geometry. -/
theorem tab (h : Geometry c) : Geometry (tab c) := by
  have hle := h.x_le
  have hcols := h.columns
  have hwidth : tabWidth c.x ≤ 8 := Nat.sub_le ..
  rw [h.tab_eq]
  split
  · exact (h.cursorAt (by omega) h.y_lt).lf
  · exact h.cursorAt (by omega) h.y_lt

/-- A lowered parameter. -/
theorem lowerPar (h : Geometry c) (i : ℕ) : Geometry (lowerPar c i) := by
  unfold Screen.lowerPar
  split
  · exact h.setPar i _
  · exact h

/-- A raised parameter. -/
theorem raisePar (h : Geometry c) : Geometry (raisePar c) := by
  unfold Screen.raisePar
  split
  · exact h.setPar 0 _
  · exact h

/-- The default end of a region. -/
theorem defaultBottom (h : Geometry c) : Geometry (defaultBottom c) := by
  unfold Screen.defaultBottom
  split
  · exact h.setPar 1 _
  · exact h

/-- Setting the scroll region keeps the geometry. -/
theorem setRegion (h : Geometry c) (t b : ℕ) : Geometry (setRegion c t b) := by
  unfold Screen.setRegion
  split
  · rename_i hregion
    exact h.region hregion.1 hregion.2
  · exact h

/-- Both branches keep the geometry. -/
theorem ite {p : Prop} [Decidable p] {a b : Console} (ha : p → Geometry a)
    (hb : ¬ p → Geometry b) : Geometry (if p then a else b) := by
  split
  · rename_i hp
    exact ha hp
  · rename_i hp
    exact hb hp

/-- The end of an escape sequence keeps the geometry. -/
theorem csiFinal (h : Geometry c) (ch : BitVec 8) : Geometry (csiFinal ch c) := by
  unfold Screen.csiFinal
  refine ite (fun _ => (h.lowerPar 0).gotoxy ..) fun _ => ?_
  refine ite (fun _ => h.raisePar.gotoxy ..) fun _ => ?_
  refine ite (fun _ => h.raisePar.gotoxy ..) fun _ => ?_
  refine ite (fun _ => h.raisePar.gotoxy ..) fun _ => ?_
  refine ite (fun _ => h.raisePar.gotoxy ..) fun _ => ?_
  refine ite (fun _ => h.raisePar.gotoxy ..) fun _ => ?_
  refine ite (fun _ => h.raisePar.gotoxy ..) fun _ => ?_
  refine ite (fun _ => (h.lowerPar 0).gotoxy ..) fun _ => ?_
  refine ite (fun _ => ((h.lowerPar 0).lowerPar 1).gotoxy ..) fun _ => ?_
  refine ite (fun _ => h.csiJ _) fun _ => ?_
  refine ite (fun _ => h.csiK _) fun _ => ?_
  refine ite (fun _ => iterate Geometry.insertLine _ h) fun _ => ?_
  refine ite (fun _ => iterate Geometry.deleteLine _ h) fun _ => ?_
  refine ite (fun _ => iterate Geometry.deleteChar _ h) fun _ => ?_
  refine ite (fun _ => iterate Geometry.insertChar _ h) fun _ => ?_
  refine ite (fun _ => { h with }) fun _ => ?_
  refine ite (fun _ => (h.lowerPar 0).defaultBottom.setRegion ..) fun _ => ?_
  refine ite (fun _ => { h with }) fun _ => ?_
  refine ite (fun _ => h.gotoxy ..) fun _ => ?_
  exact h

/-- A character outside of escape sequences keeps the geometry. -/
theorem normalChar (h : Geometry c) (eraseCc ch : BitVec 8) :
    Geometry (normalChar eraseCc ch c) := by
  unfold Screen.normalChar
  split_ifs with _ _ _ _ _ _ hx
  · exact h.putChar ch
  · exact h.setState (by decide)
  · exact h.lf
  · exact h.cr
  · exact h.del
  · exact h.back hx
  · exact h
  · exact h.tab
  · exact h

/-- The character after an escape keeps the geometry. -/
theorem escChar (h : Geometry c) (ch : BitVec 8) : Geometry (escChar ch c) := by
  unfold Screen.escChar
  split_ifs
  · exact h.setState (by decide)
  · exact h.gotoxy ..
  · exact h.ri
  · exact h.lf
  · exact h
  · exact { h with }
  · exact h.gotoxy ..
  · exact h

/-- A character of a parameter keeps the geometry. -/
theorem parChar (h : Geometry c) (ch : BitVec 8) : Geometry (parChar ch c) := by
  unfold Screen.parChar
  split_ifs with hnext
  · have hlt := hnext.2
    exact { h with npar_lt := by change c.npar + 1 < npars; omega }
  · exact h.setPar _ _
  · exact (h.setState (Nat.zero_le _)).csiFinal ch

/-- Forgetting the parameters keeps the geometry. -/
theorem clearPars (h : Geometry c) (ques : Bool) : Geometry (clearPars ques c) :=
  { h with
    state_le := by
      change 3 ≤ 4
      decide
    npar_lt := by
      change 0 < npars
      decide }

/-- Every character keeps the geometry. -/
theorem conChar (h : Geometry c) (eraseCc ch : BitVec 8) : Geometry (conChar eraseCc ch c) := by
  have hzero : Geometry (Screen.setState c 0) := h.setState (Nat.zero_le _)
  unfold Screen.conChar
  split
  · exact h.normalChar eraseCc ch
  · exact hzero.escChar ch
  · split
    · exact h.clearPars true
    · exact (h.clearPars false).parChar ch
  · exact h.parChar ch
  · exact hzero.csiFinal ch
  · exact h

/-- Every sequence of characters keeps the geometry. -/
theorem conChars (h : Geometry c) (inputs : List Input) : Geometry (conChars inputs c) := by
  induction inputs generalizing c with
  | nil => exact h
  | cons i inputs ih => exact ih (h.conChar i.eraseCc i.ch)

end Geometry

/-! ## Initialization -/

/-- The name of the card is written to the end of the first line. -/
theorem describe_stores {lo hi p : ℕ} (chs : List (BitVec 8)) {m : Ram}
    (h : Ram.StoresIn lo hi m) (hlo : lo ≤ p) (hhi : p + 2 * chs.length ≤ hi)
    (hword : hi < 2 ^ 32) : Ram.StoresIn lo hi (describe chs p m) := by
  induction chs generalizing p m with
  | nil => exact h
  | cons ch chs ih =>
    rw [List.length_cons] at hhi
    rw [describe, add32_eq (by omega)]
    exact ih (h.storeb ch hlo (by omega)) (by omega) (by omega)

/-- Every card has a name of four characters. -/
theorem Setup.displayDesc_length (s : Setup) : s.displayDesc.length = 4 := by
  unfold Setup.displayDesc
  split_ifs <;> rfl

/-- Every card has its memory below 1 MB. -/
theorem Setup.memEnd_le (s : Setup) : s.memEnd ≤ 0xbc000 := by
  unfold Setup.memEnd
  split_ifs <;> decide

/-- After `con_init` with a valid BIOS cursor and a screen that fits in video memory, and
after every sequence of characters, the cursor is on the screen, the screen is in video
memory, and every store was one to video memory. -/
theorem conInit_geometry (s : Setup) (mem : ℕ → BitVec 8) (inputs : List Input)
    (hcols : 8 ≤ s.videoCols)
    (hfits : s.memStart + origVideoLines * (s.videoCols * 2) ≤ s.memEnd)
    (hx : s.origX.toNat ≤ s.videoCols) (hy : s.origY.toNat < origVideoLines) :
    Geometry (conChars inputs (conInit s ⟨mem, []⟩)) := by
  have hend := s.memEnd_le
  have harea : origVideoLines * (s.videoCols * 2) = 25 * (s.videoCols * 2) := rfl
  have hmul := mul32_eq (a := origVideoLines) (b := s.videoCols * 2) (by omega)
  have hadd := add32_eq (a := s.memStart) (b := origVideoLines * (s.videoCols * 2)) (by omega)
  have hscr : add32 s.memStart (mul32 origVideoLines (s.videoCols * 2)) =
      s.memStart + origVideoLines * (s.videoCols * 2) := by rw [hmul, hadd]
  have hname := add32_eq (a := s.memStart) (b := s.videoCols * 2) (by omega)
  have hname8 := sub32_eq (a := s.memStart + s.videoCols * 2) (b := 8) (by omega) (by omega)
  have hstores : Ram.StoresIn s.memStart s.memEnd
      (describe s.displayDesc (sub32 (add32 s.memStart (s.videoCols * 2)) 8) ⟨mem, []⟩) := by
    have hlen := s.displayDesc_length
    rw [hname, hname8]
    exact describe_stores _ (fun a ha => absurd ha List.not_mem_nil) (by omega) (by omega)
      (by omega)
  have hzero : 0 < origVideoLines := by decide
  have hpars : 0 < npars := by decide
  have hblank : Geometry (cursorAt (conBlank s ⟨mem, []⟩) 0 0) := {
    size_row := rfl
    columns := hcols
    lines := rfl
    mem_end := Nat.lt_of_le_of_lt hend (by decide)
    x_le := Nat.zero_le _
    y_lt := hzero
    pos_eq := rfl
    top_lt := hzero
    bottom_le := Nat.le_refl _
    scrEnd_eq := hscr
    origin_ge := Nat.le_refl _
    scrEnd_le := hscr.trans_le hfits
    state_le := Nat.zero_le _
    npar_lt := hpars
    stores := hstores }
  have hon : ¬ ((conBlank s ⟨mem, []⟩).videoNumColumns < s.origX.toNat ∨
      (conBlank s ⟨mem, []⟩).videoNumLines ≤ s.origY.toNat) := by
    change ¬ (s.videoCols < s.origX.toNat ∨ origVideoLines ≤ s.origY.toNat)
    omega
  have hinit : conInit s ⟨mem, []⟩ =
      gotoxy (cursorAt (conBlank s ⟨mem, []⟩) 0 0) s.origX.toNat s.origY.toNat := by
    unfold conInit gotoxy
    rw [if_neg hon, if_neg (by exact hon)]
    rfl
  rw [hinit]
  exact (hblank.gotoxy _ _).conChars inputs

/-- A colour EGA card with 80 columns, and a character on it. -/
def egaSetup : Setup := ⟨0, 0, 0x5003, 0⟩

/-- The geometry of a screen with 80 columns. -/
theorem conInit_geometry_ega :
    Geometry (conChars [⟨127, 65⟩] (conInit egaSetup ⟨fun _ => 0, []⟩)) :=
  conInit_geometry egaSetup _ _ (by decide) (by decide) (by decide) (by decide)

end LihaLinux.Screen
