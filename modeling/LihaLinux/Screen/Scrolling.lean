import LihaLinux.Screen.Geometry

/-!
# Scrolling by the origin

A card whose display start can be moved scrolls the whole screen by moving its origin, the
others copy the lines. What is on the screen is the same, for every sequence of
characters: two consoles that show the same screen go on showing the same screen.
-/

namespace LihaLinux.Screen

/-- Two consoles show the same screen, with the same cursor, scroll region and attribute,
and their parsers are in the same state. -/
structure SameScreen (c c' : Console) : Prop where
  /-- The same number of columns. -/
  columns : c.videoNumColumns = c'.videoNumColumns
  /-- The same number of lines. -/
  lines : c.videoNumLines = c'.videoNumLines
  /-- Rows of the same length. -/
  row : c.videoSizeRow = c'.videoSizeRow
  /-- The same erase character. -/
  eraseChar : c.videoEraseChar = c'.videoEraseChar
  /-- The same column of the cursor. -/
  x : c.x = c'.x
  /-- The same line of the cursor. -/
  y : c.y = c'.y
  /-- The same first line of the scroll region. -/
  top : c.top = c'.top
  /-- The same end of the scroll region. -/
  bottom : c.bottom = c'.bottom
  /-- The same state of the parser. -/
  state : c.state = c'.state
  /-- The same number of parameters. -/
  npar : c.npar = c'.npar
  /-- The same parameters. -/
  par : c.par = c'.par
  /-- The same attribute. -/
  attr : c.attr = c'.attr
  /-- The same column of the saved cursor. -/
  savedX : c.savedX = c'.savedX
  /-- The same line of the saved cursor. -/
  savedY : c.savedY = c'.savedY
  /-- The same bytes in the lines that start at the origin. -/
  window : Ram.Agree (c.videoNumLines * c.videoSizeRow) c.origin c'.origin c.ram c'.ram

namespace SameScreen

variable {c c' c'' : Console}

/-- A console shows what it shows. -/
theorem refl (c : Console) : SameScreen c c :=
  ⟨rfl, rfl, rfl, rfl, rfl, rfl, rfl, rfl, rfl, rfl, rfl, rfl, rfl, rfl, fun _ _ => rfl⟩

/-- Showing the same is symmetric. -/
theorem symm (h : SameScreen c c') : SameScreen c' c := by
  refine ⟨h.columns.symm, h.lines.symm, h.row.symm, h.eraseChar.symm, h.x.symm, h.y.symm,
    h.top.symm, h.bottom.symm, h.state.symm, h.npar.symm, h.par.symm, h.attr.symm, h.savedX.symm,
    h.savedY.symm, ?_⟩
  rw [← h.lines, ← h.row]
  exact h.window.symm

/-- Showing the same is transitive. -/
theorem trans (h : SameScreen c c') (h' : SameScreen c' c'') : SameScreen c c'' := by
  refine ⟨h.columns.trans h'.columns, h.lines.trans h'.lines, h.row.trans h'.row,
    h.eraseChar.trans h'.eraseChar, h.x.trans h'.x, h.y.trans h'.y, h.top.trans h'.top,
    h.bottom.trans h'.bottom, h.state.trans h'.state, h.npar.trans h'.npar, h.par.trans h'.par,
    h.attr.trans h'.attr, h.savedX.trans h'.savedX, h.savedY.trans h'.savedY, ?_⟩
  have hwindow := h'.window
  rw [← h.lines, ← h.row] at hwindow
  exact h.window.trans hwindow

/-- The same cursor motion. -/
theorem cursorAt (h : SameScreen c c') (x y : ℕ) :
    SameScreen (cursorAt c x y) (cursorAt c' x y) :=
  { h with x := rfl, y := rfl }

/-- Stores with the same effect on the screen. -/
theorem withRam (h : SameScreen c c') {m m' : Ram}
    (hm : Ram.Agree (c.videoNumLines * c.videoSizeRow) c.origin c'.origin m m') :
    SameScreen (withRam c m) (withRam c' m') :=
  { h with window := hm }

/-- The same scroll region. -/
theorem region (h : SameScreen c c') (t b : ℕ) : SameScreen (region c t b) (region c' t b) :=
  { h with top := rfl, bottom := rfl }

/-- The same state of the parser. -/
theorem setState (h : SameScreen c c') (s : ℕ) : SameScreen (setState c s) (setState c' s) :=
  { h with state := rfl }

/-- The same parameter. -/
theorem setPar (h : SameScreen c c') (i v : ℕ) : SameScreen (setPar c i v) (setPar c' i v) :=
  { h with par := by rw [Screen.setPar, Screen.setPar, h.par] }

/-- The same choice. -/
theorem ite {p : Prop} [Decidable p] {a a' b b' : Console} (ha : p → SameScreen a a')
    (hb : ¬ p → SameScreen b b') : SameScreen (if p then a else b) (if p then a' else b') := by
  by_cases hp : p
  · rw [if_pos hp, if_pos hp]
    exact ha hp
  · rw [if_neg hp, if_neg hp]
    exact hb hp

end SameScreen

/-- The shift of `insert_char` in two windows. -/
theorem insertLoop_agree {size o o' n d : ℕ} (old : BitVec 16) {m m' : Ram}
    (h : Ram.Agree size o o' m m') (hd : d + 2 * n ≤ size) (hword : o + size < 2 ^ 31)
    (hword' : o' + size < 2 ^ 31) :
    Ram.Agree size o o' (insertLoop n (o + d) old m) (insertLoop n (o' + d) old m') := by
  induction n generalizing d old m m' with
  | zero => exact h
  | succ n ih =>
    rw [insertLoop, insertLoop, h.loadw (by omega), add32_eq (by omega), add32_eq (by omega),
      Nat.add_assoc, Nat.add_assoc]
    exact ih _ (h.storew d old) (by omega)

/-- The shift of `delete_char` in two windows. -/
theorem deleteLoop_agree {size o o' n d : ℕ} (erase : BitVec 16) {m m' : Ram}
    (h : Ram.Agree size o o' m m') (hd : d + 2 * n + 2 ≤ size) (hword : o + size < 2 ^ 31)
    (hword' : o' + size < 2 ^ 31) :
    Ram.Agree size o o' (deleteLoop erase n (o + d) m) (deleteLoop erase n (o' + d) m') := by
  induction n generalizing d m m' with
  | zero => exact h.storew d erase
  | succ n ih =>
    rw [deleteLoop, deleteLoop, add32_eq (by omega), add32_eq (by omega), Nat.add_assoc,
      Nat.add_assoc, h.loadw (by omega)]
    exact ih (h.storew d _) (by omega)

/-- Two consoles with the geometry of the driver that show the same screen. -/
structure Twin (c c' : Console) : Prop where
  /-- The geometry of the first. -/
  left : Geometry c
  /-- The geometry of the second. -/
  right : Geometry c'
  /-- They show the same screen. -/
  same : SameScreen c c'

namespace Twin

variable {c c' : Console}

/-- The screens end below the end of the address space. -/
theorem screens_lt (h : Twin c c') :
    c.origin + c.videoNumLines * c.videoSizeRow < 2 ^ 31 ∧
      c'.origin + c.videoNumLines * c.videoSizeRow < 2 ^ 31 := by
  refine ⟨h.left.screen_lt, ?_⟩
  rw [h.same.lines, h.same.row]
  exact h.right.screen_lt

/-- The same choice. -/
theorem ite {p : Prop} [Decidable p] {a a' b b' : Console} (ha : p → Twin a a')
    (hb : ¬ p → Twin b b') : Twin (if p then a else b) (if p then a' else b') := by
  by_cases hp : p
  · rw [if_pos hp, if_pos hp]
    exact ha hp
  · rw [if_neg hp, if_neg hp]
    exact hb hp

/-! ## Scrolling -/

/-- The same number of long words is copied. -/
theorem regionCount_eq (h : Twin c c') : regionCount c' = regionCount c := by
  unfold regionCount
  rw [h.same.bottom, h.same.top, h.same.columns]

/-- Copying the region up shows the same. -/
theorem copyUp (h : Twin c c') : SameScreen (copyUp c) (copyUp c') := by
  obtain ⟨hlt, hlt'⟩ := h.screens_lt
  have hfits := h.left.region_fits
  have hle := h.left.region_le
  have hsize := h.left.size_row
  rw [h.left.copyUp_eq, h.right.copyUp_eq, h.regionCount_eq, ← h.same.row, ← h.same.top,
    ← h.same.columns, ← h.same.eraseChar]
  apply h.same.withRam
  apply Ram.Agree.stosw_up _ _ (by omega) (by omega)
  exact h.same.window.movsl_up (by omega) (by omega) (by omega) (by omega) (by omega)

/-- Scrolling down shows the same. -/
theorem scrdown (h : Twin c c') : Twin (scrdown c) (scrdown c') := by
  refine ⟨h.left.scrdown, h.right.scrdown, ?_⟩
  obtain ⟨hlt, hlt'⟩ := h.screens_lt
  have hfits := h.left.region_fits
  have hle := h.left.region_le
  have hsize := h.left.size_row
  have hcols := h.left.columns
  rw [h.left.scrdown_eq, h.right.scrdown_eq, h.regionCount_eq, ← h.same.row, ← h.same.bottom,
    ← h.same.columns, ← h.same.eraseChar]
  apply h.same.withRam
  apply Ram.Agree.stosw_down _ _ (by omega) (by omega) (by omega)
  exact h.same.window.movsl_down (by omega) (by omega) (by omega) (by omega) (by omega) (by omega)
    (by omega)

end Twin

/-- Moving the origin shows what copying the lines shows. -/
theorem scrupOrigin_sameScreen {c : Console} (h : Geometry c) (htop : c.top = 0)
    (hbottom : c.bottom = c.videoNumLines) : SameScreen (scrupOrigin c) (copyUp c) := by
  have hkept := h.kept_eq
  have hcount : regionCount c = Geometry.keptCount c := by
    unfold regionCount Geometry.keptCount
    rw [htop, hbottom, Nat.sub_zero]
  have hlt := h.screen_lt
  have hmem := h.mem_end
  have hend := h.scrEnd_le
  have hstart := h.origin_ge
  have hsize := h.size_row
  rw [h.scrEnd_eq] at hend
  have hcopy : ∀ i < c.videoNumLines * c.videoSizeRow,
      (copyUp c).ram.byte (c.origin + i) =
        if 4 * Geometry.keptCount c ≤ i then
          if (i - 4 * Geometry.keptCount c) % 2 = 0 then Ram.low c.videoEraseChar
          else Ram.high c.videoEraseChar
        else c.ram.byte (c.origin + c.videoSizeRow + i) := by
    intro i hi
    rw [h.copyUp_eq, hcount, htop, Nat.mul_zero, Nat.zero_add, Nat.zero_add, Nat.add_zero]
    change (Ram.stosw _ _ _ _ _).byte _ = _
    rw [Ram.byte_stosw_up _ _ _ (by omega), Ram.byte_movsl_up _ _ (by omega) (by omega)]
    by_cases hlast : 4 * Geometry.keptCount c ≤ i
    · have hoffset : c.origin + i - (c.origin + 4 * Geometry.keptCount c) =
          i - 4 * Geometry.keptCount c := by omega
      rw [if_pos (by omega), if_pos hlast, hoffset]
    · have hfrom : c.origin + c.videoSizeRow + (c.origin + i - c.origin) =
          c.origin + c.videoSizeRow + i := by omega
      rw [if_neg (by omega), if_neg hlast, if_pos (by omega), hfrom]
  rw [h.scrupOrigin_eq]
  by_cases hout : c.videoMemEnd < c.origin + c.videoNumLines * c.videoSizeRow + c.videoSizeRow
  · rw [if_pos hout]
    refine ⟨rfl, rfl, rfl, rfl, rfl, rfl, rfl, rfl, rfl, rfl, rfl, rfl, rfl, rfl, fun i hi => ?_⟩
    change i < c.videoNumLines * c.videoSizeRow at hi
    refine Eq.trans ?_ (hcopy i hi).symm
    change (Ram.stosw _ _ _ _ _).byte (c.videoMemStart + i) = _
    rw [Ram.byte_stosw_up _ _ _ (by omega), Ram.byte_movsl_up _ _ (by omega) (by omega)]
    by_cases hlast : 4 * Geometry.keptCount c ≤ i
    · have hoffset : c.videoMemStart + i - (c.videoMemStart + 4 * Geometry.keptCount c) =
          i - 4 * Geometry.keptCount c := by omega
      rw [if_pos (by omega), if_pos hlast, hoffset]
    · have hfrom : c.origin + c.videoSizeRow + (c.videoMemStart + i - c.videoMemStart) =
          c.origin + c.videoSizeRow + i := by omega
      rw [if_neg (by omega), if_neg hlast, if_pos (by omega), hfrom]
  · rw [if_neg hout]
    refine ⟨rfl, rfl, rfl, rfl, rfl, rfl, rfl, rfl, rfl, rfl, rfl, rfl, rfl, rfl, fun i hi => ?_⟩
    change i < c.videoNumLines * c.videoSizeRow at hi
    refine Eq.trans ?_ (hcopy i hi).symm
    change (Ram.stosw _ _ _ _ _).byte (c.origin + c.videoSizeRow + i) = _
    rw [Ram.byte_stosw_up _ _ _ (by omega)]
    by_cases hlast : 4 * Geometry.keptCount c ≤ i
    · have hoffset : c.origin + c.videoSizeRow + i -
          (c.origin + c.videoNumLines * c.videoSizeRow) = i - 4 * Geometry.keptCount c := by omega
      rw [if_pos (by omega), if_pos hlast, hoffset]
    · rw [if_neg (by omega), if_neg hlast]

/-- Every card shows after scrolling up what copying the lines shows. -/
theorem scrup_sameScreen {c : Console} (h : Geometry c) : SameScreen (scrup c) (copyUp c) := by
  unfold scrup
  split
  · split
    · rename_i hwhole
      exact scrupOrigin_sameScreen h hwhole.1 hwhole.2
    · exact .refl _
  · exact .refl _

namespace Twin

variable {c c' : Console}

/-- Scrolling up shows the same. -/
theorem scrup (h : Twin c c') : Twin (scrup c) (scrup c') :=
  ⟨h.left.scrup, h.right.scrup,
    (scrup_sameScreen h.left).trans (h.copyUp.trans (scrup_sameScreen h.right).symm)⟩

/-! ## Cursor motion -/

/-- The same motion to a place on the screen. -/
theorem cursorAt (h : Twin c c') {x y : ℕ} (hx : x ≤ c.videoNumColumns)
    (hy : y < c.videoNumLines) : Twin (cursorAt c x y) (cursorAt c' x y) :=
  ⟨h.left.cursorAt hx hy, h.right.cursorAt (h.same.columns ▸ hx) (h.same.lines ▸ hy),
    h.same.cursorAt x y⟩

/-- `gotoxy` shows the same. -/
theorem gotoxy (h : Twin c c') (newX newY : ℕ) :
    Twin (gotoxy c newX newY) (gotoxy c' newX newY) := by
  rw [h.left.gotoxy_eq, h.right.gotoxy_eq, ← h.same.columns, ← h.same.lines]
  exact ite (fun _ => h) fun hon => h.cursorAt (by omega) (by omega)

/-- A line feed shows the same. -/
theorem lf (h : Twin c c') : Twin (lf c) (lf c') := by
  have hbottom := h.left.bottom_le
  rw [h.left.lf_eq, h.right.lf_eq, ← h.same.y, ← h.same.bottom, ← h.same.x]
  exact ite (fun _ => h.cursorAt h.left.x_le (by omega)) fun _ => h.scrup

/-- A reverse line feed shows the same. -/
theorem ri (h : Twin c c') : Twin (ri c) (ri c') := by
  have hy := h.left.y_lt
  rw [h.left.ri_eq, h.right.ri_eq, ← h.same.y, ← h.same.top, ← h.same.x]
  exact ite (fun _ => h.cursorAt h.left.x_le (by omega)) fun _ => h.scrdown

/-- A carriage return shows the same. -/
theorem cr (h : Twin c c') : Twin (cr c) (cr c') := by
  rw [h.left.cr_eq, h.right.cr_eq, ← h.same.y]
  exact h.cursorAt (Nat.zero_le _) h.left.y_lt

/-- A step back shows the same. -/
theorem back (h : Twin c c') (hx : c.x ≠ 0) : Twin (back c) (back c') := by
  have hle := h.left.x_le
  rw [h.left.back_eq hx, h.right.back_eq (h.same.x ▸ hx), ← h.same.y, ← h.same.x]
  exact h.cursorAt (by omega) h.left.y_lt

/-- A tab shows the same. -/
theorem tab (h : Twin c c') : Twin (tab c) (tab c') := by
  have hle := h.left.x_le
  have hcols := h.left.columns
  have hwidth : tabWidth c.x ≤ 8 := Nat.sub_le ..
  rw [h.left.tab_eq, h.right.tab_eq, ← h.same.y, ← h.same.x, ← h.same.columns]
  exact ite (fun _ => (h.cursorAt (by omega) h.left.y_lt).lf) fun _ =>
    h.cursorAt (by omega) h.left.y_lt

/-- Going back to the saved cursor shows the same. -/
theorem restoreCur (h : Twin c c') : Twin (restoreCur c) (restoreCur c') := by
  unfold Screen.restoreCur
  rw [← h.same.savedX, ← h.same.savedY]
  exact h.gotoxy ..

/-- Saving the cursor shows the same. -/
theorem saveCur (h : Twin c c') : Twin (saveCur c) (saveCur c') :=
  ⟨{ h.left with }, { h.right with }, { h.same with savedX := h.same.x, savedY := h.same.y }⟩

/-! ## Stores on the screen -/

/-- The same fill shows the same. -/
theorem erase (h : Twin c c') {n d : ℕ} (hd : d + 2 * n ≤ c.videoNumLines * c.videoSizeRow) :
    Twin (erase c n (c.origin + d)) (erase c' n (c'.origin + d)) := by
  obtain ⟨hlt, hlt'⟩ := h.screens_lt
  refine ⟨h.left.erase hd, h.right.erase (by rwa [← h.same.lines, ← h.same.row]), ?_⟩
  have hfill := h.same.window.stosw_up c.videoEraseChar (n := n) (d := d) (by omega) (by omega)
  nth_rewrite 2 [h.same.eraseChar] at hfill
  exact h.same.withRam hfill

/-- `csi_J` shows the same. -/
theorem csiJ (h : Twin c c') (par : ℕ) : Twin (csiJ c par) (csiJ c' par) := by
  have hplace := h.left.place_le h.left.y_lt h.left.x_le
  have hsize := h.left.size_row
  have harea : c.videoNumLines * c.videoSizeRow =
      2 * (c.videoNumColumns * c.videoNumLines) := by
    rw [hsize]
    ring
  rw [h.left.csiJ_eq, h.right.csiJ_eq, ← h.same.lines, ← h.same.row, ← h.same.y, ← h.same.x,
    ← h.same.columns]
  refine ite (fun _ => h.erase (by omega)) fun _ => ?_
  refine ite (fun _ => h.erase (by omega)) fun _ => ?_
  exact ite (fun _ => h.erase (by omega)) fun _ => h

/-- `csi_K` shows the same. -/
theorem csiK (h : Twin c c') (par : ℕ) : Twin (csiK c par) (csiK c' par) := by
  have hx := h.left.x_le
  have hsize := h.left.size_row
  have hrow := row_le c h.left.y_lt
  rw [h.left.csiK_eq, h.right.csiK_eq, ← h.same.row, ← h.same.y, ← h.same.x, ← h.same.columns]
  refine ite (fun _ => ite (fun _ => h) fun _ => h.erase (by omega)) fun _ => ?_
  refine ite (fun _ => h.erase (by omega)) fun _ => ?_
  exact ite (fun _ => h.erase (by omega)) fun _ => h

/-- The same cell stored at the same place shows the same. -/
theorem storeCell (h : Twin c c') {x y : ℕ} (hx : x < c.videoNumColumns)
    (hy : y < c.videoNumLines) (v : BitVec 16) :
    Twin (withRam c (c.ram.storew (c.origin + (y * c.videoSizeRow + 2 * x)) v))
      (withRam c' (c'.ram.storew (c'.origin + (y * c.videoSizeRow + 2 * x)) v)) := by
  refine ⟨h.left.storeCell hx hy v, ?_, h.same.withRam (h.same.window.storew _ v)⟩
  rw [h.same.row]
  exact h.right.storeCell (h.same.columns ▸ hx) (h.same.lines ▸ hy) v

/-- `del` shows the same. -/
theorem del (h : Twin c c') : Twin (del c) (del c') := by
  have hle := h.left.x_le
  rw [h.left.del_eq, h.right.del_eq, ← h.same.x, ← h.same.y, ← h.same.row, ← h.same.eraseChar]
  refine ite (fun hx => ?_) fun _ => h
  refine (h.storeCell (by omega) h.left.y_lt _).cursorAt ?_ h.left.y_lt
  change c.x - 1 ≤ c.videoNumColumns
  omega

/-- Storing a character shows the same. -/
theorem putCell (h : Twin c c') (hx : c.x < c.videoNumColumns) (ch : BitVec 8) :
    Twin (putCell ch c) (putCell ch c') := by
  have hx' : c'.x < c'.videoNumColumns := by rwa [← h.same.x, ← h.same.columns]
  rw [h.left.putCell_eq hx, h.right.putCell_eq hx', ← h.same.x, ← h.same.y, ← h.same.row,
    ← h.same.attr]
  exact (h.storeCell hx h.left.y_lt _).cursorAt hx h.left.y_lt

/-- A printable character shows the same. -/
theorem putChar (h : Twin c c') (ch : BitVec 8) : Twin (putChar ch c) (putChar ch c') := by
  have hle := h.left.x_le
  have hcols := h.left.columns
  unfold Screen.putChar
  rw [h.left.wrapped_eq, h.right.wrapped_eq, ← h.same.x, ← h.same.y, ← h.same.columns]
  by_cases hwrap : c.videoNumColumns ≤ c.x
  · rw [if_pos hwrap, if_pos hwrap]
    have hline := h.cursorAt (x := c.x - c.videoNumColumns) (by omega) h.left.y_lt
    refine hline.lf.putCell ?_ ch
    obtain ⟨hx, hcolumns⟩ := lf_keeps (Screen.cursorAt c (c.x - c.videoNumColumns) c.y)
    rw [hx, hcolumns]
    change c.x - c.videoNumColumns < c.videoNumColumns
    omega
  · rw [if_neg hwrap, if_neg hwrap]
    exact h.putCell (by omega) ch

/-! ## Inserting and deleting -/

/-- `insert_char` shows the same. -/
theorem insertChar (h : Twin c c') : Twin (insertChar c) (insertChar c') := by
  have hx := h.left.x_le
  have hsize := h.left.size_row
  have hrow := row_le c h.left.y_lt
  obtain ⟨hlt, hlt'⟩ := h.screens_lt
  have hpos : c.pos = c.origin + (c.y * c.videoSizeRow + 2 * c.x) := by
    rw [h.left.pos_eq, Nat.add_assoc]
  have hpos' : c'.pos = c'.origin + (c.y * c.videoSizeRow + 2 * c.x) := by
    rw [h.right.pos_eq, Nat.add_assoc, h.same.x, h.same.y, h.same.row]
  refine ⟨h.left.insertChar, h.right.insertChar, ?_⟩
  have hshift : Ram.Agree (c.videoNumLines * c.videoSizeRow) c.origin c'.origin
      (insertLoop (c.videoNumColumns - c.x) c.pos c.videoEraseChar c.ram)
      (insertLoop (c'.videoNumColumns - c'.x) c'.pos c'.videoEraseChar c'.ram) := by
    rw [← h.same.columns, ← h.same.x, ← h.same.eraseChar, hpos, hpos']
    exact insertLoop_agree _ h.same.window (by omega) hlt hlt'
  exact h.same.withRam hshift

/-- `delete_char` shows the same. -/
theorem deleteChar (h : Twin c c') : Twin (deleteChar c) (deleteChar c') := by
  refine ⟨h.left.deleteChar, h.right.deleteChar, ?_⟩
  have hsize := h.left.size_row
  have hrow := row_le c h.left.y_lt
  obtain ⟨hlt, hlt'⟩ := h.screens_lt
  have hpos : c.pos = c.origin + (c.y * c.videoSizeRow + 2 * c.x) := by
    rw [h.left.pos_eq, Nat.add_assoc]
  have hpos' : c'.pos = c'.origin + (c.y * c.videoSizeRow + 2 * c.x) := by
    rw [h.right.pos_eq, Nat.add_assoc, h.same.x, h.same.y, h.same.row]
  have hcolumns := h.same.columns
  have hx := h.same.x
  unfold Screen.deleteChar
  by_cases hend : c.videoNumColumns ≤ c.x
  · rw [if_pos hend, if_pos (by omega)]
    exact h.same
  · rw [if_neg hend, if_neg (by omega)]
    have hshift : Ram.Agree (c.videoNumLines * c.videoSizeRow) c.origin c'.origin
        (deleteLoop c.videoEraseChar (c.videoNumColumns - c.x - 1) c.pos c.ram)
        (deleteLoop c'.videoEraseChar (c'.videoNumColumns - c'.x - 1) c'.pos c'.ram) := by
      rw [← h.same.columns, ← h.same.x, ← h.same.eraseChar, hpos, hpos']
      exact deleteLoop_agree _ h.same.window (by omega) hlt hlt'
    exact h.same.withRam hshift

/-- The same operation on the lines from the cursor's line on shows the same. -/
theorem withRegion (h : Twin c c') {op : Console → Console}
    (hop : ∀ {c c'}, Twin c c' → Twin (op c) (op c'))
    (hlines : ∀ c, (op c).videoNumLines = c.videoNumLines) :
    Twin (withRegion c c.y c.videoNumLines op) (withRegion c' c'.y c'.videoNumLines op) := by
  have hregion : Twin (Screen.region c c.y c.videoNumLines)
      (Screen.region c' c'.y c'.videoNumLines) := by
    refine ⟨h.left.region h.left.y_lt (Nat.le_refl _), h.right.region h.right.y_lt (Nat.le_refl _),
      ?_⟩
    rw [← h.same.y, ← h.same.lines]
    exact h.same.region _ _
  have hbottom : c.bottom ≤ (op (Screen.region c c.y c.videoNumLines)).videoNumLines := by
    rw [hlines]
    exact h.left.bottom_le
  have hbottom' : c'.bottom ≤ (op (Screen.region c' c'.y c'.videoNumLines)).videoNumLines := by
    rw [hlines]
    exact h.right.bottom_le
  refine ⟨(hop hregion).left.region h.left.top_lt hbottom,
    (hop hregion).right.region h.right.top_lt hbottom', ?_⟩
  have hsame := (hop hregion).same.region c.top c.bottom
  unfold Screen.withRegion
  rw [← h.same.top, ← h.same.bottom]
  exact hsame

/-- `insert_line` shows the same. -/
theorem insertLine (h : Twin c c') : Twin (insertLine c) (insertLine c') :=
  h.withRegion Twin.scrdown fun _ => rfl

/-- `delete_line` shows the same. -/
theorem deleteLine (h : Twin c c') : Twin (deleteLine c) (deleteLine c') :=
  h.withRegion Twin.scrup fun c => (scrup_keeps c).2.2

/-- A repeated operation shows the same. -/
theorem iterate {op : Console → Console} (hop : ∀ {c c'}, Twin c c' → Twin (op c) (op c')) (n : ℕ)
    (h : Twin c c') : Twin (op^[n] c) (op^[n] c') := by
  induction n generalizing c c' with
  | zero => exact h
  | succ n ih => exact ih (hop h)

/-! ## The state machine -/

/-- The same state of the parser. -/
theorem setState (h : Twin c c') {s : ℕ} (hs : s ≤ 4) : Twin (setState c s) (setState c' s) :=
  ⟨h.left.setState hs, h.right.setState hs, h.same.setState s⟩

/-- The same parameter. -/
theorem setPar (h : Twin c c') (i v : ℕ) : Twin (setPar c i v) (setPar c' i v) :=
  ⟨h.left.setPar i v, h.right.setPar i v, h.same.setPar i v⟩

/-- The same lowered parameter. -/
theorem lowerPar (h : Twin c c') (i : ℕ) : Twin (lowerPar c i) (lowerPar c' i) := by
  unfold Screen.lowerPar
  rw [← h.same.par]
  exact ite (fun _ => h.setPar i _) fun _ => h

/-- The same raised parameter. -/
theorem raisePar (h : Twin c c') : Twin (raisePar c) (raisePar c') := by
  unfold Screen.raisePar
  rw [← h.same.par]
  exact ite (fun _ => h.setPar 0 _) fun _ => h

/-- The same default end of a region. -/
theorem defaultBottom (h : Twin c c') : Twin (defaultBottom c) (defaultBottom c') := by
  unfold Screen.defaultBottom
  rw [← h.same.par, ← h.same.lines]
  exact ite (fun _ => h.setPar 1 _) fun _ => h

/-- The same scroll region. -/
theorem setRegion (h : Twin c c') (t b : ℕ) : Twin (setRegion c t b) (setRegion c' t b) := by
  have hlines := h.same.lines
  unfold Screen.setRegion
  by_cases hregion : t < b ∧ b ≤ c.videoNumLines
  · have hregion' : t < b ∧ b ≤ c'.videoNumLines := hlines ▸ hregion
    rw [if_pos hregion, if_pos hregion']
    exact ⟨h.left.region hregion.1 hregion.2, h.right.region hregion'.1 hregion'.2,
      h.same.region t b⟩
  · rw [if_neg hregion, if_neg (hlines ▸ hregion)]
    exact h

/-- The same attribute. -/
theorem csim (h : Twin c c') : Twin (csim c) (csim c') := by
  refine ⟨{ h.left with }, { h.right with }, { h.same with attr := ?_ }⟩
  unfold Screen.csim
  rw [h.same.npar, h.same.par, h.same.attr]

/-- The end of an escape sequence shows the same. -/
theorem csiFinal (h : Twin c c') (ch : BitVec 8) : Twin (csiFinal ch c) (csiFinal ch c') := by
  have hlower := h.lowerPar 0
  have hlower' := hlower.lowerPar 1
  have hraise := h.raisePar
  have hbottom := hlower.defaultBottom
  unfold Screen.csiFinal csiL csiM csiP csiAt
  rw [← hlower.same.par, ← hlower'.same.par, ← hraise.same.par, ← hbottom.same.par, ← h.same.par,
    ← h.same.x, ← h.same.y, ← h.same.columns, ← h.same.lines]
  refine ite (fun _ => hlower.gotoxy ..) fun _ => ?_
  refine ite (fun _ => hraise.gotoxy ..) fun _ => ?_
  refine ite (fun _ => hraise.gotoxy ..) fun _ => ?_
  refine ite (fun _ => hraise.gotoxy ..) fun _ => ?_
  refine ite (fun _ => hraise.gotoxy ..) fun _ => ?_
  refine ite (fun _ => hraise.gotoxy ..) fun _ => ?_
  refine ite (fun _ => hraise.gotoxy ..) fun _ => ?_
  refine ite (fun _ => hlower.gotoxy ..) fun _ => ?_
  refine ite (fun _ => hlower'.gotoxy ..) fun _ => ?_
  refine ite (fun _ => h.csiJ _) fun _ => ?_
  refine ite (fun _ => h.csiK _) fun _ => ?_
  refine ite (fun _ => iterate Twin.insertLine _ h) fun _ => ?_
  refine ite (fun _ => iterate Twin.deleteLine _ h) fun _ => ?_
  refine ite (fun _ => iterate Twin.deleteChar _ h) fun _ => ?_
  refine ite (fun _ => iterate Twin.insertChar _ h) fun _ => ?_
  refine ite (fun _ => h.csim) fun _ => ?_
  refine ite (fun _ => hbottom.setRegion ..) fun _ => ?_
  refine ite (fun _ => h.saveCur) fun _ => ?_
  exact ite (fun _ => h.restoreCur) fun _ => h

/-- A character outside of escape sequences shows the same. -/
theorem normalChar (h : Twin c c') (eraseCc ch : BitVec 8) :
    Twin (normalChar eraseCc ch c) (normalChar eraseCc ch c') := by
  unfold Screen.normalChar
  rw [← h.same.x]
  refine ite (fun _ => h.putChar ch) fun _ => ?_
  refine ite (fun _ => h.setState (by decide)) fun _ => ?_
  refine ite (fun _ => h.lf) fun _ => ?_
  refine ite (fun _ => h.cr) fun _ => ?_
  refine ite (fun _ => h.del) fun _ => ?_
  refine ite (fun _ => ite (fun hx => h.back hx) fun _ => h) fun _ => ?_
  exact ite (fun _ => h.tab) fun _ => h

/-- The character after an escape shows the same. -/
theorem escChar (h : Twin c c') (ch : BitVec 8) : Twin (escChar ch c) (escChar ch c') := by
  unfold Screen.escChar
  rw [← h.same.x, ← h.same.y]
  refine ite (fun _ => h.setState (by decide)) fun _ => ?_
  refine ite (fun _ => h.gotoxy ..) fun _ => ?_
  refine ite (fun _ => h.ri) fun _ => ?_
  refine ite (fun _ => h.lf) fun _ => ?_
  refine ite (fun _ => h) fun _ => ?_
  refine ite (fun _ => h.saveCur) fun _ => ?_
  exact ite (fun _ => h.restoreCur) fun _ => h

/-- A character of a parameter shows the same. -/
theorem parChar (h : Twin c c') (ch : BitVec 8) : Twin (parChar ch c) (parChar ch c') := by
  have hnpar := h.same.npar
  unfold Screen.parChar
  by_cases hnext : ch = ascii ';' ∧ c.npar < npars - 1
  · rw [if_pos hnext, if_pos (hnpar ▸ hnext)]
    have hlt : c.npar + 1 < npars := by omega
    have hlt' : c'.npar + 1 < npars := hnpar ▸ hlt
    exact ⟨{ h.left with npar_lt := hlt }, { h.right with npar_lt := hlt' },
      { h.same with npar := congrArg (· + 1) hnpar }⟩
  · have hnext' : ¬ (ch = ascii ';' ∧ c'.npar < npars - 1) := hnpar ▸ hnext
    rw [if_neg hnext, if_neg hnext', ← hnpar, ← h.same.par]
    exact ite (fun _ => h.setPar _ _) fun _ => (h.setState (Nat.zero_le _)).csiFinal ch

/-- Forgetting the parameters shows the same. -/
theorem clearPars (h : Twin c c') (ques : Bool) : Twin (clearPars ques c) (clearPars ques c') := by
  refine ⟨h.left.clearPars ques, h.right.clearPars ques,
    { h.same with state := rfl, npar := rfl, par := ?_ }⟩
  unfold Screen.clearPars
  rw [h.same.par]

/-- Every character shows the same. -/
theorem conChar (h : Twin c c') (eraseCc ch : BitVec 8) :
    Twin (conChar eraseCc ch c) (conChar eraseCc ch c') := by
  have hzero : Twin (Screen.setState c 0) (Screen.setState c' 0) := h.setState (Nat.zero_le _)
  unfold Screen.conChar
  rw [← h.same.state]
  split
  · exact h.normalChar eraseCc ch
  · exact hzero.escChar ch
  · exact ite (fun _ => h.clearPars true) fun _ => (h.clearPars false).parChar ch
  · exact h.parChar ch
  · exact hzero.csiFinal ch
  · exact h

end Twin

/-- Two consoles of any kinds that show the same screen show the same screen after every sequence
of characters. -/
theorem conChars_sameScreen {c c' : Console} (h : Geometry c) (h' : Geometry c')
    (hsame : SameScreen c c') (inputs : List Input) :
    SameScreen (conChars inputs c) (conChars inputs c') := by
  have htwin : Twin (conChars inputs c) (conChars inputs c') := by
    induction inputs generalizing c c' with
    | nil => exact ⟨h, h', hsame⟩
    | cons i inputs ih =>
      have hnext := (Twin.mk h h' hsame).conChar i.eraseCc i.ch
      exact ih hnext.left hnext.right hnext.same
  exact htwin.same

/-- A screen that scrolls by its origin and one that copies its lines, after a line feed at the end
of the screen. -/
theorem conChars_sameScreen_sample : ∃ c c' : Console, c.videoType.IsEga ∧ ¬ c'.videoType.IsEga ∧
    SameScreen (conChars (List.replicate 25 ⟨127, 10⟩) c)
      (conChars (List.replicate 25 ⟨127, 10⟩) c') := by
  have h : Geometry (conInit egaSetup ⟨fun _ => 0, []⟩) :=
    conInit_geometry egaSetup _ [] (by decide) (by decide) (by decide) (by decide)
  have hega : (conInit egaSetup ⟨fun _ => 0, []⟩).videoType = .egac := rfl
  generalize conInit egaSetup ⟨fun _ => 0, []⟩ = c at h hega
  obtain ⟨c', hc'⟩ : ∃ c', c' = { c with videoType := .cga } := ⟨_, rfl⟩
  have hcga : c'.videoType = .cga := by rw [hc']
  have h' : Geometry c' := by
    rw [hc']
    exact { h with }
  have hsame : SameScreen c c' := by
    rw [hc']
    exact { SameScreen.refl c with }
  refine ⟨c, c', Or.inl hega, ?_, conChars_sameScreen h h' hsame _⟩
  rw [hcga]
  decide

end LihaLinux.Screen
