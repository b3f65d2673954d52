import LihaLinux.Screen.Geometry

/-!
# The saved cursor

`save_cur` and `restore_cur`, and the characters that ask for them. After an escape the driver
takes the column of the cursor for the character.
-/

namespace LihaLinux.Screen

/-! ## Requests -/

/-- Where the cursor is. -/
def cursor (c : Console) : ℕ × ℕ := (c.x, c.y)

/-- The saved position. -/
def saved (c : Console) : ℕ × ℕ := (c.savedX, c.savedY)

/-- A character that asks for something: the given one after `ESC`, the other one at the end of a
sequence that starts with `ESC [`. -/
def Requests (esc csi ch : BitVec 8) (c : Console) : Prop :=
  c.state = 1 ∧ ch = esc ∨ (2 ≤ c.state ∧ c.state ≤ 4) ∧ ch = csi

/-- The last character of `ESC 7` or `ESC [ s`. -/
def SaveRequest (ch : BitVec 8) (c : Console) : Prop := Requests (ascii '7') (ascii 's') ch c

/-- The last character of `ESC 8` or `ESC [ u`. -/
def RestoreRequest (ch : BitVec 8) (c : Console) : Prop := Requests (ascii '8') (ascii 'u') ch c

/-- What a character is meant to do with the saved position and, if it asks to restore it, with the
cursor. -/
structure RightAfter (ch : BitVec 8) (c c' : Console) : Prop where
  save : SaveRequest ch c → saved c' = cursor c
  keep : ¬SaveRequest ch c → saved c' = saved c
  restore : RestoreRequest ch c → cursor c' = saved c

/-- The driver does so with a character. -/
def Right (i : Input) (c : Console) : Prop := RightAfter i.ch c (conChar i.eraseCc i.ch c)

/-- The characters after `ESC` that the driver compares with a character. -/
def escOthers : List (BitVec 8) := [ascii '[', ascii 'E', ascii 'M', ascii 'D', ascii 'Z']

/-- After `ESC` the cursor is in column 55 for `7` and for no other character, and in column 56 for
`8`; or it does not matter because the cursor is at the saved position. -/
def Dispatched (i : Input) (c : Console) : Prop :=
  c.state = 1 → i.ch ∉ escOthers → saved c ≠ cursor c →
    (i.ch = ascii '7' ↔ c.x = 55) ∧ (i.ch = ascii '8' → c.x = 56)

/-- What holds of each character of a sequence, on the console that meets it. -/
def Along (P : Input → Console → Prop) : List Input → Console → Prop
  | [], _ => True
  | i :: l, c => P i c ∧ Along P l (conChar i.eraseCc i.ch c)

/-- A sequence without a request to save the cursor. -/
def NoSave (l : List Input) (c : Console) : Prop := Along (fun i c => ¬SaveRequest i.ch c) l c

/-- The two forms of a request. -/
inductive RequestForm
  | esc
  | csi

/-- A request up to its last character. -/
def RequestForm.lead : RequestForm → List (BitVec 8)
  | .esc => [27#8]
  | .csi => [27#8, ascii '[']

/-- The state of the parser after it. -/
def RequestForm.state : RequestForm → ℕ
  | .esc => 1
  | .csi => 2

/-- The last character of a request to save the cursor. -/
def RequestForm.saveChar : RequestForm → BitVec 8
  | .esc => ascii '7'
  | .csi => ascii 's'

/-- The last character of a request to restore it. -/
def RequestForm.restoreChar : RequestForm → BitVec 8
  | .esc => ascii '8'
  | .csi => ascii 'u'

/-- The saved position is one of the screen. -/
def SavedOn (c : Console) : Prop := c.savedX ≤ c.videoNumColumns ∧ c.savedY < c.videoNumLines

/-! ## Operations that keep the saved position -/

/-- The saved position and the size of the screen are the same. -/
structure KeepsSaved (c c' : Console) : Prop where
  savedX : c'.savedX = c.savedX
  savedY : c'.savedY = c.savedY
  columns : c'.videoNumColumns = c.videoNumColumns
  lines : c'.videoNumLines = c.videoNumLines

variable {c c' c'' : Console}

theorem KeepsSaved.refl (c : Console) : KeepsSaved c c := ⟨rfl, rfl, rfl, rfl⟩

theorem KeepsSaved.trans (h : KeepsSaved c c') (h' : KeepsSaved c' c'') : KeepsSaved c c'' :=
  ⟨h'.savedX.trans h.savedX, h'.savedY.trans h.savedY, h'.columns.trans h.columns,
    h'.lines.trans h.lines⟩

theorem KeepsSaved.ite {p : Prop} [Decidable p] {a b : Console} (ha : p → KeepsSaved c a)
    (hb : ¬p → KeepsSaved c b) : KeepsSaved c (if p then a else b) := by
  split_ifs with hp
  · exact ha hp
  · exact hb hp

theorem KeepsSaved.iterate {op : Console → Console} (hop : ∀ c, KeepsSaved c (op c)) (n : ℕ)
    (c : Console) : KeepsSaved c (op^[n] c) := by
  induction n generalizing c with
  | zero => exact .refl c
  | succ n ih => exact (hop c).trans (ih (op c))

theorem gotoxy_keepsSaved (c : Console) (newX newY : ℕ) : KeepsSaved c (gotoxy c newX newY) :=
  .ite (fun _ => .refl c) fun _ => ⟨rfl, rfl, rfl, rfl⟩

theorem scrup_keepsSaved (c : Console) : KeepsSaved c (scrup c) := by
  have horigin : KeepsSaved c (scrupOrigin c) :=
    .ite (fun _ => ⟨rfl, rfl, rfl, rfl⟩) fun _ => ⟨rfl, rfl, rfl, rfl⟩
  have hup : KeepsSaved c (copyUp c) := ⟨rfl, rfl, rfl, rfl⟩
  exact .ite (fun _ => .ite (fun _ => horigin) fun _ => hup) fun _ => hup

theorem lf_keepsSaved (c : Console) : KeepsSaved c (lf c) :=
  .ite (fun _ => ⟨rfl, rfl, rfl, rfl⟩) fun _ => scrup_keepsSaved c

theorem ri_keepsSaved (c : Console) : KeepsSaved c (ri c) :=
  .ite (fun _ => ⟨rfl, rfl, rfl, rfl⟩) fun _ => ⟨rfl, rfl, rfl, rfl⟩

theorem deleteLine_keepsSaved (c : Console) : KeepsSaved c (deleteLine c) := by
  have hup := scrup_keepsSaved { c with top := c.y, bottom := c.videoNumLines }
  exact ⟨hup.savedX, hup.savedY, hup.columns, hup.lines⟩

theorem deleteChar_keepsSaved (c : Console) : KeepsSaved c (deleteChar c) :=
  .ite (fun _ => .refl c) fun _ => ⟨rfl, rfl, rfl, rfl⟩

theorem erase_keepsSaved (c : Console) (count start : ℕ) : KeepsSaved c (erase c count start) :=
  ⟨rfl, rfl, rfl, rfl⟩

theorem csiJ_keepsSaved (c : Console) (par : ℕ) : KeepsSaved c (csiJ c par) := by
  unfold csiJ
  split
  · exact erase_keepsSaved ..
  · exact erase_keepsSaved ..
  · exact erase_keepsSaved ..
  · exact .refl c

theorem csiK_keepsSaved (c : Console) (par : ℕ) : KeepsSaved c (csiK c par) := by
  unfold csiK
  split
  · exact .ite (fun _ => .refl c) fun _ => erase_keepsSaved ..
  · exact erase_keepsSaved ..
  · exact erase_keepsSaved ..
  · exact .refl c

theorem lowerPar_keepsSaved (c : Console) (i : ℕ) : KeepsSaved c (lowerPar c i) :=
  .ite (fun _ => ⟨rfl, rfl, rfl, rfl⟩) fun _ => .refl c

theorem raisePar_keepsSaved (c : Console) : KeepsSaved c (raisePar c) :=
  .ite (fun _ => ⟨rfl, rfl, rfl, rfl⟩) fun _ => .refl c

theorem defaultBottom_keepsSaved (c : Console) : KeepsSaved c (defaultBottom c) :=
  .ite (fun _ => ⟨rfl, rfl, rfl, rfl⟩) fun _ => .refl c

theorem setRegion_keepsSaved (c : Console) (top bottom : ℕ) :
    KeepsSaved c (setRegion c top bottom) :=
  .ite (fun _ => ⟨rfl, rfl, rfl, rfl⟩) fun _ => .refl c

theorem csiL_keepsSaved (c : Console) (nr : ℕ) : KeepsSaved c (csiL c nr) := by
  have hline : ∀ c, KeepsSaved c (insertLine c) := fun _ => ⟨rfl, rfl, rfl, rfl⟩
  exact .iterate hline _ c

theorem csiM_keepsSaved (c : Console) (nr : ℕ) : KeepsSaved c (csiM c nr) :=
  .iterate deleteLine_keepsSaved _ c

theorem csiP_keepsSaved (c : Console) (nr : ℕ) : KeepsSaved c (csiP c nr) :=
  .iterate deleteChar_keepsSaved _ c

theorem csiAt_keepsSaved (c : Console) (nr : ℕ) : KeepsSaved c (csiAt c nr) := by
  have hchar : ∀ c, KeepsSaved c (insertChar c) := fun _ => ⟨rfl, rfl, rfl, rfl⟩
  exact .iterate hchar _ c

/-- No sequence that starts with `ESC [` changes the saved position, but the one for it. -/
theorem csiFinal_keepsSaved {ch : BitVec 8} (h : ch ≠ ascii 's') (c : Console) :
    KeepsSaved c (csiFinal ch c) := by
  have hpar := lowerPar_keepsSaved c 0
  have hraise := raisePar_keepsSaved c
  unfold csiFinal
  refine .ite (fun _ => hpar.trans (gotoxy_keepsSaved ..)) fun _ => ?_
  refine .ite (fun _ => hraise.trans (gotoxy_keepsSaved ..)) fun _ => ?_
  refine .ite (fun _ => hraise.trans (gotoxy_keepsSaved ..)) fun _ => ?_
  refine .ite (fun _ => hraise.trans (gotoxy_keepsSaved ..)) fun _ => ?_
  refine .ite (fun _ => hraise.trans (gotoxy_keepsSaved ..)) fun _ => ?_
  refine .ite (fun _ => hraise.trans (gotoxy_keepsSaved ..)) fun _ => ?_
  refine .ite (fun _ => hraise.trans (gotoxy_keepsSaved ..)) fun _ => ?_
  refine .ite (fun _ => hpar.trans (gotoxy_keepsSaved ..)) fun _ => ?_
  refine .ite (fun _ => (hpar.trans (lowerPar_keepsSaved ..)).trans (gotoxy_keepsSaved ..))
    fun _ => ?_
  refine .ite (fun _ => csiJ_keepsSaved ..) fun _ => ?_
  refine .ite (fun _ => csiK_keepsSaved ..) fun _ => ?_
  refine .ite (fun _ => csiL_keepsSaved ..) fun _ => ?_
  refine .ite (fun _ => csiM_keepsSaved ..) fun _ => ?_
  refine .ite (fun _ => csiP_keepsSaved ..) fun _ => ?_
  refine .ite (fun _ => csiAt_keepsSaved ..) fun _ => ?_
  refine .ite (fun _ => ⟨rfl, rfl, rfl, rfl⟩) fun _ => ?_
  refine .ite (fun _ => (hpar.trans (defaultBottom_keepsSaved ..)).trans (setRegion_keepsSaved ..))
    fun _ => ?_
  refine .ite (fun hs => absurd hs h) fun _ => ?_
  exact .ite (fun _ => gotoxy_keepsSaved ..) fun _ => .refl c

theorem wrapLine_keepsSaved (c : Console) : KeepsSaved c (wrapLine c) := by
  have hline := lf_keepsSaved { c with
    x := sub32 c.x c.videoNumColumns, pos := sub32 c.pos c.videoSizeRow }
  exact ⟨hline.savedX, hline.savedY, hline.columns, hline.lines⟩

theorem back_keepsSaved (c : Console) : KeepsSaved c (back c) := by
  unfold back
  exact ⟨rfl, rfl, rfl, rfl⟩

theorem withRam_keepsSaved (c : Console) (m : Ram) : KeepsSaved c (withRam c m) :=
  ⟨rfl, rfl, rfl, rfl⟩

theorem del_keepsSaved (c : Console) : KeepsSaved c (del c) := by
  unfold del
  exact .ite (fun _ => (back_keepsSaved c).trans (withRam_keepsSaved (back c) _)) fun _ => .refl c

theorem putCell_keepsSaved (ch : BitVec 8) (c : Console) : KeepsSaved c (putCell ch c) :=
  ⟨rfl, rfl, rfl, rfl⟩

theorem tabStep_keepsSaved (c : Console) : KeepsSaved c (tabStep c) := ⟨rfl, rfl, rfl, rfl⟩

theorem tab_keepsSaved (c : Console) : KeepsSaved c (tab c) := by
  unfold tab
  exact .ite (fun _ => (tabStep_keepsSaved c).trans (wrapLine_keepsSaved _)) fun _ =>
    tabStep_keepsSaved c

theorem cr_keepsSaved (c : Console) : KeepsSaved c (cr c) := by
  unfold cr
  exact ⟨rfl, rfl, rfl, rfl⟩

/-- No character outside of escape sequences changes the saved position. -/
theorem normalChar_keepsSaved (eraseCc ch : BitVec 8) (c : Console) :
    KeepsSaved c (normalChar eraseCc ch c) := by
  have hwrapped : KeepsSaved c (if c.videoNumColumns ≤ c.x then wrapLine c else c) :=
    .ite (fun _ => wrapLine_keepsSaved c) fun _ => .refl c
  have hput : KeepsSaved c (putChar ch c) := by
    unfold putChar
    exact hwrapped.trans (putCell_keepsSaved ..)
  unfold normalChar
  refine .ite (fun _ => hput) fun _ => ?_
  refine .ite (fun _ => ⟨rfl, rfl, rfl, rfl⟩) fun _ => ?_
  refine .ite (fun _ => lf_keepsSaved c) fun _ => ?_
  refine .ite (fun _ => cr_keepsSaved c) fun _ => ?_
  refine .ite (fun _ => del_keepsSaved c) fun _ => ?_
  refine .ite (fun _ => .ite (fun _ => back_keepsSaved c) fun _ => .refl c) fun _ => ?_
  exact .ite (fun _ => tab_keepsSaved c) fun _ => .refl c

/-! ## One character -/

/-- A character that asks for nothing is handled right by every operation that keeps the saved
position. -/
theorem KeepsSaved.rightAfter {ch : BitVec 8} (h : KeepsSaved c c') (hsave : ¬SaveRequest ch c)
    (hrestore : ¬RestoreRequest ch c) : RightAfter ch c c' :=
  ⟨fun hs => absurd hs hsave, fun _ => by rw [saved, saved, h.savedX, h.savedY],
    fun hr => absurd hr hrestore⟩

/-- Going back to a saved position of the screen. -/
theorem cursor_restoreCur (h : SavedOn c) : cursor (restoreCur c) = saved c := by
  have hon : ¬(c.videoNumColumns < c.savedX ∨ c.videoNumLines ≤ c.savedY) := by
    have hx := h.1
    have hy := h.2
    omega
  rw [restoreCur, gotoxy, if_neg hon]
  rfl

theorem csiFinal_save (c : Console) : csiFinal (ascii 's') c = saveCur c := by
  unfold csiFinal
  iterate 17 refine (if_neg (by decide)).trans ?_
  exact if_pos rfl

theorem csiFinal_restore (c : Console) : csiFinal (ascii 'u') c = restoreCur c := by
  unfold csiFinal
  iterate 18 refine (if_neg (by decide)).trans ?_
  exact if_pos rfl

/-- The end of a sequence that starts with `ESC [`. -/
theorem csiFinal_right (hk : KeepsSaved c c') (hcursor : cursor c' = cursor c) (hon : SavedOn c)
    (hstate : 2 ≤ c.state ∧ c.state ≤ 4) (ch : BitVec 8) : RightAfter ch c (csiFinal ch c') := by
  have hone : c.state ≠ 1 := by omega
  have hsaved : saved c' = saved c := by rw [saved, saved, hk.savedX, hk.savedY]
  by_cases hs : ch = ascii 's'
  · subst hs
    have hreq : SaveRequest (ascii 's') c := Or.inr ⟨hstate, rfl⟩
    refine ⟨fun _ => ?_, fun h => absurd hreq h, fun h => ?_⟩
    · rw [csiFinal_save, ← hcursor]
      rfl
    · rcases h with h | h
      · exact absurd h.1 hone
      · exact absurd h.2 (by decide)
  · have hkeep := hk.trans (csiFinal_keepsSaved hs c')
    refine ⟨fun h => ?_, fun _ => by rw [saved, saved, hkeep.savedX, hkeep.savedY], fun h => ?_⟩
    · rcases h with h | h
      · exact absurd h.1 hone
      · exact absurd h.2 hs
    · rcases h with h | ⟨_, rfl⟩
      · exact absurd h.1 hone
      · have hon' : SavedOn c' := by
          rw [SavedOn, hk.savedX, hk.savedY, hk.columns, hk.lines]
          exact hon
        rw [csiFinal_restore, cursor_restoreCur hon', hsaved]

/-- A character between `ESC [` and the end of the sequence. -/
theorem parChar_right (hk : KeepsSaved c c') (hcursor : cursor c' = cursor c) (hon : SavedOn c)
    (hstate : 2 ≤ c.state ∧ c.state ≤ 4) (ch : BitVec 8) : RightAfter ch c (parChar ch c') := by
  have hone : c.state ≠ 1 := by omega
  have hnone : ∀ a b, ch ≠ b → ¬Requests a b ch c := by
    rintro a b hb (h | h)
    · exact hone h.1
    · exact hb h.2
  unfold parChar
  split_ifs with hsemi hdigit
  · have hkeep : KeepsSaved c { c' with npar := c'.npar + 1 } := hk.trans ⟨rfl, rfl, rfl, rfl⟩
    obtain ⟨rfl, _⟩ := hsemi
    exact hkeep.rightAfter (hnone _ _ (by decide)) (hnone _ _ (by decide))
  · have hkeep : KeepsSaved c (setPar c' c'.npar
        (sub32 (add32 (mul32 10 (c'.par c'.npar)) ch.toNat) (ascii '0').toNat)) :=
      hk.trans ⟨rfl, rfl, rfl, rfl⟩
    have hne : ∀ b, (ascii '9').toInt < b.toInt → ch ≠ b := by
      rintro b hb rfl
      omega
    exact hkeep.rightAfter (hnone _ _ (hne _ (by decide))) (hnone _ _ (hne _ (by decide)))
  · have hzero : KeepsSaved c (setState c' 0) := hk.trans ⟨rfl, rfl, rfl, rfl⟩
    exact csiFinal_right hzero hcursor hon hstate ch

theorem setState_keepsSaved (c : Console) (s : ℕ) : KeepsSaved c (setState c s) :=
  ⟨rfl, rfl, rfl, rfl⟩

/-- A character after `ESC` that the driver compares with a character. -/
theorem escChar_keepsSaved {ch : BitVec 8} (h : ch ∈ escOthers) (c : Console) :
    KeepsSaved c (escChar ch c) := by
  rw [escOthers, List.mem_cons, List.mem_cons, List.mem_cons, List.mem_cons,
    List.mem_singleton] at h
  unfold escChar
  refine .ite (fun _ => ⟨rfl, rfl, rfl, rfl⟩) fun h₁ => ?_
  refine .ite (fun _ => gotoxy_keepsSaved ..) fun h₂ => ?_
  refine .ite (fun _ => ri_keepsSaved c) fun h₃ => ?_
  refine .ite (fun _ => lf_keepsSaved c) fun h₄ => ?_
  refine .ite (fun _ => .refl c) fun h₅ => ?_
  rcases h with h | h | h | h | h
  · exact absurd h h₁
  · exact absurd h h₂
  · exact absurd h h₃
  · exact absurd h h₄
  · exact absurd h h₅

/-- For every other character after `ESC` the driver looks at the column. -/
theorem escChar_column {ch : BitVec 8} (h : ch ∉ escOthers) (c : Console) :
    escChar ch c = if c.x = 55 then saveCur c else if c.x = 56 then restoreCur c else c := by
  rw [escOthers, List.mem_cons, List.mem_cons, List.mem_cons, List.mem_cons,
    List.mem_singleton] at h
  simp only [not_or] at h
  obtain ⟨h₁, h₂, h₃, h₄, h₅⟩ := h
  unfold escChar
  rw [if_neg h₁, if_neg h₂, if_neg h₃, if_neg h₄, if_neg h₅]
  rfl

/-- What the driver does with a character after `ESC` is right if its column is. -/
theorem escChar_right (hstate : c.state = 1) (hon : SavedOn c) (i : Input) :
    RightAfter i.ch c (escChar i.ch (setState c 0)) ↔ Dispatched i c := by
  have hseven : ∀ ch, SaveRequest ch c ↔ ch = ascii '7' := by
    intro ch
    constructor
    · rintro (h | h)
      · exact h.2
      · omega
    · intro h
      exact Or.inl ⟨hstate, h⟩
  have height : ∀ ch, RestoreRequest ch c ↔ ch = ascii '8' := by
    intro ch
    constructor
    · rintro (h | h)
      · exact h.2
      · omega
    · intro h
      exact Or.inl ⟨hstate, h⟩
  by_cases hother : i.ch ∈ escOthers
  · have hkeep : KeepsSaved c (escChar i.ch (setState c 0)) :=
      (setState_keepsSaved c 0).trans (escChar_keepsSaved hother (setState c 0))
    have hne : ∀ b, b ∉ escOthers → i.ch ≠ b := by
      rintro b hb rfl
      exact hb hother
    constructor
    · intro _ _ h
      exact absurd hother h
    · intro _
      apply hkeep.rightAfter
      · rw [hseven]
        exact hne _ (by decide)
      · rw [height]
        exact hne _ (by decide)
  · obtain ⟨s, hs⟩ : ∃ s, setState c 0 = s := ⟨_, rfl⟩
    have hx : s.x = c.x := hs ▸ rfl
    have hcursor : cursor s = cursor c := hs ▸ rfl
    have hsaved : saved s = saved c := hs ▸ rfl
    have hson : SavedOn s := hs ▸ hon
    have hback : saved (restoreCur s) = saved c := by
      have hkeep := gotoxy_keepsSaved s s.savedX s.savedY
      rw [← hsaved, saved, saved, restoreCur, hkeep.savedX, hkeep.savedY]
    rw [escChar_column hother, hs, hx]
    split_ifs with h₅₅ h₅₆
    · constructor
      · intro h _ _ hne
        have hch : i.ch = ascii '7' := by
          by_contra hch
          exact hne ((h.keep (mt (hseven _).mp hch)).symm.trans hcursor)
        exact ⟨⟨fun _ => h₅₅, fun _ => hch⟩, fun h8 => absurd (hch.symm.trans h8) (by decide)⟩
      · intro h
        have hkeep : ¬SaveRequest i.ch c → cursor c = saved c := by
          intro hch
          by_contra hne
          exact hch ((hseven _).mpr ((h hstate hother (Ne.symm hne)).1.mpr h₅₅))
        refine ⟨fun _ => hcursor, fun hch => hcursor.trans (hkeep hch), fun hch => ?_⟩
        apply hcursor.trans (hkeep _)
        rw [hseven, (height _).mp hch]
        decide
    · constructor
      · intro h _ _ hne
        refine ⟨⟨fun hch => ?_, fun hx => absurd hx h₅₅⟩, fun _ => h₅₆⟩
        exact absurd (hback.symm.trans (h.save ((hseven _).mpr hch))) hne
      · intro h
        refine ⟨fun hch => hback.trans ?_, fun _ => hback, fun _ => ?_⟩
        · by_contra hne
          exact h₅₅ ((h hstate hother hne).1.mp ((hseven _).mp hch))
        · exact (cursor_restoreCur hson).trans hsaved
    · constructor
      · intro h _ _ hne
        refine ⟨⟨fun hch => ?_, fun hx => absurd hx h₅₅⟩, fun hch => ?_⟩
        · exact absurd (hsaved.symm.trans (h.save ((hseven _).mpr hch))) hne
        · exact absurd (hcursor.symm.trans (h.restore ((height _).mpr hch))).symm hne
      · intro h
        refine ⟨fun hch => hsaved.trans ?_, fun _ => hsaved, fun hch => hcursor.trans ?_⟩
        · by_contra hne
          exact h₅₅ ((h hstate hother hne).1.mp ((hseven _).mp hch))
        · by_contra hne
          exact h₅₆ ((h hstate hother (Ne.symm hne)).2 ((height _).mp hch))

/-- The driver does what it is meant to do with a character if and only if the column is right. -/
theorem right_iff_dispatched (hstate : c.state ≤ 4) (hon : SavedOn c) (i : Input) :
    Right i c ↔ Dispatched i c := by
  by_cases hone : c.state = 1
  · have hchar : conChar i.eraseCc i.ch c = escChar i.ch (setState c 0) := by
      simp only [conChar, hone]
    rw [Right, hchar]
    exact escChar_right hone hon i
  · have hright : Right i c := by
      rw [Right]
      obtain hzero | htwo | hthree | hfour :
          c.state = 0 ∨ c.state = 2 ∨ c.state = 3 ∨ c.state = 4 := by omega
      · have hchar : conChar i.eraseCc i.ch c = normalChar i.eraseCc i.ch c := by
          simp only [conChar, hzero]
        have hnone : ∀ a b, ¬Requests a b i.ch c := by
          rintro a b (h | h) <;> omega
        rw [hchar]
        exact (normalChar_keepsSaved ..).rightAfter (hnone _ _) (hnone _ _)
      · have hchar : conChar i.eraseCc i.ch c =
            if i.ch = ascii '?' then clearPars true c else parChar i.ch (clearPars false c) := by
          simp only [conChar, htwo]
        have hkeep : ∀ ques, KeepsSaved c (clearPars ques c) := fun _ => ⟨rfl, rfl, rfl, rfl⟩
        rw [hchar]
        split_ifs with hques
        · have hnone : ∀ a b, ascii '?' ≠ b → ¬Requests a b i.ch c := by
            rintro a b hb (h | h)
            · exact hone h.1
            · exact hb (hques.symm.trans h.2)
          exact (hkeep true).rightAfter (hnone _ _ (by decide)) (hnone _ _ (by decide))
        · exact parChar_right (hkeep false) rfl hon (by omega) i.ch
      · have hchar : conChar i.eraseCc i.ch c = parChar i.ch c := by
          simp only [conChar, hthree]
        rw [hchar]
        exact parChar_right (.refl c) rfl hon (by omega) i.ch
      · have hchar : conChar i.eraseCc i.ch c = csiFinal i.ch (setState c 0) := by
          simp only [conChar, hfour]
        rw [hchar]
        exact csiFinal_right (setState_keepsSaved c 0) rfl hon (by omega) i.ch
    exact ⟨fun _ h => absurd h hone, fun _ => hright⟩

/-- The size of the screen is the same. -/
structure SameSize (c c' : Console) : Prop where
  columns : c'.videoNumColumns = c.videoNumColumns
  lines : c'.videoNumLines = c.videoNumLines

theorem KeepsSaved.size (h : KeepsSaved c c') : SameSize c c' := ⟨h.columns, h.lines⟩

theorem SameSize.trans (h : SameSize c c') (h' : SameSize c' c'') : SameSize c c'' :=
  ⟨h'.columns.trans h.columns, h'.lines.trans h.lines⟩

theorem csiFinal_size (ch : BitVec 8) (c : Console) : SameSize c (csiFinal ch c) := by
  by_cases hs : ch = ascii 's'
  · rw [hs, csiFinal_save]
    exact ⟨rfl, rfl⟩
  · exact (csiFinal_keepsSaved hs c).size

theorem parChar_size (ch : BitVec 8) (c : Console) : SameSize c (parChar ch c) := by
  unfold parChar
  split_ifs
  · exact ⟨rfl, rfl⟩
  · exact ⟨rfl, rfl⟩
  · exact (setState_keepsSaved c 0).size.trans (csiFinal_size ch _)

theorem escChar_size (ch : BitVec 8) (c : Console) : SameSize c (escChar ch c) := by
  by_cases hother : ch ∈ escOthers
  · exact (escChar_keepsSaved hother c).size
  · rw [escChar_column hother]
    split_ifs
    · exact ⟨rfl, rfl⟩
    · exact (gotoxy_keepsSaved ..).size
    · exact ⟨rfl, rfl⟩

/-- No character changes the size of the screen. -/
theorem conChar_size (eraseCc ch : BitVec 8) (c : Console) : SameSize c (conChar eraseCc ch c) := by
  have hzero := (setState_keepsSaved c 0).size
  have hclear : ∀ ques, SameSize c (clearPars ques c) := fun _ => ⟨rfl, rfl⟩
  unfold conChar
  split
  · exact (normalChar_keepsSaved ..).size
  · exact hzero.trans (escChar_size ..)
  · split_ifs
    · exact hclear true
    · exact (hclear false).trans (parChar_size ..)
  · exact parChar_size ..
  · exact hzero.trans (csiFinal_size ..)
  · exact ⟨rfl, rfl⟩

/-! ## Sequences -/

theorem along_append {P : Input → Console → Prop} (l l' : List Input) (c : Console) :
    Along P (l ++ l') c ↔ Along P l c ∧ Along P l' (conChars l c) := by
  induction l generalizing c with
  | nil => exact (and_iff_right trivial).symm
  | cons i l ih =>
    have hrest := ih (conChar i.eraseCc i.ch c)
    exact (and_congr Iff.rfl hrest).trans and_assoc.symm

/-- A character that is handled right leaves a saved position of the screen. -/
theorem Geometry.savedOn (h : Geometry c) (hon : SavedOn c) {i : Input} (hright : Right i c) :
    SavedOn (Screen.conChar i.eraseCc i.ch c) := by
  have hsize := conChar_size i.eraseCc i.ch c
  have hsaved : saved (Screen.conChar i.eraseCc i.ch c) = cursor c ∨
      saved (Screen.conChar i.eraseCc i.ch c) = saved c := by
    by_cases hs : SaveRequest i.ch c
    · exact Or.inl (hright.save hs)
    · exact Or.inr (hright.keep hs)
  rw [SavedOn, hsize.columns, hsize.lines]
  rcases hsaved with hsaved | hsaved
  · rw [saved, cursor, Prod.mk.injEq] at hsaved
    rw [hsaved.1, hsaved.2]
    exact ⟨h.x_le, h.y_lt⟩
  · rw [saved, saved, Prod.mk.injEq] at hsaved
    rw [hsaved.1, hsaved.2]
    exact hon

/-- All characters of a sequence are handled right if and only if the column is right whenever the
driver looks at it. -/
theorem Geometry.along_right_iff (h : Geometry c) (hon : SavedOn c) (l : List Input) :
    Along Right l c ↔ Along Dispatched l c := by
  induction l generalizing c with
  | nil => exact Iff.rfl
  | cons i l ih =>
    have hhead := right_iff_dispatched h.state_le hon i
    constructor
    · rintro ⟨hright, hrest⟩
      exact ⟨hhead.mp hright, (ih (h.conChar ..) (h.savedOn hon hright)).mp hrest⟩
    · rintro ⟨hdispatched, hrest⟩
      have hright := hhead.mpr hdispatched
      exact ⟨hright, (ih (h.conChar ..) (h.savedOn hon hright)).mpr hrest⟩

/-- Without a request the saved position stays. -/
theorem saved_of_noSave {l : List Input} (hright : Along Right l c) (hno : NoSave l c) :
    saved (conChars l c) = saved c := by
  induction l generalizing c with
  | nil => rfl
  | cons i l ih => exact (ih hright.2 hno.2).trans (hright.1.keep hno.1)

/-- An escape outside of a sequence. -/
theorem conChar_escape (hground : c.state = 0) (eraseCc : BitVec 8) :
    conChar eraseCc 27#8 c = setState c 1 := by
  have hprint : ¬(31 < (27#8).toInt ∧ (27#8).toInt < 127) := by decide
  simp only [conChar, hground, normalChar]
  rw [if_neg hprint, if_pos trivial]

/-- The character `[` after an escape. -/
theorem conChar_bracket (hstate : c.state = 1) (eraseCc : BitVec 8) :
    conChar eraseCc (ascii '[') c = setState (setState c 0) 2 := by
  simp only [conChar, hstate, escChar]
  rw [if_pos trivial]

/-- The beginning of a request moves nothing. -/
theorem conChars_lead (hground : c.state = 0) (f : RequestForm) {l : List Input}
    (hl : l.map Input.ch = f.lead) :
    cursor (conChars l c) = cursor c ∧ saved (conChars l c) = saved c ∧
      (conChars l c).state = f.state := by
  cases f with
  | esc =>
    obtain ⟨i, rfl, hi⟩ := List.map_eq_singleton_iff.mp hl
    have hchar : conChars [i] c = setState c 1 := by
      rw [conChars, List.foldl_cons, List.foldl_nil, hi, conChar_escape hground]
    rw [hchar]
    exact ⟨rfl, rfl, rfl⟩
  | csi =>
    obtain ⟨i, l', rfl, hi, hl'⟩ := List.map_eq_cons_iff.mp hl
    obtain ⟨j, rfl, hj⟩ := List.map_eq_singleton_iff.mp hl'
    have hchar : conChars [i, j] c = setState (setState (setState c 1) 0) 2 := by
      rw [conChars, List.foldl_cons, List.foldl_cons, List.foldl_nil, hi, hj,
        conChar_escape hground]
      exact conChar_bracket rfl j.eraseCc
    rw [hchar]
    exact ⟨rfl, rfl, rfl⟩

theorem conChars_append (l l' : List Input) (c : Console) :
    conChars (l ++ l') c = conChars l' (conChars l c) := List.foldl_append

/-- A request to save the cursor that is handled right. -/
theorem saved_of_save (hground : c.state = 0) (f : RequestForm) {l : List Input}
    (hl : l.map Input.ch = f.lead ++ [f.saveChar]) (hright : Along Right l c) :
    saved (conChars l c) = cursor c := by
  obtain ⟨lead, last, rfl, hlead, hlast⟩ := List.map_eq_append_iff.mp hl
  obtain ⟨i, rfl, hi⟩ := List.map_eq_singleton_iff.mp hlast
  obtain ⟨hcursor, _, hstate⟩ := conChars_lead hground f hlead
  have hreq : SaveRequest i.ch (conChars lead c) := by
    rw [hi]
    cases f with
    | esc => exact Or.inl ⟨hstate, rfl⟩
    | csi =>
      have htwo : (conChars lead c).state = 2 := hstate
      exact Or.inr ⟨by omega, rfl⟩
  have hlastRight := ((along_append _ _ _).mp hright).2.1
  rw [conChars_append]
  exact (hlastRight.save hreq).trans hcursor

/-- A request to restore the cursor that is handled right. -/
theorem cursor_of_restore (hground : c.state = 0) (f : RequestForm) {l : List Input}
    (hl : l.map Input.ch = f.lead ++ [f.restoreChar]) (hright : Along Right l c) :
    cursor (conChars l c) = saved c := by
  obtain ⟨lead, last, rfl, hlead, hlast⟩ := List.map_eq_append_iff.mp hl
  obtain ⟨i, rfl, hi⟩ := List.map_eq_singleton_iff.mp hlast
  obtain ⟨_, hsaved, hstate⟩ := conChars_lead hground f hlead
  have hreq : RestoreRequest i.ch (conChars lead c) := by
    rw [hi]
    cases f with
    | esc => exact Or.inl ⟨hstate, rfl⟩
    | csi =>
      have htwo : (conChars lead c).state = 2 := hstate
      exact Or.inr ⟨by omega, rfl⟩
  have hlastRight := ((along_append _ _ _).mp hright).2.1
  rw [conChars_append]
  exact (hlastRight.restore hreq).trans hsaved

/-- Every character does with the saved position and the cursor what it is meant to do if and only
if the column is right whenever the driver looks at it, and then a request to restore the cursor
brings it back to where it was at the last request to save it. -/
theorem cursor_restored (h : Geometry c) (hon : SavedOn c) (hground : c.state = 0)
    {save l restore : List Input} (f f' : RequestForm)
    (hsave : save.map Input.ch = f.lead ++ [f.saveChar]) (hno : NoSave l (conChars save c))
    (hground' : (conChars (save ++ l) c).state = 0)
    (hrestore : restore.map Input.ch = f'.lead ++ [f'.restoreChar]) :
    (Along Right (save ++ l ++ restore) c ↔ Along Dispatched (save ++ l ++ restore) c) ∧
      (Along Dispatched (save ++ l ++ restore) c →
        cursor (conChars (save ++ l ++ restore) c) = cursor c) := by
  have hiff := h.along_right_iff hon (save ++ l ++ restore)
  refine ⟨hiff, fun hdispatched => ?_⟩
  obtain ⟨hright, hright'⟩ := (along_append _ _ _).mp (hiff.mpr hdispatched)
  obtain ⟨hrightSave, hrightRest⟩ := (along_append _ _ _).mp hright
  have hlast := cursor_of_restore hground' f' hrestore hright'
  have hkept := saved_of_noSave hrightRest hno
  rw [← conChars_append] at hkept
  rw [conChars_append, hlast, hkept]
  exact saved_of_save hground f hsave hrightSave

/-- The console of a colour EGA card with 80 columns. -/
def egaConsole : Console := conInit egaSetup ⟨fun _ => 0, []⟩

theorem egaConsole_geometry : Geometry egaConsole :=
  conInit_geometry egaSetup _ [] (by decide) (by decide) (by decide) (by decide)

/-- Characters for the console, with the usual erase character. -/
def typed (l : List (BitVec 8)) : List Input := l.map fun ch => ⟨127#8, ch⟩

/-- A character that is not right after an escape, or that the driver compares. -/
theorem dispatched_of {i : Input} (h : c.state ≠ 1 ∨ i.ch ∈ escOthers) : Dispatched i c := by
  intro hone hother
  rcases h with h | h
  · exact absurd hone h
  · exact absurd h hother

/-- The cursor after `ESC [ s`, the letter `A` and `ESC [ u`. -/
theorem cursor_restored_csi :
    cursor (conChars (typed [27#8, ascii '[', ascii 's'] ++ typed [ascii 'A'] ++
      typed [27#8, ascii '[', ascii 'u']) egaConsole) = cursor egaConsole := by
  have hno : NoSave (typed [ascii 'A'])
      (conChars (typed [27#8, ascii '[', ascii 's']) egaConsole) :=
    ⟨by rintro (h | h) <;> revert h <;> decide, trivial⟩
  apply (cursor_restored egaConsole_geometry ⟨by decide, by decide⟩ rfl .csi .csi rfl hno rfl rfl).2
  exact ⟨dispatched_of (by decide), dispatched_of (by decide), dispatched_of (by decide),
    dispatched_of (by decide), dispatched_of (by decide), dispatched_of (by decide),
    dispatched_of (by decide), trivial⟩

/-- `ESC 7` in column 0 saves nothing, and `ESC 8` does not bring the cursor back. -/
theorem cursor_not_restored :
    NoSave (typed [ascii 'A']) (conChars (typed [27#8, ascii '7']) egaConsole) ∧
      (conChars (typed [27#8, ascii '7'] ++ typed [ascii 'A']) egaConsole).state = 0 ∧
      cursor egaConsole = (0, 0) ∧
      cursor (conChars (typed [27#8, ascii '7'] ++ typed [ascii 'A'] ++
        typed [27#8, ascii '8']) egaConsole) = (1, 0) :=
  ⟨⟨by rintro (h | h) <;> revert h <;> decide, trivial⟩, rfl, rfl, rfl⟩

end LihaLinux.Screen
