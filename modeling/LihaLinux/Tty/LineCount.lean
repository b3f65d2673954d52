import LihaLinux.Lib.Transition
import LihaLinux.Tty.Read
import LihaLinux.Tty.ReadProgress

/-!
# The count of complete lines

`secondary.data` counts the characters of `secondary` that complete a line. `copy_to_cooked` runs
in interrupts, any number of tasks call `tty_read`, and the settings change at any time, but for
`EOF_CHAR`.
-/

namespace LihaLinux.Tty

variable {δ : Type}

/-- The same `secondary`, with the same settings. -/
structure SameLines (t t' : TtyStruct δ) : Prop where
  secondary : t'.secondary = t.secondary
  data : t'.data = t.data
  termios : t'.termios = t.termios

/-- A routine for `tty->write` that leaves `secondary` and the settings alone. -/
def Quiet (write : TtyStruct δ → Option (TtyStruct δ)) : Prop :=
  ∀ t t', write t = some t' → SameLines t t'

namespace TtyStruct

/-- The characters of `secondary` that complete a line. -/
def terms (t : TtyStruct δ) : ℕ := t.secondary.toList.countP t.termios.isTerm

/-- `secondary.data` counts the characters that complete a line. -/
def Counted (t : TtyStruct δ) : Prop := t.data = t.terms

end TtyStruct

variable {write : TtyStruct δ → Option (TtyStruct δ)} {t t' t'' : TtyStruct δ} {c n : ℕ}

theorem SameLines.refl (t : TtyStruct δ) : SameLines t t := ⟨rfl, rfl, rfl⟩

theorem SameLines.trans (h : SameLines t t') (h' : SameLines t' t'') : SameLines t t'' :=
  ⟨h'.secondary.trans h.secondary, h'.data.trans h.data, h'.termios.trans h.termios⟩

theorem SameLines.counted (h : SameLines t t') (hc : t.Counted) : t'.Counted := by
  rw [TtyStruct.Counted, TtyStruct.terms, h.secondary, h.data, h.termios]
  exact hc

/-- There is room for the count. -/
theorem TtyStruct.Counted.lt (hc : t.Counted) : t.data < 1024 := by
  have hlen : t.terms ≤ t.secondary.toList.length := List.countP_le_length
  have hleft := t.secondary.left_add_chars
  rw [TtyQueue.length_toList] at hlen
  rw [hc]
  omega

/-! ### Cooking -/

namespace TtyStruct

theorem echoErased_same (t : TtyStruct δ) (c : ℕ) : SameLines t (t.echoErased c) := by
  unfold echoErased
  split_ifs <;> exact ⟨rfl, rfl, rfl⟩

theorem echoChar_same (t : TtyStruct δ) (c : ℕ) : SameLines t (t.echoChar c) := by
  unfold echoChar
  split_ifs <;> exact ⟨rfl, rfl, rfl⟩

theorem withEcho_same (hwrite : Quiet write) {echoed : TtyStruct δ} (he : SameLines t echoed)
    (h : t.withEcho write echoed = some t') : SameLines t t' := by
  unfold withEcho at h
  split_ifs at h
  · exact he.trans (hwrite _ _ h)
  · cases h
    exact .refl t

/-- Counting, with the same settings. -/
structure Recounted (t t' : TtyStruct δ) : Prop where
  counted : t'.Counted
  termios : t'.termios = t.termios

theorem Recounted.trans (h : Recounted t t') (h' : Recounted t' t'') : Recounted t t'' :=
  ⟨h'.counted, h'.termios.trans h.termios⟩

/-- Erasing takes away a character that was not counted. -/
theorem eraseLast_recounted (hwrite : Quiet write) (hc : t.Counted) (hline : t.atLineStart = false)
    (h : t.eraseLast write = some t') : Recounted t t' := by
  obtain ⟨t₁, h₁, rfl⟩ := Option.map_eq_some_iff.mp h
  have hsame := withEcho_same hwrite (t.echoErased_same _) h₁
  rw [atLineStart, Bool.or_eq_false_iff] at hline
  obtain ⟨hne, hterm⟩ := hline
  refine ⟨?_, hsame.termios⟩
  rw [Counted, terms, TtyQueue.toList_dec hne, List.countP_append, List.countP_singleton,
    hterm] at hc
  rw [Counted, terms]
  change t₁.data = t₁.secondary.dec.toList.countP t₁.termios.isTerm
  rw [hsame.data, hsame.secondary, hsame.termios, hc]
  rfl

theorem killLoop_recounted (hwrite : Quiet write) (hc : t.Counted)
    (h : killLoop write n t = some t') : Recounted t t' := by
  induction n generalizing t with
  | zero => cases h
  | succ n ih =>
    rw [killLoop] at h
    split_ifs at h with hline
    · cases h
      exact ⟨hc, rfl⟩
    · obtain ⟨t₁, h₁, h₂⟩ := Option.bind_eq_some_iff.mp h
      have hfirst := eraseLast_recounted hwrite hc (by simpa using hline) h₁
      exact hfirst.trans (ih hfirst.counted h₂)

/-- A character that completes a line is stored when it has been counted. -/
theorem store_recounted (hwrite : Quiet write) (hc : t.Counted) (hroom : t.secondary.full = false)
    (h : (((t.countTerm c).withEcho write ((t.countTerm c).echoChar c)).map
      fun t => t.putSecondary c) = some t') : Recounted t t' := by
  obtain ⟨t₁, h₁, rfl⟩ := Option.map_eq_some_iff.mp h
  have hsame := withEcho_same hwrite ((t.countTerm c).echoChar_same c) h₁
  have hcount : (t.countTerm c).secondary = t.secondary ∧ (t.countTerm c).termios = t.termios ∧
      (t.countTerm c).data = t.data + if t.termios.isTerm c then 1 else 0 := by
    have hlt := hc.lt
    unfold countTerm
    split_ifs
    · exact ⟨rfl, rfl, Nat.mod_eq_of_lt (by omega)⟩
    · exact ⟨rfl, rfl, rfl⟩
  obtain ⟨hsec, hter, hdata⟩ := hcount
  refine ⟨?_, hsame.termios.trans hter⟩
  rw [Counted, terms]
  change t₁.data = (t₁.secondary.putch c).toList.countP t₁.termios.isTerm
  rw [hsame.data, hsame.secondary, hsame.termios, hsec, hter, hdata, TtyQueue.toList_putch hroom,
    List.countP_append, List.countP_singleton, hc]
  rfl

theorem cookChar_recounted (hwrite : Quiet write) (hc : t.Counted)
    (hroom : t.secondary.full = false) (h : t.cookChar write n c = some t') : Recounted t t' := by
  unfold cookChar at h
  split at h
  · cases h
    exact ⟨hc, rfl⟩
  · split_ifs at h with _ _ hline
    · exact killLoop_recounted hwrite hc h
    · cases h
      exact ⟨hc, rfl⟩
    · exact eraseLast_recounted hwrite hc (by simpa using hline) h
    · cases h
      exact ⟨hc, rfl⟩
    · cases h
      exact ⟨hc, rfl⟩
    · cases h
      exact ⟨hc, rfl⟩
    · cases h
      exact ⟨hc, rfl⟩
    · exact store_recounted hwrite hc hroom h

/-- `copy_to_cooked` counts right. -/
theorem copyToCooked_recounted (hwrite : Quiet write) (hc : t.Counted)
    (h : copyToCooked write n t = some t') : Recounted t t' := by
  induction n generalizing t with
  | zero => cases h
  | succ n ih =>
    rw [copyToCooked] at h
    split_ifs at h with hstop
    · cases h
      exact ⟨hc, rfl⟩
    · obtain ⟨t₁, h₁, h₂⟩ := Option.bind_eq_some_iff.mp h
      have hroom : t.secondary.full = false := by
        by_contra hfull
        exact hstop (by simp [hfull])
      have hinc : Counted { t with readQ := t.readQ.inc } := hc
      have hfirst := cookChar_recounted hwrite hinc hroom h₁
      have hrest := ih hfirst.counted h₂
      exact ⟨hrest.counted, hrest.termios.trans hfirst.termios⟩

end TtyStruct

/-! ### Runs -/

/-- `rs_write`, which makes the transmitter send what is in `write_q`. -/
def rsWrite (t : TtyStruct δ) : Option (TtyStruct δ) := some t

theorem rsWrite_quiet : Quiet (rsWrite : TtyStruct δ → Option (TtyStruct δ)) := by
  intro t t' h
  cases h
  exact .refl t

/-- A terminal, the tasks that read from it, and the time. -/
structure TtyUse (δ : Type) where
  tty : TtyStruct δ
  reader : ℕ → Reader
  jiffies : ℤ

namespace TtyUse

variable (s : TtyUse δ) (k : ℕ)

/-- A task changes. -/
def setReader (r : Reader) : TtyUse δ := { s with reader := Function.update s.reader k r }

/-- The call of a task goes on. -/
def read : TtyUse δ :=
  { s.setReader k (readStep s.jiffies s.tty (s.reader k)).2 with
    tty := (readStep s.jiffies s.tty (s.reader k)).1 }

/-- `GETCH` finds a character. -/
def TakesChar : Prop := (s.reader k).point = .getch → s.tty.secondary.isEmpty = false

end TtyUse

/-- What happens to a terminal. Calls of `tty_read` go on in the states in `ok`. -/
inductive TtyUseStep (write : TtyStruct δ → Option (TtyStruct δ)) (ok : TtyUse δ → ℕ → Prop) :
    TtyUse δ → TtyUse δ → Prop
  | receive (s : TtyUse δ) (q : TtyQueue) :
      TtyUseStep write ok s { s with tty := { s.tty with readQ := q } }
  | transmit (s : TtyUse δ) (q : TtyQueue) :
      TtyUseStep write ok s { s with tty := { s.tty with writeQ := q } }
  | cook (s : TtyUse δ) (n : ℕ) (t : TtyStruct δ)
      (h : TtyStruct.copyToCooked write n s.tty = some t) :
      TtyUseStep write ok s { s with tty := t }
  | settings (s : TtyUse δ) (m : Termios) (h : m.eof = s.tty.termios.eof) :
      TtyUseStep write ok s { s with tty := { s.tty with termios := m } }
  | call (s : TtyUse δ) (k channel : ℕ) (nr : ℤ) (h : ∃ ret, (s.reader k).point = .done ret) :
      TtyUseStep write ok s
        (s.setReader k ((s.reader k).ttyRead s.jiffies s.tty channel nr))
  | read (s : TtyUse δ) (k : ℕ) (h : ok s k) : TtyUseStep write ok s (s.read k)
  | wake (s : TtyUse δ) (k : ℕ) (h : (s.reader k).point = .asleep) :
      TtyUseStep write ok s (s.setReader k { s.reader k with point := .test })
  | signal (s : TtyUse δ) (k : ℕ) (alarm : ℤ) (sigalrm signal : Bool) : TtyUseStep write ok s
      (s.setReader k { s.reader k with alarm := alarm, sigalrm := sigalrm, signal := signal })
  | tick (s : TtyUse δ) : TtyUseStep write ok s { s with jiffies := s.jiffies + 1 }

/-- An empty `secondary`, and no call yet. -/
structure StartsEmpty (s : TtyUse δ) : Prop where
  secondary : s.tty.secondary.isEmpty = true
  data : s.tty.data = 0
  reader : ∀ k, ∃ ret, (s.reader k).point = .done ret

variable {s s' : TtyUse δ} {k : ℕ}

theorem StartsEmpty.counted (h : StartsEmpty s) : s.tty.Counted := by
  rw [TtyStruct.Counted, TtyStruct.terms, h.data, TtyQueue.isEmpty_iff.mp h.secondary]
  rfl

/-- Only `EOF_CHAR` matters for the characters that complete a line. -/
theorem isTerm_congr {m m' : CookMode} (h : m.eof = m'.eof) : m.isTerm = m'.isTerm := by
  funext c
  rw [CookMode.isTerm, CookMode.isTerm, CookMode.isEof, CookMode.isEof, h]

/-- `GETCH` takes a character from the queue and from the count. -/
theorem TtyStruct.getch_counted (hc : t.Counted) (hne : t.secondary.isEmpty = false) :
    t.getch.Counted := by
  have hlt := hc.lt
  rw [Counted, terms, TtyQueue.toList_inc hne, List.countP_cons] at hc
  rw [Counted, terms]
  change (if t.termios.isTerm t.secondary.first then (t.data + 4294967295) % 4294967296
    else t.data) = t.secondary.inc.toList.countP t.termios.isTerm
  split_ifs at hc ⊢
  · omega
  · exact hc

/-- One step of a call. -/
theorem readStep_counted (jiffies : ℤ) (r : Reader) (hc : t.Counted)
    (hne : r.point = .getch → t.secondary.isEmpty = false) :
    (readStep jiffies t r).1.Counted := by
  rw [readStep]
  cases hpoint : r.point with
  | getch =>
    have hgetch := TtyStruct.getch_counted hc (hne hpoint)
    dsimp only
    split_ifs
    · exact hgetch
    · exact hgetch
    · exact hgetch
  | loop =>
    dsimp only
    split_ifs <;> exact hc
  | _ => exact hc

/-- One step of anything. -/
theorem TtyUseStep.counted (hwrite : Quiet write) (hc : s.tty.Counted)
    (hstep : TtyUseStep write TtyUse.TakesChar s s') : s'.tty.Counted := by
  cases hstep with
  | receive q => exact hc
  | transmit q => exact hc
  | cook n t h => exact (TtyStruct.copyToCooked_recounted hwrite hc h).counted
  | settings m h =>
    rw [TtyStruct.Counted, TtyStruct.terms]
    change s.tty.data = s.tty.secondary.toList.countP m.isTerm
    rw [isTerm_congr h]
    exact hc
  | call k channel nr h => exact hc
  | read k hok => exact readStep_counted s.jiffies (s.reader k) hc hok
  | wake k h => exact hc
  | signal k alarm sigalrm signal => exact hc
  | tick => exact hc

/-- `secondary.data` is the number of characters in `secondary` that complete a line, if every
`GETCH` of `tty_read` finds a character. -/
theorem data_eq_countP (hwrite : Quiet write)
    (h : Reachable StartsEmpty (TtyUseStep write TtyUse.TakesChar) s) :
    s.tty.data = s.tty.secondary.toList.countP s.tty.termios.isTerm ∧ s.tty.data < 1024 := by
  have hcounted : s.tty.Counted := by
    apply Reachable.invariant _ _ h
    · exact fun s hs => hs.counted
    · exact fun s s' hs hstep => hstep.counted hwrite hs
  exact ⟨hcounted, hcounted.lt⟩

/-! ### Two runs -/

/-- A serial line in canonical mode without echo, which has received a newline and a letter. -/
def lineReceived : TtyUse Unit where
  tty := { TtyStruct.fresh { consoleTermios with echo := false } () with
    readQ := (TtyQueue.empty.putch 10).putch 97 }
  reader _ := calmTask
  jiffies := 0

theorem lineReceived_starts : StartsEmpty lineReceived := ⟨rfl, rfl, fun _ => ⟨0, rfl⟩⟩

/-- `copy_to_cooked` for a few characters. -/
def TtyUse.cooked (s : TtyUse δ) : TtyUse δ :=
  { s with tty := (TtyStruct.copyToCooked rsWrite 5 s.tty).getD s.tty }

/-- The two characters are cooked, and a task has called `tty_read` for two characters. -/
def lineCalled : TtyUse Unit :=
  lineReceived.cooked.setReader 0 (calmTask.ttyRead 0 lineReceived.cooked.tty 1 2)

/-- The task has taken the newline, and is going to take the letter. -/
def lineTaken : TtyUse Unit := ((lineCalled.read 0).read 0).read 0

theorem lineTaken_reachable {ok : TtyUse Unit → ℕ → Prop} (hok : ∀ s k, s.TakesChar k → ok s k) :
    Reachable StartsEmpty (TtyUseStep rsWrite ok) lineTaken := by
  have h₀ : Reachable StartsEmpty (TtyUseStep rsWrite ok) lineReceived :=
    .of_init lineReceived_starts
  have h₁ := h₀.tail (.cook lineReceived 5 lineReceived.cooked.tty rfl)
  have h₂ : Reachable StartsEmpty (TtyUseStep rsWrite ok) lineCalled :=
    h₁.tail (.call lineReceived.cooked 0 1 2 ⟨0, rfl⟩)
  have h₃ := h₂.tail (.read lineCalled 0 (hok _ _ fun _ => rfl))
  have h₄ := h₃.tail (.read (lineCalled.read 0) 0 (hok _ _ fun _ => rfl))
  exact h₄.tail (.read ((lineCalled.read 0).read 0) 0 (hok _ _ fun _ => rfl))

/-- The count when the newline is taken. -/
theorem data_lineTaken :
    lineTaken.tty.data = lineTaken.tty.secondary.toList.countP lineTaken.tty.termios.isTerm ∧
      lineTaken.tty.data < 1024 :=
  data_eq_countP rsWrite_quiet (lineTaken_reachable fun _ _ h => h)

/-- Before the task takes the letter, an interrupt brings the character that erases it. -/
def lineErased : TtyUse Unit :=
  ({ lineTaken with tty := { lineTaken.tty with readQ := TtyQueue.empty.putch 127 } } :
    TtyUse Unit).cooked.read 0

/-- The task takes a character that is no longer there. The queue is then full of old characters,
one of them a newline, and the count is 0. -/
theorem data_lineErased :
    Reachable StartsEmpty (TtyUseStep rsWrite fun _ _ => True) lineErased ∧
      lineErased.tty.data = 0 ∧
      lineErased.tty.secondary.toList.countP lineErased.tty.termios.isTerm ≠ 0 := by
  have h₅ : Reachable StartsEmpty (TtyUseStep rsWrite fun _ _ => True) lineTaken :=
    lineTaken_reachable fun _ _ _ => trivial
  have h₆ := h₅.tail (.receive lineTaken (TtyQueue.empty.putch 127))
  have h₇ := h₆.tail (.cook _ 5 _ rfl)
  refine ⟨h₇.tail (.read _ 0 trivial), rfl, ?_⟩
  have hnewline : 10 ∈ lineErased.tty.secondary.toList := by
    have hchars : lineErased.tty.secondary.chars = 1023 := rfl
    rw [TtyQueue.toList, hchars, ringSegment, List.mem_map]
    exact ⟨1022, by simp, rfl⟩
  rw [Ne, List.countP_eq_zero]
  intro hnone
  exact hnone 10 hnewline rfl

end LihaLinux.Tty
