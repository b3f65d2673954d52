import LihaLinux.Lib.Transition
import LihaLinux.Tty.Read
import LihaLinux.Tty.ReadProgress

/-!
# The alarm of a task that reads

`tty_read` borrows `current->alarm` for `VTIME`. While it runs, interrupts and other tasks may do
anything with the terminal, and `schedule()` looks at the alarm when the task sleeps.
-/

namespace LihaLinux.Tty

variable {δ : Type}

/-- A task that reads from a terminal, and the time. -/
structure Reading (δ : Type) where
  tty : TtyStruct δ
  reader : Reader
  jiffies : ℤ

namespace Reading

variable (s : Reading δ)

/-- The call goes on. -/
def next : Reading δ :=
  { s with
    tty := (readStep s.jiffies s.tty s.reader).1
    reader := (readStep s.jiffies s.tty s.reader).2 }

/-- What `schedule()` does with an alarm that has expired. -/
def expire : Reading δ := { s with reader := { s.reader with alarm := 0, sigalrm := true } }

/-- A call that is about to return at `EOF_CHAR` in canonical mode. -/
def AtEof : Prop :=
  s.reader.point = .getch ∧ s.tty.termios.isEof s.tty.secondary.first = true ∧
    s.tty.termios.canon = true

/-- The call does not return at `EOF_CHAR` while the alarm is its own. -/
def GivesBack : Prop := ¬(s.AtEof ∧ s.reader.flag = true)

end Reading

/-- What happens while a task reads that had an alarm which does not expire during the call. The
call itself goes on in the states in `ok`. -/
inductive ReadingStep (alarm : ℤ) (ok : Reading δ → Prop) : Reading δ → Reading δ → Prop
  | step (s : Reading δ) (h : ok s) : ReadingStep alarm ok s s.next
  /-- Interrupts and other tasks. -/
  | tty (s : Reading δ) (t : TtyStruct δ) : ReadingStep alarm ok s { s with tty := t }
  | tick (s : Reading δ) : ReadingStep alarm ok s { s with jiffies := s.jiffies + 1 }
  | signal (s : Reading δ) (sigalrm signal : Bool) : ReadingStep alarm ok s
      { s with reader := { s.reader with sigalrm := sigalrm, signal := signal } }
  | wake (s : Reading δ) (h : s.reader.point = .asleep) : ReadingStep alarm ok s
      { s with reader := { s.reader with point := .test } }
  | expire (s : Reading δ) (h : s.reader.alarm ≠ 0 ∧ s.reader.alarm < s.jiffies)
      (hearlier : alarm = 0 ∨ s.jiffies ≤ alarm) : ReadingStep alarm ok s s.expire

/-- A call that begins. -/
def StartsReading (alarm : ℤ) (s : Reading δ) : Prop :=
  ∃ (r : Reader) (channel : ℕ) (nr : ℤ),
    r.alarm = alarm ∧ s.reader = r.ttyRead s.jiffies s.tty channel nr

/-- The alarm is that of the caller, or the call has it in `oldalarm` and `flag` tells. -/
def Borrowed (alarm : ℤ) (r : Reader) : Prop :=
  match r.point with
  | .done _ => r.alarm = alarm
  | _ => r.oldalarm = alarm ∧ (r.flag = false → r.alarm = alarm)

variable {alarm jiffies : ℤ} {r : Reader} {s s' : Reading δ} {t : TtyStruct δ}

theorem Borrowed.of_running (hold : r.oldalarm = alarm) (hflag : r.flag = false → r.alarm = alarm)
    (hpoint : ∀ ret, r.point ≠ .done ret) : Borrowed alarm r := by
  rw [Borrowed]
  split
  · next ret h => exact absurd h (hpoint ret)
  · exact ⟨hold, hflag⟩

theorem Borrowed.running (h : Borrowed alarm r) (hpoint : ∀ ret, r.point ≠ .done ret) :
    r.oldalarm = alarm ∧ (r.flag = false → r.alarm = alarm) := by
  rw [Borrowed] at h
  split at h
  · next ret hdone => exact absurd hdone (hpoint ret)
  · exact h

/-- The call borrows the alarm. -/
theorem borrowed_ttyRead (r : Reader) (jiffies : ℤ) (t : TtyStruct δ) (channel : ℕ) (nr : ℤ) :
    Borrowed r.alarm (r.ttyRead jiffies t channel nr) := by
  unfold Reader.ttyRead
  split_ifs with hargs
  · rfl
  · dsimp only
    split_ifs with htime hout
    · exact ⟨rfl, fun hflag => absurd (hout.symm.trans hflag) (by decide)⟩
    · exact ⟨rfl, fun _ => rfl⟩
    · exact ⟨rfl, fun _ => rfl⟩

/-- The time starts again, with the alarm of the caller or that of the call. -/
theorem Borrowed.rearm (hold : r.oldalarm = alarm) (hflag : r.flag = false → r.alarm = alarm)
    (jiffies : ℤ) (t : TtyStruct δ) :
    (r.rearm jiffies t).oldalarm = alarm ∧
      ((r.rearm jiffies t).flag = false → (r.rearm jiffies t).alarm = alarm) := by
  unfold Reader.rearm
  split
  · refine ⟨hold, fun hfalse => ?_⟩
    have hout : r.timesOut jiffies = false := hfalse
    rw [hout]
    exact hold
  · exact ⟨hold, hflag⟩

/-- One step of the call. -/
theorem Borrowed.next (h : Borrowed alarm s.reader) (hok : s.GivesBack) :
    Borrowed alarm s.next.reader := by
  rw [Reading.next]
  change Borrowed alarm (readStep s.jiffies s.tty s.reader).2
  rw [readStep]
  cases hpoint : s.reader.point with
  | loop =>
    obtain ⟨hold, hflag⟩ := h.running fun ret => by simp [hpoint]
    dsimp only
    split_ifs
    · exact hold
    · exact hold
    · exact hold
    · exact ⟨hold, hflag⟩
    · exact ⟨hold, hflag⟩
  | test =>
    obtain ⟨hold, hflag⟩ := h.running fun ret => by simp [hpoint]
    dsimp only
    split_ifs
    · exact ⟨hold, hflag⟩
    · exact ⟨hold, hflag⟩
  | asleep => exact h
  | getch =>
    obtain ⟨hold, hflag⟩ := h.running fun ret => by simp [hpoint]
    dsimp only
    split_ifs with heof hnr
    · rw [Bool.and_eq_true] at heof
      apply hflag
      by_contra hown
      exact hok ⟨⟨hpoint, heof.1, heof.2⟩, by simpa using hown⟩
    · exact ⟨hold, hflag⟩
    · exact ⟨hold, hflag⟩
  | inner =>
    obtain ⟨hold, hflag⟩ := h.running fun ret => by simp [hpoint]
    dsimp only
    split_ifs
    · exact ⟨hold, hflag⟩
    · exact ⟨hold, hflag⟩
  | after =>
    obtain ⟨hold, hflag⟩ := h.running fun ret => by simp [hpoint]
    have hrearm := Borrowed.rearm hold hflag s.jiffies s.tty
    dsimp only
    split_ifs
    · exact hrearm.1
    · exact hrearm
  | done ret => exact h

/-- One step of anything. -/
theorem Borrowed.step (h : Borrowed alarm s.reader)
    (hstep : ReadingStep alarm Reading.GivesBack s s') : Borrowed alarm s'.reader := by
  cases hstep with
  | step hok => exact h.next hok
  | tty t => exact h
  | tick => exact h
  | signal sigalrm signal => exact h
  | wake hpoint =>
    obtain ⟨hold, hflag⟩ := h.running fun ret => by simp [hpoint]
    exact ⟨hold, hflag⟩
  | expire hexpired hearlier =>
    have hother : s.reader.alarm ≠ alarm := by
      rintro rfl
      omega
    cases hpoint : s.reader.point with
    | done ret =>
      rw [Borrowed, hpoint] at h
      exact absurd h hother
    | _ =>
      obtain ⟨hold, hflag⟩ := h.running fun ret => by simp [hpoint]
      have hexpire : s.expire.reader.oldalarm = alarm := hold
      apply Borrowed.of_running hexpire
      · intro hown
        exact absurd (hflag hown) hother
      · intro ret
        change s.reader.point ≠ _
        simp [hpoint]

/-- When `tty_read` returns, the alarm is that of the caller, if the call does not return at
`EOF_CHAR` in canonical mode while the alarm is its own. -/
theorem alarm_restored (h : Reachable (StartsReading alarm) (ReadingStep alarm Reading.GivesBack) s)
    {ret : ℤ} (hdone : s.reader.point = .done ret) : s.reader.alarm = alarm := by
  have hborrowed : Borrowed alarm s.reader := by
    apply Reachable.invariant _ _ h
    · rintro s ⟨r, channel, nr, rfl, hr⟩
      rw [hr]
      exact borrowed_ttyRead ..
    · intro s s' hs hstep
      exact hs.step hstep
  rw [Borrowed, hdone] at hborrowed
  exact hborrowed

/-- A call with `VTIME` 1 and `VMIN` 0 for up to five characters, when there is one. -/
def timedReading (canon : Bool) (c : ℕ) : Reading Unit :=
  let t : TtyStruct Unit :=
    { TtyStruct.fresh { consoleTermios with canon := canon, vtime := 1, vmin := 0 } () with
      secondary := TtyQueue.empty.putch c, data := 1 }
  ⟨t, calmTask.ttyRead 100 t 0 5, 100⟩

theorem timedReading_starts (canon : Bool) (c : ℕ) : StartsReading 0 (timedReading canon c) :=
  ⟨calmTask, 0, 5, rfl, rfl⟩

/-- The call takes a character without `ICANON`. -/
theorem alarm_restored_timed : (timedReading false 97).next.next.next.next.reader.alarm = 0 := by
  have hraw : ∀ s : Reading Unit, s.tty.termios.canon = false → s.GivesBack := by
    rintro s hcanon ⟨⟨_, _, h⟩, _⟩
    exact absurd (hcanon.symm.trans h) (by decide)
  have h₀ : Reachable (StartsReading 0) (ReadingStep 0 Reading.GivesBack) (timedReading false 97) :=
    .of_init (timedReading_starts false 97)
  have h₁ := h₀.tail (.step _ (hraw _ rfl))
  have h₂ := h₁.tail (.step _ (hraw _ rfl))
  have h₃ := h₂.tail (.step _ (hraw _ rfl))
  have h₄ := h₃.tail (.step _ (hraw _ rfl))
  exact alarm_restored h₄ rfl

/-- The call returns at `EOF_CHAR` with `ICANON`, and keeps its own alarm. -/
theorem alarm_not_restored :
    Reachable (StartsReading 0) (ReadingStep 0 fun _ => True) (timedReading true 4).next.next ∧
      (timedReading true 4).next.next.reader.point = .done 0 ∧
      (timedReading true 4).next.next.reader.alarm = 110 :=
  ⟨((Reachable.of_init (timedReading_starts true 4)).tail (.step _ trivial)).tail
    (.step _ trivial), rfl, rfl⟩

end LihaLinux.Tty
