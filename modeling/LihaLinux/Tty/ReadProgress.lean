import LihaLinux.Tty.Read
import Mathlib.Logic.Function.Iterate

/-!
# Progress of `tty_read`

Without interrupts a call returns or goes to sleep, unless `sleep_if_empty` does not sleep because
`secondary` has characters, but not a complete line.
-/

namespace LihaLinux.Tty

variable {δ : Type}

/-- A call alone, `n` steps later. -/
def readRun (jiffies : ℤ) (n : ℕ) (s : TtyStruct δ × Reader) : TtyStruct δ × Reader :=
  (fun s => readStep jiffies s.1 s.2)^[n] s

/-- The call has returned, or its task has been put to sleep. -/
def Reader.Rests (r : Reader) : Prop := r.point = .asleep ∨ ∃ ret, r.point = .done ret

/-- The main loop waits for a complete line, and the queue is not empty. -/
structure Spins (t : TtyStruct δ) (r : Reader) : Prop where
  nr : r.nr ≠ 0
  signal : r.signalled = false
  canon : t.termios.canon = true
  chars : t.secondary.isEmpty = false
  data : t.data = 0
  left : 20 < t.secondary.left

variable {jiffies : ℤ} {t : TtyStruct δ} {r : Reader} {s : TtyStruct δ × Reader}

/-- `tty_read` begins at the head of its main loop, or returns at once. -/
theorem ttyRead_point (r : Reader) (jiffies : ℤ) (t : TtyStruct δ) (channel : ℕ) (nr : ℤ) :
    (r.ttyRead jiffies t channel nr).point = .loop ∨
      (r.ttyRead jiffies t channel nr).point = .done (-1) := by
  unfold Reader.ttyRead
  split_ifs
  · exact Or.inr rfl
  · dsimp only
    split_ifs <;> exact Or.inl rfl

/-! ### The loop that does not end -/

/-- A call that spins is at the head of the loop or at the test of `sleep_if_empty`. -/
structure Spinning (s : TtyStruct δ × Reader) : Prop where
  spins : Spins s.1 s.2
  point : s.2.point = .loop ∨ s.2.point = .test

theorem Spins.waits (h : Spins t r) : t.waits = true := by
  rw [TtyStruct.waits, h.canon, decide_eq_true h.data, decide_eq_true h.left, Bool.or_eq_true]
  exact Or.inr rfl

theorem Spinning.step (h : Spinning s) : Spinning (readStep jiffies s.1 s.2) := by
  have hspins := h.spins
  have hsig := hspins.signal
  rw [Reader.signalled, Bool.or_eq_false_iff] at hsig
  rcases h.point with hpoint | hpoint
  · have hstep : readStep jiffies s.1 s.2 = (s.1, { s.2 with point := .test }) := by
      rw [readStep]
      simp only [hpoint, if_neg hspins.nr, hsig.1, Bool.and_false, Bool.false_eq_true, if_false,
        hspins.signal, hspins.waits, if_true]
    rw [hstep]
    exact ⟨⟨hspins.nr, hspins.signal, hspins.canon, hspins.chars, hspins.data, hspins.left⟩,
      Or.inr rfl⟩
  · have hstep : readStep jiffies s.1 s.2 = (s.1, { s.2 with point := .loop }) := by
      rw [readStep]
      simp only [hpoint, hspins.chars, Bool.and_false, Bool.false_eq_true, if_false]
    rw [hstep]
    exact ⟨⟨hspins.nr, hspins.signal, hspins.canon, hspins.chars, hspins.data, hspins.left⟩,
      Or.inl rfl⟩

theorem Spinning.run (h : Spinning s) (n : ℕ) : Spinning (readRun jiffies n s) := by
  induction n with
  | zero => exact h
  | succ n ih =>
    rw [readRun, Function.iterate_succ_apply']
    exact ih.step

theorem Spinning.not_rests (h : Spinning s) : ¬s.2.Rests := by
  rw [Reader.Rests]
  rcases h.point with hpoint | hpoint
  · simp [hpoint]
  · simp [hpoint]

/-! ### The calls that end -/

/-- What holds in a call that does not spin, since it was at the head of its loop with `k`
characters. -/
def Moving (k : ℕ) (s : TtyStruct δ × Reader) : Prop :=
  match s.2.point with
  | .loop => k < s.2.got.length ∧ s.1.termios.canon = false
  | .test => s.1.secondary.isEmpty = true ∧ s.2.signalled = false
  | .getch => s.2.nr ≠ 0 ∧ k ≤ s.2.got.length
  | .inner => s.2.nr ≠ 0 ∧ k < s.2.got.length
  | .after => k < s.2.got.length
  | .asleep => True
  | .done _ => True

/-- How far a call is from its end. -/
def Reader.distance (r : Reader) : ℕ :=
  match r.point with
  | .loop => 4 * r.nr + 3
  | .getch => 4 * r.nr + 2
  | .inner => 4 * r.nr + 5
  | .after => 4 * r.nr + 4
  | .test => 1
  | .asleep => 0
  | .done _ => 0

variable {k : ℕ}

/-- One step of a call that moves on. -/
def StepsOn (k : ℕ) (s s' : TtyStruct δ × Reader) : Prop :=
  Moving k s' ∧ s'.2.distance < s.2.distance

/-- The step from the head of the loop. -/
theorem loop_stepsOn (jiffies : ℤ) (hpoint : s.2.point = .loop) (hspins : ¬Spins s.1 s.2)
    (hgot : k ≤ s.2.got.length) : StepsOn k s (readStep jiffies s.1 s.2) := by
  have hdist : s.2.distance = 4 * s.2.nr + 3 := by rw [Reader.distance, hpoint]
  rw [StepsOn, hdist, readStep]
  simp only [hpoint]
  split_ifs with hnr halrm hsignal hwaits
  · exact ⟨trivial, Nat.succ_pos _⟩
  · exact ⟨trivial, Nat.succ_pos _⟩
  · exact ⟨trivial, Nat.succ_pos _⟩
  · have hsig : s.2.signalled = false := by simpa using hsignal
    refine ⟨⟨?_, hsig⟩, by change 1 < _; omega⟩
    by_contra hchars
    have hchars' : s.1.secondary.isEmpty = false := by simpa using hchars
    rw [TtyStruct.waits, hchars', Bool.false_or, Bool.and_eq_true, Bool.and_eq_true,
      decide_eq_true_iff, decide_eq_true_iff] at hwaits
    exact hspins ⟨hnr, hsig, hwaits.1.1, hchars', hwaits.1.2, hwaits.2⟩
  · exact ⟨⟨hnr, hgot⟩, by change 4 * s.2.nr + 2 < _; omega⟩

/-- Every other step. -/
theorem Moving.stepsOn (h : Moving k s) (jiffies : ℤ) (hrest : ¬s.2.Rests) :
    StepsOn k s (readStep jiffies s.1 s.2) := by
  rw [Moving] at h
  cases hpoint : s.2.point with
  | loop =>
    simp only [hpoint] at h
    apply loop_stepsOn jiffies hpoint _ h.1.le
    intro hspins
    rw [hspins.canon] at h
    exact absurd h.2 (by decide)
  | test =>
    simp only [hpoint] at h
    have hdist : s.2.distance = 1 := by rw [Reader.distance, hpoint]
    rw [StepsOn, hdist, readStep]
    simp only [hpoint, h.1, h.2]
    exact ⟨trivial, Nat.one_pos⟩
  | asleep => exact absurd (Or.inl hpoint) hrest
  | getch =>
    simp only [hpoint] at h
    have hdist : s.2.distance = 4 * s.2.nr + 2 := by rw [Reader.distance, hpoint]
    have hlen : k < (s.2.got ++ [s.1.secondary.first]).length := by
      rw [List.length_append, List.length_singleton]
      omega
    rw [StepsOn, hdist, readStep]
    simp only [hpoint]
    split_ifs with heof hnr
    · exact ⟨trivial, Nat.succ_pos _⟩
    · exact ⟨hlen, by change 4 * (s.2.nr - 1) + 4 < _; omega⟩
    · refine ⟨⟨?_, hlen⟩, ?_⟩
      · change s.2.nr - 1 ≠ 0
        omega
      · change 4 * (s.2.nr - 1) + 5 < _
        omega
  | inner =>
    simp only [hpoint] at h
    have hdist : s.2.distance = 4 * s.2.nr + 5 := by rw [Reader.distance, hpoint]
    rw [StepsOn, hdist, readStep]
    simp only [hpoint]
    split_ifs with hempty
    · exact ⟨h.2, by change 4 * s.2.nr + 4 < _; omega⟩
    · exact ⟨⟨h.1, h.2.le⟩, by change 4 * s.2.nr + 2 < _; omega⟩
  | after =>
    simp only [hpoint] at h
    have hdist : s.2.distance = 4 * s.2.nr + 4 := by rw [Reader.distance, hpoint]
    have hrearm : (s.2.rearm jiffies s.1).got = s.2.got ∧ (s.2.rearm jiffies s.1).nr = s.2.nr := by
      unfold Reader.rearm
      split
      · exact ⟨rfl, rfl⟩
      · exact ⟨rfl, rfl⟩
    rw [StepsOn, hdist, readStep]
    simp only [hpoint]
    split_ifs with henough
    · exact ⟨trivial, Nat.succ_pos _⟩
    · refine ⟨⟨?_, ?_⟩, ?_⟩
      · change k < (s.2.rearm jiffies s.1).got.length
        rwa [hrearm.1]
      · by_contra hcanon
        have hcanon' : s.1.termios.canon = true := by simpa using hcanon
        rw [Reader.enough, hcanon', if_pos rfl, decide_eq_true_iff, not_not] at henough
        rw [henough] at h
        exact absurd h (Nat.not_lt_zero k)
      · change 4 * (s.2.rearm jiffies s.1).nr + 3 < _
        rw [hrearm.2]
        omega
  | done ret => exact absurd (Or.inr ⟨ret, hpoint⟩) hrest

/-- A call that rests stays as it is. -/
theorem Reader.Rests.step (h : s.2.Rests) : readStep jiffies s.1 s.2 = s := by
  rw [readStep]
  rcases h with h | ⟨ret, h⟩
  · rw [h]
  · rw [h]

/-- A call that moves on comes to rest. -/
theorem Moving.exists_rests (h : Moving k s) (jiffies : ℤ) :
    ∃ n, (readRun jiffies n s).2.Rests := by
  obtain ⟨d, hd⟩ : ∃ d, s.2.distance ≤ d := ⟨_, le_refl _⟩
  induction d generalizing s with
  | zero =>
    refine ⟨0, ?_⟩
    by_contra hrest
    have hlt := (h.stepsOn jiffies hrest).2
    omega
  | succ d ih =>
    by_cases hrest : s.2.Rests
    · exact ⟨0, hrest⟩
    · obtain ⟨hmoving, hlt⟩ := h.stepsOn jiffies hrest
      obtain ⟨n, hn⟩ := ih hmoving (by omega)
      exact ⟨n + 1, hn⟩

/-- A call that moves on goes on to move. -/
theorem Moving.run (h : Moving k s) (jiffies : ℤ) (n : ℕ) : Moving k (readRun jiffies n s) := by
  induction n with
  | zero => exact h
  | succ n ih =>
    rw [readRun, Function.iterate_succ_apply']
    by_cases hrest : ((fun s => readStep jiffies s.1 s.2)^[n] s).2.Rests
    · rw [hrest.step]
      exact ih
    · exact (ih.stepsOn jiffies hrest).1

/-- From the head of its main loop `tty_read` returns or goes to sleep, and comes back to the head
of the loop only with more characters, if and only if it is not the case that a task without
signals waits in canonical mode for a complete line while `secondary` has characters and room for
more than 20. -/
theorem rests_iff (h : s.2.point = .loop) :
    ((∃ n, (readRun jiffies n s).2.Rests) ∧
      ∀ n, (readRun jiffies (n + 1) s).2.point = .loop →
        s.2.got.length < (readRun jiffies (n + 1) s).2.got.length) ↔ ¬Spins s.1 s.2 := by
  constructor
  · rintro ⟨⟨n, hrests⟩, _⟩ hspins
    have hspinning : Spinning s := ⟨hspins, Or.inl h⟩
    exact (hspinning.run n).not_rests hrests
  · intro hspins
    have hmoving := (loop_stepsOn jiffies h hspins le_rfl).1
    obtain ⟨n, hrests⟩ := hmoving.exists_rests jiffies
    refine ⟨⟨n + 1, hrests⟩, fun n hloop => ?_⟩
    have hrun : Moving s.2.got.length (readRun jiffies (n + 1) s) := hmoving.run jiffies n
    rw [Moving, hloop] at hrun
    exact hrun.1

/-- A task without signals and alarms, before its call. -/
def calmTask : Reader := ⟨.done 0, 0, [], 0, 0, false, 0, 0, false, false⟩

/-- The console with one complete line. -/
def oneLine : TtyStruct Unit :=
  { TtyStruct.fresh consoleTermios () with
    secondary := (TtyQueue.empty.putch 97).putch 10, data := 1 }

/-- A call for a complete line. -/
theorem rests_oneLine :
    (∃ n, (readRun 0 n (oneLine, calmTask.ttyRead 0 oneLine 0 5)).2.Rests) ∧
      ∀ n, (readRun 0 (n + 1) (oneLine, calmTask.ttyRead 0 oneLine 0 5)).2.point = .loop →
        (calmTask.ttyRead 0 oneLine 0 5).got.length <
          (readRun 0 (n + 1) (oneLine, calmTask.ttyRead 0 oneLine 0 5)).2.got.length :=
  (rests_iff rfl).mpr fun hspins => absurd hspins.data (by decide)

/-- The console with a character of a line that is not complete. -/
def partialLine : TtyStruct Unit :=
  { TtyStruct.fresh consoleTermios () with secondary := TtyQueue.empty.putch 97 }

/-- A call for a line that is not complete neither returns nor sleeps. -/
theorem not_rests_partialLine :
    ¬∃ n, (readRun 0 n (partialLine, calmTask.ttyRead 0 partialLine 0 5)).2.Rests := by
  have hspins : Spins partialLine (calmTask.ttyRead 0 partialLine 0 5) :=
    ⟨by decide, rfl, rfl, rfl, rfl, by decide⟩
  have hspinning : Spinning (partialLine, calmTask.ttyRead 0 partialLine 0 5) :=
    ⟨hspins, Or.inl rfl⟩
  rintro ⟨n, hrests⟩
  exact (hspinning.run n).not_rests hrests

end LihaLinux.Tty
