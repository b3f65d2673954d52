import LihaLinux.Block.Floppy

/-!
# Requests of the floppy

At most one thing is awaited for `CURRENT`: a timer, or the interrupt of a transfer or of a seek.
This is so as long as no error is the one that ends the request, and no recalibration ends while a
timer is set for the request that it would go on with. Then the driver reads `CURRENT` only when it
is there, and it is the request that has failed.
-/

namespace LihaLinux.Fd

/-- An error in an interrupt does not end the request, and a recalibration does not end while a
timer is set for the request that it would go on with. -/
def Floppy.spares (s : Floppy) : Event → Bool
  | .interrupt f =>
    let s' := { s with doFloppy := .null }
    let few := s.queue.head?.all fun r => decide (r.errors + 1 ≤ 8)
    match s.doFloppy with
    | .null => true
    | .rw => !s'.rwFails f || s'.writeProtected f || few
    | .seek => !s'.seekFails f || few
    | .recal => s.timers.isEmpty || s'.senseFails f
    | .reset => true
  | .timer _ _ => true
  | .add _ _ _ _ _ _ => true

/-- A step of the driver. -/
def Step (types : ℕ → FloppyType) (s s' : Floppy) : Prop := ∃ e, s.next types e = some s'

/-- A step in which no error ends a request and no request is started twice. -/
def SparedStep (types : ℕ → FloppyType) (s s' : Floppy) : Prop :=
  ∃ e, s.spares e ∧ s.next types e = some s'

/-- There is at most one timer, and it is for `CURRENT`. -/
def Timed (s : Floppy) : Prop :=
  s.faults = [] ∧ s.timers.length ≤ 1 ∧ (s.queue = [] → s.timers = [])

/-- Neither a timer nor an interrupt is awaited for `CURRENT`. -/
def Idle (s : Floppy) : Prop :=
  s.faults = [] ∧ s.timers = [] ∧ s.doFloppy ≠ .rw ∧ s.doFloppy ≠ .seek ∧
    (s.doFloppy = .reset → s.recalibrate = true)

/-- At most one thing is awaited for `CURRENT`, a timer or an interrupt, and nothing without it. A
reset is followed by a recalibration. -/
structure Sound (s : Floppy) : Prop where
  timed : Timed s
  started : s.timers ≠ [] → s.doFloppy ≠ .rw ∧ s.doFloppy ≠ .seek
  current : s.queue = [] → s.doFloppy ≠ .rw ∧ s.doFloppy ≠ .seek
  resetting : s.doFloppy = .reset → s.recalibrate = true

section Spared

variable {types : ℕ → FloppyType} {f : Fdc} {s s' : Floppy} {r : Request} {rest : List Request}

/-! ### The controller -/

theorem outputBytes_eq (taken : Bool) :
    ∃ reset, s.outputBytes taken = { s with reset := reset } := by
  rw [Floppy.outputBytes]
  split_ifs
  · exact ⟨_, rfl⟩
  · exact ⟨_, rfl⟩
  · exact ⟨_, rfl⟩

theorem result_eq :
    ∃ reset replies, (s.result f).2 = { s with reset := reset, replies := replies } := by
  rw [Floppy.result]
  split_ifs
  · exact ⟨_, _, rfl⟩
  · exact ⟨_, _, rfl⟩
  · exact ⟨_, _, rfl⟩

theorem sense_eq (taken : Bool) : ∃ reset replies,
    ((s.outputBytes taken).result f).2 = { s with reset := reset, replies := replies } := by
  obtain ⟨reset, houtput⟩ := outputBytes_eq (s := s) taken
  rw [houtput]
  exact result_eq

/-! ### Requests are started -/

theorem Sound.of_idle (h : Idle s) : Sound s := by
  obtain ⟨hfaults, htimers, hrw, hseek, hreset⟩ := h
  refine ⟨⟨hfaults, ?_, fun _ => htimers⟩, fun hne => absurd htimers hne, fun _ => ⟨hrw, hseek⟩,
    hreset⟩
  rw [htimers]
  exact Nat.zero_le _

theorem sound_resetFloppy (h : Timed s) : Sound s.resetFloppy := by
  have hother : Handler.reset ≠ .rw ∧ Handler.reset ≠ .seek :=
    ⟨Handler.noConfusion, Handler.noConfusion⟩
  exact ⟨h, fun _ => hother, fun _ => hother, fun _ => rfl⟩

theorem sound_requestIfReset (h : Sound s) : Sound s.requestIfReset := by
  rw [Floppy.requestIfReset]
  split_ifs
  · exact sound_resetFloppy h.timed
  · exact h

theorem sound_recalibrateFloppy (h : Timed s) : Sound (s.recalibrateFloppy f) := by
  have hother : Handler.recal ≠ .rw ∧ Handler.recal ≠ .seek :=
    ⟨Handler.noConfusion, Handler.noConfusion⟩
  rw [Floppy.recalibrateFloppy]
  obtain ⟨reset, houtput⟩ := @outputBytes_eq
    { s with recalibrate := false, currentTrack := 0, doFloppy := .recal } f.recal
  rw [houtput]
  exact sound_requestIfReset ⟨h, fun _ => hother, fun _ => hother, Handler.noConfusion⟩

/-- A reset or a recalibration comes before the requests. -/
theorem sound_again (h : Timed s) (hagain : s.reset = true ∨ s.recalibrate = true) :
    Sound (s.doFdRequest types f) := by
  rw [Floppy.doFdRequest]
  dsimp only
  split_ifs with hreset hrecalibrate
  · exact sound_resetFloppy h
  · exact sound_recalibrateFloppy h
  · exact absurd hagain (not_or.mpr ⟨hreset, hrecalibrate⟩)

/-- The command for the transfer of `CURRENT`. -/
theorem sound_setupRwFloppy (h : Idle s) (hqueue : s.queue ≠ []) :
    Sound (s.setupRwFloppy f) := by
  obtain ⟨hfaults, htimers, -⟩ := h
  obtain ⟨r, rest, hcons⟩ := List.exists_cons_of_ne_nil hqueue
  have hdma : s.setupDma = s := by rw [Floppy.setupDma, hcons]
  rw [Floppy.setupRwFloppy, hdma]
  obtain ⟨reset, houtput⟩ := @outputBytes_eq { s with doFloppy := .rw } f.setup
  rw [houtput]
  refine sound_requestIfReset ⟨⟨hfaults, ?_, fun _ => htimers⟩, fun hne => absurd htimers hne,
    fun hnil => absurd hnil hqueue, Handler.noConfusion⟩
  exact htimers.symm ▸ Nat.zero_le 1

theorem sound_transfer (h : Idle s) (hqueue : s.queue ≠ []) : Sound (s.transfer f) := by
  obtain ⟨s₁, hs₁, hidle, hqueue₁⟩ : ∃ s₁, (if s.curSpec1 ≠ s.floppy.spec1 then
      ({ s with curSpec1 := s.floppy.spec1 } : Floppy).outputBytes f.specify else s) = s₁ ∧
      Idle s₁ ∧ s₁.queue ≠ [] := by
    refine ⟨_, rfl, ?_⟩
    split_ifs
    · obtain ⟨reset, houtput⟩ := @outputBytes_eq { s with curSpec1 := s.floppy.spec1 } f.specify
      rw [houtput]
      exact ⟨h, hqueue⟩
    · exact ⟨h, hqueue⟩
  rw [Floppy.transfer, hs₁]
  split_ifs
  · exact sound_requestIfReset (Sound.of_idle hidle)
  · obtain ⟨reset, houtput⟩ := @outputBytes_eq { s₁ with doFloppy := .seek } f.seekCmd
    rw [houtput]
    obtain ⟨hfaults, htimers, -⟩ := hidle
    refine sound_requestIfReset ⟨⟨hfaults, ?_, fun _ => htimers⟩, fun hne => absurd htimers hne,
      fun hnil => absurd hnil hqueue₁, Handler.noConfusion⟩
    exact htimers.symm ▸ Nat.zero_le 1
  · exact sound_setupRwFloppy hidle hqueue₁

/-- A timer is set for `CURRENT`. -/
theorem sound_timer (h : Idle s) (hqueue : s.queue ≠ []) (x : Timer) :
    Sound { s with timers := x :: s.timers } := by
  obtain ⟨hfaults, htimers, hrw, hseek, hreset⟩ := h
  rw [htimers]
  exact ⟨⟨hfaults, le_rfl, fun hnil => absurd hnil hqueue⟩, fun _ => ⟨hrw, hseek⟩,
    fun _ => ⟨hrw, hseek⟩, hreset⟩

theorem sound_floppyOnInterrupt (h : Idle s) (hqueue : s.queue ≠ []) :
    Sound (s.floppyOnInterrupt f) := by
  rw [Floppy.floppyOnInterrupt]
  split_ifs
  · exact sound_timer h hqueue .transfer
  · exact sound_transfer h hqueue

theorem sound_start (h : Idle s) (hqueue : s.queue ≠ []) (r : Request) : Sound (s.start f r) := by
  obtain ⟨s₁, hs₁, hidle, hqueue₁⟩ : ∃ s₁ : Floppy, { s with
      seekTrack := ((r.sector / s.floppy.sect / s.floppy.head) <<< s.floppy.stretch) % 256
      seek := s.seek || decide (((r.sector / s.floppy.sect / s.floppy.head) <<<
        s.floppy.stretch) % 256 ≠ s.currentTrack)
      command := r.cmd } = s₁ ∧ Idle s₁ ∧ s₁.queue ≠ [] := ⟨_, rfl, h, hqueue⟩
  have hstart : s.start f r = if f.running then s₁.floppyOnInterrupt f
      else { s₁ with timers := .floppyOn :: s₁.timers } := by rw [← hs₁, Floppy.start]
  rw [hstart]
  split_ifs
  · exact sound_floppyOnInterrupt hidle hqueue₁
  · exact sound_timer hidle hqueue₁ .floppyOn

theorem endRequest_cons (hqueue : s.queue = r :: rest) (up : Bool) :
    s.endRequest up = { s with queue := rest, ended := (r, up) :: s.ended } := by
  rw [Floppy.endRequest, hqueue]

/-- The loop ends with the requests that are out of range and starts the next one. -/
theorem sound_takeRequest (l : List Request) (h : Idle s) (hqueue : s.queue = l) :
    Sound (Floppy.takeRequest types f l s) := by
  induction l generalizing s with
  | nil => exact Sound.of_idle h
  | cons r rest ih =>
    have hqueue₁ : (s.choose types r).queue = r :: rest := hqueue
    rw [Floppy.takeRequest]
    split_ifs
    · rw [endRequest_cons hqueue₁]
      exact ih h rfl
    · have hne : (s.choose types r).queue ≠ [] := by
        rw [hqueue₁]
        exact List.cons_ne_nil r rest
      exact @sound_start f (s.choose types r) h hne r

theorem sound_doFdRequest (h : Idle s) : Sound (s.doFdRequest types f) := by
  have htimed := (Sound.of_idle h).timed
  by_cases hagain : s.reset = true ∨ s.recalibrate = true
  · exact sound_again htimed hagain
  · obtain ⟨hreset, hrecalibrate⟩ := not_or.mp hagain
    rw [Floppy.doFdRequest]
    dsimp only
    rw [if_neg hreset, if_neg hrecalibrate]
    exact sound_takeRequest _ h rfl

/-! ### Interrupts -/

/-- An error that does not end `CURRENT` counts for it. -/
theorem badFlpIntr_spared (hqueue : s.queue = r :: rest) (herrors : r.errors + 1 ≤ 8)
    (h : Idle s) (hnull : s.doFloppy = .null) : Idle (s.badFlpIntr f) := by
  obtain ⟨hfaults, htimers, hrw, hseek, -⟩ := h
  have hreset : s.doFloppy ≠ .reset := by
    rw [hnull]
    exact Handler.noConfusion
  rw [Floppy.badFlpIntr, hqueue]
  dsimp only
  rw [if_neg (Nat.not_lt_of_le herrors), Floppy.checkErrors]
  dsimp only
  rw [if_pos rfl]
  split_ifs
  · exact ⟨hfaults, htimers, hrw, hseek, fun hhandler => absurd hhandler hreset⟩
  · exact ⟨hfaults, htimers, hrw, hseek, fun hhandler => absurd hhandler hreset⟩

theorem Sound.idle (h : Sound s) (htimers : s.timers = []) :
    Idle { s with doFloppy := .null } :=
  ⟨h.timed.1, htimers, Handler.noConfusion, Handler.noConfusion, Handler.noConfusion⟩

/-- When an interrupt of a transfer or of a seek is awaited, no timer is set and there is a
request. -/
theorem Sound.awaited (h : Sound s) (hhandler : s.doFloppy = .rw ∨ s.doFloppy = .seek) :
    Idle { s with doFloppy := .null } ∧ ∃ r rest, s.queue = r :: rest := by
  have hboth : ¬(s.doFloppy ≠ .rw ∧ s.doFloppy ≠ .seek) := by
    rintro ⟨hrw, hseek⟩
    exact hhandler.elim hrw hseek
  refine ⟨h.idle ?_, List.exists_cons_of_ne_nil fun hnil => hboth (h.current hnil)⟩
  by_contra hne
  exact hboth (h.started hne)

/-- An error in an interrupt for `CURRENT`. -/
theorem sound_failed (h : Idle s) (hnull : s.doFloppy = .null) (hqueue : s.queue = r :: rest)
    (herrors : r.errors + 1 ≤ 8) : Sound ((s.badFlpIntr f).doFdRequest types f) :=
  sound_doFdRequest (badFlpIntr_spared hqueue herrors h hnull)

/-- The end of `CURRENT` in an interrupt. -/
theorem sound_ended (h : Idle s) (hqueue : s.queue = r :: rest) (up : Bool) :
    Sound ((s.endRequest up).doFdRequest types f) := by
  rw [endRequest_cons hqueue]
  exact sound_doFdRequest h

/-- The interrupt after a transfer. -/
theorem sound_rwInterrupt (h : Idle s) (hnull : s.doFloppy = .null) (hqueue : s.queue = r :: rest)
    (hspares : (!s.rwFails f || s.writeProtected f || decide (r.errors + 1 ≤ 8)) = true) :
    Sound (s.rwInterrupt types f) := by
  rw [Floppy.rwInterrupt]
  obtain ⟨reset, replies, hresult⟩ := result_eq (s := s) (f := f)
  rw [hresult]
  obtain ⟨s₁, hs₁, hidle, hnull₁, hqueue₁⟩ : ∃ s₁ : Floppy,
      { s with reset := reset, replies := replies } = s₁ ∧ Idle s₁ ∧ s₁.doFloppy = .null ∧
        s₁.queue = r :: rest := ⟨_, rfl, h, hnull, hqueue⟩
  rw [hs₁]
  dsimp only
  split_ifs with hfails hprotected hcommand
  · exact sound_ended hidle hqueue₁ false
  · rw [hfails, eq_false_of_ne_true hprotected] at hspares
    exact sound_failed hidle hnull₁ hqueue₁ (of_decide_eq_true hspares)
  · have hdma : s₁.setupDma = s₁ := by rw [Floppy.setupDma, hqueue₁]
    rw [hdma]
    exact sound_ended hidle hqueue₁ true
  · exact sound_ended hidle hqueue₁ true

/-- The interrupt after a seek. -/
theorem sound_seekInterrupt (h : Idle s) (hnull : s.doFloppy = .null)
    (hqueue : s.queue = r :: rest)
    (hspares : (!s.seekFails f || decide (r.errors + 1 ≤ 8)) = true) :
    Sound (s.seekInterrupt types f) := by
  rw [Floppy.seekInterrupt]
  obtain ⟨reset, replies, hsense⟩ := sense_eq (s := s) (f := f) f.sense
  rw [hsense]
  obtain ⟨s₁, hs₁, hidle, hnull₁, hqueue₁⟩ : ∃ s₁ : Floppy,
      { s with reset := reset, replies := replies } = s₁ ∧ Idle s₁ ∧ s₁.doFloppy = .null ∧
        s₁.queue = r :: rest := ⟨_, rfl, h, hnull, hqueue⟩
  rw [hs₁]
  split_ifs with hfails
  · rw [hfails] at hspares
    exact sound_failed hidle hnull₁ hqueue₁ (of_decide_eq_true hspares)
  · have hne : s₁.queue ≠ [] := by
      rw [hqueue₁]
      exact List.cons_ne_nil r rest
    exact @sound_setupRwFloppy f { s₁ with currentTrack := s₁.replies 1 } hidle hne

/-- The interrupt after a recalibration. -/
theorem sound_recalInterrupt (h : Timed s) (hnull : s.doFloppy = .null)
    (hspares : (s.timers.isEmpty || s.senseFails f) = true) :
    Sound (s.recalInterrupt types f) := by
  rw [Floppy.recalInterrupt]
  obtain ⟨reset, replies, hsense⟩ := sense_eq (s := s) (f := f) f.sense
  rw [hsense]
  dsimp only
  split_ifs with hfails
  · exact @sound_again types f { s with reset := true, replies := replies } h (Or.inl rfl)
  · rw [eq_false_of_ne_true hfails, Bool.or_false] at hspares
    have hidle : Idle { s with reset := reset, replies := replies, recalibrate := false } := by
      rw [Idle, hnull]
      exact ⟨h.1, List.isEmpty_iff.mp hspares, Handler.noConfusion, Handler.noConfusion,
        Handler.noConfusion⟩
    exact sound_doFdRequest hidle

/-- The interrupt after a reset. -/
theorem sound_resetInterrupt (h : Timed s) (hrecalibrate : s.recalibrate = true) :
    Sound (s.resetInterrupt types f) := by
  rw [Floppy.resetInterrupt]
  obtain ⟨reset, replies, hsense⟩ := sense_eq (s := s) (f := f) f.sense
  rw [hsense]
  obtain ⟨reset', houtput⟩ := @outputBytes_eq { s with reset := reset, replies := replies }
    f.specify
  rw [houtput]
  exact sound_again h (Or.inr hrecalibrate)

theorem few_cons (hqueue : s.queue = r :: rest) :
    s.queue.head?.all (fun r => decide (r.errors + 1 ≤ 8)) = decide (r.errors + 1 ≤ 8) := by
  rw [hqueue]
  rfl

/-- After an interrupt at most one thing is awaited for `CURRENT`. -/
theorem Sound.interrupt (h : Sound s) (hspares : s.spares (.interrupt f) = true) :
    Sound (s.interrupt types f) := by
  rw [Floppy.interrupt]
  cases hhandler : s.doFloppy with
  | null =>
    rw [Floppy.unexpectedInterrupt]
    obtain ⟨reset, replies, hsense⟩ := sense_eq (s := { s with doFloppy := .null }) (f := f) f.sense
    rw [hsense]
    dsimp only
    have hother : Handler.null ≠ .rw ∧ Handler.null ≠ .seek :=
      ⟨Handler.noConfusion, Handler.noConfusion⟩
    split_ifs
    · exact ⟨h.timed, fun _ => hother, fun _ => hother, Handler.noConfusion⟩
    · exact ⟨h.timed, fun _ => hother, fun _ => hother, Handler.noConfusion⟩
  | rw =>
    obtain ⟨hidle, r, rest, hqueue⟩ := h.awaited (Or.inl hhandler)
    rw [Floppy.spares, hhandler] at hspares
    dsimp only at hspares
    rw [few_cons hqueue] at hspares
    exact sound_rwInterrupt hidle rfl hqueue hspares
  | seek =>
    obtain ⟨hidle, r, rest, hqueue⟩ := h.awaited (Or.inr hhandler)
    rw [Floppy.spares, hhandler] at hspares
    dsimp only at hspares
    rw [few_cons hqueue] at hspares
    exact sound_seekInterrupt hidle rfl hqueue hspares
  | recal =>
    rw [Floppy.spares, hhandler] at hspares
    exact @sound_recalInterrupt types f { s with doFloppy := .null } h.timed rfl hspares
  | reset =>
    exact @sound_resetInterrupt types f { s with doFloppy := .null } h.timed (h.resetting hhandler)

/-! ### Runs -/

/-- The timer that is set calls its function. -/
theorem Sound.timer (h : Sound s) {i : ℕ} {x : Timer} (hx : s.timers[i]? = some x) :
    Sound (({ s with timers := s.timers.eraseIdx i } : Floppy).timer f x) := by
  obtain ⟨hfaults, hlength, hcurrent⟩ := h.timed
  obtain ⟨hi, -⟩ := List.getElem?_eq_some_iff.mp hx
  have hne : s.timers ≠ [] := List.ne_nil_of_length_pos (Nat.zero_lt_of_lt hi)
  have herase : s.timers.eraseIdx i = [] := by
    apply List.eq_nil_of_length_eq_zero
    rw [List.length_eraseIdx_of_lt hi]
    omega
  have hqueue : s.queue ≠ [] := fun hnil => hne (hcurrent hnil)
  obtain ⟨hrw, hseek⟩ := h.started hne
  have hidle : Idle { s with timers := s.timers.eraseIdx i } :=
    ⟨hfaults, herase, hrw, hseek, h.resetting⟩
  cases x with
  | floppyOn => exact sound_floppyOnInterrupt hidle hqueue
  | transfer => exact sound_transfer hidle hqueue

/-- A request is put into the queue. -/
theorem Sound.addRequest (h : Sound s) (dev : ℕ) (cmd : Cmd) (blocknr buffer place : ℕ) :
    Sound (s.addRequest types f dev cmd blocknr buffer place) := by
  obtain ⟨hfaults, hlength, hcurrent⟩ := h.timed
  rw [Floppy.addRequest]
  dsimp only
  split
  · next hqueue =>
    obtain ⟨hrw, hseek⟩ := h.current hqueue
    exact sound_doFdRequest ⟨hfaults, hcurrent hqueue, hrw, hseek, h.resetting⟩
  · next q qs hqueue =>
    exact ⟨⟨hfaults, hlength, fun hnil => absurd hnil (List.cons_ne_nil _ _)⟩, h.started,
      fun hnil => absurd hnil (List.cons_ne_nil _ _), h.resetting⟩

/-- A step in which no error ends a request and no request is started twice. -/
theorem Sound.step (h : Sound s) (hstep : SparedStep types s s') : Sound s' := by
  obtain ⟨e, hspares, hnext⟩ := hstep
  cases e with
  | interrupt f =>
    cases hnext
    exact h.interrupt hspares
  | timer i f =>
    rw [Floppy.next] at hnext
    split at hnext
    · cases hnext
    · next x hx =>
      cases hnext
      exact h.timer hx
  | add dev cmd blocknr buffer place f =>
    cases hnext
    exact h.addRequest dev cmd blocknr buffer place

/-- In every run in which no error ends a request and no request is started twice, the driver is
sound. -/
theorem sound_of_spared (hrun : Reachable Floppy.Boot (SparedStep types) s) : Sound s := by
  refine Reachable.invariant (fun s hs => ?_) (fun s s' h hstep => h.step hstep) hrun
  apply Sound.of_idle
  rw [Idle, hs.doFloppy]
  exact ⟨hs.faults, hs.timers, Handler.noConfusion, Handler.noConfusion, Handler.noConfusion⟩

end Spared

/-! ### Runs of a floppy -/

/-- A floppy of 720 kB in every drive. -/
def smallFloppies (_ : ℕ) : FloppyType := ⟨1440, 9, 2, 0, 0xDF⟩

/-- The driver before the first request. -/
def floppyBoot : Floppy where
  queue := []
  doFloppy := .null
  timers := []
  recalibrate := false
  reset := false
  seek := false
  curSpec1 := -1
  floppy := smallFloppies 0
  currentDrive := 0
  seekTrack := 0
  currentTrack := 255
  command := .read
  replies := fun _ => 0
  nextId := 0
  ended := []
  faults := []

/-- The controller takes everything and replies. -/
def replying (running : Bool) (reply : List ℕ) : Fdc where
  sense := true
  specify := true
  seekCmd := true
  setup := true
  recal := true
  reply
  replyEnds := true
  dorDrive := 0
  running
  nullErrors := 0

/-- The reply after a seek to track 0 or a recalibration. -/
def sought : Event := .interrupt (replying true [0x20, 0])

/-- The reply after a transfer. -/
def transferred (st0 : ℕ) : Event := .interrupt (replying true [st0, 0, 0, 0, 0, 0, 0])

/-- A block is read again after an error and a recalibration. -/
def oneError : List Event :=
  [.add 0 .read 5 4096 0 (replying true []), sought, transferred 0x40, sought, transferred 0]

/-- There is an interrupt while the motor starts. The recalibration that it leads to begins when
the first request has ended, and it ends when a timer is set for the second one. -/
def startedTwice : List Event :=
  [.add 0 .read 5 4096 0 (replying false []), sought, .timer 0 (replying true []), sought,
    transferred 0, .add 0 .read 6 4096 0 (replying false []), .interrupt (replying false [0x20, 0]),
    .timer 0 (replying true []), transferred 0, .timer 0 (replying true [])]

/-- The state after an event in which no error ends a request and no request is started twice. -/
def Floppy.spare (types : ℕ → FloppyType) (s : Floppy) (e : Event) : Option Floppy :=
  if s.spares e then s.next types e else none

/-- The state after the block has been read. -/
def afterOne : Floppy :=
  (runEvents (Floppy.spare smallFloppies) floppyBoot oneError).getD floppyBoot

/-- The state after the second transfer. -/
def afterTwice : Floppy :=
  (runEvents (Floppy.next smallFloppies) floppyBoot startedTwice).getD floppyBoot

/-- The error does not end the request. -/
theorem afterOne_spared : Reachable Floppy.Boot (SparedStep smallFloppies) afterOne := by
  have hcompute : runEvents (Floppy.spare smallFloppies) floppyBoot oneError = some afterOne := by
    rfl
  have hboot : Reachable Floppy.Boot (SparedStep smallFloppies) floppyBoot :=
    Reachable.of_init ⟨rfl, rfl, rfl, rfl⟩
  refine hboot.runEvents (fun s e s' h => ?_) hcompute
  rw [Floppy.spare] at h
  split_ifs at h with hspares
  exact ⟨e, hspares, h⟩

end LihaLinux.Fd
