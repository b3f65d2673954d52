import LihaLinux.Block.FloppyRequests
import LihaLinux.Block.Retries

/-!
# Finished requests

`bad_rw_intr` and `bad_flp_intr` read `CURRENT` after they may have ended it. As long as no error
is the one that ends the request, and no request of the floppy is started twice, the drivers read
`CURRENT` only when it is there, and it is the request that has failed.
-/

namespace LihaLinux.Hd

/-- An error is found in an event: `bad_rw_intr` is called. -/
def HardDisk.fails (s : HardDisk) : Event → Bool
  | .interrupt ok _ => !ok && decide (s.doHd ≠ .null)
  | .pass _ drq _ => !drq && s.queue.head?.any fun r => decide (r.cmd = .write)
  | .add _ _ _ _ => false

/-- An error in an event does not end the request. -/
def HardDisk.spares (s : HardDisk) (e : Event) : Bool :=
  !s.fails e || s.queue.head?.all fun r => decide (r.errors + 1 < 7)

/-- A step in which no error ends a request. -/
def SparedStep (t : Tables) (s s' : HardDisk) : Prop := ∃ e, s.spares e ∧ s.next t e = some s'

/-- The range check of `do_hd_request` passes. -/
def InRange (t : Tables) (r : Request) : Prop :=
  r.dev < 5 * t.nrHd ∧ add32 r.sector 2 ≤ (t.hd r.dev).nrSects

/-- There is a request whenever an interrupt is awaited, and it is still there after a pass. -/
structure Sound (t : Tables) (s : HardDisk) : Prop where
  faults : s.faults = []
  armed : s.doHd ≠ .null → s.queue ≠ []
  passing : s.requesting = true → s.doHd = .null ∨ ∀ r rest, s.queue = r :: rest → InRange t r

section Spared

variable {t : Tables} {s s' : HardDisk} {r : Request} {rest : List Request}

/-- An error that does not end `CURRENT` counts for it. -/
theorem badRwIntr_spared (hqueue : s.queue = r :: rest) (herrors : r.errors + 1 < 7)
    (nullErrors : ℕ) :
    ∃ reset, s.badRwIntr nullErrors =
      { s with queue := { r with errors := r.errors + 1 } :: rest, reset := reset } := by
  rw [HardDisk.badRwIntr, hqueue]
  dsimp only
  rw [if_neg (Nat.not_le_of_lt herrors), HardDisk.checkErrors]
  dsimp only
  rw [if_pos rfl]
  split_ifs
  · exact ⟨_, rfl⟩
  · exact ⟨_, rfl⟩

/-- The controller leaves the driver alone. -/
theorem complete_driver (ok : Bool) :
    (s.complete t ok).doHd = s.doHd ∧ (s.complete t ok).queue = s.queue ∧
      (s.complete t ok).requesting = s.requesting ∧ (s.complete t ok).faults = s.faults := by
  rw [HardDisk.complete]
  split
  · exact ⟨rfl, rfl, rfl, rfl⟩
  · exact ⟨rfl, rfl, rfl, rfl⟩
  · next c n _ =>
    cases ok with
    | false => exact ⟨rfl, rfl, rfl, rfl⟩
    | true =>
      dsimp only
      rw [if_pos rfl, HardDisk.moveSector]
      cases c.cmd with
      | read => exact ⟨rfl, rfl, rfl, rfl⟩
      | write => exact ⟨rfl, rfl, rfl, rfl⟩

theorem spares_of_fails {e : Event} (hqueue : s.queue = r :: rest) (hfails : s.fails e = true)
    (h : s.spares e = true) : r.errors + 1 < 7 := by
  rw [HardDisk.spares, hfails, hqueue] at h
  exact of_decide_eq_true h

/-- The driver waits for an interrupt for a request. -/
theorem sound_of_current (hfaults : s.faults = []) (hqueue : s.queue = r :: rest)
    (hrequesting : s.requesting = false) : Sound t s := by
  refine ⟨hfaults, fun _ => ?_, fun hcall => ?_⟩
  · rw [hqueue]
    exact List.cons_ne_nil r rest
  · exact absurd (hrequesting.symm.trans hcall) Bool.false_ne_true

/-- After an interrupt no function is left in `do_hd` without a request. -/
theorem Sound.interrupt (h : Sound t s) (hrequesting : s.requesting = false) {ok : Bool}
    {nullErrors : ℕ} (hspares : s.spares (.interrupt ok nullErrors) = true) :
    Sound t (s.interrupt t ok nullErrors) := by
  obtain ⟨s₁, hs₁⟩ : ∃ s₁ : HardDisk, { s.complete t ok with doHd := .null } = s₁ := ⟨_, rfl⟩
  obtain ⟨hdoHd, hqueue, hreq, hfaults⟩ := complete_driver (t := t) (s := s) ok
  have hdoHd₁ : s₁.doHd = .null := by rw [← hs₁]
  have hqueue₁ : s₁.queue = s.queue := by
    rw [← hs₁]
    exact hqueue
  have hfaults₁ : s₁.faults = [] := by
    rw [← hs₁]
    exact hfaults.trans h.faults
  have hreq₁ : s₁.requesting = false := by
    rw [← hs₁]
    exact hreq.trans hrequesting
  have hdisarmed (s₂ : HardDisk) (hfaults₂ : s₂.faults = []) (hdoHd₂ : s₂.doHd = .null) :
      Sound t s₂ := ⟨hfaults₂, fun hne => absurd hdoHd₂ hne, fun _ => Or.inl hdoHd₂⟩
  rw [HardDisk.interrupt]
  rw [hs₁, hdoHd]
  cases hqueue' : s.queue with
  | nil =>
    have hnull : s.doHd = .null := by
      by_contra hne
      exact h.armed hne hqueue'
    rw [hnull]
    exact hdisarmed s₁ hfaults₁ hdoHd₁
  | cons r rest =>
    rw [hqueue'] at hqueue₁
    -- what an error leads to
    have hbad (hok : ok = false) (hne : s.doHd ≠ .null) :
        Sound t (s₁.badRwIntr nullErrors).call := by
      have hfails : s.fails (.interrupt ok nullErrors) = true := by
        rw [HardDisk.fails, hok, decide_eq_true hne]
        rfl
      obtain ⟨reset, hbad⟩ := badRwIntr_spared hqueue₁ (spares_of_fails hqueue' hfails hspares)
        nullErrors
      rw [hbad]
      exact hdisarmed _ hfaults₁ hdoHd₁
    cases hhandler : s.doHd with
    | null => exact hdisarmed s₁ hfaults₁ hdoHd₁
    | read =>
      cases ok with
      | false => exact hbad rfl (by rw [hhandler]; exact Handler.noConfusion)
      | true =>
        dsimp only
        rw [HardDisk.readIntr, if_pos rfl, hqueue₁]
        dsimp only
        split_ifs
        · exact sound_of_current hfaults₁ rfl hreq₁
        · rw [endRequest_cons rfl]
          exact hdisarmed _ hfaults₁ hdoHd₁
    | write =>
      cases ok with
      | false => exact hbad rfl (by rw [hhandler]; exact Handler.noConfusion)
      | true =>
        dsimp only
        rw [HardDisk.writeIntr, if_pos rfl, hqueue₁]
        dsimp only
        split_ifs
        · exact sound_of_current hfaults₁ rfl hreq₁
        · rw [endRequest_cons rfl]
          exact hdisarmed _ hfaults₁ hdoHd₁
    | recal =>
      cases ok with
      | false => exact hbad rfl (by rw [hhandler]; exact Handler.noConfusion)
      | true => exact hdisarmed _ hfaults₁ hdoHd₁

/-- After a command an interrupt is awaited, or the controller has not asked for the data and the
command is tried again. -/
theorem sound_issue (hfaults : s.faults = []) (hqueue : s.queue = r :: rest) (hin : InRange t r)
    {ready drq : Bool} {nullErrors : ℕ} {c : Command}
    (herrors : drq = false → r.cmd = .write → r.errors + 1 < 7)
    (hs' : s.issue ready drq nullErrors r c = some s') : Sound t s' := by
  rw [HardDisk.issue] at hs'
  split at hs'
  · next hcmd =>
    obtain ⟨s₁, hs₁, hmap⟩ := Option.map_eq_some_iff.mp hs'
    have hout : s₁.faults = [] ∧ s₁.queue = r :: rest ∧ s₁.requesting = false := by
      rw [HardDisk.hdOut] at hs₁
      split_ifs at hs₁
      cases hs₁
      exact ⟨hfaults, hqueue, rfl⟩
    obtain ⟨hfaults₁, hqueue₁, hrequesting₁⟩ := hout
    rw [← hmap]
    split_ifs with hdrq
    · exact sound_of_current hfaults₁ hqueue₁ hrequesting₁
    · obtain ⟨reset, hbad⟩ := @badRwIntr_spared { s₁ with busy := .idle } r rest hqueue₁
        (herrors (eq_false_of_ne_true hdrq) hcmd) nullErrors
      rw [hbad]
      refine ⟨hfaults₁, fun _ => List.cons_ne_nil _ _, fun _ => Or.inr fun q qs hq => ?_⟩
      obtain ⟨rfl, -⟩ := List.cons.inj hq
      exact hin
  · rw [HardDisk.hdOut] at hs'
    split_ifs at hs'
    cases hs'
    exact sound_of_current hfaults hqueue rfl

/-- After a pass an interrupt is awaited for `CURRENT`. -/
theorem Sound.pass (h : Sound t s) {ready drq : Bool} {nullErrors : ℕ}
    (hrequesting : s.requesting = true)
    (hspares : s.spares (.pass ready drq nullErrors) = true)
    (hs' : s.pass t ready drq nullErrors = some s') : Sound t s' := by
  rw [HardDisk.pass] at hs'
  split at hs'
  · next hqueue =>
    cases hs'
    exact ⟨h.faults, h.armed, fun hcall => absurd hcall Bool.false_ne_true⟩
  · next r rest hqueue =>
    dsimp only at hs'
    split_ifs at hs' with hrange hdivide hreset hrecalibrate
    · cases hs'
      have hnull : s.doHd = .null := by
        rcases h.passing hrequesting with hnull | hin
        · exact hnull
        · obtain ⟨hdev, hsector⟩ := hin r rest hqueue
          omega
      rw [endRequest_cons hqueue]
      exact ⟨h.faults, fun hdoHd => absurd hnull hdoHd, fun _ => Or.inl hnull⟩
    · rw [HardDisk.hdOut] at hs'
      split_ifs at hs'
      cases hs'
      exact sound_of_current h.faults hqueue rfl
    · rw [HardDisk.hdOut] at hs'
      split_ifs at hs'
      cases hs'
      exact sound_of_current h.faults hqueue rfl
    · have hin : InRange t r := by
        rw [not_or, not_le, not_lt] at hrange
        exact hrange
      refine sound_issue h.faults hqueue hin (fun hdrq hcmd => ?_) hs'
      have hfails : s.fails (.pass ready drq nullErrors) = true := by
        rw [HardDisk.fails, hdrq, hqueue]
        exact decide_eq_true hcmd
      exact spares_of_fails hqueue hfails hspares

/-- A request is put into the queue. -/
theorem Sound.addRequest (h : Sound t s) (hrequesting : s.requesting = false) (dev : ℕ) (cmd : Cmd)
    (bh : BufferHead) (place : ℕ) : Sound t (s.addRequest dev cmd bh place) := by
  rw [HardDisk.addRequest]
  dsimp only
  split
  · next hqueue =>
    have hnull : s.doHd = .null := by
      by_contra hne
      exact h.armed hne hqueue
    exact ⟨h.faults, fun hne => absurd hnull hne, fun _ => Or.inl hnull⟩
  · next q qs hqueue =>
    exact sound_of_current h.faults rfl hrequesting

/-- A step in which no error ends a request. -/
theorem Sound.step (h : Sound t s) (hstep : SparedStep t s s') : Sound t s' := by
  obtain ⟨e, hspares, hnext⟩ := hstep
  cases e with
  | interrupt ok nullErrors =>
    rw [HardDisk.next] at hnext
    split_ifs at hnext with hrequesting
    cases hnext
    exact h.interrupt (eq_false_of_ne_true hrequesting) hspares
  | pass ready drq nullErrors =>
    rw [HardDisk.next] at hnext
    split_ifs at hnext with hrequesting
    exact h.pass hrequesting hspares hnext
  | add dev cmd bh place =>
    rw [HardDisk.next] at hnext
    split_ifs at hnext with hrequesting
    cases hnext
    exact h.addRequest (eq_false_of_ne_true hrequesting) dev cmd bh place

/-- In every run in which no error ends a request, the driver is sound. -/
theorem sound_of_spared (hrun : Reachable HardDisk.Boot (SparedStep t) s) : Sound t s := by
  refine Reachable.invariant (fun s hs => ?_) (fun s s' h hstep => h.step hstep) hrun
  refine ⟨hs.faults, fun hne => absurd hs.doHd hne, fun hcall => ?_⟩
  exact absurd (hs.requesting.symm.trans hcall) Bool.false_ne_true

end Spared

/-- The state after an event in which no error ends a request. -/
def HardDisk.spare (t : Tables) (s : HardDisk) (e : Event) : Option HardDisk :=
  if s.spares e then s.next t e else none

/-- None of six errors ends the request. -/
theorem afterSix_spared : Reachable HardDisk.Boot (SparedStep oneDisk) afterSix := by
  have hcompute : runEvents (HardDisk.spare oneDisk) diskBoot sixErrors = some afterSix := by rfl
  have hboot : Reachable HardDisk.Boot (SparedStep oneDisk) diskBoot :=
    Reachable.of_init diskBoot_boot
  refine hboot.runEvents (fun s e s' h => ?_) hcompute
  rw [HardDisk.spare] at h
  split_ifs at h with hspares
  exact ⟨e, hspares, h⟩

end LihaLinux.Hd

namespace LihaLinux

end LihaLinux
