import LihaLinux.Block.TransferSteps
import Mathlib.Tactic.IntervalCases

/-!
# Transfers of the hard disk

In every run with a controller that interrupts only for its command, a request that ends well has
transferred its two sectors, whatever errors there have been.
-/

namespace LihaLinux.Hd

section Runs

variable {t : Tables} {s s' : HardDisk}

/-- The controller interrupts only when it has a command. -/
def Answers (s : HardDisk) : Event → Prop
  | .interrupt _ _ => s.busy ≠ .idle
  | _ => True

/-- A step with a controller that answers its commands. -/
def AnswerStep (t : Tables) (s s' : HardDisk) : Prop := ∃ e, Answers s e ∧ s.next t e = some s'

/-- A step keeps the invariant, and a request that ends well has been transferred. -/
theorem Inv.step (ht : t.Valid) (h : Inv t s) (hstep : AnswerStep t s s') :
    Inv t s' ∧ EndsWell t s s' := by
  obtain ⟨e, hanswers, hnext⟩ := hstep
  cases e with
  | interrupt ok nullErrors =>
    rw [HardDisk.next] at hnext
    split_ifs at hnext with hrequesting
    cases hnext
    exact h.interrupt (Bool.not_eq_true _ ▸ hrequesting) hanswers ok nullErrors
  | pass ready drq nullErrors =>
    rw [HardDisk.next] at hnext
    split_ifs at hnext with hrequesting
    obtain ⟨hinv, hwell⟩ := h.pass ht hrequesting hnext
    exact ⟨hinv, hwell.endsWell⟩
  | add dev cmd bh place =>
    rw [HardDisk.next] at hnext
    split_ifs at hnext with hrequesting
    cases hnext
    have hfalse : s.requesting = false := by simpa using hrequesting
    have hended : (s.addRequest dev cmd bh place).ended = s.ended := by
      rw [HardDisk.addRequest]
      split <;> rfl
    exact ⟨h.addRequest hfalse dev cmd bh place, NotWell.endsWell (Or.inl hended)⟩

theorem HardDisk.Boot.inv (h : s.Boot) : Inv t s := by
  refine ⟨⟨?_, ?_, ?_, ?_, ?_, ?_⟩, ?_, ?_, ?_, ?_⟩
  · rw [h.queue, h.ended]
    exact List.nodup_nil
  · rw [h.queue, h.ended]
    exact fun i hi => absurd hi List.not_mem_nil
  · rw [h.outcomes]
    exact fun o ho => absurd ho List.not_mem_nil
  · rw [h.queue]
    exact fun r hr => absurd hr List.not_mem_nil
  · rw [h.queue]
    exact fun r hr => absurd hr List.not_mem_nil
  · rw [h.commands]
    exact fun c hc => absurd hc List.not_mem_nil
  · intro r rest hr
    exact absurd (h.queue.symm.trans hr).symm (List.cons_ne_nil r rest)
  · exact fun _ => h.busy
  · exact fun _ => h.busy
  · intro _ r rest hr
    exact absurd (h.queue.symm.trans hr).symm (List.cons_ne_nil r rest)

/-- In every run a request for a block of a partition that ends well has been transferred, the
commands for it are for its two sectors only, and it is ended once at most. -/
theorem transfers_exact (ht : t.Valid)
    (hrun : Reachable HardDisk.Boot (AnswerStep t) s) (hstep : AnswerStep t s s') :
    (∀ r, s'.ended = (r, true) :: s.ended → InPartition t r → Transferred t s' r) ∧
      (∀ c ∈ s'.commands, InPartition t c.request → Addresses t c) ∧
      (s'.ended.map (·.1.id)).Nodup := by
  have hinv : Inv t s := Reachable.invariant (P := Inv t) (fun _ h => h.inv)
    (fun _ _ h hs => (h.step ht hs).1) hrun
  obtain ⟨hinv', hends⟩ := hinv.step ht hstep
  exact ⟨hends, hinv'.outer.commands, hinv'.outer.ids.of_append_right⟩

/-- The controller has a command. -/
def Busy.isBusy : Busy → Bool
  | idle => false
  | _ => true

/-- The state after an event, with a controller that answers its commands. -/
def HardDisk.answer (t : Tables) (s : HardDisk) : Event → Option HardDisk
  | .interrupt ok nullErrors =>
    if s.busy.isBusy then s.next t (.interrupt ok nullErrors) else none
  | .pass ready drq nullErrors => s.next t (.pass ready drq nullErrors)
  | .add dev cmd bh place => s.next t (.add dev cmd bh place)

theorem answers_of_answer {e : Event} (h : s.answer t e = some s') :
    Answers s e ∧ s.next t e = some s' := by
  cases e with
  | interrupt ok nullErrors =>
    rw [HardDisk.answer] at h
    split_ifs at h with hbusy
    refine ⟨fun hidle => ?_, h⟩
    rw [hidle] at hbusy
    exact Bool.false_ne_true hbusy
  | pass ready drq nullErrors => exact ⟨True.intro, h⟩
  | add dev cmd bh place => exact ⟨True.intro, h⟩

theorem AnswerStep.of_answer {e : Event} (h : s.answer t e = some s') : AnswerStep t s s' :=
  ⟨e, answers_of_answer h⟩

/-- One disk of ten cylinders, which is one partition. -/
def oneDisk : Tables where
  hdInfo := fun _ => ⟨2, 17, 10⟩
  hd := fun dev => if dev = 0 then ⟨0, 340⟩ else ⟨0, 0⟩
  nrHd := 1

/-- The driver before the first request. -/
def diskBoot : HardDisk where
  queue := []
  doHd := .null
  reset := true
  recalibrate := true
  requesting := false
  busy := .idle
  port := fun _ => 0
  mem := fun _ => 0
  disk := fun _ sector _ => BitVec.ofNat 8 sector
  nextId := 0
  commands := []
  outcomes := []
  ended := []
  faults := []

theorem oneDisk_valid : oneDisk.Valid := by
  have hsect : 17 ≤ 255 := by decide
  have hhead : 2 ≤ 255 := by decide
  have hcyl : 10 ≤ 65535 := by decide
  refine ⟨by decide, fun _ => hsect, fun _ => hhead, fun _ => hcyl, fun dev hdev => ?_⟩
  change dev < 5 at hdev
  interval_cases dev <;> decide

theorem diskBoot_boot : diskBoot.Boot := ⟨rfl, rfl, rfl, rfl, rfl, rfl, rfl, rfl⟩

/-- A request of the partition, in which the second sector fails. -/
def secondFails (cmd : Cmd) (blocknr : ℕ) : List Event :=
  [.add 0 cmd ⟨blocknr, 4096⟩ 0, .pass true true 0, .interrupt true 0, .pass true true 0,
    .interrupt true 0, .pass true true 0, .interrupt true 0, .interrupt false 0]

/-- The state in which the second sector of block 5 is read again. -/
def readAgain : HardDisk :=
  (runEvents (HardDisk.answer oneDisk) diskBoot
    (secondFails .read 5 ++ [.pass true true 0])).getD diskBoot

/-- A run with an error in the second sector ends well. -/
theorem transfers_exact_readAgain :
    ∃ s' r, AnswerStep oneDisk readAgain s' ∧ s'.ended = [(r, true)] ∧
      Transferred oneDisk s' r := by
  have hcompute : runEvents (HardDisk.answer oneDisk) diskBoot
      (secondFails .read 5 ++ [.pass true true 0]) = some readAgain := by rfl
  have hboot : Reachable HardDisk.Boot (AnswerStep oneDisk) diskBoot :=
    Reachable.of_init diskBoot_boot
  have hnext : ∀ s e s', HardDisk.answer oneDisk s e = some s' → AnswerStep oneDisk s s' :=
    fun _ _ _ h => AnswerStep.of_answer h
  have hrun := hboot.runEvents hnext hcompute
  have hanswer : readAgain.answer oneDisk (.interrupt true 0) =
      some (readAgain.interrupt oneDisk true 0) := by rfl
  have hstep := AnswerStep.of_answer hanswer
  have hexact := transfers_exact oneDisk_valid hrun hstep
  obtain ⟨r, hr, hin⟩ : ∃ r, (readAgain.interrupt oneDisk true 0).ended = [(r, true)] ∧
      InPartition oneDisk r := by
    refine ⟨_, by rfl, ?_⟩
    change 0 < 5 ∧ 2 * 5 + 2 ≤ 340
    decide
  refine ⟨_, r, hstep, hr, hexact.1 r ?_ hin⟩
  rw [hr]
  rfl

end Runs

end LihaLinux.Hd
