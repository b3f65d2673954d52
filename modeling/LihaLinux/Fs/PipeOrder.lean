import LihaLinux.Fs.PipeFifo
import Mathlib.Data.Fintype.Defs
import Mathlib.Data.Fintype.Sets

/-!
# Suspension inside the copy loops of a pipe

`get_fs_byte` and `put_fs_byte` can fault, and the task then sleeps in `do_no_page`
while the indices of the pipe have moved already. A writer that is suspended so has
published bytes that it has not stored; a reader has released bytes that it has not
read. The condition under which neither can be seen is a condition on the faults and on
the readers that run meanwhile.
-/

namespace LihaLinux.Fs

/-- The cells of the copy loop that are still to be copied: the first one, and how many. -/
def PipeAt.rest : PipeAt → ℕ × ℕ
  | .loop => (0, 0)
  | .copy i k => (i, k)
  | .put _ i k => (i, k)

/-- A cell of the ring that a call has claimed and has not copied yet. -/
def PipeCall.Claims (c : PipeCall) (i : ℕ) : Prop :=
  c.pos.rest.1 ≤ i ∧ i < c.pos.rest.1 + c.pos.rest.2

/-- A cell between `PIPE_TAIL` and `PIPE_HEAD`. -/
def Pipe.InUse (p : Pipe) (i : ℕ) : Prop := i < 4096 ∧ (i + 4096 - p.tail) % 4096 < p.size

/-- A cell that `write_pipe` may claim: one of the `(PAGE_SIZE-1)-PIPE_SIZE` cells from
`PIPE_HEAD` on. -/
def Pipe.Free (p : Pipe) (i : ℕ) : Prop := i < 4096 ∧ (i + 4096 - p.head) % 4096 < 4095 - p.size

/-- Every byte of the ring in use has been stored by its writer, and no byte that a reader
has claimed and not copied out can be overwritten by a writer, neither by one in its copy
loop nor by a new claim. -/
structure PipeSystem.Published {τ : Type*} (s : PipeSystem τ) : Prop where
  stored : ∀ i, s.pipe.InUse i → ∀ t c, s.call t = some c → c.fn = .writePipe → ¬ c.Claims i
  kept : ∀ i t c, s.call t = some c → c.fn = .readPipe → c.Claims i →
    ¬ s.pipe.Free i ∧ ∀ u d, s.call u = some d → d.fn = .writePipe → ¬ d.Claims i

/-- The steps of the tasks, suspended wherever they can be. -/
def FaultStep {τ : Type*} [DecidableEq τ] (s s' : PipeSystem τ) : Prop := ∃ e, PipeStep s e s'

/-- An action that moves an index of the pipe. -/
def PipeAction.isClaim : PipeAction → Bool
  | .claim _ => true
  | _ => false

/-- The condition on an event: no writer is suspended in its copy loop, a reader only with
at most one byte of its chunk unread, and no reader claims bytes while another one is
suspended with a byte unread. -/
def PipeSystem.Careful {τ : Type*} (s : PipeSystem τ) : PipeEvent τ → Prop
  | .fault t => ∀ c ∈ s.call t, c.fn = .readPipe ∧ c.pos.rest.2 ≤ 1
  | .exec t => ∀ c ∈ s.call t, c.fn = .readPipe → (c.next s.pipe).isClaim →
      ∀ u, u ≠ t → ∀ d ∈ s.call u, d.fn = .readPipe → d.pos.rest.2 = 0
  | _ => True

instance {τ : Type*} [DecidableEq τ] [Fintype τ] (s : PipeSystem τ) (e : PipeEvent τ) :
    Decidable (s.Careful e) := by
  cases e <;> unfold PipeSystem.Careful <;> infer_instance

/-- The steps whose event meets the condition. -/
def CarefulStep {τ : Type*} [DecidableEq τ] (s s' : PipeSystem τ) : Prop :=
  ∃ e, PipeStep s e s' ∧ s.Careful e

/-- The invariant of the careful runs. -/
structure OrderInv {τ : Type*} (s : PipeSystem τ) : Prop where
  inPage : s.pipe.InPage
  writers : ∀ t c, s.call t = some c → c.fn = .writePipe → s.current ≠ some t →
    c.pos.rest.2 = 0
  readers : ∀ t c, s.call t = some c → c.fn = .readPipe → 0 < c.pos.rest.2 →
    c.pos.rest.1 + c.pos.rest.2 ≤ 4096 ∧ (c.pos.rest.1 + c.pos.rest.2) % 4096 = s.pipe.tail ∧
      (s.current ≠ some t → c.pos.rest.2 ≤ 1)

namespace OrderInv

variable {τ : Type*} {s : PipeSystem τ}

/-- A new pipe satisfies the invariant. -/
theorem of_boot (h : PipeBoot s) : OrderInv s := by
  constructor
  · exact ⟨by rw [h.head]; decide, by rw [h.tail]; decide⟩
  · intro t c hc
    rw [h.call t] at hc
    cases hc
  · intro t c hc
    rw [h.call t] at hc
    cases hc

/-- When no task runs, the invariant gives the property. -/
theorem published (h : OrderInv s) (hcurrent : s.current = none) : s.Published := by
  have hwriters : ∀ i t c, s.call t = some c → c.fn = .writePipe → ¬ c.Claims i := by
    intro i t c hc hfn hclaims
    have hrest := h.writers t c hc hfn (by simp [hcurrent])
    unfold PipeCall.Claims at hclaims
    omega
  constructor
  · intro i _ t c hc hfn
    exact hwriters i t c hc hfn
  · intro i t c hc hfn hclaims
    refine ⟨?_, fun u d hd hfn' => hwriters i u d hd hfn'⟩
    unfold PipeCall.Claims at hclaims
    obtain ⟨hend, htail, hone⟩ := h.readers t c hc hfn (by omega)
    have hrest := hone (by simp [hcurrent])
    have hhead := h.inPage.head
    have hring := h.inPage.tail_add_size
    have hle := s.pipe.size_le
    unfold Pipe.Free
    omega

/-- A step that keeps the tail and leaves every call at most where it stood, with no more
to copy, keeps the invariant, if the calls left behind have little to copy. -/
theorem of_rest {s' : PipeSystem τ} (h : OrderInv s) (hpage : s'.pipe.InPage)
    (htail : s'.pipe.tail = s.pipe.tail)
    (hcall : ∀ t c', s'.call t = some c' → c'.pos.rest.2 = 0 ∨ ∃ c, s.call t = some c ∧
      c'.fn = c.fn ∧ c'.pos.rest.1 + c'.pos.rest.2 = c.pos.rest.1 + c.pos.rest.2 ∧
      c'.pos.rest.2 ≤ c.pos.rest.2 ∧
      (s'.current ≠ some t → s.current ≠ some t ∨ c.fn = .readPipe ∧ c.pos.rest.2 ≤ 1)) :
    OrderInv s' := by
  constructor
  · exact hpage
  · intro t c' hc' hfn ht
    rcases hcall t c' hc' with hzero | ⟨c, hc, hfn', -, hle, hleft⟩
    · exact hzero
    · rcases hleft ht with hold | ⟨hread, -⟩
      · have hrest := h.writers t c hc (hfn' ▸ hfn) hold
        omega
      · rw [hfn', hread] at hfn
        cases hfn
  · intro t c' hc' hfn hpos
    rcases hcall t c' hc' with hzero | ⟨c, hc, hfn', hsum, hle, hleft⟩
    · omega
    · obtain ⟨hend, hmod, hone⟩ := h.readers t c hc (hfn' ▸ hfn) (by omega)
      refine ⟨by omega, by rw [hsum, htail]; exact hmod, fun ht => ?_⟩
      rcases hleft ht with hold | ⟨-, hfew⟩
      · have := hone hold
        omega
      · omega

variable [DecidableEq τ]

/-- The running task replaces its call, with no more to copy. -/
theorem put (h : OrderInv s) {t : τ} {c c' : PipeCall} (ht : s.current = some t)
    (hc : s.call t = some c) {p : Pipe} {accepted delivered : List (BitVec 8)} (hpage : p.InPage)
    (htail : p.tail = s.pipe.tail) (hfn : c'.fn = c.fn)
    (hrest : c'.pos.rest.2 = 0 ∨ c'.pos.rest.1 + c'.pos.rest.2 = c.pos.rest.1 + c.pos.rest.2 ∧
      c'.pos.rest.2 ≤ c.pos.rest.2) : OrderInv (s.put t c' p accepted delivered) := by
  apply h.of_rest
  · exact hpage
  · exact htail
  · intro u d hd
    by_cases hu : u = t
    · subst u
      simp only [PipeSystem.put, PipeSystem.setCall, if_true, Option.some.injEq] at hd
      subst d
      rcases hrest with hzero | ⟨hsum, hle⟩
      · exact .inl hzero
      · exact .inr ⟨c, hc, hfn, hsum, hle, fun hne => absurd ht hne⟩
    · simp only [PipeSystem.put, PipeSystem.setCall, hu, if_false] at hd
      exact .inr ⟨d, hd, rfl, rfl, le_rfl, fun hne => .inl hne⟩

/-- The running task leaves its call or is suspended at the loop test. -/
theorem stop (h : OrderInv s) {t : τ} {c : PipeCall} (ht : s.current = some t)
    (hpos : c.pos = .loop) {call : τ → Option PipeCall}
    (hcall : ∀ u, u ≠ t → call u = s.call u) (hown : call t = none ∨ call t = some c) :
    OrderInv { s with call := call, current := none } := by
  apply h.of_rest
  · exact h.inPage
  · rfl
  · intro u d hd
    by_cases hu : u = t
    · subst u
      rcases hown with hnone | hsame
      · simp [hnone] at hd
      · simp only [hsame, Option.some.injEq] at hd
        subst d
        exact .inl (by simp [hpos, PipeAt.rest])
    · simp only [hcall u hu] at hd
      refine .inr ⟨d, hd, rfl, rfl, le_rfl, fun _ => .inl ?_⟩
      rw [ht]
      exact fun heq => hu (Option.some.inj heq).symm

/-- A writer claims room: the tail stays where it is. -/
theorem claim_write (h : OrderInv s) {t : τ} {c : PipeCall} {chars : ℕ} (ht : s.current = some t)
    (hfn : c.fn = .writePipe) : OrderInv (s.perform t c (.claim chars)) := by
  have hperform : s.perform t c (.claim chars) =
      s.put t { c with
        count := c.count - chars
        done := c.done + chars
        pos := .copy s.pipe.head chars } (s.pipe.advanceHead chars) s.accepted s.delivered := by
    simp only [PipeSystem.perform, hfn]
    rfl
  rw [hperform]
  constructor
  · exact h.inPage.advanceHead chars
  · intro u d hd hfn' hu
    have hne : u ≠ t := by
      rintro rfl
      exact hu ht
    simp only [PipeSystem.put, PipeSystem.setCall, hne, if_false] at hd
    exact h.writers u d hd hfn' hu
  · intro u d hd hfn' hrest
    by_cases hne : u = t
    · simp only [PipeSystem.put, PipeSystem.setCall, hne, if_true, Option.some.injEq] at hd
      subst d
      simp [hfn] at hfn'
    · simp only [PipeSystem.put, PipeSystem.setCall, hne, if_false] at hd
      exact h.readers u d hd hfn' hrest

/-- A reader claims bytes while no other reader has a byte left to read. -/
theorem claim_read (h : OrderInv s) {t : τ} {c : PipeCall} {chars : ℕ} (ht : s.current = some t)
    (hfn : c.fn = .readPipe) (hpage : chars ≤ 4096 - s.pipe.tail)
    (hothers : ∀ u d, u ≠ t → s.call u = some d → d.fn = .readPipe → d.pos.rest.2 = 0) :
    OrderInv (s.perform t c (.claim chars)) := by
  have hperform : s.perform t c (.claim chars) =
      s.put t { c with
        count := c.count - chars
        done := c.done + chars
        pos := .copy s.pipe.tail chars } (s.pipe.advanceTail chars) s.accepted s.delivered := by
    simp only [PipeSystem.perform, hfn]
    rfl
  rw [hperform]
  constructor
  · exact h.inPage.advanceTail chars
  · intro u d hd hfn' hu
    have hne : u ≠ t := by
      rintro rfl
      exact hu ht
    simp only [PipeSystem.put, PipeSystem.setCall, hne, if_false] at hd
    exact h.writers u d hd hfn' hu
  · intro u d hd hfn' hrest
    by_cases hne : u = t
    · subst u
      simp only [PipeSystem.put, PipeSystem.setCall, if_true, Option.some.injEq] at hd
      subst d
      have hbound := h.inPage.tail
      refine ⟨by simp only [PipeAt.rest]; omega, ?_, fun hu => absurd ht hu⟩
      simp only [PipeAt.rest, PipeSystem.put, Pipe.advanceTail, pageSize]
      omega
    · simp only [PipeSystem.put, PipeSystem.setCall, hne, if_false] at hd
      have := hothers u d hne hd hfn'
      omega

/-- Every careful action of the running task keeps the invariant. -/
theorem exec (h : OrderInv s) {t : τ} {c : PipeCall} (ht : s.current = some t)
    (hc : s.call t = some c) (hcareful : s.Careful (.exec t)) :
    OrderInv (s.perform t c (c.next s.pipe)) := by
  have hleave : c.pos = .loop → OrderInv (s.setCall t none).switch := by
    intro hpos
    apply h.stop ht hpos
    · intro u hu
      exact if_neg hu
    · exact .inl (if_pos rfl)
  have hsleep : c.pos = .loop → OrderInv s.switch := by
    intro hpos
    apply h.stop ht hpos
    · intro u _
      rfl
    · exact .inr hc
  have hend : OrderInv (s.perform t c .leave) := by
    apply h.put ht hc
    · exact h.inPage
    · rfl
    · rfl
    · exact .inl rfl
  cases hfn : c.fn with
  | readPipe =>
    have hclaim := hcareful c hc hfn
    rw [PipeCall.next_read hfn] at hclaim ⊢
    cases hpos : c.pos with
    | loop =>
      simp only [readPipe, hpos] at hclaim ⊢
      split_ifs at hclaim ⊢ with hcount hempty hwriters
      · exact hleave hpos
      · exact hleave hpos
      · exact hsleep hpos
      · apply h.claim_read ht hfn
        · simp only [pageSize]
          omega
        · intro u d hu hd
          exact hclaim rfl u hu d hd
    | copy i k =>
      cases k with
      | zero =>
        simp only [readPipe, hpos]
        exact hend
      | succ k =>
        simp only [readPipe, hpos]
        apply h.put ht hc
        · exact h.inPage
        · rfl
        · rfl
        · simp only [hpos, PipeAt.rest]
          omega
    | put b i k =>
      simp only [readPipe, hpos]
      apply h.put ht hc
      · exact h.inPage
      · rfl
      · rfl
      · rw [hpos]
        exact .inr ⟨rfl, le_rfl⟩
  | writePipe =>
    rw [PipeCall.next_write hfn]
    cases hpos : c.pos with
    | loop =>
      simp only [writePipe, hpos]
      split_ifs with hcount hfull hreaders hwritten
      · exact hleave hpos
      · exact hleave hpos
      · exact hleave hpos
      · exact hsleep hpos
      · exact h.claim_write ht hfn
    | copy i k =>
      cases k with
      | zero =>
        simp only [writePipe, hpos]
        exact hend
      | succ k =>
        simp only [writePipe, hpos]
        apply h.put ht hc
        · exact h.inPage.store i _
        · rfl
        · rfl
        · simp only [hpos, PipeAt.rest]
          omega
    | put b i k =>
      simp only [writePipe, hpos]
      exact hend

/-- Every careful step keeps the invariant. -/
theorem step (h : OrderInv s) {s' : PipeSystem τ} (hstep : CarefulStep s s') : OrderInv s' := by
  obtain ⟨e, hstep, hcareful⟩ := hstep
  cases hstep with
  | @enter t fn buf count hcurrent hcall =>
    apply h.of_rest
    · exact h.inPage
    · rfl
    · intro u d hd
      by_cases hu : u = t
      · simp only [PipeSystem.setCall, hu, if_true, Option.some.injEq] at hd
        subst d
        exact .inl rfl
      · simp only [PipeSystem.setCall, hu, if_false] at hd
        exact .inr ⟨d, hd, rfl, rfl, le_rfl, fun _ => .inl (by simp [hcurrent])⟩
  | resume hcurrent hcall =>
    apply h.of_rest
    · exact h.inPage
    · rfl
    · intro u d hd
      exact .inr ⟨d, hd, rfl, rfl, le_rfl, fun _ => .inl (by simp [hcurrent])⟩
  | exec hcurrent hcall => exact h.exec hcurrent hcall hcareful
  | @fault t c hcurrent hcall hbyte =>
    apply h.of_rest
    · exact h.inPage
    · rfl
    · intro u d hd
      refine .inr ⟨d, hd, rfl, rfl, le_rfl, fun _ => ?_⟩
      by_cases hu : u = t
      · subst u
        exact .inr (hcareful d hd)
      · left
        rw [hcurrent]
        exact fun heq => hu (Option.some.inj heq).symm
  | count hcurrent =>
    apply h.of_rest
    · exact ⟨h.inPage.head, h.inPage.tail⟩
    · rfl
    · intro u d hd
      exact .inr ⟨d, hd, rfl, rfl, le_rfl, fun _ => .inl (by simp [hcurrent])⟩

end OrderInv

/-- In every run whose events meet the condition, at every point where the tasks are
suspended, every byte between `PIPE_TAIL` and `PIPE_HEAD` is stored, and no byte claimed by
a reader can be overwritten before it is read. -/
theorem pipe_published {τ : Type*} [DecidableEq τ] {s : PipeSystem τ}
    (h : Reachable PipeBoot CarefulStep s) (hcurrent : s.current = none) : s.Published := by
  have hinv : OrderInv s := Reachable.invariant (P := OrderInv) (fun _ => OrderInv.of_boot)
    (fun _ _ h hstep => h.step hstep) h
  exact hinv.published hcurrent

/-- A writer of two bytes, then a reader of two that is suspended in the copy of the first. -/
def orderSample : List (PipeEvent Bool) :=
  [.enter true .writePipe (fun _ => 7) 2, .exec true, .exec true, .exec true, .exec true,
    .exec true, .enter false .readPipe (fun _ => 0) 2, .exec false, .exec false, .fault false]

/-- The state after an event that meets the condition. -/
def PipeSystem.carefulStep {τ : Type*} [DecidableEq τ] [Fintype τ] (s : PipeSystem τ)
    (e : PipeEvent τ) : Option (PipeSystem τ) :=
  if s.Careful e then s.step e else none

/-- The executable form of the careful steps is sound. -/
theorem CarefulStep.of_carefulStep {τ : Type*} [DecidableEq τ] [Fintype τ] (s : PipeSystem τ)
    (e : PipeEvent τ) (s' : PipeSystem τ) (h : s.carefulStep e = some s') : CarefulStep s s' := by
  simp only [PipeSystem.carefulStep, Option.ite_none_right_eq_some] at h
  exact ⟨e, .of_step h.2, h.1⟩

/-- The theorem at the end of a run in which a reader is suspended with its last byte unread:
the cell of that byte, the second one, is not free. -/
theorem pipe_published_sample : ∃ s : PipeSystem Bool,
    runEvents PipeSystem.carefulStep (.boot Bool) orderSample = some s ∧ s.Published ∧
      ¬ s.pipe.Free 1 := by
  have hsome : (runEvents PipeSystem.carefulStep (.boot Bool) orderSample).isSome := by
    decide +kernel
  obtain ⟨s, hs⟩ := Option.isSome_iff_exists.mp hsome
  have hreach : Reachable PipeBoot CarefulStep s :=
    (Reachable.of_init (PipeSystem.boot_init Bool)).runEvents CarefulStep.of_carefulStep hs
  have hfacts : (runEvents PipeSystem.carefulStep (.boot Bool) orderSample).bind (fun s =>
      (s.call false).map fun c => (s.current, c.fn, c.pos)) =
      some (none, .readPipe, .put 7 1 1) := by decide +kernel
  simp only [hs, Option.bind_some, Option.map_eq_some_iff, Prod.mk.injEq] at hfacts
  obtain ⟨c, hc, hcurrent, hfn, hpos⟩ := hfacts
  have hpublished := pipe_published hreach hcurrent
  refine ⟨s, hs, hpublished, (hpublished.kept 1 false c hc hfn ?_).1⟩
  simp [PipeCall.Claims, hpos, PipeAt.rest]

/-- A writer that is suspended in `get_fs_byte` has published a byte that it has not
stored. -/
theorem writePipe_unstored : ¬ ∀ s : PipeSystem Bool, Reachable PipeBoot FaultStep s →
    s.current = none → s.Published := by
  intro hclaim
  let es : List (PipeEvent Bool) :=
    [.enter true .writePipe (fun _ => 7) 1, .exec true, .fault true]
  have hsome : (runEvents PipeSystem.step (.boot Bool) es).isSome := by decide +kernel
  obtain ⟨s, hs⟩ := Option.isSome_iff_exists.mp hsome
  have hreach : Reachable PipeBoot FaultStep s :=
    (Reachable.of_init (PipeSystem.boot_init Bool)).runEvents
      (fun _ e _ hstep => ⟨e, .of_step hstep⟩) hs
  have hfacts : (runEvents PipeSystem.step (.boot Bool) es).bind (fun s =>
      (s.call true).map fun c => (s.current, s.pipe.head, s.pipe.tail, c.fn, c.pos)) =
      some (none, 1, 0, .writePipe, .copy 0 1) := by decide +kernel
  simp only [hs, Option.bind_some, Option.map_eq_some_iff, Prod.mk.injEq] at hfacts
  obtain ⟨c, hc, hcurrent, hhead, htail, hfn, hpos⟩ := hfacts
  have hinuse : s.pipe.InUse 0 := by
    simp [Pipe.InUse, Pipe.size, hhead, htail, pageSize]
  apply (hclaim s hreach hcurrent).stored 0 hinuse true c hc hfn
  simp [PipeCall.Claims, hpos, PipeAt.rest]

end LihaLinux.Fs
