import LihaLinux.Fs.Pipe
import Mathlib.Tactic.Linarith

/-!
# A pipe is a bounded queue

The bytes of the ring between `PIPE_TAIL` and `PIPE_HEAD` are the accepted bytes
that are not delivered yet. While a call copies, the bytes it has claimed are
accounted for by the place where it stands.
-/

namespace LihaLinux.Fs

namespace Pipe

/-- Both indices lie in the page. -/
structure InPage (p : Pipe) : Prop where
  head : p.head < 4096
  tail : p.tail < 4096

/-- The bytes in the pipe, oldest first. -/
def bytes (p : Pipe) : List (BitVec 8) := ringSegment pageSize p.page p.tail p.size

/-- One cell of the ring stays unused. -/
theorem size_le (p : Pipe) : p.size ≤ 4095 := by
  unfold size pageSize
  omega

/-- The head lies `PIPE_SIZE` cells after the tail. -/
theorem InPage.tail_add_size {p : Pipe} (h : p.InPage) : (p.tail + p.size) % 4096 = p.head := by
  have hhead := h.head
  have htail := h.tail
  unfold size pageSize
  omega

/-- Taking bytes at the tail. -/
theorem InPage.size_advanceTail {p : Pipe} (h : p.InPage) {chars : ℕ} (hchars : chars ≤ p.size) :
    (p.advanceTail chars).size = p.size - chars := by
  have hhead := h.head
  have htail := h.tail
  unfold size pageSize at hchars
  unfold advanceTail size pageSize
  simp only
  omega

/-- Adding bytes at the head. -/
theorem InPage.size_advanceHead {p : Pipe} (h : p.InPage) {chars : ℕ}
    (hchars : p.size + chars ≤ 4095) : (p.advanceHead chars).size = p.size + chars := by
  have hhead := h.head
  have htail := h.tail
  unfold size pageSize at hchars
  unfold advanceHead size pageSize
  simp only
  omega

theorem InPage.advanceTail {p : Pipe} (h : p.InPage) (chars : ℕ) :
    (p.advanceTail chars).InPage := by
  constructor
  · exact h.head
  · exact Nat.mod_lt _ (by decide)

theorem InPage.advanceHead {p : Pipe} (h : p.InPage) (chars : ℕ) :
    (p.advanceHead chars).InPage := by
  constructor
  · exact Nat.mod_lt _ (by decide)
  · exact h.tail

theorem InPage.store {p : Pipe} (h : p.InPage) (i : ℕ) (b : BitVec 8) : (p.store i b).InPage :=
  ⟨h.head, h.tail⟩

@[simp]
theorem size_store (p : Pipe) (i : ℕ) (b : BitVec 8) : (p.store i b).size = p.size := rfl

/-- The claimed bytes of a reader are split off the queue. -/
theorem InPage.bytes_advanceTail {p : Pipe} (h : p.InPage) {chars : ℕ} (hchars : chars ≤ p.size) :
    p.bytes = ringSegment pageSize p.page p.tail chars ++ (p.advanceTail chars).bytes := by
  have htail : (p.advanceTail chars).tail = (p.tail + chars) % pageSize := by
    have hbound := h.tail
    have hsize := p.size_le
    unfold Pipe.advanceTail pageSize
    simp only
    omega
  have hpage : (p.advanceTail chars).page = p.page := rfl
  unfold bytes
  rw [h.size_advanceTail hchars, htail, hpage, ringSegment_mod, ← ringSegment_add,
    Nat.add_sub_cancel' hchars]

/-- A byte stored just behind the stored part of the queue extends it. -/
theorem ringSegment_store {p : Pipe} {i n : ℕ} (hi : i = (p.tail + n) % 4096) (hn : n ≤ 4095)
    (b : BitVec 8) : ringSegment pageSize (p.store i b).page p.tail (n + 1) =
      ringSegment pageSize p.page p.tail n ++ [b] := by
  rw [ringSegment_succ_last]
  have hlast : (p.store i b).page ((p.tail + n) % pageSize) = b := by
    simp [Pipe.store, hi, pageSize]
  rw [hlast]
  congr 1
  apply ringSegment_congr
  intro j hj
  have hne : (p.tail + j) % pageSize ≠ i := by
    unfold pageSize
    omega
  simp [Pipe.store, hne]

end Pipe

/-! ### The account of one call -/

/-- The bytes a call has claimed and not copied yet. -/
def PipeAt.pending : PipeAt → ℕ
  | .loop => 0
  | .copy _ chars => chars
  | .put _ _ chars => chars + 1

/-- The variables of a call agree with the bytes it has copied. -/
structure PipeCall.Counts (c : PipeCall) : Prop where
  count : c.count + c.done = c.requested
  done : c.done = c.moved.length + c.pos.pending
  buf : c.fn = .writePipe → c.moved = (List.range c.moved.length).map c.buf

/-- A new call has copied nothing. -/
theorem PipeCall.counts_enter (fn : PipeFn) (buf : ℕ → BitVec 8) (count : ℤ) :
    (PipeCall.enter fn buf count).Counts := by
  constructor <;> simp [PipeCall.enter, PipeAt.pending]

/-- The accepted bytes, seen from the place where the running call stands. -/
def PipeCall.Flows (p : Pipe) (accepted delivered : List (BitVec 8)) (c : PipeCall) : Prop :=
  match c.fn, c.pos with
  | _, .loop => accepted = delivered ++ p.bytes
  | .readPipe, .copy i k =>
    i + k ≤ 4096 ∧ k + p.size ≤ 4095 ∧
      accepted = delivered ++ (ringSegment pageSize p.page i k ++ p.bytes)
  | .readPipe, .put b i k =>
    i + k ≤ 4096 ∧ k + 1 + p.size ≤ 4095 ∧
      accepted = delivered ++ (b :: (ringSegment pageSize p.page i k ++ p.bytes))
  | .writePipe, .copy i k =>
    i + k ≤ 4096 ∧ k ≤ p.size ∧ (i + k) % 4096 = p.head ∧
      accepted = delivered ++ ringSegment pageSize p.page p.tail (p.size - k)
  | .writePipe, .put _ _ _ => False

/-! ### The steps of a call -/

/-- What `next` can be, for a reader. -/
theorem PipeCall.next_read {p : Pipe} {c : PipeCall} (hfn : c.fn = .readPipe) :
    c.next p = readPipe p c := by
  simp [PipeCall.next, hfn]

/-- What `next` can be, for a writer. -/
theorem PipeCall.next_write {p : Pipe} {c : PipeCall} (hfn : c.fn = .writePipe) :
    c.next p = writePipe p c := by
  simp [PipeCall.next, hfn]

/-- The state after the running task has replaced its call and the pipe. -/
def PipeSystem.put {τ : Type*} [DecidableEq τ] (s : PipeSystem τ) (t : τ) (c : PipeCall) (p : Pipe)
    (accepted delivered : List (BitVec 8)) : PipeSystem τ :=
  { s.setCall t (some c) with pipe := p, accepted := accepted, delivered := delivered }

/-- The invariant of the tasks on a pipe, when they switch at `sleep_on` only. -/
structure PipeInv {τ : Type*} (s : PipeSystem τ) : Prop where
  inPage : s.pipe.InPage
  counts : ∀ t c, s.call t = some c → c.Counts
  running : ∀ t, s.current = some t → (s.call t).isSome
  asleep : ∀ t c, s.call t = some c → s.current ≠ some t → c.pos = .loop
  idle : s.current = none → s.accepted = s.delivered ++ s.pipe.bytes
  flows : ∀ t c, s.current = some t → s.call t = some c →
    c.Flows s.pipe s.accepted s.delivered

namespace PipeInv

variable {τ : Type*} {s : PipeSystem τ}

/-- A new pipe satisfies the invariant. -/
theorem of_boot (h : PipeBoot s) : PipeInv s := by
  constructor
  · exact ⟨by rw [h.head]; decide, by rw [h.tail]; decide⟩
  · intro t c hc
    rw [h.call t] at hc
    cases hc
  · intro t ht
    rw [h.current] at ht
    cases ht
  · intro t c hc
    rw [h.call t] at hc
    cases hc
  · intro _
    rw [h.accepted, h.delivered]
    simp [Pipe.bytes, Pipe.size, h.head, h.tail]
  · intro t c ht
    rw [h.current] at ht
    cases ht

variable [DecidableEq τ]

/-- The running task goes on: its own call and the pipe have to be looked at. -/
theorem put (h : PipeInv s) {t : τ} (ht : s.current = some t) {c : PipeCall} {p : Pipe}
    {accepted delivered : List (BitVec 8)} (hp : p.InPage) (hcounts : c.Counts)
    (hflows : c.Flows p accepted delivered) : PipeInv (s.put t c p accepted delivered) := by
  constructor
  · exact hp
  · intro u d hd
    by_cases hu : u = t
    · subst u
      simp only [PipeSystem.put, PipeSystem.setCall, if_true, Option.some.injEq] at hd
      rwa [← hd]
    · simp only [PipeSystem.put, PipeSystem.setCall, hu, if_false] at hd
      exact h.counts u d hd
  · intro u hu
    rw [show (s.put t c p accepted delivered).current = s.current from rfl, ht,
      Option.some.injEq] at hu
    simp [PipeSystem.put, PipeSystem.setCall, hu]
  · intro u d hd hu
    have hne : u ≠ t := by
      rintro rfl
      exact hu ht
    simp only [PipeSystem.put, PipeSystem.setCall, hne, if_false] at hd
    exact h.asleep u d hd hu
  · intro hnone
    rw [show (s.put t c p accepted delivered).current = s.current from rfl, ht] at hnone
    cases hnone
  · intro u d hu hd
    rw [show (s.put t c p accepted delivered).current = s.current from rfl, ht,
      Option.some.injEq] at hu
    subst u
    simp only [PipeSystem.put, PipeSystem.setCall, if_true, Option.some.injEq] at hd
    rwa [← hd]

/-- The running task is suspended at the loop test. -/
theorem switch (h : PipeInv s) {t : τ} {c : PipeCall} (ht : s.current = some t)
    (hc : s.call t = some c) (hpos : c.pos = .loop) : PipeInv s.switch := by
  have hflows := h.flows t c ht hc
  constructor
  · exact h.inPage
  · exact h.counts
  · intro u hu
    cases hu
  · intro u d hd _
    by_cases hu : s.current = some u
    · rw [ht, Option.some.injEq] at hu
      subst u
      rw [show s.switch.call = s.call from rfl, hc, Option.some.injEq] at hd
      rwa [← hd]
    · exact h.asleep u d hd hu
  · intro _
    simp only [PipeCall.Flows, hpos] at hflows
    exact hflows
  · intro u d hu
    cases hu

/-- A call that stands at the loop test is left. -/
theorem leave (h : PipeInv s) {t : τ} {c : PipeCall} (ht : s.current = some t)
    (hc : s.call t = some c) (hpos : c.pos = .loop) : PipeInv (s.setCall t none).switch := by
  have hswitch := h.switch ht hc hpos
  constructor
  · exact h.inPage
  · intro u d hd
    by_cases hu : u = t
    · simp [PipeSystem.switch, PipeSystem.setCall, hu] at hd
    · simp only [PipeSystem.switch, PipeSystem.setCall, hu, if_false] at hd
      exact h.counts u d hd
  · intro u hu
    cases hu
  · intro u d hd _
    by_cases hu : u = t
    · simp [PipeSystem.switch, PipeSystem.setCall, hu] at hd
    · simp only [PipeSystem.switch, PipeSystem.setCall, hu, if_false] at hd
      exact hswitch.asleep u d hd (by simp [PipeSystem.switch])
  · exact hswitch.idle
  · intro u d hu
    cases hu

/-- A reader takes bytes at the tail. -/
theorem claim_read (h : PipeInv s) {t : τ} {c : PipeCall} {chars : ℕ} (ht : s.current = some t)
    (hc : s.call t = some c) (hfn : c.fn = .readPipe) (hpos : c.pos = .loop)
    (hpage : chars ≤ 4096 - s.pipe.tail) (hsize : chars ≤ s.pipe.size) :
    PipeInv (s.perform t c (.claim chars)) := by
  have hflows := h.flows t c ht hc
  have hcounts := h.counts t c hc
  have hin := h.inPage
  simp only [PipeCall.Flows, hpos] at hflows
  have hperform : s.perform t c (.claim chars) =
      s.put t { c with
        count := c.count - chars
        done := c.done + chars
        pos := .copy s.pipe.tail chars } (s.pipe.advanceTail chars) s.accepted s.delivered := by
    simp only [PipeSystem.perform, hfn]
    rfl
  rw [hperform]
  apply h.put ht (hin.advanceTail chars)
  · constructor
    · have := hcounts.count
      simp only
      omega
    · have := hcounts.done
      simp only [hpos, PipeAt.pending, Nat.cast_zero, add_zero] at this
      simp only [PipeAt.pending]
      omega
    · exact hcounts.buf
  · simp only [PipeCall.Flows, hfn]
    have htail := hin.tail
    have hle := s.pipe.size_le
    refine ⟨by omega, ?_, ?_⟩
    · rw [hin.size_advanceTail hsize]
      omega
    · rw [hflows, hin.bytes_advanceTail hsize]
      rfl

/-- A writer takes room at the head. -/
theorem claim_write (h : PipeInv s) {t : τ} {c : PipeCall} {chars : ℕ} (ht : s.current = some t)
    (hc : s.call t = some c) (hfn : c.fn = .writePipe) (hpos : c.pos = .loop)
    (hpage : chars ≤ 4096 - s.pipe.head) (hsize : s.pipe.size + chars ≤ 4095) :
    PipeInv (s.perform t c (.claim chars)) := by
  have hflows := h.flows t c ht hc
  have hcounts := h.counts t c hc
  have hin := h.inPage
  simp only [PipeCall.Flows, hpos] at hflows
  have hperform : s.perform t c (.claim chars) =
      s.put t { c with
        count := c.count - chars
        done := c.done + chars
        pos := .copy s.pipe.head chars } (s.pipe.advanceHead chars) s.accepted s.delivered := by
    simp only [PipeSystem.perform, hfn]
    rfl
  rw [hperform]
  apply h.put ht (hin.advanceHead chars)
  · constructor
    · have := hcounts.count
      simp only
      omega
    · have := hcounts.done
      simp only [hpos, PipeAt.pending, Nat.cast_zero, add_zero] at this
      simp only [PipeAt.pending]
      omega
    · exact hcounts.buf
  · simp only [PipeCall.Flows, hfn]
    have hhead := hin.head
    rw [hin.size_advanceHead hsize]
    refine ⟨by omega, by omega, ?_, ?_⟩
    · simp only [Pipe.advanceHead, pageSize]
      omega
    · rw [hflows, Nat.add_sub_cancel]
      rfl

/-- A reader loads a byte of its chunk. -/
theorem fetch (h : PipeInv s) {t : τ} {c : PipeCall} {i k : ℕ} (ht : s.current = some t)
    (hc : s.call t = some c) (hfn : c.fn = .readPipe) (hpos : c.pos = .copy i (k + 1)) :
    PipeInv (s.perform t c (.fetch i k)) := by
  have hflows := h.flows t c ht hc
  have hcounts := h.counts t c hc
  simp only [PipeCall.Flows, hfn, hpos] at hflows
  obtain ⟨hend, hroom, haccepted⟩ := hflows
  apply h.put ht h.inPage
  · constructor
    · exact hcounts.count
    · have := hcounts.done
      simpa [hpos, PipeAt.pending] using this
    · exact hcounts.buf
  · simp only [PipeCall.Flows, hfn]
    refine ⟨by omega, by omega, ?_⟩
    have hi : i % pageSize = i := Nat.mod_eq_of_lt (by unfold pageSize; omega)
    rw [haccepted, ringSegment_succ, hi, List.cons_append]

/-- A reader stores a byte for the user. -/
theorem deliver (h : PipeInv s) {t : τ} {c : PipeCall} {b : BitVec 8} {i k : ℕ}
    (ht : s.current = some t) (hc : s.call t = some c) (hfn : c.fn = .readPipe)
    (hpos : c.pos = .put b i k) : PipeInv (s.perform t c (.deliver b i k)) := by
  have hflows := h.flows t c ht hc
  have hcounts := h.counts t c hc
  simp only [PipeCall.Flows, hfn, hpos] at hflows
  obtain ⟨hend, hroom, haccepted⟩ := hflows
  apply h.put ht h.inPage
  · constructor
    · exact hcounts.count
    · have := hcounts.done
      simp only [hpos, PipeAt.pending] at this
      simp only [PipeAt.pending, List.length_append, List.length_singleton]
      omega
    · intro hwrite
      rw [hfn] at hwrite
      cases hwrite
  · simp only [PipeCall.Flows, hfn]
    refine ⟨hend, by omega, ?_⟩
    rw [PipeSystem.setCall_accepted, haccepted, List.append_assoc, List.singleton_append]

/-- A writer stores a byte of the user. -/
theorem accept (h : PipeInv s) {t : τ} {c : PipeCall} {i k : ℕ} (ht : s.current = some t)
    (hc : s.call t = some c) (hfn : c.fn = .writePipe) (hpos : c.pos = .copy i (k + 1)) :
    PipeInv (s.perform t c (.accept i k)) := by
  have hflows := h.flows t c ht hc
  have hcounts := h.counts t c hc
  have hin := h.inPage
  simp only [PipeCall.Flows, hfn, hpos] at hflows
  obtain ⟨hend, hroom, hhead, haccepted⟩ := hflows
  apply h.put ht (hin.store i _)
  · constructor
    · exact hcounts.count
    · have := hcounts.done
      simp only [hpos, PipeAt.pending] at this
      simp only [PipeAt.pending, List.length_append, List.length_singleton]
      omega
    · intro hwrite
      have hbuf := hcounts.buf hwrite
      simp only [List.length_append, List.length_singleton, List.range_succ, List.map_append,
        List.map_singleton, ← hbuf]
  · simp only [PipeCall.Flows, hfn, Pipe.size_store]
    have htail := hin.tail
    have hle := s.pipe.size_le
    have hring := hin.tail_add_size
    have hi : i = (s.pipe.tail + (s.pipe.size - (k + 1))) % 4096 := by omega
    have hsize : s.pipe.size - k = s.pipe.size - (k + 1) + 1 := by omega
    refine ⟨by omega, by omega, ?_, ?_⟩
    · rw [show i + 1 + k = i + (k + 1) by omega]
      exact hhead
    · rw [hsize, show (s.pipe.store i (c.buf c.moved.length)).tail = s.pipe.tail from rfl,
        Pipe.ringSegment_store hi (by omega), haccepted, List.append_assoc,
        PipeSystem.setCall_delivered]

/-- The copy loop ends. -/
theorem endCopy (h : PipeInv s) {t : τ} {c : PipeCall} {i : ℕ} (ht : s.current = some t)
    (hc : s.call t = some c) (hpos : c.pos = .copy i 0) :
    PipeInv (s.perform t c .leave) := by
  have hflows := h.flows t c ht hc
  have hcounts := h.counts t c hc
  apply h.put ht h.inPage
  · constructor
    · exact hcounts.count
    · have := hcounts.done
      simpa [hpos, PipeAt.pending] using this
    · exact hcounts.buf
  · simp only [PipeCall.Flows]
    cases hfn : c.fn with
    | readPipe =>
      simp only [PipeCall.Flows, hfn, hpos] at hflows
      simpa using hflows.2.2
    | writePipe =>
      simp only [PipeCall.Flows, hfn, hpos] at hflows
      simpa [Pipe.bytes] using hflows.2.2.2

/-- Every action of the running task keeps the invariant. -/
theorem exec (h : PipeInv s) {t : τ} {c : PipeCall} (ht : s.current = some t)
    (hc : s.call t = some c) : PipeInv (s.perform t c (c.next s.pipe)) := by
  cases hfn : c.fn with
  | readPipe =>
    rw [PipeCall.next_read hfn]
    cases hpos : c.pos with
    | loop =>
      simp only [readPipe, hpos]
      split_ifs with hcount hempty hwriters
      · exact h.leave ht hc hpos
      · exact h.leave ht hc hpos
      · exact h.switch ht hc hpos
      · apply h.claim_read ht hc hfn hpos
        · simp only [pageSize]
          omega
        · omega
    | copy i k =>
      cases k with
      | zero =>
        simp only [readPipe, hpos]
        exact h.endCopy ht hc hpos
      | succ k =>
        simp only [readPipe, hpos]
        exact h.fetch ht hc hfn hpos
    | put b i k =>
      simp only [readPipe, hpos]
      exact h.deliver ht hc hfn hpos
  | writePipe =>
    rw [PipeCall.next_write hfn]
    cases hpos : c.pos with
    | loop =>
      simp only [writePipe, hpos]
      split_ifs with hcount hfull hreaders hwritten
      · exact h.leave ht hc hpos
      · exact h.leave ht hc hpos
      · exact h.leave ht hc hpos
      · exact h.switch ht hc hpos
      · have hle := s.pipe.size_le
        apply h.claim_write ht hc hfn hpos
        · simp only [pageSize]
          omega
        · simp only [pageSize] at hfull ⊢
          omega
    | copy i k =>
      cases k with
      | zero =>
        simp only [writePipe, hpos]
        exact h.endCopy ht hc hpos
      | succ k =>
        simp only [writePipe, hpos]
        exact h.accept ht hc hfn hpos
    | put b i k =>
      have hflows := h.flows t c ht hc
      simp [PipeCall.Flows, hfn, hpos] at hflows

/-- A task enters a call. -/
theorem enter (h : PipeInv s) {t : τ} (hcurrent : s.current = none) (fn : PipeFn)
    (buf : ℕ → BitVec 8) (count : ℤ) :
    PipeInv { s.setCall t (some (.enter fn buf count)) with current := some t } := by
  constructor
  · exact h.inPage
  · intro u d hd
    by_cases hu : u = t
    · simp only [PipeSystem.setCall, hu, if_true, Option.some.injEq] at hd
      rw [← hd]
      exact PipeCall.counts_enter fn buf count
    · simp only [PipeSystem.setCall, hu, if_false] at hd
      exact h.counts u d hd
  · intro u hu
    simp only [Option.some.injEq] at hu
    simp [PipeSystem.setCall, hu]
  · intro u d hd hu
    have hne : u ≠ t := by
      rintro rfl
      exact hu rfl
    simp only [PipeSystem.setCall, hne, if_false] at hd
    exact h.asleep u d hd (by simp [hcurrent])
  · intro hnone
    cases hnone
  · intro u d hu hd
    simp only [Option.some.injEq] at hu
    subst u
    simp only [PipeSystem.setCall, if_true, Option.some.injEq] at hd
    rw [← hd]
    exact h.idle hcurrent

omit [DecidableEq τ] in
/-- A sleeping task resumes. -/
theorem resume (h : PipeInv s) {t : τ} {c : PipeCall} (hcurrent : s.current = none)
    (hc : s.call t = some c) : PipeInv { s with current := some t } := by
  constructor
  · exact h.inPage
  · exact h.counts
  · intro u hu
    simp only [Option.some.injEq] at hu
    rw [← hu, hc]
    rfl
  · intro u d hd _
    exact h.asleep u d hd (by simp [hcurrent])
  · intro hnone
    cases hnone
  · intro u d hu hd
    have hpos := h.asleep u d hd (by simp [hcurrent])
    simp only [PipeCall.Flows, hpos]
    exact h.idle hcurrent

/-- Every step keeps the invariant, when tasks switch at `sleep_on` only. -/
theorem step (h : PipeInv s) {s' : PipeSystem τ} (hstep : SleepStep s s') : PipeInv s' := by
  obtain ⟨e, hstep, hfault⟩ := hstep
  cases hstep with
  | enter hcurrent hcall => exact h.enter hcurrent _ _ _
  | resume hcurrent hcall => exact h.resume hcurrent hcall
  | exec hcurrent hcall => exact h.exec hcurrent hcall
  | fault hcurrent hcall hbyte => cases hfault
  | count hcurrent =>
    constructor
    · exact ⟨h.inPage.head, h.inPage.tail⟩
    · exact h.counts
    · exact h.running
    · exact h.asleep
    · exact h.idle
    · intro t c ht
      rw [hcurrent] at ht
      cases ht

end PipeInv

/-- The invariant holds in every state of every run. -/
theorem pipeInv_of_reachable {τ : Type*} [DecidableEq τ] {s : PipeSystem τ}
    (h : Reachable PipeBoot SleepStep s) : PipeInv s :=
  Reachable.invariant (P := PipeInv) (fun _ => PipeInv.of_boot) (fun _ _ h hstep => h.step hstep) h

/-! ### The result -/

/-- The bytes in flight are at most those that fit in the ring. -/
theorem PipeCall.Flows.prefix_bound {p : Pipe} {accepted delivered : List (BitVec 8)} {c : PipeCall}
    (h : c.Flows p accepted delivered) :
    delivered <+: accepted ∧ accepted.length ≤ delivered.length + 4095 := by
  have hle := p.size_le
  unfold PipeCall.Flows at h
  split at h
  · rw [h]
    simp [Pipe.bytes, hle]
  · obtain ⟨-, hroom, h⟩ := h
    rw [h]
    simp [Pipe.bytes, hroom]
  · obtain ⟨-, hroom, h⟩ := h
    rw [h]
    simp only [List.prefix_append, List.length_append, List.length_cons, Pipe.bytes,
      length_ringSegment, true_and]
    omega
  · obtain ⟨-, -, -, h⟩ := h
    rw [h]
    simp only [List.prefix_append, List.length_append, length_ringSegment, true_and]
    omega
  · exact h.elim

/-- In every state, the delivered bytes are a prefix of the accepted ones, and at most
4095 bytes are under way. -/
theorem PipeInv.prefix_bound {τ : Type*} {s : PipeSystem τ} (h : PipeInv s) :
    s.delivered <+: s.accepted ∧ s.accepted.length ≤ s.delivered.length + 4095 := by
  cases hcurrent : s.current with
  | none =>
    rw [h.idle hcurrent]
    simp [Pipe.bytes, s.pipe.size_le]
  | some t =>
    obtain ⟨c, hc⟩ := Option.isSome_iff_exists.mp (h.running t hcurrent)
    exact (h.flows t c hcurrent hc).prefix_bound

/-- The function of a call finds the pipe empty, for a reader, or full, for a writer. -/
def PipeCall.Blocked (p : Pipe) (c : PipeCall) : Prop :=
  match c.fn with
  | .readPipe => p.size = 0
  | .writePipe => p.size = 4095

/-- The value `write_pipe` returns when it has moved nothing into a full pipe. -/
def PipeCall.NoRoom (p : Pipe) (c : PipeCall) : Prop :=
  c.fn = .writePipe ∧ c.moved = [] ∧ 0 < c.requested ∧ c.Blocked p ∧ p.iCount ≠ 2

/-- What a call returns, from the account of the call. -/
theorem PipeCall.Counts.ret {p : Pipe} {c : PipeCall} {v : ℤ} (h : c.Counts)
    (hret : c.next p = .ret v) :
    (v = c.moved.length ∨ v = -1 ∧ c.NoRoom p) ∧
      (c.moved.length < c.requested → c.Blocked p ∧ p.iCount ≠ 2) := by
  have hcount := h.count
  have hdone := h.done
  have hle := p.size_le
  cases hfn : c.fn with
  | readPipe =>
    rw [PipeCall.next_read hfn] at hret
    unfold readPipe at hret
    cases hpos : c.pos with
    | loop =>
      simp only [hpos, PipeAt.pending, Nat.cast_zero, add_zero] at hret hdone
      split_ifs at hret with hstop hempty hwriters
      · simp only [PipeAction.ret.injEq] at hret
        exact ⟨.inl (by omega), fun _ => by omega⟩
      · simp only [PipeAction.ret.injEq] at hret
        refine ⟨.inl (by omega), fun _ => ⟨?_, hwriters⟩⟩
        simp only [PipeCall.Blocked, hfn]
        exact hempty
    | copy i k => cases k <;> simp [hpos] at hret
    | put b i k => simp [hpos] at hret
  | writePipe =>
    rw [PipeCall.next_write hfn] at hret
    unfold writePipe at hret
    cases hpos : c.pos with
    | loop =>
      simp only [hpos, PipeAt.pending, Nat.cast_zero, add_zero] at hret hdone
      split_ifs at hret with hstop hfull hreaders hwritten
      · simp only [PipeAction.ret.injEq] at hret
        exact ⟨.inl (by omega), fun _ => by omega⟩
      · have hblocked : c.Blocked p := by
          simp only [PipeCall.Blocked, hfn]
          unfold pageSize at hfull
          omega
        simp only [PipeAction.ret.injEq] at hret
        exact ⟨.inl (by omega), fun _ => ⟨hblocked, hreaders⟩⟩
      · have hblocked : c.Blocked p := by
          simp only [PipeCall.Blocked, hfn]
          unfold pageSize at hfull
          omega
        simp only [PipeAction.ret.injEq] at hret
        have hmoved : c.moved = [] := List.length_eq_zero_iff.mp (by omega)
        exact ⟨.inr ⟨hret.symm, hfn, hmoved, by omega, hblocked, hreaders⟩,
          fun _ => ⟨hblocked, hreaders⟩⟩
    | copy i k => cases k <;> simp [hpos] at hret
    | put b i k => simp [hpos] at hret

/-- Pipes are first-in first-out and lossless, for any number of readers and writers
that switch at `sleep_on` only: the delivered bytes are a prefix of the accepted ones,
never more than 4095 bytes are under way, a writer's bytes come from its buffer in order,
a call returns the number of bytes it has moved (or -1, if it has found the pipe full,
without readers, before it could move any), and it moves fewer bytes than requested only
if it has found the pipe empty or full while `i_count` was not 2. -/
theorem pipe_fifo {τ : Type*} [DecidableEq τ] {s : PipeSystem τ}
    (h : Reachable PipeBoot SleepStep s) :
    s.delivered <+: s.accepted ∧ s.accepted.length ≤ s.delivered.length + 4095 ∧
      (∀ t c, s.call t = some c → c.fn = .writePipe →
        c.moved = (List.range c.moved.length).map c.buf) ∧
      ∀ t c v, s.current = some t → s.call t = some c → c.next s.pipe = .ret v →
        (v = c.moved.length ∨ v = -1 ∧ c.NoRoom s.pipe) ∧
          (c.moved.length < c.requested → c.Blocked s.pipe ∧ s.pipe.iCount ≠ 2) := by
  have hinv := pipeInv_of_reachable h
  obtain ⟨hbytes, hbound⟩ := hinv.prefix_bound
  refine ⟨hbytes, hbound, ?_, ?_⟩
  · intro t c hc hfn
    exact (hinv.counts t c hc).buf hfn
  · intro t c v _ hc hret
    exact (hinv.counts t c hc).ret hret

/-- A writer of two bytes, then a reader of five that finds no more writers. -/
def pipeSample : List (PipeEvent Bool) :=
  [.enter true .writePipe (fun i => BitVec.ofNat 8 (i + 7)) 2, .exec true, .exec true, .exec true,
    .exec true, .exec true, .count 1, .enter false .readPipe (fun _ => 0) 5, .exec false,
    .exec false, .exec false, .exec false, .exec false, .exec false]

/-- The theorem at the end of a run: the reader is about to return 2, with both bytes
delivered. -/
theorem pipe_fifo_sample : ∃ s : PipeSystem Bool,
    runEvents PipeSystem.sleepStep (.boot Bool) pipeSample = some s ∧ s.delivered = [7, 8] ∧
      s.delivered <+: s.accepted ∧
      ∃ c, s.call false = some c ∧ c.next s.pipe = .ret 2 ∧ s.pipe.iCount ≠ 2 := by
  have hsome : (runEvents PipeSystem.sleepStep (.boot Bool) pipeSample).isSome := by decide +kernel
  obtain ⟨s, hs⟩ := Option.isSome_iff_exists.mp hsome
  have hreach : Reachable PipeBoot SleepStep s :=
    (Reachable.of_init (PipeSystem.boot_init Bool)).runEvents SleepStep.of_sleepStep hs
  have hdelivered : (runEvents PipeSystem.sleepStep (.boot Bool) pipeSample).map (·.delivered) =
      some [7, 8] := by decide +kernel
  have hcurrent : (runEvents PipeSystem.sleepStep (.boot Bool) pipeSample).map (·.current) =
      some (some false) := by decide +kernel
  have hret : (runEvents PipeSystem.sleepStep (.boot Bool) pipeSample).bind (fun s =>
      (s.call false).map fun c => (c.next s.pipe, c.moved.length, c.requested)) =
      some (.ret 2, 2, 5) := by decide +kernel
  simp only [hs, Option.map_some, Option.some.injEq, Option.bind_some, Option.map_eq_some_iff,
    Prod.mk.injEq] at hdelivered hcurrent hret
  obtain ⟨c, hc, hnext, hmoved, hrequested⟩ := hret
  obtain ⟨hbytes, -, -, hreturn⟩ := pipe_fifo hreach
  have hshort := (hreturn false c 2 hcurrent hc hnext).2 (by rw [hmoved, hrequested]; decide)
  exact ⟨s, hs, hdelivered, hbytes, c, hc, hnext, hshort.2⟩

/-! ### A write into a full pipe without readers -/

/-- The copy loop of a writer runs to its end. -/
theorem reachable_copy {τ : Type*} [DecidableEq τ] {s : PipeSystem τ} {t : τ} {k : ℕ}
    (h : Reachable PipeBoot SleepStep s) {c : PipeCall} {i : ℕ} (ht : s.current = some t)
    (hc : s.call t = some c) (hfn : c.fn = .writePipe) (hpos : c.pos = .copy i k) :
    ∃ s' c', Reachable PipeBoot SleepStep s' ∧ s'.current = some t ∧ s'.call t = some c' ∧
      c'.fn = .writePipe ∧ c'.count = c.count ∧ c'.pos = .copy (i + k) 0 ∧
      s'.pipe.head = s.pipe.head ∧ s'.pipe.tail = s.pipe.tail := by
  induction k generalizing s c i with
  | zero => exact ⟨s, c, h, ht, hc, hfn, rfl, hpos, rfl, rfl⟩
  | succ k ih =>
    have hnext : c.next s.pipe = .accept i k := by
      rw [PipeCall.next_write hfn]
      simp [writePipe, hpos]
    have hstep : Reachable PipeBoot SleepStep (s.perform t c (.accept i k)) := by
      apply h.tail
      rw [← hnext]
      exact ⟨.exec t, .exec ht hc, rfl⟩
    obtain ⟨s', c', h', ht', hc', hfn', hcount', hpos', hhead', htail'⟩ :=
      ih hstep (c := { c with
        moved := c.moved ++ [c.buf c.moved.length]
        pos := .copy (i + 1) k }) ht
        (by simp [PipeSystem.perform, PipeSystem.setCall]) hfn rfl
    refine ⟨s', c', h', ht', hc', hfn', hcount', ?_, hhead', htail'⟩
    rw [hpos']
    congr 1
    omega

/-- A pipe can be filled: a writer of 4095 bytes returns with every cell but one in use. -/
theorem reachable_full : ∃ s : PipeSystem Unit, Reachable PipeBoot SleepStep s ∧
    s.current = none ∧ s.call () = none ∧ s.pipe.size = 4095 := by
  let es : List (PipeEvent Unit) := [.enter () .writePipe (fun _ => 0) 4095, .exec ()]
  have hsome : (runEvents PipeSystem.sleepStep (.boot Unit) es).isSome := by decide +kernel
  obtain ⟨s, hs⟩ := Option.isSome_iff_exists.mp hsome
  have hreach : Reachable PipeBoot SleepStep s :=
    (Reachable.of_init (PipeSystem.boot_init Unit)).runEvents SleepStep.of_sleepStep hs
  have hfacts : (runEvents PipeSystem.sleepStep (.boot Unit) es).bind (fun s =>
      (s.call ()).map fun c => (s.current, s.pipe.head, s.pipe.tail, c.fn, c.count, c.pos)) =
      some (some (), 4095, 0, .writePipe, 0, .copy 0 4095) := by decide +kernel
  simp only [hs, Option.bind_some, Option.map_eq_some_iff, Prod.mk.injEq] at hfacts
  obtain ⟨c, hc, ht, hhead, htail, hfn, hcount, hpos⟩ := hfacts
  obtain ⟨s₁, c₁, h₁, ht₁, hc₁, hfn₁, hcount₁, hpos₁, hhead₁, htail₁⟩ :=
    reachable_copy hreach ht hc hfn hpos
  have hleave : c₁.next s₁.pipe = .leave := by
    rw [PipeCall.next_write hfn₁]
    simp [writePipe, hpos₁]
  have h₂ := h₁.tail ⟨.exec (), .exec ht₁ hc₁, rfl⟩
  rw [hleave] at h₂
  have hc₂ : (s₁.perform () c₁ .leave).call () = some { c₁ with pos := .loop } := by
    simp [PipeSystem.perform, PipeSystem.setCall]
  have hret : PipeCall.next (s₁.perform () c₁ .leave).pipe { c₁ with pos := .loop } =
      .ret c₁.done := by
    simp [PipeCall.next, hfn₁, writePipe, hcount₁, hcount]
  have h₃ := h₂.tail ⟨.exec (), .exec ht₁ hc₂, rfl⟩
  rw [hret] at h₃
  refine ⟨_, h₃, rfl, by simp [PipeSystem.perform, PipeSystem.setCall, PipeSystem.switch], ?_⟩
  change s₁.pipe.size = 4095
  simp [Pipe.size, hhead₁, htail₁, hhead, htail, pageSize]

/-- The number of bytes moved is not always what a call returns: a write into a full pipe
without readers moves nothing and returns -1. -/
theorem writePipe_full_ret : ¬ ∀ s : PipeSystem Unit, Reachable PipeBoot SleepStep s →
    ∀ t c v, s.current = some t → s.call t = some c → c.next s.pipe = .ret v →
      v = c.moved.length := by
  intro hclaim
  obtain ⟨s, h, hcurrent, hcall, hsize⟩ := reachable_full
  have h₁ := h.tail ⟨.count 1, .count hcurrent, rfl⟩
  have h₂ := h₁.tail ⟨.enter () .writePipe (fun _ => 0) 1, .enter hcurrent hcall, rfl⟩
  have hret : PipeCall.next { s.pipe with iCount := 1 } (.enter .writePipe (fun _ => 0) 1) =
      .ret (-1) := by
    have hfull : pageSize - 1 - ({ s.pipe with iCount := 1 } : Pipe).size = 0 := by
      change pageSize - 1 - s.pipe.size = 0
      rw [hsize]
      rfl
    rw [PipeCall.next_write rfl]
    simp [writePipe, PipeCall.enter, hfull]
  have hvalue := hclaim _ h₂ () _ _ rfl (by simp [PipeSystem.setCall]) hret
  simp [PipeCall.enter] at hvalue

end LihaLinux.Fs
