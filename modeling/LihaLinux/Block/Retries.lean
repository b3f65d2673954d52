import LihaLinux.Block.Transfers

/-!
# Errors of the hard disk

A request of a partition is given up only after seven errors of one sector, one after another, as
long as the range check passes for a sector that fails, the first sector of a `WRITE` is
acknowledged without errors before it, and nothing but a sector fails.
-/

namespace LihaLinux.Hd

/-! ### What is meant -/

/-- An answer is an error of a sector of a request. -/
structure FailedAt (t : Tables) (r : Request) (k : ℕ) (o : Outcome) : Prop where
  id : o.id = r.id
  drive : o.drive = r.dev / 5
  sector : o.sector = sectorOf t r k
  ok : o.ok = false

/-- The last `n` answers are errors of one sector of a request. -/
def Streak (t : Tables) (s : HardDisk) (r : Request) (k n : ℕ) : Prop :=
  n ≤ s.outcomes.length ∧ ∀ o ∈ s.outcomes.take n, FailedAt t r k o

/-- A request of a partition that has just been given up had `MAX_ERRORS` errors of one sector. -/
def GivenUp (t : Tables) (s s' : HardDisk) : Prop :=
  ∀ r, s'.ended = (r, false) :: s.ended → InPartition t r → ∃ k ≤ 1, Streak t s' r k 7

/-- An event that the error handling is for: the range check passes for a sector that fails, the
first sector of a `WRITE` is acknowledged when no error has been counted, the commands without data
do not fail, and the controller asks for the data of a `WRITE`. -/
def HardDisk.handles (t : Tables) (s : HardDisk) : Event → Bool
  | .interrupt ok _ =>
    match s.queue, s.busy with
    | r :: _, .transfer _ _ =>
      if ok then decide (r.cmd = .write → r.nrSectors = 2 → r.errors = 0)
      else decide (add32 r.sector 2 ≤ (t.hd r.dev).nrSects)
    | _, _ => ok
  | .pass _ drq _ =>
    match s.queue with
    | r :: _ => decide (r.cmd = .write → drq = true)
    | [] => true
  | .add _ _ _ _ => true

/-- A step for an event that the error handling is for. -/
def HandledStep (t : Tables) (s s' : HardDisk) : Prop :=
  ∃ e, Answers s e ∧ s.handles t e = true ∧ s.next t e = some s'

/-! ### The invariant -/

/-- The errors of `CURRENT` are the last answers, and it is in range when it is tried again. -/
structure Retried (t : Tables) (s : HardDisk) (r : Request) : Prop where
  streak : ∀ k, AtHalf r k → Streak t s r k r.errors
  inRange : s.requesting = true ∨ s.busy = .other → add32 r.sector 2 ≤ (t.hd r.dev).nrSects

/-- The errors of all requests are counted. -/
structure Counted (t : Tables) (s : HardDisk) : Prop where
  fresh : ∀ r ∈ s.queue.tail, r.errors = 0
  head : ∀ r rest, s.queue = r :: rest → InPartition t r → Retried t s r

section Steps

variable {t : Tables} {s s' : HardDisk} {r r' : Request} {rest : List Request} {k : ℕ}

theorem Streak.zero : Streak t s r k 0 := ⟨Nat.zero_le _, fun _ ho => absurd ho List.not_mem_nil⟩

/-- A request that nothing has been done for is in range. -/
theorem AtHalf.inRange (h : AtHalf r 0) (ht : t.Valid) (hin : InPartition t r) :
    add32 r.sector 2 ≤ (t.hd r.dev).nrSects := by
  have hsector := (h.sector_eq ht hin).1
  have hlt := ht.lt hin.1
  have hblock := hin.2
  rw [hsector, Nat.add_zero, add32_eq (by omega)]
  exact hblock

theorem retried_fresh (ht : t.Valid) (hhalf : AtHalf r 0) (herrors : r.errors = 0)
    (hin : InPartition t r) : Retried t s r := by
  refine ⟨fun k _ => ?_, fun _ => hhalf.inRange ht hin⟩
  rw [herrors]
  exact Streak.zero

/-- `CURRENT` has ended. -/
theorem Counted.ended (ht : t.Valid) (houter : Outer t s) (h : Counted t s)
    (hqueue : s.queue = r :: rest) (hqueue' : s'.queue = rest) : Counted t s' := by
  have hfresh := h.fresh
  have hhalf := houter.fresh
  rw [hqueue] at hfresh hhalf
  refine ⟨?_, ?_⟩
  · rw [hqueue']
    exact fun q hq => hfresh q (List.mem_of_mem_tail hq)
  · intro q qs hq hin
    have hmem : q ∈ (r :: rest).tail := by
      rw [← hqueue', hq]
      exact List.mem_cons_self
    exact retried_fresh ht (hhalf q hmem) (hfresh q hmem) hin

/-- `CURRENT` has changed. -/
theorem Counted.current (h : Counted t s) (hqueue : s.queue = r :: rest)
    (hqueue' : s'.queue = r' :: rest) (hr' : InPartition t r' → Retried t s' r') :
    Counted t s' := by
  have hfresh := h.fresh
  rw [hqueue] at hfresh
  refine ⟨?_, ?_⟩
  · rw [hqueue']
    exact hfresh
  · intro q qs hq hin
    obtain ⟨rfl, rfl⟩ := List.cons.inj (hqueue'.symm.trans hq)
    exact hr' hin

/-- No request is given up. -/
theorem givenUp_of_ended (h : s'.ended = s.ended ∨ ∃ r, s'.ended = (r, true) :: s.ended) :
    GivenUp t s s' := by
  intro r hr
  rcases h with h | ⟨r', h⟩
  · rw [h] at hr
    exact absurd hr.symm (List.cons_ne_self _ _)
  · rw [h] at hr
    have hpair := (List.cons.inj hr).1
    exact absurd (congrArg Prod.snd hpair) Bool.false_ne_true.symm

/-- Another error of the same sector. -/
theorem Streak.succ {n : ℕ} (h : Streak t s r k n) {o : Outcome} (ho : FailedAt t r k o)
    (houtcomes : s'.outcomes = o :: s.outcomes) : Streak t s' r k (n + 1) := by
  rw [Streak, houtcomes]
  refine ⟨Nat.succ_le_succ h.1, fun o' ho' => ?_⟩
  rw [List.take_succ_cons] at ho'
  rcases List.mem_cons.mp ho' with rfl | ho'
  · exact ho
  · exact h.2 o' ho'

theorem Streak.le {m n : ℕ} (h : Streak t s r k n) (hmn : m ≤ n) : Streak t s r k m := by
  refine ⟨hmn.trans h.1, fun o ho => h.2 o ?_⟩
  rw [← Nat.min_eq_left hmn, ← List.take_take] at ho
  exact List.mem_of_mem_take ho

/-- A sector has failed. -/
theorem Counted.failed (ht : t.Valid) (hinv : Inv t s) (h : Counted t s)
    (hqueue : s.queue = r :: rest) {c : Command} {n : ℕ} (hbusy : s.busy = .transfer c n)
    (hserves : Serves t s r c n) (hrange : add32 r.sector 2 ≤ (t.hd r.dev).nrSects)
    (nullErrors : ℕ) :
    Counted t (s.interrupt t false nullErrors) ∧
      GivenUp t s (s.interrupt t false nullErrors) := by
  have hdoHd : s.doHd = .read ∨ s.doHd = .write := by
    rw [hserves.doHd]
    cases r.cmd
    · exact Or.inl rfl
    · exact Or.inr rfl
  obtain ⟨data, hinterrupt⟩ := interrupt_failed (t := t) hbusy hdoHd nullErrors
  obtain ⟨o, ho⟩ : ∃ o : Outcome, ⟨c.request.id, c.drive, c.first t + n, false, data⟩ = o :=
    ⟨_, rfl⟩
  rw [ho] at hinterrupt
  have hfailed : InPartition t r → ∀ k, AtHalf r k → FailedAt t r k o := by
    intro hin k hk
    obtain ⟨hdrive, hfirst⟩ := hserves.place hin k hk
    rw [← ho]
    exact ⟨hserves.id, hdrive, hfirst, rfl⟩
  obtain ⟨k₀, hk₀, -⟩ := hinv.head r rest hqueue
  have hstreak (s' : HardDisk) (houtcomes : s'.outcomes = o :: s.outcomes)
      (hin : InPartition t r) (k : ℕ) (hk : AtHalf r k) : Streak t s' r k (r.errors + 1) :=
    ((h.head r rest hqueue hin).streak k hk).succ (hfailed hin k hk) houtcomes
  obtain ⟨s₁, hs₁⟩ : ∃ s₁ : HardDisk,
    { s with busy := .idle, outcomes := o :: s.outcomes, doHd := .null } = s₁ := ⟨_, rfl⟩
  have hqueue₁ : s₁.queue = r :: rest := by
    rw [← hs₁]
    exact hqueue
  have houtcomes₁ : s₁.outcomes = o :: s.outcomes := by rw [← hs₁]
  have hended₁ : s₁.ended = s.ended := by rw [← hs₁]
  rw [hinterrupt, hs₁]
  obtain ⟨reset, faults, ⟨-, heq⟩ | ⟨hmax, heq⟩⟩ := badRwIntr_cases hqueue₁ nullErrors
  · rw [heq]
    refine ⟨@Counted.current _ _ _ _ { r with errors := r.errors + 1 } _ h hqueue rfl ?_,
      givenUp_of_ended (Or.inl hended₁)⟩
    intro hin
    refine ⟨fun k hk => ?_, fun _ => hrange⟩
    have hstreak' := hstreak s₁ houtcomes₁ hin k ⟨hk.le, hk.sector, hk.nrSectors, hk.buffer⟩
    exact ⟨hstreak'.1, fun o' ho' => ⟨(hstreak'.2 o' ho').id, (hstreak'.2 o' ho').drive,
      (hstreak'.2 o' ho').sector, (hstreak'.2 o' ho').ok⟩⟩
  · rw [heq]
    refine ⟨h.ended ht hinv.outer hqueue rfl, ?_⟩
    intro q hq hin
    change (_, false) :: s₁.ended = _ at hq
    rw [hended₁] at hq
    obtain rfl := congrArg Prod.fst (List.cons.inj hq).1
    have hstreak' := (hstreak s₁ houtcomes₁ hin k₀ hk₀).le hmax
    exact ⟨k₀, hk₀.le, hstreak'.1, fun o' ho' => ⟨(hstreak'.2 o' ho').id, (hstreak'.2 o' ho').drive,
      (hstreak'.2 o' ho').sector, (hstreak'.2 o' ho').ok⟩⟩

/-- A sector has been transferred. -/
theorem Counted.transferred (ht : t.Valid) (hinv : Inv t s) (h : Counted t s)
    (hrequesting : s.requesting = false) (hqueue : s.queue = r :: rest) {c : Command} {n : ℕ}
    (hbusy : s.busy = .transfer c n) (hserves : Serves t s r c n)
    (herrors : r.cmd = .write → r.nrSectors = 2 → r.errors = 0) (nullErrors : ℕ) :
    Counted t (s.interrupt t true nullErrors) ∧ GivenUp t s (s.interrupt t true nullErrors) := by
  obtain ⟨k, hk, -⟩ := hinv.head r rest hqueue
  obtain ⟨s₁, r', hdone, hended₁, hrequesting₁, hother₁, hr'⟩ : ∃ (s₁ : HardDisk)
      (r' : Request), SectorDone s₁ (s.interrupt t true nullErrors) r r' rest ∧
        s₁.ended = s.ended ∧ s₁.requesting = false ∧ s₁.busy ≠ .other ∧
        (sub32 r.nrSectors 1 ≠ 0 → r'.errors = 0) := by
    have hother : (if n + 1 = c.nsect then Busy.idle else .transfer c (n + 1)) ≠ .other := by
      split_ifs
      · exact Busy.noConfusion
      · exact Busy.noConfusion
    cases hr : r.cmd with
    | read =>
      have hdoHd : s.doHd = .read := by
        rw [hserves.doHd, hr]
        rfl
      rw [interrupt_read hbusy hdoHd (hserves.cmd.trans hr)]
      obtain ⟨r', hr', hdone⟩ := @readIntr_done
        { s with
          port := s.disk c.drive (c.first t + n)
          busy := if n + 1 = c.nsect then .idle else .transfer c (n + 1)
          outcomes := ⟨c.request.id, c.drive, c.first t + n, true,
            s.disk c.drive (c.first t + n)⟩ :: s.outcomes
          doHd := .null } r rest hqueue nullErrors
      exact ⟨_, r', hdone, rfl, hrequesting, hother, fun _ => hr'⟩
    | write =>
      have hdoHd : s.doHd = .write := by
        rw [hserves.doHd, hr]
        rfl
      rw [interrupt_write hbusy hdoHd (hserves.cmd.trans hr)]
      obtain ⟨r', hr', hdone⟩ := @writeIntr_done
        { s with
          disk := Function.update s.disk c.drive
            (Function.update (s.disk c.drive) (c.first t + n) s.port)
          busy := if n + 1 = c.nsect then .idle else .transfer c (n + 1)
          outcomes := ⟨c.request.id, c.drive, c.first t + n, true, s.port⟩ :: s.outcomes
          doHd := .null } r rest hqueue nullErrors
      refine ⟨_, r', hdone, rfl, hrequesting, hother, fun hmore => ?_⟩
      rw [hr']
      apply herrors hr
      have hsub := hk.sub
      have hnr := hk.nrSectors
      omega
  rcases hdone.queue with ⟨hqueue', hended, hreq, hbusy', hmore⟩ | ⟨hqueue', hended⟩
  · refine ⟨h.current hqueue hqueue' fun hin => ⟨fun k' _ => ?_, fun hretry => ?_⟩,
      givenUp_of_ended (Or.inl (hended.trans hended₁))⟩
    · rw [hr' hmore]
      exact Streak.zero
    · rw [hreq, hrequesting₁, hbusy'] at hretry
      rcases hretry with hfalse | hother
      · exact absurd hfalse Bool.false_ne_true
      · exact absurd hother hother₁
  · rw [hended₁] at hended
    exact ⟨h.ended ht hinv.outer hqueue hqueue', givenUp_of_ended (Or.inr ⟨r', hended⟩)⟩

/-- A pass in which the controller asks for the data. -/
theorem Counted.pass (ht : t.Valid) (hinv : Inv t s) (h : Counted t s)
    (hrequesting : s.requesting = true) {ready drq : Bool} {nullErrors : ℕ}
    (hdrq : s.handles t (.pass ready drq nullErrors) = true)
    (hs' : s.pass t ready drq nullErrors = some s') : Counted t s' ∧ GivenUp t s s' := by
  have hsame (s₁ : HardDisk) (hqueue : s₁.queue = s.queue) (houtcomes : s₁.outcomes = s.outcomes)
      (hended : s₁.ended = s.ended) : Counted t s₁ ∧ GivenUp t s s₁ := by
    refine ⟨⟨?_, ?_⟩, givenUp_of_ended (Or.inl hended)⟩
    · rw [hqueue]
      exact h.fresh
    · intro r rest hr hin
      rw [hqueue] at hr
      have hretried := h.head r rest hr hin
      refine ⟨fun k hk => ?_, fun _ => hretried.inRange (Or.inl hrequesting)⟩
      rw [Streak, houtcomes]
      exact hretried.streak k hk
  rw [HardDisk.pass] at hs'
  split at hs'
  · next hqueue =>
    cases hs'
    exact hsame _ rfl rfl rfl
  · next r rest hqueue =>
    dsimp only at hs'
    split_ifs at hs' with hrange hdivide hreset hrecalibrate
    · cases hs'
      have hend := endRequest_cons hqueue false
      refine ⟨h.ended ht hinv.outer hqueue (by rw [hend]), ?_⟩
      intro q hq hin
      rw [hend] at hq
      obtain rfl : r = q := congrArg Prod.fst (List.cons.inj hq).1
      have hin' := (h.head r rest hqueue hin).inRange (Or.inl hrequesting)
      have hdev := hin.1
      omega
    · rw [HardDisk.hdOut] at hs'
      split_ifs at hs'
      cases hs'
      exact hsame _ rfl rfl rfl
    · rw [HardDisk.hdOut] at hs'
      split_ifs at hs'
      cases hs'
      exact hsame _ rfl rfl rfl
    · rw [HardDisk.issue] at hs'
      split at hs'
      · next hcmd =>
        rw [HardDisk.handles, hqueue] at hdrq
        rw [of_decide_eq_true hdrq hcmd, HardDisk.hdOut] at hs'
        split_ifs at hs' with htrue hpanic hpanic
        · cases hs'
        · cases hs'
          exact hsame _ rfl rfl rfl
        · exact absurd rfl htrue
        · exact absurd rfl htrue
      · rw [HardDisk.hdOut] at hs'
        split_ifs at hs'
        cases hs'
        exact hsame _ rfl rfl rfl

/-- A request is put into the queue. -/
theorem Counted.addRequest (ht : t.Valid) (h : Counted t s) (dev : ℕ) (cmd : Cmd)
    (bh : BufferHead) (place : ℕ) : Counted t (s.addRequest dev cmd bh place) := by
  obtain ⟨r, hr⟩ : ∃ r, makeRequest s.nextId dev cmd bh = r := ⟨_, rfl⟩
  have hhalf : AtHalf r 0 := by
    rw [← hr]
    exact makeRequest_atHalf ..
  have herrors : r.errors = 0 := by
    rw [← hr]
    rfl
  rw [HardDisk.addRequest, hr]
  dsimp only
  split
  · refine ⟨fun q hq => absurd hq List.not_mem_nil, fun q qs hq hin => ?_⟩
    obtain ⟨rfl, rfl⟩ := List.cons.inj hq
    have hfresh := retried_fresh (s := s) ht hhalf herrors hin
    exact ⟨hfresh.streak, fun _ => hhalf.inRange ht hin⟩
  · next q qs hqueue =>
    have hfresh := h.fresh
    rw [hqueue] at hfresh
    refine ⟨?_, fun p ps hp hin => ?_⟩
    · intro p hp
      have hp' := List.perm_middle.mem_iff.mp hp
      rw [List.take_append_drop] at hp'
      rcases List.mem_cons.mp hp' with rfl | hp'
      · exact herrors
      · exact hfresh p hp'
    · obtain ⟨rfl, rfl⟩ := List.cons.inj hp
      have hretried := h.head q qs hqueue hin
      exact ⟨hretried.streak, hretried.inRange⟩

/-- A step for an event that the error handling is for. -/
theorem Counted.step (ht : t.Valid) (hinv : Inv t s) (h : Counted t s)
    (hstep : HandledStep t s s') : Counted t s' ∧ GivenUp t s s' := by
  obtain ⟨e, hanswers, hhandled, hnext⟩ := hstep
  cases e with
  | interrupt ok nullErrors =>
    rw [HardDisk.next] at hnext
    split_ifs at hnext with hreq
    cases hnext
    have hrequesting : s.requesting = false := by simpa using hreq
    cases hqueue : s.queue with
    | nil => exact absurd (hinv.control.empty hqueue) hanswers
    | cons r rest =>
      rw [HardDisk.handles, hqueue] at hhandled
      rcases hinv.control.linked hrequesting r rest hqueue with
        ⟨hother, hrecal⟩ | ⟨c, n, hbusy, hserves⟩
      · rw [hother] at hhandled
        obtain rfl : ok = true := hhandled
        rw [interrupt_other hother hrecal]
        refine ⟨⟨h.fresh, fun q qs hq hin => ?_⟩, givenUp_of_ended (Or.inl rfl)⟩
        have hretried := h.head q qs hq hin
        exact ⟨hretried.streak, fun _ => hretried.inRange (Or.inr hother)⟩
      · rw [hbusy] at hhandled
        cases ok with
        | true =>
          have herrors := of_decide_eq_true hhandled
          exact h.transferred ht hinv hrequesting hqueue hbusy hserves herrors nullErrors
        | false =>
          have hrange := of_decide_eq_true hhandled
          exact h.failed ht hinv hqueue hbusy hserves hrange nullErrors
  | pass ready drq nullErrors =>
    rw [HardDisk.next] at hnext
    split_ifs at hnext with hrequesting
    exact h.pass ht hinv hrequesting hhandled hnext
  | add dev cmd bh place =>
    rw [HardDisk.next] at hnext
    split_ifs at hnext
    cases hnext
    have hended : (s.addRequest dev cmd bh place).ended = s.ended := by
      rw [HardDisk.addRequest]
      split <;> rfl
    exact ⟨h.addRequest ht dev cmd bh place, givenUp_of_ended (Or.inl hended)⟩

/-- In every run for events that the error handling is for, a request for a block of a partition
is given up only after `MAX_ERRORS` errors of one of its sectors, one after another. -/
theorem givenUp_after_errors (ht : t.Valid)
    (hrun : Reachable HardDisk.Boot (HandledStep t) s) (hstep : HandledStep t s s') :
    GivenUp t s s' := by
  have hinv : Inv t s ∧ Counted t s := by
    refine Reachable.invariant (P := fun s => Inv t s ∧ Counted t s) (fun s hs => ?_)
      (fun s s' h hs => ?_) hrun
    · refine ⟨hs.inv, ?_, ?_⟩
      · rw [hs.queue]
        exact fun r hr => absurd hr List.not_mem_nil
      · intro r rest hr
        exact absurd (hs.queue.symm.trans hr).symm (List.cons_ne_nil r rest)
    · obtain ⟨e, hanswers, hhandled, hnext⟩ := hs
      exact ⟨(h.1.step ht ⟨e, hanswers, hnext⟩).1,
        (h.2.step ht h.1 ⟨e, hanswers, hhandled, hnext⟩).1⟩
  exact (hinv.2.step ht hinv.1 hstep).2

/-- The state after an event that the error handling is for. -/
def HardDisk.handle (t : Tables) (s : HardDisk) (e : Event) : Option HardDisk :=
  if s.handles t e then s.answer t e else none

theorem HandledStep.of_handle {e : Event} (h : s.handle t e = some s') : HandledStep t s s' := by
  rw [HardDisk.handle] at h
  split_ifs at h with hhandles
  obtain ⟨hanswers, hnext⟩ := answers_of_answer h
  exact ⟨e, hanswers, hhandles, hnext⟩

/-- A sector fails and is tried again. -/
def failAndRead : List Event := [.interrupt false 0, .pass true true 0]

/-- A sector fails and the controller is reset before it is tried again. -/
def failAndReset : List Event :=
  [.interrupt false 0, .pass true true 0, .interrupt true 0, .pass true true 0,
    .interrupt true 0, .pass true true 0]

/-- The first sector of a block fails six times. -/
def sixErrors : List Event :=
  [.add 0 .read ⟨5, 4096⟩ 0, .pass true true 0, .interrupt true 0, .pass true true 0,
    .interrupt true 0, .pass true true 0] ++ failAndRead ++ failAndRead ++ failAndRead ++
    failAndReset ++ failAndReset ++ failAndReset

/-- The state after six errors. -/
def afterSix : HardDisk :=
  (runEvents (HardDisk.handle oneDisk) diskBoot sixErrors).getD diskBoot

/-- The seventh error ends the request. -/
theorem givenUp_afterSix :
    ∃ s' r, HandledStep oneDisk afterSix s' ∧ s'.ended = [(r, false)] ∧
      ∃ k ≤ 1, Streak oneDisk s' r k 7 := by
  have hcompute : runEvents (HardDisk.handle oneDisk) diskBoot sixErrors = some afterSix := by
    rfl
  have hboot : Reachable HardDisk.Boot (HandledStep oneDisk) diskBoot :=
    Reachable.of_init diskBoot_boot
  have hnext : ∀ s e s', HardDisk.handle oneDisk s e = some s' → HandledStep oneDisk s s' :=
    fun _ _ _ h => HandledStep.of_handle h
  have hrun := hboot.runEvents hnext hcompute
  have hhandle : afterSix.handle oneDisk (.interrupt false 0) =
      some (afterSix.interrupt oneDisk false 0) := by rfl
  have hstep := HandledStep.of_handle hhandle
  obtain ⟨r, hr, hin⟩ : ∃ r, (afterSix.interrupt oneDisk false 0).ended = [(r, false)] ∧
      InPartition oneDisk r := by
    refine ⟨_, by rfl, ?_⟩
    change 0 < 5 ∧ 2 * 5 + 2 ≤ 340
    decide
  refine ⟨_, r, hstep, hr, givenUp_after_errors oneDisk_valid hrun hstep r ?_ hin⟩
  rw [hr]
  rfl

/-- The second sector of the last block has failed once. -/
def lastFailed : HardDisk :=
  (runEvents (HardDisk.answer oneDisk) diskBoot (secondFails .read 169)).getD diskBoot

/-- The request for the last block of the partition is given up after one error. -/
theorem lastFailed_givenUp :
    ∃ s', Reachable HardDisk.Boot (AnswerStep oneDisk) lastFailed ∧
      AnswerStep oneDisk lastFailed s' ∧ ¬GivenUp oneDisk lastFailed s' := by
  have hcompute : runEvents (HardDisk.answer oneDisk) diskBoot (secondFails .read 169) =
      some lastFailed := by rfl
  have hboot : Reachable HardDisk.Boot (AnswerStep oneDisk) diskBoot :=
    Reachable.of_init diskBoot_boot
  have hnext : ∀ s e s', HardDisk.answer oneDisk s e = some s' → AnswerStep oneDisk s s' :=
    fun _ _ _ h => AnswerStep.of_answer h
  have hanswer : lastFailed.answer oneDisk (.pass true true 0) =
      some (lastFailed.endRequest false) := by rfl
  refine ⟨_, hboot.runEvents hnext hcompute, AnswerStep.of_answer hanswer, fun hgiven => ?_⟩
  obtain ⟨r, hr, hin⟩ : ∃ r, (lastFailed.endRequest false).ended = [(r, false)] ∧
      InPartition oneDisk r := by
    refine ⟨_, by rfl, ?_⟩
    change 0 < 5 ∧ 2 * 169 + 2 ≤ 340
    decide
  obtain ⟨k, -, hlength, -⟩ := hgiven r (by rw [hr]; rfl) hin
  have houtcomes : (lastFailed.endRequest false).outcomes.length = 2 := by rfl
  omega

end Steps

end LihaLinux.Hd
