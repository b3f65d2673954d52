import LihaLinux.Block.Geometry
import Mathlib.Data.List.Nodup
import Mathlib.Data.List.Perm.Basic

/-!
# The invariant of transfers

What has been transferred for a request, and the invariant of the driver with its controller: the
sectors of `CURRENT` before the next one are done, and the command in the controller serves it.
-/

namespace LihaLinux.Hd

/-! ### What is done -/

/-- What has been acknowledged to a request, the last answer first. -/
def HardDisk.acks (s : HardDisk) (id : ℕ) : List Outcome :=
  s.outcomes.filter fun o => o.id = id ∧ o.ok = true

/-- The answer to a sector that has been written. -/
def ackOf (t : Tables) (mem : ℕ → BitVec 8) (r : Request) (k : ℕ) : Outcome :=
  ⟨r.id, r.dev / 5, sectorOf t r k, true, slice mem (r.bh.data + 512 * k)⟩

/-- The first `k` sectors of a request have been transferred. -/
def Done (t : Tables) (s : HardDisk) (r : Request) (k : ℕ) : Prop :=
  match r.cmd with
  | .read => ∀ j < k, slice s.mem (r.bh.data + 512 * j) = s.disk (r.dev / 5) (sectorOf t r j)
  | .write => s.acks r.id = ((List.range k).map (ackOf t s.mem r)).reverse

/-- The two sectors of a request have been transferred: both halves of the buffer are as on the
disk, or both have been acknowledged once and in their order. -/
def Transferred (t : Tables) (s : HardDisk) (r : Request) : Prop :=
  match r.cmd with
  | .read => slice s.mem r.bh.data = s.disk (r.dev / 5) (sectorOf t r 0) ∧
      slice s.mem (r.bh.data + 512) = s.disk (r.dev / 5) (sectorOf t r 1)
  | .write => s.acks r.id =
      [⟨r.id, r.dev / 5, sectorOf t r 1, true, slice s.mem (r.bh.data + 512)⟩,
        ⟨r.id, r.dev / 5, sectorOf t r 0, true, slice s.mem r.bh.data⟩]

/-- The requests in the queue and those that have ended have different numbers, those after
`CURRENT` are as they were made and no command has been for them, and all commands are for sectors
of their requests. -/
structure Outer (t : Tables) (s : HardDisk) : Prop where
  ids : (s.queue.map (·.id) ++ s.ended.map (·.1.id)).Nodup
  below : ∀ i ∈ s.queue.map (·.id) ++ s.ended.map (·.1.id), i < s.nextId
  outcomes : ∀ o ∈ s.outcomes, o.id < s.nextId
  fresh : ∀ r ∈ s.queue.tail, AtHalf r 0
  unseen : ∀ r ∈ s.queue.tail, ∀ o ∈ s.outcomes, o.id ≠ r.id
  commands : ∀ c ∈ s.commands, InPartition t c.request → Addresses t c

/-- The first sectors of `CURRENT` are done. -/
def Head (t : Tables) (s : HardDisk) : Prop :=
  ∀ r rest, s.queue = r :: rest → ∃ k, AtHalf r k ∧ (InPartition t r → Done t s r k)

/-- The function for the interrupts of a command. -/
def Cmd.handler : Cmd → Handler
  | read => .read
  | write => .write

/-- The controller does the rest of a request. -/
structure Serves (t : Tables) (s : HardDisk) (r : Request) (c : Command) (n : ℕ) : Prop where
  doHd : s.doHd = r.cmd.handler
  cmd : c.cmd = r.cmd
  id : c.request.id = r.id
  nsect : c.nsect = n + r.nrSectors
  port : r.cmd = .write → s.port = slice s.mem r.buffer
  place : InPartition t r → ∀ k, AtHalf r k → c.drive = r.dev / 5 ∧ c.first t + n = sectorOf t r k

/-- The controller and `do_hd` are ready for the request `r`. -/
def Linked (t : Tables) (s : HardDisk) (r : Request) : Prop :=
  s.busy = .other ∧ s.doHd = .recal ∨ ∃ c n, s.busy = .transfer c n ∧ Serves t s r c n

/-- What the controller does between the steps of the driver. -/
structure Control (t : Tables) (s : HardDisk) : Prop where
  requesting : s.requesting = true → s.busy = .idle
  empty : s.queue = [] → s.busy = .idle
  linked : s.requesting = false → ∀ r rest, s.queue = r :: rest → Linked t s r

/-- The invariant of the transfers. -/
structure Inv (t : Tables) (s : HardDisk) : Prop where
  outer : Outer t s
  head : Head t s
  control : Control t s

/-- A request that has just ended well has been transferred. -/
def EndsWell (t : Tables) (s s' : HardDisk) : Prop :=
  ∀ r, s'.ended = (r, true) :: s.ended → InPartition t r → Transferred t s' r

/-! ### Frames -/

section Frames

variable {t : Tables} {s s' : HardDisk} {r r' : Request} {rest : List Request} {k : ℕ}

theorem Done.transferred (h : Done t s r 2) : Transferred t s r := by
  rw [Done] at h
  rw [Transferred]
  cases hcmd : r.cmd with
  | read =>
    rw [hcmd] at h
    exact ⟨h 0 (by decide), h 1 (by decide)⟩
  | write =>
    rw [hcmd] at h
    exact h

/-- The requests and the records have not changed. -/
structure SameRecords (s s' : HardDisk) : Prop where
  queue : s'.queue = s.queue
  ended : s'.ended = s.ended
  nextId : s'.nextId = s.nextId
  outcomes : s'.outcomes = s.outcomes
  commands : s'.commands = s.commands

theorem Outer.same (h : Outer t s) (hs : SameRecords s s') : Outer t s' := by
  obtain ⟨hqueue, hended, hnext, houtcomes, hcommands⟩ := hs
  constructor
  · rw [hqueue, hended]
    exact h.ids
  · rw [hqueue, hended, hnext]
    exact h.below
  · rw [houtcomes, hnext]
    exact h.outcomes
  · rw [hqueue]
    exact h.fresh
  · rw [hqueue, houtcomes]
    exact h.unseen
  · rw [hcommands]
    exact h.commands

/-- `CURRENT` is replaced by a request with the same number. -/
theorem Outer.replace (h : Outer t s) (hqueue : s.queue = r :: rest) (hid : r'.id = r.id) :
    Outer t { s with queue := r' :: rest } := by
  constructor
  · change ((r'.id :: rest.map (·.id)) ++ s.ended.map (·.1.id)).Nodup
    rw [hid]
    have hids := h.ids
    rw [hqueue] at hids
    exact hids
  · change ∀ i ∈ (r'.id :: rest.map (·.id)) ++ s.ended.map (·.1.id), i < s.nextId
    rw [hid]
    have hbelow := h.below
    rw [hqueue] at hbelow
    exact hbelow
  · exact h.outcomes
  · have hfresh := h.fresh
    rw [hqueue] at hfresh
    exact hfresh
  · have hunseen := h.unseen
    rw [hqueue] at hunseen
    exact hunseen
  · exact h.commands

/-- The answer for `CURRENT` is recorded. -/
theorem Outer.outcome (h : Outer t s) (hqueue : s.queue = r :: rest) {o : Outcome}
    (hid : o.id = r.id) : Outer t { s with outcomes := o :: s.outcomes } := by
  have hids := h.ids
  have hbelow := h.below
  rw [hqueue, List.map_cons, List.cons_append] at hids hbelow
  refine ⟨h.ids, h.below, ?_, h.fresh, ?_, h.commands⟩
  · intro o' ho'
    rcases List.mem_cons.mp ho' with rfl | ho'
    · rw [hid]
      exact hbelow r.id List.mem_cons_self
    · exact h.outcomes o' ho'
  · intro q hq o' ho'
    change q ∈ s.queue.tail at hq
    rcases List.mem_cons.mp ho' with rfl | ho'
    · rw [hqueue] at hq
      rw [hid]
      intro heq
      apply (List.nodup_cons.mp hids).1
      rw [heq]
      exact List.mem_append_left _ (List.mem_map_of_mem hq)
    · exact h.unseen q hq o' ho'

/-- Nothing has been acknowledged to a request that no command has been for. -/
theorem acks_eq_nil (h : ∀ o ∈ s.outcomes, o.id ≠ r.id) : s.acks r.id = [] := by
  rw [HardDisk.acks, List.filter_eq_nil_iff]
  intro o ho
  simpa using fun hid => absurd hid (h o ho)

theorem Done.zero (h : ∀ o ∈ s.outcomes, o.id ≠ r.id) : Done t s r 0 := by
  rw [Done]
  cases r.cmd with
  | read => exact fun j hj => absurd hj (Nat.not_lt_zero j)
  | write => exact acks_eq_nil h

/-- `end_request` leaves a request at the front that nothing has been done for. -/
theorem Outer.endRequest (h : Outer t s) (hqueue : s.queue = r :: rest) (up : Bool) :
    Outer t (s.endRequest up) ∧ Head t (s.endRequest up) ∧
      (s.endRequest up).ended = (r, up) :: s.ended := by
  have hstate := endRequest_cons hqueue up
  have hfresh := h.fresh
  have hunseen := h.unseen
  have hids := h.ids
  have hbelow := h.below
  rw [hqueue] at hfresh hunseen hids hbelow
  rw [hstate]
  refine ⟨⟨?_, ?_, h.outcomes, ?_, ?_, h.commands⟩, ?_, rfl⟩
  · exact (List.perm_middle.nodup_iff).mpr hids
  · exact fun i hi => hbelow i (List.perm_middle.mem_iff.mp hi)
  · exact fun q hq => hfresh q (List.mem_of_mem_tail hq)
  · exact fun q hq => hunseen q (List.mem_of_mem_tail hq)
  · intro q qs hq
    change rest = q :: qs at hq
    have hmem : q ∈ (r :: rest).tail := by
      rw [hq]
      exact List.mem_cons_self
    exact ⟨0, hfresh q hmem, fun _ => Done.zero (hunseen q hmem)⟩

/-- No request ends well. -/
def NotWell (s s' : HardDisk) : Prop := s'.ended = s.ended ∨ ∃ r, s'.ended = (r, false) :: s.ended

theorem NotWell.endsWell (h : NotWell s s') : EndsWell t s s' := by
  intro r hr
  rcases h with h | ⟨r', h⟩
  · rw [h] at hr
    exact absurd hr.symm (List.cons_ne_self _ _)
  · rw [h] at hr
    have hpair := (List.cons.inj hr).1
    exact absurd (congrArg Prod.snd hpair) Bool.false_ne_true

/-- After a failure `CURRENT` is at the same sector, or it has been ended. -/
theorem badRwIntr_outer (h : Outer t s) (hhead : Head t s) (hqueue : s.queue = r :: rest)
    (nullErrors : ℕ) :
    Outer t (s.badRwIntr nullErrors) ∧ Head t (s.badRwIntr nullErrors) ∧
      NotWell s (s.badRwIntr nullErrors) ∧ (s.badRwIntr nullErrors).busy = s.busy := by
  obtain ⟨k, hk, hdone⟩ := hhead r rest hqueue
  obtain ⟨r', hr'⟩ : ∃ r' : Request, { r with errors := r.errors + 1 } = r' := ⟨_, rfl⟩
  have hid : r'.id = r.id := by rw [← hr']
  have houter' : Outer t { s with queue := r' :: rest } := h.replace hqueue hid
  obtain ⟨reset, faults, ⟨-, heq⟩ | ⟨-, heq⟩⟩ := badRwIntr_cases hqueue nullErrors
  · rw [heq, hr']
    refine ⟨houter'.same ⟨rfl, rfl, rfl, rfl, rfl⟩, ?_, Or.inl rfl, rfl⟩
    intro q qs hq
    obtain ⟨rfl, rfl⟩ := List.cons.inj hq
    rw [← hr']
    exact ⟨k, ⟨hk.le, hk.sector, hk.nrSectors, hk.buffer⟩, hdone⟩
  · rw [heq, hr']
    obtain ⟨houter₂, hhead₂, -⟩ := houter'.endRequest rfl false
    rw [endRequest_cons rfl] at houter₂ hhead₂
    exact ⟨houter₂.same ⟨rfl, rfl, rfl, rfl, rfl⟩, hhead₂, Or.inr ⟨r', rfl⟩, rfl⟩

end Frames

end LihaLinux.Hd
