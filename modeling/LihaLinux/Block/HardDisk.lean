import LihaLinux.Lib.StringOps
import LihaLinux.Lib.Transition

/-!
# The hard disk

`hd.c` with its controller. The controller answers a `READ` or `WRITE` with an interrupt for each
sector, and an error ends the command; every other command has one interrupt. A pass is one round
of `do_hd_request`, up to its return or its jump back to `repeat`.
-/

namespace LihaLinux.Hd

/-! ### Requests -/

/-- `READ` and `WRITE`. -/
inductive Cmd
  | read | write
  deriving DecidableEq

/-- `b_blocknr` and `b_data` of a buffer. -/
structure BufferHead where
  blocknr : ℕ
  data : ℕ

/-- `struct request`, with the number of the call of `make_request` that has filled it in. The
device is a minor number. -/
structure Request where
  id : ℕ
  dev : ℕ
  cmd : Cmd
  errors : ℕ
  sector : ℕ
  nrSectors : ℕ
  buffer : ℕ
  bh : BufferHead

/-- The request of `make_request`. -/
def makeRequest (id dev : ℕ) (cmd : Cmd) (bh : BufferHead) : Request where
  id
  dev
  cmd
  errors := 0
  sector := mul32 bh.blocknr 2
  nrSectors := 2
  buffer := bh.data
  bh

/-! ### The disks -/

/-- `struct hd_i_struct`. -/
structure HdInfo where
  head : ℕ
  sect : ℕ
  cyl : ℕ

/-- `struct hd_struct`. -/
structure Partition where
  startSect : ℕ
  nrSects : ℕ

/-- `hd_info`, `hd` and `NR_HD`. -/
structure Tables where
  hdInfo : ℕ → HdInfo
  hd : ℕ → Partition
  nrHd : ℕ

/-- The bytes of a sector. -/
abbrev Sector : Type := Fin 512 → BitVec 8

/-- A `READ` or a `WRITE` in the registers of the controller, and what `CURRENT` was. -/
structure Command where
  request : Request
  cmd : Cmd
  drive : ℕ
  nsect : ℕ
  sect : ℕ
  head : ℕ
  cyl : ℕ

/-- `outb` takes a byte, and there are two for the cylinder. -/
def command (r : Request) (drive nsect sect head cyl : ℕ) : Command :=
  ⟨r, r.cmd, drive, nsect % 256, sect % 256, head, cyl % 65536⟩

/-- The first sector that a command is for. -/
def Command.first (t : Tables) (c : Command) : ℕ :=
  (c.cyl * (t.hdInfo c.drive).head + c.head) * (t.hdInfo c.drive).sect + (c.sect - 1)

/-- What the controller is doing: nothing, a command without data, or a transfer of which some
sectors are done. -/
inductive Busy
  | idle
  | other
  | transfer (c : Command) (done : ℕ)

/-- The functions that `do_hd` can be. -/
inductive Handler
  | null | read | write | recal
  deriving DecidableEq

/-- The answer of the controller for one sector. -/
structure Outcome where
  id : ℕ
  drive : ℕ
  sector : ℕ
  ok : Bool
  data : Sector

/-- What must not happen to `CURRENT`: it is read when it is `NULL`, or the next request is read in
place of the one that has failed. -/
inductive Fault
  | null | stale
  deriving DecidableEq

/-- The driver, the controller, the memory and the disks, with a record of the commands, of the
answers, of the calls of `end_request` and of the faults, the last one first. -/
structure HardDisk where
  queue : List Request
  doHd : Handler
  reset : Bool
  recalibrate : Bool
  /-- `do_hd_request` is running. -/
  requesting : Bool
  busy : Busy
  port : Sector
  mem : ℕ → BitVec 8
  disk : ℕ → ℕ → Sector
  nextId : ℕ
  commands : List Command
  outcomes : List Outcome
  ended : List (Request × Bool)
  faults : List Fault

theorem sector_index {a x : ℕ} (h : a ≤ x ∧ x < a + 512) : x - a < 512 := by omega

/-- The bytes of memory at an address. -/
def slice (mem : ℕ → BitVec 8) (a : ℕ) : Sector := fun i => mem (a + i)

namespace HardDisk

variable (t : Tables) (s : HardDisk)

/-! ### The controller -/

/-- `port_read`. -/
def portRead (a : ℕ) : HardDisk :=
  { s with
    mem := fun x => if h : a ≤ x ∧ x < a + 512 then s.port ⟨x - a, sector_index h⟩ else s.mem x }

/-- `port_write`. -/
def portWrite (a : ℕ) : HardDisk := { s with port := slice s.mem a }

/-- A sector is read from the disk or written to it. -/
def moveSector (c : Command) (sector : ℕ) : HardDisk :=
  match c.cmd with
  | .read => { s with port := s.disk c.drive sector }
  | .write =>
    { s with
      disk := Function.update s.disk c.drive (Function.update (s.disk c.drive) sector s.port) }

/-- The controller has done a sector or has found an error. -/
def complete (ok : Bool) : HardDisk :=
  match s.busy with
  | .idle => s
  | .other => { s with busy := .idle }
  | .transfer c n =>
    let sector := c.first t + n
    let moved := s.moveSector c sector
    let outcome : Outcome := ⟨c.request.id, c.drive, sector, ok, moved.port⟩
    if ok then
      { moved with
        busy := if n + 1 = c.nsect then .idle else .transfer c (n + 1)
        outcomes := outcome :: s.outcomes }
    else { s with busy := .idle, outcomes := outcome :: s.outcomes }

/-- `hd_out`. There is no result if it panics. -/
def hdOut (ready : Bool) (drive head : ℕ) (busy : Busy) (handler : Handler) : Option HardDisk :=
  if 1 < drive ∨ 15 < head ∨ ready = false then none
  else some { s with doHd := handler, busy := busy }

/-! ### The driver -/

/-- Record a fault. -/
def fault (f : Fault) : HardDisk := { s with faults := f :: s.faults }

/-- `end_request`. -/
def endRequest (uptodate : Bool) : HardDisk :=
  match s.queue with
  | [] => s.fault .null
  | r :: rest => { s with queue := rest, ended := (r, uptodate) :: s.ended }

/-- `if (CURRENT->errors > MAX_ERRORS/2) reset = 1`, for the request that has failed. At the
address of `errors` from `NULL` there is any number. -/
def checkErrors (failed nullErrors : ℕ) : HardDisk :=
  match s.queue with
  | [] =>
    let s := s.fault .null
    if 3 < nullErrors then { s with reset := true } else s
  | r :: _ =>
    let s := if r.id = failed then s else s.fault .stale
    if 3 < r.errors then { s with reset := true } else s

/-- `bad_rw_intr`. -/
def badRwIntr (nullErrors : ℕ) : HardDisk :=
  match s.queue with
  | [] => s.fault .null
  | r :: rest =>
    let s := { s with queue := { r with errors := r.errors + 1 } :: rest }
    (if 7 ≤ r.errors + 1 then s.endRequest false else s).checkErrors r.id nullErrors

/-- `do_hd_request` is called. -/
def call : HardDisk := { s with requesting := true }

/-- `read_intr`. -/
def readIntr (ok : Bool) (nullErrors : ℕ) : HardDisk :=
  if ok then
    match s.queue with
    | [] => s.fault .null
    | r :: rest =>
      let r' := { r with
        errors := 0
        buffer := r.buffer + 512
        sector := add32 r.sector 1
        nrSectors := sub32 r.nrSectors 1 }
      let s := { s.portRead r.buffer with queue := r' :: rest }
      if r'.nrSectors ≠ 0 then { s with doHd := .read } else (s.endRequest true).call
  else (s.badRwIntr nullErrors).call

/-- `write_intr`. -/
def writeIntr (ok : Bool) (nullErrors : ℕ) : HardDisk :=
  if ok then
    match s.queue with
    | [] => s.fault .null
    | r :: rest =>
      let r' := { r with nrSectors := sub32 r.nrSectors 1 }
      if r'.nrSectors ≠ 0 then
        let r' := { r' with sector := add32 r.sector 1, buffer := r.buffer + 512 }
        { s.portWrite r'.buffer with queue := r' :: rest, doHd := .write }
      else (({ s with queue := r' :: rest } : HardDisk).endRequest true).call
  else (s.badRwIntr nullErrors).call

/-- `recal_intr`. -/
def recalIntr (ok : Bool) (nullErrors : ℕ) : HardDisk :=
  if ok then s.call else (s.badRwIntr nullErrors).call

/-- `hd_interrupt` with the function in `do_hd`. -/
def interrupt (ok : Bool) (nullErrors : ℕ) : HardDisk :=
  let s := s.complete t ok
  let s' := { s with doHd := .null }
  match s.doHd with
  | .null => s'
  | .read => s'.readIntr ok nullErrors
  | .write => s'.writeIntr ok nullErrors
  | .recal => s'.recalIntr ok nullErrors

/-- The end of a pass for the request `r`, with the command for its next sector. -/
def issue (ready drq : Bool) (nullErrors : ℕ) (r : Request) (c : Command) : Option HardDisk :=
  let s := { s with commands := c :: s.commands, requesting := false }
  match r.cmd with
  | .write =>
    (s.hdOut ready c.drive c.head (.transfer c 0) .write).map fun s =>
      if drq then s.portWrite r.buffer
      else (({ s with busy := .idle } : HardDisk).badRwIntr nullErrors).call
  | .read => s.hdOut ready c.drive c.head (.transfer c 0) .read

/-- A pass of `do_hd_request`. -/
def pass (ready drq : Bool) (nullErrors : ℕ) : Option HardDisk :=
  match s.queue with
  | [] => some { s with requesting := false }
  | r :: _ =>
    if 5 * t.nrHd ≤ r.dev ∨ (t.hd r.dev).nrSects < add32 r.sector 2 then some (s.endRequest false)
    else
      let drive := r.dev / 5
      let info := t.hdInfo drive
      if info.sect = 0 ∨ info.head = 0 then none
      else
        let block := add32 r.sector (t.hd r.dev).startSect
        let track := block / info.sect
        if s.reset then
          ({ s with reset := false, recalibrate := true, requesting := false } : HardDisk).hdOut
            ready drive (sub32 info.head 1) .other .recal
        else if s.recalibrate then
          ({ s with recalibrate := false, requesting := false } : HardDisk).hdOut
            ready drive 0 .other .recal
        else
          s.issue ready drq nullErrors r (command r drive r.nrSectors (block % info.sect + 1)
            (track % info.head) (track / info.head))

/-- `make_request` and `add_request`, which puts the request at any place after `CURRENT`. -/
def addRequest (dev : ℕ) (cmd : Cmd) (bh : BufferHead) (place : ℕ) : HardDisk :=
  let r := makeRequest s.nextId dev cmd bh
  let s := { s with nextId := s.nextId + 1 }
  match s.queue with
  | [] => ({ s with queue := [r] } : HardDisk).call
  | q :: qs => { s with queue := q :: (qs.take place ++ r :: qs.drop place) }

end HardDisk

/-! ### What the functions do -/

section Functions

variable {t : Tables} {s : HardDisk} {r : Request} {rest : List Request} {c : Command} {n : ℕ}

theorem endRequest_cons (hqueue : s.queue = r :: rest) (up : Bool) :
    s.endRequest up = { s with queue := rest, ended := (r, up) :: s.ended } := by
  rw [HardDisk.endRequest, hqueue]

/-- Only `reset` and the record of the faults depend on the errors. -/
theorem checkErrors_eq (failed nullErrors : ℕ) :
    ∃ reset faults, s.checkErrors failed nullErrors =
      { s with reset := reset, faults := faults } := by
  rw [HardDisk.checkErrors]
  split
  · split_ifs
    · exact ⟨_, _, rfl⟩
    · exact ⟨_, _, rfl⟩
  · split_ifs <;> exact ⟨_, _, rfl⟩

/-- After a failure `CURRENT` has one error more, or it is ended. -/
theorem badRwIntr_cases (hqueue : s.queue = r :: rest) (nullErrors : ℕ) :
    ∃ reset faults,
      (r.errors + 1 < 7 ∧ s.badRwIntr nullErrors =
        { s with
          queue := { r with errors := r.errors + 1 } :: rest
          reset := reset
          faults := faults }) ∨
      (7 ≤ r.errors + 1 ∧ s.badRwIntr nullErrors =
        { s with
          queue := rest
          ended := ({ r with errors := r.errors + 1 }, false) :: s.ended
          reset := reset
          faults := faults }) := by
  obtain ⟨s₁, hs₁⟩ : ∃ s₁ : HardDisk,
    { s with queue := { r with errors := r.errors + 1 } :: rest } = s₁ := ⟨_, rfl⟩
  have hqueue₁ : s₁.queue = { r with errors := r.errors + 1 } :: rest := by rw [← hs₁]
  have hbad : s.badRwIntr nullErrors = (if 7 ≤ r.errors + 1 then s₁.endRequest false
      else s₁).checkErrors r.id nullErrors := by
    rw [HardDisk.badRwIntr, hqueue]
    dsimp only
    rw [hs₁]
  rw [hbad]
  split_ifs with hmax
  · rw [endRequest_cons hqueue₁]
    obtain ⟨reset, faults, heq⟩ := @checkErrors_eq
      { s₁ with
        queue := rest
        ended := ({ r with errors := r.errors + 1 }, false) :: s₁.ended } r.id nullErrors
    refine ⟨reset, faults, Or.inr ⟨hmax, ?_⟩⟩
    rw [heq, ← hs₁]
  · obtain ⟨reset, faults, heq⟩ := @checkErrors_eq s₁ r.id nullErrors
    refine ⟨reset, faults, Or.inl ⟨Nat.lt_of_not_le hmax, ?_⟩⟩
    rw [heq, ← hs₁]

/-- What becomes of the queue when a sector of `CURRENT` is done. -/
structure SectorDone (s s' : HardDisk) (r r' : Request) (rest : List Request) : Prop where
  queue : s'.queue = r' :: rest ∧ s'.ended = s.ended ∧ s'.requesting = s.requesting ∧
      s'.busy = s.busy ∧ sub32 r.nrSectors 1 ≠ 0 ∨
    s'.queue = rest ∧ s'.ended = (r', true) :: s.ended

theorem readIntr_done (hqueue : s.queue = r :: rest) (nullErrors : ℕ) :
    ∃ r' : Request, r'.errors = 0 ∧ SectorDone s (s.readIntr true nullErrors) r r' rest := by
  obtain ⟨nr, hnr⟩ : ∃ nr, sub32 r.nrSectors 1 = nr := ⟨_, rfl⟩
  rw [HardDisk.readIntr, if_pos rfl, hqueue]
  dsimp only
  refine ⟨{ r with
    errors := 0
    buffer := r.buffer + 512
    sector := add32 r.sector 1
    nrSectors := sub32 r.nrSectors 1 }, rfl, ?_⟩
  rw [hnr]
  split_ifs with hmore
  · refine ⟨Or.inl ⟨rfl, rfl, rfl, rfl, ?_⟩⟩
    rw [hnr]
    exact hmore
  · rw [endRequest_cons rfl]
    exact ⟨Or.inr ⟨rfl, rfl⟩⟩

theorem writeIntr_done (hqueue : s.queue = r :: rest) (nullErrors : ℕ) :
    ∃ r' : Request, r'.errors = r.errors ∧
      SectorDone s (s.writeIntr true nullErrors) r r' rest := by
  obtain ⟨nr, hnr⟩ : ∃ nr, sub32 r.nrSectors 1 = nr := ⟨_, rfl⟩
  rw [HardDisk.writeIntr, if_pos rfl, hqueue]
  dsimp only
  rw [hnr]
  split_ifs with hmore
  · refine ⟨{ r with nrSectors := nr, sector := add32 r.sector 1, buffer := r.buffer + 512 }, rfl,
      ⟨Or.inl ⟨rfl, rfl, rfl, rfl, ?_⟩⟩⟩
    rw [hnr]
    exact hmore
  · rw [endRequest_cons rfl]
    exact ⟨{ r with nrSectors := nr }, rfl, ⟨Or.inr ⟨rfl, rfl⟩⟩⟩

/-- The interrupt after a command without data. -/
theorem interrupt_other (hbusy : s.busy = .other) (hdoHd : s.doHd = .recal) (ok : Bool)
    (nullErrors : ℕ) :
    s.interrupt t ok nullErrors =
      ({ s with busy := .idle, doHd := .null } : HardDisk).recalIntr ok nullErrors := by
  rw [HardDisk.interrupt, HardDisk.complete, hbusy]
  dsimp only
  rw [hdoHd]

/-- The interrupt for a sector that cannot be transferred. -/
theorem interrupt_failed (hbusy : s.busy = .transfer c n)
    (hdoHd : s.doHd = .read ∨ s.doHd = .write) (nullErrors : ℕ) :
    ∃ data, s.interrupt t false nullErrors =
      (({ s with
        busy := .idle
        outcomes := ⟨c.request.id, c.drive, c.first t + n, false, data⟩ :: s.outcomes
        doHd := .null } : HardDisk).badRwIntr nullErrors).call := by
  refine ⟨(s.moveSector c (c.first t + n)).port, ?_⟩
  rw [HardDisk.interrupt, HardDisk.complete, hbusy]
  dsimp only
  rw [if_neg Bool.false_ne_true]
  rcases hdoHd with hdoHd | hdoHd
  · rw [hdoHd]
    exact if_neg Bool.false_ne_true
  · rw [hdoHd]
    exact if_neg Bool.false_ne_true

/-- The interrupt for a sector that has been read. -/
theorem interrupt_read (hbusy : s.busy = .transfer c n) (hdoHd : s.doHd = .read)
    (hcmd : c.cmd = .read) (nullErrors : ℕ) :
    s.interrupt t true nullErrors =
      ({ s with
        port := s.disk c.drive (c.first t + n)
        busy := if n + 1 = c.nsect then .idle else .transfer c (n + 1)
        outcomes := ⟨c.request.id, c.drive, c.first t + n, true,
          s.disk c.drive (c.first t + n)⟩ :: s.outcomes
        doHd := .null } : HardDisk).readIntr true nullErrors := by
  rw [HardDisk.interrupt, HardDisk.complete, hbusy]
  dsimp only
  rw [if_pos rfl, HardDisk.moveSector, hcmd]
  dsimp only
  rw [hdoHd]

/-- The interrupt for a sector that has been written. -/
theorem interrupt_write (hbusy : s.busy = .transfer c n) (hdoHd : s.doHd = .write)
    (hcmd : c.cmd = .write) (nullErrors : ℕ) :
    s.interrupt t true nullErrors =
      ({ s with
        disk := Function.update s.disk c.drive
          (Function.update (s.disk c.drive) (c.first t + n) s.port)
        busy := if n + 1 = c.nsect then .idle else .transfer c (n + 1)
        outcomes := ⟨c.request.id, c.drive, c.first t + n, true, s.port⟩ :: s.outcomes
        doHd := .null } : HardDisk).writeIntr true nullErrors := by
  rw [HardDisk.interrupt, HardDisk.complete, hbusy]
  dsimp only
  rw [if_pos rfl, HardDisk.moveSector, hcmd]
  dsimp only
  rw [hdoHd]

end Functions

/-! ### Runs -/

/-- What happens: an interrupt, a pass of `do_hd_request`, or a request of a process. -/
inductive Event
  | interrupt (ok : Bool) (nullErrors : ℕ)
  | pass (ready drq : Bool) (nullErrors : ℕ)
  | add (dev : ℕ) (cmd : Cmd) (bh : BufferHead) (place : ℕ)

namespace HardDisk

/-- The state after an event. There is none if the driver panics. -/
def next (t : Tables) (s : HardDisk) : Event → Option HardDisk
  | .interrupt ok nullErrors =>
    if s.requesting then none else some (s.interrupt t ok nullErrors)
  | .pass ready drq nullErrors =>
    if s.requesting then s.pass t ready drq nullErrors else none
  | .add dev cmd bh place => if s.requesting then none else some (s.addRequest dev cmd bh place)

/-- The state after `hd_init`. -/
structure Boot (s : HardDisk) : Prop where
  queue : s.queue = []
  doHd : s.doHd = .null
  requesting : s.requesting = false
  busy : s.busy = .idle
  commands : s.commands = []
  outcomes : s.outcomes = []
  ended : s.ended = []
  faults : s.faults = []

end HardDisk

end LihaLinux.Hd
