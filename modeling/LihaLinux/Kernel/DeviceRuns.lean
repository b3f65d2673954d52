import LihaLinux.Kernel.DeviceNumbers
import Mathlib.Tactic.Common

/-!
# Indices from device numbers

Which indices into the tables of devices are in range in a run. The terminal of a task has been
taken from a device number long before it is used, and a request long before a driver looks at it.
-/

namespace LihaLinux.Devices

/-- The type of a floppy is one in the table. -/
def FloppyOk (dev : DevNo) : Prop := major dev = 2 → minor dev < 32

namespace System

/-- The events that use no device number that is not looked at and too large: a terminal that a
session leader without one opens is one of the three, and so is one that `ioctl` is called for; and
a floppy that is read or written has a type in the table. -/
def Allowed (s : System) : Event → Prop
  | .openFile t _ inode => ∀ p, s.task t = some p → p.leader = true → p.tty < 0 →
    inode.kind = .chr → major inode.zone = 4 → minor inode.zone < 3
  | .ioctl t fd => ∀ f, s.file t fd = some f → major f.2.zone = 4 → minor f.2.zone < 3
  | .rw t fd count => ∀ f, s.file t fd = some f → 0 < count → f.2.kind = .blk → FloppyOk f.2.zone
  | .fileSystem dev => FloppyOk dev
  | _ => True

/-- A step with an event of this kind. -/
def AllowedStep (s s' : System) : Prop := ∃ e, s.Allowed e ∧ s.next e = some s'

/-- The terminals of tasks are in `tty_table`, and the buffers and requests for floppies have a type
in `floppy_type`. -/
structure Inv (s : System) : Prop where
  tty : ∀ t p, s.task t = some p → p.tty < 3
  buffers : ∀ dev ∈ s.buffers, FloppyOk dev
  queue : ∀ m, ∀ r ∈ s.queue m, FloppyOk r.dev
  log : s.InRange

section

variable {s s' : System} {t : ℕ} {p : Task} {inode : Special} {dev : DevNo}

/-- An index in range. -/
theorem Inv.index (h : s.Inv) (table : Table) {i : ℕ} (hi : i < table.size s.nrHd) :
    (s.index table i).Inv := by
  refine ⟨h.tty, h.buffers, h.queue, fun a ha => ?_⟩
  rcases List.mem_cons.mp ha with rfl | ha
  · exact hi
  · exact h.log a ha

/-- A task with a terminal in `tty_table`. -/
theorem Inv.setTask (h : s.Inv) (hp : p.tty < 3) : (s.setTask t p).Inv := by
  refine ⟨fun u q hq => ?_, h.buffers, h.queue, h.log⟩
  change Function.update s.task t (some p) u = some q at hq
  by_cases hu : u = t
  · rw [hu, Function.update_self] at hq
    cases hq
    exact hp
  · rw [Function.update_of_ne hu] at hq
    exact h.tty u q hq

/-- A queue of requests. -/
theorem Inv.setQueue (h : s.Inv) {m : ℕ} {q : List Request} (hq : ∀ r ∈ q, FloppyOk r.dev) :
    (s.setQueue m q).Inv := by
  refine ⟨h.tty, h.buffers, fun n r hr => ?_, h.log⟩
  change r ∈ Function.update s.queue m q n at hr
  by_cases hn : n = m
  · subst hn
    rw [Function.update_self] at hr
    exact hq r hr
  · rw [Function.update_of_ne hn] at hr
    exact h.queue n r hr

theorem Inv.setPgrp (h : s.Inv) {i : ℕ} (hi : i < 3) (pgrp : ℤ) : (s.setPgrp i pgrp).Inv := by
  have hlog := h.index .tty hi
  exact ⟨hlog.tty, hlog.buffers, hlog.queue, hlog.log⟩

/-! ### Special files -/

/-- `sys_open` takes one of the three terminals. -/
theorem Inv.sysOpen (h : s.Inv) (ht : s.task t = some p) {fd : ℕ}
    (hallowed : s.Allowed (.openFile t fd inode)) : (s.sysOpen t p fd inode).Inv := by
  have hp := h.tty t p ht
  rw [System.sysOpen]
  split_ifs with hmajor hleader hother
  · have hminor : minor inode.zone < 3 := hallowed p ht hleader.1 hleader.2 hmajor.1 hmajor.2
    apply (h.setPgrp hminor p.pgrp).setTask
    exact Int.ofNat_lt.mpr hminor
  · exact h.setTask hp
  · exact h
  · exact h.setTask hp

theorem Inv.rwChannel (h : s.Inv) (channel : ℕ) : (s.rwChannel channel).Inv := by
  rw [System.rwChannel]
  split_ifs with hchannel
  · exact h
  · exact h.index .tty (Nat.lt_succ_of_le (Nat.le_of_not_lt hchannel))

/-- `rw_char` looks at the major number, and the functions of terminals look at the minor one. -/
theorem Inv.rwChar (h : s.Inv) (p : Task) (dev : DevNo) : (s.rwChar p dev).Inv := by
  rw [System.rwChar]
  split_ifs with hmajor
  · exact h
  · have hcrw : (s.index .crw (major dev)).Inv := h.index .crw (Nat.lt_of_not_le hmajor)
    cases crwTable[major dev]?.join with
    | none => exact hcrw
    | some f =>
      cases f with
      | rwMemory => exact hcrw
      | rwTtyx => exact hcrw.rwChannel _
      | rwTty =>
        change ((s.index .crw (major dev)).rwTty p).Inv
        rw [System.rwTty]
        split_ifs
        · exact hcrw
        · exact hcrw.rwChannel _

/-- `sys_read` and `sys_write` give buffers to a floppy with a type in the table only. -/
theorem Inv.sysRw (h : s.Inv) {count : ℕ}
    (hfloppy : 0 < count → inode.kind = .blk → FloppyOk inode.zone) :
    (s.sysRw p inode count).Inv := by
  rw [System.sysRw]
  split_ifs with hcount
  · exact h
  · cases hkind : inode.kind with
    | chr => exact h.rwChar p inode.zone
    | blk =>
      have hok := hfloppy (Nat.pos_of_ne_zero hcount) hkind
      refine ⟨h.tty, fun dev hdev => ?_, h.queue, h.log⟩
      rcases List.mem_cons.mp hdev with rfl | hdev
      · exact hok
      · exact h.buffers dev hdev

/-- `tty_ioctl` uses the terminal of the task, or the minor number. -/
theorem Inv.ttyIoctl (h : s.Inv) (hp : p.tty < 3) (hmajor : major dev = 4 ∨ major dev = 5)
    (hminor : major dev = 4 → minor dev < 3) (hs : s.ttyIoctl p dev = some s') : s'.Inv := by
  rw [System.ttyIoctl] at hs
  split_ifs at hs with hfive hnone
  · cases hs
    apply h.index .tty
    change p.tty.toNat < 3
    omega
  · cases hs
    exact h.index .tty (hminor (hmajor.resolve_right hfive))

/-- The majors that have `tty_ioctl` in `ioctl_table`. -/
theorem ioctlTable_eq_true {m : ℕ} (h : ioctlTable[m]? = some true) : m = 4 ∨ m = 5 := by
  have hentries : ∀ m < 8, ioctlTable[m]? = some true → m = 4 ∨ m = 5 := by decide
  exact hentries m (List.getElem?_eq_some_iff.mp h).1 h

/-- `sys_ioctl` looks at the major number. -/
theorem Inv.sysIoctl (h : s.Inv) (hp : p.tty < 3)
    (hminor : major inode.zone = 4 → minor inode.zone < 3)
    (hs : s.sysIoctl p inode = some s') : s'.Inv := by
  rw [System.sysIoctl] at hs
  split_ifs at hs with hmajor htty
  · cases hs
    exact h
  · exact (h.index .ioctl (Nat.lt_of_not_le hmajor)).ttyIoctl hp
      (ioctlTable_eq_true htty) hminor hs
  · cases hs
    exact h.index .ioctl (Nat.lt_of_not_le hmajor)

/-- `do_exit` gives up one of the three terminals. -/
theorem Inv.doExit (h : s.Inv) (ht : s.task t = some p) : (s.doExit t p).Inv := by
  have hp := h.tty t p ht
  have hgone : ({ s with task := Function.update s.task t none } : System).Inv := by
    refine ⟨fun u q hq => ?_, h.buffers, h.queue, h.log⟩
    change Function.update s.task t none u = some q at hq
    by_cases hu : u = t
    · rw [hu, Function.update_self] at hq
      cases hq
    · rw [Function.update_of_ne hu] at hq
      exact h.tty u q hq
  rw [System.doExit]
  split_ifs with hleader
  · apply hgone.setPgrp
    omega
  · exact hgone

/-! ### Block devices -/

theorem Inv.addRequest (h : s.Inv) {m place : ℕ} {r : Request} (hr : FloppyOk r.dev) :
    (s.addRequest m place r).Inv := by
  have hold := h.queue m
  rw [System.addRequest]
  cases hqueue : s.queue m with
  | nil =>
    apply h.setQueue
    intro r' hr'
    rw [List.mem_singleton.mp hr']
    exact hr
  | cons current rest =>
    rw [hqueue] at hold
    apply h.setQueue
    intro r' hr'
    rw [List.mem_cons, List.mem_append, List.mem_cons] at hr'
    rcases hr' with rfl | hr' | rfl | hr'
    · exact hold _ List.mem_cons_self
    · exact hold _ (List.mem_cons_of_mem _ (List.mem_of_mem_take hr'))
    · exact hr
    · exact hold _ (List.mem_cons_of_mem _ (List.mem_of_mem_drop hr'))

/-- `ll_rw_block` looks at the major number. -/
theorem Inv.llRwBlock (h : s.Inv) (hdev : FloppyOk dev) (sector place : ℕ) :
    (s.llRwBlock dev sector place).Inv := by
  rw [System.llRwBlock]
  dsimp only
  split_ifs with hmajor
  · exact h
  · exact (h.index .blkDev (Nat.lt_of_not_le hmajor)).addRequest hdev
  · exact h.index .blkDev (Nat.lt_of_not_le hmajor)

/-- A request function keeps what looking at one request keeps. -/
theorem Inv.serve {attempt : System → Request → System × Bool} {m : ℕ} {q : List Request}
    (hattempt : ∀ (s : System) (r : Request), s.Inv → major r.dev = m → FloppyOk r.dev →
      (attempt s r).1.Inv)
    (h : s.Inv) (hq : ∀ r ∈ q, FloppyOk r.dev) (hs : serve attempt m q s = some s') : s'.Inv := by
  induction q generalizing s with
  | nil =>
    cases hs
    exact h.setQueue hq
  | cons r rest ih =>
    rw [System.serve] at hs
    dsimp only at hs
    split_ifs at hs with hmajor
    · have hone := hattempt s r h (Decidable.not_not.mp hmajor) (hq r List.mem_cons_self)
      exact ih hone (fun r' hr' => hq r' (List.mem_cons_of_mem r hr')) hs
    · have hone := hattempt s r h (Decidable.not_not.mp hmajor) (hq r List.mem_cons_self)
      cases hs
      exact hone.setQueue hq

/-- `do_fd_request` does not look at the type of the floppy. -/
theorem Inv.tryFd (h : s.Inv) {r : Request} (hmajor : major r.dev = 2) (hr : FloppyOk r.dev) :
    (tryFd s r).1.Inv := by
  apply h.index .floppyType
  have hminor := hr hmajor
  change minor r.dev / 4 < 8
  omega

/-- `do_hd_request` looks at the minor number. -/
theorem Inv.tryHd (h : s.Inv) (r : Request) : (tryHd s r).1.Inv := by
  rw [System.tryHd]
  split_ifs with hminor
  · exact h
  · exact h.index .hd (Nat.lt_of_not_le hminor)

theorem Inv.doRequest (h : s.Inv) {m : ℕ} {again : Bool} (hs : s.doRequest m again = some s') :
    s'.Inv := by
  rw [System.doRequest] at hs
  split_ifs at hs with hrd hfd hagain hhd
  · exact h.serve (fun _ _ hinv _ _ => hinv) (h.queue 1) hs
  · cases hs
    exact h
  · exact h.serve (fun _ _ hinv hmajor hr => hinv.tryFd hmajor hr) (h.queue 2) hs
  · exact h.serve (fun _ r hinv _ _ => hinv.tryHd r) (h.queue 3) hs

/-! ### Runs -/

/-- A file of a task is a file of one that is there. -/
theorem file_task {fd : ℕ} {f : Task × Special} (h : s.file t fd = some f) :
    s.task t = some f.1 := by
  rw [System.file] at h
  split_ifs at h
  rw [Option.bind_eq_some_iff] at h
  obtain ⟨q, hq, hf⟩ := h
  rw [Option.map_eq_some_iff] at hf
  obtain ⟨inode, -, rfl⟩ := hf
  exact hq

/-- The invariant is kept by every event that is allowed. -/
theorem Inv.next (h : s.Inv) {e : Event} (hallowed : s.Allowed e) (hs : s.next e = some s') :
    s'.Inv := by
  cases e with
  | fork t child pid =>
    rw [System.next] at hs
    split_ifs at hs
    rw [Option.map_eq_some_iff] at hs
    obtain ⟨p, hp, rfl⟩ := hs
    exact h.setTask (h.tty t p hp)
  | setsid t suser =>
    rw [System.next, Option.map_eq_some_iff] at hs
    obtain ⟨p, hp, rfl⟩ := hs
    split_ifs
    · exact h
    · have hnone : (-1 : ℤ) < 3 := by decide
      exact h.setTask hnone
  | dup t fd arg =>
    rw [System.next, Option.bind_eq_some_iff] at hs
    obtain ⟨f, hf, hs⟩ := hs
    split_ifs at hs
    cases hs
    exact h.setTask (h.tty t f.1 (file_task hf))
  | openFile t fd inode =>
    rw [System.next, Option.bind_eq_some_iff] at hs
    obtain ⟨p, hp, hs⟩ := hs
    split_ifs at hs
    cases hs
    exact h.sysOpen hp hallowed
  | close t fd =>
    rw [System.next, Option.map_eq_some_iff] at hs
    obtain ⟨f, hf, rfl⟩ := hs
    exact h.setTask (h.tty t f.1 (file_task hf))
  | rw t fd count =>
    rw [System.next, Option.map_eq_some_iff] at hs
    obtain ⟨f, hf, rfl⟩ := hs
    exact h.sysRw (hallowed f hf)
  | ioctl t fd =>
    rw [System.next, Option.bind_eq_some_iff] at hs
    obtain ⟨f, hf, hs⟩ := hs
    exact h.sysIoctl (h.tty t f.1 (file_task hf)) (hallowed f hf) hs
  | exit t =>
    rw [System.next, Option.map_eq_some_iff] at hs
    obtain ⟨p, hp, rfl⟩ := hs
    exact h.doExit hp
  | fileSystem dev =>
    cases hs
    refine ⟨h.tty, fun dev' hdev' => ?_, h.queue, h.log⟩
    rcases List.mem_cons.mp hdev' with rfl | hdev'
    · exact hallowed
    · exact h.buffers dev' hdev'
  | llRwBlock dev sector place =>
    rw [System.next] at hs
    split_ifs at hs with hdev
    cases hs
    exact h.llRwBlock (h.buffers dev hdev) sector place
  | doRequest m again => exact h.doRequest hs
  | endRequest m =>
    have hold := h.queue m
    rw [System.next] at hs
    cases hqueue : s.queue m with
    | nil =>
      rw [hqueue] at hs
      cases hs
    | cons r rest =>
      rw [hqueue] at hs hold
      cases hs
      exact h.setQueue fun r' hr' => hold r' (List.mem_cons_of_mem r hr')

/-- At boot no task has a terminal. -/
theorem inv_of_boot (h : s.Boot) : s.Inv := by
  refine ⟨fun t p hp => ?_, fun dev hdev => ?_, fun m r hr => ?_, fun a ha => ?_⟩
  · rw [h.task] at hp
    by_cases ht : t = 0
    · rw [ht, Function.update_self] at hp
      cases hp
      decide
    · rw [Function.update_of_ne ht] at hp
      cases hp
  · rw [h.buffers] at hdev
    cases hdev
  · rw [h.queue] at hr
    cases hr
  · rw [h.log] at ha
    cases ha

/-- In every run of allowed steps all indices from device numbers are in range, in each of its
states. -/
theorem inRange_of_allowed (h : Reachable Boot AllowedStep s) : s.InRange := by
  apply Inv.log
  apply Reachable.invariant (fun s hs => inv_of_boot hs) _ h
  rintro s s' hinv ⟨e, hallowed, hstep⟩
  exact hinv.next hallowed hstep

/-! ### The events that are left out -/

/-- An index out of range stays in the record. -/
theorem not_inRange {table : Table} {i : ℕ} (hi : table.size s.nrHd ≤ i)
    (hlog : (table, i) ∈ s.log) : ¬s.InRange := by
  intro hrange
  exact absurd (hrange _ hlog) (Nat.not_lt_of_le hi)

/-- The last request of a queue becomes the current one. -/
theorem exists_run_last {m : ℕ} {q : List Request} {r : Request} (hqueue : s.queue m = q ++ [r]) :
    ∃ s', Relation.ReflTransGen Step s s' ∧ s'.queue m = [r] := by
  induction q generalizing s with
  | nil => exact ⟨s, .refl, hqueue⟩
  | cons r' q ih =>
    have hstep : s.next (.endRequest m) = some (s.setQueue m (q ++ [r])) := by
      rw [System.next, hqueue]
      rfl
    have hshorter : (s.setQueue m (q ++ [r])).queue m = q ++ [r] := Function.update_self _ _ _
    obtain ⟨s', hrun, hlast⟩ := ih hshorter
    exact ⟨s', .head ⟨_, hstep⟩ hrun, hlast⟩

/-- A request can be put behind all others. -/
theorem queue_addRequest_last (s : System) (m : ℕ) (r : Request) :
    (s.addRequest m (s.queue m).length r).queue m = s.queue m ++ [r] := by
  rw [System.addRequest]
  cases s.queue m with
  | nil =>
    change Function.update s.queue m [r] m = [] ++ [r]
    rw [Function.update_self, List.nil_append]
  | cons current rest =>
    change Function.update s.queue m (current :: (rest.take (rest.length + 1) ++
      r :: rest.drop (rest.length + 1))) m = current :: (rest ++ [r])
    rw [Function.update_self, List.take_of_length_le (Nat.le_succ _),
      List.drop_of_length_le (Nat.le_succ _)]

/-- `do_fd_request` takes the type of the current request. -/
theorem mem_log_doRequest {r : Request} (hqueue : s.queue 2 = [r]) (hmajor : major r.dev = 2) :
    ∃ s', s.doRequest 2 false = some s' ∧ (.floppyType, minor r.dev / 4) ∈ s'.log := by
  rw [System.doRequest, if_neg (by decide), if_pos rfl, if_neg Bool.false_ne_true, hqueue,
    System.serve, if_neg (not_not_intro hmajor)]
  dsimp only
  by_cases hended : (tryFd s r).2 = true
  · rw [if_pos hended]
    exact ⟨_, rfl, List.mem_cons_self⟩
  · rw [if_neg hended]
    exact ⟨_, rfl, List.mem_cons_self⟩

/-- A buffer of a floppy without a type in the table makes an index out of range once it is
requested. -/
theorem exists_run_floppy (hfn : s.requestFn 2 = true) (hdev : dev ∈ s.buffers)
    (hbad : ¬FloppyOk dev) : ∃ s', Relation.ReflTransGen Step s s' ∧ ¬s'.InRange := by
  obtain ⟨hmajor, hminor⟩ := Classical.not_imp.mp hbad
  have hrequest : s.next (.llRwBlock dev 0 (s.queue 2).length) =
      some ((s.index .blkDev 2).addRequest 2 (s.queue 2).length ⟨dev, 0⟩) := by
    rw [System.next, if_pos hdev, System.llRwBlock, hmajor, if_neg (by decide)]
    exact congrArg some (if_pos hfn)
  obtain ⟨s₁, hrun, hlast⟩ := exists_run_last
    (queue_addRequest_last (s.index .blkDev 2) 2 ⟨dev, 0⟩)
  obtain ⟨s', hstep, hlog⟩ := mem_log_doRequest hlast hmajor
  refine ⟨s', (hrun.head ⟨_, hrequest⟩).tail ⟨.doRequest 2 false, hstep⟩, ?_⟩
  apply not_inRange _ hlog
  change 8 ≤ minor dev / 4
  omega

/-- An event that is not allowed makes an index out of range, at once or later in the run. -/
theorem exists_run_of_not_allowed {e : Event} (hfn : s'.requestFn 2 = true)
    (hs : s.next e = some s') (h : ¬s.Allowed e) :
    ∃ s'', Relation.ReflTransGen Step s' s'' ∧ ¬s''.InRange := by
  cases e with
  | openFile t fd inode =>
    rw [System.next, Option.bind_eq_some_iff] at hs
    obtain ⟨p, hp, hs⟩ := hs
    split_ifs at hs
    cases hs
    refine ⟨_, .refl, fun hrange => h ?_⟩
    intro q hq hleader htty hkind hmajor
    cases hp.symm.trans hq
    rw [System.sysOpen] at hrange
    dsimp only at hrange
    rw [if_pos ⟨hkind, hmajor⟩, if_pos ⟨hleader, htty⟩] at hrange
    exact hrange (.tty, minor inode.zone) List.mem_cons_self
  | ioctl t fd =>
    rw [System.next, Option.bind_eq_some_iff] at hs
    obtain ⟨f, hf, hs⟩ := hs
    refine ⟨s', .refl, fun hrange => h ?_⟩
    intro g hg hmajor
    cases hf.symm.trans hg
    rw [System.sysIoctl, hmajor, if_neg (by decide)] at hs
    dsimp only at hs
    rw [if_pos (by decide), System.ttyIoctl, hmajor, if_neg (by decide)] at hs
    cases hs
    exact hrange (.tty, minor f.2.zone) List.mem_cons_self
  | rw t fd count =>
    rw [System.next, Option.map_eq_some_iff] at hs
    obtain ⟨f, hf, rfl⟩ := hs
    by_contra hnone
    apply h
    intro g hg hcount hkind
    cases hf.symm.trans hg
    by_contra hbad
    apply hnone
    have hbuffer : f.2.zone ∈ (s.sysRw f.1 f.2 count).buffers := by
      rw [System.sysRw, if_neg (Nat.pos_iff_ne_zero.mp hcount), hkind]
      exact List.mem_cons_self
    exact exists_run_floppy hfn hbuffer hbad
  | fileSystem dev =>
    cases hs
    exact exists_run_floppy hfn List.mem_cons_self h
  | _ => exact absurd trivial h

end

/-- The system at boot with one hard disk and no diskette larger than the table says. -/
def boot : System where
  task := Function.update (fun _ => none) 0 (some ⟨0, 0, false, -1, fun _ => none⟩)
  ttyPgrp := fun _ => 0
  buffers := []
  requestFn := fun m => m = 2 ∨ m = 3
  queue := fun _ => []
  floppySize := fun _ => 1440
  nrHd := 1
  hdSects := fun _ => 1000
  log := []

/-- Not every index from a device number is in range: a session leader opens the character special
file 0x0440. -/
theorem not_inRange_serial : ¬∀ s, Reachable Boot Step s → s.InRange := by
  intro h
  have hrun : (runEvents next boot [.fork 0 1 1, .setsid 1 false,
      .openFile 1 0 ⟨.chr, 0x0440⟩]).any (fun s => s.log = [(Table.tty, 64)]) = true := by
    decide
  have hboot : Reachable Boot Step boot := .of_init ⟨rfl, rfl, rfl, rfl⟩
  obtain ⟨s, hs, -, hlog⟩ := hboot.exists_runEvents (fun _ e _ he => ⟨e, he⟩) hrun
  have hmem : (Table.tty, 64) ∈ s.log := by
    rw [of_decide_eq_true hlog]
    exact List.mem_singleton_self _
  have hsize : Table.size s.nrHd .tty ≤ 64 := by
    change 3 ≤ 64
    decide
  exact not_inRange hsize hmem (h s hs)

/-- A session leader opens the terminal 0, and its index is in range. -/
theorem inRange_of_allowed_console :
    ∃ s, Reachable Boot AllowedStep s ∧ s.log = [(.tty, 0)] ∧ s.InRange := by
  obtain ⟨p, hp⟩ : ∃ p : Task, p = ⟨1, 0, false, -1, fun _ => none⟩ := ⟨_, rfl⟩
  obtain ⟨q, hq⟩ : ∃ q : Task, q = ⟨1, 1, true, -1, fun _ => none⟩ := ⟨_, rfl⟩
  have hboot : Reachable Boot AllowedStep boot := .of_init ⟨rfl, rfl, rfl, rfl⟩
  have hfork : AllowedStep boot (boot.setTask 1 p) := ⟨.fork 0 1 1, trivial, by rw [hp]; rfl⟩
  have hsetsid : AllowedStep (boot.setTask 1 p) ((boot.setTask 1 p).setTask 1 q) :=
    ⟨.setsid 1 false, trivial, by rw [hp, hq]; rfl⟩
  have hopen : AllowedStep ((boot.setTask 1 p).setTask 1 q)
      (((boot.setTask 1 p).setTask 1 q).sysOpen 1 q 0 ⟨.chr, 0x0400⟩) := by
    refine ⟨.openFile 1 0 ⟨.chr, 0x0400⟩, fun _ _ _ _ _ _ => by decide, ?_⟩
    rw [hq]
    rfl
  have hrun := ((hboot.tail hfork).tail hsetsid).tail hopen
  refine ⟨_, hrun, ?_, inRange_of_allowed hrun⟩
  rw [hq]
  rfl

end System

end LihaLinux.Devices
