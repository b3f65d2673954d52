import LihaLinux.Kernel.Kill
import Mathlib.Data.Fintype.Card
import Mathlib.Data.Fintype.Pigeonhole

/-!
# The process table

Numbers wrap around and skip those in use, a task that exits gives its children to task 1, and
the entries of zombies are used again. In every run all numbers differ, every task has a father
in the table, and no task is reported twice.
-/

namespace LihaLinux.Kernel

namespace Processes

/-! ### Invariants -/

/-- The invariant of the table. A task in `do_exit` has no children any more. -/
structure Inv (s : Processes) : Prop where
  lastPid : 0 ≤ s.lastPid ∧ s.lastPid < 2147483648
  bound : ∀ i p, s.task i = some p → i < nrTasks
  zero : ∃ p, s.task 0 = some p ∧ p.pid = 0 ∧ p.pos ≠ .exiting
  one : ∀ p, s.task 1 = some p → p.pid = 1 ∧ p.pos ≠ .exiting
  alone : s.lastPid = 0 → ∀ i, i ≠ 0 → s.task i = none
  init : ∀ i p, 2 ≤ i → s.task i = some p → (s.task 1).isSome = true
  pid_pos : ∀ i p, i ≠ 0 → s.task i = some p → 0 < p.pid
  pid_inj : ∀ i j p q, s.task i = some p → s.task j = some q → p.pid = q.pid → i = j
  father : ∀ i p, 2 ≤ i → s.task i = some p →
    0 < p.father ∧ ∃ j q, s.task j = some q ∧ q.pid = p.father ∧ q.pos ≠ .exiting
  zombie : ∀ i p, s.task i = some p → p.state = .zombie → p.pos = .exiting

/-- The numbers of the tasks that there have been. -/
structure Serials (s : Processes) : Prop where
  lt : ∀ i p, s.task i = some p → p.serial < s.nextSerial
  inj : ∀ i j p q, s.task i = some p → s.task j = some q → p.serial = q.serial → i = j
  reported : ∀ r ∈ s.reports, r < s.nextSerial ∧ ∀ i p, s.task i = some p → p.serial ≠ r
  nodup : s.reports.Nodup

/-- A change of a task that the invariants do not see. -/
structure Keeps (p p' : Proc) : Prop where
  pid : p'.pid = p.pid
  father : p'.father = p.father
  serial : p'.serial = p.serial
  exiting : p'.pos = .exiting ↔ p.pos = .exiting
  zombie : p'.state = .zombie → p'.pos = .exiting

variable {s s' : Processes} {t : ℕ} {p : Proc}

theorem mapTasks_eq_some {f : ℕ → Proc → Proc} {i : ℕ} {q : Proc} :
    (s.mapTasks f).task i = some q ↔ ∃ p, s.task i = some p ∧ f i p = q := Option.map_eq_some_iff

theorem Inv.mapTasks {f : ℕ → Proc → Proc} (hinv : s.Inv)
    (hf : ∀ i p, s.task i = some p → Keeps p (f i p)) : (s.mapTasks f).Inv := by
  refine ⟨hinv.lastPid, ?_, ?_, ?_, ?_, ?_, ?_, ?_, ?_, ?_⟩
  · intro i q hq
    obtain ⟨p, hp, -⟩ := mapTasks_eq_some.mp hq
    exact hinv.bound i p hp
  · obtain ⟨p, hp, hpid, hpos⟩ := hinv.zero
    have hk := hf 0 p hp
    exact ⟨f 0 p, mapTasks_eq_some.mpr ⟨p, hp, rfl⟩, hk.pid.trans hpid, mt hk.exiting.mp hpos⟩
  · intro q hq
    obtain ⟨p, hp, rfl⟩ := mapTasks_eq_some.mp hq
    obtain ⟨hpid, hpos⟩ := hinv.one p hp
    have hk := hf 1 p hp
    exact ⟨hk.pid.trans hpid, mt hk.exiting.mp hpos⟩
  · intro h0 i hi
    simp only [Processes.mapTasks, hinv.alone h0 i hi, Option.map_none]
  · intro i q hi hq
    obtain ⟨p, hp, -⟩ := mapTasks_eq_some.mp hq
    simp only [Processes.mapTasks, Option.isSome_map]
    exact hinv.init i p hi hp
  · intro i q hi hq
    obtain ⟨p, hp, rfl⟩ := mapTasks_eq_some.mp hq
    rw [(hf i p hp).pid]
    exact hinv.pid_pos i p hi hp
  · intro i j q r hq hr heq
    obtain ⟨p, hp, rfl⟩ := mapTasks_eq_some.mp hq
    obtain ⟨p', hp', rfl⟩ := mapTasks_eq_some.mp hr
    rw [(hf i p hp).pid, (hf j p' hp').pid] at heq
    exact hinv.pid_inj i j p p' hp hp' heq
  · intro i q hi hq
    obtain ⟨p, hp, rfl⟩ := mapTasks_eq_some.mp hq
    obtain ⟨hpos, j, r, hr, hpid, hexit⟩ := hinv.father i p hi hp
    have hk := hf j r hr
    rw [(hf i p hp).father]
    exact ⟨hpos, j, f j r, mapTasks_eq_some.mpr ⟨r, hr, rfl⟩, hk.pid.trans hpid,
      mt hk.exiting.mp hexit⟩
  · intro i q hq hzombie
    obtain ⟨p, hp, rfl⟩ := mapTasks_eq_some.mp hq
    exact (hf i p hp).zombie hzombie

theorem Serials.mapTasks {f : ℕ → Proc → Proc} (hs : s.Serials)
    (hf : ∀ i p, s.task i = some p → (f i p).serial = p.serial) : (s.mapTasks f).Serials := by
  refine ⟨?_, ?_, fun r hr => ⟨(hs.reported r hr).1, ?_⟩, hs.nodup⟩
  · intro i q hq
    obtain ⟨p, hp, rfl⟩ := mapTasks_eq_some.mp hq
    rw [hf i p hp]
    exact hs.lt i p hp
  · intro i j q r hq hr heq
    obtain ⟨p, hp, rfl⟩ := mapTasks_eq_some.mp hq
    obtain ⟨p', hp', rfl⟩ := mapTasks_eq_some.mp hr
    rw [hf i p hp, hf j p' hp'] at heq
    exact hs.inj i j p p' hp hp' heq
  · intro i q hq
    obtain ⟨p, hp, rfl⟩ := mapTasks_eq_some.mp hq
    rw [hf i p hp]
    exact (hs.reported r hr).2 i p hp

/-- A change of one task. -/
theorem keeps_modify {f : Proc → Proc} (hinv : s.Inv) (ht : s.task t = some p)
    (hf : Keeps p (f p)) (i : ℕ) (q : Proc) (hq : s.task i = some q) :
    Keeps q (if i = t then f q else q) := by
  by_cases hit : i = t
  · subst hit
    obtain rfl := Option.some.inj (ht.symm.trans hq)
    rw [if_pos rfl]
    exact hf
  · rw [if_neg hit]
    exact ⟨rfl, rfl, rfl, Iff.rfl, hinv.zombie i q hq⟩

/-! ### New numbers -/

theorem bumpPid_range {pid : ℤ} (h : 0 ≤ pid ∧ pid < 2147483648) :
    0 < bumpPid pid ∧ bumpPid pid < 2147483648 := by
  unfold bumpPid
  split_ifs <;> omega

/-- A number that `find_empty_process` finds. -/
theorem findPid_spec {n : ℕ} {pid new : ℤ} (hpid : 0 ≤ pid ∧ pid < 2147483648)
    (h : s.findPid n pid = some new) :
    s.pidInUse new = false ∧ 0 < new ∧ new < 2147483648 := by
  induction n generalizing pid with
  | zero => exact absurd h (by simp [findPid])
  | succ n ih =>
    have hrange := bumpPid_range hpid
    by_cases huse : s.pidInUse (bumpPid pid)
    · rw [findPid, if_pos huse] at h
      exact ih ⟨by omega, hrange.2⟩ h
    · rw [findPid, if_neg huse, Option.some.injEq] at h
      rw [← h]
      exact ⟨by simpa using huse, hrange⟩

/-- The number after `k` increments. -/
theorem iterate_bumpPid {pid : ℤ} (hpid : 0 ≤ pid ∧ pid < 2147483648) {k : ℕ} (hk : k ≤ 65) :
    bumpPid^[k] pid = if pid + k < 2147483648 then pid + k else pid + k - 2147483647 := by
  induction k with
  | zero => simp [hpid.2]
  | succ k ih =>
    rw [Function.iterate_succ_apply', ih (by omega), bumpPid]
    push_cast
    split_ifs <;> omega

theorem inUse_of_findPid {n : ℕ} {pid : ℤ} (h : s.findPid n pid = none) {k : ℕ} (hk : k < n) :
    s.pidInUse (bumpPid^[k + 1] pid) = true := by
  induction n generalizing pid k with
  | zero => omega
  | succ n ih =>
    by_cases huse : s.pidInUse (bumpPid pid)
    · rw [findPid, if_pos huse] at h
      cases k with
      | zero => exact huse
      | succ k =>
        rw [Function.iterate_succ_apply]
        exact ih h (by omega)
    · rw [findPid, if_neg huse] at h
      exact absurd h (by simp)

theorem pidInUse_iff {pid : ℤ} :
    s.pidInUse pid = true ↔ ∃ i p, i < nrTasks ∧ s.task i = some p ∧ p.pid = pid := by
  simp [pidInUse, List.any_eq_true, Option.any_eq_true]

/-- One of 65 numbers is not in use, so the loop of `find_empty_process` ends. -/
theorem findPid_isSome {pid : ℤ} (hpid : 0 ≤ pid ∧ pid < 2147483648) :
    (s.findPid (nrTasks + 1) pid).isSome = true := by
  by_contra hnone
  have hnone : s.findPid (nrTasks + 1) pid = none := by simpa using hnone
  have huse : ∀ k : Fin (nrTasks + 1), ∃ i : Fin nrTasks, ∃ p, s.task i = some p ∧
      p.pid = bumpPid^[k + 1] pid := by
    intro k
    obtain ⟨i, p, hi, hp, hpid⟩ := pidInUse_iff.mp (inUse_of_findPid hnone k.isLt)
    exact ⟨⟨i, hi⟩, p, hp, hpid⟩
  choose slot hslot using huse
  obtain ⟨k, l, hkl, heq⟩ := Fintype.exists_ne_map_eq_of_card_lt slot (by simp)
  obtain ⟨p, hp, hk⟩ := hslot k
  obtain ⟨q, hq, hl⟩ := hslot l
  rw [heq] at hp
  obtain rfl := Option.some.inj (hp.symm.trans hq)
  have hsame := hk.symm.trans hl
  have hk64 : (k : ℕ) < 65 := k.isLt
  have hl64 : (l : ℕ) < 65 := l.isLt
  rw [iterate_bumpPid hpid (by omega), iterate_bumpPid hpid (by omega)] at hsame
  refine hkl (Fin.ext ?_)
  push_cast at hsame
  split_ifs at hsame <;> omega

/-! ### `fork` -/

/-- An entry that `find_empty_process` finds. -/
theorem freeTask_spec {nr : ℕ} (h : s.freeTask = some nr) :
    nr ≠ 0 ∧ nr < nrTasks ∧ s.task nr = none ∧ ∀ j, j < nr → j ≠ 0 → s.task j ≠ none := by
  obtain ⟨hp, hlt, hmin⟩ := List.find?_range_eq_some.mp h
  rw [Bool.and_eq_true, decide_eq_true_eq, Option.isNone_iff_eq_none] at hp
  refine ⟨hp.1, List.mem_range.mp hlt, hp.2, fun j hj hj0 hnone => ?_⟩
  have hfalse := hmin j hj
  simp [hj0, hnone] at hfalse

/-- The number and the entry of the first task that task 0 makes. -/
theorem Inv.first_fork {pid : ℤ} {nr : ℕ} (hinv : s.Inv) (h0 : s.lastPid = 0)
    (hpid : s.findPid (nrTasks + 1) s.lastPid = some pid) (hnr : s.freeTask = some nr) :
    pid = 1 ∧ nr = 1 := by
  constructor
  · have hfree : s.pidInUse 1 = false := by
      rw [← Bool.not_eq_true, pidInUse_iff]
      rintro ⟨i, p, -, hp, hpid⟩
      by_cases hi : i = 0
      · subst hi
        obtain ⟨q, hq, hqpid, -⟩ := hinv.zero
        obtain rfl := Option.some.inj (hp.symm.trans hq)
        omega
      · rw [hinv.alone h0 i hi] at hp
        exact absurd hp (by simp)
    have hbump : bumpPid 0 = 1 := rfl
    rw [h0, findPid, hbump, hfree, if_neg (by simp), Option.some.injEq] at hpid
    exact hpid.symm
  · obtain ⟨hne, -, -, hmin⟩ := freeTask_spec hnr
    by_contra hnr1
    exact hmin 1 (by omega) (by omega) (hinv.alone h0 1 (by omega))

/-- The table with a new task. -/
theorem Inv.add {pid : ℤ} {nr : ℕ} (hinv : s.Inv) (ht : s.task t = some p) (hpos : p.pos = .user)
    (h0 : t = 0 → s.lastPid = 0) (hpid : s.findPid (nrTasks + 1) s.lastPid = some pid)
    (hnr : s.freeTask = some nr) :
    Inv { s with
      task := Function.update s.task nr (some (s.child p pid))
      lastPid := pid
      nextSerial := s.nextSerial + 1 } := by
  obtain ⟨huse, hpid0, hpid1⟩ := findPid_spec hinv.lastPid hpid
  obtain ⟨hnr0, hlt, hfree, -⟩ := freeTask_spec hnr
  have hnew : ∀ i q, s.task i = some q → q.pid ≠ pid := by
    intro i q hq heq
    have hin := pidInUse_iff.mpr ⟨i, q, hinv.bound i q hq, hq, heq⟩
    exact absurd (hin.symm.trans huse) (by decide)
  have hold : ∀ i q, s.task i = some q → i ≠ nr := by
    rintro i q hq rfl
    exact absurd (hfree.symm.trans hq) (by simp)
  have hlook : ∀ i q, Function.update s.task nr (some (s.child p pid)) i = some q →
      i = nr ∧ q = s.child p pid ∨ s.task i = some q := by
    intro i q hq
    by_cases hi : i = nr
    · rw [hi, Function.update_self, Option.some.injEq] at hq
      exact Or.inl ⟨hi, hq.symm⟩
    · rw [Function.update_of_ne hi] at hq
      exact Or.inr hq
  have hkeep : ∀ i q, s.task i = some q →
      Function.update s.task nr (some (s.child p pid)) i = some q := by
    intro i q hq
    rw [Function.update_of_ne (hold i q hq), hq]
  -- task 1 is there, unless it is the new one
  have hnr1 : nr = 1 ∧ pid = 1 ∨ 2 ≤ nr ∧ t ≠ 0 ∧ (s.task 1).isSome = true := by
    by_cases ht0 : t = 0
    · obtain ⟨h1, h2⟩ := hinv.first_fork (h0 ht0) hpid hnr
      exact Or.inl ⟨h2, h1⟩
    · have hone : (s.task 1).isSome = true := by
        by_cases ht1 : t = 1
        · rw [← ht1, ht]
          rfl
        · exact hinv.init t p (by omega) ht
      obtain ⟨q, hq⟩ := Option.isSome_iff_exists.mp hone
      have hne := hold 1 q hq
      exact Or.inr ⟨by omega, ht0, hone⟩
  refine ⟨⟨by simp only; omega, hpid1⟩, ?_, ?_, ?_, ?_, ?_, ?_, ?_, ?_, ?_⟩
  · intro i q hq
    rcases hlook i q hq with ⟨rfl, -⟩ | hq
    · exact hlt
    · exact hinv.bound i q hq
  · obtain ⟨q, hq, hprop⟩ := hinv.zero
    exact ⟨q, hkeep 0 q hq, hprop⟩
  · intro q hq
    rcases hlook 1 q hq with ⟨hi, rfl⟩ | hq
    · rcases hnr1 with ⟨-, hpid⟩ | ⟨hge, -⟩
      · exact ⟨hpid, by simp [child]⟩
      · omega
    · exact hinv.one q hq
  · intro hzero
    simp only at hzero
    omega
  · intro i q hi hq
    rcases hnr1 with ⟨rfl, -⟩ | ⟨-, -, hone⟩
    · simp only [Function.update_self, Option.isSome_some]
    · obtain ⟨r, hr⟩ := Option.isSome_iff_exists.mp hone
      simp only [hkeep 1 r hr, Option.isSome_some]
  · intro i q hi hq
    rcases hlook i q hq with ⟨-, rfl⟩ | hq
    · exact hpid0
    · exact hinv.pid_pos i q hi hq
  · intro i j q r hq hr heq
    rcases hlook i q hq with ⟨rfl, rfl⟩ | hqold
    · rcases hlook j r hr with ⟨rfl, -⟩ | hrold
      · rfl
      · exact absurd heq.symm (hnew j r hrold)
    · rcases hlook j r hr with ⟨rfl, rfl⟩ | hrold
      · exact absurd heq (hnew i q hqold)
      · exact hinv.pid_inj i j q r hqold hrold heq
  · intro i q hi hq
    rcases hlook i q hq with ⟨rfl, rfl⟩ | hq
    · rcases hnr1 with ⟨rfl, -⟩ | ⟨-, ht0, -⟩
      · omega
      · refine ⟨hinv.pid_pos t p ht0 ht, t, p, hkeep t p ht, rfl, ?_⟩
        rw [hpos]
        decide
    · obtain ⟨hfather, j, r, hr, hprop⟩ := hinv.father i q hi hq
      exact ⟨hfather, j, r, hkeep j r hr, hprop⟩
  · intro i q hq hzombie
    rcases hlook i q hq with ⟨-, rfl⟩ | hq
    · simp [child] at hzombie
    · exact hinv.zombie i q hq hzombie

theorem Serials.add {pid : ℤ} {nr : ℕ} (hs : s.Serials) (hnr : s.freeTask = some nr) :
    Serials { s with
      task := Function.update s.task nr (some (s.child p pid))
      lastPid := pid
      nextSerial := s.nextSerial + 1 } := by
  have hlook : ∀ i q, Function.update s.task nr (some (s.child p pid)) i = some q →
      i = nr ∧ q.serial = s.nextSerial ∨ s.task i = some q := by
    intro i q hq
    by_cases hi : i = nr
    · rw [hi, Function.update_self, Option.some.injEq] at hq
      exact Or.inl ⟨hi, by rw [← hq, child]⟩
    · rw [Function.update_of_ne hi] at hq
      exact Or.inr hq
  refine ⟨?_, ?_, fun r hr => ⟨Nat.lt_succ_of_lt (hs.reported r hr).1, ?_⟩, hs.nodup⟩
  · intro i q hq
    rcases hlook i q hq with ⟨-, hserial⟩ | hq
    · exact hserial ▸ Nat.lt_succ_self _
    · exact Nat.lt_succ_of_lt (hs.lt i q hq)
  · intro i j q r hq hr heq
    rcases hlook i q hq with ⟨rfl, hserial⟩ | hqold
    · rcases hlook j r hr with ⟨rfl, -⟩ | hrold
      · rfl
      · have hlt := hs.lt j r hrold
        omega
    · rcases hlook j r hr with ⟨rfl, hserial⟩ | hrold
      · have hlt := hs.lt i q hqold
        omega
      · exact hs.inj i j q r hqold hrold heq
  · intro i q hq
    rcases hlook i q hq with ⟨-, hserial⟩ | hq
    · have hlt := (hs.reported r hr).1
      omega
    · exact (hs.reported r hr).2 i q hq

/-- A `fork` that makes no task. -/
theorem Inv.setLastPid {pid : ℤ} (hinv : s.Inv) (hpid : 0 < pid ∧ pid < 2147483648) :
    Inv { s with lastPid := pid } :=
  { hinv with
    lastPid := ⟨by simp only; omega, hpid.2⟩
    alone := fun h => by simp only at h; omega }

theorem Inv.fork {ok : Bool} (hinv : s.Inv) (ht : s.task t = some p) (hpos : p.pos = .user)
    (h0 : t = 0 → s.lastPid = 0) (h : s.fork p ok = some s') : s'.Inv := by
  obtain ⟨pid, hpid, rfl⟩ := Option.map_eq_some_iff.mp h
  have hrange := (findPid_spec hinv.lastPid hpid).2
  cases hnr : s.freeTask with
  | none => exact hinv.setLastPid hrange
  | some nr =>
    cases ok with
    | false => exact hinv.setLastPid hrange
    | true => exact hinv.add ht hpos h0 hpid hnr

theorem Serials.fork {ok : Bool} (hs : s.Serials) (h : s.fork p ok = some s') : s'.Serials := by
  obtain ⟨pid, -, rfl⟩ := Option.map_eq_some_iff.mp h
  cases hnr : s.freeTask with
  | none => exact ⟨hs.lt, hs.inj, hs.reported, hs.nodup⟩
  | some nr =>
    cases ok with
    | false => exact ⟨hs.lt, hs.inj, hs.reported, hs.nodup⟩
    | true => exact hs.add hnr

theorem fork_reports {ok : Bool} (h : s.fork p ok = some s') : s'.reports = s.reports := by
  obtain ⟨pid, -, rfl⟩ := Option.map_eq_some_iff.mp h
  cases s.freeTask with
  | none => rfl
  | some nr => cases ok <;> rfl

/-! ### `do_exit` -/

/-- What the first part of `do_exit` makes of a task. -/
structure GivenAway (s : Processes) (t : ℕ) (p : Proc) (i : ℕ) (q q' : Proc) : Prop where
  pid : q'.pid = q.pid
  serial : q'.serial = q.serial
  pgrp : q'.pgrp = q.pgrp
  state : q'.state = q.state
  father : q'.father = if q.father = p.pid then 1 else q.father
  pos : q'.pos = if i = t then .exiting else q.pos
  signal : q'.signal =
    if i = 1 ∧ s.hasZombie p.pid = true then q.signal ||| sigBit sigChld else q.signal

/-- What the first part of `do_exit` changes. -/
theorem exitBegin_eq (s : Processes) (t : ℕ) (p : Proc) :
    ∃ g : ℕ → Proc → Proc, s.exitBegin t p = s.mapTasks g ∧ ∀ i q, GivenAway s t p i q (g i q) := by
  unfold exitBegin giveAway
  split_ifs with hzombie
  · simp only [modify, mapTasks_mapTasks]
    refine ⟨_, rfl, fun i q => ?_⟩
    constructor <;> split_ifs <;> simp_all [addSignal]
  · simp only [modify, mapTasks_mapTasks]
    refine ⟨_, rfl, fun i q => ?_⟩
    constructor <;> split_ifs <;> simp_all

theorem Inv.exitBegin (hinv : s.Inv) (h2 : 2 ≤ t) (ht : s.task t = some p) :
    (s.exitBegin t p).Inv := by
  obtain ⟨g, heq, hg⟩ := exitBegin_eq s t p
  rw [heq]
  have hpid0 := hinv.pid_pos t p (by omega) ht
  refine ⟨hinv.lastPid, ?_, ?_, ?_, ?_, ?_, ?_, ?_, ?_, ?_⟩
  · intro i q hq
    obtain ⟨r, hr, -⟩ := mapTasks_eq_some.mp hq
    exact hinv.bound i r hr
  · obtain ⟨q, hq, hpid, hpos⟩ := hinv.zero
    refine ⟨g 0 q, mapTasks_eq_some.mpr ⟨q, hq, rfl⟩, (hg 0 q).pid.trans hpid, ?_⟩
    rw [(hg 0 q).pos, if_neg (by omega)]
    exact hpos
  · intro q hq
    obtain ⟨r, hr, rfl⟩ := mapTasks_eq_some.mp hq
    rw [(hg 1 r).pid, (hg 1 r).pos, if_neg (by omega)]
    exact hinv.one r hr
  · intro h0 i hi
    simp only [Processes.mapTasks, hinv.alone h0 i hi, Option.map_none]
  · intro i q hi hq
    obtain ⟨r, hr, -⟩ := mapTasks_eq_some.mp hq
    simp only [Processes.mapTasks, Option.isSome_map]
    exact hinv.init i r hi hr
  · intro i q hi hq
    obtain ⟨r, hr, rfl⟩ := mapTasks_eq_some.mp hq
    rw [(hg i r).pid]
    exact hinv.pid_pos i r hi hr
  · intro i j q q' hq hq' hsame
    obtain ⟨r, hr, rfl⟩ := mapTasks_eq_some.mp hq
    obtain ⟨r', hr', rfl⟩ := mapTasks_eq_some.mp hq'
    rw [(hg i r).pid, (hg j r').pid] at hsame
    exact hinv.pid_inj i j r r' hr hr' hsame
  · intro i q hi hq
    obtain ⟨r, hr, rfl⟩ := mapTasks_eq_some.mp hq
    obtain ⟨hfather, j, f, hf, hfpid, hfpos⟩ := hinv.father i r hi hr
    rw [(hg i r).father]
    by_cases hr' : r.father = p.pid
    · -- the children go to task 1
      rw [if_pos hr']
      obtain ⟨f1, hf1⟩ := Option.isSome_iff_exists.mp (hinv.init t p h2 ht)
      obtain ⟨h1, h1pos⟩ := hinv.one f1 hf1
      refine ⟨by decide, 1, g 1 f1, mapTasks_eq_some.mpr ⟨f1, hf1, rfl⟩, (hg 1 f1).pid.trans h1, ?_⟩
      rw [(hg 1 f1).pos, if_neg (by omega)]
      exact h1pos
    · rw [if_neg hr']
      refine ⟨hfather, j, g j f, mapTasks_eq_some.mpr ⟨f, hf, rfl⟩, (hg j f).pid.trans hfpid, ?_⟩
      have hjt : j ≠ t := by
        rintro rfl
        obtain rfl := Option.some.inj (hf.symm.trans ht)
        exact hr' hfpid.symm
      rw [(hg j f).pos, if_neg hjt]
      exact hfpos
  · intro i q hq hzombie
    obtain ⟨r, hr, rfl⟩ := mapTasks_eq_some.mp hq
    rw [(hg i r).state] at hzombie
    rw [(hg i r).pos]
    split_ifs
    · rfl
    · exact hinv.zombie i r hr hzombie

theorem Serials.exitBegin (hs : s.Serials) : (s.exitBegin t p).Serials := by
  obtain ⟨g, heq, hg⟩ := exitBegin_eq s t p
  rw [heq]
  exact hs.mapTasks fun i q _ => (hg i q).serial

theorem findTask_isSome {pid : ℤ} :
    (s.findTask pid).isSome = true ↔ ∃ i p, i < nrTasks ∧ s.task i = some p ∧ p.pid = pid := by
  rw [findTask, List.find?_isSome]
  simp [Option.any_eq_true]

theorem addSignal_keeps {bits : BitVec 32} (hzombie : p.state = .zombie → p.pos = .exiting) :
    Keeps p (addSignal bits p) := ⟨rfl, rfl, rfl, Iff.rfl, hzombie⟩

theorem Keeps.refl (hzombie : p.state = .zombie → p.pos = .exiting) : Keeps p p :=
  ⟨rfl, rfl, rfl, Iff.rfl, hzombie⟩

theorem Keeps.trans {q r : Proc} (hpq : Keeps p q) (hqr : Keeps q r) : Keeps p r :=
  ⟨hqr.pid.trans hpq.pid, hqr.father.trans hpq.father, hqr.serial.trans hpq.serial,
    hqr.exiting.trans hpq.exiting, hqr.zombie⟩

/-- What `do_exit` changes before `tell_father`. -/
def died (p : Proc) (t : ℕ) (code : ℤ) (i : ℕ) (q : Proc) : Proc :=
  let q' :=
    if p.leader = true ∧ i ≠ 0 ∧ q.session = p.session then addSignal (sigBit sigHup) q else q
  if i = t then { q' with state := .zombie, exitCode := code } else q'

theorem died_keeps {code : ℤ} {i : ℕ} {q : Proc} (hzombie : q.state = .zombie → q.pos = .exiting)
    (hpos : i = t → q.pos = .exiting) : Keeps q (died p t code i q) := by
  unfold died
  constructor <;> dsimp only <;> split_ifs <;> simp_all [addSignal]

/-- The second part of `do_exit` finds a father. -/
theorem exitEnd_eq (code : ℤ) (hinv : s.Inv) (ht : s.task t = some p) (hpos : p.pos = .exiting) :
    ∃ j f, s.exitEnd t p code =
        (s.mapTasks (died p t code)).modify j (addSignal (sigBit sigChld)) ∧
      s.task j = some f ∧ f.pid = p.father := by
  have h2 : 2 ≤ t := by
    by_contra hlt
    obtain rfl | rfl : t = 0 ∨ t = 1 := by omega
    · obtain ⟨q, hq, -, hqpos⟩ := hinv.zero
      obtain rfl := Option.some.inj (ht.symm.trans hq)
      exact hqpos hpos
    · exact (hinv.one p ht).2 hpos
  obtain ⟨hfather, k, f, hf, hfpid, -⟩ := hinv.father t p h2 ht
  have hkeep : ∀ i q, s.task i = some q → Keeps q (died p t code i q) := by
    intro i q hq
    refine died_keeps (hinv.zombie i q hq) ?_
    rintro rfl
    obtain rfl := Option.some.inj (ht.symm.trans hq)
    exact hpos
  have hkill : (if p.leader then s.killSession p.session else s).modify t
      (fun p => { p with state := .zombie, exitCode := code }) = s.mapTasks (died p t code) := by
    have hdied : died p t code = fun i q =>
        if i = t then
          { (if p.leader = true ∧ i ≠ 0 ∧ q.session = p.session then addSignal (sigBit sigHup) q
              else q) with state := .zombie, exitCode := code }
        else if p.leader = true ∧ i ≠ 0 ∧ q.session = p.session then addSignal (sigBit sigHup) q
          else q := rfl
    rw [hdied]
    cases p.leader with
    | true =>
      rw [if_pos rfl, modify, killSession, mapTasks_mapTasks]
      simp only [true_and]
    | false => simp only [Bool.false_eq_true, if_false, false_and, modify]
  have hsome : ((s.mapTasks (died p t code)).findTask p.father).isSome = true :=
    findTask_isSome.mpr ⟨k, _, hinv.bound k f hf, mapTasks_eq_some.mpr ⟨f, hf, rfl⟩,
      (hkeep k f hf).pid.trans hfpid⟩
  obtain ⟨j, hj⟩ := Option.isSome_iff_exists.mp hsome
  have hfound := List.find?_some hj
  obtain ⟨f', hf', hpid'⟩ := (Option.any_eq_true _ _).mp hfound
  obtain ⟨f₀, hf₀, rfl⟩ := mapTasks_eq_some.mp hf'
  rw [decide_eq_true_eq, (hkeep j f₀ hf₀).pid] at hpid'
  refine ⟨j, f₀, ?_, hf₀, hpid'⟩
  simp only [exitEnd, hkill, tellFather]
  rw [if_neg (by omega), hj]

theorem exitEnd_keeps (code : ℤ) (hinv : s.Inv) (ht : s.task t = some p)
    (hpos : p.pos = .exiting) :
    ∃ g : ℕ → Proc → Proc, s.exitEnd t p code = s.mapTasks g ∧
      ∀ i q, s.task i = some q → Keeps q (g i q) := by
  obtain ⟨j, -, heq, -⟩ := exitEnd_eq code hinv ht hpos
  refine ⟨_, heq.trans (mapTasks_mapTasks _ _), fun i q hq => ?_⟩
  have hdied : Keeps q (died p t code i q) := by
    refine died_keeps (hinv.zombie i q hq) ?_
    rintro rfl
    obtain rfl := Option.some.inj (ht.symm.trans hq)
    exact hpos
  split_ifs
  · exact hdied.trans (addSignal_keeps hdied.zombie)
  · exact hdied

/-! ### `sys_waitpid` -/

/-- A zombie that the loop of `sys_waitpid` finds. -/
theorem findChild_zombie {pid : ℤ} {options n i : ℕ} {flag : Bool}
    (h : s.findChild t p pid options n flag = .zombie i) :
    0 < i ∧ i ≠ t ∧ ∃ q, s.task i = some q ∧ q.state = .zombie ∧ waitsFor p pid q = true := by
  induction n generalizing flag with
  | zero => exact absurd h (by simp [findChild])
  | succ n ih =>
    rw [findChild] at h
    split at h
    · exact ih h
    · rename_i q hq
      split_ifs at h with hskip hstopped huntraced hzombie
      · exact ih h
      · exact ih h
      · obtain rfl : n + 1 = i := Found.zombie.inj h
        rw [not_or, Bool.not_eq_false] at hskip
        exact ⟨by omega, hskip.1, q, hq, hzombie, hskip.2⟩
      · exact ih h

/-- What `sys_waitpid` does. -/
theorem sysWaitpid_cases (s : Processes) (t : ℕ) (p : Proc) (pid : ℤ) (options : ℕ) :
    (∃ i q, 0 < i ∧ i ≠ t ∧ s.task i = some q ∧ q.state = .zombie ∧ waitsFor p pid q = true ∧
      s.sysWaitpid t p pid options = { s.release i with reports := q.serial :: s.reports }) ∨
    s.sysWaitpid t p pid options =
      s.modify t (fun p => { p with state := .interruptible, pos := .waiting pid options }) ∨
    s.sysWaitpid t p pid options = s := by
  unfold sysWaitpid
  split
  · rename_i i hfound
    obtain ⟨hi, hne, q, hq, hzombie, hwaits⟩ := findChild_zombie hfound
    exact Or.inl ⟨i, q, hi, hne, hq, hzombie, hwaits, by rw [hq]; rfl⟩
  · split_ifs
    · exact Or.inr (Or.inr rfl)
    · exact Or.inr (Or.inl rfl)
  · exact Or.inr (Or.inr rfl)

theorem release_eq_some {i j : ℕ} {q : Proc} :
    (s.release i).task j = some q ↔ j ≠ i ∧ s.task j = some q := by
  unfold release
  by_cases hj : j = i
  · subst hj
    simp
  · simp [hj]

/-- The table without a zombie. -/
theorem Inv.reap {i : ℕ} {q : Proc} {reports : List ℕ} (hinv : s.Inv) (hq : s.task i = some q)
    (hzombie : q.state = .zombie) : Inv { s.release i with reports } := by
  have hpos := hinv.zombie i q hq hzombie
  have hne : ∀ {j r}, s.task j = some r → r.pos ≠ .exiting → j ≠ i := by
    rintro j r hr hrpos rfl
    obtain rfl := Option.some.inj (hq.symm.trans hr)
    exact hrpos hpos
  refine ⟨hinv.lastPid, ?_, ?_, ?_, ?_, ?_, ?_, ?_, ?_, ?_⟩
  · exact fun j r hr => hinv.bound j r (release_eq_some.mp hr).2
  · obtain ⟨r, hr, hpid, hrpos⟩ := hinv.zero
    exact ⟨r, release_eq_some.mpr ⟨hne hr hrpos, hr⟩, hpid, hrpos⟩
  · exact fun r hr => hinv.one r (release_eq_some.mp hr).2
  · intro h0 j hj
    have hnone := hinv.alone h0 j hj
    by_contra hsome
    obtain ⟨r, hr⟩ := Option.ne_none_iff_exists'.mp hsome
    exact absurd ((release_eq_some.mp hr).2.symm.trans hnone) (by simp)
  · intro j r hj hr
    obtain ⟨f, hf⟩ := Option.isSome_iff_exists.mp (hinv.init j r hj (release_eq_some.mp hr).2)
    exact Option.isSome_iff_exists.mpr
      ⟨f, release_eq_some.mpr ⟨hne hf (hinv.one f hf).2, hf⟩⟩
  · exact fun j r hj hr => hinv.pid_pos j r hj (release_eq_some.mp hr).2
  · exact fun j k r r' hr hr' =>
      hinv.pid_inj j k r r' (release_eq_some.mp hr).2 (release_eq_some.mp hr').2
  · intro j r hj hr
    obtain ⟨hfather, k, f, hf, hfpid, hfpos⟩ := hinv.father j r hj (release_eq_some.mp hr).2
    exact ⟨hfather, k, f, release_eq_some.mpr ⟨hne hf hfpos, hf⟩, hfpid, hfpos⟩
  · exact fun j r hr => hinv.zombie j r (release_eq_some.mp hr).2

theorem Serials.reap {i : ℕ} {q : Proc} (hs : s.Serials) (hq : s.task i = some q) :
    Serials { s.release i with reports := q.serial :: s.reports } := by
  refine ⟨?_, ?_, ?_, ?_⟩
  · exact fun j r hr => hs.lt j r (release_eq_some.mp hr).2
  · exact fun j k r r' hr hr' =>
      hs.inj j k r r' (release_eq_some.mp hr).2 (release_eq_some.mp hr').2
  · intro n hn
    rcases List.mem_cons.mp hn with rfl | hn
    · refine ⟨hs.lt i q hq, fun j r hr hsame => ?_⟩
      obtain ⟨hne, hr⟩ := release_eq_some.mp hr
      exact hne (hs.inj j i r q hr hq hsame)
    · exact ⟨(hs.reported n hn).1, fun j r hr =>
        (hs.reported n hn).2 j r (release_eq_some.mp hr).2⟩
  · refine List.nodup_cons.mpr ⟨fun hmem => ?_, hs.nodup⟩
    exact (hs.reported _ hmem).2 i q hq rfl

/-! ### Steps -/

/-- A step that only changes what the invariants do not see. -/
def Quiet (s s' : Processes) : Prop :=
  ∃ g : ℕ → Proc → Proc, s' = s.mapTasks g ∧ ∀ i q, s.task i = some q → Keeps q (g i q)

/-- A step in which `sys_waitpid` reports a zombie to the task `t`. -/
def Reaps (s : Processes) (t : ℕ) (s' : Processes) : Prop :=
  ∃ p i q, ∃ g : ℕ → Proc → Proc, s.task t = some p ∧ s.task i = some q ∧ q.state = .zombie ∧
    q.father = p.pid ∧ (∀ j r, s.task j = some r → Keeps r (g j r)) ∧ g i q = q ∧
    s' = { (s.mapTasks g).release i with reports := q.serial :: s.reports }

theorem mapTasks_id (s : Processes) : (s.mapTasks fun _ q => q) = s := by
  simp [mapTasks]

theorem Inv.quiet_modify {f : Proc → Proc} (hinv : s.Inv) (ht : s.task t = some p)
    (hf : Keeps p (f p)) : Quiet s (s.modify t f) := ⟨_, rfl, keeps_modify hinv ht hf⟩

theorem father_of_waitsFor {pid : ℤ} {q : Proc} (h : waitsFor p pid q = true) :
    q.father = p.pid := of_decide_eq_true (Bool.and_eq_true _ _ ▸ h).1

/-- `sys_waitpid` of a task after the change `f` of the task itself. -/
theorem Inv.sysWaitpid_step {f : Proc → Proc} (hinv : s.Inv) (ht : s.task t = some p)
    (hf : Keeps p (f p)) (hpos : p.pos ≠ .exiting) (pid : ℤ) (options : ℕ) :
    Quiet s ((s.modify t f).sysWaitpid t p pid options) ∨
      Reaps s t ((s.modify t f).sysWaitpid t p pid options) := by
  rcases sysWaitpid_cases (s.modify t f) t p pid options with
    ⟨i, q, hi, hne, hq, hzombie, hwaits, heq⟩ | heq | heq
  · obtain ⟨q₀, hq₀, hsame⟩ := mapTasks_eq_some.mp hq
    rw [if_neg hne] at hsame
    subst hsame
    refine Or.inr ⟨p, i, q₀, _, ht, hq₀, hzombie, father_of_waitsFor hwaits,
      keeps_modify hinv ht hf, if_neg hne, heq⟩
  · rw [heq, modify, modify, mapTasks_mapTasks]
    refine Or.inl ⟨_, rfl, fun i q hq => ?_⟩
    by_cases hit : i = t
    · subst hit
      obtain rfl := Option.some.inj (ht.symm.trans hq)
      simp only [if_pos]
      exact ⟨hf.pid, hf.father, hf.serial, by simp [hpos], by simp⟩
    · simp only [if_neg hit]
      exact Keeps.refl (hinv.zombie i q hq)
  · rw [heq]
    exact Or.inl (hinv.quiet_modify ht hf)

theorem user_eq_some {f : Proc → Option Processes} :
    s.user t f = some s' ↔
      ∃ p, s.task t = some p ∧ (p.state = .running ∧ p.pos = .user) ∧ f p = some s' := by
  simp only [user, Option.bind_eq_some_iff, Option.ite_none_right_eq_some]

theorem sendSig_keeps {cur : Proc} {sig : ℤ} {priv : Bool}
    (hzombie : p.state = .zombie → p.pos = .exiting) : Keeps p (sendSig cur sig priv p).1 := by
  unfold sendSig
  split_ifs
  · exact Keeps.refl hzombie
  · exact addSignal_keeps hzombie
  · exact Keeps.refl hzombie

theorem Inv.sysKill_quiet {cur : Proc} {pid sig : ℤ} (hinv : s.Inv) :
    Quiet s (s.sysKill cur pid sig).1 := by
  obtain ⟨f, heq, hf⟩ := sysKill_mapTasks s cur pid sig
  refine ⟨f, heq, fun i q hq => ?_⟩
  have hzombie := hinv.zombie i q hq
  rcases hf i q with hsame | ⟨priv, hsend⟩
  · rw [hsame]
    exact Keeps.refl hzombie
  · rw [hsend]
    exact sendSig_keeps hzombie

theorem wakeSignal_keeps (hzombie : p.state = .zombie → p.pos = .exiting) :
    Keeps p (wakeSignal p) := by
  unfold wakeSignal
  split_ifs
  · exact ⟨rfl, rfl, rfl, Iff.rfl, fun h => absurd h (by simp)⟩
  · exact Keeps.refl hzombie

theorem Inv.scan_quiet (hinv : s.Inv) : Quiet s s.scan := by
  refine ⟨_, rfl, fun i q hq => ?_⟩
  split_ifs
  · exact Keeps.refl (hinv.zombie i q hq)
  · exact wakeSignal_keeps (hinv.zombie i q hq)

/-- What one step does to the table. -/
theorem Inv.next_cases {e : ProcEvent} (hinv : s.Inv) (h : s.next e = some s') :
    (∃ t p ok, s.task t = some p ∧ p.pos = .user ∧ (t = 0 → s.lastPid = 0) ∧
      s.fork p ok = some s') ∨
    (∃ t p, 2 ≤ t ∧ s.task t = some p ∧ s' = s.exitBegin t p) ∨
    Quiet s s' ∨ ∃ t, e.waiter = some t ∧ Reaps s t s' := by
  cases e with
  | fork t ok =>
    obtain ⟨p, ht, ⟨-, hpos⟩, h⟩ := user_eq_some.mp h
    obtain ⟨h0, h⟩ := Option.ite_none_right_eq_some.mp h
    exact Or.inl ⟨t, p, ok, ht, hpos, h0, h⟩
  | exitBegin t =>
    obtain ⟨p, ht, -, h⟩ := user_eq_some.mp h
    obtain ⟨h2, h⟩ := Option.ite_none_right_eq_some.mp h
    exact Or.inr (Or.inl ⟨t, p, h2, ht, (Option.some.inj h).symm⟩)
  | exitEnd t code =>
    obtain ⟨p, ht, h⟩ := Option.bind_eq_some_iff.mp h
    obtain ⟨⟨-, hpos⟩, h⟩ := Option.ite_none_right_eq_some.mp h
    obtain ⟨g, hg⟩ := exitEnd_keeps code hinv ht hpos
    exact Or.inr (Or.inr (Or.inl ⟨g, Option.some.inj h ▸ hg.1, hg.2⟩))
  | waitpid t pid options =>
    obtain ⟨p, ht, ⟨-, hpos⟩, h⟩ := user_eq_some.mp h
    obtain ⟨-, h⟩ := Option.ite_none_left_eq_some.mp h
    have hmodify : s.modify t id = s := by
      simp only [modify, id_eq, ite_self]
      exact mapTasks_id s
    have hstep := hinv.sysWaitpid_step (f := id) ht (Keeps.refl (hinv.zombie t p ht))
      (by simp [hpos]) pid options
    rw [hmodify, Option.some.inj h] at hstep
    exact Or.inr (Or.inr (hstep.imp_right fun hreap => ⟨t, rfl, hreap⟩))
  | resume t =>
    obtain ⟨p, ht, h⟩ := Option.bind_eq_some_iff.mp h
    split at h
    · rename_i pid options hpos
      obtain ⟨hrun, h⟩ := Option.ite_none_right_eq_some.mp h
      rw [← Option.some.inj h]
      have hkeep : Keeps p { p with signal := p.signal &&& ~~~sigBit sigChld, pos := .user } :=
        ⟨rfl, rfl, rfl, by simp [hpos], fun hz => absurd hz (by simp [hrun])⟩
      unfold resume
      dsimp only
      split_ifs
      · exact Or.inr (Or.inr ((hinv.sysWaitpid_step ht hkeep (by simp [hpos]) _ _).imp_right
          fun hreap => ⟨t, rfl, hreap⟩))
      · exact Or.inr (Or.inr (Or.inl (hinv.quiet_modify ht hkeep)))
    · exact absurd h (by simp)
  | ssetmask t newmask =>
    obtain ⟨p, ht, -, h⟩ := user_eq_some.mp h
    rw [← Option.some.inj h]
    exact Or.inr (Or.inr (Or.inl
      (hinv.quiet_modify ht ⟨rfl, rfl, rfl, Iff.rfl, hinv.zombie t p ht⟩)))
  | kill t pid sig =>
    obtain ⟨p, -, -, h⟩ := user_eq_some.mp h
    rw [← Option.some.inj h]
    exact Or.inr (Or.inr (Or.inl hinv.sysKill_quiet))
  | deliver t mask =>
    obtain ⟨p, ht, -, h⟩ := user_eq_some.mp h
    obtain ⟨-, h⟩ := Option.ite_none_left_eq_some.mp h
    obtain ⟨signr, -, rfl⟩ := Option.map_eq_some_iff.mp h
    exact Or.inr (Or.inr (Or.inl
      (hinv.quiet_modify ht ⟨rfl, rfl, rfl, Iff.rfl, hinv.zombie t p ht⟩)))
  | send t sig =>
    rw [← Option.some.inj h]
    refine Or.inr (Or.inr (Or.inl ⟨_, rfl, fun i q hq => ?_⟩))
    split_ifs
    · exact addSignal_keeps (hinv.zombie i q hq)
    · exact Keeps.refl (hinv.zombie i q hq)
  | schedule =>
    rw [← Option.some.inj h]
    exact Or.inr (Or.inr (Or.inl hinv.scan_quiet))

/-- The invariants of the table. -/
structure Table (s : Processes) : Prop where
  inv : s.Inv
  serials : s.Serials

theorem Inv.reaps (hinv : s.Inv) (h : s.Reaps t s') : s'.Inv := by
  obtain ⟨p, i, q, g, -, hq, hzombie, -, hg, hgi, rfl⟩ := h
  exact (hinv.mapTasks hg).reap (mapTasks_eq_some.mpr ⟨q, hq, hgi⟩) hzombie

theorem Serials.reaps (hs : s.Serials) (h : s.Reaps t s') : s'.Serials := by
  obtain ⟨p, i, q, g, -, hq, -, -, hg, hgi, rfl⟩ := h
  exact (hs.mapTasks fun j r hr => (hg j r hr).serial).reap (mapTasks_eq_some.mpr ⟨q, hq, hgi⟩)

theorem Table.step (h : s.Table) (hstep : Step s s') : s'.Table := by
  obtain ⟨e, he⟩ := hstep
  rcases h.inv.next_cases he with
    ⟨t, p, ok, ht, hpos, h0, hfork⟩ | ⟨t, p, h2, ht, rfl⟩ | ⟨g, rfl, hg⟩ | ⟨t, -, hreap⟩
  · exact ⟨h.inv.fork ht hpos h0 hfork, h.serials.fork hfork⟩
  · exact ⟨h.inv.exitBegin h2 ht, h.serials.exitBegin⟩
  · exact ⟨h.inv.mapTasks hg, h.serials.mapTasks fun i q hq => (hg i q hq).serial⟩
  · exact ⟨h.inv.reaps hreap, h.serials.reaps hreap⟩

theorem boot_eq_some {i : ℕ} : boot.task i = some p ↔ i = 0 ∧ initTask = p := by
  simp [boot]

theorem boot_table : boot.Table := by
  refine ⟨⟨by decide, ?_, ?_, ?_, ?_, ?_, ?_, ?_, ?_, ?_⟩, ?_, ?_, ?_, ?_⟩
  · rintro i p hp
    obtain ⟨rfl, -⟩ := boot_eq_some.mp hp
    decide
  · exact ⟨initTask, rfl, rfl, by decide⟩
  · exact fun p hp => absurd (boot_eq_some.mp hp).1 (by decide)
  · exact fun _ i hi => if_neg hi
  · exact fun i p hi hp => absurd (boot_eq_some.mp hp).1 (by omega)
  · exact fun i p hi hp => absurd (boot_eq_some.mp hp).1 hi
  · intro i j p q hp hq _
    rw [(boot_eq_some.mp hp).1, (boot_eq_some.mp hq).1]
  · exact fun i p hi hp => absurd (boot_eq_some.mp hp).1 (by omega)
  · intro i p hp hzombie
    rw [← (boot_eq_some.mp hp).2] at hzombie
    exact absurd hzombie (by decide)
  · intro i p hp
    rw [← (boot_eq_some.mp hp).2]
    decide
  · intro i j p q hp hq _
    rw [(boot_eq_some.mp hp).1, (boot_eq_some.mp hq).1]
  · exact fun r hr => absurd hr List.not_mem_nil
  · exact List.nodup_nil

/-- The invariants hold in every run. -/
theorem table_reachable (h : Reachable (· = boot) Step s) : s.Table :=
  h.invariant (fun _ hs => hs ▸ boot_table) fun _ _ hs hstep => hs.step hstep

/-- In every run all numbers differ, only that of task 0 is not positive, every task but 0 and 1
has a father in the table, a task that exits does not release itself, `find_empty_process` finds a
number, and `sys_waitpid` reports no task twice, and only to its father. -/
theorem table_consistent (h : Reachable (· = boot) Step s) :
    (∀ i j p q, s.task i = some p → s.task j = some q → p.pid = q.pid → i = j) ∧
    (∀ i p, i ≠ 0 → s.task i = some p → 0 < p.pid) ∧
    (∀ i p, 2 ≤ i → s.task i = some p → p.father ≠ 0 ∧ (s.findTask p.father).isSome = true) ∧
    (∀ t code s', s.next (.exitEnd t code) = some s' → (s'.task t).isSome = true) ∧
    (s.findPid (nrTasks + 1) s.lastPid).isSome = true ∧
    s.reports.Nodup ∧
    ∀ e s', s.next e = some s' → s'.reports = s.reports ∨
      ∃ t p i q, e.waiter = some t ∧ s.task t = some p ∧ s.task i = some q ∧
        q.state = .zombie ∧ q.father = p.pid ∧ s'.task i = none ∧
        s'.reports = q.serial :: s.reports := by
  obtain ⟨hinv, hserials⟩ := table_reachable h
  refine ⟨hinv.pid_inj, hinv.pid_pos, ?_, ?_, findPid_isSome hinv.lastPid, hserials.nodup, ?_⟩
  · intro i p hi hp
    obtain ⟨hfather, j, q, hq, hpid, -⟩ := hinv.father i p hi hp
    exact ⟨by omega, findTask_isSome.mpr ⟨j, q, hinv.bound j q hq, hq, hpid⟩⟩
  · intro t code s' hstep
    obtain ⟨p, ht, hp⟩ := Option.bind_eq_some_iff.mp hstep
    obtain ⟨⟨-, hpos⟩, hp⟩ := Option.ite_none_right_eq_some.mp hp
    obtain ⟨g, hg, -⟩ := exitEnd_keeps code hinv ht hpos
    rw [← Option.some.inj hp, hg]
    simp only [mapTasks, ht, Option.map_some, Option.isSome_some]
  · intro e s' hstep
    rcases hinv.next_cases hstep with
      ⟨t, p, ok, ht, hpos, h0, hfork⟩ | ⟨t, p, h2, ht, rfl⟩ | ⟨g, rfl, hg⟩ | ⟨t, hwaiter, hreap⟩
    · exact Or.inl (fork_reports hfork)
    · obtain ⟨g, hg, -⟩ := exitBegin_eq s t p
      exact Or.inl (hg ▸ rfl)
    · exact Or.inl rfl
    · obtain ⟨p, i, q, g, ht, hq, hzombie, hfather, -, -, rfl⟩ := hreap
      refine Or.inr ⟨t, p, i, q, hwaiter, ht, hq, hzombie, hfather, ?_, rfl⟩
      exact Function.update_self ..

/-- Task 1 reports the child that exits while it waits for it. -/
theorem table_consistent_wait : ∃ s, Reachable (· = boot) Step s ∧ s.reports = [2] ∧
    s.reports.Nodup := by
  have hrun : (runEvents next boot [.fork 0 true, .fork 1 true, .waitpid 1 (-1) 0, .exitBegin 2,
      .exitEnd 2 0, .schedule, .resume 1]).any (fun s => decide (s.reports = [2])) = true := by
    decide
  have hstart : Reachable (· = boot) Step boot := .of_init rfl
  obtain ⟨s, hs, -, hP⟩ := hstart.exists_runEvents (fun _ e _ he => ⟨e, he⟩) hrun
  obtain ⟨-, -, -, -, -, hnodup, -⟩ := table_consistent hs
  exact ⟨s, hs, of_decide_eq_true hP, hnodup⟩

end Processes

end LihaLinux.Kernel
