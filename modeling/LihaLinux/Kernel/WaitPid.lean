import LihaLinux.Kernel.ProcessTable

/-!
# Waiting for a child

A task that sleeps in `sys_waitpid` is on no queue. While it has a zombie that it waits for, its
`SIGCHLD` is pending: `tell_father` sets it, and so does `do_exit` for the children that task 1
gets. `schedule` wakes the task by that bit, unless the task blocks `SIGCHLD`.
-/

namespace LihaLinux.Kernel

namespace Processes

variable {s s' : Processes} {t : ℕ} {p : Proc}

/-- A task sleeps in `sys_waitpid`. -/
def Proc.Sleeps (p : Proc) (pid : ℤ) (options : ℕ) : Prop :=
  p.state = .interruptible ∧ p.pos = .waiting pid options

/-- `SIGCHLD` is pending. -/
def Proc.Told (p : Proc) : Prop := p.signal &&& sigBit sigChld ≠ 0

/-- The invariant of the tasks that sleep in `sys_waitpid`. -/
structure Waits (s : Processes) : Prop where
  zero : ∀ p, s.task 0 = some p → p.pos = .user
  told : ∀ t p pid options, s.task t = some p → Proc.Sleeps p pid options →
    ∀ i q, s.task i = some q → q.state = .zombie → waitsFor p pid q = true → Proc.Told p

/-- A change of a task that makes no zombie and no new sleep. -/
structure Calm (p p' : Proc) : Prop where
  pid : p'.pid = p.pid
  father : p'.father = p.father
  pgrp : p'.pgrp = p.pgrp
  zombie : p'.state = .zombie → p.state = .zombie
  sleeps : ∀ pid options, Proc.Sleeps p' pid options → Proc.Sleeps p pid options
  told : p'.state = .interruptible → p'.pos ≠ .user → Proc.Told p → Proc.Told p'
  user : p.pos = .user → p'.pos = .user

theorem Calm.waitsFor {p' q q' : Proc} {pid : ℤ} (hp : Calm p p') (hq : Calm q q') :
    waitsFor p' pid q' = waitsFor p pid q := by
  unfold Processes.waitsFor
  rw [hp.pid, hp.pgrp, hq.pid, hq.pgrp, hq.father]

theorem Waits.mapTasks {f : ℕ → Proc → Proc} (hw : s.Waits)
    (hf : ∀ i p, s.task i = some p → Calm p (f i p)) : (s.mapTasks f).Waits := by
  refine ⟨?_, ?_⟩
  · intro p' hp'
    obtain ⟨p, hp, rfl⟩ := mapTasks_eq_some.mp hp'
    exact (hf 0 p hp).user (hw.zero p hp)
  · intro t p' pid options hp' hsleeps i q' hq' hzombie hwaits
    obtain ⟨p, hp, rfl⟩ := mapTasks_eq_some.mp hp'
    obtain ⟨q, hq, rfl⟩ := mapTasks_eq_some.mp hq'
    have hcalm := hf t p hp
    rw [hcalm.waitsFor (hf i q hq)] at hwaits
    refine hcalm.told hsleeps.1 ?_ ?_
    · rw [hsleeps.2]
      exact ProcPos.noConfusion
    · exact hw.told t p pid options hp (hcalm.sleeps pid options hsleeps) i q hq
        ((hf i q hq).zombie hzombie) hwaits

theorem Calm.refl (p : Proc) : Calm p p :=
  ⟨rfl, rfl, rfl, id, fun _ _ => id, fun _ _ => id, id⟩

theorem getLsbD_sigChld {i : ℕ} (hi : i < 32) :
    (sigBit sigChld).getLsbD i = decide (i = 16) := by
  revert i
  decide

/-- A word that is not 0 has a bit. -/
theorem ne_zero_iff_getLsbD {x : BitVec 32} : x ≠ 0 ↔ ∃ i, i < 32 ∧ x.getLsbD i = true := by
  constructor
  · intro hne
    by_contra hnone
    refine hne (BitVec.eq_of_getLsbD_eq fun i hi => ?_)
    have hbit : x.getLsbD i = false := Bool.eq_false_of_not_eq_true fun h => hnone ⟨i, hi, h⟩
    exact hbit.trans BitVec.getLsbD_zero.symm
  · rintro ⟨i, -, hi⟩ rfl
    exact absurd hi (by simp)

/-- `SIGCHLD` is bit 16. -/
theorem and_sigChld_ne_zero {x : BitVec 32} :
    x &&& sigBit sigChld ≠ 0 ↔ x.getLsbD 16 = true := by
  rw [ne_zero_iff_getLsbD]
  constructor
  · rintro ⟨i, hi, hbit⟩
    rw [BitVec.getLsbD_and, getLsbD_sigChld hi, Bool.and_eq_true, decide_eq_true_eq] at hbit
    exact hbit.2 ▸ hbit.1
  · intro hbit
    refine ⟨16, by decide, ?_⟩
    rw [BitVec.getLsbD_and, hbit, getLsbD_sigChld (by decide)]
    rfl

theorem told_iff : Proc.Told p ↔ p.signal.getLsbD 16 = true := and_sigChld_ne_zero

/-- A signal that is pending stays pending when another one comes. -/
theorem Proc.Told.addSignal {bits : BitVec 32} (h : Proc.Told p) :
    Proc.Told (addSignal bits p) := by
  rw [told_iff] at *
  rw [Processes.addSignal, BitVec.getLsbD_or, h, Bool.true_or]

theorem addSignal_calm {bits : BitVec 32} : Calm p (addSignal bits p) :=
  ⟨rfl, rfl, rfl, id, fun _ _ => id, fun _ _ => Proc.Told.addSignal, id⟩

theorem sendSig_calm {cur : Proc} {sig : ℤ} {priv : Bool} :
    Calm p (sendSig cur sig priv p).1 := by
  unfold sendSig
  split_ifs
  · exact Calm.refl p
  · exact addSignal_calm
  · exact Calm.refl p

theorem wakeSignal_calm : Calm p (wakeSignal p) := by
  unfold wakeSignal
  split_ifs
  · exact ⟨rfl, rfl, rfl, fun h => absurd h (by simp), fun _ _ h => absurd h.1 (by simp),
      fun h => absurd h (by simp), id⟩
  · exact Calm.refl p

/-- A change of a task in user mode. -/
theorem Waits.modify {f : Proc → Proc} (hw : s.Waits) (ht : s.task t = some p)
    (hf : Calm p (f p)) : (s.modify t f).Waits := by
  refine hw.mapTasks fun i q hq => ?_
  by_cases hit : i = t
  · subst hit
    obtain rfl := Option.some.inj (ht.symm.trans hq)
    rw [if_pos rfl]
    exact hf
  · rw [if_neg hit]
    exact Calm.refl q

/-! ### `fork` -/

theorem Waits.add {pid : ℤ} {nr : ℕ} (hw : s.Waits) (hnr : nr ≠ 0) :
    Waits { s with
      task := Function.update s.task nr (some (s.child p pid))
      lastPid := pid
      nextSerial := s.nextSerial + 1 } := by
  have hlook : ∀ i q, Function.update s.task nr (some (s.child p pid)) i = some q →
      q.state ≠ .running → s.task i = some q := by
    intro i q hq hstate
    by_cases hi : i = nr
    · rw [hi, Function.update_self, Option.some.injEq] at hq
      exact absurd (hq ▸ rfl) hstate
    · rwa [Function.update_of_ne hi] at hq
  refine ⟨?_, ?_⟩
  · intro q hq
    simp only [Function.update_of_ne hnr.symm] at hq
    exact hw.zero q hq
  · intro t q pid' options hq hsleeps i r hr hzombie
    exact hw.told t q pid' options (hlook t q hq (by simp [hsleeps.1])) hsleeps i r
      (hlook i r hr (by simp [hzombie])) hzombie

theorem Waits.fork {ok : Bool} (hw : s.Waits) (h : s.fork p ok = some s') : s'.Waits := by
  obtain ⟨pid, -, rfl⟩ := Option.map_eq_some_iff.mp h
  cases hnr : s.freeTask with
  | none => exact ⟨hw.zero, hw.told⟩
  | some nr =>
    cases ok with
    | false => exact ⟨hw.zero, hw.told⟩
    | true => exact hw.add (freeTask_spec hnr).1

/-! ### `do_exit` -/

theorem told_or (x : BitVec 32) (q : Proc) (h : q.signal = x ||| sigBit sigChld) :
    Proc.Told q := by
  rw [told_iff, h, BitVec.getLsbD_or, getLsbD_sigChld (by decide), decide_eq_true rfl, Bool.or_true]

theorem hasZombie_iff {pid : ℤ} : s.hasZombie pid = true ↔
    ∃ i q, i < nrTasks ∧ s.task i = some q ∧ q.father = pid ∧ q.state = .zombie := by
  simp [hasZombie, List.any_eq_true, Option.any_eq_true]

theorem Waits.exitBegin (hw : s.Waits) (hinv : s.Inv) (h2 : 2 ≤ t) (ht : s.task t = some p) :
    (s.exitBegin t p).Waits := by
  obtain ⟨g, heq, hg⟩ := exitBegin_eq s t p
  rw [heq]
  refine ⟨?_, ?_⟩
  · intro q' hq'
    obtain ⟨q, hq, rfl⟩ := mapTasks_eq_some.mp hq'
    rw [(hg 0 q).pos, if_neg (by omega)]
    exact hw.zero q hq
  · intro u r' pid options hr' hsleeps i q' hq' hzombie hwaits
    obtain ⟨r, hr, rfl⟩ := mapTasks_eq_some.mp hr'
    obtain ⟨q, hq, rfl⟩ := mapTasks_eq_some.mp hq'
    have hzombie : q.state = .zombie := (hg i q).state ▸ hzombie
    have hfather := father_of_waitsFor hwaits
    rw [(hg i q).father, (hg u r).pid] at hfather
    by_cases hq' : q.father = p.pid
    · -- the zombie is given to task 1, which is told
      rw [if_pos hq'] at hfather
      obtain ⟨f, hf⟩ := Option.isSome_iff_exists.mp (hinv.init t p h2 ht)
      obtain rfl := hinv.pid_inj u 1 r f hr hf (hfather.symm.trans (hinv.one f hf).1.symm)
      have hhas := hasZombie_iff.mpr ⟨i, q, hinv.bound i q hq, hq, hq', hzombie⟩
      refine told_or r.signal _ ?_
      rw [(hg 1 r).signal, if_pos ⟨rfl, hhas⟩]
    · have hold : Proc.Sleeps r pid options := by
        refine ⟨(hg u r).state ▸ hsleeps.1, ?_⟩
        have hpos := hsleeps.2
        rw [(hg u r).pos] at hpos
        split_ifs at hpos
        exact hpos
      have hwaits' : waitsFor r pid q = true := by
        rw [← hwaits]
        unfold waitsFor
        rw [(hg u r).pid, (hg u r).pgrp, (hg i q).pid, (hg i q).pgrp, (hg i q).father, if_neg hq']
      have htold := hw.told u r pid options hr hold i q hq hzombie hwaits'
      by_cases h1 : u = 1 ∧ s.hasZombie p.pid = true
      · exact told_or r.signal _ ((hg u r).signal.trans (if_pos h1))
      · unfold Proc.Told
        rw [(hg u r).signal, if_neg h1]
        exact htold

/-- What `do_exit` makes of a task before `tell_father`. -/
theorem died_fields (p : Proc) (t : ℕ) (code : ℤ) (i : ℕ) (q : Proc) :
    (died p t code i q).pid = q.pid ∧ (died p t code i q).father = q.father ∧
      (died p t code i q).pgrp = q.pgrp ∧ (died p t code i q).pos = q.pos ∧
      (died p t code i q).state = (if i = t then .zombie else q.state) ∧
      (Proc.Told q → Proc.Told (died p t code i q)) := by
  unfold died
  dsimp only
  by_cases hsession : p.leader = true ∧ i ≠ 0 ∧ q.session = p.session
  · simp only [if_pos hsession]
    have htold : Proc.Told q → Proc.Told (addSignal (sigBit sigHup) q) := Proc.Told.addSignal
    split_ifs
    · exact ⟨rfl, rfl, rfl, rfl, rfl, htold⟩
    · exact ⟨rfl, rfl, rfl, rfl, rfl, htold⟩
  · simp only [if_neg hsession]
    split_ifs
    · exact ⟨rfl, rfl, rfl, rfl, rfl, id⟩
    · exact ⟨rfl, rfl, rfl, rfl, rfl, id⟩

theorem Waits.exitEnd {code : ℤ} (hw : s.Waits) (hinv : s.Inv) (ht : s.task t = some p)
    (hpos : p.pos = .exiting) : (s.exitEnd t p code).Waits := by
  obtain ⟨j, f, heq, hf, hfather⟩ := exitEnd_eq code hinv ht hpos
  rw [heq]
  refine ⟨?_, ?_⟩
  · intro q' hq'
    obtain ⟨q₁, hq₁, rfl⟩ := mapTasks_eq_some.mp hq'
    obtain ⟨q, hq, rfl⟩ := mapTasks_eq_some.mp hq₁
    have hpos := (died_fields p t code 0 q).2.2.2.1.trans (hw.zero q hq)
    split_ifs <;> exact hpos
  · intro u r' pid options hr' hsleeps i q' hq' hzombie hwaits
    obtain ⟨r₁, hr₁, rfl⟩ := mapTasks_eq_some.mp hr'
    obtain ⟨r, hr, rfl⟩ := mapTasks_eq_some.mp hr₁
    obtain ⟨q₁, hq₁, rfl⟩ := mapTasks_eq_some.mp hq'
    obtain ⟨q, hq, rfl⟩ := mapTasks_eq_some.mp hq₁
    obtain ⟨hrpid, -, hrpgrp, hrpos, hrstate, hrtold⟩ := died_fields p t code u r
    obtain ⟨hqpid, hqfather, hqpgrp, -, hqstate, -⟩ := died_fields p t code i q
    replace hsleeps : Proc.Sleeps (died p t code u r) pid options := by
      split_ifs at hsleeps <;> exact hsleeps
    replace hzombie : (died p t code i q).state = .zombie := by
      split_ifs at hzombie <;> exact hzombie
    replace hwaits : waitsFor r pid q = true := by
      rw [← hwaits]
      unfold waitsFor addSignal
      split_ifs <;> simp only [hrpid, hrpgrp, hqpid, hqpgrp, hqfather]
    have hut : u ≠ t := by
      intro hut
      rw [Proc.Sleeps, hrstate, if_pos hut] at hsleeps
      exact absurd hsleeps.1 (by simp)
    by_cases hit : i = t
    · -- the father of the new zombie is told
      subst hit
      obtain rfl := Option.some.inj (ht.symm.trans hq)
      obtain rfl := hinv.pid_inj u j r f hr hf
        ((father_of_waitsFor hwaits).symm.trans hfather.symm)
      rw [if_pos rfl]
      exact told_or _ _ rfl
    · rw [hqstate, if_neg hit] at hzombie
      rw [Proc.Sleeps, hrstate, if_neg hut, hrpos] at hsleeps
      have htold := hrtold (hw.told u r pid options hr hsleeps i q hq hzombie hwaits)
      split_ifs
      · exact htold.addSignal
      · exact htold

/-! ### `sys_waitpid` -/

/-- The loop of `sys_waitpid` passes over no zombie. -/
theorem findChild_none {pid : ℤ} {options n : ℕ} {flag flag' : Bool}
    (h : s.findChild t p pid options n flag = .none flag') {i : ℕ} {q : Proc} (hi : 0 < i)
    (hn : i ≤ n) (hit : i ≠ t) (hq : s.task i = some q) (hwaits : waitsFor p pid q = true) :
    q.state ≠ .zombie := by
  induction n generalizing flag with
  | zero => omega
  | succ n ih =>
    rw [findChild] at h
    by_cases hin : i = n + 1
    · subst hin
      intro hzombie
      simp [hq, hit, hwaits, hzombie] at h
    · split at h
      · exact ih h (by omega)
      · split_ifs at h
        all_goals exact ih h (by omega)

/-- What `sys_waitpid` does when it looks for a task like `p`. -/
theorem Waits.sysWaitpid {p₀ : Proc} {pid : ℤ} {options : ℕ} (hw : s.Waits) (hinv : s.Inv)
    (ht : s.task t = some p₀) (ht0 : t ≠ 0) (hpid : p.pid = p₀.pid) (hpgrp : p.pgrp = p₀.pgrp) :
    (s.sysWaitpid t p pid options).Waits := by
  unfold Processes.sysWaitpid
  split
  · refine ⟨fun q hq => hw.zero q (release_eq_some.mp hq).2, ?_⟩
    intro u r pid options hr hsleeps i q hq
    exact hw.told u r pid options (release_eq_some.mp hr).2 hsleeps i q (release_eq_some.mp hq).2
  · rename_i hnone
    split_ifs
    · exact hw
    · refine ⟨?_, ?_⟩
      · intro q' hq'
        obtain ⟨q, hq, rfl⟩ := mapTasks_eq_some.mp hq'
        rw [if_neg ht0.symm]
        exact hw.zero q hq
      · intro u r' pid' options' hr' hsleeps i q' hq' hzombie hwaits
        obtain ⟨r, hr, rfl⟩ := mapTasks_eq_some.mp hr'
        obtain ⟨q, hq, rfl⟩ := mapTasks_eq_some.mp hq'
        have hit : i ≠ t := by
          intro hit
          rw [if_pos hit] at hzombie
          exact absurd hzombie (by simp)
        rw [if_neg hit] at hzombie hwaits
        by_cases hut : u = t
        · -- the task has just looked at all its children
          subst hut
          obtain rfl := Option.some.inj (ht.symm.trans hr)
          rw [if_pos rfl] at hsleeps hwaits
          obtain ⟨rfl, rfl⟩ := ProcPos.waiting.inj hsleeps.2
          have hi : i ≠ 0 := by
            rintro rfl
            have hpos := hinv.zombie 0 q hq hzombie
            rw [hw.zero q hq] at hpos
            exact absurd hpos (by simp)
          have hlt := hinv.bound i q hq
          refine absurd hzombie (findChild_none hnone (by omega) (by omega) hit hq ?_)
          rw [← hwaits]
          unfold waitsFor
          simp only [hpid, hpgrp]
        · rw [if_neg hut] at hsleeps hwaits ⊢
          exact hw.told u r pid' options' hr hsleeps i q hq hzombie hwaits
  · exact hw

/-! ### Runs -/

theorem Waits.resume {pid : ℤ} {options : ℕ} (hw : s.Waits) (hinv : s.Inv)
    (ht : s.task t = some p) (hrun : p.state = .running) (hpos : p.pos = .waiting pid options) :
    (s.resume t p pid options).Waits := by
  have ht0 : t ≠ 0 := by
    rintro rfl
    rw [hw.zero p ht] at hpos
    exact absurd hpos (by simp)
  have hkeep : Keeps p { p with signal := p.signal &&& ~~~sigBit sigChld, pos := .user } :=
    ⟨rfl, rfl, rfl, by simp [hpos], fun hz => absurd hz (by simp [hrun])⟩
  have hcalm : Calm p { p with signal := p.signal &&& ~~~sigBit sigChld, pos := .user } :=
    ⟨rfl, rfl, rfl, id, fun _ _ h => absurd h.2 (by simp), fun _ h => absurd rfl h, fun _ => rfl⟩
  have hw' := hw.modify (f := fun q =>
    { q with signal := p.signal &&& ~~~sigBit sigChld, pos := .user }) ht hcalm
  have hinv' := hinv.mapTasks (keeps_modify (f := fun q =>
    { q with signal := p.signal &&& ~~~sigBit sigChld, pos := .user }) hinv ht hkeep)
  unfold Processes.resume
  dsimp only
  split_ifs
  · exact hw'.sysWaitpid (p := p) hinv' (mapTasks_eq_some.mpr ⟨p, ht, if_pos rfl⟩) ht0 rfl rfl
  · exact hw'

/-- What a running task in user mode changes of itself without sleeping is calm. -/
theorem calm_of_user {f : Proc → Proc} (hpos : p.pos = .user) (hpid : (f p).pid = p.pid)
    (hfather : (f p).father = p.father) (hpgrp : (f p).pgrp = p.pgrp)
    (hstate : (f p).state = p.state) (hpos' : (f p).pos = p.pos) : Calm p (f p) where
  pid := hpid
  father := hfather
  pgrp := hpgrp
  zombie := hstate ▸ id
  sleeps _ _ h := ⟨hstate ▸ h.1, hpos' ▸ h.2⟩
  told _ h := absurd (hpos'.trans hpos) h
  user _ := hpos'.trans hpos

theorem Waits.step (hw : s.Waits) (hinv : s.Inv) (hstep : Step s s') : s'.Waits := by
  obtain ⟨e, h⟩ := hstep
  cases e with
  | fork t ok =>
    obtain ⟨p, -, -, h⟩ := user_eq_some.mp h
    exact hw.fork (Option.ite_none_right_eq_some.mp h).2
  | exitBegin t =>
    obtain ⟨p, ht, -, h⟩ := user_eq_some.mp h
    obtain ⟨h2, h⟩ := Option.ite_none_right_eq_some.mp h
    exact Option.some.inj h ▸ hw.exitBegin hinv h2 ht
  | exitEnd t code =>
    obtain ⟨p, ht, h⟩ := Option.bind_eq_some_iff.mp h
    obtain ⟨⟨-, hpos⟩, h⟩ := Option.ite_none_right_eq_some.mp h
    exact Option.some.inj h ▸ hw.exitEnd hinv ht hpos
  | waitpid t pid options =>
    obtain ⟨p, ht, -, h⟩ := user_eq_some.mp h
    obtain ⟨ht0, h⟩ := Option.ite_none_left_eq_some.mp h
    exact Option.some.inj h ▸ hw.sysWaitpid hinv ht ht0 rfl rfl
  | resume t =>
    obtain ⟨p, ht, h⟩ := Option.bind_eq_some_iff.mp h
    split at h
    · rename_i pid options hpos
      obtain ⟨hrun, h⟩ := Option.ite_none_right_eq_some.mp h
      exact Option.some.inj h ▸ hw.resume hinv ht hrun hpos
    · exact absurd h (by simp)
  | ssetmask t newmask =>
    obtain ⟨p, ht, ⟨-, hpos⟩, h⟩ := user_eq_some.mp h
    exact Option.some.inj h ▸ hw.modify ht (calm_of_user hpos rfl rfl rfl rfl rfl)
  | kill t pid sig =>
    obtain ⟨p, -, -, h⟩ := user_eq_some.mp h
    obtain ⟨f, heq, hf⟩ := sysKill_mapTasks s p pid sig
    obtain rfl := (Option.some.inj h).symm.trans heq
    refine hw.mapTasks fun i q _ => ?_
    rcases hf i q with hsame | ⟨priv, hsend⟩
    · rw [hsame]
      exact Calm.refl q
    · rw [hsend]
      exact sendSig_calm
  | deliver t mask =>
    obtain ⟨p, ht, ⟨-, hpos⟩, h⟩ := user_eq_some.mp h
    obtain ⟨-, h⟩ := Option.ite_none_left_eq_some.mp h
    obtain ⟨signr, -, rfl⟩ := Option.map_eq_some_iff.mp h
    exact hw.modify ht (calm_of_user hpos rfl rfl rfl rfl rfl)
  | send t sig =>
    refine Option.some.inj h ▸ hw.mapTasks fun i q _ => ?_
    split_ifs
    · exact addSignal_calm
    · exact Calm.refl q
  | schedule =>
    refine Option.some.inj h ▸ hw.mapTasks fun i q _ => ?_
    split_ifs
    · exact Calm.refl q
    · exact wakeSignal_calm

theorem boot_waits : boot.Waits := by
  refine ⟨?_, ?_⟩
  · intro p hp
    rw [← (boot_eq_some.mp hp).2]
    rfl
  · intro t p pid options hp hsleeps
    rw [← (boot_eq_some.mp hp).2] at hsleeps
    exact absurd hsleeps.1 (by decide)

/-- The invariant holds in every run. -/
theorem waits_reachable (h : Reachable (· = boot) Step s) : s.Waits := by
  have hboth : s.Table ∧ s.Waits := h.invariant (P := fun s => s.Table ∧ s.Waits)
    (fun _ hs => hs ▸ ⟨boot_table, boot_waits⟩)
    fun _ _ hs hstep => ⟨hs.1.step hstep, hs.2.step hs.1.inv hstep⟩
  exact hboth.2

/-- The test of `schedule`, for a task with a pending `SIGCHLD`. -/
theorem signal_ne_zero_iff (htold : Proc.Told p) :
    p.signal &&& ~~~(blockable &&& p.blocked) ≠ 0 ↔
      p.blocked &&& sigBit sigChld = 0 ∨
        p.signal &&& ~~~sigBit sigChld &&& ~~~(blockable &&& p.blocked) ≠ 0 := by
  have hblocked : p.blocked &&& sigBit sigChld = 0 ↔ p.blocked.getLsbD 16 = false := by
    rw [← not_iff_not, ← ne_eq, and_sigChld_ne_zero, Bool.not_eq_false]
  have h16 : blockable.getLsbD 16 = true := by decide
  rw [hblocked, ne_zero_iff_getLsbD, ne_zero_iff_getLsbD]
  constructor
  · rintro ⟨i, hi, hbit⟩
    by_cases hi16 : i = 16
    · subst hi16
      rw [BitVec.getLsbD_and, BitVec.getLsbD_not, BitVec.getLsbD_and, h16, Bool.and_eq_true,
        Bool.true_and, Bool.and_eq_true, Bool.not_eq_true'] at hbit
      exact Or.inl hbit.2.2
    · refine Or.inr ⟨i, hi, ?_⟩
      rw [BitVec.getLsbD_and, Bool.and_eq_true] at hbit
      rw [BitVec.getLsbD_and, BitVec.getLsbD_and, BitVec.getLsbD_not, getLsbD_sigChld hi,
        hbit.1, hbit.2, decide_eq_false hi16, decide_eq_true hi]
      rfl
  · rintro (hfree | ⟨i, hi, hbit⟩)
    · refine ⟨16, by decide, ?_⟩
      rw [BitVec.getLsbD_and, told_iff.mp htold, BitVec.getLsbD_not, BitVec.getLsbD_and, hfree]
      simp
    · refine ⟨i, hi, ?_⟩
      rw [BitVec.getLsbD_and, BitVec.getLsbD_and, Bool.and_eq_true, Bool.and_eq_true] at hbit
      rw [BitVec.getLsbD_and, hbit.1.1, hbit.2]
      rfl

/-- In every run a task that sleeps in `sys_waitpid` and has a zombie that it waits for is made
runnable by the next loop of `schedule` over the signals, exactly if it does not block `SIGCHLD`
or has another signal pending that it does not block. -/
theorem waiting_woken {pid : ℤ} {options i : ℕ} {q : Proc} (h : Reachable (· = boot) Step s)
    (ht : s.task t = some p) (hsleeps : Proc.Sleeps p pid options) (hq : s.task i = some q)
    (hzombie : q.state = .zombie) (hwaits : waitsFor p pid q = true) :
    s.scan.task t = some { p with state := .running } ↔
      p.blocked &&& sigBit sigChld = 0 ∨
        p.signal &&& ~~~sigBit sigChld &&& ~~~(blockable &&& p.blocked) ≠ 0 := by
  have hw := waits_reachable h
  have htold := hw.told t p pid options ht hsleeps i q hq hzombie hwaits
  have ht0 : t ≠ 0 := by
    rintro rfl
    have hpos := hsleeps.2
    rw [hw.zero p ht] at hpos
    exact absurd hpos (by simp)
  rw [← signal_ne_zero_iff htold]
  have hscan : s.scan.task t = some (wakeSignal p) := by
    simp only [scan, Processes.mapTasks, ht, Option.map_some, if_neg ht0]
  rw [hscan, Option.some.injEq, wakeSignal]
  split_ifs with hwake
  · exact iff_of_true rfl hwake.1
  · refine iff_of_false (fun heq => ?_) fun hne => hwake ⟨hne, hsleeps.1⟩
    have hstate := congrArg Proc.state heq
    rw [hsleeps.1] at hstate
    exact absurd hstate (by simp)

/-- Task 1 waits for a child that exits. -/
theorem waiting_woken_one : ∃ s p, Reachable (· = boot) Step s ∧ s.task 1 = some p ∧
    p.state = .interruptible ∧ (s.scan.task 1 = some { p with state := .running } ↔
      p.blocked &&& sigBit sigChld = 0 ∨
        p.signal &&& ~~~sigBit sigChld &&& ~~~(blockable &&& p.blocked) ≠ 0) := by
  have hrun : (runEvents next boot [.fork 0 true, .fork 1 true, .waitpid 1 (-1) 0, .exitBegin 2,
      .exitEnd 2 0]).any (fun s => (s.task 1).any fun p => (s.task 2).any fun q =>
        decide (p.state = .interruptible ∧ p.pos = .waiting (-1) 0 ∧ q.state = .zombie ∧
          waitsFor p (-1) q = true)) = true := by
    decide
  have hstart : Reachable (· = boot) Step boot := .of_init rfl
  obtain ⟨s, hs, -, hP⟩ := hstart.exists_runEvents (fun _ e _ he => ⟨e, he⟩) hrun
  obtain ⟨p, hp, hP⟩ := (Option.any_eq_true _ _).mp hP
  obtain ⟨q, hq, hP⟩ := (Option.any_eq_true _ _).mp hP
  obtain ⟨hstate, hpos, hzombie, hwaits⟩ := of_decide_eq_true hP
  exact ⟨s, p, hs, hp, hstate, waiting_woken hs hp ⟨hstate, hpos⟩ hq hzombie hwaits⟩

/-- Task 1 blocks `SIGCHLD`, waits for a child that exits, and is not woken. -/
theorem waiting_not_woken : ∃ s p q, Reachable (· = boot) Step s ∧ s.task 1 = some p ∧
    Proc.Sleeps p (-1) 0 ∧ s.task 2 = some q ∧ q.state = .zombie ∧ waitsFor p (-1) q = true ∧
    s.scan.task 1 = some p := by
  have hrun : (runEvents next boot [.fork 0 true, .fork 1 true, .ssetmask 1 (sigBit sigChld),
      .waitpid 1 (-1) 0, .exitBegin 2, .exitEnd 2 0]).any
        (fun s => (s.task 1).any fun p => (s.task 2).any fun q =>
          decide ((p.state = .interruptible ∧ p.pos = .waiting (-1) 0) ∧ q.state = .zombie ∧
            waitsFor p (-1) q = true ∧ s.scan.task 1 = some p)) = true := by
    decide
  have hstart : Reachable (· = boot) Step boot := .of_init rfl
  obtain ⟨s, hs, -, hP⟩ := hstart.exists_runEvents (fun _ e _ he => ⟨e, he⟩) hrun
  obtain ⟨p, hp, hP⟩ := (Option.any_eq_true _ _).mp hP
  obtain ⟨q, hq, hP⟩ := (Option.any_eq_true _ _).mp hP
  obtain ⟨hsleeps, hzombie, hwaits, hscan⟩ := of_decide_eq_true hP
  exact ⟨s, p, q, hs, hp, hsleeps, hq, hzombie, hwaits, hscan⟩

end Processes

end LihaLinux.Kernel
