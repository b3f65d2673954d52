import LihaLinux.Block.LockRuns
import Mathlib.Algebra.Order.BigOperators.Group.Finset

/-!
# Runs of the block devices

The counter of a buffer counts its references modulo 256. In a run with no more than 255
references to a buffer, a buffer that somebody holds is never given to another block, so requests
and buffer locks match. With 256 references the counter is 0, a buffer can change its device while
a task waits for its lock, and its request is put into the queue of the wrong device.
-/

namespace LihaLinux.Block

namespace BlockIo

variable {τ : Type*} [DecidableEq τ]

/-! ### References -/

/-- The buffer references of a task, between and in its calls. -/
def taskRefs (s : BlockIo τ) (t : τ) : List ℕ := s.bufs t ++ (s.stack t).flatMap IoFrame.refs

/-- A step of the topmost call changes the references of its task. -/
theorem taskRefs_after (s : BlockIo τ) (t : τ) {f : IoFrame} {rest : List IoFrame}
    (hstack : s.stack t = f :: rest) (w : IoTables) (n : IoNext) (b : ℕ) :
    ((s.after t rest w n).taskRefs t).count b + f.refs.count b =
      (s.taskRefs t).count b + n.refs.count b := by
  have hbefore : s.taskRefs t = s.bufs t ++ (f.refs ++ rest.flatMap IoFrame.refs) := by
    rw [taskRefs, hstack, List.flatMap_cons]
  have hafter : (s.after t rest w n).taskRefs t =
      bufsAfter (s.bufs t) n ++ (stackAfter rest n).flatMap IoFrame.refs := by
    rw [taskRefs, after_stack, after_bufs]
  rw [hbefore, hafter]
  cases n <;>
    simp only [bufsAfter, stackAfter, IoNext.refs, List.flatMap_cons, List.count_append,
      List.count_cons, List.count_nil] <;> omega

omit [DecidableEq τ] in
theorem taskRefs_of_ne {s s' : BlockIo τ} {t u : τ} (honly : OnlyTask s s' t) (hu : u ≠ t) :
    s'.taskRefs u = s.taskRefs u := by
  rw [taskRefs, taskRefs, honly.stack u hu, honly.bufs u hu]

variable [Fintype τ]

/-- The references to a buffer. -/
def bufRefs (s : BlockIo τ) (b : ℕ) : ℕ := ∑ t, (s.taskRefs t).count b

/-- The counters count references, as far as they can. -/
def Counted (s : BlockIo τ) : Prop := ∀ b, s.tables.cache.count b % 256 = s.bufRefs b % 256

theorem Counted.task {s s' : BlockIo τ} (h : s.Counted) {t : τ} (honly : OnlyTask s s' t)
    (hrefs : ∀ b, (s'.tables.cache.count b + (s.taskRefs t).count b) % 256 =
      (s.tables.cache.count b + (s'.taskRefs t).count b) % 256) : s'.Counted := by
  intro b
  have hsum := sum_update_add (f := fun u => (s.taskRefs u).count b)
    (g := fun u => (s'.taskRefs u).count b) t fun u hu => by rw [taskRefs_of_ne honly hu]
  have hcount := h b
  have hchange := hrefs b
  simp only [bufRefs] at hcount ⊢
  omega

omit [DecidableEq τ] in
/-- A buffer that is not counted is not held. -/
theorem Counted.free {s : BlockIo τ} (h : s.Counted) (hbound : ∀ b, s.bufRefs b ≤ 255) {bh : ℕ}
    (hcount : s.tables.cache.count bh = 0) (u : τ) : bh ∉ s.bufs u := by
  intro hmem
  have hle : (s.taskRefs u).count bh ≤ s.bufRefs bh :=
    Finset.single_le_sum (f := fun u => (s.taskRefs u).count bh) (fun _ _ => Nat.zero_le _)
      (Finset.mem_univ u)
  have hpos : 0 < (s.taskRefs u).count bh := by
    rw [List.count_pos_iff, taskRefs, List.mem_append]
    exact Or.inl hmem
  have hmod := h bh
  have := hbound bh
  omega

omit [Fintype τ] in
theorem onlyTask_enter (s : BlockIo τ) (t : τ) (c : IoCall) : OnlyTask s (s.enter t c) t :=
  ⟨fun _ hu => Function.update_of_ne hu .., fun _ hu => Function.update_of_ne hu ..⟩

omit [Fintype τ] in
theorem onlyTask_store (s : BlockIo τ) (t : τ) (c : Fs.Cache) (bufs : List ℕ) :
    OnlyTask s (s.store t c bufs) t :=
  ⟨fun _ _ => rfl, fun _ hu => Function.update_of_ne hu ..⟩

omit [Fintype τ] in
/-- A call takes over the reference that it releases. -/
theorem taskRefs_enter (s : BlockIo τ) (t : τ) {c : IoCall} (hbuf : ∀ b ∈ c.buf, b ∈ s.bufs t)
    (b : ℕ) : ((s.enter t c).taskRefs t).count b = (s.taskRefs t).count b := by
  have hafter : (s.enter t c).taskRefs t =
      (s.bufs t).diff c.released.toList ++ (c.frame :: s.stack t).flatMap IoFrame.refs := by
    simp only [taskRefs, enter, Function.update_self]
  rw [hafter, taskRefs, List.flatMap_cons]
  cases c with
  | brelse bh =>
    have hperm : (s.bufs t).Perm (bh :: (s.bufs t).erase bh) :=
      List.perm_cons_erase (hbuf bh rfl)
    have hcount := hperm.count_eq b
    simp only [IoCall.released, IoCall.frame, IoFrame.refs, Option.toList_some, List.count_append,
      List.diff_cons, List.diff_nil, List.count_cons, List.count_nil] at hcount ⊢
    omega
  | _ => simp only [IoCall.released, IoCall.frame, IoFrame.refs, Option.toList_none,
      List.diff_nil, List.nil_append]

omit [Fintype τ] in
theorem taskRefs_store (s : BlockIo τ) (t : τ) (c : Fs.Cache) (bufs : List ℕ) :
    (s.store t c bufs).taskRefs t = bufs ++ (s.stack t).flatMap IoFrame.refs := by
  simp only [taskRefs, store, Function.update_self]

/-- An event changes the counters by the references gained and lost. -/
theorem Counted.next {s s' : BlockIo τ} (h : s.Counted) {e : IoEvent τ} (hs : s.next e = some s') :
    s'.Counted := by
  cases e with
  | call t c =>
    simp only [BlockIo.next, Option.ite_none_right_eq_some, Option.some.injEq] at hs
    obtain ⟨⟨-, hbuf⟩, rfl⟩ := hs
    refine h.task (onlyTask_enter s t c) fun b => ?_
    rw [taskRefs_enter s t hbuf]
    rfl
  | exec t ended =>
    simp only [BlockIo.next, Option.ite_none_right_eq_some, execTop] at hs
    obtain ⟨-, hs⟩ := hs
    cases hstack : s.stack t with
    | nil =>
      rw [hstack] at hs
      cases hs
    | cons f rest =>
      rw [hstack] at hs
      obtain ⟨⟨w, n⟩, hexec, rfl⟩ := Option.map_eq_some_iff.mp hs
      refine h.task onlyTask_after fun b => ?_
      have hrefs := (IoFrame.exec_effect hexec).refs b
      have htask := taskRefs_after s t hstack w n b
      change (w.cache.count b + _) % 256 =
        (_ + ((s.after t rest w n).taskRefs t).count b) % 256
      omega
  | interrupt major uptodate =>
    obtain ⟨w, hend, rfl⟩ := Option.map_eq_some_iff.mp hs
    have hcount : w.cache.count = s.tables.cache.count := by
      obtain ⟨req, -, hend⟩ := Option.bind_eq_some_iff.mp hend
      obtain ⟨r, -, rfl⟩ := Option.map_eq_some_iff.mp hend
      cases (s.tables.requests.request req).bh <;> rfl
    intro b
    have hb := h b
    rw [← hcount] at hb
    exact hb
  | modify t bh =>
    simp only [BlockIo.next, Option.ite_none_right_eq_some, Option.some.injEq] at hs
    obtain ⟨-, rfl⟩ := hs
    refine h.task (onlyTask_store ..) fun b => ?_
    rw [taskRefs_store]
    rfl
  | drop t bh =>
    simp only [BlockIo.next, Option.ite_none_right_eq_some, Option.some.injEq] at hs
    obtain ⟨⟨-, hmem⟩, rfl⟩ := hs
    refine h.task (onlyTask_store ..) fun b => ?_
    have hcount := (List.perm_cons_erase hmem).count_eq b
    have hdec := decCount_refs s.tables.cache bh b
    rw [taskRefs_store, taskRefs]
    change ((s.tables.cache.decCount bh).count b + _) % 256 = _
    simp only [List.count_append, List.count_cons, List.count_nil] at hcount hdec ⊢
    omega

/-! ### Runs -/

/-- A step after which no buffer has more references than `b_count` can count. -/
def BoundedStep (s s' : BlockIo τ) : Prop := Step s s' ∧ ∀ b, s'.bufRefs b ≤ 255

/-- The invariant of the runs with few references. -/
structure RunInv (s : BlockIo τ) : Prop where
  locks : ∃ q, s.LockInv q
  counted : s.Counted
  bound : ∀ b, s.bufRefs b ≤ 255

theorem RunInv.step {s s' : BlockIo τ} (h : s.RunInv) (hs : BoundedStep s s') : s'.RunInv := by
  obtain ⟨⟨e, he⟩, hbound⟩ := hs
  obtain ⟨q, hq⟩ := h.locks
  exact ⟨hq.next (fun _ hcount => h.counted.free h.bound hcount) he, h.counted.next he, hbound⟩

omit [DecidableEq τ] in
theorem runInv_boot {s : BlockIo τ} (h : s.Boot) : s.RunInv := by
  obtain ⟨n, blocknr, driver, -, rfl⟩ := h
  have hrefs : ∀ b, (boot n blocknr driver : BlockIo τ).bufRefs b = 0 := by
    intro b
    simp [bufRefs, taskRefs, boot]
  refine ⟨⟨fun _ => [], ?_, fun hi => absurd hi List.not_mem_nil, fun x y b hx _ => ?_,
    fun hstack => nomatch hstack⟩, fun b => ?_, fun b => ?_⟩
  · exact
      { linked := fun _ => rfl
        nodup := fun _ => List.nodup_nil
        disjoint := fun h => absurd h List.not_mem_nil
        used := fun h => absurd h List.not_mem_nil }
  · cases x with
    | inl t => exact nomatch hx
    | inr i => exact absurd hx.1.choose_spec List.not_mem_nil
  · rw [hrefs]
    rfl
  · rw [hrefs]
    exact Nat.zero_le 255

/-- A request that is in use keeps its contents, or it is at the front of a queue and
`end_request` frees it. -/
def Reused (w w' : IoTables) (i : ℕ) : Prop :=
  { w'.requests.request i with next := (w.requests.request i).next } = w.requests.request i ∨
    w'.requests.request i = { w.requests.request i with dev := -1 } ∧
      ∃ m, w.requests.currentRequest m = some i

omit [DecidableEq τ] [Fintype τ] in
theorem reused_endRequest {w w' : IoTables} {major : ℕ} {uptodate : Bool}
    (hend : w.endRequest major uptodate = some w') (i : ℕ) : Reused w w' i := by
  obtain ⟨req, hcur, hend⟩ := Option.bind_eq_some_iff.mp hend
  obtain ⟨r, hr, rfl⟩ := Option.map_eq_some_iff.mp hend
  obtain ⟨req', hcur', rfl⟩ := Option.map_eq_some_iff.mp hr
  obtain rfl : req = req' := Option.some.inj (hcur.symm.trans hcur')
  generalize hr' : (w.requests.setRequest req
    { w.requests.request req with dev := -1 }).setCurrent major (w.requests.next req) = r'
  have hreq : r'.request = Function.update w.requests.request req
      { w.requests.request req with dev := -1 } := by
    rw [← hr']
    rfl
  have hsame : ∀ w' : IoTables, w'.requests = r' → Reused w w' i := by
    rintro w' rfl
    by_cases hi : i = req
    · subst hi
      refine Or.inr ⟨?_, major, hcur⟩
      rw [hreq, Function.update_self]
    · refine Or.inl ?_
      rw [hreq, Function.update_of_ne hi]
  cases (w.requests.request req).bh with
  | none => exact hsame _ rfl
  | some bh => exact hsame _ rfl

omit [DecidableEq τ] [Fintype τ] in
/-- A request that is in use is not filled in again. -/
theorem reused_exec {w w' : IoTables} {f : IoFrame} {n : IoNext} (h : Effect w f w' n)
    (hfill : ∀ {cmd major bh req}, f = .fillRequest cmd major bh req →
      (w.requests.request req).dev < 0) {i : ℕ} (hi : 0 ≤ (w.requests.request i).dev) :
    Reused w w' i := by
  cases h with
  | quiet hlock hdev hrefs hquiet => exact Or.inl rfl
  | assign hlock hcount hassign => exact Or.inl rfl
  | lock cmd ahead hlock => exact Or.inl rfl
  | unlock hf => exact Or.inl rfl
  | fill cmd major bh req =>
    have hne : i ≠ req := by
      rintro rfl
      have := hfill rfl
      omega
    have hsame : (w.fillRequest cmd bh req).requests.request i = w.requests.request i :=
      w.requests.setRequest_ne hne _
    refine Or.inl ?_
    rw [hsame]
  | add hadd hn =>
    rename_i major req
    obtain ⟨r, hr, rfl⟩ := Option.map_eq_some_iff.mp hadd
    have hsame := Requests.addRequest_sameFields hr i
    cases (w.requests.request req).bh with
    | none => exact Or.inl hsame
    | some bh => exact Or.inl hsame
  | finish hend => exact reused_endRequest hend i

/-- Requests and buffer locks match. -/
structure Matched (s : BlockIo τ) : Prop where
  /-- The buffer of a queued request is locked and on the device of the request, it is in no other
  queued request, and writes do not use the last third of the requests. -/
  queues : ∃ q : ℕ → List ℕ,
    (∀ m, Linked s.tables.requests.next (s.tables.requests.currentRequest m) (q m)) ∧
    (∀ m i, i ∈ q m → ∃ bh, (s.tables.requests.request i).bh = some bh ∧
      s.tables.cache.lock bh = true ∧ (s.tables.requests.request i).dev = s.tables.cache.dev bh) ∧
    (∀ m, (q m).Nodup) ∧
    (∀ m n i j, i ∈ q m → j ∈ q n →
      (s.tables.requests.request i).bh = (s.tables.requests.request j).bh → m = n ∧ i = j) ∧
    ∀ m i, i ∈ q m → (s.tables.requests.request i).cmd = rwWrite → i < nrRequest * 2 / 3
  /-- A request in use is filled in again only after `end_request` has freed it. -/
  reused : ∀ s', Step s s' → ∀ i, 0 ≤ (s.tables.requests.request i).dev →
    Reused s.tables s'.tables i
  /-- `INIT_REQUEST` does not panic. -/
  init : ∀ major, s.tables.initRequest major = true

omit [Fintype τ] in
theorem LockInv.matched {s : BlockIo τ} {q : ℕ → List ℕ} (h : s.LockInv q) : s.Matched := by
  refine ⟨⟨q, h.queues.linked, fun m i hi => ?_, h.queues.nodup, fun m n i j hi hj hij => ?_,
    fun m i hi => (h.entry hi).write⟩, ?_, fun major => ?_⟩
  · obtain ⟨bh, hbh, hlock, hdev, -⟩ := (h.entry hi).bh
    exact ⟨bh, hbh, hlock, hdev⟩
  · obtain ⟨bh, hbh, -⟩ := (h.entry hi).bh
    have hx : s.Holds q (.inr i) bh := ⟨⟨m, hi⟩, hbh⟩
    have hy : s.Holds q (.inr j) bh := ⟨⟨n, hj⟩, hij ▸ hbh⟩
    obtain rfl : i = j := Sum.inr.inj (h.exclusive hx hy)
    exact ⟨h.queues.disjoint hi hj, rfl⟩
  · rintro s' ⟨e, he⟩ i hi
    cases e with
    | call t c =>
      simp only [BlockIo.next, Option.ite_none_right_eq_some, Option.some.injEq] at he
      obtain ⟨-, rfl⟩ := he
      exact Or.inl rfl
    | exec t ended =>
      simp only [BlockIo.next, Option.ite_none_right_eq_some, execTop] at he
      obtain ⟨-, he⟩ := he
      cases hstack : s.stack t with
      | nil =>
        rw [hstack] at he
        cases he
      | cons f rest =>
        rw [hstack] at he
        obtain ⟨⟨w, n⟩, hexec, rfl⟩ := Option.map_eq_some_iff.mp he
        refine reused_exec (IoFrame.exec_effect hexec) (fun hf => ?_) hi
        have hok := (h.top hstack).1
        rw [hf] at hok
        exact hok.2.2.2.2
    | interrupt major uptodate =>
      obtain ⟨w, hend, rfl⟩ := Option.map_eq_some_iff.mp he
      exact reused_endRequest hend i
    | modify t bh =>
      simp only [BlockIo.next, Option.ite_none_right_eq_some, Option.some.injEq] at he
      obtain ⟨-, rfl⟩ := he
      exact Or.inl rfl
    | drop t bh =>
      simp only [BlockIo.next, Option.ite_none_right_eq_some, Option.some.injEq] at he
      obtain ⟨-, rfl⟩ := he
      exact Or.inl rfl
  · rw [IoTables.initRequest]
    cases hcur : s.tables.requests.currentRequest major with
    | none => rfl
    | some i =>
      have hi : i ∈ q major := by
        have hhead := (h.queues.linked major).head
        rw [hcur] at hhead
        exact List.mem_of_mem_head? hhead.symm
      obtain ⟨bh, hbh, hlock, hdev, hmajor⟩ := (h.entry hi).bh
      rw [Option.all_some, hbh, Option.all_some, hlock, Bool.and_true, decide_eq_true_eq, hdev,
        ← hmajor, majorOf]
      exact (Int.natCast_ediv _ _).symm

/-- In a run with no more than 255 references to a buffer, requests and buffer locks match in every
state. -/
theorem matched_of_bounded {s : BlockIo τ} (h : Reachable Boot BoundedStep s) : s.Matched := by
  have hinv : s.RunInv :=
    h.invariant (fun _ => runInv_boot) fun _ _ hs hstep => hs.step hstep
  obtain ⟨q, hq⟩ := hinv.locks
  exact hq.matched

/-- The events of a run with at most 255 references in all. -/
def boundedNext (s : BlockIo τ) (e : IoEvent τ) : Option (BlockIo τ) :=
  (s.next e).filter fun s' => ∑ t, (s'.taskRefs t).length ≤ 255

theorem BoundedStep.of_boundedNext {s s' : BlockIo τ} {e : IoEvent τ}
    (h : s.boundedNext e = some s') : BoundedStep s s' := by
  obtain ⟨hnext, hsum⟩ := Option.filter_eq_some_iff.mp h
  refine ⟨⟨e, hnext⟩, fun b => ?_⟩
  have hle : s'.bufRefs b ≤ ∑ t, (s'.taskRefs t).length :=
    Finset.sum_le_sum fun t _ => List.count_le_length
  exact hle.trans (of_decide_eq_true hsum)

/-- A task has read a block and writes it, and another one reads a second block. -/
theorem matched_of_bounded_sample : ∃ s : BlockIo Bool,
    s.tables.requests.currentRequest 3 = some 20 ∧ s.Matched := by
  have hboot : Reachable Boot BoundedStep (boot 2 (fun _ => 0) fun _ => true : BlockIo Bool) :=
    .of_init ⟨2, _, _, by omega, rfl⟩
  have hrun : (runEvents boundedNext (boot 2 (fun _ => 0) fun _ => true : BlockIo Bool)
      (.call false (.getblk 769 0) :: List.replicate 3 (.exec false none) ++
        .call false (.llRwBlock .read 0) :: List.replicate 7 (.exec false none) ++
        .interrupt 3 true :: .modify false 0 :: .call false (.llRwBlock .write 0) ::
        List.replicate 7 (.exec false none) ++ .call true (.getblk 769 1) ::
        List.replicate 3 (.exec true none) ++ .call true (.llRwBlock .read 1) ::
        List.replicate 6 (.exec true none))).any
          (fun s => s.tables.requests.currentRequest 3 = some 20) = true := by
    decide +kernel
  obtain ⟨s, hs, -, hP⟩ := hboot.exists_runEvents (fun _ _ _ he => .of_boundedNext he) hrun
  exact ⟨s, of_decide_eq_true hP, matched_of_bounded hs⟩

omit [DecidableEq τ] [Fintype τ] in
/-- With 256 references to a buffer another task can take it for a block of another device while a
task waits for its lock, and the request comes into the wrong queue. -/
theorem exists_wrong_queue : ∃ s : BlockIo Bool, Reachable Boot Step s ∧ ¬ s.Matched := by
  have hboot : Reachable Boot Step (boot 1 (fun _ => 0) fun _ => true : BlockIo Bool) :=
    .of_init ⟨1, _, _, by omega, rfl⟩
  have hrun : (runEvents next (boot 1 (fun _ => 0) fun _ => true : BlockIo Bool)
      (.call false (.getblk 769 0) :: List.replicate 3 (.exec false none) ++
        (List.replicate 255
          [.call false (.getblk 769 0), .exec false none, .exec false none]).flatten ++
        .call false (.llRwBlock .read 0) :: List.replicate 7 (.exec false none) ++
        .call false (.llRwBlock .write 0) :: List.replicate 2 (.exec false none) ++
        .interrupt 3 true :: .call true (.getblk 512 5) :: List.replicate 3 (.exec true none) ++
        .modify true 0 :: List.replicate 5 (.exec false none))).any
          (fun s => s.tables.initRequest 3 = false) = true := by
    decide +kernel
  obtain ⟨s, hs, -, hP⟩ := hboot.exists_runEvents (fun _ e _ he => ⟨e, he⟩) hrun
  exact ⟨s, hs, fun h => Bool.false_ne_true ((of_decide_eq_true hP).symm.trans (h.init 3))⟩

end BlockIo

end LihaLinux.Block
