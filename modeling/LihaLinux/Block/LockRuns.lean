import LihaLinux.Block.BufferLocks
import LihaLinux.Lib.Exclusive

/-!
# Requests and buffer locks

In every run in which no buffer has more references than `b_count` can count, the buffer of a
queued request is locked, on the device of the request, and in no other request. A request is
filled in only while it is free.
-/

namespace LihaLinux.Block

/-- A request that is, or is about to be, in the queue of a device. -/
structure Entry (w : IoTables) (major i : ℕ) : Prop where
  bound : i < nrRequest
  bh : ∃ bh, (w.requests.request i).bh = some bh ∧ w.cache.lock bh = true ∧
    (w.requests.request i).dev = w.cache.dev bh ∧ majorOf (w.cache.dev bh) = major
  write : (w.requests.request i).cmd = rwWrite → i < nrRequest * 2 / 3

/-- The buffer that a call has locked. -/
def IoFrame.locked (r : Requests) : IoFrame → Option ℕ
  | .testBuffer _ _ _ bh | .findRequest _ _ _ bh _ | .fillRequest _ _ bh _ => some bh
  | .addRequest _ req => (r.request req).bh
  | _ => none

theorem IoFrame.locked_of_plain {f : IoFrame} (h : f.plain = true) (r : Requests) :
    f.locked r = none := by
  cases f <;> first | rfl | exact nomatch h

/-- An entry stays one while its request and the lock and device of its buffer do. -/
theorem Entry.congr {w w' : IoTables} {major i : ℕ} (h : Entry w major i)
    (hrequest : { w'.requests.request i with next := (w.requests.request i).next } =
      w.requests.request i)
    (hbuffer : ∀ bh, (w.requests.request i).bh = some bh → w.cache.lock bh = true →
      w'.cache.lock bh = true ∧ w'.cache.dev bh = w.cache.dev bh) : Entry w' major i := by
  obtain ⟨bh, hbh, hlock, hdev, hmajor⟩ := h.bh
  obtain ⟨hlock', hdev'⟩ := hbuffer bh hbh hlock
  refine ⟨h.bound, ⟨bh, ?_, hlock', ?_, hdev' ▸ hmajor⟩, ?_⟩
  · rw [← hbh, ← hrequest]
  · rw [hdev', ← hdev, ← hrequest]
  · have hwrite := h.write
    rw [← hrequest] at hwrite
    exact hwrite

namespace BlockIo

variable {τ : Type*}

/-- A task may call `ll_rw_block` for a buffer that it holds, or that is not locked. -/
def Safe (s : BlockIo τ) (t : τ) (bh : ℕ) : Prop :=
  bh ∈ s.bufs t ∨ s.running = some t ∧ s.tables.cache.lock bh = false

/-- The topmost call of a task is in order. -/
def FrameOk (s : BlockIo τ) (t : τ) : IoFrame → Prop
  | .llRwBlock _ bh => s.Safe t bh
  | .lockBuffer _ _ major bh => s.Safe t bh ∧ majorOf (s.tables.cache.dev bh) = major
  | .testBuffer _ _ major bh =>
    s.tables.cache.lock bh = true ∧ majorOf (s.tables.cache.dev bh) = major
  | .findRequest cmd _ major bh i =>
    s.tables.cache.lock bh = true ∧ majorOf (s.tables.cache.dev bh) = major ∧
      i ≤ requestLimit cmd
  | .fillRequest cmd major bh req =>
    s.tables.cache.lock bh = true ∧ majorOf (s.tables.cache.dev bh) = major ∧
      s.running = some t ∧ req < requestLimit cmd ∧ (s.tables.requests.request req).dev < 0
  | .addRequest major req =>
    s.running = some t ∧ Entry s.tables major req ∧ s.tables.requests.next req = none
  | _ => True

theorem frameOk_of_plain {s : BlockIo τ} {t : τ} {f : IoFrame} (h : f.plain = true) :
    s.FrameOk t f := by
  cases f <;> trivial

/-- The buffer that a task has locked. -/
def owner (s : BlockIo τ) (t : τ) : Option ℕ :=
  (s.stack t).head?.bind fun f => f.locked s.tables.requests

/-- The tasks and requests that have a buffer locked. -/
def Holds (s : BlockIo τ) (q : ℕ → List ℕ) : τ ⊕ ℕ → ℕ → Prop
  | .inl t, b => s.owner t = some b
  | .inr i, b => (∃ m, i ∈ q m) ∧ (s.tables.requests.request i).bh = some b

/-- The invariant, for the queues `q`. -/
structure LockInv (s : BlockIo τ) (q : ℕ → List ℕ) : Prop where
  queues : s.tables.requests.Queues q
  entry : ∀ {m i}, i ∈ q m → Entry s.tables m i
  exclusive : Exclusive (s.Holds q)
  top : ∀ {t f rest}, s.stack t = f :: rest → s.FrameOk t f ∧ ∀ g ∈ rest, g.plain = true

theorem FrameOk.lock {s : BlockIo τ} {t : τ} {f : IoFrame} (h : s.FrameOk t f) {b : ℕ}
    (hb : f.locked s.tables.requests = some b) : s.tables.cache.lock b = true := by
  cases f with
  | testBuffer cmd ahead major bh =>
    obtain rfl := Option.some.inj hb
    exact h.1
  | findRequest cmd ahead major bh i =>
    obtain rfl := Option.some.inj hb
    exact h.1
  | fillRequest cmd major bh req =>
    obtain rfl := Option.some.inj hb
    exact h.1
  | addRequest major req =>
    obtain ⟨bh, hbh, hlock, -⟩ := h.2.1.bh
    obtain rfl := Option.some.inj (hbh.symm.trans hb)
    exact hlock
  | _ => exact nomatch hb

/-- A buffer with a holder is locked. -/
theorem LockInv.lock {s : BlockIo τ} {q : ℕ → List ℕ} (h : s.LockInv q) {x : τ ⊕ ℕ} {b : ℕ}
    (hx : s.Holds q x b) : s.tables.cache.lock b = true := by
  cases x with
  | inl t =>
    obtain ⟨f, hf, hb⟩ := Option.bind_eq_some_iff.mp hx
    obtain ⟨rest, hstack⟩ := List.head?_eq_some_iff.mp hf
    exact (h.top hstack).1.lock hb
  | inr i =>
    obtain ⟨⟨m, hi⟩, hb⟩ := hx
    obtain ⟨bh, hbh, hlock, -⟩ := (h.entry hi).bh
    obtain rfl := Option.some.inj (hbh.symm.trans hb)
    exact hlock

variable [DecidableEq τ]

/-! ### The other tasks -/

section Other

variable {s : BlockIo τ} {t u : τ} {rest : List IoFrame} {w : IoTables} {n : IoNext}

theorem after_stack : (s.after t rest w n).stack t = stackAfter rest n := Function.update_self ..

theorem after_bufs : (s.after t rest w n).bufs t = bufsAfter (s.bufs t) n :=
  Function.update_self ..

/-- A state that differs from another one only in the tables and in what belongs to a task. -/
structure OnlyTask (s s' : BlockIo τ) (t : τ) : Prop where
  stack : ∀ u, u ≠ t → s'.stack u = s.stack u
  bufs : ∀ u, u ≠ t → s'.bufs u = s.bufs u

theorem onlyTask_after : OnlyTask s (s.after t rest w n) t :=
  ⟨fun _ hu => Function.update_of_ne hu .., fun _ hu => Function.update_of_ne hu ..⟩

omit [DecidableEq τ] in
/-- A task that does not run stays in order while the buffers that it holds or has locked do. -/
theorem FrameOk.other {s' : BlockIo τ} (honly : OnlyTask s s' t) (hu : u ≠ t) (hrun : s.MayRun t)
    {f : IoFrame} (h : s.FrameOk u f)
    (hdev : ∀ b, b ∈ s.bufs u ∨ s.tables.cache.lock b = true →
      s'.tables.cache.dev b = s.tables.cache.dev b)
    (hlock : ∀ b, f.locked s.tables.requests = some b → s'.tables.cache.lock b = true) :
    s'.FrameOk u f := by
  have hstop : s.running ≠ some u := by
    intro hrunning
    rcases hrun with hrun | hrun
    · exact nomatch hrun.symm.trans hrunning
    · exact hu (Option.some.inj (hrunning.symm.trans hrun))
  have hsafe : ∀ bh, s.Safe u bh → s'.Safe u bh ∧ bh ∈ s.bufs u := by
    rintro bh (hbh | ⟨hrunning, -⟩)
    · exact ⟨Or.inl (by rwa [honly.bufs u hu]), hbh⟩
    · exact absurd hrunning hstop
  cases f with
  | llRwBlock rw bh => exact (hsafe bh h).1
  | lockBuffer cmd ahead major bh =>
    obtain ⟨hsafe', hbh⟩ := hsafe bh h.1
    exact ⟨hsafe', (congrArg majorOf (hdev bh (Or.inl hbh))).trans h.2⟩
  | testBuffer cmd ahead major bh =>
    exact ⟨hlock bh rfl, (congrArg majorOf (hdev bh (Or.inr h.1))).trans h.2⟩
  | findRequest cmd ahead major bh i =>
    exact ⟨hlock bh rfl, (congrArg majorOf (hdev bh (Or.inr h.1))).trans h.2.1, h.2.2⟩
  | fillRequest cmd major bh req => exact absurd h.2.2.1 hstop
  | addRequest major req => exact absurd h.1 hstop
  | _ => trivial

omit [DecidableEq τ] in
/-- The other tasks have the buffers locked that they had. -/
theorem LockInv.owner_eq {s' : BlockIo τ} {q : ℕ → List ℕ} (h : s.LockInv q)
    (honly : OnlyTask s s' t) (hu : u ≠ t) (hrun : s.MayRun t) : s'.owner u = s.owner u := by
  rw [owner, owner, honly.stack u hu]
  cases hstack : s.stack u with
  | nil => rfl
  | cons f l =>
    have hok := (h.top hstack).1
    cases f with
    | addRequest major req =>
      rcases hrun with hrun | hrun
      · exact nomatch hrun.symm.trans hok.1
      · exact absurd (Option.some.inj (hok.1.symm.trans hrun)) hu
    | _ => rfl

/-- A step of one task: what it must not do to the others, and what has to be shown of the task
itself. -/
theorem LockInv.task {s' : BlockIo τ} {q q' : ℕ → List ℕ} (h : s.LockInv q)
    (honly : OnlyTask s s' t) (hrun : s.MayRun t) (hqueues : s'.tables.requests.Queues q')
    (hentry : ∀ {m i}, i ∈ q' m → Entry s'.tables m i) (hexclusive : Exclusive (s'.Holds q'))
    (hdev : ∀ u b, u ≠ t → b ∈ s.bufs u ∨ s.tables.cache.lock b = true →
      s'.tables.cache.dev b = s.tables.cache.dev b)
    (hlock : ∀ u b, u ≠ t → s.owner u = some b → s'.tables.cache.lock b = true)
    (htop : ∀ {f l}, s'.stack t = f :: l → s'.FrameOk t f ∧ ∀ g ∈ l, g.plain = true) :
    s'.LockInv q' := by
  refine ⟨hqueues, hentry, hexclusive, fun {u f l} hstack => ?_⟩
  by_cases hu : u = t
  · subst hu
    exact htop hstack
  · rw [honly.stack u hu] at hstack
    refine ⟨(h.top hstack).1.other honly hu hrun (hdev u · hu) fun b hb => hlock u b hu ?_,
      (h.top hstack).2⟩
    rw [owner, hstack]
    exact hb

/-- A step of the topmost call of `t`. -/
theorem LockInv.after {q q' : ℕ → List ℕ} (h : s.LockInv q) (hrun : s.MayRun t)
    (hqueues : w.requests.Queues q') (hentry : ∀ {m i}, i ∈ q' m → Entry w m i)
    (hexclusive : Exclusive ((s.after t rest w n).Holds q'))
    (hdev : ∀ u b, u ≠ t → b ∈ s.bufs u ∨ s.tables.cache.lock b = true →
      w.cache.dev b = s.tables.cache.dev b)
    (hlock : ∀ u b, u ≠ t → s.owner u = some b → w.cache.lock b = true)
    (htop : ∀ {f l}, stackAfter rest n = f :: l → (s.after t rest w n).FrameOk t f ∧
      ∀ g ∈ l, g.plain = true) : (s.after t rest w n).LockInv q' :=
  h.task onlyTask_after hrun hqueues hentry hexclusive hdev hlock fun hf =>
    htop (after_stack.symm.trans hf)

end Other

/-! ### One step -/

section Steps

variable {s : BlockIo τ} {q : ℕ → List ℕ} {t : τ} {f : IoFrame} {rest : List IoFrame}

/-- After a return the topmost call has nothing locked. -/
theorem locked_of_rest (hrest : ∀ g ∈ rest, g.plain = true) (r : Requests) :
    (rest.head?.bind fun g => g.locked r) = none := by
  cases rest with
  | nil => rfl
  | cons g l => exact IoFrame.locked_of_plain (hrest g List.mem_cons_self) r

/-- A quiet step locks nothing. -/
theorem locked_of_quiet {w : IoTables} {n : IoNext} (h : Quiet w f n)
    (hrest : ∀ g ∈ rest, g.plain = true) {b : ℕ}
    (hb : ((stackAfter rest n).head?.bind fun g => g.locked w.requests) = some b) :
    f.locked w.requests = some b := by
  cases h with
  | ret hf => exact nomatch (locked_of_rest hrest w.requests).symm.trans hb
  | got hf bh => exact nomatch (locked_of_rest hrest w.requests).symm.trans hb
  | go hf hg => exact nomatch (IoFrame.locked_of_plain hg w.requests).symm.trans hb
  | sleep hf hg => exact nomatch (IoFrame.locked_of_plain hg w.requests).symm.trans hb
  | call hf hg hcallee =>
    exact nomatch (IoFrame.locked_of_plain hcallee w.requests).symm.trans hb
  | write hf hg hlock => exact nomatch hb
  | request rw bh => exact nomatch hb
  | wait cmd ahead hlock => exact nomatch hb
  | test cmd ahead major bh => exact hb
  | full cmd ahead major bh => exact hb
  | used cmd ahead major bh i => exact hb
  | free cmd ahead major bh i hfree => exact hb

/-- A quiet step leaves its task in order. -/
theorem FrameOk.quiet {c : Fs.Cache} {n : IoNext} (h : s.FrameOk t f)
    (hrest : ∀ g ∈ rest, g.plain = true) (hlock : c.lock = s.tables.cache.lock)
    (hdev : c.dev = s.tables.cache.dev) (hquiet : Quiet s.tables f n) {g : IoFrame}
    {l : List IoFrame} (hg : stackAfter rest n = g :: l) :
    (s.after t rest (s.tables.withCache c) n).FrameOk t g ∧ ∀ g ∈ l, g.plain = true := by
  have hback : rest = g :: l → (s.after t rest (s.tables.withCache c) n).FrameOk t g ∧
      ∀ g ∈ l, g.plain = true := by
    rintro rfl
    exact ⟨frameOk_of_plain (hrest g List.mem_cons_self),
      fun g' hg' => hrest g' (List.mem_cons_of_mem _ hg')⟩
  cases hquiet with
  | ret hf => exact hback hg
  | got hf bh => exact hback hg
  | go hf hplain =>
    obtain ⟨rfl, rfl⟩ := List.cons.inj hg
    exact ⟨frameOk_of_plain hplain, hrest⟩
  | sleep hf hplain =>
    obtain ⟨rfl, rfl⟩ := List.cons.inj hg
    exact ⟨frameOk_of_plain hplain, hrest⟩
  | call hf hplain hcallee =>
    obtain ⟨rfl, rfl⟩ := List.cons.inj hg
    exact ⟨frameOk_of_plain hcallee, List.forall_mem_cons.mpr ⟨hplain, hrest⟩⟩
  | write hf hplain hfree =>
    obtain ⟨rfl, rfl⟩ := List.cons.inj hg
    refine ⟨Or.inr ⟨rfl, ?_⟩, List.forall_mem_cons.mpr ⟨hplain, hrest⟩⟩
    change c.lock _ = false
    rw [hlock, hfree]
  | request rw bh =>
    obtain ⟨rfl, rfl⟩ := List.cons.inj hg
    refine ⟨⟨?_, congrArg majorOf (congrFun hdev bh)⟩, hrest⟩
    refine (h : s.Safe t bh).imp (fun hbh => ?_) fun hfree => ⟨rfl, ?_⟩
    · rwa [after_bufs]
    · exact (congrFun hlock bh).trans hfree.2
  | wait cmd ahead hlocked =>
    rename_i major bh
    obtain ⟨rfl, rfl⟩ := List.cons.inj hg
    obtain ⟨hbh | hfree, hmajor⟩ := (h : s.Safe t bh ∧ _)
    · refine ⟨⟨Or.inl ?_, (congrArg majorOf (congrFun hdev bh)).trans hmajor⟩, hrest⟩
      rwa [after_bufs]
    · exact absurd (hfree.2.symm.trans hlocked) Bool.false_ne_true
  | test cmd ahead major bh =>
    obtain ⟨rfl, rfl⟩ := List.cons.inj hg
    exact ⟨⟨(congrFun hlock bh).trans h.1, (congrArg majorOf (congrFun hdev bh)).trans h.2,
      le_refl _⟩, hrest⟩
  | full cmd ahead major bh =>
    obtain ⟨rfl, rfl⟩ := List.cons.inj hg
    exact ⟨⟨(congrFun hlock bh).trans h.1, (congrArg majorOf (congrFun hdev bh)).trans h.2.1,
      le_refl _⟩, hrest⟩
  | used cmd ahead major bh i =>
    obtain ⟨rfl, rfl⟩ := List.cons.inj hg
    exact ⟨⟨(congrFun hlock bh).trans h.1, (congrArg majorOf (congrFun hdev bh)).trans h.2.1,
      Nat.le_of_succ_le h.2.2⟩, hrest⟩
  | free cmd ahead major bh i hfree =>
    obtain ⟨rfl, rfl⟩ := List.cons.inj hg
    exact ⟨⟨(congrFun hlock bh).trans h.1, (congrArg majorOf (congrFun hdev bh)).trans h.2.1, rfl,
      h.2.2, hfree⟩, hrest⟩

/-- A quiet step keeps the invariant. -/
theorem LockInv.quiet (h : s.LockInv q) (hrun : s.MayRun t) (hstack : s.stack t = f :: rest)
    {c : Fs.Cache} {n : IoNext} (hlock : c.lock = s.tables.cache.lock)
    (hdev : c.dev = s.tables.cache.dev) (hquiet : Quiet s.tables f n) :
    (s.after t rest (s.tables.withCache c) n).LockInv q := by
  obtain ⟨hok, hrest⟩ := h.top hstack
  refine h.after hrun h.queues (fun hi => (h.entry hi).congr rfl fun bh _ hb => ?_) ?_
    (fun u b _ _ => congrFun hdev b) (fun u b _ hb => ?_) (hok.quiet hrest hlock hdev hquiet)
  · exact ⟨(congrFun hlock bh).trans hb, congrFun hdev bh⟩
  · refine h.exclusive.mono fun x b hx => ?_
    cases x with
    | inr i => exact hx
    | inl u =>
      by_cases hu : u = t
      · subst hu
        have hb : (s.after u rest (s.tables.withCache c) n).owner u = some b := hx
        rw [owner, after_stack] at hb
        change s.owner u = some b
        rw [owner, hstack]
        exact locked_of_quiet hquiet hrest hb
      · exact (h.owner_eq onlyTask_after hu hrun).symm.trans hx
  · exact (congrFun hlock b).trans (h.lock (x := .inl u) hb)

/-- What a step leaves to the tasks other than its own. -/
theorem LockInv.holds_of_ne (h : s.LockInv q) (hrun : s.MayRun t) {w : IoTables} {n : IoNext}
    {u : τ} (hu : u ≠ t) {b : ℕ} (hb : (s.after t rest w n).owner u = some b) :
    s.Holds q (.inl u) b := (h.owner_eq onlyTask_after hu hrun).symm.trans hb

/-- `getblk` takes a buffer that nobody holds or has locked. -/
theorem LockInv.assign (h : s.LockInv q) (hrun : s.MayRun t) {dev block bh : ℕ}
    (hstack : s.stack t = .getblkWait dev block bh :: rest)
    (hlock : s.tables.cache.lock bh = false) (hfree : ∀ u, bh ∉ s.bufs u) {c : Fs.Cache}
    (hassign : s.tables.cache.assign dev block bh = some c) :
    (s.after t rest (s.tables.withCache c) (.got bh)).LockInv q := by
  obtain ⟨-, hrest⟩ := h.top hstack
  have hassigned := assigned_of_assign hassign
  have hdev : ∀ b, b ≠ bh → c.dev b = s.tables.cache.dev b := by
    intro b hb
    rw [hassigned.dev, Function.update_of_ne hb]
  have hne : ∀ b, s.tables.cache.lock b = true → b ≠ bh := by
    rintro b hb rfl
    exact Bool.false_ne_true (hlock.symm.trans hb)
  refine h.after hrun h.queues (fun hi => (h.entry hi).congr rfl fun b _ hb => ?_) ?_
    (fun u b _ hb => hdev b ?_) (fun u b _ hb => ?_) fun {f l} hf => ?_
  · exact ⟨(congrFun hassigned.lock b).trans hb, hdev b (hne b hb)⟩
  · refine h.exclusive.mono fun x b hx => ?_
    cases x with
    | inr i => exact hx
    | inl u =>
      by_cases hu : u = t
      · subst hu
        have hb : (s.after u rest (s.tables.withCache c) (.got bh)).owner u = some b := hx
        rw [owner, after_stack] at hb
        exact nomatch (locked_of_rest hrest s.tables.requests).symm.trans hb
      · exact h.holds_of_ne hrun hu hx
  · rcases hb with hb | hb
    · rintro rfl
      exact hfree u hb
    · exact hne b hb
  · exact (congrFun hassigned.lock b).trans (h.lock (x := .inl u) hb)
  · obtain rfl : rest = f :: l := hf
    exact ⟨frameOk_of_plain (hrest f List.mem_cons_self),
      fun g hg => hrest g (List.mem_cons_of_mem _ hg)⟩

/-- A task locks a buffer that is not locked. -/
theorem LockInv.lockBuffer (h : s.LockInv q) (hrun : s.MayRun t) {cmd major bh : ℕ} {ahead : Bool}
    (hstack : s.stack t = .lockBuffer cmd ahead major bh :: rest)
    (hfree : s.tables.cache.lock bh = false) :
    (s.after t rest (s.tables.withCache (s.tables.cache.setLock bh true))
      (.go (.testBuffer cmd ahead major bh))).LockInv q := by
  obtain ⟨hok, hrest⟩ := h.top hstack
  have hlock : ∀ b, s.tables.cache.lock b = true →
      (s.tables.cache.setLock bh true).lock b = true := by
    intro b hb
    change Function.update s.tables.cache.lock bh true b = true
    rw [Function.update_apply, hb, ite_self]
  have hnobody : ∀ x, ¬ s.Holds q x bh := fun x hx =>
    Bool.false_ne_true (hfree.symm.trans (h.lock hx))
  refine h.after hrun h.queues (fun hi => (h.entry hi).congr rfl fun b _ hb => ⟨hlock b hb, rfl⟩)
    ?_ (fun u b _ _ => rfl) (fun u b _ hb => hlock b (h.lock (x := .inl u) hb)) fun {f l} hf => ?_
  · refine h.exclusive.acquire (o := .inl t) hnobody fun x b hx => ?_
    cases x with
    | inr i => exact Or.inl hx
    | inl u =>
      by_cases hu : u = t
      · subst hu
        have hb : (s.after u rest (s.tables.withCache (s.tables.cache.setLock bh true))
          (.go (.testBuffer cmd ahead major bh))).owner u = some b := hx
        rw [owner, after_stack] at hb
        exact Or.inr ⟨rfl, (Option.some.inj hb).symm⟩
      · exact Or.inl (h.holds_of_ne hrun hu hx)
  · obtain ⟨rfl, rfl⟩ := List.cons.inj hf
    exact ⟨⟨Function.update_self .., hok.2⟩, hrest⟩

/-- A task unlocks the buffer that it has locked. -/
theorem LockInv.unlockBuffer (h : s.LockInv q) (hrun : s.MayRun t) (hstack : s.stack t = f :: rest)
    {bh : ℕ} (hf : f.locked s.tables.requests = some bh) :
    (s.after t rest (s.tables.unlockBuffer bh) .ret).LockInv q := by
  obtain ⟨-, hrest⟩ := h.top hstack
  have howner : s.Holds q (.inl t) bh := by
    change s.owner t = some bh
    rw [owner, hstack]
    exact hf
  have hlock : ∀ x b, x ≠ .inl t → s.Holds q x b →
      (s.tables.unlockBuffer bh).cache.lock b = true := by
    intro x b hx hb
    change Function.update s.tables.cache.lock bh false b = true
    rw [Function.update_of_ne, h.lock hb]
    rintro rfl
    exact hx (h.exclusive hb howner)
  refine h.after hrun h.queues (fun {m i} hi => (h.entry hi).congr rfl fun b hb _ => ⟨?_, rfl⟩)
    ?_ (fun u b _ _ => rfl) (fun u b hu hb => hlock (.inl u) b (fun h => hu (Sum.inl.inj h)) hb)
    fun {g l} hg => ?_
  · exact hlock (.inr i) b (fun h => nomatch h) ⟨⟨m, hi⟩, hb⟩
  · refine h.exclusive.mono fun x b hx => ?_
    cases x with
    | inr i => exact hx
    | inl u =>
      by_cases hu : u = t
      · subst hu
        have hb : (s.after u rest (s.tables.unlockBuffer bh) .ret).owner u = some b := hx
        rw [owner, after_stack] at hb
        exact nomatch (locked_of_rest hrest s.tables.requests).symm.trans hb
      · exact h.holds_of_ne hrun hu hx
  · obtain rfl : rest = g :: l := hg
    exact ⟨frameOk_of_plain (hrest g List.mem_cons_self),
      fun g hg => hrest g (List.mem_cons_of_mem _ hg)⟩

theorem requestLimit_le (cmd : ℕ) : requestLimit cmd ≤ nrRequest := by
  unfold requestLimit
  split
  · exact le_refl _
  · decide

/-- A task fills in a free request. -/
theorem LockInv.fillRequest (h : s.LockInv q) (hrun : s.MayRun t) {cmd major bh req : ℕ}
    (hstack : s.stack t = .fillRequest cmd major bh req :: rest) :
    (s.after t rest (s.tables.fillRequest cmd bh req) (.go (.addRequest major req))).LockInv q := by
  obtain ⟨⟨hlock, hmajor, -, hreq, hfree⟩, hrest⟩ := h.top hstack
  have hout := h.queues.notMem hfree
  have hsame : ∀ {m i}, i ∈ q m →
      (s.tables.fillRequest cmd bh req).requests.request i = s.tables.requests.request i :=
    fun {m i} hi => s.tables.requests.setRequest_ne (fun hir : i = req => hout m (hir ▸ hi)) _
  have hnew : (s.tables.fillRequest cmd bh req).requests.request req =
      { dev := s.tables.cache.dev bh, cmd, sector := s.tables.cache.blocknr bh * 2 % 4294967296,
        bh := some bh, next := none } := s.tables.requests.setRequest_self ..
  refine h.after hrun (h.queues.setRequest hout _)
    (fun hi => (h.entry hi).congr (by rw [hsame hi]) fun b _ hb => ⟨hb, rfl⟩) ?_
    (fun u b _ _ => rfl) (fun u b _ hb => h.lock (x := .inl u) hb) fun {f l} hf => ?_
  · refine h.exclusive.mono fun x b hx => ?_
    cases x with
    | inr i =>
      obtain ⟨⟨m, hi⟩, hb⟩ := hx
      refine ⟨⟨m, hi⟩, ?_⟩
      rw [← hsame hi]
      exact hb
    | inl u =>
      by_cases hu : u = t
      · subst hu
        have hb : (s.after u rest (s.tables.fillRequest cmd bh req)
          (.go (.addRequest major req))).owner u = some b := hx
        rw [owner, after_stack] at hb
        change s.owner u = some b
        rw [owner, hstack]
        change ((s.tables.fillRequest cmd bh req).requests.request req).bh = some b at hb
        rw [hnew] at hb
        exact hb
      · exact h.holds_of_ne hrun hu hx
  · obtain ⟨rfl, rfl⟩ := List.cons.inj hf
    refine ⟨⟨rfl, ⟨hreq.trans_le (requestLimit_le cmd), ⟨bh, ?_, hlock, ?_, hmajor⟩, ?_⟩, ?_⟩,
      hrest⟩
    · exact congrArg Request.bh hnew
    · exact congrArg Request.dev hnew
    · intro hwrite
      obtain rfl : cmd = rwWrite := (congrArg Request.cmd hnew).symm.trans hwrite
      exact hreq
    · exact congrArg Request.next hnew

/-- A task puts its request into the queue. -/
theorem LockInv.addRequest (h : s.LockInv q) (hrun : s.MayRun t) {major req : ℕ}
    (hstack : s.stack t = .addRequest major req :: rest) {w : IoTables} {n : IoNext}
    (hadd : s.tables.addRequest major req = some w) (hn : n = .ret ∨ n = .go (.requestFn major)) :
    ∃ q', (s.after t rest w n).LockInv q' := by
  obtain ⟨⟨-, hentry, hnext⟩, hrest⟩ := h.top hstack
  obtain ⟨bh, hbh, hlock, hdev, hmajor⟩ := hentry.bh
  have howner : s.Holds q (.inl t) bh := by
    change s.owner t = some bh
    rw [owner, hstack]
    exact hbh
  have hout : ∀ m, req ∉ q m := by
    intro m hreq
    have hholds : s.Holds q (.inr req) bh := ⟨⟨m, hreq⟩, hbh⟩
    exact nomatch h.exclusive howner hholds
  obtain ⟨r, hr, rfl⟩ := Option.map_eq_some_iff.mp hadd
  obtain ⟨r', hr', hsame, -, hqueues⟩ := h.queues.addRequest hentry.bound
    (by rw [hdev]; exact Int.natCast_nonneg _) hnext hout
  obtain rfl : r' = r := Option.some.inj (hr'.symm.trans hr)
  rw [hbh]
  dsimp only
  have hmem : ∀ {m i}, i ∈ Function.update q major
      (sweepInsert s.tables.requests.inOrder req (q major)) m → i = req ∧ m = major ∨ i ∈ q m := by
    intro m i hi
    by_cases hm : m = major
    · subst hm
      rw [Function.update_self, (sweepInsert_perm ..).mem_iff, List.mem_cons] at hi
      exact hi.imp_left fun hi => ⟨hi, rfl⟩
    · rw [Function.update_of_ne hm] at hi
      exact Or.inr hi
  have hplain : ∀ {f l}, stackAfter rest n = f :: l → f.plain = true ∧
      ∀ g ∈ l, g.plain = true := by
    intro f l hf
    rcases hn with rfl | rfl
    · obtain rfl : rest = f :: l := hf
      exact ⟨hrest f List.mem_cons_self, fun g hg => hrest g (List.mem_cons_of_mem _ hg)⟩
    · obtain ⟨rfl, rfl⟩ := List.cons.inj hf
      exact ⟨rfl, hrest⟩
  refine ⟨_, h.after hrun hqueues (fun {m i} hi => ?_) ?_ (fun u b _ _ => rfl)
    (fun u b _ hb => h.lock (x := .inl u) hb)
    fun {f l} hf => ⟨frameOk_of_plain (hplain hf).1, (hplain hf).2⟩⟩
  · rcases hmem hi with ⟨rfl, rfl⟩ | hi
    · exact hentry.congr (hsame _) fun b _ hb => ⟨hb, rfl⟩
    · exact (h.entry hi).congr (hsame _) fun b _ hb => ⟨hb, rfl⟩
  · have hbuffer : ∀ i, (r'.request i).bh = (s.tables.requests.request i).bh := fun i => by
      rw [← hsame i]
    refine h.exclusive.move (o := .inl t) (p := .inr req) (fun b hb => ?_) fun x b hx => ?_
    · obtain ⟨f, hf, hb⟩ := Option.bind_eq_some_iff.mp hb
      obtain ⟨l, hl⟩ := List.head?_eq_some_iff.mp hf
      rw [after_stack] at hl
      exact nomatch (IoFrame.locked_of_plain (hplain hl).1 _).symm.trans hb
    · cases x with
      | inr i =>
        obtain ⟨⟨m, hi⟩, hb⟩ := hx
        have hb' : (s.tables.requests.request i).bh = some b := (hbuffer i).symm.trans hb
        rcases hmem hi with ⟨rfl, -⟩ | hi
        · obtain rfl := Option.some.inj (hbh.symm.trans hb')
          exact Or.inr ⟨rfl, howner⟩
        · exact Or.inl ⟨⟨m, hi⟩, hb'⟩
      | inl u =>
        by_cases hu : u = t
        · subst hu
          obtain ⟨f, hf, hb⟩ := Option.bind_eq_some_iff.mp hx
          obtain ⟨l, hl⟩ := List.head?_eq_some_iff.mp hf
          rw [after_stack] at hl
          exact nomatch (IoFrame.locked_of_plain (hplain hl).1 _).symm.trans hb
        · exact Or.inl (h.holds_of_ne hrun hu hx)

omit [DecidableEq τ] in
/-- The end of a request unlocks its buffer. -/
theorem LockInv.endRequest (h : s.LockInv q) {major : ℕ} {uptodate : Bool} {w : IoTables}
    (hend : s.tables.endRequest major uptodate = some w) :
    ∃ q', (s.withTables w).LockInv q' := by
  obtain ⟨i, hcur, hend⟩ := Option.bind_eq_some_iff.mp hend
  obtain ⟨r, hr, rfl⟩ := Option.map_eq_some_iff.mp hend
  obtain ⟨hqueues, i', hfront, hdev, hother, -⟩ := h.queues.endRequest hr
  obtain rfl : i = i' := by
    have hhead := (h.queues.linked major).head
    rw [hcur, hfront] at hhead
    exact Option.some.inj hhead
  have hi : i ∈ q major := by
    rw [hfront]
    exact List.mem_cons_self
  obtain ⟨bh, hbh, -⟩ := (h.entry hi).bh
  have hholds : s.Holds q (.inr i) bh := ⟨⟨major, hi⟩, hbh⟩
  rw [hbh]
  dsimp only
  have hlock : ∀ x b, x ≠ .inr i → s.Holds q x b →
      Function.update s.tables.cache.lock bh false b = true := by
    intro x b hx hb
    rw [Function.update_of_ne, h.lock hb]
    rintro rfl
    exact hx (h.exclusive hb hholds)
  have hsub : ∀ {m j}, j ∈ Function.update q major (q major).tail m → j ∈ q m ∧ j ≠ i := by
    intro m j hj
    by_cases hm : m = major
    · subst hm
      rw [Function.update_self] at hj
      have hnodup := h.queues.nodup m
      rw [hfront, List.nodup_cons] at hnodup
      exact ⟨List.mem_of_mem_tail hj, fun hji => hnodup.1 (hji ▸ hj)⟩
    · rw [Function.update_of_ne hm] at hj
      exact ⟨hj, fun hji => hm (h.queues.disjoint hj (hji ▸ hi))⟩
  have hreq : ∀ {u : τ} {m req : ℕ} {l : List IoFrame}, s.stack u = .addRequest m req :: l →
      req ≠ i := by
    rintro u m req l hstack rfl
    have howner : s.Holds q (.inl u) bh := by
      change s.owner u = some bh
      rw [owner, hstack]
      exact hbh
    exact nomatch h.exclusive howner hholds
  have howner : ∀ u, (s.withTables ((s.tables.withRequests r).finish bh uptodate)).owner u =
      s.owner u := by
    intro u
    change ((s.stack u).head?.bind fun f => f.locked r) =
      (s.stack u).head?.bind fun f => f.locked s.tables.requests
    cases hstack : s.stack u with
    | nil => rfl
    | cons f l =>
      cases f with
      | addRequest m req => exact congrArg Request.bh (hother req (hreq hstack))
      | _ => rfl
  refine ⟨_, hqueues, fun {m j} hj => ?_, ?_, fun {u f l} hstack => ?_⟩
  · obtain ⟨hj, hji⟩ := hsub hj
    refine (h.entry hj).congr (by rw [← hother j hji]; rfl) fun b hb _ => ⟨?_, rfl⟩
    exact hlock (.inr j) b (fun hx => hji (Sum.inr.inj hx)) ⟨⟨m, hj⟩, hb⟩
  · refine h.exclusive.mono fun x b hx => ?_
    cases x with
    | inl u => exact (howner u).symm.trans hx
    | inr j =>
      obtain ⟨⟨m, hj⟩, hb⟩ := hx
      obtain ⟨hj, hji⟩ := hsub hj
      exact ⟨⟨m, hj⟩, (congrArg Request.bh (hother j hji)).symm.trans hb⟩
  · have hstack : s.stack u = f :: l := hstack
    obtain ⟨hok, hrest⟩ := h.top hstack
    refine ⟨?_, hrest⟩
    have hsafe : ∀ b, s.Safe u b →
        (s.withTables ((s.tables.withRequests r).finish bh uptodate)).Safe u b := by
      intro b hb
      refine hb.imp_right fun hfree => ⟨hfree.1, ?_⟩
      change Function.update s.tables.cache.lock bh false b = false
      rw [Function.update_apply, hfree.2, ite_self]
    have hlocked : ∀ b, f.locked s.tables.requests = some b →
        Function.update s.tables.cache.lock bh false b = true := by
      intro b hb
      refine hlock (.inl u) b (fun hx => nomatch hx) ?_
      change s.owner u = some b
      rw [owner, hstack]
      exact hb
    cases f with
    | llRwBlock rw b => exact hsafe b hok
    | lockBuffer cmd ahead m b => exact ⟨hsafe b hok.1, hok.2⟩
    | testBuffer cmd ahead m b => exact ⟨hlocked b rfl, hok.2⟩
    | findRequest cmd ahead m b j => exact ⟨hlocked b rfl, hok.2⟩
    | fillRequest cmd m b req =>
      obtain ⟨-, hmajor, hrunning, hlimit, hfree⟩ := hok
      refine ⟨hlocked b rfl, hmajor, hrunning, hlimit, ?_⟩
      change (r.request req).dev < 0
      by_cases hri : req = i
      · rw [hri, hdev]
        decide
      · rw [hother req hri]
        exact hfree
    | addRequest m req =>
      obtain ⟨hrunning, hentry, hnext⟩ := hok
      have hri := hreq hstack
      refine ⟨hrunning, hentry.congr (by rw [← hother req hri]; rfl) fun b hb _ =>
        ⟨hlocked b hb, rfl⟩, ?_⟩
      change (r.request req).next = none
      rw [hother req hri]
      exact hnext
    | _ => trivial

/-- A step of the topmost call keeps the invariant. -/
theorem LockInv.exec (h : s.LockInv q) (hrun : s.MayRun t) (hstack : s.stack t = f :: rest)
    (hfree : ∀ bh, s.tables.cache.count bh = 0 → ∀ u, bh ∉ s.bufs u) {w : IoTables} {n : IoNext}
    (heffect : Effect s.tables f w n) : ∃ q', (s.after t rest w n).LockInv q' := by
  cases heffect with
  | quiet hlock hdev hrefs hquiet => exact ⟨q, h.quiet hrun hstack hlock hdev hquiet⟩
  | assign hlock hcount hassign =>
    exact ⟨q, h.assign hrun hstack hlock (hfree _ hcount) hassign⟩
  | lock cmd ahead hlock => exact ⟨q, h.lockBuffer hrun hstack hlock⟩
  | unlock hf =>
    obtain ⟨cmd, ahead, major, rfl | rfl⟩ := hf
    · exact ⟨q, h.unlockBuffer hrun hstack rfl⟩
    · exact ⟨q, h.unlockBuffer hrun hstack rfl⟩
  | fill cmd major bh req => exact ⟨q, h.fillRequest hrun hstack⟩
  | add hadd hn => exact h.addRequest hrun hstack hadd hn
  | finish hend =>
    obtain ⟨q', hq'⟩ := h.endRequest hend
    have hrest := (h.top hstack).2
    refine ⟨q', ?_⟩
    exact hq'.quiet (c := w.cache) hrun hstack rfl rfl (.go rfl rfl)

omit [DecidableEq τ] in
theorem LockInv.plain_of_caller (h : s.LockInv q) (hcaller : atCaller (s.stack t) = true) :
    ∀ g ∈ s.stack t, g.plain = true := by
  cases hstack : s.stack t with
  | nil => exact fun g hg => absurd hg List.not_mem_nil
  | cons g l =>
    rw [hstack] at hcaller
    cases g with
    | syncInodes dev => exact List.forall_mem_cons.mpr ⟨rfl, (h.top hstack).2⟩
    | _ => exact nomatch hcaller

/-- A call keeps the invariant. -/
theorem LockInv.enter (h : s.LockInv q) (hcalling : s.Calling t) {c : IoCall}
    (hbuf : ∀ b ∈ c.buf, b ∈ s.bufs t) : (s.enter t c).LockInv q := by
  obtain ⟨hrun, hcaller⟩ := hcalling
  have hplain := h.plain_of_caller hcaller
  have hstack : (s.enter t c).stack t = c.frame :: s.stack t := Function.update_self ..
  have honly : OnlyTask s (s.enter t c) t :=
    ⟨fun u hu => Function.update_of_ne hu .., fun u hu => Function.update_of_ne hu ..⟩
  refine h.task honly hrun h.queues (fun hi => h.entry hi) ?_ (fun _ _ _ _ => rfl)
    (fun u b _ hb => h.lock (x := .inl u) hb) fun {f l} hf => ?_
  · refine h.exclusive.mono fun x b hx => ?_
    cases x with
    | inr i => exact hx
    | inl u =>
      by_cases hu : u = t
      · subst hu
        have hb : (s.enter u c).owner u = some b := hx
        rw [owner, hstack] at hb
        cases c <;> exact nomatch hb
      · exact (h.owner_eq honly hu hrun).symm.trans hx
  · obtain ⟨rfl, rfl⟩ := List.cons.inj (hstack.symm.trans hf)
    refine ⟨?_, hplain⟩
    cases c with
    | llRwBlock rw bh =>
      have hbh : bh ∈ s.bufs t := hbuf bh rfl
      refine Or.inl ?_
      change bh ∈ Function.update s.bufs t ((s.bufs t).diff []) t
      rwa [Function.update_self, List.diff_nil]
    | _ => trivial

/-- A change of data and counters keeps the invariant. -/
theorem LockInv.store (h : s.LockInv q) (hcalling : s.Calling t) (c : Fs.Cache)
    (hlock : c.lock = s.tables.cache.lock) (hdev : c.dev = s.tables.cache.dev) (bufs : List ℕ) :
    (s.store t c bufs).LockInv q := by
  obtain ⟨hrun, hcaller⟩ := hcalling
  have hplain := h.plain_of_caller hcaller
  refine h.task ⟨fun u _ => rfl, fun u hu => Function.update_of_ne hu ..⟩
    hrun h.queues (fun hi => (h.entry hi).congr rfl fun bh _ hb => ?_) h.exclusive
    (fun u b _ _ => congrFun hdev b) (fun u b _ hb => ?_) fun {f l} hf => ?_
  · exact ⟨(congrFun hlock bh).trans hb, congrFun hdev bh⟩
  · exact (congrFun hlock b).trans (h.lock (x := .inl u) hb)
  · have hf : s.stack t = f :: l := hf
    rw [hf] at hplain
    exact ⟨frameOk_of_plain (hplain f List.mem_cons_self),
      fun g hg => hplain g (List.mem_cons_of_mem _ hg)⟩

/-- An event keeps the invariant. -/
theorem LockInv.next (h : s.LockInv q) (hfree : ∀ bh, s.tables.cache.count bh = 0 →
    ∀ u, bh ∉ s.bufs u) {s' : BlockIo τ} {e : IoEvent τ} (hs : s.next e = some s') :
    ∃ q', s'.LockInv q' := by
  cases e with
  | call t c =>
    simp only [BlockIo.next, Option.ite_none_right_eq_some, Option.some.injEq] at hs
    obtain ⟨⟨hcalling, hbuf⟩, rfl⟩ := hs
    exact ⟨q, h.enter hcalling hbuf⟩
  | exec t ended =>
    simp only [BlockIo.next, Option.ite_none_right_eq_some, execTop] at hs
    obtain ⟨hrun, hs⟩ := hs
    cases hstack : s.stack t with
    | nil =>
      rw [hstack] at hs
      exact nomatch hs
    | cons f rest =>
      rw [hstack] at hs
      obtain ⟨⟨w, n⟩, hexec, rfl⟩ := Option.map_eq_some_iff.mp hs
      exact h.exec hrun hstack hfree (IoFrame.exec_effect hexec)
  | interrupt major uptodate =>
    obtain ⟨w, hend, rfl⟩ := Option.map_eq_some_iff.mp hs
    exact h.endRequest hend
  | modify t bh =>
    simp only [BlockIo.next, Option.ite_none_right_eq_some, Option.some.injEq] at hs
    obtain ⟨⟨hcalling, -⟩, rfl⟩ := hs
    exact ⟨q, h.store hcalling ((s.tables.cache.setUptodate bh true).setDirt bh true) rfl rfl _⟩
  | drop t bh =>
    simp only [BlockIo.next, Option.ite_none_right_eq_some, Option.some.injEq] at hs
    obtain ⟨⟨hcalling, -⟩, rfl⟩ := hs
    exact ⟨q, h.store hcalling (s.tables.cache.decCount bh) rfl rfl _⟩

end Steps

end BlockIo

end LihaLinux.Block
