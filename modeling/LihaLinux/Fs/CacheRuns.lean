import LihaLinux.Fs.Frames
import LihaLinux.Lib.Counting
import LihaLinux.Lib.Transition
import Mathlib.Algebra.Order.BigOperators.Group.Finset

/-!
# The buffer cache in every run

In every run of the tasks, the free list is one ring of all buffers, the hash chains hold
the buffers in use by their blocks, no block has two buffers, and a buffer is given to
another block only when it is free, clean and unlocked. `b_count` is the number of
references to the buffer modulo 256; as long as there are fewer, `getblk` returns a buffer of
the block it was asked for, with a positive count.
-/

namespace LihaLinux.Fs

/-! ### One step and the queues -/

/-- A step leaves the queues alone, or it is the end of a `getblk`, with a buffer that is
unlocked, free and clean, for a block that is in no buffer. -/
theorem Frame.exec_queues {w w' : Tables} {ch : Choice} {f : Frame} {n : Next}
    (h : f.exec w ch = some (w', n)) :
    Cache.SameQueues w.cache w'.cache ∨
      ∃ dev block bh, f = .getblkWait dev block bh ∧ w.cache.lock bh = false ∧
        w.cache.count bh = 0 ∧ w.cache.dirt bh = false ∧ w.cache.findBuffer dev block = none ∧
        w.cache.assign dev block bh = some w'.cache ∧ n = .ret (some bh) := by
  replace h := Frame.exec_rule h
  cases h
  all_goals
    first
      | exact .inl ⟨rfl, rfl, rfl, rfl, rfl, rfl, rfl, rfl, rfl⟩
      | exact .inr ⟨_, _, _, rfl, by simp_all, by simp_all, by simp_all, by simp_all,
          by assumption, rfl⟩

/-- The buffers that `get_hash_table` has found and `getblk` has chosen are buffers. -/
def Frame.Chosen (nrBuffers : ℕ) : Frame → Prop
  | .hashWait _ _ bh | .getblkWait _ _ bh => bh < nrBuffers
  | _ => True

/-- A resumed call has chosen what it had chosen. -/
theorem Frame.Chosen.resume {nrBuffers : ℕ} {f : Frame} (v : Option ℕ) (h : f.Chosen nrBuffers) :
    (f.resume v).Chosen nrBuffers := by
  unfold Frame.resume
  split
  all_goals try split
  all_goals exact h

/-- A step chooses buffers only. -/
theorem Frame.exec_chosen {w w' : Tables} {ch : Choice} {f : Frame} {n : Next}
    {free : List ℕ} {chain : ℕ → List ℕ} (h : f.exec w ch = some (w', n))
    (hwf : w.cache.Wf free chain) (hf : f.Chosen w.cache.nrBuffers) :
    ∀ g ∈ n.frames, g.Chosen w.cache.nrBuffers := by
  replace h := Frame.exec_rule h
  cases h
  all_goals
    simp only [Next.frames, List.forall_mem_cons, List.not_mem_nil, false_imp_iff, implies_true,
      and_true, Frame.Chosen]
  · exact (hwf.findBuffer_some (by assumption)).1
  · exact hwf.chooseFree_lt (by assumption)
  · exact ⟨trivial, hf⟩

/-- A step keeps the representation and the number of buffers. -/
theorem Frame.exec_wf {w w' : Tables} {ch : Choice} {f : Frame} {n : Next} {free : List ℕ}
    {chain : ℕ → List ℕ} (h : f.exec w ch = some (w', n)) (hwf : w.cache.Wf free chain)
    (hf : f.Chosen w.cache.nrBuffers) :
    (∃ free chain, w'.cache.Wf free chain) ∧ w'.cache.nrBuffers = w.cache.nrBuffers := by
  rcases Frame.exec_queues h with hq | ⟨dev, block, bh, rfl, -, -, -, hfind, hassign, -⟩
  · exact ⟨⟨free, chain, hwf.of_sameQueues hq⟩, hq.nrBuffers⟩
  · obtain ⟨c, hc, hassigned, hwf'⟩ := hwf.assign hf hfind
    rw [hassign, Option.some.injEq] at hc
    rw [hc]
    exact ⟨⟨_, _, hwf'⟩, hassigned.nrBuffers⟩

/-- A step keeps `b_count` an eight-bit counter. -/
theorem Frame.exec_count_lt {w w' : Tables} {ch : Choice} {f : Frame} {n : Next}
    (h : f.exec w ch = some (w', n)) (hw : ∀ b, w.cache.count b < 256) (b : ℕ) :
    w'.cache.count b < 256 := by
  have hb := hw b
  replace h := Frame.exec_rule h
  cases h
  all_goals
    try simp only [Tables.withCache, Tables.setInode, Cache.incCount_count, Cache.decCount_count,
      Cache.setDirt, Cache.setLock, Cache.setUptodate]
  all_goals
    try rw [Cache.assign_count (by assumption), Function.update_apply]
    try split_ifs
  all_goals omega

/-- `getblk` calls `get_hash_table` for its own block. -/
def SameBlock (f g : Frame) : Prop := ∀ dev block, g = .getblkHash dev block →
  f = .hashFind dev block ∨ ∃ bh, f = .hashWait dev block bh

/-- A step keeps the blocks of the calls and their callers together. -/
theorem Frame.exec_sameBlock {w w' : Tables} {ch : Choice} {f : Frame} {n : Next}
    {rest : List Frame} (h : f.exec w ch = some (w', n)) (hs : List.IsChain SameBlock (f :: rest)) :
    List.IsChain SameBlock (FsSystem.stackAfter rest n) := by
  apply isChain_stackAfter _ _ _ hs
  · intro g v g' hg dev block hg'
    rcases hg dev block hg' with rfl | ⟨bh, rfl⟩
    · exact .inl rfl
    · exact .inr ⟨bh, rfl⟩
  · intro f' hf' g hg dev block hg'
    rcases hg dev block hg' with rfl | ⟨bh, rfl⟩
    · cases Frame.exec_rule h <;> cases hf'
      exact .inr ⟨_, rfl⟩
    · cases Frame.exec_rule h <;> cases hf'
      exact .inl rfl
  · rintro f' callee rfl dev block rfl
    cases Frame.exec_rule h
    exact .inl rfl

/-! ### One event -/

namespace FsSystem

variable {τ : Type*}

/-- The calls that a task can make are stacked in order. -/
theorem stacked_frames (c : FsCall) : Stacked c.frames := by
  cases c <;> simp [FsCall.frames, Stacked, Frame.isUser, Frame.awaits, Frame.kind]

/-- The buffer references of a task, between and in its calls. -/
def taskBufs (s : FsSystem τ) (t : τ) : List ℕ := s.bufs t ++ stackBufs (s.stack t)

/-- What an event other than a step of a call leaves alone. -/
structure OutsideCache (s s' : FsSystem τ) : Prop where
  queues : Cache.SameQueues s.tables.cache s'.tables.cache
  count : s'.tables.cache.count = s.tables.cache.count
  leaked : s'.tables.leaked = s.tables.leaked
  refs : ∀ t b, (s'.taskBufs t).count b = (s.taskBufs t).count b
  stack : ∀ t, s'.stack t = s.stack t ∨ s'.stack t = [] ∨ ∃ c : FsCall, s'.stack t = c.frames

/-- Events outside the stacks. -/
theorem OutsideCache.of_eq {s s' : FsSystem τ}
    (queues : Cache.SameQueues s.tables.cache s'.tables.cache)
    (count : s'.tables.cache.count = s.tables.cache.count)
    (leaked : s'.tables.leaked = s.tables.leaked) (bufs : s'.bufs = s.bufs)
    (stack : s'.stack = s.stack) : OutsideCache s s' :=
  ⟨queues, count, leaked, by simp [taskBufs, bufs, stack], by simp [stack]⟩

/-- Nothing of the queues has changed. -/
theorem sameQueues_refl (c : Cache) : Cache.SameQueues c c := by
  constructor <;> rfl

section

variable [DecidableEq τ]

/-- A step of a call. -/
theorem next_exec {s s' : FsSystem τ} {t : τ} {ch : Choice} (h : s.next (.exec t ch) = some s') :
    ∃ f rest w n, s.stack t = f :: rest ∧ f.exec s.tables ch = some (w, n) ∧
      s' = (s.withTables w).setStack t (stackAfter rest n) := by
  simp only [next, execTop] at h
  split at h
  · cases h
  · rename_i f rest hstack
    obtain ⟨⟨w, n⟩, hexec, rfl⟩ := Option.map_eq_some_iff.mp h
    exact ⟨f, rest, w, n, hstack, hexec, rfl⟩

/-- An event is a step of a call, or it leaves the queues and the counters alone. -/
theorem next_cases {s s' : FsSystem τ} {e : FsEvent τ} (h : s.next e = some s') :
    (∃ t ch f rest w n, e = .exec t ch ∧ s.stack t = f :: rest ∧
      f.exec s.tables ch = some (w, n) ∧
      s' = (s.withTables w).setStack t (stackAfter rest n)) ∨ OutsideCache s s' := by
  cases e with
  | call t c =>
    simp only [next, Option.ite_none_right_eq_some, Option.some.injEq] at h
    obtain ⟨⟨hstack, hbuf, -⟩, rfl⟩ := h
    right
    refine ⟨sameQueues_refl _, rfl, rfl, ?_, ?_⟩
    · intro u b
      by_cases hu : u = t
      · subst u
        simp only [taskBufs, setInodes, setBufs, setStack, Function.update_self, hstack]
        cases c <;> simp [FsCall.buf, FsCall.frames, stackBufs, Frame.bufs] at hbuf ⊢
        rename_i bh
        rw [List.count_erase]
        have := List.count_pos_iff.mpr hbuf
        grind
      · simp only [taskBufs, setInodes, setBufs, setStack, Function.update_of_ne hu]
    · intro u
      by_cases hu : u = t
      · subst u
        right; right
        exact ⟨c, by simp [setInodes, setBufs, setStack]⟩
      · left
        simp only [setInodes, setBufs, setStack, Function.update_of_ne hu]
  | exec t ch =>
    obtain ⟨f, rest, w, n, hstack, hexec, rfl⟩ := next_exec h
    exact .inl ⟨t, ch, f, rest, w, n, rfl, hstack, hexec, rfl⟩
  | take t =>
    right
    simp only [next] at h
    split at h
    · rename_i v hstack
      cases h
      refine ⟨sameQueues_refl _, rfl, rfl, ?_, ?_⟩
      · intro u b
        by_cases hu : u = t
        · subst u
          simp [taskBufs, setBufs, setStack, hstack, stackBufs, Frame.bufs, Nat.add_comm]
        · simp only [taskBufs, setBufs, setStack, Function.update_of_ne hu]
      · intro u
        by_cases hu : u = t
        · subst u
          simp [setBufs, setStack]
        · simp [setBufs, setStack, Function.update_of_ne hu]
    · rename_i v hstack
      cases h
      refine ⟨sameQueues_refl _, rfl, rfl, ?_, ?_⟩
      · intro u b
        by_cases hu : u = t
        · subst u
          simp [taskBufs, setInodes, setStack, hstack, stackBufs, Frame.bufs]
        · simp only [taskBufs, setInodes, setStack, Function.update_of_ne hu]
      · intro u
        by_cases hu : u = t
        · subst u
          simp [setInodes, setStack]
        · simp [setInodes, setStack, Function.update_of_ne hu]
    · cases h
  | interrupt bh uptodate =>
    simp only [next, Option.ite_none_right_eq_some, Option.some.injEq] at h
    obtain ⟨-, rfl⟩ := h
    exact .inr (.of_eq (by constructor <;> rfl) rfl rfl rfl rfl)
  | modify t bh =>
    simp only [next, Option.ite_none_right_eq_some, Option.some.injEq] at h
    obtain ⟨-, rfl⟩ := h
    exact .inr (.of_eq (by constructor <;> rfl) rfl rfl rfl rfl)
  | modifyInode t i d =>
    simp only [next, Option.ite_none_right_eq_some, Option.some.injEq] at h
    obtain ⟨-, rfl⟩ := h
    exact .inr (.of_eq (sameQueues_refl _) rfl rfl rfl rfl)
  | readSuper k dev imapBlocks zmapBlocks =>
    simp only [next, Option.ite_none_right_eq_some, Option.some.injEq] at h
    obtain ⟨-, rfl⟩ := h
    exact .inr (.of_eq (sameQueues_refl _) rfl rfl rfl rfl)
  | mount t i k =>
    simp only [next, Option.ite_none_right_eq_some, Option.some.injEq] at h
    obtain ⟨-, rfl⟩ := h
    exact .inr (.of_eq (sameQueues_refl _) rfl rfl rfl rfl)
  | pipe t i =>
    simp only [next, Option.ite_none_right_eq_some, Option.some.injEq] at h
    obtain ⟨-, rfl⟩ := h
    exact .inr (.of_eq (sameQueues_refl _) rfl rfl rfl rfl)

end

/-! ### Every run -/

/-- The system after `buffer_init`, with unused tables. -/
def boot (τ : Type*) (nrBuffers : ℕ) (blocknr : ℕ → ℕ) : FsSystem τ where
  tables :=
    { cache := Cache.init nrBuffers blocknr
      inode := fun _ => .zero
      lastInode := 0
      super := fun _ => { dev := 0, imapBlocks := 0, zmapBlocks := 0, imount := none }
      leaked := [] }
  stack _ := []
  bufs _ := []
  inodes _ := []

/-- The states the system can start in. -/
def Boot (s : FsSystem τ) : Prop :=
  ∃ nrBuffers blocknr, 0 < nrBuffers ∧ s = boot τ nrBuffers blocknr

variable [Fintype τ]

/-- The references to a buffer. -/
def bufRefs (s : FsSystem τ) (b : ℕ) : ℕ :=
  ∑ t, (s.taskBufs t).count b + s.tables.leaked.count b

/-- What holds of the cache and of the calls in every run. -/
structure CacheInv (s : FsSystem τ) : Prop where
  wf : ∃ free chain, s.tables.cache.Wf free chain
  stacked : ∀ t, Stacked (s.stack t)
  sameBlock : ∀ t, List.IsChain SameBlock (s.stack t)
  chosen : ∀ t, ∀ f ∈ s.stack t, f.Chosen s.tables.cache.nrBuffers
  count : ∀ b, s.tables.cache.count b % 256 = s.bufRefs b % 256
  count_lt : ∀ b, s.tables.cache.count b < 256

/-- The invariant holds at the start. -/
theorem cacheInv_boot {s : FsSystem τ} (h : s.Boot) : s.CacheInv := by
  obtain ⟨n, blocknr, hn, rfl⟩ := h
  constructor
  · exact ⟨_, _, Cache.wf_init hn blocknr⟩
  · simp [boot, Stacked]
  · simp [boot]
  · simp [boot]
  · simp [boot, bufRefs, taskBufs, stackBufs, Cache.init]
  · simp [boot, Cache.init]

/-- Events outside the cache keep the invariant. -/
theorem CacheInv.outside {s s' : FsSystem τ} (hi : s.CacheInv) (h : OutsideCache s s') :
    s'.CacheInv := by
  constructor
  · obtain ⟨free, chain, hwf⟩ := hi.wf
    exact ⟨free, chain, hwf.of_sameQueues h.queues⟩
  · intro t
    rcases h.stack t with hstack | hstack | ⟨c, hstack⟩ <;> rw [hstack]
    · exact hi.stacked t
    · trivial
    · exact stacked_frames c
  · intro t
    rcases h.stack t with hstack | hstack | ⟨c, hstack⟩ <;> rw [hstack]
    · exact hi.sameBlock t
    · exact .nil
    · cases c <;> simp [FsCall.frames, SameBlock]
  · intro t f hf
    rw [h.queues.nrBuffers]
    rcases h.stack t with hstack | hstack | ⟨c, hstack⟩ <;> rw [hstack] at hf
    · exact hi.chosen t f hf
    · cases hf
    · cases c <;> simp [FsCall.frames] at hf <;> rcases hf with rfl | rfl <;> trivial
  · intro b
    have hrefs : s'.bufRefs b = s.bufRefs b := by
      simp only [bufRefs, h.leaked, h.refs]
    rw [h.count, hrefs]
    exact hi.count b
  · rw [h.count]
    exact hi.count_lt

/-- A buffer with a reference is counted. -/
theorem CacheInv.count_pos {s : FsSystem τ} (hi : s.CacheInv) {b : ℕ} (hb : s.bufRefs b ≤ 255)
    {t : τ} (ht : b ∈ s.taskBufs t) : 1 ≤ s.tables.cache.count b := by
  have hle : (s.taskBufs t).count b ≤ ∑ u, (s.taskBufs u).count b :=
    Finset.single_le_sum (f := fun u => (s.taskBufs u).count b) (fun _ _ => Nat.zero_le _)
      (Finset.mem_univ t)
  have hpos := List.count_pos_iff.mpr ht
  have hcount := hi.count b
  have hlt := hi.count_lt b
  unfold bufRefs at hcount hb
  omega

variable [DecidableEq τ]

/-- A step of a call keeps the invariant. -/
theorem CacheInv.exec {s : FsSystem τ} (hi : s.CacheInv) {t : τ} {ch : Choice} {f : Frame}
    {rest : List Frame} {w : Tables} {n : Next} (hstack : s.stack t = f :: rest)
    (hexec : f.exec s.tables ch = some (w, n)) :
    ((s.withTables w).setStack t (stackAfter rest n)).CacheInv := by
  obtain ⟨free, chain, hwf⟩ := hi.wf
  have hstacked := hi.stacked t
  have hsame := hi.sameBlock t
  have hchosen := hi.chosen t
  rw [hstack] at hstacked hsame hchosen
  rw [List.forall_mem_cons] at hchosen
  have hwf' := Frame.exec_wf hexec hwf hchosen.1
  constructor
  · exact hwf'.1
  · intro u
    by_cases hu : u = t
    · subst u
      simpa only [setStack, Function.update_self] using Frame.exec_stacked hexec hstacked
    · simpa only [setStack, withTables, Function.update_of_ne hu] using hi.stacked u
  · intro u
    by_cases hu : u = t
    · subst u
      simpa only [setStack, Function.update_self] using Frame.exec_sameBlock hexec hsame
    · simpa only [setStack, withTables, Function.update_of_ne hu] using hi.sameBlock u
  · intro u
    simp only [setStack, withTables]
    rw [hwf'.2]
    by_cases hu : u = t
    · subst u
      rw [Function.update_self]
      exact forall_mem_stackAfter (fun g v hg => hg.resume v)
        (Frame.exec_chosen hexec hwf hchosen.1) hchosen.2
    · rw [Function.update_of_ne hu]
      exact hi.chosen u
  · intro b
    have hcount := hi.count b
    have hstep := Frame.exec_stackBufs hexec hstacked b
    have hsum := sum_update_add (f := fun u => (s.taskBufs u).count b)
      (g := fun u => (((s.withTables w).setStack t (stackAfter rest n)).taskBufs u).count b) t
      (by
        intro u hu
        simp only [taskBufs, setStack, withTables, Function.update_of_ne hu])
    simp only [bufRefs] at hcount ⊢
    simp only [taskBufs, setStack, withTables, Function.update_self, hstack,
      List.count_append] at hcount hsum ⊢
    omega
  · exact Frame.exec_count_lt hexec hi.count_lt

/-- The invariant holds in every run. -/
theorem cacheInv_reachable {s : FsSystem τ} (h : Reachable Boot Step s) : s.CacheInv := by
  apply h.invariant (fun s hs => cacheInv_boot hs)
  rintro s s' hi ⟨e, he⟩
  rcases next_cases he with ⟨t, ch, f, rest, w, n, -, hstack, hexec, rfl⟩ | hout
  · exact hi.exec hstack hexec
  · exact hi.outside hout

/-- A buffer is given to another block only while it is free, clean and unlocked. -/
theorem CacheInv.reassign {s s' : FsSystem τ} (hi : s.CacheInv) (h : Step s s') {b : ℕ}
    (hb : s'.tables.cache.dev b ≠ s.tables.cache.dev b ∨
      s'.tables.cache.blocknr b ≠ s.tables.cache.blocknr b) :
    s.tables.cache.count b = 0 ∧ s.tables.cache.dirt b = false ∧
      s.tables.cache.lock b = false := by
  obtain ⟨e, he⟩ := h
  rcases next_cases he with ⟨t, ch, f, rest, w, n, -, hstack, hexec, rfl⟩ | hout
  · rcases Frame.exec_queues hexec with
      hq | ⟨dev, block, bh, rfl, hlock, hcount, hdirt, hfind, hassign, -⟩
    · simp only [setStack, withTables, hq.dev, hq.blocknr] at hb
      simp at hb
    · obtain ⟨free, chain, hwf⟩ := hi.wf
      have hbh := hi.chosen t (.getblkWait dev block bh) (by simp [hstack])
      obtain ⟨c, hc, hassigned, -⟩ := hwf.assign hbh hfind
      rw [hassign, Option.some.injEq] at hc
      simp only [setStack, withTables, hc, hassigned.dev, hassigned.blocknr] at hb
      have : b = bh := by
        by_contra hne
        simp [Function.update_of_ne hne] at hb
      subst b
      exact ⟨hcount, hdirt, hlock⟩
  · rw [hout.queues.dev, hout.queues.blocknr] at hb
    simp at hb

/-- The number of buffers does not change. -/
theorem CacheInv.step_nrBuffers {s s' : FsSystem τ} (hi : s.CacheInv) (h : Step s s') :
    s'.tables.cache.nrBuffers = s.tables.cache.nrBuffers := by
  obtain ⟨e, he⟩ := h
  rcases next_cases he with ⟨t, ch, f, rest, w, n, -, hstack, hexec, rfl⟩ | hout
  · obtain ⟨free, chain, hwf⟩ := hi.wf
    exact (Frame.exec_wf hexec hwf (hi.chosen t f (by simp [hstack]))).2
  · exact hout.queues.nrBuffers

/-! ### Runs with fewer than 256 references -/

/-- A step after which no buffer has more references than `b_count` can count. -/
def BoundedStep (s s' : FsSystem τ) : Prop := Step s s' ∧ ∀ b, s'.bufRefs b ≤ 255

end FsSystem

/-- `get_hash_table` has found a buffer of the block. -/
def Frame.Found (c : Cache) : Frame → Prop
  | .getblkGot dev block (some bh) =>
    bh < c.nrBuffers ∧ c.dev bh = dev ∧ c.blocknr bh = block
  | _ => True

/-- What has been found stays the buffer of the block, unless it is given to another one. -/
theorem Frame.Found.mono {c c' : Cache} {f : Frame} (h : f.Found c)
    (hnr : c'.nrBuffers = c.nrBuffers)
    (hsame : ∀ b ∈ f.bufs, c'.dev b = c.dev b ∧ c'.blocknr b = c.blocknr b) : f.Found c' := by
  unfold Frame.Found at h ⊢
  split
  · rename_i dev block bh
    simp only [Frame.bufs, Option.toList_some, List.mem_singleton, forall_eq] at h hsame
    rw [hnr, hsame.1, hsame.2]
    exact h
  · trivial

/-- A step finds buffers of the block only. -/
theorem Frame.exec_found {w w' : Tables} {ch : Choice} {f : Frame} {n : Next}
    {rest : List Frame} (h : f.exec w ch = some (w', n))
    (hsame : List.IsChain SameBlock (f :: rest)) (hchosen : f.Chosen w.cache.nrBuffers)
    (hrest : ∀ g ∈ rest, g.Found w'.cache) :
    ∀ g ∈ FsSystem.stackAfter rest n, g.Found w'.cache := by
  have hnew : ∀ g ∈ n.frames, g.Found w'.cache := by
    replace h := Frame.exec_rule h
    cases h
    all_goals
      simp [Next.frames, Frame.Found]
  intro g hg
  rcases mem_stackAfter hg with hg | hg | ⟨g₀, rest', v, rfl, rfl, rfl⟩
  · exact hnew g hg
  · exact hrest g hg
  · by_cases hg₀ : ∃ dev block, g₀ = .getblkHash dev block
    · obtain ⟨dev, block, rfl⟩ := hg₀
      rcases (List.isChain_cons_cons.mp hsame).1 dev block rfl with rfl | ⟨bh, rfl⟩
      · cases Frame.exec_rule h
        trivial
      · cases Frame.exec_rule h with
        | hashSame hlock hdev hblock => exact ⟨hchosen, hdev, hblock⟩
    · have hfound := hrest g₀ List.mem_cons_self
      unfold Frame.resume
      split
      · exact absurd ⟨_, _, rfl⟩ hg₀
      all_goals try split
      all_goals trivial

namespace FsSystem

variable {τ : Type*} [Fintype τ] [DecidableEq τ]

/-- A buffer with a reference stays with its block. -/
theorem CacheInv.found_step {s s' : FsSystem τ} (hi : s.CacheInv) (hrefs : ∀ b, s.bufRefs b ≤ 255)
    (h : Step s s') {t : τ} {f : Frame} (hf : f ∈ s.stack t) (hfound : f.Found s.tables.cache) :
    f.Found s'.tables.cache := by
  apply hfound.mono (hi.step_nrBuffers h)
  intro b hb
  have hmem : b ∈ s.taskBufs t := by
    simp only [taskBufs, stackBufs, List.mem_append, List.mem_flatMap]
    exact .inr ⟨f, hf, hb⟩
  have hpos := hi.count_pos (hrefs b) hmem
  by_contra hne
  have hzero := (hi.reassign h (not_and_or.mp hne)).1
  omega

/-- In runs with fewer than 256 references to a buffer, what `get_hash_table` has found for
`getblk` stays the buffer of the block. -/
theorem found_reachable {s : FsSystem τ} (h : Reachable Boot BoundedStep s) :
    s.CacheInv ∧ (∀ b, s.bufRefs b ≤ 255) ∧ ∀ t, ∀ f ∈ s.stack t, f.Found s.tables.cache := by
  refine h.invariant (P := fun s => s.CacheInv ∧ (∀ b, s.bufRefs b ≤ 255) ∧
    ∀ t, ∀ f ∈ s.stack t, f.Found s.tables.cache) ?_ ?_
  · intro s hs
    refine ⟨cacheInv_boot hs, ?_, ?_⟩
    · obtain ⟨n, blocknr, -, rfl⟩ := hs
      simp [boot, bufRefs, taskBufs, stackBufs]
    · obtain ⟨n, blocknr, -, rfl⟩ := hs
      simp [boot]
  · rintro s s' ⟨hi, hrefs, hfound⟩ ⟨⟨e, he⟩, hrefs'⟩
    have hold : ∀ u, ∀ g ∈ s.stack u, g.Found s'.tables.cache := fun u g hg =>
      hi.found_step hrefs ⟨e, he⟩ hg (hfound u g hg)
    rcases next_cases he with ⟨t, ch, f, rest, w, n, -, hstack, hexec, rfl⟩ | hout
    · refine ⟨hi.exec hstack hexec, hrefs', ?_⟩
      intro u g hg
      by_cases hu : u = t
      · subst u
        simp only [setStack, Function.update_self] at hg
        have hchosen := hi.chosen t f (by simp [hstack])
        have hsame := hi.sameBlock t
        have hrest := hold t
        rw [hstack] at hsame hrest
        exact Frame.exec_found hexec hsame hchosen (List.forall_mem_cons.mp hrest).2 g hg
      · simp only [setStack, Function.update_of_ne hu] at hg
        exact hold u g hg
    · refine ⟨hi.outside hout, hrefs', ?_⟩
      intro t f hf
      rcases hout.stack t with hstack | hstack | ⟨c, hstack⟩ <;> rw [hstack] at hf
      · exact hold t f hf
      · cases hf
      · cases c <;> simp [FsCall.frames] at hf <;> rcases hf with rfl | rfl <;> trivial

end FsSystem

/-- The block that a call of `getblk` is about. -/
def Frame.getblkArgs : Frame → Option (ℕ × ℕ)
  | .getblk dev block | .getblkHash dev block | .getblkGot dev block _
  | .getblkWait dev block _ => some (dev, block)
  | _ => none

/-- A call of `getblk` for a block goes on for this block, or returns a buffer of this block
with a positive count. -/
def GetblkNext (w : Tables) (dev block : ℕ) : Next → Prop
  | .go f | .call f _ => f.getblkArgs = some (dev, block)
  | .ret v => ∃ bh, v = some bh ∧ bh < w.cache.nrBuffers ∧ w.cache.dev bh = dev ∧
      w.cache.blocknr bh = block ∧ 1 ≤ w.cache.count bh

namespace FsSystem

variable {τ : Type*}

/-- The next step of every call of `getblk` is one for its block. -/
def GetblkReturns (s : FsSystem τ) : Prop :=
  ∀ t f rest ch w n dev block, s.stack t = f :: rest → f.exec s.tables ch = some (w, n) →
    f.getblkArgs = some (dev, block) → GetblkNext w dev block n

variable [Fintype τ]

/-- With fewer than 256 references, `getblk` returns a buffer of its block. -/
theorem CacheInv.getblkReturns {s : FsSystem τ} (hi : s.CacheInv)
    (hrefs : ∀ b, s.bufRefs b ≤ 255) (hfound : ∀ t, ∀ f ∈ s.stack t, f.Found s.tables.cache) :
    s.GetblkReturns := by
  intro t f rest ch w n dev block hstack hexec hargs
  cases f <;> simp only [Frame.getblkArgs, reduceCtorEq, Option.some.injEq, Prod.mk.injEq] at hargs
  case getblk =>
    obtain ⟨rfl, rfl⟩ := hargs
    cases hexec
    rfl
  case getblkHash => cases hexec
  case getblkGot found =>
    obtain ⟨rfl, rfl⟩ := hargs
    cases found with
    | none =>
      simp only [Frame.exec] at hexec
      split at hexec <;> cases hexec <;> rfl
    | some bh =>
      cases hexec
      obtain ⟨hlt, hdev, hblock⟩ := hfound t _ (by rw [hstack]; exact List.mem_cons_self)
      have hmem : bh ∈ s.taskBufs t := by
        simp [taskBufs, stackBufs, hstack, Frame.bufs]
      exact ⟨bh, rfl, hlt, hdev, hblock, hi.count_pos (hrefs bh) hmem⟩
  case getblkWait bh =>
    obtain ⟨rfl, rfl⟩ := hargs
    simp only [Frame.exec] at hexec
    split_ifs at hexec with hlock hcount hdirt hfind
    · cases hexec
      rfl
    · cases hexec
      rfl
    · cases hexec
      rfl
    · rw [Bool.not_eq_true, Option.isSome_eq_false_iff, Option.isNone_iff_eq_none] at hfind
      obtain ⟨free, chain, hwf⟩ := hi.wf
      have hbh := hi.chosen t _ (by rw [hstack]; exact List.mem_cons_self)
      obtain ⟨c, hassign, hassigned, -⟩ := hwf.assign hbh hfind
      rw [hassign] at hexec
      cases hexec
      refine ⟨bh, rfl, ?_, ?_, ?_, ?_⟩
      · rw [Tables.withCache, hassigned.nrBuffers]
        exact hbh
      · rw [Tables.withCache, hassigned.dev, Function.update_self]
      · rw [Tables.withCache, hassigned.blocknr, Function.update_self]
      · rw [Tables.withCache, hassigned.count, Function.update_self]

variable [DecidableEq τ]

/-- In every run of any number of tasks the cache represents a free list of all buffers and
hash chains of the buffers in use, without two buffers for one block, and a buffer changes its
block only while it is free, clean and unlocked. In every run with at most 255 references to
one buffer, `getblk` returns a buffer of the block it is called for, with a positive count. -/
theorem cache_runs {s : FsSystem τ} (h : Reachable Boot Step s) :
    (∃ free chain, s.tables.cache.Wf free chain) ∧
    (∀ s', Step s s' → ∀ b, (s'.tables.cache.dev b ≠ s.tables.cache.dev b ∨
        s'.tables.cache.blocknr b ≠ s.tables.cache.blocknr b) →
      s.tables.cache.count b = 0 ∧ s.tables.cache.dirt b = false ∧
        s.tables.cache.lock b = false) ∧
    (Reachable Boot BoundedStep s → s.GetblkReturns) := by
  have hi := cacheInv_reachable h
  refine ⟨hi.wf, fun s' hstep b hb => hi.reassign hstep hb, ?_⟩
  intro hbounded
  obtain ⟨hi, hrefs, hfound⟩ := found_reachable hbounded
  exact hi.getblkReturns hrefs hfound

/-- The events of a run with at most 255 references in all. -/
def boundedNext (s : FsSystem τ) (e : FsEvent τ) : Option (FsSystem τ) :=
  (s.next e).filter fun s' => ∑ t, (s'.taskBufs t).length + s'.tables.leaked.length ≤ 255

/-- Few references in all are few to each buffer. -/
theorem BoundedStep.of_boundedNext {s s' : FsSystem τ} {e : FsEvent τ}
    (h : s.boundedNext e = some s') : BoundedStep s s' := by
  obtain ⟨hnext, hle⟩ := Option.filter_eq_some_iff.mp h
  simp only [decide_eq_true_eq] at hle
  refine ⟨⟨e, hnext⟩, ?_⟩
  intro b
  have hsum : ∑ t, (s'.taskBufs t).count b ≤ ∑ t, (s'.taskBufs t).length :=
    Finset.sum_le_sum fun t _ => List.count_le_length
  have hleaked : s'.tables.leaked.count b ≤ s'.tables.leaked.length := List.count_le_length
  unfold bufRefs
  omega

end FsSystem

namespace FsSystem

/-- Some outside data. -/
def choice : Choice := { device := true, data := ⟨0, 0, 0⟩, trunc := .finish }

/-- The theorem at the second `getblk` of a block, which is about to return the buffer. -/
theorem cache_runs_sample : ∃ s : FsSystem Unit,
    s.stack () = [.getblkGot 1 0 (some 0), .userBuffer] ∧
    (∃ free chain, s.tables.cache.Wf free chain) ∧ s.GetblkReturns := by
  have hrun : (runEvents boundedNext (boot Unit 2 fun _ => 0) [.call () (.getblk 1 0),
      .exec () choice, .exec () choice, .exec () choice, .exec () choice, .take (),
      .call () (.getblk 1 0), .exec () choice, .exec () choice, .exec () choice]).any (fun s =>
        decide (s.stack () = [.getblkGot 1 0 (some 0), .userBuffer])) = true := by
    decide +kernel
  have hboot : Reachable Boot BoundedStep (boot Unit 2 fun _ => 0) :=
    .of_init ⟨2, _, by omega, rfl⟩
  obtain ⟨s, hs, -, hP⟩ := hboot.exists_runEvents (fun _ _ _ he => .of_boundedNext he) hrun
  have hreach : Reachable Boot Step s := hs.mono fun _ _ hstep => hstep.1
  obtain ⟨hwf, -, hret⟩ := cache_runs hreach
  exact ⟨s, of_decide_eq_true hP, hwf, hret hs⟩

end FsSystem

/-! ### 256 references -/

namespace FsSystem

/-- A step of a call continues a run. -/
theorem reachable_exec {τ : Type*} [DecidableEq τ] {init : FsSystem τ → Prop} {s : FsSystem τ}
    (h : Reachable init Step s) (t : τ) (ch : Choice) {f : Frame} {rest : List Frame} {w : Tables}
    {n : Next} (hstack : s.stack t = f :: rest) (hexec : f.exec s.tables ch = some (w, n)) :
    Reachable init Step ((s.withTables w).setStack t (stackAfter rest n)) := by
  apply h.tail
  refine ⟨.exec t ch, ?_⟩
  simp only [next, execTop, hstack, hexec, Option.map_some]

/-- A task outside any call asks for a block that is in an unlocked buffer. -/
theorem getblk_cached {s : FsSystem Unit} {dev block bh : ℕ} (h : Reachable Boot Step s)
    (hstack : s.stack () = []) (hfind : s.tables.cache.findBuffer dev block = some bh)
    (hlock : s.tables.cache.lock bh = false) (hdev : s.tables.cache.dev bh = dev)
    (hblock : s.tables.cache.blocknr bh = block) :
    ∃ s', Reachable Boot Step s' ∧
      s'.stack () = [.getblkGot dev block (some bh), .userBuffer] ∧
      s'.tables = s.tables.withCache (s.tables.cache.incCount bh) := by
  have hcall : s.next (.call () (.getblk dev block)) =
      some (((s.setStack () [.getblk dev block, .userBuffer]).setBufs () (s.bufs ())).setInodes ()
        (s.inodes ())) := by
    simp [next, hstack, FsCall.buf, FsCall.inode, FsCall.frames]
  have h₁ := h.tail ⟨_, hcall⟩
  have h₂ := reachable_exec h₁ () choice (f := .getblk dev block) (by rfl) (by rfl)
  have h₃ := reachable_exec h₂ () choice (f := .hashFind dev block) (by rfl) (by
    simp only [Frame.exec, setStack, withTables, setInodes, setBufs, hfind]; rfl)
  have h₄ := reachable_exec h₃ () choice (f := .hashWait dev block bh) (by rfl) (by
    simp only [Frame.exec, setStack, withTables, Tables.withCache, Cache.incCount, hlock, hdev,
      hblock]
    rfl)
  exact ⟨_, h₄, rfl, rfl⟩

/-- One task can hold any number of references to one buffer. -/
theorem exists_held (k : ℕ) : ∃ s : FsSystem Unit, Reachable Boot Step s ∧ s.stack () = [] ∧
    s.tables.cache.findBuffer 1 0 = some 0 ∧ s.tables.cache.lock 0 = false ∧
    s.tables.cache.dev 0 = 1 ∧ s.tables.cache.blocknr 0 = 0 ∧
    s.tables.cache.count 0 = (k + 1) % 256 := by
  induction k with
  | zero =>
    have hboot : Reachable Boot Step (boot Unit 1 fun _ => 0) := .of_init ⟨1, _, by omega, rfl⟩
    have hrun : (runEvents next (boot Unit 1 fun _ => 0) [.call () (.getblk 1 0), .exec () choice,
        .exec () choice, .exec () choice, .exec () choice, .take ()]).any (fun s =>
          decide (s.stack () = [] ∧ s.tables.cache.findBuffer 1 0 = some 0 ∧
            s.tables.cache.lock 0 = false ∧ s.tables.cache.dev 0 = 1 ∧
            s.tables.cache.blocknr 0 = 0 ∧ s.tables.cache.count 0 = (0 + 1) % 256)) = true := by
      decide +kernel
    obtain ⟨s, hs, -, hP⟩ := hboot.exists_runEvents (fun _ e _ he => ⟨e, he⟩) hrun
    exact ⟨s, hs, of_decide_eq_true hP⟩
  | succ k ih =>
    obtain ⟨s, h, hstack, hfind, hlock, hdev, hblock, hcount⟩ := ih
    obtain ⟨s', h', hstack', htables⟩ := getblk_cached h hstack hfind hlock hdev hblock
    have h₁ := reachable_exec h' () choice hstack' (by rfl)
    have h₂ := h₁.tail ⟨.take (), rfl⟩
    refine ⟨_, h₂, rfl, ?_, ?_, ?_, ?_, ?_⟩
    all_goals
      simp only [setBufs, setStack, withTables, htables, Tables.withCache]
    · exact hfind
    · exact hlock
    · exact hdev
    · exact hblock
    · simp only [Cache.incCount, Function.update_self, hcount]
      omega

/-- At the 256th reference `getblk` returns a buffer whose `b_count` is 0. -/
theorem getblk_wraps : ∃ s : FsSystem Unit, Reachable Boot Step s ∧
    s.stack () = [.getblkGot 1 0 (some 0), .userBuffer] ∧ s.tables.cache.count 0 = 0 ∧
    ¬s.GetblkReturns := by
  obtain ⟨s, h, hstack, hfind, hlock, hdev, hblock, hcount⟩ := exists_held 254
  obtain ⟨s', h', hstack', htables⟩ := getblk_cached h hstack hfind hlock hdev hblock
  have hcount' : s'.tables.cache.count 0 = 0 := by
    rw [htables]
    simp only [Tables.withCache, Cache.incCount, Function.update_self, hcount]
  refine ⟨s', h', hstack', hcount', ?_⟩
  intro hret
  obtain ⟨bh, hbh, -, -, -, hpos⟩ :=
    hret () _ _ choice s'.tables (.ret (some 0)) 1 0 hstack' rfl rfl
  rw [Option.some.injEq] at hbh
  rw [← hbh] at hpos
  omega

end FsSystem

end LihaLinux.Fs
