import LihaLinux.Fs.CacheRuns

/-!
# Null links in the buffer cache

`getblk` ends with `remove_from_queues` and `insert_into_queues`, here written out store by store
with an error for a null pointer that is followed. The first function tests the links of the hash
queue before it follows them; the second one stores through `b_next` of the new head of a chain
also if this was empty.
-/

namespace LihaLinux.Fs

/-- What can go wrong with the links. -/
inductive LinkError
  /-- A null pointer is followed. -/
  | null
  /-- The panic "Free block list corrupted". -/
  | panic
  deriving DecidableEq

namespace Cache

/-- What a link points to. -/
def follow : Option ℕ → Except LinkError ℕ
  | none => .error .null
  | some b => .ok b

/-- `if (bh->b_next) bh->b_next->b_prev = bh->b_prev`. -/
def passPrev (c : Cache) (bh : ℕ) : Except LinkError Cache :=
  if (c.next bh).isSome then do
    let n ← follow (c.next bh)
    pure { c with prev := Function.update c.prev n (c.prev bh) }
  else pure c

/-- `if (bh->b_prev) bh->b_prev->b_next = bh->b_next`. -/
def passNext (c : Cache) (bh : ℕ) : Except LinkError Cache :=
  if (c.prev bh).isSome then do
    let p ← follow (c.prev bh)
    pure { c with next := Function.update c.next p (c.next bh) }
  else pure c

/-- `if (hash(...) == bh) hash(...) = bh->b_next`. -/
def passHead (c : Cache) (bh : ℕ) : Cache :=
  let h := hashfn (c.dev bh) (c.blocknr bh)
  if c.hashTable h = some bh then
    { c with hashTable := Function.update c.hashTable h (c.next bh) }
  else c

/-- The stores to the free list in `remove_from_queues(bh)`. -/
def passFree (c : Cache) (bh : ℕ) : Except LinkError Cache :=
  if (c.prevFree bh).isNone ∨ (c.nextFree bh).isNone then .error .panic
  else do
    let p ← follow (c.prevFree bh)
    let c := { c with nextFree := Function.update c.nextFree p (c.nextFree bh) }
    let n ← follow (c.nextFree bh)
    let c := { c with prevFree := Function.update c.prevFree n (c.prevFree bh) }
    pure (if c.freeList = some bh then { c with freeList := c.nextFree bh } else c)

/-- `remove_from_queues(bh)`. -/
def removeFromQueues (c : Cache) (bh : ℕ) : Except LinkError Cache := do
  let c ← c.passPrev bh
  let c ← c.passNext bh
  (c.passHead bh).passFree bh

/-- The stores to the free list in `insert_into_queues(bh)`. -/
def putFree (c : Cache) (bh : ℕ) : Except LinkError Cache := do
  let c := { c with nextFree := Function.update c.nextFree bh c.freeList }
  let f ← follow c.freeList
  let c := { c with prevFree := Function.update c.prevFree bh (c.prevFree f) }
  let p ← follow (c.prevFree f)
  let c := { c with nextFree := Function.update c.nextFree p (some bh) }
  pure { c with prevFree := Function.update c.prevFree f (some bh) }

/-- The stores to the hash queue in `insert_into_queues(bh)`. -/
def putHash (c : Cache) (bh : ℕ) : Except LinkError Cache :=
  let c := { c with prev := Function.update c.prev bh none }
  let c := { c with next := Function.update c.next bh none }
  if c.dev bh = 0 then .ok c
  else do
    let h := hashfn (c.dev bh) (c.blocknr bh)
    let c := { c with next := Function.update c.next bh (c.hashTable h) }
    let c := { c with hashTable := Function.update c.hashTable h (some bh) }
    let n ← follow (c.next bh)
    pure { c with prev := Function.update c.prev n (some bh) }

/-- `insert_into_queues(bh)`. -/
def insertIntoQueues (c : Cache) (bh : ℕ) : Except LinkError Cache := do
  let c ← c.putFree bh
  c.putHash bh

/-- The end of `getblk(dev,block)`, with every pointer that it follows. -/
def replace (c : Cache) (dev block bh : ℕ) : Except LinkError Cache := do
  let c := { c with
    count := Function.update c.count bh 1
    dirt := Function.update c.dirt bh false
    uptodate := Function.update c.uptodate bh false }
  let c ← c.removeFromQueues bh
  let c := { c with
    dev := Function.update c.dev bh dev
    blocknr := Function.update c.blocknr bh block }
  c.insertIntoQueues bh

/-! ### The pointers that are followed -/

theorem passPrev_eq (c : Cache) (bh : ℕ) :
    c.passPrev bh = .ok { c with prev := unlinkPrev c.next c.prev bh } := by
  unfold passPrev unlinkPrev
  cases c.next bh with
  | none => rfl
  | some n => rfl

theorem passNext_eq (c : Cache) (bh : ℕ) :
    c.passNext bh = .ok { c with next := unlinkNext c.next c.prev bh } := by
  unfold passNext unlinkNext
  cases c.prev bh with
  | none => rfl
  | some p => rfl

theorem passFree_eq (c : Cache) (bh : ℕ) :
    c.passFree bh = (c.removeFromFree bh).elim (.error .panic) .ok := by
  unfold passFree removeFromFree
  cases hp : c.prevFree bh with
  | none => rfl
  | some p =>
    cases hn : c.nextFree bh with
    | none => rfl
    | some n =>
      have hself : Function.update c.nextFree p (some n) bh = some n := by
        rw [Function.update_apply, hn, ite_self]
      simp only [Option.isNone_some, Bool.false_eq_true, or_self, if_false, follow, hself, hp,
        bind, Except.bind, pure, Except.pure, Option.elim_some]
      split_ifs <;> rfl

/-- The tests of `remove_from_queues` keep it from following a null pointer. -/
theorem removeFromQueues_eq (c : Cache) (bh : ℕ) :
    c.removeFromQueues bh = ((c.removeFromHash bh).removeFromFree bh).elim (.error .panic) .ok := by
  rw [removeFromQueues, passPrev_eq]
  change (Cache.passNext { c with prev := unlinkPrev c.next c.prev bh } bh >>= _) = _
  rw [passNext_eq, ← passFree_eq]
  rfl

theorem putFree_eq (c : Cache) (bh : ℕ) :
    c.putFree bh = (c.insertIntoFree bh).elim (.error .null) .ok := by
  unfold putFree insertIntoFree
  cases hf : c.freeList with
  | none => rfl
  | some f =>
    dsimp only [follow, bind, Except.bind]
    cases Function.update c.prevFree bh (c.prevFree f) f with
    | none => rfl
    | some p => rfl

/-- The store through `b_next` of the new head of a chain is one through a null pointer if and only
if the chain was empty. -/
theorem putHash_eq (c : Cache) (bh : ℕ) :
    c.putHash bh =
      if c.dev bh ≠ 0 ∧ c.hashTable (hashfn (c.dev bh) (c.blocknr bh)) = none then .error .null
      else .ok (c.insertIntoHash bh) := by
  unfold putHash insertIntoHash
  by_cases hdev : c.dev bh = 0
  · simp only [hdev, if_true, ne_eq, not_true_eq_false, false_and, if_false]
  · simp only [hdev, if_false, ne_eq, not_false_eq_true, true_and, Function.update_self]
    cases c.hashTable (hashfn (c.dev bh) (c.blocknr bh)) with
    | none => rfl
    | some n => rfl

/-- If no null pointer is followed, the stores are those of the end of `getblk`. -/
theorem assign_of_replace {c c' : Cache} {dev block bh : ℕ}
    (h : c.replace dev block bh = .ok c') : c.assign dev block bh = some c' := by
  unfold replace at h
  unfold assign
  dsimp only at h ⊢
  rw [removeFromQueues_eq] at h
  generalize Cache.removeFromFree _ bh = removed at h ⊢
  cases removed with
  | none => cases h
  | some c₁ =>
    rw [Option.bind_some]
    change Cache.insertIntoQueues _ bh = _ at h
    rw [insertIntoQueues, putFree_eq] at h
    generalize Cache.insertIntoFree _ bh = inserted at h ⊢
    cases inserted with
    | none => cases h
    | some c₂ =>
      change c₂.putHash bh = _ at h
      rw [putHash_eq] at h
      split_ifs at h with hnull
      rw [Option.map_some, Except.ok.inj h]

/-- In a cache with its queues in order, a null pointer is followed if and only if the block goes
into a chain that holds no other buffer. -/
theorem Wf.replace_null_iff {c : Cache} {free : List ℕ} {chain : ℕ → List ℕ} {bh : ℕ}
    (h : c.Wf free chain) (hbh : bh < c.nrBuffers) (dev block : ℕ) :
    c.replace dev block bh = .error .null ↔
      dev ≠ 0 ∧ (chain (hashfn dev block)).erase bh = [] := by
  obtain ⟨nextFree, prevFree, hmove, -⟩ :=
    exists_moveFree h.ring h.head h.nodup (h.mem_free.mpr hbh)
  let c₀ : Cache := { c with
    count := Function.update c.count bh 1
    dirt := Function.update c.dirt bh false
    uptodate := Function.update c.uptodate bh false }
  have hwf₀ : c₀.Wf free chain :=
    ⟨h.ring, h.head, h.perm, h.chains, h.mem, h.unused, h.unique⟩
  have hchains₁ := hwf₀.removeFromHash hbh
  have hsame₁ := removeFromHash_hashOnly c₀ bh
  generalize hc₁ : c₀.removeFromHash bh = c₁ at hchains₁ hsame₁
  obtain ⟨n, p, hremove, hinsert⟩ :=
    hmove.remove_insert c₁ hsame₁.nextFree hsame₁.prevFree hsame₁.freeList
  let c₂ : Cache := { c₁ with
    nextFree := n
    prevFree := p
    freeList := (free.erase bh ++ [bh]).head?
    dev := Function.update c₁.dev bh dev
    blocknr := Function.update c₁.blocknr bh block }
  let c₃ : Cache := { c₂ with nextFree := nextFree, prevFree := prevFree }
  have hinsert₃ : c₂.insertIntoFree bh = some c₃ := hinsert c₂ rfl rfl rfl
  have hreplace : c.replace dev block bh = c₃.putHash bh := by
    change (c₀.removeFromQueues bh >>= _) = _
    rw [removeFromQueues_eq, hc₁, hremove]
    change c₂.insertIntoQueues bh = _
    rw [insertIntoQueues, putFree_eq, hinsert₃]
    rfl
  have hdev : c₃.dev bh = dev := Function.update_self ..
  have hblock : c₃.blocknr bh = block := Function.update_self ..
  have hhead : c₃.hashTable (hashfn dev block) = ((chain (hashfn dev block)).erase bh).head? :=
    hchains₁.head _
  have hempty : c₃.hashTable (hashfn dev block) = none ↔
      (chain (hashfn dev block)).erase bh = [] := by
    rw [hhead, List.head?_eq_none_iff]
  rw [hreplace, putHash_eq, hdev, hblock, ← hempty]
  split_ifs with hnull
  · exact iff_of_true rfl hnull
  · exact iff_of_false (fun h => by cases h) hnull

/-- Another buffer than `bh` is in use for a block in the same chain as `block`. -/
def SharesChain (c : Cache) (dev block bh : ℕ) : Prop :=
  ∃ b < c.nrBuffers, b ≠ bh ∧ c.dev b ≠ 0 ∧ hashfn (c.dev b) (c.blocknr b) = hashfn dev block

theorem Wf.sharesChain_iff {c : Cache} {free : List ℕ} {chain : ℕ → List ℕ} {bh : ℕ}
    (h : c.Wf free chain) (dev block : ℕ) :
    c.SharesChain dev block bh ↔ (chain (hashfn dev block)).erase bh ≠ [] := by
  have hmem (b : ℕ) : b ∈ (chain (hashfn dev block)).erase bh ↔
      b ≠ bh ∧ b ∈ chain (hashfn dev block) := (h.chains.nodup _).mem_erase_iff
  constructor
  · rintro ⟨b, hb, hne, hdev, hhash⟩
    exact List.ne_nil_of_mem ((hmem b).mpr ⟨hne, h.mem.mpr ⟨hb, hdev, hhash⟩⟩)
  · intro hnil
    obtain ⟨b, hb⟩ := List.exists_mem_of_ne_nil _ hnil
    obtain ⟨hne, hb⟩ := (hmem b).mp hb
    obtain ⟨hlt, hdev, hhash⟩ := h.mem.mp hb
    exact ⟨b, hlt, hne, hdev, hhash⟩

end Cache

namespace FsSystem

variable {τ : Type*} [Fintype τ] [DecidableEq τ]

/-- In every run, whenever `getblk` takes a buffer for a block, it follows no null pointer if and
only if the block has device 0 or another buffer is in the chain of the block. -/
theorem replace_links_iff {s : FsSystem τ} (h : Reachable Boot Step s) {t : τ}
    {dev block bh : ℕ} {rest : List Frame} (hstack : s.stack t = .getblkWait dev block bh :: rest) :
    s.tables.cache.replace dev block bh ≠ .error .null ↔
      dev = 0 ∨ s.tables.cache.SharesChain dev block bh := by
  have hi := cacheInv_reachable h
  obtain ⟨free, chain, hwf⟩ := hi.wf
  have hbh : Frame.Chosen s.tables.cache.nrBuffers (.getblkWait dev block bh) :=
    hi.chosen t _ (by rw [hstack]; exact List.mem_cons_self)
  rw [hwf.sharesChain_iff, Ne, hwf.replace_null_iff hbh, not_and_or, not_not]

/-- The first block that gets a buffer makes `getblk` follow a null pointer. -/
theorem replace_first_null : ∃ s : FsSystem Unit, Reachable Boot Step s ∧
    s.stack () = [.getblkWait 769 1 0, .userBuffer] ∧
    s.tables.cache.replace 769 1 0 = .error .null := by
  have hrun : (runEvents next (boot Unit 2 fun _ => 0) [.call () (.getblk 769 1),
      .exec () choice, .exec () choice, .exec () choice]).any (fun s =>
        decide (s.stack () = [.getblkWait 769 1 0, .userBuffer] ∧ s.tables.cache.nrBuffers = 2 ∧
          s.tables.cache.dev 1 = 0)) = true := by
    decide +kernel
  have hboot : Reachable Boot Step (boot Unit 2 fun _ => 0) := .of_init ⟨2, _, by decide, rfl⟩
  obtain ⟨s, hs, -, hP⟩ := hboot.exists_runEvents (fun _ e _ he => ⟨e, he⟩) hrun
  obtain ⟨hstack, hnr, hdev⟩ := of_decide_eq_true hP
  obtain ⟨free, chain, hwf⟩ := (cacheInv_reachable hs).wf
  have hbh : 0 < s.tables.cache.nrBuffers := by
    rw [hnr]
    decide
  have halone : ¬s.tables.cache.SharesChain 769 1 0 := by
    rintro ⟨b, hb, hne, hused, -⟩
    obtain rfl : b = 1 := by omega
    exact hused hdev
  rw [hwf.sharesChain_iff, not_not] at halone
  exact ⟨s, hs, hstack, (hwf.replace_null_iff hbh 769 1).mpr ⟨by decide, halone⟩⟩

/-- A second block in the chain of the first one. -/
theorem replace_second_links : ∃ s : FsSystem Unit, Reachable Boot Step s ∧
    s.stack () = [.getblkWait 1 309 1, .userBuffer] ∧
    s.tables.cache.replace 1 309 1 ≠ .error .null := by
  have hrun : (runEvents next (boot Unit 2 fun _ => 0) [.call () (.getblk 1 0),
      .exec () choice, .exec () choice, .exec () choice, .exec () choice, .take (),
      .call () (.getblk 1 309), .exec () choice, .exec () choice, .exec () choice]).any (fun s =>
        decide (s.stack () = [.getblkWait 1 309 1, .userBuffer] ∧ s.tables.cache.nrBuffers = 2 ∧
          s.tables.cache.dev 0 = 1 ∧ s.tables.cache.blocknr 0 = 0)) = true := by
    decide +kernel
  have hboot : Reachable Boot Step (boot Unit 2 fun _ => 0) := .of_init ⟨2, _, by decide, rfl⟩
  obtain ⟨s, hs, -, hP⟩ := hboot.exists_runEvents (fun _ e _ he => ⟨e, he⟩) hrun
  obtain ⟨hstack, hnr, hdev, hblock⟩ := of_decide_eq_true hP
  refine ⟨s, hs, hstack, (replace_links_iff hs hstack).mpr (.inr ⟨0, ?_, ?_, ?_, ?_⟩)⟩
  · rw [hnr]
    decide
  · decide
  · rw [hdev]
    decide
  · rw [hdev, hblock]
    decide

end FsSystem

end LihaLinux.Fs
