import LihaLinux.Fs.Cache

/-!
# Taking a buffer for a block

`getblk` ends by removing the chosen buffer from both queues, giving it the new block, and
inserting it again. The free list keeps all buffers, with the chosen one at its end; the
chosen buffer moves to the hash chain of its new block.
-/

namespace LihaLinux.Fs.Cache

variable {c : Cache} {free : List ℕ} {chain : ℕ → List ℕ} {bh : ℕ}

/-! ### The free list -/

/-- The stores to the free list in `remove_from_queues(bh)` followed by
`insert_into_queues(bh)`. -/
structure MoveFree (c : Cache) (bh : ℕ) (nextFree prevFree : ℕ → Option ℕ)
    (freeList : Option ℕ) : Prop where
  remove_insert : ∀ c' : Cache, c'.nextFree = c.nextFree → c'.prevFree = c.prevFree →
    c'.freeList = c.freeList → ∃ n p, c'.removeFromFree bh =
      some { c' with nextFree := n, prevFree := p, freeList := freeList } ∧
      ∀ c'' : Cache, c''.nextFree = n → c''.prevFree = p → c''.freeList = freeList →
        c''.insertIntoFree bh = some { c'' with nextFree := nextFree, prevFree := prevFree }

/-- The only buffer of a cache stays where it is. -/
theorem moveFree_singleton (hring : Ring c.nextFree c.prevFree [bh])
    (hhead : c.freeList = some bh) : MoveFree c bh c.nextFree c.prevFree (some bh) := by
  obtain ⟨hprev, hnext⟩ := hring.first
  simp only [List.getLast?_nil, Option.none_or, List.head?_nil] at hprev hnext
  have hn : Function.update c.nextFree bh (some bh) = c.nextFree := by
    rw [← hnext, Function.update_eq_self]
  have hp : Function.update c.prevFree bh (some bh) = c.prevFree := by
    rw [← hprev, Function.update_eq_self]
  constructor
  intro c' hn' hp' hf'
  refine ⟨c.nextFree, c.prevFree, ?_, ?_⟩
  · simp [removeFromFree, hn', hp', hf', hprev, hnext, hhead, hn, hp]
  · intro c'' hn'' hp'' hf''
    simp [insertIntoFree, hn'', hp'', hf'', hprev, hn, hp]

/-- The chosen buffer moves to the end of the free list. -/
theorem exists_moveFree (hring : Ring c.nextFree c.prevFree free) (hhead : c.freeList = free.head?)
    (hnodup : free.Nodup) (hbh : bh ∈ free) :
    ∃ nextFree prevFree, MoveFree c bh nextFree prevFree (free.erase bh ++ [bh]).head? ∧
      Ring nextFree prevFree (free.erase bh ++ [bh]) := by
  obtain ⟨u, v, rfl⟩ := List.append_of_mem hbh
  have hbu : bh ∉ u := by
    intro hmem
    exact (List.nodup_append.mp hnodup).2.2 bh hmem bh (by simp) rfl
  have herase : (u ++ bh :: v).erase bh = u ++ v := by
    rw [List.erase_append_right _ hbu, List.erase_cons_head]
  rw [herase]
  have hrot : Ring c.nextFree c.prevFree (bh :: (v ++ u)) := by
    have := hring.rotate
    simpa using this
  have hnodup' : (bh :: (u ++ v)).Nodup := by
    have hperm : (u ++ bh :: v).Perm (bh :: (u ++ v)) := List.perm_middle
    exact hperm.nodup_iff.mp hnodup
  have hnodup'' : (bh :: (v ++ u)).Nodup := by
    have hperm : (bh :: (u ++ v)).Perm (bh :: (v ++ u)) := List.perm_append_comm.cons _
    exact hperm.nodup_iff.mp hnodup'
  cases hw : u ++ v with
  | nil =>
    obtain ⟨rfl, rfl⟩ := List.append_eq_nil_iff.mp hw
    exact ⟨c.nextFree, c.prevFree, moveFree_singleton hring hhead, hring⟩
  | cons f w =>
    -- the neighbours of the chosen buffer, in the ring that starts with it
    have hne : v ++ u ≠ [] := by
      intro hnil
      obtain ⟨rfl, rfl⟩ := List.append_eq_nil_iff.mp hnil
      cases hw
    obtain ⟨p, hp⟩ : ∃ p, (v ++ u).getLast? = some p := ⟨_, List.getLast?_eq_some_getLast hne⟩
    obtain ⟨n, hn⟩ : ∃ n, (v ++ u).head? = some n := ⟨_, List.head?_eq_some_head hne⟩
    obtain ⟨hprev, hnext⟩ := hrot.first
    rw [hp, Option.some_or] at hprev
    rw [hn, Option.some_or] at hnext
    have hring₁ := (hrot.unlink hnodup'' hp hn).rotate
    rw [hw] at hring₁ hnodup'
    obtain ⟨hfprev, -⟩ := hring₁.first
    obtain ⟨q, hq⟩ : ∃ q, (f :: w).getLast? = some q :=
      ⟨_, List.getLast?_eq_some_getLast (by simp)⟩
    have hfq : Function.update c.prevFree n (some p) f = some q := by
      rw [hfprev, ← hq, List.getLast?_cons]
      cases w.getLast? <;> rfl
    have hfbh : f ≠ bh := by
      rintro rfl
      simp at hnodup'
    have hfirst : (if c.freeList = some bh then some n else c.freeList) = some f := by
      cases u with
      | nil =>
        simp only [List.nil_append, List.append_nil] at hw hn
        rw [hw] at hn
        simp only [List.head?_cons, Option.some.injEq] at hn
        simp [hhead, hn]
      | cons a u =>
        simp only [List.cons_append, List.cons.injEq] at hw
        simp only [List.cons_append, List.head?_cons] at hhead
        rw [hhead, hw.1, if_neg (by simpa using hfbh)]
    let next₁ := Function.update c.nextFree p (some n)
    let prev₁ := Function.update c.prevFree n (some p)
    refine ⟨Function.update (Function.update next₁ bh (some f)) q (some bh),
      Function.update (Function.update prev₁ bh (some q)) f (some bh), ?_, ?_⟩
    · constructor
      intro c' hn' hp' hf'
      refine ⟨next₁, prev₁, ?_, ?_⟩
      · simp [removeFromFree, hn', hp', hf', hprev, hnext, hfirst, next₁, prev₁]
      · intro c'' hn'' hp'' hf''
        simp only [List.cons_append, List.head?_cons] at hf''
        simp only [insertIntoFree, hn'', hp'', hf'', Function.update_of_ne hfbh, hfq, prev₁]
    · apply hring₁.insert hnodup' hq
      · intro b hb
        have hbbh : b ≠ bh := by
          rintro rfl
          exact (List.nodup_cons.mp hnodup').1 hb
        simp only [next₁, Function.update_apply, hbbh, if_false]
      · intro b hb
        have hbbh : b ≠ bh := by
          rintro rfl
          exact (List.nodup_cons.mp hnodup').1 hb
        simp only [prev₁, Function.update_apply, hbbh, if_false]
      · have hqbh : bh ≠ q := by
          rintro rfl
          exact (List.nodup_cons.mp hnodup').1 (List.mem_of_getLast? hq)
        rw [Function.update_of_ne hqbh, Function.update_self]
      · rw [Function.update_of_ne hfbh.symm, Function.update_self]

/-! ### The hash queues -/

/-- The links after the first half of `remove_from_queues(bh)`. -/
theorem removeFromHash_next (hself : c.next bh ≠ some bh) :
    (c.removeFromHash bh).next = unlinkNext c.next c.prev bh ∧
      (c.removeFromHash bh).prev = unlinkPrev c.next c.prev bh := by
  have hprev : unlinkPrev c.next c.prev bh bh = c.prev bh := unlinkPrev_of_ne hself
  have hnext : unlinkNext c.next (unlinkPrev c.next c.prev bh) bh =
      unlinkNext c.next c.prev bh := by
    unfold unlinkNext
    rw [hprev]
  unfold removeFromHash
  simp only
  split_ifs
  · exact ⟨hnext, rfl⟩
  · exact ⟨hnext, rfl⟩

/-- The first half of `remove_from_queues(bh)` takes the buffer out of its chain, if it is
in one. -/
theorem Wf.removeFromHash (h : c.Wf free chain) (hbh : bh < c.nrBuffers) :
    Chains (c.removeFromHash bh).next (c.removeFromHash bh).prev (c.removeFromHash bh).hashTable
      (fun g => (chain g).erase bh) := by
  by_cases hdev : c.dev bh = 0
  · obtain ⟨hnext, hprev⟩ := h.unused hbh hdev
    have hnotin : ∀ g, bh ∉ chain g := fun g hmem => (h.mem.mp hmem).2.1 hdev
    have hchain : (fun g => (chain g).erase bh) = chain := by
      funext g
      exact List.erase_of_not_mem (hnotin g)
    have htable : (c.removeFromHash bh).hashTable = c.hashTable := by
      unfold Cache.removeFromHash
      simp only
      rw [if_neg]
      rw [h.chains.head]
      intro hhead
      exact hnotin _ (List.mem_of_mem_head? hhead)
    obtain ⟨hn, hp⟩ := removeFromHash_next (show c.next bh ≠ some bh by simp [hnext])
    rw [hn, hp, htable, hchain]
    exact h.chains.unlink_null hnext hprev
  · have hmem : bh ∈ chain (hashfn (c.dev bh) (c.blocknr bh)) := h.mem.mpr ⟨hbh, hdev, rfl⟩
    obtain ⟨u, v, huv⟩ := List.append_of_mem hmem
    have hnodup := h.chains.nodup (hashfn (c.dev bh) (c.blocknr bh))
    have hlinks := h.chains.links (hashfn (c.dev bh) (c.blocknr bh))
    rw [huv] at hnodup hlinks
    have hself : c.next bh ≠ some bh := by
      rw [hlinks.mid.2, Option.or_none]
      intro hhead
      have hv := List.mem_of_mem_head? hhead
      exact (List.nodup_cons.mp (List.nodup_append.mp hnodup).2.1).1 hv
    have hself' : c.prev bh ≠ some bh := by
      rw [hlinks.mid.1, Option.or_none]
      intro hlast
      exact (List.nodup_append.mp hnodup).2.2 bh (List.mem_of_getLast? hlast) bh (by simp) rfl
    obtain ⟨hn, hp⟩ := removeFromHash_next hself
    have htable : (c.removeFromHash bh).hashTable =
        if c.hashTable (hashfn (c.dev bh) (c.blocknr bh)) = some bh then
          Function.update c.hashTable (hashfn (c.dev bh) (c.blocknr bh)) (c.next bh)
        else c.hashTable := by
      have hnext : (c.removeFromHash bh).next bh = c.next bh := by
        rw [hn, unlinkNext_of_ne hself']
      unfold Cache.removeFromHash at hnext ⊢
      simp only at hnext ⊢
      split_ifs at hnext ⊢ with hcond
      · rw [← hnext]
      · rfl
    have hchain : (fun g => (chain g).erase bh) =
        Function.update chain (hashfn (c.dev bh) (c.blocknr bh))
          ((chain (hashfn (c.dev bh) (c.blocknr bh))).erase bh) := by
      funext g
      by_cases hg : g = hashfn (c.dev bh) (c.blocknr bh)
      · subst g
        rw [Function.update_self]
      · rw [Function.update_of_ne hg, List.erase_of_not_mem]
        intro hmem'
        exact hg (h.chains.disjoint hmem' hmem)
    rw [hn, hp, htable, hchain]
    exact h.chains.remove hmem

/-- The second half of `insert_into_queues(bh)` puts the buffer in front of the chain of its
block. -/
theorem insertIntoHash_chains (hc : Chains c.next c.prev c.hashTable chain)
    (hnotin : ∀ g, bh ∉ chain g) :
    Chains (c.insertIntoHash bh).next (c.insertIntoHash bh).prev (c.insertIntoHash bh).hashTable
      (if c.dev bh = 0 then chain
        else Function.update chain (hashfn (c.dev bh) (c.blocknr bh))
          (bh :: chain (hashfn (c.dev bh) (c.blocknr bh)))) := by
  by_cases hdev : c.dev bh = 0
  · have hinsert : c.insertIntoHash bh = { c with
        prev := Function.update c.prev bh none
        next := Function.update c.next bh none } := by
      simp [insertIntoHash, hdev]
    rw [if_pos hdev, hinsert]
    constructor
    · exact hc.head
    · intro g
      have hne : ∀ b ∈ chain g, b ≠ bh := by
        rintro b hb rfl
        exact hnotin g hb
      apply (hc.links g).congr
      · intro b hb
        simp only
        rw [Function.update_of_ne (hne b hb)]
      · intro b hb
        simp only
        rw [Function.update_of_ne (hne b hb)]
    · exact hc.nodup
    · exact hc.disjoint
  · rw [if_neg hdev]
    have htable : (c.insertIntoHash bh).hashTable =
        Function.update c.hashTable (hashfn (c.dev bh) (c.blocknr bh)) (some bh) := by
      unfold insertIntoHash
      simp only [hdev, if_false]
      split <;> rfl
    have hnext : (c.insertIntoHash bh).next =
        Function.update c.next bh (c.hashTable (hashfn (c.dev bh) (c.blocknr bh))) := by
      unfold insertIntoHash
      simp only [hdev, if_false, Function.update_idem]
      split <;> rfl
    have hprev : (c.insertIntoHash bh).prev =
        (c.hashTable (hashfn (c.dev bh) (c.blocknr bh))).elim (Function.update c.prev bh none)
          fun n => Function.update (Function.update c.prev bh none) n (some bh) := by
      unfold insertIntoHash
      simp only [hdev, if_false, Function.update_self]
      split <;> simp_all
    rw [htable]
    apply hc.push _ hnotin
    · intro b hb
      rw [hnext, Function.update_of_ne hb]
    · rw [hnext, Function.update_self]
    · rw [hprev]
      cases hhead : c.hashTable (hashfn (c.dev bh) (c.blocknr bh)) with
      | none => simp
      | some n =>
        have hne : bh ≠ n := by
          rintro rfl
          rw [hc.head] at hhead
          exact hnotin _ (List.mem_of_mem_head? hhead)
        simp only [Option.elim_some]
        rw [Function.update_of_ne hne, Function.update_self]
    · intro b hb
      rw [hprev]
      cases hhead : c.hashTable (hashfn (c.dev bh) (c.blocknr bh)) with
      | none => simp [hb]
      | some n =>
        simp only [Option.elim_some, Option.some.injEq]
        by_cases hbn : b = n
        · subst b
          simp
        · rw [Function.update_of_ne hbn, Function.update_of_ne hb, if_neg (fun h => hbn h.symm)]

/-- A node outside the chains keeps its links when a buffer is taken out. -/
theorem Wf.removeFromHash_of_unused (h : c.Wf free chain) (hbh : bh < c.nrBuffers) {b : ℕ}
    (hb : b < c.nrBuffers) (hdev : c.dev b = 0) :
    (c.removeFromHash bh).next b = none ∧ (c.removeFromHash bh).prev b = none := by
  obtain ⟨hnext, hprev⟩ := h.unused hb hdev
  have hnotin : ∀ g, b ∉ chain g := fun g hmem => (h.mem.mp hmem).2.1 hdev
  have hlink : c.next bh ≠ some b ∧ c.prev bh ≠ some b ∧ c.next bh ≠ some bh := by
    by_cases hdevbh : c.dev bh = 0
    · obtain ⟨hn, hp⟩ := h.unused hbh hdevbh
      simp [hn, hp]
    · have hmem : bh ∈ chain (hashfn (c.dev bh) (c.blocknr bh)) := h.mem.mpr ⟨hbh, hdevbh, rfl⟩
      obtain ⟨u, v, huv⟩ := List.append_of_mem hmem
      have hnodup := h.chains.nodup (hashfn (c.dev bh) (c.blocknr bh))
      have hlinks := h.chains.links (hashfn (c.dev bh) (c.blocknr bh))
      have hout := hnotin (hashfn (c.dev bh) (c.blocknr bh))
      rw [huv] at hnodup hlinks hout
      obtain ⟨hp, hn⟩ := hlinks.mid
      rw [Option.or_none] at hp hn
      refine ⟨?_, ?_, ?_⟩
      · rw [hn]
        intro hhead
        exact hout (by simp [List.mem_of_mem_head? hhead])
      · rw [hp]
        intro hlast
        exact hout (by simp [List.mem_of_getLast? hlast])
      · rw [hn]
        intro hhead
        exact (List.nodup_cons.mp (List.nodup_append.mp hnodup).2.1).1
          (List.mem_of_mem_head? hhead)
  obtain ⟨hnext', hprev'⟩ := removeFromHash_next hlink.2.2
  rw [hnext', hprev', unlinkNext_of_ne hlink.2.1, unlinkPrev_of_ne hlink.1]
  exact ⟨hnext, hprev⟩

/-- A node outside the chains keeps its links when another one is put in. -/
theorem insertIntoHash_of_unused (hc : Chains c.next c.prev c.hashTable chain) {b : ℕ}
    (hb : b ≠ bh) (hnotin : ∀ g, b ∉ chain g) :
    (c.insertIntoHash bh).next b = c.next b ∧ (c.insertIntoHash bh).prev b = c.prev b := by
  unfold insertIntoHash
  simp only
  split_ifs
  · simp [Function.update_of_ne hb]
  · simp only [Function.update_self]
    split
    · simp [Function.update_of_ne hb]
    · rename_i n hn
      have hbn : b ≠ n := by
        rintro rfl
        rw [hc.head] at hn
        exact hnotin _ (List.mem_of_mem_head? hn)
      simp [Function.update_of_ne hb, Function.update_of_ne hbn]

/-! ### The end of `getblk` -/

/-- The caches differ in the hash queues only. -/
structure HashOnly (c c' : Cache) : Prop where
  nrBuffers : c'.nrBuffers = c.nrBuffers
  dev : c'.dev = c.dev
  blocknr : c'.blocknr = c.blocknr
  uptodate : c'.uptodate = c.uptodate
  dirt : c'.dirt = c.dirt
  lock : c'.lock = c.lock
  count : c'.count = c.count
  nextFree : c'.nextFree = c.nextFree
  prevFree : c'.prevFree = c.prevFree
  freeList : c'.freeList = c.freeList

theorem removeFromHash_hashOnly (c : Cache) (bh : ℕ) : HashOnly c (c.removeFromHash bh) := by
  unfold removeFromHash
  simp only
  split_ifs <;> constructor <;> rfl

theorem insertIntoHash_hashOnly (c : Cache) (bh : ℕ) : HashOnly c (c.insertIntoHash bh) := by
  unfold insertIntoHash
  simp only
  split_ifs
  · constructor <;> rfl
  · split <;> constructor <;> rfl

/-- What the end of `getblk(dev,block)` does with the buffer `bh`. -/
structure Assigned (c c' : Cache) (dev block bh : ℕ) : Prop where
  nrBuffers : c'.nrBuffers = c.nrBuffers
  dev : c'.dev = Function.update c.dev bh dev
  blocknr : c'.blocknr = Function.update c.blocknr bh block
  uptodate : c'.uptodate = Function.update c.uptodate bh false
  dirt : c'.dirt = Function.update c.dirt bh false
  lock : c'.lock = c.lock
  count : c'.count = Function.update c.count bh 1

/-- The chains after `bh` has been taken for `(dev,block)`. -/
def chainsAssign (chain : ℕ → List ℕ) (dev block bh : ℕ) : ℕ → List ℕ :=
  if dev = 0 then fun g => (chain g).erase bh
  else Function.update (fun g => (chain g).erase bh) (hashfn dev block)
    (bh :: (chain (hashfn dev block)).erase bh)

/-- The new chains hold the buffers in use, by their new blocks. -/
theorem Wf.mem_chainsAssign (h : c.Wf free chain) {c' : Cache} {dev block : ℕ}
    (hassigned : Assigned c c' dev block bh) (hbh : bh < c.nrBuffers) {g b : ℕ} :
    b ∈ chainsAssign chain dev block bh g ↔
      b < c.nrBuffers ∧ c'.dev b ≠ 0 ∧ hashfn (c'.dev b) (c'.blocknr b) = g := by
  rw [hassigned.dev, hassigned.blocknr]
  have hold : b ∈ (chain g).erase bh ↔ b ≠ bh ∧ b ∈ chain g :=
    (h.chains.nodup g).mem_erase_iff
  by_cases hb : b = bh
  · subst b
    rw [Function.update_self, Function.update_self]
    unfold chainsAssign
    split_ifs with hdev
    · simp [hold, hdev]
    · by_cases hg : g = hashfn dev block
      · subst g
        simp [hdev, hbh]
      · rw [Function.update_of_ne hg, hold]
        constructor
        · exact fun hmem => absurd rfl hmem.1
        · exact fun hmem => absurd hmem.2.2.symm hg
  · have hold' : b ∈ (chain g).erase bh ↔
        b < c.nrBuffers ∧ c.dev b ≠ 0 ∧ hashfn (c.dev b) (c.blocknr b) = g := by
      rw [hold, h.mem]
      simp [hb]
    rw [Function.update_of_ne hb, Function.update_of_ne hb]
    unfold chainsAssign
    split_ifs with hdev
    · exact hold'
    · by_cases hg : g = hashfn dev block
      · subst g
        rw [Function.update_self, List.mem_cons, or_iff_right hb]
        exact hold'
      · rw [Function.update_of_ne hg]
        exact hold'

/-- No block gets a second buffer. -/
theorem Wf.unique_assigned (h : c.Wf free chain) {c' : Cache} {dev block : ℕ}
    (hassigned : Assigned c c' dev block bh) (hfind : c.findBuffer dev block = none) {a b : ℕ}
    (ha : a < c.nrBuffers) (hb : b < c.nrBuffers) (hdev : c'.dev a ≠ 0)
    (hab : c'.dev a = c'.dev b) (hab' : c'.blocknr a = c'.blocknr b) : a = b := by
  rw [hassigned.dev] at hdev hab
  rw [hassigned.blocknr] at hab'
  by_cases habh : a = bh <;> by_cases hbbh : b = bh
  · rw [habh, hbbh]
  · subst a
    rw [Function.update_self, Function.update_of_ne hbbh] at hab hab'
    rw [Function.update_self] at hdev
    exact absurd hab'.symm (h.findBuffer_none hfind hb (by rw [← hab]; exact hdev) hab.symm)
  · subst b
    rw [Function.update_self, Function.update_of_ne habh] at hab hab'
    rw [Function.update_of_ne habh] at hdev
    exact absurd hab' (h.findBuffer_none hfind ha hdev hab)
  · rw [Function.update_of_ne habh, Function.update_of_ne hbbh] at hab hab'
    rw [Function.update_of_ne habh] at hdev
    exact h.unique ha hb hdev hab hab'

/-- The end of `getblk` never panics and keeps the representation, if `find_buffer` has found
no buffer for the block. -/
theorem Wf.assign (h : c.Wf free chain) {dev block : ℕ} (hbh : bh < c.nrBuffers)
    (hfind : c.findBuffer dev block = none) :
    ∃ c', c.assign dev block bh = some c' ∧ Assigned c c' dev block bh ∧
      c'.Wf (free.erase bh ++ [bh]) (chainsAssign chain dev block bh) := by
  obtain ⟨nextFree, prevFree, hmove, hring⟩ :=
    exists_moveFree h.ring h.head h.nodup (h.mem_free.mpr hbh)
  let c₀ : Cache := { c with
    count := Function.update c.count bh 1
    dirt := Function.update c.dirt bh false
    uptodate := Function.update c.uptodate bh false }
  have hwf₀ : c₀.Wf free chain :=
    ⟨h.ring, h.head, h.perm, h.chains, h.mem, h.unused, h.unique⟩
  -- out of the hash queue
  have hchains₁ := hwf₀.removeFromHash hbh
  have hunused₁ := fun b (hb : b < c₀.nrBuffers) => hwf₀.removeFromHash_of_unused hbh hb
  have hsame₁ := removeFromHash_hashOnly c₀ bh
  generalize hc₁ : c₀.removeFromHash bh = c₁ at hchains₁ hsame₁ hunused₁
  -- to the end of the free list
  obtain ⟨n, p, hremove, hinsert⟩ :=
    hmove.remove_insert c₁ hsame₁.nextFree hsame₁.prevFree hsame₁.freeList
  let c₂ : Cache := { c₁ with
    nextFree := n
    prevFree := p
    freeList := (free.erase bh ++ [bh]).head?
    dev := Function.update c₁.dev bh dev
    blocknr := Function.update c₁.blocknr bh block }
  let c₃ : Cache := { c₂ with nextFree := nextFree, prevFree := prevFree }
  have hinsert₃ : c₂.insertIntoFree bh = some c₃ := hinsert c₂ rfl rfl rfl
  -- into the new hash queue
  have hnotin : ∀ g, bh ∉ (chain g).erase bh := fun g => (h.chains.nodup g).not_mem_erase
  have hchains₄ := insertIntoHash_chains (c := c₃) hchains₁ hnotin
  have hunused₄ := fun b (hb : b ≠ bh) => insertIntoHash_of_unused (c := c₃) hchains₁ hb
  have hsame₄ := insertIntoHash_hashOnly c₃ bh
  have hdev₃ : c₃.dev bh = dev := Function.update_self ..
  have hblock₃ : c₃.blocknr bh = block := Function.update_self ..
  have hself₄ : dev = 0 →
      (c₃.insertIntoHash bh).next bh = none ∧ (c₃.insertIntoHash bh).prev bh = none := by
    intro hdev
    simp [insertIntoHash, hdev₃, hdev]
  generalize hc₄ : c₃.insertIntoHash bh = c₄ at hchains₄ hsame₄ hunused₄ hself₄
  have hassigned : Assigned c c₄ dev block bh := by
    constructor
    · rw [hsame₄.nrBuffers]
      exact hsame₁.nrBuffers
    · rw [hsame₄.dev]
      exact congrArg (Function.update · bh dev) hsame₁.dev
    · rw [hsame₄.blocknr]
      exact congrArg (Function.update · bh block) hsame₁.blocknr
    · rw [hsame₄.uptodate]
      exact hsame₁.uptodate
    · rw [hsame₄.dirt]
      exact hsame₁.dirt
    · rw [hsame₄.lock]
      exact hsame₁.lock
    · rw [hsame₄.count]
      exact hsame₁.count
  refine ⟨c₄, ?_, hassigned, ?_⟩
  · change ((c₀.removeFromHash bh).removeFromFree bh).bind _ = _
    rw [hc₁, hremove, Option.bind_some]
    change (c₂.insertIntoFree bh).map _ = _
    rw [hinsert₃, Option.map_some, hc₄]
  · constructor
    · rw [hsame₄.nextFree, hsame₄.prevFree]
      exact hring
    · rw [hsame₄.freeList]
    · rw [hassigned.nrBuffers]
      have hperm : (free.erase bh ++ [bh]).Perm (bh :: free.erase bh) :=
        List.perm_append_singleton bh _
      exact (hperm.trans (List.perm_cons_erase (h.mem_free.mpr hbh)).symm).trans h.perm
    · rw [hdev₃, hblock₃] at hchains₄
      exact hchains₄
    · rw [hassigned.nrBuffers]
      exact h.mem_chainsAssign hassigned hbh
    · intro b hb hdev
      rw [hassigned.nrBuffers] at hb
      by_cases hbbh : b = bh
      · subst b
        rw [hassigned.dev, Function.update_self] at hdev
        exact hself₄ hdev
      · rw [hassigned.dev, Function.update_of_ne hbbh] at hdev
        have hout : ∀ g, b ∉ (chain g).erase bh := fun g hmem =>
          (h.mem.mp (List.mem_of_mem_erase hmem)).2.1 hdev
        obtain ⟨hnext, hprev⟩ := hunused₄ b hbbh hout
        rw [hnext, hprev]
        exact hunused₁ b hb hdev
    · intro a b ha hb
      rw [hassigned.nrBuffers] at ha hb
      exact h.unique_assigned hassigned hfind ha hb

/-! ### The other operations -/

/-- The caches have the same buffers in the same queues. -/
structure SameQueues (c c' : Cache) : Prop where
  nrBuffers : c'.nrBuffers = c.nrBuffers
  dev : c'.dev = c.dev
  blocknr : c'.blocknr = c.blocknr
  next : c'.next = c.next
  prev : c'.prev = c.prev
  nextFree : c'.nextFree = c.nextFree
  prevFree : c'.prevFree = c.prevFree
  hashTable : c'.hashTable = c.hashTable
  freeList : c'.freeList = c.freeList

theorem SameQueues.trans {c₁ c₂ c₃ : Cache} (h : SameQueues c₁ c₂) (h' : SameQueues c₂ c₃) :
    SameQueues c₁ c₃ := by
  constructor
  · rw [h'.nrBuffers, h.nrBuffers]
  · rw [h'.dev, h.dev]
  · rw [h'.blocknr, h.blocknr]
  · rw [h'.next, h.next]
  · rw [h'.prev, h.prev]
  · rw [h'.nextFree, h.nextFree]
  · rw [h'.prevFree, h.prevFree]
  · rw [h'.hashTable, h.hashTable]
  · rw [h'.freeList, h.freeList]

/-- Counters and flags do not matter for the representation. -/
theorem Wf.of_sameQueues {c' : Cache} (h : c.Wf free chain) (hs : SameQueues c c') :
    c'.Wf free chain := by
  constructor
  · rw [hs.nextFree, hs.prevFree]
    exact h.ring
  · rw [hs.freeList]
    exact h.head
  · rw [hs.nrBuffers]
    exact h.perm
  · rw [hs.next, hs.prev, hs.hashTable]
    exact h.chains
  · rw [hs.nrBuffers, hs.dev, hs.blocknr]
    exact h.mem
  · rw [hs.nrBuffers, hs.dev, hs.next, hs.prev]
    exact h.unused
  · rw [hs.nrBuffers, hs.dev, hs.blocknr]
    exact h.unique

/-- The free list leads from buffer to buffer. -/
theorem Wf.nextFree_lt (h : c.Wf free chain) {b n : ℕ} (hb : b < c.nrBuffers)
    (hn : c.nextFree b = some n) : n < c.nrBuffers := by
  have hmem := h.mem_free.mpr hb
  obtain ⟨u, v, huv⟩ := List.append_of_mem hmem
  have hring := h.ring
  unfold Ring at hring
  rw [huv] at hring
  have hnext := hring.mid.2
  rw [hn] at hnext
  rw [← h.mem_free, huv]
  cases v with
  | nil =>
    rw [List.head?_nil, Option.none_or] at hnext
    exact List.mem_of_mem_head? hnext.symm
  | cons a v =>
    simp only [List.head?_cons, Option.some_or, Option.some.injEq] at hnext
    simp [hnext]

/-- The scan of the free list meets buffers only. -/
theorem Wf.scanFree_lt (h : c.Wf free chain) {fuel tmp b : ℕ} {best : Option ℕ}
    (htmp : tmp < c.nrBuffers) (hbest : ∀ a ∈ best, a < c.nrBuffers)
    (hb : c.scanFree fuel tmp best = some b) : b < c.nrBuffers := by
  induction fuel generalizing tmp best with
  | zero => exact hbest b hb
  | succ fuel ih =>
    have hself : ∀ a ∈ some tmp, a < c.nrBuffers := by
      intro a ha
      cases ha
      exact htmp
    unfold scanFree at hb
    extract_lets rest at hb
    have hrest : ∀ best' : Option ℕ, (∀ a ∈ best', a < c.nrBuffers) → rest best' = some b →
        b < c.nrBuffers := by
      intro best' hbest' hscan
      simp only [rest] at hscan
      split at hscan
      · exact hbest' b hscan
      · rename_i n hn
        split_ifs at hscan
        · exact hbest' b hscan
        · exact ih (h.nextFree_lt htmp hn) hbest' hscan
    cases best with
    | none =>
      simp only at hb
      split_ifs at hb
      · exact hrest none hbest hb
      · exact hself b hb
      · exact hrest (some tmp) hself hb
    | some a =>
      simp only at hb
      split_ifs at hb
      · exact hrest (some a) hbest hb
      · exact hself b hb
      · exact hrest (some tmp) hself hb
      · exact hrest (some a) hbest hb

/-- `getblk` chooses a buffer. -/
theorem Wf.chooseFree_lt (h : c.Wf free chain) {b : ℕ} (hb : c.chooseFree = some b) :
    b < c.nrBuffers := by
  unfold chooseFree at hb
  split at hb
  · cases hb
  · rename_i f hf
    have hmem : f ∈ free := List.mem_of_mem_head? (by rw [← h.head]; exact hf)
    exact h.scanFree_lt (h.mem_free.mp hmem) (by simp) hb

/-- The scan of the free list chooses a free buffer. -/
theorem scanFree_count {fuel tmp b : ℕ} {best : Option ℕ} (hbest : ∀ a ∈ best, c.count a = 0)
    (hb : c.scanFree fuel tmp best = some b) : c.count b = 0 := by
  induction fuel generalizing tmp best with
  | zero => exact hbest b hb
  | succ fuel ih =>
    unfold scanFree at hb
    extract_lets rest at hb
    have hrest : ∀ best' : Option ℕ, (∀ a ∈ best', c.count a = 0) → rest best' = some b →
        c.count b = 0 := by
      intro best' hbest' hscan
      simp only [rest] at hscan
      split at hscan
      · exact hbest' b hscan
      · split_ifs at hscan
        · exact hbest' b hscan
        · exact ih hbest' hscan
    by_cases htmp : c.count tmp = 0
    · have hself : ∀ a ∈ some tmp, c.count a = 0 := by
        intro a ha
        cases ha
        exact htmp
      rw [if_neg (not_not_intro htmp)] at hb
      cases best with
      | none =>
        simp only at hb
        split_ifs at hb
        · exact hself b hb
        · exact hrest (some tmp) hself hb
      | some a =>
        simp only at hb
        split_ifs at hb
        · exact hself b hb
        · exact hrest (some tmp) hself hb
        · exact hrest (some a) hbest hb
    · rw [if_pos htmp] at hb
      exact hrest best hbest hb

/-- `getblk` chooses a free buffer. -/
theorem chooseFree_count {b : ℕ} (hb : c.chooseFree = some b) : c.count b = 0 := by
  unfold chooseFree at hb
  split at hb
  · cases hb
  · exact scanFree_count (by simp) hb

/-- The scan of the free list chooses a buffer, if one of those it still meets is free. -/
theorem Wf.scanFree_isSome (h : c.Wf free chain) {fuel tmp : ℕ} {u v : List ℕ} {best : Option ℕ}
    (hfree : free = u ++ tmp :: v) (hfuel : v.length < fuel)
    (hsome : best.isSome ∨ ∃ a ∈ tmp :: v, c.count a = 0) : (c.scanFree fuel tmp best).isSome := by
  induction fuel generalizing tmp best u v with
  | zero => exact absurd hfuel (Nat.not_lt_zero _)
  | succ fuel ih =>
    have hring := h.ring
    have hnodup := h.nodup
    unfold Ring at hring
    rw [hfree] at hring hnodup
    have hnext := hring.mid.2
    unfold scanFree
    extract_lets rest
    have hrest : ∀ best' : Option ℕ, (best'.isSome ∨ ∃ a ∈ v, c.count a = 0) →
        (rest best').isSome := by
      intro best' hbest'
      simp only [rest]
      cases v with
      | nil =>
        rw [List.head?_nil, Option.none_or, ← hfree, ← h.head] at hnext
        rw [hnext]
        have hbest : best'.isSome := by simpa using hbest'
        split
        · exact hbest
        · rename_i n hn
          rwa [if_pos hn]
      | cons n v =>
        rw [List.head?_cons, Option.some_or] at hnext
        rw [hnext]
        have hhead : c.freeList ≠ some n := by
          rw [h.head, hfree]
          intro heq
          cases u with
          | nil => simp_all
          | cons a u => simp_all
        dsimp only
        rw [if_neg hhead]
        exact ih (by rw [hfree, List.append_cons]) (Nat.lt_of_succ_lt_succ hfuel) hbest'
    by_cases htmp : c.count tmp = 0
    · rw [if_neg (not_not_intro htmp)]
      cases best with
      | none =>
        simp only
        split_ifs
        · rfl
        · exact hrest (some tmp) (Or.inl rfl)
      | some a =>
        simp only
        split_ifs
        · rfl
        · exact hrest (some tmp) (Or.inl rfl)
        · exact hrest (some a) (Or.inl rfl)
    · rw [if_pos htmp]
      apply hrest
      rcases hsome with hbest | ⟨a, ha, hcount⟩
      · exact Or.inl hbest
      · right
        rcases List.mem_cons.mp ha with rfl | ha
        · exact absurd hcount htmp
        · exact ⟨a, ha, hcount⟩

/-- `getblk` chooses a buffer, if there is a free one. -/
theorem Wf.exists_chooseFree (h : c.Wf free chain) {b : ℕ} (hb : b < c.nrBuffers)
    (hcount : c.count b = 0) : ∃ bh, c.chooseFree = some bh := by
  have hmem := h.mem_free.mpr hb
  have hlength : free.length = c.nrBuffers := by
    rw [h.perm.length_eq, List.length_range]
  rw [← Option.isSome_iff_exists, chooseFree, h.head]
  cases hfree : free with
  | nil =>
    rw [hfree] at hmem
    cases hmem
  | cons f v =>
    rw [List.head?_cons]
    rw [hfree] at hmem hlength
    apply h.scanFree_isSome (u := []) hfree _ (Or.inr ⟨b, hmem, hcount⟩)
    rw [← hlength]
    exact Nat.lt_succ_self _

/-! ### `buffer_init` -/

/-- The cache after `buffer_init`, which does not touch `b_blocknr`. -/
def init (nrBuffers : ℕ) (blocknr : ℕ → ℕ) : Cache where
  nrBuffers := nrBuffers
  dev _ := 0
  blocknr := blocknr
  uptodate _ := false
  dirt _ := false
  lock _ := false
  count _ := 0
  next _ := none
  prev _ := none
  nextFree i := if i + 1 = nrBuffers then some 0 else some (i + 1)
  prevFree i := if i = 0 then some (nrBuffers - 1) else some (i - 1)
  hashTable _ := none
  freeList := some 0

/-- Consecutive buffers are linked. -/
theorem init_dseg (n : ℕ) (blocknr : ℕ → ℕ) {i k : ℕ} (hk : i + 1 + k = n) :
    DSeg (init n blocknr).nextFree (init n blocknr).prevFree (some i) (List.range' (i + 1) k)
      (some 0) := by
  induction k generalizing i with
  | zero => trivial
  | succ k ih =>
    rw [List.range'_succ]
    refine ⟨by simp [init], ?_, ih (by omega)⟩
    simp only [init]
    cases k with
    | zero => rw [if_pos (by omega)]; rfl
    | succ k =>
      rw [if_neg (by omega), List.range'_succ]
      rfl

/-- `buffer_init` sets up the representation: all buffers on the free list, no chains. -/
theorem wf_init {n : ℕ} (hn : 0 < n) (blocknr : ℕ → ℕ) :
    (init n blocknr).Wf (List.range n) fun _ => [] := by
  obtain ⟨k, rfl⟩ : ∃ k, n = k + 1 := ⟨n - 1, by omega⟩
  have hrange : List.range (k + 1) = 0 :: List.range' 1 k := by
    rw [List.range_eq_range', List.range'_succ]
  constructor
  · unfold Ring
    rw [hrange]
    refine ⟨?_, ?_, init_dseg (k + 1) blocknr (by omega)⟩
    · simp only [init, if_true]
      rw [← hrange, List.range_succ, List.getLast?_concat]
      rfl
    · simp only [init, List.head?_cons]
      cases k with
      | zero => simp
      | succ k => rw [if_neg (by omega), List.range'_succ]; rfl
  · rw [hrange]
    rfl
  · exact List.Perm.refl _
  · exact ⟨fun _ => rfl, fun _ => trivial, fun _ => List.nodup_nil, by simp⟩
  · intro h b
    simp [init]
  · intro b _ _
    exact ⟨rfl, rfl⟩
  · intro a b _ _ hdev
    exact absurd rfl hdev

end LihaLinux.Fs.Cache
