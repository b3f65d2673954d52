import LihaLinux.Block.RequestRuns

/-!
# Read-ahead

`breada` reads a block and names others that will be wanted soon. It gets the buffer of each of
these and drops it again, but the request that it makes in between is once more one for the first
block. A call of `breada` is followed through the runs of all tasks: its own calls one after
another, and between their steps whatever the other tasks and the devices do.
-/

namespace LihaLinux.Block

/-- The task that makes an event in its own code, outside the calls. -/
def IoEvent.caller {τ : Type*} : IoEvent τ → Option τ
  | .call t _ | .modify t _ | .drop t _ => some t
  | .exec .. | .interrupt .. => none

/-- What a call returns at the end of a step. -/
def IoNext.result : IoNext → Option (Option ℕ)
  | .ret => some none
  | .got bh => some (some bh)
  | _ => none

namespace BlockIo

variable {τ : Type*} [DecidableEq τ]

/-- The request that a task puts into a queue in an event. -/
def asks (s : BlockIo τ) (t : τ) : IoEvent τ → List Request
  | .exec u _ =>
    if u = t then
      match s.stack t with
      | .addRequest _ req :: _ => [s.tables.requests.request req]
      | _ => []
    else []
  | _ => []

variable [Fintype τ]

/-- An event after which no buffer has more references than `b_count` can count. -/
def BoundedNext (s : BlockIo τ) (e : IoEvent τ) (s' : BlockIo τ) : Prop :=
  s.next e = some s' ∧ ∀ b, s'.bufRefs b ≤ 255

/-- A run in which a task makes no calls of its own, with the requests that it puts into a queue.
In `sync_inodes` the task keeps the buffers that it had before. -/
inductive Within (t : τ) (held : List ℕ) : BlockIo τ → List Request → BlockIo τ → Prop
  | refl (s : BlockIo τ) : Within t held s [] s
  | step {s s₁ s' : BlockIo τ} {e : IoEvent τ} {l : List Request} (hnext : s.BoundedNext e s₁)
      (hcaller : e.caller = some t → s.stack t ≠ [])
      (hheld : ∀ b, held.count b ≤ (s₁.bufs t).count b) (hrest : Within t held s₁ l s') :
      Within t held s (s.asks t e ++ l) s'

/-- A task makes a call and goes on when this has returned a buffer or nothing. -/
inductive Returns (t : τ) (c : IoCall) (s : BlockIo τ) (l : List Request) (r : Option ℕ)
    (s' : BlockIo τ) : Prop
  | intro {s₁ s₂ s₃ : BlockIo τ} {l₁ l₂ : List Request} {f : IoFrame} {ended : Option Bool}
      {w : IoTables} {n : IoNext} (hcall : s.BoundedNext (.call t c) s₁)
      (hrun : Within t (s₁.bufs t) s₁ l₁ s₂) (hstack : s₂.stack t = [f])
      (hexec : f.exec s₂.tables ended = some (w, n)) (hresult : n.result = some r)
      (hreturn : s₂.BoundedNext (.exec t ended) s₃) (hwait : Within t (s₃.bufs t) s₃ l₂ s')
      (hl : l = l₁ ++ s₂.asks t (.exec t ended) ++ l₂)

/-! ### `breada` -/

/-- One block of the list: its buffer, the state in which this is tested, and the requests that are
put into a queue before it is dropped. -/
structure Ahead (τ : Type*) where
  block : ℕ
  tmp : ℕ
  tested : BlockIo τ
  asked : List Request

/-- The loop of `breada(dev,first,...)` over the blocks after the first one, whose buffer is
`bh`. -/
inductive AheadLoop (t : τ) (dev bh : ℕ) :
    List ℕ → BlockIo τ → List (Ahead τ) → BlockIo τ → Prop
  | done (s : BlockIo τ) : AheadLoop t dev bh [] s [] s
  | uptodate {block tmp : ℕ} {blocks : List ℕ} {s s₁ s₂ s' : BlockIo τ} {l : List Request}
      {as : List (Ahead τ)} (hget : Returns t (.getblk dev block) s l (some tmp) s₁)
      (htest : s₁.tables.cache.uptodate tmp = true) (hdrop : s₁.BoundedNext (.drop t tmp) s₂)
      (hrest : AheadLoop t dev bh blocks s₂ as s') :
      AheadLoop t dev bh (block :: blocks) s (⟨block, tmp, s₁, []⟩ :: as) s'
  | read {block tmp : ℕ} {blocks : List ℕ} {s s₁ s₂ s₃ s' : BlockIo τ}
      {l asked : List Request} {as : List (Ahead τ)}
      (hget : Returns t (.getblk dev block) s l (some tmp) s₁)
      (htest : s₁.tables.cache.uptodate tmp = false)
      (hread : Returns t (.llRwBlock .readAhead bh) s₁ asked none s₂)
      (hdrop : s₂.BoundedNext (.drop t tmp) s₃) (hrest : AheadLoop t dev bh blocks s₃ as s') :
      AheadLoop t dev bh (block :: blocks) s (⟨block, tmp, s₁, asked⟩ :: as) s'

/-- The test of the first buffer in `breada`, and its request. -/
inductive FirstRead (t : τ) (bh : ℕ) (s : BlockIo τ) : BlockIo τ → Prop
  | uptodate (htest : s.tables.cache.uptodate bh = true) : FirstRead t bh s s
  | read {s' : BlockIo τ} {l : List Request} (htest : s.tables.cache.uptodate bh = false)
      (hread : Returns t (.llRwBlock .read bh) s l none s') : FirstRead t bh s s'

/-- `breada(dev,first,...)` with the buffer of the first block, the other blocks, and the result. -/
inductive Breada (t : τ) (dev first : ℕ) (blocks : List ℕ) (s : BlockIo τ) (bh : ℕ)
    (as : List (Ahead τ)) : Option ℕ → BlockIo τ → Prop
  | found {s₁ s₂ s₃ s' : BlockIo τ} {l l' : List Request}
      (hget : Returns t (.getblk dev first) s l (some bh) s₁) (hread : FirstRead t bh s₁ s₂)
      (hloop : AheadLoop t dev bh blocks s₂ as s₃)
      (hwait : Returns t (.waitOnBuffer bh) s₃ l' none s')
      (htest : s'.tables.cache.uptodate bh = true) :
      Breada t dev first blocks s bh as (some bh) s'
  | unreadable {s₁ s₂ s₃ s₄ s' : BlockIo τ} {l l' l'' : List Request}
      (hget : Returns t (.getblk dev first) s l (some bh) s₁) (hread : FirstRead t bh s₁ s₂)
      (hloop : AheadLoop t dev bh blocks s₂ as s₃)
      (hwait : Returns t (.waitOnBuffer bh) s₃ l' none s₄)
      (htest : s₄.tables.cache.uptodate bh = false)
      (hbrelse : Returns t (.brelse bh) s₄ l'' none s') :
      Breada t dev first blocks s bh as none s'

omit [DecidableEq τ] [Fintype τ] in
/-- The buffer of a listed block has to be read, and there is a request for it. -/
def Ahead.Needed (a : Ahead τ) : Prop :=
  a.tested.tables.cache.uptodate a.tmp = false ∧ a.tested.tables.cache.lock a.tmp = false ∧
    ∃ i < nrRequest, (a.tested.tables.requests.request i).dev < 0

omit [DecidableEq τ] [Fintype τ] in
/-- A request to read a listed block is put into a queue. -/
def Ahead.Queued (a : Ahead τ) (dev : ℕ) : Prop :=
  ∃ r ∈ a.asked, r.cmd = rwRead ∧ r.dev = dev ∧ r.sector = a.block * 2 % 4294967296 ∧
    r.bh = some a.tmp

end BlockIo

/-! ### The blocks of the buffers -/

/-- The end of a request leaves the blocks of the buffers. -/
theorem IoTables.endRequest_blocks {w w' : IoTables} {major : ℕ} {uptodate : Bool}
    (h : w.endRequest major uptodate = some w') :
    w'.cache.dev = w.cache.dev ∧ w'.cache.blocknr = w.cache.blocknr := by
  obtain ⟨req, -, h⟩ := Option.bind_eq_some_iff.mp h
  obtain ⟨r, -, rfl⟩ := Option.map_eq_some_iff.mp h
  cases (w.requests.request req).bh with
  | none => exact ⟨rfl, rfl⟩
  | some bh => exact ⟨rfl, rfl⟩

/-- A step leaves the blocks of the buffers, or it is the end of a `getblk` that takes a free
buffer. -/
theorem IoFrame.exec_blocks {w w' : IoTables} {ended : Option Bool} {f : IoFrame} {n : IoNext}
    (h : f.exec w ended = some (w', n)) :
    (w'.cache.dev = w.cache.dev ∧ w'.cache.blocknr = w.cache.blocknr) ∨
      ∃ dev block bh c, f = .getblkWait dev block bh ∧ w.cache.count bh = 0 ∧
        w.cache.assign dev block bh = some c ∧ w' = w.withCache c ∧ n = .got bh := by
  cases f
  case getblkWait dev block bh =>
    simp only [exec] at h
    split at h
    · obtain ⟨rfl, -⟩ := Prod.mk.inj (Option.some.inj h)
      exact Or.inl ⟨rfl, rfl⟩
    · split at h
      · obtain ⟨rfl, -⟩ := Prod.mk.inj (Option.some.inj h)
        exact Or.inl ⟨rfl, rfl⟩
      · rename_i hcount
        split at h
        · obtain ⟨rfl, -⟩ := Prod.mk.inj (Option.some.inj h)
          exact Or.inl ⟨rfl, rfl⟩
        · split at h
          · obtain ⟨rfl, -⟩ := Prod.mk.inj (Option.some.inj h)
            exact Or.inl ⟨rfl, rfl⟩
          · obtain ⟨c, hassign, h⟩ := Option.map_eq_some_iff.mp h
            obtain ⟨rfl, rfl⟩ := Prod.mk.inj h
            exact Or.inr ⟨dev, block, bh, c, rfl, not_not.mp hcount, hassign, rfl, rfl⟩
  case addRequest major req =>
    obtain ⟨w₁, hadd, h⟩ := Option.map_eq_some_iff.mp h
    obtain ⟨rfl, -⟩ := Prod.mk.inj h
    obtain ⟨r, -, rfl⟩ := Option.map_eq_some_iff.mp hadd
    cases (w.requests.request req).bh with
    | none => exact Or.inl ⟨rfl, rfl⟩
    | some bh => exact Or.inl ⟨rfl, rfl⟩
  case requestFn major =>
    simp only [exec] at h
    split at h
    · cases h
    · split at h
      · obtain ⟨w₁, hend, h⟩ := Option.map_eq_some_iff.mp h
        obtain ⟨rfl, -⟩ := Prod.mk.inj h
        exact Or.inl (IoTables.endRequest_blocks hend)
      · obtain ⟨rfl, -⟩ := Prod.mk.inj (Option.some.inj h)
        exact Or.inl ⟨rfl, rfl⟩
  case scanFree dev block tmp best =>
    simp only [exec] at h
    split at h
    · obtain ⟨rfl, -⟩ := Prod.mk.inj (Option.some.inj h)
      exact Or.inl ⟨rfl, rfl⟩
    · obtain ⟨next, -, h⟩ := Option.map_eq_some_iff.mp h
      have hw : w' = w := by
        split at h
        · split at h
          · exact (Prod.mk.inj h).1.symm
          · exact (Prod.mk.inj h).1.symm
        · exact (Prod.mk.inj h).1.symm
      rw [hw]
      exact Or.inl ⟨rfl, rfl⟩
  case hash get dev block =>
    simp only [exec] at h
    split at h
    · obtain ⟨rfl, -⟩ := Prod.mk.inj (Option.some.inj h)
      exact Or.inl ⟨rfl, rfl⟩
    · split at h
      · obtain ⟨tmp, -, h⟩ := Option.map_eq_some_iff.mp h
        obtain ⟨rfl, -⟩ := Prod.mk.inj h
        exact Or.inl ⟨rfl, rfl⟩
      · obtain ⟨rfl, -⟩ := Prod.mk.inj (Option.some.inj h)
        exact Or.inl ⟨rfl, rfl⟩
  case syncInodes dev => cases dev <;> cases h <;> exact Or.inl ⟨rfl, rfl⟩
  case findRequest cmd ahead major bh i =>
    cases i with
    | zero =>
      simp only [exec] at h
      split at h <;> cases h <;> exact Or.inl ⟨rfl, rfl⟩
    | succ i =>
      simp only [exec] at h
      split at h <;> cases h <;> exact Or.inl ⟨rfl, rfl⟩
  case fillRequest cmd major bh req =>
    cases h
    exact Or.inl ⟨rfl, rfl⟩
  -- the other calls change counters, flags and locks
  all_goals
    apply Or.inl
    revert h
    simp only [exec]
    repeat' split
    all_goals
      intro h
      cases h <;> exact ⟨rfl, rfl⟩

/-! ### `getblk` -/

/-- A call of `getblk` for a block. -/
def IoFrame.Getblk (dev block : ℕ) : IoFrame → Prop
  | .hash get dev' block' | .hashWait get dev' block' _ => get = true ∧ dev' = dev ∧ block' = block
  | .scanFree dev' block' _ _ | .getblkWait dev' block' _ => dev' = dev ∧ block' = block
  | _ => False

/-- A call of `getblk` goes on as one for its block, or returns a buffer of the block. -/
theorem IoFrame.Getblk.exec {dev block : ℕ} {w w' : IoTables} {ended : Option Bool} {f : IoFrame}
    {n : IoNext} (hf : f.Getblk dev block) (h : f.exec w ended = some (w', n)) :
    match n with
    | .go g | .sleep g | .call g _ => g.Getblk dev block
    | .ret => False
    | .got bh => w'.cache.dev bh = dev ∧ w'.cache.blocknr bh = block := by
  cases f
  case hash get dev' block' =>
    obtain ⟨rfl, rfl, rfl⟩ := hf
    simp only [IoFrame.exec, if_true] at h
    split at h
    · cases h
      exact ⟨rfl, rfl, rfl⟩
    · obtain ⟨tmp, -, h⟩ := Option.map_eq_some_iff.mp h
      cases h
      exact ⟨rfl, rfl⟩
  case hashWait get dev' block' bh =>
    obtain ⟨rfl, rfl, rfl⟩ := hf
    simp only [IoFrame.exec] at h
    split at h
    · cases h
      exact ⟨rfl, rfl, rfl⟩
    · split at h
      · rename_i hblock
        cases h
        exact hblock
      · cases h
        exact ⟨rfl, rfl, rfl⟩
  case scanFree dev' block' tmp best =>
    obtain ⟨rfl, rfl⟩ := hf
    simp only [IoFrame.exec] at h
    split at h
    · cases h
      exact ⟨rfl, rfl⟩
    · obtain ⟨next, -, h⟩ := Option.map_eq_some_iff.mp h
      split at h
      · split at h
        · cases h
          exact ⟨rfl, rfl, rfl⟩
        · cases h
          exact ⟨rfl, rfl⟩
      · cases h
        exact ⟨rfl, rfl⟩
  case getblkWait dev' block' bh =>
    obtain ⟨rfl, rfl⟩ := hf
    simp only [IoFrame.exec] at h
    split at h
    · cases h
      exact ⟨rfl, rfl⟩
    · split at h
      · cases h
        exact ⟨rfl, rfl, rfl⟩
      · split at h
        · cases h
          exact ⟨rfl, rfl⟩
        · split at h
          · cases h
            exact ⟨rfl, rfl, rfl⟩
          · obtain ⟨c, hassign, h⟩ := Option.map_eq_some_iff.mp h
            cases h
            have hassigned := assigned_of_assign hassign
            change c.dev bh = dev' ∧ c.blocknr bh = block'
            rw [hassigned.dev, hassigned.blocknr, Function.update_self, Function.update_self]
            exact ⟨rfl, rfl⟩
  all_goals exact hf.elim

namespace BlockIo

variable {τ : Type*} [DecidableEq τ]

/-! ### One event -/

/-- A step of the topmost call of a task. -/
theorem exec_cases {s s' : BlockIo τ} {t : τ} {ended : Option Bool}
    (h : s.next (.exec t ended) = some s') :
    s.MayRun t ∧ ∃ f rest w n, s.stack t = f :: rest ∧ f.exec s.tables ended = some (w, n) ∧
      s' = s.after t rest w n := by
  simp only [BlockIo.next, Option.ite_none_right_eq_some, execTop] at h
  obtain ⟨hrun, h⟩ := h
  cases hstack : s.stack t with
  | nil =>
    rw [hstack] at h
    cases h
  | cons f rest =>
    rw [hstack] at h
    obtain ⟨⟨w, n⟩, hexec, rfl⟩ := Option.map_eq_some_iff.mp h
    exact ⟨hrun, f, rest, w, n, rfl, hexec, rfl⟩

/-- What an event does to the calls of a task. -/
theorem next_task {s s' : BlockIo τ} {e : IoEvent τ} (h : s.next e = some s') (t : τ) :
    s'.stack t = s.stack t ∧ s.asks t e = [] ∧ (∀ ended, e ≠ .exec t ended) ∨
      (∃ c, e = .call t c ∧ s' = s.enter t c) ∨
      ∃ ended f rest w n, e = .exec t ended ∧ s.stack t = f :: rest ∧
        f.exec s.tables ended = some (w, n) ∧ s' = s.after t rest w n := by
  cases e with
  | call u c =>
    simp only [BlockIo.next, Option.ite_none_right_eq_some, Option.some.injEq] at h
    obtain ⟨-, rfl⟩ := h
    by_cases hu : t = u
    · subst hu
      exact Or.inr (Or.inl ⟨c, rfl, rfl⟩)
    · exact Or.inl ⟨Function.update_of_ne hu .., rfl, by simp⟩
  | exec u ended =>
    obtain ⟨-, f, rest, w, n, hstack, hexec, rfl⟩ := exec_cases h
    by_cases hu : t = u
    · subst hu
      exact Or.inr (Or.inr ⟨ended, f, rest, w, n, rfl, hstack, hexec, rfl⟩)
    · refine Or.inl ⟨Function.update_of_ne hu .., if_neg (Ne.symm hu), ?_⟩
      intro ended' he
      cases he
      exact hu rfl
  | interrupt major uptodate =>
    obtain ⟨w, -, rfl⟩ := Option.map_eq_some_iff.mp h
    exact Or.inl ⟨rfl, rfl, by simp⟩
  | modify u bh =>
    simp only [BlockIo.next, Option.ite_none_right_eq_some, Option.some.injEq] at h
    obtain ⟨-, rfl⟩ := h
    exact Or.inl ⟨rfl, rfl, by simp⟩
  | drop u bh =>
    simp only [BlockIo.next, Option.ite_none_right_eq_some, Option.some.injEq] at h
    obtain ⟨-, rfl⟩ := h
    exact Or.inl ⟨rfl, rfl, by simp⟩

/-- The state after a call has been made. -/
theorem call_cases {s s' : BlockIo τ} {t : τ} {c : IoCall} (h : s.next (.call t c) = some s') :
    atCaller (s.stack t) = true ∧ s' = s.enter t c ∧ s'.stack t = c.frame :: s.stack t ∧
      s'.bufs t = (s.bufs t).diff c.released.toList := by
  simp only [BlockIo.next, Option.ite_none_right_eq_some, Option.some.injEq] at h
  obtain ⟨⟨⟨-, hcaller⟩, -⟩, rfl⟩ := h
  exact ⟨hcaller, rfl, Function.update_self .., Function.update_self ..⟩

/-- The state after the last call of a task has returned. -/
theorem return_cases {s s' : BlockIo τ} {t : τ} {f : IoFrame} {ended : Option Bool}
    {w : IoTables} {n : IoNext} {r : Option ℕ} (h : s.next (.exec t ended) = some s')
    (hstack : s.stack t = [f]) (hexec : f.exec s.tables ended = some (w, n))
    (hresult : n.result = some r) :
    s'.tables = w ∧ s'.stack t = [] ∧ s'.bufs t = r.toList ++ s.bufs t := by
  obtain ⟨-, f', rest, w', n', hstack', hexec', rfl⟩ := exec_cases h
  rw [hstack] at hstack'
  obtain ⟨rfl, rfl⟩ := List.cons.inj hstack'
  rw [hexec] at hexec'
  obtain ⟨rfl, rfl⟩ := Prod.mk.inj (Option.some.inj hexec')
  refine ⟨rfl, ?_, ?_⟩
  · rw [after_stack]
    cases n with
    | ret => rfl
    | got bh => rfl
    | _ => cases hresult
  · rw [after_bufs]
    cases n with
    | ret =>
      obtain rfl : none = r := Option.some.inj hresult
      rfl
    | got bh =>
      obtain rfl : some bh = r := Option.some.inj hresult
      rfl
    | _ => cases hresult

variable [Fintype τ]

/-- A buffer that a task holds keeps its block. -/
theorem RunInv.blocks {s s' : BlockIo τ} {e : IoEvent τ} (h : s.RunInv)
    (hnext : s.next e = some s') {u : τ} {b : ℕ} (hb : b ∈ s.bufs u) :
    s'.tables.cache.dev b = s.tables.cache.dev b ∧
      s'.tables.cache.blocknr b = s.tables.cache.blocknr b := by
  cases e with
  | call t c =>
    simp only [BlockIo.next, Option.ite_none_right_eq_some, Option.some.injEq] at hnext
    obtain ⟨-, rfl⟩ := hnext
    exact ⟨rfl, rfl⟩
  | exec t ended =>
    obtain ⟨-, f, rest, w, n, -, hexec, rfl⟩ := exec_cases hnext
    change w.cache.dev b = _ ∧ w.cache.blocknr b = _
    rcases IoFrame.exec_blocks hexec with ⟨hdev, hblock⟩ |
      ⟨dev, block, bh, c, -, hcount, hassign, rfl, -⟩
    · rw [hdev, hblock]
      exact ⟨rfl, rfl⟩
    · have hne : b ≠ bh := by
        rintro rfl
        exact h.counted.free h.bound hcount u hb
      have hassigned := assigned_of_assign hassign
      change c.dev b = _ ∧ c.blocknr b = _
      rw [hassigned.dev, hassigned.blocknr, Function.update_of_ne hne, Function.update_of_ne hne]
      exact ⟨rfl, rfl⟩
  | interrupt major uptodate =>
    obtain ⟨w, hend, rfl⟩ := Option.map_eq_some_iff.mp hnext
    obtain ⟨hdev, hblock⟩ := IoTables.endRequest_blocks hend
    change w.cache.dev b = _ ∧ w.cache.blocknr b = _
    rw [hdev, hblock]
    exact ⟨rfl, rfl⟩
  | modify t bh =>
    simp only [BlockIo.next, Option.ite_none_right_eq_some, Option.some.injEq] at hnext
    obtain ⟨-, rfl⟩ := hnext
    exact ⟨rfl, rfl⟩
  | drop t bh =>
    simp only [BlockIo.next, Option.ite_none_right_eq_some, Option.some.injEq] at hnext
    obtain ⟨-, rfl⟩ := hnext
    exact ⟨rfl, rfl⟩

theorem BoundedNext.runInv {s s' : BlockIo τ} {e : IoEvent τ} (hnext : s.BoundedNext e s')
    (h : s.RunInv) : s'.RunInv := h.step ⟨⟨e, hnext.1⟩, hnext.2⟩

/-! ### Between the calls -/

/-- The buffer is one of the block in both states. -/
def SameBlock (s s' : BlockIo τ) (b : ℕ) : Prop :=
  s'.tables.cache.dev b = s.tables.cache.dev b ∧
    s'.tables.cache.blocknr b = s.tables.cache.blocknr b

omit [DecidableEq τ] [Fintype τ] in
theorem SameBlock.trans {s s' s'' : BlockIo τ} {b : ℕ} (h : s.SameBlock s' b)
    (h' : s'.SameBlock s'' b) : s.SameBlock s'' b := ⟨h'.1.trans h.1, h'.2.trans h.2⟩

/-- The buffers that a task has kept in a run keep their blocks. -/
theorem Within.sameBlock {t : τ} {held : List ℕ} {s s' : BlockIo τ} {l : List Request}
    (h : Within t held s l s') (hinv : s.RunInv)
    (hheld : ∀ b, held.count b ≤ (s.bufs t).count b) :
    s'.RunInv ∧ (∀ b, held.count b ≤ (s'.bufs t).count b) ∧ ∀ b ∈ held, s.SameBlock s' b := by
  induction h with
  | refl s => exact ⟨hinv, hheld, fun b _ => ⟨rfl, rfl⟩⟩
  | @step s s₁ s' e l hnext _ hheld₁ _ ih =>
    obtain ⟨hinv', hheld', hsame⟩ := ih (hnext.runInv hinv) hheld₁
    refine ⟨hinv', hheld', fun b hb => ?_⟩
    have hpos : 0 < (s.bufs t).count b :=
      Nat.lt_of_lt_of_le (List.count_pos_iff.mpr hb) (hheld b)
    exact SameBlock.trans (hinv.blocks hnext.1 (List.count_pos_iff.mp hpos)) (hsame b hb)

/-- A task that has returned from its calls makes no more of them. -/
theorem Within.idle {t : τ} {held : List ℕ} {s s' : BlockIo τ} {l : List Request}
    (h : Within t held s l s') (hstack : s.stack t = []) : s'.stack t = [] ∧ l = [] := by
  induction h with
  | refl s => exact ⟨hstack, rfl⟩
  | @step s s₁ s' e l hnext hcaller _ _ ih =>
    rcases next_task hnext.1 t with ⟨hsame, hasks, -⟩ | ⟨c, rfl, -⟩ |
      ⟨ended, f, rest, w, n, rfl, hf, -⟩
    · obtain ⟨hidle, rfl⟩ := ih (hsame.trans hstack)
      rw [hasks]
      exact ⟨hidle, rfl⟩
    · exact absurd hstack (hcaller rfl)
    · exact absurd (hf.symm.trans hstack) (List.cons_ne_nil _ _)

omit [DecidableEq τ] [Fintype τ] in
theorem getLast?_stackAfter {rest : List IoFrame} (h : rest ≠ []) (n : IoNext) :
    (stackAfter rest n).getLast? = rest.getLast? := by
  obtain ⟨g, l, rfl⟩ := List.exists_cons_of_ne_nil h
  cases n with
  | go f => exact List.getLast?_cons_cons
  | sleep f => exact List.getLast?_cons_cons
  | call f callee => exact List.getLast?_cons_cons.trans List.getLast?_cons_cons
  | ret => rfl
  | got bh => rfl

/-- While a task has not returned from `getblk`, this is the lowest of its calls. -/
theorem Within.getblk {t : τ} {held : List ℕ} {s s' : BlockIo τ} {l : List Request}
    {dev block : ℕ} (h : Within t held s l s')
    (hstack : s.stack t = [] ∨ ∃ g ∈ (s.stack t).getLast?, g.Getblk dev block) :
    s'.stack t = [] ∨ ∃ g ∈ (s'.stack t).getLast?, g.Getblk dev block := by
  induction h with
  | refl s => exact hstack
  | @step s s₁ s' e l hnext hcaller _ _ ih =>
    apply ih
    rcases next_task hnext.1 t with ⟨hsame, -⟩ | ⟨c, rfl, rfl⟩ |
      ⟨ended, f, rest, w, n, rfl, hf, hexec, rfl⟩
    · rwa [hsame]
    · obtain ⟨f, rest, hf⟩ := List.exists_cons_of_ne_nil (hcaller rfl)
      have henter : (s.enter t c).stack t = c.frame :: s.stack t := Function.update_self ..
      rw [henter, hf, List.getLast?_cons_cons]
      rw [hf] at hstack
      exact Or.inr (hstack.resolve_left (List.cons_ne_nil _ _))
    · rw [after_stack]
      rw [hf] at hstack
      obtain ⟨g, hg, hgetblk⟩ := hstack.resolve_left (List.cons_ne_nil _ _)
      by_cases hrest : rest = []
      · subst hrest
        obtain rfl : f = g := Option.some.inj hg
        have hnext := hgetblk.exec hexec
        cases n with
        | go g => exact Or.inr ⟨g, rfl, hnext⟩
        | sleep g => exact Or.inr ⟨g, rfl, hnext⟩
        | call g callee => exact Or.inr ⟨g, rfl, hnext⟩
        | ret => exact hnext.elim
        | got bh => exact Or.inl rfl
      · right
        obtain ⟨a, l, rfl⟩ := List.exists_cons_of_ne_nil hrest
        rw [getLast?_stackAfter hrest]
        rw [List.getLast?_cons_cons] at hg
        exact ⟨g, hg, hgetblk⟩

/-- What is known of a task after a call: it has the buffers that it has not released, with the one
that is returned, and those that it had keep their blocks. -/
structure Back (t : τ) (c : IoCall) (s : BlockIo τ) (r : Option ℕ) (s' : BlockIo τ) : Prop where
  runInv : s'.RunInv
  stack : s'.stack t = []
  bufs : ∀ b, (r.toList ++ (s.bufs t).diff c.released.toList).count b ≤ (s'.bufs t).count b
  sameBlock : ∀ b ∈ (s.bufs t).diff c.released.toList, s.SameBlock s' b
  getblk : ∀ dev block, c = .getblk dev block → ∃ bh, r = some bh ∧
    s'.tables.cache.dev bh = dev ∧ s'.tables.cache.blocknr bh = block

theorem Returns.back {t : τ} {c : IoCall} {s s' : BlockIo τ} {l : List Request} {r : Option ℕ}
    (h : Returns t c s l r s') (hinv : s.RunInv) (hidle : s.stack t = []) : Back t c s r s' := by
  obtain ⟨hcall, hrun, hstack, hexec, hresult, hreturn, hwait, -⟩ := h
  rename_i s₁ s₂ s₃ l₁ l₂ f ended w n
  obtain ⟨-, henter, hstack₁, hbufs₁⟩ := call_cases hcall.1
  obtain ⟨hinv₂, hheld₂, hsame₂⟩ := hrun.sameBlock (hcall.runInv hinv) fun _ => Nat.le_refl _
  obtain ⟨hw, hstack₃, hbufs₃⟩ := return_cases hreturn.1 hstack hexec hresult
  have hinv₃ := hreturn.runInv hinv₂
  obtain ⟨hinv', hheld', hsame'⟩ := hwait.sameBlock hinv₃ fun _ => Nat.le_refl _
  rw [hbufs₁] at hheld₂ hsame₂
  rw [hbufs₃] at hheld' hsame'
  constructor
  · exact hinv'
  · exact (hwait.idle hstack₃).1
  · intro b
    have h₂ := hheld₂ b
    have h' := hheld' b
    rw [List.count_append] at h' ⊢
    omega
  · intro b hb
    have hmem : b ∈ s₂.bufs t :=
      List.count_pos_iff.mp (Nat.lt_of_lt_of_le (List.count_pos_iff.mpr hb) (hheld₂ b))
    have h₁ : s.SameBlock s₁ b := by
      rw [henter]
      exact ⟨rfl, rfl⟩
    exact (h₁.trans (hsame₂ b hb)).trans
      (SameBlock.trans (hinv₂.blocks hreturn.1 hmem) (hsame' b (List.mem_append_right _ hmem)))
  · rintro dev block rfl
    have hbottom : s₁.stack t = [] ∨ ∃ g ∈ (s₁.stack t).getLast?, g.Getblk dev block := by
      rw [hstack₁, hidle]
      exact Or.inr ⟨_, rfl, rfl, rfl, rfl⟩
    have hbottom₂ := hrun.getblk hbottom
    rw [hstack] at hbottom₂
    obtain ⟨g, hg, hgetblk⟩ := hbottom₂.resolve_left (List.cons_ne_nil _ _)
    obtain rfl : f = g := Option.some.inj hg
    have hnext := hgetblk.exec hexec
    cases n with
    | ret => exact hnext.elim
    | got bh =>
      obtain rfl : some bh = r := Option.some.inj hresult
      obtain ⟨hdev, hblock⟩ := hsame' bh (List.mem_append_left _ List.mem_cons_self)
      rw [hw] at hdev hblock
      exact ⟨bh, rfl, hdev.trans hnext.1, hblock.trans hnext.2⟩
    | _ => cases hresult

/-! ### `ll_rw_block(READA,bh)` -/

omit [DecidableEq τ] [Fintype τ] in
/-- What the end of a request does to the tables. -/
theorem LockInv.endRequest_effect {s : BlockIo τ} {q : ℕ → List ℕ} (h : s.LockInv q) {major : ℕ}
    {uptodate : Bool} {w : IoTables} (hend : s.tables.endRequest major uptodate = some w) :
    ∃ i b, s.Holds q (.inr i) b ∧ w.driver = s.tables.driver ∧
      w.cache = (s.tables.cache.setUptodate b uptodate).setLock b false ∧
      (w.requests.request i).dev < 0 ∧
      ∀ j, j ≠ i → w.requests.request j = s.tables.requests.request j := by
  obtain ⟨i, hcur, hend⟩ := Option.bind_eq_some_iff.mp hend
  obtain ⟨r, hr, rfl⟩ := Option.map_eq_some_iff.mp hend
  obtain ⟨-, i', hfront, hdev, hother, -⟩ := h.queues.endRequest hr
  obtain rfl : i = i' := by
    have hhead := (h.queues.linked major).head
    rw [hcur, hfront] at hhead
    exact Option.some.inj hhead
  have hi : i ∈ q major := by
    rw [hfront]
    exact List.mem_cons_self
  obtain ⟨b, hb, -⟩ := (h.entry hi).bh
  rw [hb]
  refine ⟨i, b, ⟨⟨major, hi⟩, hb⟩, rfl, rfl, ?_, hother⟩
  change (r.request i).dev < 0
  rw [hdev]
  decide

omit [Fintype τ] in
/-- Devices keep their drivers. -/
theorem next_driver {s s' : BlockIo τ} {e : IoEvent τ} (h : s.next e = some s') :
    s'.tables.driver = s.tables.driver := by
  have hend {w w' : IoTables} {major : ℕ} {uptodate : Bool}
      (h : w.endRequest major uptodate = some w') : w'.driver = w.driver := by
    obtain ⟨req, -, h⟩ := Option.bind_eq_some_iff.mp h
    obtain ⟨r, -, rfl⟩ := Option.map_eq_some_iff.mp h
    cases (w.requests.request req).bh with
    | none => rfl
    | some bh => rfl
  cases e with
  | call t c =>
    obtain ⟨-, rfl, -⟩ := call_cases h
    rfl
  | exec t ended =>
    obtain ⟨-, f, rest, w, n, -, hexec, rfl⟩ := exec_cases h
    change w.driver = s.tables.driver
    cases IoFrame.exec_effect hexec with
    | quiet => rfl
    | assign => rfl
    | lock => rfl
    | unlock => rfl
    | fill => rfl
    | @add major req _ _ hadd _ =>
      obtain ⟨r, -, rfl⟩ := Option.map_eq_some_iff.mp hadd
      cases (s.tables.requests.request req).bh with
      | none => rfl
      | some bh => rfl
    | finish hfinish => exact hend hfinish
  | interrupt major uptodate =>
    obtain ⟨w, hfinish, rfl⟩ := Option.map_eq_some_iff.mp h
    exact hend hfinish
  | modify t bh =>
    simp only [BlockIo.next, Option.ite_none_right_eq_some, Option.some.injEq] at h
    obtain ⟨-, rfl⟩ := h
    rfl
  | drop t bh =>
    simp only [BlockIo.next, Option.ite_none_right_eq_some, Option.some.injEq] at h
    obtain ⟨-, rfl⟩ := h
    rfl

end BlockIo

/-- A device has a driver. -/
def IoTables.Driven (w : IoTables) (dev : ℕ) : Prop :=
  majorOf dev < nrBlkDev ∧ w.driver (majorOf dev) = true

/-- A request reads the block of a buffer. -/
structure Reads (w : IoTables) (bh : ℕ) (r : Request) : Prop where
  cmd : r.cmd = rwRead
  dev : r.dev = w.cache.dev bh
  sector : r.sector = w.cache.blocknr bh * 2 % 4294967296
  buffer : r.bh = some bh
  driven : w.Driven (w.cache.dev bh)

/-- A call of `ll_rw_block(READA,bh)`. -/
def IoFrame.Reading (w : IoTables) (bh : ℕ) : IoFrame → Prop
  | .llRwBlock rw b => rw = .readAhead ∧ b = bh
  | .lockBuffer cmd ahead _ b | .testBuffer cmd ahead _ b | .findRequest cmd ahead _ b _ =>
    cmd = rwRead ∧ ahead = true ∧ b = bh ∧ w.Driven (w.cache.dev bh)
  | .fillRequest cmd _ b _ => cmd = rwRead ∧ b = bh ∧ w.Driven (w.cache.dev bh)
  | .addRequest _ req => Reads w bh (w.requests.request req)
  | .requestFn _ => True
  | _ => False

theorem Reads.congr {w w' : IoTables} {bh : ℕ} {r : Request} (h : Reads w bh r)
    (hdev : w'.cache.dev bh = w.cache.dev bh) (hblock : w'.cache.blocknr bh = w.cache.blocknr bh)
    (hdriver : w'.driver = w.driver) : Reads w' bh r := by
  constructor
  · exact h.cmd
  · rw [hdev, h.dev]
  · rw [hblock, h.sector]
  · exact h.buffer
  · rw [IoTables.Driven, hdev, hdriver]
    exact h.driven

/-- What other tasks and the devices do leaves the call as it is. -/
theorem IoFrame.Reading.congr {w w' : IoTables} {bh : ℕ} {f : IoFrame} (h : f.Reading w bh)
    (hdev : w'.cache.dev bh = w.cache.dev bh) (hblock : w'.cache.blocknr bh = w.cache.blocknr bh)
    (hdriver : w'.driver = w.driver) (hrequest : ∀ major req, f = .addRequest major req →
      w'.requests.request req = w.requests.request req) : f.Reading w' bh := by
  have hdriven : w.Driven (w.cache.dev bh) → w'.Driven (w'.cache.dev bh) := by
    rw [IoTables.Driven, IoTables.Driven, hdev, hdriver]
    exact id
  cases f
  case llRwBlock rw b => exact h
  case lockBuffer cmd ahead major b => exact ⟨h.1, h.2.1, h.2.2.1, hdriven h.2.2.2⟩
  case testBuffer cmd ahead major b => exact ⟨h.1, h.2.1, h.2.2.1, hdriven h.2.2.2⟩
  case findRequest cmd ahead major b i => exact ⟨h.1, h.2.1, h.2.2.1, hdriven h.2.2.2⟩
  case fillRequest cmd major b req => exact ⟨h.1, h.2.1, hdriven h.2.2⟩
  case addRequest major req =>
    change Reads w' bh (w'.requests.request req)
    rw [hrequest major req rfl]
    exact Reads.congr h hdev hblock hdriver
  case requestFn major => trivial
  all_goals exact h.elim

/-- The call goes on, or returns nothing. -/
theorem IoFrame.Reading.exec {w w' : IoTables} {bh : ℕ} {f : IoFrame} {ended : Option Bool}
    {n : IoNext} (hf : f.Reading w bh) (h : f.exec w ended = some (w', n)) :
    match n with
    | .go g | .sleep g => g.Reading w' bh
    | .ret => True
    | _ => False := by
  cases f
  case llRwBlock rw b =>
    obtain ⟨rfl, rfl⟩ := hf
    simp only [IoFrame.exec] at h
    split at h
    · cases h
      trivial
    · rename_i hdriven
      split at h
      · cases h
        trivial
      · cases h
        rw [not_or, Nat.not_le, Bool.not_eq_false] at hdriven
        exact ⟨rfl, rfl, rfl, hdriven⟩
  case lockBuffer cmd ahead major b =>
    simp only [IoFrame.exec] at h
    split at h
    · cases h
      exact hf
    · cases h
      exact hf
  case testBuffer cmd ahead major b =>
    simp only [IoFrame.exec] at h
    split at h
    · cases h
      trivial
    · cases h
      exact hf
  case findRequest cmd ahead major b i =>
    cases i with
    | zero =>
      simp only [IoFrame.exec, hf.2.1, if_true] at h
      cases h
      trivial
    | succ i =>
      simp only [IoFrame.exec] at h
      split at h
      · cases h
        exact ⟨hf.1, hf.2.2⟩
      · cases h
        exact hf
  case fillRequest cmd major b req =>
    obtain ⟨rfl, rfl, hdriven⟩ := hf
    cases h
    change Reads _ b ((w.fillRequest rwRead b req).requests.request req)
    rw [IoTables.fillRequest, IoTables.withRequests, Requests.setRequest_self]
    exact ⟨rfl, rfl, rfl, rfl, hdriven⟩
  case addRequest major req =>
    obtain ⟨w₁, -, h⟩ := Option.map_eq_some_iff.mp h
    by_cases hidle : (w.requests.currentRequest major).isNone = true
    · rw [if_pos hidle] at h
      cases h
      trivial
    · rw [if_neg hidle] at h
      cases h
      trivial
  case requestFn major =>
    simp only [IoFrame.exec] at h
    split at h
    · cases h
    · split at h
      · obtain ⟨w₁, -, h⟩ := Option.map_eq_some_iff.mp h
        cases h
        trivial
      · cases h
        trivial
  all_goals exact hf.elim

namespace BlockIo

variable {τ : Type*} [DecidableEq τ] [Fintype τ]

omit [Fintype τ] in
/-- A request that a task is about to put into a queue does not change. -/
theorem LockInv.next_request {s s' : BlockIo τ} {q : ℕ → List ℕ} (h : s.LockInv q)
    {t : τ} {major req : ℕ} {rest : List IoFrame} {e : IoEvent τ}
    (hstack : s.stack t = .addRequest major req :: rest) (hnext : s.next e = some s')
    (hother : ∀ ended, e ≠ .exec t ended) :
    s'.tables.requests.request req = s.tables.requests.request req := by
  obtain ⟨hrunning, hentry, -⟩ := (h.top hstack).1
  cases e with
  | call u c =>
    obtain ⟨-, rfl, -⟩ := call_cases hnext
    rfl
  | exec u ended =>
    obtain ⟨hrun, -⟩ := exec_cases hnext
    rw [MayRun, hrunning] at hrun
    rcases hrun with hrun | hrun
    · cases hrun
    · cases hrun
      exact absurd rfl (hother ended)
  | interrupt m uptodate =>
    obtain ⟨w, hend, rfl⟩ := Option.map_eq_some_iff.mp hnext
    obtain ⟨i, b, hi, -, -, -, hrequest⟩ := h.endRequest_effect hend
    apply hrequest
    rintro rfl
    have hown : s.Holds q (.inl t) b := by
      change s.owner t = some b
      rw [owner, hstack]
      exact hi.2
    exact absurd (h.exclusive hown hi) (by simp)
  | modify u bh =>
    simp only [BlockIo.next, Option.ite_none_right_eq_some, Option.some.injEq] at hnext
    obtain ⟨-, rfl⟩ := hnext
    rfl
  | drop u bh =>
    simp only [BlockIo.next, Option.ite_none_right_eq_some, Option.some.injEq] at hnext
    obtain ⟨-, rfl⟩ := hnext
    rfl

/-- A task is in `ll_rw_block(READA,bh)`. -/
def InReadAhead (s : BlockIo τ) (t : τ) (bh : ℕ) : Prop :=
  ∃ f, s.stack t = [f] ∧ f.Reading s.tables bh

/-- A task in `ll_rw_block(READA,bh)` puts nothing but a request for this buffer into a queue. -/
theorem InReadAhead.next {s s' : BlockIo τ} {t : τ} {bh : ℕ} {e : IoEvent τ}
    (h : s.InReadAhead t bh) (hinv : s.RunInv) (hbh : bh ∈ s.bufs t)
    (hnext : s.next e = some s') :
    (∀ r ∈ s.asks t e, Reads s.tables bh r) ∧ (s'.stack t = [] ∨ s'.InReadAhead t bh) := by
  obtain ⟨f, hstack, hf⟩ := h
  obtain ⟨q, hq⟩ := hinv.locks
  obtain ⟨hdev, hblock⟩ := hinv.blocks hnext hbh
  have hdriver := next_driver hnext
  rcases next_task hnext t with ⟨hsame, hasks, hother⟩ | ⟨c, rfl, rfl⟩ |
    ⟨ended, f', rest, w, n, rfl, hf', hexec, rfl⟩
  · rw [hasks]
    refine ⟨fun r hr => absurd hr List.not_mem_nil, Or.inr ⟨f, hsame.trans hstack, ?_⟩⟩
    apply hf.congr hdev hblock hdriver
    rintro major req rfl
    exact hq.next_request hstack hnext hother
  · obtain ⟨hcaller, -⟩ := call_cases hnext
    rw [hstack] at hcaller
    cases f with
    | syncInodes dev => exact hf.elim
    | _ => cases hcaller
  · rw [hstack] at hf'
    obtain ⟨rfl, rfl⟩ := List.cons.inj hf'
    constructor
    · intro r hr
      rw [asks, if_pos rfl, hstack] at hr
      cases f with
      | addRequest major req =>
        obtain rfl := List.mem_singleton.mp hr
        exact hf
      | _ => exact absurd hr List.not_mem_nil
    · have hgo := hf.exec hexec
      have hstack' : (s.after t [] w n).stack t = stackAfter [] n := after_stack
      cases n with
      | go g => exact Or.inr ⟨g, hstack', hgo⟩
      | sleep g => exact Or.inr ⟨g, hstack', hgo⟩
      | call g callee => exact hgo.elim
      | ret => exact Or.inl hstack'
      | got b => exact hgo.elim

end BlockIo

/-- A call of `ll_rw_block(READA,bh)` that will lead to a request. -/
def IoFrame.Wanting (w : IoTables) (bh : ℕ) : IoFrame → Prop
  | .llRwBlock _ _ => w.Driven (w.cache.dev bh) ∧ w.cache.lock bh = false ∧
    w.cache.uptodate bh = false ∧ ∃ i < nrRequest, (w.requests.request i).dev < 0
  | .lockBuffer .. => w.cache.lock bh = false ∧ w.cache.uptodate bh = false ∧
    ∃ i < nrRequest, (w.requests.request i).dev < 0
  | .testBuffer .. => w.cache.uptodate bh = false ∧
    ∃ i < nrRequest, (w.requests.request i).dev < 0
  | .findRequest _ _ _ _ i => ∃ j < i, (w.requests.request j).dev < 0
  | .fillRequest .. | .addRequest .. => True
  | _ => False

/-- The call goes on until it puts its request into the queue. -/
theorem IoFrame.Wanting.exec {w w' : IoTables} {bh : ℕ} {f : IoFrame} {ended : Option Bool}
    {n : IoNext} (hf : f.Wanting w bh) (hreading : f.Reading w bh)
    (h : f.exec w ended = some (w', n)) :
    (∃ major req, f = .addRequest major req) ∨ ∃ g, n = .go g ∧ g.Wanting w' bh := by
  cases f
  case llRwBlock rw b =>
    obtain ⟨rfl, rfl⟩ := hreading
    obtain ⟨⟨hmajor, hdriver⟩, hlock, huptodate, hfree⟩ := hf
    have hdriven : ¬(nrBlkDev ≤ majorOf (w.cache.dev b) ∨
        w.driver (majorOf (w.cache.dev b)) = false) := by
      rw [not_or, Nat.not_le, Bool.not_eq_false]
      exact ⟨hmajor, hdriver⟩
    simp only [IoFrame.exec, hdriven, hlock, if_false, Bool.and_false, Bool.false_eq_true] at h
    cases h
    exact Or.inr ⟨_, rfl, hlock, huptodate, hfree⟩
  case lockBuffer cmd ahead major b =>
    obtain ⟨-, -, rfl, -⟩ := hreading
    obtain ⟨hlock, huptodate, hfree⟩ := hf
    simp only [IoFrame.exec, hlock, if_false, Bool.false_eq_true] at h
    cases h
    exact Or.inr ⟨_, rfl, huptodate, hfree⟩
  case testBuffer cmd ahead major b =>
    obtain ⟨rfl, -, rfl, -⟩ := hreading
    obtain ⟨huptodate, hfree⟩ := hf
    have htest : ¬(rwRead = rwWrite ∧ w.cache.dirt b = false ∨
        rwRead = rwRead ∧ w.cache.uptodate b = true) := by
      rintro (⟨hcmd, -⟩ | ⟨-, h⟩)
      · cases hcmd
      · exact Bool.false_ne_true (huptodate.symm.trans h)
    rw [IoFrame.exec, if_neg htest] at h
    cases h
    exact Or.inr ⟨_, rfl, hfree⟩
  case findRequest cmd ahead major b i =>
    obtain ⟨j, hj, hfree⟩ := hf
    cases i with
    | zero => exact absurd hj (Nat.not_lt_zero j)
    | succ i =>
      simp only [IoFrame.exec] at h
      split at h
      · cases h
        exact Or.inr ⟨_, rfl, trivial⟩
      · rename_i hused
        cases h
        refine Or.inr ⟨_, rfl, j, ?_, hfree⟩
        have hne : j ≠ i := by
          rintro rfl
          exact hused hfree
        omega
  case fillRequest cmd major b req =>
    cases h
    exact Or.inr ⟨_, rfl, trivial⟩
  case addRequest major req => exact Or.inl ⟨major, req, rfl⟩
  all_goals exact hf.elim

namespace BlockIo

variable {τ : Type*} [DecidableEq τ] [Fintype τ]

omit [Fintype τ] in
/-- While a task runs in a call, only this and the devices go on. -/
theorem next_of_running {s s' : BlockIo τ} {t : τ} {e : IoEvent τ} (hrunning : s.running = some t)
    (hcaller : atCaller (s.stack t) = false) (hnext : s.next e = some s') :
    (∃ major uptodate, e = .interrupt major uptodate) ∨ ∃ ended, e = .exec t ended := by
  have hother {u : τ} (hrun : s.MayRun u) : u = t := by
    rw [MayRun, hrunning] at hrun
    rcases hrun with hrun | hrun
    · cases hrun
    · exact (Option.some.inj hrun).symm
  have hcalling {u : τ} (h : s.Calling u) : False := by
    obtain rfl := hother h.1
    exact Bool.false_ne_true (hcaller.symm.trans h.2)
  cases e with
  | call u c =>
    simp only [BlockIo.next, Option.ite_none_right_eq_some] at hnext
    exact (hcalling hnext.1.1).elim
  | exec u ended =>
    obtain rfl := hother (exec_cases hnext).1
    exact Or.inr ⟨ended, rfl⟩
  | interrupt major uptodate => exact Or.inl ⟨major, uptodate, rfl⟩
  | modify u bh =>
    simp only [BlockIo.next, Option.ite_none_right_eq_some] at hnext
    exact (hcalling hnext.1.1).elim
  | drop u bh =>
    simp only [BlockIo.next, Option.ite_none_right_eq_some] at hnext
    exact (hcalling hnext.1.1).elim

/-- A task is in `ll_rw_block(READA,bh)`, which will lead to a request. -/
def WantsAhead (s : BlockIo τ) (t : τ) (bh : ℕ) : Prop :=
  s.running = some t ∧ ∃ f, s.stack t = [f] ∧ f.Reading s.tables bh ∧ f.Wanting s.tables bh

omit [DecidableEq τ] [Fintype τ] in
/-- The end of a request does not keep the call from its own one. -/
theorem LockInv.wanting_endRequest {s : BlockIo τ} {q : ℕ → List ℕ} (h : s.LockInv q) {t : τ}
    {bh : ℕ} {f : IoFrame} (hstack : s.stack t = [f]) (hreading : f.Reading s.tables bh)
    (hf : f.Wanting s.tables bh) {major : ℕ} {uptodate : Bool} {w : IoTables}
    (hend : s.tables.endRequest major uptodate = some w) : f.Wanting w bh := by
  obtain ⟨i, b, hi, hdriver, hcache, hdev, hrequest⟩ := h.endRequest_effect hend
  have hfree {j : ℕ} (hj : (s.tables.requests.request j).dev < 0) :
      (w.requests.request j).dev < 0 := by
    by_cases hji : j = i
    · rw [hji]
      exact hdev
    · rw [hrequest j hji]
      exact hj
  have hlock (hlock : s.tables.cache.lock bh = false) : w.cache.lock bh = false := by
    rw [hcache]
    change Function.update s.tables.cache.lock b false bh = false
    rw [Function.update_apply, hlock, ite_self]
  have huptodate (hne : bh ≠ b) (huptodate : s.tables.cache.uptodate bh = false) :
      w.cache.uptodate bh = false := by
    rw [hcache]
    change Function.update s.tables.cache.uptodate b uptodate bh = false
    rw [Function.update_of_ne hne, huptodate]
  have hunlocked (hlock : s.tables.cache.lock bh = false) : bh ≠ b := by
    rintro rfl
    exact Bool.false_ne_true (hlock.symm.trans (h.lock hi))
  cases f
  case llRwBlock rw b' =>
    obtain ⟨hdriven, hl, hu, j, hj, hjfree⟩ := hf
    refine ⟨?_, hlock hl, huptodate (hunlocked hl) hu, j, hj, hfree hjfree⟩
    rw [IoTables.Driven, hdriver, hcache]
    exact hdriven
  case lockBuffer cmd ahead m b' =>
    obtain ⟨hl, hu, j, hj, hjfree⟩ := hf
    exact ⟨hlock hl, huptodate (hunlocked hl) hu, j, hj, hfree hjfree⟩
  case testBuffer cmd ahead m b' =>
    obtain ⟨-, -, rfl, -⟩ := hreading
    obtain ⟨hu, j, hj, hjfree⟩ := hf
    have hown : s.Holds q (.inl t) b' := by
      change s.owner t = some b'
      rw [owner, hstack]
      rfl
    have hne : b' ≠ b := by
      rintro rfl
      exact absurd (h.exclusive hown hi) (by simp)
    exact ⟨huptodate hne hu, j, hj, hfree hjfree⟩
  case findRequest cmd ahead m b' k =>
    obtain ⟨j, hj, hjfree⟩ := hf
    exact ⟨j, hj, hfree hjfree⟩
  all_goals exact hf

/-- The task goes on to its request. -/
theorem WantsAhead.next {s s' : BlockIo τ} {t : τ} {bh : ℕ} {e : IoEvent τ}
    (h : s.WantsAhead t bh) (hinv : s.RunInv) (hbh : bh ∈ s.bufs t)
    (hnext : s.next e = some s') : s.asks t e ≠ [] ∨ s'.WantsAhead t bh := by
  obtain ⟨hrunning, f, hstack, hreading, hf⟩ := h
  obtain ⟨q, hq⟩ := hinv.locks
  have hin : s.InReadAhead t bh := ⟨f, hstack, hreading⟩
  obtain ⟨-, hin'⟩ := hin.next hinv hbh hnext
  have hcaller : atCaller (s.stack t) = false := by
    rw [hstack]
    cases f with
    | syncInodes dev => exact hf.elim
    | _ => rfl
  rcases next_of_running hrunning hcaller hnext with ⟨major, uptodate, rfl⟩ | ⟨ended, rfl⟩
  · obtain ⟨w, hend, rfl⟩ := Option.map_eq_some_iff.mp hnext
    obtain ⟨g, hg, hgreading⟩ := hin'.resolve_left (by
      change s.stack t ≠ []
      rw [hstack]
      exact List.cons_ne_nil _ _)
    obtain ⟨rfl, -⟩ := List.cons.inj (hstack.symm.trans hg)
    exact Or.inr ⟨hrunning, f, hg, hgreading, hq.wanting_endRequest hstack hreading hf hend⟩
  · obtain ⟨-, f', rest, w, n, hf', hexec, rfl⟩ := exec_cases hnext
    rw [hstack] at hf'
    obtain ⟨rfl, rfl⟩ := List.cons.inj hf'
    rcases hf.exec hreading hexec with ⟨major, req, rfl⟩ | ⟨g, rfl, hg⟩
    · left
      rw [asks, if_pos rfl, hstack]
      exact List.cons_ne_nil _ _
    · exact Or.inr ⟨rfl, g, after_stack, hreading.exec hexec, hg⟩

/-- A task in `ll_rw_block(READA,bh)` has put nothing but requests for this buffer into a queue. -/
theorem Within.reads {t : τ} {held : List ℕ} {s s' : BlockIo τ} {l : List Request} {bh : ℕ}
    (h : Within t held s l s') (hinv : s.RunInv) (hheld : ∀ b, held.count b ≤ (s.bufs t).count b)
    (hbh : bh ∈ held) (hin : s.stack t = [] ∨ s.InReadAhead t bh) :
    (∀ r ∈ l, Reads s.tables bh r) ∧ (s'.stack t = [] ∨ s'.InReadAhead t bh) ∧
      s'.tables.driver = s.tables.driver := by
  induction h with
  | refl s => exact ⟨fun r hr => absurd hr List.not_mem_nil, hin, rfl⟩
  | @step s s₁ s' e l hnext hcaller hheld₁ hrest ih =>
    have hmem : bh ∈ s.bufs t :=
      List.count_pos_iff.mp (Nat.lt_of_lt_of_le (List.count_pos_iff.mpr hbh) (hheld bh))
    obtain ⟨hdev, hblock⟩ := hinv.blocks hnext.1 hmem
    have hdriver := next_driver hnext.1
    have hfirst : (∀ r ∈ s.asks t e, Reads s.tables bh r) ∧
        (s₁.stack t = [] ∨ s₁.InReadAhead t bh) := by
      rcases hin with hidle | hin
      · obtain ⟨hidle₁, hl⟩ := (Within.step hnext hcaller hheld₁ (.refl s₁)).idle hidle
        rw [List.append_nil] at hl
        rw [hl]
        exact ⟨fun r hr => absurd hr List.not_mem_nil, Or.inl hidle₁⟩
      · exact hin.next hinv hmem hnext.1
    obtain ⟨hreads, hin', hdriver'⟩ := ih (hnext.runInv hinv) hheld₁ hfirst.2
    refine ⟨fun r hr => ?_, hin', hdriver'.trans hdriver⟩
    rcases List.mem_append.mp hr with hr | hr
    · exact hfirst.1 r hr
    · exact (hreads r hr).congr hdev.symm hblock.symm hdriver.symm

/-- A task in `ll_rw_block(READA,bh)` that has not made its request will make it. -/
theorem Within.wants {t : τ} {held : List ℕ} {s s' : BlockIo τ} {l : List Request} {bh : ℕ}
    (h : Within t held s l s') (hinv : s.RunInv) (hheld : ∀ b, held.count b ≤ (s.bufs t).count b)
    (hbh : bh ∈ held) (hwants : s.WantsAhead t bh) : l ≠ [] ∨ s'.WantsAhead t bh := by
  induction h with
  | refl s => exact Or.inr hwants
  | @step s s₁ s' e l hnext hcaller hheld₁ hrest ih =>
    have hmem : bh ∈ s.bufs t :=
      List.count_pos_iff.mp (Nat.lt_of_lt_of_le (List.count_pos_iff.mpr hbh) (hheld bh))
    rcases hwants.next hinv hmem hnext.1 with hasks | hwants
    · exact Or.inl (List.append_ne_nil_of_left_ne_nil hasks l)
    · exact (ih (hnext.runInv hinv) hheld₁ hwants).imp_left
        (List.append_ne_nil_of_right_ne_nil (s.asks t e))

/-- `ll_rw_block(READA,bh)` puts nothing but a request for this buffer into a queue, and it does so
if the device has a driver, the buffer is not up to date and not locked, and there is a free
request. -/
theorem Returns.readAhead {t : τ} {s s' : BlockIo τ} {l : List Request} {r : Option ℕ} {bh : ℕ}
    (h : Returns t (.llRwBlock .readAhead bh) s l r s') (hinv : s.RunInv)
    (hidle : s.stack t = []) (hbh : bh ∈ s.bufs t) :
    (∀ r ∈ l, Reads s.tables bh r) ∧ (s.tables.Driven (s.tables.cache.dev bh) →
      s.tables.cache.uptodate bh = false → s.tables.cache.lock bh = false →
      (∃ i < nrRequest, (s.tables.requests.request i).dev < 0) → l ≠ []) := by
  obtain ⟨hcall, hrun, hstack, hexec, hresult, hreturn, hwait, rfl⟩ := h
  rename_i s₁ s₂ s₃ l₁ l₂ f ended w n
  obtain ⟨-, rfl, hstack₁, hbufs₁⟩ := call_cases hcall.1
  have hinv₁ := hcall.runInv hinv
  have hbh₁ : bh ∈ (s.enter t (.llRwBlock .readAhead bh)).bufs t := by
    rw [hbufs₁]
    exact hbh
  rw [hidle] at hstack₁
  obtain ⟨hinv₂, hheld₂, hsame₂⟩ := hrun.sameBlock hinv₁ fun _ => Nat.le_refl _
  have hbh₂ : bh ∈ s₂.bufs t :=
    List.count_pos_iff.mp (Nat.lt_of_lt_of_le (List.count_pos_iff.mpr hbh₁) (hheld₂ bh))
  obtain ⟨hdev, hblock⟩ := hsame₂ bh hbh₁
  have hl₂ : l₂ = [] := (hwait.idle (return_cases hreturn.1 hstack hexec hresult).2.1).2
  have hback : s₃.stack t = [] := (return_cases hreturn.1 hstack hexec hresult).2.1
  obtain ⟨hreads, hin, hdriver⟩ := hrun.reads hinv₁ (fun _ => Nat.le_refl _) hbh₁
    (Or.inr ⟨_, hstack₁, rfl, rfl⟩)
  have hin₂ : s₂.InReadAhead t bh := by
    rw [hstack] at hin
    exact hin.resolve_left (List.cons_ne_nil _ _)
  rw [hl₂, List.append_nil]
  constructor
  · intro r hr
    rcases List.mem_append.mp hr with hr | hr
    · exact hreads r hr
    · exact ((hin₂.next hinv₂ hbh₂ hreturn.1).1 r hr).congr hdev.symm hblock.symm hdriver.symm
  · intro hdriven huptodate hlock hfree
    have hwants : (s.enter t (.llRwBlock .readAhead bh)).WantsAhead t bh :=
      ⟨rfl, _, hstack₁, ⟨rfl, rfl⟩, hdriven, hlock, huptodate, hfree⟩
    rcases hrun.wants hinv₁ (fun _ => Nat.le_refl _) hbh₁ hwants with hl₁ | hwants₂
    · exact List.append_ne_nil_of_left_ne_nil hl₁ _
    · apply List.append_ne_nil_of_right_ne_nil
      refine (hwants₂.next hinv₂ hbh₂ hreturn.1).resolve_right ?_
      rintro ⟨-, g, hg, -⟩
      exact absurd (hback.symm.trans hg).symm (List.cons_ne_nil _ _)

/-! ### The calls of `breada` -/

/-- What is known of a block of the list: its buffer is one of the block, the requests are for the
first buffer, and one is made if this has to be read. -/
structure Ahead.Ok (a : Ahead τ) (dev bh : ℕ) : Prop where
  device : a.tested.tables.cache.dev a.tmp = dev
  number : a.tested.tables.cache.blocknr a.tmp = a.block
  reads : ∀ r ∈ a.asked, Reads a.tested.tables bh r
  asked : a.tmp = bh → a.Needed → a.tested.tables.Driven dev → a.asked ≠ []

omit [DecidableEq τ] in
/-- A call leaves the buffers that a task has if it does not release one. -/
theorem Back.mem {t : τ} {c : IoCall} {s s' : BlockIo τ} {r : Option ℕ} (h : Back t c s r s')
    (hc : c.released = none) {b : ℕ} (hb : b ∈ s.bufs t) :
    b ∈ s'.bufs t ∧ s.SameBlock s' b := by
  have hdiff : (s.bufs t).diff c.released.toList = s.bufs t := by
    rw [hc]
    rfl
  constructor
  · have hle := h.bufs b
    rw [hdiff, List.count_append] at hle
    have hpos := List.count_pos_iff.mpr hb
    exact List.count_pos_iff.mp (by omega)
  · apply h.sameBlock
    rw [hdiff]
    exact hb

omit [Fintype τ] in
/-- `tmp->b_count--` in `breada`. -/
theorem drop_cases {s s' : BlockIo τ} {t : τ} {tmp : ℕ} (h : s.next (.drop t tmp) = some s') :
    s'.stack t = s.stack t ∧ s'.bufs t = (s.bufs t).erase tmp ∧ ∀ b, s.SameBlock s' b := by
  simp only [BlockIo.next, Option.ite_none_right_eq_some, Option.some.injEq] at h
  obtain ⟨-, rfl⟩ := h
  exact ⟨rfl, Function.update_self .., fun b => ⟨rfl, rfl⟩⟩

/-- The task still has the first buffer when the other one is dropped. -/
theorem mem_of_drop {held l : List ℕ} {bh tmp : ℕ} (hbh : bh ∈ held)
    (hle : (tmp :: held).count bh ≤ l.count bh) : bh ∈ l.erase tmp := by
  have hpos := List.count_pos_iff.mpr hbh
  rw [List.count_cons] at hle
  rw [← List.count_pos_iff, List.count_erase]
  omega

/-- The loop of `breada`. -/
theorem AheadLoop.ok {t : τ} {dev bh : ℕ} {blocks : List ℕ} {s s' : BlockIo τ}
    {as : List (Ahead τ)} (h : AheadLoop t dev bh blocks s as s') (hinv : s.RunInv)
    (hidle : s.stack t = []) (hbh : bh ∈ s.bufs t) :
    s'.RunInv ∧ s'.stack t = [] ∧ bh ∈ s'.bufs t ∧ s.SameBlock s' bh ∧
      as.map Ahead.block = blocks ∧ ∀ a ∈ as, a.Ok dev bh := by
  induction h with
  | done s => exact ⟨hinv, hidle, hbh, ⟨rfl, rfl⟩, rfl, fun a ha => absurd ha List.not_mem_nil⟩
  | @uptodate block tmp blocks s s₁ s₂ s' l as hget htest hdrop hrest ih =>
    have hback := hget.back hinv hidle
    obtain ⟨b, hb, hdev, hnumber⟩ := hback.getblk dev block rfl
    obtain rfl := Option.some.inj hb
    obtain ⟨hstack₂, hbufs₂, hsame₂⟩ := drop_cases hdrop.1
    have hbh₂ : bh ∈ s₂.bufs t := by
      rw [hbufs₂]
      exact mem_of_drop hbh (hback.bufs bh)
    obtain ⟨hinv', hidle', hbh', hsame', hmap, hok⟩ :=
      ih (hdrop.runInv hback.runInv) (hstack₂.trans hback.stack) hbh₂
    refine ⟨hinv', hidle', hbh', ((hback.mem rfl hbh).2.trans (hsame₂ bh)).trans hsame',
      congrArg (block :: ·) hmap, List.forall_mem_cons.mpr ⟨?_, hok⟩⟩
    refine ⟨hdev, hnumber, fun r hr => absurd hr List.not_mem_nil, fun _ hneeded => ?_⟩
    exact absurd (htest.symm.trans hneeded.1) (by decide)
  | @read block tmp blocks s s₁ s₂ s₃ s' l asked as hget htest hread hdrop hrest ih =>
    have hback := hget.back hinv hidle
    obtain ⟨b, hb, hdev, hnumber⟩ := hback.getblk dev block rfl
    obtain rfl := Option.some.inj hb
    obtain ⟨hbh₁, hsame₁⟩ := hback.mem rfl hbh
    have hback₂ := hread.back hback.runInv hback.stack
    obtain ⟨hreads, hasked⟩ := hread.readAhead hback.runInv hback.stack hbh₁
    obtain ⟨hstack₃, hbufs₃, hsame₃⟩ := drop_cases hdrop.1
    have hbh₃ : bh ∈ s₃.bufs t := by
      rw [hbufs₃]
      exact mem_of_drop hbh (Nat.le_trans (hback.bufs bh) (hback₂.bufs bh))
    obtain ⟨hinv', hidle', hbh', hsame', hmap, hok⟩ :=
      ih (hdrop.runInv hback₂.runInv) (hstack₃.trans hback₂.stack) hbh₃
    refine ⟨hinv', hidle', hbh',
      ((hsame₁.trans (hback₂.mem rfl hbh₁).2).trans (hsame₃ bh)).trans hsame',
      congrArg (block :: ·) hmap, List.forall_mem_cons.mpr ⟨?_, hok⟩⟩
    refine ⟨hdev, hnumber, hreads, ?_⟩
    rintro rfl ⟨huptodate, hlock, hfree⟩ hdriven
    apply hasked _ huptodate hlock hfree
    rw [hdev]
    exact hdriven

/-- `breada` returns a buffer of the first block that is up to date, or nothing. -/
theorem Breada.ok {t : τ} {dev first : ℕ} {blocks : List ℕ} {s s' : BlockIo τ} {bh : ℕ}
    {as : List (Ahead τ)} {r : Option ℕ} (h : Breada t dev first blocks s bh as r s')
    (hinv : s.RunInv) (hidle : s.stack t = []) :
    as.map Ahead.block = blocks ∧ (∀ a ∈ as, a.Ok dev bh) ∧ ∀ b, r = some b →
      s'.tables.cache.dev b = dev ∧ s'.tables.cache.blocknr b = first ∧
        s'.tables.cache.uptodate b = true := by
  have hfirst {s₁ s₂ s₃ s₄ : BlockIo τ} {l l' : List Request}
      (hget : Returns t (.getblk dev first) s l (some bh) s₁) (hread : FirstRead t bh s₁ s₂)
      (hloop : AheadLoop t dev bh blocks s₂ as s₃)
      (hwait : Returns t (.waitOnBuffer bh) s₃ l' none s₄) :
      as.map Ahead.block = blocks ∧ (∀ a ∈ as, a.Ok dev bh) ∧
        s₄.tables.cache.dev bh = dev ∧ s₄.tables.cache.blocknr bh = first := by
    have hback := hget.back hinv hidle
    obtain ⟨b, hb, hdev, hnumber⟩ := hback.getblk dev first rfl
    obtain rfl := Option.some.inj hb
    have hbh₁ : bh ∈ s₁.bufs t := by
      have hle := hback.bufs bh
      rw [List.count_append, Option.toList_some, List.count_singleton_self] at hle
      exact List.count_pos_iff.mp (by omega)
    have hread₂ : s₂.RunInv ∧ s₂.stack t = [] ∧ bh ∈ s₂.bufs t ∧ s₁.SameBlock s₂ bh := by
      cases hread with
      | uptodate htest => exact ⟨hback.runInv, hback.stack, hbh₁, rfl, rfl⟩
      | read htest hread =>
        have hback₂ := hread.back hback.runInv hback.stack
        exact ⟨hback₂.runInv, hback₂.stack, hback₂.mem rfl hbh₁⟩
    obtain ⟨hinv₂, hidle₂, hbh₂, hsame₂⟩ := hread₂
    obtain ⟨hinv₃, hidle₃, hbh₃, hsame₃, hmap, hok⟩ := hloop.ok hinv₂ hidle₂ hbh₂
    obtain ⟨hdev', hnumber'⟩ := (hsame₂.trans hsame₃).trans
      ((hwait.back hinv₃ hidle₃).mem rfl hbh₃).2
    exact ⟨hmap, hok, hdev'.trans hdev, hnumber'.trans hnumber⟩
  cases h with
  | found hget hread hloop hwait htest =>
    obtain ⟨hmap, hok, hdev, hnumber⟩ := hfirst hget hread hloop hwait
    refine ⟨hmap, hok, fun b hb => ?_⟩
    obtain rfl := Option.some.inj hb
    exact ⟨hdev, hnumber, htest⟩
  | unreadable hget hread hloop hwait htest hbrelse =>
    obtain ⟨hmap, hok, -⟩ := hfirst hget hread hloop hwait
    exact ⟨hmap, hok, fun b hb => by cases hb⟩

/-- In every run with no more than 255 references to a buffer, `breada` goes through the listed
blocks, and it does what it should (it puts a request for every listed block that has to be read
into a queue, and returns a buffer of the first block that is up to date, or nothing) if and only
if every listed block that has to be read is in the buffer of the first one, on a device with a
driver. -/
theorem breada_reads_iff {t : τ} {dev first : ℕ} {blocks : List ℕ} {s s' : BlockIo τ} {bh : ℕ}
    {as : List (Ahead τ)} {r : Option ℕ} (h : Reachable Boot BoundedStep s)
    (hidle : s.stack t = []) (hbreada : Breada t dev first blocks s bh as r s') :
    as.map Ahead.block = blocks ∧
    (((∀ a ∈ as, a.Needed → a.Queued dev) ∧ ∀ b, r = some b → s'.tables.cache.dev b = dev ∧
        s'.tables.cache.blocknr b = first ∧ s'.tables.cache.uptodate b = true) ↔
      ∀ a ∈ as, a.Needed → a.tmp = bh ∧ a.tested.tables.Driven dev) := by
  have hinv : s.RunInv := h.invariant (fun _ => runInv_boot) fun _ _ hs hstep => hs.step hstep
  obtain ⟨hmap, hok, hreturn⟩ := hbreada.ok hinv hidle
  refine ⟨hmap, fun ⟨hqueued, _⟩ a ha hneeded => ?_, fun hsame => ⟨fun a ha hneeded => ?_, hreturn⟩⟩
  · obtain ⟨r, hr, -, -, -, hbuffer⟩ := hqueued a ha hneeded
    have hreads := (hok a ha).reads r hr
    obtain rfl : a.tmp = bh := Option.some.inj (hbuffer.symm.trans hreads.buffer)
    refine ⟨rfl, ?_⟩
    rw [← (hok a ha).device]
    exact hreads.driven
  · obtain ⟨rfl, hdriven⟩ := hsame a ha hneeded
    obtain ⟨r, hr⟩ := List.exists_mem_of_ne_nil _ ((hok a ha).asked rfl hneeded hdriven)
    have hreads := (hok a ha).reads r hr
    refine ⟨r, hr, hreads.cmd, ?_, ?_, hreads.buffer⟩
    · rw [hreads.dev, (hok a ha).device]
    · rw [hreads.sector, (hok a ha).number]

/-! ### Computed calls -/

/-- An event between the steps of a call that does not change what the task has. -/
def quietNext (t : τ) (held : List ℕ) (s : BlockIo τ) (e : IoEvent τ) : Option (BlockIo τ) :=
  if e.caller = none then (s.boundedNext e).filter fun s' => s'.bufs t = held else none

/-- A call with the events until it returns. -/
def callNext (t : τ) (c : IoCall) (es : List (IoEvent τ)) (s : BlockIo τ) :
    Option (BlockIo τ × Option ℕ) :=
  (s.boundedNext (.call t c)).bind fun s₁ =>
    (runEvents (quietNext t (s₁.bufs t)) s₁ es).bind fun s₂ =>
      match s₂.stack t with
      | [f] => (f.exec s₂.tables none).bind fun p => p.2.result.bind fun r =>
          (s₂.boundedNext (.exec t none)).map fun s₃ => (s₃, r)
      | _ => none

theorem BoundedNext.of_boundedNext {s s' : BlockIo τ} {e : IoEvent τ}
    (h : s.boundedNext e = some s') : s.BoundedNext e s' :=
  ⟨(Option.filter_eq_some_iff.mp h).1, (BoundedStep.of_boundedNext h).2⟩

theorem Within.of_runEvents {t : τ} {held : List ℕ} {s s' : BlockIo τ} {es : List (IoEvent τ)}
    (h : runEvents (quietNext t held) s es = some s') : ∃ l, Within t held s l s' := by
  induction es generalizing s with
  | nil =>
    obtain rfl := Option.some.inj h
    exact ⟨[], .refl s⟩
  | cons e es ih =>
    obtain ⟨s₁, hnext, hrest⟩ := Option.bind_eq_some_iff.mp h
    obtain ⟨l, hl⟩ := ih hrest
    rw [quietNext, Option.ite_none_right_eq_some, Option.filter_eq_some_iff] at hnext
    obtain ⟨hcaller, hnext, hbufs⟩ := hnext
    refine ⟨_, .step (BoundedNext.of_boundedNext hnext) (fun h => ?_) (fun b => ?_) hl⟩
    · rw [hcaller] at h
      cases h
    · rw [of_decide_eq_true hbufs]

theorem Returns.of_callNext {t : τ} {c : IoCall} {es : List (IoEvent τ)} {s s' : BlockIo τ}
    {r : Option ℕ} (h : callNext t c es s = some (s', r)) : ∃ l, Returns t c s l r s' := by
  obtain ⟨s₁, hcall, h⟩ := Option.bind_eq_some_iff.mp h
  obtain ⟨s₂, hrun, h⟩ := Option.bind_eq_some_iff.mp h
  obtain ⟨l, hl⟩ := Within.of_runEvents hrun
  split at h
  · rename_i f hstack
    obtain ⟨⟨w, n⟩, hexec, h⟩ := Option.bind_eq_some_iff.mp h
    obtain ⟨r', hresult, h⟩ := Option.bind_eq_some_iff.mp h
    obtain ⟨s₃, hreturn, h⟩ := Option.map_eq_some_iff.mp h
    obtain ⟨rfl, rfl⟩ := Prod.mk.inj h
    exact ⟨_, .intro (BoundedNext.of_boundedNext hcall) hl hstack hexec hresult
      (BoundedNext.of_boundedNext hreturn) (.refl s₃) rfl⟩
  · cases h

/-- A system with two buffers, all of whose devices have drivers. -/
def twoBuffers : BlockIo Bool := boot 2 (fun _ => 0) fun _ => true

/-- Steps of the first task. -/
def steps (k : ℕ) : List (IoEvent Bool) := List.replicate k (.exec false none)

/-- `breada` of block 0 and another one of an idle disk, with the events in `getblk` and in
`ll_rw_block` for the other one, which is tested in a state with a property. -/
def breadaRun (block tmp : ℕ) (es es' : List (IoEvent Bool)) (P : BlockIo Bool → Bool) : Bool :=
  (callNext false (.getblk 769 0) (steps 2) twoBuffers).any fun p₁ =>
    p₁.2 = some 0 ∧ p₁.1.tables.cache.uptodate 0 = false ∧
    (callNext false (.llRwBlock .read 0) (steps 6) p₁.1).any fun p₂ =>
      p₂.2 = none ∧ (callNext false (.getblk 769 block) es p₂.1).any fun p₃ =>
        p₃.2 = some tmp ∧ p₃.1.tables.cache.uptodate tmp = false ∧ P p₃.1 = true ∧
        (callNext false (.llRwBlock .readAhead 0) es' p₃.1).any fun p₄ =>
          p₄.2 = none ∧ (p₄.1.boundedNext (.drop false tmp)).any fun s₅ =>
            (callNext false (.waitOnBuffer 0) [.interrupt 3 true] s₅).any fun p₆ =>
              p₆.2 = none ∧ p₆.1.tables.cache.uptodate 0 = true

theorem exists_breada {block tmp : ℕ} {es es' : List (IoEvent Bool)} {P : BlockIo Bool → Bool}
    (hrun : breadaRun block tmp es es' P = true) :
    ∃ s asked s', Breada false 769 0 [block] twoBuffers 0 [⟨block, tmp, s, asked⟩] (some 0) s' ∧
      s.tables.cache.uptodate tmp = false ∧ P s = true := by
  obtain ⟨⟨s₁, r₁⟩, hget, h⟩ := (Option.any_eq_true _ _).mp hrun
  obtain ⟨rfl, hstale, h⟩ := of_decide_eq_true h
  obtain ⟨⟨s₂, r₂⟩, hread, h⟩ := (Option.any_eq_true _ _).mp h
  obtain ⟨rfl, h⟩ := of_decide_eq_true h
  obtain ⟨⟨s₃, r₃⟩, hgetAhead, h⟩ := (Option.any_eq_true _ _).mp h
  obtain ⟨rfl, hstale', hP, h⟩ := of_decide_eq_true h
  obtain ⟨⟨s₄, r₄⟩, hreadAhead, h⟩ := (Option.any_eq_true _ _).mp h
  obtain ⟨rfl, h⟩ := of_decide_eq_true h
  obtain ⟨s₅, hdrop, h⟩ := (Option.any_eq_true _ _).mp h
  obtain ⟨⟨s₆, r₆⟩, hwait, h⟩ := (Option.any_eq_true _ _).mp h
  obtain ⟨rfl, huptodate⟩ := of_decide_eq_true h
  obtain ⟨_, hget⟩ := Returns.of_callNext hget
  obtain ⟨_, hread⟩ := Returns.of_callNext hread
  obtain ⟨_, hgetAhead⟩ := Returns.of_callNext hgetAhead
  obtain ⟨asked, hreadAhead⟩ := Returns.of_callNext hreadAhead
  obtain ⟨_, hwait⟩ := Returns.of_callNext hwait
  have hloop := AheadLoop.read hgetAhead hstale' hreadAhead (BoundedNext.of_boundedNext hdrop)
    (.done s₅)
  exact ⟨s₃, asked, s₆, .found hget (.read hstale hread) hloop hwait huptodate, hstale', hP⟩

/-- `breada` of block 0 and block 1 does not read block 1. -/
theorem breada_reads_first : ∃ s' as, Breada false 769 0 [1] twoBuffers 0 as (some 0) s' ∧
    ∃ a ∈ as, a.block = 1 ∧ a.Needed ∧ ¬a.Queued 769 := by
  have hrun : breadaRun 1 1 (steps 2) (steps 0) (fun s => s.tables.cache.lock 1 = false ∧
      (s.tables.requests.request 0).dev < 0) = true := by
    decide +kernel
  obtain ⟨s, asked, s', hbreada, hstale, hP⟩ := exists_breada hrun
  obtain ⟨hlock, hfree⟩ := of_decide_eq_true hP
  have hboot : twoBuffers.RunInv := runInv_boot ⟨2, _, _, by decide, rfl⟩
  obtain ⟨-, hok, -⟩ := hbreada.ok hboot rfl
  refine ⟨s', _, hbreada, _, List.mem_cons_self, rfl, ⟨hstale, hlock, 0, by decide, hfree⟩, ?_⟩
  rintro ⟨r, hr, -, -, -, hbuffer⟩
  have hreads := (hok _ List.mem_cons_self).reads r hr
  exact absurd (Option.some.inj (hbuffer.symm.trans hreads.buffer)) Nat.one_ne_zero

/-- `breada` of block 0 twice, with an error at the first transfer, reads it again. -/
theorem breada_reads_again : ∃ s' as, Breada false 769 0 [0] twoBuffers 0 as (some 0) s' ∧
    as.map Ahead.block = [0] ∧ ∀ a ∈ as, a.Needed → a.Queued 769 := by
  have hrun : breadaRun 0 0 (steps 1 ++ [.interrupt 3 false]) (steps 6)
      (fun s => s.tables.driver 3) = true := by
    decide +kernel
  obtain ⟨s, asked, s', hbreada, -, hdriver⟩ := exists_breada hrun
  have hboot : Reachable Boot BoundedStep twoBuffers := .of_init ⟨2, _, _, by decide, rfl⟩
  obtain ⟨hmap, hiff⟩ := breada_reads_iff hboot rfl hbreada
  refine ⟨s', _, hbreada, hmap, (hiff.mpr fun a ha _ => ?_).1⟩
  obtain rfl := List.mem_singleton.mp ha
  exact ⟨rfl, by decide, hdriver⟩

end BlockIo

end LihaLinux.Block
