import LihaLinux.Block.Machine
import LihaLinux.Fs.CacheRuns
import LihaLinux.Lib.Ends

/-!
# A task that runs alone

A run in which one task takes its steps and no other task runs: between two steps of the task only
the interrupts at the end of a transfer come. They set `b_uptodate` and unlock a buffer, and leave
everything else alone. A call on the stack of the task ends if it comes back to its caller, whatever
the interrupts do, as long as the condition `Smooth` holds before each step; the rule
`FsSystem.Total.step` follows a call step by step.
-/

namespace LihaLinux.Fs

open Block (majorOf nrBlkDev)

/-- What `ll_rw_block` asks of a device: its major number is below `NR_BLK_DEV` and has a
`request_fn`. -/
def hasDriver (driver : ℕ → Bool) (dev : ℕ) : Bool :=
  decide (majorOf dev < nrBlkDev) && driver (majorOf dev)

/-- The buffer that a call waits for at the place where it stands. -/
def Frame.waitsBuffer : Frame → Option ℕ
  | .hashWait _ _ bh | .getblkWait _ _ bh | .breadWait bh | .brelse bh | .llRwBlock _ bh
  | .syncDev _ _ bh | .sysSyncLoop bh => some bh
  | _ => none

/-- The call waits for a transfer. -/
def Frame.Waits (w : Tables) (f : Frame) : Prop := ∃ bh ∈ f.waitsBuffer, w.cache.lock bh = true

/-- The data from outside say of a device whether it has a driver. -/
def Frame.Agrees (driver : ℕ → Bool) (w : Tables) (ch : Choice) : Frame → Prop
  | .llRwBlock _ bh => ch.device = hasDriver driver (w.cache.dev bh)
  | _ => True

/-- Before a step, nothing stands in the way of a call for good: the loop of `getblk` has to write a
buffer of a device with a driver, `sync_inodes` does not wait for an inode that nobody unlocks, and
`write_inode` and `brelse` do not panic. -/
def Frame.Smooth (driver : ℕ → Bool) (w : Tables) : Frame → Prop
  | .getblkWait _ _ bh => w.cache.lock bh = false → w.cache.count bh = 0 →
    w.cache.dirt bh = true → hasDriver driver (w.cache.dev bh) = true
  | .syncInodes i => i < nrInode → (w.inode i).lock = false
  | .writeSuper i => (w.getSuper (w.inode i).dev).isSome
  | .writeCopy _ found => found.isSome
  | .brelse bh => w.cache.count bh ≠ 0
  | _ => True

/-- The tables with other `b_lock` and `b_uptodate`. -/
def Tables.flags (w : Tables) (l u : ℕ → Bool) : Tables :=
  w.withCache { w.cache with lock := l, uptodate := u }

section

variable (w : Tables) (l u : ℕ → Bool)

@[simp] theorem Tables.flags_lock : (w.flags l u).cache.lock = l := rfl

@[simp] theorem Tables.flags_uptodate : (w.flags l u).cache.uptodate = u := rfl

@[simp] theorem Tables.flags_nrBuffers : (w.flags l u).cache.nrBuffers = w.cache.nrBuffers := rfl

@[simp] theorem Tables.flags_dev : (w.flags l u).cache.dev = w.cache.dev := rfl

@[simp] theorem Tables.flags_dirt : (w.flags l u).cache.dirt = w.cache.dirt := rfl

@[simp] theorem Tables.flags_count : (w.flags l u).cache.count = w.cache.count := rfl

@[simp] theorem Tables.flags_inode : (w.flags l u).inode = w.inode := rfl

/-- Flags do not matter for the queues. -/
theorem Tables.flags_sameQueues : Cache.SameQueues w.cache (w.flags l u).cache := by
  constructor <;> rfl

end

namespace FsSystem

variable {τ : Type*} [DecidableEq τ] (driver : ℕ → Bool) (t : τ)

/-- The task takes a step. -/
def OwnStep (s s' : FsSystem τ) : Prop :=
  ∃ ch, (∀ f ∈ (s.stack t).head?, f.Agrees driver s.tables ch) ∧ s.next (.exec t ch) = some s'

/-- An interrupt ends a transfer. -/
def Interrupt (s s' : FsSystem τ) : Prop := ∃ bh uptodate, s.next (.interrupt bh uptodate) = some s'

/-- Nothing stands in the way of the task for good. -/
def Smooth (s : FsSystem τ) : Prop := ∀ f ∈ (s.stack t).head?, f.Smooth driver s.tables

/-- A run in which no other task runs, the task is not kept from running, and every transfer
ends. -/
structure Alone (ρ : ℕ → FsSystem τ) : Prop where
  step : ∀ n, ρ (n + 1) = ρ n ∨ (ρ n).Interrupt (ρ (n + 1)) ∨ (ρ n).OwnStep driver t (ρ (n + 1))
  runs : ∀ n, (∀ m, n ≤ m → ∃ s, (ρ m).OwnStep driver t s) →
    ∃ m, n ≤ m ∧ (ρ m).OwnStep driver t (ρ (m + 1))
  completes : ∀ n bh, (ρ n).tables.cache.lock bh = true →
    ∃ m, n ≤ m ∧ (ρ m).tables.cache.lock bh = false

/-- The task among the interrupts. -/
def alone : Tasking (FsSystem τ) where
  env := Interrupt
  own := OwnStep driver t
  ok := Smooth driver t
  waits s := ∃ f ∈ (s.stack t).head?, f.Waits s.tables

variable {driver t}

/-- An interrupt sets flags. -/
theorem Interrupt.flags {s s' : FsSystem τ} (h : s.Interrupt s') :
    ∃ l u, s' = s.withTables (s.tables.flags l u) ∧
      ∀ b, l b = true → s.tables.cache.lock b = true := by
  obtain ⟨bh, uptodate, h⟩ := h
  simp only [next, Option.ite_none_right_eq_some, Option.some.injEq] at h
  obtain ⟨hlock, rfl⟩ := h
  refine ⟨_, _, rfl, ?_⟩
  intro b hb
  simp only [Cache.setUptodate, Function.update_apply] at hb
  split_ifs at hb with hbh
  exact hb

/-- Interrupts set flags. -/
theorem flags_of_interrupts {s s' : FsSystem τ} (h : Relation.ReflTransGen Interrupt s s') :
    ∃ l u, s' = s.withTables (s.tables.flags l u) := by
  induction h with
  | refl => exact ⟨_, _, rfl⟩
  | tail _ hstep ih =>
    obtain ⟨l, u, rfl⟩ := ih
    obtain ⟨l', u', rfl, -⟩ := hstep.flags
    exact ⟨l', u', rfl⟩

/-- While the task takes no step, its stack stays, and no buffer is locked. -/
theorem Alone.idle {ρ : ℕ → FsSystem τ} (hρ : Alone driver t ρ) {n : ℕ}
    (hidle : ∀ m, n ≤ m → ¬(ρ m).OwnStep driver t (ρ (m + 1))) {m k : ℕ} (hm : n ≤ m) (hk : m ≤ k) :
    (ρ k).stack t = (ρ m).stack t ∧
      ∀ b, (ρ k).tables.cache.lock b = true → (ρ m).tables.cache.lock b = true := by
  induction k, hk using Nat.le_induction with
  | base => exact ⟨rfl, fun _ h => h⟩
  | succ k hk ih =>
    rcases hρ.step k with hsame | henv | hown
    · rw [hsame]
      exact ih
    · obtain ⟨l, u, heq, hlock⟩ := henv.flags
      rw [heq]
      exact ⟨ih.1, fun b hb => ih.2 b (hlock b hb)⟩
    · exact absurd hown (hidle k (hm.trans hk))

/-- A run in which no other task runs is fair to the task. -/
theorem Alone.fair {ρ : ℕ → FsSystem τ} (hρ : Alone driver t ρ)
    (hok : ∀ n, (ρ n).Smooth driver t) : (alone driver t).Fair ρ := by
  constructor
  · exact hρ.step
  · exact hok
  · exact hρ.runs
  · intro n hidle
    change ∀ m, n ≤ m → ¬(ρ m).OwnStep driver t (ρ (m + 1)) at hidle
    -- the buffer that the task waits for is unlocked in the end
    by_cases hwaits : ∃ f ∈ ((ρ n).stack t).head?, ∃ bh, f.waitsBuffer = some bh
    · obtain ⟨f, hf, bh, hbh⟩ := hwaits
      obtain ⟨m, hm, hlock⟩ : ∃ m, n ≤ m ∧ (ρ m).tables.cache.lock bh = false := by
        cases hlock : (ρ n).tables.cache.lock bh with
        | false => exact ⟨n, le_rfl, hlock⟩
        | true => exact hρ.completes n bh hlock
      refine ⟨m, hm, ?_⟩
      rintro k hk ⟨g, hg, bh', hbh', hlock'⟩
      rw [(hρ.idle hidle le_rfl (hm.trans hk)).1] at hg
      obtain rfl := Option.mem_unique hf hg
      obtain rfl := Option.some.inj (hbh.symm.trans hbh')
      rw [(hρ.idle hidle hm hk).2 bh hlock'] at hlock
      cases hlock
    · refine ⟨n, le_rfl, ?_⟩
      rintro k hk ⟨g, hg, bh, hbh, -⟩
      rw [(hρ.idle hidle le_rfl hk).1] at hg
      exact hwaits ⟨g, hg, bh, hbh⟩

variable (driver t) in
/-- As long as no buffer is locked, there is a run in which no other task runs. -/
theorem exists_alone (I : FsSystem τ → Prop) {s : FsSystem τ} (hs : I s)
    (hstep : ∀ s, I s → (∀ s', ¬s.OwnStep driver t s') ∨ ∃ s', s.OwnStep driver t s' ∧ I s')
    (hlock : ∀ s, I s → ∀ b, s.tables.cache.lock b = false) :
    ∃ ρ : ℕ → FsSystem τ, ρ 0 = s ∧ Alone driver t ρ ∧ ∀ n, I (ρ n) := by
  have hnext : ∀ s : {s // I s}, ∃ s' : {s // I s},
      (∀ s', ¬s.1.OwnStep driver t s') ∧ s' = s ∨ s.1.OwnStep driver t s'.1 := by
    rintro ⟨s, hs⟩
    rcases hstep s hs with hnone | ⟨s', hown, hs'⟩
    · exact ⟨⟨s, hs⟩, Or.inl ⟨hnone, rfl⟩⟩
    · exact ⟨⟨s', hs'⟩, Or.inr hown⟩
  choose f hf using hnext
  refine ⟨fun n => (f^[n] ⟨s, hs⟩).1, rfl, ?_, fun n => (f^[n] ⟨s, hs⟩).2⟩
  constructor
  · intro n
    rw [Function.iterate_succ_apply']
    rcases hf (f^[n] ⟨s, hs⟩) with ⟨-, hsame⟩ | hown
    · exact Or.inl (congrArg Subtype.val hsame)
    · exact Or.inr (Or.inr hown)
  · intro n hall
    refine ⟨n, le_rfl, ?_⟩
    rw [Function.iterate_succ_apply']
    rcases hf (f^[n] ⟨s, hs⟩) with ⟨hnone, -⟩ | hown
    · obtain ⟨s', hs'⟩ := hall n le_rfl
      exact absurd hs' (hnone s')
    · exact hown
  · intro n bh _
    exact ⟨n, le_rfl, hlock _ (f^[n] ⟨s, hs⟩).2 bh⟩

/-! ### Calls that end -/

variable (driver t) in
/-- A call on top of the stack of the task comes back to its caller, with a result. -/
def Total (f : Frame) (w : Tables) (Q : Tables → Option ℕ → Prop) : Prop :=
  ∀ s rest, s.stack t = f :: rest → s.tables = w →
    (alone driver t).Ends (fun s' => ∃ v, s'.stack t = stackAfter rest (.ret v) ∧ Q s'.tables v) s

variable (driver t) in
/-- What is left to show of a call after a step. -/
def Rest (w : Tables) (Q : Tables → Option ℕ → Prop) : Next → Prop
  | .go f => Total driver t f w Q
  | .call f callee => Total driver t callee w fun w v => Total driver t (f.resume v) w Q
  | .ret v => Q w v

variable {f : Frame} {w : Tables} {Q : Tables → Option ℕ → Prop}

theorem Rest.of_go (h : Total driver t f w Q) : Rest driver t w Q (.go f) := h

theorem Rest.of_call {callee : Frame}
    (h : Total driver t callee w fun w v => Total driver t (f.resume v) w Q) :
    Rest driver t w Q (.call f callee) := h

/-- The rest of a call, on the stack of the task. -/
theorem Rest.ends {n : Next} (h : Rest driver t w Q n) {s : FsSystem τ} {rest : List Frame}
    (hstack : s.stack t = stackAfter rest n) (htables : s.tables = w) :
    (alone driver t).Ends (fun s' => ∃ v, s'.stack t = stackAfter rest (.ret v) ∧ Q s'.tables v)
      s := by
  cases n with
  | go f => exact h s rest hstack htables
  | call f callee =>
    apply (h s (f :: rest) hstack htables).bind
    rintro s' ⟨v, hstack', hrest⟩
    exact hrest s' rest hstack' rfl
  | ret v => exact .done ⟨v, hstack, htables ▸ h⟩

variable (driver) in
/-- There are data from outside that say what is true of a device. -/
theorem exists_agrees (f : Frame) (w : Tables) : ∃ ch, f.Agrees driver w ch := by
  cases f
  case llRwBlock rw bh =>
    exact ⟨⟨hasDriver driver (w.cache.dev bh), ⟨0, 0, 0⟩, .finish⟩, rfl⟩
  all_goals exact ⟨⟨true, ⟨0, 0, 0⟩, .finish⟩, trivial⟩

/-- A call ends if, whatever the interrupts do, it waits for a transfer, or it takes a step after
which its rest ends. -/
theorem Total.step
    (h : ∀ l u, f.Smooth driver (w.flags l u) →
      (f.Waits (w.flags l u) ∧ ∀ ch, f.Agrees driver (w.flags l u) ch →
        f.exec (w.flags l u) ch = none) ∨
      ∃ w' n, (∀ ch, f.Agrees driver (w.flags l u) ch →
        f.exec (w.flags l u) ch = some (w', n)) ∧ Rest driver t w' Q n) :
    Total driver t f w Q := by
  rintro s rest hstack rfl
  apply Tasking.Ends.step
  · intro s' henv hok
    obtain ⟨l, u, rfl⟩ := flags_of_interrupts henv
    have hhead : f ∈ ((s.withTables (s.tables.flags l u)).stack t).head? := by
      simp [withTables, hstack]
    rcases h l u (hok f hhead) with ⟨hwaits, -⟩ | ⟨w', n, hexec, -⟩
    · exact .inl ⟨f, hhead, hwaits⟩
    · right
      obtain ⟨ch, hch⟩ := exists_agrees driver f (s.tables.flags l u)
      refine ⟨((s.withTables w').setStack t (stackAfter rest n)), ch, ?_, ?_⟩
      · intro g hg
        obtain rfl := Option.mem_unique hhead hg
        exact hch
      · simp only [next, execTop, withTables, hstack]
        rw [hexec ch hch]
        rfl
  · rintro s' s'' henv hok ⟨ch, hch, hnext⟩
    obtain ⟨l, u, rfl⟩ := flags_of_interrupts henv
    have hhead : f ∈ ((s.withTables (s.tables.flags l u)).stack t).head? := by
      simp [withTables, hstack]
    obtain ⟨f', rest', w'', n', hstack', hexec', rfl⟩ := next_exec hnext
    simp only [withTables, hstack, List.cons.injEq] at hstack' hexec'
    obtain ⟨rfl, rfl⟩ := hstack'
    rcases h l u (hok f hhead) with ⟨-, hnone⟩ | ⟨w', n, hexec, hrest⟩
    · rw [hnone ch (hch f hhead)] at hexec'
      cases hexec'
    · rw [hexec ch (hch f hhead)] at hexec'
      obtain ⟨rfl, rfl⟩ := Prod.mk.inj (Option.some.inj hexec')
      apply hrest.ends
      · simp [setStack]
      · rfl

/-- A weaker result. -/
theorem Total.mono {Q' : Tables → Option ℕ → Prop} (h : Total driver t f w Q)
    (hQ : ∀ w v, Q w v → Q' w v) : Total driver t f w Q' := by
  intro s rest hstack htables
  apply (h s rest hstack htables).bind
  rintro s' ⟨v, hstack', hv⟩
  exact .done ⟨v, hstack', hQ _ _ hv⟩

end FsSystem

end LihaLinux.Fs
