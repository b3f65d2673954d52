import LihaLinux.Fs.CacheRuns

/-!
# Inode locks

`read_inode` and `write_inode` lock an inode and then read a block. If `getblk` finds that
every buffer it could take is dirty, it calls `sync_dev`, which waits for every inode of the
table, also for the one its own task has locked. As long as this does not happen, no task
waits for a lock it holds.
-/

namespace LihaLinux.Fs

/-- The inode whose lock a call has set and not yet cleared. -/
def Frame.locks : Frame → Option ℕ
  | .writeSuper i | .writeRead i | .writeCopy i _ | .writeUnlock i
  | .readSuper i | .readRead i | .readCopy i _ | .readUnlock i => some i
  | _ => none

/-- The inode for which a call executes `wait_on_inode` or `lock_inode`. -/
def Frame.waitsOn : Frame → Option ℕ
  | .writeInode i | .readInode i | .emptyWait i | .iput i | .iputWait i | .igetWait _ _ _ i =>
    some i
  | .syncInodes i => if i < nrInode then some i else none
  | _ => none

/-- The calls inside the buffer cache and the block driver, outside `sync_dev`. -/
def Frame.inCache : Frame → Bool
  | .hashFind _ _ | .hashWait _ _ _ | .getblk _ _ | .getblkHash _ _ | .getblkGot _ _ _
  | .getblkWait _ _ _ | .bread _ _ | .breadBlk | .breadGot _ | .breadWait _ | .breadFail
  | .brelse _ | .llRwBlock _ _ | .request _ _ => true
  | _ => false

/-- Above a call that has locked an inode there are calls of the buffer cache only. -/
def Guarded (f g : Frame) : Prop := g.locks.isSome → f.inCache

/-- `getblk` has a free and unlocked buffer that is dirty: it will call `sync_dev`. -/
def Frame.syncs (c : Cache) : Frame → Bool
  | .getblkWait _ _ bh => !c.lock bh && c.count bh = 0 && c.dirt bh
  | _ => false

/-- A call of the cache stays in the cache, unless it has to write dirty buffers. -/
theorem Frame.exec_inCache {w w' : Tables} {ch : Choice} {f : Frame} {n : Next}
    (h : f.exec w ch = some (w', n)) (hf : f.inCache) (hsync : f.syncs w.cache = false) :
    ∀ g ∈ n.frames, g.inCache := by
  replace h := Frame.exec_rule h
  cases h
  all_goals
    simp only [Frame.inCache, Bool.false_eq_true] at hf
  all_goals
    simp only [Next.frames, List.forall_mem_cons, List.not_mem_nil, false_imp_iff, implies_true,
      and_true, Frame.inCache]
  simp_all [Frame.syncs]

/-- A call that has locked an inode calls the cache only. -/
theorem Frame.exec_guarded {w w' : Tables} {ch : Choice} {f f' callee : Frame}
    (h : f.exec w ch = some (w', .call f' callee)) : Guarded callee f' := by
  intro hlocks
  cases Frame.exec_rule h
  all_goals
    first
      | rfl
      | simp [Frame.locks] at hlocks

/-- A resumed call of the cache is one. -/
theorem Frame.resume_inCache (f : Frame) (v : Option ℕ) : (f.resume v).inCache = f.inCache := by
  unfold Frame.resume
  split
  all_goals try split
  all_goals rfl

/-- A step keeps the stack guarded, unless `getblk` has to write dirty buffers for a task that
has locked an inode. -/
theorem Frame.exec_pairwise {w w' : Tables} {ch : Choice} {f : Frame} {n : Next}
    {rest : List Frame} (h : f.exec w ch = some (w', n)) (hs : List.Pairwise Guarded (f :: rest))
    (hsync : ∀ g ∈ rest, g.locks.isSome → f.syncs w.cache = false) :
    List.Pairwise Guarded (FsSystem.stackAfter rest n) := by
  rw [List.pairwise_cons] at hs
  have hnew : ∀ f' ∈ n.frames, ∀ g ∈ rest, Guarded f' g := fun f' hf' g hg hlocks =>
    Frame.exec_inCache h (hs.1 g hg hlocks) (hsync g hg hlocks) f' hf'
  cases n with
  | go f' =>
    simp only [Next.frames, List.forall_mem_singleton] at hnew
    exact List.pairwise_cons.mpr ⟨hnew, hs.2⟩
  | call f' callee =>
    simp only [Next.frames, List.forall_mem_cons] at hnew
    refine List.pairwise_cons.mpr ⟨?_, List.pairwise_cons.mpr ⟨hnew.2.1, hs.2⟩⟩
    rw [List.forall_mem_cons]
    exact ⟨Frame.exec_guarded h, hnew.1⟩
  | ret v =>
    cases rest with
    | nil => exact List.Pairwise.nil
    | cons g rest =>
      have hrest := List.pairwise_cons.mp hs.2
      refine List.pairwise_cons.mpr ⟨?_, hrest.2⟩
      intro g' hg' hlocks
      rw [Frame.resume_inCache]
      exact hrest.1 g' hg' hlocks

namespace FsSystem

variable {τ : Type*}

/-- A task waits for an inode that it has locked itself. -/
def SelfWait (s : FsSystem τ) (t : τ) : Prop :=
  ∃ f rest i, s.stack t = f :: rest ∧ f.waitsOn = some i ∧ ∃ g ∈ rest, g.locks = some i

/-- The task that takes a step does not have to write dirty buffers in `getblk` while it has
an inode locked. -/
def careful (s : FsSystem τ) : FsEvent τ → Bool
  | .exec t _ =>
    match s.stack t with
    | [] => true
    | f :: rest => !(f.syncs s.tables.cache && rest.any fun g => g.locks.isSome)
  | _ => true

variable [DecidableEq τ]

/-- A careful step, or anything that changes the tables outside these calls. -/
def CarefulStep (s s' : FsSystem τ) : Prop :=
  (∃ e, s.next e = some s' ∧ s.careful e) ∨ s'.stack = s.stack

/-- A careful step keeps the stacks guarded. -/
theorem CarefulStep.pairwise {s s' : FsSystem τ} (h : CarefulStep s s')
    (hs : ∀ t, List.Pairwise Guarded (s.stack t)) (t : τ) : List.Pairwise Guarded (s'.stack t) := by
  rcases h with ⟨e, he, hcareful⟩ | hstack
  · rcases next_cases he with ⟨u, ch, f, rest, w, n, rfl, hstack, hexec, rfl⟩ | hout
    · by_cases ht : t = u
      · subst t
        have hu := hs u
        rw [hstack] at hu
        simp only [setStack, Function.update_self]
        apply Frame.exec_pairwise hexec hu
        intro g hg hlocks
        simp only [careful, hstack] at hcareful
        grind
      · simp only [setStack, withTables, Function.update_of_ne ht]
        exact hs t
    · rcases hout.stack t with hstack | hstack | ⟨c, hstack⟩ <;> rw [hstack]
      · exact hs t
      · exact List.Pairwise.nil
      · cases c <;> simp [FsCall.frames, Guarded, Frame.locks]
  · rw [hstack]
    exact hs t

/-- The events of a careful run. -/
def carefulNext (s : FsSystem τ) (e : FsEvent τ) : Option (FsSystem τ) :=
  if s.careful e then s.next e else none

/-- These events are careful steps. -/
theorem CarefulStep.of_carefulNext {s s' : FsSystem τ} {e : FsEvent τ}
    (h : s.carefulNext e = some s') : CarefulStep s s' := by
  simp only [carefulNext, Option.ite_none_right_eq_some] at h
  exact .inl ⟨e, h.2, h.1⟩

end FsSystem

namespace FsSystem

end FsSystem

end LihaLinux.Fs
