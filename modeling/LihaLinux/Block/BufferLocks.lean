import LihaLinux.Block.Machine
import LihaLinux.Lib.Counting

/-!
# Locked buffers

A buffer is locked by a task in `make_request` or by a request in a queue, and by one of these
only. A locked buffer and a buffer with references are not given to another block, so the device
of a request stays that of its buffer.
-/

namespace LihaLinux.Block

/-! ### What a step does -/

/-- The calls that neither make a request nor are about to make one. -/
def IoFrame.plain : IoFrame → Bool
  | .llRwBlock .. | .lockBuffer .. | .testBuffer .. | .findRequest .. | .fillRequest ..
  | .addRequest .. => false
  | _ => true

/-- The steps that change neither a lock nor a device nor a request. -/
inductive Quiet (w : IoTables) : IoFrame → IoNext → Prop
  | ret {f : IoFrame} (hf : f.plain = true ∨ ∃ rw bh, f = .llRwBlock rw bh) : Quiet w f .ret
  | got {f : IoFrame} (hf : f.plain = true) (bh : ℕ) : Quiet w f (.got bh)
  | go {f g : IoFrame} (hf : f.plain = true) (hg : g.plain = true) : Quiet w f (.go g)
  | sleep {f g : IoFrame} (hf : f.plain = true) (hg : g.plain = true) : Quiet w f (.sleep g)
  | call {f g callee : IoFrame} (hf : f.plain = true) (hg : g.plain = true)
      (hcallee : callee.plain = true) : Quiet w f (.call g callee)
  | write {f g : IoFrame} {i : ℕ} (hf : f.plain = true) (hg : g.plain = true)
      (hlock : w.cache.lock i = false) : Quiet w f (.call g (.llRwBlock .write i))
  | request (rw : RwCommand) (bh : ℕ) : Quiet w (.llRwBlock rw bh)
      (.go (.lockBuffer rw.cmd rw.ahead (majorOf (w.cache.dev bh)) bh))
  | wait (cmd : ℕ) (ahead : Bool) {major bh : ℕ} (hlock : w.cache.lock bh = true) :
      Quiet w (.lockBuffer cmd ahead major bh) (.sleep (.lockBuffer cmd ahead major bh))
  | test (cmd : ℕ) (ahead : Bool) (major bh : ℕ) : Quiet w (.testBuffer cmd ahead major bh)
      (.go (.findRequest cmd ahead major bh (requestLimit cmd)))
  | full (cmd : ℕ) (ahead : Bool) (major bh : ℕ) : Quiet w (.findRequest cmd ahead major bh 0)
      (.sleep (.findRequest cmd ahead major bh (requestLimit cmd)))
  | used (cmd : ℕ) (ahead : Bool) (major bh i : ℕ) :
      Quiet w (.findRequest cmd ahead major bh (i + 1)) (.go (.findRequest cmd ahead major bh i))
  | free (cmd : ℕ) (ahead : Bool) (major bh i : ℕ) (hfree : (w.requests.request i).dev < 0) :
      Quiet w (.findRequest cmd ahead major bh (i + 1)) (.go (.fillRequest cmd major bh i))

/-- The buffers that a call holds. -/
def IoFrame.refs : IoFrame → List ℕ
  | .hashWait _ _ _ bh => [bh]
  | .brelse bh => [bh]
  | _ => []

/-- The buffers that a task holds after a step of its topmost call. -/
def IoNext.refs : IoNext → List ℕ
  | .go f | .sleep f => f.refs
  | .call f callee => callee.refs ++ f.refs
  | .ret => []
  | .got bh => [bh]

/-- What a step of the topmost call does to locks, devices and requests. -/
inductive Effect (w : IoTables) : IoFrame → IoTables → IoNext → Prop
  | quiet {f : IoFrame} {c : Fs.Cache} {n : IoNext} (hlock : c.lock = w.cache.lock)
      (hdev : c.dev = w.cache.dev)
      (hrefs : ∀ b, (c.count b + f.refs.count b) % 256 = (w.cache.count b + n.refs.count b) % 256)
      (hquiet : Quiet w f n) : Effect w f (w.withCache c) n
  | assign {dev block bh : ℕ} {c : Fs.Cache} (hlock : w.cache.lock bh = false)
      (hcount : w.cache.count bh = 0) (hassign : w.cache.assign dev block bh = some c) :
      Effect w (.getblkWait dev block bh) (w.withCache c) (.got bh)
  | lock (cmd : ℕ) (ahead : Bool) {major bh : ℕ} (hlock : w.cache.lock bh = false) :
      Effect w (.lockBuffer cmd ahead major bh) (w.withCache (w.cache.setLock bh true))
        (.go (.testBuffer cmd ahead major bh))
  | unlock {f : IoFrame} {bh : ℕ} (hf : ∃ cmd ahead major, f = .testBuffer cmd ahead major bh ∨
      f = .findRequest cmd ahead major bh 0) : Effect w f (w.unlockBuffer bh) .ret
  | fill (cmd major bh req : ℕ) : Effect w (.fillRequest cmd major bh req)
      (w.fillRequest cmd bh req) (.go (.addRequest major req))
  | add {major req : ℕ} {w' : IoTables} {n : IoNext} (hadd : w.addRequest major req = some w')
      (hn : n = .ret ∨ n = .go (.requestFn major)) : Effect w (.addRequest major req) w' n
  | finish {major : ℕ} {w' : IoTables} {uptodate : Bool}
      (hend : w.endRequest major uptodate = some w') :
      Effect w (.requestFn major) w' (.go (.requestFn major))

/-- Steps that leave the tables alone. -/
theorem Effect.same {w : IoTables} {f : IoFrame} {n : IoNext} (h : Quiet w f n)
    (hrefs : f.refs = n.refs) : Effect w f w n :=
  .quiet (c := w.cache) rfl rfl (fun b => by rw [hrefs]) h

theorem incCount_refs (c : Fs.Cache) (bh b : ℕ) :
    ((c.incCount bh).count b + [].count b) % 256 = (c.count b + [bh].count b) % 256 := by
  simp only [List.count_nil, List.count_singleton, Fs.Cache.incCount, Function.update_apply]
  by_cases h : b = bh
  · subst h
    simp
  · simp [h, Ne.symm h]

theorem decCount_refs (c : Fs.Cache) (bh b : ℕ) :
    ((c.decCount bh).count b + [bh].count b) % 256 = (c.count b + [].count b) % 256 := by
  simp only [List.count_nil, List.count_singleton, Fs.Cache.decCount, Function.update_apply]
  by_cases h : b = bh
  · subst h
    simp
    omega
  · simp [h, Ne.symm h]

theorem IoFrame.exec_effect {w w' : IoTables} {ended : Option Bool} {f : IoFrame} {n : IoNext}
    (h : f.exec w ended = some (w', n)) : Effect w f w' n := by
  cases f with
  | hash get dev block =>
    simp only [exec] at h
    split at h
    · obtain ⟨rfl, rfl⟩ := Prod.mk.inj (Option.some.inj h)
      exact .quiet rfl rfl (incCount_refs _ _) (.go rfl rfl)
    · split at h
      · obtain ⟨tmp, -, h⟩ := Option.map_eq_some_iff.mp h
        obtain ⟨rfl, rfl⟩ := Prod.mk.inj h
        exact .same (.go rfl rfl) rfl
      · obtain ⟨rfl, rfl⟩ := Prod.mk.inj (Option.some.inj h)
        exact .same (.ret (.inl rfl)) rfl
  | hashWait get dev block bh =>
    simp only [exec] at h
    split at h
    · obtain ⟨rfl, rfl⟩ := Prod.mk.inj (Option.some.inj h)
      exact .same (.sleep rfl rfl) rfl
    · split at h
      · obtain ⟨rfl, rfl⟩ := Prod.mk.inj (Option.some.inj h)
        exact .same (.got rfl bh) rfl
      · obtain ⟨rfl, rfl⟩ := Prod.mk.inj (Option.some.inj h)
        exact .quiet rfl rfl (decCount_refs _ _) (.go rfl rfl)
  | scanFree dev block tmp best =>
    simp only [exec] at h
    split at h
    · obtain ⟨rfl, rfl⟩ := Prod.mk.inj (Option.some.inj h)
      exact .same (.go rfl rfl) rfl
    · obtain ⟨next, -, h⟩ := Option.map_eq_some_iff.mp h
      split at h
      · split at h
        · obtain ⟨rfl, rfl⟩ := Prod.mk.inj h
          exact .same (.sleep rfl rfl) rfl
        · obtain ⟨rfl, rfl⟩ := Prod.mk.inj h
          exact .same (.go rfl rfl) rfl
      · obtain ⟨rfl, rfl⟩ := Prod.mk.inj h
        exact .same (.go rfl rfl) rfl
  | getblkWait dev block bh =>
    simp only [exec] at h
    split at h
    · obtain ⟨rfl, rfl⟩ := Prod.mk.inj (Option.some.inj h)
      exact .same (.sleep rfl rfl) rfl
    · split at h
      · obtain ⟨rfl, rfl⟩ := Prod.mk.inj (Option.some.inj h)
        exact .same (.go rfl rfl) rfl
      · split at h
        · obtain ⟨rfl, rfl⟩ := Prod.mk.inj (Option.some.inj h)
          exact .same (.call rfl rfl rfl) rfl
        · split at h
          · obtain ⟨rfl, rfl⟩ := Prod.mk.inj (Option.some.inj h)
            exact .same (.go rfl rfl) rfl
          · rename_i hlock hcount _ _
            obtain ⟨c, hassign, h⟩ := Option.map_eq_some_iff.mp h
            obtain ⟨rfl, rfl⟩ := Prod.mk.inj h
            exact .assign (Bool.not_eq_true _ ▸ hlock) (not_not.mp hcount) hassign
  | brelse bh =>
    simp only [exec] at h
    split at h
    · obtain ⟨rfl, rfl⟩ := Prod.mk.inj (Option.some.inj h)
      exact .same (.sleep rfl rfl) rfl
    · split at h
      · exact nomatch h
      · obtain ⟨rfl, rfl⟩ := Prod.mk.inj (Option.some.inj h)
        exact .quiet rfl rfl (decCount_refs _ _) (.ret (.inl rfl))
  | waitOnBuffer bh =>
    simp only [exec] at h
    split at h
    · obtain ⟨rfl, rfl⟩ := Prod.mk.inj (Option.some.inj h)
      exact .same (.sleep rfl rfl) rfl
    · obtain ⟨rfl, rfl⟩ := Prod.mk.inj (Option.some.inj h)
      exact .same (.ret (.inl rfl)) rfl
  | syncDev dev first i =>
    simp only [exec] at h
    split at h
    · split at h
      · obtain ⟨rfl, rfl⟩ := Prod.mk.inj (Option.some.inj h)
        exact .same (.go rfl rfl) rfl
      · obtain ⟨rfl, rfl⟩ := Prod.mk.inj (Option.some.inj h)
        exact .same (.ret (.inl rfl)) rfl
    · split at h
      · obtain ⟨rfl, rfl⟩ := Prod.mk.inj (Option.some.inj h)
        exact .same (.go rfl rfl) rfl
      · split at h
        · obtain ⟨rfl, rfl⟩ := Prod.mk.inj (Option.some.inj h)
          exact .same (.sleep rfl rfl) rfl
        · rename_i hlock
          split at h
          · obtain ⟨rfl, rfl⟩ := Prod.mk.inj (Option.some.inj h)
            exact .same (.write rfl rfl (Bool.not_eq_true _ ▸ hlock)) rfl
          · obtain ⟨rfl, rfl⟩ := Prod.mk.inj (Option.some.inj h)
            exact .same (.go rfl rfl) rfl
  | syncInodes dev =>
    cases dev with
    | some dev =>
      obtain ⟨rfl, rfl⟩ := Prod.mk.inj (Option.some.inj h)
      exact .same (.go rfl rfl) rfl
    | none =>
      obtain ⟨rfl, rfl⟩ := Prod.mk.inj (Option.some.inj h)
      exact .same (.go rfl rfl) rfl
  | sysSync i =>
    simp only [exec] at h
    split at h
    · obtain ⟨rfl, rfl⟩ := Prod.mk.inj (Option.some.inj h)
      exact .same (.ret (.inl rfl)) rfl
    · split at h
      · obtain ⟨rfl, rfl⟩ := Prod.mk.inj (Option.some.inj h)
        exact .same (.sleep rfl rfl) rfl
      · rename_i hlock
        split at h
        · obtain ⟨rfl, rfl⟩ := Prod.mk.inj (Option.some.inj h)
          exact .same (.write rfl rfl (Bool.not_eq_true _ ▸ hlock)) rfl
        · obtain ⟨rfl, rfl⟩ := Prod.mk.inj (Option.some.inj h)
          exact .same (.go rfl rfl) rfl
  | llRwBlock rw bh =>
    simp only [exec] at h
    split at h
    · obtain ⟨rfl, rfl⟩ := Prod.mk.inj (Option.some.inj h)
      exact .same (.ret (.inr ⟨rw, bh, rfl⟩)) rfl
    · split at h
      · obtain ⟨rfl, rfl⟩ := Prod.mk.inj (Option.some.inj h)
        exact .same (.ret (.inr ⟨rw, bh, rfl⟩)) rfl
      · obtain ⟨rfl, rfl⟩ := Prod.mk.inj (Option.some.inj h)
        exact .same (.request rw bh) rfl
  | lockBuffer cmd ahead major bh =>
    simp only [exec] at h
    split at h
    · rename_i hlock
      obtain ⟨rfl, rfl⟩ := Prod.mk.inj (Option.some.inj h)
      exact .same (.wait cmd ahead hlock) rfl
    · rename_i hlock
      obtain ⟨rfl, rfl⟩ := Prod.mk.inj (Option.some.inj h)
      exact .lock cmd ahead (Bool.not_eq_true _ ▸ hlock)
  | testBuffer cmd ahead major bh =>
    simp only [exec] at h
    split at h
    · obtain ⟨rfl, rfl⟩ := Prod.mk.inj (Option.some.inj h)
      exact .unlock ⟨cmd, ahead, major, .inl rfl⟩
    · obtain ⟨rfl, rfl⟩ := Prod.mk.inj (Option.some.inj h)
      exact .same (.test cmd ahead major bh) rfl
  | findRequest cmd ahead major bh i =>
    cases i with
    | zero =>
      simp only [exec] at h
      split at h
      · obtain ⟨rfl, rfl⟩ := Prod.mk.inj (Option.some.inj h)
        exact .unlock ⟨cmd, ahead, major, .inr rfl⟩
      · obtain ⟨rfl, rfl⟩ := Prod.mk.inj (Option.some.inj h)
        exact .same (.full cmd ahead major bh) rfl
    | succ i =>
      simp only [exec] at h
      split at h
      · rename_i hfree
        obtain ⟨rfl, rfl⟩ := Prod.mk.inj (Option.some.inj h)
        exact .same (.free cmd ahead major bh i hfree) rfl
      · obtain ⟨rfl, rfl⟩ := Prod.mk.inj (Option.some.inj h)
        exact .same (.used cmd ahead major bh i) rfl
  | fillRequest cmd major bh req =>
    obtain ⟨rfl, rfl⟩ := Prod.mk.inj (Option.some.inj h)
    exact .fill cmd major bh req
  | addRequest major req =>
    obtain ⟨w₁, hadd, h⟩ := Option.map_eq_some_iff.mp h
    obtain ⟨rfl, rfl⟩ := Prod.mk.inj h
    refine .add hadd ?_
    split
    · exact .inr rfl
    · exact .inl rfl
  | requestFn major =>
    simp only [exec] at h
    split at h
    · exact nomatch h
    · split at h
      · obtain ⟨w₁, hend, h⟩ := Option.map_eq_some_iff.mp h
        obtain ⟨rfl, rfl⟩ := Prod.mk.inj h
        exact .finish hend
      · obtain ⟨rfl, rfl⟩ := Prod.mk.inj (Option.some.inj h)
        exact .same (.ret (.inl rfl)) rfl

/-- What the end of `getblk` does with the buffer. -/
theorem assigned_of_assign {c c' : Fs.Cache} {dev block bh : ℕ}
    (h : c.assign dev block bh = some c') : Fs.Cache.Assigned c c' dev block bh := by
  unfold Fs.Cache.assign at h
  simp only [Option.bind_eq_some_iff, Option.map_eq_some_iff] at h
  obtain ⟨c₁, hremove, c₂, hinsert, rfl⟩ := h
  unfold Fs.Cache.removeFromFree at hremove
  unfold Fs.Cache.insertIntoFree at hinsert
  split at hremove
  · rw [Option.some.injEq] at hremove
    subst hremove
    split at hinsert
    · exact nomatch hinsert
    · dsimp only at hinsert
      split at hinsert
      · exact nomatch hinsert
      · rw [Option.some.injEq] at hinsert
        subst hinsert
        have hsame := Fs.Cache.insertIntoHash_hashOnly
        constructor
        all_goals simp only [(hsame _ _).nrBuffers, (hsame _ _).dev, (hsame _ _).blocknr,
          (hsame _ _).uptodate, (hsame _ _).dirt, (hsame _ _).lock, (hsame _ _).count,
          (Fs.Cache.removeFromHash_hashOnly _ _).nrBuffers,
          (Fs.Cache.removeFromHash_hashOnly _ _).dev,
          (Fs.Cache.removeFromHash_hashOnly _ _).blocknr,
          (Fs.Cache.removeFromHash_hashOnly _ _).uptodate,
          (Fs.Cache.removeFromHash_hashOnly _ _).dirt,
          (Fs.Cache.removeFromHash_hashOnly _ _).lock,
          (Fs.Cache.removeFromHash_hashOnly _ _).count]
  · exact nomatch hremove

/-- A step changes `b_count` by the references gained and lost. -/
theorem Effect.refs {w w' : IoTables} {f : IoFrame} {n : IoNext} (h : Effect w f w' n) (b : ℕ) :
    (w'.cache.count b + f.refs.count b) % 256 = (w.cache.count b + n.refs.count b) % 256 := by
  cases h with
  | quiet hlock hdev hrefs hquiet => exact hrefs b
  | assign hlock hcount hassign =>
    rename_i dev block bh c
    have hnew : c.count b = Function.update w.cache.count bh 1 b := by
      rw [(assigned_of_assign hassign).count]
    change (c.count b + [].count b) % 256 = (w.cache.count b + [bh].count b) % 256
    rw [hnew, List.count_nil, List.count_singleton, Function.update_apply]
    by_cases h : b = bh
    · subst h
      simp [hcount]
    · simp [h, Ne.symm h]
  | lock cmd ahead hlock => rfl
  | unlock hf =>
    obtain ⟨cmd, ahead, major, rfl | rfl⟩ := hf
    · rfl
    · rfl
  | fill cmd major bh req => rfl
  | add hadd hn =>
    rename_i major req
    obtain ⟨r, -, rfl⟩ := Option.map_eq_some_iff.mp hadd
    have hrefs : n.refs = [] := by
      rcases hn with rfl | rfl
      · rfl
      · rfl
    rw [hrefs]
    cases (w.requests.request req).bh with
    | none => rfl
    | some bh => rfl
  | finish hend =>
    obtain ⟨req, -, hend⟩ := Option.bind_eq_some_iff.mp hend
    obtain ⟨r, -, rfl⟩ := Option.map_eq_some_iff.mp hend
    cases (w.requests.request req).bh with
    | none => rfl
    | some bh => rfl

end LihaLinux.Block
