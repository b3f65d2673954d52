import LihaLinux.Fs.Alone
import Mathlib.Tactic.IntervalCases

/-!
# The end of `getblk`

`getblk` writes the buffer that it has chosen until it is clean, by `sync_dev`, which writes the
dirty inodes too, for which it needs `getblk` again. Every inode that is being written is locked, so
the calls are nested no deeper than there are inodes; and a call of `sync_dev` that writes no inode
leaves the buffers of its device clean. With a free buffer and without other tasks, `getblk` comes
to its end, unless its loop meets a dirty buffer of a device without a driver: `ll_rw_block` does
nothing with it, so it stays dirty, and the loop does not end.
-/

namespace LihaLinux.Fs

/-! ### What the calls leave behind -/

/-- Transfers have been made: buffers may be clean now. -/
structure Transferred (w w' : Tables) : Prop where
  queues : Cache.SameQueues w.cache w'.cache
  count : w'.cache.count = w.cache.count
  inode : w'.inode = w.inode
  dirt : ∀ b, w'.cache.dirt b = true → w.cache.dirt b = true

/-- Inodes have been written. Buffers have got other blocks or have become dirty only if an inode
has become clean. -/
structure Synced (w w' : Tables) : Prop where
  wf : (∃ free chain, w.cache.Wf free chain) → ∃ free chain, w'.cache.Wf free chain
  nrBuffers : w'.cache.nrBuffers = w.cache.nrBuffers
  lock : ∀ i, (w'.inode i).lock = (w.inode i).lock
  inodes : ∀ i, (w'.inode i).dirt = true → (w.inode i).dirt = true
  count : ∀ b, w.cache.count b = 0 → w'.cache.count b = 0
  buffers : (∀ i < nrInode, (w.inode i).dirt = true → (w'.inode i).dirt = true) →
    w'.cache.dev = w.cache.dev ∧ ∀ b, w'.cache.dirt b = true → w.cache.dirt b = true

/-- A buffer has been found or taken, and it has one reference more. -/
structure Got (w w' : Tables) (bh : ℕ) : Prop where
  wf : ∃ free chain, w'.cache.Wf free chain
  nrBuffers : w'.cache.nrBuffers = w.cache.nrBuffers
  lock : ∀ i, (w'.inode i).lock = (w.inode i).lock
  inodes : ∀ i, (w'.inode i).dirt = true → (w.inode i).dirt = true
  count : ∀ b, b ≠ bh → w.cache.count b = 0 → w'.cache.count b = 0
  held : w.cache.count bh = 0 → w'.cache.count bh = 1

/-- Interrupts only. -/
theorem Transferred.flags (w : Tables) (l u : ℕ → Bool) : Transferred w (w.flags l u) :=
  ⟨w.flags_sameQueues l u, rfl, rfl, fun _ h => h⟩

theorem Transferred.trans {w₁ w₂ w₃ : Tables} (h : Transferred w₁ w₂) (h' : Transferred w₂ w₃) :
    Transferred w₁ w₃ := by
  constructor
  · exact h.queues.trans h'.queues
  · rw [h'.count, h.count]
  · rw [h'.inode, h.inode]
  · exact fun b hb => h.dirt b (h'.dirt b hb)

/-- Transfers write no inode. -/
theorem Transferred.synced {w w' : Tables} (h : Transferred w w') : Synced w w' := by
  constructor
  · rintro ⟨free, chain, hwf⟩
    exact ⟨free, chain, hwf.of_sameQueues h.queues⟩
  · exact h.queues.nrBuffers
  · exact fun i => by rw [h.inode]
  · exact fun i => by rw [h.inode]; exact id
  · exact fun b => by rw [h.count]; exact id
  · exact fun _ => ⟨h.queues.dev, h.dirt⟩

theorem Synced.trans {w₁ w₂ w₃ : Tables} (h : Synced w₁ w₂) (h' : Synced w₂ w₃) :
    Synced w₁ w₃ := by
  constructor
  · exact fun hwf => h'.wf (h.wf hwf)
  · rw [h'.nrBuffers, h.nrBuffers]
  · exact fun i => (h'.lock i).trans (h.lock i)
  · exact fun i hi => h.inodes i (h'.inodes i hi)
  · exact fun b hb => h'.count b (h.count b hb)
  · intro hsame
    obtain ⟨hdev, hdirt⟩ := h.buffers fun i hi hd => h'.inodes i (hsame i hi hd)
    obtain ⟨hdev', hdirt'⟩ := h'.buffers fun i hi hd => hsame i hi (h.inodes i hd)
    exact ⟨hdev'.trans hdev, fun b hb => hdirt b (hdirt' b hb)⟩

/-- What has been got after inodes have been written. -/
theorem Synced.got {w w₁ w' : Tables} {bh : ℕ} (h : Synced w w₁) (h' : Got w₁ w' bh) :
    Got w w' bh := by
  constructor
  · exact h'.wf
  · rw [h'.nrBuffers, h.nrBuffers]
  · exact fun i => (h'.lock i).trans (h.lock i)
  · exact fun i hi => h.inodes i (h'.inodes i hi)
  · exact fun b hb h0 => h'.count b hb (h.count b h0)
  · exact fun h0 => h'.held (h.count bh h0)

/-- A buffer that has been got is read. -/
theorem Got.transferred {w w₁ w' : Tables} {bh : ℕ} (h : Got w w₁ bh) (h' : Transferred w₁ w') :
    Got w w' bh := by
  constructor
  · exact h'.synced.wf h.wf
  · rw [h'.queues.nrBuffers, h.nrBuffers]
  · exact fun i => by rw [h'.inode]; exact h.lock i
  · exact fun i => by rw [h'.inode]; exact h.inodes i
  · exact fun b => by rw [h'.count]; exact h.count b
  · rw [h'.count]
    exact h.held

/-! ### The measures -/

/-- The number of dirty inodes. -/
def dirtyInodes (w : Tables) : ℕ :=
  ((Finset.range nrInode).filter fun i => (w.inode i).dirt = true).card

/-- The number of unlocked inodes. -/
def unlockedInodes (w : Tables) : ℕ :=
  ((Finset.range nrInode).filter fun i => (w.inode i).lock = false).card

/-- Writing inodes makes fewer inodes dirty, or it leaves the buffers with their devices. -/
theorem Synced.dirtyInodes_lt {w w' : Tables} (h : Synced w w') :
    dirtyInodes w' < dirtyInodes w ∨
      w'.cache.dev = w.cache.dev ∧ ∀ b, w'.cache.dirt b = true → w.cache.dirt b = true := by
  by_cases hsame : ∀ i < nrInode, (w.inode i).dirt = true → (w'.inode i).dirt = true
  · exact Or.inr (h.buffers hsame)
  · left
    simp only [not_forall] at hsame
    obtain ⟨i, hi, hdirt, hclean⟩ := hsame
    apply Finset.card_lt_card
    rw [Finset.ssubset_iff_of_subset]
    · refine ⟨i, ?_, ?_⟩
      · simp [hi, hdirt]
      · simp [hclean]
    · intro j hj
      simp only [Finset.mem_filter] at hj ⊢
      exact ⟨hj.1, h.inodes j hj.2⟩

/-- The same inodes are locked afterwards. -/
theorem Synced.unlockedInodes {w w' : Tables} (h : Synced w w') :
    unlockedInodes w' = unlockedInodes w := by
  simp only [Fs.unlockedInodes, h.lock]

/-- Locking an inode leaves fewer unlocked ones. -/
theorem unlockedInodes_lock {w : Tables} {i : ℕ} (hi : i < nrInode)
    (hlock : (w.inode i).lock = false) :
    unlockedInodes (w.setInode i { w.inode i with lock := true }) < unlockedInodes w := by
  apply Finset.card_lt_card
  rw [Finset.ssubset_iff_of_subset]
  · refine ⟨i, ?_, ?_⟩
    · simp [hi, hlock]
    · simp [Tables.setInode_apply]
  · intro j hj
    simp only [Finset.mem_filter, Tables.setInode_apply] at hj ⊢
    split_ifs at hj with hji
    · simp at hj
    · exact hj

/-- The queues are in order, and there is a free buffer. -/
def HasFree (w : Tables) : Prop :=
  (∃ free chain, w.cache.Wf free chain) ∧ ∃ b < w.cache.nrBuffers, w.cache.count b = 0

theorem HasFree.synced {w w' : Tables} (h : HasFree w) (h' : Synced w w') : HasFree w' := by
  obtain ⟨hwf, b, hb, hcount⟩ := h
  exact ⟨h'.wf hwf, b, by rw [h'.nrBuffers]; exact hb, h'.count b hcount⟩

namespace FsSystem

variable {τ : Type*} [DecidableEq τ] {driver : ℕ → Bool} {t : τ} {w : Tables}
  {Q : Tables → Option ℕ → Prop}

/-! ### Transfers -/

/-- `ll_rw_block` ends; a write to a device with a driver leaves the buffer clean. -/
theorem llRwBlock_total {rw : Rw} {bh : ℕ}
    (hQ : ∀ w', Transferred w w' →
      (rw = .write → hasDriver driver (w.cache.dev bh) = true → w'.cache.dirt bh = false) →
      Q w' none) : Total driver t (.llRwBlock rw bh) w Q := by
  apply Total.step
  intro l u _
  by_cases hdev : hasDriver driver (w.cache.dev bh) = true
  · by_cases hlock : l bh = true
    · left
      refine ⟨⟨bh, rfl, hlock⟩, ?_⟩
      intro ch hch
      have hdevice : ch.device = true := hch.trans hdev
      simp [Frame.exec, hdevice, hlock]
    · right
      by_cases hnothing : rw = .write ∧ (w.cache.dirt bh = false) ∨ rw = .read ∧ u bh = true
      · refine ⟨w.flags l u, .ret none, ?_, hQ _ (.flags w l u) ?_⟩
        · intro ch hch
          have hdevice : ch.device = true := hch.trans hdev
          simp [Frame.exec, hdevice, hlock, hnothing]
        · rintro rfl -
          simpa using hnothing
      · refine ⟨(w.flags l u).withCache ((w.flags l u).cache.setLock bh true),
          .go (.request rw bh), ?_, ?_⟩
        · intro ch hch
          have hdevice : ch.device = true := hch.trans hdev
          simp [Frame.exec, hdevice, hlock, hnothing]
        · -- the request is made
          apply Total.step
          intro l' u' _
          right
          refine ⟨_, .ret none, fun _ _ => rfl, hQ _ ?_ ?_⟩
          · constructor
            · constructor <;> rfl
            · rfl
            · rfl
            · intro b hb
              simp only [Tables.withCache, Cache.setDirt, Function.update_apply] at hb
              split_ifs at hb
              exact hb
          · intro _ _
            simp [Tables.withCache, Cache.setDirt]
  · right
    refine ⟨w.flags l u, .ret none, ?_, hQ _ (.flags w l u) ?_⟩
    · intro ch hch
      have hdevice : ch.device = false := hch.trans (Bool.eq_false_iff.mpr hdev)
      simp [Frame.exec, hdevice]
    · exact fun _ h => absurd h hdev

/-- `brelse` ends. -/
theorem brelse_total {bh : ℕ}
    (hQ : ∀ l u, w.cache.count bh ≠ 0 →
      Q ((w.flags l u).withCache ((w.flags l u).cache.decCount bh)) none) :
    Total driver t (.brelse bh) w Q := by
  apply Total.step
  intro l u hsmooth
  by_cases hlock : l bh = true
  · left
    refine ⟨⟨bh, rfl, hlock⟩, ?_⟩
    intro ch _
    simp [Frame.exec, hlock]
  · right
    have hcount : w.cache.count bh ≠ 0 := hsmooth
    refine ⟨_, .ret none, ?_, hQ l u hcount⟩
    intro ch _
    simp [Frame.exec, hlock, hcount]

/-! ### The second loop of `sync_dev` -/

/-- A loop of `sync_dev` ends, and leaves the buffers of the device clean that it has passed, if the
device has a driver. -/
theorem syncDev_loop {dev i : ℕ} {first : Bool} (hi : i ≤ w.cache.nrBuffers)
    (hend : ∀ w', Transferred w w' →
      (hasDriver driver dev = true → ∀ b < w.cache.nrBuffers, i ≤ b → w.cache.dev b = dev →
        w'.cache.dirt b = false) →
      Total driver t (.syncDev dev first w'.cache.nrBuffers) w' Q) :
    Total driver t (.syncDev dev first i) w Q := by
  generalize hk : w.cache.nrBuffers - i = k
  induction k generalizing w i with
  | zero =>
    have heq : i = w.cache.nrBuffers := by omega
    subst i
    apply hend w (.flags w _ _)
    intro _ b hb hle
    omega
  | succ k ih =>
    have hlt : i < w.cache.nrBuffers := by omega
    -- the buffer is clean, or it is not one of the device
    have hnext : ∀ w₁, Transferred w w₁ →
        (hasDriver driver dev = true → w.cache.dev i = dev → w₁.cache.dirt i = false) →
        Total driver t (.syncDev dev first (i + 1)) w₁ Q := by
      intro w₁ h₁ hclean
      have hnr := h₁.queues.nrBuffers
      apply ih (by omega) _ (by omega)
      intro w₂ h₂ hclean₂
      apply hend w₂ (h₁.trans h₂)
      intro hdriver b hb hle hdev
      rcases Nat.eq_or_lt_of_le hle with rfl | hlt'
      · have hb₁ := hclean hdriver hdev
        rw [Bool.eq_false_iff] at hb₁ ⊢
        exact fun hb₂ => hb₁ (h₂.dirt _ hb₂)
      · exact hclean₂ hdriver b (by omega) hlt' (by rw [h₁.queues.dev]; exact hdev)
    apply Total.step
    intro l u _
    by_cases hdev : w.cache.dev i = dev
    · by_cases hlock : l i = true
      · left
        refine ⟨⟨i, rfl, hlock⟩, ?_⟩
        intro ch _
        simp [Frame.exec, Nat.not_le.mpr hlt, hdev, hlock]
      · right
        by_cases hdirt : w.cache.dirt i = true
        · refine ⟨w.flags l u, .call (.syncDev dev first (i + 1)) (.llRwBlock .write i), ?_, ?_⟩
          · intro ch _
            simp [Frame.exec, Nat.not_le.mpr hlt, hdev, hlock, hdirt]
          · apply Rest.of_call
            apply llRwBlock_total
            intro w₁ h₁ hclean
            apply hnext w₁ ((Transferred.flags w l u).trans h₁)
            intro hdriver _
            apply hclean rfl
            simp [hdev, hdriver]
        · refine ⟨w.flags l u, .go (.syncDev dev first (i + 1)), ?_, ?_⟩
          · intro ch _
            simp [Frame.exec, Nat.not_le.mpr hlt, hdev, hlock, hdirt]
          · apply hnext _ (.flags w l u)
            intro _ _
            simpa using hdirt
    · right
      refine ⟨w.flags l u, .go (.syncDev dev first (i + 1)), ?_, ?_⟩
      · intro ch _
        simp [Frame.exec, Nat.not_le.mpr hlt, hdev]
      · exact hnext _ (.flags w l u) fun _ h => absurd h hdev

/-! ### The search for the block -/

/-- The counter of a found buffer is increased. -/
theorem got_incCount (bh : ℕ) (hwf : ∃ free chain, w.cache.Wf free chain) (l u : ℕ → Bool) :
    Got w ((w.flags l u).withCache ((w.flags l u).cache.incCount bh)) bh := by
  constructor
  · obtain ⟨free, chain, hwf⟩ := hwf
    exact ⟨free, chain, hwf.of_sameQueues (by constructor <;> rfl)⟩
  · rfl
  · exact fun _ => rfl
  · exact fun _ => id
  · intro b hb h0
    simpa [Tables.withCache, Cache.incCount, hb] using h0
  · intro h0
    simp [Tables.withCache, Cache.incCount, h0]

/-- `get_hash_table` ends with the buffer of the block, if there is one. -/
theorem hashFind_total {dev block : ℕ} (hwf : ∃ free chain, w.cache.Wf free chain)
    (hmiss : w.cache.findBuffer dev block = none → ∀ w', Transferred w w' → Q w' none)
    (hhit : ∀ w' bh, Got w w' bh → Q w' (some bh)) :
    Total driver t (.hashFind dev block) w Q := by
  apply Total.step
  intro l u _
  right
  cases hfind : w.cache.findBuffer dev block with
  | none =>
    have hfind' : (w.flags l u).cache.findBuffer dev block = none := hfind
    refine ⟨w.flags l u, .ret none, ?_, hmiss hfind _ (.flags w l u)⟩
    intro ch _
    simp only [Frame.exec, hfind']
  | some bh =>
    have hfind' : (w.flags l u).cache.findBuffer dev block = some bh := hfind
    refine ⟨(w.flags l u).withCache ((w.flags l u).cache.incCount bh),
      .go (.hashWait dev block bh), ?_, ?_⟩
    · intro ch _
      simp only [Frame.exec, hfind']
    · have hgot := got_incCount bh hwf l u
      obtain ⟨free, chain, hwf⟩ := hwf
      obtain ⟨-, -, hdev, hblock⟩ := hwf.findBuffer_some hfind
      apply Rest.of_go
      apply Total.step
      intro l' u' _
      by_cases hlock : l' bh = true
      · left
        refine ⟨⟨bh, rfl, hlock⟩, ?_⟩
        intro ch _
        simp [Frame.exec, hlock]
      · right
        refine ⟨_, .ret (some bh), ?_, hhit _ bh (hgot.transferred (.flags _ l' u'))⟩
        intro ch _
        rw [Frame.exec, if_neg (by simpa using hlock)]
        exact if_pos ⟨hdev, hblock⟩

variable (driver t) in
/-- A call ends with a buffer that has been got since the tables were `w₀`. -/
def Gets (w₀ : Tables) (f : Frame) (w : Tables) : Prop :=
  Total driver t f w fun w' v => ∃ bh, v = some bh ∧ Got w₀ w' bh

theorem Gets.synced {w₀ w₁ w : Tables} {f : Frame} (h : Gets driver t w₁ f w)
    (hs : Synced w₀ w₁) : Gets driver t w₀ f w := by
  apply Total.mono h
  rintro w' v ⟨bh, hv, hgot⟩
  exact ⟨bh, hv, hs.got hgot⟩

/-- `getblk` ends if it ends when it has found no buffer of the block. -/
theorem getblk_gets {dev block : ℕ} (hwf : ∃ free chain, w.cache.Wf free chain)
    (hmiss : w.cache.findBuffer dev block = none → ∀ w', Synced w w' →
      Gets driver t w (.getblkGot dev block none) w') :
    Gets driver t w (.getblk dev block) w := by
  apply Total.step
  intro l u _
  right
  refine ⟨w.flags l u, .call (.getblkHash dev block) (.hashFind dev block), fun _ _ => rfl, ?_⟩
  have hflags := (Transferred.flags w l u).synced
  apply Rest.of_call
  apply hashFind_total (hflags.wf hwf)
  · intro hfind w' h'
    exact hmiss hfind w' (hflags.trans h'.synced)
  · intro w' bh hgot
    apply Total.step
    intro l' u' _
    right
    refine ⟨w'.flags l' u', .ret (some bh), fun _ _ => rfl, bh, rfl, ?_⟩
    exact (hflags.got hgot).transferred (.flags w' l' u')

/-- `getblk` ends at a chosen buffer that is free and clean. -/
theorem getblkWait_clean {dev block bh : ℕ} (hwf : ∃ free chain, w.cache.Wf free chain)
    (hbh : bh < w.cache.nrBuffers) (hcount : w.cache.count bh = 0)
    (hdirt : w.cache.dirt bh = false) : Gets driver t w (.getblkWait dev block bh) w := by
  apply Total.step
  intro l u _
  by_cases hlock : l bh = true
  · left
    refine ⟨⟨bh, rfl, hlock⟩, ?_⟩
    intro ch _
    simp [Frame.exec, hlock]
  · right
    have hflags := (Transferred.flags w l u).synced
    by_cases hfind : ((w.flags l u).cache.findBuffer dev block).isSome
    · -- the block has got a buffer in the meantime
      refine ⟨w.flags l u, .go (.getblk dev block), ?_, ?_⟩
      · intro ch _
        simp [Frame.exec, hlock, hcount, hdirt, hfind]
      · apply Rest.of_go
        apply Gets.synced _ hflags
        apply getblk_gets (hflags.wf hwf)
        intro hnone
        rw [hnone] at hfind
        cases hfind
    · obtain ⟨free, chain, hwf'⟩ := hflags.wf hwf
      have hnone : (w.flags l u).cache.findBuffer dev block = none := by simpa using hfind
      have hbh' : bh < (w.flags l u).cache.nrBuffers := hbh
      obtain ⟨c, hc, hassigned, hwf''⟩ := hwf'.assign hbh' hnone
      refine ⟨(w.flags l u).withCache c, .ret (some bh), ?_, bh, rfl, ?_⟩
      · intro ch _
        simp [Frame.exec, hlock, hcount, hdirt, hfind, hc]
      · constructor
        · exact ⟨_, _, hwf''⟩
        · exact hassigned.nrBuffers
        · exact fun _ => rfl
        · exact fun _ => id
        · intro b hb h0
          simp only [Tables.withCache, hassigned.count]
          rw [Function.update_of_ne hb]
          exact h0
        · intro _
          simp [Tables.withCache, hassigned.count]

/-! ### `write_inode` -/

variable (driver t) in
/-- `getblk` ends in all tables with that many unlocked inodes and a free buffer. -/
def GetblkEnds (n : ℕ) : Prop := ∀ w, HasFree w → unlockedInodes w = n →
  ∀ dev block, Gets driver t w (.getblk dev block) w

/-- `bread` ends, with a buffer or without. -/
theorem bread_total {n : ℕ} (hget : GetblkEnds driver t n) (hfree : HasFree w)
    (hn : unlockedInodes w = n) {dev block : ℕ} :
    Total driver t (.bread dev block) w fun w' v => ∀ bh, v = some bh → Got w w' bh := by
  apply Total.step
  intro l u _
  right
  have hflags := (Transferred.flags w l u).synced
  refine ⟨w.flags l u, .call .breadBlk (.getblk dev block), fun _ _ => rfl, ?_⟩
  apply Rest.of_call
  apply (hget _ (hfree.synced hflags) (hflags.unlockedInodes.trans hn) dev block).mono
  rintro w₁ _ ⟨bh, rfl, hgot⟩
  replace hgot := hflags.got hgot
  -- the buffer is read, if it is not up to date
  apply Total.step
  intro l₁ u₁ _
  right
  have hgot₁ := hgot.transferred (.flags w₁ l₁ u₁)
  by_cases huptodate : u₁ bh = true
  · refine ⟨w₁.flags l₁ u₁, .ret (some bh), ?_, ?_⟩
    · intro ch _
      simp [Frame.resume, Frame.exec, huptodate]
    · rintro _ ⟨⟩
      exact hgot₁
  · refine ⟨w₁.flags l₁ u₁, .call (.breadWait bh) (.llRwBlock .read bh), ?_, ?_⟩
    · intro ch _
      simp [Frame.resume, Frame.exec, huptodate]
    · apply Rest.of_call
      apply llRwBlock_total
      intro w₂ h₂ _
      apply Total.step
      intro l₃ u₃ _
      by_cases hlock : l₃ bh = true
      · left
        refine ⟨⟨bh, rfl, hlock⟩, ?_⟩
        intro ch _
        simp [Frame.resume, Frame.exec, hlock]
      · right
        by_cases huptodate' : u₃ bh = true
        · refine ⟨w₂.flags l₃ u₃, .ret (some bh), ?_, ?_⟩
          · intro ch _
            simp [Frame.resume, Frame.exec, hlock, huptodate']
          · rintro _ ⟨⟩
            exact (hgot₁.transferred h₂).transferred (.flags w₂ l₃ u₃)
        · refine ⟨w₂.flags l₃ u₃, .call .breadFail (.brelse bh), ?_, ?_⟩
          · intro ch _
            simp [Frame.resume, Frame.exec, hlock, huptodate']
          · apply Rest.of_call
            apply brelse_total
            intro l₄ u₄ _
            apply Total.step
            intro l₅ u₅ _
            right
            refine ⟨_, .ret none, fun _ _ => rfl, ?_⟩
            rintro _ ⟨⟩

/-- The end of `write_inode`, in which the inode is locked, and the buffer of its block is `bh`. -/
theorem writeCopy_total (w₀ : Tables) {i bh : ℕ} (hi : i < nrInode)
    (hlock : (w₀.inode i).lock = false) (hdirt : (w₀.inode i).dirt = true)
    (hgot : Got (w₀.setInode i { w₀.inode i with lock := true }) w bh) :
    Total driver t (.writeCopy i (some bh)) w fun w' _ => Synced w₀ w' := by
  apply Total.step
  intro l u _
  right
  refine ⟨((w.flags l u).withCache ((w.flags l u).cache.setDirt bh true)).setInode i
    { w.inode i with dirt := false }, .call (.writeUnlock i) (.brelse bh), fun _ _ => rfl, ?_⟩
  apply Rest.of_call
  apply brelse_total
  intro l₁ u₁ hcount
  apply Total.step
  intro l₂ u₂ _
  right
  refine ⟨_, .ret none, fun _ _ => rfl, ?_⟩
  constructor
  · intro _
    obtain ⟨free, chain, hwf⟩ := hgot.wf
    exact ⟨free, chain, hwf.of_sameQueues (by constructor <;> rfl)⟩
  · exact hgot.nrBuffers
  · intro j
    have hj := hgot.lock j
    rw [Tables.setInode_apply] at hj ⊢
    split_ifs at hj ⊢ with hji
    · rw [hji, hlock]
    · simpa [Tables.withCache, Tables.setInode_apply, hji] using hj
  · intro j hj
    rw [Tables.setInode_apply] at hj
    split_ifs at hj with hji
    · simp [Tables.withCache, Tables.setInode_apply] at hj
    · have hold := hgot.inodes j (by simpa [Tables.withCache, Tables.setInode_apply, hji] using hj)
      simpa [Tables.setInode_apply, hji] using hold
  · intro b h0
    change (Cache.decCount _ bh).count b = 0
    rw [Cache.decCount_count]
    by_cases hb : b = bh
    · subst b
      have hheld : w.cache.count bh = 1 := hgot.held h0
      rw [if_pos rfl]
      change (w.cache.count bh + 255) % 256 = 0
      rw [hheld]
    · rw [if_neg hb]
      exact hgot.count b hb h0
  · -- the inode is clean now
    intro hsame
    have hclean := hsame i hi hdirt
    simp [Tables.withCache, Tables.setInode_apply] at hclean

/-- `write_inode` ends. -/
theorem writeInode_total {n : ℕ} (hget : ∀ m < n, GetblkEnds driver t m) (hfree : HasFree w)
    (hn : unlockedInodes w = n) {i : ℕ} (hi : i < nrInode) (hlock : (w.inode i).lock = false) :
    Total driver t (.writeInode i) w fun w' _ => Synced w w' := by
  apply Total.step
  intro l u _
  right
  have hflags := (Transferred.flags w l u).synced
  by_cases hclean : (w.inode i).dirt = false ∨ (w.inode i).dev = 0
  · refine ⟨w.flags l u, .ret none, ?_, hflags⟩
    intro ch _
    simp [Frame.exec, hlock, hclean]
  · simp only [not_or, Bool.not_eq_false] at hclean
    refine ⟨(w.flags l u).setInode i { w.inode i with lock := true }, .go (.writeSuper i), ?_, ?_⟩
    · intro ch _
      simp [Frame.exec, hlock, hclean]
    · -- with the inode locked
      generalize hw₁ : (w.flags l u).setInode i { w.inode i with lock := true } = w₁
      have hfree₁ : HasFree w₁ := by
        have h : HasFree (w.flags l u) := hfree.synced hflags
        rw [← hw₁]
        exact h
      have hlt : unlockedInodes w₁ < n := by
        rw [← hw₁, ← hn, ← hflags.unlockedInodes]
        exact unlockedInodes_lock hi hlock
      apply Rest.of_go
      apply Total.step
      intro l₁ u₁ hsmooth
      right
      obtain ⟨k, hk⟩ := Option.isSome_iff_exists.mp hsmooth
      have hflags₁ := (Transferred.flags w₁ l₁ u₁).synced
      refine ⟨w₁.flags l₁ u₁, .call (.writeRead i) (.bread (w₁.inode i).dev
        (Tables.inodeBlock (w₁.super k) (w₁.inode i).num)), ?_, ?_⟩
      · intro ch _
        simp only [Frame.exec, hk]
        rfl
      · apply Rest.of_call
        apply (bread_total (hget _ hlt) (hfree₁.synced hflags₁) hflags₁.unlockedInodes).mono
        intro w₂ v hv
        cases v with
        | none =>
          apply Total.step
          intro l₂ u₂ hsmooth
          cases hsmooth
        | some bh =>
          have hgot := hflags₁.got (hv bh rfl)
          rw [← hw₁] at hgot
          apply (writeCopy_total (w.flags l u) hi hlock hclean.1 hgot).mono
          exact fun w' _ h' => hflags.trans h'

/-! ### `sync_inodes` and `sync_dev` -/

/-- `sync_inodes` ends. -/
theorem syncInodes_total {n : ℕ} (hget : ∀ m < n, GetblkEnds driver t m) (hfree : HasFree w)
    (hn : unlockedInodes w = n) {i : ℕ} (hi : i ≤ nrInode) :
    Total driver t (.syncInodes i) w fun w' _ => Synced w w' := by
  generalize hk : nrInode - i = k
  induction k generalizing w i with
  | zero =>
    apply Total.step
    intro l u _
    right
    refine ⟨w.flags l u, .ret none, ?_, (Transferred.flags w l u).synced⟩
    intro ch _
    simp [Frame.exec, Nat.sub_eq_zero_iff_le.mp hk]
  | succ k ih =>
    have hlt : i < nrInode := by omega
    have hnext : ∀ w₁, Synced w w₁ →
        Total driver t (.syncInodes (i + 1)) w₁ fun w' _ => Synced w w' := by
      intro w₁ h₁
      apply (ih (hfree.synced h₁) (h₁.unlockedInodes.trans hn) hlt (by omega)).mono
      exact fun w' _ h' => h₁.trans h'
    apply Total.step
    intro l u hsmooth
    right
    have hlock : (w.inode i).lock = false := hsmooth hlt
    have hflags := (Transferred.flags w l u).synced
    by_cases hwrite : (w.inode i).dirt = true ∧ (w.inode i).pipe = false
    · refine ⟨w.flags l u, .call (.syncInodes (i + 1)) (.writeInode i), ?_, ?_⟩
      · intro ch _
        simp [Frame.exec, Nat.not_le.mpr hlt, hlock, hwrite]
      · apply Rest.of_call
        apply (writeInode_total hget (hfree.synced hflags) (hflags.unlockedInodes.trans hn) hlt
          hlock).mono
        exact fun w₁ _ h₁ => hnext w₁ (hflags.trans h₁)
    · refine ⟨w.flags l u, .go (.syncInodes (i + 1)), ?_, hnext _ hflags⟩
      intro ch _
      simp [Frame.exec, Nat.not_le.mpr hlt, hlock, hwrite]

/-- `sync_dev` ends. If it has written no inode, the buffers of its device are clean, if the device
has a driver. -/
theorem syncDev_total {n : ℕ} (hget : ∀ m < n, GetblkEnds driver t m) (hfree : HasFree w)
    (hn : unlockedInodes w = n) {dev : ℕ} (hdriver : hasDriver driver dev = true) :
    Total driver t (.syncDev dev true 0) w fun w' _ => Synced w w' ∧
      (dirtyInodes w' < dirtyInodes w ∨
        ∀ b < w.cache.nrBuffers, w.cache.dev b = dev → w'.cache.dirt b = false) := by
  apply syncDev_loop (Nat.zero_le _)
  intro w₁ h₁ _
  apply Total.step
  intro l u _
  right
  have h₂ : Synced w (w₁.flags l u) := (h₁.trans (.flags w₁ l u)).synced
  refine ⟨w₁.flags l u, .call (.syncDev dev false 0) (.syncInodes 0), ?_, ?_⟩
  · intro ch _
    simp [Frame.exec]
  · apply Rest.of_call
    apply (syncInodes_total hget (hfree.synced h₂) (h₂.unlockedInodes.trans hn)
      (Nat.zero_le _)).mono
    intro w₃ _ h₃
    replace h₃ := h₂.trans h₃
    -- the second loop
    apply syncDev_loop (Nat.zero_le _)
    intro w₄ h₄ hclean
    apply Total.step
    intro l₄ u₄ _
    right
    have h₅ : Synced w (w₄.flags l₄ u₄) := h₃.trans (h₄.trans (.flags w₄ l₄ u₄)).synced
    refine ⟨w₄.flags l₄ u₄, .ret none, ?_, h₅, ?_⟩
    · intro ch _
      simp [Frame.exec]
    · rcases h₃.dirtyInodes_lt with hlt | ⟨hdev, -⟩
      · left
        simpa [dirtyInodes, h₄.inode] using hlt
      · right
        intro b hb hb'
        apply hclean hdriver b (by rw [h₃.nrBuffers]; exact hb) (Nat.zero_le _)
        rw [hdev]
        exact hb'

/-! ### `getblk` -/

/-- `getblk` ends at a chosen free buffer. -/
theorem getblkWait_gets {n : ℕ} (hget : ∀ m < n, GetblkEnds driver t m) (hfree : HasFree w)
    (hn : unlockedInodes w = n) {dev block bh : ℕ} (hbh : bh < w.cache.nrBuffers)
    (hcount : w.cache.count bh = 0) : Gets driver t w (.getblkWait dev block bh) w := by
  -- by the number of dirty inodes
  generalize hk : dirtyInodes w = k
  induction k using Nat.strong_induction_on generalizing w with
  | _ k ih =>
    by_cases hdirt : w.cache.dirt bh = true
    · apply Total.step
      intro l u hsmooth
      by_cases hlock : l bh = true
      · left
        refine ⟨⟨bh, rfl, hlock⟩, ?_⟩
        intro ch _
        simp [Frame.exec, hlock]
      · right
        have hflags := (Transferred.flags w l u).synced
        have hdriver : hasDriver driver (w.cache.dev bh) = true :=
          hsmooth (Bool.eq_false_iff.mpr hlock) hcount hdirt
        refine ⟨w.flags l u, .call (.getblkWait dev block bh) (.syncDev (w.cache.dev bh) true 0),
          ?_, ?_⟩
        · intro ch _
          simp [Frame.exec, hlock, hcount, hdirt]
        · apply Rest.of_call
          apply (syncDev_total hget (hfree.synced hflags) (hflags.unlockedInodes.trans hn)
            hdriver).mono
          rintro w₁ _ ⟨h₁, hless⟩
          replace h₁ := hflags.trans h₁
          have hbh₁ : bh < w₁.cache.nrBuffers := by
            rw [h₁.nrBuffers]
            exact hbh
          apply Gets.synced _ h₁
          rcases hless with hlt | hclean
          · exact ih (dirtyInodes w₁) (hk ▸ hlt) (hfree.synced h₁) (h₁.unlockedInodes.trans hn)
              hbh₁ (h₁.count bh hcount) rfl
          · exact getblkWait_clean (h₁.wf hfree.1) hbh₁ (h₁.count bh hcount)
              (hclean bh hbh rfl)
    · exact getblkWait_clean hfree.1 hbh hcount (Bool.eq_false_iff.mpr hdirt)

variable (driver t) in
/-- `getblk` ends in all tables with a free buffer. -/
theorem getblkEnds (n : ℕ) : GetblkEnds driver t n := by
  -- by the number of unlocked inodes
  induction n using Nat.strong_induction_on with
  | _ n hget =>
    intro w hfree hn dev block
    apply getblk_gets hfree.1
    intro _ w₁ h₁
    apply Gets.synced _ h₁
    apply Total.step
    intro l u _
    right
    have hflags := (Transferred.flags w₁ l u).synced
    have hfree₁ := (hfree.synced h₁).synced hflags
    obtain ⟨⟨free, chain, hwf⟩, b, hb, hcount⟩ := hfree₁
    obtain ⟨bh, hchoose⟩ := hwf.exists_chooseFree hb hcount
    refine ⟨w₁.flags l u, .go (.getblkWait dev block bh), ?_, ?_⟩
    · intro ch _
      simp [Frame.exec, hchoose]
    · apply Rest.of_go
      apply Gets.synced _ hflags
      exact getblkWait_gets hget ⟨⟨free, chain, hwf⟩, b, hb, hcount⟩
        (hflags.unlockedInodes.trans (h₁.unlockedInodes.trans hn)) (hwf.chooseFree_lt hchoose)
        (Cache.chooseFree_count hchoose)

/-- A task that runs alone comes back from `getblk`, if there is a free buffer when it calls it, and
no step meets a dirty buffer of a device without a driver in the loop of `getblk`, a locked inode in
`sync_inodes`, or a panic. -/
theorem getblk_returns [Fintype τ] {s : FsSystem τ} (h : Reachable Boot Step s) {dev block : ℕ}
    (hstack : s.stack t = [.getblk dev block, .userBuffer])
    (hfree : ∃ b < s.tables.cache.nrBuffers, s.tables.cache.count b = 0) {ρ : ℕ → FsSystem τ}
    (hstart : ρ 0 = s) (hρ : Alone driver t ρ) (hsmooth : ∀ n, (ρ n).Smooth driver t) :
    ∃ n bh, (ρ n).stack t = [.gotBuffer (some bh)] := by
  have hends := getblkEnds driver t _ s.tables ⟨(cacheInv_reachable h).wf, hfree⟩
    rfl dev block s [.userBuffer] hstack rfl
  rw [← hstart] at hends
  obtain ⟨n, -, v, hstack', bh, rfl, -⟩ := hends.reaches (hρ.fair hsmooth)
  exact ⟨n, bh, hstack'⟩

/-- The steps of a task that takes the only buffer for a block. -/
def takeOnly (k : ℕ) : FsSystem Unit :=
  (runEvents next (boot Unit 1 fun _ => 0)
    (.call () (.getblk 769 1) :: List.replicate k (.exec () choice))).getD (boot Unit 1 fun _ => 0)

/-- The theorem at a `getblk` that takes the only buffer, which is clean. -/
theorem getblk_returns_sample : ∃ (s : FsSystem Unit) (ρ : ℕ → FsSystem Unit) (n bh : ℕ),
    s.stack () = [.getblk 769 1, .userBuffer] ∧ ρ 0 = s ∧ Alone (fun _ => true) () ρ ∧
    (ρ n).stack () = [.gotBuffer (some bh)] := by
  have hboot : Reachable Boot Step (boot Unit 1 fun _ => 0) := .of_init ⟨1, _, by omega, rfl⟩
  have hreach : Reachable Boot Step (takeOnly 0) := hboot.tail ⟨.call () (.getblk 769 1), rfl⟩
  obtain ⟨ρ, hstart, halone, hplace⟩ := exists_alone (fun _ => true) ()
    (fun s => ∃ k ≤ 4, s = takeOnly k) ⟨0, by decide, rfl⟩
    (by
      rintro _ ⟨k, hk, rfl⟩
      rcases Nat.eq_or_lt_of_le hk with rfl | hlt
      · left
        rintro s' ⟨ch, -, hnext⟩
        cases hnext
      · right
        refine ⟨takeOnly (k + 1), ⟨choice, ?_, ?_⟩, k + 1, hlt, rfl⟩
        · interval_cases k <;> rintro f ⟨⟩ <;> trivial
        · interval_cases k <;> rfl)
    (by
      rintro _ ⟨k, hk, rfl⟩ b
      interval_cases k <;> rfl)
  have hsmooth : ∀ n, (ρ n).Smooth (fun _ => true) () := by
    intro n
    obtain ⟨k, hk, heq⟩ := hplace n
    rw [heq]
    interval_cases k
    all_goals
      rintro f ⟨⟩
    · trivial
    · trivial
    · trivial
    · rintro - - ⟨⟩
    · trivial
  obtain ⟨n, bh, hn⟩ := getblk_returns hreach rfl ⟨0, by decide, rfl⟩ hstart halone hsmooth
  exact ⟨takeOnly 0, ρ, n, bh, rfl, hstart, halone, hn⟩

/-! ### A device without a driver -/

/-- The major numbers of the memory disk, the floppy disk and the hard disk. -/
def diskDrivers (major : ℕ) : Bool := major = 1 || major = 2 || major = 3

/-- A task has modified a block of the device with the number 1280, which has the major number 5,
and released its buffer; now it wants another block. -/
def dirtyEvents : List (FsEvent Unit) :=
  [.call () (.getblk 1280 0), .exec () choice, .exec () choice, .exec () choice, .exec () choice,
    .take (), .modify () 0, .call () (.brelse 0), .exec () choice, .exec () choice,
    .call () (.getblk 769 1)]

/-- The state after these events, with one buffer in all. -/
def dirtyBuffer : FsSystem Unit :=
  (runEvents next (boot Unit 1 fun _ => 0) dirtyEvents).getD (boot Unit 1 fun _ => 0)

theorem dirtyBuffer_run : runEvents next (boot Unit 1 fun _ => 0) dirtyEvents = some dirtyBuffer :=
  rfl

/-- The calls on the stack while `getblk` goes round its loop. -/
inductive Loops : List Frame → Prop
  | start : Loops [.getblk 769 1, .userBuffer]
  | search : Loops [.hashFind 769 1, .getblkHash 769 1, .userBuffer]
  | choose : Loops [.getblkGot 769 1 none, .userBuffer]
  | wait : Loops [.getblkWait 769 1 0, .userBuffer]
  | sync {first : Bool} {i : ℕ} (hi : i ≤ 1) :
    Loops [.syncDev 1280 first i, .getblkWait 769 1 0, .userBuffer]
  | write {first : Bool} :
    Loops [.llRwBlock .write 0, .syncDev 1280 first 1, .getblkWait 769 1 0, .userBuffer]
  | inodes {i : ℕ} (hi : i ≤ nrInode) :
    Loops [.syncInodes i, .syncDev 1280 false 0, .getblkWait 769 1 0, .userBuffer]

/-- What a step finds: no driver. -/
def refusal : Choice := { choice with device := false }

/-- A step in the loop changes nothing and stays in the loop. -/
theorem Loops.exec {f : Frame} {rest : List Frame} (h : Loops (f :: rest)) :
    ∃ n, f.exec dirtyBuffer.tables refusal = some (dirtyBuffer.tables, n) ∧
      Loops (stackAfter rest n) := by
  cases h with
  | start => exact ⟨_, rfl, .search⟩
  | search => exact ⟨_, rfl, .choose⟩
  | choose => exact ⟨_, rfl, .wait⟩
  | wait => exact ⟨_, rfl, .sync (Nat.zero_le 1)⟩
  | @sync first i hi =>
    rcases Nat.le_one_iff_eq_zero_or_eq_one.mp hi with rfl | rfl
    · exact ⟨_, rfl, .write⟩
    · cases first
      · exact ⟨_, rfl, .wait⟩
      · exact ⟨_, rfl, .inodes (Nat.zero_le _)⟩
  | write => exact ⟨_, rfl, .sync (Nat.le_refl 1)⟩
  | @inodes i hi =>
    rcases Nat.eq_or_lt_of_le hi with rfl | hlt
    · exact ⟨_, rfl, .sync (Nat.zero_le 1)⟩
    · refine ⟨.go (.syncInodes (i + 1)), ?_, .inodes hlt⟩
      have hinode : dirtyBuffer.tables.inode = fun _ => .zero := rfl
      simp [Frame.exec, hinode, MInode.zero, Nat.not_le.mpr hlt]

/-- If the only buffer is a dirty one of a device without a driver, a task that runs alone can stay
in `getblk` forever. -/
theorem getblk_loops : ∃ s : FsSystem Unit, Reachable Boot Step s ∧
    s.stack () = [.getblk 769 1, .userBuffer] ∧
    (∃ b < s.tables.cache.nrBuffers, s.tables.cache.count b = 0) ∧
    ∃ ρ : ℕ → FsSystem Unit, ρ 0 = s ∧ Alone diskDrivers () ρ ∧
      ∀ n v, (ρ n).stack () ≠ [.gotBuffer v] := by
  have hboot : Reachable Boot Step (boot Unit 1 fun _ => 0) := .of_init ⟨1, _, by omega, rfl⟩
  have hreach := hboot.runEvents (fun _ e _ he => ⟨e, he⟩) dirtyBuffer_run
  obtain ⟨ρ, hstart, halone, hloops⟩ := exists_alone diskDrivers ()
    (fun s => s.tables = dirtyBuffer.tables ∧ Loops (s.stack ())) (s := dirtyBuffer) ⟨rfl, .start⟩
    (by
      rintro s ⟨htables, hloops⟩
      right
      cases hstack : s.stack () with
      | nil =>
        rw [hstack] at hloops
        cases hloops
      | cons f rest =>
        rw [hstack] at hloops
        obtain ⟨n, hexec, hafter⟩ := hloops.exec
        refine ⟨(s.withTables s.tables).setStack () (stackAfter rest n), ⟨refusal, ?_, ?_⟩, ?_, ?_⟩
        · intro g hg
          rw [hstack, List.head?_cons, Option.mem_some_iff] at hg
          subst g
          rw [htables]
          cases hloops <;> trivial
        · simp only [next, execTop, hstack, htables, hexec, Option.map_some]
        · exact htables
        · simpa [setStack] using hafter)
    (by
      rintro s ⟨htables, -⟩ b
      rw [htables]
      rfl)
  refine ⟨dirtyBuffer, hreach, rfl, ⟨0, by decide, by decide⟩, ρ, hstart, halone, ?_⟩
  intro n v hn
  have hloop := (hloops n).2
  rw [hn] at hloop
  cases hloop

end FsSystem

end LihaLinux.Fs
