import LihaLinux.Files.InodeRefs

/-!
# The inode table keeps its accounts

What `iget`, `iput`, `get_empty_inode` and `new_inode` take and give. The last `iput` writes an
inode or frees it, and `get_empty_inode` takes a slot that nobody refers to, which is clean
already.
-/

namespace LihaLinux.Files

variable {s₀ s : Fs} {ρ : ℕ → ℕ} {R : List ℕ} {i : ℕ}

/-! ### Reading and writing -/

theorem wp_getSuper {dev : ℕ} {Q : Option SuperBlock → Fs → Prop} {E : Panic → Fs → Prop} :
    (getSuper dev).wp Q E s ↔ Q (superOf s.super dev) s := Iff.rfl

theorem fail_wp {α : Type} {e : Panic} {Q : α → Fs → Prop} (he : e ≠ .writeNoDevice) :
    (Prog.fail e : K α).wp Q (fun e _ => e ≠ .writeNoDevice) s := he

/-- An inode may be marked as clean at any time. -/
theorem cleanInode_holds (i : ℕ) :
    Holds s₀ (modifyInode i fun m => { m with dirt := false }) [] fun _ => [] :=
  Owns.update fun _ _ _ h => ⟨h.1.setInode (fun _ _ => rfl) (h.1.bound i) (h.1.count i)
    (fun _ _ => rfl) (h.1.mounted i), h.2.trans (setInode_sameTables ..)⟩

/-- An inode that has to be written is referred to, so it is on a mounted device. -/
theorem writeInode_holds (i : ℕ) : Holds s₀ (writeInode i) [] fun _ => [] := by
  refine ⟨fun ρ R s h => ?_⟩
  rw [writeInode, Prog.wp_bind, Prog.wp_read, Prog.wp_ite]
  refine ⟨fun _ => h, fun hwrite => ?_⟩
  rw [not_or, Bool.not_eq_false] at hwrite
  obtain ⟨hdirt, hdev⟩ := hwrite
  have hsum : ρ i + R.count i ≠ 0 := by
    intro hzero
    rw [h.1.clean i hdev hzero] at hdirt
    exact absurd hdirt (by decide)
  obtain ⟨sb, hsb⟩ := Option.isSome_iff_exists.mp ((h.1.mounted i hdev hsum).superOf hdev)
  rw [Prog.wp_bind, wp_getSuper, hsb]
  refine (?_ : Holds s₀ _ [] fun _ => []).run ρ R s h
  refine (bread_holds ..).next fun bh => ?_
  cases bh with
  | none => exact Holds.fail (by decide)
  | some bh =>
    refine Owns.next (Holds.update (fun _ => rfl) fun _ => ⟨rfl, rfl, rfl, rfl⟩) fun _ => ?_
    exact (cleanInode_holds i).next fun _ => brelse_holds bh

/-- An inode is clean after it has been written. -/
theorem writeInode_clean (i : ℕ) (s : Fs) :
    (writeInode i).wp (fun _ s' => (s'.inode i).dev ≠ 0 → (s'.inode i).dirt = false)
      (fun _ _ => True) s := by
  rw [writeInode, Prog.wp_bind, Prog.wp_read, Prog.wp_ite]
  refine ⟨fun hclean hdev => ?_, fun _ => ?_⟩
  · exact hclean.resolve_right hdev
  · rw [Prog.wp_bind, wp_getSuper]
    cases superOf s.super (s.inode i).dev with
    | none => trivial
    | some sb =>
      simp only [bread, readBlock, brelse, getblk, modifyInode, Prog.wp_bind, Prog.wp_read,
        Prog.wp_ite, Prog.wp_pure, Prog.wp_update, Prog.wp_fail, Fs.setInode,
        Fs.setDinode, Fs.setCount,
        Function.update_self, implies_true, and_self]

theorem syncInodes_holds (n i : ℕ) : Holds s₀ (syncInodes n i) [] fun _ => [] := by
  induction n generalizing i with
  | zero => exact Owns.pure rfl
  | succ n ih =>
    refine (Owns.read _).next fun m => Owns.next ?_ fun _ => ih (i + 1)
    exact Owns.when fun _ => writeInode_holds i

theorem syncDev_holds (dev : ℕ) : Holds s₀ (syncDev dev) [] fun _ => [] := by
  have hbuffers : Holds s₀ (syncBuffers dev) [] fun _ => [] :=
    Holds.update (fun _ => rfl) fun _ => ⟨rfl, rfl, rfl, rfl⟩
  exact hbuffers.next fun _ => (syncInodes_holds ..).next fun _ => hbuffers

theorem readInode_holds (i : ℕ) : Holds s₀ (readInode i) [i] fun _ => [i] := by
  refine (Owns.read _).next fun m => (getSuper_holds m.dev).next fun sb => ?_
  cases sb with
  | none => exact Holds.fail (by decide)
  | some sb =>
    refine (bread_holds ..).next fun bh => ?_
    cases bh with
    | none => exact Holds.fail (by decide)
    | some bh =>
      refine Owns.bind ?_ fun _ => (brelse_holds bh).keep
      refine ⟨fun ρ R s h => ⟨h.1.modify rfl ?_, h.2.trans (setInode_sameTables ..)⟩⟩
      exact h.1.mounted_of_mem List.mem_cons_self

/-! ### Giving references back -/

/-- The last reference to an inode is given back together with its slot. -/
theorem Counted.free (h : Counted ρ (i :: R) s) (hone : (s.inode i).count = 1) :
    Counted ρ R (s.setInode i .zero) := by
  have hcount := h.count i
  rw [List.count_cons_self] at hcount
  refine h.setInode (fun j hj => (count_cons_ne R hj).symm) (fun _ => h.bound i ?_) ?_
    (fun h0 => absurd rfl h0) fun h0 => absurd rfl h0
  · rw [List.count_cons_self]
    omega
  · change 0 = _
    omega

theorem freeInode_wp (h : Account s₀ ρ (i :: R) s) (hone : (s.inode i).count = 1) :
    (freeInode i).wp (fun _ s' => Account s₀ ρ R s') (fun e _ => e ≠ .writeNoDevice) s := by
  have hfree : Account s₀ ρ R (s.setInode i .zero) :=
    ⟨h.1.free hone, h.2.trans (setInode_sameTables ..)⟩
  rw [freeInode, Prog.wp_bind, Prog.wp_read, Prog.wp_ite, Prog.wp_ite, Prog.wp_ite]
  refine ⟨fun _ => hfree, fun _ => ⟨fun _ => fail_wp (by decide), fun _ =>
    ⟨fun _ => fail_wp (by decide), fun _ => ?_⟩⟩⟩
  rw [Prog.wp_bind, wp_getSuper]
  cases superOf s.super (s.inode i).dev with
  | none => exact fail_wp (by decide)
  | some sb =>
    rw [Prog.wp_ite, Prog.wp_ite]
    refine ⟨fun _ => fail_wp (by decide), fun _ => ⟨fun _ => fail_wp (by decide), fun _ => ?_⟩⟩
    exact ⟨hfree.1.congr rfl rfl, hfree.2.trans ⟨rfl, rfl, rfl, rfl⟩⟩

/-- The count of an inode depends on the references to it only. -/
theorem Account.count_eq {s' : Fs} (h : Account s₀ ρ R s) (h' : Account s₀ ρ R s') (i : ℕ) :
    (s'.inode i).count = (s.inode i).count := (h'.1.count i).trans (h.1.count i).symm

theorem Account.dec (h : Account s₀ ρ (i :: R) s)
    (hlast : (s.inode i).count = 1 → (s.inode i).dev ≠ 0 → (s.inode i).dirt = false) :
    (decCount i).wp (fun _ s' => Account s₀ ρ R s') (fun e _ => e ≠ .writeNoDevice) s :=
  ⟨h.1.dec hlast, h.2.trans (setInode_sameTables ..)⟩

theorem iputFile_wp (h : Account s₀ ρ (i :: R) s) (hpos : (s.inode i).count ≠ 0) :
    (iputFile i).wp (fun _ s' => Account s₀ ρ R s') (fun e _ => e ≠ .writeNoDevice) s := by
  rw [iputFile, Prog.wp_bind, Prog.wp_read, Prog.wp_ite, Prog.wp_ite]
  refine ⟨fun hmany => h.dec fun hone => ?_, fun hone => ⟨fun _ => ?_, fun _ => ?_⟩⟩
  · omega
  · refine ((truncate_holds i).run ρ R s h).bind fun _ s' h' => freeInode_wp h' ?_
    rw [h.count_eq h' i]
    omega
  · have hwrite : Holds s₀ (writeInode i) [i] fun _ => [i] := (writeInode_holds i).keep
    rw [Prog.wp_bind]
    refine ((hwrite.run ρ R s h).and (writeInode_clean i s)).mono (fun _ s' h' => ?_)
      fun _ _ he => he.1
    exact Account.dec h'.1 fun _ => h'.2

theorem iput_holds (i : ℕ) : Holds s₀ (iput i) [i] fun _ => [] := by
  refine ⟨fun ρ R s h => ?_⟩
  rw [iput, Prog.wp_bind, Prog.wp_read, Prog.wp_ite, Prog.wp_ite, Prog.wp_ite, Prog.wp_ite]
  refine ⟨fun _ => fail_wp (by decide), fun hpos => ⟨fun _ => ⟨fun hone => ?_, fun hmany => ?_⟩,
    fun _ => ⟨fun hdev => ?_, fun _ => ?_⟩⟩⟩
  · -- the end of a pipe
    have hcount : (s.inode i).count = (ρ i + (i :: R).count i) % 65536 := h.1.count i
    rw [List.count_cons_self] at hcount
    refine ⟨h.1.setInode (fun j hj => (count_cons_ne R hj).symm) (fun _ => h.1.bound i ?_) ?_
      (fun _ _ => rfl) ?_, h.2.trans (setInode_sameTables ..)⟩
    · change ρ i + (i :: R).count i ≠ 0
      rw [List.count_cons_self]
      omega
    · change 0 = (ρ i + R.count i) % 65536
      omega
    · exact fun hdev _ => h.1.mounted_of_mem List.mem_cons_self hdev
  · exact h.dec fun hone => absurd hone hmany
  · exact h.dec fun _ hne => absurd hdev hne
  · have hsync : Holds s₀ (Prog.when (isBlk (s.inode i).mode = true)
        (syncDev ((s.inode i).zone 0))) [] fun _ => [] := Owns.when fun _ => syncDev_holds _
    refine ((hsync.keep (X := [i])).run ρ R s h).bind fun _ s' h' => iputFile_wp h' ?_
    rw [h.count_eq h' i]
    exact hpos

/-- The first of the references is given back. -/
theorem iput_first {β : Type} {X : List ℕ} {f : Unit → K β} {post : β → List ℕ}
    (hf : Holds s₀ (f ()) X post) : Holds s₀ (iput i >>= f) (i :: X) post :=
  ((iput_holds i).frame X).bind fun _ => hf

/-- The second of two references is given back. -/
theorem iput_second {β : Type} {j : ℕ} {f : Unit → K β} {post : β → List ℕ}
    (hf : Holds s₀ (f ()) [j] post) : Holds s₀ (iput i >>= f) [j, i] post :=
  Holds.swap (iput_first hf)

/-- The last reference is given back before the end. -/
theorem iput_last {α : Type} (i : ℕ) {a : α} {post : α → List ℕ} (hpost : post a = []) :
    Holds s₀ (iput i >>= fun _ => Pure.pure a) [i] post :=
  iput_first (Owns.pure hpost.symm)

theorem iputOpt_holds (i : Option ℕ) : Holds s₀ (iputOpt i) i.toList fun _ => [] := by
  cases i with
  | none => exact Owns.pure rfl
  | some i => exact iput_holds i

/-! ### Getting references -/

theorem pickInode_spec {inode : ℕ → MInode} {n last : ℕ} {best : Option ℕ}
    (hbest : ∀ j, best = some j → j < nrInode ∧ (inode j).count = 0) {l : ℕ}
    (h : pickInode inode n last best = (l, some i)) : i < nrInode ∧ (inode i).count = 0 := by
  induction n generalizing last best with
  | zero =>
    rw [pickInode, Prod.mk.injEq] at h
    exact hbest i h.2
  | succ n ih =>
    have hnext : (if nrInode ≤ last + 1 then 0 else last + 1) < nrInode := by
      split_ifs with hlast
      · decide
      · omega
    rw [pickInode] at h
    generalize (if nrInode ≤ last + 1 then 0 else last + 1) = next at h hnext
    split_ifs at h with hcount hdirt
    · refine ih (fun j hj => ?_) h
      obtain rfl := Option.some.inj hj
      exact ⟨hnext, hcount⟩
    · rw [Prod.mk.injEq, Option.some.injEq] at h
      obtain ⟨-, rfl⟩ := h
      exact ⟨hnext, hcount⟩
    · exact ih hbest h

/-- `get_empty_inode`: a cleared slot with one reference. -/
theorem getEmptyInode_wp (h : Account s₀ ρ R s) :
    getEmptyInode.wp (fun i s' => Account s₀ ρ (i :: R) s' ∧
      s'.inode i = { MInode.zero with count := 1 }) (fun e _ => e ≠ .writeNoDevice) s := by
  rw [getEmptyInode, Prog.wp_bind, Prog.wp_read]
  rcases hpick : pickInode s.inode nrInode s.lastInode none with ⟨last, best⟩
  dsimp only
  rw [Prog.wp_bind, Prog.wp_update]
  have h₁ : Account s₀ ρ R { s with lastInode := last } := h.congr rfl ⟨rfl, rfl, rfl, rfl⟩
  cases best with
  | none => exact fail_wp (by decide)
  | some i =>
    obtain ⟨hi, hfree⟩ := pickInode_spec (fun j hj => absurd hj (by simp)) hpick
    dsimp only
    rw [Prog.wp_bind, Prog.wp_read, Prog.wp_ite]
    refine ⟨fun _ => fail_wp (by decide), fun _ => ?_⟩
    refine ((writeInode_holds i).run ρ R _ h₁).bind fun _ s' h' => ?_
    have hcount := h'.1.count i
    rw [h₁.count_eq h' i, hfree] at hcount
    refine ⟨⟨h'.1.setInode (fun j hj => count_cons_ne R hj) (fun _ => hi) ?_
      (fun h0 => absurd rfl h0) fun h0 => absurd rfl h0, h'.2.trans (setInode_sameTables ..)⟩,
      Function.update_self ..⟩
    change 1 = _
    rw [List.count_cons_self]
    change 0 = (ρ i + R.count i) % 65536 at hcount
    omega

theorem getEmptyInode_holds : Holds s₀ getEmptyInode [] fun i => [i] :=
  ⟨fun _ _ _ h => (getEmptyInode_wp h).mono (fun _ _ h' => h'.1) fun _ _ he => he⟩

theorem findInode_spec {inode : ℕ → MInode} {dev nr n k : ℕ}
    (h : findInode inode dev nr n k = some i) : i < k + n ∧ (inode i).dev = dev := by
  induction n generalizing k with
  | zero => exact absurd h (by simp [findInode])
  | succ n ih =>
    rw [findInode] at h
    split_ifs at h with hk
    · obtain rfl := Option.some.inj h
      exact ⟨by omega, hk.1⟩
    · obtain ⟨hlt, hdev⟩ := ih h
      exact ⟨by omega, hdev⟩

theorem findMount_spec {super : ℕ → SuperBlock} {n k j : ℕ}
    (h : findMount super i n k = some j) : j < k + n := by
  induction n generalizing k with
  | zero => exact absurd h (by simp [findMount])
  | succ n ih =>
    rw [findMount] at h
    split_ifs at h with hk
    · obtain rfl := Option.some.inj h
      omega
    · have hlt := ih h
      omega

/-- A reference to an inode on a mounted device. -/
theorem Account.inc (h : Account s₀ ρ R s) (hi : i < nrInode)
    (hdev : (s.inode i).dev ≠ 0 → Mounted s.super (s.inode i).dev) :
    (incCount i).wp (fun _ s' => Account s₀ ρ (i :: R) s') (fun e _ => e ≠ .writeNoDevice) s :=
  ⟨h.1.inc hi hdev, h.2.trans (setInode_sameTables ..)⟩

/-- The loop of `iget` gives the empty slot back or fills it. -/
theorem igetLoop_holds {empty n dev nr : ℕ} (hdev : dev ≠ 0 → Mounted s₀.super dev) :
    Holds s₀ (igetLoop empty n dev nr) [empty] fun i => [i] := by
  induction n generalizing dev nr with
  | zero => exact Holds.fail (by decide)
  | succ n ih =>
    refine ⟨fun ρ R s h => ?_⟩
    rw [igetLoop, Prog.wp_bind, Prog.wp_read]
    cases hfind : findInode s.inode dev nr nrInode 0 with
    | none =>
      refine (?_ : Holds s₀ _ [empty] fun i => [i]).run ρ R s h
      refine (?_ : Holds s₀ _ [empty] fun _ => [empty]).bind fun _ =>
        (readInode_holds empty).bind fun _ => Owns.pure rfl
      refine ⟨fun ρ R s h => ⟨h.1.modify rfl fun hne => ?_, h.2.trans (setInode_sameTables ..)⟩⟩
      rw [h.2.super]
      exact hdev hne
    | some i =>
      obtain ⟨hlt, hi⟩ := findInode_spec hfind
      refine Prog.wp.bind (h.inc (i := i) (by omega) fun hne => ?_) fun _ s' h' => ?_
      · rw [h.2.super, hi]
        exact hdev (hi ▸ hne)
      · refine (?_ : Holds s₀ _ [i, empty] fun i => [i]).run ρ R s' h'
        have hdone : Holds s₀ (iput empty >>= fun _ => pure i) [i, empty] fun i => [i] :=
          Holds.swap (((iput_holds empty).frame [i]).bind fun _ => Owns.pure rfl)
        refine (Owns.read _).next fun m => Owns.ite (fun _ => ?_) fun _ => hdone
        refine Holds.readTables (fun s hs => by rw [hs.super]) ?_
        cases hmount : findMount s₀.super i nrSuper 0 with
        | none => exact hdone
        | some k =>
          refine ((iput_holds i).frame [empty]).bind fun _ => ?_
          refine Holds.readTables (fun s hs => by rw [hs.super]) (ih fun _ => ?_)
          exact ⟨k, by have := findMount_spec hmount; omega, rfl⟩

theorem iget_holds {dev nr : ℕ} (hdev : dev ≠ 0 → Mounted s₀.super dev) :
    Holds s₀ (iget dev nr) [] fun i => [i] :=
  Owns.ite (fun _ => Holds.fail (by decide)) fun _ =>
    getEmptyInode_holds.bind fun _ => igetLoop_holds hdev

/-- `new_inode` makes an inode on a mounted device. -/
theorem newInode_holds (dev : ℕ) : Holds s₀ (newInode dev) [] fun i => i.toList := by
  refine ⟨fun ρ R s h => (getEmptyInode_wp h).bind fun i s' h' => ?_⟩
  obtain ⟨h', hi⟩ := h'
  have hdrop : Holds s₀ (iput i >>= fun _ => pure none) [i] fun i : Option ℕ => i.toList :=
    (iput_holds i).bind fun _ => Owns.pure rfl
  rw [Prog.wp_bind, wp_getSuper]
  cases hsb : superOf s'.super dev with
  | none => exact fail_wp (by decide)
  | some sb =>
    dsimp only
    rw [Prog.wp_bind, Prog.wp_read]
    cases findClear sb.imapBlocks (s'.imap dev) 8 0 with
    | none => exact hdrop.run ρ R s' h'
    | some j =>
      dsimp only
      rw [Prog.wp_ite]
      refine ⟨fun _ => hdrop.run ρ R s' h', fun _ => ?_⟩
      obtain ⟨k, hk, rfl, hkdev⟩ := superOf_spec hsb
      have hnew : ∀ n : MInode, n.count = 1 → n.dev = (s'.super k).dev →
          Counted ρ (i :: R) (s'.setInode i n) := by
        intro n hone hdev
        refine h'.1.modify ?_ fun _ => ⟨k, hk, hdev.symm⟩
        rw [hone, hi]
      subst hkdev
      rw [setImapBit, Prog.wp_bind, Prog.wp_bind, Prog.wp_read, Prog.wp_ite]
      refine ⟨fun _ => fail_wp (by decide), fun _ => ?_⟩
      exact ⟨(hnew _ rfl rfl).congr rfl rfl, h'.2.trans ⟨rfl, rfl, rfl, rfl⟩⟩

end LihaLinux.Files
