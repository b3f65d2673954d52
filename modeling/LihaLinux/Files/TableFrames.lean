import LihaLinux.Files.InodeRefs

/-!
# What the calls with names leave alone

A relation of the states before and after is kept by a program if it holds after the program
whenever it held before. The functions on buffers keep every relation that looks at the inodes
and the tables only, and the functions with names keep the file table and the tasks, whatever
state they start in.
-/

namespace LihaLinux.Files

/-- A program that keeps a relation to an earlier state, unless it ends in one of some panics. -/
abbrev Stays (R : Fs → Fs → Prop) (E : Panic → Prop) {α : Type} (m : K α) : Prop :=
  Owns (fun s₀ (_ : List Unit) s => R s₀ s) (fun _ e _ => E e) m [] fun _ => []

/-- The inodes and the tables are the same. -/
structure SameInodesTables (s s' : Fs) : Prop where
  inode : s'.inode = s.inode
  super : s'.super = s.super
  file : s'.file = s.file
  task : s'.task = s.task
  current : s'.current = s.current

/-- A relation that does not look at the buffers and the devices. -/
structure TableFrame (R : Fs → Fs → Prop) : Prop where
  refl : ∀ s, R s s
  trans : ∀ s s' s'', R s s' → R s' s'' → R s s''
  same : ∀ s s', SameInodesTables s s' → R s s'

namespace Stays

variable {R : Fs → Fs → Prop} {E : Panic → Prop} {α : Type} {m : K α}

/-- One of the panics. -/
theorem fail {e : Panic} (he : E e) : Stays R E (Prog.fail e : K α) := Owns.fail fun _ _ => he

/-- What a program has kept when it is over. -/
theorem of_ok (hR : TableFrame R) (hm : Stays R E m) {s s' : Fs} {a : α} (h : m s = .ok (a, s')) :
    R s s' := (hm.run s [] s (hR.refl s)).of_ok h

/-- A step that keeps the relation. -/
theorem update (hR : TableFrame R) {g : Fs → Fs} (hg : ∀ s, R s (g s)) :
    Stays R E (Prog.update g) := Owns.update fun s₀ _ s h => hR.trans s₀ s (g s) h (hg s)

/-- A step on the buffers. -/
theorem buffers (hR : TableFrame R) {g : Fs → Fs} (hg : ∀ s, SameInodesTables s (g s)) :
    Stays R E (Prog.update g) := update hR fun s => hR.same s (g s) (hg s)

end Stays

section Buffers

variable {R : Fs → Fs → Prop} {E : Panic → Prop}

/-! ### The buffer cache -/

theorem getblk_stays (hR : TableFrame R) (dev block : ℕ) : Stays R E (getblk dev block) := by
  apply Owns.next
  · exact Stays.buffers hR fun _ => ⟨rfl, rfl, rfl, rfl, rfl⟩
  · exact fun _ => Owns.pure rfl

theorem readBlock_stays (hR : TableFrame R) (bh : Bh) : Stays R E (readBlock bh) := by
  apply Stays.buffers hR
  intro s
  split_ifs
  · exact ⟨rfl, rfl, rfl, rfl, rfl⟩
  · exact ⟨rfl, rfl, rfl, rfl, rfl⟩

theorem brelse_stays (hR : TableFrame R) (hE : ∀ e, e ≠ .bmapBlock → E e)
    (bh : Bh) : Stays R E (brelse bh) := by
  apply (Owns.read _).next
  intro count
  apply Owns.ite
  · exact fun _ => Stays.fail (hE _ (by decide))
  · exact fun _ => Stays.buffers hR fun _ => ⟨rfl, rfl, rfl, rfl, rfl⟩

theorem bread_stays (hR : TableFrame R) (hE : ∀ e, e ≠ .bmapBlock → E e)
    (dev block : ℕ) : Stays R E (bread dev block) := by
  apply (getblk_stays hR dev block).next
  intro bh
  apply (readBlock_stays hR bh).next
  intro _
  apply (Owns.read _).next
  intro uptodate
  apply Owns.ite
  · exact fun _ => Owns.pure rfl
  · exact fun _ => (brelse_stays hR hE bh).next fun _ => Owns.pure rfl

theorem brelseOpt_stays (hR : TableFrame R) (hE : ∀ e, e ≠ .bmapBlock → E e)
    (bh : Option Bh) : Stays R E (brelseOpt bh) := by
  cases bh with
  | none => exact Owns.pure rfl
  | some bh => exact brelse_stays hR hE bh

theorem modifyData_stays (hR : TableFrame R) (bh : Bh) (f : (ℕ → ℕ) → ℕ → ℕ) :
    Stays R E (modifyData bh f) := Stays.buffers hR fun _ => ⟨rfl, rfl, rfl, rfl, rfl⟩

theorem getSuper_stays (dev : ℕ) : Stays R E (getSuper dev) := Owns.read _

theorem syncBuffers_stays (hR : TableFrame R) (dev : ℕ) : Stays R E (syncBuffers dev) :=
  Stays.buffers hR fun _ => ⟨rfl, rfl, rfl, rfl, rfl⟩

/-! ### The bitmap of the zones -/

theorem newBlock_stays (hR : TableFrame R) (hE : ∀ e, e ≠ .bmapBlock → E e)
    (dev : ℕ) : Stays R E (newBlock dev) := by
  apply (getSuper_stays dev).next
  intro sb
  cases sb with
  | none => exact Stays.fail (hE _ (by decide))
  | some sb =>
    apply (Owns.read _).next
    intro k
    cases k with
    | none => exact Owns.pure rfl
    | some k =>
      have hbit : Stays R E (setZmapBit dev k) := by
        apply (Owns.read _).next
        intro bit
        apply Owns.ite
        · exact fun _ => Stays.fail (hE _ (by decide))
        · exact fun _ => Stays.buffers hR fun _ => ⟨rfl, rfl, rfl, rfl, rfl⟩
      have hclear : ∀ bh, Stays R E (clearBlock bh) := fun bh =>
        (modifyData_stays hR bh _).next fun _ =>
          Stays.buffers hR fun _ => ⟨rfl, rfl, rfl, rfl, rfl⟩
      apply hbit.next
      intro _
      apply Owns.ite
      · exact fun _ => Owns.pure rfl
      · intro _
        apply (getblk_stays hR dev _).next
        intro bh
        apply (Owns.read _).next
        intro count
        apply Owns.ite
        · exact fun _ => Stays.fail (hE _ (by decide))
        · intro _
          exact (hclear bh).next fun _ => (brelse_stays hR hE bh).next fun _ => Owns.pure rfl

theorem freeBlock_stays (hR : TableFrame R) (hE : ∀ e, e ≠ .bmapBlock → E e)
    (dev block : ℕ) : Stays R E (freeBlock dev block) := by
  apply (getSuper_stays dev).next
  intro sb
  cases sb with
  | none => exact Stays.fail (hE _ (by decide))
  | some sb =>
    apply Owns.ite
    · exact fun _ => Stays.fail (hE _ (by decide))
    · intro _
      apply (Owns.read _).next
      intro count
      apply Owns.ite
      · intro _
        apply (getblk_stays hR dev block).next
        exact fun bh => Stays.buffers hR fun _ => ⟨rfl, rfl, rfl, rfl, rfl⟩
      · intro _
        apply Owns.next
        · exact Stays.buffers hR fun _ => ⟨rfl, rfl, rfl, rfl, rfl⟩
        · intro _
          apply Owns.ite
          · exact fun _ => Stays.fail (hE _ (by decide))
          · intro _
            apply (Owns.read _).next
            intro bit
            apply Owns.ite
            · exact fun _ => Stays.buffers hR fun _ => ⟨rfl, rfl, rfl, rfl, rfl⟩
            · exact fun _ => Stays.fail (hE _ (by decide))

theorem bmapEntries_stays (hR : TableFrame R) (hE : ∀ e, e ≠ .bmapBlock → E e)
    (dev : ℕ) (create : Bool) (ks : List ℕ) (z : ℕ) :
    Stays R E (bmapEntries dev create ks z) := by
  have hword : ∀ bh k, Stays R E (bmapWord dev bh k create) := by
    intro bh k
    apply (Owns.read _).next
    intro i
    apply Owns.ite
    · intro _
      apply (newBlock_stays hR hE dev).next
      intro j
      apply Owns.next
      · exact Owns.when fun _ => modifyData_stays hR bh _
      · exact fun _ => Owns.pure rfl
    · exact fun _ => Owns.pure rfl
  induction ks generalizing z with
  | nil => exact Owns.pure rfl
  | cons k ks ih =>
    apply Owns.ite
    · exact fun _ => Owns.pure rfl
    · intro _
      apply Owns.next
      · apply (bread_stays hR hE dev z).next
        intro bh
        cases bh with
        | none => exact Owns.pure rfl
        | some bh => exact (hword bh k).next fun i => (brelse_stays hR hE bh).next fun _ =>
            Owns.pure rfl
      · exact fun i => ih i

theorem forWords_stays {bh : Bh} {f : ℕ → K Unit} (hf : ∀ v, Stays R E (f v)) (n k : ℕ) :
    Stays R E (forWords bh f n k) := by
  induction n generalizing k with
  | zero => exact Owns.pure rfl
  | succ n ih =>
    apply (Owns.read _).next
    intro v
    apply Owns.next
    · exact Owns.when fun _ => hf v
    · exact fun _ => ih (k + 1)

theorem freeTree_stays (hR : TableFrame R) (hE : ∀ e, e ≠ .bmapBlock → E e)
    {f : ℕ → K Unit} (hf : ∀ v, Stays R E (f v)) (dev block : ℕ) :
    Stays R E (freeTree f dev block) := by
  apply Owns.ite
  · exact fun _ => Owns.pure rfl
  · intro _
    apply Owns.next
    · apply (bread_stays hR hE dev block).next
      intro bh
      cases bh with
      | none => exact Owns.pure rfl
      | some bh => exact Owns.next (forWords_stays hf 512 0) fun _ => brelse_stays hR hE bh
    · exact fun _ => freeBlock_stays hR hE dev block

/-! ### Clean inodes -/

/-- `write_inode` only marks inodes as clean. -/
theorem writeInode_stays (hR : TableFrame R) (hE : ∀ e, e ≠ .bmapBlock → E e) {inode : ℕ}
    (hclean : ∀ s, R s (s.setInode inode { s.inode inode with dirt := false })) :
    Stays R E (writeInode inode) := by
  apply (Owns.read _).next
  intro m
  apply Owns.ite
  · exact fun _ => Owns.pure rfl
  · intro _
    apply (getSuper_stays _).next
    intro sb
    cases sb with
    | none => exact Stays.fail (hE _ (by decide))
    | some sb =>
      apply (bread_stays hR hE _ _).next
      intro bh
      cases bh with
      | none => exact Stays.fail (hE _ (by decide))
      | some bh =>
        apply Owns.next
        · exact Stays.buffers hR fun _ => ⟨rfl, rfl, rfl, rfl, rfl⟩
        · intro _
          apply Owns.next
          · exact Stays.update hR hclean
          · exact fun _ => brelse_stays hR hE bh

theorem syncDev_stays (hR : TableFrame R) (hE : ∀ e, e ≠ .bmapBlock → E e)
    (hclean : ∀ s inode, R s (s.setInode inode { s.inode inode with dirt := false })) (dev : ℕ) :
    Stays R E (syncDev dev) := by
  have hinodes : ∀ n i, Stays R E (syncInodes n i) := by
    intro n
    induction n with
    | zero => exact fun _ => Owns.pure rfl
    | succ n ih =>
      intro i
      apply (Owns.read _).next
      intro m
      apply Owns.next
      · exact Owns.when fun _ => writeInode_stays hR hE fun s => hclean s i
      · exact fun _ => ih (i + 1)
  apply (syncBuffers_stays hR dev).next
  intro _
  exact (hinodes nrInode 0).next fun _ => syncBuffers_stays hR dev

end Buffers

/-! ### The file table and the tasks -/

theorem sameTables_frame : TableFrame SameTables where
  refl := .refl
  trans _ _ _ h h' := h.trans h'
  same _ _ h := ⟨h.super, h.file, h.task, h.current⟩

/-- A program that keeps the file table, the tasks and the super blocks, whatever panics it may end
in. -/
abbrev StaysTables {α : Type} (m : K α) : Prop := Stays SameTables (fun _ => True) m

theorem anyPanic (e : Panic) (_ : e ≠ .bmapBlock) : (fun _ : Panic => True) e := trivial

theorem modifyInode_stays (inode : ℕ) (f : MInode → MInode) :
    StaysTables (modifyInode inode f) :=
  Stays.update sameTables_frame fun s => setInode_sameTables s inode _

/-- A program that reads an inode and then stores it with changes. -/
theorem writeInode_tables (inode : ℕ) : StaysTables (writeInode inode) :=
  writeInode_stays sameTables_frame anyPanic fun s => setInode_sameTables s inode _

theorem freeDirect_stays (inode n k : ℕ) : StaysTables (freeDirect inode n k) := by
  induction n generalizing k with
  | zero => exact Owns.pure rfl
  | succ n ih =>
    apply (Owns.read _).next
    intro m
    apply Owns.next
    · apply Owns.when
      intro _
      apply (freeBlock_stays sameTables_frame anyPanic _ _).next
      exact fun _ => modifyInode_stays inode _
    · exact fun _ => ih (k + 1)

theorem truncate_stays (inode : ℕ) : StaysTables (truncate inode) := by
  have hind : ∀ dev z, StaysTables (freeInd dev z) := fun dev z =>
    freeTree_stays sameTables_frame anyPanic (freeBlock_stays sameTables_frame anyPanic dev) dev z
  apply (Owns.read _).next
  intro mode
  apply Owns.ite
  · intro _
    apply (freeDirect_stays inode 7 0).next
    intro _
    apply (Owns.read _).next
    intro m
    apply (hind m.dev _).next
    intro _
    apply (freeTree_stays sameTables_frame anyPanic (hind m.dev) m.dev _).next
    intro _
    apply (Owns.read _).next
    exact fun time => modifyInode_stays inode _
  · exact fun _ => Owns.pure rfl

theorem freeInode_stays (inode : ℕ) : StaysTables (freeInode inode) := by
  apply (Owns.read _).next
  intro m
  apply Owns.ite
  · exact fun _ => modifyInode_stays inode _
  · intro _
    apply Owns.ite
    · exact fun _ => Stays.fail trivial
    · intro _
      apply Owns.ite
      · exact fun _ => Stays.fail trivial
      · intro _
        apply (getSuper_stays _).next
        intro sb
        cases sb with
        | none => exact Stays.fail trivial
        | some sb =>
          apply Owns.ite
          · exact fun _ => Stays.fail trivial
          · intro _
            apply Owns.ite
            · exact fun _ => Stays.fail trivial
            · intro _
              apply Owns.next
              · exact Stays.buffers sameTables_frame fun _ => ⟨rfl, rfl, rfl, rfl, rfl⟩
              · exact fun _ => modifyInode_stays inode _

theorem iput_stays (inode : ℕ) : StaysTables (iput inode) := by
  have hfile : StaysTables (iputFile inode) := by
    apply (Owns.read _).next
    intro m
    apply Owns.ite
    · exact fun _ => modifyInode_stays inode _
    · intro _
      apply Owns.ite
      · exact fun _ => (truncate_stays inode).next fun _ => freeInode_stays inode
      · exact fun _ => (writeInode_tables inode).next fun _ => modifyInode_stays inode _
  apply (Owns.read _).next
  intro m
  apply Owns.ite
  · exact fun _ => Stays.fail trivial
  · intro _
    apply Owns.ite
    · intro _
      apply Owns.ite
      · exact fun _ => modifyInode_stays inode _
      · exact fun _ => modifyInode_stays inode _
    · intro _
      apply Owns.ite
      · exact fun _ => modifyInode_stays inode _
      · intro _
        apply Owns.next
        · apply Owns.when
          intro _
          exact syncDev_stays sameTables_frame anyPanic (fun s i => setInode_sameTables s i _) _
        · exact fun _ => hfile

/-- A reference is given back at the end. -/
theorem iput_pure_stays {α : Type} (inode : ℕ) (a : α) :
    StaysTables (iput inode >>= fun _ => (pure a : K α)) :=
  (iput_stays inode).next fun _ => Owns.pure rfl

theorem getEmptyInode_stays : StaysTables getEmptyInode := by
  apply (Owns.read _).next
  rintro ⟨last, best⟩
  apply Owns.next
  · exact Stays.update sameTables_frame fun _ => ⟨rfl, rfl, rfl, rfl⟩
  · intro _
    cases best with
    | none => exact Stays.fail trivial
    | some inode =>
      apply (Owns.read _).next
      intro m
      apply Owns.ite
      · exact fun _ => Stays.fail trivial
      · intro _
        apply (writeInode_tables inode).next
        exact fun _ => (modifyInode_stays inode _).next fun _ => Owns.pure rfl

theorem readInode_stays (inode : ℕ) : StaysTables (readInode inode) := by
  apply (Owns.read _).next
  intro m
  apply (getSuper_stays _).next
  intro sb
  cases sb with
  | none => exact Stays.fail trivial
  | some sb =>
    apply (bread_stays sameTables_frame anyPanic _ _).next
    intro bh
    cases bh with
    | none => exact Stays.fail trivial
    | some bh =>
      apply Owns.next
      · exact Stays.update sameTables_frame fun s => setInode_sameTables s inode _
      · exact fun _ => brelse_stays sameTables_frame anyPanic bh

theorem igetLoop_stays (empty n dev nr : ℕ) : StaysTables (igetLoop empty n dev nr) := by
  induction n generalizing dev nr with
  | zero => exact Stays.fail trivial
  | succ n ih =>
    apply (Owns.read _).next
    intro found
    cases found with
    | none =>
      apply (modifyInode_stays empty _).next
      exact fun _ => (readInode_stays empty).next fun _ => Owns.pure rfl
    | some inode =>
      apply (modifyInode_stays inode _).next
      intro _
      apply (Owns.read _).next
      intro m
      apply Owns.ite
      · intro _
        apply (Owns.read _).next
        intro k
        cases k with
        | none => exact iput_pure_stays empty inode
        | some k =>
          apply (iput_stays inode).next
          intro _
          apply (Owns.read _).next
          exact fun dev => ih dev rootIno
      · exact fun _ => iput_pure_stays empty inode

theorem iget_stays (dev nr : ℕ) : StaysTables (iget dev nr) := by
  apply Owns.ite
  · exact fun _ => Stays.fail trivial
  · exact fun _ => getEmptyInode_stays.next fun empty => igetLoop_stays empty _ dev nr

theorem newInode_stays (dev : ℕ) : StaysTables (newInode dev) := by
  have hbit : ∀ j, StaysTables (setImapBit dev j) := by
    intro j
    apply (Owns.read _).next
    intro bit
    apply Owns.ite
    · exact fun _ => Stays.fail trivial
    · exact fun _ => Stays.buffers sameTables_frame fun _ => ⟨rfl, rfl, rfl, rfl, rfl⟩
  apply getEmptyInode_stays.next
  intro inode
  apply (getSuper_stays dev).next
  intro sb
  cases sb with
  | none => exact Stays.fail trivial
  | some sb =>
    apply (Owns.read _).next
    intro j
    cases j with
    | none => exact iput_pure_stays inode none
    | some j =>
      apply Owns.ite
      · exact fun _ => iput_pure_stays inode none
      · intro _
        apply (hbit j).next
        intro _
        apply (Owns.read _).next
        intro p
        apply (Owns.read _).next
        intro time
        exact (modifyInode_stays inode _).next fun _ => Owns.pure rfl

/-! ### Directories -/

theorem bmapBlock_stays (inode block : ℕ) (create : Bool) :
    StaysTables (bmapBlock inode block create) := by
  have hzone : ∀ n, StaysTables (bmapZone inode n create) := by
    intro n
    apply (Owns.read _).next
    intro m
    apply Owns.ite
    · intro _
      apply (newBlock_stays sameTables_frame anyPanic m.dev).next
      intro j
      apply (Owns.read _).next
      intro time
      apply (modifyInode_stays inode _).next
      intro _
      apply Owns.next
      · exact Owns.when fun _ => modifyInode_stays inode _
      · exact fun _ => Owns.pure rfl
    · exact fun _ => Owns.pure rfl
  apply Owns.ite
  · exact fun _ => Stays.fail trivial
  · intro _
    apply (Owns.read _).next
    intro dev
    exact (hzone _).next fun z => bmapEntries_stays sameTables_frame anyPanic dev create _ z

theorem dirPos_stays (dir : ℕ) (create : Bool) (i : ℕ) (bh : Option Bh) (k : ℕ) :
    StaysTables (dirPos dir create i bh k) := by
  have hnext : StaysTables (brelseOpt bh >>= fun _ => dirPos dir create i none k) := by
    apply (brelseOpt_stays sameTables_frame anyPanic bh).next
    intro _
    apply Owns.next (Owns.pure rfl)
    intro _
    apply (bmapBlock_stays dir _ create).next
    intro block
    apply Owns.ite
    · exact fun _ => Owns.pure rfl
    · intro _
      apply (Owns.read _).next
      intro dev
      apply (bread_stays sameTables_frame anyPanic dev block).next
      intro found
      cases found with
      | none => exact Owns.pure rfl
      | some found => exact Owns.pure rfl
  unfold dirPos
  cases bh with
  | none => exact hnext
  | some bh =>
    by_cases hk : k < dirEntriesPerBlock
    · simp only [hk, decide_true]
      exact Owns.pure rfl
    · simp only [hk, decide_false]
      exact hnext

theorem findLoop_stays (dir namelen : ℕ) (name : List ℕ) (entries n i : ℕ) (bh : Option Bh)
    (k : ℕ) : StaysTables (findLoop dir namelen name entries n i bh k) := by
  have hnone : ∀ bh : Option Bh, StaysTables (brelseOpt bh >>= fun _ =>
      Pure.pure (none : Option (Bh × ℕ))) :=
    fun bh => (brelseOpt_stays sameTables_frame anyPanic bh).next fun _ => Owns.pure rfl
  induction n generalizing i bh k with
  | zero => exact hnone bh
  | succ n ih =>
    apply Owns.ite
    · exact fun _ => hnone bh
    · intro _
      apply (dirPos_stays dir false i bh k).next
      intro pos
      cases pos with
      | entry bh k =>
        apply (Owns.read _).next
        intro d
        apply Owns.ite
        · exact fun _ => Owns.pure rfl
        · exact fun _ => ih ..
      | skip => exact ih ..
      | full => exact ih ..

theorem findEntry_stays (dir : ℕ) (name : List ℕ) : StaysTables (findEntry dir name) := by
  have hdots : StaysTables (dotDot dir name (min name.length nameLen)) := by
    apply (Owns.read _).next
    intro p
    apply (Owns.read _).next
    intro m
    apply Owns.ite
    · intro _
      apply Owns.ite
      · exact fun _ => Owns.pure rfl
      · intro _
        apply Owns.ite
        · intro _
          apply (getSuper_stays _).next
          intro sb
          cases sb with
          | none => exact Stays.fail trivial
          | some sb =>
            rcases hmount : sb.imount with _ | mounted
            · simp only [hmount]
              exact Owns.pure rfl
            · simp only [hmount]
              apply (iput_stays dir).next
              exact fun _ => (modifyInode_stays mounted _).next fun _ => Owns.pure rfl
        · exact fun _ => Owns.pure rfl
    · exact fun _ => Owns.pure rfl
  apply (Owns.read _).next
  intro entries
  apply Owns.ite
  · exact fun _ => Owns.pure rfl
  · intro _
    apply hdots.next
    rintro ⟨found, namelen⟩
    apply Owns.next
    · apply (Owns.read _).next
      intro m
      apply Owns.ite
      · exact fun _ => Owns.pure rfl
      · intro _
        apply (bread_stays sameTables_frame anyPanic _ _).next
        intro bh
        cases bh with
        | none => exact Owns.pure rfl
        | some bh => exact findLoop_stays found namelen name entries entries 0 (some bh) 0
    · exact fun res => Owns.pure rfl

theorem addLoop_stays (dir namelen : ℕ) (name : List ℕ) (n i : ℕ) (bh : Option Bh) (k : ℕ) :
    StaysTables (addLoop dir namelen name n i bh k) := by
  induction n generalizing i bh k with
  | zero => exact Stays.fail trivial
  | succ n ih =>
    apply (dirPos_stays dir true i bh k).next
    intro pos
    cases pos with
    | full => exact Owns.pure rfl
    | skip => exact ih ..
    | entry bh k =>
      apply (Owns.read _).next
      intro size
      apply (Owns.read _).next
      intro time
      apply Owns.next
      · apply Owns.when
        intro _
        exact (modifyData_stays sameTables_frame bh _).next fun _ => modifyInode_stays dir _
      · intro _
        apply (Owns.read _).next
        intro inr
        apply Owns.ite
        · intro _
          apply (modifyInode_stays dir _).next
          intro _
          exact (modifyData_stays sameTables_frame bh _).next fun _ => Owns.pure rfl
        · exact fun _ => ih ..

theorem addEntry_stays (dir : ℕ) (name : List ℕ) : StaysTables (addEntry dir name) := by
  apply Owns.ite
  · exact fun _ => Owns.pure rfl
  · intro _
    apply (Owns.read _).next
    intro m
    apply Owns.ite
    · exact fun _ => Owns.pure rfl
    · intro _
      apply (bread_stays sameTables_frame anyPanic _ _).next
      intro bh
      cases bh with
      | none => exact Owns.pure rfl
      | some bh => exact addLoop_stays _ _ _ _ 0 (some bh) 0

/-! ### Path names -/

theorem getEntry_stays (dir : ℕ) (bh : Bh) (k : ℕ) : StaysTables (getEntry dir bh k) := by
  apply (Owns.read _).next
  intro inr
  apply (Owns.read _).next
  intro dev
  apply (brelse_stays sameTables_frame anyPanic bh).next
  exact fun _ => (iput_stays dir).next fun _ => iget_stays dev inr

theorem getDirLoop_stays (n inode : ℕ) (pathname : List ℕ) :
    StaysTables (getDirLoop n inode pathname) := by
  induction n generalizing inode pathname with
  | zero => exact Stays.fail trivial
  | succ n ih =>
    apply (Owns.read _).next
    intro m
    apply (Owns.read _).next
    intro may
    apply Owns.ite
    · intro _
      rcases splitName pathname with ⟨thisname, _ | rest⟩
      · exact Owns.pure rfl
      · apply (findEntry_stays inode thisname).next
        rintro ⟨dir, _ | ⟨bh, k⟩⟩
        · exact iput_pure_stays dir none
        · exact (getEntry_stays dir bh k).next fun inode => ih inode rest
    · exact fun _ => iput_pure_stays inode none

theorem dirNamei_stays (pathname : List ℕ) : StaysTables (dirNamei pathname) := by
  apply Owns.next
  · apply (Owns.read _).next
    intro p
    apply (Owns.read _).next
    intro inodes
    rcases hroot : p.root with _ | root
    · exact Stays.fail trivial
    · rcases hpwd : p.pwd with _ | pwd
      · exact Stays.fail trivial
      · dsimp only
        apply Owns.ite
        · exact fun _ => Stays.fail trivial
        · intro _
          apply Owns.ite
          · exact fun _ => Stays.fail trivial
          · intro _
            cases pathname with
            | nil => exact Owns.pure rfl
            | cons c rest =>
              apply Owns.ite
              · exact fun _ => (modifyInode_stays root _).next fun _ => getDirLoop_stays ..
              · exact fun _ => (modifyInode_stays pwd _).next fun _ => getDirLoop_stays ..
  · intro dir
    cases dir with
    | none => exact Owns.pure rfl
    | some dir => exact Owns.pure rfl

/-! ### `open_namei` -/

theorem openCreate_stays (dir : ℕ) (basename : List ℕ) (mode : ℕ) :
    StaysTables (openCreate dir basename mode) := by
  apply (Owns.read _).next
  intro may
  apply Owns.ite
  · intro _
    apply (Owns.read _).next
    intro dev
    apply (newInode_stays dev).next
    intro inode
    cases inode with
    | none => exact iput_pure_stays dir _
    | some inode =>
      apply (Owns.read _).next
      intro p
      apply (modifyInode_stays inode _).next
      intro _
      apply (addEntry_stays dir basename).next
      intro found
      rcases found with _ | ⟨bh, k⟩
      · apply (modifyInode_stays inode _).next
        intro _
        exact (iput_stays inode).next fun _ => iput_pure_stays dir _
      · apply (Owns.read _).next
        intro num
        apply (modifyData_stays sameTables_frame bh _).next
        intro _
        exact (brelse_stays sameTables_frame anyPanic bh).next fun _ => iput_pure_stays dir _
  · exact fun _ => iput_pure_stays dir _

theorem openExisting_stays (dir : ℕ) (bh : Bh) (k flag : ℕ) :
    StaysTables (openExisting dir bh k flag) := by
  apply (Owns.read _).next
  intro inr
  apply (Owns.read _).next
  intro dev
  apply (brelse_stays sameTables_frame anyPanic bh).next
  intro _
  apply (iput_stays dir).next
  intro _
  apply Owns.ite
  · exact fun _ => Owns.pure rfl
  · intro _
    apply (iget_stays dev inr).next
    intro inode
    apply (Owns.read _).next
    intro m
    apply (Owns.read _).next
    intro may
    apply Owns.ite
    · exact fun _ => iput_pure_stays inode _
    · intro _
      apply (Owns.read _).next
      intro time
      apply (modifyInode_stays inode _).next
      intro _
      apply Owns.next
      · exact Owns.when fun _ => truncate_stays inode
      · exact fun _ => Owns.pure rfl

theorem openNamei_stays (pathname : List ℕ) (flag mode : ℕ) :
    StaysTables (openNamei pathname flag mode) := by
  apply (Owns.read _).next
  intro umask
  apply (dirNamei_stays pathname).next
  rintro (_ | ⟨dir, basename⟩)
  · exact Owns.pure rfl
  · apply Owns.ite
    · intro _
      apply Owns.ite
      · exact fun _ => Owns.pure rfl
      · exact fun _ => iput_pure_stays dir _
    · intro _
      apply (findEntry_stays dir basename).next
      rintro ⟨dir, _ | ⟨bh, k⟩⟩
      · apply Owns.ite
        · exact fun _ => openCreate_stays ..
        · exact fun _ => iput_pure_stays dir _
      · exact openExisting_stays ..

end LihaLinux.Files
