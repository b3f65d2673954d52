import LihaLinux.Lib.Owns
import LihaLinux.Files.NameCalls

/-!
# References to inodes

`i_count` counts the references of the tables and of the call that runs. `Counted ρ R s` says so
for the references `ρ` of the tables and `R` of the call, together with what follows for the
inodes that nobody refers to: they are clean. So `write_inode` always finds the super block of
an inode that has to be written. `Holds` is the type of a function that takes and gives
references.
-/

namespace LihaLinux.Files

/-! ### Accounts -/

/-- A device with a super block in the table. -/
def Mounted (super : ℕ → SuperBlock) (dev : ℕ) : Prop := ∃ k, k < nrSuper ∧ (super k).dev = dev

/-- The tables that a call with names does not change. -/
structure SameTables (s s' : Fs) : Prop where
  super : s'.super = s.super
  file : s'.file = s.file
  task : s'.task = s.task
  current : s'.current = s.current

/-- `i_count` of every inode is the number of references, an inode without references is clean,
and one with references is in the table and on a mounted device. -/
structure Counted (ρ : ℕ → ℕ) (R : List ℕ) (s : Fs) : Prop where
  bound : ∀ i, ρ i + R.count i ≠ 0 → i < nrInode
  count : ∀ i, (s.inode i).count = (ρ i + R.count i) % 65536
  clean : ∀ i, (s.inode i).dev ≠ 0 → ρ i + R.count i = 0 → (s.inode i).dirt = false
  mounted : ∀ i, (s.inode i).dev ≠ 0 → ρ i + R.count i ≠ 0 → Mounted s.super (s.inode i).dev
  mounts : ∀ k, k < nrSuper → ∀ j, (s.super k).imount = some j → ρ j ≠ 0

/-- The account of the inodes, for the tables of `s₀`. -/
def Account (s₀ : Fs) (ρ : ℕ → ℕ) (R : List ℕ) (s : Fs) : Prop := Counted ρ R s ∧ SameTables s₀ s

/-- A program that starts with references to the inodes `pre` ends with references to the inodes
`post` of its result, and does not meet an inode that it cannot write. -/
abbrev Holds (s₀ : Fs) {α : Type} (m : K α) (pre : List ℕ) (post : α → List ℕ) : Prop :=
  Owns (Account s₀) (fun _ e _ => e ≠ .writeNoDevice) m pre post

section Accounts

variable {s₀ s s' : Fs} {ρ : ℕ → ℕ} {R R' : List ℕ} {i : ℕ}

theorem SameTables.refl (s : Fs) : SameTables s s := ⟨rfl, rfl, rfl, rfl⟩

theorem SameTables.trans (h : SameTables s₀ s) (h' : SameTables s s') : SameTables s₀ s' :=
  ⟨h'.super.trans h.super, h'.file.trans h.file, h'.task.trans h.task,
    h'.current.trans h.current⟩

/-- The account depends on the inodes and the super blocks only. -/
theorem Counted.congr (h : Counted ρ R s) (hinode : s'.inode = s.inode)
    (hsuper : s'.super = s.super) : Counted ρ R s' := by
  refine ⟨h.bound, ?_, ?_, ?_, ?_⟩
  · rw [hinode]
    exact h.count
  · rw [hinode]
    exact h.clean
  · rw [hinode, hsuper]
    exact h.mounted
  · rw [hsuper]
    exact h.mounts

@[simp] theorem addCount_dev (m : MInode) (n : ℕ) : (m.addCount n).dev = m.dev := rfl

@[simp] theorem addCount_dirt (m : MInode) (n : ℕ) : (m.addCount n).dirt = m.dirt := rfl

/-- Only the numbers of references count. -/
theorem Counted.change {ρ' : ℕ → ℕ} (h : Counted ρ R s)
    (hsum : ∀ i, ρ' i + R'.count i = ρ i + R.count i)
    (hmounts : ∀ k, k < nrSuper → ∀ j, (s.super k).imount = some j → ρ' j ≠ 0) :
    Counted ρ' R' s := by
  refine ⟨fun i hsum' => ?_, fun i => ?_, fun i hdev hsum' => ?_, fun i hdev hsum' => ?_, hmounts⟩
  · rw [hsum] at hsum'
    exact h.bound i hsum'
  · rw [hsum]
    exact h.count i
  · rw [hsum] at hsum'
    exact h.clean i hdev hsum'
  · rw [hsum] at hsum'
    exact h.mounted i hdev hsum'

/-- A change of one inode. -/
theorem Counted.setInode {n : MInode} (h : Counted ρ R s)
    (hR : ∀ j, j ≠ i → R'.count j = R.count j) (hbound : ρ i + R'.count i ≠ 0 → i < nrInode)
    (hcount : n.count = (ρ i + R'.count i) % 65536)
    (hclean : n.dev ≠ 0 → ρ i + R'.count i = 0 → n.dirt = false)
    (hmounted : n.dev ≠ 0 → ρ i + R'.count i ≠ 0 → Mounted s.super n.dev) :
    Counted ρ R' (s.setInode i n) := by
  refine ⟨fun j => ?_, fun j => ?_, fun j => ?_, fun j => ?_, h.mounts⟩ <;>
    rcases eq_or_ne j i with rfl | hj
  · exact hbound
  · rw [hR j hj]
    exact h.bound j
  · simp only [Fs.setInode, Function.update_self]
    exact hcount
  · simp only [Fs.setInode, Function.update_of_ne hj, hR j hj]
    exact h.count j
  · simp only [Fs.setInode, Function.update_self]
    exact hclean
  · simp only [Fs.setInode, Function.update_of_ne hj, hR j hj]
    exact h.clean j
  · simp only [Fs.setInode, Function.update_self]
    exact hmounted
  · simp only [Fs.setInode, Function.update_of_ne hj, hR j hj]
    exact h.mounted j

theorem count_cons_ne (R : List ℕ) {j : ℕ} (hj : j ≠ i) : (i :: R).count j = R.count j :=
  List.count_cons_of_ne hj.symm

/-- One more reference to an inode on a mounted device. -/
theorem Counted.inc (h : Counted ρ R s) (hi : i < nrInode)
    (hdev : (s.inode i).dev ≠ 0 → Mounted s.super (s.inode i).dev) :
    Counted ρ (i :: R) (s.setInode i ((s.inode i).addCount 1)) := by
  refine h.setInode (fun j hj => count_cons_ne R hj) (fun _ => hi) ?_ ?_ ?_
  · have hcount := h.count i
    simp only [MInode.addCount, List.count_cons_self]
    omega
  · intro _ hsum
    rw [List.count_cons_self] at hsum
    omega
  · rw [addCount_dev]
    exact fun hne _ => hdev hne

/-- One reference less; the last one is to a clean inode. -/
theorem Counted.dec (h : Counted ρ (i :: R) s)
    (hlast : (s.inode i).count = 1 → (s.inode i).dev ≠ 0 → (s.inode i).dirt = false) :
    Counted ρ R (s.setInode i ((s.inode i).addCount 65535)) := by
  have hcount := h.count i
  rw [List.count_cons_self] at hcount
  refine h.setInode (fun j hj => (count_cons_ne R hj).symm) (fun _ => h.bound i ?_) ?_ ?_ ?_
  · rw [List.count_cons_self]
    omega
  · simp only [MInode.addCount]
    omega
  · rw [addCount_dev, addCount_dirt]
    exact fun hdev hsum => hlast (by omega) hdev
  · rw [addCount_dev]
    refine fun hdev _ => h.mounted i hdev ?_
    rw [List.count_cons_self]
    omega

/-- A held inode is changed apart from its count. -/
theorem Counted.modify {n : MInode} (h : Counted ρ (i :: R) s)
    (hcount : n.count = (s.inode i).count) (hdev : n.dev ≠ 0 → Mounted s.super n.dev) :
    Counted ρ (i :: R) (s.setInode i n) := by
  refine h.setInode (fun _ _ => rfl) (h.bound i) (hcount.trans (h.count i)) ?_
    fun hne _ => hdev hne
  intro _ hsum
  rw [List.count_cons_self] at hsum
  omega

/-- A held inode is on a mounted device. -/
theorem Counted.mounted_of_mem (h : Counted ρ R s) (hi : i ∈ R) (hdev : (s.inode i).dev ≠ 0) :
    Mounted s.super (s.inode i).dev := by
  have hpos := List.count_pos_iff.mpr hi
  exact h.mounted i hdev (by omega)

theorem Account.perm (ρ : ℕ → ℕ) (R R' : List ℕ) (s : Fs) (hR : R.Perm R')
    (h : Account s₀ ρ R s) : Account s₀ ρ R' s := by
  refine ⟨h.1.change (fun i => ?_) h.1.mounts, h.2⟩
  rw [hR.count_eq]

/-- A change that the account does not see. -/
theorem Account.congr (h : Account s₀ ρ R s) (hinode : s'.inode = s.inode)
    (hsame : SameTables s s') : Account s₀ ρ R s' :=
  ⟨h.1.congr hinode hsame.super, h.2.trans hsame⟩

theorem setInode_sameTables (s : Fs) (i : ℕ) (n : MInode) : SameTables s (s.setInode i n) :=
  ⟨rfl, rfl, rfl, rfl⟩

end Accounts

namespace Holds

variable {s₀ : Fs} {α β : Type} {m : K α} {f : α → K β} {pre X : List ℕ} {mid : α → List ℕ}
  {post : β → List ℕ} {i j : ℕ}

theorem fail {e : Panic} (he : e ≠ .writeNoDevice) : Holds s₀ (Prog.fail e : K β) pre post :=
  Owns.fail fun _ _ => he

/-- A change of the state apart from the inodes and the tables. -/
theorem update {g : Fs → Fs} (hinode : ∀ s, (g s).inode = s.inode)
    (hsame : ∀ s, SameTables s (g s)) : Holds s₀ (Prog.update g : K Unit) [] fun _ => [] :=
  Owns.update fun _ _ s h => h.congr (hinode s) (hsame s)

/-- A value that the tables decide. -/
theorem readTables {g : Fs → α} (hg : ∀ s, SameTables s₀ s → g s = g s₀)
    (hf : Holds s₀ (f (g s₀)) pre post) : Holds s₀ (Prog.read g >>= f) pre post := by
  refine ⟨fun ρ R s h => ?_⟩
  rw [Prog.wp_bind, Prog.wp_read, hg s h.2]
  exact hf.run ρ R s h

/-- A value read from an inode that is held: the device of the inode is mounted. -/
theorem readHeld (g : MInode → α) (hi : i ∈ pre)
    (hf : ∀ m : MInode, (m.dev ≠ 0 → Mounted s₀.super m.dev) → Holds s₀ (f (g m)) pre post) :
    Holds s₀ (Prog.read (fun s => g (s.inode i)) >>= f) pre post := by
  refine ⟨fun ρ R s h => ?_⟩
  rw [Prog.wp_bind, Prog.wp_read]
  refine (hf (s.inode i) fun hdev => ?_).run ρ R s h
  have hm := h.1.mounted_of_mem (List.mem_append_left R hi) hdev
  rwa [h.2.super] at hm

/-- A program that works on an inode that is held among others. -/
theorem among (hm : Holds s₀ m [i] fun _ => [i]) (hi : i ∈ X) : Holds s₀ m X fun _ => X :=
  Owns.among Account.perm hm hi

/-- A program that works on an inode that is held among others is followed by another one. -/
theorem andThen (hm : Holds s₀ m [i] fun _ => [i]) (hi : i ∈ X)
    (hf : ∀ a, Holds s₀ (f a) X post) : Holds s₀ (m >>= f) X post := (among hm hi).bind hf

/-- Two references in the other order. -/
theorem swap (hm : Holds s₀ m [j, i] mid) : Holds s₀ m [i, j] mid :=
  Owns.perm Account.perm hm (List.Perm.swap j i [])

end Holds

variable {s₀ : Fs}

/-- A held inode is changed apart from its count and its device. -/
theorem modifyInode_holds {i : ℕ} {f : MInode → MInode}
    (hsame : ∀ m, (f m).count = m.count ∧ (f m).dev = m.dev) :
    Holds s₀ (modifyInode i f) [i] fun _ => [i] := by
  refine ⟨fun ρ R s h => ?_⟩
  refine ⟨h.1.modify (hsame _).1 ?_, h.2.trans (setInode_sameTables ..)⟩
  rw [(hsame _).2]
  exact h.1.mounted_of_mem List.mem_cons_self

/-! ### The buffer cache -/

theorem getblk_holds (dev block : ℕ) : Holds s₀ (getblk dev block) [] fun _ => [] :=
  Owns.next (Holds.update (fun _ => rfl) fun _ => ⟨rfl, rfl, rfl, rfl⟩) fun _ => Owns.pure rfl

theorem readBlock_holds (bh : Bh) : Holds s₀ (readBlock bh) [] fun _ => [] := by
  have hsame (s : Fs) : (if s.uptodate bh || s.bad bh then s else s.load bh).inode = s.inode ∧
      SameTables s (if s.uptodate bh || s.bad bh then s else s.load bh) := by
    split_ifs
    · exact ⟨rfl, rfl, rfl, rfl, rfl⟩
    · exact ⟨rfl, rfl, rfl, rfl, rfl⟩
  exact Holds.update (fun s => (hsame s).1) fun s => (hsame s).2

theorem brelse_holds (bh : Bh) : Holds s₀ (brelse bh) [] fun _ => [] := by
  refine (Owns.read _).next fun count => Owns.ite (fun _ => Holds.fail (by decide)) fun _ => ?_
  exact Holds.update (fun _ => rfl) fun _ => ⟨rfl, rfl, rfl, rfl⟩

theorem bread_holds (dev block : ℕ) : Holds s₀ (bread dev block) [] fun _ => [] := by
  apply (getblk_holds dev block).next
  intro bh
  refine (readBlock_holds bh).next fun _ => (Owns.read _).next fun uptodate => ?_
  exact Owns.ite (fun _ => Owns.pure rfl) fun _ => (brelse_holds bh).next fun _ => Owns.pure rfl

theorem brelseOpt_holds (bh : Option Bh) : Holds s₀ (brelseOpt bh) [] fun _ => [] := by
  cases bh with
  | none => exact Owns.pure rfl
  | some bh => exact brelse_holds bh

theorem leak_holds (bh : Bh) : Holds s₀ (leak bh) [] fun _ => [] :=
  Holds.update (fun _ => rfl) fun _ => ⟨rfl, rfl, rfl, rfl⟩

theorem releaseTwice_holds (bh : Bh) : Holds s₀ (releaseTwice bh) [] fun _ => [] :=
  Holds.update (fun _ => rfl) fun _ => ⟨rfl, rfl, rfl, rfl⟩

theorem modifyData_holds (bh : Bh) (f : (ℕ → ℕ) → ℕ → ℕ) :
    Holds s₀ (modifyData bh f) [] fun _ => [] :=
  Holds.update (fun _ => rfl) fun _ => ⟨rfl, rfl, rfl, rfl⟩

theorem getSuper_holds (dev : ℕ) : Holds s₀ (getSuper dev) [] fun _ => [] := Owns.read _

/-! ### Zones -/

theorem setZmapBit_holds (dev k : ℕ) : Holds s₀ (setZmapBit dev k) [] fun _ => [] := by
  refine (Owns.read _).next fun bit => Owns.ite (fun _ => Holds.fail (by decide)) fun _ => ?_
  exact Holds.update (fun _ => rfl) fun _ => ⟨rfl, rfl, rfl, rfl⟩

theorem clearBlock_holds (bh : Bh) : Holds s₀ (clearBlock bh) [] fun _ => [] :=
  (modifyData_holds ..).next fun _ => Holds.update (fun _ => rfl) fun _ => ⟨rfl, rfl, rfl, rfl⟩

theorem clearZmapBit_holds (sb : SuperBlock) (dev k : ℕ) :
    Holds s₀ (clearZmapBit sb dev k) [] fun _ => [] := by
  refine Owns.ite (fun _ => Holds.fail (by decide)) fun _ => (Owns.read _).next fun bit => ?_
  refine Owns.ite (fun _ => ?_) fun _ => Holds.fail (by decide)
  exact Holds.update (fun _ => rfl) fun _ => ⟨rfl, rfl, rfl, rfl⟩

theorem newBlock_holds (dev : ℕ) : Holds s₀ (newBlock dev) [] fun _ => [] := by
  refine (getSuper_holds dev).next fun sb => ?_
  cases sb with
  | none => exact Holds.fail (by decide)
  | some sb =>
    refine (Owns.read _).next fun k => ?_
    cases k with
    | none => exact Owns.pure rfl
    | some k =>
      refine (setZmapBit_holds dev k).next fun _ => Owns.ite (fun _ => Owns.pure rfl) fun _ => ?_
      refine (getblk_holds ..).next fun bh => (Owns.read _).next fun count => ?_
      refine Owns.ite (fun _ => Holds.fail (by decide)) fun _ => ?_
      exact (clearBlock_holds bh).next fun _ => (brelse_holds bh).next fun _ => Owns.pure rfl

theorem freeBlock_holds (dev block : ℕ) : Holds s₀ (freeBlock dev block) [] fun _ => [] := by
  refine (getSuper_holds dev).next fun sb => ?_
  cases sb with
  | none => exact Holds.fail (by decide)
  | some sb =>
    refine Owns.ite (fun _ => Holds.fail (by decide)) fun _ => ?_
    refine (Owns.read _).next fun count => Owns.ite (fun _ => ?_) fun _ => ?_
    · exact (getblk_holds ..).next fun bh => leak_holds bh
    · refine Owns.next (Holds.update (fun _ => rfl) fun _ => ⟨rfl, rfl, rfl, rfl⟩) fun _ => ?_
      exact clearZmapBit_holds ..

theorem bmapZone_holds (inode n : ℕ) (create : Bool) :
    Holds s₀ (bmapZone inode n create) [inode] fun _ => [inode] := by
  refine (Owns.read _).next fun m => Owns.ite (fun _ => ?_) fun _ => Owns.pure rfl
  refine (newBlock_holds m.dev).next fun j => (Owns.read _).next fun time => ?_
  refine Owns.bind (modifyInode_holds fun _ => ⟨rfl, rfl⟩) fun _ => ?_
  refine Owns.bind ?_ fun _ => Owns.pure rfl
  exact Owns.when fun _ => modifyInode_holds fun _ => ⟨rfl, rfl⟩

theorem bmapWord_holds (dev : ℕ) (bh : Bh) (k : ℕ) (create : Bool) :
    Holds s₀ (bmapWord dev bh k create) [] fun _ => [] := by
  refine (Owns.read _).next fun i => Owns.ite (fun _ => ?_) fun _ => Owns.pure rfl
  refine (newBlock_holds dev).next fun j => Owns.next ?_ fun _ => Owns.pure rfl
  exact Owns.when fun _ => modifyData_holds ..

theorem bmapEntry_holds (dev z k : ℕ) (create : Bool) :
    Holds s₀ (bmapEntry dev z k create) [] fun _ => [] := by
  refine (bread_holds dev z).next fun bh => ?_
  cases bh with
  | none => exact Owns.pure rfl
  | some bh =>
    exact (bmapWord_holds ..).next fun i => (brelse_holds bh).next fun _ => Owns.pure rfl

theorem bmapEntries_holds (dev : ℕ) (create : Bool) (ks : List ℕ) (z : ℕ) :
    Holds s₀ (bmapEntries dev create ks z) [] fun _ => [] := by
  induction ks generalizing z with
  | nil => exact Owns.pure rfl
  | cons k ks ih =>
    exact Owns.ite (fun _ => Owns.pure rfl) fun _ => (bmapEntry_holds ..).next fun i => ih i

theorem bmapBlock_holds (inode block : ℕ) (create : Bool) :
    Holds s₀ (bmapBlock inode block create) [inode] fun _ => [inode] := by
  refine Owns.ite (fun _ => Holds.fail (by decide)) fun _ => (Owns.read _).next fun dev => ?_
  exact (bmapZone_holds ..).bind fun z => (bmapEntries_holds ..).keep

theorem forWords_holds {bh : Bh} {f : ℕ → K Unit} (hf : ∀ v, Holds s₀ (f v) [] fun _ => [])
    (n k : ℕ) : Holds s₀ (forWords bh f n k) [] fun _ => [] := by
  induction n generalizing k with
  | zero => exact Owns.pure rfl
  | succ n ih =>
    refine (Owns.read _).next fun v => Owns.next ?_ fun _ => ih (k + 1)
    exact Owns.when fun _ => hf v

theorem freeTree_holds {f : ℕ → K Unit} (hf : ∀ v, Holds s₀ (f v) [] fun _ => [])
    (dev block : ℕ) : Holds s₀ (freeTree f dev block) [] fun _ => [] := by
  refine Owns.ite (fun _ => Owns.pure rfl) fun _ => ?_
  refine Owns.next ((bread_holds dev block).next fun bh => ?_) fun _ => freeBlock_holds dev block
  cases bh with
  | none => exact Owns.pure rfl
  | some bh => exact Owns.next (forWords_holds hf 512 0) fun _ => brelse_holds bh

theorem freeDirect_holds (inode n k : ℕ) :
    Holds s₀ (freeDirect inode n k) [inode] fun _ => [inode] := by
  induction n generalizing k with
  | zero => exact Owns.pure rfl
  | succ n ih =>
    refine (Owns.read _).next fun m => Owns.bind ?_ fun _ => ih (k + 1)
    refine Owns.when fun _ => (freeBlock_holds ..).next fun _ => ?_
    exact modifyInode_holds fun _ => ⟨rfl, rfl⟩

theorem truncate_holds (inode : ℕ) : Holds s₀ (truncate inode) [inode] fun _ => [inode] := by
  refine (Owns.read _).next fun mode => Owns.ite (fun _ => ?_) fun _ => Owns.pure rfl
  refine (freeDirect_holds inode 7 0).bind fun _ => (Owns.read _).next fun m => ?_
  have hind : ∀ z, Holds s₀ (freeTree (freeBlock m.dev) m.dev z) [] fun _ => [] := fun z =>
    freeTree_holds (freeBlock_holds m.dev) m.dev z
  refine (hind (m.zone 7)).next fun _ => (freeTree_holds hind m.dev (m.zone 8)).next fun _ => ?_
  exact (Owns.read _).next fun time => modifyInode_holds fun _ => ⟨rfl, rfl⟩

/-! ### Super blocks -/

theorem findSuper_spec {super : ℕ → SuperBlock} {dev n k j : ℕ}
    (h : findSuper super dev n k = some j) : k ≤ j ∧ j < k + n ∧ (super j).dev = dev := by
  induction n generalizing k with
  | zero => exact absurd h (by simp [findSuper])
  | succ n ih =>
    rw [findSuper] at h
    split_ifs at h with hk
    · obtain rfl := Option.some.inj h
      exact ⟨Nat.le_refl k, by omega, hk⟩
    · obtain ⟨hle, hlt, hdev⟩ := ih h
      exact ⟨by omega, by omega, hdev⟩

/-- The search finds the super block of a mounted device. -/
theorem findSuper_isSome {super : ℕ → SuperBlock} {dev n k j : ℕ} (hk : k ≤ j) (hj : j < k + n)
    (hdev : (super j).dev = dev) : (findSuper super dev n k).isSome = true := by
  induction n generalizing k with
  | zero => omega
  | succ n ih =>
    rw [findSuper]
    split_ifs with hfirst
    · rfl
    · rcases eq_or_ne j k with rfl | hne
      · exact absurd hdev hfirst
      · exact ih (by omega) (by omega)

/-- What `get_super` reads. -/
def superOf (super : ℕ → SuperBlock) (dev : ℕ) : Option SuperBlock :=
  if dev = 0 then none else (findSuper super dev nrSuper 0).map super

theorem Mounted.superOf {super : ℕ → SuperBlock} {dev : ℕ} (h : Mounted super dev)
    (hdev : dev ≠ 0) : (superOf super dev).isSome = true := by
  obtain ⟨k, hk, hkdev⟩ := h
  rw [Files.superOf, if_neg hdev, Option.isSome_map]
  exact findSuper_isSome (Nat.zero_le k) (by omega) hkdev

theorem superOf_spec {super : ℕ → SuperBlock} {dev : ℕ} {sb : SuperBlock}
    (h : superOf super dev = some sb) : ∃ k, k < nrSuper ∧ super k = sb ∧ sb.dev = dev := by
  rw [superOf, Option.ite_none_left_eq_some, Option.map_eq_some_iff] at h
  obtain ⟨-, k, hk, rfl⟩ := h
  obtain ⟨-, hlt, hdev⟩ := findSuper_spec hk
  exact ⟨k, by omega, rfl, hdev⟩

/-- `get_super`, when its result is the one for the tables of `s₀`. -/
theorem Holds.getSuper {β : Type} {pre : List ℕ} {post : β → List ℕ} {dev : ℕ}
    {f : Option SuperBlock → K β} (hf : Holds s₀ (f (superOf s₀.super dev)) pre post) :
    Holds s₀ (getSuper dev >>= f) pre post := by
  refine Holds.readTables (fun s hs => ?_) hf
  rw [hs.super]

end LihaLinux.Files
