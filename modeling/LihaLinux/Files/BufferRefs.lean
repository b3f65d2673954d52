import LihaLinux.Lib.Owns
import LihaLinux.Files.NameCalls

/-!
# Buffer references of a call

A call gets references to buffers and has to give all of them back. `Refs m pre post` says that
a program that starts with the references `pre` ends with the references `post` of its
result, apart from those that the code forgets and those that it gives back twice. The rules
follow the program text, and every function gets such a type.
-/

namespace LihaLinux.Files

/-! ### Accounts -/

/-- `b_count` of every buffer in `s` is what it was in `s₀`, with the references `R` held in
between and up to those that the code has forgotten and given back twice since. -/
structure Held (s₀ : Fs) (R : List Bh) (s : Fs) : Prop where
  count : ∀ b, s.bcount b + s.twice.count b + s₀.leaked.count b =
    s₀.bcount b + R.count b + s.leaked.count b + s₀.twice.count b
  leaked : ∀ b, s₀.leaked.count b ≤ s.leaked.count b
  twice : ∀ b, s₀.twice.count b ≤ s.twice.count b

/-- Some buffer has been released twice. -/
def Doubled (s₀ s : Fs) : Prop := ∃ b, s₀.twice.count b < s.twice.count b

/-- A program that starts with the references `pre` ends with the references `post` of its
result, and releases a free buffer only after it has released one twice. -/
abbrev Refs {α : Type} (m : K α) (pre : List Bh) (post : α → List Bh) : Prop :=
  Owns Held (fun s₀ e s' => e = .freeFreeBuffer → Doubled s₀ s') m pre post

namespace Refs

variable {α : Type} {pre : List Bh} {post : α → List Bh}

theorem fail {e : Panic} (he : e ≠ .freeFreeBuffer) : Refs (Prog.fail e : K α) pre post :=
  Owns.fail fun _ _ h => absurd h he

/-- A change of the state apart from the buffer counts. -/
theorem update {g : Fs → Fs} (hcount : ∀ s, (g s).bcount = s.bcount)
    (hleaked : ∀ s, (g s).leaked = s.leaked) (htwice : ∀ s, (g s).twice = s.twice) :
    Refs (Prog.update g : K Unit) [] fun _ => [] := by
  refine Owns.update fun s₀ R s h => ⟨?_, ?_, ?_⟩
  · rw [hcount, hleaked, htwice]
    exact h.count
  · rw [hleaked]
    exact h.leaked
  · rw [htwice]
    exact h.twice

end Refs

/-! ### The buffer cache -/

theorem modifyInode_refs (i : ℕ) (f : MInode → MInode) :
    Refs (modifyInode i f) [] fun _ => [] :=
  Refs.update (fun _ => rfl) (fun _ => rfl) fun _ => rfl

theorem modifyData_refs (bh : Bh) (f : (ℕ → ℕ) → ℕ → ℕ) :
    Refs (modifyData bh f) [] fun _ => [] :=
  Refs.update (fun _ => rfl) (fun _ => rfl) fun _ => rfl

theorem getblk_refs (dev block : ℕ) : Refs (getblk dev block) [] fun bh => [bh] := by
  constructor
  intro s₀ R s h
  simp only [getblk, Prog.wp_bind, Prog.wp_update, Prog.wp_pure]
  refine ⟨fun b => ?_, h.leaked, h.twice⟩
  have hcount := h.count b
  rw [List.nil_append] at hcount
  rcases eq_or_ne b ⟨dev, block⟩ with rfl | hb
  · simp only [Fs.setCount, Function.update_self, List.cons_append, List.nil_append,
      List.count_cons_self]
    omega
  · simp only [Fs.setCount, Function.update_of_ne hb, List.cons_append, List.nil_append,
      List.count_cons_of_ne hb.symm]
    exact hcount

theorem readBlock_refs (bh : Bh) : Refs (readBlock bh) [] fun _ => [] := by
  have hsame (s : Fs) : (if s.uptodate bh || s.bad bh then s else s.load bh).bcount = s.bcount ∧
      (if s.uptodate bh || s.bad bh then s else s.load bh).leaked = s.leaked ∧
      (if s.uptodate bh || s.bad bh then s else s.load bh).twice = s.twice := by
    split_ifs
    · exact ⟨rfl, rfl, rfl⟩
    · exact ⟨rfl, rfl, rfl⟩
  exact Refs.update (fun s => (hsame s).1) (fun s => (hsame s).2.1) fun s => (hsame s).2.2

theorem brelse_refs (bh : Bh) : Refs (brelse bh) [bh] fun _ => [] := by
  constructor
  intro s₀ R s h
  have hbh := h.count bh
  simp only [List.cons_append, List.nil_append, List.count_cons_self] at hbh
  simp only [brelse, Prog.wp_bind, Prog.wp_read, Prog.wp_ite, Prog.wp_fail, Prog.wp_update]
  constructor
  · intro h0 _
    have hleaked := h.leaked bh
    exact ⟨bh, by omega⟩
  · intro h0
    refine ⟨fun b => ?_, h.leaked, h.twice⟩
    have hcount := h.count b
    rcases eq_or_ne b bh with rfl | hb
    · simp only [Fs.setCount, Function.update_self, List.nil_append]
      omega
    · simp only [Fs.setCount, Function.update_of_ne hb, List.cons_append, List.nil_append,
        List.count_cons_of_ne hb.symm] at hcount ⊢
      exact hcount

theorem bread_refs (dev block : ℕ) : Refs (bread dev block) [] fun bh => bh.toList := by
  apply (getblk_refs dev block).bind
  intro bh
  refine (readBlock_refs bh).next fun _ => (Owns.read _).next fun uptodate => ?_
  exact Owns.ite (fun _ => Owns.pure rfl) fun _ => (brelse_refs bh).bind fun _ => Owns.pure rfl

theorem brelseOpt_refs (bh : Option Bh) : Refs (brelseOpt bh) bh.toList fun _ => [] := by
  cases bh with
  | none => exact Owns.pure rfl
  | some bh => exact brelse_refs bh

theorem leak_refs (bh : Bh) : Refs (leak bh) [bh] fun _ => [] := by
  constructor
  intro s₀ R s h
  simp only [leak, Prog.wp_update]
  refine ⟨fun b => ?_, fun b => ?_, h.twice⟩
  · have hcount := h.count b
    simp only [List.cons_append, List.nil_append, List.count_cons] at hcount ⊢
    omega
  · exact Nat.le_trans (h.leaked b) List.count_le_count_cons

theorem releaseTwice_refs (bh : Bh) : Refs (releaseTwice bh) [] fun _ => [bh] := by
  constructor
  intro s₀ R s h
  simp only [releaseTwice, Prog.wp_update]
  refine ⟨fun b => ?_, h.leaked, fun b => ?_⟩
  · have hcount := h.count b
    simp only [List.cons_append, List.nil_append, List.count_cons] at hcount ⊢
    omega
  · exact Nat.le_trans (h.twice b) List.count_le_count_cons

theorem getSuper_refs (dev : ℕ) : Refs (getSuper dev) [] fun _ => [] := Owns.read _

/-! ### Zones -/

theorem setZmapBit_refs (dev k : ℕ) : Refs (setZmapBit dev k) [] fun _ => [] := by
  refine (Owns.read _).next fun bit => Owns.ite (fun _ => Refs.fail (by decide)) fun _ => ?_
  exact Refs.update (fun _ => rfl) (fun _ => rfl) fun _ => rfl

theorem clearBlock_refs (bh : Bh) : Refs (clearBlock bh) [] fun _ => [] :=
  (modifyData_refs ..).next fun _ => Refs.update (fun _ => rfl) (fun _ => rfl) fun _ => rfl

theorem clearZmapBit_refs (sb : SuperBlock) (dev k : ℕ) :
    Refs (clearZmapBit sb dev k) [] fun _ => [] := by
  refine Owns.ite (fun _ => Refs.fail (by decide)) fun _ => (Owns.read _).next fun bit => ?_
  refine Owns.ite (fun _ => ?_) fun _ => Refs.fail (by decide)
  exact Refs.update (fun _ => rfl) (fun _ => rfl) fun _ => rfl

theorem newBlock_refs (dev : ℕ) : Refs (newBlock dev) [] fun _ => [] := by
  refine (getSuper_refs dev).next fun sb => ?_
  cases sb with
  | none => exact Refs.fail (by decide)
  | some sb =>
    refine (Owns.read _).next fun k => ?_
    cases k with
    | none => exact Owns.pure rfl
    | some k =>
      refine (setZmapBit_refs dev k).next fun _ => Owns.ite (fun _ => Owns.pure rfl) fun _ => ?_
      refine (getblk_refs ..).bind fun bh => (Owns.read _).next fun count => ?_
      refine Owns.ite (fun _ => Refs.fail (by decide)) fun _ => ?_
      refine (clearBlock_refs bh).next fun _ => ?_
      exact (brelse_refs bh).bind fun _ => Owns.pure rfl

/-- A zone with a busy buffer is where `free_block` forgets a reference. -/
theorem freeBlock_refs (dev block : ℕ) : Refs (freeBlock dev block) [] fun _ => [] := by
  refine (getSuper_refs dev).next fun sb => ?_
  cases sb with
  | none => exact Refs.fail (by decide)
  | some sb =>
    refine Owns.ite (fun _ => Refs.fail (by decide)) fun _ => ?_
    refine (Owns.read _).next fun count => Owns.ite (fun _ => ?_) fun _ => ?_
    · exact (getblk_refs ..).bind fun bh => leak_refs bh
    · refine Owns.next (Refs.update (fun _ => rfl) (fun _ => rfl) fun _ => rfl) fun _ => ?_
      exact clearZmapBit_refs ..

theorem bmapZone_refs (inode n : ℕ) (create : Bool) :
    Refs (bmapZone inode n create) [] fun _ => [] := by
  refine (Owns.read _).next fun m => Owns.ite (fun _ => ?_) fun _ => Owns.pure rfl
  refine (newBlock_refs m.dev).next fun j => (Owns.read _).next fun time => ?_
  refine (modifyInode_refs ..).next fun _ => Owns.next ?_ fun _ => Owns.pure rfl
  exact Owns.when fun _ => modifyInode_refs ..

theorem bmapWord_refs (dev : ℕ) (bh : Bh) (k : ℕ) (create : Bool) :
    Refs (bmapWord dev bh k create) [] fun _ => [] := by
  refine (Owns.read _).next fun i => Owns.ite (fun _ => ?_) fun _ => Owns.pure rfl
  refine (newBlock_refs dev).next fun j => Owns.next ?_ fun _ => Owns.pure rfl
  exact Owns.when fun _ => modifyData_refs ..

theorem bmapEntry_refs (dev z k : ℕ) (create : Bool) :
    Refs (bmapEntry dev z k create) [] fun _ => [] := by
  refine (bread_refs dev z).bind fun bh => ?_
  cases bh with
  | none => exact Owns.pure rfl
  | some bh =>
    exact (bmapWord_refs ..).next fun i => (brelse_refs bh).bind fun _ => Owns.pure rfl

theorem bmapEntries_refs (dev : ℕ) (create : Bool) (ks : List ℕ) (z : ℕ) :
    Refs (bmapEntries dev create ks z) [] fun _ => [] := by
  induction ks generalizing z with
  | nil => exact Owns.pure rfl
  | cons k ks ih =>
    exact Owns.ite (fun _ => Owns.pure rfl) fun _ => (bmapEntry_refs ..).next fun i => ih i

theorem bmapBlock_refs (inode block : ℕ) (create : Bool) :
    Refs (bmapBlock inode block create) [] fun _ => [] := by
  refine Owns.ite (fun _ => Refs.fail (by decide)) fun _ => (Owns.read _).next fun dev => ?_
  exact (bmapZone_refs ..).next fun z => bmapEntries_refs ..

theorem forWords_refs {bh : Bh} {f : ℕ → K Unit} (hf : ∀ v, Refs (f v) [] fun _ => []) (n k : ℕ) :
    Refs (forWords bh f n k) [] fun _ => [] := by
  induction n generalizing k with
  | zero => exact Owns.pure rfl
  | succ n ih =>
    refine (Owns.read _).next fun v => Owns.next ?_ fun _ => ih (k + 1)
    exact Owns.when fun _ => hf v

theorem freeTree_refs {f : ℕ → K Unit} (hf : ∀ v, Refs (f v) [] fun _ => []) (dev block : ℕ) :
    Refs (freeTree f dev block) [] fun _ => [] := by
  refine Owns.ite (fun _ => Owns.pure rfl) fun _ => ?_
  refine Owns.next ((bread_refs dev block).bind fun bh => ?_) fun _ => freeBlock_refs dev block
  cases bh with
  | none => exact Owns.pure rfl
  | some bh => exact Owns.next (forWords_refs hf 512 0) fun _ => brelse_refs bh

theorem freeDirect_refs (inode n k : ℕ) : Refs (freeDirect inode n k) [] fun _ => [] := by
  induction n generalizing k with
  | zero => exact Owns.pure rfl
  | succ n ih =>
    refine (Owns.read _).next fun m => Owns.next ?_ fun _ => ih (k + 1)
    refine Owns.when fun _ => ?_
    exact (freeBlock_refs ..).next fun _ => modifyInode_refs ..

theorem truncate_refs (inode : ℕ) : Refs (truncate inode) [] fun _ => [] := by
  refine (Owns.read _).next fun mode => Owns.ite (fun _ => ?_) fun _ => Owns.pure rfl
  refine (freeDirect_refs inode 7 0).next fun _ => (Owns.read _).next fun m => ?_
  have hind := fun z => freeTree_refs (freeBlock_refs m.dev) m.dev z
  refine (hind (m.zone 7)).next fun _ => (freeTree_refs hind m.dev (m.zone 8)).next fun _ => ?_
  exact (Owns.read _).next fun time => modifyInode_refs ..

end LihaLinux.Files
