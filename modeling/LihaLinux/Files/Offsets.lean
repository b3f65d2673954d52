import LihaLinux.Files.ReadWrite
import LihaLinux.Files.TableFrames
import LihaLinux.Lib.Transition

/-!
# File offsets

`sys_lseek` takes any offset that is not negative, and `sys_write` compares the position with
nothing, so that the only limit is the panic in `_bmap`. `sys_read` stops at the end of the file.
-/

namespace LihaLinux.Files

open LihaLinux.Fs (maxBlock)

/-- Where the first block begins that `_bmap` does not take. -/
def maxBytes : ℕ := blockSize * maxBlock

/-! ### What the calls keep -/

/-- Positions, descriptors and the kinds of the inodes are the same. -/
structure SamePositions (s₀ s : Fs) : Prop where
  cur : s.cur = s₀.cur
  file : s.file = s₀.file
  inode : ∀ i, (s.inode i).mode = (s₀.inode i).mode ∧ (s.inode i).pipe = (s₀.inode i).pipe

/-- Descriptors and the kinds of the inodes are the same. -/
structure SameKinds (s₀ s : Fs) : Prop where
  cur : s.cur = s₀.cur
  file : ∀ f, (s.file f).inode = (s₀.file f).inode
  inode : ∀ i, (s.inode i).mode = (s₀.inode i).mode ∧ (s.inode i).pipe = (s₀.inode i).pipe

theorem SamePositions.trans {s₀ s s' : Fs} (h : SamePositions s₀ s) (h' : SamePositions s s') :
    SamePositions s₀ s' := by
  refine ⟨h'.cur.trans h.cur, h'.file.trans h.file, fun i => ?_⟩
  rw [(h'.inode i).1, (h'.inode i).2]
  exact h.inode i

theorem SameKinds.trans {s₀ s s' : Fs} (h : SameKinds s₀ s) (h' : SameKinds s s') :
    SameKinds s₀ s' := by
  refine ⟨h'.cur.trans h.cur, fun f => (h'.file f).trans (h.file f), fun i => ?_⟩
  rw [(h'.inode i).1, (h'.inode i).2]
  exact h.inode i

theorem SameKinds.refl (s : Fs) : SameKinds s s := ⟨rfl, fun _ => rfl, fun _ => ⟨rfl, rfl⟩⟩

theorem SamePositions.kinds {s₀ s : Fs} (h : SamePositions s₀ s) : SameKinds s₀ s :=
  ⟨h.cur, fun f => by rw [h.file], h.inode⟩

theorem samePositions_frame : TableFrame SamePositions where
  refl _ := ⟨rfl, rfl, fun _ => ⟨rfl, rfl⟩⟩
  trans _ _ _ h h' := h.trans h'
  same s s' h := by
    refine ⟨?_, h.file, fun i => ?_⟩
    · rw [Fs.cur, Fs.cur, h.task, h.current]
    · rw [h.inode]
      exact ⟨rfl, rfl⟩

/-- A panic other than that of `_bmap`. -/
abbrev NotBmap (e : Panic) : Prop := e ≠ .bmapBlock

/-- A program that keeps all positions and does not get to the panic of `_bmap`. -/
abbrev KeepsPositions {α : Type} (m : K α) : Prop := Stays SamePositions NotBmap m

/-- A change of an inode that keeps its kind. -/
theorem modifyInode_positions (i : ℕ) {f : MInode → MInode}
    (hf : ∀ m, (f m).mode = m.mode ∧ (f m).pipe = m.pipe) : KeepsPositions (modifyInode i f) := by
  apply Stays.update samePositions_frame
  intro s
  refine ⟨rfl, rfl, fun j => ?_⟩
  by_cases hj : j = i
  · subst hj
    simp only [Fs.setInode, Function.update_self]
    exact hf _
  · simp only [Fs.setInode, Function.update_of_ne hj, and_self]

/-- `_bmap` of a block in range. -/
theorem bmapBlock_positions {inode block : ℕ} (hblock : block < maxBlock) (create : Bool) :
    KeepsPositions (bmapBlock inode block create) := by
  have hzone : ∀ n, KeepsPositions (bmapZone inode n create) := by
    intro n
    apply (Owns.read _).next
    intro m
    apply Owns.ite
    · intro _
      apply (newBlock_stays samePositions_frame (fun _ => id) m.dev).next
      intro j
      apply (Owns.read _).next
      intro time
      apply Owns.next
      · exact modifyInode_positions inode fun _ => ⟨rfl, rfl⟩
      · intro _
        apply Owns.next
        · exact Owns.when fun _ => modifyInode_positions inode fun _ => ⟨rfl, rfl⟩
        · exact fun _ => Owns.pure rfl
    · exact fun _ => Owns.pure rfl
  rw [bmapBlock, if_neg (Nat.not_le_of_lt hblock)]
  apply (Owns.read _).next
  intro dev
  exact (hzone _).next fun z => bmapEntries_stays samePositions_frame (fun _ => id) dev create _ z

theorem bread_positions (dev block : ℕ) : KeepsPositions (bread dev block) :=
  bread_stays samePositions_frame (fun _ => id) dev block

theorem brelse_positions (bh : Bh) : KeepsPositions (brelse bh) :=
  brelse_stays samePositions_frame (fun _ => id) bh

/-- A block with a byte below the limit. -/
theorem block_lt {pos : ℕ} (hpos : pos < maxBytes) : pos / blockSize < maxBlock :=
  Nat.div_lt_of_lt_mul hpos

/-! ### Reading -/

/-- What is known after a program that keeps all positions. -/
theorem KeepsPositions.wp {α : Type} {m : K α} (hm : KeepsPositions m) (s : Fs) :
    m.wp (fun _ s' => SamePositions s s') (fun e _ => NotBmap e) s :=
  hm.run s [] s (samePositions_frame.refl s)

/-- `f_pos` is stored. -/
theorem setPos_kinds (f pos : ℕ) (s : Fs) :
    SameKinds s (s.setFile f { s.file f with pos }) := by
  refine ⟨rfl, fun g => ?_, fun _ => ⟨rfl, rfl⟩⟩
  by_cases hg : g = f
  · subst hg
    rw [Fs.setFile_self]
  · rw [Fs.setFile_ne s hg]

/-- One step of `file_read` below the limit moves on by what it reads. -/
theorem readChunk_wp {inode f left : ℕ} {s : Fs} (hleft : left ≠ 0)
    (hmax : (s.file f).pos + left ≤ maxBytes) :
    (readChunk inode f left).wp (fun r s' => SameKinds s s' ∧ ∀ bytes, r = some bytes →
      (s'.file f).pos = (s.file f).pos + bytes.length ∧ bytes.length ≤ left)
      (fun e _ => NotBmap e) s := by
  have hblock : (s.file f).pos / blockSize < maxBlock := block_lt (by omega)
  have hchars := Nat.min_le_right (blockSize - (s.file f).pos % blockSize) left
  rw [readChunk, Prog.wp_bind, Prog.wp_read]
  refine (KeepsPositions.wp (bmapBlock_positions hblock false) s).bind fun nr s₁ h₁ => ?_
  rw [Prog.wp_ite]
  refine ⟨fun _ => ?_, fun _ => ?_⟩
  · refine ⟨h₁.kinds.trans (setPos_kinds f _ s₁), ?_⟩
    intro bytes hbytes
    obtain rfl := Option.some.inj hbytes
    rw [List.length_replicate, Fs.setFile_self, h₁.file]
    exact ⟨rfl, hchars⟩
  · rw [Prog.wp_bind, Prog.wp_read]
    refine (KeepsPositions.wp (bread_positions _ nr) s₁).bind fun bh s₂ h₂ => ?_
    have hkinds := h₁.kinds.trans h₂.kinds
    cases bh with
    | none => exact ⟨hkinds, fun bytes hbytes => absurd hbytes (by simp)⟩
    | some bh =>
      change Prog.wp (do
        let d ← Prog.read fun s => s.data bh
        brelse bh
        pure (some (getBytes d _ _))) _ _ (s₂.setFile f { s₂.file f with pos := _ })
      rw [Prog.wp_bind, Prog.wp_read]
      refine (KeepsPositions.wp (brelse_positions bh) _).bind fun _ s₃ h₃ => ?_
      refine ⟨(hkinds.trans (setPos_kinds f _ s₂)).trans h₃.kinds, ?_⟩
      intro bytes hbytes
      obtain rfl := Option.some.inj hbytes
      rw [getBytes, List.length_map, List.length_range, h₃.file, Fs.setFile_self, h₂.file, h₁.file]
      exact ⟨rfl, hchars⟩

/-- `file_read` below the limit. -/
theorem readLoop_wp {inode f n left : ℕ} {s : Fs} (hmax : (s.file f).pos + left ≤ maxBytes) :
    (readLoop inode f n left).wp (fun _ s' => SameKinds s s') (fun e _ => NotBmap e) s := by
  induction n generalizing left s with
  | zero => exact .refl s
  | succ n ih =>
    rw [readLoop, Prog.wp_ite]
    refine ⟨fun _ => .refl s, fun hleft => ?_⟩
    refine (readChunk_wp hleft hmax).bind fun r s' h => ?_
    cases r with
    | none => exact h.1
    | some bytes =>
      obtain ⟨hpos, hle⟩ := h.2 bytes rfl
      have hmax' : (s'.file f).pos + (left - bytes.length) ≤ maxBytes := by omega
      refine (ih hmax').bind fun rest s'' h' => ?_
      exact h.1.trans h'

/-! ### Writing -/

/-- One step of `file_write` below the limit. -/
theorem writeChunk_wp {inode pos : ℕ} {buf : List ℕ} {s : Fs} (hbuf : buf ≠ [])
    (hmax : pos + buf.length ≤ maxBytes) :
    (writeChunk inode pos buf).wp
      (fun r s' => SamePositions s s' ∧ ∀ c, r = some c → c ≤ buf.length)
      (fun e _ => NotBmap e) s := by
  have hlength : 0 < buf.length := List.length_pos_iff.mpr hbuf
  have hblock : pos / blockSize < maxBlock := block_lt (by omega)
  rw [writeChunk]
  refine (KeepsPositions.wp (bmapBlock_positions hblock true) s).bind fun block s₁ h₁ => ?_
  rw [Prog.wp_ite]
  refine ⟨fun _ => ⟨h₁, fun c hc => absurd hc (by simp)⟩, fun _ => ?_⟩
  rw [Prog.wp_bind, Prog.wp_read]
  refine (KeepsPositions.wp (bread_positions _ block) s₁).bind fun bh s₂ h₂ => ?_
  cases bh with
  | none => exact ⟨h₁.trans h₂, fun c hc => absurd hc (by simp)⟩
  | some bh =>
    have hsize : ∀ size c, KeepsPositions (Prog.when (size < pos + c)
        (modifyInode inode fun m => { m with size := pos + c, dirt := true })) :=
      fun size c => Owns.when fun _ => modifyInode_positions inode fun _ => ⟨rfl, rfl⟩
    have hdata : ∀ f, KeepsPositions (modifyData bh f) := modifyData_stays samePositions_frame bh
    dsimp only
    rw [Prog.wp_bind, Prog.wp_read]
    refine (KeepsPositions.wp (hsize _ _) s₂).bind fun _ s₃ h₃ => ?_
    refine (KeepsPositions.wp (hdata _) s₃).bind fun _ s₄ h₄ => ?_
    refine (KeepsPositions.wp (brelse_positions bh) s₄).bind fun _ s₅ h₅ => ?_
    refine ⟨(((h₁.trans h₂).trans h₃).trans h₄).trans h₅, ?_⟩
    intro c hc
    obtain rfl := Option.some.inj hc
    exact Nat.min_le_right _ _

/-- `file_write` below the limit. -/
theorem writeLoop_wp {inode n pos : ℕ} {buf : List ℕ} {s : Fs}
    (hmax : pos + buf.length ≤ maxBytes) :
    (writeLoop inode n pos buf).wp (fun _ s' => SamePositions s s') (fun e _ => NotBmap e) s := by
  induction n generalizing pos buf s with
  | zero => exact samePositions_frame.refl s
  | succ n ih =>
    rw [writeLoop, Prog.wp_ite]
    refine ⟨fun _ => samePositions_frame.refl s, fun hbuf => ?_⟩
    refine (writeChunk_wp hbuf hmax).bind fun r s' h => ?_
    cases r with
    | none => exact h.1
    | some c =>
      have hle := h.2 c rfl
      have hmax' : pos + c + (buf.drop c).length ≤ maxBytes := by
        rw [List.length_drop]
        omega
      exact (ih hmax').mono (fun _ _ h' => h.1.trans h') fun _ _ he => he

/-! ### The calls -/

/-- The calls on a descriptor that use or change its offset. -/
inductive OffsetCall
  | lseek (offset : ℤ) (origin : ℕ)
  | read (count : ℕ)
  | write (buf : List ℕ)

/-- A call on descriptor `fd`. -/
def OffsetCall.run (c : CharDevices) (fd : ℕ) : OffsetCall → K Unit
  | .lseek offset origin => do
    let _ ← sysLseek fd offset origin
    pure ()
  | .read count => do
    let _ ← sysRead c fd count
    pure ()
  | .write buf => do
    let _ ← sysWrite c fd buf
    pure ()

/-- Where `file_write` starts. -/
def writeStart (e : File) (m : MInode) : ℕ := if hasFlag e.flags oAppend then m.size else e.pos

/-- The bytes that a call reads or writes are below the limit. -/
def OffsetCall.InRange (e : File) (m : MInode) : OffsetCall → Prop
  | .lseek _ _ => True
  | .read count => m.size ≤ e.pos ∨ min (e.pos + count) m.size ≤ maxBytes
  | .write buf => buf = [] ∨ writeStart e m + buf.length ≤ maxBytes

/-- The descriptor of a regular file. -/
structure RegularFd (fd f inode : ℕ) (s : Fs) : Prop where
  filp : s.cur.getFilp fd = some f
  target : (s.file f).inode = inode
  mode : isReg (s.inode inode).mode = true
  pipe : (s.inode inode).pipe = false

theorem RegularFd.congr {fd f inode : ℕ} {s s' : Fs} (h : RegularFd fd f inode s)
    (hsame : SameKinds s s') : RegularFd fd f inode s' := by
  constructor
  · rw [hsame.cur]
    exact h.filp
  · rw [hsame.file]
    exact h.target
  · rw [(hsame.inode inode).1]
    exact h.mode
  · rw [(hsame.inode inode).2]
    exact h.pipe

/-- A regular file is no device. -/
theorem isReg_kinds {mode : ℕ} (h : isReg mode = true) :
    isChr mode = false ∧ isBlk mode = false := by
  have htype : fileType mode = 8 := of_decide_eq_true h
  constructor
  · exact decide_eq_false (by omega)
  · exact decide_eq_false (by omega)

section Calls

variable {c : CharDevices} {fd f inode : ℕ} {s : Fs}

theorem sysLseek_wp (fd : ℕ) (offset : ℤ) (origin : ℕ) (s : Fs) :
    (sysLseek fd offset origin).wp (fun _ s' => SameKinds s s') (fun e _ => NotBmap e) s := by
  rw [sysLseek, Prog.wp_bind, Prog.wp_read]
  cases s.cur.getFilp fd with
  | none => exact .refl s
  | some f =>
    dsimp only
    rw [Prog.wp_bind, Prog.wp_read, Prog.wp_bind, Prog.wp_read, Prog.wp_ite, Prog.wp_ite]
    refine ⟨fun _ => .refl s, fun _ => ⟨fun _ => .refl s, fun _ => ?_⟩⟩
    split
    · exact .refl s
    · exact setPos_kinds f _ s

theorem sysRead_wp (h : RegularFd fd f inode s) {count : ℕ}
    (hrange : (OffsetCall.read count).InRange (s.file f) (s.inode inode)) :
    (sysRead c fd count).wp (fun _ s' => SameKinds s s') (fun e _ => NotBmap e) s := by
  obtain ⟨hchr, hblk⟩ := isReg_kinds h.mode
  rw [sysRead, Prog.wp_bind, Prog.wp_read, h.filp]
  dsimp only
  rw [Prog.wp_ite]
  refine ⟨fun _ => .refl s, fun hzero => ?_⟩
  rw [Prog.wp_bind, Prog.wp_read, Prog.wp_bind, Prog.wp_read, h.target, h.pipe,
    if_neg Bool.false_ne_true, readInodeAt, Prog.wp_bind, Prog.wp_read, hchr, hblk,
    if_neg Bool.false_ne_true, if_neg Bool.false_ne_true, h.mode, Bool.or_true, if_pos rfl,
    Prog.wp_bind, Prog.wp_read, Prog.wp_ite]
  refine ⟨fun _ => .refl s, fun hcount => ?_⟩
  rw [fileRead, if_neg hcount]
  have hmax : (s.file f).pos + (if (s.inode inode).size < count + (s.file f).pos then
      (s.inode inode).size - (s.file f).pos else count) ≤ maxBytes := by
    by_cases hend : (s.inode inode).size ≤ (s.file f).pos
    · rw [if_pos (by omega)] at hcount
      omega
    · have hle := hrange.resolve_left hend
      split
      · omega
      · omega
  refine (readLoop_wp hmax).bind fun bytes s₁ h₁ => ?_
  rw [Prog.wp_bind, Prog.wp_read]
  have hatime : KeepsPositions
      (modifyInode inode fun m => { m with atime := s₁.time }) :=
    modifyInode_positions inode fun _ => ⟨rfl, rfl⟩
  refine (KeepsPositions.wp hatime s₁).bind fun _ s₂ h₂ => ?_
  exact h₁.trans h₂.kinds

theorem sysWrite_wp (h : RegularFd fd f inode s) {buf : List ℕ}
    (hrange : (OffsetCall.write buf).InRange (s.file f) (s.inode inode)) :
    (sysWrite c fd buf).wp (fun _ s' => SameKinds s s') (fun e _ => NotBmap e) s := by
  obtain ⟨hchr, hblk⟩ := isReg_kinds h.mode
  rw [sysWrite, Prog.wp_bind, Prog.wp_read, h.filp]
  dsimp only
  rw [Prog.wp_ite]
  refine ⟨fun _ => .refl s, fun hbuf => ?_⟩
  rw [Prog.wp_bind, Prog.wp_read, Prog.wp_bind, Prog.wp_read, h.target, h.pipe,
    if_neg Bool.false_ne_true, writeInodeAt, Prog.wp_bind, Prog.wp_read, hchr, hblk,
    if_neg Bool.false_ne_true, if_neg Bool.false_ne_true, h.mode, if_pos rfl, fileWrite,
    Prog.wp_bind, Prog.wp_read, Prog.wp_bind, Prog.wp_read]
  have hmax := hrange.resolve_left hbuf
  refine (writeLoop_wp hmax).bind fun pos s₁ h₁ => ?_
  rw [Prog.wp_bind, Prog.wp_read]
  have hmtime : KeepsPositions (modifyInode inode fun m => { m with mtime := s₁.time }) :=
    modifyInode_positions inode fun _ => ⟨rfl, rfl⟩
  have hctime : KeepsPositions (modifyInode inode fun m => { m with ctime := s₁.time }) :=
    modifyInode_positions inode fun _ => ⟨rfl, rfl⟩
  refine (KeepsPositions.wp hmtime s₁).bind fun _ s₂ h₂ => ?_
  have hkinds := (h₁.trans h₂).kinds
  rw [Prog.wp_bind, Prog.wp_when]
  refine ⟨fun _ => ?_, fun _ => hkinds⟩
  rw [Prog.wp_bind, modifyFile, Prog.wp_update]
  refine (KeepsPositions.wp hctime (s₂.setFile f { s₂.file f with pos })).mono
    (fun _ s₃ h₃ => ?_) fun _ _ he => he
  exact (hkinds.trans (setPos_kinds f pos s₂)).trans h₃.kinds

/-- A call in range does not get to the panic of `_bmap`, and leaves the descriptor that of the
same regular file. -/
theorem OffsetCall.run_wp (h : RegularFd fd f inode s) {call : OffsetCall}
    (hrange : call.InRange (s.file f) (s.inode inode)) :
    (call.run c fd).wp (fun _ s' => RegularFd fd f inode s') (fun e _ => NotBmap e) s := by
  cases call with
  | lseek offset origin =>
    exact (sysLseek_wp fd offset origin s).bind fun _ _ h' => h.congr h'
  | read count => exact (sysRead_wp h hrange).bind fun _ _ h' => h.congr h'
  | write buf => exact (sysWrite_wp h hrange).bind fun _ _ h' => h.congr h'

/-- The end of a call that is in range. -/
def OffsetStep (c : CharDevices) (fd f inode : ℕ) (s s' : Fs) : Prop :=
  ∃ call : OffsetCall, call.InRange (s.file f) (s.inode inode) ∧ call.run c fd s = .ok ((), s')

/-- In every run of calls on a descriptor of a regular file that are all in range, no call gets to
the panic of `_bmap`. -/
theorem run_not_bmap {s₀ : Fs} (h : RegularFd fd f inode s₀)
    (hrun : Reachable (· = s₀) (OffsetStep c fd f inode) s) :
    RegularFd fd f inode s ∧ ∀ call : OffsetCall, call.InRange (s.file f) (s.inode inode) →
      ∀ s', call.run c fd s ≠ .error (.bmapBlock, s') := by
  have hreg : RegularFd fd f inode s := by
    apply hrun.invariant
    · rintro _ rfl
      exact h
    · rintro s s' hs ⟨call, hrange, hcall⟩
      exact (OffsetCall.run_wp hs hrange).of_ok hcall
  refine ⟨hreg, fun call hrange s' hcall => ?_⟩
  exact (OffsetCall.run_wp hreg hrange).of_error hcall rfl

/-! ### Beyond the limit -/

/-- A write that starts at the limit or behind it gets to the panic. -/
theorem sysWrite_bmap (h : RegularFd fd f inode s) {buf : List ℕ} (hbuf : buf ≠ [])
    (hstart : maxBytes ≤ writeStart (s.file f) (s.inode inode)) :
    sysWrite c fd buf s = .error (.bmapBlock, s) := by
  obtain ⟨hchr, hblk⟩ := isReg_kinds h.mode
  have hblock : maxBlock ≤ writeStart (s.file f) (s.inode inode) / blockSize := by
    rw [maxBytes, Nat.mul_comm] at hstart
    exact (Nat.le_div_iff_mul_le (by decide)).mpr hstart
  have hloop : writeLoop inode buf.length (writeStart (s.file f) (s.inode inode)) buf s =
      .error (.bmapBlock, s) := by
    have hlength : buf.length ≠ 0 := fun hzero => hbuf (List.length_eq_zero_iff.mp hzero)
    obtain ⟨n, hn⟩ := Nat.exists_eq_succ_of_ne_zero hlength
    rw [hn, writeLoop, if_neg hbuf]
    apply Prog.bind_run_error
    rw [writeChunk]
    apply Prog.bind_run_error
    rw [createBlock, bmapBlock, if_pos hblock]
    rfl
  have hwrite : fileWrite inode f buf s = .error (.bmapBlock, s) := by
    rw [fileWrite, Prog.read_run, Prog.read_run]
    exact Prog.bind_run_error hloop
  rw [sysWrite, Prog.read_run, h.filp]
  dsimp only
  rw [if_neg hbuf, Prog.read_run, Prog.read_run, h.target, h.pipe, if_neg Bool.false_ne_true,
    writeInodeAt, Prog.read_run, hchr, hblk, if_neg Bool.false_ne_true, if_neg Bool.false_ne_true,
    h.mode, if_pos rfl]
  exact hwrite

/-- An empty regular file on a hard disk, and descriptor 0 of the running task for it. -/
def emptyFile : Fs :=
  { Fs.empty with
    inode := fun i => if i = 0 then
        { MInode.zero with mode := 0o100644, nlinks := 1, dev := 769, num := 2, count := 1 }
      else .zero
    file := fun f =>
      if f = 0 then { mode := 0o100644, flags := 2, count := 1, inode := 0, pos := 0 }
      else { mode := 0, flags := 0, count := 0, inode := 0, pos := 0 }
    task := fun t => if t = 0 then
        { Task.zero with used := true, filp := fun fd => if fd = 0 then some 0 else none }
      else .zero }

/-- Terminals and ports that give nothing. -/
def noDevices : CharDevices where
  ttyRead := .ok []
  ttyWrite := .ok 0
  inb _ := 0

/-- `sys_lseek` accepts the offset at which the next write gets to the panic. -/
theorem lseek_write_bmap :
    RegularFd 0 0 0 emptyFile ∧ ∃ s, Reachable (· = emptyFile)
      (fun s s' => ∃ call : OffsetCall, call.run noDevices 0 s = .ok ((), s')) s ∧
      ∃ call : OffsetCall, call.run noDevices 0 s = .error (.bmapBlock, s) := by
  have hreg : RegularFd 0 0 0 emptyFile := ⟨by decide, by decide, by decide, by decide⟩
  have hseek : (OffsetCall.lseek 268966912 0).run noDevices 0 emptyFile = .ok ((),
      emptyFile.setFile 0 { emptyFile.file 0 with pos := 268966912 }) := rfl
  have hreg' := hreg.congr (setPos_kinds 0 268966912 emptyFile)
  have hstart : Reachable (· = emptyFile)
      (fun s s' => ∃ call : OffsetCall, call.run noDevices 0 s = .ok ((), s')) emptyFile :=
    .of_init rfl
  refine ⟨hreg, _, hstart.tail ⟨_, hseek⟩, .write [0], ?_⟩
  exact Prog.bind_run_error (sysWrite_bmap hreg' (by decide) (by decide))

/-- Calls within the limit. -/
theorem run_not_bmap_small :
    ¬∃ s', (OffsetCall.write [1, 2, 3]).run noDevices 0 emptyFile = .error (.bmapBlock, s') := by
  have hreg : RegularFd 0 0 0 emptyFile := ⟨by decide, by decide, by decide, by decide⟩
  rintro ⟨s', hrun⟩
  exact (run_not_bmap (c := noDevices) hreg (.of_init rfl)).2 (.write [1, 2, 3])
    (Or.inr (by decide)) s' hrun

end Calls

end LihaLinux.Files
