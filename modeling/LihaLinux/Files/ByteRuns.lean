import LihaLinux.Files.ByteCalls
import Mathlib.Data.Finset.Insert

/-!
# Regular files as byte arrays

The regular files of a device, as the tasks that have them open see them: a sequence of bytes for
each file, and an offset for each entry of the file table. Every sequence of calls by any tasks
through any descriptors gives the answers that the byte arrays give, and no call on one file is
seen in another one.
-/

namespace LihaLinux.Files

open Extents (fetch store)

/-! ### Byte arrays -/

/-- Files and offsets as the tasks see them. -/
@[ext]
structure Desk where
  /-- The bytes of a file, by its inode. -/
  bytes : ℕ → List ℕ
  /-- `f_pos`, by entry of the file table. -/
  pos : ℕ → ℕ

/-- What is open where, which no call here changes. -/
structure Opens where
  /-- The entry of the file table, by task and descriptor. -/
  filp : ℕ → ℕ → Option ℕ
  /-- The inode of an entry. -/
  inode : ℕ → ℕ
  /-- `O_APPEND` of an entry. -/
  append : ℕ → Bool

/-- The calls on regular files. -/
inductive ByteCall
  | lseek (fd : ℕ) (offset : ℤ) (origin : ℕ)
  | read (fd count : ℕ)
  | write (fd : ℕ) (buf : List ℕ)
  /-- What an open with `O_TRUNC` does to the file. -/
  | trunc (inode : ℕ)

/-- What a call returns. -/
inductive Answer
  | number (r : Except Errno ℕ)
  | bytes (r : Except Errno (List ℕ))
  | done
  deriving DecidableEq

namespace ByteCall

/-- Run a call. -/
def run (c : CharDevices) : ByteCall → K Answer
  | .lseek fd offset origin => do
    let r ← sysLseek fd offset origin
    pure (.number r)
  | .read fd count => do
    let r ← sysRead c fd count
    pure (.bytes r)
  | .write fd buf => do
    let r ← sysWrite c fd buf
    pure (.number r)
  | .trunc inode => do
    truncate inode
    pure .done

/-- The number of bytes to be stored. -/
def length : ByteCall → ℕ
  | .write _ buf => buf.length
  | _ => 0

/-- Where a write to entry `f` starts. -/
def start (o : Opens) (a : Desk) (f : ℕ) : ℕ :=
  if o.append f then (a.bytes (o.inode f)).length else a.pos f

/-- The answer to a seek, and the offset that it leaves. -/
def moveTo (a : Desk) (f : ℕ) : Except Errno ℕ → Answer × Desk
  | .error e => (.number (.error e), a)
  | .ok pos => (.number (.ok pos), { a with pos := Function.update a.pos f pos })

/-- The answer of the byte arrays to a call of task `t`, when there is room for `k` bytes. -/
def serve (o : Opens) (t : ℕ) (a : Desk) (k : ℕ) : ByteCall → Answer × Desk
  | .lseek fd offset origin =>
    match o.filp t fd with
    | none => (.number (.error .EBADF), a)
    | some f =>
      moveTo a f ([seekPos 0 offset, seekPos (a.pos f) offset,
        seekPos (a.bytes (o.inode f)).length offset].getD origin (.error .EINVAL))
  | .read fd count =>
    match o.filp t fd with
    | none => (.bytes (.error .EINVAL), a)
    | some f =>
      let bytes := fetch (a.bytes (o.inode f)) (a.pos f) count
      (.bytes (.ok bytes), { a with pos := Function.update a.pos f (a.pos f + bytes.length) })
  | .write fd buf =>
    match o.filp t fd with
    | none => (.number (.error .EINVAL), a)
    | some f =>
      (.number (if buf = [] then .ok 0 else if k = 0 then .error .EPERM else .ok k),
        { bytes := Function.update a.bytes (o.inode f)
            (store 0 (a.bytes (o.inode f)) (start o a f) (buf.take k))
          pos := if o.append f then a.pos else Function.update a.pos f (start o a f + k) })
  | .trunc inode => (.done, { a with bytes := Function.update a.bytes inode [] })

/-- The files that a call of task `t` is about are in a set. -/
def On (J : Finset ℕ) (o : Opens) (t : ℕ) : ByteCall → Prop
  | .lseek fd _ _ | .read fd _ | .write fd _ => ∀ f, o.filp t fd = some f → o.inode f ∈ J
  | .trunc inode => inode ∈ J

/-- A write that reaches behind the largest file. -/
def TooFar (o : Opens) (t : ℕ) (a : Desk) : ByteCall → Prop
  | .write fd buf => ∃ f, o.filp t fd = some f ∧ maxBytes < start o a f + buf.length
  | _ => False

end ByteCall

/-- The calls of a list, each by its task. -/
def runCalls (c : CharDevices) : List (ℕ × ByteCall) → K (List Answer)
  | [] => pure []
  | (t, call) :: calls => do
    Prog.update fun s => { s with current := t }
    let r ← call.run c
    let rs ← runCalls c calls
    pure (r :: rs)

/-! ### The files of a device -/

variable {J : Finset ℕ} {dev i t : ℕ} {sb : SuperBlock} {s s' : Fs} {c : CharDevices}

/-- What is open in a state. -/
def Fs.opens (s : Fs) : Opens where
  filp t := (s.task t).getFilp
  inode f := (s.file f).inode
  append f := hasFlag (s.file f).flags oAppend

/-- The files of a set as the tasks see them. -/
def Fs.desk (s : Fs) (J : Finset ℕ) : Desk where
  bytes i := if i ∈ J then s.contents i else []
  pos f := (s.file f).pos

/-- Regular files on one device that share no zone. -/
structure FilesOk (J : Finset ℕ) (dev : ℕ) (sb : SuperBlock) (s : Fs) : Prop where
  file : ∀ i ∈ J, ByteFile i sb s
  dev : ∀ i ∈ J, (s.inode i).dev = dev
  disjoint : ∀ i ∈ J, ∀ j ∈ J, i ≠ j → ∀ z, s.Refers i z → ¬s.Refers j z

theorem desk_bytes (s : Fs) (hi : i ∈ J) : (s.desk J).bytes i = s.contents i := if_pos hi

/-- After a call on one file the files are in order, and no other file has changed. -/
theorem FilesOk.touch (h : FilesOk J dev sb s) (hi : i ∈ J) (htouch : Touches i sb s s')
    (hfile : ByteFile i sb s') :
    FilesOk J dev sb s' ∧ s'.opens = s.opens ∧
      (s'.desk J).bytes = Function.update (s.desk J).bytes i (s'.contents i) := by
  have hother : ∀ j ∈ J, j ≠ i → ByteFile j sb s' ∧ s'.contents j = s.contents j ∧
      ∀ z, s'.Refers j z → s.Refers j z := fun j hj hne =>
    htouch.other_file (h.file i hi).toFileZones (h.file j hj) hne
      ((h.dev j hj).trans (h.dev i hi).symm) (h.disjoint j hj i hi hne)
  -- a zone that the file has got was free, so that it belongs to no other file
  have hown : ∀ j ∈ J, j ≠ i → ∀ z, s'.Refers i z → ¬s'.Refers j z := by
    intro j hj hne z hz hz'
    have hold := (hother j hj hne).2.2 z hz'
    rcases htouch.refers z hz with hzi | hfree
    · exact h.disjoint j hj i hi hne z hold hzi
    · have hmarked := ((h.file j hj).marked z hold).2
      rw [h.dev j hj, ← h.dev i hi, hfree] at hmarked
      cases hmarked
  refine ⟨⟨fun j hj => ?_, fun j hj => ?_, fun j hj k hk hjk z hzj hzk => ?_⟩, ?_, ?_⟩
  · by_cases hji : j = i
    · rw [hji]
      exact hfile
    · exact (hother j hj hji).1
  · by_cases hji : j = i
    · rw [hji, htouch.dev]
      exact h.dev i hi
    · rw [(htouch.other j hji).dev]
      exact h.dev j hj
  · by_cases hji : j = i
    · rw [hji] at hzj hjk
      exact hown k hk hjk.symm z hzj hzk
    · by_cases hki : k = i
      · rw [hki] at hzk
        exact hown j hj hji z hzk hzj
      · exact h.disjoint j hj k hk hjk z ((hother j hj hji).2.2 z hzj)
          ((hother k hk hki).2.2 z hzk)
  · unfold Fs.opens
    rw [htouch.task]
    congr 1
    · funext f
      exact (htouch.file f).1
    · funext f
      rw [(htouch.file f).2]
  · funext j
    by_cases hji : j = i
    · rw [hji, Function.update_self]
      exact desk_bytes s' hi
    · rw [Function.update_of_ne hji]
      change (if j ∈ J then s'.contents j else []) = if j ∈ J then s.contents j else []
      split_ifs with hj
      · exact (hother j hj hji).2.1
      · rfl

/-- What a call has done that answers as the byte arrays do. -/
structure Answers (J : Finset ℕ) (dev : ℕ) (sb : SuperBlock) (t : ℕ) (call : ByteCall) (s : Fs)
    (r : Answer) (s' : Fs) : Prop where
  ok : FilesOk J dev sb s'
  opens : s'.opens = s.opens
  served : ∃ k ≤ call.length, (k < call.length → Full dev sb s') ∧
    call.serve s.opens t (s.desk J) k = (r, s'.desk J)

/-- A call that changes nothing. -/
theorem Answers.of_same (h : FilesOk J dev sb s) {call : ByteCall} {r : Answer}
    (hserve : call.serve s.opens t (s.desk J) call.length = (r, s.desk J)) :
    Answers J dev sb t call s r s :=
  ⟨h, rfl, call.length, Nat.le_refl _, fun hlt => absurd hlt (Nat.lt_irrefl _), hserve⟩

/-- A call that moves the offset of an entry. -/
theorem Answers.of_pos (h : FilesOk J dev sb s) (hi : i ∈ J) {call : ByteCall} {r : Answer}
    {f pos : ℕ} (hsame : SameBytes s s') (hpos : (s'.file f).pos = pos)
    (hother : ∀ g, g ≠ f → (s'.file g).pos = (s.file g).pos)
    (hserve : ∀ k, call.serve s.opens t (s.desk J) k =
      (r, { s.desk J with pos := Function.update (s.desk J).pos f pos })) :
    Answers J dev sb t call s r s' := by
  obtain ⟨hfile, hcontents⟩ := hsame.byteFile (h.file i hi)
  obtain ⟨hok, hopens, hbytes⟩ := h.touch hi (hsame.touches i sb) hfile
  refine ⟨hok, hopens, call.length, Nat.le_refl _, fun hlt => absurd hlt (Nat.lt_irrefl _), ?_⟩
  have hkeep : (s'.desk J).bytes = (s.desk J).bytes := by
    rw [hbytes, hcontents, ← desk_bytes s hi, Function.update_eq_self]
  have hposs : (s'.desk J).pos = Function.update (s.desk J).pos f pos := by
    funext g
    by_cases hg : g = f
    · rw [hg, Function.update_self]
      exact hpos
    · rw [Function.update_of_ne hg]
      exact hother g hg
  have hdesk : s'.desk J = { s.desk J with pos := Function.update (s.desk J).pos f pos } :=
    Desk.ext hkeep hposs
  rw [hserve, hdesk]

/-! ### The calls -/

/-- The entry of the file table behind a descriptor, and its file. -/
theorem FilesOk.lseek_answers (h : FilesOk J dev sb s) {fd : ℕ} (offset : ℤ) (origin : ℕ)
    (hon : (ByteCall.lseek fd offset origin).On J s.opens s.current) :
    ((ByteCall.lseek fd offset origin).run c).wp
      (Answers J dev sb s.current (.lseek fd offset origin) s) (fun _ _ => False) s := by
  rw [ByteCall.run, Prog.wp_bind, sysLseek, Prog.wp_bind, Prog.wp_read]
  cases hfd : s.cur.getFilp fd with
  | none =>
    refine .of_same h ?_
    have hnone : s.opens.filp s.current fd = none := hfd
    rw [ByteCall.serve, hnone]
  | some f =>
    have hsome : s.opens.filp s.current fd = some f := hfd
    have hi : (s.file f).inode ∈ J := hon f hsome
    have hfile := h.file _ hi
    dsimp only
    rw [Prog.wp_bind, Prog.wp_read, Prog.wp_bind, Prog.wp_read, hfile.seekable, hfile.pipe,
      if_neg (by decide), if_neg (by decide)]
    have hserve : ∀ k, (ByteCall.lseek fd offset origin).serve s.opens s.current (s.desk J) k =
        ByteCall.moveTo (s.desk J) f ([seekPos 0 offset, seekPos (s.file f).pos offset,
          seekPos (s.inode (s.file f).inode).size offset].getD origin (.error .EINVAL)) := by
      intro k
      have hlen : ((s.desk J).bytes (s.opens.inode f)).length =
          (s.inode (s.file f).inode).size := by
        rw [← contents_length s, ← desk_bytes s hi]
        rfl
      rw [ByteCall.serve, hsome]
      dsimp only
      rw [hlen]
      rfl
    cases hseek : [seekPos 0 offset, seekPos (s.file f).pos offset,
        seekPos (s.inode (s.file f).inode).size offset].getD origin (.error .EINVAL) with
    | error e =>
      refine .of_same h ?_
      rw [hserve, hseek]
      rfl
    | ok pos =>
      refine .of_pos h hi (setPos_sameBytes s f pos) (by rw [Fs.setFile_self])
        (fun g hg => by rw [Fs.setFile_ne s hg]) fun k => ?_
      rw [hserve, hseek]
      rfl

theorem FilesOk.read_answers (h : FilesOk J dev sb s) {fd count : ℕ}
    (hon : (ByteCall.read fd count).On J s.opens s.current) :
    ((ByteCall.read fd count).run c).wp (Answers J dev sb s.current (.read fd count) s)
      (fun _ _ => False) s := by
  rw [ByteCall.run, Prog.wp_bind, sysRead, Prog.wp_bind, Prog.wp_read]
  cases hfd : s.cur.getFilp fd with
  | none =>
    refine .of_same h ?_
    have hnone : s.opens.filp s.current fd = none := hfd
    rw [ByteCall.serve, hnone]
  | some f =>
    have hsome : s.opens.filp s.current fd = some f := hfd
    have hi : (s.file f).inode ∈ J := hon f hsome
    have hfile := h.file _ hi
    have hlen : (s.contents (s.file f).inode).length = (s.inode (s.file f).inode).size :=
      contents_length ..
    -- what is fetched is cut off at the end of the file
    have hserve : ∀ {n} k, fetch (s.contents (s.file f).inode) (s.file f).pos count =
        fetch (s.contents (s.file f).inode) (s.file f).pos n →
        (s.file f).pos + n ≤ (s.inode (s.file f).inode).size ∨ n = 0 →
        (ByteCall.read fd count).serve s.opens s.current (s.desk J) k =
          (.bytes (.ok (fetch (s.contents (s.file f).inode) (s.file f).pos n)),
            { s.desk J with pos := Function.update (s.desk J).pos f ((s.file f).pos + n) }) := by
      intro n k hfetch hn
      have hbytes : (s.desk J).bytes (s.opens.inode f) = s.contents (s.file f).inode :=
        desk_bytes s hi
      have hpos : (s.desk J).pos f = (s.file f).pos := rfl
      have hcount : (fetch (s.contents (s.file f).inode) (s.file f).pos n).length = n := by
        rw [fetch, List.length_take, List.length_drop, hlen]
        omega
      rw [ByteCall.serve, hsome]
      dsimp only
      rw [hbytes, hpos, hfetch, hcount]
    have hnothing : fetch (s.contents (s.file f).inode) (s.file f).pos count = [] →
        Answers J dev sb s.current (.read fd count) s (.bytes (.ok [])) s := by
      intro hnil
      refine .of_same h ?_
      have hzero := hserve (n := 0) 0 (by rw [hnil, fetch, List.take_zero]) (Or.inr rfl)
      rw [Nat.add_zero, fetch, List.take_zero] at hzero
      refine hzero.trans ?_
      congr 1
      exact Desk.ext rfl (Function.update_eq_self ..)
    dsimp only
    rw [Prog.wp_ite]
    refine ⟨fun hcount => hnothing ?_, fun hcount => ?_⟩
    · rw [hcount, fetch, List.take_zero]
    · obtain ⟨hchr, hblk⟩ := isReg_kinds hfile.mode
      rw [Prog.wp_bind, Prog.wp_read, Prog.wp_bind, Prog.wp_read, hfile.pipe,
        if_neg Bool.false_ne_true, readInodeAt, Prog.wp_bind, Prog.wp_read, hchr, hblk,
        if_neg Bool.false_ne_true, if_neg Bool.false_ne_true, hfile.mode, Bool.or_true, if_pos rfl,
        Prog.wp_bind, Prog.wp_read]
      generalize hn : (if (s.inode (s.file f).inode).size < count + (s.file f).pos then
        (s.inode (s.file f).inode).size - (s.file f).pos else count) = n
      have hfetch : fetch (s.contents (s.file f).inode) (s.file f).pos count =
          fetch (s.contents (s.file f).inode) (s.file f).pos n := by
        rw [← hn]
        split_ifs with hcut
        · have hrest : ((s.contents (s.file f).inode).drop (s.file f).pos).length =
              (s.inode (s.file f).inode).size - (s.file f).pos := by
            rw [List.length_drop, hlen]
          rw [fetch, fetch, List.take_of_length_le (by omega),
            List.take_of_length_le (by omega)]
        · rfl
      rw [Prog.wp_ite]
      refine ⟨fun hzero => hnothing ?_, fun hne => ?_⟩
      · rw [hfetch, hzero, fetch, List.take_zero]
      · have hin : (s.file f).pos + n ≤ (s.inode (s.file f).inode).size := by
          split_ifs at hn <;> omega
        obtain ⟨s', hrun, hadv⟩ := fileRead_run hfile hne hin
        unfold Prog.wp
        rw [hrun]
        exact .of_pos h hi hadv.bytes hadv.pos hadv.other fun k => hserve k hfetch (Or.inl hin)

theorem FilesOk.trunc_answers (h : FilesOk J dev sb s) (hi : i ∈ J) :
    ((ByteCall.trunc i).run c).wp (Answers J dev sb t (.trunc i) s) (fun _ _ => False) s := by
  obtain ⟨s', hrun, hfile, hempty, htouch, hsame⟩ := truncate_empties (h.file i hi)
  obtain ⟨hok, hopens, hbytes⟩ := h.touch hi htouch hfile
  apply Prog.wp_bind_of_run hrun
  refine ⟨hok, hopens, 0, Nat.le_refl _, fun hlt => absurd hlt (Nat.lt_irrefl _), ?_⟩
  have hdesk : s'.desk J = { s.desk J with bytes := Function.update (s.desk J).bytes i [] } := by
    refine Desk.ext ?_ ?_
    · rw [hbytes, hempty]
    · funext f
      change (s'.file f).pos = (s.file f).pos
      rw [hsame]
  rw [hdesk]
  rfl

theorem FilesOk.write_answers (h : FilesOk J dev sb s) {fd : ℕ} {buf : List ℕ}
    (hon : (ByteCall.write fd buf).On J s.opens s.current) :
    ((ByteCall.write fd buf).run c).wp (Answers J dev sb s.current (.write fd buf) s)
      (fun e _ => e = .bmapBlock ∧
        (ByteCall.write fd buf).TooFar s.opens s.current (s.desk J)) s := by
  rw [ByteCall.run, Prog.wp_bind, sysWrite, Prog.wp_bind, Prog.wp_read]
  cases hfd : s.cur.getFilp fd with
  | none =>
    refine .of_same h ?_
    have hnone : s.opens.filp s.current fd = none := hfd
    rw [ByteCall.serve, hnone]
  | some f =>
    have hsome : s.opens.filp s.current fd = some f := hfd
    have hi : (s.file f).inode ∈ J := hon f hsome
    have hfile := h.file _ hi
    have hbytes : (s.desk J).bytes (s.opens.inode f) = s.contents (s.file f).inode :=
      desk_bytes s hi
    have hstart : ByteCall.start s.opens (s.desk J) f =
        writeStart (s.file f) (s.inode (s.file f).inode) := by
      rw [ByteCall.start, hbytes, contents_length]
      rfl
    have hserve : ∀ k, (ByteCall.write fd buf).serve s.opens s.current (s.desk J) k =
        (.number (if buf = [] then .ok 0 else if k = 0 then .error .EPERM else .ok k),
          { bytes := Function.update (s.desk J).bytes (s.file f).inode
              (store 0 (s.contents (s.file f).inode)
                (writeStart (s.file f) (s.inode (s.file f).inode)) (buf.take k))
            pos := if hasFlag (s.file f).flags oAppend then (s.desk J).pos
              else Function.update (s.desk J).pos f
                (writeStart (s.file f) (s.inode (s.file f).inode) + k) }) := by
      intro k
      rw [ByteCall.serve, hsome]
      dsimp only
      rw [hstart, hbytes]
      rfl
    dsimp only
    rw [Prog.wp_ite]
    constructor
    · rintro rfl
      refine .of_same h ?_
      rw [hserve, if_pos rfl, ByteCall.length, List.length_nil, List.take_nil, Extents.store_nil,
        Nat.add_zero]
      congr 1
      refine Desk.ext ?_ ?_
      · rw [← hbytes]
        exact Function.update_eq_self ..
      · change (if hasFlag (s.file f).flags oAppend then (s.desk J).pos
          else Function.update (s.desk J).pos f (if hasFlag (s.file f).flags oAppend = true then
            (s.inode (s.file f).inode).size else (s.file f).pos)) = (s.desk J).pos
        split_ifs
        · rfl
        · exact Function.update_eq_self ..
    · intro hbuf
      obtain ⟨hchr, hblk⟩ := isReg_kinds hfile.mode
      rw [Prog.wp_bind, Prog.wp_read, Prog.wp_bind, Prog.wp_read, hfile.pipe,
        if_neg Bool.false_ne_true, writeInodeAt, Prog.wp_bind, Prog.wp_read, hchr, hblk,
        if_neg Bool.false_ne_true, if_neg Bool.false_ne_true, hfile.mode, if_pos rfl]
      refine (fileWrite_stores hfile f buf).mono ?_ ?_
      · rintro r s' ⟨k, s₁, hk, hfull, rfl, hwrote, rfl⟩
        have hsame := wroteTo_sameBytes s₁ (s.file f).inode f
          (writeStart (s.file f) (s.inode (s.file f).inode) + k)
          (hasFlag (s.file f).flags oAppend)
        obtain ⟨hfile', hcontents⟩ := hsame.byteFile hwrote.file
        obtain ⟨hok, hopens, hdesk⟩ := h.touch hi (hwrote.grows.touches hsame) hfile'
        refine ⟨hok, hopens, k, hk, fun hlt => ?_, ?_⟩
        · have hend := hfull hlt
          rwa [hok.dev _ hi] at hend
        · rw [hserve, if_neg hbuf]
          congr 1
          refine Desk.ext ?_ ?_
          · rw [hdesk, hcontents, hwrote.contents]
          · funext g
            change (if hasFlag (s.file f).flags oAppend then (s.desk J).pos
              else Function.update (s.desk J).pos f _) g = ((s₁.wroteTo _ _ _ _).file g).pos
            rw [wroteTo_pos, hwrote.grows.file]
            cases hasFlag (s.file f).flags oAppend with
            | true =>
              change (s.file g).pos = if g = f ∧ true = false then _ else (s.file g).pos
              rw [if_neg (by simp)]
            | false =>
              change Function.update (s.desk J).pos f _ g =
                if g = f ∧ false = false then _ else (s.file g).pos
              by_cases hg : g = f
              · rw [hg, if_pos ⟨rfl, rfl⟩]
                exact Function.update_self ..
              · rw [if_neg fun h => hg h.1]
                exact Function.update_of_ne hg ..
      · rintro e s' ⟨rfl, hfar⟩
        refine ⟨rfl, f, hsome, ?_⟩
        rwa [hstart]

/-! ### Runs -/

/-- A call by the task that runs. -/
theorem FilesOk.run_answers (h : FilesOk J dev sb s) {call : ByteCall}
    (hon : call.On J s.opens s.current) :
    (call.run c).wp (Answers J dev sb s.current call s)
      (fun e _ => e = .bmapBlock ∧ call.TooFar s.opens s.current (s.desk J)) s := by
  cases call with
  | lseek fd offset origin =>
    exact (h.lseek_answers offset origin hon).mono (fun _ _ hr => hr) fun _ _ he => he.elim
  | read fd count => exact (h.read_answers hon).mono (fun _ _ hr => hr) fun _ _ he => he.elim
  | write fd buf => exact h.write_answers hon
  | trunc i => exact (h.trunc_answers hon).mono (fun _ _ hr => hr) fun _ _ he => he.elim

/-- Calls that have been answered as the byte arrays answer them, one after another. -/
inductive Served (J : Finset ℕ) (dev : ℕ) (sb : SuperBlock) :
    Fs → List (ℕ × ByteCall) → List Answer → Fs → Prop
  | nil {s : Fs} (hok : FilesOk J dev sb s) : Served J dev sb s [] [] s
  | cons {s s₁ s₂ : Fs} {t : ℕ} {call : ByteCall} {calls : List (ℕ × ByteCall)} {r : Answer}
    {rs : List Answer} (hfirst : Answers J dev sb t call s r s₁)
    (hrest : Served J dev sb s₁ calls rs s₂) : Served J dev sb s ((t, call) :: calls) (r :: rs) s₂

/-- The induction over the calls. -/
theorem runCalls_wp (h : FilesOk J dev sb s) (calls : List (ℕ × ByteCall))
    (hon : ∀ p ∈ calls, p.2.On J s.opens p.1) :
    (runCalls c calls).wp (Served J dev sb s calls)
      (fun e _ => e = .bmapBlock ∧ ∃ before t call after rs s₁,
        calls = before ++ (t, call) :: after ∧ Served J dev sb s before rs s₁ ∧
          call.TooFar s₁.opens t (s₁.desk J)) s := by
  induction calls generalizing s with
  | nil => exact .nil h
  | cons p calls ih =>
    obtain ⟨t, call⟩ := p
    have hswitch : FilesOk J dev sb { s with current := t } := ⟨fun i hi => by
      obtain ⟨⟨⟨hsuper, hnzones, hzero, hbad, hdistinct, hmarked⟩, hfirst, hquiet, hdata⟩, hmode,
        hpipe, hseek, hsize, htail⟩ := h.file i hi
      exact ⟨⟨⟨hsuper, hnzones, hzero, hbad, hdistinct, hmarked⟩, hfirst, hquiet, hdata⟩, hmode,
        hpipe, hseek, hsize, htail⟩, h.dev, h.disjoint⟩
    rw [runCalls, Prog.wp_bind, Prog.wp_update]
    have hcall := hswitch.run_answers (c := c) (hon (t, call) List.mem_cons_self)
    rw [Prog.wp_bind]
    refine hcall.mono (fun r s₁ hr => ?_) fun e s₁ he => ?_
    · have hfirst : Answers J dev sb t call s r s₁ := ⟨hr.ok, hr.opens, hr.served⟩
      have hopens : s₁.opens = s.opens := hfirst.opens
      rw [Prog.wp_bind]
      refine (ih hr.ok fun p hp => ?_).mono (fun rs s₂ hrs => .cons hfirst hrs) fun e s₂ he => ?_
      · rw [hopens]
        exact hon p (List.mem_cons_of_mem _ hp)
      · obtain ⟨he, before, t', call', after, rs, s₃, rfl, hserved, hfar⟩ := he
        exact ⟨he, (t, call) :: before, t', call', after, r :: rs, s₃, rfl,
          .cons hfirst hserved, hfar⟩
    · exact ⟨he.1, [], t, call, calls, [], s, rfl, .nil h, he.2⟩

/-- The regular files of a device are byte arrays. Any tasks seek, read, write, append and truncate
through any descriptors of these files: every call returns what the byte arrays and offsets of the
state before it give, and leaves theirs, where a write that stores less than it was given has
found the device full. The only way for the kernel to panic is a write behind the largest file. -/
theorem runCalls_served (h : FilesOk J dev sb s) (calls : List (ℕ × ByteCall))
    (hon : ∀ p ∈ calls, p.2.On J s.opens p.1) :
    (∀ rs s', runCalls c calls s = .ok (rs, s') → Served J dev sb s calls rs s') ∧
      ∀ e s', runCalls c calls s = .error (e, s') → e = .bmapBlock ∧
        ∃ before t call after rs s₁, calls = before ++ (t, call) :: after ∧
          Served J dev sb s before rs s₁ ∧ call.TooFar s₁.opens t (s₁.desk J) :=
  ⟨fun _ _ hrun => (runCalls_wp h calls hon).of_ok hrun,
    fun _ _ hrun => (runCalls_wp h calls hon).of_error hrun⟩

/-- Two empty files on a device. Task 1 has both of them open, task 2 has the second one open for
appending. -/
def pairedFiles : Fs :=
  { Fs.empty with
    zmap := fun _ k => decide (k = 0)
    inode := fun i => { MInode.zero with
      mode := 0o100644, nlinks := 1, dev := 0x301, num := i + 2, count := 1 }
    super := fun _ => { SuperBlock.zero with
      ninodes := 32, nzones := 100, imapBlocks := 1, zmapBlocks := 1, firstdatazone := 5,
      dev := 0x301 }
    file := fun f => {
      mode := 0, flags := if f = 2 then 0o2002 else 2, count := 1,
      inode := if f = 0 then 0 else 1, pos := 0 }
    task := fun t => { Task.zero with
      used := true
      filp := fun fd =>
        if t = 2 then if fd = 0 then some 2 else none else if fd < 2 then some fd else none } }

theorem pairedFiles_zoneIn (i : ℕ) (x : ℕ × List ℕ) : pairedFiles.zoneIn i x = 0 :=
  IndexTree.follow_zero _ x.2

theorem pairedFiles_ok : FilesOk {0, 1} 0x301 (pairedFiles.super 0) pairedFiles := by
  have hnone : ∀ i z, ¬pairedFiles.Refers i z := by
    rintro i z ⟨hz, x, -, hx⟩
    rw [pairedFiles_zoneIn] at hx
    exact hz hx.symm
  refine ⟨fun i _ => ⟨⟨⟨rfl, by decide, rfl, fun _ => rfl, ?_, fun z hz => absurd hz (hnone i z)⟩,
    by decide, fun _ _ => rfl, fun z hz => absurd hz (hnone i z)⟩,
    (by decide : isReg 0o100644 = true), rfl, (by decide : isSeekable (major 0x301) = true),
    Nat.zero_le _, fun n _ _ => ?_⟩, fun _ _ => rfl, fun i _ _ _ _ z hz => absurd hz (hnone i z)⟩
  · intro x _ y _ hne
    exact absurd (pairedFiles_zoneIn i x) hne
  · rw [Fs.byteAt, Fs.blockData, if_pos (pairedFiles_zoneIn i _)]

/-- Task 1 writes to the second file behind a gap, task 2 appends to it, and task 1 reads. -/
def sampleCalls : List (ℕ × ByteCall) :=
  [(1, .lseek 1 3 0), (1, .write 1 [7, 8]), (2, .write 0 [9]), (1, .lseek 1 0 0), (1, .read 1 10)]

/-- What the calls return. -/
def sampleAnswers : List Answer :=
  [.number (.ok 3), .number (.ok 2), .number (.ok 1), .number (.ok 0),
    .bytes (.ok [0, 0, 0, 7, 8, 9])]

/-- The state behind a result. -/
theorem exists_of_resultOf {α : Type} {m : K α} {a : α} (h : resultOf (s := s) m = some a) :
    ∃ s', m s = .ok (a, s') := by
  unfold resultOf at h
  cases hm : m s with
  | ok r =>
    rw [hm] at h
    cases h
    exact ⟨r.2, rfl⟩
  | error e =>
    rw [hm] at h
    cases h

/-- The calls are answered as by byte arrays. -/
theorem runCalls_served_sample : ∃ s',
    Served {0, 1} 0x301 (pairedFiles.super 0) pairedFiles sampleCalls sampleAnswers s' := by
  have hon : ∀ p ∈ sampleCalls, p.2.On {0, 1} pairedFiles.opens p.1 := by
    have hin : ∀ f, pairedFiles.opens.inode f ∈ ({0, 1} : Finset ℕ) := by
      intro f
      change (if f = 0 then 0 else 1) ∈ ({0, 1} : Finset ℕ)
      split_ifs <;> decide
    rintro ⟨t, call⟩ hp
    cases call with
    | lseek fd offset origin => exact fun f _ => hin f
    | read fd count => exact fun f _ => hin f
    | write fd buf => exact fun f _ => hin f
    | trunc i => simp [sampleCalls] at hp
  obtain ⟨s', hrun⟩ := exists_of_resultOf (s := pairedFiles)
    (m := runCalls ⟨.ok [], .ok 0, fun _ => 0⟩ sampleCalls) (a := sampleAnswers) (by decide +kernel)
  exact ⟨s', (runCalls_served pairedFiles_ok sampleCalls hon).1 _ _ hrun⟩

end LihaLinux.Files
