import LihaLinux.Fs.Machine
import Mathlib.Algebra.Order.Group.Nat

/-!
# What the calls return and hold

Every function of the cache and the inode table returns a buffer, an inode or nothing, and a
suspended call expects what its callee returns. A call holds references to buffers and inodes
according to the place where it stands; one step changes `b_count` and `i_count` by exactly
the references that are gained or lost, modulo the width of the counters.
-/

namespace LihaLinux.Fs

/-! ### The steps one by one -/

/-- What one step of the topmost call does, one rule for each way through it. -/
inductive Frame.Exec (w : Tables) (ch : Choice) : Frame → Tables → Next → Prop
  | hashMiss {dev block : ℕ} (hfind : w.cache.findBuffer dev block = none) :
    Exec w ch (.hashFind dev block) w (.ret none)
  | hashHit {dev block bh : ℕ} (hfind : w.cache.findBuffer dev block = some bh) :
    Exec w ch (.hashFind dev block) (w.withCache (w.cache.incCount bh))
      (.go (.hashWait dev block bh))
  | hashSame {dev block bh : ℕ} (hlock : w.cache.lock bh = false) (hdev : w.cache.dev bh = dev)
    (hblock : w.cache.blocknr bh = block) : Exec w ch (.hashWait dev block bh) w (.ret (some bh))
  | hashStale {dev block bh : ℕ} (hlock : w.cache.lock bh = false)
    (hstale : ¬(w.cache.dev bh = dev ∧ w.cache.blocknr bh = block)) :
    Exec w ch (.hashWait dev block bh) (w.withCache (w.cache.decCount bh))
      (.go (.hashFind dev block))
  | getblk {dev block : ℕ} :
    Exec w ch (.getblk dev block) w (.call (.getblkHash dev block) (.hashFind dev block))
  | getblkFound {dev block bh : ℕ} : Exec w ch (.getblkGot dev block (some bh)) w (.ret (some bh))
  | getblkNone {dev block : ℕ} (hchoose : w.cache.chooseFree = none) :
    Exec w ch (.getblkGot dev block none) w (.go (.getblk dev block))
  | getblkChosen {dev block bh : ℕ} (hchoose : w.cache.chooseFree = some bh) :
    Exec w ch (.getblkGot dev block none) w (.go (.getblkWait dev block bh))
  | getblkBusy {dev block bh : ℕ} (hlock : w.cache.lock bh = false)
    (hcount : w.cache.count bh ≠ 0) :
    Exec w ch (.getblkWait dev block bh) w (.go (.getblk dev block))
  | getblkSync {dev block bh : ℕ} (hlock : w.cache.lock bh = false) (hcount : w.cache.count bh = 0)
    (hdirt : w.cache.dirt bh = true) :
    Exec w ch (.getblkWait dev block bh) w
      (.call (.getblkWait dev block bh) (.syncDev (w.cache.dev bh) true 0))
  | getblkRaced {dev block bh : ℕ} (hfind : (w.cache.findBuffer dev block).isSome) :
    Exec w ch (.getblkWait dev block bh) w (.go (.getblk dev block))
  | getblkAssign {dev block bh : ℕ} {c : Cache} (hlock : w.cache.lock bh = false)
    (hcount : w.cache.count bh = 0) (hdirt : w.cache.dirt bh = false)
    (hfind : w.cache.findBuffer dev block = none) (hassign : w.cache.assign dev block bh = some c) :
    Exec w ch (.getblkWait dev block bh) (w.withCache c) (.ret (some bh))
  | bread {dev block : ℕ} : Exec w ch (.bread dev block) w (.call .breadBlk (.getblk dev block))
  | breadCached {bh : ℕ} (huptodate : w.cache.uptodate bh = true) :
    Exec w ch (.breadGot (some bh)) w (.ret (some bh))
  | breadIo {bh : ℕ} (huptodate : w.cache.uptodate bh = false) :
    Exec w ch (.breadGot (some bh)) w (.call (.breadWait bh) (.llRwBlock .read bh))
  | breadDone {bh : ℕ} (hlock : w.cache.lock bh = false) (huptodate : w.cache.uptodate bh = true) :
    Exec w ch (.breadWait bh) w (.ret (some bh))
  | breadError {bh : ℕ} (hlock : w.cache.lock bh = false)
    (huptodate : w.cache.uptodate bh = false) :
    Exec w ch (.breadWait bh) w (.call .breadFail (.brelse bh))
  | breadFail : Exec w ch .breadFail w (.ret none)
  | brelse {bh : ℕ} (hlock : w.cache.lock bh = false) (hcount : w.cache.count bh ≠ 0) :
    Exec w ch (.brelse bh) (w.withCache (w.cache.decCount bh)) (.ret none)
  | rwNothing {rw : Rw} {bh : ℕ} : Exec w ch (.llRwBlock rw bh) w (.ret none)
  | rwLock {rw : Rw} {bh : ℕ} (hlock : w.cache.lock bh = false) :
    Exec w ch (.llRwBlock rw bh) (w.withCache (w.cache.setLock bh true)) (.go (.request rw bh))
  | request {rw : Rw} {bh : ℕ} :
    Exec w ch (.request rw bh) (w.withCache (w.cache.setDirt bh false)) (.ret none)
  | syncDevInodes {dev i : ℕ} (hi : w.cache.nrBuffers ≤ i) :
    Exec w ch (.syncDev dev true i) w (.call (.syncDev dev false 0) (.syncInodes 0))
  | syncDevDone {dev i : ℕ} {first : Bool} (hi : w.cache.nrBuffers ≤ i) :
    Exec w ch (.syncDev dev first i) w (.ret none)
  | syncDevNext {dev i : ℕ} {first : Bool} (hi : i < w.cache.nrBuffers) :
    Exec w ch (.syncDev dev first i) w (.go (.syncDev dev first (i + 1)))
  | syncDevWrite {dev i : ℕ} {first : Bool} (hi : i < w.cache.nrBuffers)
    (hlock : w.cache.lock i = false) (hdirt : w.cache.dirt i = true) :
    Exec w ch (.syncDev dev first i) w
      (.call (.syncDev dev first (i + 1)) (.llRwBlock .write i))
  | syncInodesDone {i : ℕ} (hi : nrInode ≤ i) : Exec w ch (.syncInodes i) w (.ret none)
  | syncInodesWrite {i : ℕ} (hi : i < nrInode) (hlock : (w.inode i).lock = false) :
    Exec w ch (.syncInodes i) w (.call (.syncInodes (i + 1)) (.writeInode i))
  | syncInodesNext {i : ℕ} (hi : i < nrInode) (hlock : (w.inode i).lock = false) :
    Exec w ch (.syncInodes i) w (.go (.syncInodes (i + 1)))
  | sysSync : Exec w ch .sysSync w (.call (.sysSyncLoop 0) (.syncInodes 0))
  | sysSyncDone {i : ℕ} (hi : w.cache.nrBuffers ≤ i) : Exec w ch (.sysSyncLoop i) w (.ret none)
  | sysSyncWrite {i : ℕ} (hi : i < w.cache.nrBuffers) (hlock : w.cache.lock i = false)
    (hdirt : w.cache.dirt i = true) :
    Exec w ch (.sysSyncLoop i) w (.call (.sysSyncLoop (i + 1)) (.llRwBlock .write i))
  | sysSyncNext {i : ℕ} (hi : i < w.cache.nrBuffers) :
    Exec w ch (.sysSyncLoop i) w (.go (.sysSyncLoop (i + 1)))
  | writeClean {i : ℕ} (hlock : (w.inode i).lock = false) :
    Exec w ch (.writeInode i) w (.ret none)
  | writeLock {i : ℕ} (hlock : (w.inode i).lock = false) (hdirt : (w.inode i).dirt = true)
    (hdev : (w.inode i).dev ≠ 0) :
    Exec w ch (.writeInode i) (w.setInode i { w.inode i with lock := true }) (.go (.writeSuper i))
  | writeBread {i k : ℕ} (hsuper : w.getSuper (w.inode i).dev = some k) :
    Exec w ch (.writeSuper i) w (.call (.writeRead i)
      (.bread (w.inode i).dev (Tables.inodeBlock (w.super k) (w.inode i).num)))
  | writeCopy {i bh : ℕ} :
    Exec w ch (.writeCopy i (some bh))
      ((w.withCache (w.cache.setDirt bh true)).setInode i { w.inode i with dirt := false })
      (.call (.writeUnlock i) (.brelse bh))
  | writeUnlock {i : ℕ} :
    Exec w ch (.writeUnlock i) (w.setInode i { w.inode i with lock := false }) (.ret none)
  | readLock {i : ℕ} (hlock : (w.inode i).lock = false) :
    Exec w ch (.readInode i) (w.setInode i { w.inode i with lock := true }) (.go (.readSuper i))
  | readBread {i k : ℕ} (hsuper : w.getSuper (w.inode i).dev = some k) :
    Exec w ch (.readSuper i) w (.call (.readRead i)
      (.bread (w.inode i).dev (Tables.inodeBlock (w.super k) (w.inode i).num)))
  | readCopy {i bh : ℕ} :
    Exec w ch (.readCopy i (some bh)) (w.setInode i ((w.inode i).load ch.data))
      (.call (.readUnlock i) (.brelse bh))
  | readUnlock {i : ℕ} :
    Exec w ch (.readUnlock i) (w.setInode i { w.inode i with lock := false }) (.ret none)
  | emptyPick {i last : ℕ} (hpick : w.pickInode nrInode w.lastInode none = (last, some i)) :
    Exec w ch .emptyPick { w with lastInode := last } (.go (.emptyWait i))
  | emptyWrite {i : ℕ} (hlock : (w.inode i).lock = false) (hdirt : (w.inode i).dirt = true) :
    Exec w ch (.emptyWait i) w (.call (.emptyWait i) (.writeInode i))
  | emptyBusy {i : ℕ} (hlock : (w.inode i).lock = false) (hcount : (w.inode i).count ≠ 0) :
    Exec w ch (.emptyWait i) w (.go .emptyPick)
  | emptyTake {i : ℕ} (hlock : (w.inode i).lock = false) (hdirt : (w.inode i).dirt = false)
    (hcount : (w.inode i).count = 0) :
    Exec w ch (.emptyWait i) (w.setInode i { MInode.zero with count := 1 }) (.ret (some i))
  | iputPipe {i : ℕ} (hlock : (w.inode i).lock = false) (hcount : (w.inode i).count ≠ 0) :
    Exec w ch (.iput i) (w.setInode i (w.inode i).dec) (.ret none)
  | iputLastPipe {i : ℕ} (hlock : (w.inode i).lock = false) (hcount : (w.inode i).count ≠ 0)
    (hpipe : (w.inode i).pipe = true) :
    Exec w ch (.iput i) (w.setInode i { (w.inode i).dec with dirt := false, pipe := false })
      (.ret none)
  | iputBlk {i : ℕ} (hlock : (w.inode i).lock = false) (hcount : (w.inode i).count ≠ 0)
    (hdev : (w.inode i).dev ≠ 0) :
    Exec w ch (.iput i) w (.call (.iputWait i) (.syncDev (w.inode i).zone0 true 0))
  | iputStart {i : ℕ} (hlock : (w.inode i).lock = false) (hcount : (w.inode i).count ≠ 0)
    (hdev : (w.inode i).dev ≠ 0) : Exec w ch (.iput i) w (.go (.iputWait i))
  | iputDec {i : ℕ} (hlock : (w.inode i).lock = false) :
    Exec w ch (.iputWait i) (w.setInode i (w.inode i).dec) (.ret none)
  | iputTrunc {i : ℕ} (hlock : (w.inode i).lock = false) (hcount : (w.inode i).count ≤ 1)
    (hnlinks : (w.inode i).nlinks = 0) : Exec w ch (.iputWait i) w (.go (.iputTrunc i []))
  | iputWrite {i : ℕ} (hlock : (w.inode i).lock = false) (hcount : (w.inode i).count ≤ 1)
    (hdirt : (w.inode i).dirt = true) :
    Exec w ch (.iputWait i) w (.call (.iputWait i) (.writeInode i))
  | truncRead {i block : ℕ} {held : List ℕ} :
    Exec w ch (.iputTrunc i held) w (.call (.truncRead i held) (.bread (w.inode i).dev block))
  | truncHash {i block : ℕ} {held : List ℕ} :
    Exec w ch (.iputTrunc i held) w (.call (.truncHash i held) (.hashFind (w.inode i).dev block))
  | truncRelease {i bh : ℕ} {held : List ℕ} :
    Exec w ch (.iputTrunc i (bh :: held)) w (.call (.iputTrunc i held) (.brelse bh))
  | freeInode {i : ℕ} (hcount : (w.inode i).count ≤ 1) (hnlinks : (w.inode i).nlinks = 0) :
    Exec w ch (.iputTrunc i []) (w.setInode i .zero) (.ret none)
  | freeUncached {i : ℕ} {held : List ℕ} :
    Exec w ch (.truncFree i held none) w (.go (.iputTrunc i held))
  | freeBusy {i bh : ℕ} {held : List ℕ} (hcount : w.cache.count bh ≠ 1) :
    Exec w ch (.truncFree i held (some bh)) { w with leaked := bh :: w.leaked }
      (.go (.iputTrunc i held))
  | freeCached {i bh : ℕ} {held : List ℕ} (hcount : w.cache.count bh = 1) :
    Exec w ch (.truncFree i held (some bh))
      (w.withCache ((w.cache.setDirt bh false).setUptodate bh false))
      (.call (.iputTrunc i held) (.brelse bh))
  | iget {dev nr : ℕ} (hdev : dev ≠ 0) :
    Exec w ch (.iget dev nr) w (.call (.igetEmpty dev nr) .emptyPick)
  | igetFound {dev nr empty i : ℕ} (hfind : w.findInode dev nr = some i) :
    Exec w ch (.igetSearch dev nr empty) w (.go (.igetWait dev nr empty i))
  | igetFill {dev nr empty : ℕ} (hfind : w.findInode dev nr = none) :
    Exec w ch (.igetSearch dev nr empty)
      (w.setInode empty { w.inode empty with dev := dev, num := nr })
      (.call (.igetRead empty) (.readInode empty))
  | igetStale {dev nr empty i : ℕ} (hlock : (w.inode i).lock = false) :
    Exec w ch (.igetWait dev nr empty i) w (.go (.igetSearch dev nr empty))
  | igetMount {dev nr empty i k : ℕ} (hlock : (w.inode i).lock = false)
    (hdev : (w.inode i).dev = dev) (hnum : (w.inode i).num = nr) (hmount : w.findMount i = some k) :
    Exec w ch (.igetWait dev nr empty i) (w.setInode i (w.inode i).inc)
      (.call (.igetCross k empty) (.iput i))
  | igetDone {dev nr empty i : ℕ} (hlock : (w.inode i).lock = false)
    (hdev : (w.inode i).dev = dev) (hnum : (w.inode i).num = nr) :
    Exec w ch (.igetWait dev nr empty i) (w.setInode i (w.inode i).inc)
      (.call (.igetDone i) (.iput empty))
  | igetCross {k empty : ℕ} :
    Exec w ch (.igetCross k empty) w (.go (.igetSearch (w.super k).dev rootIno empty))
  | igetRead {i : ℕ} : Exec w ch (.igetRead i) w (.ret (some i))
  | igetReturn {i : ℕ} : Exec w ch (.igetDone i) w (.ret (some i))
  | userDone : Exec w ch .userDone w (.ret none)

/-- Every step is by one of the rules. -/
theorem Frame.exec_rule {w w' : Tables} {ch : Choice} {f : Frame} {n : Next}
    (h : f.exec w ch = some (w', n)) : Frame.Exec w ch f w' n := by
  revert h
  fun_cases Frame.exec w ch f
  all_goals
    intro h
    simp only [Option.some.injEq, Prod.mk.injEq, reduceCtorEq] at h
  all_goals
    obtain ⟨rfl, rfl⟩ := h
    -- the conditions on the way, as the rules state them
    try simp only [Bool.not_eq_true, Bool.not_eq_true', ne_eq, Decidable.not_not, not_le, not_lt,
      not_or, Option.isSome_eq_false_iff, Option.isNone_iff_eq_none] at *
  · exact .hashMiss ‹_›
  · exact .hashHit ‹_›
  · exact .hashSame ‹_› (And.left ‹_›) (And.right ‹_›)
  · exact .hashStale ‹_› ‹_›
  · exact .getblk
  · exact .getblkFound
  · exact .getblkNone ‹_›
  · exact .getblkChosen ‹_›
  · exact .getblkBusy ‹_› ‹_›
  · exact .getblkSync ‹_› ‹_› ‹_›
  · exact .getblkRaced ‹_›
  · exact .getblkAssign ‹_› ‹_› ‹_› ‹_› ‹_›
  · exact .bread
  · exact .breadCached ‹_›
  · exact .breadIo ‹_›
  · exact .breadDone ‹_› ‹_›
  · exact .breadError ‹_› ‹_›
  · exact .breadFail
  · exact .brelse ‹_› ‹_›
  · exact .rwNothing
  · exact .rwNothing
  · exact .rwLock ‹_›
  · exact .request
  · exact .syncDevInodes ‹_›
  · exact .syncDevDone ‹_›
  · exact .syncDevNext ‹_›
  · exact .syncDevWrite ‹_› ‹_› ‹_›
  · exact .syncDevNext ‹_›
  · exact .syncInodesDone ‹_›
  · exact .syncInodesWrite ‹_› ‹_›
  · exact .syncInodesNext ‹_› ‹_›
  · exact .sysSync
  · exact .sysSyncDone ‹_›
  · exact .sysSyncWrite ‹_› ‹_› ‹_›
  · exact .sysSyncNext ‹_›
  · exact .writeClean ‹_›
  · exact .writeLock ‹_› (Bool.eq_true_of_not_eq_false (And.left ‹_›)) (And.right ‹_›)
  · exact .writeBread ‹_›
  · exact .writeCopy
  · exact .writeUnlock
  · exact .readLock ‹_›
  · exact .readBread ‹_›
  · exact .readCopy
  · exact .readUnlock
  · exact .emptyPick ‹_›
  · exact .emptyWrite ‹_› ‹_›
  · exact .emptyBusy ‹_› ‹_›
  · exact .emptyTake ‹_› ‹_› ‹_›
  · rename_i hcount _ _ hlock
    exact .iputPipe hlock hcount
  · rename_i hcount hpipe hlock _
    exact .iputLastPipe hlock hcount hpipe
  · exact .iputPipe ‹_› ‹_›
  · exact .iputBlk ‹_› ‹_› ‹_›
  · exact .iputStart ‹_› ‹_› ‹_›
  · exact .iputDec ‹_›
  · exact .iputTrunc ‹_› ‹_› ‹_›
  · exact .iputWrite ‹_› ‹_› ‹_›
  · exact .iputDec ‹_›
  · exact .truncRead
  · exact .truncHash
  · exact .truncRelease
  · exact .freeInode (And.left ‹_›) (And.right ‹_›)
  · exact .freeUncached
  · exact .freeBusy ‹_›
  · exact .freeCached ‹_›
  · exact .iget ‹_›
  · exact .igetFound ‹_›
  · exact .igetFill ‹_›
  · exact .igetStale ‹_›
  · exact .igetDone ‹_› (And.left ‹_›) (And.right ‹_›)
  · exact .igetMount ‹_› (And.left ‹_›) (And.right ‹_›) ‹_›
  · exact .igetDone ‹_› (And.left ‹_›) (And.right ‹_›)
  · exact .igetCross
  · exact .igetRead
  · exact .igetReturn
  · exact .userDone

/-! ### Results -/

/-- What a function returns. -/
inductive Kind
  | buffer
  | inode
  | unit
  deriving DecidableEq

/-- What the function of a call returns. -/
def Frame.kind : Frame → Kind
  | .hashFind _ _ | .hashWait _ _ _ | .getblk _ _ | .getblkHash _ _ | .getblkGot _ _ _
  | .getblkWait _ _ _ | .bread _ _ | .breadBlk | .breadGot _ | .breadWait _ | .breadFail =>
    .buffer
  | .emptyPick | .emptyWait _ | .iget _ _ | .igetEmpty _ _ | .igetSearch _ _ _
  | .igetWait _ _ _ _ | .igetCross _ _ | .igetRead _ | .igetDone _ => .inode
  | _ => .unit

/-- What a suspended call expects from its callee. -/
def Frame.awaits : Frame → Option Kind
  | .getblkHash _ _ | .breadBlk | .writeRead _ | .readRead _ | .truncRead _ _ | .truncHash _ _
  | .userBuffer => some .buffer
  | .igetEmpty _ _ | .userInode => some .inode
  | .getblkWait _ _ _ | .breadWait _ | .breadFail | .syncDev _ _ _ | .syncInodes _
  | .sysSyncLoop _ | .writeUnlock _ | .readUnlock _ | .emptyWait _ | .iputWait _
  | .iputTrunc _ _ | .igetCross _ _ | .igetRead _ | .igetDone _ | .userDone => some .unit
  | _ => none

/-- The bottom of a stack. -/
def Frame.isUser : Frame → Bool
  | .userBuffer | .gotBuffer _ | .userInode | .gotInode _ | .userDone => true
  | _ => false

/-- A function that gets a value hands on a value of the right kind. -/
def Next.Fits (k : Kind) : Next → Prop
  | .go f => f.kind = k ∧ f.isUser = false
  | .call f callee => f.kind = k ∧ f.isUser = false ∧ f.awaits = some callee.kind ∧
      callee.isUser = false
  | .ret v => (k = .unit → v = none) ∧ (k = .inode → v.isSome)

/-- Every step hands on a value of the right kind. -/
theorem Frame.exec_fits {w w' : Tables} {ch : Choice} {f : Frame} {n : Next}
    (h : f.exec w ch = some (w', n)) : n.Fits f.kind := by
  replace h := Frame.exec_rule h
  cases h
  all_goals
    simp [Next.Fits, Frame.kind, Frame.awaits, Frame.isUser]

/-- A stack in which every suspended call expects what the call above it returns. -/
def Stacked : List Frame → Prop
  | [] => True
  | [f] => f.isUser
  | f :: g :: rest => f.isUser = false ∧ g.awaits = some f.kind ∧ Stacked (g :: rest)

/-- A resumed call stands in the place of the suspended one. -/
theorem Frame.resume_stacked {g : Frame} {rest : List Frame} {v : Option ℕ}
    (h : Stacked (g :: rest)) : Stacked (g.resume v :: rest) := by
  have hkind : (g.resume v).kind = g.kind ∧ (g.resume v).isUser = g.isUser := by
    unfold Frame.resume
    split
    all_goals try split
    all_goals simp [Frame.kind, Frame.isUser]
  cases rest with
  | nil =>
    simp only [Stacked] at h ⊢
    rw [hkind.2]
    exact h
  | cons g' rest =>
    obtain ⟨huser, hawaits, hrest⟩ := h
    exact ⟨by rw [hkind.2]; exact huser, by rw [hkind.1]; exact hawaits, hrest⟩

/-- A step keeps the stack in order. -/
theorem Frame.exec_stacked {w w' : Tables} {ch : Choice} {f : Frame} {n : Next}
    {rest : List Frame} (h : f.exec w ch = some (w', n)) (hs : Stacked (f :: rest)) :
    Stacked (FsSystem.stackAfter rest n) := by
  have hfits := Frame.exec_fits h
  cases n with
  | go f' =>
    cases rest with
    | nil =>
      -- the only calls without a caller are those of the user, and these return
      simp only [Stacked] at hs
      cases f <;> simp [Frame.isUser] at hs <;> simp [Frame.exec] at h
    | cons g rest =>
      obtain ⟨-, hawaits, hrest⟩ := hs
      exact ⟨hfits.2, by rw [hfits.1]; exact hawaits, hrest⟩
  | call f' callee =>
    cases rest with
    | nil =>
      simp only [Stacked] at hs
      cases f <;> simp [Frame.isUser] at hs <;> simp [Frame.exec] at h
    | cons g rest =>
      obtain ⟨-, hawaits, hrest⟩ := hs
      obtain ⟨hkind, huser, hcallee, huser'⟩ := hfits
      exact ⟨huser', hcallee, huser, by rw [hkind]; exact hawaits, hrest⟩
  | ret v =>
    cases rest with
    | nil => trivial
    | cons g rest => exact Frame.resume_stacked hs.2.2

/-- The calls that a step leaves in the place of the topmost one. -/
def Next.frames : Next → List Frame
  | .go f => [f]
  | .call f callee => [callee, f]
  | .ret _ => []

/-- A call on the stack after a step is a new one, an old one, or one that has been resumed. -/
theorem mem_stackAfter {g : Frame} {rest : List Frame} {n : Next}
    (h : g ∈ FsSystem.stackAfter rest n) :
    g ∈ n.frames ∨ g ∈ rest ∨ ∃ g₀ rest' v, n = .ret v ∧ rest = g₀ :: rest' ∧ g = g₀.resume v := by
  cases n with
  | go f =>
    rcases List.mem_cons.mp h with rfl | h
    · exact .inl (by simp [Next.frames])
    · exact .inr (.inl h)
  | call f callee =>
    rcases List.mem_cons.mp h with rfl | h
    · exact .inl (by simp [Next.frames])
    · rcases List.mem_cons.mp h with rfl | h
      · exact .inl (by simp [Next.frames])
      · exact .inr (.inl h)
  | ret v =>
    cases rest with
    | nil => cases h
    | cons g₀ rest =>
      rcases List.mem_cons.mp h with rfl | h
      · exact .inr (.inr ⟨g₀, rest, v, rfl, rfl, rfl⟩)
      · exact .inr (.inl (List.mem_cons_of_mem _ h))

/-- What holds of the new calls and of the old ones, also when they are resumed, holds of the
whole stack after a step. -/
theorem forall_mem_stackAfter {P : Frame → Prop} {rest : List Frame} {n : Next}
    (hresume : ∀ g v, P g → P (g.resume v)) (hnew : ∀ g ∈ n.frames, P g)
    (hrest : ∀ g ∈ rest, P g) : ∀ g ∈ FsSystem.stackAfter rest n, P g := by
  intro g hg
  rcases mem_stackAfter hg with hg | hg | ⟨g₀, rest', v, rfl, rfl, rfl⟩
  · exact hnew g hg
  · exact hrest g hg
  · exact hresume g₀ v (hrest g₀ List.mem_cons_self)

/-- Where a call stands after a step, unless it has returned. -/
def Next.stays : Next → Option Frame
  | .go f => some f
  | .call f _ => some f
  | .ret _ => none

/-- What holds between each call and its caller holds after a step, if it holds between a new
call and its caller and does not depend on the place where a call stands. -/
theorem isChain_stackAfter {R : Frame → Frame → Prop} {f : Frame} {rest : List Frame} {n : Next}
    (hresume : ∀ g v g', R g g' → R (g.resume v) g')
    (hstays : ∀ f' ∈ n.stays, ∀ g, R f g → R f' g)
    (hcallee : ∀ f' callee, n = .call f' callee → R callee f')
    (h : List.IsChain R (f :: rest)) : List.IsChain R (FsSystem.stackAfter rest n) := by
  cases n with
  | go f' =>
    cases rest with
    | nil => exact .singleton f'
    | cons g rest =>
      rw [List.isChain_cons_cons] at h
      exact .cons_cons (hstays f' rfl g h.1) h.2
  | call f' callee =>
    have hnew := hcallee f' callee rfl
    cases rest with
    | nil => exact .cons_cons hnew (.singleton f')
    | cons g rest =>
      rw [List.isChain_cons_cons] at h
      exact .cons_cons hnew (.cons_cons (hstays f' rfl g h.1) h.2)
  | ret v =>
    cases rest with
    | nil => exact .nil
    | cons g rest =>
      cases rest with
      | nil => exact .singleton _
      | cons g' rest =>
        rw [List.isChain_cons_cons, List.isChain_cons_cons] at h
        exact .cons_cons (hresume g v g' h.2.1) h.2.2

/-! ### Buffer references -/

/-- The buffer references a call holds. -/
def Frame.bufs : Frame → List ℕ
  | .hashWait _ _ bh | .breadWait bh | .brelse bh => [bh]
  | .getblkGot _ _ v | .breadGot v | .writeCopy _ v | .readCopy _ v | .gotBuffer v => v.toList
  | .iputTrunc _ held | .truncRead _ held | .truncHash _ held => held
  | .truncFree _ held v => v.toList ++ held
  | _ => []

/-- The buffer references that a step leaves to the call, its callee and its caller. -/
def Next.bufs (k : Kind) : Next → List ℕ
  | .go f => f.bufs
  | .call f callee => callee.bufs ++ f.bufs
  | .ret v => if k = .buffer then v.toList else []

/-- The counters that a change of `b_count` of one buffer leaves behind. -/
theorem Cache.incCount_count (c : Cache) (bh b : ℕ) :
    (c.incCount bh).count b = if b = bh then (c.count b + 1) % 256 else c.count b := by
  simp only [Cache.incCount, Function.update_apply]
  split_ifs with h
  · rw [h]
  · rfl

theorem Cache.decCount_count (c : Cache) (bh b : ℕ) :
    (c.decCount bh).count b = if b = bh then (c.count b + 255) % 256 else c.count b := by
  simp only [Cache.decCount, Function.update_apply]
  split_ifs with h
  · rw [h]
  · rfl

/-- The end of `getblk` sets the counter of the chosen buffer. -/
theorem Cache.assign_count {c c' : Cache} {dev block bh : ℕ}
    (h : c.assign dev block bh = some c') : c'.count = Function.update c.count bh 1 := by
  unfold Cache.assign at h
  simp only [Option.bind_eq_some_iff, Option.map_eq_some_iff] at h
  obtain ⟨c₁, hremove, c₂, hinsert, rfl⟩ := h
  rw [(Cache.insertIntoHash_hashOnly c₂ bh).count]
  unfold Cache.insertIntoFree at hinsert
  split at hinsert
  · cases hinsert
  · simp only at hinsert
    split at hinsert
    · cases hinsert
    · simp only [Option.some.injEq] at hinsert
      rw [← hinsert]
      unfold Cache.removeFromFree at hremove
      split at hremove
      · simp only [Option.some.injEq] at hremove
        rw [← hremove]
        exact (Cache.removeFromHash_hashOnly _ bh).count
      · cases hremove

/-- A step changes `b_count` by the references gained and lost. -/
theorem Frame.exec_bufs {w w' : Tables} {ch : Choice} {f : Frame} {n : Next}
    (h : f.exec w ch = some (w', n)) (b : ℕ) :
    (w'.cache.count b + (f.bufs ++ w.leaked).count b) % 256 =
      (w.cache.count b + (n.bufs f.kind ++ w'.leaked).count b) % 256 := by
  replace h := Frame.exec_rule h
  cases h
  all_goals
    simp only [Next.bufs, Frame.bufs, Frame.kind, Tables.withCache, Tables.setInode,
      Cache.incCount_count, Cache.decCount_count, Cache.setDirt, Cache.setLock,
      Cache.setUptodate, List.count_append, List.count_nil, List.count_cons, beq_iff_eq,
      Option.toList_some, Option.toList_none, reduceCtorEq, if_true, if_false, List.append_nil,
      List.nil_append]
  all_goals
    -- at the end of `getblk` the counter of the chosen buffer goes from 0 to 1
    try rw [Cache.assign_count (by assumption), Function.update_apply]
    split_ifs <;> grind

/-- A caller that expects a buffer gets the reference. -/
theorem Frame.resume_bufs {g : Frame} {k : Kind} (hg : g.awaits = some k) (v : Option ℕ)
    (hv : k = .unit → v = none) (b : ℕ) :
    (g.resume v).bufs.count b = (Next.bufs k (.ret v)).count b + g.bufs.count b := by
  cases g <;> simp only [Frame.awaits, reduceCtorEq, Option.some.injEq] at hg <;> subst k
  all_goals
    simp [Frame.resume, Frame.bufs, Next.bufs, List.count_append]
  cases v <;> simp

/-- The buffer references held on a stack. -/
def stackBufs (l : List Frame) : List ℕ := l.flatMap Frame.bufs

/-- A step of the topmost call changes `b_count` by the references gained and lost on its
stack. -/
theorem Frame.exec_stackBufs {w w' : Tables} {ch : Choice} {f : Frame} {n : Next}
    {rest : List Frame} (h : f.exec w ch = some (w', n)) (hs : Stacked (f :: rest)) (b : ℕ) :
    (w'.cache.count b + (stackBufs (f :: rest)).count b + w.leaked.count b) % 256 =
      (w.cache.count b + (stackBufs (FsSystem.stackAfter rest n)).count b +
        w'.leaked.count b) % 256 := by
  have hbufs := Frame.exec_bufs h b
  have hafter : (stackBufs (FsSystem.stackAfter rest n)).count b =
      (n.bufs f.kind).count b + (stackBufs rest).count b := by
    cases n with
    | go f' => simp [FsSystem.stackAfter, stackBufs, Next.bufs, List.count_append]
    | call f' callee =>
      simp [FsSystem.stackAfter, stackBufs, Next.bufs, List.count_append, Nat.add_assoc]
    | ret v =>
      have hfits := Frame.exec_fits h
      cases rest with
      | nil =>
        have hkind : f.kind = .unit := by
          simp only [Stacked] at hs
          cases f <;> simp [Frame.isUser] at hs <;> rfl
        simp [FsSystem.stackAfter, stackBufs, Next.bufs, hkind]
      | cons g rest =>
        simp only [FsSystem.stackAfter, stackBufs, List.flatMap_cons, List.count_append]
        rw [Frame.resume_bufs hs.2.1 v hfits.1]
        omega
  have hbefore : (stackBufs (f :: rest)).count b = f.bufs.count b + (stackBufs rest).count b := by
    simp [stackBufs, List.count_append]
  simp only [List.count_append] at hbufs
  rw [hafter, hbefore]
  omega

/-! ### Inode references -/

/-- The inode references a call holds. -/
def Frame.inodes : Frame → List ℕ
  | .iput i | .iputWait i | .iputTrunc i _ | .truncRead i _ | .truncHash i _ | .truncFree i _ _
  | .igetSearch _ _ i | .igetWait _ _ i _ | .igetCross _ i | .igetRead i | .igetDone i => [i]
  | .gotInode v => v.toList
  | _ => []

/-- The inode references that a step leaves to the call, its callee and its caller. -/
def Next.inodes (k : Kind) : Next → List ℕ
  | .go f => f.inodes
  | .call f callee => callee.inodes ++ f.inodes
  | .ret v => if k = .inode then v.toList else []

/-- The calls inside `truncate` and `free_inode`. -/
def Frame.frees : Frame → Bool
  | .iputTrunc _ _ | .truncRead _ _ | .truncHash _ _ | .truncFree _ _ _ => true
  | _ => false

/-- A step outside `free_inode` changes `i_count` by the references gained and lost. -/
theorem Frame.exec_inodes {w w' : Tables} {ch : Choice} {f : Frame} {n : Next}
    (h : f.exec w ch = some (w', n)) (hf : f.frees = false) (i : ℕ) :
    ((w'.inode i).count + f.inodes.count i) % 65536 =
      ((w.inode i).count + (n.inodes f.kind).count i) % 65536 := by
  replace h := Frame.exec_rule h
  cases h
  all_goals
    simp only [Frame.frees, Bool.true_eq_false] at hf
  all_goals
    simp only [Next.inodes, Frame.inodes, Frame.kind, Tables.withCache, Tables.setInode_apply,
      List.count_append, List.count_nil, List.count_cons, beq_iff_eq, Option.toList_some,
      Option.toList_none, reduceCtorEq, if_true, if_false, List.append_nil, List.nil_append,
      MInode.inc_count, MInode.dec_count, MInode.load_count, MInode.zero, apply_ite MInode.count]
  all_goals
    split_ifs <;> (try subst_vars) <;> omega

/-- A caller that expects an inode gets the reference. -/
theorem Frame.resume_inodes {g : Frame} {k : Kind} (hg : g.awaits = some k) (v : Option ℕ)
    (hv : k = .inode → v.isSome) (i : ℕ) :
    (g.resume v).inodes.count i = (Next.inodes k (.ret v)).count i + g.inodes.count i := by
  cases g <;> simp only [Frame.awaits, reduceCtorEq, Option.some.injEq] at hg <;> subst k
  case igetEmpty dev nr =>
    obtain ⟨e, rfl⟩ := Option.isSome_iff_exists.mp (hv rfl)
    simp [Frame.resume, Frame.inodes, Next.inodes]
  all_goals
    simp [Frame.resume, Frame.inodes, Next.inodes]

/-- The inode references held on a stack. -/
def stackInodes (l : List Frame) : List ℕ := l.flatMap Frame.inodes

/-- A step of the topmost call, outside `free_inode`, changes `i_count` by the references
gained and lost on its stack. -/
theorem Frame.exec_stackInodes {w w' : Tables} {ch : Choice} {f : Frame} {n : Next}
    {rest : List Frame} (h : f.exec w ch = some (w', n)) (hs : Stacked (f :: rest))
    (hf : f.frees = false) (i : ℕ) :
    ((w'.inode i).count + (stackInodes (f :: rest)).count i) % 65536 =
      ((w.inode i).count + (stackInodes (FsSystem.stackAfter rest n)).count i) % 65536 := by
  have hinodes := Frame.exec_inodes h hf i
  have hafter : (stackInodes (FsSystem.stackAfter rest n)).count i =
      (n.inodes f.kind).count i + (stackInodes rest).count i := by
    cases n with
    | go f' => simp [FsSystem.stackAfter, stackInodes, Next.inodes, List.count_append]
    | call f' callee =>
      simp [FsSystem.stackAfter, stackInodes, Next.inodes, List.count_append, Nat.add_assoc]
    | ret v =>
      have hfits := Frame.exec_fits h
      cases rest with
      | nil =>
        have hkind : f.kind = .unit := by
          simp only [Stacked] at hs
          cases f <;> simp [Frame.isUser] at hs <;> rfl
        simp [FsSystem.stackAfter, stackInodes, Next.inodes, hkind]
      | cons g rest =>
        simp only [FsSystem.stackAfter, stackInodes, List.flatMap_cons, List.count_append]
        rw [Frame.resume_inodes hs.2.1 v hfits.2]
        omega
  have hbefore : (stackInodes (f :: rest)).count i =
      f.inodes.count i + (stackInodes rest).count i := by
    simp [stackInodes, List.count_append]
  rw [hafter, hbefore]
  omega

end LihaLinux.Fs
