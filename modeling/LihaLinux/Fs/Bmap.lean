import LihaLinux.Lib.Transition
import Mathlib.Data.Nat.Notation
import Mathlib.Logic.Function.Basic

/-!
# `create_block` and its sleeps

`_bmap` walks from `i_zone` over at most two indirect blocks to the zone of a logical block.
With `create` set it fills every empty slot on its way by `new_block`. A task can lose the
processor inside `get_super`, `getblk`, `bread` and `brelse`, and nowhere else; a call is cut
into its parts between these places. The blocks are those of the buffer cache, which has one
buffer for each block. `i_ctime`, `i_dirt` and `b_dirt`, which `_bmap` sets and never reads,
are left out.
-/

namespace LihaLinux.Fs

/-- A place for the number of a zone: `i_zone[n]`, or entry `k` of the indirect block `z`. -/
inductive Slot
  | izone (n : ℕ)
  | entry (z k : ℕ)
  deriving DecidableEq

/-- What `new_block` reads of the super block. -/
structure ZoneSuper where
  /-- The number of blocks in `s_zmap`. -/
  zmapBlocks : ℕ
  firstdatazone : ℕ
  nzones : ℕ

/-- What the calls of `create_block` on one inode share. -/
structure Zones where
  /-- `i_zone` of the inode. -/
  zone : ℕ → ℕ
  /-- The blocks of the device, as arrays of `unsigned short`. -/
  entry : ℕ → ℕ → ℕ
  /-- The bits of the blocks of `s_zmap`, 8192 in each. -/
  zmap : ℕ → Bool

namespace Zones

/-- The number in a slot. -/
def get (w : Zones) : Slot → ℕ
  | .izone n => w.zone n
  | .entry z k => w.entry z k

/-- Store a number in a slot. -/
def set (w : Zones) (x : Slot) (j : ℕ) : Zones :=
  match x with
  | .izone n => { w with zone := Function.update w.zone n j }
  | .entry z k => { w with entry := Function.update w.entry z (Function.update (w.entry z) k j) }

/-- Set a bit of the zone map. -/
def setBit (w : Zones) (k : ℕ) : Zones := { w with zmap := Function.update w.zmap k true }

/-- `clear_block` of the block `j`. -/
def clearBlock (w : Zones) (j : ℕ) : Zones :=
  { w with entry := Function.update w.entry j fun _ => 0 }

end Zones

/-- The number of blocks of the largest file: `7+512+512*512`. -/
def maxBlock : ℕ := 7 + 512 + 512 * 512

/-- The index in `i_zone` and the indices in the indirect blocks for a logical block. -/
def path (block : ℕ) : ℕ × List ℕ :=
  if block < 7 then (block, [])
  else if block - 7 < 512 then (7, [block - 7])
  else (8, [(block - 7 - 512) / 512, (block - 7 - 512) % 512])

/-- The first clear one of `n` bits from bit `i` on. -/
def firstZero (zmap : ℕ → Bool) : ℕ → ℕ → Option ℕ
  | 0, _ => none
  | n + 1, i => if zmap i then firstZero zmap n (i + 1) else some i

/-- Where a call of `create_block` stands. The indices are those of the indirect blocks it has
not come to. -/
inductive Bmap
  /-- At the entry of the call. -/
  | start (block : ℕ)
  /-- Inside `get_super`, at the entry of `new_block` for an empty slot. -/
  | newBlock (x : Slot) (ks : List ℕ)
  /-- Inside `getblk` for the new zone `j`. -/
  | getblk (x : Slot) (j : ℕ) (ks : List ℕ)
  /-- Inside `brelse` at the end of `new_block`. -/
  | brelseNew (x : Slot) (j : ℕ) (ks : List ℕ)
  /-- Inside `bread` of the indirect block `z`, of which entry `k` is wanted. -/
  | bread (z k : ℕ) (ks : List ℕ)
  /-- Inside `brelse` of an indirect block, with the number `i` from it. -/
  | brelse (i : ℕ) (ks : List ℕ)

/-- What a step of a call leads to. -/
inductive Bmap.Next
  | go (f : Bmap)
  | ret (i : ℕ)

namespace Bmap

/-- Return the zone, or go on to the indirect block. -/
def descend (i : ℕ) : List ℕ → Next
  | [] => .ret i
  | k :: ks => if i = 0 then .ret 0 else .go (.bread i k ks)

/-- After `new_block` has returned `j` for a slot: `i_zone` gets it in any case, an indirect
block only if it is a zone. -/
def assign (w : Zones) (x : Slot) (j : ℕ) (ks : List ℕ) : Zones × Next :=
  match x with
  | .izone n => (w.set (.izone n) j, descend j ks)
  | .entry z k => (if j = 0 then w else w.set (.entry z k) j, .go (.brelse j ks))

/-- The part of a call up to its next sleep. -/
def exec (sb : ZoneSuper) (w : Zones) : Bmap → Zones × Next
  | .start block =>
    if w.zone (path block).1 = 0 then
      (w, .go (.newBlock (.izone (path block).1) (path block).2))
    else (w, descend (w.zone (path block).1) (path block).2)
  | .newBlock x ks =>
    match firstZero w.zmap (8192 * sb.zmapBlocks) 0 with
    | none => assign w x 0 ks
    | some k =>
      -- the bit is set before the number is compared with `s_nzones`
      if sb.nzones ≤ k + sb.firstdatazone - 1 then assign (w.setBit k) x 0 ks
      else (w.setBit k, .go (.getblk x (k + sb.firstdatazone - 1) ks))
  | .getblk x j ks => (w.clearBlock j, .go (.brelseNew x j ks))
  | .brelseNew x j ks => assign w x j ks
  | .bread z k ks =>
    if w.entry z k = 0 then (w, .go (.newBlock (.entry z k) ks))
    else (w, .go (.brelse (w.entry z k) ks))
  | .brelse i ks => (w, descend i ks)

/-- The slot that a call has found empty and has not yet filled. -/
def fills : Bmap → Option Slot
  | .newBlock x _ | .getblk x _ _ | .brelseNew x _ _ => some x
  | _ => none

/-- The slot that a call tests in its next step. -/
def tests : Bmap → Option Slot
  | .start block => some (.izone (path block).1)
  | .bread z k _ => some (.entry z k)
  | _ => none

end Bmap

/-- The tasks with their calls of `create_block` on one inode. -/
structure BmapSystem (τ : Type*) where
  zones : Zones
  /-- The logical block of a call and where the call stands. -/
  call : τ → Option (ℕ × Bmap)
  /-- The logical blocks and zones of the calls that have returned without a read error. -/
  returned : List (ℕ × ℕ)

/-- What can happen next. -/
inductive BmapEvent (τ : Type*)
  /-- A task calls `create_block`. -/
  | createBlock (t : τ) (block : ℕ)
  /-- A task goes on with its call. -/
  | run (t : τ)
  /-- The read of an indirect block fails and the call returns 0. -/
  | readError (t : τ)

namespace BmapSystem

variable {τ : Type*} [DecidableEq τ]

/-- The system after a step of the call of a task. -/
def after (s : BmapSystem τ) (t : τ) (block : ℕ) : Zones × Bmap.Next → BmapSystem τ
  | (w, .go f) => { s with zones := w, call := Function.update s.call t (some (block, f)) }
  | (w, .ret i) =>
    { zones := w, call := Function.update s.call t none, returned := (block, i) :: s.returned }

/-- The effect of an event. A block number beyond the largest file is a panic. -/
def next (sb : ZoneSuper) (s : BmapSystem τ) : BmapEvent τ → Option (BmapSystem τ)
  | .createBlock t block =>
    if s.call t = none ∧ block < maxBlock then
      some { s with call := Function.update s.call t (some (block, .start block)) }
    else none
  | .run t => (s.call t).map fun c => s.after t c.1 (c.2.exec sb s.zones)
  | .readError t =>
    match s.call t with
    | some (_, .bread _ _ _) => some { s with call := Function.update s.call t none }
    | _ => none

/-- One step of the system. -/
def Step (sb : ZoneSuper) (s s' : BmapSystem τ) : Prop := ∃ e, s.next sb e = some s'

/-- A call is about to find a slot empty that another call is about to fill. -/
def Races (s : BmapSystem τ) : BmapEvent τ → Prop
  | .run t => ∃ c ∈ s.call t, ∃ x ∈ c.2.tests, s.zones.get x = 0 ∧
      ∃ t', ∃ c' ∈ s.call t', c'.2.fills = some x
  | _ => False

/-- A step in which no call finds a slot empty that another call is about to fill. -/
def CarefulStep (sb : ZoneSuper) (s s' : BmapSystem τ) : Prop :=
  ∃ e, s.next sb e = some s' ∧ ¬s.Races e

/-- No call is under way. -/
def Quiescent (s : BmapSystem τ) : Prop := ∀ t, s.call t = none

end BmapSystem

end LihaLinux.Fs
