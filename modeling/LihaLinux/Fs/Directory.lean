import LihaLinux.Fs.BmapRuns

/-!
# New names in a directory

`open_namei` with `O_CREAT`, `sys_mkdir`, `sys_mknod` and `sys_link` look for a name with
`find_entry`, make an inode when there is none, and store its number in an entry that `add_entry`
has found. A task can lose the processor inside `bread`, `brelse`, `new_inode`, `new_block` and
`create_block`, and nowhere else; a call is cut into its parts between these places. From the
choice of an entry in `add_entry` to the store of the number there is no such place. A block of the
device holds numbers of zones or directory entries; the two are kept in two tables.
-/

namespace LihaLinux.Fs

/-- `NAME_LEN` characters. -/
abbrev EntryName : Type := Fin 14 → ℕ

/-- `struct dir_entry`. -/
structure DirEntry where
  inode : ℕ
  name : EntryName
  deriving DecidableEq

/-- An entry of a cleared block. -/
def DirEntry.zero : DirEntry := ⟨0, fun _ => 0⟩

/-- The name that `add_entry` stores: cut at `NAME_LEN`, and filled with 0. -/
def padName (name : List ℕ) : EntryName := fun i => name.getD i 0

/-- `match`, with the name cut at `NAME_LEN`. -/
def matchName (name : List ℕ) (de : DirEntry) : Bool :=
  de.inode ≠ 0 && decide ((∀ i : Fin 14, i.val = name.length → de.name i = 0) ∧
    ∀ i : Fin 14, i.val < name.length → name.getD i 0 = de.name i)

/-- `DIR_ENTRIES_PER_BLOCK`. -/
def dirEntries : ℕ := 64

/-- Where a call stands. -/
inductive DirPos
  /-- Inside `bread` in `find_entry`, for the block `b` with the entries from `64 * k` on. -/
  | find (k b : ℕ)
  /-- In `find_entry`, before `bmap` of the logical block `k`. -/
  | next (k : ℕ)
  /-- Inside `bread` in `bmap` of the logical block `k`: entry `a` of the indirect block `z`. -/
  | bread (k z a : ℕ) (ks : List ℕ)
  /-- Inside `brelse` in `bmap`, with the number `i` from an indirect block. -/
  | brelse (k i : ℕ) (ks : List ℕ)
  /-- `find_entry` has found nothing; inside `brelse` or `new_inode`. -/
  | make
  /-- `sys_mkdir` has a zone for the new directory; inside `new_block` or `bread`. -/
  | made
  /-- Inside `bread` in `add_entry`, for the block `b` with the entries from `i` on. -/
  | add (i b : ℕ)
  /-- Inside `create_block` in `add_entry`, for the block with the entries from `i` on. -/
  | create (i : ℕ)
  deriving DecidableEq

/-- A call that gives a name to an inode. -/
structure DirCall where
  name : List ℕ
  /-- The name that `find_entry` compares with. -/
  look : List ℕ
  mkdir : Bool
  /-- The number of the inode. -/
  num : ℕ
  /-- `entries` in `find_entry`. -/
  entries : ℕ
  pos : DirPos
  /-- The names that other calls have stored since `find_entry` began; no code reads this. -/
  since : List EntryName

/-- A directory and the calls on it. -/
structure DirSystem (τ : Type*) where
  /-- `i_num`. -/
  num : ℕ
  /-- `i_zone`, the zone map and the calls of `create_block`. -/
  bmap : BmapSystem τ
  /-- `i_size`. -/
  size : ℕ
  /-- The blocks of the device, as arrays of directory entries. -/
  entry : ℕ → ℕ → DirEntry
  call : τ → Option DirCall
  /-- The entries that `add_entry` has handed out; no code reads this. -/
  given : List ℕ

/-- What can happen next. -/
inductive DirEvent (τ : Type*)
  /-- A call comes to `find_entry`; whether the directory is the root of the task. -/
  | start (t : τ) (name : List ℕ) (mkdir root : Bool) (num : ℕ)
  /-- A call goes on. -/
  | run (t : τ)
  /-- A call fails before `add_entry`. -/
  | fail (t : τ)
  /-- The read of a block fails. -/
  | readError (t : τ)

namespace DirSystem

variable {τ : Type*} [DecidableEq τ]

/-- The call of a task goes on at another place, or is over. -/
def setCall (s : DirSystem τ) (t : τ) (c : Option DirCall) : DirSystem τ :=
  { s with call := Function.update s.call t c }

/-- The call of a task goes on at another place. -/
def goto (s : DirSystem τ) (t : τ) (c : DirCall) (pos : DirPos) : DirSystem τ :=
  s.setCall t (some { c with pos })

/-- `find_entry` for a name: `..` in the root is a `.`. -/
def lookName (name : List ℕ) (root : Bool) : List ℕ :=
  if root ∧ name = [46, 46] then [46] else name

/-- `find_entry` goes on to the logical block `k`, or has found nothing. -/
def toBlock (c : DirCall) (k : ℕ) : DirPos :=
  if dirEntries * k < c.entries then .next k else .make

/-- `bmap` in `find_entry` has come to the number `z`, with the indices `ks` left. A block without
a zone is passed over. -/
def descend (c : DirCall) (k z : ℕ) : List ℕ → DirPos
  | [] => if z = 0 then toBlock c (k + 1) else .find k z
  | a :: ks => if z = 0 then toBlock c (k + 1) else .bread k z a ks

/-- The loop of `find_entry` over a block. -/
def finds (s : DirSystem τ) (c : DirCall) (k b : ℕ) : Bool :=
  (List.range dirEntries).any fun j =>
    dirEntries * k + j < c.entries && matchName c.look (s.entry b j)

/-- The loop of `add_entry` over a block. -/
def freeEntry (s : DirSystem τ) (i b : ℕ) : Option ℕ :=
  (List.range dirEntries).find? fun j => s.size ≤ 16 * (i + j) || (s.entry b j).inode = 0

/-- Store an entry. -/
def setEntry (s : DirSystem τ) (b j : ℕ) (de : DirEntry) : DirSystem τ :=
  { s with entry := Function.update s.entry b (Function.update (s.entry b) j de) }

/-- `add_entry` takes the entry `j` of the block `b`, and the number is stored in it. -/
def store (s : DirSystem τ) (t : τ) (c : DirCall) (i b j : ℕ) : DirSystem τ :=
  { s.setEntry b j ⟨c.num, padName c.name⟩ with
    size := if s.size ≤ 16 * (i + j) then 16 * (i + j + 1) else s.size
    call := fun u => if u = t then none else
      (s.call u).map fun d => { d with since := padName c.name :: d.since }
    given := (i + j) :: s.given }

/-- The start of `add_entry`. -/
def addEntry (s : DirSystem τ) (t : τ) (c : DirCall) : DirSystem τ :=
  if s.bmap.zones.zone 0 = 0 then s.setCall t none
  else s.goto t c (.add 0 (s.bmap.zones.zone 0))

/-- `add_entry` calls `create_block` for the block with the entries from `i` on. A block beyond the
largest file is a panic. -/
def create (sb : ZoneSuper) (s : DirSystem τ) (t : τ) (c : DirCall) (i : ℕ) :
    Option (DirSystem τ) :=
  (s.bmap.next sb (.createBlock t (i / dirEntries))).map fun b =>
    { s with bmap := b }.goto t c (.create i)

/-- The entries of a new directory. -/
def dotEntries (num parent : ℕ) : ℕ → DirEntry := fun j =>
  if j = 0 then ⟨num, padName [46]⟩ else if j = 1 then ⟨parent, padName [46, 46]⟩ else .zero

/-- `sys_mkdir` takes a zone and fills it. -/
def mkdirBlock (sb : ZoneSuper) (s : DirSystem τ) (t : τ) (c : DirCall) : DirSystem τ :=
  match firstZero s.bmap.zones.zmap (8192 * sb.zmapBlocks) 0 with
  | none => s.setCall t none
  | some k =>
    let s' := { s with bmap := { s.bmap with zones := s.bmap.zones.setBit k } }
    if sb.nzones ≤ k + sb.firstdatazone - 1 then s'.setCall t none
    else { s' with entry :=
      Function.update s.entry (k + sb.firstdatazone - 1) (dotEntries c.num s.num) }.goto t c .made

/-- The entries after the next step of a call of `create_block`, which may clear a block. -/
def cleared (s : DirSystem τ) (t : τ) : ℕ → ℕ → DirEntry :=
  match s.bmap.call t with
  | some (_, .getblk _ j _) => Function.update s.entry j fun _ => .zero
  | _ => s.entry

/-- A call of `create_block` goes on; when it is over, `add_entry` goes on with the block. -/
def runCreate (sb : ZoneSuper) (s : DirSystem τ) (t : τ) (c : DirCall) (i : ℕ) :
    Option (DirSystem τ) :=
  (s.bmap.next sb (.run t)).map fun b =>
    let s' := { s with bmap := b, entry := s.cleared t }
    if (b.call t).isSome then s'
    else
      match b.returned.head? with
      | some (_, z) => if z = 0 then s'.setCall t none else s'.goto t c (.add i z)
      | none => s'

/-- The part of a call up to its next sleep. -/
def runCall (sb : ZoneSuper) (s : DirSystem τ) (t : τ) (c : DirCall) : Option (DirSystem τ) :=
  match c.pos with
  | .find k b => some (if s.finds c k b then s.setCall t none else s.goto t c (toBlock c (k + 1)))
  | .next k =>
    if k < maxBlock then
      some (s.goto t c (descend c k (s.bmap.zones.zone (path k).1) (path k).2))
    else none
  | .bread k z a ks => some (s.goto t c (.brelse k (s.bmap.zones.entry z a) ks))
  | .brelse k i ks => some (s.goto t c (descend c k i ks))
  | .make => some (if c.mkdir then s.mkdirBlock sb t c else s.addEntry t c)
  | .made => some (s.addEntry t c)
  | .add i b =>
    match s.freeEntry i b with
    | some j => some (s.store t c i b j)
    | none => s.create sb t c (i + dirEntries)
  | .create i => s.runCreate sb t c i

/-- The call of a task after the read of a block has failed. -/
def readFails (sb : ZoneSuper) (s : DirSystem τ) (t : τ) (c : DirCall) : Option (DirSystem τ) :=
  match c.pos with
  | .find k _ => some (s.goto t c (if k = 0 then .make else toBlock c (k + 1)))
  | .bread k _ _ _ => some (s.goto t c (toBlock c (k + 1)))
  | .add i _ => if i = 0 then some (s.setCall t none) else s.create sb t c (i + dirEntries)
  | .create _ => (s.bmap.next sb (.readError t)).map fun b => { s with bmap := b }.setCall t none
  | _ => none

/-- The effect of an event. -/
def next (sb : ZoneSuper) (s : DirSystem τ) : DirEvent τ → Option (DirSystem τ)
  | .start t name mkdir root num =>
    if s.call t = none ∧ name ≠ [] ∧ num ≠ 0 then
      let c : DirCall := {
        name, look := lookName name root, mkdir, num, entries := s.size / 16
        pos := .find 0 (s.bmap.zones.zone 0), since := [] }
      some (s.goto t c (if s.bmap.zones.zone 0 = 0 then .make else c.pos))
    else none
  | .run t => (s.call t).bind fun c => s.runCall sb t c
  | .fail t => (s.call t).bind fun c => if c.pos = .make then some (s.setCall t none) else none
  | .readError t => (s.call t).bind fun c => s.readFails sb t c

/-- One step of the system. -/
def Step (sb : ZoneSuper) (s s' : DirSystem τ) : Prop := ∃ e, s.next sb e = some s'

end DirSystem

end LihaLinux.Fs
