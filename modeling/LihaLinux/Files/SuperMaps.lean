import Mathlib.Data.List.Range
import Mathlib.Data.Nat.Notation
import Mathlib.Logic.Function.Basic

/-!
# The maps of a superblock

`read_super` with a device whose superblock says anything and whose blocks fail to be read in any
way. The arrays `s_imap` and `s_zmap` have eight elements.
-/

namespace LihaLinux.Super

/-! ### The model -/

/-- `struct d_super_block`. -/
structure DiskSuper where
  ninodes : ℕ
  nzones : ℕ
  imapBlocks : ℕ
  zmapBlocks : ℕ
  firstdatazone : ℕ
  logZoneSize : ℕ
  maxSize : ℕ
  magic : ℕ

/-- A number of two bytes. -/
def word (data : ℕ → ℕ) (p : ℕ) : ℕ := data p + 256 * data (p + 1)

/-- The superblock in a block. -/
def diskSuper (data : ℕ → ℕ) : DiskSuper where
  ninodes := word data 0
  nzones := word data 2
  imapBlocks := word data 4
  zmapBlocks := word data 6
  firstdatazone := word data 8
  logZoneSize := word data 10
  maxSize := word data 12 + 65536 * word data 14
  magic := word data 16

/-- `SUPER_MAGIC`. -/
def superMagic : ℕ := 0x137F

/-- A buffer, by its device and block. -/
abbrev Buf : Type := ℕ × ℕ

/-- `struct super_block`. -/
structure SuperBlock where
  disk : DiskSuper
  imap : ℕ → Option Buf
  zmap : ℕ → Option Buf
  dev : ℕ
  isup : Option ℕ
  imount : Option ℕ
  time : ℕ
  lock : Bool
  rdOnly : Bool
  dirt : Bool

/-- The superblocks and the buffers, with the number of times that `bread` has been called. -/
structure System where
  super : ℕ → SuperBlock
  /-- `b_count`. -/
  count : Buf → ℕ
  /-- `b_data[0]`. -/
  byte : Buf → ℕ
  reads : ℕ

/-- What must not happen. -/
inductive Fault
  /-- An index of an array is out of range. -/
  | index
  /-- A pointer is `NULL`. -/
  | null

namespace System

variable (s : System)

/-- A superblock changes. -/
def setSuper (k : ℕ) (sb : SuperBlock) : System := { s with super := Function.update s.super k sb }

/-- The end of a failure: `s_dev=0` and `free_super`. -/
def giveUp (k : ℕ) : System := s.setSuper k { s.super k with dev := 0, lock := false }

/-- `free_super`. -/
def freeSuper (k : ℕ) : System := s.setSuper k { s.super k with lock := false }

/-- `bread`, which fails when `ok` says so. -/
def bread (ok : ℕ → Bool) (b : Buf) : Option Buf × System :=
  if ok s.reads then
    (some b, { s with reads := s.reads + 1, count := Function.update s.count b (s.count b + 1) })
  else (none, { s with reads := s.reads + 1 })

/-- `brelse`. -/
def brelse : Option Buf → System
  | none => s
  | some b => { s with count := Function.update s.count b (s.count b - 1) }

/-- `b_data[0] |= 1` for an element of a map. -/
def mark : Option Buf → Except Fault System
  | none => .error .null
  | some b => .ok { s with byte := Function.update s.byte b (s.byte b ||| 1) }

/-- The first of `n` superblocks from `k` on with a device number. -/
def findSuper (dev : ℕ) : ℕ → ℕ → Option ℕ
  | 0, _ => none
  | n + 1, k => if (s.super k).dev = dev then some k else findSuper dev n (k + 1)

/-- `brelse` for the eight elements of a map. -/
def releaseMap (map : ℕ → Option Buf) : System :=
  (List.range 8).foldl (fun s i => s.brelse (map i)) s

end System

/-- A map that is being loaded, and the next block of the device. -/
structure Loading where
  block : ℕ
  map : ℕ → Option Buf
  sys : System

variable (ok : ℕ → Bool) (dev : ℕ)

/-- The loop that loads a map, from element `i` on, with `n` blocks to come. -/
def loadMap : ℕ → ℕ → Loading → Except Fault Loading
  | 0, _, l => .ok l
  | n + 1, i, l =>
    if 8 ≤ i then .error .index
    else
      match l.sys.bread ok (dev, l.block) with
      | (none, sys) => .ok { l with map := Function.update l.map i none, sys }
      | (some b, sys) =>
        loadMap n (i + 1) ⟨l.block + 1, Function.update l.map i (some b), sys⟩

/-- The end of `read_super`, when the maps of slot `k` have been loaded. -/
def finish (k : ℕ) (d : DiskSuper) (imaps zmaps : Loading) : Except Fault (Option ℕ × System) :=
  let s := zmaps.sys.setSuper k
    { zmaps.sys.super k with imap := imaps.map, zmap := zmaps.map }
  if zmaps.block ≠ 2 + d.imapBlocks + d.zmapBlocks then
    .ok (none, ((s.releaseMap imaps.map).releaseMap zmaps.map).giveUp k)
  else
    (s.mark (imaps.map 0)).bind fun s =>
      (s.mark (zmaps.map 0)).bind fun s => .ok (some k, s.freeSuper k)

/-- `read_super` after the superblock has been copied to slot `k`. -/
def readMaps (k : ℕ) (d : DiskSuper) (s : System) : Except Fault (Option ℕ × System) :=
  (loadMap ok dev d.imapBlocks 0 ⟨2, fun _ => none, s⟩).bind fun imaps =>
    (loadMap ok dev d.zmapBlocks 0 ⟨imaps.block, fun _ => none, imaps.sys⟩).bind fun zmaps =>
      finish k d imaps zmaps

/-- A slot that `read_super` has taken and locked. -/
def System.takeSlot (s : System) (dev k : ℕ) : System :=
  s.setSuper k { s.super k with
    dev := dev, isup := none, imount := none, time := 0, rdOnly := false, dirt := false
    lock := true }

/-- `read_super`, for a device with the given bytes in block 1. -/
def readSuper (data : ℕ → ℕ) (s : System) : Except Fault (Option ℕ × System) :=
  if dev = 0 then .ok (none, s)
  else
    match s.findSuper dev 8 0, s.findSuper 0 8 0 with
    | some k, _ => .ok (some k, s)
    | none, none => .ok (none, s)
    | none, some k =>
      match (s.takeSlot dev k).bread ok (dev, 1) with
      | (none, s) => .ok (none, s.giveUp k)
      | (some b, s) =>
        let s := (s.setSuper k { s.super k with disk := diskSuper data }).brelse (some b)
        if (diskSuper data).magic ≠ superMagic then .ok (none, s.giveUp k)
        else readMaps ok dev k (diskSuper data) s

/-! ### What is meant -/

/-- The number of calls of `bread` that succeed one after another, from call `r` on, of `n`. -/
def lead : ℕ → ℕ → ℕ
  | 0, _ => 0
  | n + 1, r => if ok r then lead n (r + 1) + 1 else 0

/-- The maps of the superblock fit in the arrays, as far as they are loaded, and they are not empty
if all are. The first map is loaded from call `r` of `bread` on. -/
def MapsFit (d : DiskSuper) (r : ℕ) : Prop :=
  let i := lead ok d.imapBlocks r
  let z := lead ok d.zmapBlocks (r + min d.imapBlocks (i + 1))
  (d.imapBlocks ≤ 8 ∨ i < 8) ∧ (d.zmapBlocks ≤ 8 ∨ z < 8) ∧
    (i < d.imapBlocks ∨ z < d.zmapBlocks ∨ d.imapBlocks ≠ 0 ∧ d.zmapBlocks ≠ 0)

/-- A superblock with all maps of its device. -/
structure Complete (sb : SuperBlock) : Prop where
  device : sb.dev = dev
  lock : sb.lock = false
  imap : ∀ i < sb.disk.imapBlocks, sb.imap i = some (dev, 2 + i)
  zmap : ∀ i < sb.disk.zmapBlocks, sb.zmap i = some (dev, 2 + sb.disk.imapBlocks + i)

/-- Nothing has happened: the slots are for the same devices, none is left locked, and the buffers
have the references that they had. -/
structure Undone (s s' : System) : Prop where
  dev : ∀ k, (s'.super k).dev = (s.super k).dev
  lock : ∀ k, (s'.super k).lock = true → (s.super k).lock = true
  count : s'.count = s.count

/-- A call has not gone wrong: it has returned a complete superblock, or has undone all. -/
def Safe (s : System) : Except Fault (Option ℕ × System) → Prop
  | .error _ => False
  | .ok (none, s') => Undone s s'
  | .ok (some k, s') => Complete dev (s'.super k)

/-! ### Superblocks -/

section Slots

variable {k k' : ℕ} (s : System) (sb : SuperBlock)

theorem setSuper_self : (s.setSuper k sb).super k = sb := Function.update_self ..

theorem setSuper_of_ne (h : k' ≠ k) : (s.setSuper k sb).super k' = s.super k' :=
  Function.update_of_ne h ..

theorem giveUp_self : (s.giveUp k).super k = { s.super k with dev := 0, lock := false } :=
  setSuper_self ..

theorem giveUp_of_ne (h : k' ≠ k) : (s.giveUp k).super k' = s.super k' := setSuper_of_ne _ _ h

/-- A slot that was free is given up, and the others have not changed. -/
theorem giveUp_undone {s₀ : System} (hfree : (s₀.super k).dev = 0)
    (hsuper : ∀ k' ≠ k, s.super k' = s₀.super k') (hcount : s.count = s₀.count) :
    Undone s₀ (s.giveUp k) := by
  constructor
  · intro k'
    rcases eq_or_ne k' k with rfl | hk'
    · rw [giveUp_self, hfree]
    · rw [giveUp_of_ne s hk', hsuper k' hk']
  · intro k' hlock
    rcases eq_or_ne k' k with rfl | hk'
    · rw [giveUp_self] at hlock
      exact absurd hlock Bool.false_ne_true
    · rwa [giveUp_of_ne s hk', hsuper k' hk'] at hlock
  · exact hcount

end Slots

/-! ### Loading a map -/

section Loading

variable {ok : ℕ → Bool} {dev i n m : ℕ} {l l' : Loading} {s s' : System}

theorem lead_le (n r : ℕ) : lead ok n r ≤ n := by
  induction n generalizing r with
  | zero => exact Nat.le_refl _
  | succ n ih =>
    rw [lead]
    have hrest := ih (r + 1)
    split_ifs <;> omega

/-- `m` blocks have been loaded by at most `n` calls. -/
structure LoadedMap (dev n m i : ℕ) (l l' : Loading) : Prop where
  block : l'.block = l.block + m
  before : ∀ j < i, l'.map j = l.map j
  map : ∀ j < m, l'.map (i + j) = some (dev, l.block + j)
  after : ∀ j, i + m ≤ j → l'.map j = none
  super : l'.sys.super = l.sys.super
  reads : l'.sys.reads = l.sys.reads + min n (m + 1)
  count : ∀ b, l'.sys.count b =
    l.sys.count b + ((List.range m).map fun j => (dev, l.block + j)).count b

/-- The loop leaves the array if and only if eight blocks are loaded and there are more to come. -/
theorem loadMap_spec (hi : i ≤ 8) (hnone : ∀ j, i ≤ j → l.map j = none) :
    if 8 < i + n ∧ 8 ≤ i + lead ok n l.sys.reads then loadMap ok dev n i l = .error .index
    else ∃ l', loadMap ok dev n i l = .ok l' ∧
      LoadedMap dev n (lead ok n l.sys.reads) i l l' := by
  induction n generalizing i l with
  | zero =>
    rw [if_neg (by omega)]
    refine ⟨l, rfl, rfl, fun _ _ => rfl, fun j hj => absurd hj (Nat.not_lt_zero j), hnone, rfl,
      ?_, fun b => rfl⟩
    rw [lead, Nat.zero_min]
    rfl
  | succ n ih =>
    rw [loadMap, lead]
    by_cases hfull : 8 ≤ i
    · rw [if_pos ⟨by omega, by omega⟩, if_pos hfull]
    · rw [if_neg hfull, System.bread]
      by_cases hok : ok l.sys.reads = true
      · rw [if_pos hok, if_pos hok]
        obtain ⟨l₁, hl₁⟩ : ∃ l₁ : Loading, (⟨l.block + 1,
          Function.update l.map i (some (dev, l.block)),
          { l.sys with
            reads := l.sys.reads + 1
            count := Function.update l.sys.count (dev, l.block)
              (l.sys.count (dev, l.block) + 1) }⟩ : Loading) = l₁ := ⟨_, rfl⟩
        dsimp only
        rw [hl₁]
        have hreads : l₁.sys.reads = l.sys.reads + 1 := by rw [← hl₁]
        have hblock : l₁.block = l.block + 1 := by rw [← hl₁]
        have hmap : l₁.map = Function.update l.map i (some (dev, l.block)) := by rw [← hl₁]
        have hcount : l₁.sys.count = Function.update l.sys.count (dev, l.block)
            (l.sys.count (dev, l.block) + 1) := by rw [← hl₁]
        have hrest := @ih (i + 1) l₁ (by omega) fun j hj => by
          rw [hmap, Function.update_of_ne (by omega)]
          exact hnone j (by omega)
        rw [hreads] at hrest
        by_cases herr : 8 < i + 1 + n ∧ 8 ≤ i + 1 + lead ok n (l.sys.reads + 1)
        · rw [if_pos herr] at hrest
          rw [if_pos ⟨by omega, by omega⟩]
          exact hrest
        · rw [if_neg herr] at hrest
          rw [if_neg (by omega)]
          obtain ⟨l', hrun, hl'⟩ := hrest
          refine ⟨l', hrun, ?_, ?_, ?_, ?_, ?_, ?_, ?_⟩
          · rw [hl'.block, hblock]
            omega
          · intro j hj
            rw [hl'.before j (by omega), hmap, Function.update_of_ne (by omega)]
          · intro j hj
            cases j with
            | zero => rw [Nat.add_zero, hl'.before i (by omega), hmap, Function.update_self,
                Nat.add_zero]
            | succ j =>
              have hj' := hl'.map j (by omega)
              rw [hblock] at hj'
              rw [← Nat.add_assoc, Nat.add_right_comm, hj', Nat.add_right_comm, Nat.add_assoc]
          · intro j hj
            exact hl'.after j (by omega)
          · rw [hl'.super, ← hl₁]
          · rw [hl'.reads, hreads]
            omega
          · intro b
            have hshift : (fun j => (dev, l.block + j)) ∘ Nat.succ =
                fun j => (dev, l.block + 1 + j) := by
              funext j
              rw [Function.comp_apply, Nat.succ_eq_add_one, Nat.add_right_comm, Nat.add_assoc]
            rw [hl'.count, hcount, hblock, List.range_succ_eq_map, List.map_cons, List.map_map,
              hshift, List.count_cons, Nat.add_zero l.block]
            rcases eq_or_ne b (dev, l.block) with rfl | hne
            · rw [Function.update_self, if_pos (beq_self_eq_true _)]
              omega
            · rw [Function.update_of_ne hne, if_neg (by simpa using hne.symm)]
              rfl
      · rw [if_neg hok, if_neg hok]
        rw [if_neg (by omega)]
        refine ⟨_, rfl, rfl, ?_, ?_, ?_, rfl, ?_, fun b => rfl⟩
        · intro j hj
          exact Function.update_of_ne (by omega) ..
        · exact fun j hj => absurd hj (Nat.not_lt_zero j)
        · intro j hj
          dsimp only
          rcases eq_or_ne j i with rfl | hne
          · exact Function.update_self ..
          · rw [Function.update_of_ne hne]
            exact hnone j (by omega)
        · dsimp only
          omega

/-! ### Releasing the maps -/

theorem brelse_count (s : System) (b : Option Buf) (a : Buf) :
    (s.brelse b).count a = s.count a - b.toList.count a := by
  cases b with
  | none => rfl
  | some b =>
    change Function.update s.count b (s.count b - 1) a = _
    rw [Option.toList_some, List.count_singleton]
    rcases eq_or_ne a b with rfl | hne
    · rw [Function.update_self, if_pos (beq_self_eq_true _)]
    · rw [Function.update_of_ne hne, if_neg (by simpa using hne.symm), Nat.sub_zero]

theorem foldl_brelse (map : ℕ → Option Buf) (l : List ℕ) (s : System) :
    (l.foldl (fun s i => s.brelse (map i)) s).super = s.super ∧
      ∀ a, (l.foldl (fun s i => s.brelse (map i)) s).count a =
        s.count a - (l.filterMap map).count a := by
  induction l generalizing s with
  | nil => exact ⟨rfl, fun _ => rfl⟩
  | cons i l ih =>
    obtain ⟨hsuper, hcount⟩ := ih (s.brelse (map i))
    have hsame : (s.brelse (map i)).super = s.super := by
      cases map i with
      | none => rfl
      | some b => rfl
    refine ⟨hsuper.trans hsame, fun a => ?_⟩
    rw [List.foldl_cons, hcount, brelse_count, Nat.sub_sub, List.filterMap_cons]
    cases map i with
    | none => rw [Option.toList_none, List.count_nil, Nat.zero_add]
    | some b =>
      change _ - ([b].count a + (l.filterMap map).count a) = _ - (b :: l.filterMap map).count a
      rw [List.count_singleton, List.count_cons, Nat.add_comm]

/-- The buffers in a map. -/
theorem filterMap_range {map : ℕ → Option Buf} {f : ℕ → Buf} (hm : m ≤ 8)
    (hmap : ∀ j < m, map j = some (f j)) (hafter : ∀ j, m ≤ j → map j = none) :
    (List.range 8).filterMap map = (List.range m).map f := by
  obtain ⟨d, hd⟩ : ∃ d, 8 = m + d := ⟨8 - m, by omega⟩
  have hfirst : (List.range m).filterMap map = (List.range m).map f := by
    rw [← List.filterMap_eq_map]
    apply List.filterMap_congr
    intro j hj
    exact hmap j (List.mem_range.mp hj)
  have hrest : ((List.range d).map fun j => m + j).filterMap map = [] := by
    rw [List.filterMap_eq_nil_iff]
    intro j hj
    obtain ⟨j', -, rfl⟩ := List.mem_map.mp hj
    exact hafter _ (Nat.le_add_right m j')
  rw [hd, List.range_add, List.filterMap_append, hfirst, hrest, List.append_nil]

theorem releaseMap_super (s : System) (map : ℕ → Option Buf) :
    (s.releaseMap map).super = s.super :=
  (foldl_brelse map (List.range 8) s).1

/-- The references to the buffers of a map are given back. -/
theorem LoadedMap.releaseMap_count (hl : LoadedMap dev n m 0 l l') (hm : m ≤ 8) (s : System)
    (b : Buf) :
    (s.releaseMap l'.map).count b = s.count b - (l'.sys.count b - l.sys.count b) := by
  have hmap : ∀ j < m, l'.map j = some (dev, l.block + j) := by
    intro j hj
    rw [← hl.map j hj, Nat.zero_add]
  have hafter : ∀ j, m ≤ j → l'.map j = none := by
    intro j hj
    apply hl.after
    omega
  rw [System.releaseMap, (foldl_brelse l'.map (List.range 8) s).2,
    filterMap_range hm hmap hafter, hl.count, Nat.add_sub_cancel_left]

theorem LoadedMap.count_le (hl : LoadedMap dev n m i l l') (b : Buf) :
    l.sys.count b ≤ l'.sys.count b := by
  rw [hl.count]
  exact Nat.le_add_right ..

end Loading

/-! ### The result -/

section Result

variable {ok : ℕ → Bool} {dev k : ℕ} {data : ℕ → ℕ} {d : DiskSuper} {s s₀ : System}
  {imaps zmaps : Loading}

/-- Both maps have been loaded. -/
structure Loaded (ok : ℕ → Bool) (dev : ℕ) (d : DiskSuper) (i z : ℕ) (s : System)
    (imaps zmaps : Loading) : Prop where
  imap : LoadedMap dev d.imapBlocks i 0 ⟨2, fun _ => none, s⟩ imaps
  zmap : LoadedMap dev d.zmapBlocks z 0 ⟨imaps.block, fun _ => none, imaps.sys⟩ zmaps
  imapLe : i ≤ d.imapBlocks
  zmapLe : z ≤ d.zmapBlocks
  imapFits : i ≤ 8
  zmapFits : z ≤ 8

theorem Loaded.super {i z : ℕ} (h : Loaded ok dev d i z s imaps zmaps) :
    zmaps.sys.super = s.super :=
  h.zmap.super.trans h.imap.super

theorem Loaded.block {i z : ℕ} (h : Loaded ok dev d i z s imaps zmaps) :
    zmaps.block = 2 + i + z := by
  rw [h.zmap.block, h.imap.block]

/-- A failure after the maps have been loaded undoes all. -/
theorem Loaded.finish_undone {i z : ℕ} (h : Loaded ok dev d i z s imaps zmaps)
    (hless : i < d.imapBlocks ∨ z < d.zmapBlocks) (hfree : (s₀.super k).dev = 0)
    (hsuper : ∀ k' ≠ k, s.super k' = s₀.super k') (hcount : s.count = s₀.count) :
    Safe dev s₀ (finish k d imaps zmaps) := by
  have hi := h.imapLe
  have hz := h.zmapLe
  rw [finish, if_pos (by rw [h.block]; omega)]
  apply giveUp_undone _ hfree
  · intro k' hk'
    rw [releaseMap_super, releaseMap_super, setSuper_of_ne _ _ hk', h.super, hsuper k' hk']
  · funext b
    rw [h.zmap.releaseMap_count h.zmapFits, h.imap.releaseMap_count h.imapFits, ← hcount]
    have himap : s.count b ≤ imaps.sys.count b := h.imap.count_le b
    have hzmap : imaps.sys.count b ≤ zmaps.sys.count b := h.zmap.count_le b
    change zmaps.sys.count b - (imaps.sys.count b - s.count b) -
      (zmaps.sys.count b - imaps.sys.count b) = s.count b
    omega

/-- When all blocks have been read, the superblock is complete unless a map is empty. -/
theorem Loaded.finish_complete (h : Loaded ok dev d d.imapBlocks d.zmapBlocks s imaps zmaps)
    (hdev : (s.super k).dev = dev) (hdisk : (s.super k).disk = d) :
    Safe dev s₀ (finish k d imaps zmaps) ↔ d.imapBlocks ≠ 0 ∧ d.zmapBlocks ≠ 0 := by
  have himap : ∀ j < d.imapBlocks, imaps.map j = some (dev, 2 + j) := by
    intro j hj
    rw [← h.imap.map j hj, Nat.zero_add]
  have hzmap : ∀ j < d.zmapBlocks, zmaps.map j = some (dev, 2 + d.imapBlocks + j) := by
    intro j hj
    have hmap := h.zmap.map j hj
    rwa [Nat.zero_add, h.imap.block] at hmap
  rw [finish, if_neg (by rw [h.block]; omega)]
  by_cases hi : d.imapBlocks = 0
  · rw [h.imap.after 0 (by omega)]
    constructor
    · exact False.elim
    · exact fun hboth => absurd hi hboth.1
  · rw [himap 0 (by omega)]
    by_cases hz : d.zmapBlocks = 0
    · rw [h.zmap.after 0 (by omega)]
      constructor
      · exact False.elim
      · exact fun hboth => absurd hz hboth.2
    · rw [hzmap 0 (by omega)]
      constructor
      · exact fun _ => ⟨hi, hz⟩
      · intro _
        have hslot : (zmaps.sys.super k).disk = d ∧ (zmaps.sys.super k).dev = dev := by
          rw [h.super]
          exact ⟨hdisk, hdev⟩
        obtain ⟨hd, hdev'⟩ := hslot
        change Complete dev ((System.freeSuper _ k).super k)
        rw [System.freeSuper, setSuper_self]
        change Complete dev
          { (zmaps.sys.setSuper k _).super k with lock := false }
        rw [setSuper_self]
        constructor
        · exact hdev'
        · rfl
        · change ∀ j < (zmaps.sys.super k).disk.imapBlocks, _
          rw [hd]
          exact himap
        · change ∀ j < (zmaps.sys.super k).disk.zmapBlocks,
            zmaps.map j = some (dev, 2 + (zmaps.sys.super k).disk.imapBlocks + j)
          rw [hd]
          exact hzmap

/-- The maps are loaded safely if and only if they fit. -/
theorem readMaps_safe_iff (hfree : (s₀.super k).dev = 0) (hdev : (s.super k).dev = dev)
    (hdisk : (s.super k).disk = d) (hsuper : ∀ k' ≠ k, s.super k' = s₀.super k')
    (hcount : s.count = s₀.count) :
    Safe dev s₀ (readMaps ok dev k d s) ↔ MapsFit ok d s.reads := by
  have himap := @loadMap_spec ok dev 0 d.imapBlocks ⟨2, fun _ => none, s⟩ (by omega)
    fun _ _ => rfl
  have hilead := @lead_le ok d.imapBlocks s.reads
  rw [readMaps, MapsFit]
  obtain ⟨i, hi⟩ : ∃ i, lead ok d.imapBlocks s.reads = i := ⟨_, rfl⟩
  rw [hi] at himap hilead ⊢
  by_cases hover : 8 < d.imapBlocks ∧ 8 ≤ i
  · rw [if_pos (by omega)] at himap
    rw [himap]
    constructor
    · exact False.elim
    · intro hfit
      exact absurd hfit.1 (by omega)
  · rw [if_neg (by omega)] at himap
    obtain ⟨imaps, hrun, hl⟩ := himap
    have hreads : imaps.sys.reads = s.reads + min d.imapBlocks (i + 1) := hl.reads
    rw [hrun]
    have hzmap := @loadMap_spec ok dev 0 d.zmapBlocks ⟨imaps.block, fun _ => none, imaps.sys⟩
      (by omega) fun _ _ => rfl
    have hzlead := @lead_le ok d.zmapBlocks (s.reads + min d.imapBlocks (i + 1))
    change if _ ∧ 8 ≤ 0 + lead ok d.zmapBlocks imaps.sys.reads then _ else _ at hzmap
    rw [hreads] at hzmap
    change Safe dev s₀ (Except.bind (loadMap ok dev d.zmapBlocks 0
      ⟨imaps.block, fun _ => none, imaps.sys⟩) (finish k d imaps)) ↔ _
    obtain ⟨z, hz⟩ : ∃ z, lead ok d.zmapBlocks (s.reads + min d.imapBlocks (i + 1)) = z := ⟨_, rfl⟩
    rw [hz] at hzmap hzlead ⊢
    by_cases hover' : 8 < d.zmapBlocks ∧ 8 ≤ z
    · rw [if_pos (by omega)] at hzmap
      rw [hzmap]
      constructor
      · exact False.elim
      · intro hfit
        exact absurd hfit.2.1 (by omega)
    · rw [if_neg (by omega)] at hzmap
      obtain ⟨zmaps, hrun', hl'⟩ := hzmap
      have hloaded : Loaded ok dev d i z s imaps zmaps :=
        ⟨hl, hl', hilead, hzlead, by omega, by omega⟩
      rw [hrun']
      change Safe dev s₀ (finish k d imaps zmaps) ↔ _
      by_cases hless : i < d.imapBlocks ∨ z < d.zmapBlocks
      · constructor
        · exact fun _ => ⟨by omega, by omega, by omega⟩
        · exact fun _ => hloaded.finish_undone hless hfree hsuper hcount
      · obtain rfl : i = d.imapBlocks := by omega
        obtain rfl : z = d.zmapBlocks := by omega
        rw [hloaded.finish_complete hdev hdisk]
        omega

theorem findSuper_dev {n i : ℕ} (h : s.findSuper dev n i = some k) : (s.super k).dev = dev := by
  induction n generalizing i with
  | zero => exact absurd h.symm (Option.some_ne_none k)
  | succ n ih =>
    rw [System.findSuper] at h
    split_ifs at h with hdev
    · cases h
      exact hdev
    · exact ih h

/-- `read_super` loads the maps of a device with a superblock that has the right number: the device
has no superblock yet, there is a free slot, and block 1 can be read. -/
def LoadsMaps (ok : ℕ → Bool) (dev : ℕ) (data : ℕ → ℕ) (s : System) : Prop :=
  dev ≠ 0 ∧ s.findSuper dev 8 0 = none ∧ s.findSuper 0 8 0 ≠ none ∧ ok s.reads = true ∧
    (diskSuper data).magic = superMagic

/-- `read_super` is safe for every superblock and every pattern of failures if and only if the maps
fit, when those that there are in the table are complete. -/
theorem readSuper_safe_iff (htable : ∀ k, s.findSuper dev 8 0 = some k → Complete dev (s.super k)) :
    Safe dev s (readSuper ok dev data s) ↔
      (LoadsMaps ok dev data s → MapsFit ok (diskSuper data) (s.reads + 1)) := by
  have hsame : Undone s s := ⟨fun _ => rfl, fun _ => id, rfl⟩
  rw [readSuper, LoadsMaps]
  by_cases hdev : dev = 0
  · rw [if_pos hdev]
    exact iff_of_true hsame fun hload => absurd hdev hload.1
  rw [if_neg hdev]
  cases hfound : s.findSuper dev 8 0 with
  | some k =>
    exact iff_of_true (htable k hfound) fun hload => absurd hload.2.1 (Option.some_ne_none k)
  | none =>
    cases hslot : s.findSuper 0 8 0 with
    | none => exact iff_of_true hsame fun hload => absurd rfl hload.2.2.1
    | some k =>
      have hfree := findSuper_dev hslot
      have htake : ∀ k' ≠ k, (s.takeSlot dev k).super k' = s.super k' :=
        fun k' hk' => setSuper_of_ne _ _ hk'
      have hreads : (s.takeSlot dev k).reads = s.reads := rfl
      dsimp only
      rw [System.bread, hreads]
      by_cases hok : ok s.reads = true
      · rw [if_pos hok]
        dsimp only
        obtain ⟨s₁, hs₁⟩ : ∃ s₁ : System, ({ s.takeSlot dev k with
          reads := s.reads + 1
          count := Function.update (s.takeSlot dev k).count (dev, 1)
            ((s.takeSlot dev k).count (dev, 1) + 1) } : System) = s₁ := ⟨_, rfl⟩
        have hsuper₁ : s₁.super = (s.takeSlot dev k).super := by rw [← hs₁]
        have hcount₁ : s₁.count = Function.update s.count (dev, 1) (s.count (dev, 1) + 1) := by
          rw [← hs₁]
          rfl
        have hreads₁ : s₁.reads = s.reads + 1 := by rw [← hs₁]
        rw [hs₁]
        obtain ⟨s₂, hs₂⟩ : ∃ s₂ : System, (s₁.setSuper k
          { (s.takeSlot dev k).super k with
            disk := diskSuper data }).brelse (some (dev, 1)) = s₂ := ⟨_, rfl⟩
        have hsuper₂ : ∀ k' ≠ k, s₂.super k' = s.super k' := by
          intro k' hk'
          rw [← hs₂]
          change (s₁.setSuper k _).super k' = _
          rw [setSuper_of_ne _ _ hk', hsuper₁, htake k' hk']
        have hslot₂ : s₂.super k =
            { (s.takeSlot dev k).super k with disk := diskSuper data } := by
          rw [← hs₂]
          exact setSuper_self ..
        have hcount₂ : s₂.count = s.count := by
          rw [← hs₂]
          funext b
          rw [brelse_count]
          change s₁.count b - _ = _
          rw [hcount₁, Option.toList_some, List.count_singleton]
          rcases eq_or_ne b (dev, 1) with rfl | hne
          · rw [Function.update_self, if_pos (beq_self_eq_true _), Nat.add_sub_cancel]
          · rw [Function.update_of_ne hne, if_neg (by simpa using hne.symm), Nat.sub_zero]
        have hreads₂ : s₂.reads = s.reads + 1 := by
          rw [← hs₂]
          exact hreads₁
        rw [hs₂]
        by_cases hmagic : (diskSuper data).magic = superMagic
        · rw [if_neg (not_not.mpr hmagic), readMaps_safe_iff hfree ?_ ?_ hsuper₂ hcount₂, hreads₂]
          · constructor
            · exact fun hfit _ => hfit
            · exact fun hfit => hfit ⟨hdev, rfl, Option.some_ne_none k, hok, hmagic⟩
          · rw [hslot₂, System.takeSlot, setSuper_self]
          · rw [hslot₂]
        · rw [if_pos hmagic]
          apply iff_of_true
          · exact giveUp_undone _ hfree hsuper₂ hcount₂
          · exact fun hload => absurd hload.2.2.2.2 hmagic
      · rw [if_neg hok]
        apply iff_of_true
        · exact giveUp_undone _ hfree htake rfl
        · exact fun hload => absurd hload.2.2.2.1 hok

/-- No device has a superblock. -/
def noSupers : System where
  super := fun _ => ⟨diskSuper fun _ => 0, fun _ => none, fun _ => none, 0, none, none, 0, false,
    false, false⟩
  count := fun _ => 0
  byte := fun _ => 0
  reads := 0

/-- A superblock with the right number and the given numbers of map blocks. -/
def media (imaps zmaps : ℕ) : ℕ → ℕ
  | 4 => imaps
  | 6 => zmaps
  | 16 => 0x7F
  | 17 => 0x13
  | _ => 0

theorem noSupers_findSuper (n i : ℕ) : noSupers.findSuper 769 n i = none := by
  induction n generalizing i with
  | zero => rfl
  | succ n ih =>
    have hdev : (noSupers.super i).dev ≠ 769 := by
      change 0 ≠ 769
      decide
    rw [System.findSuper, if_neg hdev]
    exact ih (i + 1)

/-- The maps fit when each has three blocks and the second cannot be read completely. -/
theorem readSuper_safe_media :
    Safe 769 noSupers (readSuper (fun r => r != 5) 769 (media 3 3) noSupers) := by
  rw [readSuper_safe_iff fun k hk => by
    rw [noSupers_findSuper] at hk
    exact absurd hk.symm (Option.some_ne_none k)]
  intro _
  rw [MapsFit]
  decide

/-- A map of nine blocks leaves the array, and an empty map has no first block. -/
theorem readSuper_not_safe :
    ¬Safe 769 noSupers (readSuper (fun _ => true) 769 (media 9 1) noSupers) ∧
      ¬Safe 769 noSupers (readSuper (fun _ => true) 769 (media 1 0) noSupers) := by
  have hindex : readSuper (fun _ => true) 769 (media 9 1) noSupers = .error .index := by rfl
  have hnull : readSuper (fun _ => true) 769 (media 1 0) noSupers = .error .null := by rfl
  rw [hindex, hnull]
  exact ⟨id, id⟩

end Result

end LihaLinux.Super
