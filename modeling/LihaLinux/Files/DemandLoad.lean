import LihaLinux.Files.CreateBlock
import LihaLinux.Mm.FreeFrames
import LihaLinux.Mm.KernelStores

/-!
# Demand loading

`do_no_page` fills a free page with four blocks of the executable, which `bmap` finds and
`bread_page` reads, clears what lies behind the data of the program, and maps the page. The
memory manager and the file system are the models of their own directories; a program of the
file system carries the state of the memory along.
-/

namespace LihaLinux.Files

open LihaLinux.Fs (maxBlock path)

/-! ### `bread_page` -/

/-- `COPYBLK(bh->b_data,address)`, for block `i` of a page. -/
def copyBlk (d : ℕ → ℕ) (page i : ℕ) (s : Mm.State) : Mm.State :=
  s.setPage page fun w =>
    if 256 * i ≤ w ∧ w < 256 * i + 256 then
      Mm.ofBytes fun b => BitVec.ofNat 8 (d (4 * (w - 256 * i) + b))
    else s.mem page w

/-- The first loop of `bread_page`: get the buffers of the blocks and read them. -/
def startReads (dev : ℕ) : List ℕ → K (List (Option Bh))
  | [] => pure []
  | b :: nr =>
    if b = 0 then do
      let bhs ← startReads dev nr
      pure (none :: bhs)
    else do
      let bh ← getblk dev b
      readBlock bh
      let bhs ← startReads dev nr
      pure (some bh :: bhs)

/-- The second loop of `bread_page`: copy the blocks from block `i` of the page on and give the
buffers back. -/
def copyReads (page : ℕ) : ℕ → List (Option Bh) → Mm.State → K Mm.State
  | _, [], mm => pure mm
  | i, none :: bhs, mm => copyReads page (i + 1) bhs mm
  | i, some bh :: bhs, mm => do
    let uptodate ← Prog.read fun s => s.uptodate bh
    let d ← Prog.read fun s => s.data bh
    brelse bh
    copyReads page (i + 1) bhs (if uptodate then copyBlk d page i mm else mm)

/-- `bread_page`. -/
def breadPage (page dev : ℕ) (nr : List ℕ) (mm : Mm.State) : K Mm.State := do
  let bhs ← startReads dev nr
  copyReads page 0 bhs mm

/-! ### `do_no_page` -/

/-- The loop over `nr[i]`: the zones of `n` blocks from `block` on. -/
def bmapRange (inode : ℕ) : ℕ → ℕ → K (List ℕ)
  | 0, _ => pure []
  | n + 1, block => do
    let z ← bmap inode block
    let nr ← bmapRange inode n (block + 1)
    pure (z :: nr)

/-- `i = tmp + 4096 - current->end_data`, a signed difference of unsigned numbers. -/
def tailCount (tmp endData : ℕ) : ℤ := ((tmp : ℤ) + 4096 - endData).bmod (2 ^ 32)

/-- The part of `do_no_page` from the free page on. -/
def loadPage (t : Mm.Task) (inode tmp address page : ℕ) (mm : Mm.State) : K (Mm.Result Unit) := do
  let nr ← bmapRange inode 4 (1 + tmp / 1024)
  let dev ← Prog.read fun s => (s.inode inode).dev
  let mm ← breadPage page dev nr mm
  pure (Mm.putOrOom (Mm.clearTail page (tailCount tmp t.endData).toNat mm) page address)

/-- `do_no_page(error_code,address)`. -/
def doNoPage (k : Mm.Kernel) (current address : ℕ) (mm : Mm.State) : K (Mm.Result Unit) :=
  match Mm.noPageBegin k current address mm, k.task current with
  | .ok (some page) mm, some t =>
    loadPage t (t.executable.getD 0) (address - address % 4096 - Mm.slotBase current)
      (address - address % 4096) page mm
  | .ok _ mm, _ => pure (.ok () mm)
  | .oom mm, _ => pure (.oom mm)
  | .panic reason, _ => pure (.panic reason)

/-! ### The bytes of a file -/

/-- The byte of a file at offset `n`; holes are read as 0. -/
def Fs.fileByte (s : Fs) (inode n : ℕ) : BitVec 8 :=
  if s.zoneIn inode (path (n / 1024)) = 0 then 0
  else BitVec.ofNat 8 (s.bytes ⟨(s.inode inode).dev, s.zoneIn inode (path (n / 1024))⟩ (n % 1024))

variable {s s' : Fs} {mm : Mm.State} {dev i inode page : ℕ}

theorem SameFiles.fileByte (h : SameFiles s s') (inode n : ℕ) :
    s'.fileByte inode n = s.fileByte inode n := by
  rw [Fs.fileByte, Fs.fileByte, h.zoneIn, h.bytes, h.inode]

/-- `bmap` for several blocks. -/
theorem bmapRange_run (hbad : ∀ b, s.bad b = false) (inode n block : ℕ)
    (hn : block + n ≤ maxBlock) :
    ∃ s', bmapRange inode n block s =
        .ok ((List.range' block n).map fun b => s.zoneIn inode (path b), s') ∧
      SameFiles s s' := by
  induction n generalizing block s with
  | zero => exact ⟨s, rfl, SameFiles.refl s⟩
  | succ n ih =>
    obtain ⟨s₁, hrun, hsame⟩ := bmap_run hbad inode (show block < maxBlock by omega)
    have hbad₁ : ∀ b, s₁.bad b = false := by
      rw [hsame.bad]
      exact hbad
    obtain ⟨s', hrun', hsame'⟩ := ih hbad₁ (block + 1) (by omega)
    rw [hsame.zoneIn] at hrun'
    refine ⟨s', ?_, hsame.trans hsame'⟩
    rw [bmapRange, Prog.bind_run hrun, Prog.bind_run hrun', List.range'_succ, List.map_cons]
    rfl

/-- The buffer that `bread_page` gets for a zone. -/
def bufferOf (dev z : ℕ) : Option Bh := if z = 0 then none else some ⟨dev, z⟩

/-- The buffers have been got and read. -/
structure Started (bhs : List (Option Bh)) (s s' : Fs) : Prop where
  bytes : s'.bytes = s.bytes
  bad : s'.bad = s.bad
  bcount : ∀ bh, s'.bcount bh = s.bcount bh + bhs.count (some bh)
  kept : ∀ bh, s.uptodate bh = true → s'.uptodate bh = true
  uptodate : ∀ bh, some bh ∈ bhs → s'.uptodate bh = true

theorem startReads_run (dev : ℕ) (hbad : ∀ b, s.bad b = false) (nr : List ℕ) :
    ∃ s', startReads dev nr s = .ok (nr.map (bufferOf dev), s') ∧
      Started (nr.map (bufferOf dev)) s s' := by
  induction nr generalizing s with
  | nil =>
    refine ⟨s, rfl, rfl, rfl, fun bh => ?_, fun _ h => h, fun bh h => ?_⟩
    · rw [List.map_nil, List.count_nil, Nat.add_zero]
    · exact absurd h List.not_mem_nil
  | cons z nr ih =>
    rw [startReads, List.map_cons, bufferOf]
    by_cases hz : z = 0
    · obtain ⟨s', hrun, h⟩ := ih hbad
      refine ⟨s', ?_, h.bytes, h.bad, fun bh => ?_, h.kept, fun bh hbh => ?_⟩
      · rw [if_pos hz, if_pos hz, Prog.bind_run hrun]
        rfl
      · rw [h.bcount, if_pos hz, List.count_cons_of_ne (by simp)]
      · rw [if_pos hz] at hbh
        exact h.uptodate bh ((List.mem_cons.mp hbh).resolve_left (by simp))
    · have hheld := held_same s ⟨dev, z⟩
      have hup := held_uptodate hbad ⟨dev, z⟩
      obtain ⟨s', hrun, h⟩ := ih (s := s.held ⟨dev, z⟩) (by rw [hheld.bad]; exact hbad)
      have hread : readBlock ⟨dev, z⟩ (s.setCount ⟨dev, z⟩ (s.bcount ⟨dev, z⟩ + 1)) =
          .ok ((), s.held ⟨dev, z⟩) := rfl
      refine ⟨s', ?_, h.bytes.trans (held_bytes ..), h.bad.trans hheld.bad, fun bh => ?_,
        fun bh hbh => h.kept bh ?_, fun bh hbh => ?_⟩
      · rw [if_neg hz, if_neg hz, Prog.bind_run (getblk_run ..), Prog.bind_run hread,
          Prog.bind_run hrun]
        rfl
      · rw [h.bcount, held_bcount, if_neg hz]
        by_cases heq : bh = ⟨dev, z⟩
        · rw [heq, Function.update_self, List.count_cons_self]
          omega
        · rw [Function.update_of_ne heq, List.count_cons_of_ne]
          simpa using Ne.symm heq
      · rw [hup]
        by_cases heq : bh = ⟨dev, z⟩
        · rw [heq, Function.update_self]
        · rwa [Function.update_of_ne heq]
      · rw [if_neg hz] at hbh
        rcases List.mem_cons.mp hbh with heq | hmem
        · cases heq
          refine h.kept _ ?_
          rw [hup, Function.update_self]
        · exact h.uptodate bh hmem

/-- The bytes of a page after a block has been copied. -/
theorem copyBlk_byte (d : ℕ → ℕ) (page i : ℕ) (mm : Mm.State) (x : ℕ) :
    (copyBlk d page i mm).byte page x =
      if x / 1024 = i then BitVec.ofNat 8 (d (x % 1024)) else mm.byte page x := by
  unfold copyBlk Mm.State.byte
  rw [Mm.State.mem_setPage_self]
  by_cases hx : x / 1024 = i
  · rw [if_pos hx, if_pos (by omega), Mm.byteOf_ofBytes _ (by omega)]
    congr 2
    omega
  · rw [if_neg hx, if_neg (by omega)]

theorem setPage_self (mm : Mm.State) (page : ℕ) : mm.setPage page (mm.mem page) = mm := by
  unfold Mm.State.setPage
  congr
  funext p w
  split_ifs with hp
  · rw [hp]
  · rfl

/-- A byte of a page of which the blocks from block `i` on come from buffers. -/
def loadedByte (s : Fs) (mm : Mm.State) (page i : ℕ) (bhs : List (Option Bh)) (x : ℕ) : BitVec 8 :=
  if i ≤ x / 1024 then
    bhs[x / 1024 - i]?.join.elim (mm.byte page x) fun bh => BitVec.ofNat 8 (s.bytes bh (x % 1024))
  else mm.byte page x

/-- The next block of the page. -/
theorem loadedByte_cons {mm₁ : Mm.State} (bh : Option Bh) (bhs : List (Option Bh)) (x : ℕ)
    (hother : x / 1024 ≠ i → mm₁.byte page x = mm.byte page x)
    (hblock : x / 1024 = i →
      mm₁.byte page x = bh.elim (mm.byte page x) fun bh => BitVec.ofNat 8 (s.bytes bh (x % 1024))) :
    loadedByte s mm₁ page (i + 1) bhs x = loadedByte s mm page i (bh :: bhs) x := by
  rw [loadedByte, loadedByte]
  rcases Nat.lt_trichotomy (x / 1024) i with hlt | heq | hlt
  · rw [if_neg (by omega), if_neg (by omega), hother (by omega)]
  · have hzero : x / 1024 - i = 0 := by omega
    rw [if_neg (by omega), if_pos (by omega), hblock heq, hzero, List.getElem?_cons_zero]
    rfl
  · have hsucc : x / 1024 - i = x / 1024 - (i + 1) + 1 := by omega
    rw [if_pos (by omega), if_pos (by omega), hother (by omega), hsucc, List.getElem?_cons_succ]

/-- What `bread_page` puts into a page: the blocks that have a buffer. -/
theorem copyReads_run (page : ℕ) (bhs : List (Option Bh)) (i : ℕ) (mm : Mm.State)
    (hup : ∀ bh, some bh ∈ bhs → s.uptodate bh = true)
    (hcount : ∀ bh, bhs.count (some bh) ≤ s.bcount bh) :
    ∃ mm' s', copyReads page i bhs mm s = .ok (mm', s') ∧ (∃ c, mm' = mm.setPage page c) ∧
      ∀ x, mm'.byte page x = loadedByte s mm page i bhs x := by
  induction bhs generalizing i mm s with
  | nil =>
    refine ⟨mm, s, rfl, ⟨mm.mem page, (setPage_self mm page).symm⟩, fun x => ?_⟩
    rw [loadedByte, List.getElem?_nil]
    split_ifs <;> rfl
  | cons bh bhs ih =>
    cases bh with
    | none =>
      obtain ⟨mm', s', hrun, hpage, hbytes⟩ := ih (s := s) (i + 1) mm
        (fun b hb => hup b (List.mem_cons_of_mem _ hb))
        fun b => by
          have hb := hcount b
          rwa [List.count_cons_of_ne (by simp)] at hb
      refine ⟨mm', s', hrun, hpage, fun x => ?_⟩
      rw [hbytes]
      exact loadedByte_cons none bhs x (fun _ => rfl) fun _ => rfl
    | some bh =>
      have hbh := hcount bh
      rw [List.count_cons_self] at hbh
      obtain ⟨n, hn⟩ := Nat.exists_eq_add_of_lt (Nat.lt_of_lt_of_le (Nat.zero_lt_succ _) hbh)
      rw [Nat.zero_add] at hn
      have hupbh := hup bh List.mem_cons_self
      obtain ⟨mm', s', hrun, ⟨c, hpage⟩, hbytes⟩ := ih (s := s.setCount bh n) (i + 1)
        (copyBlk (s.data bh) page i mm) (fun b hb => hup b (List.mem_cons_of_mem _ hb))
        fun b => by
          have hb := hcount b
          change _ ≤ Function.update s.bcount bh n b
          by_cases heq : b = bh
          · rw [heq, Function.update_self]
            omega
          · rw [Function.update_of_ne heq]
            rwa [List.count_cons_of_ne (by simpa using Ne.symm heq)] at hb
      refine ⟨mm', s', ?_, ⟨c, ?_⟩, fun x => ?_⟩
      · rw [copyReads, Prog.read_run, Prog.read_run, hupbh, Prog.bind_run (brelse_run hn),
          if_pos rfl]
        exact hrun
      · rw [hpage, copyBlk, Mm.State.setPage_setPage]
      · rw [hbytes]
        have hsame : (s.setCount bh n).bytes = s.bytes := rfl
        rw [loadedByte, hsame, ← loadedByte]
        refine loadedByte_cons (some bh) bhs x (fun hx => ?_) fun hx => ?_
        · rw [copyBlk_byte, if_neg hx]
        · rw [copyBlk_byte, if_pos hx, Option.elim_some, Fs.bytes, hupbh, if_pos rfl]

/-- `bread_page` into a page of zeros. -/
theorem breadPage_run (page dev : ℕ) (hbad : ∀ b, s.bad b = false) (nr : List ℕ) (mm : Mm.State)
    (hclear : ∀ w, mm.mem page w = 0) :
    ∃ mm' s', breadPage page dev nr mm s = .ok (mm', s') ∧ (∃ c, mm' = mm.setPage page c) ∧
      ∀ x, x / 1024 < nr.length → mm'.byte page x =
        if nr[x / 1024]! = 0 then 0
        else BitVec.ofNat 8 (s.bytes ⟨dev, nr[x / 1024]!⟩ (x % 1024)) := by
  obtain ⟨s₁, hstart, h⟩ := startReads_run dev hbad nr
  obtain ⟨mm', s', hrun, hpage, hbytes⟩ := copyReads_run (s := s₁) page
    (nr.map (bufferOf dev)) 0 mm h.uptodate fun bh => by
      rw [h.bcount]
      omega
  refine ⟨mm', s', (Prog.bind_run hstart).trans hrun, hpage, fun x hx => ?_⟩
  have hzero : mm.byte page x = 0 := by
    rw [Mm.State.byte, hclear, Mm.byteOf]
    simp
  rw [hbytes, loadedByte, if_pos (Nat.zero_le _), hzero, h.bytes, Nat.sub_zero, List.getElem?_map,
    List.getElem?_eq_getElem hx, getElem!_pos nr _ hx, Option.map_some, Option.join_some, bufferOf]
  split_ifs <;> rfl

/-! ### The page that is mapped -/

theorem tailCount_toNat {tmp endData : ℕ} (hend : endData ≤ 0x3000000) (hin : tmp < endData) :
    (tailCount tmp endData).toNat = tmp + 4096 - endData := by
  rw [tailCount, Int.bmod_eq_of_le (by omega) (by omega)]
  omega

open Mm (Inv InSlot Move UserAddress frame slotBase) in
/-- Demand loading produces the file image. A fault of a task at a missing page of its program
that cannot be shared ends with a page mapped there that holds the bytes of the file behind its
header up to the end of the data, and 0 behind that. -/
theorem doNoPage_loads {lo hi : ℕ} {held : Finset ℕ} {k : Mm.Kernel} {t : Mm.Task}
    {current address tmp : ℕ} (hinv : Inv lo hi ⟨mm, held⟩) (hcur : 1 ≤ current ∧ current < 64)
    (ht : k.task current = some t) (hexe : t.executable = some inode)
    (hend : t.endData ≤ 0x3000000) (hslot : InSlot current address)
    (htmp : tmp = address - address % 4096 - slotBase current) (hin : tmp < t.endData)
    (hempty : mm.pageOf address = none) (hshare : Mm.sharePage k current tmp mm = .ok false mm)
    (hfree : mm.Free 2) (hbad : ∀ b, s.bad b = false) :
    ∃ mm' s' w, doNoPage k current address mm s = .ok (.ok () mm', s') ∧
      mm'.pageOf address = some w ∧
      ∀ j < 4096, mm'.byte (frame w) j =
        if tmp + j < t.endData then s.fileByte inode (1024 + tmp + j) else 0 := by
  -- the free page
  obtain ⟨page, mm₁, hget, hfree₁⟩ := hfree.getFreePage
  obtain ⟨htake, hrange, -, -, -, -, hentry₁, hclear, -⟩ := Mm.getFreePage_spec hinv hget
  have h₁ := htake.inv hinv
  have hpage : page ∈ insert page held := Finset.mem_insert_self page held
  have hbegin : Mm.noPageBegin k current address mm = .ok (some page) mm₁ := by
    have hgo : ¬(t.executable = none ∨
        t.endData ≤ address - address % 4096 - slotBase current) := by
      rw [hexe, ← htmp]
      simp only [reduceCtorEq, false_or]
      omega
    simp only [Mm.noPageBegin, ht]
    rw [if_neg hgo, ← htmp, Mm.Result.bind_of_ok hshare]
    simp only [Bool.false_eq_true, if_false, hget]
  -- its blocks
  obtain ⟨s₂, hmap, hsame⟩ := bmapRange_run hbad inode 4 (1 + tmp / 1024) (by
    rw [maxBlock]
    omega)
  have hbad₂ : ∀ b, s₂.bad b = false := by
    rw [hsame.bad]
    exact hbad
  obtain ⟨mm₂, s₃, hread, ⟨c, hc⟩, hbytes⟩ := breadPage_run page
    (s₂.inode inode).dev hbad₂
    ((List.range' (1 + tmp / 1024) 4).map fun b => s.zoneIn inode (path b)) mm₁ hclear
  obtain ⟨c', hc'⟩ := Mm.clearTail_eq_setPage mm₁ page c (tmp + 4096 - t.endData)
  rw [← hc] at hc'
  -- the page is put into the page table
  have hfill : Move ⟨mm₁, insert page held⟩ ⟨mm₁.setPage page c', insert page held⟩ :=
    .fill hpage c'
  rw [← hc'] at hfill
  have h₃ := hfill.inv h₁
  have hentry₃ : (Mm.clearTail page (tmp + 4096 - t.endData) mm₂).entry = mm₁.entry := by
    rw [hc']
    exact (Mm.State.table_entry_setPage (h₁.held_ge_two hpage).1 (h₁.held_ne_table hpage) c').2
  have hempty₃ : (Mm.clearTail page (tmp + 4096 - t.endData) mm₂).pageOf
      (address - address % 4096) = none := by
    rw [Mm.State.pageOf, hentry₃, hentry₁, ← Mm.State.pageOf, hslot.pageOf]
    exact hempty
  have hfree₃ : (Mm.clearTail page (tmp + 4096 - t.endData) mm₂).Free
      (0 + (Mm.clearTail page (tmp + 4096 - t.endData) mm₂).tableNeed
        (address - address % 4096)) := by
    have hone : (Mm.clearTail page (tmp + 4096 - t.endData) mm₂).tableNeed
        (address - address % 4096) ≤ 1 := by
      rw [Mm.State.tableNeed]
      split_ifs <;> omega
    refine (hfree₁.congr ?_).mono (by omega)
    rw [hc', Mm.State.memMap_setPage]
  obtain ⟨mm', hput, -, hrew, hmem, -⟩ := Mm.putPage_ok h₃ hpage
    (hslot.page.1.user hcur.1 hcur.2) hempty₃ hfree₃
  have hput' : Mm.putOrOom (Mm.clearTail page (tmp + 4096 - t.endData) mm₂) page
      (address - address % 4096) = .ok () mm' := by
    obtain ⟨n, hn⟩ := Nat.exists_eq_succ_of_ne_zero (h₁.held_ge_two hpage).1
    rw [Mm.putOrOom, hput, hn]
  refine ⟨mm', s₃, Mm.pageAddr page ||| 7#32, ?_, ?_, fun j hj => ?_⟩
  · have hload : loadPage t inode tmp (address - address % 4096) page mm₁ s =
        .ok (.ok () mm', s₃) := by
      rw [loadPage, Prog.bind_run hmap, Prog.read_run, Prog.bind_run hread,
        tailCount_toNat hend hin, hput']
      rfl
    rw [doNoPage, hbegin, ht]
    simp only [hexe, Option.getD_some, ← htmp]
    exact hload
  · rw [← hslot.pageOf]
    exact hrew.self
  · have hlt : page < 2 ^ 20 := by
      obtain ⟨hlow, hf, -⟩ := Mm.getFreePage_some hget
      rw [Mm.lowMem, Mm.pagingPages] at hf
      omega
    have hpages : tmp % 4096 = 0 := by
      obtain ⟨hlow, -⟩ := hslot
      rw [slotBase] at htmp hlow
      omega
    have hdiv : (1024 + tmp + j) / 1024 = 1 + tmp / 1024 + j / 1024 := by omega
    have hmod : (1024 + tmp + j) % 1024 = j % 1024 := by omega
    have hnth : ((List.range' (1 + tmp / 1024) 4).map fun b => s.zoneIn inode (path b))[j / 1024]! =
        s.zoneIn inode (path (1 + tmp / 1024 + j / 1024)) := by
      rw [getElem!_pos _ _ (by simpa using by omega)]
      simp
    have hbyte := hbytes j (by simpa using by omega)
    rw [hnth, hsame.bytes, hsame.inode] at hbyte
    rw [Mm.frame_fresh hlt, Mm.State.byte, hmem page hpage, ← Mm.State.byte,
      Mm.clearTail_byte _ _ (by omega) hj, hbyte, Fs.fileByte, hdiv, hmod]
    split_ifs <;> first | rfl | omega


open Mm (TaskBoot TaskStep sampleFiles sampleExeced slotBase frame lowMem pagingPages) in
/-- The first page of a program is loaded from `smallFile`. -/
theorem doNoPage_loads_sample : ∃ mm' s' w,
    Reachable (TaskBoot 256 4096) (TaskStep sampleFiles) sampleExeced ∧
    doNoPage sampleExeced 1 (slotBase 1) sampleExeced.mm smallFile = .ok (.ok () mm', s') ∧
    mm'.pageOf (slotBase 1) = some w ∧
    ∀ j < 4096, mm'.byte (frame w) j =
      if 0 + j < 4096 then smallFile.fileByte 1 (1024 + 0 + j) else 0 := by
  have hk : Reachable (TaskBoot 256 4096) (TaskStep sampleFiles) sampleExeced :=
    Mm.sampleExeced_reachable fun op _ k k' hen hrun => ⟨op, hen, hrun⟩
  have hinv := Mm.taskReachable_inv (by decide) (by decide) hk
  have hempty : sampleExeced.mm.pageOf (slotBase 1) = none := by decide +kernel
  have hshare : Mm.sharePage sampleExeced 1 0 sampleExeced.mm = .ok false sampleExeced.mm := by
    have hcount : sampleExeced.iCount 1 < 2 := by decide +kernel
    rw [Mm.sharePage, Mm.sampleExeced_task]
    exact if_pos hcount
  have hfree : sampleExeced.mm.Free 2 := by
    refine ⟨Finset.range 2, by rw [Finset.card_range], ?_⟩
    decide +kernel
  obtain ⟨mm', s', w, hrun, hpage, hbytes⟩ := doNoPage_loads (s := smallFile) hinv.inv
    (by decide : 1 ≤ 1 ∧ 1 < 64) Mm.sampleExeced_task rfl (by decide)
    (Mm.inSlot_add (show 0 < 0x4000000 by decide)) (by decide) (by decide)
    hempty hshare hfree fun _ => rfl
  exact ⟨mm', s', w, hk, hrun, hpage, hbytes⟩

end LihaLinux.Files
