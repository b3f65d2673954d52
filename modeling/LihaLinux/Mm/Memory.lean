import LihaLinux.Mm.Words

/-!
# The page allocator and the page tables of `mm/memory.c`

Physical memory is a family of 4096-byte pages of 1024 words each. Page 0 is
the page directory (`_pg_dir = 0`); page tables and user pages live in the same
memory. Physical addresses are all page aligned in the source and are modelled
by page numbers; linear addresses are byte addresses. `mem_map` is an array of
8-bit counters, so its updates are taken modulo 256.

A function that may call `oom()` or `panic()` does not return there: `oom`
kills the current task through `do_exit`, `panic` stops the kernel.
-/

namespace LihaLinux.Mm

/-- `LOW_MEM`, as a page number. -/
def lowMem : ℕ := 256

/-- `PAGING_PAGES`: the length of `mem_map`. -/
def pagingPages : ℕ := 3840

/-- `USED`: the counter of a page that is not handed out. -/
def used : ℕ := 100

/-- `MAP_NR(addr)`. -/
def mapNr (page : ℕ) : ℕ := page - lowMem

/-- The `panic` calls of `mm/memory.c`. -/
inductive Panic
  /-- `trying to free nonexistent page` -/
  | freeNonexistentPage
  /-- `trying to free free page` -/
  | freeFreePage
  /-- `free_page_tables called with wrong alignment` -/
  | freeWrongAlignment
  /-- `Trying to free up swapper memory space` -/
  | freeSwapper
  /-- `copy_page_tables called with wrong alignment` -/
  | copyWrongAlignment
  /-- `copy_page_tables: already exist` -/
  | copyAlreadyExist
  /-- `try_to_share: to_page already exists` -/
  | shareAlreadyExists
  deriving DecidableEq

/-- The memory manager's state. -/
structure State where
  /-- `HIGH_MEMORY`, as a page number. -/
  highMemory : ℕ
  /-- `mem_map`, 8-bit counters. -/
  memMap : ℕ → ℕ
  /-- Physical memory: page number, then word index. -/
  mem : ℕ → ℕ → Word

/-- What a call comes to: a return, a killed task, or a stopped kernel. -/
inductive Result (α : Type)
  | ok (value : α) (state : State)
  | oom (state : State)
  | panic (reason : Panic)

/-- Continue after a call that returns. -/
def Result.bind {α β : Type} : Result α → (α → State → Result β) → Result β
  | .ok value state, next => next value state
  | .oom state, _ => .oom state
  | .panic reason, _ => .panic reason

theorem Result.bind_of_ok {α β : Type} {r : Result α} {value : α} {state : State}
    (h : r = .ok value state) (next : α → State → Result β) :
    r.bind next = next value state := by rw [h, Result.bind]

theorem Result.bind_of_oom {α β : Type} {r : Result α} {state : State}
    (h : r = .oom state) (next : α → State → Result β) : r.bind next = .oom state := by
  rw [h, Result.bind]

namespace State

/-- Store one word. -/
def setWord (s : State) (page index : ℕ) (w : Word) : State :=
  { s with mem := fun p i => if p = page ∧ i = index then w else s.mem p i }

/-- Fill a page. -/
def setPage (s : State) (page : ℕ) (content : ℕ → Word) : State :=
  { s with mem := fun p i => if p = page then content i else s.mem p i }

/-- Assign one counter of `mem_map`. -/
def setMap (s : State) (nr count : ℕ) : State :=
  { s with memMap := fun n => if n = nr then count else s.memMap n }

/-- `mem_map[MAP_NR(page)]++`. -/
def incMap (s : State) (page : ℕ) : State :=
  s.setMap (mapNr page) ((s.memMap (mapNr page) + 1) % 256)

/-- `mem_map[MAP_NR(page)]--`. -/
def decMap (s : State) (page : ℕ) : State :=
  s.setMap (mapNr page) ((s.memMap (mapNr page) + 255) % 256)

/-- `copy_page(from,to)`. -/
def copyPage (s : State) (source target : ℕ) : State := s.setPage target (s.mem source)

end State

/-- `((address>>20) & 0xffc)`, divided by four: the index into the page directory. -/
def dirIndex (address : ℕ) : ℕ := (address >>> 20 &&& 0xffc) / 4

/-- `((address>>10) & 0xffc)`, divided by four: the index into a page table. -/
def tableIndex (address : ℕ) : ℕ := (address >>> 10 &&& 0xffc) / 4

/-- The `repne ; scasb` scan of `get_free_page`: the last zero counter among the
first `n`. -/
def scanFree (memMap : ℕ → ℕ) : ℕ → Option ℕ
  | 0 => none
  | n + 1 => if memMap n = 0 then some n else scanFree memMap n

/-- `get_free_page()`: the page taken, cleared, and the state after. -/
def getFreePage (s : State) : Option (ℕ × State) :=
  match scanFree s.memMap pagingPages with
  | none => none
  | some n => some (n + lowMem, (s.setMap n 1).setPage (n + lowMem) fun _ => 0)

/-- `free_page(addr)`. -/
def freePage (s : State) (page : ℕ) : Result Unit :=
  if page < lowMem then .ok () s
  else if s.highMemory ≤ page then .panic .freeNonexistentPage
  else if s.memMap (mapNr page) ≠ 0 then .ok () (s.decMap page)
  else .panic .freeFreePage

/-- The inner loop of `free_page_tables`: `nr` entries from `index` on. -/
def freeEntries (table : ℕ) : ℕ → ℕ → State → Result Unit
  | _, 0, s => .ok () s
  | index, nr + 1, s =>
    (if present (s.mem table index) then freePage s (frame (s.mem table index))
      else .ok () s).bind fun _ s => freeEntries table (index + 1) nr (s.setWord table index 0)

/-- The outer loop of `free_page_tables`: `size` directory entries from `dir` on. -/
def freeTables : ℕ → ℕ → State → Result Unit
  | _, 0, s => .ok () s
  | dir, size + 1, s =>
    if present (s.mem 0 dir) then
      (freeEntries (frame (s.mem 0 dir)) 0 1024 s).bind fun _ s =>
        (freePage s (frame (s.mem 0 dir))).bind fun _ s =>
          freeTables (dir + 1) size (s.setWord 0 dir 0)
    else freeTables (dir + 1) size s

/-- `(size + 0x3fffff) >> 22`: the number of directory entries of a range. -/
def dirCount (size : ℕ) : ℕ := ((size + 0x3fffff) % 2 ^ 32) >>> 22

/-- `free_page_tables(from,size)`. -/
def freePageTables (s : State) (fromAddr size : ℕ) : Result Unit :=
  if fromAddr &&& 0x3fffff ≠ 0 then .panic .freeWrongAlignment
  else if fromAddr = 0 then .panic .freeSwapper
  else freeTables (dirIndex fromAddr) (dirCount size) s

/-- One iteration of the inner loop of `copy_page_tables`. -/
def copyEntry (s : State) (fromTable toTable index : ℕ) : State :=
  if present (s.mem fromTable index) then
    let thisPage := writeProtect (s.mem fromTable index)
    let s := s.setWord toTable index thisPage
    if 0x100000 < thisPage.toNat then
      (s.setWord fromTable index thisPage).incMap (frame thisPage)
    else s
  else s

/-- The inner loop of `copy_page_tables`: `nr` entries from `index` on. -/
def copyEntries (fromTable toTable : ℕ) : ℕ → ℕ → State → State
  | _, 0, s => s
  | index, nr + 1, s =>
    copyEntries fromTable toTable (index + 1) nr (copyEntry s fromTable toTable index)

/-- The outer loop of `copy_page_tables`, copying `nr` entries of each table. The
value is the source's return value. -/
def copyTables (nr : ℕ) : ℕ → ℕ → ℕ → State → Result Int
  | _, _, 0, s => .ok 0 s
  | fromDir, toDir, size + 1, s =>
    if present (s.mem 0 toDir) then .panic .copyAlreadyExist
    else if present (s.mem 0 fromDir) then
      match getFreePage s with
      | none => .ok (-1) s
      | some (toTable, t) =>
        copyTables nr (fromDir + 1) (toDir + 1) size
          (copyEntries (frame (s.mem 0 fromDir)) toTable 0 nr
            (t.setWord 0 toDir (pageAddr toTable ||| 7#32)))
    else copyTables nr (fromDir + 1) (toDir + 1) size s

/-- `copy_page_tables(from,to,size)`. -/
def copyPageTables (s : State) (fromAddr toAddr size : ℕ) : Result Int :=
  if fromAddr &&& 0x3fffff ≠ 0 ∨ toAddr &&& 0x3fffff ≠ 0 then .panic .copyWrongAlignment
  else copyTables (if fromAddr = 0 then 0xA0 else 1024) (dirIndex fromAddr) (dirIndex toAddr)
    (dirCount size) s

/-- The paging half of `copy_mem` in `kernel/fork.c`: a copy that runs out of
memory is undone by `free_page_tables`. -/
def copyMem (s : State) (oldBase newBase limit : ℕ) : Result Int :=
  (copyPageTables s oldBase newBase limit).bind fun value s =>
    if value ≠ 0 then (freePageTables s newBase limit).bind fun _ s => .ok (-12) s
    else .ok 0 s

/-- `put_page(page,address)`: the page and the state after, page 0 when there is
no memory for a page table. -/
def putPage (s : State) (page address : ℕ) : ℕ × State :=
  if present (s.mem 0 (dirIndex address)) then
    (page, s.setWord (frame (s.mem 0 (dirIndex address))) (tableIndex address)
      (pageAddr page ||| 7#32))
  else
    match getFreePage s with
    | none => (0, s)
    | some (tmp, s) =>
      (page, (s.setWord 0 (dirIndex address) (pageAddr tmp ||| 7#32)).setWord tmp
        (tableIndex address) (pageAddr page ||| 7#32))

/-- `un_wp_page(table_entry)`, the entry given by its table and index. -/
def unWpPage (s : State) (table index : ℕ) : Result Unit :=
  let oldPage := frame (s.mem table index)
  if lowMem ≤ oldPage ∧ s.memMap (mapNr oldPage) = 1 then
    .ok () (s.setWord table index (s.mem table index ||| 2#32))
  else
    match getFreePage s with
    | none => .oom s
    | some (newPage, s) =>
      let s := if lowMem ≤ oldPage then s.decMap oldPage else s
      let s := s.setWord table index (pageAddr newPage ||| 7#32)
      .ok () (s.copyPage oldPage newPage)

/-- `do_wp_page(error_code,address)`. -/
def doWpPage (s : State) (address : ℕ) : Result Unit :=
  unWpPage s (frame (s.mem 0 (dirIndex address))) (tableIndex address)

/-- `write_verify(address)`. -/
def writeVerify (s : State) (address : ℕ) : Result Unit :=
  if present (s.mem 0 (dirIndex address)) then
    if 3#32 &&& s.mem (frame (s.mem 0 (dirIndex address))) (tableIndex address) = 1#32 then
      unWpPage s (frame (s.mem 0 (dirIndex address))) (tableIndex address)
    else .ok () s
  else .ok () s

/-- `get_empty_page(address)`. -/
def getEmptyPage (s : State) (address : ℕ) : Result Unit :=
  match getFreePage s with
  | none => .oom s
  | some (tmp, s) =>
    match putPage s tmp address with
    | (0, s) => (freePage s tmp).bind fun _ s => .oom s
    | (_ + 1, s) => .ok () s

/-- The page table of `try_to_share`'s target, taken from the free pages when the
directory entry is not present. -/
def shareTable (s : State) (toDir : ℕ) : Result ℕ :=
  if present (s.mem 0 toDir) then .ok (frame (s.mem 0 toDir)) s
  else
    match getFreePage s with
    | none => .oom s
    | some (page, s) => .ok page (s.setWord 0 toDir (pageAddr page ||| 7#32))

/-- `try_to_share(address,p)`, with the `start_code` of `p` and of the current task. -/
def tryToShare (s : State) (address startCode currentStartCode : ℕ) : Result Bool :=
  let fromDir := dirIndex address + dirIndex startCode
  let toDir := dirIndex address + dirIndex currentStartCode
  let index := tableIndex address
  if present (s.mem 0 fromDir) then
    let fromTable := frame (s.mem 0 fromDir)
    let physAddr := s.mem fromTable index
    if physAddr &&& 0x41#32 = 0x01#32 then
      if s.highMemory ≤ frame physAddr ∨ frame physAddr < lowMem then .ok false s
      else
        (shareTable s toDir).bind fun toTable s =>
          if present (s.mem toTable index) then .panic .shareAlreadyExists
          else
            let s := s.setWord fromTable index (writeProtect (s.mem fromTable index))
            let s := s.setWord toTable index (s.mem fromTable index)
            .ok true (s.incMap (frame physAddr))
    else .ok false s
  else .ok false s

/-- `mem_init(start_mem,end_mem)`, on pages. -/
def memInit (s : State) (startMem endMem : ℕ) : State :=
  { s with
    highMemory := endMem
    memMap := fun n => if mapNr startMem ≤ n ∧ n < mapNr startMem + (endMem - startMem) then 0
      else used }

/-- `setup_paging` of `boot/head.s`: the page directory and the four kernel page
tables that identity-map the first 16 MB. -/
def setupPaging (s : State) : State :=
  { s with
    mem := fun p i =>
      if p = 0 then (if i < 4 then pageAddr (i + 1) ||| 7#32 else 0)
      else if p < 5 then pageAddr ((p - 1) * 1024 + i) ||| 7#32
      else s.mem p i }

end LihaLinux.Mm
