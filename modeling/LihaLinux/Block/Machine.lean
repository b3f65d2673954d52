import LihaLinux.Block.Requests
import LihaLinux.Fs.CacheQueues

/-!
# Requests for buffers

The tasks that read and write buffers. A task keeps the processor until it calls `sleep_on`, but
an interrupt can end a transfer between any two steps of it while interrupts are enabled, so the
functions are cut at every access to data that an interrupt changes; what they do between `cli`
and `sti` is one step. `getblk` and `sync_dev` call `ll_rw_block` for buffers that nobody holds.
-/

namespace LihaLinux.Block

/-- `NR_BLK_DEV`. -/
def nrBlkDev : ℕ := 7

/-- `MAJOR(dev)`. -/
def majorOf (dev : ℕ) : ℕ := dev / 256

/-- The commands of `ll_rw_block`. -/
inductive RwCommand
  | read
  | write
  | readAhead
  | writeAhead
  deriving DecidableEq

/-- The command of the request. -/
def RwCommand.cmd : RwCommand → ℕ
  | .read | .readAhead => rwRead
  | .write | .writeAhead => rwWrite

/-- `rw_ahead`. -/
def RwCommand.ahead : RwCommand → Bool
  | .read | .write => false
  | .readAhead | .writeAhead => true

/-- The number of requests that `make_request` may use for a command. -/
def requestLimit (cmd : ℕ) : ℕ := if cmd = rwRead then nrRequest else nrRequest * 2 / 3

/-- The buffers, the requests, and which devices have a `request_fn`. -/
structure IoTables where
  cache : Fs.Cache
  requests : Requests
  driver : ℕ → Bool

namespace IoTables

/-- Replace the cache. -/
def withCache (w : IoTables) (c : Fs.Cache) : IoTables := { w with cache := c }

/-- Replace the requests. -/
def withRequests (w : IoTables) (r : Requests) : IoTables := { w with requests := r }

/-- `unlock_buffer(bh)`. -/
def unlockBuffer (w : IoTables) (bh : ℕ) : IoTables := w.withCache (w.cache.setLock bh false)

/-- The buffer of a finished request: `b_uptodate` is set and the buffer unlocked. -/
def finish (w : IoTables) (bh : ℕ) (uptodate : Bool) : IoTables :=
  w.withCache ((w.cache.setUptodate bh uptodate).setLock bh false)

/-- `end_request(uptodate)` of a device. -/
def endRequest (w : IoTables) (major : ℕ) (uptodate : Bool) : Option IoTables :=
  (w.requests.currentRequest major).bind fun req =>
    (w.requests.endRequest major).map fun r =>
      match (w.requests.request req).bh with
      | none => w.withRequests r
      | some bh => (w.withRequests r).finish bh uptodate

/-- The tests of `INIT_REQUEST`: false for a panic with "request list destroyed" or "block not
locked". -/
def initRequest (w : IoTables) (major : ℕ) : Bool :=
  (w.requests.currentRequest major).all fun req =>
    (w.requests.request req).dev / 256 = major &&
      (w.requests.request req).bh.all fun bh => w.cache.lock bh

/-- `req->dev = bh->b_dev` and the other stores of `make_request` up to `add_request`. -/
def fillRequest (w : IoTables) (cmd bh req : ℕ) : IoTables :=
  w.withRequests (w.requests.setRequest req
    { dev := w.cache.dev bh, cmd, sector := w.cache.blocknr bh * 2 % 4294967296, bh := some bh,
      next := none })

/-- `add_request`, up to the call of `request_fn`. -/
def addRequest (w : IoTables) (major req : ℕ) : Option IoTables :=
  (w.requests.addRequest major req).map fun r =>
    match (w.requests.request req).bh with
    | none => w.withRequests r
    | some bh => (w.withRequests r).withCache (w.cache.setDirt bh false)

end IoTables

/-- The calls on a task's stack, each at a place where its task can be suspended or interrupted. -/
inductive IoFrame
  /-- `get_hash_table`: the search; `get` says whether `getblk` has called it. -/
  | hash (get : Bool) (dev block : ℕ)
  /-- `get_hash_table`: the wait for the buffer found. -/
  | hashWait (get : Bool) (dev block bh : ℕ)
  /-- `getblk`: the loop over the free list, with the best buffer so far. -/
  | scanFree (dev block tmp : ℕ) (best : Option ℕ)
  /-- `getblk`: the wait for the chosen buffer, also after `sync_dev`. -/
  | getblkWait (dev block bh : ℕ)
  /-- `brelse`. -/
  | brelse (bh : ℕ)
  /-- `wait_on_buffer`, called by a task that holds the buffer. -/
  | waitOnBuffer (bh : ℕ)
  /-- `sync_dev`, in its first or second loop, at a buffer. -/
  | syncDev (dev : ℕ) (first : Bool) (i : ℕ)
  /-- `sync_inodes`, called by `sync_dev` for a device or by `sys_sync`. -/
  | syncInodes (dev : Option ℕ)
  /-- `sys_sync`, at a buffer. -/
  | sysSync (i : ℕ)
  /-- `ll_rw_block` and `make_request`, up to `lock_buffer`. -/
  | llRwBlock (rw : RwCommand) (bh : ℕ)
  /-- `make_request`: `lock_buffer`. -/
  | lockBuffer (cmd : ℕ) (ahead : Bool) (major bh : ℕ)
  /-- `make_request`: the test whether there is still something to do. -/
  | testBuffer (cmd : ℕ) (ahead : Bool) (major bh : ℕ)
  /-- `make_request`: the loop over the requests below `i`, from `repeat` on. -/
  | findRequest (cmd : ℕ) (ahead : Bool) (major bh i : ℕ)
  /-- `make_request`, with a free request. -/
  | fillRequest (cmd major bh req : ℕ)
  /-- `add_request`. -/
  | addRequest (major req : ℕ)
  /-- The `request_fn` of a device. -/
  | requestFn (major : ℕ)
  deriving DecidableEq

/-- What a call does at the end of a step. -/
inductive IoNext
  /-- It stands at another place. -/
  | go (f : IoFrame)
  /-- It sleeps. -/
  | sleep (f : IoFrame)
  /-- It calls a function and waits for it. -/
  | call (f callee : IoFrame)
  /-- It returns. -/
  | ret
  /-- It returns a buffer. -/
  | got (bh : ℕ)
  deriving DecidableEq

/-- The loop of `getblk` over the free list takes `tmp` instead of the best buffer so far. -/
def better (c : Fs.Cache) (tmp : ℕ) (best : Option ℕ) : Bool :=
  c.count tmp = 0 && best.all fun b => c.badness tmp < c.badness b

/-- One step of the topmost call. There is no result after a panic. What a device does with a
request at once is not followed: `ended` is the result of a request that it ends. -/
def IoFrame.exec (w : IoTables) (ended : Option Bool) : IoFrame → Option (IoTables × IoNext)
  | .hash get dev block =>
    match w.cache.findBuffer dev block with
    | some bh => some (w.withCache (w.cache.incCount bh), .go (.hashWait get dev block bh))
    | none =>
      if get then w.cache.freeList.map fun tmp => (w, .go (.scanFree dev block tmp none))
      else some (w, .ret)
  | .hashWait get dev block bh =>
    if w.cache.lock bh then some (w, .sleep (.hashWait get dev block bh))
    else if w.cache.dev bh = dev ∧ w.cache.blocknr bh = block then some (w, .got bh)
    else some (w.withCache (w.cache.decCount bh), .go (.hash get dev block))
  | .scanFree dev block tmp best =>
    let taken := better w.cache tmp best
    let best := if taken then some tmp else best
    if taken && w.cache.badness tmp = 0 then some (w, .go (.getblkWait dev block tmp))
    else
      (w.cache.nextFree tmp).map fun tmp =>
        if w.cache.freeList = some tmp then
          match best with
          | none => (w, .sleep (.hash true dev block))
          | some bh => (w, .go (.getblkWait dev block bh))
        else (w, .go (.scanFree dev block tmp best))
  | .getblkWait dev block bh =>
    if w.cache.lock bh then some (w, .sleep (.getblkWait dev block bh))
    else if w.cache.count bh ≠ 0 then some (w, .go (.hash true dev block))
    else if w.cache.dirt bh then
      some (w, .call (.getblkWait dev block bh) (.syncDev (w.cache.dev bh) true 0))
    else if (w.cache.findBuffer dev block).isSome then some (w, .go (.hash true dev block))
    else (w.cache.assign dev block bh).map fun c => (w.withCache c, .got bh)
  | .brelse bh =>
    if w.cache.lock bh then some (w, .sleep (.brelse bh))
    else if w.cache.count bh = 0 then none
    else some (w.withCache (w.cache.decCount bh), .ret)
  | .waitOnBuffer bh =>
    if w.cache.lock bh then some (w, .sleep (.waitOnBuffer bh)) else some (w, .ret)
  | .syncDev dev first i =>
    if w.cache.nrBuffers ≤ i then
      if first then some (w, .go (.syncInodes (some dev))) else some (w, .ret)
    else if w.cache.dev i ≠ dev then some (w, .go (.syncDev dev first (i + 1)))
    else if w.cache.lock i then some (w, .sleep (.syncDev dev first i))
    else if w.cache.dirt i then
      some (w, .call (.syncDev dev first (i + 1)) (.llRwBlock .write i))
    else some (w, .go (.syncDev dev first (i + 1)))
  | .syncInodes (some dev) => some (w, .go (.syncDev dev false 0))
  | .syncInodes none => some (w, .go (.sysSync 0))
  | .sysSync i =>
    if w.cache.nrBuffers ≤ i then some (w, .ret)
    else if w.cache.lock i then some (w, .sleep (.sysSync i))
    else if w.cache.dirt i then some (w, .call (.sysSync (i + 1)) (.llRwBlock .write i))
    else some (w, .go (.sysSync (i + 1)))
  | .llRwBlock rw bh =>
    if nrBlkDev ≤ majorOf (w.cache.dev bh) ∨ w.driver (majorOf (w.cache.dev bh)) = false then
      some (w, .ret)
    else if rw.ahead && w.cache.lock bh then some (w, .ret)
    else some (w, .go (.lockBuffer rw.cmd rw.ahead (majorOf (w.cache.dev bh)) bh))
  | .lockBuffer cmd ahead major bh =>
    if w.cache.lock bh then some (w, .sleep (.lockBuffer cmd ahead major bh))
    else some (w.withCache (w.cache.setLock bh true), .go (.testBuffer cmd ahead major bh))
  | .testBuffer cmd ahead major bh =>
    if cmd = rwWrite ∧ w.cache.dirt bh = false ∨ cmd = rwRead ∧ w.cache.uptodate bh = true then
      some (w.unlockBuffer bh, .ret)
    else some (w, .go (.findRequest cmd ahead major bh (requestLimit cmd)))
  | .findRequest cmd ahead major bh 0 =>
    if ahead then some (w.unlockBuffer bh, .ret)
    else some (w, .sleep (.findRequest cmd ahead major bh (requestLimit cmd)))
  | .findRequest cmd ahead major bh (i + 1) =>
    if (w.requests.request i).dev < 0 then some (w, .go (.fillRequest cmd major bh i))
    else some (w, .go (.findRequest cmd ahead major bh i))
  | .fillRequest cmd major bh req =>
    some (w.fillRequest cmd bh req, .go (.addRequest major req))
  | .addRequest major req =>
    (w.addRequest major req).map fun w' =>
      (w', if (w.requests.currentRequest major).isNone then .go (.requestFn major) else .ret)
  | .requestFn major =>
    if w.initRequest major = false then none
    else
      match ended, w.requests.currentRequest major with
      | some uptodate, some _ =>
        (w.endRequest major uptodate).map fun w => (w, .go (.requestFn major))
      | _, _ => some (w, .ret)

/-! ### The tasks -/

/-- The tables and the tasks: their stacks, topmost call first, the buffers they hold, and the
task that runs in the kernel and has not called `sleep_on`. -/
structure BlockIo (τ : Type*) where
  tables : IoTables
  stack : τ → List IoFrame
  bufs : τ → List ℕ
  running : Option τ

/-- The calls a task can make. -/
inductive IoCall
  | getblk (dev block : ℕ)
  | getHashTable (dev block : ℕ)
  | brelse (bh : ℕ)
  | waitOnBuffer (bh : ℕ)
  | llRwBlock (rw : RwCommand) (bh : ℕ)
  | syncDev (dev : ℕ)
  | sysSync
  deriving DecidableEq

/-- The call on the stack of its task. -/
def IoCall.frame : IoCall → IoFrame
  | .getblk dev block => .hash true dev block
  | .getHashTable dev block => .hash false dev block
  | .brelse bh => .brelse bh
  | .waitOnBuffer bh => .waitOnBuffer bh
  | .llRwBlock rw bh => .llRwBlock rw bh
  | .syncDev dev => .syncDev dev true 0
  | .sysSync => .syncInodes none

/-- The buffer that the caller holds. -/
def IoCall.buf : IoCall → Option ℕ
  | .brelse bh | .waitOnBuffer bh | .llRwBlock _ bh => some bh
  | _ => none

/-- The buffer that a call releases. -/
def IoCall.released : IoCall → Option ℕ
  | .brelse bh => some bh
  | _ => none

/-- What can happen. -/
inductive IoEvent (τ : Type*)
  /-- A task outside these calls, or in `sync_inodes`, makes one. -/
  | call (t : τ) (c : IoCall)
  /-- The topmost call of a task takes a step. -/
  | exec (t : τ) (ended : Option Bool)
  /-- The interrupt at the end of a transfer. -/
  | interrupt (major : ℕ) (uptodate : Bool)
  /-- A task changes the data of a buffer it holds. -/
  | modify (t : τ) (bh : ℕ)
  /-- `breada` drops a buffer without `brelse`. -/
  | drop (t : τ) (bh : ℕ)
  deriving DecidableEq

namespace BlockIo

variable {τ : Type*} [DecidableEq τ]

/-- Whether a task may run in the kernel. -/
def MayRun (s : BlockIo τ) (t : τ) : Prop := s.running = none ∨ s.running = some t

instance (s : BlockIo τ) (t : τ) : Decidable (s.MayRun t) := inferInstanceAs (Decidable (_ ∨ _))

/-- Replace the tables. -/
def withTables (s : BlockIo τ) (w : IoTables) : BlockIo τ := { s with tables := w }

/-- Whether a stack is at a place where its task makes calls. -/
def atCaller : List IoFrame → Bool
  | [] => true
  | .syncInodes _ :: _ => true
  | _ => false

/-- The stack after a step of its topmost call. -/
def stackAfter (rest : List IoFrame) : IoNext → List IoFrame
  | .go f | .sleep f => f :: rest
  | .call f callee => callee :: f :: rest
  | .ret | .got _ => rest

/-- Whether the task is still running after a step of its topmost call. -/
def runs (rest : List IoFrame) : IoNext → Bool
  | .go _ | .call _ _ => true
  | .sleep _ => false
  | .ret | .got _ => !atCaller rest

/-- The buffers of a task after a step of its topmost call. -/
def bufsAfter (bufs : List ℕ) : IoNext → List ℕ
  | .got bh => bh :: bufs
  | _ => bufs

/-- The state after a step of the topmost call of `t` that stands on the calls `rest`. -/
def after (s : BlockIo τ) (t : τ) (rest : List IoFrame) (w : IoTables) (n : IoNext) :
    BlockIo τ where
  tables := w
  stack := Function.update s.stack t (stackAfter rest n)
  bufs := Function.update s.bufs t (bufsAfter (s.bufs t) n)
  running := if runs rest n then some t else none

/-- A step of the topmost call of `t`. -/
def execTop (s : BlockIo τ) (t : τ) (ended : Option Bool) : Option (BlockIo τ) :=
  match s.stack t with
  | [] => none
  | f :: rest =>
    (f.exec s.tables ended).map fun r => s.after t rest r.1 r.2

/-- The state after a task has made a call. -/
def enter (s : BlockIo τ) (t : τ) (c : IoCall) : BlockIo τ where
  tables := s.tables
  stack := Function.update s.stack t (c.frame :: s.stack t)
  bufs := Function.update s.bufs t ((s.bufs t).diff c.released.toList)
  running := some t

/-- The state after a task has changed a cache and the buffers it holds. -/
def store (s : BlockIo τ) (t : τ) (c : Fs.Cache) (bufs : List ℕ) : BlockIo τ :=
  { s with tables := s.tables.withCache c, bufs := Function.update s.bufs t bufs }

/-- Whether a task runs outside these calls, or in `sync_inodes`. -/
def Calling (s : BlockIo τ) (t : τ) : Prop := s.MayRun t ∧ atCaller (s.stack t) = true

instance (s : BlockIo τ) (t : τ) : Decidable (s.Calling t) := inferInstanceAs (Decidable (_ ∧ _))

/-- The state after an event, if it can happen. -/
def next (s : BlockIo τ) : IoEvent τ → Option (BlockIo τ)
  | .call t c =>
    if s.Calling t ∧ ∀ b ∈ c.buf, b ∈ s.bufs t then some (s.enter t c) else none
  | .exec t ended => if s.MayRun t then s.execTop t ended else none
  | .interrupt major uptodate =>
    (s.tables.endRequest major uptodate).map s.withTables
  | .modify t bh =>
    if s.Calling t ∧ bh ∈ s.bufs t then
      some (s.store t ((s.tables.cache.setUptodate bh true).setDirt bh true) (s.bufs t))
    else none
  | .drop t bh =>
    if s.Calling t ∧ bh ∈ s.bufs t then
      some (s.store t (s.tables.cache.decCount bh) ((s.bufs t).erase bh))
    else none

/-- One step of the system. -/
def Step (s s' : BlockIo τ) : Prop := ∃ e, s.next e = some s'

/-- The system after `buffer_init` and `blk_dev_init`. -/
def boot (nrBuffers : ℕ) (blocknr : ℕ → ℕ) (driver : ℕ → Bool) : BlockIo τ where
  tables := { cache := Fs.Cache.init nrBuffers blocknr, requests := .empty, driver }
  stack _ := []
  bufs _ := []
  running := none

/-- The states the system can start in. -/
def Boot (s : BlockIo τ) : Prop := ∃ nrBuffers blocknr driver, 0 < nrBuffers ∧
  s = boot nrBuffers blocknr driver

end BlockIo

end LihaLinux.Block
