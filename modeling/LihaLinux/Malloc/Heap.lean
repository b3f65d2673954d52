import LihaLinux.Lib.Lists
import LihaLinux.Lib.Transition

/-!
# The kernel heap

The allocator of `malloc.c`. A page, called a bucket, holds objects of one size; the free ones
are a list with its links inside the objects. The descriptors of the buckets lie on pages of their
own and are in the chain of their size, or in the list of free descriptors.

Descriptors are given field by field, each as a table over their addresses. Besides the variables
of the source, the state has the pages that the heap has got and not given back.
-/

namespace LihaLinux.Malloc

/-- `PAGE_SIZE`. -/
def pageSize : ℕ := 4096

/-- The page on which an address lies. -/
def pageOf (a : ℕ) : ℕ := a - a % pageSize

/-- The number of sizes in `bucket_dir`. -/
def nrBuckets : ℕ := 9

/-- `bucket_dir[i].size`. -/
def bucketSize (i : ℕ) : ℕ := [16, 32, 64, 128, 256, 512, 1024, 2048, 4096].getD i 0

/-- `sizeof(struct bucket_desc)`. -/
def descSize : ℕ := 16

/-- The memory and the variables of the heap. A pointer is `none` if it is 0. -/
structure Heap where
  page : ℕ → ℕ
  next : ℕ → Option ℕ
  freeptr : ℕ → Option ℕ
  refcnt : ℕ → ℕ
  /-- `bucket_dir[i].chain`. -/
  chain : ℕ → Option ℕ
  freeBucketDesc : Option ℕ
  /-- The word at an address of a bucket page, as a pointer. -/
  mem : ℕ → Option ℕ
  /-- The pages with descriptors. -/
  descPages : List ℕ
  /-- The pages with objects. -/
  bucketPages : List ℕ

/-- The variables before the first call. -/
def Heap.init : Heap where
  page _ := 0
  next _ := none
  freeptr _ := none
  refcnt _ := 0
  chain _ := none
  freeBucketDesc := none
  mem _ := none
  descPages := []
  bucketPages := []

/-- A table in which the entries on one page are set to zero. -/
def zeroPage {β : Type} (p : ℕ) (zero : β) (f : ℕ → β) (a : ℕ) : β :=
  if pageOf a = p then zero else f a

/-- The loops that link the equal parts of a page: `n` parts to the one behind, and then the last
one to a given pointer. -/
def linkRun (size : ℕ) (last : Option ℕ) : ℕ → ℕ → (ℕ → Option ℕ) → ℕ → Option ℕ
  | 0, cp, f => Function.update f cp last
  | n + 1, cp, f => linkRun size last n (cp + size) (Function.update f cp (some (cp + size)))

/-- The first size that is large enough. -/
def findBucket (len : ℕ) : Option ℕ := (List.range nrBuckets).find? fun i => len ≤ bucketSize i

namespace Heap

/-- `get_free_page`: a page that is filled with zeros. -/
def getFreePage (h : Heap) (p : ℕ) : Heap :=
  { h with
    page := zeroPage p 0 h.page
    next := zeroPage p none h.next
    freeptr := zeroPage p none h.freeptr
    refcnt := zeroPage p 0 h.refcnt
    mem := zeroPage p none h.mem }

/-- `init_bucket_desc`, with the page it gets. -/
def initBucketDesc (h : Heap) (p : ℕ) : Heap :=
  { h.getFreePage p with
    next := linkRun descSize h.freeBucketDesc (pageSize / descSize - 1) p (h.getFreePage p).next
    freeBucketDesc := some p
    descPages := p :: h.descPages }

theorem initBucketDesc_next (h : Heap) (p : ℕ) : (h.initBucketDesc p).next =
    linkRun descSize h.freeBucketDesc (pageSize / descSize - 1) p (h.getFreePage p).next := by
  rw [initBucketDesc]

/-- The new descriptor `d` of `malloc` with its page, in front of a chain. -/
def addBucket (h : Heap) (i d p : ℕ) : Heap :=
  { h.getFreePage p with
    refcnt := zeroPage p 0 (Function.update h.refcnt d 0)
    freeBucketDesc := h.next d
    page := Function.update (h.getFreePage p).page d p
    freeptr := Function.update (h.getFreePage p).freeptr d (some p)
    mem := linkRun (bucketSize i) none (pageSize / bucketSize i - 1) p (h.getFreePage p).mem
    next := Function.update (h.getFreePage p).next d (h.chain i)
    chain := Function.update h.chain i (some d)
    bucketPages := p :: h.bucketPages }

theorem addBucket_mem (h : Heap) (i d p : ℕ) : (h.addBucket i d p).mem =
    linkRun (bucketSize i) none (pageSize / bucketSize i - 1) p (h.getFreePage p).mem := by
  rw [addBucket]

/-- The part of `malloc` for a chain without a free object. The first page is used only if there
is no free descriptor. -/
def newBucket (h : Heap) (i descPage page : ℕ) : Option (ℕ × Heap) :=
  let h := if h.freeBucketDesc.isNone then h.initBucketDesc descPage else h
  h.freeBucketDesc.map fun d => (d, h.addBucket i d page)

/-- The first object `retval` leaves the free list of its bucket. -/
def popObject (h : Heap) (d retval : ℕ) : Heap :=
  { h with
    freeptr := Function.update h.freeptr d (h.mem retval)
    refcnt := Function.update h.refcnt d ((h.refcnt d + 1) % 65536) }

/-- The end of `malloc`: the first free object of a bucket. -/
def takeObject (h : Heap) (d : ℕ) : Option (ℕ × Heap) :=
  (h.freeptr d).map fun retval => (retval, h.popObject d retval)

/-- The descriptor that `malloc` uses. -/
def chooseBucket (h : Heap) (i descPage page : ℕ) : Option (ℕ × Heap) := do
  let (_, bdesc) ← scanList h.next (fun d => (h.freeptr d).isSome) h.bucketPages.length none
    (h.chain i)
  match bdesc with
  | some d => some (d, h)
  | none => h.newBucket i descPage page

/-- `malloc`, with the pages that its calls of `get_free_page` return. There is no result if it
panics. -/
def malloc (h : Heap) (len descPage page : ℕ) : Option (ℕ × Heap) := do
  let i ← findBucket len
  let (d, h) ← h.chooseBucket i descPage page
  h.takeObject d

/-- The loops of `free_s` that look for a page: the index of the chain, the descriptor before it in
the chain, and its descriptor. -/
def findPage (h : Heap) (page size : ℕ) : List ℕ → Option (ℕ × Option ℕ × ℕ)
  | [] => none
  | i :: is => if bucketSize i < size then findPage h page size is else do
      let (prev, bdesc) ← scanList h.next (fun d => h.page d = page) h.bucketPages.length none
        (h.chain i)
      match bdesc with
      | some d => some (i, prev, d)
      | none => findPage h page size is

/-- An object comes to the front of the free list of its bucket. -/
def putObject (h : Heap) (d obj : ℕ) : Heap :=
  { h with
    mem := Function.update h.mem obj (h.freeptr d)
    freeptr := Function.update h.freeptr d (some obj)
    refcnt := Function.update h.refcnt d ((h.refcnt d + 65535) % 65536) }

/-- The descriptor before another one, where the one that was found first is not trusted. -/
def predecessor (h : Heap) (i : ℕ) (prev : Option ℕ) (d : ℕ) : Option (Option ℕ) :=
  if prev.isSome ∧ prev.bind h.next ≠ some d ∨ prev = none ∧ h.chain i ≠ some d then
    (scanList h.next (fun p => h.next p = some d) h.bucketPages.length none (h.chain i)).map
      Prod.snd
  else some prev

/-- A descriptor is taken out of its chain. -/
def unlink (h : Heap) (i : ℕ) (prev : Option ℕ) (d : ℕ) : Option Heap :=
  match prev with
  | some p => some { h with next := Function.update h.next p (h.next d) }
  | none =>
    if h.chain i = some d then some { h with chain := Function.update h.chain i (h.next d) }
    else none

/-- The page of a descriptor is given back, and the descriptor is free. -/
def freeBucket (h : Heap) (d : ℕ) : Heap :=
  { h with
    bucketPages := h.bucketPages.erase (h.page d)
    next := Function.update h.next d h.freeBucketDesc
    freeBucketDesc := some d }

/-- The part of `free_s` for a bucket without objects. -/
def releaseBucket (h : Heap) (i : ℕ) (prev : Option ℕ) (d : ℕ) : Option Heap := do
  let prev ← h.predecessor i prev d
  let h ← h.unlink i prev d
  some (h.freeBucket d)

/-- `free_s`, with the page that it passes to `free_page`, if any. There is no result if it
panics. -/
def freeS (h : Heap) (obj size : ℕ) : Option (Heap × Option ℕ) := do
  let (i, prev, d) ← h.findPage (pageOf obj) size (List.range nrBuckets)
  let h := h.putObject d obj
  if h.refcnt d = 0 then (h.releaseBucket i prev d).map fun h' => (h', some (h.page d))
  else some (h, none)

/-- What is known about a page from `get_free_page`. -/
def Fresh (h : Heap) (p : ℕ) : Prop :=
  p ≠ 0 ∧ p % pageSize = 0 ∧ p ∉ h.descPages ∧ p ∉ h.bucketPages

instance (h : Heap) (p : ℕ) : Decidable (h.Fresh p) := inferInstanceAs (Decidable (_ ∧ _))

end Heap

/-! ### Runs -/

/-- The heap and the objects that its users have, with the lengths they asked for. -/
structure HeapUse where
  heap : Heap
  live : List (ℕ × ℕ)

/-- What the users of the heap do. -/
inductive HeapEvent
  | malloc (len descPage page : ℕ)
  | freeS (obj len size : ℕ)
  /-- A user stores a value in its object. -/
  | store (obj len a : ℕ) (v : Option ℕ)

/-- One call, or one store. -/
def HeapUse.next (s : HeapUse) : HeapEvent → Option HeapUse
  | .malloc len descPage page =>
    if len ≤ pageSize ∧ s.heap.Fresh descPage ∧ s.heap.Fresh page ∧ descPage ≠ page then
      (s.heap.malloc len descPage page).map fun r => ⟨r.2, (r.1, len) :: s.live⟩
    else none
  | .freeS obj len size =>
    if (obj, len) ∈ s.live ∧ size ≤ len then
      (s.heap.freeS obj size).map fun r => ⟨r.1, s.live.erase (obj, len)⟩
    else none
  | .store obj len a v =>
    if (obj, len) ∈ s.live ∧ obj ≤ a ∧ a < obj + len then
      some { s with heap := { s.heap with mem := Function.update s.heap.mem (a - a % 4) v } }
    else none

/-- One step of a run. -/
def HeapUse.Step (s s' : HeapUse) : Prop := ∃ e, s.next e = some s'

/-- The heap before its first use. -/
def HeapUse.Start (s : HeapUse) : Prop := s = ⟨Heap.init, []⟩

end LihaLinux.Malloc
