import LihaLinux.Malloc.Objects

/-!
# Runs of the heap

In every run of `malloc` and `free_s` with stores of the users into their objects, the objects in
use do not overlap, the lists of the heap are in order, the calls do not panic, and the page of a
bucket is given back with its last object.
-/

namespace LihaLinux.Malloc

/-- The size of the slot in which an object of some length lies. -/
def room (len : ℕ) : ℕ := ((findBucket len).map bucketSize).getD 0

/-- What holds of the descriptor `d` of a bucket in a chain. -/
structure BucketSound (h : Heap) (live : List (ℕ × ℕ)) (i d : ℕ) : Prop where
  refcnt : h.refcnt d = (onPage live (h.page d)).length
  free : ∃ free, Linked h.mem (h.freeptr d) free ∧ free.Nodup ∧
    ∀ a, a ∈ free ↔ a ∈ objectSlots (h.page d) i ∧ a ∉ onPage live (h.page d)

/-- What holds of the lists of descriptors. -/
structure ListsSound (h : Heap) (live : List (ℕ × ℕ)) (l : Option ℕ → List ℕ) : Prop where
  free : Linked h.next h.freeBucketDesc (l none)
  chain : ∀ i < nrBuckets, Linked h.next (h.chain i) (l (some i))
  nodup : ∀ c, (l c).Nodup
  /-- Every descriptor is in exactly one list, and nothing else is in a list. -/
  descs : ∀ d, d ∈ h.descPages.flatMap descSlots → ∃! c, d ∈ l c
  only : ∀ c, ∀ d ∈ l c, d ∈ h.descPages.flatMap descSlots ∧ ∀ i, c = some i → i < nrBuckets
  bucket : ∀ i, ∀ d ∈ l (some i), BucketSound h live i d

namespace HeapUse

/-- What holds of the heap and of the objects in use. -/
structure Sound (s : HeapUse) : Prop where
  disjoint : s.live.Pairwise fun o o' => o.1 + room o.2 ≤ o'.1 ∨ o'.1 + room o'.2 ≤ o.1
  inPage : ∀ o ∈ s.live, o.2 ≤ room o.2 ∧ pageOf o.1 ∈ s.heap.bucketPages ∧
    o.1 + room o.2 ≤ pageOf o.1 + pageSize
  lists : ∃ l, ListsSound s.heap s.live l
  malloc : ∀ len descPage page, len ≤ pageSize → s.heap.Fresh descPage → s.heap.Fresh page →
    descPage ≠ page → (s.heap.malloc len descPage page).isSome
  /-- A page is given back exactly with its last object. -/
  freeS : ∀ obj len size, (obj, len) ∈ s.live → size ≤ len →
    (s.heap.freeS obj size).map Prod.snd =
      some (if onPage s.live (pageOf obj) = [obj] then some (pageOf obj) else none)

/-- The books are in order, and every bucket has an object. -/
def Inv (s : HeapUse) : Prop := ∃ l, Books s.heap s.live l ∧ Busy s.heap s.live l

/-- A step keeps the books. -/
theorem Inv.step {s s' : HeapUse} (h : s.Inv) (hstep : s.Step s') : s'.Inv := by
  obtain ⟨l, hb, hbusy⟩ := h
  obtain ⟨e, he⟩ := hstep
  cases e with
  | malloc len q p =>
    obtain ⟨⟨hlen, hq, hp, hqp⟩, he⟩ := Option.ite_none_right_eq_some.mp he
    obtain ⟨a, h', l', hmalloc, hb', hbusy'⟩ := hb.malloc hlen hq hp hqp hbusy
    rw [hmalloc] at he
    obtain rfl := Option.some.inj he
    exact ⟨l', hb', hbusy'⟩
  | freeS a len size =>
    obtain ⟨⟨hmem, hsize⟩, he⟩ := Option.ite_none_right_eq_some.mp he
    obtain ⟨h', l', hfree, hb', hbusy'⟩ := hb.freeS hmem hsize hbusy
    rw [hfree] at he
    obtain rfl := Option.some.inj he
    exact ⟨l', hb', hbusy'⟩
  | store a len b w =>
    obtain ⟨⟨hmem, hle, hlt⟩, he⟩ := Option.ite_none_right_eq_some.mp he
    obtain rfl := Option.some.inj he
    exact ⟨l, hb.store hmem hle hlt, hbusy⟩

/-- No address is in use twice. -/
theorem Inv.nodup {s : HeapUse} (h : s.Inv) : (s.live.map Prod.fst).Nodup := by
  obtain ⟨l, hb, -⟩ := h
  rw [List.nodup_iff_count_le_one]
  intro a
  by_cases ha : a ∈ s.live.map Prod.fst
  · obtain ⟨⟨b, len⟩, hlive, rfl⟩ := List.mem_map.mp ha
    obtain ⟨i, d, hd, -, hpage⟩ := hb.owner hlive
    obtain ⟨free, -, hperm⟩ := (hb.bucket hd).free
    have hnodup : (onPage s.live (s.heap.page d)).Nodup :=
      (hperm.nodup_iff.mpr (nodup_objectSlots _ (hb.chains hd))).of_append_right
    have hcount := List.nodup_iff_count_le_one.mp hnodup b
    rwa [onPage, List.count_filter (by simpa using hpage.symm)] at hcount
  · rw [List.count_eq_zero_of_not_mem ha]
    exact Nat.zero_le 1

/-- The room of an object is its slot. -/
theorem room_eq {len i : ℕ} (h : findBucket len = some i) : room len = bucketSize i := by
  rw [room, h, Option.map_some, Option.getD_some]

theorem Inv.sound {s : HeapUse} (h : s.Inv) : s.Sound := by
  have hnodup := h.nodup
  obtain ⟨l, hb, hbusy⟩ := h
  have hslot : ∀ {a len}, (a, len) ∈ s.live → ∃ i, ∃ d ∈ l (some i), findBucket len = some i ∧
      s.heap.page d = pageOf a ∧ a ∈ objectSlots (pageOf a) i := by
    intro a len hmem
    obtain ⟨i, d, hd, hlen, hpage⟩ := hb.owner hmem
    have haon : a ∈ onPage s.live (s.heap.page d) := mem_onPage.mpr ⟨⟨len, hmem⟩, hpage.symm⟩
    exact ⟨i, d, hd, hlen, hpage, hpage ▸ (hb.bucket hd).used_subset haon⟩
  refine ⟨?_, ?_, ⟨l, ?_⟩, ?_, ?_⟩
  · refine (List.pairwise_map.mp hnodup).imp_of_mem fun {o o'} ho ho' hne => ?_
    obtain ⟨i, d, hd, hlen, hpage, hslot₁⟩ := hslot ho
    obtain ⟨j, d', hd', hlen', hpage', hslot₂⟩ := hslot ho'
    rw [room_eq hlen, room_eq hlen']
    by_cases hpp : pageOf o.1 = pageOf o'.1
    · obtain rfl : d = d' := hb.inj hd hd' (hpage.trans (hpp.trans hpage'.symm))
      obtain rfl : i = j := Option.some.inj (hb.lists.disjoint hd hd')
      rw [← hpp] at hslot₂
      exact slots_disjoint hslot₁ hslot₂ hne
    · have hbound := objectSlots_bounds (hb.chains hd) hslot₁
      have hbound' := objectSlots_bounds (hb.chains hd') hslot₂
      simp only [pageOf, pageSize] at *
      omega
  · intro o ho
    obtain ⟨i, d, hd, hlen, hpage, hslot₁⟩ := hslot ho
    rw [room_eq hlen]
    exact ⟨(findBucket_spec hlen).2, hpage ▸ hb.page_mem hd,
      (objectSlots_bounds (hb.chains hd) hslot₁).2⟩
  · refine ⟨hb.lists.linked none, fun i _ => hb.lists.linked (some i), hb.lists.nodup,
      fun d hd => ?_, fun c d hd => ⟨(hb.descs d).mpr ⟨c, hd⟩, fun i hc => ?_⟩, fun i d hd => ?_⟩
    · obtain ⟨c, hc⟩ := (hb.descs d).mp hd
      exact ⟨c, hc, fun c' hc' => hb.lists.disjoint hc' hc⟩
    · subst hc
      exact hb.chains hd
    · obtain ⟨free, hlinked, hperm⟩ := (hb.bucket hd).free
      have hnd := hperm.nodup_iff.mpr (nodup_objectSlots _ (hb.chains hd))
      refine ⟨(hb.bucket hd).refcnt, free, hlinked, hnd.of_append_left, fun a => ?_⟩
      rw [← hperm.mem_iff, List.mem_append]
      constructor
      · intro ha
        exact ⟨Or.inl ha, fun hu => List.disjoint_of_nodup_append hnd ha hu⟩
      · rintro ⟨ha, hu⟩
        exact ha.resolve_right hu
  · intro len q p hlen hq hp hqp
    obtain ⟨a, h', l', hmalloc, -⟩ := hb.malloc hlen hq hp hqp hbusy
    rw [hmalloc]
    rfl
  · intro a len size hmem hsize
    obtain ⟨h', l', hfree, -⟩ := hb.freeS hmem hsize hbusy
    rw [hfree, Option.map_some]

/-- In every run the books are in order. -/
theorem inv_of_reachable {s : HeapUse} (h : Reachable Start Step s) : s.Inv :=
  h.invariant
    (fun s hs => by
      rw [hs]
      exact ⟨_, Books.init, fun i d hd => absurd hd List.not_mem_nil⟩)
    fun _ _ hs hstep => hs.step hstep

/-- In every run the objects in use and the books of the heap are in order. -/
theorem sound_of_reachable {s : HeapUse} (h : Reachable Start Step s) : s.Sound :=
  (inv_of_reachable h).sound

/-- Two objects share a page; one is freed, and a third one of another size gets a page. -/
theorem sound_of_reachable_sample : ∃ s : HeapUse,
    s.live = [(12288, 100), (8192, 10)] ∧ s.Sound := by
  have hstart : Reachable Start Step ⟨Heap.init, []⟩ := .of_init rfl
  have hrun : (runEvents next ⟨Heap.init, []⟩
      [.malloc 10 4096 8192, .malloc 16 16384 12288, .store 8208 16 8210 (some 1),
        .freeS 8208 16 0, .malloc 100 16384 12288]).any
          (fun s => s.live = [(12288, 100), (8192, 10)]) = true := by
    decide +kernel
  obtain ⟨s, hs, -, hP⟩ := hstart.exists_runEvents (fun _ e _ he => ⟨e, he⟩) hrun
  exact ⟨s, of_decide_eq_true hP, sound_of_reachable hs⟩

/-- In every run `free_s` takes an object back, and the size that its user gives does not change
the heap after it, nor the page that is given back. -/
theorem freeS_size_of_reachable {s : HeapUse} {obj len size : ℕ} (h : Reachable Start Step s)
    (hmem : (obj, len) ∈ s.live) (hsize : size ≤ len) :
    ∃ h' freed, s.heap.freeS obj size = some (h', freed) ∧
      s.heap.freeS obj 0 = some (h', freed) := by
  obtain ⟨l, hb, hbusy⟩ := inv_of_reachable h
  obtain ⟨h', l', hfree, -⟩ := hb.freeS hmem (Nat.zero_le len) hbusy
  obtain ⟨i, d, hd, hlen, hpage⟩ := hb.owner hmem
  obtain ⟨hi, hle⟩ := findBucket_spec hlen
  have hfind := hb.findPage_size hd (hsize.trans hle) (List.mem_range.mpr hi)
  rw [hpage] at hfind
  have hsame : s.heap.freeS obj size = s.heap.freeS obj 0 := by
    rw [Heap.freeS, Heap.freeS, hfind]
  rw [hsame]
  exact ⟨h', _, hfree, hfree⟩

/-- The second of two objects of 10 and 100 bytes is freed with a size that leaves out chains. -/
theorem freeS_size_of_reachable_sample : ∃ s : HeapUse, (12288, 100) ∈ s.live ∧
    ∃ h' freed, s.heap.freeS 12288 100 = some (h', freed) ∧
      s.heap.freeS 12288 0 = some (h', freed) := by
  have hstart : Reachable Start Step ⟨Heap.init, []⟩ := .of_init rfl
  have hrun : (runEvents next ⟨Heap.init, []⟩ [.malloc 10 4096 8192, .malloc 100 16384 12288]).any
      (fun s => decide ((12288, 100) ∈ s.live)) = true := by
    decide +kernel
  obtain ⟨s, hs, -, hP⟩ := hstart.exists_runEvents (fun _ e _ he => ⟨e, he⟩) hrun
  have hmem : (12288, 100) ∈ s.live := of_decide_eq_true hP
  exact ⟨s, hmem, freeS_size_of_reachable hs hmem (Nat.le_refl 100)⟩

end HeapUse

end LihaLinux.Malloc
