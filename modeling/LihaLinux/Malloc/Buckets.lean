import LihaLinux.Malloc.Slots

/-!
# Buckets

The books of the heap: every descriptor is in one list, and the slots of a bucket are its free
list and the objects that are in use. Each operation of `malloc` and `free_s` keeps them.
-/

namespace LihaLinux.Malloc

/-- The objects on a page that are in use. -/
def onPage (live : List (ℕ × ℕ)) (p : ℕ) : List ℕ :=
  (live.map Prod.fst).filter fun a => pageOf a = p

theorem mem_onPage {live : List (ℕ × ℕ)} {p a : ℕ} :
    a ∈ onPage live p ↔ (∃ len, (a, len) ∈ live) ∧ pageOf a = p := by
  simp [onPage]

theorem onPage_cons_self {live : List (ℕ × ℕ)} {o : ℕ × ℕ} {p : ℕ} (h : pageOf o.1 = p) :
    onPage (o :: live) p = o.1 :: onPage live p := by
  rw [onPage, List.map_cons, List.filter_cons_of_pos (by simpa using h), onPage]

theorem onPage_cons_ne {live : List (ℕ × ℕ)} {o : ℕ × ℕ} {p : ℕ} (h : pageOf o.1 ≠ p) :
    onPage (o :: live) p = onPage live p := by
  rw [onPage, List.map_cons, List.filter_cons_of_neg (by simpa using h), onPage]

theorem onPage_perm {live live' : List (ℕ × ℕ)} (h : live.Perm live') (p : ℕ) :
    (onPage live p).Perm (onPage live' p) := (h.map Prod.fst).filter _

/-- A bucket: its count is the number of its objects, and its free list has the other slots. -/
structure Bucket (h : Heap) (used : List ℕ) (i d : ℕ) : Prop where
  refcnt : h.refcnt d = used.length
  free : ∃ free, Linked h.mem (h.freeptr d) free ∧ (free ++ used).Perm (objectSlots (h.page d) i)

namespace Bucket

variable {h h' : Heap} {used used' : List ℕ} {i d a : ℕ}

/-- A bucket depends on its descriptor and on its free slots only. -/
theorem congr (hb : Bucket h used i d) (hi : i < nrBuckets) (hused : used.Perm used')
    (hpage : h'.page d = h.page d) (hfree : h'.freeptr d = h.freeptr d)
    (href : h'.refcnt d = h.refcnt d)
    (hmem : ∀ a ∈ objectSlots (h.page d) i, a ∉ used → h'.mem a = h.mem a) :
    Bucket h' used' i d := by
  obtain ⟨free, hlinked, hperm⟩ := hb.free
  refine ⟨by rw [href, hb.refcnt, hused.length_eq], free, ?_, ?_⟩
  · rw [hfree]
    refine hlinked.congr fun a ha => hmem a (hperm.subset (by simp [ha])) fun hu => ?_
    have hnodup := hperm.nodup_iff.mpr (nodup_objectSlots _ hi)
    exact (List.disjoint_of_nodup_append hnodup) ha hu
  · rw [hpage]
    exact (hused.symm.append_left free).trans hperm

theorem used_subset (hb : Bucket h used i d) (ha : a ∈ used) : a ∈ objectSlots (h.page d) i := by
  obtain ⟨free, -, hperm⟩ := hb.free
  exact hperm.subset (by simp [ha])

theorem length_le (hb : Bucket h used i d) (hi : i < nrBuckets) : used.length ≤ 256 := by
  obtain ⟨free, -, hperm⟩ := hb.free
  have hlen := hperm.length_eq
  rw [List.length_append, objectSlots_length] at hlen
  have := (bucketSize_dvd i hi).2.2.2.2
  omega

/-- The first free object is taken. -/
theorem take (hb : Bucket h used i d) (hi : i < nrBuckets) (ha : h.freeptr d = some a)
    (hpage : h'.page d = h.page d) (hfree : h'.freeptr d = h.mem a)
    (href : h'.refcnt d = (h.refcnt d + 1) % 65536) (hmem : h'.mem = h.mem) :
    Bucket h' (a :: used) i d := by
  obtain ⟨free, hlinked, hperm⟩ := hb.free
  cases free with
  | nil => exact absurd (hlinked.symm.trans ha) nofun
  | cons b free =>
    obtain ⟨hhead, hrest⟩ := hlinked
    obtain rfl : a = b := Option.some.inj (ha.symm.trans hhead)
    refine ⟨?_, free, by rwa [hfree, hmem], ?_⟩
    · have := hb.length_le hi
      rw [href, hb.refcnt, List.length_cons]
      omega
    · rw [hpage]
      exact List.perm_middle.trans hperm

/-- An object becomes the first free one. -/
theorem put (hb : Bucket h (a :: used) i d) (hi : i < nrBuckets) :
    Bucket (h.putObject d a) used i d := by
  obtain ⟨free, hlinked, hperm⟩ := hb.free
  have hnodup := (List.perm_middle.nodup_iff.mp (hperm.nodup_iff.mpr (nodup_objectSlots _ hi)))
  have hmem : (h.putObject d a).mem = Function.update h.mem a (h.freeptr d) := rfl
  have hptr : (h.putObject d a).freeptr d = some a := Function.update_self ..
  have href : (h.putObject d a).refcnt d = (h.refcnt d + 65535) % 65536 := Function.update_self ..
  refine ⟨?_, a :: free, ⟨hptr, ?_⟩, List.perm_middle.symm.trans hperm⟩
  · have hle := hb.length_le hi
    rw [href, hb.refcnt, List.length_cons]
    rw [List.length_cons] at hle
    omega
  · rw [hmem, Function.update_self]
    refine hlinked.congr fun b hfree => Function.update_of_ne (fun hba => ?_) ..
    exact (List.nodup_cons.mp hnodup).1 (List.mem_append_left used (hba ▸ hfree))

/-- A bucket without a free object is full. -/
theorem full (hb : Bucket h used i d) (hi : i < nrBuckets) (hnone : h.freeptr d = none) :
    used ≠ [] := by
  rintro rfl
  obtain ⟨free, hlinked, hperm⟩ := hb.free
  have hlen := hperm.length_eq
  rw [hnone] at hlinked
  obtain rfl : free = [] := List.head?_eq_none_iff.mp hlinked.head.symm
  rw [objectSlots_length] at hlen
  exact absurd hlen (bucketSize_dvd i hi).2.2.2.1.ne

end Bucket

/-! ### The lists of descriptors -/

/-- The first descriptor of a chain, or with `none` of the free list. -/
def Heap.first (h : Heap) : Option ℕ → Option ℕ
  | none => h.freeBucketDesc
  | some i => h.chain i

/-- The books of the heap: the lists of descriptors, and for each descriptor in a chain its
bucket. -/
structure Books (h : Heap) (live : List (ℕ × ℕ)) (l : Option ℕ → List ℕ) : Prop where
  lists : Lists h.next h.first l
  chains : ∀ {i d}, d ∈ l (some i) → i < nrBuckets
  descs : ∀ d, d ∈ h.descPages.flatMap descSlots ↔ ∃ c, d ∈ l c
  aligned : ∀ p ∈ h.descPages ++ h.bucketPages, p % pageSize = 0
  pages : (h.descPages ++ h.bucketPages).Nodup
  bucketPages : ∀ p, p ∈ h.bucketPages ↔ ∃ i, ∃ d ∈ l (some i), h.page d = p
  inj : ∀ {i j d d'}, d ∈ l (some i) → d' ∈ l (some j) → h.page d = h.page d' → d = d'
  bucket : ∀ {i d}, d ∈ l (some i) → Bucket h (onPage live (h.page d)) i d
  owner : ∀ {a len}, (a, len) ∈ live →
    ∃ i, ∃ d ∈ l (some i), findBucket len = some i ∧ h.page d = pageOf a

/-- Every bucket has an object. -/
def Busy (h : Heap) (live : List (ℕ × ℕ)) (l : Option ℕ → List ℕ) : Prop :=
  ∀ i d, d ∈ l (some i) → onPage live (h.page d) ≠ []

namespace Books

variable {h h' : Heap} {live : List (ℕ × ℕ)} {l : Option ℕ → List ℕ} {i j d p a len : ℕ}

/-- The heap has nothing at first. -/
theorem init : Books Heap.init [] fun _ => [] where
  lists := ⟨fun b => by cases b <;> rfl, fun _ => List.nodup_nil, fun h _ => nomatch h⟩
  chains h := nomatch h
  descs d := by simp [Heap.init]
  aligned _ hp := nomatch hp
  pages := List.nodup_nil
  bucketPages p := by simp [Heap.init]
  inj h := nomatch h
  bucket h := nomatch h
  owner h := nomatch h

/-- Descriptors lie on their own pages. -/
theorem pageOf_desc (hb : Books h live l) {c : Option ℕ} (hd : d ∈ l c) :
    pageOf d ∈ h.descPages := by
  obtain ⟨p, hp, hslot⟩ := List.mem_flatMap.mp ((hb.descs d).mpr ⟨c, hd⟩)
  rwa [pageOf_descSlots (hb.aligned p (List.mem_append_left _ hp)) hslot]

theorem page_mem (hb : Books h live l) (hd : d ∈ l (some i)) : h.page d ∈ h.bucketPages :=
  (hb.bucketPages _).mpr ⟨i, d, hd, rfl⟩

theorem page_aligned (hb : Books h live l) (hd : d ∈ l (some i)) : h.page d % pageSize = 0 :=
  hb.aligned _ (List.mem_append_right _ (hb.page_mem hd))

/-- A new page has no descriptor on it. -/
theorem pageOf_ne (hb : Books h live l) (hp : h.Fresh p) {c : Option ℕ} (hd : d ∈ l c) :
    pageOf d ≠ p := fun hdp => hp.2.2.1 (hdp ▸ hb.pageOf_desc hd)

/-- A new page is the page of no bucket. -/
theorem page_ne (hb : Books h live l) (hp : h.Fresh p) (hd : d ∈ l (some i)) : h.page d ≠ p :=
  fun hdp => hp.2.2.2 (hdp ▸ hb.page_mem hd)

theorem zeroPage_of_ne {β : Type} {zero : β} {f : ℕ → β} (ha : pageOf a ≠ p) :
    zeroPage p zero f a = f a := if_neg ha

/-- No object is on a new page. -/
theorem onPage_fresh (hb : Books h live l) (hp : h.Fresh p) : onPage live p = [] := by
  rw [List.eq_nil_iff_forall_not_mem]
  intro a ha
  obtain ⟨⟨len, hlive⟩, hpage⟩ := mem_onPage.mp ha
  obtain ⟨i, d, hd, -, hdp⟩ := hb.owner hlive
  exact hb.page_ne hp hd (hdp.trans hpage)

/-- No chain is longer than the number of buckets. -/
theorem length_le (hb : Books h live l) (i : ℕ) : (l (some i)).length ≤ h.bucketPages.length := by
  have hnodup : ((l (some i)).map h.page).Nodup :=
    (hb.lists.nodup _).map_on fun _ hx _ hy hxy => hb.inj hx hy hxy
  have hsub : (l (some i)).map h.page ⊆ h.bucketPages := by
    intro p hp
    obtain ⟨d, hd, rfl⟩ := List.mem_map.mp hp
    exact hb.page_mem hd
  have hle := hnodup.length_le_of_subset hsub
  rwa [List.length_map] at hle

/-! ### New descriptors and new buckets -/

/-- `init_bucket_desc` puts the descriptors of a page in front of the free list. -/
theorem initBucketDesc (hb : Books h live l) (hp : h.Fresh p) :
    Books (h.initBucketDesc p) live (Function.update l none (descSlots p ++ l none)) := by
  have hother : ∀ i, Function.update l none (descSlots p ++ l none) (some i) = l (some i) :=
    fun i => Function.update_of_ne (Option.some_ne_none i) ..
  have hself : Function.update l none (descSlots p ++ l none) none = descSlots p ++ l none :=
    Function.update_self ..
  have hnew : ∀ c, ∀ x ∈ descSlots p, x ∉ l c := fun c x hx hc =>
    hb.pageOf_ne hp hc (pageOf_descSlots hp.2.1 hx)
  have hfirst : (h.initBucketDesc p).first = Function.update h.first none (some p) := by
    funext c
    cases c with
    | none => rw [Function.update_self]; rfl
    | some i => rw [Function.update_of_ne (Option.some_ne_none i)]; rfl
  have hzero : ∀ c, ∀ x ∈ l c, (h.getFreePage p).next x = h.next x :=
    fun c x hx => zeroPage_of_ne (hb.pageOf_ne hp hx)
  have hpage : ∀ {i d}, d ∈ l (some i) → (h.initBucketDesc p).page d = h.page d :=
    fun hd => zeroPage_of_ne (hb.pageOf_ne hp hd)
  refine ⟨?_, fun hd => ?_, fun d => ?_, ?_, ?_, fun q => ?_, fun hd hd' => ?_, fun {i d} hd => ?_,
    fun hlive => ?_⟩
  · rw [hfirst]
    refine hb.lists.replace ?_ ?_ (fun c hc x hx hxc => ?_) fun c hc x hx => ?_
    · rw [← descSlots_eq, Heap.initBucketDesc_next]
      refine linked_linkRun (by decide) ((hb.lists.linked none).congr (hzero none)) ?_
      intro x hx hs
      rw [descSlots_eq] at hs
      exact hnew none x hs hx
    · exact List.nodup_append'.mpr ⟨nodup_descSlots p, hb.lists.nodup none, fun x => hnew none x⟩
    · rcases List.mem_append.mp hx with hs | hn
      · exact hnew c x hs hxc
      · exact hc (hb.lists.disjoint hxc hn)
    · rw [Heap.initBucketDesc_next]
      refine (linkRun_of_notMem fun hs => ?_).trans (hzero c x hx)
      rw [descSlots_eq] at hs
      exact hnew c x hs hx
  · rw [hother] at hd
    exact hb.chains hd
  · have hdescs : (h.initBucketDesc p).descPages = p :: h.descPages := rfl
    rw [hdescs, List.flatMap_cons, List.mem_append, hb.descs]
    constructor
    · rintro (hs | ⟨c, hc⟩)
      · exact ⟨none, by rw [hself]; exact List.mem_append_left _ hs⟩
      · cases c with
        | none => exact ⟨none, by rw [hself]; exact List.mem_append_right _ hc⟩
        | some i => exact ⟨some i, by rwa [hother]⟩
    · rintro ⟨c, hc⟩
      cases c with
      | none =>
        rw [hself] at hc
        exact (List.mem_append.mp hc).imp_right fun hn => ⟨none, hn⟩
      | some i =>
        rw [hother] at hc
        exact Or.inr ⟨some i, hc⟩
  · intro q hq
    rcases List.mem_cons.mp hq with rfl | hq
    · exact hp.2.1
    · exact hb.aligned q hq
  · exact List.nodup_cons.mpr ⟨fun hmem => (List.mem_append.mp hmem).elim hp.2.2.1 hp.2.2.2,
      hb.pages⟩
  · have hbp : (h.initBucketDesc p).bucketPages = h.bucketPages := rfl
    rw [hbp, hb.bucketPages]
    refine exists_congr fun i => exists_congr fun d => ?_
    rw [hother]
    exact and_congr_right fun hd => by rw [hpage hd]
  · rw [hother] at hd hd'
    rw [hpage hd, hpage hd']
    exact hb.inj hd hd'
  · rw [hother] at hd
    rw [hpage hd]
    have hne := hb.pageOf_ne hp hd
    refine (hb.bucket hd).congr (hb.chains hd) (.refl _) (hpage hd) (zeroPage_of_ne hne)
      (zeroPage_of_ne hne) fun a ha _ => zeroPage_of_ne ?_
    rw [pageOf_objectSlots (hb.page_aligned hd) (hb.chains hd) ha]
    exact hb.page_ne hp hd
  · obtain ⟨i, d, hd, hlen, hdp⟩ := hb.owner hlive
    exact ⟨i, d, by rwa [hother], hlen, (hpage hd).trans hdp⟩

/-- A free descriptor and a new page become the first bucket of a chain. -/
theorem addBucket (hb : Books h live l) (hp : h.Fresh p) (hi : i < nrBuckets) {r : List ℕ}
    (hnone : l none = d :: r) : Books (h.addBucket i d p) live
      (Function.update (Function.update l none r) (some i) (d :: l (some i))) := by
  set l' := Function.update (Function.update l none r) (some i) (d :: l (some i)) with hl'
  have hfree : l' none = r := by
    rw [hl', Function.update_of_ne (Option.some_ne_none i).symm, Function.update_self]
  have hchain : ∀ {j x}, x ∈ l' (some j) ↔ x = d ∧ j = i ∨ x ∈ l (some j) := by
    intro j x
    by_cases hji : j = i
    · subst hji
      rw [hl', Function.update_self, List.mem_cons]
      simp
    · rw [hl', Function.update_of_ne (fun he => hji (Option.some.inj he)),
        Function.update_of_ne (Option.some_ne_none j)]
      simp [hji]
  have hdnone : d ∈ l none := by simp [hnone]
  have hdnew : ∀ j, d ∉ l (some j) := fun j hd =>
    absurd (hb.lists.disjoint hd hdnone) (Option.some_ne_none j)
  have hdr : d ∉ r := (List.nodup_cons.mp (hnone ▸ hb.lists.nodup none)).1
  have hpd : (h.addBucket i d p).page d = p := Function.update_self ..
  have hne : ∀ {c x}, x ∈ l c → pageOf x ≠ p := fun hx => hb.pageOf_ne hp hx
  have hold : ∀ {β : Type} {f : ℕ → β} {zero v : β} {j x}, x ∈ l (some j) →
      Function.update (zeroPage p zero f) d v x = f x := by
    intro β f zero v j x hx
    rw [Function.update_of_ne (ne_of_mem_of_not_mem hx (hdnew j)), zeroPage_of_ne (hne hx)]
  have hpage : ∀ {j x}, x ∈ l (some j) → (h.addBucket i d p).page x = h.page x := hold
  refine ⟨?_, fun hd => ?_, fun x => ?_, ?_, ?_, fun q => ?_, fun {j j' x x'} hx hx' hxx => ?_,
    fun {j x} hx => ?_, fun hlive => ?_⟩
  · have hpop := hb.lists.pop hnone
    have hsub : ∀ c, ∀ x ∈ Function.update l none r c, x ∈ l c := by
      intro c x hx
      cases c with
      | none => rw [Function.update_self] at hx; simp [hnone, hx]
      | some j => rwa [Function.update_of_ne (Option.some_ne_none j)] at hx
    have hnext : ∀ c, ∀ x ∈ Function.update l none r c, zeroPage p none h.next x = h.next x :=
      fun c x hx => zeroPage_of_ne (hne (hsub c x hx))
    have hout : ∀ c, d ∉ Function.update l none r c := by
      intro c hd
      cases c with
      | none => exact hdr (by rwa [Function.update_self] at hd)
      | some j => exact hdnew j (hsub _ d hd)
    have hpush := (hpop.congr hnext).push (b := some i) hout
    have hfirst : (h.addBucket i d p).first =
        Function.update (Function.update h.first none (h.next d)) (some i) (some d) := by
      funext c
      cases c with
      | none =>
        rw [Function.update_of_ne (Option.some_ne_none i).symm, Function.update_self]
        rfl
      | some j =>
        by_cases hji : j = i
        · subst hji
          rw [Function.update_self]
          exact Function.update_self ..
        · rw [Function.update_of_ne (fun he => hji (Option.some.inj he)),
            Function.update_of_ne (Option.some_ne_none j)]
          exact Function.update_of_ne hji ..
    rw [Function.update_of_ne (Option.some_ne_none i),
      Function.update_of_ne (Option.some_ne_none i)] at hpush
    rw [hfirst]
    exact hpush
  · rcases hchain.mp hd with ⟨-, rfl⟩ | hd
    · exact hi
    · exact hb.chains hd
  · have hdescs : (h.addBucket i d p).descPages = h.descPages := rfl
    rw [hdescs, hb.descs]
    constructor
    · rintro ⟨c, hc⟩
      cases c with
      | none =>
        rw [hnone, List.mem_cons] at hc
        rcases hc with rfl | hc
        · exact ⟨some i, hchain.mpr (Or.inl ⟨rfl, rfl⟩)⟩
        · exact ⟨none, by rwa [hfree]⟩
      | some j => exact ⟨some j, hchain.mpr (Or.inr hc)⟩
    · rintro ⟨c, hc⟩
      cases c with
      | none =>
        rw [hfree] at hc
        exact ⟨none, by simp [hnone, hc]⟩
      | some j =>
        rcases hchain.mp hc with ⟨rfl, -⟩ | hc
        · exact ⟨none, hdnone⟩
        · exact ⟨some j, hc⟩
  · intro q hq
    rcases List.mem_append.mp hq with hq | hq
    · exact hb.aligned q (List.mem_append_left _ hq)
    · rcases List.mem_cons.mp hq with rfl | hq
      · exact hp.2.1
      · exact hb.aligned q (List.mem_append_right _ hq)
  · refine List.perm_middle.nodup_iff.mpr (List.nodup_cons.mpr ⟨fun hmem => ?_, hb.pages⟩)
    exact (List.mem_append.mp hmem).elim hp.2.2.1 hp.2.2.2
  · have hbp : (h.addBucket i d p).bucketPages = p :: h.bucketPages := rfl
    rw [hbp, List.mem_cons, hb.bucketPages]
    constructor
    · rintro (rfl | ⟨j, x, hx, rfl⟩)
      · exact ⟨i, d, hchain.mpr (Or.inl ⟨rfl, rfl⟩), hpd⟩
      · exact ⟨j, x, hchain.mpr (Or.inr hx), hpage hx⟩
    · rintro ⟨j, x, hx, rfl⟩
      rcases hchain.mp hx with ⟨rfl, -⟩ | hx
      · exact Or.inl hpd
      · exact Or.inr ⟨j, x, hx, (hpage hx).symm⟩
  · rcases hchain.mp hx with ⟨hxd, -⟩ | hxl <;> rcases hchain.mp hx' with ⟨hxd', -⟩ | hxl'
    · exact hxd.trans hxd'.symm
    · rw [hxd, hpd, hpage hxl'] at hxx
      exact absurd hxx.symm (hb.page_ne hp hxl')
    · rw [hxd', hpd, hpage hxl] at hxx
      exact absurd hxx (hb.page_ne hp hxl)
    · rw [hpage hxl, hpage hxl'] at hxx
      exact hb.inj hxl hxl' hxx
  · rcases hchain.mp hx with ⟨rfl, rfl⟩ | hx
    · rw [hpd, hb.onPage_fresh hp]
      have hzero : (h.addBucket j x p).refcnt x = 0 := by
        have hupd : (h.addBucket j x p).refcnt x =
          zeroPage p 0 (Function.update h.refcnt x 0) x := rfl
        rw [hupd, zeroPage_of_ne (hne hdnone), Function.update_self]
      have hptr : (h.addBucket j x p).freeptr x = some p := Function.update_self ..
      refine ⟨hzero, objectSlots p j, ?_, by rw [hpd, List.append_nil]⟩
      rw [hptr, Heap.addBucket_mem, ← objectSlots_eq p hi,
        ← (slots p (pageSize / bucketSize j - 1 + 1) (bucketSize j)).append_nil]
      refine linked_linkRun ?_ rfl fun a ha => absurd ha List.not_mem_nil
      have := (bucketSize_dvd j hi).1
      omega
    · have hxd : x ≠ d := ne_of_mem_of_not_mem hx (hdnew j)
      have href : (h.addBucket i d p).refcnt x = h.refcnt x := by
        have hupd : (h.addBucket i d p).refcnt x =
          zeroPage p 0 (Function.update h.refcnt d 0) x := rfl
        rw [hupd, zeroPage_of_ne (hne hx), Function.update_of_ne hxd]
      rw [hpage hx]
      refine (hb.bucket hx).congr (hb.chains hx) (.refl _) (hpage hx) (hold hx) href
        fun a ha _ => ?_
      have hap : pageOf a ≠ p := by
        rw [pageOf_objectSlots (hb.page_aligned hx) (hb.chains hx) ha]
        exact hb.page_ne hp hx
      rw [Heap.addBucket_mem, linkRun_of_notMem fun hs => ?_]
      · exact zeroPage_of_ne hap
      · rw [objectSlots_eq p hi] at hs
        exact hap (pageOf_objectSlots hp.2.1 hi hs)
  · obtain ⟨j, x, hx, hlen, hxp⟩ := hb.owner hlive
    exact ⟨j, x, hchain.mpr (Or.inr hx), hlen, (hpage hx).trans hxp⟩

/-- `malloc` makes a new bucket where it needs one, which alone has no object yet. -/
theorem newBucket (hb : Books h live l) {q : ℕ} (hq : h.Fresh q) (hp : h.Fresh p) (hqp : q ≠ p)
    (hi : i < nrBuckets) (hbusy : Busy h live l) :
    ∃ d h' l', h.newBucket i q p = some (d, h') ∧ Books h' live l' ∧ d ∈ l' (some i) ∧
      h'.freeptr d = some p ∧
      ∀ j x, x ∈ l' (some j) → x = d ∨ onPage live (h'.page x) ≠ [] := by
  obtain ⟨h₁, l₁, hh₁, hb₁, hp₁, hbusy₁, hsome⟩ : ∃ h₁ l₁,
      (if h.freeBucketDesc.isNone then h.initBucketDesc q else h) = h₁ ∧ Books h₁ live l₁ ∧
        h₁.Fresh p ∧ Busy h₁ live l₁ ∧ h₁.freeBucketDesc.isSome := by
    cases hfree : h.freeBucketDesc with
    | none =>
      refine ⟨_, _, if_pos rfl, hb.initBucketDesc hq, ⟨hp.1, hp.2.1, ?_, hp.2.2.2⟩, ?_, rfl⟩
      · exact List.not_mem_cons_of_ne_of_not_mem hqp.symm hp.2.2.1
      · intro j x hx
        rw [Function.update_of_ne (Option.some_ne_none j)] at hx
        have hpage : (h.initBucketDesc q).page x = h.page x := zeroPage_of_ne (hb.pageOf_ne hq hx)
        rw [hpage]
        exact hbusy j x hx
    | some d => exact ⟨h, l, if_neg nofun, hb, hp, hbusy, by rw [hfree]; rfl⟩
  obtain ⟨d, hd⟩ := Option.isSome_iff_exists.mp hsome
  have hhead : h₁.freeBucketDesc = (l₁ none).head? := (hb₁.lists.linked none).head
  obtain ⟨r, hr⟩ : ∃ r, l₁ none = d :: r := by
    rw [hd] at hhead
    exact ⟨_, List.eq_cons_of_mem_head? hhead.symm⟩
  refine ⟨d, _, _, ?_, hb₁.addBucket hp₁ hi hr, ?_, Function.update_self .., fun j x hx => ?_⟩
  · rw [Heap.newBucket, hh₁, hd, Option.map_some]
  · rw [Function.update_self]
    exact List.mem_cons_self
  · by_cases hxd : x = d
    · exact Or.inl hxd
    · have hxl : x ∈ l₁ (some j) := by
        by_cases hji : j = i
        · subst hji
          rw [Function.update_self] at hx
          exact (List.mem_cons.mp hx).resolve_left hxd
        · rwa [Function.update_of_ne (fun he => hji (Option.some.inj he)),
            Function.update_of_ne (Option.some_ne_none j)] at hx
      have hpage : (h₁.addBucket i d p).page x = h₁.page x :=
        (Function.update_of_ne hxd ..).trans (zeroPage_of_ne (hb₁.pageOf_ne hp₁ hxl))
      rw [hpage]
      exact Or.inr (hbusy₁ j x hxl)

end Books

end LihaLinux.Malloc
