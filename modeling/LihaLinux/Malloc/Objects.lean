import LihaLinux.Malloc.Buckets

/-!
# Objects

`malloc` takes a slot out of the free list of a bucket, and `free_s` puts it back and gives the
page of a bucket back that has no object any more. In every run of the two the objects in use do
not overlap, and a page is given back with its last object.
-/

namespace LihaLinux.Malloc

namespace Books

variable {h : Heap} {live live' : List (ℕ × ℕ)} {l : Option ℕ → List ℕ} {i d p a len size : ℕ}

/-- The lists and the pages do not depend on the contents of the buckets. -/
theorem of_buckets (hb : Books h live l) {freeptr : ℕ → Option ℕ} {refcnt : ℕ → ℕ}
    {mem : ℕ → Option ℕ}
    (hbucket : ∀ {i d}, d ∈ l (some i) →
      Bucket { h with freeptr, refcnt, mem } (onPage live' (h.page d)) i d)
    (howner : ∀ {a len}, (a, len) ∈ live' →
      ∃ i, ∃ d ∈ l (some i), findBucket len = some i ∧ h.page d = pageOf a) :
    Books { h with freeptr, refcnt, mem } live' l where
  lists := hb.lists
  chains := hb.chains
  descs := hb.descs
  aligned := hb.aligned
  pages := hb.pages
  bucketPages := hb.bucketPages
  inj := hb.inj
  bucket := hbucket
  owner := howner

/-- The slots of other buckets are elsewhere. -/
theorem objectSlots_ne (hb : Books h live l) {j d' b : ℕ} (hd : d ∈ l (some i))
    (hd' : d' ∈ l (some j)) (hne : d' ≠ d) (ha : a ∈ objectSlots (h.page d) i)
    (hmem : b ∈ objectSlots (h.page d') j) : b ≠ a := by
  rintro rfl
  have hpage := pageOf_objectSlots (hb.page_aligned hd) (hb.chains hd) ha
  have hpage' := pageOf_objectSlots (hb.page_aligned hd') (hb.chains hd') hmem
  exact hne (hb.inj hd' hd (hpage'.symm.trans hpage))

/-- The first free object of a bucket is one of its slots. -/
theorem pageOf_freeptr (hb : Books h live l) (hd : d ∈ l (some i)) (ha : h.freeptr d = some a) :
    pageOf a = h.page d := by
  obtain ⟨free, hlinked, hperm⟩ := (hb.bucket hd).free
  rw [ha] at hlinked
  have hmem : a ∈ free := List.mem_of_mem_head? (Option.mem_def.mpr hlinked.head.symm)
  exact pageOf_objectSlots (hb.page_aligned hd) (hb.chains hd)
    (hperm.subset (List.mem_append_left _ hmem))

/-- The first free object of a bucket is taken. -/
theorem popObject (hb : Books h live l) (hd : d ∈ l (some i)) (hlen : findBucket len = some i)
    (ha : h.freeptr d = some a) :
    Books (h.popObject d a) ((a, len) :: live) l := by
  have hi := hb.chains hd
  have hpage := hb.pageOf_freeptr hd ha
  refine hb.of_buckets ?_ ?_
  · intro j d' hd'
    by_cases hdd : d' = d
    · subst hdd
      obtain rfl : i = j := Option.some.inj (hb.lists.disjoint hd hd')
      rw [onPage_cons_self hpage]
      exact (hb.bucket hd).take hi ha rfl (Function.update_self ..) (Function.update_self ..) rfl
    · have hne : pageOf a ≠ h.page d' := fun hp => hdd (hb.inj hd' hd (hp.symm.trans hpage))
      rw [onPage_cons_ne hne]
      exact (hb.bucket hd').congr (hb.chains hd') (.refl _) rfl (Function.update_of_ne hdd ..)
        (Function.update_of_ne hdd ..) fun _ _ _ => rfl
  · intro b len' hlive
    rcases List.mem_cons.mp hlive with heq | hlive
    · obtain ⟨rfl, rfl⟩ := Prod.mk.inj heq
      exact ⟨i, d, hd, hlen, hpage.symm⟩
    · exact hb.owner hlive

/-- `malloc` returns an object of the requested length. -/
theorem malloc (hb : Books h live l) {q : ℕ} (hlen : len ≤ pageSize) (hq : h.Fresh q)
    (hp : h.Fresh p) (hqp : q ≠ p) (hbusy : Busy h live l) :
    ∃ a h' l', h.malloc len q p = some (a, h') ∧ Books h' ((a, len) :: live) l' ∧
      Busy h' ((a, len) :: live) l' := by
  obtain ⟨i, hi⟩ := exists_findBucket hlen
  obtain ⟨d, h', l', a, hchoose, hb', hd, ha, hbusy'⟩ : ∃ d h' l' a,
      h.chooseBucket i q p = some (d, h') ∧ Books h' live l' ∧ d ∈ l' (some i) ∧
        h'.freeptr d = some a ∧
          ∀ j x, x ∈ l' (some j) → x = d ∨ onPage live (h'.page x) ≠ [] := by
    rw [Heap.chooseBucket]
    rcases scanList_cases (P := fun d => (h.freeptr d).isSome) (hb.lists.linked (some i))
      (hb.length_le i) with ⟨prev, hscan, -⟩ | ⟨u, d, v, hl, hd, hscan⟩
    · obtain ⟨d, h', l', hnew, hb', hd, ha, hbusy'⟩ :=
        hb.newBucket hq hp hqp (findBucket_spec hi).1 hbusy
      exact ⟨d, h', l', p, (congrArg (Option.bind · _) hscan).trans hnew, hb', hd, ha, hbusy'⟩
    · obtain ⟨a, ha⟩ := Option.isSome_iff_exists.mp hd
      exact ⟨d, h, l, a, congrArg (Option.bind · _) hscan, hb, by simp [hl], ha,
        fun j x hx => Or.inr (hbusy j x hx)⟩
  have hpage := hb'.pageOf_freeptr hd ha
  refine ⟨a, h'.popObject d a, l', ?_, hb'.popObject hd hi ha, fun j x hx => ?_⟩
  · have htake : h'.takeObject d = some (a, h'.popObject d a) := by
      rw [Heap.takeObject, ha, Option.map_some]
    rw [Heap.malloc, hi]
    exact (congrArg (Option.bind · _) hchoose).trans htake
  · have hsame : (h'.popObject d a).page x = h'.page x := rfl
    rw [hsame]
    by_cases hax : pageOf a = h'.page x
    · rw [onPage_cons_self hax]
      exact List.cons_ne_nil _ _
    · rw [onPage_cons_ne hax]
      refine (hbusy' j x hx).resolve_left fun hxd => hax ?_
      rw [hxd]
      exact hpage

/-! ### `free_s` -/

/-- `free_s` finds the bucket of an object. -/
theorem findPage (hb : Books h live l) (hd : d ∈ l (some i)) (hsize : size ≤ bucketSize i)
    {is : List ℕ} (hi : i ∈ is) : ∃ u v, l (some i) = u ++ d :: v ∧
      h.findPage (h.page d) size is = some (i, u.getLast?, d) := by
  induction is with
  | nil => exact absurd hi List.not_mem_nil
  | cons j is ih =>
    rw [Heap.findPage]
    by_cases hj : bucketSize j < size
    · rw [if_pos hj]
      refine ih ((List.mem_cons.mp hi).resolve_left fun hij => ?_)
      subst hij
      omega
    · rw [if_neg hj]
      rcases scanList_cases (P := fun x => h.page x = h.page d) (hb.lists.linked (some j))
        (hb.length_le j) with ⟨prev, hscan, hno⟩ | ⟨u, x, v, hl, hx, hscan⟩
      · have hij : i ≠ j := by
          rintro rfl
          exact absurd (decide_eq_true rfl) (Bool.eq_false_iff.mp (hno d hd))
        obtain ⟨u, v, hl, hfind⟩ := ih ((List.mem_cons.mp hi).resolve_left hij)
        exact ⟨u, v, hl, (congrArg (Option.bind · _) hscan).trans hfind⟩
      · have hxj : x ∈ l (some j) := by simp [hl]
        obtain rfl : x = d := hb.inj hxj hd (of_decide_eq_true hx)
        obtain rfl : j = i := Option.some.inj (hb.lists.disjoint hxj hd)
        exact ⟨u, v, hl, congrArg (Option.bind · _) hscan⟩

/-- The chains that a size lets `free_s` leave out do not have the bucket of the object. -/
theorem findPage_size (hb : Books h live l) (hd : d ∈ l (some i)) (hsize : size ≤ bucketSize i)
    {is : List ℕ} (hi : i ∈ is) :
    h.findPage (h.page d) size is = h.findPage (h.page d) 0 is := by
  obtain ⟨u, v, hl, hfind⟩ := hb.findPage hd hsize hi
  obtain ⟨u', v', hl', hfind'⟩ := hb.findPage hd (Nat.zero_le _) hi
  have hnodup := hb.lists.nodup (some i)
  rw [hl] at hnodup
  have hdu : d ∉ u := fun hmem => List.disjoint_of_nodup_append hnodup hmem List.mem_cons_self
  have hdv : d ∉ v := (List.nodup_cons.mp hnodup.of_append_right).1
  have hsame : u' ++ d :: v' = u ++ d :: v := hl'.symm.trans hl
  have hu : u = u' := ((List.append_cons_inj_of_notMem hdu hdv).mp hsame.symm).1
  rw [hfind, hfind', hu]

/-- An object goes back into its bucket. -/
theorem putObject (hb : Books h live l) (hlive : live.Perm ((a, len) :: live'))
    (hd : d ∈ l (some i)) (hpage : h.page d = pageOf a) :
    Books (h.putObject d a) live' l := by
  have hi := hb.chains hd
  have hused : (onPage live (h.page d)).Perm (a :: onPage live' (h.page d)) := by
    rw [← onPage_cons_self (o := (a, len)) hpage.symm]
    exact onPage_perm hlive _
  have hbucket : Bucket h (a :: onPage live' (h.page d)) i d :=
    (hb.bucket hd).congr hi hused rfl rfl rfl fun _ _ _ => rfl
  have haslot := hbucket.used_subset List.mem_cons_self
  refine hb.of_buckets (fun {j d'} hd' => ?_) fun hmem =>
    hb.owner (hlive.mem_iff.mpr (List.mem_cons_of_mem _ hmem))
  by_cases hdd : d' = d
  · subst hdd
    obtain rfl : i = j := Option.some.inj (hb.lists.disjoint hd hd')
    exact hbucket.put hi
  · have hne : pageOf a ≠ h.page d' := fun hp => hdd (hb.inj hd' hd (hp.symm.trans hpage.symm))
    have hsame : (onPage live (h.page d')).Perm (onPage live' (h.page d')) :=
      (onPage_perm hlive _).trans (.of_eq (onPage_cons_ne hne))
    exact (hb.bucket hd').congr (hb.chains hd') hsame rfl (Function.update_of_ne hdd ..)
      (Function.update_of_ne hdd ..) fun b hb' _ =>
        Function.update_of_ne (hb.objectSlots_ne hd hd' hdd haslot hb') ..

/-- The predecessor that was found first is still right. -/
theorem predecessor (hb : Books h live l) {u v : List ℕ} (hl : l (some i) = u ++ d :: v) :
    h.predecessor i u.getLast? d = some u.getLast? := by
  have hlinked := hb.lists.linked (some i)
  rw [hl] at hlinked
  rw [Heap.predecessor, if_neg]
  rcases List.eq_nil_or_concat' u with rfl | ⟨u', p, rfl⟩
  · have hchain : h.chain i = some d := hlinked.1
    simp [hchain]
  · have hnext : h.next p = some d := by
      rw [List.append_assoc] at hlinked
      exact hlinked.next_eq
    simp [hnext]

/-- A descriptor leaves its chain. -/
theorem unlink (hb : Books h live l) {u v : List ℕ} (hl : l (some i) = u ++ d :: v) :
    ∃ next chain, h.unlink i u.getLast? d = some { h with next, chain } ∧
      Lists next ({ h with next, chain } : Heap).first (Function.update l (some i) (u ++ v)) := by
  rcases List.eq_nil_or_concat' u with rfl | ⟨u', p, rfl⟩
  · have hchain : h.chain i = some d := (hl ▸ hb.lists.linked (some i)).1
    refine ⟨h.next, Function.update h.chain i (h.next d), if_pos hchain, ?_⟩
    have hfirst : ({ h with chain := Function.update h.chain i (h.next d) } : Heap).first =
        Function.update h.first (some i) (h.next d) := by
      funext c
      cases c with
      | none => exact (Function.update_of_ne (Option.some_ne_none i).symm ..).symm
      | some j =>
        by_cases hji : j = i
        · subst hji
          rw [Function.update_self]
          exact Function.update_self ..
        · rw [Function.update_of_ne (fun he => hji (Option.some.inj he))]
          exact Function.update_of_ne hji ..
    have hpop := hb.lists.pop hl
    rw [hfirst]
    exact hpop
  · have hl' : l (some i) = u' ++ p :: d :: v := by rw [hl, List.append_assoc]; rfl
    refine ⟨Function.update h.next p (h.next d), h.chain, ?_, ?_⟩
    · rw [List.getLast?_concat]
      rfl
    · rw [List.append_assoc]
      exact hb.lists.remove hl'

/-- The page of a bucket without objects is given back. -/
theorem releaseBucket (hb : Books h live l) {u v : List ℕ} (hl : l (some i) = u ++ d :: v)
    (hempty : onPage live (h.page d) = []) :
    ∃ h' l', h.releaseBucket i u.getLast? d = some h' ∧ h'.page = h.page ∧ Books h' live l' ∧
      (∀ j x, x ∈ l' (some j) → x ∈ l (some j) ∧ x ≠ d) := by
  obtain ⟨next, chain, hunlink, hlists⟩ := hb.unlink hl
  have hd : d ∈ l (some i) := by simp [hl]
  have hnodup := hb.lists.nodup (some i)
  rw [hl] at hnodup
  have hduv : d ∉ u ++ v := (List.nodup_cons.mp (List.perm_middle.nodup_iff.mp hnodup)).1
  set l₁ := Function.update l (some i) (u ++ v) with hl₁
  set l' := Function.update l₁ none (d :: l none) with hl'
  have hfree : l' none = d :: l none := Function.update_self ..
  have hfree₁ : l₁ none = l none := Function.update_of_ne (Option.some_ne_none i).symm ..
  have hchain₁ : ∀ {j x}, x ∈ l₁ (some j) ↔ x ∈ l (some j) ∧ x ≠ d := by
    intro j x
    by_cases hji : j = i
    · subst hji
      rw [hl₁, Function.update_self, hl]
      constructor
      · intro hx
        have hxd : x ≠ d := ne_of_mem_of_not_mem hx hduv
        exact ⟨by simpa [hxd] using hx, hxd⟩
      · rintro ⟨hx, hxd⟩
        simpa [hxd] using hx
    · rw [hl₁, Function.update_of_ne (fun he => hji (Option.some.inj he))]
      refine ⟨fun hx => ⟨hx, ?_⟩, And.left⟩
      rintro rfl
      exact hji (Option.some.inj (hb.lists.disjoint hx hd))
  have hchain : ∀ {j x}, x ∈ l' (some j) ↔ x ∈ l (some j) ∧ x ≠ d := by
    intro j x
    rw [hl', Function.update_of_ne (Option.some_ne_none j)]
    exact hchain₁
  have hout : ∀ c, d ∉ l₁ c := by
    intro c hc
    cases c with
    | none => exact Option.some_ne_none i (hb.lists.disjoint hd (hfree₁ ▸ hc))
    | some j => exact (hchain₁.mp hc).2 rfl
  have hpush := hlists.push (b := none) hout
  have hmem : ∀ c, (∃ j, ∃ x ∈ l' (some j), h.page x = c) ↔ c ∈ h.bucketPages.erase (h.page d) := by
    intro c
    have hnd : h.bucketPages.Nodup := hb.pages.of_append_right
    rw [hnd.mem_erase_iff, hb.bucketPages]
    constructor
    · rintro ⟨j, x, hx, rfl⟩
      obtain ⟨hx, hxd⟩ := hchain.mp hx
      exact ⟨fun hp => hxd (hb.inj hx hd hp), j, x, hx, rfl⟩
    · rintro ⟨hcd, j, x, hx, rfl⟩
      exact ⟨j, x, hchain.mpr ⟨hx, fun hxd => hcd (by rw [hxd])⟩, rfl⟩
  refine ⟨({ h with next, chain } : Heap).freeBucket d, l', ?_, rfl,
    ⟨?_, fun hx => ?_, fun x => ?_, fun q hq => ?_, ?_, fun q => (hmem q).symm, fun hx hx' => ?_,
      fun hx => ?_, fun hlive => ?_⟩, fun j x => hchain.mp⟩
  · rw [Heap.releaseBucket, hb.predecessor hl]
    exact congrArg (Option.bind · _) hunlink
  · have hfirst : (({ h with next, chain } : Heap).freeBucket d).first =
        Function.update ({ h with next, chain } : Heap).first none (some d) := by
      funext c
      cases c with
      | none =>
        rw [Function.update_self]
        rfl
      | some j =>
        rw [Function.update_of_ne (Option.some_ne_none j)]
        rfl
    rw [hfirst]
    rw [hfree₁] at hpush
    exact hpush
  · exact hb.chains (hchain.mp hx).1
  · refine (hb.descs x).trans ⟨?_, ?_⟩
    · rintro ⟨c, hc⟩
      by_cases hxd : x = d
      · exact ⟨none, by simp [hfree, hxd]⟩
      · cases c with
        | none => exact ⟨none, by rw [hfree]; exact List.mem_cons_of_mem d hc⟩
        | some j => exact ⟨some j, hchain.mpr ⟨hc, hxd⟩⟩
    · rintro ⟨c, hc⟩
      cases c with
      | none =>
        rw [hfree, List.mem_cons] at hc
        rcases hc with rfl | hc
        · exact ⟨some i, hd⟩
        · exact ⟨none, hc⟩
      | some j => exact ⟨some j, (hchain.mp hc).1⟩
  · refine hb.aligned q (List.mem_append.mpr ((List.mem_append.mp hq).imp_right fun hq => ?_))
    exact List.mem_of_mem_erase hq
  · exact ((List.Sublist.refl h.descPages).append List.erase_sublist).nodup hb.pages
  · exact hb.inj (hchain.mp hx).1 (hchain.mp hx').1
  · obtain ⟨hx, -⟩ := hchain.mp hx
    exact (hb.bucket hx).congr (hb.chains hx) (.refl _) rfl rfl rfl fun _ _ _ => rfl
  · obtain ⟨j, x, hx, hlen, hxp⟩ := hb.owner hlive
    refine ⟨j, x, hchain.mpr ⟨hx, ?_⟩, hlen, hxp⟩
    rintro rfl
    have hmem := mem_onPage.mpr ⟨⟨_, hlive⟩, hxp.symm⟩
    rw [hempty] at hmem
    exact absurd hmem List.not_mem_nil

/-- `free_s` takes an object back, and gives its page back if there is no other one on it. -/
theorem freeS (hb : Books h live l) (hmem : (a, len) ∈ live) (hsize : size ≤ len)
    (hbusy : Busy h live l) :
    ∃ h' l', h.freeS a size =
        some (h', if onPage live (pageOf a) = [a] then some (pageOf a) else none) ∧
      Books h' (live.erase (a, len)) l' ∧
      Busy h' (live.erase (a, len)) l' := by
  obtain ⟨i, d, hd, hlen, hpage⟩ := hb.owner hmem
  obtain ⟨hi, hle⟩ := findBucket_spec hlen
  obtain ⟨u, v, hl, hfind⟩ := hb.findPage hd (hsize.trans hle) (List.mem_range.mpr hi)
  have hperm := List.perm_cons_erase hmem
  have hput := hb.putObject hperm hd hpage
  set live' := live.erase (a, len) with hlive'
  have hon : (onPage live (pageOf a)).Perm (a :: onPage live' (pageOf a)) := by
    rw [← onPage_cons_self (o := (a, len)) rfl]
    exact onPage_perm hperm _
  have hpage' : (h.putObject d a).page d = pageOf a := hpage
  have href := (hput.bucket hd).refcnt
  rw [hpage'] at href
  have hother : ∀ {j x}, x ∈ l (some j) → x ≠ d → onPage live' (h.page x) ≠ [] := by
    intro j x hx hxd hnil
    have hne : pageOf a ≠ h.page x := fun hp => hxd (hb.inj hx hd (hp.symm.trans hpage.symm))
    have hsame := (onPage_perm hperm (h.page x)).trans (.of_eq (onPage_cons_ne hne))
    rw [hnil] at hsame
    exact hbusy j x hx hsame.eq_nil
  rw [hpage] at hfind
  by_cases hlast : onPage live' (pageOf a) = []
  · have hone : onPage live (pageOf a) = [a] := by
      rw [hlast] at hon
      exact hon.eq_singleton
    obtain ⟨h', l', hrelease, hsame, hb', hl'⟩ := hput.releaseBucket hl (by rw [hpage', hlast])
    refine ⟨h', l', ?_, hb', fun j x hx => ?_⟩
    · have hzero : (h.putObject d a).refcnt d = 0 := by rw [href, hlast, List.length_nil]
      rw [Heap.freeS, hfind, if_pos hone]
      simp only [Option.bind_eq_bind, Option.bind_some, hzero, if_true, hrelease, Option.map_some,
        hpage']
    · obtain ⟨hxl, hxd⟩ := hl' j x hx
      rw [hsame]
      exact hother hxl hxd
  · have hmore : onPage live (pageOf a) ≠ [a] := by
      intro hone
      rw [hone] at hon
      exact hlast ((List.perm_cons a).mp hon).symm.eq_nil
    refine ⟨h.putObject d a, l, ?_, hput, fun j x hx => ?_⟩
    · have hzero : (h.putObject d a).refcnt d ≠ 0 := by
        rw [href]
        exact fun hlen => hlast (List.length_eq_zero_iff.mp hlen)
      rw [Heap.freeS, hfind, if_neg hmore]
      simp only [Option.bind_eq_bind, Option.bind_some, hzero, if_false]
    · by_cases hxd : x = d
      · rw [hxd, hpage']
        exact hlast
      · exact hother hx hxd

/-- A store into an object does not reach the lists of free objects. -/
theorem store (hb : Books h live l) {b : ℕ} {w : Option ℕ} (hmem : (a, len) ∈ live) (hle : a ≤ b)
    (hlt : b < a + len) :
    Books { h with mem := Function.update h.mem (b - b % 4) w } live l := by
  obtain ⟨i, d, hd, hlen, hpage⟩ := hb.owner hmem
  obtain ⟨hi, hlen⟩ := findBucket_spec hlen
  have haon : a ∈ onPage live (h.page d) := mem_onPage.mpr ⟨⟨len, hmem⟩, hpage.symm⟩
  have haslot := (hb.bucket hd).used_subset haon
  refine hb.of_buckets (fun {j x} hx => ?_) hb.owner
  refine (hb.bucket hx).congr (hb.chains hx) (.refl _) rfl rfl rfl fun c hc hcon => ?_
  refine Function.update_of_ne ?_ ..
  rintro rfl
  have hxd : x = d := by
    by_contra hxd
    have hbound := objectSlots_bounds hi haslot
    have hal := hb.page_aligned hd
    have hcp := pageOf_objectSlots (hb.page_aligned hx) (hb.chains hx) hc
    have hbp : pageOf (b - b % 4) = h.page d := by
      refine pageOf_eq hal ?_ (by omega)
      simp only [pageSize] at hal
      omega
    exact hxd (hb.inj hx hd (hcp.symm.trans hbp))
  subst hxd
  obtain rfl : i = j := Option.some.inj (hb.lists.disjoint hd hx)
  have hword := word_notMem_objectSlots (hb.page_aligned hd) hi haslot hle (by omega) hc
  exact hcon (hword ▸ haon)

end Books

end LihaLinux.Malloc
