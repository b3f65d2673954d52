import LihaLinux.Lib.Sweep
import LihaLinux.Lib.Transition
import Mathlib.Algebra.Order.Ring.Int

/-!
# Requests

The table of `ll_rw_blk.c` with one queue of requests for every block device: `add_request` puts a
request into the queue of its device, and `end_request` takes the one at the front out, which the
driver has served. Requests are kept in the order of an elevator that reads before it writes.
-/

namespace LihaLinux.Block

/-- `NR_REQUEST`. -/
def nrRequest : ℕ := 32

/-- `READ`. -/
def rwRead : ℕ := 0

/-- `WRITE`. -/
def rwWrite : ℕ := 1

/-- `struct request`, as far as the queues use it; `dev` is -1 if there is no request. -/
structure Request where
  dev : ℤ
  cmd : ℕ
  sector : ℕ
  bh : Option ℕ
  next : Option ℕ

/-- `request` and the queues of `blk_dev`. -/
structure Requests where
  request : ℕ → Request
  /-- `current_request` of each major number. -/
  currentRequest : ℕ → Option ℕ

namespace Requests

/-- The pointers of the queues. -/
def next (s : Requests) (i : ℕ) : Option ℕ := (s.request i).next

/-- `IN_ORDER(s1,s2)`. -/
def inOrder (s : Requests) (i j : ℕ) : Prop :=
  (s.request i).cmd < (s.request j).cmd ∨ (s.request i).cmd = (s.request j).cmd ∧
    ((s.request i).dev < (s.request j).dev ∨ ((s.request i).dev = (s.request j).dev ∧
      (s.request i).sector < (s.request j).sector))

instance (s : Requests) : DecidableRel s.inOrder := fun _ _ => inferInstanceAs (Decidable (_ ∨ _))

/-- Replace a request. -/
def setRequest (s : Requests) (i : ℕ) (r : Request) : Requests :=
  { s with request := Function.update s.request i r }

/-- Set the pointer of a request. -/
def setNext (s : Requests) (i : ℕ) (p : Option ℕ) : Requests :=
  s.setRequest i { s.request i with next := p }

/-- Set the front of a queue. -/
def setCurrent (s : Requests) (major : ℕ) (p : Option ℕ) : Requests :=
  { s with currentRequest := Function.update s.currentRequest major p }

/-- The queue of `add_request`. There is no result if its loop does not end. -/
def addRequest (s : Requests) (major req : ℕ) : Option Requests :=
  let s := s.setNext req none
  match s.currentRequest major with
  | none => some (s.setCurrent major (some req))
  | some tmp => (sweepPlace s.inOrder s.next req nrRequest tmp).map fun tmp =>
      (s.setNext req (s.next tmp)).setNext tmp (some req)

/-- The end of `make_request`: a request is filled in and put into the queue. -/
def insert (s : Requests) (major req : ℕ) (dev : ℤ) (cmd sector : ℕ) (bh : Option ℕ) :
    Option Requests :=
  (s.setRequest req { dev, cmd, sector, bh, next := none }).addRequest major req

/-- The queue of `end_request`, for the request at the front. -/
def endRequest (s : Requests) (major : ℕ) : Option Requests :=
  (s.currentRequest major).map fun req =>
    (s.setRequest req { s.request req with dev := -1 }).setCurrent major (s.next req)

/-- The state after `blk_dev_init`. -/
def empty : Requests where
  request _ := { dev := -1, cmd := 0, sector := 0, bh := none, next := none }
  currentRequest _ := none

@[simp]
theorem setCurrent_request (s : Requests) (major : ℕ) (p : Option ℕ) :
    (s.setCurrent major p).request = s.request := rfl

@[simp]
theorem setRequest_currentRequest (s : Requests) (i : ℕ) (r : Request) :
    (s.setRequest i r).currentRequest = s.currentRequest := rfl

@[simp]
theorem setNext_currentRequest (s : Requests) (i : ℕ) (p : Option ℕ) :
    (s.setNext i p).currentRequest = s.currentRequest := rfl

@[simp]
theorem setRequest_self (s : Requests) (i : ℕ) (r : Request) : (s.setRequest i r).request i = r :=
  Function.update_self ..

theorem setRequest_ne (s : Requests) {i j : ℕ} (h : j ≠ i) (r : Request) :
    (s.setRequest i r).request j = s.request j := Function.update_of_ne h ..

theorem setRequest_next (s : Requests) (i : ℕ) (r : Request) :
    (s.setRequest i r).next = Function.update s.next i r.next := by
  funext j
  by_cases h : j = i
  · subst h
    rw [next, setRequest_self, Function.update_self]
  · rw [next, setRequest_ne s h, Function.update_of_ne h, next]

theorem setNext_next (s : Requests) (i : ℕ) (p : Option ℕ) :
    (s.setNext i p).next = Function.update s.next i p := s.setRequest_next i _

/-! ### What does not change -/

/-- The pointers of two tables may differ. -/
def SameFields (s s' : Requests) : Prop :=
  ∀ i, { s'.request i with next := (s.request i).next } = s.request i

theorem SameFields.trans {s s' s'' : Requests} (h : s.SameFields s') (h' : s'.SameFields s'') :
    s.SameFields s'' := by
  intro i
  rw [← h i, ← h' i]

theorem setNext_sameFields (s : Requests) (i : ℕ) (p : Option ℕ) :
    s.SameFields (s.setNext i p) := by
  intro j
  by_cases h : j = i
  · subst h
    rw [setNext, setRequest_self]
  · rw [setNext, setRequest_ne s h]

theorem SameFields.inOrder_iff {s s' : Requests} (h : s.SameFields s') (i j : ℕ) :
    s'.inOrder i j ↔ s.inOrder i j := by
  rw [inOrder, inOrder, ← h i, ← h j]

/-- Requests that differ in command, device or sector. -/
def Differ (a b : Request) : Prop := a.cmd ≠ b.cmd ∨ a.dev ≠ b.dev ∨ a.sector ≠ b.sector

instance (a b : Request) : Decidable (Differ a b) := inferInstanceAs (Decidable (_ ∨ _))

theorem SameFields.differ_iff {s s' : Requests} (h : s.SameFields s') (i j : ℕ) :
    Differ (s'.request i) (s'.request j) ↔ Differ (s.request i) (s.request j) := by
  rw [Differ, Differ, ← h i, ← h j]

theorem Differ.symm {a b : Request} (h : Differ a b) : Differ b a := by
  unfold Differ at *
  omega

theorem inOrder_trans (s : Requests) (i j k : ℕ) (hij : s.inOrder i j) (hjk : s.inOrder j k) :
    s.inOrder i k := by
  unfold inOrder at *
  omega

theorem Differ.inOrder_or {s : Requests} {i j : ℕ} (h : Differ (s.request i) (s.request j)) :
    s.inOrder i j ∨ s.inOrder j i := by
  unfold Differ at h
  unfold inOrder
  omega

/-! ### The queues as lists -/

/-- The queues of the devices: a request that is in use is in one of them at most. -/
structure Queues (s : Requests) (q : ℕ → List ℕ) : Prop where
  linked : ∀ m, Linked s.next (s.currentRequest m) (q m)
  nodup : ∀ m, (q m).Nodup
  disjoint : ∀ {m n i}, i ∈ q m → i ∈ q n → m = n
  used : ∀ {m i}, i ∈ q m → i < nrRequest ∧ 0 ≤ (s.request i).dev

variable {s s' : Requests} {q : ℕ → List ℕ}

theorem Queues.length_le (h : s.Queues q) (m : ℕ) : (q m).length ≤ nrRequest := by
  have hsub : q m ⊆ List.range nrRequest := fun i hi => List.mem_range.mpr (h.used hi).1
  have hle := (h.nodup m).length_le_of_subset hsub
  rwa [List.length_range] at hle

/-- A free request is in no queue. -/
theorem Queues.notMem (h : s.Queues q) {i : ℕ} (hi : (s.request i).dev < 0) (m : ℕ) : i ∉ q m :=
  fun hmem => absurd (h.used hmem).2 (not_le.mpr hi)

theorem SameFields.dev_eq (h : s.SameFields s') (i : ℕ) :
    (s'.request i).dev = (s.request i).dev := by
  rw [← h i]

theorem setNext_none {i : ℕ} (h : s.next i = none) : s.setNext i none = s := by
  have hi : ({ s.request i with next := none } : Request) = s.request i := by
    rw [← h, next]
  rw [setNext, hi, setRequest, Function.update_eq_self]

/-- `add_request` changes nothing but pointers. -/
theorem addRequest_sameFields {major i : ℕ} (hs : s.addRequest major i = some s') :
    s.SameFields s' := by
  unfold Requests.addRequest at hs
  dsimp only at hs
  split at hs
  · obtain rfl := Option.some.inj hs
    exact s.setNext_sameFields i none
  · obtain ⟨t, -, rfl⟩ := Option.map_eq_some_iff.mp hs
    exact SameFields.trans (s.setNext_sameFields i none)
      (SameFields.trans ((s.setNext i none).setNext_sameFields i _) (setNext_sameFields _ _ _))

/-- `add_request` puts a request into its place in the queue of its device. -/
theorem Queues.addRequest (h : s.Queues q) {major i : ℕ} (hi : i < nrRequest)
    (hdev : 0 ≤ (s.request i).dev) (hnext : s.next i = none) (hout : ∀ m, i ∉ q m) :
    ∃ s', s.addRequest major i = some s' ∧ s.SameFields s' ∧
      (∀ m, m ≠ major → s'.currentRequest m = s.currentRequest m) ∧
      s'.Queues (Function.update q major (sweepInsert s.inOrder i (q major))) := by
  have hmem : ∀ {m j}, j ∈ Function.update q major (sweepInsert s.inOrder i (q major)) m →
      j = i ∧ m = major ∨ j ∈ q m := by
    intro m j hj
    by_cases hm : m = major
    · subst hm
      rw [Function.update_self, (sweepInsert_perm ..).mem_iff, List.mem_cons] at hj
      exact hj.imp_left fun hj => ⟨hj, rfl⟩
    · rw [Function.update_of_ne hm] at hj
      exact Or.inr hj
  have hlist : ∀ {s' : Requests}, s.SameFields s' →
      (∀ m, Linked s'.next (s'.currentRequest m)
        (Function.update q major (sweepInsert s.inOrder i (q major)) m)) →
      s'.Queues (Function.update q major (sweepInsert s.inOrder i (q major))) := by
    intro s' hsame hlinked
    refine ⟨hlinked, fun m => ?_, fun {m n j} hm hn => ?_, fun {m j} hj => ?_⟩
    · by_cases hm : m = major
      · subst hm
        rw [Function.update_self, (sweepInsert_perm ..).nodup_iff, List.nodup_cons]
        exact ⟨hout m, h.nodup m⟩
      · rw [Function.update_of_ne hm]
        exact h.nodup m
    · rcases hmem hm with ⟨hji, hm⟩ | hm <;> rcases hmem hn with ⟨hji', hn⟩ | hn
      · exact hm.trans hn.symm
      · exact absurd (hji ▸ hn) (hout n)
      · exact absurd (hji' ▸ hm) (hout m)
      · exact h.disjoint hm hn
    · rw [hsame.dev_eq]
      rcases hmem hj with ⟨rfl, -⟩ | hj
      · exact ⟨hi, hdev⟩
      · exact h.used hj
  rw [Requests.addRequest, setNext_none hnext]
  cases hcur : s.currentRequest major with
  | none =>
    refine ⟨_, rfl, fun j => rfl, fun m hm => Function.update_of_ne hm .., hlist (fun j => rfl) ?_⟩
    intro m
    by_cases hm : m = major
    · subst hm
      have hempty : q m = [] := by
        have hhead := (h.linked m).head
        rw [hcur] at hhead
        exact List.head?_eq_none_iff.mp hhead.symm
      rw [Function.update_self, hempty]
      exact ⟨Function.update_self .., hnext⟩
    · rw [Function.update_of_ne hm]
      have hm' : (s.setCurrent major (some i)).currentRequest m = s.currentRequest m :=
        Function.update_of_ne hm ..
      rw [hm']
      exact h.linked m
  | some a =>
    have hlinked := h.linked major
    obtain ⟨l, hl⟩ : ∃ l, q major = a :: l := by
      have hhead := hlinked.head
      rw [hcur] at hhead
      exact List.head?_eq_some_iff.mp hhead.symm
    rw [hcur, hl] at hlinked
    have hlength : l.length < nrRequest := by
      have hle := h.length_le major
      rw [hl] at hle
      exact hle
    obtain ⟨t, ht, hplace, hqueue⟩ := hlinked.sweepInsert s.inOrder (hl ▸ h.nodup major)
      (hl ▸ hout major) hlength
    dsimp only
    rw [hplace]
    have hpointers : ((s.setNext i (s.next t)).setNext t (some i)).next =
        Function.update (Function.update s.next i (s.next t)) t (some i) := by
      rw [setNext_next, setNext_next]
    have hsame : s.SameFields ((s.setNext i (s.next t)).setNext t (some i)) :=
      SameFields.trans (s.setNext_sameFields i _) ((s.setNext i _).setNext_sameFields t _)
    refine ⟨_, rfl, hsame, fun m _ => rfl, hlist hsame fun m => ?_⟩
    rw [hpointers, setNext_currentRequest, setNext_currentRequest]
    by_cases hm : m = major
    · subst hm
      rw [Function.update_self, hcur, hl]
      exact hqueue
    · rw [Function.update_of_ne hm]
      refine (h.linked m).congr fun b hb => ?_
      have hbt : b ≠ t := by
        rintro rfl
        exact hm (h.disjoint hb (hl ▸ ht))
      have hbi : b ≠ i := fun hbi => hout m (hbi ▸ hb)
      rw [Function.update_of_ne hbt, Function.update_of_ne hbi]

/-- The queues do not see what is stored in a request that is in none of them. -/
theorem Queues.setRequest (h : s.Queues q) {i : ℕ} (hout : ∀ m, i ∉ q m) (r : Request) :
    (s.setRequest i r).Queues q := by
  have hne : ∀ {m j}, j ∈ q m → j ≠ i := fun hj hji => hout _ (hji ▸ hj)
  refine ⟨fun m => ?_, h.nodup, h.disjoint, fun {m j} hj => ?_⟩
  · rw [setRequest_next, setRequest_currentRequest]
    exact (h.linked m).congr fun b hb => Function.update_of_ne (hne hb) ..
  · rw [setRequest_ne s (hne hj)]
    exact h.used hj

/-- A free request is filled in and put into the queue of its device. -/
theorem Queues.insert (h : s.Queues q) {major i : ℕ} (hi : i < nrRequest)
    (hfree : (s.request i).dev < 0) {dev : ℤ} (hdev : 0 ≤ dev) (cmd sector : ℕ) (bh : Option ℕ) :
    ∃ s', s.insert major i dev cmd sector bh = some s' ∧
      (s.setRequest i { dev, cmd, sector, bh, next := none }).SameFields s' ∧
      (∀ m, m ≠ major → s'.currentRequest m = s.currentRequest m) ∧
      s'.Queues (Function.update q major (sweepInsert
        (s.setRequest i { dev, cmd, sector, bh, next := none }).inOrder i (q major))) := by
  have hfill := h.setRequest (h.notMem hfree) { dev, cmd, sector, bh, next := none }
  refine hfill.addRequest hi ?_ ?_ (h.notMem hfree)
  · rw [setRequest_self]
    exact hdev
  · rw [setRequest_next, Function.update_self]

/-- `end_request` takes the front of a queue out. -/
theorem Queues.endRequest (h : s.Queues q) {major : ℕ} (hs : s.endRequest major = some s') :
    s'.Queues (Function.update q major (q major).tail) ∧ ∃ i, q major = i :: (q major).tail ∧
      (s'.request i).dev = -1 ∧ (∀ j, j ≠ i → s'.request j = s.request j) ∧
      (∀ m, m ≠ major → s'.currentRequest m = s.currentRequest m) := by
  obtain ⟨i, hcur, rfl⟩ := Option.map_eq_some_iff.mp hs
  obtain ⟨l, hl⟩ : ∃ l, q major = i :: l := by
    have hhead := (h.linked major).head
    rw [hcur] at hhead
    exact List.head?_eq_some_iff.mp hhead.symm
  have hlinked := h.linked major
  rw [hl] at hlinked ⊢
  have hnodup := h.nodup major
  rw [hl, List.nodup_cons] at hnodup
  have hsub : ∀ {m j}, j ∈ Function.update q major (i :: l).tail m → j ∈ q m ∧ j ≠ i := by
    intro m j hj
    by_cases hm : m = major
    · subst hm
      rw [Function.update_self, List.tail_cons] at hj
      rw [hl]
      exact ⟨List.mem_cons_of_mem _ hj, fun hji => hnodup.1 (hji ▸ hj)⟩
    · rw [Function.update_of_ne hm] at hj
      refine ⟨hj, ?_⟩
      rintro rfl
      exact hm (h.disjoint hj (hl ▸ List.mem_cons_self))
  have hnext : ((s.setRequest i { s.request i with dev := -1 }).setCurrent major
      (s.next i)).next = s.next := by
    change (s.setRequest i { s.request i with dev := -1 }).next = s.next
    rw [setRequest_next]
    exact Function.update_eq_self ..
  refine ⟨⟨fun m => ?_, fun m => ?_, fun hm hn => h.disjoint (hsub hm).1 (hsub hn).1,
    fun {m j} hj => ?_⟩, i, rfl, ?_, fun j hj => s.setRequest_ne hj _,
    fun m hm => Function.update_of_ne hm ..⟩
  · rw [hnext]
    by_cases hm : m = major
    · subst hm
      rw [Function.update_self]
      have hcur' : ((s.setRequest i { s.request i with dev := -1 }).setCurrent m
          (s.next i)).currentRequest m = s.next i := Function.update_self ..
      rw [hcur']
      exact hlinked.2
    · rw [Function.update_of_ne hm]
      have hcur' : ((s.setRequest i { s.request i with dev := -1 }).setCurrent major
          (s.next i)).currentRequest m = s.currentRequest m := Function.update_of_ne hm ..
      rw [hcur']
      exact h.linked m
  · by_cases hm : m = major
    · subst hm
      rw [Function.update_self]
      exact hnodup.2
    · rw [Function.update_of_ne hm]
      exact h.nodup m
  · rw [setCurrent_request, setRequest_ne s (hsub hj).2]
    exact h.used (hsub hj).1
  · rw [setCurrent_request, setRequest_self]

/-! ### The order of the queues -/

/-- Queues of different requests that are at most two ascending sweeps each. -/
structure Swept (s : Requests) (q : ℕ → List ℕ) : Prop extends s.Queues q where
  differ : ∀ {m i j}, i ∈ q m → j ∈ q m → i ≠ j → Differ (s.request i) (s.request j)
  sweeps : ∀ m, descents s.inOrder (q m) ≤ 1

/-- A request that differs from the others in the queue of its device keeps the order. -/
theorem Swept.insert (h : s.Swept q) {major i : ℕ} (hi : i < nrRequest)
    (hfree : (s.request i).dev < 0) {dev : ℤ} (hdev : 0 ≤ dev) {cmd sector : ℕ} {bh : Option ℕ}
    (hdiffer : ∀ j ∈ q major, Differ (s.request j) { dev, cmd, sector, bh, next := none })
    (hs : s.insert major i dev cmd sector bh = some s') :
    ∃ q', s'.Swept q' ∧ (∀ m, m ≠ major → q' m = q m) ∧ (q' major).Perm (i :: q major) := by
  obtain ⟨s₂, hs₂, hsame, -, hqueues⟩ := h.toQueues.insert hi hfree hdev cmd sector bh
  obtain rfl : s₂ = s' := Option.some.inj (hs₂.symm.trans hs)
  generalize hs₁ : s.setRequest i { dev, cmd, sector, bh, next := none } = s₁ at hsame hqueues
  have hother : ∀ {m j}, j ∈ q m → s₁.request j = s.request j := by
    intro m j hj
    rw [← hs₁]
    exact s.setRequest_ne (fun hji : j = i => h.notMem hfree m (hji ▸ hj)) _
  have hnew : s₁.request i = { dev, cmd, sector, bh, next := none } := by
    rw [← hs₁, setRequest_self]
  have hdiffer₁ : ∀ j ∈ q major, Differ (s₁.request j) (s₁.request i) := by
    intro j hj
    rw [hother hj, hnew]
    exact hdiffer j hj
  have hqueue : ∀ m, descents s₂.inOrder
      (Function.update q major (sweepInsert s₁.inOrder i (q major)) m) =
      descents s₁.inOrder (Function.update q major (sweepInsert s₁.inOrder i (q major)) m) :=
    fun m => descents_congr fun a _ b _ => hsame.inOrder_iff a b
  have hold : ∀ m, descents s₁.inOrder (q m) ≤ 1 := by
    intro m
    have heq : descents s₁.inOrder (q m) = descents s.inOrder (q m) := by
      refine descents_congr fun a ha b hb => ?_
      rw [inOrder, inOrder, hother ha, hother hb]
    rw [heq]
    exact h.sweeps m
  refine ⟨_, ⟨hqueues, fun {m a b} ha hb hab => ?_, fun m => ?_⟩,
    fun m hm => Function.update_of_ne hm .., ?_⟩
  · rw [hsame.differ_iff]
    by_cases hm : m = major
    · subst hm
      rw [Function.update_self, (sweepInsert_perm ..).mem_iff, List.mem_cons] at ha hb
      rcases ha with rfl | ha <;> rcases hb with rfl | hb
      · exact absurd rfl hab
      · exact (hdiffer₁ b hb).symm
      · exact hdiffer₁ a ha
      · rw [hother ha, hother hb]
        exact h.differ ha hb hab
    · rw [Function.update_of_ne hm] at ha hb
      rw [hother ha, hother hb]
      exact h.differ ha hb hab
  · rw [hqueue]
    by_cases hm : m = major
    · subst hm
      rw [Function.update_self]
      exact descents_sweepInsert_le_one s₁.inOrder_trans
        (fun j hj => (Differ.inOrder_or (hdiffer₁ j hj)).symm) (hold m)
    · rw [Function.update_of_ne hm]
      exact hold m
  · rw [Function.update_self]
    exact sweepInsert_perm ..

/-- The service of the request at the front keeps the order. -/
theorem Swept.endRequest (h : s.Swept q) {major : ℕ} (hs : s.endRequest major = some s') :
    s'.Swept (Function.update q major (q major).tail) := by
  obtain ⟨hqueues, i, hi, -, hother, -⟩ := h.toQueues.endRequest hs
  have hsub : ∀ {m j}, j ∈ Function.update q major (q major).tail m → j ∈ q m ∧ j ≠ i := by
    intro m j hj
    by_cases hm : m = major
    · subst hm
      rw [Function.update_self] at hj
      have hnodup := h.nodup m
      rw [hi, List.nodup_cons] at hnodup
      exact ⟨List.mem_of_mem_tail hj, fun hji => hnodup.1 (hji ▸ hj)⟩
    · rw [Function.update_of_ne hm] at hj
      refine ⟨hj, fun hji => hm (h.disjoint hj ?_)⟩
      rw [hi, hji]
      exact List.mem_cons_self
  refine ⟨hqueues, fun {m a b} ha hb hab => ?_, fun m => ?_⟩
  · rw [hother a (hsub ha).2, hother b (hsub hb).2]
    exact h.differ (hsub ha).1 (hsub hb).1 hab
  · have heq : descents s'.inOrder (Function.update q major (q major).tail m) =
        descents s.inOrder (Function.update q major (q major).tail m) := by
      refine descents_congr fun a ha b hb => ?_
      rw [inOrder, inOrder, hother a (hsub ha).2, hother b (hsub hb).2]
    rw [heq]
    by_cases hm : m = major
    · subst hm
      rw [Function.update_self]
      exact (descents_tail_le s.inOrder (q m)).trans (h.sweeps m)
    · rw [Function.update_of_ne hm]
      exact h.sweeps m

/-- A new request does not displace the front of a queue. -/
theorem Queues.insert_current (h : s.Queues q) {major i : ℕ} (hi : i < nrRequest)
    (hfree : (s.request i).dev < 0) {dev : ℤ} (hdev : 0 ≤ dev) {cmd sector : ℕ} {bh : Option ℕ}
    (hs : s.insert major i dev cmd sector bh = some s') {m front : ℕ}
    (hfront : s.currentRequest m = some front) : s'.currentRequest m = some front := by
  obtain ⟨s₂, hs₂, -, hcur, hqueues⟩ := h.insert hi hfree hdev cmd sector bh
  obtain rfl : s₂ = s' := Option.some.inj (hs₂.symm.trans hs)
  by_cases hm : m = major
  · subst hm
    obtain ⟨l, hl⟩ : ∃ l, q m = front :: l := by
      have hhead := (h.linked m).head
      rw [hfront] at hhead
      exact List.head?_eq_some_iff.mp hhead.symm
    rw [(hqueues.linked m).head, Function.update_self, hl, head?_sweepInsert]
  · rw [hcur m hm, hfront]

end Requests

/-! ### Runs -/

/-- The queues with the requests that have been inserted and not yet removed. -/
structure Elevator where
  requests : Requests
  /-- What is pending on each device; no code reads this. -/
  pending : ℕ → List ℕ

/-- What can happen to the queues. -/
inductive QueueEvent
  | addRequest (major req : ℕ) (dev : ℤ) (cmd sector : ℕ) (bh : Option ℕ)
  | endRequest (major : ℕ)
  deriving DecidableEq

namespace Elevator

/-- A free request may be inserted if it differs from all that are pending on its device. -/
def Admits (s : Elevator) (major req : ℕ) (r : Request) : Prop :=
  req < nrRequest ∧ (s.requests.request req).dev < 0 ∧ 0 ≤ r.dev ∧
    ∀ j ∈ s.pending major, Requests.Differ (s.requests.request j) r

instance (s : Elevator) (major req : ℕ) (r : Request) : Decidable (s.Admits major req r) :=
  inferInstanceAs (Decidable (_ ∧ _))

/-- The next state. -/
def next (s : Elevator) : QueueEvent → Option Elevator
  | .addRequest major req dev cmd sector bh =>
    if s.Admits major req { dev, cmd, sector, bh, next := none } then
      (s.requests.insert major req dev cmd sector bh).map fun requests =>
        { requests, pending := Function.update s.pending major (req :: s.pending major) }
    else none
  | .endRequest major =>
    (s.requests.currentRequest major).bind fun req =>
      (s.requests.endRequest major).map fun requests =>
        { requests, pending := Function.update s.pending major ((s.pending major).erase req) }

/-- No request is pending. -/
def start : Elevator where
  requests := .empty
  pending _ := []

/-- The invariant: the queues have the pending requests, in at most two sweeps. -/
def Inv (s : Elevator) : Prop :=
  ∃ q, s.requests.Swept q ∧ ∀ m, (q m).Perm (s.pending m)

theorem inv_start : start.Inv := by
  have hqueues : start.requests.Queues fun _ => [] :=
    { linked := fun _ => rfl
      nodup := fun _ => List.nodup_nil
      disjoint := fun h => nomatch h
      used := fun h => nomatch h }
  exact ⟨fun _ => [], ⟨hqueues, fun h => absurd h List.not_mem_nil, fun _ => Nat.zero_le 1⟩,
    fun _ => List.Perm.refl []⟩

theorem Inv.next {s s' : Elevator} {e : QueueEvent} (h : s.Inv) (hs : s.next e = some s') :
    s'.Inv := by
  obtain ⟨q, hq, hperm⟩ := h
  cases e with
  | addRequest major req dev cmd sector bh =>
    simp only [Elevator.next, Option.ite_none_right_eq_some] at hs
    obtain ⟨⟨hreq, hfree, hdev, hdiffer⟩, hs⟩ := hs
    obtain ⟨requests, hinsert, rfl⟩ := Option.map_eq_some_iff.mp hs
    obtain ⟨q', hq', hother, hmajor⟩ := hq.insert hreq hfree hdev
      (fun j hj => hdiffer j ((hperm major).mem_iff.mp hj)) hinsert
    refine ⟨q', hq', fun m => ?_⟩
    dsimp only
    by_cases hm : m = major
    · subst hm
      rw [Function.update_self]
      exact hmajor.trans ((hperm m).cons req)
    · rw [Function.update_of_ne hm, hother m hm]
      exact hperm m
  | endRequest major =>
    obtain ⟨req, hcur, hs⟩ := Option.bind_eq_some_iff.mp hs
    obtain ⟨requests, hend, rfl⟩ := Option.map_eq_some_iff.mp hs
    refine ⟨_, hq.endRequest hend, fun m => ?_⟩
    dsimp only
    by_cases hm : m = major
    · subst hm
      have hhead := (hq.linked m).head
      rw [hcur] at hhead
      obtain ⟨l, hl⟩ := List.head?_eq_some_iff.mp hhead.symm
      have herase : (q m).erase req = (q m).tail := by
        rw [hl, List.erase_cons_head, List.tail_cons]
      rw [Function.update_self, Function.update_self, ← herase]
      exact (hperm m).erase req
    · rw [Function.update_of_ne hm, Function.update_of_ne hm]
      exact hperm m

/-- Every queue has the requests that are pending on its device once each, in at most two
ascending sweeps, and a new request that differs from these is put behind the one in service. -/
theorem queue_sweeps {s : Elevator}
    (h : Reachable (· = start) (fun s s' => ∃ e, s.next e = some s') s) (major : ℕ) :
    (∃ q, Linked s.requests.next (s.requests.currentRequest major) q ∧ q.Nodup ∧
      q.Perm (s.pending major) ∧ descents s.requests.inOrder q ≤ 1) ∧
    ∀ req dev cmd sector bh, s.Admits major req { dev, cmd, sector, bh, next := none } →
      ∃ s', s.next (.addRequest major req dev cmd sector bh) = some s' ∧
        ∀ front, s.requests.currentRequest major = some front →
          s'.requests.currentRequest major = some front := by
  have hinv : s.Inv := by
    refine h.invariant ?_ fun _ _ hs ⟨_, hnext⟩ => hs.next hnext
    rintro _ rfl
    exact inv_start
  obtain ⟨q, hq, hperm⟩ := hinv
  refine ⟨⟨q major, hq.linked major, hq.nodup major, hperm major, hq.sweeps major⟩, ?_⟩
  intro req dev cmd sector bh hadmits
  have hreq := hadmits.1
  have hfree := hadmits.2.1
  have hdev := hadmits.2.2.1
  obtain ⟨requests, hinsert, -⟩ := hq.toQueues.insert hreq hfree hdev cmd sector bh
  refine ⟨_, by rw [Elevator.next, if_pos hadmits, hinsert]; rfl, fun front hfront => ?_⟩
  exact hq.toQueues.insert_current hreq hfree hdev hinsert hfront

/-- Five requests on the hard disk, of which one has been served. -/
theorem queue_sweeps_sample : ∃ s : Elevator, (∃ q, Linked s.requests.next
    (s.requests.currentRequest 3) q ∧ q.Nodup ∧ q.Perm (s.pending 3) ∧
      descents s.requests.inOrder q ≤ 1) ∧ s.pending 3 = [27, 20, 29, 30] := by
  have hrun : (runEvents next start [.addRequest 3 31 0x301 rwRead 100 (some 0),
      .addRequest 3 30 0x301 rwRead 40 (some 1), .addRequest 3 29 0x301 rwRead 120 (some 2),
      .addRequest 3 20 0x302 rwWrite 10 (some 3), .endRequest 3,
      .addRequest 3 27 0x301 rwRead 20 (some 4)]).any
        (fun s => s.pending 3 = [27, 20, 29, 30]) = true := by
    decide
  have hstart : Reachable (· = start) (fun s s' => ∃ e, s.next e = some s') start := .of_init rfl
  obtain ⟨s, hs, -, hP⟩ := hstart.exists_runEvents (fun _ e _ he => ⟨e, he⟩) hrun
  exact ⟨s, (queue_sweeps hs 3).1, of_decide_eq_true hP⟩

end Elevator

end LihaLinux.Block
