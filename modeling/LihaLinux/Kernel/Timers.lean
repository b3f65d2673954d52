import LihaLinux.Lib.Chain
import Mathlib.Algebra.Order.Ring.Int
import Mathlib.Data.List.Count
import Mathlib.Data.List.Nodup
import Mathlib.Logic.Function.Basic
import Mathlib.Tactic.Common

/-!
# Timers

`add_timer` keeps the pending timers in a list in which every entry has the ticks between the
one before it and itself. A new entry is put in front and sinks by swapping its contents with the
next entry, as long as that one is due earlier, but the entry that it stops at keeps its ticks and
is due later than before. A timer is on time when every timer that is added while it is pending
is due after it.
-/

namespace LihaLinux.Kernel

/-- `TIME_REQUESTS`. -/
def timeRequests : ℕ := 64

/-- `timer_list` and `next_timer`, for functions `φ`. -/
structure Timers (φ : Type*) where
  jiffies : ℕ → ℤ
  fn : ℕ → Option φ
  next : ℕ → Option ℕ
  nextTimer : Option ℕ

/-- What can happen to the timers. -/
inductive TimerEvent (φ : Type*)
  | addTimer (jiffies : ℤ) (fn : φ)
  | doTimer
  deriving DecidableEq

namespace Timers

variable {φ : Type*}

/-! ### The functions -/

/-- The first entry of `timer_list` that is not in use. -/
def freeEntry (s : Timers φ) : Option ℕ :=
  (List.range timeRequests).find? fun p => (s.fn p).isNone

/-- The loop of `add_timer` from the entry `p` on. -/
def sink : ℕ → Timers φ → ℕ → Timers φ
  | 0, s, _ => s
  | n + 1, s, p =>
    match s.next p with
    | none => s
    | some r =>
      if s.jiffies r < s.jiffies p then
        sink n { s with
          jiffies := Function.update (Function.update s.jiffies p (s.jiffies r)) r
            (s.jiffies p - s.jiffies r)
          fn := Function.update (Function.update s.fn p (s.fn r)) r (s.fn p) } r
      else s

/-- The new entry at the front of the list. -/
def push (s : Timers φ) (p : ℕ) (jiffies : ℤ) (fn : φ) : Timers φ where
  jiffies := Function.update s.jiffies p jiffies
  fn := Function.update s.fn p (some fn)
  next := Function.update s.next p s.nextTimer
  nextTimer := some p

/-- `add_timer`, with the functions that it calls; there is no next state after a panic. -/
def addTimer (s : Timers φ) (jiffies : ℤ) (fn : φ) : Option (Timers φ × List φ) :=
  if jiffies ≤ 0 then some (s, [fn])
  else s.freeEntry.map fun p => (sink timeRequests (s.push p jiffies fn) p, [])

/-- The entry at the front taken out of the list. -/
def pop (s : Timers φ) (p : ℕ) : Timers φ :=
  { s with fn := Function.update s.fn p none, nextTimer := s.next p }

/-- `next_timer->jiffies--`. -/
def countDown (s : Timers φ) (p : ℕ) : Timers φ :=
  { s with jiffies := Function.update s.jiffies p (s.jiffies p - 1) }

/-- The loop of `do_timer` over the entries that are due, with the functions that it calls. -/
def expire : ℕ → Timers φ → Timers φ × List φ
  | 0, s => (s, [])
  | n + 1, s =>
    match s.nextTimer with
    | none => (s, [])
    | some p =>
      if s.jiffies p ≤ 0 then
        let r := expire n (s.pop p)
        (r.1, (s.fn p).toList ++ r.2)
      else (s, [])

/-- The part of `do_timer` for the timers, with the functions that it calls. -/
def doTimer (s : Timers φ) : Timers φ × List φ :=
  match s.nextTimer with
  | none => (s, [])
  | some p => expire timeRequests (s.countDown p)

/-- The next state, with the functions that are called. -/
def step (s : Timers φ) : TimerEvent φ → Option (Timers φ × List φ)
  | .addTimer jiffies fn => s.addTimer jiffies fn
  | .doTimer => some s.doTimer

/-- No timer is pending. -/
def unused : Timers φ where
  jiffies _ := 0
  fn _ := none
  next _ := none
  nextTimer := none

/-- The state after a history, the latest event first. -/
def after : List (TimerEvent φ) → Option (Timers φ)
  | [] => some unused
  | e :: h => (after h).bind fun s => (s.step e).map Prod.fst

/-- The number of timers in a history whose function is `f` and that have `m` ticks to go. -/
def due [DecidableEq φ] (f : φ) : ℤ → List (TimerEvent φ) → ℕ
  | _, [] => 0
  | m, .doTimer :: h => due f (m + 1) h
  | m, .addTimer n g :: h => (if g = f ∧ n = m then 1 else 0) + due f m h

/-- The histories in which every timer is added when all pending timers have fewer ticks to go
than it. -/
def Careful [DecidableEq φ] : List (TimerEvent φ) → Prop
  | [] => True
  | .doTimer :: h => Careful h
  | .addTimer n _ :: h => Careful h ∧ 0 < n ∧ ∀ f m, n ≤ m → due f m h = 0

/-! ### Lists of entries -/

/-- The ticks and functions of a list of entries. -/
def contents (s : Timers φ) (l : List ℕ) : List (ℤ × Option φ) :=
  l.map fun p => (s.jiffies p, s.fn p)

/-- The entries in use are those of the list. -/
structure Entries (s : Timers φ) (l : List ℕ) : Prop where
  linked : Linked s.next s.nextTimer l
  nodup : l.Nodup
  used : ∀ p, p ∈ l ↔ s.fn p ≠ none
  bound : ∀ p ∈ l, p < timeRequests

theorem Entries.length_le {s : Timers φ} {l : List ℕ} (h : s.Entries l) :
    l.length ≤ timeRequests := by
  have hsub : l ⊆ List.range timeRequests := fun p hp => List.mem_range.mpr (h.bound p hp)
  have hle := h.nodup.length_le_of_subset hsub
  rwa [List.length_range] at hle

theorem contents_congr {s s' : Timers φ} {l : List ℕ}
    (h : ∀ p ∈ l, s'.jiffies p = s.jiffies p ∧ s'.fn p = s.fn p) :
    s'.contents l = s.contents l := by
  refine List.map_congr_left fun p hp => ?_
  rw [(h p hp).1, (h p hp).2]

/-! ### `add_timer` -/

/-- What the loop of `add_timer` makes of a list. -/
def insert {α : Type*} (n : ℤ) (f : α) : List (ℤ × α) → List (ℤ × α)
  | [] => [(n, f)]
  | (d, g) :: l => if d < n then (d, g) :: insert (n - d) f l else (n, f) :: (d, g) :: l

/-- What the loop of `add_timer` does with the entry `p` and the list behind it. -/
structure Sunk (s s' : Timers φ) (p : ℕ) (l : List ℕ) : Prop where
  next : s'.next = s.next
  nextTimer : s'.nextTimer = s.nextTimer
  contents : s'.contents (p :: l) = insert (s.jiffies p) (s.fn p) (s.contents l)
  other : ∀ x, x ∉ p :: l → s'.jiffies x = s.jiffies x ∧ s'.fn x = s.fn x
  used : (∀ x ∈ p :: l, s.fn x ≠ none) → ∀ x ∈ p :: l, s'.fn x ≠ none

theorem sink_sunk (n : ℕ) (s : Timers φ) (p : ℕ) (l : List ℕ) (hl : Linked s.next (s.next p) l)
    (hnodup : (p :: l).Nodup) (hn : l.length ≤ n) : Sunk s (sink n s p) p l := by
  induction n generalizing s p l with
  | zero =>
    obtain rfl : l = [] := List.eq_nil_of_length_eq_zero (by omega)
    exact ⟨rfl, rfl, rfl, fun _ _ => ⟨rfl, rfl⟩, fun h => h⟩
  | succ n ih =>
    cases l with
    | nil =>
      have hnext : s.next p = none := hl
      have hsink : sink (n + 1) s p = s := by simp only [sink, hnext]
      rw [hsink]
      exact ⟨rfl, rfl, rfl, fun _ _ => ⟨rfl, rfl⟩, fun h => h⟩
    | cons r l =>
      obtain ⟨hnext, hl⟩ := hl
      obtain ⟨hp, hnodup⟩ := List.nodup_cons.mp hnodup
      have hpr : p ≠ r := fun h => hp (by simp [h])
      by_cases hlt : s.jiffies r < s.jiffies p
      · have hsink : sink (n + 1) s p = sink n { s with
            jiffies := Function.update (Function.update s.jiffies p (s.jiffies r)) r
              (s.jiffies p - s.jiffies r)
            fn := Function.update (Function.update s.fn p (s.fn r)) r (s.fn p) } r := by
          simp only [sink, hnext, hlt, if_true]
        rw [hsink]
        generalize hswap : ({ s with
            jiffies := Function.update (Function.update s.jiffies p (s.jiffies r)) r
              (s.jiffies p - s.jiffies r)
            fn := Function.update (Function.update s.fn p (s.fn r)) r (s.fn p) } : Timers φ) = s₁
        have hr₁ : s₁.jiffies r = s.jiffies p - s.jiffies r ∧ s₁.fn r = s.fn p := by
          subst hswap
          simp only [Function.update_self, and_self]
        have hp₁ : s₁.jiffies p = s.jiffies r ∧ s₁.fn p = s.fn r := by
          subst hswap
          simp only [Function.update_of_ne hpr, Function.update_self, and_self]
        have hx₁ : ∀ x, x ≠ p → x ≠ r → s₁.jiffies x = s.jiffies x ∧ s₁.fn x = s.fn x := by
          intro x hxp hxr
          subst hswap
          simp only [Function.update_of_ne hxr, Function.update_of_ne hxp, and_self]
        have hnext₁ : s₁.next = s.next ∧ s₁.nextTimer = s.nextTimer := by
          subst hswap
          exact ⟨rfl, rfl⟩
        have hsunk := ih s₁ r l (by rw [hnext₁.1]; exact hl) hnodup
          (by simp only [List.length_cons] at hn; omega)
        have hout : (sink n s₁ r).jiffies p = s.jiffies r ∧ (sink n s₁ r).fn p = s.fn r := by
          rw [(hsunk.other p hp).1, (hsunk.other p hp).2]
          exact hp₁
        have hl₁ : s₁.contents l = s.contents l := contents_congr fun x hx =>
          hx₁ x (fun h => hp (by simp [← h, hx])) fun h => (List.nodup_cons.mp hnodup).1 (h ▸ hx)
        refine ⟨hsunk.next.trans hnext₁.1, hsunk.nextTimer.trans hnext₁.2, ?_, ?_, ?_⟩
        · have htail := hsunk.contents
          rw [hr₁.1, hr₁.2, hl₁] at htail
          rw [Timers.contents, List.map_cons, hout.1, hout.2]
          change (s.jiffies r, s.fn r) :: (sink n s₁ r).contents (r :: l) = _
          rw [htail]
          simp only [Timers.contents, List.map_cons, insert, hlt, if_true]
        · intro x hx
          rw [List.mem_cons, List.mem_cons, not_or, not_or] at hx
          obtain ⟨hxp, hxr, hxl⟩ := hx
          have hout := hsunk.other x (by simp [hxr, hxl])
          rw [hout.1, hout.2]
          exact hx₁ x hxp hxr
        · intro hused x hx
          rcases List.mem_cons.mp hx with rfl | hx
          · rw [hout.2]
            exact hused r (by simp)
          · refine hsunk.used (fun y hy => ?_) x hx
            rcases List.mem_cons.mp hy with rfl | hyl
            · rw [hr₁.2]
              exact hused p (by simp)
            · rw [(hx₁ y (fun h => hp (by simp [← h, hyl]))
                fun h => (List.nodup_cons.mp hnodup).1 (h ▸ hyl)).2]
              exact hused y (by simp [hyl])
      · have hsink : sink (n + 1) s p = s := by simp only [sink, hnext, hlt, if_false]
        rw [hsink]
        refine ⟨rfl, rfl, ?_, fun _ _ => ⟨rfl, rfl⟩, fun h => h⟩
        simp only [Timers.contents, List.map_cons, insert, hlt, if_false]

/-- `add_timer` calls nothing, and the list has the new timer in it. -/
theorem Entries.addTimer {s s' : Timers φ} {l : List ℕ} {n : ℤ} {f : φ} {called : List φ}
    (h : s.Entries l) (hn : 0 < n) (hadd : s.addTimer n f = some (s', called)) :
    called = [] ∧ ∃ p, s'.Entries (p :: l) ∧
      s'.contents (p :: l) = insert n (some f) (s.contents l) := by
  rw [Timers.addTimer, if_neg (by omega), Option.map_eq_some_iff] at hadd
  obtain ⟨p, hfree, heq⟩ := hadd
  rw [Prod.mk.injEq] at heq
  obtain ⟨rfl, rfl⟩ := heq
  have hp : p < timeRequests := by
    have hmem := List.mem_of_find?_eq_some hfree
    exact List.mem_range.mp hmem
  have hnone : s.fn p = none := by
    have hprop := List.find?_some hfree
    rwa [Option.isNone_iff_eq_none] at hprop
  have hpl : p ∉ l := fun hmem => (h.used p).mp hmem hnone
  have hne : ∀ x ∈ l, x ≠ p := fun x hx hxp => hpl (hxp ▸ hx)
  have hlinked : Linked (s.push p n f).next ((s.push p n f).next p) l := by
    simp only [push, Function.update_self]
    exact h.linked.congr fun b hb => Function.update_of_ne (hne b hb) ..
  have hnodup : (p :: l).Nodup := List.nodup_cons.mpr ⟨hpl, h.nodup⟩
  have hsunk := sink_sunk timeRequests (s.push p n f) p l hlinked hnodup h.length_le
  refine ⟨rfl, p, ⟨?_, hnodup, fun x => ?_, ?_⟩, ?_⟩
  · rw [hsunk.next, hsunk.nextTimer]
    exact ⟨rfl, hlinked⟩
  · by_cases hx : x ∈ p :: l
    · refine iff_of_true hx (hsunk.used (fun y hy => ?_) x hx)
      rcases List.mem_cons.mp hy with rfl | hy
      · simp only [push, Function.update_self, ne_eq, reduceCtorEq, not_false_eq_true]
      · simp only [push, Function.update_of_ne (hne y hy)]
        exact (h.used y).mp hy
    · have hout := (hsunk.other x hx).2
      rw [List.mem_cons, not_or] at hx
      rw [hout]
      simp only [push, Function.update_of_ne hx.1]
      rw [List.mem_cons, ← h.used x]
      simp [hx.1]
  · rw [List.forall_mem_cons]
    exact ⟨hp, h.bound⟩
  · have hl : (s.push p n f).contents l = s.contents l := contents_congr fun x hx => by
      simp only [push, Function.update_of_ne (hne x hx), and_self]
    rw [hsunk.contents, hl]
    simp only [push, Function.update_self]

/-! ### `do_timer` -/

/-- The functions of the timers at the front of a list that are due, and the rest. -/
def popDue : List (ℤ × Option φ) → List φ × List (ℤ × Option φ)
  | [] => ([], [])
  | (d, g) :: l => if d ≤ 0 then (g.toList ++ (popDue l).1, (popDue l).2) else ([], (d, g) :: l)

theorem Entries.expire {n : ℕ} {s : Timers φ} {l : List ℕ} (h : s.Entries l) (hn : l.length ≤ n) :
    (Timers.expire n s).2 = (popDue (s.contents l)).1 ∧
      ∃ l', (Timers.expire n s).1.Entries l' ∧
        (Timers.expire n s).1.contents l' = (popDue (s.contents l)).2 := by
  induction n generalizing s l with
  | zero =>
    obtain rfl : l = [] := List.eq_nil_of_length_eq_zero (by omega)
    exact ⟨rfl, [], h, rfl⟩
  | succ n ih =>
    cases l with
    | nil =>
      have hnone : s.nextTimer = none := h.linked
      simp only [Timers.expire, hnone]
      exact ⟨rfl, [], h, rfl⟩
    | cons p l =>
      obtain ⟨hhead, hlinked⟩ := h.linked
      obtain ⟨hp, hnodup⟩ := List.nodup_cons.mp h.nodup
      by_cases hdue : s.jiffies p ≤ 0
      · have hrest : (s.pop p).Entries l := by
          refine ⟨hlinked, hnodup, fun x => ?_, fun x hx => h.bound x (by simp [hx])⟩
          by_cases hxp : x = p
          · simp [pop, hxp, hp]
          · simp only [pop, Function.update_of_ne hxp]
            rw [← h.used x, List.mem_cons]
            simp [hxp]
        have hcontents : (s.pop p).contents l = s.contents l := contents_congr fun x hx => by
          have hxp : x ≠ p := fun hxp => hp (hxp ▸ hx)
          simp only [pop, Function.update_of_ne hxp, and_self]
        obtain ⟨hcalled, l', hl', hc'⟩ := ih hrest (by simp only [List.length_cons] at hn; omega)
        rw [hcontents] at hcalled hc'
        have hpop : popDue (s.contents (p :: l)) =
            ((s.fn p).toList ++ (popDue (s.contents l)).1, (popDue (s.contents l)).2) := by
          simp only [Timers.contents, List.map_cons, popDue, hdue, if_true]
        simp only [Timers.expire, hhead, hdue, if_true, hpop]
        exact ⟨congrArg _ hcalled, l', hl', hc'⟩
      · have hpop : popDue (s.contents (p :: l)) = ([], s.contents (p :: l)) := by
          simp only [Timers.contents, List.map_cons, popDue, hdue, if_false]
        simp only [Timers.expire, hhead, hdue, if_false, hpop]
        exact ⟨trivial, p :: l, h, rfl⟩

/-- A list after a tick, before the timers that are due are called. -/
def tick : List (ℤ × Option φ) → List (ℤ × Option φ)
  | [] => []
  | (d, g) :: l => (d - 1, g) :: l

theorem Entries.doTimer {s : Timers φ} {l : List ℕ} (h : s.Entries l) :
    s.doTimer.2 = (popDue (tick (s.contents l))).1 ∧
      ∃ l', s.doTimer.1.Entries l' ∧
        s.doTimer.1.contents l' = (popDue (tick (s.contents l))).2 := by
  cases l with
  | nil =>
    have hnone : s.nextTimer = none := h.linked
    simp only [Timers.doTimer, hnone]
    exact ⟨rfl, [], h, rfl⟩
  | cons p l =>
    have hhead : s.nextTimer = some p := h.linked.1
    have hp : p ∉ l := (List.nodup_cons.mp h.nodup).1
    have hdec : (s.countDown p).Entries (p :: l) := ⟨h.linked, h.nodup, h.used, h.bound⟩
    have hcontents : (s.countDown p).contents (p :: l) = tick (s.contents (p :: l)) := by
      have hl : (s.countDown p).contents l = s.contents l := contents_congr fun x hx => by
        have hxp : x ≠ p := fun hxp => hp (hxp ▸ hx)
        simp only [countDown, Function.update_of_ne hxp, and_self]
      have hself : (s.countDown p).jiffies p = s.jiffies p - 1 := Function.update_self ..
      change ((s.countDown p).jiffies p, s.fn p) :: (s.countDown p).contents l = _
      rw [hl, hself]
      rfl
    have hexpire := hdec.expire hdec.length_le
    rw [hcontents] at hexpire
    simp only [Timers.doTimer, hhead]
    exact hexpire

/-! ### Ticks to go -/

/-- The entries of a list with the ticks to go, when `t` of them are before the list. -/
def remaining {α : Type*} : ℤ → List (ℤ × α) → List (ℤ × α)
  | _, [] => []
  | t, (d, g) :: l => (t + d, g) :: remaining (t + d) l

theorem remaining_sub {α : Type*} (t : ℤ) (l : List (ℤ × α)) :
    remaining (t - 1) l = (remaining t l).map fun x => (x.1 - 1, x.2) := by
  induction l generalizing t with
  | nil => rfl
  | cons x l ih =>
    obtain ⟨d, g⟩ := x
    have ht : t - 1 + d = t + d - 1 := by omega
    simp only [remaining, List.map_cons, ht, ih]

/-- A timer that is due after all others is put at the end. -/
theorem remaining_insert {α : Type*} {t n : ℤ} {f : α} {l : List (ℤ × α)}
    (h : ∀ x ∈ remaining t l, x.1 < t + n) :
    remaining t (insert n f l) = remaining t l ++ [(t + n, f)] := by
  induction l generalizing t n with
  | nil => rfl
  | cons x l ih =>
    obtain ⟨d, g⟩ := x
    simp only [remaining, List.forall_mem_cons] at h
    have hd : d < n := by omega
    have hsum : t + d + (n - d) = t + n := by omega
    have htail := ih (t := t + d) (n := n - d) (by rw [hsum]; exact h.2)
    simp only [insert, hd, if_true, remaining, htail, hsum, List.cons_append]

theorem insert_pos {α : Type*} {n : ℤ} {f : α} {l : List (ℤ × α)} (hn : 0 < n)
    (h : ∀ x ∈ l, 0 < x.1) : ∀ x ∈ insert n f l, 0 < x.1 := by
  induction l generalizing n with
  | nil => simpa [insert] using hn
  | cons y l ih =>
    obtain ⟨d, g⟩ := y
    rw [List.forall_mem_cons] at h
    unfold insert
    split_ifs with hd
    · rw [List.forall_mem_cons]
      exact ⟨h.1, ih (by omega) h.2⟩
    · rw [List.forall_mem_cons, List.forall_mem_cons]
      exact ⟨hn, h⟩

theorem remaining_pos {α : Type*} {t : ℤ} {l : List (ℤ × α)} (ht : 0 ≤ t)
    (h : ∀ x ∈ l, 0 < x.1) : ∀ x ∈ remaining t l, t < x.1 := by
  induction l generalizing t with
  | nil => simp [remaining]
  | cons y l ih =>
    obtain ⟨d, g⟩ := y
    rw [List.forall_mem_cons] at h
    rw [remaining, List.forall_mem_cons]
    have hd : 0 < d := h.1
    refine ⟨by omega, fun x hx => ?_⟩
    have hlt := ih (by omega) h.2 x hx
    omega

theorem Entries.contents_ne_none {s : Timers φ} {l : List ℕ} (h : s.Entries l) :
    ∀ x ∈ s.contents l, x.2 ≠ none := by
  intro x hx
  obtain ⟨p, hp, rfl⟩ := List.mem_map.mp hx
  exact (h.used p).mp hp

theorem remaining_ne_none {t : ℤ} {l : List (ℤ × Option φ)} (h : ∀ x ∈ l, x.2 ≠ none) :
    ∀ x ∈ remaining t l, x.2 ≠ none := by
  induction l generalizing t with
  | nil => simp [remaining]
  | cons y l ih =>
    obtain ⟨d, g⟩ := y
    rw [List.forall_mem_cons] at h
    rw [remaining, List.forall_mem_cons]
    exact ⟨h.1, ih h.2⟩

section Count

variable [DecidableEq φ]

/-- A tick calls the functions of the timers with one tick to go, and all others have one tick
less. -/
theorem count_popDue_tick {l : List (ℤ × Option φ)} (h : ∀ x ∈ l, 0 < x.1)
    (hsome : ∀ x ∈ l, x.2 ≠ none) :
    (∀ f, (popDue (tick l)).1.count f = (remaining 0 l).count (1, some f)) ∧
      (∀ x ∈ (popDue (tick l)).2, 0 < x.1) ∧
      ∀ f m, 0 < m →
        (remaining 0 (popDue (tick l)).2).count (m, some f) =
          (remaining 0 l).count (m + 1, some f) := by
  cases l with
  | nil => exact ⟨fun _ => rfl, fun _ hx => absurd hx (by simp [tick, popDue]), fun _ _ _ => rfl⟩
  | cons y l =>
    obtain ⟨d, g⟩ := y
    rw [List.forall_mem_cons] at h hsome
    obtain ⟨hd, hl⟩ := h
    have hd' : 0 < d := hd
    have hrest : ∀ x ∈ remaining d l, d < x.1 := remaining_pos (by omega) hl
    have hshift : ∀ f m, (remaining (d - 1) l).count (m, some f) =
        (remaining d l).count (m + 1, some f) := by
      intro f m
      have hinj : Function.Injective fun x : ℤ × Option φ => (x.1 - 1, x.2) := by
        rintro ⟨a, b⟩ ⟨a', b'⟩ heq
        simp only [Prod.mk.injEq] at heq ⊢
        exact ⟨by omega, heq.2⟩
      have hcount := List.count_map_of_injective (remaining d l) _ hinj (m + 1, some f)
      rw [remaining_sub, ← hcount]
      congr 1
      simp
    by_cases hdue : d - 1 ≤ 0
    · obtain rfl : d = 1 := by omega
      have hpop : popDue l = ([], l) := by
        cases l with
        | nil => rfl
        | cons z l =>
          obtain ⟨e, k⟩ := z
          have he : 0 < e := (List.forall_mem_cons.mp hl).1
          rw [popDue, if_neg (by omega)]
      have hlist : popDue (tick ((1, g) :: l)) = (g.toList, l) := by
        rw [tick, popDue, if_pos hdue, hpop, List.append_nil]
      rw [hlist]
      obtain ⟨f₀, rfl⟩ := Option.ne_none_iff_exists'.mp hsome.1
      have hnone : ∀ f : φ, (remaining 1 l).count (1, some f) = 0 := by
        intro f
        refine List.count_eq_zero.mpr fun hmem => ?_
        exact absurd (hrest _ hmem) (by simp)
      refine ⟨fun f => ?_, hl, fun f m hm => ?_⟩
      · rw [remaining, Int.zero_add, List.count_cons, hnone]
        simp [List.count_singleton]
      · have hm1 : ¬(m + 1 = 1) := by omega
        have h0 : (1 : ℤ) - 1 = 0 := rfl
        rw [remaining, Int.zero_add, List.count_cons, ← hshift, h0]
        simp
        omega
    · have hlist : popDue (tick ((d, g) :: l)) = ([], (d - 1, g) :: l) := by
        rw [tick, popDue, if_neg hdue]
      rw [hlist]
      refine ⟨fun f => ?_, ?_, fun f m hm => ?_⟩
      · symm
        rw [List.count_nil, List.count_eq_zero, remaining, List.mem_cons, not_or]
        refine ⟨fun heq => ?_, fun hmem => ?_⟩
        · rw [Prod.mk.injEq] at heq
          omega
        · rw [Int.zero_add] at hmem
          have hlt := hrest _ hmem
          simp only at hlt
          omega
      · rw [List.forall_mem_cons]
        exact ⟨by simp only; omega, hl⟩
      · rw [remaining, remaining, Int.zero_add, Int.zero_add, List.count_cons, List.count_cons,
          hshift]
        congr 1
        simp only [beq_iff_eq, Prod.mk.injEq]
        have hiff : d - 1 = m ↔ d = m + 1 := by omega
        simp only [hiff]

/-! ### Histories -/

/-- The pending timers have the ticks to go that the history gives them. -/
structure OnTime (s : Timers φ) (h : List (TimerEvent φ)) (l : List ℕ) : Prop where
  entries : s.Entries l
  pos : ∀ x ∈ s.contents l, 0 < x.1
  due : ∀ f m, 0 < m → (remaining 0 (s.contents l)).count (m, some f) = due f m h

/-- A timer that is added when all others have fewer ticks to go is on time with them. -/
theorem OnTime.addTimer {s s' : Timers φ} {h : List (TimerEvent φ)} {l : List ℕ} {n : ℤ} {f : φ}
    {called : List φ} (hs : s.OnTime h l) (hn : 0 < n) (hdue : ∀ g m, n ≤ m → Timers.due g m h = 0)
    (hadd : s.addTimer n f = some (s', called)) :
    ∃ l', s'.OnTime (.addTimer n f :: h) l' := by
  obtain ⟨-, p, hentries, hcontents⟩ := hs.entries.addTimer hn hadd
  have hlt : ∀ x ∈ remaining 0 (s.contents l), x.1 < 0 + n := by
    intro x hx
    obtain ⟨g, hg⟩ := Option.ne_none_iff_exists'.mp
      (remaining_ne_none hs.entries.contents_ne_none x hx)
    have hpos : 0 < x.1 := remaining_pos (by omega) hs.pos x hx
    have hcount := hs.due g x.1 hpos
    have hmem : 0 < (remaining 0 (s.contents l)).count (x.1, some g) := by
      refine List.count_pos_iff.mpr ?_
      rw [← hg]
      exact hx
    by_contra hle
    rw [hdue g x.1 (by omega)] at hcount
    omega
  refine ⟨p :: l, hentries, ?_, fun g m hm => ?_⟩
  · rw [hcontents]
    exact insert_pos hn hs.pos
  · rw [hcontents, remaining_insert hlt, List.count_append, hs.due g m hm, Int.zero_add,
      List.count_singleton, Nat.add_comm]
    simp only [Timers.due, beq_iff_eq, Prod.mk.injEq, Option.some.injEq]
    simp only [and_comm]

/-- After a tick every timer has one tick less to go, and those with none left have been
called. -/
theorem OnTime.doTimer {s : Timers φ} {h : List (TimerEvent φ)} {l : List ℕ} (hs : s.OnTime h l) :
    (∀ f, s.doTimer.2.count f = Timers.due f 1 h) ∧
      ∃ l', s.doTimer.1.OnTime (.doTimer :: h) l' := by
  obtain ⟨hcalled, l', hentries, hcontents⟩ := hs.entries.doTimer
  obtain ⟨hcount, hpos, hrest⟩ := count_popDue_tick hs.pos hs.entries.contents_ne_none
  refine ⟨fun f => ?_, l', hentries, ?_, fun f m hm => ?_⟩
  · rw [hcalled, hcount]
    exact hs.due f 1 (by omega)
  · rw [hcontents]
    exact hpos
  · rw [hcontents, hrest f m hm]
    exact hs.due f (m + 1) (by omega)

theorem onTime_of_careful {h : List (TimerEvent φ)} {s : Timers φ} (hafter : after h = some s)
    (hcareful : Careful h) : ∃ l, s.OnTime h l := by
  induction h generalizing s with
  | nil =>
    obtain rfl := Option.some.inj hafter
    refine ⟨[], ⟨rfl, List.nodup_nil, by simp [unused], by simp⟩, by simp [contents], ?_⟩
    exact fun _ _ _ => rfl
  | cons e h ih =>
    rw [after, Option.bind_eq_some_iff] at hafter
    obtain ⟨s₀, hs₀, hstep⟩ := hafter
    rw [Option.map_eq_some_iff] at hstep
    obtain ⟨⟨s', called⟩, hstep, rfl⟩ := hstep
    cases e with
    | addTimer n f =>
      obtain ⟨hold, hn, hdue⟩ := hcareful
      obtain ⟨l, hl⟩ := ih hs₀ hold
      exact hl.addTimer hn hdue hstep
    | doTimer =>
      obtain ⟨l, hl⟩ := ih hs₀ hcareful
      obtain rfl : s₀.doTimer.1 = s' := congrArg Prod.fst (Option.some.inj hstep)
      exact hl.doTimer.2

/-- After a history in which every timer is added when all pending ones have fewer ticks to go,
a tick calls a function once for every timer with that function for which it is the last tick,
and adding a timer calls nothing. -/
theorem timers_on_time {h : List (TimerEvent φ)} {s : Timers φ} (hafter : after h = some s)
    (hcareful : Careful h) :
    (∀ f, s.doTimer.2.count f = due f 1 h) ∧
      ∀ n f s' called, 0 < n → s.addTimer n f = some (s', called) → called = [] := by
  obtain ⟨l, hl⟩ := onTime_of_careful hafter hcareful
  exact ⟨hl.doTimer.1, fun n f s' called hn hadd => (hl.entries.addTimer hn hadd).1⟩

/-- Two timers, the second of which is due after the first. -/
theorem timers_on_time_two : ∃ s : Timers Bool,
    after [.doTimer, .addTimer 2 true, .addTimer 1 false] = some s ∧
      s.doTimer.2.count true = due true 1 [.doTimer, .addTimer 2 true, .addTimer 1 false] := by
  have hcareful : Careful [.doTimer, .addTimer 2 true, .addTimer 1 false] := by
    refine ⟨⟨trivial, by decide, fun _ _ _ => rfl⟩, by decide, fun f m hm => ?_⟩
    have hne : ¬(1 = m) := by omega
    simp only [due, hne, and_false, if_false]
  obtain ⟨s, hs⟩ : ∃ s : Timers Bool,
      after [.doTimer, .addTimer 2 true, .addTimer 1 false] = some s := ⟨_, rfl⟩
  exact ⟨s, hs, (timers_on_time hs hcareful).1 true⟩

/-- A timer for two ticks, and then one for one tick: after the first tick, the timer for two ticks
is due at the next one and is not called. -/
theorem timers_late : ∃ s : Timers Bool,
    after [.doTimer, .addTimer 1 false, .addTimer 2 true] = some s ∧
      due true 1 [.doTimer, .addTimer 1 false, .addTimer 2 true] = 1 ∧
      s.doTimer.2.count true = 0 := ⟨_, rfl, by decide, by decide⟩

end Count

end Timers

end LihaLinux.Kernel
