import LihaLinux.Mm.ArgMap

/-!
# The tables of pointers

`create_tables` runs in the new address space. It finds the strings of the arguments again, one
behind the other, and writes a pointer to each of them into tables below the strings; the pages of
the tables are added when they are first written to.
-/

namespace LihaLinux.Mm

variable {files : ℕ → Executable} {lo hi n slot off : ℕ} {k : Kernel} {held : Finset ℕ}
  {s s' : State} {q : Task} {c : ArgCopy} {enough : Prop}

/-- The task whose memory is written: its data segment is complete, and the image of its old program
ends below the stack. -/
structure Starting (k : Kernel) (slot : ℕ) (q : Task) : Prop where
  slot_range : 1 ≤ slot ∧ slot < 64
  task : k.task slot = some q
  limit : q.limit = dataLimit
  endData : q.endData ≤ 0x3000000

/-- What a task knows of its memory is still there. -/
def KeepsView (slot : ℕ) (s s' : State) (P : ℕ → Prop) : Prop :=
  ∀ off < dataLimit, P off → ∀ b, s.userView slot off = some b → s'.userView slot off = some b

/-- A call has returned with a property, or it has killed the task because there was not enough
memory. -/
def Served (enough : Prop) {α : Type} (Q : α → State → Prop) (r : Result α) : Prop :=
  (∃ a s, r = .ok a s ∧ Q a s) ∨ ¬enough ∧ ∃ s, r = .oom s

theorem Served.bind {α β : Type} {Q : α → State → Prop} {R : β → State → Prop} {r : Result α}
    {f : α → State → Result β} (h : Served enough Q r)
    (hf : ∀ a s, Q a s → Served enough R (f a s)) :
    Served enough R (r.bind f) := by
  rcases h with ⟨a, s, rfl, hq⟩ | ⟨hnot, s, rfl⟩
  · exact hf a s hq
  · exact Or.inr ⟨hnot, s, rfl⟩

theorem Served.mono {α : Type} {Q R : α → State → Prop} {r : Result α} (h : Served enough Q r)
    (hQ : ∀ a s, Q a s → R a s) : Served enough R r := by
  rcases h with ⟨a, s, hr, hq⟩ | hnot
  · exact Or.inl ⟨a, s, hr, hQ a s hq⟩
  · exact Or.inr hnot

/-! ### Bytes -/

/-- A fault at the end of the data segment gets an empty page. -/
theorem doNoPage_stack (ht : Starting k slot q) (h : InStack off) {r : Result Unit}
    (hget : getEmptyPage s (slotBase slot + off - (slotBase slot + off) % 4096) = r) :
    doNoPage files k slot (slotBase slot + off) s = r := by
  have hend : q.endData ≤
      slotBase slot + off - (slotBase slot + off) % 4096 - slotBase slot := by
    have hlimit := ht.endData
    have hlow := h.1
    simp only [dataLimit, stackPages] at hlow
    rw [slotBase]
    omega
  simp only [doNoPage, noPageBegin, ht.task, hend, or_true, if_true, hget]
  cases r with
  | ok u s' => rfl
  | oom s' => rfl
  | panic reason => rfl

variable (files) in
/-- The page of a store is present, or it is added. -/
theorem Owned.page (h : Owned enough lo hi slot held s) (ht : Starting k slot q)
    (hoff : InStack off) :
    Served enough (fun _ s' => Owned enough lo hi slot held s' ∧
      (∃ w, s'.pageOf (slotBase slot + off) = some w) ∧ KeepsView slot s s' fun _ => True)
      (if (s.pageOf (slotBase slot + off)).isSome then .ok () s
        else doNoPage files k slot (slotBase slot + off) s) := by
  cases hpage : s.pageOf (slotBase slot + off) with
  | some w => exact Or.inl ⟨(), s, if_pos rfl, h, ⟨w, hpage⟩, fun _ _ _ b hb => hb⟩
  | none =>
    have hin : InSlot slot (slotBase slot + off) := inSlot_add hoff.2
    have haddr : slotBase slot + off - (slotBase slot + off) % 4096 =
        slotBase slot + (off - off % 4096) := by
      rw [slotBase]
      omega
    have hoff' : InStack (off - off % 4096) := by
      obtain ⟨hlow, hhigh⟩ := hoff
      unfold InStack
      simp only [dataLimit, stackPages] at *
      omega
    have hempty : s.pageOf (slotBase slot + (off - off % 4096)) = none := by
      rw [← haddr, hin.pageOf, hpage]
    have hdiv : (off - off % 4096) / 4096 = off / 4096 := by omega
    have hmissing : ∃ m, s.stackMissing slot = m + 1 := by
      obtain ⟨hdir, htab⟩ := hoff'.place ht.slot_range.2
      refine Nat.exists_eq_succ_of_ne_zero (Finset.card_ne_zero_of_mem (Finset.mem_filter.mpr
        ⟨htab, ?_⟩))
      rw [← hdir]
      exact hempty
    obtain ⟨m, hm⟩ := hmissing
    have hfree := h.free
    rw [hm, Nat.add_right_comm, ← hoff'.tableNeed ht.slot_range] at hfree
    have huser := (inSlot_add hoff'.2).user ht.slot_range.1 ht.slot_range.2
    have hif : (if (none : Option Word).isSome then Result.ok () s
        else doNoPage files k slot (slotBase slot + off) s) =
          doNoPage files k slot (slotBase slot + off) s := if_neg (by simp)
    rw [hif]
    rcases getEmptyPage_spec h.inv huser hempty with
      ⟨s', hoom, -⟩ | ⟨s', f, hget, hmoves, hrew, -⟩
    · refine Or.inr ⟨fun henough => ?_, s', doNoPage_stack ht hoff (by rw [haddr]; exact hoom)⟩
      obtain ⟨s'', f, hget, -⟩ := getEmptyPage_ok h.inv huser hempty (hfree henough)
      cases hoom.symm.trans hget
    have hfree' : enough → s'.Free m := by
      intro henough
      obtain ⟨s'', f', hget', -, -, hfree'⟩ := getEmptyPage_ok h.inv huser hempty (hfree henough)
      rw [(Result.ok.inj (hget.symm.trans hget')).2]
      exact hfree'
    obtain ⟨hmiss, htable⟩ := stackMissing_rewrites ht.slot_range.2 hoff' hempty hrew
    obtain ⟨howned, hviews⟩ := h.rewrites hoff'.2 hmoves hrew
      (fun henough => (hfree' henough).mono (by omega))
    refine Or.inl ⟨(), s', doNoPage_stack ht hoff (by rw [haddr]; exact hget), howned,
      ⟨pageAddr f ||| 7#32, ?_⟩, fun x hx _ b hb => ?_⟩
    · have hsame : s'.pageOf (slotBase slot + off) =
          s'.pageOf (slotBase slot + (off - off % 4096)) := by
        rw [← haddr, hin.pageOf]
      rw [hsame, State.pageOf, hrew.self]
    · by_cases hxo : x / 4096 = off / 4096
      · have hxpage : s.pageOf (slotBase slot + x) = none := by
          have hx' : slotBase slot + x - (slotBase slot + x) % 4096 =
              slotBase slot + (off - off % 4096) := by
            rw [slotBase]
            omega
          have hinx : InSlot slot (slotBase slot + x) := inSlot_add hx
          rw [← hinx.pageOf, hx', hempty]
        rw [State.userView, State.view, hxpage] at hb
        cases hb
      · rw [hviews x hx (by rw [hdiv]; exact hxo)]
        exact hb

/-- A store to a page of the task. -/
theorem Owned.writeByte (h : Owned enough lo hi slot held s) (hslot : 1 ≤ slot ∧ slot < 64)
    (hoff : off < dataLimit) {w : Word} (hw : s.pageOf (slotBase slot + off) = some w)
    (b : BitVec 8) :
    Owned enough lo hi slot held (writeByte s (slotBase slot + off) b) ∧
      ∀ x < dataLimit, (Mm.writeByte s (slotBase slot + off) b).userView slot x =
        if x = off then some b else s.userView slot x := by
  have hin : InSlot slot (slotBase slot + off) := inSlot_add hoff
  have hwr := h.writable off hoff w hw
  obtain ⟨hhigh, honly⟩ := h.isolated _ _ w hw hwr
  have hmove : Move ⟨s, held⟩ ⟨Mm.writeByte s (slotBase slot + off) b, held⟩ :=
    writeByte_move hw hhigh b
  obtain ⟨htable, hentry⟩ := writeByte_effect h.inv hw hhigh b
  have hnone : ∀ d j, (Mm.writeByte s (slotBase slot + off) b).entry d j = none ↔
      s.entry d j = none := by
    intro d j
    rw [hentry]
    by_cases hplace : d = dirIndex (slotBase slot + off) ∧ j = tableIndex (slotBase slot + off)
    · rw [if_pos hplace, hplace.1, hplace.2]
      have hold : s.entry (dirIndex (slotBase slot + off)) (tableIndex (slotBase slot + off)) =
        some w := hw
      simp [hold]
    · rw [if_neg hplace]
  have hmissing : (Mm.writeByte s (slotBase slot + off) b).stackMissing slot =
      s.stackMissing slot := by
    simp only [State.stackMissing, hnone]
  have htab : (Mm.writeByte s (slotBase slot + off) b).stackTable slot = s.stackTable slot := by
    rw [State.stackTable, State.stackTable, htable]
  refine ⟨⟨hmove.inv h.inv, hmove.private h.inv h.isolated, fun x hx u hu => ?_, ?_⟩,
    fun x hx => ?_⟩
  · rw [State.pageOf, hentry] at hu
    split at hu
    · obtain rfl := Option.some.inj hu
      rw [writable_touch, hwr]
    · exact h.writable x hx u hu
  · intro henough
    rw [hmissing, htab]
    exact (h.free henough).congr rfl
  · rw [State.userView, view_writeByte h.inv hw hhigh b (hin.user hslot.1 hslot.2).2 honly
      ((inSlot_add hx).user hslot.1 hslot.2).2]
    by_cases hxo : x = off
    · rw [if_pos (by rw [hxo]), if_pos hxo]
    · rw [if_neg (by omega), if_neg hxo, State.userView]

variable (files) in
/-- `put_fs_byte`. -/
theorem Owned.putFsByte (h : Owned enough lo hi slot held s) (ht : Starting k slot q)
    (hoff : InStack off) (b : BitVec 8) :
    Served enough (fun _ s' => Owned enough lo hi slot held s' ∧
      s'.userView slot off = some b ∧ KeepsView slot s s' (· ≠ off))
      (putFsByte files k slot off b s) := by
  have hlt : off < q.limit := by
    rw [ht.limit]
    exact hoff.2
  simp only [Mm.putFsByte, ht.task, hlt, if_true]
  refine (h.page files ht hoff).bind fun _ s₁ hpage => ?_
  obtain ⟨h₁, ⟨w, hw⟩, hkeep⟩ := hpage
  obtain ⟨h₂, hviews⟩ := h₁.writeByte ht.slot_range hoff.2 hw b
  refine Or.inl ⟨(), _, rfl, h₂, ?_, fun x hx hxo d hd => ?_⟩
  · rw [hviews off hoff.2, if_pos rfl]
  · rw [hviews x hx, if_neg hxo]
    exact hkeep x hx trivial d hd

variable (files) in
/-- Successive stores. -/
theorem Owned.putFs (bytes : List (BitVec 8)) (h : Owned enough lo hi slot held s)
    (ht : Starting k slot q) (hlow : InStack off) (hhigh : off + bytes.length < dataLimit) :
    Served enough (fun _ s' => Owned enough lo hi slot held s' ∧
      Stored (s'.userView slot) off bytes ∧
      KeepsView slot s s' fun x => x < off ∨ off + bytes.length ≤ x)
      (putFs files k slot off bytes s) := by
  induction bytes generalizing s off with
  | nil => exact Or.inl ⟨(), s, rfl, h, trivial, fun x _ _ b hb => hb⟩
  | cons b bytes ih =>
    rw [List.length_cons] at hhigh ⊢
    rw [Mm.putFs]
    refine (h.putFsByte files ht hlow b).bind fun _ s₁ hput => ?_
    obtain ⟨h₁, hview, hkeep⟩ := hput
    have hlow' : InStack (off + 1) := hlow.mono (by omega) (by omega)
    refine (ih h₁ hlow' (by omega)).mono fun _ s' hrest => ?_
    obtain ⟨h', hstored, hkeep'⟩ := hrest
    refine ⟨h', ⟨hkeep' off hlow.2 (by omega) b hview, hstored⟩, fun x hx hxo d hd => ?_⟩
    exact hkeep' x hx (by omega) d (hkeep x hx (by omega) d hd)

/-- The bytes of a word in memory. -/
def longBytes (val : Word) : List (BitVec 8) := (List.range 4).map (byteOf val)

theorem longBytes_length (val : Word) : (longBytes val).length = 4 := by
  rw [longBytes, List.length_map, List.length_range]

variable (files) in
/-- `put_fs_long`. -/
theorem Owned.putFsLong (h : Owned enough lo hi slot held s) (ht : Starting k slot q)
    (hlow : InStack off) (hhigh : off + 4 < dataLimit) (val : Word) :
    Served enough (fun _ s' => Owned enough lo hi slot held s' ∧
      Stored (s'.userView slot) off (longBytes val) ∧
      KeepsView slot s s' fun x => x < off ∨ off + 4 ≤ x) (putFsLong files k slot val off s) := by
  have hlen := longBytes_length val
  refine (h.putFs files (longBytes val) ht hlow (by omega)).mono fun _ s' hput => ?_
  obtain ⟨h', hstored, hkeep⟩ := hput
  exact ⟨h', hstored, fun x hx hxo => hkeep x hx (by omega)⟩

/-! ### Strings -/

theorem getFsByte_eq (ht : Starting k slot q) (hoff : off < dataLimit) {b : BitVec 8}
    (hb : s.userView slot off = some b) : getFsByte files k slot off s = .ok b s := by
  have hlt : off < q.limit := by
    rw [ht.limit]
    exact hoff
  have hview : s.view (slotBase slot + off) = some b := hb
  have hpage : (s.pageOf (slotBase slot + off)).isSome = true := by
    rw [State.view] at hview
    obtain ⟨w, hw, -⟩ := Option.map_eq_some_iff.mp hview
    rw [hw]
    rfl
  have hif : (if (s.pageOf (slotBase slot + off)).isSome then Result.ok () s
      else doNoPage files k slot (slotBase slot + off) s) = .ok () s := if_pos hpage
  simp only [getFsByte, ht.task]
  rw [if_pos hlt, Result.bind_of_ok hif, hview, Option.getD_some]

/-- The loop over a string ends behind the zero at its end. -/
theorem skipString_eq (ht : Starting k slot q) {str : List (BitVec 8)} {p fuel : ℕ}
    (hstored : Stored (s.userView slot) p (cString str)) (hne : ∀ b ∈ str, b ≠ 0)
    (hhigh : p + (cString str).length ≤ dataLimit) (hfuel : str.length < fuel) :
    skipString files k slot fuel p s = .ok (p + (cString str).length) s := by
  induction str generalizing p fuel with
  | nil =>
    obtain ⟨fuel, rfl⟩ : ∃ f, fuel = f + 1 := ⟨fuel - 1, by omega⟩
    have hlen : (cString []).length = 1 := rfl
    rw [skipString, Result.bind_of_ok (getFsByte_eq ht (by omega) hstored.1), if_pos rfl, hlen]
  | cons b str ih =>
    obtain ⟨fuel, rfl⟩ : ∃ f, fuel = f + 1 := ⟨fuel - 1, by omega⟩
    have hlen : (cString (b :: str)).length = (cString str).length + 1 := rfl
    rw [List.length_cons] at hfuel
    rw [hlen] at hhigh ⊢
    rw [skipString, Result.bind_of_ok (getFsByte_eq ht (by omega) hstored.1),
      if_neg (hne b (by simp)),
      ih hstored.2 (fun d hd => hne d (by simp [hd])) (by omega) (by omega),
      show p + 1 + (cString str).length = p + ((cString str).length + 1) by omega]

end LihaLinux.Mm
