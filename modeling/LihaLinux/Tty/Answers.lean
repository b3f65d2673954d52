import LihaLinux.Screen.SavedCursor
import LihaLinux.Tty.ConsoleWrite

/-!
# Answers of the console

A call of `con_write` that answers with an echo only at its end comes to its end: each answer is
asked for by a character of `read_q` that is not part of an answer.
-/

namespace LihaLinux.Tty

open Screen (Console conChar Answers ascii setState)

/-! ### What an echo is -/

/-- The character `^` is not an answer's request, and none comes after it. -/
theorem csiFinal_caret (c : Console) : Screen.csiFinal 94#8 c = c := by
  unfold Screen.csiFinal
  iterate 19 refine (if_neg (by decide)).trans ?_
  rfl

theorem lf_state (c : Console) : (Screen.lf c).state = c.state := by
  unfold Screen.lf Screen.scrup Screen.scrupOrigin
  split_ifs <;> rfl

theorem putChar_state (ch : BitVec 8) (c : Console) : (Screen.putChar ch c).state = c.state := by
  unfold Screen.putChar Screen.putCell Screen.wrapLine
  dsimp only
  split_ifs
  · rw [lf_state]
  · rfl

theorem parChar_caret (c : Console) : (Screen.parChar 94#8 c).state = 0 := by
  unfold Screen.parChar
  rw [if_neg fun h => absurd h.1 (by decide), if_neg (by decide), csiFinal_caret]
  rfl

theorem conChar_caret (eraseCc : BitVec 8) (c : Console) : (conChar eraseCc 94#8 c).state ≠ 1 := by
  unfold conChar
  split
  · next hzero =>
    unfold Screen.normalChar
    rw [if_pos (by decide), putChar_state, hzero]
    decide
  · rw [Screen.escChar_column (by decide)]
    split_ifs
    · exact Nat.zero_ne_one
    · unfold Screen.restoreCur Screen.gotoxy
      split_ifs <;> exact Nat.zero_ne_one
    · exact Nat.zero_ne_one
  · rw [if_neg (by decide), parChar_caret]
    exact Nat.zero_ne_one
  · rw [parChar_caret]
    exact Nat.zero_ne_one
  · rw [csiFinal_caret]
    exact Nat.zero_ne_one
  · next hone _ _ _ => exact hone

/-! ### Calls for an echo -/

variable {t t' echoed : ConTty} {c n nr : ℕ} {l : List ℕ}

/-- What a call with an echo does: the echo is written, and nothing else. -/
structure Echoed (t t' : ConTty) : Prop where
  empty : t'.writeQ.isEmpty = true
  starved : t'.driver.starved = t.driver.starved
  taken : ∃ e, t'.driver.taken = t.driver.taken ++ e
  readQ : t'.readQ = t.readQ
  secondary : t'.secondary = t.secondary
  termios : t'.termios = t.termios

/-- The first character of a queue is taken. -/
theorem take_cons (h : t.writeQ.toList = c :: l) :
    t.writeQ.first = c ∧ t.take.writeQ.toList = l ∧
      t.take.driver.starved = t.driver.starved ∧
      t.take.driver.taken = t.driver.taken ++ [c] := by
  have hne : t.writeQ.isEmpty = false := by
    by_contra hempty
    have hnil := TtyQueue.isEmpty_iff.mp (by simpa using hempty : t.writeQ.isEmpty = true)
    rw [h] at hnil
    cases hnil
  have hcons := TtyQueue.toList_inc hne
  rw [h, List.cons.injEq] at hcons
  obtain ⟨hfirst, hrest⟩ := hcons
  refine ⟨hfirst.symm, hrest.symm, ?_, ?_⟩
  · change (t.driver.starved || t.writeQ.isEmpty) = _
    rw [hne, Bool.or_false]
  · change t.driver.taken ++ [t.writeQ.first] = _
    rw [hfirst]

theorem toList_putWrite (h : t.writeQ.toList = l) (hlen : l.length < 1023) (c : ℕ) :
    (t.putWrite c).writeQ.toList = l ++ [c] := by
  have hroom : t.writeQ.full = false := by
    by_contra hfull
    have hlen' := TtyQueue.full_iff.mp (by simpa using hfull : t.writeQ.full = true)
    rw [h] at hlen'
    omega
  change (t.writeQ.putch c).toList = _
  rw [TtyQueue.toList_putch hroom, h]

/-- The answer is asked for by `Z` only. -/
theorem answers_eq_false (h : t.writeQ.first = c) (hc : c % 256 ≠ 90) : t.answers = false := by
  rw [ConTty.answers, decide_eq_false_iff_not]
  rintro ⟨_, hchar⟩
  have hval := congrArg BitVec.toNat hchar
  rw [ConTty.char, h, BitVec.toNat_ofNat] at hval
  exact hc hval

theorem answers_eq_false_of_state (h : t.driver.con.state ≠ 1) : t.answers = false := by
  rw [ConTty.answers, decide_eq_false_iff_not]
  exact fun hanswers => h hanswers.1

theorem bind_writeLoop_zero (w : ConTty → Option ConTty) (n : ℕ) (x : Option ConTty) :
    x.bind (ConTty.writeLoop w n 0) = x := by
  cases x with
  | none => rfl
  | some t => rfl

/-- A call with no characters. -/
theorem conWrite_nil (h : t.writeQ.toList = []) (n : ℕ) : ConTty.conWrite (n + 1) t = some t := by
  have hchars : t.writeQ.chars = 0 := by rw [← TtyQueue.length_toList, h, List.length_nil]
  rw [ConTty.conWrite, hchars, ConTty.writeLoop]

/-- A call with one character. -/
theorem conWrite_singleton (h : t.writeQ.toList = [c]) (n : ℕ) :
    ConTty.conWrite (n + 1) t = ConTty.takeChar (ConTty.conWrite n) n t := by
  have hchars : t.writeQ.chars = 1 := by
    rw [← TtyQueue.length_toList, h, List.length_singleton]
  rw [ConTty.conWrite, hchars, ConTty.writeLoop, bind_writeLoop_zero]

/-- A call with two characters, the first of which gets no answer. -/
theorem conWrite_pair {a b : ℕ} (h : t.writeQ.toList = [a, b]) (ha : t.answers = false) (n : ℕ) :
    ConTty.conWrite (n + 1) t = ConTty.takeChar (ConTty.conWrite n) n t.take := by
  have hchars : t.writeQ.chars = 2 := by
    rw [← TtyQueue.length_toList, h]
    rfl
  have hfirst : ConTty.takeChar (ConTty.conWrite n) n t = some t.take := by
    unfold ConTty.takeChar
    rw [if_neg (by simp [ha])]
  rw [ConTty.conWrite, hchars, ConTty.writeLoop, hfirst, Option.bind_some, ConTty.writeLoop,
    bind_writeLoop_zero]

theorem takeChar_eq (h : t.answers = false) (w : ConTty → Option ConTty) (n : ℕ) :
    ConTty.takeChar w n t = some t.take := by
  unfold ConTty.takeChar
  rw [if_neg (by simp [h])]

/-- An echo without an answer. -/
structure PlainEcho (t echoed : ConTty) : Prop where
  readQ : echoed.readQ = t.readQ
  secondary : echoed.secondary = t.secondary
  termios : echoed.termios = t.termios
  driver : echoed.driver = t.driver
  chars : echoed.writeQ.toList = [] ∨
    (∃ c, echoed.writeQ.toList = [c] ∧ c % 256 ≠ 90) ∨
    ∃ a b, echoed.writeQ.toList = [a, b] ∧ a % 256 ≠ 90 ∧ (b % 256 ≠ 90 ∨ a = 94)

/-- Such an echo is written. -/
theorem PlainEcho.conWrite (h : PlainEcho t echoed) (n : ℕ) :
    ∃ t', ConTty.conWrite (n + 1) echoed = some t' ∧ Echoed t t' := by
  rcases h.chars with hnil | ⟨c, hone, hc⟩ | ⟨a, b, htwo, ha, hb⟩
  · refine ⟨echoed, conWrite_nil hnil n, TtyQueue.isEmpty_iff.mpr hnil, ?_, ⟨[], ?_⟩, h.readQ,
      h.secondary, h.termios⟩
    · rw [h.driver]
    · rw [h.driver, List.append_nil]
  · obtain ⟨hfirst, hrest, hstarved, htaken⟩ := take_cons hone
    refine ⟨echoed.take, ?_, TtyQueue.isEmpty_iff.mpr hrest, ?_, ⟨[c], ?_⟩, h.readQ,
      h.secondary, h.termios⟩
    · rw [conWrite_singleton hone, takeChar_eq (answers_eq_false hfirst hc)]
    · rw [hstarved, h.driver]
    · rw [htaken, h.driver]
  · obtain ⟨hfirst, hrest, hstarved, htaken⟩ := take_cons htwo
    obtain ⟨hfirst', hrest', hstarved', htaken'⟩ := take_cons hrest
    have hlast : echoed.take.answers = false := by
      rcases hb with hb | rfl
      · exact answers_eq_false hfirst' hb
      · apply answers_eq_false_of_state
        change (conChar echoed.eraseCc echoed.char echoed.driver.con).state ≠ 1
        rw [ConTty.char, hfirst]
        exact conChar_caret _ _
    refine ⟨echoed.take.take, ?_, TtyQueue.isEmpty_iff.mpr hrest', ?_, ⟨[a, b], ?_⟩, h.readQ,
      h.secondary, h.termios⟩
    · rw [conWrite_pair htwo (answers_eq_false hfirst ha), takeChar_eq hlast]
    · rw [hstarved', hstarved, h.driver]
    · rw [htaken', htaken, h.driver, List.append_assoc]
      rfl

theorem echoErased_plain (h : t.writeQ.isEmpty = true) (c : ℕ) : PlainEcho t (t.echoErased c) := by
  have hnil := TtyQueue.isEmpty_iff.mp h
  have hone := toList_putWrite hnil (by decide) 127
  have htwo := toList_putWrite hone (by decide) 127
  unfold TtyStruct.echoErased
  split_ifs
  · exact ⟨rfl, rfl, rfl, rfl, Or.inr (Or.inr ⟨127, 127, htwo, by decide, Or.inl (by decide)⟩)⟩
  · exact ⟨rfl, rfl, rfl, rfl, Or.inr (Or.inl ⟨127, hone, by decide⟩)⟩

theorem echoChar_plain (h : t.writeQ.isEmpty = true) (hc : c % 256 ≠ 90 ∨ isControl c = true) :
    PlainEcho t (t.echoChar c) := by
  have hnil := TtyQueue.isEmpty_iff.mp h
  have hone := fun a => toList_putWrite hnil (by decide) a
  have hlen : ∀ a : ℕ, ([] ++ [a]).length < 1023 := fun _ => by simp
  have htwo := fun a b => toList_putWrite (hone a) (hlen a) b
  unfold TtyStruct.echoChar
  split_ifs with hten hcontrol hctl
  · exact ⟨rfl, rfl, rfl, rfl, Or.inr (Or.inr ⟨10, 13, htwo 10 13, by decide, Or.inl (by decide)⟩)⟩
  · exact ⟨rfl, rfl, rfl, rfl, Or.inr (Or.inr ⟨94, _, htwo 94 _, by decide, Or.inr rfl⟩)⟩
  · exact ⟨rfl, rfl, rfl, rfl, Or.inl hnil⟩
  · rcases hc with hc | hc
    · exact ⟨rfl, rfl, rfl, rfl, Or.inr (Or.inl ⟨c, hone c, hc⟩)⟩
    · exact absurd hc hcontrol

/-! ### Calls that end -/

/-- The characters of `read_q` that are not from an answer. -/
def weight (t : ConTty) : ℕ := t.readQ.toList.countP fun c => decide (c ∉ response)

/-- Everything is written, and no answer adds to the weight. -/
structure Written (t t' : ConTty) : Prop where
  empty : t'.writeQ.isEmpty = true
  starved : t'.driver.starved = t.driver.starved
  taken : ∃ e, t'.driver.taken = t.driver.taken ++ e
  weight : weight t' ≤ weight t

theorem Written.refl (h : t.writeQ.isEmpty = true) : Written t t :=
  ⟨h, rfl, ⟨[], (List.append_nil _).symm⟩, Nat.le_refl _⟩

theorem Written.trans {t'' : ConTty} (h : Written t t') (h' : Written t' t'') : Written t t'' := by
  obtain ⟨e, he⟩ := h.taken
  obtain ⟨e', he'⟩ := h'.taken
  refine ⟨h'.empty, h'.starved.trans h.starved, ⟨e ++ e', ?_⟩, h'.weight.trans h.weight⟩
  rw [he', he, List.append_assoc]

theorem Echoed.written (h : Echoed t t') : Written t t' :=
  ⟨h.empty, h.starved, h.taken, by rw [weight, weight, h.readQ]⟩

theorem Echoed.refl (h : t.writeQ.isEmpty = true) : Echoed t t :=
  ⟨h, rfl, ⟨[], (List.append_nil _).symm⟩, rfl, rfl, rfl⟩

/-- A character of an answer adds nothing to the weight, also when `read_q` is full. -/
theorem countP_putch (q : TtyQueue) (hc : c ∈ response) :
    (q.putch c).toList.countP (fun c => decide (c ∉ response)) ≤
      q.toList.countP fun c => decide (c ∉ response) := by
  cases hfull : q.full with
  | true =>
    rw [TtyQueue.toList_putch_full hfull, List.countP_nil]
    exact Nat.zero_le _
  | false =>
    rw [TtyQueue.toList_putch hfull, List.countP_append, List.countP_singleton,
      if_neg (by simp [hc])]
    exact Nat.le_refl _

theorem countP_putchs (q : TtyQueue) (l : List ℕ) (hl : ∀ c ∈ l, c ∈ response) :
    (l.foldl TtyQueue.putch q).toList.countP (fun c => decide (c ∉ response)) ≤
      q.toList.countP fun c => decide (c ∉ response) := by
  induction l generalizing q with
  | nil => exact Nat.le_refl _
  | cons c l ih =>
    have hrest := ih (q.putch c) fun a ha => hl a (List.mem_cons_of_mem _ ha)
    exact hrest.trans (countP_putch q (hl c List.mem_cons_self))

theorem weight_putResponse (t : ConTty) : weight t.putResponse ≤ weight t :=
  countP_putchs t.readQ response fun _ hc => hc

/-- An echo without an answer comes to its end. -/
theorem PlainEcho.withEcho (h : PlainEcho t echoed) (hempty : t.writeQ.isEmpty = true) (n : ℕ) :
    ∃ t', t.withEcho (ConTty.conWrite (n + 1)) echoed = some t' ∧ Echoed t t' := by
  unfold TtyStruct.withEcho
  split_ifs
  · exact h.conWrite n
  · exact ⟨t, rfl, .refl hempty⟩

theorem eraseLast_ends (hempty : t.writeQ.isEmpty = true) (n : ℕ) :
    ∃ t', t.eraseLast (ConTty.conWrite (n + 1)) = some t' ∧ Written t t' ∧ t'.readQ = t.readQ ∧
      t'.secondary = t.secondary.dec := by
  obtain ⟨t₁, h₁, hecho⟩ := (echoErased_plain hempty t.secondary.last).withEcho hempty n
  refine ⟨t₁.decSecondary, ?_, ?_, hecho.readQ, ?_⟩
  · rw [TtyStruct.eraseLast, h₁]
    rfl
  · have hwritten := hecho.written
    exact ⟨hwritten.empty, hwritten.starved, hwritten.taken, hwritten.weight⟩
  · change t₁.secondary.dec = _
    rw [hecho.secondary]

theorem killLoop_ends {m : ℕ} (hm : t.secondary.chars ≤ m) (hempty : t.writeQ.isEmpty = true) :
    ∃ t', TtyStruct.killLoop (ConTty.conWrite 1) (m + 1) t = some t' ∧ Written t t' ∧
      t'.readQ = t.readQ := by
  induction m generalizing t with
  | zero =>
    have hline : t.atLineStart = true := by
      rw [TtyStruct.atLineStart, (chars_eq_zero _).mp (by omega), Bool.true_or]
    refine ⟨t, ?_, .refl hempty, rfl⟩
    rw [TtyStruct.killLoop, if_pos hline]
  | succ m ih =>
    cases hline : t.atLineStart with
    | true =>
      refine ⟨t, ?_, .refl hempty, rfl⟩
      rw [TtyStruct.killLoop, if_pos hline]
    | false =>
      obtain ⟨t₁, h₁, hwritten, hreadQ, hsec⟩ := eraseLast_ends hempty 0
      have hne : t.secondary.isEmpty = false := by
        rw [TtyStruct.atLineStart, Bool.or_eq_false_iff] at hline
        exact hline.1
      have hlen := congrArg List.length (TtyQueue.toList_dec hne)
      rw [List.length_append, TtyQueue.length_toList, TtyQueue.length_toList,
        List.length_singleton] at hlen
      obtain ⟨t', h', hwritten', hreadQ'⟩ := ih (by rw [hsec]; omega) hwritten.empty
      refine ⟨t', ?_, hwritten.trans hwritten', hreadQ'.trans hreadQ⟩
      rw [TtyStruct.killLoop, if_neg (by simp [hline]), h₁]
      exact h'

/-- The characters of an answer stay what they are. -/
theorem not_mem_response {m : CookMode} {r : ℕ} (h : m.inputChar r = some c)
    (hc : c % 256 = 90) : r ∉ response := by
  intro hr
  have hsame : c = r := by
    simp only [response, List.mem_cons, List.not_mem_nil, or_false] at hr
    rcases hr with rfl | rfl | rfl | rfl | rfl | rfl | rfl <;>
      simp [CookMode.inputChar, CookMode.tolower] at h <;> exact h.symm
  subst hsame
  simp only [response, List.mem_cons, List.not_mem_nil, or_false] at hr
  omega

/-- `copy_to_cooked` comes to its end when it begins with nothing to write. -/
def CopyEnds (t : ConTty) : Prop :=
  ∃ n t', TtyStruct.copyToCooked (ConTty.conWrite n) n t = some t' ∧ Written t t'

/-- A call with an echo of one character, which may get an answer. -/
theorem conWrite_char (hempty : t.writeQ.isEmpty = true) {r : ℕ} (hc : c % 256 = 90 → r ∉ response)
    (ih : ∀ s : ConTty, s.writeQ.isEmpty = true → r ∉ response → weight s ≤ weight t → CopyEnds s) :
    ∃ n t', ConTty.conWrite (n + 1) (t.putWrite c) = some t' ∧ Written t t' ∧
      (t'.readQ = t.readQ ∨ r ∉ response) := by
  have hone := toList_putWrite (TtyQueue.isEmpty_iff.mp hempty) (by decide) c
  obtain ⟨s, hs⟩ : ∃ s : ConTty, t.putWrite c = s := ⟨_, rfl⟩
  have hdriver : s.driver = t.driver := by rw [← hs]; rfl
  have hreadQ : s.readQ = t.readQ := by rw [← hs]; rfl
  rw [hs, List.nil_append] at hone
  rw [hs]
  obtain ⟨hfirst, hrest, hstarved, htaken⟩ := take_cons hone
  have hempty' := TtyQueue.isEmpty_iff.mpr hrest
  rw [hdriver] at hstarved htaken
  have hweight : weight s.take = weight t := by
    change s.readQ.toList.countP _ = t.readQ.toList.countP _
    rw [hreadQ]
  cases hanswers : s.answers with
  | false =>
    refine ⟨0, s.take, ?_, ⟨hempty', hstarved, ⟨[c], htaken⟩, hweight.le⟩, Or.inl hreadQ⟩
    rw [conWrite_singleton hone, takeChar_eq hanswers]
  | true =>
    have hz : c % 256 = 90 := by
      by_contra hz
      rw [answers_eq_false hfirst hz] at hanswers
      cases hanswers
    have hle : weight s.take.putResponse ≤ weight t :=
      (weight_putResponse s.take).trans hweight.le
    obtain ⟨n, t', hrun, hwritten⟩ := ih s.take.putResponse hempty' (hc hz) hle
    obtain ⟨e, he⟩ := hwritten.taken
    have htaken' : t'.driver.taken = t.driver.taken ++ (c :: e) := by
      rw [he]
      change s.take.driver.taken ++ e = _
      rw [htaken, List.append_assoc]
      rfl
    refine ⟨n, t', ?_, ⟨hwritten.empty, hwritten.starved.trans hstarved, ⟨_, htaken'⟩,
      hwritten.weight.trans hle⟩, Or.inr (hc hz)⟩
    rw [conWrite_singleton hone, ConTty.takeChar, if_pos hanswers]
    exact hrun

/-- The echo of a character that is stored. -/
theorem echoChar_ends (hempty : t.writeQ.isEmpty = true) {r : ℕ} (hc : c % 256 = 90 → r ∉ response)
    (ih : ∀ s : ConTty, s.writeQ.isEmpty = true → r ∉ response → weight s ≤ weight t → CopyEnds s) :
    ∃ n t', t.withEcho (ConTty.conWrite n) (t.echoChar c) = some t' ∧ Written t t' ∧
      (t'.readQ = t.readQ ∨ r ∉ response) := by
  cases hecho : t.termios.echo with
  | false =>
    refine ⟨0, t, ?_, .refl hempty, Or.inl rfl⟩
    rw [TtyStruct.withEcho, if_neg (by simp [hecho])]
  | true =>
    by_cases hplain : c % 256 ≠ 90 ∨ isControl c = true
    · obtain ⟨t', hrun, hechoed⟩ := (echoChar_plain hempty hplain).conWrite 0
      refine ⟨1, t', ?_, hechoed.written, Or.inl hechoed.readQ⟩
      rw [TtyStruct.withEcho, if_pos hecho]
      exact hrun
    · obtain ⟨hz, hcontrol⟩ := not_or.mp hplain
      have hten : c ≠ 10 := by omega
      obtain ⟨n, t', hrun, hwritten, hreadQ⟩ := conWrite_char hempty hc ih
      refine ⟨n + 1, t', ?_, hwritten, hreadQ⟩
      rw [TtyStruct.withEcho, if_pos hecho, TtyStruct.echoChar, if_neg hten, if_neg hcontrol]
      exact hrun

/-- A character is echoed and stored. -/
theorem store_ends (hempty : t.writeQ.isEmpty = true) {r : ℕ}
    (hchar : t.termios.inputChar r = some c)
    (ih : ∀ s : ConTty, s.writeQ.isEmpty = true → r ∉ response → weight s ≤ weight t → CopyEnds s) :
    ∃ n t', ((t.countTerm c).withEcho (ConTty.conWrite n) ((t.countTerm c).echoChar c)).map
        (fun t => t.putSecondary c) = some t' ∧ Written t t' ∧
      (t'.readQ = t.readQ ∨ r ∉ response) := by
  obtain ⟨s, hs⟩ : ∃ s : ConTty, t.countTerm c = s := ⟨_, rfl⟩
  have hsame : SameOutput t s ∧ s.readQ = t.readQ := by
    rw [← hs]
    refine ⟨countTerm_sameOutput t c, ?_⟩
    unfold TtyStruct.countTerm
    split_ifs <;> rfl
  obtain ⟨hout, hreadQ⟩ := hsame
  have hempty' : s.writeQ.isEmpty = true := by rw [hout.writeQ, hempty]
  have hweight : weight s = weight t := by rw [weight, weight, hreadQ]
  rw [hs]
  obtain ⟨n, t', hrun, hwritten, hreadQ'⟩ := echoChar_ends hempty' (not_mem_response hchar)
    fun a ha hr hle => ih a ha hr (hle.trans hweight.le)
  refine ⟨n, t'.putSecondary c, ?_, ⟨hwritten.empty, ?_, ?_, hwritten.weight.trans hweight.le⟩, ?_⟩
  · rw [hrun]
    rfl
  · exact hwritten.starved.trans (by rw [hout.driver])
  · rw [← hout.driver]
    exact hwritten.taken
  · rw [← hreadQ]
    exact hreadQ'

/-- A character of `read_q` is cooked. -/
theorem cookChar_ends (hempty : t.writeQ.isEmpty = true) (r : ℕ)
    (ih : ∀ s : ConTty, s.writeQ.isEmpty = true → r ∉ response → weight s ≤ weight t → CopyEnds s) :
    ∃ n t', t.cookChar (ConTty.conWrite n) n r = some t' ∧ Written t t' ∧
      (t'.readQ = t.readQ ∨ r ∉ response) := by
  have hrefl : Written t t := .refl hempty
  cases hchar : t.termios.inputChar r with
  | none =>
    refine ⟨0, t, ?_, hrefl, Or.inl rfl⟩
    rw [TtyStruct.cookChar, hchar]
  | some c =>
    simp only [TtyStruct.cookChar, hchar]
    split_ifs
    · obtain ⟨t', hkill, hwritten, hreadQ⟩ := killLoop_ends (Nat.le_refl _) hempty
      exact ⟨t.secondary.chars + 1, t', TtyStruct.killLoop_extends
        (ConTty.conWrite_extends (by omega)) (Nat.le_refl _) hkill, hwritten, Or.inl hreadQ⟩
    · exact ⟨0, t, rfl, hrefl, Or.inl rfl⟩
    · obtain ⟨t', herase, hwritten, hreadQ, _⟩ := eraseLast_ends hempty 0
      exact ⟨1, t', herase, hwritten, Or.inl hreadQ⟩
    · exact ⟨0, _, rfl, ⟨hempty, rfl, ⟨[], (List.append_nil _).symm⟩, Nat.le_refl _⟩, Or.inl rfl⟩
    · exact ⟨0, _, rfl, ⟨hempty, rfl, ⟨[], (List.append_nil _).symm⟩, Nat.le_refl _⟩, Or.inl rfl⟩
    · exact ⟨0, _, rfl, ⟨hempty, rfl, ⟨[], (List.append_nil _).symm⟩, Nat.le_refl _⟩, Or.inl rfl⟩
    · exact ⟨0, _, rfl, ⟨hempty, rfl, ⟨[], (List.append_nil _).symm⟩, Nat.le_refl _⟩, Or.inl rfl⟩
    · exact store_ends hempty hchar ih

/-- A call of `copy_to_cooked` with nothing to write comes to its end. -/
theorem copyEnds (hempty : t.writeQ.isEmpty = true) : CopyEnds t := by
  obtain ⟨w, hw⟩ : ∃ w, weight t = w := ⟨_, rfl⟩
  induction w using Nat.strong_induction_on generalizing t with
  | _ w ihw =>
    obtain ⟨k, hk⟩ : ∃ k, t.readQ.chars = k := ⟨_, rfl⟩
    induction k generalizing t with
    | zero =>
      refine ⟨1, t, ?_, .refl hempty⟩
      rw [TtyStruct.copyToCooked, if_pos (by rw [(chars_eq_zero _).mp hk, Bool.true_or])]
    | succ k ihk =>
      cases hstop : t.readQ.isEmpty || t.secondary.full with
      | true =>
        refine ⟨1, t, ?_, .refl hempty⟩
        rw [TtyStruct.copyToCooked, if_pos hstop]
      | false =>
        have hne : t.readQ.isEmpty = false := (Bool.or_eq_false_iff.mp hstop).1
        obtain ⟨t₀, ht₀⟩ : ∃ t₀ : ConTty, { t with readQ := t.readQ.inc } = t₀ := ⟨_, rfl⟩
        have hreadQ₀ : t₀.readQ = t.readQ.inc := by rw [← ht₀]
        have hempty₀ : t₀.writeQ.isEmpty = true := by rw [← ht₀]; exact hempty
        have hweight : weight t =
            weight t₀ + if t.readQ.first ∉ response then 1 else 0 := by
          rw [weight, weight, TtyQueue.toList_inc hne, List.countP_cons, hreadQ₀]
          simp only [decide_eq_true_eq]
        have hchars : t₀.readQ.chars = k := by
          rw [hreadQ₀]
          exact chars_inc hk
        obtain ⟨n₁, t₁, h₁, hwritten₁, hreadQ₁⟩ := cookChar_ends hempty₀ t.readQ.first
          fun s hs hr hle => ihw (weight s) (by rw [if_pos hr] at hweight; omega) hs rfl
        have hrest : CopyEnds t₁ := by
          have hle := hwritten₁.weight
          by_cases hr : t.readQ.first ∉ response
          · rw [if_pos hr] at hweight
            exact ihw (weight t₁) (by omega) hwritten₁.empty rfl
          · rw [if_neg hr] at hweight
            have hsame := hreadQ₁.resolve_right hr
            have hsame' : weight t₁ = weight t₀ := by rw [weight, weight, hsame]
            exact ihk hwritten₁.empty (by omega) (by rw [hsame, hchars])
        obtain ⟨n₂, t₂, h₂, hwritten₂⟩ := hrest
        have hwritten₀ : Written t t₀ := by
          refine ⟨hempty₀, by rw [← ht₀], ⟨[], ?_⟩, by omega⟩
          rw [← ht₀, List.append_nil]
        refine ⟨n₁ + n₂ + 1, t₂, ?_, (hwritten₀.trans hwritten₁).trans hwritten₂⟩
        rw [TtyStruct.copyToCooked, if_neg (by simp [hstop]), ht₀]
        apply Option.bind_eq_some_iff.mpr
        exact ⟨t₁, TtyStruct.cookChar_extends (ConTty.conWrite_extends (by omega)) (by omega) h₁,
          TtyStruct.copyToCooked_extends (ConTty.conWrite_extends (by omega)) (by omega) h₂⟩

/-! ### All calls -/

/-- All that a call is meant to do: it takes the characters of `write_q` in their order, and then
those of the echoes, and it leaves nothing to write. -/
structure Consumes (t t' : ConTty) : Prop where
  empty : t'.writeQ.isEmpty = true
  starved : t'.driver.starved = t.driver.starved
  taken : ∃ e, t'.driver.taken = t.driver.taken ++ t.writeQ.toList ++ e

/-- The last character of a call. -/
theorem takeChar_ends (hone : t.writeQ.toList = [c]) :
    ∃ n t', ConTty.takeChar (ConTty.conWrite n) n t = some t' ∧ Consumes t t' := by
  obtain ⟨hfirst, hrest, hstarved, htaken⟩ := take_cons hone
  have hempty := TtyQueue.isEmpty_iff.mpr hrest
  unfold ConTty.takeChar
  split_ifs
  · have hput : t.take.putResponse.writeQ.isEmpty = true := hempty
    obtain ⟨n, t', hrun, hwritten⟩ := copyEnds hput
    obtain ⟨e, he⟩ := hwritten.taken
    refine ⟨n, t', hrun, hwritten.empty, hwritten.starved.trans hstarved, e, ?_⟩
    rw [he, hone, ← htaken]
    rfl
  · refine ⟨0, t.take, rfl, hempty, hstarved, [], ?_⟩
    rw [hone, htaken, List.append_nil]

/-- A call that answers with an echo only at its end. -/
theorem writeLoop_ends (hlen : t.writeQ.toList.length = nr) (hlast : AnswersLast nr t) :
    ∃ n t', ConTty.writeLoop (ConTty.conWrite n) n nr t = some t' ∧ Consumes t t' := by
  induction nr generalizing t with
  | zero =>
    have hnil := List.length_eq_zero_iff.mp hlen
    refine ⟨0, t, rfl, TtyQueue.isEmpty_iff.mpr hnil, rfl, [], ?_⟩
    rw [hnil, List.append_nil, List.append_nil]
  | succ nr ih =>
    cases nr with
    | zero =>
      obtain ⟨c, hone⟩ := List.length_eq_one_iff.mp hlen
      obtain ⟨n, t', hrun, hconsumes⟩ := takeChar_ends hone
      refine ⟨n, t', ?_, hconsumes⟩
      rw [ConTty.writeLoop, bind_writeLoop_zero, hrun]
    | succ nr =>
      obtain ⟨n₁, t₁, hquiet, hlast₁⟩ := hlast
      obtain ⟨c, l, hcons⟩ := List.exists_cons_of_length_eq_add_one hlen
      obtain ⟨hfirst, hrest, hstarved, htaken⟩ := take_cons hcons
      have hsame := sameOutput_of_noWrite hquiet
      rw [hcons, List.length_cons] at hlen
      have hlen₁ : t₁.writeQ.toList.length = nr + 1 := by
        rw [hsame.writeQ, hrest]
        omega
      obtain ⟨n₂, t₂, hrun, hconsumes⟩ := ih hlen₁ hlast₁
      obtain ⟨e, he⟩ := hconsumes.taken
      refine ⟨n₁ + n₂, t₂, ?_, hconsumes.empty, ?_, e, ?_⟩
      · rw [ConTty.writeLoop]
        apply Option.bind_eq_some_iff.mpr
        exact ⟨t₁, ConTty.takeChar_extends (noWrite_extends _) (by omega) hquiet,
          ConTty.writeLoop_extends (ConTty.conWrite_extends (by omega)) (by omega) hrun⟩
      · rw [hconsumes.starved, hsame.driver, hstarved]
      · rw [he, hsame.writeQ, hsame.driver, hrest, htaken, hcons, List.append_assoc _ [c]]
        rfl

/-- The terminal when a call begins that has taken nothing. -/
def TtyStruct.begin (t : ConTty) : ConTty :=
  { t with driver := { t.driver with taken := [], starved := false } }

/-- A call of `con_write` returns, has taken the characters of `write_q` once each and in their
order, and then those of echoes, has met no empty queue and leaves an empty queue, if and only if no
character but the last one makes the console answer with an echo. -/
theorem conWrite_consumes_iff (t : ConTty) :
    (∃ n t', ConTty.conWrite n t.begin = some t' ∧ t'.writeQ.isEmpty = true ∧
      t'.driver.starved = false ∧ ∃ e, t'.driver.taken = t.writeQ.toList ++ e) ↔
    AnswersLast t.writeQ.chars t.begin := by
  constructor
  · rintro ⟨n, t', hrun, _, hfed, _⟩
    cases n with
    | zero => cases hrun
    | succ n => exact answersLast_of_writeLoop (conWrite_leaves n) rfl hrun hfed
  · intro hlast
    have hlen : t.begin.writeQ.toList.length = t.writeQ.chars := TtyQueue.length_toList _
    obtain ⟨n, t', hrun, hconsumes⟩ := writeLoop_ends hlen hlast
    refine ⟨n + 1, t', hrun, hconsumes.empty, hconsumes.starved, ?_⟩
    obtain ⟨e, he⟩ := hconsumes.taken
    exact ⟨e, he⟩

/-- The console echoes, and `ESC Z` and a letter are to be written. -/
def answerThenLetter : ConTty :=
  { TtyStruct.fresh consoleTermios ⟨Screen.egaConsole, [], false⟩ with
    writeQ := ((TtyQueue.empty.putch 27).putch 90).putch 65 }

/-- The first character of the answer is echoed. -/
theorem takeChar_answerThenLetter (n : ℕ) :
    ConTty.takeChar noWrite n answerThenLetter.begin.take = none := by
  cases n with
  | zero => rfl
  | succ n => rfl

/-- No call with `ESC Z` and a letter does what it is meant to do. -/
theorem not_consumes_answerThenLetter :
    ¬∃ n t', ConTty.conWrite n answerThenLetter.begin = some t' ∧ t'.writeQ.isEmpty = true ∧
      t'.driver.starved = false ∧
      ∃ e, t'.driver.taken = answerThenLetter.writeQ.toList ++ e := by
  rintro ⟨n, t', hrun, _, hfed, _⟩
  cases n with
  | zero => cases hrun
  | succ n =>
    have hchars : answerThenLetter.begin.writeQ.chars = 3 := rfl
    obtain ⟨m, t₁, hfirst, k, t₂, hsecond, _⟩ :=
      answersLast_of_writeLoop (conWrite_leaves n) hchars hrun hfed
    have hescape : ConTty.takeChar noWrite m answerThenLetter.begin =
        some answerThenLetter.begin.take := rfl
    rw [hescape, Option.some.injEq] at hfirst
    rw [← hfirst, takeChar_answerThenLetter] at hsecond
    cases hsecond

end LihaLinux.Tty
