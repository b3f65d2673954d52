import LihaLinux.Screen.ConWrite
import LihaLinux.Tty.Cooking

/-!
# `con_write`

`con_write` takes the characters that are in `write_q` when it begins. One of them can make the
console answer, and the echo of the answer calls `con_write` again.
-/

namespace LihaLinux.Tty

open Screen (Console conChar Answers)

/-- The console driver, with what `con_write` has taken from `write_q`. -/
structure ConDriver where
  con : Console
  taken : List ℕ
  /-- Whether a `GETCH` has met an empty queue. -/
  starved : Bool

/-- The terminal of the console. -/
abbrev ConTty : Type := TtyStruct ConDriver

/-- `RESPONSE`. -/
def response : List ℕ := [27, 91, 63, 49, 59, 50, 99]

namespace ConTty

/-- `ERASE_CHAR(tty)`. -/
def eraseCc (t : ConTty) : BitVec 8 := BitVec.ofNat 8 t.termios.erase

/-- The character that `GETCH(tty->write_q,c)` reads. -/
def char (t : ConTty) : BitVec 8 := BitVec.ofNat 8 t.writeQ.first

/-- Whether the character makes the console answer. -/
def answers (t : ConTty) : Bool := decide (Answers t.char t.driver.con)

/-- `GETCH(tty->write_q,c)`, and what is done with the character, but for the answer. -/
def take (t : ConTty) : ConTty :=
  { t with
    writeQ := t.writeQ.inc
    driver := {
      con := conChar t.eraseCc t.char t.driver.con
      taken := t.driver.taken ++ [t.writeQ.first]
      starved := t.driver.starved || t.writeQ.isEmpty } }

/-- `respond`, before it calls `copy_to_cooked`. -/
def putResponse (t : ConTty) : ConTty := { t with readQ := response.foldl TtyQueue.putch t.readQ }

variable (write : ConTty → Option ConTty) (n : ℕ)

/-- `respond`. -/
def respond (t : ConTty) : Option ConTty := t.putResponse.copyToCooked write n

/-- The loop of `con_write` for one character. -/
def takeChar (t : ConTty) : Option ConTty :=
  if t.answers then respond write n t.take else some t.take

/-- The loop of `con_write`. -/
def writeLoop : ℕ → ConTty → Option ConTty
  | 0, t => some t
  | nr + 1, t => (takeChar write n t).bind (writeLoop nr)

/-- `con_write`, for calls that are nested at most `n` deep. -/
def conWrite : ℕ → ConTty → Option ConTty
  | 0, _ => none
  | n + 1, t => writeLoop (conWrite n) n t.writeQ.chars t

end ConTty

/-! ### More fuel -/

section Fuel

variable {δ : Type} {w w' : TtyStruct δ → Option (TtyStruct δ)} {t t' : TtyStruct δ} {c n n' : ℕ}

/-- What one routine returns, the other one returns too. -/
def Extends (w w' : TtyStruct δ → Option (TtyStruct δ)) : Prop :=
  ∀ t t', w t = some t' → w' t = some t'

/-- A routine for `tty->write` that never returns. -/
def noWrite (_ : TtyStruct δ) : Option (TtyStruct δ) := none

theorem noWrite_extends (w : TtyStruct δ → Option (TtyStruct δ)) : Extends noWrite w := by
  intro t t' h
  cases h

namespace TtyStruct

theorem withEcho_extends (hw : Extends w w') {echoed : TtyStruct δ}
    (h : t.withEcho w echoed = some t') : t.withEcho w' echoed = some t' := by
  unfold withEcho at h ⊢
  split_ifs at h ⊢
  · exact hw _ _ h
  · exact h

theorem eraseLast_extends (hw : Extends w w') (h : t.eraseLast w = some t') :
    t.eraseLast w' = some t' := by
  obtain ⟨t₁, h₁, rfl⟩ := Option.map_eq_some_iff.mp h
  rw [eraseLast, withEcho_extends hw h₁]
  rfl

theorem killLoop_extends (hw : Extends w w') (hn : n ≤ n') (h : killLoop w n t = some t') :
    killLoop w' n' t = some t' := by
  induction n generalizing n' t with
  | zero => cases h
  | succ n ih =>
    obtain ⟨n', rfl⟩ : ∃ k, n' = k + 1 := ⟨n' - 1, by omega⟩
    rw [killLoop] at h ⊢
    split_ifs at h ⊢
    · exact h
    · obtain ⟨t₁, h₁, h₂⟩ := Option.bind_eq_some_iff.mp h
      exact Option.bind_eq_some_iff.mpr ⟨t₁, eraseLast_extends hw h₁, ih (by omega) h₂⟩

theorem cookChar_extends (hw : Extends w w') (hn : n ≤ n') (h : t.cookChar w n c = some t') :
    t.cookChar w' n' c = some t' := by
  unfold cookChar at h ⊢
  split at h
  · exact h
  · split_ifs at h ⊢
    · exact killLoop_extends hw hn h
    · exact h
    · exact eraseLast_extends hw h
    · exact h
    · exact h
    · exact h
    · exact h
    · obtain ⟨t₁, h₁, rfl⟩ := Option.map_eq_some_iff.mp h
      rw [withEcho_extends hw h₁]
      rfl

theorem copyToCooked_extends (hw : Extends w w') (hn : n ≤ n')
    (h : copyToCooked w n t = some t') : copyToCooked w' n' t = some t' := by
  induction n generalizing n' t with
  | zero => cases h
  | succ n ih =>
    obtain ⟨n', rfl⟩ : ∃ k, n' = k + 1 := ⟨n' - 1, by omega⟩
    rw [copyToCooked] at h ⊢
    split_ifs at h ⊢
    · exact h
    · obtain ⟨t₁, h₁, h₂⟩ := Option.bind_eq_some_iff.mp h
      exact Option.bind_eq_some_iff.mpr
        ⟨t₁, cookChar_extends hw (by omega) h₁, ih (by omega) h₂⟩

end TtyStruct

end Fuel

namespace ConTty

variable {w w' : ConTty → Option ConTty} {t t' : ConTty} {n n' nr : ℕ}

theorem takeChar_extends (hw : Extends w w') (hn : n ≤ n') (h : takeChar w n t = some t') :
    takeChar w' n' t = some t' := by
  unfold takeChar at h ⊢
  split_ifs at h ⊢
  · exact TtyStruct.copyToCooked_extends hw hn h
  · exact h

theorem writeLoop_extends (hw : Extends w w') (hn : n ≤ n') (h : writeLoop w n nr t = some t') :
    writeLoop w' n' nr t = some t' := by
  induction nr generalizing t with
  | zero => exact h
  | succ nr ih =>
    obtain ⟨t₁, h₁, h₂⟩ := Option.bind_eq_some_iff.mp h
    exact Option.bind_eq_some_iff.mpr ⟨t₁, takeChar_extends hw hn h₁, ih h₂⟩

theorem conWrite_extends (hn : n ≤ n') : Extends (conWrite n) (conWrite n') := by
  induction n generalizing n' with
  | zero =>
    intro t t' h
    cases h
  | succ n ih =>
    obtain ⟨n', rfl⟩ : ∃ k, n' = k + 1 := ⟨n' - 1, by omega⟩
    intro t t' h
    exact writeLoop_extends (ih (by omega)) (by omega) h

end ConTty

/-! ### What an echo leaves -/

section Drained

variable {D : ConTty → Prop} {w : ConTty → Option ConTty} {t t' : ConTty} {c n nr : ℕ}

/-- The output side is the same. -/
structure SameOutput (t t' : ConTty) : Prop where
  writeQ : t'.writeQ = t.writeQ
  driver : t'.driver = t.driver

theorem SameOutput.trans {t'' : ConTty} (h : SameOutput t t') (h' : SameOutput t' t'') :
    SameOutput t t'' :=
  ⟨h'.writeQ.trans h.writeQ, h'.driver.trans h.driver⟩

/-- A property of the output side. -/
def OfOutput (D : ConTty → Prop) : Prop := ∀ t t', SameOutput t t' → D t → D t'

/-- The result of a step: it is that of a step that writes no echo, or it has the property that an
echo leaves. -/
structure Cooks (D : ConTty → Prop) (quiet : Option ConTty) (t t' : ConTty) : Prop where
  starved : t.driver.starved = true → t'.driver.starved = true
  out : quiet = some t' ∧ SameOutput t t' ∨ D t'

/-- A routine for `tty->write` that leaves the property. -/
structure Leaves (D : ConTty → Prop) (w : ConTty → Option ConTty) : Prop where
  stable : OfOutput D
  out : ∀ t t', w t = some t' → D t'
  starved : ∀ t t', w t = some t' → t.driver.starved = true → t'.driver.starved = true

theorem leaves_of_none (hD : OfOutput D) (hw : ∀ t, w t = none) : Leaves D w := by
  have hnone : ∀ t t', w t ≠ some t' := by
    intro t t' h
    rw [hw] at h
    cases h
  exact ⟨hD, fun t t' h => absurd h (hnone t t'), fun t t' h => absurd h (hnone t t')⟩

theorem SameOutput.cooks (h : SameOutput t t') : Cooks D (some t') t t' :=
  ⟨fun hs => by rw [h.driver, hs], Or.inl ⟨rfl, h⟩⟩

theorem Cooks.bind (hD : OfOutput D) {quiet : Option ConTty} {f : ConTty → Option ConTty}
    {t₁ : ConTty} (h : Cooks D quiet t t₁) (h' : Cooks D (f t₁) t₁ t') :
    Cooks D (quiet.bind f) t t' := by
  refine ⟨fun hs => h'.starved (h.starved hs), ?_⟩
  rcases h'.out with ⟨hquiet', hsame'⟩ | hleft
  · rcases h.out with ⟨hquiet, hsame⟩ | hleft
    · rw [hquiet]
      exact Or.inl ⟨hquiet', hsame.trans hsame'⟩
    · exact Or.inr (hD _ _ hsame' hleft)
  · exact Or.inr hleft

/-- What comes before a step does not touch the output side. -/
theorem SameOutput.before {quiet : Option ConTty} {t₁ : ConTty} (h : SameOutput t t₁)
    (h' : Cooks D quiet t₁ t') : Cooks D quiet t t' := by
  refine ⟨fun hs => h'.starved (by rw [h.driver, hs]), ?_⟩
  rcases h'.out with ⟨hquiet, hsame⟩ | hleft
  · exact Or.inl ⟨hquiet, h.trans hsame⟩
  · exact Or.inr hleft

/-- What follows a step does not touch the output side. -/
theorem Cooks.map (hD : OfOutput D) {quiet : Option ConTty} {f : ConTty → ConTty}
    (h : Cooks D quiet t t') (hf : SameOutput t' (f t')) : Cooks D (quiet.map f) t (f t') := by
  rw [Option.map_eq_bind]
  exact h.bind hD hf.cooks

theorem echoErased_driver (t : ConTty) (c : ℕ) : (t.echoErased c).driver = t.driver := by
  unfold TtyStruct.echoErased
  split_ifs <;> rfl

theorem echoChar_driver (t : ConTty) (c : ℕ) : (t.echoChar c).driver = t.driver := by
  unfold TtyStruct.echoChar
  split_ifs <;> rfl

theorem countTerm_sameOutput (t : ConTty) (c : ℕ) : SameOutput t (t.countTerm c) := by
  unfold TtyStruct.countTerm
  split_ifs
  · exact ⟨rfl, rfl⟩
  · exact ⟨rfl, rfl⟩

theorem Leaves.withEcho (hw : Leaves D w) {echoed : ConTty} (he : echoed.driver = t.driver)
    (h : t.withEcho w echoed = some t') : Cooks D (t.withEcho noWrite echoed) t t' := by
  unfold TtyStruct.withEcho at h ⊢
  split_ifs at h ⊢
  · refine ⟨fun hs => hw.starved _ _ h ?_, Or.inr (hw.out _ _ h)⟩
    rw [he, hs]
  · cases h
    exact SameOutput.cooks ⟨rfl, rfl⟩

theorem Leaves.eraseLast (hw : Leaves D w) (h : t.eraseLast w = some t') :
    Cooks D (t.eraseLast noWrite) t t' := by
  obtain ⟨t₁, h₁, rfl⟩ := Option.map_eq_some_iff.mp h
  exact (hw.withEcho (echoErased_driver t _) h₁).map hw.stable ⟨rfl, rfl⟩

theorem Leaves.killLoop (hw : Leaves D w) (h : TtyStruct.killLoop w n t = some t') :
    Cooks D (TtyStruct.killLoop noWrite n t) t t' := by
  induction n generalizing t with
  | zero => cases h
  | succ n ih =>
    rw [TtyStruct.killLoop] at h ⊢
    split_ifs at h ⊢
    · cases h
      exact SameOutput.cooks ⟨rfl, rfl⟩
    · obtain ⟨t₁, h₁, h₂⟩ := Option.bind_eq_some_iff.mp h
      exact (hw.eraseLast h₁).bind hw.stable (ih h₂)

theorem Leaves.cookChar (hw : Leaves D w) (h : t.cookChar w n c = some t') :
    Cooks D (t.cookChar noWrite n c) t t' := by
  unfold TtyStruct.cookChar at h ⊢
  split at h
  · cases h
    exact SameOutput.cooks ⟨rfl, rfl⟩
  · next c _ =>
    split_ifs at h ⊢
    · exact hw.killLoop h
    · cases h
      exact SameOutput.cooks ⟨rfl, rfl⟩
    · exact hw.eraseLast h
    · cases h
      exact SameOutput.cooks ⟨rfl, rfl⟩
    · cases h
      exact SameOutput.cooks ⟨rfl, rfl⟩
    · cases h
      exact SameOutput.cooks ⟨rfl, rfl⟩
    · cases h
      exact SameOutput.cooks ⟨rfl, rfl⟩
    · obtain ⟨t₁, h₁, rfl⟩ := Option.map_eq_some_iff.mp h
      have hecho := hw.withEcho (echoChar_driver _ c) h₁
      exact ((countTerm_sameOutput t c).before hecho).map hw.stable ⟨rfl, rfl⟩

theorem Leaves.copyToCooked (hw : Leaves D w) (h : TtyStruct.copyToCooked w n t = some t') :
    Cooks D (TtyStruct.copyToCooked noWrite n t) t t' := by
  induction n generalizing t with
  | zero => cases h
  | succ n ih =>
    rw [TtyStruct.copyToCooked] at h ⊢
    split_ifs at h ⊢
    · cases h
      exact SameOutput.cooks ⟨rfl, rfl⟩
    · obtain ⟨t₁, h₁, h₂⟩ := Option.bind_eq_some_iff.mp h
      have hinc : SameOutput t { t with readQ := t.readQ.inc } := ⟨rfl, rfl⟩
      exact hinc.before ((hw.cookChar h₁).bind hw.stable (ih h₂))

/-- A character is taken, and its answer cooked. -/
theorem Leaves.takeChar (hw : Leaves D w) (h : ConTty.takeChar w n t = some t') :
    Cooks D (ConTty.takeChar noWrite n t) t.take t' := by
  unfold ConTty.takeChar at h ⊢
  split_ifs at h ⊢
  · have hput : SameOutput t.take t.take.putResponse := ⟨rfl, rfl⟩
    exact hput.before (hw.copyToCooked h)
  · cases h
    exact SameOutput.cooks ⟨rfl, rfl⟩

/-- An answer without an echo leaves the output side alone. -/
theorem sameOutput_of_noWrite (h : ConTty.takeChar noWrite n t = some t') :
    SameOutput t.take t' := by
  have hleaves : Leaves (fun _ => False) noWrite := leaves_of_none (fun _ _ _ h => h) fun _ => rfl
  rcases (hleaves.takeChar h).out with ⟨_, hsame⟩ | hfalse
  · exact hsame
  · exact hfalse.elim

/-! ### One call -/

/-- A `GETCH` has met an empty queue, or there is nothing to write. -/
def Drained (t : ConTty) : Prop := t.driver.starved = true ∨ t.writeQ.isEmpty = true

theorem drained_ofOutput : OfOutput Drained := by
  intro t t' h hd
  rw [Drained, h.writeQ, h.driver]
  exact hd

/-- How far a call is that has `nr` characters left: it has them in the queue, or an echo has taken
them. -/
def Left (nr : ℕ) (t : ConTty) : Prop := t.writeQ.chars = nr ∨ Drained t

theorem chars_eq_zero (q : TtyQueue) : q.chars = 0 ↔ q.isEmpty = true := by
  rw [TtyQueue.isEmpty_iff, ← List.length_eq_zero_iff, TtyQueue.length_toList]

theorem chars_inc {q : TtyQueue} (h : q.chars = nr + 1) : q.inc.chars = nr := by
  have hne : q.isEmpty = false := by
    by_contra hempty
    have hzero := (chars_eq_zero q).mpr (by simpa using hempty)
    omega
  have hlen := congrArg List.length (TtyQueue.toList_inc hne)
  rw [List.length_cons, TtyQueue.length_toList, TtyQueue.length_toList] at hlen
  omega

theorem take_starved (h : Drained t) : t.take.driver.starved = true := by
  change (t.driver.starved || t.writeQ.isEmpty) = true
  rwa [Bool.or_eq_true]

/-- One character. -/
theorem Left.takeChar (hw : Leaves Drained w) (hl : Left (nr + 1) t)
    (h : ConTty.takeChar w n t = some t') :
    Left nr t' ∧ (Drained t → t'.driver.starved = true) := by
  have hcooks := hw.takeChar h
  have hstarved : Drained t → t'.driver.starved = true := fun hd => hcooks.starved (take_starved hd)
  refine ⟨?_, hstarved⟩
  rcases hl with hchars | hdrained
  · rcases hcooks.out with ⟨_, hsame⟩ | hdrained
    · refine Or.inl ?_
      rw [hsame.writeQ]
      exact chars_inc hchars
    · exact Or.inr hdrained
  · exact Or.inr (Or.inl (hstarved hdrained))

/-- All characters. -/
theorem Left.writeLoop (hw : Leaves Drained w) (hl : Left nr t)
    (h : ConTty.writeLoop w n nr t = some t') :
    Drained t' ∧ (t.driver.starved = true → t'.driver.starved = true) ∧
      (nr ≠ 0 → Drained t → t'.driver.starved = true) := by
  induction nr generalizing t with
  | zero =>
    cases h
    refine ⟨?_, id, fun h => absurd rfl h⟩
    rcases hl with hchars | hdrained
    · exact Or.inr ((chars_eq_zero _).mp hchars)
    · exact hdrained
  | succ nr ih =>
    obtain ⟨t₁, h₁, h₂⟩ := Option.bind_eq_some_iff.mp h
    obtain ⟨hl₁, hstarved⟩ := hl.takeChar hw h₁
    obtain ⟨hdrained, hmono, _⟩ := ih hl₁ h₂
    exact ⟨hdrained, fun hs => hmono (hstarved (Or.inl hs)), fun _ hd => hmono (hstarved hd)⟩

/-- `con_write` leaves nothing to write. -/
theorem conWrite_leaves (n : ℕ) : Leaves Drained (ConTty.conWrite n) := by
  induction n with
  | zero => exact leaves_of_none drained_ofOutput fun _ => rfl
  | succ n ih =>
    have hloop : ∀ t t', ConTty.conWrite (n + 1) t = some t' →
        Drained t' ∧ (t.driver.starved = true → t'.driver.starved = true) := by
      intro t t' h
      have hleft : Left t.writeQ.chars t := Or.inl rfl
      obtain ⟨hdrained, hmono, _⟩ := hleft.writeLoop ih h
      exact ⟨hdrained, hmono⟩
    exact ⟨drained_ofOutput, fun t t' h => (hloop t t' h).1, fun t t' h => (hloop t t' h).2⟩

/-- Each of `nr` characters but the last one is taken without an echo. -/
def AnswersLast : ℕ → ConTty → Prop
  | 0, _ => True
  | 1, _ => True
  | nr + 2, t => ∃ n t', ConTty.takeChar noWrite n t = some t' ∧ AnswersLast (nr + 1) t'

/-- A call that meets no empty queue answers with an echo only at its end. -/
theorem answersLast_of_writeLoop (hw : Leaves Drained w) (hchars : t.writeQ.chars = nr)
    (h : ConTty.writeLoop w n nr t = some t') (hfed : t'.driver.starved = false) :
    AnswersLast nr t := by
  induction nr generalizing t with
  | zero => trivial
  | succ nr ih =>
    cases nr with
    | zero => trivial
    | succ nr =>
      obtain ⟨t₁, h₁, h₂⟩ := Option.bind_eq_some_iff.mp h
      have hl : Left (nr + 1 + 1) t := Or.inl hchars
      obtain ⟨hl₁, _⟩ := hl.takeChar hw h₁
      rcases (hw.takeChar h₁).out with ⟨hquiet, hsame⟩ | hdrained
      · have hchars₁ : t₁.writeQ.chars = nr + 1 := by
          rw [hsame.writeQ]
          exact chars_inc hchars
        exact ⟨n, t₁, hquiet, ih hchars₁ h₂⟩
      · have hstarved := (hl₁.writeLoop hw h₂).2.2 (by omega) hdrained
        rw [hfed] at hstarved
        cases hstarved

end Drained

end LihaLinux.Tty
