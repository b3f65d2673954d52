import LihaLinux.Lib.Transition
import LihaLinux.Tty.Cooking
import Mathlib.Data.List.DropRight
import Mathlib.Data.Nat.Notation

/-!
# Lines from a terminal

`copy_to_cooked` and `tty_read` in canonical mode. Characters arrive at any time, also while
`tty_read` takes characters from `secondary`. No signals are sent, and there is no `VTIME`.
-/

namespace LihaLinux.Tty

/-! ### Cooking -/

/-- What `copy_to_cooked` does with a character. -/
inductive CookAction
  | drop
  | kill
  | erase
  | put (c : ℕ)

/-- The branches of `copy_to_cooked`. `STOP_CHAR` and `START_CHAR` change `stopped`, and
`INTR_CHAR` and `QUIT_CHAR` send signals. -/
def cookAction (m : CookMode) (c : ℕ) : CookAction :=
  match m.inputChar c with
  | none => .drop
  | some c =>
    if CookMode.same c m.kill then .kill
    else if CookMode.same c m.erase then .erase
    else if CookMode.same c m.stop || CookMode.same c m.start then .drop
    else if m.isig && (CookMode.same c m.intr || CookMode.same c m.quit) then .drop
    else .put c

/-! ### Reading -/

/-- Where a task is that reads from the terminal again and again. -/
inductive ReadState
  | idle
  /-- At the beginning of the loop of `tty_read`, without characters. -/
  | waiting (nr : ℕ)
  /-- At the end of the inner loop, with characters. -/
  | taking (nr : ℕ) (got : List ℕ)

/-- A terminal in canonical mode and the task that reads from it. -/
structure CookedTty where
  /-- The characters that have not been cooked. -/
  input : List ℕ
  /-- The characters in `secondary`. -/
  sec : List ℕ
  /-- `secondary.data`, the number of complete lines. -/
  data : ℕ
  /-- The sizes of the calls that have not begun. -/
  sizes : List ℕ
  reader : ReadState
  /-- What the calls have returned. -/
  results : List (List ℕ)

/-- A character is cooked, or the reader goes on. -/
inductive TtyEvent
  | arrive
  | step

namespace CookedTty

variable (m : CookMode) (s : CookedTty)

/-- `LEFT(tty->secondary)`. -/
def left : ℕ := 1023 - s.sec.length

/-- `copy_to_cooked` for one character. -/
def cook (c : ℕ) : CookedTty :=
  match cookAction m c with
  | .drop => s
  | .kill => { s with sec := s.sec.rdropWhile fun c => !m.isTerm c }
  | .erase =>
    match s.sec.getLast? with
    | none => s
    | some c => if m.isTerm c then s else { s with sec := s.sec.dropLast }
  | .put c => { s with
      sec := s.sec ++ [c]
      data := if m.isTerm c then (s.data + 1) % 4294967296 else s.data }

/-- A call returns. -/
def finish (got : List ℕ) : CookedTty := { s with reader := .idle, results := s.results ++ [got] }

/-- The inner loop of `tty_read` for one character. -/
def getch (nr : ℕ) (got : List ℕ) : CookedTty :=
  match s.sec with
  | [] => s.finish got
  | c :: sec =>
    let s := { s with
      sec, data := if m.isTerm c then (s.data + 4294967295) % 4294967296 else s.data }
    if m.isEof c then s.finish got
    else if nr = 1 then s.finish (got ++ [c])
    else { s with reader := .taking (nr - 1) (got ++ [c]) }

/-- The next state. -/
def next : TtyEvent → Option CookedTty
  | .arrive =>
    match s.input with
    | [] => none
    | c :: input => if s.left = 0 then none else some ({ s with input }.cook m c)
  | .step =>
    match s.reader with
    | .idle =>
      match s.sizes with
      | [] => none
      | nr :: sizes => some { s with sizes, reader := .waiting nr }
    | .waiting nr =>
      if nr = 0 then some (s.finish [])
      else if s.sec = [] ∨ (s.data = 0 ∧ 20 < s.left) then some s
      else some (s.getch m nr [])
    | .taking nr got => some (s.getch m nr got)

end CookedTty

/-! ### Lines -/

/-- A line of the input, without the newline or `EOF_CHAR` at its end. -/
structure TtyLine where
  body : List ℕ
  newline : Bool

/-- The characters of a line in `secondary`. -/
def TtyLine.raw (m : CookMode) (l : TtyLine) : List ℕ :=
  l.body ++ [if l.newline then 10 else m.eof]

/-- What a call is meant to return for a line. -/
def TtyLine.result (l : TtyLine) : List ℕ := if l.newline then l.body ++ [10] else l.body

/-- The lines of the input that are complete, and the one that is not. -/
structure TtyLines where
  lines : List TtyLine
  cur : List ℕ

/-- A character more of the input. -/
def TtyLines.cook (m : CookMode) (x : TtyLines) (c : ℕ) : TtyLines :=
  match cookAction m c with
  | .drop => x
  | .kill => { x with cur := [] }
  | .erase => { x with cur := x.cur.dropLast }
  | .put c =>
    if m.isEof c then ⟨x.lines ++ [⟨x.cur, false⟩], []⟩
    else if c = 10 then ⟨x.lines ++ [⟨x.cur, true⟩], []⟩
    else { x with cur := x.cur ++ [c] }

/-- The lines of an input. -/
def ttyLines (m : CookMode) (input : List ℕ) : TtyLines := input.foldl (TtyLines.cook m) ⟨[], []⟩

/-- What calls of the given sizes are meant to return: one line each, and nothing for size 0. -/
def expectedReads : List TtyLine → List ℕ → List (List ℕ)
  | _, [] => []
  | lines, 0 :: sizes => [] :: expectedReads lines sizes
  | [], (_ + 1) :: _ => []
  | l :: lines, (_ + 1) :: sizes => l.result :: expectedReads lines sizes

/-- A line in which nothing but the end completes a line. -/
structure TtyLine.Ok (m : CookMode) (l : TtyLine) : Prop where
  body : ∀ c ∈ l.body, m.isTerm c = false
  newline : l.newline = true → m.isEof 10 = false
  eof : l.newline = false → m.isEof m.eof = true

section Lines

variable {m : CookMode} {x : TtyLines} {l : TtyLine} {unread u lines more : List TtyLine}
  {cur tail : List ℕ} {c nr : ℕ} {sizes : List ℕ}

theorem isTerm_of_not (hc : m.isTerm c = false) : m.isEof c = false ∧ c ≠ 10 := by
  rw [CookMode.isTerm, Bool.or_eq_false_iff, decide_eq_false_iff_not] at hc
  exact ⟨hc.2, hc.1⟩

/-- Lines only get more. -/
theorem cook_lines (x : TtyLines) (c : ℕ) : ∃ more, (x.cook m c).lines = x.lines ++ more := by
  rw [TtyLines.cook]
  cases cookAction m c with
  | drop => exact ⟨[], (List.append_nil _).symm⟩
  | kill => exact ⟨[], (List.append_nil _).symm⟩
  | erase => exact ⟨[], (List.append_nil _).symm⟩
  | put c =>
    dsimp only
    split_ifs
    · exact ⟨_, rfl⟩
    · exact ⟨_, rfl⟩
    · exact ⟨[], (List.append_nil _).symm⟩

theorem foldl_cook_lines (input : List ℕ) (x : TtyLines) :
    ∃ more, (input.foldl (TtyLines.cook m) x).lines = x.lines ++ more := by
  induction input generalizing x with
  | nil => exact ⟨[], (List.append_nil _).symm⟩
  | cons c input ih =>
    obtain ⟨more, hmore⟩ := cook_lines (m := m) x c
    obtain ⟨more', hmore'⟩ := ih (x.cook m c)
    exact ⟨more ++ more', by rw [List.foldl_cons, hmore', hmore, List.append_assoc]⟩

/-- All lines are well formed, and the last one is not complete. -/
structure TtyLines.Ok (m : CookMode) (x : TtyLines) : Prop where
  lines : ∀ l ∈ x.lines, l.Ok m
  cur : ∀ c ∈ x.cur, m.isTerm c = false

theorem TtyLines.Ok.cook (h : x.Ok m) (c : ℕ) : (x.cook m c).Ok m := by
  rw [TtyLines.cook]
  cases cookAction m c with
  | drop => exact h
  | kill => exact ⟨h.lines, fun c hc => absurd hc (List.not_mem_nil)⟩
  | erase => exact ⟨h.lines, fun c hc => h.cur c ((List.dropLast_sublist _).subset hc)⟩
  | put c =>
    have hadd : ∀ l : TtyLine, l.Ok m → ∀ l' ∈ x.lines ++ [l], l'.Ok m := by
      intro l hl l' hl'
      rcases List.mem_append.mp hl' with hl' | hl'
      · exact h.lines l' hl'
      · rwa [List.mem_singleton.mp hl']
    dsimp only
    split_ifs with heof hten
    · refine ⟨hadd _ ⟨h.cur, fun h => absurd h Bool.false_ne_true, fun _ => ?_⟩,
        fun c hc => absurd hc (List.not_mem_nil)⟩
      have hc := heof
      rw [CookMode.isEof, CookMode.same, decide_eq_true_eq] at hc
      rwa [← hc.1]
    · refine ⟨hadd _ ⟨h.cur, fun _ => ?_, fun h => absurd h.symm Bool.false_ne_true⟩,
        fun c hc => absurd hc (List.not_mem_nil)⟩
      rw [← hten]
      simpa using heof
    · refine ⟨h.lines, fun c' hc' => ?_⟩
      rcases List.mem_append.mp hc' with hc' | hc'
      · exact h.cur c' hc'
      · rw [List.mem_singleton.mp hc', CookMode.isTerm, Bool.or_eq_false_iff,
          decide_eq_false_iff_not]
        exact ⟨hten, by simpa using heof⟩

/-- The character at the end of a line completes it. -/
theorem TtyLine.Ok.isTerm (h : l.Ok m) : m.isTerm (if l.newline then 10 else m.eof) = true := by
  cases hl : l.newline with
  | true => rfl
  | false =>
    change m.isTerm m.eof = true
    rw [CookMode.isTerm, h.eof hl, Bool.or_true]

/-- One line is read from more lines by a call that has room. -/
theorem expectedReads_cons (l : TtyLine) (lines : List TtyLine) (hnr : nr ≠ 0) (sizes : List ℕ) :
    expectedReads (l :: lines) (nr :: sizes) = l.result :: expectedReads lines sizes := by
  cases nr with
  | zero => exact absurd rfl hnr
  | succ nr => rw [expectedReads]

/-! ### The end of the queue -/

/-- A queue that is empty or ends with a complete line. -/
def Complete (m : CookMode) (q : List ℕ) : Prop := ∀ c ∈ q.getLast?, m.isTerm c = true

theorem Complete.append {q : List ℕ} (htail : Complete m tail) (hq : Complete m q) :
    Complete m (tail ++ q) := by
  intro c hc
  rw [List.getLast?_append] at hc
  cases hlast : q.getLast? with
  | some d =>
    rw [hlast] at hc
    exact hq c (by rwa [hlast])
  | none =>
    rw [hlast] at hc
    exact htail c hc

/-- The end of a line. -/
theorem complete_of_suffix {q : List ℕ} (hq : Complete m q) (htail : tail <:+ q) :
    Complete m tail := by
  obtain ⟨pre, rfl⟩ := htail
  intro c hc
  apply hq
  rw [List.getLast?_append, Option.mem_def.mp hc]
  rfl

/-- Killing the unfinished line. -/
theorem rdropWhile_complete {q : List ℕ} (hq : Complete m q)
    (hcur : ∀ c ∈ cur, m.isTerm c = false) :
    (q ++ cur).rdropWhile (fun c => !m.isTerm c) = q := by
  induction cur using List.reverseRecOn with
  | nil =>
    rw [List.append_nil, List.rdropWhile_eq_self_iff]
    intro hne
    have hterm := hq (q.getLast hne) (List.getLast_mem_getLast? hne)
    rw [hterm]
    decide
  | append_singleton cur c ih =>
    have hc := hcur c (List.mem_append_right _ (List.mem_singleton_self c))
    rw [← List.append_assoc, List.rdropWhile_concat_pos _ _ _ (by rw [hc]; rfl)]
    exact ih fun c' hc' => hcur c' (List.mem_append_left _ hc')

/-- A character of a line is its end, or one before it. -/
theorem raw_split {got : List ℕ} (h : l.raw m = got ++ c :: tail) :
    (tail = [] ∧ l.body = got ∧ c = if l.newline then 10 else m.eof) ∨
      ∃ t, tail = t ++ [if l.newline then 10 else m.eof] ∧ l.body = got ++ c :: t := by
  rw [TtyLine.raw] at h
  rcases List.eq_nil_or_concat' tail with rfl | ⟨t, e, rfl⟩
  · obtain ⟨hbody, hend⟩ := List.append_inj' h rfl
    exact Or.inl ⟨rfl, hbody, (List.singleton_inj.mp hend).symm⟩
  · rw [← List.cons_append, ← List.append_assoc] at h
    obtain ⟨hbody, hend⟩ := List.append_inj' h rfl
    exact Or.inr ⟨t, by rw [← hend], hbody⟩

end Lines

/-! ### Progress -/

/-- The queue has complete lines, and then the unfinished one. -/
structure Queued (m : CookMode) (q : List ℕ) (x : TtyLines) (s : CookedTty) : Prop where
  sec : s.sec = q ++ x.cur
  data : s.data = s.sec.countP m.isTerm
  room : s.sec.length ≤ 1023
  complete : Complete m q

section Queue

variable {m : CookMode} {x : TtyLines} {s : CookedTty} {q : List ℕ}

/-- The unfinished line has no end. -/
theorem countP_cur (hx : x.Ok m) : x.cur.countP m.isTerm = 0 := by
  rw [List.countP_eq_zero]
  intro c hc
  rw [hx.cur c hc]
  exact Bool.false_ne_true

theorem Queued.count (h : Queued m q x s) (hx : x.Ok m) : s.data = q.countP m.isTerm := by
  rw [h.data, h.sec, List.countP_append, countP_cur hx, Nat.add_zero]

/-- `copy_to_cooked` does to the queue what is done to the lines. -/
theorem Queued.cook (h : Queued m q x s) (hx : x.Ok m) (hroom : s.left ≠ 0) (c : ℕ) :
    ∃ added, (x.cook m c).lines = x.lines ++ added ∧
      Queued m (q ++ added.flatMap (TtyLine.raw m)) (x.cook m c) (s.cook m c) := by
  have hsame : Queued m (q ++ [].flatMap (TtyLine.raw m)) x s := by
    rw [List.flatMap_nil, List.append_nil]
    exact h
  have hlen : s.sec.length < 1023 := by
    rw [CookedTty.left] at hroom
    omega
  rw [TtyLines.cook, CookedTty.cook]
  cases cookAction m c with
  | drop => exact ⟨[], (List.append_nil _).symm, hsame⟩
  | kill =>
    have hsec : s.sec.rdropWhile (fun c => !m.isTerm c) = q := by
      rw [h.sec]
      exact rdropWhile_complete h.complete hx.cur
    refine ⟨[], (List.append_nil _).symm, ?_⟩
    rw [List.flatMap_nil, List.append_nil]
    dsimp only
    rw [hsec]
    have hle := congrArg List.length h.sec
    rw [List.length_append] at hle
    have hroom := h.room
    exact ⟨(List.append_nil q).symm, h.count hx, by dsimp only; omega, h.complete⟩
  | erase =>
    refine ⟨[], (List.append_nil _).symm, ?_⟩
    rw [List.flatMap_nil, List.append_nil]
    dsimp only
    rcases List.eq_nil_or_concat' x.cur with hnil | ⟨cur, e, hcur⟩
    · have hsec := h.sec
      rw [hnil, List.append_nil] at hsec
      have hkeep : Queued m q { x with cur := x.cur.dropLast } s := by
        refine ⟨?_, h.data, h.room, h.complete⟩
        dsimp only
        rw [hnil, List.dropLast_nil, List.append_nil, hsec]
      cases hlast : s.sec.getLast? with
      | none => exact hkeep
      | some c' =>
        have hterm := h.complete c' (by rwa [← hsec])
        dsimp only
        rwa [if_pos hterm]
    · have hsec := h.sec
      rw [hcur, ← List.append_assoc] at hsec
      have hterm := hx.cur e (by
        rw [hcur]
        exact List.mem_append_right _ (List.mem_singleton_self e))
      rw [hsec, List.getLast?_concat]
      dsimp only
      rw [if_neg (by rw [hterm]; exact Bool.false_ne_true), List.dropLast_concat]
      have hle := congrArg List.length hsec
      rw [List.length_append] at hle
      have hroom := h.room
      have hdata := h.data
      rw [hsec, List.countP_append, List.countP_singleton, hterm] at hdata
      refine ⟨?_, hdata, by dsimp only; omega, h.complete⟩
      dsimp only
      rw [hcur, List.dropLast_concat]
  | put c =>
    have hcount := List.countP_le_length (p := m.isTerm) (l := s.sec)
    have hlen' : (s.sec ++ [c]).length ≤ 1023 := by
      rw [List.length_append, List.length_singleton]
      omega
    have hdata : (if m.isTerm c then (s.data + 1) % 4294967296 else s.data) =
        (s.sec ++ [c]).countP m.isTerm := by
      have hold := h.data
      rw [List.countP_append, List.countP_singleton]
      split_ifs
      · omega
      · omega
    have hline : ∀ l : TtyLine, l.raw m = x.cur ++ [c] → m.isTerm c = true →
        Queued m (q ++ [l].flatMap (TtyLine.raw m)) ⟨x.lines ++ [l], []⟩ { s with
          sec := s.sec ++ [c]
          data := if m.isTerm c then (s.data + 1) % 4294967296 else s.data } := by
      intro l hl hterm
      rw [List.flatMap_singleton, hl]
      refine ⟨?_, hdata, hlen', ?_⟩
      · dsimp only
        rw [h.sec, List.append_nil, List.append_assoc]
      · intro c' hc'
        rw [← List.append_assoc, List.getLast?_concat] at hc'
        cases hc'
        exact hterm
    dsimp only
    by_cases heof : m.isEof c = true
    · rw [if_pos heof]
      refine ⟨_, rfl, hline _ ?_ ?_⟩
      · rw [CookMode.isEof, CookMode.same, decide_eq_true_eq] at heof
        rw [TtyLine.raw, if_neg Bool.false_ne_true, heof.1]
      · rw [CookMode.isTerm, heof, Bool.or_true]
    · rw [if_neg heof]
      by_cases hten : c = 10
      · rw [if_pos hten]
        refine ⟨_, rfl, hline _ ?_ ?_⟩
        · rw [TtyLine.raw, if_pos rfl, hten]
        · rw [hten]
          rfl
      · rw [if_neg hten]
        refine ⟨[], (List.append_nil _).symm, ?_⟩
        rw [List.flatMap_nil, List.append_nil]
        refine ⟨?_, hdata, hlen', h.complete⟩
        dsimp only
        rw [h.sec, List.append_assoc]

theorem cook_frame (m : CookMode) (s : CookedTty) (c : ℕ) : (s.cook m c).input = s.input ∧
    (s.cook m c).sizes = s.sizes ∧ (s.cook m c).reader = s.reader ∧
      (s.cook m c).results = s.results := by
  rw [CookedTty.cook]
  split
  · exact ⟨rfl, rfl, rfl, rfl⟩
  · exact ⟨rfl, rfl, rfl, rfl⟩
  · split
    · exact ⟨rfl, rfl, rfl, rfl⟩
    · split_ifs
      · exact ⟨rfl, rfl, rfl, rfl⟩
      · exact ⟨rfl, rfl, rfl, rfl⟩
  · exact ⟨rfl, rfl, rfl, rfl⟩

end Queue

/-- What the reader has left of the complete lines `unread`: the queue `q`. The call that is
running, if any, has the size in `current`. -/
inductive ReadsAt (m : CookMode) : ReadState → List TtyLine → List ℕ → List ℕ → Prop
  | idle (unread : List TtyLine) :
    ReadsAt m .idle unread [] (unread.flatMap (TtyLine.raw m))
  | waiting (unread : List TtyLine) (nr : ℕ) :
    ReadsAt m (.waiting nr) unread [nr] (unread.flatMap (TtyLine.raw m))
  | taking (l : TtyLine) (u : List TtyLine) {nr : ℕ} {got tail : List ℕ} (hnr : nr ≠ 0)
    (hraw : l.raw m = got ++ tail) (hgot : ∀ c ∈ got, m.isEof c = false) :
    ReadsAt m (.taking nr got) (l :: u) [nr + got.length] (tail ++ u.flatMap (TtyLine.raw m))

theorem ReadsAt.append {m : CookMode} {r : ReadState} {unread : List TtyLine} {current q : List ℕ}
    (h : ReadsAt m r unread current q) (added : List TtyLine) :
    ReadsAt m r (unread ++ added) current (q ++ added.flatMap (TtyLine.raw m)) := by
  cases h with
  | idle =>
    rw [← List.flatMap_append]
    exact .idle _
  | waiting =>
    rw [← List.flatMap_append]
    exact .waiting _ _
  | taking l u hnr hraw hgot =>
    rw [List.append_assoc, ← List.flatMap_append]
    exact .taking l (u ++ added) hnr hraw hgot

/-- The calls have returned the lines `read`, and the lines `unread` are still there. -/
structure Progress (m : CookMode) (input sizes past : List ℕ) (read unread : List TtyLine)
    (done current q : List ℕ) (s : CookedTty) : Prop where
  input : past ++ s.input = input
  ok : (ttyLines m past).Ok m
  lines : (ttyLines m past).lines = read ++ unread
  queue : Queued m q (ttyLines m past) s
  sizes : done ++ current ++ s.sizes = sizes
  results : ∀ more rest, expectedReads (read ++ more) (done ++ rest) =
    s.results ++ expectedReads more rest
  reader : ReadsAt m s.reader unread current q

/-- The calls so far have returned the lines of the input, one by one. -/
def ReadsLines (m : CookMode) (input sizes : List ℕ) (s : CookedTty) : Prop :=
  ∃ past read unread done current q, Progress m input sizes past read unread done current q s

/-- A call that is about to use up its size takes the last character before `EOF_CHAR`. -/
def CutsEof (m : CookMode) (nr : ℕ) (sec : List ℕ) : Prop :=
  nr = 1 ∧ ∃ c d l, sec = c :: d :: l ∧ m.isTerm c = false ∧ m.isEof d = true

/-- A call begins with a complete line, not with a part of one because the queue is nearly full;
it finds nothing behind the newline at its end; and its size is not used up before `EOF_CHAR`. -/
def CookedTty.Clean (m : CookMode) (s : CookedTty) : TtyEvent → Prop
  | .arrive => True
  | .step =>
    match s.reader with
    | .idle => True
    | .waiting nr => (s.sec ≠ [] → s.data = 0 → 20 < s.left) ∧ ¬CutsEof m nr s.sec
    | .taking nr got => (10 ∈ got.getLast? → s.sec = []) ∧ ¬CutsEof m nr s.sec

section Progress

variable {m : CookMode} {input sizes past : List ℕ} {read unread u : List TtyLine} {l : TtyLine}
  {done current q got tail : List ℕ} {s s' : CookedTty} {nr c : ℕ}

/-- A call returns a line. -/
theorem expectedReads_done
    (h : ∀ more rest, expectedReads (read ++ more) (done ++ rest) =
      s.results ++ expectedReads more rest) (hnr : nr ≠ 0) (more : List TtyLine) (rest : List ℕ) :
    expectedReads ((read ++ [l]) ++ more) ((done ++ [nr]) ++ rest) =
      (s.results ++ [l.result]) ++ expectedReads more rest := by
  rw [List.append_assoc, List.append_assoc, h, List.singleton_append, List.singleton_append,
    expectedReads_cons l more hnr, List.append_assoc, List.singleton_append]

/-- A character of a line is taken. -/
theorem Progress.getch
    (h : Progress m input sizes past read (l :: u) done [nr + got.length] (c :: tail ++
      u.flatMap (TtyLine.raw m)) s) (hnr : nr ≠ 0)
    (hraw : l.raw m = got ++ c :: tail) (hgot : ∀ c ∈ got, m.isEof c = false)
    (hsize : l.result.length ≤ nr + got.length) (hcut : ¬CutsEof m nr s.sec) :
    ReadsLines m input sizes (s.getch m nr got) := by
  have hl : l.Ok m := h.ok.lines l (by rw [h.lines]; simp)
  have hsec : s.sec = c :: (tail ++ u.flatMap (TtyLine.raw m) ++ (ttyLines m past).cur) := by
    rw [h.queue.sec, List.cons_append, List.cons_append]
  obtain ⟨d, hd⟩ : ∃ d, (if m.isTerm c then (s.data + 4294967295) % 4294967296 else s.data) = d :=
    ⟨_, rfl⟩
  -- the queue without the character
  have hqueue : Queued m (tail ++ u.flatMap (TtyLine.raw m)) (ttyLines m past) { s with
      sec := tail ++ u.flatMap (TtyLine.raw m) ++ (ttyLines m past).cur, data := d } := by
    have hdata := h.queue.data
    have hroom := h.queue.room
    have hcount := List.countP_le_length (p := m.isTerm) (l := s.sec)
    rw [hsec] at hdata hroom hcount
    rw [List.length_cons] at hroom hcount
    rw [List.countP_cons] at hdata hcount
    refine ⟨rfl, ?_, by dsimp only; omega, complete_of_suffix h.queue.complete ⟨[c], rfl⟩⟩
    dsimp only
    rw [← hd]
    split_ifs at hdata hcount ⊢
    · omega
    · exact hdata
  have hfinish : ∀ got', got' = l.result → tail = [] →
      ReadsLines m input sizes (CookedTty.finish { s with
        sec := tail ++ u.flatMap (TtyLine.raw m) ++ (ttyLines m past).cur, data := d } got') := by
    rintro got' rfl htail
    subst htail
    refine ⟨past, read ++ [l], u, done ++ [nr + got.length], [], _, h.input, h.ok, ?_,
      ⟨hqueue.sec, hqueue.data, hqueue.room, hqueue.complete⟩, ?_, ?_, .idle u⟩
    · rw [h.lines, List.append_assoc, List.singleton_append]
    · rw [← h.sizes, List.append_nil]
      rfl
    · exact expectedReads_done h.results (by omega)
  rw [CookedTty.getch, hsec]
  dsimp only
  rw [hd]
  rcases raw_split hraw with ⟨htail, hbody, hc⟩ | ⟨t, htail, hbody⟩
  · -- the end of the line
    have hend : m.isTerm c = true := by
      rw [hc]
      exact hl.isTerm
    cases hnew : l.newline with
    | false =>
      rw [hnew] at hc
      have heof : m.isEof c = true := by
        rw [hc]
        exact hl.eof hnew
      rw [if_pos heof]
      apply hfinish got _ htail
      rw [TtyLine.result, hnew, hbody]
      rfl
    | true =>
      rw [hnew, if_pos rfl] at hc
      have heof : ¬m.isEof c = true := by
        rw [hc, hl.newline hnew]
        exact Bool.false_ne_true
      rw [if_neg heof]
      split_ifs with hone
      · apply hfinish (got ++ [c]) _ htail
        rw [TtyLine.result, hnew, hbody, hc]
        rfl
      · subst htail
        refine ⟨past, read, l :: u, done, [nr + got.length], _, h.input, h.ok, h.lines,
          ⟨hqueue.sec, hqueue.data, hqueue.room, hqueue.complete⟩, h.sizes, h.results, ?_⟩
        have hlen : nr + got.length = nr - 1 + (got ++ [c]).length := by
          rw [List.length_append, List.length_singleton]
          omega
        rw [hlen]
        refine .taking l u (by omega) (by rw [hraw, List.append_nil]) fun c' hc' => ?_
        rcases List.mem_append.mp hc' with hc' | hc'
        · exact hgot c' hc'
        · rw [List.mem_singleton.mp hc']
          simpa using heof
  · -- a character before the end
    have hterm : m.isTerm c = false := hl.body c (by rw [hbody]; simp)
    have heof : ¬m.isEof c = true := by
      rw [(isTerm_of_not hterm).1]
      exact Bool.false_ne_true
    rw [if_neg heof]
    split_ifs with hone
    · exfalso
      have hlen : l.body.length = got.length + 1 + t.length := by
        rw [hbody, List.length_append, List.length_cons]
        omega
      cases hnew : l.newline with
      | true =>
        rw [TtyLine.result, hnew, if_pos rfl, List.length_append, List.length_singleton] at hsize
        omega
      | false =>
        rw [TtyLine.result, hnew, if_neg Bool.false_ne_true] at hsize
        have ht : t = [] := List.length_eq_zero_iff.mp (by omega)
        rw [hnew, ht, if_neg Bool.false_ne_true, List.nil_append] at htail
        refine hcut ⟨hone, c, m.eof, u.flatMap (TtyLine.raw m) ++ (ttyLines m past).cur, ?_, hterm,
          hl.eof hnew⟩
        rw [hsec, htail]
        rfl
    · refine ⟨past, read, l :: u, done, [nr + got.length], _, h.input, h.ok, h.lines,
        ⟨hqueue.sec, hqueue.data, hqueue.room, hqueue.complete⟩, h.sizes, h.results, ?_⟩
      have hlen : nr + got.length = nr - 1 + (got ++ [c]).length := by
        rw [List.length_append, List.length_singleton]
        omega
      rw [hlen]
      refine .taking l u (by omega) (by rw [hraw, List.append_assoc, List.singleton_append])
        fun c' hc' => ?_
      rcases List.mem_append.mp hc' with hc' | hc'
      · exact hgot c' hc'
      · rw [List.mem_singleton.mp hc']
        simpa using heof

/-- A call returns nothing. -/
theorem Progress.finishZero
    (h : Progress m input sizes past read unread done [0] (unread.flatMap (TtyLine.raw m)) s) :
    ReadsLines m input sizes (s.finish []) := by
  refine ⟨past, read, unread, done ++ [0], [], _, h.input, h.ok, h.lines,
    ⟨h.queue.sec, h.queue.data, h.queue.room, h.queue.complete⟩, ?_, fun more rest => ?_,
    .idle unread⟩
  · rw [← h.sizes, List.append_nil]
    rfl
  · have hresults := h.results more (0 :: rest)
    rw [expectedReads] at hresults
    have hfinish : (s.finish []).results = s.results ++ [[]] := rfl
    rw [List.append_assoc, List.singleton_append, hresults, hfinish, List.append_assoc]
    rfl

/-- A call returns a line at the newline, behind which the queue is empty. -/
theorem Progress.finishLine
    (h : Progress m input sizes past read (l :: u) done [nr + got.length]
      (u.flatMap (TtyLine.raw m)) s) (hnr : nr ≠ 0) (hresult : l.result = got) :
    ReadsLines m input sizes (s.finish got) := by
  refine ⟨past, read ++ [l], u, done ++ [nr + got.length], [], _, h.input, h.ok, ?_,
    ⟨h.queue.sec, h.queue.data, h.queue.room, h.queue.complete⟩, ?_, ?_, .idle u⟩
  · rw [h.lines, List.append_assoc, List.singleton_append]
  · rw [← h.sizes, List.append_nil]
    rfl
  · rw [← hresult]
    exact expectedReads_done h.results (by omega)

/-- One clean step. -/
theorem ReadsLines.next {e : TtyEvent} (h : ReadsLines m input sizes s) (hclean : s.Clean m e)
    (hsize : ∀ nr ∈ sizes, ∀ l ∈ (ttyLines m input).lines, l.result.length ≤ nr)
    (hnext : s.next m e = some s') : ReadsLines m input sizes s' := by
  obtain ⟨past, read, unread, done, current, q, h⟩ := h
  -- the lines so far are lines of the input
  have hbound : ∀ nr ∈ current, ∀ l ∈ unread, l.result.length ≤ nr := by
    intro nr hnr l hl
    refine hsize nr ?_ l ?_
    · rw [← h.sizes]
      exact List.mem_append_left _ (List.mem_append_right _ hnr)
    · obtain ⟨more, hmore⟩ := foldl_cook_lines (m := m) s.input (ttyLines m past)
      rw [← h.input, ttyLines, List.foldl_append]
      change l ∈ (s.input.foldl (TtyLines.cook m) (ttyLines m past)).lines
      rw [hmore, h.lines]
      exact List.mem_append_left _ (List.mem_append_right _ hl)
  cases e with
  | arrive =>
    rw [CookedTty.next] at hnext
    split at hnext
    · cases hnext
    · next c rest hinput =>
      split_ifs at hnext with hroom
      cases hnext
      have hqueue : Queued m q (ttyLines m past) { s with input := rest } :=
        ⟨h.queue.sec, h.queue.data, h.queue.room, h.queue.complete⟩
      obtain ⟨added, hlines, hcook⟩ := hqueue.cook h.ok hroom c
      obtain ⟨hin, hsizes, hreader, hresults⟩ := cook_frame m { s with input := rest } c
      have hpast : ttyLines m (past ++ [c]) = (ttyLines m past).cook m c := by
        rw [ttyLines, List.foldl_append]
        rfl
      refine ⟨past ++ [c], read, unread ++ added, done, current,
        q ++ added.flatMap (TtyLine.raw m), ?_, ?_, ?_, ?_, ?_, ?_, ?_⟩
      · rw [hin, ← h.input, hinput, List.append_assoc]
        rfl
      · rw [hpast]
        exact h.ok.cook c
      · rw [hpast, hlines, h.lines, List.append_assoc]
      · rw [hpast]
        exact hcook
      · rw [hsizes]
        exact h.sizes
      · rw [hresults]
        exact h.results
      · rw [hreader]
        exact h.reader.append added
  | step =>
    rw [CookedTty.next] at hnext
    rw [CookedTty.Clean] at hclean
    have hreader := h.reader
    cases hr : s.reader with
    | idle =>
      rw [hr] at hreader hnext
      cases hreader
      dsimp only at hnext
      split at hnext
      · cases hnext
      · next nr rest hsizes =>
        cases hnext
        refine ⟨past, read, unread, done, [nr], _, h.input, h.ok, h.lines,
          ⟨h.queue.sec, h.queue.data, h.queue.room, h.queue.complete⟩, ?_, h.results,
          .waiting unread nr⟩
        rw [← h.sizes, hsizes, List.append_nil, List.append_assoc]
        rfl
    | waiting nr =>
      rw [hr] at hreader hnext hclean
      cases hreader
      dsimp only at hnext hclean
      split_ifs at hnext with hnr hblocked
      · cases hnext
        subst hnr
        exact h.finishZero
      · cases hnext
        exact ⟨past, read, unread, done, [nr], _, h⟩
      · cases hnext
        obtain ⟨hne, hdata⟩ := not_or.mp hblocked
        have hline : s.data ≠ 0 := fun hzero => hdata ⟨hzero, hclean.1 hne hzero⟩
        cases unread with
        | nil => exact absurd (h.queue.count h.ok) hline
        | cons l u =>
          cases hraw : l.raw m with
          | nil => exact absurd hraw (by simp [TtyLine.raw])
          | cons c tail =>
            rw [List.flatMap_cons, hraw] at h
            have hempty : l.raw m = [] ++ c :: tail := hraw
            exact h.getch hnr hempty (fun c hc => absurd hc List.not_mem_nil)
              (hbound nr (List.mem_singleton_self nr) l (List.mem_cons_self ..)) hclean.2
    | taking nr got =>
      rw [hr] at hreader hnext hclean
      dsimp only at hnext hclean
      cases hnext
      cases hreader with
      | @taking l u _ _ tail hnr hraw hgot =>
        have hl : l.Ok m := h.ok.lines l (by rw [h.lines]; simp)
        cases tail with
        | cons c tail =>
          exact h.getch hnr hraw hgot
            (hbound _ (List.mem_singleton_self _) l (List.mem_cons_self ..)) hclean.2
        | nil =>
          rw [List.append_nil] at hraw
          have hnew : l.newline = true := by
            by_contra hnew
            have hfalse : l.newline = false := by simpa using hnew
            have hlast := hgot m.eof (by rw [← hraw, TtyLine.raw, hfalse]; simp)
            rw [hl.eof hfalse] at hlast
            cases hlast
          have hresult : l.result = got := by
            rw [← hraw, TtyLine.result, TtyLine.raw, hnew]
            rfl
          have hsec : s.sec = [] := by
            apply hclean.1
            rw [← hraw, TtyLine.raw, hnew, List.getLast?_concat]
            rfl
          have hgetch : s.getch m nr got = s.finish got := by
            rw [CookedTty.getch, hsec]
          rw [hgetch]
          exact h.finishLine hnr hresult

end Progress

/-- A terminal with an empty queue, before the calls. -/
def CookedTty.start (input sizes : List ℕ) : CookedTty := ⟨input, [], 0, sizes, .idle, []⟩

/-- A clean step. -/
def CookedTty.CleanStep (m : CookMode) (s s' : CookedTty) : Prop :=
  ∃ e, s.Clean m e ∧ s.next m e = some s'

theorem start_reading (m : CookMode) (input sizes : List ℕ) :
    ReadsLines m input sizes (.start input sizes) := by
  refine ⟨[], [], [], [], [], _, rfl, ⟨fun l hl => ?_, fun c hc => ?_⟩, rfl,
    ⟨rfl, rfl, Nat.zero_le _, fun c hc => ?_⟩, rfl, fun _ _ => rfl, .idle []⟩
  · cases hl
  · cases hc
  · cases hc

/-- No translation, and the characters of `INIT_C_CC`. -/
def plainMode : CookMode where
  icrnl := false
  igncr := false
  inlcr := false
  iuclc := false
  isig := false
  kill := 21
  erase := 127
  stop := 19
  start := 17
  intr := 3
  quit := 28
  eof := 4
  high _ := false

/-- The state after events, for two lines and two calls. -/
def readTwo (es : List TtyEvent) : CookedTty :=
  (runEvents (fun s e => s.next plainMode e) (.start [97, 10, 98, 10] [4, 4]) es).getD
    (.start [] [])

/-- The characters of a line arrive. -/
def arriveLine : List TtyEvent := [.arrive, .arrive]

/-- A call returns with a line that is alone in the queue. -/
def readLine : List TtyEvent := [.step, .step, .step, .step]

end LihaLinux.Tty
