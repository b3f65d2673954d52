import LihaLinux.Strings.Strtok
import LihaLinux.Strings.Tokens

/-!
# The calls of strtok

`strtok(s, ct)` and then `strtok(NULL, ct)`, as often as one likes. Between two calls memory and
`___strtok` are kept; the other registers have any contents when a call begins.
-/

namespace LihaLinux.Strings

/-- What the calls so far have left, and what they have returned. -/
structure Calls where
  mem : Word → BitVec 8
  stored : List Word
  /-- `___strtok`. -/
  saved : Word
  results : List Word

namespace Calls

/-- After one more call. -/
def after (k : Calls) (o : Outcome) : Calls :=
  ⟨o.mem, o.stored, o.saved, k.results ++ [o.result]⟩

/-- A call. -/
def call (n : ℕ) (s ct : Word) (regs : Cpu) (k : Calls) : Option Calls :=
  (strtok n s ct k.saved { regs with mem := k.mem, stored := k.stored }).map fun c =>
    k.after (outcome c)

/-- A number of calls, the first one for `s` and the others for `NULL`. -/
def calls (n : ℕ) (ct : Word) (regs : ℕ → Cpu) : ℕ → Word → Calls → Option Calls
  | 0, _, k => some k
  | r + 1, s, k => (k.call n s ct (regs r)).bind (calls n ct regs r 0)

end Calls

/-! ### Where a call begins -/

/-- The string that a call goes on with. -/
def start (s saved : Word) : Word := if s = 0 then saved else s

section

variable {c : Cpu} {k k₁ k' : Calls} {a s ct old : Word} {d l u t v : List (BitVec 8)}
  {x : BitVec 8} {n r : ℕ} {regs : ℕ → Cpu} {runs : List (ℕ × ℕ)}

/-- A call with something to go on with comes to the label 1. -/
theorem strtok_eq (h : start s old ≠ 0) :
    ∃ c', strtok n s ct old c = strtok1 ct n c' ∧ c'.esi = start s old ∧ c'.mem = c.mem ∧
      c'.stored = c.stored := by
  rw [start] at h ⊢
  by_cases hs : s = 0
  · rw [if_pos hs] at h ⊢
    have hzf : decide (s = 0) = true := decide_eq_true hs
    have hzf' : decide (old = 0) = false := decide_eq_false h
    refine ⟨{ c with ebx := old, esi := old, zf := false }, ?_, rfl, rfl, rfl⟩
    simp only [strtok, Cpu.testl, hzf, hzf']
    rfl
  · rw [if_neg hs]
    have hzf : decide (s = 0) = false := decide_eq_false hs
    refine ⟨{ c with ebx := old, esi := s, zf := false }, ?_, rfl, rfl, rfl⟩
    simp only [strtok, Cpu.testl, hzf]
    rfl

/-- A call with nothing to go on with returns `NULL`. -/
theorem strtok_null : (strtok n 0 ct 0 c).map outcome = some ⟨0, 0, c.mem, c.stored⟩ := by
  simp [strtok, Cpu.testl, outcome]

/-- A call does what is done from the label 1 on. -/
theorem call_eq {regs : Cpu} {o : Outcome} (hstart : start s k.saved = a) (ha : a ≠ 0)
    (hone : ∀ c : Cpu, c.esi = a → c.mem = k.mem → c.stored = k.stored →
      (strtok1 ct n c).map outcome = some o) :
    k.call n s ct regs = some (k.after o) := by
  have hentry : ∃ c', strtok n s ct k.saved { regs with mem := k.mem, stored := k.stored } =
      strtok1 ct n c' ∧ c'.esi = start s k.saved ∧ c'.mem = k.mem ∧ c'.stored = k.stored :=
    strtok_eq (hstart.trans_ne ha)
  obtain ⟨c', heq, hesi, hmem, hstored⟩ := hentry
  have hresult := hone c' (hesi.trans hstart) hmem hstored
  rw [Option.map_eq_some_iff] at hresult
  obtain ⟨c₁, hc₁, rfl⟩ := hresult
  rw [Calls.call, heq, hc₁]
  rfl

/-- When `___strtok` is `NULL`, then all calls return `NULL`. -/
theorem calls_done (hsaved : k.saved = 0) :
    k.calls n ct regs r 0 = some { k with results := k.results ++ List.replicate r 0 } := by
  induction r generalizing k with
  | zero =>
    rw [List.replicate_zero, List.append_nil]
    rfl
  | succ r ih =>
    have hone : k.call n 0 ct (regs r) = some (k.after ⟨0, 0, k.mem, k.stored⟩) := by
      have hresult : (strtok n 0 ct 0 { regs r with mem := k.mem, stored := k.stored }).map
          outcome = some ⟨0, 0, k.mem, k.stored⟩ := strtok_null
      rw [Option.map_eq_some_iff] at hresult
      obtain ⟨c₁, hc₁, hc₁'⟩ := hresult
      rw [Calls.call, hsaved, hc₁, Option.map_some, hc₁']
    rw [Calls.calls, hone, Option.bind_some, ih rfl, Calls.after, List.replicate_succ,
      List.append_assoc, List.singleton_append, ← hsaved]

/-- A call that leaves nothing to go on with is followed by calls that return `NULL`. -/
theorem calls_end {w : Word} (h : k.call n s ct (regs r) =
      some (k.after ⟨w, 0, k.mem, k.stored⟩)) :
    k.calls n ct regs (r + 1) s =
      some ⟨k.mem, k.stored, 0, k.results ++ (w :: List.replicate r 0)⟩ := by
  rw [Calls.calls, h, Option.bind_some, calls_done rfl, Calls.after, List.append_assoc,
    List.singleton_append]

/-! ### The delimiter string -/

/-- The delimiter string is there, or it has been emptied when only delimiters were left. -/
def Ready (m : Word → BitVec 8) (ct : Word) (d l : List (BitVec 8)) : Prop :=
  CString m ct d ∨ CString m ct [] ∧ ∀ b ∈ l, b ∈ d

/-- Without a token left a call returns `NULL`. -/
theorem call_none {regs : Cpu} (hstart : start s k.saved = a) (hs : CString k.mem a l)
    (hct : Ready k.mem ct d l) (hd : d ≠ []) (hl : ∀ b ∈ l, b ∈ d) (hn : l.length < n) :
    k.call n s ct regs = some (k.after ⟨0, 0, k.mem, k.stored⟩) := by
  have ha : a ≠ 0 := add_ofNat_zero a ▸ hs.add_ne_zero (Nat.zero_le _)
  apply call_eq hstart ha
  intro c hesi hmem hstored
  rw [← hmem, ← hstored]
  rw [← hmem] at hct hs
  rcases hct with hct | ⟨hct, -⟩
  · rw [← hesi] at hs
    exact strtok1_none hct hd hs.bytes hl hn
  · exact strtok1_empty hct

/-- With a token left the delimiter string is there. -/
theorem Ready.cstring (h : Ready k.mem ct d (u ++ (t ++ v))) (hne : t ≠ [])
    (ht : ∀ b ∈ t, b ∉ d) : CString k.mem ct d := by
  rcases h with hct | ⟨-, hall⟩
  · exact hct
  · obtain ⟨b, t, rfl⟩ := List.exists_cons_of_ne_nil hne
    exact absurd (hall b (by simp)) (ht b List.mem_cons_self)

/-- The place behind a token is not behind the first byte of the delimiter string. -/
theorem eq_start_of_delim {m : Word → BitVec 8} (hct : CString m ct d)
    (hs : CString m a (u ++ (t ++ x :: v))) (hne : t ≠ []) (ht : ∀ b ∈ t, b ∉ d) {p : ℕ}
    (hp : p ≤ d.length)
    (heq : ct + BitVec.ofNat 32 p = a + BitVec.ofNat 32 (u.length + t.length)) : p = 0 := by
  have hpos := List.length_pos_iff.mpr hne
  cases p with
  | zero => rfl
  | succ p =>
    -- The byte before is the last one of the token, and a delimiter.
    obtain ⟨k, hk⟩ : ∃ k, u.length + t.length = k + 1 := ⟨u.length + t.length - 1, by omega⟩
    have hbefore : ct + BitVec.ofNat 32 p = a + BitVec.ofNat 32 k := by
      rw [hk] at heq
      bv_omega
    have hlt : k < (u ++ (t ++ x :: v)).length := by
      simp only [List.length_append, List.length_cons]
      omega
    have hbyte := hct.bytes.byte (List.getElem?_eq_getElem (Nat.lt_of_succ_le hp))
    have hbyte' := hs.bytes.byte (List.getElem?_eq_getElem hlt)
    rw [hbefore, hbyte'.1] at hbyte
    refine absurd ⟨_, ?_, List.getElem?_eq_getElem hlt⟩
      (not_delimAt (u := u) (v := x :: v) (k := k) ht (by omega) (by omega))
    rw [hbyte.1]
    exact List.getElem_mem _

/-- The delimiter string when a delimiter of the other string has been cleared. -/
theorem ready_update {m : Word → BitVec 8} (hct : CString m ct d)
    (hs : CString m a (u ++ (t ++ x :: v))) (hne : t ≠ []) (ht : ∀ b ∈ t, b ∉ d) :
    Ready (Function.update m (a + BitVec.ofNat 32 (u.length + t.length)) 0) ct d v := by
  by_cases hin : ∃ p ≤ d.length,
      ct + BitVec.ofNat 32 p = a + BitVec.ofNat 32 (u.length + t.length)
  · right
    obtain ⟨p, hp, heq⟩ := hin
    obtain rfl := eq_start_of_delim hct hs hne ht hp heq
    rw [add_ofNat_zero] at heq
    have hrest : StringAt m (a + BitVec.ofNat 32 (u.length + t.length)) (x :: v) := by
      rw [add_ofNat_add]
      exact hs.bytes.drop.drop
    rw [← heq] at hrest ⊢
    have hsame := hct.bytes.unique hrest
    refine ⟨⟨Function.update_self ct 0 m, hct.ne_null, ?_⟩, fun b hb => ?_⟩
    · have hfits := hct.fits
      rw [List.length_nil]
      omega
    · rw [hsame]
      exact List.mem_cons_of_mem x hb
  · left
    refine ⟨hct.bytes.congr fun p hp => ?_, hct.ne_null, hct.fits⟩
    apply Function.update_of_ne
    intro heq
    exact hin ⟨p, hp, heq⟩

/-! ### All calls -/

/-- Memory has only been written to at delimiters of a string. -/
def OnlyDelims (d l : List (BitVec 8)) (a : Word) (k k' : Calls) : Prop :=
  ∃ new, k'.stored = new ++ k.stored ∧
    (∀ w ∈ new, ∃ p, DelimAt d l p ∧ w = a + BitVec.ofNat 32 p) ∧
    ∀ w, w ∉ new → k'.mem w = k.mem w

/-- What the calls return: the tokens in order, and then `NULL`. -/
def tokenResults (a : Word) (runs : List (ℕ × ℕ)) (r : ℕ) : List Word :=
  (List.range r).map fun i => runs[i]?.elim 0 fun run => a + BitVec.ofNat 32 run.1

/-- The first tokens are in memory as strings of their own. -/
def TokensAt (m : Word → BitVec 8) (a : Word) (l : List (BitVec 8)) (runs : List (ℕ × ℕ))
    (r : ℕ) : Prop :=
  ∀ i < r, ∀ run ∈ runs[i]?, a + BitVec.ofNat 32 run.1 ≠ 0 ∧
    StringAt m (a + BitVec.ofNat 32 run.1) ((l.drop run.1).take (run.2 - run.1))

theorem onlyDelims_refl (hmem : k'.mem = k.mem) (hstored : k'.stored = k.stored) :
    OnlyDelims d l a k k' :=
  ⟨[], hstored, fun _ hw => absurd hw List.not_mem_nil, fun w _ => congrFun hmem w⟩

theorem tokenResults_nil (a : Word) (r : ℕ) : tokenResults a [] r = List.replicate r 0 := by
  rw [tokenResults, List.eq_replicate_iff]
  simp

theorem tokenResults_cons (a : Word) (run : ℕ × ℕ) (runs : List (ℕ × ℕ)) (r : ℕ) :
    tokenResults a (run :: runs) (r + 1) =
      (a + BitVec.ofNat 32 run.1) :: tokenResults a runs r := by
  rw [tokenResults, List.range_succ_eq_map, List.map_cons, List.map_map]
  rfl

theorem tokenResults_shift (a : Word) (j : ℕ) (runs : List (ℕ × ℕ)) (r : ℕ) :
    tokenResults a (runs.map (shift j)) r = tokenResults (a + BitVec.ofNat 32 j) runs r := by
  rw [tokenResults, tokenResults]
  apply List.map_congr_left
  intro i _
  rw [List.getElem?_map]
  cases runs[i]? with
  | none => rfl
  | some run => exact add_ofNat_add a j run.1

/-- Once a token is in memory as a string, later calls leave it there. -/
theorem token_stays (hs : CString k.mem a (u ++ (t ++ x :: v)))
    (hmem : k₁.mem =
      Function.update k.mem (a + BitVec.ofNat 32 (u.length + t.length)) 0)
    (honly : OnlyDelims d v (a + BitVec.ofNat 32 (u.length + t.length + 1)) k₁ k') :
    StringAt k'.mem (a + BitVec.ofNat 32 u.length) t := by
  have hcut : StringAt k₁.mem (a + BitVec.ofNat 32 u.length) t := by
    have hfits := hs.drop.fits
    rw [List.length_append] at hfits
    rw [hmem, add_ofNat_add]
    exact hs.drop.bytes.cut (by omega)
  obtain ⟨new, -, hnew, hkeep⟩ := honly
  apply hcut.congr
  intro p hp
  apply hkeep
  intro hw
  obtain ⟨q, hq, heq⟩ := hnew _ hw
  have hlt := hq.lt
  rw [← add_ofNat_add, ← add_ofNat_add] at heq
  have hindex := hs.add_inj (by simp only [List.length_append, List.length_cons]; omega)
    (by simp only [List.length_append, List.length_cons]; omega) heq
  omega

/-- The stores of a call and of the ones after it. -/
theorem onlyDelims_step (hx : x ∈ d)
    (hmem : k₁.mem =
      Function.update k.mem (a + BitVec.ofNat 32 (u.length + t.length)) 0)
    (hstored : k₁.stored = (a + BitVec.ofNat 32 (u.length + t.length)) :: k.stored)
    (honly : OnlyDelims d v (a + BitVec.ofNat 32 (u.length + t.length + 1)) k₁ k') :
    OnlyDelims d (u ++ (t ++ x :: v)) a k k' := by
  obtain ⟨new, hnew, hdelims, hkeep⟩ := honly
  refine ⟨new ++ [a + BitVec.ofNat 32 (u.length + t.length)], ?_, fun w hw => ?_, fun w hw => ?_⟩
  · rw [hnew, hstored, List.append_assoc, List.singleton_append]
  · rcases List.mem_append.mp hw with hw | hw
    · obtain ⟨p, hp, rfl⟩ := hdelims w hw
      exact ⟨_, (delimAt_add p).mpr hp, (add_ofNat_add _ _ _).symm⟩
    · exact ⟨_, delimAt_stop hx, List.mem_singleton.mp hw⟩
  · rw [List.mem_append, List.mem_singleton, not_or] at hw
    rw [hkeep w hw.1, hmem, Function.update_of_ne hw.2]

/-- What is left behind the delimiter that has been cleared. -/
theorem cstring_rest {m : Word → BitVec 8} (hs : CString m a (u ++ (t ++ x :: v))) :
    CString (Function.update m (a + BitVec.ofNat 32 (u.length + t.length)) 0)
      (a + BitVec.ofNat 32 (u.length + t.length + 1)) v := by
  have hrest : CString m (a + BitVec.ofNat 32 (u.length + t.length + 1)) v := by
    have hassoc : u ++ (t ++ x :: v) = (u ++ t ++ [x]) ++ v := by simp
    have hlen : (u ++ t ++ [x]).length = u.length + t.length + 1 := by simp; omega
    rw [← hlen]
    exact (hassoc ▸ hs).drop
  refine ⟨hrest.bytes.congr fun p hp => ?_, hrest.ne_null, hrest.fits⟩
  apply Function.update_of_ne
  rw [← add_ofNat_add]
  intro heq
  have hindex := hs.add_inj (by simp only [List.length_append, List.length_cons]; omega)
    (by simp only [List.length_append, List.length_cons]; omega) heq
  omega

/-- The tokens of what is left are tokens of the string. -/
theorem tokensAt_shift {m : Word → BitVec 8}
    (h : TokensAt m (a + BitVec.ofNat 32 (u.length + t.length + 1)) v runs r)
    (hfirst : a + BitVec.ofNat 32 u.length ≠ 0 ∧ StringAt m (a + BitVec.ofNat 32 u.length) t) :
    TokensAt m a (u ++ (t ++ x :: v))
      ((u.length, u.length + t.length) :: runs.map (shift (u.length + t.length + 1))) (r + 1) := by
  intro i hi run hrun
  cases i with
  | zero =>
    cases hrun
    have hslice :
        ((u ++ (t ++ x :: v)).drop u.length).take (u.length + t.length - u.length) = t := by
      rw [List.drop_left, Nat.add_sub_cancel_left, List.take_left]
    rw [hslice]
    exact hfirst
  | succ i =>
    rw [List.getElem?_cons_succ, List.getElem?_map, Option.mem_def, Option.map_eq_some_iff] at hrun
    obtain ⟨run', hrun', rfl⟩ := hrun
    have hdrop : (u ++ (t ++ x :: v)).drop (u.length + t.length + 1) = v := by
      have hassoc : u ++ (t ++ x :: v) = (u ++ t ++ [x]) ++ v := by simp
      rw [hassoc]
      exact List.drop_left' (by simp; omega)
    have hone := h i (Nat.lt_of_succ_lt_succ hi) run' hrun'
    rw [shift, ← List.drop_drop, hdrop, Nat.add_sub_add_left, add_ofNat_add]
    exact hone

/-- Any number of calls, from where a string begins. -/
theorem calls_spec (hruns : Runs d l runs) (hd : d ≠ []) (hstart : start s k.saved = a)
    (hs : CString k.mem a l) (hct : Ready k.mem ct d l) (hn : l.length < n) :
    ∃ k', k.calls n ct regs r s = some k' ∧ k'.results = k.results ++ tokenResults a runs r ∧
      TokensAt k'.mem a l runs r ∧ OnlyDelims d l a k k' := by
  induction hruns generalizing k a s r with
  | none hall =>
    cases r with
    | zero => exact ⟨k, rfl, (List.append_nil _).symm, fun i hi => absurd hi (Nat.not_lt_zero i),
        onlyDelims_refl rfl rfl⟩
    | succ r =>
      have hone : k.call n s ct (regs r) = some (k.after ⟨0, 0, k.mem, k.stored⟩) :=
        call_none hstart hs hct hd hall hn
      refine ⟨_, calls_end hone, ?_, fun i _ run hrun => absurd hrun (by simp),
        onlyDelims_refl rfl rfl⟩
      rw [tokenResults_nil, List.replicate_succ]
  | @last u t hu hne ht =>
    cases r with
    | zero => exact ⟨k, rfl, (List.append_nil _).symm, fun i hi => absurd hi (Nat.not_lt_zero i),
        onlyDelims_refl rfl rfl⟩
    | succ r =>
      have ha : a ≠ 0 := add_ofNat_zero a ▸ hs.add_ne_zero (Nat.zero_le _)
      have hone : k.call n s ct (regs r) =
          some (k.after ⟨a + BitVec.ofNat 32 u.length, 0, k.mem, k.stored⟩) := by
        apply call_eq hstart ha
        intro c hesi hmem hstored
        rw [← hmem, ← hstored, ← hesi]
        exact strtok1_last (hmem ▸ hct.cstring hne ht) hd (hesi ▸ hmem ▸ hs) hu hne ht hn
      refine ⟨_, calls_end hone, ?_, fun i _ run hrun => ?_, onlyDelims_refl rfl rfl⟩
      · rw [tokenResults_cons, tokenResults_nil]
      · cases i with
        | zero =>
          cases hrun
          have hdrop := hs.bytes.drop
          rw [List.append_nil] at hdrop
          refine ⟨hs.add_ne_zero (by simp), ?_⟩
          simpa using hdrop
        | succ i => exact absurd hrun (by simp)
  | @token u t v x runs hu hne ht hx _ ih =>
    cases r with
    | zero => exact ⟨k, rfl, (List.append_nil _).symm, fun i hi => absurd hi (Nat.not_lt_zero i),
        onlyDelims_refl rfl rfl⟩
    | succ r =>
      have ha : a ≠ 0 := add_ofNat_zero a ▸ hs.add_ne_zero (Nat.zero_le _)
      have hready := ready_update (hct.cstring hne ht) hs hne ht
      obtain ⟨k₁, hk₁⟩ : ∃ k₁, k₁ = k.after ⟨a + BitVec.ofNat 32 u.length,
          a + BitVec.ofNat 32 (u.length + t.length + 1),
          Function.update k.mem (a + BitVec.ofNat 32 (u.length + t.length)) 0,
          (a + BitVec.ofNat 32 (u.length + t.length)) :: k.stored⟩ := ⟨_, rfl⟩
      have hone : k.call n s ct (regs r) = some k₁ := by
        rw [hk₁]
        apply call_eq hstart ha
        intro c hesi hmem hstored
        rw [← hmem, ← hstored, ← hesi]
        exact strtok1_token (hmem ▸ hct.cstring hne ht) hd (hesi ▸ hmem ▸ hs) hu hne ht hx hn
      have hmem : k₁.mem = Function.update k.mem (a + BitVec.ofNat 32 (u.length + t.length)) 0 := by
        rw [hk₁]
        rfl
      have hn' : v.length < n := by
        simp only [List.length_append, List.length_cons] at hn
        omega
      obtain ⟨k', hcalls, hresults, htokens, honly⟩ := ih (k := k₁) (s := 0) (r := r)
        (congrArg Calls.saved hk₁) (hmem ▸ cstring_rest hs) (hmem ▸ hready) hn'
      refine ⟨k', ?_, ?_, ?_, onlyDelims_step hx hmem (congrArg Calls.stored hk₁) honly⟩
      · rw [Calls.calls, hone, Option.bind_some, hcalls]
      · rw [hresults, hk₁, tokenResults_cons, tokenResults_shift, Calls.after, List.append_assoc,
          List.singleton_append]
      · exact tokensAt_shift htokens ⟨hs.add_ne_zero (by simp), token_stays hs hmem honly⟩

/-- For every string and every delimiter string that is not empty, calls of `strtok` end, and they
return the tokens in order and then `NULL`. Each token is a string of its own then, and memory has
been written to at delimiters of the string only. -/
theorem strtok_complete (hs : CString k.mem s l) (hct : CString k.mem ct d) (hd : d ≠ []) :
    ∃ runs : List (ℕ × ℕ), (runs.Pairwise fun run run' => run.2 < run'.1) ∧
      (∀ i j, (i, j) ∈ runs ↔ IsToken d l i j) ∧
      ∀ n regs r, ∃ k', k.calls (n + l.length + 1) ct regs r s = some k' ∧
        k'.results = k.results ++ tokenResults s runs r ∧ TokensAt k'.mem s l runs r ∧
        OnlyDelims d l s k k' := by
  obtain ⟨runs, hruns⟩ := exists_runs d l
  refine ⟨runs, hruns.pairwise, hruns.mem_iff, fun n regs r => ?_⟩
  have hs0 : s ≠ 0 := add_ofNat_zero s ▸ hs.add_ne_zero (Nat.zero_le _)
  exact calls_spec hruns hd (if_neg hs0) hs (Or.inl hct) (by omega)

end

/-- Memory with "a,b" at 16 and "," at 32. -/
def listMem (a : Word) : BitVec 8 :=
  if a = 16 then 97 else if a = 17 then 44 else if a = 18 then 98 else if a = 32 then 44 else 0

/-- "a,b" has the tokens "a" and "b", and a third call returns `NULL`. -/
theorem strtok_complete_list : ∃ runs k',
    (0, 1) ∈ runs ∧ (2, 3) ∈ runs ∧
      Calls.calls 4 32 (fun _ => ⟨0, 0, 0, 0, 0, 0, false, true, listMem, []⟩) 3 16
        ⟨listMem, [], 7, []⟩ = some k' ∧ k'.results = tokenResults 16 runs 3 := by
  have hs : CString listMem 16 [97, 44, 98] :=
    ⟨by simp [StringAt, listMem], by decide, by decide⟩
  have hct : CString listMem 32 [44] := ⟨by simp [StringAt, listMem], by decide, by decide⟩
  obtain ⟨runs, -, hmem, hcalls⟩ := strtok_complete (k := ⟨listMem, [], 7, []⟩) hs hct (by decide)
  obtain ⟨k', hk', hresults, -⟩ :=
    hcalls 0 (fun _ => ⟨0, 0, 0, 0, 0, 0, false, true, listMem, []⟩) 3
  refine ⟨runs, k', (hmem 0 1).mpr ?_, (hmem 2 3).mpr ?_, hk', hresults⟩
  · refine ⟨by decide, by decide, fun i _ hi => ?_, Or.inl rfl, Or.inr ⟨44, by decide, rfl⟩⟩
    obtain rfl : i = 0 := by omega
    simp [DelimAt]
  · refine ⟨by decide, by decide, fun i hlow hi => ?_, Or.inr ⟨44, by decide, rfl⟩, Or.inl rfl⟩
    obtain rfl : i = 2 := by omega
    simp [DelimAt]

end LihaLinux.Strings
