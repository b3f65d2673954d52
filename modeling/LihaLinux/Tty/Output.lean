import LihaLinux.Lib.Transition
import LihaLinux.Tty.Queue

/-!
# Output to terminals

`tty_write` by any number of tasks, and by `printk`, on the three terminals. A call is left by
the processor when it sleeps because `write_q` is full, and when it calls `schedule`. That a
carriage return has been queued for a newline is kept in `cr_flag`, a static variable.
-/

namespace LihaLinux.Tty

/-! ### Translation -/

/-- The flags of `c_oflag` that `tty_write` looks at. -/
structure OutputMode where
  opost : Bool
  ocrnl : Bool
  onlret : Bool
  onlcr : Bool
  olcuc : Bool

/-- What does not change in a run: the modes of the terminals, and `islower` of the characters
from 128 on, for which it reads the memory before `_ctype`. -/
structure TtyConfig where
  mode : Fin 3 → OutputMode
  high : ℕ → Bool

/-- `islower`. -/
def TtyConfig.islower (g : TtyConfig) (c : ℕ) : Bool :=
  if c < 128 then decide (97 ≤ c ∧ c ≤ 122) else g.high c

/-- `toupper`. -/
def TtyConfig.toupper (g : TtyConfig) (c : ℕ) : ℕ := if g.islower c then c - 32 else c

/-- `OCRNL` and `ONLRET`, with `OPOST`. -/
def OutputMode.mapNewline (m : OutputMode) (c : ℕ) : ℕ :=
  if m.opost = false then c
  else if c = 13 ∧ m.ocrnl = true then 10
  else if c = 10 ∧ m.onlret = true then 13
  else c

/-- Whether a character needs a carriage return before it. -/
def OutputMode.needsReturn (m : OutputMode) (c : ℕ) : Bool :=
  m.opost && decide (m.mapNewline c = 10) && m.onlcr

/-- The character that is queued for a byte, apart from the carriage return. -/
def TtyConfig.outputChar (g : TtyConfig) (m : OutputMode) (c : ℕ) : ℕ :=
  if m.opost && m.olcuc then g.toupper (m.mapNewline c) else m.mapNewline c

/-- What the output of a byte is meant to be. -/
def TtyConfig.translate (g : TtyConfig) (m : OutputMode) (c : ℕ) : List ℕ :=
  (if m.needsReturn c then [13] else []) ++ [g.outputChar m c]

/-! ### The inner loop -/

/-- The end of the inner loop: the queue and `cr_flag`, the bytes that are left, the bytes that
have been written and the characters that have been queued. -/
structure Puts where
  queue : TtyQueue
  crFlag : Bool
  rest : List ℕ
  taken : List ℕ
  out : List ℕ

/-- The inner loop of `tty_write`, with at most `n` characters to queue. -/
def putLoop (g : TtyConfig) (m : OutputMode) : ℕ → TtyQueue → Bool → List ℕ → Puts
  | 0, q, crFlag, buf => ⟨q, crFlag, buf, [], []⟩
  | _, q, crFlag, [] => ⟨q, crFlag, [], [], []⟩
  | n + 1, q, crFlag, c :: buf =>
    if q.full then ⟨q, crFlag, c :: buf, [], []⟩
    else if m.needsReturn c && !crFlag then
      let p := putLoop g m n (q.putch 13) true (c :: buf)
      { p with out := 13 :: p.out }
    else
      let p := putLoop g m n (q.putch (g.outputChar m c)) false buf
      { p with taken := c :: p.taken, out := g.outputChar m c :: p.out }

/-- The loop ends when nothing is left or the queue is full. -/
theorem putLoop_ends (g : TtyConfig) (m : OutputMode) {n : ℕ} {q : TtyQueue} (crFlag : Bool)
    (buf : List ℕ) (hn : q.left ≤ n) :
    (putLoop g m n q crFlag buf).rest = [] ∨ (putLoop g m n q crFlag buf).queue.full = true := by
  induction n generalizing q crFlag buf with
  | zero =>
    right
    rw [putLoop, TtyQueue.full, decide_eq_true_eq]
    exact Nat.le_zero.mp hn
  | succ n ih =>
    cases buf with
    | nil => exact Or.inl rfl
    | cons c buf =>
      rw [putLoop]
      split_ifs with hfull hreturn
      · exact Or.inr hfull
      · have hleft := TtyQueue.left_putch (by simpa [TtyQueue.full] using hfull) 13
        exact ih true (c :: buf) (by omega)
      · have hleft := TtyQueue.left_putch (by simpa [TtyQueue.full] using hfull) (g.outputChar m c)
        exact ih false buf (by omega)

/-- The first byte that is left needs a carriage return. -/
def NewlineFirst (m : OutputMode) (buf : List ℕ) : Prop :=
  ∃ c l, buf = c :: l ∧ m.needsReturn c = true

/-- A carriage return that is queued for a newline that is not. -/
def pendingReturn (crFlag : Bool) : List ℕ := if crFlag then [13] else []

/-- The loop queues the translation of what it writes, up to a carriage return. -/
theorem putLoop_translates (g : TtyConfig) (m : OutputMode) {n : ℕ} (q : TtyQueue) {crFlag : Bool}
    {buf : List ℕ} (hflag : crFlag = true → NewlineFirst m buf) {p : Puts}
    (hp : putLoop g m n q crFlag buf = p) :
    pendingReturn crFlag ++ p.out = p.taken.flatMap (g.translate m) ++ pendingReturn p.crFlag ∧
      (p.crFlag = true → NewlineFirst m p.rest) := by
  induction n generalizing q crFlag buf p with
  | zero =>
    subst hp
    exact ⟨List.append_nil _, hflag⟩
  | succ n ih =>
    cases buf with
    | nil =>
      subst hp
      exact ⟨List.append_nil _, hflag⟩
    | cons c buf =>
      rw [putLoop] at hp
      split_ifs at hp with hfull hreturn
      · subst hp
        exact ⟨List.append_nil _, hflag⟩
      · rw [Bool.and_eq_true, Bool.not_eq_true'] at hreturn
        obtain ⟨hneeds, rfl⟩ := hreturn
        have hrest := @ih (q.putch 13) true _ (fun _ => ⟨c, buf, rfl, hneeds⟩) _ rfl
        subst hp
        exact hrest
      · have hrest := @ih (q.putch (g.outputChar m c)) false buf
          (fun h => absurd h Bool.false_ne_true) _ rfl
        subst hp
        refine ⟨?_, hrest.2⟩
        have hreturns : pendingReturn crFlag = if m.needsReturn c then [13] else [] := by
          cases hc : crFlag with
          | false =>
            rw [hc, Bool.not_false, Bool.and_true] at hreturn
            rw [if_neg hreturn]
            rfl
          | true =>
            obtain ⟨c', l, heq, hneeds⟩ := hflag hc
            cases heq
            rw [if_pos hneeds]
            rfl
        have hout := hrest.1
        rw [pendingReturn, if_neg Bool.false_ne_true, List.nil_append] at hout
        dsimp only
        rw [List.flatMap_cons, TtyConfig.translate, hreturns, hout, List.append_assoc,
          List.append_assoc, List.singleton_append]

/-! ### The calls -/

/-- A call of `tty_write`: `nr` and `buf` are the bytes that are left. -/
structure WriteCall where
  channel : Fin 3
  rest : List ℕ
  /-- `b-buf`, the value that the call returns. -/
  count : ℕ
  /-- The call is in the loop of `sleep_if_full`. -/
  asleep : Bool
  /-- The call has queued a carriage return without its newline; no code reads this. -/
  half : Bool

/-- The terminals and the calls by the callers `κ`. -/
structure TtyWrites (κ : Type*) where
  queue : Fin 3 → TtyQueue
  /-- `cr_flag`. -/
  crFlag : Bool
  call : κ → Option WriteCall
  /-- The characters that `tty_write` has queued. -/
  put : Fin 3 → List ℕ
  /-- The bytes that `tty_write` has counted in the values that it returns. -/
  taken : Fin 3 → List ℕ

/-- What happens: a call of `tty_write` for a terminal, a step of a caller up to the next point
where it may lose the processor, with a signal or without, and a change of `write_q` by the
interrupt of the serial line, by the console or by the echo. -/
inductive WriteEvent (κ : Type*)
  | start (k : κ) (channel : Fin 3) (buf : List ℕ)
  | step (k : κ) (signal : Bool)
  | change (t : Fin 3) (q : TtyQueue)

/-- `sleep_if_full` lets a call without a signal go on. -/
def WriteCall.ready (c : WriteCall) (q : TtyQueue) : Bool :=
  if c.asleep then decide (128 ≤ q.left) else !q.full

variable {κ : Type*} [DecidableEq κ]

namespace TtyWrites

/-- Change a call. -/
def setCall (s : TtyWrites κ) (k : κ) (c : Option WriteCall) : TtyWrites κ :=
  { s with call := Function.update s.call k c }

theorem setCall_self (s : TtyWrites κ) (k : κ) (c : Option WriteCall) :
    (s.setCall k c).call k = c := Function.update_self ..

theorem setCall_ne (s : TtyWrites κ) {k o : κ} (ho : o ≠ k) (c : Option WriteCall) :
    (s.setCall k c).call o = s.call o := Function.update_of_ne ho ..

/-- The inner loop of a call. -/
def write (g : TtyConfig) (s : TtyWrites κ) (k : κ) (c : WriteCall) : TtyWrites κ :=
  let t := c.channel
  let p := putLoop g (g.mode t) 1024 (s.queue t) s.crFlag c.rest
  { queue := Function.update s.queue t p.queue
    crFlag := p.crFlag
    call := Function.update s.call k (some { c with
      rest := p.rest, count := c.count + p.taken.length, asleep := false, half := p.crFlag })
    put := Function.update s.put t (s.put t ++ p.out)
    taken := Function.update s.taken t (s.taken t ++ p.taken) }

/-- The next state. -/
def next (g : TtyConfig) (s : TtyWrites κ) : WriteEvent κ → Option (TtyWrites κ)
  | .start k channel buf =>
    match s.call k with
    | some _ => none
    | none => some (s.setCall k (some ⟨channel, buf, 0, false, false⟩))
  | .step k signal =>
    match s.call k with
    | none => none
    | some c =>
      if c.rest = [] then some (s.setCall k none)
      else if signal then some (s.setCall k none)
      else if c.ready (s.queue c.channel) then some (s.write g k c)
      else some (s.setCall k (some { c with asleep := true }))
  | .change t q => some { s with queue := Function.update s.queue t q }

/-! ### Half-written newlines -/

/-- A call on a terminal has queued a carriage return without its newline. -/
def Half (s : TtyWrites κ) (k : κ) (t : Fin 3) (buf : List ℕ) : Prop :=
  ∃ c, s.call k = some c ∧ c.half = true ∧ c.channel = t ∧ c.rest = buf

/-- A call goes on to its inner loop. -/
def Writes (s : TtyWrites κ) (k : κ) (signal : Bool) : Prop :=
  ∃ c, s.call k = some c ∧ c.rest ≠ [] ∧ signal = false ∧ c.ready (s.queue c.channel) = true

/-- While a newline is half-written, its call does not end by a signal, and no other call goes on
to its inner loop. -/
def Clean (s : TtyWrites κ) : WriteEvent κ → Prop
  | .step k signal => ∀ o t buf, s.Half o t buf →
    (k = o → signal = false) ∧ (k ≠ o → ¬s.Writes k signal)
  | _ => True

/-- A step that is clean. -/
def CleanStep (g : TtyConfig) (s s' : TtyWrites κ) : Prop :=
  ∃ e, s.Clean e ∧ s.next g e = some s'

/-- Nothing has been written, and no call is running. -/
structure Start (s : TtyWrites κ) : Prop where
  crFlag : s.crFlag = false
  call : ∀ k, s.call k = none
  put : ∀ t, s.put t = []
  taken : ∀ t, s.taken t = []

/-- `cr_flag` is set for the one newline that is half-written, and the characters that have been
queued are the translation of the bytes, up to its carriage return. -/
structure Translating (g : TtyConfig) (s : TtyWrites κ) : Prop where
  newline : ∀ k t buf, s.Half k t buf → s.crFlag = true ∧ NewlineFirst (g.mode t) buf
  owner : s.crFlag = true → ∃ k t buf, s.Half k t buf
  unique : ∀ k t buf k' t' buf', s.Half k t buf → s.Half k' t' buf' → k = k'
  pending : ∀ k t buf, s.Half k t buf →
    s.put t = (s.taken t).flatMap (g.translate (g.mode t)) ++ [13]
  exact : ∀ t, (∀ k buf, ¬s.Half k t buf) →
    s.put t = (s.taken t).flatMap (g.translate (g.mode t))

section Invariant

variable {g : TtyConfig} {s s' : TtyWrites κ} {k : κ} {c : WriteCall} {t : Fin 3} {buf : List ℕ}

omit [DecidableEq κ] in
theorem Half.call_eq (h : s.Half k t buf) (hc : s.call k = some c) :
    c.half = true ∧ c.channel = t ∧ c.rest = buf := by
  obtain ⟨c', hc', hrest⟩ := h
  cases hc.symm.trans hc'
  exact hrest

omit [DecidableEq κ] in
theorem Start.translating (h : Start s) : Translating g s := by
  have hhalf : ∀ k t buf, ¬s.Half k t buf := by
    rintro k t buf ⟨c, hc, -⟩
    rw [h.call] at hc
    cases hc
  refine ⟨fun k t buf hk => absurd hk (hhalf k t buf), fun hflag => ?_, fun k t buf _ _ _ hk => ?_,
    fun k t buf hk => absurd hk (hhalf k t buf), fun t _ => ?_⟩
  · rw [h.crFlag] at hflag
    cases hflag
  · exact absurd hk (hhalf k t buf)
  · rw [h.put, h.taken]
    rfl

omit [DecidableEq κ] in
/-- A step that writes nothing and leaves the half-written newlines. -/
theorem Translating.congr (h : Translating g s) (hflag : s'.crFlag = s.crFlag)
    (hput : s'.put = s.put) (htaken : s'.taken = s.taken)
    (hhalf : ∀ k t buf, s'.Half k t buf ↔ s.Half k t buf) : Translating g s' := by
  refine ⟨fun k t buf hk => ?_, fun hf => ?_, fun k t buf k' t' buf' hk hk' => ?_,
    fun k t buf hk => ?_, fun t ht => ?_⟩
  · rw [hflag]
    exact h.newline k t buf ((hhalf k t buf).mp hk)
  · rw [hflag] at hf
    obtain ⟨k, t, buf, hk⟩ := h.owner hf
    exact ⟨k, t, buf, (hhalf k t buf).mpr hk⟩
  · exact h.unique k t buf k' t' buf' ((hhalf k t buf).mp hk) ((hhalf k' t' buf').mp hk')
  · rw [hput, htaken]
    exact h.pending k t buf ((hhalf k t buf).mp hk)
  · rw [hput, htaken]
    exact h.exact t fun k buf hk => ht k buf ((hhalf k t buf).mpr hk)

/-- The half-written newlines after a change of a call without one. -/
theorem half_setCall {x : Option WriteCall} (hold : ∀ t buf, ¬s.Half k t buf)
    (hnew : ∀ c, x = some c → c.half = false) (o : κ) (t : Fin 3) (buf : List ℕ) :
    (s.setCall k x).Half o t buf ↔ s.Half o t buf := by
  rcases eq_or_ne o k with rfl | hne
  · constructor
    · rintro ⟨c, hc, hhalf, -⟩
      rw [setCall_self] at hc
      rw [hnew c hc] at hhalf
      cases hhalf
    · exact fun h => absurd h (hold t buf)
  · rw [Half, Half, setCall_ne s hne]

/-- A call goes to sleep. -/
theorem half_sleep (hc : s.call k = some c) (o : κ) (t : Fin 3) (buf : List ℕ) :
    (s.setCall k (some { c with asleep := true })).Half o t buf ↔ s.Half o t buf := by
  rcases eq_or_ne o k with rfl | hne
  · rw [Half, Half, setCall_self, hc]
    constructor
    · rintro ⟨c', hc', hrest⟩
      cases hc'
      exact ⟨c, rfl, hrest⟩
    · rintro ⟨c', hc', hrest⟩
      cases hc'
      exact ⟨_, rfl, hrest⟩
  · rw [Half, Half, setCall_ne s hne]

/-- The inner loop of the only call that may have a half-written newline. -/
theorem Translating.write (h : Translating g s) (hc : s.call k = some c)
    (honly : ∀ o t buf, s.Half o t buf → o = k) : Translating g (s.write g k c) := by
  obtain ⟨p, hp⟩ : ∃ p, putLoop g (g.mode c.channel) 1024 (s.queue c.channel) s.crFlag c.rest = p :=
    ⟨_, rfl⟩
  have hhalf : ∀ t buf, s.Half k t buf → t = c.channel ∧ buf = c.rest := by
    intro t buf hk
    obtain ⟨-, ht, hbuf⟩ := hk.call_eq hc
    exact ⟨ht.symm, hbuf.symm⟩
  have hfirst : s.crFlag = true → s.Half k c.channel c.rest := by
    intro hflag
    obtain ⟨o, t, buf, ho⟩ := h.owner hflag
    obtain rfl := honly o t buf ho
    obtain ⟨rfl, rfl⟩ := hhalf t buf ho
    exact ho
  have hflag : s.crFlag = true → NewlineFirst (g.mode c.channel) c.rest := fun hf =>
    (h.newline _ _ _ (hfirst hf)).2
  obtain ⟨hout, hrest⟩ := putLoop_translates g (g.mode c.channel) (s.queue c.channel) hflag hp
  -- what was queued before, up to the carriage return
  have hbefore : s.put c.channel =
      (s.taken c.channel).flatMap (g.translate (g.mode c.channel)) ++ pendingReturn s.crFlag := by
    cases hf : s.crFlag with
    | true => exact h.pending _ _ _ (hfirst hf)
    | false =>
      rw [pendingReturn, if_neg Bool.false_ne_true, List.append_nil]
      refine h.exact _ fun o buf ho => ?_
      rw [(h.newline o _ buf ho).1] at hf
      cases hf
  have hafter : s.put c.channel ++ p.out = (s.taken c.channel ++ p.taken).flatMap
      (g.translate (g.mode c.channel)) ++ pendingReturn p.crFlag := by
    rw [hbefore, List.append_assoc, hout, List.flatMap_append, List.append_assoc]
  have hcall : (s.write g k c).call = Function.update s.call k (some { c with
      rest := p.rest, count := c.count + p.taken.length, asleep := false, half := p.crFlag }) := by
    rw [TtyWrites.write, hp]
  have hnew : ∀ o t buf, (s.write g k c).Half o t buf ↔
      o = k ∧ t = c.channel ∧ buf = p.rest ∧ p.crFlag = true := by
    intro o t buf
    rw [Half, hcall]
    rcases eq_or_ne o k with rfl | hne
    · rw [Function.update_self]
      constructor
      · rintro ⟨c', hc', hcr, ht, hbuf⟩
        cases hc'
        exact ⟨rfl, ht.symm, hbuf.symm, hcr⟩
      · rintro ⟨-, rfl, rfl, hcr⟩
        exact ⟨_, rfl, hcr, rfl, rfl⟩
    · rw [Function.update_of_ne hne]
      exact ⟨fun ho => absurd (honly o t buf ho) hne, fun ho => absurd ho.1 hne⟩
  have hput : (s.write g k c).put = Function.update s.put c.channel (s.put c.channel ++ p.out) := by
    rw [TtyWrites.write, hp]
  have htaken : (s.write g k c).taken =
      Function.update s.taken c.channel (s.taken c.channel ++ p.taken) := by
    rw [TtyWrites.write, hp]
  have hcr : (s.write g k c).crFlag = p.crFlag := by
    rw [TtyWrites.write, hp]
  refine ⟨fun o t buf ho => ?_, fun hf => ?_, fun o t buf o' t' buf' ho ho' => ?_,
    fun o t buf ho => ?_, fun t ht => ?_⟩
  · obtain ⟨-, rfl, rfl, hf⟩ := (hnew o t buf).mp ho
    exact ⟨hcr.trans hf, hrest hf⟩
  · exact ⟨k, c.channel, p.rest, (hnew _ _ _).mpr ⟨rfl, rfl, rfl, hcr.symm.trans hf⟩⟩
  · exact ((hnew o t buf).mp ho).1.trans ((hnew o' t' buf').mp ho').1.symm
  · obtain ⟨-, rfl, rfl, hf⟩ := (hnew o t buf).mp ho
    rw [hput, htaken, Function.update_self, Function.update_self, hafter, hf]
    rfl
  · rw [hput, htaken]
    rcases eq_or_ne t c.channel with rfl | hne
    · have hf : p.crFlag = false := by
        by_contra hf
        exact ht k p.rest ((hnew _ _ _).mpr ⟨rfl, rfl, rfl, by simpa using hf⟩)
      rw [Function.update_self, Function.update_self, hafter, hf]
      exact List.append_nil _
    · rw [Function.update_of_ne hne, Function.update_of_ne hne]
      refine h.exact t fun o buf ho => ?_
      obtain rfl := honly o t buf ho
      exact hne (hhalf t buf ho).1

theorem CleanStep.translating (h : Translating g s) (hstep : s.CleanStep g s') :
    Translating g s' := by
  obtain ⟨e, hclean, hnext⟩ := hstep
  cases e with
  | start k channel buf =>
    rw [next] at hnext
    split at hnext
    · cases hnext
    · next hc =>
      cases hnext
      refine h.congr rfl rfl rfl (half_setCall ?_ ?_)
      · rintro t buf ⟨c, hc', -⟩
        rw [hc] at hc'
        cases hc'
      · rintro c hc'
        cases hc'
        rfl
  | change t q =>
    cases hnext
    exact h.congr rfl rfl rfl fun _ _ _ => Iff.rfl
  | step k signal =>
    rw [next] at hnext
    split at hnext
    · cases hnext
    · next c hc =>
      have hreturn : (∀ t buf, ¬s.Half k t buf) → Translating g (s.setCall k none) := fun hhalf =>
        h.congr rfl rfl rfl (half_setCall hhalf fun _ hnone => absurd hnone (by simp))
      split_ifs at hnext with hnil hsignal hready
      · cases hnext
        refine hreturn fun t buf hk => ?_
        obtain ⟨c', l, hbuf, -⟩ := (h.newline k t buf hk).2
        rw [← (hk.call_eq hc).2.2, hnil] at hbuf
        cases hbuf
      · cases hnext
        refine hreturn fun t buf hk => ?_
        have hfalse := (hclean k t buf hk).1 rfl
        rw [hsignal] at hfalse
        cases hfalse
      · cases hnext
        refine h.write hc fun o t buf ho => ?_
        by_contra hne
        refine (hclean o t buf ho).2 (fun heq => hne heq.symm) ⟨c, hc, hnil, ?_, hready⟩
        simpa using hsignal
      · cases hnext
        exact h.congr rfl rfl rfl (half_sleep hc)

omit [DecidableEq κ] in
/-- Without `cr_flag` every step is clean. -/
theorem Translating.clean (h : Translating g s) (hflag : s.crFlag = false) (e : WriteEvent κ) :
    s.Clean e := by
  cases e with
  | step k signal =>
    intro o t buf ho
    rw [(h.newline o t buf ho).1] at hflag
    cases hflag
  | start k channel buf => trivial
  | change t q => trivial

theorem translating_of_reachable (h : Reachable Start (CleanStep g) s) : Translating g s :=
  h.invariant (fun _ hs => hs.translating) fun _ _ hs hstep => hstep.translating hs

end Invariant

/-- In every run of clean steps, the characters queued on a terminal whose calls have all returned
are the translation of the bytes that they have written, whatever is written to the others. -/
theorem put_eq_translate {g : TtyConfig} {s : TtyWrites κ}
    (h : Reachable Start (CleanStep g) s) (t : Fin 3)
    (hdone : ∀ k c, s.call k = some c → c.channel ≠ t) :
    s.put t = (s.taken t).flatMap (g.translate (g.mode t)) := by
  refine (translating_of_reachable h).exact t fun k buf hk => ?_
  obtain ⟨c, hc, -, ht, -⟩ := hk
  exact hdone k c hc ht

/-! ### Two terminals -/

/-- `OPOST` and `ONLCR` on all terminals. -/
def onlcrConfig : TtyConfig := ⟨fun _ => ⟨true, false, false, true, false⟩, fun _ => false⟩

theorem zero_lt_three : 0 < 3 := by decide

theorem one_lt_three : 1 < 3 := by decide

theorem two_lt_size : 2 < 1024 := by decide

/-- Nothing is written yet, and there is room for one character on the first terminal. -/
def roomForOne : TtyWrites Bool where
  queue := Function.update (fun _ => .empty) ⟨0, zero_lt_three⟩
    { TtyQueue.empty with tail := ⟨2, two_lt_size⟩ }
  crFlag := false
  call _ := none
  put _ := []
  taken _ := []

theorem roomForOne_start : Start roomForOne := ⟨rfl, fun _ => rfl, fun _ => rfl, fun _ => rfl⟩

/-- A newline on the second terminal. -/
def newlineEvents : List (WriteEvent Bool) :=
  [.start true ⟨1, one_lt_three⟩ [10], .step true false, .step true false]

/-- The state after a newline on the second terminal. -/
def afterNewline : TtyWrites Bool :=
  (runEvents (next onlcrConfig) roomForOne newlineEvents).getD roomForOne

theorem put_afterNewline : afterNewline.put 1 = [13, 10] := by
  have hstep : ∀ {s : TtyWrites Bool}, Reachable Start (CleanStep onlcrConfig) s →
      s.crFlag = false → ∀ e s', s.next onlcrConfig e = some s' →
      Reachable Start (CleanStep onlcrConfig) s' := fun h hflag e s' hnext =>
    h.tail ⟨e, (translating_of_reachable h).clean hflag e, hnext⟩
  have h₁ := hstep (.of_init roomForOne_start) rfl (.start true 1 [10]) _ rfl
  have h₂ := hstep h₁ rfl (.step true false) _ rfl
  have h₃ : Reachable Start (CleanStep onlcrConfig) afterNewline :=
    hstep h₂ rfl (.step true false) _ rfl
  rw [put_eq_translate h₃ 1]
  · decide
  · intro k c hc
    have hnone : afterNewline.call k = none := by
      cases k with
      | false => decide
      | true => decide
    rw [hnone] at hc
    cases hc

/-- A newline is written on the first terminal, which is full after its carriage return, and one
on the second terminal before the first call goes on. -/
def newlinesEvents : List (WriteEvent Bool) :=
  [.start false ⟨0, zero_lt_three⟩ [10], .step false false] ++ newlineEvents ++
    [.change ⟨0, zero_lt_three⟩ .empty, .step false false, .step false false]

/-- The state after the two newlines. -/
def afterNewlines : TtyWrites Bool :=
  (runEvents (next onlcrConfig) roomForOne newlinesEvents).getD roomForOne

/-- The first terminal gets two carriage returns, and the second one gets none. -/
theorem put_afterNewlines : runEvents (next onlcrConfig) roomForOne newlinesEvents =
      some afterNewlines ∧ (∀ k, afterNewlines.call k = none) ∧
    (afterNewlines.taken 0 = [10] ∧ afterNewlines.put 0 = [13, 13, 10]) ∧
    (afterNewlines.taken 1 = [10] ∧ afterNewlines.put 1 = [10]) ∧
    ∀ t, [10].flatMap (onlcrConfig.translate (onlcrConfig.mode t)) = [13, 10] := by
  refine ⟨rfl, ?_, by decide, by decide, by decide⟩
  intro k
  cases k with
  | false => decide
  | true => decide

end TtyWrites

end LihaLinux.Tty
