import Mathlib.Data.Nat.Notation
import Mathlib.Tactic.Common

/-!
# Programs on a state

A program reads and changes a state, and ends with a value or with an error, after which
nothing more happens. `wp m Q E s` says that `m`, started in `s`, ends with a value and a
state that satisfy `Q`, or with an error and a state that satisfy `E`. The rules below take a
program apart along its binds; a function is used through its own specification by `wp.mono`.
-/

namespace LihaLinux

/-- A program on states `σ` with errors `ε` and results `α`. -/
def Prog (σ ε α : Type) : Type := σ → Except (ε × σ) (α × σ)

namespace Prog

variable {σ ε α β : Type}

/-- Run a program and go on with its result, unless it has ended with an error. -/
def andThen (m : Prog σ ε α) (f : α → Prog σ ε β) : Prog σ ε β := fun s =>
  match m s with
  | .ok (a, s') => f a s'
  | .error e => .error e

instance : Monad (Prog σ ε) where
  pure a := fun s => .ok (a, s)
  bind := andThen

/-- A value computed from the state. -/
def read (f : σ → α) : Prog σ ε α := fun s => .ok (f s, s)

/-- A change of the state. -/
def update (f : σ → σ) : Prog σ ε Unit := fun s => .ok ((), f s)

/-- The end of everything. -/
def fail (e : ε) : Prog σ ε α := fun s => .error (e, s)

/-- A program that is run under a condition only. -/
def when (c : Prop) [Decidable c] (m : Prog σ ε Unit) : Prog σ ε Unit :=
  if c then m else pure ()

/-- What is known of the end of a program that starts in a state. -/
def wp (m : Prog σ ε α) (Q : α → σ → Prop) (E : ε → σ → Prop) (s : σ) : Prop :=
  match m s with
  | .ok (a, s') => Q a s'
  | .error (e, s') => E e s'

variable {m : Prog σ ε α} {f : α → Prog σ ε β} {Q Q' : α → σ → Prop} {R : β → σ → Prop}
  {E E' : ε → σ → Prop} {s : σ}

@[simp]
theorem wp_pure (a : α) : wp (pure a : Prog σ ε α) Q E s ↔ Q a s := Iff.rfl

@[simp]
theorem wp_read (g : σ → α) : wp (read g : Prog σ ε α) Q E s ↔ Q (g s) s := Iff.rfl

@[simp]
theorem wp_update (g : σ → σ) {Q : Unit → σ → Prop} :
    wp (update g : Prog σ ε Unit) Q E s ↔ Q () (g s) := Iff.rfl

@[simp]
theorem wp_fail (e : ε) : wp (fail e : Prog σ ε α) Q E s ↔ E e s := Iff.rfl

@[simp]
theorem wp_bind : wp (m >>= f) R E s ↔ wp m (fun a s' => wp (f a) R E s') E s := by
  simp only [wp, bind, andThen]
  cases m s <;> rfl

@[simp]
theorem wp_map (g : α → β) :
    wp (g <$> m) R E s ↔ wp m (fun a s' => R (g a) s') E s := by
  change wp (m >>= fun a => pure (g a)) R E s ↔ _
  rw [wp_bind]
  rfl

@[simp]
theorem wp_ite {p : Prop} [Decidable p] {m' : Prog σ ε α} :
    wp (if p then m else m') Q E s ↔ (p → wp m Q E s) ∧ (¬p → wp m' Q E s) := by
  split_ifs with h <;> simp [h]

@[simp]
theorem wp_when {c : Prop} [Decidable c] {m : Prog σ ε Unit} {Q : Unit → σ → Prop} :
    wp (when c m) Q E s ↔ (c → wp m Q E s) ∧ (¬c → Q () s) := wp_ite

/-- More may be known of the end. -/
theorem wp.mono (h : wp m Q E s) (hQ : ∀ a s', Q a s' → Q' a s') (hE : ∀ e s', E e s' → E' e s') :
    wp m Q' E' s := by
  unfold wp at h ⊢
  cases hm : m s with
  | ok p =>
    rw [hm] at h
    exact hQ _ _ h
  | error p =>
    rw [hm] at h
    exact hE _ _ h

/-- The rule for a function with a specification that is followed by something else. -/
theorem wp.bind (h : wp m Q E s) (hf : ∀ a s', Q a s' → wp (f a) R E s') :
    wp (m >>= f) R E s := by
  rw [wp_bind]
  exact h.mono hf fun _ _ he => he

/-- Two facts about the end of a program. -/
theorem wp.and (h : wp m Q E s) (h' : wp m Q' E' s) :
    wp m (fun a s' => Q a s' ∧ Q' a s') (fun e s' => E e s' ∧ E' e s') s := by
  unfold wp at h h' ⊢
  cases hm : m s with
  | ok p =>
    rw [hm] at h h'
    exact ⟨h, h'⟩
  | error e =>
    rw [hm] at h h'
    exact ⟨h, h'⟩

/-- What is known of the end holds of the end. -/
theorem wp.of_ok {a : α} {s' : σ} (h : wp m Q E s) (hm : m s = .ok (a, s')) : Q a s' := by
  unfold wp at h
  rw [hm] at h
  exact h

/-- What is known of an error holds of the error. -/
theorem wp.of_error {e : ε} {s' : σ} (h : wp m Q E s) (hm : m s = .error (e, s')) :
    E e s' := by
  unfold wp at h
  rw [hm] at h
  exact h

/-- To know the end of a program, look at its result. -/
theorem wp.intro (hQ : ∀ a s', m s = .ok (a, s') → Q a s')
    (hE : ∀ e s', m s = .error (e, s') → E e s') : wp m Q E s := by
  unfold wp
  cases hm : m s with
  | ok p => exact hQ _ _ hm
  | error p => exact hE _ _ hm

/-! ### Running -/

/-- A program is run, and then what follows it. -/
theorem bind_run {a : α} {s' : σ} (h : m s = .ok (a, s')) : (m >>= f) s = f a s' := by
  change (match m s with | .ok (a, s') => f a s' | .error e => .error e) = f a s'
  rw [h]

/-- Nothing is run after an error. -/
theorem bind_run_error {e : ε × σ} (h : m s = .error e) : (m >>= f) s = .error e := by
  change (match m s with | .ok (a, s') => f a s' | .error e => .error e) = .error e
  rw [h]

/-- Three programs one after the other. -/
theorem bind_assoc {γ : Type} {g : β → Prog σ ε γ} :
    m >>= f >>= g = m >>= fun a => f a >>= g := by
  funext s
  change andThen (andThen m f) g s = andThen m (fun a => andThen (f a) g) s
  simp only [andThen]
  cases m s <;> rfl

/-- Two programs that have been run one after the other, and then what follows them. -/
theorem bind_bind_run {γ : Type} {g : β → Prog σ ε γ} {b : β} {s' : σ}
    (h : (m >>= f) s = .ok (b, s')) : (m >>= fun a => f a >>= g) s = g b s' := by
  cases hm : m s with
  | ok p =>
    rw [bind_run hm] at h ⊢
    exact bind_run h
  | error e =>
    rw [bind_run_error hm] at h
    cases h

/-- A program that has ended well has run its parts. -/
theorem of_bind_run {b : β} {s'' : σ} (h : (m >>= f) s = .ok (b, s'')) :
    ∃ a s', m s = .ok (a, s') ∧ f a s' = .ok (b, s'') := by
  cases hm : m s with
  | ok p =>
    rw [bind_run hm] at h
    exact ⟨p.1, p.2, rfl, h⟩
  | error e =>
    rw [bind_run_error hm] at h
    cases h

/-- What is left to run after a read. -/
theorem read_run (g : σ → α) : (read g >>= f) s = f (g s) s := bind_run (rfl : read g s = _)

/-- What is left to run after an update. -/
theorem update_run (g : σ → σ) {f : Unit → Prog σ ε β} : (update g >>= f) s = f () (g s) :=
  bind_run (rfl : update g s = _)

/-- A program that ends with a value. -/
theorem wp_of_run {a : α} {s' : σ} (hm : m s = .ok (a, s')) (h : Q a s') : wp m Q E s := by
  unfold wp
  rwa [hm]

/-- A program that goes on like another one. -/
theorem wp_of_run_eq {m' : Prog σ ε α} {s' : σ} (hm : m s = m' s') (h : wp m' Q E s') :
    wp m Q E s := by
  unfold wp at h ⊢
  rwa [hm]

/-- What is known of a program that has run a part. -/
theorem wp_bind_of_run {a : α} {s' : σ} (hm : m s = .ok (a, s')) (h : wp (f a) R E s') :
    wp (m >>= f) R E s :=
  wp_of_run_eq (bind_run hm) h

/-- What is known of a program whose first part has ended with an error. -/
theorem wp_bind_of_error {e : ε} {s' : σ} (hm : m s = .error (e, s')) (h : E e s') :
    wp (m >>= f) R E s := by
  unfold wp
  rwa [bind_run_error hm]

end Prog

end LihaLinux
