import LihaLinux.Lib.Prog

/-!
# Programs that own resources

An account `I k R s` says what a state looks like in which the resources `R` are held; `k` is
what it is compared with. A program that starts with some resources ends with others, and does
so whatever else is held. The rules below follow the text of a program, so that every function
gets a type that says what it takes and what it gives back.
-/

namespace LihaLinux

/-- A program that starts with the resources `pre` ends with the resources `post` of its
result, or with an error that satisfies `E`. -/
structure Owns {σ ε τ κ α : Type} (I : κ → List τ → σ → Prop) (E : κ → ε → σ → Prop)
    (m : Prog σ ε α) (pre : List τ) (post : α → List τ) : Prop where
  run : ∀ k R s, I k (pre ++ R) s → m.wp (fun a s' => I k (post a ++ R) s') (E k) s

namespace Owns

variable {σ ε τ κ α β : Type} {I : κ → List τ → σ → Prop} {E : κ → ε → σ → Prop}
  {m : Prog σ ε α} {f : α → Prog σ ε β} {pre X : List τ} {mid : α → List τ} {post : β → List τ}

theorem pure {a : β} (h : pre = post a) : Owns I E (Pure.pure a : Prog σ ε β) pre post := by
  constructor
  intro k R s hs
  rw [h] at hs
  exact hs

theorem bind (hm : Owns I E m pre mid) (hf : ∀ a, Owns I E (f a) (mid a) post) :
    Owns I E (m >>= f) pre post :=
  ⟨fun k R s h => (hm.run k R s h).bind fun a s' h' => (hf a).run k R s' h'⟩

/-- The resources that a program does not use stay where they are. -/
theorem frame (hm : Owns I E m pre mid) (X : List τ) :
    Owns I E m (pre ++ X) fun a => mid a ++ X := by
  constructor
  intro k R s h
  rw [List.append_assoc] at h
  refine (hm.run k (X ++ R) s h).mono (fun a s' h' => ?_) fun _ _ he => he
  rw [List.append_assoc]
  exact h'

/-- A program that gives everything back can be run with any resources. -/
theorem keep (hm : Owns I E m [] fun _ => []) : Owns I E m X fun _ => X := hm.frame X

/-- A program that gives everything back is followed by another one. -/
theorem next (hm : Owns I E m [] fun _ => []) (hf : ∀ a, Owns I E (f a) X post) :
    Owns I E (m >>= f) X post := hm.keep.bind hf

/-- The order of the resources does not matter to a program if it does not matter to the
account. -/
theorem perm {pre' : List τ} (hI : ∀ k R R' s, R.Perm R' → I k R s → I k R' s)
    (hm : Owns I E m pre' mid) (h : pre.Perm pre') : Owns I E m pre mid :=
  ⟨fun k R s hs => hm.run k R s (hI k _ _ s (h.append_right R) hs)⟩

/-- A program that gives back what it takes can be run with it among others. -/
theorem among [DecidableEq τ] {i : τ} (hI : ∀ k R R' s, R.Perm R' → I k R s → I k R' s)
    (hm : Owns I E m [i] fun _ => [i]) (hi : i ∈ X) : Owns I E m X fun _ => X := by
  have hperm : X.Perm ([i] ++ X.erase i) := List.perm_cons_erase hi
  refine ⟨fun k R s hs => ?_⟩
  refine (((hm.frame (X.erase i)).perm hI hperm).run k R s hs).mono (fun a s' h' => ?_)
    fun _ _ he => he
  exact hI k _ _ s' (hperm.symm.append_right R) h'

theorem ite {p : Prop} [Decidable p] {m m' : Prog σ ε α} (h : p → Owns I E m pre mid)
    (h' : ¬p → Owns I E m' pre mid) : Owns I E (if p then m else m') pre mid := by
  split_ifs with hp
  · exact h hp
  · exact h' hp

theorem when {p : Prop} [Decidable p] {m : Prog σ ε Unit}
    (h : p → Owns I E m X fun _ => X) : Owns I E (Prog.when p m) X fun _ => X :=
  ite h fun _ => pure rfl

theorem read (g : σ → α) : Owns I E (Prog.read g : Prog σ ε α) [] fun _ => [] := ⟨fun _ _ _ h => h⟩

theorem fail {e : ε} (he : ∀ k s, E k e s) : Owns I E (Prog.fail e : Prog σ ε α) pre mid :=
  ⟨fun k _ s _ => he k s⟩

/-- A change of the state that the account does not see. -/
theorem update {g : σ → σ} (hg : ∀ k R s, I k R s → I k R (g s)) :
    Owns I E (Prog.update g : Prog σ ε Unit) [] fun _ => [] :=
  ⟨fun k R s h => hg k R s h⟩

/-- The result of a program is dropped. -/
theorem unit (hm : Owns I E m pre fun _ => []) :
    Owns I E (m >>= fun _ => Pure.pure ()) pre fun _ => [] := hm.bind fun _ => pure rfl

end Owns

end LihaLinux
