/-!
# Answers of a sequence of steps

A sequence of steps answers only if every step does.  `except_bind_eq_ok` and
`except_bind_eq_error` take a sequence apart at its first step, for steps without a
state, and `bind_eq_ok` and `bind_eq_error` for steps with one.

Giving the errors of a sequence another form is giving those of each step another form
(`mapError_bind`, `adaptExcept_bind`).

`Leaves x s s'` forgets the answer and keeps the state.  `bind_leaves` takes it apart
like the two others, and `eq_of_leaves_ok` and `eq_of_leaves_error` say that there is
one such state only.

`Keeps x y` says that `y` gives the answer of `x` whenever there is one.  It is a
congruence for sequences (`Keeps.bind`).
-/

namespace X86Listing

/-! ## The first step -/

theorem except_ok_bind {ε α β : Type} (a : α) (f : α → Except ε β) :
    (Except.ok a >>= f) = f a := rfl

theorem except_bind_eq_ok {ε α β : Type} {x : Except ε α} {f : α → Except ε β} {b : β}
    (h : (x >>= f) = .ok b) : ∃ a, x = .ok a ∧ f a = .ok b := by
  cases x with
  | error e => cases h
  | ok a => exact ⟨a, rfl, h⟩

theorem except_map_eq_ok_iff {ε α β : Type} {x : Except ε α} {f : α → β} {b : β} :
    x.map f = .ok b ↔ ∃ a, x = .ok a ∧ b = f a := by
  cases x <;> simp [Except.map, eq_comm]

theorem except_bind_eq_error {ε α β : Type} {x : Except ε α} {f : α → Except ε β} {e : ε}
    (h : (x >>= f) = .error e) : x = .error e ∨ ∃ a, x = .ok a ∧ f a = .error e := by
  cases x with
  | error e' =>
    cases h
    exact Or.inl rfl
  | ok a => exact Or.inr ⟨a, rfl, h⟩

theorem mapError_eq_ok {ε ε' α : Type} {f : ε → ε'} {x : Except ε α} {a : α}
    (h : x.mapError f = .ok a) : x = .ok a := by
  cases x with
  | error e => cases h
  | ok b => exact congrArg Except.ok (Except.ok.inj h)

theorem mapError_eq_error {ε ε' α : Type} {f : ε → ε'} {x : Except ε α} {e : ε'}
    (h : x.mapError f = .error e) : ∃ cause, x = .error cause ∧ f cause = e := by
  cases x with
  | error cause => exact ⟨cause, rfl, Except.error.inj h⟩
  | ok a => cases h

theorem toOption_eq_some {ε α : Type} {x : Except ε α} {a : α} (h : x.toOption = some a) :
    x = .ok a := by
  cases x with
  | error e => cases h
  | ok b => exact congrArg Except.ok (Option.some.inj h)

/-- A step that reads the state answers with it. -/
theorem get_eq_ok {ε σ : Type} (s : σ) : (get : EStateM ε σ σ) s = .ok s s := rfl

theorem bind_eq_ok {ε σ α β : Type} {x : EStateM ε σ α} {f : α → EStateM ε σ β}
    {s s' : σ} {b : β} (h : (x >>= f) s = .ok b s') :
    ∃ a s₁, x s = .ok a s₁ ∧ f a s₁ = .ok b s' := by
  change EStateM.bind x f s = .ok b s' at h
  unfold EStateM.bind at h
  split at h
  · next a s₁ hx => exact ⟨a, s₁, hx, h⟩
  · cases h

theorem bind_eq_error {ε σ α β : Type} {x : EStateM ε σ α} {f : α → EStateM ε σ β}
    {s s' : σ} {e : ε} (h : (x >>= f) s = .error e s') :
    x s = .error e s' ∨ ∃ a s₁, x s = .ok a s₁ ∧ f a s₁ = .error e s' := by
  change EStateM.bind x f s = .error e s' at h
  unfold EStateM.bind at h
  split at h
  · next a s₁ hx => exact Or.inr ⟨a, s₁, hx, h⟩
  · next hx =>
    cases h
    exact Or.inl hx

/-! ## Other errors -/

theorem mapError_bind {ε ε' α β : Type} (f : ε → ε') (x : Except ε α) (g : α → Except ε β) :
    (x >>= g).mapError f = x.mapError f >>= fun a => (g a).mapError f := by
  cases x <;> rfl

theorem mapError_mapError {ε ε' ε'' α : Type} (f : ε → ε') (f' : ε' → ε'') (x : Except ε α) :
    (x.mapError f).mapError f' = x.mapError fun e => f' (f e) := by
  cases x <;> rfl

theorem adaptExcept_bind {ε ε' σ α β : Type} (f : ε → ε') (x : EStateM ε σ α)
    (g : α → EStateM ε σ β) :
    (x >>= g).adaptExcept f = x.adaptExcept f >>= fun a => (g a).adaptExcept f := by
  funext s
  simp only [EStateM.adaptExcept, bind, EStateM.bind]
  cases x s <;> rfl

/-! ## The state afterwards -/

/-- The computation leaves a state, with an answer or an error. -/
def Leaves {ε σ α : Type} (x : EStateM ε σ α) (s s' : σ) : Prop :=
  (∃ a, x s = .ok a s') ∨ ∃ e, x s = .error e s'

theorem eq_of_leaves_ok {ε σ α : Type} {x : EStateM ε σ α} {s s₁ s' : σ} {a : α}
    (hx : x s = .ok a s₁) (h : Leaves x s s') : s' = s₁ := by
  rcases h with ⟨b, hb⟩ | ⟨e, he⟩
  · rw [hx] at hb
    cases hb
    rfl
  · rw [hx] at he
    cases he

theorem eq_of_leaves_error {ε σ α : Type} {x : EStateM ε σ α} {s s₁ s' : σ} {e : ε}
    (hx : x s = .error e s₁) (h : Leaves x s s') : s' = s₁ := by
  rcases h with ⟨a, ha⟩ | ⟨e', he⟩
  · rw [hx] at ha
    cases ha
  · rw [hx] at he
    cases he
    rfl

theorem bind_leaves {ε σ α β : Type} {x : EStateM ε σ α} {f : α → EStateM ε σ β} {s s' : σ}
    (h : Leaves (x >>= f) s s') : Leaves x s s' ∨ ∃ a s₁, x s = .ok a s₁ ∧ Leaves (f a) s₁ s' := by
  rcases h with ⟨b, hb⟩ | ⟨e, he⟩
  · obtain ⟨a, s₁, hx, hf⟩ := bind_eq_ok hb
    exact Or.inr ⟨a, s₁, hx, Or.inl ⟨b, hf⟩⟩
  · rcases bind_eq_error he with hx | ⟨a, s₁, hx, hf⟩
    · exact Or.inl (Or.inr ⟨e, hx⟩)
    · exact Or.inr ⟨a, s₁, hx, Or.inr ⟨e, hf⟩⟩

/-! ## Answers that stay -/

/-- Whatever the first computation answers, the second one answers too. -/
def Keeps {ε α : Type} (x y : Except ε α) : Prop :=
  ∀ a, x = .ok a → y = .ok a

namespace Keeps

variable {ε α β : Type}

theorem refl (x : Except ε α) : Keeps x x :=
  fun _ h => h

theorem error (e : ε) (y : Except ε α) : Keeps (.error e) y :=
  fun _ h => by cases h

theorem bind {x y : Except ε α} {f g : α → Except ε β} (h : Keeps x y)
    (k : ∀ a, Keeps (f a) (g a)) : Keeps (x >>= f) (y >>= g) := by
  intro b hb
  cases hx : x with
  | error e =>
    rw [hx] at hb
    cases hb
  | ok a =>
    rw [hx] at hb
    rw [h a hx]
    exact k a b hb

theorem map {x y : Except ε α} (f : α → β) (h : Keeps x y) : Keeps (x.map f) (y.map f) := by
  intro b hb
  cases hx : x with
  | error e =>
    rw [hx] at hb
    cases hb
  | ok a =>
    rw [h a hx]
    rwa [hx] at hb

theorem ite {c : Prop} [Decidable c] {x x' y y' : Except ε α} (h : Keeps x y)
    (h' : Keeps x' y') : Keeps (if c then x else x') (if c then y else y') := by
  split
  · exact h
  · exact h'

end Keeps

end X86Listing
