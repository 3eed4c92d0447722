import DenseNumeric.Error

/-!
# Successful results

An operation that may fail is written as a sequence of steps: results that
later steps use, and checks that let the rest go on. For each kind of step
there is one lemma that says when the whole gives a certain result, so that a
proof takes an operation apart in the order in which it is written.
-/

namespace DenseNumeric

variable {ε α β : Type}

/-- A result that comes by way of another. -/
theorem bind_eq_ok {x : Except ε α} {f : α → Except ε β} {b : β} :
    x >>= f = .ok b ↔ ∃ a, x = .ok a ∧ f a = .ok b := by
  cases x with
  | error e =>
      constructor
      · intro h
        cases h
      · rintro ⟨a, h, -⟩
        cases h
  | ok a =>
      constructor
      · exact fun h => ⟨a, rfl, h⟩
      · rintro ⟨a', h, h'⟩
        cases h
        exact h'

theorem pure_eq_ok {a b : α} : (pure a : Except ε α) = .ok b ↔ a = b :=
  ⟨Except.ok.inj, congrArg _⟩

/-- A check that stands before the rest. -/
theorem check_eq_ok {c : Prop} [Decidable c] {e : ε} {x : Except ε α} {b : α} :
    (do if c then throw e
        x) = .ok b ↔ ¬c ∧ x = .ok b := by
  by_cases h : c
  · simp [h, throw, throwThe, MonadExceptOf.throw, bind, Except.bind]
  · simp [h]

/-- No result is a failure. -/
theorem not_exists_ok_iff {x : Except ε α} : (¬∃ a, x = .ok a) ↔ ∃ e, x = .error e := by
  cases x with
  | error e => simp
  | ok a => simp

theorem toOption_eq_some {x : Except ε α} {a : α} : x.toOption = some a ↔ x = .ok a := by
  cases x <;> simp [Except.toOption]

theorem map_eq_ok {x : Except ε α} {f : α → β} {b : β} :
    x.map f = .ok b ↔ ∃ a, x = .ok a ∧ f a = b := by
  cases x with
  | error e => simp [Except.map]
  | ok a => simp [Except.map]

theorem map_eq_error {x : Except ε α} {f : α → β} {e : ε} : x.map f = .error e ↔ x = .error e := by
  cases x <;> simp [Except.map]

theorem map_map {γ : Type} (x : Except ε α) (f : α → β) (g : β → γ) :
    (x.map f).map g = x.map fun a => g (f a) := by
  cases x <;> rfl

/-- A check that two operations have in common does not tell them apart. -/
theorem map_check_congr {γ : Type} {c : Prop} [Decidable c] {e : ε} {x : Except ε α}
    {y : Except ε β} {f : α → γ} {g : β → γ} (h : x.map f = y.map g) :
    (do if c then throw e
        x).map f = (do if c then throw e
                       y).map g := by
  by_cases hc : c
  · simp [hc, throw, throwThe, MonadExceptOf.throw, bind, Except.bind, Except.map]
  · simpa [hc] using h

/-- An operation that gives `g x` if `p x` holds, and fails if not, gives a list
of results if `p` holds of all elements. -/
theorem mapM_eq_ok_iff {f : α → Except ε β} {p : α → Prop} {g : α → β}
    (h : ∀ x y, f x = .ok y ↔ p x ∧ g x = y) {xs : List α} {ys : List β} :
    xs.mapM f = .ok ys ↔ (∀ x ∈ xs, p x) ∧ xs.map g = ys := by
  induction xs generalizing ys with
  | nil => simp [pure_eq_ok]
  | cons x xs ih =>
      simp only [List.mapM_cons, bind_eq_ok, h, ih, pure_eq_ok, List.forall_mem_cons, List.map_cons]
      constructor
      · rintro ⟨_, ⟨hx, rfl⟩, _, ⟨hxs, rfl⟩, rfl⟩
        exact ⟨⟨hx, hxs⟩, rfl⟩
      · rintro ⟨⟨hx, hxs⟩, rfl⟩
        exact ⟨_, ⟨hx, rfl⟩, _, ⟨hxs, rfl⟩, rfl⟩

end DenseNumeric
