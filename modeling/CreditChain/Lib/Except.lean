import Mathlib.Tactic.Common

/-!
# Peeling `Except` computations

Inversion lemmas for `bind`, `map` and `mapError` in the `Except` monad, and `ensure`, the
`ensure!` of `anyhow`.  A function written with
`do` and `?`-style early returns is taken apart with them by `obtain`, one bind at a time, instead
of unfolding the monad in every proof.
-/

namespace Except

variable {ε ε' α β : Type}

theorem bind_eq_ok {x : Except ε α} {f : α → Except ε β} {b : β} :
    x >>= f = .ok b ↔ ∃ a, x = .ok a ∧ f a = .ok b := by
  cases x with
  | error e => simp [bind, Except.bind]
  | ok a => simp [bind, Except.bind]

theorem bind_eq_error {x : Except ε α} {f : α → Except ε β} {e : ε} :
    x >>= f = .error e ↔ x = .error e ∨ ∃ a, x = .ok a ∧ f a = .error e := by
  cases x with
  | error e => simp [bind, Except.bind]
  | ok a => simp [bind, Except.bind]

@[simp] theorem ok_bind {a : α} {f : α → Except ε β} : (Except.ok a : Except ε α) >>= f = f a := rfl

@[simp] theorem error_bind {e : ε} {f : α → Except ε β} :
    (Except.error e : Except ε α) >>= f = .error e := rfl

@[simp] theorem throw_eq_error {e : ε} : (throw e : Except ε α) = .error e := rfl

@[simp] theorem pure_eq_ok {a : α} : (pure a : Except ε α) = .ok a := rfl

@[simp] theorem mapError_ok {g : ε → ε'} {a : α} : (Except.ok a : Except ε α).mapError g = .ok a := rfl

@[simp] theorem mapError_error {g : ε → ε'} {e : ε} :
    (Except.error e : Except ε α).mapError g = .error (g e) := rfl

@[simp] theorem ok_map {f : α → β} {a : α} : (Except.ok a : Except ε α).map f = .ok (f a) := rfl

@[simp] theorem error_map {f : α → β} {e : ε} : (Except.error e : Except ε α).map f = .error e := rfl

@[simp] theorem toOption_ok {a : α} : (Except.ok a : Except ε α).toOption = some a := rfl

@[simp] theorem toOption_error {e : ε} : (Except.error e : Except ε α).toOption = none := rfl

/-- A constructor mapped over a result is `ok` of it exactly when the result is `ok`. -/
theorem map_ok_inj {f : α → β} (hf : Function.Injective f) {x : Except ε α} {a : α}
    (h : x.map f = .ok (f a)) : x = .ok a := by
  cases x with
  | error e => cases h
  | ok b => simp only [ok_map, Except.ok.injEq] at h; rw [hf h]

theorem mapError_eq_ok {x : Except ε α} {g : ε → ε'} {a : α} : x.mapError g = .ok a ↔ x = .ok a := by
  cases x <;> simp

theorem mapError_eq_error {x : Except ε α} {g : ε → ε'} {e : ε'} :
    x.mapError g = .error e ↔ ∃ e₀, x = .error e₀ ∧ g e₀ = e := by
  cases x <;> simp

theorem map_eq_ok {x : Except ε α} {f : α → β} {b : β} :
    f <$> x = .ok b ↔ ∃ a, x = .ok a ∧ f a = b := by
  cases x with
  | error e => simp [Functor.map, Except.map]
  | ok a => simp [Functor.map, Except.map]

/-- `ensure!`: fail with `e` unless `c` holds. -/
def ensure (c : Prop) [Decidable c] (e : ε) : Except ε Unit :=
  if c then .ok () else .error e

@[simp] theorem ensure_eq_ok {c : Prop} [Decidable c] {e : ε} : ensure c e = .ok () ↔ c := by
  unfold ensure
  split_ifs with h <;> simp [h]

theorem ensure_bind_eq_ok {c : Prop} [Decidable c] {e : ε} {f : Unit → Except ε α} {a : α} :
    ensure c e >>= f = .ok a ↔ c ∧ f () = .ok a := by
  rw [bind_eq_ok]
  constructor
  · rintro ⟨⟨⟩, hc, hf⟩
    exact ⟨Iff.mp ensure_eq_ok hc, hf⟩
  · rintro ⟨hc, hf⟩
    exact ⟨(), Iff.mpr ensure_eq_ok hc, hf⟩

end Except
