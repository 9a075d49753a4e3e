import Mathlib.Data.Option.Basic

/-!
# Iterators that may panic

An iterator of the source is its state and its `next`, which here returns `none` for a panic
(a failed assertion, an overflow, an index out of bounds), and otherwise the item, or `None` at
the end, with the state after the call.  `collect` is what a `for` loop or `Iterator::collect`
receives, within a number of calls of `next` given as fuel.

`collect_succ_of_yield` and `collect_succ_of_done` unfold one call, so that a proof about a whole
run is an induction on the fuel with one step lemma of the iterator at each call.
-/

namespace Iter

variable {σ α : Type}

/-- The items of an iterator, in at most `fuel` calls of `next`; `none` is a panic, or running out
of fuel. -/
def collect (next : σ → Option (Option α × σ)) : Nat → σ → Option (List α)
  | 0, _ => none
  | fuel + 1, s =>
    match next s with
    | none => none
    | some (none, _) => some []
    | some (some a, s') => (collect next fuel s').map (a :: ·)

theorem collect_succ (next : σ → Option (Option α × σ)) (fuel : Nat) (s : σ) :
    collect next (fuel + 1) s =
      match next s with
      | none => none
      | some (none, _) => some []
      | some (some a, s') => (collect next fuel s').map (a :: ·) := rfl

section Steps

variable {next : σ → Option (Option α × σ)} {fuel : Nat} {s s' : σ}

theorem collect_succ_of_done (h : next s = some (none, s')) : collect next (fuel + 1) s = some [] := by
  rw [collect_succ, h]

theorem collect_succ_of_yield {a : α} (h : next s = some (some a, s')) :
    collect next (fuel + 1) s = (collect next fuel s').map (a :: ·) := by
  rw [collect_succ, h]

end Steps

end Iter
