import Mathlib.Algebra.BigOperators.Group.Finset.Basic
import Mathlib.Algebra.Order.BigOperators.Group.Finset

/-!
# Weighted quorums

Members carry weights; a quorum is a set of members whose weight reaches a threshold.  Two sets
of members of `u` share at least the weight by which their weights together pass that of `u`
(`weight_add_weight_le`).  With the two-thirds threshold `twoThirds T = 2T/3 + 1` of a total
weight `T`, two quorums share more than the weight `T - twoThirds T` that may be faulty
(`twoThirds_inter`), and so two quorums are never disjoint (`not_disjoint_twoThirds`).
-/

namespace Quorum

open Finset

variable {α : Type} (w : α → ℕ)

/-- The weight of a set of members. -/
def weight (s : Finset α) : ℕ := ∑ a ∈ s, w a

theorem weight_eq_sum (s : Finset α) : weight w s = ∑ a ∈ s, w a := rfl

/-- The two-thirds threshold of a total weight. -/
def twoThirds (total : ℕ) : ℕ := total * 2 / 3 + 1

theorem weight_le_weight {s u : Finset α} (h : s ⊆ u) : weight w s ≤ weight w u :=
  sum_le_sum_of_subset h

variable [DecidableEq α]

/-- Two sets of members of `u` share the weight by which their weights pass that of `u`. -/
theorem weight_add_weight_le {s t u : Finset α} (hs : s ⊆ u) (ht : t ⊆ u) :
    weight w s + weight w t ≤ weight w u + weight w (s ∩ t) := by
  have hunion : weight w (s ∪ t) ≤ weight w u := weight_le_weight w (union_subset hs ht)
  have hsplit : weight w (s ∪ t) + weight w (s ∩ t) = weight w s + weight w t := sum_union_inter
  omega

/-- Three two-thirds thresholds pass twice the total. -/
theorem two_mul_lt_three_mul_twoThirds (total : ℕ) : 2 * total < 3 * twoThirds total := by
  unfold twoThirds
  omega

/-- Two quorums of the two-thirds threshold share more than the weight outside a quorum. -/
theorem twoThirds_inter {s t u : Finset α} (hs : s ⊆ u) (ht : t ⊆ u)
    (hsq : twoThirds (weight w u) ≤ weight w s) (htq : twoThirds (weight w u) ≤ weight w t) :
    weight w u - twoThirds (weight w u) + 1 ≤ weight w (s ∩ t) := by
  have hshare := weight_add_weight_le w hs ht
  have hthird := two_mul_lt_three_mul_twoThirds (weight w u)
  omega

/-- Two quorums of the two-thirds threshold are never disjoint. -/
theorem not_disjoint_twoThirds {s t u : Finset α} (hs : s ⊆ u) (ht : t ⊆ u)
    (hsq : twoThirds (weight w u) ≤ weight w s) (htq : twoThirds (weight w u) ≤ weight w t) :
    ¬ Disjoint s t := by
  intro hdisj
  have hshare := twoThirds_inter w hs ht hsq htq
  have hempty : weight w (s ∩ t) = 0 := by
    rw [disjoint_iff_inter_eq_empty.mp hdisj]
    rfl
  have hle : weight w s ≤ weight w u := weight_le_weight w hs
  unfold twoThirds at hsq hshare
  omega

end Quorum
