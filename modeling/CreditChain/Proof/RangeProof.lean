import CreditChain.Proof.Definition
import CreditChain.Proof.Position

/-!
# Accumulator range proofs

`AccumulatorRangeProof::verify` of `proof/definition.rs`: the hashes of consecutive leaves are
combined level by level, each level's first hash with a sibling on the left when its position
is a right child and its last hash with a sibling on the right when one is left over, until one
hash is left and no sibling.  The loop walks `first_pos`, the position of each level's first
hash, up the tree with `Position::is_right_child` and `Position::parent`, which panic (`none`)
on a position outside the invariant `index < u64::MAX - 1`.

The loop terminates because each round takes the hashes, plus the siblings it uses, to fewer
parents (`levelUp_measure_lt`); the model recurses on that measure, with the level's hashes
never empty (`levelUp_ne_nil`).

`Position::from_leaf_index` shifts the leaf index's top bit out, so the index `2^63 - 1` names
the position `u64::MAX - 1`: `verify` panics there on two leaves and no siblings
(`verify_panics_at_top_leaf`).
-/

namespace CreditChain

/-- The failures of `ensure!` and `format_err!` in the range verifier, with the values their
messages print. -/
inductive RangeProofError (Hv : Type)
  /-- "first_leaf_index indicated empty list while leaf_hashes is not empty." -/
  | leavesWithoutFirstIndex
  /-- "No siblings are needed." -/
  | noSiblingsNeeded
  /-- "Proof has more than {} ({}) left siblings." -/
  | tooManyLeftSiblings (maxDepth siblings : Nat)
  /-- "Proof has more than {} ({}) right siblings." -/
  | tooManyRightSiblings (maxDepth siblings : Nat)
  /-- "leaf_hashes is empty while first_leaf_index indicated non-empty list." -/
  | noLeaves
  /-- "First child is a right child, but missing sibling on the left." -/
  | missingLeftSibling
  /-- "Last child is a left child, but missing sibling on the right." -/
  | missingRightSibling
  /-- "Root hashes do not match. Actual root hash: {:x}. Expected root hash: {:x}." -/
  | rootHashesDoNotMatch (actualRootHash expectedRootHash : Hv)
  deriving DecidableEq

/-- `AccumulatorRangeProof`: the siblings left of the path from the first leaf to the root and
right of the path from the last leaf, those near the root first. -/
structure AccumulatorRangeProof (Hv : Type) where
  leftSiblings : List Hv
  rightSiblings : List Hv

namespace AccumulatorRangeProof

variable {Hv : Type}

/-- `chunks_exact(2)` over a level's hashes, each pair hashed into its parent, and the
remainder. -/
def hashPairs (internal : Hv → Hv → Hv) : List Hv → List Hv × List Hv
  | leftHash :: rightHash :: rest =>
    let (parents, remainder) := hashPairs internal rest
    (internal leftHash rightHash :: parents, remainder)
  | remainder => ([], remainder)

/-- The rest of a round, after the first hash: `chunks_exact(2)` over the level's other hashes,
each pair hashed into its parent, and the hash left over, a left child, combined with a sibling on
the right. -/
def pairUp (internal : Hv → Hv → Hv) (parents children right : List Hv) :
    Option (Except (RangeProofError Hv) (List Hv × List Hv)) :=
  let (pairs, remainder) := hashPairs internal children
  -- `assert!(remainder.len() <= 1)`
  if remainder.length ≤ 1 then
    match remainder with
    | [] => some (.ok (parents ++ pairs, right))
    | leftHash :: _ =>
      match right with
      | [] => some (.error .missingRightSibling)
      | rightHash :: right => some (.ok (parents ++ pairs ++ [internal leftHash rightHash], right))
  else none

/-- One round of the loop of `verify`, once `is_right_child` has said whether the level's first
position is a right child: the parents of the level's hashes, and the siblings not yet used. -/
def levelUp (internal : Hv → Hv → Hv) (firstIsRightChild : Bool) (current left right : List Hv) :
    Option (Except (RangeProofError Hv) (List Hv × List Hv × List Hv)) :=
  -- the first hash, a right child, is combined with a sibling on the left
  let front : Option (Except (RangeProofError Hv) (List Hv × List Hv × List Hv)) :=
    if firstIsRightChild then
      match left with
      | [] => some (.error .missingLeftSibling)
      | leftHash :: left =>
        match current with
        | [] => none
        | rightHash :: children => some (.ok ([internal leftHash rightHash], children, left))
    else some (.ok ([], current, left))
  match front with
  | none => none
  | some (.error e) => some (.error e)
  | some (.ok (parents, children, left)) =>
    match pairUp internal parents children right with
    | none => none
    | some (.error e) => some (.error e)
    | some (.ok (parents, right)) => some (.ok (parents, left, right))

/-! ### One round -/

theorem hashPairs_length (internal : Hv → Hv → Hv) (xs : List Hv) :
    2 * (hashPairs internal xs).1.length + (hashPairs internal xs).2.length = xs.length ∧
      (hashPairs internal xs).2.length ≤ 1 := by
  induction xs using hashPairs.induct internal with
  | case1 leftHash rightHash rest ih =>
    simp only [hashPairs, List.length_cons]
    omega
  | case2 remainder hrem =>
    -- a list without two heads has at most one element
    have : remainder.length ≤ 1 := by
      match remainder, hrem with
      | [], _ => simp
      | [_], _ => simp
      | _ :: _ :: _, h => exact absurd rfl (h _ _ _)
    simp [hashPairs, this]

theorem pairUp_lengths {internal : Hv → Hv → Hv} {parents children right parents' right' : List Hv}
    (h : pairUp internal parents children right = some (.ok (parents', right'))) :
    right.length = right'.length + children.length % 2 ∧
      parents'.length = parents.length + children.length / 2 + children.length % 2 := by
  obtain ⟨hlen, hrem⟩ := hashPairs_length internal children
  unfold pairUp at h
  rcases hp : hashPairs internal children with ⟨pairs, remainder⟩
  rw [hp] at h hlen hrem
  dsimp only at h hlen hrem
  rw [if_pos hrem] at h
  -- no hash left over, or one combined with the first right sibling
  rcases remainder with _ | ⟨leftHash, _ | ⟨_, _⟩⟩
  · simp only [Option.some.injEq, Except.ok.injEq, Prod.mk.injEq] at h
    obtain ⟨rfl, rfl⟩ := h
    simp only [List.length_nil] at hlen
    simp only [List.length_append]
    omega
  · cases right with
    | nil => simp at h
    | cons rightHash right =>
      simp only [Option.some.injEq, Except.ok.injEq, Prod.mk.injEq] at h
      obtain ⟨rfl, rfl⟩ := h
      simp only [List.length_cons, List.length_nil] at hlen
      simp only [List.length_append, List.length_cons, List.length_nil]
      omega
  · simp at hrem

/-- What a round does to the lengths: it takes `f` hashes (the first one, when it is a right
child) with as many left siblings, pairs up the other `c`, and takes a right sibling for the one
left over. -/
theorem levelUp_lengths {internal : Hv → Hv → Hv} {b : Bool} {current left right parents left'
    right' : List Hv} (h : levelUp internal b current left right = some (.ok (parents, left', right'))) :
    ∃ f c, current.length = f + c ∧ left.length = left'.length + f ∧
      right.length = right'.length + c % 2 ∧ parents.length = f + c / 2 + c % 2 := by
  unfold levelUp at h
  dsimp only at h
  split at h
  · simp at h
  · simp at h
  rename_i parents₀ children left₀ hfront
  split at h
  · simp at h
  · simp at h
  rename_i parents₁ right₁ hpair
  simp only [Option.some.injEq, Except.ok.injEq, Prod.mk.injEq] at h
  obtain ⟨rfl, rfl, rfl⟩ := h
  obtain ⟨hright, hparents⟩ := pairUp_lengths hpair
  -- the front: nothing, or the first hash with the first left sibling
  cases b with
  | false =>
    rw [if_neg Bool.false_ne_true] at hfront
    simp only [Option.some.injEq, Except.ok.injEq, Prod.mk.injEq] at hfront
    obtain ⟨rfl, rfl, rfl⟩ := hfront
    exact ⟨0, _, (Nat.zero_add _).symm, by omega, hright, by simpa using hparents⟩
  | true =>
    cases left with
    | nil => simp at hfront
    | cons leftHash left =>
      cases current with
      | nil => simp at hfront
      | cons rightHash current =>
        simp only [if_true, Option.some.injEq, Except.ok.injEq, Prod.mk.injEq] at hfront
        obtain ⟨rfl, rfl, rfl⟩ := hfront
        exact ⟨1, _, by simp only [List.length_cons]; omega, by simp only [List.length_cons], hright,
          by simpa using hparents⟩

/-- A round leaves at least one parent. -/
theorem levelUp_ne_nil {internal : Hv → Hv → Hv} {b : Bool} {current left right parents left'
    right' : List Hv} (hcur : current ≠ [])
    (h : levelUp internal b current left right = some (.ok (parents, left', right'))) :
    parents ≠ [] := by
  obtain ⟨f, c, hlen, -, -, hparents⟩ := levelUp_lengths h
  have := List.length_pos_iff.mpr hcur
  rw [← List.length_pos_iff]
  omega

/-- A round takes the level's hashes and the siblings it uses to fewer parents. -/
theorem levelUp_measure_lt {internal : Hv → Hv → Hv} {b : Bool} {current left right parents left'
    right' : List Hv} (hcur : current ≠ [])
    (h : levelUp internal b current left right = some (.ok (parents, left', right'))) :
    parents.length + left'.length + right'.length < current.length + left.length + right.length := by
  obtain ⟨f, c, hlen, hleft, hright, hparents⟩ := levelUp_lengths h
  have := List.length_pos_iff.mpr hcur
  omega

/-! ### The verifier -/

/-- The loop of `verify`: while more than one hash or a sibling is left, one round from the
level's first position, then up to its parent.  The level's hashes are never empty. -/
def verifyLoop (internal : Hv → Hv → Hv) (firstPos : Position) (current : List Hv)
    (hcur : current ≠ []) (left right : List Hv) : Option (Except (RangeProofError Hv) (List Hv)) :=
  if current.length > 1 ∨ left ≠ [] ∨ right ≠ [] then
    match firstPos.isRightChild with
    | none => none
    | some firstIsRightChild =>
      match h : levelUp internal firstIsRightChild current left right with
      | none => none
      | some (.error e) => some (.error e)
      | some (.ok (parents, left', right')) =>
        match firstPos.parent with
        | none => none
        | some firstPos => verifyLoop internal firstPos parents (levelUp_ne_nil hcur h) left' right'
  else some (.ok current)
termination_by current.length + left.length + right.length
decreasing_by exact levelUp_measure_lt hcur h

variable [DecidableEq Hv]

/-- `AccumulatorRangeProof::verify`. -/
def verify (internal : Hv → Hv → Hv) (self : AccumulatorRangeProof Hv) (expectedRootHash : Hv)
    (firstLeafIndex : Option UInt64) (leafHashes : List Hv) :
    Option (Except (RangeProofError Hv) Unit) :=
  match firstLeafIndex with
  | none =>
    if leafHashes ≠ [] then some (.error .leavesWithoutFirstIndex)
    else if ¬(self.leftSiblings = [] ∧ self.rightSiblings = []) then some (.error .noSiblingsNeeded)
    else some (.ok ())
  | some firstLeafIndex =>
    if self.leftSiblings.length > maxAccumulatorProofDepth then
      some (.error (.tooManyLeftSiblings maxAccumulatorProofDepth self.leftSiblings.length))
    else if self.rightSiblings.length > maxAccumulatorProofDepth then
      some (.error (.tooManyRightSiblings maxAccumulatorProofDepth self.rightSiblings.length))
    else
      match leafHashes with
      | [] => some (.error .noLeaves)
      | leafHash :: leafHashes =>
        match Position.fromLeafIndex firstLeafIndex with
        | none => none
        | some firstPos =>
          match verifyLoop internal firstPos (leafHash :: leafHashes) (List.cons_ne_nil _ _)
              self.leftSiblings self.rightSiblings with
          | none => none
          | some (.error e) => some (.error e)
          | some (.ok []) => none
          | some (.ok (actualRootHash :: _)) =>
            if actualRootHash = expectedRootHash then some (.ok ())
            else some (.error (.rootHashesDoNotMatch actualRootHash expectedRootHash))

/-- The leaf index `2^63 - 1` is the position `u64::MAX - 1`: `from_leaf_index` shifts the
index's top bit out. -/
theorem fromLeafIndex_top : Position.fromLeafIndex 9223372036854775807 = some ⟨18446744073709551614⟩ := by
  decide

/-- On two leaves from the index `2^63 - 1` and no siblings, `verify` panics in
`is_right_child` at its first round, whatever the hashes. -/
theorem verify_panics_at_top_leaf (internal : Hv → Hv → Hv) (expectedRootHash a b : Hv) :
    (⟨[], []⟩ : AccumulatorRangeProof Hv).verify internal expectedRootHash
      (some 9223372036854775807) [a, b] = none := by
  have hright : (Position.mk 18446744073709551614).isRightChild = none := by decide
  simp only [verify, List.length_nil, maxAccumulatorProofDepth, fromLeafIndex_top]
  rw [verifyLoop]
  simp [hright]

end AccumulatorRangeProof

end CreditChain
