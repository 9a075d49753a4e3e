import CreditChain.Proof.Definition

/-!
# Merkle proofs are binding

Two sparse Merkle proofs that verify against one root for one key, one of them the inclusion of
a value hash, agree on it: otherwise the sparse Merkle hash collides, across its internal and
leaf nodes, or hashes a node to the placeholder (`SparseMerkleProof.verifyByHash_binding`).  The
key's bits fix the sides from the root down, so the two paths are compared level by level from
the root (`MerklePath.pathRoot_binding`) until the shorter one ends.

Two accumulator proofs of one length for one index bind the element the same way
(`AccumulatorProof.verify_binding`).  Proofs of different lengths do not: the index's bits give
the sides from the bottom up, and `verify` does not tie a proof's length to the accumulator's
size, so a shorter proof whose one sibling is an internal node of the longer one verifies
another element (`accumulatorProof_binding_counterexample`).
-/

namespace CreditChain

open MerklePath

/-- Two different sparse Merkle nodes hashed to one value. -/
def SparseMerkleHashing.Collision {Hv : Type} (hashing : SparseMerkleHashing Hv) : Prop :=
  ∃ a b, a ≠ b ∧ hashing.hash a = hashing.hash b

/-- A sparse Merkle node hashed to `SPARSE_MERKLE_PLACEHOLDER_HASH`. -/
def SparseMerkleHashing.HitsPlaceholder {Hv : Type} (hashing : SparseMerkleHashing Hv) : Prop :=
  ∃ a, hashing.hash a = hashing.placeholderHash

section Binding

variable {Hv : Type} [DecidableEq Hv]

omit [DecidableEq Hv] in
theorem SparseMerkleHashing.collision_of_internal {hashing : SparseMerkleHashing Hv}
    (h : MerklePath.Collision fun l r => hashing.hash (.internal l r)) : hashing.Collision := by
  obtain ⟨a, b, c, d, hne, heq⟩ := h
  exact ⟨.internal a b, .internal c d, fun h => hne (by cases h; rfl), heq⟩

omit [DecidableEq Hv] in
/-- A path of at least one level ends in the hash of an internal node. -/
theorem pathRoot_cons_eq_internal (hashing : SparseMerkleHashing Hv) (e : Hv × Bool)
    (path : List (Hv × Bool)) (x : Hv) :
    ∃ l r, pathRoot (fun l r => hashing.hash (.internal l r)) (e :: path) x =
      hashing.hash (.internal l r) := by
  obtain ⟨sibling, right⟩ := e
  cases right
  · exact ⟨_, sibling, rfl⟩
  · exact ⟨sibling, _, rfl⟩

variable [HashValueBits Hv] {hashing : SparseMerkleHashing Hv}

omit [DecidableEq Hv] in
/-- Where the shorter of two paths for one key ends, the longer one has an internal node or its
own start; so the two starts, if different, collide or meet the placeholder. -/
theorem SparseMerkleProof.binding_of_le {p₁ p₂ : SparseMerkleProof Hv} {key : Hv} {x₁ x₂ : Hv}
    (hle : p₁.siblings.length ≤ p₂.siblings.length) (hlen₂ : p₂.siblings.length ≤ lengthInBits)
    (hroot : pathRoot (fun l r => hashing.hash (.internal l r)) (sparsePath p₁.siblings key 0) x₁ =
      pathRoot (fun l r => hashing.hash (.internal l r)) (sparsePath p₂.siblings key 0) x₂) :
    hashing.Collision ∨ x₁ = x₂ ∨ ∃ l r, x₁ = hashing.hash (.internal l r) := by
  have hlen₁ : (sparsePath p₁.siblings key 0).length = p₁.siblings.length :=
    length_sparsePath (by omega)
  have hsides : (sparsePath p₁.siblings key 0).map Prod.snd =
      ((sparsePath p₂.siblings key 0).map Prod.snd).take (sparsePath p₁.siblings key 0).length := by
    rw [map_snd_sparsePath, map_snd_sparsePath, hlen₁, List.take_take, Nat.min_eq_left hle]
  rcases pathRoot_binding (by rw [hlen₁, length_sparsePath (by omega)]; exact hle) hsides hroot with
    hc | heq
  · exact .inl (SparseMerkleHashing.collision_of_internal hc)
  · -- the longer path, cut at the shorter one's depth, is empty or ends in an internal node
    cases hd : (sparsePath p₂.siblings key 0).drop (sparsePath p₁.siblings key 0).length with
    | nil => exact .inr (.inl (by rwa [hd, pathRoot_nil] at heq))
    | cons e rest =>
      obtain ⟨l, r, hlr⟩ := pathRoot_cons_eq_internal hashing e rest x₂
      exact .inr (.inr ⟨l, r, by rw [heq, hd, hlr]⟩)

/-- A sparse Merkle proof that verifies for a key with no value, or with a value hash other than
`hash`, starts from the placeholder or from another leaf than that of `hash`. -/
theorem SparseMerkleProof.currentHash_of_verifyByHash {p : SparseMerkleProof Hv}
    {root key hash : Hv} {x : Option Hv} (hx : x ≠ some hash)
    (hv : p.verifyByHash hashing root key x = .ok ()) :
    p.currentHash hashing = hashing.placeholderHash ∨
      ∃ leaf, leaf ≠ ⟨key, hash⟩ ∧ p.currentHash hashing = hashing.hash (.leaf leaf) := by
  obtain ⟨-, hincl, hnon, -⟩ := verifyByHashPartial_eq_ok hv
  cases hleaf : p.leaf with
  | none => exact .inl (currentHash_of_none hleaf)
  | some leaf =>
    refine .inr ⟨leaf, fun hsame => ?_, currentHash_of_some hleaf⟩
    cases hsame
    cases x with
    | none => exact (hnon rfl ⟨key, hash⟩ hleaf).1 rfl
    | some value =>
      have hsome := hincl value rfl
      rw [hleaf, Option.some.injEq, SparseMerkleLeafNode.mk.injEq] at hsome
      exact hx (by rw [← hsome.2])

/-- Sparse Merkle proofs bind a key's value: an inclusion proof of `h₁` and a proof of no value
or of another value hash verifying against one root make the hash collide or meet the
placeholder. -/
theorem SparseMerkleProof.verifyByHash_binding {p₁ p₂ : SparseMerkleProof Hv} {root key h₁ : Hv}
    {x : Option Hv} (hx : x ≠ some h₁) (hv₁ : p₁.verifyByHash hashing root key (some h₁) = .ok ())
    (hv₂ : p₂.verifyByHash hashing root key x = .ok ()) :
    hashing.Collision ∨ hashing.HitsPlaceholder := by
  obtain ⟨hlen₁, hincl₁, -, hroot₁⟩ := verifyByHashPartial_eq_ok hv₁
  obtain ⟨hlen₂, -, -, hroot₂⟩ := verifyByHashPartial_eq_ok hv₂
  have hcur₁ : p₁.currentHash hashing = hashing.hash (.leaf ⟨key, h₁⟩) :=
    currentHash_of_some (hincl₁ h₁ rfl)
  have hcur₂ := currentHash_of_verifyByHash hx hv₂
  -- the leaf of `h₁` against what the other proof has at its depth
  have hleaf : ∀ y, hashing.hash (.leaf ⟨key, h₁⟩) = y →
      (y = hashing.placeholderHash ∨ ∃ leaf, leaf ≠ ⟨key, h₁⟩ ∧ y = hashing.hash (.leaf leaf)) ∨
        (∃ l r, y = hashing.hash (.internal l r)) →
      hashing.Collision ∨ hashing.HitsPlaceholder := by
    rintro y rfl ((hp | ⟨leaf, hne, heq⟩) | ⟨l, r, heq⟩)
    · exact .inr ⟨_, hp⟩
    · exact .inl ⟨_, .leaf leaf, by simpa using hne.symm, heq⟩
    · exact .inl ⟨_, .internal l r, by simp, heq⟩
  rcases Nat.le_total p₁.siblings.length p₂.siblings.length with hle | hle
  · rcases binding_of_le hle (by simpa using hlen₂) (hroot₁.trans hroot₂.symm) with hc | heq | hint
    · exact .inl hc
    · exact hleaf _ (hcur₁ ▸ heq) (.inl hcur₂)
    · exact hleaf _ hcur₁.symm (.inr (hcur₁ ▸ hint))
  · rcases binding_of_le hle (by simpa using hlen₁) (hroot₂.trans hroot₁.symm) with hc | heq | hint
    · exact .inl hc
    · exact hleaf _ (hcur₁ ▸ heq.symm) (.inl hcur₂)
    · -- the other proof ends above: its start is an internal node's hash
      obtain ⟨l, r, hlr⟩ := hint
      rcases hcur₂ with hp | ⟨leaf, -, hn⟩
      · exact .inr ⟨.internal l r, hlr ▸ hp⟩
      · exact .inl ⟨.internal l r, .leaf leaf, by simp, hlr.symm.trans hn⟩

omit [HashValueBits Hv] in
/-- Accumulator proofs of one length bind the element at an index: two that verify different
elements against one root make the internal-node hash collide. -/
theorem AccumulatorProof.verify_binding {internal : Hv → Hv → Hv} {p₁ p₂ : AccumulatorProof Hv}
    {root e₁ e₂ : Hv} {elementIndex : Nat} (hne : e₁ ≠ e₂)
    (hlen : p₁.siblings.length = p₂.siblings.length)
    (hv₁ : p₁.verify internal root e₁ elementIndex = .ok ())
    (hv₂ : p₂.verify internal root e₂ elementIndex = .ok ()) : Collision internal := by
  obtain ⟨-, hroot₁⟩ := verify_eq_ok.1 hv₁
  obtain ⟨-, hroot₂⟩ := verify_eq_ok.1 hv₂
  -- one index and one length: the two paths take the same sides at every level
  have hsides : (accumulatorPath p₁.siblings elementIndex).reverse.map Prod.snd =
      (accumulatorPath p₂.siblings elementIndex).reverse.map Prod.snd := by
    rw [List.map_reverse, List.map_reverse, map_snd_accumulatorPath elementIndex hlen]
  rcases pathRoot_binding_of_length_eq (by simp [length_accumulatorPath, hlen]) hsides
    (hroot₁.trans hroot₂.symm) with hc | heq
  · exact hc
  · exact absurd heq hne

/-- Merkle proofs are binding up to hash collisions: for sparse Merkle proofs of one key, and
for accumulator proofs of one length at one index. -/
theorem merkleProofs_binding (hashing : SparseMerkleHashing Hv) (internal : Hv → Hv → Hv) :
    (∀ (p₁ p₂ : SparseMerkleProof Hv) (root key h₁ : Hv) (x : Option Hv), x ≠ some h₁ →
      p₁.verifyByHash hashing root key (some h₁) = .ok () →
      p₂.verifyByHash hashing root key x = .ok () →
      hashing.Collision ∨ hashing.HitsPlaceholder) ∧
    ∀ (p₁ p₂ : AccumulatorProof Hv) (root e₁ e₂ : Hv) (elementIndex : Nat), e₁ ≠ e₂ →
      p₁.siblings.length = p₂.siblings.length →
      p₁.verify internal root e₁ elementIndex = .ok () →
      p₂.verify internal root e₂ elementIndex = .ok () → Collision internal :=
  ⟨fun _ _ _ _ _ _ hx hv₁ hv₂ => SparseMerkleProof.verifyByHash_binding hx hv₁ hv₂,
    fun _ _ _ _ _ _ hne hlen hv₁ hv₂ => AccumulatorProof.verify_binding hne hlen hv₁ hv₂⟩

end Binding

/-! ### Proofs of different lengths -/

/-- Hash values of a hash that never collides: the hash of a pair is the pair. -/
inductive FreeHash
  | atom (n : Nat)
  | node (left right : FreeHash)
  deriving DecidableEq

instance : HashValueBits FreeHash where
  iterBits _ := List.replicate 256 false
  length_iterBits _ := List.length_replicate

theorem FreeHash.not_collision : ¬ Collision FreeHash.node := by
  rintro ⟨a, b, c, d, hne, heq⟩
  injection heq with hac hbd
  exact hne (by rw [hac, hbd])

/-- With a hash that is constant, every pair of proofs collides. -/
theorem merkleProofs_binding_constant :
    ((⟨fun _ => .atom 0, .atom 0⟩ : SparseMerkleHashing FreeHash).Collision ∨
      (⟨fun _ => .atom 0, .atom 0⟩ : SparseMerkleHashing FreeHash).HitsPlaceholder) ∧
    Collision fun (_ _ : FreeHash) => FreeHash.atom 0 :=
  ⟨(merkleProofs_binding (⟨fun _ => .atom 0, .atom 0⟩ : SparseMerkleHashing FreeHash)
      fun _ _ => .atom 0).1
      ⟨some ⟨.atom 5, .atom 1⟩, []⟩ ⟨none, []⟩ (.atom 0) (.atom 5) (.atom 1) none (by simp)
      (by decide) (by decide),
    (merkleProofs_binding (⟨fun _ => .atom 0, .atom 0⟩ : SparseMerkleHashing FreeHash)
      fun _ _ => .atom 0).2
      ⟨[.atom 7]⟩ ⟨[.atom 7]⟩ (.atom 0) (.atom 1) (.atom 2) 0 (by simp) rfl (by decide) (by decide)⟩

/-- An accumulator proof with one sibling verifies element `1` at index `1`, and one with two
siblings verifies element `2` there, against one root, with a hash that never collides and no
element hash that is an internal node's. -/
theorem accumulatorProof_binding_counterexample :
    AccumulatorProof.verify FreeHash.node ⟨[.node (.atom 0) (.atom 2)]⟩
        (.node (.node (.atom 0) (.atom 2)) (.atom 1)) (.atom 1) 1 = .ok () ∧
    AccumulatorProof.verify FreeHash.node ⟨[.atom 0, .atom 1]⟩
        (.node (.node (.atom 0) (.atom 2)) (.atom 1)) (.atom 2) 1 = .ok () ∧
    FreeHash.atom 1 ≠ .atom 2 ∧ ¬ Collision FreeHash.node ∧
    ∀ l r, FreeHash.node l r ≠ .atom 1 ∧ FreeHash.node l r ≠ .atom 2 :=
  ⟨by decide, by decide, by decide, FreeHash.not_collision, fun _ _ => ⟨by simp, by simp⟩⟩

end CreditChain
