import CreditChain.Lib.Except
import CreditChain.Lib.MerklePath

/-!
# Accumulator and sparse Merkle proofs

`AccumulatorProof::verify` and `SparseMerkleProof::verify_by_hash` of `proof/definition.rs`.
Hash values are of any type `Hv` with equality; a key's bits are its `iter_bits`
(`HashValueBits`).  The hashers are functions: `MerkleTreeInternalNode::<H>::new(l, r).hash()`
is `internal l r`, and the sparse Merkle internal and leaf hashers, whose domains the hasher's
salt keeps apart, are one function on `SparseMerkleNode`.

Both verifiers fold a hash up the siblings from the bottom; `accumulatorPath` and `sparsePath`
name the Merkle paths these folds hash along (`verify_eq_ok`, `verifyByHashPartial_eq_ok`).
A sparse Merkle proof is binding for its key, since the key's bits fix the sides from the root
down whatever the proof's length.  An accumulator proof is binding only among proofs of one
length: the index's bits fix the sides from the bottom up, so two proofs of different lengths
take different sides below the root.
-/

namespace CreditChain

open MerklePath

/-- What the proofs use of `HashValue` besides equality: `iter_bits`, its 256 bits from the most
significant. -/
class HashValueBits (Hv : Type) where
  iterBits : Hv → List Bool
  length_iterBits : ∀ h, (iterBits h).length = 256

/-- `HashValue::LENGTH_IN_BITS`. -/
def lengthInBits : Nat := 256

/-- `common_prefix_bits_len`. -/
def commonPrefixBitsLen {Hv : Type} [HashValueBits Hv] (self other : Hv) : Nat :=
  (((HashValueBits.iterBits self).zip (HashValueBits.iterBits other)).takeWhile
    fun (x, y) => x == y).length

/-- `SparseMerkleLeafNode`. -/
structure SparseMerkleLeafNode (Hv : Type) where
  key : Hv
  valueHash : Hv
  deriving DecidableEq

/-- The nodes a sparse Merkle hash is taken of: `SparseMerkleInternalNode`, and
`SparseMerkleLeafNode` with its own hasher. -/
inductive SparseMerkleNode (Hv : Type)
  | internal (leftChild rightChild : Hv)
  | leaf (node : SparseMerkleLeafNode Hv)
  deriving DecidableEq

/-- The hashing the sparse Merkle verifier rests on: `CryptoHash::hash` of its nodes, and
`SPARSE_MERKLE_PLACEHOLDER_HASH`. -/
structure SparseMerkleHashing (Hv : Type) where
  hash : SparseMerkleNode Hv → Hv
  placeholderHash : Hv

/-- The failures of `ensure!` and `bail!` in the verifiers, with the values their messages
print. -/
inductive ProofError (Hv : Type)
  | accumulatorProofTooLong (maxDepth siblings : Nat)
  | sparseMerkleProofTooLong (lengthInBits rootDepth siblings : Nat)
  | rootHashesDoNotMatch (actualRootHash expectedRootHash : Hv)
  | keysDoNotMatch (keyInProof expectedKey : Hv)
  | valueHashesDoNotMatch (key valueHashInProof expectedValueHash : Hv)
  | expectedInclusionProof (valueHash : Hv)
  | expectedNonInclusionProof (key keyInProof : Hv)
  | keyOutsideSubtree (key keyInProof : Hv)
  deriving DecidableEq

/-- `MAX_ACCUMULATOR_PROOF_DEPTH`. -/
def maxAccumulatorProofDepth : Nat := 63

/-- `AccumulatorProof`: the siblings from the bottom level up. -/
structure AccumulatorProof (Hv : Type) where
  siblings : List Hv

/-- `SparseMerkleProof`: the leaf, if any, and the siblings from the root level down. -/
structure SparseMerkleProof (Hv : Type) where
  leaf : Option (SparseMerkleLeafNode Hv)
  siblings : List Hv

variable {Hv : Type} [DecidableEq Hv]

/-- `AccumulatorProof::verify`: the element is hashed up the siblings, on the side its index's
bit says, one level per sibling. -/
def AccumulatorProof.verify (internal : Hv → Hv → Hv) (self : AccumulatorProof Hv)
    (expectedRootHash elementHash : Hv) (elementIndex : Nat) : Except (ProofError Hv) Unit := do
  Except.ensure (self.siblings.length ≤ maxAccumulatorProofDepth)
    (.accumulatorProofTooLong maxAccumulatorProofDepth self.siblings.length)
  let actualRootHash := (self.siblings.foldl
    -- `index` is the index of the element's ancestor at the current level
    (fun (hash, index) siblingHash =>
      (if index % 2 = 0 then internal hash siblingHash else internal siblingHash hash, index / 2))
    (elementHash, elementIndex)).1
  Except.ensure (actualRootHash = expectedRootHash)
    (.rootHashesDoNotMatch actualRootHash expectedRootHash)

/-- The hash the sparse Merkle verifier starts from: the leaf's, or the placeholder for an empty
subtree (`leaf.map_or(*SPARSE_MERKLE_PLACEHOLDER_HASH, |leaf| leaf.hash())`). -/
def SparseMerkleProof.currentHash (self : SparseMerkleProof Hv) (hashing : SparseMerkleHashing Hv) :
    Hv :=
  match self.leaf with
  | some leaf => hashing.hash (.leaf leaf)
  | none => hashing.placeholderHash

theorem SparseMerkleProof.currentHash_of_some {self : SparseMerkleProof Hv}
    {hashing : SparseMerkleHashing Hv} {leaf : SparseMerkleLeafNode Hv} (h : self.leaf = some leaf) :
    self.currentHash hashing = hashing.hash (.leaf leaf) := by
  delta currentHash
  rw [h]

theorem SparseMerkleProof.currentHash_of_none {self : SparseMerkleProof Hv}
    {hashing : SparseMerkleHashing Hv} (h : self.leaf = none) :
    self.currentHash hashing = hashing.placeholderHash := by
  delta currentHash
  rw [h]

/-- `SparseMerkleProof::verify_by_hash_partial`: the leaf checked against the element, then hashed
up the siblings, on the side the key's bit at each depth says. -/
def SparseMerkleProof.verifyByHashPartial [HashValueBits Hv] (hashing : SparseMerkleHashing Hv)
    (self : SparseMerkleProof Hv) (expectedRootHash elementKey : Hv) (elementHash : Option Hv)
    (rootDepth : Nat) : Except (ProofError Hv) Unit := do
  Except.ensure (self.siblings.length + rootDepth ≤ lengthInBits)
    (.sparseMerkleProofTooLong lengthInBits rootDepth self.siblings.length)
  match elementHash, self.leaf with
  | some hash, some leaf =>
    -- an inclusion proof
    Except.ensure (elementKey = leaf.key) (.keysDoNotMatch leaf.key elementKey)
    Except.ensure (hash = leaf.valueHash) (.valueHashesDoNotMatch elementKey leaf.valueHash hash)
  | some hash, none => throw (.expectedInclusionProof hash)
  | none, some leaf =>
    -- a non-inclusion proof: the key would split the leaf's subtree
    Except.ensure (elementKey ≠ leaf.key) (.expectedNonInclusionProof elementKey leaf.key)
    Except.ensure (rootDepth + self.siblings.length ≤ commonPrefixBitsLen elementKey leaf.key)
      (.keyOutsideSubtree elementKey leaf.key)
  | none, none => pure ()
  let currentHash := self.currentHash hashing
  let actualRootHash := (self.siblings.reverse.zip ((HashValueBits.iterBits elementKey).reverse.drop
      (lengthInBits - self.siblings.length - rootDepth))).foldl
    (fun hash (siblingHash, bit) =>
      if bit then hashing.hash (.internal siblingHash hash)
      else hashing.hash (.internal hash siblingHash))
    currentHash
  Except.ensure (actualRootHash = expectedRootHash)
    (.rootHashesDoNotMatch actualRootHash expectedRootHash)

/-- `SparseMerkleProof::verify_by_hash`: a proof from the root. -/
def SparseMerkleProof.verifyByHash [HashValueBits Hv] (hashing : SparseMerkleHashing Hv)
    (self : SparseMerkleProof Hv) (expectedRootHash elementKey : Hv) (elementHash : Option Hv) :
    Except (ProofError Hv) Unit :=
  self.verifyByHashPartial hashing expectedRootHash elementKey elementHash 0

/-! ### The paths the verifiers hash along -/

/-- The Merkle path of an accumulator proof, from the bottom up: each sibling with the side the
element's ancestor at that level is on (`index % 2 != 0`: the right child). -/
def accumulatorPath : List Hv → Nat → List (Hv × Bool)
  | [], _ => []
  | siblingHash :: siblings, index => (siblingHash, index % 2 != 0) :: accumulatorPath siblings (index / 2)

omit [DecidableEq Hv] in
theorem accumulatorPath_cons (siblingHash : Hv) (siblings : List Hv) (index : Nat) :
    accumulatorPath (siblingHash :: siblings) index =
      (siblingHash, index % 2 != 0) :: accumulatorPath siblings (index / 2) := rfl

/-- The Merkle path of a sparse Merkle proof from `rootDepth`, from the root down: each sibling with
the key's bit at its depth. -/
def sparsePath [HashValueBits Hv] (siblings : List Hv) (elementKey : Hv) (rootDepth : Nat) :
    List (Hv × Bool) :=
  siblings.zip ((HashValueBits.iterBits elementKey).drop rootDepth)

omit [DecidableEq Hv] in
theorem sparsePath_eq [HashValueBits Hv] (siblings : List Hv) (elementKey : Hv) (rootDepth : Nat) :
    sparsePath siblings elementKey rootDepth =
      siblings.zip ((HashValueBits.iterBits elementKey).drop rootDepth) := rfl

omit [DecidableEq Hv] in
theorem length_sparsePath [HashValueBits Hv] {siblings : List Hv} {elementKey : Hv} {rootDepth : Nat}
    (hlen : siblings.length + rootDepth ≤ lengthInBits) :
    (sparsePath siblings elementKey rootDepth).length = siblings.length := by
  have hbits := HashValueBits.length_iterBits elementKey
  simp only [sparsePath_eq, List.length_zip, List.length_drop, hbits]
  simp only [lengthInBits] at hlen
  omega

omit [DecidableEq Hv] in
/-- The sides of a sparse Merkle path are the key's bits from its root depth on. -/
theorem map_snd_sparsePath [HashValueBits Hv] (siblings : List Hv) (elementKey : Hv)
    (rootDepth : Nat) :
    (sparsePath siblings elementKey rootDepth).map Prod.snd =
      ((HashValueBits.iterBits elementKey).drop rootDepth).take siblings.length :=
  map_snd_zip_eq_take _ _

omit [DecidableEq Hv] in
/-- The accumulator fold hashes the element up its path. -/
theorem foldl_accumulator_eq_pathRoot (internal : Hv → Hv → Hv) (siblings : List Hv)
    (elementHash : Hv) (elementIndex : Nat) :
    (siblings.foldl (fun (hash, index) siblingHash =>
        (if index % 2 = 0 then internal hash siblingHash else internal siblingHash hash, index / 2))
      (elementHash, elementIndex)).1 =
      pathRoot internal (accumulatorPath siblings elementIndex).reverse elementHash := by
  induction siblings generalizing elementHash elementIndex with
  | nil => rfl
  | cons siblingHash siblings ih =>
    rw [List.foldl_cons, ih, accumulatorPath_cons, List.reverse_cons, pathRoot_append]
    rcases Nat.mod_two_eq_zero_or_one elementIndex with hi | hi <;> simp [pathRoot_cons, hi]

omit [DecidableEq Hv] in
theorem length_accumulatorPath (siblings : List Hv) (index : Nat) :
    (accumulatorPath siblings index).length = siblings.length := by
  induction siblings generalizing index with
  | nil => rfl
  | cons siblingHash siblings ih => simp [accumulatorPath_cons, ih]

omit [DecidableEq Hv] in
/-- The sides of an accumulator path depend on the index and the proof's length only. -/
theorem map_snd_accumulatorPath {siblings₁ siblings₂ : List Hv} (index : Nat)
    (hlen : siblings₁.length = siblings₂.length) :
    (accumulatorPath siblings₁ index).map Prod.snd = (accumulatorPath siblings₂ index).map Prod.snd := by
  induction siblings₁ generalizing siblings₂ index with
  | nil => cases siblings₂ with
    | nil => rfl
    | cons _ _ => simp at hlen
  | cons s₁ siblings₁ ih => cases siblings₂ with
    | nil => simp at hlen
    | cons s₂ siblings₂ => simp [accumulatorPath_cons, ih (index / 2) (by simpa using hlen)]

/-- `AccumulatorProof::verify` succeeds exactly when the proof is short enough and the element
hashed up its path reaches the expected root. -/
theorem AccumulatorProof.verify_eq_ok {internal : Hv → Hv → Hv} {self : AccumulatorProof Hv}
    {expectedRootHash elementHash : Hv} {elementIndex : Nat} :
    self.verify internal expectedRootHash elementHash elementIndex = .ok () ↔
      self.siblings.length ≤ maxAccumulatorProofDepth ∧
      pathRoot internal (accumulatorPath self.siblings elementIndex).reverse elementHash =
        expectedRootHash := by
  delta verify
  dsimp only
  rw [Except.ensure_bind_eq_ok, Except.ensure_eq_ok, foldl_accumulator_eq_pathRoot]

omit [DecidableEq Hv] in
/-- The sparse Merkle fold hashes the current hash up its path. -/
theorem foldl_sparse_eq_pathRoot [HashValueBits Hv] (hashing : SparseMerkleHashing Hv)
    (siblings : List Hv) (elementKey : Hv) (rootDepth : Nat) (currentHash : Hv)
    (hlen : siblings.length + rootDepth ≤ lengthInBits) :
    (siblings.reverse.zip ((HashValueBits.iterBits elementKey).reverse.drop
        (lengthInBits - siblings.length - rootDepth))).foldl
      (fun hash (siblingHash, bit) =>
        if bit then hashing.hash (.internal siblingHash hash)
        else hashing.hash (.internal hash siblingHash))
      currentHash =
      pathRoot (fun l r => hashing.hash (.internal l r)) (sparsePath siblings elementKey rootDepth)
        currentHash := by
  have hbits := HashValueBits.length_iterBits elementKey
  rw [← foldl_reverse_eq_pathRoot, sparsePath_eq, ← zip_reverse_drop_reverse _ _ _ (by
    rw [hbits]; exact hlen), hbits]
  rfl

/-- What a successful `verify_by_hash_partial` says: the proof is short enough; an inclusion
proof's leaf is the element; a non-inclusion proof's leaf, if any, has another key sharing the
path; and the current hash hashed up the path reaches the expected root. -/
theorem SparseMerkleProof.verifyByHashPartial_eq_ok [HashValueBits Hv]
    {hashing : SparseMerkleHashing Hv} {self : SparseMerkleProof Hv}
    {expectedRootHash elementKey : Hv} {elementHash : Option Hv} {rootDepth : Nat}
    (h : self.verifyByHashPartial hashing expectedRootHash elementKey elementHash rootDepth = .ok ()) :
    self.siblings.length + rootDepth ≤ lengthInBits ∧
      (∀ hash ∈ elementHash, self.leaf = some ⟨elementKey, hash⟩) ∧
      (elementHash = none → ∀ leaf ∈ self.leaf, elementKey ≠ leaf.key ∧
        rootDepth + self.siblings.length ≤ commonPrefixBitsLen elementKey leaf.key) ∧
      pathRoot (fun l r => hashing.hash (.internal l r)) (sparsePath self.siblings elementKey rootDepth)
        (self.currentHash hashing) = expectedRootHash := by
  unfold verifyByHashPartial at h
  rw [Except.ensure_bind_eq_ok] at h
  obtain ⟨hlen, h⟩ := h
  have hpath := foldl_sparse_eq_pathRoot hashing self.siblings elementKey rootDepth
    (self.currentHash hashing) hlen
  -- one case per kind of proof, each ending with the root check
  cases elementHash with
  | some hash =>
    cases hleaf : self.leaf with
    | none =>
      rw [hleaf] at h
      cases h
    | some leaf =>
      rw [hleaf] at h
      dsimp only at h
      rw [Except.ensure_bind_eq_ok, Except.ensure_bind_eq_ok, Except.ensure_eq_ok] at h
      obtain ⟨hkey, hvalue, hroot⟩ := h
      refine ⟨hlen, fun hash' hmem => ?_, fun hnone => (by cases hnone), hpath ▸ hroot⟩
      rw [Option.mem_def, Option.some.injEq] at hmem
      rw [hkey, ← hmem, hvalue]
  | none =>
    cases hleaf : self.leaf with
    | none =>
      rw [hleaf] at h
      dsimp only at h
      rw [Except.ensure_eq_ok] at h
      exact ⟨hlen, fun _ hmem => (by cases hmem), fun _ _ hmem => (by cases hmem), hpath ▸ h⟩
    | some leaf =>
      rw [hleaf] at h
      dsimp only at h
      rw [Except.ensure_bind_eq_ok, Except.ensure_bind_eq_ok, Except.ensure_eq_ok] at h
      obtain ⟨hkey, hprefix, hroot⟩ := h
      refine ⟨hlen, fun _ hmem => (by cases hmem), fun _ leaf' hmem => ?_, hpath ▸ hroot⟩
      rw [Option.mem_def, Option.some.injEq] at hmem
      exact hmem ▸ ⟨hkey, hprefix⟩

end CreditChain
