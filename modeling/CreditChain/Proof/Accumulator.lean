import CreditChain.Proof.FrozenSubtrees

/-!
# The in-memory Merkle accumulator

`InMemoryAccumulator` of `types/src/proof/accumulator/mod.rs`, with `AccumulatorExtensionProof`
of `proof/definition.rs`.  An accumulator of `num_leaves` leaves keeps the root hashes of its
frozen subtrees, the complete subtrees that cover its leaves, one for each one bit of
`num_leaves`, the largest first.  `append_one` pushes the new leaf and merges the two roots on
top of the vector as many times as `num_existing_leaves` has trailing ones: adding one to the leaf
count carries through those bits.

What an accumulator stands for is a prefix of a sequence of leaves: `frozenRoots internal leaf n`
are the hashes of the frozen subtrees of the first `n` leaves (`InorderTree.frozenSubtrees`).
`append_one` takes the roots of `n` leaves to those of `n + 1` (`appendOne_frozenRoots`): the
stack after `i` merges holds the frozen subtrees of `n` from level `i` up, under the subtree of
`2^i` leaves that ends with the new leaf (`mergeRoots_frozenStack`).  `append` therefore keeps the
roots of the leaves appended so far and never panics below `2^64` leaves, whatever batches the
leaves come in (`foldlM_append_frozenRoots`).

A leaf count is a `u64`, and its arithmetic is that of `Word`; a panic is `none`.
-/

namespace CreditChain

open InorderTree (Node frozenStack frozenSubtrees)

/-- The failures of `ensure!` in `InMemoryAccumulator::new` and `AccumulatorExtensionProof::verify`,
with the values their messages print. -/
inductive AccumulatorError (Hv : Type) where
  | frozenSubtreesMismatch (frozenSubtreeRootsLen numLeaves : Nat)
  | rootHashesDoNotMatch (actualRootHash expectedRootHash : Hv)
  deriving DecidableEq

/-- `InMemoryAccumulator`. -/
structure InMemoryAccumulator (Hv : Type) where
  frozenSubtreeRoots : List Hv
  numLeaves : UInt64
  rootHash : Hv
  deriving DecidableEq

namespace InMemoryAccumulator

variable {Hv : Type} (internal : Hv → Hv → Hv) (placeholderHash : Hv)

/-- The `while bitmap > 0` loop of `compute_root_hash`, over the bits of `bitmap` from the lowest:
a set bit takes the next frozen root from the right as the left sibling of the running hash, a
clear bit pads the running hash on the right with the placeholder.  The `expect` on an exhausted
iterator panics. -/
def computeRootHashLoop (bitmap : UInt64) (currentHash : Hv) (frozenSubtreeIter : List Hv) :
    Option Hv :=
  if 0 < bitmap then
    if bitmap &&& 1 ≠ 0 then
      match frozenSubtreeIter with
      | [] => none
      | root :: rest => computeRootHashLoop (bitmap >>> 1) (internal root currentHash) rest
    else computeRootHashLoop (bitmap >>> 1) (internal currentHash placeholderHash) frozenSubtreeIter
  else some currentHash
termination_by bitmap.toNat
decreasing_by
  all_goals
    rw [UInt64.toNat_shiftRight]
    have hpos : 0 < bitmap.toNat := by rwa [UInt64.lt_iff_toNat_lt] at *
    simp only [UInt64.reduceToNat, Nat.reduceMod, Nat.shiftRight_one]
    omega

/-- `InMemoryAccumulator::compute_root_hash`: the root of the smallest complete tree over the
leaves, with placeholders for the missing ones. -/
def computeRootHash (frozenSubtreeRoots : List Hv) (numLeaves : UInt64) : Option Hv :=
  match frozenSubtreeRoots with
  | [] => some placeholderHash
  | [root] => some root
  | _ => do
    let bitmap ← Word.checkedShr numLeaves (Word.trailingZeros numLeaves)
    computeRootHashLoop internal placeholderHash bitmap placeholderHash frozenSubtreeRoots.reverse

/-- `InMemoryAccumulator::new`: one frozen root for each one bit of the leaf count. -/
def new (frozenSubtreeRoots : List Hv) (numLeaves : UInt64) :
    Option (Except (AccumulatorError Hv) (InMemoryAccumulator Hv)) :=
  if frozenSubtreeRoots.length = Word.countOnes numLeaves then
    (computeRootHash internal placeholderHash frozenSubtreeRoots numLeaves).map fun rootHash =>
      .ok ⟨frozenSubtreeRoots, numLeaves, rootHash⟩
  else some (.error (.frozenSubtreesMismatch frozenSubtreeRoots.length numLeaves.toNat))

/-- `InMemoryAccumulator::default`: `new(vec![], 0)`, whose `expect` cannot fail. -/
def default : Option (InMemoryAccumulator Hv) :=
  (new internal placeholderHash [] 0).bind Except.toOption

/-- The `for` loop of `append_one`: the two roots on top of the vector (its end) are popped and
their parent pushed, `numTrailingOnes` times.  A pop from an empty vector panics. -/
def mergeRoots : Nat → List Hv → Option (List Hv)
  | 0, frozenSubtreeRoots => some frozenSubtreeRoots
  | i + 1, frozenSubtreeRoots => do
    let rightHash ← frozenSubtreeRoots.getLast?
    let leftHash ← frozenSubtreeRoots.dropLast.getLast?
    mergeRoots i (frozenSubtreeRoots.dropLast.dropLast ++ [internal leftHash rightHash])

/-- `InMemoryAccumulator::append_one`: the leaf is pushed, and merged as often as the existing
leaf count has trailing ones. -/
def appendOne (frozenSubtreeRoots : List Hv) (numExistingLeaves : UInt64) (leaf : Hv) :
    Option (List Hv) :=
  mergeRoots internal (Word.trailingZeros (~~~numExistingLeaves)) (frozenSubtreeRoots ++ [leaf])

/-- The `for leaf in leaves` loop of `append`: each leaf is appended and the count raised. -/
def appendLeaves : List Hv → UInt64 → List Hv → Option (List Hv × UInt64)
  | frozenSubtreeRoots, numLeaves, [] => some (frozenSubtreeRoots, numLeaves)
  | frozenSubtreeRoots, numLeaves, leaf :: leaves => do
    let frozenSubtreeRoots ← appendOne internal frozenSubtreeRoots numLeaves leaf
    let numLeaves ← Word.checkedAdd numLeaves 1
    appendLeaves frozenSubtreeRoots numLeaves leaves

/-- `InMemoryAccumulator::append`; the `expect` on `new` panics on an inconsistent result. -/
def append (self : InMemoryAccumulator Hv) (leaves : List Hv) : Option (InMemoryAccumulator Hv) := do
  let (frozenSubtreeRoots, numLeaves) ←
    appendLeaves internal self.frozenSubtreeRoots self.numLeaves leaves
  (← new internal placeholderHash frozenSubtreeRoots numLeaves).toOption

/-- `InMemoryAccumulator::from_leaves`. -/
def fromLeaves (leaves : List Hv) : Option (InMemoryAccumulator Hv) := do
  (← default internal placeholderHash).append internal placeholderHash leaves

/-- `InMemoryAccumulator::version`: the version of the last leaf. -/
def version (self : InMemoryAccumulator Hv) : UInt64 :=
  if self.numLeaves = 0 then 0 else self.numLeaves - 1

/-! ### What an accumulator stands for -/

/-- The hash of the complete subtree at `level` over the leaves `leaf (pos * 2^level)`, …: the
leaf itself at level zero, and `MerkleTreeInternalNode` of the two children above. -/
def subtreeHashAt (leaf : Nat → Hv) : Nat → Nat → Hv
  | 0, pos => leaf pos
  | level + 1, pos =>
    internal (subtreeHashAt leaf level (2 * pos)) (subtreeHashAt leaf level (2 * pos + 1))

theorem subtreeHashAt_zero (leaf : Nat → Hv) (pos : Nat) : subtreeHashAt internal leaf 0 pos = leaf pos :=
  rfl

theorem subtreeHashAt_succ (leaf : Nat → Hv) (level pos : Nat) :
    subtreeHashAt internal leaf (level + 1) pos =
      internal (subtreeHashAt internal leaf level (2 * pos))
        (subtreeHashAt internal leaf level (2 * pos + 1)) := rfl

/-- `subtreeHashAt` of a node. -/
def subtreeHash (leaf : Nat → Hv) (t : Node) : Hv :=
  subtreeHashAt internal leaf t.level t.pos

/-- The root hashes of the frozen subtrees of the first `n` leaves, the largest first. -/
def frozenRoots (leaf : Nat → Hv) (n : Nat) : List Hv :=
  (frozenSubtrees n).map (subtreeHash internal leaf)

theorem frozenRoots_eq (leaf : Nat → Hv) (n : Nat) :
    frozenRoots internal leaf n = (frozenSubtrees n).map (subtreeHash internal leaf) := rfl

/-- The accumulator holds the frozen subtree roots of the first `num_leaves` leaves of `leaf`. -/
def HoldsPrefix (leaf : Nat → Hv) (self : InMemoryAccumulator Hv) : Prop :=
  self.frozenSubtreeRoots = frozenRoots internal leaf self.numLeaves.toNat

/-- A subtree's hash reads only the leaves under it. -/
theorem subtreeHashAt_congr {f g : Nat → Hv} (level : Nat) :
    ∀ pos, (∀ i, pos * 2 ^ level ≤ i → i < (pos + 1) * 2 ^ level → f i = g i) →
      subtreeHashAt internal f level pos = subtreeHashAt internal g level pos := by
  induction level with
  | zero =>
    intro pos h
    exact h pos (by simp) (by simp)
  | succ level ih =>
    intro pos h
    -- the children cover the two halves of the parent's leaves
    have hleft : 2 * pos * 2 ^ level = pos * 2 ^ (level + 1) := by ring
    have hmid : (2 * pos + 1) * 2 ^ level = pos * 2 ^ (level + 1) + 2 ^ level := by ring
    have hright : (2 * pos + 1 + 1) * 2 ^ level = (pos + 1) * 2 ^ (level + 1) := by ring
    have hend : (pos + 1) * 2 ^ (level + 1) = pos * 2 ^ (level + 1) + 2 * 2 ^ level := by ring
    rw [subtreeHashAt_succ, subtreeHashAt_succ,
      ih (2 * pos) fun i hlo hhi => h i (by omega) (by omega),
      ih (2 * pos + 1) fun i hlo hhi => h i (by omega) (by omega)]

/-- The frozen roots read only the first `n` leaves. -/
theorem frozenRoots_congr {f g : Nat → Hv} {n : Nat} (h : ∀ i < n, f i = g i) :
    frozenRoots internal f n = frozenRoots internal g n := by
  apply List.map_congr_left
  intro t ht
  have hle := InorderTree.add_one_mul_two_pow_le_of_mem_frozenSubtrees ht
  exact subtreeHashAt_congr internal t.level t.pos fun i _ hi => h i (by omega)

/-! ### Appending -/

/-- One merge of `append_one` on the two roots on top of the vector. -/
theorem mergeRoots_succ (i : Nat) (roots : List Hv) (left right : Hv) :
    mergeRoots internal (i + 1) (roots ++ [left, right]) =
      mergeRoots internal i (roots ++ [internal left right]) := by
  have hright : roots ++ [left, right] = (roots ++ [left]) ++ [right] := by simp
  simp only [mergeRoots, hright, List.getLast?_concat, List.dropLast_concat, Option.bind_eq_bind,
    Option.bind_some]

/-- After `k` merges over the set bits `j, …, j + k - 1` of `n`, the vector holds the frozen
subtrees of `n` from level `j + k` up, and on top the subtree of `2^(j+k)` leaves that ends with
leaf `n`. -/
theorem mergeRoots_frozenStack (leaf : Nat → Hv) (n k : Nat) :
    ∀ w j, k ≤ w → (∀ i, j ≤ i → i < j + k → n.testBit i = true) →
      mergeRoots internal k
          ((frozenStack w j n).reverse.map (subtreeHash internal leaf) ++
            [subtreeHashAt internal leaf j (n / 2 ^ j)]) =
        some ((frozenStack (w - k) (j + k) n).reverse.map (subtreeHash internal leaf) ++
            [subtreeHashAt internal leaf (j + k) (n / 2 ^ (j + k))]) := by
  induction k with
  | zero => intro w j _ _; rfl
  | succ k ih =>
    intro w j hk hbits
    obtain ⟨w, rfl⟩ : ∃ w', w = w' + 1 := ⟨w - 1, by omega⟩
    have hj : n.testBit j = true := hbits j (Nat.le_refl j) (by omega)
    -- the subtree ending with leaf `n` is the right sibling of the smallest frozen one
    have hodd : n / 2 ^ j = 2 * (n / 2 ^ (j + 1)) + 1 := by
      rw [Nat.testBit_eq_decide_div_mod_eq, decide_eq_true_eq] at hj
      rw [Nat.pow_succ, ← Nat.div_div_eq_div_mul]
      omega
    have hparent : internal (subtreeHash internal leaf ⟨j, n / 2 ^ j - 1⟩)
        (subtreeHashAt internal leaf j (n / 2 ^ j)) =
          subtreeHashAt internal leaf (j + 1) (n / 2 ^ (j + 1)) := by
      rw [subtreeHash, hodd, Nat.add_sub_cancel, subtreeHashAt_succ]
    rw [InorderTree.frozenStack_succ, if_pos hj, List.reverse_cons, List.map_append, List.map_singleton,
      List.append_assoc, List.singleton_append, mergeRoots_succ, hparent,
      ih w (j + 1) (by omega) fun i hi hik => hbits i (by omega) (by omega),
      show j + 1 + k = j + (k + 1) by omega, show w + 1 - (k + 1) = w - k by omega]

/-- The trailing ones of a leaf count below `2^64 - 1`, which `append_one` counts as the trailing
zeros of its complement: `t < 64` of them, then a clear bit. -/
private theorem trailingOnes_spec {n : UInt64} (hn : n.toNat + 1 < 2 ^ 64) :
    Word.trailingZeros (~~~n) < 64 ∧ (∀ i < Word.trailingZeros (~~~n), n.toNat.testBit i = true) ∧
      n.toNat.testBit (Word.trailingZeros (~~~n)) = false := by
  have hne : (~~~n).toNat % 2 ^ 64 ≠ 0 := by
    rw [Nat.mod_eq_of_lt (~~~n).toNat_lt, UInt64.toNat_not]
    simp only [UInt64.size]
    omega
  obtain ⟨hlt, hbit, hlow⟩ := Bits.trailingZeros_spec hne
  have hlt' : Word.trailingZeros (~~~n) < 64 := hlt
  have hbit' : (~~~n).toNat.testBit (Word.trailingZeros (~~~n)) = true := hbit
  have hlow' : ∀ i < Word.trailingZeros (~~~n), (~~~n).toNat.testBit i = false := hlow
  refine ⟨hlt', fun i hi => ?_, ?_⟩
  · have h := hlow' i hi
    rw [Word.testBit_toNat_not, decide_eq_true (by omega : i < 64), Bool.true_and] at h
    simpa using h
  · rw [Word.testBit_toNat_not, decide_eq_true hlt', Bool.true_and] at hbit'
    simpa using hbit'

/-- `append_one` takes the frozen roots of `n` leaves and leaf `n` to the frozen roots of
`n + 1` leaves. -/
theorem appendOne_frozenRoots (leaf : Nat → Hv) {n : UInt64} (hn : n.toNat + 1 < 2 ^ 64) :
    appendOne internal (frozenRoots internal leaf n.toNat) n (leaf n.toNat) =
      some (frozenRoots internal leaf (n.toNat + 1)) := by
  obtain ⟨hlt, hones, hzero⟩ := trailingOnes_spec hn
  obtain ⟨hsucc, hstay⟩ := InorderTree.frozenStack_succ_of_trailingOnes hlt hones hzero
  have hstart : frozenRoots internal leaf n.toNat ++ [leaf n.toNat] =
      (frozenStack 64 0 n.toNat).reverse.map (subtreeHash internal leaf) ++
        [subtreeHashAt internal leaf 0 (n.toNat / 2 ^ 0)] := by
    simp [frozenRoots_eq, InorderTree.frozenSubtrees_eq, subtreeHashAt_zero]
  rw [appendOne, hstart, mergeRoots_frozenStack internal leaf n.toNat _ 64 0 hlt.le
    fun i _ hi => hones i (by omega), Nat.zero_add, hstay, frozenRoots_eq, InorderTree.frozenSubtrees_eq, hsucc,
    List.reverse_cons, List.map_append, List.map_singleton]
  rfl

/-- The `for` loop of `append` over the next `k` leaves. -/
theorem appendLeaves_frozenRoots (leaf : Nat → Hv) (k : Nat) :
    ∀ n : UInt64, n.toNat + k < 2 ^ 64 →
      appendLeaves internal (frozenRoots internal leaf n.toNat) n
          ((List.range' n.toNat k).map leaf) =
        some (frozenRoots internal leaf (n.toNat + k), UInt64.ofNat (n.toNat + k)) := by
  induction k with
  | zero => intro n _; simp [appendLeaves]
  | succ k ih =>
    intro n hk
    have hlt : n.toNat + 1 < 2 ^ 64 := by omega
    have hadd : (n + 1).toNat = n.toNat + 1 := Word.toNat_add_of_lt (by simpa using hlt)
    have hrest := ih (n + 1) (by omega)
    rw [hadd, show n.toNat + 1 + k = n.toNat + (k + 1) by omega] at hrest
    simp only [List.range'_succ, List.map_cons, appendLeaves, appendOne_frozenRoots internal leaf hlt,
      Word.checkedAdd_of_lt (a := n) (b := 1) (by simpa using hlt), Option.bind_eq_bind,
      Option.bind_some, hrest]


/-- The loop of `compute_root_hash` finds a frozen root for every set bit it meets. -/
theorem computeRootHashLoop_isSome (bitmap : UInt64) (currentHash : Hv) (frozenSubtreeIter : List Hv)
    (h : Word.countOnes bitmap ≤ frozenSubtreeIter.length) :
    (computeRootHashLoop internal placeholderHash bitmap currentHash frozenSubtreeIter).isSome := by
  fun_induction computeRootHashLoop internal placeholderHash bitmap currentHash frozenSubtreeIter with
  | case1 bitmap _ _ hbit =>
    -- a set bit, and no root left
    have hsplit := Word.countOnes_eq_mod_add_shiftRight_one bitmap
    rw [Word.and_one_ne_zero_iff] at hbit
    simp only [List.length_nil] at h
    omega
  | case2 bitmap _ _ hbit _ rest ih =>
    have hsplit := Word.countOnes_eq_mod_add_shiftRight_one bitmap
    rw [Word.and_one_ne_zero_iff] at hbit
    simp only [List.length_cons] at h
    exact ih (by omega)
  | case3 bitmap _ _ _ hbit ih =>
    have hsplit := Word.countOnes_eq_mod_add_shiftRight_one bitmap
    rw [Word.and_one_ne_zero_iff] at hbit
    exact ih (by omega)
  | case4 => rfl

/-- `compute_root_hash` never panics on one frozen root per one bit of the leaf count. -/
theorem computeRootHash_isSome {frozenSubtreeRoots : List Hv} {numLeaves : UInt64}
    (h : frozenSubtreeRoots.length = Word.countOnes numLeaves) :
    (computeRootHash internal placeholderHash frozenSubtreeRoots numLeaves).isSome := by
  match frozenSubtreeRoots, h with
  | [], _ => rfl
  | [_], _ => rfl
  | r₁ :: r₂ :: rest, h =>
    -- two roots or more: the leaf count is not zero, and shifting out its trailing zeros keeps
    -- its one bits
    have hne : numLeaves.toNat % 2 ^ 64 ≠ 0 := by
      rw [Nat.mod_eq_of_lt numLeaves.toNat_lt]
      intro h0
      simp [Word.countOnes, h0] at h
    obtain ⟨htz, -, -⟩ := Bits.trailingZeros_spec hne
    have htz' : Word.trailingZeros numLeaves < 64 := htz
    have hle := Bits.countOnes_div_two_pow_le numLeaves.toNat_lt (Word.trailingZeros numLeaves)
    simp only [computeRootHash, Word.checkedShr_of_lt numLeaves htz', Option.bind_eq_bind,
      Option.bind_some]
    apply computeRootHashLoop_isSome
    rw [Word.countOnes, Word.toNat_shiftRight htz', List.length_reverse, h]
    exact hle

/-- `new` accepts the frozen roots of every leaf prefix. -/
theorem new_frozenRoots (leaf : Nat → Hv) (n : UInt64) :
    ∃ rootHash, new internal placeholderHash (frozenRoots internal leaf n.toNat) n =
      some (.ok ⟨frozenRoots internal leaf n.toNat, n, rootHash⟩) := by
  have hlen : (frozenRoots internal leaf n.toNat).length = Word.countOnes n := by
    rw [frozenRoots_eq, List.length_map, InorderTree.length_frozenSubtrees]
    rfl
  obtain ⟨rootHash, hroot⟩ :=
    Option.isSome_iff_exists.mp (computeRootHash_isSome internal placeholderHash hlen)
  exact ⟨rootHash, by rw [new, if_pos hlen, hroot]; rfl⟩

theorem default_eq : default internal placeholderHash = some ⟨[], 0, placeholderHash⟩ := rfl

/-- `append` of the next `k` leaves to an accumulator of a leaf prefix. -/
theorem append_holdsPrefix (leaf : Nat → Hv) {self : InMemoryAccumulator Hv}
    (hself : HoldsPrefix internal leaf self) (k : Nat) (hk : self.numLeaves.toNat + k < 2 ^ 64) :
    ∃ acc, self.append internal placeholderHash ((List.range' self.numLeaves.toNat k).map leaf) =
        some acc ∧ acc.numLeaves.toNat = self.numLeaves.toNat + k ∧ HoldsPrefix internal leaf acc := by
  have hnum : (UInt64.ofNat (self.numLeaves.toNat + k)).toNat = self.numLeaves.toNat + k :=
    UInt64.toNat_ofNat_of_lt' hk
  obtain ⟨rootHash, hnew⟩ :=
    new_frozenRoots internal placeholderHash leaf (UInt64.ofNat (self.numLeaves.toNat + k))
  rw [hnum] at hnew
  refine ⟨⟨frozenRoots internal leaf (self.numLeaves.toNat + k),
    UInt64.ofNat (self.numLeaves.toNat + k), rootHash⟩, ?_, hnum, ?_⟩
  · rw [append, hself, appendLeaves_frozenRoots internal leaf k self.numLeaves hk]
    simp only [Option.bind_eq_bind, Option.bind_some, hnew, Except.toOption_ok]
  · show _ = frozenRoots internal leaf (UInt64.ofNat _).toNat
    rw [hnum]

/-- A run of `append` over batches that continue the leaf prefix keeps the frozen roots of the
prefix. -/
theorem foldlM_append_holdsPrefix (leaf : Nat → Hv) (batches : List (List Hv)) :
    ∀ self : InMemoryAccumulator Hv, HoldsPrefix internal leaf self →
      batches.flatten = (List.range' self.numLeaves.toNat batches.flatten.length).map leaf →
      self.numLeaves.toNat + batches.flatten.length < 2 ^ 64 →
      ∃ acc, batches.foldlM (fun acc batch => acc.append internal placeholderHash batch) self =
          some acc ∧
        acc.numLeaves.toNat = self.numLeaves.toNat + batches.flatten.length ∧
          HoldsPrefix internal leaf acc := by
  induction batches with
  | nil => intro self hself _ _; exact ⟨self, rfl, by simp, hself⟩
  | cons batch rest ih =>
    intro self hself hleaves hlen
    rw [List.flatten_cons, List.length_append] at hleaves hlen
    -- the batch is the next `batch.length` leaves, and the rest continue after it
    rw [← List.range'_append, List.map_append, Nat.one_mul] at hleaves
    obtain ⟨hbatch, hrest⟩ := List.append_inj hleaves (by simp)
    obtain ⟨acc, happend, hnum, hacc⟩ :=
      append_holdsPrefix internal placeholderHash leaf hself batch.length (by omega)
    rw [← hbatch] at happend
    obtain ⟨acc', hfold, hnum', hacc'⟩ := ih acc hacc (by rw [hnum]; exact hrest) (by omega)
    refine ⟨acc', ?_, by rw [hnum', hnum, List.flatten_cons, List.length_append]; omega, hacc'⟩
    rw [List.foldlM_cons, happend]
    exact hfold

/-- Whatever batches the leaves are appended in, starting from `InMemoryAccumulator::default`,
`append` never panics while fewer than `2^64` leaves are in, and the accumulator holds the root
hashes of the frozen subtrees of the leaves appended so far: one per one bit of their number,
the largest first. -/
theorem foldlM_append_frozenRoots (batches : List (List Hv))
    (hlen : batches.flatten.length < 2 ^ 64) :
    ∃ acc, ((default internal placeholderHash).bind fun acc₀ =>
        batches.foldlM (fun acc batch => acc.append internal placeholderHash batch) acc₀) =
          some acc ∧
      acc.numLeaves.toNat = batches.flatten.length ∧
      ∀ leaf : Nat → Hv, (∀ i (hi : i < batches.flatten.length), leaf i = batches.flatten[i]) →
        acc.frozenSubtreeRoots = frozenRoots internal leaf batches.flatten.length := by
  -- the appended leaves as a sequence: the flattened batches, then anything
  let f : Nat → Hv := fun i => batches.flatten.getD i placeholderHash
  have hf : batches.flatten = (List.range' (0 : UInt64).toNat batches.flatten.length).map f := by
    apply List.ext_getElem (by simp)
    intro i h₁ _
    simp [f, List.getElem?_eq_getElem h₁]
  have hempty : HoldsPrefix internal f ⟨[], 0, placeholderHash⟩ := by
    simp [HoldsPrefix, frozenRoots_eq, InorderTree.frozenSubtrees_eq,
      InorderTree.frozenStack_zero_right]
  obtain ⟨acc, hfold, hnum, hacc⟩ := foldlM_append_holdsPrefix internal placeholderHash f batches
    ⟨[], 0, placeholderHash⟩ hempty hf (by simpa using hlen)
  simp only [UInt64.toNat_zero, Nat.zero_add] at hnum
  refine ⟨acc, by rw [default_eq, Option.bind_some]; exact hfold, hnum, fun leaf hleaf => ?_⟩
  rw [hacc, hnum]
  exact frozenRoots_congr internal fun i hi => by simp [f, List.getElem?_eq_getElem hi, hleaf i hi]

theorem foldlM_append_frozenRoots_two_batches :
    ([[1, 2], [3]] : List (List Nat)).flatten.length < 2 ^ 64 ∧
      ∃ acc, ((default Nat.add 0).bind fun acc₀ =>
          ([[1, 2], [3]] : List (List Nat)).foldlM (fun acc batch => acc.append Nat.add 0 batch) acc₀) =
            some acc ∧
        acc.numLeaves.toNat = ([[1, 2], [3]] : List (List Nat)).flatten.length ∧
        ∀ leaf : Nat → Nat, (∀ i (hi : i < ([[1, 2], [3]] : List (List Nat)).flatten.length),
            leaf i = ([[1, 2], [3]] : List (List Nat)).flatten[i]) →
          acc.frozenSubtreeRoots = frozenRoots Nat.add leaf ([[1, 2], [3]] : List (List Nat)).flatten.length :=
  ⟨by decide, foldlM_append_frozenRoots Nat.add 0 [[1, 2], [3]] (by decide)⟩

end InMemoryAccumulator

/-- `AccumulatorExtensionProof`: an accumulator given by its frozen roots, and leaves to append to
it. -/
structure AccumulatorExtensionProof (Hv : Type) where
  frozenSubtreeRoots : List Hv
  numLeaves : UInt64
  leaves : List Hv
  deriving DecidableEq

namespace AccumulatorExtensionProof

variable {Hv : Type} [DecidableEq Hv] (internal : Hv → Hv → Hv) (placeholderHash : Hv)

/-- `AccumulatorExtensionProof::verify`: the original accumulator must have the given root, and the
new leaves are appended to it. -/
def verify (self : AccumulatorExtensionProof Hv) (originalRoot : Hv) :
    Option (Except (AccumulatorError Hv) (InMemoryAccumulator Hv)) := do
  match ← InMemoryAccumulator.new internal placeholderHash self.frozenSubtreeRoots self.numLeaves with
  | .error e => pure (.error e)
  | .ok originalTree =>
    if originalTree.rootHash = originalRoot then
      (originalTree.append internal placeholderHash self.leaves).map .ok
    else pure (.error (.rootHashesDoNotMatch originalTree.rootHash originalRoot))

end AccumulatorExtensionProof

end CreditChain
