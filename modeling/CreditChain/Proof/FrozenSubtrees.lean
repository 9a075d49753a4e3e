import CreditChain.Proof.Position
import CreditChain.Proof.Definition
import CreditChain.Lib.Iter

/-!
# The frozen subtrees of an accumulator

`FrozenSubTreeIterator` and `FrozenSubtreeSiblingIterator` of `types/src/proof/position/mod.rs`.
The first yields the roots of the frozen subtrees of an accumulator of `n` leaves: it finds the
largest one left from the highest bit of a bitmap of the leaves not yet covered, by
`smear_ones_for_u64`.  The second yields the roots of the complete subtrees that grow an
accumulator of `m` leaves to `n`: each as large as the rightmost frozen subtree, while enough new
leaves remain, and then as large as the highest bit of what remains.

* `collect_frozenSubTreeIterator`: for `n ≤ 2^63` the first iterator fails no assertion and
  yields the frozen subtrees of `InorderTree.frozenSubtrees n`, one per one bit of `n`, the
  largest first;
* `slowGetFrozenSubtreeRoots_eq`: so does the tests' recursive `slow_get_frozen_subtree_roots`;
* `FrozenSubtreeSiblingIterator.collect_spec`: for `m ≤ n ≤ 2^63` the second never panics, and
  yields complete subtrees that cover the leaves `m, …, n - 1` from the left and that, appended
  one by one to the frozen subtrees of `m` leaves, give those of `n` leaves.
-/

namespace CreditChain

open InorderTree (Node frozenStack frozenSubtrees pushMerge)

/-- `MAX_ACCUMULATOR_LEAVES`: `1 << MAX_ACCUMULATOR_PROOF_DEPTH`. -/
def maxAccumulatorLeaves : UInt64 := (1 : UInt64) <<< 63

/-- `smear_ones_for_u64`: every bit below the highest one bit set. -/
def smearOnesForU64 (v : UInt64) : UInt64 :=
  let n := v
  let n := n ||| n >>> 1
  let n := n ||| n >>> 2
  let n := n ||| n >>> 4
  let n := n ||| n >>> 8
  let n := n ||| n >>> 16
  let n := n ||| n >>> 32
  n

namespace Position

/-- `Position::from_inorder_index`. -/
def fromInorderIndex (index : UInt64) : Position := ⟨index⟩

/-- `Position::root_from_leaf_index`: the smallest root whose subtree holds the leaf. -/
def rootFromLeafIndex (leafIndex : UInt64) : Option Position := do
  let leaf ← fromLeafIndex leafIndex
  pure ⟨smearOnesForU64 leaf.val >>> 1⟩

/-- `Position::root_from_leaf_count`; `none` is the failed assertion `leaf_count > 0`. -/
def rootFromLeafCount (leafCount : UInt64) : Option Position :=
  if leafCount > 0 then rootFromLeafIndex (leafCount - 1) else none

/-- `Position::is_freezable`: every leaf of the subtree is at most the given leaf. -/
def isFreezable (self : Position) (leafIndex : UInt64) : Option Bool := do
  let leaf ← fromLeafIndex leafIndex
  let rightMostChild ← self.rightMostChild
  pure (rightMostChild.val ≤ leaf.val)

/-- `Position::is_placeholder`: the node and its whole subtree lie after the given leaf. -/
def isPlaceholder (self : Position) (leafIndex : UInt64) : Option Bool := do
  let leaf ← fromLeafIndex leafIndex
  if self.val ≤ leaf.val then pure false
  else
    let leftMostChild ← self.leftMostChild
    if leftMostChild.val ≤ leaf.val then pure false else pure true

end Position

/-- `slow_get_frozen_subtree_roots_impl` of the position tests: the frozen roots below `root`
found by descending the tree.  The Rust recursion goes down a level at each call and stops at a
leaf, which is freezable or a placeholder; `fuel` bounds the depth, and `none` is a panic or
running out of it. -/
def slowGetFrozenSubtreeRootsImpl : Nat → Position → UInt64 → Option (List Position)
  | 0, _, _ => none
  | fuel + 1, root, maxLeafIndex => do
    let freezable ← root.isFreezable maxLeafIndex
    if freezable then pure [root]
    else
      let placeholder ← root.isPlaceholder maxLeafIndex
      if placeholder then pure []
      else
        let left ← root.leftChild
        let roots ← slowGetFrozenSubtreeRootsImpl fuel left maxLeafIndex
        let right ← root.rightChild
        let rest ← slowGetFrozenSubtreeRootsImpl fuel right maxLeafIndex
        pure (roots ++ rest)

theorem slowGetFrozenSubtreeRootsImpl_succ (fuel : Nat) (root : Position) (maxLeafIndex : UInt64) :
    slowGetFrozenSubtreeRootsImpl (fuel + 1) root maxLeafIndex = (do
      let freezable ← root.isFreezable maxLeafIndex
      if freezable then pure [root]
      else
        let placeholder ← root.isPlaceholder maxLeafIndex
        if placeholder then pure []
        else
          let left ← root.leftChild
          let roots ← slowGetFrozenSubtreeRootsImpl fuel left maxLeafIndex
          let right ← root.rightChild
          let rest ← slowGetFrozenSubtreeRootsImpl fuel right maxLeafIndex
          pure (roots ++ rest)) := rfl

/-- `slow_get_frozen_subtree_roots` of the position tests, with the depth of a tree of `2^63`
leaves as fuel. -/
def slowGetFrozenSubtreeRoots (numLeaves : UInt64) : Option (List Position) :=
  if numLeaves = 0 then some []
  else do
    let root ← Position.rootFromLeafCount numLeaves
    slowGetFrozenSubtreeRootsImpl 64 root (numLeaves - 1)

/-- `FrozenSubTreeIterator`: the leaves not yet covered, as a bitmap, and those already seen. -/
structure FrozenSubTreeIterator where
  bitmap : UInt64
  seenLeaves : UInt64

namespace FrozenSubTreeIterator

/-- `FrozenSubTreeIterator::new`. -/
def new (numLeaves : UInt64) : FrozenSubTreeIterator := ⟨numLeaves, 0⟩

/-- `Iterator::next`: the root of the largest frozen subtree left; `none` is a failed assertion or
an overflow. -/
def next (self : FrozenSubTreeIterator) : Option (Option Position × FrozenSubTreeIterator) :=
  -- `assert!(self.seen_leaves < u64::MAX - self.bitmap)`
  if self.seenLeaves < u64Max - self.bitmap then
    if self.bitmap = 0 then some (none, self)
    else
      let rootOffset := smearOnesForU64 self.bitmap >>> 1
      -- `assert!(root_offset < self.bitmap)`
      if rootOffset < self.bitmap then do
        let numLeaves ← Word.checkedAdd rootOffset 1
        let leftmostLeaf ← Position.fromLeafIndex self.seenLeaves
        let rootIndex ← Word.checkedAdd leftmostLeaf.toInorderIndex rootOffset
        let seenLeaves ← Word.checkedAdd self.seenLeaves numLeaves
        pure (some (Position.fromInorderIndex rootIndex),
          ⟨self.bitmap &&& ~~~numLeaves, seenLeaves⟩)
      else none
  else none

/-- The roots the iterator yields, in at most `fuel` calls of `next`. -/
def collect (fuel : Nat) (self : FrozenSubTreeIterator) : Option (List Position) :=
  Iter.collect next fuel self

end FrozenSubTreeIterator

/-- `FrozenSubtreeSiblingIterator`. -/
structure FrozenSubtreeSiblingIterator where
  currentNumLeaves : UInt64
  remainingNewLeaves : UInt64

namespace FrozenSubtreeSiblingIterator

/-- `FrozenSubtreeSiblingIterator::new`; `none` is a failed assertion. -/
def new (currentNumLeaves newNumLeaves : UInt64) : Option FrozenSubtreeSiblingIterator :=
  if newNumLeaves ≤ maxAccumulatorLeaves ∧ currentNumLeaves ≤ newNumLeaves then
    some ⟨currentNumLeaves, newNumLeaves - currentNumLeaves⟩
  else none

/-- `next_new_leaf_batch`: as many leaves as the highest bit of those remaining. The `usize`
subtraction `MAX_ACCUMULATOR_PROOF_DEPTH - zeros` panics below zero. -/
def nextNewLeafBatch (self : FrozenSubtreeSiblingIterator) : Option UInt64 :=
  let zeros := Word.leadingZeros self.remainingNewLeaves
  if zeros ≤ maxAccumulatorProofDepth then Word.checkedShl 1 (maxAccumulatorProofDepth - zeros)
  else none

/-- The size of the next subtree in `next`: the size of the rightmost frozen subtree while that
many new leaves remain, otherwise `next_new_leaf_batch`. -/
def nextSubtreeLeaves (self : FrozenSubtreeSiblingIterator) : Option UInt64 :=
  if self.currentNumLeaves > 0 then do
    let rightmostFrozenSubtreeLeaves ← Word.checkedShl 1 (Word.trailingZeros self.currentNumLeaves)
    if self.remainingNewLeaves ≥ rightmostFrozenSubtreeLeaves then pure rightmostFrozenSubtreeLeaves
    else self.nextNewLeafBatch
  else self.nextNewLeafBatch

/-- `Iterator::next`: the root of the next complete subtree; `none` is a panic. -/
def next (self : FrozenSubtreeSiblingIterator) :
    Option (Option Position × FrozenSubtreeSiblingIterator) :=
  if self.remainingNewLeaves = 0 then some (none, self)
  else do
    let nextSubtreeLeaves ← self.nextSubtreeLeaves
    let firstLeafIndex := self.currentNumLeaves
    let lastLeafIndex ← (Word.checkedAdd firstLeafIndex nextSubtreeLeaves).bind (Word.checkedSub · 1)
    let currentNumLeaves ← Word.checkedAdd self.currentNumLeaves nextSubtreeLeaves
    let remainingNewLeaves ← Word.checkedSub self.remainingNewLeaves nextSubtreeLeaves
    let index ← Word.checkedAdd firstLeafIndex lastLeafIndex
    pure (some (Position.fromInorderIndex index), ⟨currentNumLeaves, remainingNewLeaves⟩)

/-- The roots the iterator yields, in at most `fuel` calls of `next`. -/
def collect (fuel : Nat) (self : FrozenSubtreeSiblingIterator) : Option (List Position) :=
  Iter.collect next fuel self

end FrozenSubtreeSiblingIterator

/-! ### Smearing the bits below the highest one -/

/-- Or-ing in the word shifted by `2^j` doubles the run of bits read above each position. -/
private theorem testBit_smearStep {n v k : UInt64} {j : Nat} (hk : k.toNat = 2 ^ j) (hj : j < 6)
    (h : ∀ i, n.toNat.testBit i = true ↔ ∃ d < 2 ^ j, v.toNat.testBit (i + d) = true) (i : Nat) :
    (n ||| n >>> k).toNat.testBit i = true ↔ ∃ d < 2 ^ (j + 1), v.toNat.testBit (i + d) = true := by
  have hshift : k.toNat % 64 = 2 ^ j := by
    rw [hk]
    exact Nat.mod_eq_of_lt (Nat.lt_of_lt_of_le (Nat.pow_lt_pow_right (by decide) hj) (by decide))
  rw [UInt64.toNat_or, Nat.testBit_or, Bool.or_eq_true, UInt64.toNat_shiftRight, hshift,
    Nat.testBit_shiftRight, h, h]
  constructor
  · rintro (⟨d, hd, hv⟩ | ⟨d, hd, hv⟩)
    · exact ⟨d, by rw [Nat.pow_succ]; omega, hv⟩
    · exact ⟨2 ^ j + d, by rw [Nat.pow_succ]; omega, by rwa [← Nat.add_assoc, Nat.add_comm i]⟩
  · rintro ⟨d, hd, hv⟩
    by_cases hlt : d < 2 ^ j
    · exact Or.inl ⟨d, hlt, hv⟩
    · refine Or.inr ⟨d - 2 ^ j, by rw [Nat.pow_succ] at hd; omega, ?_⟩
      rwa [show 2 ^ j + i + (d - 2 ^ j) = i + d by omega]

/-- `smear_ones_for_u64` sets bit `i` when some bit of `v` from `i` up is set. -/
theorem testBit_smearOnesForU64 (v : UInt64) (i : Nat) :
    (smearOnesForU64 v).toNat.testBit i = true ↔ ∃ d < 64, v.toNat.testBit (i + d) = true := by
  have h0 : ∀ i, v.toNat.testBit i = true ↔ ∃ d < 2 ^ 0, v.toNat.testBit (i + d) = true :=
    fun i => by simp
  have h1 := testBit_smearStep (k := 1) (j := 0) rfl (by decide) h0
  have h2 := testBit_smearStep (k := 2) (j := 1) rfl (by decide) h1
  have h3 := testBit_smearStep (k := 4) (j := 2) rfl (by decide) h2
  have h4 := testBit_smearStep (k := 8) (j := 3) rfl (by decide) h3
  have h5 := testBit_smearStep (k := 16) (j := 4) rfl (by decide) h4
  exact testBit_smearStep (k := 32) (j := 5) rfl (by decide) h5 i

/-- `smear_ones_for_u64` of a nonzero word is the ones up to its highest one bit. -/
theorem toNat_smearOnesForU64 {v : UInt64} (hv : v ≠ 0) :
    (smearOnesForU64 v).toNat = 2 ^ (Nat.log2 v.toNat + 1) - 1 := by
  have hv0 : v.toNat ≠ 0 := fun h => hv (UInt64.toNat_inj.mp (by rw [h]; rfl))
  have hlog : Nat.log2 v.toNat < 64 := (Nat.log2_lt hv0).mpr v.toNat_lt
  apply Nat.eq_of_testBit_eq
  intro i
  rw [Bool.eq_iff_iff, testBit_smearOnesForU64, Nat.testBit_two_pow_sub_one, decide_eq_true_iff]
  constructor
  · rintro ⟨d, -, hd⟩
    -- no bit above the highest one bit is set
    by_contra hgt
    rw [Nat.testBit_lt_two_pow (Nat.lt_of_lt_of_le Nat.lt_log2_self
      (Nat.pow_le_pow_right (by decide) (by omega)))] at hd
    exact Bool.false_ne_true hd
  · intro hi
    exact ⟨Nat.log2 v.toNat - i, by omega, by rw [Nat.add_sub_cancel' (by omega)]; exact Nat.testBit_log2 hv0⟩

/-! ### The frozen subtree iterator -/

namespace FrozenSubTreeIterator

/-- The state after yielding the frozen subtrees of `n` leaves above level `w`: the bitmap holds
the bits of `n` below `w`, and the leaves above them have been seen. -/
def Inv (n w : Nat) (it : FrozenSubTreeIterator) : Prop :=
  w ≤ 64 ∧ it.bitmap.toNat = n % 2 ^ w ∧ it.seenLeaves.toNat = n - n % 2 ^ w

theorem inv_new {n : UInt64} : Inv n.toNat 64 (new n) :=
  ⟨Nat.le_refl _, (Nat.mod_eq_of_lt n.toNat_lt).symm, by simp [new, Nat.mod_eq_of_lt n.toNat_lt]⟩

/-- The assertion of `next` holds while fewer than `u64::MAX` leaves are counted. -/
theorem assert_of_inv {n w : Nat} {it : FrozenSubTreeIterator} (hn : n ≤ 2 ^ 63) (h : Inv n w it) :
    it.seenLeaves < u64Max - it.bitmap := by
  obtain ⟨-, hb, hs⟩ := h
  have hmax : u64Max.toNat = 2 ^ 64 - 1 := rfl
  have hle : it.bitmap ≤ u64Max := by
    rw [UInt64.le_iff_toNat_le, hmax]
    have := it.bitmap.toNat_lt
    omega
  rw [UInt64.lt_iff_toNat_lt, UInt64.toNat_sub_of_le _ _ hle, hmax, hb, hs]
  have := Nat.mod_le n (2 ^ w)
  omega

/-- The highest bit left in the bitmap: a bit of `n` with no bit of `n` between it and `w`. -/
private theorem highBit {n w : Nat} (hb : n % 2 ^ w ≠ 0) :
    Nat.log2 (n % 2 ^ w) < w ∧ n.testBit (Nat.log2 (n % 2 ^ w)) = true ∧
      n % 2 ^ w = n % 2 ^ (Nat.log2 (n % 2 ^ w) + 1) := by
  have hlt : Nat.log2 (n % 2 ^ w) < w := (Nat.log2_lt hb).mpr (Nat.mod_lt _ (Nat.two_pow_pos w))
  have hbit := Nat.testBit_log2 hb
  rw [Nat.testBit_mod_two_pow, Bool.and_eq_true] at hbit
  refine ⟨hlt, hbit.2, ?_⟩
  rw [← Nat.mod_mod_of_dvd n (Nat.pow_dvd_pow 2 (show Nat.log2 (n % 2 ^ w) + 1 ≤ w by omega)),
    Nat.mod_eq_of_lt Nat.lt_log2_self]

/-- The frozen subtrees below level `w` start with the one of the highest bit left. -/
theorem frozenStack_of_highBit {n w : Nat} (hb : n % 2 ^ w ≠ 0) :
    (frozenStack w 0 n).reverse =
      ⟨Nat.log2 (n % 2 ^ w), n / 2 ^ Nat.log2 (n % 2 ^ w) - 1⟩ ::
        (frozenStack (Nat.log2 (n % 2 ^ w)) 0 n).reverse := by
  obtain ⟨hlt, hbit, hmod⟩ := highBit hb
  generalize Nat.log2 (n % 2 ^ w) = l at hlt hbit hmod ⊢
  -- the bits of `n` between the highest bit left and `w` are clear
  have hclear : ∀ i, l + 1 ≤ i → i < l + 1 + (w - (l + 1)) → n.testBit (0 + i) = false := by
    intro i hi hiw
    have h := Nat.testBit_mod_two_pow n w i
    rw [hmod, Nat.testBit_mod_two_pow, decide_eq_false (by omega), Bool.false_and] at h
    rw [Nat.zero_add, ← Bool.not_eq_true]
    intro hn
    rw [hn, decide_eq_true (by omega), Bool.and_true] at h
    exact Bool.false_ne_true h
  have htrunc := InorderTree.frozenStack_trunc 0 (l + 1) (w - (l + 1)) hclear
  rw [show l + 1 + (w - (l + 1)) = w by omega] at htrunc
  rw [htrunc, InorderTree.frozenStack_succ_top, Nat.zero_add, if_pos hbit, List.reverse_append]
  rfl

/-- The root of the frozen subtree of a one bit `l` of `n` lies `2^l - 1` past the leftmost of its
leaves, the leaves above bit `l` counting twice in in-order. -/
private theorem index_highBit {n l : Nat} (hbit : n.testBit l = true) :
    (⟨l, n / 2 ^ l - 1⟩ : Node).index = 2 * (n - n % 2 ^ (l + 1)) + (2 ^ l - 1) := by
  have hodd : n / 2 ^ l % 2 = 1 := by
    rw [Nat.testBit_eq_decide_div_mod_eq, decide_eq_true_iff] at hbit
    exact hbit
  have hdiv : n / 2 ^ (l + 1) = n / 2 ^ l / 2 := by rw [Nat.pow_succ, Nat.div_div_eq_div_mul]
  have hdm := Nat.div_add_mod n (2 ^ (l + 1))
  have hpos : n / 2 ^ l - 1 = 2 * (n / 2 ^ (l + 1)) := by omega
  have hmul : 2 * (n / 2 ^ (l + 1)) * 2 ^ (l + 1) = 2 * (2 ^ (l + 1) * (n / 2 ^ (l + 1))) := by ring
  show (n / 2 ^ l - 1) * 2 ^ (l + 1) + (2 ^ l - 1) = _
  rw [hpos, hmul]
  omega

/-- Clearing the highest bit `l` of the bitmap leaves the bits of `n` below `l`. -/
private theorem toNat_and_not_highBit {n l : Nat} {b x : UInt64} (hl : l < 64)
    (hb : b.toNat = n % 2 ^ (l + 1)) (hx : x.toNat = 2 ^ l) :
    (b &&& ~~~x).toNat = n % 2 ^ l := by
  apply Nat.eq_of_testBit_eq
  intro i
  rw [UInt64.toNat_and, Nat.testBit_and, Word.testBit_toNat_not, hb, hx, Nat.testBit_mod_two_pow,
    Nat.testBit_mod_two_pow, Nat.testBit_two_pow]
  rcases Nat.lt_trichotomy i l with hi | rfl | hi
  · simp [hi, show i < l + 1 by omega, show i < 64 by omega, show l ≠ i by omega]
  · simp
  · simp [show ¬ i < l + 1 by omega, show ¬ i < l by omega]

/-- One call of `next` with leaves left: it yields the root of the frozen subtree of the highest
bit left, and moves below that bit. -/
theorem next_of_ne_zero {n w : Nat} {it : FrozenSubTreeIterator} (hn : n ≤ 2 ^ 63) (h : Inv n w it)
    (hb : n % 2 ^ w ≠ 0) :
    ∃ it', it.next = some (some (Position.ofNode
        ⟨Nat.log2 (n % 2 ^ w), n / 2 ^ Nat.log2 (n % 2 ^ w) - 1⟩), it') ∧
      Inv n (Nat.log2 (n % 2 ^ w)) it' := by
  have hassert := assert_of_inv hn h
  obtain ⟨hw, hbm, hseen⟩ := h
  obtain ⟨hlt, hbit, hmod⟩ := highBit hb
  have hne : it.bitmap ≠ 0 := fun h0 => hb (by rw [← hbm, h0]; rfl)
  have hlog : Nat.log2 it.bitmap.toNat = Nat.log2 (n % 2 ^ w) := by rw [hbm]
  generalize Nat.log2 (n % 2 ^ w) = l at hlt hbit hmod hlog ⊢
  rw [hmod] at hbm hseen
  have hsplit : n % 2 ^ (l + 1) = n % 2 ^ l + 2 ^ l := by
    have hodd : n / 2 ^ l % 2 = 1 := by
      rw [Nat.testBit_eq_decide_div_mod_eq, decide_eq_true_iff] at hbit
      exact hbit
    rw [Nat.mod_pow_succ, hodd, Nat.mul_one]
  have hmodle := Nat.mod_le n (2 ^ (l + 1))
  have hpow : 2 ^ l < 2 ^ 64 := Nat.pow_lt_pow_right (by decide) (by omega)
  -- `root_offset` is `2^l - 1`, below the bitmap
  have hoffset : (smearOnesForU64 it.bitmap >>> 1).toNat = 2 ^ l - 1 := by
    rw [UInt64.toNat_shiftRight, toNat_smearOnesForU64 hne, hlog]
    simp only [show (1 : UInt64).toNat % 64 = 1 from rfl, Nat.shiftRight_eq_div_pow, Nat.pow_one]
    rw [Nat.pow_succ]
    omega
  have hroot : smearOnesForU64 it.bitmap >>> 1 < it.bitmap := by
    rw [UInt64.lt_iff_toNat_lt, hoffset, hbm]
    omega
  -- the leftmost leaf of the subtree, and its size
  have hleaf : Position.fromLeafIndex it.seenLeaves = some (Position.ofNode ⟨0, it.seenLeaves.toNat⟩) :=
    Position.fromLevelAndPos_of_lt (by decide) _
  have hleafIndex : (Position.ofNode ⟨0, it.seenLeaves.toNat⟩).toInorderIndex.toNat =
      2 * it.seenLeaves.toNat := by
    rw [Position.toInorderIndex, Position.toNat_ofNode (by simp [Node.index_eq]; omega)]
    simp [Node.index_eq]
    omega
  have hsize : (smearOnesForU64 it.bitmap >>> 1 + 1).toNat = 2 ^ l := by
    rw [Word.toNat_add_of_lt (by rw [hoffset]; simp; omega), hoffset]
    simp only [UInt64.toNat_one]
    have := Nat.one_le_two_pow (n := l)
    omega
  -- the root is the node of the highest bit
  have hrootIndex : Position.fromInorderIndex
      ((Position.ofNode ⟨0, it.seenLeaves.toNat⟩).toInorderIndex + (smearOnesForU64 it.bitmap >>> 1)) =
        Position.ofNode ⟨l, n / 2 ^ l - 1⟩ := by
    show Position.mk _ = Position.mk (UInt64.ofNat (⟨l, n / 2 ^ l - 1⟩ : Node).index)
    congr 1
    apply UInt64.toNat_inj.mp
    rw [Word.toNat_add_of_lt (by rw [hleafIndex, hoffset]; omega), hleafIndex, hoffset, hseen,
      UInt64.toNat_ofNat_of_lt' (by rw [index_highBit hbit, UInt64.size]; omega), index_highBit hbit]
  refine ⟨⟨it.bitmap &&& ~~~(smearOnesForU64 it.bitmap >>> 1 + 1),
    it.seenLeaves + (smearOnesForU64 it.bitmap >>> 1 + 1)⟩, ?_, ?_⟩
  · delta next
    simp only [if_pos hassert, if_neg hne, if_pos hroot]
    rw [Word.checkedAdd_of_lt (by rw [hoffset]; simp; omega)]
    simp only [Option.bind_eq_bind, Option.bind_some, hleaf]
    rw [Word.checkedAdd_of_lt (by rw [hleafIndex, hoffset]; omega),
      Word.checkedAdd_of_lt (by rw [hsize]; omega)]
    simp only [Option.bind_some, Option.pure_def, hrootIndex]
  · refine ⟨by omega, toNat_and_not_highBit (by omega) hbm hsize, ?_⟩
    rw [Word.toNat_add_of_lt (by rw [hsize]; omega), hsize, hseen]
    omega

/-- `next` with no leaves left ends the iteration. -/
theorem next_of_eq_zero {n w : Nat} {it : FrozenSubTreeIterator} (hn : n ≤ 2 ^ 63) (h : Inv n w it)
    (hb : n % 2 ^ w = 0) : it.next = some (none, it) := by
  have hassert := assert_of_inv hn h
  have hzero : it.bitmap = 0 := UInt64.toNat_inj.mp (by rw [h.2.1, hb]; rfl)
  delta next
  rw [if_pos hassert, if_pos hzero]

/-- From the state below level `w`, more than `w` calls of `next` yield the roots of the frozen
subtrees of `n` below `w`, the largest first. -/
theorem collect_of_inv {n : Nat} (hn : n ≤ 2 ^ 63) (fuel : Nat) :
    ∀ w it, Inv n w it → w < fuel →
      it.collect fuel = some ((frozenStack w 0 n).reverse.map Position.ofNode) := by
  induction fuel with
  | zero => intro w it _ hfuel; omega
  | succ fuel ih =>
    intro w it hinv hfuel
    by_cases hb : n % 2 ^ w = 0
    · -- no leaves left: `n` has no bit below `w`
      have hclear : ∀ i, 0 ≤ i → i < 0 + w → n.testBit (0 + i) = false := fun i _ hi => by
        have h := Nat.testBit_mod_two_pow n w i
        rw [hb, Nat.zero_testBit, decide_eq_true (by omega), Bool.true_and] at h
        rw [Nat.zero_add, ← h]
      have hnil := InorderTree.frozenStack_trunc 0 0 w hclear
      rw [Nat.zero_add] at hnil
      rw [collect, Iter.collect_succ_of_done (next_of_eq_zero hn hinv hb), hnil]
      rfl
    · obtain ⟨it', hnext, hinv'⟩ := next_of_ne_zero hn hinv hb
      have hrest := ih _ it' hinv' (by have := (highBit hb).1; omega)
      rw [collect] at hrest ⊢
      rw [Iter.collect_succ_of_yield hnext, hrest, frozenStack_of_highBit hb, List.map_cons,
        Option.map_some]

/-- For at most `2^63` leaves, `FrozenSubTreeIterator::new(n)` fails no assertion, overflows
nothing, and yields one frozen subtree root per one bit of `n`, the largest and leftmost first. -/
theorem collect_frozenSubTreeIterator (n : UInt64) (hn : n.toNat ≤ 2 ^ 63) (fuel : Nat)
    (hfuel : 64 < fuel) :
    (new n).collect fuel = some ((frozenSubtrees n.toNat).map Position.ofNode) :=
  collect_of_inv hn fuel 64 (new n) inv_new hfuel

end FrozenSubTreeIterator

/-! ### The tests' frozen roots

`slow_get_frozen_subtree_roots` descends from the root over the leaves: a node all of whose leaves
are present is a frozen root, a node none of whose leaves are is skipped, and any other node is
split into its children.  Below a node of level `l` holding the leaf count `c` strictly inside its
leaves, what it finds is the frozen stack of the bits of `c` below `l`. -/

namespace Position

/-- `from_leaf_index` never fails: its position is the leaf's. -/
theorem fromLeafIndex_eq (q : UInt64) : fromLeafIndex q = some (ofNode (Node.leaf q.toNat)) :=
  fromLevelAndPos_of_lt (by decide) q

theorem toNat_ofNode_leaf {i : Nat} (hi : i < 2 ^ 63) : (ofNode (Node.leaf i)).val.toNat = 2 * i := by
  have hidx : (Node.leaf i).index = 2 * i := by simp [Node.index_eq, Node.leaf_eq]; omega
  rw [toNat_ofNode (by omega), hidx]

section Slow

variable {t : Node} (ht : (t.pos + 1) * 2 ^ t.level ≤ 2 ^ 63)
include ht

/-- A subtree whose leaves are below `2^63` has its root inside the word. -/
theorem index_add_one_lt : t.index + 1 < 2 ^ 64 := by
  have e : t.pos * 2 ^ (t.level + 1) = 2 * (t.pos * 2 ^ t.level) := by ring
  have hY := Nat.one_le_two_pow (n := t.level)
  rw [Node.index_add_one, e]
  rw [Nat.add_one_mul] at ht
  omega

variable {m : UInt64} (hm : m.toNat < 2 ^ 63)
include hm

/-- A node is freezable when its last leaf is present. -/
theorem isFreezable_ofNode :
    (ofNode t).isFreezable m = some (decide ((t.pos + 1) * 2 ^ t.level ≤ m.toNat + 1)) := by
  have hY := Nat.one_le_two_pow (n := t.level)
  have hlast : t.pos * 2 ^ t.level + 2 ^ t.level - 1 < 2 ^ 63 := by
    rw [Nat.add_one_mul] at ht
    omega
  simp only [isFreezable, fromLeafIndex_eq, rightMostChild_ofNode (index_add_one_lt ht),
    Option.bind_eq_bind, Option.bind_some, Option.pure_def, Option.some.injEq, decide_eq_decide,
    UInt64.le_iff_toNat_le, toNat_ofNode_leaf hlast, toNat_ofNode_leaf hm, Nat.add_one_mul]
  omega

/-- A node is a placeholder when its first leaf is not present. -/
theorem isPlaceholder_ofNode :
    (ofNode t).isPlaceholder m = some (decide (m.toNat + 1 ≤ t.pos * 2 ^ t.level)) := by
  have h := index_add_one_lt ht
  have hY := Nat.one_le_two_pow (n := t.level)
  have hfirst : t.pos * 2 ^ t.level < 2 ^ 63 := by
    rw [Nat.add_one_mul] at ht
    omega
  -- the node's index is past twice its first leaf
  have hidx : 2 * (t.pos * 2 ^ t.level) ≤ t.index := by
    have e : t.pos * 2 ^ (t.level + 1) = 2 * (t.pos * 2 ^ t.level) := by ring
    rw [Node.index_eq, e]
    omega
  simp only [isPlaceholder, fromLeafIndex_eq, leftMostChild_ofNode h, Option.bind_eq_bind,
    Option.bind_some, UInt64.le_iff_toNat_le, toNat_ofNode (by omega : t.index < 2 ^ 64),
    toNat_ofNode_leaf hm, toNat_ofNode_leaf hfirst]
  by_cases hle : t.index ≤ 2 * m.toNat
  · rw [if_pos hle]
    exact congrArg some (decide_eq_false (by omega)).symm
  · rw [if_neg hle]
    by_cases hleft : 2 * (t.pos * 2 ^ t.level) ≤ 2 * m.toNat
    · rw [if_pos hleft]
      exact congrArg some (decide_eq_false (by omega)).symm
    · rw [if_neg hleft]
      exact congrArg some (decide_eq_true (by omega)).symm

end Slow

end Position

section SlowRoots

variable {m : UInt64} (hm : m.toNat < 2 ^ 63)
include hm

theorem slowGetFrozenSubtreeRootsImpl_of_freezable {t : Node} (ht : (t.pos + 1) * 2 ^ t.level ≤ 2 ^ 63)
    (hc : (t.pos + 1) * 2 ^ t.level ≤ m.toNat + 1) (fuel : Nat) :
    slowGetFrozenSubtreeRootsImpl (fuel + 1) (Position.ofNode t) m = some [Position.ofNode t] := by
  simp only [slowGetFrozenSubtreeRootsImpl_succ, Position.isFreezable_ofNode ht hm, decide_eq_true hc,
    Option.bind_eq_bind, Option.bind_some, if_true, Option.pure_def]

theorem slowGetFrozenSubtreeRootsImpl_of_placeholder {t : Node}
    (ht : (t.pos + 1) * 2 ^ t.level ≤ 2 ^ 63) (hc : m.toNat + 1 ≤ t.pos * 2 ^ t.level) (fuel : Nat) :
    slowGetFrozenSubtreeRootsImpl (fuel + 1) (Position.ofNode t) m = some [] := by
  have hY := Nat.one_le_two_pow (n := t.level)
  have hnot : ¬ (t.pos + 1) * 2 ^ t.level ≤ m.toNat + 1 := by
    rw [Nat.add_one_mul]
    omega
  simp only [slowGetFrozenSubtreeRootsImpl_succ, Position.isFreezable_ofNode ht hm, decide_eq_false hnot,
    Position.isPlaceholder_ofNode ht hm, decide_eq_true hc, Option.bind_eq_bind, Option.bind_some,
    Bool.false_eq_true, if_false, if_true, Option.pure_def]

/-- One call of the tests' recursion at a node above the leaves that is neither freezable nor a
placeholder: the roots below its left child, then those below its right child. -/
theorem slowGetFrozenSubtreeRootsImpl_of_inner {l p : Nat} (ht : (p + 1) * 2 ^ (l + 1) ≤ 2 ^ 63)
    (hlo : p * 2 ^ (l + 1) < m.toNat + 1) (hhi : m.toNat + 1 < (p + 1) * 2 ^ (l + 1)) (fuel : Nat) :
    slowGetFrozenSubtreeRootsImpl (fuel + 1) (Position.ofNode ⟨l + 1, p⟩) m =
      (slowGetFrozenSubtreeRootsImpl fuel (Position.ofNode ⟨l, 2 * p⟩) m).bind fun roots =>
        (slowGetFrozenSubtreeRootsImpl fuel (Position.ofNode ⟨l, 2 * p + 1⟩) m).bind fun rest =>
          some (roots ++ rest) := by
  have hfit : (⟨l + 1, p⟩ : Node).index + 1 < 2 ^ 64 := Position.index_add_one_lt ht
  -- above the leaves, the node's index is at most `u64::MAX - 2`
  have hv : (⟨l + 1, p⟩ : Node).index < 2 ^ 64 - 2 := by
    have hlt := Node.add_one_mul_two_pow_le hfit
    have hY := Nat.one_le_two_pow (n := l)
    have e : (p + 1) * 2 ^ (l + 1 + 1) = p * 2 ^ (l + 1 + 1) + 2 * 2 ^ (l + 1) := by ring
    have e' : 2 ^ (l + 1) = 2 * 2 ^ l := pow_succ' 2 l
    simp only [Node.index_eq] at hlt ⊢
    omega
  have hnf : ¬ (p + 1) * 2 ^ (l + 1) ≤ m.toNat + 1 := by omega
  have hnp : ¬ m.toNat + 1 ≤ p * 2 ^ (l + 1) := by omega
  simp only [slowGetFrozenSubtreeRootsImpl_succ, Position.isFreezable_ofNode (t := ⟨l + 1, p⟩) ht hm,
    Position.isPlaceholder_ofNode (t := ⟨l + 1, p⟩) ht hm, decide_eq_false hnf, decide_eq_false hnp,
    Position.leftChild_ofNode hfit hv (Nat.succ_pos l), Position.rightChild_ofNode hfit hv (Nat.succ_pos l),
    Node.leftChild_eq, Node.rightChild_eq, Nat.add_sub_cancel, Option.bind_eq_bind, Option.bind_some,
    Bool.false_eq_true, if_false, Option.pure_def]

/-- Below a node holding the leaf count strictly inside its leaves, the tests find the frozen
stack of the count's bits below the node's level.  By induction on the fuel, with the node
generalised; bit `level - 1` of the count says whether the count ends in the left child (whose
recursion goes on, the right child being a placeholder) or in the right one (the left child
being frozen). -/
theorem slowGetFrozenSubtreeRootsImpl_of_within (fuel : Nat) : ∀ t : Node,
    (t.pos + 1) * 2 ^ t.level ≤ 2 ^ 63 → t.level < fuel →
    t.pos * 2 ^ t.level < m.toNat + 1 → m.toNat + 1 < (t.pos + 1) * 2 ^ t.level →
    slowGetFrozenSubtreeRootsImpl fuel (Position.ofNode t) m =
      some ((frozenStack t.level 0 (m.toNat + 1)).reverse.map Position.ofNode) := by
  induction fuel with
  | zero => intro t _ hl; omega
  | succ fuel ih =>
    rintro ⟨l, p⟩ ht hl hlo hhi
    simp only at ht hl hlo hhi ⊢
    cases l with
    | zero =>
      simp only [Nat.pow_zero, Nat.mul_one] at hlo hhi
      omega
    | succ l =>
      obtain ⟨fuel, rfl⟩ : ∃ f, fuel = f + 1 := ⟨fuel - 1, by omega⟩
      have hY := Nat.one_le_two_pow (n := l)
      have e₁ : p * 2 ^ (l + 1) = 2 * p * 2 ^ l := by ring
      have e₂ : (p + 1) * 2 ^ (l + 1) = (2 * p + 1 + 1) * 2 ^ l := by ring
      have hfitL : (2 * p + 1) * 2 ^ l ≤ 2 ^ 63 := by rw [Nat.add_one_mul (2 * p + 1)] at e₂; omega
      have hfitR : (2 * p + 1 + 1) * 2 ^ l ≤ 2 ^ 63 := by rw [← e₂]; exact ht
      rw [slowGetFrozenSubtreeRootsImpl_of_inner hm ht hlo hhi, InorderTree.frozenStack_succ_top,
        Nat.zero_add]
      by_cases hmid : m.toNat + 1 < (2 * p + 1) * 2 ^ l
      · -- the count ends in the left child
        have hdiv : (m.toNat + 1) / 2 ^ l = 2 * p := Nat.div_eq_of_lt_le (by omega) hmid
        have hbit : (m.toNat + 1).testBit l = false := by
          rw [Nat.testBit_eq_decide_div_mod_eq, hdiv]
          simp
        rw [ih ⟨l, 2 * p⟩ hfitL (by simp only; omega) (by simp only; omega) hmid,
          slowGetFrozenSubtreeRootsImpl_of_placeholder (t := ⟨l, 2 * p + 1⟩) hm hfitR
            (show m.toNat + 1 ≤ (2 * p + 1) * 2 ^ l by omega), hbit]
        simp
      · -- the count ends in the right child, and the left child is frozen
        have hdiv : (m.toNat + 1) / 2 ^ l = 2 * p + 1 :=
          Nat.div_eq_of_lt_le (by omega) (by rw [← e₂]; exact hhi)
        have hbit : (m.toNat + 1).testBit l = true := by
          rw [Nat.testBit_eq_decide_div_mod_eq, hdiv]
          simp
        have hright : slowGetFrozenSubtreeRootsImpl (fuel + 1) (Position.ofNode ⟨l, 2 * p + 1⟩) m =
            some ((frozenStack l 0 (m.toNat + 1)).reverse.map Position.ofNode) := by
          by_cases heq : m.toNat + 1 = (2 * p + 1) * 2 ^ l
          · -- no leaf of the right child: below bit `l` the count is clear
            have hclear := InorderTree.frozenStack_trunc (c := m.toNat + 1) 0 0 l fun i _ hi => by
              rw [heq, Nat.testBit_mul_two_pow]
              simp only [Nat.zero_add] at hi ⊢
              simp [Nat.not_le_of_lt hi]
            rw [Nat.zero_add] at hclear
            rw [slowGetFrozenSubtreeRootsImpl_of_placeholder (t := ⟨l, 2 * p + 1⟩) hm hfitR
              (show m.toNat + 1 ≤ (2 * p + 1) * 2 ^ l by omega), hclear]
            rfl
          · exact ih ⟨l, 2 * p + 1⟩ hfitR (by simp only; omega) (by simp only; omega)
              (by simp only; rw [← e₂]; exact hhi)
        rw [slowGetFrozenSubtreeRootsImpl_of_freezable (t := ⟨l, 2 * p⟩) hm hfitL
          (show (2 * p + 1) * 2 ^ l ≤ m.toNat + 1 by omega), hright, hbit, hdiv]
        simp

end SlowRoots

/-- `root_from_leaf_count` of `n > 0` leaves is the root of the smallest complete tree over
them: level `log2 (2 (n - 1))`, position `0`. -/
theorem rootFromLeafCount_eq {n : UInt64} (h0 : n ≠ 0) (hn : n.toNat ≤ 2 ^ 63) :
    Position.rootFromLeafCount n = some (Position.ofNode ⟨Nat.log2 (2 * (n.toNat - 1)), 0⟩) := by
  have hpos : 0 < n.toNat := Nat.pos_of_ne_zero fun h => h0 (UInt64.toNat_inj.mp (by rw [h]; rfl))
  have hpred : (n - 1).toNat = n.toNat - 1 :=
    UInt64.toNat_sub_of_le _ _ (by rw [UInt64.le_iff_toNat_le]; simp; omega)
  have hleaf := Position.toNat_ofNode_leaf (i := (n - 1).toNat) (by omega)
  -- the smeared leaf, halved, is `2^L - 1`
  have hroot : ∀ v : UInt64, (smearOnesForU64 v >>> 1).toNat = 2 ^ Nat.log2 v.toNat - 1 := by
    intro v
    by_cases hv : v = 0
    · subst hv
      decide
    · have hL := Nat.pow_succ 2 (Nat.log2 v.toNat)
      have hY := Nat.one_le_two_pow (n := Nat.log2 v.toNat)
      rw [UInt64.toNat_shiftRight, toNat_smearOnesForU64 hv, Nat.shiftRight_eq_div_pow]
      simp only [UInt64.toNat_one, Nat.one_mod, Nat.pow_one]
      omega
  have hnz : 0 < n := by rw [UInt64.lt_iff_toNat_lt]; exact hpos
  simp only [Position.rootFromLeafCount, if_pos hnz, Position.rootFromLeafIndex,
    Position.fromLeafIndex_eq, Option.bind_eq_bind, Option.bind_some, Option.pure_def]
  refine congrArg some (Position.eq_ofNode_of_toNat ?_)
  rw [hroot, hleaf, hpred]
  simp [Node.index_eq]

/-- The tests' slow frozen roots of `n ≤ 2^63` leaves are the frozen subtrees of `n`. -/
theorem slowGetFrozenSubtreeRoots_eq {n : UInt64} (hn : n.toNat ≤ 2 ^ 63) :
    slowGetFrozenSubtreeRoots n = some ((frozenSubtrees n.toNat).map Position.ofNode) := by
  by_cases h0 : n = 0
  · subst h0
    rw [slowGetFrozenSubtreeRoots, if_pos rfl]
    decide
  · have hpos : 0 < n.toNat := Nat.pos_of_ne_zero fun h => h0 (UInt64.toNat_inj.mp (by rw [h]; rfl))
    have hpred : (n - 1).toNat = n.toNat - 1 :=
      UInt64.toNat_sub_of_le _ _ (by rw [UInt64.le_iff_toNat_le]; simp; omega)
    -- the root's level `L`: `n ≤ 2^L ≤ 2^63`
    set L := Nat.log2 (2 * (n.toNat - 1)) with hLdef
    have hL : L < 64 := by
      by_cases h1 : n.toNat = 1
      · simp [hLdef, h1]
      · rw [hLdef, Nat.log2_lt (by omega)]
        omega
    have hcover : n.toNat - 1 < 2 ^ L := by
      by_cases h1 : n.toNat = 1
      · simp [hLdef, h1]
      · have := Nat.lt_log2_self (n := 2 * (n.toNat - 1))
        rw [Nat.pow_succ, ← hLdef] at this
        omega
    have hfit : (0 + 1) * 2 ^ L ≤ 2 ^ 63 := by
      rw [Nat.zero_add, Nat.one_mul]
      exact Nat.pow_le_pow_right (by decide) (by omega)
    have hm : (n - 1).toNat < 2 ^ 63 := by omega
    rw [slowGetFrozenSubtreeRoots, if_neg h0, rootFromLeafCount_eq h0 hn, ← hLdef,
      Option.bind_eq_bind, Option.bind_some]
    by_cases hfull : n.toNat = 2 ^ L
    · -- a complete tree: its root is frozen
      rw [slowGetFrozenSubtreeRootsImpl_of_freezable hm hfit (by simp only; omega), hfull,
        InorderTree.frozenSubtrees_two_pow hL]
      rfl
    · rw [slowGetFrozenSubtreeRootsImpl_of_within hm 64 _ hfit (by simp only; omega)
        (by simp only; omega) (by simp only; omega), hpred, Nat.sub_add_cancel hpos,
        InorderTree.frozenSubtrees_of_lt hL.le (by omega)]

/-! ### The sibling iterator -/

namespace FrozenSubtreeSiblingIterator

/-- With new leaves remaining, `next_new_leaf_batch` takes as many as the highest bit of them. -/
theorem nextNewLeafBatch_eq {self : FrozenSubtreeSiblingIterator} (h : self.remainingNewLeaves ≠ 0) :
    ∃ sz, self.nextNewLeafBatch = some sz ∧
      sz.toNat = 2 ^ Nat.log2 self.remainingNewLeaves.toNat := by
  have h0 : self.remainingNewLeaves.toNat ≠ 0 := fun h' => h (UInt64.toNat_inj.mp (by rw [h']; rfl))
  have hlog : Nat.log2 self.remainingNewLeaves.toNat < 64 :=
    (Nat.log2_lt h0).mpr (UInt64.toNat_lt _)
  have hzeros : Word.leadingZeros self.remainingNewLeaves =
      64 - 1 - Nat.log2 self.remainingNewLeaves.toNat :=
    Bits.leadingZeros_eq (UInt64.toNat_lt _) h0
  have hshift : maxAccumulatorProofDepth - Word.leadingZeros self.remainingNewLeaves =
      Nat.log2 self.remainingNewLeaves.toNat := by
    rw [hzeros, maxAccumulatorProofDepth]
    omega
  refine ⟨(1 : UInt64) <<< (Nat.log2 self.remainingNewLeaves.toNat).toUInt64, ?_,
    Word.toNat_one_shiftLeft hlog⟩
  rw [nextNewLeafBatch, if_pos (by rw [hzeros, maxAccumulatorProofDepth]; omega), hshift,
    Word.checkedShl_of_lt _ hlog]

/-- The low `k` bits of a word with no one bit below `k` are zero. -/
private theorem mod_two_pow_eq_zero {c k : Nat} (h : ∀ i < k, c.testBit i = false) :
    c % 2 ^ k = 0 :=
  Nat.eq_of_testBit_eq fun i => by
    rw [Nat.testBit_mod_two_pow, Nat.zero_testBit]
    by_cases hi : i < k
    · rw [h i hi, Bool.and_false]
    · rw [decide_eq_false hi, Bool.false_and]

/-- The next subtree has `2^k` leaves, no more than remain, and starts at a multiple of `2^k`:
the rightmost frozen subtree's size divides the leaves so far, and a smaller power of two
does too. -/
theorem nextSubtreeLeaves_spec {self : FrozenSubtreeSiblingIterator}
    (h : self.remainingNewLeaves ≠ 0) :
    ∃ k sz, self.nextSubtreeLeaves = some sz ∧ sz.toNat = 2 ^ k ∧
      self.currentNumLeaves.toNat % 2 ^ k = 0 ∧ 2 ^ k ≤ self.remainingNewLeaves.toNat := by
  obtain ⟨sz, hbatch, hsz⟩ := nextNewLeafBatch_eq h
  have h0 : self.remainingNewLeaves.toNat ≠ 0 := fun h' => h (UInt64.toNat_inj.mp (by rw [h']; rfl))
  have hle : 2 ^ Nat.log2 self.remainingNewLeaves.toNat ≤ self.remainingNewLeaves.toNat :=
    Nat.log2_self_le h0
  by_cases hcur : self.currentNumLeaves > 0
  · -- the size of the rightmost frozen subtree, the lowest one bit of the leaves so far
    have hcur0 : self.currentNumLeaves.toNat % 2 ^ 64 ≠ 0 := by
      rw [Nat.mod_eq_of_lt (UInt64.toNat_lt _)]
      rw [GT.gt, UInt64.lt_iff_toNat_lt] at hcur
      exact Nat.pos_iff_ne_zero.mp hcur
    obtain ⟨htz, -, hlow⟩ := Bits.trailingZeros_spec hcur0
    have hdiv : self.currentNumLeaves.toNat % 2 ^ Word.trailingZeros self.currentNumLeaves = 0 :=
      mod_two_pow_eq_zero hlow
    have htz' : Word.trailingZeros self.currentNumLeaves < 64 := htz
    have hr := Word.checkedShl_of_lt 1 htz'
    have hrNat := Word.toNat_one_shiftLeft htz'
    by_cases henough : self.remainingNewLeaves ≥ (1 : UInt64) <<< (Word.trailingZeros self.currentNumLeaves).toUInt64
    · refine ⟨_, _, ?_, hrNat, hdiv, ?_⟩
      · rw [nextSubtreeLeaves, if_pos hcur, hr, Option.bind_eq_bind, Option.bind_some, if_pos henough]
        rfl
      · rw [GE.ge, UInt64.le_iff_toNat_le, hrNat] at henough
        exact henough
    · -- fewer new leaves than that: the highest bit of them, below the rightmost frozen subtree
      refine ⟨_, sz, ?_, hsz, ?_, hle⟩
      · rw [nextSubtreeLeaves, if_pos hcur, hr, Option.bind_eq_bind, Option.bind_some, if_neg henough,
          hbatch]
      · rw [GE.ge, UInt64.le_iff_toNat_le, hrNat, Nat.not_le] at henough
        have hlt := (Nat.log2_lt h0).mpr henough
        exact Nat.mod_eq_zero_of_dvd (Nat.dvd_trans (Nat.pow_dvd_pow 2 hlt.le)
          (Nat.dvd_of_mod_eq_zero hdiv))
  · -- no leaves so far
    have hzero : self.currentNumLeaves.toNat = 0 := by
      rw [GT.gt, UInt64.lt_iff_toNat_lt, Nat.not_lt] at hcur
      exact Nat.le_zero.mp hcur
    refine ⟨_, sz, by rw [nextSubtreeLeaves, if_neg hcur, hbatch], hsz, by rw [hzero]; rfl, hle⟩

/-- The root of a complete subtree of `2^k` leaves starting at leaf `c` lies at `2 c + 2^k - 1`
in in-order. -/
private theorem index_aligned {c k : Nat} (h : c % 2 ^ k = 0) :
    (⟨k, c / 2 ^ k⟩ : Node).index = 2 * c + (2 ^ k - 1) := by
  have hdm := Nat.div_add_mod c (2 ^ k)
  have hmul : c / 2 ^ k * 2 ^ (k + 1) = 2 * (2 ^ k * (c / 2 ^ k)) := by ring
  show c / 2 ^ k * 2 ^ (k + 1) + (2 ^ k - 1) = _
  rw [hmul]
  omega

/-- One call of `next` with new leaves remaining: it yields the root of a complete subtree of
`2^k` leaves starting at the leaves so far, and counts them as seen. -/
theorem next_of_ne_zero {it : FrozenSubtreeSiblingIterator}
    (hsum : it.currentNumLeaves.toNat + it.remainingNewLeaves.toNat ≤ 2 ^ 63)
    (hrem : it.remainingNewLeaves ≠ 0) :
    ∃ k, it.currentNumLeaves.toNat % 2 ^ k = 0 ∧ 2 ^ k ≤ it.remainingNewLeaves.toNat ∧
      ∃ it', it.next = some (some (Position.ofNode ⟨k, it.currentNumLeaves.toNat / 2 ^ k⟩), it') ∧
        it'.currentNumLeaves.toNat = it.currentNumLeaves.toNat + 2 ^ k ∧
        it'.remainingNewLeaves.toNat = it.remainingNewLeaves.toNat - 2 ^ k := by
  obtain ⟨k, sz, hsz, hszNat, hdiv, hle⟩ := nextSubtreeLeaves_spec hrem
  have hpos := Nat.one_le_two_pow (n := k)
  have hend : (it.currentNumLeaves + sz).toNat = it.currentNumLeaves.toNat + 2 ^ k := by
    rw [Word.toNat_add_of_lt (by rw [hszNat]; omega), hszNat]
  have hlast : (it.currentNumLeaves + sz - 1).toNat = it.currentNumLeaves.toNat + 2 ^ k - 1 := by
    rw [UInt64.toNat_sub_of_le _ _ (by rw [UInt64.le_iff_toNat_le, hend]; simp; omega), hend]
    rfl
  -- the root of the subtree
  have hroot : Position.fromInorderIndex (it.currentNumLeaves + (it.currentNumLeaves + sz - 1)) =
      Position.ofNode ⟨k, it.currentNumLeaves.toNat / 2 ^ k⟩ := by
    show Position.mk _ = Position.mk (UInt64.ofNat (⟨k, it.currentNumLeaves.toNat / 2 ^ k⟩ : Node).index)
    congr 1
    apply UInt64.toNat_inj.mp
    rw [Word.toNat_add_of_lt (by rw [hlast]; omega), hlast,
      UInt64.toNat_ofNat_of_lt' (by rw [index_aligned hdiv, UInt64.size]; omega), index_aligned hdiv]
    omega
  -- none of the checked operations overflows
  have hadd : Word.checkedAdd it.currentNumLeaves sz = some (it.currentNumLeaves + sz) :=
    Word.checkedAdd_of_lt (by rw [hszNat]; omega)
  have hsub1 : Word.checkedSub (it.currentNumLeaves + sz) 1 = some (it.currentNumLeaves + sz - 1) :=
    Word.checkedSub_of_le (by rw [hend]; simp; omega)
  have hsub : Word.checkedSub it.remainingNewLeaves sz = some (it.remainingNewLeaves - sz) :=
    Word.checkedSub_of_le (by rw [hszNat]; exact hle)
  have hidx : Word.checkedAdd it.currentNumLeaves (it.currentNumLeaves + sz - 1) =
      some (it.currentNumLeaves + (it.currentNumLeaves + sz - 1)) :=
    Word.checkedAdd_of_lt (by rw [hlast]; omega)
  refine ⟨k, hdiv, hle, ⟨it.currentNumLeaves + sz, it.remainingNewLeaves - sz⟩, ?_, hend, ?_⟩
  · delta next
    simp only [if_neg hrem, hsz, hadd, hsub1, hsub, hidx, Option.bind_eq_bind, Option.bind_some,
      Option.pure_def, hroot]
  · rw [UInt64.toNat_sub_of_le _ _ (by rw [UInt64.le_iff_toNat_le, hszNat]; exact hle), hszNat]

/-- `new` accepts every pair of leaf counts `m ≤ n ≤ 2^63`. -/
theorem new_of_le {m n : UInt64} (hmn : m ≤ n) (hn : n.toNat ≤ 2 ^ 63) :
    new m n = some ⟨m, n - m⟩ := by
  have hmax : n ≤ maxAccumulatorLeaves := by
    rw [UInt64.le_iff_toNat_le, show maxAccumulatorLeaves.toNat = 2 ^ 63 by decide]
    exact hn
  rw [new, if_pos ⟨hmax, hmn⟩]

/-- A run of the sibling iterator from `c` leaves with `r` more to add: it yields the roots of
complete subtrees whose leaves are `[c, c + r)`, left to right, and pushing them one by one onto
the frozen subtrees of `c` leaves gives those of `c + r`.  By induction on the fuel, with
`next_of_ne_zero` at each call and `pushMerge_frozen` for the stack. -/
theorem collect_spec (fuel : Nat) : ∀ it : FrozenSubtreeSiblingIterator,
    it.currentNumLeaves.toNat + it.remainingNewLeaves.toNat ≤ 2 ^ 63 →
    it.remainingNewLeaves.toNat < fuel →
    ∃ nodes : List Node, it.collect fuel = some (nodes.map Position.ofNode) ∧
      nodes.flatMap Node.leaves =
        List.range' it.currentNumLeaves.toNat it.remainingNewLeaves.toNat ∧
      nodes.foldl pushMerge (frozenSubtrees it.currentNumLeaves.toNat).reverse =
        (frozenSubtrees (it.currentNumLeaves.toNat + it.remainingNewLeaves.toNat)).reverse := by
  induction fuel with
  | zero => intro it _ hfuel; omega
  | succ fuel ih =>
    intro it hsum hfuel
    by_cases hrem : it.remainingNewLeaves = 0
    · -- nothing left to add
      have hzero : it.remainingNewLeaves.toNat = 0 := by rw [hrem]; rfl
      refine ⟨[], ?_, by rw [hzero]; rfl, by rw [hzero, Nat.add_zero]; rfl⟩
      rw [collect, Iter.collect_succ_of_done (by delta next; rw [if_pos hrem])]
      rfl
    · obtain ⟨k, hdiv, hle, it', hnext, hcur', hrem'⟩ := next_of_ne_zero hsum hrem
      have hpos := Nat.one_le_two_pow (n := k)
      obtain ⟨nodes, hcollect, hleaves, hfold⟩ := ih it' (by omega) (by omega)
      -- the yielded subtree starts at the leaves so far
      have hstart : it.currentNumLeaves.toNat / 2 ^ k * 2 ^ k = it.currentNumLeaves.toNat :=
        Nat.div_mul_cancel (Nat.dvd_of_mod_eq_zero hdiv)
      have hpush := InorderTree.pushMerge_frozen k (it.currentNumLeaves.toNat / 2 ^ k)
        (by rw [Nat.add_one_mul, hstart]; omega)
      rw [hstart, Nat.add_one_mul, hstart] at hpush
      refine ⟨⟨k, it.currentNumLeaves.toNat / 2 ^ k⟩ :: nodes, ?_, ?_, ?_⟩
      · rw [collect] at hcollect ⊢
        rw [Iter.collect_succ_of_yield hnext, hcollect, List.map_cons, Option.map_some]
      · rw [List.flatMap_cons, hleaves, hcur', hrem', Node.leaves]
        show List.range' (it.currentNumLeaves.toNat / 2 ^ k * 2 ^ k) (2 ^ k) ++ _ = _
        rw [hstart, List.range'_append_1, Nat.add_sub_cancel' hle]
      · rw [List.foldl_cons, hpush, ← hcur', hfold, hcur', hrem', Nat.add_assoc,
          Nat.add_sub_cancel' hle]

end FrozenSubtreeSiblingIterator

/-- Both iterators on their whole domain.  For `n ≤ 2^63` leaves, `FrozenSubTreeIterator::new(n)`
yields what the tests' `slow_get_frozen_subtree_roots(n)` returns, which is one frozen subtree per
one bit of `n`, the highest first, each ending where `n` cleared below its level does.  For
`m ≤ n ≤ 2^63`, `FrozenSubtreeSiblingIterator::new(m, n)` yields roots of complete subtrees (a
`Node` of level `k` and position `p` holds the leaves `p 2^k, …, (p + 1) 2^k - 1`) whose leaves are
`m, …, n - 1` in order, and pushing them one by one onto the frozen subtrees of `m` leaves,
merging equal levels, gives the frozen subtrees of `n` leaves. -/
theorem frozenSubtreeIterators_correct :
    (∀ n : UInt64, n.toNat ≤ 2 ^ 63 → ∀ fuel, 64 < fuel →
      (FrozenSubTreeIterator.new n).collect fuel = slowGetFrozenSubtreeRoots n ∧
      slowGetFrozenSubtreeRoots n = some ((frozenSubtrees n.toNat).map Position.ofNode) ∧
      (frozenSubtrees n.toNat).map Node.level = ((List.range 64).filter (n.toNat.testBit ·)).reverse ∧
      ∀ t ∈ frozenSubtrees n.toNat, t.pos = n.toNat / 2 ^ t.level - 1) ∧
    (∀ m n : UInt64, m ≤ n → n.toNat ≤ 2 ^ 63 →
      ∃ it, FrozenSubtreeSiblingIterator.new m n = some it ∧
        ∀ fuel, n.toNat - m.toNat < fuel → ∃ nodes : List Node,
          it.collect fuel = some (nodes.map Position.ofNode) ∧
          nodes.flatMap Node.leaves = List.range' m.toNat (n.toNat - m.toNat) ∧
          nodes.foldl pushMerge (frozenSubtrees m.toNat).reverse = (frozenSubtrees n.toNat).reverse) := by
  constructor
  · intro n hn fuel hfuel
    have hslow := slowGetFrozenSubtreeRoots_eq hn
    refine ⟨?_, hslow, InorderTree.map_level_frozenSubtrees _,
      fun t ht => InorderTree.pos_of_mem_frozenSubtrees ht⟩
    rw [FrozenSubTreeIterator.collect_frozenSubTreeIterator n hn fuel hfuel, hslow]
  · intro m n hmn hn
    have hle : m.toNat ≤ n.toNat := UInt64.le_iff_toNat_le.mp hmn
    have hsub : (n - m).toNat = n.toNat - m.toNat := UInt64.toNat_sub_of_le _ _ hmn
    refine ⟨_, FrozenSubtreeSiblingIterator.new_of_le hmn hn, fun fuel hfuel => ?_⟩
    obtain ⟨nodes, hcollect, hleaves, hfold⟩ :=
      FrozenSubtreeSiblingIterator.collect_spec fuel ⟨m, n - m⟩ (by simp only; omega)
        (by simp only; omega)
    refine ⟨nodes, hcollect, ?_, ?_⟩
    · rw [hleaves, hsub]
    · rw [hfold]
      simp only [hsub, Nat.add_sub_cancel' hle]

end CreditChain
