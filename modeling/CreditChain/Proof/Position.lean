import CreditChain.Lib.InorderTree
import CreditChain.Lib.Word

/-!
# Positions in an accumulator

`Position` of `types/src/proof/position/mod.rs`: a node of an accumulator's binary tree, named by
its in-order index, a `u64`.  The source keeps `index < u64::MAX - 1` as an invariant that the
navigation functions check with `assert!`; a failed assertion, an overflowing `+` or `-` and a
shift by 64 or more (release builds keep overflow checks) panic, and are `none` here.

Each function is a bit trick on the index.  On the index of a node of `InorderTree`, each computes
the index of the node the tree's arithmetic gives (`parent_ofNode`, `leftChild_ofNode`, …), as long
as the words involved do not leave 64 bits; the navigation laws of the tree then carry over to
positions, and where a word does leave 64 bits, the law fails.
-/

namespace CreditChain

open InorderTree (Node)

/-- `u64::MAX`. -/
def u64Max : UInt64 := 0xFFFFFFFFFFFFFFFF

/-- `Position`: the in-order index of a node. -/
structure Position where
  val : UInt64
  deriving DecidableEq, Repr

/-- `isolate_rightmost_zero_bit`: the lowest zero bit of `v`, alone; `overflowing_add` wraps. -/
def isolateRightmostZeroBit (v : UInt64) : UInt64 := ~~~v &&& (v + 1)

/-- `turn_off_right_most_n_bits`. -/
def turnOffRightMostNBits (v : UInt64) (n : Nat) : Option UInt64 := do
  let shifted ← Word.checkedShr v n
  Word.checkedShl shifted n

/-- `NodeDirection`. -/
inductive NodeDirection
  | left
  | right
  deriving DecidableEq, Repr

namespace Position

/-- `Position::level`: the number of ones below the lowest zero bit. -/
def level (self : Position) : Nat := Word.trailingZeros (~~~self.val)

def isLeaf (self : Position) : Bool := self.val &&& 1 == 0

/-- `Position::pos_counting_from_left`. -/
def posCountingFromLeft (self : Position) : Option UInt64 :=
  Word.checkedShr self.val (self.level + 1)

/-- `Position::from_level_and_pos`. -/
def fromLevelAndPos (level : Nat) (pos : UInt64) : Option Position :=
  if level < 64 ∧ (1 : UInt64) <<< level.toUInt64 > 0 then
    let levelOneBits := ((1 : UInt64) <<< level.toUInt64) - 1
    let shiftedPos := if level = 63 then 0 else pos <<< (level + 1).toUInt64
    some ⟨shiftedPos ||| levelOneBits⟩
  else none

/-- `Position::parent`. -/
def parent (self : Position) : Option Position :=
  if self.val < u64Max - 1 then
    some ⟨(self.val ||| isolateRightmostZeroBit self.val) &&&
      ~~~(isolateRightmostZeroBit self.val <<< 1)⟩
  else none

/-- `Position::child`. -/
def child (self : Position) (dir : NodeDirection) : Option Position :=
  if !self.isLeaf ∧ self.val < u64Max - 1 then
    let directionBit := match dir with
      | .left => 0
      | .right => isolateRightmostZeroBit self.val
    some ⟨(self.val ||| directionBit) &&& ~~~(isolateRightmostZeroBit self.val >>> 1)⟩
  else none

/-- `Position::left_child`. -/
def leftChild (self : Position) : Option Position :=
  if self.isLeaf then none else self.child .left

/-- `Position::right_child`. -/
def rightChild (self : Position) : Option Position :=
  if self.isLeaf then none else self.child .right

/-- `Position::is_left_child`. -/
def isLeftChild (self : Position) : Option Bool :=
  if self.val < u64Max - 1 then
    some (self.val &&& (isolateRightmostZeroBit self.val <<< 1) == 0)
  else none

/-- `Position::is_right_child`. -/
def isRightChild (self : Position) : Option Bool := (!·) <$> self.isLeftChild

/-- `Position::from_leaf_index`. -/
def fromLeafIndex (leafIndex : UInt64) : Option Position := fromLevelAndPos 0 leafIndex

theorem fromLeafIndex_eq_fromLevelAndPos (leafIndex : UInt64) :
    fromLeafIndex leafIndex = fromLevelAndPos 0 leafIndex := rfl

/-- `Position::sibling`. -/
def sibling (self : Position) : Option Position :=
  if self.val < u64Max - 1 then
    some ⟨self.val ^^^ (isolateRightmostZeroBit self.val <<< 1)⟩
  else none

/-- `Position::right_most_child`. -/
def rightMostChild (self : Position) : Option Position := do
  let shifted ← Word.checkedShl 1 self.level
  let sum ← Word.checkedAdd self.val shifted
  let index ← Word.checkedSub sum 1
  pure ⟨index⟩

/-- `Position::left_most_child`. -/
def leftMostChild (self : Position) : Option Position :=
  Position.mk <$> turnOffRightMostNBits self.val self.level

def toInorderIndex (self : Position) : UInt64 := self.val

/-- The position of a node of the in-order tree. -/
def ofNode (n : Node) : Position := ⟨UInt64.ofNat n.index⟩

end Position

/-- `children_of_node`: the number of descendants of a node. -/
def childrenOfNode (node : UInt64) : Option UInt64 :=
  Word.checkedSub (isolateRightmostZeroBit node <<< 1) 2

/-- `nodes_to_left_of`: the nodes a post-order traversal visits before a node, other than its
descendants. -/
def nodesToLeftOf (node : UInt64) : Option UInt64 := do
  let onesUpToLevel ← Word.checkedSub (isolateRightmostZeroBit node) 1
  let unsetLevelZeros := node ^^^ onesUpToLevel
  Word.checkedSub unsetLevelZeros (Word.countOnes unsetLevelZeros).toUInt64

/-- `inorder_to_postorder`. -/
def inorderToPostorder (node : UInt64) : Option UInt64 := do
  let children ← childrenOfNode node
  let leftNodes ← nodesToLeftOf node
  Word.checkedAdd children leftNodes

/-- The loop of `postorder_to_inorder` on `(node, full_binary_size, bitmap)`, over the bits
`i - 1` down to `0`. -/
def postorderToInorderLoop : Nat → UInt64 × UInt64 × UInt64 → UInt64 × UInt64 × UInt64
  | 0, s => s
  | i + 1, (node, fullBinarySize, bitmap) =>
    if node ≥ fullBinarySize then
      postorderToInorderLoop i
        (node - fullBinarySize, fullBinarySize >>> 1, bitmap ||| (1 : UInt64) <<< i.toUInt64)
    else
      postorderToInorderLoop i (node, fullBinarySize >>> 1, bitmap)

theorem postorderToInorderLoop_zero (s : UInt64 × UInt64 × UInt64) :
    postorderToInorderLoop 0 s = s := rfl

theorem postorderToInorderLoop_succ (i : Nat) (node fullBinarySize bitmap : UInt64) :
    postorderToInorderLoop (i + 1) (node, fullBinarySize, bitmap) =
      if node ≥ fullBinarySize then
        postorderToInorderLoop i
          (node - fullBinarySize, fullBinarySize >>> 1, bitmap ||| (1 : UInt64) <<< i.toUInt64)
      else
        postorderToInorderLoop i (node, fullBinarySize >>> 1, bitmap) := rfl

/-- `postorder_to_inorder`; `node as u32` keeps the low 32 bits. -/
def postorderToInorder (node : UInt64) : Option UInt64 :=
  let s := postorderToInorderLoop 64 (node, ~~~0, 0)
  let level := s.1.toNat % 2 ^ 32
  do
    let pos ← Word.checkedShr s.2.2 level
    let position ← Position.fromLevelAndPos level pos
    pure position.toInorderIndex

/-! ### Refinement of the tree's navigation -/

namespace Position

variable {n : Node}

theorem val_lt_iff {p : Position} : p.val < u64Max - 1 ↔ p.val.toNat < 2 ^ 64 - 2 := by
  rw [UInt64.lt_iff_toNat_lt]
  rfl

theorem toNat_ofNode (h : n.index < 2 ^ 64) : (ofNode n).val.toNat = n.index :=
  UInt64.toNat_ofNat_of_lt' h

/-- Every position below `u64::MAX` is the position of a node. -/
theorem exists_ofNode (p : Position) (h : p.val.toNat + 1 < 2 ^ 64) :
    ∃ n : Node, n.index + 1 < 2 ^ 64 ∧ p = ofNode n := by
  obtain ⟨n, hn⟩ := Node.exists_index p.val.toNat
  refine ⟨n, hn ▸ h, ?_⟩
  delta ofNode
  simp [hn]

/-- A word is the position of a node when their low 64 bits agree. -/
theorem eq_ofNode {v : UInt64} {m : Node} (hv : ∀ i < 64, v.toNat.testBit i = m.index.testBit i) :
    (⟨v⟩ : Position) = ofNode m := by
  delta ofNode
  rw [Position.mk.injEq]
  apply Word.ext_testBit
  intro i hi
  rw [hv i hi, Word.testBit_toNat_ofNat hi]

theorem ofNode_inj {a b : Node} (ha : a.index < 2 ^ 64) (hb : b.index < 2 ^ 64) :
    ofNode a = ofNode b ↔ a.index = b.index := by
  delta ofNode
  rw [Position.mk.injEq, ← UInt64.toNat_inj, UInt64.toNat_ofNat_of_lt' ha,
    UInt64.toNat_ofNat_of_lt' hb]

theorem eq_ofNode_of_toNat {v : UInt64} {m : Node} (hv : v.toNat = m.index) :
    (⟨v⟩ : Position) = ofNode m :=
  eq_ofNode fun i _ => by rw [hv]

/-- Below level 63, `from_level_and_pos` gives the position of the node with that level and
position, the position's bits above the word dropped. -/
theorem fromLevelAndPos_of_lt {l : Nat} (hl : l < 63) (q : UInt64) :
    fromLevelAndPos l q = some (ofNode ⟨l, q.toNat⟩) := by
  have hone := Word.toNat_one_shiftLeft (k := l) (by omega)
  have hpos : (0 : UInt64) < (1 : UInt64) <<< l.toUInt64 := by
    rw [UInt64.lt_iff_toNat_lt, hone]
    exact Nat.two_pow_pos l
  delta fromLevelAndPos
  rw [if_pos ⟨by omega, hpos⟩]
  simp only [show l ≠ 63 by omega, if_false]
  refine congrArg some (eq_ofNode fun i hi => ?_)
  have hsub : ((1 : UInt64) <<< l.toUInt64 - 1).toNat = 2 ^ l - 1 := by
    rw [UInt64.toNat_sub_of_le _ _ (by rw [UInt64.le_iff_toNat_le, hone]; exact Nat.one_le_two_pow)]
    simp [hone]
  simp only [UInt64.toNat_or, Nat.testBit_or, Word.testBit_toNat_shiftLeft q (show l + 1 < 64 by omega),
    hsub, Nat.testBit_two_pow_sub_one, Node.testBit_index, hi, decide_true, Bool.true_and]
  -- the position's bits above the level's ones and their zero
  rcases Nat.lt_or_ge i (l + 1) with hil | hil
  · simp [Nat.not_le_of_lt hil, show ¬ l < i by omega]
  · simp [hil, show ¬ i < l by omega, show l < i by omega]

theorem fromLevelAndPos_sixtyThree (q : UInt64) :
    fromLevelAndPos 63 q = some (ofNode ⟨63, 0⟩) := by
  have hone := Word.toNat_one_shiftLeft (k := 63) (by omega)
  have hpos : (0 : UInt64) < (1 : UInt64) <<< (63 : Nat).toUInt64 := by
    rw [UInt64.lt_iff_toNat_lt, hone]
    decide
  delta fromLevelAndPos
  rw [if_pos ⟨by omega, hpos⟩]
  simp only [↓reduceIte]
  decide

section Fits

variable (h : n.index + 1 < 2 ^ 64)
include h

theorem testBit_ofNode (i : Nat) :
    (ofNode n).val.toNat.testBit i =
      (decide (i < n.level) || decide (n.level < i) && n.pos.testBit (i - (n.level + 1))) := by
  rw [toNat_ofNode (by omega), Node.testBit_index]

/-- The lowest zero bit of a node's index is at its level. -/
theorem isolateRightmostZeroBit_ofNode :
    isolateRightmostZeroBit (ofNode n).val = UInt64.ofNat (2 ^ n.level) := by
  have hl := Node.level_lt h
  apply Word.ext_testBit
  intro i hi
  have hsucc : ((ofNode n).val + 1).toNat = n.index + 1 := by
    rw [Word.toNat_add_of_lt] <;> simp [toNat_ofNode (n := n) (by omega)]; omega
  simp only [isolateRightmostZeroBit, UInt64.toNat_and, Nat.testBit_and, Word.testBit_toNat_not,
    hsucc, Node.testBit_index_add_one, toNat_ofNode (n := n) (by omega), Node.testBit_index,
    Word.testBit_toNat_ofNat hi, Nat.testBit_two_pow]
  rcases Nat.lt_trichotomy i n.level with hil | rfl | hil
  · simp [hil, Nat.ne_of_lt hil, Nat.ne_of_gt hil]
  · simp [hi]
  · simp [hil, Nat.ne_of_lt hil, Nat.ne_of_gt hil, Nat.not_lt_of_gt hil, Bool.and_assoc]

theorem toNat_isolateRightmostZeroBit_ofNode :
    (isolateRightmostZeroBit (ofNode n).val).toNat = 2 ^ n.level := by
  rw [isolateRightmostZeroBit_ofNode h, UInt64.toNat_ofNat_of_lt']
  exact Nat.pow_lt_pow_right (by decide) (Node.level_lt h)

/-- A node's position sits at the node's level. -/
theorem level_ofNode : (ofNode n).level = n.level := by
  apply Bits.trailingZeros_eq (Node.level_lt h)
  · intro i hi
    rw [Word.testBit_toNat_not, testBit_ofNode h]
    simp [hi]
  · rw [Word.testBit_toNat_not, testBit_ofNode h]
    simp [Node.level_lt h]

theorem isLeaf_ofNode : (ofNode n).isLeaf = decide (n.level = 0) := by
  -- bit 0 of the index is set exactly above the leaves
  have hbit := testBit_ofNode h 0
  simp only [Nat.testBit_zero, Nat.not_lt_zero, decide_false, Bool.false_and, Bool.or_false,
    decide_eq_decide] at hbit
  rw [isLeaf, Bool.eq_iff_iff, beq_iff_eq, decide_eq_true_iff, ← UInt64.toNat_inj,
    UInt64.toNat_and]
  simp only [UInt64.toNat_one, Nat.and_one_is_mod, UInt64.toNat_zero]
  omega

theorem level_pos_of_not_isLeaf (hleaf : (ofNode n).isLeaf = false) : 0 < n.level := by
  rw [isLeaf_ofNode h, decide_eq_false_iff_not] at hleaf
  exact Nat.pos_of_ne_zero hleaf

/-- The only node of level 63 in a word is the root of the whole word. -/
theorem eq_root_of_sixtyThree_le (hl : 63 ≤ n.level) : n = ⟨63, 0⟩ := by
  have hpos := Node.pos_lt (w := 64) (by omega : n.index < 2 ^ 64)
  have hl' := Node.level_lt h
  rw [show 64 - (n.level + 1) = 0 by omega, Nat.pow_zero, Nat.lt_one_iff] at hpos
  obtain ⟨l, pos⟩ := n
  simp only at hpos hl hl' ⊢
  rw [hpos, show l = 63 by omega]

/-- Below the invariant's bound, the parent of a node's position is the position of its
parent. -/
theorem parent_ofNode (hv : n.index < 2 ^ 64 - 2) : (ofNode n).parent = some (ofNode n.parent) := by
  rw [parent, if_pos (Iff.mpr val_lt_iff (by rw [toNat_ofNode (by omega)]; exact hv))]
  refine congrArg some (eq_ofNode fun i hi => ?_)
  simp only [UInt64.toNat_and, UInt64.toNat_or, Nat.testBit_and, Nat.testBit_or,
    Word.testBit_toNat_not, Word.testBit_toNat_shiftLeft_one, toNat_isolateRightmostZeroBit_ofNode h,
    Nat.testBit_two_pow, testBit_ofNode h, Node.testBit_index, Node.parent_eq, Nat.testBit_div_two,
    decide_true, hi, Bool.true_and]
  -- the parent sets the node's zero bit and clears the bit above it
  rcases Nat.lt_or_ge i n.level with hil | hil
  · simp [hil, Nat.lt_succ_of_lt hil, show n.level ≠ i - 1 by omega]
  rcases Nat.eq_or_lt_of_le hil with rfl | hil
  · simp
    omega
  rcases Nat.eq_or_lt_of_le (Nat.succ_le_of_lt hil) with rfl | hil'
  · simp
  · simp [hil, Nat.ne_of_lt hil, Nat.not_lt_of_gt hil, show 1 ≤ i by omega,
      show n.level ≠ i - 1 by omega, show ¬ i < n.level + 1 by omega, show n.level + 1 < i by omega,
      show i - (n.level + 1 + 1) + 1 = i - (n.level + 1) by omega]

/-- The left child of a node's position, above the leaves, is the position of its left child. -/
theorem leftChild_ofNode (hv : n.index < 2 ^ 64 - 2) (hl : 0 < n.level) :
    (ofNode n).leftChild = some (ofNode n.leftChild) := by
  have hleaf : (ofNode n).isLeaf = false := by simp [isLeaf_ofNode h, Nat.pos_iff_ne_zero.mp hl]
  have hval : (ofNode n).val < u64Max - 1 := Iff.mpr val_lt_iff (by rw [toNat_ofNode (by omega)]; exact hv)
  have hl₁ : n.level - 1 + 1 = n.level := by omega
  rw [leftChild, hleaf, if_neg Bool.false_ne_true]
  delta child
  rw [if_pos ⟨by simp [hleaf], hval⟩]
  refine congrArg some (eq_ofNode fun i hi => ?_)
  simp only [UInt64.toNat_and, UInt64.toNat_or, UInt64.toNat_zero, Nat.or_zero, Nat.testBit_and,
    Word.testBit_toNat_not, Word.testBit_toNat_shiftRight_one, toNat_isolateRightmostZeroBit_ofNode h,
    Nat.testBit_two_pow, testBit_ofNode h, Node.testBit_index, Node.leftChild_eq, hl₁,
    InorderTree.testBit_two_mul, Nat.sub_sub, decide_true, hi, Bool.true_and]
  -- the left child clears the bit below the node's zero bit
  rcases Nat.lt_trichotomy (i + 1) n.level with hil | hil | hil
  · simp [Nat.lt_of_succ_lt hil, show i < n.level - 1 by omega, show n.level ≠ i + 1 by omega]
  · simp [← hil]
  rcases Nat.eq_or_lt_of_le (Nat.le_of_lt_succ hil) with rfl | hil'
  · simp [show n.level - 1 < n.level by omega]
  · simp [hil', Nat.not_lt_of_gt hil', show n.level - 1 < i by omega, show ¬ i < n.level - 1 by omega,
      show n.level ≠ i + 1 by omega, show 0 < i - n.level by omega]

/-- The right child of a node's position, above the leaves, is the position of its right
child. -/
theorem rightChild_ofNode (hv : n.index < 2 ^ 64 - 2) (hl : 0 < n.level) :
    (ofNode n).rightChild = some (ofNode n.rightChild) := by
  have hleaf : (ofNode n).isLeaf = false := by simp [isLeaf_ofNode h, Nat.pos_iff_ne_zero.mp hl]
  have hval : (ofNode n).val < u64Max - 1 := Iff.mpr val_lt_iff (by rw [toNat_ofNode (by omega)]; exact hv)
  have hl₁ : n.level - 1 + 1 = n.level := by omega
  rw [rightChild, hleaf, if_neg Bool.false_ne_true]
  delta child
  rw [if_pos ⟨by simp [hleaf], hval⟩]
  refine congrArg some (eq_ofNode fun i hi => ?_)
  simp only [UInt64.toNat_and, UInt64.toNat_or, Nat.testBit_and, Nat.testBit_or,
    Word.testBit_toNat_not, Word.testBit_toNat_shiftRight_one, toNat_isolateRightmostZeroBit_ofNode h,
    Nat.testBit_two_pow, testBit_ofNode h, Node.testBit_index, Node.rightChild_eq, hl₁,
    InorderTree.testBit_two_mul_add_one, Nat.sub_sub, decide_true, hi, Bool.true_and]
  -- the right child keeps the node's zero bit set and clears the bit below it
  rcases Nat.lt_trichotomy (i + 1) n.level with hil | hil | hil
  · simp [Nat.lt_of_succ_lt hil, show i < n.level - 1 by omega, show n.level ≠ i + 1 by omega,
      show n.level ≠ i by omega]
  · simp [← hil]
  rcases Nat.eq_or_lt_of_le (Nat.le_of_lt_succ hil) with rfl | hil'
  · simp [show n.level - 1 < n.level by omega]
  · simp [hil', Nat.not_lt_of_gt hil', show n.level - 1 < i by omega, show ¬ i < n.level - 1 by omega,
      show n.level ≠ i + 1 by omega, show n.level ≠ i by omega, show i - n.level ≠ 0 by omega]

/-- A node's position is a left child exactly when the node's last turn is to the left. -/
theorem isLeftChild_ofNode (hv : n.index < 2 ^ 64 - 2) :
    (ofNode n).isLeftChild = some (decide (n.pos % 2 = 0)) := by
  have hval : (ofNode n).val < u64Max - 1 := Iff.mpr val_lt_iff (by rw [toNat_ofNode (by omega)]; exact hv)
  rw [isLeftChild, if_pos hval, Option.some_inj, Bool.eq_iff_iff, beq_iff_eq, decide_eq_true_iff,
    Word.eq_zero_iff_testBit]
  simp only [UInt64.toNat_and, Nat.testBit_and, Word.testBit_toNat_shiftLeft_one,
    toNat_isolateRightmostZeroBit_ofNode h, Nat.testBit_two_pow, testBit_ofNode h]
  -- only bit `level + 1` can be set, and it is the last turn
  constructor
  · intro hbits
    rcases Nat.lt_or_ge (n.level + 1) 64 with hl | hl
    · have := hbits (n.level + 1) hl
      simpa [hl, Nat.testBit_zero] using this
    · have hpos := Node.pos_lt (w := 64) (by omega : n.index < 2 ^ 64)
      rw [show 64 - (n.level + 1) = 0 by omega] at hpos
      omega
  · intro hpos i hi
    have hbit : n.pos.testBit 0 = false := by simp [Nat.testBit_zero, hpos]
    rcases eq_or_ne i (n.level + 1) with rfl | hne
    · simp [hbit]
    · simp only [Bool.and_eq_false_iff]
      right
      simp [hi]
      omega

/-- The sibling of a node's position is the position of its sibling. -/
theorem sibling_ofNode (hv : n.index < 2 ^ 64 - 2) :
    (ofNode n).sibling = some (ofNode n.sibling) := by
  have hval : (ofNode n).val < u64Max - 1 := Iff.mpr val_lt_iff (by rw [toNat_ofNode (by omega)]; exact hv)
  rw [sibling, if_pos hval]
  refine congrArg some (eq_ofNode fun i hi => ?_)
  simp only [UInt64.toNat_xor, Nat.testBit_xor, Word.testBit_toNat_shiftLeft_one,
    toNat_isolateRightmostZeroBit_ofNode h, Nat.testBit_two_pow, testBit_ofNode h, Node.testBit_index,
    Node.sibling_eq, InorderTree.testBit_one, decide_true, hi, Bool.true_and]
  -- the sibling flips bit `level + 1`, the last turn
  rcases Nat.lt_or_ge i n.level with hil | hil
  · simp [hil, Nat.not_lt_of_gt hil]
    omega
  rcases Nat.eq_or_lt_of_le hil with rfl | hil
  · simp
    omega
  · simp [hil, Nat.not_lt_of_gt hil, show 1 ≤ i by omega,
      show (n.level = i - 1) = (i - (n.level + 1) = 0) by simp only [eq_iff_iff]; omega]

/-- Below level 63, a node's position counts its node's position on the level. -/
theorem posCountingFromLeft_ofNode (hl : n.level < 63) :
    (ofNode n).posCountingFromLeft = some (UInt64.ofNat n.pos) := by
  rw [posCountingFromLeft, level_ofNode h, Word.checkedShr_of_lt _ (by omega)]
  refine congrArg some (Word.ext_testBit fun i hi => ?_)
  rw [Word.testBit_toNat_shiftRight _ (by omega), testBit_ofNode h, Word.testBit_toNat_ofNat hi]
  simp [show ¬ n.level + 1 + i < n.level by omega, show n.level < n.level + 1 + i by omega]

/-- The leftmost leaf below a node's position. -/
theorem leftMostChild_ofNode :
    (ofNode n).leftMostChild = some (ofNode (Node.leaf (n.pos * 2 ^ n.level))) := by
  have hl := Node.level_lt h
  rw [leftMostChild, level_ofNode h, turnOffRightMostNBits, Word.checkedShr_of_lt _ hl]
  simp only [Word.checkedShl_of_lt _ hl, Option.map_eq_map]
  refine congrArg some (eq_ofNode fun i hi => ?_)
  simp only [Word.testBit_toNat_shiftLeft _ hl, Word.testBit_toNat_shiftRight _ hl, testBit_ofNode h,
    Node.testBit_index, Node.leaf_eq, Nat.testBit_mul_two_pow, hi, decide_true, Bool.true_and]
  -- the node's ones are turned off; above them, the leaf index is `pos` shifted by the level
  rcases Nat.lt_trichotomy i n.level with hil | rfl | hil
  · simp [Nat.not_le_of_lt hil]
    omega
  · simp
    omega
  · simp [Nat.le_of_lt hil, show n.level + (i - n.level) = i by omega, show 0 < i by omega,
      show ¬ i < n.level by omega, hil, show n.level ≤ i - 1 by omega,
      show i - 1 - n.level = i - (n.level + 1) by omega]

/-- The rightmost leaf below a node's position. -/
theorem rightMostChild_ofNode :
    (ofNode n).rightMostChild =
      some (ofNode (Node.leaf (n.pos * 2 ^ n.level + 2 ^ n.level - 1))) := by
  have hl := Node.level_lt h
  have hone := Word.toNat_one_shiftLeft hl
  -- the subtree's leaves fit: `(pos + 1) * 2^(level + 1) ≤ 2^64`
  have hfit := Node.add_one_mul_two_pow_le h
  have hv := toNat_ofNode (n := n) (by omega)
  have hY := Nat.one_le_two_pow (n := n.level)
  have e₁ : (n.pos + 1) * 2 ^ (n.level + 1) = 2 * (n.pos * 2 ^ n.level) + 2 * 2 ^ n.level := by ring
  have e₂ : n.pos * 2 ^ (n.level + 1) = 2 * (n.pos * 2 ^ n.level) := by ring
  have hsum : (ofNode n).val.toNat + 2 ^ n.level < 2 ^ 64 := by
    rw [hv, Node.index_eq, e₂]; omega
  have hadd : Word.checkedAdd (ofNode n).val ((1 : UInt64) <<< n.level.toUInt64) =
      some ((ofNode n).val + (1 : UInt64) <<< n.level.toUInt64) :=
    Word.checkedAdd_of_lt (by rw [hone]; exact hsum)
  have hsumNat : ((ofNode n).val + (1 : UInt64) <<< n.level.toUInt64).toNat =
      (ofNode n).val.toNat + 2 ^ n.level := by
    rw [Word.toNat_add_of_lt (by rw [hone]; exact hsum), hone]
  have hsub : Word.checkedSub ((ofNode n).val + (1 : UInt64) <<< n.level.toUInt64) 1 =
      some ((ofNode n).val + (1 : UInt64) <<< n.level.toUInt64 - 1) :=
    Word.checkedSub_of_le (by rw [hsumNat]; simp; omega)
  rw [rightMostChild, level_ofNode h, Word.checkedShl_of_lt _ hl]
  simp only [Option.bind_eq_bind, Option.bind_some, hadd, hsub]
  refine congrArg some (eq_ofNode_of_toNat ?_)
  rw [UInt64.toNat_sub_of_le _ _ (by rw [UInt64.le_iff_toNat_le, hsumNat]; simp; omega), hsumNat, hv]
  simp only [Node.index_eq, Node.leaf_eq, Nat.zero_add, Nat.pow_zero, Nat.sub_self, Nat.add_zero, e₂,
    UInt64.toNat_one]
  omega

/-- Every node of the word but its root `2^63 - 1` is below level 63. -/
theorem level_lt_of_ne_root (hroot : n.index ≠ 2 ^ 63 - 1) : n.level < 63 := by
  rcases Nat.lt_or_ge n.level 63 with hl | hl
  · exact hl
  · obtain rfl := eq_root_of_sixtyThree_le h hl
    exact absurd rfl hroot

/-- Away from `u64::MAX - 3`, the sibling of a node's position below level 63 keeps the
invariant; the sibling of `u64::MAX - 3` is `u64::MAX - 1`. -/
theorem index_sibling_lt (hv : n.index < 2 ^ 64 - 2) (hl : n.level < 63)
    (htop : n.index ≠ 2 ^ 64 - 4) : n.sibling.index < 2 ^ 64 - 2 := by
  rcases Nat.mod_two_eq_zero_or_one n.pos with he | ho
  · -- a left child: its sibling ends where its parent's span does
    have hup := Node.index_parent_add_le h (by omega : n.level + 1 < 64)
    have hparent : n.index + 2 ^ n.level = n.parent.index := by
      have := Node.index_leftChild (n := n.parent) (Nat.succ_pos _)
      rw [(Node.leftChild_parent_iff n).mpr he] at this
      exact this
    have hpow : 2 ^ (n.level + 1) = 2 * 2 ^ n.level := pow_succ' 2 n.level
    have hY := Nat.one_le_two_pow (n := n.level)
    rw [Node.index_sibling_of_even he]
    omega
  · have := Node.index_sibling_of_odd ho
    have hY := Nat.one_le_two_pow (n := n.level + 1)
    omega

end Fits

/-! ### Navigation laws

The laws of the tree, carried to positions by the refinement lemmas.  Each holds wherever the
positions it passes through keep the invariant `index < u64::MAX - 1`: the right child of
`u64::MAX - 2` and the sibling of `u64::MAX - 3` are `u64::MAX - 1`, which `parent` and `sibling`
reject, and at level 63 `pos_counting_from_left` shifts by 64. -/

section Laws

variable {p : Position} (hp : p.val.toNat < 2 ^ 64 - 2)
include hp

theorem exists_ofNode_of_lt : ∃ n : Node, n.index < 2 ^ 64 - 2 ∧ p = ofNode n := by
  obtain ⟨n, hn, rfl⟩ := exists_ofNode p (by omega)
  exact ⟨n, by rwa [toNat_ofNode (by omega)] at hp, rfl⟩

/-- `parent(left_child(p)) = p`. -/
theorem leftChild_bind_parent (hleaf : p.isLeaf = false) : p.leftChild.bind parent = some p := by
  obtain ⟨n, hv, rfl⟩ := exists_ofNode_of_lt hp
  have h : n.index + 1 < 2 ^ 64 := by omega
  have hl := level_pos_of_not_isLeaf h hleaf
  have hchild := Node.index_leftChild hl
  have hY := Nat.one_le_two_pow (n := n.level - 1)
  rw [leftChild_ofNode h hv hl, Option.bind_some, parent_ofNode (by omega) (by omega),
    Node.parent_leftChild hl]

/-- `parent(right_child(p)) = p`, except at `u64::MAX - 2`. -/
theorem rightChild_bind_parent (hleaf : p.isLeaf = false) (htop : p.val.toNat ≠ 2 ^ 64 - 3) :
    p.rightChild.bind parent = some p := by
  obtain ⟨n, hv, rfl⟩ := exists_ofNode_of_lt hp
  have h : n.index + 1 < 2 ^ 64 := by omega
  have hl := level_pos_of_not_isLeaf h hleaf
  rw [toNat_ofNode (by omega)] at htop
  -- the right child sits `2^(level - 1)` above, inside the node's span
  have hchild := Node.index_rightChild hl
  have hroom := Node.index_rightChild_add_le h hl
  have hY := Nat.one_le_two_pow (n := n.level - 1)
  rw [rightChild_ofNode h hv hl, Option.bind_some, parent_ofNode (by omega) (by omega),
    Node.parent_rightChild hl]

/-- `sibling(sibling(p)) = p`, except at `u64::MAX - 3`. -/
theorem sibling_bind_sibling (htop : p.val.toNat ≠ 2 ^ 64 - 4) : p.sibling.bind sibling = some p := by
  obtain ⟨n, hv, rfl⟩ := exists_ofNode_of_lt hp
  have h : n.index + 1 < 2 ^ 64 := by omega
  rw [toNat_ofNode (by omega)] at htop
  rcases Nat.lt_or_ge n.level 63 with hl | hl
  · have hs := index_sibling_lt h hv hl htop
    rw [sibling_ofNode h hv, Option.bind_some, sibling_ofNode (by omega) hs, Node.sibling_sibling]
  · -- the root of the whole word is its own sibling
    obtain rfl := eq_root_of_sixtyThree_le h hl
    decide

/-- `parent(sibling(p)) = parent(p)` below level 63, except at `u64::MAX - 3`. -/
theorem sibling_bind_parent (hl : p.level < 63) (htop : p.val.toNat ≠ 2 ^ 64 - 4) :
    p.sibling.bind parent = p.parent := by
  obtain ⟨n, hv, rfl⟩ := exists_ofNode_of_lt hp
  have h : n.index + 1 < 2 ^ 64 := by omega
  rw [level_ofNode h] at hl
  rw [toNat_ofNode (by omega)] at htop
  have hs := index_sibling_lt h hv hl htop
  rw [sibling_ofNode h hv, Option.bind_some, parent_ofNode (by omega) hs, parent_ofNode h hv,
    Node.parent_sibling]

/-- `level(parent(p)) = level(p) + 1` below level 63. -/
theorem level_parent (hl : p.level < 63) : p.parent.map level = some (p.level + 1) := by
  obtain ⟨n, hv, rfl⟩ := exists_ofNode_of_lt hp
  have h : n.index + 1 < 2 ^ 64 := by omega
  rw [level_ofNode h] at hl ⊢
  have hup := Node.index_parent_add_le h (by omega : n.level + 1 < 64)
  have hY := Nat.one_le_two_pow (n := n.level + 1)
  rw [parent_ofNode h hv, Option.map_some, level_ofNode (by omega)]
  rfl

/-- `is_left_child(p)` exactly when `p = left_child(parent(p))`, below level 63. -/
theorem isLeftChild_eq (hl : p.level < 63) :
    p.isLeftChild = some (decide (p.parent.bind leftChild = some p)) := by
  obtain ⟨n, hv, rfl⟩ := exists_ofNode_of_lt hp
  have h : n.index + 1 < 2 ^ 64 := by omega
  rw [level_ofNode h] at hl
  have hup := Node.index_parent_add_le h (by omega : n.level + 1 < 64)
  have hY : 2 ≤ 2 ^ (n.level + 1) := by
    rw [pow_succ]; have := Nat.one_le_two_pow (n := n.level); omega
  have hchild : n.parent.leftChild.index + 2 ^ n.level = n.parent.index :=
    Node.index_leftChild (n := n.parent) (Nat.succ_pos _)
  rw [isLeftChild_ofNode h hv, parent_ofNode h hv, Option.bind_some,
    leftChild_ofNode (by omega) (by omega) (Nat.succ_pos _)]
  simp only [Option.some_inj, decide_eq_decide]
  rw [ofNode_inj (by omega) (by omega), Node.index_parent_leftChild_eq_iff]

/-- `from_level_and_pos(level(p), pos_counting_from_left(p)) = p` below level 63. -/
theorem posCountingFromLeft_bind_fromLevelAndPos (hl : p.level < 63) :
    p.posCountingFromLeft.bind (fromLevelAndPos p.level) = some p := by
  obtain ⟨n, hv, rfl⟩ := exists_ofNode_of_lt hp
  have h : n.index + 1 < 2 ^ 64 := by omega
  rw [level_ofNode h] at hl ⊢
  have hpos : n.pos < 2 ^ 64 :=
    Nat.lt_of_lt_of_le (Node.pos_lt (w := 64) (by omega)) (Nat.pow_le_pow_right (by decide) (by omega))
  rw [posCountingFromLeft_ofNode h hl, Option.bind_some, fromLevelAndPos_of_lt hl,
    UInt64.toNat_ofNat_of_lt' hpos]

/-- `left_most_child(p)` is the leaf `(p >> (level + 1)) * 2^level`. -/
theorem leftMostChild_eq :
    p.leftMostChild =
      fromLeafIndex (UInt64.ofNat (p.val.toNat / 2 ^ (p.level + 1) * 2 ^ p.level)) := by
  obtain ⟨n, hv, rfl⟩ := exists_ofNode_of_lt hp
  have h : n.index + 1 < 2 ^ 64 := by omega
  have hleaves := Node.pos_mul_two_pow_add_le h
  have hY := Nat.one_le_two_pow (n := n.level)
  rw [leftMostChild_ofNode h, level_ofNode h, toNat_ofNode (by omega), Node.index_div_two_pow,
    fromLeafIndex_eq_fromLevelAndPos, fromLevelAndPos_of_lt (by decide), UInt64.toNat_ofNat_of_lt' (show _ < 2 ^ 64 by omega)]
  rfl

/-- `right_most_child(p)` is the leaf `(p >> (level + 1)) * 2^level + 2^level - 1`. -/
theorem rightMostChild_eq :
    p.rightMostChild = fromLeafIndex
      (UInt64.ofNat (p.val.toNat / 2 ^ (p.level + 1) * 2 ^ p.level + 2 ^ p.level - 1)) := by
  obtain ⟨n, hv, rfl⟩ := exists_ofNode_of_lt hp
  have h : n.index + 1 < 2 ^ 64 := by omega
  have hleaves := Node.pos_mul_two_pow_add_le h
  have hY := Nat.one_le_two_pow (n := n.level)
  rw [rightMostChild_ofNode h, level_ofNode h, toNat_ofNode (by omega), Node.index_div_two_pow,
    fromLeafIndex_eq_fromLevelAndPos, fromLevelAndPos_of_lt (by decide), UInt64.toNat_ofNat_of_lt' (show _ < 2 ^ 64 by omega)]
  rfl

end Laws

end Position

end CreditChain
