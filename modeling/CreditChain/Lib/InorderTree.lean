import CreditChain.Lib.Bits
import Mathlib.Tactic.Ring

/-!
# Perfect binary trees in in-order numbering

A node of a perfect binary tree whose nodes are numbered in in-order, from `0` at the leftmost
leaf, is given by its level above the leaves and the number of nodes to its left on that level.
Its in-order index is `pos * 2^(level+1) + 2^level - 1`: read in binary, `pos`, a zero, and
`level` ones (`testBit_index`).  Every natural number is the index of a node (`exists_index`).

Navigation is arithmetic on the pair, and its laws hold by that arithmetic.  `postorder` counts the
nodes a post-order traversal visits before a node: its descendants, and the left subtree beside
every right turn on its path from the top.
-/

namespace InorderTree

/-- One bit per one bit of `v`: `v` bits hold all of them. -/
def popcount (v : Nat) : Nat := Bits.countOnes v v

theorem countOnes_eq_popcount {w v : Nat} (hv : v < 2 ^ w) : Bits.countOnes w v = popcount v := by
  -- both counts equal the count over `w + v` bits, which adds only zero bits to each
  have h₁ := Bits.countOnes_mul_two_pow_add (a := 0) w v hv
  have h₂ := Bits.countOnes_mul_two_pow_add (a := 0) v w (Nat.lt_two_pow_self)
  simp only [Nat.zero_mul, Nat.zero_add, Bits.countOnes_zero_right, Nat.add_zero] at h₁ h₂
  rw [popcount, ← h₁, Nat.add_comm, h₂]

@[simp] theorem popcount_two_mul (v : Nat) : popcount (2 * v) = popcount v := by
  have hlt : 2 * v < 2 ^ (v + 1) := by rw [Nat.pow_succ']; exact Nat.mul_lt_mul_of_pos_left Nat.lt_two_pow_self (by decide)
  rw [← countOnes_eq_popcount hlt, Bits.countOnes_add_one]
  simp [countOnes_eq_popcount Nat.lt_two_pow_self]

@[simp] theorem popcount_two_mul_add_one (v : Nat) : popcount (2 * v + 1) = popcount v + 1 := by
  have hlt : 2 * v + 1 < 2 ^ (v + 1) := by rw [Nat.pow_succ']; have := Nat.lt_two_pow_self (n := v); omega
  rw [← countOnes_eq_popcount hlt, Bits.countOnes_add_one]
  have hdiv : (2 * v + 1) / 2 = v := by omega
  rw [hdiv, countOnes_eq_popcount Nat.lt_two_pow_self]
  omega

theorem testBit_one (j : Nat) : Nat.testBit 1 j = decide (j = 0) := by
  rw [Bool.eq_iff_iff, Nat.testBit_one_eq_true_iff_self_eq_zero, decide_eq_true_iff]

theorem testBit_two_mul (x j : Nat) : (2 * x).testBit j = (decide (0 < j) && x.testBit (j - 1)) := by
  have := Nat.testBit_two_pow_mul (i := 1) (a := x) (j := j)
  simpa [Nat.one_le_iff_ne_zero, Nat.pos_iff_ne_zero] using this

theorem testBit_two_mul_add_one (x j : Nat) :
    (2 * x + 1).testBit j = (decide (j = 0) || x.testBit (j - 1)) := by
  rcases Nat.eq_zero_or_pos j with rfl | hj
  · simp
  · have := Nat.testBit_two_pow_mul_add x (i := 1) (b := 1) (by decide) j
    simpa [show ¬ j < 1 by omega, show j ≠ 0 by omega] using this

/-- A node: its level above the leaves, and the nodes to its left on that level. -/
structure Node where
  level : Nat
  pos : Nat
  deriving DecidableEq, Repr

namespace Node

/-- The in-order index of a node. -/
def index (n : Node) : Nat := n.pos * 2 ^ (n.level + 1) + (2 ^ n.level - 1)

theorem index_eq (n : Node) : n.index = n.pos * 2 ^ (n.level + 1) + (2 ^ n.level - 1) := rfl

def parent (n : Node) : Node := ⟨n.level + 1, n.pos / 2⟩

theorem parent_eq (n : Node) : n.parent = ⟨n.level + 1, n.pos / 2⟩ := rfl

def leftChild (n : Node) : Node := ⟨n.level - 1, 2 * n.pos⟩

theorem leftChild_eq (n : Node) : n.leftChild = ⟨n.level - 1, 2 * n.pos⟩ := rfl

def rightChild (n : Node) : Node := ⟨n.level - 1, 2 * n.pos + 1⟩

theorem rightChild_eq (n : Node) : n.rightChild = ⟨n.level - 1, 2 * n.pos + 1⟩ := rfl

def sibling (n : Node) : Node := ⟨n.level, n.pos ^^^ 1⟩

theorem sibling_eq (n : Node) : n.sibling = ⟨n.level, n.pos ^^^ 1⟩ := rfl

/-- The leaf with index `i`. -/
def leaf (i : Nat) : Node := ⟨0, i⟩

theorem leaf_eq (i : Nat) : leaf i = ⟨0, i⟩ := rfl

/-- The nodes a post-order traversal visits before `n`: its `2^(level+1) - 2` descendants, and for
each one bit `j` of `pos`, the `2^(level+1+j) - 1` nodes of the left subtree beside the right turn
at level `level + 1 + j`; these add up to `pos * 2^(level+1) - popcount pos`. -/
def postorder (n : Node) : Nat := 2 ^ (n.level + 1) - 2 + (n.pos * 2 ^ (n.level + 1) - popcount n.pos)

theorem postorder_eq (n : Node) :
    n.postorder = 2 ^ (n.level + 1) - 2 + (n.pos * 2 ^ (n.level + 1) - popcount n.pos) := rfl

/-! ### Navigation -/

theorem parent_leftChild {n : Node} (h : 0 < n.level) : n.leftChild.parent = n := by
  simp only [leftChild_eq, parent_eq]
  congr 1 <;> omega

theorem parent_rightChild {n : Node} (h : 0 < n.level) : n.rightChild.parent = n := by
  simp only [rightChild_eq, parent_eq]
  congr 1 <;> omega

@[simp] theorem sibling_sibling (n : Node) : n.sibling.sibling = n := by
  simp [sibling_eq]

/-- Flipping the last turn does not change the parent. -/
@[simp] theorem parent_sibling (n : Node) : n.sibling.parent = n.parent := by
  simp only [sibling_eq, parent_eq, Node.mk.injEq, true_and]
  -- `pos ^^^ 1` and `pos` agree on every bit above the lowest
  apply Nat.eq_of_testBit_eq
  intro i
  simp [Nat.testBit_div_two, Nat.testBit_xor, testBit_one]

theorem leftChild_parent_iff (n : Node) : n.parent.leftChild = n ↔ n.pos % 2 = 0 := by
  obtain ⟨l, pos⟩ := n
  simp only [parent_eq, leftChild_eq, Node.mk.injEq, Nat.add_sub_cancel, true_and]
  omega

/-! ### Bits of the index -/

theorem index_add_one (n : Node) : n.index + 1 = n.pos * 2 ^ (n.level + 1) + 2 ^ n.level := by
  have := Nat.one_le_two_pow (n := n.level)
  simp only [index_eq]
  omega

/-- The index reads `pos`, then a zero, then `level` ones. -/
theorem testBit_index (n : Node) (i : Nat) :
    n.index.testBit i =
      (decide (i < n.level) || decide (n.level < i) && n.pos.testBit (i - (n.level + 1))) := by
  have hlt : 2 ^ n.level - 1 < 2 ^ (n.level + 1) := by
    have := Nat.pow_lt_pow_right (a := 2) (by decide) (Nat.lt_succ_self n.level)
    omega
  rw [index_eq, Nat.mul_comm, Nat.testBit_two_pow_mul_add _ hlt, Nat.testBit_two_pow_sub_one]
  -- the low `level` bits, the zero at `level`, and `pos` above it
  rcases Nat.lt_trichotomy i n.level with hi | rfl | hi
  · simp [hi, show i < n.level + 1 by omega]
  · simp
  · simp [hi, show ¬ i < n.level + 1 by omega, show ¬ i < n.level by omega]

/-- The successor of the index reads `pos`, then a one, then `level` zeros. -/
theorem testBit_index_add_one (n : Node) (i : Nat) :
    (n.index + 1).testBit i =
      (decide (i = n.level) || decide (n.level < i) && n.pos.testBit (i - (n.level + 1))) := by
  have hlt : 2 ^ n.level < 2 ^ (n.level + 1) :=
    Nat.pow_lt_pow_right (by decide) (Nat.lt_succ_self n.level)
  rw [index_add_one, Nat.mul_comm, Nat.testBit_two_pow_mul_add _ hlt, Nat.testBit_two_pow]
  rcases Nat.lt_trichotomy i n.level with hi | rfl | hi
  · simp [show i < n.level + 1 by omega, show n.level ≠ i by omega, show i ≠ n.level by omega,
      show ¬ n.level < i by omega]
  · simp
  · simp [hi, show ¬ i < n.level + 1 by omega, show i ≠ n.level by omega]

/-- A node whose index and successor fit in `w` bits sits below level `w`. -/
theorem level_lt {n : Node} {w : Nat} (h : n.index + 1 < 2 ^ w) : n.level < w := by
  by_contra hw
  have hbit := testBit_index_add_one n n.level
  rw [Bits.testBit_eq_false_of_lt_two_pow h (by omega)] at hbit
  simp at hbit

/-- A node whose index fits in `w` bits has fewer than `2^(w - level - 1)` nodes to its left. -/
theorem pos_lt {n : Node} {w : Nat} (h : n.index < 2 ^ w) :
    n.pos < 2 ^ (w - (n.level + 1)) := by
  apply Nat.lt_pow_two_of_testBit
  intro j hj
  -- bit `j` of `pos` is bit `j + level + 1` of the index, beyond its width
  have hbit := testBit_index n (j + n.level + 1)
  rw [Bits.testBit_eq_false_of_lt_two_pow h (by omega)] at hbit
  simpa [show ¬ j + n.level + 1 < n.level by omega, show n.level < j + n.level + 1 by omega,
    show j + n.level + 1 - (n.level + 1) = j by omega] using hbit.symm

/-- The leaves below a node whose index and successor fit in `w` bits fit too: the subtree ends
before `2^w`. -/
theorem add_one_mul_two_pow_le {n : Node} {w : Nat} (h : n.index + 1 < 2 ^ w) :
    (n.pos + 1) * 2 ^ (n.level + 1) ≤ 2 ^ w := by
  have hl := level_lt h
  calc (n.pos + 1) * 2 ^ (n.level + 1) ≤ 2 ^ (w - (n.level + 1)) * 2 ^ (n.level + 1) :=
        Nat.mul_le_mul_right _ (pos_lt (by omega))
    _ = 2 ^ w := by rw [← Nat.pow_add]; congr 1; omega

/-- The node at an in-order index: an even index is a leaf, and an odd one sits a level above
the node at half of it. -/
def ofIndex (x : Nat) : Node :=
  if h : x % 2 = 0 then leaf (x / 2)
  else
    let m := ofIndex (x / 2)
    ⟨m.level + 1, m.pos⟩
termination_by x
decreasing_by omega

theorem index_ofIndex (x : Nat) : (ofIndex x).index = x := by
  induction x using Nat.strongRecOn with
  | ind x ih =>
    rw [ofIndex]
    split
    · simp only [leaf_eq, index_eq]
      omega
    · have hm := ih (x / 2) (by omega)
      -- one more level doubles the half and sets the new lowest bit
      have h₁ := Nat.one_le_two_pow (n := (ofIndex (x / 2)).level)
      have e₁ : (ofIndex (x / 2)).pos * 2 ^ ((ofIndex (x / 2)).level + 1 + 1) =
          2 * ((ofIndex (x / 2)).pos * 2 ^ ((ofIndex (x / 2)).level + 1)) := by ring
      have e₂ : 2 ^ ((ofIndex (x / 2)).level + 1) = 2 * 2 ^ (ofIndex (x / 2)).level := pow_succ' _ _
      simp only [index_eq] at hm ⊢
      rw [e₁]
      omega

/-- Every natural number is the in-order index of a node. -/
theorem exists_index (x : Nat) : ∃ n : Node, n.index = x := ⟨ofIndex x, index_ofIndex x⟩

/-! ### Where the neighbours of a node sit -/

theorem index_leftChild {n : Node} (h : 0 < n.level) :
    n.leftChild.index + 2 ^ (n.level - 1) = n.index := by
  obtain ⟨l, pos⟩ := n
  obtain ⟨l, rfl⟩ : ∃ l', l = l' + 1 := ⟨l - 1, by simp only at h; omega⟩
  have hY := Nat.one_le_two_pow (n := l)
  have e₁ : 2 * pos * 2 ^ (l + 1) = pos * 2 ^ (l + 1 + 1) := by ring
  have e₂ : 2 ^ (l + 1) = 2 * 2 ^ l := pow_succ' 2 l
  simp only [leftChild_eq, index_eq, Nat.add_sub_cancel, e₁]
  omega

theorem index_rightChild {n : Node} (h : 0 < n.level) :
    n.rightChild.index = n.index + 2 ^ (n.level - 1) := by
  obtain ⟨l, pos⟩ := n
  obtain ⟨l, rfl⟩ : ∃ l', l = l' + 1 := ⟨l - 1, by simp only at h; omega⟩
  have hY := Nat.one_le_two_pow (n := l)
  have e₁ : (2 * pos + 1) * 2 ^ (l + 1) = pos * 2 ^ (l + 1 + 1) + 2 ^ (l + 1) := by ring
  have e₂ : 2 ^ (l + 1) = 2 * 2 ^ l := pow_succ' 2 l
  simp only [rightChild_eq, index_eq, Nat.add_sub_cancel, e₁]
  omega

/-- An index whose low `k` bits are all ones is at level `k` or above. -/
theorem le_level_of_index_eq {n : Node} {k : Nat} (h : n.index = 2 ^ k - 1) : k ≤ n.level := by
  -- bit `level` of an index is clear
  have hbit := testBit_index n n.level
  rw [h, Nat.testBit_two_pow_sub_one] at hbit
  simpa using hbit

/-- Below the top level of `w` bits, the parent of a node that fits fits too, with the parent's
right subtree to spare. -/
theorem index_parent_add_le {n : Node} {w : Nat} (h : n.index + 1 < 2 ^ w)
    (hl : n.level + 1 < w) : n.parent.index + 1 + 2 ^ (n.level + 1) ≤ 2 ^ w := by
  have hpos := pos_lt (by omega : n.index < 2 ^ w)
  have hsplit : 2 ^ (w - (n.level + 1)) = 2 * 2 ^ (w - (n.level + 1 + 1)) := by
    rw [← pow_succ']
    congr 1
    omega
  have hq : n.pos / 2 + 1 ≤ 2 ^ (w - (n.level + 1 + 1)) := by omega
  have hmul := Nat.mul_le_mul_right (2 ^ (n.level + 1 + 1)) hq
  rw [← Nat.pow_add, show w - (n.level + 1 + 1) + (n.level + 1 + 1) = w by omega] at hmul
  have e₁ : (n.pos / 2 + 1) * 2 ^ (n.level + 1 + 1) =
      n.pos / 2 * 2 ^ (n.level + 1 + 1) + 2 * 2 ^ (n.level + 1) := by ring
  have hY := Nat.one_le_two_pow (n := n.level + 1)
  simp only [parent_eq, index_eq]
  omega

/-- The last turn decides which child of its parent a node is. -/
theorem index_parent_leftChild_eq_iff (n : Node) :
    n.parent.leftChild.index = n.index ↔ n.pos % 2 = 0 := by
  obtain ⟨l, pos⟩ := n
  simp only [parent_eq, leftChild_eq, index_eq, Nat.add_sub_cancel, Nat.add_right_cancel_iff]
  rw [Nat.mul_left_inj (Nat.two_pow_pos _).ne']
  omega

/-- A left child's sibling is the next node of its level. -/
theorem index_sibling_of_even {n : Node} (he : n.pos % 2 = 0) :
    n.sibling.index = n.index + 2 ^ (n.level + 1) := by
  have e : (n.pos + 1) * 2 ^ (n.level + 1) = n.pos * 2 ^ (n.level + 1) + 2 ^ (n.level + 1) := by
    ring
  simp only [sibling_eq, index_eq, Nat.xor_one_of_even (Nat.even_iff.mpr he), e]
  omega

/-- A right child's sibling is the previous node of its level. -/
theorem index_sibling_of_odd {n : Node} (ho : n.pos % 2 = 1) :
    n.sibling.index + 2 ^ (n.level + 1) = n.index := by
  obtain ⟨l, pos⟩ := n
  obtain ⟨q, rfl⟩ : ∃ q, pos = q + 1 := ⟨pos - 1, by simp only at ho; omega⟩
  have e : (q + 1) * 2 ^ (l + 1) = q * 2 ^ (l + 1) + 2 ^ (l + 1) := by ring
  simp only [sibling_eq, index_eq, Nat.xor_one_of_odd (Nat.odd_iff.mpr ho), Nat.add_sub_cancel, e]
  omega

/-- The in-order index carries the node's position above its level's ones and zero. -/
theorem index_div_two_pow (n : Node) : n.index / 2 ^ (n.level + 1) = n.pos := by
  have hlow : 2 ^ n.level - 1 < 2 ^ (n.level + 1) := by
    rw [pow_succ]; have := Nat.one_le_two_pow (n := n.level); omega
  rw [index_eq, Nat.add_comm, Nat.add_mul_div_right _ _ (Nat.two_pow_pos _), Nat.div_eq_of_lt hlow,
    Nat.zero_add]

/-- The leaves below a node that fits in `w` bits fit too. -/
theorem pos_mul_two_pow_add_le {n : Node} {w : Nat} (h : n.index + 1 < 2 ^ w) :
    n.pos * 2 ^ n.level + 2 ^ n.level ≤ 2 ^ w := by
  have hfit := add_one_mul_two_pow_le h
  have e : (n.pos + 1) * 2 ^ (n.level + 1) = 2 * (n.pos * 2 ^ n.level + 2 ^ n.level) := by ring
  omega

/-- A node that fits in `w` bits leaves room for its right subtree. -/
theorem index_add_two_pow_le {n : Node} {w : Nat} (h : n.index + 1 < 2 ^ w) :
    n.index + 1 + 2 ^ n.level ≤ 2 ^ w := by
  have hfit := add_one_mul_two_pow_le h
  have e : (n.pos + 1) * 2 ^ (n.level + 1) = n.pos * 2 ^ (n.level + 1) + 2 * 2 ^ n.level := by
    ring
  rw [index_add_one]
  omega

/-- The right child of a node that fits in `w` bits fits, `2^(level - 1)` short of the end of
the node's span. -/
theorem index_rightChild_add_le {n : Node} {w : Nat} (h : n.index + 1 < 2 ^ w) (hl : 0 < n.level) :
    n.rightChild.index + 1 + 2 ^ (n.level - 1) ≤ 2 ^ w := by
  have hroom := index_add_two_pow_le h
  have hpow : 2 ^ n.level = 2 * 2 ^ (n.level - 1) := by
    rw [← pow_succ']
    congr 1
    omega
  rw [index_rightChild hl]
  omega

/-! ### Post-order -/

theorem popcount_le (v : Nat) : popcount v ≤ v := by
  have := Bits.countOnes_le_mod v v
  rwa [Nat.mod_eq_of_lt Nat.lt_two_pow_self] at this

/-- A subtree's root is visited before the nodes right of the subtree, so the post-order index
stays below the end of the subtree's span of in-order indices. -/
theorem postorder_add_two_le (n : Node) : n.postorder + 2 ≤ (n.pos + 1) * 2 ^ (n.level + 1) := by
  have hX : 2 ≤ 2 ^ (n.level + 1) := by
    rw [pow_succ]; have := Nat.one_le_two_pow (n := n.level); omega
  have e : (n.pos + 1) * 2 ^ (n.level + 1) = n.pos * 2 ^ (n.level + 1) + 2 ^ (n.level + 1) := by
    ring
  simp only [postorder_eq]
  omega

/-- The right child is visited just before its parent. -/
theorem postorder_rightChild {n : Node} (h : 0 < n.level) :
    n.rightChild.postorder + 1 = n.postorder := by
  obtain ⟨l, pos⟩ := n
  obtain ⟨l, rfl⟩ : ∃ l', l = l' + 1 := ⟨l - 1, by simp only at h; omega⟩
  have hX : 2 ≤ 2 ^ (l + 1) := by rw [pow_succ]; have := Nat.one_le_two_pow (n := l); omega
  have hpc := popcount_le pos
  have hP : pos ≤ pos * 2 ^ (l + 1) := Nat.le_mul_of_pos_right _ (Nat.two_pow_pos _)
  have e₁ : (2 * pos + 1) * 2 ^ (l + 1) = 2 * (pos * 2 ^ (l + 1)) + 2 ^ (l + 1) := by ring
  have e₂ : pos * 2 ^ (l + 1 + 1) = 2 * (pos * 2 ^ (l + 1)) := by ring
  have e₃ : 2 ^ (l + 1 + 1) = 2 * 2 ^ (l + 1) := by ring
  simp only [rightChild_eq, postorder_eq, Nat.add_sub_cancel, popcount_two_mul_add_one]
  rw [e₁, e₂, e₃]
  omega

/-- The left child is visited before the `2^level - 1` nodes of the right subtree and the
parent. -/
theorem postorder_leftChild {n : Node} (h : 0 < n.level) :
    n.leftChild.postorder + 2 ^ n.level = n.postorder := by
  obtain ⟨l, pos⟩ := n
  obtain ⟨l, rfl⟩ : ∃ l', l = l' + 1 := ⟨l - 1, by simp only at h; omega⟩
  have hX : 2 ≤ 2 ^ (l + 1) := by rw [pow_succ]; have := Nat.one_le_two_pow (n := l); omega
  have hpc := popcount_le pos
  have hP : pos ≤ pos * 2 ^ (l + 1) := Nat.le_mul_of_pos_right _ (Nat.two_pow_pos _)
  have e₁ : 2 * pos * 2 ^ (l + 1) = 2 * (pos * 2 ^ (l + 1)) := by ring
  have e₂ : pos * 2 ^ (l + 1 + 1) = 2 * (pos * 2 ^ (l + 1)) := by ring
  have e₃ : 2 ^ (l + 1 + 1) = 2 * 2 ^ (l + 1) := by ring
  simp only [leftChild_eq, postorder_eq, Nat.add_sub_cancel, popcount_two_mul]
  rw [e₁, e₂, e₃]
  omega

/-- The leaves under a node, by leaf index. -/
def leaves (n : Node) : List Nat := List.range' (n.pos * 2 ^ n.level) (2 ^ n.level)

end Node

/-! ### Frozen subtrees

A tree of `c` leaves, grown leaf by leaf from the left, is covered by complete subtrees, one for
each one bit `i` of `c`: the subtree of `2^i` leaves that ends where the bits of `c` from `i` up
end.  Appending a complete subtree whose size divides `c` is adding a power of two to `c`: each
carry merges the two smallest subtrees into their parent (`pushMerge_frozenStack`).
-/

/-- The frozen subtrees of a tree of `c` leaves on levels `j, …, j + w - 1`, the smallest first. -/
def frozenStack : Nat → Nat → Nat → List Node
  | 0, _, _ => []
  | w + 1, j, c =>
    if c.testBit j then ⟨j, c / 2 ^ j - 1⟩ :: frozenStack w (j + 1) c else frozenStack w (j + 1) c

theorem frozenStack_zero (j c : Nat) : frozenStack 0 j c = [] := rfl

theorem frozenStack_succ (w j c : Nat) :
    frozenStack (w + 1) j c =
      if c.testBit j then ⟨j, c / 2 ^ j - 1⟩ :: frozenStack w (j + 1) c
      else frozenStack w (j + 1) c := rfl

/-- The frozen subtrees of a tree of `c < 2^64` leaves, the largest and leftmost first. -/
def frozenSubtrees (c : Nat) : List Node := (frozenStack 64 0 c).reverse

theorem frozenSubtrees_eq (c : Nat) : frozenSubtrees c = (frozenStack 64 0 c).reverse := rfl

/-- Appending a complete subtree `t` to frozen subtrees kept smallest first: while the smallest
frozen subtree has `t`'s size, the two merge into their parent. -/
def pushMerge : List Node → Node → List Node
  | [], t => [t]
  | s :: rest, t => if s.level = t.level then pushMerge rest s.parent else t :: s :: rest

/-- The frozen subtrees from level `j` up only read the leaf count from bit `j` up. -/
theorem frozenStack_congr {c c' : Nat} (w j : Nat) (h : c / 2 ^ j = c' / 2 ^ j) :
    frozenStack w j c = frozenStack w j c' := by
  induction w generalizing j with
  | zero => rfl
  | succ w ih =>
    have hbit : c.testBit j = c'.testBit j := by
      rw [Nat.testBit_eq_decide_div_mod_eq, Nat.testBit_eq_decide_div_mod_eq, h]
    have hnext : c / 2 ^ (j + 1) = c' / 2 ^ (j + 1) := by
      rw [Nat.pow_succ, ← Nat.div_div_eq_div_mul, ← Nat.div_div_eq_div_mul, h]
    rw [frozenStack_succ, frozenStack_succ, hbit, h, ih (j + 1) hnext]

theorem le_level_of_mem_frozenStack {w j c : Nat} {t : Node} (h : t ∈ frozenStack w j c) :
    j ≤ t.level := by
  induction w generalizing j with
  | zero => simp [frozenStack_zero] at h
  | succ w ih =>
    rw [frozenStack_succ] at h
    split at h
    · rcases List.mem_cons.mp h with rfl | h
      · exact Nat.le_refl _
      · exact Nat.le_of_succ_le (ih h)
    · exact Nat.le_of_succ_le (ih h)

/-- A frozen subtree at level `l` ends where the leaf count, cleared below bit `l`, does. -/
theorem pos_of_mem_frozenStack {w j c : Nat} {t : Node} (h : t ∈ frozenStack w j c) :
    t.pos = c / 2 ^ t.level - 1 := by
  induction w generalizing j with
  | zero => simp [frozenStack_zero] at h
  | succ w ih =>
    rw [frozenStack_succ] at h
    split at h
    · rcases List.mem_cons.mp h with rfl | h
      · rfl
      · exact ih h
    · exact ih h

/-- The frozen stack holds one subtree per one bit of the leaf count, at that bit's level, in the
order of the bits. -/
theorem map_level_frozenStack (w j c : Nat) :
    (frozenStack w j c).map Node.level = (List.range' j w).filter (c.testBit ·) := by
  induction w generalizing j with
  | zero => rfl
  | succ w ih =>
    rw [frozenStack_succ, List.range'_succ, List.filter_cons]
    by_cases hj : c.testBit j
    · rw [if_pos hj, if_pos hj, List.map_cons, ih]
    · rw [if_neg hj, if_neg hj, ih]

/-- The frozen subtrees skip the clear bits at the bottom. -/
theorem frozenStack_skip {c : Nat} (w k j : Nat) (h : ∀ i, j ≤ i → i < j + k → c.testBit i = false) :
    frozenStack (w + k) j c = frozenStack w (j + k) c := by
  induction k generalizing j with
  | zero => rfl
  | succ k ih =>
    have hj : c.testBit j = false := h j (Nat.le_refl _) (by omega)
    rw [show w + (k + 1) = (w + k) + 1 by omega, frozenStack_succ, hj, if_neg Bool.false_ne_true,
      ih (j + 1) fun i hi hik => h i (by omega) (by omega), show j + 1 + k = j + (k + 1) by omega]

/-- A clear bit at the top adds no frozen subtree. -/
theorem frozenStack_succ_top (w j c : Nat) :
    frozenStack (w + 1) j c =
      frozenStack w j c ++ if c.testBit (j + w) then [⟨j + w, c / 2 ^ (j + w) - 1⟩] else [] := by
  induction w generalizing j with
  | zero => simp [frozenStack_succ, frozenStack_zero]
  | succ w ih =>
    rw [frozenStack_succ, ih (j + 1), frozenStack_succ, show j + 1 + w = j + (w + 1) by omega]
    split <;> simp

/-- The frozen subtrees stop at the highest one bit. -/
theorem frozenStack_trunc {c : Nat} (j w' d : Nat)
    (h : ∀ i, w' ≤ i → i < w' + d → c.testBit (j + i) = false) :
    frozenStack (w' + d) j c = frozenStack w' j c := by
  induction d with
  | zero => rfl
  | succ d ih =>
    have htop : c.testBit (j + (w' + d)) = false := h (w' + d) (by omega) (by omega)
    rw [← Nat.add_assoc, frozenStack_succ_top, htop, if_neg Bool.false_ne_true, List.append_nil,
      ih fun i hi hid => h i hi (by omega)]

private theorem mul_two_pow_div_two_pow_succ (q k : Nat) : q * 2 ^ k / 2 ^ (k + 1) = q / 2 := by
  rw [Nat.pow_succ, Nat.mul_comm (2 ^ k) 2, ← Nat.mul_div_mul_right q 2 (Nat.two_pow_pos k)]

private theorem testBit_mul_two_pow_self (q k : Nat) : (q * 2 ^ k).testBit k = q.testBit 0 := by
  rw [Nat.testBit_mul_two_pow, decide_eq_true (Nat.le_refl k), Bool.true_and, Nat.sub_self]

/-- Appending a complete subtree of `2^k` leaves to a tree of `q * 2^k` leaves is the binary
addition of `2^k`: each carry merges the smallest frozen subtree with the new one. -/
theorem pushMerge_frozenStack (w k q : Nat) (hq : q + 1 < 2 ^ w) :
    pushMerge (frozenStack w k (q * 2 ^ k)) ⟨k, q⟩ = frozenStack w k ((q + 1) * 2 ^ k) := by
  induction w generalizing k q with
  | zero =>
    simp only [Nat.pow_zero] at hq
    omega
  | succ w ih =>
    rcases Nat.mod_two_eq_zero_or_one q with heven | hodd
    · -- no carry: the new subtree is the smallest
      have hclear : (q * 2 ^ k).testBit k = false := by
        rw [testBit_mul_two_pow_self, Nat.testBit_zero]
        simp [heven]
      have hset : ((q + 1) * 2 ^ k).testBit k = true := by
        rw [testBit_mul_two_pow_self, Nat.testBit_zero]
        simp only [decide_eq_true_eq]
        omega
      have hsame : frozenStack w (k + 1) ((q + 1) * 2 ^ k) = frozenStack w (k + 1) (q * 2 ^ k) :=
        frozenStack_congr w (k + 1) (by
          rw [mul_two_pow_div_two_pow_succ, mul_two_pow_div_two_pow_succ]
          omega)
      rw [frozenStack_succ, hclear, if_neg Bool.false_ne_true, frozenStack_succ, if_pos hset, hsame,
        Nat.mul_div_cancel _ (Nat.two_pow_pos k), Nat.add_sub_cancel]
      -- the smallest frozen subtree left is above level `k`
      cases hs : frozenStack w (k + 1) (q * 2 ^ k) with
      | nil => rfl
      | cons s rest =>
        have hlevel := le_level_of_mem_frozenStack (hs ▸ List.mem_cons_self : s ∈ _)
        rw [pushMerge, if_neg (by simp only; omega)]
    · -- a carry: the smallest frozen subtree, at level `k`, merges with the new one
      have hset : (q * 2 ^ k).testBit k = true := by
        rw [testBit_mul_two_pow_self, Nat.testBit_zero]
        simp [hodd]
      have hmerge : (q * 2 ^ k) / 2 ^ k - 1 = 2 * (q / 2) := by
        rw [Nat.mul_div_cancel _ (Nat.two_pow_pos k)]
        omega
      have hbelow : frozenStack w (k + 1) (q * 2 ^ k) = frozenStack w (k + 1) (q / 2 * 2 ^ (k + 1)) :=
        frozenStack_congr w (k + 1) (by
          rw [mul_two_pow_div_two_pow_succ, Nat.mul_div_cancel _ (Nat.two_pow_pos _)])
      have hafter : (q / 2 + 1) * 2 ^ (k + 1) = (q + 1) * 2 ^ k := by
        rw [Nat.pow_succ]
        have : q + 1 = 2 * (q / 2 + 1) := by omega
        rw [this]
        ring
      have hclear : ((q + 1) * 2 ^ k).testBit k = false := by
        rw [testBit_mul_two_pow_self, Nat.testBit_zero]
        simp only [decide_eq_false_iff_not]
        omega
      rw [frozenStack_succ, if_pos hset, hmerge, pushMerge, if_pos rfl, hbelow,
        show (⟨k, 2 * (q / 2)⟩ : Node).parent = ⟨k + 1, q / 2⟩ by simp [Node.parent_eq],
        ih (k + 1) (q / 2) (by rw [Nat.pow_succ] at hq; omega), hafter, frozenStack_succ, hclear,
        if_neg Bool.false_ne_true]

/-- Appending a complete subtree of `2^k` leaves to frozen subtrees of `q * 2^k` leaves gives
the frozen subtrees of `(q + 1) * 2^k` leaves. -/
theorem pushMerge_frozen (k q : Nat) (hq : (q + 1) * 2 ^ k < 2 ^ 64) :
    pushMerge (frozenSubtrees (q * 2 ^ k)).reverse ⟨k, q⟩ = (frozenSubtrees ((q + 1) * 2 ^ k)).reverse := by
  have hk : k < 64 := by
    have : 2 ^ k < 2 ^ 64 := Nat.lt_of_le_of_lt (Nat.le_mul_of_pos_left _ (Nat.succ_pos q)) hq
    exact (Nat.pow_lt_pow_iff_right (by decide)).mp this
  -- below bit `k` both leaf counts are clear
  have hlow : ∀ r, ∀ i, 0 ≤ i → i < 0 + k → (r * 2 ^ k).testBit i = false := fun r i _ hi => by
    rw [Nat.testBit_mul_two_pow, decide_eq_false (by omega), Bool.false_and]
  have hq' : q + 1 < 2 ^ (64 - k) := by
    rw [← Nat.mul_lt_mul_right (Nat.two_pow_pos k), ← Nat.pow_add, Nat.sub_add_cancel hk.le]
    exact hq
  simp only [frozenSubtrees_eq, List.reverse_reverse]
  rw [show 64 = (64 - k) + k by omega, frozenStack_skip _ _ _ (hlow q), frozenStack_skip _ _ _ (hlow (q + 1)),
    Nat.zero_add, pushMerge_frozenStack _ _ _ hq']

/-- Below `2^w` leaves, the frozen stack of the low `w` bits is the whole one. -/
theorem frozenSubtrees_of_lt {c w : Nat} (hw : w ≤ 64) (hc : c < 2 ^ w) :
    frozenSubtrees c = (frozenStack w 0 c).reverse := by
  have hhigh := frozenStack_trunc (c := c) 0 w (64 - w) fun i hi _ => by
    rw [Nat.zero_add]
    exact Nat.testBit_eq_false_of_lt (Nat.lt_of_lt_of_le hc (Nat.pow_le_pow_right (by decide) hi))
  rw [frozenSubtrees_eq, ← hhigh, Nat.add_sub_cancel' hw]

/-- A complete tree of `2^l` leaves is its own only frozen subtree. -/
theorem frozenSubtrees_two_pow {l : Nat} (hl : l < 64) : frozenSubtrees (2 ^ l) = [⟨l, 0⟩] := by
  -- no bit of `2^l` below `l`
  have hlow := frozenStack_trunc (c := 2 ^ l) 0 0 l fun i _ hi => by
    rw [Nat.zero_add, Nat.testBit_two_pow]
    exact decide_eq_false (by omega)
  rw [Nat.zero_add] at hlow
  rw [frozenSubtrees_of_lt (w := l + 1) (by omega) (Nat.pow_lt_pow_succ (by decide)),
    frozenStack_succ_top, hlow, Nat.zero_add, Nat.testBit_two_pow_self, if_pos rfl,
    Nat.div_self (Nat.two_pow_pos l)]
  rfl

/-- The frozen subtrees of `c` leaves: one per one bit of `c`, the highest first. -/
theorem map_level_frozenSubtrees (c : Nat) :
    (frozenSubtrees c).map Node.level = ((List.range 64).filter (c.testBit ·)).reverse := by
  rw [frozenSubtrees_eq, List.map_reverse, map_level_frozenStack, List.range_eq_range']

theorem pos_of_mem_frozenSubtrees {c : Nat} {t : Node} (h : t ∈ frozenSubtrees c) :
    t.pos = c / 2 ^ t.level - 1 :=
  pos_of_mem_frozenStack (List.mem_reverse.mp h)

/-- No leaves, no frozen subtrees. -/
theorem frozenStack_zero_right (w j : Nat) : frozenStack w j 0 = [] := by
  induction w generalizing j with
  | zero => rfl
  | succ w ih => simp [frozenStack_succ, ih]

/-- One frozen subtree per one bit of the leaf count. -/
theorem length_frozenSubtrees (c : Nat) : (frozenSubtrees c).length = Bits.countOnes 64 c := by
  rw [← List.length_map (f := Node.level), map_level_frozenSubtrees, List.length_reverse,
    Bits.countOnes_eq_count, List.count, List.countP_map, List.countP_eq_length_filter]
  simp only [Function.comp_def, beq_true]

theorem testBit_of_mem_frozenSubtrees {c : Nat} {t : Node} (h : t ∈ frozenSubtrees c) :
    c.testBit t.level = true := by
  have hmem : t.level ∈ (frozenSubtrees c).map Node.level := List.mem_map_of_mem h
  rw [map_level_frozenSubtrees, List.mem_reverse, List.mem_filter] at hmem
  exact hmem.2

/-- The leaves under a frozen subtree of `c` leaves are among the first `c`. -/
theorem add_one_mul_two_pow_le_of_mem_frozenSubtrees {c : Nat} {t : Node}
    (h : t ∈ frozenSubtrees c) : (t.pos + 1) * 2 ^ t.level ≤ c := by
  have hbit := testBit_of_mem_frozenSubtrees h
  rw [Nat.testBit_eq_decide_div_mod_eq, decide_eq_true_eq] at hbit
  have hpos : 0 < c / 2 ^ t.level := Nat.pos_of_ne_zero fun h0 => by simp [h0] at hbit
  rw [pos_of_mem_frozenSubtrees h, Nat.sub_add_cancel hpos]
  exact Nat.div_mul_le_self c _

/-- The low bits of a number whose bits below `t` are set and whose bit `t` is clear. -/
private theorem mod_two_pow_succ_of_trailingOnes {n t : Nat} (hones : ∀ i < t, n.testBit i = true)
    (hzero : n.testBit t = false) : n % 2 ^ (t + 1) = 2 ^ t - 1 := by
  apply Nat.eq_of_testBit_eq
  intro i
  rw [Nat.testBit_mod_two_pow, Nat.testBit_two_pow_sub_one]
  rcases Nat.lt_trichotomy i t with h | rfl | h
  · simp [h, hones i h, show i < t + 1 by omega]
  · simp [hzero]
  · simp [show ¬ i < t + 1 by omega, show ¬ i < t by omega]

/-- Adding one leaf to a count with `t` trailing ones: the frozen subtrees below level `t` and the
new leaf make one frozen subtree at level `t`, the one ending at the new leaf, and those above
stay. -/
theorem frozenStack_succ_of_trailingOnes {n t : Nat} (ht : t < 64)
    (hones : ∀ i < t, n.testBit i = true) (hzero : n.testBit t = false) :
    frozenStack 64 0 (n + 1) = ⟨t, n / 2 ^ t⟩ :: frozenStack (63 - t) (t + 1) n ∧
      frozenStack (64 - t) t n = frozenStack (63 - t) (t + 1) n := by
  -- `n = 2^(t+1) q + 2^t - 1`: the leaf count after the new leaf is `2^t (2q + 1)`
  have hmod := mod_two_pow_succ_of_trailingOnes hones hzero
  have hpos : 0 < 2 ^ t := Nat.two_pow_pos t
  set q := n / 2 ^ (t + 1) with hq
  have hsplit : n = 2 ^ t * (2 * q) + (2 ^ t - 1) := by
    have h1 : 2 ^ (t + 1) * q + n % 2 ^ (t + 1) = n := Nat.div_add_mod n _
    rw [hmod, Nat.pow_succ'] at h1
    rw [← Nat.mul_assoc, Nat.mul_comm (2 ^ t) 2]
    exact h1.symm
  have hdiv : n / 2 ^ t = 2 * q := by
    rw [hsplit, Nat.add_comm, Nat.add_mul_div_left _ _ hpos, Nat.div_eq_of_lt (by omega), Nat.zero_add]
  have hsucc : n + 1 = 2 ^ t * (2 * q + 1) := by rw [Nat.mul_add, Nat.mul_one]; omega
  have hdiv' : (n + 1) / 2 ^ t = 2 * q + 1 := by rw [hsucc, Nat.mul_div_cancel_left _ hpos]
  have hbits : ∀ i, 0 ≤ i → i < 0 + t → (n + 1).testBit i = false := fun i _ hi => by
    rw [hsucc, Nat.mul_comm, Nat.testBit_mul_two_pow, decide_eq_false (by omega), Bool.false_and]
  have hset : (n + 1).testBit t = true := by
    rw [Nat.testBit_eq_decide_div_mod_eq, hdiv']
    simp
  have hhigh : (n + 1) / 2 ^ (t + 1) = n / 2 ^ (t + 1) := by
    rw [← hq, Nat.pow_succ, ← Nat.div_div_eq_div_mul, hdiv']
    omega
  constructor
  · rw [show 64 = (63 - t + 1) + t by omega, frozenStack_skip _ _ _ hbits, Nat.zero_add, frozenStack_succ,
      if_pos hset, hdiv', Nat.add_sub_cancel, ← hdiv, frozenStack_congr _ _ hhigh]
  · rw [show 64 - t = 63 - t + 1 by omega, frozenStack_succ, hzero, if_neg Bool.false_ne_true]

end InorderTree
