import CreditChain.Proof.Position
import Mathlib.Data.Fintype.EquivFin

/-!
# Post-order indices of positions

`inorder_to_postorder` and `postorder_to_inorder` of `position/mod.rs`.

On the index of a node, `inorder_to_postorder` computes the node's post-order index
(`inorderToPostorder_ofNode`), except at the root of the whole 64-bit tree, level 63, where
`children_of_node` shifts its zero bit out of the word and computes `0 - 2`.

`postorder_to_inorder` undoes it on every node (`postorderToInorder_postorder`).  Its loop peels off,
from the top bit down, the sizes `2^(i+1) - 1` of full subtrees; the bits it sets spell
`B = (pos + 1) * 2^level - 1` and what is left is the level.  The loop keeps `LoopInv`: the part of
the post-order index not yet peeled off is `2 (B mod 2^i) + level - count_ones(B mod 2^i)`.
-/

namespace CreditChain

open InorderTree (Node)

/-- Setting bit `i` of a multiple of `2^(i+1)` adds `2^i`. -/
private theorem sub_mod_or_two_pow {B i : Nat} (hb : B / 2 ^ i % 2 = 1) :
    (B - B % 2 ^ (i + 1)) ||| 2 ^ i = B - B % 2 ^ i := by
  have hsplit : B % 2 ^ (i + 1) = B % 2 ^ i + 2 ^ i * (B / 2 ^ i % 2) := Nat.mod_pow_succ
  rw [hb, Nat.mul_one] at hsplit
  have hdm := Nat.div_add_mod B (2 ^ (i + 1))
  have hor : 2 ^ (i + 1) * (B / 2 ^ (i + 1)) ||| 2 ^ i = 2 ^ (i + 1) * (B / 2 ^ (i + 1)) + 2 ^ i :=
    (Nat.two_pow_add_eq_or_of_lt (Nat.pow_lt_pow_right (by decide) (Nat.lt_succ_self i)) _).symm
  have hmul : B - B % 2 ^ (i + 1) = 2 ^ (i + 1) * (B / 2 ^ (i + 1)) := by omega
  rw [hmul, hor]
  omega

/-! ### The loop of `postorder_to_inorder` -/

/-- The loop's state before it looks at bit `i - 1`, for a bit pattern `B` and a level `l`: the node
left to place, the size `2^i - 1` of a full tree of height `i`, and the bits of `B` from `i` up. -/
structure LoopInv (B l i : Nat) (s : UInt64 × UInt64 × UInt64) : Prop where
  node : s.1.toNat + Bits.countOnes i B = 2 * (B % 2 ^ i) + l
  fullBinarySize : s.2.1.toNat = 2 ^ i - 1
  bitmap : s.2.2.toNat = B - B % 2 ^ i

section Loop

variable {B l : Nat} (hlow : ∀ j < l, B.testBit j = true)
include hlow

/-- One turn of the loop: bit `i` of `B` is set exactly when the node left is at least a full tree
of height `i + 1`, which is then peeled off. -/
theorem loopInv_step {i : Nat} (hi : i < 64) {s : UInt64 × UInt64 × UInt64}
    (hinv : LoopInv B l (i + 1) s) :
    ∃ s', postorderToInorderLoop (i + 1) s = postorderToInorderLoop i s' ∧ LoopInv B l i s' := by
  obtain ⟨node, fbs, bitmap⟩ := s
  obtain ⟨hnode, hfbs, hbitmap⟩ := hinv
  have hsplit : B % 2 ^ (i + 1) = B % 2 ^ i + 2 ^ i * (B / 2 ^ i % 2) := Nat.mod_pow_succ
  have hcount := Bits.countOnes_succ i B
  have hc := Bits.countOnes_le_mod i B
  have hpow : 2 ^ (i + 1) = 2 * 2 ^ i := Nat.pow_succ'
  have hY := Nat.one_le_two_pow (n := i)
  have hhalf : (fbs >>> 1).toNat = 2 ^ i - 1 := by
    rw [UInt64.toNat_shiftRight, hfbs]
    simp only [UInt64.toNat_one, Nat.one_mod, Nat.shiftRight_one]
    omega
  simp only at hnode hfbs hbitmap
  rcases Nat.mod_two_eq_zero_or_one (B / 2 ^ i) with hb | hb
  · -- bit `i` clear: the node left is smaller than a full tree of height `i + 1`
    rw [hb, Nat.mul_zero, Nat.add_zero] at hsplit
    rw [hb, Nat.add_zero] at hcount
    have hli : l ≤ i := by
      by_contra hil
      have := hlow i (by omega)
      rw [Nat.testBit_eq_decide_div_mod_eq, hb] at this
      simp at this
    have hbound := Bits.two_mul_mod_add_le i B
    have hlt : ¬ fbs ≤ node := by
      rw [UInt64.le_iff_toNat_le]
      omega
    refine ⟨(node, fbs >>> 1, bitmap), by rw [postorderToInorderLoop_succ, if_neg hlt], ?_, hhalf, ?_⟩
    · simp only
      omega
    · simp only
      omega
  · -- bit `i` set: a full tree of height `i + 1` is peeled off and bit `i` recorded
    rw [hb, Nat.mul_one] at hsplit
    rw [hb] at hcount
    have hge : fbs ≤ node := by
      rw [UInt64.le_iff_toNat_le]
      omega
    have hone := Word.toNat_one_shiftLeft hi
    refine ⟨(node - fbs, fbs >>> 1, bitmap ||| (1 : UInt64) <<< i.toUInt64),
      by rw [postorderToInorderLoop_succ, if_pos hge], ?_, hhalf, ?_⟩
    · simp only
      rw [UInt64.toNat_sub_of_le _ _ hge]
      omega
    · simp only
      rw [UInt64.toNat_or, hone, hbitmap, sub_mod_or_two_pow hb]

/-- The whole loop: from the invariant at height `i`, it ends with the level left and `B` in the
bitmap. -/
theorem loopInv_run {i : Nat} (hi : i ≤ 64) {s : UInt64 × UInt64 × UInt64}
    (hinv : LoopInv B l i s) :
    (postorderToInorderLoop i s).1.toNat = l ∧ (postorderToInorderLoop i s).2.2.toNat = B := by
  induction i generalizing s with
  | zero =>
    obtain ⟨hnode, -, hbitmap⟩ := hinv
    simp only [postorderToInorderLoop_zero, Bits.countOnes_zero_left, Nat.pow_zero, Nat.mod_one] at hnode hbitmap ⊢
    omega
  | succ i ih =>
    obtain ⟨s', hrun, hinv'⟩ := loopInv_step hlow (by omega) hinv
    rw [hrun]
    exact ih (by omega) hinv'

end Loop

/-! ### Both conversions on a node -/

section Node

variable {n : Node} (h : n.index + 1 < 2 ^ 64)
include h

/-- `children_of_node` of a node's position below level 63: its `2^(level+1) - 2`
descendants. -/
theorem childrenOfNode_ofNode (hl : n.level < 63) :
    childrenOfNode (Position.ofNode n).val = some (UInt64.ofNat (2 ^ (n.level + 1) - 2)) := by
  have hY := Nat.one_le_two_pow (n := n.level)
  have hpow : 2 ^ (n.level + 1) = 2 * 2 ^ n.level := Nat.pow_succ'
  have hlt : 2 ^ (n.level + 1) < 2 ^ 64 := Nat.pow_lt_pow_right (by decide) (by omega)
  have hisoNat : (UInt64.ofNat (2 ^ n.level)).toNat = 2 ^ n.level :=
    UInt64.toNat_ofNat_of_lt' (show 2 ^ n.level < 2 ^ 64 by omega)
  have hshift : (UInt64.ofNat (2 ^ n.level) <<< 1).toNat = 2 ^ (n.level + 1) := by
    rw [UInt64.toNat_shiftLeft, hisoNat, UInt64.toNat_one, Nat.shiftLeft_eq, ← Nat.pow_add]
    exact Nat.mod_eq_of_lt hlt
  have hle : (2 : UInt64).toNat ≤ (UInt64.ofNat (2 ^ n.level) <<< 1).toNat := by
    rw [hshift]
    simp only [UInt64.reduceToNat]
    omega
  rw [childrenOfNode, Position.isolateRightmostZeroBit_ofNode h, Word.checkedSub_of_le hle,
    Option.some_inj]
  apply UInt64.toNat_inj.mp
  rw [UInt64.toNat_sub_of_le _ _ (UInt64.le_iff_toNat_le.mpr hle), hshift,
    UInt64.toNat_ofNat_of_lt' (show 2 ^ (n.level + 1) - 2 < 2 ^ 64 by omega)]
  rfl

/-- `nodes_to_left_of` of a node's position: the level's ones cleared leave
`pos * 2^(level+1)`, and less `pos`'s one bits it counts the nodes left of the subtree. -/
theorem nodesToLeftOf_ofNode :
    nodesToLeftOf (Position.ofNode n).val =
      some (UInt64.ofNat (n.pos * 2 ^ (n.level + 1) - InorderTree.popcount n.pos)) := by
  have hl := Node.level_lt h
  have hpos := Node.pos_lt (w := 64) (by omega : n.index < 2 ^ 64)
  have hv := Position.toNat_ofNode (n := n) (by omega)
  have hY := Nat.one_le_two_pow (n := n.level)
  have hpc := Node.popcount_le n.pos
  have hP : n.pos ≤ n.pos * 2 ^ (n.level + 1) := Nat.le_mul_of_pos_right _ (Nat.two_pow_pos _)
  have hisoNat : (UInt64.ofNat (2 ^ n.level)).toNat = 2 ^ n.level :=
    UInt64.toNat_ofNat_of_lt' (show 2 ^ n.level < 2 ^ 64 from Nat.pow_lt_pow_right (by decide) hl)
  have hones : Word.checkedSub (UInt64.ofNat (2 ^ n.level)) 1 =
      some (UInt64.ofNat (2 ^ n.level) - 1) :=
    Word.checkedSub_of_le (by rw [hisoNat]; simpa using hY)
  have hunset : ((Position.ofNode n).val ^^^ (UInt64.ofNat (2 ^ n.level) - 1)).toNat =
      n.pos * 2 ^ (n.level + 1) := by
    rw [UInt64.toNat_xor, UInt64.toNat_sub_of_le _ _ (by rw [UInt64.le_iff_toNat_le, hisoNat]; simpa using hY),
      hisoNat, UInt64.toNat_one, hv]
    apply Nat.eq_of_testBit_eq
    intro i
    simp only [Nat.testBit_xor, Node.testBit_index, Nat.testBit_two_pow_sub_one,
      Nat.testBit_mul_two_pow]
    rcases Nat.lt_or_ge i n.level with hil | hil
    · simp [hil, show ¬ n.level + 1 ≤ i by omega]
    · rcases Nat.eq_or_lt_of_le hil with rfl | hil
      · simp
      · simp [hil, Nat.not_lt_of_gt hil, show n.level + 1 ≤ i by omega]
  have hcount : Word.countOnes ((Position.ofNode n).val ^^^ (UInt64.ofNat (2 ^ n.level) - 1)) =
      InorderTree.popcount n.pos := by
    rw [Word.countOnes, hunset, show 64 = (n.level + 1) + (64 - (n.level + 1)) by omega,
      Bits.countOnes_mul_two_pow, InorderTree.countOnes_eq_popcount hpos]
  have hmul : n.pos * 2 ^ (n.level + 1) < 2 ^ 64 := hunset ▸ UInt64.toNat_lt _
  have hcountNat : (InorderTree.popcount n.pos).toUInt64.toNat = InorderTree.popcount n.pos := by
    simp only [Nat.toUInt64, UInt64.toNat_ofNat']
    exact Nat.mod_eq_of_lt (by omega)
  have hle : (InorderTree.popcount n.pos).toUInt64 ≤
      (Position.ofNode n).val ^^^ (UInt64.ofNat (2 ^ n.level) - 1) := by
    rw [UInt64.le_iff_toNat_le, hunset, hcountNat]
    omega
  rw [nodesToLeftOf, Position.isolateRightmostZeroBit_ofNode h, hones]
  simp only [Option.bind_eq_bind, Option.bind_some, hcount]
  rw [Word.checkedSub_of_le (UInt64.le_iff_toNat_le.mp hle), Option.some_inj]
  apply UInt64.toNat_inj.mp
  rw [UInt64.toNat_sub_of_le _ _ hle, hunset, hcountNat,
    UInt64.toNat_ofNat_of_lt' (show _ < 2 ^ 64 by omega)]

/-- Below the root of the 64-bit tree, `inorder_to_postorder` computes the node's post-order
index: the descendants and the nodes left of the subtree. -/
theorem inorderToPostorder_ofNode (hl : n.level < 63) :
    inorderToPostorder (Position.ofNode n).val = some (UInt64.ofNat n.postorder) := by
  have hfit := Node.add_one_mul_two_pow_le h
  have hpost := Node.postorder_add_two_le n
  have hpc := Node.popcount_le n.pos
  have hP : n.pos ≤ n.pos * 2 ^ (n.level + 1) := Nat.le_mul_of_pos_right _ (Nat.two_pow_pos _)
  have hX : 2 ≤ 2 ^ (n.level + 1) := by
    rw [pow_succ]; have := Nat.one_le_two_pow (n := n.level); omega
  simp only [Node.postorder_eq] at hpost ⊢
  have hchildren : (UInt64.ofNat (2 ^ (n.level + 1) - 2)).toNat = 2 ^ (n.level + 1) - 2 :=
    UInt64.toNat_ofNat_of_lt' (show _ < 2 ^ 64 by omega)
  have hleft : (UInt64.ofNat (n.pos * 2 ^ (n.level + 1) - InorderTree.popcount n.pos)).toNat =
      n.pos * 2 ^ (n.level + 1) - InorderTree.popcount n.pos :=
    UInt64.toNat_ofNat_of_lt' (show _ < 2 ^ 64 by omega)
  have hsum : (UInt64.ofNat (2 ^ (n.level + 1) - 2)).toNat +
      (UInt64.ofNat (n.pos * 2 ^ (n.level + 1) - InorderTree.popcount n.pos)).toNat < 2 ^ 64 := by
    rw [hchildren, hleft]
    omega
  rw [inorderToPostorder, childrenOfNode_ofNode h hl]
  simp only [Option.bind_eq_bind, Option.bind_some, nodesToLeftOf_ofNode h]
  rw [Word.checkedAdd_of_lt hsum, Option.some_inj]
  apply UInt64.toNat_inj.mp
  rw [Word.toNat_add_of_lt hsum, hchildren, hleft, UInt64.toNat_ofNat_of_lt' (show _ < 2 ^ 64 by omega)]

/-- The loop of `postorder_to_inorder` starts, at a node's post-order index, in its invariant for
the bits it will set, `pos` above `level` ones. -/
theorem loopInv_postorder :
    LoopInv (n.pos * 2 ^ n.level + (2 ^ n.level - 1)) n.level 64
      (UInt64.ofNat n.postorder, ~~~0, 0) := by
  have hl := Node.level_lt h
  have hfit := Node.add_one_mul_two_pow_le h
  have hpos := Node.pos_lt (w := 64) (by omega : n.index < 2 ^ 64)
  have hY := Nat.one_le_two_pow (n := n.level)
  have hpc := Node.popcount_le n.pos
  have hP : n.pos ≤ n.pos * 2 ^ n.level := Nat.le_mul_of_pos_right _ (Nat.two_pow_pos _)
  have hpow : 2 ^ (n.level + 1) = 2 * 2 ^ n.level := Nat.pow_succ'
  have e₁ : (n.pos + 1) * 2 ^ (n.level + 1) = 2 * (n.pos * 2 ^ n.level) + 2 * 2 ^ n.level := by ring
  have e₂ : n.pos * 2 ^ (n.level + 1) = 2 * (n.pos * 2 ^ n.level) := by ring
  have hlowLt : 2 ^ n.level - 1 < 2 ^ n.level := by omega
  have hB : n.pos * 2 ^ n.level + (2 ^ n.level - 1) < 2 ^ 64 := by omega
  have hcount : Bits.countOnes 64 (n.pos * 2 ^ n.level + (2 ^ n.level - 1)) =
      n.level + InorderTree.popcount n.pos := by
    rw [show 64 = n.level + (64 - n.level) by omega, Bits.countOnes_mul_two_pow_add _ _ hlowLt,
      Bits.countOnes_two_pow_sub_one, InorderTree.countOnes_eq_popcount
        (Nat.lt_of_lt_of_le hpos (Nat.pow_le_pow_right (by decide) (by omega)))]
  have hpost : n.postorder < 2 ^ 64 := by simp only [Node.postorder_eq]; omega
  refine ⟨?_, by simp, ?_⟩
  · show (UInt64.ofNat n.postorder).toNat + Bits.countOnes 64 _ = 2 * (_ % 2 ^ 64) + n.level
    rw [UInt64.toNat_ofNat_of_lt' hpost, hcount, Nat.mod_eq_of_lt hB]
    simp only [Node.postorder_eq]
    omega
  · show (0 : UInt64).toNat = _ - _ % 2 ^ 64
    rw [Nat.mod_eq_of_lt hB]
    simp

/-- `postorder_to_inorder` takes every node's post-order index back to its position. -/
theorem postorderToInorder_postorder :
    postorderToInorder (UInt64.ofNat n.postorder) = some (Position.ofNode n).val := by
  have hl := Node.level_lt h
  have hpos := Node.pos_lt (w := 64) (by omega : n.index < 2 ^ 64)
  have hlowLt : 2 ^ n.level - 1 < 2 ^ n.level := Nat.sub_lt (Nat.two_pow_pos _) Nat.one_pos
  obtain ⟨hnode, hbitmap⟩ := loopInv_run (fun _ hj => Bits.testBit_mul_two_pow_add_sub_one n.pos hj)
    (le_refl 64) (loopInv_postorder h)
  -- what is left is the level, and the bitmap above it is `pos`
  have hlevel : (postorderToInorderLoop 64 (UInt64.ofNat n.postorder, ~~~0, 0)).1.toNat % 2 ^ 32 =
      n.level := by rw [hnode]; omega
  have hshr : ((postorderToInorderLoop 64 (UInt64.ofNat n.postorder, ~~~0, 0)).2.2 >>>
      n.level.toUInt64).toNat = n.pos := by
    rw [UInt64.toNat_shiftRight, Word.toNat_toUInt64 hl, hbitmap, Nat.shiftRight_eq_div_pow,
      Nat.add_comm, Nat.add_mul_div_right _ _ (Nat.two_pow_pos _), Nat.div_eq_of_lt hlowLt,
      Nat.zero_add]
  simp only [postorderToInorder, hlevel, Word.checkedShr_of_lt _ hl, Option.bind_eq_bind,
    Option.bind_some]
  rcases Nat.lt_or_ge n.level 63 with hl63 | hl63
  · rw [Position.fromLevelAndPos_of_lt hl63, hshr]
    rfl
  · -- at level 63 the only node is the root, with nothing to its left
    obtain rfl := Position.eq_root_of_sixtyThree_le h hl63
    rw [Position.fromLevelAndPos_sixtyThree]
    rfl

/-- Above the leaves, the post-order index of a position is one past its right child's and
`2^level` past its left child's. -/
theorem inorderToPostorder_children (hv : n.index < 2 ^ 64 - 2) (hl : 0 < n.level)
    (hroot : n.index ≠ 2 ^ 63 - 1) :
    inorderToPostorder (Position.ofNode n).val = some (UInt64.ofNat n.postorder) ∧
      inorderToPostorder (Position.ofNode n.rightChild).val =
        some (UInt64.ofNat n.rightChild.postorder) ∧
      inorderToPostorder (Position.ofNode n.leftChild).val =
        some (UInt64.ofNat n.leftChild.postorder) := by
  have hl63 := Position.level_lt_of_ne_root h hroot
  -- both children sit inside the node's span
  have hlc := Node.index_leftChild hl
  have hroom := Node.index_rightChild_add_le h hl
  have hY := Nat.one_le_two_pow (n := n.level - 1)
  have hlevel : n.level - 1 < 63 := by omega
  exact ⟨inorderToPostorder_ofNode h hl63, inorderToPostorder_ofNode (by omega) hlevel,
    inorderToPostorder_ofNode (by omega) hlevel⟩

end Node

/-! ### The two orders invert each other

`postorder` maps the `2^64 - 1` nodes of the word one to one into `[0, 2^64 - 2]`
(`postorderToInorder_postorder` reads each node back), hence onto it; so every post-order index
of the word is a node's, and `inorder_to_postorder` takes `postorder_to_inorder`'s result back
wherever it does not hit the root. -/

theorem postorder_lt {n : Node} (h : n.index + 1 < 2 ^ 64) : n.postorder < 2 ^ 64 - 1 := by
  have := Node.postorder_add_two_le n
  have := Node.add_one_mul_two_pow_le h
  omega

/-- The post-order index of the node at each in-order index of the word. -/
def postorderOfIndex (a : Fin (2 ^ 64 - 1)) : Fin (2 ^ 64 - 1) :=
  ⟨(Node.ofIndex a).postorder, postorder_lt (by rw [Node.index_ofIndex]; omega)⟩

theorem postorderOfIndex_injective : Function.Injective postorderOfIndex := by
  intro a b hab
  have ha : (Node.ofIndex a).index + 1 < 2 ^ 64 := by rw [Node.index_ofIndex]; omega
  have hb : (Node.ofIndex b).index + 1 < 2 ^ 64 := by rw [Node.index_ofIndex]; omega
  -- `postorder_to_inorder` reads both nodes back from one post-order index
  have hread := postorderToInorder_postorder ha
  rw [show (Node.ofIndex a).postorder = (Node.ofIndex b).postorder from congrArg Fin.val hab,
    postorderToInorder_postorder hb, Option.some_inj] at hread
  have hnode := congrArg UInt64.toNat hread
  rw [Position.toNat_ofNode (n := Node.ofIndex b) (by omega),
    Position.toNat_ofNode (n := Node.ofIndex a) (by omega), Node.index_ofIndex,
    Node.index_ofIndex] at hnode
  exact Fin.ext hnode.symm

/-- Every index of `[0, 2^64 - 2]` is the post-order index of a node of the word. -/
theorem exists_postorder_eq {x : Nat} (hx : x < 2 ^ 64 - 1) :
    ∃ n : Node, n.index + 1 < 2 ^ 64 ∧ n.postorder = x := by
  obtain ⟨a, ha⟩ := Finite.surjective_of_injective postorderOfIndex_injective ⟨x, hx⟩
  exact ⟨Node.ofIndex a, by rw [Node.index_ofIndex]; omega, congrArg Fin.val ha⟩

/-- `postorder_to_inorder(inorder_to_postorder(x)) = x` on `[0, 2^64 - 2]`, but at the root. -/
theorem postorderToInorder_inorderToPostorder {x : UInt64} (hx : x.toNat < 2 ^ 64 - 1)
    (hroot : x.toNat ≠ 2 ^ 63 - 1) : (inorderToPostorder x).bind postorderToInorder = some x := by
  obtain ⟨n, h, hn⟩ := Position.exists_ofNode ⟨x⟩ (show x.toNat + 1 < 2 ^ 64 by omega)
  obtain rfl : x = (Position.ofNode n).val := congrArg Position.val hn
  rw [Position.toNat_ofNode (by omega)] at hroot
  rw [inorderToPostorder_ofNode h (Position.level_lt_of_ne_root h hroot), Option.bind_some,
    postorderToInorder_postorder h]

/-- `inorder_to_postorder(postorder_to_inorder(x)) = x` on `[0, 2^64 - 3]`. -/
theorem inorderToPostorder_postorderToInorder {x : UInt64} (hx : x.toNat < 2 ^ 64 - 2) :
    (postorderToInorder x).bind inorderToPostorder = some x := by
  obtain ⟨n, h, hn⟩ := exists_postorder_eq (x := x.toNat) (by omega)
  -- the root's post-order index is the last one, `2^64 - 2`
  have hl : n.level < 63 := by
    refine Position.level_lt_of_ne_root h fun hroot => ?_
    obtain rfl := Position.eq_root_of_sixtyThree_le h (Node.le_level_of_index_eq hroot)
    rw [show Node.postorder ⟨63, 0⟩ = 2 ^ 64 - 2 by rfl] at hn
    omega
  obtain rfl : x = UInt64.ofNat n.postorder := by rw [hn, UInt64.ofNat_toNat]
  rw [postorderToInorder_postorder h, Option.bind_some, inorderToPostorder_ofNode h hl]

/-- Above the leaves and below the root, a position's post-order index is one past its right
child's and `2^level` past its left child's. -/
theorem inorderToPostorder_rightChild_leftChild {p : Position} (hp : p.val.toNat < 2 ^ 64 - 2)
    (hleaf : p.isLeaf = false) (hroot : p.val.toNat ≠ 2 ^ 63 - 1) :
    ∃ a b c : UInt64, inorderToPostorder p.val = some a ∧
      (p.rightChild.bind fun r => inorderToPostorder r.val) = some b ∧
      (p.leftChild.bind fun l => inorderToPostorder l.val) = some c ∧
      a.toNat = b.toNat + 1 ∧ a.toNat = c.toNat + 2 ^ p.level := by
  obtain ⟨n, hv, rfl⟩ := Position.exists_ofNode_of_lt hp
  have h : n.index + 1 < 2 ^ 64 := by omega
  have hl := Position.level_pos_of_not_isLeaf h hleaf
  rw [Position.toNat_ofNode (by omega)] at hroot
  obtain ⟨hnode, hright, hleft⟩ := inorderToPostorder_children h hv hl hroot
  -- the three post-order indices are below the node's, which fits
  have hpost := postorder_lt h
  have hpostR := Node.postorder_rightChild hl
  have hpostL := Node.postorder_leftChild hl
  have hY := Nat.one_le_two_pow (n := n.level)
  refine ⟨_, UInt64.ofNat n.rightChild.postorder, UInt64.ofNat n.leftChild.postorder, hnode, ?_, ?_,
    ?_, ?_⟩
  · rw [Position.rightChild_ofNode h hv hl, Option.bind_some, hright]
  · rw [Position.leftChild_ofNode h hv hl, Option.bind_some, hleft]
  · rw [UInt64.toNat_ofNat_of_lt' (show _ < 2 ^ 64 by omega),
      UInt64.toNat_ofNat_of_lt' (show _ < 2 ^ 64 by omega), hpostR]
  · rw [UInt64.toNat_ofNat_of_lt' (show _ < 2 ^ 64 by omega),
      UInt64.toNat_ofNat_of_lt' (show _ < 2 ^ 64 by omega), Position.level_ofNode h, hpostL]

/-! ### The laws together -/

theorem position_navigation_laws :
    (∀ p : Position, p.val.toNat < 2 ^ 64 - 2 → p.isLeaf = false →
      p.leftChild.bind Position.parent = some p) ∧
    (∀ p : Position, p.val.toNat < 2 ^ 64 - 2 → p.isLeaf = false → p.val.toNat ≠ 2 ^ 64 - 3 →
      p.rightChild.bind Position.parent = some p) ∧
    (∀ p : Position, p.val.toNat < 2 ^ 64 - 2 → p.val.toNat ≠ 2 ^ 64 - 4 →
      p.sibling.bind Position.sibling = some p) ∧
    (∀ p : Position, p.val.toNat < 2 ^ 64 - 2 → p.level < 63 → p.val.toNat ≠ 2 ^ 64 - 4 →
      p.sibling.bind Position.parent = p.parent) ∧
    (∀ p : Position, p.val.toNat < 2 ^ 64 - 2 → p.level < 63 →
      p.parent.map Position.level = some (p.level + 1)) ∧
    (∀ p : Position, p.val.toNat < 2 ^ 64 - 2 → p.level < 63 →
      p.isLeftChild = some (decide (p.parent.bind Position.leftChild = some p))) ∧
    (∀ p : Position, p.val.toNat < 2 ^ 64 - 2 → p.level < 63 →
      p.posCountingFromLeft.bind (Position.fromLevelAndPos p.level) = some p) ∧
    (∀ p : Position, p.val.toNat < 2 ^ 64 - 2 →
      p.leftMostChild = Position.fromLeafIndex
        (UInt64.ofNat (p.val.toNat / 2 ^ (p.level + 1) * 2 ^ p.level)) ∧
      p.rightMostChild = Position.fromLeafIndex
        (UInt64.ofNat (p.val.toNat / 2 ^ (p.level + 1) * 2 ^ p.level + 2 ^ p.level - 1))) ∧
    (∀ x : UInt64, x.toNat < 2 ^ 64 - 1 → x.toNat ≠ 2 ^ 63 - 1 →
      (inorderToPostorder x).bind postorderToInorder = some x) ∧
    (∀ x : UInt64, x.toNat < 2 ^ 64 - 2 →
      (postorderToInorder x).bind inorderToPostorder = some x) ∧
    (∀ p : Position, p.val.toNat < 2 ^ 64 - 2 → p.isLeaf = false → p.val.toNat ≠ 2 ^ 63 - 1 →
      ∃ a b c : UInt64, inorderToPostorder p.val = some a ∧
        (p.rightChild.bind fun r => inorderToPostorder r.val) = some b ∧
        (p.leftChild.bind fun l => inorderToPostorder l.val) = some c ∧
        a.toNat = b.toNat + 1 ∧ a.toNat = c.toNat + 2 ^ p.level) :=
  ⟨fun _ hp hleaf => Position.leftChild_bind_parent hp hleaf,
    fun _ hp hleaf htop => Position.rightChild_bind_parent hp hleaf htop,
    fun _ hp htop => Position.sibling_bind_sibling hp htop,
    fun _ hp hl htop => Position.sibling_bind_parent hp hl htop,
    fun _ hp hl => Position.level_parent hp hl,
    fun _ hp hl => Position.isLeftChild_eq hp hl,
    fun _ hp hl => Position.posCountingFromLeft_bind_fromLevelAndPos hp hl,
    fun _ hp => ⟨Position.leftMostChild_eq hp, Position.rightMostChild_eq hp⟩,
    fun _ hx hroot => postorderToInorder_inorderToPostorder hx hroot,
    fun _ hx => inorderToPostorder_postorderToInorder hx,
    fun _ hp hleaf hroot => inorderToPostorder_rightChild_leftChild hp hleaf hroot⟩

/-- The laws at position 5, the right child at level 1 of the subtree of 3. -/
theorem position_navigation_laws_at_five :
    (Position.mk 5).leftChild.bind Position.parent = some ⟨5⟩ ∧
    (Position.mk 5).rightChild.bind Position.parent = some ⟨5⟩ ∧
    (Position.mk 5).sibling.bind Position.sibling = some ⟨5⟩ ∧
    (Position.mk 5).sibling.bind Position.parent = (Position.mk 5).parent ∧
    (Position.mk 5).parent.map Position.level = some ((Position.mk 5).level + 1) ∧
    (Position.mk 5).isLeftChild =
      some (decide ((Position.mk 5).parent.bind Position.leftChild = some ⟨5⟩)) ∧
    (Position.mk 5).posCountingFromLeft.bind (Position.fromLevelAndPos (Position.mk 5).level) =
      some ⟨5⟩ ∧
    ((Position.mk 5).leftMostChild = Position.fromLeafIndex
        (UInt64.ofNat ((5 : UInt64).toNat / 2 ^ ((Position.mk 5).level + 1) *
          2 ^ (Position.mk 5).level)) ∧
      (Position.mk 5).rightMostChild = Position.fromLeafIndex
        (UInt64.ofNat ((5 : UInt64).toNat / 2 ^ ((Position.mk 5).level + 1) *
          2 ^ (Position.mk 5).level + 2 ^ (Position.mk 5).level - 1))) ∧
    (inorderToPostorder 5).bind postorderToInorder = some 5 ∧
    (postorderToInorder 5).bind inorderToPostorder = some 5 ∧
    ∃ a b c : UInt64, inorderToPostorder 5 = some a ∧
      ((Position.mk 5).rightChild.bind fun r => inorderToPostorder r.val) = some b ∧
      ((Position.mk 5).leftChild.bind fun l => inorderToPostorder l.val) = some c ∧
      a.toNat = b.toNat + 1 ∧ a.toNat = c.toNat + 2 ^ (Position.mk 5).level := by
  obtain ⟨hleft, hright, hsibling, hsiblingParent, hlevel, hisLeft, hpos, hmost, hinorder,
    hpostorder, hchildren⟩ := position_navigation_laws
  exact ⟨hleft ⟨5⟩ (by decide) (by decide), hright ⟨5⟩ (by decide) (by decide) (by decide),
    hsibling ⟨5⟩ (by decide) (by decide), hsiblingParent ⟨5⟩ (by decide) (by decide) (by decide),
    hlevel ⟨5⟩ (by decide) (by decide), hisLeft ⟨5⟩ (by decide) (by decide),
    hpos ⟨5⟩ (by decide) (by decide), hmost ⟨5⟩ (by decide), hinorder 5 (by decide) (by decide),
    hpostorder 5 (by decide), hchildren ⟨5⟩ (by decide) (by decide) (by decide)⟩

/-- At the top of the word the laws fail: the right child of `u64::MAX - 2` and the sibling of
`u64::MAX - 3` are `u64::MAX - 1`, whose parent and sibling panic; `inorder_to_postorder` panics
at the root `2^63 - 1`, the node `postorder_to_inorder` gives for `u64::MAX - 1`; and at the root
`pos_counting_from_left` shifts by 64. -/
theorem position_navigation_laws_fail_at_top :
    (Position.mk 18446744073709551613).isLeaf = false ∧
    (Position.mk 18446744073709551613).rightChild.bind Position.parent = none ∧
    (Position.mk 18446744073709551612).sibling.bind Position.sibling = none ∧
    (Position.mk 18446744073709551612).sibling.bind Position.parent = none ∧
    (Position.mk 18446744073709551612).parent = some ⟨18446744073709551613⟩ ∧
    (Position.mk 18446744073709551612).level = 0 ∧
    inorderToPostorder 9223372036854775807 = none ∧
    postorderToInorder 18446744073709551614 = some 9223372036854775807 ∧
    (Position.mk 9223372036854775807).posCountingFromLeft = none := by
  decide

end CreditChain
