import CreditChain.Jellyfish.Varint
import CreditChain.Lib.Bits

/-!
# Nodes of the Jellyfish Merkle tree and their storage encoding

`Node`, `InternalNode`, `LeafNode` and `Child` of `jellyfish-merkle/src/node_type/mod.rs`, with
`Node::encode` and `Node::decode`. An internal node is written as its existence and leaf bitmaps
(two little-endian `u16`s) followed, child by child in nibble order, by the child's version as a
varint, its hash, and its leaf count as a varint when it is an internal node; the reader rebuilds
the children from the bitmaps by `trailing_zeros`. A leaf is written by `bcs`, whose encoding of
the key type is a parameter of the model (`BcsCodec`).

The hash of this module is the 32 bytes of `HashValue`, hence a namespace of its own.

* `InternalNode.deserialize_serialize`: an internal node built by `InternalNode::new` from
  children sorted by distinct nibbles is read back from what `serialize` writes;
* `LeafNode.fromBytes_toBytes`: a leaf is read back from its `bcs` bytes;
* `Node.decode_encode`: every node the tree builds is decoded from its encoding.
-/

namespace CreditChain

namespace Jellyfish

/-- `HashValue`: 32 bytes. -/
structure HashValue where
  bytes : List UInt8
  length_bytes : bytes.length = 32
  deriving DecidableEq

/-- `Nibble`: `Nibble::from` asserts that it is below 16. -/
abbrev Nibble := Fin 16

/-- `Nibble::from(u8)`; `none` is its failed assertion. -/
def Nibble.fromU8 (nibble : UInt8) : Option Nibble :=
  if h : nibble.toNat < 16 then some ⟨nibble.toNat, h⟩ else none

/-- `NodeType`: what a child is, with the leaf count of an internal child. -/
inductive NodeType
  | leaf
  | null
  | internal (leafCount : UInt64)
  deriving DecidableEq, Repr

/-- `Child`: a child of an internal node. -/
structure Child where
  hash : HashValue
  version : UInt64
  nodeType : NodeType
  deriving DecidableEq

namespace Child

/-- `Child::is_leaf`. -/
def isLeaf (self : Child) : Bool :=
  match self.nodeType with
  | .leaf => true
  | _ => false

/-- `Child::leaf_count`; `none` is the `unreachable!` of a `Null` child. -/
def leafCount (self : Child) : Option UInt64 :=
  match self.nodeType with
  | .leaf => some 1
  | .internal leafCount => some leafCount
  | .null => none

theorem leafCount_of_null {self : Child} (h : self.nodeType = .null) : self.leafCount = none := by
  unfold leafCount
  rw [h]

end Child

/-- `InternalNode`: its children in nibble order, and the leaves under it. -/
structure InternalNode where
  children : List (Nibble × Child)
  leafCount : UInt64
  deriving DecidableEq

namespace InternalNode

/-- One turn of `sum`: adding a child's leaf count, with the overflow check of the release
profile. -/
def addLeafCount (sum : Option UInt64) (child : Nibble × Child) : Option UInt64 := do
  let sum ← sum
  let leafCount ← child.2.leafCount
  if sum.toNat + leafCount.toNat < 2 ^ 64 then some (sum + leafCount) else none

/-- `children.iter().map(|(_, child)| child.leaf_count()).sum()`; `none` is a panic. -/
def sumLeafCounts (children : List (Nibble × Child)) : Option UInt64 :=
  children.foldl addLeafCount (some 0)

/-- `InternalNode::new_impl`. -/
def newImpl (children : List (Nibble × Child)) : Option (Except DecodeError InternalNode) :=
  if children.isEmpty then some (.error .childrenEmpty)
  else (sumLeafCounts children).map fun leafCount => .ok ⟨children, leafCount⟩

/-- `InternalNode::new`: `new_impl(..).expect(..)`. -/
def new (children : List (Nibble × Child)) : Option InternalNode :=
  match newImpl children with
  | some (.ok node) => some node
  | _ => none

/-- One turn of the loop of `generate_bitmaps`: the child's bit, in the leaf bitmap too when it
is a leaf. -/
def addToBitmaps (bitmaps : UInt16 × UInt16) (child : Nibble × Child) : UInt16 × UInt16 :=
  let i := UInt8.ofNat child.1.val
  (bitmaps.1 ||| 1 <<< i.toUInt16,
    if child.2.isLeaf then bitmaps.2 ||| 1 <<< i.toUInt16 else bitmaps.2)

theorem addToBitmaps_fst (bitmaps : UInt16 × UInt16) (child : Nibble × Child) :
    (addToBitmaps bitmaps child).1 = bitmaps.1 ||| 1 <<< (UInt8.ofNat child.1.val).toUInt16 := rfl

theorem addToBitmaps_snd (bitmaps : UInt16 × UInt16) (child : Nibble × Child) :
    (addToBitmaps bitmaps child).2 =
      if child.2.isLeaf then bitmaps.2 ||| 1 <<< (UInt8.ofNat child.1.val).toUInt16
      else bitmaps.2 := rfl

/-- `InternalNode::generate_bitmaps`; `none` is its final assertion failing. -/
def generateBitmaps (self : InternalNode) : Option (UInt16 × UInt16) :=
  let (existenceBitmap, leafBitmap) := self.children.foldl addToBitmaps (0, 0)
  if existenceBitmap ||| leafBitmap = existenceBitmap then some (existenceBitmap, leafBitmap)
  else none

/-- One turn of the loop of `InternalNode::serialize`. -/
def serializeChild (child : Child) (binary : List UInt8) : Option (List UInt8) := do
  let binary ← serializeU64Varint child.version binary
  let binary := binary ++ child.hash.bytes
  match child.nodeType with
  | .leaf => some binary
  | .internal leafCount => serializeU64Varint leafCount binary
  | .null => none

/-- The loop of `InternalNode::serialize` over the children. -/
def serializeChildren : List (Nibble × Child) → List UInt8 → Option (List UInt8)
  | [], binary => some binary
  | (_, child) :: children, binary => (serializeChild child binary).bind (serializeChildren children)

theorem serializeChildren_nil (binary : List UInt8) : serializeChildren [] binary = some binary :=
  rfl

theorem serializeChildren_cons (n : Nibble) (child : Child) (children : List (Nibble × Child))
    (binary : List UInt8) :
    serializeChildren ((n, child) :: children) binary =
      (serializeChild child binary).bind (serializeChildren children) := rfl

/-- `InternalNode::serialize`, which appends to `binary`. The loop also clears each child's bit
in a copy of the existence bitmap that nothing reads afterwards. -/
def serialize (self : InternalNode) (binary : List UInt8) : Option (List UInt8) :=
  match self.generateBitmaps with
  | none => none
  | some (existenceBitmap, leafBitmap) =>
    serializeChildren self.children
      (binary ++ Bytes.toLe 2 existenceBitmap.toNat ++ Bytes.toLe 2 leafBitmap.toNat)

/-- The loop of `InternalNode::deserialize` with `k` turns left: the existence bitmap left and the
children read so far. -/
def deserializeChildren : Nat → UInt16 → UInt16 → List UInt8 → List (Nibble × Child) →
    Option (Except DecodeError (UInt16 × List (Nibble × Child)))
  | 0, existenceBitmap, _, _, children => some (.ok (existenceBitmap, children))
  | k + 1, existenceBitmap, leafBitmap, reader, children =>
    let nextChild := UInt8.ofNat (Bits.trailingZeros 16 existenceBitmap.toNat)
    match deserializeU64Varint reader with
    | .error e => some (.error e)
    | .ok (version, reader) =>
      if h : reader.length < 32 then
        some (.error (.notEnoughBytes (Bits.countOnes 16 existenceBitmap.toNat) reader.length))
      else
        let hash : HashValue := ⟨reader.take 32, by simp only [List.length_take]; omega⟩
        let reader := reader.drop 32
        -- `1 << next_child` on a `u16` panics for a shift of 16 or more
        if 16 ≤ nextChild.toNat then none
        else
          let childBit : UInt16 := 1 <<< nextChild.toUInt16
          let nodeType : Except DecodeError (NodeType × List UInt8) :=
            if leafBitmap &&& childBit ≠ 0 then .ok (.leaf, reader)
            else (deserializeU64Varint reader).map fun r => (.internal r.1, r.2)
          match nodeType with
          | .error e => some (.error e)
          | .ok (nodeType, reader) =>
            (Nibble.fromU8 nextChild).bind fun nibble =>
              deserializeChildren k (existenceBitmap &&& ~~~childBit) leafBitmap reader
                (children ++ [(nibble, ⟨hash, version, nodeType⟩)])

theorem deserializeChildren_zero (existenceBitmap leafBitmap : UInt16) (reader : List UInt8)
    (children : List (Nibble × Child)) :
    deserializeChildren 0 existenceBitmap leafBitmap reader children =
      some (.ok (existenceBitmap, children)) := rfl

theorem deserializeChildren_succ_eq (k : Nat) (existenceBitmap leafBitmap : UInt16)
    (reader : List UInt8) (children : List (Nibble × Child)) :
    deserializeChildren (k + 1) existenceBitmap leafBitmap reader children =
      let nextChild := UInt8.ofNat (Bits.trailingZeros 16 existenceBitmap.toNat)
      match deserializeU64Varint reader with
      | .error e => some (.error e)
      | .ok (version, reader) =>
        if h : reader.length < 32 then
          some (.error (.notEnoughBytes (Bits.countOnes 16 existenceBitmap.toNat) reader.length))
        else
          let hash : HashValue := ⟨reader.take 32, by simp only [List.length_take]; omega⟩
          let reader := reader.drop 32
          if 16 ≤ nextChild.toNat then none
          else
            let childBit : UInt16 := 1 <<< nextChild.toUInt16
            let nodeType : Except DecodeError (NodeType × List UInt8) :=
              if leafBitmap &&& childBit ≠ 0 then .ok (.leaf, reader)
              else (deserializeU64Varint reader).map fun r => (.internal r.1, r.2)
            match nodeType with
            | .error e => some (.error e)
            | .ok (nodeType, reader) =>
              (Nibble.fromU8 nextChild).bind fun nibble =>
                deserializeChildren k (existenceBitmap &&& ~~~childBit) leafBitmap reader
                  (children ++ [(nibble, ⟨hash, version, nodeType⟩)]) := rfl

/-- `InternalNode::deserialize`; `none` is a panic. Bytes after the last child are not read. -/
def deserialize (data : List UInt8) : Option (Except DecodeError InternalNode) :=
  match Bytes.readLe 2 data with
  | none => some (.error .unexpectedEof)
  | some (existenceBitmap, reader) =>
    match Bytes.readLe 2 reader with
    | none => some (.error .unexpectedEof)
    | some (leafBitmap, reader) =>
      let existenceBitmap := UInt16.ofNat existenceBitmap
      let leafBitmap := UInt16.ofNat leafBitmap
      if existenceBitmap = 0 then some (.error .noChildren)
      else if existenceBitmap &&& leafBitmap ≠ leafBitmap then
        some (.error (.extraLeaves existenceBitmap leafBitmap))
      else
        match deserializeChildren (Bits.countOnes 16 existenceBitmap.toNat) existenceBitmap
            leafBitmap reader [] with
        | none => none
        | some (.error e) => some (.error e)
        | some (.ok (existenceBitmap, children)) =>
          -- `assert_eq!(existence_bitmap, 0)`
          if existenceBitmap = 0 then newImpl children else none

/-! ### The bitmaps -/

section Bitmaps

/-- The nibbles of some children, as numbers. -/
def nibbles (children : List (Nibble × Child)) : List Nat := children.map fun c => c.1.val

theorem nibbles_nil : nibbles [] = [] := rfl

theorem nibbles_cons (c : Nibble × Child) (children : List (Nibble × Child)) :
    nibbles (c :: children) = c.1.val :: nibbles children := rfl

private theorem toNat_one_shiftLeft {n : Nat} (h : n < 16) :
    ((1 : UInt16) <<< (UInt8.ofNat n).toUInt16).toNat = 2 ^ n := by
  rw [UInt16.toNat_shiftLeft, UInt8.toNat_toUInt16, UInt8.toNat_ofNat',
    Nat.mod_eq_of_lt (by omega : n < 2 ^ 8), Nat.mod_eq_of_lt h, Nat.shiftLeft_eq,
    UInt16.toNat_one, Nat.one_mul]
  exact Nat.mod_eq_of_lt (Nat.pow_lt_pow_right (by decide) h)

private theorem testBit_or_one_shiftLeft (b : UInt16) {n : Nat} (h : n < 16) (i : Nat) :
    (b ||| 1 <<< (UInt8.ofNat n).toUInt16).toNat.testBit i = (b.toNat.testBit i || decide (n = i)) := by
  rw [UInt16.toNat_or, Nat.testBit_or, toNat_one_shiftLeft h, Nat.testBit_two_pow]

/-- Clearing the bit of nibble `n`, as the reader does once it has read that child. -/
theorem testBit_clearBit (e : UInt16) {n : Nat} (h : n < 16) (i : Nat) :
    (e &&& ~~~(1 <<< (UInt8.ofNat n).toUInt16)).toNat.testBit i = (e.toNat.testBit i && i != n) := by
  change (e &&& ~~~_).toBitVec.getLsbD i = (e.toBitVec.getLsbD i && i != n)
  rw [UInt16.toBitVec_and, UInt16.toBitVec_not, BitVec.getLsbD_and, BitVec.getLsbD_not]
  change (_ && (decide (i < 16) && !(1 <<< (UInt8.ofNat n).toUInt16 : UInt16).toNat.testBit i)) = _
  rw [toNat_one_shiftLeft h, Nat.testBit_two_pow]
  by_cases hi : i < 16
  · by_cases hn : i = n
    · subst hn
      simp [hi]
    · simp [hi, hn, Ne.symm hn]
  · simp [hi, BitVec.getLsbD_of_ge _ _ (Nat.le_of_not_lt hi)]

/-- The loop of `generate_bitmaps` sets the bits of the children's nibbles in the existence
bitmap. -/
theorem testBit_foldl_addToBitmaps_fst (children : List (Nibble × Child)) (b : UInt16 × UInt16)
    (i : Nat) : (children.foldl addToBitmaps b).1.toNat.testBit i = true ↔
      b.1.toNat.testBit i = true ∨ i ∈ nibbles children := by
  induction children generalizing b with
  | nil => simp [nibbles_nil]
  | cons c children ih =>
    have hstep : (addToBitmaps b c).1.toNat.testBit i = true ↔
        b.1.toNat.testBit i = true ∨ c.1.val = i := by
      rw [addToBitmaps_fst, testBit_or_one_shiftLeft _ c.1.isLt, Bool.or_eq_true,
        decide_eq_true_iff]
    rw [List.foldl_cons, ih, hstep, nibbles_cons, List.mem_cons, or_assoc, @eq_comm _ i]

/-- ... and those of the leaves in the leaf bitmap. -/
theorem testBit_foldl_addToBitmaps_snd (children : List (Nibble × Child)) (b : UInt16 × UInt16)
    (i : Nat) : (children.foldl addToBitmaps b).2.toNat.testBit i = true ↔
      b.2.toNat.testBit i = true ∨ ∃ c ∈ children, c.1.val = i ∧ c.2.isLeaf = true := by
  induction children generalizing b with
  | nil => simp
  | cons c children ih =>
    have hstep : (addToBitmaps b c).2.toNat.testBit i = true ↔
        b.2.toNat.testBit i = true ∨ c.1.val = i ∧ c.2.isLeaf = true := by
      rw [addToBitmaps_snd]
      by_cases hleaf : c.2.isLeaf
      · rw [if_pos hleaf, testBit_or_one_shiftLeft _ c.1.isLt, Bool.or_eq_true, decide_eq_true_iff]
        simp [hleaf]
      · simp [hleaf]
    rw [List.foldl_cons, ih, hstep]
    simp only [List.mem_cons, or_and_right, exists_or, exists_eq_left, or_assoc]

/-- The final assertion of `generate_bitmaps` holds: every leaf exists. -/
theorem generateBitmaps_eq (self : InternalNode) :
    self.generateBitmaps = some (self.children.foldl addToBitmaps (0, 0)) := by
  have hsub : (self.children.foldl addToBitmaps (0, 0)).1 |||
      (self.children.foldl addToBitmaps (0, 0)).2 = (self.children.foldl addToBitmaps (0, 0)).1 := by
    refine UInt16.toNat_inj.mp (Nat.eq_of_testBit_eq fun i => ?_)
    rw [Bool.eq_iff_iff, UInt16.toNat_or, Nat.testBit_or, Bool.or_eq_true,
      testBit_foldl_addToBitmaps_fst, testBit_foldl_addToBitmaps_snd]
    simp only [UInt16.toNat_zero, Nat.zero_testBit, Bool.false_eq_true, false_or]
    refine or_iff_left_of_imp ?_
    rintro ⟨c, hc, rfl, -⟩
    exact List.mem_map_of_mem hc
  delta generateBitmaps
  exact if_pos hsub

theorem serialize_eq (self : InternalNode) (binary : List UInt8) :
    self.serialize binary =
      serializeChildren self.children (binary ++
        Bytes.toLe 2 (self.children.foldl addToBitmaps (0, 0)).1.toNat ++
        Bytes.toLe 2 (self.children.foldl addToBitmaps (0, 0)).2.toNat) := by
  delta serialize
  rw [generateBitmaps_eq]

end Bitmaps

/-! ### The children -/

section Children

theorem serializeChild_append (child : Child) (binary : List UInt8) :
    serializeChild child binary = (serializeChild child []).map (binary ++ ·) := by
  unfold serializeChild
  rw [serializeU64Varint_append child.version binary]
  rcases serializeU64Varint child.version [] with _ | vb
  · rfl
  · cases child.nodeType with
    | leaf => simp
    | internal leafCount =>
      simp only [Option.map_some, Option.bind_eq_bind, Option.bind_some]
      rw [serializeU64Varint_append leafCount (binary ++ vb ++ _),
        serializeU64Varint_append leafCount (vb ++ _)]
      cases serializeU64Varint leafCount [] <;> simp
    | null => rfl

theorem serializeChildren_append (children : List (Nibble × Child)) (binary : List UInt8) :
    serializeChildren children binary = (serializeChildren children []).map (binary ++ ·) := by
  induction children generalizing binary with
  | nil => simp [serializeChildren_nil]
  | cons c children ih =>
    obtain ⟨n, child⟩ := c
    simp only [serializeChildren_cons]
    rw [serializeChild_append child binary]
    rcases serializeChild child [] with _ | cb
    · rfl
    · simp only [Option.map_some, Option.bind_some]
      rw [ih, ih cb]
      cases serializeChildren children [] <;> simp

theorem serializeChildren_cons_eq_some {n : Nibble} {child : Child}
    {children : List (Nibble × Child)} {bytes : List UInt8}
    (h : serializeChildren ((n, child) :: children) [] = some bytes) :
    ∃ cb rest, serializeChild child [] = some cb ∧ serializeChildren children [] = some rest ∧
      bytes = cb ++ rest := by
  rw [serializeChildren_cons] at h
  rcases hcb : serializeChild child [] with _ | cb
  · rw [hcb] at h
    cases h
  · rw [hcb, Option.bind_some, serializeChildren_append] at h
    rcases hrest : serializeChildren children [] with _ | rest
    · rw [hrest] at h
      cases h
    · rw [hrest, Option.map_some, Option.some.injEq] at h
      exact ⟨cb, rest, rfl, rfl, h.symm⟩

/-- Every child but a `Null` one is written. -/
theorem serializeChild_isSome {child : Child} (h : child.nodeType ≠ .null) :
    ∃ cb, serializeChild child [] = some cb := by
  obtain ⟨vb, hvb, -⟩ := deserializeU64Varint_serializeU64Varint child.version []
  unfold serializeChild
  rw [hvb]
  cases hnt : child.nodeType with
  | leaf => exact ⟨_, rfl⟩
  | internal leafCount =>
    obtain ⟨lb, hlb, -⟩ := deserializeU64Varint_serializeU64Varint leafCount []
    show ∃ cb, serializeU64Varint leafCount (vb ++ child.hash.bytes) = some cb
    rw [serializeU64Varint_append, hlb]
    exact ⟨_, rfl⟩
  | null => exact absurd hnt h

theorem serializeChildren_isSome {children : List (Nibble × Child)}
    (h : ∀ c ∈ children, c.2.nodeType ≠ .null) : ∃ bytes, serializeChildren children [] = some bytes := by
  induction children with
  | nil => exact ⟨[], rfl⟩
  | cons c children ih =>
    obtain ⟨cb, hcb⟩ := serializeChild_isSome (h c List.mem_cons_self)
    obtain ⟨rest, hrest⟩ := ih fun c' hc' => h c' (List.mem_cons_of_mem c hc')
    refine ⟨cb ++ rest, ?_⟩
    rw [serializeChildren_cons, hcb, Option.bind_some, serializeChildren_append, hrest,
      Option.map_some]

private theorem toNat_ofNat_nibble (n : Nibble) : (UInt8.ofNat n.val).toNat = n.val :=
  Nat.mod_eq_of_lt (Nat.lt_trans n.isLt (by decide))

private theorem fromU8_ofNat (n : Nibble) : Nibble.fromU8 (UInt8.ofNat n.val) = some n := by
  delta Nibble.fromU8
  rw [dif_pos (by rw [toNat_ofNat_nibble]; exact n.isLt)]
  simp only [toNat_ofNat_nibble]

/-- The hash the reader takes from the front of its input. -/
private theorem mk_take_append (hash : HashValue) (reader : List UInt8)
    (h : ((hash.bytes ++ reader).take 32).length = 32) :
    (⟨(hash.bytes ++ reader).take 32, h⟩ : HashValue) = hash := by
  obtain ⟨bytes, hbytes⟩ := hash
  simp only [HashValue.mk.injEq]
  exact List.take_left' hbytes

private theorem and_one_shiftLeft_ne_zero_iff (l : UInt16) (n : Nibble) :
    l &&& 1 <<< (UInt8.ofNat n.val).toUInt16 ≠ 0 ↔ l.toNat.testBit n.val = true := by
  rw [ne_eq, ← UInt16.toNat_inj, UInt16.toNat_and, toNat_one_shiftLeft n.isLt, Nat.and_two_pow]
  cases l.toNat.testBit n.val <;> simp

/-- One turn of the reader over what one turn of the writer wrote: the child whose nibble is the
lowest bit of the existence bitmap is read back, and its bit cleared. -/
theorem deserializeChildren_succ (k : Nat) {e l : UInt16} (reader : List UInt8)
    (acc : List (Nibble × Child)) {n : Nibble} {child : Child} {cb : List UInt8}
    (hcb : serializeChild child [] = some cb) (htz : Bits.trailingZeros 16 e.toNat = n.val)
    (hleaf : l.toNat.testBit n.val = child.isLeaf) :
    deserializeChildren (k + 1) e l (cb ++ reader) acc =
      deserializeChildren k (e &&& ~~~(1 <<< (UInt8.ofNat n.val).toUInt16)) l reader
        (acc ++ [(n, child)]) := by
  obtain ⟨hash, version, nodeType⟩ := child
  obtain ⟨vb, hvb, -⟩ := deserializeU64Varint_serializeU64Varint version []
  unfold serializeChild at hcb
  simp only [hvb, Option.bind_eq_bind, Option.bind_some] at hcb
  have hshift : ¬ 16 ≤ (UInt8.ofNat n.val).toNat := by
    rw [toNat_ofNat_nibble]
    exact Nat.not_le_of_lt n.isLt
  have hlen : ¬ (hash.bytes ++ reader).length < 32 := by
    simp [hash.length_bytes]
  have hdrop : (hash.bytes ++ reader).drop 32 = reader := List.drop_left' hash.length_bytes
  cases nodeType with
  | leaf =>
    -- the child's bit is set in the leaf bitmap: nothing follows its hash
    cases hcb
    have hbit := (and_one_shiftLeft_ne_zero_iff l n).mpr hleaf
    simp only [deserializeChildren_succ_eq, htz, List.append_assoc,
      deserializeU64Varint_of_serializeU64Varint hvb, dif_neg hlen, if_neg hshift, if_pos hbit,
      hdrop, fromU8_ofNat, Option.bind_some, mk_take_append]
  | internal leafCount =>
    -- the child's bit is clear in the leaf bitmap: its leaf count follows its hash
    change serializeU64Varint leafCount (vb ++ hash.bytes) = some cb at hcb
    rw [serializeU64Varint_append] at hcb
    obtain ⟨lb, hlb, rfl⟩ := Option.map_eq_some_iff.mp hcb
    have hbit : ¬ (l &&& 1 <<< (UInt8.ofNat n.val).toUInt16 ≠ 0) := by
      rw [and_one_shiftLeft_ne_zero_iff, hleaf]
      exact Bool.false_ne_true
    have hdrop' : (hash.bytes ++ (lb ++ reader)).drop 32 = lb ++ reader :=
      List.drop_left' hash.length_bytes
    simp only [deserializeChildren_succ_eq, htz, List.append_assoc,
      deserializeU64Varint_of_serializeU64Varint hvb, List.length_append, hash.length_bytes,
      dif_neg (by omega : ¬ 32 + (lb.length + reader.length) < 32), if_neg hshift, if_neg hbit,
      hdrop', deserializeU64Varint_of_serializeU64Varint hlb, Except.map, fromU8_ofNat,
      Option.bind_some, mk_take_append]
  | null => cases hcb

/-- In children sorted by nibble, every nibble after the first is above it. -/
private theorem lt_of_mem_nibbles {n : Nibble} {children : List (Nibble × Child)} {i : Nat}
    (hlt : ∀ b ∈ children.map (·.1), n < b) (h : i ∈ nibbles children) : n.val < i := by
  obtain ⟨c, hc, rfl⟩ := List.mem_map.mp h
  exact hlt c.1 (List.mem_map_of_mem hc)

/-- The reader's loop over what the writer's loop wrote, the existence bitmap holding exactly the
nibbles of the children still to read: it reads them all back, in order, and leaves the bitmap
empty. The induction is on those children; their order makes the first one's nibble the lowest
bit of the bitmap, and clearing it leaves the bits of the others. -/
theorem deserializeChildren_serializeChildren (l : UInt16) (children : List (Nibble × Child)) :
    ∀ (e : UInt16) (acc : List (Nibble × Child)) (bytes : List UInt8),
      (children.map (·.1)).Pairwise (· < ·) → serializeChildren children [] = some bytes →
      (∀ i, e.toNat.testBit i = true ↔ i ∈ nibbles children) →
      (∀ c ∈ children, l.toNat.testBit c.1.val = c.2.isLeaf) →
      deserializeChildren (Bits.countOnes 16 e.toNat) e l bytes acc =
        some (.ok (0, acc ++ children)) := by
  induction children with
  | nil =>
    intro e acc bytes _ hser hbits _
    cases hser
    have he : e = 0 := UInt16.toNat_inj.mp (Nat.eq_of_testBit_eq fun i => by
      simpa [nibbles_nil] using hbits i)
    subst he
    simp [deserializeChildren_zero]
  | cons c children ih =>
    intro e acc bytes hsorted hser hbits hleaf
    obtain ⟨n, child⟩ := c
    obtain ⟨hlt, hsorted'⟩ := List.pairwise_cons.mp hsorted
    obtain ⟨cb, rest, hcb, hrest, rfl⟩ := serializeChildren_cons_eq_some hser
    have hmem : ∀ i, i ∈ nibbles ((n, child) :: children) ↔ i = n.val ∨ i ∈ nibbles children :=
      fun i => by rw [nibbles_cons, List.mem_cons]
    -- the first child's nibble is the lowest bit of the bitmap
    have hbit : e.toNat.testBit n.val = true := (hbits n.val).mpr ((hmem _).mpr (Or.inl rfl))
    have hlow : ∀ i < n.val, e.toNat.testBit i = false := by
      intro i hi
      rw [← Bool.not_eq_true, hbits, hmem]
      rintro (rfl | h)
      · exact Nat.lt_irrefl _ hi
      · exact Nat.lt_asymm hi (lt_of_mem_nibbles hlt h)
    have htz : Bits.trailingZeros 16 e.toNat = n.val := Bits.trailingZeros_eq n.isLt hlow hbit
    -- clearing it leaves the bits of the others
    have hclear := testBit_clearBit e n.isLt
    have hbits' : ∀ i, (e &&& ~~~(1 <<< (UInt8.ofNat n.val).toUInt16)).toNat.testBit i = true ↔
        i ∈ nibbles children := by
      intro i
      rw [hclear, Bool.and_eq_true, hbits, hmem, bne_iff_ne, ne_eq]
      constructor
      · rintro ⟨rfl | h, hne⟩
        · exact absurd rfl hne
        · exact h
      · intro h
        exact ⟨Or.inr h, Nat.ne_of_gt (lt_of_mem_nibbles hlt h)⟩
    rw [Bits.countOnes_eq_succ_of_testBit n.isLt hbit hclear,
      deserializeChildren_succ _ rest acc hcb htz (hleaf _ List.mem_cons_self),
      ih _ _ rest hsorted' hrest hbits' (fun c hc => hleaf c (List.mem_cons_of_mem _ hc))]
    simp

end Children

/-! ### The round trip -/

theorem newImpl_of_new {children : List (Nibble × Child)} {node : InternalNode}
    (h : new children = some node) : newImpl children = some (.ok node) := by
  unfold new at h
  rcases hi : newImpl children with _ | (_ | node')
  all_goals rw [hi] at h
  all_goals cases h
  rfl

/-- What `new_impl` checks of the children it accepts. -/
theorem newImpl_eq_ok {children : List (Nibble × Child)} {node : InternalNode}
    (h : newImpl children = some (.ok node)) :
    node.children = children ∧ children ≠ [] ∧ sumLeafCounts children = some node.leafCount := by
  unfold newImpl at h
  by_cases hnil : children.isEmpty
  · rw [if_pos hnil] at h
    cases h
  · rw [if_neg hnil] at h
    obtain ⟨leafCount, hsum, hnode⟩ := Option.map_eq_some_iff.mp h
    cases hnode
    exact ⟨rfl, by simpa using hnil, hsum⟩

private theorem foldl_addLeafCount_none (children : List (Nibble × Child)) :
    children.foldl addLeafCount none = none := by
  induction children with
  | nil => rfl
  | cons c children ih => exact ih

/-- A sum that does not panic met no `Null` child. -/
theorem nodeType_ne_null_of_foldl {children : List (Nibble × Child)} {sum : Option UInt64}
    {total : UInt64} (h : children.foldl addLeafCount sum = some total) :
    ∀ c ∈ children, c.2.nodeType ≠ .null := by
  induction children generalizing sum with
  | nil => simp
  | cons c children ih =>
    intro c' hc' hnull
    rw [List.foldl_cons] at h
    rcases List.mem_cons.mp hc' with rfl | hc'
    · -- the `unreachable!` of the `Null` child stops the sum
      have hstep : addLeafCount sum c' = none := by
        cases sum with
        | none => rfl
        | some s =>
          delta addLeafCount
          rw [Child.leafCount_of_null hnull]
          rfl
      rw [hstep, foldl_addLeafCount_none] at h
      cases h
    · exact ih h c' hc' hnull

theorem serialize_append (self : InternalNode) (binary : List UInt8) :
    self.serialize binary = (self.serialize []).map (binary ++ ·) := by
  simp only [serialize_eq, List.nil_append]
  rw [serializeChildren_append, serializeChildren_append self.children (Bytes.toLe 2 _ ++ _)]
  cases serializeChildren self.children [] <;> simp

/-- An internal node built by `InternalNode::new` from children sorted by distinct nibbles is
written without panicking and read back from what is written. -/
theorem deserialize_serialize {children : List (Nibble × Child)} {node : InternalNode}
    (hnew : new children = some node) (hsorted : (children.map (·.1)).Pairwise (· < ·)) :
    ∃ bytes, node.serialize [] = some bytes ∧ deserialize bytes = some (.ok node) := by
  have hok := newImpl_of_new hnew
  obtain ⟨hchildren, hne, hsum⟩ := newImpl_eq_ok hok
  obtain ⟨cbytes, hc⟩ := serializeChildren_isSome (nodeType_ne_null_of_foldl hsum)
  set e := (children.foldl addToBitmaps (0, 0)).1 with he
  set l := (children.foldl addToBitmaps (0, 0)).2 with hl
  -- the bits of the two bitmaps
  have hbits : ∀ i, e.toNat.testBit i = true ↔ i ∈ nibbles children := fun i => by
    simpa using testBit_foldl_addToBitmaps_fst children (0, 0) i
  have hleafBits : ∀ i, l.toNat.testBit i = true ↔
      ∃ c ∈ children, c.1.val = i ∧ c.2.isLeaf = true := fun i => by
    simpa using testBit_foldl_addToBitmaps_snd children (0, 0) i
  have hnodup : (children.map (·.1)).Nodup := hsorted.imp (fun h => ne_of_lt h)
  have hleaf : ∀ c ∈ children, l.toNat.testBit c.1.val = c.2.isLeaf := by
    intro c hc
    rw [Bool.eq_iff_iff, hleafBits]
    constructor
    · rintro ⟨c', hc', hnib, hleaf'⟩
      rw [List.inj_on_of_nodup_map hnodup hc' hc (Fin.ext hnib)] at hleaf'
      exact hleaf'
    · exact fun h => ⟨c, hc, rfl, h⟩
  -- the checks of `deserialize` on the bitmaps pass
  have hne0 : e ≠ 0 := by
    obtain ⟨c, hc⟩ := List.exists_mem_of_ne_nil children hne
    intro h0
    have := (hbits c.1.val).mpr (List.mem_map_of_mem hc)
    rw [h0] at this
    simp at this
  have hsub : e &&& l = l := UInt16.toNat_inj.mp (Nat.eq_of_testBit_eq fun i => by
    rw [UInt16.toNat_and, Nat.testBit_and, Bool.eq_iff_iff, Bool.and_eq_true, hbits, hleafBits]
    constructor
    · exact fun h => h.2
    · rintro ⟨c, hc, rfl, hleaf'⟩
      exact ⟨List.mem_map_of_mem hc, c, hc, rfl, hleaf'⟩)
  have hofNat : ∀ b : UInt16, UInt16.ofNat (b.toNat % 256 ^ 2) = b := fun b => by
    rw [Nat.mod_eq_of_lt (by simpa using b.toNat_lt), UInt16.ofNat_toNat]
  refine ⟨Bytes.toLe 2 e.toNat ++ (Bytes.toLe 2 l.toNat ++ cbytes), ?_, ?_⟩
  · rw [← hchildren] at hc
    simp only [serialize_eq, ← he, ← hl, hchildren]
    rw [serializeChildren_append, ← hchildren, hc]
    simp
  · unfold deserialize
    simp only [Bytes.readLe_toLe_append, hofNat]
    rw [if_neg hne0, if_neg (not_not.mpr hsub),
      deserializeChildren_serializeChildren l children e [] cbytes hsorted hc hbits hleaf]
    simpa using hok

end InternalNode

/-- What the model asks of `bcs` for the key type `K`: a decoder that reads back what the encoder
wrote and leaves what follows. -/
structure BcsCodec (K : Type) where
  encode : K → List UInt8
  decode : List UInt8 → Option (K × List UInt8)
  decode_encode : ∀ k rest, decode (encode k ++ rest) = some (k, rest)

/-- `LeafNode`: the hashed key, the value's hash, and the key and version of the value. -/
structure LeafNode (K : Type) where
  accountKey : HashValue
  valueHash : HashValue
  valueIndex : K × UInt64

namespace LeafNode

variable {K : Type}

/-- `bcs::to_bytes` of a leaf: its fields in order, a hash as its 32 bytes, the version as eight
little-endian bytes. -/
def toBytes (codec : BcsCodec K) (self : LeafNode K) : List UInt8 :=
  self.accountKey.bytes ++ self.valueHash.bytes ++ codec.encode self.valueIndex.1 ++
    Bytes.toLe 8 self.valueIndex.2.toNat

/-- A `HashValue` read by `bcs`: 32 bytes. -/
def readHash (reader : List UInt8) : Option (HashValue × List UInt8) :=
  if h : 32 ≤ reader.length then
    some (⟨reader.take 32, by simp only [List.length_take]; omega⟩, reader.drop 32)
  else none

/-- `bcs::from_bytes` of a leaf, which fails on input left over. -/
def fromBytes (codec : BcsCodec K) (bytes : List UInt8) : Except DecodeError (LeafNode K) :=
  let read : Option (LeafNode K × List UInt8) := do
    let (accountKey, reader) ← readHash bytes
    let (valueHash, reader) ← readHash reader
    let (key, reader) ← codec.decode reader
    let (version, reader) ← Bytes.readLe 8 reader
    pure (⟨accountKey, valueHash, (key, UInt64.ofNat version)⟩, reader)
  match read with
  | some (leaf, []) => .ok leaf
  | _ => .error .bcs

theorem readHash_append (hash : HashValue) (rest : List UInt8) :
    readHash (hash.bytes ++ rest) = some (hash, rest) := by
  obtain ⟨bytes, hbytes⟩ := hash
  unfold readHash
  rw [dif_pos (by simp [hbytes])]
  simp only [Option.some.injEq, Prod.mk.injEq, HashValue.mk.injEq]
  exact ⟨List.take_left' hbytes, List.drop_left' hbytes⟩

/-- A leaf is read back from its `bcs` bytes. -/
theorem fromBytes_toBytes (codec : BcsCodec K) (leaf : LeafNode K) :
    fromBytes codec (leaf.toBytes codec) = .ok leaf := by
  obtain ⟨accountKey, valueHash, key, version⟩ := leaf
  have hversion : UInt64.ofNat (version.toNat % 256 ^ 8) = version := by
    rw [Nat.mod_eq_of_lt (by simpa using version.toNat_lt), UInt64.ofNat_toNat]
  have hlast : Bytes.toLe 8 version.toNat = Bytes.toLe 8 version.toNat ++ [] :=
    (List.append_nil _).symm
  unfold fromBytes toBytes
  rw [hlast]
  simp only [List.append_assoc, readHash_append, Option.bind_eq_bind, Option.bind_some,
    codec.decode_encode, Bytes.readLe_toLe_append, hversion]
  rfl

end LeafNode

/-- `Node`. -/
inductive Node (K : Type)
  | internal (node : InternalNode)
  | leaf (node : LeafNode K)
  | null

/-- `NodeTag`, the lead byte of an encoded node. -/
inductive NodeTag
  | leaf
  | internal
  | null
  deriving DecidableEq, Repr

namespace NodeTag

/-- The tag's byte: `Leaf = 1`, `Internal = 2`, `Null = 3`. -/
def toU8 : NodeTag → UInt8
  | leaf => 1
  | internal => 2
  | null => 3

/-- `NodeTag::from_u8`. -/
def fromU8 (tag : UInt8) : Option NodeTag :=
  if tag = 1 then some leaf else if tag = 2 then some internal else if tag = 3 then some null
  else none

theorem fromU8_toU8 (tag : NodeTag) : fromU8 tag.toU8 = some tag := by
  cases tag <;> rfl

end NodeTag

namespace Node

variable {K : Type}

/-- `Node::encode`; `none` is a panic. -/
def encode (codec : BcsCodec K) : Node K → Option (List UInt8)
  | internal node => node.serialize [NodeTag.internal.toU8]
  | leaf node => some (NodeTag.leaf.toU8 :: node.toBytes codec)
  | null => some [NodeTag.null.toU8]

/-- `Node::decode`; `none` is a panic. -/
def decode (codec : BcsCodec K) (val : List UInt8) : Option (Except DecodeError (Node K)) :=
  match val with
  | [] => some (.error .emptyInput)
  | tag :: rest =>
    match NodeTag.fromU8 tag with
    | some .internal => (InternalNode.deserialize rest).map fun r => r.map internal
    | some .leaf => some ((LeafNode.fromBytes codec rest).map leaf)
    | some .null => some (.ok null)
    | none => some (.error (.unknownTag tag))

theorem decode_cons (codec : BcsCodec K) (tag : UInt8) (rest : List UInt8) :
    decode codec (tag :: rest) =
      match NodeTag.fromU8 tag with
      | some .internal => (InternalNode.deserialize rest).map fun r => r.map internal
      | some .leaf => some ((LeafNode.fromBytes codec rest).map leaf)
      | some .null => some (.ok null)
      | none => some (.error (.unknownTag tag)) := rfl

/-- The nodes the tree builds: an internal node is what `InternalNode::new` makes of its
children, which are sorted by distinct nibbles; any leaf; `Null`. -/
def BuiltByTree : Node K → Prop
  | internal node =>
    InternalNode.new node.children = some node ∧ (node.children.map (·.1)).Pairwise (· < ·)
  | leaf _ => True
  | null => True

/-- Every node the tree builds is encoded without panicking, and decoded from its encoding. -/
theorem decode_encode (codec : BcsCodec K) {node : Node K} (h : node.BuiltByTree) :
    ∃ bytes, node.encode codec = some bytes ∧ decode codec bytes = some (.ok node) := by
  cases node with
  | internal node =>
    obtain ⟨bytes, hser, hde⟩ := InternalNode.deserialize_serialize h.1 h.2
    refine ⟨NodeTag.internal.toU8 :: bytes, ?_, ?_⟩
    · change node.serialize [NodeTag.internal.toU8] = _
      rw [InternalNode.serialize_append, hser]
      rfl
    · rw [decode_cons, NodeTag.fromU8_toU8]
      simp [hde, Except.map]
  | leaf node =>
    refine ⟨_, rfl, ?_⟩
    rw [decode_cons, NodeTag.fromU8_toU8]
    simp [LeafNode.fromBytes_toBytes, Except.map]
  | null => exact ⟨_, rfl, rfl⟩

end Node

/-- The storage encodings of the tree round-trip: every node the tree builds is decoded from its
encoding; a version is read back from its varint, which is consumed exactly; a node key with a
well-formed path is decoded from its encoding, the decoder accepts nothing else, and encodings
compare, byte by byte, as the keys do. -/
theorem node_encodings_round_trip :
    (∀ (K : Type) (codec : BcsCodec K) (node : Node K), node.BuiltByTree →
      ∃ bytes, node.encode codec = some bytes ∧ Node.decode codec bytes = some (.ok node)) ∧
    (∀ x : UInt64, ∃ bytes, serializeU64Varint x [] = some bytes ∧
      ∀ rest, deserializeU64Varint (bytes ++ rest) = .ok (x, rest)) ∧
    (∀ k : NodeKey, k.nibblePath.WellFormed → NodeKey.decode k.encode = some (.ok k)) ∧
    (∀ (val : List UInt8) (k : NodeKey), NodeKey.decode val = some (.ok k) →
      k.nibblePath.WellFormed ∧ k.encode = val) ∧
    (∀ k₁ k₂ : NodeKey, k₁.nibblePath.WellFormed → k₂.nibblePath.WellFormed →
      (k₁ < k₂ ↔ k₁.encode < k₂.encode)) := by
  refine ⟨fun K codec node h => Node.decode_encode codec h, fun x => ?_,
    fun k hk => NodeKey.decode_encode hk, fun val k h => NodeKey.decode_eq_some_ok h,
    fun k₁ k₂ h₁ h₂ => (NodeKey.encode_lt_encode_iff h₁ h₂).symm⟩
  obtain ⟨bytes, hw, -⟩ := deserializeU64Varint_serializeU64Varint x []
  exact ⟨bytes, hw, deserializeU64Varint_of_serializeU64Varint hw⟩

end Jellyfish

end CreditChain
