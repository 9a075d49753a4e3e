import CreditChain.Types.ValidatorVerifier

/-!
# Restoring a state snapshot chunk by chunk

`StateSnapshotRestore::add_chunk` of `creditchaindb/src/state_restore/mod.rs`: in the default
mode it runs, side by side, `StateValueRestore::add_chunk`, which writes the chunk's values and the
restore progress, and `JellyfishMerkleRestore::add_chunk_impl` of
`jellyfish-merkle/src/restore/mod.rs`, which adds the chunk's leaves to the partial tree, checks
the range proof, and only then writes the frozen nodes. The partial tree itself is left abstract:
`TreeOps` gives what `add_one`, `verify` and the frozen nodes do to it.

* `addLeaves_eq_ok`: the loop of `add_chunk_impl` over keys in increasing order records every leaf
  and counts it;
* `addChunkImpl_of_rejected`: when the proof is rejected, the leaves have been added all the same;
* `addChunk_rejected_chunk_persists`: a chunk whose proof is rejected leaves its values, the
  progress and the previous leaf behind, so that the correct chunk, sent again, is skipped by both
  halves and its values never written.
-/

namespace CreditChain

namespace StateRestore

/-- `Version`. -/
abbrev Version := UInt64

/-- `StateStorageUsage`. -/
inductive StateStorageUsage
  | tracked (items bytes : Nat)
  | untracked
  deriving DecidableEq, Repr

namespace StateStorageUsage

/-- `StateStorageUsage::zero`. -/
def zero : StateStorageUsage := .tracked 0 0

/-- `StateStorageUsage::add_item`. -/
def addItem : StateStorageUsage → Nat → StateStorageUsage
  | .tracked items bytes, bytesDelta => .tracked (items + 1) (bytes + bytesDelta)
  | .untracked, _ => .untracked

end StateStorageUsage

/-- `StateSnapshotProgress`: the hash of the last key written, and the usage so far. -/
structure StateSnapshotProgress where
  keyHash : HashValue
  usage : StateStorageUsage
  deriving DecidableEq, Repr

/-- What restoring reads of keys and values: the `CryptoHash` of a key, the hash of a value, and
their sizes. -/
structure KeyValueOps (K V : Type) where
  keyHash : K → HashValue
  valueHash : V → HashValue
  keySize : K → Nat
  valueSize : V → Nat

/-- The state value store, as `StateValueWriter` reads and writes it: the value of each key at
each version (`none` inside a deletion), and the restore progress of each version. -/
structure StateValueDb (K V : Type) where
  kv : K × Version → Option (Option V)
  progress : Version → Option StateSnapshotProgress

namespace StateValueDb

variable {K V : Type} [DecidableEq K]

/-- `write_kv_batch`: the progress and the batch, in one commit. -/
def writeKvBatch (self : StateValueDb K V) (version : Version)
    (kvBatch : List ((K × Version) × Option V)) (progress : StateSnapshotProgress) :
    StateValueDb K V :=
  { kv := kvBatch.foldl (fun kv e => Function.update kv e.1 (some e.2)) self.kv
    progress := Function.update self.progress version (some progress) }

end StateValueDb

/-- `StateValueRestore::add_chunk`: the keys up to the progress are skipped, and the rest is
written with the new progress. -/
def StateValueRestore.addChunk {K V : Type} [DecidableEq K] (ops : KeyValueOps K V)
    (db : StateValueDb K V) (version : Version) (chunk : List (K × V)) : StateValueDb K V :=
  let progressOpt := db.progress version
  -- skip overlaps
  let chunk : List (K × V) :=
    match progressOpt with
    | some progress => chunk.drop (chunk.findIdx fun e => progress.keyHash < ops.keyHash e.1)
    | none => chunk
  match chunk.getLast? with
  | none => db
  | some (lastKey, _) =>
    let usage := chunk.foldl
      (fun (usage : StateStorageUsage) e => usage.addItem (ops.keySize e.1 + ops.valueSize e.2))
      ((progressOpt.map (·.usage)).getD .zero)
    db.writeKvBatch version (chunk.map fun e => ((e.1, version), some e.2))
      ⟨ops.keyHash lastKey, usage⟩

/-- `LeafNode`: the hashed key, the value hash, and the key with its version. -/
structure LeafNode (K : Type) where
  accountKey : HashValue
  valueHash : HashValue
  valueIndex : K × Version
  deriving DecidableEq, Repr

/-- What `JellyfishMerkleRestore` does with its partial nodes and frozen nodes `P`, left abstract:
`add_one` adds a leaf, `verify` checks a range proof against the expected root hash from the
partial nodes and the previous leaf's key and value hash, and the frozen nodes are written as a
batch `F` and cleared. -/
structure TreeOps (K P Proof F : Type) where
  addOne : P → K → HashValue → P
  verify : HashValue → P → HashValue → HashValue → Proof → Bool
  frozenNodes : P → F
  clearFrozen : P → P

/-- The errors of `add_chunk_impl`. -/
inductive RestoreError
  /-- "State keys must come in increasing order." -/
  | keysNotIncreasing
  /-- The range proof does not verify. -/
  | proofRejected
  deriving DecidableEq, Repr

/-- `JellyfishMerkleRestore`, with the node batches written to the tree store. -/
structure JellyfishMerkleRestore (K P F : Type) where
  version : Version
  partialNodes : P
  previousLeaf : Option (LeafNode K)
  numKeysReceived : Nat
  expectedRootHash : HashValue
  finished : Bool
  written : List F

namespace JellyfishMerkleRestore

variable {K P Proof F : Type}

/-- The keys of a chunk above the previous leaf; `none` when the whole chunk is skipped. -/
def skipAdded (keyHash : K → HashValue) (self : JellyfishMerkleRestore K P F)
    (chunk : List (K × HashValue)) : Option (List (K × HashValue)) :=
  match self.previousLeaf with
  | none => some chunk
  | some prevLeaf =>
    (chunk.findIdx? fun e => prevLeaf.accountKey < keyHash e.1).map chunk.drop

theorem skipAdded_of_none {keyHash : K → HashValue} {self : JellyfishMerkleRestore K P F}
    {chunk : List (K × HashValue)} (h : self.previousLeaf = none) :
    self.skipAdded keyHash chunk = some chunk := by
  delta skipAdded
  rw [h]

theorem skipAdded_of_some {keyHash : K → HashValue} {self : JellyfishMerkleRestore K P F}
    {chunk : List (K × HashValue)} {prevLeaf : LeafNode K} (h : self.previousLeaf = some prevLeaf) :
    self.skipAdded keyHash chunk =
      (chunk.findIdx? fun e => prevLeaf.accountKey < keyHash e.1).map chunk.drop := by
  delta skipAdded
  rw [h]

/-- The loop of `add_chunk_impl`: each key must be above the previous leaf; it becomes the
previous leaf, is added to the partial nodes and counted. An error keeps what was done. -/
def addLeaves (treeOps : TreeOps K P Proof F) (keyHash : K → HashValue) :
    JellyfishMerkleRestore K P F → List (K × HashValue) →
      JellyfishMerkleRestore K P F × Except RestoreError Unit
  | self, [] => (self, .ok ())
  | self, (key, valueHash) :: chunk =>
    let hashedKey := keyHash key
    if self.previousLeaf.all fun prevLeaf => prevLeaf.accountKey < hashedKey then
      addLeaves treeOps keyHash
        { self with
          previousLeaf := some ⟨hashedKey, valueHash, (key, self.version)⟩
          partialNodes := treeOps.addOne self.partialNodes key valueHash
          numKeysReceived := self.numKeysReceived + 1 } chunk
    else (self, .error .keysNotIncreasing)

/-- `JellyfishMerkleRestore::add_chunk_impl`; `none` is a panic. The frozen nodes are written
only once the proof verifies; the leaves are added before. -/
def addChunkImpl (treeOps : TreeOps K P Proof F) (keyHash : K → HashValue)
    (self : JellyfishMerkleRestore K P F) (chunk : List (K × HashValue)) (proof : Proof) :
    Option (JellyfishMerkleRestore K P F × Except RestoreError Unit) :=
  if self.finished then some (self, .ok ())
  else
    match self.skipAdded keyHash chunk with
    | none => some (self, .ok ())
    | some chunk =>
      if chunk.isEmpty then some (self, .ok ())
      else
        match addLeaves treeOps keyHash self chunk with
        | (self, .error e) => some (self, .error e)
        | (self, .ok ()) =>
          -- `verify` expects the previous leaf
          match self.previousLeaf with
          | none => none
          | some previousLeaf =>
            if treeOps.verify self.expectedRootHash self.partialNodes previousLeaf.accountKey
                previousLeaf.valueHash proof then
              some ({ self with
                written := self.written ++ [treeOps.frozenNodes self.partialNodes]
                partialNodes := treeOps.clearFrozen self.partialNodes }, .ok ())
            else some (self, .error .proofRejected)

/-- The leaf `add_chunk_impl` records for a key and its value hash. -/
def leafOf (keyHash : K → HashValue) (self : JellyfishMerkleRestore K P F)
    (e : K × HashValue) : LeafNode K :=
  ⟨keyHash e.1, e.2, (e.1, self.version)⟩

/-- The restore after the loop has added the leaves `e :: es`: the last is the previous leaf, all
are counted and added to the partial nodes. -/
def withLeaves (treeOps : TreeOps K P Proof F) (keyHash : K → HashValue)
    (self : JellyfishMerkleRestore K P F) (e : K × HashValue) (es : List (K × HashValue)) :
    JellyfishMerkleRestore K P F :=
  { self with
    previousLeaf := some (self.leafOf keyHash ((e :: es).getLast (List.cons_ne_nil e es)))
    partialNodes := (e :: es).foldl (fun p e => treeOps.addOne p e.1 e.2) self.partialNodes
    numKeysReceived := self.numKeysReceived + (es.length + 1) }

/-- One round of the loop: a key above the previous leaf becomes the previous leaf. -/
theorem addLeaves_cons_of_above (treeOps : TreeOps K P Proof F) (keyHash : K → HashValue)
    {self : JellyfishMerkleRestore K P F} {e : K × HashValue} (chunk : List (K × HashValue))
    (habove : ∀ prev ∈ self.previousLeaf, prev.accountKey < keyHash e.1) :
    addLeaves treeOps keyHash self (e :: chunk) =
      addLeaves treeOps keyHash
        { self with
          previousLeaf := some (self.leafOf keyHash e)
          partialNodes := treeOps.addOne self.partialNodes e.1 e.2
          numKeysReceived := self.numKeysReceived + 1 } chunk := by
  have hall : self.previousLeaf.all (fun prev => prev.accountKey < keyHash e.1) = true := by
    cases hprev : self.previousLeaf with
    | none => rfl
    | some prev => simpa using habove prev hprev
  rw [addLeaves, if_pos hall]
  rfl

/-- Over keys in increasing order, above the previous leaf, the loop of `add_chunk_impl` adds every
leaf. The induction is on the keys after the first, the first becoming the previous leaf. -/
theorem addLeaves_eq_ok (treeOps : TreeOps K P Proof F) (keyHash : K → HashValue)
    (e : K × HashValue) (es : List (K × HashValue)) :
    ∀ self : JellyfishMerkleRestore K P F,
      ((e :: es).map fun e => keyHash e.1).Pairwise (· < ·) →
      (∀ prev ∈ self.previousLeaf, prev.accountKey < keyHash e.1) →
      addLeaves treeOps keyHash self (e :: es) = (self.withLeaves treeOps keyHash e es, .ok ()) := by
  induction es generalizing e with
  | nil =>
    intro self _ habove
    rw [addLeaves_cons_of_above treeOps keyHash [] habove]
    rfl
  | cons e' es ih =>
    intro self hsorted habove
    obtain ⟨hlt, hsorted'⟩ := List.pairwise_cons.mp hsorted
    -- the first key is now the previous leaf, below the rest
    have habove' : ∀ prev ∈ some (self.leafOf keyHash e), prev.accountKey < keyHash e'.1 := by
      intro prev hprev
      cases hprev
      exact hlt _ (List.mem_cons_self ..)
    rw [addLeaves_cons_of_above treeOps keyHash _ habove, ih e' _ hsorted' habove']
    delta withLeaves
    simp only [List.getLast_cons_cons, List.foldl_cons, List.length_cons]
    congr 2
    omega

/-- `add_chunk_impl` of keys in increasing order above the previous leaf, with a proof that is
rejected: the error comes after the leaves were added, and the frozen nodes are not written. -/
theorem addChunkImpl_of_rejected (treeOps : TreeOps K P Proof F) (keyHash : K → HashValue)
    (self : JellyfishMerkleRestore K P F) (e : K × HashValue) (es : List (K × HashValue))
    (proof : Proof) (hfinished : self.finished = false)
    (hsorted : ((e :: es).map fun e => keyHash e.1).Pairwise (· < ·))
    (habove : ∀ prev ∈ self.previousLeaf, prev.accountKey < keyHash e.1)
    (hrejected : treeOps.verify self.expectedRootHash
      (self.withLeaves treeOps keyHash e es).partialNodes
      (keyHash ((e :: es).getLast (List.cons_ne_nil e es)).1)
      ((e :: es).getLast (List.cons_ne_nil e es)).2 proof = false) :
    self.addChunkImpl treeOps keyHash (e :: es) proof =
      some (self.withLeaves treeOps keyHash e es, .error .proofRejected) := by
  have hskip : self.skipAdded keyHash (e :: es) = some (e :: es) := by
    cases hprev : self.previousLeaf with
    | none => exact skipAdded_of_none hprev
    | some prev =>
      have hfirst : prev.accountKey < keyHash e.1 := habove prev hprev
      rw [skipAdded_of_some hprev]
      simp [List.findIdx?_cons, hfirst]
  rw [addChunkImpl, if_neg (by simp [hfinished]), hskip]
  simp only [List.isEmpty_cons, Bool.false_eq_true, if_false,
    addLeaves_eq_ok treeOps keyHash e es self hsorted habove]
  delta withLeaves leafOf at hrejected ⊢
  simp only [List.foldl_cons] at hrejected ⊢
  simp [hrejected]

end JellyfishMerkleRestore

/-- `StateSnapshotRestoreMode`. -/
inductive StateSnapshotRestoreMode
  | default
  | kvOnly
  | treeOnly
  deriving DecidableEq, Repr

/-- `StateSnapshotRestore`: the value store with the version restored, and the tree restore. -/
structure StateSnapshotRestore (K V P F : Type) where
  db : StateValueDb K V
  version : Version
  tree : JellyfishMerkleRestore K P F
  restoreMode : StateSnapshotRestoreMode

namespace StateSnapshotRestore

variable {K V P Proof F : Type} [DecidableEq K]

/-- `StateSnapshotRestore::add_chunk`; `none` is a panic. In the default mode both halves run,
and the error of either is returned. -/
def addChunk (ops : KeyValueOps K V) (treeOps : TreeOps K P Proof F)
    (self : StateSnapshotRestore K V P F) (chunk : List (K × V)) (proof : Proof) :
    Option (StateSnapshotRestore K V P F × Except RestoreError Unit) :=
  let kvFn := StateValueRestore.addChunk ops self.db self.version chunk
  let treeFn := self.tree.addChunkImpl treeOps ops.keyHash
    (chunk.map fun e => (e.1, ops.valueHash e.2)) proof
  match self.restoreMode with
  | .kvOnly => some ({ self with db := kvFn }, .ok ())
  | .treeOnly => treeFn.map fun r => ({ self with tree := r.1 }, r.2)
  | .default => treeFn.map fun r => ({ self with db := kvFn, tree := r.1 }, r.2)

theorem addChunk_of_default {ops : KeyValueOps K V} {treeOps : TreeOps K P Proof F}
    {self : StateSnapshotRestore K V P F} {chunk : List (K × V)} {proof : Proof}
    (h : self.restoreMode = .default) :
    self.addChunk ops treeOps chunk proof =
      (self.tree.addChunkImpl treeOps ops.keyHash (chunk.map fun e => (e.1, ops.valueHash e.2))
        proof).map fun r =>
          ({ self with db := StateValueRestore.addChunk ops self.db self.version chunk, tree := r.1 },
            r.2) := by
  delta addChunk
  rw [h]

/-- In the default mode, a chunk of keys in increasing order above the previous leaf whose proof
is rejected: `add_chunk` fails, but the value store has taken the chunk and its progress, and the
tree restore its leaves. -/
theorem addChunk_of_rejected (ops : KeyValueOps K V) (treeOps : TreeOps K P Proof F)
    (self : StateSnapshotRestore K V P F) (e : K × V) (es : List (K × V)) (proof : Proof)
    (hmode : self.restoreMode = .default) (hfinished : self.tree.finished = false)
    (hsorted : ((e :: es).map fun e => ops.keyHash e.1).Pairwise (· < ·))
    (habove : ∀ prev ∈ self.tree.previousLeaf, prev.accountKey < ops.keyHash e.1)
    (hrejected : treeOps.verify self.tree.expectedRootHash
      (self.tree.withLeaves treeOps ops.keyHash (e.1, ops.valueHash e.2)
        (es.map fun e => (e.1, ops.valueHash e.2))).partialNodes
      (ops.keyHash ((e :: es).getLast (List.cons_ne_nil e es)).1)
      (ops.valueHash ((e :: es).getLast (List.cons_ne_nil e es)).2) proof = false) :
    self.addChunk ops treeOps (e :: es) proof =
      some ({ self with
        db := StateValueRestore.addChunk ops self.db self.version (e :: es)
        tree := self.tree.withLeaves treeOps ops.keyHash (e.1, ops.valueHash e.2)
          (es.map fun e => (e.1, ops.valueHash e.2)) }, .error .proofRejected) := by
  have hlast : ((e.1, ops.valueHash e.2) :: es.map fun e => (e.1, ops.valueHash e.2)).getLast
      (List.cons_ne_nil _ _) =
      (((e :: es).getLast (List.cons_ne_nil e es)).1,
        ops.valueHash ((e :: es).getLast (List.cons_ne_nil e es)).2) := by
    change ((e :: es).map fun e => (e.1, ops.valueHash e.2)).getLast (by simp) = _
    rw [List.getLast_map]
  have himpl := JellyfishMerkleRestore.addChunkImpl_of_rejected treeOps ops.keyHash self.tree
    (e.1, ops.valueHash e.2) (es.map fun e => (e.1, ops.valueHash e.2)) proof hfinished (by simpa [List.map_map, Function.comp_def] using hsorted) habove
    (by rw [hlast]; exact hrejected)
  rw [addChunk_of_default hmode, List.map_cons, himpl]
  rfl

/-- A chunk whose keys are all at or below the progress of the value store and the previous leaf
of the tree restore, in the default mode, is skipped by both halves: nothing changes. -/
theorem addChunk_of_received (ops : KeyValueOps K V) (treeOps : TreeOps K P Proof F)
    {self : StateSnapshotRestore K V P F} {chunk : List (K × V)} (proof : Proof)
    {progress : StateSnapshotProgress} {prev : LeafNode K}
    (hmode : self.restoreMode = .default)
    (hprogress : self.db.progress self.version = some progress)
    (hprev : self.tree.previousLeaf = some prev)
    (hkv : ∀ e ∈ chunk, ops.keyHash e.1 ≤ progress.keyHash)
    (htree : ∀ e ∈ chunk, ops.keyHash e.1 ≤ prev.accountKey) :
    self.addChunk ops treeOps chunk proof = some (self, .ok ()) := by
  -- the value half skips the whole chunk
  have hidx : chunk.findIdx (fun e => decide (progress.keyHash < ops.keyHash e.1)) =
      chunk.length := by
    rw [List.findIdx_eq_length]
    intro e he
    simpa using hkv e he
  have hkvFn : StateValueRestore.addChunk ops self.db self.version chunk = self.db := by
    simp [StateValueRestore.addChunk, hprogress, hidx]
  -- and so does the tree half
  have htreeFn : self.tree.addChunkImpl treeOps ops.keyHash
      (chunk.map fun e => (e.1, ops.valueHash e.2)) proof = some (self.tree, .ok ()) := by
    have hskip : self.tree.skipAdded ops.keyHash (chunk.map fun e => (e.1, ops.valueHash e.2)) =
        none := by
      simp only [JellyfishMerkleRestore.skipAdded_of_some hprev, Option.map_eq_none_iff,
        List.findIdx?_eq_none_iff, List.mem_map, decide_eq_false_iff_not, not_lt]
      rintro _ ⟨e, he, rfl⟩
      exact htree e he
    unfold JellyfishMerkleRestore.addChunkImpl
    split
    · rfl
    · rw [hskip]
  rw [addChunk_of_default hmode, htreeFn, hkvFn, Option.map_some]

end StateSnapshotRestore

/-- Keys and values that are numbers, each its own hash and one byte long. -/
def natOps : KeyValueOps Nat Nat := ⟨id, id, fun _ => 1, fun _ => 1⟩

/-- A partial tree kept as the list of its leaves, written whole, and a range proof that is its
own verdict. -/
def leafListOps : TreeOps Nat (List (Nat × HashValue)) Bool (List (Nat × HashValue)) :=
  ⟨fun p k h => p ++ [(k, h)], fun _ _ _ _ proof => proof, id, fun _ => []⟩

/-- A restore of version 0 in the default mode, with nothing received. -/
def freshRestore :
    StateSnapshotRestore Nat Nat (List (Nat × HashValue)) (List (Nat × HashValue)) :=
  ⟨⟨fun _ => none, fun _ => none⟩, 0, ⟨0, [], none, 0, 0, false, []⟩, .default⟩

/-- The chunk holding key 5 with the wrong value 1 and a rejected proof fails, but leaves the
value 1, the progress at key 5 and the previous leaf 5 behind. The correct chunk, key 5 with value
2, sent again with a proof that verifies, is then accepted and skipped by both halves: the value
stays 1 and no node batch is written, where a restore that never saw the bad chunk holds 2. -/
theorem addChunk_rejected_chunk_persists :
    ∃ s, freshRestore.addChunk natOps leafListOps [(5, 1)] false = some (s, .error .proofRejected) ∧
      s.db.progress 0 = some ⟨5, .tracked 1 2⟩ ∧ s.tree.numKeysReceived = 1 ∧
      s.addChunk natOps leafListOps [(5, 2)] true = some (s, .ok ()) ∧
      s.db.kv (5, 0) = some (some 1) ∧ s.tree.written = [] ∧
      ∃ s', freshRestore.addChunk natOps leafListOps [(5, 2)] true = some (s', .ok ()) ∧
        s'.db.kv (5, 0) = some (some 2) := by
  have hbad := StateSnapshotRestore.addChunk_of_rejected natOps leafListOps freshRestore (5, 1) []
    false rfl rfl
    (List.pairwise_singleton _ _) (fun _ h => nomatch h) rfl
  refine ⟨_, hbad, rfl, rfl, ?_, rfl, rfl, _, rfl, rfl⟩
  -- the correct chunk is at the progress and at the previous leaf: both halves skip it
  exact StateSnapshotRestore.addChunk_of_received natOps leafListOps true rfl rfl rfl
    (fun e he => by simp at he; subst he; decide) (fun e he => by simp at he; subst he; decide)

end StateRestore

end CreditChain
