import CreditChain.Lib.Bytes

/-!
# Node keys of the Jellyfish Merkle tree

`NodeKey` of `jellyfish-merkle/src/node_type/mod.rs` and the `NibblePath` it holds
(`types/src/nibble/nibble_path/mod.rs`), with the storage encoding of a key: its version in eight
big-endian bytes, the number of nibbles in one byte, and the path's bytes.

* `decode_encode`: a key whose path keeps `NibblePath`'s invariant (`NibblePath.WellFormed`)
  decodes from its encoding;
* `decode_eq_some_ok`: what `decode` accepts is the encoding of such a key, and nothing else;
* `decode_ne_none`: `decode` never panics;
* `encode_lt_encode_iff`: encodings compare, as byte strings, as the keys do under their derived
  order, so the storage order is the in-memory order.

`DecodeError` also names the failures of decoding a node, in `Jellyfish.Node`.
-/

namespace CreditChain

/-- The failures of decoding the tree's storage formats, with the values their messages print. -/
inductive DecodeError
  /-- A reader ran out of bytes ("failed to fill whole buffer"). -/
  | unexpectedEof
  /-- "Invalid number of nibbles: {}" -/
  | invalidNumNibbles (numNibbles : Nat)
  /-- "encoded num_nibbles {} mismatches nibble path bytes {:?}" -/
  | numNibblesMismatch (numNibbles : Nat) (nibbleBytes : List UInt8)
  /-- "Padding nibble expected to be 0, got: {}" -/
  | paddingNotZero (padding : UInt8)
  /-- `NodeDecodeError::EmptyInput`: "Missing tag due to empty input" -/
  | emptyInput
  /-- `NodeDecodeError::UnknownTag`: "lead tag byte is unknown: {}" -/
  | unknownTag (unknownTag : UInt8)
  /-- `NodeDecodeError::NoChildren`: "No children found in internal node" -/
  | noChildren
  /-- `NodeDecodeError::ExtraLeaves`: "Non-existent leaf bits set, existing: {}, leaves: {}" -/
  | extraLeaves (existing leaves : UInt16)
  /-- "not enough bytes left, children: {}, bytes: {}" -/
  | notEnoughBytes (children remaining : Nat)
  /-- "Children must not be empty" -/
  | childrenEmpty
  /-- A `bcs` error: the key's own decoding failed, or input was left over. -/
  | bcs
  deriving DecidableEq, Repr

/-- `ROOT_NIBBLE_HEIGHT`: the nibbles of a 32-byte hash. -/
def rootNibbleHeight : Nat := 64

theorem rootNibbleHeight_eq : rootNibbleHeight = 64 := rfl

/-- `NibblePath`: a path of `num_nibbles` nibbles, two a byte. -/
structure NibblePath where
  numNibbles : Nat
  bytes : List UInt8
  deriving DecidableEq, Repr

namespace NibblePath

/-- `NibblePath::new_even`. -/
def newEven (bytes : List UInt8) : Option NibblePath :=
  if bytes.length ≤ rootNibbleHeight / 2 then some ⟨bytes.length * 2, bytes⟩ else none

/-- `NibblePath::new_odd`: the last byte's low nibble, unused, must be zero. -/
def newOdd (bytes : List UInt8) : Option NibblePath :=
  if bytes.length ≤ rootNibbleHeight / 2 then
    match bytes.getLast? with
    | none => none
    | some last => if last &&& 0x0F = 0 then some ⟨bytes.length * 2 - 1, bytes⟩ else none
  else none

/-- What the comments of `NibblePath` ask of it: at most `ROOT_NIBBLE_HEIGHT` nibbles, two a byte,
and the second half of an odd path's last byte zero. -/
structure WellFormed (p : NibblePath) : Prop where
  numNibbles_le : p.numNibbles ≤ rootNibbleHeight
  length_bytes : p.bytes.length = (p.numNibbles + 1) / 2
  padding : p.numNibbles % 2 = 1 → p.bytes.getLastD 0 &&& 0x0F = 0

instance (p : NibblePath) : Decidable p.WellFormed :=
  decidable_of_iff (p.numNibbles ≤ rootNibbleHeight ∧ p.bytes.length = (p.numNibbles + 1) / 2 ∧
      (p.numNibbles % 2 = 1 → p.bytes.getLastD 0 &&& 0x0F = 0))
    ⟨fun ⟨h₁, h₂, h₃⟩ => ⟨h₁, h₂, h₃⟩, fun ⟨h₁, h₂, h₃⟩ => ⟨h₁, h₂, h₃⟩⟩

/-- The derived order of `NibblePath`: the number of nibbles first, then the bytes. -/
def lt (p q : NibblePath) : Prop :=
  p.numNibbles < q.numNibbles ∨ p.numNibbles = q.numNibbles ∧ p.bytes < q.bytes

instance : LT NibblePath := ⟨lt⟩

instance (p q : NibblePath) : Decidable (p < q) :=
  inferInstanceAs
    (Decidable (p.numNibbles < q.numNibbles ∨ p.numNibbles = q.numNibbles ∧ p.bytes < q.bytes))

end NibblePath

/-- `NodeKey`: the version at which a node was created, and its path in the tree. -/
structure NodeKey where
  version : UInt64
  nibblePath : NibblePath
  deriving DecidableEq, Repr

namespace NodeKey

/-- The derived order of `NodeKey`: the version first, then the path. -/
def lt (k₁ k₂ : NodeKey) : Prop :=
  k₁.version < k₂.version ∨ k₁.version = k₂.version ∧ k₁.nibblePath < k₂.nibblePath

instance : LT NodeKey := ⟨lt⟩

instance (k₁ k₂ : NodeKey) : Decidable (k₁ < k₂) :=
  inferInstanceAs (Decidable
    (k₁.version < k₂.version ∨ k₁.version = k₂.version ∧ k₁.nibblePath < k₂.nibblePath))

/-- `NodeKey::encode`; `num_nibbles as u8` keeps the low byte. -/
def encode (self : NodeKey) : List UInt8 :=
  Bytes.toBe 8 self.version.toNat ++ [UInt8.ofNat self.nibblePath.numNibbles] ++
    self.nibblePath.bytes

/-- `NodeKey::decode`; `none` when it panics. -/
def decode (val : List UInt8) : Option (Except DecodeError NodeKey) :=
  match Bytes.readBe 8 val with
  | none => some (.error .unexpectedEof)
  | some (version, reader) =>
    match reader with
    | [] => some (.error .unexpectedEof)
    | numNibbles :: nibbleBytes =>
      let numNibbles := numNibbles.toNat
      if rootNibbleHeight < numNibbles then some (.error (.invalidNumNibbles numNibbles))
      else if (numNibbles + 1) / 2 ≠ nibbleBytes.length then
        some (.error (.numNibblesMismatch numNibbles nibbleBytes))
      else if numNibbles % 2 = 0 then
        (NibblePath.newEven nibbleBytes).map fun p => .ok ⟨UInt64.ofNat version, p⟩
      else
        -- `nibble_bytes.last().unwrap() & 0x0F`
        match nibbleBytes.getLast? with
        | none => none
        | some last =>
          if last &&& 0x0F ≠ 0 then some (.error (.paddingNotZero (last &&& 0x0F)))
          else (NibblePath.newOdd nibbleBytes).map fun p => .ok ⟨UInt64.ofNat version, p⟩

/-! ### Decoding -/

theorem encode_eq (k : NodeKey) : k.encode =
    Bytes.toBe 8 k.version.toNat ++ UInt8.ofNat k.nibblePath.numNibbles :: k.nibblePath.bytes := by
  delta encode
  rw [List.append_assoc, List.singleton_append]

/-- A well-formed path of an even number of nibbles is `new_even` of its bytes. -/
theorem newEven_of_wellFormed {p : NibblePath} (hp : p.WellFormed) (he : p.numNibbles % 2 = 0) :
    NibblePath.newEven p.bytes = some p := by
  obtain ⟨n, bytes⟩ := p
  obtain ⟨hle, hlen, -⟩ := hp
  dsimp only [rootNibbleHeight_eq] at hle hlen he ⊢
  delta NibblePath.newEven
  rw [if_pos (by simp only [rootNibbleHeight_eq]; omega), hlen]
  simp only [Option.some.injEq, NibblePath.mk.injEq, and_true]
  omega

/-- A well-formed path of an odd number of nibbles has a last byte, whose low nibble, the
padding, is zero. -/
theorem getLast?_of_wellFormed {p : NibblePath} (hp : p.WellFormed) (ho : p.numNibbles % 2 = 1) :
    ∃ last, p.bytes.getLast? = some last ∧ last &&& 0x0F = 0 := by
  cases hlast : p.bytes.getLast? with
  | none =>
    have hlen := hp.length_bytes
    rw [List.getLast?_eq_none_iff] at hlast
    rw [hlast, List.length_nil] at hlen
    omega
  | some last =>
    have hzero := hp.padding ho
    rw [List.getLastD_eq_getLast?, hlast, Option.getD_some] at hzero
    exact ⟨last, rfl, hzero⟩

/-- A well-formed path of an odd number of nibbles is `new_odd` of its bytes. -/
theorem newOdd_of_wellFormed {p : NibblePath} (hp : p.WellFormed) (ho : p.numNibbles % 2 = 1) :
    NibblePath.newOdd p.bytes = some p := by
  obtain ⟨last, hlast, hzero⟩ := getLast?_of_wellFormed hp ho
  obtain ⟨n, bytes⟩ := p
  obtain ⟨hle, hlen, -⟩ := hp
  dsimp only [rootNibbleHeight_eq] at hle hlen ho hlast ⊢
  delta NibblePath.newOdd
  rw [if_pos (by simp only [rootNibbleHeight_eq]; omega), hlast]
  simp only [hzero, if_true, hlen, Option.some.injEq, NibblePath.mk.injEq, and_true]
  omega

/-- A key whose path is well formed decodes from its encoding. -/
theorem decode_encode {k : NodeKey} (hwf : k.nibblePath.WellFormed) : decode k.encode = some (.ok k) := by
  obtain ⟨v, p⟩ := k
  have hle := hwf.numNibbles_le
  have hlen := hwf.length_bytes
  simp only [rootNibbleHeight_eq] at hle
  have hn : (UInt8.ofNat p.numNibbles).toNat = p.numNibbles := by
    rw [Bytes.toNat_ofNat_byte, Nat.mod_eq_of_lt (by omega)]
  have hv : UInt64.ofNat (v.toNat % 256 ^ 8) = v := by
    rw [Nat.mod_eq_of_lt (by simpa using v.toNat_lt), UInt64.ofNat_toNat]
  simp only at hlen ⊢
  delta decode
  rw [encode_eq, Bytes.readBe_toBe_append]
  dsimp only
  rw [hn, rootNibbleHeight_eq, hv, if_neg (by omega), if_neg (by omega)]
  rcases Nat.mod_two_eq_zero_or_one p.numNibbles with he | ho
  · rw [if_pos he, newEven_of_wellFormed hwf he]
    rfl
  · -- the padding check passes, and `new_odd` gives the path back
    obtain ⟨last, hlast, hzero⟩ := getLast?_of_wellFormed hwf ho
    rw [if_neg (by omega), hlast]
    simp only [hzero, ne_eq, not_true_eq_false, if_false, newOdd_of_wellFormed hwf ho]
    rfl

/-- `decode` accepts only the encodings of keys with well-formed paths. -/
theorem decode_eq_some_ok {val : List UInt8} {k : NodeKey} (h : decode val = some (.ok k)) :
    k.nibblePath.WellFormed ∧ k.encode = val := by
  unfold decode at h
  rcases hread : Bytes.readBe 8 val with _ | ⟨version, reader⟩
  · rw [hread] at h
    cases h
  rw [hread] at h
  obtain ⟨rfl, hversion⟩ := Bytes.readBe_eq_some hread
  have hv : (UInt64.ofNat version).toNat = version := UInt64.toNat_ofNat_of_lt' (by simpa using hversion)
  rcases reader with _ | ⟨n, bytes⟩
  · cases h
  dsimp only at h
  split at h
  · cases h
  rename_i hle
  split at h
  · cases h
  rename_i hlen
  simp only [rootNibbleHeight_eq, not_lt] at hle
  simp only [ne_eq, not_not] at hlen
  have hn : UInt8.ofNat n.toNat = n := UInt8.ofNat_toNat
  split at h
  · -- an even number of nibbles: `new_even` keeps the bytes
    rename_i he
    delta NibblePath.newEven at h
    rw [if_pos (by simp only [rootNibbleHeight_eq]; omega)] at h
    simp only [Option.map_some, Option.some.injEq, Except.ok.injEq] at h
    subst h
    refine ⟨⟨?_, ?_, ?_⟩, ?_⟩
    · show bytes.length * 2 ≤ 64
      omega
    · show bytes.length = (bytes.length * 2 + 1) / 2
      omega
    · show bytes.length * 2 % 2 = 1 → _
      omega
    · rw [encode_eq, hv]
      simp only [show bytes.length * 2 = n.toNat by omega, hn]
  · -- an odd number: the padding was checked
    rename_i ho
    rcases hlast : bytes.getLast? with _ | last
    · rw [hlast] at h
      cases h
    rw [hlast] at h
    dsimp only at h
    split at h
    · cases h
    rename_i hpad
    simp only [ne_eq, not_not] at hpad
    delta NibblePath.newOdd at h
    rw [if_pos (by simp only [rootNibbleHeight_eq]; omega), hlast] at h
    simp only [hpad, if_true, Option.map_some, Option.some.injEq, Except.ok.injEq] at h
    subst h
    refine ⟨⟨?_, ?_, fun _ => ?_⟩, ?_⟩
    · show bytes.length * 2 - 1 ≤ 64
      omega
    · show bytes.length = (bytes.length * 2 - 1 + 1) / 2
      omega
    · show bytes.getLastD 0 &&& 0x0F = 0
      rw [List.getLastD_eq_getLast?, hlast, Option.getD_some, hpad]
    · rw [encode_eq, hv]
      simp only [show bytes.length * 2 - 1 = n.toNat by omega, hn]

/-- `decode` never panics: the path's bytes are checked before `new_even`, `unwrap` and
`new_odd` could fail. -/
theorem decode_ne_none (val : List UInt8) : decode val ≠ none := by
  unfold decode
  rcases Bytes.readBe 8 val with _ | ⟨version, reader⟩
  · simp
  rcases reader with _ | ⟨n, bytes⟩
  · simp
  dsimp only
  split
  · simp
  rename_i hle
  split
  · simp
  rename_i hlen
  simp only [rootNibbleHeight_eq, not_lt] at hle
  simp only [ne_eq, not_not] at hlen
  split
  · delta NibblePath.newEven
    rw [if_pos (by simp only [rootNibbleHeight_eq]; omega)]
    simp
  · rename_i ho
    rcases hlast : bytes.getLast? with _ | last
    · rw [List.getLast?_eq_none_iff] at hlast
      subst hlast
      simp at hlen
      omega
    · dsimp only
      split
      · simp
      · rename_i hpad
        simp only [ne_eq, not_not] at hpad
        delta NibblePath.newOdd
        rw [if_pos (by simp only [rootNibbleHeight_eq]; omega), hlast]
        simp [hpad]

/-! ### Order -/

theorem toBe_lt_toBe_iff_version (v₁ v₂ : UInt64) :
    Bytes.toBe 8 v₁.toNat < Bytes.toBe 8 v₂.toNat ↔ v₁ < v₂ := by
  rw [Bytes.toBe_lt_toBe_iff (by simpa using v₁.toNat_lt) (by simpa using v₂.toNat_lt),
    UInt64.lt_iff_toNat_lt]

theorem toBe_eq_toBe_iff_version (v₁ v₂ : UInt64) :
    Bytes.toBe 8 v₁.toNat = Bytes.toBe 8 v₂.toNat ↔ v₁ = v₂ := by
  constructor
  · intro h
    have := congrArg Bytes.ofBe h
    rw [Bytes.ofBe_toBe, Bytes.ofBe_toBe, Nat.mod_eq_of_lt (by simpa using v₁.toNat_lt),
      Nat.mod_eq_of_lt (by simpa using v₂.toNat_lt)] at this
    exact UInt64.toNat_inj.mp this
  · rintro rfl
    rfl

/-- Encodings compare as the keys do: the version's eight bytes, then the number of nibbles,
then the path's bytes. -/
theorem encode_lt_encode_iff {k₁ k₂ : NodeKey} (h₁ : k₁.nibblePath.WellFormed)
    (h₂ : k₂.nibblePath.WellFormed) : k₁.encode < k₂.encode ↔ k₁ < k₂ := by
  have hn₁ := h₁.numNibbles_le
  have hn₂ := h₂.numNibbles_le
  simp only [rootNibbleHeight_eq] at hn₁ hn₂
  have hnum : UInt8.ofNat k₁.nibblePath.numNibbles < UInt8.ofNat k₂.nibblePath.numNibbles ↔
      k₁.nibblePath.numNibbles < k₂.nibblePath.numNibbles := by
    rw [Bytes.ofNat_lt_ofNat_iff, Nat.mod_eq_of_lt (by omega), Nat.mod_eq_of_lt (by omega)]
  have hnumEq : UInt8.ofNat k₁.nibblePath.numNibbles = UInt8.ofNat k₂.nibblePath.numNibbles ↔
      k₁.nibblePath.numNibbles = k₂.nibblePath.numNibbles := by
    rw [Bytes.ofNat_eq_ofNat_iff, Nat.mod_eq_of_lt (by omega), Nat.mod_eq_of_lt (by omega)]
  rw [encode_eq, encode_eq, Bytes.append_lt_append_iff (by simp), toBe_lt_toBe_iff_version,
    toBe_eq_toBe_iff_version, List.cons_lt_cons_iff, hnum, hnumEq]
  rfl

end NodeKey

end CreditChain
