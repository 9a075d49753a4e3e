import CreditChain.Lib.Except
import CreditChain.Lib.Quorum
import Mathlib.Algebra.GroupWithZero.Nat

/-!
# The validator verifier

`types/src/validator_verifier.rs` with the signer bitmask of `crates/creditchain-bitvec`: a
validator set with voting powers, the quorum `ValidatorVerifier::new` derives from it, the
voting-power checks, and the multi-signature checks that name their signers by a bitmask of
validator indices.  The BLS12-381 operations and the hashing of messages are taken as given
(`Bls`); what the verifier computes around them is modelled.

Over distinct addresses the summation of the source is the weight of a finite set of
addresses (`sumVotingPower_eq_weight`), so that two quorums of one verifier share more voting
power than lies outside a quorum (`checkVotingPower_inter`), and an accepted multi-signature
names distinct validators holding a quorum (`verifyMultiSignatures_signers`).
-/

namespace CreditChain

/-- `AccountAddress`. -/
abbrev AccountAddress := Nat

/-- `HashValue`, in particular the `CryptoHash` of a signed message. -/
abbrev HashValue := Nat

/-- A BLS12-381 public key. -/
abbrev PublicKey := Nat

/-- A BLS12-381 signature. -/
abbrev Signature := Nat

/-- `Option::ok_or`. -/
def okOr {ε α : Type} : Option α → ε → Except ε α
  | some a, _ => .ok a
  | none, e => .error e

@[simp]
theorem okOr_eq_ok {ε α : Type} {o : Option α} {e : ε} {a : α} : okOr o e = .ok a ↔ o = some a := by
  cases o <;> simp [okOr]

/-- The BLS12-381 operations of `creditchain_crypto::bls12381`, on the hashes of the messages. -/
structure Bls where
  /-- `verify_struct_signature` and `Signature::verify`. -/
  verify : HashValue → PublicKey → Signature → Bool
  /-- `Signature::aggregate`, which fails on an empty list. -/
  aggregate : List Signature → Option Signature
  /-- `PublicKey::aggregate`. -/
  aggregatePublicKeys : List PublicKey → Option PublicKey
  /-- `Signature::verify_aggregate`, one message for each public key. -/
  verifyAggregate : List HashValue → List PublicKey → Signature → Bool

/-- A BLS oracle under which every signature verifies, and an aggregate is its first signature. -/
def acceptingBls : Bls :=
  ⟨fun _ _ _ => true, List.head?, List.head?, fun _ _ _ => true⟩

/-- `VerifyError`. -/
inductive VerifyError where
  | unknownAuthor
  | tooLittleVotingPower (votingPower expectedVotingPower : Nat)
  | emptySignature
  | invalidMultiSignature
  | invalidAggregatedSignature
  | inconsistentBlockInfo
  | failedToAggregatePubKey
  | failedToAggregateSignature
  | failedToVerifyMultiSignature
  | invalidBitVec
  | failedToVerifyAggregatedSignature
  deriving DecidableEq, Repr

/-! ### The signer bitmask -/

/-- `BitVec`, read bit by bit: bit `pos` is bit `0b1000_0000 >> pos % 8` of bucket `pos / 8`, so
the bits fill whole 8-bit buckets, and there are at most `MAX_BUCKETS = 8192` buckets. -/
structure BitVec where
  bits : List Bool
  length_mod : bits.length % 8 = 0
  length_le : bits.length ≤ 8 * 8192
  deriving DecidableEq

namespace BitVec

/-- `BitVec::required_buckets`. -/
def requiredBuckets (numBits : UInt16) : Nat :=
  match numBits.toNat with
  | 0 => 0
  | pos + 1 => pos / 8 + 1

theorem requiredBuckets_le (numBits : UInt16) : requiredBuckets numBits ≤ 8192 := by
  have := numBits.toNat_lt
  unfold requiredBuckets
  split <;> omega

/-- `BitVec::with_num_bits`. -/
def withNumBits (numBits : UInt16) : BitVec :=
  ⟨List.replicate (8 * requiredBuckets numBits) false, by simp, by
    have := requiredBuckets_le numBits
    simp only [List.length_replicate]
    omega⟩

/-- `BitVec::set`: the buckets first grow to hold bucket `pos / 8`. -/
def set (bv : BitVec) (pos : UInt16) : BitVec :=
  ⟨(bv.bits ++ List.replicate (8 * (pos.toNat / 8 + 1) - bv.bits.length) false).set pos.toNat true,
    by have := bv.length_mod; simp; omega,
    by have := bv.length_le; have := pos.toNat_lt; simp; omega⟩

/-- `BitVec::is_set`; a position past the buckets is unset. -/
def isSet (bv : BitVec) (pos : UInt16) : Bool :=
  bv.bits.getD pos.toNat false

/-- `BitVec::iter_ones`. -/
def iterOnes (bv : BitVec) : List Nat :=
  (List.range bv.bits.length).filter fun idx => bv.isSet idx.toUInt16

/-- `BitVec::num_buckets`. -/
def numBuckets (bv : BitVec) : Nat :=
  bv.bits.length / 8

/-- `BitVec::last_set_bit`.  The source scans the buckets from the last and takes the lowest set
bit of the first non-zero one; position by position, that is the first set position from the
end. -/
def lastSetBit (bv : BitVec) : Option Nat :=
  (List.range bv.bits.length).reverse.find? fun idx => bv.bits.getD idx false

theorem isSet_toUInt16 (bv : BitVec) {idx : Nat} (h : idx < bv.bits.length) :
    bv.isSet idx.toUInt16 = bv.bits.getD idx false := by
  have := bv.length_le
  have hidx : idx.toUInt16.toNat = idx := by simp; omega
  simp only [isSet, hidx]

theorem mem_iterOnes {bv : BitVec} {idx : Nat} :
    idx ∈ bv.iterOnes ↔ idx < bv.bits.length ∧ bv.bits.getD idx false = true := by
  simp only [iterOnes, List.mem_filter, List.mem_range]
  constructor
  · rintro ⟨hlt, hset⟩
    exact ⟨hlt, by rwa [isSet_toUInt16 bv hlt] at hset⟩
  · rintro ⟨hlt, hset⟩
    exact ⟨hlt, by rwa [isSet_toUInt16 bv hlt]⟩

theorem mem_iterOnes_iff {bv : BitVec} {idx : Nat} :
    idx ∈ bv.iterOnes ↔ bv.bits.getD idx false = true := by
  rw [mem_iterOnes]
  constructor
  · exact fun h => h.2
  · intro h
    refine ⟨?_, h⟩
    by_contra hge
    rw [List.getD_eq_getElem?_getD, List.getElem?_eq_none (by omega)] at h
    cases h

theorem getD_withNumBits (numBits : UInt16) (i : Nat) :
    (withNumBits numBits).bits.getD i false = false := by
  simp only [withNumBits, List.getD_eq_getElem?_getD, List.getElem?_replicate]
  split <;> rfl

/-- An appended run of unset bits reads as unset. -/
private theorem getD_append_replicate (bits : List Bool) (n i : Nat) :
    (bits ++ List.replicate n false).getD i false = bits.getD i false := by
  simp only [List.getD_eq_getElem?_getD, List.getElem?_append, List.getElem?_replicate]
  split
  · rfl
  · rw [List.getElem?_eq_none (by omega)]
    split <;> rfl

theorem getD_set (bv : BitVec) (pos : UInt16) (i : Nat) :
    (bv.set pos).bits.getD i false = (decide (i = pos.toNat) || bv.bits.getD i false) := by
  by_cases hi : i = pos.toNat
  · subst hi
    have hlt : pos.toNat < bv.bits.length + (8 * (pos.toNat / 8 + 1) - bv.bits.length) := by omega
    simp [set, List.getD_eq_getElem?_getD, hlt]
  · have := getD_append_replicate bv.bits (8 * (pos.toNat / 8 + 1) - bv.bits.length) i
    simp only [List.getD_eq_getElem?_getD] at this
    simp [set, List.getD_eq_getElem?_getD, Ne.symm hi, hi, this]

theorem nodup_iterOnes (bv : BitVec) : bv.iterOnes.Nodup :=
  (List.nodup_range).filter _

/-- The last set bit bounds every set position. -/
theorem le_of_lastSetBit {bv : BitVec} {last idx : Nat} (hlast : bv.lastSetBit = some last)
    (hidx : idx ∈ bv.iterOnes) : idx ≤ last := by
  obtain ⟨hlt, hset⟩ := mem_iterOnes.mp hidx
  obtain ⟨-, before, after, hsplit, hbefore⟩ := List.find?_eq_some_iff_append.mp hlast
  have hdesc : ((List.range bv.bits.length).reverse).Pairwise (· > ·) := by
    rw [List.pairwise_reverse]
    exact List.pairwise_lt_range
  rw [hsplit, List.pairwise_append, List.pairwise_cons] at hdesc
  have hmem : idx ∈ before ++ last :: after := by
    rw [← hsplit]
    simpa using hlt
  by_contra hgt
  rcases List.mem_append.mp hmem with hb | hb
  · exact absurd hset (by simpa using hbefore idx hb)
  · rcases List.mem_cons.mp hb with rfl | ha
    · omega
    · have := hdesc.2.1.1 idx ha
      omega

theorem iterOnes_eq_nil_of_lastSetBit {bv : BitVec} (hlast : bv.lastSetBit = none) :
    bv.iterOnes = [] := by
  rw [List.eq_nil_iff_forall_not_mem]
  intro idx hidx
  obtain ⟨hlt, hset⟩ := mem_iterOnes.mp hidx
  have := List.find?_eq_none.mp hlast idx (by simpa using hlt)
  simp_all

end BitVec

/-- `AggregateSignature`: the bitmask of the signers' indices and their aggregated signature. -/
structure AggregateSignature where
  validatorBitmask : BitVec
  sig : Option Signature
  deriving DecidableEq

/-! ### The validator set -/

/-- `ValidatorConsensusInfo`. -/
structure ValidatorConsensusInfo where
  address : AccountAddress
  publicKey : PublicKey
  votingPower : Nat
  deriving DecidableEq, Repr

/-- The free function `sum_voting_power` over the validator infos. -/
def sumVotingPower (validatorInfos : List ValidatorConsensusInfo) : Nat :=
  validatorInfos.foldl (fun sum x => sum + x.votingPower) 0

/-- `ValidatorVerifier`.  Its `address_to_validator_index` is a function of the infos, rebuilt by
`build_index` every time, and is `addressToValidatorIndex` below. -/
structure ValidatorVerifier where
  validatorInfos : List ValidatorConsensusInfo
  quorumVotingPower : Nat
  totalVotingPower : Nat
  deriving DecidableEq

namespace ValidatorVerifier

/-- `ValidatorVerifier::new`: the quorum is two thirds of the total voting power plus one, or
zero for no validator. -/
def new (validatorInfos : List ValidatorConsensusInfo) : ValidatorVerifier :=
  let totalVotingPower := CreditChain.sumVotingPower validatorInfos
  let quorumVotingPower := if validatorInfos.isEmpty then 0 else totalVotingPower * 2 / 3 + 1
  ⟨validatorInfos, quorumVotingPower, totalVotingPower⟩

/-- `address_to_validator_index` as `build_index` collects it from the `(address, index)` pairs
into a map: a later index of an address replaces an earlier one. -/
def addressToValidatorIndex (v : ValidatorVerifier) : AccountAddress → Option Nat :=
  v.validatorInfos.zipIdx.foldl (fun index p => Function.update index p.1.address (some p.2))
    fun _ => none

/-- `ValidatorVerifier::len`. -/
def len (v : ValidatorVerifier) : Nat :=
  v.validatorInfos.length

/-- `ValidatorVerifier::get_voting_power`. -/
def getVotingPower (v : ValidatorVerifier) (author : AccountAddress) : Option Nat :=
  (v.addressToValidatorIndex author).bind fun index => v.validatorInfos[index]?.map (·.votingPower)

/-- `ValidatorVerifier::get_public_key`. -/
def getPublicKey (v : ValidatorVerifier) (author : AccountAddress) : Option PublicKey :=
  (v.addressToValidatorIndex author).bind fun index => v.validatorInfos[index]?.map (·.publicKey)

/-- `ValidatorVerifier::get_ordered_account_addresses`. -/
def getOrderedAccountAddresses (v : ValidatorVerifier) : List AccountAddress :=
  v.validatorInfos.map (·.address)

/-- `ValidatorVerifier::sum_voting_power`, stopping at the first unknown author. -/
def sumVotingPower (v : ValidatorVerifier) (authors : List AccountAddress) :
    Except VerifyError Nat :=
  authors.foldlM (fun aggregatedVotingPower accountAddress =>
    match v.getVotingPower accountAddress with
    | some votingPower => .ok (aggregatedVotingPower + votingPower)
    | none => .error .unknownAuthor) 0

/-- `ValidatorVerifier::check_aggregated_voting_power`: a quorum for a super-majority, and one
more than the power outside a quorum otherwise. -/
def checkAggregatedVotingPower (v : ValidatorVerifier) (aggregatedVotingPower : Nat)
    (checkSuperMajority : Bool) : Except VerifyError Nat :=
  let target := if checkSuperMajority then v.quorumVotingPower
    else v.totalVotingPower - v.quorumVotingPower + 1
  if aggregatedVotingPower < target then .error (.tooLittleVotingPower aggregatedVotingPower target)
  else .ok aggregatedVotingPower

/-- `ValidatorVerifier::check_voting_power`. -/
def checkVotingPower (v : ValidatorVerifier) (authors : List AccountAddress)
    (checkSuperMajority : Bool) : Except VerifyError Nat := do
  let aggregatedVotingPower ← v.sumVotingPower authors
  v.checkAggregatedVotingPower aggregatedVotingPower checkSuperMajority

/-- `ValidatorVerifier::check_num_of_voters`. -/
def checkNumOfVoters (numValidators : UInt16) (bitvec : BitVec) : Except VerifyError Unit :=
  if bitvec.numBuckets ≠ BitVec.requiredBuckets numValidators then .error .invalidBitVec
  else
    match bitvec.lastSetBit with
    | some lastBit => if lastBit ≥ numValidators.toNat then .error .invalidBitVec else .ok ()
    | none => .ok ()

/-- One signer in the loop of `aggregate_signatures`: its index, cast to `u16`, is set. -/
def setSigner (v : ValidatorVerifier) (masks : BitVec) (addr : AccountAddress) :
    Except VerifyError BitVec := do
  let index ← okOr (v.addressToValidatorIndex addr) .unknownAuthor
  pure (masks.set index.toUInt16)

/-- `ValidatorVerifier::aggregate_signatures`: the signers' indices are set in a bitmask of `len`
bits, cast to `u16`. -/
def aggregateSignatures (bls : Bls) (v : ValidatorVerifier)
    (signatures : List (AccountAddress × Signature)) : Except VerifyError AggregateSignature := do
  let masks ← signatures.foldlM (fun masks p => v.setSigner masks p.1)
    (BitVec.withNumBits v.len.toUInt16)
  let aggregatedSig ← okOr (bls.aggregate (signatures.map Prod.snd)) .failedToAggregateSignature
  pure ⟨masks, some aggregatedSig⟩

/-- The validators a bitmask names, in the loop of `verify_multi_signatures`. -/
def signerInfos (v : ValidatorVerifier) (bitvec : BitVec) :
    Except VerifyError (List ValidatorConsensusInfo) :=
  bitvec.iterOnes.mapM fun index => okOr v.validatorInfos[index]? .unknownAuthor

/-- `ValidatorVerifier::verify_multi_signatures`, as built without `test` or `fuzzing`. -/
def verifyMultiSignatures (bls : Bls) (v : ValidatorVerifier) (message : HashValue)
    (multiSignature : AggregateSignature) : Except VerifyError Unit := do
  checkNumOfVoters v.len.toUInt16 multiSignature.validatorBitmask
  let validators ← v.signerInfos multiSignature.validatorBitmask
  let _ ← v.checkVotingPower (validators.map (·.address)) true
  let multiSig ← okOr multiSignature.sig .emptySignature
  let aggregatedKey ← okOr (bls.aggregatePublicKeys (validators.map (·.publicKey)))
    .failedToAggregatePubKey
  if bls.verify message aggregatedKey multiSig then pure () else .error .invalidMultiSignature

/-- `ValidatorVerifier::verify_aggregate_signatures`: one message for each signer. -/
def verifyAggregateSignatures (bls : Bls) (v : ValidatorVerifier) (messages : List HashValue)
    (aggregatedSignature : AggregateSignature) : Except VerifyError Unit := do
  checkNumOfVoters v.len.toUInt16 aggregatedSignature.validatorBitmask
  let validators ← v.signerInfos aggregatedSignature.validatorBitmask
  let _ ← v.checkVotingPower (validators.map (·.address)) true
  let aggregatedSig ← okOr aggregatedSignature.sig .emptySignature
  if bls.verifyAggregate messages (validators.map (·.publicKey)) aggregatedSig then pure ()
  else .error .invalidAggregatedSignature

/-- `ValidatorVerifier::verify`: one author's signature on a message. -/
def verify (bls : Bls) (v : ValidatorVerifier) (author : AccountAddress) (message : HashValue)
    (signature : Signature) : Except VerifyError Unit :=
  match v.getPublicKey author with
  | some publicKey => if bls.verify message publicKey signature then .ok () else .error .invalidMultiSignature
  | none => .error .unknownAuthor

/-- `ValidatorVerifier::aggregate_signature_authors`: the addresses of the set bits that index a
validator. -/
def aggregateSignatureAuthors (v : ValidatorVerifier) (aggregatedSignature : AggregateSignature) :
    List AccountAddress :=
  aggregatedSignature.validatorBitmask.iterOnes.filterMap fun index =>
    v.validatorInfos[index]?.map (·.address)

/-! ### The address index -/

section AddressIndex

/-- The map `build_index` collects, from a map `index` and a first index `n`. -/
private theorem foldl_update_sound {l : List ValidatorConsensusInfo} {n i : Nat}
    {a : AccountAddress} {index : AccountAddress → Option Nat}
    (h : (l.zipIdx n).foldl (fun (index : AccountAddress → Option Nat) (p : ValidatorConsensusInfo × Nat) =>
      Function.update index p.1.address (some p.2)) index a =
      some i) :
    (∃ info, n ≤ i ∧ l[i - n]? = some info ∧ info.address = a) ∨ index a = some i := by
  induction l generalizing n index with
  | nil => exact Or.inr h
  | cons x l ih =>
    rw [List.zipIdx_cons, List.foldl_cons] at h
    rcases ih h with ⟨info, hn, hget, haddr⟩ | hidx
    · have hi : i - n = i - (n + 1) + 1 := by omega
      exact Or.inl ⟨info, by omega, by rw [hi]; exact hget, haddr⟩
    · by_cases hx : a = x.address
      · subst hx
        simp only [Function.update_self, Option.some.injEq] at hidx
        exact Or.inl ⟨x, by omega, by simp [← hidx], rfl⟩
      · exact Or.inr (by rwa [Function.update_of_ne hx] at hidx)

/-- An address that no info of `l` has keeps its entry. -/
private theorem foldl_update_frame {l : List ValidatorConsensusInfo} {n : Nat}
    {a : AccountAddress} {index : AccountAddress → Option Nat} (ha : a ∉ l.map (·.address)) :
    (l.zipIdx n).foldl (fun (index : AccountAddress → Option Nat) (p : ValidatorConsensusInfo × Nat) =>
      Function.update index p.1.address (some p.2)) index a =
      index a := by
  induction l generalizing n index with
  | nil => rfl
  | cons x l ih =>
    simp only [List.map_cons, List.mem_cons, not_or] at ha
    rw [List.zipIdx_cons, List.foldl_cons, ih ha.2, Function.update_of_ne ha.1]

/-- Over distinct addresses the entry of an info's address is its position. -/
private theorem foldl_update_getElem? {l : List ValidatorConsensusInfo} {n j : Nat}
    {info : ValidatorConsensusInfo} {index : AccountAddress → Option Nat}
    (hnodup : (l.map (·.address)).Nodup) (h : l[j]? = some info) :
    (l.zipIdx n).foldl (fun (index : AccountAddress → Option Nat) (p : ValidatorConsensusInfo × Nat) =>
      Function.update index p.1.address (some p.2)) index
      info.address = some (n + j) := by
  induction l generalizing n j index with
  | nil => simp at h
  | cons x l ih =>
    rw [List.map_cons, List.nodup_cons] at hnodup
    rw [List.zipIdx_cons, List.foldl_cons]
    cases j with
    | zero =>
      simp only [List.getElem?_cons_zero, Option.some.injEq] at h
      subst h
      rw [foldl_update_frame hnodup.1, Function.update_self]
      rfl
    | succ j =>
      rw [ih hnodup.2 h]
      congr 1
      omega

variable {v : ValidatorVerifier}

theorem addressToValidatorIndex_sound {a : AccountAddress} {i : Nat}
    (h : v.addressToValidatorIndex a = some i) :
    ∃ info, v.validatorInfos[i]? = some info ∧ info.address = a := by
  rcases foldl_update_sound h with ⟨info, -, hget, haddr⟩ | hnone
  · exact ⟨info, by simpa using hget, haddr⟩
  · cases hnone

theorem addressToValidatorIndex_getElem? (hnodup : (v.validatorInfos.map (·.address)).Nodup)
    {i : Nat} {info : ValidatorConsensusInfo} (h : v.validatorInfos[i]? = some info) :
    v.addressToValidatorIndex info.address = some i := by
  have := @foldl_update_getElem? _ 0 _ _ (fun _ => none) hnodup h
  rwa [Nat.zero_add] at this

theorem getVotingPower_eq_some {a : AccountAddress} {p : Nat} (h : v.getVotingPower a = some p) :
    ∃ info ∈ v.validatorInfos, info.address = a ∧ info.votingPower = p := by
  obtain ⟨i, hi, hp⟩ := Option.bind_eq_some_iff.mp h
  obtain ⟨info, hget, haddr⟩ := addressToValidatorIndex_sound hi
  rw [hget, Option.map_some, Option.some.injEq] at hp
  exact ⟨info, List.mem_of_getElem? hget, haddr, hp⟩

theorem getVotingPower_of_mem (hnodup : (v.validatorInfos.map (·.address)).Nodup)
    {info : ValidatorConsensusInfo} (h : info ∈ v.validatorInfos) :
    v.getVotingPower info.address = some info.votingPower := by
  obtain ⟨i, hi⟩ := List.mem_iff_getElem?.mp h
  simp [getVotingPower, addressToValidatorIndex_getElem? hnodup hi, hi]

end AddressIndex

/-! ### Voting power as the weight of a set of addresses -/

section Weight

variable {v : ValidatorVerifier}

/-- The voting power of an address, none for an unknown author. -/
def votingPowerOf (v : ValidatorVerifier) (a : AccountAddress) : Nat :=
  (v.getVotingPower a).getD 0

theorem votingPowerOf_eq {a : AccountAddress} {p : Nat} (h : v.getVotingPower a = some p) :
    v.votingPowerOf a = p := by
  delta votingPowerOf
  rw [h, Option.getD_some]

/-- The summation loop of `sum_voting_power` from an accumulated power `acc`. -/
private theorem foldlM_sumVotingPower {authors : List AccountAddress} {acc p : Nat} :
    authors.foldlM (fun aggregatedVotingPower accountAddress =>
        match v.getVotingPower accountAddress with
        | some votingPower => (.ok (aggregatedVotingPower + votingPower) : Except VerifyError Nat)
        | none => .error .unknownAuthor) acc = .ok p ↔
      (∀ a ∈ authors, (v.getVotingPower a).isSome) ∧ p = acc + (authors.map v.votingPowerOf).sum := by
  induction authors generalizing acc with
  | nil =>
    simp only [List.foldlM_nil, Except.pure_eq_ok, Except.ok.injEq, List.not_mem_nil,
      IsEmpty.forall_iff, implies_true, List.map_nil, List.sum_nil, true_and]
    omega
  | cons a authors ih =>
    rw [List.foldlM_cons]
    cases ha : v.getVotingPower a with
    | none => simp [ha]
    | some q =>
      simp only [Except.ok_bind, ih, List.forall_mem_cons, ha, Option.isSome_some, true_and,
        List.map_cons, List.sum_cons, votingPowerOf_eq ha]
      constructor <;> rintro ⟨h, rfl⟩ <;> exact ⟨h, by omega⟩

theorem sumVotingPower_eq_ok {authors : List AccountAddress} {p : Nat} :
    v.sumVotingPower authors = .ok p ↔
      (∀ a ∈ authors, (v.getVotingPower a).isSome) ∧ p = (authors.map v.votingPowerOf).sum := by
  rw [sumVotingPower, foldlM_sumVotingPower, Nat.zero_add]

theorem sumVotingPower_singleton {a : AccountAddress} {p : Nat} (h : v.getVotingPower a = some p) :
    v.sumVotingPower [a] = .ok p := by
  rw [sumVotingPower_eq_ok]
  simp [h, votingPowerOf_eq h]

/-- Over a duplicate-free list of known authors, `sum_voting_power` is the weight of their set. -/
theorem sumVotingPower_eq_weight {authors : List AccountAddress} (hnodup : authors.Nodup)
    (hknown : ∀ a ∈ authors, (v.getVotingPower a).isSome) :
    v.sumVotingPower authors = .ok (Quorum.weight v.votingPowerOf authors.toFinset) := by
  rw [sumVotingPower_eq_ok, Quorum.weight_eq_sum, List.sum_toFinset _ hnodup]
  exact ⟨hknown, rfl⟩

theorem mem_addresses_of_isSome {a : AccountAddress} (h : (v.getVotingPower a).isSome) :
    a ∈ v.getOrderedAccountAddresses := by
  obtain ⟨p, hp⟩ := Option.isSome_iff_exists.mp h
  obtain ⟨info, hmem, haddr, -⟩ := getVotingPower_eq_some hp
  exact List.mem_map.mpr ⟨info, hmem, haddr⟩

private theorem foldl_sumVotingPower (l : List ValidatorConsensusInfo) (acc : Nat) :
    l.foldl (fun sum x => sum + x.votingPower) acc = acc + (l.map (·.votingPower)).sum := by
  induction l generalizing acc with
  | nil => simp
  | cons x l ih => rw [List.foldl_cons, ih, List.map_cons, List.sum_cons]; omega

theorem sumVotingPower_eq_sum (validatorInfos : List ValidatorConsensusInfo) :
    CreditChain.sumVotingPower validatorInfos = (validatorInfos.map (·.votingPower)).sum := by
  rw [CreditChain.sumVotingPower, foldl_sumVotingPower, Nat.zero_add]

/-- Over distinct addresses the total voting power is the weight of all addresses. -/
theorem sumVotingPower_infos_eq_weight (hnodup : (v.validatorInfos.map (·.address)).Nodup) :
    CreditChain.sumVotingPower v.validatorInfos =
      Quorum.weight v.votingPowerOf v.getOrderedAccountAddresses.toFinset := by
  have hpow : ∀ info ∈ v.validatorInfos, v.votingPowerOf info.address = info.votingPower := by
    intro info hmem
    exact votingPowerOf_eq (getVotingPower_of_mem hnodup hmem)
  rw [sumVotingPower_eq_sum, Quorum.weight_eq_sum, getOrderedAccountAddresses,
    List.sum_toFinset _ hnodup, List.map_map]
  exact (congrArg List.sum (List.map_congr_left hpow)).symm

end Weight

/-! ### Quorums -/

section Quorums

variable {v : ValidatorVerifier}

theorem checkAggregatedVotingPower_eq_ok {aggregatedVotingPower p : Nat} {checkSuperMajority : Bool} :
    v.checkAggregatedVotingPower aggregatedVotingPower checkSuperMajority = .ok p ↔
      p = aggregatedVotingPower ∧
        (if checkSuperMajority then v.quorumVotingPower
          else v.totalVotingPower - v.quorumVotingPower + 1) ≤ aggregatedVotingPower := by
  unfold checkAggregatedVotingPower
  generalize (if checkSuperMajority then v.quorumVotingPower
    else v.totalVotingPower - v.quorumVotingPower + 1) = target
  dsimp only
  split_ifs with hlt
  · simp only [false_iff, not_and]
    intro _
    omega
  · simp only [Except.ok.injEq]
    constructor
    · rintro rfl
      exact ⟨rfl, by omega⟩
    · rintro ⟨rfl, -⟩
      rfl

theorem checkVotingPower_true_eq_ok {authors : List AccountAddress} {p : Nat} :
    v.checkVotingPower authors true = .ok p ↔
      v.sumVotingPower authors = .ok p ∧ v.quorumVotingPower ≤ p := by
  simp only [checkVotingPower, Except.bind_eq_ok, checkAggregatedVotingPower_eq_ok, if_true]
  constructor
  · rintro ⟨q, hsum, rfl, hq⟩
    exact ⟨hsum, hq⟩
  · rintro ⟨hsum, hq⟩
    exact ⟨p, hsum, rfl, hq⟩

/-- Two super-majorities of duplicate-free known authors share one more than the power outside a
quorum, for a verifier whose total is the weight of its addresses and whose quorum is the
two-thirds threshold of it. -/
theorem checkVotingPower_inter
    (htotal : v.totalVotingPower = Quorum.weight v.votingPowerOf v.getOrderedAccountAddresses.toFinset)
    (hq : v.quorumVotingPower = Quorum.twoThirds v.totalVotingPower) {A B : List AccountAddress}
    (hA : A.Nodup) (hB : B.Nodup) {pA pB : Nat} (hokA : v.checkVotingPower A true = .ok pA)
    (hokB : v.checkVotingPower B true = .ok pB) :
    ∃ p, v.sumVotingPower (A ∩ B) = .ok p ∧ v.checkAggregatedVotingPower p false = .ok p := by
  obtain ⟨hsumA, hqA⟩ := Iff.mp checkVotingPower_true_eq_ok hokA
  obtain ⟨hsumB, hqB⟩ := Iff.mp checkVotingPower_true_eq_ok hokB
  have hknownA := (Iff.mp sumVotingPower_eq_ok hsumA).1
  have hknownB := (Iff.mp sumVotingPower_eq_ok hsumB).1
  rw [sumVotingPower_eq_weight hA hknownA, Except.ok.injEq] at hsumA
  rw [sumVotingPower_eq_weight hB hknownB, Except.ok.injEq] at hsumB
  subst hsumA hsumB
  have hsub : ∀ {C : List AccountAddress}, (∀ a ∈ C, (v.getVotingPower a).isSome) →
      C.toFinset ⊆ v.getOrderedAccountAddresses.toFinset := by
    intro C hC a ha
    exact List.mem_toFinset.mpr (mem_addresses_of_isSome (hC a (List.mem_toFinset.mp ha)))
  rw [hq, htotal] at hqA hqB
  have hshare := Quorum.twoThirds_inter v.votingPowerOf (hsub hknownA) (hsub hknownB) hqA hqB
  have hknown : ∀ a ∈ A ∩ B, (v.getVotingPower a).isSome :=
    fun a ha => hknownA a (List.mem_inter_iff.mp ha).1
  refine ⟨_, sumVotingPower_eq_weight (hA.inter B) hknown, ?_⟩
  rw [checkAggregatedVotingPower_eq_ok, hq, htotal, List.toFinset_inter]
  exact ⟨rfl, hshare⟩

/-- Two super-majorities of duplicate-free authors share an author. -/
theorem exists_mem_of_checkVotingPower
    (htotal : v.totalVotingPower = Quorum.weight v.votingPowerOf v.getOrderedAccountAddresses.toFinset)
    (hq : v.quorumVotingPower = Quorum.twoThirds v.totalVotingPower) {A B : List AccountAddress}
    (hA : A.Nodup) (hB : B.Nodup) {pA pB : Nat} (hokA : v.checkVotingPower A true = .ok pA)
    (hokB : v.checkVotingPower B true = .ok pB) : ∃ a ∈ A, a ∈ B := by
  obtain ⟨p, hsum, hcheck⟩ := checkVotingPower_inter htotal hq hA hB hokA hokB
  obtain ⟨-, hpos⟩ := Iff.mp checkAggregatedVotingPower_eq_ok hcheck
  simp only [Bool.false_eq_true, if_false] at hpos
  cases hinter : A ∩ B with
  | nil =>
    rw [hinter, sumVotingPower_eq_ok] at hsum
    simp only [List.map_nil, List.sum_nil] at hsum
    omega
  | cons a rest =>
    have ha : a ∈ A ∩ B := by rw [hinter]; exact List.mem_cons_self
    exact ⟨a, (List.mem_inter_iff.mp ha).1, (List.mem_inter_iff.mp ha).2⟩

end Quorums

/-! ### `ValidatorVerifier::new` -/

section New

variable {validatorInfos : List ValidatorConsensusInfo}

@[simp] theorem new_validatorInfos : (new validatorInfos).validatorInfos = validatorInfos := rfl

/-- Over distinct addresses the total of `new` is the weight of all addresses. -/
theorem new_totalVotingPower (hnodup : (validatorInfos.map (·.address)).Nodup) :
    (new validatorInfos).totalVotingPower =
      Quorum.weight (new validatorInfos).votingPowerOf
        (new validatorInfos).getOrderedAccountAddresses.toFinset :=
  sumVotingPower_infos_eq_weight (v := new validatorInfos) hnodup

/-- With some voting power, the quorum of `new` is the two-thirds threshold of the total. -/
theorem new_quorumVotingPower (hpos : 0 < CreditChain.sumVotingPower validatorInfos) :
    (new validatorInfos).quorumVotingPower =
      Quorum.twoThirds (new validatorInfos).totalVotingPower := by
  have hne : validatorInfos ≠ [] := by
    rintro rfl
    simp [CreditChain.sumVotingPower] at hpos
  simp [new, hne, Quorum.twoThirds]

end New

/-! ### Accepted multi-signatures -/

section Verify

variable {v : ValidatorVerifier}

/-- A bitmask that passes `check_num_of_voters` sets no bit at or past the validator count. -/
theorem checkNumOfVoters_lt {numValidators : UInt16} {bitvec : BitVec}
    (h : checkNumOfVoters numValidators bitvec = .ok ()) :
    ∀ i ∈ bitvec.iterOnes, i < numValidators.toNat := by
  intro i hi
  unfold checkNumOfVoters at h
  split_ifs at h
  split at h
  · rename_i last hlast
    split_ifs at h with hge
    have := BitVec.le_of_lastSetBit hlast hi
    omega
  · rename_i hlast
    simp [BitVec.iterOnes_eq_nil_of_lastSetBit hlast] at hi

theorem signerInfos_eq_ok {bitvec : BitVec} {validators : List ValidatorConsensusInfo}
    (h : v.signerInfos bitvec = .ok validators) :
    validators = bitvec.iterOnes.filterMap (fun index => v.validatorInfos[index]?) ∧
      ∀ i ∈ bitvec.iterOnes, i < v.len := by
  unfold signerInfos at h
  generalize bitvec.iterOnes = ones at h ⊢
  induction ones generalizing validators with
  | nil =>
    simp only [List.mapM_nil, Except.pure_eq_ok, Except.ok.injEq] at h
    simp [← h]
  | cons i rest ih =>
    rw [List.mapM_cons] at h
    obtain ⟨info, hinfo, h⟩ := Except.bind_eq_ok.mp h
    obtain ⟨infos, hrest, h⟩ := Except.bind_eq_ok.mp h
    cases h
    obtain ⟨rfl, hlt⟩ := ih hrest
    rw [okOr_eq_ok] at hinfo
    refine ⟨by simp [hinfo], ?_⟩
    intro j hj
    rcases List.mem_cons.mp hj with rfl | hj
    · exact (List.getElem?_eq_some_iff.mp hinfo).1
    · exact hlt j hj

/-- A validator at a known index passes `verify` on a signature its public key accepts. -/
theorem verify_eq_ok_of_index {bls : Bls} {a : AccountAddress} {i : Nat}
    {info : ValidatorConsensusInfo} {message : HashValue} {signature : Signature}
    (hidx : v.addressToValidatorIndex a = some i) (hinfo : v.validatorInfos[i]? = some info)
    (hbls : bls.verify message info.publicKey signature = true) :
    v.verify bls a message signature = .ok () := by
  simp [verify, getPublicKey, hidx, hinfo, hbls]

theorem signerInfos_singleton {bitvec : BitVec} {i : Nat} {info : ValidatorConsensusInfo}
    (hones : bitvec.iterOnes = [i]) (hinfo : v.validatorInfos[i]? = some info) :
    v.signerInfos bitvec = .ok [info] := by
  simp [signerInfos, hones, hinfo, okOr]

/-- A multi-signature whose signers hold less than a quorum is rejected with their power. -/
theorem verifyMultiSignatures_tooLittleVotingPower {bls : Bls} {message : HashValue}
    {multiSignature : AggregateSignature} {validators : List ValidatorConsensusInfo} {p : Nat}
    (hvoters : checkNumOfVoters v.len.toUInt16 multiSignature.validatorBitmask = .ok ())
    (hsigners : v.signerInfos multiSignature.validatorBitmask = .ok validators)
    (hsum : v.sumVotingPower (validators.map (·.address)) = .ok p) (hlt : p < v.quorumVotingPower) :
    v.verifyMultiSignatures bls message multiSignature =
      .error (.tooLittleVotingPower p v.quorumVotingPower) := by
  simp [verifyMultiSignatures, hvoters, hsigners, checkVotingPower, hsum,
    checkAggregatedVotingPower, hlt]

theorem mem_aggregateSignatureAuthors {sig : AggregateSignature} {a : AccountAddress} :
    a ∈ v.aggregateSignatureAuthors sig ↔
      ∃ i ∈ sig.validatorBitmask.iterOnes, ∃ info, v.validatorInfos[i]? = some info ∧ info.address = a := by
  delta aggregateSignatureAuthors
  simp

/-- Over distinct addresses, the set bits of a bitmask name distinct validators. -/
theorem nodup_aggregateSignatureAuthors (hnodup : (v.validatorInfos.map (·.address)).Nodup)
    (sig : AggregateSignature) : (v.aggregateSignatureAuthors sig).Nodup := by
  refine (BitVec.nodup_iterOnes _).filterMap ?_
  intro a a' b ha ha'
  simp only [Option.mem_def, Option.map_eq_some_iff] at ha ha'
  obtain ⟨info, hinfo, rfl⟩ := ha
  obtain ⟨info', hinfo', haddr⟩ := ha'
  have hindex := addressToValidatorIndex_getElem? hnodup hinfo'
  rw [haddr, addressToValidatorIndex_getElem? hnodup hinfo, Option.some.injEq] at hindex
  exact hindex

/-- An accepted multi-signature names validators inside the set, distinct ones over distinct
addresses, and together they hold a quorum. -/
theorem verifyMultiSignatures_signers (hnodup : (v.validatorInfos.map (·.address)).Nodup)
    {bls : Bls} {message : HashValue} {multiSignature : AggregateSignature}
    (h : v.verifyMultiSignatures bls message multiSignature = .ok ()) :
    (∀ i ∈ multiSignature.validatorBitmask.iterOnes, i < v.len) ∧
      (v.aggregateSignatureAuthors multiSignature).Nodup ∧
      ∃ p, v.sumVotingPower (v.aggregateSignatureAuthors multiSignature) = .ok p ∧
        v.quorumVotingPower ≤ p := by
  obtain ⟨-, -, h⟩ := Except.bind_eq_ok.mp h
  obtain ⟨validators, hsigners, h⟩ := Except.bind_eq_ok.mp h
  obtain ⟨p, hcheck, -⟩ := Except.bind_eq_ok.mp h
  obtain ⟨rfl, hlt⟩ := signerInfos_eq_ok hsigners
  have hauthors : v.aggregateSignatureAuthors multiSignature =
      (multiSignature.validatorBitmask.iterOnes.filterMap fun index => v.validatorInfos[index]?).map
        (·.address) := by
    rw [List.map_filterMap]
    rfl
  refine ⟨hlt, nodup_aggregateSignatureAuthors hnodup _, p, ?_⟩
  rw [hauthors]
  exact Iff.mp checkVotingPower_true_eq_ok hcheck

end Verify

/-! ### Aggregated signatures -/

section Aggregate

variable {v : ValidatorVerifier}

/-- The bitmask loop of `aggregate_signatures` from a bitmask `init`: every signer is known, and a
bit is set when it was set before or is a signer's index modulo `2^16`. -/
private theorem foldlM_setSigner {sigs : List (AccountAddress × Signature)} {init masks : BitVec}
    (h : sigs.foldlM (fun masks p => v.setSigner masks p.1) init = .ok masks) :
    (∀ p ∈ sigs, (v.addressToValidatorIndex p.1).isSome) ∧
      ∀ i, masks.bits.getD i false = true ↔ init.bits.getD i false = true ∨
        ∃ p ∈ sigs, ∃ j, v.addressToValidatorIndex p.1 = some j ∧ j % 65536 = i := by
  induction sigs generalizing init with
  | nil =>
    simp only [List.foldlM_nil, Except.pure_eq_ok, Except.ok.injEq] at h
    subst h
    simp
  | cons p sigs ih =>
    rw [List.foldlM_cons] at h
    obtain ⟨m, hm, hrest⟩ := Except.bind_eq_ok.mp h
    obtain ⟨j, hj, hm⟩ := Except.bind_eq_ok.mp hm
    rw [okOr_eq_ok] at hj
    simp only [Except.pure_eq_ok, Except.ok.injEq] at hm
    subst hm
    obtain ⟨hknown, hbits⟩ := ih hrest
    refine ⟨?_, fun i => ?_⟩
    · intro q hq
      rcases List.mem_cons.mp hq with rfl | hq
      · simp [hj]
      · exact hknown q hq
    · rw [hbits, BitVec.getD_set]
      simp only [Bool.or_eq_true, decide_eq_true_eq, List.mem_cons, exists_eq_or_imp, hj,
        Option.some.injEq, exists_eq_left', Nat.toUInt16_eq]
      constructor
      · rintro ((hi | hi) | hi) <;> simp_all
      · rintro (hi | hi | hi) <;> simp_all

/-- One signer's aggregate sets its index, cast to `u16`, in a bitmask of `len` bits. -/
theorem aggregateSignatures_singleton {bls : Bls} {a : AccountAddress} {i : Nat} {s : Signature}
    (hidx : v.addressToValidatorIndex a = some i) :
    v.aggregateSignatures bls [(a, s)] =
      (fun sig => ⟨(BitVec.withNumBits v.len.toUInt16).set i.toUInt16, some sig⟩) <$>
        okOr (bls.aggregate [s]) .failedToAggregateSignature := by
  simp only [aggregateSignatures, List.foldlM_cons, List.foldlM_nil, setSigner, hidx, okOr]
  rfl

/-- Within `2^16` validators, `aggregate_signatures` names exactly the signers. -/
theorem aggregateSignatures_authors (hlen : v.len ≤ 65536) {bls : Bls}
    {sigs : List (AccountAddress × Signature)} {aggregated : AggregateSignature}
    (h : v.aggregateSignatures bls sigs = .ok aggregated) (a : AccountAddress) :
    a ∈ v.aggregateSignatureAuthors aggregated ↔ a ∈ sigs.map Prod.fst := by
  obtain ⟨masks, hfold, h⟩ := Except.bind_eq_ok.mp h
  obtain ⟨s, -, h⟩ := Except.bind_eq_ok.mp h
  simp only [Except.pure_eq_ok, Except.ok.injEq] at h
  subst h
  obtain ⟨hknown, hbits⟩ := foldlM_setSigner hfold
  have hmod : ∀ {j}, v.validatorInfos[j]? ≠ none → j % 65536 = j := by
    intro j hj
    have hj' : j < v.validatorInfos.length := by
      by_contra hge
      exact hj (List.getElem?_eq_none (by omega))
    unfold len at hlen
    exact Nat.mod_eq_of_lt (by omega)
  rw [mem_aggregateSignatureAuthors]
  simp only [BitVec.mem_iterOnes_iff, hbits, BitVec.getD_withNumBits, Bool.false_eq_true, false_or]
  constructor
  · rintro ⟨i, ⟨p, hp, j, hj, rfl⟩, info, hinfo, rfl⟩
    obtain ⟨info', hinfo', haddr⟩ := addressToValidatorIndex_sound hj
    rw [hmod (by simp [hinfo'])] at hinfo
    rw [hinfo, Option.some.injEq] at hinfo'
    subst hinfo'
    exact List.mem_map.mpr ⟨p, hp, haddr.symm⟩
  · intro ha
    obtain ⟨p, hp, rfl⟩ := List.mem_map.mp ha
    obtain ⟨j, hj⟩ := Option.isSome_iff_exists.mp (hknown p hp)
    obtain ⟨info, hinfo, haddr⟩ := addressToValidatorIndex_sound hj
    exact ⟨j, ⟨p, hp, j, hj, hmod (by simp [hinfo])⟩, info, hinfo, haddr⟩

end Aggregate

end ValidatorVerifier

end CreditChain
