import CreditChain.Types.ValidatorVerifier

/-!
# Ledger infos and the signature aggregator

`types/src/block_info.rs`, `types/src/epoch_state.rs` and `types/src/ledger_info.rs`: the block
info a ledger info commits, and `SignatureAggregator`, which collects the validators' signatures
on one message and aggregates them once they carry a quorum.  `aggregate_and_verify` first
aggregates optimistically; when the aggregate does not verify, it drops the signatures that do not
verify one by one and aggregates the rest without verifying again.

Whatever the signatures are, an aggregate it returns names the aggregator's remaining signers, and
they hold a quorum (`aggregateAndVerify_eq_ok`); the signers only ever shrink.
-/

namespace CreditChain

/-- `Round`. -/
abbrev Round := Nat

/-- `EpochState`. -/
structure EpochState where
  epoch : Nat
  verifier : ValidatorVerifier
  deriving DecidableEq

/-- `BlockInfo`. -/
structure BlockInfo where
  epoch : Nat
  round : Round
  id : HashValue
  executedStateId : HashValue
  version : Nat
  timestampUsecs : Nat
  nextEpochState : Option EpochState
  deriving DecidableEq

/-- `LedgerInfo`. -/
structure LedgerInfo where
  commitInfo : BlockInfo
  consensusDataHash : HashValue
  deriving DecidableEq

/-- `LedgerInfoWithSignatures`, in its only version `V0`. -/
structure LedgerInfoWithSignatures where
  ledgerInfo : LedgerInfo
  signatures : AggregateSignature
  deriving DecidableEq

/-- `SignatureWithStatus`: a signature and whether it has been verified. -/
structure SignatureWithStatus where
  signature : Signature
  verified : Bool
  deriving DecidableEq

namespace ValidatorVerifier

/-- `ValidatorVerifier::filter_invalid_signatures`: a signature is kept, and marked verified, when
it was verified before or verifies now. -/
def filterInvalidSignatures (bls : Bls) (v : ValidatorVerifier) (message : HashValue)
    (signatures : Std.TreeMap AccountAddress SignatureWithStatus) :
    Std.TreeMap AccountAddress SignatureWithStatus :=
  .ofList (signatures.toList.filterMap fun p =>
    if p.2.verified || (v.verify bls p.1 message p.2.signature).isOk then
      some (p.1, { p.2 with verified := true })
    else none)

end ValidatorVerifier

/-- `SignatureAggregator<T>`: the message and the signatures collected on it, by signer. -/
structure SignatureAggregator (T : Type) where
  data : T
  signatures : Std.TreeMap AccountAddress SignatureWithStatus

namespace SignatureAggregator

variable {T : Type}

/-- `SignatureAggregator::new`. -/
def new (data : T) : SignatureAggregator T :=
  ⟨data, ∅⟩

/-- `SignatureAggregator::add_signature`: a signer's later signature replaces an earlier one. -/
def addSignature (agg : SignatureAggregator T) (validator : AccountAddress)
    (signature : SignatureWithStatus) : SignatureAggregator T :=
  { agg with signatures := agg.signatures.insert validator signature }

/-- `SignatureAggregator::all_voters`. -/
def allVoters (agg : SignatureAggregator T) : List AccountAddress :=
  agg.signatures.keys

theorem allVoters_eq (agg : SignatureAggregator T) : agg.allVoters = agg.signatures.keys := rfl

/-- `SignatureAggregator::check_voting_power`. -/
def checkVotingPower (agg : SignatureAggregator T) (verifier : ValidatorVerifier)
    (checkSuperMajority : Bool) : Except VerifyError Nat :=
  verifier.checkVotingPower agg.allVoters checkSuperMajority

/-- `SignatureAggregator::try_aggregate`. -/
def tryAggregate (bls : Bls) (agg : SignatureAggregator T) (verifier : ValidatorVerifier) :
    Except VerifyError AggregateSignature := do
  let _ ← agg.checkVotingPower verifier true
  verifier.aggregateSignatures bls (agg.signatures.toList.map fun p => (p.1, p.2.signature))

/-- `SignatureAggregator::filter_invalid_signatures`. -/
def filterInvalidSignatures (bls : Bls) (hash : T → HashValue) (agg : SignatureAggregator T)
    (verifier : ValidatorVerifier) : SignatureAggregator T :=
  { agg with signatures := verifier.filterInvalidSignatures bls (hash agg.data) agg.signatures }

/-- `SignatureAggregator::aggregate_and_verify`, with the aggregator it leaves behind: when the
optimistic aggregate fails to verify, the invalid signatures are dropped and the rest aggregated
again, unverified. -/
def aggregateAndVerify (bls : Bls) (hash : T → HashValue) (agg : SignatureAggregator T)
    (verifier : ValidatorVerifier) :
    Except VerifyError (T × AggregateSignature) × SignatureAggregator T :=
  match agg.tryAggregate bls verifier with
  | .error e => (.error e, agg)
  | .ok aggregatedSig =>
    match verifier.verifyMultiSignatures bls (hash agg.data) aggregatedSig with
    | .ok () => (.ok (agg.data, aggregatedSig), agg)
    | .error _ =>
      let filtered := agg.filterInvalidSignatures bls hash verifier
      match filtered.tryAggregate bls verifier with
      | .ok aggregatedSig => (.ok (filtered.data, aggregatedSig), filtered)
      | .error e => (.error e, filtered)

section Lemmas

variable {bls : Bls} {hash : T → HashValue} {verifier : ValidatorVerifier}
  {agg : SignatureAggregator T}

theorem nodup_allVoters (agg : SignatureAggregator T) : agg.allVoters.Nodup := by
  have hdistinct := agg.signatures.distinct_keys
  simp only [compare_eq_iff_eq] at hdistinct
  exact hdistinct

theorem mem_allVoters {a : AccountAddress} : a ∈ agg.allVoters ↔ a ∈ agg.signatures :=
  Std.TreeMap.mem_keys

theorem mem_signatures_of_mem_toList {p : AccountAddress × SignatureWithStatus}
    (hp : p ∈ agg.signatures.toList) : p.1 ∈ agg.signatures := by
  rw [← mem_allVoters, allVoters_eq, ← Std.TreeMap.map_fst_toList_eq_keys]
  exact List.mem_map_of_mem hp

theorem mem_filterInvalidSignatures {a : AccountAddress}
    (h : a ∈ (agg.filterInvalidSignatures bls hash verifier).signatures) : a ∈ agg.signatures := by
  simp only [filterInvalidSignatures, ValidatorVerifier.filterInvalidSignatures,
    Std.TreeMap.mem_ofList, List.contains_iff_mem, List.mem_map, List.mem_filterMap] at h
  obtain ⟨_, ⟨p, hp, hsome⟩, rfl⟩ := h
  split_ifs at hsome
  cases hsome
  exact mem_signatures_of_mem_toList (p := p) hp


theorem tryAggregate_eq_ok {sig : AggregateSignature} (h : agg.tryAggregate bls verifier = .ok sig) :
    (∃ p, verifier.sumVotingPower agg.allVoters = .ok p ∧ verifier.quorumVotingPower ≤ p) ∧
      verifier.aggregateSignatures bls (agg.signatures.toList.map fun p => (p.1, p.2.signature)) =
        .ok sig := by
  obtain ⟨p, hcheck, h⟩ := Except.bind_eq_ok.mp h
  exact ⟨⟨p, ValidatorVerifier.checkVotingPower_true_eq_ok.mp hcheck⟩, h⟩

/-- Within `2^16` validators of distinct addresses, an aggregate of `try_aggregate` names exactly
the aggregator's signers, distinct validators that hold a quorum. -/
theorem tryAggregate_signers (hnodup : (verifier.validatorInfos.map (·.address)).Nodup)
    (hlen : verifier.len ≤ 65536) {sig : AggregateSignature}
    (h : agg.tryAggregate bls verifier = .ok sig) :
    (verifier.aggregateSignatureAuthors sig).Nodup ∧
      (∀ a, a ∈ verifier.aggregateSignatureAuthors sig ↔ a ∈ agg.signatures) ∧
      ∃ p, verifier.sumVotingPower (verifier.aggregateSignatureAuthors sig) = .ok p ∧
        verifier.quorumVotingPower ≤ p := by
  obtain ⟨⟨p, hsum, hq⟩, hagg⟩ := tryAggregate_eq_ok h
  have hmem : ∀ a, a ∈ verifier.aggregateSignatureAuthors sig ↔ a ∈ agg.signatures := by
    intro a
    rw [ValidatorVerifier.aggregateSignatures_authors hlen hagg, List.map_map, ← mem_allVoters,
      allVoters_eq, ← Std.TreeMap.map_fst_toList_eq_keys]
    rfl
  have hnodupAuthors := ValidatorVerifier.nodup_aggregateSignatureAuthors hnodup sig
  have hknown := (ValidatorVerifier.sumVotingPower_eq_ok.mp hsum).1
  have hknownAuthors : ∀ a ∈ verifier.aggregateSignatureAuthors sig,
      (verifier.getVotingPower a).isSome :=
    fun a ha => hknown a (Iff.mpr mem_allVoters ((hmem a).mp ha))
  have hset : (verifier.aggregateSignatureAuthors sig).toFinset = agg.allVoters.toFinset := by
    ext a
    simp only [List.mem_toFinset, hmem, mem_allVoters]
  rw [ValidatorVerifier.sumVotingPower_eq_weight (nodup_allVoters agg) hknown,
    Except.ok.injEq] at hsum
  refine ⟨hnodupAuthors, hmem, p, ?_, hq⟩
  rw [ValidatorVerifier.sumVotingPower_eq_weight hnodupAuthors hknownAuthors, hset, hsum]

/-- `aggregate_and_verify` returns what `try_aggregate` makes of the aggregator it leaves behind,
which is the aggregator itself or the one with the invalid signatures dropped. -/
theorem aggregateAndVerify_eq (bls : Bls) (hash : T → HashValue) (agg : SignatureAggregator T)
    (verifier : ValidatorVerifier) :
    ∃ agg', (agg' = agg ∨ agg' = agg.filterInvalidSignatures bls hash verifier) ∧
      agg.aggregateAndVerify bls hash verifier =
        ((fun sig => (agg.data, sig)) <$> agg'.tryAggregate bls verifier, agg') := by
  unfold aggregateAndVerify
  split
  · rename_i e he
    exact ⟨agg, Or.inl rfl, by rw [he]; rfl⟩
  · rename_i sig hsig
    split
    · exact ⟨agg, Or.inl rfl, by rw [hsig]; rfl⟩
    · dsimp only
      refine ⟨_, Or.inr rfl, ?_⟩
      split <;> rename_i hfiltered <;> rw [hfiltered] <;> rfl

@[simp] theorem aggregateAndVerify_data :
    (agg.aggregateAndVerify bls hash verifier).2.data = agg.data := by
  obtain ⟨agg', hagg' | hagg', heq⟩ := aggregateAndVerify_eq bls hash agg verifier
  · rw [heq, hagg']
  · rw [heq, hagg']
    rfl

/-- `aggregate_and_verify` only ever drops signatures. -/
theorem mem_aggregateAndVerify {a : AccountAddress}
    (h : a ∈ (agg.aggregateAndVerify bls hash verifier).2.signatures) : a ∈ agg.signatures := by
  obtain ⟨agg', hagg' | hagg', heq⟩ := aggregateAndVerify_eq bls hash agg verifier <;>
    rw [heq, hagg'] at h
  · exact h
  · exact mem_filterInvalidSignatures h

/-- When the optimistic aggregate fails to verify, `aggregate_and_verify` returns the aggregate of
the signatures that verify one by one, and keeps only those. -/
theorem aggregateAndVerify_of_error {sig sig' : AggregateSignature} {e : VerifyError}
    (hfirst : agg.tryAggregate bls verifier = .ok sig)
    (hverify : verifier.verifyMultiSignatures bls (hash agg.data) sig = .error e)
    (hsecond : (agg.filterInvalidSignatures bls hash verifier).tryAggregate bls verifier = .ok sig') :
    agg.aggregateAndVerify bls hash verifier =
      (.ok (agg.data, sig'), agg.filterInvalidSignatures bls hash verifier) := by
  simp only [aggregateAndVerify, hfirst, hverify, hsecond]
  rfl

/-- An aggregate that `aggregate_and_verify` returns is the one `try_aggregate` makes of the
aggregator it leaves behind, on the aggregator's message. -/
theorem aggregateAndVerify_eq_ok {data : T} {sig : AggregateSignature}
    (h : (agg.aggregateAndVerify bls hash verifier).1 = .ok (data, sig)) :
    data = agg.data ∧
      (agg.aggregateAndVerify bls hash verifier).2.tryAggregate bls verifier = .ok sig := by
  obtain ⟨agg', -, heq⟩ := aggregateAndVerify_eq bls hash agg verifier
  rw [heq] at h ⊢
  obtain ⟨sig', hsig', hpair⟩ := Except.map_eq_ok.mp h
  simp only [Prod.mk.injEq] at hpair
  obtain ⟨rfl, rfl⟩ := hpair
  exact ⟨rfl, hsig'⟩

end Lemmas

end SignatureAggregator

end CreditChain
