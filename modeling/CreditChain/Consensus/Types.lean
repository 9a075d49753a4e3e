import CreditChain.Types.LedgerInfo

/-!
# Votes, quorum certificates and timeouts

`consensus/consensus-types`: the vote a validator sends, the quorum certificate a quorum of votes
makes, and the 2-chain timeout with the certificate a quorum of timeouts makes.  A timeout
certificate does not carry every signer's timeout: each signer signs the `(epoch, round)` of the
timeout with its own highest certified round, and the certificate keeps one such round per signer
in the order of the signer bitmask, next to the timeout with the highest of them.

The cryptography is taken as given (`Crypto`), and the failed `assert_eq!` of
`AggregateSignatureWithRounds::new` is a panic, `none`.
-/

namespace CreditChain

/-- An `anyhow::Error`: a message, a `VerifyError` passed on by `?`, or an error under a
`context`. -/
inductive AnyhowError where
  | msg (message : String)
  | verify (error : VerifyError)
  | context (message : String) (error : AnyhowError)
  deriving DecidableEq

/-- `VoteData`: the block voted for and its parent. -/
structure VoteData where
  proposed : BlockInfo
  parent : BlockInfo
  deriving DecidableEq

/-- `TimeoutSigningRepr`: what a timeout signature signs. -/
structure TimeoutSigningRepr where
  epoch : Nat
  round : Round
  hqcRound : Round
  deriving DecidableEq

/-- The cryptography of the consensus types: BLS12-381, and the `CryptoHash` of each message that
is hashed or signed. -/
structure Crypto where
  bls : Bls
  ledgerInfoHash : LedgerInfo → HashValue
  voteDataHash : VoteData → HashValue
  timeoutSigningReprHash : TimeoutSigningRepr → HashValue

namespace BitVec

/-- `BitVec::count_ones`. -/
def countOnes (bv : BitVec) : Nat :=
  bv.bits.count true

end BitVec

namespace AggregateSignature

/-- `AggregateSignature::get_num_voters`. -/
def getNumVoters (sig : AggregateSignature) : Nat :=
  sig.validatorBitmask.countOnes

/-- `AggregateSignature::get_signers_addresses`: the addresses at the set bits. -/
def getSignersAddresses (sig : AggregateSignature) (validatorAddresses : List AccountAddress) :
    List AccountAddress :=
  validatorAddresses.zipIdx.filterMap fun p =>
    if sig.validatorBitmask.isSet p.2.toUInt16 then some p.1 else none

end AggregateSignature

namespace LedgerInfoWithSignatures

/-- `LedgerInfoWithSignatures::verify_signatures`. -/
def verifySignatures (c : Crypto) (li : LedgerInfoWithSignatures) (validator : ValidatorVerifier) :
    Except VerifyError Unit :=
  validator.verifyMultiSignatures c.bls (c.ledgerInfoHash li.ledgerInfo) li.signatures

end LedgerInfoWithSignatures

namespace VoteData

/-- `VoteData::verify`: the well-formedness of a parent and its child. -/
def verify (d : VoteData) : Except AnyhowError Unit := do
  Except.ensure (d.parent.epoch = d.proposed.epoch) (.msg "Parent and proposed epochs do not match")
  Except.ensure (d.parent.round < d.proposed.round) (.msg "Proposed round is less than parent round")
  Except.ensure (d.parent.timestampUsecs ≤ d.proposed.timestampUsecs)
    (.msg "Proposed happened before parent")
  Except.ensure (d.proposed.version = 0 ∨ d.parent.version ≤ d.proposed.version)
    (.msg "Proposed version is less than parent version")

end VoteData

/-- `QuorumCert`: a block, its parent, and the ledger info a quorum signed over them. -/
structure QuorumCert where
  voteData : VoteData
  signedLedgerInfo : LedgerInfoWithSignatures
  deriving DecidableEq

namespace QuorumCert

/-- `QuorumCert::certified_block`. -/
def certifiedBlock (qc : QuorumCert) : BlockInfo :=
  qc.voteData.proposed

/-- `QuorumCert::parent_block`. -/
def parentBlock (qc : QuorumCert) : BlockInfo :=
  qc.voteData.parent

/-- `QuorumCert::commit_info`. -/
def commitInfo (qc : QuorumCert) : BlockInfo :=
  qc.signedLedgerInfo.ledgerInfo.commitInfo

/-- `QuorumCert::verify`: the certificate of a block of round zero is a genesis certificate and
carries no signature. -/
def verify (c : Crypto) (qc : QuorumCert) (validator : ValidatorVerifier) :
    Except AnyhowError Unit := do
  Except.ensure (qc.signedLedgerInfo.ledgerInfo.consensusDataHash = c.voteDataHash qc.voteData)
    (.msg "Quorum Cert's hash mismatch LedgerInfo")
  if qc.certifiedBlock.round = 0 then
    Except.ensure (qc.parentBlock = qc.certifiedBlock)
      (.msg "Genesis QC has inconsistent parent block with certified block")
    Except.ensure (qc.certifiedBlock = qc.commitInfo)
      (.msg "Genesis QC has inconsistent commit block with certified block")
    Except.ensure (qc.signedLedgerInfo.signatures.getNumVoters = 0)
      (.msg "Genesis QC should not carry signatures")
  else
    (qc.signedLedgerInfo.verifySignatures c validator).mapError
      (.context "Fail to verify QuorumCert" ∘ .verify)
    qc.voteData.verify

end QuorumCert

/-- `TwoChainTimeout`: a timeout of a round, with the highest quorum certificate its signer has
seen. -/
structure TwoChainTimeout where
  epoch : Nat
  round : Round
  quorumCert : QuorumCert
  deriving DecidableEq

namespace TwoChainTimeout

/-- `TwoChainTimeout::hqc_round`. -/
def hqcRound (t : TwoChainTimeout) : Round :=
  t.quorumCert.certifiedBlock.round

/-- `TwoChainTimeout::signing_format`. -/
def signingFormat (t : TwoChainTimeout) : TimeoutSigningRepr :=
  ⟨t.epoch, t.round, t.hqcRound⟩

/-- `TwoChainTimeout::verify`. -/
def verify (c : Crypto) (t : TwoChainTimeout) (validators : ValidatorVerifier) :
    Except AnyhowError Unit := do
  Except.ensure (t.hqcRound < t.round) (.msg "Timeout round should be larger than the QC round")
  t.quorumCert.verify c validators

end TwoChainTimeout

/-- `AggregateSignatureWithRounds`: an aggregated timeout signature with the signed highest
certified round of each signer, in the order of the signer bitmask. -/
structure AggregateSignatureWithRounds where
  sig : AggregateSignature
  rounds : List Round
  deriving DecidableEq

namespace AggregateSignatureWithRounds

/-- `AggregateSignatureWithRounds::new`; `none` when its `assert_eq!` of one round per signer
panics. -/
def new (sig : AggregateSignature) (rounds : List Round) : Option AggregateSignatureWithRounds :=
  if sig.getNumVoters = rounds.length then some ⟨sig, rounds⟩ else none

/-- `AggregateSignatureWithRounds::get_voters_and_rounds`. -/
def getVotersAndRounds (s : AggregateSignatureWithRounds)
    (orderedValidatorAddresses : List AccountAddress) : List (AccountAddress × Round) :=
  (s.sig.getSignersAddresses orderedValidatorAddresses).zip s.rounds

end AggregateSignatureWithRounds

/-- `TwoChainTimeoutCertificate`. -/
structure TwoChainTimeoutCertificate where
  timeout : TwoChainTimeout
  signaturesWithRounds : AggregateSignatureWithRounds
  deriving DecidableEq

namespace TwoChainTimeoutCertificate

/-- `TwoChainTimeoutCertificate::round`. -/
def round (tc : TwoChainTimeoutCertificate) : Round :=
  tc.timeout.round

/-- `TwoChainTimeoutCertificate::highest_hqc_round`. -/
def highestHqcRound (tc : TwoChainTimeoutCertificate) : Round :=
  tc.timeout.hqcRound

/-- `TwoChainTimeoutCertificate::verify`: the timeout it carries verifies, the aggregate verifies
over the signers' `(epoch, round, hqc_round)` messages, and the timeout's certified round is the
highest signed one. -/
def verify (c : Crypto) (tc : TwoChainTimeoutCertificate) (validators : ValidatorVerifier) :
    Except AnyhowError Unit := do
  let hqcRound := tc.timeout.hqcRound
  let timeoutResult := tc.timeout.verify c validators
  let timeoutMessages :=
    (tc.signaturesWithRounds.getVotersAndRounds validators.getOrderedAccountAddresses).map fun p =>
      c.timeoutSigningReprHash ⟨tc.timeout.epoch, tc.timeout.round, p.2⟩
  let sigResult := validators.verifyAggregateSignatures c.bls timeoutMessages
    tc.signaturesWithRounds.sig
  timeoutResult
  sigResult.mapError .verify
  let signedHqc ← okOr tc.signaturesWithRounds.rounds.max? (.msg "Empty rounds")
  Except.ensure (hqcRound = signedHqc)
    (.msg s!"Inconsistent hqc round, qc has round {hqcRound}, highest signed round {signedHqc}")

end TwoChainTimeoutCertificate

/-- `PartialSignaturesWithRound`: each signer's signed highest certified round and signature. -/
structure PartialSignaturesWithRound where
  signatures : Std.TreeMap AccountAddress (Round × Signature)

namespace PartialSignaturesWithRound

/-- `PartialSignaturesWithRound::empty`. -/
def empty : PartialSignaturesWithRound :=
  ⟨∅⟩

/-- `PartialSignaturesWithRound::add_signature`: a signer's first round and signature stay. -/
def addSignature (s : PartialSignaturesWithRound) (validator : AccountAddress) (round : Round)
    (signature : Signature) : PartialSignaturesWithRound :=
  ⟨s.signatures.insertIfNew validator (round, signature)⟩

/-- `PartialSignaturesWithRound::get_partial_sig_with_rounds`: the signatures of the known
signers, and their rounds in the order of their validator indices. -/
def getPartialSigWithRounds (s : PartialSignaturesWithRound)
    (addressToValidatorIndex : AccountAddress → Option Nat) :
    Std.TreeMap AccountAddress Signature × List Round :=
  let collected := s.signatures.toList.foldl (fun acc p =>
      match addressToValidatorIndex p.1 with
      | some index => (acc.1.insert p.1 p.2.2, acc.2.insert index p.2.1)
      | none => acc)
    ((∅ : Std.TreeMap AccountAddress Signature), (∅ : Std.TreeMap Nat Round))
  (collected.1, collected.2.values)

end PartialSignaturesWithRound

/-- `TwoChainTimeoutWithPartialSignatures`: the timeout with the highest certified round so far
and the partial signatures. -/
structure TwoChainTimeoutWithPartialSignatures where
  timeout : TwoChainTimeout
  signatures : PartialSignaturesWithRound

namespace TwoChainTimeoutWithPartialSignatures

/-- `TwoChainTimeoutWithPartialSignatures::new`. -/
def new (timeout : TwoChainTimeout) : TwoChainTimeoutWithPartialSignatures :=
  ⟨timeout, .empty⟩

theorem timeout_new (timeout : TwoChainTimeout) : (new timeout).timeout = timeout := rfl

theorem signatures_new (timeout : TwoChainTimeout) : (new timeout).signatures.signatures = ∅ := rfl

/-- `TwoChainTimeoutWithPartialSignatures::signers`. -/
def signers (p : TwoChainTimeoutWithPartialSignatures) : List AccountAddress :=
  p.signatures.signatures.keys

/-- `TwoChainTimeoutWithPartialSignatures::highest_hqc_round`. -/
def highestHqcRound (p : TwoChainTimeoutWithPartialSignatures) : Round :=
  p.timeout.hqcRound

/-- `TwoChainTimeoutWithPartialSignatures::add` as built for release, without its
`debug_assert_eq!`s: the timeout is replaced by one of a higher certified round, and the author's
first round and signature stay. -/
def add (p : TwoChainTimeoutWithPartialSignatures) (author : AccountAddress)
    (timeout : TwoChainTimeout) (signature : Signature) : TwoChainTimeoutWithPartialSignatures :=
  let hqcRound := timeout.hqcRound
  let p := if timeout.hqcRound > p.timeout.hqcRound then { p with timeout := timeout } else p
  { p with signatures := p.signatures.addSignature author hqcRound signature }

/-- `TwoChainTimeoutWithPartialSignatures::aggregate_signatures`; `none` when it panics. -/
def aggregateSignatures (bls : Bls) (p : TwoChainTimeoutWithPartialSignatures)
    (verifier : ValidatorVerifier) : Option (Except VerifyError TwoChainTimeoutCertificate) :=
  let (partialSig, orderedRounds) :=
    p.signatures.getPartialSigWithRounds verifier.addressToValidatorIndex
  match verifier.aggregateSignatures bls partialSig.toList with
  | .error e => some (.error e)
  | .ok aggregatedSig =>
    (AggregateSignatureWithRounds.new aggregatedSig orderedRounds).map fun s => .ok ⟨p.timeout, s⟩

end TwoChainTimeoutWithPartialSignatures

/-- `Vote`. -/
structure Vote where
  voteData : VoteData
  author : AccountAddress
  ledgerInfo : LedgerInfo
  signature : SignatureWithStatus
  twoChainTimeout : Option (TwoChainTimeout × Signature)
  deriving DecidableEq

namespace Vote

/-- `Vote::is_timeout`. -/
def isTimeout (vote : Vote) : Bool :=
  vote.twoChainTimeout.isSome

/-- `Vote::epoch`. -/
def epoch (vote : Vote) : Nat :=
  vote.voteData.proposed.epoch

end Vote

/-- `RoundTimeoutReason`. -/
inductive RoundTimeoutReason where
  | unknown
  | proposalNotReceived
  | payloadUnavailable (missingAuthors : BitVec)
  | noQC
  deriving DecidableEq

/-- `RoundTimeout`. -/
structure RoundTimeout where
  timeout : TwoChainTimeout
  author : AccountAddress
  reason : RoundTimeoutReason
  signature : Signature
  deriving DecidableEq

end CreditChain
