import CreditChain.Types.TrustedState
import CreditChain.Proof.Accumulator

/-!
# The safety rules of a validator

`consensus/safety-rules`: the component that holds a validator's consensus key and signs
proposals, votes, timeouts, order votes and commit votes only when the 2-chain rules allow it.
What it must remember across restarts, `SafetyData` (the epoch, the last voted round, the
one-chain and preferred rounds, the last vote and the highest timeout round), is kept in a secure
storage behind `PersistentSafetyStorage`, with an in-memory copy of the safety data as a cache.

The secure storage is `InMemoryStorage`: one entry for each key the safety rules read, a missing
key is `KeyNotSet`, and a write always succeeds.  The cryptography, the hashes of the messages
and the checks of a block's payload are taken as given (`SafetyEnv`).  Where the source renders an
error or a value with `to_string`, the model keeps the value.

A `&mut self` method that fails keeps what it changed before it failed, so each call returns its
result with the new state, and `gen_vote_data`, which may panic in the accumulator, makes the vote
call `Option`.
-/

namespace CreditChain

/-- `bls12381::PrivateKey`. -/
abbrev PrivateKey := Nat

/-- `Payload`: the block checks only ask whether it is empty and whether it is of an epoch. -/
abbrev Payload := Nat

/-! ### Blocks -/

/-- `BlockType`, with the fields the checks of a block read. -/
inductive BlockType where
  | proposal (payload : Payload) (author : AccountAddress)
      (failedAuthors : List (Round × AccountAddress))
  | nilBlock (failedAuthors : List (Round × AccountAddress))
  | genesis
  | proposalExt (payload : Option Payload) (author : AccountAddress)
      (failedAuthors : List (Round × AccountAddress))
  | optimisticProposal (payload : Payload) (author : AccountAddress) (grandparentQc : QuorumCert)
  | dagBlock (author : AccountAddress) (failedAuthors : List (Round × AccountAddress))
      (payload : Payload) (parentBlockId : HashValue)
  deriving DecidableEq

/-- `BlockData`. -/
structure BlockData where
  epoch : Nat
  round : Round
  timestampUsecs : Nat
  quorumCert : QuorumCert
  blockType : BlockType
  deriving DecidableEq

/-- What the safety rules take as given: the cryptography, the hashes of the messages they sign,
the accumulator's hasher, and the checks of a payload. -/
structure SafetyEnv where
  crypto : Crypto
  waypointHash : Ledger2WaypointConverter → HashValue
  blockDataHash : BlockData → HashValue
  /-- The internal node hash of `TransactionAccumulatorHasher`. -/
  accumulatorInternal : HashValue → HashValue → HashValue
  /-- `ACCUMULATOR_PLACEHOLDER_HASH`. -/
  accumulatorPlaceholderHash : HashValue
  /-- `PrivateKey::public_key`. -/
  publicKey : PrivateKey → PublicKey
  /-- `PrivateKey::sign` of a message, given by its hash. -/
  sign : PrivateKey → HashValue → Signature
  /-- `Payload::is_empty`. -/
  payloadIsEmpty : Payload → Bool
  /-- `Payload::verify_epoch`. -/
  payloadVerifyEpoch : Payload → Nat → Except AnyhowError Unit

namespace BlockData

/-- `BlockData::author`. -/
def author (d : BlockData) : Option AccountAddress :=
  match d.blockType with
  | .proposal _ author _ | .dagBlock author _ _ _ => some author
  | .proposalExt _ author _ => some author
  | .optimisticProposal _ author _ => some author
  | _ => none

/-- `BlockData::payload`. -/
def payload (d : BlockData) : Option Payload :=
  match d.blockType with
  | .proposal payload _ _ | .dagBlock _ _ payload _ => some payload
  | .proposalExt payload _ _ => payload
  | .optimisticProposal payload _ _ => some payload
  | _ => none

/-- `BlockData::failed_authors`. -/
def failedAuthors (d : BlockData) : Option (List (Round × AccountAddress)) :=
  match d.blockType with
  | .proposal _ _ failedAuthors | .nilBlock failedAuthors | .dagBlock _ failedAuthors _ _ =>
    some failedAuthors
  | .proposalExt _ _ failedAuthors => some failedAuthors
  | .optimisticProposal .. | .genesis => none

/-- `BlockData::is_genesis_block`. -/
def isGenesisBlock (d : BlockData) : Bool :=
  d.blockType matches .genesis

/-- `BlockData::is_nil_block`. -/
def isNilBlock (d : BlockData) : Bool :=
  d.blockType matches .nilBlock _

end BlockData

/-- `Block`: its id, its data and the proposer's signature. -/
structure Block where
  id : HashValue
  blockData : BlockData
  signature : Option Signature
  deriving DecidableEq

/-- `BlockInfo::empty`. -/
def BlockInfo.empty : BlockInfo :=
  ⟨0, 0, 0, 0, 0, 0, none⟩

namespace BlockInfo

/-- `BlockInfo::is_ordered_only`: not empty, and with the dummy values of the ordering state
computer. -/
def isOrderedOnly (placeholderHash : HashValue) (b : BlockInfo) : Bool :=
  b ≠ BlockInfo.empty && b.nextEpochState.isNone && b.executedStateId = placeholderHash &&
    b.version = 0

/-- `BlockInfo::match_ordered_only`: the same block, the executed one possibly with an earlier
timestamp when it is a reconfiguration suffix. -/
def matchOrderedOnly (b executedBlockInfo : BlockInfo) : Bool :=
  b.epoch = executedBlockInfo.epoch && b.round = executedBlockInfo.round &&
    b.id = executedBlockInfo.id &&
    (b.timestampUsecs = executedBlockInfo.timestampUsecs ||
      (b.timestampUsecs > executedBlockInfo.timestampUsecs &&
        executedBlockInfo.nextEpochState.isSome))

end BlockInfo

namespace Block

variable (env : SafetyEnv)

/-- `Block::epoch`. -/
def epoch (b : Block) : Nat := b.blockData.epoch

/-- `Block::round`. -/
def round (b : Block) : Round := b.blockData.round

/-- `Block::quorum_cert`. -/
def quorumCert (b : Block) : QuorumCert := b.blockData.quorumCert

/-- `Block::timestamp_usecs`. -/
def timestampUsecs (b : Block) : Nat := b.blockData.timestampUsecs

/-- `Block::gen_block_info`. -/
def genBlockInfo (b : Block) (executedStateId : HashValue) (version : Nat)
    (nextEpochState : Option EpochState) : BlockInfo :=
  ⟨b.epoch, b.round, b.id, executedStateId, version, b.timestampUsecs, nextEpochState⟩

/-- `Block::validate_signature`: the proposer's signature and the quorum certificate (both are
checked, and the signature's error comes first). -/
def validateSignature (b : Block) (validator : ValidatorVerifier) : Except AnyhowError Unit :=
  match b.blockData.blockType with
  | .genesis => .error (.msg "We should not accept genesis from others")
  | .nilBlock _ => b.quorumCert.verify env.crypto validator
  | .proposal _ author _ | .proposalExt _ author _ => do
    let signature ← okOr b.signature (.msg "Missing signature in Proposal")
    let res1 := (validator.verify env.crypto.bls author (env.blockDataHash b.blockData)
      signature).mapError .verify
    let res2 := b.quorumCert.verify env.crypto validator
    res1
    res2
  | .optimisticProposal _ _ grandparentQc => do
    let res1 := grandparentQc.verify env.crypto validator
    let res2 := b.quorumCert.verify env.crypto validator
    res1
    res2
  | .dagBlock .. => .error (.msg "We should not accept DAG block from others")

/-- The `failed_authors` check of `verify_well_formed`: no more failed authors than skipped rounds,
at increasing rounds strictly between the parent's and the block's successor round. -/
def verifyFailedAuthors (parentRound succRound : Round)
    (failedAuthors : List (Round × AccountAddress)) : Except AnyhowError Unit := do
  -- `succ_round.checked_sub(parent.round() + 1)`
  Except.ensure (parentRound + 1 ≤ succRound) (.msg "Block round is smaller than block's parent round")
  Except.ensure (failedAuthors.length ≤ succRound - (parentRound + 1))
    (.msg "Block has more failed authors than missed rounds")
  let _ ← failedAuthors.foldlM (fun bound p => do
      Except.ensure (bound < p.1 ∧ p.1 < succRound) (.msg "Incorrect round in failed authors")
      pure p.1) parentRound

/-- `Block::verify_well_formed` at the time `nowUsecs`, as built for release (without its
`debug_checked_verify_eq!` of the id). -/
def verifyWellFormed (nowUsecs : Nat) (b : Block) : Except AnyhowError Unit := do
  Except.ensure (!b.blockData.isGenesisBlock) (.msg "We must not accept genesis from others")
  let parent := b.quorumCert.certifiedBlock
  Except.ensure (parent.round < b.round) (.msg "Block must have a greater round than parent's block")
  Except.ensure (parent.epoch = b.epoch) (.msg "block's parent should be in the same epoch")
  if parent.nextEpochState.isSome then
    Except.ensure (b.blockData.payload.all env.payloadIsEmpty)
      (.msg "Reconfiguration suffix should not carry payload")
  if let some payload := b.blockData.payload then
    env.payloadVerifyEpoch payload b.epoch
  if let some failedAuthors := b.blockData.failedAuthors then
    verifyFailedAuthors parent.round (b.round + if b.blockData.isNilBlock then 1 else 0) failedAuthors
  if b.blockData.isNilBlock || parent.nextEpochState.isSome then
    Except.ensure (b.timestampUsecs = parent.timestampUsecs)
      (.msg "Nil/reconfig suffix block must have same timestamp as parent")
  else
    Except.ensure (parent.timestampUsecs < b.timestampUsecs)
      (.msg "Blocks must have strictly increasing timestamps")
    -- `TIMEBOUND`, five minutes, added with `saturating_add`
    Except.ensure (b.timestampUsecs ≤ min (nowUsecs + 300000000) (2 ^ 64 - 1))
      (.msg "Blocks must not be too far in the future")
  Except.ensure (b.quorumCert.commitInfo.nextEpochState.isNone)
    (.msg "Block cannot be proposed in an epoch that has ended")

end Block

namespace Vote

/-- `Vote::new_with_signature`: a vote without a timeout, its signature not yet verified. -/
def newWithSignature (voteData : VoteData) (author : AccountAddress) (ledgerInfo : LedgerInfo)
    (signature : Signature) : Vote :=
  ⟨voteData, author, ledgerInfo, ⟨signature, false⟩, none⟩

end Vote

/-- `OrderVote`. -/
structure OrderVote where
  author : AccountAddress
  ledgerInfo : LedgerInfo
  signature : SignatureWithStatus
  deriving DecidableEq

/-- `OrderVote::new_with_signature`. -/
def OrderVote.newWithSignature (author : AccountAddress) (ledgerInfo : LedgerInfo)
    (signature : Signature) : OrderVote :=
  ⟨author, ledgerInfo, ⟨signature, false⟩⟩

/-- `VoteProposal`: a block, with the proof that the transactions it executes extend the
accumulator of its parent. -/
structure VoteProposal where
  accumulatorExtensionProof : AccumulatorExtensionProof HashValue
  block : Block
  nextEpochState : Option EpochState
  decoupledExecution : Bool
  deriving DecidableEq

namespace VoteProposal

variable (env : SafetyEnv)

/-- `VoteProposal::vote_data_ordering_only`: a dummy executed state and version. -/
def voteDataOrderingOnly (p : VoteProposal) : VoteData :=
  ⟨p.block.genBlockInfo env.accumulatorPlaceholderHash 0 p.nextEpochState,
    p.block.quorumCert.certifiedBlock⟩

/-- `VoteProposal::vote_data_with_extension_proof`. -/
def voteDataWithExtensionProof (p : VoteProposal) (newTree : InMemoryAccumulator HashValue) :
    VoteData :=
  ⟨p.block.genBlockInfo newTree.rootHash newTree.version.toNat p.nextEpochState,
    p.block.quorumCert.certifiedBlock⟩

/-- `VoteProposal::gen_vote_data`; `none` when the accumulator panics. -/
def genVoteData (p : VoteProposal) : Option (Except (AccumulatorError HashValue) VoteData) :=
  if p.decoupledExecution then some (.ok (p.voteDataOrderingOnly env))
  else
    (p.accumulatorExtensionProof.verify env.accumulatorInternal env.accumulatorPlaceholderHash
      p.block.quorumCert.certifiedBlock.executedStateId).map
      fun r => r.map (p.voteDataWithExtensionProof)

end VoteProposal

/-- `OrderVoteProposal`: a block, its block info and the quorum certificate on it. -/
structure OrderVoteProposal where
  block : Block
  blockInfo : BlockInfo
  quorumCert : QuorumCert
  deriving DecidableEq

/-- `Waypoint::new_epoch_boundary`. -/
def Waypoint.newEpochBoundary (hash : Ledger2WaypointConverter → HashValue) (li : LedgerInfo) :
    Except AnyhowError Waypoint := do
  Except.ensure li.nextEpochState.isSome (.msg "No validator set")
  pure (Waypoint.newAny hash li)

/-- `impl Verifier for Waypoint`, which is that of a trusted state at the waypoint: its own
ledger info checked against it, every epoch change required, and a ledger info stale below its
version. -/
def Waypoint.toVerifier (waypoint : Waypoint) : Verifier :=
  .trustedState (.epochWaypoint waypoint)

/-! ### The persisted state -/

/-- `SafetyData`. -/
structure SafetyData where
  epoch : Nat
  lastVotedRound : Round
  /-- The highest 2-chain round. -/
  preferredRound : Round
  /-- The highest 1-chain round. -/
  oneChainRound : Round
  lastVote : Option Vote
  highestTimeoutRound : Round
  deriving DecidableEq

/-- `SafetyData::new`. -/
def SafetyData.new (epoch lastVotedRound preferredRound oneChainRound : Nat) (lastVote : Option Vote)
    (highestTimeoutRound : Round) : SafetyData :=
  ⟨epoch, lastVotedRound, preferredRound, oneChainRound, lastVote, highestTimeoutRound⟩

/-- `safety_rules::Error`. -/
inductive Error where
  | incorrectEpoch (given expected : Nat)
  | incorrectRound (round : Round)
  | incorrectLastVotedRound (round lastVotedRound : Round)
  | incorrectPreferredRound (round preferredRound : Round)
  | invalidAccumulatorExtension (error : AccumulatorError HashValue)
  | invalidEpochChangeProof (error : AnyhowError)
  | internalError (error : AnyhowError)
  | invalidLedgerInfo
  | invalidProposal (error : AnyhowError)
  | invalidQuorumCertificate (error : AnyhowError)
  | notInitialized (name : String)
  | notSafeForOrderVote (round highestTimeoutRound : Round)
  | secureStorageMissingDataError (message : String)
  | secureStorageUnexpectedError (message : String)
  | serializationError (message : String)
  | validatorKeyNotFound (message : String)
  | validatorNotInSet (author : AccountAddress)
  | voteProposalSignatureNotFound
  | notSafeToVote (round qcRound tcRound hqcRound : Round)
  | notSafeToTimeout (round qcRound tcRound oneChainRound : Round)
  | invalidTimeoutCertificate (error : AnyhowError)
  | inconsistentExecutionResult (ordered executed : BlockInfo)
  | invalidOrderedLedgerInfo (ledgerInfo : LedgerInfo)
  | waypointOutOfDate (previousVersion updatedVersion currentEpoch providedEpoch : Nat)
  | invalidTimeout (error : AnyhowError)
  | invalidOneChainQuorumCertificate (qcBlockId blockId : HashValue)
  deriving DecidableEq

/-- The entries of the secure storage the safety rules use: `CONSENSUS_KEY`, `OWNER_ACCOUNT`,
`SAFETY_DATA`, `WAYPOINT`, and the explicit keys `consensus_<public key>`. -/
structure Storage where
  consensusKey : Option PrivateKey
  ownerAccount : Option AccountAddress
  safetyData : Option SafetyData
  waypoint : Option Waypoint
  explicitConsensusKeys : List (PublicKey × PrivateKey)

/-- `KVStorage::get` of `InMemoryStorage`, with its `KeyNotSet` turned into a safety-rules error. -/
def Storage.get {α : Type} (key : String) (entry : Option α) : Except Error α :=
  okOr entry (.secureStorageMissingDataError s!"Key not set: {key}")

/-- `PersistentSafetyStorage`: the secure storage, and a copy of its safety data. -/
structure PersistentSafetyStorage where
  enableCachedSafetyData : Bool
  cachedSafetyData : Option SafetyData
  internalStore : Storage

namespace PersistentSafetyStorage

/-- `PersistentSafetyStorage::set_safety_data`. -/
def setSafetyData (s : PersistentSafetyStorage) (data : SafetyData) : PersistentSafetyStorage :=
  { s with internalStore := { s.internalStore with safetyData := some data },
           cachedSafetyData := some data }

/-- `PersistentSafetyStorage::set_waypoint`. -/
def setWaypoint (s : PersistentSafetyStorage) (waypoint : Waypoint) : PersistentSafetyStorage :=
  { s with internalStore := { s.internalStore with waypoint := some waypoint } }

/-- `PersistentSafetyStorage::initialize`: the keys and the owner, safety data of epoch 1, and the
waypoint. -/
def initializeStorage (internalStore : Storage) (author : AccountAddress) (consensusPrivateKey : PrivateKey)
    (waypoint : Waypoint) (enableCachedSafetyData : Bool) : PersistentSafetyStorage :=
  let internalStore :=
    { internalStore with consensusKey := some consensusPrivateKey, ownerAccount := some author }
  let safetyData := SafetyData.new 1 0 0 0 none 0
  let s : PersistentSafetyStorage := ⟨enableCachedSafetyData, some safetyData, internalStore⟩
  (s.setSafetyData safetyData).setWaypoint waypoint

/-- `PersistentSafetyStorage::new`: an existing storage, with nothing cached. -/
def new (internalStore : Storage) (enableCachedSafetyData : Bool) : PersistentSafetyStorage :=
  ⟨enableCachedSafetyData, none, internalStore⟩

/-- `PersistentSafetyStorage::author`. -/
def author (s : PersistentSafetyStorage) : Except Error AccountAddress :=
  Storage.get "owner_account" s.internalStore.ownerAccount

/-- `PersistentSafetyStorage::waypoint`. -/
def waypoint (s : PersistentSafetyStorage) : Except Error Waypoint :=
  Storage.get "waypoint" s.internalStore.waypoint

/-- `PersistentSafetyStorage::consensus_sk_by_pk`: the explicit key of the public key, or else the
default one, which must be the key of that public key. -/
def consensusSkByPk (publicKey : PrivateKey → PublicKey) (s : PersistentSafetyStorage)
    (pk : PublicKey) : Except Error PrivateKey := do
  let key ← match s.internalStore.explicitConsensusKeys.lookup pk, s.internalStore.consensusKey with
    | some sk0, _ => pure sk0
    | none, some sk1 => pure sk1
    | none, none => throw (.validatorKeyNotFound "not found!")
  if publicKey key ≠ pk then
    throw (.secureStorageMissingDataError s!"Incorrect sk saved for {pk} the expected pk")
  pure key

/-- `PersistentSafetyStorage::safety_data`: the cached copy when caching is on and there is one,
else the stored one, which is then cached. -/
def safetyData (s : PersistentSafetyStorage) : Except Error SafetyData × PersistentSafetyStorage :=
  if !s.enableCachedSafetyData then
    (Storage.get "safety_data" s.internalStore.safetyData, s)
  else
    match s.cachedSafetyData with
    | some cachedSafetyData => (.ok cachedSafetyData, s)
    | none =>
      match Storage.get "safety_data" s.internalStore.safetyData with
      | .ok safetyData => (.ok safetyData, { s with cachedSafetyData := some safetyData })
      | .error e => (.error e, s)

end PersistentSafetyStorage

/-- `ValidatorSigner`: an author and its consensus key. -/
structure ValidatorSigner where
  author : AccountAddress
  privateKey : PrivateKey

/-- `ConsensusState`. -/
structure ConsensusState where
  safetyData : SafetyData
  waypoint : Waypoint
  inValidatorSet : Bool
  deriving DecidableEq

/-- `SafetyRules`: the storage, and what is kept in memory only. -/
structure SafetyRules where
  persistentStorage : PersistentSafetyStorage
  validatorSigner : Option ValidatorSigner
  epochState : Option EpochState
  /-- Signatures and well-formedness are not checked when consensus has checked them. -/
  skipSigVerify : Bool

/-- `next_round`: `checked_add` on `u64`. -/
def nextRound (round : Round) : Except Error Round :=
  if round + 1 < 2 ^ 64 then .ok (round + 1) else .error (.incorrectRound round)

namespace SafetyRules

variable (env : SafetyEnv)

/-- `SafetyRules::new`. -/
def new (persistentStorage : PersistentSafetyStorage) (skipSigVerify : Bool) : SafetyRules :=
  ⟨persistentStorage, none, none, skipSigVerify⟩

/-- `SafetyRules::signer`. -/
def signer (self : SafetyRules) : Except Error ValidatorSigner :=
  okOr self.validatorSigner (.notInitialized "validator_signer")

/-- `SafetyRules::epoch_state`. -/
def epochState? (self : SafetyRules) : Except Error EpochState :=
  okOr self.epochState (.notInitialized "epoch_state")

/-- `SafetyRules::sign`: the message, given by its hash, signed by the signer's key. -/
def sign (self : SafetyRules) (message : HashValue) : Except Error Signature := do
  let signer ← self.signer
  pure (env.sign signer.privateKey message)

/-- `self.persistent_storage.safety_data()`: the safety data, and the rules with the storage
that may have cached it. -/
def readSafetyData (self : SafetyRules) : Except Error SafetyData × SafetyRules :=
  let (safetyData, persistentStorage) := self.persistentStorage.safetyData
  (safetyData, { self with persistentStorage := persistentStorage })

/-- `self.persistent_storage.set_safety_data(..)`. -/
def setSafetyData (self : SafetyRules) (safetyData : SafetyData) : SafetyRules :=
  { self with persistentStorage := self.persistentStorage.setSafetyData safetyData }

/-- `SafetyRules::observe_qc`: the one-chain and preferred rounds raised to the rounds of the
certified block and its parent, and whether either moved. -/
def observeQc (qc : QuorumCert) (safetyData : SafetyData) : Bool × SafetyData :=
  let oneChain := qc.certifiedBlock.round
  let twoChain := qc.parentBlock.round
  let (updated, safetyData) :=
    if oneChain > safetyData.oneChainRound then (true, { safetyData with oneChainRound := oneChain })
    else (false, safetyData)
  if twoChain > safetyData.preferredRound then (true, { safetyData with preferredRound := twoChain })
  else (updated, safetyData)

/-- `SafetyRules::update_highest_timeout_round`. -/
def updateHighestTimeoutRound (timeout : TwoChainTimeout) (safetyData : SafetyData) : SafetyData :=
  if timeout.round > safetyData.highestTimeoutRound then
    { safetyData with highestTimeoutRound := timeout.round }
  else safetyData

/-- `SafetyRules::verify_and_update_preferred_round`, the second voting rule. -/
def verifyAndUpdatePreferredRound (quorumCert : QuorumCert) (safetyData : SafetyData) :
    Except Error (Bool × SafetyData) :=
  let preferredRound := safetyData.preferredRound
  let oneChainRound := quorumCert.certifiedBlock.round
  if oneChainRound < preferredRound then .error (.incorrectPreferredRound oneChainRound preferredRound)
  else .ok (observeQc quorumCert safetyData)

/-- `SafetyRules::verify_author`. -/
def verifyAuthor (self : SafetyRules) (author : Option AccountAddress) : Except Error Unit := do
  let validatorSignerAuthor := (← self.signer).author
  let author ← okOr author (.invalidProposal (.msg "No author found in the proposal"))
  Except.ensure (validatorSignerAuthor = author)
    (.invalidProposal (.msg "Proposal author is not validator signer!"))

/-- `SafetyRules::verify_epoch`. -/
def verifyEpoch (epoch : Nat) (safetyData : SafetyData) : Except Error Unit :=
  if epoch ≠ safetyData.epoch then .error (.incorrectEpoch epoch safetyData.epoch) else .ok ()

/-- `SafetyRules::verify_and_update_last_vote_round`, the first voting rule. -/
def verifyAndUpdateLastVoteRound (round : Round) (safetyData : SafetyData) :
    Except Error SafetyData :=
  if round ≤ safetyData.lastVotedRound then
    .error (.incorrectLastVotedRound round safetyData.lastVotedRound)
  else .ok { safetyData with lastVotedRound := round }

/-- `SafetyRules::verify_qc`. -/
def verifyQc (self : SafetyRules) (qc : QuorumCert) : Except Error Unit := do
  let epochState ← self.epochState?
  if !self.skipSigVerify then
    (qc.verify env.crypto epochState.verifier).mapError .invalidQuorumCertificate

/-- `SafetyRules::verify_tc`. -/
def verifyTc (self : SafetyRules) (tc : TwoChainTimeoutCertificate) : Except Error Unit := do
  let epochState ← self.epochState?
  if !self.skipSigVerify then
    (tc.verify env.crypto epochState.verifier).mapError .invalidTimeoutCertificate

/-- `if let Some(tc) = timeout_cert { self.verify_tc(tc)?; }`. -/
def verifyOptionalTc (self : SafetyRules) (timeoutCert : Option TwoChainTimeoutCertificate) :
    Except Error Unit :=
  match timeoutCert with
  | some tc => self.verifyTc env tc
  | none => .ok ()

/-- The checks of `SafetyRules::verify_proposal` after it reads the safety data. -/
def proposalChecks (nowUsecs : Nat) (self : SafetyRules) (proposedBlock : Block)
    (safetyData : SafetyData) : Except Error Unit := do
  verifyEpoch proposedBlock.epoch safetyData
  self.verifyQc env proposedBlock.quorumCert
  (if !self.skipSigVerify then do
      let epochState ← self.epochState?
      (proposedBlock.validateSignature env epochState.verifier).mapError .invalidProposal
    else pure ())
  (proposedBlock.verifyWellFormed env nowUsecs).mapError .invalidProposal

/-- `SafetyRules::verify_proposal`: the proposal is of the current epoch, certified, signed and well
formed, and its vote data is generated. -/
def verifyProposal (nowUsecs : Nat) (self : SafetyRules) (voteProposal : VoteProposal) :
    Option (Except Error VoteData × SafetyRules) :=
  match self.readSafetyData with
  | (.error e, self) => some (.error e, self)
  | (.ok safetyData, self) =>
    match self.proposalChecks env nowUsecs voteProposal.block safetyData with
    | .error e => some (.error e, self)
    | .ok () =>
      (voteProposal.genVoteData env).map fun r => (r.mapError .invalidAccumulatorExtension, self)

/-- The checks of `SafetyRules::verify_order_vote_proposal` after it reads the safety data: the
certificate is on the proposal's block info and on the block. -/
def orderVoteProposalChecks (self : SafetyRules) (orderVoteProposal : OrderVoteProposal)
    (safetyData : SafetyData) : Except Error Unit := do
  let proposedBlock := orderVoteProposal.block
  verifyEpoch proposedBlock.epoch safetyData
  let qc := orderVoteProposal.quorumCert
  Except.ensure (qc.certifiedBlock = orderVoteProposal.blockInfo)
    (.invalidOneChainQuorumCertificate qc.certifiedBlock.id orderVoteProposal.blockInfo.id)
  Except.ensure (qc.certifiedBlock.id = proposedBlock.id)
    (.invalidOneChainQuorumCertificate qc.certifiedBlock.id proposedBlock.id)
  self.verifyQc env qc

/-- `SafetyRules::verify_order_vote_proposal`. -/
def verifyOrderVoteProposal (self : SafetyRules) (orderVoteProposal : OrderVoteProposal) :
    Except Error Unit × SafetyRules :=
  match self.readSafetyData with
  | (.error e, self) => (.error e, self)
  | (.ok safetyData, self) => (self.orderVoteProposalChecks env orderVoteProposal safetyData, self)

/-! ### The 2-chain rules -/

/-- `SafetyRules::safe_to_timeout`: the timeout's round follows its quorum certificate's round
or the timeout certificate's, and its quorum certificate is not below the one-chain round.  The
`||` asks for `next_round(tc_round)` only when the first comparison fails. -/
def safeToTimeout (timeout : TwoChainTimeout) (maybeTc : Option TwoChainTimeoutCertificate)
    (safetyData : SafetyData) : Except Error Unit := do
  let round := timeout.round
  let qcRound := timeout.hqcRound
  let tcRound := maybeTc.elim 0 TwoChainTimeoutCertificate.round
  let nextQcRound ← nextRound qcRound
  let followsQcOrTc ←
    (if round = nextQcRound then pure true else (round == ·) <$> nextRound tcRound)
  Except.ensure (followsQcOrTc ∧ qcRound ≥ safetyData.oneChainRound)
    (.notSafeToTimeout round qcRound tcRound safetyData.oneChainRound)

/-- `SafetyRules::safe_to_vote`: the block's round follows its quorum certificate's round, or
follows the timeout certificate's round with a quorum certificate not below the certificate's
highest one. -/
def safeToVote (block : Block) (maybeTc : Option TwoChainTimeoutCertificate) :
    Except Error Unit := do
  let round := block.round
  let qcRound := block.quorumCert.certifiedBlock.round
  let tcRound := maybeTc.elim 0 TwoChainTimeoutCertificate.round
  let hqcRound := maybeTc.elim 0 TwoChainTimeoutCertificate.highestHqcRound
  let nextQcRound ← nextRound qcRound
  let safe ← (if round = nextQcRound then pure true
    else (fun nextTcRound => round == nextTcRound && qcRound ≥ hqcRound) <$> nextRound tcRound)
  Except.ensure safe (.notSafeToVote round qcRound tcRound hqcRound)

/-- `SafetyRules::safe_for_order_vote`. -/
def safeForOrderVote (block : Block) (safetyData : SafetyData) : Except Error Unit :=
  let round := block.round
  if round > safetyData.highestTimeoutRound then .ok ()
  else .error (.notSafeForOrderVote round safetyData.highestTimeoutRound)

/-- `SafetyRules::construct_ledger_info_2chain`: the block certified by the proposal's quorum
certificate is committed when the proposal's round directly follows it. -/
def constructLedgerInfo2chain (proposedBlock : Block) (consensusDataHash : HashValue) :
    Except Error LedgerInfo := do
  let block1 := proposedBlock.round
  let block0 := proposedBlock.quorumCert.certifiedBlock.round
  let commit := (← nextRound block0) = block1
  let commitInfo := if commit then proposedBlock.quorumCert.certifiedBlock else BlockInfo.empty
  pure ⟨commitInfo, consensusDataHash⟩

/-! ### The calls of `TSafetyRules` -/

/-- `guarded_consensus_state`.  The author it reads for a trace message is left out. -/
def guardedConsensusState (self : SafetyRules) : Except Error ConsensusState × SafetyRules :=
  match self.persistentStorage.waypoint with
  | .error e => (.error e, self)
  | .ok _ =>
    match self.readSafetyData with
    | (.error e, self) => (.error e, self)
    | (.ok _, self) =>
      match self.readSafetyData with
      | (.error e, self) => (.error e, self)
      | (.ok safetyData, self) =>
        match self.persistentStorage.waypoint with
        | .error e => (.error e, self)
        | .ok waypoint => (.ok ⟨safetyData, waypoint, self.signer matches .ok _⟩, self)

/-- The key reconciliation of `guarded_initialize`: the signer is kept when its key is the
author's key in the new epoch, and is otherwise loaded from the storage. -/
def reconcileKey (self : SafetyRules) (epochState : EpochState) (author : AccountAddress) :
    Except Error Unit × SafetyRules :=
  match epochState.verifier.getPublicKey author with
  | none => (.error (.validatorNotInSet author), self)
  | some expectedKey =>
    let currentKey := self.signer.toOption.map fun s => env.publicKey s.privateKey
    if currentKey = some expectedKey then (.ok (), self)
    else
      match self.persistentStorage.consensusSkByPk env.publicKey expectedKey with
      | .ok consensusKey => (.ok (), { self with validatorSigner := some ⟨author, consensusKey⟩ })
      | .error (.secureStorageMissingDataError error) => (.error (.validatorKeyNotFound error), self)
      | .error error => (.error error, self)

/-- `guarded_initialize`: the epoch-change proof is verified from the stored waypoint, the
waypoint is moved forward, a newer epoch starts with fresh safety data, and the signer is
reconciled with the new validator set; a failed reconciliation drops the signer. -/
def guardedInitialize (self : SafetyRules) (proof : EpochChangeProof) :
    Except Error Unit × SafetyRules :=
  match self.persistentStorage.waypoint with
  | .error e => (.error e, self)
  | .ok waypoint =>
    match proof.verify env.crypto env.waypointHash waypoint.toVerifier with
    | .error e => (.error (.invalidEpochChangeProof e), self)
    | .ok lastLi =>
      let ledgerInfo := lastLi.ledgerInfo
      match ledgerInfo.nextEpochState with
      | none => (.error .invalidLedgerInfo, self)
      | some epochState =>
        match Waypoint.newEpochBoundary env.waypointHash ledgerInfo with
        | .error e => (.error (.internalError e), self)
        | .ok newWaypoint =>
          let self := if newWaypoint.version > waypoint.version then
            { self with persistentStorage := self.persistentStorage.setWaypoint newWaypoint }
          else self
          match self.readSafetyData with
          | (.error e, self) => (.error e, self)
          | (.ok safetyData, self) =>
            let currentEpoch := safetyData.epoch
            if currentEpoch > epochState.epoch then
              (.error (.waypointOutOfDate waypoint.version newWaypoint.version currentEpoch
                epochState.epoch), self)
            else
              -- a newer epoch starts from nothing voted
              let self := if currentEpoch < epochState.epoch then
                self.setSafetyData (SafetyData.new epochState.epoch 0 0 0 none 0)
              else self
              let self := { self with epochState := some epochState }
              match self.persistentStorage.author with
              | .error e => (.error e, self)
              | .ok author =>
                match self.reconcileKey env epochState author with
                | (.error e, self) => (.error e, { self with validatorSigner := none })
                | (.ok (), self) => (.ok (), self)

/-- The checks of `guarded_sign_proposal` after it reads the safety data; the raised preferred
round is not persisted. -/
def signProposalChecks (self : SafetyRules) (blockData : BlockData) (safetyData : SafetyData) :
    Except Error Unit := do
  verifyEpoch blockData.epoch safetyData
  let round := blockData.round
  let lastVotedRound := safetyData.lastVotedRound
  Except.ensure (lastVotedRound < round) (.invalidProposal
    (.msg s!"Proposed round {round} is not higher than last voted round {lastVotedRound}"))
  self.verifyQc env blockData.quorumCert
  let _ ← verifyAndUpdatePreferredRound blockData.quorumCert safetyData

/-- `guarded_sign_proposal`: a proposal of this validator, of the current epoch, above the last
voted round, on a certified block not below the preferred round. -/
def guardedSignProposal (self : SafetyRules) (blockData : BlockData) :
    Except Error Signature × SafetyRules :=
  match self.signer >>= fun _ => self.verifyAuthor blockData.author with
  | .error e => (.error e, self)
  | .ok () =>
    match self.readSafetyData with
    | (.error e, self) => (.error e, self)
    | (.ok safetyData, self) =>
      match self.signProposalChecks env blockData safetyData with
      | .error e => (.error e, self)
      | .ok () => (self.sign env (env.blockDataHash blockData), self)

/-- The checks of `guarded_sign_timeout_with_qc` between reading and writing the safety data: the
safety data the timeout leaves. -/
def signTimeoutChecks (self : SafetyRules) (timeout : TwoChainTimeout)
    (timeoutCert : Option TwoChainTimeoutCertificate) (safetyData : SafetyData) :
    Except Error SafetyData := do
  verifyEpoch timeout.epoch safetyData
  (if !self.skipSigVerify then do
      let epochState ← self.epochState?
      (timeout.verify env.crypto epochState.verifier).mapError .invalidTimeout
    else pure ())
  self.verifyOptionalTc env timeoutCert
  safeToTimeout timeout timeoutCert safetyData
  Except.ensure (safetyData.lastVotedRound ≤ timeout.round)
    (.incorrectLastVotedRound timeout.round safetyData.lastVotedRound)
  let safetyData ← (if timeout.round > safetyData.lastVotedRound then
      verifyAndUpdateLastVoteRound timeout.round safetyData
    else pure safetyData)
  pure (updateHighestTimeoutRound timeout safetyData)

/-- `guarded_sign_timeout_with_qc`: a timeout of the current epoch, safe by the 2-chain timeout
rule and not below the last voted round, which it raises with the highest timeout round before
the timeout is signed. -/
def guardedSignTimeoutWithQc (self : SafetyRules) (timeout : TwoChainTimeout)
    (timeoutCert : Option TwoChainTimeoutCertificate) : Except Error Signature × SafetyRules :=
  match self.signer with
  | .error e => (.error e, self)
  | .ok _ =>
    match self.readSafetyData with
    | (.error e, self) => (.error e, self)
    | (.ok safetyData, self) =>
      match self.signTimeoutChecks env timeout timeoutCert safetyData with
      | .error e => (.error e, self)
      | .ok safetyData =>
        let self := self.setSafetyData safetyData
        (self.sign env (env.crypto.timeoutSigningReprHash timeout.signingFormat), self)

/-- The vote of `guarded_construct_and_sign_vote_two_chain` on a round not voted yet: the two
voting rules, the one-chain data, and the signed vote with the safety data that records it. -/
def twoChainVote (self : SafetyRules) (proposedBlock : Block) (voteData : VoteData)
    (timeoutCert : Option TwoChainTimeoutCertificate) (safetyData : SafetyData) :
    Except Error (SafetyData × Vote) := do
  let safetyData ← verifyAndUpdateLastVoteRound proposedBlock.blockData.round safetyData
  safeToVote proposedBlock timeoutCert
  let safetyData := (observeQc proposedBlock.quorumCert safetyData).2
  let author := (← self.signer).author
  let ledgerInfo ← constructLedgerInfo2chain proposedBlock (env.crypto.voteDataHash voteData)
  let signature ← self.sign env (env.crypto.ledgerInfoHash ledgerInfo)
  let vote := Vote.newWithSignature voteData author ledgerInfo signature
  pure ({ safetyData with lastVote := some vote }, vote)

/-- `guarded_construct_and_sign_vote_two_chain` at the time `nowUsecs`: the last vote again when it
is of the proposal's round, else a new vote, persisted before it is returned. -/
def guardedConstructAndSignVoteTwoChain (nowUsecs : Nat) (self : SafetyRules)
    (voteProposal : VoteProposal) (timeoutCert : Option TwoChainTimeoutCertificate) :
    Option (Except Error Vote × SafetyRules) :=
  match self.signer with
  | .error e => some (.error e, self)
  | .ok _ =>
    (self.verifyProposal env nowUsecs voteProposal).map fun
      | (.error e, self) => (.error e, self)
      | (.ok voteData, self) =>
        match self.verifyOptionalTc env timeoutCert with
        | .error e => (.error e, self)
        | .ok () =>
          let proposedBlock := voteProposal.block
          match self.readSafetyData with
          | (.error e, self) => (.error e, self)
          | (.ok safetyData, self) =>
            -- a vote on this round already: it is sent again
            match safetyData.lastVote.filter (·.voteData.proposed.round = proposedBlock.round) with
            | some vote => (.ok vote, self)
            | none =>
              match self.twoChainVote env proposedBlock voteData timeoutCert safetyData with
              | .error e => (.error e, self)
              | .ok (safetyData, vote) => (.ok vote, self.setSafetyData safetyData)

/-- The order vote of `guarded_construct_and_sign_order_vote` once the one-chain data is
recorded: a block above the highest timeout round, its block info signed. -/
def orderVote (self : SafetyRules) (orderVoteProposal : OrderVoteProposal)
    (safetyData : SafetyData) : Except Error OrderVote := do
  safeForOrderVote orderVoteProposal.block safetyData
  let author := (← self.signer).author
  let ledgerInfo : LedgerInfo := ⟨orderVoteProposal.blockInfo, 0⟩
  let signature ← self.sign env (env.crypto.ledgerInfoHash ledgerInfo)
  pure (OrderVote.newWithSignature author ledgerInfo signature)

/-- `guarded_construct_and_sign_order_vote`. -/
def guardedConstructAndSignOrderVote (self : SafetyRules) (orderVoteProposal : OrderVoteProposal) :
    Except Error OrderVote × SafetyRules :=
  match self.signer with
  | .error e => (.error e, self)
  | .ok _ =>
    match self.verifyOrderVoteProposal env orderVoteProposal with
    | (.error e, self) => (.error e, self)
    | (.ok (), self) =>
      match self.readSafetyData with
      | (.error e, self) => (.error e, self)
      | (.ok safetyData, self) =>
        let safetyData := (observeQc orderVoteProposal.quorumCert safetyData).2
        match self.orderVote env orderVoteProposal safetyData with
        | .error e => (.error e, self)
        | .ok orderVote => (.ok orderVote, self.setSafetyData safetyData)

/-- `guarded_sign_commit_vote`: the ordered ledger info must be ordered only (or already the
executed one), match the executed block, and carry a quorum. -/
def guardedSignCommitVote (self : SafetyRules) (ledgerInfo : LedgerInfoWithSignatures)
    (newLedgerInfo : LedgerInfo) : Except Error Signature := do
  let _ ← self.signer
  let oldLedgerInfo := ledgerInfo.ledgerInfo
  if !oldLedgerInfo.commitInfo.isOrderedOnly env.accumulatorPlaceholderHash &&
      oldLedgerInfo.commitInfo ≠ newLedgerInfo.commitInfo then
    throw (.invalidOrderedLedgerInfo oldLedgerInfo)
  if !oldLedgerInfo.commitInfo.matchOrderedOnly newLedgerInfo.commitInfo then
    throw (.inconsistentExecutionResult oldLedgerInfo.commitInfo newLedgerInfo.commitInfo)
  if !self.skipSigVerify then
    (ledgerInfo.verifySignatures env.crypto (← self.epochState?).verifier).mapError
      (.invalidQuorumCertificate ∘ .verify)
  self.sign env (env.crypto.ledgerInfoHash newLedgerInfo)

end SafetyRules

/-- A call of `TSafetyRules`. -/
inductive Request where
  | consensusState
  | initializeFrom (proof : EpochChangeProof)
  | signProposal (blockData : BlockData)
  | signTimeoutWithQc (timeout : TwoChainTimeout) (timeoutCert : Option TwoChainTimeoutCertificate)
  | constructAndSignVoteTwoChain (voteProposal : VoteProposal)
      (timeoutCert : Option TwoChainTimeoutCertificate)
  | constructAndSignOrderVote (orderVoteProposal : OrderVoteProposal)
  | signCommitVote (ledgerInfo : LedgerInfoWithSignatures) (newLedgerInfo : LedgerInfo)

/-- What a call of `TSafetyRules` returns. -/
inductive Response where
  | consensusState (state : ConsensusState)
  | initialized
  | signature (signature : Signature)
  | vote (vote : Vote)
  | orderVote (orderVote : OrderVote)
  deriving DecidableEq

namespace SafetyRules

variable (env : SafetyEnv)

/-- `impl TSafetyRules for SafetyRules` at the time `nowUsecs`: each call runs its guarded
function (`run_and_log` only logs and counts). -/
def handle (nowUsecs : Nat) (self : SafetyRules) : Request → Option (Except Error Response × SafetyRules)
  | .consensusState =>
    let (r, self) := self.guardedConsensusState
    some (r.map .consensusState, self)
  | .initializeFrom proof =>
    let (r, self) := self.guardedInitialize env proof
    some (r.map fun () => .initialized, self)
  | .signProposal blockData =>
    let (r, self) := self.guardedSignProposal env blockData
    some (r.map .signature, self)
  | .signTimeoutWithQc timeout timeoutCert =>
    let (r, self) := self.guardedSignTimeoutWithQc env timeout timeoutCert
    some (r.map .signature, self)
  | .constructAndSignVoteTwoChain voteProposal timeoutCert =>
    (self.guardedConstructAndSignVoteTwoChain env nowUsecs voteProposal timeoutCert).map
      fun (r, self) => (r.map .vote, self)
  | .constructAndSignOrderVote orderVoteProposal =>
    let (r, self) := self.guardedConstructAndSignOrderVote env orderVoteProposal
    some (r.map .orderVote, self)
  | .signCommitVote ledgerInfo newLedgerInfo =>
    some ((self.guardedSignCommitVote env ledgerInfo newLedgerInfo).map .signature, self)

end SafetyRules

end CreditChain
