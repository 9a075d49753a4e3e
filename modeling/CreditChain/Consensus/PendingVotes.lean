import CreditChain.Consensus.Types

/-!
# Pending votes

`consensus/src/pending_votes.rs`: the votes and timeouts of one round.  Votes are grouped by the
digest of the ledger info they sign, each digest with a `SignatureAggregator` until its signers
carry a quorum and a quorum certificate is formed, and with that certificate after; timeouts go to
one partial timeout certificate.  An author's first vote is remembered: a vote for another digest
is an equivocation, and the same vote again is a duplicate unless it newly carries a timeout.

A call may panic (`none`): the `assert_eq!` of `AggregateSignatureWithRounds::new` and the
`assert!` that a formed quorum certificate has a quorum.
-/

namespace CreditChain

/-- `VoteReceptionResult`. -/
inductive VoteReceptionResult where
  | voteAdded (votingPower : Nat)
  | duplicateVote
  | equivocateVote
  | newQuorumCertificate (qc : QuorumCert)
  | new2ChainTimeoutCertificate (tc : TwoChainTimeoutCertificate)
  | errorAddingVote (error : VerifyError)
  | errorAggregatingSignature (error : VerifyError)
  | errorAggregatingTimeoutCertificate (error : VerifyError)
  | unexpectedRound (round expected : Round)
  | echoTimeout (votingPower : Nat)
  | unknownAuthor (author : AccountAddress)

/-- `VoteStatus`. -/
inductive VoteStatus where
  | enoughVotes (liWithSig : LedgerInfoWithSignatures)
  | notEnoughVotes (sigAggregator : SignatureAggregator LedgerInfo)

/-- `TwoChainTimeoutVotes`, without the timeout reasons, which only
`aggregated_timeout_reason` reads. -/
structure TwoChainTimeoutVotes where
  partial2chainTc : TwoChainTimeoutWithPartialSignatures

namespace TwoChainTimeoutVotes

/-- `TwoChainTimeoutVotes::new`. -/
def new (timeout : TwoChainTimeout) : TwoChainTimeoutVotes :=
  ⟨.new timeout⟩

/-- `TwoChainTimeoutVotes::add`. -/
def add (votes : TwoChainTimeoutVotes) (author : AccountAddress) (timeout : TwoChainTimeout)
    (signature : Signature) : TwoChainTimeoutVotes :=
  ⟨votes.partial2chainTc.add author timeout signature⟩

end TwoChainTimeoutVotes

/-- `PendingVotes`.  The maps are functions; the `hash_index` beside each status only names
metrics and is left out. -/
structure PendingVotes where
  liDigestToVotes : HashValue → Option VoteStatus
  maybe2chainTimeoutVotes : Option TwoChainTimeoutVotes
  authorToVote : AccountAddress → Option (Vote × HashValue)
  echoTimeout : Bool

namespace PendingVotes

/-- `PendingVotes::new`. -/
def new : PendingVotes :=
  ⟨fun _ => none, none, fun _ => none, false⟩

/-- The timeout block of `insert_round_timeout`, repeated as step 4 of `insert_vote`: the timeout
is added to the partial timeout certificate; a certificate, an error, or the first echo of `f + 1`
timeouts is returned (`inl`), and otherwise the voting power of the timeouts (`inr`). -/
def addTwoChainTimeout (bls : Bls) (pv : PendingVotes) (author : AccountAddress)
    (timeout : TwoChainTimeout) (signature : Signature) (validatorVerifier : ValidatorVerifier) :
    Option ((VoteReceptionResult ⊕ Nat) × PendingVotes) :=
  let twoChainVotes :=
    (pv.maybe2chainTimeoutVotes.getD (TwoChainTimeoutVotes.new timeout)).add author timeout signature
  let pv := { pv with maybe2chainTimeoutVotes := some twoChainVotes }
  let partialTc := twoChainVotes.partial2chainTc
  match validatorVerifier.checkVotingPower partialTc.signers true with
  | .ok _ =>
    (partialTc.aggregateSignatures bls validatorVerifier).map fun
      | .ok tcWithSig => (.inl (.new2ChainTimeoutCertificate tcWithSig), pv)
      | .error e => (.inl (.errorAggregatingTimeoutCertificate e), pv)
  | .error (.tooLittleVotingPower tcVotingPower _) =>
    let fPlusOne := validatorVerifier.totalVotingPower - validatorVerifier.quorumVotingPower + 1
    if !pv.echoTimeout && tcVotingPower ≥ fPlusOne then
      some (.inl (.echoTimeout tcVotingPower), { pv with echoTimeout := true })
    else some (.inr tcVotingPower, pv)
  | .error error => some (.inl (.errorAddingVote error), pv)

/-- `PendingVotes::insert_round_timeout`. -/
def insertRoundTimeout (bls : Bls) (pv : PendingVotes) (roundTimeout : RoundTimeout)
    (validatorVerifier : ValidatorVerifier) : Option (VoteReceptionResult × PendingVotes) :=
  (pv.addTwoChainTimeout bls roundTimeout.author roundTimeout.timeout roundTimeout.signature
      validatorVerifier).map fun
    | (.inl result, pv) => (result, pv)
    | (.inr tcVotingPower, pv) => (.voteAdded tcVotingPower, pv)

/-- Step 1 of `insert_vote`: a duplicate or an equivocation, if the author has voted already and
this is not the same vote newly carrying a timeout. -/
def checkPreviousVote (pv : PendingVotes) (vote : Vote) (liDigest : HashValue) :
    Option VoteReceptionResult :=
  match pv.authorToVote vote.author with
  | some (previouslySeenVote, previousLiDigest) =>
    if liDigest = previousLiDigest then
      if vote.isTimeout && !previouslySeenVote.isTimeout then none else some .duplicateVote
    else some .equivocateVote
  | none => none

/-- Steps 4 and 5 of `insert_vote`, when no quorum certificate is formed: a timeout the vote
carries goes to the partial timeout certificate, and otherwise the power of the vote's digest is
returned. -/
def insertVoteTimeout (bls : Bls) (pv : PendingVotes) (vote : Vote)
    (validatorVerifier : ValidatorVerifier) (votingPower : Nat) :
    Option (VoteReceptionResult × PendingVotes) :=
  match vote.twoChainTimeout with
  | some (timeout, signature) =>
    (pv.addTwoChainTimeout bls vote.author timeout signature validatorVerifier).map fun
      | (.inl result, pv) => (result, pv)
      | (.inr _, pv) => (.voteAdded votingPower, pv)
  | none => some (.voteAdded votingPower, pv)

/-- Step 3 of `insert_vote` once the author is known to have power: the vote's signature joins
the digest's aggregator, and a quorum certificate is formed when they carry a quorum. -/
def addToAggregator (bls : Bls) (ledgerInfoHash : LedgerInfo → HashValue) (pv : PendingVotes)
    (vote : Vote) (validatorVerifier : ValidatorVerifier) (liDigest : HashValue)
    (sigAggregator : SignatureAggregator LedgerInfo) :
    Option (VoteReceptionResult × PendingVotes) :=
  let sigAggregator := sigAggregator.addSignature vote.author vote.signature
  let setStatus := fun (pv : PendingVotes) status =>
    { pv with liDigestToVotes := Function.update pv.liDigestToVotes liDigest (some status) }
  let pv := setStatus pv (.notEnoughVotes sigAggregator)
  match sigAggregator.checkVotingPower validatorVerifier true with
  | .ok aggregatedVotingPower =>
    if aggregatedVotingPower < validatorVerifier.quorumVotingPower then none
    else
      let (verificationResult, sigAggregator) :=
        sigAggregator.aggregateAndVerify bls ledgerInfoHash validatorVerifier
      let pv := setStatus pv (.notEnoughVotes sigAggregator)
      match verificationResult with
      | .ok (ledgerInfo, aggregatedSig) =>
        let ledgerInfoWithSig : LedgerInfoWithSignatures := ⟨ledgerInfo, aggregatedSig⟩
        some (.newQuorumCertificate ⟨vote.voteData, ledgerInfoWithSig⟩,
          setStatus pv (.enoughVotes ledgerInfoWithSig))
      | .error (.tooLittleVotingPower votingPower _) =>
        pv.insertVoteTimeout bls vote validatorVerifier votingPower
      | .error e => some (.errorAggregatingSignature e, pv)
  | .error (.tooLittleVotingPower votingPower _) =>
    pv.insertVoteTimeout bls vote validatorVerifier votingPower
  | .error error => some (.errorAddingVote error, pv)

/-- `PendingVotes::insert_vote`. -/
def insertVote (bls : Bls) (ledgerInfoHash : LedgerInfo → HashValue) (pv : PendingVotes)
    (vote : Vote) (validatorVerifier : ValidatorVerifier) :
    Option (VoteReceptionResult × PendingVotes) :=
  let liDigest := ledgerInfoHash vote.ledgerInfo
  match pv.checkPreviousVote vote liDigest with
  | some result => some (result, pv)
  | none =>
    -- step 2: the vote is stored, or replaces the same vote without a timeout
    let pv := { pv with
      authorToVote := Function.update pv.authorToVote vote.author (some (vote, liDigest)) }
    -- step 3: the digest's status is created on first sight, before the author is looked up
    let status := (pv.liDigestToVotes liDigest).getD
      (.notEnoughVotes (SignatureAggregator.new vote.ledgerInfo))
    let pv := { pv with
      liDigestToVotes := Function.update pv.liDigestToVotes liDigest (some status) }
    match validatorVerifier.getVotingPower vote.author with
    | none => some (.unknownAuthor vote.author, pv)
    | some _ =>
      match status with
      | .enoughVotes liWithSig => some (.newQuorumCertificate ⟨vote.voteData, liWithSig⟩, pv)
      | .notEnoughVotes sigAggregator =>
        pv.addToAggregator bls ledgerInfoHash vote validatorVerifier liDigest sigAggregator

/-- A run of `insert_vote` calls on one `PendingVotes`, with their results; `none` when a call
panics. -/
def insertVotes (bls : Bls) (ledgerInfoHash : LedgerInfo → HashValue)
    (validatorVerifier : ValidatorVerifier) :
    PendingVotes → List Vote → Option (List VoteReceptionResult × PendingVotes)
  | pv, [] => some ([], pv)
  | pv, vote :: votes => do
    let (result, pv) ← pv.insertVote bls ledgerInfoHash vote validatorVerifier
    let (results, pv) ← insertVotes bls ledgerInfoHash validatorVerifier pv votes
    pure (result :: results, pv)

/-! ### One vote -/

section Steps

variable {bls : Bls} {hash : LedgerInfo → HashValue} {V : ValidatorVerifier} {vote : Vote}
  {pv pv' : PendingVotes}

/-- What one vote of `author` does to the status of its digest, with the ledger info of the
quorum certificate it returns, if any. -/
inductive StatusStep (bls : Bls) (V : ValidatorVerifier) (author : AccountAddress) :
    VoteStatus → VoteStatus → Option LedgerInfoWithSignatures → Prop
  /-- The status stays, and no certificate is returned. -/
  | keep (status : VoteStatus) : StatusStep bls V author status status none
  /-- The certificate formed before is returned again. -/
  | certified (li : LedgerInfoWithSignatures) :
      StatusStep bls V author (.enoughVotes li) (.enoughVotes li) (some li)
  /-- The author's signature is collected, and some may be dropped. -/
  | collect {agg agg' : SignatureAggregator LedgerInfo} (hdata : agg'.data = agg.data)
      (hsub : ∀ a ∈ agg'.signatures, a = author ∨ a ∈ agg.signatures) :
      StatusStep bls V author (.notEnoughVotes agg) (.notEnoughVotes agg') none
  /-- The collected signatures, some perhaps dropped, form a certificate. -/
  | certify {agg agg' : SignatureAggregator LedgerInfo} {sig : AggregateSignature}
      (hdata : agg'.data = agg.data) (hsub : ∀ a ∈ agg'.signatures, a = author ∨ a ∈ agg.signatures)
      (hagg : agg'.tryAggregate bls V = .ok sig) :
      StatusStep bls V author (.notEnoughVotes agg) (.enoughVotes ⟨agg.data, sig⟩) (some ⟨agg.data, sig⟩)

/-- The timeout block leaves the votes alone and returns no quorum certificate. -/
theorem addTwoChainTimeout_maps {author : AccountAddress} {timeout : TwoChainTimeout}
    {signature : Signature} {x : VoteReceptionResult ⊕ Nat}
    (h : pv.addTwoChainTimeout bls author timeout signature V = some (x, pv')) :
    pv'.liDigestToVotes = pv.liDigestToVotes ∧ pv'.authorToVote = pv.authorToVote ∧
      ∀ qc, x ≠ .inl (.newQuorumCertificate qc) := by
  unfold addTwoChainTimeout at h
  dsimp only at h
  split at h
  · obtain ⟨y, -, hy⟩ := Option.map_eq_some_iff.mp h
    split at hy <;> (simp only [Prod.mk.injEq] at hy; obtain ⟨rfl, rfl⟩ := hy; simp)
  · split_ifs at h <;> (simp only [Option.some.injEq, Prod.mk.injEq] at h; obtain ⟨rfl, rfl⟩ := h; simp)
  · simp only [Option.some.injEq, Prod.mk.injEq] at h
    obtain ⟨rfl, rfl⟩ := h
    simp

theorem insertVoteTimeout_maps {votingPower : Nat} {r : VoteReceptionResult}
    (h : pv.insertVoteTimeout bls vote V votingPower = some (r, pv')) :
    pv'.liDigestToVotes = pv.liDigestToVotes ∧ pv'.authorToVote = pv.authorToVote ∧
      ∀ qc, r ≠ .newQuorumCertificate qc := by
  unfold insertVoteTimeout at h
  split at h
  · obtain ⟨⟨x, pv₁⟩, hadd, hx⟩ := Option.map_eq_some_iff.mp h
    obtain ⟨hli, hauthor, hnot⟩ := addTwoChainTimeout_maps hadd
    rcases x with result | power <;> simp only [Prod.mk.injEq] at hx <;> obtain ⟨rfl, rfl⟩ := hx
    · exact ⟨hli, hauthor, fun qc hqc => hnot qc (by rw [hqc])⟩
    · exact ⟨hli, hauthor, fun qc => by simp⟩
  · simp only [Option.some.injEq, Prod.mk.injEq] at h
    obtain ⟨rfl, rfl⟩ := h
    exact ⟨rfl, rfl, fun qc => by simp⟩

/-- The signers after adding `author`'s signature. -/
private theorem mem_addSignature {agg : SignatureAggregator LedgerInfo} {author a : AccountAddress}
    {signature : SignatureWithStatus} (h : a ∈ (agg.addSignature author signature).signatures) :
    a = author ∨ a ∈ agg.signatures := by
  simp only [SignatureAggregator.addSignature, Std.TreeMap.mem_insert, compare_eq_iff_eq] at h
  rcases h with rfl | h
  · exact Or.inl rfl
  · exact Or.inr h

theorem addToAggregator_step {d : HashValue} {agg : SignatureAggregator LedgerInfo}
    {r : VoteReceptionResult} (h : pv.addToAggregator bls hash vote V d agg = some (r, pv')) :
    ∃ status qcLi, pv'.liDigestToVotes = Function.update pv.liDigestToVotes d (some status) ∧
      pv'.authorToVote = pv.authorToVote ∧
      StatusStep bls V vote.author (.notEnoughVotes agg) status qcLi ∧
      ∀ qc, r = .newQuorumCertificate qc → qcLi = some qc.signedLedgerInfo := by
  unfold addToAggregator at h
  dsimp only at h
  obtain ⟨agg', hagg', heq⟩ := SignatureAggregator.aggregateAndVerify_eq bls hash
    (agg.addSignature vote.author vote.signature) V
  rw [heq] at h
  have hdata : agg'.data = agg.data := by
    rcases hagg' with rfl | rfl <;> rfl
  have hsub : ∀ a ∈ agg'.signatures, a = vote.author ∨ a ∈ agg.signatures := by
    intro a ha
    rcases hagg' with rfl | rfl
    · exact mem_addSignature ha
    · exact mem_addSignature (SignatureAggregator.mem_filterInvalidSignatures ha)
  split at h
  · -- a quorum by the check: the certificate is formed or the aggregate falls short
    split_ifs at h
    cases htry : agg'.tryAggregate bls V with
    | ok sig =>
      simp only [htry, Functor.map, Except.map, Option.some.injEq, Prod.mk.injEq] at h
      obtain ⟨rfl, rfl⟩ := h
      refine ⟨_, _, by simp only [Function.update_idem]; rfl, rfl, .certify hdata hsub htry, ?_⟩
      intro qc hqc
      cases hqc
      rfl
    | error e =>
      simp only [htry, Functor.map, Except.map] at h
      split at h
      · contradiction
      · obtain ⟨hli, hauthor, hnot⟩ := insertVoteTimeout_maps h
        refine ⟨_, none, by rw [hli]; simp only [Function.update_idem], hauthor,
          .collect hdata hsub, fun qc hqc => absurd hqc (hnot qc)⟩
      · simp only [Option.some.injEq, Prod.mk.injEq] at h
        obtain ⟨rfl, rfl⟩ := h
        exact ⟨_, none, by simp only [Function.update_idem], rfl, .collect hdata hsub,
          fun qc hqc => by cases hqc⟩
  · -- short of a quorum: the signature is collected
    obtain ⟨hli, hauthor, hnot⟩ := insertVoteTimeout_maps h
    exact ⟨_, none, hli, hauthor, .collect rfl (fun a ha => mem_addSignature ha),
      fun qc hqc => absurd hqc (hnot qc)⟩
  · simp only [Option.some.injEq, Prod.mk.injEq] at h
    obtain ⟨rfl, rfl⟩ := h
    exact ⟨_, none, rfl, rfl, .collect rfl (fun a ha => mem_addSignature ha),
      fun qc hqc => by cases hqc⟩
theorem checkPreviousVote_ne_newQuorumCertificate {d : HashValue} {result : VoteReceptionResult}
    (h : pv.checkPreviousVote vote d = some result) (qc : QuorumCert) :
    result ≠ .newQuorumCertificate qc := by
  unfold checkPreviousVote at h
  split at h
  · split_ifs at h <;> (simp only [Option.some.injEq] at h; subst h; simp)
  · cases h

/-- A vote that passes step 1 has an author who has not voted, or voted for the same digest. -/
theorem checkPreviousVote_eq_none {d : HashValue} (h : pv.checkPreviousVote vote d = none)
    {previous : Vote} {d' : HashValue} (hprev : pv.authorToVote vote.author = some (previous, d')) :
    d' = d := by
  unfold checkPreviousVote at h
  rw [hprev] at h
  dsimp only at h
  split_ifs at h with hd
  exact hd.symm

/-- One `insert_vote`: a duplicate or an equivocation changes nothing; otherwise the author's vote
is recorded and the status of its digest takes one `StatusStep`. -/
theorem insertVote_step {r : VoteReceptionResult}
    (h : pv.insertVote bls hash vote V = some (r, pv')) :
    (pv' = pv ∧ ∀ qc, r ≠ .newQuorumCertificate qc) ∨
      ∃ status qcLi, pv.checkPreviousVote vote (hash vote.ledgerInfo) = none ∧
        pv'.authorToVote =
          Function.update pv.authorToVote vote.author (some (vote, hash vote.ledgerInfo)) ∧
        pv'.liDigestToVotes =
          Function.update pv.liDigestToVotes (hash vote.ledgerInfo) (some status) ∧
        StatusStep bls V vote.author ((pv.liDigestToVotes (hash vote.ledgerInfo)).getD
          (.notEnoughVotes (.new vote.ledgerInfo))) status qcLi ∧
        ∀ qc, r = .newQuorumCertificate qc → qcLi = some qc.signedLedgerInfo := by
  unfold insertVote at h
  dsimp only at h
  split at h
  · rename_i result hprev
    simp only [Option.some.injEq, Prod.mk.injEq] at h
    obtain ⟨rfl, rfl⟩ := h
    exact Or.inl ⟨rfl, checkPreviousVote_ne_newQuorumCertificate hprev⟩
  · rename_i hprev
    right
    split at h
    · -- an unknown author: the status is created but stays
      simp only [Option.some.injEq, Prod.mk.injEq] at h
      obtain ⟨rfl, rfl⟩ := h
      exact ⟨_, none, hprev, rfl, rfl, .keep _, fun qc hqc => by cases hqc⟩
    · split at h
      · rename_i li hstatus
        simp only [Option.some.injEq, Prod.mk.injEq] at h
        obtain ⟨rfl, rfl⟩ := h
        refine ⟨_, some li, hprev, rfl, rfl, hstatus ▸ .certified li, ?_⟩
        intro qc hqc
        cases hqc
        rfl
      · rename_i agg hstatus
        obtain ⟨status, qcLi, hli, hauthor, hstep, hqc⟩ := addToAggregator_step h
        refine ⟨status, qcLi, hprev, hauthor, ?_, hstatus ▸ hstep, hqc⟩
        rw [hli]
        exact Function.update_idem _ _ _

end Steps

end PendingVotes

end CreditChain
