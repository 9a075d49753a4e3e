import CreditChain.Consensus.PendingVotes

/-!
# One quorum certificate per round

Over every run of `insert_vote` on one `PendingVotes`, an author's signature sits in the aggregator
of one digest only, the digest its recorded vote signs; a certificate, once formed, is kept, and
names distinct validators of a quorum who all voted for its digest.  Two certificates of one run
then certify the same digest, for their quorums share a validator (`Certifies.digest_eq`), and so
carry the same ledger info.

The invariant is `VotesInv`, kept by each vote (`VotesInv.insertVote`, by the cases of
`StatusStep`) and so by each run (`VotesInv.insertVotes`).  The verifier is one of distinct
addresses whose quorum is two thirds of the total, and, for the signer bitmask to name the signers,
of at most `2^16` validators.
-/

namespace CreditChain

namespace PendingVotes

variable {hash : LedgerInfo → HashValue} {V : ValidatorVerifier}

/-- `li` certifies the digest `d` in `pv`: a ledger info of that digest whose signers are distinct
validators of a quorum, each of whom voted for `d`. -/
structure Certifies (hash : LedgerInfo → HashValue) (V : ValidatorVerifier) (pv : PendingVotes)
    (d : HashValue) (li : LedgerInfoWithSignatures) : Prop where
  hash_eq : hash li.ledgerInfo = d
  nodup : (V.aggregateSignatureAuthors li.signatures).Nodup
  quorum : ∃ p, V.sumVotingPower (V.aggregateSignatureAuthors li.signatures) = .ok p ∧
    V.quorumVotingPower ≤ p
  voted : ∀ a ∈ V.aggregateSignatureAuthors li.signatures, ∃ vote, pv.authorToVote a = some (vote, d)

/-- The invariant of a run of `insert_vote` over the votes `votes`: each recorded vote is one of
them, by its author and for its digest; an aggregator holds only voters for its digest; and a
formed certificate certifies its digest. -/
structure VotesInv (hash : LedgerInfo → HashValue) (V : ValidatorVerifier) (votes : List Vote)
    (pv : PendingVotes) : Prop where
  recorded : ∀ a vote d, pv.authorToVote a = some (vote, d) →
    vote ∈ votes ∧ vote.author = a ∧ hash vote.ledgerInfo = d
  collecting : ∀ d agg, pv.liDigestToVotes d = some (.notEnoughVotes agg) →
    hash agg.data = d ∧ ∀ a ∈ agg.signatures, ∃ vote, pv.authorToVote a = some (vote, d)
  certified : ∀ d li, pv.liDigestToVotes d = some (.enoughVotes li) → Certifies hash V pv d li

/-- Recorded votes are only ever replaced by votes for the same digest. -/
def KeepsDigests (pv pv' : PendingVotes) : Prop :=
  ∀ a vote d, pv.authorToVote a = some (vote, d) → ∃ vote', pv'.authorToVote a = some (vote', d)

theorem Certifies.mono {pv pv' : PendingVotes} {d : HashValue} {li : LedgerInfoWithSignatures}
    (h : Certifies hash V pv d li) (hkeep : KeepsDigests pv pv') : Certifies hash V pv' d li where
  hash_eq := h.hash_eq
  nodup := h.nodup
  quorum := h.quorum
  voted a ha := by
    obtain ⟨vote, hvote⟩ := h.voted a ha
    exact hkeep a vote d hvote

section Quorum

variable (htotal :
    V.totalVotingPower = Quorum.weight V.votingPowerOf V.getOrderedAccountAddresses.toFinset)
  (hq : V.quorumVotingPower = Quorum.twoThirds V.totalVotingPower)
include htotal hq

/-- Two certificates in one state certify one digest: their quorums share a validator, whose one
recorded vote is for both digests. -/
theorem Certifies.digest_eq {pv : PendingVotes} {d d' : HashValue}
    {li li' : LedgerInfoWithSignatures} (h : Certifies hash V pv d li)
    (h' : Certifies hash V pv d' li') : d = d' := by
  obtain ⟨p, hsum, hp⟩ := h.quorum
  obtain ⟨p', hsum', hp'⟩ := h'.quorum
  obtain ⟨a, ha, ha'⟩ := ValidatorVerifier.exists_mem_of_checkVotingPower htotal hq h.nodup h'.nodup
    (ValidatorVerifier.checkVotingPower_true_eq_ok.mpr ⟨hsum, hp⟩)
    (ValidatorVerifier.checkVotingPower_true_eq_ok.mpr ⟨hsum', hp'⟩)
  obtain ⟨vote, hvote⟩ := h.voted a ha
  obtain ⟨vote', hvote'⟩ := h'.voted a ha'
  rw [hvote, Option.some.injEq, Prod.mk.injEq] at hvote'
  exact hvote'.2

end Quorum

theorem VotesInv.new (hash : LedgerInfo → HashValue) (V : ValidatorVerifier) :
    VotesInv hash V [] PendingVotes.new where
  recorded _ _ _ h := by cases h
  collecting _ _ h := by cases h
  certified _ _ h := by cases h

theorem VotesInv.append {votes : List Vote} {pv : PendingVotes} (hinv : VotesInv hash V votes pv)
    (more : List Vote) : VotesInv hash V (votes ++ more) pv where
  recorded a vote d h := by
    obtain ⟨hmem, hauthor, hd⟩ := hinv.recorded a vote d h
    exact ⟨List.mem_append_left more hmem, hauthor, hd⟩
  collecting := hinv.collecting
  certified := hinv.certified

/-! ### One vote -/

section Step

variable {bls : Bls} {vote : Vote} {pv pv' : PendingVotes}

theorem StatusStep.of_enoughVotes {author : AccountAddress} {li : LedgerInfoWithSignatures}
    {status : VoteStatus} {qcLi : Option LedgerInfoWithSignatures}
    (h : StatusStep bls V author (.enoughVotes li) status qcLi) : status = .enoughVotes li := by
  cases h <;> rfl

theorem StatusStep.qcLi_eq {author : AccountAddress} {status status' : VoteStatus}
    {li : LedgerInfoWithSignatures} (h : StatusStep bls V author status status' (some li)) :
    status' = .enoughVotes li := by
  cases h <;> rfl

/-- Recording the vote keeps every recorded digest, as the author had voted for none or for the
vote's own digest. -/
theorem keepsDigests_of_step {d : HashValue} (hprev : pv.checkPreviousVote vote d = none)
    (hauthor : pv'.authorToVote = Function.update pv.authorToVote vote.author (some (vote, d))) :
    KeepsDigests pv pv' := by
  intro a previous d' hrec
  rw [hauthor]
  by_cases ha : a = vote.author
  · subst ha
    rw [checkPreviousVote_eq_none hprev hrec]
    exact ⟨vote, Function.update_self _ _ _⟩
  · exact ⟨previous, by rw [Function.update_of_ne ha]; exact hrec⟩

/-- The status a vote finds for its digest: a fresh aggregator of its ledger info, or what the
invariant says of a stored one. -/
theorem VotesInv.startStatus {votes : List Vote} (hinv : VotesInv hash V votes pv) (vote : Vote) :
    (∀ agg, (pv.liDigestToVotes (hash vote.ledgerInfo)).getD
        (.notEnoughVotes (.new vote.ledgerInfo)) = .notEnoughVotes agg →
      hash agg.data = hash vote.ledgerInfo ∧
        ∀ a ∈ agg.signatures, ∃ v, pv.authorToVote a = some (v, hash vote.ledgerInfo)) ∧
    (∀ li, (pv.liDigestToVotes (hash vote.ledgerInfo)).getD
        (.notEnoughVotes (.new vote.ledgerInfo)) = .enoughVotes li →
      Certifies hash V pv (hash vote.ledgerInfo) li) := by
  cases hd : pv.liDigestToVotes (hash vote.ledgerInfo) with
  | none =>
    refine ⟨fun agg hagg => ?_, fun li hli => by cases hli⟩
    simp only [Option.getD_none, VoteStatus.notEnoughVotes.injEq] at hagg
    subst hagg
    refine ⟨rfl, fun a ha => ?_⟩
    simp [SignatureAggregator.new] at ha
  | some status =>
    simp only [Option.getD_some]
    exact ⟨fun agg hagg => hinv.collecting _ agg (hagg ▸ hd),
      fun li hli => hinv.certified _ li (hli ▸ hd)⟩

variable (hnodup : (V.validatorInfos.map (·.address)).Nodup) (hlen : V.len ≤ 65536)
include hnodup hlen

/-- The status a vote leaves for its digest keeps the invariant, given what held of the status
it found. -/
theorem StatusStep.keeps {status status' : VoteStatus} {qcLi : Option LedgerInfoWithSignatures}
    {d : HashValue} (hstep : StatusStep bls V vote.author status status' qcLi)
    (hkeep : KeepsDigests pv pv') (hrec : ∃ v, pv'.authorToVote vote.author = some (v, d))
    (hcollecting : ∀ agg, status = .notEnoughVotes agg →
      hash agg.data = d ∧ ∀ a ∈ agg.signatures, ∃ v, pv.authorToVote a = some (v, d))
    (hcertified : ∀ li, status = .enoughVotes li → Certifies hash V pv d li) :
    (∀ agg, status' = .notEnoughVotes agg →
      hash agg.data = d ∧ ∀ a ∈ agg.signatures, ∃ v, pv'.authorToVote a = some (v, d)) ∧
    (∀ li, status' = .enoughVotes li → Certifies hash V pv' d li) := by
  -- a signer of the new aggregator is the author or an old signer
  have hvoter : ∀ {agg agg' : SignatureAggregator LedgerInfo}, status = .notEnoughVotes agg →
      (∀ a ∈ agg'.signatures, a = vote.author ∨ a ∈ agg.signatures) →
      ∀ a ∈ agg'.signatures, ∃ v, pv'.authorToVote a = some (v, d) := by
    intro agg agg' hstatus hsub a ha
    rcases hsub a ha with rfl | ha
    · exact hrec
    · obtain ⟨v, hv⟩ := (hcollecting agg hstatus).2 a ha
      exact hkeep a v d hv
  cases hstep with
  | keep =>
    refine ⟨fun agg hagg => ?_, fun li hli => (hcertified li hli).mono hkeep⟩
    obtain ⟨hhash, hsigners⟩ := hcollecting agg hagg
    refine ⟨hhash, fun a ha => ?_⟩
    obtain ⟨v, hv⟩ := hsigners a ha
    exact hkeep a v d hv
  | certified li =>
    refine ⟨fun agg hagg => (by cases hagg), fun li' hli' => ?_⟩
    cases hli'
    exact (hcertified li rfl).mono hkeep
  | collect hdata hsub =>
    refine ⟨fun agg hagg => ?_, fun li hli => by cases hli⟩
    cases hagg
    exact ⟨by rw [hdata]; exact (hcollecting _ rfl).1, hvoter rfl hsub⟩
  | certify hdata hsub hagg =>
    refine ⟨fun agg hagg' => (by cases hagg'), fun li hli => ?_⟩
    cases hli
    obtain ⟨hnodupSigners, hmem, hquorum⟩ := SignatureAggregator.tryAggregate_signers hnodup hlen hagg
    exact ⟨(hcollecting _ rfl).1, hnodupSigners, hquorum,
      fun a ha => hvoter rfl hsub a ((hmem a).mp ha)⟩

/-- One vote keeps the invariant; a certificate it returns is the one stored for its digest, and
stored certificates stay. -/
theorem VotesInv.insertVote {votes : List Vote} {r : VoteReceptionResult}
    (hinv : VotesInv hash V votes pv) (h : pv.insertVote bls hash vote V = some (r, pv')) :
    VotesInv hash V (votes ++ [vote]) pv' ∧
      (∀ qc, r = .newQuorumCertificate qc →
        pv'.liDigestToVotes (hash vote.ledgerInfo) = some (.enoughVotes qc.signedLedgerInfo)) ∧
      ∀ d li, pv.liDigestToVotes d = some (.enoughVotes li) →
        pv'.liDigestToVotes d = some (.enoughVotes li) := by
  rcases insertVote_step h with ⟨rfl, hnot⟩ | ⟨status, qcLi, hprev, hauthor, hli, hstep, hqc⟩
  · exact ⟨hinv.append [vote], fun qc hr => absurd hr (hnot qc), fun _ _ h => h⟩
  have hkeep := keepsDigests_of_step hprev hauthor
  have hrec : pv'.authorToVote vote.author = some (vote, hash vote.ledgerInfo) := by
    rw [hauthor, Function.update_self]
  obtain ⟨hcollecting, hcertified⟩ := hinv.startStatus vote
  obtain ⟨hcollecting', hcertified'⟩ :=
    hstep.keeps hnodup hlen hkeep ⟨vote, hrec⟩ hcollecting hcertified
  -- away from the vote's digest the statuses are unchanged
  have hother : ∀ {d}, d ≠ hash vote.ledgerInfo → pv'.liDigestToVotes d = pv.liDigestToVotes d :=
    fun hd => by rw [hli, Function.update_of_ne hd]
  have hhere : pv'.liDigestToVotes (hash vote.ledgerInfo) = some status := by
    rw [hli, Function.update_self]
  refine ⟨⟨?_, ?_, ?_⟩, ?_, ?_⟩
  · intro a v d hv
    by_cases ha : a = vote.author
    · subst ha
      rw [hrec, Option.some.injEq, Prod.mk.injEq] at hv
      obtain ⟨rfl, rfl⟩ := hv
      exact ⟨List.mem_append_right _ (List.mem_singleton_self _), rfl, rfl⟩
    · rw [hauthor, Function.update_of_ne ha] at hv
      exact (hinv.append [vote]).recorded a v d hv
  · intro d agg hagg
    by_cases hd : d = hash vote.ledgerInfo
    · subst hd
      rw [hhere, Option.some.injEq] at hagg
      exact hcollecting' agg hagg
    · rw [hother hd] at hagg
      obtain ⟨hhash, hsigners⟩ := hinv.collecting d agg hagg
      refine ⟨hhash, fun a ha => ?_⟩
      obtain ⟨v, hv⟩ := hsigners a ha
      exact hkeep a v d hv
  · intro d li hli'
    by_cases hd : d = hash vote.ledgerInfo
    · subst hd
      rw [hhere, Option.some.injEq] at hli'
      exact hcertified' li hli'
    · rw [hother hd] at hli'
      exact (hinv.certified d li hli').mono hkeep
  · intro qc hr
    have hq := hqc qc hr
    subst hq
    rw [hhere, hstep.qcLi_eq]
  · intro d li hd
    by_cases hdv : d = hash vote.ledgerInfo
    · subst hdv
      rw [hhere]
      rw [hd, Option.getD_some] at hstep
      rw [hstep.of_enoughVotes]
    · rw [hother hdv]
      exact hd

/-- A run keeps the invariant over its votes; every certificate it returns is stored at its end,
and stored certificates stay. -/
theorem VotesInv.insertVotes {hist votes : List Vote} {results : List VoteReceptionResult}
    (hinv : VotesInv hash V hist pv) (h : insertVotes bls hash V pv votes = some (results, pv')) :
    VotesInv hash V (hist ++ votes) pv' ∧
      (∀ qc, .newQuorumCertificate qc ∈ results →
        ∃ d, pv'.liDigestToVotes d = some (.enoughVotes qc.signedLedgerInfo)) ∧
      ∀ d li, pv.liDigestToVotes d = some (.enoughVotes li) →
        pv'.liDigestToVotes d = some (.enoughVotes li) := by
  -- induction on the votes, the invariant carried over a growing history
  induction votes generalizing hist pv results with
  | nil =>
    simp only [PendingVotes.insertVotes, Option.some.injEq, Prod.mk.injEq] at h
    obtain ⟨rfl, rfl⟩ := h
    exact ⟨by simpa using hinv, fun qc hqc => (by cases hqc), fun _ _ h => h⟩
  | cons vote votes ih =>
    simp only [PendingVotes.insertVotes] at h
    obtain ⟨⟨r, pv₁⟩, h₁, h⟩ := Option.bind_eq_some_iff.mp h
    obtain ⟨⟨rs, pv₂⟩, h₂, h⟩ := Option.bind_eq_some_iff.mp h
    simp only [Option.pure_def, Option.some.injEq, Prod.mk.injEq] at h
    obtain ⟨rfl, rfl⟩ := h
    obtain ⟨hinv₁, hqc₁, hkeep₁⟩ := hinv.insertVote hnodup hlen h₁
    obtain ⟨hinv₂, hqc₂, hkeep₂⟩ := ih hinv₁ h₂
    refine ⟨by simpa using hinv₂, ?_, fun d li hd => hkeep₂ d li (hkeep₁ d li hd)⟩
    intro qc hqc
    rcases List.mem_cons.mp hqc with hr | hrs
    · exact ⟨_, hkeep₂ _ _ (hqc₁ qc hr.symm)⟩
    · exact hqc₂ qc hrs

end Step

end PendingVotes

/-! ### Quorum intersection and certificate uniqueness -/

/-- For the verifier of distinct validators with some voting power: (i) two super-majorities of
duplicate-free authors share more than the power outside a quorum; (ii) within `2^16` validators,
over any run of `insert_vote`, an author's signature is held for one digest only, the certificates
returned carry one ledger info, and each names distinct validators of a quorum who all voted for
its digest; (iii) an accepted multi-signature names distinct validators of the set with a
quorum. -/
theorem quorum_certificate_unique (infos : List ValidatorConsensusInfo)
    (hnodup : (infos.map (·.address)).Nodup) (hpos : 0 < CreditChain.sumVotingPower infos) :
    let V := ValidatorVerifier.new infos
    (∀ A B : List AccountAddress, A.Nodup → B.Nodup → ∀ pA pB,
      V.checkVotingPower A true = .ok pA → V.checkVotingPower B true = .ok pB →
      ∃ p, V.sumVotingPower (A ∩ B) = .ok p ∧ V.checkAggregatedVotingPower p false = .ok p) ∧
    (infos.length ≤ 65536 → ∀ (bls : Bls) (hash : LedgerInfo → HashValue) votes results pv,
      PendingVotes.new.insertVotes bls hash V votes = some (results, pv) →
      (∀ a d d' agg agg', pv.liDigestToVotes d = some (.notEnoughVotes agg) →
        pv.liDigestToVotes d' = some (.notEnoughVotes agg') →
        a ∈ agg.signatures → a ∈ agg'.signatures → d = d') ∧
      (∀ qc qc', .newQuorumCertificate qc ∈ results → .newQuorumCertificate qc' ∈ results →
        qc.signedLedgerInfo.ledgerInfo = qc'.signedLedgerInfo.ledgerInfo) ∧
      ∀ qc, .newQuorumCertificate qc ∈ results →
        (V.aggregateSignatureAuthors qc.signedLedgerInfo.signatures).Nodup ∧
        (∃ p, V.sumVotingPower (V.aggregateSignatureAuthors qc.signedLedgerInfo.signatures) = .ok p ∧
          V.quorumVotingPower ≤ p) ∧
        ∀ a ∈ V.aggregateSignatureAuthors qc.signedLedgerInfo.signatures,
          ∃ vote ∈ votes, vote.author = a ∧ hash vote.ledgerInfo = hash qc.signedLedgerInfo.ledgerInfo) ∧
    ∀ (bls : Bls) (message : HashValue) (sig : AggregateSignature),
      V.verifyMultiSignatures bls message sig = .ok () →
      (∀ i ∈ sig.validatorBitmask.iterOnes, i < infos.length) ∧
      (V.aggregateSignatureAuthors sig).Nodup ∧
      ∃ p, V.sumVotingPower (V.aggregateSignatureAuthors sig) = .ok p ∧ V.quorumVotingPower ≤ p := by
  intro V
  have htotal := ValidatorVerifier.new_totalVotingPower hnodup
  have hq := ValidatorVerifier.new_quorumVotingPower hpos
  refine ⟨fun A B hA hB _ _ hokA hokB => ValidatorVerifier.checkVotingPower_inter htotal hq hA hB
    hokA hokB, ?_, fun bls message sig h => ValidatorVerifier.verifyMultiSignatures_signers hnodup h⟩
  intro hlen bls hash votes results pv hrun
  obtain ⟨hinv, hqcs, -⟩ := PendingVotes.VotesInv.insertVotes (V := V) hnodup hlen
    (PendingVotes.VotesInv.new hash V) hrun
  refine ⟨?_, ?_, ?_⟩
  · -- an author's one recorded vote names the digest of every aggregator holding it
    intro a d d' agg agg' hd hd' ha ha'
    obtain ⟨v, hv⟩ := (hinv.collecting d agg hd).2 a ha
    obtain ⟨v', hv'⟩ := (hinv.collecting d' agg' hd').2 a ha'
    rw [hv, Option.some.injEq, Prod.mk.injEq] at hv'
    exact hv'.2
  · intro qc qc' hqc hqc'
    obtain ⟨d, hd⟩ := hqcs qc hqc
    obtain ⟨d', hd'⟩ := hqcs qc' hqc'
    have hdd := (hinv.certified d _ hd).digest_eq htotal hq (hinv.certified d' _ hd')
    subst hdd
    rw [hd, Option.some.injEq, VoteStatus.enoughVotes.injEq] at hd'
    rw [hd']
  · intro qc hqc
    obtain ⟨d, hd⟩ := hqcs qc hqc
    have hcert := hinv.certified d _ hd
    refine ⟨hcert.nodup, hcert.quorum, fun a ha => ?_⟩
    obtain ⟨v, hv⟩ := hcert.voted a ha
    obtain ⟨hmem, hauthor, hhash⟩ := hinv.recorded a v d hv
    exact ⟨v, by simpa using hmem, hauthor, by rw [hhash, hcert.hash_eq]⟩

/-- The statement at one validator of voting power one. -/
theorem quorum_certificate_unique_one_validator :
    let infos : List ValidatorConsensusInfo := [⟨7, 0, 1⟩]
    let V := ValidatorVerifier.new infos
    (infos.map (·.address)).Nodup ∧ 0 < CreditChain.sumVotingPower infos ∧
    (∀ A B : List AccountAddress, A.Nodup → B.Nodup → ∀ pA pB,
      V.checkVotingPower A true = .ok pA → V.checkVotingPower B true = .ok pB →
      ∃ p, V.sumVotingPower (A ∩ B) = .ok p ∧ V.checkAggregatedVotingPower p false = .ok p) ∧
    (infos.length ≤ 65536 → ∀ (bls : Bls) (hash : LedgerInfo → HashValue) votes results pv,
      PendingVotes.new.insertVotes bls hash V votes = some (results, pv) →
      (∀ a d d' agg agg', pv.liDigestToVotes d = some (.notEnoughVotes agg) →
        pv.liDigestToVotes d' = some (.notEnoughVotes agg') →
        a ∈ agg.signatures → a ∈ agg'.signatures → d = d') ∧
      (∀ qc qc', .newQuorumCertificate qc ∈ results → .newQuorumCertificate qc' ∈ results →
        qc.signedLedgerInfo.ledgerInfo = qc'.signedLedgerInfo.ledgerInfo) ∧
      ∀ qc, .newQuorumCertificate qc ∈ results →
        (V.aggregateSignatureAuthors qc.signedLedgerInfo.signatures).Nodup ∧
        (∃ p, V.sumVotingPower (V.aggregateSignatureAuthors qc.signedLedgerInfo.signatures) = .ok p ∧
          V.quorumVotingPower ≤ p) ∧
        ∀ a ∈ V.aggregateSignatureAuthors qc.signedLedgerInfo.signatures,
          ∃ vote ∈ votes, vote.author = a ∧ hash vote.ledgerInfo = hash qc.signedLedgerInfo.ledgerInfo) ∧
    ∀ (bls : Bls) (message : HashValue) (sig : AggregateSignature),
      V.verifyMultiSignatures bls message sig = .ok () →
      (∀ i ∈ sig.validatorBitmask.iterOnes, i < infos.length) ∧
      (V.aggregateSignatureAuthors sig).Nodup ∧
      ∃ p, V.sumVotingPower (V.aggregateSignatureAuthors sig) = .ok p ∧ V.quorumVotingPower ≤ p :=
  ⟨by decide, by decide, quorum_certificate_unique [⟨7, 0, 1⟩] (by decide) (by decide)⟩

/-! ### Past `2^16` validators -/

/-- `65537` validators of addresses `0, …, 65536`, of which only the last has voting power. -/
@[irreducible] def overflowInfos : List ValidatorConsensusInfo :=
  (List.range 65537).map fun i => ⟨i, i, if i = 65536 then 1 else 0⟩

theorem length_overflowInfos : overflowInfos.length = 65537 := by
  unfold overflowInfos
  simp

theorem getElem?_overflowInfos {i : Nat} (hi : i < 65537) :
    overflowInfos[i]? = some ⟨i, i, if i = 65536 then 1 else 0⟩ := by
  unfold overflowInfos
  simp [List.getElem?_range hi]

theorem addresses_overflowInfos : overflowInfos.map (·.address) = List.range 65537 := by
  unfold overflowInfos
  rw [List.map_map]
  exact List.map_id'' (fun _ => rfl) _

theorem sumVotingPower_overflowInfos : CreditChain.sumVotingPower overflowInfos = 1 := by
  rw [ValidatorVerifier.sumVotingPower_eq_sum]
  unfold overflowInfos
  rw [List.map_map, List.range_succ, List.map_append, List.sum_append]
  have hzero : ((List.range 65536).map ((·.votingPower) ∘ fun i : Nat =>
      (⟨i, i, if i = 65536 then 1 else 0⟩ : ValidatorConsensusInfo))).sum = 0 := by
    apply List.sum_eq_zero
    intro x hx
    obtain ⟨i, hi, rfl⟩ := List.mem_map.mp hx
    simp [Nat.ne_of_lt (List.mem_range.mp hi)]
  rw [hzero]
  rfl

namespace ValidatorVerifier

theorem len_new_overflowInfos : (new overflowInfos).len = 65537 :=
  length_overflowInfos

theorem totalVotingPower_new_overflowInfos : (new overflowInfos).totalVotingPower = 1 :=
  sumVotingPower_overflowInfos

theorem quorumVotingPower_new_overflowInfos : (new overflowInfos).quorumVotingPower = 1 := by
  rw [new_quorumVotingPower (by rw [sumVotingPower_overflowInfos]; decide),
    totalVotingPower_new_overflowInfos]
  rfl

theorem nodup_new_overflowInfos : ((new overflowInfos).validatorInfos.map (·.address)).Nodup := by
  rw [new_validatorInfos, addresses_overflowInfos]
  exact List.nodup_range

/- The kernel ignores `@[irreducible]`: a `simp` over a goal that names `new overflowInfos` leaves
steps that make it run the index map over all `65537` validators.  The facts below are therefore
applications of lemmas about an arbitrary verifier. -/

theorem addressToValidatorIndex_new_overflowInfos {i : Nat} (hi : i < 65537) :
    (new overflowInfos).addressToValidatorIndex i = some i :=
  addressToValidatorIndex_getElem? nodup_new_overflowInfos (getElem?_overflowInfos hi)

theorem getVotingPower_new_overflowInfos {i : Nat} (hi : i < 65537) :
    (new overflowInfos).getVotingPower i = some (if i = 65536 then 1 else 0) :=
  getVotingPower_of_mem nodup_new_overflowInfos (List.mem_of_getElem? (getElem?_overflowInfos hi))

end ValidatorVerifier

/-- The block info of epoch and round zero with every field zero. -/
def zeroBlockInfo : BlockInfo :=
  ⟨0, 0, 0, 0, 0, 0, none⟩

/-- The one vote, of the last validator of `overflowInfos`. -/
def overflowVote : Vote :=
  ⟨⟨zeroBlockInfo, zeroBlockInfo⟩, 65536, ⟨zeroBlockInfo, 0⟩, ⟨0, false⟩, none⟩

/-- The signature aggregated for it: bit `65536 mod 2^16 = 0` set in a bitmask of
`65537 mod 2^16 = 1` bit. -/
def overflowSignature : AggregateSignature :=
  ⟨(BitVec.withNumBits 1).set 0, some 0⟩

namespace ValidatorVerifier

theorem checkVotingPower_new_overflowInfos :
    (new overflowInfos).checkVotingPower [65536] true = .ok 1 := by
  rw [checkVotingPower_true_eq_ok, quorumVotingPower_new_overflowInfos]
  exact ⟨sumVotingPower_singleton (getVotingPower_new_overflowInfos (by decide)), le_refl 1⟩

theorem aggregateSignatures_new_overflowInfos :
    (new overflowInfos).aggregateSignatures acceptingBls [(65536, 0)] = .ok overflowSignature := by
  rw [aggregateSignatures_singleton (addressToValidatorIndex_new_overflowInfos (by decide)),
    len_new_overflowInfos]
  rfl

/-- The aggregate names validator `0`, who has no power. -/
theorem verifyMultiSignatures_new_overflowInfos (message : HashValue) :
    (new overflowInfos).verifyMultiSignatures acceptingBls message overflowSignature =
      .error (.tooLittleVotingPower 0 1) := by
  have hones : overflowSignature.validatorBitmask.iterOnes = [0] := by decide
  have hvoters : checkNumOfVoters (new overflowInfos).len.toUInt16
      overflowSignature.validatorBitmask = .ok () := by
    rw [len_new_overflowInfos]
    decide
  have hinfo : (new overflowInfos).validatorInfos[0]? = some ⟨0, 0, 0⟩ :=
    getElem?_overflowInfos (by decide)
  have hsum : (new overflowInfos).sumVotingPower [0] = .ok 0 :=
    sumVotingPower_singleton (getVotingPower_new_overflowInfos (by decide))
  rw [verifyMultiSignatures_tooLittleVotingPower hvoters (signerInfos_singleton hones hinfo) hsum
    (by rw [quorumVotingPower_new_overflowInfos]; decide), quorumVotingPower_new_overflowInfos]

theorem verify_new_overflowInfos (message : HashValue) (signature : Signature) :
    (new overflowInfos).verify acceptingBls 65536 message signature = .ok () :=
  verify_eq_ok_of_index (addressToValidatorIndex_new_overflowInfos (by decide))
    (getElem?_overflowInfos (by decide)) rfl

end ValidatorVerifier

namespace SignatureAggregator

/-- An aggregator holding the last validator's signature alone aggregates to
`overflowSignature`. -/
theorem tryAggregate_overflow (agg : SignatureAggregator LedgerInfo)
    (hvoters : agg.allVoters = [65536])
    (hlist : agg.signatures.toList.map (fun p => (p.1, p.2.signature)) = [(65536, 0)]) :
    agg.tryAggregate acceptingBls (ValidatorVerifier.new overflowInfos) = .ok overflowSignature := by
  simp only [tryAggregate, checkVotingPower, hvoters, hlist,
    ValidatorVerifier.checkVotingPower_new_overflowInfos, Except.ok_bind,
    ValidatorVerifier.aggregateSignatures_new_overflowInfos]

/-- The aggregator of the vote of `overflowVote`. -/
def overflowAggregator : SignatureAggregator LedgerInfo :=
  (SignatureAggregator.new overflowVote.ledgerInfo).addSignature 65536 ⟨0, false⟩

/-- What is left of it once the signatures are checked one by one. -/
def overflowFiltered : SignatureAggregator LedgerInfo :=
  ⟨overflowVote.ledgerInfo, .ofList [(65536, (⟨0, true⟩ : SignatureWithStatus))]⟩

theorem filterInvalidSignatures_overflowAggregator {v : ValidatorVerifier}
    (hverify : v.verify acceptingBls 65536 0 0 = .ok ()) :
    overflowAggregator.filterInvalidSignatures acceptingBls (fun _ => 0) v = overflowFiltered := by
  have htoList : overflowAggregator.signatures.toList = [(65536, ⟨0, false⟩)] := by decide
  simp only [filterInvalidSignatures, ValidatorVerifier.filterInvalidSignatures, htoList,
    List.filterMap_cons, List.filterMap_nil, hverify]
  rfl

theorem aggregateAndVerify_overflow :
    overflowAggregator.aggregateAndVerify acceptingBls (fun _ => 0)
        (ValidatorVerifier.new overflowInfos) =
      (.ok (overflowVote.ledgerInfo, overflowSignature), overflowFiltered) := by
  have hfiltered := filterInvalidSignatures_overflowAggregator
    (ValidatorVerifier.verify_new_overflowInfos 0 0)
  have hsecond := tryAggregate_overflow overflowFiltered (by decide) (by decide)
  rw [aggregateAndVerify_of_error (tryAggregate_overflow overflowAggregator (by decide) (by decide))
    (ValidatorVerifier.verifyMultiSignatures_new_overflowInfos _) (hfiltered ▸ hsecond), hfiltered]
  rfl

end SignatureAggregator

namespace PendingVotes

/-- The vote of `overflowVote` alone forms a certificate of `overflowSignature` when the verifier
gives its author all the power and `aggregate_and_verify` forms that signature. -/
theorem insertVote_overflow {v : ValidatorVerifier} (hknown : v.getVotingPower 65536 = some 1)
    (hcheck : SignatureAggregator.overflowAggregator.checkVotingPower v true = .ok 1)
    (hquorum : v.quorumVotingPower = 1)
    (haggregate : SignatureAggregator.overflowAggregator.aggregateAndVerify acceptingBls (fun _ => 0)
      v = (.ok (overflowVote.ledgerInfo, overflowSignature), SignatureAggregator.overflowFiltered)) :
    ∃ pv, PendingVotes.new.insertVote acceptingBls (fun _ => 0) overflowVote v =
      some (.newQuorumCertificate ⟨overflowVote.voteData, ⟨overflowVote.ledgerInfo, overflowSignature⟩⟩,
        pv) := by
  have hauthor : overflowVote.author = 65536 := rfl
  have hsignature : overflowVote.signature = ⟨0, false⟩ := rfl
  simp only [insertVote, checkPreviousVote, PendingVotes.new, Option.getD_none, hauthor, hknown,
    addToAggregator, hsignature]
  rw [show (SignatureAggregator.new overflowVote.ledgerInfo).addSignature 65536 ⟨0, false⟩ =
    SignatureAggregator.overflowAggregator from rfl, hcheck, hquorum, haggregate]
  exact ⟨_, rfl⟩

end PendingVotes


/-- Past `2^16` validators a certificate names a validator who did not vote: the one vote, of
validator `65536`, forms a certificate whose bitmask names validator `0`, of no voting power. -/
theorem quorum_certificate_names_nonvoter :
    (overflowInfos.map (·.address)).Nodup ∧ 0 < CreditChain.sumVotingPower overflowInfos ∧
    ∃ results pv, PendingVotes.new.insertVotes acceptingBls (fun _ => 0)
        (ValidatorVerifier.new overflowInfos) [overflowVote] = some (results, pv) ∧
      ∃ qc, .newQuorumCertificate qc ∈ results ∧
        (ValidatorVerifier.new overflowInfos).aggregateSignatureAuthors
          qc.signedLedgerInfo.signatures = [0] ∧
        overflowVote.author ≠ 0 ∧
        (ValidatorVerifier.new overflowInfos).sumVotingPower [0] = .ok 0 ∧
        (ValidatorVerifier.new overflowInfos).quorumVotingPower = 1 := by
  obtain ⟨pv, hvote⟩ := PendingVotes.insertVote_overflow
    (ValidatorVerifier.getVotingPower_new_overflowInfos (by decide))
    ValidatorVerifier.checkVotingPower_new_overflowInfos
    ValidatorVerifier.quorumVotingPower_new_overflowInfos
    SignatureAggregator.aggregateAndVerify_overflow
  have hrun : PendingVotes.new.insertVotes acceptingBls (fun _ => 0)
      (ValidatorVerifier.new overflowInfos) [overflowVote] =
        some ([.newQuorumCertificate ⟨overflowVote.voteData,
          ⟨overflowVote.ledgerInfo, overflowSignature⟩⟩], pv) := by
    simp [PendingVotes.insertVotes, hvote]
  refine ⟨by rw [addresses_overflowInfos]; exact List.nodup_range,
    by rw [sumVotingPower_overflowInfos]; decide, _, pv, hrun, _, List.mem_singleton_self _, ?_,
    by decide, ?_, ValidatorVerifier.quorumVotingPower_new_overflowInfos⟩
  · have hones : overflowSignature.validatorBitmask.iterOnes = [0] := by decide
    simp [ValidatorVerifier.aggregateSignatureAuthors, hones, getElem?_overflowInfos]
  · rw [ValidatorVerifier.sumVotingPower_eq_ok]
    simp [ValidatorVerifier.getVotingPower_new_overflowInfos, ValidatorVerifier.votingPowerOf]

end CreditChain
