import CreditChain.Consensus.PendingVotes
import Mathlib.Data.Nat.Pairing

/-!
# Timeout certificates

`consensus-types/src/timeout_2chain.rs`: a partial timeout certificate keeps the timeout of the
highest certified round it has been given, and one round and signature per author.  The two are
updated by different rules: `add` replaces the timeout by any of a higher certified round, also one
from an author already recorded, while `add_signature` keeps an author's first round and signature.

A recorded round never exceeds the kept timeout's (`recordedRounds_le_highestHqcRound`), and when
each author adds once the kept timeout is that of the highest recorded round
(`max?_recordedRounds`).  An author whose second timeout certifies a higher round breaks this: the
certificate then formed, in `PendingVotes` too, fails its own `verify`
(`timeout_certificate_inconsistent_hqc`).
-/

namespace CreditChain

namespace TwoChainTimeoutWithPartialSignatures

/-- A run of `add` calls, each with its author, timeout and signature. -/
def addAll (p : TwoChainTimeoutWithPartialSignatures)
    (adds : List (AccountAddress × TwoChainTimeout × Signature)) :
    TwoChainTimeoutWithPartialSignatures :=
  adds.foldl (fun p x => p.add x.1 x.2.1 x.2.2) p

/-- The rounds `add_signature` has recorded, one for each author. -/
def recordedRounds (p : TwoChainTimeoutWithPartialSignatures) : List Round :=
  p.signatures.signatures.toList.map (·.2.1)

section Add

variable (p : TwoChainTimeoutWithPartialSignatures) (author : AccountAddress)
  (timeout : TwoChainTimeout) (signature : Signature)

theorem add_timeout :
    (p.add author timeout signature).timeout =
      if timeout.hqcRound > p.timeout.hqcRound then timeout else p.timeout := by
  unfold add
  split_ifs <;> rfl

theorem add_timeout_hqcRound :
    (p.add author timeout signature).timeout.hqcRound = max p.timeout.hqcRound timeout.hqcRound := by
  rw [add_timeout]
  split_ifs with h
  · exact (max_eq_right (le_of_lt h)).symm
  · exact (max_eq_left (not_lt.mp h)).symm

@[simp] theorem add_signatures :
    (p.add author timeout signature).signatures.signatures =
      p.signatures.signatures.insertIfNew author (timeout.hqcRound, signature) := by
  unfold add
  split_ifs <;> rfl

end Add

section Run

variable {p : TwoChainTimeoutWithPartialSignatures}
  {x : AccountAddress × TwoChainTimeout × Signature}
  {adds : List (AccountAddress × TwoChainTimeout × Signature)}

@[simp] theorem addAll_nil : p.addAll [] = p := rfl

@[simp] theorem addAll_cons : p.addAll (x :: adds) = (p.add x.1 x.2.1 x.2.2).addAll adds := rfl

/-- The timeout kept after a run is the first one or one of the run's. -/
theorem addAll_timeout (p : TwoChainTimeoutWithPartialSignatures)
    (adds : List (AccountAddress × TwoChainTimeout × Signature)) :
    (p.addAll adds).timeout = p.timeout ∨ ∃ x ∈ adds, (p.addAll adds).timeout = x.2.1 := by
  induction adds generalizing p with
  | nil => exact .inl rfl
  | cons x adds ih =>
    rw [addAll_cons]
    rcases ih (p.add x.1 x.2.1 x.2.2) with h | ⟨y, hy, h⟩
    · rw [h, add_timeout]
      split_ifs
      · exact .inr ⟨x, List.mem_cons_self, rfl⟩
      · exact .inl rfl
    · exact .inr ⟨y, List.mem_cons_of_mem _ hy, h⟩

/-- The certified round of the timeout kept is the highest of the run's. -/
theorem le_addAll_hqcRound (p : TwoChainTimeoutWithPartialSignatures)
    (adds : List (AccountAddress × TwoChainTimeout × Signature)) :
    p.timeout.hqcRound ≤ (p.addAll adds).timeout.hqcRound ∧
      ∀ x ∈ adds, x.2.1.hqcRound ≤ (p.addAll adds).timeout.hqcRound := by
  induction adds generalizing p with
  | nil => exact ⟨le_refl _, fun _ h => absurd h List.not_mem_nil⟩
  | cons x adds ih =>
    obtain ⟨hfirst, hrest⟩ := ih (p.add x.1 x.2.1 x.2.2)
    rw [add_timeout_hqcRound] at hfirst
    rw [addAll_cons]
    refine ⟨le_trans (le_max_left _ _) hfirst, fun y hy => ?_⟩
    rcases List.mem_cons.mp hy with rfl | hy
    · exact le_trans (le_max_right _ _) hfirst
    · exact hrest y hy

/-- After a run an author's recorded round and signature are those it had, or else those of its
first `add`. -/
theorem getElem?_addAll_signatures (p : TwoChainTimeoutWithPartialSignatures)
    (adds : List (AccountAddress × TwoChainTimeout × Signature)) (a : AccountAddress) :
    (p.addAll adds).signatures.signatures[a]? =
      p.signatures.signatures[a]?.or
        ((adds.find? (·.1 = a)).map fun x => (x.2.1.hqcRound, x.2.2)) := by
  induction adds generalizing p with
  | nil => simp
  | cons x adds ih =>
    rw [addAll_cons, ih, add_signatures, Std.TreeMap.getElem?_insertIfNew]
    by_cases hx : x.1 = a
    · -- the author's first `add`: recorded unless the author was already
      subst hx
      by_cases hmem : x.1 ∈ p.signatures.signatures <;> simp [hmem]
    · simp [hx]

end Run

theorem mem_recordedRounds {p : TwoChainTimeoutWithPartialSignatures} {r : Round} :
    r ∈ p.recordedRounds ↔
      ∃ (a : AccountAddress) (signature : Signature),
        p.signatures.signatures[a]? = some (r, signature) := by
  simp [recordedRounds, Std.TreeMap.mem_toList_iff_getElem?_eq_some]

/-- In a list of distinct keys, the first entry with an entry's key is the entry itself. -/
private theorem find?_fst_eq_of_nodup {α β : Type} [DecidableEq α] {l : List (α × β)}
    (hnodup : (l.map (·.1)).Nodup) {x : α × β} (hx : x ∈ l) : l.find? (·.1 = x.1) = some x := by
  induction l with
  | nil => cases hx
  | cons y l ih =>
    rw [List.map_cons, List.nodup_cons] at hnodup
    rcases List.mem_cons.mp hx with rfl | hx
    · simp
    · have hne : y.1 ≠ x.1 := fun h => hnodup.1 (h ▸ List.mem_map_of_mem hx)
      simp [hne, ih hnodup.2 hx]

section Highest

variable (timeout : TwoChainTimeout) (adds : List (AccountAddress × TwoChainTimeout × Signature))

/-- Every round recorded in a run from `new` is at most the certified round of the timeout kept:
it is the certified round of a timeout added. -/
theorem recordedRounds_le_highestHqcRound {r : Round}
    (hr : r ∈ ((new timeout).addAll adds).recordedRounds) :
    r ≤ ((new timeout).addAll adds).highestHqcRound := by
  obtain ⟨a, signature, h⟩ := Iff.mp mem_recordedRounds hr
  rw [getElem?_addAll_signatures] at h
  simp only [signatures_new, timeout_new, Std.TreeMap.getElem?_emptyc, Option.none_or,
    Option.map_eq_some_iff, Prod.mk.injEq] at h
  obtain ⟨x, hx, rfl, -⟩ := h
  exact (le_addAll_hqcRound _ _).2 x (List.mem_of_find?_eq_some hx)

/-- When each author adds once, and the first `add` is of the timeout the certificate started
from, the timeout kept is that of the highest recorded round. -/
theorem max?_recordedRounds (author : AccountAddress) (signature : Signature)
    (hnodup : (((author, timeout, signature) :: adds).map (·.1)).Nodup) :
    ((new timeout).addAll ((author, timeout, signature) :: adds)).recordedRounds.max? =
      some ((new timeout).addAll ((author, timeout, signature) :: adds)).highestHqcRound := by
  set all := (author, timeout, signature) :: adds
  rw [List.max?_eq_some_iff]
  refine ⟨?_, fun r hr => recordedRounds_le_highestHqcRound timeout all hr⟩
  -- the timeout kept is one of the run's, and its author's only `add` recorded its round
  obtain ⟨x, hx, hkept⟩ : ∃ x ∈ all, ((new timeout).addAll all).timeout = x.2.1 := by
    rcases addAll_timeout (new timeout) all with h | h
    · exact ⟨(author, timeout, signature), List.mem_cons_self, h⟩
    · exact h
  refine Iff.mpr mem_recordedRounds ⟨x.1, x.2.2, ?_⟩
  rw [getElem?_addAll_signatures, find?_fst_eq_of_nodup hnodup hx, highestHqcRound, hkept]
  simp [signatures_new, timeout_new]

end Highest

end TwoChainTimeoutWithPartialSignatures

namespace PendingVotes

/-- The timeout block of `PendingVotes` adds the timeout to its partial certificate, which starts
from that timeout on first sight, and a certificate it returns is that partial certificate's
aggregate. -/
theorem addTwoChainTimeout_partial {bls : Bls} {pv pv' : PendingVotes} {author : AccountAddress}
    {timeout : TwoChainTimeout} {signature : Signature} {V : ValidatorVerifier}
    {x : VoteReceptionResult ⊕ Nat}
    (h : pv.addTwoChainTimeout bls author timeout signature V = some (x, pv')) :
    let votes := (pv.maybe2chainTimeoutVotes.getD (.new timeout)).add author timeout signature
    pv'.maybe2chainTimeoutVotes = some votes ∧
      ∀ tc, x = .inl (.new2ChainTimeoutCertificate tc) →
        votes.partial2chainTc.aggregateSignatures bls V = some (.ok tc) := by
  intro votes
  unfold addTwoChainTimeout at h
  dsimp only at h
  split at h
  · obtain ⟨y, hy, hxy⟩ := Option.map_eq_some_iff.mp h
    split at hxy <;> simp only [Prod.mk.injEq] at hxy <;> obtain ⟨rfl, rfl⟩ := hxy
    · exact ⟨rfl, fun tc htc => by cases htc; exact hy⟩
    · exact ⟨rfl, fun tc htc => by cases htc⟩
  · split_ifs at h <;> simp only [Option.some.injEq, Prod.mk.injEq] at h <;>
      obtain ⟨rfl, rfl⟩ := h <;> exact ⟨rfl, fun tc htc => by cases htc⟩
  · simp only [Option.some.injEq, Prod.mk.injEq] at h
    obtain ⟨rfl, rfl⟩ := h
    exact ⟨rfl, fun tc htc => by cases htc⟩

end PendingVotes

/-! ### An author's second, higher timeout -/

/-- Hashes that are all zero, over `acceptingBls`. -/
def acceptingCrypto : Crypto :=
  ⟨acceptingBls, fun _ => 0, fun _ => 0, fun _ => 0⟩

/-- The block of round `round` in epoch one, its other fields zero. -/
def epochOneBlock (round : Round) : BlockInfo :=
  ⟨1, round, 0, 0, 0, 0, none⟩

/-- The genesis certificate of epoch one. -/
def genesisCert : QuorumCert :=
  ⟨⟨epochOneBlock 0, epochOneBlock 0⟩, ⟨⟨epochOneBlock 0, 0⟩, ⟨BitVec.withNumBits 0, none⟩⟩⟩

/-- A certificate of the block of round one, signed by validator `0`. -/
def roundOneCert : QuorumCert :=
  ⟨⟨epochOneBlock 1, epochOneBlock 0⟩,
    ⟨⟨epochOneBlock 0, 0⟩, ⟨(BitVec.withNumBits 1).set 0, some 0⟩⟩⟩

/-- Validator `0`'s timeout of round two with the genesis certificate. -/
def genesisTimeout : RoundTimeout :=
  ⟨⟨1, 2, genesisCert⟩, 0, .unknown, 0⟩

/-- Validator `0`'s timeout of round two once it has seen the certificate of round one. -/
def roundOneTimeout : RoundTimeout :=
  ⟨⟨1, 2, roundOneCert⟩, 0, .unknown, 1⟩

/-- One validator, of address `0` and voting power one. -/
def soleValidator : ValidatorVerifier :=
  .new [⟨0, 0, 1⟩]

/-- The partial signatures of round two after the sole validator's two timeouts. -/
def bothTimeoutsPartial : TwoChainTimeoutWithPartialSignatures :=
  (TwoChainTimeoutWithPartialSignatures.new genesisTimeout.timeout).addAll
    [(0, genesisTimeout.timeout, 0), (0, roundOneTimeout.timeout, 1)]

/-- The sole validator times out round two twice, with a higher certified round the second time.
Both timeouts verify, and each forms a certificate, directly and in `PendingVotes`; the second
keeps the second timeout and the first signed round, and fails `verify`. -/
theorem timeout_certificate_inconsistent_hqc :
    genesisTimeout.timeout.verify acceptingCrypto soleValidator = .ok () ∧
    roundOneTimeout.timeout.verify acceptingCrypto soleValidator = .ok () ∧
    soleValidator.checkVotingPower bothTimeoutsPartial.signers true = .ok 1 ∧
    ∃ pv₁ tc₁ pv₂ tc₂,
      PendingVotes.new.insertRoundTimeout acceptingBls genesisTimeout soleValidator =
        some (.new2ChainTimeoutCertificate tc₁, pv₁) ∧
      tc₁.verify acceptingCrypto soleValidator = .ok () ∧
      pv₁.insertRoundTimeout acceptingBls roundOneTimeout soleValidator =
        some (.new2ChainTimeoutCertificate tc₂, pv₂) ∧
      bothTimeoutsPartial.aggregateSignatures acceptingBls soleValidator = some (.ok tc₂) ∧
      tc₂.highestHqcRound = 1 ∧ tc₂.signaturesWithRounds.rounds = [0] ∧
      tc₂.verify acceptingCrypto soleValidator =
        .error (.msg "Inconsistent hqc round, qc has round 1, highest signed round 0") :=
  ⟨by decide, by decide, by decide, _, _, _, _, rfl, by decide, rfl, rfl, rfl, rfl, by decide⟩

/-! ### A round no signer signed

`verify` checks the aggregate over the signers zipped with the rounds, so a rounds vector longer
than the signers, which `AggregateSignatureWithRounds::new` rejects but deserialization does not,
leaves its last rounds unsigned; they still take part in the maximum compared with the certified
round. -/

/-- The BLS operations of a world in which the owner of public key `k` has signed exactly the
messages `h` with `signed k h`: a signature, single or aggregated, verifies when there is one
message per key and each key's owner signed its message.  Signatures carry nothing, and keys
aggregate to the first. -/
def signedBls (signed : PublicKey → HashValue → Bool) : Bls :=
  ⟨fun message key _ => signed key message, List.head?, List.head?,
    fun messages keys _ =>
      messages.length == keys.length && (keys.zip messages).all fun p => signed p.1 p.2⟩

/-- An injective hash of timeout messages. -/
def timeoutHash (t : TimeoutSigningRepr) : HashValue :=
  Nat.pair t.epoch (Nat.pair t.round t.hqcRound)

/-- Validator `0` has signed the ledger info of `roundOneCert`, of hash `0`, and its timeout of
round two with certified round `0`, and nothing else. -/
def soleSigned (key : PublicKey) (message : HashValue) : Bool :=
  key == 0 && (message == 0 || message == timeoutHash ⟨1, 2, 0⟩)

/-- The cryptography of that world. -/
def soleSignedCrypto : Crypto :=
  ⟨signedBls soleSigned, fun _ => 0, fun _ => 0, timeoutHash⟩

/-- A timeout certificate of round two with the certificate of round one, validator `0` as its
only signer, and the rounds `[0, 1]`: one more than the signers. -/
def unsignedRoundCertificate : TwoChainTimeoutCertificate :=
  ⟨⟨1, 2, roundOneCert⟩, ⟨⟨(BitVec.withNumBits 1).set 0, some 0⟩, [0, 1]⟩⟩

/-- With one validator of voting power one, which signed only a timeout of round two with
certified round `0`, the certificate with rounds `[0, 1]` verifies: it has two rounds for one
signer, the signer is paired with round `0` only, and its certified round is `1`, which no signer
signed. -/
theorem timeout_certificate_unsigned_round :
    unsignedRoundCertificate.verify soleSignedCrypto soleValidator = .ok () ∧
    unsignedRoundCertificate.signaturesWithRounds.rounds.length = 2 ∧
    unsignedRoundCertificate.signaturesWithRounds.sig.getNumVoters = 1 ∧
    unsignedRoundCertificate.signaturesWithRounds.getVotersAndRounds
      soleValidator.getOrderedAccountAddresses = [(0, 0)] ∧
    unsignedRoundCertificate.highestHqcRound = 1 ∧
    ∀ r signature, soleSignedCrypto.bls.verify (soleSignedCrypto.timeoutSigningReprHash
      ⟨unsignedRoundCertificate.timeout.epoch, unsignedRoundCertificate.round, r⟩) 0 signature = true →
        r = 0 := by
  refine ⟨by decide, rfl, by decide, by decide, rfl, fun r signature h => ?_⟩
  simp only [soleSignedCrypto, signedBls, soleSigned, timeoutHash, unsignedRoundCertificate,
    TwoChainTimeoutCertificate.round] at h
  simp only [Bool.and_eq_true, beq_iff_eq, Bool.or_eq_true, true_and, Nat.pair_eq_pair] at h
  -- the ledger info's hash `0` is no timeout's: a pair with first component `1` is positive
  rcases h with h | h
  · exact absurd h (Nat.ne_of_gt (Nat.lt_of_lt_of_le Nat.one_pos (Nat.left_le_pair 1 _)))
  · exact h

end CreditChain
