import CreditChain.Consensus.Types
import Mathlib.Data.List.Chain
import Mathlib.Data.List.TakeWhile

/-!
# The trusted state of a light client

`types/src/trusted_state.rs` with `epoch_change.rs`, `epoch_state.rs` and `waypoint.rs`.  A light
client trusts a waypoint, the version and hash of one ledger info, and once it has moved past an
epoch change also the validator set of its epoch.  `verify_and_ratchet_inner` moves it forward to
a newer ledger info: within its epoch by that epoch's validators, and across epochs along an
`EpochChangeProof`, each of whose ledger infos ends an epoch and is signed by the validators the
previous one announced.  The signatures are checked by `LedgerInfoWithSignatures::verify_signatures`
over `Crypto`, and the hash of the fields a waypoint commits to is taken as given.

The `&dyn Verifier` of `EpochChangeProof::verify` is `Verifier`, one constructor for each
implementation the proof meets: the trusted state it starts from, and the epoch states it moves
through.

* `foldlM_verifyJump_eq_ok`: the loop of `EpochChangeProof::verify` accepts its ledger infos
  exactly when the first is accepted by the starting verifier and each later one is in the epoch
  the previous one announces, signed by a quorum of its validators;
* `trusted_state_ratchet`: what each result of `verify_and_ratchet_inner` says of the state, the
  ledger info and the proof it was given.
-/

namespace CreditChain

namespace LedgerInfo

/-- `LedgerInfo::epoch`. -/
def epoch (li : LedgerInfo) : Nat := li.commitInfo.epoch

/-- `LedgerInfo::version`. -/
def version (li : LedgerInfo) : Nat := li.commitInfo.version

/-- `LedgerInfo::next_epoch_state`. -/
def nextEpochState (li : LedgerInfo) : Option EpochState := li.commitInfo.nextEpochState

/-- `LedgerInfo::next_block_epoch`: the epoch it announces, or its own when it ends none. -/
def nextBlockEpoch (li : LedgerInfo) : Nat :=
  match li.nextEpochState with
  | some e => e.epoch
  | none => li.epoch

end LedgerInfo

/-- `Ledger2WaypointConverter`: the fields of a ledger info a waypoint commits to. -/
structure Ledger2WaypointConverter where
  epoch : Nat
  rootHash : HashValue
  version : Nat
  timestampUsecs : Nat
  nextEpochState : Option EpochState
  deriving DecidableEq

/-- `Ledger2WaypointConverter::new`; the root hash is the executed state id. -/
def Ledger2WaypointConverter.new (li : LedgerInfo) : Ledger2WaypointConverter :=
  ⟨li.epoch, li.commitInfo.executedStateId, li.version, li.commitInfo.timestampUsecs,
    li.nextEpochState⟩

/-- `Waypoint`: a version and the hash of the converter of a ledger info there. -/
structure Waypoint where
  version : Nat
  value : HashValue
  deriving DecidableEq

namespace Waypoint

variable (hash : Ledger2WaypointConverter → HashValue)

/-- `Waypoint::new_any`. -/
def newAny (li : LedgerInfo) : Waypoint :=
  ⟨li.version, hash (Ledger2WaypointConverter.new li)⟩

/-- `Waypoint::verify`.  The hashes are printed in decimal where the source prints them in hex. -/
def verify (self : Waypoint) (li : LedgerInfo) : Except AnyhowError Unit := do
  let waypointVersion := self.version
  let givenVersion := li.version
  Except.ensure (li.version = self.version)
    (.msg s!"Waypoint version mismatch: waypoint version = {waypointVersion}, given version = {givenVersion}")
  let waypointValue := self.value
  let givenValue := hash (Ledger2WaypointConverter.new li)
  Except.ensure (givenValue = self.value)
    (.msg s!"Waypoint value mismatch: waypoint value = {waypointValue}, given value = {givenValue}")

/-- `Verifier::is_ledger_info_stale` of a waypoint: a ledger info before its version. -/
def isLedgerInfoStale (self : Waypoint) (li : LedgerInfo) : Bool :=
  li.version < self.version

end Waypoint

namespace EpochState

variable (c : Crypto)

/-- `Verifier::verify` of an epoch state: the ledger info is in its epoch and signed by a quorum
of its validators. -/
def verify (self : EpochState) (li : LedgerInfoWithSignatures) : Except AnyhowError Unit := do
  let given := li.ledgerInfo.epoch
  let expected := self.epoch
  Except.ensure (self.epoch = li.ledgerInfo.epoch)
    (.msg s!"LedgerInfo has unexpected epoch {given}, expected {expected}")
  (li.verifySignatures c self.verifier).mapError .verify

/-- `Verifier::epoch_change_verification_required` of an epoch state. -/
def epochChangeVerificationRequired (self : EpochState) (epoch : Nat) : Bool :=
  self.epoch < epoch

/-- `Verifier::is_ledger_info_stale` of an epoch state: a ledger info of an earlier epoch. -/
def isLedgerInfoStale (self : EpochState) (li : LedgerInfo) : Bool :=
  li.epoch < self.epoch

end EpochState

/-- `TrustedState`. -/
inductive TrustedState where
  | epochWaypoint (waypoint : Waypoint)
  | epochState (waypoint : Waypoint) (epochState : EpochState)
  deriving DecidableEq

namespace TrustedState

variable (c : Crypto) (hash : Ledger2WaypointConverter → HashValue)

/-- `TrustedState::waypoint`. -/
def waypoint : TrustedState → Waypoint
  | epochWaypoint waypoint => waypoint
  | epochState waypoint _ => waypoint

/-- `TrustedState::version`. -/
def version (self : TrustedState) : Nat := self.waypoint.version

/-- `Verifier::verify` of a trusted state: by its waypoint or by its epoch state. -/
def verify : TrustedState → LedgerInfoWithSignatures → Except AnyhowError Unit
  | epochWaypoint waypoint, li => waypoint.verify hash li.ledgerInfo
  | epochState _ es, li => es.verify c li

/-- `Verifier::epoch_change_verification_required` of a trusted state; a waypoint always
requires one. -/
def epochChangeVerificationRequired : TrustedState → Nat → Bool
  | epochWaypoint _, _ => true
  | epochState _ es, epoch => es.epochChangeVerificationRequired epoch

/-- `Verifier::is_ledger_info_stale` of a trusted state. -/
def isLedgerInfoStale : TrustedState → LedgerInfo → Bool
  | epochWaypoint waypoint, li => waypoint.isLedgerInfoStale li
  | epochState _ es, li => es.isLedgerInfoStale li

end TrustedState

/-- The `&dyn Verifier` of `EpochChangeProof::verify`: the trusted state it is given, or the epoch
state of a ledger info it has accepted. -/
inductive Verifier where
  | trustedState (s : TrustedState)
  | epochState (e : EpochState)

namespace Verifier

variable (c : Crypto) (hash : Ledger2WaypointConverter → HashValue)

/-- `Verifier::verify`. -/
def verify : Verifier → LedgerInfoWithSignatures → Except AnyhowError Unit
  | trustedState s, li => s.verify c hash li
  | epochState e, li => e.verify c li

/-- `Verifier::is_ledger_info_stale`. -/
def isLedgerInfoStale : Verifier → LedgerInfo → Bool
  | trustedState s, li => s.isLedgerInfoStale li
  | epochState e, li => e.isLedgerInfoStale li

end Verifier

/-- `EpochChangeProof`. -/
structure EpochChangeProof where
  ledgerInfoWithSigs : List LedgerInfoWithSignatures
  more : Bool
  deriving DecidableEq

namespace EpochChangeProof

variable (c : Crypto) (hash : Ledger2WaypointConverter → HashValue)

/-- One pass of the loop of `EpochChangeProof::verify`: the ledger info is verified, and the
epoch state it announces verifies the next. -/
def verifyJump (verifierRef : Verifier) (li : LedgerInfoWithSignatures) :
    Except AnyhowError Verifier := do
  verifierRef.verify c hash li
  let nextEpochState ← okOr li.ledgerInfo.nextEpochState
    (.msg "LedgerInfo doesn't carry a ValidatorSet")
  pure (.epochState nextEpochState)

/-- `EpochChangeProof::verify`: the ledger infos after the stale ones are verified in turn, and the
last is returned.  The `last().unwrap()` cannot fail once the proof is not empty. -/
def verify (self : EpochChangeProof) (verifier : Verifier) :
    Except AnyhowError LedgerInfoWithSignatures := do
  Except.ensure (self.ledgerInfoWithSigs ≠ []) (.msg "The EpochChangeProof is empty")
  let last ← okOr self.ledgerInfoWithSigs.getLast? (.msg "The EpochChangeProof is empty")
  Except.ensure (!verifier.isLedgerInfoStale last.ledgerInfo)
    (.msg "The EpochChangeProof is stale as our verifier is already ahead of the entire EpochChangeProof")
  let _ ← (self.ledgerInfoWithSigs.dropWhile fun li => verifier.isLedgerInfoStale li.ledgerInfo).foldlM
    (verifyJump c hash) verifier
  pure last

end EpochChangeProof

/-- `TrustedStateChange`. -/
inductive TrustedStateChange where
  | version (newState : TrustedState)
  | epoch (newState : TrustedState) (latestEpochChangeLi : LedgerInfoWithSignatures)
  | noChange
  deriving DecidableEq

namespace TrustedState

variable (c : Crypto) (hash : Ledger2WaypointConverter → HashValue)

/-- The `verified_ledger_info` of an epoch change in `verify_and_ratchet_inner`: the latest ledger
info when it is the epoch change or accepted by the new epoch, and the epoch change when the proof
has more and the latest ledger info is in a later epoch. -/
def verifiedLedgerInfo (latestLi epochChangeLi : LedgerInfoWithSignatures)
    (newEpochState : EpochState) (more : Bool) : Except AnyhowError LedgerInfoWithSignatures :=
  let newEpoch := newEpochState.epoch
  if epochChangeLi = latestLi then pure latestLi
  else if latestLi.ledgerInfo.epoch = newEpoch then do
    newEpochState.verify c latestLi
    pure latestLi
  else if latestLi.ledgerInfo.epoch > newEpoch ∧ more = true then pure epochChangeLi
  else throw (.msg "Inconsistent epoch change proof and latest ledger info")

/-- `TrustedState::verify_and_ratchet_inner`. -/
def verifyAndRatchetInner (self : TrustedState) (latestLi : LedgerInfoWithSignatures)
    (epochChangeProof : EpochChangeProof) : Except AnyhowError TrustedStateChange := do
  -- abort early if the response is stale
  let currVersion := self.version
  let targetVersion := latestLi.ledgerInfo.version
  Except.ensure (targetVersion ≥ currVersion)
    (.msg s!"The target latest ledger info version is stale ({targetVersion}) and behind our current trusted version ({currVersion})")
  if self.epochChangeVerificationRequired latestLi.ledgerInfo.nextBlockEpoch then
    let epochChangeLi ← epochChangeProof.verify c hash (.trustedState self)
    let newEpochState ← okOr epochChangeLi.ledgerInfo.nextEpochState
      (.msg "A valid EpochChangeProof will never return a non-epoch change ledger info")
    let verifiedLedgerInfo ←
      verifiedLedgerInfo c latestLi epochChangeLi newEpochState epochChangeProof.more
    let newWaypoint := Waypoint.newAny hash verifiedLedgerInfo.ledgerInfo
    pure (.epoch (.epochState newWaypoint newEpochState) epochChangeLi)
  else
    match self with
    | epochWaypoint _ => throw (.msg "EpochWaypoint can only verify an epoch change ledger info")
    | epochState currWaypoint currEpochState =>
      let newWaypoint := Waypoint.newAny hash latestLi.ledgerInfo
      if newWaypoint.version = currWaypoint.version then do
        Except.ensure (newWaypoint = currWaypoint) (.msg "LedgerInfo doesn't match verified state")
        pure .noChange
      else do
        currEpochState.verify c latestLi
        pure (.version (.epochState newWaypoint currEpochState))

end TrustedState

/-! ### What an accepted ledger info says -/

/-- `a` ends an epoch whose validators accept `b`: `b` is in the epoch `a` announces and signed by
a quorum of the validators it announces. -/
def Announces (c : Crypto) (a b : LedgerInfoWithSignatures) : Prop :=
  ∃ es, a.ledgerInfo.nextEpochState = some es ∧ b.ledgerInfo.epoch = es.epoch ∧
    b.verifySignatures c es.verifier = .ok ()

namespace EpochState

theorem verify_eq_ok {c : Crypto} {es : EpochState} {li : LedgerInfoWithSignatures} :
    es.verify c li = .ok () ↔
      li.ledgerInfo.epoch = es.epoch ∧ li.verifySignatures c es.verifier = .ok () := by
  delta verify
  dsimp only
  rw [Except.ensure_bind_eq_ok, Except.mapError_eq_ok]
  exact and_congr_left' eq_comm

end EpochState

namespace Waypoint

theorem verify_eq_ok {hash : Ledger2WaypointConverter → HashValue} {w : Waypoint}
    {li : LedgerInfo} :
    w.verify hash li = .ok () ↔
      li.version = w.version ∧ hash (Ledger2WaypointConverter.new li) = w.value := by
  delta verify
  dsimp only
  rw [Except.ensure_bind_eq_ok, Except.ensure_eq_ok]

end Waypoint

namespace EpochChangeProof

variable {c : Crypto} {hash : Ledger2WaypointConverter → HashValue}

/-- The loop of `EpochChangeProof::verify` accepts its ledger infos only when the starting
verifier accepts the first, each announces an epoch state, and each epoch state accepts the next
ledger info.  By induction on the ledger infos, with the verifier generalised: after the first
pass it is the epoch state the first ledger info announces. -/
theorem foldlM_verifyJump_eq_ok {v v' : Verifier} {li : LedgerInfoWithSignatures}
    {rest : List LedgerInfoWithSignatures}
    (h : (li :: rest).foldlM (verifyJump c hash) v = .ok v') :
    v.verify c hash li = .ok () ∧ (∀ x ∈ li :: rest, x.ledgerInfo.nextEpochState.isSome) ∧
      (li :: rest).IsChain (Announces c) := by
  induction rest generalizing li v with
  | nil =>
    rw [List.foldlM_cons] at h
    obtain ⟨v₁, hjump, -⟩ := Except.bind_eq_ok.mp h
    rw [verifyJump] at hjump
    obtain ⟨_, hverify, hjump⟩ := Except.bind_eq_ok.mp hjump
    obtain ⟨es, hes, -⟩ := Except.bind_eq_ok.mp hjump
    rw [okOr_eq_ok] at hes
    refine ⟨hverify, ?_, List.isChain_singleton _⟩
    intro x hx
    rw [List.mem_singleton.mp hx, hes]
    rfl
  | cons next rest ih =>
    rw [List.foldlM_cons] at h
    obtain ⟨v₁, hjump, h⟩ := Except.bind_eq_ok.mp h
    rw [verifyJump] at hjump
    obtain ⟨_, hverify, hjump⟩ := Except.bind_eq_ok.mp hjump
    obtain ⟨es, hes, hjump⟩ := Except.bind_eq_ok.mp hjump
    rw [okOr_eq_ok] at hes
    cases hjump
    -- the epoch state the first ledger info announces verifies the next
    obtain ⟨hnext, hsome, hchain⟩ := ih h
    obtain ⟨hepoch, hsigs⟩ := Iff.mp EpochState.verify_eq_ok hnext
    refine ⟨hverify, ?_, List.isChain_cons_cons.mpr ⟨⟨es, hes, hepoch, hsigs⟩, hchain⟩⟩
    intro x hx
    rcases List.mem_cons.mp hx with rfl | hx
    · rw [hes]
      rfl
    · exact hsome x hx

/-- The last of a list that a `drop_while` leaves something of is the last of what is left. -/
private theorem getLast?_dropWhile {α : Type} {p : α → Bool} {l : List α}
    (h : l.dropWhile p ≠ []) : (l.dropWhile p).getLast? = l.getLast? := by
  obtain ⟨t, ht⟩ := List.dropWhile_suffix p (l := l)
  conv_rhs => rw [← ht]
  rw [List.getLast?_append]
  cases hlast : (l.dropWhile p).getLast? with
  | none => exact absurd (List.getLast?_eq_none_iff.mp hlast) h
  | some a => rfl

/-- An accepted proof returns its last ledger info, and the ledger infos after its stale prefix
start with one the verifier accepts and go on along announced epochs. -/
theorem verify_eq_ok {P : EpochChangeProof} {v : Verifier} {E : LedgerInfoWithSignatures}
    (h : P.verify c hash v = .ok E) :
    P.ledgerInfoWithSigs.getLast? = some E ∧
      ∃ li rest, P.ledgerInfoWithSigs.dropWhile (fun x => v.isLedgerInfoStale x.ledgerInfo) =
          li :: rest ∧ (li :: rest).getLast? = some E ∧ v.verify c hash li = .ok () ∧
        (∀ x ∈ li :: rest, x.ledgerInfo.nextEpochState.isSome) ∧
        (li :: rest).IsChain (Announces c) := by
  obtain ⟨-, h⟩ := Except.ensure_bind_eq_ok.mp h
  obtain ⟨last, hlast, h⟩ := Except.bind_eq_ok.mp h
  rw [okOr_eq_ok] at hlast
  obtain ⟨hfresh, h⟩ := Except.ensure_bind_eq_ok.mp h
  obtain ⟨_, hrun, h⟩ := Except.bind_eq_ok.mp h
  cases h
  -- the last ledger info is not stale, so something is left after the stale prefix
  have hleft : P.ledgerInfoWithSigs.dropWhile (fun x => v.isLedgerInfoStale x.ledgerInfo) ≠ [] := by
    intro hnil
    have hall := List.dropWhile_eq_nil_iff.mp hnil E (List.mem_of_getLast? hlast)
    simp only [Bool.not_eq_true'] at hfresh
    rw [hfresh] at hall
    exact Bool.false_ne_true hall
  obtain ⟨li, rest, hdrop⟩ := List.exists_cons_of_ne_nil hleft
  rw [hdrop] at hrun
  obtain ⟨hfirst, hsome, hchain⟩ := foldlM_verifyJump_eq_ok hrun
  refine ⟨hlast, li, rest, hdrop, ?_, hfirst, hsome, hchain⟩
  rw [← hdrop, getLast?_dropWhile hleft, hlast]

end EpochChangeProof

namespace TrustedState

variable {c : Crypto} {hash : Ledger2WaypointConverter → HashValue} {S : TrustedState}
  {L : LedgerInfoWithSignatures} {P : EpochChangeProof}

/-- What a trusted state accepts: the ledger info its waypoint commits to, or a ledger info of its
epoch signed by a quorum of its validators. -/
theorem verify_eq_ok {li : LedgerInfoWithSignatures} (h : S.verify c hash li = .ok ()) :
    (∀ w, S = .epochWaypoint w → li.ledgerInfo.version = w.version ∧
      hash (Ledger2WaypointConverter.new li.ledgerInfo) = w.value) ∧
    (∀ w es, S = .epochState w es → li.ledgerInfo.epoch = es.epoch ∧
      li.verifySignatures c es.verifier = .ok ()) := by
  cases S with
  | epochWaypoint w =>
    refine ⟨fun w' hw => ?_, fun _ _ hw => by cases hw⟩
    cases hw
    exact Iff.mp Waypoint.verify_eq_ok h
  | epochState w es =>
    refine ⟨(fun _ hw => by cases hw), fun w' es' hw => ?_⟩
    cases hw
    exact Iff.mp EpochState.verify_eq_ok h

/-- What `verify_and_ratchet_inner` checked when it returns: the ledger info is not behind the
trusted version; when its next block epoch needs an epoch change, the proof is accepted from the
trusted state and the new state trusts the epoch its last ledger info announces, with a waypoint
at the latest ledger info when that is the last of the proof or accepted by the new epoch, and at
the last of the proof when the proof says there is more; otherwise the trusted state is inside an
epoch, and the ledger info is the trusted one or accepted by that epoch. -/
theorem verifyAndRatchetInner_eq_ok {r : TrustedStateChange}
    (h : S.verifyAndRatchetInner c hash L P = .ok r) :
    S.version ≤ L.ledgerInfo.version ∧
    ((S.epochChangeVerificationRequired L.ledgerInfo.nextBlockEpoch = true ∧
      ∃ E es verified, P.verify c hash (.trustedState S) = .ok E ∧
        E.ledgerInfo.nextEpochState = some es ∧
        r = .epoch (.epochState (Waypoint.newAny hash verified.ledgerInfo) es) E ∧
        ((verified = L ∧
            (E = L ∨ L.ledgerInfo.epoch = es.epoch ∧ L.verifySignatures c es.verifier = .ok ())) ∨
          (verified = E ∧ E ≠ L ∧ es.epoch < L.ledgerInfo.epoch ∧ P.more = true))) ∨
     (S.epochChangeVerificationRequired L.ledgerInfo.nextBlockEpoch = false ∧
      ∃ w es, S = .epochState w es ∧
        ((r = .noChange ∧ Waypoint.newAny hash L.ledgerInfo = w) ∨
          (r = .version (.epochState (Waypoint.newAny hash L.ledgerInfo) es) ∧
            L.ledgerInfo.version ≠ w.version ∧ L.ledgerInfo.epoch = es.epoch ∧
            L.verifySignatures c es.verifier = .ok ())))) := by
  unfold verifyAndRatchetInner at h
  obtain ⟨hfresh, h⟩ := Except.ensure_bind_eq_ok.mp h
  refine ⟨hfresh, ?_⟩
  by_cases hrequired : S.epochChangeVerificationRequired L.ledgerInfo.nextBlockEpoch = true
  · -- across epochs
    rw [if_pos hrequired] at h
    obtain ⟨E, hE, h⟩ := Except.bind_eq_ok.mp h
    obtain ⟨es, hes, h⟩ := Except.bind_eq_ok.mp h
    rw [okOr_eq_ok] at hes
    obtain ⟨verified, hverified, h⟩ := Except.bind_eq_ok.mp h
    cases h
    refine .inl ⟨hrequired, E, es, verified, hE, hes, rfl, ?_⟩
    -- which ledger info the new waypoint is at
    unfold verifiedLedgerInfo at hverified
    dsimp only at hverified
    split_ifs at hverified with hEL hepoch hmore
    · cases hverified
      exact .inl ⟨rfl, .inl hEL⟩
    · obtain ⟨_, hv, hverified⟩ := Except.bind_eq_ok.mp hverified
      cases hverified
      exact .inl ⟨rfl, .inr (Iff.mp EpochState.verify_eq_ok hv)⟩
    · cases hverified
      exact .inr ⟨rfl, hEL, hmore.1, hmore.2⟩
  · -- within the trusted epoch
    rw [if_neg hrequired] at h
    refine .inr ⟨Bool.of_not_eq_true hrequired, ?_⟩
    obtain _ | ⟨w, es⟩ := S
    · cases h
    · refine ⟨w, es, rfl, ?_⟩
      dsimp only at h
      by_cases hversion : (Waypoint.newAny hash L.ledgerInfo).version = w.version
      · rw [if_pos hversion] at h
        obtain ⟨hsame, h⟩ := Except.ensure_bind_eq_ok.mp h
        cases h
        exact .inl ⟨rfl, hsame⟩
      · rw [if_neg hversion] at h
        obtain ⟨_, hv, h⟩ := Except.bind_eq_ok.mp h
        cases h
        exact .inr ⟨rfl, hversion, Iff.mp EpochState.verify_eq_ok hv⟩

/-- `verify_and_ratchet_inner` only follows certified history.  An epoch change returns the last
ledger info `E` of the proof; what is left of the proof after its prefix that is stale for the
trusted state starts with a ledger info the trusted state accepts (the one its waypoint commits
to, or one of its epoch signed by a quorum of its validators), each ledger info left announces an
epoch state, and each is in the epoch the previous one announces and signed by a quorum of its
validators; the new state trusts the epoch `E` announces, at the latest ledger info when that is
`E` or accepted by the new epoch, and at `E` otherwise, only when the proof has more and the
latest ledger info is in a later epoch.  A version change moves an epoch state to a later ledger
info its epoch accepts, without an epoch change; no change means the latest ledger info is the
trusted one. -/
theorem trusted_state_ratchet (c : Crypto) (hash : Ledger2WaypointConverter → HashValue)
    (S : TrustedState) (L : LedgerInfoWithSignatures) (P : EpochChangeProof) :
    (∀ newState E, S.verifyAndRatchetInner c hash L P = .ok (.epoch newState E) →
      P.ledgerInfoWithSigs.getLast? = some E ∧
      (∃ li rest,
        P.ledgerInfoWithSigs.dropWhile (fun x => S.isLedgerInfoStale x.ledgerInfo) = li :: rest ∧
        (li :: rest).getLast? = some E ∧
        (∀ w, S = .epochWaypoint w → li.ledgerInfo.version = w.version ∧
          hash (Ledger2WaypointConverter.new li.ledgerInfo) = w.value) ∧
        (∀ w es, S = .epochState w es → li.ledgerInfo.epoch = es.epoch ∧
          li.verifySignatures c es.verifier = .ok ()) ∧
        (∀ x ∈ li :: rest, x.ledgerInfo.nextEpochState.isSome) ∧
        (li :: rest).IsChain (Announces c)) ∧
      ∃ es, E.ledgerInfo.nextEpochState = some es ∧
        ((newState = .epochState (Waypoint.newAny hash L.ledgerInfo) es ∧
            (L = E ∨ L.ledgerInfo.epoch = es.epoch ∧ L.verifySignatures c es.verifier = .ok ())) ∨
          (newState = .epochState (Waypoint.newAny hash E.ledgerInfo) es ∧ L ≠ E ∧
            P.more = true ∧ es.epoch < L.ledgerInfo.epoch))) ∧
    (∀ newState, S.verifyAndRatchetInner c hash L P = .ok (.version newState) →
      ∃ w es, S = .epochState w es ∧ w.version < L.ledgerInfo.version ∧
        L.ledgerInfo.nextBlockEpoch ≤ es.epoch ∧ L.ledgerInfo.epoch = es.epoch ∧
        L.verifySignatures c es.verifier = .ok () ∧
        newState = .epochState (Waypoint.newAny hash L.ledgerInfo) es) ∧
    (S.verifyAndRatchetInner c hash L P = .ok .noChange →
      ∃ w es, S = .epochState w es ∧ Waypoint.newAny hash L.ledgerInfo = w) := by
  refine ⟨fun newState E h => ?_, fun newState h => ?_, fun h => ?_⟩
  · -- an epoch change
    obtain ⟨-, ⟨-, E', es, verified, hproof, hes, hr, hwhich⟩ | ⟨-, w, es, -, ⟨hr, -⟩ | ⟨hr, -⟩⟩⟩ :=
      verifyAndRatchetInner_eq_ok h
    · simp only [TrustedStateChange.epoch.injEq] at hr
      obtain ⟨rfl, rfl⟩ := hr
      obtain ⟨hlast, li, rest, hdrop, hlast', hfirst, hsome, hchain⟩ :=
        EpochChangeProof.verify_eq_ok hproof
      have haccept := verify_eq_ok hfirst
      refine ⟨hlast, ⟨li, rest, hdrop, hlast', haccept.1, haccept.2, hsome, hchain⟩, es, hes, ?_⟩
      rcases hwhich with ⟨rfl, hL⟩ | ⟨rfl, hne, hlt, hmore⟩
      · exact .inl ⟨rfl, hL.imp_left Eq.symm⟩
      · exact .inr ⟨rfl, Ne.symm hne, hmore, hlt⟩
    · cases hr
    · cases hr
  · -- a new version in the trusted epoch
    obtain ⟨hfresh, ⟨-, E', es, verified, -, -, hr, -⟩ | ⟨hrequired, w, es, rfl, ⟨hr, -⟩ | ⟨hr, hne, hepoch, hsigs⟩⟩⟩ :=
      verifyAndRatchetInner_eq_ok h
    · cases hr
    · cases hr
    · simp only [TrustedStateChange.version.injEq] at hr
      subst hr
      have hnext : L.ledgerInfo.nextBlockEpoch ≤ es.epoch := by
        simpa [epochChangeVerificationRequired, EpochState.epochChangeVerificationRequired]
          using hrequired
      exact ⟨w, es, rfl, Nat.lt_of_le_of_ne hfresh (Ne.symm hne), hnext, hepoch, hsigs, rfl⟩
  · -- no change
    obtain ⟨-, ⟨-, E', es, verified, -, -, hr, -⟩ | ⟨-, w, es, rfl, ⟨-, hsame⟩ | ⟨hr, -⟩⟩⟩ :=
      verifyAndRatchetInner_eq_ok h
    · cases hr
    · exact ⟨w, es, rfl, hsame⟩
    · cases hr

end TrustedState

end CreditChain
