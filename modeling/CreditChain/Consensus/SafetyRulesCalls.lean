import CreditChain.Consensus.SafetyRules

/-!
# What each call of the safety rules does to the stored safety data

The checks of the safety rules are pure functions of the safety data they read; each is taken
apart once here (`signTimeoutChecks_eq_ok`, `twoChainVote_eq_ok`, ...), and each call of
`TSafetyRules` is then summed up by what it may do to the safety data in the secure storage
(`handle_callStep`): nothing, start a newer epoch, record a timeout, record a fresh vote, or record
the one-chain data of an order vote.  Every call keeps the cached safety data, when there is one,
equal to the stored one (`Coherent`), so that the data a call reads is the stored data.
-/

namespace CreditChain

namespace VoteProposal

variable {env : SafetyEnv}

theorem genVoteData_eq_ok {p : VoteProposal} {voteData : VoteData}
    (h : p.genVoteData env = some (.ok voteData)) :
    voteData.proposed.epoch = p.block.epoch ∧ voteData.proposed.round = p.block.round := by
  unfold genVoteData at h
  split_ifs at h
  · simp only [Option.some.injEq, Except.ok.injEq] at h
    subst h
    exact ⟨rfl, rfl⟩
  · obtain ⟨r, -, hr⟩ := Option.map_eq_some_iff.1 h
    obtain ⟨tree, -, rfl⟩ := Except.map_eq_ok.1 hr
    exact ⟨rfl, rfl⟩

end VoteProposal

namespace SafetyRules

variable {env : SafetyEnv}

/-! ### The checks -/

theorem verifyEpoch_eq_ok {epoch : Nat} {sd : SafetyData} :
    verifyEpoch epoch sd = .ok () ↔ epoch = sd.epoch := by
  unfold verifyEpoch
  by_cases h : epoch = sd.epoch <;> simp [h]

theorem verifyAndUpdateLastVoteRound_eq_ok {round : Round} {sd sd' : SafetyData} :
    verifyAndUpdateLastVoteRound round sd = .ok sd' ↔
      sd.lastVotedRound < round ∧ sd' = { sd with lastVotedRound := round } := by
  unfold verifyAndUpdateLastVoteRound
  by_cases h : round ≤ sd.lastVotedRound
  · simp only [h, if_true, reduceCtorEq, false_iff, not_and]
    intro hlt
    unfold Round at *
    omega
  · simp [h, Nat.lt_of_not_le h, eq_comm]

theorem updateHighestTimeoutRound_eq (t : TwoChainTimeout) (sd : SafetyData) :
    updateHighestTimeoutRound t sd =
      { sd with highestTimeoutRound := max sd.highestTimeoutRound t.round } := by
  obtain ⟨epoch, lastVotedRound, preferredRound, oneChainRound, lastVote, highestTimeoutRound⟩ := sd
  unfold updateHighestTimeoutRound
  split_ifs <;> simp only [SafetyData.mk.injEq, true_and] at * <;> unfold Round at * <;> omega

theorem signTimeoutChecks_eq_ok {self : SafetyRules} {t : TwoChainTimeout}
    {tc : Option TwoChainTimeoutCertificate} {sd sd' : SafetyData}
    (h : self.signTimeoutChecks env t tc sd = .ok sd') :
    t.epoch = sd.epoch ∧ sd.lastVotedRound ≤ t.round ∧
      sd' = { sd with lastVotedRound := t.round,
                      highestTimeoutRound := max sd.highestTimeoutRound t.round } := by
  unfold signTimeoutChecks at h
  rw [Except.bind_eq_ok] at h
  obtain ⟨⟨⟩, hepoch, h⟩ := h
  rw [Except.bind_eq_ok] at h
  obtain ⟨⟨⟩, -, h⟩ := h
  rw [Except.bind_eq_ok] at h
  obtain ⟨⟨⟩, -, h⟩ := h
  rw [Except.bind_eq_ok] at h
  obtain ⟨⟨⟩, -, h⟩ := h
  rw [Except.ensure_bind_eq_ok] at h
  obtain ⟨hle, h⟩ := h
  rw [Except.bind_eq_ok] at h
  obtain ⟨sd₁, hsd₁, h⟩ := h
  -- the last voted round is raised to the timeout's round, or already is it
  have hsd₁ : sd₁ = { sd with lastVotedRound := t.round } := by
    split_ifs at hsd₁ with hgt
    · exact (Iff.mp verifyAndUpdateLastVoteRound_eq_ok hsd₁).2
    · obtain rfl : sd = sd₁ := by simpa using hsd₁
      have : sd.lastVotedRound = t.round := by unfold Round at *; omega
      rw [← this]
  simp only [Except.pure_eq_ok, Except.ok.injEq] at h
  subst h hsd₁
  exact ⟨Iff.mp verifyEpoch_eq_ok hepoch, hle, updateHighestTimeoutRound_eq t _⟩


theorem observeQc_snd (qc : QuorumCert) (sd : SafetyData) :
    (observeQc qc sd).2 =
      { sd with
        oneChainRound := max sd.oneChainRound qc.certifiedBlock.round
        preferredRound := max sd.preferredRound qc.parentBlock.round } := by
  obtain ⟨epoch, lastVotedRound, preferredRound, oneChainRound, lastVote, highestTimeoutRound⟩ := sd
  unfold observeQc
  dsimp only
  split_ifs <;> simp only [SafetyData.mk.injEq, true_and, and_true] at * <;> unfold Round at * <;>
    omega

theorem twoChainVote_eq_ok {self : SafetyRules} {b : Block} {voteData : VoteData}
    {tc : Option TwoChainTimeoutCertificate} {sd sd' : SafetyData} {v : Vote}
    (h : self.twoChainVote env b voteData tc sd = .ok (sd', v)) :
    sd.lastVotedRound < b.round ∧ v.voteData = voteData ∧
      sd' = { (observeQc b.quorumCert { sd with lastVotedRound := b.round }).2 with
              lastVote := some v } := by
  unfold twoChainVote at h
  rw [Except.bind_eq_ok] at h
  obtain ⟨sd₁, hsd₁, h⟩ := h
  obtain ⟨hlt, rfl⟩ := Iff.mp verifyAndUpdateLastVoteRound_eq_ok hsd₁
  rw [Except.bind_eq_ok] at h
  obtain ⟨⟨⟩, -, h⟩ := h
  rw [Except.bind_eq_ok] at h
  obtain ⟨signer, -, h⟩ := h
  rw [Except.bind_eq_ok] at h
  obtain ⟨ledgerInfo, -, h⟩ := h
  rw [Except.bind_eq_ok] at h
  obtain ⟨signature, -, h⟩ := h
  simp only [Except.pure_eq_ok, Except.ok.injEq, Prod.mk.injEq] at h
  obtain ⟨rfl, rfl⟩ := h
  exact ⟨hlt, rfl, rfl⟩

theorem safeForOrderVote_eq_ok {b : Block} {sd : SafetyData} :
    safeForOrderVote b sd = .ok () ↔ sd.highestTimeoutRound < b.round := by
  unfold safeForOrderVote
  by_cases h : sd.highestTimeoutRound < b.round <;> simp [h]

theorem orderVote_eq_ok {self : SafetyRules} {p : OrderVoteProposal} {sd : SafetyData}
    {ov : OrderVote} (h : self.orderVote env p sd = .ok ov) :
    sd.highestTimeoutRound < p.block.round := by
  unfold orderVote at h
  rw [Except.bind_eq_ok] at h
  obtain ⟨⟨⟩, hsafe, -⟩ := h
  exact Iff.mp safeForOrderVote_eq_ok hsafe

theorem proposalChecks_eq_ok {self : SafetyRules} {nowUsecs : Nat} {b : Block} {sd : SafetyData}
    (h : self.proposalChecks env nowUsecs b sd = .ok ()) : b.epoch = sd.epoch := by
  unfold proposalChecks at h
  rw [Except.bind_eq_ok] at h
  obtain ⟨⟨⟩, hepoch, -⟩ := h
  exact Iff.mp verifyEpoch_eq_ok hepoch

theorem orderVoteProposalChecks_eq_ok {self : SafetyRules} {p : OrderVoteProposal}
    {sd : SafetyData} (h : self.orderVoteProposalChecks env p sd = .ok ()) :
    p.block.epoch = sd.epoch := by
  unfold orderVoteProposalChecks at h
  rw [Except.bind_eq_ok] at h
  obtain ⟨⟨⟩, hepoch, -⟩ := h
  exact Iff.mp verifyEpoch_eq_ok hepoch


/-! ### The storage -/

end SafetyRules

namespace PersistentSafetyStorage

/-- The safety data in the secure storage. -/
def stored (s : PersistentSafetyStorage) : Option SafetyData :=
  s.internalStore.safetyData

/-- The cached safety data, when there is one, is the stored one. -/
def Coherent (s : PersistentSafetyStorage) : Prop :=
  ∀ sd, s.cachedSafetyData = some sd → s.stored = some sd

/-- The storage with its cache replaced. -/
def withCache (s : PersistentSafetyStorage) (cache : Option SafetyData) : PersistentSafetyStorage :=
  { s with cachedSafetyData := cache }

@[simp] theorem stored_withCache (s : PersistentSafetyStorage) (cache : Option SafetyData) :
    (s.withCache cache).stored = s.stored := rfl

@[simp] theorem internalStore_withCache (s : PersistentSafetyStorage) (cache : Option SafetyData) :
    (s.withCache cache).internalStore = s.internalStore := rfl

theorem coherent_withCache {s : PersistentSafetyStorage} {cache : Option SafetyData}
    (h : ∀ sd, cache = some sd → s.stored = some sd) : (s.withCache cache).Coherent := h

@[simp] theorem stored_setSafetyData (s : PersistentSafetyStorage) (sd : SafetyData) :
    (s.setSafetyData sd).stored = some sd := rfl

theorem coherent_setSafetyData (s : PersistentSafetyStorage) (sd : SafetyData) :
    (s.setSafetyData sd).Coherent := by
  intro sd' h
  simp only [setSafetyData, Option.some.injEq] at h
  simp [h]

@[simp] theorem stored_setWaypoint (s : PersistentSafetyStorage) (w : Waypoint) :
    (s.setWaypoint w).stored = s.stored := rfl

theorem Coherent.setWaypoint {s : PersistentSafetyStorage} (h : s.Coherent) (w : Waypoint) :
    (s.setWaypoint w).Coherent := h

/-- `safety_data()` reads the stored data, through the cache, and caches at most the stored data. -/
theorem safetyData_eq {s : PersistentSafetyStorage} (hc : s.Coherent) :
    ∃ r cache, s.safetyData = (r, s.withCache cache) ∧ (∀ sd, cache = some sd → s.stored = some sd) ∧
      ∀ sd, r = .ok sd → s.stored = some sd := by
  obtain ⟨enable, cache, store⟩ := s
  have hget : ∀ sd, Storage.get "safety_data" store.safetyData = .ok sd → store.safetyData = some sd :=
    fun sd h => by simpa [Storage.get] using h
  cases enable with
  | false => exact ⟨Storage.get "safety_data" store.safetyData, cache, rfl, hc, hget⟩
  | true =>
    cases cache with
    | some cached => exact ⟨.ok cached, some cached, rfl, hc, fun sd h => by cases h; exact hc cached rfl⟩
    | none =>
      -- the stored data is read and cached
      rcases hread : Storage.get "safety_data" store.safetyData with e | sd
      · exact ⟨.error e, none, by simp [safetyData, hread]; rfl, by simp, by simp⟩
      · have hsd := hget sd hread
        exact ⟨.ok sd, some sd, by simp [safetyData, hread]; rfl, by simpa [stored] using hsd,
          by simpa [stored] using hsd⟩

end PersistentSafetyStorage

namespace SafetyRules

variable {env : SafetyEnv}

/-- The safety data in the secure storage. -/
def stored (self : SafetyRules) : Option SafetyData :=
  self.persistentStorage.stored

/-- The rules with the cache of their storage replaced. -/
def withCache (self : SafetyRules) (cache : Option SafetyData) : SafetyRules :=
  { self with persistentStorage := self.persistentStorage.withCache cache }

@[simp] theorem persistentStorage_withCache (self : SafetyRules) (cache : Option SafetyData) :
    (self.withCache cache).persistentStorage = self.persistentStorage.withCache cache := rfl

@[simp] theorem validatorSigner_withCache (self : SafetyRules) (cache : Option SafetyData) :
    (self.withCache cache).validatorSigner = self.validatorSigner := rfl

@[simp] theorem persistentStorage_setSafetyData (self : SafetyRules) (sd : SafetyData) :
    (self.setSafetyData sd).persistentStorage = self.persistentStorage.setSafetyData sd := rfl

@[simp] theorem validatorSigner_setSafetyData (self : SafetyRules) (sd : SafetyData) :
    (self.setSafetyData sd).validatorSigner = self.validatorSigner := rfl

@[simp] theorem stored_withCache (self : SafetyRules) (cache : Option SafetyData) :
    (self.withCache cache).stored = self.stored := rfl

@[simp] theorem stored_setSafetyData (self : SafetyRules) (sd : SafetyData) :
    (self.setSafetyData sd).stored = some sd := rfl

theorem readSafetyData_eq {self : SafetyRules} (hc : self.persistentStorage.Coherent) :
    ∃ r cache, self.readSafetyData = (r, self.withCache cache) ∧
      (∀ sd, cache = some sd → self.stored = some sd) ∧ ∀ sd, r = .ok sd → self.stored = some sd := by
  obtain ⟨r, cache, hread, hcache, hr⟩ := PersistentSafetyStorage.safetyData_eq hc
  exact ⟨r, cache, by simp [readSafetyData, hread]; rfl, hcache, hr⟩

/-- `sign` succeeds once there is a signer. -/
theorem sign_eq_ok {self : SafetyRules} {signer : ValidatorSigner} (h : self.signer = .ok signer)
    (message : HashValue) : self.sign env message = .ok (env.sign signer.privateKey message) := by
  simp [sign, h]


/-! ### The calls -/

theorem guardedSignTimeoutWithQc_spec {self self' : SafetyRules} {t : TwoChainTimeout}
    {tc : Option TwoChainTimeoutCertificate} {r : Except Error Signature} {sd : SafetyData}
    (hc : self.persistentStorage.Coherent) (hs : self.stored = some sd)
    (h : self.guardedSignTimeoutWithQc env t tc = (r, self')) :
    self'.persistentStorage.Coherent ∧
      (self'.stored = some sd ∧ (∀ sig, r ≠ .ok sig) ∨
        (∃ sig, r = .ok sig) ∧ t.epoch = sd.epoch ∧ sd.lastVotedRound ≤ t.round ∧
          self'.stored = some { sd with lastVotedRound := t.round,
                                        highestTimeoutRound := max sd.highestTimeoutRound t.round }) := by
  unfold guardedSignTimeoutWithQc at h
  rcases hsigner : self.signer with e | signer
  · rw [hsigner] at h
    obtain ⟨rfl, rfl⟩ := Prod.mk.inj h
    exact ⟨hc, .inl ⟨hs, nofun⟩⟩
  obtain ⟨r₁, cache, hread, hcache, hr₁⟩ := readSafetyData_eq hc
  rw [hsigner, hread] at h
  rcases r₁ with e | sd₁
  · obtain ⟨rfl, rfl⟩ := Prod.mk.inj h
    exact ⟨PersistentSafetyStorage.coherent_withCache hcache, .inl ⟨hs, nofun⟩⟩
  obtain rfl : sd₁ = sd := Option.some.inj ((hr₁ sd₁ rfl).symm.trans hs)
  dsimp only at h
  rcases hchecks : (self.withCache cache).signTimeoutChecks env t tc sd₁ with e | sd'
  · rw [hchecks] at h
    obtain ⟨rfl, rfl⟩ := Prod.mk.inj h
    exact ⟨PersistentSafetyStorage.coherent_withCache hcache, .inl ⟨hs, nofun⟩⟩
  obtain ⟨hepoch, hle, rfl⟩ := signTimeoutChecks_eq_ok hchecks
  rw [hchecks] at h
  obtain ⟨rfl, rfl⟩ := Prod.mk.inj h
  -- the signer checked first is still there to sign
  have hsign : ∀ sd', ((self.withCache cache).setSafetyData sd').signer = .ok signer :=
    fun _ => hsigner
  exact ⟨PersistentSafetyStorage.coherent_setSafetyData _ _,
    .inr ⟨⟨_, sign_eq_ok (hsign _) _⟩, hepoch, hle, rfl⟩⟩

theorem verifyProposal_spec {self self' : SafetyRules} {nowUsecs : Nat} {p : VoteProposal}
    {r : Except Error VoteData} (hc : self.persistentStorage.Coherent)
    (h : self.verifyProposal env nowUsecs p = some (r, self')) :
    ∃ cache, self' = self.withCache cache ∧ (∀ sd, cache = some sd → self.stored = some sd) ∧
      ∀ voteData, r = .ok voteData → ∃ sd, self.stored = some sd ∧ p.block.epoch = sd.epoch ∧
        voteData.proposed.epoch = p.block.epoch ∧ voteData.proposed.round = p.block.round := by
  unfold verifyProposal at h
  obtain ⟨r₁, cache, hread, hcache, hr₁⟩ := readSafetyData_eq hc
  rw [hread] at h
  rcases r₁ with e | sd
  · simp only [Option.some.injEq, Prod.mk.injEq] at h
    obtain ⟨rfl, rfl⟩ := h
    exact ⟨cache, rfl, hcache, by simp⟩
  rcases hchecks : (self.withCache cache).proposalChecks env nowUsecs p.block sd with e | ⟨⟩
  · simp only [hchecks, Option.some.injEq, Prod.mk.injEq] at h
    obtain ⟨rfl, rfl⟩ := h
    exact ⟨cache, rfl, hcache, by simp⟩
  simp only [hchecks] at h
  obtain ⟨x, hgen, hx⟩ := Option.map_eq_some_iff.1 h
  simp only [Prod.mk.injEq] at hx
  obtain ⟨rfl, rfl⟩ := hx
  refine ⟨cache, rfl, hcache, fun voteData hok => ⟨sd, hr₁ sd rfl, proposalChecks_eq_ok hchecks, ?_⟩⟩
  rw [Except.mapError_eq_ok] at hok
  subst hok
  exact VoteProposal.genVoteData_eq_ok hgen


theorem guardedConstructAndSignVoteTwoChain_spec {self self' : SafetyRules} {nowUsecs : Nat}
    {p : VoteProposal} {tc : Option TwoChainTimeoutCertificate} {r : Except Error Vote}
    {sd : SafetyData} (hc : self.persistentStorage.Coherent) (hs : self.stored = some sd)
    (h : self.guardedConstructAndSignVoteTwoChain env nowUsecs p tc = some (r, self')) :
    self'.persistentStorage.Coherent ∧
      (self'.stored = some sd ∧ (∀ v, r = .ok v → sd.lastVote = some v) ∨
        ∃ v, r = .ok v ∧ v.epoch = sd.epoch ∧ v.voteData.proposed.round = p.block.round ∧
          sd.lastVotedRound < p.block.round ∧
          self'.stored = some { (observeQc p.block.quorumCert
            { sd with lastVotedRound := p.block.round }).2 with lastVote := some v }) := by
  unfold guardedConstructAndSignVoteTwoChain at h
  rcases hsigner : self.signer with e | signer
  · rw [hsigner] at h
    obtain ⟨rfl, rfl⟩ := Prod.mk.inj (Option.some.inj h)
    exact ⟨hc, .inl ⟨hs, by simp⟩⟩
  rw [hsigner] at h
  obtain ⟨⟨r₁, self₁⟩, hverify, h⟩ := Option.map_eq_some_iff.1 h
  obtain ⟨cache₁, rfl, hcache₁, hr₁⟩ := verifyProposal_spec hc hverify
  have hc₁ := PersistentSafetyStorage.coherent_withCache hcache₁
  rcases r₁ with e | voteData
  · obtain ⟨rfl, rfl⟩ := Prod.mk.inj h
    exact ⟨hc₁, .inl ⟨hs, by simp⟩⟩
  obtain ⟨sd₀, hs₀, hepoch, hvepoch, hvround⟩ := hr₁ voteData rfl
  obtain rfl : sd = sd₀ := Option.some.inj (hs.symm.trans hs₀)
  dsimp only at h
  -- the timeout certificate, if any, is checked before the safety data is read again
  rcases htc : (self.withCache cache₁).verifyOptionalTc env tc with e | ⟨⟩
  · rw [htc] at h
    obtain ⟨rfl, rfl⟩ := Prod.mk.inj h
    exact ⟨hc₁, .inl ⟨hs, by simp⟩⟩
  obtain ⟨r₂, cache₂, hread, hcache₂, hr₂⟩ := @readSafetyData_eq (self.withCache cache₁) hc₁
  rw [htc, hread] at h
  have hc₂ := PersistentSafetyStorage.coherent_withCache (s := (self.withCache cache₁).persistentStorage) hcache₂
  rcases r₂ with e | sd₂
  · obtain ⟨rfl, rfl⟩ := Prod.mk.inj h
    exact ⟨hc₂, .inl ⟨hs, by simp⟩⟩
  obtain rfl : sd = sd₂ := Option.some.inj (hs.symm.trans (hr₂ sd₂ rfl))
  dsimp only at h
  rcases hlast : sd.lastVote.filter (·.voteData.proposed.round = p.block.round) with _ | vote
  · -- a fresh vote
    rw [hlast] at h
    rcases hvote : ((self.withCache cache₁).withCache cache₂).twoChainVote env p.block voteData tc
        sd with e | ⟨sd', v⟩
    · rw [hvote] at h
      obtain ⟨rfl, rfl⟩ := Prod.mk.inj h
      exact ⟨hc₂, .inl ⟨hs, by simp⟩⟩
    rw [hvote] at h
    obtain ⟨rfl, rfl⟩ := Prod.mk.inj h
    obtain ⟨hlt, hvd, rfl⟩ := twoChainVote_eq_ok hvote
    refine ⟨PersistentSafetyStorage.coherent_setSafetyData _ _, .inr ⟨v, rfl, ?_, ?_, hlt, rfl⟩⟩
    · simp only [Vote.epoch, hvd, hvepoch, hepoch]
    · rw [hvd, hvround]
  · -- the last vote again
    rw [hlast] at h
    obtain ⟨rfl, rfl⟩ := Prod.mk.inj h
    refine ⟨hc₂, .inl ⟨hs, fun v hv => ?_⟩⟩
    cases hv
    exact Option.eq_some_of_filter_eq_some hlast

theorem verifyOrderVoteProposal_spec {self self' : SafetyRules} {p : OrderVoteProposal}
    {r : Except Error Unit} (hc : self.persistentStorage.Coherent)
    (h : self.verifyOrderVoteProposal env p = (r, self')) :
    ∃ cache, self' = self.withCache cache ∧ (∀ sd, cache = some sd → self.stored = some sd) ∧
      (r = .ok () → ∃ sd, self.stored = some sd ∧ p.block.epoch = sd.epoch) := by
  unfold verifyOrderVoteProposal at h
  obtain ⟨r₁, cache, hread, hcache, hr₁⟩ := readSafetyData_eq hc
  rw [hread] at h
  rcases r₁ with e | sd
  · simp only [Prod.mk.injEq] at h
    obtain ⟨rfl, rfl⟩ := h
    exact ⟨cache, rfl, hcache, by simp⟩
  simp only [Prod.mk.injEq] at h
  obtain ⟨rfl, rfl⟩ := h
  exact ⟨cache, rfl, hcache, fun hok => ⟨sd, hr₁ sd rfl, orderVoteProposalChecks_eq_ok hok⟩⟩

theorem guardedConstructAndSignOrderVote_spec {self self' : SafetyRules} {p : OrderVoteProposal}
    {r : Except Error OrderVote} {sd : SafetyData} (hc : self.persistentStorage.Coherent)
    (hs : self.stored = some sd) (h : self.guardedConstructAndSignOrderVote env p = (r, self')) :
    self'.persistentStorage.Coherent ∧
      (self'.stored = some sd ∧ (∀ ov, r ≠ .ok ov) ∨
        (∃ ov, r = .ok ov) ∧ p.block.epoch = sd.epoch ∧ sd.highestTimeoutRound < p.block.round ∧
          self'.stored = some (observeQc p.quorumCert sd).2) := by
  unfold guardedConstructAndSignOrderVote at h
  rcases hsigner : self.signer with e | signer
  · rw [hsigner] at h
    obtain ⟨rfl, rfl⟩ := Prod.mk.inj h
    exact ⟨hc, .inl ⟨hs, nofun⟩⟩
  rcases hverify : self.verifyOrderVoteProposal env p with ⟨r₁, self₁⟩
  obtain ⟨cache₁, rfl, hcache₁, hr₁⟩ := verifyOrderVoteProposal_spec hc hverify
  have hc₁ := PersistentSafetyStorage.coherent_withCache hcache₁
  rw [hsigner, hverify] at h
  rcases r₁ with e | ⟨⟩
  · obtain ⟨rfl, rfl⟩ := Prod.mk.inj h
    exact ⟨hc₁, .inl ⟨hs, nofun⟩⟩
  obtain ⟨sd₀, hs₀, hepoch⟩ := hr₁ rfl
  obtain rfl : sd = sd₀ := Option.some.inj (hs.symm.trans hs₀)
  obtain ⟨r₂, cache₂, hread, hcache₂, hr₂⟩ := @readSafetyData_eq (self.withCache cache₁) hc₁
  have hc₂ := PersistentSafetyStorage.coherent_withCache
    (s := (self.withCache cache₁).persistentStorage) hcache₂
  dsimp only at h
  rw [hread] at h
  rcases r₂ with e | sd₂
  · obtain ⟨rfl, rfl⟩ := Prod.mk.inj h
    exact ⟨hc₂, .inl ⟨hs, nofun⟩⟩
  obtain rfl : sd = sd₂ := Option.some.inj (hs.symm.trans (hr₂ sd₂ rfl))
  dsimp only at h
  rcases hvote : ((self.withCache cache₁).withCache cache₂).orderVote env p (observeQc p.quorumCert sd).2
    with e | ov
  · rw [hvote] at h
    obtain ⟨rfl, rfl⟩ := Prod.mk.inj h
    exact ⟨hc₂, .inl ⟨hs, nofun⟩⟩
  rw [hvote] at h
  obtain ⟨rfl, rfl⟩ := Prod.mk.inj h
  -- recording the one-chain data leaves the highest timeout round as it is
  have hhto := orderVote_eq_ok hvote
  rw [observeQc_snd] at hhto
  exact ⟨PersistentSafetyStorage.coherent_setSafetyData _ _, .inr ⟨⟨ov, rfl⟩, hepoch, hhto, rfl⟩⟩

@[simp] theorem persistentStorage_reconcileKey (self : SafetyRules) (epochState : EpochState)
    (author : AccountAddress) :
    (self.reconcileKey env epochState author).2.persistentStorage = self.persistentStorage := by
  unfold reconcileKey
  split
  · rfl
  · dsimp only
    split_ifs
    · rfl
    · split <;> rfl

/-- `guarded_initialize` keeps the stored safety data, or replaces it by the fresh data of a
newer epoch. -/
theorem guardedInitialize_spec {self self' : SafetyRules} {proof : EpochChangeProof}
    {r : Except Error Unit} {sd : SafetyData} (hc : self.persistentStorage.Coherent)
    (hs : self.stored = some sd) (h : self.guardedInitialize env proof = (r, self')) :
    self'.persistentStorage.Coherent ∧
      (self'.stored = some sd ∨
        ∃ epoch, sd.epoch < epoch ∧ self'.stored = some (SafetyData.new epoch 0 0 0 none 0)) := by
  unfold guardedInitialize at h
  split at h
  · obtain ⟨rfl, rfl⟩ := Prod.mk.inj h
    exact ⟨hc, .inl hs⟩
  rename_i waypoint _
  split at h
  · obtain ⟨rfl, rfl⟩ := Prod.mk.inj h
    exact ⟨hc, .inl hs⟩
  dsimp only at h
  split at h
  · obtain ⟨rfl, rfl⟩ := Prod.mk.inj h
    exact ⟨hc, .inl hs⟩
  rename_i epochState _
  split at h
  · obtain ⟨rfl, rfl⟩ := Prod.mk.inj h
    exact ⟨hc, .inl hs⟩
  rename_i newWaypoint _
  -- the waypoint may move, and nothing else of the storage
  generalize hself₁ : (if newWaypoint.version > waypoint.version then
      ({ self with persistentStorage := self.persistentStorage.setWaypoint newWaypoint } : SafetyRules)
    else self) = self₁ at h
  have hself₁' : self₁.persistentStorage.Coherent ∧ self₁.stored = some sd := by
    subst hself₁
    split_ifs
    · exact ⟨hc.setWaypoint newWaypoint, hs⟩
    · exact ⟨hc, hs⟩
  obtain ⟨hc₁, hs₁⟩ := hself₁'
  obtain ⟨r₂, cache₂, hread, hcache₂, hr₂⟩ := readSafetyData_eq hc₁
  have hc₂ := PersistentSafetyStorage.coherent_withCache (s := self₁.persistentStorage) hcache₂
  rw [hread] at h
  rcases r₂ with e | sd₂
  · obtain ⟨rfl, rfl⟩ := Prod.mk.inj h
    exact ⟨hc₂, .inl hs₁⟩
  obtain rfl : sd = sd₂ := Option.some.inj (hs₁.symm.trans (hr₂ sd₂ rfl))
  dsimp only at h
  by_cases hgt : sd.epoch > epochState.epoch
  · simp only [hgt, if_true] at h
    obtain ⟨rfl, rfl⟩ := Prod.mk.inj h
    exact ⟨hc₂, .inl hs₁⟩
  simp only [hgt, if_false] at h
  -- a newer epoch starts from fresh safety data
  generalize hself₂ : (if sd.epoch < epochState.epoch then
      (self₁.withCache cache₂).setSafetyData (SafetyData.new epochState.epoch 0 0 0 none 0)
    else self₁.withCache cache₂) = self₂ at h
  have hself₂' : self₂.persistentStorage.Coherent ∧ (self₂.stored = some sd ∨
      ∃ epoch, sd.epoch < epoch ∧ self₂.stored = some (SafetyData.new epoch 0 0 0 none 0)) := by
    subst hself₂
    split_ifs with hlt
    · exact ⟨PersistentSafetyStorage.coherent_setSafetyData _ _, .inr ⟨_, hlt, rfl⟩⟩
    · exact ⟨hc₂, .inl hs₁⟩
  -- what is left only reads the owner and reconciles the signer
  have hps : self'.persistentStorage = self₂.persistentStorage := by
    split at h
    · obtain ⟨rfl, rfl⟩ := Prod.mk.inj h
      rfl
    split at h
    · rename_i heq
      obtain ⟨rfl, rfl⟩ := Prod.mk.inj h
      have := congrArg (fun x => x.2.persistentStorage) heq
      simpa using this.symm
    · rename_i heq
      obtain ⟨rfl, rfl⟩ := Prod.mk.inj h
      have := congrArg (fun x => x.2.persistentStorage) heq
      simpa using this.symm
  simp only [stored, hps]
  exact hself₂'

theorem guardedConsensusState_spec {self self' : SafetyRules} {r : Except Error ConsensusState}
    (hc : self.persistentStorage.Coherent) (h : self.guardedConsensusState = (r, self')) :
    self'.persistentStorage.Coherent ∧ self'.stored = self.stored := by
  unfold guardedConsensusState at h
  rcases hw : self.persistentStorage.waypoint with e | waypoint
  · rw [hw] at h
    obtain ⟨rfl, rfl⟩ := Prod.mk.inj h
    exact ⟨hc, rfl⟩
  obtain ⟨r₁, cache₁, hread₁, hcache₁, -⟩ := readSafetyData_eq hc
  have hc₁ := PersistentSafetyStorage.coherent_withCache hcache₁
  rw [hw, hread₁] at h
  rcases r₁ with e | sd₁
  · obtain ⟨rfl, rfl⟩ := Prod.mk.inj h
    exact ⟨hc₁, rfl⟩
  -- the safety data is read a second time, through the cache the first read may have filled
  obtain ⟨r₂, cache₂, hread₂, hcache₂, -⟩ := @readSafetyData_eq (self.withCache cache₁) hc₁
  have hc₂ := PersistentSafetyStorage.coherent_withCache
    (s := (self.withCache cache₁).persistentStorage) hcache₂
  dsimp only at h
  rw [hread₂] at h
  rcases r₂ with e | sd₂
  · obtain ⟨rfl, rfl⟩ := Prod.mk.inj h
    exact ⟨hc₂, rfl⟩
  -- both answers to the second waypoint read keep the rules of the second read
  dsimp only at h
  rcases hw₂ : ((self.withCache cache₁).withCache cache₂).persistentStorage.waypoint with e | waypoint₂ <;>
    rw [hw₂] at h <;> obtain ⟨rfl, rfl⟩ := Prod.mk.inj h <;> exact ⟨hc₂, rfl⟩

theorem guardedSignProposal_spec {self self' : SafetyRules} {blockData : BlockData}
    {r : Except Error Signature} (hc : self.persistentStorage.Coherent)
    (h : self.guardedSignProposal env blockData = (r, self')) :
    self'.persistentStorage.Coherent ∧ self'.stored = self.stored := by
  unfold guardedSignProposal at h
  split at h
  · obtain ⟨rfl, rfl⟩ := Prod.mk.inj h
    exact ⟨hc, rfl⟩
  obtain ⟨r₁, cache₁, hread₁, hcache₁, -⟩ := readSafetyData_eq hc
  have hc₁ := PersistentSafetyStorage.coherent_withCache hcache₁
  rw [hread₁] at h
  -- the raised preferred round is not written back
  rcases r₁ with e | sd₁
  · obtain ⟨rfl, rfl⟩ := Prod.mk.inj h
    exact ⟨hc₁, rfl⟩
  dsimp only at h
  split at h <;> obtain ⟨rfl, rfl⟩ := Prod.mk.inj h <;> exact ⟨hc₁, rfl⟩

/-- What a call may do to the stored safety data `sd`, leaving `sd'`, by its request and its
result: start a newer epoch, record a timeout, record a fresh vote, or record the one-chain data
of an order vote; a call that fails, and a call that signs nothing the 2-chain rules guard,
leaves it. -/
def CallStep (sd : SafetyData) (request : Request) (result : Except Error Response)
    (sd' : SafetyData) : Prop :=
  match request with
  | .initializeFrom _ =>
    sd' = sd ∨ sd.epoch < sd'.epoch ∧ sd' = SafetyData.new sd'.epoch 0 0 0 none 0
  | .signTimeoutWithQc t _ =>
    sd' = sd ∧ (∀ sig, result ≠ .ok (.signature sig)) ∨
      (∃ sig, result = .ok (.signature sig)) ∧ t.epoch = sd.epoch ∧ sd.lastVotedRound ≤ t.round ∧
        sd' = { sd with lastVotedRound := t.round,
                        highestTimeoutRound := max sd.highestTimeoutRound t.round }
  | .constructAndSignVoteTwoChain p _ =>
    sd' = sd ∧ (∀ v, result = .ok (.vote v) → sd.lastVote = some v) ∨
      ∃ v, result = .ok (.vote v) ∧ v.epoch = sd.epoch ∧ v.voteData.proposed.round = p.block.round ∧
        sd.lastVotedRound < p.block.round ∧
        sd' = { (observeQc p.block.quorumCert { sd with lastVotedRound := p.block.round }).2 with
                lastVote := some v }
  | .constructAndSignOrderVote p =>
    sd' = sd ∧ (∀ ov, result ≠ .ok (.orderVote ov)) ∨
      (∃ ov, result = .ok (.orderVote ov)) ∧ p.block.epoch = sd.epoch ∧
        sd.highestTimeoutRound < p.block.round ∧
        sd' = (observeQc p.quorumCert sd).2
  | _ => sd' = sd

/-- Every call keeps the cache coherent and moves the stored safety data by one `CallStep`. -/
theorem handle_callStep {self self' : SafetyRules} {nowUsecs : Nat} {request : Request}
    {result : Except Error Response} {sd : SafetyData} (hc : self.persistentStorage.Coherent)
    (hs : self.stored = some sd) (h : self.handle env nowUsecs request = some (result, self')) :
    self'.persistentStorage.Coherent ∧ ∃ sd', self'.stored = some sd' ∧ CallStep sd request result sd' := by
  cases request with
  | consensusState =>
    rcases hcall : self.guardedConsensusState with ⟨r, s⟩
    simp only [handle, hcall, Option.some.injEq, Prod.mk.injEq] at h
    obtain ⟨rfl, rfl⟩ := h
    obtain ⟨hc', hs'⟩ := guardedConsensusState_spec hc hcall
    exact ⟨hc', sd, hs'.trans hs, rfl⟩
  | initializeFrom proof =>
    rcases hcall : self.guardedInitialize env proof with ⟨r, s⟩
    simp only [handle, hcall, Option.some.injEq, Prod.mk.injEq] at h
    obtain ⟨rfl, rfl⟩ := h
    obtain ⟨hc', hs' | ⟨epoch, hlt, hs'⟩⟩ := guardedInitialize_spec hc hs hcall
    · exact ⟨hc', sd, hs', .inl rfl⟩
    · exact ⟨hc', _, hs', .inr ⟨hlt, rfl⟩⟩
  | signProposal blockData =>
    rcases hcall : self.guardedSignProposal env blockData with ⟨r, s⟩
    simp only [handle, hcall, Option.some.injEq, Prod.mk.injEq] at h
    obtain ⟨rfl, rfl⟩ := h
    obtain ⟨hc', hs'⟩ := guardedSignProposal_spec hc hcall
    exact ⟨hc', sd, hs'.trans hs, rfl⟩
  | signTimeoutWithQc t tc =>
    rcases hcall : self.guardedSignTimeoutWithQc env t tc with ⟨r, s⟩
    simp only [handle, hcall, Option.some.injEq, Prod.mk.injEq] at h
    obtain ⟨rfl, rfl⟩ := h
    obtain ⟨hc', ⟨hs', hok⟩ | ⟨hok, hepoch, hle, hs'⟩⟩ := guardedSignTimeoutWithQc_spec hc hs hcall
    · exact ⟨hc', sd, hs', .inl ⟨rfl, fun sig hsig => hok sig (Except.map_ok_inj (fun _ _ => Response.signature.inj) hsig)⟩⟩
    · obtain ⟨sig, rfl⟩ := hok
      exact ⟨hc', _, hs', .inr ⟨⟨sig, rfl⟩, hepoch, hle, rfl⟩⟩
  | constructAndSignVoteTwoChain p tc =>
    simp only [handle] at h
    obtain ⟨⟨r, s⟩, hcall, h⟩ := Option.map_eq_some_iff.1 h
    simp only [Prod.mk.injEq] at h
    obtain ⟨rfl, rfl⟩ := h
    obtain ⟨hc', ⟨hs', hlast⟩ | ⟨v, rfl, hepoch, hround, hlt, hs'⟩⟩ :=
      guardedConstructAndSignVoteTwoChain_spec hc hs hcall
    · refine ⟨hc', sd, hs', .inl ⟨rfl, fun v hv => hlast v ?_⟩⟩
      obtain ⟨v', hv', hvv⟩ := Except.map_eq_ok.1 hv
      cases hvv
      exact hv'
    · exact ⟨hc', _, hs', .inr ⟨v, rfl, hepoch, hround, hlt, rfl⟩⟩
  | constructAndSignOrderVote p =>
    rcases hcall : self.guardedConstructAndSignOrderVote env p with ⟨r, s⟩
    simp only [handle, hcall, Option.some.injEq, Prod.mk.injEq] at h
    obtain ⟨rfl, rfl⟩ := h
    obtain ⟨hc', ⟨hs', hok⟩ | ⟨hok, hepoch, hlt, hs'⟩⟩ :=
      guardedConstructAndSignOrderVote_spec hc hs hcall
    · exact ⟨hc', sd, hs', .inl ⟨rfl, fun ov hov => hok ov (Except.map_ok_inj (fun _ _ => Response.orderVote.inj) hov)⟩⟩
    · obtain ⟨ov, rfl⟩ := hok
      exact ⟨hc', _, hs', .inr ⟨⟨ov, rfl⟩, hepoch, hlt, rfl⟩⟩
  | signCommitVote ledgerInfo newLedgerInfo =>
    simp only [handle, Option.some.injEq, Prod.mk.injEq] at h
    obtain ⟨rfl, rfl⟩ := h
    exact ⟨hc, sd, hs, rfl⟩

end SafetyRules

end CreditChain
