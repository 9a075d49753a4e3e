import CreditChain.Types.ValidatorVerifier

/-!
# The mempool's transaction store

`TransactionStore` of `mempool/src/core_mempool/transaction_store.rs` with the indexes of
`core_mempool/index.rs` it keeps: the transactions of each account (by nonce and by sequence
number), the account sequence numbers, the priority index of transactions ready for consensus,
the two TTL indexes, the parking lot of transactions that are not ready, and the broadcast state
of each transaction (`TimelineState`). `insert` (with its evictions from the parking lot),
`commit_transaction` and the two garbage collections are the operations.

The comment on `process_ready_seq_num_based_transactions` states the invariant the store is to
keep (`ReadyPrefix`): for an account with sequence number `n`, the sequence-number transactions in
the priority index are those numbered `n, n+1, …` up to the first missing number, and the others
are parked. `insert` of a higher-priced copy of a stored transaction removes the stored one before
its later checks run; when such a check rejects the copy, its successors stay ready above the gap
(`insert_gasUpgrade_breaks_readyPrefix`).
-/

namespace CreditChain

namespace Mempool

/-- `ReplayProtector`. -/
inductive ReplayProtector
  | nonce (nonce : UInt64)
  | sequenceNumber (sequenceNumber : UInt64)
  deriving DecidableEq, Repr

/-- The derived order of `ReplayProtector`: nonces first. -/
def ReplayProtector.le : ReplayProtector → ReplayProtector → Bool
  | .nonce a, .nonce b => a ≤ b
  | .nonce _, .sequenceNumber _ => true
  | .sequenceNumber _, .nonce _ => false
  | .sequenceNumber a, .sequenceNumber b => a ≤ b

/-- `TimelineState`: whether a transaction is in the broadcast timeline. -/
inductive TimelineState
  | ready (timelineId : UInt64)
  | notReady
  | nonQualified
  deriving DecidableEq, Repr

/-- The fields of a `MempoolTransaction`, and of its `SignedTransaction`, that the store reads.
Times are in nanoseconds. -/
structure MempoolTransaction where
  sender : AccountAddress
  replayProtector : ReplayProtector
  /-- The payload, which the store only compares. -/
  payload : Nat
  expirationTimestampSecs : UInt64
  maxGasAmount : UInt64
  gasUnitPrice : UInt64
  /-- `expiration_time`: the system expiration time. -/
  expirationTime : Nat
  rankingScore : UInt64
  timelineState : TimelineState
  /-- `insertion_info.insertion_time`. -/
  insertionTime : Nat
  wasParked : Bool
  committedHash : HashValue
  /-- `get_estimated_bytes()`. -/
  estimatedBytes : Nat
  deriving DecidableEq, Repr

/-- `OrderedQueueKey`: a transaction's key in the priority index. -/
structure OrderedQueueKey where
  gasRankingScore : UInt64
  expirationTime : Nat
  insertionTime : Nat
  address : AccountAddress
  replayProtector : ReplayProtector
  hash : HashValue
  deriving DecidableEq, Repr

/-- `TTLOrderingKey`: a transaction's key in a TTL index. -/
structure TTLOrderingKey where
  expirationTime : Nat
  address : AccountAddress
  replayProtector : ReplayProtector
  deriving DecidableEq, Repr

/-- The order of `TTLOrderingKey`: expiration time, then address, then replay protector. -/
def TTLOrderingKey.le (k₁ k₂ : TTLOrderingKey) : Bool :=
  k₁.expirationTime < k₂.expirationTime ||
    k₁.expirationTime == k₂.expirationTime &&
      (k₁.address < k₂.address || k₁.address == k₂.address && k₁.replayProtector.le k₂.replayProtector)

namespace MempoolTransaction

/-- `PriorityIndex::make_key`. -/
def priorityKey (txn : MempoolTransaction) : OrderedQueueKey :=
  ⟨txn.rankingScore, txn.expirationTime, txn.insertionTime, txn.sender, txn.replayProtector,
    txn.committedHash⟩

/-- The key of `system_ttl_index`, by `expiration_time`. -/
def systemTtlKey (txn : MempoolTransaction) : TTLOrderingKey :=
  ⟨txn.expirationTime, txn.sender, txn.replayProtector⟩

/-- The key of `expiration_time_index`, by `Duration::from_secs(expiration_timestamp_secs)`. -/
def expirationTimeKey (txn : MempoolTransaction) : TTLOrderingKey :=
  ⟨txn.expirationTimestampSecs.toNat * 1000000000, txn.sender, txn.replayProtector⟩

end MempoolTransaction

/-- A `BTreeMap<u64, MempoolTransaction>`, as its entries. -/
abbrev TxnMap := List (UInt64 × MempoolTransaction)

namespace TxnMap

/-- `BTreeMap::get`. -/
def get (m : TxnMap) (k : UInt64) : Option MempoolTransaction :=
  (m.find? (·.1 == k)).map (·.2)

/-- `BTreeMap::insert`, replacing the entry of the key. -/
def insert (m : TxnMap) (k : UInt64) (txn : MempoolTransaction) : TxnMap :=
  m.filter (·.1 != k) ++ [(k, txn)]

/-- `BTreeMap::remove`. -/
def remove (m : TxnMap) (k : UInt64) : TxnMap :=
  m.filter (·.1 != k)

end TxnMap

/-- `AccountTransactions`: an account's transactions by nonce and by sequence number. -/
structure AccountTransactions where
  nonceTransactions : TxnMap
  sequenceNumberTransactions : TxnMap
  deriving DecidableEq, Repr

namespace AccountTransactions

/-- `AccountTransactions::default`. -/
def empty : AccountTransactions := ⟨[], []⟩

/-- `AccountTransactions::get`. -/
def get (self : AccountTransactions) : ReplayProtector → Option MempoolTransaction
  | .nonce nonce => self.nonceTransactions.get nonce
  | .sequenceNumber sequenceNumber => self.sequenceNumberTransactions.get sequenceNumber

/-- `AccountTransactions::insert`. -/
def insert (self : AccountTransactions) (txn : MempoolTransaction) : AccountTransactions :=
  match txn.replayProtector with
  | .nonce nonce => { self with nonceTransactions := self.nonceTransactions.insert nonce txn }
  | .sequenceNumber sequenceNumber =>
    { self with
      sequenceNumberTransactions := self.sequenceNumberTransactions.insert sequenceNumber txn }

/-- `AccountTransactions::remove`, without the removed transaction (see `get`). -/
def remove (self : AccountTransactions) : ReplayProtector → AccountTransactions
  | .nonce nonce => { self with nonceTransactions := self.nonceTransactions.remove nonce }
  | .sequenceNumber sequenceNumber =>
    { self with sequenceNumberTransactions := self.sequenceNumberTransactions.remove sequenceNumber }

/-- `AccountTransactions::len`. -/
def len (self : AccountTransactions) : Nat :=
  self.nonceTransactions.length + self.sequenceNumberTransactions.length

end AccountTransactions

/-- `ParkingLotIndex`: for each account with parked transactions, their sequence numbers and
hashes. -/
abbrev ParkingLotIndex := List (AccountAddress × List (UInt64 × HashValue))

namespace ParkingLotIndex

/-- `ParkingLotIndex::insert` of a sequence-number transaction. -/
def insert (lot : ParkingLotIndex) (sender : AccountAddress) (entry : UInt64 × HashValue) :
    ParkingLotIndex :=
  if lot.any (·.1 == sender) then
    lot.map fun e => if e.1 == sender then (e.1, e.2.insert entry) else e
  else lot ++ [(sender, [entry])]

/-- `ParkingLotIndex::remove`: an account left with nothing parked is dropped. -/
def remove (lot : ParkingLotIndex) (sender : AccountAddress) (entry : UInt64 × HashValue) :
    ParkingLotIndex :=
  lot.filterMap fun e =>
    if e.1 == sender then
      let entries := e.2.erase entry
      if entries.isEmpty then none else some (e.1, entries)
    else some e

/-- `ParkingLotIndex::contains` of a sequence-number transaction. -/
def contains (lot : ParkingLotIndex) (sender : AccountAddress) (entry : UInt64 × HashValue) :
    Bool :=
  lot.any fun e => e.1 == sender && e.2.contains entry

/-- The greatest of a set of parked entries. -/
def maxEntry : List (UInt64 × HashValue) → Option (UInt64 × HashValue)
  | [] => none
  | e :: es =>
    match maxEntry es with
    | none => some e
    | some m => if m.1 < e.1 || m.1 == e.1 && m.2 < e.2 then some e else some m

/-- `ParkingLotIndex::get_poppable`: the greatest entry of the account at the randomly drawn
position `draw`. -/
def getPoppable (lot : ParkingLotIndex) (draw : Nat) :
    Option (AccountAddress × UInt64 × HashValue) :=
  match lot[draw % lot.length]? with
  | none => none
  | some (sender, entries) => (maxEntry entries).map fun e => (sender, e)

end ParkingLotIndex

/-- `MempoolStatus` of `insert`, with the values its messages print. -/
inductive MempoolStatus
  | accepted
  /-- "Transaction already in mempool with a different payload" -/
  | invalidUpdateDifferentPayload
  /-- "Transaction already in mempool with a different expiration timestamp" -/
  | invalidUpdateDifferentExpirationTimestamp
  /-- "Transaction already in mempool with a different max gas amount" -/
  | invalidUpdateDifferentMaxGasAmount
  /-- "Transaction already in mempool with a higher gas price" -/
  | invalidUpdateHigherGasPrice
  /-- "transaction sequence number is {}, current sequence number is  {}" -/
  | invalidSeqNumber (txnSeqNum accSeqNum : UInt64)
  /-- "Mempool is full. Mempool size: {}, Capacity: {}" -/
  | mempoolIsFull (size capacity : Nat)
  /-- "Mempool over capacity for account. Number of seq number transactions from account: {}
  Capacity per account: {}" -/
  | tooManySeqNumTransactions (count capacity : Nat)
  /-- "Mempool over capacity for account. Number of orderless transactions from account: {}
  Capacity per account: {}" -/
  | tooManyOrderlessTransactions (count capacity : Nat)
  deriving DecidableEq, Repr

/-- `TransactionStore`, with the configuration it reads. The timeline index is kept as the
`TimelineState` of each transaction and the next timeline id. -/
structure TransactionStore where
  transactions : AccountAddress → Option AccountTransactions
  accountSequenceNumbers : AccountAddress → Option UInt64
  priorityIndex : List OrderedQueueKey
  expirationTimeIndex : List TTLOrderingKey
  systemTtlIndex : List TTLOrderingKey
  nextTimelineId : UInt64
  parkingLotIndex : ParkingLotIndex
  sizeBytes : Nat
  capacity : Nat
  capacityBytes : Nat
  capacityPerUser : Nat
  orderlessTxnCapacityPerUser : Nat
  eagerExpireThreshold : Option Nat
  eagerExpireTime : Nat

namespace TransactionStore

/-- `TransactionStore::new` for a configuration. -/
def new (capacity capacityBytes capacityPerUser orderlessTxnCapacityPerUser : Nat)
    (eagerExpireThreshold : Option Nat) (eagerExpireTime : Nat) : TransactionStore :=
  ⟨fun _ => none, fun _ => none, [], [], [], 0, [], 0, capacity, capacityBytes, capacityPerUser,
    orderlessTxnCapacityPerUser, eagerExpireThreshold, eagerExpireTime⟩

/-- `get_mempool_txn`. -/
def getMempoolTxn (self : TransactionStore) (address : AccountAddress) (rp : ReplayProtector) :
    Option MempoolTransaction :=
  (self.transactions address).bind (·.get rp)

/-- Writes back the transactions of an account. -/
def setTransactions (self : TransactionStore) (address : AccountAddress)
    (txns : Option AccountTransactions) : TransactionStore :=
  { self with transactions := Function.update self.transactions address txns }

/-- Writes back a transaction after a change made through `get_mut`. -/
def setTxn (self : TransactionStore) (txn : MempoolTransaction) : TransactionStore :=
  match self.transactions txn.sender with
  | none => self
  | some txns => self.setTransactions txn.sender (some (txns.insert txn))

/-- `is_full`. -/
def isFull (self : TransactionStore) : Bool :=
  self.capacity ≤ self.systemTtlIndex.length || self.capacityBytes ≤ self.sizeBytes

/-- `ParkingLotIndex::insert` of a stored transaction, which also marks it as parked. -/
def park (self : TransactionStore) (txn : MempoolTransaction) : TransactionStore :=
  match txn.replayProtector with
  | .nonce _ => self
  | .sequenceNumber sequenceNumber =>
    let self := self.setTxn { txn with wasParked := true }
    { self with
      parkingLotIndex := self.parkingLotIndex.insert txn.sender (sequenceNumber, txn.committedHash) }

/-- `ParkingLotIndex::remove` of a transaction. -/
def unpark (self : TransactionStore) (txn : MempoolTransaction) : TransactionStore :=
  match txn.replayProtector with
  | .nonce _ => self
  | .sequenceNumber sequenceNumber =>
    { self with
      parkingLotIndex := self.parkingLotIndex.remove txn.sender (sequenceNumber, txn.committedHash) }

/-- `index_remove`: the transaction leaves every index, and an account left without transactions
loses its entry and its sequence number. The timeline itself is not kept. -/
def indexRemove (self : TransactionStore) (txn : MempoolTransaction) : TransactionStore :=
  let self := { self with
    systemTtlIndex := self.systemTtlIndex.erase txn.systemTtlKey
    expirationTimeIndex := self.expirationTimeIndex.erase txn.expirationTimeKey
    priorityIndex := self.priorityIndex.erase txn.priorityKey }
  let self := self.unpark txn
  let self := { self with sizeBytes := self.sizeBytes - txn.estimatedBytes }
  match self.transactions txn.sender with
  | some txns =>
    if txns.len = 0 then
      { self with
        transactions := Function.update self.transactions txn.sender none
        accountSequenceNumbers := Function.update self.accountSequenceNumbers txn.sender none }
    else self
  | none => self

/-- `txns.remove(rp)` on the account's transactions followed by `index_remove` of what it
removed. -/
def removeTxn (self : TransactionStore) (address : AccountAddress) (rp : ReplayProtector) :
    TransactionStore :=
  match self.transactions address with
  | none => self
  | some txns =>
    match txns.get rp with
    | none => self
    | some txn => (self.setTransactions address (some (txns.remove rp))).indexRemove txn

/-- `process_ready_transaction`: the transaction, if stored, enters the priority index, enters
the broadcast timeline unless it is there or never qualifies, and leaves the parking lot. -/
def processReadyTransaction (self : TransactionStore) (address : AccountAddress)
    (rp : ReplayProtector) : Bool × TransactionStore :=
  match self.getMempoolTxn address rp with
  | none => (false, self)
  | some txn =>
    let self := { self with priorityIndex := self.priorityIndex.insert txn.priorityKey }
    let (txn, self) :=
      if txn.timelineState = .notReady then
        ({ txn with timelineState := .ready self.nextTimelineId },
          { self with nextTimelineId := self.nextTimelineId + 1 })
      else (txn, self)
    let self := self.setTxn txn
    (true, self.unpark txn)

/-- The first loop of `process_ready_seq_num_based_transactions`: promotes the transactions
numbered `min_seq, min_seq + 1, …` while they are stored; the first number not stored. The
fuel, the number of stored transactions, is never the bound that stops it. -/
def promoteFrom : Nat → TransactionStore → AccountAddress → Nat → TransactionStore × Nat
  | 0, self, _, minSeq => (self, minSeq)
  | fuel + 1, self, address, minSeq =>
    match self.processReadyTransaction address (.sequenceNumber (UInt64.ofNat minSeq)) with
    | (true, self) => promoteFrom fuel self address (minSeq + 1)
    | (false, self) => (self, minSeq)

/-- The number of sequence-number transactions stored for an account. -/
def seqNumTxnsLen (self : TransactionStore) (address : AccountAddress) : Nat :=
  ((self.transactions address).map (·.sequenceNumberTransactions.length)).getD 0

/-- `process_ready_seq_num_based_transactions`: promotes the run of stored transactions from the
account's sequence number, then parks each transaction above it that is not in the broadcast
timeline. Transactions above it that are in the timeline keep their place. -/
def processReadySeqNumBasedTransactions (self : TransactionStore) (address : AccountAddress)
    (accountSequenceNum : UInt64) : TransactionStore :=
  let (self, minSeq) :=
    promoteFrom (self.seqNumTxnsLen address + 1) self address accountSequenceNum.toNat
  match self.transactions address with
  | none => self
  | some txns =>
    (txns.sequenceNumberTransactions.filter (minSeq < ·.1.toNat)).foldl
      (fun self e =>
        match e.2.timelineState with
        | .ready _ => self
        | _ => self.park e.2) self

/-- `clean_committed_transactions_below_account_seq_num`. -/
def cleanCommittedTransactionsBelowAccountSeqNum (self : TransactionStore)
    (address : AccountAddress) (accountSequenceNumber : UInt64) : TransactionStore :=
  match self.transactions address with
  | none => self
  | some txns =>
    let removal := txns.sequenceNumberTransactions.filter (·.1 < accountSequenceNumber)
    let self := self.setTransactions address (some { txns with
      sequenceNumberTransactions :=
        txns.sequenceNumberTransactions.filter (accountSequenceNumber ≤ ·.1) })
    removal.foldl (fun self e => self.indexRemove e.2) self

/-- `check_txn_ready`; `none` is a panic. -/
def checkTxnReady (self : TransactionStore) (txn : MempoolTransaction)
    (accountSequenceNumber : Option UInt64) : Option Bool :=
  match txn.replayProtector with
  | .sequenceNumber txSequenceNumber =>
    match accountSequenceNumber with
    | none => none
    | some accountSequenceNumber =>
      if txSequenceNumber = accountSequenceNumber then some true
      else if txSequenceNumber = 0 then none
      else
        match self.getMempoolTxn txn.sender (.sequenceNumber (txSequenceNumber - 1)) with
        | some prevTxn =>
          match prevTxn.timelineState with
          | .ready _ => some true
          | _ => some false
        | none => some false
  | .nonce _ => some true

/-- The eviction loop of `check_is_full_after_eviction`, drawing the parking lot's random choices
from `draws`: removes the greatest parked transaction of a drawn account until the store is not
full. -/
def evictLoop (draws : Nat → Nat) : Nat → Nat → TransactionStore → TransactionStore
  | 0, _, self => self
  | fuel + 1, i, self =>
    match self.parkingLotIndex.getPoppable (draws i) with
    | none => self
    | some (sender, sequenceNumber, _) =>
      match self.getMempoolTxn sender (.sequenceNumber sequenceNumber) with
      | none => self
      | some _ =>
        let self := self.removeTxn sender (.sequenceNumber sequenceNumber)
        if self.isFull then evictLoop draws fuel (i + 1) self else self

/-- `check_is_full_after_eviction`: whether the store is still full; `none` is a panic. -/
def checkIsFullAfterEviction (self : TransactionStore) (txn : MempoolTransaction)
    (accountSequenceNumber : Option UInt64) (draws : Nat → Nat) :
    Option (Bool × TransactionStore) :=
  if self.isFull then
    (self.checkTxnReady txn accountSequenceNumber).map fun ready =>
      let self := if ready then evictLoop draws (self.systemTtlIndex.length + 1) 0 self else self
      (self.isFull, self)
  else some (false, self)

/-- The sequence-number checks of `insert`: committed transactions below the account's sequence
number are cleaned, and a transaction below it is rejected. -/
def checkSeqNum (self : TransactionStore) (txn : MempoolTransaction)
    (accountSequenceNumber : Option UInt64) : Option (Option MempoolStatus × TransactionStore) :=
  match txn.replayProtector with
  | .sequenceNumber txnSeqNum =>
    accountSequenceNumber.map fun accSeqNum =>
      let self := self.cleanCommittedTransactionsBelowAccountSeqNum txn.sender accSeqNum
      if txnSeqNum < accSeqNum then (some (.invalidSeqNumber txnSeqNum accSeqNum), self)
      else (none, self)
  | .nonce _ => some (none, self)

/-- The rest of `insert` once no stored transaction stands in the way: the sequence-number
checks, the capacity checks, the insertion into every index, and the promotion. -/
def insertNew (self : TransactionStore) (txn : MempoolTransaction)
    (accountSequenceNumber : Option UInt64) (draws : Nat → Nat) :
    Option (MempoolStatus × TransactionStore) := do
  let address := txn.sender
  let (rejected, self) ← self.checkSeqNum txn accountSequenceNumber
  match rejected with
  | some status => pure (status, self)
  | none =>
    let (full, self) ← self.checkIsFullAfterEviction txn accountSequenceNumber draws
    if full then pure (.mempoolIsFull self.systemTtlIndex.length self.capacity, self)
    else
      -- `self.transactions.entry(address).or_default()`
      let txns := (self.transactions address).getD .empty
      let self := self.setTransactions address (some txns)
      match txn.replayProtector with
      | .sequenceNumber _ =>
        if self.capacityPerUser ≤ txns.sequenceNumberTransactions.length then
          pure (.tooManySeqNumTransactions txns.sequenceNumberTransactions.length
            self.capacityPerUser, self)
        else
          let self := { self with
            systemTtlIndex := self.systemTtlIndex.insert txn.systemTtlKey
            expirationTimeIndex := self.expirationTimeIndex.insert txn.expirationTimeKey
            accountSequenceNumbers :=
              match accountSequenceNumber with
              | some accSeqNum => Function.update self.accountSequenceNumbers address (some accSeqNum)
              | none => self.accountSequenceNumbers
            sizeBytes := self.sizeBytes + txn.estimatedBytes }
          let self := self.setTransactions address (some (txns.insert txn))
          let accSeqNum ← accountSequenceNumber
          pure (.accepted, self.processReadySeqNumBasedTransactions address accSeqNum)
      | .nonce _ =>
        if self.orderlessTxnCapacityPerUser ≤ txns.nonceTransactions.length then
          pure (.tooManyOrderlessTransactions txns.nonceTransactions.length
            self.orderlessTxnCapacityPerUser, self)
        else
          let self := { self with
            systemTtlIndex := self.systemTtlIndex.insert txn.systemTtlKey
            expirationTimeIndex := self.expirationTimeIndex.insert txn.expirationTimeKey
            accountSequenceNumbers :=
              match accountSequenceNumber with
              | some accSeqNum => Function.update self.accountSequenceNumbers address (some accSeqNum)
              | none => self.accountSequenceNumbers
            sizeBytes := self.sizeBytes + txn.estimatedBytes }
          let self := self.setTransactions address (some (txns.insert txn))
          pure (.accepted, (self.processReadyTransaction address txn.replayProtector).2)

/-- `TransactionStore::insert`, drawing the parking lot's random choices from `draws`; `none` is a
panic. A copy of a stored transaction is accepted as is, or replaces it when its gas price is
higher: the stored one is removed first. -/
def insert (self : TransactionStore) (txn : MempoolTransaction)
    (accountSequenceNumber : Option UInt64) (draws : Nat → Nat) :
    Option (MempoolStatus × TransactionStore) :=
  let address := txn.sender
  let accountSequenceNumber := accountSequenceNumber.map fun seqNum =>
    max seqNum ((self.accountSequenceNumbers address).getD 0)
  match self.getMempoolTxn address txn.replayProtector with
  | none => self.insertNew txn accountSequenceNumber draws
  | some currentVersion =>
    if currentVersion.payload ≠ txn.payload then some (.invalidUpdateDifferentPayload, self)
    else if currentVersion.expirationTimestampSecs ≠ txn.expirationTimestampSecs then
      some (.invalidUpdateDifferentExpirationTimestamp, self)
    else if currentVersion.maxGasAmount ≠ txn.maxGasAmount then
      some (.invalidUpdateDifferentMaxGasAmount, self)
    else if currentVersion.gasUnitPrice < txn.gasUnitPrice then
      (self.removeTxn address txn.replayProtector).insertNew txn accountSequenceNumber draws
    else if txn.gasUnitPrice < currentVersion.gasUnitPrice then
      some (.invalidUpdateHigherGasPrice, self)
    else
      -- an idempotent resubmission
      match accountSequenceNumber with
      | some accSeqNum => some (.accepted, self.processReadySeqNumBasedTransactions address accSeqNum)
      | none => some (.accepted, self)

/-- `commit_transaction`; `none` is the overflow of `txn_sequence_number + 1`. -/
def commitTransaction (self : TransactionStore) (account : AccountAddress)
    (rp : ReplayProtector) : Option TransactionStore :=
  match rp with
  | .sequenceNumber txnSequenceNumber =>
    if txnSequenceNumber.toNat + 1 < 2 ^ 64 then
      let current := (self.accountSequenceNumbers account).getD 0
      let new := max current (txnSequenceNumber + 1)
      let self := { self with
        accountSequenceNumbers := Function.update self.accountSequenceNumbers account (some new) }
      let self := self.cleanCommittedTransactionsBelowAccountSeqNum account new
      some (self.processReadySeqNumBasedTransactions account new)
    else none
  | .nonce _ => some (self.removeTxn account rp)

/-- The order `gc` sorts expired keys in: address, then replay protector. -/
def gcKeyLe (k₁ k₂ : TTLOrderingKey) : Bool :=
  k₁.address < k₂.address || k₁.address == k₂.address && k₁.replayProtector.le k₂.replayProtector

/-- The park loop of `gc` for an expired sequence number: every stored transaction of the
account above it, and below the account's next expired sequence number, is parked, leaves the
priority index and the timeline. -/
def parkRange (self : TransactionStore) (address : AccountAddress) (seqNum : UInt64)
    (next : Option UInt64) : TransactionStore :=
  match self.transactions address with
  | none => self
  | some txns =>
    (txns.sequenceNumberTransactions.filter fun e =>
        decide (seqNum < e.1) && next.all fun n => decide (e.1 < n)).foldl
      (fun self e =>
        let self := self.park e.2
        let txn := (self.getMempoolTxn address (.sequenceNumber e.1)).getD e.2
        let self := { self with priorityIndex := self.priorityIndex.erase txn.priorityKey }
        match txn.timelineState with
        | .ready _ => self.setTxn { txn with timelineState := .notReady }
        | _ => self) self

/-- The loop of `gc` over the expired keys, sorted, each with the key after it. -/
def gcLoop : List TTLOrderingKey → TransactionStore → TransactionStore
  | [], self => self
  | key :: rest, self =>
    match self.transactions key.address with
    | none => gcLoop rest self
    | some _ =>
      let self :=
        match key.replayProtector with
        | .sequenceNumber seqNum =>
          let next :=
            match rest.head? with
            | some nextKey =>
              if key.address = nextKey.address then
                match nextKey.replayProtector with
                | .sequenceNumber nextSeqNum => some nextSeqNum
                | .nonce _ => none
              else none
            | none => none
          self.parkRange key.address seqNum next
        | .nonce _ => self
      gcLoop rest (self.removeTxn key.address key.replayProtector)

/-- `TransactionStore::gc`: the keys expired at `now` leave the index they expire in, and their
transactions the store. -/
def gc (self : TransactionStore) (now : Nat) (bySystemTtl : Bool) : TransactionStore :=
  let index := if bySystemTtl then self.systemTtlIndex else self.expirationTimeIndex
  -- `TTLIndex::gc`: the keys strictly before `now - 1µs`
  let gcTxns := index.filter (·.expirationTime < now - 1000)
  let index := index.filter fun key => !(key.expirationTime < now - 1000)
  let self :=
    if bySystemTtl then { self with systemTtlIndex := index }
    else { self with expirationTimeIndex := index }
  gcLoop (gcTxns.mergeSort gcKeyLe) self

/-- `gc_by_system_ttl`. -/
def gcBySystemTtl (self : TransactionStore) (gcTime : Nat) : TransactionStore :=
  self.gc gcTime true

/-- `eager_expire_time` at wall-clock time `now`: when the oldest of the first 20 transactions of
the system TTL index that never was parked is older than the threshold, the backlog moves the
garbage collection forward. -/
def eagerExpireTimeAt (self : TransactionStore) (now gcTime : Nat) : Nat :=
  match self.eagerExpireThreshold with
  | none => gcTime
  | some threshold =>
    let oldest := ((self.systemTtlIndex.mergeSort TTLOrderingKey.le).take 20).findSome? fun key =>
      (self.getMempoolTxn key.address key.replayProtector).bind fun txn =>
        if txn.wasParked then none else some txn.insertionTime
    match oldest with
    | some insertionTime =>
      if insertionTime ≤ now ∧ threshold < now - insertionTime then gcTime + self.eagerExpireTime
      else gcTime
    | none => gcTime

/-- `gc_by_expiration_time` at wall-clock time `now`. -/
def gcByExpirationTime (self : TransactionStore) (now blockTime : Nat) : TransactionStore :=
  self.gc (self.eagerExpireTimeAt now blockTime) false

/-- The operations of the store. -/
inductive Operation
  | insert (txn : MempoolTransaction) (accountSequenceNumber : Option UInt64)
  | commitTransaction (account : AccountAddress) (rp : ReplayProtector)
  | gcBySystemTtl (gcTime : Nat)
  | gcByExpirationTime (now blockTime : Nat)

/-- One operation, with the parking lot's random choices drawn from `draws`; `none` is a
panic. -/
def step (draws : Nat → Nat) (self : TransactionStore) : Operation → Option TransactionStore
  | .insert txn accountSequenceNumber =>
    (self.insert txn accountSequenceNumber draws).map (·.2)
  | .commitTransaction account rp => self.commitTransaction account rp
  | .gcBySystemTtl gcTime => some (self.gcBySystemTtl gcTime)
  | .gcByExpirationTime now blockTime => some (self.gcByExpirationTime now blockTime)

/-- A sequence of operations. -/
def run (draws : Nat → Nat) : TransactionStore → List Operation → Option TransactionStore
  | self, [] => some self
  | self, op :: ops => (self.step draws op).bind fun self => run draws self ops

/-! ### The ready prefix -/

/-- A sequence-number transaction of the account is in the priority index. -/
def IsReady (self : TransactionStore) (address : AccountAddress) (seq : UInt64) : Prop :=
  ∃ key ∈ self.priorityIndex, key.address = address ∧ key.replayProtector = .sequenceNumber seq

/-- A sequence-number transaction of the account is stored. -/
def IsStored (self : TransactionStore) (address : AccountAddress) (seq : UInt64) : Prop :=
  self.getMempoolTxn address (.sequenceNumber seq) ≠ none

instance (self : TransactionStore) (address : AccountAddress) (seq : UInt64) :
    Decidable (self.IsReady address seq) :=
  inferInstanceAs (Decidable (∃ key ∈ self.priorityIndex,
    key.address = address ∧ key.replayProtector = .sequenceNumber seq))

instance (self : TransactionStore) (address : AccountAddress) (seq : UInt64) :
    Decidable (self.IsStored address seq) :=
  inferInstanceAs (Decidable (self.getMempoolTxn address (.sequenceNumber seq) ≠ none))

/-- A stored sequence-number transaction of the account is in the parking lot. -/
def IsParked (self : TransactionStore) (address : AccountAddress) (seq : UInt64) : Prop :=
  ∃ txn, self.getMempoolTxn address (.sequenceNumber seq) = some txn ∧
    self.parkingLotIndex.contains address (seq, txn.committedHash) = true

/-- `seq` lies in the run of stored transactions from `n`: it is `n` or above, and every number
from `n` to it is stored. -/
def InStoredRun (self : TransactionStore) (address : AccountAddress) (n seq : UInt64) : Prop :=
  n ≤ seq ∧ ∀ r, n ≤ r → r ≤ seq → self.IsStored address r

/-- The invariant of `process_ready_seq_num_based_transactions`: for an account with sequence
number `n`, the sequence-number transactions in the priority index are exactly those of the run
of stored transactions from `n`, and every other stored one is parked. -/
def ReadyPrefix (self : TransactionStore) : Prop :=
  ∀ address n, self.accountSequenceNumbers address = some n → ∀ seq,
    (self.IsReady address seq ↔ self.InStoredRun address n seq) ∧
    (self.IsStored address seq → ¬ self.InStoredRun address n seq → self.IsParked address seq)

/-- A transaction of account 1, sequence number `seq`, gas price `gasUnitPrice`. -/
def txnOfOne (seq gasUnitPrice : UInt64) (hash estimatedBytes : Nat) : MempoolTransaction :=
  ⟨1, .sequenceNumber seq, 7, 100, 10, gasUnitPrice, 100, gasUnitPrice, .notReady, 0, false, hash,
    estimatedBytes⟩

/-- Transactions 0, 1 and 2 of account 1, the last one large, into a store of at most 3 bytes:
all three are accepted and ready. -/
def threeReadyRun : List Operation :=
  [.insert (txnOfOne 0 1 10 1) (some 0), .insert (txnOfOne 1 1 11 1) (some 0),
    .insert (txnOfOne 2 1 12 5) (some 0)]

/-- A copy of transaction 1 at a higher gas price. -/
def gasUpgrade : MempoolTransaction := txnOfOne 1 2 13 1

/-- After `threeReadyRun` from an empty store, the higher-priced copy of transaction 1 is rejected
because the store is full, but the stored transaction 1 has been removed first: transaction 2
stays in the priority index above the gap, and the store leaves `ReadyPrefix`. -/
theorem insert_gasUpgrade_breaks_readyPrefix :
    ∃ s, run (fun _ => 0) (new 100 3 100 100 none 0) threeReadyRun = some s ∧
      ∃ s', s.insert gasUpgrade (some 0) (fun _ => 0) = some (.mempoolIsFull 2 100, s') ∧
        ¬ s'.ReadyPrefix := by
  obtain ⟨s, hs⟩ : ∃ s, run (fun _ => 0) (new 100 3 100 100 none 0) threeReadyRun = some s :=
    ⟨_, rfl⟩
  obtain ⟨s', hs'⟩ : ∃ s', s.insert gasUpgrade (some 0) (fun _ => 0) = some (.mempoolIsFull 2 100, s') := by
    have h : ((run (fun _ => 0) (new 100 3 100 100 none 0) threeReadyRun).bind fun s =>
        s.insert gasUpgrade (some 0) (fun _ => 0)).map (·.1) = some (.mempoolIsFull 2 100) := by
      decide
    rw [hs, Option.bind_some, Option.map_eq_some_iff] at h
    obtain ⟨⟨status, s'⟩, hins, rfl⟩ := h
    exact ⟨s', hins⟩
  refine ⟨s, hs, s', hs', fun hready => ?_⟩
  -- what the rejected insert left: sequence number 0, transaction 1 gone, transaction 2 ready
  have hfacts : ((run (fun _ => 0) (new 100 3 100 100 none 0) threeReadyRun).bind fun s =>
      (s.insert gasUpgrade (some 0) (fun _ => 0)).map fun r =>
        (r.2.accountSequenceNumbers 1, decide (r.2.IsReady 1 2), decide (r.2.IsStored 1 1))) =
      some (some 0, true, false) := by
    decide
  rw [hs, Option.bind_some, hs', Option.map_some, Option.some.injEq, Prod.mk.injEq,
    Prod.mk.injEq] at hfacts
  obtain ⟨hseq, hready2, hstored1⟩ := hfacts
  have hrun := ((hready 1 0 hseq 2).1.mp (of_decide_eq_true hready2)).2 1 (by decide) (by decide)
  exact of_decide_eq_false hstored1 hrun

/-- The same rejected insert loses a live transaction: before it, transaction 1 of account 1 is
stored with hash 11, out of the parking lot, and above the account's sequence number 0; the
insert returns `MempoolIsFull`, and the store it leaves holds no transaction 1. -/
theorem insert_rejected_drops_stored_txn :
    ∃ s, run (fun _ => 0) (new 100 3 100 100 none 0) threeReadyRun = some s ∧
      (s.getMempoolTxn 1 (.sequenceNumber 1)).map (·.committedHash) = some 11 ∧
      s.parkingLotIndex.contains 1 (1, 11) = false ∧
      s.accountSequenceNumbers 1 = some 0 ∧
      ∃ s', s.insert gasUpgrade (some 0) (fun _ => 0) = some (.mempoolIsFull 2 100, s') ∧
        s'.getMempoolTxn 1 (.sequenceNumber 1) = none := by
  obtain ⟨s, hs⟩ : ∃ s, run (fun _ => 0) (new 100 3 100 100 none 0) threeReadyRun = some s :=
    ⟨_, rfl⟩
  -- the stored transaction 1 before the insert
  have hbefore : (run (fun _ => 0) (new 100 3 100 100 none 0) threeReadyRun).map (fun s =>
      ((s.getMempoolTxn 1 (.sequenceNumber 1)).map (·.committedHash),
        s.parkingLotIndex.contains 1 (1, 11), s.accountSequenceNumbers 1)) =
      some (some 11, false, some 0) := by
    decide
  -- the status of the insert, and whether transaction 1 is gone after it
  have hafter : ((run (fun _ => 0) (new 100 3 100 100 none 0) threeReadyRun).bind fun s =>
      (s.insert gasUpgrade (some 0) (fun _ => 0)).map fun r =>
        (r.1, (r.2.getMempoolTxn 1 (.sequenceNumber 1)).isNone)) =
      some (.mempoolIsFull 2 100, true) := by
    decide
  rw [hs, Option.map_some, Option.some.injEq, Prod.mk.injEq, Prod.mk.injEq] at hbefore
  obtain ⟨hhash, hlot, hseq⟩ := hbefore
  rw [hs, Option.bind_some, Option.map_eq_some_iff] at hafter
  obtain ⟨⟨status, s'⟩, hins, hr⟩ := hafter
  rw [Prod.mk.injEq] at hr
  obtain ⟨rfl, hgone⟩ := hr
  exact ⟨s, hs, hhash, hlot, hseq, s', hins, Option.isNone_iff_eq_none.mp hgone⟩

end TransactionStore

end Mempool

end CreditChain
