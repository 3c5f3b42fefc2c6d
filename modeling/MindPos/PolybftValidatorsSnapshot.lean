import MindPos.PolybftExtra

/-! # The validators snapshot cache

`consensus/polybft/validators_snapshot.go` and the validator snapshot bucket of
`state_store_epoch.go`. The cache answers "which validators signed block `b`" by the snapshot
of an epoch: the genesis delta and the deltas of the epoch-ending blocks applied in order. It
keeps snapshots in a map in memory and in a bucket of the epoch store, both keyed by epoch,
and builds a missing one from the newest it has.

The chain is the list of the blocks' extras, as `GetIbftExtra` decodes them from the headers.
The cache is a state that `GetSnapshot` and a restart change; `GetSnapshot` mutates it in
place and keeps what it stored when it fails later, so it returns the new state beside its
result. -/
namespace PolybftValidatorsSnapshot

open EdgeTypes PolybftValidator PolybftExtra

variable {K : Type}

/-- `validatorSnapshot`. -/
structure ValidatorSnapshot (K : Type) where
  epoch : UInt64
  epochEndingBlock : Nat
  snapshot : AccountSet K
  deriving DecidableEq

/-- The extras of the chain's blocks, by block number. -/
abbrev Blockchain (K : Type) := List (Extra K)

def validatorSnapshotLimit : Nat := 100
def numberOfSnapshotsToLeaveInMemory : Nat := 12
def numberOfSnapshotsToLeaveInDB : Nat := 20

def errNoBlock : String := "no block data passed in"

def nilDereference : String := "runtime error: invalid memory address or nil pointer dereference"

/-! ## Snapshots keyed by epoch -/

/-- `snapshots[epoch]`, and `Get` of the bucket under the epoch's key. -/
def findSnapshot (snapshots : List (ValidatorSnapshot K)) (epoch : UInt64) :
    Option (ValidatorSnapshot K) :=
  snapshots.find? (·.epoch == epoch)

/-- `snapshots[s.Epoch] = s`, and `Put` under the epoch's key. -/
def putSnapshot (snapshots : List (ValidatorSnapshot K)) (s : ValidatorSnapshot K) :
    List (ValidatorSnapshot K) :=
  snapshots.filter (·.epoch != s.epoch) ++ [s]

/-- The validator snapshot bucket of the epoch store. -/
structure EpochStore (K : Type) where
  validatorSnapshots : List (ValidatorSnapshot K)
  deriving DecidableEq

def EpochStore.insertValidatorSnapshot (s : EpochStore K) (snapshot : ValidatorSnapshot K) :
    EpochStore K :=
  ⟨putSnapshot s.validatorSnapshots snapshot⟩

/-- `getLastSnapshot`: the cursor's last key, the greatest epoch. -/
def EpochStore.getLastSnapshot (s : EpochStore K) : Option (ValidatorSnapshot K) :=
  s.validatorSnapshots.foldl (fun last v => match last with
    | some l => if l.epoch < v.epoch then some v else last
    | none => some v) none

def collectSnapshots (s : EpochStore K) : Nat → UInt64 → List (ValidatorSnapshot K)
  | 0, _ => []
  | n + 1, epoch =>
    match findSnapshot s.validatorSnapshots epoch with
    | none => collectSnapshots s n epoch
    | some v => v :: collectSnapshots s n (epoch - 1)

/-- `cleanValidatorSnapshotsFromDB`: the bucket is recreated with the snapshots of the last
epochs from `epoch` down. -/
def EpochStore.cleanValidatorSnapshotsFromDB (s : EpochStore K) (epoch : UInt64) : EpochStore K :=
  ⟨(collectSnapshots s numberOfSnapshotsToLeaveInDB epoch).reverse⟩

/-- `validatorsSnapshotCache`: the memory map and the epoch store. -/
structure ValidatorsSnapshotCache (K : Type) where
  snapshots : List (ValidatorSnapshot K)
  epochStore : EpochStore K
  deriving DecidableEq

/-- `newValidatorsSnapshotCache` over an epoch store: a node that starts, or restarts. -/
def newValidatorsSnapshotCache (epochStore : EpochStore K) : ValidatorsSnapshotCache K :=
  ⟨[], epochStore⟩

/-! ## Reading the chain -/

/-- `getBlockData`. -/
def getBlockData (blockchain : Blockchain K) (blockNumber : Nat) : Except String (Extra K) :=
  match blockchain[blockNumber]? with
  | some extra => .ok extra
  | none => .error errNoBlock

/-- `extra.Checkpoint.EpochNumber`. -/
def checkpointEpoch (extra : Extra K) : Except String UInt64 :=
  match extra.checkpoint with
  | some checkpoint => .ok checkpoint.epochNumber
  | none => .error nilDereference

/-- `isEpochEndingBlock`: a block with a validator set change ends its epoch, and so does a
block whose next block is of another epoch. -/
def isEpochEndingBlock (blockchain : Blockchain K) (blockNumber : Nat) (extra : Extra K) :
    Except String Bool :=
  match extra.validators with
  | none => .error nilDereference
  | some delta =>
    if !delta.isEmpty then .ok true
    else do
      let nextBlockExtra ← getBlockData blockchain (blockNumber + 1)
      let epoch ← checkpointEpoch extra
      let nextEpoch ← checkpointEpoch nextBlockExtra
      pure (epoch != nextEpoch)

def scanEpochEnd (startEpoch : UInt64) : Nat → List (Extra K) → Except String Nat
  | blockNumber, [] => .ok (blockNumber - 1)
  | blockNumber, extra :: rest => do
    let epoch ← checkpointEpoch extra
    if startEpoch = epoch then scanEpochEnd startEpoch (blockNumber + 1) rest
    else .ok (blockNumber - 1)

/-- `getNextEpochEndingBlock`: the last block of the epoch after the one ending at
`latestEpochEndingBlock`. -/
def getNextEpochEndingBlock (blockchain : Blockchain K) (latestEpochEndingBlock : Nat) :
    Except String Nat := do
  let blockNumber := latestEpochEndingBlock + 1
  let extra ← getBlockData blockchain blockNumber
  let startEpoch ← checkpointEpoch extra
  scanEpochEnd startEpoch (blockNumber + 1) (blockchain.drop (blockNumber + 1))

/-- `computeSnapshot`: the delta of an epoch-ending block applied to the snapshot of the epoch
before, or to the empty set for the genesis block. -/
def computeSnapshot (blockchain : Blockchain K) (existingSnapshot : Option (ValidatorSnapshot K))
    (nextEpochEndBlockNumber : Nat) : Except String (ValidatorSnapshot K) := do
  let extra ← match blockchain[nextEpochEndBlockNumber]? with
    | some extra => pure extra
    | none => throw ("unknown block. Block number=" ++ toString nextEpochEndBlockNumber)
  let (snapshot, snapshotEpoch) := match existingSnapshot with
    | none => (([] : AccountSet K), (0 : UInt64))
    | some s => (s.snapshot, s.epoch + 1)
  let snapshot ← (AccountSet.applyDelta snapshot extra.validators).mapError fun e =>
    "failed to apply delta to the validators snapshot, block#" ++
      toString nextEpochEndBlockNumber ++ ": " ++ e
  pure ⟨snapshotEpoch, nextEpochEndBlockNumber, snapshot⟩

/-! ## The cache operations -/

/-- `storeSnapshot`: into memory and into the epoch store. -/
def ValidatorsSnapshotCache.storeSnapshot (v : ValidatorsSnapshotCache K)
    (snapshot : ValidatorSnapshot K) : ValidatorsSnapshotCache K :=
  ⟨putSnapshot v.snapshots snapshot, v.epochStore.insertValidatorSnapshot snapshot⟩

def findCachedAtOrBelow (snapshots : List (ValidatorSnapshot K)) : Nat → Option (ValidatorSnapshot K)
  | 0 => findSnapshot snapshots 0
  | n + 1 => (findSnapshot snapshots (UInt64.ofNat (n + 1))).orElse
      fun _ => findCachedAtOrBelow snapshots n

/-- `getLastCachedSnapshot`: the snapshot of the epoch in memory; else the newest in memory
below it, unless the epoch store's last snapshot is newer, which is then taken and cached. -/
def ValidatorsSnapshotCache.getLastCachedSnapshot (v : ValidatorsSnapshotCache K)
    (currentEpoch : UInt64) : ValidatorsSnapshotCache K × Option (ValidatorSnapshot K) :=
  match findSnapshot v.snapshots currentEpoch with
  | some cachedSnapshot => (v, some cachedSnapshot)
  | none =>
    let cachedSnapshot := findCachedAtOrBelow v.snapshots currentEpoch.toNat
    match v.epochStore.getLastSnapshot with
    | some dbSnapshot =>
      if cachedSnapshot.all (·.epoch < dbSnapshot.epoch) then
        ({ v with snapshots := putSnapshot v.snapshots dbSnapshot }, some dbSnapshot)
      else (v, cachedSnapshot)
    | none => (v, cachedSnapshot)

def latestCachedEpoch (snapshots : List (ValidatorSnapshot K)) : UInt64 :=
  snapshots.foldl (fun e s => if s.epoch > e then s.epoch else e) 0

def keepLatest (snapshots : List (ValidatorSnapshot K)) : Nat → UInt64 → List (ValidatorSnapshot K)
  | 0, _ => []
  | n + 1, startEpoch =>
    (match findSnapshot snapshots startEpoch with
      | some s => [s]
      | none => []) ++ keepLatest snapshots n (startEpoch - 1)

/-- `cleanup`: at the limit, memory keeps its last epochs and the store is cleaned. -/
def ValidatorsSnapshotCache.cleanup (v : ValidatorsSnapshotCache K) : ValidatorsSnapshotCache K :=
  if validatorSnapshotLimit ≤ v.snapshots.length then
    let latestEpoch := latestCachedEpoch v.snapshots
    ⟨keepLatest v.snapshots numberOfSnapshotsToLeaveInMemory latestEpoch,
      v.epochStore.cleanValidatorSnapshotsFromDB latestEpoch⟩
  else v

def applyPendingDeltas (blockchain : Blockchain K) (epochToGetSnapshot : UInt64) :
    Nat → ValidatorsSnapshotCache K → ValidatorSnapshot K →
      ValidatorsSnapshotCache K × Except String (ValidatorSnapshot K)
  | 0, v, latest => (v, .ok latest)
  | fuel + 1, v, latest =>
    if latest.epoch < epochToGetSnapshot then
      match getNextEpochEndingBlock blockchain latest.epochEndingBlock with
      | .error e => (v, .error ("failed to get the epoch ending block for epoch: " ++
          toString (latest.epoch + 1) ++ ". Error: " ++ e))
      | .ok nextEpochEndBlockNumber =>
        match computeSnapshot blockchain (some latest) nextEpochEndBlockNumber with
        | .error e => (v, .error ("failed to compute snapshot for epoch " ++
            toString (latest.epoch + 1) ++ ": " ++ e))
        | .ok intermediateSnapshot =>
          applyPendingDeltas blockchain epochToGetSnapshot fuel
            (v.storeSnapshot intermediateSnapshot) intermediateSnapshot
    else (v, .ok latest)

def epochToGetSnapshot (blockchain : Blockchain K) (blockNumber : Nat) : Except String UInt64 := do
  let extra ← getBlockData blockchain blockNumber
  let isEpochEnding ← match isEpochEndingBlock blockchain blockNumber extra with
    | .ok b => .ok b
    | .error e => if e = errNoBlock then .ok false else .error e
  let epoch ← checkpointEpoch extra
  pure (if isEpochEnding then epoch else epoch - 1)

def ValidatorsSnapshotCache.finishSnapshot (v : ValidatorsSnapshotCache K)
    (blockchain : Blockchain K) (epochToGet : UInt64) (latest : ValidatorSnapshot K) :
    ValidatorsSnapshotCache K × Except String (AccountSet K) :=
  match applyPendingDeltas blockchain epochToGet (epochToGet - latest.epoch).toNat v latest with
  | (v, .error e) => (v, .error e)
  | (v, .ok latest) => (v.cleanup, .ok latest.snapshot)

/-- `validatorsSnapshotCache.GetSnapshot`. -/
def ValidatorsSnapshotCache.getSnapshot (v : ValidatorsSnapshotCache K) (blockchain : Blockchain K)
    (blockNumber : Nat) : ValidatorsSnapshotCache K × Except String (AccountSet K) :=
  match epochToGetSnapshot blockchain blockNumber with
  | .error e => (v, .error e)
  | .ok epochToGet =>
    match v.getLastCachedSnapshot epochToGet with
    | (v, some latest) =>
      if latest.epoch = epochToGet then (v, .ok latest.snapshot)
      else v.finishSnapshot blockchain epochToGet latest
    | (v, none) =>
      match computeSnapshot blockchain none 0 with
      | .error e => (v, .error ("failed to compute snapshot for epoch 0: " ++ e))
      | .ok genesisBlockSnapshot =>
        (v.storeSnapshot genesisBlockSnapshot).finishSnapshot blockchain epochToGet
          genesisBlockSnapshot

/-! ## Runs of the cache -/

/-- What can happen to the cache: a `GetSnapshot` call, failed or not, or a restart of the
node, which keeps the epoch store and empties memory. -/
inductive Step (blockchain : Blockchain K) : ValidatorsSnapshotCache K → ValidatorsSnapshotCache K → Prop
  | getSnapshot (v : ValidatorsSnapshotCache K) (blockNumber : Nat) :
      Step blockchain v (v.getSnapshot blockchain blockNumber).1
  | restart (v : ValidatorsSnapshotCache K) :
      Step blockchain v (newValidatorsSnapshotCache v.epochStore)

/-- The states reachable from a node started on an empty store. -/
inductive Reachable (blockchain : Blockchain K) : ValidatorsSnapshotCache K → Prop
  | init : Reachable blockchain (newValidatorsSnapshotCache ⟨[]⟩)
  | step {v w : ValidatorsSnapshotCache K} :
      Reachable blockchain v → Step blockchain v w → Reachable blockchain w

/-! ## What the snapshot of an epoch is -/

def epochOf (blockchain : Blockchain K) (blockNumber : Nat) : Option UInt64 :=
  (blockchain[blockNumber]?.bind (·.checkpoint)).map (·.epochNumber)

def lastBlockOfEpoch (blockchain : Blockchain K) (epoch : UInt64) : Option Nat :=
  ((List.range blockchain.length).filter fun n => epochOf blockchain n = some epoch).getLast?

def foldedSnapshot (blockchain : Blockchain K) : Nat → Except String (AccountSet K)
  | 0 => AccountSet.applyDelta [] (blockchain[0]?.bind (·.validators))
  | e + 1 => do
    let previous ← foldedSnapshot blockchain e
    match lastBlockOfEpoch blockchain (UInt64.ofNat (e + 1)) with
    | some b => AccountSet.applyDelta previous (blockchain[b]?.bind (·.validators))
    | none => .error ("no block of epoch " ++ toString (e + 1))

/-! ## A restart makes the cache answer with a later epoch -/

def sampleValidator (b : UInt8) : ValidatorMetadata Unit := ⟨bytesToAddress [b], some (), 1, true⟩

def sampleExtra (added : AccountSet Unit) (epoch : UInt64) : Extra Unit :=
  ⟨some ⟨added, [], []⟩, none, none, some ⟨0, epoch, zeroHash, zeroHash, zeroHash⟩⟩

def sampleChain : Blockchain Unit :=
  [sampleExtra [sampleValidator 1] 0, sampleExtra [] 1, sampleExtra [sampleValidator 2] 1,
    sampleExtra [] 2]

def sampleRestartedCache : ValidatorsSnapshotCache Unit :=
  newValidatorsSnapshotCache
    ((newValidatorsSnapshotCache (⟨[]⟩ : EpochStore Unit)).getSnapshot sampleChain 3).1.epochStore

/-- Block 1 is signed by the validators of epoch 0, the first one alone; after the restart the
cache answers with the epoch store's last snapshot, that of epoch 1, which holds both. -/
theorem getSnapshot_after_restart_returns_later_epoch :
    Reachable sampleChain sampleRestartedCache ∧
      epochToGetSnapshot sampleChain 1 = .ok 0 ∧
      foldedSnapshot sampleChain 0 = .ok [sampleValidator 1] ∧
      (sampleRestartedCache.getSnapshot sampleChain 1).2 = .ok [sampleValidator 1, sampleValidator 2] :=
  ⟨.step (.step .init (.getSnapshot _ 3)) (.restart _), rfl, rfl, rfl⟩

end PolybftValidatorsSnapshot
