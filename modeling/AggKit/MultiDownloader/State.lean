import AggKit.MultiDownloader.SetSyncSegment

/-!
# What is synced and what is pending (`multidownloader/state.go`, `types/syncer_config.go`)

The configuration of the syncers says from which block on each contract is wanted, and up to which:
the target of the contract, once the number of the last block is known. The state keeps the synced
and the pending segments of the contracts. It is made from the database at start-up, extended when
the chain grows, and changed by every query whose logs were stored.
-/

namespace AggKit.MultiDownloader

open Table SetSyncSegment

/-- `BlockName`. -/
inductive BlockName where
  /-- `Constant` -/
  | constant
  /-- `Safe` -/
  | safe
  /-- `Finalized` -/
  | finalized
  /-- `Latest` -/
  | latest
  /-- `Pending` -/
  | pending
deriving DecidableEq

/-- `BlockNumberFinality`. -/
structure BlockNumberFinality where
  block : BlockName
  offset : ℤ
  specific : ℕ
deriving DecidableEq

/-- `FinalizedBlock`. -/
def FinalizedBlock : BlockNumberFinality := ⟨.finalized, 0, 0⟩

/-- `LatestBlock`. -/
def LatestBlock : BlockNumberFinality := ⟨.latest, 0, 0⟩

/-- `SyncerConfig`. -/
structure SyncerConfig (A : Type) where
  syncerID : String
  contractAddresses : List A
  fromBlock : ℕ
  toBlock : BlockNumberFinality

/-- `SetSyncerConfig`: one configuration for each syncer, in the order the map happens to give. -/
abbrev SetSyncerConfig (A : Type) := Keyed (SyncerConfig.syncerID (A := A))

variable {A H : Type}

/-- The contracts of `ContractConfigs`. -/
def SetSyncerConfig.contracts (f : SetSyncerConfig A) : List A :=
  f.rows.flatMap SyncerConfig.contractAddresses

variable [DecidableEq A]

/-- The loops of `SyncSegments`; `blockNumbers` are the current numbers of the blocks that the
configurations name, as far as the node returned them. -/
def syncSegmentsFrom (blockNumbers : BlockNumberFinality → Option ℕ) :
    List (SyncerConfig A) → SetSyncSegment A → Except (SegmentError A) (SetSyncSegment A)
  | [], segments => .ok segments
  | filter :: filters, segments =>
    match blockNumbers filter.toBlock with
    | none => .error .finalityNotFound
    | some toBlock => syncSegmentsFrom blockNumbers filters <|
        filter.contractAddresses.foldl
          (fun s addr => add s ⟨addr, .new filter.fromBlock toBlock⟩) segments

/-- `SyncSegments`, with `mapBlockTagToBlockNumber`. -/
def SetSyncerConfig.syncSegments (f : SetSyncerConfig A)
    (blockNumbers : BlockNumberFinality → Option ℕ) : Except (SegmentError A) (SetSyncSegment A) :=
  syncSegmentsFrom blockNumbers f.rows Keyed.empty

/-- `State`. -/
structure State (A : Type) where
  synced : SetSyncSegment A
  pending : SetSyncSegment A

namespace State

/-- `NewStateFromStorageSyncedBlocks`. -/
def newFromStorageSyncedBlocks (storageSynced totalToSync : SetSyncSegment A) :
    Except (SegmentError A) (State A) := do
  let pending ← subtractSegments totalToSync storageSynced
  .ok ⟨storageSynced, pending⟩

/-- `GetHighestBlockNumberPendingToSync`, without the finality. -/
def getHighestBlockNumberPendingToSync (s : State A) : ℕ :=
  let bn := getHighestBlockNumber s.pending
  if bn = 0 then getHighestBlockNumber s.synced else bn

/-- The loop of `ExtendPendingRange`; an error keeps what was extended before. -/
def extendSegments : List (SyncSegment A) → State A → State A × Option (SegmentError A)
  | [], s => (s, none)
  | segment :: segments, s =>
    if segment.blockRange.isEmpty then extendSegments segments s
    else match getByContract s.synced segment.contractAddr with
      | none => (s, some (.notSynced segment.contractAddr))
      | some synced =>
        match segment.blockRange.subtract synced.blockRange with
        | [] => extendSegments segments s
        -- Of two ranges the code takes the first.
        | sub :: _ => extendSegments segments
            { s with pending := add s.pending ⟨segment.contractAddr, sub⟩ }

/-- `ExtendPendingRange`. -/
def extendPendingRange (s : State A) (syncersConfig : SetSyncerConfig A)
    (blockNumbers : BlockNumberFinality → Option ℕ) : State A × Option (SegmentError A) :=
  match syncersConfig.syncSegments blockNumbers with
  | .error e => (s, some e)
  | .ok segments => extendSegments segments.rows s

/-- The part that `OnNewSyncedLogQuery` and `newStateAftersLogQueries` share. -/
def addSynced (s : State A) (q : LogQuery A H) : Except (SegmentError A) (State A) := do
  let pending ← subtractLogQuery s.pending q
  .ok ⟨addLogQuery s.synced q, pending⟩

/-- `OnNewSyncedLogQuery`. -/
def onNewSyncedLogQuery (s : State A) (q : LogQuery A H) : Except (SegmentError A) (State A) :=
  if q.isEmpty then .error .emptyLogQuery else s.addSynced q

/-- `newStateAftersLogQueries`. -/
def afterLogQueries : List (LogQuery A H) → State A → Except (SegmentError A) (State A)
  | [], s => .ok s
  | q :: queries, s => do
    let s' ← s.addSynced q
    afterLogQueries queries s'

end State

end AggKit.MultiDownloader
