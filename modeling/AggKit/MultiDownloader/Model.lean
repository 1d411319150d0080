import AggKit.MultiDownloader.State
import AggKit.MultiDownloader.Storage

/-!
# The multidownloader (`multidownloader/evm_multidownloader.go`, `reorg_processor.go`)

The multidownloader downloads the logs of all contracts that the syncers registered. Its loop extends
the pending ranges to the current blocks of the chain, checks the blocks that are not final against
the node, and then downloads: `StepSafe` a chunk at or below the finalized block, where only blocks
with logs are stored, or `StepUnsafe` all that is pending above it, block by block. When the check
finds a block that is not on the chain any more, `ProcessReorg` moves the blocks from the first one
that differs to `blocks_reorged` and the state is made anew from the database.

Each function takes what the node answers as an argument. A download returns the queries it stored
with the logs that the node returned for them, so that a run can be compared with what it was told.
-/

namespace AggKit.MultiDownloader

open Table SetSyncSegment

/-- Why the node does not return a header. -/
inductive HeaderFault where
  /-- `IsErrNotFound` -/
  | notFound
  /-- Any other error. -/
  | other
deriving DecidableEq

/-- The answer to `RetrieveBlockHeaders`, a header or an error for each number that is asked for;
`none` is an error of the whole call. -/
abbrev HeadersReply (H : Type) := Option (ℕ → Except HeaderFault (BlockHeader H))

/-- The answer to one `FilterLogs`. -/
inductive LogsReply (A H : Type) where
  | logs (logs : List (Log A H))
  /-- `isEthClientErrorTooManyResults`, with the range that the message suggests. -/
  | tooManyResults (suggested : Option BlockRange)
  /-- Any other error. -/
  | failed

/-- Why a step fails. -/
inductive StepError (A : Type) where
  /-- The state is `nil`. -/
  | notInitialized
  /-- `getNextQuery: cannot get finalized block number` -/
  | finalizedBlockNumber
  /-- `Safe/Step: ethClient.FilterLogs failed` -/
  | filterLogs
  /-- The suggested range is `nil` and is read. -/
  | nilSuggestion
  /-- `Safe/Step: cannot reduce block chunk size any further` -/
  | chunkSize
  /-- The context ended. -/
  | canceled
  /-- `failed to retrieve block headers` -/
  | retrieveHeaders
  /-- `checkIntegrityNewLogsBlockHeaders` -/
  | integrity (blockNumber : ℕ)
  /-- An error of the segments. -/
  | segment (e : SegmentError A)
  /-- `storeData` -/
  | storage (e : StorageError A)
deriving DecidableEq

/-- A query whose answer was stored, with the logs that the node returned. -/
structure Download (A H : Type) where
  query : LogQuery A H
  logs : List (Log A H)

/-- `EVMMultidownloader`, with the reorg that its loop is processing. -/
structure Multidownloader (A H : Type) where
  storage : Storage A H
  syncersConfig : SetSyncerConfig A
  state : Option (State A)
  /-- `OffendingBlockNumber` of the reorg that was detected and not processed yet. -/
  reorg : Option ℕ

/-- What the node answers in a `StepSafe`. -/
structure SafeAnswers (A H : Type) where
  finalized : Option ℕ
  logs : List (LogsReply A H)
  headers : HeadersReply H

/-- What the node answers in a `StepUnsafe`. -/
structure UnsafeAnswers (A H : Type) where
  headers : HeadersReply H
  logs : LogQuery A H → Option (List (Log A H))

/-- What the node answers to `ProcessReorg` and to the start of the new state. -/
structure ReorgAnswers (H : Type) where
  /-- `CustomHeaderByNumber` -/
  header : ℕ → Except HeaderFault (BlockHeader H)
  /-- `GetBlockNumberInRPC` succeeds. -/
  reached : Bool
  blockNumbers : BlockNumberFinality → Option ℕ

variable {A H : Type}

/-- `GetOrderedHeaders`. -/
def getOrderedHeaders (headers : ℕ → Except HeaderFault (BlockHeader H)) (blocks : List ℕ) :
    List (BlockHeader H) :=
  blocks.filterMap fun n => (headers n).toOption

/-- `getBlockNumbers`. -/
def getBlockNumbers (logs : List (Log A H)) : List ℕ := (logs.map Log.blockNumber).eraseDups

/-- The loop of `requestLogs`. -/
def requestLogsFrom (q : LogQuery A H) : ℕ → BlockRange → List (LogsReply A H) →
    Except (StepError A) (Download A H)
  | _, _, [] => .error .canceled
  | _, suggested, .logs logs :: _ => .ok ⟨{ q with blockRange := suggested }, logs⟩
  | _, _, .failed :: _ => .error .filterLogs
  | _, _, .tooManyResults none :: _ => .error .nilSuggestion
  | chunk, suggested, .tooManyResults (some suggested') :: replies =>
    if suggested.overlaps suggested' then requestLogsFrom q chunk suggested' replies
    -- The smaller chunk is computed, but the next try is for the suggested range all the same.
    else if chunk / 10 < 1 then .error .chunkSize
    else requestLogsFrom q (chunk / 10) suggested' replies

/-- `checkIntegrityNewLogsBlockHeaders`. -/
def checkIntegrity [DecidableEq H] (headers : List (BlockHeader H)) :
    List (Log A H) → Except (StepError A) Unit
  | [] => .ok ()
  | l :: logs =>
    match headers.reverse.find? fun h => decide (h.number = l.blockNumber) with
    | none => .error (.integrity l.blockNumber)
    | some h =>
      if h.hash = l.blockHash then checkIntegrity headers logs
      else .error (.integrity l.blockNumber)

/-- `requestMultiplesLogs`. -/
def requestMultiplesLogs (filterLogs : LogQuery A H → Option (List (Log A H))) :
    List (LogQuery A H) → Except (StepError A) (List (Download A H))
  | [] => .ok []
  | q :: queries =>
    match filterLogs q with
    | none => .error .filterLogs
    | some logs => do
      let downloads ← requestMultiplesLogs filterLogs queries
      .ok (⟨q, logs⟩ :: downloads)

/-- The outcome of `detectReorgs` when it makes its comparison: the offending block, if any. -/
def detectReorgs [DecidableEq H] (blocks : List (BlockHeader H)) (reply : HeadersReply H) :
    Option (Option ℕ) :=
  if blocks.isEmpty then some none
  else match reply with
    | none => none
    | some headers =>
      -- The blocks are in the order of their numbers.
      match blocks.find? fun b => !(headers b.number).isOk with
      | some _ =>
        if blocks.any fun b => headers b.number matches .error .other then none
        else some ((blocks.find? fun b =>
          headers b.number matches .error .notFound).map BlockHeader.number)
      | none => some ((blocks.find? fun b => match headers b.number with
          | .ok h => decide (b.hash ≠ h.hash)
          | .error _ => false).map BlockHeader.number)

/-- `findFirstUnaffectedBlock`: the highest block from `startBlockNumber` down that is stored and that
the node returns with the same hash. -/
def findFirstUnaffectedBlock [DecidableEq H] (st : Storage A H)
    (header : ℕ → Except HeaderFault (BlockHeader H)) : ℕ → Option ℕ
  | 0 => none
  | n + 1 =>
    match header (n + 1), st.getBlockHeaderByNumber (n + 1) with
    | .error .other, _ => none
    | .error .notFound, _ => findFirstUnaffectedBlock st header n
    | .ok _, none => findFirstUnaffectedBlock st header n
    | .ok h, some row =>
      if row.number ≠ h.number then none
      else if row.header.hash = h.hash then some (n + 1)
      else findFirstUnaffectedBlock st header n

/-- `ProcessReorg`; `none` when it fails. The result has the range of the blocks that were moved. -/
def processReorg [DecidableEq H] (st : Storage A H) (offendingBlockNumber : ℕ)
    (answers : ReorgAnswers H) : Option (Storage A H × BlockRange) :=
  if offendingBlockNumber = 0 then none
  else do
    let firstUnaffectedBlock ← findFirstUnaffectedBlock st answers.header (offendingBlockNumber - 1)
    if answers.reached then
      let toBlock := st.getHighestBlockNumber
      let st' ← (st.insertReorgAndMoveReorgedBlocksAndLogs (firstUnaffectedBlock + 1) toBlock).toOption
      some (st', .new (firstUnaffectedBlock + 1) toBlock)
    else none

namespace Multidownloader

/-- A new multidownloader on a database. -/
def new (storage : Storage A H) : Multidownloader A H := ⟨storage, Keyed.empty, none, none⟩

variable [DecidableEq A]

/-- `storeData`: everything or nothing. -/
def storeData (st : Storage A H) (logs : List (Log A H)) (blocks : List (BlockHeader H))
    (updatedSegments : List (SyncSegment A)) (isFinal : Bool) :
    Except (StorageError A) (Storage A H) := do
  let st' ← st.saveEthLogsWithHeaders blocks logs isFinal
  Storage.updateSyncedStatus updatedSegments st'

/-- `newStateFromStorage`. -/
def newStateFromStorage (storage : Storage A H) (syncersConfig : SetSyncerConfig A)
    (blockNumbers : BlockNumberFinality → Option ℕ) : Except (SegmentError A) (State A) := do
  let totalToSync ← syncersConfig.syncSegments blockNumbers
  State.newFromStorageSyncedBlocks storage.getSyncedBlockRangePerContract totalToSync

/-- `requestLogs`. -/
def requestLogs (blockChunkSize : ℕ) (s : State A) (answers : SafeAnswers A H) :
    Except (StepError A) (Option (Download A H)) :=
  match answers.finalized with
  | none => .error .finalizedBlockNumber
  | some finalized =>
    match (nextQuery s.pending blockChunkSize finalized :
        Except (SegmentError A) (LogQuery A H)) with
    | .error .finished => .ok none
    | .error e => .error (.segment e)
    | .ok q => (requestLogsFrom q blockChunkSize q.blockRange answers.logs).map some

/-- The headers of `StepSafe`: those of the blocks with logs. -/
def retrieveSafeHeaders (logs : List (Log A H)) (reply : HeadersReply H) :
    Except (StepError A) (List (BlockHeader H)) :=
  if (getBlockNumbers logs).isEmpty then .ok []
  else match reply with
    | none => .error .retrieveHeaders
    | some headers =>
      let blockHeaders := getOrderedHeaders headers (getBlockNumbers logs)
      if blockHeaders.isEmpty then .error .retrieveHeaders else .ok blockHeaders

/-- `StepSafe`. -/
def stepSafe (blockChunkSize : ℕ) (md : Multidownloader A H) (answers : SafeAnswers A H) :
    Except (StepError A) (Multidownloader A H × List (Download A H)) :=
  match md.state with
  | none => .error .notInitialized
  | some s =>
    match requestLogs blockChunkSize s answers with
    | .error e => .error e
    -- `ErrFinished`
    | .ok none => .ok (md, [])
    | .ok (some d) => do
      let blockHeaders ← retrieveSafeHeaders d.logs answers.headers
      let s' ← (s.onNewSyncedLogQuery d.query).mapError .segment
      let storage ← (storeData md.storage d.logs blockHeaders
        (segmentsByContract s'.synced d.query.addrs) true).mapError .storage
      .ok ({ md with storage, state := some s' }, [d])

/-- The headers of `StepUnsafe`: those of the whole range. -/
def retrieveUnsafeHeaders (blocks : List ℕ) (reply : HeadersReply H) :
    Except (StepError A) (List (BlockHeader H)) :=
  match reply with
  | none => .error .retrieveHeaders
  | some headers =>
    let blockHeaders := getOrderedHeaders headers blocks
    if blockHeaders.isEmpty then .error .retrieveHeaders else .ok blockHeaders

/-- `getUnsafeLogQueries`. -/
def getUnsafeLogQueries (s : State A) (blockHeaders : List (BlockHeader H)) :
    List (LogQuery A H) :=
  blockHeaders.map fun h =>
    .newBlockHash h.number h.hash (getAddressesForBlock s.pending h.number)

/-- `StepUnsafe`. -/
def stepUnsafe [DecidableEq H] (md : Multidownloader A H) (answers : UnsafeAnswers A H) :
    Except (StepError A) (Multidownloader A H × List (Download A H)) :=
  match md.state with
  | none => .error .notInitialized
  | some s =>
    match getTotalPendingBlockRange s.pending with
    | none => .ok (md, [])
    | some pendingBlockRange => do
      let blockHeaders ← retrieveUnsafeHeaders pendingBlockRange.listBlockNumbers answers.headers
      let logQueries := getUnsafeLogQueries s blockHeaders
      let downloads ← requestMultiplesLogs answers.logs logQueries
      let logs := downloads.flatMap Download.logs
      checkIntegrity blockHeaders logs
      let s' ← (s.afterLogQueries logQueries).mapError .segment
      let contracts := (logQueries.flatMap LogQuery.addrs).eraseDups
      let storage ← (storeData md.storage logs blockHeaders
        (segmentsByContract s'.synced contracts) false).mapError .storage
      .ok ({ md with storage, state := some s' }, downloads)

/-- `RegisterSyncer`. -/
def registerSyncer (md : Multidownloader A H) (data : SyncerConfig A) : Multidownloader A H :=
  if md.state.isSome then md else { md with syncersConfig := md.syncersConfig.upsert data }

/-- `Initialize`: the rows of the contracts are written also when the state cannot be made. -/
def initializeState (md : Multidownloader A H) (blockNumbers : BlockNumberFinality → Option ℕ) :
    Multidownloader A H :=
  if md.state.isSome then md
  else
    let storage := md.storage.upsertSyncerConfigs md.syncersConfig.contracts
    match newStateFromStorage storage md.syncersConfig blockNumbers with
    | .error _ => { md with storage }
    | .ok s => { md with storage, state := some s }

/-- `updateTargetBlockNumber`. -/
def updateTargetBlockNumber (md : Multidownloader A H)
    (blockNumbers : BlockNumberFinality → Option ℕ) : Multidownloader A H :=
  match md.state with
  | none => md
  | some s => { md with state := some (s.extendPendingRange md.syncersConfig blockNumbers).1 }

/-- `moveUnsafeToSafeIfPossible`. -/
def moveUnsafeToSafeIfPossible [DecidableEq H] (md : Multidownloader A H) (finalized : Option ℕ)
    (reply : HeadersReply H) : Multidownloader A H :=
  match finalized with
  | none => md
  | some finalized =>
    let blocks := md.storage.getBlockHeadersNotFinalized (some finalized)
    match detectReorgs blocks reply with
    | none => md
    | some (some offendingBlockNumber) => { md with reorg := some offendingBlockNumber }
    | some none =>
      { md with storage := md.storage.updateBlockToFinalized (blocks.map BlockHeader.number) }

/-- `checkReorgsUnsafeZone`. -/
def checkReorgsUnsafeZone [DecidableEq H] (md : Multidownloader A H) (reply : HeadersReply H) :
    Multidownloader A H :=
  match detectReorgs (md.storage.getBlockHeadersNotFinalized none) reply with
  | none => md
  | some offendingBlockNumber => { md with reorg := offendingBlockNumber }

/-- `WaitForNewLatestBlocks`, when the node returns `current`. A block that is not stored is taken for
final. -/
def waitForNewLatestBlocks [DecidableEq H] (md : Multidownloader A H) (current : BlockHeader H) :
    Multidownloader A H :=
  match md.state.bind fun s =>
    md.storage.getBlockHeaderByNumber s.getHighestBlockNumberPendingToSync with
  | none => md
  | some last =>
    if last.isFinal then md
    else if current.number = last.number ∧ current.hash ≠ last.header.hash ∨
        current.number = last.number + 1 ∧ (∃ parentHash ∈ current.parentHash,
          parentHash ≠ last.header.hash) ∨
        current.number < last.number then
      { md with reorg := some last.number }
    else md

/-- One round of the loop that processes a reorg: `ProcessReorg` and then the new state. When the
state cannot be made, the old one stays and the loop tries again. -/
def processDetectedReorg [DecidableEq H] (md : Multidownloader A H) (answers : ReorgAnswers H) :
    Multidownloader A H × Option BlockRange :=
  match md.reorg with
  | none => (md, none)
  | some offendingBlockNumber =>
    match processReorg md.storage offendingBlockNumber answers with
    | none => (md, none)
    | some (storage, range) =>
      match newStateFromStorage storage md.syncersConfig answers.blockNumbers with
      | .error _ => ({ md with storage }, some range)
      | .ok s => ({ md with storage, state := some s, reorg := none }, some range)

/-- The loop of `Start` runs, after `Initialize`, and is not processing a reorg. -/
def inLoop (md : Multidownloader A H) : Bool := md.state.isSome && md.reorg.isNone

omit [DecidableEq A] in
theorem inLoop_eq_true_iff {md : Multidownloader A H} :
    md.inLoop = true ↔ (∃ s, md.state = some s) ∧ md.reorg = none := by
  rw [inLoop, Bool.and_eq_true, Option.isSome_iff_exists, Option.isNone_iff_eq_none]

end Multidownloader

/-! ## Runs -/

/-- What can happen. -/
inductive Action (A H : Type) where
  /-- `RegisterSyncer` -/
  | registerSyncer (data : SyncerConfig A)
  /-- `Initialize` -/
  | initialized (blockNumbers : BlockNumberFinality → Option ℕ)
  /-- The process ends and starts again on its database. -/
  | restart
  /-- `updateTargetBlockNumber` -/
  | updateTargetBlockNumber (blockNumbers : BlockNumberFinality → Option ℕ)
  /-- `moveUnsafeToSafeIfPossible` -/
  | moveUnsafeToSafeIfPossible (finalized : Option ℕ) (reply : HeadersReply H)
  /-- `checkReorgsUnsafeZone` -/
  | checkReorgsUnsafeZone (reply : HeadersReply H)
  /-- `StepSafe` -/
  | stepSafe (answers : SafeAnswers A H)
  /-- `StepUnsafe` -/
  | stepUnsafe (answers : UnsafeAnswers A H)
  /-- `WaitForNewLatestBlocks` -/
  | waitForNewLatestBlocks (current : BlockHeader H)
  /-- A round of `ProcessReorg`. -/
  | processReorg (answers : ReorgAnswers H)

/-- What happened to the downloaded data. -/
inductive Effect (A H : Type) where
  /-- The answer to a query was stored. -/
  | downloaded (d : Download A H)
  /-- The blocks of a range were moved away. -/
  | reorged (range : BlockRange)

/-- The multidownloader with all that happened to its data, the latest first. -/
structure Trace (A H : Type) where
  md : Multidownloader A H
  history : List (Effect A H)

variable [DecidableEq A] [DecidableEq H]

/-- The outcome of a step that downloads; when it fails nothing changes. -/
def Trace.download (t : Trace A H)
    (outcome : Except (StepError A) (Multidownloader A H × List (Download A H))) : Trace A H :=
  match outcome with
  | .error _ => t
  | .ok (md, downloads) => ⟨md, downloads.reverse.map .downloaded ++ t.history⟩

/-- One action. While a reorg is processed the loop does nothing else. -/
def Trace.step (blockChunkSize : ℕ) (t : Trace A H) : Action A H → Trace A H
  | .restart => ⟨.new t.md.storage, t.history⟩
  | .processReorg answers =>
    match t.md.processDetectedReorg answers with
    | (md, none) => ⟨md, t.history⟩
    | (md, some range) => ⟨md, .reorged range :: t.history⟩
  | .registerSyncer data => ⟨t.md.registerSyncer data, t.history⟩
  | .initialized blockNumbers => ⟨t.md.initializeState blockNumbers, t.history⟩
  | .updateTargetBlockNumber blockNumbers =>
    if t.md.inLoop then ⟨t.md.updateTargetBlockNumber blockNumbers, t.history⟩ else t
  | .moveUnsafeToSafeIfPossible finalized reply =>
    if t.md.inLoop then ⟨t.md.moveUnsafeToSafeIfPossible finalized reply, t.history⟩ else t
  | .checkReorgsUnsafeZone reply =>
    if t.md.inLoop then ⟨t.md.checkReorgsUnsafeZone reply, t.history⟩ else t
  | .stepSafe answers =>
    if t.md.inLoop then t.download (t.md.stepSafe blockChunkSize answers) else t
  | .stepUnsafe answers =>
    if t.md.inLoop then t.download (t.md.stepUnsafe answers) else t
  | .waitForNewLatestBlocks current =>
    if t.md.inLoop then ⟨t.md.waitForNewLatestBlocks current, t.history⟩ else t

/-- The multidownloader on a new database. -/
def Trace.new : Trace A H := ⟨.new .empty, []⟩

section

omit [DecidableEq A] [DecidableEq H]

variable {P : Trace A H → Prop} {t t' : Trace A H}

theorem Trace.ite_inLoop (h : P t) (hloop : ∀ s, t.md.state = some s → t.md.reorg = none → P t') :
    P (if t.md.inLoop then t' else t) := by
  split_ifs with hin
  · obtain ⟨⟨s, hstate⟩, hreorg⟩ := Multidownloader.inLoop_eq_true_iff.mp hin
    exact hloop s hstate hreorg
  · exact h

theorem Trace.of_download (h : P t)
    {outcome : Except (StepError A) (Multidownloader A H × List (Download A H))}
    (hok : ∀ md downloads, outcome = .ok (md, downloads) →
      P ⟨md, downloads.reverse.map .downloaded ++ t.history⟩) : P (t.download outcome) := by
  cases outcome with
  | error e => exact h
  | ok r => exact hok r.1 r.2 rfl

end

end AggKit.MultiDownloader
