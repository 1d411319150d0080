import Mathlib.Data.List.Basic
import Mathlib.Algebra.Group.Nat.Defs
import AggKit.Common

/-!
# The downloader of `sync/evmdownloader.go`

`Download` walks through the blocks of a chain in ranges. Each iteration asks the node for the logs
of a range, groups them into blocks and sends the blocks on a channel, and then moves the first
block of the range on. Some blocks without logs are sent as well, so that the driver sees progress.

The node is the environment. Every request meets an `Answer`: the chain that the node has at that
time, and a fault for the requests that fail. The functions take the list of the answers that are
still to come and return the rest; `none` means that the list was used up, so that the call has not
returned yet. A request that fails is repeated until it succeeds, as with a retry handler without a
limit (with one, the process ends). The calls are not cancelled.

The numbers of blocks are natural numbers; the sums and differences that `Download` computes wrap
around at `2^64`.
-/

namespace AggKit.Sync

/-- `types.Log`, as far as the downloader reads it. -/
structure Log (H : Type) where
  address : Address
  topics : List H
  blockNumber : ℕ
  blockHash : H
  index : ℕ
  removed : Bool
deriving DecidableEq

/-- `EVMBlockHeader`. -/
structure EVMBlockHeader (H : Type) where
  num : ℕ
  hash : H
  parentHash : H
  timestamp : ℕ
deriving DecidableEq

/-- `EVMBlock`; an event is the log that the appender parsed. -/
structure EVMBlock (H : Type) extends EVMBlockHeader H where
  isFinalizedBlock : Bool
  events : List (Log H)
deriving DecidableEq

/-- The chain of a node. A client can resolve a block that is missing to a previous one, so the
header for a number can have a lower number. -/
structure Node (H : Type) where
  header : ℕ → EVMBlockHeader H
  logs : ℕ → List (Log H)
  header_num_le : ∀ b, (header b).num ≤ b
  logs_blockNumber : ∀ b, ∀ l ∈ logs b, l.blockNumber = b
  logs_blockHash : ∀ b, ∀ l ∈ logs b, l.blockHash = (header b).hash

/-- The requests that can fail. -/
inductive Request (H : Type) where
  /-- `FilterLogs` -/
  | filterLogs (fromBlock toBlock : ℕ)
  /-- `HeaderByNumber` -/
  | headerByNumber (blockNum : ℕ)
  /-- `appenderFn` -/
  | appendLog (l : Log H)

/-- How a request fails. -/
inductive Fault where
  /-- Any error that is retried. -/
  | error
  /-- An error with the text `Query returned more than`. -/
  | queryReturnedMoreThan
  /-- `ethereum.NotFound` -/
  | notFound
deriving DecidableEq

/-- What a request meets. -/
structure Answer (H : Type) where
  node : Node H
  fault : Request H → Option Fault

/-- `MaxRetryCountBlockHashMismatch`. -/
def MaxRetryCountBlockHashMismatch : ℕ := 5

/-- The configuration and the arguments of `Download`. -/
structure Config (H : Type) where
  syncBlockChunkSize : ℕ
  addressesToQuery : List Address
  topicsToQuery : List H
  /-- The hook that `SetLogsHook` sets, with the range and the logs. -/
  logsHook : Option (ℕ → ℕ → List (Log H) → List (Log H))
  /-- Whether there is a reorg detector. -/
  reorgDetector : Bool
  stopOnFinalizedBlockReached : Bool
  /-- The argument `fromBlock`. -/
  initialFromBlock : ℕ
  lastBlockNum : Option ℕ
  includeEmptyFirstBlock : Bool

variable {H : Type}

/-! ## The logs of a range -/

/-- The log is of an address that is queried; no addresses stand for all. -/
def Config.watchesAddress (cfg : Config H) (l : Log H) : Bool :=
  cfg.addressesToQuery.isEmpty || cfg.addressesToQuery.contains l.address

/-- `FilterLogs`: the logs of the blocks, in order. -/
def Config.filterQuery (cfg : Config H) (n : Node H) (fromBlock toBlock : ℕ) : List (Log H) :=
  (List.range' fromBlock (toBlock + 1 - fromBlock)).flatMap fun b =>
    (n.logs b).filter cfg.watchesAddress

/-- `end := start + batchSize - 1`, at most `toBlock`. -/
def batchEnd (start batchSize toBlock : ℕ) : ℕ := min (start + batchSize - 1) toBlock

/-- The loop of `getUnfilteredLogs` from `start` on. A range that has too many logs is tried again
with half the batch size; a single block that has too many ends the call without a result. -/
def Config.getUnfilteredLogsFrom (cfg : Config H) (toBlock : ℕ) :
    List (Answer H) → ℕ → ℕ → List (Log H) → Option (List (Log H) × List (Answer H))
  | [], start, _, results => if toBlock < start then some (results, []) else none
  | a :: answers, start, batchSize, results =>
    if toBlock < start then some (results, a :: answers)
    else
      match a.fault (.filterLogs start (batchEnd start batchSize toBlock)) with
      | none =>
        cfg.getUnfilteredLogsFrom toBlock answers (batchEnd start batchSize toBlock + 1) batchSize
          (results ++ cfg.filterQuery a.node start (batchEnd start batchSize toBlock))
      | some .queryReturnedMoreThan =>
        if batchSize = 1 then some ([], answers)
        else cfg.getUnfilteredLogsFrom toBlock answers start (batchSize / 2) results
      | some _ => cfg.getUnfilteredLogsFrom toBlock answers start batchSize results

/-- `getUnfilteredLogs`. -/
def Config.getUnfilteredLogs (cfg : Config H) (fromBlock toBlock : ℕ) (answers : List (Answer H)) :
    Option (List (Log H) × List (Answer H)) :=
  cfg.getUnfilteredLogsFrom toBlock answers fromBlock (toBlock + 1 - fromBlock) []

/-- `GetBlockHeader`. -/
def getBlockHeader (blockNum : ℕ) :
    List (Answer H) → Option (EVMBlockHeader H × List (Answer H))
  | [] => none
  | a :: answers =>
    match a.fault (.headerByNumber blockNum) with
    | none => some (a.node.header blockNum, answers)
    | some _ => getBlockHeader blockNum answers

/-- The loop that calls `appenderFn` until it succeeds. -/
def appendLog (l : Log H) : List (Answer H) → Option (List (Answer H))
  | [] => none
  | a :: answers =>
    match a.fault (.appendLog l) with
    | none => some answers
    | some _ => appendLog l answers

section fetch

variable [DecidableEq H]

/-- `filterLogs`. `l.Topics[0]` of a log without topics ends the process. -/
def Config.filterLogs (cfg : Config H) : List (Log H) → Option (List (Log H))
  | [] => some []
  | l :: logs =>
    if l.removed then cfg.filterLogs logs
    else
      match l.topics with
      | [] => none
      | topic :: _ =>
        (cfg.filterLogs logs).map fun filteredLogs =>
          if cfg.topicsToQuery.contains topic then l :: filteredLogs else filteredLogs

section

omit [DecidableEq H]

/-- `latestBlock == nil || latestBlock.Num < l.BlockNumber`. -/
def startsBlock (blocks : List (EVMBlock H)) (l : Log H) : Bool :=
  match blocks.getLast? with
  | none => true
  | some latestBlock => latestBlock.num < l.blockNumber

/-- The block of a log, with that log. -/
def newBlock (header : EVMBlockHeader H) (l : Log H) : EVMBlock H where
  num := l.blockNumber
  hash := l.blockHash
  parentHash := header.parentHash
  timestamp := header.timestamp
  isFinalizedBlock := false
  events := [l]

/-- Append a log to the latest block. -/
def pushEvent : List (EVMBlock H) → Log H → List (EVMBlock H)
  | [], _ => []
  | [b], l => [{ b with events := b.events ++ [l] }]
  | b :: blocks, l => b :: pushEvent blocks l

/-- How the loop of `getEventsByBlockRangeWithRetry` over the logs ends. -/
inductive Assembled (H : Type) where
  | blocks (blocks : List (EVMBlock H))
  /-- A block has another hash than its log. -/
  | hashChange

/-- The loop of `getEventsByBlockRangeWithRetry` over the logs. -/
def assemble : List (Log H) → List (EVMBlock H) → List (Answer H) →
    Option (Assembled H × List (Answer H))
  | [], blocks, answers => some (.blocks blocks, answers)
  | l :: logs, blocks, answers =>
    if startsBlock blocks l then
      match getBlockHeader l.blockNumber answers with
      | none => none
      | some (b, answers₁) =>
        if b.hash ≠ l.blockHash then some (.hashChange, answers₁)
        else
          match appendLog l answers₁ with
          | none => none
          | some answers₂ => assemble logs (blocks ++ [newBlock b l]) answers₂
    else
      match appendLog l answers with
      | none => none
      | some answers₁ => assemble logs (pushEvent blocks l) answers₁

/-- The hook, if there is one. -/
def Config.applyLogsHook (cfg : Config H) (fromBlock toBlock : ℕ) (logs : List (Log H)) :
    List (Log H) :=
  match cfg.logsHook with
  | none => logs
  | some hook => hook fromBlock toBlock logs

end

/-- One attempt of `getEventsByBlockRangeWithRetry`. -/
def Config.attempt (cfg : Config H) (fromBlock toBlock : ℕ) (answers : List (Answer H)) :
    Option (Assembled H × List (Answer H)) :=
  match cfg.getUnfilteredLogs fromBlock toBlock answers with
  | none => none
  | some (unfilteredLogs, answers₁) =>
    match cfg.filterLogs unfilteredLogs with
    | none => none
    | some logs => assemble (cfg.applyLogsHook fromBlock toBlock logs) [] answers₁

/-- `getEventsByBlockRangeWithRetry`, with the number of retries that are left. -/
def Config.getEventsWithRetry (cfg : Config H) (fromBlock toBlock : ℕ) :
    ℕ → List (Answer H) → Option (List (EVMBlock H) × List (Answer H))
  | retries, answers =>
    match cfg.attempt fromBlock toBlock answers with
    | none => none
    | some (.blocks blocks, answers₁) => some (blocks, answers₁)
    | some (.hashChange, answers₁) =>
      match retries with
      | 0 => some ([], answers₁)
      | retries + 1 => cfg.getEventsWithRetry fromBlock toBlock retries answers₁

/-- `GetEventsByBlockRange`. -/
def Config.getEventsByBlockRange (cfg : Config H) (fromBlock toBlock : ℕ)
    (answers : List (Answer H)) : Option (List (EVMBlock H) × List (Answer H)) :=
  cfg.getEventsWithRetry fromBlock toBlock MaxRetryCountBlockHashMismatch answers

end fetch

/-! ## The main loop -/

/-- The sum of two `uint64`. -/
def add64 (a b : ℕ) : ℕ := (a + b) % 2^64

/-- The difference of two `uint64`. -/
def sub64 (a b : ℕ) : ℕ := (2^64 + a - b) % 2^64

/-- One round of `WaitForNewBlocks`: the tip of the node and what the reorg detector tracks for its
number, `none` for an error. -/
structure Poll (H : Type) where
  header : Option (ℕ × H)
  tracked : Option (Option H)

/-- `WaitForNewBlocks`. -/
def Config.waitForNewBlocks [DecidableEq H] (cfg : Config H) (latestSyncedBlock : ℕ) :
    List (Poll H) → Option ℕ
  | [] => none
  | poll :: polls =>
    match poll.header with
    | none => cfg.waitForNewBlocks latestSyncedBlock polls
    | some (blockNumber, headerHash) =>
      if latestSyncedBlock < blockNumber then some blockNumber
      else
        match cfg.reorgDetector, poll.tracked with
        | true, some (some trackedHash) =>
          if trackedHash ≠ headerHash then some blockNumber
          else cfg.waitForNewBlocks latestSyncedBlock polls
        | _, _ => cfg.waitForNewBlocks latestSyncedBlock polls

/-- The variables of `Download`, and the blocks on the channel. -/
structure State (H : Type) where
  fromBlock : ℕ
  toBlock : ℕ
  lastBlock : ℕ
  reachTop : Bool
  initialBlockSent : Bool
  sent : List (EVMBlock H)
  /-- `Download` has returned. -/
  closed : Bool

/-- What an iteration reads: the tips while it waits, the finalized block (`none` for an error), and
the answers of the node. -/
structure Input (H : Type) where
  polls : List (Poll H)
  finalized : Option ℕ
  answers : List (Answer H)

/-- `fromBlock + d.syncBlockChunkSize`, at most `*lastBlockNum`. -/
def Config.rangeEnd (cfg : Config H) (fromBlock : ℕ) : ℕ :=
  match cfg.lastBlockNum with
  | none => add64 fromBlock cfg.syncBlockChunkSize
  | some lastBlockNum => min (add64 fromBlock cfg.syncBlockChunkSize) lastBlockNum

/-- `Download` up to its loop. -/
def Config.start [DecidableEq H] (cfg : Config H) (polls : List (Poll H)) : Option (State H) :=
  (cfg.waitForNewBlocks 0 polls).map fun lastBlock =>
    { fromBlock := cfg.initialFromBlock
      toBlock := cfg.rangeEnd cfg.initialFromBlock
      lastBlock := lastBlock
      reachTop := false
      initialBlockSent := !cfg.includeEmptyFirstBlock
      sent := []
      closed := false }

/-- The condition to wait. -/
def State.mustWait (s : State H) : Bool :=
  s.lastBlock < s.fromBlock || (s.reachTop && s.lastBlock ≤ s.toBlock)

/-- The state after the new tip is read. -/
def State.setLastBlock (cfg : Config H) (s : State H) (lastBlock : ℕ) : State H :=
  { s with
    lastBlock := lastBlock
    toBlock := if sub64 s.fromBlock s.toBlock < cfg.syncBlockChunkSize then
      cfg.rangeEnd s.fromBlock else s.toBlock }

/-- The part of an iteration that waits. -/
def State.wait [DecidableEq H] (cfg : Config H) (s : State H) (polls : List (Poll H)) :
    Option (State H) :=
  if s.mustWait then (cfg.waitForNewBlocks s.lastBlock polls).map (s.setLastBlock cfg) else some s

/-- `requestToBlock`. -/
def State.requestToBlock (cfg : Config H) (s : State H) : ℕ :=
  match cfg.lastBlockNum with
  | none => min s.toBlock s.lastBlock
  | some lastBlockNum => min (min s.toBlock s.lastBlock) lastBlockNum

/-- The value of `reachTop` for the request. -/
def State.atTop (s : State H) : Bool := s.lastBlock ≤ s.toBlock

/-- `reportBlocks`. -/
def reportBlocks (blocks : List (EVMBlock H)) (lastFinalizedBlock : ℕ) : List (EVMBlock H) :=
  blocks.map fun b => { b with isFinalizedBlock := decide (b.num ≤ lastFinalizedBlock) }

/-- `reportEmptyBlock`: the blocks that are sent, one or none. -/
def reportEmptyBlock (blockNum minBlock lastFinalizedBlock : ℕ) (answers : List (Answer H)) :
    Option (List (EVMBlock H) × List (Answer H)) :=
  (getBlockHeader blockNum answers).map fun (header, answers₁) =>
    if header.num ≠ blockNum ∧ header.num < minBlock then ([], answers₁)
    else
      ([{ header with isFinalizedBlock := decide (header.num ≤ lastFinalizedBlock), events := [] }],
        answers₁)

/-- What the forced report of the first block comes to. -/
inductive Initial (H : Type) where
  /-- Nothing to do. -/
  | later
  /-- The first block is one of the blocks with events. -/
  | inBlocks
  /-- `preReportedInitial` -/
  | preReported (b : EVMBlock H)
  /-- The first block cannot be reported. -/
  | missing

/-- The forced report of the first block. -/
def State.reportInitial (cfg : Config H) (s : State H) (blocks : List (EVMBlock H))
    (lastFinalizedBlock : ℕ) (answers : List (Answer H)) :
    Option (Initial H × List (Answer H)) :=
  if s.initialBlockSent || s.requestToBlock cfg < cfg.initialFromBlock then some (.later, answers)
  else if blocks.any fun b => b.num = cfg.initialFromBlock then some (.inBlocks, answers)
  else
    (reportEmptyBlock cfg.initialFromBlock cfg.initialFromBlock lastFinalizedBlock answers).map
      fun (sent, answers₁) =>
        match sent with
        | [] => (.missing, answers₁)
        | b :: _ => (.preReported b, answers₁)

/-- What the rest of an iteration sends, and the range it leaves. -/
structure Report (H : Type) where
  sent : List (EVMBlock H)
  fromBlock : ℕ
  toBlock : ℕ

/-- The range that starts after a block. -/
def Config.after (cfg : Config H) (sent : List (EVMBlock H)) (block : ℕ) : Report H :=
  ⟨sent, add64 block 1, cfg.rangeEnd (add64 block 1)⟩

/-- Report an empty block unless it was reported as the first one, and go on after it. -/
def Config.reportEmptyAndAdvance (cfg : Config H) (preReported : Bool) (blocks : List (EVMBlock H))
    (blockNum minBlock lastFinalizedBlock : ℕ) (answers : List (Answer H)) : Option (Report H) :=
  if preReported && decide (blockNum = cfg.initialFromBlock) then some (cfg.after blocks blockNum)
  else
    (reportEmptyBlock blockNum minBlock lastFinalizedBlock answers).map fun (sent, _) =>
      cfg.after (blocks ++ sent) blockNum

/-- The reports of an iteration whose range is finalized. -/
def State.reportSafe (cfg : Config H) (s : State H) (preReported : Bool)
    (blocks : List (EVMBlock H)) (lastFinalizedBlock : ℕ) (answers : List (Answer H)) :
    Option (Report H) :=
  let requestToBlock := s.requestToBlock cfg
  match blocks.getLast? with
  | none => cfg.reportEmptyAndAdvance preReported [] requestToBlock s.fromBlock lastFinalizedBlock
      answers
  | some last =>
    if last.num < requestToBlock then
      cfg.reportEmptyAndAdvance preReported (reportBlocks blocks lastFinalizedBlock) requestToBlock
        (max s.fromBlock (last.num + 1)) lastFinalizedBlock answers
    else some (cfg.after (reportBlocks blocks lastFinalizedBlock) requestToBlock)

/-- The reports of an iteration whose range is not finalized. -/
def State.reportUnsafe (cfg : Config H) (s : State H) (preReported : Bool)
    (blocks : List (EVMBlock H)) (lastFinalizedBlock : ℕ) (answers : List (Answer H)) :
    Option (Report H) :=
  match blocks.getLast? with
  | some last => some (cfg.after (reportBlocks blocks lastFinalizedBlock) last.num)
  | none =>
    if s.fromBlock ≤ lastFinalizedBlock then
      cfg.reportEmptyAndAdvance preReported [] lastFinalizedBlock s.fromBlock lastFinalizedBlock
        answers
    else if s.atTop then
      cfg.reportEmptyAndAdvance preReported [] (s.requestToBlock cfg) s.fromBlock
        lastFinalizedBlock answers
    else if cfg.lastBlockNum.isNone then
      some ⟨[], s.fromBlock, add64 s.toBlock cfg.syncBlockChunkSize⟩
    else some ⟨[], s.fromBlock, s.toBlock⟩

/-- The reports of an iteration. -/
def State.report (cfg : Config H) (s : State H) (preReported : Bool) (blocks : List (EVMBlock H))
    (lastFinalizedBlock : ℕ) (answers : List (Answer H)) : Option (Report H) :=
  if s.requestToBlock cfg ≤ lastFinalizedBlock then
    s.reportSafe cfg preReported blocks lastFinalizedBlock answers
  else s.reportUnsafe cfg preReported blocks lastFinalizedBlock answers

/-- The conditions to return at the end of an iteration. -/
def State.stops (cfg : Config H) (s : State H) (fromBlock lastFinalizedBlock : ℕ) : Bool :=
  (match cfg.lastBlockNum with
    | none => false
    | some lastBlockNum => lastBlockNum < fromBlock || lastBlockNum ≤ s.requestToBlock cfg) ||
  (cfg.stopOnFinalizedBlockReached && lastFinalizedBlock ≤ fromBlock)

/-- The state after the reports. -/
def State.finish (cfg : Config H) (s : State H) (sentInitial : List (EVMBlock H))
    (initialBlockSent : Bool) (lastFinalizedBlock : ℕ) (r : Report H) : State H where
  fromBlock := r.fromBlock
  toBlock := r.toBlock
  lastBlock := s.lastBlock
  reachTop := s.atTop
  initialBlockSent := initialBlockSent
  sent := s.sent ++ sentInitial ++ r.sent
  closed := s.stops cfg r.fromBlock lastFinalizedBlock

/-- An iteration after the finalized block is read. -/
def State.sync [DecidableEq H] (cfg : Config H) (s : State H) (lastFinalizedBlock : ℕ)
    (answers : List (Answer H)) : Option (State H) :=
  match cfg.getEventsByBlockRange s.fromBlock (s.requestToBlock cfg) answers with
  | none => none
  | some (blocks, answers₁) =>
    match s.reportInitial cfg blocks lastFinalizedBlock answers₁ with
    | none => none
    | some (.missing, _) => some { s with reachTop := s.atTop, closed := true }
    | some (.preReported b, answers₂) =>
      (s.report cfg true blocks lastFinalizedBlock answers₂).map
        (s.finish cfg [b] true lastFinalizedBlock)
    | some (.inBlocks, answers₂) =>
      (s.report cfg false blocks lastFinalizedBlock answers₂).map
        (s.finish cfg [] true lastFinalizedBlock)
    | some (.later, answers₂) =>
      (s.report cfg false blocks lastFinalizedBlock answers₂).map
        (s.finish cfg [] s.initialBlockSent lastFinalizedBlock)

/-- One iteration of `Download`; `none` when `Download` has returned or a call has not. -/
def State.iterate [DecidableEq H] (cfg : Config H) (s : State H) (input : Input H) :
    Option (State H) :=
  if s.closed then none
  else
    match s.wait cfg input.polls with
    | none => none
    | some s₁ =>
      match input.finalized with
      | none => some { s₁ with reachTop := false }
      | some lastFinalizedBlock =>
        s₁.sync cfg (min s₁.lastBlock lastFinalizedBlock) input.answers

end AggKit.Sync
