import AggKit.MultiDownloader.SetSyncSegment
import Mathlib.Order.Nat

/-!
# The database of the multidownloader (`multidownloader/storage`)

The blocks and logs that were downloaded, the synced range of each contract, and, for each reorg that
was found, the blocks that it took off the chain. The block number alone is the key of the table
`blocks`, whatever contracts a block was downloaded for, and a log references its block.
-/

namespace AggKit.MultiDownloader

open Table SetSyncSegment List BlockRange

/-- `BlockHeader`. -/
structure BlockHeader (H : Type) where
  number : ℕ
  hash : H
  time : ℕ
  parentHash : Option H
deriving DecidableEq

/-- `types.Log`. -/
structure Log (A H : Type) where
  address : A
  topics : List H
  data : List UInt8
  blockNumber : ℕ
  txHash : H
  txIndex : ℕ
  blockHash : H
  index : ℕ
deriving DecidableEq

/-- `logRow`, a row of the table `logs`. -/
structure LogRow (A H : Type) where
  address : A
  topics : List H
  data : List UInt8
  blockNumber : ℕ
  txHash : H
  txIndex : ℕ
  index : ℕ
deriving DecidableEq

/-- `blockRow`, a row of the table `blocks`. -/
structure BlockRow (H : Type) where
  header : BlockHeader H
  isFinal : Bool
deriving DecidableEq

/-- `syncStatusRow`, a row of the table `sync_status`. -/
structure SyncStatusRow (A : Type) where
  address : A
  syncedFromBlock : ℕ
  syncedToBlock : ℕ
deriving DecidableEq

/-- `reorgRow`, a row of the table `reorgs`. -/
structure ReorgRow where
  reorgID : ℕ
  reorgedFromBlock : ℕ
  reorgedToBlock : ℕ
deriving DecidableEq

/-- A row of the table `blocks_reorged`. -/
structure BlockReorgedRow (H : Type) where
  reorgID : ℕ
  blockNumber : ℕ
  blockHash : H
  blockParentHash : H
  blockTimestamp : ℕ
deriving DecidableEq

variable {A H : Type}

/-- `NewLogRowFromEthLog`. -/
def Log.toRow (l : Log A H) : LogRow A H :=
  ⟨l.address, l.topics, l.data, l.blockNumber, l.txHash, l.txIndex, l.index⟩

/-- The primary key of `logs`. -/
def LogRow.key (r : LogRow A H) : A × ℕ × ℕ := (r.address, r.blockNumber, r.index)

/-- The primary key of `blocks`. -/
def BlockRow.number (r : BlockRow H) : ℕ := r.header.number

/-- The primary key of `blocks_reorged`. -/
def BlockReorgedRow.key (r : BlockReorgedRow H) : ℕ × ℕ := (r.reorgID, r.blockNumber)

/-- The tables of the database. -/
@[ext]
structure Storage (A H : Type) where
  logs : Keyed (LogRow.key (A := A) (H := H))
  blocks : Keyed (BlockRow.number (H := H))
  syncStatus : Keyed (SyncStatusRow.address (A := A))
  reorgs : Keyed ReorgRow.reorgID
  blocksReorged : Keyed (BlockReorgedRow.key (H := H))

/-- Why a statement fails. -/
inductive StorageError (A : Type) where
  /-- `saveBlocksNoMutex: error inserting block header row` -/
  | insertBlock (number : ℕ)
  /-- `saveLogsNoMutex: error inserting eth log` -/
  | insertLog (address : A) (blockNumber index : ℕ)
  /-- `UpdateSyncedStatus: invalid segment` -/
  | invalidSegment (contractAddr : A)
  /-- `no rows updated for contract` -/
  | noRowsUpdated (contractAddr : A)
  /-- `InsertNewReorg: error inserting reorgs` -/
  | insertReorg (reorgID : ℕ)
  /-- `moveReorgedBlocks: error moving reorged blocks to block_reorged` -/
  | moveReorged (number : ℕ)
deriving DecidableEq

namespace Storage

/-- The tables of a new database. -/
def empty : Storage A H := ⟨Keyed.empty, Keyed.empty, Keyed.empty, Keyed.empty, Keyed.empty⟩

/-- `GetBlockHeaderByNumber`, with the flag. -/
def getBlockHeaderByNumber (st : Storage A H) (blockNumber : ℕ) : Option (BlockRow H) :=
  st.blocks.rows.find? fun r => decide (r.number = blockNumber)

/-- `GetHighestBlockNumber`. -/
def getHighestBlockNumber (st : Storage A H) : ℕ :=
  (st.blocks.rows.map BlockRow.number).foldr max 0

/-- `GetBlockHeadersNotFinalized`, in the order of `BlockNumbers`. -/
def getBlockHeadersNotFinalized (st : Storage A H) (maxBlock : Option ℕ) : List (BlockHeader H) :=
  orderBy BlockHeader.number <| (st.blocks.rows.filter fun r => !r.isFinal && match maxBlock with
    | none => true
    | some maxBlock => decide (r.number ≤ maxBlock)).map BlockRow.header

/-- `UpdateBlockToFinalized`. -/
def updateBlockToFinalized (st : Storage A H) (blockNumbers : List ℕ) : Storage A H :=
  { st with
    blocks := st.blocks.map
      (fun r => if r.number ∈ blockNumbers then { r with isFinal := true } else r)
      fun r => by split <;> rfl }

/-- The rows that `NewBlockRowsFromAggkitBlock` makes, with those it has already. -/
def addBlockRows (isFinal : Bool) (t : Keyed (BlockRow.number (H := H)))
    (blockHeaders : List (BlockHeader H)) : Keyed (BlockRow.number (H := H)) :=
  blockHeaders.foldl (fun t header => t.upsert ⟨header, isFinal⟩) t

/-- `NewBlockRowsFromAggkitBlock`: one row for each number, the last one given. -/
def newBlockRows (blockHeaders : List (BlockHeader H)) (isFinal : Bool) : List (BlockRow H) :=
  (addBlockRows isFinal Keyed.empty blockHeaders).rows

/-- `saveBlocksNoMutex`. -/
def saveBlocks : List (BlockRow H) → Storage A H → Except (StorageError A) (Storage A H)
  | [], st => .ok st
  | row :: rows, st =>
    match st.blocks.insert row with
    | none => .error (.insertBlock row.number)
    | some blocks => saveBlocks rows { st with blocks }

/-- `ToSyncSegment`: the range `[0, 0]` stands for the empty range. -/
def toSyncSegment (r : SyncStatusRow A) : SyncSegment A where
  contractAddr := r.address
  blockRange :=
    if r.syncedFromBlock = 0 ∧ r.syncedToBlock = 0 then .zero
    else .new r.syncedFromBlock r.syncedToBlock

/-- The rows of `blocks` in a range of numbers. -/
def blocksIn (st : Storage A H) (fromBlock toBlock : ℕ) : List (BlockRow H) :=
  st.blocks.rows.filter fun r => decide (fromBlock ≤ r.number) && decide (r.number ≤ toBlock)

/-- The first `INSERT` of `moveReorgedBlocksAndLogsNoMutex`; the column `block_parent_hash` of
`blocks_reorged` is not null. -/
def insertReorged (reorgID : ℕ) : List (BlockRow H) → Storage A H →
    Except (StorageError A) (Storage A H)
  | [], st => .ok st
  | row :: rows, st =>
    match row.header.parentHash with
    | none => .error (.moveReorged row.number)
    | some parentHash =>
      match st.blocksReorged.insert
          ⟨reorgID, row.number, row.header.hash, parentHash, row.header.time⟩ with
      | none => .error (.moveReorged row.number)
      | some blocksReorged => insertReorged reorgID rows { st with blocksReorged }

/-- `moveReorgedBlocksAndLogsNoMutex`. -/
def moveReorgedBlocksAndLogs (st : Storage A H) (reorgID fromBlock toBlock : ℕ) :
    Except (StorageError A) (Storage A H) := do
  let st' ← insertReorged reorgID (st.blocksIn fromBlock toBlock) st
  .ok { st' with
    logs := st'.logs.deleteWhere fun r =>
      decide (fromBlock ≤ r.blockNumber) && decide (r.blockNumber ≤ toBlock)
    blocks := st'.blocks.deleteWhere fun r =>
      decide (fromBlock ≤ r.number) && decide (r.number ≤ toBlock) }

/-- `adjustSyncStatusForReorgNoMutex`. -/
def adjustSyncStatusForReorg (st : Storage A H) (fromBlock : ℕ) : Storage A H :=
  { st with
    syncStatus := st.syncStatus.map
      (fun r => if r.syncedToBlock ≥ fromBlock then { r with syncedToBlock := fromBlock - 1 } else r)
      fun r => by split <;> rfl }

/-- `InsertReorgAndMoveReorgedBlocksAndLogs`. -/
def insertReorgAndMoveReorgedBlocksAndLogs (st : Storage A H) (fromBlock toBlock : ℕ) :
    Except (StorageError A) (Storage A H) :=
  let reorgID := (st.reorgs.rows.map ReorgRow.reorgID).foldr max 0 + 1
  match st.reorgs.insert ⟨reorgID, fromBlock, toBlock⟩ with
  | none => .error (.insertReorg reorgID)
  | some reorgs => do
    let st' ← { st with reorgs }.moveReorgedBlocksAndLogs reorgID fromBlock toBlock
    .ok (st'.adjustSyncStatusForReorg fromBlock)

/-- `GetReorgedDataByReorgID`. -/
def getReorgedDataByReorgID (st : Storage A H) (reorgID : ℕ) : Option ReorgRow :=
  st.reorgs.rows.find? fun r => decide (r.reorgID = reorgID)

/-- `GetBlockReorgedReorgID`: of the reorgs that took the block off the chain, the one that starts
lowest. -/
def getBlockReorgedReorgID [DecidableEq H] (st : Storage A H) (blockNumber : ℕ) (blockHash : H) :
    Option ℕ :=
  ((orderBy ReorgRow.reorgedFromBlock <| (st.blocksReorged.rows.filter fun r =>
    decide (r.blockNumber = blockNumber) && decide (r.blockHash = blockHash)).filterMap fun r =>
      st.getReorgedDataByReorgID r.reorgID).head?).map ReorgRow.reorgID

variable {st : Storage A H} {row : BlockRow H}

theorem getBlockHeaderByNumber_eq_some_iff {blockNumber : ℕ} :
    st.getBlockHeaderByNumber blockNumber = some row ↔
      row ∈ st.blocks.rows ∧ row.number = blockNumber :=
  Keyed.find?_eq_some_iff

variable {rows : List (BlockRow H)} {st' : Storage A H}

/-- The blocks are appended and nothing else changes. -/
theorem saveBlocks_spec (h : saveBlocks rows st = .ok st') :
    st'.blocks.rows = st.blocks.rows ++ rows ∧ st'.logs = st.logs ∧
      st'.syncStatus = st.syncStatus ∧ st'.reorgs = st.reorgs ∧
      st'.blocksReorged = st.blocksReorged := by
  induction rows generalizing st with
  | nil =>
    cases h
    simp
  | cons row rows ih =>
    unfold saveBlocks at h
    split at h
    · cases h
    rename_i blocks hins
    obtain ⟨hblocks, hrest⟩ := ih h
    refine ⟨?_, hrest⟩
    rw [hblocks, (Keyed.insert_eq_some_iff.mp hins).2, append_assoc, singleton_append]

/-- Blocks with new and distinct numbers are saved. -/
theorem exists_saveBlocks (hfresh : ∀ r ∈ rows, ∀ s ∈ st.blocks.rows, s.number ≠ r.number)
    (hnodup : (rows.map BlockRow.number).Nodup) : ∃ st', saveBlocks rows st = .ok st' := by
  induction rows generalizing st with
  | nil => exact ⟨st, rfl⟩
  | cons row rows ih =>
    obtain ⟨hrow, hrows⟩ := forall_mem_cons.mp hfresh
    rw [map_cons, nodup_cons] at hnodup
    obtain ⟨blocks, hins, happend⟩ := Keyed.exists_insert hrow
    obtain ⟨st', hst'⟩ := @ih { st with blocks }
      (Keyed.fresh_of_insert happend hrows hnodup.1) hnodup.2
    refine ⟨st', ?_⟩
    rw [saveBlocks, hins]
    exact hst'

variable {blockHeaders : List (BlockHeader H)} {isFinal : Bool}

theorem exists_of_mem_addBlockRows {t : Keyed (BlockRow.number (H := H))}
    (h : row ∈ (addBlockRows isFinal t blockHeaders).rows) :
    row ∈ t.rows ∨ row.header ∈ blockHeaders ∧ row.isFinal = isFinal := by
  induction blockHeaders generalizing t with
  | nil => exact .inl h
  | cons header headers ih =>
    rcases ih h with hmem | ⟨hmem, hfinal⟩
    · rcases Keyed.mem_upsert.mp hmem with rfl | ⟨hmem, -⟩
      · exact .inr ⟨mem_cons_self, rfl⟩
      · exact .inl hmem
    · exact .inr ⟨mem_cons_of_mem header hmem, hfinal⟩

/-- Every row is of one of the headers. -/
theorem exists_of_mem_newBlockRows (h : row ∈ newBlockRows blockHeaders isFinal) :
    row.header ∈ blockHeaders ∧ row.isFinal = isFinal :=
  (exists_of_mem_addBlockRows h).resolve_left not_mem_nil

theorem exists_mem_addBlockRows (isFinal : Bool) {t : Keyed (BlockRow.number (H := H))} {number : ℕ}
    (h : (∃ header ∈ blockHeaders, header.number = number) ∨ ∃ r ∈ t.rows, r.number = number) :
    ∃ row ∈ (addBlockRows isFinal t blockHeaders).rows, row.number = number := by
  induction blockHeaders generalizing t with
  | nil => exact h.resolve_left (by simp)
  | cons header headers ih =>
    refine @ih (t.upsert ⟨header, isFinal⟩) ?_
    by_cases hnumber : header.number = number
    · exact .inr ⟨⟨header, isFinal⟩, Keyed.mem_upsert.mpr (.inl rfl), hnumber⟩
    · rcases h with ⟨header', hmem, hkey⟩ | ⟨r, hr, hkey⟩
      · rcases mem_cons.mp hmem with rfl | hmem
        · exact absurd hkey hnumber
        · exact .inl ⟨header', hmem, hkey⟩
      · refine .inr ⟨r, Keyed.mem_upsert.mpr (.inr ⟨hr, fun heq => ?_⟩), hkey⟩
        exact hnumber (heq.symm.trans hkey)

/-- Every number of the headers has a row. -/
theorem exists_mem_newBlockRows (isFinal : Bool) {header : BlockHeader H}
    (h : header ∈ blockHeaders) :
    ∃ row ∈ newBlockRows blockHeaders isFinal, row.number = header.number :=
  exists_mem_addBlockRows isFinal (.inl ⟨header, h, rfl⟩)

theorem nodup_newBlockRows (blockHeaders : List (BlockHeader H)) (isFinal : Bool) :
    ((newBlockRows blockHeaders isFinal).map BlockRow.number).Nodup :=
  Keyed.nodup _

theorem insertReorged_spec {reorgID : ℕ} (h : insertReorged reorgID rows st = .ok st') :
    st'.logs = st.logs ∧ st'.blocks = st.blocks ∧ st'.syncStatus = st.syncStatus ∧
      st'.reorgs = st.reorgs ∧ ∃ moved : List (BlockReorgedRow H),
        st'.blocksReorged.rows = st.blocksReorged.rows ++ moved ∧
        moved.map (fun r => (r.reorgID, r.blockNumber, r.blockHash)) =
          rows.map fun r => (reorgID, r.number, r.header.hash) := by
  induction rows generalizing st with
  | nil =>
    cases h
    exact ⟨rfl, rfl, rfl, rfl, [], by simp⟩
  | cons row rows ih =>
    unfold insertReorged at h
    split at h
    · cases h
    rename_i parentHash hparent
    split at h
    · cases h
    · rename_i blocksReorged hins
      obtain ⟨hlogs, hblocks, hsync, hreorgs, moved, hrows, hmoved⟩ := ih h
      refine ⟨hlogs, hblocks, hsync, hreorgs,
        ⟨reorgID, row.number, row.header.hash, parentHash, row.header.time⟩ :: moved, ?_, ?_⟩
      · rw [hrows, (Keyed.insert_eq_some_iff.mp hins).2, append_assoc,
          singleton_append]
      · rw [map_cons, map_cons, hmoved]

/-- The reorg from `fromBlock` to `toBlock` turns `st` into `st'`. -/
structure Reorged (st st' : Storage A H) (fromBlock toBlock : ℕ) : Prop where
  logs : st'.logs = st.logs.deleteWhere fun r =>
    decide (fromBlock ≤ r.blockNumber) && decide (r.blockNumber ≤ toBlock)
  blocks : st'.blocks = st.blocks.deleteWhere fun r =>
    decide (fromBlock ≤ r.number) && decide (r.number ≤ toBlock)
  syncStatus : st'.syncStatus.rows = st.syncStatus.rows.map fun r =>
    if r.syncedToBlock ≥ fromBlock then { r with syncedToBlock := fromBlock - 1 } else r
  reorgs : ∃ reorgID, (∀ r ∈ st.reorgs.rows, r.reorgID < reorgID) ∧
    st'.reorgs.rows = st.reorgs.rows ++ [⟨reorgID, fromBlock, toBlock⟩] ∧
    ∃ moved : List (BlockReorgedRow H),
      st'.blocksReorged.rows = st.blocksReorged.rows ++ moved ∧
      moved.map (fun r => (r.reorgID, r.blockNumber, r.blockHash)) =
        (st.blocksIn fromBlock toBlock).map fun r => (reorgID, r.number, r.header.hash)

variable {fromBlock : ℕ} {toBlock : ℕ}

/-- `InsertReorgAndMoveReorgedBlocksAndLogs`. -/
theorem insertReorgAndMoveReorgedBlocksAndLogs_spec
    (h : st.insertReorgAndMoveReorgedBlocksAndLogs fromBlock toBlock = .ok st') :
    Reorged st st' fromBlock toBlock := by
  unfold insertReorgAndMoveReorgedBlocksAndLogs at h
  simp only at h
  have hmax : ∀ r ∈ st.reorgs.rows,
      r.reorgID ≤ (st.reorgs.rows.map ReorgRow.reorgID).foldr max 0 := fun r hr =>
    le_max_of_le (mem_map_of_mem hr) (Nat.le_refl _)
  generalize (st.reorgs.rows.map ReorgRow.reorgID).foldr max 0 = last at h hmax
  split at h
  · cases h
  rename_i reorgs hins
  obtain ⟨st1, hmove, hadjust⟩ := Exec.except_bind_ok.mp h
  obtain ⟨st2, hinsert, hdelete⟩ := Exec.except_bind_ok.mp hmove
  obtain ⟨hlogs, hblocks, hsync, hreorgs, moved, hrows, hmoved⟩ := insertReorged_spec hinsert
  cases hdelete
  cases hadjust
  refine ⟨?_, ?_, ?_, last + 1, ?_, ?_, moved, hrows, hmoved⟩
  · simp only [adjustSyncStatusForReorg, hlogs]
  · simp only [adjustSyncStatusForReorg, hblocks]
  · simp only [adjustSyncStatusForReorg, Keyed.rows_map, hsync]
  · intro r hr
    have := hmax r hr
    omega
  · simp only [adjustSyncStatusForReorg, hreorgs]
    exact (Keyed.insert_eq_some_iff.mp hins).2

theorem le_getHighestBlockNumber {r : BlockRow H} (h : r ∈ st.blocks.rows) :
    r.number ≤ st.getHighestBlockNumber :=
  le_max_of_le (mem_map_of_mem h) (Nat.le_refl _)

variable [DecidableEq A]

/-- `meddler.Insert` into `logs`: the key must be new and the block must be there. -/
def insertLog (st : Storage A H) (row : LogRow A H) : Except (StorageError A) (Storage A H) :=
  match st.logs.insert row with
  | none => .error (.insertLog row.address row.blockNumber row.index)
  | some logs =>
    if (st.getBlockHeaderByNumber row.blockNumber).isSome then .ok { st with logs }
    else .error (.insertLog row.address row.blockNumber row.index)

/-- `saveLogsNoMutex`. -/
def saveLogs : List (LogRow A H) → Storage A H → Except (StorageError A) (Storage A H)
  | [], st => .ok st
  | row :: rows, st => do
    let st' ← st.insertLog row
    saveLogs rows st'

/-- `SaveEthLogsWithHeaders`. -/
def saveEthLogsWithHeaders (st : Storage A H) (blockHeaders : List (BlockHeader H))
    (logs : List (Log A H)) (isFinal : Bool) : Except (StorageError A) (Storage A H) := do
  let st' ← saveBlocks (newBlockRows blockHeaders isFinal) st
  saveLogs (logs.map Log.toRow) st'

/-- The `UPDATE` of `UpdateSyncedStatus`, on one row. -/
def writeSynced (addr : A) (br : BlockRange) (r : SyncStatusRow A) : SyncStatusRow A :=
  if r.address = addr then ⟨r.address, br.fromBlock, br.toBlock⟩ else r

theorem address_writeSynced (addr : A) (br : BlockRange) (r : SyncStatusRow A) :
    (writeSynced addr br r).address = r.address := by
  unfold writeSynced
  split <;> rfl

/-- One round of the loop of `UpdateSyncedStatus`. -/
def updateSyncedSegment (st : Storage A H) (segment : SyncSegment A) :
    Except (StorageError A) (Storage A H) :=
  if segment.isValid then
    let br := if segment.blockRange.isEmpty then BlockRange.zero else segment.blockRange
    if st.syncStatus.rows.any fun r => decide (r.address = segment.contractAddr) then
      .ok { st with
        syncStatus := st.syncStatus.map (writeSynced segment.contractAddr br)
          (address_writeSynced segment.contractAddr br) }
    else .error (.noRowsUpdated segment.contractAddr)
  else .error (.invalidSegment segment.contractAddr)

/-- `UpdateSyncedStatus`. -/
def updateSyncedStatus : List (SyncSegment A) → Storage A H →
    Except (StorageError A) (Storage A H)
  | [], st => .ok st
  | segment :: segments, st => do
    let st' ← st.updateSyncedSegment segment
    updateSyncedStatus segments st'

/-- `UpsertSyncerConfigs`, for the contracts of the configuration: a contract that has a row keeps
its synced range. -/
def upsertSyncerConfigs (st : Storage A H) (contracts : List A) : Storage A H :=
  { st with
    syncStatus := contracts.foldl (fun t addr => (t.insert ⟨addr, 0, 0⟩).getD t) st.syncStatus }

/-- `GetSyncedBlockRangePerContract`. -/
def getSyncedBlockRangePerContract (st : Storage A H) : SetSyncSegment A :=
  st.syncStatus.rows.foldl (fun s r => add s (toSyncSegment r)) Keyed.empty

theorem insertLog_eq_ok_iff {row : LogRow A H} :
    st.insertLog row = .ok st' ↔ ∃ logs, st.logs.insert row = some logs ∧
      (∃ b ∈ st.blocks.rows, b.number = row.blockNumber) ∧ st' = { st with logs } := by
  have hblock : (st.getBlockHeaderByNumber row.blockNumber).isSome = true ↔
      ∃ b ∈ st.blocks.rows, b.number = row.blockNumber := by
    simp only [Option.isSome_iff_exists, getBlockHeaderByNumber_eq_some_iff]
  unfold insertLog
  rw [← hblock]
  cases st.logs.insert row with
  | none => simp
  | some logs =>
    by_cases hsome : (st.getBlockHeaderByNumber row.blockNumber).isSome = true
    · simp [hsome, eq_comm]
    · simp [hsome]

/-- The logs are appended and nothing else changes. -/
theorem saveLogs_spec {rows : List (LogRow A H)} (h : saveLogs rows st = .ok st') :
    st'.logs.rows = st.logs.rows ++ rows ∧ st'.blocks = st.blocks ∧
      st'.syncStatus = st.syncStatus ∧ st'.reorgs = st.reorgs ∧
      st'.blocksReorged = st.blocksReorged := by
  induction rows generalizing st with
  | nil =>
    cases h
    simp
  | cons row rows ih =>
    obtain ⟨st1, hfirst, hrest⟩ := Exec.except_bind_ok.mp h
    obtain ⟨logs, hins, -, rfl⟩ := insertLog_eq_ok_iff.mp hfirst
    obtain ⟨hlogs, hother⟩ := ih hrest
    refine ⟨?_, hother⟩
    rw [hlogs, (Keyed.insert_eq_some_iff.mp hins).2, append_assoc, singleton_append]

/-- A log is only saved when its block is there. -/
theorem exists_block_of_saveLogs {rows : List (LogRow A H)} (h : saveLogs rows st = .ok st') :
    ∀ r ∈ rows, ∃ b ∈ st.blocks.rows, b.number = r.blockNumber := by
  induction rows generalizing st with
  | nil => simp
  | cons row rows ih =>
    obtain ⟨st1, hfirst, hrest⟩ := Exec.except_bind_ok.mp h
    obtain ⟨logs, -, hblock, rfl⟩ := insertLog_eq_ok_iff.mp hfirst
    exact forall_mem_cons.mpr ⟨hblock, @ih { st with logs } hrest⟩

/-- Logs with new and distinct keys are saved when their blocks are there. -/
theorem exists_saveLogs {rows : List (LogRow A H)}
    (hfresh : ∀ r ∈ rows, ∀ s ∈ st.logs.rows, s.key ≠ r.key) (hnodup : (rows.map LogRow.key).Nodup)
    (hblock : ∀ r ∈ rows, ∃ b ∈ st.blocks.rows, b.number = r.blockNumber) :
    ∃ st', saveLogs rows st = .ok st' := by
  induction rows generalizing st with
  | nil => exact ⟨st, rfl⟩
  | cons row rows ih =>
    obtain ⟨hrow, hrows⟩ := forall_mem_cons.mp hfresh
    obtain ⟨hfirstBlock, hblocks⟩ := forall_mem_cons.mp hblock
    rw [map_cons, nodup_cons] at hnodup
    obtain ⟨logs, hins, happend⟩ := Keyed.exists_insert hrow
    have hfirst : st.insertLog row = .ok { st with logs } :=
      insertLog_eq_ok_iff.mpr ⟨logs, hins, hfirstBlock, rfl⟩
    obtain ⟨st', hst'⟩ := @ih { st with logs }
      (Keyed.fresh_of_insert happend hrows hnodup.1) hnodup.2 hblocks
    exact ⟨st', Exec.except_bind_ok.mpr ⟨_, hfirst, hst'⟩⟩

/-- `SaveEthLogsWithHeaders` appends the blocks and the logs. -/
theorem saveEthLogsWithHeaders_spec {logs : List (Log A H)}
    (h : st.saveEthLogsWithHeaders blockHeaders logs isFinal = .ok st') :
    st'.blocks.rows = st.blocks.rows ++ newBlockRows blockHeaders isFinal ∧
      st'.logs.rows = st.logs.rows ++ logs.map Log.toRow ∧ st'.syncStatus = st.syncStatus ∧
      st'.reorgs = st.reorgs ∧ st'.blocksReorged = st.blocksReorged := by
  obtain ⟨st1, hblocks, hlogs⟩ := Exec.except_bind_ok.mp h
  obtain ⟨hrows, hlogs1, hsync1, hreorgs1, hreorged1⟩ := saveBlocks_spec hblocks
  obtain ⟨hrows', hblocks', hsync, hreorgs, hreorged⟩ := saveLogs_spec hlogs
  exact ⟨hblocks' ▸ hrows, hlogs1 ▸ hrows', hsync.trans hsync1, hreorgs.trans hreorgs1,
    hreorged.trans hreorged1⟩

/-! ## The synced ranges of the rows -/

/-- The blocks that the row of a contract reports as synced. -/
def syncedRange (st : Storage A H) (addr : A) : BlockRange :=
  range st.getSyncedBlockRangePerContract addr

omit [DecidableEq A] in
theorem mem_toSyncSegment {r : SyncStatusRow A} {n : ℕ} :
    n ∈ (toSyncSegment r).blockRange ↔
      ¬(r.syncedFromBlock = 0 ∧ r.syncedToBlock = 0) ∧ r.syncedFromBlock ≤ n ∧
        n ≤ r.syncedToBlock := by
  unfold toSyncSegment
  by_cases hzero : r.syncedFromBlock = 0 ∧ r.syncedToBlock = 0
  · simp [hzero]
  · rw [if_neg hzero, mem_new]
    exact ⟨fun h => ⟨hzero, h⟩, And.right⟩

/-- Segments of distinct contracts are added without merging. -/
theorem rows_foldl_add {segments : List (SyncSegment A)} {s : SetSyncSegment A}
    (hfresh : ∀ r ∈ segments, ∀ t ∈ s.rows, t.contractAddr ≠ r.contractAddr)
    (hnodup : (segments.map SyncSegment.contractAddr).Nodup) :
    (segments.foldl add s).rows = s.rows ++ segments := by
  induction segments generalizing s with
  | nil => simp
  | cons r segments ih =>
    obtain ⟨hr, hrest⟩ := forall_mem_cons.mp hfresh
    rw [map_cons, nodup_cons] at hnodup
    have hadd : (add s r).rows = s.rows ++ [r] := by
      unfold add
      split
      · rfl
      · rename_i current hsome
        obtain ⟨hmem, hkey⟩ := getByContract_eq_some_iff.mp hsome
        exact absurd hkey (hr current hmem)
    rw [foldl_cons, ih (Keyed.fresh_of_insert hadd hrest hnodup.1) hnodup.2, hadd, append_assoc]
    rfl

theorem rows_getSyncedBlockRangePerContract (st : Storage A H) :
    st.getSyncedBlockRangePerContract.rows = st.syncStatus.rows.map toSyncSegment := by
  have hnodup : ((st.syncStatus.rows.map toSyncSegment).map SyncSegment.contractAddr).Nodup := by
    rw [map_map]
    exact st.syncStatus.nodup
  have hrows := rows_foldl_add (s := Keyed.empty) (fun _ _ _ ht => nomatch ht) hnodup
  rwa [foldl_map] at hrows

theorem syncedRange_of_mem {r : SyncStatusRow A} (h : r ∈ st.syncStatus.rows) :
    st.syncedRange r.address = (toSyncSegment r).blockRange := by
  have hmem : toSyncSegment r ∈ st.getSyncedBlockRangePerContract.rows :=
    st.rows_getSyncedBlockRangePerContract ▸ mem_map_of_mem h
  exact range_of_mem hmem

theorem syncedRange_eq_zero {addr : A} (h : ∀ r ∈ st.syncStatus.rows, r.address ≠ addr) :
    st.syncedRange addr = .zero :=
  range_eq_zero (st.rows_getSyncedBlockRangePerContract ▸ forall_mem_map.mpr h)

/-- The range of a contract after its rows were updated. -/
theorem syncedRange_map {f : SyncStatusRow A → SyncStatusRow A}
    (hf : ∀ r, (f r).address = r.address) (hrows : st'.syncStatus.rows = st.syncStatus.rows.map f)
    (addr : A) :
    (∃ r ∈ st.syncStatus.rows, r.address = addr ∧
        st.syncedRange addr = (toSyncSegment r).blockRange ∧
        st'.syncedRange addr = (toSyncSegment (f r)).blockRange) ∨
      (∀ r ∈ st.syncStatus.rows, r.address ≠ addr) ∧ st.syncedRange addr = .zero ∧
        st'.syncedRange addr = .zero := by
  by_cases hexists : ∃ r ∈ st.syncStatus.rows, r.address = addr
  · obtain ⟨r, hr, rfl⟩ := hexists
    have hmem : f r ∈ st'.syncStatus.rows := hrows ▸ mem_map_of_mem hr
    refine .inl ⟨r, hr, rfl, syncedRange_of_mem hr, ?_⟩
    rw [← hf r]
    exact syncedRange_of_mem hmem
  · have hnone : ∀ r ∈ st.syncStatus.rows, r.address ≠ addr := fun r hr heq => hexists ⟨r, hr, heq⟩
    refine .inr ⟨hnone, syncedRange_eq_zero hnone, syncedRange_eq_zero fun r' hr' => ?_⟩
    rw [hrows] at hr'
    obtain ⟨r, hr, rfl⟩ := mem_map.mp hr'
    rw [hf r]
    exact hnone r hr

/-- A reorg cuts the synced ranges off at its first block. -/
theorem Reorged.mem_syncedRange (h : st.Reorged st' fromBlock toBlock) (hfrom : 2 ≤ fromBlock)
    (addr : A) (n : ℕ) : n ∈ st'.syncedRange addr ↔ n ∈ st.syncedRange addr ∧ n < fromBlock := by
  have hkey : ∀ r : SyncStatusRow A, (if r.syncedToBlock ≥ fromBlock then
      { r with syncedToBlock := fromBlock - 1 } else r).address = r.address := fun r => by
    split <;> rfl
  obtain ⟨r, -, -, hold, hnew⟩ | ⟨-, hold, hnew⟩ := syncedRange_map hkey h.syncStatus addr
  · rw [hold, hnew, mem_toSyncSegment, mem_toSyncSegment]
    split_ifs with hge
    · simp only
      omega
    · omega
  · rw [hold, hnew]
    simp

omit [DecidableEq A] in
/-- The logs of other blocks stay. -/
theorem Reorged.mem_logs (h : st.Reorged st' fromBlock toBlock) {row : LogRow A H}
    (hrow : row ∈ st.logs.rows) (hnot : row.blockNumber ∉ BlockRange.new fromBlock toBlock) :
    row ∈ st'.logs.rows := by
  rw [mem_new] at hnot
  rw [h.logs]
  refine mem_deleteWhere.mpr ⟨hrow, ?_⟩
  simp only [Bool.and_eq_false_iff, decide_eq_false_iff_not]
  omega

/-- The parts of the database that do not change with the synced ranges. -/
structure SameData (st st' : Storage A H) : Prop where
  logs : st'.logs = st.logs
  blocks : st'.blocks = st.blocks
  reorgs : st'.reorgs = st.reorgs
  blocksReorged : st'.blocksReorged = st.blocksReorged

/-- The contracts that have a row. -/
def syncedContracts (st : Storage A H) : List A := st.syncStatus.rows.map SyncStatusRow.address

variable {segment : SyncSegment A}

omit [DecidableEq A] in
/-- What is written for a valid segment is read back as its range. -/
theorem mem_toSyncSegment_of_isValid (hvalid : segment.isValid = true) (addr : A) (n : ℕ) :
    n ∈ (toSyncSegment ⟨addr,
        (if segment.blockRange.isEmpty then BlockRange.zero else segment.blockRange).fromBlock,
        (if segment.blockRange.isEmpty then BlockRange.zero else segment.blockRange).toBlock⟩).blockRange ↔
      n ∈ segment.blockRange := by
  rw [mem_toSyncSegment]
  unfold SyncSegment.isValid at hvalid
  cases hempty : segment.blockRange.isEmpty with
  | true =>
    have hnot : n ∉ segment.blockRange := notMem_of_isEmpty hempty
    simp [BlockRange.zero, hnot]
  | false =>
    rw [mem_iff]
    simp [hempty] at hvalid
    simp only [hempty, Bool.false_eq_true, if_false, true_and]
    omega

/-- A valid segment is written to the row of its contract. -/
theorem updateSyncedSegment_spec (h : st.updateSyncedSegment segment = .ok st') :
    SameData st st' ∧ st'.syncedContracts = st.syncedContracts ∧
      ∀ addr n, n ∈ st'.syncedRange addr ↔
        if addr = segment.contractAddr then n ∈ segment.blockRange else n ∈ st.syncedRange addr := by
  unfold updateSyncedSegment at h
  split at h
  swap
  · cases h
  rename_i hvalid
  by_cases hany : (st.syncStatus.rows.any fun r => decide (r.address = segment.contractAddr)) = true
  swap
  · rw [if_neg hany] at h
    cases h
  rw [if_pos hany] at h
  have hst := Except.ok.inj h
  have hrows : st'.syncStatus.rows = st.syncStatus.rows.map (writeSynced segment.contractAddr
      (if segment.blockRange.isEmpty then BlockRange.zero else segment.blockRange)) := by
    rw [← hst, Keyed.rows_map]
  refine ⟨by rw [← hst]; exact ⟨rfl, rfl, rfl, rfl⟩, ?_, fun addr n => ?_⟩
  · rw [syncedContracts, syncedContracts, hrows, map_map]
    exact map_congr_left fun r _ => address_writeSynced _ _ r
  · obtain ⟨r, hr, rfl, hold, hnew⟩ | ⟨hnone, hold, hnew⟩ :=
      syncedRange_map (address_writeSynced _ _) hrows addr
    · rw [hold, hnew, writeSynced]
      by_cases haddr : r.address = segment.contractAddr
      · rw [if_pos haddr, if_pos haddr]
        exact mem_toSyncSegment_of_isValid hvalid _ _
      · rw [if_neg haddr, if_neg haddr]
    · obtain ⟨r, hr, hkey⟩ := any_eq_true.mp hany
      rw [decide_eq_true_eq] at hkey
      have haddr : addr ≠ segment.contractAddr := fun heq => hnone r hr (hkey.trans heq.symm)
      rw [if_neg haddr, hold, hnew]

/-- `UpdateSyncedStatus` writes the ranges of the contracts it is given. -/
theorem updateSyncedStatus_spec {s : SetSyncSegment A} {addrs : List A}
    (h : updateSyncedStatus (segmentsByContract s addrs) st = .ok st') :
    SameData st st' ∧ st'.syncedContracts = st.syncedContracts ∧
      ∀ addr n, n ∈ st'.syncedRange addr ↔
        if addr ∈ addrs ∧ addr ∈ getContracts s then n ∈ range s addr
        else n ∈ st.syncedRange addr := by
  induction addrs generalizing st with
  | nil =>
    cases h
    exact ⟨⟨rfl, rfl, rfl, rfl⟩, rfl, by simp⟩
  | cons a addrs ih =>
    unfold segmentsByContract at h
    cases hfind : getByContract s a with
    | none =>
      rw [filterMap_cons_none hfind] at h
      have hnot : a ∉ getContracts s := by
        intro hmem
        obtain ⟨segment, hsome, -⟩ := exists_getByContract_of_mem hmem
        rw [hfind] at hsome
        cases hsome
      obtain ⟨hsame, hcontracts, hranges⟩ := ih h
      refine ⟨hsame, hcontracts, fun addr n => ?_⟩
      rw [hranges]
      by_cases haddr : addr = a
      · simp [haddr, hnot]
      · simp [haddr]
    | some segment =>
      obtain ⟨hmem, hkey⟩ := getByContract_eq_some_iff.mp hfind
      rw [filterMap_cons_some hfind] at h
      obtain ⟨st1, hfirst, hrest⟩ := Exec.except_bind_ok.mp h
      obtain ⟨hsame1, hcontracts1, hranges1⟩ := updateSyncedSegment_spec hfirst
      obtain ⟨hsame, hcontracts, hranges⟩ := ih hrest
      refine ⟨⟨hsame.logs.trans hsame1.logs, hsame.blocks.trans hsame1.blocks,
        hsame.reorgs.trans hsame1.reorgs, hsame.blocksReorged.trans hsame1.blocksReorged⟩,
        hcontracts.trans hcontracts1, fun addr n => ?_⟩
      rw [hranges, hranges1, hkey]
      have hrange : range s a = segment.blockRange := hkey ▸
        range_of_mem hmem
      have hcon : a ∈ getContracts s := hkey ▸ mem_map_of_mem hmem
      by_cases haddr : addr = a
      · subst haddr
        simp [hcon, hrange]
      · simp [haddr]

omit [DecidableEq A] in
/-- A segment with a block other than 0 is valid. -/
theorem isValid_of_mem {n : ℕ} (h : n ∈ segment.blockRange) (hn : n ≠ 0) :
    segment.isValid = true := by
  obtain ⟨hne, -, hle⟩ := mem_iff.mp h
  rw [SyncSegment.isValid, hne, if_neg Bool.false_ne_true]
  have hto : segment.blockRange.toBlock ≠ 0 := by omega
  simp [hto]

/-- Valid segments of contracts that have a row are written. -/
theorem exists_updateSyncedStatus {segments : List (SyncSegment A)}
    (h : ∀ t ∈ segments, t.isValid = true ∧ t.contractAddr ∈ st.syncedContracts) :
    ∃ st', updateSyncedStatus segments st = .ok st' := by
  induction segments generalizing st with
  | nil => exact ⟨st, rfl⟩
  | cons t segments ih =>
    obtain ⟨⟨hvalid, hrow⟩, hrest⟩ := forall_mem_cons.mp h
    obtain ⟨st1, hfirst⟩ : ∃ st1, st.updateSyncedSegment t = .ok st1 := by
      obtain ⟨r, hr, haddr⟩ := mem_map.mp hrow
      have hany : (st.syncStatus.rows.any fun r => decide (r.address = t.contractAddr)) = true :=
        any_eq_true.mpr ⟨r, hr, by rw [haddr, decide_eq_true_eq]⟩
      rw [updateSyncedSegment, if_pos hvalid, if_pos hany]
      exact ⟨_, rfl⟩
    have hcontracts := (updateSyncedSegment_spec hfirst).2.1
    obtain ⟨st', hst'⟩ := @ih st1 fun t' ht' => by
      rw [hcontracts]
      exact hrest t' ht'
    exact ⟨st', Exec.except_bind_ok.mpr ⟨st1, hfirst, hst'⟩⟩

/-- A new row has no blocks. -/
theorem upsertSyncerConfigs_singleton (st : Storage A H) (contract : A) :
    (∀ addr, (st.upsertSyncerConfigs [contract]).syncedRange addr = st.syncedRange addr) ∧
      ∀ addr, addr ∈ (st.upsertSyncerConfigs [contract]).syncedContracts ↔
        addr = contract ∨ addr ∈ st.syncedContracts := by
  cases hins : st.syncStatus.insert ⟨contract, 0, 0⟩ with
  | none =>
    have hsame : st.upsertSyncerConfigs [contract] = st := by
      simp [upsertSyncerConfigs, hins]
    have hmem : contract ∈ st.syncedContracts := by
      by_contra hnot
      have hfresh : ∀ r ∈ st.syncStatus.rows, r.address ≠ contract := fun r hr heq =>
        hnot (heq ▸ mem_map_of_mem hr)
      obtain ⟨t, hsome, -⟩ := Keyed.exists_insert (r := (⟨contract, 0, 0⟩ : SyncStatusRow A)) hfresh
      rw [hins] at hsome
      cases hsome
    rw [hsame]
    exact ⟨fun _ => rfl, fun addr => ⟨.inr, fun h => h.elim (· ▸ hmem) id⟩⟩
  | some t =>
    obtain ⟨hfresh, hrows⟩ := Keyed.insert_eq_some_iff.mp hins
    have hnew : (st.upsertSyncerConfigs [contract]).syncStatus.rows =
        st.syncStatus.rows ++ [⟨contract, 0, 0⟩] := by
      simp [upsertSyncerConfigs, hins, hrows]
    refine ⟨fun addr => ?_, fun addr => ?_⟩
    · have hadd : (st.upsertSyncerConfigs [contract]).getSyncedBlockRangePerContract =
          add st.getSyncedBlockRangePerContract (toSyncSegment ⟨contract, 0, 0⟩) := by
        rw [getSyncedBlockRangePerContract, hnew, foldl_append]
        rfl
      rw [syncedRange, hadd, SetSyncSegment.range_add]
      split
      · -- The contract had no row, and the new one is empty.
        rename_i haddr
        have hzero : st.syncedRange addr = .zero :=
          syncedRange_eq_zero fun r hr heq => hfresh r hr (heq.trans haddr)
        change (st.syncedRange addr).extend _ = st.syncedRange addr
        rw [hzero, zero_extend]
        rfl
      · rfl
    · rw [syncedContracts, hnew]
      simp [syncedContracts, or_comm]

/-- Upserting the contracts gives each a row and leaves the ranges as they are. -/
theorem upsertSyncerConfigs_spec (st : Storage A H) (contracts : List A) :
    (∀ addr, (st.upsertSyncerConfigs contracts).syncedRange addr = st.syncedRange addr) ∧
      ∀ addr, addr ∈ (st.upsertSyncerConfigs contracts).syncedContracts ↔
        addr ∈ contracts ∨ addr ∈ st.syncedContracts := by
  induction contracts generalizing st with
  | nil =>
    have hsame : st.upsertSyncerConfigs [] = st := rfl
    rw [hsame]
    simp
  | cons a contracts ih =>
    have hcons : st.upsertSyncerConfigs (a :: contracts) =
        (st.upsertSyncerConfigs [a]).upsertSyncerConfigs contracts := rfl
    obtain ⟨hranges1, hcontracts1⟩ := upsertSyncerConfigs_singleton st a
    obtain ⟨hranges, hcontracts⟩ := ih (st.upsertSyncerConfigs [a])
    rw [hcons]
    refine ⟨fun addr => (hranges addr).trans (hranges1 addr), fun addr => ?_⟩
    rw [hcontracts, hcontracts1, mem_cons, or_left_comm, or_assoc]

end Storage

end AggKit.MultiDownloader
