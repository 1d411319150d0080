import Mathlib.Data.Prod.Lex
import AggKit.L1InfoTreeSync.Leaf
import AggKit.Tree.Rollback
import AggKit.Tree.UpdatableTree

/-!
# The processor of `l1infotreesync/processor.go`

The events of the L1 contracts are kept in three tables and two trees. `l1info_leaf` and the
append-only L1 info tree have one leaf for each `UpdateL1InfoTree`, `verify_batches` and the updatable
rollup exit tree one row for each `VerifyBatches` that changes the local exit root of a rollup. An
`UpdateL1InfoTreeV2` is only compared with the last root; a mismatch halts the processor.

A batch of blocks is processed in one transaction. When it fails, the database restores the tables,
and the callbacks of the L1 info tree run on the object in memory. The rollup exit tree has no object
in memory.
-/

namespace AggKit.L1InfoTreeSync

/-! ## Events -/

/-- `UpdateL1InfoTree`. -/
structure UpdateL1InfoTree (H : Type) where
  blockPosition : ℕ
  mainnetExitRoot : H
  rollupExitRoot : H
  parentHash : H
  timestamp : UInt64
deriving DecidableEq

/-- `UpdateL1InfoTreeV2`; block hash and timestamp are for the log only. -/
structure UpdateL1InfoTreeV2 (H : Type) where
  currentL1InfoRoot : H
  leafCount : UInt32
deriving DecidableEq

/-- `VerifyBatches`, an event and a row of the table `verify_batches`. The downloader does not provide
`rollupExitRoot`. -/
structure VerifyBatches (H : Type) where
  blockNumber : ℕ
  blockPosition : ℕ
  rollupID : UInt32
  numBatch : ℕ
  stateRoot : H
  exitRoot : H
  aggregator : Address
  txHash : Option H
  blockTimestamp : Option ℕ
  rollupExitRoot : H
deriving DecidableEq

/-- `InitL1InfoRootMap`. -/
structure InitL1InfoRootMap (H : Type) where
  leafCount : UInt32
  currentL1InfoRoot : H
deriving DecidableEq

/-- `L1InfoTreeInitial`, the row of the table `l1info_initial`. -/
structure L1InfoTreeInitial (H : Type) where
  blockNumber : ℕ
  leafCount : UInt32
  l1InfoRoot : H
deriving DecidableEq

/-- `Event`. -/
structure Event (H : Type) where
  updateL1InfoTree : Option (UpdateL1InfoTree H) := none
  updateL1InfoTreeV2 : Option (UpdateL1InfoTreeV2 H) := none
  verifyBatches : Option (VerifyBatches H) := none
  initL1InfoRootMap : Option (InitL1InfoRootMap H) := none
deriving DecidableEq

/-- One field of an event. -/
inductive EventPart (H : Type) where
  | updateL1InfoTree (e : UpdateL1InfoTree H)
  | updateL1InfoTreeV2 (e : UpdateL1InfoTreeV2 H)
  | verifyBatches (e : VerifyBatches H)
  | initL1InfoRootMap (e : InitL1InfoRootMap H)
deriving DecidableEq

/-- The fields that are set, in the order `processBlock` looks at them. -/
def Event.parts {H : Type} (e : Event H) : List (EventPart H) :=
  (e.updateL1InfoTree.map .updateL1InfoTree).toList ++
    (e.updateL1InfoTreeV2.map .updateL1InfoTreeV2).toList ++
    (e.verifyBatches.map .verifyBatches).toList ++
    (e.initL1InfoRootMap.map .initL1InfoRootMap).toList

/-- `sync.Block`. -/
structure Block (H : Type) where
  num : ℕ
  hash : H
  events : List (Event H)
deriving DecidableEq

/-- The fields of all events of a block. -/
def Block.parts {H : Type} (b : Block H) : List (EventPart H) := b.events.flatMap Event.parts

/-! ## Tables -/

/-- The errors of the processor. -/
inductive SyncError (H : Type) where
  /-- `sync.ErrInconsistentState` -/
  | inconsistentState
  /-- `insert Block. err: %w` -/
  | insertBlock
  /-- `insert l1info_leaf %s. err: %w` -/
  | insertL1InfoLeaf (info : L1InfoTreeLeaf H)
  /-- `AddLeaf(%s). err: %w` -/
  | addLeaf (info : L1InfoTreeLeaf H) (err : Tree.TreeError H)
  /-- `GetLastRoot(). err: %w` -/
  | getLastRoot
  /-- `error rollupExitTree.UpsertLeaf. err: %w` -/
  | upsertLeaf (err : Tree.TreeError H)
  /-- `error inserting verify_batches. err: %w` -/
  | insertVerifyBatches
  /-- `initL1InfoRootMap. Err: %w` -/
  | initL1InfoRootMap
deriving DecidableEq

/-- The database, without the tables of the trees. A row of `block` is the number and the hash. -/
structure Tables (H : Type) where
  block : List (ℕ × H)
  l1InfoLeaf : List (L1InfoTreeLeaf H)
  verifyBatches : List (VerifyBatches H)
  l1InfoInitial : List (L1InfoTreeInitial H)

/-- The tables of a new database. -/
def Tables.empty {H : Type} : Tables H := ⟨[], [], [], []⟩

/-- The primary key of `l1info_leaf`. -/
def L1InfoTreeLeaf.key {H : Type} (l : L1InfoTreeLeaf H) : ℕ ×ₗ ℕ :=
  toLex (l.blockNumber, l.blockPosition)

/-- The primary key of `verify_batches`. -/
def VerifyBatches.key {H : Type} (v : VerifyBatches H) : ℕ ×ₗ ℕ :=
  toLex (v.blockNumber, v.blockPosition)

/-- The processor between two calls. -/
structure Processor (H : Type) where
  db : Tables H
  l1InfoTree : Tree.State H
  rollupExitTree : Tree.Store H
  halted : Bool

/-- An open transaction. -/
structure Tx (H : Type) where
  db : Tables H
  l1InfoTree : Tree.Tx H
  rollupExitTree : Tree.Store H
  halted : Bool

/-- A handler, run in a transaction. -/
abbrev Proc (H : Type) := EStateM (SyncError H) (Tx H)

variable {H : Type} [DecidableEq H]

section statements

/-- `meddler.Insert` into `l1info_leaf`, which has a primary key and a unique global exit root. -/
def Tables.insertL1InfoLeaf (db : Tables H) (info : L1InfoTreeLeaf H) : Option (Tables H) :=
  if db.l1InfoLeaf.any fun l => l.globalExitRoot = info.globalExitRoot then none
  else (Table.insert L1InfoTreeLeaf.key db.l1InfoLeaf info).map fun rows =>
    { db with l1InfoLeaf := rows }

section

omit [DecidableEq H]

/-- `meddler.Insert` into `verify_batches`. -/
def Tables.insertVerifyBatches (db : Tables H) (row : VerifyBatches H) : Option (Tables H) :=
  (Table.insert VerifyBatches.key db.verifyBatches row).map fun rows =>
    { db with verifyBatches := rows }

/-- `meddler.Insert` into `l1info_initial`, which has one row at most. -/
def Tables.insertL1InfoInitial (db : Tables H) (row : L1InfoTreeInitial H) : Option (Tables H) :=
  if db.l1InfoInitial = [] then some { db with l1InfoInitial := [row] } else none

/-- `getLastIndex`; `none` is `db.ErrNotFound`. -/
def Tables.getLastIndex (db : Tables H) : Option UInt32 :=
  (Table.lastBy (fun a b => decide (a.key ≤ b.key)) db.l1InfoLeaf).map (·.l1InfoTreeIndex)

/-- `initialL1InfoIndex`: the index of the first leaf of a block. -/
def Tables.initialL1InfoIndex (db : Tables H) : UInt32 :=
  match db.getLastIndex with
  | none => 0
  | some lastIndex => lastIndex + 1

/-- `DELETE FROM block WHERE num >= …` with the cascades. -/
def Tables.deleteBlocks (db : Tables H) (firstReorgedBlock : ℕ) : Tables H where
  block := Table.deleteWhere (fun r => decide (firstReorgedBlock ≤ r.1)) db.block
  l1InfoLeaf := Table.deleteWhere (fun l => decide (firstReorgedBlock ≤ l.blockNumber))
    db.l1InfoLeaf
  verifyBatches := Table.deleteWhere (fun v => decide (firstReorgedBlock ≤ v.blockNumber))
    db.verifyBatches
  l1InfoInitial := Table.deleteWhere (fun i => decide (firstReorgedBlock ≤ i.blockNumber))
    db.l1InfoInitial

end

end statements

/-! ## Handlers -/

section handlers

omit [DecidableEq H] in
/-- Run a statement that may fail. -/
def execute (err : SyncError H) (statement : Tables H → Option (Tables H)) : Proc H Unit := do
  let tx ← get
  match statement tx.db with
  | some db => set { tx with db := db }
  | none => throw err

variable (K : Keccak H)

omit [DecidableEq H] in
/-- The leaf that `processBlock` makes of an `UpdateL1InfoTree`. -/
def newL1InfoTreeLeaf (blockNum : ℕ) (index : UInt32) (e : UpdateL1InfoTree H) :
    L1InfoTreeLeaf H :=
  let info : L1InfoTreeLeaf H :=
    { blockNumber := blockNum
      blockPosition := e.blockPosition
      l1InfoTreeIndex := index
      previousBlockHash := e.parentHash
      timestamp := e.timestamp
      mainnetExitRoot := e.mainnetExitRoot
      rollupExitRoot := e.rollupExitRoot
      globalExitRoot := calculateGER K e.mainnetExitRoot e.rollupExitRoot
      hash := K.zero }
  { info with hash := info.getHash K }

/-- `l1InfoTree.PutLeaf` in the transaction. -/
def putL1InfoLeaf (info : L1InfoTreeLeaf H) : Proc H Unit := do
  let tx ← get
  let o := Tree.putLeaf K.pair K.zero tx.l1InfoTree.tree tx.l1InfoTree.store info.blockNumber
    info.blockPosition ⟨info.l1InfoTreeIndex, info.hash⟩
  match o.result with
  | .ok _ =>
    set { tx with
      l1InfoTree := ⟨o.tree, o.store, tx.l1InfoTree.saved,
        tx.l1InfoTree.rollbackCallbacks ++ [Tree.decreaseIndex]⟩ }
  | .error err =>
    set { tx with l1InfoTree := { tx.l1InfoTree with tree := o.tree } }
    throw (.addLeaf info err)

/-- The sanity check of an `UpdateL1InfoTreeV2`. A mismatch halts the processor, and the transaction
that is then rolled back does not undo that. -/
def checkL1InfoRoot (e : UpdateL1InfoTreeV2 H) : Proc H Unit := do
  let tx ← get
  match tx.l1InfoTree.store.getLastRoot with
  | none => throw .getLastRoot
  | some root =>
    if root.hash ≠ e.currentL1InfoRoot ∨ root.index + 1 ≠ e.leafCount then
      set { tx with halted := true }
      throw .inconsistentState

/-- `isNewValueForRollupExitTree`. -/
def isNewValueForRollupExitTree (s : Tree.Store H) (e : VerifyBatches H) : Bool :=
  match s.getLastRoot with
  -- the tree is empty, so it is a new value for sure
  | none => true
  | some currentRoot =>
    match Tree.getLeaf s (e.rollupID - 1) currentRoot.hash with
    | none => true
    | some leaf => leaf ≠ e.exitRoot

/-- `rollupExitTree.PutLeaf` in the transaction; it returns the new root. -/
def putRollupExitRoot (blockNumber : ℕ) (e : VerifyBatches H) : Proc H H := do
  let tx ← get
  match Tree.UpdatableTree.putLeaf K.pair K.zero tx.rollupExitTree blockNumber e.blockPosition
    ⟨e.rollupID - 1, e.exitRoot⟩ with
  | (.ok newRoot, store) => do
    set { tx with rollupExitTree := store }
    return newRoot
  | (.error err, _) => throw (.upsertLeaf err)

/-- `processVerifyBatches`. -/
def processVerifyBatches (blockNumber : ℕ) (e : VerifyBatches H) : Proc H Unit := do
  -- a zero exit root does not change the tree
  if e.exitRoot = K.zero then return
  let tx ← get
  if isNewValueForRollupExitTree tx.rollupExitTree e then
    let newRoot ← putRollupExitRoot K blockNumber e
    execute .insertVerifyBatches fun db =>
      db.insertVerifyBatches { e with blockNumber := blockNumber, rollupExitRoot := newRoot }

/-- The body of the loop of `processBlock` for one field of an event. `index` is the index of the next
L1 info leaf, and what is returned is the one after it. -/
def processPart (blockNum : ℕ) (index : UInt32) : EventPart H → Proc H UInt32
  | .updateL1InfoTree e => do
    let info := newL1InfoTreeLeaf K blockNum index e
    execute (.insertL1InfoLeaf info) fun db => db.insertL1InfoLeaf info
    putL1InfoLeaf K info
    return index + 1
  | .updateL1InfoTreeV2 e => do
    checkL1InfoRoot e
    return index
  | .verifyBatches e => do
    processVerifyBatches K blockNum e
    return index
  | .initL1InfoRootMap e => do
    execute .initL1InfoRootMap fun db =>
      db.insertL1InfoInitial ⟨blockNum, e.leafCount, e.currentL1InfoRoot⟩
    return index

/-- The loop of `processBlock`. -/
def processParts (blockNum : ℕ) : UInt32 → List (EventPart H) → Proc H Unit
  | _, [] => pure ()
  | index, e :: es => do
    let index ← processPart K blockNum index e
    processParts blockNum index es

/-- `processBlock`. -/
def processBlockTx (block : Block H) : Proc H Unit := do
  execute .insertBlock fun db =>
    (Table.insert Prod.fst db.block (block.num, block.hash)).map fun rows =>
      { db with block := rows }
  let tx ← get
  processParts K block.num tx.db.initialL1InfoIndex block.parts

/-- The loop of `processBlocksSameTx`. -/
def processBlocksTx : List (Block H) → Proc H Unit
  | [] => pure ()
  | block :: blocks => do
    processBlockTx K block
    processBlocksTx blocks

end handlers

/-! ## Calls -/

section

omit [DecidableEq H]

/-- `newProcessor` on an empty database. -/
def Processor.new (K : Keccak H) : Processor H :=
  ⟨Tables.empty, Tree.State.new K.zero, Tree.Store.empty, false⟩

/-- `NewTx`. -/
def Processor.begin (p : Processor H) : Tx H :=
  ⟨p.db, Tree.Tx.begin p.l1InfoTree, p.rollupExitTree, p.halted⟩

/-- `Commit`. -/
def Tx.commit (tx : Tx H) : Processor H :=
  ⟨tx.db, ⟨tx.l1InfoTree.tree, tx.l1InfoTree.store⟩, tx.rollupExitTree, tx.halted⟩

/-- `Rollback`: the database restores the tables of `p`, the callbacks run. -/
def Tx.rollback (tx : Tx H) (p : Processor H) : Processor H :=
  ⟨p.db, tx.l1InfoTree.rollback, p.rollupExitTree, tx.halted⟩

/-- `processBlocksSameTx`: what it returns and the processor after it. -/
def Processor.processBlocksSameTx (K : Keccak H) (p : Processor H) (blocks : List (Block H)) :
    Except (SyncError H) Unit × Processor H :=
  match processBlocksTx K blocks p.begin with
  | .ok _ tx => (.ok (), tx.commit)
  | .error err tx => (.error err, tx.rollback p)

/-- `ProcessBlocks`. -/
def Processor.processBlocks (K : Keccak H) (p : Processor H) (blocks : List (Block H)) :
    Except (SyncError H) Unit × Processor H :=
  if blocks = [] then (.ok (), p)
  else if p.halted then (.error .inconsistentState, p)
  else p.processBlocksSameTx K blocks

/-- `ProcessBlock`, which is `ProcessBlocks` of one block. -/
def Processor.processBlock (K : Keccak H) (p : Processor H) (block : Block H) :
    Except (SyncError H) Unit × Processor H :=
  if p.halted then (.error .inconsistentState, p) else p.processBlocksSameTx K [block]

/-- `Reorg`. -/
def Processor.reorg (p : Processor H) (firstReorgedBlock : ℕ) : Processor H where
  db := p.db.deleteBlocks firstReorgedBlock
  l1InfoTree := ⟨p.l1InfoTree.tree, p.l1InfoTree.store.reorg firstReorgedBlock⟩
  rollupExitTree := p.rollupExitTree.reorg firstReorgedBlock
  halted := false

end

end AggKit.L1InfoTreeSync
