import AggKit.BridgeSync.Bridge
import AggKit.Tree.Rollback

/-!
# The processor of `bridgesync/processor.go`

`ProcessBlock` and `Reorg` work on the tables of the database and on the exit tree in one
transaction. A transaction that fails is rolled back: the database restores the tables, and the
callbacks of the exit tree run on the object in memory. A handler is a program of type `Proc`, which
keeps the transaction as it is when the handler fails; `processBlock` and `reorg` commit it or roll
it back.

Deleting a block deletes its rows in every table that references it (`ON DELETE CASCADE`). The
archive references no block.
-/

namespace AggKit.BridgeSync

open Table

/-- The tables of the database. -/
inductive TableName where
  | bridge
  | bridgeArchive
  | tokenMapping
  | legacyTokenMigration
  | backwardLET
  | forwardLET
deriving DecidableEq

/-- The errors of `ProcessBlock` and `Reorg`. -/
inductive SyncError (H : Type) where
  /-- `sync.ErrInconsistentState` -/
  | inconsistentState
  /-- An error of the exit tree that is passed on. -/
  | tree (e : Tree.TreeError H)
  /-- `local exit root mismatch: expected …, got …` -/
  | lerMismatch (expected got : H)
  /-- `value=… does not fit in uint64` -/
  | exceedsUint64 (value : ℕ)
  /-- `value=… exceeds uint32 max` -/
  | exceedsUint32 (value : ℕ)
  /-- `failed to decode new leaves in forward LET` -/
  | decodeNewLeaves
  /-- `UNIQUE constraint failed` -/
  | uniqueFailed (table : TableName)
  /-- `FOREIGN KEY constraint failed` -/
  | foreignKeyFailed (table : TableName)
deriving DecidableEq

/-- The database of `bridgesync`; the exit tree has tables of its own. A row of `block` is a block
number with the hash of the block. -/
structure Tables (H : Type) where
  block : List (ℕ × H)
  bridge : Keyed (Bridge.key (H := H))
  bridgeArchive : Keyed (Bridge.depositCount (H := H))
  tokenMapping : Keyed (TokenMapping.key (H := H))
  legacyTokenMigration : Keyed (LegacyTokenMigration.key (H := H))
  backwardLET : Keyed (BackwardLET.key (H := H))
  forwardLET : Keyed (ForwardLET.key (H := H))

/-- The tables of a new database. -/
def Tables.empty {H : Type} : Tables H :=
  ⟨[], .empty, .empty, .empty, .empty, .empty, .empty⟩

/-- What the processor is created with. `decodeForwardLETLeaves` is the ABI decoder at the type of
the leaves; `none` is its error. -/
structure Config (H : Type) where
  keccak : Keccak H
  initialLER : H
  decodeForwardLETLeaves : List UInt8 → Option (List LeafData)

/-- The processor between two calls. -/
structure Processor (H : Type) where
  db : Tables H
  exitTree : Tree.State H
  halted : Bool

/-- An open transaction of the processor. -/
structure Tx (H : Type) where
  db : Tables H
  exitTree : Tree.Tx H
  halted : Bool

/-- A handler, run in a transaction. -/
abbrev Proc (H : Type) := EStateM (SyncError H) (Tx H)

variable {H : Type} [DecidableEq H]

/-- `newProcessor` on an empty database. -/
def Processor.new (cfg : Config H) : Processor H :=
  ⟨Tables.empty, Tree.State.new cfg.keccak.zero, false⟩

/-! ## Statements on the tables -/

section statements

omit [DecidableEq H]

/-- `INSERT INTO block … ON CONFLICT (num) DO UPDATE SET hash = …`. -/
def upsertBlock (rows : List (ℕ × H)) (num : ℕ) (hash : H) : List (ℕ × H) :=
  if rows.any (fun r => r.1 = num) then
    rows.map fun r => if r.1 = num then (num, hash) else r
  else rows ++ [(num, hash)]

/-- Insert a row into a table that references `block`. -/
def insertInto {α κ : Type} [DecidableEq κ] {key : α → κ} (name : TableName)
    (block : List (ℕ × H)) (t : Keyed key) (blockNum : ℕ) (row : α) :
    Except (SyncError H) (Keyed key) :=
  match t.insert row with
  | none => .error (.uniqueFailed name)
  | some t' =>
    if block.any fun r => r.1 = blockNum then .ok t' else .error (.foreignKeyFailed name)

/-- `meddler.Insert` into `bridge`. -/
def Tables.insertBridge (db : Tables H) (b : Bridge H) : Except (SyncError H) (Tables H) :=
  (insertInto .bridge db.block db.bridge b.blockNum b).map fun t => { db with bridge := t }

/-- `meddler.Insert` into `token_mapping`. -/
def Tables.insertTokenMapping (db : Tables H) (row : TokenMapping H) :
    Except (SyncError H) (Tables H) :=
  (insertInto .tokenMapping db.block db.tokenMapping row.blockNum row).map fun t =>
    { db with tokenMapping := t }

/-- `meddler.Insert` into `legacy_token_migration`. -/
def Tables.insertLegacyTokenMigration (db : Tables H) (row : LegacyTokenMigration H) :
    Except (SyncError H) (Tables H) :=
  (insertInto .legacyTokenMigration db.block db.legacyTokenMigration row.blockNum row).map fun t =>
    { db with legacyTokenMigration := t }

/-- `meddler.Insert` into `backward_let`. -/
def Tables.insertBackwardLET (db : Tables H) (row : BackwardLET H) :
    Except (SyncError H) (Tables H) :=
  (insertInto .backwardLET db.block db.backwardLET row.blockNum row).map fun t =>
    { db with backwardLET := t }

/-- `meddler.Insert` into `forward_let`. -/
def Tables.insertForwardLET (db : Tables H) (row : ForwardLET H) :
    Except (SyncError H) (Tables H) :=
  (insertInto .forwardLET db.block db.forwardLET row.blockNum row).map fun t =>
    { db with forwardLET := t }

/-- `deleteLegacyTokenSQL`. -/
def Tables.deleteLegacyToken (db : Tables H) (legacyTokenAddress : Address) : Tables H :=
  { db with
    legacyTokenMigration :=
      db.legacyTokenMigration.deleteWhere fun m => m.legacyTokenAddress = legacyTokenAddress }

/-- The loop body of `archiveAndDeleteBridgesAbove`. -/
def archiveBridge (archive : Keyed (Bridge.depositCount (H := H))) (b : Bridge H) :
    Except (SyncError H) (Keyed (Bridge.depositCount (H := H))) :=
  -- already archived when a ForwardLET re-inserted the bridge of an earlier BackwardLET
  if archive.rows.any fun a => a.depositCount = b.depositCount then .ok archive
  else match archive.insert { b with source := .backwardLET } with
    | none => .error (.uniqueFailed .bridgeArchive)
    | some archive' => .ok archive'

/-- `archiveAndDeleteBridgesAbove`. -/
def Tables.archiveAndDeleteBridgesAbove (db : Tables H) (depositCount : ℕ) :
    Except (SyncError H) (Tables H) :=
  ((db.bridge.rows.filter fun b => depositCount ≤ b.depositCount.toNat).foldlM archiveBridge
    db.bridgeArchive).map fun archive =>
      { db with
        bridgeArchive := archive
        bridge := db.bridge.deleteWhere fun b => depositCount ≤ b.depositCount.toNat }

/-- `DELETE FROM block WHERE num >= …` with the cascades. -/
def Tables.deleteBlocks (db : Tables H) (firstReorgedBlock : ℕ) : Tables H where
  block := Table.deleteWhere (fun r => firstReorgedBlock ≤ r.1) db.block
  bridge := db.bridge.deleteWhere fun b => firstReorgedBlock ≤ b.blockNum
  bridgeArchive := db.bridgeArchive
  tokenMapping := db.tokenMapping.deleteWhere fun t => firstReorgedBlock ≤ t.blockNum
  legacyTokenMigration :=
    db.legacyTokenMigration.deleteWhere fun m => firstReorgedBlock ≤ m.blockNum
  backwardLET := db.backwardLET.deleteWhere fun e => firstReorgedBlock ≤ e.blockNum
  forwardLET := db.forwardLET.deleteWhere fun e => firstReorgedBlock ≤ e.blockNum

/-- `SafeUint64` on a count of an event. -/
def safeUint64 (value : ℕ) : Except (SyncError H) ℕ :=
  if value < 2^64 then .ok value else .error (.exceedsUint64 value)

/-- `normalizeDepositCount`. -/
def normalizeDepositCount (depositCount : ℕ) : Except (SyncError H) (ℕ × UInt32) := do
  let u64 ← safeUint64 depositCount
  if u64 < 2^32 then .ok (u64, UInt32.ofNat u64) else .error (.exceedsUint32 u64)

end statements

/-! ## Handlers -/

section handlers

section

omit [DecidableEq H]

/-- Run a statement that may fail. -/
def execute (statement : Tables H → Except (SyncError H) (Tables H)) : Proc H Unit := do
  let tx ← get
  match statement tx.db with
  | .ok db => set { tx with db := db }
  | .error e => throw e

/-- A value, or the error of the handler. -/
def orThrow {α : Type} : Except (SyncError H) α → Proc H α
  | .ok a => pure a
  | .error e => throw e

/-- Change the tables of the exit tree. -/
def modifyExitTree (f : Tree.Store H → Tree.Store H) : Proc H Unit := do
  let tx ← get
  set { tx with exitTree := { tx.exitTree with store := f tx.exitTree.store } }

end

variable (cfg : Config H)

/-- `exitTree.PutLeaf` in the transaction. -/
def putLeaf (blockNum blockPos : ℕ) (leaf : Tree.Leaf H) : Proc H Unit := do
  let tx ← get
  let o := Tree.putLeaf cfg.keccak.pair cfg.keccak.zero tx.exitTree.tree tx.exitTree.store
    blockNum blockPos leaf
  match o.result with
  | .ok _ =>
    set { tx with
      exitTree := ⟨o.tree, o.store, tx.exitTree.saved,
        tx.exitTree.rollbackCallbacks ++ [Tree.decreaseIndex]⟩ }
  | .error e =>
    set { tx with exitTree := { tx.exitTree with tree := o.tree } }
    throw (.tree e)

/-- `PutLeaf` as `ProcessBlock` and `handleForwardLETEvent` call it: an index that does not follow
halts the processor. -/
def addLeaf (blockNum blockPos : ℕ) (leaf : Tree.Leaf H) : Proc H Unit := fun tx =>
  match putLeaf cfg blockNum blockPos leaf tx with
  | .ok u tx' => .ok u tx'
  | .error (.tree .invalidIndex) tx' => .error .inconsistentState { tx' with halted := true }
  | .error _ tx' => .error .inconsistentState tx'

/-- `sanityCheckLatestLER`. -/
def sanityCheckLatestLER (ler : H) : Proc H Unit := do
  let tx ← get
  -- if there is no root yet, the zero hash is the last root
  let lastRootHash := match tx.exitTree.store.getLastRoot with
    | none => cfg.keccak.zero
    | some root => root.hash
  if ler = cfg.initialLER then
    if lastRootHash ≠ cfg.keccak.zero then throw (.lerMismatch cfg.keccak.zero lastRootHash)
  else if lastRootHash ≠ ler then throw (.lerMismatch ler lastRootHash)

/-- `insertBackwardLET`. -/
def insertBackwardLET (event : BackwardLET H) : Proc H Unit := do
  sanityCheckLatestLER cfg event.previousRoot
  let (newDepositCount, leafIndex) ← orThrow (normalizeDepositCount event.newDepositCount)
  execute fun db => db.archiveAndDeleteBridgesAbove newDepositCount
  modifyExitTree fun s => if leafIndex = 0 then s.reorg 0 else s.backwardToIndex (leafIndex - 1)
  sanityCheckLatestLER cfg event.newRoot
  execute fun db => db.insertBackwardLET event

section

omit [DecidableEq H]

/-- The bridge that `handleForwardLETEvent` makes of a leaf. Transaction hash and addresses come
from the archived bridge of the same content, if there is exactly one. -/
def forwardBridge (archive : List (Bridge H)) (event : ForwardLET H) (leaf : LeafData)
    (depositCount : UInt32) (blockPos : ℕ) : Bridge H :=
  match archive.filter leaf.sameContent with
  | [archived] =>
    leaf.toBridge event.blockNum blockPos event.blockTimestamp depositCount archived.txHash
      archived.txnSender archived.fromAddress
  | _ =>
    leaf.toBridge event.blockNum blockPos event.blockTimestamp depositCount event.txnHash
      ZeroAddress none

/-- The loop of `handleForwardLETEvent`; it returns the position after the last leaf. -/
def forwardLeaves (event : ForwardLET H) : List LeafData → UInt32 → ℕ → Proc H ℕ
  | [], _, newBlockPos => pure newBlockPos
  | leaf :: leaves, newDepositCount, newBlockPos => do
    let tx ← get
    let bridge := forwardBridge tx.db.bridgeArchive.rows event leaf newDepositCount newBlockPos
    addLeaf cfg event.blockNum newBlockPos ⟨newDepositCount, bridge.hash cfg.keccak⟩
    execute fun db => db.insertBridge bridge
    forwardLeaves event leaves (newDepositCount + 1) (newBlockPos + 1)

/-- The decoded leaves of a `ForwardLET`. -/
def decodeNewLeaves (event : ForwardLET H) : Except (SyncError H) (List LeafData) :=
  match cfg.decodeForwardLETLeaves event.newLeaves with
  | some leaves => .ok leaves
  | none => .error .decodeNewLeaves

/-- The deposit count of the first new leaf. -/
def firstDepositCount (event : ForwardLET H) : Except (SyncError H) UInt32 :=
  if event.previousRoot = cfg.initialLER then .ok 0
  else (normalizeDepositCount event.previousDepositCount).map fun p => p.2

/-- `handleForwardLETEvent`. -/
def handleForwardLETEvent (event : ForwardLET H) (blockPos : Option ℕ) : Proc H ℕ := do
  sanityCheckLatestLER cfg event.previousRoot
  let decodedNewLeaves ← orThrow (decodeNewLeaves cfg event)
  let newDepositCount ← orThrow (firstDepositCount cfg event)
  let newBlockPos ← forwardLeaves cfg event decodedNewLeaves newDepositCount
    (blockPos.getD event.blockPos)
  sanityCheckLatestLER cfg event.newRoot
  execute fun db => db.insertForwardLET event
  return newBlockPos

/-- The body of the loop of `ProcessBlock` for one field of an event. `blockPos` is set once a
`ForwardLET` was handled in the block, and counts the positions from there on. -/
def processPart (blockNum : ℕ) (blockPos : Option ℕ) : EventPart H → Proc H (Option ℕ)
  | .bridge b => do
    let b := { b with blockPos := blockPos.getD b.blockPos }
    addLeaf cfg blockNum b.blockPos ⟨b.depositCount, b.hash cfg.keccak⟩
    execute fun db => db.insertBridge b
    return blockPos.map (· + 1)
  | .tokenMapping t => do
    execute fun db => db.insertTokenMapping t
    return blockPos
  | .legacyTokenMigration m => do
    execute fun db => db.insertLegacyTokenMigration m
    return blockPos
  | .removeLegacyToken r => do
    execute fun db => .ok (db.deleteLegacyToken r.legacyTokenAddress)
    return blockPos
  | .backwardLET e => do
    insertBackwardLET cfg e
    return blockPos
  | .forwardLET e => do
    let newBlockPos ← handleForwardLETEvent cfg e blockPos
    return some newBlockPos

/-- The loop of `ProcessBlock`. -/
def processParts (blockNum : ℕ) : Option ℕ → List (EventPart H) → Proc H Unit
  | _, [] => pure ()
  | blockPos, e :: es => do
    let blockPos ← processPart cfg blockNum blockPos e
    processParts blockNum blockPos es

/-- The body of the inner loop of `restoreBackwardLETBridges` for a row that is restored. -/
def restoreBridge (b : Bridge H) : Proc H Unit := do
  execute fun db => db.insertBridge b
  putLeaf cfg b.blockNum b.blockPos ⟨b.depositCount, b.hash cfg.keccak⟩

/-- The inner loop of `restoreBackwardLETBridges`. -/
def restoreBridges (removedDepositCounts : List UInt32) : List (Bridge H) → Proc H Unit
  | [] => pure ()
  | b :: bridges =>
    -- skip cascade-deleted bridges
    if b.depositCount ∈ removedDepositCounts then restoreBridges removedDepositCounts bridges
    else do
      restoreBridge cfg { b with source := .none }
      restoreBridges removedDepositCounts bridges

/-- `deposit_count >= $1 AND deposit_count <= $2`. -/
def Bridge.inInterval (next prev : ℕ) (b : Bridge H) : Bool :=
  next ≤ b.depositCount.toNat ∧ b.depositCount.toNat ≤ prev

end

/-- `restoreBackwardLETBridges`. -/
def restoreBackwardLETBridges (removedDepositCounts : List UInt32) :
    List (BackwardLET H) → Proc H Unit
  | [] => pure ()
  | e :: backwardLETs => do
    let prev ← orThrow (safeUint64 e.previousDepositCount)
    let next ← orThrow (safeUint64 e.newDepositCount)
    let tx ← get
    restoreBridges cfg removedDepositCounts
      (orderBy (fun b => b.depositCount.toNat)
        (tx.db.bridgeArchive.rows.filter (Bridge.inInterval next prev)))
    execute fun db =>
      .ok { db with bridgeArchive := db.bridgeArchive.deleteWhere (Bridge.inInterval next prev) }
    restoreBackwardLETBridges removedDepositCounts backwardLETs

/-- `Reorg` in its transaction. -/
def reorgTx (firstReorgedBlock : ℕ) : Proc H Unit := do
  let tx ← get
  let backwardLETs := tx.db.backwardLET.rows.filter fun e => firstReorgedBlock ≤ e.blockNum
  -- `loadReorgedDepositCounts`
  let depositCountsToRemove :=
    if backwardLETs.isEmpty then []
    else (tx.db.bridgeArchive.rows.filter fun b => firstReorgedBlock ≤ b.blockNum).map
      Bridge.depositCount
  execute fun db => .ok (db.deleteBlocks firstReorgedBlock)
  modifyExitTree fun s => s.reorg firstReorgedBlock
  restoreBackwardLETBridges cfg depositCountsToRemove backwardLETs

end handlers

/-! ## The two calls -/

section

omit [DecidableEq H]

/-- `NewTx`. -/
def Processor.begin (p : Processor H) : Tx H := ⟨p.db, Tree.Tx.begin p.exitTree, p.halted⟩

/-- `Commit`. -/
def Tx.commit (tx : Tx H) : Processor H :=
  ⟨tx.db, ⟨tx.exitTree.tree, tx.exitTree.store⟩, tx.halted⟩

/-- `Rollback`: the database restores the tables of `p`, the callbacks run. -/
def Tx.rollback (tx : Tx H) (p : Processor H) : Processor H :=
  ⟨p.db, tx.exitTree.rollback, tx.halted⟩

end

/-- `ProcessBlock`: what it returns and the processor after it. -/
def Processor.processBlock (cfg : Config H) (p : Processor H) (block : Block H) :
    Except (SyncError H) Unit × Processor H :=
  if p.halted then (.error .inconsistentState, p)
  else
    let tx := { p.begin with db := { p.db with block := upsertBlock p.db.block block.num block.hash } }
    match processParts cfg block.num none block.parts tx with
    | .ok _ tx' => (.ok (), tx'.commit)
    | .error e tx' => (.error e, tx'.rollback p)

/-- `Reorg`: what it returns and the processor after it. -/
def Processor.reorg (cfg : Config H) (p : Processor H) (firstReorgedBlock : ℕ) :
    Except (SyncError H) Unit × Processor H :=
  match reorgTx cfg firstReorgedBlock p.begin with
  | .ok _ tx => (.ok (), { tx.commit with halted := false })
  | .error e tx => (.error e, tx.rollback p)

end AggKit.BridgeSync
