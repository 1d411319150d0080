import AggKit.L1InfoTreeSync.Processor
import AggKit.Lib.FirstFrom

/-!
# Queries of `l1infotreesync/processor.go`

The tables `l1info_leaf` and `verify_batches` are read in the order of block and position. A query with
`LIMIT 1` takes the first or the last row of that order, among those its condition selects.
-/

namespace AggKit.L1InfoTreeSync

variable {H : Type}

/-! ## Leaves -/

/-- `l1info_leaf`, `ORDER BY block_num ASC, block_pos ASC`. -/
def Tables.leavesInOrder (db : Tables H) : List (L1InfoTreeLeaf H) :=
  Table.orderBy L1InfoTreeLeaf.key db.l1InfoLeaf

/-- `GetFirstInfo`; `none` is `db.ErrNotFound`, here and below. -/
def Tables.getFirstInfo (db : Tables H) : Option (L1InfoTreeLeaf H) := db.leavesInOrder.head?

/-- `GetLastInfo`. -/
def Tables.getLastInfo (db : Tables H) : Option (L1InfoTreeLeaf H) := db.leavesInOrder.getLast?

/-- `GetFirstInfoAfterBlock`. -/
def Tables.getFirstInfoAfterBlock (db : Tables H) (blockNum : ℕ) : Option (L1InfoTreeLeaf H) :=
  Table.firstFrom L1InfoTreeLeaf.blockNumber db.leavesInOrder blockNum

/-- `GetFirstL1InfoWithRollupExitRoot`. -/
def Tables.getFirstL1InfoWithRollupExitRoot [DecidableEq H] (db : Tables H) (rollupExitRoot : H) :
    Option (L1InfoTreeLeaf H) :=
  db.leavesInOrder.find? fun l => l.rollupExitRoot = rollupExitRoot

/-- `getLastProcessedBlockWithTx`. -/
def Tables.getLastProcessedBlock (db : Tables H) : ℕ :=
  ((Table.lastBy (fun a b => decide (a.1 ≤ b.1)) db.block).map Prod.fst).getD 0

/-- The errors of `GetLatestL1InfoLeafUntilBlock`. -/
inductive LeafError where
  | noBlock0
  | blockNotProcessed
  | notFound
deriving DecidableEq

/-- `GetLatestL1InfoLeafUntilBlock` of a block. -/
def Tables.getLatestL1InfoLeafUntilBlock (db : Tables H) (blockNum : ℕ) :
    Except LeafError (L1InfoTreeLeaf H) :=
  if blockNum = 0 then .error .noBlock0
  else if db.getLastProcessedBlock < blockNum then .error .blockNotProcessed
  else
    match (db.leavesInOrder.filter fun l => l.blockNumber ≤ blockNum).getLast? with
    | none => .error .notFound
    | some info => .ok info

/-! ## Verified batches -/

/-- The rows of a rollup in `verify_batches`, `ORDER BY block_num ASC, block_pos ASC`. -/
def Tables.verifiedInOrder (db : Tables H) (rollupID : UInt32) : List (VerifyBatches H) :=
  Table.orderBy VerifyBatches.key (db.verifyBatches.filter fun v => v.rollupID = rollupID)

/-- `GetLastVerifiedBatches`. -/
def Tables.getLastVerifiedBatches (db : Tables H) (rollupID : UInt32) : Option (VerifyBatches H) :=
  (db.verifiedInOrder rollupID).getLast?

/-- `GetFirstVerifiedBatches`. -/
def Tables.getFirstVerifiedBatches (db : Tables H) (rollupID : UInt32) : Option (VerifyBatches H) :=
  (db.verifiedInOrder rollupID).head?

/-- `GetFirstVerifiedBatchesAfterBlock`. -/
def Tables.getFirstVerifiedBatchesAfterBlock (db : Tables H) (rollupID : UInt32) (blockNum : ℕ) :
    Option (VerifyBatches H) :=
  Table.firstFrom VerifyBatches.blockNumber (db.verifiedInOrder rollupID) blockNum

end AggKit.L1InfoTreeSync
