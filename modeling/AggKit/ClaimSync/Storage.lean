import Mathlib.Data.Prod.Lex
import AggKit.Common
import AggKit.Lib.Table

/-!
# The claim tables of `claimsync/storage/storage.go`

A claim of a global index is a row of the table `claim`, and the event that takes it back is a row
of `unset_claim`. The queries rank the rows of one global index by block and position. A global
index that was ever unset is returned row by row; the rows of any other are compacted into one: the
data of the oldest row with the proofs and exit roots of the newest.

`getClaims` follows the query of `GetClaims` clause by clause. The ranks are taken over the whole
table, the join is over the rows of the requested range.
-/

namespace AggKit.ClaimSync

/-- `ClaimType`. -/
inductive ClaimType where
  /-- The column's default. -/
  | empty
  | claimEvent
  | detailedClaimEvent
deriving DecidableEq

/-- `Claim`, a row of the table `claim`. -/
structure Claim (H : Type) where
  blockNum : ℕ
  blockPos : ℕ
  txHash : H
  globalIndex : ℕ
  originNetwork : UInt32
  originAddress : Address
  destinationAddress : Address
  amount : ℕ
  proofLocalExitRoot : Vector H 32
  proofRollupExitRoot : Vector H 32
  mainnetExitRoot : H
  rollupExitRoot : H
  globalExitRoot : H
  destinationNetwork : UInt32
  metadata : List UInt8
  isMessage : Bool
  blockTimestamp : ℕ
  type : ClaimType
deriving DecidableEq

/-- `UnsetClaim`, a row of the table `unset_claim`. -/
structure UnsetClaim (H : Type) where
  blockNum : ℕ
  blockPos : ℕ
  txHash : H
  globalIndex : ℕ
  unsetGlobalIndexHashChain : H
  createdAt : ℕ
deriving DecidableEq

variable {H : Type}

/-- The primary key of `claim`, in the order of `ORDER BY block_num ASC, block_pos ASC`. -/
def Claim.key (c : Claim H) : ℕ ×ₗ ℕ := toLex (c.blockNum, c.blockPos)

/-- The primary key of `unset_claim`. -/
def UnsetClaim.key (u : UnsetClaim H) : ℕ ×ₗ ℕ := toLex (u.blockNum, u.blockPos)

/-- The two tables, with their primary keys. -/
structure ClaimStorage (H : Type) where
  claim : List (Claim H)
  unsetClaim : List (UnsetClaim H)
  claim_key : (claim.map Claim.key).Nodup
  unsetClaim_key : (unsetClaim.map UnsetClaim.key).Nodup

/-- The tables of a new database. -/
def ClaimStorage.empty : ClaimStorage H := ⟨[], [], List.nodup_nil, List.nodup_nil⟩

/-- `InsertClaim`; `none` when the primary key is taken. -/
def ClaimStorage.insertClaim (s : ClaimStorage H) (c : Claim H) : Option (ClaimStorage H) :=
  match h : Table.insert Claim.key s.claim c with
  | none => none
  | some rows => some { s with claim := rows, claim_key := Table.nodup_key_insert s.claim_key h }

/-- `InsertUnsetClaim`; `none` when the primary key is taken. -/
def ClaimStorage.insertUnsetClaim (s : ClaimStorage H) (u : UnsetClaim H) :
    Option (ClaimStorage H) :=
  match h : Table.insert UnsetClaim.key s.unsetClaim u with
  | none => none
  | some rows =>
    some { s with unsetClaim := rows, unsetClaim_key := Table.nodup_key_insert s.unsetClaim_key h }

/-- `EXISTS (SELECT 1 FROM unset_claim uc WHERE uc.global_index = …)`. -/
def ClaimStorage.hasUnset (s : ClaimStorage H) (globalIndex : ℕ) : Bool :=
  s.unsetClaim.any fun u => u.globalIndex = globalIndex

/-- `compactedClaimsSelectSQL`: proofs and exit roots of the newest row, the rest of the oldest. -/
def compact (o n : Claim H) : Claim H :=
  { o with
    proofLocalExitRoot := n.proofLocalExitRoot
    proofRollupExitRoot := n.proofRollupExitRoot
    mainnetExitRoot := n.mainnetExitRoot
    rollupExitRoot := n.rollupExitRoot
    globalExitRoot := n.globalExitRoot }

/-- `ROW_NUMBER() OVER (PARTITION BY global_index ORDER BY block_num ASC, block_pos ASC)`. -/
def rnOldest (rows : List (Claim H)) (c : Claim H) : ℕ :=
  rows.countP (fun d => d.globalIndex = c.globalIndex ∧ d.key < c.key) + 1

/-- `ROW_NUMBER() OVER (PARTITION BY global_index ORDER BY block_num DESC, block_pos DESC)`. -/
def rnNewest (rows : List (Claim H)) (c : Claim H) : ℕ :=
  rows.countP (fun d => d.globalIndex = c.globalIndex ∧ c.key < d.key) + 1

/-- `ORDER BY block_num ASC, block_pos ASC`. -/
def orderByKey (rows : List (Claim H)) : List (Claim H) :=
  rows.insertionSort fun a b => a.key ≤ b.key

/-- The clauses that `GetClaims` and `GetClaimsByGlobalIndex` share: `rows` is the table the ranks
are taken over, `selected` the rows that are joined. -/
def selectCompacted (s : ClaimStorage H) (rows selected : List (Claim H)) : List (Claim H) :=
  let claimsWithUnset := selected.filter fun c => s.hasUnset c.globalIndex
  let compactableClaims :=
    (selected.filter fun o => rnOldest rows o = 1 ∧ ¬s.hasUnset o.globalIndex).flatMap fun o =>
      (selected.filter fun n => n.globalIndex = o.globalIndex ∧ rnNewest rows n = 1).map fun n =>
        compact o n
  orderByKey (claimsWithUnset ++ compactableClaims)

/-- `GetClaims`. -/
def ClaimStorage.getClaims (s : ClaimStorage H) (fromBlock toBlock : ℕ) : List (Claim H) :=
  selectCompacted s s.claim
    (s.claim.filter fun c => fromBlock ≤ c.blockNum ∧ c.blockNum ≤ toBlock)

/-- `GetClaimsByGlobalIndex`. -/
def ClaimStorage.getClaimsByGlobalIndex (s : ClaimStorage H) (globalIndex : ℕ) : List (Claim H) :=
  let rows := s.claim.filter fun c => c.globalIndex = globalIndex
  selectCompacted s rows rows

end AggKit.ClaimSync
