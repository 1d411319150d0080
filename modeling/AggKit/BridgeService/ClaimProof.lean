import AggKit.BridgeService.L2BridgeSpec
import AggKit.Tree.Inclusion

/-!
# Claim proofs, as in `ClaimProofHandler` of `bridgeservice/bridge.go`

The proof of an L2 deposit climbs two trees: to a local exit root in the exit tree of L2, and from
there to the rollup exit root of an L1 info leaf.
-/

namespace AggKit.BridgeService

open L1InfoTreeSync Run Tracked Tree VerifyBatches

variable {H : Type} [DecidableEq H]

/-- The errors of the handler. -/
inductive ClaimProofError where
  /-- `l1infotreesync has not indexed l1 info tree leaf index %d yet, retry later` -/
  | noLeaf (l1InfoTreeIndex : UInt32)
  /-- `l1infotreesync has not indexed the local exit root of network id %d … yet, retry later` -/
  | noLocalExitRoot (networkID : UInt32)
  /-- `failed to get claim proof, unsupported network %d` -/
  | unsupportedNetwork (networkID : UInt32)
deriving DecidableEq

/-- `ClaimProof`. -/
structure ClaimProof (H : Type) where
  proofLocalExitRoot : Vector H 32
  proofRollupExitRoot : Vector H 32
  l1InfoTreeLeaf : L1InfoTreeLeaf H

/-- `ClaimProofHandler`; the rollup exit tree is that of l1infotreesync. -/
def claimProof (K : Keccak H) (s : Service H) (rollupExitTree : Store H)
    (networkID l1InfoTreeIndex depositCount : UInt32) : Except ClaimProofError (ClaimProof H) :=
  match s.l1InfoTree.l1InfoLeaf.find? fun l => l.l1InfoTreeIndex = l1InfoTreeIndex with
  | none => .error (.noLeaf l1InfoTreeIndex)
  | some info =>
    if networkID = 0 then
      .ok ⟨getProof K.pair K.zero s.bridgeL1 depositCount info.mainnetExitRoot,
        .replicate 32 K.zero, info⟩
    else if networkID = s.networkID then
      match getLeaf rollupExitTree (networkID - 1) info.rollupExitRoot with
      | none => .error (.noLocalExitRoot networkID)
      | some localExitRoot =>
        .ok ⟨getProof K.pair K.zero s.bridgeL2 depositCount localExitRoot,
          getProof K.pair K.zero rollupExitTree (networkID - 1) info.rollupExitRoot, info⟩
    else .error (.unsupportedNetwork networkID)

/-- An L1 info leaf after the batch. -/
def batchLeaf : L1InfoTreeLeaf (List UInt8) :=
  ⟨1, 1, 0, [], 0, [], oneBatchRow.rollupExitRoot, [], []⟩

def leafService : Service (List UInt8) := ⟨⟨[], [batchLeaf], [], []⟩, .empty, .empty, 1⟩

end AggKit.BridgeService
