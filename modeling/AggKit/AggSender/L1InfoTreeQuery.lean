import AggKit.L1InfoTreeSync.Leaf
import AggKit.Tree.Proof

/-!
# The L1 info tree as the aggsender reads it

`L1InfoTreeDataQuerier` of `aggsender/query/l1info_tree_data_query.go`, over what `l1infotreesync`
and the contract on L1 answer. An answer is `none` where the call returns an error, such as
`ErrNotFound`.
-/

namespace AggKit.AggSender

open Tree L1InfoTreeSync

/-- `L1InfoTreeDataQuerier`, with the answers of `l1infotreesync` and of the contract. -/
structure L1InfoTreeDataQuerier (H : Type) where
  getInfoByGlobalExitRoot : H → Option (L1InfoTreeLeaf H)
  getL1InfoTreeMerkleProofFromIndexToRoot : UInt32 → H → Option (Vector H 32)
  getL1InfoTreeRootByIndex : UInt32 → Option (Root H)
  /-- The index of `GetLatestL1InfoLeafUntilBlock` for the target block. -/
  latestL1InfoLeafIndex : Option UInt32
  doesGERExistsOnL1 : H → Bool

/-- The errors of `GetProofForGER`. -/
inductive ProofError where
  /-- `ErrGERNotProvableAgainstRoot` -/
  | gerNotProvableAgainstRoot
  /-- `error getting info by global exit root` -/
  | info
  /-- `error getting L1 Info tree merkle proof for GER` -/
  | merkleProof
deriving DecidableEq

variable {H : Type} [DecidableEq H] (K : Keccak H)

/-- `GetProofForGER`. -/
def L1InfoTreeDataQuerier.getProofForGER (l : L1InfoTreeDataQuerier H)
    (ger rootFromWhichToProve : H) : Except ProofError (L1InfoTreeLeaf H × Vector H 32) :=
  match l.getInfoByGlobalExitRoot ger with
  | none => .error .info
  | some l1Info =>
    match l.getL1InfoTreeMerkleProofFromIndexToRoot l1Info.l1InfoTreeIndex rootFromWhichToProve with
    | none => .error .merkleProof
    | some gerToL1Proof =>
      if verifyProof K.pair l1Info.hash gerToL1Proof l1Info.l1InfoTreeIndex rootFromWhichToProve then
        .ok (l1Info, gerToL1Proof)
      else .error .gerNotProvableAgainstRoot

omit [DecidableEq H] in
/-- `GetTargetL1InfoRoot`. -/
def L1InfoTreeDataQuerier.getTargetL1InfoRoot (l : L1InfoTreeDataQuerier H) : Option (Root H) :=
  l.latestL1InfoLeafIndex.bind l.getL1InfoTreeRootByIndex

/-- `GetL1InfoRootByLeafIndex`. -/
def L1InfoTreeDataQuerier.getL1InfoRootByLeafIndex (l : L1InfoTreeDataQuerier H)
    (leafIndex : UInt32) : Option (Root H) :=
  (l.getL1InfoTreeRootByIndex leafIndex).filter fun root => root.hash ≠ K.zero

omit [DecidableEq H] in
/-- `IsGERFinalized`. -/
def L1InfoTreeDataQuerier.isGERFinalized (l : L1InfoTreeDataQuerier H) (ger : H)
    (finalizedL1InfoLeafCount : UInt32) : Option Bool :=
  (l.getInfoByGlobalExitRoot ger).map fun info =>
    info.l1InfoTreeIndex ≤ finalizedL1InfoLeafCount - 1

end AggKit.AggSender
