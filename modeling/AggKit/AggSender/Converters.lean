import AggKit.Agglayer.Certificate
import AggKit.AggSender.L1InfoTreeQuery
import AggKit.BridgeSync.Bridge
import AggKit.ClaimSync.Storage

/-!
# Exits of a certificate, as in `aggsender/converters`

A bridge becomes a bridge exit, a claim an imported bridge exit. The claim data of an imported exit
has the proofs of the claim and a proof of its global exit root against the L1 info root of the
certificate.
-/

namespace AggKit.AggSender

open Agglayer (BridgeExit ImportedBridgeExit GlobalIndex LeafTypeAsset LeafTypeMessage)
open BridgeSync (Bridge decodeGlobalIndex)
open ClaimSync (Claim)

variable {H : Type} (K : Keccak H)

/-- `convertBridgeMetadata`. -/
def convertBridgeMetadata (metadata : List UInt8) : List UInt8 := K.bytes (K.sum metadata)

/-- `ConvertToBridgeExit`. -/
def convertToBridgeExit (bridge : Bridge H) : BridgeExit where
  leafType := bridge.leafType
  tokenInfo := { originNetwork := bridge.originNetwork, originTokenAddress := bridge.originAddress }
  destinationNetwork := bridge.destinationNetwork
  destinationAddress := bridge.destinationAddress
  amount := some bridge.amount
  metadata := convertBridgeMetadata K bridge.metadata

/-- `ConvertToBridgeExits`. -/
def convertToBridgeExits (bridges : List (Bridge H)) : List BridgeExit :=
  bridges.map (convertToBridgeExit K)

/-- `ConvertBridgeExitFromClaim`. -/
def convertBridgeExitFromClaim (claim : Claim H) : BridgeExit where
  leafType := if claim.isMessage then LeafTypeMessage else LeafTypeAsset
  tokenInfo := { originNetwork := claim.originNetwork, originTokenAddress := claim.originAddress }
  destinationNetwork := claim.destinationNetwork
  destinationAddress := claim.destinationAddress
  amount := some claim.amount
  metadata := convertBridgeMetadata K claim.metadata

/-- The global index of a claim in its parts. -/
def globalIndexOf (globalIndex : ℕ) : GlobalIndex :=
  let parts := decodeGlobalIndex globalIndex
  { mainnetFlag := parts.1, rollupIndex := parts.2.1, leafIndex := parts.2.2 }

/-- `ConvertToImportedBridgeExitWithoutClaimData`. -/
def convertToImportedBridgeExitWithoutClaimData (claim : Claim H) : ImportedBridgeExit H where
  bridgeExit := convertBridgeExitFromClaim K claim
  claimData := none
  globalIndex := globalIndexOf claim.globalIndex

/-- The leaf of the claim data. -/
def l1LeafOf (claim : Claim H) (l1Info : L1InfoTreeSync.L1InfoTreeLeaf H) :
    Agglayer.L1InfoTreeLeaf H where
  l1InfoTreeIndex := l1Info.l1InfoTreeIndex
  rollupExitRoot := claim.rollupExitRoot
  mainnetExitRoot := claim.mainnetExitRoot
  inner :=
    { globalExitRoot := l1Info.globalExitRoot
      timestamp := l1Info.timestamp
      blockHash := l1Info.previousBlockHash }

/-- The claim data of `ConvertToImportedBridgeExit`. -/
def claimDataOf (ibe : ImportedBridgeExit H) (claim : Claim H) (rootFromWhichToProve : H)
    (l1Info : L1InfoTreeSync.L1InfoTreeLeaf H) (gerToL1Proof : Vector H 32) : Agglayer.Claim H :=
  if ibe.globalIndex.mainnetFlag then
    .mainnet
      { l1Leaf := l1LeafOf claim l1Info
        proofLeafMER := { root := claim.mainnetExitRoot, proof := claim.proofLocalExitRoot }
        proofGERToL1Root := { root := rootFromWhichToProve, proof := gerToL1Proof } }
  else
    .rollup
      { l1Leaf := l1LeafOf claim l1Info
        proofLeafLER :=
          { root := Tree.calculateRoot K.pair (ibe.bridgeExit.hash K) claim.proofLocalExitRoot
              ibe.globalIndex.leafIndex
            proof := claim.proofLocalExitRoot }
        proofLERToRER := { root := claim.rollupExitRoot, proof := claim.proofRollupExitRoot }
        proofGERToL1Root := { root := rootFromWhichToProve, proof := gerToL1Proof } }

/-- `ConvertToImportedBridgeExit`. -/
def convertToImportedBridgeExit [DecidableEq H] (claim : Claim H) (rootFromWhichToProve : H)
    (l1InfoTreeQuerier : L1InfoTreeDataQuerier H) : Except ProofError (ImportedBridgeExit H) := do
  let ibe := convertToImportedBridgeExitWithoutClaimData K claim
  let (l1Info, gerToL1Proof) ←
    l1InfoTreeQuerier.getProofForGER K claim.globalExitRoot rootFromWhichToProve
  return { ibe with
    claimData := some (claimDataOf K ibe claim rootFromWhichToProve l1Info gerToL1Proof) }

/-- `ConvertToImportedBridgeExits`. -/
def convertToImportedBridgeExits [DecidableEq H] (claims : List (Claim H)) (rootFromWhichToProve : H)
    (l1InfoTreeQuerier : L1InfoTreeDataQuerier H) :
    Except ProofError (List (ImportedBridgeExit H)) :=
  claims.mapM fun claim => convertToImportedBridgeExit K claim rootFromWhichToProve l1InfoTreeQuerier

/-- `ConvertToImportedBridgeExitsWithoutClaimData`. -/
def convertToImportedBridgeExitsWithoutClaimData (claims : List (Claim H)) :
    List (ImportedBridgeExit H) :=
  claims.map (convertToImportedBridgeExitWithoutClaimData K)

end AggKit.AggSender
