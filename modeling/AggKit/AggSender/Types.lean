import AggKit.Agglayer.Types
import AggKit.BridgeSync.Bridge
import AggKit.ClaimSync.Storage

/-!
# Stored certificates and what a certificate is built from, as in `aggsender/types`
-/

namespace AggKit.AggSender

/-- `CertificateType`. -/
inductive CertificateType where
  | unknown
  /-- `CertificateTypePP` -/
  | pp
  /-- `CertificateTypeFEP` -/
  | fep
  /-- `CertificateTypeOptimistic` -/
  | optimistic
  /-- `CertificateTypePreconfPP` -/
  | preconfPP
deriving DecidableEq

/-- `CertificateSource`. -/
inductive CertificateSource where
  /-- `CertificateSourceAggLayer` -/
  | aggLayer
  /-- `CertificateSourceLocal` -/
  | localSender
  | unknown
deriving DecidableEq

/-- `CertificateHeader`, a row of the table `certificate_info`. -/
structure CertificateHeader (H : Type) where
  height : ℕ
  retryCount : ℕ
  certificateID : H
  previousLocalExitRoot : Option H
  newLocalExitRoot : H
  fromBlock : ℕ
  toBlock : ℕ
  status : Agglayer.CertificateStatus
  createdAt : ℕ
  updatedAt : ℕ
  finalizedL1InfoTreeRoot : Option H
  l1InfoTreeLeafCount : UInt32
  certType : CertificateType
  certSource : CertificateSource
deriving DecidableEq

/-- `Unclaim` of `claimsync/types`: a claim that was taken back. -/
structure Unclaim where
  globalIndex : ℕ
  blockNumber : ℕ
  logIndex : ℕ
deriving DecidableEq

/-- `CertificateBuildParams`, without the data of the aggchain prover. -/
structure CertificateBuildParams (H : Type) where
  fromBlock : ℕ
  toBlock : ℕ
  bridges : List (BridgeSync.Bridge H)
  claims : List (ClaimSync.Claim H)
  unclaims : List Unclaim
  retryCount : ℕ
  lastSentCertificate : Option (CertificateHeader H)
  l1InfoTreeRootFromWhichToProve : H
  l1InfoTreeLeafCount : UInt32
  certificateType : CertificateType
deriving DecidableEq

variable {H : Type}

namespace CertificateBuildParams

/-- `NumberOfBridges`. -/
def numberOfBridges (c : CertificateBuildParams H) : ℕ := c.bridges.length

/-- `NumberOfClaims`. -/
def numberOfClaims (c : CertificateBuildParams H) : ℕ := c.claims.length

/-- `NumberOfBlocks`. -/
def numberOfBlocks (c : CertificateBuildParams H) : ℕ :=
  c.toBlock - c.fromBlock + 1

/-- `IsEmpty`. -/
def isEmpty (c : CertificateBuildParams H) : Bool :=
  c.numberOfBridges = 0 ∧ c.numberOfClaims = 0

/-- `IsARetry`. -/
def isARetry (c : CertificateBuildParams H) : Bool :=
  0 < c.retryCount ∧ c.lastSentCertificate.isSome

/-- `MaxDepositCount`: the deposit count of the last bridge. -/
def maxDepositCount (c : CertificateBuildParams H) : UInt32 :=
  (c.bridges.getLast?.map BridgeSync.Bridge.depositCount).getD 0

end CertificateBuildParams

end AggKit.AggSender
