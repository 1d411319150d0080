import AggKit.AggSender.Converters
import AggKit.AggSender.Types

/-!
# Building a certificate, as in `aggsender/flows/flow_base.go`

`BuildCertificate` turns the bridges, claims and unclaims of a block range into a certificate. Height
and previous local exit root come from the certificate that was sent last, the new local exit root
from the last bridge.
-/

namespace AggKit.AggSender

open Agglayer (Certificate ImportedBridgeExit)
open ClaimSync (Claim)

/-- `BaseFlowConfig`. The estimated size of a certificate is computed with floats from the number of
its bridges and claims; it is a parameter here. -/
structure BaseFlowConfig where
  maxCertSize : ℕ
  startL2Block : ℕ
  fullClaimsNeeded : Bool
  estimatedSize : ℕ → ℕ → ℕ

/-- `types.BridgeQuerier`, with what `bridgesync`, `claimsync` and the bridge contract answer. -/
structure BridgeQuerier (H : Type) where
  originNetwork : UInt32
  /-- `GetLastProcessedBlock`, if one was processed. -/
  getLastProcessedBlock : Option ℕ
  getBridges : ℕ → ℕ → List (BridgeSync.Bridge H)
  getClaims : ℕ → ℕ → List (Claim H)
  getUnsetClaimsForBlockRange : ℕ → ℕ → List Unclaim
  getExitRootByIndex : UInt32 → Option H

/-- `baseFlow`. -/
structure BaseFlow (H : Type) where
  l2BridgeQuerier : BridgeQuerier H
  /-- `GetCertificateHeaderByHeight` of the storage. -/
  getCertificateHeaderByHeight : ℕ → Option (CertificateHeader H)
  l1InfoTreeDataQuerier : L1InfoTreeDataQuerier H
  initialLER : H
  cfg : BaseFlowConfig

/-- The errors of `BuildCertificate`. -/
inductive BuildError where
  /-- `errNoBridgesAndClaims` -/
  | noBridgesAndClaims
  /-- `error getting imported bridge exits` -/
  | importedBridgeExits (err : ProofError)
  /-- `last certificate %s is not closed` -/
  | notClosed
  /-- `none settled certificate` -/
  | noSettledCertificate
  /-- `last settled certificate %s is not settled` -/
  | notSettled
  /-- `error getting exit root by index: %d` -/
  | exitRootByIndex (index : UInt32)
deriving DecidableEq

variable {H : Type}

/-- The loop of `getImportedBridgeExits` over the claims: as many claims of a global index as it has
unclaims are left out, the first ones. -/
def filterClaims (unclaimCnt : ℕ → ℕ) : List (Claim H) → List (Claim H)
  | [] => []
  | c :: claims =>
    if 0 < unclaimCnt c.globalIndex then
      filterClaims (Function.update unclaimCnt c.globalIndex (unclaimCnt c.globalIndex - 1)) claims
    else c :: filterClaims unclaimCnt claims

/-- The counts of `getImportedBridgeExits`. -/
def unclaimCounts (unclaims : List Unclaim) (globalIndex : ℕ) : ℕ :=
  unclaims.countP fun u => u.globalIndex = globalIndex

/-- The claims that `getImportedBridgeExits` converts. -/
def filteredClaims (claims : List (Claim H)) (unclaims : List Unclaim) : List (Claim H) :=
  filterClaims (unclaimCounts unclaims) claims

/-- `getNextHeightAndPreviousLER`. -/
def BaseFlow.getNextHeightAndPreviousLER (f : BaseFlow H) :
    Option (CertificateHeader H) → Except BuildError (ℕ × H)
  | none => .ok (0, f.initialLER)
  | some last =>
    if !last.status.isClosed then .error .notClosed
    else if last.status = .settled then .ok (last.height + 1, last.newLocalExitRoot)
    else
      match last.previousLocalExitRoot with
      | some previousLER => .ok (last.height, previousLER)
      | none =>
        if last.height = 0 then .ok (0, f.initialLER)
        else
          match f.getCertificateHeaderByHeight (last.height - 1) with
          | none => .error .noSettledCertificate
          | some lastSettleCert =>
            if lastSettleCert.status = .settled then .ok (last.height, lastSettleCert.newLocalExitRoot)
            else .error .notSettled

/-- `getNewLocalExitRoot`. -/
def BaseFlow.getNewLocalExitRoot (f : BaseFlow H) (certParams : CertificateBuildParams H)
    (previousLER : H) : Except BuildError H :=
  if certParams.numberOfBridges = 0 then .ok previousLER
  else
    match f.l2BridgeQuerier.getExitRootByIndex certParams.maxDepositCount with
    | some exitRoot => .ok exitRoot
    | none => .error (.exitRootByIndex certParams.maxDepositCount)

variable [DecidableEq H] (K : Keccak H)

/-- `getImportedBridgeExits`. -/
def BaseFlow.getImportedBridgeExits (f : BaseFlow H) (claims : List (Claim H))
    (unclaims : List Unclaim) (rootFromWhichToProve : H) :
    Except BuildError (List (ImportedBridgeExit H)) :=
  if f.cfg.fullClaimsNeeded then
    (convertToImportedBridgeExits K (filteredClaims claims unclaims) rootFromWhichToProve
      f.l1InfoTreeDataQuerier).mapError .importedBridgeExits
  else .ok (convertToImportedBridgeExitsWithoutClaimData K (filteredClaims claims unclaims))

/-- `BuildCertificate`. -/
def BaseFlow.buildCertificate (f : BaseFlow H) (certParams : CertificateBuildParams H)
    (lastSentCertificate : Option (CertificateHeader H)) (allowEmptyCert : Bool) :
    Except BuildError (Certificate H) := do
  if !allowEmptyCert && certParams.isEmpty then throw .noBridgesAndClaims
  let importedBridgeExits ← f.getImportedBridgeExits K certParams.claims certParams.unclaims
    certParams.l1InfoTreeRootFromWhichToProve
  let (height, previousLER) ← f.getNextHeightAndPreviousLER lastSentCertificate
  let newLER ← f.getNewLocalExitRoot certParams previousLER
  return {
    networkID := f.l2BridgeQuerier.originNetwork
    prevLocalExitRoot := previousLER
    newLocalExitRoot := newLER
    bridgeExits := convertToBridgeExits K certParams.bridges
    importedBridgeExits := importedBridgeExits
    height := height
    l1InfoTreeLeafCount := certParams.l1InfoTreeLeafCount
    customChainData := []
    aggchainData := none }

/-! ## What a certificate is made of -/

section spec

variable {K} {f : BaseFlow H} {certParams : CertificateBuildParams H}
  {lastSentCertificate : Option (CertificateHeader H)} {allowEmptyCert : Bool} {cert : Certificate H}

omit [DecidableEq H] in
theorem filterClaims_sublist (unclaimCnt : ℕ → ℕ) (claims : List (Claim H)) :
    (filterClaims unclaimCnt claims).Sublist claims := by
  induction claims generalizing unclaimCnt with
  | nil => exact List.nil_sublist _
  | cons c claims ih =>
    unfold filterClaims
    split
    · exact (ih _).cons c
    · exact (ih _).cons_cons c

theorem convertToImportedBridgeExit_eq_ok_iff {claim : Claim H} {root : H}
    {l : L1InfoTreeDataQuerier H} {ibe : ImportedBridgeExit H} :
    convertToImportedBridgeExit K claim root l = .ok ibe ↔
      ∃ l1Info gerToL1Proof, l.getProofForGER K claim.globalExitRoot root = .ok (l1Info, gerToL1Proof) ∧
        ibe = { convertToImportedBridgeExitWithoutClaimData K claim with
          claimData := some (claimDataOf K (convertToImportedBridgeExitWithoutClaimData K claim) claim
            root l1Info gerToL1Proof) } := by
  unfold convertToImportedBridgeExit
  rw [Exec.except_bind_ok]
  constructor
  · rintro ⟨⟨l1Info, gerToL1Proof⟩, hproof, hibe⟩
    exact ⟨l1Info, gerToL1Proof, hproof, (Except.ok.inj hibe).symm⟩
  · rintro ⟨l1Info, gerToL1Proof, hproof, rfl⟩
    exact ⟨(l1Info, gerToL1Proof), hproof, rfl⟩

/-- Where full claims are needed, every imported exit is a claim with its claim data. -/
theorem BaseFlow.getImportedBridgeExits_eq_ok_iff {claims : List (Claim H)} {unclaims : List Unclaim}
    {root : H} {ibes : List (ImportedBridgeExit H)} (hfull : f.cfg.fullClaimsNeeded = true) :
    f.getImportedBridgeExits K claims unclaims root = .ok ibes ↔
      List.Forall₂ (fun claim ibe =>
        convertToImportedBridgeExit K claim root f.l1InfoTreeDataQuerier = .ok ibe)
        (filteredClaims claims unclaims) ibes := by
  unfold BaseFlow.getImportedBridgeExits
  rw [if_pos hfull, ← Exec.mapM_eq_ok_iff]
  unfold convertToImportedBridgeExits
  cases List.mapM (fun claim => convertToImportedBridgeExit K claim root f.l1InfoTreeDataQuerier)
      (filteredClaims claims unclaims) with
  | ok l => exact ⟨fun h => congrArg _ (Except.ok.inj h), fun h => congrArg _ (Except.ok.inj h)⟩
  | error err => exact ⟨nofun, nofun⟩

/-- The parts of a certificate that is built, and where each comes from. -/
structure BaseFlow.Built (f : BaseFlow H) (K : Keccak H) (certParams : CertificateBuildParams H)
    (lastSentCertificate : Option (CertificateHeader H)) (allowEmptyCert : Bool)
    (cert : Certificate H) : Prop where
  nonempty : allowEmptyCert = false → certParams.isEmpty = false
  importedBridgeExits : f.getImportedBridgeExits K certParams.claims certParams.unclaims
    certParams.l1InfoTreeRootFromWhichToProve = .ok cert.importedBridgeExits
  height : f.getNextHeightAndPreviousLER lastSentCertificate =
    .ok (cert.height, cert.prevLocalExitRoot)
  newLER : f.getNewLocalExitRoot certParams cert.prevLocalExitRoot = .ok cert.newLocalExitRoot
  bridgeExits : cert.bridgeExits = convertToBridgeExits K certParams.bridges
  networkID : cert.networkID = f.l2BridgeQuerier.originNetwork
  l1InfoTreeLeafCount : cert.l1InfoTreeLeafCount = certParams.l1InfoTreeLeafCount
  aggchainData : cert.aggchainData = none
  customChainData : cert.customChainData = []

theorem BaseFlow.buildCertificate_eq_ok_iff :
    f.buildCertificate K certParams lastSentCertificate allowEmptyCert = .ok cert ↔
      f.Built K certParams lastSentCertificate allowEmptyCert cert := by
  unfold BaseFlow.buildCertificate
  split_ifs with hempty
  · rw [Bool.and_eq_true, Bool.not_eq_true'] at hempty
    refine ⟨fun h => absurd h (by simp [throw, throwThe, MonadExceptOf.throw, bind, Except.bind]),
      fun h => ?_⟩
    exact absurd (h.nonempty hempty.1) (by simp [hempty.2])
  · rw [Bool.and_eq_true, Bool.not_eq_true'] at hempty
    have hnonempty : allowEmptyCert = false → certParams.isEmpty = false := fun hallow =>
      Bool.not_eq_true _ ▸ fun h => hempty ⟨hallow, h⟩
    simp only [Exec.except_bind_ok]
    constructor
    · rintro ⟨imported, himported, ⟨height, previousLER⟩, hheight, newLER, hnew, hcert⟩
      cases hcert
      exact ⟨hnonempty, himported, hheight, hnew, rfl, rfl, rfl, rfl, rfl⟩
    · intro h
      refine ⟨_, h.importedBridgeExits, _, h.height, _, h.newLER, ?_⟩
      rw [← h.bridgeExits, ← h.networkID, ← h.l1InfoTreeLeafCount, ← h.aggchainData,
        ← h.customChainData]
      rfl

end spec

end AggKit.AggSender
