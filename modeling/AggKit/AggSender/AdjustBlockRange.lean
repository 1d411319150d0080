import AggKit.AggSender.FlowBase
import AggKit.Lib.Loop
import AggKit.Lib.Pairing

/-!
# Cutting the block range of a certificate, as in `aggsender/flows/adjust_block_range.go`

`AdjustBlockRange` lowers the last block of the build parameters in stages: to the configured limits,
below the claims whose global exit root (GER) is on L1 but not under the selected L1 info root, until
the estimated size fits, and below the claims whose GER is not on L1 and that no later unclaim takes
back. Each stage copies the events that are left with `cloneCertificateBuildParamsWithRange`.

The last stage is a loop that ends only when nothing is left to cut. It does not end for every
argument: a claim one block after the last block of the range is cut off by a trim to the same
range. `adjustBlockRange` therefore has a number of iterations as its argument and is `none` when
they do not suffice.
-/

namespace AggKit.AggSender

open ClaimSync (Claim)

/-- `BlockRangeAdjustmentOptions`; a limit of 0 is no limit. -/
structure BlockRangeAdjustmentOptions where
  maxL2BlockNumber : ℕ
  maxL2BlockRange : ℕ
  allowResizeRetryCert : Bool
  requireOneBridgeInCertificate : Bool
  validateRootToProve : Bool
  disableSizeLimit : Bool
deriving DecidableEq

/-- The limit that `adjustToMaxL2Block` names in its errors. -/
inductive Limit where
  /-- `maxL2BlockNumber` -/
  | maxL2BlockNumber
  /-- `maxL2BlockRange` -/
  | maxL2BlockRange
deriving DecidableEq

/-- The errors of `AdjustBlockRange`. -/
inductive AdjustError where
  /-- `ErrMaxL2BlockNumberExceededInARetryCert` -/
  | maxL2BlockNumberExceededInARetryCert
  /-- `ErrMaxL2BlockRangeExceededInARetryCert` -/
  | maxL2BlockRangeExceededInARetryCert
  /-- `ErrComplete` -/
  | complete
  /-- `the current reduced range … has no bridges but has %d imported bridges` -/
  | noBridgesButClaims (limit : Limit) (claims : ℕ)
  /-- `the current reduced range … has no bridges` -/
  | noBridges (limit : Limit)
  /-- `L1InfoTreeLeafCount must be greater than 0` -/
  | leafCountZero
  /-- `error getting L1 info tree root by leaf count %d` -/
  | rootByLeafCount
  /-- `L1InfoTreeRootFromWhichToProve %s does not match root %s for leaf count %d` -/
  | rootMismatch
  /-- `error getting latest finalized L1 info root` -/
  | latestFinalizedRoot
  /-- `L1 info tree root %s at leaf count %d is not finalized yet` -/
  | rootNotFinalized
  /-- `GER %s exists on L1 but cannot be proved … and L1InfoTreeLeafCount is 0` -/
  | notProvableLeafCountZero
  /-- `error checking if GER %s is under selected root %s` -/
  | gerFinalized
  /-- `GER %s exists on L1 but cannot be proved against selected root %s` -/
  | notProvableUnderRoot
  /-- `proof lookup failed for GER %s against root %s` -/
  | proofLookup (err : ProofError)
  /-- `cannot create certificate: claim at block %d … is not yet under the selected L1 info root` -/
  | claimNotUnderRoot (blockNum : ℕ)
  /-- `cannot create certificate: invalid claim at block %d … has no matching posterior unclaim` -/
  | invalidClaim (blockNum : ℕ)
  /-- `cannot adjust toBlock to a higher value` -/
  | higherToBlock
  /-- `cannot create certificate: trimming to block %d would move before start block %d` -/
  | beforeFromBlock
  /-- `invalid range. FromBlock %d and ToBlock %d are not within the certificate range` -/
  | notWithinRange
  /-- `invalid range. FromBlock %d is greater than toBlock %d` -/
  | descendingRange
deriving DecidableEq

variable {H : Type}

/-! ## Copying a part of the range -/

/-- The three filters of `cloneCertificateBuildParamsWithRange`. -/
def inBlocks {α : Type} (block : α → ℕ) (fromBlock toBlock : ℕ) (events : List α) : List α :=
  events.filter fun e => fromBlock ≤ block e ∧ block e ≤ toBlock

/-- The part of the build parameters from `fromBlock` to `toBlock`. -/
def CertificateBuildParams.withRange (params : CertificateBuildParams H) (fromBlock toBlock : ℕ) :
    CertificateBuildParams H :=
  { params with
    fromBlock := fromBlock
    toBlock := toBlock
    bridges := inBlocks BridgeSync.Bridge.blockNum fromBlock toBlock params.bridges
    claims := inBlocks Claim.blockNum fromBlock toBlock params.claims
    unclaims := inBlocks Unclaim.blockNumber fromBlock toBlock params.unclaims }

/-- `cloneCertificateBuildParamsWithRange`. -/
def cloneCertificateBuildParamsWithRange (params : CertificateBuildParams H)
    (fromBlock toBlock : ℕ) : Except AdjustError (CertificateBuildParams H) :=
  if fromBlock < params.fromBlock ∨ params.toBlock < toBlock then .error .notWithinRange
  else if toBlock < fromBlock then .error .descendingRange
  else if params.fromBlock = fromBlock ∧ params.toBlock = toBlock then .ok params
  else .ok (params.withRange fromBlock toBlock)

/-- `trimCertificateToBlock`. -/
def trimCertificateToBlock (params : CertificateBuildParams H) (newToBlock : ℕ) :
    Except AdjustError (CertificateBuildParams H) :=
  if params.toBlock < newToBlock then .error .higherToBlock
  else if params.toBlock = newToBlock then .ok params
  else if newToBlock < params.fromBlock then .error .beforeFromBlock
  else cloneCertificateBuildParamsWithRange params params.fromBlock newToBlock

/-! ## The configured limits -/

/-- `isUpcomingNextRange`. -/
def isUpcomingNextRange (maxL2BlockNumber fromBlock toBlock : ℕ) : Bool :=
  maxL2BlockNumber ≠ 0 ∧ fromBlock = maxL2BlockNumber + 1 ∧ maxL2BlockNumber < toBlock

/-- `adjustToMaxL2Block`. -/
def adjustToMaxL2Block (params : CertificateBuildParams H) (options : BlockRangeAdjustmentOptions)
    (maxL2BlockNumber : ℕ) (limit : Limit) (completeOnEmptyRequiredBridge : Bool) :
    Except AdjustError (CertificateBuildParams H) := do
  let adjusted ← cloneCertificateBuildParamsWithRange params params.fromBlock maxL2BlockNumber
  -- The branch of the source for an empty range without the requirement returns `adjusted` too.
  if options.requireOneBridgeInCertificate = true ∧ adjusted.numberOfBridges = 0 then
    if 0 < adjusted.numberOfClaims then throw (.noBridgesButClaims limit adjusted.numberOfClaims)
    if completeOnEmptyRequiredBridge then throw .complete
    throw (.noBridges limit)
  return adjusted

/-- `adjustMaxL2BlockNumber`. -/
def adjustMaxL2BlockNumber (params : CertificateBuildParams H)
    (options : BlockRangeAdjustmentOptions) : Except AdjustError (CertificateBuildParams H) :=
  if options.maxL2BlockNumber = 0 ∨ params.toBlock ≤ options.maxL2BlockNumber then .ok params
  else if params.isARetry && !options.allowResizeRetryCert then
    .error .maxL2BlockNumberExceededInARetryCert
  else if isUpcomingNextRange options.maxL2BlockNumber params.fromBlock params.toBlock then
    .error .complete
  else if options.maxL2BlockNumber < params.fromBlock then .error .complete
  else adjustToMaxL2Block params options options.maxL2BlockNumber .maxL2BlockNumber true

/-- `adjustMaxL2BlockRange`. -/
def adjustMaxL2BlockRange (params : CertificateBuildParams H)
    (options : BlockRangeAdjustmentOptions) : Except AdjustError (CertificateBuildParams H) :=
  if options.maxL2BlockRange = 0 ∨ params.toBlock ≤ params.fromBlock ∨
      params.toBlock - params.fromBlock ≤ options.maxL2BlockRange then .ok params
  else if params.isARetry && !options.allowResizeRetryCert then
    .error .maxL2BlockRangeExceededInARetryCert
  else
    adjustToMaxL2Block params options (params.fromBlock + options.maxL2BlockRange) .maxL2BlockRange
      false

/-! ## The size of the certificate -/

/-- One iteration of the loop of `limitCertSize`. -/
def BaseFlow.limitCertSizeStep (f : BaseFlow H) (currentCert : CertificateBuildParams H) :
    Except AdjustError (Loop.Next (CertificateBuildParams H) (CertificateBuildParams H)) :=
  if f.cfg.maxCertSize = 0 ∨
      f.cfg.estimatedSize currentCert.numberOfBridges currentCert.numberOfClaims ≤
        f.cfg.maxCertSize then .ok (.done currentCert)
  else if currentCert.numberOfBlocks ≤ 1 then .ok (.done currentCert)
  else do
    let nextCert ← cloneCertificateBuildParamsWithRange currentCert currentCert.fromBlock
      (currentCert.toBlock - 1)
    return .again nextCert

theorem BaseFlow.limitCertSizeStep_eq_again {f : BaseFlow H} {p q : CertificateBuildParams H}
    (h : f.limitCertSizeStep p = .ok (.again q)) :
    p.fromBlock < p.toBlock ∧
      cloneCertificateBuildParamsWithRange p p.fromBlock (p.toBlock - 1) = .ok q := by
  unfold BaseFlow.limitCertSizeStep at h
  split at h
  · cases h
  split at h
  · cases h
  rename_i hblocks
  unfold CertificateBuildParams.numberOfBlocks at hblocks
  obtain ⟨next, hclone, hnext⟩ := Exec.except_bind_ok.mp h
  obtain rfl : next = q := Loop.Next.again.inj (Except.ok.inj hnext)
  exact ⟨by omega, hclone⟩

theorem toBlock_of_clone {p q : CertificateBuildParams H} {fromBlock toBlock : ℕ}
    (h : cloneCertificateBuildParamsWithRange p fromBlock toBlock = .ok q) :
    q.toBlock = toBlock := by
  unfold cloneCertificateBuildParamsWithRange at h
  split at h
  · cases h
  split at h
  · cases h
  split at h
  · rename_i hsame
    cases h
    exact hsame.2
  · cases h
    rfl

/-- `limitCertSize`. -/
def BaseFlow.limitCertSize (f : BaseFlow H) (params : CertificateBuildParams H) :
    Except AdjustError (CertificateBuildParams H) :=
  -- Every iteration that goes on gives up one block.
  Loop.eval f.limitCertSizeStep CertificateBuildParams.toBlock
    (fun h => by
      obtain ⟨hlt, hclone⟩ := BaseFlow.limitCertSizeStep_eq_again h
      have hto := toBlock_of_clone hclone
      omega)
    params

/-! ## The claims and their global exit roots -/

/-- `gerValidationCache`. -/
abbrev GERValidationCache (H : Type) := H → Option Bool

/-- `newGERValidationCache`. -/
def newGERValidationCache : GERValidationCache H := fun _ => none

variable [DecidableEq H]

/-- `getGERExistsOnL1`: the answer, and the cache that holds it. -/
def BaseFlow.getGERExistsOnL1 (f : BaseFlow H) (cache : GERValidationCache H) (ger : H) :
    Bool × GERValidationCache H :=
  match cache ger with
  | some existsOnL1 => (existsOnL1, cache)
  | none =>
    let existsOnL1 := f.l1InfoTreeDataQuerier.doesGERExistsOnL1 ger
    (existsOnL1, Function.update cache ger (some existsOnL1))

variable (K : Keccak H)

/-- `validateRootToProveIsFinalized`. -/
def BaseFlow.validateRootToProveIsFinalized (f : BaseFlow H) (params : CertificateBuildParams H) :
    Except AdjustError Unit :=
  if params.l1InfoTreeLeafCount = 0 then .error .leafCountZero
  else
    match f.l1InfoTreeDataQuerier.getL1InfoRootByLeafIndex K (params.l1InfoTreeLeafCount - 1) with
    | none => .error .rootByLeafCount
    | some rootForLeafCount =>
      if rootForLeafCount.hash ≠ params.l1InfoTreeRootFromWhichToProve then .error .rootMismatch
      else
        match f.l1InfoTreeDataQuerier.getTargetL1InfoRoot with
        | none => .error .latestFinalizedRoot
        | some latestFinalizedRoot =>
          if latestFinalizedRoot.index < rootForLeafCount.index then .error .rootNotFinalized
          else .ok ()

/-- The loop of `adjustClaimsNotProvableAgainstRoot`, with the cache and `notUnderRootClaim`. -/
def BaseFlow.findClaimNotUnderRoot (f : BaseFlow H) (root : H) (leafCount : UInt32) :
    List (Claim H) → GERValidationCache H → Option (Claim H) →
      Except AdjustError (GERValidationCache H × Option (Claim H))
  | [], cache, notUnderRootClaim => .ok (cache, notUnderRootClaim)
  | claim :: claims, cache, notUnderRootClaim =>
    match f.l1InfoTreeDataQuerier.getProofForGER K claim.globalExitRoot root with
    | .ok _ =>
      f.findClaimNotUnderRoot root leafCount claims
        (Function.update cache claim.globalExitRoot (some true)) notUnderRootClaim
    | .error err =>
      let (existsOnL1, cache) := f.getGERExistsOnL1 cache claim.globalExitRoot
      if !existsOnL1 then f.findClaimNotUnderRoot root leafCount claims cache notUnderRootClaim
      else if err = .gerNotProvableAgainstRoot then
        if leafCount = 0 then .error .notProvableLeafCountZero
        else
          match f.l1InfoTreeDataQuerier.isGERFinalized claim.globalExitRoot leafCount with
          | none => .error .gerFinalized
          | some true => .error .notProvableUnderRoot
          | some false =>
            f.findClaimNotUnderRoot root leafCount claims cache
              (match notUnderRootClaim with
              | none => some claim
              | some lowest => if claim.blockNum < lowest.blockNum then some claim else some lowest)
      else .error (.proofLookup err)

/-- `adjustClaimsNotProvableAgainstRoot`. -/
def BaseFlow.adjustClaimsNotProvableAgainstRoot (f : BaseFlow H) (params : CertificateBuildParams H)
    (cache : GERValidationCache H) :
    Except AdjustError (CertificateBuildParams H × GERValidationCache H) := do
  let (cache, notUnderRootClaim) ← f.findClaimNotUnderRoot K params.l1InfoTreeRootFromWhichToProve
    params.l1InfoTreeLeafCount params.claims cache none
  match notUnderRootClaim with
  | none => return (params, cache)
  | some claim =>
    if claim.blockNum ≤ params.fromBlock then throw (.claimNotUnderRoot claim.blockNum)
    let params ← trimCertificateToBlock params (claim.blockNum - 1)
    return (params, cache)

omit [DecidableEq H] in
/-- `compareClaimToUnclaimOrder(claim, unclaim) < 0`: block first, then the position in it. -/
def Unclaim.isPosterior (unclaim : Unclaim) (claim : Claim H) : Prop :=
  claim.blockNum < unclaim.blockNumber ∨
    claim.blockNum = unclaim.blockNumber ∧ claim.blockPos < unclaim.logIndex

instance (unclaim : Unclaim) (claim : Claim H) : Decidable (unclaim.isPosterior claim) :=
  inferInstanceAs (Decidable (_ ∨ _))

omit [DecidableEq H] in
/-- `claimHasPosteriorUnclaim`, with the marks of `usedUnclaims` beside the unclaims; the marks
afterwards when it has one. -/
def claimHasPosteriorUnclaim (claim : Claim H) :
    List (Unclaim × Bool) → Option (List (Unclaim × Bool))
  | [] => none
  | (unclaim, used) :: unclaims =>
    if used = false ∧ claim.globalIndex = unclaim.globalIndex ∧ unclaim.isPosterior claim then
      some ((unclaim, true) :: unclaims)
    else (claimHasPosteriorUnclaim claim unclaims).map ((unclaim, used) :: ·)

omit [DecidableEq H] in
/-- The second loop of `findFirstMissingGERClaimWithoutFinalUnclaim`. -/
def findClaimWithoutUnclaim : List (Claim H) → List (Unclaim × Bool) → Option (Claim H)
  | [], _ => none
  | claim :: missingClaims, unclaims =>
    match claimHasPosteriorUnclaim claim unclaims with
    | some unclaims => findClaimWithoutUnclaim missingClaims unclaims
    | none => some claim

/-- The first loop of `findFirstMissingGERClaimWithoutFinalUnclaim`. -/
def BaseFlow.findMissingClaims (f : BaseFlow H) :
    List (Claim H) → GERValidationCache H → List (Claim H) × GERValidationCache H
  | [], cache => ([], cache)
  | claim :: claims, cache =>
    let (existsOnL1, cache) := f.getGERExistsOnL1 cache claim.globalExitRoot
    let (missingClaims, cache) := f.findMissingClaims claims cache
    (if existsOnL1 then missingClaims else claim :: missingClaims, cache)

/-- `findFirstMissingGERClaimWithoutFinalUnclaim`. -/
def BaseFlow.findFirstMissingGERClaimWithoutFinalUnclaim (f : BaseFlow H)
    (params : CertificateBuildParams H) (cache : GERValidationCache H) :
    Option (Claim H) × GERValidationCache H :=
  let (missingClaims, cache) := f.findMissingClaims params.claims cache
  (findClaimWithoutUnclaim missingClaims (params.unclaims.map fun u => (u, false)), cache)

/-- One iteration of the loop of `adjustInvalidClaimsAreNotUnclaimed`. -/
def BaseFlow.adjustInvalidClaimsStep (f : BaseFlow H)
    (s : CertificateBuildParams H × GERValidationCache H) :
    Except AdjustError
      (Loop.Next (CertificateBuildParams H × GERValidationCache H) (CertificateBuildParams H)) :=
  let (current, cache) := s
  match f.findFirstMissingGERClaimWithoutFinalUnclaim current cache with
  | (none, _) => .ok (.done current)
  | (some invalidClaim, cache) =>
    if invalidClaim.blockNum ≤ current.fromBlock then .error (.invalidClaim invalidClaim.blockNum)
    else do
      let current ← trimCertificateToBlock current (invalidClaim.blockNum - 1)
      return .again (current, cache)

/-- `adjustInvalidClaimsAreNotUnclaimed`. -/
def BaseFlow.adjustInvalidClaimsAreNotUnclaimed (f : BaseFlow H) (fuel : ℕ)
    (params : CertificateBuildParams H) (cache : GERValidationCache H) :
    Option (Except AdjustError (CertificateBuildParams H)) :=
  Loop.run f.adjustInvalidClaimsStep fuel (params, cache)

/-- `AdjustBlockRange` up to the call of `adjustInvalidClaimsAreNotUnclaimed`. -/
def BaseFlow.adjustToLimits (f : BaseFlow H) (params : CertificateBuildParams H)
    (options : BlockRangeAdjustmentOptions) :
    Except AdjustError (CertificateBuildParams H × GERValidationCache H) := do
  let current ← adjustMaxL2BlockNumber params options
  let current ← adjustMaxL2BlockRange current options
  let _ ← (if options.validateRootToProve then f.validateRootToProveIsFinalized K current
    else .ok ())
  let (current, cache) ← f.adjustClaimsNotProvableAgainstRoot K current newGERValidationCache
  let current ← (if options.disableSizeLimit then .ok current else f.limitCertSize current)
  return (current, cache)

/-- `AdjustBlockRange`; `none` when its last loop does not end within `fuel` iterations. -/
def BaseFlow.adjustBlockRange (f : BaseFlow H) (fuel : ℕ) (params : CertificateBuildParams H)
    (options : BlockRangeAdjustmentOptions) :
    Option (Except AdjustError (CertificateBuildParams H)) :=
  match f.adjustToLimits K params options with
  | .error err => some (.error err)
  | .ok (current, cache) => f.adjustInvalidClaimsAreNotUnclaimed fuel current cache

end AggKit.AggSender
