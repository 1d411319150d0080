import AggKit.AggSender.Unclaimed

/-!
# The pessimistic proof flow, as in `aggsender/flows/builder_flow_pp.go`

`GetCertificateBuildParams` takes the blocks after the certificate that was sent last, collects their
events (`flow_base.go`), cuts the range with `AdjustBlockRange` and verifies what is left;
`BuildCertificate` builds the certificate.

The flow can be configured to send certificates with a bridge exit only. It asks for a bridge before
the range is cut, and `adjustToMaxL2Block` asks again for the limits, but the stages after that may
cut off every block with a bridge. Whether a bridge is left is a matter of the blocks at which those
stages cut, which `AggKit.AggSender.Unclaimed` has determined.
-/

namespace AggKit.AggSender

open ClaimSync (Claim)
open Agglayer (Certificate)

variable {H : Type}

/-! ## The model -/

/-- The errors of `GetCertificateBuildParams`. -/
inductive FlowError where
  /-- `no processed block yet found from l2` -/
  | noProcessedBlock
  /-- `error deriving toBlock for settled cert %s` -/
  | derivingToBlock
  /-- `errNoNewBlocks` -/
  | noNewBlocks
  /-- `error getting latest finalized L1 info root` -/
  | latestFinalizedRoot
  /-- `error adjusting block range` -/
  | adjust (err : AdjustError)
  /-- `retry certificate fromBlock %d != last sent certificate fromBlock %d` -/
  | retryStartingBlock
  /-- `GER mismatch. Expected: %s, got: %s` -/
  | gerMismatch (globalIndex blockNum : ℕ)
deriving DecidableEq

/-- `CertificatePreBuildParams`, with the fields of `CertificateL1InfoTreeData`. -/
structure CertificatePreBuildParams (H : Type) where
  fromBlock : ℕ
  toBlock : ℕ
  retryCount : ℕ
  certificateType : CertificateType
  lastSentCertificate : Option (CertificateHeader H)
  l1InfoTreeRootToProve : H
  l1InfoTreeLeafCount : UInt32

/-- `getLastSentBlockAndRetryCount`. -/
def BaseFlow.getLastSentBlockAndRetryCount (f : BaseFlow H) :
    Option (CertificateHeader H) → ℕ × ℕ
  | none => (f.cfg.startL2Block, 0)
  | some last =>
    if last.status = .inError then
      (if 0 < last.fromBlock then last.fromBlock - 1 else last.toBlock, last.retryCount + 1)
    else (last.toBlock, 0)

/-- `NextCertificateBlockRange`: the range and the retry count. `certQuerier` is what
`GetLastSettledCertificateToBlock` answers for a certificate, if the flow has a querier. -/
def BaseFlow.nextCertificateBlockRange (f : BaseFlow H)
    (certQuerier : Option (CertificateHeader H → Option ℕ))
    (lastSentCertificate : Option (CertificateHeader H)) : Except FlowError ((ℕ × ℕ) × ℕ) := do
  let lastL2BlockSynced ← (match f.l2BridgeQuerier.getLastProcessedBlock with
    | none => .error .noProcessedBlock
    | some block => .ok block)
  let (previousToBlock, retryCount) := f.getLastSentBlockAndRetryCount lastSentCertificate
  let previousToBlock ← (match lastSentCertificate, certQuerier with
    | some last, some getLastSettledCertificateToBlock =>
      if last.status = .settled then
        match getLastSettledCertificateToBlock last with
        | none => .error .derivingToBlock
        | some derivedToBlock => .ok derivedToBlock
      else .ok previousToBlock
    | _, _ => .ok previousToBlock)
  if lastL2BlockSynced ≤ previousToBlock then throw .noNewBlocks
  return ((previousToBlock + 1, lastL2BlockSynced), retryCount)

/-- `GeneratePreBuildParams`. -/
def BaseFlow.generatePreBuildParams (f : BaseFlow H)
    (certQuerier : Option (CertificateHeader H → Option ℕ))
    (lastSentCertificate : Option (CertificateHeader H)) (certType : CertificateType) :
    Except FlowError (CertificatePreBuildParams H) := do
  let (nextBlocks, retryCount) ← f.nextCertificateBlockRange certQuerier lastSentCertificate
  match f.l1InfoTreeDataQuerier.getTargetL1InfoRoot with
  | none => throw .latestFinalizedRoot
  | some l1InfoRoot =>
    return {
      fromBlock := nextBlocks.1
      toBlock := nextBlocks.2
      retryCount := retryCount
      certificateType := certType
      lastSentCertificate := lastSentCertificate
      l1InfoTreeRootToProve := l1InfoRoot.hash
      l1InfoTreeLeafCount := l1InfoRoot.index + 1 }

/-- `GenerateBuildParams` of the base flow. -/
def BaseFlow.generateBuildParams (f : BaseFlow H) (preParams : CertificatePreBuildParams H) :
    CertificateBuildParams H where
  fromBlock := preParams.fromBlock
  toBlock := preParams.toBlock
  bridges := f.l2BridgeQuerier.getBridges preParams.fromBlock preParams.toBlock
  claims := f.l2BridgeQuerier.getClaims preParams.fromBlock preParams.toBlock
  unclaims := f.l2BridgeQuerier.getUnsetClaimsForBlockRange preParams.fromBlock preParams.toBlock
  retryCount := preParams.retryCount
  lastSentCertificate := preParams.lastSentCertificate
  l1InfoTreeRootFromWhichToProve := preParams.l1InfoTreeRootToProve
  l1InfoTreeLeafCount := preParams.l1InfoTreeLeafCount
  certificateType := preParams.certificateType

/-- `GetCertificateBuildParamsInternal`. -/
def BaseFlow.getCertificateBuildParamsInternal (f : BaseFlow H)
    (certQuerier : Option (CertificateHeader H → Option ℕ))
    (lastSentCertificate : Option (CertificateHeader H)) (certType : CertificateType) :
    Except FlowError (CertificateBuildParams H) := do
  let preParams ← f.generatePreBuildParams certQuerier lastSentCertificate certType
  return f.generateBuildParams preParams

/-- `verifyRetryCertStartingBlock`. -/
def verifyRetryCertStartingBlock (params : CertificateBuildParams H) : Except FlowError Unit :=
  match params.lastSentCertificate with
  | some last =>
    if params.isARetry && params.fromBlock ≠ last.fromBlock then .error .retryStartingBlock
    else .ok ()
  | none => .ok ()

variable [DecidableEq H] (K : Keccak H)

/-- `verifyClaimGERs`. -/
def verifyClaimGERs (claims : List (Claim H)) : Except FlowError Unit :=
  match claims.find? fun claim =>
    L1InfoTreeSync.calculateGER K claim.mainnetExitRoot claim.rollupExitRoot ≠
      claim.globalExitRoot with
  | some claim => .error (.gerMismatch claim.globalIndex claim.blockNum)
  | none => .ok ()

/-- `VerifyBuildParams`. -/
def verifyBuildParams (params : CertificateBuildParams H) : Except FlowError Unit := do
  verifyRetryCertStartingBlock params
  verifyClaimGERs K params.claims

/-- `PPBuilderFlow`, with the certificate that the storage holds as the last. -/
structure PPBuilderFlow (H : Type) where
  baseFlow : BaseFlow H
  lastSentCertificateHeader : Option (CertificateHeader H)
  /-- `GetLastSettledCertificateToBlock` of the querier of the base flow, if it has one. -/
  certQuerier : Option (CertificateHeader H → Option ℕ)
  forceOneBridgeExit : Bool
  maxL2BlockNumber : ℕ
  maxL2BlockRange : ℕ

namespace PPBuilderFlow

omit [DecidableEq H] in
/-- `adjustmentOptions`. -/
def adjustmentOptions (p : PPBuilderFlow H) (validateRootToProve : Bool) :
    BlockRangeAdjustmentOptions where
  maxL2BlockNumber := p.maxL2BlockNumber
  maxL2BlockRange := p.maxL2BlockRange
  allowResizeRetryCert := true
  requireOneBridgeInCertificate := p.forceOneBridgeExit
  validateRootToProve := validateRootToProve
  disableSizeLimit := validateRootToProve

omit [DecidableEq H] in
/-- The events that `GetCertificateBuildParams` starts from. -/
def dataSet (p : PPBuilderFlow H) : Except FlowError (CertificateBuildParams H) :=
  p.baseFlow.getCertificateBuildParamsInternal p.certQuerier p.lastSentCertificateHeader .pp

/-- The rest of `GetCertificateBuildParams` after the check for an empty range: adjust and verify. -/
def adjustAndVerify (p : PPBuilderFlow H) (fuel : ℕ)
    (buildParams : CertificateBuildParams H) (validateRootToProve : Bool) :
    Option (Except FlowError (CertificateBuildParams H)) :=
  (p.baseFlow.adjustBlockRange K fuel buildParams (p.adjustmentOptions validateRootToProve)).map
    fun
    | .error err => .error (.adjust err)
    | .ok adjusted => do
      verifyBuildParams K adjusted
      return adjusted

/-- `GetCertificateBuildParams`; no parameters where there is nothing to send, and `none` when the
loop of `AdjustBlockRange` does not end within `fuel` iterations. -/
def getCertificateBuildParams (p : PPBuilderFlow H) (fuel : ℕ) :
    Option (Except FlowError (Option (CertificateBuildParams H))) :=
  match p.dataSet with
  | .error .noNewBlocks => some (.ok none)
  | .error err => some (.error err)
  | .ok buildParams =>
    if p.forceOneBridgeExit && buildParams.numberOfBridges = 0 then some (.ok none)
    else if buildParams.isEmpty then some (.ok none)
    else (p.adjustAndVerify K fuel buildParams false).map fun r => r.map some

/-- `GenerateBuildParams`, of the validator. -/
def generateBuildParams (p : PPBuilderFlow H) (fuel : ℕ)
    (preParams : CertificatePreBuildParams H) :
    Option (Except FlowError (CertificateBuildParams H)) :=
  p.adjustAndVerify K fuel (p.baseFlow.generateBuildParams preParams) true

/-- `BuildCertificate`. -/
def buildCertificate (p : PPBuilderFlow H) (buildParams : CertificateBuildParams H) :
    Except BuildError (Certificate H) :=
  p.baseFlow.buildCertificate K buildParams buildParams.lastSentCertificate false

end PPBuilderFlow

/-! ## The events of a flow -/

omit [DecidableEq H] in
/-- The queriers answer with events of the range that is asked for, claims and unclaims in the order
of the chain. -/
structure BridgeQuerier.Orderly (q : BridgeQuerier H) : Prop where
  bridges : ∀ fromBlock toBlock, ∀ b ∈ q.getBridges fromBlock toBlock,
    fromBlock ≤ b.blockNum ∧ b.blockNum ≤ toBlock
  claims : ∀ fromBlock toBlock, ∀ c ∈ q.getClaims fromBlock toBlock,
    fromBlock ≤ c.blockNum ∧ c.blockNum ≤ toBlock
  claims_sorted : ∀ fromBlock toBlock,
    (q.getClaims fromBlock toBlock).Pairwise fun c c' => c.key ≤ c'.key
  unclaims : ∀ fromBlock toBlock, ∀ u ∈ q.getUnsetClaimsForBlockRange fromBlock toBlock,
    fromBlock ≤ u.blockNumber ∧ u.blockNumber ≤ toBlock
  unclaims_sorted : ∀ fromBlock toBlock,
    (q.getUnsetClaimsForBlockRange fromBlock toBlock).Pairwise fun u u' => u.key ≤ u'.key

section dataSet

variable {K} {p : PPBuilderFlow H} {params q : CertificateBuildParams H}

omit [DecidableEq H] in
theorem BaseFlow.nextCertificateBlockRange_le {f : BaseFlow H}
    {certQuerier : Option (CertificateHeader H → Option ℕ)}
    {last : Option (CertificateHeader H)} {range : ℕ × ℕ} {retryCount : ℕ}
    (h : f.nextCertificateBlockRange certQuerier last = .ok (range, retryCount)) :
    range.1 ≤ range.2 := by
  obtain ⟨lastSynced, -, h⟩ := Exec.except_bind_ok.mp h
  obtain ⟨previousToBlock, -, h⟩ := Exec.except_bind_ok.mp h
  simp only at h
  split at h
  · cases h
  · rename_i hnew
    obtain ⟨rfl, -⟩ := Prod.mk.inj (Except.ok.inj h)
    exact Nat.not_le.mp hnew

namespace PPBuilderFlow

omit [DecidableEq H] in
/-- The events that the flow starts from lie in their range, in the order of the chain. -/
theorem dataSet_spec (ho : p.baseFlow.l2BridgeQuerier.Orderly)
    (h : p.dataSet = .ok params) : params.InRange ∧ params.Chronological := by
  obtain ⟨pre, hpre, h⟩ := Exec.except_bind_ok.mp h
  cases h
  have hle : pre.fromBlock ≤ pre.toBlock := by
    obtain ⟨⟨range, retryCount⟩, hrange, hpre⟩ := Exec.except_bind_ok.mp hpre
    simp only at hpre
    split at hpre
    · cases hpre
    · cases hpre
      exact BaseFlow.nextCertificateBlockRange_le hrange
  exact ⟨⟨hle, ho.bridges _ _, ho.claims _ _, ho.unclaims _ _⟩,
    ⟨ho.claims_sorted _ _, ho.unclaims_sorted _ _⟩⟩

/-- The build parameters that the flow returns are those of the data set, adjusted. -/
theorem getCertificateBuildParams_eq_some {fuel : ℕ} (hdata : p.dataSet = .ok params)
    (h : p.getCertificateBuildParams K fuel = some (.ok (some q))) :
    p.baseFlow.adjustBlockRange K fuel params (p.adjustmentOptions false) = some (.ok q) := by
  unfold getCertificateBuildParams at h
  simp only [hdata] at h
  split at h
  · cases h
  split at h
  · cases h
  obtain ⟨r, hr, hmap⟩ := Option.map_eq_some_iff.mp h
  obtain ⟨adjusted, hadjusted, rfl⟩ := Option.map_eq_some_iff.mp hr
  cases adjusted with
  | error err => cases hmap
  | ok adjusted =>
    simp only at hmap
    cases hverify : verifyBuildParams K adjusted with
    | error err =>
      rw [hverify] at hmap
      cases hmap
    | ok _ =>
      rw [hverify] at hmap
      cases Except.ok.inj hmap
      exact hadjusted

/-- A bridge of the data set stays: there are a block `s` within the limits up to which the claims
are under the root and the size fits, and a block `t` from the bridge to `s` up to which every claim
without a GER on L1 is taken back. -/
def KeepsBridge (p : PPBuilderFlow H) (K : Keccak H)
    (params : CertificateBuildParams H) : Prop :=
  ∃ b ∈ params.bridges, ∃ s t, b.blockNum ≤ t ∧ t ≤ s ∧ s ≤ params.toBlock ∧
    (p.adjustmentOptions false).Allows (params.upTo s) ∧
    p.baseFlow.UnderRoot K (params.upTo s) ∧ p.baseFlow.FitsSize (params.upTo s) ∧
    p.baseFlow.Unclaimed K (params.upTo t)

theorem bridges_ne_nil_iff {fuel : ℕ} (hrange : params.InRange)
    (hchron : params.Chronological)
    (h : p.baseFlow.adjustBlockRange K fuel params (p.adjustmentOptions false) = some (.ok q)) :
    q.bridges ≠ [] ↔ p.KeepsBridge K params := by
  obtain ⟨q0, q1, hcut0, hcut1, -, -, hlast⟩ := BaseFlow.adjustBlockRange_cuts hrange h
  have hcut2 := hlast hchron
  have hle : q.toBlock ≤ q0.toBlock := hcut2.le_toBlock.trans hcut1.le_toBlock
  have hq1 : q1 = params.upTo q1.toBlock := by
    calc q1 = q0.upTo q1.toBlock := hcut1.eq_upTo
      _ = params.upTo q1.toBlock := hcut0.upTo_eq hcut1.le_toBlock
  have hq : q = params.upTo q.toBlock := by
    calc q = q1.upTo q.toBlock := hcut2.eq_upTo
      _ = q0.upTo q.toBlock := hcut1.upTo_eq hcut2.le_toBlock
      _ = params.upTo q.toBlock := hcut0.upTo_eq hle
  constructor
  · intro hbridges
    obtain ⟨b, hb⟩ := List.exists_mem_of_ne_nil _ hbridges
    rw [hq] at hb
    obtain ⟨hmem, -, hto⟩ := mem_inBlocks.mp hb
    obtain ⟨hallows, hunder⟩ := hcut0.isGreatest.1.2.2
    -- The cuts themselves are the two blocks.
    refine ⟨b, hmem, q1.toBlock, q.toBlock, hto, hcut2.le_toBlock,
      hcut1.le_toBlock.trans hcut0.le_toBlock, ?_, ?_, ?_, ?_⟩
    · exact BlockRangeAdjustmentOptions.allows_upTo_of_le hcut1.le_toBlock hallows
    · exact BaseFlow.underRoot_upTo_of_le hcut1.le_toBlock hunder
    · rw [← hq1]
      exact hcut1.holds.resolve_left Bool.false_ne_true
    · rw [← hq]
      exact hcut2.holds
  · rintro ⟨b, hmem, s, t, hbt, hts, hs, hallows, hunder, hfits, hunclaimed⟩
    have hfrom := (hrange.bridges b hmem).1
    -- Neither block is above the cut of its stages.
    have hs0 : s ≤ q0.toBlock := hcut0.isGreatest.2 ⟨by omega, hs, hallows, hunder⟩
    have hs1 : s ≤ q1.toBlock := by
      refine hcut1.isGreatest.2 ⟨by rw [hcut0.fromBlock]; omega, hs0, Or.inr ?_⟩
      rw [hcut0.upTo_eq hs0]
      exact hfits
    have htq : t ≤ q.toBlock := by
      have hfrom1 : q1.fromBlock = params.fromBlock := hcut1.fromBlock.trans hcut0.fromBlock
      refine hcut2.isGreatest.2 ⟨by rw [hfrom1]; omega, hts.trans hs1, ?_⟩
      rw [hcut1.upTo_eq (hts.trans hs1), hcut0.upTo_eq (hts.trans hs0)]
      exact hunclaimed
    have hb : b ∈ q.bridges := by
      rw [hq]
      exact mem_inBlocks.mpr ⟨hmem, hfrom, hbt.trans htq⟩
    exact List.ne_nil_of_mem hb

end PPBuilderFlow

end dataSet

/-- A certificate of the flow has a bridge exit exactly when a bridge of the data set stays. -/
theorem PPBuilderFlow.bridgeExits_ne_nil_iff (p : PPBuilderFlow H) (K : Keccak H)
    (ho : p.baseFlow.l2BridgeQuerier.Orderly) (fuel : ℕ) (params q : CertificateBuildParams H)
    (hdata : p.dataSet = .ok params)
    (hparams : p.getCertificateBuildParams K fuel = some (.ok (some q)))
    (cert : Certificate H) (hcert : p.buildCertificate K q = .ok cert) :
    cert.bridgeExits ≠ [] ↔ p.KeepsBridge K params := by
  obtain ⟨hrange, hchron⟩ := PPBuilderFlow.dataSet_spec ho hdata
  have hadjust := PPBuilderFlow.getCertificateBuildParams_eq_some hdata hparams
  have hbridges : cert.bridgeExits = convertToBridgeExits K q.bridges :=
    (BaseFlow.buildCertificate_eq_ok_iff.mp hcert).bridgeExits
  have hmap : cert.bridgeExits ≠ [] ↔ q.bridges ≠ [] := by
    rw [hbridges]
    exact not_congr List.map_eq_nil_iff
  exact hmap.trans (PPBuilderFlow.bridges_ne_nil_iff hrange hchron hadjust)

/-! ### A certificate without a bridge exit -/

/-- A bridge in a block. -/
def bridgeIn (blockNum : ℕ) : BridgeSync.Bridge ℕ where
  blockNum := blockNum
  blockPos := 0
  fromAddress := none
  txHash := 0
  blockTimestamp := 0
  leafType := 0
  originNetwork := 0
  originAddress := ZeroAddress
  destinationNetwork := 2
  destinationAddress := ZeroAddress
  amount := 1
  metadata := []
  depositCount := 0
  txnSender := ZeroAddress
  source := .none
  toAddress := ZeroAddress

/-- A flow that requires a bridge exit, over the events of the blocks 1 to 5. -/
def requiringBridge (bridges : List (BridgeSync.Bridge ℕ)) (claims : List (Claim ℕ)) :
    PPBuilderFlow ℕ where
  baseFlow := flowOver bridges claims []
  lastSentCertificateHeader := none
  certQuerier := none
  forceOneBridgeExit := true
  maxL2BlockNumber := 0
  maxL2BlockRange := 0

theorem orderly_requiringBridge {bridges : List (BridgeSync.Bridge ℕ)} {claims : List (Claim ℕ)}
    (hclaims : claims.Pairwise fun c c' => c.key ≤ c'.key) :
    (requiringBridge bridges claims).baseFlow.l2BridgeQuerier.Orderly where
  bridges _ _ _ hb := (mem_inBlocks.mp hb).2
  claims _ _ _ hc := (mem_inBlocks.mp hc).2
  claims_sorted _ _ := hclaims.sublist List.filter_sublist
  unclaims _ _ _ hu := (mem_inBlocks.mp hu).2
  unclaims_sorted _ _ := List.Pairwise.nil

/-- A bridge before the claim that has no GER on L1 stays. -/
theorem PPBuilderFlow.bridgeExits_ne_nil_iff_bridgeBefore :
    let p := requiringBridge [bridgeIn 2] [claimAt 1 0 10 1, claimAt 4 0 11 2]
    let params := paramsOver [bridgeIn 2] [claimAt 1 0 10 1, claimAt 4 0 11 2] []
    p.baseFlow.l2BridgeQuerier.Orderly ∧ p.dataSet = .ok params ∧
      p.getCertificateBuildParams sumKeccak 6 = some (.ok (some (params.upTo 3))) ∧
      p.KeepsBridge sumKeccak params := by
  intro p params
  have horderly : p.baseFlow.l2BridgeQuerier.Orderly := orderly_requiringBridge (by decide)
  have hdata : p.dataSet = .ok params := by decide +kernel
  have hparams : p.getCertificateBuildParams sumKeccak 6 = some (.ok (some (params.upTo 3))) := by
    decide +kernel
  have hbuilt : (p.buildCertificate sumKeccak (params.upTo 3)).isOk = true := by decide +kernel
  obtain ⟨cert, hcert⟩ := Exec.except_isOk_iff.mp hbuilt
  have hexits : cert.bridgeExits = convertToBridgeExits sumKeccak [bridgeIn 2] :=
    (BaseFlow.buildCertificate_eq_ok_iff.mp hcert).bridgeExits
  refine ⟨horderly, hdata, hparams, ?_⟩
  refine (PPBuilderFlow.bridgeExits_ne_nil_iff p sumKeccak horderly 6 params (params.upTo 3) hdata
    hparams cert hcert).mp ?_
  rw [hexits]
  exact List.cons_ne_nil _ _

/-- A bridge after the claim that has no GER on L1 is cut off, and the certificate with the claim
before it has no bridge exit. -/
theorem bridgeExits_eq_nil_bridgeAfter :
    let p := requiringBridge [bridgeIn 3] [claimAt 1 0 10 1, claimAt 2 0 11 2]
    let params := paramsOver [bridgeIn 3] [claimAt 1 0 10 1, claimAt 2 0 11 2] []
    p.forceOneBridgeExit = true ∧ p.dataSet = .ok params ∧
      p.getCertificateBuildParams sumKeccak 6 = some (.ok (some (params.upTo 1))) ∧
      ∃ cert, p.buildCertificate sumKeccak (params.upTo 1) = .ok cert ∧ cert.bridgeExits = [] ∧
        cert.importedBridgeExits.length = 1 := by
  intro p params
  have hbuilt : (p.buildCertificate sumKeccak (params.upTo 1)).isOk = true := by decide +kernel
  obtain ⟨cert, hcert⟩ := Exec.except_isOk_iff.mp hbuilt
  have hspec := BaseFlow.buildCertificate_eq_ok_iff.mp hcert
  have himported := (BaseFlow.getImportedBridgeExits_eq_ok_iff rfl).mp hspec.importedBridgeExits
  refine ⟨rfl, by decide +kernel, by decide +kernel, cert, hcert, hspec.bridgeExits, ?_⟩
  exact himported.length_eq.symm

end AggKit.AggSender
