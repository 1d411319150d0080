import AggKit.ExitCertificate.StepC
import AggKit.Agglayer.Certificate

/-!
# The exits of an exit certificate, as in `tools/exit_certificate/step_d.go`

The certificate has an exit for every balance of an account, one for every holder of Step C, and one
for what remains locked of every token, which goes to the exit address.
-/

namespace AggKit.ExitCertificate

open Agglayer

/-! ## The model -/

/-- The errors of `RunStepD`. -/
inductive StepDError where
  /-- `EOA %s ETH balance` -/
  | ethBalance (eoa : Address) (err : ParseError)
  /-- `EOA %s balance of token %s` -/
  | tokenBalance (eoa token : Address) (err : ParseError)
  /-- `holder bridge amount for %s (vault %s)` -/
  | holderAmount (holder vault : Address) (err : ParseError)
  /-- `pending SC-locked balance for token %s` -/
  | pendingSCLocked (token : Address) (err : ParseError)
deriving DecidableEq

/-- The parameters that Step D reads. -/
structure Config where
  l2NetworkID : UInt32
  destinationNetwork : UInt32
  exitAddress : Address
  skipSCLockedValue : Bool
deriving DecidableEq

/-- `makeBridgeExit`; every amount it is called with is positive. -/
def makeBridgeExit (origin : UInt32 × Address) (destNetwork : UInt32) (destAddress : Address)
    (amount : ℤ) : BridgeExit where
  leafType := 0
  tokenInfo := ⟨origin.1, origin.2⟩
  destinationNetwork := destNetwork
  destinationAddress := destAddress
  amount := some amount.toNat
  metadata := []

/-- There is an exit for an amount that is positive. -/
def exitIf (origin : UInt32 × Address) (destNetwork : UInt32) (destAddress : Address)
    (amount : ℤ) : List BridgeExit :=
  if 0 < amount then [makeBridgeExit origin destNetwork destAddress amount] else []

/-- The step that the three kinds of exits share: an amount is parsed, and there may be an exit for
it. -/
def exitFor (wrap : ParseError → StepDError) (text : String) (origin : UInt32 × Address)
    (destNetwork : UInt32) (destAddress : Address) : Except StepDError (List BridgeExit) := do
  let amount ← (parseDecimalBigInt text).mapError wrap
  return exitIf origin destNetwork destAddress amount

/-- `eoaToExits`. -/
def eoaToExits (destNetwork : UInt32) (eoa : EOABalance) : Except StepDError (List BridgeExit) := do
  let eth ← exitFor (.ethBalance eoa.address) eoa.ethBalance (0, zeroAddress) destNetwork eoa.address
  let tokens ← eoa.tokens.mapM fun token =>
    exitFor (.tokenBalance eoa.address token.token.wrappedTokenAddress) token.balance
      token.token.origin destNetwork eoa.address
  return eth ++ tokens.flatten

/-- `buildEOAExits`. -/
def buildEOAExits (stepB : StepBResult) (destNetwork : UInt32) :
    Except StepDError (List BridgeExit) := do
  let exits ← stepB.eoaBalances.mapM (eoaToExits destNetwork)
  return exits.flatten

/-- `buildHolderBridgeExits`. -/
def buildHolderBridgeExits (stepC : StepCResult) (destNetwork : UInt32) :
    Except StepDError (List BridgeExit) := do
  let exits ← stepC.holderBridges.mapM fun hb =>
    exitFor (.holderAmount hb.holderAddress hb.vaultAddress) hb.amount hb.token.origin destNetwork
      hb.holderAddress
  return exits.flatten

/-- `buildSCLockedExits`. -/
def buildSCLockedExits (stepC : StepCResult) (destNetwork : UInt32) (exitAddr : Address) :
    Except StepDError (List BridgeExit) := do
  let exits ← stepC.scLockedValues.mapM fun entry =>
    exitFor (.pendingSCLocked entry.token.wrappedTokenAddress) entry.pendingSCLockedBalance
      entry.token.origin destNetwork exitAddr
  return exits.flatten

/-- The exits of what remains locked, unless the parameters say to leave it behind. -/
def lockedExits (cfg : Config) (stepC : StepCResult) : Except StepDError (List BridgeExit) :=
  if cfg.skipSCLockedValue then .ok []
  else buildSCLockedExits stepC cfg.destinationNetwork cfg.exitAddress

/-- `RunStepD`. -/
def runStepD (cfg : Config) (stepB : StepBResult) (stepC : StepCResult) :
    Except StepDError (Certificate Hash) := do
  let eoaExits ← buildEOAExits stepB cfg.destinationNetwork
  let holderExits ← buildHolderBridgeExits stepC cfg.destinationNetwork
  let scExits ← lockedExits cfg stepC
  return {
    networkID := cfg.l2NetworkID
    height := 0
    prevLocalExitRoot := Vector.replicate 32 0
    newLocalExitRoot := Vector.replicate 32 0
    bridgeExits := eoaExits ++ holderExits ++ scExits
    importedBridgeExits := []
    customChainData := []
    aggchainData := none
    l1InfoTreeLeafCount := 0 }

/-! ## What is built -/

section built

open Exec

variable {cfg : Config} {stepB : StepBResult} {stepC : StepCResult} {net : UInt32}
  {exits : List BridgeExit}

theorem exitFor_eq_ok {wrap : ParseError → StepDError} {text : String} {origin : UInt32 × Address}
    {dest : Address} (h : exitFor wrap text origin net dest = .ok exits) :
    exits = exitIf origin net dest (amountOf text) := by
  obtain ⟨amount, hparse, hexits⟩ := except_bind_ok.mp h
  rw [amountOf_eq (mapError_eq_ok_iff.mp hparse)]
  exact (Except.ok.inj hexits).symm

/-- The exits of a record. -/
def eoaExits (net : UInt32) (eoa : EOABalance) : List BridgeExit :=
  exitIf (0, zeroAddress) net eoa.address (amountOf eoa.ethBalance) ++
    eoa.tokens.flatMap fun t => exitIf t.token.origin net eoa.address (amountOf t.balance)

theorem eoaToExits_eq_ok {eoa : EOABalance} (h : eoaToExits net eoa = .ok exits) :
    exits = eoaExits net eoa := by
  obtain ⟨eth, heth, h⟩ := except_bind_ok.mp h
  obtain ⟨tokens, htokens, h⟩ := except_bind_ok.mp h
  have hlist := eq_map_of_mapM htokens fun t _ exits hexits => exitFor_eq_ok hexits
  rw [← Except.ok.inj h, exitFor_eq_ok heth, hlist, ← List.flatMap_def, eoaExits]

theorem buildEOAExits_eq_ok (h : buildEOAExits stepB net = .ok exits) :
    exits = stepB.eoaBalances.flatMap (eoaExits net) := by
  obtain ⟨lists, hlists, h⟩ := except_bind_ok.mp h
  rw [← Except.ok.inj h, eq_map_of_mapM hlists fun _ _ _ => eoaToExits_eq_ok, ← List.flatMap_def]

theorem buildHolderBridgeExits_eq_ok (h : buildHolderBridgeExits stepC net = .ok exits) :
    exits = stepC.holderBridges.flatMap fun hb =>
      exitIf hb.token.origin net hb.holderAddress (amountOf hb.amount) := by
  obtain ⟨lists, hlists, h⟩ := except_bind_ok.mp h
  rw [← Except.ok.inj h, eq_map_of_mapM hlists fun _ _ _ => exitFor_eq_ok, ← List.flatMap_def]

theorem buildSCLockedExits_eq_ok {exitAddr : Address}
    (h : buildSCLockedExits stepC net exitAddr = .ok exits) :
    exits = stepC.scLockedValues.flatMap fun entry =>
      exitIf entry.token.origin net exitAddr (amountOf entry.pendingSCLockedBalance) := by
  obtain ⟨lists, hlists, h⟩ := except_bind_ok.mp h
  rw [← Except.ok.inj h, eq_map_of_mapM hlists fun _ _ _ => exitFor_eq_ok, ← List.flatMap_def]

/-- The exits of a certificate, where what is locked is not skipped. -/
theorem runStepD_eq_ok {cert : Certificate Hash} (hskip : cfg.skipSCLockedValue = false)
    (h : runStepD cfg stepB stepC = .ok cert) :
    cert.bridgeExits = stepB.eoaBalances.flatMap (eoaExits cfg.destinationNetwork) ++
      (stepC.holderBridges.flatMap fun hb =>
        exitIf hb.token.origin cfg.destinationNetwork hb.holderAddress (amountOf hb.amount)) ++
      stepC.scLockedValues.flatMap fun entry =>
        exitIf entry.token.origin cfg.destinationNetwork cfg.exitAddress
          (amountOf entry.pendingSCLockedBalance) := by
  obtain ⟨eoa, heoa, h⟩ := except_bind_ok.mp h
  obtain ⟨holder, hholder, h⟩ := except_bind_ok.mp h
  obtain ⟨locked, hlocked, h⟩ := except_bind_ok.mp h
  rw [lockedExits, hskip] at hlocked
  rw [← Except.ok.inj h, ← buildEOAExits_eq_ok heoa, ← buildHolderBridgeExits_eq_ok hholder,
    ← buildSCLockedExits_eq_ok hlocked]

end built

end AggKit.ExitCertificate
