import AggKit.BackwardForwardLET.Diagnosis

/-!
# The recovery, as in `tools/backward_forward_let/recovery.go`

`ExecuteRecovery` pauses the bridge, rolls its tree back to the divergence point, inserts the settled
leaves that L2 does not have and then the bridges that the rollback took away. The bridge is unpaused
by a deferred step, which runs whatever became of the others.

Every step computes what it needs, sends a transaction, waits for its receipt and reads the contract
to verify what the transaction did. What the nodes answer on the way is given by `Answers`; a
transaction of which the tool does not hear may have been applied all the same. The program works on
the contract, and keeps what it did to it when it fails.
-/

namespace AggKit.BackwardForwardLET

open Agglayer BridgeSync

/-! ## The model -/

/-- What becomes of a transaction. -/
inductive TxAnswer where
  /-- The call that sends it fails. -/
  | notSent (applied : Bool)
  /-- The wait for its receipt fails. -/
  | noReceipt (applied : Bool)
  /-- The status of its receipt is not one. -/
  | reverted
  | confirmed
deriving DecidableEq

/-- Whether the contract has applied it. -/
def TxAnswer.applied : TxAnswer → Bool
  | .notSent applied => applied
  | .noReceipt applied => applied
  | .reverted => false
  | .confirmed => true

/-- What the nodes answer to `ExecuteRecovery`: the calls that fail, what becomes of the transactions,
and the bridge service as each step finds it. -/
structure Answers where
  chainIDFails : Bool
  adminAuthFails : Bool
  pauserAuthFails : Bool
  unpauserAuthFails : Bool
  activate : TxAnswer
  activeFails : Bool
  backwardService : BridgeService
  backward : TxAnswer
  backwardCountFails : Bool
  divergentService : BridgeService
  divergent : TxAnswer
  divergentCountFails : Bool
  divergentRootFails : Bool
  extraService : BridgeService
  extra : TxAnswer
  extraCountFails : Bool
  extraRootFails : Bool
  finalCountFails : Bool
  finalRootFails : Bool
  deactivate : TxAnswer
  inactiveFails : Bool

/-- The errors of one step. -/
inductive StepError (H : Type) where
  /-- `fetch L2 leaf hashes: …`, `fetch L2 leaf hashes up to divergence point: …` -/
  | fetch (dc : ℕ) (err : ServiceError)
  /-- `compute …` -/
  | compute (err : TreeError)
  /-- `send … tx` -/
  | send
  /-- `wait for … receipt` -/
  | wait
  /-- `… tx failed (status=%d)` -/
  | txFailed
  /-- `verify emergency state after …` -/
  | readEmergency
  /-- `emergency state not active after ActivateEmergencyState` -/
  | notActive
  /-- `emergency state still active after DeactivateEmergencyState` -/
  | stillActive
  /-- `get deposit count after …`, `get final deposit count` -/
  | readCount
  /-- `deposit count mismatch after …: expected %d, got %d` -/
  | countMismatch (expected got : ℕ)
  /-- `get root after …`, `get final LER` -/
  | readRoot
  /-- `LER mismatch after …: expected %s, got %s` -/
  | rootMismatch (expected got : H)
deriving DecidableEq

/-- The errors of `ExecuteRecovery`. -/
inductive RecoveryError (H : Type) where
  /-- `get L2 chain ID` -/
  | chainID
  /-- `build admin transact opts` -/
  | adminAuth
  /-- `build pauser transact opts` -/
  | pauserAuth
  /-- `build unpauser transact opts` -/
  | unpauserAuth
  /-- `activate emergency state` -/
  | activateEmergency (err : StepError H)
  /-- `backward LET` -/
  | backwardLET (err : StepError H)
  /-- `forward LET divergent leaves` -/
  | divergentLeaves (err : StepError H)
  /-- `forward LET extra L2 bridges` -/
  | extraL2Bridges (err : StepError H)
  /-- `final verification` -/
  | finalVerification (err : StepError H)
  /-- `…; also failed to deactivate emergency state: …` -/
  | alsoFailedToDeactivate (err : RecoveryError H) (deactivateErr : StepError H)
  /-- `failed to deactivate emergency state (bridge is still paused)` -/
  | bridgeStillPaused (deactivateErr : StepError H)
deriving DecidableEq

variable {H : Type} [DecidableEq H] (K : Keccak H)

/-- A step: it computes its parameters, sends its transaction, waits for the receipt and verifies
what the contract then reads. -/
def txStep {α : Type} (params : Except (StepError H) α) (tx : TxAnswer)
    (effect : L2Bridge H → L2Bridge H) (verify : α → L2Bridge H → Except (StepError H) Unit) :
    EStateM (StepError H) (L2Bridge H) Unit := fun b =>
  match params with
  | .error err => .error err b
  | .ok p =>
    match tx with
    | .notSent applied => .error .send (if applied then effect b else b)
    | .noReceipt applied => .error .wait (if applied then effect b else b)
    | .reverted => .error .txFailed b
    | .confirmed =>
      match verify p (effect b) with
      | .ok () => .ok () (effect b)
      | .error err => .error err (effect b)

/-- The reading of the deposit count after a step. -/
def verifyCount (fails : Bool) (expectedDC : ℕ) (b : L2Bridge H) : Except (StepError H) Unit :=
  if fails then .error .readCount
  else if b.depositCount ≠ expectedDC then .error (.countMismatch expectedDC b.depositCount)
  else .ok ()

/-- The reading of the root after a step. -/
def verifyRoot (fails : Bool) (expectedLER : H) (b : L2Bridge H) : Except (StepError H) Unit :=
  if fails then .error .readRoot
  else if b.getRoot K ≠ expectedLER then .error (.rootMismatch expectedLER (b.getRoot K))
  else .ok ()

section

omit [DecidableEq H]

/-- `stepActivateEmergency`. -/
def stepActivateEmergency (a : Answers) : EStateM (StepError H) (L2Bridge H) Unit :=
  txStep (.ok ()) a.activate (fun b => { b with emergency := true }) fun _ b =>
    if a.activeFails then .error .readEmergency
    else if !b.emergency then .error .notActive
    else .ok ()

/-- `stepDeactivateEmergency`. -/
def stepDeactivateEmergency (a : Answers) : EStateM (StepError H) (L2Bridge H) Unit :=
  txStep (.ok ()) a.deactivate (fun b => { b with emergency := false }) fun _ b =>
    if a.inactiveFails then .error .readEmergency
    else if b.emergency then .error .stillActive
    else .ok ()

/-- The leaf hashes that a step fetches. -/
def fetchLeafHashes (service : BridgeService) (endDC : ℕ) : Except (StepError H) (List H) :=
  (fetchL2LeafHashesUpTo K service endDC).mapError fun err => .fetch err.1 err.2

/-- What `stepBackwardLET` computes. -/
def backwardParams (d : DiagnosisResult H) (service : BridgeService) :
    Except (StepError H) ((ℕ → H) × H × List H) := do
  let allLeafHashes ← fetchLeafHashes K service d.l2CurrentDepositCount
  (computeBackwardLETParams K allLeafHashes d.divergencePoint).mapError .compute

/-- `stepBackwardLET`. -/
def stepBackwardLET (d : DiagnosisResult H) (a : Answers) :
    EStateM (StepError H) (L2Bridge H) Unit :=
  txStep (backwardParams K d a.backwardService) a.backward (L2Bridge.backwardLET d.divergencePoint)
    fun _ => verifyCount a.backwardCountFails d.divergencePoint

/-- The root that `existing` leaves have after new ones. -/
def expectedRoot (existing : List H) (count : ℕ) (newLeafHashes : List H) :
    Except (StepError H) H := do
  let frontier ← (computeFrontier K existing count).mapError .compute
  (computeRootFromFrontier K frontier count newLeafHashes).mapError .compute

/-- The leaves up to the divergence point, which are fetched only where there are any. -/
def leafHashesUpToDivergence (d : DiagnosisResult H) (service : BridgeService) :
    Except (StepError H) (List H) :=
  if 0 < d.divergencePoint then fetchLeafHashes K service d.divergencePoint else .ok []

/-- What `stepForwardLETDivergentLeaves` computes: the expected root. -/
def divergentParams (d : DiagnosisResult H) (service : BridgeService) :
    Except (StepError H) H := do
  let leafHashes ← leafHashesUpToDivergence K d service
  expectedRoot K leafHashes d.divergencePoint (d.divergentLeaves.map (bridgeExitLeafHash K))

/-- `stepForwardLETDivergentLeaves`. -/
def stepForwardLETDivergentLeaves (d : DiagnosisResult H) (a : Answers) :
    EStateM (StepError H) (L2Bridge H) Unit :=
  txStep (divergentParams K d a.divergentService) a.divergent
    (L2Bridge.forwardLET K (d.divergentLeaves.map bridgeExitToContractLeaf)) fun expectedLER b => do
      verifyCount a.divergentCountFails (d.divergencePoint + d.divergentLeaves.length) b
      verifyRoot K a.divergentRootFails expectedLER b

/-- What `stepForwardLETExtraL2Bridges` computes: the expected root. -/
def extraParams (d : DiagnosisResult H) (service : BridgeService) : Except (StepError H) H := do
  let leafHashes ← leafHashesUpToDivergence K d service
  expectedRoot K (leafHashes ++ d.divergentLeaves.map (bridgeExitLeafHash K))
    (d.divergencePoint + d.divergentLeaves.length) (d.extraL2Bridges.map (leafDataLeafHash K))

/-- `stepForwardLETExtraL2Bridges`. -/
def stepForwardLETExtraL2Bridges (d : DiagnosisResult H) (a : Answers) :
    EStateM (StepError H) (L2Bridge H) Unit :=
  txStep (extraParams K d a.extraService) a.extra
    (L2Bridge.forwardLET K (d.extraL2Bridges.map leafDataToContractLeaf)) fun expectedLER b => do
      verifyCount a.extraCountFails
        (d.divergencePoint + d.divergentLeaves.length + d.extraL2Bridges.length) b
      verifyRoot K a.extraRootFails expectedLER b

/-- `printFinalVerification`: the count and the root are read, and no value of them is an error. -/
def printFinalVerification (a : Answers) : EStateM (StepError H) (L2Bridge H) Unit := fun b =>
  if a.finalCountFails then .error .readCount b
  else if a.finalRootFails then .error .readRoot b
  else .ok () b

/-- The rollback, in the two cases that have one. -/
def rollBack (d : DiagnosisResult H) (a : Answers) : EStateM (RecoveryError H) (L2Bridge H) Unit :=
  if d.case = .case2 ∨ d.case = .case4 then (stepBackwardLET K d a).adaptExcept .backwardLET
  else pure ()

/-- The insertion of the bridges that the rollback took away, if there are any. -/
def replay (d : DiagnosisResult H) (a : Answers) : EStateM (RecoveryError H) (L2Bridge H) Unit :=
  if 0 < d.extraL2Bridges.length then
    (stepForwardLETExtraL2Bridges K d a).adaptExcept .extraL2Bridges
  else pure ()

/-- The steps of `ExecuteRecovery` after the deferred one is set up. -/
def recoverTree (d : DiagnosisResult H) (a : Answers) :
    EStateM (RecoveryError H) (L2Bridge H) Unit := do
  rollBack K d a
  (stepForwardLETDivergentLeaves K d a).adaptExcept .divergentLeaves
  replay K d a
  (printFinalVerification a).adaptExcept .finalVerification

/-- The `defer` of `ExecuteRecovery`: the bridge is unpaused whether the steps succeed or not. -/
def deferDeactivate (steps : EStateM (RecoveryError H) (L2Bridge H) Unit) (a : Answers) :
    EStateM (RecoveryError H) (L2Bridge H) Unit := fun b =>
  match steps b with
  | .ok () b =>
    match stepDeactivateEmergency a b with
    | .ok () b => .ok () b
    | .error deactivateErr b => .error (.bridgeStillPaused deactivateErr) b
  | .error retErr b =>
    match stepDeactivateEmergency a b with
    | .ok () b => .error retErr b
    | .error deactivateErr b => .error (.alsoFailedToDeactivate retErr deactivateErr) b

/-- What `ExecuteRecovery` sets up first: the chain id and the three signers. -/
def buildAuths (a : Answers) : EStateM (RecoveryError H) (L2Bridge H) Unit :=
  if a.chainIDFails then throw .chainID
  else if a.adminAuthFails then throw .adminAuth
  else if a.pauserAuthFails then throw .pauserAuth
  else if a.unpauserAuthFails then throw .unpauserAuth
  else pure ()

/-- The pause, where the bridge is not paused already. -/
def pauseBridge (d : DiagnosisResult H) (a : Answers) :
    EStateM (RecoveryError H) (L2Bridge H) Unit :=
  if !d.isEmergencyState then (stepActivateEmergency a).adaptExcept .activateEmergency
  else pure ()

end

/-- `ExecuteRecovery`. -/
def executeRecovery (d : DiagnosisResult H) (a : Answers) :
    EStateM (RecoveryError H) (L2Bridge H) Unit := do
  buildAuths a
  pauseBridge d a
  deferDeactivate (recoverTree K d a) a

/-- What `Run` does with a diagnosis to which the operator agrees: nothing where certificates are
missing or there is no divergence. -/
def runRecovery (d : DiagnosisResult H) (a : Answers) :
    EStateM (RecoveryError H) (L2Bridge H) Unit :=
  if d.aggsenderAPIFailed then pure ()
  else if d.case = .noDivergence then pure ()
  else executeRecovery K d a

/-! ## What the steps do -/

section steps

open Exec

variable {K} {α : Type} {params : Except (StepError H) α} {tx : TxAnswer}
  {effect : L2Bridge H → L2Bridge H} {verify : α → L2Bridge H → Except (StepError H) Unit}
  {d : DiagnosisResult H} {a : Answers} {b b' : L2Bridge H}

section

omit [DecidableEq H]

/-- A step changes the contract if it comes to send its transaction and that is applied. -/
theorem stateAfter_txStep :
    stateAfter (txStep params tx effect verify) b =
      if params.isOk && tx.applied then effect b else b := by
  unfold stateAfter txStep
  cases params with
  | error err => rfl
  | ok p =>
    cases tx with
    | notSent applied | noReceipt applied | reverted => rfl
    | confirmed =>
      cases hverify : verify p (effect b) <;>
        simp [hverify, TxAnswer.applied, Except.isOk, Except.toBool]

/-- It succeeds if the transaction is confirmed and what it did is verified. -/
theorem txStep_eq_ok_iff {u : Unit} :
    txStep params tx effect verify b = .ok u b' ↔
      b' = effect b ∧ tx = .confirmed ∧ ∃ p, params = .ok p ∧ verify p (effect b) = .ok () := by
  unfold txStep
  cases params with
  | error err => simp
  | ok p =>
    cases tx with
    | notSent applied | noReceipt applied | reverted => simp
    | confirmed => cases hverify : verify p (effect b) <;> simp [hverify, eq_comm]

theorem verifyCount_eq_ok_iff {fails : Bool} {expectedDC : ℕ} {u : Unit} :
    verifyCount fails expectedDC b = .ok u ↔ fails = false ∧ b.leaves.length = expectedDC := by
  unfold verifyCount L2Bridge.depositCount
  cases fails <;> by_cases hcount : b.leaves.length = expectedDC <;> simp [hcount]

end

theorem verifyRoot_eq_ok_iff {fails : Bool} {expectedLER : H} {u : Unit} :
    verifyRoot K fails expectedLER b = .ok u ↔ fails = false ∧ b.getRoot K = expectedLER := by
  unfold verifyRoot
  cases fails <;> by_cases hroot : b.getRoot K = expectedLER <;> simp [hroot]

omit [DecidableEq H] in
/-- The deferred step ends the run from wherever the others ended. -/
theorem stateAfter_deferDeactivate {steps : EStateM (RecoveryError H) (L2Bridge H) Unit} :
    stateAfter (deferDeactivate steps a) b =
      stateAfter (stepDeactivateEmergency a) (stateAfter steps b) := by
  simp only [stateAfter, deferDeactivate]
  cases steps b with
  | ok u b1 | error err b1 => cases hstep : stepDeactivateEmergency a b1 <;> simp [hstep]

omit [DecidableEq H] in
theorem deferDeactivate_eq_ok_iff {steps : EStateM (RecoveryError H) (L2Bridge H) Unit} {u : Unit} :
    deferDeactivate steps a b = .ok u b' ↔
      ∃ b1, steps b = .ok () b1 ∧ stepDeactivateEmergency a b1 = .ok () b' := by
  unfold deferDeactivate
  cases steps b with
  | ok u b1 | error err b1 => cases hstep : stepDeactivateEmergency a b1 <;> simp [hstep]

end steps

end AggKit.BackwardForwardLET
