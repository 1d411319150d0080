import AggKit.BackwardForwardLET.Recovery

/-!
# How far a recovery gets

The functions here tell from the diagnosis, the contract and the answers of the nodes which of the
transactions of `ExecuteRecovery` are applied, and which of its steps are verified. In
`stateAfter_executeRecovery` they say in which state a run ends, whether it fails or not, for all
that the nodes may answer; `executeRecovery_eq_ok` says what a run that succeeds has done.
-/

namespace AggKit.BackwardForwardLET

open Agglayer BridgeSync Exec

/-! ## How far a run gets -/

section progress

variable {H : Type} [DecidableEq H] (K : Keccak H) (d : DiagnosisResult H) (a : Answers)
  (leaves : List H)

section

omit [DecidableEq H]

/-- The signers are there and the bridge is paused. -/
def starts : Bool :=
  !a.chainIDFails && !a.adminAuthFails && !a.pauserAuthFails && !a.unpauserAuthFails &&
    (d.isEmergencyState || (a.activate == .confirmed && !a.activeFails))

/-- The bridge is not paused at the end of a run that has started: the deferred transaction is
applied, or the diagnosis took the bridge for paused when it was not. -/
def endsUnpaused (b : L2Bridge H) : Bool :=
  a.deactivate.applied || (d.isEmergencyState && !b.emergency)

/-- The cases in which the tree is rolled back. -/
def rollsBack : Bool := d.case == .case2 || d.case == .case4

/-- `BackwardLET` is applied. -/
def backwardApplied : Bool :=
  rollsBack d && ((backwardParams K d a.backwardService).isOk && a.backward.applied)

/-- `BackwardLET` is confirmed and verified, where there is one. -/
def backwardVerified : Bool :=
  !rollsBack d || ((backwardParams K d a.backwardService).isOk && a.backward == .confirmed &&
    !a.backwardCountFails && (leaves.take d.divergencePoint).length == d.divergencePoint)

/-- The leaves after that step. -/
def afterBackward : List H := if backwardApplied K d a then leaves.take d.divergencePoint else leaves

/-- The `ForwardLET` of the divergent leaves is applied. -/
def divergentApplied : Bool :=
  backwardVerified K d a leaves &&
    ((divergentParams K d a.divergentService).isOk && a.divergent.applied)

/-- The hashes of the leaves that the contract makes of the divergent ones. -/
def divergentHashes : List H :=
  (d.divergentLeaves.map bridgeExitToContractLeaf).map (leafDataLeafHash K)

/-- It is confirmed and verified. -/
def divergentVerified : Bool :=
  let after := afterBackward K d a leaves ++ divergentHashes K d
  backwardVerified K d a leaves && a.divergent == .confirmed && !a.divergentCountFails &&
    after.length == d.divergencePoint + d.divergentLeaves.length && !a.divergentRootFails &&
    match divergentParams K d a.divergentService with
    | .ok expectedLER => Merkle.root K.pair K.zero 32 after == expectedLER
    | .error _ => false

/-- The `ForwardLET` of the bridges that the rollback took away is applied. -/
def extraApplied : Bool :=
  divergentVerified K d a leaves && (decide (0 < d.extraL2Bridges.length) &&
    ((extraParams K d a.extraService).isOk && a.extra.applied))

/-- Their hashes. -/
def extraHashes : List H := (d.extraL2Bridges.map leafDataToContractLeaf).map (leafDataLeafHash K)

end

/-- What the two of them append. -/
def appended : List H :=
  (if divergentApplied K d a leaves then divergentHashes K d else []) ++
    if extraApplied K d a leaves then extraHashes K d else []

end progress

/-! ## Where a run ends -/

section ends

variable {H : Type} [DecidableEq H] {K : Keccak H} {d : DiagnosisResult H} {a : Answers}
  {b b' : L2Bridge H}

section

omit [DecidableEq H]

theorem rollsBack_iff : rollsBack d = true ↔ d.case = .case2 ∨ d.case = .case4 := by
  simp [rollsBack]

theorem stateAfter_rollBack :
    stateAfter (rollBack K d a) b = { b with leaves := afterBackward K d a b.leaves } := by
  unfold rollBack afterBackward backwardApplied
  by_cases hcase : d.case = .case2 ∨ d.case = .case4
  · rw [if_pos hcase, stateAfter_adaptExcept, stepBackwardLET, stateAfter_txStep,
      rollsBack_iff.mpr hcase, Bool.true_and]
    split_ifs <;> rfl
  · rw [if_neg hcase, Bool.eq_false_iff.mpr (mt rollsBack_iff.mp hcase), Bool.false_and]
    rfl

theorem rollBack_isOk_iff :
    (∃ u b', rollBack K d a b = .ok u b') ↔ backwardVerified K d a b.leaves = true := by
  unfold rollBack backwardVerified
  split_ifs with hcase
  · rw [rollsBack_iff.mpr hcase]
    simp only [adaptExcept_eq_ok_iff, stepBackwardLET, txStep_eq_ok_iff, verifyCount_eq_ok_iff,
      Bool.not_true, Bool.false_or, Bool.and_eq_true, beq_iff_eq, Bool.not_eq_true',
      except_isOk_iff, L2Bridge.backwardLET]
    constructor
    · rintro ⟨u, b', -, hconfirmed, p, hparams, hread, hcount⟩
      exact ⟨⟨⟨⟨p, hparams⟩, hconfirmed⟩, hread⟩, hcount⟩
    · rintro ⟨⟨⟨⟨p, hparams⟩, hconfirmed⟩, hread⟩, hcount⟩
      exact ⟨(), _, rfl, hconfirmed, p, hparams, hread, hcount⟩
  · rw [Bool.eq_false_iff.mpr (mt rollsBack_iff.mp hcase)]
    exact ⟨fun _ => rfl, fun _ => ⟨(), b, rfl⟩⟩

end

theorem stateAfter_divergent :
    stateAfter (stepForwardLETDivergentLeaves K d a) b =
      { b with leaves := b.leaves ++
          if (divergentParams K d a.divergentService).isOk && a.divergent.applied then
            divergentHashes K d else [] } := by
  rw [stepForwardLETDivergentLeaves, stateAfter_txStep]
  split_ifs
  · rfl
  · rw [List.append_nil]

/-- The first `ForwardLET` succeeds after the rollback as `divergentVerified` says. -/
theorem divergent_isOk_iff (hbackward : backwardVerified K d a b.leaves = true) :
    (∃ u b', stepForwardLETDivergentLeaves K d a
        { b with leaves := afterBackward K d a b.leaves } = .ok u b') ↔
      divergentVerified K d a b.leaves = true := by
  unfold divergentVerified
  simp only [stepForwardLETDivergentLeaves, txStep_eq_ok_iff, hbackward, Bool.true_and,
    Bool.and_eq_true, beq_iff_eq, Bool.not_eq_true', except_bind_ok, verifyCount_eq_ok_iff,
    verifyRoot_eq_ok_iff, L2Bridge.forwardLET, L2Bridge.getRoot, divergentHashes]
  cases hparams : divergentParams K d a.divergentService with
  | error err => simp
  | ok expectedLER =>
    simp only [beq_iff_eq, Except.ok.injEq]
    constructor
    · rintro ⟨u, b', -, hconfirmed, ler, rfl, u', ⟨hcountRead, hcount⟩, hrootRead, hroot⟩
      exact ⟨⟨⟨⟨hconfirmed, hcountRead⟩, hcount⟩, hrootRead⟩, hroot⟩
    · rintro ⟨⟨⟨⟨hconfirmed, hcountRead⟩, hcount⟩, hrootRead⟩, hroot⟩
      exact ⟨(), _, rfl, hconfirmed, expectedLER, rfl, (), ⟨hcountRead, hcount⟩, hrootRead, hroot⟩

theorem stateAfter_replay :
    stateAfter (replay K d a) b =
      { b with leaves := b.leaves ++
          if decide (0 < d.extraL2Bridges.length) &&
              ((extraParams K d a.extraService).isOk && a.extra.applied) then
            extraHashes K d else [] } := by
  unfold replay
  by_cases hextra : 0 < d.extraL2Bridges.length
  · rw [if_pos hextra, stateAfter_adaptExcept, stepForwardLETExtraL2Bridges, stateAfter_txStep,
      decide_eq_true hextra, Bool.true_and]
    split_ifs
    · rfl
    · rw [List.append_nil]
  · rw [if_neg hextra, decide_eq_false hextra, Bool.false_and]
    simp

/-- The leaves with which the steps end. -/
theorem stateAfter_recoverTree :
    stateAfter (recoverTree K d a) b =
      { b with leaves := afterBackward K d a b.leaves ++ appended K d a b.leaves } := by
  have hlast : ∀ b : L2Bridge H, stateAfter
      ((printFinalVerification a).adaptExcept RecoveryError.finalVerification) b = b := by
    intro b
    rw [stateAfter_adaptExcept, stateAfter, printFinalVerification]
    split_ifs <;> rfl
  -- The last step reads only, so the run ends where the one before it ends.
  have hreplay : ∀ b : L2Bridge H, stateAfter (replay K d a >>= fun _ =>
      (printFinalVerification a).adaptExcept RecoveryError.finalVerification) b =
        stateAfter (replay K d a) b := by
    intro b
    by_cases hok : ∃ u b', replay K d a b = .ok u b'
    · rw [stateAfter_bind_of_ok hok, hlast]
    · exact stateAfter_bind_of_error hok
  unfold recoverTree appended extraApplied divergentApplied
  by_cases hbackward : backwardVerified K d a b.leaves = true
  · rw [stateAfter_bind_of_ok (rollBack_isOk_iff.mpr hbackward), stateAfter_rollBack, hbackward,
      Bool.true_and]
    have hdivergent := divergent_isOk_iff hbackward
    by_cases hverified : divergentVerified K d a b.leaves = true
    · obtain ⟨u, b', hstep⟩ := hdivergent.mpr hverified
      rw [stateAfter_bind_of_ok ⟨u, b', adaptExcept_eq_ok_iff.mpr hstep⟩, hreplay,
        stateAfter_adaptExcept, stateAfter_divergent, stateAfter_replay, hverified, Bool.true_and,
        List.append_assoc]
    · rw [stateAfter_bind_of_error (by simpa [hdivergent] using hverified), stateAfter_adaptExcept,
        stateAfter_divergent, Bool.eq_false_iff.mpr hverified, Bool.false_and]
      simp
  · -- A rollback that fails ends the run.
    have hunverified : divergentVerified K d a b.leaves = false := by
      simp [divergentVerified, hbackward]
    rw [stateAfter_bind_of_error (mt rollBack_isOk_iff.mp hbackward), stateAfter_rollBack,
      Bool.eq_false_iff.mpr hbackward, hunverified, Bool.false_and, Bool.false_and]
    simp

section

omit [DecidableEq H]

theorem stateAfter_buildAuths : stateAfter (buildAuths a) b = b := by
  unfold buildAuths
  split_ifs <;> rfl

theorem stateAfter_pauseBridge :
    stateAfter (pauseBridge d a) b =
      { b with emergency := b.emergency || (!d.isEmergencyState && a.activate.applied) } := by
  unfold pauseBridge
  cases hpaused : d.isEmergencyState with
  | true => simp
  | false =>
    rw [Bool.not_false, if_pos rfl, stateAfter_adaptExcept, stepActivateEmergency,
      stateAfter_txStep]
    cases hactivate : a.activate.applied <;> simp [Except.isOk, Except.toBool]

/-- The two parts before the deferred step is set up succeed together as `starts` says. -/
theorem starts_iff :
    starts d a = true ↔ (∃ u b', buildAuths a b = .ok u b') ∧
      ∃ u b', pauseBridge d a b = .ok u b' := by
  have hauths : (∃ u b', buildAuths a b = .ok u b') ↔ a.chainIDFails = false ∧
      a.adminAuthFails = false ∧ a.pauserAuthFails = false ∧ a.unpauserAuthFails = false := by
    unfold buildAuths
    split_ifs <;> simp_all
  have hpause : (∃ u b', pauseBridge d a b = .ok u b') ↔
      d.isEmergencyState = true ∨ a.activate = .confirmed ∧ a.activeFails = false := by
    unfold pauseBridge stepActivateEmergency
    cases hpaused : d.isEmergencyState <;> simp [txStep_eq_ok_iff]
  rw [hauths, hpause]
  simp [starts, and_assoc]

end

/-- Where a run ends that has started: the leaves are what the steps made of them, and the bridge is
unpaused if the deferred transaction is applied. -/
theorem stateAfter_executeRecovery (h : starts d a = true) :
    stateAfter (executeRecovery K d a) b =
      ⟨afterBackward K d a b.leaves ++ appended K d a b.leaves, !endsUnpaused d a b⟩ := by
  obtain ⟨hauths, hpause⟩ := (starts_iff (b := b)).mp h
  have hactivated : d.isEmergencyState = true ∨ a.activate.applied = true := by
    simp only [starts, Bool.and_eq_true, Bool.or_eq_true, beq_iff_eq] at h
    exact h.2.imp_right fun hconfirmed => by rw [hconfirmed.1, TxAnswer.applied]
  rw [executeRecovery, stateAfter_bind_of_ok hauths, stateAfter_buildAuths,
    stateAfter_bind_of_ok hpause, stateAfter_pauseBridge, stateAfter_deferDeactivate,
    stateAfter_recoverTree, stepDeactivateEmergency, stateAfter_txStep]
  rcases hactivated with hpaused | happlied
  · cases hdeactivate : a.deactivate.applied <;>
      simp [endsUnpaused, hdeactivate, hpaused, Except.isOk, Except.toBool]
  · cases hdeactivate : a.deactivate.applied <;> cases hpaused : d.isEmergencyState <;>
      simp [endsUnpaused, hdeactivate, hpaused, happlied, Except.isOk, Except.toBool]

/-- A run that does not start leaves the tree alone. -/
theorem stateAfter_executeRecovery_leaves (h : starts d a = false) :
    (stateAfter (executeRecovery K d a) b).leaves = b.leaves := by
  rw [executeRecovery]
  by_cases hauths : ∃ u b', buildAuths a b = .ok u b'
  · have hpause : ¬∃ u b', pauseBridge d a b = .ok u b' := by
      intro hpause
      rw [(starts_iff (b := b)).mpr ⟨hauths, hpause⟩] at h
      cases h
    rw [stateAfter_bind_of_ok hauths, stateAfter_buildAuths, stateAfter_bind_of_error hpause,
      stateAfter_pauseBridge]
  · rw [stateAfter_bind_of_error hauths, stateAfter_buildAuths]

theorem divergentApplied_of_verified {leaves : List H}
    (h : divergentVerified K d a leaves = true) : divergentApplied K d a leaves = true := by
  simp only [divergentVerified, Bool.and_eq_true, beq_iff_eq] at h
  obtain ⟨⟨⟨⟨⟨hbackward, hconfirmed⟩, -⟩, -⟩, -⟩, hroot⟩ := h
  cases hparams : divergentParams K d a.divergentService with
  | error err => simp [hparams] at hroot
  | ok expectedLER =>
    simp [divergentApplied, hbackward, hconfirmed, hparams, TxAnswer.applied, Except.isOk,
      Except.toBool]

/-- What is inserted again where that step succeeds: all of it. -/
theorem extraApplied_of_replay {u : Unit} {leaves : List H}
    (hverified : divergentVerified K d a leaves = true) (h : replay K d a b = .ok u b') :
    (if extraApplied K d a leaves then extraHashes K d else []) = extraHashes K d := by
  unfold replay at h
  by_cases hextra : 0 < d.extraL2Bridges.length
  · rw [if_pos hextra, adaptExcept_eq_ok_iff, stepForwardLETExtraL2Bridges, txStep_eq_ok_iff] at h
    obtain ⟨-, hconfirmed, ler, hparams, -⟩ := h
    rw [if_pos]
    simp [extraApplied, hverified, hextra, hconfirmed, hparams, TxAnswer.applied, Except.isOk,
      Except.toBool]
  · have hnone : d.extraL2Bridges = [] := List.length_eq_zero_iff.mp (Nat.eq_zero_of_not_pos hextra)
    simp [extraHashes, hnone]

/-- What a run has done that succeeds: the rollback, the insertion of the divergent leaves, which
was verified, and that of the bridges which the rollback took away. -/
theorem executeRecovery_eq_ok {u : Unit} (h : executeRecovery K d a b = .ok u b') :
    divergentVerified K d a b.leaves = true ∧
      b'.leaves = afterBackward K d a b.leaves ++ (divergentHashes K d ++ extraHashes K d) := by
  have hstate := stateAfter_of_ok h
  obtain ⟨u1, b1, hauths, hrest⟩ := bind_eq_ok_iff.mp h
  obtain ⟨u2, b2, hpause, hdefer⟩ := bind_eq_ok_iff.mp hrest
  obtain rfl : b = b1 := stateAfter_buildAuths.symm.trans (stateAfter_of_ok hauths)
  have hleaves : b2.leaves = b.leaves := by
    rw [← stateAfter_of_ok hpause, stateAfter_pauseBridge]
  rw [stateAfter_executeRecovery (starts_iff.mpr ⟨⟨_, _, hauths⟩, ⟨_, _, hpause⟩⟩)] at hstate
  -- The steps on the tree, one after the other.
  obtain ⟨b3, hsteps, -⟩ := deferDeactivate_eq_ok_iff.mp hdefer
  obtain ⟨u4, b4, hback, hsteps⟩ := bind_eq_ok_iff.mp hsteps
  obtain ⟨u5, b5, hdivergent, hsteps⟩ := bind_eq_ok_iff.mp hsteps
  obtain ⟨u6, b6, hreplay, -⟩ := bind_eq_ok_iff.mp hsteps
  have hbackward : backwardVerified K d a b2.leaves = true := rollBack_isOk_iff.mp ⟨_, _, hback⟩
  have hverified : divergentVerified K d a b2.leaves = true := by
    refine (divergent_isOk_iff hbackward).mp ⟨u5, b5, ?_⟩
    rw [← stateAfter_rollBack, stateAfter_of_ok hback]
    exact adaptExcept_eq_ok_iff.mp hdivergent
  rw [hleaves] at hverified
  refine ⟨hverified, ?_⟩
  rw [← hstate]
  simp only [appended]
  rw [if_pos (divergentApplied_of_verified hverified), extraApplied_of_replay hverified hreplay]

/-- Wherever a run of the recovery stops, the tree has its old leaves, or those below the divergence
point, and then a first part of what the recovery is to insert, after a success all of it. -/
theorem leaves_executeRecovery : ∃ kept added,
      (kept = b.leaves ∨ kept = b.leaves.take d.divergencePoint) ∧
      added <+: divergentHashes K d ++ extraHashes K d ∧
      (stateAfter (executeRecovery K d a) b).leaves = kept ++ added ∧
      ((∃ u b', executeRecovery K d a b = .ok u b') →
        added = divergentHashes K d ++ extraHashes K d) := by
  have hkept : afterBackward K d a b.leaves = b.leaves ∨
      afterBackward K d a b.leaves = b.leaves.take d.divergencePoint := by
    unfold afterBackward
    split
    · exact .inr rfl
    · exact .inl rfl
  by_cases hok : ∃ u b', executeRecovery K d a b = .ok u b'
  · obtain ⟨u, b', h⟩ := hok
    rw [stateAfter_of_ok h]
    exact ⟨_, _, hkept, List.prefix_rfl, (executeRecovery_eq_ok h).2, fun _ => rfl⟩
  cases hstarts : starts d a with
  | false =>
    rw [stateAfter_executeRecovery_leaves hstarts]
    exact ⟨_, [], .inl rfl, List.nil_prefix, (List.append_nil _).symm, (absurd · hok)⟩
  | true =>
    rw [stateAfter_executeRecovery hstarts]
    refine ⟨_, appended K d a b.leaves, hkept, ?_, rfl, (absurd · hok)⟩
    unfold appended
    cases hextra : extraApplied K d a b.leaves with
    | true =>
      -- The second insertion is not tried unless the first was verified.
      have hdivergent := divergentApplied_of_verified (Bool.and_eq_true_iff.mp hextra).1
      rw [hdivergent]
      exact List.prefix_rfl
    | false =>
      rw [if_neg Bool.false_ne_true, List.append_nil]
      split
      · exact List.prefix_append _ _
      · exact List.nil_prefix

end ends

end AggKit.BackwardForwardLET
