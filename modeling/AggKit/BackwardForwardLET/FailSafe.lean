import AggKit.BackwardForwardLET.Exact

/-!
# When a recovery that fails is safe

A recovery passes through states in which the tree lacks leaves: from the moment at which
`BackwardLET` is applied until the second `ForwardLET` is. The bridge has to stay paused meanwhile. It
is unpaused by a deferred step, however, which runs after every failure.
-/

namespace AggKit.BackwardForwardLET

open Agglayer BridgeSync Exec

/-! ## No leaf of an unpaused bridge is missing -/

section failSafe

variable {H : Type} [DecidableEq H] {K : Keccak H} {d : DiagnosisResult H} {a : Answers}

/-- The run does not leave the bridge unpaused with a leaf missing that it had before. -/
def FailsSafe (b b' : L2Bridge H) : Prop := b'.emergency = false → b.leaves.Subperm b'.leaves

/-- A recovery is safe exactly if it does not start, the bridge stays paused, the rollback is not
applied, or the leaves that it took away are among those that are then appended. -/
theorem executeRecovery_failsSafe_iff (K : Keccak H) (d : DiagnosisResult H) (a : Answers)
    (b : L2Bridge H) :
    FailsSafe b (stateAfter (executeRecovery K d a) b) ↔
      starts d a = false ∨ endsUnpaused d a b = false ∨ backwardApplied K d a = false ∨
        (b.leaves.drop d.divergencePoint).Subperm (appended K d a b.leaves) := by
  unfold FailsSafe
  cases hstarts : starts d a with
  | false => simp [stateAfter_executeRecovery_leaves hstarts, List.Subperm.refl]
  | true =>
    rw [stateAfter_executeRecovery hstarts]
    cases hunpaused : endsUnpaused d a b with
    | false => simp
    | true =>
      cases hbackward : backwardApplied K d a with
      | false => simp [afterBackward, hbackward, (List.sublist_append_left _ _).subperm]
      | true =>
        -- Both sides begin with the leaves up to the divergence point.
        have hcancel : (b.leaves.take d.divergencePoint ++ b.leaves.drop d.divergencePoint).Subperm
            (b.leaves.take d.divergencePoint ++ appended K d a b.leaves) ↔
              (b.leaves.drop d.divergencePoint).Subperm (appended K d a b.leaves) :=
          List.subperm_append_left _
        simpa [afterBackward, hbackward] using hcancel

/-- Everything is answered and confirmed, except that the call which sends the first `ForwardLET`
fails. -/
def Answers.forwardNotSent (service : BridgeService) : Answers :=
  { Answers.confirming service with divergent := .notSent false }

/-- Whenever there is something to roll back, that failure leaves the bridge unpaused without it. -/
theorem stateAfter_forwardNotSent {env : Env H} {certs : List (List BridgeExit)}
    {bridges : List BridgeResponse} {point : ℕ} {divergent : List BridgeExit}
    (henv : env.Describes K certs bridges) (hreports : d.Reports env bridges point divergent)
    (hpoint : point < bridges.length) :
    stateAfter (executeRecovery K d (.forwardNotSent env.bridgeService)) env.l2Bridge =
      ⟨env.l2Bridge.leaves.take point, false⟩ := by
  have hback : backwardApplied K d (.forwardNotSent env.bridgeService) = true := by
    have hcase : rollsBack d = true := rollsBack_iff.mpr (hreports.backward.mpr hpoint)
    have hparams := backwardParams_isOk henv hreports hpoint
    simp [backwardApplied, hcase, Answers.forwardNotSent, Answers.confirming, hparams,
      TxAnswer.applied]
  have hnone : appended K d (.forwardNotSent env.bridgeService) env.l2Bridge.leaves = [] := by
    simp [appended, divergentApplied, extraApplied, divergentVerified, Answers.forwardNotSent,
      TxAnswer.applied]
  have hstarts : starts d (.forwardNotSent env.bridgeService) = true := by
    simp [starts, Answers.forwardNotSent, Answers.confirming]
  rw [stateAfter_executeRecovery hstarts, hnone, List.append_nil, afterBackward, if_pos hback,
    hreports.divergencePoint]
  rfl

/-- L2 has one bridge, and two other exits are settled. The bridge is taken away, the call that sends
the settled leaves fails, and the contract is unpaused without any leaf. -/
theorem executeRecovery_loses_leaf :
    let env := Env.answering freeKeccak [[exitOf 2, exitOf 3]] [bridgeOf "1"] false
    ∃ d, diagnose freeKeccak env = .ok d ∧
      stateAfter (executeRecovery freeKeccak d (.forwardNotSent env.bridgeService)) env.l2Bridge =
        ⟨[], false⟩ ∧
      ¬FailsSafe env.l2Bridge
        (stateAfter (executeRecovery freeKeccak d (.forwardNotSent env.bridgeService))
          env.l2Bridge) := by
  intro env
  have henv := Env.answering_describes freeKeccak [[exitOf 2, exitOf 3]] [bridgeOf "1"] false
  have hsync : ¬InSync freeKeccak [[exitOf 2, exitOf 3]] env.l2Bridge.leaves :=
    fun hsync => absurd hsync.2 (by decide)
  obtain ⟨matched, unmatched, d, hsplits, hd, hreports⟩ :=
    diagnose_diverged henv (List.cons_ne_nil _ _) hsync
  obtain ⟨rfl, rfl⟩ := hsplits.of_short (show 1 < 2 by decide)
  have hstate := stateAfter_forwardNotSent henv hreports (by decide)
  refine ⟨d, hd, hstate, fun hsafe => ?_⟩
  rw [hstate] at hsafe
  exact absurd (hsafe rfl).length_le (by decide)

end failSafe

end AggKit.BackwardForwardLET
