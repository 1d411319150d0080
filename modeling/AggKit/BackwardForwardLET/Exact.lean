import AggKit.BackwardForwardLET.Progress

/-!
# When a recovery is exact

A recovery is exact if the divergence point is the length of the longest common prefix of the settled
leaves and those of L2, if a recovery that succeeds leaves the settled leaves followed by those of L2
after that prefix, and if leaves of L2 that merely extend the settled ones stay as they are.

The divergence is looked for with whole certificates, from the newest one down. It is the common
prefix where that prefix ends between two certificates and none of the certificates above sits whole
at its place (`Splits.eq_lcp`). What a recovery that succeeds leaves is in
`executeRecovery_eq_ok_leaves`: the tool compares the root of the contract with the one that it
computes, and a root determines the leaves.
-/

namespace AggKit.BackwardForwardLET

open Agglayer BridgeSync Exec CommonPrefix List

section splits

variable {H : Type} [DecidableEq H] {K : Keccak H} {leaves : List H}

variable (K) in
omit [DecidableEq H] in
/-- The leaf hashes of some certificates. -/
def leafHashes (certs : List (List BridgeExit)) : List H :=
  certs.flatten.map (bridgeExitLeafHash K)

omit [DecidableEq H] in
theorem leafHashes_append (a b : List (List BridgeExit)) :
    leafHashes K (a ++ b) = leafHashes K a ++ leafHashes K b := by
  rw [leafHashes, flatten_append, map_append]
  rfl

omit [DecidableEq H] in
theorem length_leafHashes (certs : List (List BridgeExit)) :
    (leafHashes K certs).length = certs.flatten.length := length_map _

variable (K) in
omit [DecidableEq H] in
/-- The certificates split where L2 begins to differ: those below are on L2 from its beginning on, the
first leaf above is not where it should be, and no certificate above is. -/
def SplitsWhereDiffers (leaves : List H) (certs : List (List BridgeExit)) : Prop :=
  ∃ below above, certs = below ++ above ∧ leafHashes K below <+: leaves ∧ above.flatten ≠ [] ∧
    (leafHashes K above).head? ≠ (leaves.drop below.flatten.length).head? ∧
    NoneMatches K leaves below.flatten.length above

omit [DecidableEq H] in
/-- Certificates that are all at their places and of which none matches have no leaves. -/
theorem NoneMatches.flatten_eq_nil {i : ℕ} {certs : List (List BridgeExit)}
    (h : NoneMatches K leaves i certs) (hplace : leafHashes K certs <+: leaves.drop i) :
    certs.flatten = [] := by
  induction certs generalizing i with
  | nil => rfl
  | cons c certs ih =>
    obtain ⟨hc, hcerts⟩ := h
    have hcons : leafHashes K (c :: certs) =
        c.map (bridgeExitLeafHash K) ++ leafHashes K certs := by
      rw [leafHashes, flatten_cons, map_append]
      rfl
    rw [hcons] at hplace
    obtain ⟨rest, hrest⟩ := hplace
    by_cases hempty : c = []
    · subst hempty
      rw [flatten_cons, nil_append]
      exact ih hcerts ⟨rest, by simpa using hrest⟩
    · refine absurd ⟨leafHashes K certs ++ rest, ?_⟩ (hc hempty)
      rw [← hrest, append_assoc]

/-- Where the lists begin to differ at the end of a certificate, the walk stops there. -/
theorem Splits.eq_lcp {certs matched unmatched : List (List BridgeExit)}
    (h : Splits K leaves certs matched unmatched) (hdiffers : SplitsWhereDiffers K leaves certs) :
    matched.flatten.length = lcp (leafHashes K certs) leaves := by
  obtain ⟨below, above, hcerts, hbelow, hne, hhead, hnone⟩ := hdiffers
  obtain ⟨rest, rfl⟩ := hbelow
  have hdrop : (leafHashes K below ++ rest).drop below.flatten.length = rest := by
    rw [← length_leafHashes (K := K), drop_left]
  rw [hdrop] at hhead
  have hlcp : lcp (leafHashes K certs) (leafHashes K below ++ rest) = below.flatten.length := by
    rw [hcerts, leafHashes_append, lcp_append, lcp_eq_zero_iff.mpr (Or.inr hhead), Nat.add_zero,
      length_leafHashes]
  rw [hlcp]
  -- The two splits of the certificates differ by those between them.
  rcases append_eq_append_iff.mp (h.eq.symm.trans hcerts) with
    ⟨between, hmatched, hunmatched⟩ | ⟨between, hmatched, hunmatched⟩
  · -- The walk went further down, past certificates that are on L2: they are empty.
    have hpast := h.unmatched
    rw [hunmatched, NoneMatches.append_iff] at hpast
    have hempty := hpast.1.flatten_eq_nil <| by
      rw [hmatched, leafHashes_append, append_assoc, ← length_leafHashes (K := K),
        drop_left]
      exact prefix_append _ _
    rw [hmatched, flatten_append, hempty, append_nil]
  · -- The walk stopped above, at a certificate that is on L2: there is none.
    rcases h.matched with hnil | ⟨front, c, hlast, hcne, hplace⟩
    · rw [hnil] at hmatched
      rw [(append_eq_nil_iff.mp hmatched.symm).1, hnil]
    · rcases eq_nil_or_concat between with rfl | ⟨init, c', rfl⟩
      · rw [hmatched, append_nil]
      · rw [concat_eq_append] at hmatched hunmatched
        rw [hmatched, ← append_assoc] at hlast
        obtain ⟨rfl, hcc⟩ := append_inj' hlast rfl
        obtain rfl := singleton_inj.mp hcc
        rw [hunmatched, append_assoc, NoneMatches.append_iff] at hnone
        rw [flatten_append, length_append] at hplace
        exact absurd hplace (hnone.2.1 hcne)

omit [DecidableEq H] in
/-- One certificate that is longer than all of L2 is not on L2. -/
theorem Splits.of_short {c : List BridgeExit} {matched unmatched : List (List BridgeExit)}
    (h : Splits K leaves [c] matched unmatched) (hshort : leaves.length < c.length) :
    matched = [] ∧ unmatched = [c] := by
  rcases h.matched with rfl | ⟨front, c', rfl, -, hplace⟩
  · exact ⟨rfl, h.eq.symm⟩
  · have hmem : c' ∈ [c] := by
      rw [h.eq]
      simp
    have hlength := hplace.length_le
    rw [mem_singleton.mp hmem, length_map, length_drop] at hlength
    omega

end splits

/-! ## What a recovery leaves -/

section recovery

variable {H : Type} [DecidableEq H] {K : Keccak H} {env : Env H} {certs : List (List BridgeExit)}
  {bridges : List BridgeResponse} {d : DiagnosisResult H} {a : Answers} {b b' : L2Bridge H}
  {point : ℕ} {divergent : List BridgeExit}

/-- The bridge service says nothing but what is on L2, whenever it is asked. -/
structure Answers.Honest (a : Answers) (bridges : List BridgeResponse) : Prop where
  backward : ∀ dc br, a.backwardService dc = .ok br → bridges[dc]? = some br
  divergent : ∀ dc br, a.divergentService dc = .ok br → bridges[dc]? = some br
  extra : ∀ dc br, a.extraService dc = .ok br → bridges[dc]? = some br

omit [DecidableEq H] in
theorem leafHashesUpToDivergence_eq_ok {service : BridgeService} {hashes : List H}
    (hhonest : ∀ dc br, service dc = .ok br → bridges[dc]? = some br)
    (h : leafHashesUpToDivergence K d service = .ok hashes) :
    hashes = (bridges.map (bridgeResponseLeafHash K)).take d.divergencePoint := by
  unfold leafHashesUpToDivergence fetchLeafHashes at h
  split_ifs at h with hpos
  · exact fetchL2LeafHashesUpTo_eq_ok hhonest (mapError_eq_ok_iff.mp h)
  · rw [Nat.eq_zero_of_not_pos hpos, take_zero]
    exact (Except.ok.inj h).symm

omit [DecidableEq H] in
/-- The root that is expected after the divergent leaves is that of the leaves up to the divergence
point followed by them. -/
theorem divergentParams_eq_ok {service : BridgeService} {expectedLER : H}
    (hhonest : ∀ dc br, service dc = .ok br → bridges[dc]? = some br)
    (h : divergentParams K d service = .ok expectedLER)
    (hfits : d.divergencePoint + d.divergentLeaves.length ≤ 2 ^ 32) :
    expectedLER = Merkle.root K.pair K.zero 32
      ((bridges.map (bridgeResponseLeafHash K)).take d.divergencePoint ++
        d.divergentLeaves.map (bridgeExitLeafHash K)) := by
  obtain ⟨hashes, hhashes, hroot⟩ := except_bind_ok.mp h
  obtain ⟨frontier, hfrontier, hroot⟩ := except_bind_ok.mp hroot
  have heq := computeRootFromFrontier_eq (mapError_eq_ok_iff.mp hfrontier)
    (mapError_eq_ok_iff.mp hroot) (by rwa [length_map])
  rw [heq, leafHashesUpToDivergence_eq_ok hhonest hhashes, take_take, Nat.min_self]

omit [DecidableEq H] in
/-- The leaves to which the tree is rolled back, for a diagnosis that reports a divergence. -/
theorem afterBackward_of_verified (hreports : d.Reports env bridges point divergent)
    {leaves : List H} (hlength : leaves.length = bridges.length)
    (h : backwardVerified K d a leaves = true) : afterBackward K d a leaves = leaves.take point := by
  unfold afterBackward backwardApplied
  by_cases hback : point < bridges.length
  · have hcase : rollsBack d = true := rollsBack_iff.mpr (hreports.backward.mpr hback)
    simp only [backwardVerified, hcase, Bool.not_true, Bool.false_or, Bool.and_eq_true,
      beq_iff_eq] at h
    obtain ⟨⟨⟨hparams, hconfirmed⟩, -⟩, -⟩ := h
    rw [hcase, hparams, hconfirmed, TxAnswer.applied, hreports.divergencePoint]
    rfl
  · have hcase : rollsBack d = false :=
      Bool.eq_false_iff.mpr fun hcase => hback (hreports.backward.mp (rollsBack_iff.mp hcase))
    have hall : leaves.take point = leaves := take_of_length_le (by omega)
    rw [hcase, Bool.false_and, hall]
    rfl

omit [DecidableEq H] in
theorem extraHashes_eq (hreports : d.Reports env bridges point divergent) :
    extraHashes K d = (bridges.map (bridgeResponseLeafHash K)).drop point := by
  have hcopy : (d.extraL2Bridges.map leafDataToContractLeaf) = d.extraL2Bridges := map_id _
  rw [extraHashes, hcopy, hreports.extraL2Bridges, map_map, ← map_drop]
  rfl

/-- A recovery that succeeds leaves the leaves up to the divergence point, the divergent ones and those
of L2 after the divergence point. -/
theorem executeRecovery_eq_ok_leaves (hinj : Function.Injective2 K.pair)
    (hreports : d.Reports env bridges point divergent) (hhonest : a.Honest bridges)
    (hb : b.leaves = bridges.map (bridgeResponseLeafHash K)) {u : Unit}
    (h : executeRecovery K d a b = .ok u b') (hfits : b'.leaves.length ≤ 2 ^ 32) :
    b'.leaves = b.leaves.take point ++
      (divergent.map (bridgeExitLeafHash K) ++ b.leaves.drop point) := by
  obtain ⟨hverified, hleaves⟩ := executeRecovery_eq_ok h
  simp only [divergentVerified, Bool.and_eq_true, beq_iff_eq] at hverified
  obtain ⟨⟨⟨⟨⟨hbackward, -⟩, -⟩, hcount⟩, -⟩, hroot⟩ := hverified
  have hback : afterBackward K d a b.leaves = b.leaves.take point :=
    afterBackward_of_verified hreports (by rw [hb, length_map]) hbackward
  have hdivergent : (divergentHashes K d).length = divergent.length := by
    rw [divergentHashes, length_map, length_map, hreports.divergentLeaves]
  rw [hback] at hleaves hcount hroot
  have htotal : (b.leaves.take point ++ divergentHashes K d).length ≤ 2 ^ 32 := by
    rw [hleaves, ← append_assoc, length_append] at hfits
    omega
  cases hparams : divergentParams K d a.divergentService with
  | error err => simp [hparams] at hroot
  | ok expectedLER =>
    simp only [hparams, beq_iff_eq] at hroot
    -- The contract has the root that the settled leaves would give, so it has the settled leaves.
    have hexpected := divergentParams_eq_ok hhonest.divergent hparams (by omega)
    rw [hreports.divergencePoint, hreports.divergentLeaves, ← hb] at hexpected
    have heq := Merkle.eq_of_root_eq hinj (hroot.trans hexpected)
      (by simp [hdivergent]) htotal
    rw [hleaves, ← append_assoc, heq, extraHashes_eq hreports, hb, append_assoc]

/-- Where nothing is divergent, a rollback that is applied is the end of the recovery: no root can be
computed for no leaves. -/
theorem stateAfter_executeRecovery_noLeaves (hreports : d.Reports env bridges point [])
    (hstarts : starts d a = true) (hback : backwardApplied K d a = true) :
    (stateAfter (executeRecovery K d a) b).leaves = b.leaves.take point := by
  have hparams : (divergentParams K d a.divergentService).isOk = false := by
    rw [Bool.eq_false_iff]
    intro hok
    obtain ⟨r, hr⟩ := except_isOk_iff.mp hok
    obtain ⟨hashes, -, hroot⟩ := except_bind_ok.mp hr
    obtain ⟨frontier, -, hroot⟩ := except_bind_ok.mp hroot
    simp [hreports.divergentLeaves, computeRootFromFrontier, Except.mapError] at hroot
  have hnone : divergentApplied K d a b.leaves = false := by
    rw [divergentApplied, hparams, Bool.false_and, Bool.and_false]
  have hunverified : divergentVerified K d a b.leaves = false :=
    Bool.eq_false_iff.mpr fun hverified => by
      rw [divergentApplied_of_verified hverified] at hnone
      cases hnone
  rw [stateAfter_executeRecovery hstarts]
  simp [afterBackward, hback, appended, hnone, extraApplied, hunverified, hreports.divergencePoint]

/-- The nodes answer everything, and every transaction is confirmed. -/
def Answers.confirming (service : BridgeService) : Answers where
  chainIDFails := false
  adminAuthFails := false
  pauserAuthFails := false
  unpauserAuthFails := false
  activate := .confirmed
  activeFails := false
  backwardService := service
  backward := .confirmed
  backwardCountFails := false
  divergentService := service
  divergent := .confirmed
  divergentCountFails := false
  divergentRootFails := false
  extraService := service
  extra := .confirmed
  extraCountFails := false
  extraRootFails := false
  finalCountFails := false
  finalRootFails := false
  deactivate := .confirmed
  inactiveFails := false

omit [DecidableEq H] in
theorem starts_confirming (service : BridgeService) :
    starts d (Answers.confirming service) = true := by
  simp [starts, Answers.confirming]

omit [DecidableEq H] in
/-- The parameters of a rollback can be computed where all bridges can be fetched. -/
theorem backwardParams_isOk (henv : env.Describes K certs bridges)
    (hreports : d.Reports env bridges point divergent) (hpoint : point < bridges.length) :
    (backwardParams K d env.bridgeService).isOk = true := by
  have hfetch : fetchLeafHashes K env.bridgeService d.l2CurrentDepositCount =
      .ok (bridges.map (bridgeResponseLeafHash K)) := by
    rw [fetchLeafHashes, hreports.l2CurrentDepositCount,
      fetchL2LeafHashesUpTo_of_le henv.bridge le_rfl, take_of_length_le (by simp)]
    rfl
  have hrange : ¬bridges.length ≤ point := by omega
  have henough : ¬bridges.length < point := by omega
  rw [backwardParams, hfetch]
  simp [computeBackwardLETParams, hreports.divergencePoint, hrange,
    computeFrontier, henough, computeMerkleProof, Except.mapError, Except.isOk, Except.toBool]

end recovery

/-! ## Exact recoveries -/

section exact

variable {H : Type} [DecidableEq H]

/-- The recovery is exact for these certificates and these bridges, whatever the nodes answer. -/
def RecoversExactly (K : Keccak H) (certs : List (List BridgeExit))
    (bridges : List BridgeResponse) : Prop :=
  let settled := leafHashes K certs
  let leaves := bridges.map (bridgeResponseLeafHash K)
  ∀ env : Env H, env.Describes K certs bridges → ∃ d, diagnose K env = .ok d ∧
    (d.case ≠ .noDivergence → d.divergencePoint = lcp settled leaves) ∧
    (∀ a b', a.Honest bridges → runRecovery K d a env.l2Bridge = .ok () b' →
      b'.leaves.length ≤ 2 ^ 32 → b'.leaves = settled ++ leaves.drop (lcp settled leaves)) ∧
    (settled <+: leaves → ∀ a, (stateAfter (runRecovery K d a) env.l2Bridge).leaves = leaves)

variable {K : Keccak H} {env : Env H} {certs : List (List BridgeExit)}
  {bridges : List BridgeResponse} {d : DiagnosisResult H} {a : Answers} {b : L2Bridge H} {point : ℕ}
  {divergent : List BridgeExit}

theorem runRecovery_noDivergence (hcase : d.case = .noDivergence) :
    runRecovery K d a = pure () := by
  simp [runRecovery, hcase]

theorem runRecovery_reports (hreports : d.Reports env bridges point divergent) :
    runRecovery K d a = executeRecovery K d a := by
  simp [runRecovery, hreports.case, hreports.aggsenderAPIFailed]

/-- Nothing has to be done where nothing is settled or both sides agree. -/
theorem recoversExactly_of_noDivergence (hinj : Function.Injective2 K.pair)
    (h : certs = [] ∨ InSync K certs (bridges.map (bridgeResponseLeafHash K))) :
    RecoversExactly K certs bridges := by
  intro env henv
  set settled := leafHashes K certs
  set leaves := bridges.map (bridgeResponseLeafHash K)
  have hl2 : env.l2Bridge.leaves = leaves := henv.leaves
  rw [← hl2] at h
  obtain ⟨d, hd, hcase, -⟩ := diagnose_noDivergence henv h
  refine ⟨d, hd, fun hne => absurd hcase hne, fun a b' _ hrun hfits => ?_, fun _ a => ?_⟩
  · rw [runRecovery_noDivergence hcase, pure_eq_ok_iff] at hrun
    obtain ⟨-, rfl⟩ := hrun
    rw [hl2] at h hfits ⊢
    rcases h with rfl | ⟨hroot, hcount⟩
    · rfl
    · -- Equal roots are roots of equal lists.
      have heq : leaves = settled :=
        Merkle.eq_of_root_eq hinj hroot (by rw [length_leafHashes]; exact hcount) hfits
      have hself : lcp settled settled = settled.length := by
        simpa using lcp_append settled [] []
      rw [heq, hself, drop_length, append_nil]
  · rw [runRecovery_noDivergence hcase, stateAfter_pure, hl2]

/-- Settled certificates that are cut where the two sides differ are recovered exactly. -/
theorem recoversExactly_of_splits (hinj : Function.Injective2 K.pair) (hne : certs ≠ [])
    (hsync : ¬InSync K certs (bridges.map (bridgeResponseLeafHash K)))
    (h : SplitsWhereDiffers K (bridges.map (bridgeResponseLeafHash K)) certs) :
    RecoversExactly K certs bridges := by
  intro env henv
  set settled := leafHashes K certs
  set leaves := bridges.map (bridgeResponseLeafHash K)
  have hl2 : env.l2Bridge.leaves = leaves := henv.leaves
  rw [← hl2] at hsync
  obtain ⟨matched, unmatched, d, hsplits, hd, hreports⟩ := diagnose_diverged henv hne hsync
  rw [hl2] at hsplits
  have hpoint : matched.flatten.length = lcp settled leaves := hsplits.eq_lcp h
  have hsettled : settled = leaves.take (lcp settled leaves) ++ leafHashes K unmatched := by
    have hcut : settled = leafHashes K matched ++ leafHashes K unmatched := by
      rw [← leafHashes_append, ← hsplits.eq]
    have htake : settled.take (lcp settled leaves) = leafHashes K matched := by
      rw [← hpoint, ← length_leafHashes (K := K), hcut, take_left]
    rw [← take_lcp, htake, ← hcut]
  refine ⟨d, hd, fun _ => hreports.divergencePoint.trans hpoint, fun a b' hhonest hrun hfits => ?_,
    fun hextends a => ?_⟩
  · rw [runRecovery_reports hreports] at hrun
    have hleaves := executeRecovery_eq_ok_leaves hinj hreports hhonest henv.leaves hrun hfits
    rw [hl2, hpoint] at hleaves
    calc b'.leaves
        = leaves.take (lcp settled leaves) ++
            (leafHashes K unmatched ++ leaves.drop (lcp settled leaves)) := hleaves
      _ = settled ++ leaves.drop (lcp settled leaves) := by
          rw [← append_assoc, ← hsettled]
  · -- The first leaf above the cut is not on L2, so L2 does not extend what is settled.
    obtain ⟨below, above, hcerts, hbelow, habove, hhead, -⟩ := h
    obtain ⟨rest, hrest⟩ := hextends
    have hcut : leaves.drop below.flatten.length = leafHashes K above ++ rest := by
      rw [← hrest, show settled = leafHashes K below ++ leafHashes K above by
        rw [← leafHashes_append, ← hcerts], append_assoc, ← length_leafHashes (K := K),
        drop_left]
    have hsome : leafHashes K above ≠ [] := by
      simpa [leafHashes] using habove
    refine absurd ?_ hhead
    rw [hcut, head?_append_of_ne_nil _ hsome]

/-- Where L2 extends what is settled without being equal to it, the recovery takes the rest away. -/
theorem not_recoversExactly_of_extends {settledPoint : ℕ} (henv : env.Describes K certs bridges)
    (hd : diagnose K env = .ok d) (hreports : d.Reports env bridges settledPoint [])
    (hextends : leafHashes K certs <+: bridges.map (bridgeResponseLeafHash K))
    (hpoint : settledPoint < bridges.length) : ¬RecoversExactly K certs bridges := by
  intro hexact
  obtain ⟨d', hd', -, -, hkeeps⟩ := hexact env henv
  obtain rfl : d = d' := Except.ok.inj (hd.symm.trans hd')
  have hback : backwardApplied K d (.confirming env.bridgeService) = true := by
    have hcase : rollsBack d = true := rollsBack_iff.mpr (hreports.backward.mpr hpoint)
    have hparams := backwardParams_isOk henv hreports hpoint
    simp [backwardApplied, hcase, Answers.confirming, hparams, TxAnswer.applied]
  have hlost := stateAfter_executeRecovery_noLeaves (b := env.l2Bridge) hreports
    (starts_confirming env.bridgeService) hback
  have hkept := hkeeps hextends (.confirming env.bridgeService)
  rw [runRecovery_reports hreports, hlost, henv.leaves] at hkept
  have hlength := congrArg List.length hkept
  rw [length_take, length_map] at hlength
  omega

/-- A recovery is exact only if nothing is settled, both sides agree, or the certificates are cut
where the sides differ. -/
theorem splits_of_recoversExactly (h : RecoversExactly K certs bridges) (hne : certs ≠ [])
    (hsync : ¬InSync K certs (bridges.map (bridgeResponseLeafHash K))) :
    SplitsWhereDiffers K (bridges.map (bridgeResponseLeafHash K)) certs := by
  have henv := Env.answering_describes K certs bridges false
  obtain ⟨matched, unmatched, d, hsplits, hd, hreports⟩ := diagnose_diverged henv hne hsync
  obtain ⟨d', hd', hpoint, -⟩ := h _ henv
  obtain rfl : d = d' := Except.ok.inj (hd.symm.trans hd')
  have hcut : leafHashes K certs = leafHashes K matched ++ leafHashes K unmatched := by
    rw [← leafHashes_append, ← hsplits.eq]
  have hlcp : (leafHashes K matched).length =
      lcp (leafHashes K certs) (bridges.map (bridgeResponseLeafHash K)) := by
    rw [length_leafHashes, ← hpoint hreports.case, hreports.divergencePoint]
  have hbelow : leafHashes K matched <+: bridges.map (bridgeResponseLeafHash K) := by
    have htake := take_lcp (leafHashes K certs) (bridges.map (bridgeResponseLeafHash K))
    rw [← hlcp, hcut, take_left] at htake
    rw [htake]
    exact take_prefix _ _
  by_cases habove : unmatched.flatten = []
  · -- Nothing is divergent, so L2 extends what is settled, by at least one leaf.
    have hmatched : leafHashes K certs = leafHashes K matched := by
      rw [hcut, leafHashes, leafHashes, habove, map_nil, append_nil]
    rw [habove] at hreports
    refine absurd h (not_recoversExactly_of_extends henv hd hreports (hmatched ▸ hbelow) ?_)
    by_contra hle
    refine hsync ?_
    have heq : leafHashes K matched = bridges.map (bridgeResponseLeafHash K) :=
      hbelow.eq_of_length_le (by rw [length_leafHashes, length_map]; omega)
    rw [← heq, ← hmatched]
    exact ⟨rfl, length_leafHashes certs⟩
  · refine ⟨matched, unmatched, hsplits.eq, hbelow, habove, ?_, hsplits.unmatched⟩
    have hsome : leafHashes K unmatched ≠ [] := by
      simpa [leafHashes] using habove
    have hlt : lcp (leafHashes K certs) (bridges.map (bridgeResponseLeafHash K)) <
        (leafHashes K certs).length := by
      rw [← hlcp, hcut, length_append]
      have := length_pos_iff.mpr hsome
      omega
    have hdiffer := getElem?_lcp_ne hlt
    rw [← hlcp, hcut, getElem?_append_right le_rfl, Nat.sub_self] at hdiffer
    rw [← length_leafHashes (K := K), head?_drop, head?_eq_getElem?]
    exact hdiffer

/-- A recovery is exact exactly if nothing is settled, the roots and the counts of both sides are
equal, or the settled certificates can be cut where the leaves of L2 begin to differ from theirs, with
no certificate above the cut whole at its place. -/
theorem recoversExactly_iff (hinj : Function.Injective2 K.pair) (certs : List (List BridgeExit))
    (bridges : List BridgeResponse) :
    RecoversExactly K certs bridges ↔
      certs = [] ∨ InSync K certs (bridges.map (bridgeResponseLeafHash K)) ∨
        SplitsWhereDiffers K (bridges.map (bridgeResponseLeafHash K)) certs := by
  constructor
  · intro h
    by_cases hne : certs = []
    · exact Or.inl hne
    · by_cases hsync : InSync K certs (bridges.map (bridgeResponseLeafHash K))
      · exact Or.inr (Or.inl hsync)
      · exact Or.inr (Or.inr (splits_of_recoversExactly h hne hsync))
  · intro h
    by_cases hnone : certs = [] ∨ InSync K certs (bridges.map (bridgeResponseLeafHash K))
    · exact recoversExactly_of_noDivergence hinj hnone
    · have hne := not_or.mp hnone
      exact recoversExactly_of_splits hinj hne.1 hne.2 ((h.resolve_left hne.1).resolve_left hne.2)

end exact

/-- An exit of some amount. -/
def exitOf (amount : ℕ) : BridgeExit where
  leafType := 0
  tokenInfo := ⟨0, Vector.replicate 20 0⟩
  destinationNetwork := 1
  destinationAddress := Vector.replicate 20 0
  amount := some amount
  metadata := []

/-- The same on L2. -/
def bridgeOf (amount : String) : BridgeResponse where
  leafType := 0
  originNetwork := 0
  originAddress := "0x"
  destinationNetwork := 1
  destinationAddress := "0x"
  amount := amount
  metadata := ""

/-- Two certificates of which the second is not on L2. -/
theorem recoversExactly_secondCertificate :
    RecoversExactly freeKeccak [[exitOf 1], [exitOf 2]] [bridgeOf "1", bridgeOf "3"] := by
  refine (recoversExactly_iff freeKeccak_injective2_pair _ _).mpr (Or.inr (Or.inr ?_))
  refine ⟨[[exitOf 1]], [[exitOf 2]], rfl, ?_, by decide, ?_, ?_, trivial⟩
  · decide +kernel
  · decide +kernel
  · exact fun _ => by decide +kernel

/-- One certificate is settled with two exits of which L2 has the first. The certificate as a whole is
not on L2, so the divergence point is zero: its two exits are inserted there, and the bridge that L2
had is inserted a second time after them. -/
theorem not_recoversExactly_partialCertificate :
    let env := Env.answering freeKeccak [[exitOf 1, exitOf 2]] [bridgeOf "1"] false
    (∃ d, diagnose freeKeccak env = .ok d ∧ d.divergencePoint = 0 ∧
      d.divergentLeaves = [exitOf 1, exitOf 2] ∧
      d.extraL2Bridges = [bridgeResponseToLeafData (bridgeOf "1")]) ∧
    lcp (leafHashes freeKeccak [[exitOf 1, exitOf 2]]) env.l2Bridge.leaves = 1 ∧
    ¬RecoversExactly freeKeccak [[exitOf 1, exitOf 2]] [bridgeOf "1"] := by
  intro env
  have henv := Env.answering_describes freeKeccak [[exitOf 1, exitOf 2]] [bridgeOf "1"] false
  have hsync : ¬InSync freeKeccak [[exitOf 1, exitOf 2]] env.l2Bridge.leaves :=
    fun hsync => absurd hsync.2 (by decide)
  have hlcp : lcp (leafHashes freeKeccak [[exitOf 1, exitOf 2]]) env.l2Bridge.leaves = 1 := by
    decide +kernel
  obtain ⟨matched, unmatched, d, hsplits, hd, hreports⟩ :=
    diagnose_diverged henv (cons_ne_nil _ _) hsync
  obtain ⟨rfl, rfl⟩ := hsplits.of_short (show 1 < 2 by decide)
  refine ⟨⟨d, hd, hreports.divergencePoint, hreports.divergentLeaves, hreports.extraL2Bridges⟩,
    hlcp, fun hexact => ?_⟩
  obtain ⟨d', hd', hpoint, -⟩ := hexact env henv
  obtain rfl : d = d' := Except.ok.inj (hd.symm.trans hd')
  have hzero : 0 = 1 := (hreports.divergencePoint.symm.trans (hpoint hreports.case)).trans hlcp
  cases hzero

end AggKit.BackwardForwardLET
