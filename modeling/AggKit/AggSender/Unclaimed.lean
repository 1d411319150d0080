import AggKit.AggSender.AdjustSpec

/-!
# Claims without a GER on L1 and the unclaims that take them back

The last stage of `AdjustBlockRange` and the function as a whole. A claim whose GER is not on L1 may
stay in the range only when an unclaim of the same global index takes it back later in the range,
and each unclaim takes back one claim.

`findFirstMissingGERClaimWithoutFinalUnclaim` marks the unclaims it has used. Without the marked ones
its search is `Pairing.unpaired`, so the loop returns a range that is paired. An iteration that goes
on has found a claim without an unclaim and cuts before its block: the range gets shorter, and where
the events stand in order none of the blocks that are cut off could have stayed.
-/

namespace AggKit.AggSender

open Exec

open ClaimSync (Claim)
open Pairing

variable {H : Type}

/-- The place of an unclaim, in the order of `Claim.key`. -/
def Unclaim.key (u : Unclaim) : ℕ ×ₗ ℕ := toLex (u.blockNumber, u.logIndex)

theorem Unclaim.isPosterior_iff {u : Unclaim} {c : Claim H} :
    u.isPosterior c ↔ c.key < u.key := by
  unfold Unclaim.isPosterior Claim.key Unclaim.key
  rw [Prod.Lex.toLex_lt_toLex]

/-- An unclaim that takes a claim back: of the same global index, and later. -/
def TakenBackBy (c : Claim H) (u : Unclaim) : Prop :=
  c.globalIndex = u.globalIndex ∧ u.isPosterior c

instance (c : Claim H) (u : Unclaim) : Decidable (TakenBackBy c u) :=
  inferInstanceAs (Decidable (_ ∧ _))

/-! ## The search for an unclaim -/

section search

variable {claim : Claim H} {claims : List (Claim H)} {unclaims : List (Unclaim × Bool)}

/-- The unclaims that are not marked as used. -/
def unused (unclaims : List (Unclaim × Bool)) : List Unclaim :=
  (unclaims.filter fun u => !u.2).map Prod.fst

theorem unused_cons_used {u : Unclaim} : unused ((u, true) :: unclaims) = unused unclaims := rfl

theorem unused_cons_free {u : Unclaim} :
    unused ((u, false) :: unclaims) = u :: unused unclaims := rfl

theorem unused_map_false (us : List Unclaim) : unused (us.map fun u => (u, false)) = us := by
  induction us with
  | nil => rfl
  | cons u us ih => rw [List.map_cons, unused_cons_free, ih]

/-- Marking an unclaim as used is taking it away. -/
theorem unused_claimHasPosteriorUnclaim :
    (claimHasPosteriorUnclaim claim unclaims).map unused =
      take TakenBackBy claim (unused unclaims) := by
  induction unclaims with
  | nil => rfl
  | cons head unclaims ih =>
    obtain ⟨u, used⟩ := head
    unfold claimHasPosteriorUnclaim
    cases used with
    | true =>
      rw [if_neg (fun h => Bool.noConfusion h.1), unused_cons_used, ← ih, Option.map_map]
      rfl
    | false =>
      rw [unused_cons_free]
      unfold take
      by_cases h : TakenBackBy claim u
      · rw [if_pos h, if_pos ⟨rfl, h⟩]
        rfl
      · rw [if_neg h, if_neg (fun hand => h hand.2), ← ih, Option.map_map, Option.map_map]
        rfl

theorem findClaimWithoutUnclaim_eq :
    findClaimWithoutUnclaim claims unclaims = unpaired TakenBackBy claims (unused unclaims) := by
  induction claims generalizing unclaims with
  | nil => rfl
  | cons claim claims ih =>
    unfold findClaimWithoutUnclaim unpaired
    rw [← unused_claimHasPosteriorUnclaim]
    cases claimHasPosteriorUnclaim claim unclaims with
    | none => rfl
    | some unclaims' => exact ih

end search

/-! ## Events in order -/

/-- The claims and the unclaims stand in the order of the chain. -/
structure CertificateBuildParams.Chronological (p : CertificateBuildParams H) : Prop where
  claims : p.claims.Pairwise fun c c' => c.key ≤ c'.key
  unclaims : p.unclaims.Pairwise fun u u' => u.key ≤ u'.key

/-- In the order of the chain the first unclaim that takes back a claim is the right one: the later
ones take back everything that it takes back of the same global index. -/
theorem exchangeable_takenBackBy {claims : List (Claim H)} {unclaims : List Unclaim}
    (hunclaims : unclaims.Pairwise fun u u' => u.key ≤ u'.key) :
    Exchangeable TakenBackBy claims unclaims := by
  refine List.pairwise_of_forall fun c c' => hunclaims.imp fun {u u'} hle hcu hcu' hc'u => ?_
  have hindex : c'.globalIndex = u'.globalIndex := by
    calc c'.globalIndex = u.globalIndex := hc'u.1
      _ = c.globalIndex := hcu.1.symm
      _ = u'.globalIndex := hcu'.1
  have hlater : c'.key < u'.key := (Unclaim.isPosterior_iff.mp hc'u.2).trans_le hle
  exact ⟨hindex, Unclaim.isPosterior_iff.mpr hlater⟩

/-! ## The loop -/

variable [DecidableEq H] (K : Keccak H)

/-- The claims whose GER is not on L1. -/
def BaseFlow.missingClaims (f : BaseFlow H) (p : CertificateBuildParams H) : List (Claim H) :=
  p.claims.filter fun c =>
    !f.l1InfoTreeDataQuerier.onL1 K p.l1InfoTreeRootFromWhichToProve c.globalExitRoot

/-- Every claim whose GER is not on L1 is taken back by an unclaim of its own. -/
def BaseFlow.Unclaimed (f : BaseFlow H) (p : CertificateBuildParams H) : Prop :=
  Paired TakenBackBy (f.missingClaims K p) p.unclaims

section loop

variable {K} {f : BaseFlow H} {p q : CertificateBuildParams H} {root : H}
  {cache : GERValidationCache H} {claims : List (Claim H)}

theorem BaseFlow.findMissingClaims_eq (hsound : f.CacheSound K root cache)
    (hcached : Cached cache claims) :
    f.findMissingClaims claims cache =
      (claims.filter fun c => !f.l1InfoTreeDataQuerier.onL1 K root c.globalExitRoot, cache) := by
  induction claims with
  | nil => rfl
  | cons claim claims ih =>
    obtain ⟨hentry, hrest⟩ := List.forall_mem_cons.mp hcached
    obtain ⟨existsOnL1, hcache⟩ := Option.isSome_iff_exists.mp hentry
    have hanswer : f.getGERExistsOnL1 cache claim.globalExitRoot = (existsOnL1, cache) := by
      unfold BaseFlow.getGERExistsOnL1
      rw [hcache]
    unfold BaseFlow.findMissingClaims
    simp only [hanswer, ih hrest, List.filter_cons, ← hsound _ _ hcache]
    cases existsOnL1 <;> rfl

/-- With the cache of the stage before, the search is the greedy pairing. -/
theorem BaseFlow.findFirstMissingGERClaimWithoutFinalUnclaim_eq
    (hsound : f.CacheSound K p.l1InfoTreeRootFromWhichToProve cache)
    (hcached : Cached cache p.claims) :
    f.findFirstMissingGERClaimWithoutFinalUnclaim p cache =
      (unpaired TakenBackBy (f.missingClaims K p) p.unclaims, cache) := by
  unfold BaseFlow.findFirstMissingGERClaimWithoutFinalUnclaim
  simp only [BaseFlow.findMissingClaims_eq hsound hcached, findClaimWithoutUnclaim_eq,
    unused_map_false]
  rfl

/-- The loop is at a part of `p` above which no block passes `A`, with a cache for its claims. -/
structure BaseFlow.AtPart (f : BaseFlow H) (K : Keccak H) (A : CertificateBuildParams H → Prop)
    (p : CertificateBuildParams H) (s : CertificateBuildParams H × GERValidationCache H) :
    Prop where
  isAbove : IsAbove A p s.1
  sound : f.CacheSound K p.l1InfoTreeRootFromWhichToProve s.2
  cached : Cached s.2 p.claims

omit [DecidableEq H] in
theorem Cached.upTo {t : ℕ} (h : Cached cache p.claims) : Cached cache (p.upTo t).claims :=
  fun c hc => h c (mem_inBlocks.mp hc).1

omit [DecidableEq H] in
theorem IsAbove.root_eq {A : CertificateBuildParams H → Prop} (h : IsAbove A p q) :
    q.l1InfoTreeRootFromWhichToProve = p.l1InfoTreeRootFromWhichToProve := by
  rw [h.eq_upTo]
  rfl

variable {A : CertificateBuildParams H → Prop} {s s' : CertificateBuildParams H × GERValidationCache H}

namespace BaseFlow

theorem mem_claims_of_unpaired {c : Claim H} {unclaims : List Unclaim}
    (h : unpaired TakenBackBy (f.missingClaims K p) unclaims = some c) : c ∈ p.claims := by
  obtain ⟨pre, post, hsplit, -⟩ := unpaired_eq_some h
  exact List.mem_of_mem_filter (hsplit ▸ List.mem_append_right pre List.mem_cons_self)

theorem AtPart.find_eq (h : f.AtPart K A p s) :
    f.findFirstMissingGERClaimWithoutFinalUnclaim s.1 s.2 =
      (unpaired TakenBackBy (f.missingClaims K s.1) s.1.unclaims, s.2) := by
  have hsound : f.CacheSound K s.1.l1InfoTreeRootFromWhichToProve s.2 := by
    rw [h.isAbove.root_eq]
    exact h.sound
  have hcached : Cached s.2 s.1.claims := by
    rw [h.isAbove.eq_upTo]
    exact h.cached.upTo
  exact findFirstMissingGERClaimWithoutFinalUnclaim_eq hsound hcached

/-- An iteration ends the loop, or cuts before the block of a claim that found no unclaim. -/
theorem AtPart.step_eq (h : f.AtPart K A p s) :
    f.adjustInvalidClaimsStep s =
      match unpaired TakenBackBy (f.missingClaims K s.1) s.1.unclaims with
      | none => .ok (.done s.1)
      | some c =>
        if c.blockNum ≤ s.1.fromBlock then .error (.invalidClaim c.blockNum)
        else .ok (.again (s.1.upTo (c.blockNum - 1), s.2)) := by
  unfold adjustInvalidClaimsStep
  simp only [h.find_eq]
  cases hfind : unpaired TakenBackBy (f.missingClaims K s.1) s.1.unclaims with
  | none => rfl
  | some c =>
    have hin := h.isAbove.inRange.claims c (mem_claims_of_unpaired hfind)
    by_cases hstart : c.blockNum ≤ s.1.fromBlock
    · simp only [if_pos hstart]
    · simp only [if_neg hstart]
      rw [trimCertificateToBlock_eq_ok h.isAbove.inRange (by omega) (by omega)]
      rfl

end BaseFlow

omit [DecidableEq H] in
theorem Claim.blockNum_le_of_key_le {c c' : Claim H} (h : c.key ≤ c'.key) :
    c.blockNum ≤ c'.blockNum := by
  rcases (Prod.Lex.toLex_le_toLex).mp h with hlt | ⟨heq, -⟩
  · exact hlt.le
  · exact heq.le

/-- A claim that finds no unclaim leaves no part of the range with its block that is paired. -/
theorem BaseFlow.not_unclaimed_upTo {c : Claim H} {t : ℕ} (hp : p.InRange) (hc : p.Chronological)
    (hfind : unpaired TakenBackBy (f.missingClaims K p) p.unclaims = some c)
    (ht : c.blockNum ≤ t) : ¬f.Unclaimed K (p.upTo t) := by
  intro hpaired
  obtain ⟨pre, post, hsplit, hfail⟩ := unpaired_eq_some hfind
  have hsub : (pre ++ [c]).Sublist (f.missingClaims K p) := by
    rw [hsplit]
    exact (List.Sublist.refl pre).append (List.singleton_sublist.mpr List.mem_cons_self)
  have hsorted : (pre ++ [c]).Pairwise fun c c' => c.key ≤ c'.key :=
    hc.claims.sublist (hsub.trans List.filter_sublist)
  -- The claims up to `c` are in the part, for their blocks are not above that of `c`.
  have hin : ∀ x ∈ pre ++ [c], p.fromBlock ≤ x.blockNum ∧ x.blockNum ≤ t := by
    intro x hx
    have hmem : x ∈ p.claims := List.mem_of_mem_filter (hsub.subset hx)
    refine ⟨(hp.claims x hmem).1, ?_⟩
    rcases List.mem_append.mp hx with hpre | hlast
    · have hle : x.key ≤ c.key :=
        (List.pairwise_append.mp hsorted).2.2 x hpre c List.mem_cons_self
      exact (Claim.blockNum_le_of_key_le hle).trans ht
    · rw [List.mem_singleton.mp hlast]
      exact ht
  have hpart : (pre ++ [c]).Sublist (f.missingClaims K (p.upTo t)) := by
    have hfilter : f.missingClaims K (p.upTo t) =
        inBlocks Claim.blockNum p.fromBlock t (f.missingClaims K p) := by
      exact List.filter_comm _ _ _
    rw [hfilter, ← inBlocks_eq_self hin]
    exact hsub.filter _
  have hall : Paired TakenBackBy (pre ++ [c]) p.unclaims :=
    hpaired.mono hpart List.filter_sublist
  have hnone := unpaired_of_paired (exchangeable_takenBackBy hc.unclaims) hall
  exact Option.some_ne_none c (hfail.symm.trans hnone)

omit [DecidableEq H] in
theorem CertificateBuildParams.Chronological.upTo {t : ℕ} (h : p.Chronological) :
    (p.upTo t).Chronological :=
  ⟨h.claims.sublist List.filter_sublist, h.unclaims.sublist List.filter_sublist⟩

namespace BaseFlow

variable {fuel : ℕ}

/-- A claim that finds no unclaim rules out the parts of the range with its block. -/
def Excludes (f : BaseFlow H) (K : Keccak H) (A : CertificateBuildParams H → Prop)
    (p : CertificateBuildParams H) : Prop :=
  ∀ q, IsAbove A p q → ∀ c, unpaired TakenBackBy (f.missingClaims K q) q.unclaims = some c →
    ∀ t, c.blockNum ≤ t → ¬A (q.upTo t)

/-- An iteration that goes on gives up a block. -/
theorem AtPart.again (hexcl : f.Excludes K A p) (h : f.AtPart K A p s)
    (hstep : f.adjustInvalidClaimsStep s = .ok (.again s')) :
    f.AtPart K A p s' ∧ s'.1.toBlock < s.1.toBlock := by
  rw [h.step_eq] at hstep
  split at hstep
  · cases Except.ok.inj hstep
  rename_i c hfind
  split_ifs at hstep with hstart
  obtain rfl := Loop.Next.again.inj (Except.ok.inj hstep)
  have hin := h.isAbove.inRange.claims c (mem_claims_of_unpaired hfind)
  have hlt : c.blockNum - 1 < s.1.toBlock := by omega
  refine ⟨⟨h.isAbove.lower (by omega) hlt.le fun t ht _ => ?_, h.sound, h.cached⟩, hlt⟩
  exact hexcl s.1 h.isAbove c hfind t (by omega)

/-- The loop ends. -/
theorem exists_adjustInvalidClaims (hp : p.InRange)
    (hsound : f.CacheSound K p.l1InfoTreeRootFromWhichToProve cache)
    (hcached : Cached cache p.claims) (hfuel : p.toBlock < fuel) :
    ∃ r, f.adjustInvalidClaimsAreNotUnclaimed fuel p cache = some r :=
  Loop.exists_run (f.AtPart K (fun _ => False) p) (fun s => s.1.toBlock)
    (fun hs hstep => hs.again (fun _ _ _ _ _ _ => not_false) hstep)
    ⟨isAbove_self hp, hsound, hcached⟩ hfuel

/-- The loop returns a part of the range in which every missing claim is unclaimed, and fails only
when the first block is excluded. -/
theorem adjustInvalidClaims_spec (hexcl : f.Excludes K A p) (hp : p.InRange)
    (hsound : f.CacheSound K p.l1InfoTreeRootFromWhichToProve cache)
    (hcached : Cached cache p.claims) {r : Except AdjustError (CertificateBuildParams H)}
    (h : f.adjustInvalidClaimsAreNotUnclaimed fuel p cache = some r) :
    (∀ q, r = .ok q → IsAbove A p q ∧ f.Unclaimed K q) ∧
      ∀ err, r = .error err → ∀ t, p.fromBlock ≤ t → t ≤ p.toBlock → ¬A (p.upTo t) := by
  refine Loop.run_spec (f.AtPart K A p) (fun hs hstep => (hs.again hexcl hstep).1) ?_ ?_
    ⟨isAbove_self hp, hsound, hcached⟩ h
  · intro s q hs hstep
    rw [hs.step_eq] at hstep
    split at hstep
    · rename_i hnone
      obtain rfl := Loop.Next.done.inj (Except.ok.inj hstep)
      exact ⟨hs.isAbove, paired_of_unpaired hnone⟩
    · split_ifs at hstep
      cases Except.ok.inj hstep
  · intro s err hs hstep t hfrom hto
    rw [hs.step_eq] at hstep
    split at hstep
    · cases hstep
    rename_i c hfind
    split_ifs at hstep with hstart
    by_cases hts : t ≤ s.1.toBlock
    · rw [← hs.isAbove.upTo_eq hts]
      exact hexcl s.1 hs.isAbove c hfind t ((hs.isAbove.fromBlock ▸ hstart).trans hfrom)
    · exact hs.isAbove.excluded t (Nat.not_le.mp hts) hto

/-- Where the events stand in order, it cuts at the highest block that is left. -/
theorem excludes_unclaimed (hc : p.Chronological) : f.Excludes K (f.Unclaimed K) p := by
  intro q habove c hfind t ht
  have hchron : q.Chronological := habove.eq_upTo ▸ hc.upTo
  exact not_unclaimed_upTo habove.inRange hchron hfind ht

end BaseFlow

end loop

/-! ## `AdjustBlockRange` as a whole -/

section whole

variable {K} {f : BaseFlow H} {p q : CertificateBuildParams H} {options : BlockRangeAdjustmentOptions}
  {cache : GERValidationCache H}

namespace BaseFlow

/-- The size limit, unless it is disabled. -/
def Fits (f : BaseFlow H) (options : BlockRangeAdjustmentOptions)
    (p : CertificateBuildParams H) : Prop :=
  options.disableSizeLimit = true ∨ f.FitsSize p

omit [DecidableEq H] in
/-- The two limits are one cut. -/
theorem isCut_allows {p1 : CertificateBuildParams H} (hp : p.InRange)
    (hnumber : adjustMaxL2BlockNumber p options = .ok p1)
    (hrange : adjustMaxL2BlockRange p1 options = .ok q) : IsCut options.Allows p q := by
  have hcut1 := (adjustMaxL2BlockNumber_spec hp hnumber).1
  have hcut2 := (adjustMaxL2BlockRange_spec hcut1.inRange hrange).1
  exact hcut1.trans hcut2 fun _ hle hnumber hset => hle.trans (hnumber hset)

/-- The stages before the last: a cut to the limits and to the claims under the root, then one to
the size. -/
theorem adjustToLimits_spec (hp : p.InRange)
    (h : f.adjustToLimits K p options = .ok (q, cache)) :
    ∃ q0, IsCut (fun r => options.Allows r ∧ f.UnderRoot K r) p q0 ∧ IsCut (f.Fits options) q0 q ∧
      f.CacheSound K q.l1InfoTreeRootFromWhichToProve cache ∧ Cached cache q.claims := by
  obtain ⟨p1, hnumber, h⟩ := except_bind_ok.mp h
  obtain ⟨p2, hrange, h⟩ := except_bind_ok.mp h
  have hlimits : IsCut options.Allows p p2 := isCut_allows hp hnumber hrange
  obtain ⟨⟨⟩, -, h⟩ := except_bind_ok.mp h
  obtain ⟨⟨q0, cache'⟩, hunder, h⟩ := except_bind_ok.mp h
  obtain ⟨sized, hsize, hpair⟩ := except_bind_ok.mp h
  obtain ⟨rfl, rfl⟩ := Prod.mk.inj (Except.ok.inj hpair)
  obtain ⟨hcut3, hsound, hcached⟩ :=
    adjustClaimsNotProvableAgainstRoot_spec hlimits.inRange hunder
  have hcut : IsCut (fun r => options.Allows r ∧ f.UnderRoot K r) p q0 := by
    refine hlimits.trans hcut3 fun {t t'} _ hle hallows => ⟨fun hset => ?_, fun hset => ?_⟩
    · exact hle.trans (hallows.1 hset)
    · exact (Nat.sub_le_sub_right hle _).trans (hallows.2 hset)
  have hsound0 : f.CacheSound K q0.l1InfoTreeRootFromWhichToProve cache' := by
    rw [hcut3.eq_upTo]
    exact hsound
  have hcached0 : Cached cache' q0.claims := by
    rw [hcut3.eq_upTo]
    exact hcached.upTo
  have hfits : IsCut (f.Fits options) q0 sized := by
    split_ifs at hsize with hdisable
    · cases hsize
      exact isCut_self hcut.inRange (Or.inl hdisable)
    · obtain ⟨q', hq', hcutsize⟩ := limitCertSize_spec (f := f) hcut.inRange
      obtain rfl : q' = sized := Except.ok.inj (hq'.symm.trans hsize)
      refine ⟨hcutsize.eq_upTo, ⟨hcutsize.fromBlock_le, hcutsize.le_toBlock, ?_⟩, fun t ht => ?_⟩
      · exact Or.inr hcutsize.isGreatest.1.2.2
      · exact hcutsize.isGreatest.2 ⟨ht.1, ht.2.1, ht.2.2.resolve_left hdisable⟩
  refine ⟨q0, hcut, hfits, ?_, ?_⟩
  · rw [hfits.eq_upTo]
    exact hsound0
  · rw [hfits.eq_upTo]
    exact hcached0.upTo

theorem validateRootToProveIsFinalized_error {err : AdjustError}
    (h : f.validateRootToProveIsFinalized K p = .error err) : err.isInvalidClaims = false := by
  unfold validateRootToProveIsFinalized at h
  repeat' split at h
  all_goals cases h <;> rfl

/-- Where these stages fail because of invalid claims, no part of the range within the limits has
all its claims under the root. -/
theorem adjustToLimits_error {err : AdjustError} (hp : p.InRange)
    (h : f.adjustToLimits K p options = .error err) (herr : err.isInvalidClaims = true) {t : ℕ}
    (hfrom : p.fromBlock ≤ t) (hto : t ≤ p.toBlock) (hallows : options.Allows (p.upTo t)) :
    ¬f.UnderRoot K (p.upTo t) := by
  -- An error that is not about the claims ends the argument.
  have hother : ∀ {err' : AdjustError}, err'.isInvalidClaims = false → err' = err → False :=
    fun hfalse heq => Bool.false_ne_true (hfalse.symm.trans (heq ▸ herr))
  rcases except_bind_eq_error_iff.mp h with hnumber | ⟨p1, hnumber, h⟩
  · exact (hother (adjustMaxL2BlockNumber_error hnumber) rfl).elim
  rcases except_bind_eq_error_iff.mp h with hrange | ⟨p2, hrange, h⟩
  · exact (hother (adjustMaxL2BlockRange_error hrange) rfl).elim
  have hlimits : IsCut options.Allows p p2 := isCut_allows hp hnumber hrange
  have ht : t ≤ p2.toBlock := hlimits.isGreatest.2 ⟨hfrom, hto, hallows⟩
  rcases except_bind_eq_error_iff.mp h with hroot | ⟨_, -, h⟩
  · split at hroot
    · exact (hother (validateRootToProveIsFinalized_error hroot) rfl).elim
    · cases hroot
  rcases except_bind_eq_error_iff.mp h with hunder | ⟨⟨q0, cache'⟩, hunder, h⟩
  · rw [← hlimits.upTo_eq ht]
    exact adjustClaimsNotProvableAgainstRoot_error hlimits.inRange hunder herr
      (hlimits.fromBlock ▸ hfrom)
  have hinRange := (adjustClaimsNotProvableAgainstRoot_spec hlimits.inRange hunder).1.inRange
  rcases except_bind_eq_error_iff.mp h with hsize | ⟨_, -, h⟩
  · split at hsize
    · cases hsize
    · obtain ⟨q', hq', -⟩ := limitCertSize_spec (f := f) hinRange
      cases hq'.symm.trans hsize
  · cases h

/-- What holds of the build parameters that `AdjustBlockRange` returns: they are the part of the
given ones up to a block within the limits, a claim whose GER is on L1 can be proved against the
selected root, and each claim whose GER is not has an unclaim of its own that takes it back. -/
structure Adjusted (f : BaseFlow H) (K : Keccak H) (options : BlockRangeAdjustmentOptions)
    (p q : CertificateBuildParams H) : Prop where
  fromBlock : q.fromBlock = p.fromBlock
  fromBlock_le : p.fromBlock ≤ q.toBlock
  le_toBlock : q.toBlock ≤ p.toBlock
  bridges : q.bridges =
    p.bridges.filter fun b => p.fromBlock ≤ b.blockNum ∧ b.blockNum ≤ q.toBlock
  claims : q.claims = p.claims.filter fun c => p.fromBlock ≤ c.blockNum ∧ c.blockNum ≤ q.toBlock
  unclaims : q.unclaims =
    p.unclaims.filter fun u => p.fromBlock ≤ u.blockNumber ∧ u.blockNumber ≤ q.toBlock
  root : q.l1InfoTreeRootFromWhichToProve = p.l1InfoTreeRootFromWhichToProve
  maxL2BlockNumber : options.maxL2BlockNumber ≠ 0 → q.toBlock ≤ options.maxL2BlockNumber
  maxL2BlockRange : options.maxL2BlockRange ≠ 0 → q.toBlock - q.fromBlock ≤ options.maxL2BlockRange
  provable : ∀ c ∈ q.claims, f.l1InfoTreeDataQuerier.doesGERExistsOnL1 c.globalExitRoot = true →
    f.l1InfoTreeDataQuerier.provable K p.l1InfoTreeRootFromWhichToProve c.globalExitRoot = true
  unclaimed : Paired TakenBackBy (f.missingClaims K q) q.unclaims

variable {fuel : ℕ}

theorem adjustBlockRange_eq_some {r : Except AdjustError (CertificateBuildParams H)}
    (h : f.adjustBlockRange K fuel p options = some r) :
    (∃ err, f.adjustToLimits K p options = .error err ∧ r = .error err) ∨
      ∃ q cache, f.adjustToLimits K p options = .ok (q, cache) ∧
        f.adjustInvalidClaimsAreNotUnclaimed fuel q cache = some r := by
  unfold adjustBlockRange at h
  split at h
  · rename_i err hlimits
    exact Or.inl ⟨err, hlimits, (Option.some.inj h).symm⟩
  · rename_i q cache hlimits
    exact Or.inr ⟨q, cache, hlimits, h⟩

/-- The cuts that lead to the build parameters that are returned. -/
theorem adjustBlockRange_cuts (hp : p.InRange)
    (h : f.adjustBlockRange K fuel p options = some (.ok q)) :
    ∃ q0 q1, IsCut (fun r => options.Allows r ∧ f.UnderRoot K r) p q0 ∧
      IsCut (f.Fits options) q0 q1 ∧ IsAbove (fun _ => False) q1 q ∧ f.Unclaimed K q ∧
      (p.Chronological → IsCut (f.Unclaimed K) q1 q) := by
  rcases adjustBlockRange_eq_some h with ⟨_, -, herr⟩ | ⟨q1, cache, hlimits, hloop⟩
  · cases herr
  obtain ⟨q0, hcut0, hcut1, hsound, hcached⟩ := adjustToLimits_spec hp hlimits
  obtain ⟨habove, hunclaimed⟩ := (adjustInvalidClaims_spec (A := fun _ => False)
    (fun _ _ _ _ _ _ => not_false) hcut1.inRange hsound hcached hloop).1 q rfl
  refine ⟨q0, q1, hcut0, hcut1, habove, hunclaimed, fun hchron => ?_⟩
  have hchron0 : q0.Chronological := hcut0.eq_upTo ▸ hchron.upTo
  have hchron1 : q1.Chronological := hcut1.eq_upTo ▸ hchron0.upTo
  obtain ⟨hlast, -⟩ := (adjustInvalidClaims_spec (excludes_unclaimed hchron1) hcut1.inRange hsound
    hcached hloop).1 q rfl
  exact hlast.isCut hunclaimed

theorem exists_adjustBlockRange (hp : p.InRange) (hfuel : p.toBlock < fuel) :
    ∃ r, f.adjustBlockRange K fuel p options = some r := by
  unfold adjustBlockRange
  split
  · exact ⟨_, rfl⟩
  · rename_i q cache hlimits
    obtain ⟨q0, hcut0, hcut1, hsound, hcached⟩ := adjustToLimits_spec hp hlimits
    have hle : q.toBlock ≤ p.toBlock := hcut1.le_toBlock.trans hcut0.le_toBlock
    exact exists_adjustInvalidClaims hcut1.inRange hsound hcached (hle.trans_lt hfuel)

theorem adjustBlockRange_mono {m n : ℕ} (hmn : m ≤ n)
    {r : Except AdjustError (CertificateBuildParams H)}
    (h : f.adjustBlockRange K m p options = some r) : f.adjustBlockRange K n p options = some r := by
  unfold adjustBlockRange at h ⊢
  split at h
  · exact h
  · exact Loop.run_mono hmn h

theorem adjusted_of_adjustBlockRange (hp : p.InRange)
    (h : f.adjustBlockRange K fuel p options = some (.ok q)) : f.Adjusted K options p q := by
  obtain ⟨q0, q1, hcut0, hcut1, habove, hunclaimed, -⟩ := adjustBlockRange_cuts hp h
  have hle1 : q.toBlock ≤ q0.toBlock := habove.le_toBlock.trans hcut1.le_toBlock
  have hfrom : q1.fromBlock = p.fromBlock := hcut1.fromBlock.trans hcut0.fromBlock
  have heq : q = p.upTo q.toBlock := by
    calc q = q1.upTo q.toBlock := habove.eq_upTo
      _ = q0.upTo q.toBlock := hcut1.upTo_eq habove.le_toBlock
      _ = p.upTo q.toBlock := hcut0.upTo_eq hle1
  have hqfrom : q.fromBlock = p.fromBlock := habove.fromBlock.trans hfrom
  obtain ⟨hallows, hunder⟩ := hcut0.holds
  refine
    { fromBlock := hqfrom
      fromBlock_le := hfrom ▸ habove.fromBlock_le
      le_toBlock := hle1.trans hcut0.le_toBlock
      bridges := congrArg CertificateBuildParams.bridges heq
      claims := congrArg CertificateBuildParams.claims heq
      unclaims := congrArg CertificateBuildParams.unclaims heq
      root := by rw [heq]; rfl
      maxL2BlockNumber := fun hset => hle1.trans (hallows.1 hset)
      maxL2BlockRange := fun hset => ?_
      provable := fun c hc hexists => ?_
      unclaimed := hunclaimed }
  · have hrange := hallows.2 hset
    rw [hcut0.fromBlock] at hrange
    rw [hqfrom]
    exact (Nat.sub_le_sub_right hle1 _).trans hrange
  · have hroot0 : q0.l1InfoTreeRootFromWhichToProve = p.l1InfoTreeRootFromWhichToProve := by
      rw [hcut0.eq_upTo]
      rfl
    have hmem : c ∈ q0.claims := by
      have heq0 : q = q0.upTo q.toBlock := habove.eq_upTo.trans (hcut1.upTo_eq habove.le_toBlock)
      rw [heq0] at hc
      exact (mem_inBlocks.mp hc).1
    rw [← hroot0]
    refine hunder c hmem ?_
    unfold L1InfoTreeDataQuerier.onL1
    rw [hexists, Bool.or_true]

/-- `AdjustBlockRange` returns for every range whose events lie in it, after at most as many
iterations as its last block says, and what it returns is adjusted. -/
theorem adjustBlockRange_adjusted (f : BaseFlow H) (K : Keccak H)
    (options : BlockRangeAdjustmentOptions) (p : CertificateBuildParams H) (hp : p.InRange) :
    ∃ r, (∀ fuel, p.toBlock < fuel → f.adjustBlockRange K fuel p options = some r) ∧
      ∀ q, r = .ok q → f.Adjusted K options p q := by
  obtain ⟨r, hr⟩ : ∃ r, f.adjustBlockRange K (p.toBlock + 1) p options = some r :=
    exists_adjustBlockRange hp (Nat.lt_succ_self p.toBlock)
  refine ⟨r, fun fuel hfuel => adjustBlockRange_mono hfuel hr, ?_⟩
  rintro q rfl
  exact adjusted_of_adjustBlockRange hp hr

end BaseFlow

/-- A hash to compute with: the sum of the bytes. -/
def sumKeccak : Keccak ℕ where
  sum l := (l.map UInt8.toNat).sum
  bytes n := [UInt8.ofNat n]
  zero := 0

/-- A claim at a position, with its GER as the mainnet exit root beside an empty one. -/
def claimAt (blockNum blockPos globalIndex globalExitRoot : ℕ) : Claim ℕ where
  blockNum := blockNum
  blockPos := blockPos
  txHash := 0
  globalIndex := globalIndex
  originNetwork := 0
  originAddress := ZeroAddress
  destinationAddress := ZeroAddress
  amount := 0
  proofLocalExitRoot := Vector.replicate 32 0
  proofRollupExitRoot := Vector.replicate 32 0
  mainnetExitRoot := globalExitRoot
  rollupExitRoot := 0
  globalExitRoot := globalExitRoot
  destinationNetwork := 0
  metadata := []
  isMessage := false
  blockTimestamp := 0
  type := .claimEvent

/-- An L1 info tree whose only leaf has the GER 1 and the root 7. -/
def oneLeafTree : L1InfoTreeDataQuerier ℕ where
  getInfoByGlobalExitRoot ger := if ger = 1 then some ⟨1, 0, 0, 0, 0, 1, 0, 1, 7⟩ else none
  getL1InfoTreeMerkleProofFromIndexToRoot _ _ := some (Vector.replicate 32 0)
  getL1InfoTreeRootByIndex _ := some ⟨7, 0, 1, 0⟩
  latestL1InfoLeafIndex := some 0
  doesGERExistsOnL1 ger := ger = 1

/-- A flow over that tree and the given events. -/
def flowOver (bridges : List (BridgeSync.Bridge ℕ)) (claims : List (Claim ℕ))
    (unclaims : List Unclaim) : BaseFlow ℕ where
  l2BridgeQuerier :=
    { originNetwork := 1
      getLastProcessedBlock := some 5
      getBridges := fun fromBlock toBlock =>
        inBlocks BridgeSync.Bridge.blockNum fromBlock toBlock bridges
      getClaims := fun fromBlock toBlock => inBlocks Claim.blockNum fromBlock toBlock claims
      getUnsetClaimsForBlockRange := fun fromBlock toBlock =>
        inBlocks Unclaim.blockNumber fromBlock toBlock unclaims
      getExitRootByIndex := fun _ => some 9 }
  getCertificateHeaderByHeight _ := none
  l1InfoTreeDataQuerier := oneLeafTree
  initialLER := 8
  cfg := { maxCertSize := 0, startL2Block := 0, fullClaimsNeeded := true, estimatedSize := fun _ _ => 0 }

/-- The events of the blocks 1 to 5, to be proved against the root of that tree. -/
def paramsOver (bridges : List (BridgeSync.Bridge ℕ)) (claims : List (Claim ℕ))
    (unclaims : List Unclaim) : CertificateBuildParams ℕ where
  fromBlock := 1
  toBlock := 5
  bridges := bridges
  claims := claims
  unclaims := unclaims
  retryCount := 0
  lastSentCertificate := none
  l1InfoTreeRootFromWhichToProve := 7
  l1InfoTreeLeafCount := 1
  certificateType := .pp

/-- Two claims without a GER on L1 between two that have one; only the first is taken back. -/
def oneTakenBack : CertificateBuildParams ℕ :=
  paramsOver [] [claimAt 1 0 10 1, claimAt 2 0 11 2, claimAt 4 0 12 2, claimAt 5 0 13 1] [⟨11, 3, 0⟩]

/-- No limit, no requirement. -/
def noLimits : BlockRangeAdjustmentOptions where
  maxL2BlockNumber := 0
  maxL2BlockRange := 0
  allowResizeRetryCert := true
  requireOneBridgeInCertificate := false
  validateRootToProve := false
  disableSizeLimit := false

theorem oneTakenBack_inRange : oneTakenBack.InRange where
  le := by decide
  bridges := by decide
  claims := by decide
  unclaims := by decide

theorem adjustBlockRange_oneTakenBack :
    (flowOver [] [] []).adjustBlockRange sumKeccak 6 oneTakenBack noLimits =
      some (.ok (oneTakenBack.upTo 3)) := by
  decide +kernel

/-- The range is cut before the claim that nothing takes back. -/
theorem BaseFlow.adjustBlockRange_adjusted_oneTakenBack :
    oneTakenBack.InRange ∧ ∃ q,
      (flowOver [] [] []).adjustBlockRange sumKeccak 6 oneTakenBack noLimits = some (.ok q) ∧
      q.toBlock = 3 ∧ (flowOver [] [] []).Adjusted sumKeccak noLimits oneTakenBack q := by
  refine ⟨oneTakenBack_inRange, oneTakenBack.upTo 3, adjustBlockRange_oneTakenBack, rfl, ?_⟩
  obtain ⟨r, hr, hadjusted⟩ := BaseFlow.adjustBlockRange_adjusted (flowOver [] [] []) sumKeccak
    noLimits oneTakenBack oneTakenBack_inRange
  have hrun := (hr 6 (by decide)).symm.trans adjustBlockRange_oneTakenBack
  exact hadjusted _ (Option.some.inj hrun)

/-! ## No block is given up that could have stayed -/

/-- Every claim can be proved against the selected root, or its GER is not on L1 and an unclaim of
its own takes it back. -/
structure BaseFlow.Feasible (f : BaseFlow H) (K : Keccak H) (p : CertificateBuildParams H) :
    Prop where
  provable_or_missing : ∀ c ∈ p.claims,
    f.l1InfoTreeDataQuerier.provable K p.l1InfoTreeRootFromWhichToProve c.globalExitRoot = true ∨
      c ∈ f.missingClaims K p
  unclaimed : Paired TakenBackBy (f.missingClaims K p) p.unclaims

theorem BaseFlow.feasible_iff : f.Feasible K p ↔ f.UnderRoot K p ∧ f.Unclaimed K p := by
  constructor
  · rintro ⟨hclaims, hunclaimed⟩
    refine ⟨fun c hc hon => (hclaims c hc).resolve_right fun hmissing => ?_, hunclaimed⟩
    have hnot := (List.mem_filter.mp hmissing).2
    rw [hon] at hnot
    cases hnot
  · rintro ⟨hunder, hunclaimed⟩
    refine ⟨fun c hc => ?_, hunclaimed⟩
    by_cases hon : f.l1InfoTreeDataQuerier.onL1 K p.l1InfoTreeRootFromWhichToProve
        c.globalExitRoot = true
    · exact Or.inl (hunder c hc hon)
    · refine Or.inr (List.mem_filter.mpr ⟨hc, ?_⟩)
      rw [Bool.eq_false_of_not_eq_true hon]
      rfl

theorem BaseFlow.underRoot_upTo_of_le {t t' : ℕ} (hle : t' ≤ t) (h : f.UnderRoot K (p.upTo t)) :
    f.UnderRoot K (p.upTo t') := by
  intro c hc
  exact h c ((inBlocks_sublist_inBlocks hle).subset hc)

omit [DecidableEq H] in
theorem BlockRangeAdjustmentOptions.allows_upTo_of_le {t t' : ℕ} (hle : t' ≤ t)
    (h : options.Allows (p.upTo t)) : options.Allows (p.upTo t') :=
  ⟨fun hset => hle.trans (h.1 hset), fun hset => (Nat.sub_le_sub_right hle _).trans (h.2 hset)⟩

omit [DecidableEq H] in
/-- Without a size limit the stage for the size cuts nothing off. -/
theorem IsCut.eq_of_noSizeLimit
    (hsize : f.cfg.maxCertSize = 0 ∨ options.disableSizeLimit = true)
    (hp : p.InRange) (h : IsCut (f.Fits options) p q) : q = p := by
  have hfits : f.Fits options (p.upTo p.toBlock) := by
    rcases hsize with hzero | hdisable
    · exact Or.inr (Or.inl hzero)
    · exact Or.inl hdisable
  have hle : p.toBlock ≤ q.toBlock := h.isGreatest.2 ⟨hp.le, le_rfl, hfits⟩
  have hto : q.toBlock = p.toBlock := h.le_toBlock.antisymm hle
  calc q = p.upTo q.toBlock := h.eq_upTo
    _ = p.upTo p.toBlock := by rw [hto]
    _ = p := hp.upTo_toBlock

namespace BaseFlow

/-- For events in the order of the chain and without a size limit, `AdjustBlockRange` returns the
highest last block within the limits that leaves a feasible range, and fails because of invalid
claims only when there is none. -/
theorem adjustBlockRange_isGreatest (f : BaseFlow H) (K : Keccak H)
    (options : BlockRangeAdjustmentOptions) (p : CertificateBuildParams H) (hp : p.InRange)
    (hc : p.Chronological) (hsize : f.cfg.maxCertSize = 0 ∨ options.disableSizeLimit = true) :
    ∃ r, (∀ fuel, p.toBlock < fuel → f.adjustBlockRange K fuel p options = some r) ∧
      (∀ q, r = .ok q →
        IsGreatest {t | p.fromBlock ≤ t ∧ t ≤ p.toBlock ∧ options.Allows (p.upTo t) ∧
          f.Feasible K (p.upTo t)} q.toBlock) ∧
      ∀ err, r = .error err → err.isInvalidClaims = true →
        ∀ t, p.fromBlock ≤ t → t ≤ p.toBlock → options.Allows (p.upTo t) →
          ¬f.Feasible K (p.upTo t) := by
  obtain ⟨r, h⟩ : ∃ r, f.adjustBlockRange K (p.toBlock + 1) p options = some r :=
    exists_adjustBlockRange hp (Nat.lt_succ_self p.toBlock)
  refine ⟨r, fun fuel hfuel => adjustBlockRange_mono hfuel h, ?_, ?_⟩
  · rintro q rfl
    obtain ⟨q0, q1, hcut0, hcut1, -, -, hlast⟩ := adjustBlockRange_cuts hp h
    obtain rfl : q1 = q0 := hcut1.eq_of_noSizeLimit hsize hcut0.inRange
    have hcut := hcut0.trans (hlast hc) fun _ hle hA =>
      ⟨BlockRangeAdjustmentOptions.allows_upTo_of_le hle hA.1,
        underRoot_upTo_of_le hle hA.2⟩
    have hsets : {t | p.fromBlock ≤ t ∧ t ≤ p.toBlock ∧ options.Allows (p.upTo t) ∧
          f.Feasible K (p.upTo t)} =
        {t | p.fromBlock ≤ t ∧ t ≤ p.toBlock ∧
          (options.Allows (p.upTo t) ∧ f.UnderRoot K (p.upTo t)) ∧ f.Unclaimed K (p.upTo t)} := by
      ext t
      simp only [Set.mem_ofPred_eq, feasible_iff, and_assoc]
    rw [hsets]
    exact hcut.isGreatest
  · rintro err rfl herr t hfrom hto hallows hfeasible
    obtain ⟨hunder, hunclaimed⟩ := feasible_iff.mp hfeasible
    rcases adjustBlockRange_eq_some h with ⟨err', hlimits, heq⟩ | ⟨q1, cache, hlimits, hloop⟩
    · cases heq
      exact adjustToLimits_error hp hlimits herr hfrom hto hallows hunder
    · -- The loop has failed on a range that still has the block `t`.
      obtain ⟨q0, hcut0, hcut1, hsound, hcached⟩ := adjustToLimits_spec hp hlimits
      obtain rfl : q1 = q0 := hcut1.eq_of_noSizeLimit hsize hcut0.inRange
      have hchron : q1.Chronological := hcut0.eq_upTo ▸ hc.upTo
      have ht : t ≤ q1.toBlock := hcut0.isGreatest.2 ⟨hfrom, hto, hallows, hunder⟩
      have hnone := (adjustInvalidClaims_spec (excludes_unclaimed hchron) hcut1.inRange hsound
        hcached hloop).2 err rfl t (hcut0.fromBlock ▸ hfrom) ht
      rw [hcut0.upTo_eq ht] at hnone
      exact hnone hunclaimed

theorem adjustBlockRange_isGreatest_oneTakenBack :
    oneTakenBack.InRange ∧ oneTakenBack.Chronological ∧
      IsGreatest {t | 1 ≤ t ∧ t ≤ 5 ∧ noLimits.Allows (oneTakenBack.upTo t) ∧
        (flowOver [] [] []).Feasible sumKeccak (oneTakenBack.upTo t)} 3 := by
  have hchron : oneTakenBack.Chronological := ⟨by decide, by decide⟩
  refine ⟨oneTakenBack_inRange, hchron, ?_⟩
  obtain ⟨r, hr, hgreatest, -⟩ := adjustBlockRange_isGreatest (flowOver [] [] []) sumKeccak
    noLimits oneTakenBack oneTakenBack_inRange hchron (Or.inl rfl)
  have hrun := (hr 6 (by decide)).symm.trans adjustBlockRange_oneTakenBack
  exact hgreatest _ (Option.some.inj hrun)

end BaseFlow

end whole

end AggKit.AggSender
