import AggKit.AggSender.AdjustBlockRange

/-!
# What `AdjustBlockRange` leaves of a block range

Every stage returns the build parameters up to some block, `params.upTo toBlock`, so a stage is
described by the block it cuts at. The limits give the highest block they allow
(`adjustMaxL2BlockRange_spec`), the search for claims that are not under the selected root the block
before the lowest of them (`adjustClaimsNotProvableAgainstRoot_spec`), the size limit some block
(`limitCertSize_spec`).

The last stage looks for a claim that no unclaim takes back. With the cache that the search has
filled it is the greedy pairing of `AggKit.Lib.Pairing` between the claims without a GER and the
unclaims (`findFirstMissingGERClaimWithoutFinalUnclaim_eq`). It ends with a range in which all of
them are paired, and every iteration cuts the range, so it ends. When claims and unclaims stand in
chronological order the pairing is exchangeable, hence the first claim that finds no unclaim makes
every range with its block infeasible, and no feasible block is skipped.
-/

namespace AggKit.AggSender

open List CertificateBuildParams Function L1InfoTreeDataQuerier

open ClaimSync (Claim)

variable {H : Type}

/-! ## A range and its parts -/

/-- The range is one, and every event lies in it. -/
structure CertificateBuildParams.InRange (p : CertificateBuildParams H) : Prop where
  le : p.fromBlock ≤ p.toBlock
  bridges : ∀ b ∈ p.bridges, p.fromBlock ≤ b.blockNum ∧ b.blockNum ≤ p.toBlock
  claims : ∀ c ∈ p.claims, p.fromBlock ≤ c.blockNum ∧ c.blockNum ≤ p.toBlock
  unclaims : ∀ u ∈ p.unclaims, p.fromBlock ≤ u.blockNumber ∧ u.blockNumber ≤ p.toBlock

/-- The build parameters up to a block. -/
def CertificateBuildParams.upTo (p : CertificateBuildParams H) (toBlock : ℕ) :
    CertificateBuildParams H :=
  p.withRange p.fromBlock toBlock

section parts

variable {α : Type} {block : α → ℕ} {fromBlock toBlock toBlock' : ℕ} {events : List α} {e : α}

theorem mem_inBlocks :
    e ∈ inBlocks block fromBlock toBlock events ↔
      e ∈ events ∧ fromBlock ≤ block e ∧ block e ≤ toBlock := by
  unfold inBlocks
  rw [mem_filter, decide_eq_true_iff]

theorem inBlocks_eq_self (h : ∀ e ∈ events, fromBlock ≤ block e ∧ block e ≤ toBlock) :
    inBlocks block fromBlock toBlock events = events :=
  filter_eq_self.mpr fun e he => decide_eq_true (h e he)

theorem inBlocks_inBlocks (h : toBlock' ≤ toBlock) :
    inBlocks block fromBlock toBlock' (inBlocks block fromBlock toBlock events) =
      inBlocks block fromBlock toBlock' events := by
  unfold inBlocks
  rw [filter_filter]
  refine filter_congr fun e _ => ?_
  rw [← Bool.decide_and]
  refine decide_eq_decide.mpr ?_
  omega

theorem inBlocks_sublist_inBlocks (h : toBlock' ≤ toBlock) :
    (inBlocks block fromBlock toBlock' events).Sublist
      (inBlocks block fromBlock toBlock events) := by
  rw [← inBlocks_inBlocks h]
  exact filter_sublist

end parts

section range

variable {p q : CertificateBuildParams H} {toBlock toBlock' : ℕ}

namespace CertificateBuildParams

theorem InRange.upTo_toBlock (hp : p.InRange) : p.upTo p.toBlock = p := by
  unfold upTo withRange
  rw [inBlocks_eq_self hp.bridges, inBlocks_eq_self hp.claims, inBlocks_eq_self hp.unclaims]

theorem upTo_upTo (h : toBlock' ≤ toBlock) :
    (p.upTo toBlock).upTo toBlock' = p.upTo toBlock' := by
  simp only [upTo, withRange, inBlocks_inBlocks h]

theorem inRange_upTo (h : p.fromBlock ≤ toBlock) :
    (p.upTo toBlock).InRange where
  le := h
  bridges _ hb := (mem_inBlocks.mp hb).2
  claims _ hc := (mem_inBlocks.mp hc).2
  unclaims _ hu := (mem_inBlocks.mp hu).2

end CertificateBuildParams

/-- Copying a part of a range gives the part, and fails only for a part that is none. -/
theorem clone_eq_ok_iff (hp : p.InRange) :
    cloneCertificateBuildParamsWithRange p p.fromBlock toBlock = .ok q ↔
      p.fromBlock ≤ toBlock ∧ toBlock ≤ p.toBlock ∧ q = p.upTo toBlock := by
  unfold cloneCertificateBuildParamsWithRange
  split
  · exact ⟨nofun, fun ⟨_, hle, _⟩ => by omega⟩
  split
  · exact ⟨nofun, fun ⟨hle, _⟩ => by omega⟩
  have hin : p.fromBlock ≤ toBlock ∧ toBlock ≤ p.toBlock := by omega
  split
  · rename_i hsame
    have hself : p.upTo toBlock = p := hsame.2 ▸ hp.upTo_toBlock
    rw [hself]
    exact ⟨fun h => ⟨hin.1, hin.2, (Except.ok.inj h).symm⟩, fun h => h.2.2 ▸ rfl⟩
  · exact ⟨fun h => ⟨hin.1, hin.2, (Except.ok.inj h).symm⟩, fun h => h.2.2 ▸ rfl⟩

/-- So does trimming. -/
theorem trimCertificateToBlock_eq_ok_iff (hp : p.InRange) :
    trimCertificateToBlock p toBlock = .ok q ↔
      p.fromBlock ≤ toBlock ∧ toBlock ≤ p.toBlock ∧ q = p.upTo toBlock := by
  unfold trimCertificateToBlock
  split
  · exact ⟨nofun, fun ⟨_, hle, _⟩ => by omega⟩
  split
  · rename_i hsame
    have hself : p.upTo toBlock = p := hsame ▸ hp.upTo_toBlock
    have hle := hp.le
    rw [hself]
    exact ⟨fun h => ⟨by omega, by omega, (Except.ok.inj h).symm⟩, fun h => h.2.2 ▸ rfl⟩
  split
  · exact ⟨nofun, fun ⟨hle, _⟩ => by omega⟩
  · exact clone_eq_ok_iff hp

/-- A trim to a block of the range succeeds. -/
theorem trimCertificateToBlock_eq_ok (hp : p.InRange) (hfrom : p.fromBlock ≤ toBlock)
    (hto : toBlock ≤ p.toBlock) : trimCertificateToBlock p toBlock = .ok (p.upTo toBlock) :=
  (trimCertificateToBlock_eq_ok_iff hp).mpr ⟨hfrom, hto, rfl⟩

end range

/-! ## Cutting at the highest block that is left -/

/-- `q` is what is left of `p` up to the highest block at which `A` holds. -/
structure IsCut (A : CertificateBuildParams H → Prop) (p q : CertificateBuildParams H) : Prop where
  eq_upTo : q = p.upTo q.toBlock
  isGreatest : IsGreatest {t | p.fromBlock ≤ t ∧ t ≤ p.toBlock ∧ A (p.upTo t)} q.toBlock

section cut

variable {A B : CertificateBuildParams H → Prop} {p q r : CertificateBuildParams H} {toBlock : ℕ}

theorem isCut_upTo (hfrom : p.fromBlock ≤ toBlock) (hto : toBlock ≤ p.toBlock)
    (hA : A (p.upTo toBlock))
    (hmax : ∀ t, p.fromBlock ≤ t → t ≤ p.toBlock → A (p.upTo t) → t ≤ toBlock) :
    IsCut A p (p.upTo toBlock) :=
  ⟨rfl, ⟨hfrom, hto, hA⟩, fun t ht => hmax t ht.1 ht.2.1 ht.2.2⟩

/-- Nothing is cut off where the whole range will do. -/
theorem isCut_self (hp : p.InRange) (hA : A p) : IsCut A p p := by
  have hself := hp.upTo_toBlock
  exact ⟨hself.symm, ⟨hp.le, le_rfl, hself.symm ▸ hA⟩, fun t ht => ht.2.1⟩

theorem IsCut.fromBlock (h : IsCut A p q) : q.fromBlock = p.fromBlock := by
  rw [h.eq_upTo]
  rfl

theorem IsCut.fromBlock_le (h : IsCut A p q) : p.fromBlock ≤ q.toBlock := h.isGreatest.1.1

theorem IsCut.le_toBlock (h : IsCut A p q) : q.toBlock ≤ p.toBlock := h.isGreatest.1.2.1

theorem IsCut.holds (h : IsCut A p q) : A q := by
  rw [h.eq_upTo]
  exact h.isGreatest.1.2.2

theorem IsCut.inRange (h : IsCut A p q) : q.InRange := by
  rw [h.eq_upTo]
  exact inRange_upTo h.fromBlock_le

theorem IsCut.upTo_eq (h : IsCut A p q) (ht : toBlock ≤ q.toBlock) :
    q.upTo toBlock = p.upTo toBlock := by
  rw [h.eq_upTo]
  exact upTo_upTo ht

/-- Two cuts are one where a range that passes the first passes it at every lower block. -/
theorem IsCut.trans (h : IsCut A p q) (h' : IsCut B q r)
    (hA : ∀ {t t'}, p.fromBlock ≤ t' → t' ≤ t → A (p.upTo t) → A (p.upTo t')) :
    IsCut (fun s => A s ∧ B s) p r := by
  have hfrom : p.fromBlock ≤ r.toBlock := h.fromBlock ▸ h'.fromBlock_le
  have heq : r = p.upTo r.toBlock := by
    calc r = q.upTo r.toBlock := h'.eq_upTo
      _ = p.upTo r.toBlock := h.upTo_eq h'.le_toBlock
  refine ⟨heq, ⟨hfrom, h'.le_toBlock.trans h.le_toBlock, ?_, heq ▸ h'.holds⟩, ?_⟩
  · exact hA hfrom h'.le_toBlock h.isGreatest.1.2.2
  · intro t ht
    have htq : t ≤ q.toBlock := h.isGreatest.2 ⟨ht.1, ht.2.1, ht.2.2.1⟩
    refine h'.isGreatest.2 ⟨h.fromBlock.symm ▸ ht.1, htq, ?_⟩
    rw [h.upTo_eq htq]
    exact ht.2.2.2

/-- On the way to a cut: `q` is `p` up to some block, and `A` holds at none of the blocks above. -/
structure IsAbove (A : CertificateBuildParams H → Prop) (p q : CertificateBuildParams H) :
    Prop where
  eq_upTo : q = p.upTo q.toBlock
  fromBlock_le : p.fromBlock ≤ q.toBlock
  le_toBlock : q.toBlock ≤ p.toBlock
  excluded : ∀ t, q.toBlock < t → t ≤ p.toBlock → ¬A (p.upTo t)

theorem isAbove_self (hp : p.InRange) : IsAbove A p p where
  eq_upTo := hp.upTo_toBlock.symm
  fromBlock_le := hp.le
  le_toBlock := le_rfl
  excluded _ hlt hle := absurd hle (Nat.not_le.mpr hlt)

theorem IsAbove.inRange (h : IsAbove A p q) : q.InRange := by
  rw [h.eq_upTo]
  exact inRange_upTo h.fromBlock_le

theorem IsAbove.fromBlock (h : IsAbove A p q) : q.fromBlock = p.fromBlock := by
  rw [h.eq_upTo]
  rfl

theorem IsAbove.upTo_eq (h : IsAbove A p q) (ht : toBlock ≤ q.toBlock) :
    q.upTo toBlock = p.upTo toBlock := by
  rw [h.eq_upTo]
  exact upTo_upTo ht

/-- One step down, past blocks that do not pass. -/
theorem IsAbove.lower (h : IsAbove A p q) (hfrom : q.fromBlock ≤ toBlock)
    (hto : toBlock ≤ q.toBlock)
    (hexcl : ∀ t, toBlock < t → t ≤ q.toBlock → ¬A (q.upTo t)) :
    IsAbove A p (q.upTo toBlock) where
  eq_upTo := h.upTo_eq hto
  fromBlock_le := h.fromBlock ▸ hfrom
  le_toBlock := hto.trans h.le_toBlock
  excluded t hlt hle := by
    by_cases htq : t ≤ q.toBlock
    · rw [← h.upTo_eq htq]
      exact hexcl t hlt htq
    · exact h.excluded t (Nat.not_le.mp htq) hle

theorem IsAbove.isCut (h : IsAbove A p q) (hA : A q) : IsCut A p q where
  eq_upTo := h.eq_upTo
  isGreatest := by
    refine ⟨⟨h.fromBlock_le, h.le_toBlock, h.eq_upTo ▸ hA⟩, fun t ht => ?_⟩
    by_contra hlt
    exact h.excluded t (Nat.not_le.mp hlt) ht.2.1 ht.2.2

end cut

/-! ## The limits -/

/-- The errors that say that the claims of the range leave no certificate. -/
def AdjustError.isInvalidClaims : AdjustError → Bool
  | .claimNotUnderRoot _ => true
  | .invalidClaim _ => true
  | _ => false

/-- `MaxL2BlockNumber` and `MaxL2BlockRange`, where they are set. -/
def BlockRangeAdjustmentOptions.Allows (options : BlockRangeAdjustmentOptions)
    (p : CertificateBuildParams H) : Prop :=
  (options.maxL2BlockNumber ≠ 0 → p.toBlock ≤ options.maxL2BlockNumber) ∧
    (options.maxL2BlockRange ≠ 0 → p.toBlock - p.fromBlock ≤ options.maxL2BlockRange)

section limits

variable {p q : CertificateBuildParams H} {options : BlockRangeAdjustmentOptions} {toBlock : ℕ}
  {limit : Limit} {completes : Bool} {err : AdjustError}

theorem adjustToMaxL2Block_eq_ok (hp : p.InRange)
    (h : adjustToMaxL2Block p options toBlock limit completes = .ok q) :
    p.fromBlock ≤ toBlock ∧ toBlock ≤ p.toBlock ∧ q = p.upTo toBlock ∧
      (options.requireOneBridgeInCertificate = true → q.bridges ≠ []) := by
  obtain ⟨adjusted, hclone, hrest⟩ := Exec.except_bind_ok.mp h
  obtain ⟨hfrom, hto, rfl⟩ := (clone_eq_ok_iff hp).mp hclone
  split at hrest
  · -- Each of the three ends of this branch throws.
    split at hrest <;> first | cases hrest | (split at hrest <;> cases hrest)
  · rename_i hreq
    cases hrest
    refine ⟨hfrom, hto, rfl, fun hone hnil => hreq ⟨hone, ?_⟩⟩
    exact length_eq_zero_iff.mpr hnil

theorem clone_error {fromBlock : ℕ}
    (h : cloneCertificateBuildParamsWithRange p fromBlock toBlock = .error err) :
    err.isInvalidClaims = false := by
  unfold cloneCertificateBuildParamsWithRange at h
  split_ifs at h <;> cases h <;> rfl

theorem adjustToMaxL2Block_error
    (h : adjustToMaxL2Block p options toBlock limit completes = .error err) :
    err.isInvalidClaims = false := by
  rcases Exec.except_bind_eq_error_iff.mp h with hclone | ⟨adjusted, -, h⟩
  · exact clone_error hclone
  · repeat' split at h
    all_goals cases h <;> rfl

/-- The stage for `MaxL2BlockNumber` cuts at that block, if the range goes beyond it. -/
theorem adjustMaxL2BlockNumber_spec (hp : p.InRange)
    (h : adjustMaxL2BlockNumber p options = .ok q) :
    IsCut (fun r => options.maxL2BlockNumber ≠ 0 → r.toBlock ≤ options.maxL2BlockNumber) p q ∧
      (options.requireOneBridgeInCertificate = true → p.bridges ≠ [] → q.bridges ≠ []) := by
  unfold adjustMaxL2BlockNumber at h
  split at h
  · rename_i hwithin
    cases h
    exact ⟨isCut_self hp fun hset => hwithin.resolve_left hset, fun _ hbridges => hbridges⟩
  rename_i hbeyond
  split_ifs at h
  obtain ⟨hfrom, hto, rfl, hone⟩ := adjustToMaxL2Block_eq_ok hp h
  refine ⟨isCut_upTo hfrom hto (fun _ => le_rfl) fun t _ _ ht => ht ?_, fun hreq _ => hone hreq⟩
  exact fun hzero => hbeyond (Or.inl hzero)

/-- The stage for `MaxL2BlockRange` cuts that many blocks after the first. -/
theorem adjustMaxL2BlockRange_spec (hp : p.InRange)
    (h : adjustMaxL2BlockRange p options = .ok q) :
    IsCut (fun r => options.maxL2BlockRange ≠ 0 →
        r.toBlock - r.fromBlock ≤ options.maxL2BlockRange) p q ∧
      (options.requireOneBridgeInCertificate = true → p.bridges ≠ [] → q.bridges ≠ []) := by
  unfold adjustMaxL2BlockRange at h
  split at h
  · cases h
    exact ⟨isCut_self hp fun hset => by omega, fun _ hbridges => hbridges⟩
  rename_i hbeyond
  split at h
  · cases h
  obtain ⟨hfrom, hto, rfl, hone⟩ := adjustToMaxL2Block_eq_ok hp h
  refine ⟨isCut_upTo hfrom hto (fun _ => ?_) fun t hft _ ht => ?_, fun hreq _ => hone hreq⟩
  · exact (Nat.add_sub_cancel_left _ _).le
  · have hrange : t - p.fromBlock ≤ options.maxL2BlockRange :=
      ht fun hzero => hbeyond (Or.inl hzero)
    omega

theorem adjustMaxL2BlockNumber_error (h : adjustMaxL2BlockNumber p options = .error err) :
    err.isInvalidClaims = false := by
  unfold adjustMaxL2BlockNumber at h
  split_ifs at h
  iterate 3 cases h; rfl
  exact adjustToMaxL2Block_error h

theorem adjustMaxL2BlockRange_error (h : adjustMaxL2BlockRange p options = .error err) :
    err.isInvalidClaims = false := by
  unfold adjustMaxL2BlockRange at h
  split_ifs at h
  · cases h
    rfl
  · exact adjustToMaxL2Block_error h

end limits

/-! ## The size of the certificate -/

/-- The estimated size is within `MaxCertSize`, or a single block is left. -/
def BaseFlow.FitsSize (f : BaseFlow H) (p : CertificateBuildParams H) : Prop :=
  f.cfg.maxCertSize = 0 ∨
    f.cfg.estimatedSize p.numberOfBridges p.numberOfClaims ≤ f.cfg.maxCertSize ∨
    p.toBlock ≤ p.fromBlock

section size

variable {f : BaseFlow H} {p q : CertificateBuildParams H} {err : AdjustError}

namespace BaseFlow

theorem limitCertSizeStep_eq_done (h : f.limitCertSizeStep p = .ok (.done q)) :
    q = p ∧ f.FitsSize p := by
  unfold limitCertSizeStep at h
  split at h
  · rename_i hfits
    obtain rfl := Loop.Next.done.inj (Except.ok.inj h)
    exact ⟨rfl, hfits.imp_right Or.inl⟩
  split at h
  · rename_i hblocks
    obtain rfl := Loop.Next.done.inj (Except.ok.inj h)
    unfold numberOfBlocks at hblocks
    exact ⟨rfl, Or.inr (Or.inr (by omega))⟩
  · obtain ⟨next, -, hnext⟩ := Exec.except_bind_ok.mp h
    cases Except.ok.inj hnext

/-- An iteration that goes on has seen that the size does not fit. -/
theorem not_fitsSize_of_again (h : f.limitCertSizeStep p = .ok (.again q)) :
    ¬f.FitsSize p := by
  have hblocks := (limitCertSizeStep_eq_again h).1
  unfold limitCertSizeStep at h
  split at h
  · cases h
  rename_i hsize
  rintro (hzero | hfits | hle)
  · exact hsize (Or.inl hzero)
  · exact hsize (Or.inr hfits)
  · omega

theorem limitCertSizeStep_error (hp : p.InRange)
    (h : f.limitCertSizeStep p = .error err) : False := by
  unfold limitCertSizeStep at h
  split at h
  · cases h
  split_ifs at h with hblocks
  unfold numberOfBlocks at hblocks
  rw [(clone_eq_ok_iff hp).mpr ⟨by omega, by omega, rfl⟩] at h
  cases h

/-- `limitCertSize` cuts at the highest block at which the size fits. -/
theorem limitCertSize_spec (hp : p.InRange) :
    ∃ q, f.limitCertSize p = .ok q ∧ IsCut f.FitsSize p q := by
  have hend := Loop.run_eq_eval toBlock
    (fun {s s'} (hs : f.limitCertSizeStep s = .ok (.again s')) => by
      obtain ⟨hlt, hclone⟩ := limitCertSizeStep_eq_again hs
      have hto := toBlock_of_clone hclone
      omega) p
  -- Along the loop, no block above the current last one fits.
  have hspec := Loop.run_spec (IsAbove f.FitsSize p) (Q := IsCut f.FitsSize p)
    (E := fun _ => False) ?_ ?_ ?_ (isAbove_self hp) hend
  · obtain ⟨hok, herr⟩ := hspec
    cases h : f.limitCertSize p with
    | ok q => exact ⟨q, rfl, hok q h⟩
    | error err => exact (herr err h).elim
  · intro s s' hs hstep
    obtain ⟨hlt, hclone⟩ := limitCertSizeStep_eq_again hstep
    obtain ⟨hfrom, hto, rfl⟩ := (clone_eq_ok_iff hs.inRange).mp hclone
    refine hs.lower hfrom hto fun t htlt htle => ?_
    obtain rfl : t = s.toBlock := by omega
    rw [hs.inRange.upTo_toBlock]
    exact not_fitsSize_of_again hstep
  · intro s q hs hstep
    obtain ⟨rfl, hfits⟩ := limitCertSizeStep_eq_done hstep
    exact hs.isCut hfits
  · intro s err hs hstep
    exact limitCertSizeStep_error hs.inRange hstep

end BaseFlow

end size

/-! ## Claims that are not under the selected root -/

variable [DecidableEq H] (K : Keccak H)

/-- The GER has a proof against the root. -/
def L1InfoTreeDataQuerier.provable (l : L1InfoTreeDataQuerier H) (root ger : H) : Bool :=
  (l.getProofForGER K ger root).isOk

/-- The GER is on L1: it has a proof against the root, or the contract knows it. -/
def L1InfoTreeDataQuerier.onL1 (l : L1InfoTreeDataQuerier H) (root ger : H) : Bool :=
  l.provable K root ger || l.doesGERExistsOnL1 ger

/-- Every claim whose GER is on L1 can be proved against the selected root. -/
def BaseFlow.UnderRoot (f : BaseFlow H) (p : CertificateBuildParams H) : Prop :=
  ∀ c ∈ p.claims,
    f.l1InfoTreeDataQuerier.onL1 K p.l1InfoTreeRootFromWhichToProve c.globalExitRoot = true →
      f.l1InfoTreeDataQuerier.provable K p.l1InfoTreeRootFromWhichToProve c.globalExitRoot = true

/-- What the cache says about a GER is whether it is on L1. -/
def BaseFlow.CacheSound (f : BaseFlow H) (root : H) (cache : GERValidationCache H) : Prop :=
  ∀ ger existsOnL1, cache ger = some existsOnL1 →
    existsOnL1 = f.l1InfoTreeDataQuerier.onL1 K root ger

/-- The cache has an entry for the GER of every claim. -/
def Cached (cache : GERValidationCache H) (claims : List (Claim H)) : Prop :=
  ∀ c ∈ claims, (cache c.globalExitRoot).isSome

section underRoot

variable {K} {f : BaseFlow H} {p q : CertificateBuildParams H} {root ger : H} {leafCount : UInt32}
  {cache cache' : GERValidationCache H} {claims : List (Claim H)} {err : AdjustError}

omit [DecidableEq H] in
theorem BaseFlow.cacheSound_new [DecidableEq H] :
    f.CacheSound K root newGERValidationCache := nofun

theorem BaseFlow.CacheSound.update {existsOnL1 : Bool} (h : f.CacheSound K root cache)
    (hger : existsOnL1 = f.l1InfoTreeDataQuerier.onL1 K root ger) :
    f.CacheSound K root (update cache ger (some existsOnL1)) := by
  intro ger' existsOnL1' hcache
  by_cases heq : ger' = ger
  · rw [heq, update_self] at hcache
    rw [← Option.some.inj hcache, heq]
    exact hger
  · rw [update_of_ne heq] at hcache
    exact h ger' existsOnL1' hcache

omit [DecidableEq H] in
theorem isSome_update [DecidableEq H] {existsOnL1 : Bool} {g : H}
    (h : g = ger ∨ (cache g).isSome) : (update cache ger (some existsOnL1) g).isSome := by
  by_cases heq : g = ger
  · rw [heq, update_self]
    rfl
  · rw [update_of_ne heq]
    exact h.resolve_left heq

/-- `getGERExistsOnL1` answers whether the GER is on L1, where the cache is sound and a miss is not
provable, and leaves a sound cache with an entry for it. -/
theorem BaseFlow.getGERExistsOnL1_spec (h : f.CacheSound K root cache)
    (hmiss : cache ger = none → f.l1InfoTreeDataQuerier.provable K root ger = false) :
    (f.getGERExistsOnL1 cache ger).1 = f.l1InfoTreeDataQuerier.onL1 K root ger ∧
      f.CacheSound K root (f.getGERExistsOnL1 cache ger).2 ∧
      ((f.getGERExistsOnL1 cache ger).2 ger).isSome ∧
      ∀ g, (cache g).isSome → ((f.getGERExistsOnL1 cache ger).2 g).isSome := by
  unfold BaseFlow.getGERExistsOnL1
  cases hcache : cache ger with
  | some existsOnL1 =>
    refine ⟨h ger _ hcache, h, ?_, fun _ hg => hg⟩
    simp only [hcache, Option.isSome_some]
  | none =>
    have hon : f.l1InfoTreeDataQuerier.doesGERExistsOnL1 ger =
        f.l1InfoTreeDataQuerier.onL1 K root ger := by
      unfold onL1
      rw [hmiss hcache, Bool.false_or]
    exact ⟨hon, h.update hon, isSome_update (Or.inl rfl), fun g hg => isSome_update (Or.inr hg)⟩

/-- A GER that is on L1 without a proof against the root. -/
def BaseFlow.Late (f : BaseFlow H) (K : Keccak H) (root : H) (c : Claim H) : Prop :=
  f.l1InfoTreeDataQuerier.onL1 K root c.globalExitRoot = true ∧
    f.l1InfoTreeDataQuerier.provable K root c.globalExitRoot = false

/-- The result of the search over a list of claims: the lowest of the late ones and of the claim
found before. -/
structure BaseFlow.FindsLowest (f : BaseFlow H) (K : Keccak H) (root : H) (claims : List (Claim H))
    (before found : Option (Claim H)) : Prop where
  of_some : ∀ c, found = some c → before = some c ∨ c ∈ claims ∧ f.Late K root c
  le_late : ∀ x ∈ claims, f.Late K root x → ∃ c, found = some c ∧ c.blockNum ≤ x.blockNum
  le_before : ∀ x, before = some x → ∃ c, found = some c ∧ c.blockNum ≤ x.blockNum

variable {before found : Option (Claim H)}

namespace BaseFlow

/-- A claim that is not late does not change what is found. -/
theorem FindsLowest.skip {claim : Claim H} (h : f.FindsLowest K root claims before found)
    (hlate : ¬f.Late K root claim) :
    f.FindsLowest K root (claim :: claims) before found where
  of_some c hc := (h.of_some c hc).imp_right fun hmem => ⟨mem_cons_of_mem _ hmem.1, hmem.2⟩
  le_late x hx hxlate := by
    rcases mem_cons.mp hx with rfl | hx
    · exact absurd hxlate hlate
    · exact h.le_late x hx hxlate
  le_before := h.le_before

/-- A late claim replaces the one found before when its block is lower. -/
theorem FindsLowest.late {claim : Claim H} (h : f.FindsLowest K root claims
      (match before with
        | none => some claim
        | some lowest => if claim.blockNum < lowest.blockNum then some claim else some lowest) found)
    (hlate : f.Late K root claim) : f.FindsLowest K root (claim :: claims) before found := by
  have hclaim : ∃ c, found = some c ∧ c.blockNum ≤ claim.blockNum := by
    cases before with
    | none => exact h.le_before claim rfl
    | some lowest =>
      by_cases hlt : claim.blockNum < lowest.blockNum
      · exact h.le_before claim (if_pos hlt)
      · obtain ⟨c, hc, hle⟩ := h.le_before lowest (if_neg hlt)
        exact ⟨c, hc, hle.trans (Nat.not_lt.mp hlt)⟩
  refine ⟨fun c hc => ?_, fun x hx hxlate => ?_, fun x hx => ?_⟩
  · rcases h.of_some c hc with heq | ⟨hmem, hclate⟩
    · cases before with
      | none =>
        cases heq
        exact Or.inr ⟨mem_cons_self, hlate⟩
      | some lowest =>
        simp only at heq
        split at heq
        · cases heq
          exact Or.inr ⟨mem_cons_self, hlate⟩
        · exact Or.inl heq
    · exact Or.inr ⟨mem_cons_of_mem _ hmem, hclate⟩
  · rcases mem_cons.mp hx with rfl | hx
    · exact hclaim
    · exact h.le_late x hx hxlate
  · obtain rfl := hx
    by_cases hlt : claim.blockNum < x.blockNum
    · obtain ⟨c, hc, hle⟩ := hclaim
      exact ⟨c, hc, hle.trans hlt.le⟩
    · exact h.le_before x (if_neg hlt)

theorem findClaimNotUnderRoot_spec (hsound : f.CacheSound K root cache)
    (h : f.findClaimNotUnderRoot K root leafCount claims cache before = .ok (cache', found)) :
    f.CacheSound K root cache' ∧ (∀ g, (cache g).isSome → (cache' g).isSome) ∧
      Cached cache' claims ∧ f.FindsLowest K root claims before found := by
  induction claims generalizing cache before with
  | nil =>
    cases h
    refine ⟨hsound, fun _ hg => hg, fun c hc => absurd hc not_mem_nil, ?_⟩
    exact ⟨fun c hc => Or.inl hc, fun x hx => absurd hx not_mem_nil,
      fun x hx => ⟨x, hx, le_rfl⟩⟩
  | cons claim claims ih =>
    unfold findClaimNotUnderRoot at h
    -- What the recursive call gives, for a rest that is searched with the next cache.
    have hrest : ∀ {next before'}, f.CacheSound K root next → (next claim.globalExitRoot).isSome →
        (∀ g, (cache g).isSome → (next g).isSome) →
        f.findClaimNotUnderRoot K root leafCount claims next before' = .ok (cache', found) →
        (f.FindsLowest K root claims before' found →
          f.FindsLowest K root (claim :: claims) before found) →
        f.CacheSound K root cache' ∧ (∀ g, (cache g).isSome → (cache' g).isSome) ∧
          Cached cache' (claim :: claims) ∧ f.FindsLowest K root (claim :: claims) before found := by
      intro next before' hsound hentry hnext hcall hlowest
      obtain ⟨hsound', hkeep, hcached, hfinds⟩ := ih hsound hcall
      exact ⟨hsound', fun g hg => hkeep g (hnext g hg),
        forall_mem_cons.mpr ⟨hkeep _ hentry, hcached⟩, hlowest hfinds⟩
    have hprovable : f.l1InfoTreeDataQuerier.provable K root claim.globalExitRoot =
      (f.l1InfoTreeDataQuerier.getProofForGER K claim.globalExitRoot root).isOk := rfl
    cases hproof : f.l1InfoTreeDataQuerier.getProofForGER K claim.globalExitRoot root with
    | ok proof =>
      rw [hproof] at h hprovable
      have hon : true = f.l1InfoTreeDataQuerier.onL1 K root claim.globalExitRoot := by
        unfold onL1
        rw [hprovable]
        rfl
      refine hrest (hsound.update hon) (isSome_update (Or.inl rfl))
        (fun g hg => isSome_update (Or.inr hg)) h fun hfinds => hfinds.skip fun hlate => ?_
      exact Bool.false_ne_true (hlate.2.symm.trans hprovable)
    | error err =>
      rw [hproof] at h hprovable
      obtain ⟨hanswer, hsound1, hentry, hkeep1⟩ :=
        getGERExistsOnL1_spec hsound fun _ => hprovable
      simp only at h
      split at h
      · -- The GER is not on L1.
        rename_i hmissing
        refine hrest hsound1 hentry hkeep1 h fun hfinds => hfinds.skip fun hlate => ?_
        rw [hanswer, hlate.1] at hmissing
        cases hmissing
      · rename_i hexists
        have hlate : f.Late K root claim := by
          rw [hanswer, Bool.not_eq_true, Bool.not_eq_false'] at hexists
          exact ⟨hexists, hprovable⟩
        split at h
        · split at h
          · cases h
          split at h
          · cases h
          · cases h
          · exact hrest hsound1 hentry hkeep1 h fun hfinds => hfinds.late hlate
        · cases h

theorem findClaimNotUnderRoot_error
    (h : f.findClaimNotUnderRoot K root leafCount claims cache before = .error err) :
    err.isInvalidClaims = false := by
  induction claims generalizing cache before with
  | nil => cases h
  | cons claim claims ih =>
    unfold findClaimNotUnderRoot at h
    split at h
    · exact ih h
    repeat' split at h
    all_goals first | exact ih h | exact Except.error.inj h ▸ rfl

/-- The claims up to a block are under the root when no late claim has a block up to it. -/
theorem underRoot_upTo_iff {toBlock : ℕ} (hp : p.InRange) :
    f.UnderRoot K (p.upTo toBlock) ↔
      ∀ c ∈ p.claims, f.Late K p.l1InfoTreeRootFromWhichToProve c → toBlock < c.blockNum := by
  constructor
  · intro h c hc hlate
    by_contra hle
    have hmem : c ∈ (p.upTo toBlock).claims :=
      mem_inBlocks.mpr ⟨hc, (hp.claims c hc).1, Nat.not_lt.mp hle⟩
    exact Bool.false_ne_true (hlate.2.symm.trans (h c hmem hlate.1))
  · intro h c hc hon
    obtain ⟨hmem, -, hle⟩ := mem_inBlocks.mp hc
    by_contra hprov
    exact absurd (h c hmem ⟨hon, Bool.not_eq_true _ ▸ hprov⟩) (Nat.not_lt.mpr hle)

/-- The stage cuts below the lowest claim that is not under the root. -/
theorem adjustClaimsNotProvableAgainstRoot_spec (hp : p.InRange)
    (h : f.adjustClaimsNotProvableAgainstRoot K p newGERValidationCache = .ok (q, cache)) :
    IsCut (f.UnderRoot K) p q ∧ f.CacheSound K p.l1InfoTreeRootFromWhichToProve cache ∧
      Cached cache p.claims := by
  obtain ⟨⟨cache', found⟩, hfind, hrest⟩ := Exec.except_bind_ok.mp h
  obtain ⟨hsound, -, hcached, hlowest⟩ :=
    findClaimNotUnderRoot_spec cacheSound_new hfind
  cases found with
  | none =>
    cases hrest
    have hunder : f.UnderRoot K p := by
      rw [← hp.upTo_toBlock, underRoot_upTo_iff hp]
      intro c hc hlate
      obtain ⟨_, hsome, -⟩ := hlowest.le_late c hc hlate
      cases hsome
    exact ⟨isCut_self hp hunder, hsound, hcached⟩
  | some claim =>
    obtain ⟨hmem, hlate⟩ := (hlowest.of_some claim rfl).resolve_left nofun
    simp only at hrest
    split at hrest
    · cases hrest
    obtain ⟨trimmed, htrim, hpair⟩ := Exec.except_bind_ok.mp hrest
    cases hpair
    obtain ⟨hfrom, hto, rfl⟩ := (trimCertificateToBlock_eq_ok_iff hp).mp htrim
    refine ⟨isCut_upTo hfrom hto ?_ fun t _ _ ht => ?_, hsound, hcached⟩
    · refine (underRoot_upTo_iff hp).mpr fun c hc hclate => ?_
      obtain ⟨_, hsome, hle⟩ := hlowest.le_late c hc hclate
      cases hsome
      omega
    · have hlt := (underRoot_upTo_iff hp).mp ht claim hmem hlate
      omega

/-- Where it fails for a claim that is not under the root, no part of the range is without it. -/
theorem adjustClaimsNotProvableAgainstRoot_error (hp : p.InRange)
    (h : f.adjustClaimsNotProvableAgainstRoot K p newGERValidationCache = .error err)
    (herr : err.isInvalidClaims = true) {t : ℕ} (ht : p.fromBlock ≤ t) :
    ¬f.UnderRoot K (p.upTo t) := by
  rcases Exec.except_bind_eq_error_iff.mp h with hfind | ⟨⟨cache', found⟩, hfind, h⟩
  · exact absurd ((findClaimNotUnderRoot_error hfind).symm.trans herr) Bool.false_ne_true
  obtain ⟨-, -, -, hlowest⟩ := findClaimNotUnderRoot_spec cacheSound_new hfind
  cases found with
  | none => cases h
  | some claim =>
    obtain ⟨hmem, hlate⟩ := (hlowest.of_some claim rfl).resolve_left nofun
    by_cases hstart : claim.blockNum ≤ p.fromBlock
    · intro hunder
      have hlt := (underRoot_upTo_iff hp).mp hunder claim hmem hlate
      omega
    · have hin := hp.claims claim hmem
      simp only [if_neg hstart] at h
      rw [trimCertificateToBlock_eq_ok hp (by omega) (by omega)] at h
      cases h

end BaseFlow

end underRoot

end AggKit.AggSender
