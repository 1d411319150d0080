import AggKit.AggSender.Unclaimed
import AggKit.MultiDownloader.BlockRange

/-!
# Blocks skipped between certificates, as in `aggsender/flows/flow_base.go`

When it starts, the flow of the aggchain prover asks `VerifyBlockRangeGaps` whether anything
happened between the last certificate and the block it starts from. The skipped blocks are computed
as the gap between two ranges, and a reversed range counts as an empty one, next to which there is
no gap: `verifyBlockRangeGaps_eq_ok_iff` says which blocks are looked at.
-/

namespace AggKit.MultiDownloader.BlockRange

/-- `getBlockMinusOne`. -/
def getBlockMinusOne (fromBlock : ℕ) : ℕ := if fromBlock > 0 then fromBlock - 1 else 0

/-- `Gap`. Block numbers are `uint64`, so a sum can wrap around. -/
def gap (b other : BlockRange) : BlockRange :=
  if b.isEmpty || other.isEmpty then zero
  else if b.toBlock ≥ getBlockMinusOne other.fromBlock ∧
      other.toBlock ≥ getBlockMinusOne b.fromBlock then zero
  else if b.toBlock < other.fromBlock then
    new ((b.toBlock + 1) % 2 ^ 64) (other.fromBlock - 1)
  else new ((other.toBlock + 1) % 2 ^ 64) (getBlockMinusOne b.fromBlock)

/-- `Greater`. -/
def greater (b other : BlockRange) : Bool :=
  if b.isEmpty && other.isEmpty then false
  else if b.isEmpty then false
  else if other.isEmpty then true
  else decide (b.fromBlock > other.toBlock)

/-- The gap is what lies strictly between the ranges, whichever comes first; no sum wraps around. -/
theorem mem_gap {b other : BlockRange} {n : ℕ} (hb : b.isEmpty = false)
    (hother : other.isEmpty = false) (hbt : b.toBlock < 2 ^ 64) (hot : other.toBlock < 2 ^ 64) :
    n ∈ b.gap other ↔
      b.toBlock < n ∧ n < other.fromBlock ∨ other.toBlock < n ∧ n < b.fromBlock := by
  have hle := (isEmpty_eq_false_iff.mp hb).2
  have hle' := (isEmpty_eq_false_iff.mp hother).2
  unfold gap getBlockMinusOne
  rw [hb, hother, Bool.or_false, if_neg Bool.false_ne_true]
  split_ifs <;> simp only [notMem_zero, mem_new, false_iff] <;> omega

/-- The blocks `VerifyBlockRangeGaps` looks at: those after the last range and before the next. -/
theorem mem_gap_of_not_greater {last next : BlockRange} {n : ℕ} (hl : last.toBlock < 2 ^ 64)
    (hn : next.toBlock < 2 ^ 64) :
    last.greater next = false ∧ n ∈ next.gap last ↔
      last.isEmpty = false ∧ next.isEmpty = false ∧ last.toBlock < n ∧ n < next.fromBlock := by
  cases he : last.isEmpty with
  | true => simp [gap, he, notMem_zero]
  | false =>
    cases he' : next.isEmpty with
    | true => simp [greater, he, he']
    | false =>
      have hle := (isEmpty_eq_false_iff.mp he).2
      have hle' := (isEmpty_eq_false_iff.mp he').2
      rw [mem_gap he' he hn hl, greater, he, he']
      simp only [Bool.false_and, Bool.false_eq_true, if_false, decide_eq_false_iff_not, true_and]
      omega

end AggKit.MultiDownloader.BlockRange

namespace AggKit.AggSender

open ClaimSync (Claim)
open MultiDownloader (BlockRange)

variable {H : Type}

/-- The errors of `VerifyBlockRangeGaps`. -/
inductive GapError where
  /-- `there are new bridges or claims in the gap %s, len(bridges)=%d. len(claims)=%d` -/
  | newEvents (gap : BlockRange) (bridges claims : ℕ)
  /-- `block gap detected: %s without bridge transactions, but RequireNoFEPBlockGap is true` -/
  | blockGap (gap : BlockRange)
deriving DecidableEq

/-- The `lastBlockRange` of `VerifyBlockRangeGaps`. A certificate in error has settled nothing: the
range ends before it, and its start is left at 0. -/
def CertificateHeader.lastBlockRange (last : CertificateHeader H) : BlockRange :=
  if last.status.isInError then
    BlockRange.new 0 (if last.fromBlock > 0 then last.fromBlock - 1 else 0)
  else BlockRange.new last.fromBlock last.toBlock

/-- `VerifyBlockRangeGaps`, with the `RequireNoFEPBlockGap` of the configuration. -/
def BaseFlow.verifyBlockRangeGaps (f : BaseFlow H) (requireNoFEPBlockGap : Bool)
    (lastSentCertificate : Option (CertificateHeader H)) (newFromBlock newToBlock : ℕ) :
    Except GapError Unit :=
  match lastSentCertificate with
  | none => .ok ()
  | some last =>
    let nextBlockRange := BlockRange.new newFromBlock newToBlock
    if last.lastBlockRange.greater nextBlockRange then .ok ()
    else
      let gap := nextBlockRange.gap last.lastBlockRange
      if gap.isEmpty then .ok ()
      else
        let bridges := f.l2BridgeQuerier.getBridges gap.fromBlock gap.toBlock
        let claims := f.l2BridgeQuerier.getClaims gap.fromBlock gap.toBlock
        if bridges.length > 0 ∨ claims.length > 0 then
          .error (.newEvents gap bridges.length claims.length)
        else if !gap.isEmpty && requireNoFEPBlockGap then .error (.blockGap gap)
        else .ok ()

/-- The last block settled with the last sent certificate; one in error has settled none of its
blocks. -/
def CertificateHeader.lastCertifiedBlock (c : CertificateHeader H) : ℕ :=
  if c.status.isInError then c.fromBlock - 1 else c.toBlock

section

variable {f : BaseFlow H} {bridges : List (BridgeSync.Bridge H)} {claims : List (Claim H)}
  {requireNoFEPBlockGap : Bool} {newFromBlock newToBlock : ℕ}
  (hbridges : ∀ fromBlock toBlock, f.l2BridgeQuerier.getBridges fromBlock toBlock =
    inBlocks BridgeSync.Bridge.blockNum fromBlock toBlock bridges)
  (hclaims : ∀ fromBlock toBlock, f.l2BridgeQuerier.getClaims fromBlock toBlock =
    inBlocks Claim.blockNum fromBlock toBlock claims)

theorem inBlocks_length_eq_zero_iff {α : Type} {block : α → ℕ} {events : List α} {g : BlockRange}
    (hg : g.isEmpty = false) :
    (inBlocks block g.fromBlock g.toBlock events).length = 0 ↔
      ∀ n ∈ g, ∀ e ∈ events, block e ≠ n := by
  simp only [inBlocks, List.length_eq_zero_iff, List.filter_eq_nil_iff, decide_eq_true_eq]
  constructor
  · rintro h n hn e he rfl
    exact h e he (BlockRange.mem_iff.mp hn).2
  · intro h e he hrange
    exact h (block e) (BlockRange.mem_iff.mpr ⟨hg, hrange⟩) e he rfl

include hbridges hclaims in
theorem BaseFlow.verifyBlockRangeGaps_some {last : CertificateHeader H} :
    f.verifyBlockRangeGaps requireNoFEPBlockGap (some last) newFromBlock newToBlock = .ok () ↔
      ∀ n, last.lastBlockRange.greater (.new newFromBlock newToBlock) = false ∧
        n ∈ (BlockRange.new newFromBlock newToBlock).gap last.lastBlockRange →
        requireNoFEPBlockGap = false ∧ (∀ b ∈ bridges, b.blockNum ≠ n) ∧
          ∀ claim ∈ claims, claim.blockNum ≠ n := by
  simp only [verifyBlockRangeGaps]
  generalize (BlockRange.new newFromBlock newToBlock).gap last.lastBlockRange = g
  cases last.lastBlockRange.greater (BlockRange.new newFromBlock newToBlock) with
  | true => simp
  | false =>
    cases hg : g.isEmpty with
    | true => simp [BlockRange.notMem_of_isEmpty hg]
    | false =>
      have hb := @inBlocks_length_eq_zero_iff _ BridgeSync.Bridge.blockNum bridges g hg
      have hc := @inBlocks_length_eq_zero_iff _ Claim.blockNum claims g hg
      simp only [hbridges, hclaims, Bool.false_eq_true, if_false, Bool.not_false, Bool.true_and,
        true_and]
      constructor
      · intro hok n hn
        split_ifs at hok with hevents hgap
        obtain ⟨hb0, hc0⟩ := not_or.mp hevents
        exact ⟨eq_false_of_ne_true hgap, hb.mp (Nat.eq_zero_of_not_pos hb0) n hn,
          hc.mp (Nat.eq_zero_of_not_pos hc0) n hn⟩
      · intro h
        have hb0 := hb.mpr fun n hn => (h n hn).2.1
        have hc0 := hc.mpr fun n hn => (h n hn).2.2
        have hgap := (h g.fromBlock (BlockRange.fromBlock_mem hg)).1
        simp [hb0, hc0, hgap]

include hbridges hclaims in
/-- The check passes exactly when nothing happened in the blocks between the last certified block
and the new range, and none may be skipped if the configuration says so. Beside a reversed range
nothing is checked. -/
theorem BaseFlow.verifyBlockRangeGaps_eq_ok_iff (lastSentCertificate : Option (CertificateHeader H))
    (hlast : ∀ c ∈ lastSentCertificate, c.fromBlock < 2 ^ 64 ∧ c.toBlock < 2 ^ 64)
    (hnew : newToBlock < 2 ^ 64) :
    f.verifyBlockRangeGaps requireNoFEPBlockGap lastSentCertificate newFromBlock newToBlock =
        .ok () ↔
      ∀ c ∈ lastSentCertificate, newFromBlock ≤ newToBlock →
        (c.status.isInError = false → c.fromBlock ≤ c.toBlock) →
        ∀ n, c.lastCertifiedBlock < n → n < newFromBlock →
          requireNoFEPBlockGap = false ∧ (∀ b ∈ bridges, b.blockNum ≠ n) ∧
            ∀ claim ∈ claims, claim.blockNum ≠ n := by
  cases lastSentCertificate with
  | none => simp [verifyBlockRangeGaps]
  | some c =>
    obtain ⟨hfrom, hto⟩ := hlast c rfl
    have hend : c.lastBlockRange.toBlock = c.lastCertifiedBlock := by
      unfold CertificateHeader.lastBlockRange CertificateHeader.lastCertifiedBlock BlockRange.new
      split_ifs <;> simp only
      all_goals omega
    have hempty : c.lastBlockRange.isEmpty = false ↔
        (c.status.isInError = false → c.fromBlock ≤ c.toBlock) := by
      unfold CertificateHeader.lastBlockRange
      split_ifs with h <;> simp [BlockRange.isEmpty_new, h]
    have hlt : c.lastBlockRange.toBlock < 2 ^ 64 := by
      rw [hend, CertificateHeader.lastCertifiedBlock]
      split_ifs <;> omega
    -- The blocks of the statement are those of the gap that the code computes.
    have hskip n := @BlockRange.mem_gap_of_not_greater _ (.new newFromBlock newToBlock) n hlt hnew
    rw [hend, hempty, BlockRange.isEmpty_new, decide_eq_false_iff_not, Nat.not_lt] at hskip
    rw [verifyBlockRangeGaps_some hbridges hclaims]
    constructor
    · rintro h _ ⟨⟩ hnext hrange n hafter hbefore
      exact h n ((hskip n).mpr ⟨hrange, hnext, hafter, hbefore⟩)
    · intro h n hn
      obtain ⟨hrange, hnext, hafter, hbefore⟩ := (hskip n).mp hn
      exact h c rfl hnext hrange n hafter hbefore

end

/-- The header of a settled certificate for some blocks. -/
def settledHeader (fromBlock toBlock : ℕ) : CertificateHeader ℕ :=
  ⟨0, 0, 0, none, 0, fromBlock, toBlock, .settled, 0, 0, none, 0, .pp, .localSender⟩

/-- A claim between the settled blocks and the new range is found. -/
theorem BaseFlow.verifyBlockRangeGaps_ne_ok_six :
    (flowOver [] [claimAt 6 0 1 1] []).verifyBlockRangeGaps false (some (settledHeader 1 5)) 8 9 ≠
      .ok () := by
  intro h
  have hall := (verifyBlockRangeGaps_eq_ok_iff (fun _ _ => rfl) (fun _ _ => rfl)
    (some (settledHeader 1 5)) (by decide) (by decide)).mp h
  exact (hall _ rfl (by decide) (by decide) 6 (by decide) (by decide)).2.2 _
    List.mem_cons_self rfl

/-- With a reversed new range a claim between the settled blocks and its start is not found. -/
theorem BaseFlow.reversed_range_passes :
    (flowOver [] [claimAt 6 0 1 1] []).verifyBlockRangeGaps false (some (settledHeader 1 5)) 8 7 =
      .ok () ∧
    (settledHeader 1 5).lastCertifiedBlock < (claimAt 6 0 1 1).blockNum ∧
      (claimAt 6 0 1 1).blockNum < 8 := by
  decide

end AggKit.AggSender
