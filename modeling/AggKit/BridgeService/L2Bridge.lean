import AggKit.L1InfoTreeSync.Query
import AggKit.Lib.Loop

/-!
# The L1 info leaf of an L2 deposit

`getFirstL1InfoTreeIndexForL2Bridge` of `bridgeservice/bridge.go` looks for the first verified batch of
the rollup whose local exit root includes a deposit, and then for the first L1 info leaf with the rollup
exit root of that batch. The batches are searched by halving an interval of block numbers. When the
search meets a local exit root that the L2 bridge syncer does not know, a scan from block to block takes
its place.
-/

namespace AggKit.BridgeService

open L1InfoTreeSync

/-- What the searches read: the tables of l1infotreesync and the exit trees of the bridge syncers. -/
structure Service (H : Type) where
  l1InfoTree : Tables H
  bridgeL1 : Tree.Store H
  bridgeL2 : Tree.Store H
  networkID : UInt32

/-- The errors of the searches. -/
inductive BridgeError where
  /-- `ErrNotOnL1Info` -/
  | notOnL1Info
  /-- `bridgesync L1 has not indexed any block yet: %w` of `ErrNotOnL1Info` -/
  | noBlockIndexed
  /-- `db.ErrNotFound` -/
  | notFound
  /-- `failed to get last root for L1: %w` of `db.ErrNotFound` -/
  | lastRootL1
  /-- `failed to get last root for L2: %w` of `db.ErrNotFound` -/
  | lastRootL2
  /-- `l1infotreesync has no L1 info tree leaf at or before L1 block %d …: %w` -/
  | noLeafUntilBlock (blockNum : ℕ) (err : LeafError)
deriving DecidableEq

/-- `errors.Is(err, ErrNotOnL1Info)`. -/
def BridgeError.isNotOnL1Info : BridgeError → Bool
  | notOnL1Info => true
  | noBlockIndexed => true
  | _ => false

/-- A query whose row may be missing. -/
def row {α : Type} : Option α → Except BridgeError α
  | none => .error .notFound
  | some r => .ok r

variable {H : Type} [DecidableEq H]

/-- The state of the binary search. -/
structure Window (α : Type) where
  best : α
  lower : ℕ
  upper : ℕ
deriving DecidableEq

/-- `binarySearchDivider`: the block in the middle. -/
def Window.target {α : Type} (w : Window α) : ℕ := w.lower + (w.upper - w.lower) / 2

/-- What `binarySearchStep` returns. -/
inductive SearchStep (H : Type) where
  | binarySearchContinue (w : Window (VerifyBatches H))
  | binarySearchDone (best : VerifyBatches H)
  | binarySearchFallback

/-- `binarySearchStep`. -/
def binarySearchStep (s : Service H) (targetBlock : ℕ) (w : Window (VerifyBatches H))
    (depositCount : UInt32) : Except BridgeError (SearchStep H) := do
  let targetVerified ← row (s.l1InfoTree.getFirstVerifiedBatchesAfterBlock s.networkID targetBlock)
  if w.upper < targetVerified.blockNumber then
    if targetBlock = 0 then return .binarySearchDone w.best
    else return .binarySearchContinue { w with upper := targetBlock - 1 }
  else
    match s.bridgeL2.getRootByHash targetVerified.exitRoot with
    | none => return .binarySearchFallback
    | some root =>
      if root.index < depositCount then
        return .binarySearchContinue { w with lower := targetVerified.blockNumber + 1 }
      else if root.index = depositCount then return .binarySearchDone targetVerified
      else if targetVerified.blockNumber = 0 then return .binarySearchDone targetVerified
      else return .binarySearchContinue ⟨targetVerified, w.lower, targetVerified.blockNumber - 1⟩

/-- The body of the loop of `getFirstVerifiedBatchesForL2DepositCountBinary`. It returns `none` for a
local exit root that is missing. -/
def binarySearchBody (s : Service H) (depositCount : UInt32) (w : Window (VerifyBatches H)) :
    Except BridgeError (Loop.Next (Window (VerifyBatches H)) (Option (VerifyBatches H))) :=
  if w.lower ≤ w.upper then do
    match ← binarySearchStep s w.target w depositCount with
    | .binarySearchContinue w' => return .again w'
    | .binarySearchDone best => return .done (some best)
    | .binarySearchFallback => return .done none
  else return .done (some w.best)

/-- The number of blocks that are left. -/
def Window.size {α : Type} (w : Window α) : ℕ := w.upper + 1 - w.lower

/-- The ways an iteration can end. -/
inductive Probe (s : Service H) (depositCount : UInt32) (w : Window (VerifyBatches H)) :
    Loop.Next (Window (VerifyBatches H)) (Option (VerifyBatches H)) → Prop
  /-- No block is left. -/
  | exhausted : w.upper < w.lower → Probe s depositCount w (.done (some w.best))
  /-- There is no batch from the target up to the upper limit. -/
  | above {v : VerifyBatches H} : w.lower ≤ w.upper →
      s.l1InfoTree.getFirstVerifiedBatchesAfterBlock s.networkID w.target = some v →
      w.upper < v.blockNumber → w.target ≠ 0 →
      Probe s depositCount w (.again ⟨w.best, w.lower, w.target - 1⟩)
  /-- The same for a target at block 0. -/
  | aboveZero {v : VerifyBatches H} : w.lower ≤ w.upper →
      s.l1InfoTree.getFirstVerifiedBatchesAfterBlock s.networkID w.target = some v →
      w.upper < v.blockNumber → w.target = 0 → Probe s depositCount w (.done (some w.best))
  /-- The local exit root is not known. -/
  | missing {v : VerifyBatches H} : w.lower ≤ w.upper →
      s.l1InfoTree.getFirstVerifiedBatchesAfterBlock s.networkID w.target = some v →
      v.blockNumber ≤ w.upper → s.bridgeL2.getRootByHash v.exitRoot = none →
      Probe s depositCount w (.done none)
  /-- The local exit root is too early. -/
  | less {v : VerifyBatches H} {root : Tree.Root H} : w.lower ≤ w.upper →
      s.l1InfoTree.getFirstVerifiedBatchesAfterBlock s.networkID w.target = some v →
      v.blockNumber ≤ w.upper → s.bridgeL2.getRootByHash v.exitRoot = some root →
      root.index < depositCount →
      Probe s depositCount w (.again ⟨w.best, v.blockNumber + 1, w.upper⟩)
  /-- The deposit is the last one of the local exit root, or no earlier block is left. -/
  | stop {v : VerifyBatches H} {root : Tree.Root H} : w.lower ≤ w.upper →
      s.l1InfoTree.getFirstVerifiedBatchesAfterBlock s.networkID w.target = some v →
      v.blockNumber ≤ w.upper → s.bridgeL2.getRootByHash v.exitRoot = some root →
      root.index = depositCount ∨ depositCount < root.index ∧ v.blockNumber = 0 →
      Probe s depositCount w (.done (some v))
  /-- The local exit root has the deposit and more. -/
  | more {v : VerifyBatches H} {root : Tree.Root H} : w.lower ≤ w.upper →
      s.l1InfoTree.getFirstVerifiedBatchesAfterBlock s.networkID w.target = some v →
      v.blockNumber ≤ w.upper → s.bridgeL2.getRootByHash v.exitRoot = some root →
      depositCount < root.index → v.blockNumber ≠ 0 →
      Probe s depositCount w (.again ⟨v, w.lower, v.blockNumber - 1⟩)

variable {depositCount : UInt32} {w : Window (VerifyBatches H)} {s : Service H}

/-- With a batch from the target on, the iteration does not fail. -/
theorem binarySearchBody_spec (hfound : w.lower ≤ w.upper →
      ∃ v, s.l1InfoTree.getFirstVerifiedBatchesAfterBlock s.networkID w.target = some v) :
    ∃ next, binarySearchBody s depositCount w = .ok next ∧ Probe s depositCount w next := by
  by_cases hle : w.lower ≤ w.upper
  swap
  · exact ⟨_, if_neg hle, .exhausted (Nat.lt_of_not_le hle)⟩
  obtain ⟨v, hv⟩ := hfound hle
  have hbody : binarySearchBody s depositCount w = (do
      match ← binarySearchStep s w.target w depositCount with
      | .binarySearchContinue w' => return .again w'
      | .binarySearchDone best => return .done (some best)
      | .binarySearchFallback => return .done none) := if_pos hle
  rw [binarySearchStep, hv] at hbody
  by_cases habove : w.upper < v.blockNumber
  · by_cases hzero : w.target = 0
    · exact ⟨_, hbody.trans (by simp [row, habove, hzero]), .aboveZero hle hv habove hzero⟩
    · exact ⟨_, hbody.trans (by simp [row, habove, hzero]), .above hle hv habove hzero⟩
  have hupper := Nat.le_of_not_lt habove
  cases hroot : s.bridgeL2.getRootByHash v.exitRoot with
  | none =>
    exact ⟨_, hbody.trans (by simp [row, habove, hroot]), .missing hle hv hupper hroot⟩
  | some root =>
    by_cases hless : root.index < depositCount
    · exact ⟨_, hbody.trans (by simp [row, habove, hroot, hless]),
        .less hle hv hupper hroot hless⟩
    by_cases heq : root.index = depositCount
    · exact ⟨_, hbody.trans (by simp [row, habove, hroot, heq]),
        .stop hle hv hupper hroot (.inl heq)⟩
    have hmore : depositCount < root.index :=
      UInt32.lt_of_le_of_ne (UInt32.not_lt.mp hless) (Ne.symm heq)
    by_cases hblock : v.blockNumber = 0
    · exact ⟨_, hbody.trans (by simp [row, hroot, hless, heq, hblock]),
        .stop hle hv hupper hroot (.inr ⟨hmore, hblock⟩)⟩
    · exact ⟨_, hbody.trans (by simp [row, habove, hroot, hless, heq, hblock]),
        .more hle hv hupper hroot hmore hblock⟩

theorem probe_of_binarySearchBody
    {next : Loop.Next (Window (VerifyBatches H)) (Option (VerifyBatches H))}
    (h : binarySearchBody s depositCount w = .ok next) : Probe s depositCount w next := by
  have hfound : w.lower ≤ w.upper →
      ∃ v, s.l1InfoTree.getFirstVerifiedBatchesAfterBlock s.networkID w.target = some v := by
    intro hle
    cases hv : s.l1InfoTree.getFirstVerifiedBatchesAfterBlock s.networkID w.target with
    | none =>
      rw [binarySearchBody, if_pos hle, binarySearchStep, hv] at h
      cases h
    | some v => exact ⟨v, rfl⟩
  obtain ⟨next', h', hprobe⟩ := binarySearchBody_spec hfound
  rwa [Except.ok.inj (h.symm.trans h')]

theorem size_of_binarySearchBody {w' : Window (VerifyBatches H)}
    (h : binarySearchBody s depositCount w = .ok (.again w')) : w'.size < w.size := by
  have hmid : w.lower ≤ w.target ∧ (w.lower ≤ w.upper → w.target ≤ w.upper) := by
    unfold Window.target
    omega
  unfold Window.size
  cases probe_of_binarySearchBody h with
  | above hle hv habove hzero =>
    simp only
    omega
  | less hle hv hupper hroot hless =>
    have hfrom := Table.le_of_firstFrom hv
    simp only
    omega
  | more hle hv hupper hroot hmore hblock =>
    simp only
    omega

/-- `getFirstVerifiedBatchesForL2DepositCountBinary`; it returns `none` when the search has met a local
exit root that is missing. -/
def getFirstVerifiedBatchesForL2DepositCountBinary (s : Service H)
    (firstVerified lastVerified : VerifyBatches H) (depositCount : UInt32) :
    Except BridgeError (Option (VerifyBatches H)) :=
  Loop.eval (binarySearchBody s depositCount) Window.size size_of_binarySearchBody
    ⟨lastVerified, firstVerified.blockNumber, lastVerified.blockNumber⟩

/-- The body of the loop of `getFirstVerifiedBatchesForL2DepositCountLinear`. -/
def linearScanBody (s : Service H) (lastBlock : ℕ) (depositCount : UInt32) (nextBlock : ℕ) :
    Except BridgeError (Loop.Next ℕ (VerifyBatches H)) :=
  if nextBlock ≤ lastBlock then do
    let verified ← row (s.l1InfoTree.getFirstVerifiedBatchesAfterBlock s.networkID nextBlock)
    if lastBlock < verified.blockNumber then throw .notOnL1Info
    else
      match s.bridgeL2.getRootByHash verified.exitRoot with
      -- a batch whose local exit root is not known is skipped
      | none => return .again (verified.blockNumber + 1)
      | some root =>
        if depositCount ≤ root.index then return .done verified
        else return .again (verified.blockNumber + 1)
  else throw .notOnL1Info

theorem size_of_linearScanBody {lastBlock : ℕ} {nextBlock nextBlock' : ℕ}
    (h : linearScanBody s lastBlock depositCount nextBlock = .ok (.again nextBlock')) :
    lastBlock + 1 - nextBlock' < lastBlock + 1 - nextBlock := by
  unfold linearScanBody at h
  split_ifs at h with hle
  obtain ⟨v, hv, h⟩ := Exec.except_bind_ok.mp h
  cases hfirst : s.l1InfoTree.getFirstVerifiedBatchesAfterBlock s.networkID nextBlock with
  | none =>
    rw [hfirst] at hv
    cases hv
  | some v' =>
    obtain rfl : v' = v := by simpa [hfirst, row] using hv
    have hfrom := Table.le_of_firstFrom hfirst
    have hnext : nextBlock' = v'.blockNumber + 1 := by
      split_ifs at h with habove
      split at h
      · cases h
        rfl
      · split_ifs at h <;> cases h
        rfl
    omega

/-- `getFirstVerifiedBatchesForL2DepositCountLinear`. -/
def getFirstVerifiedBatchesForL2DepositCountLinear (s : Service H) (firstBlock lastBlock : ℕ)
    (depositCount : UInt32) : Except BridgeError (VerifyBatches H) :=
  Loop.eval (linearScanBody s lastBlock depositCount) (fun nextBlock => lastBlock + 1 - nextBlock)
    size_of_linearScanBody firstBlock

/-- `getFirstL1InfoTreeIndexForL2Bridge`. -/
def getFirstL1InfoTreeIndexForL2Bridge (s : Service H) (depositCount : UInt32) :
    Except BridgeError UInt32 := do
  let lastVerified ← row (s.l1InfoTree.getLastVerifiedBatches s.networkID)
  let root ← match s.bridgeL2.getRootByHash lastVerified.exitRoot with
    | some root => pure root
    | none =>
      match s.bridgeL2.getLastRoot with
      | some root => pure root
      | none => throw .lastRootL2
  if root.index < depositCount then throw .notOnL1Info
  let firstVerified ← row (s.l1InfoTree.getFirstVerifiedBatches s.networkID)
  let bestResult ←
    match ← getFirstVerifiedBatchesForL2DepositCountBinary s firstVerified lastVerified
      depositCount with
    | some bestResult => pure bestResult
    | none =>
      getFirstVerifiedBatchesForL2DepositCountLinear s firstVerified.blockNumber
        lastVerified.blockNumber depositCount
  let info ← row (s.l1InfoTree.getFirstL1InfoWithRollupExitRoot bestResult.rollupExitRoot)
  return info.l1InfoTreeIndex

end AggKit.BridgeService
