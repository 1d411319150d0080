import AggKit.BridgeService.L2Bridge

/-!
# The L1 info leaf of an L1 deposit

`getFirstL1InfoTreeIndexForL1Bridge` of `bridgeservice/bridge.go` looks for the first L1 info leaf whose
mainnet exit root includes a deposit. It starts from the last leaf, or, when the L1 bridge syncer does
not know its mainnet exit root, from the last leaf up to the block of the last root that the syncer has,
and halves the interval of block numbers between the first leaf and that one.

The limits are 64-bit: the block before block 0 is `2^64 - 1`. Nothing bounds the number of iterations
then, so the search takes the number of iterations that it is given.
-/

namespace AggKit.BridgeService

open L1InfoTreeSync

variable {H : Type} [DecidableEq H]

/-- The last leaf of the search and the root that is compared with the deposit count first. -/
def lastInfoWithRoot (s : Service H) : Except BridgeError (L1InfoTreeLeaf H × Tree.Root H) := do
  let lastInfo ← row s.l1InfoTree.getLastInfo
  match s.bridgeL1.getRootByHash lastInfo.mainnetExitRoot with
  | some root => return (lastInfo, root)
  | none =>
    -- the fallback: the last leaf up to the last block that bridgesync L1 has indexed
    match s.bridgeL1.getLastRoot with
    | none => throw .lastRootL1
    | some root =>
      if root.blockNum = 0 then throw .noBlockIndexed
      match s.l1InfoTree.getLatestL1InfoLeafUntilBlock root.blockNum with
      | .error err => throw (.noLeafUntilBlock root.blockNum err)
      | .ok lastInfo => return (lastInfo, root)

/-- `targetBlock - 1` on 64 bits. -/
def blockBefore (targetBlock : ℕ) : ℕ := (targetBlock + (2^64 - 1)) % 2^64

/-- The body of the loop of `getFirstL1InfoTreeIndexForL1Bridge`. -/
def l1SearchBody (s : Service H) (depositCount : UInt32) (w : Window (L1InfoTreeLeaf H)) :
    Except BridgeError (Loop.Next (Window (L1InfoTreeLeaf H)) (L1InfoTreeLeaf H)) :=
  if w.lower ≤ w.upper then do
    let targetInfo ← row (s.l1InfoTree.getFirstInfoAfterBlock w.target)
    let root ← row (s.bridgeL1.getRootByHash targetInfo.mainnetExitRoot)
    if root.index < depositCount then return .again { w with lower := w.target + 1 }
    else if root.index = depositCount then return .done targetInfo
    else return .again ⟨targetInfo, w.lower, blockBefore w.target⟩
  else return .done w.best

/-- `getFirstL1InfoTreeIndexForL1Bridge` with at most the given number of iterations. -/
def getFirstL1InfoTreeIndexForL1Bridge (fuel : ℕ) (s : Service H) (depositCount : UInt32) :
    Option (Except BridgeError UInt32) :=
  match lastInfoWithRoot s with
  | .error err => some (.error err)
  | .ok (lastInfo, root) =>
    if root.index < depositCount then some (.error .notOnL1Info)
    else
      match s.l1InfoTree.getFirstInfo with
      | none => some (.error .notFound)
      | some firstInfo =>
        (Loop.run (l1SearchBody s depositCount) fuel
          ⟨lastInfo, firstInfo.blockNumber, lastInfo.blockNumber⟩).map
            fun result => result.map (·.l1InfoTreeIndex)

/-- More iterations do not change the result. -/
theorem getFirstL1InfoTreeIndexForL1Bridge_mono {m n : ℕ} (hmn : m ≤ n) {s : Service H}
    {depositCount : UInt32} {r : Except BridgeError UInt32}
    (h : getFirstL1InfoTreeIndexForL1Bridge m s depositCount = some r) :
    getFirstL1InfoTreeIndexForL1Bridge n s depositCount = some r := by
  revert h
  unfold getFirstL1InfoTreeIndexForL1Bridge
  split
  · exact id
  split_ifs
  · exact id
  split
  · exact id
  · intro h
    obtain ⟨result, hrun, rfl⟩ := Option.map_eq_some_iff.mp h
    rw [Loop.run_mono hmn hrun]
    rfl

/-- There is one result. -/
theorem getFirstL1InfoTreeIndexForL1Bridge_unique {m n : ℕ} {s : Service H} {depositCount : UInt32}
    {r r' : Except BridgeError UInt32} (h : getFirstL1InfoTreeIndexForL1Bridge m s depositCount = some r)
    (h' : getFirstL1InfoTreeIndexForL1Bridge n s depositCount = some r') : r = r' := by
  have hm := getFirstL1InfoTreeIndexForL1Bridge_mono (Nat.le_max_left m n) h
  have hn := getFirstL1InfoTreeIndexForL1Bridge_mono (Nat.le_max_right m n) h'
  exact Option.some.inj (hm.symm.trans hn)

end AggKit.BridgeService
