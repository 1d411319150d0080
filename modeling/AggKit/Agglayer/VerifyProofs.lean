import AggKit.Agglayer.Certificate

/-!
# `VerifyProofs` of an imported exit, as in `agglayer/types/types.go`

The leaf of an exit is proved against an exit root, directly for an exit of mainnet and through the
local exit root of its network for one of a rollup, and the leaf of the L1 info tree is proved against
the L1 info root. The checks are made in the order of the source and the first that fails is the
error.

The two chains meet in the L1 leaf, which has the exit roots and the global exit root. That the global
exit root is the hash of the exit roots is not among the checks: it is how `claimsync` records claims.
-/

namespace AggKit.Agglayer

/-- The errors of `VerifyProofs`. -/
inductive VerifyError where
  /-- `ImportedBridgeExit.ClaimData is nil` -/
  | claimDataNil
  /-- `Mismatch between the provided L1 root and the inclusion proof.` -/
  | mismatchL1Root
  /-- `Mismatch on the MER between the L1 leaf and the inclusion proof.` -/
  | mismatchMER
  /-- `Mismatch on the RER between the L1 leaf and the inclusion proof.` -/
  | mismatchRER
  /-- `Invalid merkle path from the leaf to the LER.` -/
  | invalidPathLeafToLER
  /-- `Invalid merkle path from the GER to the L1 Info Root.` -/
  | invalidPathGERToL1Root
  /-- `Invalid merkle path from the LER to the RER.` -/
  | invalidPathLERToRER
deriving DecidableEq

variable {H : Type} [DecidableEq H] (K : Keccak H)

/-- A check of `VerifyProofs`. -/
def check (passes : Bool) (err : VerifyError) : Except VerifyError Unit :=
  if passes then .ok () else .error err

/-- `ClaimFromMainnet.VerifyProofs`. -/
def ClaimFromMainnet.verifyProofs (c : ClaimFromMainnet H) (l1RootFromWhichToProof leafHash : H)
    (leafIndex : UInt32) : Except VerifyError Unit := do
  check (c.proofGERToL1Root.root = l1RootFromWhichToProof) .mismatchL1Root
  check (c.proofLeafMER.root = c.l1Leaf.mainnetExitRoot) .mismatchMER
  check (Tree.verifyProof K.pair leafHash c.proofLeafMER.proof leafIndex c.proofLeafMER.root)
    .invalidPathLeafToLER
  check (Tree.verifyProof K.pair (c.l1Leaf.hash K) c.proofGERToL1Root.proof
    c.l1Leaf.l1InfoTreeIndex c.proofGERToL1Root.root) .invalidPathGERToL1Root

/-- `ClaimFromRollup.VerifyProofs`. -/
def ClaimFromRollup.verifyProofs (c : ClaimFromRollup H) (l1RootFromWhichToProof leafHash : H)
    (rollupIndex leafIndex : UInt32) : Except VerifyError Unit := do
  check (c.proofGERToL1Root.root = l1RootFromWhichToProof) .mismatchL1Root
  check (c.proofLERToRER.root = c.l1Leaf.rollupExitRoot) .mismatchRER
  check (Tree.verifyProof K.pair leafHash c.proofLeafLER.proof leafIndex c.proofLeafLER.root)
    .invalidPathLeafToLER
  check (Tree.verifyProof K.pair (c.l1Leaf.hash K) c.proofGERToL1Root.proof
    c.l1Leaf.l1InfoTreeIndex c.proofGERToL1Root.root) .invalidPathGERToL1Root
  check (Tree.verifyProof K.pair c.proofLeafLER.root c.proofLERToRER.proof rollupIndex
    c.proofLERToRER.root) .invalidPathLERToRER

/-- `ImportedBridgeExit.VerifyProofs`. -/
def ImportedBridgeExit.verifyProofs (ibe : ImportedBridgeExit H) (l1RootFromWhichToProve : H) :
    Except VerifyError Unit :=
  match ibe.claimData with
  | none => .error .claimDataNil
  | some (.mainnet claim) =>
    claim.verifyProofs K l1RootFromWhichToProve (ibe.bridgeExit.hash K) ibe.globalIndex.leafIndex
  | some (.rollup claim) =>
    claim.verifyProofs K l1RootFromWhichToProve (ibe.bridgeExit.hash K) ibe.globalIndex.rollupIndex
      ibe.globalIndex.leafIndex

theorem check_eq_ok_iff {passes : Bool} {err : VerifyError} {u : Unit} :
    check passes err = .ok u ↔ passes = true := by
  cases passes with
  | true => exact ⟨fun _ => rfl, fun _ => rfl⟩
  | false => exact ⟨nofun, nofun⟩

/-- One more check. -/
theorem check_bind_eq_ok_iff {passes : Bool} {err : VerifyError} {rest : Except VerifyError Unit} :
    (check passes err >>= fun _ => rest) = .ok () ↔ passes = true ∧ rest = .ok () := by
  rw [Exec.except_bind_ok]
  constructor
  · rintro ⟨⟨⟩, hcheck, hrest⟩
    exact ⟨check_eq_ok_iff.mp hcheck, hrest⟩
  · rintro ⟨hpasses, hrest⟩
    exact ⟨(), check_eq_ok_iff.mpr hpasses, hrest⟩

variable {K}

/-- The checks of a claim from mainnet. -/
theorem ClaimFromMainnet.verifyProofs_eq_ok_iff {c : ClaimFromMainnet H} {l1Root leafHash : H}
    {leafIndex : UInt32} :
    c.verifyProofs K l1Root leafHash leafIndex = .ok () ↔
      c.proofGERToL1Root.root = l1Root ∧ c.proofLeafMER.root = c.l1Leaf.mainnetExitRoot ∧
        Tree.verifyProof K.pair leafHash c.proofLeafMER.proof leafIndex c.proofLeafMER.root = true ∧
        Tree.verifyProof K.pair (c.l1Leaf.hash K) c.proofGERToL1Root.proof c.l1Leaf.l1InfoTreeIndex
          c.proofGERToL1Root.root = true := by
  unfold ClaimFromMainnet.verifyProofs
  simp only [check_bind_eq_ok_iff, check_eq_ok_iff, decide_eq_true_eq]

/-- The checks of a claim from a rollup. -/
theorem ClaimFromRollup.verifyProofs_eq_ok_iff {c : ClaimFromRollup H} {l1Root leafHash : H}
    {rollupIndex leafIndex : UInt32} :
    c.verifyProofs K l1Root leafHash rollupIndex leafIndex = .ok () ↔
      c.proofGERToL1Root.root = l1Root ∧ c.proofLERToRER.root = c.l1Leaf.rollupExitRoot ∧
        Tree.verifyProof K.pair leafHash c.proofLeafLER.proof leafIndex c.proofLeafLER.root = true ∧
        Tree.verifyProof K.pair (c.l1Leaf.hash K) c.proofGERToL1Root.proof c.l1Leaf.l1InfoTreeIndex
          c.proofGERToL1Root.root = true ∧
        Tree.verifyProof K.pair c.proofLeafLER.root c.proofLERToRER.proof rollupIndex
          c.proofLERToRER.root = true := by
  unfold ClaimFromRollup.verifyProofs
  simp only [check_bind_eq_ok_iff, check_eq_ok_iff, decide_eq_true_eq]

end AggKit.Agglayer
