import AggKit.AggSender.FlowBase
import AggKit.Agglayer.VerifyProofs
import AggKit.Tree.Readable

/-!
# The proofs of an imported exit

`ConvertToImportedBridgeExit` puts the proofs that were recorded with a claim and a proof of its
global exit root into one imported exit, and `VerifyProofs` checks them. Each proof has an index of its
own: the leaf index in the exit tree of the network the exit comes from, the index of that network
among the rollups, and the index of the leaf in the L1 info tree.

Both directions are shown. Valid proofs pass. An exit that passes is included: its leaf is under the
exit root, the exit roots hash to the global exit root, and the L1 info leaf with that global exit root
is under the L1 info root. The second direction needs that the global exit root of the claim is the
hash of its exit roots, which `claimsync` computes when it records a claim; `VerifyProofs` does not
look at it.
-/

namespace AggKit.AggSender

open Agglayer (ImportedBridgeExit L1InfoTreeLeafInner GlobalIndex)
open ClaimSync (Claim)
open L1InfoTreeSync (calculateGER)
open Tree (verifyProof Included)

variable {H : Type} [DecidableEq H]

/-! ## What is asked of claims and of the L1 info tree -/

/-- The proofs recorded with the claim are valid for its exit leaf and its exit roots. -/
def ValidProofs (K : Keccak H) (claim : Claim H) : Prop :=
  let leaf := (convertBridgeExitFromClaim K claim).hash K
  let index := globalIndexOf claim.globalIndex
  if index.mainnetFlag then
    verifyProof K.pair leaf claim.proofLocalExitRoot index.leafIndex claim.mainnetExitRoot = true
  else
    ∃ ler, verifyProof K.pair leaf claim.proofLocalExitRoot index.leafIndex ler = true ∧
      verifyProof K.pair ler claim.proofRollupExitRoot index.rollupIndex claim.rollupExitRoot = true

/-- The leaf that is found for a global exit root has it, and has the hashes that `l1infotreesync`
computes. -/
def L1InfoTreeDataQuerier.Sound (l : L1InfoTreeDataQuerier H) (K : Keccak H) : Prop :=
  ∀ ger info, l.getInfoByGlobalExitRoot ger = some info →
    info.globalExitRoot = ger ∧
      info.globalExitRoot = calculateGER K info.mainnetExitRoot info.rollupExitRoot ∧
      info.hash = info.getHash K

/-- The L1 info tree has a leaf with the global exit root and gives a valid proof to the root. -/
def L1InfoTreeDataQuerier.Proves (l : L1InfoTreeDataQuerier H) (K : Keccak H) (ger root : H) : Prop :=
  ∃ info proof, l.getInfoByGlobalExitRoot ger = some info ∧
    l.getL1InfoTreeMerkleProofFromIndexToRoot info.l1InfoTreeIndex root = some proof ∧
    verifyProof K.pair info.hash proof info.l1InfoTreeIndex root = true

/-- A leaf of the L1 info tree with this global exit root is under the L1 info root, and whatever leaf
of the table has the hash at its index has these exit roots. -/
def InL1InfoTree (K : Keccak H) (mainnetExitRoot rollupExitRoot l1InfoRoot : H) : Prop :=
  ∃ (inner : L1InfoTreeLeafInner H) (index : UInt32),
    inner.globalExitRoot = calculateGER K mainnetExitRoot rollupExitRoot ∧
    Included K.pair (inner.hash K) index l1InfoRoot ∧
    ∀ f : ℕ → H, Merkle.node K.pair f Tree.DefaultHeight 0 = l1InfoRoot →
      ∀ row : L1InfoTreeSync.L1InfoTreeLeaf H, f index.toNat = row.getHash K →
        row.mainnetExitRoot = mainnetExitRoot ∧ row.rollupExitRoot = rollupExitRoot

/-- The exit leaf of the claim is under its exit root, through a local exit root if it is of a rollup,
and the exit roots are in a leaf of the L1 info tree. -/
def ExitIncluded (K : Keccak H) (claim : Claim H) (l1InfoRoot : H) : Prop :=
  let leaf := (convertBridgeExitFromClaim K claim).hash K
  let index := globalIndexOf claim.globalIndex
  (if index.mainnetFlag then Included K.pair leaf index.leafIndex claim.mainnetExitRoot
    else ∃ ler, Included K.pair leaf index.leafIndex ler ∧
      Included K.pair ler index.rollupIndex claim.rollupExitRoot) ∧
    InL1InfoTree K claim.mainnetExitRoot claim.rollupExitRoot l1InfoRoot

/-! ## The leaf of the L1 info tree -/

section l1Leaf

variable {K : Keccak H}

omit [DecidableEq H] in
/-- The leaf in the claim data has the hash of the leaf of the L1 info tree it is made from. -/
theorem l1LeafOf_hash (claim : Claim H) {info : L1InfoTreeSync.L1InfoTreeLeaf H}
    (hger : info.globalExitRoot = calculateGER K info.mainnetExitRoot info.rollupExitRoot)
    (hhash : info.hash = info.getHash K) : (l1LeafOf claim info).hash K = info.hash := by
  rw [hhash]
  unfold Agglayer.L1InfoTreeLeaf.hash L1InfoTreeLeafInner.hash L1InfoTreeSync.L1InfoTreeLeaf.getHash
  rw [← hger]
  rfl

/-- An L1 leaf whose global exit root is the hash of the exit roots, with a proof that is accepted. -/
theorem inL1InfoTree_of_verifyProof (hinj : Function.Injective2 K.pair)
    (hleaf : Function.Injective (L1InfoTreeLeafInner.hash K)) {inner : L1InfoTreeLeafInner H}
    {mainnetExitRoot rollupExitRoot l1InfoRoot : H}
    (hger : inner.globalExitRoot = calculateGER K mainnetExitRoot rollupExitRoot)
    {proof : Vector H 32} {index : UInt32}
    (hverify : verifyProof K.pair (inner.hash K) proof index l1InfoRoot = true) :
    InL1InfoTree K mainnetExitRoot rollupExitRoot l1InfoRoot := by
  have hincluded := Tree.included_of_verifyProof hinj hverify
  refine ⟨inner, index, hger, hincluded, fun f hroot row hrow => ?_⟩
  -- The hash of a row of the table is the hash of its three parts.
  have hparts : row.getHash K = L1InfoTreeLeafInner.hash K
      ⟨calculateGER K row.mainnetExitRoot row.rollupExitRoot, row.previousBlockHash,
        row.timestamp⟩ := rfl
  have hsame := hleaf ((hparts.symm.trans hrow.symm).trans (hincluded.leaf_eq f hroot))
  have hgers : calculateGER K row.mainnetExitRoot row.rollupExitRoot =
      calculateGER K mainnetExitRoot rollupExitRoot := by
    rw [← hger, ← hsame]
  exact hinj hgers

end l1Leaf

/-! ## Both directions -/

section directions

variable {K : Keccak H} {l : L1InfoTreeDataQuerier H} {claim : Claim H} {root : H}

/-- Where the L1 info tree proves the global exit root, the claim is converted with that proof. -/
theorem exists_convertToImportedBridgeExit (hproves : l.Proves K claim.globalExitRoot root) :
    ∃ info proof, l.getInfoByGlobalExitRoot claim.globalExitRoot = some info ∧
      verifyProof K.pair info.hash proof info.l1InfoTreeIndex root = true ∧
      convertToImportedBridgeExit K claim root l =
        .ok { convertToImportedBridgeExitWithoutClaimData K claim with
          claimData := some (claimDataOf K (convertToImportedBridgeExitWithoutClaimData K claim) claim
            root info proof) } := by
  obtain ⟨info, proof, hinfo, hproof, hverify⟩ := hproves
  refine ⟨info, proof, hinfo, hverify, ?_⟩
  apply convertToImportedBridgeExit_eq_ok_iff.mpr
  refine ⟨info, proof, ?_, rfl⟩
  unfold L1InfoTreeDataQuerier.getProofForGER
  simp only [hinfo, hproof, hverify, if_true]

/-- Valid proofs pass. -/
theorem verifyProofs_of_valid (hl : l.Sound K) (hvalid : ValidProofs K claim)
    (hproves : l.Proves K claim.globalExitRoot root) :
    ∃ ibe, convertToImportedBridgeExit K claim root l = .ok ibe ∧
      ibe.verifyProofs K root = .ok () := by
  obtain ⟨info, proof, hinfo, hverify, hconvert⟩ := exists_convertToImportedBridgeExit hproves
  refine ⟨_, hconvert, ?_⟩
  obtain ⟨-, hger, hhash⟩ := hl _ _ hinfo
  rw [← l1LeafOf_hash claim hger hhash] at hverify
  unfold ValidProofs at hvalid
  unfold ImportedBridgeExit.verifyProofs claimDataOf
  by_cases hflag : (globalIndexOf claim.globalIndex).mainnetFlag = true
  · simp only [hflag, if_true] at hvalid
    simp only [convertToImportedBridgeExitWithoutClaimData, hflag, if_true]
    exact Agglayer.ClaimFromMainnet.verifyProofs_eq_ok_iff.mpr ⟨rfl, rfl, hvalid, hverify⟩
  · simp only [hflag, if_false, Bool.false_eq_true] at hvalid
    simp only [convertToImportedBridgeExitWithoutClaimData, hflag, if_false, Bool.false_eq_true]
    obtain ⟨ler, hlocal, hrollup⟩ := hvalid
    have hler : Tree.calculateRoot K.pair ((convertBridgeExitFromClaim K claim).hash K)
        claim.proofLocalExitRoot (globalIndexOf claim.globalIndex).leafIndex = ler := by
      simpa [verifyProof] using hlocal
    rw [← hler] at hlocal hrollup
    exact Agglayer.ClaimFromRollup.verifyProofs_eq_ok_iff.mpr ⟨rfl, rfl, hlocal, hverify, hrollup⟩

/-- An exit that passes is included. -/
theorem exitIncluded_of_verifyProofs (hinj : Function.Injective2 K.pair)
    (hleaf : Function.Injective (L1InfoTreeLeafInner.hash K)) (hl : l.Sound K)
    (hger : claim.globalExitRoot = calculateGER K claim.mainnetExitRoot claim.rollupExitRoot)
    {ibe : ImportedBridgeExit H} (hconvert : convertToImportedBridgeExit K claim root l = .ok ibe)
    (hverify : ibe.verifyProofs K root = .ok ()) : ExitIncluded K claim root := by
  obtain ⟨info, proof, hproof, rfl⟩ := convertToImportedBridgeExit_eq_ok_iff.mp hconvert
  -- The leaf in the claim data has the global exit root of the claim.
  have hfound : info.globalExitRoot = claim.globalExitRoot := by
    unfold L1InfoTreeDataQuerier.getProofForGER at hproof
    cases hinfo : l.getInfoByGlobalExitRoot claim.globalExitRoot with
    | none => simp [hinfo] at hproof
    | some found =>
      obtain ⟨hfound, -⟩ := hl _ _ hinfo
      simp only [hinfo] at hproof
      split at hproof
      · cases hproof
      · split at hproof
        · obtain ⟨rfl, -⟩ := Prod.mk.inj (Except.ok.inj hproof)
          exact hfound
        · cases hproof
  have hl1 : verifyProof K.pair ((l1LeafOf claim info).hash K) proof info.l1InfoTreeIndex root = true →
      InL1InfoTree K claim.mainnetExitRoot claim.rollupExitRoot root :=
    inL1InfoTree_of_verifyProof hinj hleaf (hfound.trans hger)
  unfold ImportedBridgeExit.verifyProofs claimDataOf at hverify
  unfold ExitIncluded
  by_cases hflag : (globalIndexOf claim.globalIndex).mainnetFlag = true
  · simp only [convertToImportedBridgeExitWithoutClaimData, hflag, if_true] at hverify ⊢
    obtain ⟨-, -, hexit, hinfo⟩ := Agglayer.ClaimFromMainnet.verifyProofs_eq_ok_iff.mp hverify
    exact ⟨Tree.included_of_verifyProof hinj hexit, hl1 hinfo⟩
  · simp only [convertToImportedBridgeExitWithoutClaimData, hflag, if_false, Bool.false_eq_true]
      at hverify ⊢
    obtain ⟨-, -, hexit, hinfo, hler⟩ := Agglayer.ClaimFromRollup.verifyProofs_eq_ok_iff.mp hverify
    exact ⟨⟨_, Tree.included_of_verifyProof hinj hexit, Tree.included_of_verifyProof hinj hler⟩,
      hl1 hinfo⟩

end directions

/-- A proof of 32 empty siblings. -/
def emptySiblings : Vector (List UInt8) 32 := Vector.replicate 32 []

/-- The claim of leaf 0 of rollup 0, before its exit roots. -/
def leafClaim : Claim (List UInt8) where
  blockNum := 1
  blockPos := 0
  txHash := []
  globalIndex := 0
  originNetwork := 0
  originAddress := ZeroAddress
  destinationAddress := ZeroAddress
  amount := 7
  proofLocalExitRoot := emptySiblings
  proofRollupExitRoot := emptySiblings
  mainnetExitRoot := []
  rollupExitRoot := []
  globalExitRoot := []
  destinationNetwork := 1
  metadata := []
  isMessage := false
  blockTimestamp := 0
  type := .claimEvent

/-- The local exit root that its local proof leads to. -/
@[irreducible]
def leafClaimLER : List UInt8 :=
  Tree.calculateRoot freeKeccak.pair ((convertBridgeExitFromClaim freeKeccak leafClaim).hash freeKeccak)
    emptySiblings 0

/-- The rollup exit root that its rollup proof leads to. -/
@[irreducible]
def leafClaimRER : List UInt8 := Tree.calculateRoot freeKeccak.pair leafClaimLER emptySiblings 0

/-- The claim with its exit roots. -/
def rollupClaim : Claim (List UInt8) :=
  { leafClaim with
    rollupExitRoot := leafClaimRER
    globalExitRoot := calculateGER freeKeccak [] leafClaimRER }

/-- The leaf of the L1 info tree with the global exit root. -/
def rollupClaimInfo : L1InfoTreeSync.L1InfoTreeLeaf (List UInt8) where
  blockNumber := 1
  blockPosition := 0
  l1InfoTreeIndex := 0
  previousBlockHash := []
  timestamp := 0
  mainnetExitRoot := []
  rollupExitRoot := leafClaimRER
  globalExitRoot := calculateGER freeKeccak [] leafClaimRER
  hash := freeKeccak.sum (freeKeccak.bytes (calculateGER freeKeccak [] leafClaimRER) ++
    freeKeccak.bytes [] ++ Bytes.bigEndian 8 0)

/-- The L1 info root that its proof leads to. -/
@[irreducible]
def rollupClaimRoot : List UInt8 :=
  Tree.calculateRoot freeKeccak.pair rollupClaimInfo.hash emptySiblings 0

/-- An L1 info tree with this leaf. -/
def oneInfoLeaf : L1InfoTreeDataQuerier (List UInt8) where
  getInfoByGlobalExitRoot ger :=
    if ger = calculateGER freeKeccak [] leafClaimRER then some rollupClaimInfo else none
  getL1InfoTreeMerkleProofFromIndexToRoot _ _ := some emptySiblings
  getL1InfoTreeRootByIndex _ := none
  latestL1InfoLeafIndex := none
  doesGERExistsOnL1 _ := false

theorem sound_oneInfoLeaf : oneInfoLeaf.Sound freeKeccak := by
  intro ger info hinfo
  replace hinfo : (if ger = calculateGER freeKeccak [] leafClaimRER then some rollupClaimInfo
    else none) = some info := hinfo
  by_cases hger : ger = calculateGER freeKeccak [] leafClaimRER
  · rw [if_pos hger] at hinfo
    cases hinfo
    exact ⟨hger.symm, rfl, rfl⟩
  · rw [if_neg hger] at hinfo
    cases hinfo

/-- The parts of an L1 leaf can be read from its free hash. -/
theorem freeKeccak_injective_l1Leaf :
    Function.Injective (L1InfoTreeLeafInner.hash freeKeccak) := by
  rintro ⟨ger, blockHash, timestamp⟩ ⟨ger', blockHash', timestamp'⟩ hhash
  have hbytes : freeKeccak.bytes ger ++ (freeKeccak.bytes blockHash ++
      Bytes.bigEndian 8 timestamp.toNat) = freeKeccak.bytes ger' ++ (freeKeccak.bytes blockHash' ++
      Bytes.bigEndian 8 timestamp'.toNat) := by
    simpa [L1InfoTreeLeafInner.hash, freeKeccak] using hhash
  obtain ⟨rfl, hrest⟩ := freeKeccak_bytes_append hbytes
  obtain ⟨rfl, htime⟩ := freeKeccak_bytes_append hrest
  have hnat := congrArg Bytes.toNat htime
  have hlt := timestamp.toNat_lt
  have hlt' := timestamp'.toNat_lt
  rw [Bytes.toNat_bigEndian, Bytes.toNat_bigEndian] at hnat
  obtain rfl : timestamp = timestamp' := UInt64.toNat_inj.mp (by omega)
  rfl

end AggKit.AggSender
