import AggKit.Agglayer.Types
import AggKit.BridgeSync.GlobalIndex
import AggKit.Tree.Proof
import AggKit.Lib.Exec

/-!
# Certificates, as in `agglayer/types/types.go`

A certificate has the exits that left the network since the one before it, the exits of other
networks that were claimed on it, and the local exit roots before and after. What is signed and
compared are hashes of it: every hash of this file is of the concatenated encodings of the fields, in
the order of the source.

`BuildCertificate` and the decoder of `agglayer/grpc` set every pointer inside an exit, so the model
has none there. What can be missing is the claim data of an imported exit: hashing such an exit
panics, and the hash is `none` here.
-/

namespace AggKit.Agglayer

/-- `LeafTypeAsset` of `bridgesync/types`. -/
def LeafTypeAsset : UInt8 := 0

/-- `LeafTypeMessage` of `bridgesync/types`. -/
def LeafTypeMessage : UInt8 := 1

/-- `TokenInfo`. -/
structure TokenInfo where
  originNetwork : UInt32
  originTokenAddress : Address
deriving DecidableEq

/-- `GlobalIndex`. -/
structure GlobalIndex where
  mainnetFlag : Bool
  rollupIndex : UInt32
  leafIndex : UInt32
deriving DecidableEq

/-- `BridgeExit`. The amount may be nil. -/
structure BridgeExit where
  leafType : UInt8
  tokenInfo : TokenInfo
  destinationNetwork : UInt32
  destinationAddress : Address
  amount : Option ℕ
  metadata : List UInt8
deriving DecidableEq

/-- `MerkleProof`. -/
structure MerkleProof (H : Type) where
  root : H
  proof : Vector H 32
deriving DecidableEq

/-- `L1InfoTreeLeafInner`. -/
structure L1InfoTreeLeafInner (H : Type) where
  globalExitRoot : H
  blockHash : H
  timestamp : UInt64
deriving DecidableEq

/-- `L1InfoTreeLeaf`. -/
structure L1InfoTreeLeaf (H : Type) where
  l1InfoTreeIndex : UInt32
  rollupExitRoot : H
  mainnetExitRoot : H
  inner : L1InfoTreeLeafInner H
deriving DecidableEq

/-- `ClaimFromMainnet`. -/
structure ClaimFromMainnet (H : Type) where
  proofLeafMER : MerkleProof H
  proofGERToL1Root : MerkleProof H
  l1Leaf : L1InfoTreeLeaf H
deriving DecidableEq

/-- `ClaimFromRollup`. -/
structure ClaimFromRollup (H : Type) where
  proofLeafLER : MerkleProof H
  proofLERToRER : MerkleProof H
  proofGERToL1Root : MerkleProof H
  l1Leaf : L1InfoTreeLeaf H
deriving DecidableEq

/-- `Claim`. -/
inductive Claim (H : Type) where
  | mainnet (claim : ClaimFromMainnet H)
  | rollup (claim : ClaimFromRollup H)
deriving DecidableEq

/-- `ImportedBridgeExit`. -/
structure ImportedBridgeExit (H : Type) where
  bridgeExit : BridgeExit
  claimData : Option (Claim H)
  globalIndex : GlobalIndex
deriving DecidableEq

/-- `AggchainDataProof`. The context is a map. -/
structure AggchainDataProof (H : Type) where
  proof : List UInt8
  version : String
  vkey : List UInt8
  aggchainParams : H
  context : List (String × List UInt8)
  signature : List UInt8
deriving DecidableEq

/-- `ECDSAMultisigEntry`. -/
structure ECDSAMultisigEntry where
  index : UInt32
  signature : List UInt8
deriving DecidableEq

/-- `Multisig`. -/
structure Multisig where
  signatures : List ECDSAMultisigEntry
deriving DecidableEq

/-- `AggchainData`, with the pointers of its variants. -/
inductive AggchainData (H : Type) where
  /-- `AggchainDataProof` -/
  | proof (proof : AggchainDataProof H)
  /-- `AggchainDataSignature` -/
  | signature (signature : List UInt8)
  /-- `AggchainDataMultisigWithProof` -/
  | multisigWithProof (multisig : Option Multisig) (aggchainProof : Option (AggchainDataProof H))
  /-- `AggchainDataMultisig` -/
  | multisig (multisig : Option Multisig)
deriving DecidableEq

/-- `Certificate`. -/
structure Certificate (H : Type) where
  networkID : UInt32
  height : ℕ
  prevLocalExitRoot : H
  newLocalExitRoot : H
  bridgeExits : List BridgeExit
  importedBridgeExits : List (ImportedBridgeExit H)
  customChainData : List UInt8
  aggchainData : Option (AggchainData H)
  l1InfoTreeLeafCount : UInt32
deriving DecidableEq

/-! ## Validation -/

/-- The errors of `Validate`. -/
inductive ValidateError where
  /-- `bridgeExit leaf type %d is invalid` -/
  | leafType (leafType : UInt8)
  /-- `bridge exit %d is invalid` -/
  | bridgeExit (i : ℕ) (err : ValidateError)
  /-- `imported bridge exit %d is invalid` -/
  | importedBridgeExit (i : ℕ) (err : ValidateError)
deriving DecidableEq

/-- `BridgeExit.Validate`. -/
def BridgeExit.validate (b : BridgeExit) : Except ValidateError Unit :=
  if LeafTypeMessage < b.leafType then .error (.leafType b.leafType) else .ok ()

/-- `ImportedBridgeExit.Validate`. -/
def ImportedBridgeExit.validate {H : Type} (ibe : ImportedBridgeExit H) :
    Except ValidateError Unit :=
  ibe.bridgeExit.validate

/-- The loops of `Certificate.Validate`. -/
def validateAll {α : Type} (validate : α → Except ValidateError Unit)
    (wrap : ℕ → ValidateError → ValidateError) : ℕ → List α → Except ValidateError Unit
  | _, [] => .ok ()
  | i, x :: xs =>
    match validate x with
    | .error err => .error (wrap i err)
    | .ok () => validateAll validate wrap (i + 1) xs

/-- `Certificate.Validate`. -/
def Certificate.validate {H : Type} (c : Certificate H) : Except ValidateError Unit := do
  validateAll BridgeExit.validate .bridgeExit 0 c.bridgeExits
  validateAll ImportedBridgeExit.validate .importedBridgeExit 0 c.importedBridgeExits

theorem validateAll_eq_ok_iff {α : Type} {validate : α → Except ValidateError Unit}
    {wrap : ℕ → ValidateError → ValidateError} {i : ℕ} {l : List α} :
    validateAll validate wrap i l = .ok () ↔ ∀ a ∈ l, validate a = .ok () := by
  induction l generalizing i with
  | nil => exact ⟨fun _ a ha => absurd ha List.not_mem_nil, fun _ => rfl⟩
  | cons a l ih =>
    unfold validateAll
    cases hvalid : validate a with
    | error err =>
      refine ⟨nofun, fun h => ?_⟩
      cases hvalid.symm.trans (h a List.mem_cons_self)
    | ok _ => rw [ih, List.forall_mem_cons, and_iff_right hvalid]

/-- A certificate is valid when all its exits are. -/
theorem Certificate.validate_eq_ok_iff {H : Type} {c : Certificate H} :
    c.validate = .ok () ↔ (∀ b ∈ c.bridgeExits, b.validate = .ok ()) ∧
      ∀ ibe ∈ c.importedBridgeExits, ibe.validate = .ok () := by
  unfold Certificate.validate
  rw [Exec.except_bind_ok]
  constructor
  · rintro ⟨⟨⟩, hexits, himported⟩
    exact ⟨validateAll_eq_ok_iff.mp hexits, validateAll_eq_ok_iff.mp himported⟩
  · rintro ⟨hexits, himported⟩
    exact ⟨(), validateAll_eq_ok_iff.mpr hexits, validateAll_eq_ok_iff.mpr himported⟩

/-! ## Hashes -/

/-- `GlobalIndex.ToBigInt`. -/
def GlobalIndex.toBigInt (g : GlobalIndex) : ℕ :=
  BridgeSync.generateGlobalIndex g.mainnetFlag g.rollupIndex g.leafIndex

/-- `BigIntToLittleEndianBytes` of `common`. -/
def bigIntToLittleEndianBytes (n : ℕ) : List UInt8 := (Bytes.bigEndian 32 n).reverse

/-- `Uint64ToLittleEndianBytes` of `common`. -/
def uint64ToLittleEndianBytes (n : ℕ) : List UInt8 := (Bytes.bigEndian 8 n).reverse

variable {H : Type} (K : Keccak H)

/-- `GlobalIndex.Hash`. -/
def GlobalIndex.hash (g : GlobalIndex) : H := K.sum (bigIntToLittleEndianBytes g.toBigInt)

/-- The metadata part of `BridgeExit.Hash`: `EmptyBytesHash` when there is none. -/
def BridgeExit.metaDataHash (b : BridgeExit) : List UInt8 :=
  if b.metadata.isEmpty then K.bytes (K.sum []) else b.metadata

/-- What `BridgeExit.Hash` hashes. -/
def BridgeExit.encode (b : BridgeExit) : List UInt8 :=
  [b.leafType] ++ Bytes.bigEndian 4 b.tokenInfo.originNetwork.toNat ++
    b.tokenInfo.originTokenAddress.toList ++ Bytes.bigEndian 4 b.destinationNetwork.toNat ++
    b.destinationAddress.toList ++ Bytes.bigEndian 32 (b.amount.getD 0) ++ b.metaDataHash K

/-- `BridgeExit.Hash`: the zero hash for an exit that is not valid. -/
def BridgeExit.hash (b : BridgeExit) : H :=
  match b.validate with
  | .error _ => K.zero
  | .ok () => K.sum (b.encode K)

/-- `MerkleProof.Hash`. -/
def MerkleProof.hash (m : MerkleProof H) : H :=
  K.sum (K.bytes m.root ++ m.proof.toList.flatMap K.bytes)

/-- `L1InfoTreeLeafInner.Hash`. -/
def L1InfoTreeLeafInner.hash (l : L1InfoTreeLeafInner H) : H :=
  K.sum (K.bytes l.globalExitRoot ++ K.bytes l.blockHash ++ Bytes.bigEndian 8 l.timestamp.toNat)

/-- `L1InfoTreeLeaf.Hash`: the index and the exit roots are not hashed. -/
def L1InfoTreeLeaf.hash (l : L1InfoTreeLeaf H) : H := l.inner.hash K

/-- `ClaimFromMainnet.Hash`. -/
def ClaimFromMainnet.hash (c : ClaimFromMainnet H) : H :=
  K.sum (K.bytes (c.proofLeafMER.hash K) ++ K.bytes (c.proofGERToL1Root.hash K) ++
    K.bytes (c.l1Leaf.hash K))

/-- `ClaimFromRollup.Hash`. -/
def ClaimFromRollup.hash (c : ClaimFromRollup H) : H :=
  K.sum (K.bytes (c.proofLeafLER.hash K) ++ K.bytes (c.proofLERToRER.hash K) ++
    K.bytes (c.proofGERToL1Root.hash K) ++ K.bytes (c.l1Leaf.hash K))

/-- `Claim.Hash`. -/
def Claim.hash : Claim H → H
  | .mainnet claim => claim.hash K
  | .rollup claim => claim.hash K

/-- `ImportedBridgeExit.Hash`. -/
def ImportedBridgeExit.hash (ibe : ImportedBridgeExit H) : Option H :=
  ibe.claimData.map fun claim =>
    K.sum (K.bytes (ibe.bridgeExit.hash K) ++ K.bytes (claim.hash K) ++
      K.bytes (ibe.globalIndex.hash K))

/-- `CertificateID`. -/
def Certificate.certificateID (c : Certificate H) : Option H :=
  (c.importedBridgeExits.mapM (ImportedBridgeExit.hash K)).map fun importedBridgeExitsHashes =>
    K.sum (Bytes.bigEndian 4 c.networkID.toNat ++ Bytes.bigEndian 8 c.height ++
      K.bytes c.prevLocalExitRoot ++ K.bytes c.newLocalExitRoot ++
      K.bytes (K.sum ((c.bridgeExits.map (BridgeExit.hash K)).flatMap K.bytes)) ++
      K.bytes (K.sum (importedBridgeExitsHashes.flatMap K.bytes)) ++ K.bytes K.zero)

/-- `ExtractAggchainParams`. -/
def Certificate.extractAggchainParams (c : Certificate H) : List UInt8 :=
  match c.aggchainData with
  | some (.proof data) => K.bytes data.aggchainParams
  | some (.multisigWithProof _ (some proof)) => K.bytes proof.aggchainParams
  | _ => K.bytes K.zero

/-- `HashCertificateToSign` of `aggsender/validator/cert_hash.go`. -/
def hashCertificateToSign (c : Certificate H) : Except ValidateError (Option H) := do
  c.validate
  let claimsRawMetadata := c.importedBridgeExits.flatMap fun ibe =>
    bigIntToLittleEndianBytes ibe.globalIndex.toBigInt ++ K.bytes (ibe.bridgeExit.hash K)
  return (c.certificateID K).map fun id =>
    K.sum (K.bytes c.newLocalExitRoot ++ K.bytes (K.sum claimsRawMetadata) ++
      uint64ToLittleEndianBytes c.height ++ c.extractAggchainParams K ++ K.bytes id)

end AggKit.Agglayer
