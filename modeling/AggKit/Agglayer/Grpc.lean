import AggKit.Agglayer.Certificate

/-!
# Certificates on the wire, as in `agglayer/grpc`

`ConvertCertToProtoCertificate` turns a certificate into the message that is sent,
`ConvertProtoCertToAgglayer` a message that was received into a certificate. The two are written
independently of each other.

A message has pointers where a field may be missing: `Option`, here. The values of the messages
`FixedBytes20`, `FixedBytes32` and `FixedBytes65` are bytes of any number; the decoder brings those of
hashes and addresses to their width. The types of the messages are generated and not part of the
repository; only the fields that one of the two functions uses are listed.
-/

namespace AggKit.Agglayer

namespace Grpc

/-- `v1types.LeafType`. -/
inductive LeafType where
  | unspecified
  | transfer
  | message
deriving DecidableEq

/-- The value of a `FixedBytes20`, `FixedBytes32` or `FixedBytes65`. -/
abbrev FixedBytes := List UInt8

/-- `v1types.TokenInfo`. -/
structure TokenInfo where
  originNetwork : UInt32
  originTokenAddress : Option FixedBytes
deriving DecidableEq

/-- `v1types.BridgeExit`. -/
structure BridgeExit where
  leafType : LeafType
  tokenInfo : Option TokenInfo
  destNetwork : UInt32
  destAddress : Option FixedBytes
  amount : Option FixedBytes
  metadata : Option FixedBytes
deriving DecidableEq

/-- `v1types.MerkleProof`. -/
structure MerkleProof where
  root : Option FixedBytes
  siblings : List FixedBytes
deriving DecidableEq

/-- `v1types.L1InfoTreeLeaf`. -/
structure L1InfoTreeLeaf where
  globalExitRoot : Option FixedBytes
  blockHash : Option FixedBytes
  timestamp : UInt64
deriving DecidableEq

/-- `v1types.L1InfoTreeLeafWithContext`. -/
structure L1InfoTreeLeafWithContext where
  l1InfoTreeIndex : UInt32
  rer : Option FixedBytes
  mer : Option FixedBytes
  inner : Option L1InfoTreeLeaf
deriving DecidableEq

/-- The variants of the field `Claim` of an imported exit. -/
inductive Claim where
  /-- `v1types.ClaimFromMainnet` -/
  | mainnet (proofLeafMer proofGerL1Root : Option MerkleProof)
      (l1Leaf : Option L1InfoTreeLeafWithContext)
  /-- `v1types.ClaimFromRollup` -/
  | rollup (proofLeafLer proofLerRer proofGerL1Root : Option MerkleProof)
      (l1Leaf : Option L1InfoTreeLeafWithContext)
deriving DecidableEq

/-- `v1types.ImportedBridgeExit`. -/
structure ImportedBridgeExit where
  bridgeExit : Option BridgeExit
  globalIndex : Option FixedBytes
  claim : Option Claim
deriving DecidableEq

/-- `v1types.SP1StarkProof`. -/
structure SP1StarkProof where
  version : String
  proof : List UInt8
  vkey : List UInt8
deriving DecidableEq

/-- `v1types.AggchainProof`. The proof is a variant that may be missing, of a pointer. -/
structure AggchainProof where
  proof : Option (Option SP1StarkProof)
  aggchainParams : Option FixedBytes
  context : List (String × List UInt8)
  signature : Option FixedBytes
deriving DecidableEq

/-- `v1types.ECDSAMultisig_ECDSAMultisigEntry`. -/
structure ECDSAMultisigEntry where
  signature : FixedBytes
  index : UInt32
deriving DecidableEq

/-- `v1types.Multisig`. Its data is a variant that may be missing, of a pointer to the entries. -/
structure Multisig where
  data : Option (Option (List ECDSAMultisigEntry))
deriving DecidableEq

/-- The variants of `v1types.AggchainData`. -/
inductive AggchainData where
  | generic (generic : Option AggchainProof)
  | signature (signature : Option FixedBytes)
  | multisig (multisig : Option Multisig)
  /-- A pointer to an `AggchainProofWithMultisig`. -/
  | multisigAndAggchainProof (data : Option (Option Multisig × Option AggchainProof))
deriving DecidableEq

/-- `v1nodetypes.Certificate`. The aggchain data is a pointer to a variant that may be missing. -/
structure Certificate where
  networkId : UInt32
  height : ℕ
  l1InfoTreeLeafCount : Option UInt32
  prevLocalExitRoot : Option FixedBytes
  newLocalExitRoot : Option FixedBytes
  customChainData : List UInt8
  aggchainData : Option (Option AggchainData)
  bridgeExits : List (Option BridgeExit)
  importedBridgeExits : List (Option ImportedBridgeExit)
deriving DecidableEq

end Grpc

/-! ## To the wire -/

/-- `leafTypeToProto`. -/
def leafTypeToProto (leafType : UInt8) : Grpc.LeafType :=
  if leafType = LeafTypeAsset then .transfer
  else if leafType = LeafTypeMessage then .message
  else .unspecified

/-- `convertToProtoBridgeExit`. -/
def convertToProtoBridgeExit (be : BridgeExit) : Grpc.BridgeExit where
  leafType := leafTypeToProto be.leafType
  destNetwork := be.destinationNetwork
  destAddress := some be.destinationAddress.toList
  tokenInfo := some
    { originNetwork := be.tokenInfo.originNetwork
      originTokenAddress := some be.tokenInfo.originTokenAddress.toList }
  amount := be.amount.map (Bytes.bigEndian 32)
  metadata := if be.metadata.isEmpty then none else some (Bytes.fit 32 be.metadata).toList

/-- `convertToProtoSiblings`. -/
def convertToProtoSiblings (siblings : Vector Hash 32) : List Grpc.FixedBytes :=
  siblings.toList.map Vector.toList

/-- The messages for the Merkle proofs in `convertToProtoImportedBridgeExit`. -/
def convertToProtoMerkleProof (proof : MerkleProof Hash) : Grpc.MerkleProof where
  root := some proof.root.toList
  siblings := convertToProtoSiblings proof.proof

/-- The messages for the leaves in `convertToProtoImportedBridgeExit`. -/
def convertToProtoL1Leaf (l1Leaf : L1InfoTreeLeaf Hash) : Grpc.L1InfoTreeLeafWithContext where
  l1InfoTreeIndex := l1Leaf.l1InfoTreeIndex
  rer := some l1Leaf.rollupExitRoot.toList
  mer := some l1Leaf.mainnetExitRoot.toList
  inner := some
    { globalExitRoot := some l1Leaf.inner.globalExitRoot.toList
      blockHash := some l1Leaf.inner.blockHash.toList
      timestamp := l1Leaf.inner.timestamp }

/-- The messages for the claim data in `convertToProtoImportedBridgeExit`. -/
def convertToProtoClaim : Claim Hash → Grpc.Claim
  | .mainnet claim =>
    .mainnet (some (convertToProtoMerkleProof claim.proofLeafMER))
      (some (convertToProtoMerkleProof claim.proofGERToL1Root))
      (some (convertToProtoL1Leaf claim.l1Leaf))
  | .rollup claim =>
    .rollup (some (convertToProtoMerkleProof claim.proofLeafLER))
      (some (convertToProtoMerkleProof claim.proofLERToRER))
      (some (convertToProtoMerkleProof claim.proofGERToL1Root))
      (some (convertToProtoL1Leaf claim.l1Leaf))

/-- The errors of `ConvertCertToProtoCertificate`. -/
inductive EncodeError where
  /-- `invalid claim type` -/
  | invalidClaimType
deriving DecidableEq

/-- `convertToProtoImportedBridgeExit`. -/
def convertToProtoImportedBridgeExit (ibe : ImportedBridgeExit Hash) :
    Except EncodeError Grpc.ImportedBridgeExit :=
  match ibe.claimData with
  | none => .error .invalidClaimType
  | some claimData => .ok
    { bridgeExit := some (convertToProtoBridgeExit ibe.bridgeExit)
      globalIndex := some (Bytes.bigEndian 32 ibe.globalIndex.toBigInt)
      claim := some (convertToProtoClaim claimData) }

/-- `convertAggchainDataProofToProto`. -/
def convertAggchainDataProofToProto (proof : AggchainDataProof Hash) : Grpc.AggchainProof where
  proof := some (some { version := proof.version, proof := proof.proof, vkey := proof.vkey })
  aggchainParams := some proof.aggchainParams.toList
  context := proof.context
  signature := some proof.signature

/-- `convertMultisigToProtoMultisig`. -/
def convertMultisigToProtoMultisig (multisig : Multisig) : Grpc.Multisig where
  data := some (some (multisig.signatures.map fun entry =>
    { signature := entry.signature, index := entry.index }))

/-- `convertAggchainData`. -/
def convertAggchainData : AggchainData Hash → Grpc.AggchainData
  | .proof proof => .generic (some (convertAggchainDataProofToProto proof))
  | .signature signature => .signature (some signature)
  | .multisigWithProof multisig aggchainProof =>
    .multisigAndAggchainProof (some (multisig.map convertMultisigToProtoMultisig,
      aggchainProof.map convertAggchainDataProofToProto))
  | .multisig multisig => .multisig (multisig.map convertMultisigToProtoMultisig)

/-- `ConvertCertToProtoCertificate`. -/
def convertCertToProtoCertificate (certificate : Certificate Hash) :
    Except EncodeError Grpc.Certificate := do
  let importedBridgeExits ← certificate.importedBridgeExits.mapM convertToProtoImportedBridgeExit
  return {
    networkId := certificate.networkID
    height := certificate.height
    l1InfoTreeLeafCount := some certificate.l1InfoTreeLeafCount
    prevLocalExitRoot := some certificate.prevLocalExitRoot.toList
    newLocalExitRoot := some certificate.newLocalExitRoot.toList
    customChainData := certificate.customChainData
    aggchainData := certificate.aggchainData.map fun data => some (convertAggchainData data)
    bridgeExits := certificate.bridgeExits.map fun be => some (convertToProtoBridgeExit be)
    importedBridgeExits := importedBridgeExits.map some }

/-! ## From the wire -/

/-- The errors of `ConvertProtoCertToAgglayer`. -/
inductive DecodeError where
  /-- `Certificate has nil fields: PrevLocalExitRoot or NewLocalExitRoot` -/
  | nilExitRoot
  /-- `Certificate has nil L1InfoTreeLeafCount` -/
  | nilLeafCount
  /-- `bridge exit is nil` -/
  | nilBridgeExit
  /-- `unknown leaf type` -/
  | unknownLeafType (leafType : Grpc.LeafType)
  /-- `bridge exit has nil TokenInfo, OriginTokenAddress or OriginNetwork` -/
  | nilTokenInfo
  /-- `bridge exit has nil DestAddress` -/
  | nilDestAddress
  /-- `imported bridge exit is nil` -/
  | nilImportedBridgeExit
  /-- `imported bridge exit has nil GlobalIndex or Hash` -/
  | nilGlobalIndex
  /-- `unknown claim type` -/
  | unknownClaimType
  /-- `proof is nil` -/
  | nilProof
  /-- `proof has nil Root or Siblings` -/
  | nilRootOrSiblings
  /-- `proof has invalid number of siblings` -/
  | numberOfSiblings (n : ℕ)
  /-- `l1 leaf is nil` -/
  | nilL1Leaf
  /-- `l1 leaf has nil Rer or Mer or Inner` -/
  | nilL1LeafField
  /-- `l1 leaf inner has nil GlobalExitRoot or BlockHash` -/
  | nilL1LeafInnerField
  /-- `aggchain data has nil Signature` -/
  | nilSignature
  /-- `aggchain data has nil MultisigAndAggchainProof` -/
  | nilMultisigAndAggchainProof
  /-- `multisig is nil` -/
  | nilMultisig
  /-- `expected Ecdsa multisig` -/
  | expectedEcdsa
  /-- `multisig Ecdsa is nil` -/
  | nilEcdsa
  /-- `aggchain proof is nil` -/
  | nilAggchainProof
  /-- `expected Sp1Stark proof` -/
  | expectedSp1Stark
  /-- `aggchain data has nil Sp1Stark proof` -/
  | nilSp1Stark
  /-- `aggchain data has nil AggchainParams` -/
  | nilAggchainParams
deriving DecidableEq

/-- `common.BytesToHash`. -/
def bytesToHash (b : Grpc.FixedBytes) : Hash := Bytes.fit 32 b

/-- `common.BytesToAddress`. -/
def bytesToAddress (b : Grpc.FixedBytes) : Address := Bytes.fit 20 b

/-- `grpcLeafTypeToAgglayer`. -/
def grpcLeafTypeToAgglayer : Grpc.LeafType → Except DecodeError UInt8
  | .transfer => .ok LeafTypeAsset
  | .message => .ok LeafTypeMessage
  | .unspecified => .error (.unknownLeafType .unspecified)

/-- `grpcBridgeExitToAgglayer`. -/
def grpcBridgeExitToAgglayer : Option Grpc.BridgeExit → Except DecodeError BridgeExit
  | none => .error .nilBridgeExit
  | some bridgeExit => do
    let leafType ← grpcLeafTypeToAgglayer bridgeExit.leafType
    match bridgeExit.tokenInfo with
    | some ⟨originNetwork, some originTokenAddress⟩ =>
      match bridgeExit.destAddress with
      | some destAddress =>
        return {
          leafType := leafType
          tokenInfo :=
            { originTokenAddress := bytesToAddress originTokenAddress
              originNetwork := originNetwork }
          destinationNetwork := bridgeExit.destNetwork
          destinationAddress := bytesToAddress destAddress
          amount := some ((bridgeExit.amount.map Bytes.toNat).getD 0)
          metadata := bridgeExit.metadata.getD [] }
      | none => throw .nilDestAddress
    | _ => throw .nilTokenInfo

/-- `grpcMerkleProofToAgglayer`. -/
def grpcMerkleProofToAgglayer : Option Grpc.MerkleProof → Except DecodeError (MerkleProof Hash)
  | none => .error .nilProof
  | some ⟨none, _⟩ => .error .nilRootOrSiblings
  | some ⟨some root, siblings⟩ =>
    if siblings.isEmpty then .error .nilRootOrSiblings
    else if hlen : siblings.length = 32 then
      .ok
        { root := bytesToHash root
          proof := ⟨(siblings.map bytesToHash).toArray, by simpa using hlen⟩ }
    else .error (.numberOfSiblings siblings.length)

/-- `grpcL1LeafToAgglayer`. -/
def grpcL1LeafToAgglayer :
    Option Grpc.L1InfoTreeLeafWithContext → Except DecodeError (L1InfoTreeLeaf Hash)
  | none => .error .nilL1Leaf
  | some ⟨l1InfoTreeIndex, some rer, some mer, some inner⟩ =>
    match inner with
    | ⟨some globalExitRoot, some blockHash, timestamp⟩ => .ok
      { l1InfoTreeIndex := l1InfoTreeIndex
        rollupExitRoot := bytesToHash rer
        mainnetExitRoot := bytesToHash mer
        inner :=
          { globalExitRoot := bytesToHash globalExitRoot
            blockHash := bytesToHash blockHash
            timestamp := timestamp } }
    | _ => .error .nilL1LeafInnerField
  | _ => .error .nilL1LeafField

/-- `grpcClaimDataToAgglayer`. -/
def grpcClaimDataToAgglayer : Option Grpc.Claim → Except DecodeError (Claim Hash)
  | some (.mainnet proofLeafMer proofGerL1Root l1Leaf) => do
    let proofLeafMER ← grpcMerkleProofToAgglayer proofLeafMer
    let proofGERToL1Root ← grpcMerkleProofToAgglayer proofGerL1Root
    let l1Leaf ← grpcL1LeafToAgglayer l1Leaf
    return .mainnet
      { proofLeafMER := proofLeafMER, proofGERToL1Root := proofGERToL1Root, l1Leaf := l1Leaf }
  | some (.rollup proofLeafLer proofLerRer proofGerL1Root l1Leaf) => do
    let proofLeafLER ← grpcMerkleProofToAgglayer proofLeafLer
    let proofLERToRER ← grpcMerkleProofToAgglayer proofLerRer
    let proofGERToL1Root ← grpcMerkleProofToAgglayer proofGerL1Root
    let l1Leaf ← grpcL1LeafToAgglayer l1Leaf
    return .rollup
      { proofLeafLER := proofLeafLER
        proofLERToRER := proofLERToRER
        proofGERToL1Root := proofGERToL1Root
        l1Leaf := l1Leaf }
  | none => .error .unknownClaimType

/-- `grpcImportedBridgeExitToAgglayer`. -/
def grpcImportedBridgeExitToAgglayer :
    Option Grpc.ImportedBridgeExit → Except DecodeError (ImportedBridgeExit Hash)
  | none => .error .nilImportedBridgeExit
  | some importedBridgeExit => do
    let bridgeExit ← grpcBridgeExitToAgglayer importedBridgeExit.bridgeExit
    match importedBridgeExit.globalIndex with
    | none => throw .nilGlobalIndex
    | some globalIndex =>
      let (mainnetFlag, rollupIndex, leafIndex) :=
        BridgeSync.decodeGlobalIndex (Bytes.toNat globalIndex)
      let claimData ← grpcClaimDataToAgglayer importedBridgeExit.claim
      return {
        bridgeExit := bridgeExit
        globalIndex :=
          { mainnetFlag := mainnetFlag, rollupIndex := rollupIndex, leafIndex := leafIndex }
        claimData := some claimData }

/-- `grpcMultisigToAgglayer`. -/
def grpcMultisigToAgglayer : Option Grpc.Multisig → Except DecodeError Multisig
  | none => .error .nilMultisig
  | some ⟨none⟩ => .error .expectedEcdsa
  | some ⟨some none⟩ => .error .nilEcdsa
  | some ⟨some (some signatures)⟩ => .ok
    { signatures := signatures.map fun sig => { signature := sig.signature, index := sig.index } }

/-- `grpcAggchainProofToAgglayer`. -/
def grpcAggchainProofToAgglayer :
    Option Grpc.AggchainProof → Except DecodeError (AggchainDataProof Hash)
  | none => .error .nilAggchainProof
  | some aggchainProof =>
    match aggchainProof.proof with
    | none => .error .expectedSp1Stark
    | some none => .error .nilSp1Stark
    | some (some sp1Stark) =>
      match aggchainProof.aggchainParams with
      | none => .error .nilAggchainParams
      | some aggchainParams =>
        match aggchainProof.signature with
        | none => .error .nilSignature
        | some signature => .ok
          { proof := sp1Stark.proof
            version := sp1Stark.version
            vkey := sp1Stark.vkey
            aggchainParams := bytesToHash aggchainParams
            context := aggchainProof.context
            signature := signature }

/-- `grpcAggchainDataToAgglayer`. -/
def grpcAggchainDataToAgglayer :
    Option (Option Grpc.AggchainData) → Except DecodeError (Option (AggchainData Hash))
  | none | some none => .ok none
  | some (some (.signature none)) => .error .nilSignature
  | some (some (.signature (some signature))) => .ok (some (.signature signature))
  | some (some (.generic generic)) => do
    let proof ← grpcAggchainProofToAgglayer generic
    return some (.proof proof)
  | some (some (.multisig multisig)) => do
    let multisig ← grpcMultisigToAgglayer multisig
    return some (.multisig (some multisig))
  | some (some (.multisigAndAggchainProof none)) => .error .nilMultisigAndAggchainProof
  | some (some (.multisigAndAggchainProof (some (multisig, aggchainProof)))) => do
    let aggchainProof ← grpcAggchainProofToAgglayer aggchainProof
    let multisig ← grpcMultisigToAgglayer multisig
    return some (.multisigWithProof (some multisig) (some aggchainProof))

/-- `ConvertProtoCertToAgglayer`. -/
def convertProtoCertToAgglayer (cert : Grpc.Certificate) : Except DecodeError (Certificate Hash) :=
  match cert.prevLocalExitRoot, cert.newLocalExitRoot with
  | some prevLocalExitRoot, some newLocalExitRoot =>
    match cert.l1InfoTreeLeafCount with
    | none => .error .nilLeafCount
    | some l1InfoTreeLeafCount => do
      let aggchainData ← grpcAggchainDataToAgglayer cert.aggchainData
      let bridgeExits ← cert.bridgeExits.mapM grpcBridgeExitToAgglayer
      let importedBridgeExits ← cert.importedBridgeExits.mapM grpcImportedBridgeExitToAgglayer
      return {
        networkID := cert.networkId
        height := cert.height
        prevLocalExitRoot := bytesToHash prevLocalExitRoot
        newLocalExitRoot := bytesToHash newLocalExitRoot
        customChainData := cert.customChainData
        l1InfoTreeLeafCount := l1InfoTreeLeafCount
        bridgeExits := bridgeExits
        importedBridgeExits := importedBridgeExits
        aggchainData := aggchainData }
  | _, _ => .error .nilExitRoot

end AggKit.Agglayer
