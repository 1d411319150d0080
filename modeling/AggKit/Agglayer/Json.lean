import AggKit.Agglayer.Certificate
import AggKit.Lib.JsonTree

/-!
# Certificates as JSON, as in `agglayer/types/types.go`

A certificate is stored as JSON and read back. The types that do not encode themselves are written
field by field, as `json.Marshal` does; the exits, the proofs, the claims and the aggchain data encode
themselves, and which claim or which aggchain data is read back is chosen by the key that is found.

`NilSlices` says which of the slices and maps that are empty are nil: `null` is written for these, and
both are read back as the empty list. A map is the list of its entries. A decoded pointer that the
certificates of the model have no nil for is an error here.
-/

namespace AggKit.Agglayer

open TextEncoding JsonTree

/-- Which empty slices and maps of a certificate are nil. -/
structure NilSlices where
  bridgeExits : Bool
  importedBridgeExits : Bool
  signatures : Bool
  context : Bool
  contextValue : String → Bool

/-- `common.Bytes2Hex`. -/
def bytes2Hex (bs : List UInt8) : String := String.ofList (hexEncode bs)

/-- `common.Hex2Bytes`, which ignores the error of the decoder. -/
def hex2Bytes (s : String) : List UInt8 := hexDecodeInit s.toList

/-- `common.FromHex`. -/
def fromHex (s : String) : List UInt8 :=
  let digits := match s.toList with
    | '0' :: 'x' :: rest | '0' :: 'X' :: rest => rest
    | cs => cs
  hexDecodeInit (if digits.length % 2 = 1 then '0' :: digits else digits)

/-- `common.HexToHash`. -/
def hexToHash (s : String) : Hash := Bytes.fit 32 (fromHex s)

/-- A `common.Hash` or a `common.Address`, which encode themselves. -/
def hexJSON {n : ℕ} (v : Vector UInt8 n) : JsonTree := .str (hexText v)

/-! ## Exits -/

/-- `LeafType.String`, which panics for other leaf types. -/
def leafTypeString (l : UInt8) : Option String := ["Transfer", "Message"][l.toNat]?

/-- The number at the start of a string, as `Sscanf` reads it. -/
def scanNat (s : String) : Option ℕ := decimalDecode (s.toList.takeWhile Char.isDigit)

/-- The numeric part of `LeafType.UnmarshalJSON`. -/
def leafTypeOfNat (raw : String) : Option ℕ → Except JsonTree.DecodeError UInt8
  | none => .error (.message ("invalid LeafType: " ++ raw))
  | some value =>
    if 255 < value then .error (.message ("invalid LeafType: " ++ raw ++ " out of uint8 range"))
    else .ok (UInt8.ofNat value)

/-- `LeafType.UnmarshalJSON`. -/
def leafTypeUnmarshalJSON : JsonTree → Except JsonTree.DecodeError UInt8
  | .str s =>
    if s = "Transfer" then .ok LeafTypeAsset
    else if s = "Message" then .ok LeafTypeMessage
    else leafTypeOfNat s (scanNat s)
  | .num n => leafTypeOfNat (toString n) (some n)
  | _ => .error (.message "invalid LeafType: ")

/-- `TokenInfo`, field by field. -/
def TokenInfo.marshalJSON (t : TokenInfo) : JsonTree :=
  .obj [("origin_network", .num t.originNetwork.toNat),
    ("origin_token_address", hexJSON t.originTokenAddress)]

def TokenInfo.unmarshalJSON (j : JsonTree) : Except JsonTree.DecodeError TokenInfo := do
  let fields ← j.object
  let originNetwork ← field fields "origin_network" (.ok 0) uint32
  let originTokenAddress ← field fields "origin_token_address" (.ok ZeroAddress) (fixedHex 20)
  return ⟨originNetwork, originTokenAddress⟩

/-- `Int.String` of `math/big`. -/
def amountString : Option ℕ → String
  | none => "<nil>"
  | some n => String.ofList (decimalEncode n)

/-- `Int.SetString` as `BridgeExit.UnmarshalJSON` calls it. The amounts that are written have no
sign. -/
def setString : List Char → Option ℕ
  | '0' :: 'x' :: digits | '0' :: 'X' :: digits => if digits = [] then none else hexNat digits
  | digits => decimalDecode digits

/-- The amount in `BridgeExit.UnmarshalJSON`. -/
def amountOfString (s : String) : Except JsonTree.DecodeError (Option ℕ) :=
  if "nil".toList <:+: s.toList then .ok none
  else
    match setString s.toList with
    | some amount => .ok (some amount)
    | none => .error (.message ("failed to convert amount to big.Int: " ++ s))

/-- The metadata in `BridgeExit.UnmarshalJSON`. -/
def metadataOf : JsonTree → List UInt8
  | .str s => hex2Bytes s
  | _ => []

/-- `BridgeExit.MarshalJSON`. -/
def BridgeExit.marshalJSON (b : BridgeExit) : Option JsonTree := do
  let leafType ← leafTypeString b.leafType
  return .obj [("leaf_type", .str leafType), ("token_info", b.tokenInfo.marshalJSON),
    ("dest_network", .num b.destinationNetwork.toNat), ("dest_address", hexJSON b.destinationAddress),
    ("amount", .str (amountString b.amount)),
    ("metadata", if b.metadata.isEmpty then .null else .str (bytes2Hex b.metadata))]

/-- `BridgeExit.UnmarshalJSON`. -/
def BridgeExit.unmarshalJSON (j : JsonTree) : Except JsonTree.DecodeError BridgeExit := do
  let aux ← j.object
  let leafType ← field aux "leaf_type" (.ok 0) leafTypeUnmarshalJSON
  let tokenInfo ← field aux "token_info" (.error .nil) (required TokenInfo.unmarshalJSON)
  let destinationNetwork ← field aux "dest_network" (.ok 0) uint32
  let destinationAddress ← field aux "dest_address" (.ok ZeroAddress) (fixedHex 20)
  let amount ← field aux "amount" (.ok "") string
  let metadata ← field aux "metadata" (.ok []) fun v => .ok (metadataOf v)
  let amount ← amountOfString amount
  return ⟨leafType, tokenInfo, destinationNetwork, destinationAddress, amount, metadata⟩

/-! ## Proofs and claims -/

/-- `common.Hash{}`. -/
def zeroHash : Hash := Vector.replicate 32 0

/-- `MerkleProof.MarshalJSON`. -/
def MerkleProof.marshalJSON (m : MerkleProof Hash) : JsonTree :=
  .obj [("root", hexJSON m.root),
    ("proof", .obj [("siblings", .arr (m.proof.toList.map hexJSON))])]

/-- `MerkleProof.UnmarshalJSON`. -/
def MerkleProof.unmarshalJSON (j : JsonTree) : Except JsonTree.DecodeError (MerkleProof Hash) := do
  let aux ← j.object
  let root ← field aux "root" (.ok zeroHash) (fixedHex 32)
  let proof ← field aux "proof" (.ok []) (entries (array 32 zeroHash (fixedHex 32)))
  return ⟨root, (proof.lookup "siblings").getD (Vector.replicate 32 zeroHash)⟩

/-- `L1InfoTreeLeafInner`, field by field. -/
def L1InfoTreeLeafInner.marshalJSON (l : L1InfoTreeLeafInner Hash) : JsonTree :=
  .obj [("global_exit_root", hexJSON l.globalExitRoot), ("block_hash", hexJSON l.blockHash),
    ("timestamp", .num l.timestamp.toNat)]

def L1InfoTreeLeafInner.unmarshalJSON (j : JsonTree) :
    Except JsonTree.DecodeError (L1InfoTreeLeafInner Hash) := do
  let fields ← j.object
  let globalExitRoot ← field fields "global_exit_root" (.ok zeroHash) (fixedHex 32)
  let blockHash ← field fields "block_hash" (.ok zeroHash) (fixedHex 32)
  let timestamp ← field fields "timestamp" (.ok 0) uint64
  return ⟨globalExitRoot, blockHash, timestamp⟩

/-- `L1InfoTreeLeaf`, field by field. -/
def L1InfoTreeLeaf.marshalJSON (l : L1InfoTreeLeaf Hash) : JsonTree :=
  .obj [("l1_info_tree_index", .num l.l1InfoTreeIndex.toNat), ("rer", hexJSON l.rollupExitRoot),
    ("mer", hexJSON l.mainnetExitRoot), ("inner", l.inner.marshalJSON)]

def L1InfoTreeLeaf.unmarshalJSON (j : JsonTree) :
    Except JsonTree.DecodeError (L1InfoTreeLeaf Hash) := do
  let fields ← j.object
  let l1InfoTreeIndex ← field fields "l1_info_tree_index" (.ok 0) uint32
  let rollupExitRoot ← field fields "rer" (.ok zeroHash) (fixedHex 32)
  let mainnetExitRoot ← field fields "mer" (.ok zeroHash) (fixedHex 32)
  let inner ← field fields "inner" (.error .nil) (required L1InfoTreeLeafInner.unmarshalJSON)
  return ⟨l1InfoTreeIndex, rollupExitRoot, mainnetExitRoot, inner⟩

/-- `ClaimFromMainnet.MarshalJSON`. The keys of a map are written in their order. -/
def ClaimFromMainnet.marshalJSON (c : ClaimFromMainnet Hash) : JsonTree :=
  .obj [("Mainnet", .obj [("l1_leaf", c.l1Leaf.marshalJSON),
    ("proof_ger_l1root", c.proofGERToL1Root.marshalJSON),
    ("proof_leaf_mer", c.proofLeafMER.marshalJSON)])]

/-- A pointer to a proof in the JSON of a claim. -/
def proofField (child : List (String × JsonTree)) (key : String) :
    Except JsonTree.DecodeError (MerkleProof Hash) :=
  field child key (.error .nil) (required MerkleProof.unmarshalJSON)

/-- The pointer to the L1 leaf in the JSON of a claim. -/
def l1LeafField (child : List (String × JsonTree)) :
    Except JsonTree.DecodeError (L1InfoTreeLeaf Hash) :=
  field child "l1_leaf" (.error .nil) (required L1InfoTreeLeaf.unmarshalJSON)

/-- The subobject that a claim is decoded from. -/
def subobject (type : String) (j : JsonTree) :
    Except JsonTree.DecodeError (List (String × JsonTree)) := do
  let claimData ← j.object
  field claimData type (.ok []) object

/-- `ClaimFromMainnet.UnmarshalJSON`. -/
def ClaimFromMainnet.unmarshalJSON (j : JsonTree) :
    Except JsonTree.DecodeError (ClaimFromMainnet Hash) :=
  Except.mapError (.wrap "failed to unmarshal the subobject") do
    let child ← subobject "Mainnet" j
    let proofLeafMER ← proofField child "proof_leaf_mer"
    let proofGERToL1Root ← proofField child "proof_ger_l1root"
    let l1Leaf ← l1LeafField child
    return ⟨proofLeafMER, proofGERToL1Root, l1Leaf⟩

/-- `ClaimFromRollup.MarshalJSON`. -/
def ClaimFromRollup.marshalJSON (c : ClaimFromRollup Hash) : JsonTree :=
  .obj [("Rollup", .obj [("l1_leaf", c.l1Leaf.marshalJSON),
    ("proof_ger_l1root", c.proofGERToL1Root.marshalJSON),
    ("proof_leaf_ler", c.proofLeafLER.marshalJSON),
    ("proof_ler_rer", c.proofLERToRER.marshalJSON)])]

/-- `ClaimFromRollup.UnmarshalJSON`. -/
def ClaimFromRollup.unmarshalJSON (j : JsonTree) :
    Except JsonTree.DecodeError (ClaimFromRollup Hash) :=
  Except.mapError (.wrap "failed to unmarshal the subobject") do
    let child ← subobject "Rollup" j
    let proofLeafLER ← proofField child "proof_leaf_ler"
    let proofLERToRER ← proofField child "proof_ler_rer"
    let proofGERToL1Root ← proofField child "proof_ger_l1root"
    let l1Leaf ← l1LeafField child
    return ⟨proofLeafLER, proofLERToRER, proofGERToL1Root, l1Leaf⟩

def Claim.marshalJSON : Claim Hash → JsonTree
  | .mainnet c => c.marshalJSON
  | .rollup c => c.marshalJSON

/-- The object that a selector looks for keys in. -/
def keys : JsonTree → Except JsonTree.DecodeError (List (String × JsonTree))
  | .obj fields => .ok fields
  | _ => .error .type

/-- `ClaimSelector.UnmarshalJSON` and `GetObject`. -/
def claimSelector : JsonTree → Except JsonTree.DecodeError (Option (Claim Hash))
  | .null => .ok none
  | j => do
    let obj ← keys j
    if (get? obj "Mainnet").isSome then
      (ClaimFromMainnet.unmarshalJSON j).map fun c => some (.mainnet c)
    else if (get? obj "Rollup").isSome then
      (ClaimFromRollup.unmarshalJSON j).map fun c => some (.rollup c)
    else .error (.message "invalid claim type")

/-- `GlobalIndex`, field by field. -/
def GlobalIndex.marshalJSON (g : GlobalIndex) : JsonTree :=
  .obj [("mainnet_flag", .bool g.mainnetFlag), ("rollup_index", .num g.rollupIndex.toNat),
    ("leaf_index", .num g.leafIndex.toNat)]

def GlobalIndex.unmarshalJSON (j : JsonTree) : Except JsonTree.DecodeError GlobalIndex := do
  let fields ← j.object
  let mainnetFlag ← field fields "mainnet_flag" (.ok false) boolean
  let rollupIndex ← field fields "rollup_index" (.ok 0) uint32
  let leafIndex ← field fields "leaf_index" (.ok 0) uint32
  return ⟨mainnetFlag, rollupIndex, leafIndex⟩

/-- `ImportedBridgeExit`, field by field. -/
def ImportedBridgeExit.marshalJSON (ibe : ImportedBridgeExit Hash) : Option JsonTree := do
  let bridgeExit ← ibe.bridgeExit.marshalJSON
  return .obj [("bridge_exit", bridgeExit),
    ("claim_data", ibe.claimData.elim .null Claim.marshalJSON),
    ("global_index", ibe.globalIndex.marshalJSON)]

/-- `ImportedBridgeExit.UnmarshalJSON`. -/
def ImportedBridgeExit.unmarshalJSON (j : JsonTree) :
    Except JsonTree.DecodeError (ImportedBridgeExit Hash) := do
  let aux ← j.object
  let bridgeExit ← field aux "bridge_exit" (.error .nil) (required BridgeExit.unmarshalJSON)
  let claimData ← field aux "claim_data" (.ok none) claimSelector
  let globalIndex ← field aux "global_index" (.error .nil) (required GlobalIndex.unmarshalJSON)
  return ⟨bridgeExit, claimData, globalIndex⟩

/-! ## Aggchain data -/

/-- `ECDSAMultisigEntry.MarshalJSON`. -/
def ECDSAMultisigEntry.marshalJSON (e : ECDSAMultisigEntry) : JsonTree :=
  .obj [("index", .num e.index.toNat), ("signature", .str (bytes2Hex e.signature))]

/-- `ECDSAMultisigEntry.UnmarshalJSON`. -/
def ECDSAMultisigEntry.unmarshalJSON (j : JsonTree) :
    Except JsonTree.DecodeError ECDSAMultisigEntry := do
  let aux ← j.object
  let index ← field aux "index" (.ok 0) uint32
  let signature ← field aux "signature" (.ok "") string
  return ⟨index, hex2Bytes signature⟩

/-- `Multisig`, field by field. -/
def Multisig.marshalJSON (nils : NilSlices) (m : Multisig) : JsonTree :=
  .obj [("signatures", ofList nils.signatures (m.signatures.map ECDSAMultisigEntry.marshalJSON))]

def Multisig.unmarshalJSON (j : JsonTree) : Except JsonTree.DecodeError Multisig := do
  let fields ← j.object
  let signatures ← field fields "signatures" (.ok []) (list ECDSAMultisigEntry.unmarshalJSON)
  return ⟨signatures⟩

/-- `AggchainDataProof.MarshalJSON`. -/
def AggchainDataProof.marshalJSON (nils : NilSlices) (a : AggchainDataProof Hash) : JsonTree :=
  .obj [("aggchain_data_proof", .obj [("proof", .str (bytes2Hex a.proof)),
    ("aggchain_params", .str (hexText a.aggchainParams)),
    ("context", ofEntries nils.context (fun k v => ofBytes (nils.contextValue k) v) a.context),
    ("version", .str a.version), ("vkey", .str (bytes2Hex a.vkey)),
    ("signature", .str (bytes2Hex a.signature))])]

/-- `AggchainDataProof.UnmarshalJSON`. -/
def AggchainDataProof.unmarshalJSON (j : JsonTree) :
    Except JsonTree.DecodeError (AggchainDataProof Hash) := do
  let outer ← j.object
  let aux ← field outer "aggchain_data_proof" (.ok []) object
  let proof ← field aux "proof" (.ok "") string
  let aggchainParams ← field aux "aggchain_params" (.ok "") string
  let context ← field aux "context" (.ok []) (entries bytes)
  let version ← field aux "version" (.ok "") string
  let vkey ← field aux "vkey" (.ok "") string
  let signature ← field aux "signature" (.ok "") string
  return ⟨hex2Bytes proof, version, hex2Bytes vkey, hexToHash aggchainParams, context,
    hex2Bytes signature⟩

/-- What is written for a pointer to a multisig. -/
def multisigJSON (nils : NilSlices) (multisig : Option Multisig) : JsonTree :=
  multisig.elim .null (Multisig.marshalJSON nils)

/-- A pointer to a multisig. -/
def multisigField (fields : List (String × JsonTree)) :
    Except JsonTree.DecodeError (Option Multisig) :=
  field fields "multisig" (.ok none) (pointer Multisig.unmarshalJSON)

/-- `MarshalJSON` of the variants of the aggchain data. -/
def AggchainData.marshalJSON (nils : NilSlices) : AggchainData Hash → JsonTree
  | .proof a => a.marshalJSON nils
  | .signature a => .obj [("aggchain_data_signature", .obj [("signature", .str (bytes2Hex a))])]
  | .multisigWithProof m aggchainProof =>
    .obj [("aggchain_data_multisig_with_proof", .obj [("multisig", multisigJSON nils m),
      ("aggchain_proof", aggchainProof.elim .null (AggchainDataProof.marshalJSON nils))])]
  | .multisig m => .obj [("aggchain_data_multisig", .obj [("multisig", multisigJSON nils m)])]

/-- `AggchainDataSignature.UnmarshalJSON`. -/
def aggchainDataSignature (j : JsonTree) : Except JsonTree.DecodeError (AggchainData Hash) := do
  let outer ← j.object
  let aux ← field outer "aggchain_data_signature" (.ok []) object
  let signature ← field aux "signature" (.ok "") string
  return .signature (hex2Bytes signature)

/-- `AggchainDataMultisigWithProof.UnmarshalJSON`. -/
def aggchainDataMultisigWithProof (j : JsonTree) :
    Except JsonTree.DecodeError (AggchainData Hash) := do
  let outer ← j.object
  let aux ← field outer "aggchain_data_multisig_with_proof" (.ok []) object
  let multisig ← multisigField aux
  let aggchainProof ← field aux "aggchain_proof" (.ok none) (pointer AggchainDataProof.unmarshalJSON)
  return .multisigWithProof multisig aggchainProof

/-- `AggchainDataMultisig.UnmarshalJSON`. -/
def aggchainDataMultisig (j : JsonTree) : Except JsonTree.DecodeError (AggchainData Hash) := do
  let outer ← j.object
  let aux ← field outer "aggchain_data_multisig" (.ok []) object
  let multisig ← multisigField aux
  return .multisig multisig

/-- `AggchainDataSelector.UnmarshalJSON` and `GetObject`. -/
def aggchainDataSelector : JsonTree → Except JsonTree.DecodeError (Option (AggchainData Hash))
  | .null => .ok none
  | j => do
    let obj ← keys j
    if (get? obj "aggchain_data_proof").isSome then
      (AggchainDataProof.unmarshalJSON j).map fun a => some (.proof a)
    else if (get? obj "aggchain_data_signature").isSome then
      (aggchainDataSignature j).map some
    else if (get? obj "aggchain_data_multisig_with_proof").isSome then
      (aggchainDataMultisigWithProof j).map some
    else if (get? obj "aggchain_data_multisig").isSome then
      (aggchainDataMultisig j).map some
    else .error (.message "invalid aggchain_data type")

/-! ## Certificates -/

/-- The fields of a certificate that are left out where they are empty. -/
def Certificate.optionalFields (nils : NilSlices) (c : Certificate Hash) :
    List (String × JsonTree) :=
  (if c.customChainData.isEmpty then []
    else [("custom_chain_data", ofBytes false c.customChainData)]) ++
  (c.aggchainData.elim [] fun data => [("aggchain_data", data.marshalJSON nils)]) ++
  (if c.l1InfoTreeLeafCount = 0 then []
    else [("l1_info_tree_leaf_count", .num c.l1InfoTreeLeafCount.toNat)])

/-- `Certificate`, field by field. -/
def Certificate.marshalJSON (nils : NilSlices) (c : Certificate Hash) : Option JsonTree := do
  let bridgeExits ← c.bridgeExits.mapM BridgeExit.marshalJSON
  let importedBridgeExits ← c.importedBridgeExits.mapM ImportedBridgeExit.marshalJSON
  return .obj ([("network_id", .num c.networkID.toNat), ("height", .num c.height),
      ("prev_local_exit_root", hexJSON c.prevLocalExitRoot),
      ("new_local_exit_root", hexJSON c.newLocalExitRoot),
      ("bridge_exits", ofList nils.bridgeExits bridgeExits),
      ("imported_bridge_exits", ofList nils.importedBridgeExits importedBridgeExits)] ++
    c.optionalFields nils)

/-- `Certificate.UnmarshalJSON`. -/
def Certificate.unmarshalJSON (j : JsonTree) : Except JsonTree.DecodeError (Certificate Hash) := do
  let aux ← j.object
  let networkID ← field aux "network_id" (.ok 0) uint32
  let height ← field aux "height" (.ok 0) (uint (2 ^ 64))
  let prevLocalExitRoot ← field aux "prev_local_exit_root" (.ok zeroHash) (fixedHex 32)
  let newLocalExitRoot ← field aux "new_local_exit_root" (.ok zeroHash) (fixedHex 32)
  let bridgeExits ← field aux "bridge_exits" (.ok []) (list (required BridgeExit.unmarshalJSON))
  let importedBridgeExits ← field aux "imported_bridge_exits" (.ok [])
    (list (required ImportedBridgeExit.unmarshalJSON))
  let customChainData ← field aux "custom_chain_data" (.ok []) bytes
  let aggchainData ← field aux "aggchain_data" (.ok none) aggchainDataSelector
  let l1InfoTreeLeafCount ← field aux "l1_info_tree_leaf_count" (.ok 0) uint32
  return ⟨networkID, height, prevLocalExitRoot, newLocalExitRoot, bridgeExits, importedBridgeExits,
    customChainData, aggchainData, l1InfoTreeLeafCount⟩

end AggKit.Agglayer
