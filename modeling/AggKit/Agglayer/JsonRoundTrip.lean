import AggKit.Agglayer.Json

/-!
# What is stored is read back

`UnmarshalJSON` after `MarshalJSON` gives back the certificate. The proof follows the types from the
inside out: each lemma says that the decoder of a type reads what is written for a value of it as that
value, and uses the lemmas of the types of its fields. The keys of an object are different, so every
field is found under its own key; the two selectors find the key of the variant that was written and
none of those they look for before it.
-/

namespace AggKit.Agglayer

open TextEncoding JsonTree Exec AggchainDataProof
open List hiding Vector

/-! ## Texts -/

section texts

theorem hex2Bytes_bytes2Hex (bs : List UInt8) : hex2Bytes (bytes2Hex bs) = bs := by
  unfold hex2Bytes bytes2Hex
  rw [String.toList_ofList]
  exact hexDecodeInit_eq (hexDecode_hexEncode bs)

theorem hexToHash_hexText (h : Hash) : hexToHash (hexText h) = h := by
  have heven : ¬(hexEncode h.toList).length % 2 = 1 := by
    rw [length_hexEncode]
    omega
  have hbytes : fromHex (hexText h) = h.toList := by
    unfold fromHex hexText
    rw [String.toList_ofList]
    simp only [if_neg heven]
    exact hexDecodeInit_eq (hexDecode_hexEncode h.toList)
  unfold hexToHash
  rw [hbytes]
  exact Bytes.fit_toList h

@[simp]
theorem fixedHex_hexJSON {n : ℕ} (v : Vector UInt8 n) : (hexJSON v).fixedHex n = .ok v :=
  fixedHex_hexText v

/-- A decimal number has no letter, so it is not read as hexadecimal digits. -/
theorem setString_decimalEncode (n : ℕ) : setString (decimalEncode n) = some n := by
  have hdigit : ∀ c ∈ decimalEncode n, c.isDigit = true := fun c hc =>
    isDigit_of_mem_decimalEncode hc
  unfold setString
  split
  case h_1 digits hx => exact absurd (hdigit 'x' (by rw [hx]; simp)) (by decide)
  case h_2 digits hx => exact absurd (hdigit 'X' (by rw [hx]; simp)) (by decide)
  case h_3 => exact decimalDecode_decimalEncode n

/-- Nor is it taken for `<nil>`. -/
theorem amountOfString_amountString (amount : Option ℕ) :
    amountOfString (amountString amount) = .ok amount := by
  cases amount with
  | none => rfl
  | some n =>
    have hnil : ¬"nil".toList <:+: decimalEncode n := by
      intro hin
      have hmem : 'n' ∈ decimalEncode n := hin.subset (by decide)
      exact absurd (isDigit_of_mem_decimalEncode hmem) (by decide)
    unfold amountOfString
    simp only [amountString, String.toList_ofList]
    rw [if_neg hnil, setString_decimalEncode]

end texts

/-! ## Exits -/

section exits

@[simp]
theorem TokenInfo.unmarshalJSON_marshalJSON (t : TokenInfo) :
    TokenInfo.unmarshalJSON t.marshalJSON = .ok t := by
  unfold TokenInfo.unmarshalJSON TokenInfo.marshalJSON
  simp

@[simp]
theorem TokenInfo.required_marshalJSON (t : TokenInfo) :
    required TokenInfo.unmarshalJSON t.marshalJSON = .ok t := t.unmarshalJSON_marshalJSON

/-- Only the leaf types that `Validate` lets through have a name. -/
theorem leafType_roundTrip {b : BridgeExit} (hvalid : b.validate = .ok ()) :
    ∃ name, leafTypeString b.leafType = some name ∧
      leafTypeUnmarshalJSON (.str name) = .ok b.leafType := by
  have hle : ¬LeafTypeMessage < b.leafType := by
    intro hlt
    rw [BridgeExit.validate, if_pos hlt] at hvalid
    cases hvalid
  have hcases : b.leafType = 0 ∨ b.leafType = 1 := by
    have hnat : b.leafType.toNat ≤ 1 := by
      simpa [LeafTypeMessage, UInt8.lt_iff_toNat_lt] using hle
    rcases Nat.le_one_iff_eq_zero_or_eq_one.mp hnat with h | h
    · exact Or.inl (UInt8.toNat_inj.mp h)
    · exact Or.inr (UInt8.toNat_inj.mp h)
  rcases hcases with h | h
  · exact ⟨"Transfer", by rw [h]; rfl, by rw [h]; rfl⟩
  · exact ⟨"Message", by rw [h]; rfl, by rw [h]; rfl⟩

theorem metadata_roundTrip (metadata : List UInt8) :
    metadataOf (if metadata = [] then .null else .str (bytes2Hex metadata)) = metadata := by
  split
  case isTrue hempty => exact hempty.symm
  case isFalse => exact hex2Bytes_bytes2Hex metadata

theorem BridgeExit.roundTrip {b : BridgeExit} (hvalid : b.validate = .ok ()) :
    ∃ fields, b.marshalJSON = some (.obj fields) ∧ BridgeExit.unmarshalJSON (.obj fields) = .ok b := by
  obtain ⟨name, hname, hleaf⟩ := leafType_roundTrip hvalid
  refine ⟨_, by rw [BridgeExit.marshalJSON, hname]; rfl, ?_⟩
  unfold BridgeExit.unmarshalJSON
  simp [hleaf, metadata_roundTrip, amountOfString_amountString]

end exits

/-! ## Proofs and claims -/

section claims

@[simp]
theorem MerkleProof.unmarshalJSON_marshalJSON (m : MerkleProof Hash) :
    MerkleProof.unmarshalJSON m.marshalJSON = .ok m := by
  have hsiblings : (JsonTree.obj [("siblings", .arr (m.proof.toList.map hexJSON))]).entries
      (array 32 zeroHash (fixedHex 32)) = .ok [("siblings", m.proof)] := by
    have hproof := array_arr fixedHex_hexJSON zeroHash m.proof
    simp [entries, addEntry, hproof, Except.map]
  unfold MerkleProof.unmarshalJSON MerkleProof.marshalJSON
  simp [hsiblings]

namespace L1InfoTreeLeafInner

@[simp]
theorem unmarshalJSON_marshalJSON (l : L1InfoTreeLeafInner Hash) :
    unmarshalJSON l.marshalJSON = .ok l := by
  unfold unmarshalJSON marshalJSON
  simp

@[simp]
theorem required_marshalJSON (l : L1InfoTreeLeafInner Hash) :
    required unmarshalJSON l.marshalJSON = .ok l := l.unmarshalJSON_marshalJSON

end L1InfoTreeLeafInner

theorem L1InfoTreeLeaf.unmarshalJSON_marshalJSON (l : L1InfoTreeLeaf Hash) :
    L1InfoTreeLeaf.unmarshalJSON l.marshalJSON = .ok l := by
  unfold L1InfoTreeLeaf.unmarshalJSON L1InfoTreeLeaf.marshalJSON
  simp

@[simp]
theorem MerkleProof.required_marshalJSON (m : MerkleProof Hash) :
    required MerkleProof.unmarshalJSON m.marshalJSON = .ok m := m.unmarshalJSON_marshalJSON

@[simp]
theorem L1InfoTreeLeaf.required_marshalJSON (l : L1InfoTreeLeaf Hash) :
    required L1InfoTreeLeaf.unmarshalJSON l.marshalJSON = .ok l := l.unmarshalJSON_marshalJSON

theorem ClaimFromMainnet.unmarshalJSON_marshalJSON (c : ClaimFromMainnet Hash) :
    ClaimFromMainnet.unmarshalJSON c.marshalJSON = .ok c := by
  unfold ClaimFromMainnet.unmarshalJSON ClaimFromMainnet.marshalJSON
  simp [subobject, proofField, l1LeafField, Except.mapError]

theorem ClaimFromRollup.unmarshalJSON_marshalJSON (c : ClaimFromRollup Hash) :
    ClaimFromRollup.unmarshalJSON c.marshalJSON = .ok c := by
  unfold ClaimFromRollup.unmarshalJSON ClaimFromRollup.marshalJSON
  simp [subobject, proofField, l1LeafField, Except.mapError]

/-- The claim is read as one of the type that was written. -/
theorem claimSelector_marshalJSON (claim : Claim Hash) :
    claimSelector claim.marshalJSON = .ok (some claim) := by
  cases claim with
  | mainnet c =>
    have hkey : claimSelector c.marshalJSON =
        (ClaimFromMainnet.unmarshalJSON c.marshalJSON).map fun c => some (.mainnet c) := rfl
    rw [Claim.marshalJSON, hkey, c.unmarshalJSON_marshalJSON]
    rfl
  | rollup c =>
    -- The object of a rollup claim has no key for a mainnet claim.
    have hkey : claimSelector c.marshalJSON =
        (ClaimFromRollup.unmarshalJSON c.marshalJSON).map fun c => some (.rollup c) := rfl
    rw [Claim.marshalJSON, hkey, c.unmarshalJSON_marshalJSON]
    rfl

@[simp]
theorem claimSelector_elim (claimData : Option (Claim Hash)) :
    claimSelector (claimData.elim .null Claim.marshalJSON) = .ok claimData := by
  cases claimData with
  | none => rfl
  | some claim => exact claimSelector_marshalJSON claim

@[simp]
theorem GlobalIndex.required_marshalJSON (g : GlobalIndex) :
    required GlobalIndex.unmarshalJSON g.marshalJSON = .ok g := by
  unfold GlobalIndex.marshalJSON
  rw [required_obj, GlobalIndex.unmarshalJSON]
  simp

theorem ImportedBridgeExit.roundTrip {ibe : ImportedBridgeExit Hash}
    (hvalid : ibe.validate = .ok ()) :
    ∃ fields, ibe.marshalJSON = some (.obj fields) ∧
      ImportedBridgeExit.unmarshalJSON (.obj fields) = .ok ibe := by
  obtain ⟨exit, hexit, hback⟩ := BridgeExit.roundTrip hvalid
  refine ⟨_, by rw [ImportedBridgeExit.marshalJSON, hexit]; rfl, ?_⟩
  unfold ImportedBridgeExit.unmarshalJSON
  simp [hback]

end claims

/-! ## Aggchain data -/

/-- The context is a map: no key has two entries. -/
def AggchainDataProof.Mapped (a : AggchainDataProof Hash) : Prop := (a.context.map Prod.fst).Nodup

/-- The contexts of the aggchain data are maps. -/
def AggchainData.Mapped : AggchainData Hash → Prop
  | .proof a => a.Mapped
  | .multisigWithProof _ aggchainProof => ∀ a ∈ aggchainProof, a.Mapped
  | .signature _ => True
  | .multisig _ => True

section aggchain

variable (nils : NilSlices)

theorem ECDSAMultisigEntry.unmarshalJSON_marshalJSON (e : ECDSAMultisigEntry) :
    ECDSAMultisigEntry.unmarshalJSON e.marshalJSON = .ok e := by
  unfold ECDSAMultisigEntry.unmarshalJSON ECDSAMultisigEntry.marshalJSON
  simp [hex2Bytes_bytes2Hex]

theorem Multisig.unmarshalJSON_marshalJSON (m : Multisig) :
    Multisig.unmarshalJSON (m.marshalJSON nils) = .ok m := by
  have hall : Forall₂ (fun j e => ECDSAMultisigEntry.unmarshalJSON j = .ok e)
      (m.signatures.map ECDSAMultisigEntry.marshalJSON) m.signatures := by
    rw [forall₂_map_left_iff, forall₂_same]
    exact fun e _ => e.unmarshalJSON_marshalJSON
  have hlist := list_ofList hall nils.signatures
  unfold Multisig.unmarshalJSON Multisig.marshalJSON
  simp [hlist]

/-- A nil pointer to a multisig is read back as one. -/
theorem pointer_multisigJSON (multisig : Option Multisig) :
    pointer Multisig.unmarshalJSON (multisigJSON nils multisig) = .ok multisig := by
  cases multisig with
  | none => rfl
  | some m =>
    have hpointer : pointer Multisig.unmarshalJSON (multisigJSON nils (some m)) =
        (Multisig.unmarshalJSON (m.marshalJSON nils)).map some := rfl
    rw [hpointer, m.unmarshalJSON_marshalJSON]
    rfl

theorem AggchainDataProof.unmarshalJSON_marshalJSON {a : AggchainDataProof Hash} (ha : a.Mapped) :
    unmarshalJSON (a.marshalJSON nils) = .ok a := by
  have hcontext : (ofEntries nils.context (fun k v => ofBytes (nils.contextValue k) v)
      a.context).entries bytes = .ok a.context :=
    entries_ofEntries (fun k v => bytes_ofBytes (nils.contextValue k) v) nils.context ha
  unfold unmarshalJSON marshalJSON
  simp [hcontext, hex2Bytes_bytes2Hex, hexToHash_hexText]

theorem pointer_aggchainProof {aggchainProof : Option (AggchainDataProof Hash)}
    (ha : ∀ a ∈ aggchainProof, a.Mapped) :
    pointer unmarshalJSON
      (aggchainProof.elim .null (marshalJSON nils)) = .ok aggchainProof := by
  cases aggchainProof with
  | none => rfl
  | some a =>
    have hpointer : pointer unmarshalJSON (a.marshalJSON nils) =
        (unmarshalJSON (a.marshalJSON nils)).map some := rfl
    rw [Option.elim_some, hpointer, unmarshalJSON_marshalJSON nils (ha a rfl)]
    rfl

/-- The aggchain data are read as the variant that was written: each is an object with one key, its
own. -/
theorem aggchainDataSelector_marshalJSON {data : AggchainData Hash} (hdata : data.Mapped) :
    aggchainDataSelector (data.marshalJSON nils) = .ok (some data) := by
  cases data with
  | proof a =>
    have hkey : aggchainDataSelector (a.marshalJSON nils) =
        (unmarshalJSON (a.marshalJSON nils)).map fun a => some (.proof a) := rfl
    rw [AggchainData.marshalJSON, hkey, unmarshalJSON_marshalJSON nils hdata]
    rfl
  | signature a =>
    have hkey : aggchainDataSelector ((AggchainData.signature a).marshalJSON nils) =
        .ok (some (.signature (hex2Bytes (bytes2Hex a)))) := rfl
    rw [hkey, hex2Bytes_bytes2Hex]
  | multisigWithProof m aggchainProof =>
    have hkey : aggchainDataSelector ((AggchainData.multisigWithProof m aggchainProof).marshalJSON nils) =
        (aggchainDataMultisigWithProof
          ((AggchainData.multisigWithProof m aggchainProof).marshalJSON nils)).map some := rfl
    rw [hkey, aggchainDataMultisigWithProof, AggchainData.marshalJSON]
    simp [multisigField, Except.map, pointer_multisigJSON,
      pointer_aggchainProof nils hdata]
  | multisig m =>
    have hkey : aggchainDataSelector ((AggchainData.multisig m).marshalJSON nils) =
        (aggchainDataMultisig ((AggchainData.multisig m).marshalJSON nils)).map some := rfl
    rw [hkey, aggchainDataMultisig, AggchainData.marshalJSON]
    simp [multisigField, Except.map, pointer_multisigJSON]

end aggchain

/-! ## Certificates -/

/-- The certificate is one of the program's types: the height is a `uint64`, and the contexts of the
aggchain data are maps. -/
structure Certificate.Typed (c : Certificate Hash) : Prop where
  height : c.height < 2 ^ 64
  aggchainData : ∀ data ∈ c.aggchainData, data.Mapped

section certificate

variable (nils : NilSlices) {c : Certificate Hash}

/-- A slice of pointers to values that are written as objects. -/
theorem mapM_roundTrip {α : Type} {enc : α → Option JsonTree}
    {dec : JsonTree → Except JsonTree.DecodeError α}
    {l : List α}
    (h : ∀ a ∈ l, ∃ fields, enc a = some (.obj fields) ∧ dec (.obj fields) = .ok a) :
    ∃ values, l.mapM enc = some values ∧
      Forall₂ (fun j a => required dec j = .ok a) values l := by
  induction l with
  | nil => exact ⟨[], rfl, .nil⟩
  | cons a l ih =>
    obtain ⟨fields, henc, hdec⟩ := h a mem_cons_self
    obtain ⟨values, hvalues, hall⟩ := ih fun x hx => h x (mem_cons_of_mem a hx)
    refine ⟨.obj fields :: values, ?_, .cons hdec hall⟩
    rw [mapM_cons, henc, hvalues]
    rfl

variable {key : String}

theorem customChainData_keys (bs : List UInt8) (hkey : key ≠ "custom_chain_data") :
    key ∉ (if bs.isEmpty then [] else [("custom_chain_data", ofBytes false bs)]).map Prod.fst := by
  split <;> simp [hkey]

theorem aggchainData_keys (data : Option (AggchainData Hash)) (hkey : key ≠ "aggchain_data") :
    key ∉ (data.elim [] fun data => [("aggchain_data", data.marshalJSON nils)]).map Prod.fst := by
  cases data <;> simp [hkey]

theorem l1InfoTreeLeafCount_keys (n : UInt32) (hkey : key ≠ "l1_info_tree_leaf_count") :
    key ∉ (if n = 0 then [] else
      [("l1_info_tree_leaf_count", JsonTree.num n.toNat)]).map Prod.fst := by
  split <;> simp [hkey]

/-- The fields that are always written have other keys than those that may be left out. -/
theorem Certificate.optionalFields_keys (hcustom : key ≠ "custom_chain_data")
    (haggchain : key ≠ "aggchain_data") (hcount : key ≠ "l1_info_tree_leaf_count") :
    key ∉ (c.optionalFields nils).map Prod.fst := by
  unfold Certificate.optionalFields
  rw [map_append, map_append, mem_append, mem_append, not_or, not_or]
  exact ⟨⟨customChainData_keys _ hcustom, aggchainData_keys nils _ haggchain⟩,
    l1InfoTreeLeafCount_keys _ hcount⟩

theorem field_customChainData :
    field (c.optionalFields nils) "custom_chain_data" (.ok []) bytes = .ok c.customChainData := by
  unfold Certificate.optionalFields
  rw [field_append_left (l1InfoTreeLeafCount_keys _ (by decide)),
    field_append_left (aggchainData_keys nils _ (by decide))]
  split
  case isTrue hempty =>
    rw [isEmpty_iff.mp hempty]
    rfl
  case isFalse => exact bytes_ofBytes false c.customChainData

theorem field_aggchainData (hc : c.Typed) :
    field (c.optionalFields nils) "aggchain_data" (.ok none) aggchainDataSelector =
      .ok c.aggchainData := by
  unfold Certificate.optionalFields
  rw [field_append_left (l1InfoTreeLeafCount_keys _ (by decide)),
    field_append_right (customChainData_keys _ (by decide))]
  cases hdata : c.aggchainData with
  | none => rfl
  | some data => exact aggchainDataSelector_marshalJSON nils (hc.aggchainData data hdata)

theorem field_l1InfoTreeLeafCount :
    field (c.optionalFields nils) "l1_info_tree_leaf_count" (.ok 0) uint32 =
      .ok c.l1InfoTreeLeafCount := by
  have hkeys : "l1_info_tree_leaf_count" ∉ ((if c.customChainData.isEmpty then [] else
      [("custom_chain_data", ofBytes false c.customChainData)]) ++
      (c.aggchainData.elim [] fun data => [("aggchain_data", data.marshalJSON nils)])).map
        Prod.fst := by
    rw [map_append, mem_append, not_or]
    exact ⟨customChainData_keys _ (by decide), aggchainData_keys nils _ (by decide)⟩
  unfold Certificate.optionalFields
  rw [field_append_right hkeys]
  split
  case isTrue hzero =>
    rw [hzero]
    rfl
  case isFalse => exact uint32_num c.l1InfoTreeLeafCount

namespace Certificate

theorem roundTrip (hvalid : c.validate = .ok ()) (hc : c.Typed) :
    ∃ j, c.marshalJSON nils = some j ∧ unmarshalJSON j = .ok c := by
  obtain ⟨hexits, himported⟩ := validate_eq_ok_iff.mp hvalid
  obtain ⟨exits, hexitsEnc, hexitsAll⟩ :=
    mapM_roundTrip fun b hb => BridgeExit.roundTrip (hexits b hb)
  obtain ⟨imported, himportedEnc, himportedAll⟩ :=
    mapM_roundTrip fun ibe hibe => ImportedBridgeExit.roundTrip (himported ibe hibe)
  have hexitsDec := list_ofList hexitsAll nils.bridgeExits
  have himportedDec := list_ofList himportedAll nils.importedBridgeExits
  refine ⟨_, by rw [marshalJSON, hexitsEnc, himportedEnc]; rfl, ?_⟩
  unfold unmarshalJSON
  rw [object_obj, except_ok_bind]
  -- Six fields are always written, and are looked for among these.
  iterate 6
    rw [field_append_left (optionalFields_keys nils (by decide) (by decide) (by decide))]
  -- The other three are looked for among those that may be left out.
  iterate 3 rw [field_append_right (by simp)]
  rw [field_customChainData, field_aggchainData nils hc, field_l1InfoTreeLeafCount]
  simp [-Nat.reducePow, uint_num hc.height, hexitsDec, himportedDec]

end Certificate

end certificate

/-- A certificate with a claim of a rollup, a nil amount and a multisig with a proof. -/
def storedCertificate : Certificate Hash :=
  let proof : MerkleProof Hash := ⟨Vector.replicate 32 4, Vector.replicate 32 zeroHash⟩
  let exit (amount : Option ℕ) : BridgeExit :=
    ⟨LeafTypeMessage, ⟨0, Vector.replicate 20 1⟩, 1, Vector.replicate 20 2, amount, [171, 205]⟩
  let claim : ClaimFromRollup Hash :=
    ⟨proof, proof, proof, ⟨3, zeroHash, zeroHash, ⟨Vector.replicate 32 6, zeroHash, 7⟩⟩⟩
  ⟨1, 5, zeroHash, Vector.replicate 32 8, [exit none],
    [⟨exit (some 10), some (.rollup claim), ⟨false, 2, 9⟩⟩], [1, 2], some (.multisigWithProof (some ⟨[⟨0, [255]⟩]⟩)
      (some ⟨[1], "v1", [2], Vector.replicate 32 3, [("a", [1, 2, 3, 4]), ("b", [])], [5]⟩)), 4⟩

end AggKit.Agglayer
