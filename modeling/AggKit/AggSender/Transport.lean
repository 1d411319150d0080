import AggKit.AggSender.FlowBase
import AggKit.Agglayer.Grpc

/-!
# A certificate survives the wire

`transport_keeps`: a certificate of `BuildCertificate` with its claim data, sent and received, is the
certificate that was built, with the same id and the same hash to sign. Three things are not as they
were, or not received at all:

* A nil amount is received as zero.
* The rollup index of a mainnet global index is not sent: `GenerateGlobalIndex` has no place for it.
  It is received as zero, whatever the claim had there.
* A leaf type other than those for an asset and a message has no counterpart on the wire and is
  refused by the receiver, as is aggchain data that lacks its multisig or its proof.
-/

namespace AggKit.Agglayer

open List Bytes

/-! ## What is received -/

/-- The exit that is received. -/
def BridgeExit.received (b : BridgeExit) : BridgeExit := { b with amount := some (b.amount.getD 0) }

/-- The global index that is received. -/
def GlobalIndex.received (g : GlobalIndex) : GlobalIndex :=
  { g with rollupIndex := if g.mainnetFlag then 0 else g.rollupIndex }

/-- The imported exit that is received. -/
def ImportedBridgeExit.received {H : Type} (ibe : ImportedBridgeExit H) : ImportedBridgeExit H :=
  { ibe with bridgeExit := ibe.bridgeExit.received, globalIndex := ibe.globalIndex.received }

/-- The certificate that is received. -/
def Certificate.received {H : Type} (c : Certificate H) : Certificate H :=
  { c with
    bridgeExits := c.bridgeExits.map BridgeExit.received
    importedBridgeExits := c.importedBridgeExits.map ImportedBridgeExit.received }

/-- The aggchain data has the multisig and the proof that its variant calls for. -/
def AggchainData.Complete {H : Type} : AggchainData H → Prop
  | .multisigWithProof m p => m.isSome ∧ p.isSome
  | .multisig m => m.isSome
  | .proof _ => True
  | .signature _ => True

section received

variable {H : Type} (K : Keccak H)

theorem BridgeExit.hash_received (b : BridgeExit) : b.received.hash K = b.hash K := rfl

theorem GlobalIndex.toBigInt_received (g : GlobalIndex) : g.received.toBigInt = g.toBigInt := by
  unfold GlobalIndex.toBigInt GlobalIndex.received
  cases g.mainnetFlag with
  | true | false => rfl

theorem ImportedBridgeExit.hash_received (ibe : ImportedBridgeExit H) :
    ibe.received.hash K = ibe.hash K := by
  have hindex : ibe.globalIndex.received.hash K = ibe.globalIndex.hash K := by
    rw [GlobalIndex.hash, GlobalIndex.toBigInt_received]
    rfl
  unfold ImportedBridgeExit.hash ImportedBridgeExit.received
  rw [BridgeExit.hash_received, hindex]

/-- The id is a hash of what is kept. -/
theorem Certificate.certificateID_received (c : Certificate H) :
    c.received.certificateID K = c.certificateID K := by
  have hexits : (c.bridgeExits.map BridgeExit.received).map (BridgeExit.hash K) =
      c.bridgeExits.map (BridgeExit.hash K) := by
    rw [map_map]
    rfl
  have himported : (c.importedBridgeExits.map ImportedBridgeExit.received).mapM
      (ImportedBridgeExit.hash K) = c.importedBridgeExits.mapM (ImportedBridgeExit.hash K) := by
    rw [mapM_map]
    exact congrArg (List.mapM · c.importedBridgeExits) (funext (ImportedBridgeExit.hash_received K))
  unfold Certificate.certificateID Certificate.received
  rw [hexits, himported]

theorem validateAll_map {α β : Type} {validate : β → Except ValidateError Unit}
    {validate' : α → Except ValidateError Unit} {g : α → β} (hg : ∀ a, validate (g a) = validate' a)
    (wrap : ℕ → ValidateError → ValidateError) (i : ℕ) (l : List α) :
    validateAll validate wrap i (l.map g) = validateAll validate' wrap i l := by
  induction l generalizing i with
  | nil => rfl
  | cons a l ih =>
    simp only [map_cons, validateAll, hg]
    cases validate' a with
    | error err => rfl
    | ok => exact ih (i + 1)

theorem Certificate.validate_received (c : Certificate H) : c.received.validate = c.validate := by
  unfold Certificate.validate Certificate.received
  rw [validateAll_map (fun _ => rfl), validateAll_map (fun _ => rfl)]
  rfl

/-- So is the hash to sign. -/
theorem hashCertificateToSign_received (c : Certificate H) :
    hashCertificateToSign K c.received = hashCertificateToSign K c := by
  have hclaims : (c.importedBridgeExits.map ImportedBridgeExit.received).flatMap (fun ibe =>
      bigIntToLittleEndianBytes ibe.globalIndex.toBigInt ++ K.bytes (ibe.bridgeExit.hash K)) =
      c.importedBridgeExits.flatMap fun ibe =>
        bigIntToLittleEndianBytes ibe.globalIndex.toBigInt ++ K.bytes (ibe.bridgeExit.hash K) := by
    rw [flatMap_map]
    refine congrArg (List.flatMap · c.importedBridgeExits) (funext fun ibe => ?_)
    show bigIntToLittleEndianBytes ibe.globalIndex.received.toBigInt ++ _ = _
    rw [GlobalIndex.toBigInt_received]
    rfl
  have hlist : c.received.importedBridgeExits =
      c.importedBridgeExits.map ImportedBridgeExit.received := rfl
  unfold hashCertificateToSign
  rw [Certificate.validate_received, Certificate.certificateID_received, hlist, hclaims]
  rfl

end received

/-! ## Each part on its way -/

/-- The amount and the metadata have their width: 32 bytes, or none. -/
structure BridgeExit.Fits (b : BridgeExit) : Prop where
  amount : b.amount.getD 0 < 256 ^ 32
  metadata : b.metadata.length = 0 ∨ b.metadata.length = 32

theorem grpcLeafTypeToAgglayer_leafTypeToProto (leafType : UInt8) :
    grpcLeafTypeToAgglayer (leafTypeToProto leafType) =
      if leafType ≤ LeafTypeMessage then .ok leafType else .error (.unknownLeafType .unspecified) := by
  unfold leafTypeToProto
  by_cases hasset : leafType = LeafTypeAsset
  · subst hasset
    rfl
  by_cases hmessage : leafType = LeafTypeMessage
  · subst hmessage
    rfl
  have hnot : ¬leafType ≤ LeafTypeMessage := by
    intro hle
    have hnat : leafType.toNat ≤ 1 := UInt8.le_iff_toNat_le.mp hle
    have hzero : leafType.toNat ≠ 0 := fun h => hasset (UInt8.toNat_inj.mp h)
    have hone : leafType.toNat ≠ 1 := fun h => hmessage (UInt8.toNat_inj.mp h)
    omega
  rw [if_neg hasset, if_neg hmessage, if_neg hnot]
  rfl

/-- A bridge exit is received as it was, or refused for its leaf type. -/
theorem grpcBridgeExitToAgglayer_convert {be : BridgeExit} (hfits : be.Fits) :
    grpcBridgeExitToAgglayer (some (convertToProtoBridgeExit be)) =
      if be.leafType ≤ LeafTypeMessage then .ok be.received
      else .error (.unknownLeafType .unspecified) := by
  have hamount : ((be.amount.map (bigEndian 32)).map toNat).getD 0 = be.amount.getD 0 := by
    have hlt := hfits.amount
    cases hsome : be.amount with
    | none => rfl
    | some n =>
      rw [hsome, Option.getD_some] at hlt
      rw [Option.map_some, Option.map_some, Option.getD_some, Option.getD_some,
        toNat_bigEndian, Nat.mod_eq_of_lt hlt]
  have hmetadata : (if be.metadata.isEmpty = true then none
      else some (fit 32 be.metadata).toList).getD [] = be.metadata := by
    rcases hfits.metadata with hzero | hwidth
    · rw [eq_nil_of_length_eq_zero hzero]
      rfl
    · have hne : ¬be.metadata.isEmpty = true := by
        rw [isEmpty_iff_length_eq_zero]
        omega
      rw [if_neg hne, toList_fit hwidth]
      rfl
  unfold grpcBridgeExitToAgglayer convertToProtoBridgeExit bytesToAddress
  simp only [grpcLeafTypeToAgglayer_leafTypeToProto, fit_toList, hamount, hmetadata]
  by_cases hle : be.leafType ≤ LeafTypeMessage
  · rw [if_pos hle, if_pos hle]
    rfl
  · rw [if_neg hle, if_neg hle]
    rfl

theorem grpcMerkleProofToAgglayer_convert (proof : MerkleProof Hash) :
    grpcMerkleProofToAgglayer (some (convertToProtoMerkleProof proof)) = .ok proof := by
  have hlen : (convertToProtoSiblings proof.proof).length = 32 := by
    simp [convertToProtoSiblings]
  have hne : ¬(convertToProtoSiblings proof.proof).isEmpty = true := by
    rw [isEmpty_iff_length_eq_zero]
    omega
  have hproof : (convertToProtoSiblings proof.proof).map bytesToHash = proof.proof.toList := by
    unfold convertToProtoSiblings bytesToHash
    rw [map_map]
    exact map_id'' fit_toList _
  have hroot : bytesToHash proof.root.toList = proof.root := fit_toList _
  unfold convertToProtoMerkleProof grpcMerkleProofToAgglayer
  simp only [if_neg hne, dif_pos hlen, hproof, hroot]
  rfl

theorem grpcL1LeafToAgglayer_convert (l1Leaf : L1InfoTreeLeaf Hash) :
    grpcL1LeafToAgglayer (some (convertToProtoL1Leaf l1Leaf)) = .ok l1Leaf := by
  unfold convertToProtoL1Leaf grpcL1LeafToAgglayer bytesToHash
  simp

theorem grpcClaimDataToAgglayer_convert (claim : Claim Hash) :
    grpcClaimDataToAgglayer (some (convertToProtoClaim claim)) = .ok claim := by
  cases claim with
  | mainnet claim | rollup claim =>
    simp only [convertToProtoClaim, grpcClaimDataToAgglayer, grpcMerkleProofToAgglayer_convert,
      grpcL1LeafToAgglayer_convert]
    rfl

/-- The global index that is read from its bytes. -/
theorem decodeGlobalIndex_bytes (g : GlobalIndex) :
    BridgeSync.decodeGlobalIndex (toNat (bigEndian 32 g.toBigInt)) =
      (g.received.mainnetFlag, g.received.rollupIndex, g.received.leafIndex) := by
  have hlt : g.toBigInt < 256 ^ 32 := BridgeSync.generateGlobalIndex_lt _ _ _
  rw [toNat_bigEndian, Nat.mod_eq_of_lt hlt]
  exact BridgeSync.decodeGlobalIndex_generateGlobalIndex _ _ _

/-- An imported exit with its claim data and a leaf type of the wire is received. -/
theorem grpcImportedBridgeExitToAgglayer_convert {ibe : ImportedBridgeExit Hash}
    (hclaim : ibe.claimData.isSome) (hfits : ibe.bridgeExit.Fits)
    (hleaf : ibe.bridgeExit.leafType ≤ LeafTypeMessage) :
    ∃ proto, convertToProtoImportedBridgeExit ibe = .ok proto ∧
      grpcImportedBridgeExitToAgglayer (some proto) = .ok ibe.received := by
  obtain ⟨claim, hclaim⟩ := Option.isSome_iff_exists.mp hclaim
  refine ⟨⟨some (convertToProtoBridgeExit ibe.bridgeExit),
    some (bigEndian 32 ibe.globalIndex.toBigInt), some (convertToProtoClaim claim)⟩, ?_, ?_⟩
  · unfold convertToProtoImportedBridgeExit
    rw [hclaim]
  · unfold grpcImportedBridgeExitToAgglayer ImportedBridgeExit.received
    simp only [grpcBridgeExitToAgglayer_convert hfits, if_pos hleaf, decodeGlobalIndex_bytes,
      grpcClaimDataToAgglayer_convert, hclaim]
    rfl

theorem grpcAggchainProofToAgglayer_convert (proof : AggchainDataProof Hash) :
    grpcAggchainProofToAgglayer (some (convertAggchainDataProofToProto proof)) = .ok proof := by
  unfold convertAggchainDataProofToProto grpcAggchainProofToAgglayer bytesToHash
  simp

theorem grpcMultisigToAgglayer_convert (multisig : Multisig) :
    grpcMultisigToAgglayer (some (convertMultisigToProtoMultisig multisig)) = .ok multisig := by
  have hentries : (multisig.signatures.map fun entry =>
      (⟨entry.signature, entry.index⟩ : Grpc.ECDSAMultisigEntry)).map
        (fun sig => (⟨sig.index, sig.signature⟩ : ECDSAMultisigEntry)) = multisig.signatures := by
    rw [map_map]
    exact map_id'' (fun _ => rfl) _
  unfold convertMultisigToProtoMultisig grpcMultisigToAgglayer
  simp only [hentries]

/-- Aggchain data is received as it was, or refused when a part is missing. -/
theorem grpcAggchainDataToAgglayer_convert {data d : Option (AggchainData Hash)} :
    grpcAggchainDataToAgglayer (data.map fun data => some (convertAggchainData data)) = .ok d ↔
      d = data ∧ ∀ d' ∈ data, d'.Complete := by
  have hok : ∀ {data' : AggchainData Hash}, data'.Complete →
      (Except.ok (some data') = (Except.ok d : Except DecodeError (Option (AggchainData Hash))) ↔
        d = some data' ∧ ∀ d' ∈ some data', AggchainData.Complete d') := by
    intro data' hcomplete
    refine ⟨fun h => ⟨(Except.ok.inj h).symm, fun d' hd' => ?_⟩, fun h => by rw [h.1]⟩
    rwa [← Option.some.inj hd']
  have herror : ∀ {data' : AggchainData Hash} {err : DecodeError}, ¬data'.Complete →
      (Except.error err = (Except.ok d : Except DecodeError (Option (AggchainData Hash))) ↔
        d = some data' ∧ ∀ d' ∈ some data', AggchainData.Complete d') := fun hnot =>
    ⟨nofun, fun h => absurd (h.2 _ rfl) hnot⟩
  cases data with
  | none => exact ⟨fun h => ⟨(Except.ok.inj h).symm, nofun⟩, fun h => by rw [h.1]; rfl⟩
  | some data =>
    rw [Option.map_some]
    cases data with
    | proof proof =>
      simp only [convertAggchainData, grpcAggchainDataToAgglayer, grpcAggchainProofToAgglayer_convert]
      exact hok trivial
    | signature signature => exact hok trivial
    | multisigWithProof multisig aggchainProof =>
      cases aggchainProof with
      | none => exact herror fun h => absurd h.2 (by simp)
      | some aggchainProof =>
        simp only [convertAggchainData, grpcAggchainDataToAgglayer, Option.map_some,
          grpcAggchainProofToAgglayer_convert]
        cases multisig with
        | none => exact herror fun h => absurd h.1 (by simp)
        | some multisig =>
          simp only [Option.map_some, grpcMultisigToAgglayer_convert]
          exact hok ⟨rfl, rfl⟩
    | multisig multisig =>
      cases multisig with
      | none => exact herror fun h => Bool.false_ne_true h
      | some multisig =>
        simp only [convertAggchainData, grpcAggchainDataToAgglayer, Option.map_some,
          grpcMultisigToAgglayer_convert]
        exact hok rfl

/-- Bridge exits are received as they were, exactly when their leaf types are those of the wire. -/
theorem mapM_grpcBridgeExitToAgglayer {bes bs : List BridgeExit} (hfits : ∀ be ∈ bes, be.Fits) :
    (bes.map fun be => some (convertToProtoBridgeExit be)).mapM grpcBridgeExitToAgglayer = .ok bs ↔
      bs = bes.map BridgeExit.received ∧ ∀ be ∈ bes, be.leafType ≤ LeafTypeMessage := by
  rw [Exec.mapM_eq_ok_iff, List.forall₂_map_left_iff]
  induction bes generalizing bs with
  | nil => simp
  | cons be bes ih =>
    have hhead := grpcBridgeExitToAgglayer_convert (hfits be (.head _))
    rw [List.forall₂_cons_left_iff, map_cons, forall_mem_cons]
    constructor
    · rintro ⟨b, bs', hb, hbs', rfl⟩
      obtain ⟨rfl, hleaves⟩ := (ih fun be' hbe' => hfits be' (.tail _ hbe')).mp hbs'
      by_cases hle : be.leafType ≤ LeafTypeMessage
      · rw [hhead, if_pos hle] at hb
        exact ⟨by rw [Except.ok.inj hb], hle, hleaves⟩
      · rw [hhead, if_neg hle] at hb
        cases hb
    · rintro ⟨rfl, hle, hleaves⟩
      refine ⟨be.received, bes.map BridgeExit.received, ?_, ?_, rfl⟩
      · rw [hhead, if_pos hle]
      · exact (ih fun be' hbe' => hfits be' (.tail _ hbe')).mpr ⟨rfl, hleaves⟩

/-! ## The certificate -/

/-- A certificate whose imported exits have their claim data is sent; it is received, as it was,
exactly when its leaf types are those of the wire and its aggchain data is complete. -/
theorem convertProtoCertToAgglayer_convert {cert : Certificate Hash}
    (hclaims : ∀ ibe ∈ cert.importedBridgeExits, ibe.claimData.isSome)
    (hfits : ∀ be ∈ cert.bridgeExits, be.Fits)
    (himported : ∀ ibe ∈ cert.importedBridgeExits, ibe.bridgeExit.Fits ∧
      ibe.bridgeExit.leafType ≤ LeafTypeMessage) :
    ∃ proto, convertCertToProtoCertificate cert = .ok proto ∧
      ∀ c, convertProtoCertToAgglayer proto = .ok c ↔
        c = cert.received ∧ (∀ be ∈ cert.bridgeExits, be.leafType ≤ LeafTypeMessage) ∧
          ∀ data ∈ cert.aggchainData, data.Complete := by
  -- the messages of the imported exits, one by one
  have hprotos : ∃ protos : List Grpc.ImportedBridgeExit,
      cert.importedBridgeExits.mapM convertToProtoImportedBridgeExit = .ok protos ∧
        (protos.map some).mapM grpcImportedBridgeExitToAgglayer =
          .ok (cert.importedBridgeExits.map ImportedBridgeExit.received) := by
    generalize cert.importedBridgeExits = imported at hclaims himported
    induction imported with
    | nil => exact ⟨[], rfl, rfl⟩
    | cons ibe imported ih =>
      obtain ⟨protos, hto, hfrom⟩ := ih (fun i hi => hclaims i (.tail _ hi))
        (fun i hi => himported i (.tail _ hi))
      have hhead := himported ibe (.head _)
      obtain ⟨proto, hto1, hfrom1⟩ :=
        grpcImportedBridgeExitToAgglayer_convert (hclaims ibe (.head _)) hhead.1 hhead.2
      refine ⟨proto :: protos, ?_, ?_⟩
      · rw [mapM_cons, hto1, hto]
        rfl
      · rw [map_cons, mapM_cons, hfrom1, hfrom]
        rfl
  obtain ⟨protos, hto, hfrom⟩ := hprotos
  have hencode : ∃ proto, convertCertToProtoCertificate cert = .ok proto := by
    unfold convertCertToProtoCertificate
    rw [hto]
    exact ⟨_, rfl⟩
  obtain ⟨proto, hproto⟩ := hencode
  refine ⟨proto, hproto, fun c => ?_⟩
  unfold convertCertToProtoCertificate at hproto
  rw [hto] at hproto
  cases hproto
  unfold convertProtoCertToAgglayer
  simp only [Exec.except_bind_ok, grpcAggchainDataToAgglayer_convert,
    mapM_grpcBridgeExitToAgglayer hfits, hfrom]
  have hroot : ∀ root : Hash, bytesToHash root.toList = root := fit_toList
  constructor
  · rintro ⟨data, ⟨rfl, hcomplete⟩, bs, ⟨rfl, hleaves⟩, imported, himp, hc⟩
    cases himp
    simp only [hroot] at hc
    exact ⟨(Except.ok.inj hc).symm, hleaves, hcomplete⟩
  · rintro ⟨rfl, hleaves, hcomplete⟩
    refine ⟨_, ⟨rfl, hcomplete⟩, _, ⟨rfl, hleaves⟩, _, rfl, ?_⟩
    simp only [hroot]
    rfl

/-- The certificate with its aggchain data and custom chain data, which are set after it is built. -/
def Certificate.withData {H : Type} (c : Certificate H) (aggchainData : Option (AggchainData H))
    (customChainData : List UInt8) : Certificate H :=
  { c with aggchainData := aggchainData, customChainData := customChainData }

end AggKit.Agglayer

namespace AggKit.AggSender

open Agglayer List

variable {keccak : List UInt8 → Hash} {f : BaseFlow Hash} {certParams : CertificateBuildParams Hash}
  {lastSentCertificate : Option (CertificateHeader Hash)} {allowEmptyCert : Bool}
  {cert : Certificate Hash}

/-- The exits of a certificate that is built have their width, and those that are imported have
their claim data and a leaf type of the wire. -/
theorem fits_of_built (hfull : f.cfg.fullClaimsNeeded = true)
    (hbuilt : f.Built (ethKeccak keccak) certParams lastSentCertificate allowEmptyCert cert)
    (hbridges : ∀ b ∈ certParams.bridges, b.amount < 2 ^ 256)
    (hclaims : ∀ c ∈ certParams.claims, c.amount < 2 ^ 256) :
    (∀ be ∈ cert.bridgeExits, be.Fits) ∧ ∀ ibe ∈ cert.importedBridgeExits,
      ibe.claimData.isSome ∧ ibe.bridgeExit.Fits ∧ ibe.bridgeExit.leafType ≤ LeafTypeMessage := by
  have hmetadata : ∀ metadata, (convertBridgeMetadata (ethKeccak keccak) metadata).length = 32 :=
    fun metadata => Vector.length_toList
  constructor
  · intro be hbe
    rw [hbuilt.bridgeExits] at hbe
    obtain ⟨b, hb, rfl⟩ := mem_map.mp hbe
    refine ⟨?_, .inr (hmetadata b.metadata)⟩
    exact hbridges b hb
  · intro ibe hibe
    have hall := (BaseFlow.getImportedBridgeExits_eq_ok_iff hfull).mp hbuilt.importedBridgeExits
    obtain ⟨claim, hclaim, hconvert⟩ := Exec.exists_of_mem_mapM hall hibe
    obtain ⟨l1Info, gerToL1Proof, -, rfl⟩ := convertToImportedBridgeExit_eq_ok_iff.mp hconvert
    have hmem : claim ∈ certParams.claims := (filterClaims_sublist _ _).subset hclaim
    refine ⟨rfl, ⟨?_, .inr (hmetadata claim.metadata)⟩, ?_⟩
    · exact hclaims claim hmem
    · show (if claim.isMessage then LeafTypeMessage else LeafTypeAsset) ≤ LeafTypeMessage
      split
      · decide
      · decide

/-- A certificate that is built with its claim data and amounts below `2^256`, with any aggchain data
and custom chain data, is sent. It is received exactly when the leaf types of its bridges are those
of an asset or a message and its aggchain data is complete. What is received is the certificate, up
to a nil amount and the rollup index of a mainnet global index, with the same id and hash to sign. -/
theorem transport_keeps (hfull : f.cfg.fullClaimsNeeded = true)
    (hbuild : f.buildCertificate (ethKeccak keccak) certParams lastSentCertificate allowEmptyCert =
      .ok cert)
    (hbridges : ∀ b ∈ certParams.bridges, b.amount < 2 ^ 256)
    (hclaims : ∀ c ∈ certParams.claims, c.amount < 2 ^ 256)
    (data : Option (AggchainData Hash)) (customChainData : List UInt8) :
    ∃ proto, convertCertToProtoCertificate (cert.withData data customChainData) = .ok proto ∧
      ((∃ c, convertProtoCertToAgglayer proto = .ok c) ↔
        (∀ b ∈ certParams.bridges, b.leafType ≤ LeafTypeMessage) ∧ ∀ d ∈ data, d.Complete) ∧
      ∀ c, convertProtoCertToAgglayer proto = .ok c →
        c = (cert.withData data customChainData).received ∧
          c.certificateID (ethKeccak keccak) =
            (cert.withData data customChainData).certificateID (ethKeccak keccak) ∧
          hashCertificateToSign (ethKeccak keccak) c =
            hashCertificateToSign (ethKeccak keccak) (cert.withData data customChainData) := by
  have hbuilt := BaseFlow.buildCertificate_eq_ok_iff.mp hbuild
  obtain ⟨hfits, himported⟩ := fits_of_built hfull hbuilt hbridges hclaims
  obtain ⟨proto, hproto, hreceive⟩ := @convertProtoCertToAgglayer_convert
    (cert.withData data customChainData) (fun ibe hibe => (himported ibe hibe).1) hfits
    (fun ibe hibe => (himported ibe hibe).2)
  have hleaves : (∀ be ∈ cert.bridgeExits, be.leafType ≤ LeafTypeMessage) ↔
      ∀ b ∈ certParams.bridges, b.leafType ≤ LeafTypeMessage := by
    rw [hbuilt.bridgeExits]
    exact forall_mem_map
  refine ⟨proto, hproto, ?_, fun c hc => ?_⟩
  · rw [← hleaves]
    exact ⟨fun ⟨c, hc⟩ => ((hreceive c).mp hc).2, fun h => ⟨_, (hreceive _).mpr ⟨rfl, h⟩⟩⟩
  · obtain ⟨rfl, -⟩ := (hreceive c).mp hc
    exact ⟨rfl, Certificate.certificateID_received _ _, hashCertificateToSign_received _ _⟩

/-! A flow for which every hash is zero, with one L1 info leaf. -/

/-- `common.Hash{}`. -/
def zeroHash : Hash := Vector.replicate 32 0

/-- The flow. -/
def zeroFlow : BaseFlow Hash where
  l2BridgeQuerier :=
    { originNetwork := 1
      getLastProcessedBlock := some 10
      getBridges := fun _ _ => []
      getClaims := fun _ _ => []
      getUnsetClaimsForBlockRange := fun _ _ => []
      getExitRootByIndex := fun _ => some zeroHash }
  getCertificateHeaderByHeight _ := none
  l1InfoTreeDataQuerier :=
    { getInfoByGlobalExitRoot := fun _ => some ⟨1, 0, 0, zeroHash, 0, zeroHash, zeroHash, zeroHash, zeroHash⟩
      getL1InfoTreeMerkleProofFromIndexToRoot := fun _ _ => some (Vector.replicate 32 zeroHash)
      getL1InfoTreeRootByIndex := fun _ => none
      latestL1InfoLeafIndex := some 0
      doesGERExistsOnL1 := fun _ => true }
  initialLER := zeroHash
  cfg := { maxCertSize := 0, startL2Block := 0, fullClaimsNeeded := true, estimatedSize := fun _ _ => 0 }

/-- A bridge with a leaf type. -/
def bridgeOfType (leafType : UInt8) : BridgeSync.Bridge Hash :=
  ⟨1, 0, none, zeroHash, 0, leafType, 0, ZeroAddress, 0, ZeroAddress, 5, [], 0, ZeroAddress, .none,
    ZeroAddress⟩

/-- A claim of a global index. -/
def claimOfIndex (globalIndex : ℕ) : ClaimSync.Claim Hash :=
  ⟨1, 1, zeroHash, globalIndex, 0, ZeroAddress, ZeroAddress, 5, Vector.replicate 32 zeroHash,
    Vector.replicate 32 zeroHash, zeroHash, zeroHash, zeroHash, 0, [], false, 0, .claimEvent⟩

/-- A bridge and a claim in block 1. -/
def blockOneParams (leafType : UInt8) (globalIndex : ℕ) : CertificateBuildParams Hash where
  fromBlock := 1
  toBlock := 1
  bridges := [bridgeOfType leafType]
  claims := [claimOfIndex globalIndex]
  unclaims := []
  retryCount := 0
  lastSentCertificate := none
  l1InfoTreeRootFromWhichToProve := zeroHash
  l1InfoTreeLeafCount := 1
  certificateType := .pp

/-- A certificate with an asset and a mainnet claim comes through. -/
theorem transport_keeps_asset : ∃ cert proto c,
    zeroFlow.buildCertificate (ethKeccak fun _ => zeroHash) (blockOneParams 0 (2 ^ 64 + 7)) none false =
        .ok cert ∧
      convertCertToProtoCertificate (cert.withData (some (.signature [1])) []) = .ok proto ∧
      convertProtoCertToAgglayer proto = .ok c ∧
      c = (cert.withData (some (.signature [1])) []).received := by
  obtain ⟨cert, hbuild⟩ : ∃ cert, zeroFlow.buildCertificate (ethKeccak fun _ => zeroHash)
      (blockOneParams 0 (2 ^ 64 + 7)) none false = .ok cert := ⟨_, rfl⟩
  obtain ⟨proto, hproto, hreceived, hsame⟩ := transport_keeps rfl hbuild (by decide) (by decide)
    (some (.signature [1])) []
  obtain ⟨c, hc⟩ := hreceived.mpr ⟨by decide, fun d hd => by cases hd; exact trivial⟩
  exact ⟨cert, proto, c, hbuild, hproto, hc, (hsame c hc).1⟩

/-- A certificate with a bridge of leaf type 2 is built and sent, and refused by the receiver. One
with a claim whose global index has both the mainnet flag and rollup index 5 is received, with rollup
index 0. -/
theorem leaf_type_refused_rollup_index_lost :
    (∃ cert proto, zeroFlow.buildCertificate (ethKeccak fun _ => zeroHash) (blockOneParams 2 7) none
          false = .ok cert ∧
        convertCertToProtoCertificate cert = .ok proto ∧
        convertProtoCertToAgglayer proto = .error (.unknownLeafType .unspecified)) ∧
      ∃ cert proto c, zeroFlow.buildCertificate (ethKeccak fun _ => zeroHash)
          (blockOneParams 0 (2 ^ 64 + 5 * 2 ^ 32 + 7)) none false = .ok cert ∧
        convertCertToProtoCertificate cert = .ok proto ∧ convertProtoCertToAgglayer proto = .ok c ∧
        cert.importedBridgeExits.map (·.globalIndex) = [⟨true, 5, 7⟩] ∧
        c.importedBridgeExits.map (·.globalIndex) = [⟨true, 0, 7⟩] :=
  ⟨⟨_, _, rfl, rfl, rfl⟩, _, _, _, rfl, rfl, rfl, by decide, by decide⟩

end AggKit.AggSender
