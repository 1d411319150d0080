import AggKit.Agglayer.Certificate

/-!
# What a signature binds

`HashCertificateToSign` hashes the new local exit root, a hash of the claims, the height, the aggchain
params and the certificate id, which in turn is a hash of hashes. Each of these hashes is of a
concatenation of fields whose widths are fixed, or of a list of entries of one width, so a message
can be read back from its bytes. Where the hash function has no collision among the messages that two
certificates hash, equal hashes therefore give equal messages, and layer by layer equal fields.

A hash of 32 bytes has collisions, so freedom from them cannot be assumed for all messages. It is
assumed for the messages of the two certificates at hand: `messages` lists everything that is hashed
for a certificate, and `CollisionFree` compares two such lists.

What is not hashed is not bound: the index and the exit roots of the L1 leaf in a claim. The rollup
index of a mainnet claim is hashed away by `GenerateGlobalIndex`, the metadata of an exit by its
width, and an amount is hashed modulo `2^256`; `Certificate.Signable` says what the certificates
must be like for these to be bound. A claim whose proofs or L1 leaf are nil pointers hashes to the
zero hash, so nothing of it would be bound either; claims have all their parts in the model, as
`BuildCertificate` and the decoder of `agglayer/grpc` give them.
-/

namespace AggKit.Agglayer

open List Certificate Bytes

/-! ## Reading messages back -/

section read

theorem length_hash (h : Hash) : h.toList.length = 32 := h.length_toList

theorem hash_append_inj {h h' : Hash} {l l' : List UInt8} (heq : h.toList ++ l = h'.toList ++ l') :
    h = h' ∧ l = l' := by
  obtain ⟨hhash, hrest⟩ := append_inj heq ((length_hash h).trans (length_hash h').symm)
  exact ⟨Vector.toList_inj.mp hhash, hrest⟩

theorem append_hash_inj {h h' : Hash} {l l' : List UInt8} (heq : l ++ h.toList = l' ++ h'.toList) :
    l = l' ∧ h = h' := by
  obtain ⟨hrest, hhash⟩ := append_inj' heq ((length_hash h).trans (length_hash h').symm)
  exact ⟨hrest, Vector.toList_inj.mp hhash⟩

/-- A number that fits is read back from its bytes. -/
theorem bigEndian_inj {w m n : ℕ} (hm : m < 256 ^ w) (hn : n < 256 ^ w)
    (h : bigEndian w m = bigEndian w n) : m = n := by
  have hmod : m % 256 ^ w = n % 256 ^ w := by
    calc m % 256 ^ w = toNat (bigEndian w m) := (toNat_bigEndian w m).symm
      _ = toNat (bigEndian w n) := by rw [h]
      _ = n % 256 ^ w := toNat_bigEndian w n
  rwa [Nat.mod_eq_of_lt hm, Nat.mod_eq_of_lt hn] at hmod

theorem bigEndian_uint32_inj {m n : UInt32}
    (h : bigEndian 4 m.toNat = bigEndian 4 n.toNat) : m = n :=
  UInt32.toNat_inj.mp (bigEndian_inj m.toNat_lt n.toNat_lt h)

theorem bigEndian_uint64_inj {m n : UInt64}
    (h : bigEndian 8 m.toNat = bigEndian 8 n.toNat) : m = n :=
  UInt64.toNat_inj.mp (bigEndian_inj m.toNat_lt n.toNat_lt h)

/-- A list of entries is read back from the concatenation of their encodings, where all have the
same width. -/
theorem flatMap_inj {α : Type} {f : α → List UInt8} {w : ℕ} (hw : 0 < w)
    (hlen : ∀ a, (f a).length = w) (hf : Function.Injective f) {l l' : List α}
    (h : l.flatMap f = l'.flatMap f) : l = l' := by
  induction l generalizing l' with
  | nil =>
    cases l' with
    | nil => rfl
    | cons a' l' =>
      have hzero : 0 = (f a').length + (l'.flatMap f).length := by
        simpa using congrArg List.length h
      rw [hlen] at hzero
      omega
  | cons a l ih =>
    cases l' with
    | nil =>
      have hzero : (f a).length + (l.flatMap f).length = 0 := by
        simpa using congrArg List.length h
      rw [hlen] at hzero
      omega
    | cons a' l' =>
      obtain ⟨hhead, htail⟩ := append_inj h ((hlen a).trans (hlen a').symm)
      rw [hf hhead, ih htail]

theorem flatMap_hash_inj {l l' : List Hash} (h : l.flatMap Vector.toList = l'.flatMap Vector.toList) :
    l = l' :=
  flatMap_inj (by decide) length_hash (fun _ _ heq => Vector.toList_inj.mp heq) h

end read

/-! ## The messages that are hashed -/

/-- No two different messages, one of each list, have the same hash. -/
def CollisionFree (sum : List UInt8 → Hash) (ms ms' : List (List UInt8)) : Prop :=
  ∀ m ∈ ms, ∀ m' ∈ ms', sum m = sum m' → m = m'

variable (sum : List UInt8 → Hash)

/-- What `MerkleProof.Hash` hashes. -/
def MerkleProof.message (m : MerkleProof Hash) : List UInt8 :=
  m.root.toList ++ m.proof.toList.flatMap Vector.toList

/-- What `L1InfoTreeLeafInner.Hash` hashes. -/
def L1InfoTreeLeafInner.message (l : L1InfoTreeLeafInner Hash) : List UInt8 :=
  l.globalExitRoot.toList ++ l.blockHash.toList ++ bigEndian 8 l.timestamp.toNat

/-- What `ClaimFromMainnet.Hash` hashes last. -/
def ClaimFromMainnet.message (c : ClaimFromMainnet Hash) : List UInt8 :=
  (c.proofLeafMER.hash (ethKeccak sum)).toList ++ (c.proofGERToL1Root.hash (ethKeccak sum)).toList ++
    (c.l1Leaf.hash (ethKeccak sum)).toList

/-- What `ClaimFromRollup.Hash` hashes last. -/
def ClaimFromRollup.message (c : ClaimFromRollup Hash) : List UInt8 :=
  (c.proofLeafLER.hash (ethKeccak sum)).toList ++ (c.proofLERToRER.hash (ethKeccak sum)).toList ++
    (c.proofGERToL1Root.hash (ethKeccak sum)).toList ++ (c.l1Leaf.hash (ethKeccak sum)).toList

/-- Everything that `Claim.Hash` hashes. -/
def Claim.messages : Claim Hash → List (List UInt8)
  | .mainnet c => [c.message sum, c.proofLeafMER.message, c.proofGERToL1Root.message,
      c.l1Leaf.inner.message]
  | .rollup c => [c.message sum, c.proofLeafLER.message, c.proofLERToRER.message,
      c.proofGERToL1Root.message, c.l1Leaf.inner.message]

/-- What `GlobalIndex.Hash` hashes. -/
def GlobalIndex.message (g : GlobalIndex) : List UInt8 := bigIntToLittleEndianBytes g.toBigInt

/-- What `ImportedBridgeExit.Hash` hashes last. -/
def ImportedBridgeExit.message (ibe : ImportedBridgeExit Hash) (claim : Claim Hash) : List UInt8 :=
  (ibe.bridgeExit.hash (ethKeccak sum)).toList ++ (claim.hash (ethKeccak sum)).toList ++
    (ibe.globalIndex.hash (ethKeccak sum)).toList

/-- Everything that `ImportedBridgeExit.Hash` hashes. -/
def ImportedBridgeExit.messages (ibe : ImportedBridgeExit Hash) : List (List UInt8) :=
  ibe.bridgeExit.encode (ethKeccak sum) :: ibe.globalIndex.message ::
    match ibe.claimData with
    | none => []
    | some claim => ibe.message sum claim :: claim.messages sum

namespace Certificate

/-- What the hash of the bridge exits in `CertificateID` is of. -/
def bridgeExitsMessage (c : Certificate Hash) : List UInt8 :=
  (c.bridgeExits.map (BridgeExit.hash (ethKeccak sum))).flatMap Vector.toList

/-- The hashes of the imported bridge exits; `none` where one has no claim data. -/
def importedBridgeExitsHashes (c : Certificate Hash) : Option (List Hash) :=
  c.importedBridgeExits.mapM (ImportedBridgeExit.hash (ethKeccak sum))

/-- What `CertificateID` hashes last. -/
def idMessage (c : Certificate Hash) (importedBridgeExitsHashes : List Hash) :
    List UInt8 :=
  bigEndian 4 c.networkID.toNat ++ bigEndian 8 c.height ++ c.prevLocalExitRoot.toList ++
    c.newLocalExitRoot.toList ++ (sum (c.bridgeExitsMessage sum)).toList ++
    (sum (importedBridgeExitsHashes.flatMap Vector.toList)).toList ++
    (ethKeccak sum).zero.toList

/-- `claimsRawMetadata` of `HashCertificateToSign`. -/
def claimsRawMetadata (c : Certificate Hash) : List UInt8 :=
  c.importedBridgeExits.flatMap fun ibe =>
    bigIntToLittleEndianBytes ibe.globalIndex.toBigInt ++
      (ibe.bridgeExit.hash (ethKeccak sum)).toList

/-- What `HashCertificateToSign` hashes last. -/
def signMessage (c : Certificate Hash) (importedBridgeExitsHashes : List Hash) :
    List UInt8 :=
  c.newLocalExitRoot.toList ++ (sum (c.claimsRawMetadata sum)).toList ++
    uint64ToLittleEndianBytes c.height ++ c.extractAggchainParams (ethKeccak sum) ++
    (sum (c.idMessage sum importedBridgeExitsHashes)).toList

/-- Everything that `HashCertificateToSign` hashes. -/
def messages (c : Certificate Hash) : List (List UInt8) :=
  c.bridgeExits.map (BridgeExit.encode (ethKeccak sum)) ++
    c.importedBridgeExits.flatMap (ImportedBridgeExit.messages sum) ++
    [c.bridgeExitsMessage sum, c.claimsRawMetadata sum] ++
    match c.importedBridgeExitsHashes sum with
    | none => []
    | some hashes => [hashes.flatMap Vector.toList, c.idMessage sum hashes, c.signMessage sum hashes]

end Certificate

/-! ## What each hash binds -/

section layers

variable {sum} {ms ms' : List (List UInt8)}

theorem CollisionFree.mono {ns ns' : List (List UInt8)} (h : CollisionFree sum ns ns')
    (hms : ms ⊆ ns) (hms' : ms' ⊆ ns') : CollisionFree sum ms ms' :=
  fun m hm m' hm' heq => h m (hms hm) m' (hms' hm') heq

theorem MerkleProof.message_inj {m m' : MerkleProof Hash} (h : m.message = m'.message) : m = m' := by
  obtain ⟨hroot, hproof⟩ := hash_append_inj h
  have hproof : m.proof = m'.proof := Vector.toList_inj.mp (flatMap_hash_inj hproof)
  cases m
  cases hroot
  cases hproof
  rfl

theorem L1InfoTreeLeafInner.message_inj {l l' : L1InfoTreeLeafInner Hash}
    (h : l.message = l'.message) : l = l' := by
  obtain ⟨hroots, htime⟩ := append_inj h (by simp only [length_append, length_hash])
  obtain ⟨hblock, hger⟩ := append_hash_inj hroots
  have hblock := Vector.toList_inj.mp hblock
  have htime : l.timestamp = l'.timestamp := bigEndian_uint64_inj htime
  cases l
  cases hblock
  cases hger
  cases htime
  rfl

theorem MerkleProof.eq_of_hash_eq {m m' : MerkleProof Hash} (hfree : CollisionFree sum ms ms')
    (hm : m.message ∈ ms) (hm' : m'.message ∈ ms')
    (h : m.hash (ethKeccak sum) = m'.hash (ethKeccak sum)) : m = m' :=
  MerkleProof.message_inj (hfree _ hm _ hm' h)

theorem L1InfoTreeLeaf.inner_eq_of_hash_eq {l l' : L1InfoTreeLeaf Hash}
    (hfree : CollisionFree sum ms ms') (hl : l.inner.message ∈ ms) (hl' : l'.inner.message ∈ ms')
    (h : l.hash (ethKeccak sum) = l'.hash (ethKeccak sum)) : l.inner = l'.inner :=
  L1InfoTreeLeafInner.message_inj (hfree _ hl _ hl' h)

/-- Two claims agree in everything that is hashed: their type, their proofs and the inner data of
their L1 leaf. -/
def Claim.Agree : Claim Hash → Claim Hash → Prop
  | .mainnet c, .mainnet c' =>
    c.proofLeafMER = c'.proofLeafMER ∧ c.proofGERToL1Root = c'.proofGERToL1Root ∧
      c.l1Leaf.inner = c'.l1Leaf.inner
  | .rollup c, .rollup c' =>
    c.proofLeafLER = c'.proofLeafLER ∧ c.proofLERToRER = c'.proofLERToRER ∧
      c.proofGERToL1Root = c'.proofGERToL1Root ∧ c.l1Leaf.inner = c'.l1Leaf.inner
  | _, _ => False

theorem ClaimFromMainnet.length_message (c : ClaimFromMainnet Hash) :
    (c.message sum).length = 96 := by
  simp only [ClaimFromMainnet.message, length_append, length_hash]

theorem ClaimFromRollup.length_message (c : ClaimFromRollup Hash) :
    (c.message sum).length = 128 := by
  simp only [ClaimFromRollup.message, length_append, length_hash]

namespace Claim

theorem agree_of_hash_eq {c c' : Claim Hash}
    (hfree : CollisionFree sum (c.messages sum) (c'.messages sum))
    (h : c.hash (ethKeccak sum) = c'.hash (ethKeccak sum)) : c.Agree c' := by
  cases c <;> cases c' <;> have hmessage := hfree _ mem_cons_self _ mem_cons_self h
  case mainnet.mainnet c c' =>
    obtain ⟨hproofs, hleaf⟩ := append_hash_inj hmessage
    obtain ⟨hmer, hger⟩ := append_hash_inj hproofs
    have hmer := Vector.toList_inj.mp hmer
    exact ⟨MerkleProof.eq_of_hash_eq hfree (by simp [messages]) (by simp [messages]) hmer,
      MerkleProof.eq_of_hash_eq hfree (by simp [messages]) (by simp [messages]) hger,
      L1InfoTreeLeaf.inner_eq_of_hash_eq hfree (by simp [messages]) (by simp [messages]) hleaf⟩
  case rollup.rollup c c' =>
    obtain ⟨hproofs, hleaf⟩ := append_hash_inj hmessage
    obtain ⟨hexits, hger⟩ := append_hash_inj hproofs
    obtain ⟨hler, hrer⟩ := append_hash_inj hexits
    have hler := Vector.toList_inj.mp hler
    exact ⟨MerkleProof.eq_of_hash_eq hfree (by simp [messages]) (by simp [messages]) hler,
      MerkleProof.eq_of_hash_eq hfree (by simp [messages]) (by simp [messages]) hrer,
      MerkleProof.eq_of_hash_eq hfree (by simp [messages]) (by simp [messages]) hger,
      L1InfoTreeLeaf.inner_eq_of_hash_eq hfree (by simp [messages]) (by simp [messages]) hleaf⟩
  -- The messages of the two types differ in length.
  all_goals
    have hlength := congrArg List.length hmessage
    rw [ClaimFromMainnet.length_message, ClaimFromRollup.length_message] at hlength
    cases hlength

end Claim

/-- The rollup index is 0 where `GenerateGlobalIndex` does not read it. -/
def GlobalIndex.Canonical (g : GlobalIndex) : Prop := g.mainnetFlag = true → g.rollupIndex = 0

theorem GlobalIndex.message_inj {g g' : GlobalIndex} (hg : g.Canonical) (hg' : g'.Canonical)
    (h : g.message = g'.message) : g = g' := by
  have hbytes : bigEndian 32 g.toBigInt = bigEndian 32 g'.toBigInt :=
    reverse_injective h
  have hindex : g.toBigInt = g'.toBigInt :=
    bigEndian_inj (BridgeSync.generateGlobalIndex_lt _ _ _) (BridgeSync.generateGlobalIndex_lt _ _ _)
      hbytes
  have hparts := congrArg BridgeSync.decodeGlobalIndex hindex
  unfold GlobalIndex.toBigInt at hparts
  rw [BridgeSync.decodeGlobalIndex_generateGlobalIndex,
    BridgeSync.decodeGlobalIndex_generateGlobalIndex] at hparts
  obtain ⟨hflag, hrest⟩ := Prod.mk.inj hparts
  obtain ⟨hrollup, hleaf⟩ := Prod.mk.inj hrest
  have hrollup' : g.rollupIndex = g'.rollupIndex := by
    by_cases hmainnet : g.mainnetFlag = true
    · rw [hg hmainnet, hg' (hflag ▸ hmainnet)]
    · rwa [if_neg hmainnet, if_neg (hflag ▸ hmainnet)] at hrollup
  cases g
  simp_all

namespace BridgeExit

/-- The exit has an amount that fits in a word, and the hash of its metadata. -/
structure Hashed (b : BridgeExit) : Prop where
  amount : ∃ a, b.amount = some a ∧ a < 2 ^ 256
  metadata : b.metadata.length = 32

theorem encode_inj {b b' : BridgeExit} (hb : b.Hashed) (hb' : b'.Hashed)
    (h : b.encode (ethKeccak sum) = b'.encode (ethKeccak sum)) : b = b' := by
  have hmeta : ∀ {x : BridgeExit}, x.Hashed → x.metaDataHash (ethKeccak sum) = x.metadata := by
    intro x hx
    refine if_neg fun hempty => ?_
    have hlength := hx.metadata
    rw [List.isEmpty_iff.mp hempty] at hlength
    cases hlength
  obtain ⟨amount, hamount, hlt⟩ := hb.amount
  obtain ⟨amount', hamount', hlt'⟩ := hb'.amount
  unfold encode at h
  rw [hmeta hb, hmeta hb', hamount, hamount'] at h
  -- The fields from the last to the first, each of a fixed width.
  obtain ⟨h, hmetadata⟩ := append_inj' h (hb.metadata.trans hb'.metadata.symm)
  obtain ⟨h, hvalue⟩ := append_inj' h (by simp only [length_bigEndian])
  obtain ⟨h, haddress⟩ := append_inj' h (by simp only [Vector.length_toList])
  obtain ⟨h, hnetwork⟩ := append_inj' h (by simp only [length_bigEndian])
  obtain ⟨h, htoken⟩ := append_inj' h (by simp only [Vector.length_toList])
  obtain ⟨hleaf, horigin⟩ := append_inj' h (by simp only [length_bigEndian])
  have horigin : b.tokenInfo.originNetwork = b'.tokenInfo.originNetwork :=
    bigEndian_uint32_inj horigin
  have htoken : b.tokenInfo.originTokenAddress = b'.tokenInfo.originTokenAddress :=
    Vector.toList_inj.mp htoken
  have hnetwork : b.destinationNetwork = b'.destinationNetwork := bigEndian_uint32_inj hnetwork
  have haddress : b.destinationAddress = b'.destinationAddress := Vector.toList_inj.mp haddress
  have hword : (256 : ℕ) ^ 32 = 2 ^ 256 := by norm_num
  have hvalue : amount = amount' := bigEndian_inj (hword ▸ hlt) (hword ▸ hlt') hvalue
  have hinfo : b.tokenInfo = b'.tokenInfo := by
    calc b.tokenInfo = ⟨b.tokenInfo.originNetwork, b.tokenInfo.originTokenAddress⟩ := rfl
      _ = ⟨b'.tokenInfo.originNetwork, b'.tokenInfo.originTokenAddress⟩ := by rw [horigin, htoken]
  cases b
  cases b'
  simp_all

theorem hash_eq {b : BridgeExit} (hb : b.validate = .ok ()) :
    b.hash (ethKeccak sum) = sum (b.encode (ethKeccak sum)) := by
  unfold hash
  rw [hb]
  rfl

theorem eq_of_hash_eq {b b' : BridgeExit} (hfree : CollisionFree sum ms ms')
    (hm : b.encode (ethKeccak sum) ∈ ms) (hm' : b'.encode (ethKeccak sum) ∈ ms')
    (hvalid : b.validate = .ok ()) (hvalid' : b'.validate = .ok ()) (hb : b.Hashed)
    (hb' : b'.Hashed) (h : b.hash (ethKeccak sum) = b'.hash (ethKeccak sum)) : b = b' := by
  rw [hash_eq hvalid, hash_eq hvalid'] at h
  exact encode_inj hb hb' (hfree _ hm _ hm' h)

end BridgeExit

/-- Two imported exits agree in everything that is hashed. -/
structure ImportedBridgeExit.Agree (ibe ibe' : ImportedBridgeExit Hash) : Prop where
  bridgeExit : ibe.bridgeExit = ibe'.bridgeExit
  globalIndex : ibe.globalIndex = ibe'.globalIndex
  claimData : ∃ claim claim', ibe.claimData = some claim ∧ ibe'.claimData = some claim' ∧
    claim.Agree claim'

theorem ImportedBridgeExit.agree_of_hash_eq {ibe ibe' : ImportedBridgeExit Hash} {h : Hash}
    (hfree : CollisionFree sum (ibe.messages sum) (ibe'.messages sum))
    (hvalid : ibe.validate = .ok ()) (hvalid' : ibe'.validate = .ok ())
    (hb : ibe.bridgeExit.Hashed) (hb' : ibe'.bridgeExit.Hashed)
    (hg : ibe.globalIndex.Canonical) (hg' : ibe'.globalIndex.Canonical)
    (hhash : ibe.hash (ethKeccak sum) = some h) (hhash' : ibe'.hash (ethKeccak sum) = some h) :
    ibe.Agree ibe' := by
  obtain ⟨claim, hclaim, hsum⟩ := Option.map_eq_some_iff.mp hhash
  obtain ⟨claim', hclaim', hsum'⟩ := Option.map_eq_some_iff.mp hhash'
  have hmessages : ibe.messages sum = ibe.bridgeExit.encode (ethKeccak sum) ::
      ibe.globalIndex.message :: ibe.message sum claim :: claim.messages sum := by
    unfold ImportedBridgeExit.messages
    rw [hclaim]
  have hmessages' : ibe'.messages sum = ibe'.bridgeExit.encode (ethKeccak sum) ::
      ibe'.globalIndex.message :: ibe'.message sum claim' :: claim'.messages sum := by
    unfold ImportedBridgeExit.messages
    rw [hclaim']
  rw [hmessages, hmessages'] at hfree
  have hmessage : ibe.message sum claim = ibe'.message sum claim' :=
    hfree _ (by simp) _ (by simp) (hsum.trans hsum'.symm)
  obtain ⟨hmessage, hindex⟩ := append_hash_inj hmessage
  obtain ⟨hexit, hdata⟩ := append_hash_inj hmessage
  refine ⟨?_, ?_, claim, claim', hclaim, hclaim', ?_⟩
  · exact BridgeExit.eq_of_hash_eq hfree (by simp) (by simp) hvalid hvalid' hb hb'
      (Vector.toList_inj.mp hexit)
  · have hsame : ibe.globalIndex.message = ibe'.globalIndex.message :=
      hfree _ (by simp) _ (by simp) hindex
    exact GlobalIndex.message_inj hg hg' hsame
  · refine Claim.agree_of_hash_eq (hfree.mono ?_ ?_) hdata
    · exact fun m hm => by simp [hm]
    · exact fun m hm => by simp [hm]

end layers

/-! ## Lists of exits -/

section lists

/-- Entries that are related to the same values are related to each other. -/
theorem forall₂_of_common {α β : Type} {R : α → β → Prop} {S : α → α → Prop} {l l' : List α}
    {bs : List β} (h : List.Forall₂ R l bs) (h' : List.Forall₂ R l' bs)
    (hS : ∀ a ∈ l, ∀ a' ∈ l', ∀ b, R a b → R a' b → S a a') : List.Forall₂ S l l' := by
  induction h generalizing l' with
  | nil =>
    cases h'
    exact .nil
  | cons hab _ ih =>
    obtain ⟨a', l', hab', htail, rfl⟩ := List.forall₂_cons_right_iff.mp h'
    refine .cons (hS _ mem_cons_self _ mem_cons_self _ hab hab') (ih htail ?_)
    exact fun x hx y hy => hS x (mem_cons_of_mem _ hx) y (mem_cons_of_mem _ hy)

theorem eq_of_map_eq {α β : Type} {f : α → β} {l l' : List α}
    (hf : ∀ a ∈ l, ∀ a' ∈ l', f a = f a' → a = a') (h : l.map f = l'.map f) : l = l' := by
  have hself : ∀ l : List α, List.Forall₂ (fun a b => f a = b) l (l.map f) := fun l =>
    List.forall₂_map_right_iff.mpr (List.forall₂_same.mpr fun _ _ => rfl)
  have hall := forall₂_of_common (hself l) (h ▸ hself l') fun a ha a' ha' b hb hb' =>
    hf a ha a' ha' (hb.trans hb'.symm)
  rwa [List.forall₂_eq_eq_eq] at hall

end lists

/-! ## The certificate -/

/-- The certificate is one whose fields the hash determines: the height is a `uint64`, every exit has
an amount that fits and the hash of its metadata, and no mainnet index has a rollup index. -/
structure Certificate.Signable (c : Certificate Hash) : Prop where
  height : c.height < 2 ^ 64
  bridgeExits : ∀ b ∈ c.bridgeExits, b.Hashed
  importedBridgeExits : ∀ ibe ∈ c.importedBridgeExits,
    ibe.bridgeExit.Hashed ∧ ibe.globalIndex.Canonical

section certificate

variable {sum} {c c' : Certificate Hash} {h : Hash}

theorem length_extractAggchainParams (c : Certificate Hash) :
    (c.extractAggchainParams (ethKeccak sum)).length = 32 := by
  unfold extractAggchainParams
  split <;> exact length_hash _

theorem hashCertificateToSign_eq_ok
    (hh : hashCertificateToSign (ethKeccak sum) c = .ok (some h)) :
    c.validate = .ok () ∧ ∃ hashes, c.importedBridgeExitsHashes sum = some hashes ∧
      h = sum (c.signMessage sum hashes) := by
  obtain ⟨⟨⟩, hvalid, hh⟩ := Exec.except_bind_ok.mp hh
  obtain ⟨id, hid, hsum⟩ := Option.map_eq_some_iff.mp (Except.ok.inj hh)
  obtain ⟨hashes, hhashes, hid⟩ := Option.map_eq_some_iff.mp hid
  refine ⟨hvalid, hashes, hhashes, ?_⟩
  rw [← hsum, ← hid]
  rfl

namespace Certificate

/-- What is hashed for an exit is hashed for its certificate. -/
theorem encode_mem_messages {b : BridgeExit} (hb : b ∈ c.bridgeExits) :
    b.encode (ethKeccak sum) ∈ c.messages sum := by
  unfold messages
  simp only [append_assoc]
  exact mem_append_left _ (mem_map_of_mem hb)

theorem messages_subset {ibe : ImportedBridgeExit Hash}
    (hibe : ibe ∈ c.importedBridgeExits) : ibe.messages sum ⊆ c.messages sum := by
  intro m hm
  unfold messages
  simp only [append_assoc]
  refine mem_append_right _ (mem_append_left _ ?_)
  exact mem_flatMap.mpr ⟨ibe, hibe, hm⟩

theorem bridgeExitsMessage_mem_messages : c.bridgeExitsMessage sum ∈ c.messages sum := by
  unfold messages
  simp

theorem last_mem_messages {hashes : List Hash}
    (hhashes : c.importedBridgeExitsHashes sum = some hashes) :
    hashes.flatMap Vector.toList ∈ c.messages sum ∧ c.idMessage sum hashes ∈ c.messages sum ∧
      c.signMessage sum hashes ∈ c.messages sum := by
  unfold messages
  rw [hhashes]
  simp

end Certificate

end certificate

/-- The bytes as the digits of a number modulo a prime. -/
def digitSum (m : List UInt8) : Hash :=
  fit 32 (bigEndian 32
    (m.foldl (fun n b => (n * 257 + b.toNat + 1) % (2 ^ 255 - 19)) 0))

/-- A certificate with one exit and one imported exit, for the L1 leaf with the index. -/
def certificateAtLeaf (l1InfoTreeIndex : UInt32) : Certificate Hash :=
  let zero : Hash := Vector.replicate 32 0
  let exit (amount : ℕ) : BridgeExit :=
    ⟨LeafTypeAsset, ⟨0, Vector.replicate 20 1⟩, 1, Vector.replicate 20 2, some amount,
      List.replicate 32 3⟩
  let claim : ClaimFromMainnet Hash :=
    ⟨⟨Vector.replicate 32 4, Vector.replicate 32 zero⟩,
      ⟨Vector.replicate 32 5, Vector.replicate 32 zero⟩,
      ⟨l1InfoTreeIndex, zero, zero, ⟨Vector.replicate 32 6, zero, 7⟩⟩⟩
  ⟨1, 0, zero, Vector.replicate 32 8, [exit 5], [⟨exit 6, some (.mainnet claim), ⟨true, 0, 9⟩⟩],
    [], none, 1⟩

theorem certificateAtLeaf_signable (l1InfoTreeIndex : UInt32) :
    (certificateAtLeaf l1InfoTreeIndex).Signable where
  height := Nat.two_pow_pos 64
  bridgeExits := by
    intro b hb
    cases mem_singleton.mp hb
    exact ⟨⟨5, rfl, by decide⟩, rfl⟩
  importedBridgeExits := by
    intro ibe hibe
    cases mem_singleton.mp hibe
    exact ⟨⟨⟨6, rfl, by decide⟩, rfl⟩, fun _ => rfl⟩

/-- Messages with different hashes have no collision among them. -/
theorem CollisionFree.of_nodup {sum : List UInt8 → Hash} {ms : List (List UInt8)}
    (h : (ms.map sum).Nodup) : CollisionFree sum ms ms :=
  fun _ hm _ hm' heq => inj_on_of_nodup_map h hm hm' heq

/-- The index of the L1 leaf takes no part in what is hashed. -/
theorem certificateAtLeaf_messages (i j : UInt32) :
    (certificateAtLeaf i).messages digitSum = (certificateAtLeaf j).messages digitSum := rfl

theorem certificateAtLeaf_collisionFree (i j : UInt32) :
    CollisionFree digitSum ((certificateAtLeaf i).messages digitSum)
      ((certificateAtLeaf j).messages digitSum) := by
  rw [certificateAtLeaf_messages i 0, certificateAtLeaf_messages j 0]
  exact CollisionFree.of_nodup (by decide +kernel)

end AggKit.Agglayer
