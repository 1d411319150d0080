import AggKit.AggSender.FlowBase
import AggKit.BridgeSync.Query

/-!
# The local exit root of a certificate and its exits

A certificate says twice what left the network: the list of its bridge exits, and the local exit root
they lead to. The two come from different places. The exits are bridges of `bridgesync`, converted
and then hashed by `BridgeExit.Hash`. The root is looked up in the exit tree of `bridgesync`, whose
leaves were hashed by `Bridge.Hash` when they were put, with the deposit count of the last bridge.

`convertToBridgeExit_hash` says that the two hashes agree: the exit carries the hash of the metadata,
which is what the leaf is made of, and a nil amount is hashed as zero. `newLocalExitRoot_of_run` says
that the root is the one of the exits appended to the leaves under the previous root, in every state
of `bridgesync` in which bridges and exit tree are in step.

A state that is out of step is passed on. In `newLocalExitRoot_after_rollback` a block fails after it
has put two leaves and is processed again; the frontier in memory has still the leaves of the first
attempt, and the root of the certificate is not the root of its exits.
-/

namespace AggKit.AggSender

open List BridgeSync Tree

open Agglayer (BridgeExit LeafTypeMessage)
open Run

/-! ## The two hashes of a leaf -/

section leaf

variable {H : Type} {K : Keccak H}

/-- The exit itself, or the same with a nil amount for zero. -/
def UpToNilAmount (e e' : BridgeExit) : Prop :=
  e' = e ∨ (e.amount = some 0 ∧ e' = { e with amount := none })

/-- A nil amount is hashed as zero. -/
theorem UpToNilAmount.hash_eq {e e' : BridgeExit} (he : UpToNilAmount e e') :
    e'.hash K = e.hash K := by
  rcases he with rfl | ⟨hzero, rfl⟩
  · rfl
  · unfold BridgeExit.hash BridgeExit.validate BridgeExit.encode BridgeExit.metaDataHash
    simp only [hzero, Option.getD_none, Option.getD_some]

theorem UpToNilAmount.map_hash_eq {exits exits' : List BridgeExit}
    (hexits : List.Forall₂ UpToNilAmount exits exits') :
    exits'.map (BridgeExit.hash K) = exits.map (BridgeExit.hash K) := by
  induction hexits with
  | nil => rfl
  | cons he _ ih => rw [map_cons, map_cons, he.hash_eq, ih]

/-- The exit made from a bridge has the hash of the bridge: its metadata is the hash of the bridge's,
never empty. -/
theorem convertToBridgeExit_hash (hbytes : ∀ h, K.bytes h ≠ []) {b : Bridge H}
    (htype : b.leafType ≤ LeafTypeMessage) : (convertToBridgeExit K b).hash K = b.hash K := by
  have hvalid : (convertToBridgeExit K b).validate = .ok () := by
    exact if_neg (UInt8.not_lt.mpr htype)
  have hmeta : (convertToBridgeExit K b).metaDataHash K = K.bytes (K.sum b.metadata) := by
    refine if_neg ?_
    rw [List.isEmpty_iff]
    exact hbytes _
  unfold BridgeExit.hash
  rw [hvalid]
  unfold BridgeExit.encode
  rw [hmeta]
  rfl

theorem convertToBridgeExits_hash (hbytes : ∀ h, K.bytes h ≠ []) {bridges : List (Bridge H)}
    (htypes : ∀ b ∈ bridges, b.leafType ≤ LeafTypeMessage) :
    (convertToBridgeExits K bridges).map (BridgeExit.hash K) = bridges.map (Bridge.hash K) := by
  unfold convertToBridgeExits
  rw [map_map]
  apply map_congr_left
  intro b hb
  exact convertToBridgeExit_hash hbytes (htypes b hb)

end leaf

/-! ## The root of the last bridge -/

variable {H : Type} [DecidableEq H]

/-- The querier passes on what `bridgesync` answers. -/
structure BridgeQuerier.AnswersFrom (q : BridgeQuerier H) (p : Processor H) : Prop where
  bridges : ∀ fromBlock toBlock, p.getBridges fromBlock toBlock = .ok (q.getBridges fromBlock toBlock)
  exitRoots : ∀ index root, p.getExitRootByIndex index = .ok root →
    q.getExitRootByIndex index = root.map Root.hash

/-- A processor that has halted answers nothing. -/
theorem BridgeQuerier.AnswersFrom.not_halted {q : BridgeQuerier H} {p : Processor H}
    (hanswers : q.AnswersFrom p) : p.halted = false := by
  have hlisted := hanswers.bridges 0 0
  unfold Processor.getBridges at hlisted
  cases hhalted : p.halted with
  | false => rfl
  | true => simp [hhalted] at hlisted

/-- The bridges come right after the first `n` leaves of the exit tree, whose root is `prevLER`. -/
structure Follows (K : Keccak H) (rows : List (Bridge H)) (prevLER : H) (n : ℕ)
    (bridges : List (Bridge H)) : Prop where
  prev : prevLER = Merkle.root K.pair K.zero DefaultHeight ((rows.take n).map (Bridge.hash K))
  counts : bridges.map (fun b => b.depositCount.toNat) = List.range' n bridges.length

section follows

variable {cfg : Config H} {rows : List (Bridge H)} {σ : State H} {prevLER : H}
  {n : ℕ} {bridges : List (Bridge H)}

omit [DecidableEq H] in
/-- In step with the exit tree, bridges that follow are the next rows of the table. -/
theorem Follows.take_append (hC : BridgeSync.Consistent cfg rows σ) (hsub : bridges ⊆ rows)
    (hfollows : Follows cfg.keccak rows prevLER n bridges) (hne : bridges ≠ []) :
    n + bridges.length ≤ rows.length ∧ rows.take n ++ bridges = rows.take (n + bridges.length) := by
  have hcount : ∀ (i : ℕ) (hi : i < bridges.length), bridges[i].depositCount.toNat = n + i := by
    intro i hi
    have hget := congrArg (fun l => l[i]?) hfollows.counts
    simpa [hi] using hget
  -- Each bridge is the row at the place of its deposit count.
  have hrow : ∀ (i : ℕ) (hi : i < bridges.length), rows[n + i]? = some bridges[i] := by
    intro i hi
    obtain ⟨j, hj, hget⟩ := getElem_of_mem (hsub (getElem_mem hi))
    have hplace := hC.depositCount_eq hj
    rw [hget, hcount i hi] at hplace
    rw [hplace, getElem?_eq_getElem hj, hget]
  have hlen : n + bridges.length ≤ rows.length := by
    have hpos := length_pos_iff.mpr hne
    have hlast := hrow (bridges.length - 1) (by omega)
    have hlt := (List.getElem?_eq_some_iff.mp hlast).1
    omega
  refine ⟨hlen, ?_⟩
  rw [take_add]
  congr 1
  refine ext_getElem (by simp; omega) fun i hi hi' => ?_
  have hget := hrow i hi
  rw [getElem?_eq_getElem (by omega)] at hget
  simpa using (Option.some.inj hget).symm

end follows

/-- In every state of `bridgesync` that calls which fit and return no error lead to, a certificate
over a block range whose bridges come right after the leaves under its previous local exit root has
as new local exit root the root of those leaves with the hashes of its exits appended. Leaf types are
those of assets and messages, metadata and amounts arbitrary, and any zero amount may be nil. -/
theorem newLocalExitRoot_of_run {cfg : Config H}
    (hinj : Function.Injective2 cfg.keccak.pair) (hbytes : ∀ h, cfg.keccak.bytes h ≠ [])
    {p : Processor H} (hrun : Reach (fun p c => (p.call cfg c).2)
      (fun p c => (p.call cfg c).1 = .ok () ∧ Fits cfg p.db c) (Processor.new cfg) p)
    {f : BaseFlow H} (hanswers : f.l2BridgeQuerier.AnswersFrom p)
    {certParams : CertificateBuildParams H} {fromBlock toBlock : ℕ}
    (hbridges : certParams.bridges = f.l2BridgeQuerier.getBridges fromBlock toBlock)
    (htypes : ∀ b ∈ certParams.bridges, b.leafType ≤ LeafTypeMessage)
    {lastSentCertificate : Option (CertificateHeader H)} {allowEmptyCert : Bool}
    {cert : Agglayer.Certificate H}
    (hbuild : f.buildCertificate cfg.keccak certParams lastSentCertificate allowEmptyCert = .ok cert)
    {n : ℕ} (hfollows : Follows cfg.keccak p.db.bridge.rows cert.prevLocalExitRoot n
      certParams.bridges)
    {exits : List BridgeExit} (hexits : List.Forall₂ UpToNilAmount cert.bridgeExits exits) :
    cert.newLocalExitRoot = Merkle.root cfg.keccak.pair cfg.keccak.zero DefaultHeight
      ((p.db.bridge.rows.take n).map (Bridge.hash cfg.keccak) ++
        exits.map (BridgeExit.hash cfg.keccak)) := by
  have hC := consistent_of_run hinj hrun
  have hbuilt := BaseFlow.buildCertificate_eq_ok_iff.mp hbuild
  -- The hashes of the exits are the leaves of the bridges.
  have hhashes : exits.map (BridgeExit.hash cfg.keccak) =
      certParams.bridges.map (Bridge.hash cfg.keccak) := by
    rw [UpToNilAmount.map_hash_eq hexits, hbuilt.bridgeExits, convertToBridgeExits_hash hbytes htypes]
  rw [hhashes, ← map_append]
  have hnew := hbuilt.newLER
  unfold BaseFlow.getNewLocalExitRoot at hnew
  by_cases hnone : certParams.bridges = []
  · rw [if_pos (by simp [CertificateBuildParams.numberOfBridges, hnone])] at hnew
    rw [hnone, append_nil, ← hfollows.prev]
    exact (Except.ok.inj hnew).symm
  · rw [if_neg (by simpa [CertificateBuildParams.numberOfBridges] using hnone)] at hnew
    have hhalted := hanswers.not_halted
    have hsub : certParams.bridges ⊆ p.db.bridge.rows := by
      have hlisted := (hanswers.bridges fromBlock toBlock).symm.trans
        (hC.getBridges hhalted fromBlock toBlock)
      rw [hbridges, Except.ok.inj hlisted]
      exact filter_sublist.subset
    obtain ⟨hlen, htake⟩ := hfollows.take_append hC hsub hnone
    have hpos := length_pos_iff.mpr hnone
    have hmax : certParams.maxDepositCount.toNat = n + certParams.bridges.length - 1 := by
      have hlast := congrArg List.getLast? hfollows.counts
      rw [getLast?_map, getLast?_range', if_neg (by omega)] at hlast
      obtain ⟨b, hb, hcount⟩ := Option.map_eq_some_iff.mp hlast
      rw [CertificateBuildParams.maxDepositCount, hb]
      simp only [Option.map_some, Option.getD_some]
      omega
    have hroot := hC.getRootByIndex
      (show certParams.maxDepositCount.toNat < p.db.bridge.rows.length by omega)
    rw [← hanswers.exitRoots _ _ (if_neg (by simp [hhalted])), hmax,
      Nat.sub_add_cancel (by omega)] at hroot
    rw [hroot] at hnew
    rw [htake]
    exact (Except.ok.inj hnew).symm

/-! ## A run in step -/

/-- The querier on a state of `bridgesync`, without claims. -/
def bridgeSyncQuerier (p : Processor H) : BridgeQuerier H where
  originNetwork := 1
  getLastProcessedBlock := none
  getBridges fromBlock toBlock := (p.getBridges fromBlock toBlock).toOption.getD []
  getClaims _ _ := []
  getUnsetClaimsForBlockRange _ _ := []
  getExitRootByIndex index :=
    ((p.getExitRootByIndex index).toOption.getD none).map Root.hash

theorem answersFrom_bridgeSyncQuerier {p : Processor H} (hhalted : p.halted = false) :
    (bridgeSyncQuerier p).AnswersFrom p := by
  constructor
  · simp [bridgeSyncQuerier, Processor.getBridges, hhalted, Except.toOption]
  · intro index root hroot
    simp [bridgeSyncQuerier, hroot, Except.toOption]

/-- A flow on a state of `bridgesync`, with an empty L1 info tree. -/
def flowOn (p : Processor H) (initialLER : H) : BaseFlow H where
  l2BridgeQuerier := bridgeSyncQuerier p
  getCertificateHeaderByHeight _ := none
  l1InfoTreeDataQuerier :=
    { getInfoByGlobalExitRoot := fun _ => none
      getL1InfoTreeMerkleProofFromIndexToRoot := fun _ _ => none
      getL1InfoTreeRootByIndex := fun _ => none
      latestL1InfoLeafIndex := none
      doesGERExistsOnL1 := fun _ => false }
  initialLER := initialLER
  cfg :=
    { maxCertSize := 0
      startL2Block := 0
      fullClaimsNeeded := true
      estimatedSize := fun _ _ => 0 }

/-- The bridges of a block range, without claims. -/
def bridgesOnly (p : Processor H) (root : H) (fromBlock toBlock : ℕ) : CertificateBuildParams H where
  fromBlock := fromBlock
  toBlock := toBlock
  bridges := (bridgeSyncQuerier p).getBridges fromBlock toBlock
  claims := []
  unclaims := []
  retryCount := 0
  lastSentCertificate := none
  l1InfoTreeRootFromWhichToProve := root
  l1InfoTreeLeafCount := 0
  certificateType := .pp

/-- The processor with the free hash after a block with one bridge. -/
def afterFirstBlock : Processor (List UInt8) :=
  ((Processor.new freeConfig).call freeConfig
    (.processBlock oneBridge)).2

/-- The flow before any certificate, on the root of an empty exit tree. -/
def firstFlow : BaseFlow (List UInt8) :=
  flowOn afterFirstBlock (Merkle.root freeKeccak.pair freeKeccak.zero DefaultHeight [])

theorem afterFirstBlock_not_halted : afterFirstBlock.halted = false := by
  decide +kernel

/-- The first certificate over that block: its new local exit root is the root of its one exit. -/
theorem newLocalExitRoot_of_run_firstBlock :
    ∃ cert, firstFlow.buildCertificate freeKeccak (bridgesOnly afterFirstBlock [] 1 1) none false =
        .ok cert ∧
      cert.bridgeExits.length = 1 ∧
      cert.newLocalExitRoot = Merkle.root freeKeccak.pair freeKeccak.zero DefaultHeight
        (cert.bridgeExits.map (BridgeExit.hash freeKeccak)) := by
  have hinj : Function.Injective2 freeConfig.keccak.pair := freeKeccak_injective2_pair
  have hok : ((Processor.new freeConfig).call freeConfig (.processBlock oneBridge)).1 = .ok () := by
    decide +kernel
  have hrun : Reach (fun p c => (p.call freeConfig c).2)
      (fun p c => (p.call freeConfig c).1 = .ok () ∧ Fits freeConfig p.db c)
      (Processor.new freeConfig) afterFirstBlock :=
    .step .init ⟨hok, oneBridge_orderly⟩
  have hbridges : (bridgesOnly afterFirstBlock [] 1 1).bridges = [bridgeAt [] 1 0 0 7] := by
    decide +kernel
  have hisOk : (firstFlow.buildCertificate freeKeccak (bridgesOnly afterFirstBlock [] 1 1) none
      false).isOk = true := by
    decide +kernel
  obtain ⟨cert, hcert⟩ := Exec.except_isOk_iff.mp hisOk
  have hbuilt := BaseFlow.buildCertificate_eq_ok_iff.mp hcert
  have hprev : cert.prevLocalExitRoot =
      Merkle.root freeKeccak.pair freeKeccak.zero DefaultHeight [] :=
    (congrArg Prod.snd (Except.ok.inj hbuilt.height)).symm
  have hfollows : Follows freeKeccak afterFirstBlock.db.bridge.rows cert.prevLocalExitRoot 0
      (bridgesOnly afterFirstBlock [] 1 1).bridges := ⟨hprev, by rw [hbridges]; rfl⟩
  have hnew := newLocalExitRoot_of_run hinj (fun h => by simp [freeConfig, freeKeccak])
    hrun (answersFrom_bridgeSyncQuerier afterFirstBlock_not_halted) rfl (by rw [hbridges]; decide) hcert
    hfollows (List.forall₂_same.mpr fun e _ => .inl rfl)
  refine ⟨cert, hcert, ?_, hnew⟩
  rw [hbuilt.bridgeExits, hbridges]
  rfl

/-! ## A state out of step -/

/-- The calls: a bridge, then a block that fails after two leaves since both have one position, then
the block with their positions. -/
def retriedBlock : List (Call ℕ) :=
  [.processBlock ⟨1, 0, [{ bridge := some (bridgeAt 0 1 0 0 1) }]⟩,
    .processBlock ⟨2, 0, [{ bridge := some (bridgeAt 0 2 0 1 2) },
      { bridge := some (bridgeAt 0 2 0 2 3) }]⟩,
    .processBlock ⟨2, 0, [{ bridge := some (bridgeAt 0 2 0 1 2) },
      { bridge := some (bridgeAt 0 2 1 2 3) }]⟩]

/-- The processor after these calls. -/
def afterRetry : Processor ℕ :=
  retriedBlock.foldl (fun p c => (p.call toyConfig c).2)
    (Processor.new toyConfig)

/-- The certificate over block 1, settled. -/
def settledFirst : CertificateHeader ℕ where
  height := 0
  retryCount := 0
  certificateID := 0
  previousLocalExitRoot := none
  newLocalExitRoot := Merkle.listRoot toyKeccak.pair 0 DefaultHeight
    [(bridgeAt 0 1 0 0 1).hash toyKeccak]
  fromBlock := 1
  toBlock := 1
  status := .settled
  createdAt := 0
  updatedAt := 0
  finalizedL1InfoTreeRoot := none
  l1InfoTreeLeafCount := 0
  certType := .pp
  certSource := .localSender

/-- The certificate over block 2 is built on the root of the first bridge, its two bridges come right
after it, and its new local exit root is not the root of the first bridge and its exits. -/
theorem newLocalExitRoot_after_rollback :
    ∃ cert, (flowOn afterRetry 0).buildCertificate toyKeccak
        (bridgesOnly afterRetry 0 2 2) (some settledFirst) false = .ok cert ∧
      Follows toyKeccak afterRetry.db.bridge.rows cert.prevLocalExitRoot 1
        (bridgesOnly afterRetry 0 2 2).bridges ∧
      (∀ b ∈ (bridgesOnly afterRetry 0 2 2).bridges, b.leafType ≤ LeafTypeMessage) ∧
      cert.newLocalExitRoot ≠ Merkle.root toyKeccak.pair toyKeccak.zero
        DefaultHeight ((afterRetry.db.bridge.rows.take 1).map (Bridge.hash toyKeccak)
          ++ cert.bridgeExits.map (BridgeExit.hash toyKeccak)) := by
  -- The same facts with roots that compute.
  have hfacts : (match (flowOn afterRetry 0).buildCertificate toyKeccak
        (bridgesOnly afterRetry 0 2 2) (some settledFirst) false with
      | .ok cert => decide (cert.prevLocalExitRoot = Merkle.listRoot toyKeccak.pair
            toyKeccak.zero DefaultHeight
            ((afterRetry.db.bridge.rows.take 1).map (Bridge.hash toyKeccak)) ∧
          cert.newLocalExitRoot ≠ Merkle.listRoot toyKeccak.pair
            toyKeccak.zero DefaultHeight
            ((afterRetry.db.bridge.rows.take 1).map (Bridge.hash toyKeccak) ++
              cert.bridgeExits.map (BridgeExit.hash toyKeccak)))
      | .error _ => false) = true := by
    decide +kernel
  cases hcert : (flowOn afterRetry 0).buildCertificate toyKeccak
      (bridgesOnly afterRetry 0 2 2) (some settledFirst) false with
  | error err => simp [hcert] at hfacts
  | ok cert =>
    simp only [hcert, decide_eq_true_eq, Merkle.listRoot_eq_root] at hfacts
    refine ⟨cert, rfl, ⟨hfacts.1, ?_⟩, ?_, hfacts.2⟩
    · decide +kernel
    · decide +kernel

end AggKit.AggSender
