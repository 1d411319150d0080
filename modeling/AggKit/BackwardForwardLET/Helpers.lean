import AggKit.Agglayer.Json
import AggKit.BridgeSync.Bridge

/-!
# The leaves and the roots of `tools/backward_forward_let/helpers.go`

The tool compares the exits of settled certificates with the bridges of L2 by their leaf hashes, and
computes what the local exit root has to be after leaves are appended. `computeFrontier` and
`computeRootFromFrontier` walk up the path of every leaf as the contract does; that they compute the
root of the tree over all the leaves is `computeRootFromFrontier_eq`.

The bridge contract is outside of the program. `L2Bridge` has what the tool reads of it: the leaves
of the tree and the emergency state. The leaf that the contract makes of leaf data has the hash of
`leafDataLeafHash`, in which the metadata are hashed. Deposit counts are numbers: the contract lets
no tree grow beyond 32 levels.
-/

namespace AggKit.BackwardForwardLET

open Agglayer BridgeSync TextEncoding Merkle List

/-! ## Leaves -/

/-- `BridgeResponse` of the bridge service, as far as the tool reads it. -/
structure BridgeResponse where
  leafType : UInt8
  originNetwork : UInt32
  originAddress : String
  destinationNetwork : UInt32
  destinationAddress : String
  amount : String
  metadata : String
deriving DecidableEq

/-- `parseAmount`. -/
def parseAmount (s : String) : ℕ := (decimalDecode s.toList).getD 0

/-- `decodeMetadata`. -/
def decodeMetadata (s : String) : List UInt8 :=
  let digits := match s.toList with
    | '0' :: 'x' :: rest => rest
    | cs => cs
  (hexDecode digits).getD []

/-- `common.HexToAddress`. -/
def hexToAddress (s : String) : Address := Bytes.fit 20 (fromHex s)

/-- `BridgeResponseToLeafData`. -/
def bridgeResponseToLeafData (br : BridgeResponse) : LeafData where
  leafType := br.leafType
  originNetwork := br.originNetwork
  originAddress := hexToAddress br.originAddress
  destinationNetwork := br.destinationNetwork
  destinationAddress := hexToAddress br.destinationAddress
  amount := parseAmount br.amount
  metadata := decodeMetadata br.metadata

/-- `bridgeExitToContractLeaf`. -/
def bridgeExitToContractLeaf (be : BridgeExit) : LeafData where
  leafType := be.leafType
  originNetwork := be.tokenInfo.originNetwork
  originAddress := be.tokenInfo.originTokenAddress
  destinationNetwork := be.destinationNetwork
  destinationAddress := be.destinationAddress
  amount := be.amount.getD 0
  metadata := be.metadata

/-- `leafDataToContractLeaf`, which copies every field. -/
def leafDataToContractLeaf (ld : LeafData) : LeafData := ld

variable {H : Type} (K : Keccak H)

/-- `BridgeExitLeafHash`. -/
def bridgeExitLeafHash (be : BridgeExit) : H := be.hash K

/-- `leafDataLeafHash`. -/
def leafDataLeafHash (ld : LeafData) : H :=
  K.sum ([ld.leafType] ++ Bytes.bigEndian 4 ld.originNetwork.toNat ++ ld.originAddress.toList ++
    Bytes.bigEndian 4 ld.destinationNetwork.toNat ++ ld.destinationAddress.toList ++
    Bytes.bigEndian 32 ld.amount ++ K.bytes (K.sum ld.metadata))

/-- `BridgeResponseLeafHash`. -/
def bridgeResponseLeafHash (br : BridgeResponse) : H :=
  K.sum ([br.leafType] ++ Bytes.bigEndian 4 br.originNetwork.toNat ++
    (hexToAddress br.originAddress).toList ++ Bytes.bigEndian 4 br.destinationNetwork.toNat ++
    (hexToAddress br.destinationAddress).toList ++ Bytes.bigEndian 32 (parseAmount br.amount) ++
    K.bytes (K.sum (decodeMetadata br.metadata)))

/-! ## Frontiers and roots -/

/-- The errors of `computeFrontier` and `computeRootFromFrontier`. -/
inductive TreeError where
  /-- `insufficient leaf hashes: need %d, got %d` -/
  | insufficientLeafHashes (need got : ℕ)
  /-- `targetIndex %d out of range (len=%d)` -/
  | outOfRange (targetIndex len : ℕ)
  /-- `newLeafHashes must not be empty` -/
  | emptyNewLeafHashes
deriving DecidableEq

/-- The inner loop of `computeFrontier` and `computeRootFromFrontier` after its first `h` iterations:
the node and the frontier. -/
def climb (index : ℕ) (leafHash : H) (frontier : ℕ → H) : ℕ → H × (ℕ → H)
  | 0 => (leafHash, frontier)
  | h + 1 =>
    let c := climb index leafHash frontier h
    if index.testBit h then
      -- Right child: pair with cached left sibling, propagate up.
      (K.pair (c.2 h) c.1, c.2)
    else
      -- Left child: cache node at this height, propagate up with zero sibling.
      (K.pair c.1 (zeroHash K.pair K.zero h), Function.update c.2 h c.1)

/-- The leaves of the outer loops: the frontier after all of them. -/
def frontierAfter (frontier : ℕ → H) : ℕ → List H → ℕ → H
  | _, [] => frontier
  | i, x :: xs => frontierAfter (climb K i x frontier 32).2 (i + 1) xs

/-- The outer loop of `computeRootFromFrontier`: the root after the last leaf. -/
def rootAfter (root : H) (frontier : ℕ → H) : ℕ → List H → H
  | _, [] => root
  | i, x :: xs =>
    let c := climb K i x frontier 32
    rootAfter c.1 c.2 (i + 1) xs

/-- `computeFrontier`. -/
def computeFrontier (leafHashes : List H) (targetIndex : ℕ) : Except TreeError (ℕ → H) :=
  if leafHashes.length < targetIndex then
    .error (.insufficientLeafHashes targetIndex leafHashes.length)
  else
    let frontier := frontierAfter K (fun _ => K.zero) 0 (leafHashes.take targetIndex)
    .ok fun h => if targetIndex.testBit h then frontier h else K.zero

/-- `computeRootFromFrontier`. -/
def computeRootFromFrontier (frontier : ℕ → H) (existingCount : ℕ) (newLeafHashes : List H) :
    Except TreeError H :=
  if newLeafHashes = [] then .error .emptyNewLeafHashes
  else .ok (rootAfter K K.zero frontier existingCount newLeafHashes)

/-- The levels of `computeMerkleProof`: the sibling of the index at each height. -/
def merkleSiblings (currentLevel : List H) (idx : ℕ) : ℕ → ℕ → List H
  | _, 0 => []
  | h, n + 1 =>
    let zeros := zeroHash K.pair K.zero h
    let nextLevel := (List.range ((currentLevel.length + 1) / 2)).map fun j =>
      K.pair (currentLevel.getD (2 * j) zeros) (currentLevel.getD (2 * j + 1) zeros)
    currentLevel.getD (idx ^^^ 1) zeros :: merkleSiblings nextLevel (idx / 2) (h + 1) n

/-- `computeMerkleProof`. -/
def computeMerkleProof (allLeafHashes : List H) (targetIndex : ℕ) : Except TreeError (List H) :=
  if allLeafHashes.length ≤ targetIndex then .error (.outOfRange targetIndex allLeafHashes.length)
  else .ok (merkleSiblings K allLeafHashes targetIndex 0 32)

/-- `ComputeBackwardLETParams`: the frontier, the next leaf and the proof. -/
def computeBackwardLETParams (allLeafHashes : List H) (targetIndex : ℕ) :
    Except TreeError ((ℕ → H) × H × List H) :=
  if allLeafHashes.length ≤ targetIndex then .error (.outOfRange targetIndex allLeafHashes.length)
  else do
    let frontier ← computeFrontier K allLeafHashes targetIndex
    let proof ← computeMerkleProof K allLeafHashes targetIndex
    return (frontier, allLeafHashes.getD targetIndex K.zero, proof)

/-! ## The contract and the bridge service -/

/-- The bridge contract of L2, as far as the tool reads and changes it. -/
structure L2Bridge (H : Type) where
  leaves : List H
  emergency : Bool
deriving DecidableEq

/-- `DepositCount`. -/
def L2Bridge.depositCount (b : L2Bridge H) : ℕ := b.leaves.length

/-- `GetRoot`. -/
def L2Bridge.getRoot (b : L2Bridge H) : H := root K.pair K.zero 32 b.leaves

/-- What `BackwardLET` does. -/
def L2Bridge.backwardLET (newDepositCount : ℕ) (b : L2Bridge H) : L2Bridge H :=
  { b with leaves := b.leaves.take newDepositCount }

/-- What `ForwardLET` does. -/
def L2Bridge.forwardLET (newLeaves : List LeafData) (b : L2Bridge H) : L2Bridge H :=
  { b with leaves := b.leaves ++ newLeaves.map (leafDataLeafHash K) }

/-- Why the bridge service has no answer. -/
inductive ServiceError where
  /-- `ErrNotFound` of the client -/
  | notFound
  /-- any other error -/
  | failed
deriving DecidableEq

/-- `GetBridgeByDepositCount` of the bridge service. -/
abbrev BridgeService := ℕ → Except ServiceError BridgeResponse

/-- `fetchL2LeafHashesUpTo`; the error has the deposit count that it names. -/
def fetchL2LeafHashesUpTo (service : BridgeService) (endDC : ℕ) :
    Except (ℕ × ServiceError) (List H) :=
  (List.range endDC).mapM fun dc =>
    match service dc with
    | .ok br => .ok (bridgeResponseLeafHash K br)
    | .error err => .error (dc, err)

/-! ## What is computed -/

section roots

variable {K} {l : List H} {frontier : ℕ → H} {x : H}

/-- From the frontier of `l`, the loop climbs the path of a leaf that is appended to `l`, and puts it
into the frontier where it goes left. -/
theorem climb_spec (hf : Frontier K.pair K.zero 32 l frontier) {h : ℕ} (hh : h ≤ 32) :
    (climb K l.length x frontier h).1 = appendPath K.pair K.zero l x h ∧
      ∀ k, (climb K l.length x frontier h).2 k =
        if k < h ∧ ¬l.length.testBit k then appendPath K.pair K.zero l x k else frontier k := by
  induction h with
  | zero =>
    refine ⟨(appendPath_zero K.pair K.zero l x).symm, fun k => ?_⟩
    rw [if_neg fun hk => absurd hk.1 (Nat.not_lt_zero k)]
    rfl
  | succ h ih =>
    obtain ⟨hnode, hcache⟩ := ih (by omega)
    have hsucc := appendPath_succ K.pair x hf (show h < 32 by omega)
    by_cases hbit : l.length.testBit h = true
    · -- The frontier is read at this height, and nothing is written.
      have hread : (climb K l.length x frontier h).2 h = frontier h := by
        rw [hcache h, if_neg fun hk => absurd hk.1 (Nat.lt_irrefl h)]
      rw [climb, if_pos hbit]
      refine ⟨?_, fun k => ?_⟩
      · rw [hsucc, if_pos hbit, hnode, hread]
      · rw [hcache k]
        by_cases hk : k = h
        · subst hk
          simp [hbit]
        · simp [show k < h + 1 ↔ k < h by omega]
    · rw [climb, if_neg hbit]
      refine ⟨?_, fun k => ?_⟩
      · rw [hsucc, if_neg hbit, hnode]
      · by_cases hk : k = h
        · subst hk
          simp [hbit, hnode]
        · dsimp only
          rw [Function.update_of_ne hk, hcache k]
          simp [show k < h + 1 ↔ k < h by omega]

/-- The frontier that one leaf leaves is the one of the longer list. -/
theorem frontier_climb (hf : Frontier K.pair K.zero 32 l frontier) :
    Frontier K.pair K.zero 32 (l ++ [x]) (climb K l.length x frontier 32).2 := by
  refine hf.append K.pair fun h hh => ?_
  rw [(climb_spec hf le_rfl).2 h]
  by_cases hbit : l.length.testBit h = true <;> simp [hbit, hh]

theorem frontier_frontierAfter (hf : Frontier K.pair K.zero 32 l frontier) (xs : List H) :
    Frontier K.pair K.zero 32 (l ++ xs) (frontierAfter K frontier l.length xs) := by
  induction xs generalizing l frontier with
  | nil => rwa [append_nil]
  | cons x xs ih =>
    have hstep := ih (frontier_climb (x := x) hf)
    rw [length_append, length_singleton] at hstep
    rw [frontierAfter, append_cons]
    exact hstep

/-- The root after the last of some leaves is the root of all of them, where they fit. -/
theorem rootAfter_eq (hf : Frontier K.pair K.zero 32 l frontier) (r : H) (xs : List H)
    (hne : xs ≠ []) (hfits : (l ++ xs).length ≤ 2 ^ 32) :
    rootAfter K r frontier l.length xs = root K.pair K.zero 32 (l ++ xs) := by
  induction xs generalizing l frontier r with
  | nil => exact absurd rfl hne
  | cons x xs ih =>
    rw [length_append, length_cons] at hfits
    cases xs with
    | nil =>
      rw [rootAfter, (climb_spec hf le_rfl).1]
      exact appendPath_depth K.pair K.zero l x (by omega)
    | cons y ys =>
      have hrest := ih (frontier_climb (x := x) hf) (climb K l.length x frontier 32).1
        (cons_ne_nil y ys) (by simpa [Nat.add_comm, Nat.add_left_comm] using hfits)
      rw [length_append, length_singleton] at hrest
      rw [append_cons]
      exact hrest

theorem computeFrontier_eq_ok {leafHashes : List H} {n : ℕ}
    (h : computeFrontier K leafHashes n = .ok frontier) :
    n ≤ leafHashes.length ∧ Frontier K.pair K.zero 32 (leafHashes.take n) frontier := by
  unfold computeFrontier at h
  split at h
  case isTrue => cases h
  case isFalse hlen =>
    have hle : n ≤ leafHashes.length := Nat.le_of_not_lt hlen
    have hlength : (leafHashes.take n).length = n := length_take_of_le hle
    have hall := frontier_frontierAfter (Frontier.nil K.pair K.zero 32 fun _ => K.zero)
      (leafHashes.take n)
    refine ⟨hle, fun k hk hbit => ?_⟩
    -- What is set to zero is not part of the frontier.
    have hvalue := hall k hk hbit
    rw [hlength] at hbit
    rw [← Except.ok.inj h]
    simp only [hbit, if_true]
    exact hvalue

/-- The two functions together give the root of the leaves up to an index followed by the new
ones. -/
theorem computeRootFromFrontier_eq {leafHashes newLeafHashes : List H} {n : ℕ} {r : H}
    (hfrontier : computeFrontier K leafHashes n = .ok frontier)
    (hroot : computeRootFromFrontier K frontier n newLeafHashes = .ok r)
    (hfits : n + newLeafHashes.length ≤ 2 ^ 32) :
    r = root K.pair K.zero 32 (leafHashes.take n ++ newLeafHashes) := by
  obtain ⟨hle, hf⟩ := computeFrontier_eq_ok hfrontier
  have hlength : (leafHashes.take n).length = n := length_take_of_le hle
  unfold computeRootFromFrontier at hroot
  split at hroot
  case isTrue => cases hroot
  case isFalse hne =>
    have hafter := rootAfter_eq hf K.zero newLeafHashes hne (by rw [length_append]; omega)
    rw [hlength] at hafter
    rw [← Except.ok.inj hroot, hafter]

end roots

section service

variable {K} {service : BridgeService} {bridges : List BridgeResponse}

/-- What is fetched from a service that says nothing but what is on L2. -/
theorem fetchL2LeafHashesUpTo_eq_ok {n : ℕ} {hashes : List H}
    (hhonest : ∀ dc br, service dc = .ok br → bridges[dc]? = some br)
    (h : fetchL2LeafHashesUpTo K service n = .ok hashes) :
    hashes = (bridges.map (bridgeResponseLeafHash K)).take n := by
  unfold fetchL2LeafHashesUpTo at h
  rw [Exec.mapM_eq_ok_iff, List.forall₂_iff_get] at h
  obtain ⟨hlength, hget⟩ := h
  rw [length_range] at hlength
  have hfetched : ∀ i (hi : i < hashes.length), ∃ br, bridges[i]? = some br ∧
      bridgeResponseLeafHash K br = hashes[i] := by
    intro i hi
    have hi' := hget i (by simpa [hlength] using hi) hi
    cases hservice : service i with
    | error err => simp [hservice] at hi'
    | ok br => exact ⟨br, hhonest i br hservice, by simpa [hservice] using hi'⟩
  have hle : n ≤ bridges.length := by
    by_contra hlt
    -- The first place beyond the bridges was fetched as well.
    obtain ⟨br, hbr, -⟩ := hfetched bridges.length (by omega)
    simp at hbr
  refine ext_getElem (by simp; omega) fun i hi hi' => ?_
  obtain ⟨br, hbr, hhash⟩ := hfetched i hi
  obtain ⟨hlt, rfl⟩ := List.getElem?_eq_some_iff.mp hbr
  rw [getElem_take, getElem_map, hhash]

/-- Everything on L2 can be fetched from a service that knows it. -/
theorem fetchL2LeafHashesUpTo_of_le {n : ℕ}
    (hknows : ∀ dc br, bridges[dc]? = some br → service dc = .ok br) (hn : n ≤ bridges.length) :
    fetchL2LeafHashesUpTo K service n =
      .ok ((bridges.map (bridgeResponseLeafHash K)).take n) := by
  unfold fetchL2LeafHashesUpTo
  rw [Exec.mapM_eq_ok_iff, List.forall₂_iff_get]
  refine ⟨by simpa using hn, fun i hi hi' => ?_⟩
  have hlt : i < bridges.length := by
    rw [length_range] at hi
    omega
  simp [hknows i bridges[i] (getElem?_eq_getElem hlt)]

end service

end AggKit.BackwardForwardLET
