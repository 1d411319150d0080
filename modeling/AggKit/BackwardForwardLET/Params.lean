import AggKit.AggSender.Converters
import AggKit.BackwardForwardLET.Helpers
import AggKit.Tree.Readable

/-!
# The parameters of `BackwardLET` and the leaves of `ForwardLET`

`BackwardLET` is called with the frontier of the leaves that stay, the first leaf that goes and a
proof of it. The frontier is simulated leaf by leaf, the proof is read from the levels of the whole
tree. `computeBackwardLETParams_spec` says that both are of one tree.

`ForwardLET` is called with the exits of certificates. Their metadata are hashes already, and the
contract hashes them once more: `leafDataLeafHash_bridgeExit_iff`.
-/

namespace AggKit.BackwardForwardLET

open Agglayer Merkle
open List hiding Vector

variable {H : Type} (K : Keccak H)

/-- `ComputeLERForNewLeaves`. -/
def computeLERForNewLeaves (existingLeafHashes newLeafHashes : List H) : Except TreeError H := do
  let n := existingLeafHashes.length
  let frontier ← computeFrontier K existingLeafHashes n
  computeRootFromFrontier K frontier n newLeafHashes

variable {K} {L M : List H} {n : ℕ}

/-- A place and its neighbour under the same node. -/
theorem xor_one_eq (q : ℕ) : q ^^^ 1 = if q % 2 = 1 then q - 1 else q + 1 := by
  split_ifs with hodd
  · exact Nat.xor_one_of_odd (Nat.odd_iff.mpr hodd)
  · exact Nat.xor_one_of_even (Nat.even_iff.mpr (by omega))

/-- The siblings are those of the tree: the level at height `h` has its nodes, as far as they are
over leaves. -/
theorem merkleSiblings_eq {f : ℕ → H} {level : List H} {h : ℕ}
    (hlevel : ∀ i, level.getD i (zeroHash K.pair K.zero h) = node K.pair f h i) (k : ℕ) :
    merkleSiblings K level (n / 2 ^ h) h k = (List.range' h k).map (sibling K.pair f n) := by
  induction k generalizing level h with
  | zero => rfl
  | succ k ih =>
    rw [merkleSiblings, hlevel, range'_succ, map_cons, ← div_two_pow_succ]
    congr 1
    · simp only [sibling, xor_one_eq, testBit_iff]
    · refine ih fun i => ?_
      rw [node_succ, ← hlevel, ← hlevel, getD_eq_getElem?_getD, getElem?_map]
      rcases lt_or_ge i ((level.length + 1) / 2) with hi | hi
      · rw [getElem?_range hi]
        rfl
      · -- beyond the level, both children are over no leaf
        rw [getElem?_eq_none (by simpa using hi), getD_eq_default _ _ (by omega),
          getD_eq_default _ _ (by omega)]
        rfl

/-- The frontier up to an index is that of the tree over all the leaves. -/
theorem exists_computeFrontier (hn : n ≤ L.length) :
    ∃ frontier, computeFrontier K L n = .ok frontier ∧
      ∀ h < 32, frontier h = if n.testBit h then node K.pair (padded K.zero L) h (n / 2 ^ h - 1)
        else K.zero := by
  have hok : computeFrontier K L n = .ok _ := if_neg hn.not_gt
  refine ⟨_, hok, fun h hh => ?_⟩
  obtain ⟨-, hfrontier⟩ := computeFrontier_eq_ok hok
  have hlength : (L.take n).length = n := length_take_of_le hn
  split_ifs with hbit
  · have hnode := hfrontier h hh (by rwa [hlength])
    simp only [hlength, hbit, if_true] at hnode
    refine hnode.trans (node_eq_of_leaves_eq K.pair fun j hj => ?_)
    have hlt := left_block_lt hbit hj
    rw [padded_of_lt _ _ (by omega), padded_of_lt _ _ (by omega), getElem_take]
  · rfl

/-- The computed root, where there is a leaf to append. -/
theorem computeRootFromFrontier_ok {frontier : ℕ → H}
    (hfrontier : computeFrontier K L n = .ok frontier) (hM : M ≠ [])
    (hfits : n + M.length ≤ 2 ^ 32) :
    computeRootFromFrontier K frontier n M = .ok (root K.pair K.zero 32 (L.take n ++ M)) := by
  have hok : computeRootFromFrontier K frontier n M = .ok _ := if_neg hM
  rw [← computeRootFromFrontier_eq hfrontier hok hfits, hok]

theorem computeLERForNewLeaves_eq (hM : M ≠ []) (hfits : L.length + M.length ≤ 2 ^ 32) :
    computeLERForNewLeaves K L M = .ok (root K.pair K.zero 32 (L ++ M)) := by
  obtain ⟨frontier, hfrontier, -⟩ := exists_computeFrontier (K := K) (le_refl L.length)
  have hroot := computeRootFromFrontier_ok hfrontier hM hfits
  rw [take_length] at hroot
  show (computeFrontier K L L.length >>= fun f => computeRootFromFrontier K f L.length M) = _
  rw [hfrontier]
  exact hroot

/-- The proof of a leaf leads to the root of all the leaves. -/
theorem calculateRoot_merkleSiblings (hn : n < L.length) (hfits : L.length ≤ 2 ^ 32) :
    ∃ path : Vector H 32, merkleSiblings K L n 0 32 = path.toList ∧
      Tree.calculateRoot K.pair L[n] path (UInt32.ofNat n) = root K.pair K.zero 32 L := by
  have hindex : (UInt32.ofNat n).toNat = n := UInt32.toNat_ofNat_of_lt' (hn.trans_le hfits)
  have hsiblings : merkleSiblings K L (n / 2 ^ 0) 0 32 = _ :=
    merkleSiblings_eq (f := padded K.zero L) (fun _ => rfl) 32
  rw [pow_zero, Nat.div_one, ← range_eq_range'] at hsiblings
  refine ⟨Vector.ofFn fun h : Fin 32 => sibling K.pair (padded K.zero L) n h.val, ?_, ?_⟩
  · rw [hsiblings, ← map_coe_finRange_eq_range, map_map, Vector.toList_ofFn, ofFn_eq_map]
    rfl
  · have hcalculated := Tree.calculateRoot_spec K.pair (padded K.zero L) (UInt32.ofNat n) L[n]
    rw [hindex, ← padded_of_lt K.zero L hn, Function.update_eq_self, padded_of_lt K.zero L hn]
      at hcalculated
    exact hcalculated

/-- For every index below the number of leaves: the frontier continues to the root of the leaves up
to the index followed by any new ones, it is zero exactly where a bit of the index is clear unless a
node over leaves is zero, and the leaf at the index is proved against the root of all the leaves. -/
theorem computeBackwardLETParams_spec (hn : n < L.length) (hM : M ≠ [])
    (htotal : L.length + M.length < 2 ^ 32) :
    (∃ frontier, ∃ path : Vector H 32,
      computeBackwardLETParams K L n = .ok (frontier, L[n], path.toList) ∧
      computeRootFromFrontier K frontier n M = .ok (root K.pair K.zero 32 (L.take n ++ M)) ∧
      ((∀ h i, (i + 1) * 2 ^ h ≤ L.length → node K.pair (padded K.zero L) h i ≠ K.zero) →
        ∀ h < 32, frontier h = K.zero ↔ n.testBit h = false) ∧
      Tree.calculateRoot K.pair L[n] path (UInt32.ofNat n) = root K.pair K.zero 32 L) ∧
    computeLERForNewLeaves K L M = .ok (root K.pair K.zero 32 (L ++ M)) := by
  refine ⟨?_, computeLERForNewLeaves_eq hM htotal.le⟩
  obtain ⟨frontier, hfrontier, hvalue⟩ := exists_computeFrontier (K := K) hn.le
  obtain ⟨path, hpath, hroot⟩ := calculateRoot_merkleSiblings (K := K) hn (by omega)
  have hproof : computeMerkleProof K L n = .ok path.toList := by
    rw [computeMerkleProof, if_neg hn.not_ge, hpath]
  have hleaf : L.getD n K.zero = L[n] := padded_of_lt K.zero L hn
  refine ⟨frontier, path, ?_, computeRootFromFrontier_ok hfrontier hM (by omega), ?_, hroot⟩
  · rw [computeBackwardLETParams, if_neg hn.not_ge, hfrontier, hproof, hleaf]
    rfl
  · intro hnodes h hh
    rw [hvalue h hh]
    split_ifs with hbit
    · -- the subtree to the left of the index is complete
      have hodd := (testBit_iff n h).mp hbit
      have hpos : n / 2 ^ h ≠ 0 := fun hzero => by simp [hzero] at hodd
      have hblock : n / 2 ^ h - 1 + 1 = n / 2 ^ h := Nat.succ_pred hpos
      have hle : n / 2 ^ h * 2 ^ h ≤ L.length := (Nat.div_mul_le_self n (2 ^ h)).trans hn.le
      have hnode := hnodes h (n / 2 ^ h - 1) (hblock ▸ hle)
      simp [hnode, hbit]
    · simpa using hbit

/-- Three leaves, the last of which is taken back and followed by another one. -/
theorem computeBackwardLETParams_two :
    computeLERForNewLeaves freeKeccak [[1], [2], [3]] [[4]] =
      .ok (root freeKeccak.pair [] 32 [[1], [2], [3], [4]]) :=
  (computeBackwardLETParams_spec (n := 2) (by decide) (by decide) (by decide)).2

/-! ## The leaves of `ForwardLET` -/

/-- The leaf that the contract makes of an exit has the hash of the exit exactly where the metadata
of the exit are empty, or are their own hash. -/
theorem leafDataLeafHash_bridgeExit_iff (hinj : Function.Injective K.sum) {be : BridgeExit}
    (htype : be.leafType ≤ LeafTypeMessage) :
    leafDataLeafHash K (bridgeExitToContractLeaf be) = bridgeExitLeafHash K be ↔
      be.metadata = [] ∨ K.bytes (K.sum be.metadata) = be.metadata := by
  have hvalid : be.validate = .ok () := if_neg (UInt8.not_lt.mpr htype)
  simp only [bridgeExitLeafHash, BridgeExit.hash, hvalid, leafDataLeafHash, BridgeExit.encode]
  rw [hinj.eq_iff]
  refine (append_right_inj _).trans ?_
  unfold BridgeExit.metaDataHash bridgeExitToContractLeaf
  cases hmetadata : be.metadata with
  | nil | cons b rest => simp

/-- An exit of an asset. -/
def exitWith (metadata : List UInt8) : BridgeExit :=
  ⟨LeafTypeAsset, ⟨0, ZeroAddress⟩, 1, ZeroAddress, some 5, metadata⟩

theorem leafDataLeafHash_bridgeExit_iff_empty :
    leafDataLeafHash freeKeccak (bridgeExitToContractLeaf (exitWith [])) =
      bridgeExitLeafHash freeKeccak (exitWith []) :=
  (leafDataLeafHash_bridgeExit_iff Function.injective_id (by decide)).mpr (.inl rfl)

/-- The exit of a bridge with metadata: the contract hashes the hash. -/
theorem metadata_hashed_twice :
    let be := exitWith (AggSender.convertBridgeMetadata freeKeccak [7])
    leafDataLeafHash freeKeccak (bridgeExitToContractLeaf be) ≠
      bridgeExitLeafHash freeKeccak be := by
  decide +kernel

end AggKit.BackwardForwardLET
