import AggKit.Tree.Proof
import AggKit.Tree.Spec
import Mathlib.Data.Vector.Defs

/-!
# Reading leaves and siblings back from the node table

A store keeps the leaves `f`, of which those at the indices `written` were put, when the path of
every written leaf is in the node table and all other leaves are zero (`Store.Keeps`). Nothing is
asked of the nodes over zero leaves that were never written: the table may have them or not.

This is enough for the descents from the root of `f`. At a node that is in the table they read its
two children, since a hash without collisions has one pair of children. At a node that is missing no
written leaf is below, so the zero hashes that `getSiblings` fills in are right. `calculateRoot_spec`
is the way back: from any leaf and the siblings on the path of index `n`, `CalculateRoot` climbs to
the root of the leaves with that leaf at `n`.
-/

namespace AggKit.Tree

open Merkle Function
open List hiding Vector

variable {H : Type} (hash : H → H → H) (zero : H)

/-- The paths of the leaves written are in the node table, all other leaves are zero. -/
structure Store.Keeps (s : Store H) (f : ℕ → H) (written : Set ℕ) : Prop where
  path : ∀ n ∈ written, s.HasPath hash f n
  eq_zero : ∀ n, n ∉ written → f n = zero

/-- An empty tree is kept by every store. -/
theorem Store.Keeps.empty (s : Store H) : s.Keeps hash zero (fun _ => zero) ∅ :=
  ⟨fun _ hn => absurd hn (Set.notMem_empty _), fun _ _ => rfl⟩

/-- More nodes do no harm. -/
theorem Store.Keeps.mono {s s' : Store H} {f : ℕ → H} {written : Set ℕ}
    (hs : s.Keeps hash zero f written) (hsub : s.rht ⊆ s'.rht) :
    s'.Keeps hash zero f written :=
  ⟨fun n hn h hh => hsub (hs.path n hn h hh), hs.eq_zero⟩

/-- The children that a node of the path of `m` has in the tree with a new leaf at `n` are those it
had, or it is on the path of `n` too. -/
theorem pathNode_update (f : ℕ → H) (x : H) (m n h : ℕ) :
    pathNode hash (update f n x) m h = pathNode hash f m h ∨
      pathNode hash (update f n x) m h = pathNode hash (update f n x) n h := by
  by_cases hsame : m / 2^(h + 1) = n / 2^(h + 1)
  · right
    unfold pathNode
    rw [hsame]
  · left
    have hhalf := div_two_pow_succ n h
    have hleft : 2 * (m / 2^(h + 1)) ≠ n / 2^h := by omega
    have hright : 2 * (m / 2^(h + 1)) + 1 ≠ n / 2^h := by omega
    unfold pathNode
    rw [node_update_of_ne hash f x hleft, node_update_of_ne hash f x hright]

/-- Once the path of a new leaf is stored, the leaves with the new one are kept. -/
theorem Store.Keeps.update {s s' : Store H} {f : ℕ → H} {written : Set ℕ}
    (hs : s.Keeps hash zero f written) (hsub : s.rht ⊆ s'.rht) {n : ℕ} {x : H}
    (hpath : s'.HasPath hash (update f n x) n) :
    s'.Keeps hash zero (update f n x) (insert n written) := by
  constructor
  · intro m hm h hh
    rcases pathNode_update hash f x m n h with hold | hnew
    · rcases Set.mem_insert_iff.mp hm with rfl | hmem
      · exact hpath h hh
      · exact hold ▸ hsub (hs.path m hmem h hh)
    · exact hnew ▸ hpath h hh
  · intro m hm
    obtain ⟨hne, hmem⟩ := not_or.mp (mt Set.mem_insert_iff.mpr hm)
    rw [update_of_ne hne]
    exact hs.eq_zero m hmem

/-! ## The node that a descent looks up -/

/-- The node found turns to the ancestor below on the one side and its sibling on the other. -/
theorem pathNode_children (f : ℕ → H) (n h : ℕ) :
    (if n.testBit h then (pathNode hash f n h).right else (pathNode hash f n h).left) =
        node hash f h (n / 2^h) ∧
      (if n.testBit h then (pathNode hash f n h).left else (pathNode hash f n h).right) =
        sibling hash f n h := by
  obtain ⟨hleft, hright⟩ := children_of_ancestor hash f n h
  simp only [pathNode, newTreeNode, hleft, hright]
  split_ifs <;> exact ⟨rfl, rfl⟩

section lookup

variable [DecidableEq H] {hash} {s : Store H} {f : ℕ → H} {written : Set ℕ}

/-- A node of the tree that is found has the children it has in the tree. -/
theorem Store.Hashed.getRHTNode_ancestor (hinj : Injective2 hash) (hs : s.Hashed hash)
    {n h : ℕ} {currentNode : TreeNode H}
    (hfind : s.getRHTNode (node hash f (h + 1) (n / 2^(h + 1))) = some currentNode) :
    currentNode = pathNode hash f n h := by
  have hmem := mem_of_find?_eq_some hfind
  have hhash : currentNode.hash = node hash f (h + 1) (n / 2^(h + 1)) := by
    simpa using find?_some hfind
  have hchildren := (hs currentNode hmem).symm.trans hhash
  obtain ⟨hleft, hright⟩ := hinj hchildren
  unfold pathNode newTreeNode
  rw [← hleft, ← hright, ← hs currentNode hmem]

/-- Below a node that is missing there are zero leaves only. -/
theorem Store.Keeps.eq_zero_of_missing (hinj : Injective2 hash) (hs : s.Hashed hash)
    (hkeep : s.Keeps hash zero f written) {n h : ℕ} (hh : h < DefaultHeight)
    (hfind : s.getRHTNode (node hash f (h + 1) (n / 2^(h + 1))) = none) {m : ℕ}
    (hm : m / 2^(h + 1) = n / 2^(h + 1)) : f m = zero := by
  apply hkeep.eq_zero
  intro hwritten
  -- The path of a written leaf would lead through the missing node.
  have hfound : s.getRHTNode (node hash f (h + 1) (m / 2^(h + 1))) = some (pathNode hash f m h) :=
    Store.getRHTNode_of_mem hinj hs (hkeep.path m hwritten h hh)
  rw [hm, hfind] at hfound
  simp at hfound

end lookup

/-! ## The descents -/

section descents

variable [DecidableEq H] {hash} {s : Store H} {f : ℕ → H} {written : Set ℕ}

/-- From a missing node the loop fills in zero hashes down to the leaves. -/
theorem getSiblingsLoop_of_missing (index : UInt32) {cur : H} (hfind : s.getRHTNode cur = none)
    (h : ℕ) (siblings : ℕ → H) (used : Bool) :
    (getSiblingsLoop hash zero s index h cur siblings used).1 =
      fun k => if k < h then zeroHash hash zero k else siblings k := by
  induction h generalizing siblings used with
  | zero => simp [getSiblingsLoop]
  | succ h ih =>
    unfold getSiblingsLoop
    rw [hfind]
    simp only [ih]
    funext k
    rcases lt_trichotomy k h with hlt | rfl | hgt
    · simp [hlt, show k < h + 1 by omega]
    · simp
    · simp [show ¬k < h by omega, show ¬k < h + 1 by omega, show k ≠ h by omega]

/-- The loop of `getSiblings` collects the siblings on the path of the index. -/
theorem getSiblingsLoop_spec (hinj : Injective2 hash) (hs : s.Hashed hash)
    (hkeep : s.Keeps hash zero f written) (index : UInt32) {h : ℕ} (hh : h ≤ DefaultHeight)
    (siblings : ℕ → H) (used : Bool) :
    (getSiblingsLoop hash zero s index h (node hash f h (index.toNat / 2^h)) siblings used).1 =
      fun k => if k < h then sibling hash f index.toNat k else siblings k := by
  induction h generalizing siblings used with
  | zero => simp [getSiblingsLoop]
  | succ h ih =>
    cases hfind : s.getRHTNode (node hash f (h + 1) (index.toNat / 2^(h + 1))) with
    | none =>
      rw [getSiblingsLoop_of_missing zero index hfind]
      funext k
      split_ifs with hk
      · symm
        apply sibling_eq_zeroHash hash hk
        intro m hm
        exact hkeep.eq_zero_of_missing zero hinj hs hh hfind hm
      · rfl
    | some currentNode =>
      have hnode := hs.getRHTNode_ancestor hinj hfind
      obtain ⟨hnext, hsibling⟩ := pathNode_children hash f index.toNat h
      have hloop := ih (by omega)
      unfold getSiblingsLoop
      rw [hfind, hnode]
      dsimp only
      -- Both turns go on at the ancestor below and note its sibling.
      have hstep : ∀ k, (if k < h then sibling hash f index.toNat k
          else update siblings h (sibling hash f index.toNat h) k) =
          if k < h + 1 then sibling hash f index.toNat k else siblings k := by
        intro k
        rcases lt_trichotomy k h with hlt | rfl | hgt
        · simp [hlt, show k < h + 1 by omega]
        · simp
        · simp [show ¬k < h by omega, show ¬k < h + 1 by omega, show k ≠ h by omega]
      split_ifs with hbit
      · simp only [hbit, if_true] at hnext hsibling
        rw [hnext, hsibling, hloop]
        funext k
        exact hstep k
      · simp only [hbit, if_false, Bool.false_eq_true] at hnext hsibling
        rw [hnext, hsibling, hloop]
        funext k
        exact hstep k

/-- `GetProof` returns the siblings on the path of the index. -/
theorem getProof_spec (hinj : Injective2 hash) (hs : s.Hashed hash)
    (hkeep : s.Keeps hash zero f written) (index : UInt32) :
    getProof hash zero s index (node hash f DefaultHeight 0) =
      Vector.ofFn fun h : Fin 32 => sibling hash f index.toNat h.val := by
  have htop : index.toNat / 2^DefaultHeight = 0 := Nat.div_eq_of_lt index.toNat_lt
  have hloop := getSiblingsLoop_spec zero hinj hs hkeep index le_rfl (fun _ => zero) false
  rw [htop] at hloop
  unfold getProof getSiblings
  simp only [hloop]
  congr 1
  funext h
  exact if_pos h.isLt

/-- What `GetLeaf` returns is the leaf at the index. -/
theorem getLeafLoop_eq (hinj : Injective2 hash) (hs : s.Hashed hash) {index : UInt32}
    {h : ℕ} {x : H} (hx : getLeafLoop s index h (node hash f h (index.toNat / 2^h)) = some x) :
    x = f index.toNat := by
  induction h with
  | zero =>
    have hleaf : f index.toNat = x := by simpa [getLeafLoop] using hx
    exact hleaf.symm
  | succ h ih =>
    unfold getLeafLoop at hx
    cases hfind : s.getRHTNode (node hash f (h + 1) (index.toNat / 2^(h + 1))) with
    | none => simp [hfind] at hx
    | some currentNode =>
      simp only [hfind, hs.getRHTNode_ancestor hinj hfind] at hx
      rw [(pathNode_children hash f index.toNat h).1] at hx
      exact ih hx

/-- A leaf whose path is in the node table is found. -/
theorem getLeafLoop_of_path (hinj : Injective2 hash) (hs : s.Hashed hash) {index : UInt32}
    (hpath : s.HasPath hash f index.toNat) {h : ℕ} (hh : h ≤ DefaultHeight) :
    getLeafLoop s index h (node hash f h (index.toNat / 2^h)) = some (f index.toNat) := by
  induction h with
  | zero => simp [getLeafLoop]
  | succ h ih =>
    have hfind : s.getRHTNode (node hash f (h + 1) (index.toNat / 2^(h + 1))) =
        some (pathNode hash f index.toNat h) :=
      Store.getRHTNode_of_mem hinj hs (hpath h hh)
    unfold getLeafLoop
    simp only [hfind]
    rw [(pathNode_children hash f index.toNat h).1]
    exact ih (by omega)

/-- `GetLeaf` returns the leaves that were written. For the others it returns zero or nothing. -/
theorem getLeaf_spec (hinj : Injective2 hash) (hs : s.Hashed hash)
    (hkeep : s.Keeps hash zero f written) (index : UInt32) :
    (index.toNat ∈ written →
        getLeaf s index (node hash f DefaultHeight 0) = some (f index.toNat)) ∧
      (index.toNat ∉ written → getLeaf s index (node hash f DefaultHeight 0) = none ∨
        getLeaf s index (node hash f DefaultHeight 0) = some zero) := by
  have htop : index.toNat / 2^DefaultHeight = 0 := Nat.div_eq_of_lt index.toNat_lt
  unfold getLeaf
  constructor
  · intro hwritten
    have hfound := getLeafLoop_of_path hinj hs (hkeep.path _ hwritten) le_rfl
    rwa [htop] at hfound
  · intro hunwritten
    cases hleaf : getLeafLoop s index DefaultHeight (node hash f DefaultHeight 0) with
    | none => exact .inl rfl
    | some x =>
      rw [← htop] at hleaf
      rw [getLeafLoop_eq hinj hs hleaf, hkeep.eq_zero _ hunwritten]
      exact .inr rfl

end descents

/-! ## The climb -/

/-- Sibling `h` of a proof given by a function of the height. -/
theorem get_proof_ofFn (g : ℕ → H) (h : Fin 32) :
    (Vector.ofFn fun h : Fin 32 => g h.val).get h = g h.val :=
  Vector.getElem_ofFn h.isLt

/-- From a leaf and the siblings on the path of the index, the first `h` steps of `CalculateRoot`
lead to the ancestor at height `h` in the tree with that leaf. -/
theorem climb_spec (f : ℕ → H) (n h : ℕ) (leaf : H) :
    (List.range h).foldl (fun cur k => if n.testBit k then hash (sibling hash f n k) cur
      else hash cur (sibling hash f n k)) leaf =
      node hash (update f n leaf) h (n / 2^h) := by
  induction h with
  | zero => simp
  | succ h ih =>
    rw [range_succ, foldl_append, ih, node_ancestor_succ, sibling_update]
    rfl

/-- `CalculateRoot` with the siblings on the path of the index. -/
theorem calculateRoot_spec (f : ℕ → H) (index : UInt32) (leaf : H) :
    calculateRoot hash leaf (Vector.ofFn fun h : Fin 32 => sibling hash f index.toNat h.val) index =
      node hash (update f index.toNat leaf) DefaultHeight 0 := by
  have hget := get_proof_ofFn (sibling hash f index.toNat)
  have hclimb := climb_spec hash f index.toNat 32 leaf
  rw [Nat.div_eq_of_lt index.toNat_lt, ← map_coe_finRange_eq_range, foldl_map] at hclimb
  unfold calculateRoot
  simp only [hget]
  exact hclimb

/-! ## Accepted proofs -/

/-- Under a hash without collisions, a climb that arrives at an ancestor of leaf `n`, by whatever
siblings, has started from that leaf. -/
theorem leaf_eq_of_climb {hash : H → H → H} (hinj : Injective2 hash) {f siblings : ℕ → H}
    {n h : ℕ} {leaf : H}
    (hclimb : (List.range h).foldl (fun cur k => if n.testBit k then hash (siblings k) cur
      else hash cur (siblings k)) leaf = node hash f h (n / 2^h)) :
    leaf = f n := by
  induction h with
  | zero => simpa using hclimb
  | succ h ih =>
    rw [range_succ, foldl_append, foldl_cons, foldl_nil, node_ancestor_succ]
      at hclimb
    split_ifs at hclimb with hbit
    · exact ih (hinj hclimb).2
    · exact ih (hinj hclimb).1

/-- `CalculateRoot` as a climb over heights. -/
theorem calculateRoot_eq_climb (leaf : H) (proof : Vector H 32) (index : UInt32) :
    calculateRoot hash leaf proof index =
      (List.range 32).foldl (fun cur k =>
        if index.toNat.testBit k then hash (if hk : k < 32 then proof.get ⟨k, hk⟩ else leaf) cur
        else hash cur (if hk : k < 32 then proof.get ⟨k, hk⟩ else leaf)) leaf := by
  unfold calculateRoot
  rw [← map_coe_finRange_eq_range, foldl_map]
  simp

/-- The leaf under the index is included below the root: there is a path that `VerifyProof` accepts,
and every tree with this root has the leaf at the index. -/
structure Included [DecidableEq H] (leaf : H) (index : UInt32) (root : H) : Prop where
  path : ∃ proof, verifyProof hash leaf proof index root = true
  leaf_eq : ∀ f : ℕ → H, node hash f DefaultHeight 0 = root → f index.toNat = leaf

/-- An accepted proof shows inclusion. -/
theorem included_of_verifyProof [DecidableEq H] {hash : H → H → H}
    (hinj : Injective2 hash) {leaf : H} {proof : Vector H 32} {index : UInt32} {root : H}
    (hverify : verifyProof hash leaf proof index root = true) : Included hash leaf index root := by
  refine ⟨⟨proof, hverify⟩, fun f hroot => ?_⟩
  have hclimb : calculateRoot hash leaf proof index = root := by simpa [verifyProof] using hverify
  have htop : index.toNat / 2^32 = 0 := Nat.div_eq_of_lt index.toNat_lt
  rw [calculateRoot_eq_climb, ← hroot, DefaultHeight, ← htop] at hclimb
  exact (leaf_eq_of_climb hinj hclimb).symm

end AggKit.Tree
