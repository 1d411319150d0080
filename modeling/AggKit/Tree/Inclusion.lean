import AggKit.Tree.Readable
import AggKit.Tree.Run

/-!
# Proofs for every stored root

Nodes are shared between the trees of different roots and never deleted, so a root that is in the
root table stays readable, whatever is put or deleted after it: the paths of all its leaves are in
the node table. The same holds for the leaves the object in memory holds, also when the roots of
these leaves were deleted behind its back, and so for the root of the next leaf it accepts. The
invariant `State.Complete` says both and is kept by every call, whatever its arguments.

`proofs_of_stored_root` then says of every root in the table, and every index, that the proof
`GetProof` reads is accepted by `VerifyProof` for the leaf at the index and for no other one.
-/

namespace AggKit.Tree

open Merkle Run Term

variable {H : Type} (hash : H → H → H) (zero : H)

/-- The row `r` is the root of the leaves `l`, the last of which it was written for. -/
structure Under (r : Root H) (l : List H) : Prop where
  length_eq : l.length = r.index.toNat + 1
  hash_eq : r.hash = root hash zero DefaultHeight l

/-- The paths of all the leaves `l` are in the node table. -/
def Store.KeepsList (s : Store H) (l : List H) : Prop :=
  s.Keeps hash zero (padded zero l) (Set.Iio l.length)

/-- All leaves under every root of the table can be read from the node table. -/
structure Store.Complete (s : Store H) : Prop where
  hashed : s.Hashed hash
  keeps : ∀ r ∈ s.root, ∃ l, Under hash zero r l ∧ s.KeepsList hash zero l

/-- The leaves that the object holds, if it holds any, can be read from the node table too. -/
structure State.Complete (σ : State H) : Prop where
  store : σ.store.Complete hash zero
  memory : σ.tree.lastIndex + 1 < 0 ∨
    ∃ l, σ.tree.Holds hash zero l ∧ σ.store.KeepsList hash zero l

theorem Store.KeepsList.nil (s : Store H) : s.KeepsList hash zero [] := by
  exact ⟨fun n hn => absurd hn (Nat.not_lt_zero n), fun _ _ => rfl⟩

variable {s s' : Store H}

/-- A leaf appended to leaves that are kept needs its own path only. -/
theorem Store.KeepsList.concat {l : List H} (hs : s.KeepsList hash zero l) (hsub : s.rht ⊆ s'.rht)
    {x : H} (hpath : s'.HasPath hash (padded zero (l ++ [x])) l.length) :
    s'.KeepsList hash zero (l ++ [x]) := by
  rw [padded_concat] at hpath
  have hkeep := Store.Keeps.update hash zero hs hsub hpath
  have hwritten : insert l.length (Set.Iio l.length) = Set.Iio (l ++ [x]).length := by
    ext m
    simp only [Set.mem_insert_iff, Set.mem_Iio, List.length_append, List.length_singleton]
    omega
  unfold Store.KeepsList
  rw [padded_concat, ← hwritten]
  exact hkeep

/-- A complete store is well formed. -/
theorem Store.Complete.wf (hs : s.Complete hash zero) : s.WF hash zero := by
  refine ⟨hs.hashed, fun r hr => ?_⟩
  obtain ⟨l, hl, hkeep⟩ := hs.keeps r hr
  have hlast : r.index.toNat ∈ Set.Iio l.length := by
    have hlen := hl.length_eq
    simp only [Set.mem_Iio]
    omega
  exact ⟨l, hl.length_eq, hl.hash_eq, hkeep.path _ hlast⟩

/-- The leaves under the last root of a complete store can be read. -/
theorem Store.Complete.exists_lastLeaves (hs : s.Complete hash zero) :
    ∃ l, s.LastLeaves hash zero l ∧ s.KeepsList hash zero l := by
  cases hlast : s.getLastRoot with
  | none =>
    refine ⟨[], ?_, Store.KeepsList.nil hash zero s⟩
    unfold Store.LastLeaves
    rw [hlast]
  | some r =>
    obtain ⟨l, hl, hkeep⟩ := hs.keeps r (Table.mem_of_lastBy_eq_some hlast)
    refine ⟨l, ?_, hkeep⟩
    unfold Store.LastLeaves
    rw [hlast]
    have hlen := hl.length_eq
    exact ⟨hl.length_eq, hl.hash_eq, hkeep.path _ (by simp only [Set.mem_Iio]; omega)⟩

/-- Deleting roots keeps a store complete. -/
theorem Store.Complete.of_subset (hs : s.Complete hash zero) (hrht : s'.rht = s.rht)
    (hroot : s'.root ⊆ s.root) : s'.Complete hash zero := by
  have hsub : s.rht ⊆ s'.rht := hrht ▸ List.Subset.refl _
  refine ⟨fun n hn => hs.hashed n (hrht ▸ hn), fun r hr => ?_⟩
  obtain ⟨l, hl, hkeep⟩ := hs.keeps r (hroot hr)
  exact ⟨l, hl, hkeep.mono hash zero hsub⟩

/-- Deleting roots keeps a state complete: the object keeps its leaves. -/
theorem State.Complete.of_deletion {σ : State H} (hσ : σ.Complete hash zero)
    (hrht : s'.rht = σ.store.rht) (hroot : s'.root ⊆ σ.store.root) :
    State.Complete hash zero ⟨σ.tree, s'⟩ := by
  refine ⟨hσ.store.of_subset hash zero hrht hroot, ?_⟩
  rcases hσ.memory with hnew | ⟨l, hholds, hkeep⟩
  · exact .inl hnew
  · exact .inr ⟨l, hholds, hkeep.mono hash zero (hrht ▸ List.Subset.refl _)⟩

section step

variable [DecidableEq H] {hash} (hinj : Function.Injective2 hash)
include hinj

/-- A put on an object whose leaves can be read leaves a complete state. -/
theorem State.Complete.putAccepted {s : Store H} (hs : s.Complete hash zero) {t : AppendOnlyTree H}
    {l : List H} (ht : t.Holds hash zero l) (hkeep : s.KeepsList hash zero l) {leaf : Leaf H}
    (hindex : leaf.index.toNat = l.length) (blockNum blockPosition : ℕ) :
    let o := Tree.putAccepted hash zero t s blockNum blockPosition leaf
    State.Complete hash zero ⟨o.tree, o.store⟩ := by
  intro o
  rcases putAccepted_spec hash zero hinj (hs.wf hash zero) ht hindex blockNum blockPosition with
    ⟨-, -, hstore, hholds⟩ | ⟨-, -, hroots, hsub, hwf, hrow, hholds⟩
  · -- The root is there already: no table changes.
    constructor
    · exact hstore ▸ hs
    · exact .inr ⟨l, hholds, hstore ▸ hkeep⟩
  · have hpath : o.store.HasPath hash (padded zero (l ++ [leaf.hash])) l.length :=
      hindex ▸ hrow.path
    have hkeep' := hkeep.concat hash zero hsub hpath
    refine ⟨⟨hwf.hashed, fun r hr => ?_⟩, .inr ⟨_, hholds, hkeep'⟩⟩
    rw [hroots, List.mem_append, List.mem_singleton] at hr
    rcases hr with hr | rfl
    · obtain ⟨m, hm, hkept⟩ := hs.keeps r hr
      exact ⟨m, hm, hkept.mono hash zero hsub⟩
    · exact ⟨_, ⟨hrow.length_eq, hrow.hash_eq⟩, hkeep'⟩

/-- Every call leaves a complete state. -/
theorem State.Complete.apply {σ : State H} (hσ : σ.Complete hash zero) (op : Op H) :
    (σ.apply hash zero op).Complete hash zero := by
  cases op with
  | putLeaf blockNum blockPosition leaf =>
    by_cases hnext : (leaf.index.toNat : ℤ) = σ.tree.lastIndex + 1
    · -- The leaf follows those that the object holds.
      rcases hσ.memory with hnew | ⟨l, hholds, hkeep⟩
      · omega
      · have hindex : leaf.index.toNat = l.length := by
          have hlast := hholds.lastIndex_eq
          omega
        simp only [State.apply, putLeaf_of_next hash zero blockNum blockPosition hnext]
        exact State.Complete.putAccepted zero hinj hσ.store hholds hkeep hindex _ _
    · -- The object is rebuilt from the last root.
      obtain ⟨l, hl, hkeep⟩ := hσ.store.exists_lastLeaves hash zero
      obtain ⟨t', -, hholds, hput⟩ := putLeaf_of_not_next hash zero blockNum blockPosition hinj
        (hσ.store.wf hash zero) hl hnext
      simp only [State.apply, hput]
      split_ifs with hindex
      · exact State.Complete.putAccepted zero hinj hσ.store hholds hkeep hindex _ _
      · exact ⟨hσ.store, .inr ⟨l, hholds, hkeep⟩⟩
  | reorg firstReorgedBlock => exact hσ.of_deletion hash zero rfl List.filter_sublist.subset
  | backwardToIndex targetIndex => exact hσ.of_deletion hash zero rfl List.filter_sublist.subset

/-- Every state that calls lead to is complete. -/
theorem State.Complete.of_reach {allowed : Tracked H → Op H → Prop} {τ : Tracked H}
    (hrun : Reach (Tracked.apply hash zero) allowed (Tracked.new zero) τ) :
    τ.state.Complete hash zero := by
  refine hrun.invariant (P := fun τ => τ.state.Complete hash zero) ?_
    fun _ op hτ _ => State.Complete.apply zero hinj hτ op
  refine ⟨⟨?_, ?_⟩, .inl (by simp [Tracked.new, State.new, newAppendOnlyTree])⟩
  · intro n hn
    simp [Tracked.new, State.new, Store.empty] at hn
  · intro r hr
    simp [Tracked.new, State.new, Store.empty] at hr

end step

/-! ## The leaves under a root -/

section under

variable {hash} (hinj : Function.Injective2 hash)
include hinj

/-- A row is over one list of leaves only. -/
theorem Under.unique {r : Root H} {l m : List H} (hl : Under hash zero r l)
    (hm : Under hash zero r m) : l = m := by
  have hbound := r.index.toNat_lt
  have hlen := hl.length_eq
  exact eq_of_root_eq hinj (hl.hash_eq.symm.trans hm.hash_eq) (hlen.trans hm.length_eq.symm)
    (by unfold DefaultHeight; omega)

/-- In an in-order run a row is over the visible leaves up to its index. -/
theorem Under.eq_take [DecidableEq H] {τ : Tracked H}
    (hrun : Reach (Tracked.apply hash zero) InOrder (Tracked.new zero) τ) {r : Root H}
    (hr : r ∈ τ.state.store.root) {l : List H} (hl : Under hash zero r l) :
    l = (leaves τ.visible).take (r.index.toNat + 1) := by
  have hτ := synced_of_inOrder zero hinj hrun
  rw [hτ.rows] at hr
  obtain ⟨i, hi, rfl⟩ := List.mem_mapIdx.mp hr
  have hfits := hτ.length_le
  have hindex : (UInt32.ofNat i).toNat = i := by
    rw [UInt32.toNat_ofNat']
    omega
  refine hl.unique zero hinj ⟨?_, ?_⟩
  · simp only [hindex, List.length_take, length_leaves]
    omega
  · simp only [hindex]

end under

/-- The proof that `GetProof` returns under a readable root is accepted for the leaf at the index and
for no other one. -/
theorem verifyProof_iff [DecidableEq H] {hash : H → H → H} (hinj : Function.Injective2 hash)
    {f : ℕ → H} {written : Set ℕ} (hs : s.Hashed hash) (hkeep : s.Keeps hash zero f written)
    (index : UInt32) (leaf : H) :
    verifyProof hash leaf (getProof hash zero s index (node hash f DefaultHeight 0)) index
      (node hash f DefaultHeight 0) = true ↔ leaf = f index.toNat := by
  unfold verifyProof
  rw [getProof_spec zero hinj hs hkeep, calculateRoot_spec, decide_eq_true_iff]
  exact node_update_eq_iff hinj _ index.toNat_lt leaf

/-- For every root in the table of any run and every index, the proof that `GetProof` returns is
accepted for the leaf at the index and for no other one, the zero leaf beyond the last one, and
`GetLeaf` returns the leaf at the index up to the last one and zero or nothing beyond it. The leaves
under a root are determined by its row, and in an in-order run they are the visible leaves up to its
index. -/
theorem proofs_of_stored_root [DecidableEq H] {hash : H → H → H} (hinj : Function.Injective2 hash)
    {τ : Tracked H} (hrun : Reach (Tracked.apply hash zero) (fun _ _ => True) (Tracked.new zero) τ)
    {r : Root H} (hr : r ∈ τ.state.store.root) :
    ∃ l, Under hash zero r l ∧ (∀ m, Under hash zero r m → m = l) ∧
      (Reach (Tracked.apply hash zero) InOrder (Tracked.new zero) τ →
        l = (leaves τ.visible).take (r.index.toNat + 1)) ∧
      ∀ index : UInt32,
        (∀ leaf, verifyProof hash leaf (getProof hash zero τ.state.store index r.hash) index
          r.hash = true ↔ leaf = padded zero l index.toNat) ∧
        (index ≤ r.index →
          getLeaf τ.state.store index r.hash = some (padded zero l index.toNat)) ∧
        (r.index < index → getLeaf τ.state.store index r.hash = none ∨
          getLeaf τ.state.store index r.hash = some zero) := by
  have hcomplete := State.Complete.of_reach zero hinj hrun
  obtain ⟨l, hl, hkeep⟩ := hcomplete.store.keeps r hr
  refine ⟨l, hl, fun m hm => hm.unique zero hinj hl,
    fun hinOrder => hl.eq_take zero hinj hinOrder hr, fun index => ?_⟩
  have hhash : r.hash = node hash (padded zero l) DefaultHeight 0 := hl.hash_eq
  have hlen := hl.length_eq
  obtain ⟨hwritten, hunwritten⟩ := getLeaf_spec zero hinj hcomplete.store.hashed hkeep index
  rw [hhash]
  refine ⟨verifyProof_iff zero hinj hcomplete.store.hashed hkeep index, fun hle => hwritten ?_,
    fun hlt => hunwritten ?_⟩
  · have hle' := UInt32.le_iff_toNat_le.mp hle
    simp only [Set.mem_Iio]
    omega
  · have hlt' := UInt32.lt_iff_toNat_lt.mp hlt
    simp only [Set.mem_Iio]
    omega

/-- Two leaves are put and the block of the second is reorged: the proof for the first one is
accepted for it and for no other leaf. -/
theorem proofs_of_stored_root_first :
    let τ := [Op.putLeaf 1 0 ⟨0, leaf 7⟩, .putLeaf 2 0 ⟨1, leaf 8⟩, .reorg 2].foldl
      (Tracked.apply node (.leaf 0)) (Tracked.new (.leaf 0))
    ∃ r ∈ τ.state.store.root,
      (∀ leaf, verifyProof node leaf (getProof node (.leaf 0) τ.state.store 0 r.hash) 0
        r.hash = true ↔ leaf = .leaf 7) ∧
      getLeaf τ.state.store 0 r.hash = some (.leaf 7) := by
  intro τ
  have hinj := injective2_node
  -- After the reorg the first leaf is visible.
  let r : Root Term := ⟨listRoot node (.leaf 0) DefaultHeight [.leaf 7], 0, 1, 0⟩
  have hr : r ∈ τ.state.store.root := by decide +kernel
  have hrun : Reach (Tracked.apply node (.leaf 0)) (fun _ _ => True)
      (Tracked.new (.leaf 0)) τ := .step (.step (.step .init trivial) trivial) trivial
  obtain ⟨l, -, hunique, -, hread⟩ := proofs_of_stored_root (leaf 0) hinj hrun hr
  obtain rfl : [leaf 7] = l := hunique _ ⟨rfl, listRoot_eq_root ..⟩
  obtain ⟨hproof, hleaf, -⟩ := hread 0
  exact ⟨r, hr, hproof, hleaf (by decide)⟩

end AggKit.Tree
