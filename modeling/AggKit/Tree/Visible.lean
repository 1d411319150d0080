import AggKit.Lib.Run
import AggKit.Tree.Spec

/-!
# The visible leaves of a tree

What the tree is for: a list of leaves, each put at a block and a position, from which deletions
take a suffix. `rowsOf v` is the root table that such a list should have, and `Synced σ v` ties a
state of the program to the list `v`: the root table is `rowsOf v`, and the object in memory is
either not initialised, or holds exactly these leaves, or remembers an index beyond them. The last
case is what deletions leave behind; it does no harm as long as the next leaf is not put at that
index.

The lemmas on `Synced` are the steps of a simulation: each operation of the program takes a state
synced with a list to a state synced with the list that the abstract operation gives.
-/

namespace AggKit.Tree

open Merkle List Function

/-- A leaf whose root is in the root table. -/
structure Visible (H : Type) where
  hash : H
  blockNum : ℕ
  blockPosition : ℕ
deriving DecidableEq

/-- The leaf was put before the given block and position. -/
def Visible.before {H : Type} (e : Visible H) (blockNum blockPosition : ℕ) : Prop :=
  e.blockNum < blockNum ∨ (e.blockNum = blockNum ∧ e.blockPosition < blockPosition)

/-- The hashes of the leaves. -/
def leaves {H : Type} (v : List (Visible H)) : List H := v.map Visible.hash

/-- The object in memory together with the database. -/
structure State (H : Type) where
  tree : AppendOnlyTree H
  store : Store H

variable {H : Type} (hash : H → H → H) (zero : H)

/-- The root table over the visible leaves `v`: row `i` has the root of the leaves up to `i`. -/
def rowsOf (v : List (Visible H)) : List (Root H) :=
  v.mapIdx fun i e =>
    ⟨root hash zero DefaultHeight ((leaves v).take (i + 1)), UInt32.ofNat i, e.blockNum,
      e.blockPosition⟩

@[simp]
theorem length_leaves (v : List (Visible H)) : (leaves v).length = v.length := by
  simp [leaves]

@[simp]
theorem leaves_concat (v : List (Visible H)) (e : Visible H) :
    leaves (v ++ [e]) = leaves v ++ [e.hash] := by
  simp [leaves]

@[simp]
theorem length_rowsOf (v : List (Visible H)) : (rowsOf hash zero v).length = v.length := by
  simp [rowsOf]

@[simp]
theorem rowsOf_nil : rowsOf hash zero ([] : List (Visible H)) = [] := rfl

/-- One more leaf gives one more row and leaves the others. -/
theorem rowsOf_concat (v : List (Visible H)) (e : Visible H) :
    rowsOf hash zero (v ++ [e]) = rowsOf hash zero v ++
      [⟨root hash zero DefaultHeight (leaves v ++ [e.hash]), UInt32.ofNat v.length, e.blockNum,
        e.blockPosition⟩] := by
  have hlast : ((leaves v ++ [e.hash]).take (v.length + 1)) = leaves v ++ [e.hash] :=
    take_of_length_le (by simp)
  unfold rowsOf
  rw [mapIdx_concat, leaves_concat, hlast]
  congr 1
  refine ext_getElem (by simp) fun i hi _ => ?_
  have hlt : i < v.length := by simpa using hi
  have hi' : i + 1 ≤ (leaves v).length := by
    rw [length_leaves]
    exact hlt
  simp [take_append_of_le_length hi']

variable {v : List (Visible H)}

/-- The hashes in the rows are the roots of the non-empty initial segments of the leaves. -/
theorem hash_of_mem_rowsOf {r : Root H} (hr : r ∈ rowsOf hash zero v) :
    ∃ i < v.length, r.hash = root hash zero DefaultHeight ((leaves v).take (i + 1)) := by
  obtain ⟨i, hi, rfl⟩ := mem_mapIdx.mp hr
  exact ⟨i, hi, rfl⟩

/-- Every row is as old as the leaf it was written for. -/
theorem exists_visible_of_mem_rowsOf {r : Root H} (hr : r ∈ rowsOf hash zero v) :
    ∃ e ∈ v, r.blockNum = e.blockNum ∧ r.blockPosition = e.blockPosition := by
  obtain ⟨i, hi, rfl⟩ := mem_mapIdx.mp hr
  exact ⟨v[i], getElem_mem hi, rfl, rfl⟩

/-- The indices in the rows count up from zero. -/
theorem rowsOf_index (hlen : v.length ≤ 2^32) :
    (rowsOf hash zero v).map (fun r => r.index.toNat) = List.range v.length := by
  refine ext_getElem (by simp) fun i hi _ => ?_
  have hi' : i < v.length := by simpa using hi
  simp only [rowsOf, getElem_map, getElem_mapIdx, getElem_range,
    UInt32.toNat_ofNat']
  omega

/-! ## Deletions -/

/-- The leaves put before the given block. -/
def reorgVisible (v : List (Visible H)) (firstReorgedBlock : ℕ) : List (Visible H) :=
  v.filter fun e => decide (e.blockNum < firstReorgedBlock)

/-- The leaves up to the given index. -/
def backwardVisible (v : List (Visible H)) (targetIndex : UInt32) : List (Visible H) :=
  v.take (targetIndex.toNat + 1)

/-- The leaves were put at growing blocks and positions. -/
def Ordered (v : List (Visible H)) : Prop :=
  v.Pairwise fun a b => a.before b.blockNum b.blockPosition

theorem Ordered.concat_iff {e : Visible H} :
    Ordered (v ++ [e]) ↔ Ordered v ∧ ∀ a ∈ v, a.before e.blockNum e.blockPosition := by
  simp [Ordered, pairwise_append]

/-- Deleting the rows of late blocks leaves the rows of the leaves of early blocks. -/
theorem rowsOf_reorg (hv : Ordered v) (firstReorgedBlock : ℕ) :
    Table.deleteWhere (fun r => decide (firstReorgedBlock ≤ r.blockNum)) (rowsOf hash zero v) =
      rowsOf hash zero (reorgVisible v firstReorgedBlock) := by
  induction v using List.reverseRecOn with
  | nil => rfl
  | append_singleton v e ih =>
    obtain ⟨hv', hlast⟩ := Ordered.concat_iff.mp hv
    by_cases hkeep : e.blockNum < firstReorgedBlock
    · -- The last leaf stays, so all of them do.
      have hall : ∀ a ∈ v ++ [e], a.blockNum < firstReorgedBlock := by
        intro a ha
        rw [mem_append, mem_singleton] at ha
        rcases ha with ha | rfl
        · rcases hlast a ha with hlt | ⟨heq, -⟩ <;> omega
        · exact hkeep
      have hvis : reorgVisible (v ++ [e]) firstReorgedBlock = v ++ [e] :=
        filter_eq_self.mpr fun a ha => decide_eq_true (hall a ha)
      rw [hvis]
      refine Table.deleteWhere_eq_self fun r hr => ?_
      obtain ⟨a, ha, hblock, -⟩ := exists_visible_of_mem_rowsOf hash zero hr
      have := hall a ha
      simp only [decide_eq_false_iff_not]
      omega
    · have hvis : reorgVisible (v ++ [e]) firstReorgedBlock = reorgVisible v firstReorgedBlock := by
        simp [reorgVisible, hkeep]
      rw [hvis, rowsOf_concat, Table.deleteWhere_append, ih hv']
      simp [Table.deleteWhere, Nat.not_lt.mp hkeep]

/-- Deleting the rows above an index leaves the rows of the leaves up to it. -/
theorem rowsOf_backward (hlen : v.length ≤ 2^32) (targetIndex : UInt32) :
    Table.deleteWhere (fun r => decide (targetIndex < r.index)) (rowsOf hash zero v) =
      rowsOf hash zero (backwardVisible v targetIndex) := by
  induction v using List.reverseRecOn with
  | nil => simp [backwardVisible, Table.deleteWhere]
  | append_singleton v e ih =>
    rw [length_append, length_singleton] at hlen
    have hindex : (UInt32.ofNat v.length).toNat = v.length := by
      rw [UInt32.toNat_ofNat']
      omega
    by_cases hkeep : v.length ≤ targetIndex.toNat
    · have hvis : backwardVisible (v ++ [e]) targetIndex = v ++ [e] :=
        take_of_length_le (by simp; omega)
      have hvis' : backwardVisible v targetIndex = v := take_of_length_le (by omega)
      have hrow : ¬targetIndex < UInt32.ofNat v.length := by
        rw [UInt32.lt_iff_toNat_lt, hindex]
        omega
      rw [hvis, rowsOf_concat, Table.deleteWhere_append, ih (by omega), hvis']
      simp [Table.deleteWhere, hrow]
    · have hvis : backwardVisible (v ++ [e]) targetIndex = backwardVisible v targetIndex :=
        take_append_of_le_length (by omega)
      have hrow : targetIndex < UInt32.ofNat v.length := by
        rw [UInt32.lt_iff_toNat_lt, hindex]
        omega
      rw [hvis, rowsOf_concat, Table.deleteWhere_append, ih (by omega)]
      simp [Table.deleteWhere, hrow]

/-! ## The simulation -/

/-- The state `σ` has the visible leaves `v`, and its object fits them or lies beyond them. -/
structure Synced (σ : State H) (v : List (Visible H)) : Prop where
  wf : σ.store.WF hash zero
  rows : σ.store.root = rowsOf hash zero v
  ordered : Ordered v
  length_le : v.length ≤ 2^32
  /-- Not initialised, or holding the visible leaves, or ahead of them. -/
  memory : σ.tree.lastIndex + 1 < 0 ∨ σ.tree.Holds hash zero (leaves v) ∨
    (v.length : ℤ) < σ.tree.lastIndex + 1

section synced

variable {σ : State H} {v : List (Visible H)}

/-- A new tree has no visible leaf. -/
theorem Synced.new : Synced hash zero ⟨newAppendOnlyTree zero, Store.empty⟩ [] where
  wf := Store.WF.empty hash zero
  rows := rfl
  ordered := List.Pairwise.nil
  length_le := by simp
  memory := .inl (by simp [newAppendOnlyTree])

/-- The last root is the row of the last visible leaf. -/
theorem Synced.getLastRoot_concat {e : Visible H} (hσ : Synced hash zero σ (v ++ [e])) :
    σ.store.getLastRoot = some ⟨root hash zero DefaultHeight (leaves v ++ [e.hash]),
      UInt32.ofNat v.length, e.blockNum, e.blockPosition⟩ := by
  unfold Store.getLastRoot
  rw [hσ.rows, rowsOf_concat]
  refine Table.lastBy_concat_of_le fun r hr => ?_
  obtain ⟨a, ha, hblock, hpos⟩ := exists_visible_of_mem_rowsOf hash zero hr
  have hbefore := (Ordered.concat_iff.mp hσ.ordered).2 a ha
  unfold Visible.before at hbefore
  rw [Root.notAfter_iff, hblock, hpos]
  show a.blockNum < e.blockNum ∨ (a.blockNum = e.blockNum ∧ a.blockPosition ≤ e.blockPosition)
  omega

/-- A root row of a well-formed store whose hash and index are those of a list is the root of that
list. -/
theorem RootOf.of_hash_eq {hash : H → H → H} (hinj : Injective2 hash) {s : Store H}
    (hs : s.WF hash zero) {r : Root H} (hr : r ∈ s.root) {l : List H}
    (hlen : l.length = r.index.toNat + 1) (hhash : r.hash = root hash zero DefaultHeight l) :
    RootOf hash zero s r l := by
  obtain ⟨m, hm⟩ := hs.rootOf r hr
  have heq : l = m := by
    refine eq_of_padded_eq (z := zero) (hlen.trans hm.length_eq.symm) fun i hi =>
      padded_eq_of_root_eq hinj (hhash.symm.trans hm.hash_eq) ?_
    have hbound := r.index.toNat_lt
    unfold DefaultHeight
    omega
  exact heq ▸ hm

/-- The leaves under the last root are the visible ones. -/
theorem Synced.lastLeaves {hash : H → H → H} (hinj : Injective2 hash)
    (hσ : Synced hash zero σ v) : σ.store.LastLeaves hash zero (leaves v) := by
  unfold Store.LastLeaves
  rcases eq_nil_or_concat v with rfl | ⟨v', e, rfl⟩
  · have hempty : σ.store.getLastRoot = none := by
      unfold Store.getLastRoot
      rw [hσ.rows]
      rfl
    rw [hempty]
    rfl
  · rw [concat_eq_append] at hσ ⊢
    have hlast := hσ.getLastRoot_concat
    rw [hlast]
    refine RootOf.of_hash_eq zero hinj hσ.wf (Table.mem_of_lastBy_eq_some hlast) ?_ (by simp)
    have hle := hσ.length_le
    rw [length_append, length_singleton] at hle
    simp only [leaves_concat, length_append, length_leaves, length_singleton,
      UInt32.toNat_ofNat']
    omega

/-- The new root is in the table already exactly when a zero leaf is put after other leaves. -/
theorem exists_row_iff {hash : H → H → H} (hinj : Injective2 hash) (x : H)
    (hlen : v.length < 2^32) :
    (∃ r ∈ rowsOf hash zero v, r.hash = root hash zero DefaultHeight (leaves v ++ [x])) ↔
      x = zero ∧ v ≠ [] := by
  constructor
  · rintro ⟨r, hr, hhash⟩
    obtain ⟨i, hi, hroot⟩ := hash_of_mem_rowsOf hash zero hr
    have hpad := padded_eq_of_root_eq hinj (hroot.symm.trans hhash) (i := v.length)
      (by simpa [DefaultHeight] using hlen)
    -- Leaf `v.length` is beyond the older list and is `x` in the newer one.
    rw [padded_of_le zero _ (by simp)] at hpad
    have hx : padded zero (leaves v ++ [x]) v.length = x := by
      rw [← length_leaves, padded_append_length]
    exact ⟨(hpad.trans hx).symm, ne_nil_of_length_pos (by omega)⟩
  · rintro ⟨rfl, hne⟩
    obtain ⟨v', e, rfl⟩ := (eq_nil_or_concat v).resolve_left hne
    rw [concat_eq_append, rowsOf_concat]
    refine ⟨_, mem_append_right _ (mem_singleton_self _), ?_⟩
    simp only [leaves_concat]
    exact (root_concat_default hash x DefaultHeight _).symm

/-- Deleting roots moves an object that held the visible leaves ahead of them. -/
theorem Synced.of_deletion {v' : List (Visible H)} {s' : Store H} (hσ : Synced hash zero σ v)
    (hrht : s'.rht = σ.store.rht) (hsub : s'.root ⊆ σ.store.root)
    (hrows : s'.root = rowsOf hash zero v') (hv' : v'.Sublist v) :
    Synced hash zero ⟨σ.tree, s'⟩ v' where
  wf := hσ.wf.of_subset hash zero hrht hsub
  rows := hrows
  ordered := hσ.ordered.sublist hv'
  length_le := hv'.length_le.trans hσ.length_le
  memory := by
    have hle := hv'.length_le
    rcases hσ.memory with hnew | hholds | hahead
    · exact .inl hnew
    · rcases hle.lt_or_eq with hlt | heq
      · right; right
        have hindex := hholds.lastIndex_eq
        rw [length_leaves] at hindex
        show (v'.length : ℤ) < σ.tree.lastIndex + 1
        omega
      · obtain rfl := hv'.eq_of_length heq
        exact .inr (.inl hholds)
    · right; right
      show (v'.length : ℤ) < σ.tree.lastIndex + 1
      omega

/-- `Reorg` drops the leaves of the reorged blocks. -/
theorem Synced.reorg (hσ : Synced hash zero σ v) (firstReorgedBlock : ℕ) :
    Synced hash zero ⟨σ.tree, σ.store.reorg firstReorgedBlock⟩
      (reorgVisible v firstReorgedBlock) := by
  refine hσ.of_deletion hash zero rfl filter_sublist.subset ?_ filter_sublist
  rw [← rowsOf_reorg hash zero hσ.ordered, ← hσ.rows]
  rfl

/-- `BackwardToIndex` drops the leaves above the index. -/
theorem Synced.backwardToIndex (hσ : Synced hash zero σ v) (targetIndex : UInt32) :
    Synced hash zero ⟨σ.tree, σ.store.backwardToIndex targetIndex⟩
      (backwardVisible v targetIndex) := by
  refine hσ.of_deletion hash zero rfl filter_sublist.subset ?_ (take_sublist _ _)
  rw [← rowsOf_backward hash zero hσ.length_le, ← hσ.rows]
  rfl

variable [DecidableEq H] {leaf : Leaf H} {blockNum blockPosition : ℕ}

/-- A leaf that is put after the visible ones by an object that holds them: a zero leaf after other
leaves is refused by the primary key of the root table, any other becomes visible. -/
theorem Synced.putAccepted {hash : H → H → H} (hinj : Injective2 hash)
    (hσ : Synced hash zero σ v) {t : AppendOnlyTree H} (ht : t.Holds hash zero (leaves v))
    (hindex : leaf.index.toNat = v.length) (hafter : ∀ e ∈ v, e.before blockNum blockPosition) :
    let o := Tree.putAccepted hash zero t σ.store blockNum blockPosition leaf
    let v' := v ++ [⟨leaf.hash, blockNum, blockPosition⟩]
    ((leaf.hash = zero ∧ v ≠ []) ∧ o.result = .error .rootExists ∧ o.store = σ.store ∧
        o.tree.Holds hash zero (leaves v) ∧ Synced hash zero ⟨o.tree, o.store⟩ v) ∨
      (¬(leaf.hash = zero ∧ v ≠ []) ∧
        o.result = .ok (root hash zero DefaultHeight (leaves v')) ∧
        o.tree.Holds hash zero (leaves v') ∧ Synced hash zero ⟨o.tree, o.store⟩ v') := by
  have hlt : v.length < 2^32 := hindex ▸ leaf.index.toNat_lt
  have hexists := exists_row_iff zero hinj leaf.hash hlt
  rw [← hσ.rows] at hexists
  have hindex' : leaf.index.toNat = (leaves v).length := by rw [length_leaves, hindex]
  have hspec := putAccepted_spec hash zero hinj hσ.wf ht hindex' blockNum blockPosition
  generalize Tree.putAccepted hash zero t σ.store blockNum blockPosition leaf = o at hspec ⊢
  rcases hspec with
    ⟨hrow, hresult, hstore, hholds⟩ | ⟨hfresh, hresult, hroots, -, hwf, -, hholds⟩
  · left
    refine ⟨hexists.mp hrow, hresult, hstore, hholds, ?_⟩
    exact ⟨hstore ▸ hσ.wf, hstore ▸ hσ.rows, hσ.ordered, hσ.length_le, .inr (.inl hholds)⟩
  · right
    rw [leaves_concat]
    refine ⟨fun hzero => ?_, hresult, hholds, hwf, ?_, ?_, ?_, .inr (.inl ?_)⟩
    · obtain ⟨r, hr, heq⟩ := hexists.mpr hzero
      exact hfresh r hr heq
    · rw [hroots, hσ.rows, rowsOf_concat]
      simp [rowOf, ← hindex]
    · exact Ordered.concat_iff.mpr ⟨hσ.ordered, hafter⟩
    · rw [length_append, length_singleton]
      omega
    · rw [leaves_concat]
      exact hholds

/-- `PutLeaf` at the number of visible leaves, whatever the object remembers. -/
theorem Synced.putLeaf {hash : H → H → H} (hinj : Injective2 hash)
    (hσ : Synced hash zero σ v) (hindex : leaf.index.toNat = v.length)
    (hafter : ∀ e ∈ v, e.before blockNum blockPosition) :
    let o := Tree.putLeaf hash zero σ.tree σ.store blockNum blockPosition leaf
    let v' := v ++ [⟨leaf.hash, blockNum, blockPosition⟩]
    ((leaf.hash = zero ∧ v ≠ []) ∧ o.result = .error .rootExists ∧ o.store = σ.store ∧
        o.tree.Holds hash zero (leaves v) ∧ Synced hash zero ⟨o.tree, o.store⟩ v) ∨
      (¬(leaf.hash = zero ∧ v ≠ []) ∧
        o.result = .ok (root hash zero DefaultHeight (leaves v')) ∧
        o.tree.Holds hash zero (leaves v') ∧ Synced hash zero ⟨o.tree, o.store⟩ v') := by
  by_cases hnext : (leaf.index.toNat : ℤ) = σ.tree.lastIndex + 1
  · -- The object expects this index, so it is not ahead and holds the visible leaves.
    have hholds : σ.tree.Holds hash zero (leaves v) := by
      rcases hσ.memory with hnew | hholds | hahead
      · omega
      · exact hholds
      · omega
    rw [putLeaf_of_next hash zero blockNum blockPosition hnext]
    exact hσ.putAccepted zero hinj hholds hindex hafter
  · obtain ⟨t', -, hholds, hput⟩ := putLeaf_of_not_next hash zero blockNum blockPosition hinj
      hσ.wf (hσ.lastLeaves zero hinj) hnext
    rw [hput, if_pos (by rw [length_leaves, hindex])]
    exact hσ.putAccepted zero hinj hholds hindex hafter

/-- `PutLeaf` at any other index, unless it is the one the object remembers, is refused. -/
theorem Synced.putLeaf_reject {hash : H → H → H} (hinj : Injective2 hash)
    (hσ : Synced hash zero σ v) (hindex : leaf.index.toNat ≠ v.length)
    (hnext : (leaf.index.toNat : ℤ) ≠ σ.tree.lastIndex + 1) :
    let o := Tree.putLeaf hash zero σ.tree σ.store blockNum blockPosition leaf
    o.result = .error .invalidIndex ∧ o.store = σ.store ∧
      Synced hash zero ⟨o.tree, o.store⟩ v := by
  obtain ⟨t', -, hholds, hput⟩ := putLeaf_of_not_next hash zero blockNum blockPosition hinj
    hσ.wf (hσ.lastLeaves zero hinj) hnext
  rw [hput, if_neg (by rw [length_leaves]; exact hindex)]
  exact ⟨rfl, rfl, hσ.wf, hσ.rows, hσ.ordered, hσ.length_le, .inr (.inl hholds)⟩

end synced

end AggKit.Tree
