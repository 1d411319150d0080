import AggKit.Tree.Readable
import AggKit.Tree.Visible

/-!
# The updatable tree of `tree/updatabletree.go`

Leaves may be written in any order of indices and more than once. There is no object in memory:
`PutLeaf` reads the siblings of the leaf under the last root from the node table and climbs from the
new leaf to the new root.

The root table has the hash of the root as its primary key, here as for the append-only tree. A
write that leads back to leaves whose root is in the table is refused, and with it one that writes
the value that is there. Inner nodes are another matter: one that is in the table already is left
as it is.
-/

namespace AggKit.Tree

open Merkle Run Function Term
open List hiding Vector

variable {H : Type} (hash : H → H → H) (zero : H)

namespace UpdatableTree

/-- One iteration of the loop of `PutLeaf`: the node above the current child. -/
def parent (siblings : Vector H 32) (leaf : Leaf H) (currentChildHash : H) (h : Fin 32) :
    TreeNode H :=
  if leaf.index.toNat.testBit h.val then
    -- add child to the right
    newTreeNode hash (siblings.get h) currentChildHash
  else
    -- add child to the left
    newTreeNode hash currentChildHash (siblings.get h)

/-- The loop of `PutLeaf`: the hash it arrives at and the nodes it has made. -/
def putLeafLoop (siblings : Vector H 32) (leaf : Leaf H) : H × List (TreeNode H) :=
  (List.finRange 32).foldl (fun (currentChildHash, newNodes) h =>
    let node := parent hash siblings leaf currentChildHash h
    (node.hash, newNodes ++ [node])) (leaf.hash, [])

variable [DecidableEq H]

/-- The root that `PutLeaf` starts from. -/
def lastRootHash (s : Store H) : H :=
  match s.getLastRoot with
  | none => zeroHash hash zero DefaultHeight
  | some root => root.hash

/-- `UpdatableTree.PutLeaf`: what it returns and the tables it leaves. -/
def putLeaf (s : Store H) (blockNum blockPosition : ℕ) (leaf : Leaf H) :
    Except (TreeError H) H × Store H :=
  let (siblings, _) := getSiblings hash zero s leaf.index (lastRootHash hash zero s)
  let (currentChildHash, newNodes) := putLeafLoop hash siblings leaf
  match s.storeRoot ⟨currentChildHash, leaf.index, blockNum, blockPosition⟩ with
  | none => (.error .rootExists, s)
  | some s' => (.ok currentChildHash, s'.storeNodes newNodes)

end UpdatableTree

/-! ## One write -/

namespace UpdatableTree

/-- With the siblings of the tree over `f`, the first `h` iterations climb to the ancestor at height
`h` in the tree with the new leaf and make the nodes on its path. -/
theorem climb_spec (f : ℕ → H) (n h : ℕ) (leaf : H) :
    (List.range h).foldl (fun (c : H × List (TreeNode H)) k =>
      let node := if n.testBit k then newTreeNode hash (sibling hash f n k) c.1
        else newTreeNode hash c.1 (sibling hash f n k)
      (node.hash, c.2 ++ [node])) (leaf, []) =
      (node hash (update f n leaf) h (n / 2^h),
        (List.range h).map (pathNode hash (update f n leaf) n)) := by
  induction h with
  | zero => simp
  | succ h ih =>
    have hnode : (if n.testBit h then newTreeNode hash (sibling hash f n h)
          (node hash (update f n leaf) h (n / 2^h))
        else newTreeNode hash (node hash (update f n leaf) h (n / 2^h))
          (sibling hash f n h)) = pathNode hash (update f n leaf) n h := by
      obtain ⟨hleft, hright⟩ := children_of_ancestor hash (update f n leaf) n h
      unfold pathNode
      rw [hleft, hright, sibling_update]
      split_ifs <;> rfl
    rw [range_succ, foldl_append, ih, map_append]
    simp only [foldl_cons, foldl_nil, hnode]
    rfl

/-- The loop of `PutLeaf` with the siblings of the tree over `f`. -/
theorem putLeafLoop_spec (f : ℕ → H) (leaf : Leaf H) :
    putLeafLoop hash
        (Vector.ofFn fun h : Fin 32 => sibling hash f leaf.index.toNat h.val) leaf =
      (node hash (update f leaf.index.toNat leaf.hash) DefaultHeight 0,
        (List.range DefaultHeight).map
          (pathNode hash (update f leaf.index.toNat leaf.hash) leaf.index.toNat)) := by
  have hget := get_proof_ofFn (sibling hash f leaf.index.toNat)
  have hclimb := climb_spec hash f leaf.index.toNat 32 leaf.hash
  rw [Nat.div_eq_of_lt leaf.index.toNat_lt] at hclimb
  unfold putLeafLoop parent DefaultHeight
  rw [← hclimb, ← map_coe_finRange_eq_range, foldl_map]
  simp only [hget]

/-- A write to a tree over `f` fails because the root is there already, and then changes no table,
or returns and stores the root of `f` with the new leaf. -/
theorem putLeaf_spec [DecidableEq H] {hash : H → H → H}
    (hinj : Injective2 hash) {s : Store H} {f : ℕ → H} {written : Set ℕ}
    (hs : s.Hashed hash) (hkeep : s.Keeps hash zero f written)
    (hlast : lastRootHash hash zero s = node hash f DefaultHeight 0)
    (blockNum blockPosition : ℕ) (leaf : Leaf H) :
    let o := putLeaf hash zero s blockNum blockPosition leaf
    let f' := update f leaf.index.toNat leaf.hash
    let row : Root H := ⟨node hash f' DefaultHeight 0, leaf.index, blockNum, blockPosition⟩
    ((∃ r ∈ s.root, r.hash = row.hash) ∧ o = (.error .rootExists, s)) ∨
      ((∀ r ∈ s.root, r.hash ≠ row.hash) ∧ o.1 = .ok row.hash ∧ o.2.root = s.root ++ [row] ∧
        s.rht ⊆ o.2.rht ∧ o.2.Hashed hash ∧
        o.2.Keeps hash zero f' (insert leaf.index.toNat written)) := by
  intro o f' row
  have hsiblings : (getSiblings hash zero s leaf.index (lastRootHash hash zero s)).1 =
      Vector.ofFn fun h : Fin 32 => sibling hash f leaf.index.toNat h.val := by
    rw [hlast]
    exact getProof_spec zero hinj hs hkeep leaf.index
  have hloop := putLeafLoop_spec hash f leaf
  rw [← hsiblings] at hloop
  have ho : o = match s.storeRoot row with
      | none => (.error .rootExists, s)
      | some s' => (.ok row.hash, s'.storeNodes ((List.range DefaultHeight).map
          (pathNode hash f' leaf.index.toNat))) := by
    simp only [o, putLeaf, hloop]
    rfl
  cases hins : Table.insert Root.hash s.root row with
  | none =>
    left
    have hstore : s.storeRoot row = none := by simp [Store.storeRoot, hins]
    rw [hstore] at ho
    exact ⟨Table.insert_eq_none_iff.mp hins, ho⟩
  | some rows =>
    right
    obtain ⟨hfresh, rfl⟩ := Table.insert_eq_some_iff.mp hins
    have hstore : s.storeRoot row = some { s with root := s.root ++ [row] } := by
      simp [Store.storeRoot, hins]
    rw [hstore] at ho
    have hhashed : ({ s with root := s.root ++ [row] } : Store H).Hashed hash := hs
    have hnodes : ∀ n ∈ (List.range DefaultHeight).map (pathNode hash f' leaf.index.toNat),
        n.hash = hash n.left n.right := by
      intro n hn
      obtain ⟨h, -, rfl⟩ := mem_map.mp hn
      rfl
    have hsub : s.rht ⊆ o.2.rht := ho ▸ Store.rht_subset_storeNodes _ _
    refine ⟨hfresh, by rw [ho], by rw [ho]; rfl, hsub, ?_, ?_⟩
    · rw [ho]
      exact hhashed.storeNodes hnodes
    · refine hkeep.update hash zero hsub fun h hh => ?_
      have hmem := Store.mem_storeNodes hinj hhashed hnodes
      rw [ho]
      exact hmem (mem_map.mpr ⟨h, mem_range.mpr hh, rfl⟩)

end UpdatableTree

/-! ## Runs of writes

A run carries along the writes that were accepted. -/

/-- A call of `PutLeaf`. -/
structure Write (H : Type) where
  blockNum : ℕ
  blockPosition : ℕ
  leaf : Leaf H
deriving DecidableEq

/-- The write is at an earlier block and position than the other one. -/
def Write.before (a b : Write H) : Prop :=
  a.blockNum < b.blockNum ∨ (a.blockNum = b.blockNum ∧ a.blockPosition < b.blockPosition)

/-- The leaves after some writes: the last one written at each index, zero where none was. -/
def content (ws : List (Write H)) (n : ℕ) : H :=
  match (ws.filter fun w => w.leaf.index.toNat = n).getLast? with
  | none => zero
  | some w => w.leaf.hash

/-- The indices written. -/
def indices (ws : List (Write H)) : Set ℕ := { n | ∃ w ∈ ws, w.leaf.index.toNat = n }

/-- The root of the leaves after some writes. -/
def contentRoot (ws : List (Write H)) : H := node hash (content zero ws) DefaultHeight 0

/-- The root table after the writes `ws`: row `i` has the root of the leaves after write `i`. -/
def writeRows (ws : List (Write H)) : List (Root H) :=
  ws.mapIdx fun i w =>
    ⟨contentRoot hash zero (ws.take (i + 1)), w.leaf.index, w.blockNum, w.blockPosition⟩

theorem content_nil : content zero ([] : List (Write H)) = fun _ => zero := rfl

theorem content_concat (ws : List (Write H)) (w : Write H) :
    content zero (ws ++ [w]) =
      update (content zero ws) w.leaf.index.toNat w.leaf.hash := by
  funext n
  by_cases hn : w.leaf.index.toNat = n
  · subst hn
    simp [content]
  · rw [update_of_ne (Ne.symm hn)]
    simp [content, filter_append, hn]

theorem indices_concat (ws : List (Write H)) (w : Write H) :
    indices (ws ++ [w]) = insert w.leaf.index.toNat (indices ws) := by
  ext n
  simp only [indices, mem_append, mem_singleton, Set.mem_ofPred_eq, Set.mem_insert_iff]
  constructor
  · rintro ⟨e, he | rfl, rfl⟩
    · exact .inr ⟨e, he, rfl⟩
    · exact .inl rfl
  · rintro (rfl | ⟨e, he, rfl⟩)
    · exact ⟨w, .inr rfl, rfl⟩
    · exact ⟨e, .inl he, rfl⟩

theorem writeRows_concat (ws : List (Write H)) (w : Write H) :
    writeRows hash zero (ws ++ [w]) = writeRows hash zero ws ++
      [⟨contentRoot hash zero (ws ++ [w]), w.leaf.index, w.blockNum, w.blockPosition⟩] := by
  have hlast : (ws ++ [w]).take (ws.length + 1) = ws ++ [w] :=
    take_of_length_le (by simp)
  unfold writeRows
  rw [mapIdx_append, mapIdx_singleton, Nat.zero_add, hlast]
  congr 1
  apply mapIdx_eq_mapIdx_iff.mpr
  intro i hi
  rw [take_append_of_le_length (by omega)]

/-- No leaf is beyond the width of the tree, so two contents with one root are equal. -/
theorem content_eq_of_root_eq {hash : H → H → H} (hinj : Injective2 hash)
    {ws vs : List (Write H)} (hroot : contentRoot hash zero ws = contentRoot hash zero vs) :
    content zero ws = content zero vs := by
  have hbeyond : ∀ (us : List (Write H)) {n : ℕ}, 2^DefaultHeight ≤ n →
      content zero us n = zero := by
    intro us n hn
    have hnone : us.filter (fun w => w.leaf.index.toNat = n) = [] := by
      apply filter_eq_nil_iff.mpr
      intro w _
      have hlt : w.leaf.index.toNat < 2^DefaultHeight := w.leaf.index.toNat_lt
      simp only [decide_eq_true_eq]
      omega
    simp [content, hnone]
  funext n
  rcases lt_or_ge n (2^DefaultHeight) with hlt | hge
  · simpa using leaves_eq_of_node_eq hinj hroot n hlt
  · rw [hbeyond ws hge, hbeyond vs hge]

/-- The tables after the accepted writes `ws`: their rows, and every content on the way readable. -/
structure Updated (s : Store H) (ws : List (Write H)) : Prop where
  hashed : s.Hashed hash
  rows : s.root = writeRows hash zero ws
  ordered : ws.Pairwise Write.before
  keeps : ∀ vs, vs <+: ws → s.Keeps hash zero (content zero vs) (indices vs)

theorem Updated.empty : Updated hash zero (Store.empty : Store H) [] where
  hashed := fun _ hn => absurd hn not_mem_nil
  rows := rfl
  ordered := List.Pairwise.nil
  keeps := by
    intro vs hvs
    obtain rfl := prefix_nil.mp hvs
    have hnone : indices ([] : List (Write H)) = ∅ := by
      simp [indices]
    rw [content_nil, hnone]
    exact Store.Keeps.empty hash zero _

section step

variable {hash} {s : Store H} {ws : List (Write H)}

/-- The last root is that of the last write. -/
theorem Updated.lastRootHash (hs : Updated hash zero s ws) :
    UpdatableTree.lastRootHash hash zero s = contentRoot hash zero ws := by
  unfold UpdatableTree.lastRootHash Store.getLastRoot
  rw [hs.rows]
  rcases eq_nil_or_concat ws with rfl | ⟨vs, w, rfl⟩
  · exact (node_eq_zeroHash hash fun _ _ => rfl).symm
  · rw [concat_eq_append] at hs ⊢
    rw [writeRows_concat, Table.lastBy_concat_of_le]
    intro r hr
    obtain ⟨i, hi, rfl⟩ := mem_mapIdx.mp hr
    have hbefore := (pairwise_append.mp hs.ordered).2.2 _ (getElem_mem hi) w (by simp)
    simp only [Root.notAfter_iff]
    rcases hbefore with hlt | ⟨heq, hlt⟩
    · exact .inl hlt
    · exact .inr ⟨heq, hlt.le⟩

/-- The write leads back to the leaves after one of the writes before. -/
def Returns (ws : List (Write H)) (w : Write H) : Prop :=
  ∃ vs, vs ≠ [] ∧ vs <+: ws ∧ content zero vs = content zero (ws ++ [w])

/-- The root of a write is in the table exactly when it leads back. -/
theorem Updated.exists_row_iff (hinj : Injective2 hash) (hs : Updated hash zero s ws)
    (w : Write H) :
    (∃ r ∈ s.root, r.hash = contentRoot hash zero (ws ++ [w])) ↔ Returns zero ws w := by
  rw [hs.rows]
  constructor
  · rintro ⟨r, hr, hhash⟩
    obtain ⟨i, hi, rfl⟩ := mem_mapIdx.mp hr
    refine ⟨ws.take (i + 1), ?_, take_prefix _ _, content_eq_of_root_eq zero hinj hhash⟩
    apply ne_nil_of_length_pos
    rw [length_take]
    omega
  · rintro ⟨vs, hne, hvs, hcontent⟩
    have hlen := hvs.length_le
    have hpos := length_pos_iff.mpr hne
    have htake : ws.take (vs.length - 1 + 1) = vs := by
      rw [Nat.sub_add_cancel hpos]
      exact (prefix_iff_eq_take.mp hvs).symm
    refine ⟨_, mem_mapIdx.mpr ⟨vs.length - 1, by omega, rfl⟩, ?_⟩
    simp only [htake, contentRoot, hcontent]

/-- A write after the others is refused when it leads back to earlier leaves, with no change to the
tables, and returns the root of the leaves with the new one otherwise. -/
theorem Updated.putLeaf [DecidableEq H] (hinj : Injective2 hash) (hs : Updated hash zero s ws)
    {w : Write H} (hafter : ∀ e ∈ ws, e.before w) :
    let o := UpdatableTree.putLeaf hash zero s w.blockNum w.blockPosition w.leaf
    (Returns zero ws w ∧ o = (.error .rootExists, s)) ∨
      (¬Returns zero ws w ∧ o.1 = .ok (contentRoot hash zero (ws ++ [w])) ∧
        Updated hash zero o.2 (ws ++ [w])) := by
  have hkeep := hs.keeps ws (prefix_refl ws)
  rcases UpdatableTree.putLeaf_spec zero hinj hs.hashed hkeep (hs.lastRootHash zero) w.blockNum
    w.blockPosition w.leaf with ⟨hrow, ho⟩ | ⟨hfresh, ho, hroots, hsub, hhashed, hkeeps⟩
  · left
    rw [← content_concat] at hrow
    exact ⟨(hs.exists_row_iff zero hinj w).mp hrow, ho⟩
  · right
    rw [← content_concat] at hfresh ho hroots hkeeps
    have hnot : ¬Returns zero ws w := by
      intro hreturns
      obtain ⟨r, hr, hhash⟩ := (hs.exists_row_iff zero hinj w).mpr hreturns
      exact hfresh r hr hhash
    refine ⟨hnot, ho, hhashed, ?_, ?_, ?_⟩
    · rw [writeRows_concat, ← hs.rows]
      exact hroots
    · refine pairwise_append.mpr ⟨hs.ordered, pairwise_singleton _ _, ?_⟩
      intro e he e' he'
      obtain rfl := mem_singleton.mp he'
      exact hafter e he
    · intro vs hvs
      rcases prefix_concat_iff.mp hvs with rfl | hvs'
      · rw [indices_concat]
        exact hkeeps
      · exact (hs.keeps vs hvs').mono hash zero hsub

/-- Deleting the rows of the later writes. -/
theorem writeRows_reorg {ws ws' : List (Write H)} {firstReorgedBlock : ℕ}
    (hws : ∀ w ∈ ws, w.blockNum < firstReorgedBlock)
    (hws' : ∀ w ∈ ws', firstReorgedBlock ≤ w.blockNum) :
    Table.deleteWhere (fun r => decide (firstReorgedBlock ≤ r.blockNum))
      (writeRows hash zero (ws ++ ws')) = writeRows hash zero ws := by
  induction ws' using List.reverseRecOn with
  | nil =>
    rw [append_nil]
    apply Table.deleteWhere_eq_self
    intro r hr
    obtain ⟨i, hi, rfl⟩ := mem_mapIdx.mp hr
    have hlt := hws _ (getElem_mem hi)
    simp only [decide_eq_false_iff_not]
    omega
  | append_singleton ws' w ih =>
    have hw := hws' w (by simp)
    rw [← append_assoc, writeRows_concat, Table.deleteWhere_append,
      ih fun v hv => hws' v (mem_append_left _ hv)]
    rw [Table.deleteWhere_eq_nil (t := [_]), append_nil]
    intro r hr
    rw [mem_singleton.mp hr]
    exact decide_eq_true hw

/-- `Reorg` takes back the writes of the reorged blocks. -/
theorem Updated.reorg {ws' : List (Write H)} {firstReorgedBlock : ℕ}
    (hs : Updated hash zero s (ws ++ ws')) (hws : ∀ w ∈ ws, w.blockNum < firstReorgedBlock)
    (hws' : ∀ w ∈ ws', firstReorgedBlock ≤ w.blockNum) :
    Updated hash zero (s.reorg firstReorgedBlock) ws where
  hashed := hs.hashed
  rows := by
    rw [← writeRows_reorg zero hws hws', ← hs.rows]
    rfl
  ordered := (pairwise_append.mp hs.ordered).1
  keeps := fun vs hvs =>
    (hs.keeps vs (hvs.trans (prefix_append ws ws'))).mono hash zero (List.Subset.refl _)

end step

/-- A store together with the writes it has accepted. -/
structure Ledger (H : Type) where
  store : Store H
  accepted : List (Write H)

/-- A new store. -/
def Ledger.new : Ledger H := ⟨Store.empty, []⟩

/-- The write is after all that were accepted. -/
def Ledger.InOrder (l : Ledger H) (w : Write H) : Prop := ∀ e ∈ l.accepted, e.before w

variable [DecidableEq H]

/-- One more write, accepted when `PutLeaf` returns a root. -/
def Ledger.write (l : Ledger H) (w : Write H) : Ledger H :=
  match UpdatableTree.putLeaf hash zero l.store w.blockNum w.blockPosition w.leaf with
  | (.ok _, s) => ⟨s, l.accepted ++ [w]⟩
  | (.error _, s) => ⟨s, l.accepted⟩

theorem Ledger.write_of_ok {l : Ledger H} {w : Write H} {r : H} (hresult : (UpdatableTree.putLeaf
      hash zero l.store w.blockNum w.blockPosition w.leaf).1 = .ok r) :
    l.write hash zero w = ⟨(UpdatableTree.putLeaf hash zero l.store w.blockNum w.blockPosition
      w.leaf).2, l.accepted ++ [w]⟩ := by
  unfold Ledger.write
  generalize UpdatableTree.putLeaf hash zero l.store w.blockNum w.blockPosition w.leaf = o
    at hresult ⊢
  obtain ⟨result, s⟩ := o
  simp only at hresult
  rw [hresult]

/-- A write in order keeps tables and accepted writes in step. -/
theorem Updated.write {hash : H → H → H} (hinj : Injective2 hash) {l : Ledger H}
    (hl : Updated hash zero l.store l.accepted) {w : Write H} (hw : l.InOrder w) :
    Updated hash zero (l.write hash zero w).store (l.write hash zero w).accepted := by
  rcases hl.putLeaf zero hinj hw with ⟨-, ho⟩ | ⟨-, hresult, hnext⟩
  · unfold Ledger.write
    rw [ho]
    exact hl
  · rw [Ledger.write_of_ok hash zero hresult]
    exact hnext

/-- In every run of writes in increasing block and position, with any indices and values, a write
returns the root of the map that sends each index to the last leaf accepted there, the new one
included, and all others to zero, unless this map is the one after an earlier write. Then the
primary key of the root table refuses it and the tables stay as they are. -/
theorem updatable_run_roots {hash : H → H → H} (hinj : Injective2 hash) {l : Ledger H}
    (hrun : Reach (Ledger.write hash zero) Ledger.InOrder Ledger.new l) {w : Write H}
    (hw : l.InOrder w) :
    let o := UpdatableTree.putLeaf hash zero l.store w.blockNum w.blockPosition w.leaf
    (Returns zero l.accepted w → o = (.error .rootExists, l.store)) ∧
      (¬Returns zero l.accepted w →
        o.1 = .ok (node hash (content zero (l.accepted ++ [w])) DefaultHeight 0)) := by
  have hl : Updated hash zero l.store l.accepted :=
    hrun.invariant (P := fun l => Updated hash zero l.store l.accepted) (Updated.empty hash zero)
      fun _ _ hl hw => hl.write zero hinj hw
  rcases hl.putLeaf zero hinj hw with ⟨hreturns, ho⟩ | ⟨hnot, hresult, -⟩
  · exact ⟨fun _ => ho, fun hnot => absurd hreturns hnot⟩
  · exact ⟨fun hreturns => absurd hreturns hnot, fun _ => hresult⟩

/-- The first write of a leaf. -/
def firstWrite : Write Term := ⟨1, 0, ⟨3, .leaf 7⟩⟩

/-- Another value at its index. -/
def secondWrite : Write Term := ⟨1, 1, ⟨3, .leaf 8⟩⟩

theorem not_returns_secondWrite : ¬Returns (leaf 0) [firstWrite] secondWrite := by
  rintro ⟨vs, hne, hvs, hcontent⟩
  have hthree := congrFun hcontent 3
  rcases prefix_concat_iff.mp (show vs <+: [] ++ [firstWrite] from hvs) with rfl | hnil
  · revert hthree
    decide
  · exact hne (prefix_nil.mp hnil)

/-- After the first write, the second one returns the root of its leaf alone. -/
theorem updatable_run_roots_second :
    let l := (Ledger.new : Ledger Term).write node (.leaf 0) firstWrite
    (UpdatableTree.putLeaf node (.leaf 0) l.store 1 1 ⟨3, .leaf 8⟩).1 =
      .ok (node node (content (.leaf 0) [firstWrite, secondWrite]) DefaultHeight 0) := by
  intro l
  have hl : l.accepted = [firstWrite] := rfl
  have hrun : Reach (Ledger.write node (.leaf 0)) Ledger.InOrder Ledger.new l :=
    .step .init fun _ he => absurd he not_mem_nil
  have hw : l.InOrder secondWrite := by
    intro e he
    obtain rfl := mem_singleton.mp he
    exact .inr ⟨rfl, by decide⟩
  have hnot : ¬Returns (leaf 0) l.accepted secondWrite := hl ▸ not_returns_secondWrite
  have hroot := (updatable_run_roots (leaf 0) injective2_node hrun hw).2 hnot
  exact hroot

/-- A value is written, another one in its place, and the first one again: the third write is
refused. -/
theorem returning_write_refused :
    let s₁ := (UpdatableTree.putLeaf node (.leaf 0) Store.empty 1 0 ⟨3, .leaf 7⟩).2
    let s₂ := (UpdatableTree.putLeaf node (.leaf 0) s₁ 1 1 ⟨3, .leaf 8⟩).2
    (UpdatableTree.putLeaf node (.leaf 0) s₂ 1 2 ⟨3, .leaf 7⟩).1 = .error .rootExists := by
  decide +kernel

end AggKit.Tree
