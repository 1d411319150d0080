import AggKit.Tree.AppendOnlyTree

/-!
# What `PutLeaf` and `initCache` compute

Every root row of a well-formed store is the root of some list of leaves, and the inner nodes on
the path of the last leaf of that list are in the node table (`RootOf`). The object in memory holds
a list `l` when it remembers the length of `l` and its cache is the frontier of `l` (`Holds`).

`putAccepted_spec` says that a put on an object that holds `l` gives the root of `l` and the new
leaf, and leaves an object that holds the longer list; `initCache_spec` says that the descent
through the node table recovers the list of the last root. Neither needs the lists of different
rows to have anything to do with each other, so both hold in every state a run can reach, also
after rows were deleted behind the back of the object.
-/

namespace AggKit.Tree

open Merkle List Function

variable {H : Type} (hash : H → H → H) (zero : H)

/-! ## The loop of `PutLeaf` -/

section loop

variable (leaf : Leaf H) (cache : ℕ → H) {h : ℕ}

/-- An iteration hashes the cached left child with the current one, or the current one with the
zero hash, and caches it. -/
theorem putLeafLoop_succ (h : ℕ) :
    putLeafLoop hash zero leaf cache (h + 1) =
      let c := putLeafLoop hash zero leaf cache h
      let children := if leaf.index.toNat.testBit h then (c.lastLeftCache h, c.currentChildHash)
        else (c.currentChildHash, zeroHash hash zero h)
      ⟨hash children.1 children.2,
        if leaf.index.toNat.testBit h then c.lastLeftCache
        else update c.lastLeftCache h c.currentChildHash,
        c.newNodes ++ [newTreeNode hash children.1 children.2]⟩ := by
  by_cases hbit : leaf.index.toNat.testBit h <;> simp [putLeafLoop, hbit, newTreeNode]

/-- The nodes the loop has made are hashed from their children. -/
theorem putLeafLoop_newNodes_hash (h : ℕ) :
    ∀ n ∈ (putLeafLoop hash zero leaf cache h).newNodes, n.hash = hash n.left n.right := by
  induction h with
  | zero => simp [putLeafLoop]
  | succ h ih =>
    intro n hn
    rw [putLeafLoop_succ] at hn
    rcases mem_append.mp hn with hn | hn
    · exact ih n hn
    · obtain rfl := mem_singleton.mp hn
      rfl

/-- The loop writes the cache at the heights it has passed where the bit of the index is clear,
and nowhere else. -/
theorem putLeafLoop_lastLeftCache (h k : ℕ) :
    (putLeafLoop hash zero leaf cache h).lastLeftCache k =
      if k < h ∧ ¬leaf.index.toNat.testBit k = true
      then (putLeafLoop hash zero leaf cache k).currentChildHash else cache k := by
  induction h with
  | zero => simp [putLeafLoop]
  | succ h ih =>
    by_cases hbit : leaf.index.toNat.testBit h = true
    · have hiff : (k < h ∧ ¬leaf.index.toNat.testBit k = true) ↔
          (k < h + 1 ∧ ¬leaf.index.toNat.testBit k = true) := by
        refine and_congr_left fun hclear => ?_
        have hne : k ≠ h := fun heq => hclear (heq ▸ hbit)
        omega
      simp only [putLeafLoop_succ, hbit, if_true, ih, hiff]
    · simp only [putLeafLoop_succ, hbit, if_false, Bool.false_eq_true]
      by_cases hk : k = h
      · subst hk
        simp [hbit]
      · have hiff : (k < h) ↔ (k < h + 1) := by omega
        simp only [update_of_ne hk, ih, hiff]

/-- The iteration at height `h` reads the cache as it was before the loop. -/
@[simp]
theorem putLeafLoop_lastLeftCache_self (h : ℕ) :
    (putLeafLoop hash zero leaf cache h).lastLeftCache h = cache h := by
  rw [putLeafLoop_lastLeftCache]
  simp

/-- The loop reads the cache only where the bit of the index is set. -/
theorem putLeafLoop_congr {leaf : Leaf H} {cache cache' : ℕ → H}
    (hagree : ∀ k < h, leaf.index.toNat.testBit k = true → cache k = cache' k) :
    (putLeafLoop hash zero leaf cache h).currentChildHash =
        (putLeafLoop hash zero leaf cache' h).currentChildHash ∧
      (putLeafLoop hash zero leaf cache h).newNodes =
        (putLeafLoop hash zero leaf cache' h).newNodes := by
  induction h with
  | zero => exact ⟨rfl, rfl⟩
  | succ h ih =>
    obtain ⟨hchild, hnodes⟩ := ih fun k hk => hagree k (by omega)
    simp only [putLeafLoop_succ, putLeafLoop_lastLeftCache_self, hchild, hnodes]
    split_ifs with hbit
    · rw [hagree h (by omega) hbit]
      exact ⟨rfl, rfl⟩
    · exact ⟨rfl, rfl⟩

/-- Under a hash without collisions, two runs of the loop that meet read the same cache. -/
theorem putLeafLoop_inj {hash : H → H → H} (hinj : Injective2 hash) {leaf : Leaf H}
    {cache cache' : ℕ → H} (hmeet : (putLeafLoop hash zero leaf cache h).currentChildHash =
      (putLeafLoop hash zero leaf cache' h).currentChildHash) :
    ∀ k < h, leaf.index.toNat.testBit k = true → cache k = cache' k := by
  induction h with
  | zero => intro k hk; omega
  | succ h ih =>
    intro k hk hkbit
    simp only [putLeafLoop_succ, putLeafLoop_lastLeftCache_self] at hmeet
    obtain ⟨hleft, hright⟩ := hinj hmeet
    rcases Nat.lt_succ_iff_lt_or_eq.mp hk with hlt | rfl
    · refine ih ?_ k hlt hkbit
      split_ifs at hleft hright
      exacts [hright, hleft]
    · simpa only [hkbit, if_true] using hleft

end loop

/-- The inner node at height `h + 1` on the path of leaf `n` in the tree over `f`. -/
def pathNode (f : ℕ → H) (n h : ℕ) : TreeNode H :=
  newTreeNode hash (node hash f h (2 * (n / 2^(h + 1)))) (node hash f h (2 * (n / 2^(h + 1)) + 1))

variable {l : List H}

/-- From the frontier of `l`, the loop climbs the path of the leaf appended to `l`. -/
theorem putLeafLoop_spec {d : ℕ} {cache : ℕ → H} {leaf : Leaf H} (hc : Frontier hash zero d l cache)
    (hindex : leaf.index.toNat = l.length) {h : ℕ} (hh : h ≤ d) :
    (putLeafLoop hash zero leaf cache h).currentChildHash = appendPath hash zero l leaf.hash h ∧
      (putLeafLoop hash zero leaf cache h).newNodes =
        (List.range h).map (pathNode hash (padded zero (l ++ [leaf.hash])) l.length) := by
  induction h with
  | zero => simp [putLeafLoop]
  | succ h ih =>
    obtain ⟨hchild, hnodes⟩ := ih (by omega)
    have hsucc := appendPath_succ hash leaf.hash hc (show h < d by omega)
    have hleft := appendPath_left hash leaf.hash hc (show h < d by omega)
    have hright := appendPath_right hash leaf.hash zero l h
    rw [range_succ, map_append, map_singleton]
    rw [putLeafLoop_succ, hindex]
    by_cases hbit : l.length.testBit h = true
    · simp [hbit, hchild, hnodes, hsucc, pathNode, hleft, hright]
    · simp [hbit, hchild, hnodes, hsucc, pathNode, hleft, hright]

/-! ## The node table -/

/-- Every row of the node table is hashed from its children. -/
def Store.Hashed (s : Store H) : Prop := ∀ n ∈ s.rht, n.hash = hash n.left n.right

/-- The inner nodes on the path of leaf `n` in the tree over `f` are in the node table. -/
def Store.HasPath (s : Store H) (f : ℕ → H) (n : ℕ) : Prop :=
  ∀ h < DefaultHeight, pathNode hash f n h ∈ s.rht

section rht

variable [DecidableEq H] {s : Store H} {hash : H → H → H}

/-- A node that is in the table is the one its hash finds. -/
theorem Store.getRHTNode_of_mem (hinj : Injective2 hash) (hs : s.Hashed hash) {left right : H}
    (hmem : newTreeNode hash left right ∈ s.rht) :
    s.getRHTNode (hash left right) = some (newTreeNode hash left right) := by
  unfold Store.getRHTNode
  cases hfind : s.rht.find? (fun n => n.hash = hash left right) with
  | none =>
    have hnone := find?_eq_none.mp hfind _ hmem
    simp [newTreeNode] at hnone
  | some n =>
    have hhash : n.hash = hash left right := by simpa using find?_some hfind
    obtain ⟨hleft, hright⟩ := hinj ((hs n (mem_of_find?_eq_some hfind)).symm.trans hhash)
    cases n
    simp_all [newTreeNode]

theorem Store.storeNodes_cons (s : Store H) (n : TreeNode H) (ns : List (TreeNode H)) :
    s.storeNodes (n :: ns) =
      { s with rht := (Table.insert TreeNode.hash s.rht n).getD s.rht }.storeNodes ns := rfl

/-- Storing nodes keeps the rows that are there. -/
theorem Store.rht_subset_storeNodes (s : Store H) (ns : List (TreeNode H)) :
    s.rht ⊆ (s.storeNodes ns).rht := by
  induction ns generalizing s with
  | nil => exact fun _ h => h
  | cons n ns ih =>
    rw [storeNodes_cons]
    exact fun m hm => ih _ (Table.mem_getD_insert.mpr (.inl hm))

/-- Storing hashed nodes keeps every row of the node table hashed. -/
theorem Store.Hashed.storeNodes (hs : s.Hashed hash) {ns : List (TreeNode H)}
    (hns : ∀ n ∈ ns, n.hash = hash n.left n.right) : (s.storeNodes ns).Hashed hash := by
  induction ns generalizing s with
  | nil => exact hs
  | cons n ns ih =>
    rw [Store.storeNodes_cons]
    refine ih (fun m hm => ?_) fun m hm => hns m (mem_cons_of_mem _ hm)
    rcases Table.mem_getD_insert.mp hm with hm | ⟨rfl, -⟩
    · exact hs m hm
    · exact hns m mem_cons_self

/-- A stored node is in the table afterwards: a row with its hash that was there before has the
same children. -/
theorem Store.mem_storeNodes (hinj : Injective2 hash) (hs : s.Hashed hash) {ns : List (TreeNode H)}
    (hns : ∀ n ∈ ns, n.hash = hash n.left n.right) : ns ⊆ (s.storeNodes ns).rht := by
  induction ns generalizing s with
  | nil => simp
  | cons n ns ih =>
    have hn : n.hash = hash n.left n.right := hns n mem_cons_self
    have hrest : ∀ m ∈ ns, m.hash = hash m.left m.right :=
      fun m hm => hns m (mem_cons_of_mem _ hm)
    have hone : (s.storeNodes [n]).Hashed hash := hs.storeNodes (by simpa using hn)
    have hmem : n ∈ (s.storeNodes [n]).rht := by
      by_cases hfresh : ∀ m ∈ s.rht, m.hash ≠ n.hash
      · exact Table.mem_getD_insert.mpr (.inr ⟨rfl, hfresh⟩)
      · push Not at hfresh
        obtain ⟨m, hm, hkey⟩ := hfresh
        obtain ⟨hleft, hright⟩ := hinj ((hs m hm).symm.trans (hkey.trans hn))
        obtain rfl : m = n := by cases m; cases n; simp_all
        exact Table.mem_getD_insert.mpr (.inl hm)
    rw [Store.storeNodes_cons]
    refine cons_subset.mpr ⟨Store.rht_subset_storeNodes _ _ hmem, ih hone hrest⟩

end rht

/-! ## Rows, stores and objects

`RootOf s r l`: the row `r` is the root of the leaves `l`, and the path to its last leaf can be
read from the node table. -/

/-- The row `r` is the root of the leaves `l`. -/
structure RootOf (s : Store H) (r : Root H) (l : List H) : Prop where
  /-- The row was written for the last leaf of `l`. -/
  length_eq : l.length = r.index.toNat + 1
  /-- The hash is the root of the tree over `l`. -/
  hash_eq : r.hash = root hash zero DefaultHeight l
  /-- The path of the last leaf is stored. -/
  path : s.HasPath hash (padded zero l) r.index.toNat

/-- The node table is hashed and every root row is the root of some leaves. -/
structure Store.WF (s : Store H) : Prop where
  hashed : s.Hashed hash
  rootOf : ∀ r ∈ s.root, ∃ l, RootOf hash zero s r l

/-- The object remembers the length of `l` and has its frontier. -/
structure AppendOnlyTree.Holds (t : AppendOnlyTree H) (l : List H) : Prop where
  lastIndex_eq : t.lastIndex + 1 = l.length
  frontier : Frontier hash zero DefaultHeight l t.lastLeftCache

/-- The leaves under the last root of the store, none when there is no root. -/
def Store.LastLeaves (s : Store H) (l : List H) : Prop :=
  match s.getLastRoot with
  | none => l = []
  | some r => RootOf hash zero s r l

theorem Store.WF.empty : (Store.empty : Store H).WF hash zero := by
  constructor
  · intro n hn
    simp [Store.empty] at hn
  · intro r hr
    simp [Store.empty] at hr

variable {s s' : Store H}

/-- A row stays the root of its leaves in a store with more nodes. -/
theorem RootOf.mono {r : Root H} (hr : RootOf hash zero s r l) (hsub : s.rht ⊆ s'.rht) :
    RootOf hash zero s' r l :=
  ⟨hr.length_eq, hr.hash_eq, fun h hh => hsub (hr.path h hh)⟩

/-- Deleting root rows keeps a store well formed. -/
theorem Store.WF.of_subset (hs : s.WF hash zero) (hrht : s'.rht = s.rht)
    (hroot : s'.root ⊆ s.root) : s'.WF hash zero := by
  constructor
  · intro n hn
    exact hs.hashed n (hrht ▸ hn)
  · intro r hr
    obtain ⟨l, hl⟩ := hs.rootOf r (hroot hr)
    exact ⟨l, hl.mono hash zero (by rw [hrht]; exact List.Subset.refl _)⟩

/-- A row is the root of one list of leaves only. -/
theorem RootOf.unique {hash : H → H → H} (hinj : Injective2 hash) {r : Root H} {m : List H}
    (hl : RootOf hash zero s r l) (hm : RootOf hash zero s' r m) : l = m := by
  have hlen : l.length = m.length := hl.length_eq.trans hm.length_eq.symm
  refine eq_of_root_eq hinj (hl.hash_eq.symm.trans hm.hash_eq) hlen ?_
  rw [hl.length_eq]
  exact r.index.toNat_lt

section lastLeaves

variable {s : Store H}

theorem Store.WF.exists_lastLeaves (hs : s.WF hash zero) : ∃ l, s.LastLeaves hash zero l := by
  unfold Store.LastLeaves
  cases hlast : s.getLastRoot with
  | none => exact ⟨[], rfl⟩
  | some r => exact hs.rootOf r (Table.mem_of_lastBy_eq_some hlast)

theorem Store.LastLeaves.unique {hash : H → H → H} (hinj : Injective2 hash)
    {l m : List H} (hl : s.LastLeaves hash zero l) (hm : s.LastLeaves hash zero m) : l = m := by
  unfold Store.LastLeaves at hl hm
  cases hlast : s.getLastRoot with
  | none =>
    rw [hlast] at hl hm
    exact hl.trans hm.symm
  | some r =>
    rw [hlast] at hl hm
    exact hl.unique zero hinj hm

end lastLeaves

/-! ## `initCache` -/

section initCache

variable [DecidableEq H] {hash} (hinj : Injective2 hash) {s : Store H}
include hinj

/-- The descent along a stored path collects the left children on it. -/
theorem initCacheLoop_spec (hs : s.Hashed hash) {f : ℕ → H} {n : ℕ} (hpath : s.HasPath hash f n)
    {h : ℕ} (hh : h ≤ DefaultHeight) (siblings : ℕ → H) :
    initCacheLoop s n h (node hash f h (n / 2^h)) siblings =
      .ok fun k => if k < h then node hash f k (2 * (n / 2^(k + 1))) else siblings k := by
  induction h generalizing siblings with
  | zero => simp [initCacheLoop]
  | succ h ih =>
    have hnode : s.getRHTNode (node hash f (h + 1) (n / 2^(h + 1))) = some (pathNode hash f n h) :=
      Store.getRHTNode_of_mem hinj hs (hpath h (by omega))
    -- The descent turns towards the ancestor of leaf `n`.
    have hnext : (if n.testBit h then (pathNode hash f n h).right else (pathNode hash f n h).left) =
        node hash f h (n / 2^h) := by
      obtain ⟨hleft, hright⟩ := children_of_ancestor hash f n h
      simp only [pathNode, newTreeNode, hleft, hright]
      split_ifs <;> rfl
    unfold initCacheLoop
    rw [hnode]
    simp only [hnext]
    rw [ih (by omega)]
    congr 1
    funext k
    rcases lt_trichotomy k h with hlt | rfl | hgt
    · simp [hlt, show k < h + 1 by omega]
    · simp [pathNode, newTreeNode]
    · simp [show ¬k < h by omega, show ¬k < h + 1 by omega, show k ≠ h by omega]

/-- `initCache` makes the object hold the leaves of the last root. -/
theorem initCache_spec (hs : s.WF hash zero) {l : List H} (hl : s.LastLeaves hash zero l)
    (t : AppendOnlyTree H) :
    ∃ t' : AppendOnlyTree H, initCache zero t s = (none, t') ∧ t'.Holds hash zero l := by
  unfold Store.LastLeaves at hl
  unfold initCache
  cases hlast : s.getLastRoot with
  | none =>
    rw [hlast] at hl
    subst hl
    exact ⟨_, rfl, by simp, Frontier.nil hash zero _ _⟩
  | some r =>
    rw [hlast] at hl
    have hdescent := initCacheLoop_spec hinj hs.hashed hl.path le_rfl (fun _ => zero)
    have hbound : r.index.toNat / 2^DefaultHeight = 0 :=
      Nat.div_eq_of_lt (by simpa [DefaultHeight] using r.index.toNat_lt)
    have htop : node hash (padded zero l) DefaultHeight (r.index.toNat / 2^DefaultHeight) =
        r.hash := by
      rw [hbound, hl.hash_eq, root]
    rw [htop] at hdescent
    simp only [hdescent]
    refine ⟨_, rfl, by simp [hl.length_eq], ?_⟩
    exact Frontier.of_left_children hash hl.length_eq fun h hh => by simp [hh]

/-- A rebuilt object does not depend on the one before. -/
theorem initCache_congr (hs : s.WF hash zero) (t u : AppendOnlyTree H) :
    initCache zero t s = initCache zero u s := by
  obtain ⟨l, hl⟩ := hs.exists_lastLeaves hash zero
  obtain ⟨t', ht', -⟩ := initCache_spec zero hinj hs hl t
  unfold initCache at ht' ⊢
  cases hlast : s.getLastRoot with
  | none => rfl
  | some r =>
    rw [hlast] at ht'
    simp only at ht' ⊢
    split at ht'
    · simp at ht'
    · rfl

end initCache

/-! ## `PutLeaf` -/

section putAccepted

variable {s : Store H} {t : AppendOnlyTree H} {l : List H} {leaf : Leaf H}

/-- The cache that the loop leaves is still the frontier of `l`: the levels it needs are not
written. -/
theorem Frontier.putLeafLoop_keep (hl : Frontier hash zero DefaultHeight l t.lastLeftCache)
    (hindex : leaf.index.toNat = l.length) :
    Frontier hash zero DefaultHeight l
      (putLeafLoop hash zero leaf t.lastLeftCache DefaultHeight).lastLeftCache := by
  intro h hh hbit
  rw [putLeafLoop_lastLeftCache, ← hl h hh hbit]
  rw [← hindex] at hbit
  simp [hbit]

/-- The cache that the loop leaves is the frontier of the extended list. -/
theorem Frontier.putLeafLoop_append (hl : Frontier hash zero DefaultHeight l t.lastLeftCache)
    (hindex : leaf.index.toNat = l.length) :
    Frontier hash zero DefaultHeight (l ++ [leaf.hash])
      (putLeafLoop hash zero leaf t.lastLeftCache DefaultHeight).lastLeftCache := by
  refine hl.append hash fun h hh => ?_
  obtain ⟨hchild, -⟩ := putLeafLoop_spec hash zero hl hindex hh.le
  rw [putLeafLoop_lastLeftCache, hchild, ← hindex]
  by_cases hbit : leaf.index.toNat.testBit h = true
  · simp [hbit]
  · simp [hbit, hh]

/-- The row that a put of `leaf` after the leaves `l` writes. -/
def rowOf (l : List H) (blockNum blockPosition : ℕ) (leaf : Leaf H) : Root H :=
  ⟨root hash zero DefaultHeight (l ++ [leaf.hash]), leaf.index, blockNum, blockPosition⟩

/-- A put on an object that holds `l` fails because the root is there already, and then changes no
table, or returns and stores the root of `l` with the new leaf. -/
theorem putAccepted_spec [DecidableEq H] (hinj : Injective2 hash) (hs : s.WF hash zero)
    (ht : t.Holds hash zero l) (hindex : leaf.index.toNat = l.length) (blockNum blockPosition : ℕ) :
    let o := putAccepted hash zero t s blockNum blockPosition leaf
    let row := rowOf hash zero l blockNum blockPosition leaf
    ((∃ r ∈ s.root, r.hash = row.hash) ∧ o.result = .error .rootExists ∧ o.store = s ∧
        o.tree.Holds hash zero l) ∨
      ((∀ r ∈ s.root, r.hash ≠ row.hash) ∧ o.result = .ok row.hash ∧
        o.store.root = s.root ++ [row] ∧ s.rht ⊆ o.store.rht ∧ o.store.WF hash zero ∧
        RootOf hash zero o.store row (l ++ [leaf.hash]) ∧
        o.tree.Holds hash zero (l ++ [leaf.hash])) := by
  obtain ⟨hchild, hnodes⟩ := putLeafLoop_spec hash zero ht.frontier hindex le_rfl
  have hlen : l.length < 2^DefaultHeight := by
    rw [← hindex]
    exact leaf.index.toNat_lt
  rw [appendPath_depth hash zero l leaf.hash hlen] at hchild
  simp only [putAccepted, hchild]
  generalize hrow : rowOf hash zero l blockNum blockPosition leaf = row
  have hrow' : (⟨root hash zero DefaultHeight (l ++ [leaf.hash]), leaf.index, blockNum,
      blockPosition⟩ : Root H) = row := hrow
  rw [hrow']
  cases hins : Table.insert Root.hash s.root row with
  | none =>
    left
    have hstore : s.storeRoot row = none := by simp [Store.storeRoot, hins]
    simp only [hstore]
    exact ⟨Table.insert_eq_none_iff.mp hins, trivial, trivial, ht.lastIndex_eq,
      Frontier.putLeafLoop_keep hash zero ht.frontier hindex⟩
  | some rows =>
    right
    obtain ⟨hfresh, rfl⟩ := Table.insert_eq_some_iff.mp hins
    have hstore : s.storeRoot row = some { s with root := s.root ++ [row] } := by
      simp [Store.storeRoot, hins]
    simp only [hstore]
    generalize hs' : ({ s with root := s.root ++ [row] } : Store H).storeNodes
      (putLeafLoop hash zero leaf t.lastLeftCache DefaultHeight).newNodes = s'
    have hnewHashed := putLeafLoop_newNodes_hash hash zero leaf t.lastLeftCache DefaultHeight
    have hhashed : ({ s with root := s.root ++ [row] } : Store H).Hashed hash := hs.hashed
    have hsub : s.rht ⊆ s'.rht := hs' ▸ Store.rht_subset_storeNodes _ _
    have hroots : s'.root = s.root ++ [row] := by rw [← hs']; rfl
    have hrootOf : RootOf hash zero s' row (l ++ [leaf.hash]) := by
      subst hrow
      refine ⟨by simp [rowOf, hindex], rfl, fun h hh => ?_⟩
      have hmem := Store.mem_storeNodes hinj hhashed hnewHashed
      rw [hs', hnodes] at hmem
      refine hmem (mem_map.mpr ⟨h, mem_range.mpr hh, ?_⟩)
      simp [rowOf, hindex]
    refine ⟨hfresh, ?_, hroots, hsub, ⟨?_, ?_⟩, hrootOf, ?_, ?_⟩
    · rw [← hrow]
      rfl
    · exact hs' ▸ hhashed.storeNodes hnewHashed
    · intro r hr
      rw [hroots, mem_append, mem_singleton] at hr
      rcases hr with hr | rfl
      · obtain ⟨m, hm⟩ := hs.rootOf r hr
        exact ⟨m, hm.mono hash zero hsub⟩
      · exact ⟨_, hrootOf⟩
    · simp [ht.lastIndex_eq]
    · exact Frontier.putLeafLoop_append hash zero ht.frontier hindex

end putAccepted

section putLeaf

variable [DecidableEq H] {s : Store H} {t : AppendOnlyTree H} {leaf : Leaf H}
  (blockNum blockPosition : ℕ)

/-- A leaf that follows the remembered index is put without looking at the store. -/
theorem putLeaf_of_next (hnext : (leaf.index.toNat : ℤ) = t.lastIndex + 1) :
    putLeaf hash zero t s blockNum blockPosition leaf =
      putAccepted hash zero t s blockNum blockPosition leaf := by
  simp [putLeaf, hnext]

/-- Any other leaf is compared with the last root of the store. -/
theorem putLeaf_of_not_next (hinj : Injective2 hash) (hs : s.WF hash zero) {l : List H}
    (hl : s.LastLeaves hash zero l) (hnext : (leaf.index.toNat : ℤ) ≠ t.lastIndex + 1) :
    ∃ t' : AppendOnlyTree H, initCache zero t s = (none, t') ∧ t'.Holds hash zero l ∧
      putLeaf hash zero t s blockNum blockPosition leaf =
        if leaf.index.toNat = l.length
        then putAccepted hash zero t' s blockNum blockPosition leaf
        else ⟨.error .invalidIndex, t', s⟩ := by
  obtain ⟨t', hinit, ht'⟩ := initCache_spec zero hinj hs hl t
  refine ⟨t', hinit, ht', ?_⟩
  have hiff : (leaf.index.toNat : ℤ) = t'.lastIndex + 1 ↔ leaf.index.toNat = l.length := by
    rw [ht'.lastIndex_eq]
    exact Nat.cast_inj
  unfold putLeaf
  simp only [hnext, ne_eq, not_false_eq_true, if_true, hinit, hiff]
  split_ifs <;> rfl

end putLeaf


end AggKit.Tree
