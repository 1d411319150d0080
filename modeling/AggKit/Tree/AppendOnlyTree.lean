import AggKit.Lib.Merkle
import AggKit.Lib.Table

/-!
# The append-only tree of `tree/appendonlytree.go`

The tree is split between a database and an object in memory. The database (`Store`) has the table
`root`, one row for each leaf that was put, with the hash of the root as primary key, and the table
`rht` of inner nodes, keyed by their hash. The object (`AppendOnlyTree`) remembers the index of the
last leaf and, for each height, the last left child on the path of a leaf.

`putLeaf` is the only function that writes the object. It first compares the index of the leaf with
the remembered one and rebuilds the object from the database when they do not fit (`initCache`);
`reorg` and `backwardToIndex` delete root rows and leave the object alone. Inner nodes are never
deleted.

The hash is a parameter, as is the zero hash, so that the statements about the tree can say what
they need of it.
-/

namespace AggKit.Tree

/-- `types.DefaultHeight`. -/
def DefaultHeight : ℕ := 32

/-- A row of the table `rht`. -/
structure TreeNode (H : Type) where
  hash : H
  left : H
  right : H
deriving DecidableEq

/-- `types.Leaf`. -/
structure Leaf (H : Type) where
  index : UInt32
  hash : H
deriving DecidableEq

/-- `types.Root`, a row of the table `root`; the column of `index` is called `position`. -/
structure Root (H : Type) where
  hash : H
  index : UInt32
  blockNum : ℕ
  blockPosition : ℕ
deriving DecidableEq

/-- The two tables of a tree, rows in insertion order. -/
structure Store (H : Type) where
  root : List (Root H)
  rht : List (TreeNode H)
deriving DecidableEq

/-- The tables of a new database. -/
def Store.empty {H : Type} : Store H := ⟨[], []⟩

/-- The object in memory: `lastIndex` is `-1` for a tree without leaves and `-2` before the first
`initCache`; `lastLeftCache` is read at heights below `DefaultHeight` only. -/
structure AppendOnlyTree (H : Type) where
  lastLeftCache : ℕ → H
  lastIndex : ℤ

/-- The errors of the tree. -/
inductive TreeError (H : Type) where
  /-- `ErrInvalidIndex` -/
  | invalidIndex
  /-- The wrapped `db.ErrNotFound` of `initCache`: an inner node is missing from `rht`. -/
  | nodeNotFound (node : H) (height : ℕ) (root : H)
  /-- `UNIQUE constraint failed: root.hash`, the primary key of the table `root`. -/
  | rootExists
deriving DecidableEq

/-- The order of `ORDER BY block_num, block_position`. -/
def Root.notAfter {H : Type} (a b : Root H) : Bool :=
  a.blockNum < b.blockNum || (a.blockNum == b.blockNum && a.blockPosition ≤ b.blockPosition)

@[simp]
theorem Root.notAfter_iff {H : Type} (a b : Root H) : a.notAfter b = true ↔
    a.blockNum < b.blockNum ∨ (a.blockNum = b.blockNum ∧ a.blockPosition ≤ b.blockPosition) := by
  unfold Root.notAfter
  simp

section queries

variable {H : Type} [DecidableEq H]

/-- `getRHTNode`: the inner node of the given hash. -/
def Store.getRHTNode (s : Store H) (nodeHash : H) : Option (TreeNode H) :=
  s.rht.find? fun n => n.hash = nodeHash

/-- `GetLastRoot`; `none` is `db.ErrNotFound`. Rows of one block and position are told apart by
the index `idx_root_block_num_position`, which lists them in insertion order. -/
def Store.getLastRoot (s : Store H) : Option (Root H) := Table.lastBy Root.notAfter s.root

/-- `GetRootByIndex`; `none` is `db.ErrNotFound`. -/
def Store.getRootByIndex (s : Store H) (index : UInt32) : Option (Root H) :=
  s.root.find? fun r => r.index = index

/-- `GetRootByHash`; `none` is `db.ErrNotFound`. -/
def Store.getRootByHash (s : Store H) (hash : H) : Option (Root H) :=
  s.root.find? fun r => r.hash = hash

/-- `storeRoot`; `none` when the primary key is taken. -/
def Store.storeRoot (s : Store H) (r : Root H) : Option (Store H) :=
  (Table.insert Root.hash s.root r).map fun rows => { s with root := rows }

/-- `storeNodes`: insert every node, ignoring those whose hash is there already. -/
def Store.storeNodes (s : Store H) (nodes : List (TreeNode H)) : Store H :=
  { s with rht := nodes.foldl (fun t n => (Table.insert TreeNode.hash t n).getD t) s.rht }

/-- `Tree.Reorg`: delete the roots of the blocks from `firstReorgedBlock` on. -/
def Store.reorg (s : Store H) (firstReorgedBlock : ℕ) : Store H :=
  { s with root := Table.deleteWhere (fun r => decide (firstReorgedBlock ≤ r.blockNum)) s.root }

/-- `Tree.BackwardToIndex`: delete the roots above `targetIndex`. -/
def Store.backwardToIndex (s : Store H) (targetIndex : UInt32) : Store H :=
  { s with root := Table.deleteWhere (fun r => decide (targetIndex < r.index)) s.root }

end queries

section putLeaf

variable {H : Type} [DecidableEq H] (hash : H → H → H) (zero : H)

/-- `newTreeNode`. -/
def newTreeNode (left right : H) : TreeNode H := ⟨hash left right, left, right⟩

/-- `NewAppendOnlyTree`. -/
def newAppendOnlyTree : AppendOnlyTree H := ⟨fun _ => zero, -2⟩

/-- The descent of `initCache` through the heights below `h`, from the node `cur`. The error
carries the height and the missing node. -/
def initCacheLoop (s : Store H) (index : ℕ) :
    ℕ → H → (ℕ → H) → Except (H × ℕ) (ℕ → H)
  | 0, _, siblings => .ok siblings
  | h + 1, cur, siblings =>
    match s.getRHTNode cur with
    | none => .error (cur, h)
    | some n =>
      initCacheLoop s index h (if index.testBit h then n.right else n.left)
        (Function.update siblings h n.left)

/-- `initCache`. The index is set before the descent and stays set when the descent fails. The
loop that is to reverse the siblings runs while `i == j` from `i = 0`, `j = 31`, so it never
runs and is not part of the model. -/
def initCache (t : AppendOnlyTree H) (s : Store H) : Option (TreeError H) × AppendOnlyTree H :=
  match s.getLastRoot with
  | none => (none, ⟨fun _ => zero, -1⟩)
  | some lastRoot =>
    match initCacheLoop s lastRoot.index.toNat DefaultHeight lastRoot.hash (fun _ => zero) with
    | .error (cur, h) =>
      (some (.nodeNotFound cur h lastRoot.hash), { t with lastIndex := lastRoot.index.toNat })
    | .ok siblings => (none, ⟨siblings, lastRoot.index.toNat⟩)

/-- What the loop of `PutLeaf` has computed after some iterations. -/
structure Climb (H : Type) where
  currentChildHash : H
  lastLeftCache : ℕ → H
  newNodes : List (TreeNode H)

/-- The loop of `PutLeaf` after its first `h` iterations. -/
def putLeafLoop (leaf : Leaf H) (cache : ℕ → H) : ℕ → Climb H
  | 0 => ⟨leaf.hash, cache, []⟩
  | h + 1 =>
    let c := putLeafLoop leaf cache h
    if leaf.index.toNat.testBit h then
      -- add child to the right
      let parent := newTreeNode hash (c.lastLeftCache h) c.currentChildHash
      ⟨parent.hash, c.lastLeftCache, c.newNodes ++ [parent]⟩
    else
      -- add child to the left, update cache
      let parent := newTreeNode hash c.currentChildHash (Merkle.zeroHash hash zero h)
      ⟨parent.hash, Function.update c.lastLeftCache h c.currentChildHash, c.newNodes ++ [parent]⟩

/-- What a call of `PutLeaf` returns and leaves behind. -/
structure PutOutcome (H : Type) where
  result : Except (TreeError H) H
  tree : AppendOnlyTree H
  store : Store H

/-- `PutLeaf` once the index is accepted. The cache is overwritten by the loop before the root is
stored, and is left so when storing the root fails. -/
def putAccepted (t : AppendOnlyTree H) (s : Store H) (blockNum blockPosition : ℕ) (leaf : Leaf H) :
    PutOutcome H :=
  let c := putLeafLoop hash zero leaf t.lastLeftCache DefaultHeight
  match s.storeRoot ⟨c.currentChildHash, leaf.index, blockNum, blockPosition⟩ with
  | none => ⟨.error .rootExists, { t with lastLeftCache := c.lastLeftCache }, s⟩
  | some s' =>
    ⟨.ok c.currentChildHash, ⟨c.lastLeftCache, t.lastIndex + 1⟩, s'.storeNodes c.newNodes⟩

/-- `PutLeaf`. -/
def putLeaf (t : AppendOnlyTree H) (s : Store H) (blockNum blockPosition : ℕ) (leaf : Leaf H) :
    PutOutcome H :=
  if (leaf.index.toNat : ℤ) ≠ t.lastIndex + 1 then
    match initCache zero t s with
    | (some e, t') => ⟨.error e, t', s⟩
    | (none, t') =>
      if (leaf.index.toNat : ℤ) ≠ t'.lastIndex + 1 then ⟨.error .invalidIndex, t', s⟩
      else putAccepted hash zero t' s blockNum blockPosition leaf
  else putAccepted hash zero t s blockNum blockPosition leaf

end putLeaf

end AggKit.Tree
