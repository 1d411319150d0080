import AggKit.Tree.AppendOnlyTree

/-!
# Proofs of `tree/tree.go`

A proof has the sibling of every node on the way from a leaf to the root, `DefaultHeight` of them.
It is read from the node table by a descent from the root. A node that is not in the table is taken
for one over zero leaves only: `getSiblings` fills in the zero hash of the height and stays at the
missing node, so that it fills in zero hashes all the way down. `GetLeaf` makes the same descent and
gives up at a missing node.
-/

namespace AggKit.Tree

variable {H : Type} (hash : H → H → H)

/-- `CalculateRoot`. -/
def calculateRoot (leafHash : H) (proof : Vector H 32) (index : UInt32) : H :=
  (List.finRange 32).foldl (fun node (height : Fin 32) =>
    if index.toNat.testBit height.val then hash (proof.get height) node
    else hash node (proof.get height)) leafHash

/-- `VerifyProof` returns no error. -/
def verifyProof [DecidableEq H] (leaf : H) (proof : Vector H 32) (index : UInt32)
    (expectedRoot : H) : Bool :=
  calculateRoot hash leaf proof index = expectedRoot

/-- A proof is accepted for the root it leads to. -/
theorem verifyProof_calculateRoot [DecidableEq H] (leaf : H) (proof : Vector H 32)
    (index : UInt32) :
    verifyProof hash leaf proof index (calculateRoot hash leaf proof index) = true :=
  decide_eq_true rfl

section descent

variable [DecidableEq H] (zero : H)

/-- The loop of `getSiblings` over the heights below `h`, from the node `currentNodeHash`. The flag
is `hasUsedZeroHashes`. -/
def getSiblingsLoop (s : Store H) (index : UInt32) :
    ℕ → H → (ℕ → H) → Bool → (ℕ → H) × Bool
  | 0, _, siblings, hasUsedZeroHashes => (siblings, hasUsedZeroHashes)
  | h + 1, currentNodeHash, siblings, hasUsedZeroHashes =>
    match s.getRHTNode currentNodeHash with
    | none =>
      getSiblingsLoop s index h currentNodeHash
        (Function.update siblings h (Merkle.zeroHash hash zero h)) true
    | some currentNode =>
      if index.toNat.testBit h then
        getSiblingsLoop s index h currentNode.right
          (Function.update siblings h currentNode.left) hasUsedZeroHashes
      else
        getSiblingsLoop s index h currentNode.left
          (Function.update siblings h currentNode.right) hasUsedZeroHashes

/-- `getSiblings`. A missing node is no error, and the tables give no other one. -/
def getSiblings (s : Store H) (index : UInt32) (root : H) : Vector H 32 × Bool :=
  let (siblings, hasUsedZeroHashes) :=
    getSiblingsLoop hash zero s index DefaultHeight root (fun _ => zero) false
  (Vector.ofFn fun h => siblings h.val, hasUsedZeroHashes)

/-- `GetProof`. That zero hashes were used is written to the log only. -/
def getProof (s : Store H) (index : UInt32) (root : H) : Vector H 32 :=
  (getSiblings hash zero s index root).1

/-- The loop of `GetLeaf` over the heights below `h`. -/
def getLeafLoop (s : Store H) (index : UInt32) : ℕ → H → Option H
  | 0, currentNodeHash => some currentNodeHash
  | h + 1, currentNodeHash =>
    match s.getRHTNode currentNodeHash with
    | none => none
    | some currentNode =>
      getLeafLoop s index h
        (if index.toNat.testBit h then currentNode.right else currentNode.left)

/-- `GetLeaf`; `none` is `db.ErrNotFound`. -/
def getLeaf (s : Store H) (index : UInt32) (root : H) : Option H :=
  getLeafLoop s index DefaultHeight root

end descent

end AggKit.Tree
