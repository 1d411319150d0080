import AggKit.Lib.Exec
import AggKit.Tree.Visible

/-!
# Committed runs of the tree

The calls on a tree are `PutLeaf`, `Reorg` and `BackwardToIndex`, in any order and grouped in any
way into transactions that commit. Two kinds of runs are looked at.

In an in-order run each leaf is put at the number of visible leaves and after them in block order.
The run carries the list of visible leaves along, and the root table is the table of that list in
every state reached.

In a safe run any index may be put, and what is asked of a step is stated on the state of the
program before it. The object in memory is not told about deletions, so a leaf at the index it
remembers is accepted without a look at the root table. That is the first condition of `Safe`; the
run in `stale_index_accepted` breaks it.
-/

namespace AggKit.Tree

open Merkle Run List

/-- The calls on a tree. -/
inductive Op (H : Type) where
  | putLeaf (blockNum blockPosition : ℕ) (leaf : Leaf H)
  | reorg (firstReorgedBlock : ℕ)
  | backwardToIndex (targetIndex : UInt32)

variable {H : Type} [DecidableEq H] (hash : H → H → H) (zero : H)

/-- The state before any call. -/
def State.new : State H := ⟨newAppendOnlyTree zero, Store.empty⟩

/-- The state after a call. -/
def State.apply (σ : State H) : Op H → State H
  | .putLeaf blockNum blockPosition leaf =>
    let o := putLeaf hash zero σ.tree σ.store blockNum blockPosition leaf
    ⟨o.tree, o.store⟩
  | .reorg firstReorgedBlock => ⟨σ.tree, σ.store.reorg firstReorgedBlock⟩
  | .backwardToIndex targetIndex => ⟨σ.tree, σ.store.backwardToIndex targetIndex⟩

/-- The first leaf becomes visible. -/
theorem Synced.putLeaf_first {hash : H → H → H} {zero : H} {σ : State H} (hσ : Synced hash zero σ [])
    (hinj : Function.Injective2 hash) (blockNum blockPosition : ℕ) (leaf : Leaf H)
    (hindex : leaf.index.toNat = 0) :
    (σ.apply hash zero (.putLeaf blockNum blockPosition leaf)).tree.Holds hash zero [leaf.hash] ∧
      Synced hash zero (σ.apply hash zero (.putLeaf blockNum blockPosition leaf))
        [⟨leaf.hash, blockNum, blockPosition⟩] := by
  have hafter : ∀ e ∈ ([] : List (Visible H)), e.before blockNum blockPosition := by simp
  rcases hσ.putLeaf zero hinj hindex hafter with ⟨⟨-, hne⟩, -⟩ | ⟨-, -, hput⟩
  · exact absurd rfl hne
  · exact hput

/-! ## In-order runs -/

/-- A state together with the leaves that are visible in it. -/
structure Tracked (H : Type) where
  state : State H
  visible : List (Visible H)

/-- Nothing is visible in a new tree. -/
def Tracked.new : Tracked H := ⟨State.new zero, []⟩

/-- A leaf that `PutLeaf` returns a root for becomes visible, the other calls delete. -/
def Tracked.apply (τ : Tracked H) (op : Op H) : Tracked H :=
  ⟨τ.state.apply hash zero op, match op with
    | .putLeaf blockNum blockPosition leaf =>
      match (putLeaf hash zero τ.state.tree τ.state.store blockNum blockPosition leaf).result with
      | .ok _ => τ.visible ++ [⟨leaf.hash, blockNum, blockPosition⟩]
      | .error _ => τ.visible
    | .reorg firstReorgedBlock => reorgVisible τ.visible firstReorgedBlock
    | .backwardToIndex targetIndex => backwardVisible τ.visible targetIndex⟩

/-- The leaf is put at the number of visible leaves and after all of them. -/
def InOrder (τ : Tracked H) : Op H → Prop
  | .putLeaf blockNum blockPosition leaf =>
    leaf.index.toNat = τ.visible.length ∧ ∀ e ∈ τ.visible, e.before blockNum blockPosition
  | _ => True

/-- Every call of an in-order run keeps state and visible leaves in step. -/
theorem Synced.apply {hash : H → H → H} (hinj : Function.Injective2 hash) {τ : Tracked H}
    (hτ : Synced hash zero τ.state τ.visible) {op : Op H} (hop : InOrder τ op) :
    Synced hash zero (τ.apply hash zero op).state (τ.apply hash zero op).visible := by
  cases op with
  | putLeaf blockNum blockPosition leaf =>
    obtain ⟨hindex, hafter⟩ := hop
    rcases hτ.putLeaf zero hinj hindex hafter with
      ⟨-, hresult, -, -, hsynced⟩ | ⟨-, hresult, -, hsynced⟩
    · simpa [Tracked.apply, State.apply, hresult] using hsynced
    · simpa [Tracked.apply, State.apply, hresult] using hsynced
  | reorg firstReorgedBlock => exact hτ.reorg hash zero firstReorgedBlock
  | backwardToIndex targetIndex => exact hτ.backwardToIndex hash zero targetIndex

/-- In every state of an in-order run the root table is the one of the visible leaves. -/
theorem synced_of_inOrder {hash : H → H → H} (hinj : Function.Injective2 hash) {τ : Tracked H}
    (hrun : Reach (Tracked.apply hash zero) InOrder (Tracked.new zero) τ) :
    Synced hash zero τ.state τ.visible :=
  hrun.invariant (P := fun τ => Synced hash zero τ.state τ.visible) (Synced.new hash zero)
    fun _ _ hτ hop => hτ.apply zero hinj hop

/-- In every in-order run, `PutLeaf` returns and stores the root of the full tree over the visible
leaves and the new one, the root table has the root of every initial segment of the visible leaves,
and `GetLastRoot` returns the row of the highest visible index. The one leaf that is refused is a
zero leaf after other leaves: its root is that of the leaves before it, which is in the table. -/
theorem inOrder_run_roots {hash : H → H → H} (hinj : Function.Injective2 hash) {τ : Tracked H}
    (hrun : Reach (Tracked.apply hash zero) InOrder (Tracked.new zero) τ) :
    (∀ blockNum blockPosition leaf, InOrder τ (.putLeaf blockNum blockPosition leaf) →
      let o := putLeaf hash zero τ.state.tree τ.state.store blockNum blockPosition leaf
      (∀ r, o.result = .ok r →
        r = root hash zero DefaultHeight (leaves τ.visible ++ [leaf.hash]) ∧
          o.store.root = τ.state.store.root ++ [⟨r, leaf.index, blockNum, blockPosition⟩]) ∧
      ((∃ r, o.result = .ok r) ∨ (leaf.hash = zero ∧ τ.visible ≠ []))) ∧
    τ.state.store.root = rowsOf hash zero τ.visible ∧
    τ.state.store.getLastRoot = (rowsOf hash zero τ.visible).getLast? := by
  have hτ := synced_of_inOrder zero hinj hrun
  refine ⟨fun blockNum blockPosition leaf hop => ?_, hτ.rows, ?_⟩
  · obtain ⟨hindex, hafter⟩ := hop
    rcases hτ.putLeaf zero hinj hindex hafter with
      ⟨hzero, hresult, -, -, -⟩ | ⟨-, hresult, -, hsynced⟩
    · refine ⟨fun r hr => ?_, .inr hzero⟩
      rw [hresult] at hr
      cases hr
    · refine ⟨fun r hr => ?_, .inl ⟨_, hresult⟩⟩
      rw [hresult] at hr
      cases hr
      have hrows := hsynced.rows
      rw [rowsOf_concat, ← hτ.rows] at hrows
      refine ⟨by rw [leaves_concat], hrows.trans ?_⟩
      simp [← hindex]
  · rcases eq_nil_or_concat τ.visible with hnil | ⟨v, e, hv⟩
    · unfold Store.getLastRoot
      rw [hτ.rows, hnil]
      rfl
    · rw [hv, concat_eq_append] at hτ ⊢
      rw [hτ.getLastRoot_concat, rowsOf_concat, getLast?_concat]

/-- One leaf is put, a later block is reorged, and the second leaf is put on the first. -/
theorem inOrder_run_roots_two_leaves :
    let τ := ((Tracked.new (.leaf 0)).apply Term.node (.leaf 0)
      (.putLeaf 1 0 ⟨0, .leaf 7⟩)).apply Term.node (.leaf 0) (.reorg 5)
    let o := putLeaf Term.node (.leaf 0) τ.state.tree τ.state.store 2 0 ⟨1, .leaf 8⟩
    (∃ r, o.result = .ok r) ∧
      ∀ r, o.result = .ok r →
        r = root Term.node (.leaf 0) DefaultHeight [.leaf 7, .leaf 8] := by
  intro τ o
  have hfirst : InOrder (Tracked.new (.leaf 0)) (.putLeaf 1 0 ⟨0, Term.leaf 7⟩) :=
    ⟨rfl, fun _ he => absurd he not_mem_nil⟩
  have hrun : Reach (Tracked.apply Term.node (.leaf 0)) InOrder (Tracked.new (.leaf 0)) τ :=
    .step (.step .init hfirst) trivial
  have hvisible : τ.visible = [⟨.leaf 7, 1, 0⟩] := rfl
  -- The rest is about any run that ends with the one visible leaf.
  clear_value τ
  have hop : InOrder τ (.putLeaf 2 0 ⟨1, .leaf 8⟩) := by
    unfold InOrder
    rw [hvisible]
    exact ⟨rfl, by simp [Visible.before]⟩
  obtain ⟨hroot, haccepted⟩ :=
    (inOrder_run_roots (Term.leaf 0) Term.injective2_node hrun).1 2 0 ⟨1, .leaf 8⟩ hop
  have hleaves : leaves τ.visible ++ [.leaf 8] = [.leaf 7, .leaf 8] := by rw [hvisible]; rfl
  rw [hleaves] at hroot
  exact ⟨haccepted.resolve_right (by simp), fun r hr => (hroot r hr).1⟩

/-! ## Safe runs -/

/-- What a call asks of the state it is made in. A leaf at the index the object remembers is one at
the number of visible leaves; a leaf at that number is put after all visible leaves in block order,
and is not zero unless it is the first. -/
def Safe (σ : State H) : Op H → Prop
  | .putLeaf blockNum blockPosition leaf =>
    ((leaf.index.toNat : ℤ) = σ.tree.lastIndex + 1 → leaf.index.toNat = σ.store.root.length) ∧
      (leaf.index.toNat = σ.store.root.length →
        (∀ r ∈ σ.store.root, r.blockNum < blockNum ∨
          (r.blockNum = blockNum ∧ r.blockPosition < blockPosition)) ∧
        (leaf.hash = zero → σ.store.root = []))
  | _ => True

section safe

variable {hash} (hinj : Function.Injective2 hash) {σ : State H} {v : List (Visible H)}
include hinj

/-- A safe put: accepted at the number of visible leaves, refused elsewhere without a trace in the
tables. -/
theorem Synced.putLeaf_safe (hσ : Synced hash zero σ v) {blockNum blockPosition : ℕ}
    {leaf : Leaf H} (hsafe : Safe zero σ (.putLeaf blockNum blockPosition leaf)) :
    let o := Tree.putLeaf hash zero σ.tree σ.store blockNum blockPosition leaf
    (leaf.index.toNat = v.length ∧
        o.result = .ok (root hash zero DefaultHeight (leaves v ++ [leaf.hash])) ∧
        Synced hash zero ⟨o.tree, o.store⟩ (v ++ [⟨leaf.hash, blockNum, blockPosition⟩])) ∨
      (leaf.index.toNat ≠ v.length ∧ o.result = .error .invalidIndex ∧ o.store = σ.store ∧
        Synced hash zero ⟨o.tree, o.store⟩ v) := by
  obtain ⟨hstale, hput⟩ := hsafe
  have hlen : σ.store.root.length = v.length := by rw [hσ.rows, length_rowsOf]
  rw [hlen] at hstale hput
  by_cases hindex : leaf.index.toNat = v.length
  · left
    obtain ⟨hafter, hzero⟩ := hput hindex
    have hafter' : ∀ e ∈ v, e.before blockNum blockPosition := by
      intro e he
      obtain ⟨i, hi, rfl⟩ := getElem_of_mem he
      have hi' : i < (rowsOf hash zero v).length := by simpa using hi
      have hmem : (rowsOf hash zero v)[i] ∈ σ.store.root := by
        rw [hσ.rows]
        exact getElem_mem hi'
      simpa [rowsOf, Visible.before] using hafter _ hmem
    rcases hσ.putLeaf zero hinj hindex hafter' with
      ⟨⟨hz, hne⟩, -⟩ | ⟨-, hresult, -, hsynced⟩
    · -- The primary key refuses a zero leaf after others, which a safe call does not put.
      have hnil : v = [] := by
        rw [← length_eq_zero_iff, ← hlen, hzero hz]
        rfl
      exact absurd hnil hne
    · exact ⟨hindex, by rw [← leaves_concat v ⟨leaf.hash, blockNum, blockPosition⟩]; exact hresult,
        hsynced⟩
  · right
    exact ⟨hindex, hσ.putLeaf_reject zero hinj hindex fun h => hindex (hstale h)⟩

/-- Every state of a safe run has a list of visible leaves. -/
theorem exists_synced_of_safe
    (hrun : Reach (State.apply hash zero) (Safe zero) (State.new zero) σ) :
    ∃ v, Synced hash zero σ v := by
  refine hrun.invariant (P := fun σ => ∃ v, Synced hash zero σ v) ⟨[], Synced.new hash zero⟩ ?_
  rintro σ op ⟨v, hσ⟩ hsafe
  cases op with
  | putLeaf blockNum blockPosition leaf =>
    rcases hσ.putLeaf_safe zero hinj hsafe with ⟨-, -, hsynced⟩ | ⟨-, -, -, hsynced⟩
    · exact ⟨_, hsynced⟩
    · exact ⟨v, hsynced⟩
  | reorg firstReorgedBlock => exact ⟨_, hσ.reorg hash zero firstReorgedBlock⟩
  | backwardToIndex targetIndex => exact ⟨_, hσ.backwardToIndex hash zero targetIndex⟩

/-- In every state of a safe run the visible indices count up from zero, and a safe put is accepted
exactly at their number; elsewhere it returns `ErrInvalidIndex` and leaves the tables as they
are. -/
theorem safe_run_accepts_iff_next
    (hrun : Reach (State.apply hash zero) (Safe zero) (State.new zero) σ) :
    σ.store.root.map (fun r => r.index.toNat) = range σ.store.root.length ∧
    ∀ blockNum blockPosition leaf, Safe zero σ (.putLeaf blockNum blockPosition leaf) →
      let o := putLeaf hash zero σ.tree σ.store blockNum blockPosition leaf
      ((∃ r, o.result = .ok r) ↔ leaf.index.toNat = σ.store.root.length) ∧
      (leaf.index.toNat ≠ σ.store.root.length →
        o.result = .error .invalidIndex ∧ o.store = σ.store) := by
  obtain ⟨v, hσ⟩ := exists_synced_of_safe zero hinj hrun
  have hlen : σ.store.root.length = v.length := by rw [hσ.rows, length_rowsOf]
  refine ⟨?_, fun blockNum blockPosition leaf hsafe => ?_⟩
  · rw [hlen, hσ.rows, rowsOf_index hash zero hσ.length_le]
  · rw [hlen]
    rcases hσ.putLeaf_safe zero hinj hsafe with
      ⟨hindex, hresult, -⟩ | ⟨hindex, hresult, hstore, -⟩
    · exact ⟨⟨fun _ => hindex, fun _ => ⟨_, hresult⟩⟩, fun hne => absurd hindex hne⟩
    · refine ⟨⟨fun ⟨r, hr⟩ => ?_, fun heq => absurd heq hindex⟩, fun _ => ⟨hresult, hstore⟩⟩
      rw [hresult] at hr
      cases hr

end safe

/-- After the first leaf, the leaf at index 1 is accepted and the leaf at index 5 is refused. -/
theorem safe_run_accepts_iff_next_second :
    let σ := (State.new (Term.leaf 0)).apply Term.node (.leaf 0) (.putLeaf 1 0 ⟨0, .leaf 7⟩)
    (∃ r, (putLeaf Term.node (.leaf 0) σ.tree σ.store 2 0 ⟨1, .leaf 8⟩).result = .ok r) ∧
      (putLeaf Term.node (.leaf 0) σ.tree σ.store 2 0 ⟨5, .leaf 8⟩).result =
        .error .invalidIndex := by
  intro σ
  have hfirst : Safe (Term.leaf 0) (State.new (.leaf 0)) (.putLeaf 1 0 ⟨0, .leaf 7⟩) := by
    unfold Safe
    decide +kernel
  have hrun : Reach (State.apply Term.node (Term.leaf 0)) (Safe (.leaf 0)) (State.new (.leaf 0)) σ :=
    .step .init hfirst
  have hnext := (safe_run_accepts_iff_next (Term.leaf 0) Term.injective2_node hrun).2 2 0
  have hlen : σ.store.root.length = 1 := by decide +kernel
  have hsafe1 : Safe (Term.leaf 0) σ (.putLeaf 2 0 ⟨1, .leaf 8⟩) := by
    unfold Safe
    decide +kernel
  have hsafe5 : Safe (Term.leaf 0) σ (.putLeaf 2 0 ⟨5, .leaf 8⟩) := by
    unfold Safe
    decide +kernel
  rw [hlen] at hnext
  exact ⟨(hnext _ hsafe1).1.mpr rfl, ((hnext _ hsafe5).2 (by decide)).1⟩

/-- Two leaves are put in blocks 1 and 2 and block 2 is reorged, so that one leaf is visible. The
object still remembers index 1, and a leaf at index 2 is accepted: the visible indices are then 0
and 2. -/
theorem stale_index_accepted :
    let σ := (((State.new (Term.leaf 0)).apply Term.node (.leaf 0)
      (.putLeaf 1 0 ⟨0, .leaf 7⟩)).apply Term.node (.leaf 0)
      (.putLeaf 2 0 ⟨1, .leaf 8⟩)).apply Term.node (.leaf 0) (.reorg 2)
    let o := putLeaf Term.node (.leaf 0) σ.tree σ.store 2 0 ⟨2, .leaf 9⟩
    σ.store.root.length = 1 ∧ (∃ r, o.result = .ok r) ∧
      o.store.root.map (fun r => r.index) = [0, 2] := by
  exact ⟨by decide +kernel, Exec.except_isOk_iff.mp (by decide +kernel), by decide +kernel⟩

end AggKit.Tree
