import AggKit.Tree.Run

/-!
# Rolled back transactions

A transaction (`db/tx.go`) collects callbacks and runs them when it is rolled back. `PutLeaf` adds
one that takes one from `lastIndex`; nothing restores `lastLeftCache`. The tables are restored by
the database.

Whether a rolled back transaction can be seen depends on what the next leaf reads. An object that
holds `n` leaves reads the cache at the heights `h` where bit `h` of `n` is set, and finds there the
complete subtree of `2^h` leaves to the left of leaf `n`. After leaves up to index `e` were put and
rolled back, the cache has the left subtree on the path of leaf `e` instead. The two are compared
leaf by leaf in `SubtreesKept`. The second thing a rolled back transaction can change is the index:
an object that was rebuilt from the tables in the transaction stays rebuilt.

`rollback_invisible_iff` says that these are the only differences, for every state that runs of
committed calls and of rolled back transactions without such a difference reach.
-/

namespace AggKit.Tree

open Merkle Run List Term Function

variable {H : Type} [DecidableEq H] (hash : H → H → H) (zero : H)

/-- The arguments of a call of `PutLeaf`. -/
structure Put (H : Type) where
  blockNum : ℕ
  blockPosition : ℕ
  leaf : Leaf H

/-- An open transaction: the object and the tables as it sees them, the tables at its begin, and
the callbacks `AddRollbackCallback` was given. -/
structure Tx (H : Type) where
  tree : AppendOnlyTree H
  store : Store H
  saved : Store H
  rollbackCallbacks : List (AppendOnlyTree H → AppendOnlyTree H)

/-- `NewTx`. -/
def Tx.begin (σ : State H) : Tx H := ⟨σ.tree, σ.store, σ.store, []⟩

/-- The callback that `PutLeaf` registers. -/
def decreaseIndex (t : AppendOnlyTree H) : AppendOnlyTree H :=
  { t with lastIndex := t.lastIndex - 1 }

/-- A successful `PutLeaf` in a transaction; `none` when it fails. -/
def Tx.putLeaf (tx : Tx H) (q : Put H) : Option (Tx H) :=
  let o := Tree.putLeaf hash zero tx.tree tx.store q.blockNum q.blockPosition q.leaf
  match o.result with
  | .ok _ => some ⟨o.tree, o.store, tx.saved, tx.rollbackCallbacks ++ [decreaseIndex]⟩
  | .error _ => none

/-- Successful calls of `PutLeaf` one after the other; `none` when one fails. -/
def Tx.putLeaves (tx : Tx H) : List (Put H) → Option (Tx H)
  | [] => some tx
  | q :: qs => (tx.putLeaf hash zero q).bind fun tx' => tx'.putLeaves qs

/-- `Rollback`: the database restores its tables, then the callbacks run in order. -/
def Tx.rollback (tx : Tx H) : State H :=
  ⟨tx.rollbackCallbacks.foldl (fun t callback => callback t) tx.tree, tx.saved⟩

/-- The state after a transaction of successful puts is rolled back; `none` when a put fails. -/
def State.rolledBack (σ : State H) (qs : List (Put H)) : Option (State H) :=
  ((Tx.begin σ).putLeaves hash zero qs).map Tx.rollback

/-- The results of a sequence of calls of `PutLeaf`, and the state they lead to. -/
def State.putLeaves (σ : State H) : List (Put H) → List (Except (TreeError H) H) × State H
  | [] => ([], σ)
  | q :: qs =>
    let o := putLeaf hash zero σ.tree σ.store q.blockNum q.blockPosition q.leaf
    let rest := State.putLeaves ⟨o.tree, o.store⟩ qs
    (o.result :: rest.1, rest.2)

/-- No sequence of puts tells the two states apart, by its results or by the roots it stores. -/
def Indistinguishable (σ ρ : State H) : Prop :=
  ∀ qs, (σ.putLeaves hash zero qs).1 = (ρ.putLeaves hash zero qs).1 ∧
    (σ.putLeaves hash zero qs).2.store.root = (ρ.putLeaves hash zero qs).2.store.root

/-- The leaves that a put at `index` is appended to: those the object holds when it expects that
index, those of the last root otherwise. -/
def State.BaseLeaves (σ : State H) (index : UInt32) (l : List H) : Prop :=
  if (index.toNat : ℤ) = σ.tree.lastIndex + 1 then σ.tree.Holds hash zero l
  else σ.store.LastLeaves hash zero l

/-- The subtrees to the left of leaf `l.length` are the left subtrees on the path of the last leaf
of `l ++ xs`. Bit `h` of `l.length` being set, the subtree has `2^h` leaves. -/
def SubtreesKept (l xs : List H) : Prop :=
  ∀ h < DefaultHeight, l.length.testBit h = true → ∀ j < 2^h,
    padded zero (l ++ xs) (2 * (((l ++ xs).length - 1) / 2^(h + 1)) * 2^h + j) =
      padded zero l ((l.length / 2^h - 1) * 2^h + j)

/-- The object expects no index a leaf can have. -/
def AppendOnlyTree.ExpectsNone (t : AppendOnlyTree H) : Prop :=
  ¬(0 ≤ t.lastIndex + 1 ∧ t.lastIndex + 1 < 2^32)

/-- What a transaction of puts must satisfy to leave no trace when it is rolled back. -/
def Harmless (σ : State H) : List (Put H) → Prop
  | [] => True
  | q :: qs =>
    ((q.leaf.index.toNat : ℤ) = σ.tree.lastIndex + 1 ∨ σ.tree.ExpectsNone) ∧
      ∀ l, σ.BaseLeaves hash zero q.leaf.index l →
        SubtreesKept zero l ((q :: qs).map fun q => q.leaf.hash)

/-- The leaves are put one after the other, by index. -/
def Sequential (qs : List (Put H)) : Prop :=
  qs.IsChain fun a b => b.leaf.index.toNat = a.leaf.index.toNat + 1

/-! ## What a successful put leaves behind -/

section ok

variable {hash} (hinj : Injective2 hash) {σ : State H} {l : List H}

/-- After a put on an object that holds `l`, the whole cache is the left children on the path of
the new leaf. -/
theorem putAccepted_lastLeftCache (s : Store H) {t : AppendOnlyTree H} (ht : t.Holds hash zero l)
    {leaf : Leaf H} (hindex : leaf.index.toNat = l.length) (blockNum blockPosition : ℕ)
    {h : ℕ} (hh : h < DefaultHeight) :
    (putAccepted hash zero t s blockNum blockPosition leaf).tree.lastLeftCache h =
      node hash (padded zero (l ++ [leaf.hash])) h (2 * (l.length / 2^(h + 1))) := by
  have hcache : (putAccepted hash zero t s blockNum blockPosition leaf).tree.lastLeftCache =
      (putLeafLoop hash zero leaf t.lastLeftCache DefaultHeight).lastLeftCache := by
    simp only [putAccepted]
    split <;> rfl
  obtain ⟨hchild, -⟩ := putLeafLoop_spec hash zero ht.frontier hindex hh.le
  rw [hcache, putLeafLoop_lastLeftCache, hchild, appendPath_left hash leaf.hash ht.frontier hh,
    hindex]
  by_cases hbit : l.length.testBit h = true
  · simp [hbit]
  · simp [hbit, hh]

include hinj

/-- A put at the number of its base leaves is made on an object that holds them, any other put is
refused. -/
theorem putLeaf_of_base (hs : σ.store.WF hash zero) {leaf : Leaf H}
    (hbase : σ.BaseLeaves hash zero leaf.index l) (blockNum blockPosition : ℕ) :
    (leaf.index.toNat = l.length ∧ ∃ t : AppendOnlyTree H, t.Holds hash zero l ∧
        putLeaf hash zero σ.tree σ.store blockNum blockPosition leaf =
          putAccepted hash zero t σ.store blockNum blockPosition leaf) ∨
      (leaf.index.toNat ≠ l.length ∧
        (putLeaf hash zero σ.tree σ.store blockNum blockPosition leaf).result =
          .error .invalidIndex) := by
  unfold State.BaseLeaves at hbase
  split_ifs at hbase with hnext
  · left
    refine ⟨?_, σ.tree, hbase, putLeaf_of_next hash zero blockNum blockPosition hnext⟩
    have hlast := hbase.lastIndex_eq
    omega
  · obtain ⟨t', -, ht', hput⟩ :=
      putLeaf_of_not_next hash zero blockNum blockPosition hinj hs hbase hnext
    split_ifs at hput with hindex
    · exact .inl ⟨hindex, t', ht', hput⟩
    · exact .inr ⟨hindex, by rw [hput]⟩

end ok

/-- A transaction whose last leaf is the last of `l`. -/
structure Tx.Follows (tx : Tx H) (l : List H) : Prop where
  wf : tx.store.WF hash zero
  holds : tx.tree.Holds hash zero l
  cache : ∀ h < DefaultHeight, tx.tree.lastLeftCache h =
    node hash (padded zero l) h (2 * ((l.length - 1) / 2^(h + 1)))

section follows

variable {hash} (hinj : Injective2 hash) {l : List H}
include hinj

/-- One successful put. -/
theorem Tx.putLeaf_follows {tx tx' : Tx H} (hs : tx.store.WF hash zero) {q : Put H}
    (hbase : State.BaseLeaves hash zero ⟨tx.tree, tx.store⟩ q.leaf.index l)
    (hput : tx.putLeaf hash zero q = some tx') :
    q.leaf.index.toNat = l.length ∧
      (∀ r ∈ tx.store.root, r.hash ≠ root hash zero DefaultHeight (l ++ [q.leaf.hash])) ∧
      tx'.Follows hash zero (l ++ [q.leaf.hash]) ∧ tx'.saved = tx.saved ∧
      tx'.rollbackCallbacks = tx.rollbackCallbacks ++ [decreaseIndex] := by
  unfold Tx.putLeaf at hput
  simp only at hput
  split at hput
  case h_2 => cases hput
  case h_1 r hok =>
    obtain ⟨hindex, t, ht, heq⟩ := (putLeaf_of_base zero hinj (σ := ⟨tx.tree, tx.store⟩) hs hbase
      q.blockNum q.blockPosition).resolve_right fun hrefused => by
        rw [hrefused.2] at hok
        cases hok
    have hcache := fun h hh =>
      putAccepted_lastLeftCache zero tx.store ht hindex q.blockNum q.blockPosition (h := h) hh
    have hspec := putAccepted_spec hash zero hinj hs ht hindex q.blockNum q.blockPosition
    rw [heq] at hok hput
    cases hput
    rcases hspec with ⟨-, hresult, -⟩ | ⟨hfresh, -, -, -, hwf, -, hholds⟩
    · rw [hresult] at hok
      cases hok
    · refine ⟨hindex, hfresh, ⟨hwf, hholds, fun h hh => ?_⟩, rfl, rfl⟩
      rw [hcache h hh, length_append, length_singleton, Nat.add_sub_cancel]

/-- Successful puts one after the other extend the list the transaction follows. -/
theorem Tx.Follows.putLeaves {tx tx' : Tx H} (htx : tx.Follows hash zero l) {q0 : Put H}
    (hlast : q0.leaf.index.toNat + 1 = l.length) {qs : List (Put H)}
    (hseq : Sequential (q0 :: qs)) (hput : tx.putLeaves hash zero qs = some tx') :
    tx'.Follows hash zero (l ++ qs.map fun q => q.leaf.hash) ∧ tx'.saved = tx.saved ∧
      tx'.rollbackCallbacks =
        tx.rollbackCallbacks ++ List.replicate qs.length decreaseIndex := by
  induction qs generalizing tx l q0 with
  | nil =>
    cases hput
    simpa using htx
  | cons q qs ih =>
    obtain ⟨tx1, hput1, hput'⟩ := Option.bind_eq_some_iff.mp hput
    obtain ⟨hsucc, hseq'⟩ := isChain_cons_cons.mp hseq
    -- The object expects the next index, so the put is made on the leaves it holds.
    have hbase : State.BaseLeaves hash zero ⟨tx.tree, tx.store⟩ q.leaf.index l := by
      unfold State.BaseLeaves
      rw [if_pos]
      · exact htx.holds
      · have hindex := htx.holds.lastIndex_eq
        show (q.leaf.index.toNat : ℤ) = tx.tree.lastIndex + 1
        omega
    obtain ⟨hindex, -, htx1, hsaved1, hcallbacks1⟩ :=
      Tx.putLeaf_follows zero hinj htx.wf hbase hput1
    obtain ⟨htx', hsaved, hcallbacks⟩ := ih htx1 (by simp [hindex]) hseq' hput'
    refine ⟨by simpa using htx', hsaved.trans hsaved1, ?_⟩
    rw [hcallbacks, hcallbacks1, append_assoc]
    rfl

end follows

/-! ## The state after a rollback -/

omit [DecidableEq H] in
/-- Running the callback `k` times takes `k` from the index and leaves the cache. -/
theorem foldl_decreaseIndex (t : AppendOnlyTree H) (k : ℕ) :
    (List.replicate k decreaseIndex).foldl (fun t callback => callback t) t =
      { t with lastIndex := t.lastIndex - k } := by
  induction k generalizing t with
  | zero => simp
  | succ k ih =>
    rw [replicate_succ, foldl_cons, ih]
    simp only [decreaseIndex, AppendOnlyTree.mk.injEq, true_and]
    omega

/-- What a rollback of `xs`, put on the leaves `l`, makes of the state `σ`. -/
structure State.RollsBackTo (σ ρ : State H) (l xs : List H) : Prop where
  store_eq : ρ.store = σ.store
  lastIndex_eq : ρ.tree.lastIndex + 1 = l.length
  cache : ∀ h < DefaultHeight, ρ.tree.lastLeftCache h =
    node hash (padded zero (l ++ xs)) h (2 * (((l ++ xs).length - 1) / 2^(h + 1)))
  /-- The first leaf fits the tree. -/
  length_lt : l.length < 2^32
  /-- The root of the first leaf was not in the table. -/
  exists_fresh : ∃ y, ∀ r ∈ σ.store.root, r.hash ≠ y

section rolledBack

variable {hash} {σ ρ : State H} {l xs : List H}

/-- A rolled back transaction leaves the tables, the index of its base and the cache of its last
leaf. -/
theorem State.rolledBack_spec (hinj : Injective2 hash) (hs : σ.store.WF hash zero)
    {q : Put H} {qs : List (Put H)} (hbase : σ.BaseLeaves hash zero q.leaf.index l)
    (hseq : Sequential (q :: qs)) (hρ : σ.rolledBack hash zero (q :: qs) = some ρ) :
    q.leaf.index.toNat = l.length ∧
      σ.RollsBackTo hash zero ρ l ((q :: qs).map fun q => q.leaf.hash) := by
  obtain ⟨tx, hput, rfl⟩ := Option.map_eq_some_iff.mp hρ
  obtain ⟨tx1, hput1, hput'⟩ := Option.bind_eq_some_iff.mp hput
  obtain ⟨hindex, hfresh, htx1, hsaved1, hcallbacks1⟩ :=
    Tx.putLeaf_follows zero hinj (show (Tx.begin σ).store.WF hash zero from hs) hbase hput1
  obtain ⟨htx, hsaved, hcallbacks⟩ := htx1.putLeaves zero hinj (by simp [hindex]) hseq hput'
  have hlist : l ++ (q :: qs).map (fun q => q.leaf.hash) =
      l ++ [q.leaf.hash] ++ qs.map fun q => q.leaf.hash := by simp
  have hall : tx.rollbackCallbacks = List.replicate (qs.length + 1) decreaseIndex := by
    rw [hcallbacks, hcallbacks1]
    rfl
  refine ⟨hindex, ?_, ?_, ?_, ?_, ⟨_, hfresh⟩⟩
  · exact (hsaved.trans hsaved1)
  · have hlast := htx.holds.lastIndex_eq
    unfold Tx.rollback
    rw [hall, foldl_decreaseIndex]
    simp only [length_append, length_singleton, length_map] at hlast
    push_cast at hlast ⊢
    omega
  · intro h hh
    unfold Tx.rollback
    rw [hall, foldl_decreaseIndex, hlist]
    exact htx.cache h hh
  · rw [← hindex]
    exact q.leaf.index.toNat_lt

omit [DecidableEq H] in
/-- The object holds the base leaves again exactly when the subtrees it needs are kept. -/
theorem State.RollsBackTo.holds_iff (hinj : Injective2 hash)
    (hρ : σ.RollsBackTo hash zero ρ l xs) :
    ρ.tree.Holds hash zero l ↔ SubtreesKept zero l xs := by
  constructor
  · intro hholds h hh hbit
    have hnode := (hρ.cache h hh).symm.trans (hholds.frontier h hh hbit)
    exact leaves_eq_of_node_eq hinj hnode
  · intro hkept
    refine ⟨hρ.lastIndex_eq, fun h hh hbit => ?_⟩
    rw [hρ.cache h hh]
    exact node_eq_of_leaves_eq hash (hkept h hh hbit)

/-- A rolled back transaction of puts after the visible leaves leaves an object in step with them, if
the subtrees it needs are kept. -/
theorem Synced.rolledBack (hinj : Injective2 hash) {v : List (Visible H)}
    (hσ : Synced hash zero σ v) {qs : List (Put H)}
    (hfirst : ∀ q ∈ qs.head?, q.leaf.index.toNat = v.length) (hseq : Sequential qs)
    (hkept : SubtreesKept zero (leaves v) (qs.map fun q => q.leaf.hash))
    (hρ : σ.rolledBack hash zero qs = some ρ) : Synced hash zero ρ v := by
  cases qs with
  | nil =>
    obtain rfl : σ = ρ := Option.some.inj hρ
    exact hσ
  | cons q qs =>
    have hindex : q.leaf.index.toNat = v.length := hfirst q rfl
    have hbase : σ.BaseLeaves hash zero q.leaf.index (leaves v) := by
      unfold State.BaseLeaves
      split_ifs with hnext
      · -- an object that expects the index is not ahead of the visible leaves
        rcases hσ.memory with hnew | hholds | hahead
        · omega
        · exact hholds
        · omega
      · exact hσ.lastLeaves zero hinj
    obtain ⟨-, hback⟩ := State.rolledBack_spec zero hinj hσ.wf hbase hseq hρ
    have hholds := (hback.holds_iff zero hinj).mpr hkept
    have hstore := hback.store_eq
    exact ⟨hstore ▸ hσ.wf, hstore ▸ hσ.rows, hσ.ordered, hσ.length_le, .inr (.inl hholds)⟩

end rolledBack

/-! ## Indistinguishable states -/

/-- The store is well formed and the object expects no index or holds some leaves. -/
structure State.Sound (σ : State H) : Prop where
  wf : σ.store.WF hash zero
  memory : σ.tree.ExpectsNone ∨ ∃ l, σ.tree.Holds hash zero l

/-- States with the same tables whose objects are equal, hold the same leaves, or would after a
rebuild of the first. -/
structure Twins (σ ρ : State H) : Prop where
  sound : σ.Sound hash zero
  store_eq : ρ.store = σ.store
  memory : ρ.tree = σ.tree ∨ (∃ l, σ.tree.Holds hash zero l ∧ ρ.tree.Holds hash zero l) ∨
    (σ.tree.ExpectsNone ∧ ∃ l, σ.store.LastLeaves hash zero l ∧ ρ.tree.Holds hash zero l)

section twins

variable {hash} {σ ρ : State H} {l : List H} {t u : AppendOnlyTree H} {leaf : Leaf H}

/-- Two objects that hold the same leaves put the next leaf alike. -/
theorem putAccepted_congr (ht : t.Holds hash zero l) (hu : u.Holds hash zero l) (s : Store H)
    (blockNum blockPosition : ℕ) (hindex : leaf.index.toNat = l.length) :
    (putAccepted hash zero u s blockNum blockPosition leaf).result =
        (putAccepted hash zero t s blockNum blockPosition leaf).result ∧
      (putAccepted hash zero u s blockNum blockPosition leaf).store =
        (putAccepted hash zero t s blockNum blockPosition leaf).store := by
  have hagree : ∀ k < DefaultHeight, leaf.index.toNat.testBit k = true →
      u.lastLeftCache k = t.lastLeftCache k := by
    intro k hk hbit
    rw [hindex] at hbit
    rw [hu.frontier k hk hbit, ht.frontier k hk hbit]
  obtain ⟨hchild, hnodes⟩ := putLeafLoop_congr hash zero hagree
  simp only [putAccepted, hchild, hnodes]
  split <;> exact ⟨rfl, rfl⟩

variable (hinj : Injective2 hash)
include hinj

variable {s : Store H}

/-- A put on an object that holds `l` ends in a sound state. -/
theorem State.Sound.of_putAccepted (hs : s.WF hash zero) (ht : t.Holds hash zero l)
    (hindex : leaf.index.toNat = l.length) (blockNum blockPosition : ℕ) :
    let o := putAccepted hash zero t s blockNum blockPosition leaf
    State.Sound hash zero ⟨o.tree, o.store⟩ := by
  rcases putAccepted_spec hash zero hinj hs ht hindex blockNum blockPosition with
    ⟨-, -, hstore, hholds⟩ | ⟨-, -, -, -, hwf, -, hholds⟩
  · exact ⟨by rw [hstore]; exact hs, .inr ⟨l, hholds⟩⟩
  · exact ⟨hwf, .inr ⟨_, hholds⟩⟩

/-- Two objects that hold the same leaves put the next leaf alike and hold the same leaves
afterwards. -/
theorem twins_of_putAccepted (hs : s.WF hash zero) (ht : t.Holds hash zero l)
    (hu : u.Holds hash zero l) (hindex : leaf.index.toNat = l.length) (blockNum blockPosition : ℕ) :
    let o := putAccepted hash zero t s blockNum blockPosition leaf
    let o' := putAccepted hash zero u s blockNum blockPosition leaf
    o'.result = o.result ∧ Twins hash zero ⟨o.tree, o.store⟩ ⟨o'.tree, o'.store⟩ := by
  obtain ⟨hresult, hstore⟩ := putAccepted_congr zero ht hu s blockNum blockPosition hindex
  have hsound := State.Sound.of_putAccepted zero hinj hs ht hindex blockNum blockPosition
  refine ⟨hresult, hsound, hstore, .inr (.inl ?_)⟩
  rcases putAccepted_spec hash zero hinj hs ht hindex blockNum blockPosition with
    ⟨hrow, -, -, hholds⟩ | ⟨hfresh, -, -, -, -, -, hholds⟩ <;>
  rcases putAccepted_spec hash zero hinj hs hu hindex blockNum blockPosition with
    ⟨hrow', -, -, hholds'⟩ | ⟨hfresh', -, -, -, -, -, hholds'⟩
  · exact ⟨l, hholds, hholds'⟩
  · obtain ⟨r, hr, heq⟩ := hrow
    exact absurd heq (hfresh' r hr)
  · obtain ⟨r, hr, heq⟩ := hrow'
    exact absurd heq (hfresh r hr)
  · exact ⟨_, hholds, hholds'⟩

omit hinj [DecidableEq H] in
/-- Equal outcomes are twins. -/
theorem twins_of_eq {o o' : PutOutcome H} (hsound : State.Sound hash zero ⟨o.tree, o.store⟩)
    (heq : o' = o) :
    o'.result = o.result ∧ Twins hash zero ⟨o.tree, o.store⟩ ⟨o'.tree, o'.store⟩ := by
  subst heq
  exact ⟨rfl, hsound, rfl, .inl rfl⟩

/-- Two objects that both do not expect the index are rebuilt to the same object. -/
theorem putLeaf_eq_of_not_next (hs : s.WF hash zero) (ht : (leaf.index.toNat : ℤ) ≠ t.lastIndex + 1)
    (hu : (leaf.index.toNat : ℤ) ≠ u.lastIndex + 1) (blockNum blockPosition : ℕ) :
    putLeaf hash zero u s blockNum blockPosition leaf =
      putLeaf hash zero t s blockNum blockPosition leaf := by
  obtain ⟨m, hm⟩ := hs.exists_lastLeaves hash zero
  obtain ⟨t', hinit, -, hput⟩ := putLeaf_of_not_next hash zero blockNum blockPosition hinj hs hm ht
  obtain ⟨u', hinit', -, hput'⟩ :=
    putLeaf_of_not_next hash zero blockNum blockPosition hinj hs hm hu
  rw [initCache_congr zero hinj hs u t, hinit] at hinit'
  obtain rfl : t' = u' := (Prod.mk.inj hinit').2
  rw [hput, hput']

/-- A sound state stays sound under any put. -/
theorem State.Sound.putLeaf (hσ : σ.Sound hash zero) (blockNum blockPosition : ℕ) (leaf : Leaf H) :
    let o := Tree.putLeaf hash zero σ.tree σ.store blockNum blockPosition leaf
    State.Sound hash zero ⟨o.tree, o.store⟩ := by
  by_cases hnext : (leaf.index.toNat : ℤ) = σ.tree.lastIndex + 1
  · have hbound := leaf.index.toNat_lt
    obtain ⟨l, hl⟩ := hσ.memory.resolve_left fun hnone => hnone (by omega)
    have hindex : leaf.index.toNat = l.length := by
      have hlast := hl.lastIndex_eq
      omega
    rw [putLeaf_of_next hash zero blockNum blockPosition hnext]
    exact State.Sound.of_putAccepted zero hinj hσ.wf hl hindex blockNum blockPosition
  · obtain ⟨m, hm⟩ := hσ.wf.exists_lastLeaves hash zero
    obtain ⟨t', -, ht', hput⟩ :=
      putLeaf_of_not_next hash zero blockNum blockPosition hinj hσ.wf hm hnext
    rw [hput]
    split_ifs with hindex
    · exact State.Sound.of_putAccepted zero hinj hσ.wf ht' hindex blockNum blockPosition
    · exact ⟨hσ.wf, .inr ⟨m, ht'⟩⟩

/-- A put gives the same result on twins and leaves twins. -/
theorem Twins.putLeaf (hT : Twins hash zero σ ρ) (blockNum blockPosition : ℕ) (leaf : Leaf H) :
    let o := Tree.putLeaf hash zero σ.tree σ.store blockNum blockPosition leaf
    let o' := Tree.putLeaf hash zero ρ.tree ρ.store blockNum blockPosition leaf
    o'.result = o.result ∧ Twins hash zero ⟨o.tree, o.store⟩ ⟨o'.tree, o'.store⟩ := by
  obtain ⟨hσ, hstore, hmemory⟩ := hT
  have hsound := hσ.putLeaf zero hinj blockNum blockPosition leaf
  rw [hstore]
  rcases hmemory with heq | ⟨l, hl, hl'⟩ | ⟨hnone, l, hl, hl'⟩
  · exact twins_of_eq zero hsound (by rw [heq])
  · have hlast := hl.lastIndex_eq
    have hlast' := hl'.lastIndex_eq
    by_cases hindex : leaf.index.toNat = l.length
    · rw [putLeaf_of_next hash zero blockNum blockPosition (by omega),
        putLeaf_of_next hash zero blockNum blockPosition (by omega)]
      exact twins_of_putAccepted zero hinj hσ.wf hl hl' hindex blockNum blockPosition
    · exact twins_of_eq zero hsound
        (putLeaf_eq_of_not_next zero hinj hσ.wf (by omega) (by omega) blockNum blockPosition)
  · -- The first object is rebuilt and then holds what the second one holds.
    have hlast' := hl'.lastIndex_eq
    have hbound := leaf.index.toNat_lt
    have hnext : (leaf.index.toNat : ℤ) ≠ σ.tree.lastIndex + 1 := fun h => hnone (by omega)
    by_cases hindex : leaf.index.toNat = l.length
    · obtain ⟨t', -, ht', hput⟩ :=
        putLeaf_of_not_next hash zero blockNum blockPosition hinj hσ.wf hl hnext
      rw [hput, if_pos hindex, putLeaf_of_next hash zero blockNum blockPosition (by omega)]
      exact twins_of_putAccepted zero hinj hσ.wf ht' hl' hindex blockNum blockPosition
    · exact twins_of_eq zero hsound
        (putLeaf_eq_of_not_next zero hinj hσ.wf hnext (by omega) blockNum blockPosition)

/-- Twins are indistinguishable. -/
theorem Twins.indistinguishable (hT : Twins hash zero σ ρ) : Indistinguishable hash zero σ ρ := by
  intro qs
  induction qs generalizing σ ρ with
  | nil => exact ⟨rfl, by rw [State.putLeaves, State.putLeaves, hT.store_eq]⟩
  | cons q qs ih =>
    obtain ⟨hresult, hT'⟩ := hT.putLeaf zero hinj q.blockNum q.blockPosition q.leaf
    obtain ⟨hresults, hroots⟩ := ih hT'
    simp only [State.putLeaves]
    exact ⟨by rw [hresult, hresults], hroots⟩

end twins

/-! ## Telling states apart -/

section distinguish

variable {hash} {σ ρ : State H} {l xs : List H}

theorem not_indistinguishable_of_result {q : Put H}
    (hne : (putLeaf hash zero σ.tree σ.store q.blockNum q.blockPosition q.leaf).result ≠
      (putLeaf hash zero ρ.tree ρ.store q.blockNum q.blockPosition q.leaf).result) :
    ¬Indistinguishable hash zero σ ρ := by
  intro hI
  have hone := (hI [q]).1
  simp only [State.putLeaves, List.cons.injEq, and_true] at hone
  exact hne hone

variable {s : Store H}

/-- The root that an accepted put returns is the one the loop has computed. -/
theorem putAccepted_result {t : AppendOnlyTree H} {blockNum blockPosition : ℕ} {leaf : Leaf H}
    {r : H} (hok : (putAccepted hash zero t s blockNum blockPosition leaf).result = .ok r) :
    r = (putLeafLoop hash zero leaf t.lastLeftCache DefaultHeight).currentChildHash := by
  simp only [putAccepted] at hok
  split at hok
  · cases hok
  · exact (Except.ok.inj hok).symm

variable (hinj : Injective2 hash)
include hinj

omit [DecidableEq H] in
/-- A leaf whose root after `l` is not in the table. -/
theorem exists_fresh_leaf {y : H} (hy : ∀ r ∈ s.root, r.hash ≠ y) (hlen : l.length < 2^32) :
    ∃ x, ∀ r ∈ s.root, r.hash ≠ root hash zero DefaultHeight (l ++ [x]) := by
  have hy' : y ∉ s.root.map Root.hash := by
    simpa using hy
  obtain ⟨x, hx⟩ := exists_value_notMem hinj (root_concat_injective hinj zero
    (show l.length < 2^DefaultHeight from hlen)) hy'
  exact ⟨x, by simpa using hx⟩

/-- An object that holds `l` returns the new root for a fresh leaf. -/
theorem putAccepted_fresh (hs : s.WF hash zero) {t : AppendOnlyTree H} (ht : t.Holds hash zero l)
    {leaf : Leaf H} (hindex : leaf.index.toNat = l.length)
    (hfresh : ∀ r ∈ s.root, r.hash ≠ root hash zero DefaultHeight (l ++ [leaf.hash]))
    (blockNum blockPosition : ℕ) :
    (putAccepted hash zero t s blockNum blockPosition leaf).result =
      .ok (root hash zero DefaultHeight (l ++ [leaf.hash])) := by
  rcases putAccepted_spec hash zero hinj hs ht hindex blockNum blockPosition with
    ⟨⟨r, hr, heq⟩, -⟩ | ⟨-, hresult, -⟩
  · exact absurd heq (hfresh r hr)
  · exact hresult

/-- An object that expects an index which the rolled back one does not expect any more gives
itself away at that index. -/
theorem State.RollsBackTo.distinguishable_of_rebuilt (hσ : σ.Sound hash zero)
    (hρ : σ.RollsBackTo hash zero ρ l xs) (hl : σ.store.LastLeaves hash zero l)
    (hexpects : 0 ≤ σ.tree.lastIndex + 1 ∧ σ.tree.lastIndex + 1 < 2^32)
    (hne : σ.tree.lastIndex + 1 ≠ l.length) : ¬Indistinguishable hash zero σ ρ := by
  obtain ⟨m, hm⟩ := hσ.memory.resolve_left fun hnone => hnone hexpects
  have hlast := hm.lastIndex_eq
  have hlen : m.length < 2^32 := by omega
  obtain ⟨y, hy⟩ := hρ.exists_fresh
  obtain ⟨x, hx⟩ := exists_fresh_leaf zero hinj hy hlen
  have hindex : (UInt32.ofNat m.length).toNat = m.length := by
    rw [UInt32.toNat_ofNat']
    omega
  refine not_indistinguishable_of_result (q := ⟨0, 0, ⟨UInt32.ofNat m.length, x⟩⟩) zero ?_
  have hnext : (((⟨UInt32.ofNat m.length, x⟩ : Leaf H).index.toNat : ℕ) : ℤ) =
      σ.tree.lastIndex + 1 := by
    rw [hlast, hindex]
  have hnext' : (((⟨UInt32.ofNat m.length, x⟩ : Leaf H).index.toNat : ℕ) : ℤ) ≠
      ρ.tree.lastIndex + 1 := by
    rw [hρ.lastIndex_eq, hindex, ← hlast]
    exact hne
  obtain ⟨t', -, -, hput⟩ := putLeaf_of_not_next hash zero 0 0 hinj hσ.wf hl hnext'
  rw [if_neg (by rw [hindex]; omega)] at hput
  rw [putLeaf_of_next hash zero 0 0 hnext, putAccepted_fresh zero hinj hσ.wf hm hindex hx,
    hρ.store_eq, hput]
  simp

/-- An object whose cache has lost a subtree it needs gives itself away at its next leaf. -/
theorem State.RollsBackTo.distinguishable_of_lost (hσ : σ.Sound hash zero)
    (hρ : σ.RollsBackTo hash zero ρ l xs) {index : UInt32}
    (hbase : σ.BaseLeaves hash zero index l) (hindex : index.toNat = l.length)
    (hlost : ¬ρ.tree.Holds hash zero l) : ¬Indistinguishable hash zero σ ρ := by
  obtain ⟨y, hy⟩ := hρ.exists_fresh
  obtain ⟨x, hx⟩ := exists_fresh_leaf zero hinj hy hρ.length_lt
  refine not_indistinguishable_of_result (q := ⟨0, 0, ⟨index, x⟩⟩) zero fun hsame => hlost ?_
  have hbase' : σ.BaseLeaves hash zero (⟨index, x⟩ : Leaf H).index l := hbase
  have hindex' : (⟨index, x⟩ : Leaf H).index.toNat = l.length := hindex
  obtain ⟨-, t, ht, hput⟩ :=
    (putLeaf_of_base zero hinj hσ.wf hbase' 0 0).resolve_right fun h => h.1 hindex'
  have hnext : (((⟨index, x⟩ : Leaf H).index.toNat : ℕ) : ℤ) = ρ.tree.lastIndex + 1 := by
    rw [hρ.lastIndex_eq]
    exact congrArg Nat.cast hindex
  have hok := putAccepted_fresh zero hinj hσ.wf ht hindex' hx 0 0
  rw [hput, hok, putLeaf_of_next hash zero 0 0 hnext] at hsame
  -- Both loops end in the root of `l ++ [x]`, so they have read the same cache.
  have hmeet := (putAccepted_result zero hsame.symm).symm.trans (putAccepted_result zero hok)
  refine ⟨hρ.lastIndex_eq, fun h hh hbit => ?_⟩
  rw [← ht.frontier h hh hbit]
  refine putLeafLoop_inj zero hinj hmeet h hh ?_
  rw [← hindex] at hbit
  exact hbit

end distinguish

/-! ## Runs with rollbacks -/

/-- What can happen to a tree: a committed call, or a rolled back transaction of puts. -/
inductive Action (H : Type) where
  | call (op : Op H)
  | rolledBack (qs : List (Put H))

/-- The state after an action. -/
def State.act (σ : State H) : Action H → State H
  | .call op => σ.apply hash zero op
  | .rolledBack qs => (σ.rolledBack hash zero qs).getD σ

theorem State.act_call (σ : State H) (op : Op H) :
    σ.act hash zero (.call op) = σ.apply hash zero op := rfl

/-- Any call may be made; a rolled back transaction consists of successful puts one after the other
and leaves no trace. -/
def Benign (σ : State H) : Action H → Prop
  | .call _ => True
  | .rolledBack qs => (σ.rolledBack hash zero qs).isSome ∧ Sequential qs ∧
      Harmless hash zero σ qs

section runs

variable {hash} (hinj : Injective2 hash) {σ ρ : State H} {l : List H}
include hinj

omit [DecidableEq H] in
/-- An object holds one list of leaves only. -/
theorem AppendOnlyTree.Holds.unique {t : AppendOnlyTree H} {m : List H}
    (hl : t.Holds hash zero l) (hm : t.Holds hash zero m) (hlen : l.length < 2^32) : l = m := by
  have heq : l.length = m.length := by
    have h1 := hl.lastIndex_eq
    have h2 := hm.lastIndex_eq
    omega
  have hindex : (UInt32.ofNat l.length).toNat = l.length := by
    rw [UInt32.toNat_ofNat']
    omega
  -- Put the same leaf on both lists: the cache is the same, so the roots are.
  have hindex' : (⟨UInt32.ofNat l.length, zero⟩ : Leaf H).index.toNat = l.length := hindex
  have hchild := (putLeafLoop_spec hash zero hl.frontier hindex' le_rfl).1
  have hchild' := (putLeafLoop_spec hash zero hm.frontier (hindex'.trans heq) le_rfl).1
  rw [appendPath_depth hash zero l zero (show l.length < 2^DefaultHeight from hlen)] at hchild
  rw [appendPath_depth hash zero m zero (show m.length < 2^DefaultHeight from heq ▸ hlen)]
    at hchild'
  have hroot := hchild.symm.trans hchild'
  refine eq_of_padded_eq (z := zero) heq fun i hi => ?_
  have hpad := padded_eq_of_root_eq hinj hroot (i := i) (show i < 2^32 by omega)
  rwa [padded_append_left zero l _ hi, padded_append_left zero m _ (heq ▸ hi)] at hpad

omit [DecidableEq H] in
/-- The base leaves of a put are determined. -/
theorem State.BaseLeaves.unique {index : UInt32} {m : List H}
    (hl : σ.BaseLeaves hash zero index l) (hm : σ.BaseLeaves hash zero index m) : l = m := by
  unfold State.BaseLeaves at hl hm
  split_ifs at hl hm with hnext
  · refine hl.unique zero hinj hm ?_
    have hlast := hl.lastIndex_eq
    have hbound := index.toNat_lt
    omega
  · exact hl.unique zero hinj hm

omit hinj [DecidableEq H] in
/-- A put on a sound state has base leaves. -/
theorem State.Sound.exists_baseLeaves (hσ : σ.Sound hash zero) (index : UInt32) :
    ∃ l, σ.BaseLeaves hash zero index l := by
  unfold State.BaseLeaves
  split_ifs with hnext
  · have hbound := index.toNat_lt
    exact hσ.memory.resolve_left fun hnone => hnone (by omega)
  · exact hσ.wf.exists_lastLeaves hash zero

/-- A harmless rollback leaves a twin. -/
theorem State.Sound.twins_of_harmless (hσ : σ.Sound hash zero) {qs : List (Put H)}
    (hseq : Sequential qs) (hharmless : Harmless hash zero σ qs)
    (hρ : σ.rolledBack hash zero qs = some ρ) : Twins hash zero σ ρ := by
  cases qs with
  | nil =>
    obtain rfl : (Tx.begin σ).rollback = ρ := Option.some.inj hρ
    exact ⟨hσ, rfl, .inl rfl⟩
  | cons q qs =>
    obtain ⟨hexpects, hkept⟩ := hharmless
    obtain ⟨l, hl⟩ := hσ.exists_baseLeaves zero q.leaf.index
    obtain ⟨-, hback⟩ := State.rolledBack_spec zero hinj hσ.wf hl hseq hρ
    have hholds := (hback.holds_iff zero hinj).mpr (hkept l hl)
    refine ⟨hσ, hback.store_eq, .inr ?_⟩
    unfold State.BaseLeaves at hl
    split_ifs at hl with hnext
    · exact .inl ⟨l, hl, hholds⟩
    · exact .inr ⟨hexpects.resolve_left hnext, l, hl, hholds⟩

/-- Every state of a run of calls and benign rollbacks is sound. -/
theorem sound_of_run
    (hrun : Reach (State.act hash zero) (Benign hash zero) (State.new zero) σ) :
    σ.Sound hash zero := by
  refine hrun.invariant (P := State.Sound hash zero) ?_ ?_
  · exact ⟨Store.WF.empty hash zero, .inl (by simp [State.new, newAppendOnlyTree,
      AppendOnlyTree.ExpectsNone])⟩
  rintro σ (op | qs) hσ hbenign
  · cases op with
    | putLeaf blockNum blockPosition leaf =>
      exact hσ.putLeaf zero hinj blockNum blockPosition leaf
    | reorg firstReorgedBlock | backwardToIndex targetIndex =>
      exact ⟨hσ.wf.of_subset hash zero rfl filter_sublist.subset, hσ.memory⟩
  · obtain ⟨hsome, hseq, hharmless⟩ := hbenign
    obtain ⟨ρ, hρ⟩ := Option.isSome_iff_exists.mp hsome
    have hT := hσ.twins_of_harmless zero hinj hseq hharmless hρ
    have hact : σ.act hash zero (.rolledBack qs) = ρ := by simp [State.act, hρ]
    rw [hact]
    refine ⟨hT.store_eq ▸ hσ.wf, ?_⟩
    rcases hT.memory with heq | ⟨l, -, hl⟩ | ⟨-, l, -, hl⟩
    · exact heq ▸ hσ.memory
    · exact .inr ⟨l, hl⟩
    · exact .inr ⟨l, hl⟩

/-- In every state that calls and benign rollbacks reach, a rolled back transaction of successful
puts, one after the other by index, cannot be told from none by any later puts exactly when it is harmless: the
object expected its first index or none at all, and its leaves have not replaced a subtree that the
next leaf reads. -/
theorem rollback_invisible_iff
    (hrun : Reach (State.act hash zero) (Benign hash zero) (State.new zero) σ)
    {qs : List (Put H)} (hseq : Sequential qs)
    (hρ : σ.rolledBack hash zero qs = some ρ) :
    Indistinguishable hash zero σ ρ ↔ Harmless hash zero σ qs := by
  have hσ := sound_of_run zero hinj hrun
  refine ⟨fun hI => ?_, fun hharmless =>
    (hσ.twins_of_harmless zero hinj hseq hharmless hρ).indistinguishable zero hinj⟩
  cases qs with
  | nil => trivial
  | cons q qs =>
    obtain ⟨l, hl⟩ := hσ.exists_baseLeaves zero q.leaf.index
    obtain ⟨hindex, hback⟩ := State.rolledBack_spec zero hinj hσ.wf hl hseq hρ
    constructor
    · by_contra hno
      push Not at hno
      obtain ⟨hnext, hexpects⟩ := hno
      have hlast : σ.store.LastLeaves hash zero l := by
        unfold State.BaseLeaves at hl
        rwa [if_neg hnext] at hl
      refine hback.distinguishable_of_rebuilt zero hinj hσ hlast
        (not_not.mp hexpects) ?_ hI
      omega
    · intro m hm
      obtain rfl := hl.unique zero hinj hm
      by_contra hlost
      have hnot := mt (hback.holds_iff zero hinj).mp hlost
      exact hback.distinguishable_of_lost zero hinj hσ hl hindex hnot hI

end runs

/-! ## One leaf and two leaves rolled back -/

/-- A tree with the leaf 7 at index 0, put in block 1. -/
@[irreducible]
def oneLeaf : State Term :=
  (State.new (leaf 0)).apply node (leaf 0) (.putLeaf 1 0 ⟨0, .leaf 7⟩)

theorem oneLeaf_reach :
    Reach (State.act node (leaf 0)) (Benign node (leaf 0))
      (State.new (leaf 0)) oneLeaf := by
  rw [oneLeaf, ← State.act_call]
  exact .step .init trivial

theorem oneLeaf_expects : (((1 : UInt32).toNat : ℕ) : ℤ) = oneLeaf.tree.lastIndex + 1 := by
  decide +kernel

theorem oneLeaf_baseLeaves {l : List Term}
    (hl : oneLeaf.BaseLeaves node (leaf 0) 1 l) : l = [.leaf 7] := by
  have hholds : oneLeaf.tree.Holds node (leaf 0) [.leaf 7] := by
    rw [oneLeaf]
    exact ((Synced.new node (leaf 0)).putLeaf_first injective2_node 1 0 ⟨0, .leaf 7⟩ rfl).1
  have hbase : oneLeaf.BaseLeaves node (leaf 0) 1 [.leaf 7] := by
    unfold State.BaseLeaves
    rwa [if_pos oneLeaf_expects]
  exact hl.unique (leaf 0) injective2_node hbase

/-- A second leaf is put in block 2 and rolled back: no later put shows it. -/
theorem rollback_invisible_iff_one_leaf :
    ∃ ρ, oneLeaf.rolledBack node (leaf 0) [⟨2, 0, ⟨1, .leaf 8⟩⟩] = some ρ ∧
      Indistinguishable node (leaf 0) oneLeaf ρ := by
  obtain ⟨ρ, hρ⟩ : ∃ ρ, oneLeaf.rolledBack node (leaf 0) [⟨2, 0, ⟨1, .leaf 8⟩⟩] = some ρ :=
    Option.isSome_iff_exists.mp (by decide +kernel)
  refine ⟨ρ, hρ, (rollback_invisible_iff (leaf 0) injective2_node oneLeaf_reach
    (by simp [Sequential]) hρ).mpr ⟨.inl oneLeaf_expects, fun l hl => ?_⟩⟩
  obtain rfl := oneLeaf_baseLeaves hl
  -- The subtree at height 0 is leaf 0 before and after, the higher bits of 1 are clear.
  intro h hh hbit j hj
  obtain rfl : h = 0 := by
    by_contra hpos
    rw [length_singleton, Nat.testBit_one_eq_true_iff_self_eq_zero] at hbit
    exact hpos hbit
  obtain rfl : j = 0 := by omega
  rfl

/-- Two leaves are put in block 2 and rolled back: the cache at height 0 has leaf 9 instead of
leaf 7, and the next put at index 1 returns another root. -/
theorem rollback_of_two_leaves_visible :
    ∃ ρ, oneLeaf.rolledBack node (leaf 0)
        [⟨2, 0, ⟨1, .leaf 8⟩⟩, ⟨2, 1, ⟨2, .leaf 9⟩⟩] = some ρ ∧
      ¬Indistinguishable node (leaf 0) oneLeaf ρ := by
  have htold : ((oneLeaf.rolledBack node (leaf 0)
      [⟨2, 0, ⟨1, .leaf 8⟩⟩, ⟨2, 1, ⟨2, .leaf 9⟩⟩]).any fun ρ =>
        (oneLeaf.putLeaves node (leaf 0) [⟨2, 0, ⟨1, .leaf 8⟩⟩]).1 ≠
          (ρ.putLeaves node (leaf 0) [⟨2, 0, ⟨1, .leaf 8⟩⟩]).1) = true := by
    decide +kernel
  obtain ⟨ρ, hρ, hne⟩ := (Option.any_eq_true _ _).mp htold
  exact ⟨ρ, hρ, fun h => of_decide_eq_true hne (h _).1⟩

end AggKit.Tree
