import AggKit.BridgeSync.Invariant
import Mathlib.Data.Prod.Lex

/-!
# Queries on bridges and exit roots

`GetBridges` lists the bridges of a block range by block and position, `GetExitRootByIndex` finds the
root of the exit tree that was stored for a deposit count. Both refuse to answer when the processor
has halted. While bridges and exit tree are in step, the order by block and position is the order of
the deposit counts, and the root found for a deposit count is over the bridges up to it.
-/

namespace AggKit.BridgeSync

open Table List

variable {H : Type}

/-- `BridgeSync.GetBridges`. -/
def Processor.getBridges (p : Processor H) (fromBlock toBlock : ℕ) :
    Except (SyncError H) (List (Bridge H)) :=
  if p.halted then .error .inconsistentState
  else .ok <| orderBy (fun b => toLex b.key) <|
    p.db.bridge.rows.filter fun b => fromBlock ≤ b.blockNum ∧ b.blockNum ≤ toBlock

/-- `BridgeSync.GetExitRootByIndex`; `none` inside is `db.ErrNotFound`. -/
def Processor.getExitRootByIndex [DecidableEq H] (p : Processor H) (index : UInt32) :
    Except (SyncError H) (Option (Tree.Root H)) :=
  if p.halted then .error .inconsistentState
  else .ok (p.exitTree.store.getRootByIndex index)

section consistent

variable {cfg : Config H} {rows : List (Bridge H)} {σ : Tree.State H} {p : Processor H}

/-- In step with the exit tree, the bridges of a block range are listed as they were inserted. -/
theorem Consistent.getBridges (hC : Consistent cfg p.db.bridge.rows σ) (hhalted : p.halted = false)
    (fromBlock toBlock : ℕ) :
    p.getBridges fromBlock toBlock = .ok (p.db.bridge.rows.filter fun b =>
      fromBlock ≤ b.blockNum ∧ b.blockNum ≤ toBlock) := by
  unfold Processor.getBridges
  rw [if_neg (by simp [hhalted])]
  have hsorted : (p.db.bridge.rows.filter fun b =>
      fromBlock ≤ b.blockNum ∧ b.blockNum ≤ toBlock).Pairwise
        fun a b => toLex a.key < toLex b.key := by
    refine (hC.ordered.sublist filter_sublist).imp fun {a b} hbefore => ?_
    rcases hbefore with hlt | ⟨heq, hlt⟩
    · exact Prod.Lex.lt_iff.mpr (.inl hlt)
    · exact Prod.Lex.lt_iff.mpr (.inr ⟨heq, hlt⟩)
  have hall := filter_orderBy_eq (p := fun _ => true)
    (Perm.of_eq (filter_eq_self.mpr fun _ _ => rfl)) hsorted
  rw [filter_eq_self.mpr fun _ _ => rfl] at hall
  rw [hall]

/-- The root found for the deposit count of a bridge is over the bridges up to it. -/
theorem Consistent.getRootByIndex [DecidableEq H] (hC : Consistent cfg rows σ) {index : UInt32}
    (hindex : index.toNat < rows.length) :
    (σ.store.getRootByIndex index).map Tree.Root.hash = some (Merkle.root cfg.keccak.pair
      cfg.keccak.zero Tree.DefaultHeight ((rows.take (index.toNat + 1)).map
        (Bridge.hash cfg.keccak))) := by
  have hroots := hC.roots
  cases hfind : σ.store.getRootByIndex index with
  | none =>
    -- The table has a row for every deposit count.
    have hmem : (index.toNat, Merkle.root cfg.keccak.pair cfg.keccak.zero Tree.DefaultHeight
        ((rows.take (index.toNat + 1)).map (Bridge.hash cfg.keccak))) ∈
        σ.store.root.map (fun r => (r.index.toNat, r.hash)) := by
      rw [hroots]
      exact mem_map.mpr ⟨index.toNat, mem_range.mpr hindex, rfl⟩
    obtain ⟨r, hr, hpair⟩ := mem_map.mp hmem
    have hne := find?_eq_none.mp hfind r hr
    simp only [decide_eq_true_eq] at hne
    exact absurd (UInt32.toNat_inj.mp (Prod.mk.inj hpair).1) hne
  | some r =>
    have hr : r ∈ σ.store.root := mem_of_find?_eq_some hfind
    have hrindex : r.index = index := by simpa using find?_some hfind
    have hmem : (r.index.toNat, r.hash) ∈ σ.store.root.map (fun r => (r.index.toNat, r.hash)) :=
      mem_map_of_mem hr
    rw [hroots] at hmem
    obtain ⟨k, -, hpair⟩ := mem_map.mp hmem
    obtain ⟨hk, hhash⟩ := Prod.mk.inj hpair
    rw [hrindex] at hk
    rw [Option.map_some, ← hhash, hk]

end consistent

end AggKit.BridgeSync
