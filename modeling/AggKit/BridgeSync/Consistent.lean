import AggKit.BridgeSync.Spec

/-!
# Bridges in step with the exit tree

`Consistent` says that the bridge table lists the leaves of the exit tree: deposit counts count up
from zero in insertion order, and the tree is the one over the hashes of the bridges
(`Tree.Synced`). The handlers keep it as long as a bridge is added at the number of bridges stored
and after all of them in block order.

What a handler does to the tables then is said once for each kind of event by `EventPart.Effect`;
everything that is proved about runs of the processor starts from there.
-/

namespace AggKit.BridgeSync

open Table List

variable {H : Type}

/-- The leaf of a bridge. -/
def Bridge.visible (K : Keccak H) (b : Bridge H) : Tree.Visible H :=
  ⟨b.hash K, b.blockNum, b.blockPos⟩

/-- The bridge is of an earlier block or position. -/
def Bridge.before (b : Bridge H) (blockNum blockPos : ℕ) : Prop :=
  b.blockNum < blockNum ∨ (b.blockNum = blockNum ∧ b.blockPos < blockPos)

/-- A bridge after all others, of a block that is there, can be inserted. -/
theorem exists_insertInto_bridge {block : List (ℕ × H)} {t : Keyed (Bridge.key (H := H))}
    {b : Bridge H} (hbefore : ∀ a ∈ t.rows, a.before b.blockNum b.blockPos)
    (hblock : ∃ r ∈ block, r.1 = b.blockNum) :
    ∃ t', insertInto .bridge block t b.blockNum b = .ok t' := by
  have hfresh : ∀ a ∈ t.rows, a.key ≠ b.key := by
    intro a ha hkey
    obtain ⟨hnum, hpos⟩ := Prod.mk.inj hkey
    rcases hbefore a ha with hlt | ⟨-, hlt⟩ <;> omega
  obtain ⟨t', -, hrows⟩ := Keyed.exists_insert hfresh
  exact ⟨t', insertInto_eq_ok_iff.mpr ⟨⟨hfresh, hrows⟩, hblock⟩⟩

/-- The rows of the bridge table are the leaves of the exit tree, in order. A leaf that equals the
zero leaf can only be the first: the root of a later one is in the root table already. -/
structure Consistent (cfg : Config H) (rows : List (Bridge H)) (σ : Tree.State H) : Prop where
  counts : rows.map (fun b => b.depositCount.toNat) = List.range rows.length
  synced : Tree.Synced cfg.keccak.pair cfg.keccak.zero σ (rows.map (Bridge.visible cfg.keccak))
  nonzero : ∀ b ∈ rows.tail, b.hash cfg.keccak ≠ cfg.keccak.zero

/-- The deposit counts of the rows count up from zero. -/
abbrev CountsUp (rows : List (Bridge H)) : Prop :=
  rows.map (fun b => b.depositCount.toNat) = List.range rows.length

variable {rows : List (Bridge H)} {b : Bridge H} {n : ℕ}

section

variable (hcounts : CountsUp rows)
include hcounts

theorem depositCount_of_mem_take (hb : b ∈ rows.take n) : b.depositCount.toNat < n := by
  have hmem : b.depositCount.toNat ∈ (rows.take n).map (fun b => b.depositCount.toNat) :=
    mem_map_of_mem hb
  rw [map_take, hcounts, take_range, mem_range] at hmem
  omega

/-- Rows from a count on have at least that deposit count, and less than the number of rows. -/
theorem depositCount_of_mem_drop (hb : b ∈ rows.drop n) :
    n ≤ b.depositCount.toNat ∧ b.depositCount.toNat < rows.length := by
  have hmem : b.depositCount.toNat ∈ (rows.drop n).map (fun b => b.depositCount.toNat) :=
    mem_map_of_mem hb
  rw [map_drop, hcounts, range_eq_range', drop_range', mem_range'_1] at hmem
  omega

/-- Rows that count up from zero, up to a count. -/
theorem deleteWhere_le_eq_take (n : ℕ) :
    Table.deleteWhere (fun b => decide (n ≤ b.depositCount.toNat)) rows = rows.take n := by
  conv_lhs => rw [← take_append_drop n rows]
  exact Table.deleteWhere_append_left
    (fun b hb => decide_eq_false (depositCount_of_mem_take hcounts hb).not_ge)
    fun b hb => decide_eq_true (depositCount_of_mem_drop hcounts hb).1

/-- Rows that count up from zero, from a count on. -/
theorem filter_le_eq_drop (n : ℕ) :
    rows.filter (fun b => decide (n ≤ b.depositCount.toNat)) = rows.drop n := by
  conv_lhs => rw [← take_append_drop n rows]
  exact Table.filter_append_right
    (fun b hb => decide_eq_false (depositCount_of_mem_take hcounts hb).not_ge)
    fun b hb => decide_eq_true (depositCount_of_mem_drop hcounts hb).1

/-- An initial segment of rows that count up. -/
theorem counts_take (n : ℕ) : CountsUp (rows.take n) := by
  rw [CountsUp, map_take, hcounts, length_take, take_range]

end

section consistent

variable {cfg : Config H} {rows : List (Bridge H)} {σ σ' : Tree.State H}

/-- The deposit count of a row is its place. -/
theorem Consistent.depositCount_eq (hC : Consistent cfg rows σ) {i : ℕ} (hi : i < rows.length) :
    rows[i].depositCount.toNat = i := by
  have hget := congrArg (fun l => l[i]?) hC.counts
  simpa [hi] using hget

/-- The root table: one root for each deposit count, over the bridges up to it. -/
theorem Consistent.roots (hC : Consistent cfg rows σ) :
    σ.store.root.map (fun r => (r.index.toNat, r.hash)) =
      (List.range rows.length).map fun k => (k, Merkle.root cfg.keccak.pair cfg.keccak.zero
        Tree.DefaultHeight ((rows.take (k + 1)).map (Bridge.hash cfg.keccak))) := by
  have hleaves : Tree.leaves (rows.map (Bridge.visible cfg.keccak)) =
      rows.map (Bridge.hash cfg.keccak) := by
    unfold Tree.leaves
    rw [map_map]
    rfl
  have hlen := hC.synced.length_le
  rw [length_map] at hlen
  rw [hC.synced.rows]
  unfold Tree.rowsOf
  refine ext_getElem (by simp) fun i hi _ => ?_
  have hi' : i < rows.length := by simpa using hi
  have hindex : (UInt32.ofNat i).toNat = i := UInt32.toNat_ofNat_of_lt' (hi'.trans_le hlen)
  simp only [getElem_map, getElem_mapIdx, getElem_range, hindex, hleaves,
    map_take]

theorem Consistent.nodup_depositCount (hC : Consistent cfg rows σ) :
    (rows.map Bridge.depositCount).Nodup := by
  refine List.Nodup.of_map UInt32.toNat ?_
  rw [map_map]
  exact (congrArg List.Nodup hC.counts).mpr nodup_range

theorem Consistent.ordered (hC : Consistent cfg rows σ) :
    rows.Pairwise fun a b => a.before b.blockNum b.blockPos :=
  pairwise_map.mp hC.synced.ordered

/-- An initial segment of the rows, with the tree over it. -/
theorem Consistent.take (hC : Consistent cfg rows σ) (n : ℕ)
    (hsynced : Tree.Synced cfg.keccak.pair cfg.keccak.zero σ'
      ((rows.map (Bridge.visible cfg.keccak)).take n)) : Consistent cfg (rows.take n) σ' where
  counts := counts_take hC.counts n
  synced := by rwa [map_take]
  nonzero := by
    intro b hb
    exact hC.nonzero b ((take_sublist n rows).tail.subset hb)

/-- What `insertBackwardLET` does to the exit tree. -/
theorem Consistent.cut (hC : Consistent cfg rows σ) {n : ℕ} (hn : n < 2^32) :
    Consistent cfg (rows.take n) ⟨σ.tree, if UInt32.ofNat n = 0 then σ.store.reorg 0
      else σ.store.backwardToIndex (UInt32.ofNat n - 1)⟩ := by
  have htoNat : (UInt32.ofNat n).toNat = n := UInt32.toNat_ofNat_of_lt' hn
  rcases Nat.eq_zero_or_pos n with rfl | hpos
  · refine hC.take 0 ?_
    have hsynced := hC.synced.reorg _ _ 0
    have hnone : Tree.reorgVisible (rows.map (Bridge.visible cfg.keccak)) 0 = [] := by
      simp [Tree.reorgVisible]
    rw [hnone] at hsynced
    rwa [if_pos (show UInt32.ofNat 0 = 0 from rfl), take_zero]
  · have hne : UInt32.ofNat n ≠ 0 := fun h => by
      rw [h, UInt32.toNat_zero] at htoNat
      omega
    have hle : (1 : UInt32) ≤ UInt32.ofNat n := by
      rw [UInt32.le_iff_toNat_le, htoNat, UInt32.toNat_one]
      exact hpos
    have hsynced := hC.synced.backwardToIndex _ _ (UInt32.ofNat n - 1)
    unfold Tree.backwardVisible at hsynced
    rw [UInt32.toNat_sub_of_le _ _ hle, htoNat, UInt32.toNat_one, Nat.sub_add_cancel hpos]
      at hsynced
    rw [if_neg hne]
    exact hC.take n hsynced

/-- Deleting the rows of late blocks leaves an initial segment. -/
theorem Consistent.reorg (hC : Consistent cfg rows σ) (firstReorgedBlock : ℕ) :
    Consistent cfg (Table.deleteWhere (fun b => decide (firstReorgedBlock ≤ b.blockNum)) rows)
      ⟨σ.tree, σ.store.reorg firstReorgedBlock⟩ := by
  obtain ⟨n, hn⟩ : ∃ n, Table.deleteWhere
      (fun b => decide (firstReorgedBlock ≤ b.blockNum)) rows = rows.take n := by
    refine Table.exists_deleteWhere_eq_take (hC.ordered.imp fun {a b} hbefore hlate => ?_)
    rw [decide_eq_true_eq] at hlate ⊢
    rcases hbefore with hlt | ⟨heq, -⟩ <;> omega
  have hsynced := hC.synced.reorg _ _ firstReorgedBlock
  have hvisible : Tree.reorgVisible (rows.map (Bridge.visible cfg.keccak)) firstReorgedBlock =
      (rows.map (Bridge.visible cfg.keccak)).take n := by
    rw [← map_take, ← hn]
    unfold Tree.reorgVisible Table.deleteWhere
    rw [filter_map]
    refine congrArg _ (filter_congr fun b _ => ?_)
    by_cases hlate : firstReorgedBlock ≤ b.blockNum
    · simp [Bridge.visible, hlate, Nat.not_lt.mpr hlate]
    · simp [Bridge.visible, hlate, Nat.lt_of_not_le hlate]
  rw [hvisible] at hsynced
  rw [hn]
  exact hC.take n hsynced

variable [DecidableEq H] (hinj : Function.Injective2 cfg.keccak.pair)
include hinj

/-- A bridge at the number of rows and after all of them: its leaf is accepted unless it is a zero
leaf after others, and then the rows with the bridge are in step with the tree. -/
theorem Consistent.append (hC : Consistent cfg rows σ) {b : Bridge H}
    (hcount : b.depositCount.toNat = rows.length)
    (hbefore : ∀ a ∈ rows, a.before b.blockNum b.blockPos) :
    let o := Tree.putLeaf cfg.keccak.pair cfg.keccak.zero σ.tree σ.store b.blockNum b.blockPos
      ⟨b.depositCount, b.hash cfg.keccak⟩
    ((∃ r, o.result = .ok r) ↔ ¬(b.hash cfg.keccak = cfg.keccak.zero ∧ rows ≠ [])) ∧
      ((∃ r, o.result = .ok r) → Consistent cfg (rows ++ [b]) ⟨o.tree, o.store⟩) := by
  have hput := hC.synced.putLeaf cfg.keccak.zero hinj
    (show (⟨b.depositCount, b.hash cfg.keccak⟩ : Tree.Leaf H).index.toNat = _ by
      rw [length_map, hcount])
    (show ∀ e ∈ rows.map (Bridge.visible cfg.keccak), e.before b.blockNum b.blockPos by
      intro e he
      obtain ⟨a, ha, rfl⟩ := mem_map.mp he
      exact hbefore a ha)
  have hnil : rows.map (Bridge.visible cfg.keccak) ≠ [] ↔ rows ≠ [] := not_congr map_eq_nil_iff
  rw [hnil] at hput
  intro o
  rcases hput with ⟨hzero, hresult, -⟩ | ⟨hnonzero, hresult, -, hsynced⟩
  · have hfails : ¬∃ r, o.result = .ok r := by
      rintro ⟨r, hr⟩
      rw [hresult] at hr
      cases hr
    exact ⟨⟨fun hok => absurd hok hfails, fun hok => absurd hzero hok⟩,
      fun hok => absurd hok hfails⟩
  · refine ⟨⟨fun _ => hnonzero, fun _ => ⟨_, hresult⟩⟩, fun _ => ⟨?_, ?_, ?_⟩⟩
    · rw [map_append, hC.counts, length_append, length_singleton, range_succ,
        map_singleton, hcount]
    · rw [map_append, map_singleton]
      exact hsynced
    · intro a ha
      cases rows with
      | nil => simp at ha
      | cons r rows =>
        rcases mem_append.mp ha with ha | ha
        · exact hC.nonzero a ha
        · rw [mem_singleton.mp ha]
          exact fun hz => hnonzero ⟨hz, cons_ne_nil _ _⟩

end consistent

end AggKit.BridgeSync
