import AggKit.L1InfoTreeSync.Consistent

/-!
# Batches of blocks

A batch is processed event by event. It succeeds exactly when every event can be processed; otherwise
the leaves of the events before the first that cannot have been put into the L1 info tree, and the
rollback has to take them back. The object in memory then has the index it had before, and a cache
that is only right where the leaves put did not reach beyond the subtrees the next leaf needs.
-/

namespace AggKit.L1InfoTreeSync

open Merkle Tree Exec List Content

variable {H : Type} [DecidableEq H] {K : Keccak H} {σ : State H} {n : ℕ} {c : Content H} {tx : Tx H}

/-- Events were processed as the content says: all of them, or those before the first that cannot be,
whose leaves were put. -/
def Ends (K : Keccak H) (σ : State H) (n : ℕ) (tx : Tx H) (block : List (ℕ × H)) (c : Content H)
    (ss : List (Step H)) (result : EStateM.Result (SyncError H) (Tx H) Unit) : Prop :=
  match c.applyAll K ss with
  | some c' => ∃ tx', result = .ok () tx' ∧ tx'.Holds K σ n c' ∧ tx'.db.block = block ∧
      tx'.halted = tx.halted
  | none => ∃ err tx', result = .error err tx' ∧
      (Tree.Tx.begin σ).putLeaves K.pair K.zero
        (((c.reach K ss).infos.drop n).map L1InfoTreeLeaf.put) = some tx'.l1InfoTree

/-- Events come in order and do not overflow the L1 info tree. -/
structure Sorted (ss : List (Step H)) : Prop where
  before : ss.Pairwise Step.before
  capacity : ss.countP Step.isUpdate ≤ 2^32

variable (hinj : Function.Injective2 K.pair) (hzero : ∀ l : L1InfoTreeLeaf H, l.getHash K ≠ K.zero)
include hinj hzero

variable {done : List (Step H)}

/-- The events of a block. -/
theorem processParts_spec (hdone : (empty K).applyAll K done = some c) (h : tx.Holds K σ n c)
    {blockNum : ℕ} {parts : List (EventPart H)}
    (hsorted : Sorted (done ++ parts.map fun e => (blockNum, e))) :
    Ends K σ n tx tx.db.block c (parts.map fun e => (blockNum, e))
      (processParts K blockNum (UInt32.ofNat c.infos.length) parts tx) := by
  induction parts generalizing c tx done with
  | nil => exact ⟨tx, rfl, h, rfl, rfl⟩
  | cons e es ih =>
    have hsplit : done ++ (e :: es).map (fun e => (blockNum, e)) =
        (done ++ [(blockNum, e)]) ++ es.map fun e => (blockNum, e) := by simp
    have hbefore : c.Before (blockNum, e) := by
      refine (Grows.of_applyAll hdone).before fun t ht => ?_
      exact (pairwise_append.mp hsorted.before).2.2 t ht _ (by simp)
    have hlen : Step.isUpdate (blockNum, e) = true → c.infos.length < 2^32 := by
      intro hupdate
      have hcount := length_infos hdone
      have hcap := hsorted.capacity
      rw [map_cons, countP_append, countP_cons, if_pos hupdate] at hcap
      simp only [empty, length_nil] at hcount
      omega
    have hpart := processPart_spec hinj hzero h hbefore hlen
    unfold Ends
    rw [map_cons, applyAll, reach, processParts]
    cases happly : c.apply K (blockNum, e) with
    | none =>
      rw [happly] at hpart
      obtain ⟨err, tx', herr, htree⟩ := hpart
      exact ⟨err, tx', bind_of_error herr, htree ▸ h.puts⟩
    | some c1 =>
      rw [happly] at hpart
      obtain ⟨tx1, hok, h1, hblock, hhalted⟩ := hpart
      have hdone1 : (empty K).applyAll K (done ++ [(blockNum, e)]) = some c1 := by
        rw [applyAll_concat, hdone]
        exact happly
      have hrest := ih hdone1 h1 (hsplit ▸ hsorted)
      unfold Ends at hrest
      rw [bind_of_ok hok]
      rw [hblock, hhalted] at hrest
      exact hrest

omit hinj hzero in
/-- The leaves are in the order of their keys. -/
theorem Tx.Holds.pairwise_key (h : tx.Holds K σ n c) :
    c.infos.Pairwise fun a b => a.key < b.key := by
  have hordered := h.synced.ordered
  unfold Tree.Ordered visible at hordered
  rw [pairwise_map] at hordered
  refine hordered.imp fun {a b} hab => ?_
  have hlt : a.blockNumber < b.blockNumber ∨
    a.blockNumber = b.blockNumber ∧ a.blockPosition < b.blockPosition := hab
  exact Prod.Lex.toLex_lt_toLex.mpr hlt

/-- One block, of a number that is not stored. -/
theorem processBlockTx_spec (hdone : (empty K).applyAll K done = some c) (h : tx.Holds K σ n c)
    {block : Block H} (hfresh : ∀ r ∈ tx.db.block, r.1 ≠ block.num)
    (hsorted : Sorted (done ++ block.steps)) :
    Ends K σ n tx (tx.db.block ++ [(block.num, block.hash)]) c block.steps
      (processBlockTx K block tx) := by
  let tx1 : Tx H := { tx with
    db := { tx.db with block := tx.db.block ++ [(block.num, block.hash)] } }
  have hinsert : ((Table.insert Prod.fst tx.db.block (block.num, block.hash)).map fun rows =>
      { tx.db with block := rows }) = some tx1.db := by
    rw [Table.insert_of_fresh hfresh]
    rfl
  have h1 : tx1.Holds K σ n c :=
    ⟨h.wf, h.infos, h.verified, h.initial, h.synced, h.updated, h.le, h.puts⟩
  have hindex : tx1.db.initialL1InfoIndex = UInt32.ofNat c.infos.length :=
    h.wf.initialL1InfoIndex h.infos h.pairwise_key
  have hparts := processParts_spec hinj hzero hdone h1 hsorted
  have hrun : processBlockTx K block tx =
      processParts K block.num (UInt32.ofNat c.infos.length) block.parts tx1 := by
    rw [← hindex]
    exact (bind_of_ok (execute_of_some hinsert)).trans
      (bind_of_ok (get_eq_ok_iff.mpr ⟨rfl, rfl⟩))
  rw [hrun]
  exact hparts

/-- Several blocks, of increasing numbers that are not stored. -/
theorem processBlocksTx_spec (hdone : (empty K).applyAll K done = some c) (h : tx.Holds K σ n c)
    {blocks : List (Block H)} (hfresh : ∀ r ∈ tx.db.block, ∀ b ∈ blocks, r.1 < b.num)
    (hnums : blocks.Pairwise fun a b => a.num < b.num) (hsorted : Sorted (done ++ steps blocks)) :
    Ends K σ n tx (tx.db.block ++ blocks.map fun b => (b.num, b.hash)) c (steps blocks)
      (processBlocksTx K blocks tx) := by
  induction blocks generalizing c tx done with
  | nil => exact ⟨tx, rfl, h, by simp, rfl⟩
  | cons b bs ih =>
    obtain ⟨hb, hbs⟩ := pairwise_cons.mp hnums
    have hassoc : done ++ steps (b :: bs) = (done ++ b.steps) ++ steps bs := by simp
    have hsorted' : Sorted ((done ++ b.steps) ++ steps bs) := hassoc ▸ hsorted
    have hfirst : Sorted (done ++ b.steps) := by
      refine ⟨(pairwise_append.mp hsorted'.before).1, ?_⟩
      have hcap := hsorted'.capacity
      rw [countP_append] at hcap
      omega
    have hblock := processBlockTx_spec hinj hzero hdone h
      (fun r hr => (hfresh r hr b mem_cons_self).ne) hfirst
    unfold Ends at hblock ⊢
    rw [steps_cons, applyAll_append, processBlocksTx]
    cases hc : c.applyAll K b.steps with
    | none =>
      rw [hc] at hblock
      obtain ⟨err, tx', herr, hputs⟩ := hblock
      rw [reach_append_of_none hc]
      exact ⟨err, tx', bind_of_error herr, hputs⟩
    | some c1 =>
      rw [hc] at hblock
      obtain ⟨tx1, hok, h1, hrows, hhalted⟩ := hblock
      have hdone1 : (empty K).applyAll K (done ++ b.steps) = some c1 := by
        rw [applyAll_append, hdone]
        exact hc
      have hfresh1 : ∀ r ∈ tx1.db.block, ∀ b' ∈ bs, r.1 < b'.num := by
        intro r hr b' hb'
        rw [hrows] at hr
        rcases mem_append.mp hr with hr | hr
        · exact hfresh r hr b' (mem_cons_of_mem b hb')
        · rw [mem_singleton.mp hr]
          exact hb b' hb'
      have hrest := ih hdone1 h1 hfresh1 hbs hsorted'
      unfold Ends at hrest
      rw [hrows, hhalted, append_assoc] at hrest
      rw [bind_of_ok hok, reach_append hc]
      exact hrest

end AggKit.L1InfoTreeSync
