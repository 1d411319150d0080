import AggKit.BridgeSync.Effect

/-!
# What a reorg restores

`Reorg` brings back bridges that a `BackwardLET` of a deleted block had archived. It goes through the
deleted `BackwardLET` events in order, and for each through the archive from its new to its previous
deposit count; `restoredBridges` lists the rows it comes by, leaving out those of deleted blocks. The
rows are put one by one, so they have to go on where the remaining bridges end (`Continues`):
`restoreBackwardLETBridges_spec` and `exists_restoreBackwardLETBridges` say what a reorg does then
and that it succeeds.
-/

namespace AggKit.BridgeSync

open Table List Exec

variable {H : Type}

/-- A bridge as it is restored. -/
def Bridge.restore (b : Bridge H) : Bridge H := { b with source := .none }

/-- The rows from the new to the previous deposit count of the event. -/
def BackwardLET.covers (e : BackwardLET H) : Bridge H → Bool :=
  Bridge.inInterval e.newDepositCount e.previousDepositCount

/-- The rows that come back for the deleted `BackwardLET` events, from an archive. -/
def restoredBridges (firstReorgedBlock : ℕ) :
    List (BackwardLET H) → List (Bridge H) → List (Bridge H)
  | [], _ => []
  | e :: es, archive =>
    ((orderBy (fun b => b.depositCount.toNat) (archive.filter e.covers)).filter
      fun b => decide (b.blockNum < firstReorgedBlock)).map Bridge.restore ++
      restoredBridges firstReorgedBlock es (Table.deleteWhere e.covers archive)

/-- The added rows go on where the rows end, in deposit counts and in block order. -/
structure Continues (rows added : List (Bridge H)) : Prop where
  counts : (rows ++ added).map (fun b => b.depositCount.toNat) = List.range (rows ++ added).length
  ordered : (rows ++ added).Pairwise fun a b => a.before b.blockNum b.blockPos

/-- The first added row is the next one. -/
theorem Continues.next {rows added : List (Bridge H)} {b : Bridge H}
    (hadd : Continues rows (b :: added)) :
    b.depositCount.toNat = rows.length ∧ (∀ a ∈ rows, a.before b.blockNum b.blockPos) ∧
      Continues (rows ++ [b]) added := by
  refine ⟨?_, ?_, ?_, ?_⟩
  · have hget := congrArg (fun l => l[rows.length]?) hadd.counts
    simpa using hget
  · intro a ha
    exact (pairwise_append.mp hadd.ordered).2.2 a ha b (.head _)
  · rw [append_assoc, singleton_append]
    exact hadd.counts
  · rw [append_assoc, singleton_append]
    exact hadd.ordered

/-- Rows that continue the bridges, in two parts. -/
theorem Continues.append {rows added added' : List (Bridge H)}
    (hadd : Continues rows (added ++ added')) :
    Continues rows added ∧ Continues (rows ++ added) added' := by
  have hrest : Continues (rows ++ added) added' := by
    refine ⟨?_, ?_⟩ <;> rw [append_assoc]
    · exact hadd.counts
    · exact hadd.ordered
  refine ⟨⟨?_, (pairwise_append.mp hrest.ordered).1⟩, hrest⟩
  have htake := congrArg (List.take (rows ++ added).length) hrest.counts
  rw [← map_take, take_left, take_range] at htake
  have hlength : (rows ++ added).length ≤ (rows ++ added ++ added').length := by simp
  rwa [Nat.min_eq_left hlength] at htake

section restore

variable [DecidableEq H] {cfg : Config H} (hinj : Function.Injective2 cfg.keccak.pair)
  {firstReorgedBlock : ℕ} {removed : List UInt32} {tx tx' : Tx H}

/-- The rows of an archive part that are not of a deleted block, as they are restored. -/
def restorable (removed : List UInt32) (bridges : List (Bridge H)) : List (Bridge H) :=
  (bridges.filter fun b => decide (b.depositCount ∉ removed)).map Bridge.restore

variable {b : Bridge H} {u : Unit}

theorem restoreBridge_eq_ok_iff :
    restoreBridge cfg b tx = .ok u tx' ↔
      ∃ t, insertInto .bridge tx.db.block tx.db.bridge b.blockNum b = .ok t ∧
        (∃ h, (tx.put cfg b.blockNum b.blockPos ⟨b.depositCount, b.hash cfg.keccak⟩).result =
          .ok h) ∧
        tx' = { tx with db := { tx.db with bridge := t } }.afterPut
          (tx.put cfg b.blockNum b.blockPos ⟨b.depositCount, b.hash cfg.keccak⟩) := by
  unfold restoreBridge
  simp only [bind_eq_ok_iff, execute_eq_ok_iff, putLeaf_eq_ok_iff]
  constructor
  · rintro ⟨_, _, ⟨db, hdb, rfl⟩, hresult, rfl⟩
    obtain ⟨t, ht, rfl⟩ := map_eq_ok_iff.mp hdb
    exact ⟨t, ht, hresult, rfl⟩
  · rintro ⟨t, ht, hresult, rfl⟩
    exact ⟨(), _, ⟨_, map_eq_ok_iff.mpr ⟨t, ht, rfl⟩, rfl⟩, hresult, rfl⟩

variable {bridges : List (Bridge H)}

omit [DecidableEq H] in
theorem restorable_cons : restorable removed (b :: bridges) =
    if b.depositCount ∈ removed then restorable removed bridges
    else b.restore :: restorable removed bridges := by
  unfold restorable
  split_ifs with hb <;> simp [hb]

include hinj

/-- Rows that continue the bridges are restored in order. -/
theorem restoreBridges_spec (hC : Consistent cfg tx.db.bridge.rows tx.treeState)
    (hadd : Continues tx.db.bridge.rows (restorable removed bridges))
    (hok : restoreBridges cfg removed bridges tx = .ok u tx') :
    ∃ t, t.rows = tx.db.bridge.rows ++ restorable removed bridges ∧
      tx'.db = { tx.db with bridge := t } ∧ Consistent cfg t.rows tx'.treeState := by
  induction bridges generalizing tx with
  | nil =>
    obtain ⟨-, rfl⟩ := pure_eq_ok_iff.mp hok
    exact ⟨tx.db.bridge, (append_nil _).symm, rfl, hC⟩
  | cons b bridges ih =>
    unfold restoreBridges at hok
    split_ifs at hok with hremoved
    · rw [restorable_cons, if_pos hremoved] at hadd ⊢
      exact ih hC hadd hok
    · rw [restorable_cons, if_neg hremoved] at hadd ⊢
      obtain ⟨_, tx1, hfirst, hrest⟩ := bind_eq_ok_iff.mp hok
      obtain ⟨hcount, hbefore, hadd'⟩ := hadd.next
      obtain ⟨t, ht, hresult, rfl⟩ := restoreBridge_eq_ok_iff.mp hfirst
      have hrows : t.rows = tx.db.bridge.rows ++ [b.restore] := (insertInto_eq_ok_iff.mp ht).1.2
      have hC' := (hC.append hinj hcount hbefore).2 hresult
      rw [← hrows] at hC' hadd'
      obtain ⟨t', ht', hdb, hC''⟩ := ih hC' hadd' hrest
      refine ⟨t', ?_, hdb, hC''⟩
      rw [ht']
      change t.rows ++ _ = _
      rw [hrows, append_assoc, singleton_append]

/-- Rows that continue the bridges can be restored when their blocks are there. -/
theorem exists_restoreBridges (hC : Consistent cfg tx.db.bridge.rows tx.treeState)
    (hadd : Continues tx.db.bridge.rows (restorable removed bridges))
    (hblock : ∀ b ∈ restorable removed bridges, ∃ r ∈ tx.db.block, r.1 = b.blockNum)
    (hnonzero : ∀ b ∈ (tx.db.bridge.rows ++ restorable removed bridges).tail,
      b.hash cfg.keccak ≠ cfg.keccak.zero) :
    ∃ tx', restoreBridges cfg removed bridges tx = .ok () tx' := by
  induction bridges generalizing tx with
  | nil => exact ⟨tx, rfl⟩
  | cons b bridges ih =>
    unfold restoreBridges
    split_ifs with hremoved
    · rw [restorable_cons, if_pos hremoved] at hadd hblock hnonzero
      exact ih hC hadd hblock hnonzero
    · rw [restorable_cons, if_neg hremoved] at hadd hblock hnonzero
      obtain ⟨hcount, hbefore, hadd'⟩ := hadd.next
      obtain ⟨t, hins⟩ := exists_insertInto_bridge hbefore (hblock _ (.head _))
      have hrows : t.rows = tx.db.bridge.rows ++ [b.restore] := (insertInto_eq_ok_iff.mp hins).1.2
      obtain ⟨hresult_iff, hC'⟩ := hC.append hinj hcount hbefore
      have hresult := hresult_iff.mpr (by
        rintro ⟨hzero, hne⟩
        refine hnonzero b.restore ?_ hzero
        rw [tail_append_of_ne_nil hne]
        exact mem_append_right _ (.head _))
      have hC' := hC' hresult
      rw [← hrows] at hC' hadd'
      rw [← singleton_append, ← append_assoc, ← hrows] at hnonzero
      obtain ⟨tx', htx'⟩ := @ih ({ tx with db := { tx.db with bridge := t } }.afterPut _) hC' hadd'
        (fun a ha => hblock a (.tail _ ha)) hnonzero
      exact ⟨tx', bind_eq_ok_iff.mpr
        ⟨(), _, restoreBridge_eq_ok_iff.mpr ⟨t, hins, hresult, rfl⟩, htx'⟩⟩

omit hinj [DecidableEq H] in
/-- A row is skipped for its deposit count if and only if its block is deleted. -/
theorem restorable_orderBy {archive : List (Bridge H)}
    (hremoved : ∀ b ∈ archive, b.depositCount ∈ removed ↔ firstReorgedBlock ≤ b.blockNum)
    (inside : Bridge H → Bool) :
    restorable removed (orderBy (fun b => b.depositCount.toNat) (archive.filter inside)) =
      ((orderBy (fun b => b.depositCount.toNat) (archive.filter inside)).filter
        fun b => decide (b.blockNum < firstReorgedBlock)).map Bridge.restore := by
  refine congrArg _ (filter_congr fun b hb => ?_)
  have hb' := mem_of_mem_filter (mem_orderBy.mp hb)
  rw [decide_eq_decide, hremoved b hb', not_le]

/-- The archive without the intervals of the events. -/
def outside (es : List (BackwardLET H)) (archive : List (Bridge H)) : List (Bridge H) :=
  archive.filter fun b => !es.any fun e => e.covers b

omit hinj [DecidableEq H] in
theorem outside_cons (e : BackwardLET H) (es : List (BackwardLET H)) (archive : List (Bridge H)) :
    outside es (Table.deleteWhere e.covers archive) = outside (e :: es) archive := by
  unfold outside Table.deleteWhere
  rw [filter_filter]
  refine filter_congr fun b _ => ?_
  rw [any_cons, Bool.not_or, Bool.and_comm]

variable {es : List (BackwardLET H)} (hC : Consistent cfg tx.db.bridge.rows tx.treeState)
  (hremoved : es ≠ [] → ∀ b ∈ tx.db.bridgeArchive.rows,
    b.depositCount ∈ removed ↔ firstReorgedBlock ≤ b.blockNum)
  (hadd : Continues tx.db.bridge.rows
    (restoredBridges firstReorgedBlock es tx.db.bridgeArchive.rows))

include hC hremoved hadd

/-- `restoreBackwardLETBridges` on rows that continue the bridges. -/
theorem restoreBackwardLETBridges_spec
    (hok : restoreBackwardLETBridges cfg removed es tx = .ok u tx') :
    ∃ t a, t.rows = tx.db.bridge.rows ++
        restoredBridges firstReorgedBlock es tx.db.bridgeArchive.rows ∧
      a.rows = outside es tx.db.bridgeArchive.rows ∧
      tx'.db = { tx.db with bridge := t, bridgeArchive := a } ∧
      Consistent cfg t.rows tx'.treeState := by
  induction es generalizing tx with
  | nil =>
    obtain ⟨-, rfl⟩ := pure_eq_ok_iff.mp hok
    exact ⟨tx.db.bridge, tx.db.bridgeArchive, (append_nil _).symm, by simp [outside], rfl, hC⟩
  | cons e es ih =>
    unfold restoreBackwardLETBridges at hok
    simp only [bind_eq_ok_iff, orThrow_eq_ok_iff, get_eq_ok_iff,
      execute_eq_ok_iff] at hok
    obtain ⟨prev, _, ⟨hprev, rfl⟩, next, tx, ⟨hnext, rfl⟩, _, _, ⟨rfl, rfl⟩, _, ⟨db1, tree1, halted1⟩,
      hrows, _, _, ⟨db, hdb, rfl⟩, hrest⟩ := hok
    obtain ⟨-, rfl⟩ := safeUint64_eq_ok_iff.mp hprev
    obtain ⟨-, rfl⟩ := safeUint64_eq_ok_iff.mp hnext
    cases hdb
    have hremoved := hremoved (cons_ne_nil _ _)
    unfold restoredBridges at hadd ⊢
    rw [← restorable_orderBy hremoved] at hadd ⊢
    obtain ⟨hadd1, hadd2⟩ := hadd.append
    obtain ⟨t, ht, hdb1, hC'⟩ := restoreBridges_spec hinj hC hadd1 hrows
    subst hdb1
    rw [← ht] at hadd2
    obtain ⟨t', a, ht', ha, hdb', hC''⟩ := ih hC'
      (fun _ b hb => hremoved b (mem_of_mem_filter hb)) hadd2 hrest
    refine ⟨t', a, ?_, ?_, hdb', hC''⟩
    · rw [← append_assoc, ← ht]
      exact ht'
    · rw [ha]
      exact outside_cons e es _

/-- `restoreBackwardLETBridges` succeeds on rows that continue the bridges and whose blocks are
there. -/
theorem exists_restoreBackwardLETBridges
    (hcounts : ∀ e ∈ es, e.previousDepositCount < 2^64 ∧ e.newDepositCount < 2^64)
    (hblock : ∀ b ∈ restoredBridges firstReorgedBlock es tx.db.bridgeArchive.rows,
      ∃ r ∈ tx.db.block, r.1 = b.blockNum)
    (hnonzero : ∀ b ∈ (tx.db.bridge.rows ++
      restoredBridges firstReorgedBlock es tx.db.bridgeArchive.rows).tail,
      b.hash cfg.keccak ≠ cfg.keccak.zero) :
    ∃ tx', restoreBackwardLETBridges cfg removed es tx = .ok () tx' := by
  induction es generalizing tx with
  | nil => exact ⟨tx, rfl⟩
  | cons e es ih =>
    have hremoved := hremoved (cons_ne_nil _ _)
    obtain ⟨hprev, hnext⟩ := hcounts e (.head _)
    unfold restoredBridges at hadd hblock hnonzero
    rw [← restorable_orderBy hremoved] at hadd hblock hnonzero
    obtain ⟨hadd1, hadd2⟩ := hadd.append
    rw [← append_assoc] at hnonzero
    obtain ⟨⟨db1, tree1, halted1⟩, hrows⟩ := exists_restoreBridges hinj hC hadd1
      (fun b hb => hblock b (mem_append_left _ hb))
      (fun b hb => hnonzero b ((sublist_append_left _ _).tail.subset hb))
    obtain ⟨t, ht, hdb1, hC'⟩ := restoreBridges_spec hinj hC hadd1 hrows
    subst hdb1
    rw [← ht] at hadd2 hnonzero
    obtain ⟨tx', htx'⟩ := @ih ⟨{ tx.db with
        bridge := t
        bridgeArchive := tx.db.bridgeArchive.deleteWhere e.covers }, tree1, halted1⟩ hC'
      (fun _ b hb => hremoved b (mem_of_mem_filter hb)) hadd2
      (fun e' he' => hcounts e' (.tail _ he'))
      (fun b hb => hblock b (mem_append_right _ hb)) hnonzero
    refine ⟨tx', ?_⟩
    unfold restoreBackwardLETBridges
    simp only [bind_eq_ok_iff, orThrow_eq_ok_iff, get_eq_ok_iff, execute_eq_ok_iff]
    exact ⟨_, _, ⟨safeUint64_eq_ok_iff.mpr ⟨hprev, rfl⟩, rfl⟩, _, _,
      ⟨safeUint64_eq_ok_iff.mpr ⟨hnext, rfl⟩, rfl⟩, _, _, ⟨rfl, rfl⟩, _, _, hrows, (), _,
      ⟨_, rfl, rfl⟩, htx'⟩

end restore

theorem restoredBridges_cons (firstReorgedBlock : ℕ) (e : BackwardLET H)
    (es : List (BackwardLET H)) (archive : List (Bridge H)) :
    restoredBridges firstReorgedBlock (e :: es) archive =
      ((orderBy (fun b => b.depositCount.toNat) (archive.filter e.covers)).filter
        fun b => decide (b.blockNum < firstReorgedBlock)).map Bridge.restore ++
        restoredBridges firstReorgedBlock es (Table.deleteWhere e.covers archive) := rfl

/-- The events one part after the other. -/
theorem restoredBridges_append (firstReorgedBlock : ℕ) (es es' : List (BackwardLET H))
    (archive : List (Bridge H)) :
    restoredBridges firstReorgedBlock (es ++ es') archive =
      restoredBridges firstReorgedBlock es archive ++
        restoredBridges firstReorgedBlock es' (outside es archive) := by
  induction es generalizing archive with
  | nil => simp [restoredBridges, outside]
  | cons e es ih =>
    rw [cons_append, restoredBridges_cons, restoredBridges_cons, ih, outside_cons,
      append_assoc]

/-- Nothing comes back when all rows in the intervals are of deleted blocks. -/
theorem restoredBridges_eq_nil {firstReorgedBlock : ℕ} {es : List (BackwardLET H)}
    {archive : List (Bridge H)}
    (hold : ∀ a ∈ archive, a.blockNum < firstReorgedBlock → ∀ e ∈ es, e.covers a = false) :
    restoredBridges firstReorgedBlock es archive = [] := by
  induction es generalizing archive with
  | nil => rfl
  | cons e es ih =>
    have hrest : restoredBridges firstReorgedBlock es (Table.deleteWhere e.covers archive) = [] :=
      ih fun a ha hlt e' he' => hold a (Table.mem_deleteWhere.mp ha).1 hlt e' (.tail _ he')
    have hnone : (orderBy (fun b => b.depositCount.toNat) (archive.filter e.covers)).filter
        (fun b => decide (b.blockNum < firstReorgedBlock)) = [] := by
      refine filter_eq_nil_iff.mpr fun a ha hlt => ?_
      obtain ⟨hmem, hcovers⟩ := mem_filter.mp (mem_orderBy.mp ha)
      rw [hold a hmem (of_decide_eq_true hlt) e (.head _)] at hcovers
      cases hcovers
    rw [restoredBridges_cons, hrest, hnone, map_nil, append_nil]

/-! ## The whole call -/

/-- The `BackwardLET` events that a reorg deletes. -/
def Tables.undone (db : Tables H) (firstReorgedBlock : ℕ) : List (BackwardLET H) :=
  db.backwardLET.rows.filter fun e => firstReorgedBlock ≤ e.blockNum

/-- The bridges that a reorg leaves. -/
def Tables.remaining (db : Tables H) (firstReorgedBlock : ℕ) : List (Bridge H) :=
  Table.deleteWhere (fun b => decide (firstReorgedBlock ≤ b.blockNum)) db.bridge.rows

/-- The bridges that a reorg brings back. -/
def Tables.restored (db : Tables H) (firstReorgedBlock : ℕ) : List (Bridge H) :=
  restoredBridges firstReorgedBlock (db.undone firstReorgedBlock) db.bridgeArchive.rows

section reorg

variable [DecidableEq H] {cfg : Config H} (hinj : Function.Injective2 cfg.keccak.pair)
  {p : Processor H} {firstReorgedBlock : ℕ}

/-- The deposit counts that `loadReorgedDepositCounts` returns. -/
def Tables.depositCountsToRemove (db : Tables H) (firstReorgedBlock : ℕ) : List UInt32 :=
  if (db.undone firstReorgedBlock).isEmpty then []
  else (db.bridgeArchive.rows.filter fun b => firstReorgedBlock ≤ b.blockNum).map
    Bridge.depositCount

omit [DecidableEq H] in
/-- The archive has one row of a deposit count, so the deposit counts tell the rows. -/
theorem mem_depositCountsToRemove (db : Tables H) (firstReorgedBlock : ℕ)
    (hundone : db.undone firstReorgedBlock ≠ []) (b : Bridge H) (hb : b ∈ db.bridgeArchive.rows) :
    b.depositCount ∈ db.depositCountsToRemove firstReorgedBlock ↔
      firstReorgedBlock ≤ b.blockNum := by
  unfold Tables.depositCountsToRemove
  rw [if_neg (by simpa using hundone), mem_map]
  constructor
  · rintro ⟨a, ha, hdc⟩
    obtain ⟨ha, hlate⟩ := mem_filter.mp ha
    rw [← db.bridgeArchive.eq_of_key_eq ha hb hdc]
    exact of_decide_eq_true hlate
  · exact fun hlate => ⟨b, mem_filter.mpr ⟨hb, decide_eq_true hlate⟩, rfl⟩

/-- The transaction after the deletions of a reorg. -/
def Tx.deleted (tx : Tx H) (firstReorgedBlock : ℕ) : Tx H :=
  { tx with
    db := tx.db.deleteBlocks firstReorgedBlock
    exitTree := { tx.exitTree with store := tx.exitTree.store.reorg firstReorgedBlock } }

theorem reorgTx_eq_ok_iff {tx tx' : Tx H} {u : Unit} :
    reorgTx cfg firstReorgedBlock tx = .ok u tx' ↔
      restoreBackwardLETBridges cfg (tx.db.depositCountsToRemove firstReorgedBlock)
        (tx.db.undone firstReorgedBlock) (tx.deleted firstReorgedBlock) = .ok u tx' := by
  unfold reorgTx
  simp only [bind_eq_ok_iff, get_eq_ok_iff, execute_eq_ok_iff, modifyExitTree_eq_ok_iff]
  constructor
  · rintro ⟨_, _, ⟨rfl, rfl⟩, _, _, ⟨db, hdb, rfl⟩, _, _, rfl, hrest⟩
    cases hdb
    exact hrest
  · exact fun hrest => ⟨_, _, ⟨rfl, rfl⟩, (), _, ⟨_, rfl, rfl⟩, (), _, rfl, hrest⟩

theorem Processor.reorg_eq_ok_iff :
    (p.reorg cfg firstReorgedBlock).1 = .ok () ↔
      ∃ tx, reorgTx cfg firstReorgedBlock p.begin = .ok () tx ∧
        (p.reorg cfg firstReorgedBlock).2 = { tx.commit with halted := false } := by
  unfold Processor.reorg
  cases hreorg : reorgTx cfg firstReorgedBlock p.begin with
  | ok u tx => exact ⟨fun _ => ⟨tx, rfl, rfl⟩, fun _ => rfl⟩
  | error e tx => simp

omit [DecidableEq H] in
theorem deleted_consistent (hC : Consistent cfg p.db.bridge.rows p.exitTree) :
    Consistent cfg (p.begin.deleted firstReorgedBlock).db.bridge.rows
      (p.begin.deleted firstReorgedBlock).treeState :=
  hC.reorg firstReorgedBlock

include hinj

/-- `Reorg` when the bridges it brings back continue those it leaves. -/
theorem Processor.reorg_spec (hC : Consistent cfg p.db.bridge.rows p.exitTree)
    (hadd : Continues (p.db.remaining firstReorgedBlock) (p.db.restored firstReorgedBlock))
    (hok : (p.reorg cfg firstReorgedBlock).1 = .ok ()) :
    ∃ t a, t.rows = p.db.remaining firstReorgedBlock ++ p.db.restored firstReorgedBlock ∧
      a.rows = outside (p.db.undone firstReorgedBlock) p.db.bridgeArchive.rows ∧
      (p.reorg cfg firstReorgedBlock).2.db =
        { p.db.deleteBlocks firstReorgedBlock with bridge := t, bridgeArchive := a } ∧
      Consistent cfg t.rows (p.reorg cfg firstReorgedBlock).2.exitTree := by
  obtain ⟨tx, htx, hreorg⟩ := Processor.reorg_eq_ok_iff.mp hok
  obtain ⟨t, a, ht, ha, hdb, hC'⟩ := restoreBackwardLETBridges_spec hinj (deleted_consistent hC)
    (mem_depositCountsToRemove p.db firstReorgedBlock) hadd htx
  rw [hreorg]
  exact ⟨t, a, ht, ha, hdb, hC'⟩

/-- `Reorg` succeeds when the bridges it brings back continue those it leaves and are of blocks that
stay. -/
theorem Processor.reorg_succeeds (hC : Consistent cfg p.db.bridge.rows p.exitTree)
    (hadd : Continues (p.db.remaining firstReorgedBlock) (p.db.restored firstReorgedBlock))
    (hcounts : ∀ e ∈ p.db.undone firstReorgedBlock,
      e.previousDepositCount < 2^64 ∧ e.newDepositCount < 2^64)
    (hblock : ∀ b ∈ p.db.restored firstReorgedBlock,
      ∃ r ∈ p.db.block, r.1 = b.blockNum ∧ r.1 < firstReorgedBlock)
    (hnonzero : ∀ b ∈ (p.db.remaining firstReorgedBlock ++ p.db.restored firstReorgedBlock).tail,
      b.hash cfg.keccak ≠ cfg.keccak.zero) :
    (p.reorg cfg firstReorgedBlock).1 = .ok () := by
  have hblock' : ∀ b ∈ p.db.restored firstReorgedBlock,
      ∃ r ∈ (p.db.deleteBlocks firstReorgedBlock).block, r.1 = b.blockNum := by
    intro b hb
    obtain ⟨r, hr, hnum, hlt⟩ := hblock b hb
    exact ⟨r, Table.mem_deleteWhere.mpr ⟨hr, decide_eq_false (Nat.not_le.mpr hlt)⟩, hnum⟩
  obtain ⟨tx, htx⟩ := exists_restoreBackwardLETBridges hinj (deleted_consistent hC)
    (mem_depositCountsToRemove p.db firstReorgedBlock) hadd hcounts hblock' hnonzero
  have hreorg : reorgTx cfg firstReorgedBlock p.begin = .ok () tx := reorgTx_eq_ok_iff.mpr htx
  unfold Processor.reorg
  rw [hreorg]

end reorg

end AggKit.BridgeSync
