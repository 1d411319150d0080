import AggKit.BridgeSync.Consistent

/-!
# What an event does to the tables

`EventPart.Effect` relates the tables before and after an event that was handled without an error:
bridges are appended, a `BackwardLET` cuts the bridges at its new count and archives those above
that are not archived yet, and so on. `processPart_spec` proves it for every handler, and that the
bridges stay in step with the exit tree, for events in order: `Ready` asks that deposit counts go on
from the number of bridges stored, that the events are of the block that is processed and that their
positions grow.

A block in which a `ForwardLET` was handled counts the positions itself from there on, so only the
positions before it matter; growing positions are asked of the whole block because events have them.
-/

namespace AggKit.BridgeSync

open Table Run List Exec

variable {H : Type}

/-- A bridge as it is archived. -/
def Bridge.archived (b : Bridge H) : Bridge H := { b with source := .backwardLET }

/-- The rows that a `BackwardLET` adds to the archive. -/
def archivedRows (archive cut : List (Bridge H)) : List (Bridge H) :=
  (cut.filter fun b => !archive.any fun a => a.depositCount = b.depositCount).map Bridge.archived

theorem archiveBridge_eq_ok {archive archive' : Keyed (Bridge.depositCount (H := H))}
    {b : Bridge H} (hok : archiveBridge archive b = .ok archive') :
    archive'.rows = archive.rows ++ archivedRows archive.rows [b] := by
  unfold archiveBridge at hok
  unfold archivedRows
  split_ifs at hok with hany
  · cases hok
    simp [hany]
  · split at hok
    · cases hok
    · rename_i hins
      cases hok
      rw [(Keyed.insert_eq_some_iff.mp hins).2]
      simp [hany, Bridge.archived]

/-- The loop of `archiveAndDeleteBridgesAbove` on rows of different deposit counts. -/
theorem foldlM_archiveBridge {cut : List (Bridge H)} (hcut : (cut.map Bridge.depositCount).Nodup)
    {archive archive' : Keyed (Bridge.depositCount (H := H))}
    (hok : cut.foldlM archiveBridge archive = .ok archive') :
    archive'.rows = archive.rows ++ archivedRows archive.rows cut := by
  induction cut generalizing archive with
  | nil =>
    cases hok
    simp [archivedRows]
  | cons b cut ih =>
    obtain ⟨hb, hcut⟩ := nodup_cons.mp hcut
    obtain ⟨archive1, hfirst, hok⟩ := except_bind_ok.mp hok
    have hrows := archiveBridge_eq_ok hfirst
    -- The row of `b` is not one of the later rows, so they see the archive without it.
    have hlater : archivedRows archive1.rows cut = archivedRows archive.rows cut := by
      refine congrArg _ (filter_congr fun c hc => ?_)
      have hne : b.depositCount ≠ c.depositCount := fun h => hb (h ▸ mem_map_of_mem hc)
      have hnot : (archivedRows archive.rows [b]).any
          (fun a => decide (a.depositCount = c.depositCount)) = false := by
        rw [any_eq_false]
        intro a ha
        obtain ⟨b', hb', rfl⟩ := mem_map.mp ha
        rw [mem_singleton.mp (mem_of_mem_filter hb')]
        simp [Bridge.archived, hne]
      rw [hrows, any_append, hnot, Bool.or_false]
    rw [ih hcut hok, hlater, hrows, append_assoc]
    unfold archivedRows
    rw [← map_append, ← filter_append, singleton_append]

theorem Bridge.before.mono {b : Bridge H} {blockNum pos pos' : ℕ} (hb : b.before blockNum pos)
    (hle : pos ≤ pos') : b.before blockNum pos' := by
  rcases hb with hlt | ⟨heq, hlt⟩
  · exact .inl hlt
  · exact .inr ⟨heq, by omega⟩

/-- What an event does to the tables. -/
def EventPart.Effect : EventPart H → Tables H → Tables H → Prop
  | .bridge b, db, db' =>
    ∃ added t, t.rows = db.bridge.rows ++ added ∧ (∀ a ∈ added, a.blockNum = b.blockNum) ∧
      db' = { db with bridge := t }
  | .tokenMapping r, db, db' =>
    ∃ t, t.rows = db.tokenMapping.rows ++ [r] ∧ db' = { db with tokenMapping := t }
  | .legacyTokenMigration r, db, db' =>
    ∃ t, t.rows = db.legacyTokenMigration.rows ++ [r] ∧
      db' = { db with legacyTokenMigration := t }
  | .removeLegacyToken r, db, db' => db' = db.deleteLegacyToken r.legacyTokenAddress
  | .backwardLET e, db, db' =>
    e.newDepositCount < 2^32 ∧ ∃ t a u, t.rows = db.bridge.rows.take e.newDepositCount ∧
      a.rows = db.bridgeArchive.rows ++
        archivedRows db.bridgeArchive.rows (db.bridge.rows.drop e.newDepositCount) ∧
      u.rows = db.backwardLET.rows ++ [e] ∧
      db' = { db with bridge := t, bridgeArchive := a, backwardLET := u }
  | .forwardLET e, db, db' =>
    ∃ added t u, t.rows = db.bridge.rows ++ added ∧ (∀ a ∈ added, a.blockNum = e.blockNum) ∧
      u.rows = db.forwardLET.rows ++ [e] ∧ db' = { db with bridge := t, forwardLET := u }

section handlers

variable [DecidableEq H] {cfg : Config H} (hinj : Function.Injective2 cfg.keccak.pair)
  {tx tx1 tx' : Tx H}

include hinj

/-- A bridge that is added in order. -/
theorem addBridge_spec (hC : Consistent cfg tx.db.bridge.rows tx.treeState) {b : Bridge H}
    (hcount : b.depositCount.toNat = tx.db.bridge.rows.length)
    (hbefore : ∀ a ∈ tx.db.bridge.rows, a.before b.blockNum b.blockPos) {u u' : Unit}
    (hput : addLeaf cfg b.blockNum b.blockPos ⟨b.depositCount, b.hash cfg.keccak⟩ tx = .ok u tx1)
    (hins : execute (fun db => db.insertBridge b) tx1 = .ok u' tx') :
    ∃ t, t.rows = tx.db.bridge.rows ++ [b] ∧ tx'.db = { tx.db with bridge := t } ∧
      Consistent cfg t.rows tx'.treeState := by
  rw [addLeaf_eq_ok_iff, putLeaf_eq_ok_iff] at hput
  obtain ⟨hresult, rfl⟩ := hput
  rw [execute_eq_ok_iff] at hins
  obtain ⟨db, hdb, rfl⟩ := hins
  obtain ⟨t, ht, rfl⟩ := map_eq_ok_iff.mp hdb
  have hrows := (insertInto_eq_ok_iff.mp ht).1.2
  refine ⟨t, hrows, rfl, ?_⟩
  rw [hrows]
  exact (hC.append hinj hcount hbefore).2 hresult

/-- The loop of `handleForwardLETEvent` appends a bridge for each leaf. -/
theorem forwardLeaves_spec {event : ForwardLET H} {leaves : List LeafData} {depositCount : UInt32}
    {pos pos' : ℕ} (hC : Consistent cfg tx.db.bridge.rows tx.treeState)
    (hcount : leaves ≠ [] → depositCount.toNat = tx.db.bridge.rows.length)
    (hroom : tx.db.bridge.rows.length + leaves.length ≤ 2^32)
    (hbefore : ∀ a ∈ tx.db.bridge.rows, a.before event.blockNum pos)
    (hok : forwardLeaves cfg event leaves depositCount pos tx = .ok pos' tx') :
    ∃ added t, t.rows = tx.db.bridge.rows ++ added ∧ added.length = leaves.length ∧
      (∀ a ∈ added, a.blockNum = event.blockNum) ∧ tx'.db = { tx.db with bridge := t } ∧
      Consistent cfg t.rows tx'.treeState ∧ ∀ a ∈ t.rows, a.before event.blockNum pos' := by
  induction leaves generalizing tx depositCount pos with
  | nil =>
    obtain ⟨rfl, rfl⟩ := pure_eq_ok_iff.mp hok
    exact ⟨[], tx.db.bridge, by simp, rfl, by simp, rfl, hC, hbefore⟩
  | cons leaf leaves ih =>
    unfold forwardLeaves at hok
    simp only [bind_eq_ok_iff, get_eq_ok_iff] at hok
    obtain ⟨_, _, ⟨rfl, rfl⟩, _, tx1, hput, _, tx2, hins, hrest⟩ := hok
    generalize hb : forwardBridge tx.db.bridgeArchive.rows event leaf depositCount pos = b at *
    obtain ⟨hnum, hpos, hdc⟩ : b.blockNum = event.blockNum ∧ b.blockPos = pos ∧
        b.depositCount = depositCount := by
      rw [← hb]
      unfold forwardBridge
      split <;> exact ⟨rfl, rfl, rfl⟩
    have hcount' := hcount (cons_ne_nil _ _)
    rw [← hnum, ← hpos, ← hdc] at hput
    obtain ⟨t, ht, hdb, hC'⟩ := addBridge_spec hinj hC (by rw [hdc, hcount'])
      (by rw [hnum, hpos]; exact hbefore) hput hins
    have hbridge : tx2.db.bridge = t := by rw [hdb]
    rw [length_cons] at hroom
    have hlen : t.rows.length = tx.db.bridge.rows.length + 1 := by
      rw [ht, length_append, length_singleton]
    have hbefore' : ∀ a ∈ t.rows, a.before event.blockNum (pos + 1) := by
      intro a ha
      rw [ht, mem_append, mem_singleton] at ha
      rcases ha with ha | rfl
      · exact (hbefore a ha).mono (Nat.le_succ _)
      · exact .inr ⟨hnum, by omega⟩
    have hnext : leaves ≠ [] → (depositCount + 1).toNat = t.rows.length := by
      intro hne
      have := length_pos_iff.mpr hne
      rw [UInt32.toNat_add, UInt32.toNat_one, hcount', hlen]
      omega
    rw [← hbridge] at hC' hbefore' hnext hlen ht
    obtain ⟨added, t', ht', haddedlen, hadded, hdb', hC'', hbefore''⟩ :=
      ih hC' hnext (by rw [hlen]; omega) hbefore' hrest
    refine ⟨b :: added, t', ?_, by simp [haddedlen], ?_, ?_, hC'', hbefore''⟩
    · rw [ht', ht, append_assoc, singleton_append]
    · intro a ha
      rcases mem_cons.mp ha with rfl | ha
      · exact hnum
      · exact hadded a ha
    · rw [hdb', hdb]

omit hinj in
/-- A `BackwardLET` keeps the bridges below its new count. -/
theorem insertBackwardLET_spec {e : BackwardLET H}
    (hC : Consistent cfg tx.db.bridge.rows tx.treeState) {u : Unit}
    (hok : insertBackwardLET cfg e tx = .ok u tx') :
    (EventPart.backwardLET e).Effect tx.db tx'.db ∧
      Consistent cfg tx'.db.bridge.rows tx'.treeState := by
  unfold insertBackwardLET at hok
  simp only [bind_eq_ok_iff, orThrow_eq_ok_iff, execute_eq_ok_iff,
    modifyExitTree_eq_ok_iff] at hok
  obtain ⟨_, _, hsanity, ⟨n, index⟩, tx, ⟨hnorm, rfl⟩, _, tx2, ⟨db, harchive, rfl⟩, _, tx3, rfl, _,
    tx4, hsanity', ⟨db', hins, rfl⟩⟩ := hok
  obtain rfl := eq_of_sanityCheckLatestLER cfg hsanity
  obtain rfl := eq_of_sanityCheckLatestLER cfg hsanity'
  obtain ⟨hlt, rfl, rfl⟩ := normalizeDepositCount_eq_ok_iff.mp hnorm
  obtain ⟨archive, hfold, rfl⟩ := map_eq_ok_iff.mp harchive
  obtain ⟨u, hu, rfl⟩ := map_eq_ok_iff.mp hins
  have hrows := deleteWhere_le_eq_take hC.counts e.newDepositCount
  have hcut := filter_le_eq_drop hC.counts e.newDepositCount
  have hnodup : ((tx.db.bridge.rows.drop e.newDepositCount).map Bridge.depositCount).Nodup :=
    (hC.nodup_depositCount.sublist ((drop_sublist _ _).map _))
  rw [hcut] at hfold
  refine ⟨⟨hlt, _, archive, u, hrows, foldlM_archiveBridge hnodup hfold,
    (insertInto_eq_ok_iff.mp hu).1.2, rfl⟩, ?_⟩
  have hC' := hC.cut hlt
  rw [← hrows] at hC'
  exact hC'

end handlers

/-! ## Events in order -/

/-- The position an event gives its bridges. -/
def EventPart.position : EventPart H → Option ℕ
  | .bridge b => some b.blockPos
  | .forwardLET e => some e.blockPos
  | _ => none

/-- The leaves of a `ForwardLET`. -/
def Config.newLeaves (cfg : Config H) (e : ForwardLET H) : List LeafData :=
  (cfg.decodeForwardLETLeaves e.newLeaves).getD []

/-- The number of bridges after an event. -/
def Config.countAfter (cfg : Config H) (n : ℕ) : EventPart H → ℕ
  | .bridge _ => n + 1
  | .backwardLET e => min n e.newDepositCount
  | .forwardLET e => n + (cfg.newLeaves e).length
  | _ => n

/-- The deposit counts of the event go on from the number of bridges. -/
def Config.CountsOn [DecidableEq H] (cfg : Config H) (n : ℕ) : EventPart H → Prop
  | .bridge b => b.depositCount.toNat = n
  | .forwardLET e =>
    (if e.previousRoot = cfg.initialLER then 0 else e.previousDepositCount) = n ∧
      n + (cfg.newLeaves e).length ≤ 2^32
  | _ => True

/-- The next position is after all rows. -/
def Room (blockNum : ℕ) (es : List (EventPart H)) (rows : List (Bridge H)) : Option ℕ → Prop
  | some pos => ∀ a ∈ rows, a.before blockNum pos
  | none => ∀ e ∈ es, ∀ pos, e.position = some pos → ∀ a ∈ rows, a.before blockNum pos

/-- A transaction in the middle of a block whose remaining events are in order. -/
structure Ready [DecidableEq H] (cfg : Config H) (blockNum : ℕ) (blockPos : Option ℕ)
    (es : List (EventPart H)) (tx : Tx H) : Prop where
  consistent : Consistent cfg tx.db.bridge.rows tx.treeState
  blockNum_eq : ∀ e ∈ es, e.blockNum = blockNum
  positions : (es.filterMap EventPart.position).Pairwise (· < ·)
  room : Room blockNum es tx.db.bridge.rows blockPos
  counts : Along cfg.countAfter cfg.CountsOn tx.db.bridge.rows.length es

variable {blockNum : ℕ} {blockPos : Option ℕ} {es : List (EventPart H)}

/-- Fewer events and fewer rows leave room. -/
theorem Room.mono {e : EventPart H} {rows rows' : List (Bridge H)}
    (hroom : Room blockNum (e :: es) rows blockPos) (hsub : rows' ⊆ rows) :
    Room blockNum es rows' blockPos := by
  cases blockPos with
  | none => exact fun e' he' pos hpos a ha => hroom e' (.tail _ he') pos hpos a (hsub ha)
  | some pos => exact fun a ha => hroom a (hsub ha)

/-- The position at which the next bridge is put is after all rows. -/
theorem Room.before {pos : ℕ} {e : EventPart H} {rows : List (Bridge H)}
    (hroom : Room blockNum (e :: es) rows blockPos) (hpos : e.position = some pos) :
    ∀ a ∈ rows, a.before blockNum (blockPos.getD pos) := by
  cases blockPos with
  | none => exact hroom e (.head _) pos hpos
  | some pos' => exact hroom

/-- `handleForwardLETEvent` on deposit counts that go on from the number of bridges. -/
theorem handleForwardLETEvent_spec [DecidableEq H] {cfg : Config H}
    (hinj : Function.Injective2 cfg.keccak.pair) {tx tx' : Tx H} {e : ForwardLET H} {pos' : ℕ}
    (hC : Consistent cfg tx.db.bridge.rows tx.treeState)
    (hcount : cfg.CountsOn tx.db.bridge.rows.length (.forwardLET e))
    (hbefore : ∀ a ∈ tx.db.bridge.rows, a.before e.blockNum (blockPos.getD e.blockPos))
    (hok : handleForwardLETEvent cfg e blockPos tx = .ok pos' tx') :
    ∃ added t u, t.rows = tx.db.bridge.rows ++ added ∧ added.length = (cfg.newLeaves e).length ∧
      (∀ a ∈ added, a.blockNum = e.blockNum) ∧ u.rows = tx.db.forwardLET.rows ++ [e] ∧
      tx'.db = { tx.db with bridge := t, forwardLET := u } ∧
      Consistent cfg t.rows tx'.treeState ∧ ∀ a ∈ t.rows, a.before e.blockNum pos' := by
  unfold handleForwardLETEvent at hok
  simp only [bind_eq_ok_iff, pure_eq_ok_iff, orThrow_eq_ok_iff, execute_eq_ok_iff] at hok
  obtain ⟨_, _, hsanity, leaves, _, ⟨hdecode, rfl⟩, first, tx, ⟨hfirst, rfl⟩, _, tx1, hleaves, _, _,
    hsanity', _, _, ⟨db, hins, rfl⟩, rfl, rfl⟩ := hok
  obtain rfl := eq_of_sanityCheckLatestLER cfg hsanity
  obtain rfl := eq_of_sanityCheckLatestLER cfg hsanity'
  have hnew : cfg.newLeaves e = leaves := by
    unfold decodeNewLeaves at hdecode
    unfold Config.newLeaves
    split at hdecode <;> simp_all
  obtain ⟨hstart, hroom⟩ := hcount
  have hfirst' : first.toNat = tx.db.bridge.rows.length := by
    unfold firstDepositCount at hfirst
    split_ifs at hfirst hstart with hroot
    · rw [← Except.ok.inj hfirst, ← hstart]
      rfl
    · obtain ⟨⟨n, index⟩, hnorm, rfl⟩ := map_eq_ok_iff.mp hfirst
      obtain ⟨hlt, -, rfl⟩ := normalizeDepositCount_eq_ok_iff.mp hnorm
      rw [← hstart]
      exact UInt32.toNat_ofNat_of_lt' hlt
  rw [hnew] at hroom
  obtain ⟨added, t, ht, hlen, hadded, hdb, hC', hbefore'⟩ :=
    forwardLeaves_spec hinj hC (fun _ => hfirst') hroom hbefore hleaves
  obtain ⟨u, hu, rfl⟩ := map_eq_ok_iff.mp hins
  have hu' := (insertInto_eq_ok_iff.mp hu).1.2
  refine ⟨added, t, u, ht, by rw [hlen, hnew], hadded, ?_, ?_, hC', hbefore'⟩
  · rw [hu', hdb]
  · rw [hdb]

section ready

variable [DecidableEq H] {cfg : Config H} {blockNum : ℕ} {blockPos blockPos' : Option ℕ}
  {e : EventPart H} {es : List (EventPart H)} {tx tx' : Tx H}

/-- The remaining events are in order once the count of rows and the room are known. -/
theorem Ready.tail (hR : Ready cfg blockNum blockPos (e :: es) tx)
    (hC : Consistent cfg tx'.db.bridge.rows tx'.treeState)
    (hroom : Room blockNum es tx'.db.bridge.rows blockPos')
    (hlen : tx'.db.bridge.rows.length = cfg.countAfter tx.db.bridge.rows.length e) :
    Ready cfg blockNum blockPos' es tx' where
  consistent := hC
  blockNum_eq := fun e' he' => hR.blockNum_eq e' (.tail _ he')
  positions := hR.positions.sublist ((sublist_cons_self e es).filterMap _)
  room := hroom
  counts := hlen ▸ hR.counts.2

/-- An event that leaves the bridges and the exit tree alone. -/
theorem Ready.tail_of_same (hR : Ready cfg blockNum blockPos (e :: es) tx)
    (hbridge : tx'.db.bridge = tx.db.bridge) (htree : tx'.exitTree = tx.exitTree)
    (hcount : cfg.countAfter tx.db.bridge.rows.length e = tx.db.bridge.rows.length) :
    Ready cfg blockNum blockPos es tx' := by
  refine hR.tail ?_ ?_ ?_
  · rw [hbridge]
    unfold Tx.treeState
    rw [htree]
    exact hR.consistent
  · rw [hbridge]
    exact hR.room.mono (List.Subset.refl _)
  · rw [hbridge, hcount]

omit [DecidableEq H] in
/-- After a bridge, with the positions counted or taken from the events. -/
theorem Room.after_bridge {b : Bridge H} {rows : List (Bridge H)}
    (hroom : Room blockNum (.bridge b :: es) rows blockPos) (hnum : b.blockNum = blockNum)
    (hpositions : ((EventPart.bridge b :: es).filterMap EventPart.position).Pairwise (· < ·)) :
    Room blockNum es (rows ++ [{ b with blockPos := blockPos.getD b.blockPos }])
      (blockPos.map (· + 1)) := by
  cases blockPos with
  | none =>
    intro e he pos hpos a ha
    have hlt : b.blockPos < pos :=
      (pairwise_cons.mp hpositions).1 pos (mem_filterMap.mpr ⟨e, he, hpos⟩)
    rcases mem_append.mp ha with ha | ha
    · exact hroom e (.tail _ he) pos hpos a ha
    · rw [mem_singleton.mp ha]
      exact .inr ⟨hnum, hlt⟩
  | some pos =>
    intro a ha
    rcases mem_append.mp ha with ha | ha
    · exact (hroom a ha).mono (Nat.le_succ _)
    · rw [mem_singleton.mp ha]
      exact .inr ⟨hnum, Nat.lt_succ_self _⟩

/-- An event of an ordered block that is handled without an error: what it does to the tables, and
that the events after it are in order. -/
theorem processPart_spec (hinj : Function.Injective2 cfg.keccak.pair)
    (hR : Ready cfg blockNum blockPos (e :: es) tx)
    (hok : processPart cfg blockNum blockPos e tx = .ok blockPos' tx') :
    e.Effect tx.db tx'.db ∧
      tx'.db.bridge.rows.length = cfg.countAfter tx.db.bridge.rows.length e ∧
      Ready cfg blockNum blockPos' es tx' := by
  have hcount := hR.counts.1
  cases e with
  | bridge b =>
    have hnum : b.blockNum = blockNum := hR.blockNum_eq _ (.head _)
    unfold processPart at hok
    simp only [bind_eq_ok_iff, pure_eq_ok_iff] at hok
    obtain ⟨_, tx1, hput, _, tx2, hins, rfl, rfl⟩ := hok
    have hroom := hR.room.after_bridge hnum hR.positions
    generalize hb : { b with blockPos := blockPos.getD b.blockPos } = b' at *
    obtain ⟨hnum', hpos', hdc'⟩ : b'.blockNum = b.blockNum ∧
        b'.blockPos = blockPos.getD b.blockPos ∧ b'.depositCount = b.depositCount := by
      rw [← hb]
      exact ⟨rfl, rfl, rfl⟩
    rw [← hpos', ← hdc', ← hnum, ← hnum'] at hput
    have hbefore := hR.room.before (show (EventPart.bridge b).position = some b.blockPos from rfl)
    obtain ⟨t, ht, hdb, hC⟩ := addBridge_spec hinj hR.consistent (by rw [hdc']; exact hcount)
      (by rw [hnum', hpos', hnum]; exact hbefore) hput hins
    have hbridge : tx2.db.bridge = t := by rw [hdb]
    have hlen : tx2.db.bridge.rows.length = tx.db.bridge.rows.length + 1 := by
      rw [hbridge, ht, length_append, length_singleton]
    refine ⟨⟨[b'], t, ht, ?_, hdb⟩, hlen, hR.tail ?_ ?_ hlen⟩
    · intro a ha
      rw [mem_singleton.mp ha, hnum']
    · rw [hbridge]
      exact hC
    · rw [hbridge, ht]
      exact hroom
  | tokenMapping r | legacyTokenMigration r =>
    unfold processPart at hok
    simp only [bind_eq_ok_iff, pure_eq_ok_iff, execute_eq_ok_iff] at hok
    obtain ⟨_, _, ⟨db, hdb, rfl⟩, rfl, rfl⟩ := hok
    obtain ⟨t, ht, rfl⟩ := map_eq_ok_iff.mp hdb
    exact ⟨⟨t, (insertInto_eq_ok_iff.mp ht).1.2, rfl⟩, rfl, hR.tail_of_same rfl rfl rfl⟩
  | removeLegacyToken r =>
    unfold processPart at hok
    simp only [bind_eq_ok_iff, pure_eq_ok_iff, execute_eq_ok_iff] at hok
    obtain ⟨_, _, ⟨db, hdb, rfl⟩, rfl, rfl⟩ := hok
    cases hdb
    exact ⟨rfl, rfl, hR.tail_of_same rfl rfl rfl⟩
  | backwardLET b =>
    unfold processPart at hok
    simp only [bind_eq_ok_iff, pure_eq_ok_iff] at hok
    obtain ⟨_, tx1, hback, rfl, rfl⟩ := hok
    obtain ⟨heffect, hC⟩ := insertBackwardLET_spec hR.consistent hback
    obtain ⟨-, t, a, u, ht, ha, hu, hdb⟩ := id heffect
    have hbridge : tx1.db.bridge = t := by rw [hdb]
    have hlen : tx1.db.bridge.rows.length = min tx.db.bridge.rows.length b.newDepositCount := by
      rw [hbridge, ht, length_take, min_comm]
    refine ⟨heffect, hlen, hR.tail hC ?_ hlen⟩
    rw [hbridge, ht]
    exact hR.room.mono (take_subset _ _)
  | forwardLET f =>
    unfold processPart at hok
    simp only [bind_eq_ok_iff, pure_eq_ok_iff] at hok
    obtain ⟨pos, tx1, hforward, rfl, rfl⟩ := hok
    have hnum : f.blockNum = blockNum := hR.blockNum_eq _ (.head _)
    have hbefore := hR.room.before
      (show (EventPart.forwardLET f).position = some f.blockPos from rfl)
    rw [← hnum] at hbefore
    obtain ⟨added, t, u, ht, hlen, hadded, hu, hdb, hC, hbefore'⟩ :=
      handleForwardLETEvent_spec hinj hR.consistent hcount hbefore hforward
    have hbridge : tx1.db.bridge = t := by rw [hdb]
    have hlen' : tx1.db.bridge.rows.length =
        tx.db.bridge.rows.length + (cfg.newLeaves f).length := by
      rw [hbridge, ht, length_append, hlen]
    refine ⟨⟨added, t, u, ht, hadded, hu, hdb⟩, hlen', hR.tail ?_ ?_ hlen'⟩
    · rw [hbridge]
      exact hC
    · rw [hbridge, ← hnum]
      exact hbefore'

end ready

/-- The effects of events one after the other, on tables whose deposit counts count up. -/
inductive Handled (cfg : Config H) : List (EventPart H) → Tables H → Tables H → Prop
  | nil {db : Tables H} : Handled cfg [] db db
  | cons {e : EventPart H} {es : List (EventPart H)} {db db₁ db' : Tables H} :
    db.bridge.rows.map (fun b => b.depositCount.toNat) = List.range db.bridge.rows.length →
      e.Effect db db₁ → db₁.bridge.rows.length = cfg.countAfter db.bridge.rows.length e →
      Handled cfg es db₁ db' → Handled cfg (e :: es) db db'

/-- The events of an ordered block, handled without an error. -/
theorem processParts_spec [DecidableEq H] {cfg : Config H}
    (hinj : Function.Injective2 cfg.keccak.pair) {tx tx' : Tx H} {u : Unit}
    (hR : Ready cfg blockNum blockPos es tx)
    (hok : processParts cfg blockNum blockPos es tx = .ok u tx') :
    Handled cfg es tx.db tx'.db ∧ Consistent cfg tx'.db.bridge.rows tx'.treeState := by
  induction es generalizing blockPos tx with
  | nil =>
    obtain ⟨-, rfl⟩ := pure_eq_ok_iff.mp hok
    exact ⟨.nil, hR.consistent⟩
  | cons e es ih =>
    obtain ⟨blockPos', tx1, hpart, hrest⟩ := bind_eq_ok_iff.mp hok
    obtain ⟨heffect, hlen, hR'⟩ := processPart_spec hinj hR hpart
    obtain ⟨hhandled, hC⟩ := ih hR' hrest
    exact ⟨.cons hR.consistent.counts heffect hlen hhandled, hC⟩

end AggKit.BridgeSync
