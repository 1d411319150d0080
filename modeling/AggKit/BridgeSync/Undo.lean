import AggKit.BridgeSync.Invariant

/-!
# A reorg as an undo

After a valid sequence of blocks, `Reorg` is compared with processing only the blocks before the
reorged one. `Since` says what the later blocks can have made of the tables: the bridges of the
earlier blocks were cut at the least count of a `BackwardLET`, and those cut off are in the archive.
`Reorg` takes them from there, in the order of the `BackwardLET` events.

This gives back the earlier tables under the conditions of `Undoable`. They say what the code does
not restore: a migration that a later event removed, the archive of earlier `BackwardLET` events in
an interval that is undone, bridges that are cut in more than one step, and the source of a bridge.
-/

namespace AggKit.BridgeSync

open Table Run List Processor

variable {H : Type}

/-! ## The tables before the reorged block -/

/-- All rows are of blocks before the given one, and bridges of blocks that are there. -/
structure Below (firstReorgedBlock : ℕ) (db : Tables H) : Prop where
  bridge : ∀ b ∈ db.bridge.rows, b.blockNum < firstReorgedBlock ∧ ∃ r ∈ db.block, r.1 = b.blockNum
  bridgeArchive : ∀ b ∈ db.bridgeArchive.rows, b.blockNum < firstReorgedBlock
  tokenMapping : ∀ t ∈ db.tokenMapping.rows, t.blockNum < firstReorgedBlock
  legacyTokenMigration : ∀ m ∈ db.legacyTokenMigration.rows, m.blockNum < firstReorgedBlock
  backwardLET : ∀ e ∈ db.backwardLET.rows, e.blockNum < firstReorgedBlock

theorem mem_archivedRows {archive cut : List (Bridge H)} {a : Bridge H}
    (ha : a ∈ archivedRows archive cut) :
    ∃ b ∈ cut, a = b.archived := by
  obtain ⟨b, hb, rfl⟩ := mem_map.mp ha
  exact ⟨b, mem_of_mem_filter hb, rfl⟩

theorem archivedRows_append (archive cut cut' : List (Bridge H)) :
    archivedRows archive (cut ++ cut') = archivedRows archive cut ++ archivedRows archive cut' := by
  unfold archivedRows
  rw [filter_append, map_append]

theorem archivedRows_eq_map {archive cut : List (Bridge H)}
    (hfresh : ∀ b ∈ cut, ∀ a ∈ archive, a.depositCount ≠ b.depositCount) :
    archivedRows archive cut = cut.map Bridge.archived := by
  refine congrArg _ (filter_eq_self.mpr fun b hb => ?_)
  rw [Bool.not_eq_true', any_eq_false]
  exact fun a ha => by simpa using hfresh b hb a ha

variable {firstReorgedBlock : ℕ} {db : Tables H}

/-- An event of an earlier block that is there. -/
theorem Below.effect {db' : Tables H} (hB : Below firstReorgedBlock db) {e : EventPart H}
    (he : e.blockNum < firstReorgedBlock) (hblock : ∃ r ∈ db.block, r.1 = e.blockNum)
    (heffect : e.Effect db db') : Below firstReorgedBlock db' ∧ db'.block = db.block := by
  cases e with
  | bridge b =>
    obtain ⟨added, t, ht, hadded, rfl⟩ := heffect
    refine ⟨{ hB with bridge := ?_ }, rfl⟩
    rw [ht, forall_mem_append]
    exact ⟨hB.bridge, fun a ha => hadded a ha ▸ ⟨he, hblock⟩⟩
  | tokenMapping r =>
    obtain ⟨t, ht, rfl⟩ := heffect
    refine ⟨{ hB with tokenMapping := ?_ }, rfl⟩
    rw [ht, forall_mem_append, forall_mem_singleton]
    exact ⟨hB.tokenMapping, he⟩
  | legacyTokenMigration r =>
    obtain ⟨t, ht, rfl⟩ := heffect
    refine ⟨{ hB with legacyTokenMigration := ?_ }, rfl⟩
    rw [ht, forall_mem_append, forall_mem_singleton]
    exact ⟨hB.legacyTokenMigration, he⟩
  | removeLegacyToken r =>
    obtain rfl := heffect
    refine ⟨{ hB with legacyTokenMigration := ?_ }, rfl⟩
    exact fun a ha => hB.legacyTokenMigration a (Table.mem_deleteWhere.mp ha).1
  | backwardLET b =>
    obtain ⟨-, t, a, u, ht, ha, hu, rfl⟩ := heffect
    refine ⟨{ hB with bridge := ?_, bridgeArchive := ?_, backwardLET := ?_ }, rfl⟩
    · exact fun x hx => hB.bridge x (mem_of_mem_take (ht ▸ hx))
    · rw [ha, forall_mem_append]
      refine ⟨hB.bridgeArchive, fun x hx => ?_⟩
      obtain ⟨y, hy, rfl⟩ := mem_archivedRows hx
      exact (hB.bridge y (mem_of_mem_drop hy)).1
    · rw [hu, forall_mem_append, forall_mem_singleton]
      exact ⟨hB.backwardLET, he⟩
  | forwardLET f =>
    obtain ⟨added, t, u, ht, hadded, hu, rfl⟩ := heffect
    refine ⟨{ hB with bridge := ?_ }, rfl⟩
    rw [ht, forall_mem_append]
    exact ⟨hB.bridge, fun a ha => hadded a ha ▸ ⟨he, hblock⟩⟩

/-- The events of an earlier block. -/
theorem Below.handled {cfg : Config H} {blockNum : ℕ} {es : List (EventPart H)} {db' : Tables H}
    (hB : Below firstReorgedBlock db) (hes : ∀ e ∈ es, e.blockNum = blockNum)
    (hlt : blockNum < firstReorgedBlock) (hblock : ∃ r ∈ db.block, r.1 = blockNum)
    (hhandled : Handled cfg es db db') : Below firstReorgedBlock db' := by
  induction hhandled with
  | nil => exact hB
  | cons _ heffect _ _ ih =>
    have he := hes _ (.head _)
    obtain ⟨hB', hsame⟩ := hB.effect (he ▸ hlt) (he ▸ hblock) heffect
    exact ih hB' (fun e' he' => hes e' (.tail _ he')) (hsame ▸ hblock)

/-! ## What later blocks make of the tables -/

/-- The least count that `n` bridges were cut to. -/
def least (n : ℕ) (cuts : List (BackwardLET H)) : ℕ :=
  cuts.foldl (fun m e => min m e.newDepositCount) n

@[simp]
theorem least_concat (n : ℕ) (cuts : List (BackwardLET H)) (e : BackwardLET H) :
    least n (cuts ++ [e]) = min (least n cuts) e.newDepositCount := by
  unfold least
  rw [foldl_append, foldl_cons, foldl_nil]

theorem le_least_iff {n k : ℕ} {cuts : List (BackwardLET H)} :
    k ≤ least n cuts ↔ k ≤ n ∧ ∀ e ∈ cuts, k ≤ e.newDepositCount := by
  induction cuts using List.reverseRecOn with
  | nil => simp [least]
  | append_singleton cuts e ih =>
    rw [least_concat, le_min_iff, ih, forall_mem_append, forall_mem_singleton, and_assoc]

theorem least_le (n : ℕ) (cuts : List (BackwardLET H)) : least n cuts ≤ n :=
  (le_least_iff.mp le_rfl).1

/-- The tables `db'` after blocks from `firstReorgedBlock` on, with the `BackwardLET` events `cuts`,
were processed on the tables `db`. -/
structure Since (firstReorgedBlock : ℕ) (db : Tables H) (cuts : List (BackwardLET H))
    (db' : Tables H) : Prop where
  /-- The earlier bridges were cut, later ones added. -/
  bridge : ∃ added, db'.bridge.rows =
      db.bridge.rows.take (least db.bridge.rows.length cuts) ++ added ∧
    ∀ a ∈ added, firstReorgedBlock ≤ a.blockNum
  /-- The earlier bridges that were cut off are archived. -/
  bridgeArchive : ∃ added, db'.bridgeArchive.rows = db.bridgeArchive.rows ++ added ∧
    (added.filter fun a => decide (a.blockNum < firstReorgedBlock)).Perm
      ((db.bridge.rows.drop (least db.bridge.rows.length cuts)).map Bridge.archived) ∧
    ∀ a ∈ added, least db.bridge.rows.length cuts ≤ a.depositCount.toNat ∧
      ∃ e ∈ cuts, e.covers a = true
  backwardLET : db'.backwardLET.rows = db.backwardLET.rows ++ cuts
  cut : ∀ e ∈ cuts, firstReorgedBlock ≤ e.blockNum ∧ e.previousDepositCount ≤ 2^32 ∧
    e.newDepositCount < 2^32
  /-- All earlier bridges were there before the first cut below their number. -/
  firstCut : ∀ e, cuts.find? (fun e => decide (e.newDepositCount < db.bridge.rows.length)) =
    some e → db.bridge.rows.length ≤ e.previousDepositCount
  tokenMapping : Table.deleteWhere (fun t => decide (firstReorgedBlock ≤ t.blockNum))
    db'.tokenMapping.rows = db.tokenMapping.rows
  legacyTokenMigration : Table.deleteWhere (fun m => decide (firstReorgedBlock ≤ m.blockNum))
    db'.legacyTokenMigration.rows = db.legacyTokenMigration.rows
  block : ∀ r ∈ db.block, r.1 < firstReorgedBlock → r ∈ db'.block

/-- Nothing has happened yet. -/
theorem Below.since (hB : Below firstReorgedBlock db) :
    Since firstReorgedBlock db [] db where
  bridge := ⟨[], by simp [least], by simp⟩
  bridgeArchive := ⟨[], by simp, by simp [least], by simp⟩
  backwardLET := (append_nil _).symm
  cut := by simp
  firstCut := by simp
  tokenMapping := Table.deleteWhere_eq_self fun t ht => by
    simpa using hB.tokenMapping t ht
  legacyTokenMigration := Table.deleteWhere_eq_self fun m hm => by
    simpa using hB.legacyTokenMigration m hm
  block := fun _ hr _ => hr

/-- The `BackwardLET` of an event. -/
def EventPart.cuts : EventPart H → List (BackwardLET H)
  | .backwardLET e => [e]
  | _ => []

/-- The previous count of a `BackwardLET` is the number of bridges. -/
def PreviousCount (n : ℕ) : EventPart H → Prop
  | .backwardLET e => e.previousDepositCount = n
  | _ => True

/-- The event neither removes an earlier migration nor has an earlier archived bridge in its
interval. -/
def KeepsEarlier (db : Tables H) : EventPart H → Prop
  | .removeLegacyToken r => ∀ m ∈ db.legacyTokenMigration.rows,
    m.legacyTokenAddress ≠ r.legacyTokenAddress
  | .backwardLET e => ∀ a ∈ db.bridgeArchive.rows, e.covers a = false
  | _ => True

theorem length_le_of_counts {rows : List (Bridge H)} (hcounts : CountsUp rows) :
    rows.length ≤ 2^32 := by
  by_contra hlong
  have hmem : 2^32 ∈ rows.map (fun b => b.depositCount.toNat) := by
    rw [hcounts, mem_range]
    omega
  obtain ⟨b, -, hb⟩ := mem_map.mp hmem
  exact absurd b.depositCount.toNat_lt (by omega)

section since

variable {db' db'' : Tables H} {cuts : List (BackwardLET H)} (hB : Below firstReorgedBlock db)
  (hrows : CountsUp db.bridge.rows) (hS : Since firstReorgedBlock db cuts db')

include hB hrows hS in
/-- The archive after one more `BackwardLET`. -/
theorem Since.archive_backwardLET (hcounts : CountsUp db'.bridge.rows) {e : BackwardLET H}
    (hprev : e.previousDepositCount = db'.bridge.rows.length)
    (hkeeps : ∀ a ∈ db.bridgeArchive.rows, e.covers a = false) :
    ∃ added, db'.bridgeArchive.rows ++
        archivedRows db'.bridgeArchive.rows (db'.bridge.rows.drop e.newDepositCount) =
        db.bridgeArchive.rows ++ added ∧
      (added.filter fun a => decide (a.blockNum < firstReorgedBlock)).Perm
        ((db.bridge.rows.drop (least db.bridge.rows.length (cuts ++ [e]))).map Bridge.archived) ∧
      ∀ a ∈ added, least db.bridge.rows.length (cuts ++ [e]) ≤ a.depositCount.toNat ∧
        ∃ e' ∈ cuts ++ [e], e'.covers a = true := by
  obtain ⟨later, hbridge, hlater⟩ := hS.bridge
  obtain ⟨added, harchive, hperm, hadded⟩ := hS.bridgeArchive
  have hle := least_le db.bridge.rows.length cuts
  rw [least_concat]
  generalize hm : least db.bridge.rows.length cuts = m at *
  have hmlen : (db.bridge.rows.take m).length = m := by rw [length_take, Nat.min_eq_left hle]
  -- The rows that are cut off now: what is left of the earlier ones above the new count, and later
  -- ones.
  have hdrop : db'.bridge.rows.drop e.newDepositCount =
      (db.bridge.rows.take m).drop e.newDepositCount ++ later.drop (e.newDepositCount - m) := by
    rw [hbridge, drop_append, hmlen]
  -- The earlier ones are not archived yet: the archive had no row in the interval, and what was
  -- archived since is above the count that was cut to.
  have hfresh : ∀ b ∈ (db.bridge.rows.take m).drop e.newDepositCount,
      ∀ a ∈ db'.bridgeArchive.rows, a.depositCount ≠ b.depositCount := by
    intro b hb a ha hsame
    obtain ⟨hge, hlt⟩ := depositCount_of_mem_drop (counts_take hrows m) hb
    rw [hmlen] at hlt
    rcases mem_append.mp (harchive ▸ ha) with ha | ha
    · have hout := hkeeps a ha
      have hlen : m ≤ db'.bridge.rows.length := by
        rw [hbridge, length_append, hmlen]
        exact Nat.le_add_right _ _
      unfold BackwardLET.covers Bridge.inInterval at hout
      rw [hsame, hprev, decide_eq_false_iff_not] at hout
      exact hout ⟨hge, by omega⟩
    · have hge' := (hadded a ha).1
      rw [hsame] at hge'
      omega
  refine ⟨added ++ archivedRows db'.bridgeArchive.rows (db'.bridge.rows.drop e.newDepositCount),
    by rw [harchive, append_assoc], ?_, ?_⟩
  · have hnew : (archivedRows db'.bridgeArchive.rows
        (db'.bridge.rows.drop e.newDepositCount)).filter
          (fun a => decide (a.blockNum < firstReorgedBlock)) =
        ((db.bridge.rows.take m).drop e.newDepositCount).map Bridge.archived := by
      have hearlier := archivedRows_eq_map hfresh
      rw [hdrop, archivedRows_append, hearlier]
      refine Table.filter_append_left (fun a ha => ?_) fun a ha => ?_
      · obtain ⟨b, hb, rfl⟩ := mem_map.mp ha
        have hb' := mem_of_mem_take (mem_of_mem_drop hb)
        exact decide_eq_true (hB.bridge b hb').1
      · obtain ⟨b, hb, rfl⟩ := mem_archivedRows ha
        exact decide_eq_false (Nat.not_lt.mpr (hlater b (mem_of_mem_drop hb)))
    have hsplit : (db.bridge.rows.drop (min m e.newDepositCount)).Perm
        (db.bridge.rows.drop m ++ (db.bridge.rows.take m).drop e.newDepositCount) := by
      rcases le_total e.newDepositCount m with hnew | hnew
      · have happend := take_append_drop (m - e.newDepositCount)
          (db.bridge.rows.drop e.newDepositCount)
        rw [drop_drop, Nat.add_sub_cancel' hnew] at happend
        rw [min_eq_right hnew, drop_take]
        exact (Perm.of_eq happend.symm).trans perm_append_comm
      · rw [min_eq_left hnew, drop_eq_nil_of_le (hmlen.le.trans hnew), append_nil]
    rw [filter_append, hnew]
    refine (hperm.append_right _).trans ?_
    rw [← map_append]
    exact (hsplit.map _).symm
  · intro a ha
    rcases mem_append.mp ha with ha | ha
    · obtain ⟨hge, e', he', hcovers⟩ := hadded a ha
      exact ⟨(min_le_left _ _).trans hge, e', mem_append_left _ he', hcovers⟩
    · obtain ⟨b, hb, rfl⟩ := mem_archivedRows ha
      obtain ⟨hge, hlt⟩ := depositCount_of_mem_drop hcounts hb
      refine ⟨(min_le_right _ _).trans hge, e, mem_append_right _ (.head _), ?_⟩
      unfold BackwardLET.covers Bridge.inInterval
      rw [hprev]
      exact decide_eq_true ⟨hge, hlt.le⟩

include hS in
/-- Later bridges. -/
theorem Since.bridge_append {t : Keyed (Bridge.key (H := H))} {added : List (Bridge H)}
    (ht : t.rows = db'.bridge.rows ++ added) (hadded : ∀ a ∈ added, firstReorgedBlock ≤ a.blockNum) :
    ∃ added, t.rows = db.bridge.rows.take (least db.bridge.rows.length cuts) ++ added ∧
      ∀ a ∈ added, firstReorgedBlock ≤ a.blockNum := by
  obtain ⟨later, hbridge, hlater⟩ := hS.bridge
  refine ⟨later ++ added, by rw [ht, hbridge, append_assoc], fun a ha => ?_⟩
  exact (mem_append.mp ha).elim (hlater a) (hadded a)

/-- All earlier bridges are there as long as no event cut below their number. -/
theorem least_eq_of_find?_eq_none {n : ℕ}
    (hnone : cuts.find? (fun e => decide (e.newDepositCount < n)) = none) : least n cuts = n := by
  induction cuts using List.reverseRecOn with
  | nil => rfl
  | append_singleton cuts e ih =>
    rw [find?_append, Option.or_eq_none_iff] at hnone
    rw [least_concat, ih hnone.1]
    have he : ¬e.newDepositCount < n := by simpa using hnone.2
    omega

include hB hrows hS

/-- A later event that keeps what is earlier. -/
theorem Since.effect (hcounts : CountsUp db'.bridge.rows) {e : EventPart H} (he : firstReorgedBlock ≤ e.blockNum)
    (hprev : PreviousCount db'.bridge.rows.length e) (hkeeps : KeepsEarlier db e)
    (heffect : e.Effect db' db'') : Since firstReorgedBlock db (cuts ++ e.cuts) db'' := by
  have hnone : e.cuts = [] → Since firstReorgedBlock db cuts db'' →
      Since firstReorgedBlock db (cuts ++ e.cuts) db'' := fun hnil h => by
    rwa [hnil, append_nil]
  cases e with
  | bridge b =>
    obtain ⟨added, t, ht, hadded, rfl⟩ := heffect
    exact hnone rfl { hS with bridge := hS.bridge_append ht fun a ha => hadded a ha ▸ he }
  | tokenMapping r =>
    obtain ⟨t, ht, rfl⟩ := heffect
    refine hnone rfl { hS with tokenMapping := ?_ }
    rw [ht, Table.deleteWhere_append, hS.tokenMapping, Table.deleteWhere_eq_nil, append_nil]
    exact fun a ha => decide_eq_true (mem_singleton.mp ha ▸ he)
  | legacyTokenMigration r =>
    obtain ⟨t, ht, rfl⟩ := heffect
    refine hnone rfl { hS with legacyTokenMigration := ?_ }
    rw [ht, Table.deleteWhere_append, hS.legacyTokenMigration, Table.deleteWhere_eq_nil,
      append_nil]
    exact fun a ha => decide_eq_true (mem_singleton.mp ha ▸ he)
  | removeLegacyToken r =>
    obtain rfl := heffect
    refine hnone rfl { hS with legacyTokenMigration := ?_ }
    unfold Tables.deleteLegacyToken
    rw [Keyed.rows_deleteWhere, Table.deleteWhere_comm, hS.legacyTokenMigration]
    exact Table.deleteWhere_eq_self fun m hm => decide_eq_false (hkeeps m hm)
  | backwardLET b =>
    have harchive := archive_backwardLET hB hrows hS hcounts hprev hkeeps
    obtain ⟨hlt, t, a, u, ht, ha, hu, rfl⟩ := heffect
    obtain ⟨later, hbridge, hlater⟩ := hS.bridge
    have hle := least_le db.bridge.rows.length cuts
    refine { hS with bridge := ?_, bridgeArchive := ?_, backwardLET := ?_, cut := ?_, firstCut := ?_ }
    · refine ⟨later.take (b.newDepositCount - least db.bridge.rows.length cuts), ?_,
        fun x hx => hlater x (mem_of_mem_take hx)⟩
      rw [ht, hbridge, List.take_append, length_take, Nat.min_eq_left hle, take_take,
        min_comm]
      exact congrArg (fun n => List.take n _ ++ _) (least_concat _ cuts b).symm
    · rw [ha]
      exact harchive
    · rw [hu, hS.backwardLET, append_assoc]
      rfl
    · intro x hx
      rcases mem_append.mp hx with hx | hx
      · exact hS.cut x hx
      · rw [mem_singleton.mp hx]
        exact ⟨he, hprev ▸ length_le_of_counts hcounts, hlt⟩
    · intro x hx
      rw [find?_append] at hx
      cases hfind : cuts.find? (fun e => decide (e.newDepositCount < db.bridge.rows.length)) with
      | some y =>
        rw [hfind, Option.some_or] at hx
        exact hS.firstCut x (hfind.trans hx)
      | none =>
        -- Nothing was cut before: the bridges counted by the event include all earlier ones.
        rw [hfind, Option.none_or] at hx
        have hxb : x = b := mem_singleton.mp (mem_of_find?_eq_some hx)
        have hall := least_eq_of_find?_eq_none hfind
        rw [hxb, show b.previousDepositCount = _ from hprev, hbridge, length_append,
          length_take, hall, Nat.min_self]
        exact Nat.le_add_right _ _
  | forwardLET f =>
    obtain ⟨added, t, u, ht, hadded, -, rfl⟩ := heffect
    exact hnone rfl { hS with bridge := hS.bridge_append ht fun a ha => hadded a ha ▸ he }

/-- The events of a later block. -/
theorem Since.handled {cfg : Config H} {es : List (EventPart H)} (hes : ∀ e ∈ es, firstReorgedBlock ≤ e.blockNum)
    (hkeeps : ∀ e ∈ es, KeepsEarlier db e) (hhandled : Handled cfg es db' db'')
    (hprev : Along cfg.countAfter PreviousCount db'.bridge.rows.length es) :
    Since firstReorgedBlock db (cuts ++ es.flatMap EventPart.cuts) db'' := by
  induction hhandled generalizing cuts with
  | nil =>
    rw [flatMap_nil, append_nil]
    exact hS
  | cons hcounts heffect hlen _ ih =>
    have hS' := effect hB hrows hS hcounts (hes _ (.head _)) hprev.1 (hkeeps _ (.head _)) heffect
    rw [flatMap_cons, ← append_assoc]
    exact ih hS' (fun e he => hes e (.tail _ he)) (fun e he => hkeeps e (.tail _ he))
      (hlen ▸ hprev.2)

end since

/-! ## What a reorg restores of the earlier bridges -/

/-- The first event that cuts below `n` cuts deepest. -/
def FirstCutDeepest (n : ℕ) (cuts : List (BackwardLET H)) : Prop :=
  ∀ e, cuts.find? (fun e => decide (e.newDepositCount < n)) = some e →
    ∀ e' ∈ cuts, e.newDepositCount ≤ e'.newDepositCount

section restored

variable {db' : Tables H} {cuts : List (BackwardLET H)}
  (hS : Since firstReorgedBlock db cuts db')

/-- The deposit counts grow along rows that count up. -/
theorem pairwise_depositCount_drop {rows : List (Bridge H)} (hcounts : CountsUp rows) (n : ℕ) :
    ((rows.drop n).map Bridge.archived).Pairwise fun a b =>
      a.depositCount.toNat < b.depositCount.toNat := by
  have hall : rows.Pairwise fun a b => a.depositCount.toNat < b.depositCount.toNat := by
    rw [← pairwise_map, hcounts]
    exact pairwise_lt_range
  exact pairwise_map.mpr (hall.sublist (drop_sublist n rows))

include hS

/-- The earlier bridges that were cut off come back, in order. -/
theorem Since.restoredBridges_eq (hrows : CountsUp db.bridge.rows)
    (hkeeps : ∀ e ∈ cuts, ∀ a ∈ db.bridgeArchive.rows, e.covers a = false)
    (hfirst : FirstCutDeepest db.bridge.rows.length cuts) :
    restoredBridges firstReorgedBlock cuts db'.bridgeArchive.rows =
      ((db.bridge.rows.drop (least db.bridge.rows.length cuts)).map Bridge.archived).map
        Bridge.restore := by
  obtain ⟨added, harchive, hperm, hadded⟩ := hS.bridgeArchive
  -- The archived rows of earlier blocks that are not of the earlier archive are the bridges cut off.
  have hold : ∀ a ∈ added, a.blockNum < firstReorgedBlock →
      least db.bridge.rows.length cuts ≤ a.depositCount.toNat ∧
        a.depositCount.toNat < db.bridge.rows.length := by
    intro a ha hlt
    have hmem := hperm.mem_iff.mp (mem_filter.mpr ⟨ha, decide_eq_true hlt⟩)
    obtain ⟨b, hb, rfl⟩ := mem_map.mp hmem
    have hb' := depositCount_of_mem_drop hrows hb
    exact hb'
  cases hfind : cuts.find? (fun e => decide (e.newDepositCount < db.bridge.rows.length)) with
  | none =>
    have hleast := least_eq_of_find?_eq_none hfind
    rw [hleast, drop_length, map_nil, map_nil, harchive]
    refine restoredBridges_eq_nil fun a ha hlt e he => ?_
    rcases mem_append.mp ha with ha | ha
    · exact hkeeps e he a ha
    · have := hold a ha hlt
      omega
  | some e =>
    have hdeep := hfirst e hfind
    have hprev := hS.firstCut e hfind
    obtain ⟨hcut, before, after, rfl, hbefore⟩ := find?_eq_some_iff_append.mp hfind
    have hcut : e.newDepositCount < db.bridge.rows.length := of_decide_eq_true hcut
    have hmem : e ∈ before ++ e :: after := by simp
    have hleast : least db.bridge.rows.length (before ++ e :: after) = e.newDepositCount :=
      le_antisymm ((le_least_iff.mp le_rfl).2 e hmem) (le_least_iff.mpr ⟨hcut.le, hdeep⟩)
    rw [hleast] at hperm hold ⊢
    -- Events before the first cut have intervals above the earlier bridges.
    have habove : ∀ a, a.depositCount.toNat < db.bridge.rows.length →
        ∀ e' ∈ before, e'.covers a = false := by
      intro a ha e' he'
      have hge : ¬e'.newDepositCount < db.bridge.rows.length := by
        simpa using hbefore e' he'
      exact decide_eq_false fun hin => by omega
    have hcovers : ∀ a ∈ added, a.blockNum < firstReorgedBlock → e.covers a = true := by
      intro a ha hlt
      obtain ⟨hge, hlt'⟩ := hold a ha hlt
      exact decide_eq_true ⟨hge, by omega⟩
    have hnone : restoredBridges firstReorgedBlock before db'.bridgeArchive.rows = [] := by
      refine restoredBridges_eq_nil fun a ha hlt e' he' => ?_
      rcases mem_append.mp (harchive ▸ ha) with ha | ha
      · exact hkeeps e' (mem_append_left _ he') a ha
      · exact habove a (hold a ha hlt).2 e' he'
    have hselect : ((outside before db'.bridgeArchive.rows).filter e.covers).filter
        (fun a => decide (a.blockNum < firstReorgedBlock)) =
        added.filter fun a => decide (a.blockNum < firstReorgedBlock) := by
      unfold outside
      rw [harchive, filter_filter, filter_filter, filter_append]
      have hearlier : db.bridgeArchive.rows.filter (fun a => decide (a.blockNum <
          firstReorgedBlock) && e.covers a && !before.any fun e' => e'.covers a) = [] :=
        filter_eq_nil_iff.mpr fun a ha => by simp [hkeeps e hmem a ha]
      rw [hearlier, nil_append]
      refine filter_congr fun a ha => ?_
      by_cases hlt : a.blockNum < firstReorgedBlock
      · have hbefore' : (before.any fun e' => e'.covers a) = false :=
          any_eq_false.mpr fun e' he' => by simp [habove a (hold a ha hlt).2 e' he']
        simp [hlt, hbefore', hcovers a ha hlt]
      · simp [hlt]
    have hafter : restoredBridges firstReorgedBlock after
        (Table.deleteWhere e.covers (outside before db'.bridgeArchive.rows)) = [] := by
      refine restoredBridges_eq_nil fun a ha hlt e' he' => ?_
      obtain ⟨ha, hout⟩ := Table.mem_deleteWhere.mp ha
      rcases mem_append.mp (harchive ▸ mem_of_mem_filter ha) with ha | ha
      · exact hkeeps e' (mem_append_right _ (.tail _ he')) a ha
      · rw [hcovers a ha hlt] at hout
        cases hout
    rw [restoredBridges_append, hnone, nil_append, restoredBridges_cons, hafter,
      append_nil]
    refine congrArg _ (Table.filter_orderBy_eq ?_ (pairwise_depositCount_drop hrows _))
    rw [hselect]
    exact hperm

/-- The archive of the earlier blocks is what is left of the archive. -/
theorem Since.outside_eq (hkeeps : ∀ e ∈ cuts, ∀ a ∈ db.bridgeArchive.rows, e.covers a = false) :
    outside cuts db'.bridgeArchive.rows = db.bridgeArchive.rows := by
  obtain ⟨added, harchive, -, hadded⟩ := hS.bridgeArchive
  rw [outside, harchive]
  refine Table.filter_append_left (fun a ha => ?_) fun a ha => ?_
  · rw [Bool.not_eq_true', any_eq_false]
    exact fun e he => by simp [hkeeps e he a ha]
  · obtain ⟨-, e, he, hcovers⟩ := hadded a ha
    rw [Bool.not_eq_false', any_eq_true]
    exact ⟨e, he, hcovers⟩

/-- The events that are undone are those of the later blocks. -/
theorem Since.undone_eq (hB : Below firstReorgedBlock db) : db'.undone firstReorgedBlock = cuts := by
  rw [Tables.undone, hS.backwardLET]
  exact Table.filter_append_right
    (fun e he => decide_eq_false (Nat.not_le.mpr (hB.backwardLET e he)))
    fun e he => decide_eq_true (hS.cut e he).1

/-- The bridges that stay are the earlier ones that were not cut off. -/
theorem Since.remaining_eq (hB : Below firstReorgedBlock db) :
    db'.remaining firstReorgedBlock =
      db.bridge.rows.take (least db.bridge.rows.length cuts) := by
  obtain ⟨later, hbridge, hlater⟩ := hS.bridge
  rw [Tables.remaining, hbridge]
  exact Table.deleteWhere_append_left
    (fun b hb => decide_eq_false (Nat.not_le.mpr (hB.bridge b (mem_of_mem_take hb)).1))
    fun b hb => decide_eq_true (hlater b hb)

end restored

/-! ## Valid sequences of blocks -/

section blocks

variable [DecidableEq H] {cfg : Config H} {p q : Processor H}

/-- The processor after blocks. -/
def Processor.process (cfg : Config H) (p : Processor H) (blocks : List (Block H)) : Processor H :=
  blocks.foldl (fun p block => (p.processBlock cfg block).2) p

/-- The block is processed without an error, in particular its root checks pass, its events are in
order and its `BackwardLET` events know the number of bridges. -/
def Valid (cfg : Config H) (p : Processor H) (block : Block H) : Prop :=
  (p.processBlock cfg block).1 = .ok () ∧ Orderly cfg p.db block ∧
    Along cfg.countAfter PreviousCount p.db.bridge.rows.length block.parts

/-- Every block of the sequence is valid on the blocks before it. -/
def ValidBlocks (cfg : Config H) : Processor H → List (Block H) → Prop :=
  Along (fun p block => (p.processBlock cfg block).2) (Valid cfg)

omit [DecidableEq H] in
theorem mem_upsertBlock_of_ne {rows : List (ℕ × H)} {r : ℕ × H} {num : ℕ} (hash : H) (hr : r ∈ rows)
    (hne : r.1 ≠ num) : r ∈ upsertBlock rows num hash := by
  unfold upsertBlock
  split_ifs
  · exact mem_map.mpr ⟨r, hr, by rw [if_neg hne]⟩
  · exact mem_append_left _ hr

/-- The blocks before the reorged one keep the bridges in step and all rows below it. -/
theorem below_of_validBlocks (hinj : Function.Injective2 cfg.keccak.pair)
    {blocks : List (Block H)} (hvalid : ValidBlocks cfg p blocks)
    (hnum : ∀ block ∈ blocks, block.num < firstReorgedBlock)
    (hC : Consistent cfg p.db.bridge.rows p.exitTree) (hB : Below firstReorgedBlock p.db) :
    Consistent cfg (p.process cfg blocks).db.bridge.rows (p.process cfg blocks).exitTree ∧
      Below firstReorgedBlock (p.process cfg blocks).db := by
  induction blocks generalizing p with
  | nil => exact ⟨hC, hB⟩
  | cons block blocks ih =>
    obtain ⟨⟨hok, hO, -⟩, hrest⟩ := hvalid
    obtain ⟨hhandled, hC'⟩ := processBlock_spec hinj hC hO hok
    have hbegin : Below firstReorgedBlock (p.beginBlock block).db := by
      refine { hB with bridge := fun b hb => ?_ }
      obtain ⟨hlt, r, hr, hrnum⟩ := hB.bridge b hb
      refine ⟨hlt, ?_⟩
      by_cases hsame : r.1 = block.num
      · obtain ⟨r', hr', hr'num⟩ := exists_mem_upsertBlock p.db.block block.num block.hash
        exact ⟨r', hr', by rw [hr'num, ← hsame, hrnum]⟩
      · exact ⟨r, mem_upsertBlock_of_ne block.hash hr hsame, hrnum⟩
    have hB' := hbegin.handled hO.blockNum_eq (hnum block (.head _))
      (exists_mem_upsertBlock p.db.block block.num block.hash) hhandled
    exact ih hrest (fun b hb => hnum b (.tail _ hb)) hC' hB'

/-- The blocks from the reorged one on. -/
theorem since_of_validBlocks (hinj : Function.Injective2 cfg.keccak.pair)
    (hB : Below firstReorgedBlock db) (hrows : CountsUp db.bridge.rows) {blocks : List (Block H)} (hvalid : ValidBlocks cfg p blocks)
    (hnum : ∀ block ∈ blocks, firstReorgedBlock ≤ block.num)
    (hkeeps : ∀ block ∈ blocks, ∀ e ∈ block.parts, KeepsEarlier db e)
    (hC : Consistent cfg p.db.bridge.rows p.exitTree) {cuts : List (BackwardLET H)}
    (hS : Since firstReorgedBlock db cuts p.db) :
    Consistent cfg (p.process cfg blocks).db.bridge.rows (p.process cfg blocks).exitTree ∧
      Since firstReorgedBlock db (cuts ++ blocks.flatMap fun b => b.parts.flatMap EventPart.cuts)
        (p.process cfg blocks).db := by
  induction blocks generalizing p cuts with
  | nil =>
    rw [flatMap_nil, append_nil]
    exact ⟨hC, hS⟩
  | cons block blocks ih =>
    obtain ⟨⟨hok, hO, hprev⟩, hrest⟩ := hvalid
    obtain ⟨hhandled, hC'⟩ := processBlock_spec hinj hC hO hok
    have hlate := hnum block (.head _)
    have hbegin : Since firstReorgedBlock db cuts (p.beginBlock block).db := by
      refine { hS with block := fun r hr hlt => ?_ }
      exact mem_upsertBlock_of_ne block.hash (hS.block r hr hlt) (by omega)
    have hS' := Since.handled hB hrows hbegin (fun e he => by rw [hO.blockNum_eq e he]; exact hlate)
      (hkeeps block (.head _)) hhandled hprev
    rw [flatMap_cons, ← append_assoc]
    exact ih hrest (fun b hb => hnum b (.tail _ hb)) (fun b hb => hkeeps b (.tail _ hb)) hC' hS'

/-- The `BackwardLET` events of blocks. -/
def cutsOf (blocks : List (Block H)) : List (BackwardLET H) :=
  blocks.flatMap fun block => block.parts.flatMap EventPart.cuts

/-- What later blocks may do to the tables of the earlier ones for a reorg to undo it. -/
structure Undoable (db : Tables H) (later : List (Block H)) : Prop where
  /-- No removal of an earlier migration, and no earlier archived bridge in an interval. -/
  keeps : ∀ block ∈ later, ∀ e ∈ block.parts, KeepsEarlier db e
  /-- The first event that cuts earlier bridges cuts deepest. -/
  firstCut : FirstCutDeepest db.bridge.rows.length (cutsOf later)
  /-- The bridges that are cut are not of a `ForwardLET`. -/
  source : ∀ e ∈ cutsOf later, ∀ b ∈ db.bridge.rows.drop e.newDepositCount, b.source = .none

omit [DecidableEq H] in
/-- Bridges that were read from their own events come back as they were. -/
theorem restore_archived {rows : List (Bridge H)} (hsource : ∀ b ∈ rows, b.source = .none) :
    (rows.map Bridge.archived).map Bridge.restore = rows := by
  rw [map_map]
  refine (map_congr_left fun b hb => ?_).trans (map_id rows)
  have hb' := hsource b hb
  cases b
  simp_all [Bridge.archived, Bridge.restore]

omit [DecidableEq H] in
theorem exists_cut_of_least_lt {n : ℕ} {cuts : List (BackwardLET H)} (hlt : least n cuts < n) :
    ∃ e ∈ cuts, e.newDepositCount = least n cuts := by
  induction cuts using List.reverseRecOn with
  | nil => exact absurd hlt (lt_irrefl n)
  | append_singleton cuts e ih =>
    rw [least_concat] at hlt ⊢
    rcases le_total (least n cuts) e.newDepositCount with hle | hle
    · rw [min_eq_left hle] at hlt ⊢
      obtain ⟨e', he', heq⟩ := ih hlt
      exact ⟨e', mem_append_left _ he', heq⟩
    · rw [min_eq_right hle]
      exact ⟨e, mem_append_right _ (.head _), rfl⟩

/-- `Reorg` on a processor that has come from `p` by later blocks. -/
theorem Processor.reorg_since (hinj : Function.Injective2 cfg.keccak.pair)
    (hCp : Consistent cfg p.db.bridge.rows p.exitTree) (hB : Below firstReorgedBlock p.db)
    (hCq : Consistent cfg q.db.bridge.rows q.exitTree) {later : List (Block H)}
    (hS : Since firstReorgedBlock p.db (cutsOf later) q.db) (hundo : Undoable p.db later) :
    let r := q.reorg cfg firstReorgedBlock
    r.1 = .ok () ∧ r.2.db.bridge = p.db.bridge ∧ r.2.db.bridgeArchive = p.db.bridgeArchive ∧
      r.2.db.tokenMapping = p.db.tokenMapping ∧
      r.2.db.legacyTokenMigration = p.db.legacyTokenMigration ∧
      r.2.exitTree.store.root = p.exitTree.store.root := by
  have hkeeps : ∀ e ∈ cutsOf later, ∀ a ∈ p.db.bridgeArchive.rows, e.covers a = false := by
    intro e he
    obtain ⟨block, hblock, he⟩ := mem_flatMap.mp he
    obtain ⟨part, hpart, he⟩ := mem_flatMap.mp he
    cases part with
    | backwardLET e' =>
      rw [mem_singleton.mp he]
      exact hundo.keeps block hblock _ hpart
    | _ => simp [EventPart.cuts] at he
  have hsource : ∀ b ∈ p.db.bridge.rows.drop (least p.db.bridge.rows.length (cutsOf later)),
      b.source = .none := by
    intro b hb
    have hlt : least p.db.bridge.rows.length (cutsOf later) < p.db.bridge.rows.length := by
      obtain ⟨hge, hlt⟩ := depositCount_of_mem_drop hCp.counts hb
      omega
    obtain ⟨e, he, heq⟩ := exists_cut_of_least_lt hlt
    exact hundo.source e he b (heq ▸ hb)
  -- What stays and what comes back are together the earlier bridges.
  have hundone := hS.undone_eq hB
  have hremaining := hS.remaining_eq hB
  have hrestored : q.db.restored firstReorgedBlock =
      p.db.bridge.rows.drop (least p.db.bridge.rows.length (cutsOf later)) := by
    unfold Tables.restored
    rw [hundone, hS.restoredBridges_eq hCp.counts hkeeps hundo.firstCut, restore_archived hsource]
  have hall : q.db.remaining firstReorgedBlock ++ q.db.restored firstReorgedBlock =
      p.db.bridge.rows := by
    rw [hremaining, hrestored, take_append_drop]
  have hadd : Continues (q.db.remaining firstReorgedBlock) (q.db.restored firstReorgedBlock) := by
    refine ⟨?_, ?_⟩ <;> rw [hall]
    · exact hCp.counts
    · exact hCp.ordered
  have hok : (q.reorg cfg firstReorgedBlock).1 = .ok () := by
    refine reorg_succeeds hinj hCq hadd ?_ ?_ ?_
    · intro e he
      obtain ⟨-, hprev, hnew⟩ := hS.cut e (hundone ▸ he)
      omega
    · intro b hb
      rw [hrestored] at hb
      obtain ⟨hlt, r, hr, hnum⟩ := hB.bridge b (mem_of_mem_drop hb)
      exact ⟨r, hS.block r hr (hnum ▸ hlt), hnum, hnum ▸ hlt⟩
    · rw [hall]
      exact hCp.nonzero
  obtain ⟨t, a, ht, ha, hdb, hC⟩ := reorg_spec hinj hCq hadd hok
  rw [hall] at ht
  rw [hundone, hS.outside_eq hkeeps] at ha
  refine ⟨hok, ?_, ?_, ?_, ?_, by rw [hC.synced.rows, ht, hCp.synced.rows]⟩ <;> rw [hdb]
  · exact Keyed.ext ht
  · exact Keyed.ext ha
  · exact Keyed.ext hS.tokenMapping
  · exact Keyed.ext hS.legacyTokenMigration

omit [DecidableEq H] in
theorem Below.empty : Below firstReorgedBlock (Tables.empty : Tables H) := by
  constructor <;> simp [Tables.empty, Keyed.empty]

/-- In every valid sequence of blocks, if the blocks from `firstReorgedBlock` on are undoable, then
`Reorg` succeeds and leaves the tables and the exit roots as the blocks before it made them. -/
theorem reorg_undoes_later_blocks (hinj : Function.Injective2 cfg.keccak.pair)
    {earlier later : List (Block H)} (hearlier : ∀ block ∈ earlier, block.num < firstReorgedBlock)
    (hlater : ∀ block ∈ later, firstReorgedBlock ≤ block.num)
    (hvalid : ValidBlocks cfg (new cfg) (earlier ++ later))
    (hundo : Undoable ((new cfg).process cfg earlier).db later) :
    let p := (new cfg).process cfg earlier
    let r := ((new cfg).process cfg (earlier ++ later)).reorg cfg firstReorgedBlock
    r.1 = .ok () ∧ r.2.db.bridge = p.db.bridge ∧ r.2.db.bridgeArchive = p.db.bridgeArchive ∧
      r.2.db.tokenMapping = p.db.tokenMapping ∧
      r.2.db.legacyTokenMigration = p.db.legacyTokenMigration ∧
      r.2.exitTree.store.root = p.exitTree.store.root := by
  obtain ⟨hvalid1, hvalid2⟩ := Along.append_iff.mp hvalid
  obtain ⟨hC, hB⟩ := below_of_validBlocks hinj hvalid1 hearlier consistent_new Below.empty
  obtain ⟨hC', hS⟩ := since_of_validBlocks hinj hB hC.counts hvalid2 hlater hundo.keeps hC hB.since
  have happend : (new cfg).process cfg (earlier ++ later) =
      ((new cfg).process cfg earlier).process cfg later := foldl_append
  rw [happend]
  exact reorg_since hinj hC hB hC' hS hundo

end blocks

/-- The block with one bridge, undone. -/
theorem reorg_undoes_oneBridge :
    let r := ((new freeConfig).process freeConfig ([] ++ [oneBridge])).reorg freeConfig 1
    r.1 = .ok () ∧ r.2.db.bridge = (new freeConfig).db.bridge ∧
      r.2.db.bridgeArchive = (new freeConfig).db.bridgeArchive ∧
      r.2.db.tokenMapping = (new freeConfig).db.tokenMapping ∧
      r.2.db.legacyTokenMigration = (new freeConfig).db.legacyTokenMigration ∧
      r.2.exitTree.store.root = (new freeConfig).exitTree.store.root := by
  have hinj : Function.Injective2 freeConfig.keccak.pair := freeKeccak_injective2_pair
  have hok : ((new freeConfig).processBlock freeConfig oneBridge).1 = .ok () := by
    decide +kernel
  have hvalid : ValidBlocks freeConfig (new freeConfig) ([] ++ [oneBridge]) :=
    ⟨⟨hok, oneBridge_orderly, ⟨trivial, trivial⟩⟩, trivial⟩
  have hundo : Undoable (new freeConfig).db [oneBridge] :=
    ⟨forall_mem_singleton.mpr (forall_mem_singleton.mpr trivial), nofun, nofun⟩
  exact reorg_undoes_later_blocks hinj (by simp) (by simp [oneBridge]) hvalid hundo

/-! ## A migration that does not come back -/

/-- A legacy token migration in the first block. -/
def migrates : Block ℕ :=
  let row : LegacyTokenMigration ℕ := ⟨1, 0, 0, 0, ZeroAddress, ZeroAddress, ZeroAddress, 7⟩
  ⟨1, 0, [{ legacyTokenMigration := some row }]⟩

/-- The removal of that legacy token in the second block. -/
def removes : Block ℕ :=
  ⟨2, 0, [{ removeLegacyToken := some ⟨2, 0, 0, 0, ZeroAddress⟩ }]⟩

/-- Both blocks are processed, and the reorg of the second one succeeds, but the migration that
the first one alone leaves in its table is gone. -/
theorem removed_migration_not_restored :
    ValidBlocks toyConfig (new toyConfig) ([migrates] ++ [removes]) ∧
      (((new toyConfig).process toyConfig ([migrates] ++ [removes])).reorg
        toyConfig 2).1 = .ok () ∧
      (((new toyConfig).process toyConfig ([migrates] ++ [removes])).reorg
        toyConfig 2).2.db.legacyTokenMigration.rows.length = 0 ∧
      ((new toyConfig).process toyConfig
        [migrates]).db.legacyTokenMigration.rows.length = 1 := by
  have horderly : Orderly toyConfig (new toyConfig).db migrates := by
    refine ⟨?_, ?_, ?_, trivial, trivial⟩ <;> decide
  have horderly' : Orderly toyConfig
      ((new toyConfig).processBlock toyConfig migrates).2.db removes := by
    refine ⟨?_, ?_, ?_, trivial, trivial⟩ <;> decide
  have hok : ((new toyConfig).processBlock toyConfig migrates).1 = .ok () := rfl
  have hok' : (((new toyConfig).processBlock toyConfig migrates).2.processBlock
      toyConfig removes).1 = .ok () := rfl
  exact ⟨⟨⟨hok, horderly, trivial, trivial⟩, ⟨hok', horderly', trivial, trivial⟩, trivial⟩,
    rfl, rfl, rfl⟩

end AggKit.BridgeSync
