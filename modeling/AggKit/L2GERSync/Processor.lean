import AggKit.Lib.Exec
import AggKit.Lib.Table

/-!
# The processor of `l2gersync/processor.go`

The syncer of the global exit roots that were injected into L2 stores a row for each insertion and a
row for each removal. A removal also deletes the rows of its global exit root, whatever block they
are of. Both tables reference the table `block`, and `Reorg` deletes blocks, so that it takes the
rows of the deleted blocks with it and nothing else.

The last section compares the tables after a reorg with those that the earlier blocks alone leave
(`reorg_visible_iff`). A removal in a reorged block stays in effect: the rows it deleted belong to
earlier blocks and nothing brings them back.
-/

namespace AggKit.L2GERSync

open Table List

/-- `GEREventType`. -/
inductive GEREventType where
  /-- `GEREventTypeInsert` -/
  | insert
  /-- `GEREventTypeRemove` -/
  | remove
deriving DecidableEq

/-- `GlobalExitRootInfo`, a row of the table `imported_global_exit_root_v2`. -/
structure GlobalExitRootInfo (H : Type) where
  globalExitRoot : H
  l1InfoTreeIndex : UInt32
  blockNum : ℕ
  blockPosition : ℕ
  timestamp : Option ℕ
deriving DecidableEq

/-- `RemoveGEREvent`, a row of the table `remove_ger_events`. -/
structure RemoveGEREvent (H : Type) where
  globalExitRoot : H
  blockNum : ℕ
  blockPos : ℕ
deriving DecidableEq

/-- `Event`. -/
structure Event (H : Type) where
  gerInfo : GlobalExitRootInfo H
  eventType : GEREventType
deriving DecidableEq

/-- `sync.Block` with the events of this syncer. -/
structure Block (H : Type) where
  num : ℕ
  hash : H
  events : List (Event H)

variable {H : Type}

/-- The primary key of `imported_global_exit_root_v2`. -/
def GlobalExitRootInfo.key (r : GlobalExitRootInfo H) : ℕ × ℕ := (r.blockNum, r.blockPosition)

/-- The primary key of `remove_ger_events`. -/
def RemoveGEREvent.key (r : RemoveGEREvent H) : ℕ × ℕ := (r.blockNum, r.blockPos)

/-- The tables of the database. -/
structure Tables (H : Type) where
  block : Keyed (Prod.fst : ℕ × H → ℕ)
  importedGlobalExitRoot : Keyed (GlobalExitRootInfo.key (H := H))
  removeGEREvents : Keyed (RemoveGEREvent.key (H := H))

/-- The tables of a new database. -/
def Tables.empty : Tables H := ⟨Keyed.empty, Keyed.empty, Keyed.empty⟩

/-- Why a statement of `ProcessBlock` fails. -/
inductive ProcessError (H : Type) where
  /-- `failed to insert block` -/
  | insertBlock (num : ℕ)
  /-- `failed to insert imported global exit root` -/
  | insertGlobalExitRoot (globalExitRoot : H) (blockNum : ℕ)
  /-- `failed to insert remove GER event` -/
  | insertRemoveGEREvent (globalExitRoot : H) (blockNum blockPos : ℕ)
deriving DecidableEq

/-- The block is stored, as the foreign keys ask. -/
def Tables.hasBlock (db : Tables H) (num : ℕ) : Bool := db.block.rows.any fun r => r.1 = num

/-- `meddler.Insert` into `imported_global_exit_root_v2`. -/
def Tables.insertGlobalExitRoot (db : Tables H) (r : GlobalExitRootInfo H) :
    Except (ProcessError H) (Tables H) :=
  match db.importedGlobalExitRoot.insert r with
  | some t =>
    if db.hasBlock r.blockNum then .ok { db with importedGlobalExitRoot := t }
    else .error (.insertGlobalExitRoot r.globalExitRoot r.blockNum)
  | none => .error (.insertGlobalExitRoot r.globalExitRoot r.blockNum)

/-- `meddler.Insert` into `remove_ger_events`. -/
def Tables.insertRemoveGEREvent (db : Tables H) (r : RemoveGEREvent H) :
    Except (ProcessError H) (Tables H) :=
  match db.removeGEREvents.insert r with
  | some t =>
    if db.hasBlock r.blockNum then .ok { db with removeGEREvents := t }
    else .error (.insertRemoveGEREvent r.globalExitRoot r.blockNum r.blockPos)
  | none => .error (.insertRemoveGEREvent r.globalExitRoot r.blockNum r.blockPos)

/-- `deleteGERSql`. -/
def Tables.deleteGER [DecidableEq H] (db : Tables H) (ger : H) : Tables H :=
  { db with
    importedGlobalExitRoot :=
      db.importedGlobalExitRoot.deleteWhere fun r => decide (r.globalExitRoot = ger) }

section process

variable [DecidableEq H]

/-- `handleGEREvent`. -/
def handleGEREvent (db : Tables H) (e : Event H) : Except (ProcessError H) (Tables H) :=
  match e.eventType with
  | .insert => db.insertGlobalExitRoot e.gerInfo
  | .remove =>
    (db.deleteGER e.gerInfo.globalExitRoot).insertRemoveGEREvent
      ⟨e.gerInfo.globalExitRoot, e.gerInfo.blockNum, e.gerInfo.blockPosition⟩

/-- The loop of `ProcessBlock` over the events. -/
def handleGEREvents : List (Event H) → Tables H → Except (ProcessError H) (Tables H)
  | [], db => .ok db
  | e :: es, db => do
    let db' ← handleGEREvent db e
    handleGEREvents es db'

/-- `ProcessBlock`; an error rolls the transaction back. -/
def processBlock (db : Tables H) (block : Block H) : Except (ProcessError H) (Tables H) :=
  match db.block.insert (block.num, block.hash) with
  | some t => handleGEREvents block.events { db with block := t }
  | none => .error (.insertBlock block.num)

/-- Blocks that are processed one after the other. -/
def processBlocks : List (Block H) → Tables H → Except (ProcessError H) (Tables H)
  | [], db => .ok db
  | block :: blocks, db => do
    let db' ← processBlock db block
    processBlocks blocks db'

end process

/-- `Reorg`: the blocks from `firstReorgedBlock` on, with the rows that reference them. -/
def Tables.reorg (db : Tables H) (firstReorgedBlock : ℕ) : Tables H where
  block := db.block.deleteWhere fun r => decide (firstReorgedBlock ≤ r.1)
  importedGlobalExitRoot :=
    db.importedGlobalExitRoot.deleteWhere fun r => decide (firstReorgedBlock ≤ r.blockNum)
  removeGEREvents :=
    db.removeGEREvents.deleteWhere fun r => decide (firstReorgedBlock ≤ r.blockNum)

/-- `gerMap[gerInfo.GlobalExitRoot] = *gerInfo`. -/
def setGER [DecidableEq H] (gerMap : H → Option (GlobalExitRootInfo H))
    (r : GlobalExitRootInfo H) : H → Option (GlobalExitRootInfo H) :=
  Function.update gerMap r.globalExitRoot (some r)

/-- `GetInjectedGERsForRange`: a map from the global exit roots of the rows in the range; `none` is
the error about the range. -/
def Tables.getInjectedGERsForRange [DecidableEq H] (db : Tables H) (fromBlock toBlock : ℕ) :
    Option (H → Option (GlobalExitRootInfo H)) :=
  if toBlock < fromBlock then none
  else
    let results := db.importedGlobalExitRoot.rows.filter fun r =>
      fromBlock ≤ r.blockNum ∧ r.blockNum ≤ toBlock
    some (results.foldl setGER fun _ => none)

/-- A global exit root with a row in the table of injected ones. -/
def Tables.Injected (db : Tables H) (ger : H) : Prop :=
  ∃ r ∈ db.importedGlobalExitRoot.rows, r.globalExitRoot = ger

/-- A global exit root with a row in the table that `GetRemoveGEREvents` reads. -/
def Tables.Removed (db : Tables H) (ger : H) : Prop :=
  ∃ r ∈ db.removeGEREvents.rows, r.globalExitRoot = ger

theorem isSome_foldl_setGER [DecidableEq H] (rows : List (GlobalExitRootInfo H))
    (gerMap : H → Option (GlobalExitRootInfo H)) (ger : H) :
    ((rows.foldl setGER gerMap) ger).isSome = true ↔
      (gerMap ger).isSome = true ∨ ∃ r ∈ rows, r.globalExitRoot = ger := by
  induction rows generalizing gerMap with
  | nil => simp
  | cons r rows ih =>
    rw [foldl_cons, ih, exists_mem_cons_iff, ← or_assoc]
    unfold setGER
    by_cases hger : r.globalExitRoot = ger
    · simp [hger]
    · rw [Function.update_of_ne (Ne.symm hger)]
      simp [hger]

variable {db db' : Tables H}

/-- The injected global exit roots are those that `GetInjectedGERsForRange` returns for some
range. -/
theorem Tables.injected_iff [DecidableEq H] {ger : H} :
    db.Injected ger ↔ ∃ fromBlock toBlock gerMap,
      db.getInjectedGERsForRange fromBlock toBlock = some gerMap ∧ (gerMap ger).isSome = true := by
  unfold Tables.Injected Tables.getInjectedGERsForRange
  constructor
  · rintro ⟨r, hr, hger⟩
    refine ⟨r.blockNum, r.blockNum, _, if_neg (lt_irrefl _), ?_⟩
    rw [isSome_foldl_setGER]
    exact .inr ⟨r, by simpa using hr, hger⟩
  · rintro ⟨fromBlock, toBlock, gerMap, hmap, hsome⟩
    split_ifs at hmap
    cases hmap
    rw [isSome_foldl_setGER] at hsome
    obtain ⟨r, hr, hger⟩ := hsome.resolve_left (by simp)
    exact ⟨r, mem_of_mem_filter hr, hger⟩

/-! ## What a call does to the rows -/

theorem Tables.insertGlobalExitRoot_eq_ok {r : GlobalExitRootInfo H}
    (hok : db.insertGlobalExitRoot r = .ok db') :
    db'.importedGlobalExitRoot.rows = db.importedGlobalExitRoot.rows ++ [r] ∧
      db'.removeGEREvents = db.removeGEREvents := by
  unfold Tables.insertGlobalExitRoot at hok
  split at hok
  · rename_i t ht
    split_ifs at hok
    cases hok
    exact ⟨(Keyed.insert_eq_some_iff.mp ht).2, rfl⟩
  · cases hok

theorem Tables.insertRemoveGEREvent_eq_ok {r : RemoveGEREvent H}
    (hok : db.insertRemoveGEREvent r = .ok db') :
    db'.removeGEREvents.rows = db.removeGEREvents.rows ++ [r] ∧
      db'.importedGlobalExitRoot = db.importedGlobalExitRoot := by
  unfold Tables.insertRemoveGEREvent at hok
  split at hok
  · rename_i t ht
    split_ifs at hok
    cases hok
    exact ⟨(Keyed.insert_eq_some_iff.mp ht).2, rfl⟩
  · cases hok

/-- The rows after an event. -/
theorem handleGEREvent_eq_ok [DecidableEq H] {e : Event H} (hok : handleGEREvent db e = .ok db') :
    (e.eventType = .insert ∧
      db'.importedGlobalExitRoot.rows = db.importedGlobalExitRoot.rows ++ [e.gerInfo] ∧
      db'.removeGEREvents.rows = db.removeGEREvents.rows) ∨
    (e.eventType = .remove ∧
      db'.importedGlobalExitRoot.rows = deleteWhere
        (fun r => decide (r.globalExitRoot = e.gerInfo.globalExitRoot))
        db.importedGlobalExitRoot.rows ∧
      db'.removeGEREvents.rows = db.removeGEREvents.rows ++
        [⟨e.gerInfo.globalExitRoot, e.gerInfo.blockNum, e.gerInfo.blockPosition⟩]) := by
  unfold handleGEREvent at hok
  cases htype : e.eventType with
  | insert =>
    rw [htype] at hok
    obtain ⟨hrows, hremoved⟩ := Tables.insertGlobalExitRoot_eq_ok hok
    exact .inl ⟨rfl, hrows, by rw [hremoved]⟩
  | remove =>
    rw [htype] at hok
    obtain ⟨hremoved, hrows⟩ := Tables.insertRemoveGEREvent_eq_ok hok
    exact .inr ⟨rfl, by rw [hrows]; rfl, hremoved⟩

/-! ## A reorg -/

/-- The event takes the global exit root out. -/
def Event.removes [DecidableEq H] (e : Event H) (ger : H) : Bool :=
  e.eventType = .remove && e.gerInfo.globalExitRoot = ger

/-- The events of a list of blocks. -/
def eventsOf (blocks : List (Block H)) : List (Event H) := blocks.flatMap Block.events

/-- The rows carry the number of the block that their events are in, as the appenders set it. -/
def Numbered (blocks : List (Block H)) : Prop :=
  ∀ block ∈ blocks, ∀ e ∈ block.events, e.gerInfo.blockNum = block.num

/-- All rows are of blocks before `firstReorgedBlock`. -/
structure Below (firstReorgedBlock : ℕ) (db : Tables H) : Prop where
  imported : ∀ r ∈ db.importedGlobalExitRoot.rows, r.blockNum < firstReorgedBlock
  removed : ∀ r ∈ db.removeGEREvents.rows, r.blockNum < firstReorgedBlock

/-- The rows of the blocks before `firstReorgedBlock`, after events from that block on: those of
`db` without the global exit roots that the events remove. -/
structure Since [DecidableEq H] (firstReorgedBlock : ℕ) (db : Tables H) (es : List (Event H))
    (db' : Tables H) : Prop where
  imported : (db'.reorg firstReorgedBlock).importedGlobalExitRoot.rows =
    deleteWhere (fun r => es.any fun e => e.removes r.globalExitRoot)
      db.importedGlobalExitRoot.rows
  removed : (db'.reorg firstReorgedBlock).removeGEREvents.rows = db.removeGEREvents.rows

section reorg

variable [DecidableEq H] {firstReorgedBlock : ℕ} {db db' db'' : Tables H} {es : List (Event H)}

omit [DecidableEq H] in
theorem Below.empty : Below firstReorgedBlock (Tables.empty : Tables H) := by
  constructor <;> simp [Tables.empty, Keyed.empty]

theorem Below.handleGEREvent {e : Event H} (hB : Below firstReorgedBlock db)
    (he : e.gerInfo.blockNum < firstReorgedBlock) (hok : handleGEREvent db e = .ok db') :
    Below firstReorgedBlock db' := by
  obtain ⟨-, himported, hremoved⟩ | ⟨-, himported, hremoved⟩ := handleGEREvent_eq_ok hok
  · constructor
    · rw [himported]
      exact forall_mem_append.mpr ⟨hB.imported, forall_mem_singleton.mpr he⟩
    · rw [hremoved]
      exact hB.removed
  · constructor
    · rw [himported]
      exact fun r hr => hB.imported r (mem_deleteWhere.mp hr).1
    · rw [hremoved]
      exact forall_mem_append.mpr ⟨hB.removed, forall_mem_singleton.mpr he⟩

/-- Before any event, a reorg deletes nothing. -/
theorem Below.since (hB : Below firstReorgedBlock db) : Since firstReorgedBlock db [] db := by
  constructor
  · have hkeep : deleteWhere (fun r => decide (firstReorgedBlock ≤ r.blockNum))
        db.importedGlobalExitRoot.rows = db.importedGlobalExitRoot.rows :=
      deleteWhere_eq_self fun r hr => by simpa using hB.imported r hr
    rw [Tables.reorg, Keyed.rows_deleteWhere, hkeep]
    exact (deleteWhere_eq_self fun r _ => by simp).symm
  · exact deleteWhere_eq_self fun r hr => by simpa using hB.removed r hr

/-- One event of a block from `firstReorgedBlock` on. -/
theorem Since.handleGEREvent {e : Event H} (hS : Since firstReorgedBlock db es db')
    (he : firstReorgedBlock ≤ e.gerInfo.blockNum) (hok : handleGEREvent db' e = .ok db'') :
    Since firstReorgedBlock db (es ++ [e]) db'' := by
  have hS1 := hS.imported
  have hS2 := hS.removed
  rw [Tables.reorg, Keyed.rows_deleteWhere] at hS1 hS2
  obtain ⟨htype, himported, hremoved⟩ | ⟨htype, himported, hremoved⟩ := handleGEREvent_eq_ok hok
  · -- the new row is of a reorged block
    constructor
    · have hnew : deleteWhere (fun r => decide (firstReorgedBlock ≤ r.blockNum)) [e.gerInfo] = [] :=
        deleteWhere_eq_nil (by simpa using he)
      rw [Tables.reorg, Keyed.rows_deleteWhere, himported, deleteWhere_append, hnew,
        append_nil, hS1]
      simp [Event.removes, htype, any_append]
    · rw [Tables.reorg, Keyed.rows_deleteWhere, hremoved, hS2]
  · constructor
    · -- the rows that the removal deletes are missing after the reorg as well
      rw [Tables.reorg, Keyed.rows_deleteWhere, himported, deleteWhere_comm, hS1]
      unfold deleteWhere
      rw [filter_filter]
      refine filter_congr fun r _ => ?_
      have hremoves : e.removes r.globalExitRoot =
          decide (r.globalExitRoot = e.gerInfo.globalExitRoot) := by
        simp [Event.removes, htype, eq_comm]
      simp only [any_append, any_cons, any_nil, Bool.or_false, Bool.not_or, hremoves]
      exact Bool.and_comm _ _
    · have hnew : deleteWhere (fun r => decide (firstReorgedBlock ≤ r.blockNum))
          [(⟨e.gerInfo.globalExitRoot, e.gerInfo.blockNum, e.gerInfo.blockPosition⟩ :
            RemoveGEREvent H)] = [] :=
        deleteWhere_eq_nil (by simpa using he)
      rw [Tables.reorg, Keyed.rows_deleteWhere, hremoved, deleteWhere_append, hnew,
        append_nil, hS2]

/-- What every event keeps, given the events so far, holds after all of them. -/
theorem handleGEREvents_induction {P : List (Event H) → Tables H → Prop} {es' : List (Event H)}
    (hevent : ∀ {es db db' e}, e ∈ es' → P es db → handleGEREvent db e = .ok db' →
      P (es ++ [e]) db')
    (h : P es db) (hok : handleGEREvents es' db = .ok db') : P (es ++ es') db' := by
  induction es' generalizing es db with
  | nil =>
    rw [append_nil]
    exact Except.ok.inj hok ▸ h
  | cons e es' ih =>
    obtain ⟨db1, he, hrest⟩ := Exec.except_bind_ok.mp hok
    have hafter := ih (fun he' => hevent (.tail _ he')) (hevent (.head _) h he) hrest
    rwa [append_assoc, singleton_append] at hafter

/-- The same for the events of blocks. -/
theorem processBlocks_induction (es : List (Event H)) {P : List (Event H) → Tables H → Prop}
    {blocks : List (Block H)} (hblock : ∀ {es db} t, P es db → P es { db with block := t })
    (hevent : ∀ {es db db' e}, ∀ block ∈ blocks, e ∈ block.events → P es db →
      handleGEREvent db e = .ok db' → P (es ++ [e]) db')
    (h : P es db) (hok : processBlocks blocks db = .ok db') : P (es ++ eventsOf blocks) db' := by
  induction blocks generalizing es db with
  | nil =>
    rw [eventsOf, flatMap_nil, append_nil]
    exact Except.ok.inj hok ▸ h
  | cons block blocks ih =>
    obtain ⟨db1, hfirst, hrest⟩ := Exec.except_bind_ok.mp hok
    unfold processBlock at hfirst
    split at hfirst
    · have hafter := handleGEREvents_induction (hevent block (.head _)) (hblock _ h) hfirst
      have hall := ih _ (fun block hb => hevent block (.tail _ hb)) hafter hrest
      rwa [append_assoc] at hall
    · cases hfirst

/-- The blocks before `firstReorgedBlock` leave rows below it only. -/
theorem Below.processBlocks {blocks : List (Block H)} (hB : Below firstReorgedBlock db)
    (hnum : Numbered blocks) (hbefore : ∀ block ∈ blocks, block.num < firstReorgedBlock)
    (hok : processBlocks blocks db = .ok db') : Below firstReorgedBlock db' :=
  processBlocks_induction [] (P := fun _ db => Below firstReorgedBlock db)
    (fun _ hB => ⟨hB.imported, hB.removed⟩)
    (fun block hb he hB => hB.handleGEREvent ((hnum block hb _ he).trans_lt (hbefore block hb)))
    hB hok

/-- The blocks from `firstReorgedBlock` on. -/
theorem Since.processBlocks {blocks : List (Block H)} (hS : Since firstReorgedBlock db es db')
    (hnum : Numbered blocks) (hafter : ∀ block ∈ blocks, firstReorgedBlock ≤ block.num)
    (hok : processBlocks blocks db' = .ok db'') :
    Since firstReorgedBlock db (es ++ eventsOf blocks) db'' :=
  processBlocks_induction es (P := Since firstReorgedBlock db)
    (fun _ hS => ⟨hS.imported, hS.removed⟩)
    (fun block hb he hS => hS.handleGEREvent ((hafter block hb).trans (hnum block hb _ he).ge))
    hS hok

/-- For every sequence of processed blocks, the injected and the removed global exit roots after
`Reorg` are those of the blocks before `firstReorgedBlock` if and only if no later block removes a
global exit root that those blocks leave injected. -/
theorem reorg_visible_iff {earlier later : List (Block H)}
    (hnum : Numbered (earlier ++ later))
    (hearlier : ∀ block ∈ earlier, block.num < firstReorgedBlock)
    (hlater : ∀ block ∈ later, firstReorgedBlock ≤ block.num)
    (hok : processBlocks earlier Tables.empty = .ok db)
    (hok' : processBlocks later db = .ok db') :
    ((∀ ger, (db'.reorg firstReorgedBlock).Injected ger ↔ db.Injected ger) ∧
        ∀ ger, (db'.reorg firstReorgedBlock).Removed ger ↔ db.Removed ger) ↔
      ∀ block ∈ later, ∀ e ∈ block.events, e.eventType = .remove →
        ¬db.Injected e.gerInfo.globalExitRoot := by
  have hB := Below.empty.processBlocks (fun b hb => hnum b (mem_append_left _ hb)) hearlier hok
  have hS := hB.since.processBlocks (fun b hb => hnum b (mem_append_right _ hb)) hlater hok'
  have hinjected : ∀ ger, (db'.reorg firstReorgedBlock).Injected ger ↔
      db.Injected ger ∧ ∀ e ∈ eventsOf later, e.removes ger = false := by
    intro ger
    unfold Tables.Injected
    rw [hS.imported]
    constructor
    · rintro ⟨r, hr, rfl⟩
      obtain ⟨hr, hkept⟩ := mem_deleteWhere.mp hr
      exact ⟨⟨r, hr, rfl⟩, by simpa using hkept⟩
    · rintro ⟨⟨r, hr, rfl⟩, hkept⟩
      exact ⟨r, mem_deleteWhere.mpr ⟨hr, by simpa using hkept⟩, rfl⟩
  have hremoved : ∀ ger, (db'.reorg firstReorgedBlock).Removed ger ↔ db.Removed ger := by
    intro ger
    unfold Tables.Removed
    rw [hS.removed]
  constructor
  · rintro ⟨hsame, -⟩ block hblock e he htype hinj
    have hkept := ((hinjected _).mp ((hsame _).mpr hinj)).2 e (mem_flatMap.mpr ⟨_, hblock, he⟩)
    simp [Event.removes, htype] at hkept
  · intro hkeep
    refine ⟨fun ger => ⟨fun h => ((hinjected ger).mp h).1, fun h => ?_⟩, hremoved⟩
    refine (hinjected ger).mpr ⟨h, fun e he => ?_⟩
    obtain ⟨block, hblock, he⟩ := mem_flatMap.mp he
    by_contra hremoves
    simp only [Event.removes, Bool.and_eq_false_iff, decide_eq_false_iff_not, not_or,
      not_not] at hremoves
    exact hkeep block hblock e he hremoves.1 (hremoves.2 ▸ h)

end reorg

/-- An event of a global exit root at a block and position. -/
def gerEvent (eventType : GEREventType) (ger blockNum blockPosition : ℕ) : Event ℕ :=
  ⟨⟨ger, 0, blockNum, blockPosition, none⟩, eventType⟩

/-- The first block, in which a global exit root is injected. -/
def injects : Block ℕ := ⟨1, 0, [gerEvent .insert 7 1 0]⟩

/-- The next block, in which another global exit root is injected and removed. -/
def injectsAndRemoves : Block ℕ := ⟨2, 0, [gerEvent .insert 8 2 0, gerEvent .remove 8 2 1]⟩

/-- The next block, in which the global exit root of the first one is removed. -/
def removesEarlier : Block ℕ := ⟨2, 0, [gerEvent .remove 7 2 0]⟩

theorem reorg_visible_iff_other_removed :
    ∃ db db' : Tables ℕ, processBlocks [injects] Tables.empty = .ok db ∧
      processBlocks [injectsAndRemoves] db = .ok db' ∧
      (∀ ger, (db'.reorg 2).Injected ger ↔ db.Injected ger) ∧
      ∀ ger, (db'.reorg 2).Removed ger ↔ db.Removed ger := by
  have hnum : Numbered ([injects] ++ [injectsAndRemoves]) := by
    simp [Numbered, injects, injectsAndRemoves, gerEvent]
  refine ⟨_, _, rfl, rfl, (@reorg_visible_iff ℕ _ 2 _ _ [injects] [injectsAndRemoves] hnum
    (by simp [injects]) (by simp [injectsAndRemoves]) rfl rfl).mpr ?_⟩
  intro block hblock e he htype
  rw [mem_singleton.mp hblock] at he
  rintro ⟨r, hr, hger⟩
  obtain rfl := mem_singleton.mp hr
  rcases mem_cons.mp he with rfl | he
  · cases htype
  · rw [mem_singleton.mp he] at hger
    cases hger

/-- A global exit root that is injected in block 1 and removed in block 2 is not visible after the
reorg of block 2. -/
theorem removed_ger_not_restored :
    ∃ db db' : Tables ℕ, processBlocks [injects] Tables.empty = .ok db ∧
      processBlocks [removesEarlier] db = .ok db' ∧
      db.Injected 7 ∧ ¬(db'.reorg 2).Injected 7 := by
  refine ⟨_, _, rfl, rfl, ⟨_, .head _, rfl⟩, ?_⟩
  rintro ⟨r, hr, -⟩
  cases hr

end AggKit.L2GERSync
