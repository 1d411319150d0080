import AggKit.MultiDownloader.Steps

/-!
# A step that gets its answers stores them

When the calls of a step to the node succeed, what can still fail is the database: the number of a
block is a key of `blocks`, whatever contract the block was downloaded for. The step stores its data
if no stored block lies between two pending ones (`ClearOf`), since `StepUnsafe` inserts every block
between the first and the last pending one and `StepSafe` some of them. The other constraints are met
because the answers are those of the queries: the keys of the logs are new with their blocks, the
blocks of the logs are among those inserted, and every contract that is asked for has a row.
-/

namespace AggKit.MultiDownloader

open Table SetSyncSegment List BlockRange Exec Storage

variable {A H : Type}

/-! ## What a node answers -/

/-- The logs are what a node returns for a query: they are of its blocks, no two have the same key, and
they carry the hash of the block when they were asked for by it. -/
structure LogQuery.Answered (q : LogQuery A H) (logs : List (Log A H)) : Prop where
  inRange : ∀ l ∈ logs, l.blockNumber ∈ q.blockRange
  nodup : (logs.map fun l => l.toRow.key).Nodup
  hash : ∀ hash, q.blockHash = some hash → ∀ l ∈ logs, l.blockHash = hash

/-- The node returns all headers that it is asked for. -/
def HeadersReply.Answered (reply : HeadersReply H) (blocks : List ℕ) : Prop :=
  ∃ headers, reply = some headers ∧ ∀ n ∈ blocks, ∃ h, headers n = .ok h ∧ h.number = n

/-- The block `n` is stored. -/
def Storage.Has (st : Storage A H) (n : ℕ) : Prop := ∃ row ∈ st.blocks.rows, row.number = n

/-- Marking blocks as final stores the same blocks. -/
theorem Storage.has_updateBlockToFinalized {st : Storage A H} {blockNumbers : List ℕ} {n : ℕ} :
    (st.updateBlockToFinalized blockNumbers).Has n ↔ st.Has n := by
  have hrows : (st.updateBlockToFinalized blockNumbers).blocks.rows = st.blocks.rows.map
      fun r => if r.number ∈ blockNumbers then { r with isFinal := true } else r := rfl
  have hkey : ∀ r : BlockRow H, (if r.number ∈ blockNumbers then { r with isFinal := true }
      else r).number = r.number := fun r => by split <;> rfl
  constructor
  · rintro ⟨row, hrow, rfl⟩
    obtain ⟨r, hr, rfl⟩ := mem_map.mp hrow
    exact ⟨r, hr, (hkey r).symm⟩
  · rintro ⟨r, hr, rfl⟩
    exact ⟨_, hrows ▸ mem_map_of_mem hr, hkey r⟩

/-- No stored block lies between two wanted ones, and block 0, which the database takes for no block,
is not wanted. -/
def ClearOf (stored : ℕ → Prop) (wanted : A → ℕ → Prop) : Prop :=
  (∀ addr, ¬wanted addr 0) ∧ ∀ b, stored b → ∀ addr₁ n₁ addr₂ n₂, wanted addr₁ n₁ →
    wanted addr₂ n₂ → n₁ ≤ b → n₂ < b

variable {stored : ℕ → Prop} {wanted : A → ℕ → Prop}

/-- A wanted block is not stored. -/
theorem ClearOf.not_stored (h : ClearOf stored wanted) {addr : A} {n : ℕ} (hn : wanted addr n) :
    ¬stored n := fun hb => by
  have hlt := h.2 n hb addr n addr n hn hn (Nat.le_refl n)
  omega

/-- The property for less: fewer blocks stored, and blocks wanted between the former ones. -/
theorem ClearOf.of_between {stored' : ℕ → Prop} {wanted' : A → ℕ → Prop} (h : ClearOf stored wanted)
    (hstored : ∀ b, stored' b → stored b)
    (hwanted : ∀ addr n, wanted' addr n → Between (wanted addr) n) : ClearOf stored' wanted' := by
  refine ⟨fun addr hzero => ?_, fun b hb addr₁ n₁ addr₂ n₂ h1 h2 hle => ?_⟩
  · obtain ⟨⟨m, hm, hmem⟩, -⟩ := hwanted addr 0 hzero
    obtain rfl : m = 0 := by omega
    exact h.1 addr hmem
  · obtain ⟨⟨m1, hm1, hmem1⟩, -⟩ := hwanted addr₁ n₁ h1
    obtain ⟨-, m2, hm2, hmem2⟩ := hwanted addr₂ n₂ h2
    have hlt := h.2 b (hstored b hb) addr₁ m1 addr₂ m2 hmem1 hmem2 (by omega)
    omega

/-- The property with more blocks stored, none of them between two of the blocks still wanted. -/
theorem ClearOf.insert {stored' : ℕ → Prop} {wanted' : A → ℕ → Prop} (h : ClearOf stored wanted)
    (new : ℕ → Prop) (hwanted : ∀ addr n, wanted' addr n → wanted addr n)
    (hstored : ∀ b, stored' b → stored b ∨ new b)
    (hnew : ∀ b, new b → ∀ addr₁ n₁ addr₂ n₂, wanted' addr₁ n₁ → wanted' addr₂ n₂ → n₁ ≤ b →
      n₂ < b) : ClearOf stored' wanted' := by
  refine ⟨fun addr hzero => h.1 addr (hwanted addr 0 hzero),
    fun b hb addr₁ n₁ addr₂ n₂ h1 h2 hle => ?_⟩
  rcases hstored b hb with hold | hin
  · exact h.2 b hold addr₁ n₁ addr₂ n₂ (hwanted addr₁ n₁ h1) (hwanted addr₂ n₂ h2) hle
  · exact hnew b hin addr₁ n₁ addr₂ n₂ h1 h2 hle

/-- The blocks of `st'` are those of `st` and new ones, with numbers that `st` does not have. -/
def Storage.Inserts (st st' : Storage A H) : Prop :=
  ∃ rows, st'.blocks.rows = st.blocks.rows ++ rows ∧ ∀ row ∈ rows, ¬st.Has row.number

theorem mem_getOrderedHeaders {headers : ℕ → Except HeaderFault (BlockHeader H)} {blocks : List ℕ}
    {h : BlockHeader H} :
    h ∈ getOrderedHeaders headers blocks ↔ ∃ n ∈ blocks, headers n = .ok h := by
  rw [getOrderedHeaders, mem_filterMap]
  refine exists_congr fun n => and_congr_right fun _ => ?_
  cases headers n <;> simp [Except.toOption]

/-- The headers of the blocks that were asked for. -/
theorem getOrderedHeaders_of_answered {headers : ℕ → Except HeaderFault (BlockHeader H)}
    {blocks : List ℕ} (h : ∀ n ∈ blocks, ∃ h, headers n = .ok h ∧ h.number = n) :
    (∀ n ∈ blocks, ∃ h ∈ getOrderedHeaders headers blocks, h.number = n) ∧
      ∀ h ∈ getOrderedHeaders headers blocks, h.number ∈ blocks := by
  refine ⟨fun n hn => ?_, fun hd hhd => ?_⟩
  · obtain ⟨hd, hok, hnumber⟩ := h n hn
    exact ⟨hd, mem_getOrderedHeaders.mpr ⟨n, hn, hok⟩, hnumber⟩
  · obtain ⟨n, hn, hok⟩ := mem_getOrderedHeaders.mp hhd
    obtain ⟨hd', hok', rfl⟩ := h n hn
    exact Except.ok.inj (hok.symm.trans hok') ▸ hn

variable {logs : List (Log A H)}

theorem mem_getBlockNumbers {n : ℕ} : n ∈ getBlockNumbers logs ↔ ∃ l ∈ logs, l.blockNumber = n := by
  rw [getBlockNumbers, mem_eraseDups, mem_map]

/-- The headers of the blocks with logs. -/
theorem exists_retrieveSafeHeaders {reply : HeadersReply H}
    (h : reply.Answered (getBlockNumbers logs)) :
    ∃ blockHeaders, Multidownloader.retrieveSafeHeaders logs reply =
        (.ok blockHeaders : Except (StepError A) (List (BlockHeader H))) ∧
      (∀ l ∈ logs, ∃ h ∈ blockHeaders, h.number = l.blockNumber) ∧
      ∀ h ∈ blockHeaders, ∃ l ∈ logs, h.number = l.blockNumber := by
  obtain ⟨headers, rfl, hheaders⟩ := h
  obtain ⟨hall, hof⟩ := getOrderedHeaders_of_answered hheaders
  unfold Multidownloader.retrieveSafeHeaders
  by_cases hnil : getBlockNumbers logs = []
  · -- Without logs there is nothing to ask for.
    have hlogs : ∀ l ∈ logs, False := fun l hl => by
      have hmem := mem_getBlockNumbers.mpr ⟨l, hl, rfl⟩
      rw [hnil] at hmem
      cases hmem
    rw [hnil, isEmpty_nil, if_pos rfl]
    exact ⟨[], rfl, fun l hl => (hlogs l hl).elim, by simp⟩
  · have hne : getOrderedHeaders headers (getBlockNumbers logs) ≠ [] := by
      obtain ⟨n, hn⟩ := exists_mem_of_ne_nil _ hnil
      obtain ⟨h, hh, -⟩ := hall n hn
      exact ne_nil_of_mem hh
    rw [if_neg (by simpa [List.isEmpty_iff] using hnil)]
    simp only
    rw [if_neg (by simpa [List.isEmpty_iff] using hne)]
    refine ⟨_, rfl, fun l hl => hall _ (mem_getBlockNumbers.mpr ⟨l, hl, rfl⟩), fun h hh => ?_⟩
    obtain ⟨l, hl, hblock⟩ := mem_getBlockNumbers.mp (hof h hh)
    exact ⟨l, hl, hblock.symm⟩

/-- Logs that carry the hashes of their headers pass the check. -/
theorem checkIntegrity_eq_ok [DecidableEq H] {headers : List (BlockHeader H)}
    (hnodup : (headers.map BlockHeader.number).Nodup)
    (h : ∀ l ∈ logs, ∃ h ∈ headers, h.number = l.blockNumber ∧ h.hash = l.blockHash) :
    checkIntegrity headers logs = (.ok () : Except (StepError A) Unit) := by
  induction logs with
  | nil => rfl
  | cons l logs ih =>
    obtain ⟨⟨hd, hhd, hnumber, hhash⟩, hrest⟩ := forall_mem_cons.mp h
    -- The number determines the header.
    have hkeys : (headers.reverse.map BlockHeader.number).Nodup := by
      rw [map_reverse]
      exact nodup_reverse.mpr hnodup
    have hfind := (@Keyed.find?_eq_some_iff _ _ _ _ ⟨headers.reverse, hkeys⟩ _ _).mpr
      ⟨mem_reverse.mpr hhd, hnumber⟩
    rw [checkIntegrity, hfind]
    simp only
    rw [if_pos hhash]
    exact ih hrest

namespace Multidownloader

variable [DecidableEq A]

/-- The transaction of a step, when the blocks are new. -/
theorem exists_storeData {st : Storage A H} {logs : List (Log A H)} {blocks : List (BlockHeader H)}
    {segments : List (SyncSegment A)} (isFinal : Bool)
    (hreferences : ∀ row ∈ st.logs.rows, st.Has row.blockNumber)
    (hfresh : ∀ h ∈ blocks, ¬st.Has h.number)
    (hnodup : (logs.map fun l => l.toRow.key).Nodup)
    (hblocks : ∀ l ∈ logs, ∃ h ∈ blocks, h.number = l.blockNumber)
    (hsegments : ∀ t ∈ segments, t.isValid = true ∧ t.contractAddr ∈ st.syncedContracts) :
    ∃ st', storeData st logs blocks segments isFinal = .ok st' := by
  obtain ⟨st1, hsave⟩ := @Storage.exists_saveBlocks A H st (newBlockRows blocks isFinal)
    (fun r hr s hs heq => hfresh _ (exists_of_mem_newBlockRows hr).1 ⟨s, hs, heq⟩)
    (nodup_newBlockRows blocks isFinal)
  obtain ⟨hrows, hlogs1, hsync1, -, -⟩ := saveBlocks_spec hsave
  -- A log with the same key would be of the same block, and that block is new.
  have hkeys : ∀ r ∈ logs.map Log.toRow, ∀ s ∈ st1.logs.rows, s.key ≠ r.key := by
    intro r hr s hs heq
    obtain ⟨l, hl, rfl⟩ := mem_map.mp hr
    obtain ⟨h, hh, hnumber⟩ := hblocks l hl
    rw [hlogs1] at hs
    have hblock : s.blockNumber = l.blockNumber := congrArg (fun k => k.2.1) heq
    refine hfresh h hh ?_
    rw [hnumber, ← hblock]
    exact hreferences s hs
  have hthere : ∀ r ∈ logs.map Log.toRow, ∃ b ∈ st1.blocks.rows, b.number = r.blockNumber := by
    intro r hr
    obtain ⟨l, hl, rfl⟩ := mem_map.mp hr
    obtain ⟨h, hh, hnumber⟩ := hblocks l hl
    obtain ⟨row, hrow, hkey⟩ := exists_mem_newBlockRows isFinal hh
    refine ⟨row, ?_, hkey.trans hnumber⟩
    rw [hrows]
    exact mem_append_right _ hrow
  have hnodup' : ((logs.map Log.toRow).map LogRow.key).Nodup := by
    rw [map_map]
    exact hnodup
  obtain ⟨st2, hsaveLogs⟩ := exists_saveLogs hkeys hnodup' hthere
  obtain ⟨-, -, hsync2, -, -⟩ := saveLogs_spec hsaveLogs
  have hcontracts : st2.syncedContracts = st.syncedContracts := by
    rw [syncedContracts, syncedContracts, hsync2, hsync1]
  obtain ⟨st', hst'⟩ := @Storage.exists_updateSyncedStatus A H st2 _ segments fun t ht => by
    rw [hcontracts]
    exact hsegments t ht
  exact ⟨st', except_bind_ok.mpr
    ⟨st2, except_bind_ok.mpr ⟨st1, hsave, hsaveLogs⟩, hst'⟩⟩

/-- The logs still have their blocks after the transaction, and the blocks of the headers are there. -/
theorem storeData_references {st st' : Storage A H} {logs : List (Log A H)}
    {blocks : List (BlockHeader H)} {segments : List (SyncSegment A)} {isFinal : Bool}
    (hreferences : ∀ row ∈ st.logs.rows, st.Has row.blockNumber)
    (h : storeData st logs blocks segments isFinal = .ok st')
    (hrows : st'.blocks.rows = st.blocks.rows ++ newBlockRows blocks isFinal)
    (hlogs : st'.logs.rows = st.logs.rows ++ logs.map Log.toRow) :
    ∀ row ∈ st'.logs.rows, st'.Has row.blockNumber := by
  obtain ⟨st1, hsave, -⟩ := except_bind_ok.mp h
  obtain ⟨st2, hblocks, hsaveLogs⟩ := except_bind_ok.mp hsave
  obtain ⟨hrows2, -⟩ := saveBlocks_spec hblocks
  have hthere := exists_block_of_saveLogs hsaveLogs
  rw [hrows2, ← hrows] at hthere
  intro row hrow
  rw [hlogs] at hrow
  rcases mem_append.mp hrow with hrow | hrow
  · obtain ⟨b, hb, hnumber⟩ := hreferences row hrow
    refine ⟨b, ?_, hnumber⟩
    rw [hrows]
    exact mem_append_left _ hb
  · exact hthere row hrow

/-- The database is ready for what is pending: the logs have their blocks, no stored block lies between
two pending ones, and the contracts have their rows. -/
structure Ready (st : Storage A H) (s : State A) : Prop where
  references : ∀ row ∈ st.logs.rows, st.Has row.blockNumber
  clear : ClearOf st.Has fun addr n => n ∈ range s.pending addr
  contracts : ∀ addr ∈ getContracts s.pending, addr ∈ st.syncedContracts

end Multidownloader

/-- Blocks that were pending are so no more, and no others are. -/
def State.Advances [DecidableEq A] (s s' : State A) : Prop :=
  (∀ addr n, n ∈ range s'.pending addr → n ∈ range s.pending addr) ∧
    ∃ addr n, n ∈ range s.pending addr ∧ n ∉ range s'.pending addr

namespace Multidownloader

variable [DecidableEq A] {s : State A}

/-- `StepSafe` with a query whose calls succeed. -/
theorem exists_stepSafe {blockChunkSize : ℕ} {md : Multidownloader A H} (hstate : md.state = some s)
    (hready : Ready md.storage s) {answers : SafeAnswers A H} {finalized : ℕ} {q : LogQuery A H}
    {logs : List (Log A H)} {rest : List (LogsReply A H)}
    (hfinalized : answers.finalized = some finalized) (hlogs : answers.logs = .logs logs :: rest)
    (hquery : nextQuery s.pending blockChunkSize finalized = .ok q) (hanswered : q.Answered logs)
    (hheaders : answers.headers.Answered (getBlockNumbers logs)) :
    ∃ storage s', md.stepSafe blockChunkSize answers =
        .ok ({ md with storage, state := some s' }, [⟨q, logs⟩]) ∧
      md.storage.Inserts storage ∧ s.Advances s' := by
  obtain ⟨-, hne, -, hlow, ⟨addr0, hinside⟩, hmem⟩ := nextQuery_spec hquery
  obtain ⟨blockHeaders, hretrieve, hall, hof⟩ :=
    @exists_retrieveSafeHeaders A H logs answers.headers hheaders
  obtain ⟨pending, hsub⟩ := @exists_subtractLogQuery A H _ s.pending q
    fun addr _ n hn => hlow n addr hn
  have hadd : s.addSynced q = .ok ⟨addLogQuery s.synced q, pending⟩ :=
    except_bind_ok.mpr ⟨pending, hsub, rfl⟩
  obtain ⟨hsynced, -, hpending, -⟩ := State.addSynced_spec hadd
  generalize (⟨addLogQuery s.synced q, pending⟩ : State A) = s' at hadd hsynced hpending
  have hnew : s.onNewSyncedLogQuery q = .ok s' := by
    have hnonempty : q.isEmpty = false := by
      rw [LogQuery.isEmpty, hne, Bool.and_false, Bool.false_and]
    rw [State.onNewSyncedLogQuery, hnonempty, if_neg Bool.false_ne_true, hadd]
  -- The headers are of blocks of the query, and these are pending.
  have hfresh : ∀ h ∈ blockHeaders, ¬md.storage.Has h.number := by
    intro h hh
    obtain ⟨l, hl, hnumber⟩ := hof h hh
    rw [hnumber]
    exact hready.clear.not_stored (hinside _ (hanswered.inRange l hl))
  have hlast := toBlock_mem hne
  have hnonzero : q.blockRange.toBlock ≠ 0 := fun hzero =>
    hready.clear.1 addr0 (hzero ▸ hinside _ hlast)
  have hsegments : ∀ t ∈ segmentsByContract s'.synced q.addrs,
      t.isValid = true ∧ t.contractAddr ∈ md.storage.syncedContracts := by
    intro t ht
    obtain ⟨haddr, hrange⟩ := mem_segmentsByContract ht
    rw [hsynced, if_pos haddr] at hrange
    obtain ⟨n, hn, -⟩ := (hmem _).mp haddr
    refine ⟨isValid_of_mem (n := q.blockRange.toBlock) ?_ hnonzero, ?_⟩
    · rw [hrange]
      exact mem_extend_right hlast
    · exact hready.contracts _ (mem_getContracts_of_mem_range hn)
  obtain ⟨storage, hstore⟩ := exists_storeData true hready.references hfresh hanswered.nodup hall
    hsegments
  refine ⟨storage, s', ?_, ⟨_, (storeData_spec hstore).1, fun row hrow => ?_⟩, ?_, addr0,
    q.blockRange.toBlock, hinside _ hlast, fun hin => ?_⟩
  · unfold stepSafe
    simp only [hstate, requestLogs, hfinalized, hquery, hlogs, requestLogsFrom]
    refine except_bind_ok.mpr ⟨blockHeaders, hretrieve, ?_⟩
    refine except_bind_ok.mpr ⟨s', mapError_eq_ok_iff.mpr hnew, ?_⟩
    exact except_bind_ok.mpr ⟨storage, mapError_eq_ok_iff.mpr hstore, rfl⟩
  · exact hfresh _ (exists_of_mem_newBlockRows hrow).1
  · exact fun addr n hn => ((hpending addr n).mp hn).1
  · have haddr := (hmem addr0).mpr ⟨_, hinside _ hlast, hlast⟩
    exact ((hpending addr0 _).mp hin).2 haddr hlast

omit [DecidableEq A] in
theorem exists_requestMultiplesLogs {filterLogs : LogQuery A H → Option (List (Log A H))}
    {queries : List (LogQuery A H)} (h : ∀ q ∈ queries, ∃ logs, filterLogs q = some logs) :
    ∃ downloads, requestMultiplesLogs filterLogs queries = .ok downloads := by
  induction queries with
  | nil => exact ⟨[], rfl⟩
  | cons q queries ih =>
    obtain ⟨⟨logs, hlogs⟩, hrest⟩ := forall_mem_cons.mp h
    obtain ⟨downloads, hdownloads⟩ := ih hrest
    refine ⟨⟨q, logs⟩ :: downloads, ?_⟩
    rw [requestMultiplesLogs, hlogs]
    exact except_bind_ok.mpr ⟨downloads, hdownloads, rfl⟩

omit [DecidableEq A] in
/-- The answers to the queries of `StepUnsafe`: each log is of the block of a header, with its hash,
and no two logs have the same key. -/
theorem getUnsafeLogQueries_logs {blockHeaders : List (BlockHeader H)}
    {downloads : List (Download A H)} (hnodup : (blockHeaders.map BlockHeader.number).Nodup)
    (hpos : ∀ h ∈ blockHeaders, h.number ≠ 0)
    (hqueries : downloads.map Download.query = getUnsafeLogQueries s blockHeaders)
    (hanswered : ∀ d ∈ downloads, d.query.Answered d.logs) :
    (∀ l ∈ downloads.flatMap Download.logs,
      ∃ h ∈ blockHeaders, h.number = l.blockNumber ∧ h.hash = l.blockHash) ∧
      ((downloads.flatMap Download.logs).map fun l => l.toRow.key).Nodup := by
  -- The block of a query is that of its header.
  have hheader : ∀ d ∈ downloads, ∃ h ∈ blockHeaders, d.query.blockHash = some h.hash ∧
      d.query.blockRange = .new h.number h.number := by
    intro d hd
    have hmem := mem_map_of_mem (f := Download.query) hd
    rw [hqueries] at hmem
    obtain ⟨h, hh, hquery⟩ := mem_map.mp hmem
    refine ⟨h, hh, ?_, ?_⟩
    · rw [← hquery]
      rfl
    · rw [← hquery]
      exact blockRange_blockQuery (hpos h hh)
  have hblock : ∀ d ∈ downloads, ∀ l ∈ d.logs, l.blockNumber = d.query.blockRange.fromBlock := by
    intro d hd l hl
    obtain ⟨h, -, -, hrange⟩ := hheader d hd
    have hin := (hanswered d hd).inRange l hl
    rw [hrange, mem_new] at hin
    rw [hrange]
    exact Nat.le_antisymm hin.2 hin.1
  refine ⟨fun l hl => ?_, ?_⟩
  · obtain ⟨d, hd, hl⟩ := mem_flatMap.mp hl
    obtain ⟨h, hh, hhash, hrange⟩ := hheader d hd
    have hnumber := hblock d hd l hl
    rw [hrange] at hnumber
    exact ⟨h, hh, hnumber.symm, ((hanswered d hd).hash _ hhash l hl).symm⟩
  · -- Two queries are for different blocks, and the block is part of the key.
    have hnumbers : downloads.map (fun d => d.query.blockRange.fromBlock) =
        blockHeaders.map BlockHeader.number := by
      have hmap := congrArg (List.map fun q => q.blockRange.fromBlock) hqueries
      rw [map_map, getUnsafeLogQueries, map_map] at hmap
      refine hmap.trans (map_congr_left fun h hh => ?_)
      exact congrArg BlockRange.fromBlock (blockRange_blockQuery (hpos h hh))
    have hdistinct : downloads.Pairwise fun d d' =>
        d.query.blockRange.fromBlock ≠ d'.query.blockRange.fromBlock := by
      rw [← hnumbers] at hnodup
      exact pairwise_map.mp hnodup
    rw [map_flatMap, nodup_flatMap]
    refine ⟨fun d hd => (hanswered d hd).nodup, hdistinct.imp_of_mem fun hd hd' hne key hk hk' => ?_⟩
    obtain ⟨l, hl, rfl⟩ := mem_map.mp hk
    obtain ⟨l', hl', heq⟩ := mem_map.mp hk'
    have hsame : l'.blockNumber = l.blockNumber := congrArg (fun k => k.2.1) heq
    rw [hblock _ hd l hl, hblock _ hd' l' hl'] at hsame
    exact hne hsame.symm

/-- `StepUnsafe` with pending blocks whose calls succeed. -/
theorem exists_stepUnsafe [DecidableEq H] {md : Multidownloader A H} (hstate : md.state = some s)
    (hready : Ready md.storage s) {answers : UnsafeAnswers A H} {total : BlockRange}
    (htotal : getTotalPendingBlockRange s.pending = some total)
    (hheaders : answers.headers.Answered total.listBlockNumbers)
    (hlogs : ∀ headers, answers.headers = some headers →
      ∀ q ∈ getUnsafeLogQueries s (getOrderedHeaders headers total.listBlockNumbers),
        ∃ logs, answers.logs q = some logs ∧ q.Answered logs) :
    ∃ storage s' downloads, md.stepUnsafe answers =
        .ok ({ md with storage, state := some s' }, downloads) ∧
      md.storage.Inserts storage ∧ s.Advances s' := by
  obtain ⟨hne, hinside, ⟨addr₁, hfirst⟩, addr₂, hlast⟩ :=
    getTotalPendingBlockRange_spec htotal
  obtain ⟨headers, hreply, hall⟩ := hheaders
  specialize hlogs headers hreply
  have hok : ∀ n ∈ total, ∃ h, headers n = .ok h ∧ h.number = n := fun n hn =>
    hall n (mem_listBlockNumbers.mpr hn)
  have hnumbers : (getOrderedHeaders headers total.listBlockNumbers).map BlockHeader.number =
      List.range' total.fromBlock (getOrderedHeaders headers total.listBlockNumbers).length := by
    refine numbers_getOrderedHeaders hne (fun n hn h hh => ?_) fun m _ n hn _ _ => ?_
    · obtain ⟨h', hh', hnumber⟩ := hok n hn
      rw [hh, Except.ok.injEq] at hh'
      rw [hh', hnumber]
    · obtain ⟨h', hh', -⟩ := hok n hn
      rw [hh']
      rfl
  obtain ⟨hheader, hof⟩ := getOrderedHeaders_of_answered hall
  replace hof := fun h hh => mem_listBlockNumbers.mp (hof h hh)
  obtain ⟨header1, hheader1, hnumber1⟩ := hheader _ (mem_listBlockNumbers.mpr (fromBlock_mem hne))
  have hretrieve : retrieveUnsafeHeaders total.listBlockNumbers answers.headers =
      (.ok (getOrderedHeaders headers total.listBlockNumbers) :
        Except (StepError A) (List (BlockHeader H))) := by
    unfold retrieveUnsafeHeaders
    simp only [hreply]
    rw [if_neg (by simpa [List.isEmpty_iff] using ne_nil_of_mem hheader1)]
  generalize getOrderedHeaders headers total.listBlockNumbers = blockHeaders
    at hlogs hnumbers hof hheader1 hretrieve
  have hpos : ∀ h ∈ blockHeaders, h.number ≠ 0 := by
    intro h hh hzero
    have hle := (mem_iff.mp (hof h hh)).2.1
    have hfrom : total.fromBlock = 0 := by omega
    exact hready.clear.1 addr₁ (hfrom ▸ hfirst)
  have hnodup : (blockHeaders.map BlockHeader.number).Nodup := hnumbers ▸ nodup_range'
  -- Every inserted block lies between the first and the last pending one.
  have hfresh : ∀ h ∈ blockHeaders, ¬md.storage.Has h.number := by
    intro h hh hhas
    obtain ⟨-, hle, hge⟩ := mem_iff.mp (hof h hh)
    have hlt := hready.clear.2 _ hhas addr₁ _ addr₂ _ hfirst hlast hle
    omega
  obtain ⟨downloads, hrequest⟩ := @exists_requestMultiplesLogs A H answers.logs
    (getUnsafeLogQueries s blockHeaders) fun q hq => (hlogs q hq).imp fun _ h => h.1
  obtain ⟨hqueries, hreplies⟩ := requestMultiplesLogs_spec hrequest
  have hanswered : ∀ d ∈ downloads, d.query.Answered d.logs := by
    intro d hd
    have hmem := mem_map_of_mem (f := Download.query) hd
    rw [hqueries] at hmem
    obtain ⟨logs, hsome, hans⟩ := hlogs _ hmem
    rw [hreplies d hd, Option.some.injEq] at hsome
    rwa [hsome]
  obtain ⟨hlogHeader, hkeys⟩ := getUnsafeLogQueries_logs hnodup hpos hqueries hanswered
  have hfromPos : 0 < total.fromBlock := by
    have := hpos header1 hheader1
    omega
  have hpending : ∀ addr n, n ∈ range s.pending addr ↔
      n ∈ range s.pending addr ∧ total.fromBlock ≤ n := fun addr n =>
    ⟨fun hn => ⟨hn, (mem_iff.mp (hinside addr n hn)).2.1⟩, And.left⟩
  obtain ⟨s', hafter⟩ := State.exists_afterLogQueries hfromPos hnumbers hpending
  obtain ⟨-, hadded, hpending', -⟩ := State.afterLogQueries_spec hafter
  -- The segments that are written have a block of a query.
  have hsegments : ∀ t ∈ segmentsByContract s'.synced
      ((getUnsafeLogQueries s blockHeaders).flatMap LogQuery.addrs).eraseDups,
      t.isValid = true ∧ t.contractAddr ∈ md.storage.syncedContracts := by
    intro t ht
    obtain ⟨haddr, hrange⟩ := mem_segmentsByContract ht
    rw [mem_eraseDups, mem_flatMap] at haddr
    obtain ⟨q, hq, haddr⟩ := haddr
    obtain ⟨h, hh, rfl⟩ := mem_map.mp hq
    have hin := mem_getAddressesForBlock.mp haddr
    refine ⟨isValid_of_mem (n := h.number) ?_ (hpos h hh), ?_⟩
    · rw [hrange]
      exact hadded _ hq _ haddr _ (mem_blockQuery.mpr ⟨hpos h hh, rfl⟩)
    · exact hready.contracts _ (mem_getContracts_of_mem_range hin)
  obtain ⟨storage, hstore⟩ := exists_storeData false hready.references hfresh hkeys
    (fun l hl => (hlogHeader l hl).imp fun _ h => ⟨h.1, h.2.1⟩) hsegments
  refine ⟨storage, s', downloads, ?_, ⟨_, (storeData_spec hstore).1, fun row hrow => ?_⟩, ?_, addr₁,
    total.fromBlock, hfirst, fun hin => ?_⟩
  · unfold stepUnsafe
    simp only [hstate, htotal]
    refine except_bind_ok.mpr ⟨blockHeaders, hretrieve, ?_⟩
    refine except_bind_ok.mpr ⟨downloads, hrequest, ?_⟩
    refine except_bind_ok.mpr ⟨(), checkIntegrity_eq_ok hnodup hlogHeader, ?_⟩
    refine except_bind_ok.mpr ⟨s', mapError_eq_ok_iff.mpr hafter, ?_⟩
    exact except_bind_ok.mpr ⟨storage, mapError_eq_ok_iff.mpr hstore, rfl⟩
  · exact hfresh _ (exists_of_mem_newBlockRows hrow).1
  · exact fun addr n hn => ((hpending' addr n).mp hn).1
  · -- The header of the first pending block gave a query for it.
    refine ((hpending' addr₁ _).mp hin).2 _ (mem_map_of_mem hheader1) ?_ ?_
    · refine mem_getAddressesForBlock.mpr ?_
      rwa [hnumber1]
    · exact hnumber1 ▸ mem_blockQuery.mpr ⟨hpos header1 hheader1, rfl⟩

end Multidownloader

end AggKit.MultiDownloader
