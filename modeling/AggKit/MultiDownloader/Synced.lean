import AggKit.Lib.Run
import AggKit.MultiDownloader.Steps

/-!
# What is reported as synced was downloaded

A block is reported as synced for a contract by the row of the contract in `sync_status` and by the
segments in memory. It should be in a query for that contract whose answer was stored, with no reorg
of the block since (`Trace.Held`). This does not hold for every run: the synced range of a contract
is kept as one interval, and adding a query to it also adds what lies between, whether or not that was
ever asked for.

The proof for the runs in which every action is `Trace.Fine` keeps three facts (`Trace.Sound`): the
rows report only what is held, the memory reports only what the rows do, and in memory the pending
range of each contract continues its synced range. The last one makes an extended range the union of
the two. After a reorg was detected the memory is not kept up with the rows until a new state is made
from them.
-/

namespace AggKit.MultiDownloader

open Table SetSyncSegment List BlockRange Multidownloader

variable {A H : Type}

namespace Trace

/-- The logs of the contract in block `n` were asked for, what the node returned for the block is in
the database, and no reorg has moved the block away since. -/
def Held (t : Trace A H) (addr : A) (n : ℕ) : Prop :=
  ∃ newer d older, t.history = newer ++ .downloaded d :: older ∧
    (∀ range, .reorged range ∈ newer → n ∉ range) ∧ addr ∈ d.query.addrs ∧
    n ∈ d.query.blockRange ∧ ∀ l ∈ d.logs, l.blockNumber = n → l.toRow ∈ t.md.storage.logs.rows

/-- The logs of the contract in block `n` were downloaded and a reorg has moved the block away
since. -/
def Removed (t : Trace A H) (addr : A) (n : ℕ) : Prop :=
  ∃ newer d older, t.history = newer ++ .downloaded d :: older ∧
    (∃ range, .reorged range ∈ newer ∧ n ∈ range) ∧ addr ∈ d.query.addrs ∧ n ∈ d.query.blockRange

/-- Whatever is reported as synced is held. In memory it may also be removed while a reorg is
processed. -/
def SyncedHeld (t : Trace A H) : Prop :=
  (∀ row ∈ t.md.storage.syncStatus.rows, ∀ n ∈ (Storage.toSyncSegment row).blockRange,
    t.Held row.address n) ∧
  ∀ s, t.md.state = some s → ∀ segment ∈ s.synced.rows, ∀ n ∈ segment.blockRange,
    t.Held segment.contractAddr n ∨ t.md.reorg ≠ none ∧ t.Removed segment.contractAddr n

variable {t t' : Trace A H} {addr : A} {n : ℕ} {range : BlockRange}

theorem Held.of_data_eq (h : t.Held addr n)
    (hhistory : t'.history = t.history) (hlogs : t'.md.storage.logs = t.md.storage.logs) :
    t'.Held addr n := by
  obtain ⟨newer, d, older, heq, hrest⟩ := h
  rw [Held, hhistory, hlogs]
  exact ⟨newer, d, older, heq, hrest⟩

/-- More downloads keep what is held. -/
theorem Held.downloads {downloads : List (Download A H)} (h : t.Held addr n)
    (hhistory : t'.history = downloads.reverse.map Effect.downloaded ++ t.history)
    (hlogs : t.md.storage.logs.rows ⊆ t'.md.storage.logs.rows) : t'.Held addr n := by
  obtain ⟨newer, d, older, heq, hreorgs, haddr, hn, hstored⟩ := h
  refine ⟨downloads.reverse.map .downloaded ++ newer, d, older, ?_, fun range hmem => ?_, haddr, hn,
    fun l hl hblock => hlogs (hstored l hl hblock)⟩
  · rw [hhistory, heq, append_assoc]
  · rcases mem_append.mp hmem with hmem | hmem
    · obtain ⟨d', -, hd'⟩ := mem_map.mp hmem
      cases hd'
    · exact hreorgs range hmem

/-- What was just downloaded is held. -/
theorem held_of_mem_downloads {downloads : List (Download A H)} {d : Download A H}
    (hd : d ∈ downloads)
    (hhistory : t'.history = downloads.reverse.map Effect.downloaded ++ t.history)
    (haddr : addr ∈ d.query.addrs) (hn : n ∈ d.query.blockRange)
    (hlogs : ∀ l ∈ downloads.flatMap Download.logs, l.toRow ∈ t'.md.storage.logs.rows) :
    t'.Held addr n := by
  obtain ⟨newer, older, hsplit⟩ := append_of_mem (mem_reverse.mpr hd)
  refine ⟨newer.map .downloaded, d, older.map .downloaded ++ t.history, ?_, fun range hmem => ?_,
    haddr, hn, fun l hl _ => hlogs l (mem_flatMap.mpr ⟨d, hd, hl⟩)⟩
  · rw [hhistory, hsplit, map_append, map_cons, append_assoc, cons_append]
  · obtain ⟨d', -, hd'⟩ := mem_map.mp hmem
    cases hd'

/-- A reorg of other blocks keeps what is held. -/
theorem Held.reorged (h : t.Held addr n)
    (hhistory : t'.history = .reorged range :: t.history) (hn : n ∉ range)
    (hlogs : ∀ row ∈ t.md.storage.logs.rows, row.blockNumber ∉ range →
      row ∈ t'.md.storage.logs.rows) : t'.Held addr n := by
  obtain ⟨newer, d, older, heq, hreorgs, haddr, hmem, hstored⟩ := h
  refine ⟨.reorged range :: newer, d, older, ?_, ?_, haddr, hmem, fun l hl hblock => ?_⟩
  · rw [hhistory, heq, cons_append]
  · rintro range' (_ | ⟨_, hrange'⟩)
    · exact hn
    · exact hreorgs range' hrange'
  · have hkey : l.toRow.blockNumber = n := hblock
    exact hlogs _ (hstored l hl hblock) (hkey ▸ hn)

/-- A reorg of the block removes it. -/
theorem Held.removed (h : t.Held addr n)
    (hhistory : t'.history = .reorged range :: t.history) (hn : n ∈ range) : t'.Removed addr n := by
  obtain ⟨newer, d, older, heq, -, haddr, hmem, -⟩ := h
  exact ⟨.reorged range :: newer, d, older, by rw [hhistory, heq, cons_append],
    ⟨range, mem_cons_self, hn⟩, haddr, hmem⟩

theorem Removed.of_suffix (h : t.Removed addr n)
    (effects : List (Effect A H)) (hhistory : t'.history = effects ++ t.history) :
    t'.Removed addr n := by
  obtain ⟨newer, d, older, heq, ⟨range, hrange, hn⟩, hrest⟩ := h
  exact ⟨effects ++ newer, d, older, by rw [hhistory, heq, append_assoc],
    ⟨range, mem_append_right effects hrange, hn⟩, hrest⟩

end Trace

/-! ## The condition -/

/-- The block `u` is the highest below the offending one that is confirmed. -/
def Storage.LastConfirmed (st : Storage A H) (header : ℕ → Except HeaderFault (BlockHeader H))
    (offendingBlockNumber u : ℕ) : Prop :=
  u < offendingBlockNumber ∧ st.Confirmed header u ∧
    ∀ n, u < n → n < offendingBlockNumber → ¬st.Confirmed header n

variable [DecidableEq A]

/-- The actions that leave no gap in a synced range. -/
def Trace.Fine (blockChunkSize : ℕ) (t : Trace A H) : Action A H → Prop
  -- The wanted range of each contract starts inside its synced range or right after it.
  | .initialized blockNumbers => t.md.state = none →
    ∀ targets, t.md.syncersConfig.syncSegments blockNumbers = .ok targets →
      ∀ addr, (range targets addr).Continues (t.md.storage.syncedRange addr)
  | .updateTargetBlockNumber blockNumbers => t.md.reorg = none → ∀ s, t.md.state = some s →
    ∀ targets, t.md.syncersConfig.syncSegments blockNumbers = .ok targets →
      ∀ addr, (range targets addr).Continues (range s.synced addr)
  -- The same, of what is left of the synced range when the blocks after `u` are gone.
  | .processReorg answers => ∀ offendingBlockNumber, t.md.reorg = some offendingBlockNumber →
    ∀ u, t.md.storage.LastConfirmed answers.header offendingBlockNumber u →
    ∀ targets, t.md.syncersConfig.syncSegments answers.blockNumbers = .ok targets →
      ∀ addr, (range targets addr).isEmpty = false →
        (t.md.storage.syncedRange addr).isEmpty = false →
        (t.md.storage.syncedRange addr).fromBlock ≤ u →
        (t.md.storage.syncedRange addr).fromBlock ≤ (range targets addr).fromBlock ∧
          (range targets addr).fromBlock ≤
            min (t.md.storage.syncedRange addr).toBlock u + 1
  -- A range that the node suggests reaches the first pending block of all contracts of the query.
  | .stepSafe answers => t.md.reorg = none → ∀ s, t.md.state = some s →
    ∀ finalized, answers.finalized = some finalized → ∀ q : LogQuery A H,
      nextQuery s.pending blockChunkSize finalized = .ok q →
        ∀ suggested, .tooManyResults (some suggested) ∈ answers.logs →
          ∀ addr ∈ q.addrs, suggested.Reaches (range s.pending addr)
  -- The node has the headers up to some block, each with its number, and block 0 is not wanted.
  | .stepUnsafe answers => t.md.reorg = none → ∀ s, t.md.state = some s →
    (∀ addr, 0 ∉ range s.pending addr) ∧
    ∀ total, getTotalPendingBlockRange s.pending = some total →
      ∀ headers, answers.headers = some headers →
        (∀ n ∈ total, ∀ h, headers n = .ok h → h.number = n) ∧
        ∀ m ∈ total, ∀ n ∈ total, n ≤ m → (headers m).isOk = true → (headers n).isOk = true
  | _ => True

/-! ## The invariant -/

namespace Trace

/-- What holds in every state of a run of fine actions. -/
structure Sound (t : Trace A H) : Prop where
  rows : ∀ addr n, n ∈ t.md.storage.syncedRange addr → t.Held addr n
  memory : t.md.reorg = none → ∀ s, t.md.state = some s → s.Contiguous ∧
    ∀ addr n, n ∈ range s.synced addr → n ∈ t.md.storage.syncedRange addr
  stale : ∀ s, t.md.state = some s → ∀ addr n, n ∈ range s.synced addr →
    t.Held addr n ∨ t.md.reorg ≠ none ∧ t.Removed addr n

variable {blockChunkSize : ℕ} {t t' : Trace A H}

/-- When the memory is in step with the rows, what it reports is held because they report it. -/
theorem Sound.of_memory
    (hrows : ∀ addr n, n ∈ t.md.storage.syncedRange addr → t.Held addr n)
    (hmemory : ∀ s, t.md.state = some s → s.Contiguous ∧
      ∀ addr n, n ∈ range s.synced addr → n ∈ t.md.storage.syncedRange addr) :
    t.Sound :=
  ⟨hrows, fun _ => hmemory, fun s hs addr n hn => .inl (hrows addr n ((hmemory s hs).2 addr n hn))⟩

theorem sound_new : (new : Trace A H).Sound :=
  Sound.of_memory (fun addr n hn => absurd hn notMem_zero) fun s hs => by cases hs

/-- The invariant gives the property. -/
theorem Sound.syncedHeld (h : t.Sound) : t.SyncedHeld := by
  refine ⟨fun row hrow n hn => ?_, fun s hs segment hsegment n hn => ?_⟩
  · have hrange := Storage.syncedRange_of_mem hrow
    exact h.rows _ _ (hrange ▸ hn)
  · have hrange := range_of_mem hsegment
    exact h.stale s hs _ _ (hrange ▸ hn)

/-- Actions that leave the logs, the rows of `sync_status` and the state as they are. -/
theorem Sound.of_data_eq (h : t.Sound) (hhistory : t'.history = t.history)
    (hlogs : t'.md.storage.logs = t.md.storage.logs)
    (hsync : t'.md.storage.syncStatus = t.md.storage.syncStatus)
    (hstate : t'.md.state = t.md.state) (hreorg : t'.md.reorg = none → t.md.reorg = none) :
    t'.Sound := by
  have hrange : ∀ addr, t'.md.storage.syncedRange addr = t.md.storage.syncedRange addr := by
    intro addr
    rw [Storage.syncedRange, Storage.getSyncedBlockRangePerContract, hsync]
    rfl
  refine ⟨fun addr n hn => ?_, fun hnone s hs => ?_, fun s hs addr n hn => ?_⟩
  · rw [hrange] at hn
    exact (h.rows addr n hn).of_data_eq hhistory hlogs
  · obtain ⟨hcontiguous, hsub⟩ := h.memory (hreorg hnone) s (hstate ▸ hs)
    exact ⟨hcontiguous, fun addr n hn => hrange addr ▸ hsub addr n hn⟩
  · rcases h.stale s (hstate ▸ hs) addr n hn with hheld | ⟨hsome, hremoved⟩
    · exact .inl (hheld.of_data_eq hhistory hlogs)
    · refine .inr ⟨fun hnone => hsome (hreorg hnone), ?_⟩
      exact hremoved.of_suffix [] hhistory

/-! ## The steps -/

/-- `Initialize`, for targets that continue the rows. -/
theorem Sound.initialized (h : t.Sound) {blockNumbers : BlockNumberFinality → Option ℕ}
    (hfine : t.Fine blockChunkSize (.initialized blockNumbers)) :
    Sound ⟨t.md.initializeState blockNumbers, t.history⟩ := by
  simp only [Multidownloader.initializeState]
  split_ifs with hstate
  · exact h
  · rw [Option.not_isSome_iff_eq_none] at hstate
    obtain ⟨hranges, -⟩ := t.md.storage.upsertSyncerConfigs_spec t.md.syncersConfig.contracts
    -- The new rows are empty.
    have hrows : ∀ md : Multidownloader A H,
        md.storage = t.md.storage.upsertSyncerConfigs t.md.syncersConfig.contracts →
        ∀ addr n, n ∈ md.storage.syncedRange addr → Held ⟨md, t.history⟩ addr n := by
      intro md hstorage addr n hn
      rw [hstorage, hranges] at hn
      exact (h.rows addr n hn).of_data_eq rfl (by rw [hstorage]; rfl)
    split
    · exact Sound.of_memory (hrows _ rfl) fun s hs => nomatch hstate.symm.trans hs
    · rename_i s hnew
      obtain ⟨targets, htargets, hstate'⟩ := Exec.except_bind_ok.mp hnew
      have hsynced := (State.newFromStorageSyncedBlocks_spec hstate').1
      refine Sound.of_memory (hrows _ rfl) fun s' hs' => ?_
      cases hs'
      refine ⟨State.contiguous_newFromStorageSyncedBlocks hstate' fun addr => ?_,
        fun addr n hn => ?_⟩
      · have hcontinues := hfine hstate targets htargets addr
        rwa [← hranges addr] at hcontinues
      · rwa [hsynced] at hn

/-- `updateTargetBlockNumber`, for targets that continue what is synced in memory. -/
theorem Sound.updateTargetBlockNumber (h : t.Sound) (hreorg : t.md.reorg = none)
    {blockNumbers : BlockNumberFinality → Option ℕ}
    (hfine : t.Fine blockChunkSize (.updateTargetBlockNumber blockNumbers)) :
    Sound ⟨t.md.updateTargetBlockNumber blockNumbers, t.history⟩ := by
  unfold Multidownloader.updateTargetBlockNumber
  cases hstate : t.md.state with
  | none => exact h
  | some s =>
    obtain ⟨hcontiguous, hsub⟩ := h.memory hreorg s hstate
    refine Sound.of_memory h.rows fun s' hs' => ?_
    cases hs'
    unfold State.extendPendingRange
    cases htargets : t.md.syncersConfig.syncSegments blockNumbers with
    | error e => exact ⟨hcontiguous, hsub⟩
    | ok targets =>
      refine ⟨hcontiguous.extendSegments fun target htarget => ?_, fun addr n hn => ?_⟩
      · have hcontinues := hfine hreorg s hstate targets htargets target.contractAddr
        rwa [range_of_mem htarget] at hcontinues
      · simp only [State.synced_extendSegments] at hn
        exact hsub addr n hn

variable {downloads : List (Download A H)}

/-- A download whose queries are all that becomes synced. -/
theorem Sound.download (h : t.Sound) (hreorg : t.md.reorg = none) {s s' : State A}
    (hstate : t.md.state = some s) {addrs : List A} {blockHeaders : List (BlockHeader H)}
    {isFinal : Bool} {storage : Storage A H}
    (hstore : Multidownloader.storeData t.md.storage (downloads.flatMap Download.logs) blockHeaders
      (segmentsByContract s'.synced addrs) isFinal = .ok storage)
    (hcontiguous : s'.Contiguous) (hsynced : ∀ addr n, n ∈ range s'.synced addr →
      n ∈ range s.synced addr ∨
        ∃ d ∈ downloads, addr ∈ d.query.addrs ∧ n ∈ d.query.blockRange)
    (hcontracts : ∀ addr ∈ addrs, addr ∈ getContracts s'.synced)
    (hother : ∀ addr, addr ∉ addrs →
      range s'.synced addr = range s.synced addr) :
    Sound ⟨{ t.md with storage, state := some s' },
      downloads.reverse.map Effect.downloaded ++ t.history⟩ := by
  obtain ⟨-, hlogs, -, -, -, hranges⟩ := storeData_spec hstore
  obtain ⟨-, hsub⟩ := h.memory hreorg s hstate
  have hkept : t.md.storage.logs.rows ⊆ storage.logs.rows := by
    rw [hlogs]
    exact subset_append_left _ _
  have hnew : ∀ l ∈ downloads.flatMap Download.logs, l.toRow ∈ storage.logs.rows := by
    intro l hl
    rw [hlogs]
    exact mem_append_right _ (mem_map_of_mem hl)
  refine Sound.of_memory (fun addr n hn => ?_) fun s1 hs1 => ?_
  · -- A block of a new row was synced in memory before or is in one of the queries.
    have hcase : n ∈ t.md.storage.syncedRange addr ∨
        ∃ d ∈ downloads, addr ∈ d.query.addrs ∧ n ∈ d.query.blockRange := by
      rw [hranges] at hn
      split at hn
      · exact (hsynced addr n hn).imp_left (hsub addr n)
      · exact .inl hn
    rcases hcase with hold | ⟨d, hd, haddr, hblock⟩
    · exact (h.rows addr n hold).downloads rfl hkept
    · exact held_of_mem_downloads (t := t) hd rfl haddr hblock hnew
  · cases hs1
    refine ⟨hcontiguous, fun addr n hn => ?_⟩
    rw [hranges]
    by_cases haddr : addr ∈ addrs
    · rwa [if_pos ⟨haddr, hcontracts addr haddr⟩]
    · rw [if_neg fun hboth => haddr hboth.1]
      exact hsub addr n (hother addr haddr ▸ hn)

/-- `StepSafe`, when a range that the node suggests reaches what is pending. -/
theorem Sound.stepSafe (h : t.Sound) (hreorg : t.md.reorg = none) {answers : SafeAnswers A H}
    {md' : Multidownloader A H} (hfine : t.Fine blockChunkSize (.stepSafe answers))
    (hstep : t.md.stepSafe blockChunkSize answers = .ok (md', downloads)) :
    Sound ⟨md', downloads.reverse.map Effect.downloaded ++ t.history⟩ := by
  obtain ⟨rfl, rfl⟩ | ⟨s, finalized, q, d, blockHeaders, s', storage, hstate, hfinalized, hquery,
    hrequest, -, hadd, hstore, rfl, rfl⟩ := stepSafe_cases hstep
  · exact h
  obtain ⟨haddrs, -, -, hrange⟩ := requestLogsFrom_spec hrequest
  obtain ⟨-, -, -, hlow, -, hmem⟩ := nextQuery_spec hquery
  obtain ⟨hcontiguous, -⟩ := h.memory hreorg s hstate
  -- The query reaches what is pending, since it overlaps it and starts no later.
  have hreach : ∀ addr ∈ d.query.addrs, (range s.pending addr).isEmpty = false ∧
      d.query.blockRange.Reaches (range s.pending addr) := by
    intro addr haddr
    rw [haddrs] at haddr
    obtain ⟨n, hpending, hn⟩ := (hmem addr).mp haddr
    have hne := isEmpty_eq_false_of_mem hpending
    refine ⟨hne, ?_⟩
    rcases hrange with heq | hsuggested
    · have hfirst := hlow _ addr (fromBlock_mem hne)
      have hle := (mem_iff.mp hpending).2.1
      have hto := (mem_iff.mp hn).2.2
      rw [heq]
      exact ⟨hfirst, by omega⟩
    · exact hfine hreorg s hstate finalized hfinalized q hquery _ hsuggested addr haddr
  obtain ⟨hcontiguous', hsynced⟩ := hcontiguous.addSynced hadd hreach
  obtain ⟨hranges, hcontracts, -, -⟩ := State.addSynced_spec hadd
  have hlogs : d.logs = [d].flatMap Download.logs := by simp
  rw [hlogs] at hstore
  refine h.download hreorg hstate hstore hcontiguous' (fun addr n hn => ?_)
    (fun addr haddr => (hcontracts addr).mpr (.inl haddr)) fun addr haddr => ?_
  · exact (hsynced addr n hn).imp_right fun hin => ⟨d, mem_singleton_self d, hin⟩
  · rw [hranges, if_neg haddr]

variable [DecidableEq H]

/-- `StepUnsafe`, when the headers that fail are the last ones. -/
theorem Sound.stepUnsafe (h : t.Sound) (hreorg : t.md.reorg = none) {answers : UnsafeAnswers A H}
    {md' : Multidownloader A H} (hfine : t.Fine blockChunkSize (.stepUnsafe answers))
    (hstep : t.md.stepUnsafe answers = .ok (md', downloads)) :
    Sound ⟨md', downloads.reverse.map Effect.downloaded ++ t.history⟩ := by
  obtain ⟨rfl, rfl, -⟩ | ⟨s, total, headers, s', storage, hstate, htotal, hheaders, hqueries, -, -,
    hnew, hstore, rfl⟩ := stepUnsafe_cases hstep
  · exact h
  obtain ⟨hzero, hfine⟩ := hfine hreorg s hstate
  obtain ⟨hnumber, hpre⟩ := hfine total htotal headers hheaders
  obtain ⟨hne, hinside, ⟨addr0, hfirst⟩, -⟩ := getTotalPendingBlockRange_spec htotal
  obtain ⟨hcontiguous, -⟩ := h.memory hreorg s hstate
  have hnumbers := numbers_getOrderedHeaders hne hnumber hpre
  have hpos : 0 < total.fromBlock :=
    Nat.pos_of_ne_zero fun heq => hzero addr0 (heq ▸ hfirst)
  have hpending : ∀ addr n, n ∈ range s.pending addr ↔
      n ∈ range s.pending addr ∧ total.fromBlock ≤ n := fun addr n =>
    ⟨fun hn => ⟨hn, (mem_iff.mp (hinside addr n hn)).2.1⟩, And.left⟩
  obtain ⟨hcontracts, hother⟩ := State.afterLogQueries_contracts hnew
  rw [hqueries] at hnew
  obtain ⟨hcontiguous', hsynced, -⟩ :=
    hcontiguous.afterLogQueries hpos hnumbers hpending hnew
  have hmem : ∀ addr, addr ∈ ((downloads.map Download.query).flatMap LogQuery.addrs).eraseDups ↔
      ∃ q ∈ downloads.map Download.query, addr ∈ q.addrs := fun addr => by
    rw [mem_eraseDups, mem_flatMap]
  refine h.download hreorg hstate hstore hcontiguous' (fun addr n hn => ?_)
    (fun addr haddr => (hcontracts addr).mpr (.inl ((hmem addr).mp haddr))) fun addr haddr => ?_
  · refine (hsynced addr n hn).imp_right fun ⟨hin, hheader⟩ => ?_
    -- The header of the block gave a query for it, and the query has an answer.
    obtain ⟨header, hheader, hnum⟩ := mem_map.mp hheader
    have hquery : blockQuery s.pending header ∈ downloads.map Download.query := by
      rw [hqueries]
      exact mem_map_of_mem hheader
    obtain ⟨d, hd, hdquery⟩ := mem_map.mp hquery
    have hle := ((hpending addr n).mp hin).2
    refine ⟨d, hd, ?_, ?_⟩
    · rw [hdquery, mem_addrs_blockQuery, hnum]
      exact hin
    · rw [hdquery, mem_blockQuery]
      exact ⟨by omega, hnum⟩
  · exact hother addr fun q hq hin => haddr ((hmem addr).mpr ⟨q, hq, hin⟩)

/-- A round of `ProcessReorg`, for targets that continue what is left of the rows. -/
theorem Sound.processReorg (h : t.Sound) {answers : ReorgAnswers H}
    (hfine : t.Fine blockChunkSize (.processReorg answers)) :
    (t.step blockChunkSize (.processReorg answers)).Sound := by
  obtain hnone | ⟨offendingBlockNumber, storage, range, hreorg, hprocess, houtcome⟩ :=
    t.md.processDetectedReorg_cases answers
  · simp only [step, hnone]
    exact h
  obtain ⟨u, hpos, hlt, hconfirmed, hlast, rfl, hreorged⟩ := processReorg_cases hprocess
  have hcut := hreorged.mem_syncedRange (by omega)
  have hkept : ∀ row ∈ t.md.storage.logs.rows,
      row.blockNumber ∉ BlockRange.new (u + 1) t.md.storage.getHighestBlockNumber →
      row ∈ storage.logs.rows := fun row hrow => hreorged.mem_logs hrow
  generalize hrange : BlockRange.new (u + 1) t.md.storage.getHighestBlockNumber = range
    at hkept houtcome
  -- What the rows still report lies below the blocks that were moved.
  have hrows : ∀ md : Multidownloader A H, md.storage = storage →
      ∀ addr n, n ∈ md.storage.syncedRange addr →
        Held ⟨md, .reorged range :: t.history⟩ addr n := by
    rintro md rfl addr n hn
    obtain ⟨hold, hbelow⟩ := (hcut addr n).mp hn
    have hnot : n ∉ range := by
      rw [← hrange, mem_new]
      omega
    exact (h.rows addr n hold).reorged rfl hnot hkept
  rcases houtcome with ⟨e, -, hmd⟩ | ⟨s, hnew, hmd⟩
  · -- The old state stays: what it reports is still held or was moved now or before.
    have hsome : t.md.reorg ≠ none := by simp [hreorg]
    simp only [step, hmd]
    refine ⟨hrows _ rfl, fun hnone => absurd hnone hsome, fun s hs addr n hn => ?_⟩
    rcases h.stale s hs addr n hn with hheld | ⟨-, hremoved⟩
    · by_cases hmem : n ∈ range
      · exact .inr ⟨hsome, hheld.removed rfl hmem⟩
      · exact .inl (hheld.reorged rfl hmem hkept)
    · exact .inr ⟨hsome, hremoved.of_suffix [.reorged range] rfl⟩
  · obtain ⟨targets, htargets, hstate⟩ := Exec.except_bind_ok.mp hnew
    have hsynced := (State.newFromStorageSyncedBlocks_spec hstate).1
    simp only [step, hmd]
    refine Sound.of_memory (hrows _ rfl) fun s' hs' => ?_
    cases hs'
    refine ⟨State.contiguous_newFromStorageSyncedBlocks hstate fun addr htarget hrest => ?_,
      fun addr n hn => by rwa [hsynced] at hn⟩
    obtain ⟨hfirst, hbelow⟩ := (hcut addr _).mp (fromBlock_mem hrest)
    obtain ⟨hne, hle, hge⟩ := mem_iff.mp hfirst
    obtain ⟨hlow, hhigh⟩ := hfine offendingBlockNumber hreorg u ⟨hlt, hconfirmed, hlast⟩
      targets htargets addr htarget hne (by omega)
    -- The first and the last block that are left.
    have hleft : (t.md.storage.syncedRange addr).fromBlock ∈ storage.syncedRange addr :=
      (hcut addr _).mpr ⟨fromBlock_mem hne, by omega⟩
    have hright : min (t.md.storage.syncedRange addr).toBlock u ∈ storage.syncedRange addr :=
      (hcut addr _).mpr ⟨mem_iff.mpr ⟨hne, by omega, by omega⟩, by omega⟩
    have hfromLe := (mem_iff.mp hleft).2.1
    have htoLe := (mem_iff.mp hright).2.2
    change (storage.syncedRange addr).fromBlock ≤ _ ∧ _ ≤ (storage.syncedRange addr).toBlock + 1
    exact ⟨by omega, by omega⟩

/-- Every fine action keeps the invariant. -/
theorem Sound.step {a : Action A H} (h : t.Sound)
    (hfine : t.Fine blockChunkSize a) : (t.step blockChunkSize a).Sound := by
  cases a with
  | registerSyncer data =>
    simp only [Trace.step, Multidownloader.registerSyncer]
    split
    · exact h
    · exact h.of_data_eq rfl rfl rfl rfl id
  | initialized blockNumbers => exact h.initialized hfine
  | restart =>
    -- The new process has no state yet.
    exact Sound.of_memory (fun addr n hn => (h.rows addr n hn).of_data_eq rfl rfl)
      fun s hs => by cases hs
  | processReorg answers => exact h.processReorg hfine
  | updateTargetBlockNumber blockNumbers =>
    exact ite_inLoop h fun s _ hreorg => h.updateTargetBlockNumber hreorg hfine
  | moveUnsafeToSafeIfPossible finalized reply =>
    refine ite_inLoop h fun s _ hreorg => ?_
    unfold Multidownloader.moveUnsafeToSafeIfPossible
    dsimp only
    split
    · exact h
    · split
      · exact h
      · exact h.of_data_eq rfl rfl rfl rfl fun _ => hreorg
      · exact h.of_data_eq rfl rfl rfl rfl id
  | checkReorgsUnsafeZone reply =>
    refine ite_inLoop h fun s _ hreorg => ?_
    unfold Multidownloader.checkReorgsUnsafeZone
    split
    · exact h
    · exact h.of_data_eq rfl rfl rfl rfl fun _ => hreorg
  | stepSafe answers =>
    exact ite_inLoop h fun s _ hreorg => of_download h fun _ _ => h.stepSafe hreorg hfine
  | stepUnsafe answers =>
    exact ite_inLoop h fun s _ hreorg => of_download h fun _ _ => h.stepUnsafe hreorg hfine
  | waitForNewLatestBlocks current =>
    refine ite_inLoop h fun s _ hreorg => ?_
    unfold Multidownloader.waitForNewLatestBlocks
    split
    · exact h
    · split_ifs
      · exact h
      · exact h.of_data_eq rfl rfl rfl rfl fun _ => hreorg
      · exact h

/-- In a run of fine actions whatever is reported as synced was downloaded and is stored, and in
memory it may be waiting for the new state after a reorg moved it away. -/
theorem synced_blocks_held {blockChunkSize : ℕ} {t : Trace A H}
    (hrun : Run.Reach (Trace.step blockChunkSize) (Trace.Fine blockChunkSize) new t) :
    t.SyncedHeld :=
  (hrun.invariant sound_new fun _ _ hsound hfine => hsound.step hfine).syncedHeld

/-- A header of block `n` with the hash `hash`. -/
def header (n hash : ℕ) : BlockHeader ℕ := ⟨n, hash, 0, some 0⟩

/-- A contract is downloaded below and above the finalized block, then block 12 is replaced. -/
def replacedBlock : List (Action Unit ℕ) :=
  [.registerSyncer ⟨"bridge", [()], 10, LatestBlock⟩,
    .initialized fun _ => some 12,
    .stepSafe ⟨some 11, [.logs [⟨(), [], [], 10, 0, 0, 10, 0⟩]], some fun n => .ok (header n n)⟩,
    .stepUnsafe ⟨some fun n => .ok (header n n), fun _ => some []⟩,
    .checkReorgsUnsafeZone (some fun n => .ok (header n (n + 1))),
    .processReorg ⟨fun n => .ok (header n n), true, fun _ => some 12⟩]

theorem synced_blocks_held_replacedBlock :
    ∃ t : Trace Unit ℕ, Run.Reach (Trace.step 3) (Trace.Fine 3) new t ∧ t.history.length = 3 ∧
      10 ∈ t.md.storage.syncedRange () ∧ 12 ∉ t.md.storage.syncedRange () ∧ t.SyncedHeld := by
  have hrun : Run.Reach (Trace.step 3) (Trace.Fine 3) new
      (replacedBlock.foldl (Trace.step 3) new) := by
    refine Run.Reach.of_along ⟨trivial, ?_, ?_, ?_, trivial, ?_, trivial⟩
    · rintro - targets ⟨⟩ ⟨⟩
      intro _ hsynced
      cases hsynced
    · intro _ s _ finalized _ q _ suggested hsuggested
      simp at hsuggested
    · rintro - s ⟨⟩
      refine ⟨by rintro ⟨⟩; decide, ?_⟩
      rintro total ⟨⟩ headers ⟨⟩
      exact ⟨fun n _ h hh => by cases hh; rfl, fun _ _ _ _ _ _ => rfl⟩
    · rintro offending ⟨⟩ u - targets ⟨⟩ ⟨⟩ - - hle
      have hfrom : 10 ≤ u := hle
      have hbound : 10 ≤ min 12 u + 1 := by omega
      exact ⟨Nat.le_refl 10, hbound⟩
  exact ⟨_, hrun, rfl, by decide, by decide, synced_blocks_held hrun⟩

/-- A contract is downloaded from block 10 on, and after a restart from block 1 on. -/
def loweredFromBlock : List (Action ℕ ℕ) :=
  [.registerSyncer ⟨"bridge", [0], 10, LatestBlock⟩,
    .initialized fun _ => some 12,
    .stepSafe ⟨some 12, [.logs []], none⟩,
    .restart,
    .registerSyncer ⟨"bridge", [0], 1, LatestBlock⟩,
    .initialized fun _ => some 12,
    .stepSafe ⟨some 12, [.logs []], none⟩,
    .restart,
    .registerSyncer ⟨"bridge", [0], 1, LatestBlock⟩,
    .initialized fun _ => some 12]

/-- The chunk from block 1 to 3 makes everything up to block 12 synced. Block 5 was never asked for,
and after the next restart it is not pending either. -/
theorem not_syncedHeld_loweredFromBlock :
    ∃ t : Trace ℕ ℕ, Run.Reach (Trace.step 3) (fun _ _ => True) new t ∧
      5 ∈ t.md.storage.syncedRange 0 ∧
      (∃ s, t.md.state = some s ∧ 5 ∈ SetSyncSegment.range s.synced 0 ∧
        5 ∉ SetSyncSegment.range s.pending 0) ∧
      (∀ d, .downloaded d ∈ t.history → 5 ∉ d.query.blockRange) ∧ ¬t.SyncedHeld := by
  obtain ⟨t, hrun, hrow, hreported, hstate, d1, d2, hhistory, hfirst, hsecond⟩ : ∃ t : Trace ℕ ℕ,
      Run.Reach (Trace.step 3) (fun _ _ => True) new t ∧ ⟨0, 1, 12⟩ ∈ t.md.storage.syncStatus.rows ∧
      5 ∈ t.md.storage.syncedRange 0 ∧ (∃ s, t.md.state = some s ∧
        5 ∈ SetSyncSegment.range s.synced 0 ∧ 5 ∉ SetSyncSegment.range s.pending 0) ∧
      ∃ d1 d2, t.history = [.downloaded d1, .downloaded d2] ∧ d1.query.blockRange = .new 1 3 ∧
        d2.query.blockRange = .new 10 12 :=
    ⟨loweredFromBlock.foldl (Trace.step 3) new, .of_along ⟨trivial, trivial, trivial, trivial, trivial,
      trivial, trivial, trivial, trivial, trivial, trivial⟩, by decide, by decide,
      ⟨_, rfl, by decide, by decide⟩, _, _, rfl, rfl, rfl⟩
  have hnever : ∀ d, .downloaded d ∈ t.history → 5 ∉ d.query.blockRange := by
    intro d hd
    rw [hhistory] at hd
    simp only [mem_cons, Effect.downloaded.injEq, not_mem_nil, or_false] at hd
    rcases hd with rfl | rfl
    · rw [hfirst]
      decide
    · rw [hsecond]
      decide
  refine ⟨t, hrun, hreported, hstate, hnever, fun hheld => ?_⟩
  obtain ⟨newer, d, older, heq, -, -, hblock, -⟩ := hheld.1 _ hrow 5 (by decide)
  exact hnever d (by rw [heq]; simp) hblock

end Trace

end AggKit.MultiDownloader
