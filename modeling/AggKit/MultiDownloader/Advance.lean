import AggKit.MultiDownloader.Store
import AggKit.MultiDownloader.Synced

/-!
# The download advances

In every state of a run a step whose calls to the node succeed should store what it got. By the
module before, it does when no stored block lies between two pending ones. The steps keep this: a
`StepSafe` stores blocks of its query and leaves nothing pending up to the end of it, and after a
`StepUnsafe` what is pending are blocks whose headers failed. It is lost when the wanted blocks change
while others are stored, for instance when a contract is registered later than another whose logs
were already downloaded: its blocks then collide with those of the other contract. `Trace.Apart` says
of each action that it does not bring this about, and `Trace.Storing` is the invariant.
-/

namespace AggKit.MultiDownloader

open Table SetSyncSegment BlockRange Multidownloader Storage

variable {A H : Type}

/-- The answers to the tries of `requestLogs`: the logs are of the range that was asked for, and a
suggested range starts no later than the query and ends inside it. -/
def LogsInside (query : BlockRange) : BlockRange → List (LogsReply A H) → Prop
  | tried, .logs logs :: _ => ∀ l ∈ logs, l.blockNumber ∈ tried
  | _, .tooManyResults (some suggested) :: replies =>
    suggested.fromBlock ≤ query.fromBlock ∧ suggested.toBlock ≤ query.toBlock ∧
      LogsInside query suggested replies
  | _, _ => True

theorem LogsInside.of_requestLogsFrom {q : LogQuery A H} {chunk : ℕ} {tried : BlockRange}
    {replies : List (LogsReply A H)} {d : Download A H} (h : LogsInside q.blockRange tried replies)
    (hfrom : tried.fromBlock ≤ q.blockRange.fromBlock) (hto : tried.toBlock ≤ q.blockRange.toBlock)
    (hd : requestLogsFrom q chunk tried replies = .ok d) :
    d.query.blockRange.fromBlock ≤ q.blockRange.fromBlock ∧
      d.query.blockRange.toBlock ≤ q.blockRange.toBlock ∧
      ∀ l ∈ d.logs, l.blockNumber ∈ d.query.blockRange := by
  fun_induction requestLogsFrom q chunk tried replies with
  | case1 => cases hd
  | case2 chunk tried logs replies =>
    cases hd
    exact ⟨hfrom, hto, h⟩
  | case3 | case4 => cases hd
  | case5 chunk tried suggested replies hover ih => exact ih h.2.2 h.1 h.2.1 hd
  | case6 => cases hd
  | case7 chunk tried suggested replies hover hchunk ih => exact ih h.2.2 h.1 h.2.1 hd

/-- The headers of a `StepSafe` are those of the blocks of its logs. -/
theorem exists_log_of_mem_retrieveSafeHeaders {logs : List (Log A H)} {reply : HeadersReply H}
    {blockHeaders : List (BlockHeader H)}
    (hnumber : ∀ headers, reply = some headers → ∀ n h, headers n = .ok h → h.number = n)
    (h : Multidownloader.retrieveSafeHeaders logs reply =
      (.ok blockHeaders : Except (StepError A) (List (BlockHeader H)))) :
    ∀ h ∈ blockHeaders, ∃ l ∈ logs, h.number = l.blockNumber := by
  unfold Multidownloader.retrieveSafeHeaders at h
  split at h
  · cases h
    simp
  · split at h
    · cases h
    · rename_i headers
      simp only at h
      split at h
      · cases h
      · cases h
        intro hd hhd
        obtain ⟨n, hn, hok⟩ := mem_getOrderedHeaders.mp hhd
        obtain ⟨l, hl, rfl⟩ := mem_getBlockNumbers.mp hn
        exact ⟨l, hl, hnumber headers rfl _ _ hok⟩

variable [DecidableEq A]

/-! ## The condition -/

/-- The actions that bring no stored block between two wanted ones. -/
def Trace.Apart (blockChunkSize : ℕ) (t : Trace A H) : Action A H → Prop
  -- What becomes pending: the wanted blocks that are not synced.
  | .initialized blockNumbers => t.md.state = none →
    ∀ targets, t.md.syncersConfig.syncSegments blockNumbers = .ok targets →
      ClearOf t.md.storage.Has fun addr n =>
        n ∈ range targets addr ∧ n ∉ t.md.storage.syncedRange addr
  | .updateTargetBlockNumber blockNumbers => t.md.reorg = none → ∀ s, t.md.state = some s →
    ∀ targets, t.md.syncersConfig.syncSegments blockNumbers = .ok targets →
      ClearOf t.md.storage.Has fun addr n => n ∈ range s.pending addr ∨
        n ∈ range targets addr ∧ n ∉ range s.synced addr
  -- The same, when the blocks after `u` are neither stored nor synced any more.
  | .processReorg answers => ∀ offendingBlockNumber, t.md.reorg = some offendingBlockNumber →
    ∀ u, t.md.storage.LastConfirmed answers.header offendingBlockNumber u →
    ∀ targets, t.md.syncersConfig.syncSegments answers.blockNumbers = .ok targets →
      ClearOf (fun n => t.md.storage.Has n ∧ n ≤ u) fun addr n =>
        n ∈ range targets addr ∧ ¬(n ∈ t.md.storage.syncedRange addr ∧ n ≤ u)
  -- The node returns what it is asked for and suggests ranges at the start of the query.
  | .stepSafe answers => t.md.reorg = none → ∀ s, t.md.state = some s →
    ∀ finalized, answers.finalized = some finalized → ∀ q : LogQuery A H,
      nextQuery s.pending blockChunkSize finalized = .ok q →
        LogsInside q.blockRange q.blockRange answers.logs ∧
        ∀ headers, answers.headers = some headers → ∀ n h, headers n = .ok h → h.number = n
  -- The headers that fail are next to each other.
  | .stepUnsafe answers => t.md.reorg = none → ∀ s, t.md.state = some s →
    ∀ total, getTotalPendingBlockRange s.pending = some total →
      ∀ headers, answers.headers = some headers →
        (∀ n ∈ total, ∀ h, headers n = .ok h → h.number = n) ∧
        ∀ n₁ ∈ total, ∀ n₂ ∈ total, ∀ n, n₁ ≤ n → n ≤ n₂ → (headers n).isOk = true →
          (headers n₁).isOk = true ∨ (headers n₂).isOk = true
  | _ => True

/-! ## The invariant -/

namespace Trace

/-- What holds in every state of a run of such actions. -/
structure Storing (t : Trace A H) : Prop where
  references : ∀ row ∈ t.md.storage.logs.rows, t.md.storage.Has row.blockNumber
  clear : t.md.reorg = none → ∀ s, t.md.state = some s →
    ClearOf t.md.storage.Has fun addr n => n ∈ range s.pending addr
  loop : t.md.reorg ≠ none → t.md.state ≠ none
  rows : t.md.state ≠ none →
    ∀ addr ∈ t.md.syncersConfig.contracts, addr ∈ t.md.storage.syncedContracts
  contracts : ∀ s, t.md.state = some s →
    ∀ addr ∈ getContracts s.pending, addr ∈ t.md.syncersConfig.contracts

variable {blockChunkSize : ℕ} {t t' : Trace A H} {history : List (Effect A H)} {s : State A}

theorem storing_new : (new : Trace A H).Storing :=
  ⟨fun _ hrow => absurd hrow List.not_mem_nil, fun _ _ hs => (nomatch hs),
    fun hne => absurd rfl hne, fun hne => absurd rfl hne, fun _ hs => (nomatch hs)⟩

/-- The database is ready for a step. -/
theorem Storing.ready (h : t.Storing) (hreorg : t.md.reorg = none)
    (hstate : t.md.state = some s) : Multidownloader.Ready t.md.storage s :=
  ⟨h.references, h.clear hreorg s hstate, fun addr haddr =>
    h.rows (by simp [hstate]) addr (h.contracts s hstate addr haddr)⟩

variable {blockNumbers : BlockNumberFinality → Option ℕ}

/-- Actions that leave the data, the configuration and the state as they are. -/
theorem Storing.of_data_eq (h : t.Storing) (hlogs : t'.md.storage.logs = t.md.storage.logs)
    (hblocks : ∀ n, t'.md.storage.Has n ↔ t.md.storage.Has n)
    (hsync : t'.md.storage.syncStatus = t.md.storage.syncStatus)
    (hconfig : t'.md.syncersConfig = t.md.syncersConfig) (hstate : t'.md.state = t.md.state)
    (hreorg : t'.md.reorg = none → t.md.reorg = none)
    (hloop : t'.md.reorg ≠ none → t'.md.state ≠ none) : t'.Storing := by
  refine ⟨fun row hrow => ?_, fun hnone s hs => ?_, hloop, fun hne addr haddr => ?_,
    fun s hs addr haddr => ?_⟩
  · rw [hblocks]
    exact h.references row (hlogs ▸ hrow)
  · refine (h.clear (hreorg hnone) s (hstate ▸ hs)).of_between (fun b => (hblocks b).mp) ?_
    exact fun addr n hn => .of_mem hn
  · rw [syncedContracts, hsync]
    exact h.rows (hstate ▸ hne) addr (hconfig ▸ haddr)
  · rw [hconfig]
    exact h.contracts s (hstate ▸ hs) addr haddr

/-- A check of the stored blocks ended, maybe with an offending one. -/
theorem Storing.checked (h : t.Storing) (hreorg : t.md.reorg = none) (hstate : t.md.state = some s)
    {offendingBlockNumber : Option ℕ} :
    Storing ⟨{ t.md with reorg := offendingBlockNumber }, t.history⟩ :=
  h.of_data_eq rfl (fun _ => Iff.rfl) rfl rfl rfl (fun _ => hreorg) fun _ => by simp [hstate]

/-- Without a state only the data counts. -/
theorem Storing.of_state_eq_none (h : t.Storing) (hstate : t'.md.state = none)
    (hreorg : t'.md.reorg = none) (hlogs : t'.md.storage.logs = t.md.storage.logs)
    (hblocks : t'.md.storage.blocks = t.md.storage.blocks) : t'.Storing := by
  have hno : ∀ {p : Prop} {s}, t'.md.state = some s → p := fun hs => nomatch hstate.symm.trans hs
  refine ⟨fun row hrow => ?_, fun _ _ => hno, fun hne => absurd hreorg hne,
    fun hne => absurd hstate hne, fun _ => hno⟩
  rw [Has, hblocks]
  exact h.references row (hlogs ▸ hrow)

/-! ## The steps -/

/-- A state made from the database: what is wanted of it is what is not synced. -/
theorem newStateFromStorage_spec {st : Storage A H} {syncersConfig : SetSyncerConfig A}
    (h : Multidownloader.newStateFromStorage st syncersConfig blockNumbers = .ok s) :
    ∃ targets, syncersConfig.syncSegments blockNumbers = .ok targets ∧
      (∀ addr n, n ∈ range s.pending addr ↔
        n ∈ range targets addr ∧ n ∉ st.syncedRange addr) ∧
      ∀ addr ∈ getContracts s.pending, addr ∈ syncersConfig.contracts := by
  obtain ⟨targets, htargets, hstate⟩ := Exec.except_bind_ok.mp h
  obtain ⟨-, hcontracts, hpending⟩ := State.newFromStorageSyncedBlocks_spec hstate
  refine ⟨targets, htargets, hpending, fun addr haddr => ?_⟩
  rw [hcontracts] at haddr
  exact mem_contracts_of_syncSegments htargets haddr

/-- `Initialize`. -/
theorem Storing.initialized (h : t.Storing)
    (hapart : t.Apart blockChunkSize (.initialized blockNumbers)) :
    Storing ⟨t.md.initializeState blockNumbers, t.history⟩ := by
  simp only [Multidownloader.initializeState]
  split_ifs with hstate
  · exact h
  · rw [Option.not_isSome_iff_eq_none] at hstate
    obtain ⟨hranges, hrows⟩ := t.md.storage.upsertSyncerConfigs_spec t.md.syncersConfig.contracts
    -- The loop does not run yet.
    have hreorg : t.md.reorg = none := not_not.mp fun hne => h.loop hne hstate
    split
    · exact h.of_state_eq_none hstate hreorg rfl rfl
    · rename_i s hnew
      obtain ⟨targets, htargets, hpending, hcontracts⟩ := newStateFromStorage_spec hnew
      refine ⟨h.references, fun _ s' hs' => ?_, fun hne => absurd hreorg hne,
        fun _ addr haddr => (hrows addr).mpr (.inl haddr), fun s' hs' => ?_⟩
      · cases hs'
        refine (hapart hstate targets htargets).of_between (fun b hb => hb) fun addr n hn => ?_
        rw [hpending, hranges] at hn
        exact .of_mem hn
      · cases hs'
        exact hcontracts

/-- `updateTargetBlockNumber`. -/
theorem Storing.updateTargetBlockNumber (h : t.Storing) (hreorg : t.md.reorg = none)
    (hapart : t.Apart blockChunkSize (.updateTargetBlockNumber blockNumbers)) :
    Storing ⟨t.md.updateTargetBlockNumber blockNumbers, t.history⟩ := by
  unfold Multidownloader.updateTargetBlockNumber
  cases hstate : t.md.state with
  | none => exact h
  | some s =>
    have hrows := h.rows (by simp [hstate])
    have hcontracts := h.contracts s hstate
    unfold State.extendPendingRange
    cases htargets : t.md.syncersConfig.syncSegments blockNumbers with
    | error e =>
      exact h.of_data_eq rfl (fun _ => Iff.rfl) rfl rfl hstate.symm id fun _ => by simp
    | ok targets =>
      refine ⟨h.references, fun hnone s' hs' => ?_, fun _ => by simp, fun _ => hrows,
        fun s' hs' addr haddr => ?_⟩
      · cases hs'
        refine (hapart hreorg s hstate targets htargets).of_between (fun b hb => hb) fun addr n hn => ?_
        refine (State.between_extendSegments hn).trans fun m hm => .of_mem (hm.imp_right ?_)
        rintro ⟨target, htarget, rfl, hin, hnot⟩
        exact ⟨by rwa [range_of_mem htarget], hnot⟩
      · cases hs'
        rcases State.mem_getContracts_extendSegments haddr with hmem | ⟨target, htarget, rfl⟩
        · exact hcontracts addr hmem
        · exact mem_contracts_of_syncSegments htargets (List.mem_map_of_mem htarget)

/-- A download after which no new block lies between two pending ones. -/
theorem Storing.download (h : t.Storing) (hreorg : t.md.reorg = none) {s' : State A}
    (hstate : t.md.state = some s) {logs : List (Log A H)} {blockHeaders : List (BlockHeader H)}
    {addrs : List A} {isFinal : Bool} {storage : Storage A H}
    (hstore : Multidownloader.storeData t.md.storage logs blockHeaders
      (segmentsByContract s'.synced addrs) isFinal = .ok storage)
    (hpending : ∀ addr n, n ∈ range s'.pending addr →
      n ∈ range s.pending addr)
    (hcontracts : getContracts s'.pending = getContracts s.pending)
    (hnew : ∀ header ∈ blockHeaders, ∀ addr1 n₁ addr2 n₂,
      n₁ ∈ range s'.pending addr1 → n₂ ∈ range s'.pending addr2 →
      n₁ ≤ header.number → n₂ < header.number) :
    Storing ⟨{ t.md with storage, state := some s' }, history⟩ := by
  obtain ⟨hblocks, hlogs, -, -, hrows, -⟩ := storeData_spec hstore
  refine ⟨storeData_references h.references hstore hblocks hlogs,
    fun _ s1 hs1 => ?_, fun hne => absurd hreorg hne, fun _ addr haddr => ?_,
    fun s1 hs1 addr haddr => ?_⟩
  · cases hs1
    refine (h.clear hreorg s hstate).insert (fun b => ∃ header ∈ blockHeaders, header.number = b)
      hpending (fun b hb => ?_) ?_
    · obtain ⟨row, hrow, rfl⟩ := hb
      rw [hblocks] at hrow
      rcases List.mem_append.mp hrow with hrow | hrow
      · exact .inl ⟨row, hrow, rfl⟩
      · exact .inr ⟨row.header, (exists_of_mem_newBlockRows hrow).1, rfl⟩
    · rintro b ⟨header, hheader, rfl⟩
      exact hnew header hheader
  · rw [hrows]
    exact h.rows (by simp [hstate]) addr haddr
  · cases hs1
    rw [hcontracts] at haddr
    exact h.contracts s hstate addr haddr

/-- `StepSafe`: what is left pending lies after the range that was downloaded. -/
theorem Storing.stepSafe (h : t.Storing) (hreorg : t.md.reorg = none) {answers : SafeAnswers A H}
    {md' : Multidownloader A H} {downloads : List (Download A H)}
    (hapart : t.Apart blockChunkSize (.stepSafe answers))
    (hstep : t.md.stepSafe blockChunkSize answers = .ok (md', downloads)) :
    Storing ⟨md', history⟩ := by
  obtain ⟨rfl, -⟩ | ⟨s, finalized, q, d, blockHeaders, s', storage, hstate, hfinalized, hquery,
    hrequest, hheaders, hadd, hstore, rfl, -⟩ := stepSafe_cases hstep
  · exact h.of_data_eq rfl (fun _ => Iff.rfl) rfl rfl rfl id h.loop
  obtain ⟨hinside, hnumber⟩ := hapart hreorg s hstate finalized hfinalized q hquery
  obtain ⟨haddrs, -, -, -⟩ := requestLogsFrom_spec hrequest
  obtain ⟨hfrom, hto, hlogs⟩ :=
    hinside.of_requestLogsFrom (Nat.le_refl _) (Nat.le_refl _) hrequest
  obtain ⟨-, hne, -, hlow, -, hmem⟩ := nextQuery_spec hquery
  obtain ⟨-, -, hpending, hcontracts⟩ := State.addSynced_spec hadd
  refine h.download hreorg hstate hstore (fun addr n hn => ((hpending addr n).mp hn).1) hcontracts ?_
  intro header hheader addr1 n₁ addr2 n₂ hn1 _ hle
  exfalso
  obtain ⟨l, hl, heq⟩ := exists_log_of_mem_retrieveSafeHeaders hnumber hheaders header hheader
  obtain ⟨hdne, -, hend⟩ := mem_iff.mp (hlogs l hl)
  obtain ⟨hwas, hnot⟩ := (hpending addr1 n₁).mp hn1
  have hstart := hlow n₁ addr1 hwas
  -- A pending block up to the end of the range is in the query, and its contract too.
  have hin : n₁ ∈ q.blockRange := mem_iff.mpr ⟨hne, hstart, by omega⟩
  have haddr : addr1 ∈ d.query.addrs := haddrs ▸ (hmem addr1).mpr ⟨n₁, hwas, hin⟩
  exact hnot haddr (mem_iff.mpr ⟨hdne, by omega, by omega⟩)

variable [DecidableEq H]

/-- `StepUnsafe`: what is left pending are blocks whose headers failed. -/
theorem Storing.stepUnsafe (h : t.Storing) (hreorg : t.md.reorg = none)
    {answers : UnsafeAnswers A H} {md' : Multidownloader A H} {downloads : List (Download A H)}
    (hapart : t.Apart blockChunkSize (.stepUnsafe answers))
    (hstep : t.md.stepUnsafe answers = .ok (md', downloads)) : Storing ⟨md', history⟩ := by
  obtain ⟨rfl, -⟩ | ⟨s, total, headers, s', storage, hstate, htotal, hheaders, hqueries, -, -,
    hafter, hstore, rfl⟩ := stepUnsafe_cases hstep
  · exact h.of_data_eq rfl (fun _ => Iff.rfl) rfl rfl rfl id h.loop
  obtain ⟨hnumber, hbetween⟩ := hapart hreorg s hstate total htotal headers hheaders
  obtain ⟨-, hinside, -, -⟩ := getTotalPendingBlockRange_spec htotal
  rw [hqueries] at hafter
  obtain ⟨-, -, hpending, hcontracts⟩ := State.afterLogQueries_spec hafter
  -- A block that is still pending has no header: with one it would have been downloaded.
  have hfailed : ∀ addr n, n ∈ range s'.pending addr →
      n ∈ total ∧ (headers n).isOk ≠ true := by
    intro addr n hn
    obtain ⟨hwas, hnot⟩ := (hpending addr n).mp hn
    have hin := hinside addr n hwas
    refine ⟨hin, fun hok => ?_⟩
    cases hheader : headers n with
    | error fault =>
      rw [hheader] at hok
      cases hok
    | ok header =>
      have heq := hnumber n hin header hheader
      have hzero : n ≠ 0 := fun hzero =>
        (h.clear hreorg s hstate).1 addr (hzero ▸ hwas)
      have hquery := List.mem_map_of_mem (f := blockQuery s.pending)
        (mem_getOrderedHeaders.mpr ⟨n, mem_listBlockNumbers.mpr hin, hheader⟩)
      refine hnot _ hquery ?_ (mem_blockQuery.mpr ⟨hzero, heq⟩)
      rw [mem_addrs_blockQuery, heq]
      exact hwas
  refine h.download hreorg hstate hstore (fun addr n hn => ((hpending addr n).mp hn).1) hcontracts ?_
  intro header hheader addr1 n₁ addr2 n₂ hn1 hn2 hle
  obtain ⟨n, hn, hok⟩ := mem_getOrderedHeaders.mp hheader
  have heq := hnumber n (mem_listBlockNumbers.mp hn) header hok
  obtain ⟨hin1, hno1⟩ := hfailed addr1 n₁ hn1
  obtain ⟨hin2, hno2⟩ := hfailed addr2 n₂ hn2
  by_contra hge
  have hisOk : (headers n).isOk = true := by
    rw [hok]
    rfl
  rcases hbetween n₁ hin1 n₂ hin2 n (by omega) (by omega) hisOk with hok1 | hok2
  · exact hno1 hok1
  · exact hno2 hok2

/-- A round of `ProcessReorg`. -/
theorem Storing.processReorg (h : t.Storing) {answers : ReorgAnswers H}
    (hapart : t.Apart blockChunkSize (.processReorg answers)) :
    (t.step blockChunkSize (.processReorg answers)).Storing := by
  obtain hnone | ⟨offendingBlockNumber, storage, range, hreorg, hprocess, houtcome⟩ :=
    t.md.processDetectedReorg_cases answers
  · simp only [step, hnone]
    exact h
  obtain ⟨u, hpos, hlt, hconfirmed, hlast, rfl, hreorged⟩ := processReorg_cases hprocess
  have hcut := hreorged.mem_syncedRange (by omega)
  -- The blocks up to `u` stay, with their logs.
  have hhas : ∀ n, storage.Has n ↔ t.md.storage.Has n ∧ n ≤ u := by
    intro n
    constructor
    · rintro ⟨row, hrow, rfl⟩
      rw [hreorged.blocks] at hrow
      obtain ⟨hrow, hnot⟩ := mem_deleteWhere.mp hrow
      have hhigh := le_getHighestBlockNumber hrow
      simp only [Bool.and_eq_false_iff, decide_eq_false_iff_not] at hnot
      exact ⟨⟨row, hrow, rfl⟩, by omega⟩
    · rintro ⟨⟨row, hrow, rfl⟩, hle⟩
      refine ⟨row, ?_, rfl⟩
      rw [hreorged.blocks]
      refine mem_deleteWhere.mpr ⟨hrow, ?_⟩
      simp only [Bool.and_eq_false_iff, decide_eq_false_iff_not]
      omega
  have hreferences : ∀ row ∈ storage.logs.rows, storage.Has row.blockNumber := by
    intro row hrow
    rw [hreorged.logs] at hrow
    obtain ⟨hrow, hnot⟩ := mem_deleteWhere.mp hrow
    obtain ⟨block, hblock, heq⟩ := h.references row hrow
    have hhigh := le_getHighestBlockNumber hblock
    simp only [Bool.and_eq_false_iff, decide_eq_false_iff_not] at hnot
    exact (hhas _).mpr ⟨⟨block, hblock, heq⟩, by omega⟩
  have hrows : ∀ addr ∈ t.md.syncersConfig.contracts, addr ∈ storage.syncedContracts := by
    intro addr haddr
    have hold := h.rows (h.loop (by simp [hreorg])) addr haddr
    have hsame : storage.syncedContracts = t.md.storage.syncedContracts := by
      rw [syncedContracts, syncedContracts, hreorged.syncStatus, List.map_map]
      refine List.map_congr_left fun r _ => ?_
      rw [Function.comp_apply]
      split <;> rfl
    rwa [hsame]
  rcases houtcome with ⟨e, -, hmd⟩ | ⟨s, hnew, hmd⟩
  · simp only [step, hmd]
    refine ⟨hreferences, fun hnone => ?_, h.loop, fun _ => hrows, h.contracts⟩
    exact absurd hnone (by simp [hreorg])
  · obtain ⟨targets, htargets, hpending, hcontracts⟩ := newStateFromStorage_spec hnew
    simp only [step, hmd]
    refine ⟨hreferences, fun _ s' hs' => ?_, fun hne => absurd rfl hne, fun _ => hrows,
      fun s' hs' => ?_⟩
    · cases hs'
      refine (hapart offendingBlockNumber hreorg u ⟨hlt, hconfirmed, hlast⟩ targets htargets).of_between
        (fun b hb => (hhas b).mp hb) fun addr n hn => ?_
      obtain ⟨htarget, hnot⟩ := (hpending addr n).mp hn
      refine .of_mem ⟨htarget, fun hkept => hnot ((hcut addr n).mpr ⟨hkept.1, ?_⟩)⟩
      exact Nat.lt_succ_of_le hkept.2
    · cases hs'
      exact hcontracts

/-- Every action that keeps the blocks apart keeps the invariant. -/
theorem Storing.step {a : Action A H} (h : t.Storing)
    (hapart : t.Apart blockChunkSize a) : (t.step blockChunkSize a).Storing := by
  cases a with
  | registerSyncer data =>
    simp only [Trace.step, Multidownloader.registerSyncer]
    split
    · exact h
    · -- The configuration changes only before there is a state.
      rename_i hstate
      rw [Option.not_isSome_iff_eq_none] at hstate
      exact h.of_state_eq_none hstate (not_not.mp fun hne => h.loop hne hstate) rfl rfl
  | initialized blockNumbers => exact h.initialized hapart
  | restart =>
    exact h.of_state_eq_none rfl rfl rfl rfl
  | processReorg answers => exact h.processReorg hapart
  | updateTargetBlockNumber blockNumbers =>
    exact ite_inLoop h fun s _ hreorg => h.updateTargetBlockNumber hreorg hapart
  | moveUnsafeToSafeIfPossible finalized reply =>
    refine ite_inLoop h fun s hstate hreorg => ?_
    unfold Multidownloader.moveUnsafeToSafeIfPossible
    dsimp only
    split
    · exact h
    · split
      · exact h
      · exact h.checked hreorg hstate
      · exact h.of_data_eq rfl (fun _ => has_updateBlockToFinalized) rfl rfl rfl id h.loop
  | checkReorgsUnsafeZone reply =>
    refine ite_inLoop h fun s hstate hreorg => ?_
    unfold Multidownloader.checkReorgsUnsafeZone
    split
    · exact h
    · exact h.checked hreorg hstate
  | stepSafe answers =>
    exact ite_inLoop h fun s _ hreorg => of_download h fun _ _ => h.stepSafe hreorg hapart
  | stepUnsafe answers =>
    exact ite_inLoop h fun s _ hreorg => of_download h fun _ _ => h.stepUnsafe hreorg hapart
  | waitForNewLatestBlocks current =>
    refine ite_inLoop h fun s hstate hreorg => ?_
    unfold Multidownloader.waitForNewLatestBlocks
    split
    · exact h
    · split_ifs
      · exact h
      · exact h.checked hreorg hstate
      · exact h

/-! ## The result -/

/-- A `StepSafe` whose calls succeed stores what it got, under numbers that are new. It advances when a
block up to the finalized one is pending, unless a contract without pending blocks hides it from
`NextQuery`. -/
def StepSafeStores (blockChunkSize : ℕ) (t : Trace A H) (s : State A) : Prop :=
  ∀ (answers : SafeAnswers A H) finalized logs rest, answers.finalized = some finalized →
    answers.logs = .logs logs :: rest →
    (∀ q : LogQuery A H, nextQuery s.pending blockChunkSize finalized = .ok q →
      q.Answered logs) →
    answers.headers.Answered (getBlockNumbers logs) →
    ∃ md' downloads s', t.md.stepSafe blockChunkSize answers = .ok (md', downloads) ∧
      md'.state = some s' ∧ t.md.storage.Inserts md'.storage ∧
      ((∃ addr n, n ∈ range s.pending addr ∧ n ≤ finalized) → 0 < blockChunkSize →
        (∀ segment ∈ s.pending.rows, segment.blockRange.isEmpty = false) → s.Advances s')

/-- A `StepUnsafe` whose calls succeed stores what it got, under numbers that are new, and advances
when anything is pending. -/
def StepUnsafeStores (t : Trace A H) (s : State A) : Prop :=
  ∀ answers : UnsafeAnswers A H,
    (∀ total, getTotalPendingBlockRange s.pending = some total →
      answers.headers.Answered total.listBlockNumbers ∧
      ∀ headers, answers.headers = some headers → ∀ q ∈ Multidownloader.getUnsafeLogQueries s
        (getOrderedHeaders headers total.listBlockNumbers),
          ∃ logs, answers.logs q = some logs ∧ q.Answered logs) →
    ∃ md' downloads s', t.md.stepUnsafe answers = .ok (md', downloads) ∧ md'.state = some s' ∧
      t.md.storage.Inserts md'.storage ∧
      ((∃ addr n, n ∈ range s.pending addr) → s.Advances s')

omit [DecidableEq H] in
theorem Storing.stepSafeStores (h : t.Storing) (hreorg : t.md.reorg = none)
    (hstate : t.md.state = some s) (blockChunkSize : ℕ) :
    t.StepSafeStores blockChunkSize s := by
  intro answers finalized logs rest hfinalized hlogs hanswered hheaders
  cases hquery : (nextQuery s.pending blockChunkSize finalized :
      Except (SegmentError A) (LogQuery A H)) with
  | ok q =>
    obtain ⟨storage, s', hstep, hinserts, hadvances⟩ := exists_stepSafe hstate
      (h.ready hreorg hstate) hfinalized hlogs hquery (hanswered q hquery) hheaders
    exact ⟨_, _, s', hstep, rfl, hinserts, fun _ _ _ => hadvances⟩
  | error e =>
    obtain rfl := nextQuery_error hquery
    refine ⟨t.md, [], s, ?_, hstate, ⟨[], by simp, by simp⟩, ?_⟩
    · unfold Multidownloader.stepSafe
      simp only [hstate, Multidownloader.requestLogs, hfinalized, hquery]
    · rintro ⟨addr, n, hn, hle⟩ hchunk hsegments
      obtain ⟨q, hok⟩ := @exists_nextQuery A H _ s.pending _ _ _ _ hchunk hn hle
        hsegments
      rw [hquery] at hok
      cases hok

theorem Storing.stepUnsafeStores (h : t.Storing) (hreorg : t.md.reorg = none)
    (hstate : t.md.state = some s) : t.StepUnsafeStores s := by
  intro answers hanswers
  cases htotal : getTotalPendingBlockRange s.pending with
  | some total =>
    obtain ⟨hheaders, hlogs⟩ := hanswers total htotal
    obtain ⟨storage, s', downloads, hstep, hinserts, hadvances⟩ :=
      exists_stepUnsafe hstate (h.ready hreorg hstate) htotal hheaders hlogs
    exact ⟨_, _, s', hstep, rfl, hinserts, fun _ => hadvances⟩
  | none =>
    refine ⟨t.md, [], s, ?_, hstate, ⟨[], by simp, by simp⟩, ?_⟩
    · unfold Multidownloader.stepUnsafe
      simp only [hstate, htotal]
    · rintro ⟨addr, n, hn⟩
      exact absurd hn (notMem_range_of_getTotalPendingBlockRange htotal addr n)

/-- In every state of a run of such actions, a step whose calls to the node succeed stores its data
without meeting a block that is stored, and the download advances. -/
theorem steps_store_data {blockChunkSize : ℕ} {t : Trace A H} {s : State A}
    (hrun : Run.Reach (Trace.step blockChunkSize) (Trace.Apart blockChunkSize) new t)
    (hstate : t.md.state = some s) (hreorg : t.md.reorg = none) :
    t.StepSafeStores blockChunkSize s ∧ t.StepUnsafeStores s := by
  have hstoring : t.Storing :=
    hrun.invariant storing_new fun _ _ hsound hapart => hsound.step hapart
  exact ⟨hstoring.stepSafeStores hreorg hstate blockChunkSize,
    hstoring.stepUnsafeStores hreorg hstate⟩

/-- One contract, with a log in block 10, downloaded below the finalized block. -/
def firstChunk : List (Action Unit ℕ) :=
  [.registerSyncer ⟨"bridge", [()], 10, LatestBlock⟩,
    .initialized fun _ => some 12,
    .stepSafe ⟨some 11, [.logs [⟨(), [], [], 10, 0, 0, 10, 0⟩]], some fun n => .ok (header n n)⟩]

theorem steps_store_data_firstChunk :
    ∃ (t : Trace Unit ℕ) (s : State Unit), Run.Reach (Trace.step 3) (Trace.Apart 3) new t ∧
      t.md.storage.Has 10 ∧ 12 ∈ SetSyncSegment.range s.pending () ∧
      t.StepSafeStores 3 s ∧ t.StepUnsafeStores s := by
  have hrun : Run.Reach (Trace.step 3) (Trace.Apart 3) new (firstChunk.foldl (Trace.step 3) new) := by
    refine Run.Reach.of_along ⟨trivial, ?_, ?_, trivial⟩
    · rintro - targets ⟨⟩
      refine ⟨by rintro ⟨⟩; decide, fun b hb => ?_⟩
      obtain ⟨row, hrow, -⟩ := hb
      cases hrow
    · rintro - s ⟨⟩ finalized ⟨⟩ q ⟨⟩
      refine ⟨?_, ?_⟩
      · intro l hl
        obtain rfl := List.mem_singleton.mp hl
        decide
      · rintro headers ⟨⟩ n h ⟨⟩
        rfl
  obtain ⟨s, hstate, hpending⟩ : ∃ s, (firstChunk.foldl (Trace.step 3) new).md.state = some s ∧
      12 ∈ SetSyncSegment.range s.pending () := ⟨_, rfl, by decide⟩
  have hhas : (firstChunk.foldl (Trace.step 3) new).md.storage.Has 10 :=
    ⟨⟨header 10 10, true⟩, by decide, rfl⟩
  exact ⟨_, s, hrun, hhas, hpending, steps_store_data hrun hstate rfl⟩

/-- A contract with a log in block 5 is downloaded, and after a restart another one is wanted from
block 1 on. -/
def laterContract : List (Action ℕ ℕ) :=
  [.registerSyncer ⟨"bridge", [1], 1, LatestBlock⟩,
    .initialized fun _ => some 5,
    .stepSafe ⟨some 5, [.logs [⟨1, [], [], 5, 0, 0, 5, 0⟩]], some fun n => .ok (header n n)⟩,
    .restart,
    .registerSyncer ⟨"bridge", [1], 1, LatestBlock⟩,
    .registerSyncer ⟨"claims", [0], 1, LatestBlock⟩,
    .initialized fun _ => some 6]

/-- The other contract has a log in block 5 too. Every call to the node succeeds, but the block is
stored already and the step fails, now and whenever it is tried again. -/
theorem not_stepSafeStores_laterContract :
    ∃ (t : Trace ℕ ℕ) (s : State ℕ), Run.Reach (Trace.step 10) (fun _ _ => True) new t ∧
      t.md.state = some s ∧ t.md.reorg = none ∧ t.md.storage.Has 5 ∧
      t.md.stepSafe 10 ⟨some 6, [.logs [⟨0, [], [], 5, 0, 0, 5, 1⟩]],
        some fun n => .ok (header n n)⟩ = .error (.storage (.insertBlock 5)) ∧
      ¬t.StepSafeStores 10 s := by
  obtain ⟨t, s, hrun, hstate, hreorg, hhas, hfails, hquery⟩ : ∃ (t : Trace ℕ ℕ) (s : State ℕ),
      Run.Reach (Trace.step 10) (fun _ _ => True) new t ∧ t.md.state = some s ∧ t.md.reorg = none ∧
      t.md.storage.Has 5 ∧ t.md.stepSafe 10 ⟨some 6, [.logs [⟨0, [], [], 5, 0, 0, 5, 1⟩]],
        some fun n => .ok (header n n)⟩ = .error (.storage (.insertBlock 5)) ∧
      ∀ q : LogQuery ℕ ℕ, SetSyncSegment.nextQuery s.pending 10 6 = .ok q →
        q.blockRange = .new 1 6 ∧ q.blockHash = none := by
    refine ⟨laterContract.foldl (Trace.step 10) new, _, .of_along ⟨trivial, trivial, trivial, trivial,
      trivial, trivial, trivial, trivial⟩, rfl, rfl, ⟨⟨header 5 5, true⟩, by decide, rfl⟩, rfl, ?_⟩
    rintro q ⟨⟩
    exact ⟨rfl, rfl⟩
  refine ⟨t, s, hrun, hstate, hreorg, hhas, hfails, fun hstores => ?_⟩
  -- The answers are right: the log is of a block of the query, and the header is that of its block.
  obtain ⟨md', downloads, s', hok, -⟩ := hstores ⟨some 6, [.logs [⟨0, [], [], 5, 0, 0, 5, 1⟩]],
    some fun n => .ok (header n n)⟩ 6 _ [] rfl rfl (fun q hq => by
      obtain ⟨hrange, hnone⟩ := hquery q hq
      refine ⟨fun l hl => ?_, by simp, fun hash hsome => ?_⟩
      · obtain rfl := List.mem_singleton.mp hl
        rw [hrange]
        decide
      · rw [hnone] at hsome
        cases hsome) ⟨_, rfl, fun n _ => ⟨header n n, rfl, rfl⟩⟩
  rw [hfails] at hok
  cases hok

end Trace

end AggKit.MultiDownloader
