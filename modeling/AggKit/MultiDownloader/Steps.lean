import AggKit.MultiDownloader.Contiguous
import AggKit.MultiDownloader.Model

/-!
# What a step does

One lemma for each step that changes the data: everything it did when it succeeded. `StepSafe` stores
the answer to the next query, or to the one that a refusal of the node put in its place
(`stepSafe_cases`); `StepUnsafe` stores the answers to one query for each header it got
(`stepUnsafe_cases`); `ProcessReorg` moves the blocks after the highest block below the offending one
that the node confirms (`processReorg_cases`).
-/

namespace AggKit.MultiDownloader

open Table SetSyncSegment List Exec Storage

variable {A H : Type}

/-- The answer comes from the first range that the node did not refuse: the one of the query or one
that it suggested. -/
theorem requestLogsFrom_spec {q : LogQuery A H} {chunk : ℕ} {suggested : BlockRange}
    {replies : List (LogsReply A H)} {d : Download A H}
    (h : requestLogsFrom q chunk suggested replies = .ok d) :
    d.query.addrs = q.addrs ∧ d.query.blockHash = q.blockHash ∧ .logs d.logs ∈ replies ∧
      (d.query.blockRange = suggested ∨
        .tooManyResults (some d.query.blockRange) ∈ replies) := by
  fun_induction requestLogsFrom q chunk suggested replies with
  | case1 => cases h
  | case2 chunk suggested logs replies =>
    cases h
    exact ⟨rfl, rfl, mem_cons_self, .inl rfl⟩
  | case3 | case4 => cases h
  | case5 chunk suggested suggested' replies hover ih =>
    obtain ⟨haddrs, hhash, hlogs, hrange⟩ := ih h
    refine ⟨haddrs, hhash, mem_cons_of_mem _ hlogs, .inr ?_⟩
    exact hrange.elim (fun heq => heq ▸ mem_cons_self) (mem_cons_of_mem _)
  | case6 => cases h
  | case7 chunk suggested suggested' replies hover hchunk ih =>
    obtain ⟨haddrs, hhash, hlogs, hrange⟩ := ih h
    refine ⟨haddrs, hhash, mem_cons_of_mem _ hlogs, .inr ?_⟩
    exact hrange.elim (fun heq => heq ▸ mem_cons_self) (mem_cons_of_mem _)

/-- The downloads are the queries with the answers of the node. -/
theorem requestMultiplesLogs_spec {filterLogs : LogQuery A H → Option (List (Log A H))}
    {queries : List (LogQuery A H)} {downloads : List (Download A H)}
    (h : requestMultiplesLogs filterLogs queries = .ok downloads) :
    downloads.map Download.query = queries ∧
      ∀ d ∈ downloads, filterLogs d.query = some d.logs := by
  induction queries generalizing downloads with
  | nil =>
    cases h
    simp
  | cons q queries ih =>
    unfold requestMultiplesLogs at h
    split at h
    · cases h
    rename_i logs hreply
    obtain ⟨rest, hrest, hcons⟩ := except_bind_ok.mp h
    cases hcons
    obtain ⟨hqueries, hlogs⟩ := ih hrest
    exact ⟨by rw [map_cons, hqueries], forall_mem_cons.mpr ⟨hreply, hlogs⟩⟩

theorem numbers_getOrderedHeaders_range' {headers : ℕ → Except HeaderFault (BlockHeader H)} {k len : ℕ}
    (hnumber : ∀ n, k ≤ n → n < k + len → ∀ h, headers n = .ok h → h.number = n)
    (hpre : ∀ m n, k ≤ n → n ≤ m → m < k + len → (headers m).isOk = true →
      (headers n).isOk = true) :
    (getOrderedHeaders headers (List.range' k len)).map BlockHeader.number =
      List.range' k (getOrderedHeaders headers (List.range' k len)).length := by
  induction len generalizing k with
  | zero => rfl
  | succ len ih =>
    have hrest := @ih (k + 1) (fun n hn hlt => hnumber n (by omega) (by omega))
      fun m n hn hnm hm => hpre m n (by omega) hnm (by omega)
    rw [range'_succ]
    cases hfirst : headers k with
    | ok h =>
      have hk := hnumber k (Nat.le_refl k) (by omega) h hfirst
      have hcons : getOrderedHeaders headers (k :: List.range' (k + 1) len) =
          h :: getOrderedHeaders headers (List.range' (k + 1) len) := by
        rw [getOrderedHeaders, filterMap_cons_some (by rw [hfirst]; rfl)]
        rfl
      rw [hcons, map_cons, length_cons, range'_succ, hk, hrest]
    | error fault =>
      -- Without the first header there is none.
      have hnil : getOrderedHeaders headers (k :: List.range' (k + 1) len) = [] := by
        refine filterMap_eq_nil_iff.mpr fun n hn => ?_
        rw [← range'_succ, mem_range'_1] at hn
        cases hheader : headers n with
        | error fault' => rfl
        | ok h =>
          have hok := hpre n k (Nat.le_refl k) hn.1 hn.2 (by rw [hheader]; rfl)
          rw [hfirst] at hok
          cases hok
      rw [hnil]
      rfl

/-- The headers that the node has are those of the first blocks of the range. -/
theorem numbers_getOrderedHeaders {headers : ℕ → Except HeaderFault (BlockHeader H)}
    {total : BlockRange} (hne : total.isEmpty = false)
    (hnumber : ∀ n ∈ total, ∀ h, headers n = .ok h → h.number = n)
    (hpre : ∀ m ∈ total, ∀ n ∈ total, n ≤ m → (headers m).isOk = true →
      (headers n).isOk = true) :
    (getOrderedHeaders headers total.listBlockNumbers).map BlockHeader.number =
      List.range' total.fromBlock
        (getOrderedHeaders headers total.listBlockNumbers).length := by
  have hlist : total.listBlockNumbers =
      List.range' total.fromBlock (total.toBlock + 1 - total.fromBlock) := by
    rw [BlockRange.listBlockNumbers, hne, if_neg Bool.false_ne_true]
  have hmem : ∀ n, total.fromBlock ≤ n →
      n < total.fromBlock + (total.toBlock + 1 - total.fromBlock) → n ∈ total := fun n hn hlt =>
    BlockRange.mem_iff.mpr ⟨hne, hn, by omega⟩
  rw [hlist]
  exact numbers_getOrderedHeaders_range' (fun n hn hlt => hnumber n (hmem n hn hlt))
    fun m n hn hnm hm => hpre m (hmem m (by omega) hm) n (hmem n hn (by omega)) hnm

/-- The stored block `n` is the one that the node returns. -/
def Storage.Confirmed (st : Storage A H) (header : ℕ → Except HeaderFault (BlockHeader H)) (n : ℕ) :
    Prop :=
  ∃ row h, st.getBlockHeaderByNumber n = some row ∧ header n = .ok h ∧ row.number = h.number ∧
    row.header.hash = h.hash

/-- `findFirstUnaffectedBlock` finds the highest block that is confirmed. -/
theorem findFirstUnaffectedBlock_spec [DecidableEq H] {st : Storage A H}
    {header : ℕ → Except HeaderFault (BlockHeader H)} {start u : ℕ}
    (h : findFirstUnaffectedBlock st header start = some u) :
    0 < u ∧ u ≤ start ∧ st.Confirmed header u ∧
      ∀ n, u < n → n ≤ start → ¬st.Confirmed header n := by
  -- A block that is not confirmed is skipped.
  have hskip : ∀ {n}, ¬st.Confirmed header (n + 1) →
      (0 < u ∧ u ≤ n ∧ st.Confirmed header u ∧ ∀ m, u < m → m ≤ n → ¬st.Confirmed header m) →
      0 < u ∧ u ≤ n + 1 ∧ st.Confirmed header u ∧
        ∀ m, u < m → m ≤ n + 1 → ¬st.Confirmed header m := by
    rintro n hnot ⟨hpos, hle, hconf, hmax⟩
    refine ⟨hpos, by omega, hconf, fun m hlt hm => ?_⟩
    rcases Nat.lt_or_ge m (n + 1) with hlt' | hge
    · exact hmax m hlt (by omega)
    · obtain rfl : m = n + 1 := by omega
      exact hnot
  fun_induction findFirstUnaffectedBlock st header start with
  | case1 | case2 | case5 => cases h
  | case3 n hheader ih =>
    refine hskip ?_ (ih h)
    rintro ⟨row, hd, -, hok, -⟩
    cases hheader.symm.trans hok
  | case4 n hd hstored hheader ih =>
    refine hskip ?_ (ih h)
    rintro ⟨row, -, hrow, -⟩
    cases hstored.symm.trans hrow
  | case6 n hd row hstored hheader hnumber hhash =>
    cases h
    refine ⟨Nat.succ_pos _, Nat.le_refl _, ⟨row, hd, hstored, hheader, ?_, hhash⟩, ?_⟩
    · exact not_not.mp hnumber
    · intro m hlt hle
      omega
  | case7 n hd row hstored hheader hnumber hhash ih =>
    refine hskip ?_ (ih h)
    rintro ⟨row', hd', hrow', hhd', -, hhash'⟩
    cases hstored.symm.trans hrow'
    cases hheader.symm.trans hhd'
    exact hhash hhash'

/-- `ProcessReorg` moves all blocks above the highest one that is confirmed below the offending
block. -/
theorem processReorg_cases [DecidableEq H] {st st' : Storage A H} {offendingBlockNumber : ℕ}
    {answers : ReorgAnswers H} {range : BlockRange}
    (h : processReorg st offendingBlockNumber answers = some (st', range)) :
    ∃ u, 0 < u ∧ u < offendingBlockNumber ∧ st.Confirmed answers.header u ∧
      (∀ n, u < n → n < offendingBlockNumber → ¬st.Confirmed answers.header n) ∧
      range = .new (u + 1) st.getHighestBlockNumber ∧
      st.Reorged st' (u + 1) st.getHighestBlockNumber := by
  unfold processReorg at h
  split at h
  · cases h
  obtain ⟨u, hfind, h⟩ := Option.bind_eq_some_iff.mp h
  obtain ⟨hpos, hle, hconf, hmax⟩ := findFirstUnaffectedBlock_spec hfind
  split at h
  swap
  · cases h
  obtain ⟨st1, hmove, h⟩ := Option.bind_eq_some_iff.mp h
  cases h
  refine ⟨u, hpos, by omega, hconf, fun n hlt hn => hmax n hlt (by omega), rfl, ?_⟩
  cases hinsert : st.insertReorgAndMoveReorgedBlocksAndLogs (u + 1) st.getHighestBlockNumber with
  | error e =>
    rw [hinsert] at hmove
    cases hmove
  | ok st2 =>
    rw [hinsert] at hmove
    cases hmove
    exact insertReorgAndMoveReorgedBlocksAndLogs_spec hinsert

namespace Multidownloader

variable [DecidableEq A]

/-- What `storeData` does: the blocks and logs are appended and the given ranges are written. -/
theorem storeData_spec {st st' : Storage A H} {logs : List (Log A H)} {blocks : List (BlockHeader H)}
    {synced : SetSyncSegment A} {addrs : List A} {isFinal : Bool}
    (h : storeData st logs blocks (segmentsByContract synced addrs) isFinal =
      .ok st') :
    st'.blocks.rows = st.blocks.rows ++ newBlockRows blocks isFinal ∧
      st'.logs.rows = st.logs.rows ++ logs.map Log.toRow ∧ st'.reorgs = st.reorgs ∧
      st'.blocksReorged = st.blocksReorged ∧ st'.syncedContracts = st.syncedContracts ∧
      ∀ addr n, n ∈ st'.syncedRange addr ↔
        if addr ∈ addrs ∧ addr ∈ getContracts synced then
          n ∈ range synced addr
        else n ∈ st.syncedRange addr := by
  obtain ⟨st1, hsave, hupdate⟩ := except_bind_ok.mp h
  obtain ⟨hblocks, hlogs, hsync, hreorgs, hreorged⟩ := saveEthLogsWithHeaders_spec hsave
  obtain ⟨hsame, hcontracts, hranges⟩ := updateSyncedStatus_spec hupdate
  have hsyncedRange : ∀ addr, st1.syncedRange addr = st.syncedRange addr := fun addr => by
    unfold syncedRange getSyncedBlockRangePerContract
    rw [hsync]
  refine ⟨hsame.blocks ▸ hblocks, hsame.logs ▸ hlogs, hsame.reorgs.trans hreorgs,
    hsame.blocksReorged.trans hreorged, ?_, fun addr n => ?_⟩
  · rw [hcontracts, syncedContracts, syncedContracts, hsync]
  · rw [hranges, hsyncedRange]

/-- What `StepSafe` does when it succeeds. -/
theorem stepSafe_cases {blockChunkSize : ℕ} {md md' : Multidownloader A H}
    {answers : SafeAnswers A H} {downloads : List (Download A H)}
    (h : md.stepSafe blockChunkSize answers = .ok (md', downloads)) :
    (md' = md ∧ downloads = []) ∨
      ∃ s finalized q d blockHeaders s' storage, md.state = some s ∧
        answers.finalized = some finalized ∧
        nextQuery s.pending blockChunkSize finalized = .ok q ∧
        requestLogsFrom q blockChunkSize q.blockRange answers.logs = .ok d ∧
        retrieveSafeHeaders d.logs answers.headers =
          (.ok blockHeaders : Except (StepError A) (List (BlockHeader H))) ∧
        s.addSynced d.query = .ok s' ∧
        storeData md.storage d.logs blockHeaders
          (segmentsByContract s'.synced d.query.addrs) true = .ok storage ∧
        md' = { md with storage, state := some s' } ∧ downloads = [d] := by
  unfold stepSafe at h
  split at h
  · cases h
  rename_i s hstate
  split at h
  · cases h
  · cases h
    exact .inl ⟨rfl, rfl⟩
  rename_i d hrequest
  obtain ⟨blockHeaders, hheaders, h⟩ := except_bind_ok.mp h
  obtain ⟨s', hnew, h⟩ := except_bind_ok.mp h
  obtain ⟨storage, hstore, h⟩ := except_bind_ok.mp h
  cases h
  rw [mapError_eq_ok_iff] at hnew hstore
  have hadd : s.addSynced d.query = .ok s' := by
    unfold State.onNewSyncedLogQuery at hnew
    split at hnew
    · cases hnew
    · exact hnew
  unfold requestLogs at hrequest
  split at hrequest
  · cases hrequest
  rename_i finalized hfinalized
  split at hrequest
  · cases hrequest
  · cases hrequest
  rename_i q hquery
  have hfrom : requestLogsFrom q blockChunkSize q.blockRange answers.logs = .ok d := by
    cases hloop : requestLogsFrom q blockChunkSize q.blockRange answers.logs with
    | error e => rw [hloop] at hrequest; cases hrequest
    | ok d' =>
      rw [hloop] at hrequest
      rw [Option.some.inj (Except.ok.inj hrequest)]
  exact .inr ⟨s, finalized, q, d, blockHeaders, s', storage, hstate, hfinalized, hquery, hfrom,
    hheaders, hadd, hstore, rfl, rfl⟩

/-- What `StepUnsafe` does when it succeeds. -/
theorem stepUnsafe_cases [DecidableEq H] {md md' : Multidownloader A H}
    {answers : UnsafeAnswers A H} {downloads : List (Download A H)}
    (h : md.stepUnsafe answers = .ok (md', downloads)) :
    (md' = md ∧ downloads = [] ∧ ∀ s, md.state = some s →
        getTotalPendingBlockRange s.pending = none) ∨
      ∃ s total headers s' storage, md.state = some s ∧
        getTotalPendingBlockRange s.pending = some total ∧
        answers.headers = some headers ∧
        downloads.map Download.query =
          getUnsafeLogQueries s (getOrderedHeaders headers total.listBlockNumbers) ∧
        (∀ d ∈ downloads, answers.logs d.query = some d.logs) ∧
        checkIntegrity (getOrderedHeaders headers total.listBlockNumbers)
          (downloads.flatMap Download.logs) = (.ok () : Except (StepError A) Unit) ∧
        s.afterLogQueries (downloads.map Download.query) = .ok s' ∧
        storeData md.storage (downloads.flatMap Download.logs)
          (getOrderedHeaders headers total.listBlockNumbers)
          (segmentsByContract s'.synced
            ((downloads.map Download.query).flatMap LogQuery.addrs).eraseDups) false = .ok storage ∧
        md' = { md with storage, state := some s' } := by
  unfold stepUnsafe at h
  split at h
  · cases h
  rename_i s hstate
  split at h
  · rename_i htotal
    cases h
    exact .inl ⟨rfl, rfl, fun _ hs => Option.some.inj (hstate.symm.trans hs) ▸ htotal⟩
  rename_i total htotal
  obtain ⟨blockHeaders, hheaders, h⟩ := except_bind_ok.mp h
  obtain ⟨downloads', hrequest, h⟩ := except_bind_ok.mp h
  obtain ⟨⟨⟩, hcheck, h⟩ := except_bind_ok.mp h
  obtain ⟨s', hnew, h⟩ := except_bind_ok.mp h
  obtain ⟨storage, hstore, h⟩ := except_bind_ok.mp h
  cases h
  rw [mapError_eq_ok_iff] at hnew hstore
  obtain ⟨hqueries, hlogs⟩ := requestMultiplesLogs_spec hrequest
  unfold retrieveUnsafeHeaders at hheaders
  split at hheaders
  · cases hheaders
  rename_i headers hreply
  dsimp only at hheaders
  split_ifs at hheaders
  cases hheaders
  rw [← hqueries] at hnew hstore
  exact .inr ⟨s, total, headers, s', storage, hstate, htotal, hreply, hqueries, hlogs, hcheck,
    hnew, hstore, rfl⟩

/-- What a round of `ProcessReorg` does: nothing, or it moves the blocks and makes a new state unless
that fails. -/
theorem processDetectedReorg_cases [DecidableEq H] (md : Multidownloader A H)
    (answers : ReorgAnswers H) :
    md.processDetectedReorg answers = (md, none) ∨
      ∃ offendingBlockNumber storage range, md.reorg = some offendingBlockNumber ∧
        processReorg md.storage offendingBlockNumber answers = some (storage, range) ∧
        ((∃ e, newStateFromStorage storage md.syncersConfig answers.blockNumbers = .error e ∧
            md.processDetectedReorg answers = ({ md with storage }, some range)) ∨
          ∃ s, newStateFromStorage storage md.syncersConfig answers.blockNumbers = .ok s ∧
            md.processDetectedReorg answers =
              ({ md with storage, state := some s, reorg := none }, some range)) := by
  unfold processDetectedReorg
  cases md.reorg with
  | none => exact .inl rfl
  | some offendingBlockNumber =>
    cases hprocess : processReorg md.storage offendingBlockNumber answers with
    | none => exact .inl (by simp only [hprocess])
    | some moved =>
      obtain ⟨storage, range⟩ := moved
      refine .inr ⟨offendingBlockNumber, storage, range, rfl, hprocess, ?_⟩
      simp only [hprocess]
      cases hnew : newStateFromStorage storage md.syncersConfig answers.blockNumbers with
      | error e => exact .inl ⟨e, rfl, rfl⟩
      | ok s => exact .inr ⟨s, rfl, rfl⟩

end Multidownloader

end AggKit.MultiDownloader
