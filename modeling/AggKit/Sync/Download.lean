import AggKit.Lib.Run
import AggKit.Sync.Iteration

/-!
# What `Download` sends

A run of `Download` is a list of iterations, each with what it reads from the node. Two properties
hold over whole runs, both under a condition on what each iteration reads.

`moved_past_sent`: when the start of the range has moved beyond a block, the logs of that block have
been sent. The condition is that the log fetcher does not give up. `GetEventsByBlockRange` reports
its failures as an empty result, which the main loop takes for a range without events, so the logs
of a range that could not be fetched are never sent (`refused_block_skipped`).

`sent_in_order`: the blocks are sent in order, from the first block on, and with the right flag. The
condition is that an iteration that waits does not go on with a tip below the start of its range.
`WaitForNewBlocks` is called once and returns the first tip that is new, so `Download` on a chain
that has not reached the first block yet sends blocks below it (`tip_below_start_sent`).
-/

namespace AggKit.Sync

open List

variable {H : Type} [DecidableEq H]

/-- The state of `Download` after a list of iterations, each allowed. -/
def Config.Downloads (cfg : Config H) (allowed : State H → Input H → Prop) (polls : List (Poll H))
    (inputs : List (Input H)) (s : State H) : Prop :=
  ∃ s₀, cfg.start polls = some s₀ ∧ Run.Steps (State.iterate cfg) allowed s₀ inputs s

variable {cfg : Config H}

/-- The state before the first iteration. -/
theorem Config.start_eq_some {polls : List (Poll H)} {s : State H} (h : cfg.start polls = some s) :
    ∃ tip, cfg.tipRead 0 polls = some tip ∧
      s = ⟨cfg.initialFromBlock, cfg.rangeEnd cfg.initialFromBlock, tip, false,
        !cfg.includeEmptyFirstBlock, [], false⟩ := by
  unfold Config.start at h
  rw [Config.waitForNewBlocks_eq_tipRead] at h
  obtain ⟨tip, htip, rfl⟩ := Option.map_eq_some_iff.mp h
  exact ⟨tip, htip, rfl⟩

/-! ## No log is left out -/

/-- The condition on what an iteration reads for its fetch not to be given up: no single block has
more logs than a query returns, and the chain of the node changes at most five times during the
iteration. -/
def Fetches (input : Input H) : Prop :=
  SingleBlockQueries input.answers ∧
    AtMostChanges MaxRetryCountBlockHashMismatch input.answers

/-- The logs of block `b` that are queried have been sent, as the node had the block in one of the
iterations. -/
def Config.LogsSent (cfg : Config H) (inputs : List (Input H)) (sent : List (EVMBlock H)) (b : ℕ) :
    Prop :=
  ∃ input ∈ inputs, ∃ a ∈ input.answers, ∀ l ∈ a.node.logs b, cfg.watches l = true →
    ∃ block ∈ sent, block.num = b ∧ l ∈ block.events

omit [DecidableEq H] in
theorem Config.hookDrops_of_none (hhook : cfg.logsHook = none) : cfg.HookDrops := by
  intro fromBlock toBlock logs
  rw [Config.applyLogsHook, hhook]

theorem Config.LogsSent.mono {inputs : List (Input H)} {input : Input H}
    {sent new : List (EVMBlock H)} {b : ℕ} (h : cfg.LogsSent inputs sent b) :
    cfg.LogsSent (inputs ++ [input]) (sent ++ new) b := by
  obtain ⟨input', hinput', a, ha, hlogs⟩ := h
  refine ⟨input', mem_append_left _ hinput', a, ha, fun l hl hwatched => ?_⟩
  obtain ⟨block, hblock, hnum, hevent⟩ := hlogs l hl hwatched
  exact ⟨block, mem_append_left _ hblock, hnum, hevent⟩

section steps

variable {cfg : Config H} {s s' : State H} {blocks : List (EVMBlock H)} {lastFinalizedBlock : ℕ}
  {input : Input H} {inputs : List (Input H)} {answers : List (Answer H)}

section

omit [DecidableEq H]

theorem add64_le (a b : ℕ) : add64 a b ≤ a + b := Nat.mod_le _ _

theorem State.Finished.sent_append
    (h : s.Finished cfg blocks lastFinalizedBlock answers s') : ∃ new, s'.sent = s.sent ++ new := by
  cases h with
  | missing => exact ⟨[], (append_nil _).symm⟩
  | reported => exact ⟨_, append_assoc _ _ _⟩

/-- A block that the start of the range moves beyond was requested, and the blocks that the request
returned have been sent. -/
theorem State.Finished.covers (h : s.Finished cfg blocks lastFinalizedBlock answers s') {b : ℕ}
    (hge : s.fromBlock ≤ b) (hlt : b < s'.fromBlock) :
    b ≤ s.requestToBlock cfg ∧ ∀ block ∈ blocks, ∃ sent ∈ s'.sent, sent.num = block.num ∧
      sent.events = block.events := by
  cases h with
  | missing => exact absurd hlt (Nat.not_lt.mpr hge)
  | reported hinitial hreport =>
    cases hreport with
    | extend => exact absurd hlt (Nat.not_lt.mpr hge)
    | @advance last _ hto _ _ _ =>
      have hmove : b < add64 last 1 := hlt
      have hadd := add64_le last 1
      refine ⟨by omega, fun block hblock => ?_⟩
      have hsent : ({ block with isFinalizedBlock := decide (block.num ≤ lastFinalizedBlock) } :
          EVMBlock H) ∈ reportBlocks blocks lastFinalizedBlock :=
        mem_map.mpr ⟨block, hblock, rfl⟩
      exact ⟨_, mem_append_right _ (mem_append_left _ hsent), rfl, rfl⟩

end

/-- One iteration sends the queried logs of the blocks that it moves beyond. -/
theorem State.iterate_logsSent (hhook : cfg.logsHook = none) (hfetches : Fetches input)
    (h : s.iterate cfg input = some s') {b : ℕ} (hge : s.fromBlock ≤ b) (hlt : b < s'.fromBlock) :
    cfg.LogsSent (inputs ++ [input]) s'.sent b := by
  have hdrops := Config.hookDrops_of_none hhook
  obtain ⟨-, s1, hwaited, ⟨-, rfl⟩ | ⟨finalized, blocks, rest, -, hfetch, hrange, hfinished⟩⟩ :=
    State.iterate_cases hdrops h
  · -- without the finalized block the iteration ends where it started
    have hsame : s1.fromBlock = s.fromBlock := hwaited.frame.1
    have hlt' : b < s1.fromBlock := hlt
    omega
  obtain ⟨hto, hsent⟩ := hfinished.covers (hwaited.frame.1 ▸ hge) hlt
  obtain ⟨used, logs, -, -, hgrouped, hcomplete⟩ := Config.getEventsWithRetry_spec hdrops hfetch
  obtain ⟨chain, hseen, rfl⟩ := hcomplete hhook hfetches.1 hfetches.2
  obtain ⟨a, ha, hchain⟩ := hseen b (hwaited.frame.1 ▸ hge) hto
  refine ⟨input, mem_append_right _ (.head _), a, ha, fun l hl hwatched => ?_⟩
  have hmem : l ∈ cfg.watchedOn chain s1.fromBlock (s1.requestToBlock cfg) :=
    Config.mem_watchedOn.mpr ⟨b, ⟨hwaited.frame.1 ▸ hge, hto⟩, hchain ▸ hl, hwatched⟩
  obtain ⟨block, hblock, hnum, hevent⟩ := hgrouped.hasLogs l hmem
  obtain ⟨block', hblock', hnum', hevents'⟩ := hsent block hblock
  exact ⟨block', hblock', by rw [hnum', hnum, a.node.logs_blockNumber b l hl], hevents' ▸ hevent⟩

end steps

/-- Over every run of `Download` without a logs hook in which the log fetcher never gives up:
whenever the start of the range is beyond a block, every log of the block that is queried has been
sent, as the node had the block in one of the iterations. -/
theorem moved_past_sent {cfg : Config H} (hhook : cfg.logsHook = none) {polls : List (Poll H)}
    {inputs : List (Input H)} {s : State H}
    (hrun : cfg.Downloads (fun _ input => Fetches input) polls inputs s) :
    ∀ b, cfg.initialFromBlock ≤ b → b < s.fromBlock → cfg.LogsSent inputs s.sent b := by
  obtain ⟨s₀, hstart, hsteps⟩ := hrun
  obtain ⟨tip, -, rfl⟩ := Config.start_eq_some hstart
  refine hsteps.invariant (P := fun inputs s => ∀ b, cfg.initialFromBlock ≤ b → b < s.fromBlock →
    cfg.LogsSent inputs s.sent b) ?_ ?_
  · intro b hge hlt
    exact absurd hlt (Nat.not_lt.mpr hge)
  · intro inputs s input s' ih hfetches h b hge hlt
    by_cases hold : b < s.fromBlock
    · -- an earlier iteration has moved beyond the block
      have hsent : ∃ new, s'.sent = s.sent ++ new := by
        obtain ⟨-, s1, hwaited, ⟨-, rfl⟩ | ⟨_, _, _, -, -, -, hfinished⟩⟩ :=
          State.iterate_cases (Config.hookDrops_of_none hhook) h
        · exact ⟨[], by rw [append_nil]; exact hwaited.frame.2.1⟩
        · rw [← hwaited.frame.2.1]
          exact hfinished.sent_append
      obtain ⟨new, hnew⟩ := hsent
      rw [hnew]
      exact (ih b hge hold).mono
    · exact State.iterate_logsSent hhook hfetches h (Nat.le_of_not_lt hold) hlt

/-- A configuration that queries one topic, from block `start` on. -/
def topicConfig (start : ℕ) (includeEmptyFirstBlock : Bool) : Config ℕ where
  syncBlockChunkSize := 1
  addressesToQuery := []
  topicsToQuery := [7]
  logsHook := none
  reorgDetector := false
  stopOnFinalizedBlockReached := false
  initialFromBlock := start
  lastBlockNum := none
  includeEmptyFirstBlock := includeEmptyFirstBlock

/-- A node with one log, in block 1. -/
def oneLogNode : Node ℕ where
  header b := ⟨b, b, b - 1, 0⟩
  logs b := if b = 1 then [⟨ZeroAddress, [7], 1, 1, 0, false⟩] else []
  header_num_le _ := le_rfl
  logs_blockNumber b l hl := by
    split_ifs at hl with hb
    · rw [mem_singleton.mp hl, hb]
    · cases hl
  logs_blockHash b l hl := by
    split_ifs at hl with hb
    · rw [mem_singleton.mp hl, hb]
    · cases hl

/-- A round of `WaitForNewBlocks` that reads a tip. -/
def tipPoll (tip : ℕ) : Poll ℕ := ⟨some (tip, tip), none⟩

/-- An iteration on the node, with the answer to each of its first `n` requests. -/
def oneLogInput (n finalized : ℕ) (fault : Request ℕ → Option Fault) : Input ℕ where
  polls := []
  finalized := some finalized
  answers := List.replicate n ⟨oneLogNode, fault⟩

/-- The block with the log. -/
def blockOne : EVMBlock ℕ := ⟨⟨1, 1, 0, 0⟩, true, [⟨ZeroAddress, [7], 1, 1, 0, false⟩]⟩

/-- The second block of the node, without events. -/
def blockTwo : EVMBlock ℕ := ⟨⟨2, 2, 1, 0⟩, true, []⟩

/-- The state after one iteration that has sent blocks and moved to block 3. -/
def pastTwo (sent : List (EVMBlock ℕ)) : State ℕ := ⟨3, 4, 10, false, true, sent, false⟩

theorem moved_past_sent_one_log :
    (topicConfig 1 false).LogsSent [oneLogInput 4 10 fun _ => none] [blockOne, blockTwo] 1 := by
  have hsame : Unchanged (oneLogInput 4 10 fun _ => none).answers := by
    intro a ha a' ha'
    rw [eq_of_mem_replicate ha, eq_of_mem_replicate ha']
  have hfetches : Fetches (oneLogInput 4 10 fun _ => none) := by
    refine ⟨fun a ha b => ?_, hsame.atMostChanges⟩
    rw [eq_of_mem_replicate ha]
    exact (Option.some_ne_none _).symm
  have hrun : (topicConfig 1 false).Downloads (fun _ input => Fetches input) [tipPoll 10]
      [oneLogInput 4 10 fun _ => none] (pastTwo [blockOne, blockTwo]) :=
    ⟨_, rfl, .snoc .nil hfetches rfl⟩
  exact moved_past_sent rfl hrun 1 le_rfl (by decide)

/-- A block whose logs the provider refuses to return is skipped: the queries for blocks 1 to 2 and
for block 1 are both refused because of the number of logs, and `Download` goes on with block 3. -/
theorem refused_block_skipped : ∃ (inputs : List (Input ℕ)) (s : State ℕ),
    (topicConfig 1 false).Downloads (fun _ _ => True) [tipPoll 10] inputs s ∧
      1 < s.fromBlock ∧ ¬(topicConfig 1 false).LogsSent inputs s.sent 1 := by
  let fault : Request ℕ → Option Fault := fun request =>
    match request with
    | .filterLogs _ _ => some .queryReturnedMoreThan
    | _ => none
  refine ⟨[oneLogInput 3 10 fault], pastTwo [blockTwo], ⟨_, rfl, .snoc .nil trivial rfl⟩,
    by decide, ?_⟩
  rintro ⟨input, hinput, a, ha, hlogs⟩
  rw [mem_singleton.mp hinput] at ha
  rw [eq_of_mem_replicate ha] at hlogs
  obtain ⟨block, hblock, hnum, -⟩ := hlogs _ (.head _) rfl
  rw [mem_singleton.mp hblock] at hnum
  cases hnum

/-! ## The order of the blocks -/

omit [DecidableEq H] in
/-- The lowest number that a next block can have: not that of the first block once it has been sent,
even when the range still starts with it. -/
def State.lowest (cfg : Config H) (s : State H) : ℕ :=
  if cfg.includeEmptyFirstBlock && s.initialBlockSent then max s.fromBlock (cfg.initialFromBlock + 1)
  else s.fromBlock

/-- The condition on what `Download` is called with and on the first tip: the last block is not
below the first, and the ends of the ranges are `uint64`. -/
structure Config.StartsWithin (cfg : Config H) (polls : List (Poll H)) : Prop where
  chunk_pos : 1 ≤ cfg.syncBlockChunkSize
  last_ge : ∀ n, cfg.lastBlockNum = some n → cfg.initialFromBlock ≤ n
  fits : cfg.initialFromBlock + cfg.syncBlockChunkSize < 2^64
  tip_fits : ∀ tip, cfg.tipRead 0 polls = some tip → tip + cfg.syncBlockChunkSize + 1 < 2^64

/-- The condition on what an iteration reads: nothing that makes it send a block below the lowest
one. -/
structure Config.ReadsAhead (cfg : Config H) (s : State H) (input : Input H) : Prop where
  /-- The tip that ends the wait is not below the range. -/
  tip : s.mustWait = true → ∀ tip, cfg.tipRead s.lastBlock input.polls = some tip →
    s.lowest cfg ≤ tip
  /-- The finalized block is not the first block again. -/
  finalized : ∀ n, input.finalized = some n → n < s.fromBlock ∨ s.lowest cfg ≤ n
  /-- The first block does not get logs after it has been sent. -/
  logs : ∀ a ∈ input.answers, ∀ b, s.fromBlock ≤ b → b < s.lowest cfg → ∀ l ∈ a.node.logs b,
    cfg.watches l = false
  /-- No missing block resolves to the first block. -/
  resolved : cfg.includeEmptyFirstBlock = true → ∀ a ∈ input.answers, ∀ b,
    (a.node.header b).num = cfg.initialFromBlock → b = cfg.initialFromBlock
  /-- The ends of the ranges are `uint64`. -/
  fits : ∀ tip, cfg.tipRead s.lastBlock input.polls = some tip →
    tip + cfg.syncBlockChunkSize + 1 < 2^64

/-- The blocks on the channel: in order, from the first block on, up to the last one. -/
structure Config.SentInOrder (cfg : Config H) (sent : List (EVMBlock H)) : Prop where
  increasing : sent.Pairwise (·.num < ·.num)
  start_le : ∀ b ∈ sent, cfg.initialFromBlock ≤ b.num
  le_last : ∀ b ∈ sent, ∀ n, cfg.lastBlockNum = some n → b.num ≤ n
  first : cfg.includeEmptyFirstBlock = true → ∀ b, sent.head? = some b →
    b.num = cfg.initialFromBlock

/-- The invariant of the main loop. -/
structure Config.Ordered (cfg : Config H) (s : State H) : Prop where
  sent : cfg.SentInOrder s.sent
  sent_lt : ∀ b ∈ s.sent, b.num < s.lowest cfg
  from_ge : cfg.initialFromBlock ≤ s.fromBlock
  from_fits : s.fromBlock + cfg.syncBlockChunkSize < 2^64
  tip_fits : s.lastBlock + cfg.syncBlockChunkSize + 1 < 2^64
  tip_ge : s.fromBlock < s.lowest cfg → s.lowest cfg ≤ s.lastBlock
  to_ge : s.closed = false → cfg.rangeEnd s.fromBlock ≤ s.toBlock
  last_ge : s.closed = false → ∀ n, cfg.lastBlockNum = some n → s.lowest cfg ≤ n
  unsent : s.initialBlockSent = false → cfg.includeEmptyFirstBlock = true ∧ s.sent = [] ∧
    s.fromBlock = cfg.initialFromBlock
  firstSent : cfg.includeEmptyFirstBlock = true → s.initialBlockSent = true → s.sent ≠ []

section order

variable {cfg : Config H} {s s1 s' : State H} {blocks : List (EVMBlock H)}
  {lastFinalizedBlock lo : ℕ} {input : Input H} {answers : List (Answer H)} {preReported : Bool}
  {r : Report H} {polls : List (Poll H)}

section

omit [DecidableEq H]

theorem State.fromBlock_le_lowest (cfg : Config H) (s : State H) : s.fromBlock ≤ s.lowest cfg := by
  unfold State.lowest
  split_ifs <;> omega

theorem State.lowest_le_max (cfg : Config H) (s : State H) :
    s.lowest cfg ≤ max s.fromBlock (cfg.initialFromBlock + 1) := by
  unfold State.lowest
  split_ifs <;> omega

theorem add64_eq {a b : ℕ} (h : a + b < 2^64) : add64 a b = a + b := Nat.mod_eq_of_lt h

/-- The range ends before the chunk does only at the last block. -/
theorem Config.le_rangeEnd {fromBlock m : ℕ} (hfits : fromBlock + cfg.syncBlockChunkSize < 2^64)
    (hm : m ≤ fromBlock + cfg.syncBlockChunkSize)
    (hlast : ∀ n, cfg.lastBlockNum = some n → m ≤ n) : m ≤ cfg.rangeEnd fromBlock := by
  unfold Config.rangeEnd
  rw [add64_eq hfits]
  cases hn : cfg.lastBlockNum with
  | none => exact hm
  | some n => exact le_min hm (hlast n hn)

theorem State.requestToBlock_le (cfg : Config H) (s : State H) :
    s.requestToBlock cfg ≤ s.lastBlock ∧
      ∀ n, cfg.lastBlockNum = some n → s.requestToBlock cfg ≤ n := by
  unfold State.requestToBlock
  cases cfg.lastBlockNum with
  | none => exact ⟨min_le_right _ _, by simp⟩
  | some n =>
    refine ⟨(min_le_left _ _).trans (min_le_right _ _), fun n' hn' => ?_⟩
    cases hn'
    exact min_le_right _ _

theorem State.le_requestToBlock {m : ℕ} (hto : m ≤ s.toBlock) (htip : m ≤ s.lastBlock)
    (hlast : ∀ n, cfg.lastBlockNum = some n → m ≤ n) : m ≤ s.requestToBlock cfg := by
  unfold State.requestToBlock
  cases hn : cfg.lastBlockNum with
  | none => exact le_min hto htip
  | some n => exact le_min (le_min hto htip) (hlast n hn)

end

/-- The invariant after the wait, with a tip that the range reaches. -/
theorem Config.Ordered.waited (hord : cfg.Ordered s) (hreads : cfg.ReadsAhead s input)
    (hwaited : s.Waited cfg input.polls s1) :
    cfg.Ordered s1 ∧ s1.lowest cfg ≤ s1.lastBlock := by
  cases hwaited with
  | no hno =>
    refine ⟨hord, ?_⟩
    have hfrom : s.fromBlock ≤ s.lastBlock := by
      simp only [State.mustWait, Bool.or_eq_false_iff, decide_eq_false_iff_not] at hno
      omega
    by_cases hlt : s.fromBlock < s.lowest cfg
    · exact hord.tip_ge hlt
    · omega
  | @tip hwait tip htip =>
    have hlow := hreads.tip hwait tip htip
    refine ⟨?_, hlow⟩
    refine { hord with tip_fits := hreads.fits tip htip, tip_ge := fun _ => hlow, to_ge := ?_ }
    intro hopen
    -- the end of the range is set again or stays
    have hto := hord.to_ge hopen
    show cfg.rangeEnd s.fromBlock ≤ (if sub64 s.fromBlock s.toBlock < cfg.syncBlockChunkSize then
      cfg.rangeEnd s.fromBlock else s.toBlock)
    split
    · exact le_rfl
    · exact hto

omit [DecidableEq H] in
/-- The requested range reaches the lowest block that can be sent. -/
theorem Config.Ordered.lowest_le_requestToBlock (hchunk : 1 ≤ cfg.syncBlockChunkSize)
    (hord : cfg.Ordered s) (hopen : s.closed = false) (htip : s.lowest cfg ≤ s.lastBlock) :
    s.lowest cfg ≤ s.requestToBlock cfg := by
  have hlast := hord.last_ge hopen
  have hmax := s.lowest_le_max cfg
  have hfrom := hord.from_ge
  have hend := Config.le_rangeEnd hord.from_fits (m := s.lowest cfg) (by omega) hlast
  exact State.le_requestToBlock (hend.trans (hord.to_ge hopen)) htip hlast

omit [DecidableEq H] in
/-- The blocks that the reports of an iteration send. -/
theorem State.Reported.sent_spec
    (h : s.Reported cfg preReported blocks lastFinalizedBlock answers r)
    (hincreasing : blocks.Pairwise (·.num < ·.num)) (hlo : ∀ b ∈ blocks, lo ≤ b.num)
    (hempty : ∀ block e, s.Target cfg blocks lastFinalizedBlock block →
      s.EmptyAfter cfg preReported blocks lastFinalizedBlock answers block e → lo ≤ e.num)
    (hfits : s.requestToBlock cfg + 1 < 2^64) :
    r.sent.Pairwise (·.num < ·.num) ∧ ∀ b ∈ r.sent,
      (lo ≤ b.num ∧ b.num ≤ s.requestToBlock cfg) ∧ b.num < r.fromBlock ∧
        b.isFinalizedBlock = decide (b.num ≤ lastFinalizedBlock) := by
  cases h with
  | extend => exact ⟨List.Pairwise.nil, by simp⟩
  | @advance block empty hto htarget hblocks hsent =>
    have hnext : add64 block 1 = block + 1 := add64_eq (by omega)
    have hreported : ∀ b ∈ reportBlocks blocks lastFinalizedBlock,
        (lo ≤ b.num ∧ b.num ≤ block) ∧ b.isFinalizedBlock = decide (b.num ≤ lastFinalizedBlock) := by
      intro b hb
      obtain ⟨b', hb', hnum, -, hflag⟩ := mem_reportBlocks hb
      rw [hflag, hnum]
      exact ⟨⟨hlo b' hb', hblocks b' hb'⟩, rfl⟩
    have hafter : ∀ e ∈ empty,
        s.EmptyAfter cfg preReported blocks lastFinalizedBlock answers block e := by
      rcases hsent with rfl | ⟨e, rfl, hafter⟩
      · exact nofun
      · exact forall_mem_singleton.mpr hafter
    refine ⟨pairwise_append.mpr ⟨pairwise_map.mpr hincreasing, ?_, ?_⟩, ?_⟩
    · rcases hsent with rfl | ⟨e, rfl, -⟩
      · exact List.Pairwise.nil
      · exact pairwise_singleton _ _
    · intro b hb e he
      obtain ⟨b', hb', hnum, -⟩ := mem_reportBlocks hb
      rw [hnum]
      exact (hafter e he).after_blocks b' hb'
    · intro b hb
      have hb' := forall_mem_append.mpr ⟨hreported, fun e he => ⟨⟨hempty block e htarget (hafter e he),
        (hafter e he).report.num_le⟩, (hafter e he).report.flag⟩⟩ b hb
      refine ⟨⟨hb'.1.1, hb'.1.2.trans hto⟩, ?_, hb'.2⟩
      show b.num < add64 block 1
      omega

/-- The blocks that an iteration adds, between the state after its wait and its end. -/
structure State.Sends (cfg : Config H) (s : State H) (lastFinalizedBlock : ℕ)
    (new : List (EVMBlock H)) (s' : State H) : Prop where
  sent : s'.sent = s.sent ++ new
  increasing : new.Pairwise (·.num < ·.num)
  bounds : ∀ b ∈ new, s.lowest cfg ≤ b.num ∧ b.num ≤ s.requestToBlock cfg ∧ b.num < s'.lowest cfg
  flag : ∀ b ∈ new, b.isFinalizedBlock = decide (b.num ≤ lastFinalizedBlock)
  first : s.initialBlockSent = false → ∀ b, new.head? = some b → b.num = cfg.initialFromBlock
  nonempty : s.initialBlockSent = false → s'.initialBlockSent = true → new ≠ []

/-- What the reports of an iteration may rely on after the wait. -/
structure Config.Ready (cfg : Config H) (s : State H) (blocks : List (EVMBlock H))
    (lastFinalizedBlock : ℕ) (answers : List (Answer H)) : Prop extends cfg.Ordered s where
  isOpen : s.closed = false
  request_ge : s.lowest cfg ≤ s.requestToBlock cfg
  increasing : blocks.Pairwise (·.num < ·.num)
  blocks_ge : ∀ b ∈ blocks, s.lowest cfg ≤ b.num
  blocks_le : ∀ b ∈ blocks, b.num ≤ s.requestToBlock cfg
  finalized_ge : lastFinalizedBlock < s.fromBlock ∨ s.lowest cfg ≤ lastFinalizedBlock
  resolved : cfg.includeEmptyFirstBlock = true → ∀ a ∈ answers, ∀ b,
    (a.node.header b).num = cfg.initialFromBlock → b = cfg.initialFromBlock

/-- An iteration that reads ahead is ready to report what it has fetched. -/
theorem Config.Ordered.ready (hchunk : 1 ≤ cfg.syncBlockChunkSize) (hord : cfg.Ordered s)
    (hopen : s.closed = false) (hreads : cfg.ReadsAhead s input)
    (hwaited : s.Waited cfg input.polls s1) {finalized : ℕ}
    (hfinalized : input.finalized = some finalized) (hrange : s1.InRange cfg input.answers blocks) :
    cfg.Ready s1 blocks (min s1.lastBlock finalized) input.answers := by
  obtain ⟨hord1, htip⟩ := hord.waited hreads hwaited
  obtain ⟨hfrom, -, hsent, hclosed⟩ := hwaited.frame
  have hlow : s1.lowest cfg = s.lowest cfg := by rw [State.lowest, State.lowest, hfrom, hsent]
  have hopen1 : s1.closed = false := hclosed.trans hopen
  refine ⟨hord1, hopen1, hord1.lowest_le_requestToBlock hchunk hopen1 htip, hrange.increasing,
    fun b hb => ?_, fun b hb => (hrange.bounds b hb).2, ?_, hreads.resolved⟩
  · by_contra hlt
    obtain ⟨a, ha, l, hl, hwatched⟩ := hrange.hasLog b hb
    have hnone := hreads.logs a ha b.num (hfrom ▸ (hrange.bounds b hb).1) (by omega) l hl
    rw [hwatched] at hnone
    cases hnone
  · have hread := hreads.finalized finalized hfinalized
    omega

section

omit [DecidableEq H]

variable {block : ℕ} {e : EVMBlock H} (hready : cfg.Ready s blocks lastFinalizedBlock answers)
include hready

/-- The bounds that the numbers of an iteration keep. -/
theorem Config.Ready.limits :
    cfg.initialFromBlock ≤ s.fromBlock ∧ s.fromBlock ≤ s.lowest cfg ∧
      s.lowest cfg ≤ s.requestToBlock cfg ∧ s.requestToBlock cfg ≤ s.lastBlock ∧
      s.lastBlock + cfg.syncBlockChunkSize + 1 < 2^64 :=
  ⟨hready.from_ge, s.fromBlock_le_lowest cfg, hready.request_ge, (s.requestToBlock_le cfg).1,
    hready.tip_fits⟩

theorem Config.Ready.target_ge
    (htarget : s.Target cfg blocks lastFinalizedBlock block) : s.lowest cfg ≤ block := by
  cases htarget with
  | requested => exact hready.request_ge
  | withEvents hmem => exact hready.blocks_ge _ hmem
  | finalized hge =>
    have hfinalized := hready.finalized_ge
    omega

/-- A block without events that has the number of the first block is the first block, if that is
sent in any case. -/
theorem Config.Ready.empty_resolved (hinclude : cfg.includeEmptyFirstBlock = true)
    (hafter : s.EmptyAfter cfg preReported blocks lastFinalizedBlock answers block e)
    (hnum : e.num = cfg.initialFromBlock) : block = cfg.initialFromBlock := by
  obtain ⟨a, ha, hheader⟩ := hafter.report.resolved
  exact hready.resolved hinclude a ha block (hheader ▸ hnum)

/-- A block without events is not below the lowest block. -/
theorem Config.Ready.empty_ge
    (htarget : s.Target cfg blocks lastFinalizedBlock block)
    (hafter : s.EmptyAfter cfg preReported blocks lastFinalizedBlock answers block e) :
    s.lowest cfg ≤ e.num := by
  have hblock := hready.target_ge htarget
  rcases hafter.report.bound with hnum | hge
  · rw [hnum]
    exact hblock
  by_contra hlt
  -- then the first block has been sent, and the missing block has resolved to it
  have hlimits := hready.limits
  have hmax := s.lowest_le_max cfg
  have hinclude : cfg.includeEmptyFirstBlock = true := by
    by_contra hnot
    have hlow : s.lowest cfg = s.fromBlock := if_neg (by simp [hnot])
    omega
  have hinitial := hready.empty_resolved hinclude hafter (by omega)
  omega

/-- The reports of an iteration that has not sent the first block separately. -/
theorem Config.Ready.sends_of_reported
    (hreport : s.Reported cfg preReported blocks lastFinalizedBlock answers r)
    {initialBlockSent : Bool} (hfirst : s.initialBlockSent = false →
      ∃ b ∈ blocks, b.num = cfg.initialFromBlock) :
    s.Sends cfg lastFinalizedBlock r.sent
      (s.finish cfg [] initialBlockSent lastFinalizedBlock r) := by
  have hlimits := hready.limits
  obtain ⟨hincreasing, hsent⟩ := hreport.sent_spec hready.increasing hready.blocks_ge
    (fun block e htarget hafter => hready.empty_ge htarget hafter) (by omega)
  have hlow := (s.finish cfg [] initialBlockSent lastFinalizedBlock r).fromBlock_le_lowest cfg
  -- the first block is the first of the blocks with events
  have hhead : s.initialBlockSent = false →
      ∃ b, r.sent.head? = some b ∧ b.num = cfg.initialFromBlock := by
    intro hunsent
    obtain ⟨b, hb, hnum⟩ := hfirst hunsent
    cases hreport with
    | extend hblocks => exact absurd hb (hblocks ▸ not_mem_nil)
    | advance =>
      obtain ⟨first, blocks', rfl⟩ := exists_cons_of_ne_nil (ne_nil_of_mem hb)
      refine ⟨_, rfl, ?_⟩
      have hge := hready.blocks_ge first (.head _)
      have hle : first.num ≤ b.num := by
        rcases mem_cons.mp hb with rfl | hb
        · exact le_rfl
        · exact (rel_of_pairwise_cons hready.increasing hb).le
      show first.num = cfg.initialFromBlock
      omega
  refine ⟨?_, hincreasing, fun b hb => ?_, fun b hb => (hsent b hb).2.2, fun hunsent b hb => ?_,
    fun hunsent _ hnil => ?_⟩
  · show s.sent ++ [] ++ r.sent = s.sent ++ r.sent
    rw [append_nil]
  · obtain ⟨⟨hge, hle⟩, hlt, -⟩ := hsent b hb
    exact ⟨hge, hle, hlt.trans_le hlow⟩
  · obtain ⟨first, hfirst', hnum⟩ := hhead hunsent
    rw [hfirst', Option.some.injEq] at hb
    rw [← hb, hnum]
  · obtain ⟨first, hfirst', -⟩ := hhead hunsent
    rw [hnil] at hfirst'
    cases hfirst'

/-- The reports of an iteration that has sent the first block as a block without events. -/
theorem Config.Ready.sends_of_preReported (hunsent : s.initialBlockSent = false)
    (hnum : e.num = cfg.initialFromBlock)
    (hflag : e.isFinalizedBlock = decide (e.num ≤ lastFinalizedBlock))
    (hnot : ∀ b ∈ blocks, b.num ≠ cfg.initialFromBlock)
    (hreport : s.Reported cfg true blocks lastFinalizedBlock answers r) :
    s.Sends cfg lastFinalizedBlock (e :: r.sent)
      (s.finish cfg [e] true lastFinalizedBlock r) := by
  obtain ⟨hinclude, -, hfrom⟩ := hready.unsent hunsent
  have hlow : s.lowest cfg = cfg.initialFromBlock := by
    rw [State.lowest, hunsent, hfrom]
    simp
  have hlow' : (s.finish cfg [e] true lastFinalizedBlock r).lowest cfg =
      max r.fromBlock (cfg.initialFromBlock + 1) := if_pos (by rw [hinclude]; rfl)
  have hlimits := hready.limits
  have hblocks : ∀ b ∈ blocks, cfg.initialFromBlock + 1 ≤ b.num := by
    intro b hb
    have hge := hready.blocks_ge b hb
    have hne := hnot b hb
    omega
  have hempty : ∀ block e', s.Target cfg blocks lastFinalizedBlock block →
      s.EmptyAfter cfg true blocks lastFinalizedBlock answers block e' →
      cfg.initialFromBlock + 1 ≤ e'.num := by
    intro block e' htarget hafter
    have hge := hready.empty_ge htarget hafter
    by_contra hlt
    exact hafter.not_initial rfl (hready.empty_resolved hinclude hafter (by omega))
  obtain ⟨hincreasing, hsent⟩ :=
    hreport.sent_spec hready.increasing hblocks hempty (by omega)
  refine ⟨append_assoc _ _ _, pairwise_cons.mpr ⟨fun b hb => ?_, hincreasing⟩,
    forall_mem_cons.mpr ⟨by omega, fun b hb => ?_⟩,
    forall_mem_cons.mpr ⟨hflag, fun b hb => (hsent b hb).2.2⟩, fun _ b hb => ?_,
    fun _ _ => cons_ne_nil _ _⟩
  · have hb' := (hsent b hb).1.1
    omega
  · have hb' := hsent b hb
    omega
  · cases hb
    exact hnum

/-- The first block is sent by the first iteration that fetches a range. -/
theorem Config.Ready.sendsInitial {initial : List (EVMBlock H)} {initialBlockSent : Bool}
    (hinitial : s.SendsInitial cfg blocks lastFinalizedBlock initial initialBlockSent) :
    initialBlockSent = true := by
  cases hinitial with
  | inBlocks | preReported => rfl
  | later hlater =>
    -- the requested range has reached the first block
    refine hlater.resolve_right fun hlt => ?_
    have hlimits := hready.limits
    omega

/-- Every iteration sends blocks from the lowest one on. -/
theorem Config.Ready.sends
    (h : s.Finished cfg blocks lastFinalizedBlock answers s') :
    ∃ new, s.Sends cfg lastFinalizedBlock new s' := by
  cases h with
  | missing hunsent =>
    refine ⟨[], (append_nil _).symm, List.Pairwise.nil, by simp, by simp, by simp, ?_⟩
    exact fun _ hsent => absurd hunsent (Bool.eq_false_iff.not_left.mpr hsent)
  | reported hinitial hreport =>
    cases hinitial with
    | later hlater =>
      refine ⟨_, hready.sends_of_reported hreport fun hunsent => ?_⟩
      have hsent := hready.sendsInitial (.later hlater)
      exact absurd (hunsent.symm.trans hsent) Bool.false_ne_true
    | inBlocks hunsent hmem => exact ⟨_, hready.sends_of_reported hreport fun _ => hmem⟩
    | preReported hunsent hnum hflag hnot =>
      exact ⟨_, hready.sends_of_preReported hunsent hnum hflag hnot hreport⟩

omit hready in
/-- The blocks on the channel stay in order. -/
theorem Config.Ordered.sentInOrder_append (hord : cfg.Ordered s) {new : List (EVMBlock H)}
    (hnew : s.Sends cfg lastFinalizedBlock new s') : cfg.SentInOrder s'.sent := by
  have hstart := hord.from_ge
  have hfrom := s.fromBlock_le_lowest cfg
  rw [hnew.sent]
  constructor
  · refine pairwise_append.mpr ⟨hord.sent.increasing, hnew.increasing, fun b hb b' hb' => ?_⟩
    exact (hord.sent_lt b hb).trans_le (hnew.bounds b' hb').1
  · exact forall_mem_append.mpr ⟨hord.sent.start_le, fun b hb =>
      (hstart.trans hfrom).trans (hnew.bounds b hb).1⟩
  · exact forall_mem_append.mpr ⟨hord.sent.le_last, fun b hb n hn =>
      (hnew.bounds b hb).2.1.trans ((s.requestToBlock_le cfg).2 n hn)⟩
  · intro hinclude b hb
    cases hunsent : s.initialBlockSent with
    | false =>
      rw [(hord.unsent hunsent).2.1, nil_append] at hb
      exact hnew.first hunsent b hb
    | true =>
      obtain ⟨first, rest, hsent⟩ := exists_cons_of_ne_nil (hord.firstSent hinclude hunsent)
      refine hord.sent.first hinclude b ?_
      rw [hsent] at hb ⊢
      exact hb

/-- The range that an iteration leaves. -/
theorem Config.Ready.range
    (hreport : s.Reported cfg preReported blocks lastFinalizedBlock answers r) :
    s.fromBlock ≤ r.fromBlock ∧ r.fromBlock + cfg.syncBlockChunkSize < 2^64 ∧
      cfg.rangeEnd r.fromBlock ≤ r.toBlock ∧
      (r.fromBlock ≤ cfg.initialFromBlock → cfg.initialFromBlock < s.lastBlock) := by
  obtain ⟨hstart, hfrom, hlimits⟩ := hready.limits
  cases hreport with
  | @advance block _ hto htarget =>
    have hge := hready.target_ge htarget
    have hnext : add64 block 1 = block + 1 := add64_eq (by omega)
    refine ⟨?_, ?_, le_rfl, fun hle => ?_⟩
    · show s.fromBlock ≤ add64 block 1
      omega
    · show add64 block 1 + cfg.syncBlockChunkSize < 2^64
      omega
    · have hle' : add64 block 1 ≤ cfg.initialFromBlock := hle
      omega
  | @extend toBlock _ htop hto =>
    have hend := hready.to_ge hready.isOpen
    have hlong : s.toBlock ≤ toBlock := by
      rcases hto with rfl | rfl
      · exact le_rfl
      · rw [add64_eq (by omega)]
        exact Nat.le_add_right _ _
    have hreach : s.fromBlock ≤ s.toBlock :=
      (Config.le_rangeEnd hready.from_fits (Nat.le_add_right _ _) fun n hn =>
        hfrom.trans (hready.last_ge hready.isOpen n hn)).trans hend
    exact ⟨le_rfl, hready.from_fits, hend.trans hlong, fun _ => by omega⟩

omit hready in
theorem State.lowest_mono (hfrom : s.fromBlock ≤ s'.fromBlock)
    (hsent : s.initialBlockSent = true → s'.initialBlockSent = true) :
    s.lowest cfg ≤ s'.lowest cfg := by
  unfold State.lowest
  grind

/-- The end of an iteration keeps the invariant. -/
theorem Config.Ready.ordered
    (h : s.Finished cfg blocks lastFinalizedBlock answers s') : cfg.Ordered s' := by
  have hord := hready.toOrdered
  obtain ⟨new, hnew⟩ := hready.sends h
  have hsent := hord.sentInOrder_append hnew
  cases h with
  | missing =>
    exact { hord with to_ge := nofun, last_ge := nofun }
  | @reported initial initialBlockSent r hinitial hreport =>
    obtain rfl := hready.sendsInitial hinitial
    obtain ⟨hfrom, hfits, hend, htip⟩ := hready.range hreport
    have hstart := hord.from_ge
    generalize hs' : s.finish cfg initial true lastFinalizedBlock r = s' at hnew hsent
    have hfrom' : s'.fromBlock = r.fromBlock := by rw [← hs']; rfl
    have hlast' : s'.lastBlock = s.lastBlock := by rw [← hs']; rfl
    have hmono : s.lowest cfg ≤ s'.lowest cfg :=
      State.lowest_mono (hfrom' ▸ hfrom) fun _ => by rw [← hs']; rfl
    have hmax := s'.lowest_le_max cfg
    refine ⟨hsent, fun b hb => ?_, by omega, hfrom' ▸ hfits, hlast' ▸ hord.tip_fits, fun hlt => ?_,
      fun _ => ?_, fun hopen n hn => ?_, fun hunsent => ?_, fun hinclude _ => ?_⟩
    · exact forall_mem_append.mpr ⟨fun b hb => (hord.sent_lt b hb).trans_le hmono,
        fun b hb => (hnew.bounds b hb).2.2⟩ b (hnew.sent ▸ hb)
    · omega
    · rw [hfrom', ← hs']
      exact hend
    · -- the loop goes on only below the last block
      have hstops : s.stops cfg r.fromBlock lastFinalizedBlock = false := by rw [← hopen, ← hs']; rfl
      simp only [State.stops, hn, Bool.or_eq_false_iff, decide_eq_false_iff_not] at hstops
      have hlimits := hready.limits
      omega
    · have hsent' : s'.initialBlockSent = true := by rw [← hs']; rfl
      exact absurd (hunsent.symm.trans hsent') Bool.false_ne_true
    · rw [hnew.sent]
      intro hnil
      obtain ⟨hold, hnone⟩ := append_eq_nil_iff.mp hnil
      cases hunsent : s.initialBlockSent with
      | true => exact hord.firstSent hinclude hunsent hold
      | false => exact hnew.nonempty hunsent (by rw [← hs']; rfl) hnone

end

/-- One iteration keeps the invariant. -/
theorem Config.Ordered.iterate (hchunk : 1 ≤ cfg.syncBlockChunkSize) (hhook : cfg.HookDrops)
    (hord : cfg.Ordered s) (hreads : cfg.ReadsAhead s input)
    (h : s.iterate cfg input = some s') : cfg.Ordered s' := by
  obtain ⟨hopen, s1, hwaited, ⟨-, rfl⟩ | ⟨finalized, blocks, rest, hfinalized, -, hrange, hfin⟩⟩ :=
    State.iterate_cases hhook h
  · obtain ⟨hord1, -⟩ := hord.waited hreads hwaited
    exact { hord1 with }
  · exact (hord.ready hchunk hopen hreads hwaited hfinalized hrange).ordered hfin

/-- The blocks that an iteration sends are flagged by the finalized block it has read. -/
theorem Config.Ordered.iterate_flag (hchunk : 1 ≤ cfg.syncBlockChunkSize) (hhook : cfg.HookDrops)
    (hord : cfg.Ordered s) (hreads : cfg.ReadsAhead s input)
    (h : s.iterate cfg input = some s') :
    ∃ new, s'.sent = s.sent ++ new ∧ ∀ b ∈ new, ∃ finalized, input.finalized = some finalized ∧
      (b.isFinalizedBlock = true ↔ b.num ≤ finalized) := by
  obtain ⟨hopen, s1, hwaited, ⟨-, rfl⟩ | ⟨finalized, blocks, rest, hfinalized, -, hrange, hfin⟩⟩ :=
    State.iterate_cases hhook h
  · exact ⟨[], by rw [append_nil]; exact hwaited.frame.2.1, by simp⟩
  · have hready := hord.ready hchunk hopen hreads hwaited hfinalized hrange
    obtain ⟨new, hnew⟩ := hready.sends hfin
    refine ⟨new, hwaited.frame.2.1 ▸ hnew.sent, fun b hb => ⟨finalized, hfinalized, ?_⟩⟩
    -- the flag compares with the tip as well, which no block is above
    have hle := (hnew.bounds b hb).2.1.trans (s1.requestToBlock_le cfg).1
    rw [hnew.flag b hb, decide_eq_true_iff]
    omega

/-- The state before the first iteration. -/
theorem Config.StartsWithin.ordered (hwithin : cfg.StartsWithin polls)
    (h : cfg.start polls = some s) : cfg.Ordered s := by
  obtain ⟨tip, htip, rfl⟩ := Config.start_eq_some h
  refine ⟨⟨List.Pairwise.nil, by simp, by simp, by simp⟩, by simp, le_rfl, hwithin.fits,
    hwithin.tip_fits tip htip, fun hlt => ?_, fun _ => le_rfl, fun _ n hn => ?_, fun hunsent => ?_,
    fun hinclude hsent => ?_⟩
  · simp [State.lowest] at hlt
  · simpa [State.lowest] using hwithin.last_ge n hn
  · exact ⟨by simpa using hunsent, rfl, rfl⟩
  · have hunsent : (!cfg.includeEmptyFirstBlock) = true := hsent
    simp [hinclude] at hunsent

end order

/-- Over every run of `Download` in which each iteration reads ahead: the numbers of the blocks it
sends are strictly increasing, not below the first block and not above the last one, the first
number is that of the first block if this is always sent, and an iteration flags as final the blocks
up to the finalized block it reads. -/
theorem sent_in_order {cfg : Config H} (hhook : cfg.HookDrops) {polls : List (Poll H)}
    (hwithin : cfg.StartsWithin polls) {inputs : List (Input H)} {s : State H}
    (hrun : cfg.Downloads cfg.ReadsAhead polls inputs s) :
    cfg.SentInOrder s.sent ∧
      ∀ input s', cfg.ReadsAhead s input → s.iterate cfg input = some s' →
        ∃ new, s'.sent = s.sent ++ new ∧ ∀ b ∈ new, ∃ finalized,
          input.finalized = some finalized ∧ (b.isFinalizedBlock = true ↔ b.num ≤ finalized) := by
  obtain ⟨s₀, hstart, hsteps⟩ := hrun
  have hord : cfg.Ordered s := by
    refine hsteps.invariant (P := fun _ s => cfg.Ordered s) (hwithin.ordered hstart) ?_
    intro _ s input s' hord hreads h
    exact hord.iterate hwithin.chunk_pos hhook hreads h
  exact ⟨hord.sent, fun input s' hreads h => hord.iterate_flag hwithin.chunk_pos hhook hreads h⟩

/-- An iteration from block 5 on, with the first block sent in any case. -/
theorem sent_in_order_from_five : ∃ s : State ℕ, s.sent.map (·.num) = [5, 6] ∧
    (topicConfig 5 true).SentInOrder s.sent := by
  let s : State ℕ := ⟨7, 8, 10, false, true,
    [⟨⟨5, 5, 4, 0⟩, true, []⟩, ⟨⟨6, 6, 5, 0⟩, true, []⟩], false⟩
  have hwithin : (topicConfig 5 true).StartsWithin [tipPoll 10] := by
    refine ⟨le_rfl, nofun, by decide, fun tip htip => ?_⟩
    cases htip
    decide
  have hreads : ∀ s₀, (topicConfig 5 true).start [tipPoll 10] = some s₀ →
      (topicConfig 5 true).ReadsAhead s₀ (oneLogInput 3 10 fun _ => none) := by
    intro s₀ hstart
    cases hstart
    refine ⟨fun hwait => absurd hwait (by decide), fun n hn => .inr ?_, fun a ha b hge hlt => ?_,
      fun _ a ha b hb => ?_, fun tip htip => absurd htip (Option.some_ne_none tip).symm⟩
    · cases hn
      decide
    · exact absurd hlt (Nat.not_lt.mpr hge)
    · rw [eq_of_mem_replicate ha] at hb
      exact hb
  have hrun : (topicConfig 5 true).Downloads (topicConfig 5 true).ReadsAhead [tipPoll 10]
      [oneLogInput 3 10 fun _ => none] s :=
    ⟨_, rfl, .snoc .nil (hreads _ rfl) rfl⟩
  exact ⟨s, rfl, (sent_in_order (Config.hookDrops_of_none rfl) hwithin hrun).1⟩

/-- A chain that has not reached the first block: `Download` from block 5 on reads the tips 1 and 2,
and sends block 2. -/
theorem tip_below_start_sent : ∃ (inputs : List (Input ℕ)) (s : State ℕ),
    (topicConfig 5 false).Downloads (fun _ _ => True) [tipPoll 1] inputs s ∧
      ∃ b ∈ s.sent, b.num < (topicConfig 5 false).initialFromBlock := by
  let input : Input ℕ := { oneLogInput 1 0 (fun _ => none) with polls := [tipPoll 2] }
  let s : State ℕ := ⟨3, 4, 2, true, true, [⟨⟨2, 2, 1, 0⟩, false, []⟩], false⟩
  exact ⟨[input], s, ⟨_, rfl, .snoc .nil trivial rfl⟩, _, .head _, by decide⟩

end AggKit.Sync
