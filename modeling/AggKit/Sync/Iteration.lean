import AggKit.Sync.Fetch

/-!
# One iteration of `Download`

`iterate_cases` says what an iteration can do, once for all the properties of the main loop: it may
wait for a new tip (`State.Waited`), it fetches the logs of a range, it may send the first block
(`State.SendsInitial`), and then it reports the blocks and moves the range (`State.Reported`).

The four branches that report blocks all send the blocks with events, then at most one block without
events, and go on after a block that is not above the requested range. The fifth sends nothing and
only makes the range longer.
-/

namespace AggKit.Sync

open List

variable {H : Type}

/-! ## Waiting -/

namespace Config

/-- The round that ends `WaitForNewBlocks`: a tip above the latest block, or one with another hash
than the one that is tracked. -/
def endsWait [DecidableEq H] (cfg : Config H) (latestSyncedBlock : ℕ) (poll : Poll H) :
    Bool :=
  match poll.header with
  | none => false
  | some (blockNumber, headerHash) =>
    latestSyncedBlock < blockNumber ||
      match cfg.reorgDetector, poll.tracked with
      | true, some (some trackedHash) => trackedHash != headerHash
      | _, _ => false

/-- The tip of the first round that ends the wait. -/
def tipRead [DecidableEq H] (cfg : Config H) (latestSyncedBlock : ℕ)
    (polls : List (Poll H)) : Option ℕ :=
  ((polls.find? (cfg.endsWait latestSyncedBlock)).bind Poll.header).map Prod.fst

theorem waitForNewBlocks_eq_tipRead [DecidableEq H] (cfg : Config H)
    (latestSyncedBlock : ℕ) (polls : List (Poll H)) :
    cfg.waitForNewBlocks latestSyncedBlock polls = cfg.tipRead latestSyncedBlock polls := by
  unfold tipRead
  fun_induction waitForNewBlocks cfg latestSyncedBlock polls with
  | case1 => rfl
  | case2 poll polls hheader ih => simp [endsWait, hheader, ih]
  | case3 poll polls n hash hheader hlt => simp [endsWait, hheader, hlt]
  | case4 poll polls n hash hheader hle tracked htracked hdetector hne =>
    simp [endsWait, hheader, htracked, hdetector, bne_iff_ne.mpr hne]
  | case5 poll polls n hash hheader hle tracked htracked hdetector heq ih =>
    simp [endsWait, hheader, hle, htracked, hdetector, not_not.mp heq, ih]
  | case6 poll polls n hash hheader hle hno ih =>
    -- the tip is not new, so only the reorg detector could end the wait
    have hwaits : cfg.endsWait latestSyncedBlock poll = false := by
      simp only [endsWait, hheader, hle, decide_false, Bool.false_or]
    simp [hwaits, ih]

end Config

/-- The state after the part of an iteration that waits. -/
inductive State.Waited [DecidableEq H] (cfg : Config H) (s : State H) (polls : List (Poll H)) :
    State H → Prop
  | no (hno : s.mustWait = false) : State.Waited cfg s polls s
  | tip (hwait : s.mustWait = true) {tip : ℕ} (htip : cfg.tipRead s.lastBlock polls = some tip) :
      State.Waited cfg s polls (s.setLastBlock cfg tip)

theorem State.wait_cases [DecidableEq H] {cfg : Config H} {s s1 : State H} {polls : List (Poll H)}
    (h : s.wait cfg polls = some s1) : s.Waited cfg polls s1 := by
  unfold State.wait at h
  split_ifs at h with hmust
  · rw [Config.waitForNewBlocks_eq_tipRead] at h
    obtain ⟨tip, htip, rfl⟩ := Option.map_eq_some_iff.mp h
    exact .tip hmust htip
  · cases h
    exact .no (Bool.eq_false_of_not_eq_true hmust)

/-- Waiting only changes the tip and the end of the range. -/
theorem State.Waited.frame [DecidableEq H] {cfg : Config H} {s s1 : State H}
    {polls : List (Poll H)} (h : s.Waited cfg polls s1) :
    s1.fromBlock = s.fromBlock ∧ s1.sent = s.sent ∧ s1.initialBlockSent = s.initialBlockSent ∧
      s1.closed = s.closed := by
  cases h with
  | no | tip => exact ⟨rfl, rfl, rfl, rfl⟩

/-! ## Blocks without events -/

section reports

variable {cfg : Config H} {s : State H} {preReported : Bool} {blocks sent : List (EVMBlock H)}
  {blockNum minBlock lastFinalizedBlock : ℕ} {answers answers' rest : List (Answer H)}
  {r : Report H}

/-- The block `e` is what a client has for `blockNum`: the block itself or a previous one that is
not below `minBlock`. -/
structure IsEmptyReport (answers : List (Answer H)) (blockNum minBlock lastFinalizedBlock : ℕ)
    (e : EVMBlock H) : Prop where
  resolved : ∃ a ∈ answers, e.num = (a.node.header blockNum).num
  bound : e.num = blockNum ∨ minBlock ≤ e.num
  flag : e.isFinalizedBlock = decide (e.num ≤ lastFinalizedBlock)

theorem IsEmptyReport.num_le {e : EVMBlock H}
    (he : IsEmptyReport answers blockNum minBlock lastFinalizedBlock e) : e.num ≤ blockNum := by
  obtain ⟨a, -, hnum⟩ := he.resolved
  rw [hnum]
  exact a.node.header_num_le blockNum

/-- `reportEmptyBlock` sends one block or none. -/
theorem reportEmptyBlock_spec
    (h : reportEmptyBlock blockNum minBlock lastFinalizedBlock answers = some (sent, rest)) :
    rest ⊆ answers ∧
      (sent = [] ∨ ∃ e, sent = [e] ∧ IsEmptyReport answers blockNum minBlock lastFinalizedBlock e) := by
  obtain ⟨⟨header, answers1⟩, hheader, h⟩ := Option.map_eq_some_iff.mp h
  obtain ⟨used, rfl, a, ha, rfl⟩ := getBlockHeader_eq_some hheader
  dsimp only at h
  split_ifs at h with hmissing <;> cases h
  · exact ⟨subset_append_right _ _, .inl rfl⟩
  · refine ⟨subset_append_right _ _, .inr ⟨_, rfl, ⟨a, mem_append_left _ ha, rfl⟩, ?_, rfl⟩⟩
    show (a.node.header blockNum).num = blockNum ∨ minBlock ≤ (a.node.header blockNum).num
    omega

theorem mem_reportBlocks {b : EVMBlock H} (hb : b ∈ reportBlocks blocks lastFinalizedBlock) :
    ∃ b' ∈ blocks, b.num = b'.num ∧ b.events = b'.events ∧
      b.isFinalizedBlock = decide (b.num ≤ lastFinalizedBlock) := by
  obtain ⟨b', hb', rfl⟩ := mem_map.mp hb
  exact ⟨b', hb', rfl, rfl, rfl⟩

/-! ## Reports -/

/-- The block without events that an iteration sends after the blocks with events, on its way to go
on after `block`. -/
structure State.EmptyAfter (cfg : Config H) (s : State H) (preReported : Bool)
    (blocks : List (EVMBlock H)) (lastFinalizedBlock : ℕ) (answers : List (Answer H)) (block : ℕ)
    (e : EVMBlock H) : Prop where
  report : IsEmptyReport answers block s.fromBlock lastFinalizedBlock e
  after_blocks : ∀ b ∈ blocks, b.num < e.num
  not_initial : preReported = true → block ≠ cfg.initialFromBlock

/-- The block that an iteration goes on after. -/
inductive State.Target (cfg : Config H) (s : State H) (blocks : List (EVMBlock H))
    (lastFinalizedBlock : ℕ) : ℕ → Prop
  | requested : State.Target cfg s blocks lastFinalizedBlock (s.requestToBlock cfg)
  | withEvents {b : EVMBlock H} (hmem : b ∈ blocks) :
      State.Target cfg s blocks lastFinalizedBlock b.num
  | finalized (hge : s.fromBlock ≤ lastFinalizedBlock) :
      State.Target cfg s blocks lastFinalizedBlock lastFinalizedBlock

/-- What the reports of an iteration send, and the range they leave. -/
inductive State.Reported (cfg : Config H) (s : State H) (preReported : Bool)
    (blocks : List (EVMBlock H)) (lastFinalizedBlock : ℕ) (answers : List (Answer H)) :
    Report H → Prop
  /-- The blocks with events and perhaps one without; go on after `block`. -/
  | advance {block : ℕ} {empty : List (EVMBlock H)} (hto : block ≤ s.requestToBlock cfg)
      (htarget : s.Target cfg blocks lastFinalizedBlock block)
      (hblocks : ∀ b ∈ blocks, b.num ≤ block)
      (hempty : empty = [] ∨ ∃ e, empty = [e] ∧
        s.EmptyAfter cfg preReported blocks lastFinalizedBlock answers block e) :
      State.Reported cfg s preReported blocks lastFinalizedBlock answers
        (cfg.after (reportBlocks blocks lastFinalizedBlock ++ empty) block)
  /-- No blocks; only the range may get longer. -/
  | extend {toBlock : ℕ} (hblocks : blocks = []) (htop : s.toBlock < s.lastBlock)
      (hto : toBlock = s.toBlock ∨ toBlock = add64 s.toBlock cfg.syncBlockChunkSize) :
      State.Reported cfg s preReported blocks lastFinalizedBlock answers
        ⟨[], s.fromBlock, toBlock⟩

theorem State.Reported.of_blocks {block : ℕ} (hto : block ≤ s.requestToBlock cfg)
    (htarget : s.Target cfg blocks lastFinalizedBlock block)
    (hblocks : ∀ b ∈ blocks, b.num ≤ block) :
    s.Reported cfg preReported blocks lastFinalizedBlock answers
      (cfg.after (reportBlocks blocks lastFinalizedBlock) block) := by
  rw [← append_nil (reportBlocks blocks lastFinalizedBlock)]
  exact .advance hto htarget hblocks (.inl rfl)

/-- The reports that end with a block without events. -/
theorem Config.reportEmptyAndAdvance_spec
    (h : cfg.reportEmptyAndAdvance preReported (reportBlocks blocks lastFinalizedBlock) blockNum
      minBlock lastFinalizedBlock answers = some r)
    (hto : blockNum ≤ s.requestToBlock cfg)
    (htarget : s.Target cfg blocks lastFinalizedBlock blockNum)
    (hmin : s.fromBlock ≤ minBlock) (hblocks : ∀ b ∈ blocks, b.num < minBlock ∧ b.num < blockNum) :
    s.Reported cfg preReported blocks lastFinalizedBlock answers r := by
  unfold Config.reportEmptyAndAdvance at h
  have hle : ∀ b ∈ blocks, b.num ≤ blockNum := fun b hb => (hblocks b hb).2.le
  split_ifs at h with hskip
  · cases h
    exact .of_blocks hto htarget hle
  · obtain ⟨⟨sent, rest⟩, hempty, rfl⟩ := Option.map_eq_some_iff.mp h
    refine .advance hto htarget hle ((reportEmptyBlock_spec hempty).2.imp_right ?_)
    rintro ⟨e, rfl, he⟩
    refine ⟨e, rfl, ⟨he.resolved, he.bound.imp_right hmin.trans, he.flag⟩, ?_, ?_⟩
    · intro b hb
      rcases he.bound with hnum | hnum
      · rw [hnum]
        exact (hblocks b hb).2
      · exact (hblocks b hb).1.trans_le hnum
    · intro hpre hinitial
      exact hskip (by simp [hpre, hinitial])

theorem Config.reportEmptyAndAdvance_nil_spec
    (h : cfg.reportEmptyAndAdvance preReported [] blockNum s.fromBlock lastFinalizedBlock answers =
      some r)
    (hto : blockNum ≤ s.requestToBlock cfg)
    (htarget : s.Target cfg [] lastFinalizedBlock blockNum) :
    s.Reported cfg preReported [] lastFinalizedBlock answers r := by
  exact Config.reportEmptyAndAdvance_spec h hto htarget le_rfl (by simp)

namespace State

/-- The blocks that a call of `GetEventsByBlockRange` for the range of the iteration returns. -/
structure InRange [DecidableEq H] (cfg : Config H) (s : State H) (answers : List (Answer H))
    (blocks : List (EVMBlock H)) : Prop where
  increasing : blocks.Pairwise (·.num < ·.num)
  bounds : ∀ b ∈ blocks, s.fromBlock ≤ b.num ∧ b.num ≤ s.requestToBlock cfg
  hasLog : ∀ b ∈ blocks, ∃ a ∈ answers, ∃ l ∈ a.node.logs b.num, cfg.watches l = true

/-- The last of the blocks has the highest number. -/
theorem InRange.le_last [DecidableEq H] (hblocks : s.InRange cfg answers blocks) {last : EVMBlock H}
    (hlast : blocks.getLast? = some last) : ∀ b ∈ blocks, b.num ≤ last.num := by
  intro b hb
  rcases Table.rel_of_getLast? hblocks.increasing hlast hb with rfl | hlt
  · exact le_rfl
  · exact hlt.le

theorem reportSafe_spec [DecidableEq H] (hblocks : s.InRange cfg answers' blocks)
    (h : s.reportSafe cfg preReported blocks lastFinalizedBlock answers = some r) :
    s.Reported cfg preReported blocks lastFinalizedBlock answers r := by
  unfold reportSafe at h
  cases hlast : blocks.getLast? with
  | none =>
    obtain rfl := getLast?_eq_none_iff.mp hlast
    exact Config.reportEmptyAndAdvance_nil_spec h le_rfl .requested
  | some last =>
    have hle := hblocks.le_last hlast
    simp only [hlast] at h
    split_ifs at h with hlt
    · refine Config.reportEmptyAndAdvance_spec h le_rfl .requested (le_max_left _ _) ?_
      intro b hb
      have hb' := hle b hb
      omega
    · cases h
      exact .of_blocks le_rfl .requested fun b hb => (hblocks.bounds b hb).2

theorem reportUnsafe_spec [DecidableEq H] (hblocks : s.InRange cfg answers' blocks)
    (hbeyond : lastFinalizedBlock < s.requestToBlock cfg)
    (h : s.reportUnsafe cfg preReported blocks lastFinalizedBlock answers = some r) :
    s.Reported cfg preReported blocks lastFinalizedBlock answers r := by
  unfold reportUnsafe at h
  cases hlast : blocks.getLast? with
  | some last =>
    simp only [hlast, Option.some.injEq] at h
    subst h
    have hmem : last ∈ blocks := mem_of_getLast? hlast
    exact .of_blocks (hblocks.bounds last hmem).2 (.withEvents hmem) (hblocks.le_last hlast)
  | none =>
    obtain rfl := getLast?_eq_none_iff.mp hlast
    have hlt : ¬s.atTop = true → s.toBlock < s.lastBlock := by simp [atTop]
    split_ifs at h with hfinalized htop hnone
    · exact Config.reportEmptyAndAdvance_nil_spec h hbeyond.le (.finalized hfinalized)
    · exact Config.reportEmptyAndAdvance_nil_spec h le_rfl .requested
    · cases h
      exact .extend rfl (hlt htop) (.inr rfl)
    · cases h
      exact .extend rfl (hlt htop) (.inl rfl)

/-- What the reports of an iteration do. -/
theorem report_spec [DecidableEq H] (hblocks : s.InRange cfg answers' blocks)
    (h : s.report cfg preReported blocks lastFinalizedBlock answers = some r) :
    s.Reported cfg preReported blocks lastFinalizedBlock answers r := by
  unfold report at h
  split_ifs at h with hsafe
  · exact reportSafe_spec hblocks h
  · exact reportUnsafe_spec hblocks (Nat.lt_of_not_le hsafe) h

end State

/-! ## The first block -/

namespace State

/-- The forced report of the first block: the blocks it sends and the new value of
`initialBlockSent`. -/
inductive SendsInitial (cfg : Config H) (s : State H) (blocks : List (EVMBlock H))
    (lastFinalizedBlock : ℕ) : List (EVMBlock H) → Bool → Prop
  | later (hlater : s.initialBlockSent = true ∨ s.requestToBlock cfg < cfg.initialFromBlock) :
      SendsInitial cfg s blocks lastFinalizedBlock [] s.initialBlockSent
  | inBlocks (hfirst : s.initialBlockSent = false)
      (hmem : ∃ b ∈ blocks, b.num = cfg.initialFromBlock) :
      SendsInitial cfg s blocks lastFinalizedBlock [] true
  | preReported (hfirst : s.initialBlockSent = false) {e : EVMBlock H}
      (hnum : e.num = cfg.initialFromBlock)
      (hflag : e.isFinalizedBlock = decide (e.num ≤ lastFinalizedBlock))
      (hnot : ∀ b ∈ blocks, b.num ≠ cfg.initialFromBlock) :
      SendsInitial cfg s blocks lastFinalizedBlock [e] true

/-- What an iteration that has fetched the blocks does. -/
inductive Finished (cfg : Config H) (s : State H) (blocks : List (EVMBlock H))
    (lastFinalizedBlock : ℕ) (answers : List (Answer H)) : State H → Prop
  /-- The first block cannot be sent. -/
  | missing (hfirst : s.initialBlockSent = false) :
      Finished cfg s blocks lastFinalizedBlock answers
        { s with reachTop := s.atTop, closed := true }
  | reported {initial : List (EVMBlock H)} {initialBlockSent : Bool} {r : Report H}
      (hinitial : s.SendsInitial cfg blocks lastFinalizedBlock initial initialBlockSent)
      (hreport : s.Reported cfg (!initial.isEmpty) blocks lastFinalizedBlock answers r) :
      Finished cfg s blocks lastFinalizedBlock answers
        (s.finish cfg initial initialBlockSent lastFinalizedBlock r)

theorem reportInitial_spec {outcome : Initial H}
    (h : s.reportInitial cfg blocks lastFinalizedBlock answers = some (outcome, rest)) :
    rest ⊆ answers ∧
      match outcome with
      | .later => s.SendsInitial cfg blocks lastFinalizedBlock [] s.initialBlockSent
      | .inBlocks => s.SendsInitial cfg blocks lastFinalizedBlock [] true
      | .preReported e => s.SendsInitial cfg blocks lastFinalizedBlock [e] true
      | .missing => s.initialBlockSent = false := by
  unfold reportInitial at h
  split_ifs at h with hlater hmem
  · cases h
    exact ⟨fun _ ha => ha, .later (by simpa using hlater)⟩
  all_goals have hfirst : s.initialBlockSent = false := by simp_all
  · cases h
    exact ⟨fun _ ha => ha, .inBlocks hfirst (by simpa using hmem)⟩
  obtain ⟨⟨sent, answers1⟩, hempty, h⟩ := Option.map_eq_some_iff.mp h
  obtain ⟨hsub, rfl | ⟨e, rfl, he⟩⟩ := reportEmptyBlock_spec hempty
  · cases h
    exact ⟨hsub, hfirst⟩
  · cases h
    -- the header is not above the number, and it is not below it either
    have hle := he.num_le
    have hnum : e.num = cfg.initialFromBlock := by
      rcases he.bound with hnum | hge
      · exact hnum
      · omega
    exact ⟨hsub, .preReported hfirst hnum he.flag (by simpa using hmem)⟩

theorem Reported.mono (hsub : answers ⊆ answers')
    (h : s.Reported cfg preReported blocks lastFinalizedBlock answers r) :
    s.Reported cfg preReported blocks lastFinalizedBlock answers' r := by
  cases h with
  | advance hto htarget hblocks hempty =>
    refine .advance hto htarget hblocks (hempty.imp_right ?_)
    rintro ⟨e, rfl, he⟩
    obtain ⟨a, ha, hnum⟩ := he.report.resolved
    exact ⟨e, rfl, ⟨⟨a, hsub ha, hnum⟩, he.report.bound, he.report.flag⟩, he.after_blocks,
      he.not_initial⟩
  | extend hblocks htop hto => exact .extend hblocks htop hto

end State

end reports

/-! ## The iteration -/

section iteration

variable [DecidableEq H] {cfg : Config H} {s s' : State H} {input : Input H}

/-- A range that is fetched, and what it gives. -/
theorem State.sync_cases {lastFinalizedBlock : ℕ} {answers : List (Answer H)}
    (hhook : cfg.HookDrops) (h : s.sync cfg lastFinalizedBlock answers = some s') :
    ∃ blocks rest, cfg.getEventsByBlockRange s.fromBlock (s.requestToBlock cfg) answers =
        some (blocks, rest) ∧
      s.InRange cfg answers blocks ∧ s.Finished cfg blocks lastFinalizedBlock answers s' := by
  unfold State.sync at h
  split at h
  · cases h
  rename_i blocks answers1 hfetch
  obtain ⟨used, logs, rfl, hfound, hgrouped, -⟩ := Config.getEventsWithRetry_spec hhook hfetch
  have hrange : s.InRange cfg (used ++ answers1) blocks := by
    refine ⟨hgrouped.increasing, fun b hb => ?_, fun b hb => ?_⟩
    · obtain ⟨l, hl, hnum⟩ := hgrouped.ofLogs b hb
      rw [← hnum]
      exact hfound.inRange l hl
    · obtain ⟨l, hl, hnum⟩ := hgrouped.ofLogs b hb
      obtain ⟨a, ha, hmem⟩ := hfound.inAnswer l hl
      rw [← hnum]
      exact ⟨a, mem_append_left _ ha, l, hmem, hfound.watched l hl⟩
  refine ⟨blocks, answers1, hfetch, hrange, ?_⟩
  cases hinitial : s.reportInitial cfg blocks lastFinalizedBlock answers1 with
  | none => simp [hinitial] at h
  | some first =>
    obtain ⟨outcome, answers2⟩ := first
    obtain ⟨hsub, hspec⟩ := State.reportInitial_spec hinitial
    have hsub' : answers2 ⊆ used ++ answers1 := fun a ha => mem_append_right _ (hsub ha)
    simp only [hinitial] at h
    cases outcome with
    | missing =>
      cases h
      exact .missing hspec
    | later | inBlocks | preReported =>
      obtain ⟨r, hreport, rfl⟩ := Option.map_eq_some_iff.mp h
      exact .reported hspec ((State.report_spec hrange hreport).mono hsub')

/-- What an iteration can do. -/
theorem State.iterate_cases (hhook : cfg.HookDrops) (h : s.iterate cfg input = some s') :
    s.closed = false ∧ ∃ s1, s.Waited cfg input.polls s1 ∧
      ((input.finalized = none ∧ s' = { s1 with reachTop := false }) ∨
        ∃ finalized blocks rest, input.finalized = some finalized ∧
          cfg.getEventsByBlockRange s1.fromBlock (s1.requestToBlock cfg) input.answers =
            some (blocks, rest) ∧
          s1.InRange cfg input.answers blocks ∧
          s1.Finished cfg blocks (min s1.lastBlock finalized) input.answers s') := by
  unfold State.iterate at h
  split_ifs at h with hclosed
  split at h
  · cases h
  rename_i s1 hwait
  refine ⟨Bool.eq_false_of_not_eq_true hclosed, s1, State.wait_cases hwait, ?_⟩
  split at h
  · rename_i hfinalized
    exact .inl ⟨hfinalized, (Option.some.inj h).symm⟩
  · rename_i finalized hfinalized
    obtain ⟨blocks, rest, hfetch, hrange, hfinished⟩ := State.sync_cases hhook h
    exact .inr ⟨finalized, blocks, rest, hfinalized, hfetch, hrange, hfinished⟩

end iteration

end AggKit.Sync
