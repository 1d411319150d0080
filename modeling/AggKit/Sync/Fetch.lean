import AggKit.Lib.Table
import AggKit.Sync.EVMDownloader

/-!
# What `GetEventsByBlockRange` returns

A call that returns has used up some answers of the node. If no log query was given up, its logs are
those of the blocks of the range, each block as one of these answers had it
(`getUnfilteredLogsFrom_spec`), and the blocks it returns are the logs grouped by block
(`assemble_spec`).

Two things make the call return without the logs: a single block with too many logs, and six
attempts in a row in which a block had changed between the query for its logs and the query for its
header. The second takes six changes of the chain of the node (`AtMostChanges`).
-/

namespace AggKit.Sync

open List

variable {H : Type}

/-! ## Log queries -/

/-- No query for a single block is refused because of the number of its logs. -/
def SingleBlockQueries (answers : List (Answer H)) : Prop :=
  ∀ a ∈ answers, ∀ b, a.fault (.filterLogs b b) ≠ some .queryReturnedMoreThan

/-- The logs of the queried addresses in a range, with the logs of each block as `chain` gives
them. -/
def Config.logsOn (cfg : Config H) (chain : ℕ → List (Log H)) (fromBlock toBlock : ℕ) :
    List (Log H) :=
  (List.range' fromBlock (toBlock + 1 - fromBlock)).flatMap fun b =>
    (chain b).filter cfg.watchesAddress

/-- Every block of a range is as one of the answers has it. -/
def SeenIn (answers : List (Answer H)) (chain : ℕ → List (Log H)) (fromBlock toBlock : ℕ) : Prop :=
  ∀ b, fromBlock ≤ b → b ≤ toBlock → ∃ a ∈ answers, a.node.logs b = chain b

variable {fromBlock toBlock : ℕ}

/-- Two consecutive ranges. -/
theorem Config.logsOn_append (cfg : Config H) (chain : ℕ → List (Log H)) {mid : ℕ}
    (hfrom : fromBlock ≤ mid + 1) (hto : mid ≤ toBlock) :
    cfg.logsOn chain fromBlock toBlock =
      cfg.logsOn chain fromBlock mid ++ cfg.logsOn chain (mid + 1) toBlock := by
  unfold Config.logsOn
  have hlength : toBlock + 1 - fromBlock = (mid + 1 - fromBlock) + (toBlock + 1 - (mid + 1)) := by
    omega
  have hstart : fromBlock + (mid + 1 - fromBlock) = mid + 1 := by omega
  rw [hlength, ← List.range'_append_1, hstart, flatMap_append]

theorem Config.logsOn_congr (cfg : Config H) {chain chain' : ℕ → List (Log H)}
    (hchain : ∀ b, fromBlock ≤ b → b ≤ toBlock → chain b = chain' b) :
    cfg.logsOn chain fromBlock toBlock = cfg.logsOn chain' fromBlock toBlock := by
  refine flatMap_congr fun b hb => ?_
  obtain ⟨hge, hlt⟩ := mem_range'_1.mp hb
  rw [hchain b hge (by omega)]

theorem Config.logsOn_eq_nil (cfg : Config H) (chain : ℕ → List (Log H))
    (hempty : toBlock < fromBlock) : cfg.logsOn chain fromBlock toBlock = [] := by
  unfold Config.logsOn
  rw [Nat.sub_eq_zero_of_le hempty, range'_zero, flatMap_nil]

variable {l : Log H}

theorem Config.mem_logsOn {cfg : Config H} {chain : ℕ → List (Log H)} :
    l ∈ cfg.logsOn chain fromBlock toBlock ↔
      ∃ b, (fromBlock ≤ b ∧ b ≤ toBlock) ∧ l ∈ chain b ∧ cfg.watchesAddress l = true := by
  unfold Config.logsOn
  simp only [mem_flatMap, mem_range'_1, mem_filter]
  refine exists_congr fun b => and_congr_left fun _ => ?_
  omega

theorem batchEnd_bounds {start batchSize : ℕ} (hbatch : 0 < batchSize) (hle : start ≤ toBlock) :
    start ≤ batchEnd start batchSize toBlock ∧ batchEnd start batchSize toBlock ≤ toBlock := by
  unfold batchEnd
  omega

/-- What the loop of `getUnfilteredLogs` returns from `start` on: the logs of the rest of the range,
or nothing at all after a single block with too many logs. -/
def Config.Fetched (cfg : Config H) (start toBlock : ℕ) (results : List (Log H))
    (answers : List (Answer H)) (logs : List (Log H)) (rest : List (Answer H)) : Prop :=
  ∃ used, answers = used ++ rest ∧
    ((logs = [] ∧ ¬SingleBlockQueries used) ∨
      ∃ chain, SeenIn used chain start toBlock ∧
        logs = results ++ cfg.logsOn chain start toBlock)

section fetched

variable {cfg : Config H} {toBlock start batchSize mid : ℕ} {a : Answer H}
  {answers rest : List (Answer H)} {results logs : List (Log H)}

theorem Config.Fetched.of_done (hdone : toBlock < start) :
    cfg.Fetched start toBlock results answers results answers := by
  refine ⟨[], rfl, .inr ⟨fun _ => [], ?_, ?_⟩⟩
  · intro b hge hle
    omega
  · rw [cfg.logsOn_eq_nil _ hdone, append_nil]

/-- An answer that leaves the loop where it is. -/
theorem Config.Fetched.of_fault (hrest : cfg.Fetched start toBlock results answers logs rest) :
    cfg.Fetched start toBlock results (a :: answers) logs rest := by
  obtain ⟨used, rfl, hused⟩ := hrest
  refine ⟨a :: used, rfl, hused.imp (And.imp_right (mt fun h a' ha' => h a' (.tail _ ha'))) ?_⟩
  rintro ⟨chain, hseen, hlogs⟩
  refine ⟨chain, fun b hge hle => ?_, hlogs⟩
  obtain ⟨a', ha', heq⟩ := hseen b hge hle
  exact ⟨a', .tail _ ha', heq⟩

/-- An answer with the logs up to `mid`. -/
theorem Config.Fetched.of_query (hstart : start ≤ mid) (hmid : mid ≤ toBlock)
    (hrest : cfg.Fetched (mid + 1) toBlock (results ++ cfg.filterQuery a.node start mid) answers
      logs rest) : cfg.Fetched start toBlock results (a :: answers) logs rest := by
  obtain ⟨used, rfl, hused⟩ := hrest
  refine ⟨a :: used, rfl, hused.imp (And.imp_right (mt fun h a' ha' => h a' (.tail _ ha'))) ?_⟩
  rintro ⟨chain, hseen, hlogs⟩
  -- the blocks up to `mid` are as this answer has them
  refine ⟨fun b => if b ≤ mid then a.node.logs b else chain b, fun b hge hle => ?_, ?_⟩
  · by_cases hb : b ≤ mid
    · exact ⟨a, .head _, (if_pos hb).symm⟩
    · obtain ⟨a', ha', heq⟩ := hseen b (by omega) hle
      exact ⟨a', .tail _ ha', heq.trans (if_neg hb).symm⟩
  · have hfirst : cfg.filterQuery a.node start mid =
        cfg.logsOn (fun b => if b ≤ mid then a.node.logs b else chain b) start mid :=
      @Config.logsOn_congr H start mid cfg a.node.logs _ fun b _ hle => (if_pos hle).symm
    have hsecond : cfg.logsOn chain (mid + 1) toBlock =
        cfg.logsOn (fun b => if b ≤ mid then a.node.logs b else chain b) (mid + 1) toBlock :=
      cfg.logsOn_congr fun b hge _ => (if_neg (by omega)).symm
    rw [hlogs, hfirst, hsecond, append_assoc, ← cfg.logsOn_append _ (by omega) hmid]

/-- A single block with too many logs. -/
theorem Config.Fetched.of_tooMany
    (hfault : a.fault (.filterLogs start start) = some .queryReturnedMoreThan) :
    cfg.Fetched start toBlock results (a :: answers) [] answers :=
  ⟨[a], rfl, .inl ⟨rfl, fun h => h a (.head _) start hfault⟩⟩

/-- The loop of `getUnfilteredLogs`. -/
theorem Config.getUnfilteredLogsFrom_spec (hbatch : start ≤ toBlock → 0 < batchSize)
    (h : cfg.getUnfilteredLogsFrom toBlock answers start batchSize results = some (logs, rest)) :
    cfg.Fetched start toBlock results answers logs rest := by
  fun_induction cfg.getUnfilteredLogsFrom toBlock answers start batchSize results with
  | case1 start batchSize results hdone | case3 a answers start batchSize results hdone =>
    cases h
    exact .of_done hdone
  | case2 => cases h
  | case4 a answers start batchSize results hdone hfault ih =>
    have hpos := hbatch (by omega)
    obtain ⟨hge, hle⟩ := batchEnd_bounds hpos (show start ≤ toBlock by omega)
    exact .of_query hge hle (ih (fun _ => hpos) h)
  | case5 a answers start results hdone hfault =>
    cases h
    have hsingle : batchEnd start 1 toBlock = start := by
      unfold batchEnd
      omega
    rw [hsingle] at hfault
    exact .of_tooMany hfault
  | case6 a answers start batchSize results hdone hfault hone ih =>
    exact .of_fault (ih (fun _ => by omega) h)
  | case7 a answers start batchSize results hdone fault hfault _ ih => exact .of_fault (ih hbatch h)

end fetched

/-! ## Grouping by block -/

/-- The log has a topic that is queried. -/
def Config.watchesTopic [DecidableEq H] (cfg : Config H) (l : Log H) : Bool :=
  !l.removed && match l.topics with
    | [] => false
    | topic :: _ => cfg.topicsToQuery.contains topic

/-- The log is of an address and a topic that are queried. -/
def Config.watches [DecidableEq H] (cfg : Config H) (l : Log H) : Bool :=
  cfg.watchesAddress l && cfg.watchesTopic l

variable {logs : List (Log H)}

theorem Config.filterLogs_eq_some [DecidableEq H] {cfg : Config H} {filtered : List (Log H)}
    (h : cfg.filterLogs logs = some filtered) : filtered = logs.filter cfg.watchesTopic := by
  fun_induction cfg.filterLogs logs generalizing filtered with
  | case1 => exact (Option.some.inj h).symm
  | case2 l logs hremoved ih =>
    rw [filter_cons_of_neg (by simp [Config.watchesTopic, hremoved]), ih h]
  | case3 => cases h
  | case4 l logs hremoved topic topics htopics ih =>
    obtain ⟨filtered', hrest, rfl⟩ := Option.map_eq_some_iff.mp h
    have hwatch : cfg.watchesTopic l = cfg.topicsToQuery.contains topic := by
      simp [Config.watchesTopic, hremoved, htopics]
    rw [filter_cons, hwatch, ← ih hrest]

/-- The logs are in the order of their blocks. -/
def InOrder (logs : List (Log H)) : Prop := logs.Pairwise fun l l' => l.blockNumber ≤ l'.blockNumber

/-- The blocks are those of the logs, in order, and have all the logs. -/
structure Grouped (logs : List (Log H)) (blocks : List (EVMBlock H)) : Prop where
  increasing : blocks.Pairwise fun b b' => b.num < b'.num
  hasLogs : ∀ l ∈ logs, ∃ b ∈ blocks, b.num = l.blockNumber ∧ l ∈ b.events
  ofLogs : ∀ b ∈ blocks, ∃ l ∈ logs, l.blockNumber = b.num

theorem pushEvent_concat (blocks : List (EVMBlock H)) (b : EVMBlock H) (l : Log H) :
    pushEvent (blocks ++ [b]) l = blocks ++ [{ b with events := b.events ++ [l] }] := by
  induction blocks with
  | nil => rfl
  | cons b' blocks ih =>
    cases blocks with
    | nil => rfl
    | cons b'' blocks =>
      rw [cons_append, cons_append, pushEvent]
      · exact congrArg (b' :: ·) ih
      · simp

/-- A log that starts a block. -/
theorem Grouped.newBlock {blocks : List (EVMBlock H)} (hG : Grouped logs blocks)
    (hstarts : startsBlock blocks l = true) (header : EVMBlockHeader H) :
    Grouped (logs ++ [l]) (blocks ++ [newBlock header l]) := by
  have hlast : ∀ b ∈ blocks, b.num < l.blockNumber := by
    intro b hb
    unfold startsBlock at hstarts
    cases hlast : blocks.getLast? with
    | none => exact absurd hb (getLast?_eq_none_iff.mp hlast ▸ not_mem_nil)
    | some last =>
      have hlt : last.num < l.blockNumber := by simpa [hlast] using hstarts
      rcases Table.rel_of_getLast? hG.increasing hlast hb with rfl | hbefore
      · exact hlt
      · exact hbefore.trans hlt
  constructor
  · refine pairwise_append.mpr ⟨hG.increasing, pairwise_singleton _ _, ?_⟩
    exact fun b hb => forall_mem_singleton.mpr (hlast b hb)
  · rw [forall_mem_append, forall_mem_singleton]
    refine ⟨fun l' hl' => ?_, _, mem_append_right _ (.head _), rfl, .head _⟩
    obtain ⟨b, hb, hnum, hevent⟩ := hG.hasLogs l' hl'
    exact ⟨b, mem_append_left _ hb, hnum, hevent⟩
  · rw [forall_mem_append, forall_mem_singleton]
    refine ⟨fun b hb => ?_, l, mem_append_right _ (.head _), rfl⟩
    obtain ⟨l', hl', hnum⟩ := hG.ofLogs b hb
    exact ⟨l', mem_append_left _ hl', hnum⟩

/-- A log of the latest block. -/
theorem Grouped.pushEvent {blocks : List (EVMBlock H)} (hG : Grouped logs blocks)
    (hstarts : startsBlock blocks l = false)
    (horder : ∀ l' ∈ logs, l'.blockNumber ≤ l.blockNumber) :
    Grouped (logs ++ [l]) (pushEvent blocks l) := by
  rcases eq_nil_or_concat blocks with rfl | ⟨blocks', last, rfl⟩
  · cases hstarts
  rw [concat_eq_append] at hG hstarts ⊢
  -- the latest block is not before the log's and, the logs being in order, not after it
  have hnum : last.num = l.blockNumber := by
    have hge : l.blockNumber ≤ last.num := by simpa [startsBlock] using hstarts
    obtain ⟨l', hl', hnum'⟩ := hG.ofLogs last (mem_append_right _ (.head _))
    exact le_antisymm (hnum' ▸ horder l' hl') hge
  rw [pushEvent_concat]
  constructor
  · have hincreasing := hG.increasing
    rw [pairwise_append] at hincreasing ⊢
    refine ⟨hincreasing.1, pairwise_singleton _ _, fun b hb => forall_mem_singleton.mpr ?_⟩
    exact hincreasing.2.2 b hb last (.head _)
  · rw [forall_mem_append, forall_mem_singleton]
    refine ⟨fun l' hl' => ?_, _, mem_append_right _ (.head _), hnum, mem_append_right _ (.head _)⟩
    obtain ⟨b, hb, hbnum, hevent⟩ := hG.hasLogs l' hl'
    rcases mem_append.mp hb with hb | hb
    · exact ⟨b, mem_append_left _ hb, hbnum, hevent⟩
    · obtain rfl := mem_singleton.mp hb
      exact ⟨_, mem_append_right _ (.head _), hbnum, mem_append_left _ hevent⟩
  · rw [forall_mem_append, forall_mem_singleton]
    refine ⟨fun b hb => ?_, l, mem_append_right _ (.head _), hnum.symm⟩
    obtain ⟨l', hl', hbnum⟩ := hG.ofLogs b (mem_append_left _ hb)
    exact ⟨l', mem_append_left _ hl', hbnum⟩

section attempts

variable {cfg : Config H} {fromBlock toBlock : ℕ} {answers used rest : List (Answer H)}
  {logs done : List (Log H)} {blocks : List (EVMBlock H)} {chain : ℕ → List (Log H)}

/-- A header is read from one of the answers. -/
theorem getBlockHeader_eq_some {blockNum : ℕ} {header : EVMBlockHeader H}
    (h : getBlockHeader blockNum answers = some (header, rest)) :
    ∃ used, answers = used ++ rest ∧ ∃ a ∈ used, a.node.header blockNum = header := by
  fun_induction getBlockHeader blockNum answers with
  | case1 => cases h
  | case2 a answers hfault =>
    cases h
    exact ⟨[a], rfl, a, .head _, rfl⟩
  | case3 a answers fault hfault ih =>
    obtain ⟨used, rfl, a', ha', heq⟩ := ih h
    exact ⟨a :: used, rfl, a', .tail _ ha', heq⟩

variable {l : Log H}

theorem appendLog_eq_some (h : appendLog l answers = some rest) :
    ∃ used, answers = used ++ rest := by
  fun_induction appendLog l answers with
  | case1 => cases h
  | case2 a answers hfault => exact ⟨[a], congrArg (a :: ·) (Option.some.inj h)⟩
  | case3 a answers fault hfault ih =>
    obtain ⟨used, rfl⟩ := ih h
    exact ⟨a :: used, rfl⟩

/-- What an outcome says about the logs and the answers it was made from: it groups the logs, or one
of the blocks has another hash in an answer than its log. -/
def Assembled.Explained (logs : List (Log H)) (used : List (Answer H)) : Assembled H → Prop
  | .blocks blocks => Grouped logs blocks
  | .hashChange => ∃ l ∈ logs, ∃ a ∈ used, (a.node.header l.blockNumber).hash ≠ l.blockHash

variable {outcome : Assembled H}

theorem Assembled.Explained.append {used1 used2 : List (Answer H)}
    (h : outcome.Explained logs used2) : outcome.Explained logs (used1 ++ used2) := by
  cases outcome with
  | blocks blocks => exact h
  | hashChange =>
    obtain ⟨l, hl, a, ha, hne⟩ := h
    exact ⟨l, hl, a, mem_append_right _ ha, hne⟩

/-- A log of a range is of its block. -/
theorem SeenIn.blockNumber (hseen : SeenIn answers chain fromBlock toBlock) {b : ℕ}
    (hb : fromBlock ≤ b ∧ b ≤ toBlock) (hl : l ∈ chain b) :
    l.blockNumber = b ∧ ∃ a ∈ answers, l ∈ a.node.logs b := by
  obtain ⟨a, ha, heq⟩ := hseen b hb.1 hb.2
  rw [← heq] at hl
  exact ⟨a.node.logs_blockNumber b l hl, a, ha, hl⟩

/-- The logs of a range are in order. -/
theorem SeenIn.inOrder (hseen : SeenIn answers chain fromBlock toBlock) :
    InOrder (cfg.logsOn chain fromBlock toBlock) := by
  have hnum : ∀ b ∈ List.range' fromBlock (toBlock + 1 - fromBlock),
      ∀ l ∈ (chain b).filter cfg.watchesAddress, l.blockNumber = b := by
    intro b hb l hl
    have hb' := mem_range'_1.mp hb
    exact (hseen.blockNumber (by omega) (mem_of_mem_filter hl)).1
  unfold InOrder Config.logsOn
  rw [pairwise_flatMap]
  constructor
  · intro b hb
    refine pairwise_of_forall_mem_list fun l hl l' hl' => ?_
    rw [hnum b hb l hl, hnum b hb l' hl']
  · refine List.Pairwise.imp_of_mem ?_ pairwise_lt_range'
    intro b b' hb hb' hlt l hl l' hl'
    rw [hnum b hb l hl, hnum b' hb' l' hl']
    exact hlt.le

theorem SeenIn.mono (hseen : SeenIn answers chain fromBlock toBlock) (hsub : answers ⊆ rest) :
    SeenIn rest chain fromBlock toBlock := by
  intro b hge hle
  obtain ⟨a, ha, heq⟩ := hseen b hge hle
  exact ⟨a, hsub ha, heq⟩

theorem Grouped.nil : Grouped ([] : List (Log H)) [] := ⟨List.Pairwise.nil, by simp, by simp⟩

/-- All answers are of one chain. -/
def Unchanged (answers : List (Answer H)) : Prop :=
  ∀ a ∈ answers, ∀ a' ∈ answers, a.node = a'.node

/-- The chain of the node changes at most `n` times during the answers. -/
def AtMostChanges : ℕ → List (Answer H) → Prop
  | 0, answers => Unchanged answers
  | n + 1, answers => ∃ piece rest, answers = piece ++ rest ∧ Unchanged piece ∧ AtMostChanges n rest

theorem Unchanged.subset (hanswers : Unchanged answers) (hsub : rest ⊆ answers) :
    Unchanged rest :=
  fun a ha a' ha' => hanswers a (hsub ha) a' (hsub ha')

theorem Unchanged.atMostChanges {n : ℕ} (hanswers : Unchanged answers) :
    AtMostChanges n answers := by
  induction n with
  | zero => exact hanswers
  | succ n ih => exact ⟨[], answers, rfl, fun a ha => absurd ha not_mem_nil, ih⟩

theorem AtMostChanges.suffix {n : ℕ} (h : AtMostChanges n (used ++ rest)) :
    AtMostChanges n rest := by
  induction n generalizing used with
  | zero => exact h.subset (subset_append_right _ _)
  | succ n ih =>
    obtain ⟨piece, rest', heq, hpiece, hrest'⟩ := h
    rcases append_eq_append_iff.mp heq with ⟨mid, rfl, rfl⟩ | ⟨mid, rfl, rfl⟩
    · exact ⟨mid, rest', rfl, hpiece.subset (subset_append_right _ _), hrest'⟩
    · exact ⟨[], rest, rfl, fun a ha => absurd ha not_mem_nil, ih hrest'⟩

/-- After answers with a change, there is one change less to come. -/
theorem AtMostChanges.after_change {n : ℕ} (h : AtMostChanges (n + 1) (used ++ rest))
    (hchange : ¬Unchanged used) : AtMostChanges n rest := by
  obtain ⟨piece, rest', heq, hpiece, hrest'⟩ := h
  rcases append_eq_append_iff.mp heq with ⟨mid, rfl, rfl⟩ | ⟨mid, rfl, rfl⟩
  · exact absurd (hpiece.subset (subset_append_left _ _)) hchange
  · exact hrest'.suffix

variable [DecidableEq H]

/-- The loop over the logs, started with blocks that group the logs before them. -/
theorem assemble_spec (hG : Grouped done blocks) (horder : InOrder (done ++ logs))
    (h : assemble logs blocks answers = some (outcome, rest)) :
    ∃ used, answers = used ++ rest ∧ outcome.Explained (done ++ logs) used := by
  have hcons : ∀ l logs, done ++ l :: logs = done ++ [l] ++ logs := by simp
  fun_induction assemble logs blocks answers generalizing done with
  | case1 blocks answers =>
    cases h
    rw [append_nil]
    exact ⟨[], rfl, hG⟩
  | case2 | case4 | case6 => cases h
  | case3 l logs blocks answers hstarts header answers1 hheader hhash =>
    obtain ⟨used1, rfl, a, ha, rfl⟩ := getBlockHeader_eq_some hheader
    cases h
    exact ⟨used1, rfl, l, mem_append_right _ (.head _), a, ha, hhash⟩
  | case5 l logs blocks answers hstarts header answers1 hheader hhash answers2 happend ih =>
    obtain ⟨used1, rfl, -⟩ := getBlockHeader_eq_some hheader
    obtain ⟨used2, rfl⟩ := appendLog_eq_some happend
    rw [hcons] at horder ⊢
    obtain ⟨used3, rfl, hout⟩ := ih (hG.newBlock hstarts _) horder h (by simp)
    exact ⟨used1 ++ used2 ++ used3, by simp, hout.append⟩
  | case7 l logs blocks answers hstarts answers1 happend ih =>
    have hle : ∀ l' ∈ done, l'.blockNumber ≤ l.blockNumber := fun l' hl' =>
      (pairwise_append.mp horder).2.2 l' hl' l (.head _)
    obtain ⟨used1, rfl⟩ := appendLog_eq_some happend
    rw [hcons] at horder ⊢
    obtain ⟨used2, rfl, hout⟩ :=
      ih (hG.pushEvent (by simpa using hstarts) hle) horder h (by simp)
    exact ⟨used1 ++ used2, by simp, hout.append⟩

/-- The queried logs of a range. -/
def Config.watchedOn (cfg : Config H) (chain : ℕ → List (Log H)) (fromBlock toBlock : ℕ) :
    List (Log H) :=
  (cfg.logsOn chain fromBlock toBlock).filter cfg.watchesTopic

theorem Config.mem_watchedOn :
    l ∈ cfg.watchedOn chain fromBlock toBlock ↔
      ∃ b, (fromBlock ≤ b ∧ b ≤ toBlock) ∧ l ∈ chain b ∧ cfg.watches l = true := by
  unfold Config.watchedOn Config.watches
  rw [mem_filter, Config.mem_logsOn, Bool.and_eq_true_iff]
  constructor
  · rintro ⟨⟨b, hb, hl, haddress⟩, htopic⟩
    exact ⟨b, hb, hl, haddress, htopic⟩
  · rintro ⟨b, hb, hl, haddress, htopic⟩
    exact ⟨⟨b, hb, hl, haddress⟩, htopic⟩

/-- The logs that an attempt groups: some of the queried logs of the range, in order, each from one
of the answers. -/
structure Config.Found (cfg : Config H) (used : List (Answer H)) (fromBlock toBlock : ℕ)
    (logs : List (Log H)) : Prop where
  inOrder : InOrder logs
  inRange : ∀ l ∈ logs, fromBlock ≤ l.blockNumber ∧ l.blockNumber ≤ toBlock
  watched : ∀ l ∈ logs, cfg.watches l = true
  inAnswer : ∀ l ∈ logs, ∃ a ∈ used, l ∈ a.node.logs l.blockNumber

theorem SeenIn.found (hseen : SeenIn answers chain fromBlock toBlock)
    (hsub : logs.Sublist (cfg.watchedOn chain fromBlock toBlock)) :
    cfg.Found answers fromBlock toBlock logs := by
  have hmem : ∀ l ∈ logs, (fromBlock ≤ l.blockNumber ∧ l.blockNumber ≤ toBlock) ∧
      cfg.watches l = true ∧ ∃ a ∈ answers, l ∈ a.node.logs l.blockNumber := by
    intro l hl
    obtain ⟨b, hb, hchain, hwatched⟩ := Config.mem_watchedOn.mp (hsub.subset hl)
    obtain ⟨hnum, ha⟩ := hseen.blockNumber hb hchain
    rw [hnum]
    exact ⟨hb, hwatched, ha⟩
  exact ⟨hseen.inOrder.sublist (hsub.trans filter_sublist), fun l hl => (hmem l hl).1,
    fun l hl => (hmem l hl).2.1, fun l hl => (hmem l hl).2.2⟩

theorem Config.Found.mono {used' : List (Answer H)} (hfound : cfg.Found used fromBlock toBlock logs)
    (hsub : used ⊆ used') : cfg.Found used' fromBlock toBlock logs := by
  refine ⟨hfound.inOrder, hfound.inRange, hfound.watched, fun l hl => ?_⟩
  obtain ⟨a, ha, hmem⟩ := hfound.inAnswer l hl
  exact ⟨a, hsub ha, hmem⟩

theorem Config.Found.nil : cfg.Found answers fromBlock toBlock [] :=
  ⟨List.Pairwise.nil, by simp, by simp, by simp⟩

/-- The hook only drops logs. -/
def Config.HookDrops (cfg : Config H) : Prop :=
  ∀ fromBlock toBlock logs, (cfg.applyLogsHook fromBlock toBlock logs).Sublist logs

/-- An attempt that ends groups some logs of the range or sees a block change; without a hook, and
unless a single block has too many logs, these are all the logs that are queried. -/
theorem Config.attempt_spec (hhook : cfg.HookDrops)
    (h : cfg.attempt fromBlock toBlock answers = some (outcome, rest)) :
    ∃ used logs, answers = used ++ rest ∧ cfg.Found used fromBlock toBlock logs ∧
      outcome.Explained logs used ∧
      (cfg.logsHook = none → SingleBlockQueries used →
        ∃ chain, SeenIn used chain fromBlock toBlock ∧
          logs = cfg.watchedOn chain fromBlock toBlock) := by
  unfold Config.attempt at h
  split at h
  · cases h
  rename_i unfilteredLogs answers1 hlogs
  split at h
  · cases h
  rename_i filtered hfilter
  obtain rfl := Config.filterLogs_eq_some hfilter
  obtain ⟨used1, rfl, hused1⟩ := Config.getUnfilteredLogsFrom_spec (by omega) hlogs
  have hsub := hhook fromBlock toBlock (unfilteredLogs.filter cfg.watchesTopic)
  have hfound : cfg.Found used1 fromBlock toBlock
      (cfg.applyLogsHook fromBlock toBlock (unfilteredLogs.filter cfg.watchesTopic)) := by
    rcases hused1 with ⟨rfl, -⟩ | ⟨chain, hseen, rfl⟩
    · rw [filter_nil, sublist_nil] at hsub
      rw [filter_nil, hsub]
      exact Config.Found.nil
    · exact hseen.found hsub
  obtain ⟨used2, rfl, hout⟩ := assemble_spec Grouped.nil hfound.inOrder h
  refine ⟨used1 ++ used2, _, by simp, hfound.mono (subset_append_left _ _), hout.append, ?_⟩
  intro hnone hsingle
  have hsingle1 : SingleBlockQueries used1 := fun a ha => hsingle a (mem_append_left _ ha)
  obtain ⟨chain, hseen, rfl⟩ := hused1.resolve_left fun hdropped => hdropped.2 hsingle1
  refine ⟨chain, hseen.mono (subset_append_left _ _), ?_⟩
  rw [nil_append, Config.applyLogsHook, hnone]
  rfl

/-- A block that changes within an attempt takes a change of the chain. -/
theorem Config.Found.unchanged (hfound : cfg.Found used fromBlock toBlock logs)
    (hsame : Unchanged used) : ¬(Assembled.hashChange : Assembled H).Explained logs used := by
  rintro ⟨l, hl, a, ha, hne⟩
  obtain ⟨a', ha', hmem⟩ := hfound.inAnswer l hl
  rw [hsame a ha a' ha'] at hne
  exact hne (a'.node.logs_blockHash l.blockNumber l hmem).symm

/-- What a call of `GetEventsByBlockRange` returns: blocks that group logs of the range or, when it
has given up, nothing. It does not give up if the chain changes no more often than it retries. -/
theorem Config.getEventsWithRetry_spec {retries : ℕ} (hhook : cfg.HookDrops)
    (h : cfg.getEventsWithRetry fromBlock toBlock retries answers = some (blocks, rest)) :
    ∃ used logs, answers = used ++ rest ∧ cfg.Found used fromBlock toBlock logs ∧
      Grouped logs blocks ∧
      (cfg.logsHook = none → SingleBlockQueries answers → AtMostChanges retries answers →
        ∃ chain, SeenIn answers chain fromBlock toBlock ∧
          logs = cfg.watchedOn chain fromBlock toBlock) := by
  have hleft : ∀ {l l' : List (Answer H)}, l ⊆ l ++ l' := @fun l l' => subset_append_left l l'
  have hright : ∀ {l l' : List (Answer H)}, l' ⊆ l ++ l' := @fun l l' => subset_append_right l l'
  fun_induction cfg.getEventsWithRetry fromBlock toBlock retries answers with
  | case1 => cases h
  | case2 retries answers blocks answers1 hattempt =>
    cases h
    obtain ⟨used, logs, rfl, hfound, hout, hcomplete⟩ := Config.attempt_spec hhook hattempt
    refine ⟨used, logs, rfl, hfound, hout, fun hnone hsingle _ => ?_⟩
    obtain ⟨chain, hseen, hlogs⟩ := hcomplete hnone fun a ha => hsingle a (hleft ha)
    exact ⟨chain, hseen.mono hleft, hlogs⟩
  | case3 answers answers1 hattempt =>
    cases h
    obtain ⟨used, logs, rfl, hfound, hout, -⟩ := Config.attempt_spec hhook hattempt
    refine ⟨used, [], rfl, Config.Found.nil, Grouped.nil, fun _ _ hchanges => ?_⟩
    exact absurd hout (hfound.unchanged (Unchanged.subset hchanges hleft))
  | case4 answers answers1 hattempt retries ih =>
    -- the attempt has seen a change, so the ones that are left see one less
    obtain ⟨used, logs, rfl, hfound, hout, -⟩ := Config.attempt_spec hhook hattempt
    obtain ⟨used', logs', rfl, hfound', hgrouped, hcomplete'⟩ := ih h
    refine ⟨used ++ used', logs', by simp, hfound'.mono hright, hgrouped,
      fun hnone hsingle hchanges => ?_⟩
    have hafter := hchanges.after_change fun hsame => hfound.unchanged hsame hout
    obtain ⟨chain, hseen, hlogs⟩ := hcomplete' hnone (fun a ha => hsingle a (hright ha)) hafter
    exact ⟨chain, hseen.mono hright, hlogs⟩

end attempts

end AggKit.Sync
