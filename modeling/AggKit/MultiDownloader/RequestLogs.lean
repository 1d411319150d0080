import AggKit.MultiDownloader.Model
import Mathlib.Algebra.Group.Nat.Defs

/-!
# The range that the logs are for

When a node refuses a query because of too many results, `requestLogs` tries the range that the error
message suggests. The comment in the code wants that range inside the one refused. What is checked is
whether they overlap, and a range that does not is tried all the same, after the chunk size was reduced,
which no later query uses. A message without a range is a `nil` pointer that is read.

So the range of the returned query is whatever the node suggested last. `requestLogs_iff` says for which
answers it is the start of the range that was asked for.
-/

namespace AggKit.MultiDownloader

open Multidownloader

variable {A H : Type}

/-- A range with blocks at the start of another. -/
def BlockRange.Leads (b query : BlockRange) : Prop :=
  b.isEmpty = false ∧ b.fromBlock = query.fromBlock ∧ b.toBlock ≤ query.toBlock

/-- The ranges that the node suggests before its first other answer, and its answers from there on. -/
def refusals : List (LogsReply A H) → List BlockRange × List (LogsReply A H)
  | .tooManyResults (some suggested) :: replies =>
    (suggested :: (refusals replies).1, (refusals replies).2)
  | replies => ([], replies)

/-- How many suggested ranges do not overlap the range that was tried before. -/
def misses : BlockRange → List BlockRange → ℕ
  | _, [] => 0
  | tried, suggested :: rest => (if tried.overlaps suggested then 0 else 1) + misses suggested rest

/-- The chunk size is used up by the suggested ranges. -/
def GivesUp (chunk : ℕ) (tried : BlockRange) (suggested : List BlockRange) : Prop :=
  0 < misses tried suggested ∧ chunk < 10 ^ misses tried suggested

/-- The answers for which a query returns the start of its range: the chunk size is used up first, or the
first answer after the suggestions is no refusal without a range and, if it has logs, the range suggested
last is the start of the range that was asked for. -/
def Suggests (chunk : ℕ) (query : BlockRange) (replies : List (LogsReply A H)) : Prop :=
  GivesUp chunk query (refusals replies).1 ∨
    ((refusals replies).2.head? ≠ some (.tooManyResults none) ∧
      ∀ logs, (refusals replies).2.head? = some (.logs logs) →
        (((refusals replies).1.getLast?).getD query).Leads query)

/-- A query is answered in order: it does not crash, and logs come with the start of its range. -/
def Ordered (q : LogQuery A H) (result : Except (StepError A) (Download A H)) : Prop :=
  result ≠ .error .nilSuggestion ∧
    ∀ d, result = .ok d → d.query.addrs = q.addrs ∧ d.query.blockRange.Leads q.blockRange

/-! ## The loop -/

section loop

variable (q : LogQuery A H) {chunk : ℕ} {tried suggested : BlockRange}

theorem givesUp_of_overlaps {rest : List BlockRange} (hover : tried.overlaps suggested = true) :
    GivesUp chunk tried (suggested :: rest) ↔ GivesUp chunk suggested rest := by
  have hmisses : misses tried (suggested :: rest) = misses suggested rest := by
    rw [misses, if_pos hover, Nat.zero_add]
  rw [GivesUp, hmisses, GivesUp]

theorem givesUp_of_not_overlaps {rest : List BlockRange} (hover : tried.overlaps suggested ≠ true) :
    GivesUp chunk tried (suggested :: rest) ↔ chunk / 10 < 1 ∨ GivesUp (chunk / 10) suggested rest := by
  have hmisses : misses tried (suggested :: rest) = misses suggested rest + 1 := by
    rw [misses, if_neg hover, Nat.add_comm]
  have hpow := Nat.one_le_pow (misses suggested rest) 10 (by decide)
  rw [GivesUp, hmisses, GivesUp, Nat.pow_succ]
  rcases Nat.eq_zero_or_pos (misses suggested rest) with hzero | hpos
  · rw [hzero]
    omega
  · omega

/-- What the loop does with the suggested ranges: it gives up, or it tries the last one. -/
theorem requestLogsFrom_refusals (chunk : ℕ) (tried : BlockRange) (replies : List (LogsReply A H)) :
    (GivesUp chunk tried (refusals replies).1 ∧
        requestLogsFrom q chunk tried replies = .error .chunkSize) ∨
      (¬ GivesUp chunk tried (refusals replies).1 ∧ ∃ chunk', requestLogsFrom q chunk tried replies =
        requestLogsFrom q chunk' (((refusals replies).1.getLast?).getD tried)
          (refusals replies).2) := by
  have hnil : ∀ chunk tried, ¬ GivesUp chunk tried [] := fun _ _ h => Nat.lt_irrefl 0 h.1
  fun_induction requestLogsFrom q chunk tried replies with
  | case1 | case2 | case3 | case4 => exact .inr ⟨hnil _ _, 0, rfl⟩
  | case5 chunk tried suggested replies hover ih =>
    simp only [refusals, givesUp_of_overlaps hover, List.getLast?_cons, Option.getD_some]
    exact ih
  | case6 chunk tried suggested replies hover hchunk =>
    exact .inl ⟨(givesUp_of_not_overlaps hover).mpr (.inl hchunk), rfl⟩
  | case7 chunk tried suggested replies hover hchunk ih =>
    simp only [refusals, givesUp_of_not_overlaps hover, hchunk, false_or, List.getLast?_cons,
      Option.getD_some]
    exact ih

/-- The answers after the suggestions start with another one. -/
theorem head_refusals (replies : List (LogsReply A H)) (suggested : BlockRange) :
    (refusals replies).2.head? ≠ some (.tooManyResults (some suggested)) := by
  fun_induction refusals replies with
  | case1 suggested' replies ih => exact ih
  | case2 replies hnot =>
    intro hhead
    obtain ⟨rest, rfl⟩ := List.head?_eq_some_iff.mp hhead
    exact hnot _ _ rfl

/-- A query is answered in order exactly for such answers. -/
theorem ordered_requestLogsFrom_iff (replies : List (LogsReply A H)) :
    Ordered q (requestLogsFrom q chunk q.blockRange replies) ↔
      Suggests chunk q.blockRange replies := by
  unfold Suggests
  have hother : ∀ e : StepError A, e ≠ .nilSuggestion → Ordered q (.error e) := fun e he =>
    ⟨fun heq => he (Except.error.inj heq), fun d hd => nomatch hd⟩
  obtain ⟨hgives, heq⟩ | ⟨hgives, chunk', heq⟩ := requestLogsFrom_refusals q chunk q.blockRange replies
  · rw [heq]
    exact iff_of_true (hother _ nofun) (.inl hgives)
  · rw [heq, or_iff_right hgives]
    have hfirst := head_refusals replies
    generalize (refusals replies).2 = rest at hfirst ⊢
    rcases rest with _ | ⟨logs | ⟨_ | suggested⟩ | _, rest⟩
    · exact iff_of_true (hother _ nofun) ⟨nofun, nofun⟩
    · -- the logs come with the range that was tried last
      constructor
      · exact fun h => ⟨nofun, fun _ _ => (h.2 _ rfl).2⟩
      · intro h
        refine ⟨nofun, fun d hd => ?_⟩
        cases hd
        exact ⟨rfl, h.2 logs rfl⟩
    · exact iff_of_false (fun h => h.1 rfl) fun h => h.1 rfl
    · exact absurd rfl (hfirst suggested)
    · exact iff_of_true (hother _ nofun) ⟨nofun, nofun⟩

end loop

/-- For every state and all answers of the node, `requestLogs` does not crash and returns logs only with
the start of the range of `NextQuery`, if and only if the node suggests ranges that way. -/
theorem requestLogs_iff [DecidableEq A] (blockChunkSize : ℕ) (s : State A)
    (answers : SafeAnswers A H) :
    (requestLogs blockChunkSize s answers ≠ .error .nilSuggestion ∧
      ∀ d, requestLogs blockChunkSize s answers = .ok (some d) →
        ∃ finalized, ∃ q : LogQuery A H, answers.finalized = some finalized ∧
          SetSyncSegment.nextQuery s.pending blockChunkSize finalized = .ok q ∧
          d.query.addrs = q.addrs ∧ d.query.blockRange.Leads q.blockRange) ↔
      ∀ finalized, answers.finalized = some finalized → ∀ q : LogQuery A H,
        SetSyncSegment.nextQuery s.pending blockChunkSize finalized = .ok q →
        Suggests blockChunkSize q.blockRange answers.logs := by
  unfold requestLogs
  cases answers.finalized with
  | none => simp
  | some finalized =>
    simp only [Option.some.injEq]
    cases hquery : (SetSyncSegment.nextQuery s.pending blockChunkSize finalized :
        Except (SegmentError A) (LogQuery A H)) with
    | error e =>
      refine iff_of_true ⟨?_, ?_⟩ ?_
      · split <;> simp_all
      · split <;> simp_all
      · rintro _ rfl q hq
        exact nomatch hquery.symm.trans hq
    | ok q =>
      have hmap : ∀ x : Except (StepError A) (Download A H),
          (x.map some = .error .nilSuggestion ↔ x = .error .nilSuggestion) ∧
            ∀ d, x.map some = .ok (some d) ↔ x = .ok d := by
        rintro (_ | _) <;> simp [Except.map]
      have hordered := @ordered_requestLogsFrom_iff A H q blockChunkSize answers.logs
      unfold Ordered at hordered
      simpa [hmap, hquery] using hordered

/-- A query for the blocks 10 to 19 is refused with the suggestion of the blocks 15 to 30. -/
def beyondAnswers : SafeAnswers ℕ ℕ :=
  ⟨some 19, [.tooManyResults (some (.new 15 30)), .logs []], none⟩

/-- The contract is pending from block 10 on. -/
def pendingTen : State ℕ := ⟨Table.Keyed.empty, ⟨[⟨7, .new 10 100⟩], by decide⟩⟩

/-- The blocks 15 to 30 come back as the range that was downloaded: the blocks 10 to 14 are left out, and
those after the finalized block 19 are taken in. Without a range in the message the call crashes. -/
theorem requestLogs_beyond_query :
    (∃ d, requestLogs 10 pendingTen beyondAnswers = .ok (some d) ∧
      d.query.blockRange = .new 15 30) ∧
      requestLogs 10 pendingTen
        { beyondAnswers with logs := [.tooManyResults none] } = .error .nilSuggestion :=
  ⟨⟨_, rfl, rfl⟩, rfl⟩

end AggKit.MultiDownloader
