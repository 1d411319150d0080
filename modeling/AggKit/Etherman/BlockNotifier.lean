import Mathlib.Data.List.Basic
import Mathlib.Order.MinMax
import Mathlib.Algebra.Group.Int.Defs
import Mathlib.Algebra.Group.Nat.Defs

/-!
# The block notifier of `etherman/block_notifier/block_notifier_polling.go`

`step` asks the node for the current block and compares its number with that of the last status.
`Initialize` and the loop of `Start` store the status for the readers of `GetCurrentBlockNumber`;
the loop itself begins without one.

A failed poll leaves an empty status, in which the last block seen is 0. The readers then lose the
number, and the next answer is compared with 0. `faithful_iff` says for which sequences of answers
this makes no difference.
-/

namespace AggKit.BlockNotifier

open List

variable {F : Type}

/-- `ConfigBlockNotifierPolling`. Durations are in nanoseconds, times in nanoseconds since the zero
time of Go. -/
structure Config (F : Type) where
  blockFinalityType : F
  checkNewBlockInterval : ℤ

/-- `blockNotifierPollingInternalStatus`. -/
structure Status where
  lastBlockSeen : ℕ
  lastBlockTime : ℤ
  previousBlockTime : Option ℤ

/-- `EventNewBlock`. -/
structure EventNewBlock (F : Type) where
  blockNumber : ℕ
  blockFinalityType : F
  blockRate : ℤ

/-- A call of `step`: what the node answers, and the two times that are read. -/
structure Poll where
  answer : Except String ℕ
  now : ℤ
  nowForDelay : ℤ

/-- `time.Time.Sub`, which saturates. -/
def sub (t u : ℤ) : ℤ := max (-2 ^ 63) (min (2 ^ 63 - 1) (t - u))

def minBlockInterval : ℤ := 1000000000

def maxBlockInterval : ℤ := 60 * minBlockInterval

/-- `nextBlockRequestDelay`, with `AutomaticBlockInterval` and `percentForNextBlock` as numbers. -/
def nextBlockRequestDelay (cfg : Config F) (now : ℤ) (status : Option Status)
    (err : Option String) : ℤ :=
  if cfg.checkNewBlockInterval ≠ 0 then cfg.checkNewBlockInterval
  else match status with
    | none => minBlockInterval
    | some s => match s.previousBlockTime with
      | none => minBlockInterval
      | some previousBlockTime =>
        if err.isSome then minBlockInterval * 2
        else
          let distance := sub (s.lastBlockTime + previousBlockTime) now
          max minBlockInterval (min maxBlockInterval (((distance * 80).bmod (2 ^ 64)).tdiv 100))

def clear : Status := ⟨0, 0, none⟩

def initialBlock (block : ℕ) (now : ℤ) : Status := ⟨block, now, none⟩

def Status.incomingNewBlock (s : Status) (block : ℕ) (now : ℤ) : Status :=
  ⟨block, now, some (sub now s.lastBlockTime)⟩

/-- `step`: the delay until the next one, the new status and the event to emit. -/
def step (cfg : Config F) (p : Poll) (previousState : Option Status) :
    ℤ × Status × Option (EventNewBlock F) :=
  let delay := nextBlockRequestDelay cfg p.nowForDelay
  match p.answer, previousState with
  | .error err, _ => (delay none (some err), clear, none)
  | .ok currentBlock, none => (delay none none, initialBlock currentBlock p.now, none)
  | .ok currentBlock, some previous =>
    if currentBlock = previous.lastBlockSeen then (delay previousState none, previous, none)
    else
      let eventToEmit := ⟨currentBlock, cfg.blockFinalityType, 0⟩
      if previous.lastBlockSeen > currentBlock then
        (delay none none, initialBlock currentBlock p.now, some eventToEmit)
      else if currentBlock - previous.lastBlockSeen ≠ 1 then
        (delay none none, initialBlock currentBlock p.now, some eventToEmit)
      else
        let newState := previous.incomingNewBlock currentBlock p.now
        (delay (some newState) none, newState,
          some { eventToEmit with blockRate := newState.previousBlockTime.getD 0 })

/-- The status of the loop and `lastStatus`, which the readers see. -/
structure State where
  status : Option Status
  lastStatus : Option Status

/-- `Initialize`. -/
def initialized (cfg : Config F) (p : Poll) : State := ⟨none, some (step cfg p none).2.1⟩

/-- One round of the loop of `Start`, with the event it publishes. -/
def State.poll (cfg : Config F) (s : State) (p : Poll) : State × Option (EventNewBlock F) :=
  let (_, newStatus, event) := step cfg p s.status
  (⟨some newStatus, some newStatus⟩, event)

/-- `GetCurrentBlockNumber`. -/
def State.getCurrentBlockNumber (s : State) : ℕ :=
  match s.lastStatus with
  | none => 0
  | some status => status.lastBlockSeen

/-- `Initialize` and some rounds of `Start`. -/
def start (cfg : Config F) (init : Poll) (polls : List Poll) : State :=
  polls.foldl (fun s p => (s.poll cfg p).1) (initialized cfg init)

/-! ## What an observer expects -/

/-- The last block number that the node has answered. -/
def observed (polls : List Poll) : Option ℕ :=
  (polls.filterMap fun p => p.answer.toOption).getLast?

/-- The block number to publish for an answer: one that differs from the last. -/
def newBlock (last : Option ℕ) (answer : Except String ℕ) : Option ℕ :=
  match answer, last with
  | .ok n, some m => if n = m then none else some n
  | _, _ => none

/-- The readers always see the last block number, and it is new numbers that are published. -/
structure Faithful (cfg : Config F) (init : Poll) (polls : List Poll) : Prop where
  current : ∀ ps, ps <+: polls →
    (start cfg init ps).getCurrentBlockNumber = (observed (init :: ps)).getD 0
  published : ∀ ps p, ps ++ [p] <+: polls →
    ((start cfg init ps).poll cfg p).2.map (·.blockNumber) =
      newBlock (observed (init :: ps)) p.answer

/-- No block other than 0 was seen before a failure or is the first one to be seen after it, and the
first answer to `Start` is the answer to `Initialize`. -/
structure Steady (init : Poll) (polls : List Poll) : Prop where
  failure : ∀ ps p err, ps ++ [p] <+: polls → p.answer = .error err →
    (observed (init :: ps)).getD 0 = 0
  recovery : ∀ ps q p n, ps ++ [q] ++ [p] <+: polls → observed (init :: (ps ++ [q])) = none →
    p.answer = .ok n → n = 0
  first : ∀ p n m, [p] <+: polls → p.answer = .ok n → observed [init] = some m → n = m

/-! ## One poll -/

section step

variable {cfg : Config F}

/-- The block number in the status after a poll: that of the answer, or 0. -/
theorem lastBlockSeen_step (p : Poll) (previous : Option Status) :
    (step cfg p previous).2.1.lastBlockSeen = p.answer.toOption.getD 0 := by
  unfold step
  split <;> rename_i hanswer <;> rw [hanswer]
  · rfl
  · rfl
  · split_ifs with hsame
    · exact hsame.symm
    all_goals rfl

/-- An answer is published when there is a status with another number. -/
theorem event_step (p : Poll) (previous : Option Status) :
    (step cfg p previous).2.2.map (·.blockNumber) =
      newBlock (previous.map (·.lastBlockSeen)) p.answer := by
  unfold step newBlock
  cases p.answer with
  | error err => rfl
  | ok n =>
    cases previous with
    | none => rfl
    | some previous =>
      simp only [Option.map_some]
      split_ifs <;> rfl

theorem start_concat (init : Poll) (ps : List Poll) (p : Poll) :
    start cfg init (ps ++ [p]) = ((start cfg init ps).poll cfg p).1 := by
  rw [start, foldl_append]
  rfl

theorem current_concat (init : Poll) (ps : List Poll) (p : Poll) :
    (start cfg init (ps ++ [p])).getCurrentBlockNumber = p.answer.toOption.getD 0 := by
  rw [start_concat]
  exact lastBlockSeen_step p _

theorem published_concat (init : Poll) (ps : List Poll) (q p : Poll) :
    ((start cfg init (ps ++ [q])).poll cfg p).2.map (·.blockNumber) =
      newBlock (some (q.answer.toOption.getD 0)) p.answer := by
  have hseen : (step cfg q (start cfg init ps).status).2.1.lastBlockSeen = _ :=
    lastBlockSeen_step q _
  rw [start_concat, ← hseen]
  exact event_step p _

theorem published_nil (init p : Poll) :
    ((start cfg init []).poll cfg p).2.map (·.blockNumber) = newBlock none p.answer :=
  event_step p none

end step

@[simp]
theorem newBlock_none (answer : Except String ℕ) : newBlock none answer = none := by
  cases answer <;> rfl

theorem observed_concat (ps : List Poll) (p : Poll) :
    observed (ps ++ [p]) = p.answer.toOption.or (observed ps) := by
  unfold observed
  rw [filterMap_append]
  cases h : p.answer.toOption with
  | none | some n => simp [h]

/-! ## Sequences of polls -/

/-- Exactly the steady sequences of answers are told to readers and subscribers as they are. -/
theorem faithful_iff (cfg : Config F) (init : Poll) (polls : List Poll) :
    Faithful cfg init polls ↔ Steady init polls := by
  constructor
  · intro h
    refine ⟨fun ps p err hpre herr => ?_, fun ps q p n hpre hnone hok => ?_,
      fun p n m hpre hok hm => ?_⟩
    · have hcurrent := h.current _ hpre
      rw [current_concat, ← cons_append, observed_concat, herr] at hcurrent
      exact hcurrent.symm
    · -- nothing was seen, so an answer that is not the 0 of the status is published
      have hpublished := h.published _ _ hpre
      have hq : q.answer.toOption = none := by
        rw [← cons_append, observed_concat] at hnone
        exact (Option.or_eq_none_iff.mp hnone).1
      rw [published_concat, hnone, hq, hok] at hpublished
      by_contra hne
      simp [newBlock, hne] at hpublished
    · have hpublished := h.published [] p hpre
      rw [published_nil, hm, hok, newBlock_none] at hpublished
      by_contra hne
      simp [newBlock, hne] at hpublished
  · intro h
    refine ⟨fun ps hpre => ?_, fun ps p hpre => ?_⟩
    · rcases eq_nil_or_concat ps with rfl | ⟨ps, p, rfl⟩
      · refine (lastBlockSeen_step init none).trans ?_
        have hone := observed_concat [] init
        rw [nil_append] at hone
        rw [hone]
        cases init.answer.toOption <;> rfl
      · rw [concat_eq_append] at hpre ⊢
        rw [current_concat, ← cons_append, observed_concat]
        cases hanswer : p.answer with
        | ok n => rfl
        | error err => exact (h.failure ps p err hpre hanswer).symm
    · rcases eq_nil_or_concat ps with rfl | ⟨ps, q, rfl⟩
      · rw [published_nil, newBlock_none]
        cases hm : observed [init] with
        | none => rw [newBlock_none]
        | some m =>
          cases hanswer : p.answer with
          | error err => rfl
          | ok n => simp [newBlock, h.first p n m hpre hanswer hm]
      · rw [concat_eq_append] at hpre ⊢
        rw [published_concat]
        cases hanswer : p.answer with
        | error err => rfl
        | ok n =>
          have hrecovery := fun hnone => h.recovery ps q p n hpre hnone hanswer
          rw [← cons_append, observed_concat] at hrecovery ⊢
          cases hq : q.answer with
          | ok m => rfl
          | error err =>
            have hzero := h.failure ps q err ((prefix_append _ [p]).trans hpre) hq
            rw [hq] at hrecovery
            show newBlock (some 0) _ = newBlock (observed (init :: ps)) _
            cases hlast : observed (init :: ps) with
            | none => simp [newBlock, hrecovery hlast]
            | some m =>
              rw [hlast] at hzero
              obtain rfl : m = 0 := hzero
              rfl

/-- Block 5, a failure and block 5 again: the readers see block 0 meanwhile, and the block is
published although it is not new. -/
theorem failure_forgets_block :
    let seen : Poll := ⟨.ok 5, 0, 0⟩
    let failed : Poll := ⟨.error "unreachable", 0, 0⟩
    let s := start ⟨(), 0⟩ seen [seen, failed]
    s.getCurrentBlockNumber = 0 ∧ observed [seen, seen, failed] = some 5 ∧
      ((s.poll ⟨(), 0⟩ seen).2.map (·.blockNumber)) = some 5 := by
  exact ⟨rfl, rfl, rfl⟩

end AggKit.BlockNotifier
