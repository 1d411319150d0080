import AggKit.ReorgDetector.Detection

/-!
# Finality inferred from the tracked blocks

`IsBlockFinalized` gets the number and the hash of a block that was read from a syncer earlier. It asks
the detector whether the number is tracked and, if it is not, reads the hash that the syncer has stored:
the answer is that the block is final if that is the given hash. `answered_final`: a block of which it
has answered so has the hash that the node has for its number, and is not above the finalized block.

The machine of the detector is extended by the driver of each syncer, its database, and the queries. The
driver handles a block in two steps: the block is tracked, or known to be final; then the processor
stores it. A reorg is sent to the driver when it handles no block, and the detector goes on when the
processor has deleted the blocks from the reorged one on. A block that the downloader gives as final has
been read after the finalized block, so that it has the hash of the node.

This is over every interleaving in which
* `AddBlockToTrack` does not put another hash in the place of a tracked one,
* the driver takes up no block of a range that is being removed after a reorg (`retracked_block_final`),
* the driver does not take up the block of a query that is between its two reads.
-/

namespace AggKit.ReorgDetector

open Table Function

variable {I H : Type}

/-! ## Blocks that are final or tracked -/

namespace State

/-- The node has the hash for the number, and will not change it. -/
def Final (s : State I H) (hdr : Header H) : Prop :=
  s.canonical hdr.num = hdr.hash ∧ hdr.num ≤ s.finalized

/-- The block is final, or it is tracked and not about to be removed. -/
def Safe (s : State I H) (id : I) (hdr : Header H) : Prop :=
  s.Final hdr ∨ s.Tracked id hdr ∧ ¬(s.checks id).Removing hdr.num

/-- A hash that a goroutine takes for final is the one of the node. -/
def Verified (s : State I H) : Check H → Prop
  | .fetched f hdr current _ _ => hdr.num ≤ f → current = s.canonical hdr.num
  | .final _ hdr _ _ => s.canonical hdr.num = hdr.hash
  | _ => True

variable {s s' : State I H} {a : Action I H} {id : I} {hdr : Header H}

/-- What a goroutine has read stays the hash of the node. -/
theorem Verified.mono {c : Check H} (hverified : s.Verified c) (hok : s.CheckOk id c)
    (hcanonical : ∀ n ≤ s.finalized, s'.canonical n = s.canonical n) : s'.Verified c := by
  cases c with
  | fetched f hdr current =>
    intro hle
    rw [hcanonical _ (hle.trans hok.1)]
    exact hverified hle
  | final f hdr =>
    show s'.canonical hdr.num = hdr.hash
    rw [hcanonical _ (hok.1.1.trans hok.1.2)]
    exact hverified
  | idle | checking | finalDB | reorged | notified | removedDB | removed => exact trivial

variable [DecidableEq I]

/-- The next point of a goroutine: it compares a hash that it has read from the node. -/
theorem Verified.goes {c : Check H} {s1 : State I H} (hverified : s.Verified (s.checks id))
    (hgoes : s.Goes id a c s1) : s.Verified c := by
  cases hgoes with
  | fetch => exact fun _ => rfl
  | final hcheck hhash hfinal =>
    rw [hcheck] at hverified
    exact (hverified hfinal).symm.trans hhash
  | launch | same | reorged | removeFinal | removeFinalDB | notify | removeDB | remove
  | cleanCache | fail | finish => exact trivial

variable [DecidableEq H]

theorem Final.step (hfinal : s.Final hdr) (hinv : s.Inv) (hagrees : s.Agrees a)
    (h : s.step a = some s') : s'.Final hdr := by
  obtain ⟨hfinalized, hcanonical⟩ := hinv.step_chain hagrees h
  exact ⟨(hcanonical _ hfinal.2).trans hfinal.1, hfinal.2.trans hfinalized⟩

theorem Verified.step (hverified : ∀ id, s.Verified (s.checks id)) (hinv : s.Inv)
    (hagrees : s.Agrees a) (h : s.step a = some s') (id : I) : s'.Verified (s'.checks id) := by
  have hcanonical := (hinv.step_chain hagrees h).2
  rcases step_cases_of h id with ⟨c, s1, hgoes, rfl, hcheck⟩ | ⟨hcheck, -⟩
  · rw [hcheck]
    have hcanonical1 := hgoes.frame.2.1
    have hc := (hverified id).goes hgoes
    cases c with
    | fetched f hdr current => exact fun hle => (hc hle).trans (congrFun hcanonical1 _).symm
    | final f hdr => exact (congrFun hcanonical1 _).trans hc
    | idle | checking | finalDB | reorged | notified | removedDB | removed => exact trivial
  · rw [hcheck]
    exact (hverified id).mono (hinv.checks id) hcanonical

/-- A tracked block stays tracked, or is final; only a removal after a reorg takes it away. -/
theorem Tracked.step (htracked : s.Tracked id hdr) (hnot : ¬(s.checks id).Removing hdr.num)
    (hinv : s.Inv) (hverified : ∀ id, s.Verified (s.checks id)) (hagrees : s.Agrees a)
    (h : s.step a = some s') : s.Final hdr ∨ s'.Tracked id hdr := by
  rcases step_cases_of h id with ⟨c, s1, hgoes, rfl, -⟩ | ⟨-, -, hkept⟩
  · have hok := hinv.checks id
    cases hgoes with
    | @removeFinal f toBlock hdr' headers hcheck =>
      by_cases hnum : hdr'.num = hdr.num
      · -- the block that is removed is the tracked one, and its hash was that of the node
        have hsame := hverified id
        rw [hcheck] at hok hsame
        obtain rfl : hdr' = hdr := (hok.2.2 hdr' (.head _)).eq htracked hnum
        exact .inl ⟨hsame, hok.1.1.trans hok.1.2⟩
      · exact .inr (htracked.removeRange fun _ hrange => hnum (le_antisymm hrange.1 hrange.2))
    | remove hcheck =>
      rw [hcheck] at hnot
      exact .inr (htracked.removeRange fun _ => hnot)
    | launch | fetch | same | final | reorged | removeFinalDB | notify | removeDB | cleanCache
    | fail | finish => exact .inr htracked
  · exact .inr ((hkept hinv hagrees hdr).1 htracked)

/-- A block is left only after a notification that reaches it. -/
theorem Safe.step (hsafe : s.Safe id hdr) (hinv : s.Inv)
    (hverified : ∀ id, s.Verified (s.checks id)) (hagrees : s.Agrees a) (h : s.step a = some s')
    (hquiet : ∀ start, a = .notify id start → hdr.num < start) : s'.Safe id hdr := by
  rcases hsafe with hfinal | ⟨htracked, hnot⟩
  · exact .inl (hfinal.step hinv hagrees h)
  rcases htracked.step hnot hinv hverified hagrees h with hfinal | htracked'
  · exact .inl (hfinal.step hinv hagrees h)
  refine .inr ⟨htracked', fun hremoving => ?_⟩
  rcases removing_of_step h hremoving with hr | ⟨start, hle, ha⟩
  · exact hnot hr
  · exact absurd hle (Nat.not_le.mpr (hquiet start ha))

end State

/-! ## The syncers and the queries -/

/-- The detector with its syncers. -/
structure Syncers (I H : Type) where
  detector : State I H
  /-- The hashes in the databases of the syncers. -/
  stored : I → ℕ → Option H
  /-- The block that a driver has tracked and is to process. -/
  handling : I → Option (Header H)
  /-- The blocks that callers have read from the syncers. -/
  read : List (I × Header H)
  /-- The calls of `IsBlockFinalized` that have found no tracked block. -/
  missed : List (I × Header H)
  /-- The calls that have answered that the block is final. -/
  answered : List (I × Header H)

/-- The actions of the detector, the drivers and the queries. -/
inductive Event (I H : Type) where
  | detect (a : Action I H)
  /-- `handleNewBlock`: `AddBlockToTrack` has found the block or has put it in memory. -/
  | handle (id : I) (hdr : Header H)
  /-- `handleNewBlock` of a block with `IsFinalizedBlock`. -/
  | handleFinal (id : I) (hdr : Header H)
  /-- `processBlock` -/
  | process (id : I)
  /-- The block is dropped: its context is cancelled. -/
  | cancel (id : I)
  /-- A caller reads a block from the syncer. -/
  | read (id : I) (n : ℕ)
  /-- `GetTrackedBlockByBlockNumber` of a query. -/
  | getTracked (id : I) (hdr : Header H)
  /-- `storedHash` of a query. -/
  | storedHash (id : I) (hdr : Header H)

namespace Syncers

/-- No syncer has blocks. -/
def initial (canonical : ℕ → H) (finalized : ℕ) : Syncers I H where
  detector := .initial canonical finalized
  stored _ _ := none
  handling _ := none
  read := []
  missed := []
  answered := []

/-- The syncer has the block, or will have it. -/
def Holds (s : Syncers I H) (id : I) (hdr : Header H) : Prop :=
  s.stored id hdr.num = some hdr.hash ∨ s.handling id = some hdr

/-- The invariant of the syncers. -/
structure Inv (s : Syncers I H) : Prop where
  detector : s.detector.Inv
  verified : ∀ id, s.detector.Verified (s.detector.checks id)
  safe : ∀ id hdr, s.Holds id hdr → s.detector.Safe id hdr
  missed : ∀ q ∈ s.missed, s.Holds q.1 q.2 → s.detector.Final q.2
  answered : ∀ q ∈ s.answered, s.detector.Final q.2

variable {s s' : Syncers I H}

/-- An action that leaves the detector as it is and gives no syncer a block. -/
theorem Inv.mono (hinv : s.Inv) (hdetector : s'.detector = s.detector)
    (hholds : ∀ id hdr, s'.Holds id hdr → s.Holds id hdr)
    (hmissed : ∀ q ∈ s'.missed, q ∈ s.missed ∨ (s.Holds q.1 q.2 → s.detector.Final q.2))
    (hanswered : ∀ q ∈ s'.answered, q ∈ s.answered ∨ s.detector.Final q.2) : s'.Inv := by
  refine ⟨?_, ?_, ?_, ?_, ?_⟩ <;> rw [hdetector]
  · exact hinv.detector
  · exact hinv.verified
  · exact fun id hdr h => hinv.safe id hdr (hholds id hdr h)
  · exact fun q hq h => (hmissed q hq).elim (hinv.missed q) id (hholds _ _ h)
  · exact fun q hq => (hanswered q hq).elim (hinv.answered q) id

variable [DecidableEq I]

/-- The blocks that a driver deletes for an action: `handleReorg` is part of the notification. -/
def reorgs : Action I H → I → ℕ → Bool
  | .notify id start, id', n => decide (id' = id ∧ start ≤ n)
  | _, _, _ => false

/-- The driver receives a reorg when it handles no block. -/
def ready (s : Syncers I H) : Action I H → Bool
  | .notify id _ => (s.handling id).isNone
  | _ => true

theorem handling_of_update {handling : I → Option (Header H)} {id id' : I} {hdr : Header H}
    (h : update handling id none id' = some hdr) : handling id' = some hdr := by
  rw [update_apply] at h
  split_ifs at h
  exact h

/-- A driver takes up a block. -/
theorem Inv.handle (hinv : s.Inv) {id : I} {hdr : Header H} (hsafe : s.detector.Safe id hdr)
    (hmissed : (id, hdr) ∈ s.missed → s.detector.Final hdr) :
    ({ s with handling := update s.handling id (some hdr) } : Syncers I H).Inv := by
  have hholds : ∀ id' hdr', ({ s with handling := update s.handling id (some hdr) } :
      Syncers I H).Holds id' hdr' → s.Holds id' hdr' ∨ id' = id ∧ hdr' = hdr := by
    rintro id' hdr' (hstored | hhandling)
    · exact .inl (.inl hstored)
    · simp only [update_apply] at hhandling
      split_ifs at hhandling with hid
      · exact .inr ⟨hid, (Option.some.inj hhandling).symm⟩
      · exact .inl (.inr hhandling)
  refine ⟨hinv.detector, hinv.verified, fun id' hdr' h => ?_, fun q hq h => ?_, hinv.answered⟩
  · rcases hholds id' hdr' h with h | ⟨rfl, rfl⟩
    · exact hinv.safe id' hdr' h
    · exact hsafe
  · rcases hholds q.1 q.2 h with h | ⟨hid, hhdr⟩
    · exact hinv.missed q hq h
    · rw [hhdr]
      exact hmissed (hid ▸ hhdr ▸ hq)

/-- The detector and the databases after an action of the detector. -/
def detected (s : Syncers I H) (a : Action I H) (d : State I H) : Syncers I H :=
  { s with detector := d, stored := fun id n => if reorgs a id n then none else s.stored id n }

/-- After an action of the detector a syncer has no block that it has been notified of. -/
theorem Holds.of_detected {a : Action I H} {d : State I H} (hready : s.ready a = true) {id : I}
    {hdr : Header H} (h : (s.detected a d).Holds id hdr) :
    s.Holds id hdr ∧ ∀ start, a = .notify id start → hdr.num < start := by
  rcases h with hstored | hhandling
  · simp only [detected] at hstored
    split_ifs at hstored with hr
    refine ⟨.inl hstored, ?_⟩
    rintro start rfl
    simpa [reorgs] using hr
  · refine ⟨.inr hhandling, ?_⟩
    rintro start rfl
    have hnone : s.handling id = none := by simpa [ready] using hready
    exact absurd (hhandling.symm.trans hnone) (by simp)

variable [DecidableEq H]

/-- One action. -/
def step (s : Syncers I H) : Event I H → Option (Syncers I H)
  | .detect a =>
    if s.ready a then (s.detector.step a).map (s.detected a) else none
  | .handle id hdr =>
    match s.handling id, s.detector.trackedBlocks id with
    | none, some hl =>
      if hl.rows.contains hdr then
        some { s with handling := update s.handling id (some hdr) }
      else none
    | _, _ => none
  | .handleFinal id hdr =>
    if s.handling id = none ∧ s.detector.canonical hdr.num = hdr.hash ∧
        hdr.num ≤ s.detector.finalized then
      some { s with handling := update s.handling id (some hdr) }
    else none
  | .process id =>
    match s.handling id with
    | some hdr => some { s with
        stored := fun id' n =>
          if id' = id ∧ n = hdr.num then some hdr.hash else s.stored id' n
        handling := update s.handling id none }
    | none => none
  | .cancel id => some { s with handling := update s.handling id none }
  | .read id n =>
    (s.stored id n).map fun h => { s with read := s.read ++ [(id, ⟨n, h⟩)] }
  | .getTracked id hdr =>
    match s.detector.trackedBlocks id with
    | some hl =>
      if s.read.contains (id, hdr) && hl.rows.all fun r => r.num ≠ hdr.num then
        some { s with missed := s.missed ++ [(id, hdr)] }
      else none
    | none => none
  | .storedHash id hdr =>
    if s.missed.contains (id, hdr) then
      let found := if s.stored id hdr.num = some hdr.hash then [(id, hdr)] else []
      some { s with missed := s.missed.erase (id, hdr), answered := s.answered ++ found }
    else none

/-- The condition on an action. -/
def Fine (s : Syncers I H) : Event I H → Prop
  | .detect a => s.detector.Agrees a
  | .handle id hdr => ¬(s.detector.checks id).Removing hdr.num ∧ (id, hdr) ∉ s.missed
  | _ => True

theorem Inv.detect (hinv : s.Inv) {a : Action I H} {d : State I H}
    (hagrees : s.detector.Agrees a) (hready : s.ready a = true) (h : s.detector.step a = some d) :
    (s.detected a d).Inv where
  detector := hinv.detector.step hagrees h
  verified := State.Verified.step hinv.verified hinv.detector hagrees h
  safe id hdr hholds := by
    obtain ⟨hbefore, hquiet⟩ := hholds.of_detected hready
    exact (hinv.safe id hdr hbefore).step hinv.detector hinv.verified hagrees h hquiet
  missed q hq hholds :=
    (hinv.missed q hq (hholds.of_detected hready).1).step hinv.detector hagrees h
  answered q hq := (hinv.answered q hq).step hinv.detector hagrees h

/-- Every action keeps the invariant. -/
theorem Inv.step {e : Event I H} (hinv : s.Inv) (hfine : s.Fine e) (h : s.step e = some s') : s'.Inv := by
  cases e with
  | detect a =>
    simp only [Syncers.step] at h
    split_ifs at h with hready
    obtain ⟨d, hd, rfl⟩ := Option.map_eq_some_iff.mp h
    exact hinv.detect hfine hready hd
  | handle id hdr =>
    simp only [Syncers.step] at h
    split at h
    · rename_i hl _ hlist
      split_ifs at h with hmem
      cases h
      have htracked : s.detector.Tracked id hdr := ⟨hl, hlist, by simpa using hmem⟩
      exact hinv.handle (.inr ⟨htracked, hfine.1⟩) fun hq => absurd hq hfine.2
    · cases h
  | handleFinal id hdr =>
    simp only [Syncers.step] at h
    split_ifs at h with hcond
    cases h
    exact hinv.handle (.inl hcond.2) fun _ => hcond.2
  | process id =>
    simp only [Syncers.step] at h
    split at h
    · rename_i hdr hhandling
      cases h
      refine hinv.mono rfl (fun id' hdr' hholds => ?_) (fun _ => .inl) fun _ => .inl
      rcases hholds with hstored | hnone
      · simp only at hstored
        split_ifs at hstored with hnew
        · -- the block that is stored now is the one that was handled
          obtain ⟨rfl, hnum⟩ := hnew
          obtain rfl : hdr = hdr' := by
            cases hdr
            cases hdr'
            simp_all
          exact .inr hhandling
        · exact .inl hstored
      · exact .inr (handling_of_update hnone)
    · cases h
  | cancel id =>
    cases h
    exact hinv.mono rfl (fun id' hdr' => Or.imp_right handling_of_update) (fun _ => .inl)
      fun _ => .inl
  | read id n =>
    obtain ⟨hash, -, rfl⟩ := Option.map_eq_some_iff.mp h
    exact hinv.mono rfl (fun _ _ h => h) (fun _ => .inl) fun _ => .inl
  | getTracked id hdr =>
    simp only [Syncers.step] at h
    split at h
    · rename_i hl hlist
      split_ifs at h with hcond
      cases h
      refine hinv.mono rfl (fun _ _ h => h) (fun q hq => ?_) fun _ => .inl
      refine (List.mem_append.mp hq).imp_right fun hq hholds => ?_
      obtain rfl := List.mem_singleton.mp hq
      -- the number is not tracked, so what the syncer has is final
      refine (hinv.safe id hdr hholds).resolve_right ?_
      rintro ⟨⟨hl', hlist', hmem⟩, -⟩
      cases hlist.symm.trans hlist'
      have hnone := (Bool.and_eq_true _ _).mp hcond |>.2
      exact absurd rfl (of_decide_eq_true (List.all_eq_true.mp hnone hdr hmem))
    · cases h
  | storedHash id hdr =>
    simp only [Syncers.step] at h
    split_ifs at h with hcond hstored <;> cases h
    · refine hinv.mono rfl (fun _ _ h => h) (fun q hq => .inl (List.mem_of_mem_erase hq))
        fun q hq => (List.mem_append.mp hq).imp_right fun hq => ?_
      obtain rfl := List.mem_singleton.mp hq
      exact hinv.missed (id, hdr) (by simpa using hcond) (.inl hstored)
    · exact hinv.mono rfl (fun _ _ h => h) (fun q hq => .inl (List.mem_of_mem_erase hq))
        fun q hq => .inl (by simpa using hq)

/-! ## The answers -/

/-- Over every interleaving whose actions are fine: a block that `IsBlockFinalized` has found to be
final has the hash of the node, and is at or below the finalized block. -/
theorem answered_final {canonical : ℕ → H} {finalized : ℕ} {events : List (Event I H)}
    (hrun : Run.Steps step Fine (initial canonical finalized) events s) :
    ∀ q ∈ s.answered,
      s.detector.canonical q.2.num = q.2.hash ∧ q.2.num ≤ s.detector.finalized := by
  have hinv : s.Inv := hrun.invariant (P := fun _ s => s.Inv)
    ⟨.initial _ _, fun _ => trivial, fun _ _ h => absurd h (by simp [Holds, initial]),
      fun _ h => absurd h List.not_mem_nil, fun _ h => absurd h List.not_mem_nil⟩
    fun _ _ _ _ hinv hfine hstep => hinv.step hfine hstep
  exact hinv.answered

/-- Block 5 is tracked and processed, becomes final and is not tracked any longer. -/
theorem answered_final_five : ∃ (events : List (Event Unit ℕ)) (s : Syncers Unit ℕ),
    Run.Steps step Fine (initial (fun _ => 1) 0) events s ∧ ((), ⟨5, 1⟩) ∈ s.answered ∧
      s.detector.canonical 5 = 1 ∧ 5 ≤ s.detector.finalized := by
  have hother : ∀ (s : Syncers Unit ℕ) (a : Action Unit ℕ), (∀ id hdr, a ≠ .add id hdr) →
      s.Fine (.detect a) := fun s a hne id hdr ha => absurd ha (hne id hdr)
  have hadd : ∀ s : Syncers Unit ℕ, s.detector.trackedBlocks () = some Keyed.empty →
      s.Fine (.detect (.add () ⟨5, 1⟩)) := by
    rintro s hempty id hdr ha hdr' ⟨hl, hlist, hmem⟩
    rw [Option.some.inj (hlist.symm.trans hempty)] at hmem
    cases hmem
  have hhandle : ∀ s : Syncers Unit ℕ, s.detector.checks () = .idle → s.missed = [] →
      s.Fine (.handle () ⟨5, 1⟩) := by
    intro s hidle hmissed
    refine ⟨?_, by simp [hmissed]⟩
    rw [hidle]
    exact not_false
  have hsteps : Run.Steps step Fine (initial (I := Unit) (fun _ => 1) 0)
      [.detect (.subscribe ()), .detect (.addBlockToTrack () ⟨5, 1⟩), .detect (.add () ⟨5, 1⟩),
        .handle () ⟨5, 1⟩, .process (), .read () 5, .detect (.finalize 5), .detect .startPass,
        .detect (.launch ()), .detect (.fetch ()), .detect (.compare ()), .detect (.removeFinal ()),
        .getTracked () ⟨5, 1⟩, .storedHash () ⟨5, 1⟩] _ :=
    .cons (hother _ _ (by simp)) rfl (.cons (hother _ _ (by simp)) rfl (.cons (hadd _ rfl) rfl
      (.cons (hhandle _ rfl rfl) rfl (.cons trivial rfl (.cons trivial rfl
      (.cons (hother _ _ (by simp)) rfl (.cons (hother _ _ (by simp)) rfl
      (.cons (hother _ _ (by simp)) rfl (.cons (hother _ _ (by simp)) rfl
      (.cons (hother _ _ (by simp)) rfl (.cons (hother _ _ (by simp)) rfl (.cons trivial rfl
      (.cons trivial rfl .nil)))))))))))))
  exact ⟨_, _, hsteps, .head _, answered_final hsteps _ (.head _)⟩

/-- The driver restarts after a reorg of block 5, and tracks and processes the new block before the
range of the reorg is removed. The new block is then not tracked, and found to be final. -/
theorem retracked_block_final : ∃ (events : List (Event Unit ℕ)) (s : Syncers Unit ℕ),
    Run.Steps step (fun _ _ => True) (initial (fun _ => 1) 0) events s ∧
      ((), ⟨5, 2⟩) ∈ s.answered ∧ s.detector.finalized = 0 :=
  ⟨(Action.subscribe () :: trackFive 1).map .detect ++ [.handle () ⟨5, 1⟩, .process ()] ++
      (Action.reorg (fun _ => 2) :: checkFirst ++ Action.notify () 5 :: trackFive 2).map .detect ++
      [.handle () ⟨5, 2⟩, .process (), .read () 5, .detect (.removeDB ()), .detect (.remove ()),
        .getTracked () ⟨5, 2⟩, .storedHash () ⟨5, 2⟩],
    _, .of_foldlM rfl, .head _, rfl⟩

end Syncers

end AggKit.ReorgDetector
