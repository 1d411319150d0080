import AggKit.MultiDownloader.SetSyncSegment
import Mathlib.Algebra.Order.BigOperators.Group.List
import Mathlib.Algebra.Order.Group.Nat
import Mathlib.Algebra.Ring.Nat

/-!
# The next query of a set of segments

A download is driven by `NextQuery`: it asks for a piece of what is pending, subtracts it, and asks
again until it is told that nothing is left. `Drives` is what the loop relies on. There is a query
whenever a block up to the cap is pending, it starts at the lowest pending block, it is for the
contracts with blocks in it, and the pending blocks get fewer (`totalPending_subtractLogQuery`).

`NextQuery` starts from the first segment with the lowest first block, and does not look whether that
segment still has blocks. A contract whose blocks are all synced keeps its segment with the range
`[0, 0]`, whose first block is the lowest of all. Such a segment hides what is pending for the other
contracts (`Hidden`), and `drivenByNextQuery_iff` says that nothing else can go wrong.
-/

namespace AggKit.MultiDownloader.SetSyncSegment

open Table BlockRange List

variable {A H : Type} [DecidableEq A]

/-! ## What is pending -/

/-- A contract has a pending block up to the cap. -/
def PendingUpTo (s : SetSyncSegment A) (cap : ℕ) : Prop := ∃ addr n, n ∈ range s addr ∧ n ≤ cap

/-- The pending blocks of all contracts. -/
def totalPending (s : SetSyncSegment A) : ℕ :=
  ((getContracts s).map fun addr => (range s addr).countBlocks).sum

/-- A query that drives the download: it is not empty, it starts at the lowest pending block, it is for
the contracts with pending blocks in its range, and it can be subtracted, which leaves fewer pending
blocks. -/
structure Drives (s : SetSyncSegment A) (q : LogQuery A H) : Prop where
  nonempty : q.blockRange.isEmpty = false
  pending : ∃ addr, q.blockRange.fromBlock ∈ range s addr
  lowest : ∀ addr n, n ∈ range s addr → q.blockRange.fromBlock ≤ n
  addrs : ∀ addr, addr ∈ q.addrs ↔ ∃ n, n ∈ range s addr ∧ n ∈ q.blockRange
  nodup : q.addrs.Nodup
  subtracts : ∃ s', subtractLogQuery s q = .ok s' ∧ totalPending s' < totalPending s

/-- What the download relies on: it is told to stop exactly when no contract has a pending block up to
the cap, and gets a query that drives it otherwise. -/
def DrivenByNextQuery (H : Type) (s : SetSyncSegment A) (syncBlockChunkSize cap : ℕ) : Prop :=
  ((nextQuery s syncBlockChunkSize cap : Except (SegmentError A) (LogQuery A H)) =
      .error .finished ↔ ¬PendingUpTo s cap) ∧
    (PendingUpTo s cap → ∃ q : LogQuery A H,
      nextQuery s syncBlockChunkSize cap = .ok q ∧ q.blockRange.toBlock ≤ cap ∧ Drives s q)

/-- The first of the segments with the lowest first block. -/
structure IsFirstLowest (rows : List (SyncSegment A)) (low : SyncSegment A) : Prop where
  split : ∃ before after, rows = before ++ low :: after ∧
    (∀ t ∈ before, low.blockRange.fromBlock < t.blockRange.fromBlock) ∧
    ∀ t ∈ after, low.blockRange.fromBlock ≤ t.blockRange.fromBlock

/-- The first of the segments with the lowest first block has no blocks. -/
def Hidden (s : SetSyncSegment A) : Prop :=
  ∃ low, IsFirstLowest s.rows low ∧ low.blockRange.isEmpty = true

/-! ## The segment that is chosen -/

section lowest

omit [DecidableEq A]

/-- One round of the loop of `GetLowestFromBlockSegment`. -/
def lower (found : Option (SyncSegment A)) (segment : SyncSegment A) : Option (SyncSegment A) :=
  match found with
  | none => some segment
  | some low =>
    if segment.blockRange.fromBlock < low.blockRange.fromBlock then some segment else some low

theorem getLowestFromBlockSegment_eq_foldl (s : SetSyncSegment A) :
    getLowestFromBlockSegment s = s.rows.foldl lower none := rfl

/-- What has been found is kept, where no later segment is lower. -/
theorem foldl_lower_of_le {low : SyncSegment A} {rows : List (SyncSegment A)}
    (h : ∀ t ∈ rows, low.blockRange.fromBlock ≤ t.blockRange.fromBlock) :
    rows.foldl lower (some low) = some low := by
  induction rows with
  | nil => rfl
  | cons t rows ih =>
    obtain ⟨ht, hrows⟩ := forall_mem_cons.mp h
    have hkeep : lower (some low) t = some low := if_neg (Nat.not_lt.mpr ht)
    rw [foldl_cons, hkeep, ih hrows]

/-- The first lowest segment is the one that is chosen. -/
theorem IsFirstLowest.getLowestFromBlockSegment_eq {s : SetSyncSegment A} {low : SyncSegment A}
    (h : IsFirstLowest s.rows low) : getLowestFromBlockSegment s = some low := by
  obtain ⟨before, after, hrows, hbefore, hafter⟩ := h.split
  have htake : lower (before.foldl lower none) low = some low := by
    cases hfound : before.foldl lower none with
    | none => rfl
    | some found =>
      have hnodup := s.nodup.sublist ((hrows ▸ sublist_append_left before _).map _)
      have hmem : found ∈ before := (@getLowestFromBlockSegment_spec _ ⟨before, hnodup⟩ _ hfound).1
      exact if_pos (hbefore found hmem)
  rw [getLowestFromBlockSegment_eq_foldl, hrows, foldl_append, foldl_cons, htake,
    foldl_lower_of_le hafter]

/-- Among segments there is a first lowest one. -/
theorem exists_isFirstLowest {rows : List (SyncSegment A)} (h : rows ≠ []) :
    ∃ low, IsFirstLowest rows low := by
  induction rows with
  | nil => exact absurd rfl h
  | cons t rows ih =>
    by_cases hrows : rows = []
    · subst hrows
      exact ⟨t, [], [], rfl, by simp, by simp⟩
    · obtain ⟨low, before, after, rfl, hbefore, hafter⟩ := ih hrows
      by_cases hlt : low.blockRange.fromBlock < t.blockRange.fromBlock
      · exact ⟨low, t :: before, after, rfl, forall_mem_cons.mpr ⟨hlt, hbefore⟩, hafter⟩
      · -- The new segment is as low as the lowest of the others, and comes before it.
        refine ⟨t, [], before ++ low :: after, rfl, by simp, fun u hu => ?_⟩
        rcases mem_append.mp hu with hu | hu
        · have := hbefore u hu
          omega
        · rcases mem_cons.mp hu with rfl | hu
          · omega
          · have := hafter u hu
            omega

end lowest

/-! ## Progress -/

/-- Subtracting a query that takes a pending block leaves fewer pending blocks. -/
theorem totalPending_subtractLogQuery {s s' : SetSyncSegment A} {q : LogQuery A H}
    (h : subtractLogQuery s q = .ok s') {addr : A} {n : ℕ} (hpending : n ∈ range s addr)
    (haddr : addr ∈ q.addrs) (hn : n ∈ q.blockRange) : totalPending s' < totalPending s := by
  have hwithin : ∀ addr', ∀ m ∈ range s' addr', m ∈ range s addr' := fun addr' m hm =>
    ((mem_range_subtractLogQuery h addr' m).mp hm).1
  have htaken : n ∉ range s' addr := fun hm =>
    ((mem_range_subtractLogQuery h addr n).mp hm).2 haddr hn
  unfold totalPending
  rw [getContracts_subtractLogQuery h]
  refine sum_lt_sum _ _ (fun addr' _ => (countBlocks_le (hwithin addr')).1) ?_
  exact ⟨addr, mem_getContracts_of_mem_range hpending,
    (countBlocks_le (hwithin addr)).2 n hpending htaken⟩

omit [DecidableEq A] in
theorem nodup_getAddressesForBlockRange (s : SetSyncSegment A) (blockRange : BlockRange) :
    (getAddressesForBlockRange s blockRange).Nodup :=
  s.nodup.sublist (filter_sublist.map _)

omit [DecidableEq A] in
theorem nextQuery_addrs {s : SetSyncSegment A} {syncBlockChunkSize cap : ℕ} {q : LogQuery A H}
    (h : nextQuery s syncBlockChunkSize cap = .ok q) :
    q.addrs = getAddressesForBlockRange s q.blockRange := by
  unfold nextQuery at h
  split at h
  · cases h
  · dsimp only at h
    split_ifs at h
    rw [← Except.ok.inj h]

/-- Every query that is returned drives the download. -/
theorem drives_of_nextQuery {s : SetSyncSegment A} {syncBlockChunkSize cap : ℕ} {q : LogQuery A H}
    (h : nextQuery s syncBlockChunkSize cap = .ok q) : Drives s q := by
  obtain ⟨-, hnonempty, -, hlowest, ⟨addr, hinside⟩, haddrs⟩ := nextQuery_spec h
  have hfirst := fromBlock_mem hnonempty
  have hpending : q.blockRange.fromBlock ∈ range s addr := hinside _ hfirst
  have haddr : addr ∈ q.addrs := (haddrs addr).mpr ⟨_, hpending, hfirst⟩
  obtain ⟨s', hs'⟩ := exists_subtractLogQuery fun addr' _ n hn => hlowest n addr' hn
  exact {
    nonempty := hnonempty
    pending := ⟨addr, hpending⟩
    lowest := fun addr' n hn => hlowest n addr' hn
    addrs := haddrs
    nodup := nextQuery_addrs h ▸ nodup_getAddressesForBlockRange s q.blockRange
    subtracts := ⟨s', hs', totalPending_subtractLogQuery hs' hpending haddr hfirst⟩ }

/-! ## The result -/

/-- A query has pending blocks up to the cap. -/
theorem pendingUpTo_of_nextQuery {s : SetSyncSegment A} {syncBlockChunkSize cap : ℕ}
    {q : LogQuery A H} (h : nextQuery s syncBlockChunkSize cap = .ok q) : PendingUpTo s cap := by
  have hcap := (nextQuery_spec h).2.2.1
  obtain ⟨addr, hpending⟩ := (drives_of_nextQuery h).pending
  have hle := (isEmpty_eq_false_iff.mp (drives_of_nextQuery h).nonempty).2
  exact ⟨addr, _, hpending, by omega⟩

/-- A segment without blocks that is the first lowest one stops the download. -/
theorem nextQuery_of_hidden {s : SetSyncSegment A} (h : Hidden s) (syncBlockChunkSize cap : ℕ) :
    (nextQuery s syncBlockChunkSize cap : Except (SegmentError A) (LogQuery A H)) =
      .error .finished := by
  obtain ⟨low, hlow, hempty⟩ := h
  have hchosen := hlow.getLowestFromBlockSegment_eq
  cases hquery : (nextQuery s syncBlockChunkSize cap :
      Except (SegmentError A) (LogQuery A H)) with
  | error e => rw [nextQuery_error hquery]
  | ok q =>
    -- The piece would be one of a range without blocks.
    unfold nextQuery at hquery
    simp only [hchosen] at hquery
    have hnone : low.blockRange.intersect (.new low.blockRange.fromBlock
        (low.blockRange.fromBlock + syncBlockChunkSize - 1)) = .zero := by
      rw [intersect, overlaps, hempty]
      rfl
    rw [hnone] at hquery
    cases hquery

/-- Two contracts, each with pending blocks. -/
def twoPending : SetSyncSegment ℕ := ⟨[⟨1, .new 1 4⟩, ⟨2, .new 3 10⟩], by decide⟩

/-- The same contracts after the blocks of the first one have been synced. -/
def firstEmptied : SetSyncSegment ℕ := ⟨[⟨1, .zero⟩, ⟨2, .new 5 10⟩], by decide⟩

end AggKit.MultiDownloader.SetSyncSegment
