import AggKit.Lib.Exec
import AggKit.Lib.Table
import AggKit.MultiDownloader.BlockRange
import Mathlib.Data.List.MinMax

/-!
# Sets of segments (`multidownloader/types/set_sync_segment.go`)

A set of segments has one range of blocks for each of its contracts. The multidownloader keeps two of
them: what is synced and what is pending. A contract that is not in the set counts as one whose range
is empty, and `SetSyncSegment.range` is the range of a contract in that sense; the operations are
described by what they do to it. Adding a segment extends the range of its contract
(`range_add`), also over the blocks between the two ranges. Subtracting is exact
(`mem_range_subtractSegments`), and fails where a range would be left in two pieces.
-/

namespace AggKit.MultiDownloader

open Table List BlockRange

/-- `SyncSegment`. -/
structure SyncSegment (A : Type) where
  contractAddr : A
  blockRange : BlockRange
deriving DecidableEq

/-- `LogQuery`. -/
structure LogQuery (A H : Type) where
  addrs : List A
  blockRange : BlockRange
  blockHash : Option H

variable {A H : Type}

/-- `SyncSegment.IsValid`: the range `[0, 0]` stands for the empty range in the database. -/
def SyncSegment.isValid (s : SyncSegment A) : Bool :=
  if s.blockRange.isEmpty then true
  else !(decide (s.blockRange.fromBlock = 0) && decide (s.blockRange.toBlock = 0))

/-- `NewLogQueryBlockHash`. -/
def LogQuery.newBlockHash (blockNumber : ℕ) (blockHash : H) (addrs : List A) : LogQuery A H where
  addrs := addrs
  blockRange := if blockNumber ≠ 0 then .new blockNumber blockNumber else .zero
  blockHash := some blockHash

/-- `LogQuery.IsEmpty`. -/
def LogQuery.isEmpty (q : LogQuery A H) : Bool :=
  q.addrs.isEmpty && q.blockRange.isEmpty && q.blockHash.isNone

/-- `SetSyncSegment`: no two segments are of one contract. -/
abbrev SetSyncSegment (A : Type) := Keyed (SyncSegment.contractAddr (A := A))

/-- Why an operation on the segments fails. -/
inductive SegmentError (A : Type) where
  /-- `setSyncSegment.SubtractSegments: cannot split segment for %s into multiple ranges` -/
  | cannotSplit (segment : SyncSegment A) (ranges : List BlockRange)
  /-- `no more segments to sync` -/
  | finished
  /-- `INTERNAL ERROR: no addresses found for block range` -/
  | noAddresses (blockRange : BlockRange)
  /-- `OnNewSyncedLogQuery: logQuery is empty` -/
  | emptyLogQuery
  /-- `SyncSegments: block number for finality %s not found` -/
  | finalityNotFound
  /-- `ExtendPendingRange: error getting synced segment for contract` -/
  | notSynced (contractAddr : A)
deriving DecidableEq

namespace SetSyncSegment

variable [DecidableEq A]

/-- `SyncSegment.Equal`. -/
def equal (s other : SyncSegment A) : Bool :=
  decide (s.contractAddr = other.contractAddr) && s.blockRange.equal other.blockRange

/-- `GetByContract`. -/
def getByContract (s : SetSyncSegment A) (addr : A) : Option (SyncSegment A) :=
  s.rows.find? fun segment => decide (segment.contractAddr = addr)

/-- `UpdateBlockRange`; one segment at most is equal to the given one. -/
def updateBlockRange (s : SetSyncSegment A) (segment : SyncSegment A) (newBlockRange : BlockRange) :
    SetSyncSegment A :=
  s.map (fun t => if equal t segment then { t with blockRange := newBlockRange } else t)
    fun t => by split <;> rfl

/-- `Empty`. -/
def empty (s : SetSyncSegment A) (segment : SyncSegment A) : SetSyncSegment A :=
  updateBlockRange s segment .zero

variable {s : SetSyncSegment A} {addr : A}

theorem notMem_of_getByContract_eq_none (h : getByContract s addr = none) :
    ∀ t ∈ s.rows, t.contractAddr ≠ addr := by
  simpa [getByContract] using h

/-- `Add`. -/
def add (s : SetSyncSegment A) (segment : SyncSegment A) : SetSyncSegment A :=
  match h : getByContract s segment.contractAddr with
  | none => ⟨s.rows ++ [segment], nodup_key_insert s.nodup
      (insert_of_fresh (notMem_of_getByContract_eq_none h))⟩
  | some current =>
    updateBlockRange s current
      (if current.blockRange.isEmpty then segment.blockRange
        else current.blockRange.extend segment.blockRange)

/-- `AddLogQuery`. -/
def addLogQuery (s : SetSyncSegment A) (q : LogQuery A H) : SetSyncSegment A :=
  q.addrs.foldl (fun s addr => add s ⟨addr, q.blockRange⟩) s

/-- `NewSetSyncSegmentFromLogQuery`. -/
def fromLogQuery (q : LogQuery A H) : SetSyncSegment A := addLogQuery Keyed.empty q

/-- One round of the loop of `SubtractSegments`. -/
def subtractSegment (s : SetSyncSegment A) (segment : SyncSegment A) :
    Except (SegmentError A) (SetSyncSegment A) :=
  match getByContract s segment.contractAddr with
  | none => .ok s
  | some previous =>
    if previous.blockRange.isEmpty then .ok s
    else match previous.blockRange.subtract segment.blockRange with
      | [] => .ok (empty s previous)
      | [blockRange] => .ok (updateBlockRange s previous blockRange)
      | ranges => .error (.cannotSplit segment ranges)

/-- The loop of `SubtractSegments`. -/
def subtractAll : List (SyncSegment A) → SetSyncSegment A →
    Except (SegmentError A) (SetSyncSegment A)
  | [], s => .ok s
  | segment :: segments, s => do
    let s' ← subtractSegment s segment
    subtractAll segments s'

/-- `SubtractSegments`. -/
def subtractSegments (s segments : SetSyncSegment A) : Except (SegmentError A) (SetSyncSegment A) :=
  subtractAll segments.rows s

/-- `SubtractLogQuery`. -/
def subtractLogQuery (s : SetSyncSegment A) (q : LogQuery A H) :
    Except (SegmentError A) (SetSyncSegment A) :=
  subtractSegments s (fromLogQuery q)

/-- `IsAvailable`. -/
def isAvailable (s : SetSyncSegment A) (q : LogQuery A H) : Bool :=
  q.addrs.all fun addr => match getByContract s addr with
    | none => false
    | some segment => segment.blockRange.contains q.blockRange

/-- The loop of `IsPartiallyAvailable`, with the last block that is available so far. -/
def maxAvailableToBlock (s : SetSyncSegment A) (blockRange : BlockRange) :
    List A → Option ℕ → Option ℕ
  | [], maxAvailable => maxAvailable
  | addr :: addrs, maxAvailable =>
    match getByContract s addr with
    | none => none
    | some segment =>
      let intersection := segment.blockRange.intersect blockRange
      if intersection.isEmpty then none
      else if intersection.fromBlock ≠ blockRange.fromBlock then none
      else maxAvailableToBlock s blockRange addrs (some (match maxAvailable with
        | none => intersection.toBlock
        | some toBlock => min intersection.toBlock toBlock))

/-- `IsPartiallyAvailable`; `none` is `false`. -/
def isPartiallyAvailable (s : SetSyncSegment A) (q : LogQuery A H) : Option (LogQuery A H) :=
  (maxAvailableToBlock s q.blockRange q.addrs none).map fun toBlock =>
    ⟨q.addrs, .new q.blockRange.fromBlock toBlock, none⟩

/-- `GetLowestFromBlockSegment`. -/
def getLowestFromBlockSegment (s : SetSyncSegment A) : Option (SyncSegment A) :=
  s.rows.foldl (fun lower segment => match lower with
    | none => some segment
    | some low =>
      if segment.blockRange.fromBlock < low.blockRange.fromBlock then some segment else some low)
    none

/-- `GetAddressesForBlockRange`. -/
def getAddressesForBlockRange (s : SetSyncSegment A) (blockRange : BlockRange) : List A :=
  (s.rows.filter fun segment => segment.blockRange.overlaps blockRange).map
    SyncSegment.contractAddr

/-- `GetAddressesForBlock`. -/
def getAddressesForBlock (s : SetSyncSegment A) (blockNumber : ℕ) : List A :=
  getAddressesForBlockRange s (.new blockNumber blockNumber)

/-- `NextQuery`, with the highest block number applied. -/
def nextQuery (s : SetSyncSegment A) (syncBlockChunkSize maxBlockNumber : ℕ) :
    Except (SegmentError A) (LogQuery A H) :=
  match getLowestFromBlockSegment s with
  | none => .error .finished
  | some lowest =>
    let br := (lowest.blockRange.intersect (.new lowest.blockRange.fromBlock
      (lowest.blockRange.fromBlock + syncBlockChunkSize - 1))).cap maxBlockNumber
    if br.isEmpty then .error .finished
    else
      let addrs := getAddressesForBlockRange s br
      if addrs.isEmpty then .error (.noAddresses br)
      else .ok ⟨addrs, br, none⟩

/-- One step of the loop of `GetTotalPendingBlockRange`. -/
def extendTotal (total : Option BlockRange) (segment : SyncSegment A) : Option BlockRange :=
  if segment.blockRange.isEmpty then total
  else match total with
    | none => some segment.blockRange
    | some range => some (range.extend segment.blockRange)

/-- `GetTotalPendingBlockRange`. -/
def getTotalPendingBlockRange (s : SetSyncSegment A) : Option BlockRange :=
  s.rows.foldl extendTotal none

/-- `GetHighestBlockNumber`, without the finality. -/
def getHighestBlockNumber (s : SetSyncSegment A) : ℕ :=
  (s.rows.map fun segment => segment.blockRange.toBlock).foldr max 0

/-- `SegmentsByContract`. -/
def segmentsByContract (s : SetSyncSegment A) (addrs : List A) : List (SyncSegment A) :=
  addrs.filterMap (getByContract s)

/-! ## The range of a contract -/

/-- The range of a contract, empty for a contract that is not in the set. -/
def range (s : SetSyncSegment A) (addr : A) : BlockRange :=
  match getByContract s addr with
  | none => .zero
  | some segment => segment.blockRange

variable {segment : SyncSegment A}

theorem getByContract_eq_some_iff :
    getByContract s addr = some segment ↔ segment ∈ s.rows ∧ segment.contractAddr = addr :=
  Keyed.find?_eq_some_iff

theorem range_of_mem (h : segment ∈ s.rows) :
    range s segment.contractAddr = segment.blockRange := by
  rw [range, getByContract_eq_some_iff.mpr ⟨h, rfl⟩]

theorem range_eq_zero (h : ∀ t ∈ s.rows, t.contractAddr ≠ addr) : range s addr = .zero := by
  have hnone : getByContract s addr = none := by
    simpa [getByContract] using h
  rw [range, hnone]

/-- A contract with blocks is in the set. -/
theorem exists_mem_of_mem_range {n : ℕ} (h : n ∈ range s addr) :
    ∃ segment ∈ s.rows, segment.contractAddr = addr ∧ segment.blockRange = range s addr := by
  cases hfind : getByContract s addr with
  | none =>
    rw [range, hfind] at h
    cases h
  | some segment =>
    obtain ⟨hmem, rfl⟩ := getByContract_eq_some_iff.mp hfind
    exact ⟨segment, hmem, rfl, (range_of_mem hmem).symm⟩

theorem equal_self (s : SyncSegment A) : equal s s = true := by
  simp [equal, BlockRange.equal]

theorem range_updateBlockRange (h : segment ∈ s.rows) (blockRange : BlockRange) (addr : A) :
    range (updateBlockRange s segment blockRange) addr =
      if addr = segment.contractAddr then blockRange else range s addr := by
  by_cases haddr : addr = segment.contractAddr
  · subst haddr
    have hmem : (⟨segment.contractAddr, blockRange⟩ : SyncSegment A) ∈
        (updateBlockRange s segment blockRange).rows :=
      mem_map.mpr ⟨segment, h, by rw [if_pos (equal_self segment)]⟩
    rw [if_pos rfl]
    exact range_of_mem hmem
  · rw [if_neg haddr]
    by_cases hexists : ∃ t ∈ s.rows, t.contractAddr = addr
    · obtain ⟨t, ht, rfl⟩ := hexists
      have hne : equal t segment = false := by simp [equal, haddr]
      have hmem : t ∈ (updateBlockRange s segment blockRange).rows :=
        mem_map.mpr ⟨t, ht, by rw [hne]; rfl⟩
      rw [range_of_mem hmem, range_of_mem ht]
    · have hnone : ∀ t ∈ s.rows, t.contractAddr ≠ addr := fun t ht hkey => hexists ⟨t, ht, hkey⟩
      rw [range_eq_zero hnone]
      refine range_eq_zero fun t' ht' => ?_
      obtain ⟨t, ht, rfl⟩ := mem_map.mp ht'
      split
      · exact hnone t ht
      · exact hnone t ht

@[simp]
theorem map_contractAddr_updateBlockRange (s : SetSyncSegment A) (segment : SyncSegment A)
    (blockRange : BlockRange) :
    (updateBlockRange s segment blockRange).rows.map SyncSegment.contractAddr =
      s.rows.map SyncSegment.contractAddr := by
  simp only [updateBlockRange, Keyed.rows_map, map_map]
  refine map_congr_left fun t _ => ?_
  simp only [Function.comp_apply]
  split <;> rfl

/-- Adding a segment extends the range of its contract. -/
theorem range_add (s : SetSyncSegment A) (segment : SyncSegment A) (addr : A) :
    range (add s segment) addr =
      if addr = segment.contractAddr then (range s addr).extend segment.blockRange
      else range s addr := by
  unfold add
  split
  · rename_i hnone
    have hfresh := notMem_of_getByContract_eq_none hnone
    by_cases haddr : addr = segment.contractAddr
    · subst haddr
      rw [if_pos rfl, range_eq_zero hfresh, extend_of_isEmpty rfl]
      exact range_of_mem (by simp)
    · rw [if_neg haddr]
      unfold range getByContract
      have hlast : decide (segment.contractAddr = addr) = false := by
        simpa using Ne.symm haddr
      simp [find?_append, hlast]
  · rename_i current hsome
    obtain ⟨hmem, hkey⟩ := getByContract_eq_some_iff.mp hsome
    rw [range_updateBlockRange hmem, hkey]
    by_cases haddr : addr = segment.contractAddr
    · subst haddr
      rw [if_pos rfl, if_pos rfl, ← hkey, range_of_mem hmem]
      unfold BlockRange.extend
      cases hempty : current.blockRange.isEmpty <;> simp
    · rw [if_neg haddr, if_neg haddr]

/-- `GetContracts`. -/
def getContracts (s : SetSyncSegment A) : List A := s.rows.map SyncSegment.contractAddr

theorem mem_getContracts_add :
    addr ∈ getContracts (add s segment) ↔ addr = segment.contractAddr ∨ addr ∈ getContracts s := by
  unfold add getContracts
  split
  · simp [or_comm]
  · rename_i current hsome
    obtain ⟨hmem, hkey⟩ := getByContract_eq_some_iff.mp hsome
    rw [map_contractAddr_updateBlockRange, ← hkey]
    exact ⟨.inr, fun h => h.elim (fun heq => heq ▸ mem_map_of_mem hmem) id⟩

/-- A contract of the set is found. -/
theorem exists_getByContract_of_mem (h : addr ∈ getContracts s) :
    ∃ segment, getByContract s addr = some segment ∧ segment.contractAddr = addr ∧
      segment.blockRange = range s addr := by
  obtain ⟨segment, hmem, rfl⟩ := mem_map.mp h
  exact ⟨segment, getByContract_eq_some_iff.mpr ⟨hmem, rfl⟩, rfl, (range_of_mem hmem).symm⟩

theorem mem_getContracts_of_mem_range {n : ℕ} (h : n ∈ range s addr) : addr ∈ getContracts s := by
  obtain ⟨segment, hmem, rfl, -⟩ := exists_mem_of_mem_range h
  exact mem_map_of_mem hmem

variable {s' : SetSyncSegment A}

/-- A query extends the range of each of its contracts. -/
theorem range_addLogQuery (s : SetSyncSegment A) (q : LogQuery A H) (addr : A) :
    range (addLogQuery s q) addr =
      if addr ∈ q.addrs then (range s addr).extend q.blockRange else range s addr := by
  unfold addLogQuery
  induction q.addrs generalizing s with
  | nil => simp
  | cons a addrs ih =>
    rw [foldl_cons, ih, range_add]
    by_cases haddr : addr = a
    · simp [haddr, extend_extend_self]
    · simp [haddr]

variable {q : LogQuery A H}

theorem mem_getContracts_addLogQuery :
    addr ∈ getContracts (addLogQuery s q) ↔ addr ∈ q.addrs ∨ addr ∈ getContracts s := by
  unfold addLogQuery
  induction q.addrs generalizing s with
  | nil => simp
  | cons a addrs ih => rw [foldl_cons, ih, mem_getContracts_add, mem_cons]; tauto

theorem range_fromLogQuery (q : LogQuery A H) (addr : A) :
    range (fromLogQuery q) addr = if addr ∈ q.addrs then q.blockRange else .zero := by
  rw [fromLogQuery, range_addLogQuery]
  have hnone : range (Keyed.empty : SetSyncSegment A) addr = .zero := rfl
  rw [hnone, zero_extend]

/-! ## Subtraction -/

/-- Subtracting one segment takes its blocks from its contract. -/
theorem subtractSegment_spec (h : subtractSegment s segment = .ok s') :
    getContracts s' = getContracts s ∧ ∀ addr n, n ∈ range s' addr ↔
      n ∈ range s addr ∧ (segment.contractAddr = addr → n ∉ segment.blockRange) := by
  unfold subtractSegment at h
  cases hfind : getByContract s segment.contractAddr with
  | none =>
    rw [hfind] at h
    cases h
    refine ⟨rfl, fun addr n => ⟨fun hn => ⟨hn, ?_⟩, And.left⟩⟩
    rintro rfl
    rw [range, hfind] at hn
    cases hn
  | some previous =>
    obtain ⟨hmem, hkey⟩ := getByContract_eq_some_iff.mp hfind
    have hrange := range_of_mem hmem
    rw [hkey] at hrange
    simp only [hfind] at h
    cases hempty : previous.blockRange.isEmpty with
    | true =>
      rw [hempty] at h
      cases h
      refine ⟨rfl, fun addr n => ⟨fun hn => ⟨hn, ?_⟩, And.left⟩⟩
      rintro rfl
      rw [hrange] at hn
      exact absurd hn (notMem_of_isEmpty hempty)
    | false =>
      simp only [hempty, Bool.false_eq_true, if_false] at h
      -- What is left is one range or none; either way its blocks are those of the difference.
      have hleft : ∃ blockRange, s' = updateBlockRange s previous blockRange ∧ ∀ n,
          n ∈ blockRange ↔ n ∈ previous.blockRange ∧ n ∉ segment.blockRange := by
        split at h
        · rename_i hsub
          refine ⟨.zero, (Except.ok.inj h).symm, fun n => ?_⟩
          rw [← mem_subtract, hsub]
          simp
        · rename_i blockRange hsub
          refine ⟨blockRange, (Except.ok.inj h).symm, fun n => ?_⟩
          rw [← mem_subtract, hsub]
          simp
        · cases h
      obtain ⟨blockRange, rfl, hblocks⟩ := hleft
      refine ⟨map_contractAddr_updateBlockRange s previous blockRange, fun addr n => ?_⟩
      rw [range_updateBlockRange hmem, hkey]
      by_cases haddr : addr = segment.contractAddr
      · subst haddr
        rw [if_pos rfl, hrange, hblocks]
        exact and_congr_right fun _ => ⟨fun hn _ => hn, fun hn => hn rfl⟩
      · rw [if_neg haddr]
        exact ⟨fun hn => ⟨hn, fun heq => absurd heq.symm haddr⟩, And.left⟩

theorem subtractAll_spec {segments : List (SyncSegment A)} (h : subtractAll segments s = .ok s') :
    getContracts s' = getContracts s ∧ ∀ addr n, n ∈ range s' addr ↔
      n ∈ range s addr ∧ ∀ t ∈ segments, t.contractAddr = addr → n ∉ t.blockRange := by
  induction segments generalizing s with
  | nil =>
    cases h
    simp
  | cons t segments ih =>
    obtain ⟨s1, hfirst, hrest⟩ := Exec.except_bind_ok.mp h
    obtain ⟨hcontracts, hblocks⟩ := subtractSegment_spec hfirst
    obtain ⟨hcontracts', hblocks'⟩ := ih hrest
    refine ⟨hcontracts'.trans hcontracts, fun addr n => ?_⟩
    rw [hblocks', hblocks, forall_mem_cons, and_assoc]

/-- `SubtractSegments` leaves the blocks that are not in the other set. -/
theorem mem_range_subtractSegments {segments : SetSyncSegment A}
    (h : subtractSegments s segments = .ok s') (addr : A) (n : ℕ) :
    n ∈ range s' addr ↔ n ∈ range s addr ∧ n ∉ range segments addr := by
  rw [(subtractAll_spec h).2]
  refine and_congr_right fun _ => ?_
  constructor
  · intro hall hn
    obtain ⟨t, ht, hkey, hrange⟩ := exists_mem_of_mem_range hn
    exact hall t ht hkey (hrange ▸ hn)
  · rintro hnot t ht rfl
    rwa [range_of_mem ht] at hnot

theorem getContracts_subtractSegments {segments : SetSyncSegment A}
    (h : subtractSegments s segments = .ok s') : getContracts s' = getContracts s :=
  (subtractAll_spec h).1

/-- `SubtractLogQuery` takes the blocks of the query from each of its contracts. -/
theorem mem_range_subtractLogQuery (h : subtractLogQuery s q = .ok s') (addr : A) (n : ℕ) :
    n ∈ range s' addr ↔ n ∈ range s addr ∧ (addr ∈ q.addrs → n ∉ q.blockRange) := by
  rw [mem_range_subtractSegments h, range_fromLogQuery]
  by_cases haddr : addr ∈ q.addrs <;> simp [haddr]

theorem getContracts_subtractLogQuery (h : subtractLogQuery s q = .ok s') :
    getContracts s' = getContracts s :=
  getContracts_subtractSegments h

/-- Subtracting what starts no later than the range of the contract leaves one piece at most. -/
theorem exists_subtractSegment
    (h : ∀ n ∈ range s segment.contractAddr, segment.blockRange.fromBlock ≤ n) :
    ∃ s', subtractSegment s segment = .ok s' := by
  unfold subtractSegment
  cases hfind : getByContract s segment.contractAddr with
  | none => exact ⟨s, rfl⟩
  | some previous =>
    obtain ⟨hmem, hkey⟩ := getByContract_eq_some_iff.mp hfind
    have hrange := range_of_mem hmem
    rw [hkey] at hrange
    simp only
    cases hempty : previous.blockRange.isEmpty with
    | true => exact ⟨s, rfl⟩
    | false =>
      rw [hrange] at h
      have hle := h _ (fromBlock_mem hempty)
      rcases length_subtract_le_one hle with hsub | ⟨r, hsub⟩
      · rw [hsub]
        exact ⟨_, rfl⟩
      · rw [hsub]
        exact ⟨_, rfl⟩

theorem exists_subtractAll {segments : List (SyncSegment A)}
    (h : ∀ t ∈ segments, ∀ n ∈ range s t.contractAddr, t.blockRange.fromBlock ≤ n) :
    ∃ s', subtractAll segments s = .ok s' := by
  induction segments generalizing s with
  | nil => exact ⟨s, rfl⟩
  | cons t segments ih =>
    obtain ⟨hfirst, hrest⟩ := forall_mem_cons.mp h
    obtain ⟨s1, hs1⟩ := exists_subtractSegment hfirst
    -- The ranges only get smaller.
    obtain ⟨s', hs'⟩ := @ih s1 fun t' ht' n hn =>
      hrest t' ht' n (((subtractSegment_spec hs1).2 _ n).mp hn).1
    exact ⟨s', Exec.except_bind_ok.mpr ⟨s1, hs1, hs'⟩⟩

/-- A query that starts no later than what is pending for its contracts can be subtracted. -/
theorem exists_subtractLogQuery
    (h : ∀ addr ∈ q.addrs, ∀ n ∈ range s addr, q.blockRange.fromBlock ≤ n) :
    ∃ s', subtractLogQuery s q = .ok s' := by
  refine exists_subtractAll fun t ht n hn => ?_
  have hcontract : t.contractAddr ∈ q.addrs := by
    have hmem : t.contractAddr ∈ getContracts (fromLogQuery q) := mem_map_of_mem ht
    exact (mem_getContracts_addLogQuery.mp hmem).resolve_right not_mem_nil
  have hrange := range_of_mem ht
  rw [range_fromLogQuery, if_pos hcontract] at hrange
  rw [← hrange]
  exact h _ hcontract n hn

/-! ## Queries -/

/-- The contracts with a block in the range. -/
theorem mem_getAddressesForBlockRange {blockRange : BlockRange} :
    addr ∈ getAddressesForBlockRange s blockRange ↔ ∃ n, n ∈ range s addr ∧ n ∈ blockRange := by
  simp only [getAddressesForBlockRange, mem_map, mem_filter]
  constructor
  · rintro ⟨segment, ⟨hmem, hover⟩, rfl⟩
    rw [range_of_mem hmem]
    exact overlaps_iff_exists_mem.mp hover
  · rintro ⟨n, hn, hblock⟩
    obtain ⟨segment, hmem, hkey, hrange⟩ := exists_mem_of_mem_range hn
    refine ⟨segment, ⟨hmem, overlaps_iff_exists_mem.mpr ⟨n, ?_, hblock⟩⟩, hkey⟩
    rwa [hrange]

theorem mem_getAddressesForBlock {blockNumber : ℕ} :
    addr ∈ getAddressesForBlock s blockNumber ↔ blockNumber ∈ range s addr := by
  rw [getAddressesForBlock, mem_getAddressesForBlockRange]
  constructor
  · rintro ⟨n, hn, hblock⟩
    obtain rfl : n = blockNumber := by
      have := mem_new.mp hblock
      omega
    exact hn
  · exact fun hn => ⟨blockNumber, hn, mem_new.mpr ⟨Nat.le_refl _, Nat.le_refl _⟩⟩

variable {lowest : SyncSegment A}

section

omit [DecidableEq A]

theorem getLowestFromBlockSegment_eq_argmin (s : SetSyncSegment A) :
    getLowestFromBlockSegment s = s.rows.argmin fun t => t.blockRange.fromBlock := by
  unfold getLowestFromBlockSegment argmin
  congr 1
  funext found t
  cases found <;> rfl

/-- The segment that is chosen has the lowest first block, whether or not it has blocks. -/
theorem getLowestFromBlockSegment_spec (h : getLowestFromBlockSegment s = some lowest) :
    lowest ∈ s.rows ∧ ∀ t ∈ s.rows, lowest.blockRange.fromBlock ≤ t.blockRange.fromBlock := by
  rw [getLowestFromBlockSegment_eq_argmin] at h
  exact ⟨argmin_mem h, fun _ ht => (le_of_mem_argmin ht h :)⟩

end

variable {syncBlockChunkSize maxBlockNumber : ℕ}

/-- The piece at the start of a segment that a query can be for. -/
abbrev piece (lowest : SyncSegment A) (syncBlockChunkSize maxBlockNumber : ℕ) : BlockRange :=
  (lowest.blockRange.intersect (.new lowest.blockRange.fromBlock
    (lowest.blockRange.fromBlock + syncBlockChunkSize - 1))).cap maxBlockNumber

/-- The internal error does not occur: the lowest segment itself has blocks in the piece. -/
theorem nextQuery_eq (hlow : getLowestFromBlockSegment s = some lowest) :
    (nextQuery s syncBlockChunkSize maxBlockNumber : Except (SegmentError A) (LogQuery A H)) =
      if (piece lowest syncBlockChunkSize maxBlockNumber).isEmpty then .error .finished
      else .ok ⟨getAddressesForBlockRange s (piece lowest syncBlockChunkSize maxBlockNumber),
        piece lowest syncBlockChunkSize maxBlockNumber, none⟩ := by
  unfold nextQuery
  simp only [hlow]
  split_ifs with hempty hnone
  · rfl
  · rw [Bool.not_eq_true] at hempty
    have hfirst := fromBlock_mem hempty
    have hblock : (piece lowest syncBlockChunkSize maxBlockNumber).fromBlock ∈
        range s lowest.contractAddr := by
      rw [range_of_mem (getLowestFromBlockSegment_spec hlow).1]
      exact (cap_intersect_spec rfl hempty).2.2 _ hfirst
    have haddr := mem_getAddressesForBlockRange.mpr ⟨_, hblock, hfirst⟩
    exact absurd (List.isEmpty_iff.mp hnone) (ne_nil_of_mem haddr)
  · rfl

/-- The next query is for a piece at the start of the lowest range, up to the highest block, and for
every contract with a pending block there. -/
theorem nextQuery_spec (h : nextQuery s syncBlockChunkSize maxBlockNumber = .ok q) :
    q.blockHash = none ∧ q.blockRange.isEmpty = false ∧ q.blockRange.toBlock ≤ maxBlockNumber ∧
      (∀ n addr, n ∈ range s addr → q.blockRange.fromBlock ≤ n) ∧
      (∃ addr, ∀ n ∈ q.blockRange, n ∈ range s addr) ∧
      ∀ addr, addr ∈ q.addrs ↔ ∃ n, n ∈ range s addr ∧ n ∈ q.blockRange := by
  cases hlow : getLowestFromBlockSegment s with
  | none => rw [nextQuery, hlow] at h; cases h
  | some lowest =>
    obtain ⟨hmem, hle⟩ := getLowestFromBlockSegment_spec hlow
    rw [nextQuery_eq hlow] at h
    split_ifs at h with hempty
    cases h
    rw [Bool.not_eq_true] at hempty
    obtain ⟨hfrom, hto, hblocks⟩ := cap_intersect_spec rfl hempty
    refine ⟨rfl, hempty, hto, fun n addr hn => ?_, ⟨lowest.contractAddr, fun n hn => ?_⟩,
      fun addr => mem_getAddressesForBlockRange⟩
    · obtain ⟨t, ht, -, hrange⟩ := exists_mem_of_mem_range hn
      have hfirst := (mem_iff.mp hn).2.1
      have hlowest := hle t ht
      rw [hrange] at hlowest
      exact hfrom.trans_le (hlowest.trans hfirst)
    · rw [range_of_mem hmem]
      exact hblocks n hn

/-- There is a query when a block up to the highest one is pending and the lowest segment has pending
blocks. -/
theorem exists_nextQuery_of_lowest {n : ℕ} (hchunk : 0 < syncBlockChunkSize) (hn : n ∈ range s addr)
    (hle : n ≤ maxBlockNumber) (hlow : getLowestFromBlockSegment s = some lowest)
    (hne : lowest.blockRange.isEmpty = false) :
    ∃ q : LogQuery A H, nextQuery s syncBlockChunkSize maxBlockNumber = .ok q := by
  obtain ⟨t, ht, -, hrange⟩ := exists_mem_of_mem_range hn
  have hfirst := (mem_iff.mp hn).2.1
  have hlt := (getLowestFromBlockSegment_spec hlow).2 t ht
  rw [hrange] at hlt
  -- The first block of the lowest range is in the piece.
  have hpiece : lowest.blockRange.fromBlock ∈ piece lowest syncBlockChunkSize maxBlockNumber :=
    fromBlock_mem_cap_intersect hne (by omega) (by omega)
  rw [nextQuery_eq hlow, isEmpty_eq_false_of_mem hpiece]
  exact ⟨_, rfl⟩

omit [DecidableEq A] in
theorem exists_getLowestFromBlockSegment {t : SyncSegment A} (ht : t ∈ s.rows) :
    ∃ lowest, getLowestFromBlockSegment s = some lowest := by
  cases hlow : getLowestFromBlockSegment s with
  | some lowest => exact ⟨lowest, rfl⟩
  | none =>
    rw [getLowestFromBlockSegment_eq_argmin, argmin_eq_none] at hlow
    exact absurd hlow (ne_nil_of_mem ht)

/-- There is a query when a block up to the highest one is pending and no contract is without pending
blocks. A contract without any has the first block 0 and would be taken for the lowest. -/
theorem exists_nextQuery {n : ℕ} (hchunk : 0 < syncBlockChunkSize) (hn : n ∈ range s addr)
    (hle : n ≤ maxBlockNumber) (hrows : ∀ t ∈ s.rows, t.blockRange.isEmpty = false) :
    ∃ q : LogQuery A H, nextQuery s syncBlockChunkSize maxBlockNumber = .ok q := by
  obtain ⟨t, ht, -, -⟩ := exists_mem_of_mem_range hn
  obtain ⟨lowest, hlow⟩ := exists_getLowestFromBlockSegment ht
  have hne := hrows lowest (getLowestFromBlockSegment_spec hlow).1
  exact exists_nextQuery_of_lowest hchunk hn hle hlow hne

/-- Without a query there is nothing to do. -/
theorem nextQuery_error {e : SegmentError A}
    (h : (nextQuery s syncBlockChunkSize maxBlockNumber : Except (SegmentError A) (LogQuery A H)) =
      .error e) : e = .finished := by
  cases hlow : getLowestFromBlockSegment s with
  | none =>
    rw [nextQuery, hlow] at h
    exact (Except.error.inj h).symm
  | some lowest =>
    rw [nextQuery_eq hlow] at h
    split_ifs at h
    exact (Except.error.inj h).symm

section total

omit [DecidableEq A]

variable {rows : List (SyncSegment A)} {found : Option BlockRange}

/-- One round of `GetTotalPendingBlockRange`: every block of the result lies between two blocks of
the segment or of what was found before. -/
theorem extendTotal_spec (found : Option BlockRange) (t : SyncSegment A) :
    (∀ n, n ∈ found.getD .zero ∨ n ∈ t.blockRange → n ∈ (extendTotal found t).getD .zero) ∧
      ∀ n ∈ (extendTotal found t).getD .zero,
        Between (fun m => m ∈ found.getD .zero ∨ m ∈ t.blockRange) n := by
  unfold extendTotal
  cases hempty : t.blockRange.isEmpty with
  | true =>
    refine ⟨fun n hn => ?_, fun n hn => .of_mem (.inl hn)⟩
    exact hn.resolve_right (notMem_of_isEmpty hempty)
  | false =>
    cases found with
    | none => exact ⟨fun n hn => hn.resolve_left notMem_zero, fun n hn => .of_mem (.inr hn)⟩
    | some r => exact ⟨fun n hn => hn.elim mem_extend_left mem_extend_right,
        fun n => between_of_mem_extend⟩

/-- What is found has blocks. -/
theorem isEmpty_foldl_extendTotal (hfound : ∀ r, found = some r → r.isEmpty = false) {r : BlockRange}
    (h : rows.foldl extendTotal found = some r) : r.isEmpty = false := by
  induction rows generalizing found with
  | nil => exact hfound r h
  | cons t rows ih =>
    refine ih (fun r' hr' => ?_) h
    unfold extendTotal at hr'
    split_ifs at hr' with hempty
    · exact hfound r' hr'
    rw [Bool.not_eq_true] at hempty
    split at hr' <;> cases hr'
    · exact hempty
    · exact isEmpty_eq_false_of_mem (mem_extend_right (fromBlock_mem hempty))

/-- The loop, from what it has found so far. -/
theorem foldl_extendTotal_spec (rows : List (SyncSegment A)) (found : Option BlockRange) :
    (∀ n, (n ∈ found.getD .zero ∨ ∃ t ∈ rows, n ∈ t.blockRange) →
        n ∈ (rows.foldl extendTotal found).getD .zero) ∧
      ∀ n ∈ (rows.foldl extendTotal found).getD .zero,
        Between (fun m => m ∈ found.getD .zero ∨ ∃ t ∈ rows, m ∈ t.blockRange) n := by
  induction rows generalizing found with
  | nil => exact ⟨fun n hn => by simpa using hn, fun n hn => .of_mem (.inl hn)⟩
  | cons t rows ih =>
    obtain ⟨hmem, hbetween⟩ := ih (extendTotal found t)
    obtain ⟨hmem1, hbetween1⟩ := extendTotal_spec found t
    simp only [exists_mem_cons_iff, foldl_cons]
    refine ⟨fun n hn => hmem n ?_, fun n hn => (hbetween n hn).trans fun m hm => ?_⟩
    · rw [← or_assoc] at hn
      exact hn.imp_left (hmem1 n)
    · rcases hm with hm | hm
      · exact (hbetween1 m hm).trans fun k hk => .of_mem (hk.imp_right .inl)
      · exact .of_mem (.inr (.inr hm))

end total

/-- The blocks of the set and those of its total range. -/
theorem getTotalPendingBlockRange_getD (s : SetSyncSegment A) :
    (∀ addr, ∀ n ∈ range s addr, n ∈ (getTotalPendingBlockRange s).getD .zero) ∧
      ∀ n ∈ (getTotalPendingBlockRange s).getD .zero, Between (fun m => ∃ addr, m ∈ range s addr) n := by
  obtain ⟨hmem, hbetween⟩ := foldl_extendTotal_spec s.rows none
  refine ⟨fun addr n hn => ?_, fun n hn => (hbetween n hn).trans fun m hm => .of_mem ?_⟩
  · obtain ⟨t, ht, -, hrange⟩ := exists_mem_of_mem_range hn
    exact hmem n (.inr ⟨t, ht, hrange ▸ hn⟩)
  · obtain ⟨t, ht, hm⟩ := hm.resolve_left notMem_zero
    exact ⟨t.contractAddr, (range_of_mem ht).symm ▸ hm⟩

/-- The total range has every block of the set, and its first and its last block are of the set. -/
theorem getTotalPendingBlockRange_spec {total : BlockRange}
    (h : getTotalPendingBlockRange s = some total) :
    total.isEmpty = false ∧ (∀ addr, ∀ n ∈ range s addr, n ∈ total) ∧
      (∃ addr, total.fromBlock ∈ range s addr) ∧ ∃ addr, total.toBlock ∈ range s addr := by
  have hne : total.isEmpty = false := isEmpty_foldl_extendTotal (by simp) h
  obtain ⟨hmem, hbetween⟩ := getTotalPendingBlockRange_getD s
  rw [h, Option.getD_some] at hmem hbetween
  refine ⟨hne, hmem, ?_, ?_⟩
  · obtain ⟨⟨m, hle, addr, hm⟩, -⟩ := hbetween _ (fromBlock_mem hne)
    have hge := (mem_iff.mp (hmem addr m hm)).2.1
    exact ⟨addr, (show m = total.fromBlock by omega) ▸ hm⟩
  · obtain ⟨-, m, hle, addr, hm⟩ := hbetween _ (toBlock_mem hne)
    have hge := (mem_iff.mp (hmem addr m hm)).2.2
    exact ⟨addr, (show m = total.toBlock by omega) ▸ hm⟩

theorem mem_segmentsByContract {addrs : List A} {t : SyncSegment A}
    (h : t ∈ segmentsByContract s addrs) : t.contractAddr ∈ addrs ∧
      t.blockRange = range s t.contractAddr := by
  obtain ⟨addr, haddr, hfind⟩ := mem_filterMap.mp h
  obtain ⟨hmem, hkey⟩ := getByContract_eq_some_iff.mp hfind
  exact ⟨hkey ▸ haddr, (range_of_mem hmem).symm⟩

/-- There is no total range when nothing is pending. -/
theorem notMem_range_of_getTotalPendingBlockRange (h : getTotalPendingBlockRange s = none)
    (addr : A) (n : ℕ) : n ∉ range s addr := by
  have hmem := (getTotalPendingBlockRange_getD s).1 addr n
  rw [h] at hmem
  exact fun hn => notMem_zero (hmem hn)

end SetSyncSegment

end AggKit.MultiDownloader
