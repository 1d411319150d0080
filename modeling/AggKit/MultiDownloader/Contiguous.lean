import AggKit.MultiDownloader.State
import AggKit.MultiDownloader.Storage

/-!
# The pending blocks continue the synced ones

The synced range of a contract grows by `Extend`, which also takes the blocks between the two ranges.
It takes none that were not downloaded as long as the pending range starts inside the synced one or
right after it, and each query starts no later than the pending range and reaches it: then the
extended range is the union of the two (`Continues.mem_extend`) and the pending range that is left
continues it again (`Continues.extend_diff`). Both the start from the database
(`Continues.diff`) and the growth of the target (`Continues.first_subtract`, `Continues.extend`) keep
this for a target that continues the synced range itself.
-/

namespace AggKit.MultiDownloader

open Table SetSyncSegment List BlockRange

namespace BlockRange

variable {next synced query rest other target : BlockRange} {n : ℕ}

/-- The first block of `next` is one of the synced blocks or the one after them. -/
def Continues (next synced : BlockRange) : Prop :=
  next.isEmpty = false → synced.isEmpty = false →
    synced.fromBlock ≤ next.fromBlock ∧ next.fromBlock ≤ synced.toBlock + 1

/-- The first block of `next` is in the query or the one after it. -/
def Reaches (query next : BlockRange) : Prop :=
  query.fromBlock ≤ next.fromBlock ∧ next.fromBlock ≤ query.toBlock + 1

/-- The blocks of a range determine its first block. -/
theorem fromBlock_eq_of_mem_iff {b b' : BlockRange} (h : ∀ n, n ∈ b ↔ n ∈ b')
    (hb : b.isEmpty = false) : b'.isEmpty = false ∧ b.fromBlock = b'.fromBlock ∧
      b.toBlock = b'.toBlock := by
  have hfirst := fromBlock_mem hb
  have hlast := toBlock_mem hb
  have hb' := isEmpty_eq_false_of_mem ((h _).mp hfirst)
  have hfirst' := fromBlock_mem hb'
  have hlast' := toBlock_mem hb'
  have h1 := mem_iff.mp ((h _).mp hfirst)
  have h2 := mem_iff.mp ((h _).mp hlast)
  have h3 := mem_iff.mp ((h _).mpr hfirst')
  have h4 := mem_iff.mp ((h _).mpr hlast')
  exact ⟨hb', by omega, by omega⟩

theorem Continues.congr {next' synced' : BlockRange} (h : next.Continues synced)
    (hnext : ∀ n, n ∈ next ↔ n ∈ next') (hsynced : ∀ n, n ∈ synced ↔ n ∈ synced') :
    next'.Continues synced' := by
  intro hne' hse'
  obtain ⟨hne, hfrom, -⟩ := fromBlock_eq_of_mem_iff (fun n => (hnext n).symm) hne'
  obtain ⟨hse, hfirst, hlast⟩ := fromBlock_eq_of_mem_iff (fun n => (hsynced n).symm) hse'
  have := h hne hse
  omega

/-- What is left of a target that continues the synced range continues it. -/
theorem Continues.diff (h : target.Continues synced)
    (hrest : ∀ n, n ∈ rest ↔ n ∈ target ∧ n ∉ synced) : rest.Continues synced := by
  intro hre hse
  have hfirst := fromBlock_mem hre
  obtain ⟨hfirstTarget, hfirstSynced⟩ := (hrest _).mp hfirst
  obtain ⟨hte, hle, hge⟩ := mem_iff.mp hfirstTarget
  obtain ⟨hlow, hhigh⟩ := h hte hse
  -- Otherwise the block after the synced ones would be left and lie before the first one that is.
  by_contra hgap
  have hmem : synced.toBlock + 1 ∈ rest := by
    refine (hrest _).mpr ⟨mem_iff.mpr ⟨hte, by omega, by omega⟩, fun hin => ?_⟩
    have := (mem_iff.mp hin).2.2
    omega
  have := (mem_iff.mp hmem).2.1
  omega

/-- A query that reaches the pending range leaves no gap: what is synced with it is what was synced
and the query. -/
theorem Continues.mem_extend (h : next.Continues synced) (hne : next.isEmpty = false)
    (hreach : query.Reaches next) (hn : n ∈ synced.extend query) : n ∈ synced ∨ n ∈ query := by
  cases hse : synced.isEmpty with
  | true =>
    rw [extend_of_isEmpty hse] at hn
    exact .inr hn
  | false =>
    cases hqe : query.isEmpty with
    | true =>
      rw [extend_eq_self hse hqe] at hn
      exact .inl hn
    | false =>
      obtain ⟨hlow, hhigh⟩ := h hne hse
      obtain ⟨hfrom, hto⟩ := hreach
      rw [BlockRange.mem_extend hse hqe] at hn
      by_cases hin : query.fromBlock ≤ n ∧ n ≤ query.toBlock
      · exact .inr (mem_iff.mpr ⟨hqe, hin⟩)
      · exact .inl (mem_iff.mpr ⟨hse, by omega, by omega⟩)

/-- What is left of the pending range continues what is synced with the query. -/
theorem Continues.extend_diff (h : next.Continues synced) (hreach : query.Reaches next)
    (hrest : ∀ n, n ∈ rest ↔ n ∈ next ∧ n ∉ query) : rest.Continues (synced.extend query) := by
  intro hre hee
  have hfirst := fromBlock_mem hre
  obtain ⟨hfirstNext, hfirstQuery⟩ := (hrest _).mp hfirst
  obtain ⟨hne, hle, hge⟩ := mem_iff.mp hfirstNext
  obtain ⟨hfrom, hto⟩ := hreach
  -- Every block of the pending range below what is left is in the query.
  have hbelow : ∀ n, next.fromBlock ≤ n → n < rest.fromBlock → n ∈ query := by
    intro n hn hlt
    by_contra hnot
    have hmem := (hrest n).mpr ⟨mem_iff.mpr ⟨hne, hn, by omega⟩, hnot⟩
    have := (mem_iff.mp hmem).2.1
    omega
  have hqueryTo : query.isEmpty = false → rest.fromBlock ≤ query.toBlock + 1 := by
    intro hqe
    by_contra hgap
    have hin := hbelow (query.toBlock + 1) (by omega) (by omega)
    have := (mem_iff.mp hin).2.2
    omega
  cases hqe : query.isEmpty with
  | true =>
    have hnone : ∀ n, n ∉ query := fun n => notMem_of_isEmpty hqe
    have hsame : rest.fromBlock = next.fromBlock := by
      by_contra hdiff
      exact hnone _ (hbelow next.fromBlock (Nat.le_refl _) (by omega))
    cases hse : synced.isEmpty with
    | true =>
      rw [extend_of_isEmpty hse, hqe] at hee
      cases hee
    | false =>
      rw [extend_eq_self hse hqe, hsame]
      exact h hne hse
  | false =>
    have hupper := hqueryTo hqe
    cases hse : synced.isEmpty with
    | true =>
      rw [extend_of_isEmpty hse]
      exact ⟨by omega, hupper⟩
    | false =>
      rw [extend_eq_new hse hqe]
      simp only [new]
      omega

/-- Extending the pending range by one that continues the synced range keeps that it does. -/
theorem Continues.extend (h : next.Continues synced) (hother : other.Continues synced) :
    (next.extend other).Continues synced := by
  cases hne : next.isEmpty with
  | true => rwa [extend_of_isEmpty hne]
  | false =>
    cases hoe : other.isEmpty with
    | true => rwa [extend_eq_self hne hoe]
    | false =>
      intro _ hse
      obtain ⟨hlow, hhigh⟩ := h hne hse
      obtain ⟨hlow', hhigh'⟩ := hother hoe hse
      rw [extend_eq_new hne hoe]
      simp only [new]
      omega

/-- The first piece of a target that continues the synced range continues it. -/
theorem Continues.first_subtract {pieces : List BlockRange} (h : target.Continues synced)
    (hsub : target.subtract synced = other :: pieces) : other.Continues synced := by
  unfold subtract at hsub
  by_cases hover : target.overlaps synced = true
  · obtain ⟨hte, hse, -⟩ := overlaps_eq_true_iff.mp hover
    obtain ⟨hlow, hhigh⟩ := h hte hse
    rw [if_pos hover, if_neg (by omega), nil_append] at hsub
    split at hsub
    · obtain ⟨rfl, -⟩ := List.cons.inj hsub
      intro _ hse'
      simp only [new]
      omega
    · cases hsub
  · rw [if_neg hover] at hsub
    obtain ⟨rfl, -⟩ := List.cons.inj hsub
    exact h

end BlockRange

/-- The targets are for contracts of the configuration. -/
theorem mem_contracts_of_syncSegmentsFrom {A : Type} [DecidableEq A]
    {blockNumbers : BlockNumberFinality → Option ℕ} {filters : List (SyncerConfig A)}
    {segments targets : SetSyncSegment A}
    (h : syncSegmentsFrom blockNumbers filters segments = .ok targets) {addr : A}
    (haddr : addr ∈ getContracts targets) :
    addr ∈ getContracts segments ∨ addr ∈ filters.flatMap SyncerConfig.contractAddresses := by
  induction filters generalizing segments with
  | nil =>
    cases h
    exact .inl haddr
  | cons filter filters ih =>
    unfold syncSegmentsFrom at h
    split at h
    · cases h
    · rename_i toBlock _
      -- The addresses of a filter are added like those of a query.
      have hfold := @mem_getContracts_addLogQuery A Unit _ segments addr
        ⟨filter.contractAddresses, .new filter.fromBlock toBlock, none⟩
      rw [flatMap_cons, mem_append]
      rcases ih h with hin | hin
      · exact (hfold.mp hin).symm.imp_right .inl
      · exact .inr (.inr hin)

theorem mem_contracts_of_syncSegments {A : Type} [DecidableEq A] {f : SetSyncerConfig A}
    {blockNumbers : BlockNumberFinality → Option ℕ} {targets : SetSyncSegment A}
    (h : f.syncSegments blockNumbers = .ok targets) {addr : A}
    (haddr : addr ∈ getContracts targets) : addr ∈ f.contracts :=
  (mem_contracts_of_syncSegmentsFrom h haddr).resolve_left not_mem_nil

/-- The query of `StepUnsafe` for the block of a header. -/
def blockQuery {A H : Type} (pending : SetSyncSegment A) (header : BlockHeader H) : LogQuery A H :=
  .newBlockHash header.number header.hash
    (getAddressesForBlock pending header.number)

section blockQuery

variable {A H : Type} {pending : SetSyncSegment A} {header : BlockHeader H}

theorem blockRange_blockQuery (hpos : header.number ≠ 0) :
    (blockQuery pending header).blockRange = .new header.number header.number := if_pos hpos

theorem mem_blockQuery {n : ℕ} :
    n ∈ (blockQuery pending header).blockRange ↔ n ≠ 0 ∧ header.number = n := by
  by_cases hpos : header.number ≠ 0
  · rw [blockRange_blockQuery hpos, mem_new]
    omega
  · have hzero : (blockQuery pending header).blockRange = .zero := if_neg hpos
    rw [hzero]
    exact iff_of_false notMem_zero fun h => hpos (h.2.trans_ne h.1)

theorem mem_addrs_blockQuery [DecidableEq A] {addr : A} :
    addr ∈ (blockQuery pending header).addrs ↔ header.number ∈ range pending addr :=
  mem_getAddressesForBlock

end blockQuery

namespace State

variable {A H : Type} [DecidableEq A]

/-- The pending range of every contract continues its synced range. -/
def Contiguous (s : State A) : Prop :=
  ∀ addr, (range s.pending addr).Continues (range s.synced addr)

variable {s s' : State A} {q : LogQuery A H}

/-- What a stored query does to the ranges. -/
theorem addSynced_spec (h : s.addSynced q = .ok s') :
    (∀ addr, range s'.synced addr =
      if addr ∈ q.addrs then (range s.synced addr).extend q.blockRange
      else range s.synced addr) ∧
    (∀ addr, addr ∈ getContracts s'.synced ↔
      addr ∈ q.addrs ∨ addr ∈ getContracts s.synced) ∧
    (∀ addr n, n ∈ range s'.pending addr ↔
      n ∈ range s.pending addr ∧ (addr ∈ q.addrs → n ∉ q.blockRange)) ∧
    getContracts s'.pending = getContracts s.pending := by
  obtain ⟨pending, hpending, hs'⟩ := Exec.except_bind_ok.mp h
  cases hs'
  exact ⟨range_addLogQuery s.synced q,
    fun _ => mem_getContracts_addLogQuery,
    mem_range_subtractLogQuery hpending,
    getContracts_subtractLogQuery hpending⟩

/-- A query that reaches the pending range of each of its contracts makes nothing synced but its own
blocks, and what is pending after it continues what is synced. -/
theorem Contiguous.addSynced (hs : s.Contiguous) (h : s.addSynced q = .ok s')
    (hreach : ∀ addr ∈ q.addrs, (range s.pending addr).isEmpty = false ∧
      q.blockRange.Reaches (range s.pending addr)) :
    s'.Contiguous ∧ ∀ addr n, n ∈ range s'.synced addr →
      n ∈ range s.synced addr ∨ addr ∈ q.addrs ∧ n ∈ q.blockRange := by
  obtain ⟨hsynced, -, hpending, -⟩ := addSynced_spec h
  refine ⟨fun addr => ?_, fun addr n hn => ?_⟩
  · by_cases haddr : addr ∈ q.addrs
    · rw [hsynced addr, if_pos haddr]
      refine (hs addr).extend_diff (hreach addr haddr).2 fun n => ?_
      rw [hpending]
      exact and_congr_right fun _ => ⟨fun himp => himp haddr, fun hnot _ => hnot⟩
    · rw [hsynced addr, if_neg haddr]
      refine (hs addr).congr (fun n => ?_) fun n => Iff.rfl
      rw [hpending]
      exact ⟨fun hn => ⟨hn, fun hmem => absurd hmem haddr⟩, And.left⟩
  · rw [hsynced addr] at hn
    split_ifs at hn with haddr
    · obtain ⟨hne, hq⟩ := hreach addr haddr
      exact ((hs addr).mem_extend hne hq hn).imp_right fun hin => ⟨haddr, hin⟩
    · exact .inl hn

/-- A state made from the database, for targets that continue the synced ranges. -/
theorem newFromStorageSyncedBlocks_spec {storageSynced totalToSync : SetSyncSegment A}
    (h : newFromStorageSyncedBlocks storageSynced totalToSync = .ok s) :
    s.synced = storageSynced ∧
      getContracts s.pending = getContracts totalToSync ∧
      ∀ addr n, n ∈ range s.pending addr ↔
        n ∈ range totalToSync addr ∧ n ∉ range storageSynced addr := by
  obtain ⟨pending, hpending, hs⟩ := Exec.except_bind_ok.mp h
  cases hs
  exact ⟨rfl, getContracts_subtractSegments hpending,
    mem_range_subtractSegments hpending⟩

theorem contiguous_newFromStorageSyncedBlocks {storageSynced totalToSync : SetSyncSegment A}
    (h : newFromStorageSyncedBlocks storageSynced totalToSync = .ok s)
    (htarget : ∀ addr, (range totalToSync addr).Continues
      (range storageSynced addr)) : s.Contiguous := by
  obtain ⟨rfl, -, hpending⟩ := newFromStorageSyncedBlocks_spec h
  exact fun addr => (htarget addr).diff (hpending addr)

variable {segments : List (SyncSegment A)} {addr : A}

/-- What one round of the loop of `ExtendPendingRange` keeps, the loop keeps. -/
theorem extendSegments_induction {P : State A → Prop} (hs : P s)
    (hround : ∀ s1 t sub pieces, P s1 → t ∈ segments →
      t.blockRange.subtract (range s1.synced t.contractAddr) = sub :: pieces →
      P { s1 with pending := add s1.pending ⟨t.contractAddr, sub⟩ }) :
    P (extendSegments segments s).1 := by
  induction segments generalizing s with
  | nil => exact hs
  | cons t segments ih =>
    have hrest : ∀ {s1}, P s1 → P (extendSegments segments s1).1 := fun hs1 =>
      ih hs1 fun s1 t' sub pieces h ht' => hround s1 t' sub pieces h (mem_cons_of_mem t ht')
    unfold extendSegments
    split
    · exact hrest hs
    split
    · exact hs
    rename_i synced hfind
    split
    · exact hrest hs
    · rename_i sub pieces hsub
      refine hrest (hround s t sub pieces hs mem_cons_self ?_)
      rwa [SetSyncSegment.range, hfind]

/-- Extending the pending ranges keeps what is synced. -/
theorem synced_extendSegments (segments : List (SyncSegment A)) (s : State A) :
    (extendSegments segments s).1.synced = s.synced :=
  extendSegments_induction (P := fun s1 => s1.synced = s.synced) rfl fun _ _ _ _ h _ _ => h

/-- Extending the pending ranges to targets that continue the synced ranges. -/
theorem Contiguous.extendSegments (hs : s.Contiguous)
    (htarget : ∀ t ∈ segments, t.blockRange.Continues
      (range s.synced t.contractAddr)) :
    (State.extendSegments segments s).1.Contiguous := by
  refine (extendSegments_induction (P := fun s1 => s1.synced = s.synced ∧ s1.Contiguous) ⟨rfl, hs⟩
    fun s1 t sub pieces ⟨hsynced, hs1⟩ ht hsub => ⟨hsynced, fun addr => ?_⟩).2
  -- The pending range of the contract is extended by the first piece, the others stay.
  rw [SetSyncSegment.range_add]
  split_ifs with haddr
  · subst haddr
    have hfirst := htarget t ht
    rw [← hsynced] at hfirst
    exact (hs1 _).extend (hfirst.first_subtract hsub)
  · exact hs1 addr

/-- The blocks that `ExtendPendingRange` wants of a contract: those pending, and those of the targets
that are not synced. -/
def Wanted (segments : List (SyncSegment A)) (s : State A) (addr : A) (n : ℕ) : Prop :=
  n ∈ range s.pending addr ∨ ∃ t ∈ segments, t.contractAddr = addr ∧
    n ∈ t.blockRange ∧ n ∉ range s.synced addr

/-- What is pending after the pending ranges were extended lies between two wanted blocks. -/
theorem between_extendSegments {n : ℕ}
    (h : n ∈ range (State.extendSegments segments s).1.pending addr) :
    Between (s.Wanted segments addr) n := by
  refine (extendSegments_induction (P := fun s1 => s1.synced = s.synced ∧
      ∀ n ∈ range s1.pending addr, Between (s.Wanted segments addr) n)
    ⟨rfl, fun n hn => .of_mem (.inl hn)⟩
    fun s1 t sub pieces ⟨hsynced, hs1⟩ ht hsub => ⟨hsynced, fun n hn => ?_⟩).2 n h
  rw [SetSyncSegment.range_add] at hn
  split_ifs at hn with haddr
  · -- The first piece has only blocks of the target that are not synced.
    subst haddr
    refine (between_of_mem_extend hn).trans fun k hk => ?_
    rcases hk with hk | hk
    · exact hs1 k hk
    · refine .of_mem (.inr ⟨t, ht, rfl, ?_⟩)
      rw [← hsynced, ← mem_subtract, hsub]
      exact ⟨sub, mem_cons_self, hk⟩
  · exact hs1 n hn

/-- Extending adds only contracts of the targets. -/
theorem mem_getContracts_extendSegments
    (h : addr ∈ getContracts (State.extendSegments segments s).1.pending) :
    addr ∈ getContracts s.pending ∨ ∃ t ∈ segments, t.contractAddr = addr := by
  refine extendSegments_induction (P := fun s1 => addr ∈ getContracts s1.pending →
    addr ∈ getContracts s.pending ∨ ∃ t ∈ segments, t.contractAddr = addr) .inl
    (fun s1 t sub pieces hs1 ht _ hin => ?_) h
  rcases mem_getContracts_add.mp hin with rfl | hin
  · exact .inr ⟨t, ht, rfl⟩
  · exact hs1 hin

/-- The contracts after several queries. -/
theorem afterLogQueries_contracts {queries : List (LogQuery A H)}
    (h : afterLogQueries queries s = .ok s') :
    (∀ addr, addr ∈ getContracts s'.synced ↔
      (∃ q ∈ queries, addr ∈ q.addrs) ∨ addr ∈ getContracts s.synced) ∧
    ∀ addr, (∀ q ∈ queries, addr ∉ q.addrs) →
      range s'.synced addr = range s.synced addr := by
  induction queries generalizing s with
  | nil =>
    cases h
    simp
  | cons q queries ih =>
    obtain ⟨s1, hfirst, hrest⟩ := Exec.except_bind_ok.mp h
    obtain ⟨hsynced, hcontracts, -, -⟩ := addSynced_spec hfirst
    obtain ⟨hcontracts', hranges'⟩ := ih hrest
    refine ⟨fun addr => ?_, fun addr hnone => ?_⟩
    · rw [hcontracts', hcontracts, exists_mem_cons_iff, or_assoc, or_left_comm]
    · obtain ⟨hq, hqueries⟩ := forall_mem_cons.mp hnone
      rw [hranges' addr hqueries, hsynced, if_neg hq]

/-- What several queries do to the ranges, whatever their order. -/
theorem afterLogQueries_spec {queries : List (LogQuery A H)}
    (h : afterLogQueries queries s = .ok s') :
    (∀ addr n, n ∈ range s.synced addr → n ∈ range s'.synced addr) ∧
    (∀ q ∈ queries, ∀ addr ∈ q.addrs, ∀ n ∈ q.blockRange,
      n ∈ range s'.synced addr) ∧
    (∀ addr n, n ∈ range s'.pending addr ↔
      n ∈ range s.pending addr ∧
        ∀ q ∈ queries, addr ∈ q.addrs → n ∉ q.blockRange) ∧
    getContracts s'.pending = getContracts s.pending := by
  induction queries generalizing s with
  | nil =>
    cases h
    simp
  | cons q queries ih =>
    obtain ⟨s1, hfirst, hrest⟩ := Exec.except_bind_ok.mp h
    obtain ⟨hsynced, -, hpending, hcontracts⟩ := addSynced_spec hfirst
    obtain ⟨hkept, hadded, hpending', hcontracts'⟩ := ih hrest
    have hkept1 : ∀ addr n, n ∈ range s.synced addr →
        n ∈ range s1.synced addr := by
      intro addr n hn
      rw [hsynced]
      split
      · exact mem_extend_left hn
      · exact hn
    refine ⟨fun addr n hn => hkept addr n (hkept1 addr n hn), ?_, fun addr n => ?_,
      hcontracts'.trans hcontracts⟩
    · refine forall_mem_cons.mpr ⟨fun addr haddr n hn => hkept addr n ?_, hadded⟩
      rw [hsynced, if_pos haddr]
      exact mem_extend_right hn
    · rw [hpending', hpending, forall_mem_cons, and_assoc]

theorem blockQuery_of_number (pending : SetSyncSegment A) {header : BlockHeader H} {k : ℕ}
    (hk : 0 < k) (hnumber : header.number = k) : (blockQuery pending header).blockRange = .new k k ∧
      ∀ addr, addr ∈ (blockQuery pending header).addrs ↔ k ∈ range pending addr := by
  subst hnumber
  exact ⟨blockRange_blockQuery hk.ne', fun _ => mem_addrs_blockQuery⟩

variable {pending : SetSyncSegment A}

/-- A query for the first pending block leaves the blocks after it. -/
theorem pending_addSynced_of_first {k : ℕ} (hrange : q.blockRange = .new k k)
    (haddrs : ∀ addr, addr ∈ q.addrs ↔ k ∈ range pending addr)
    (hpending : ∀ addr n, n ∈ range s.pending addr ↔
      n ∈ range pending addr ∧ k ≤ n) (h : s.addSynced q = .ok s') (addr : A) (n : ℕ) :
    n ∈ range s'.pending addr ↔
      n ∈ range pending addr ∧ k + 1 ≤ n := by
  rw [(addSynced_spec h).2.2.1, hpending, haddrs, hrange, mem_new]
  constructor
  · rintro ⟨⟨hn, hle⟩, hnot⟩
    refine ⟨hn, ?_⟩
    by_contra hlt
    obtain rfl : n = k := by omega
    exact hnot hn ⟨Nat.le_refl _, Nat.le_refl _⟩
  · rintro ⟨hn, hle⟩
    exact ⟨⟨hn, by omega⟩, fun _ hin => by omega⟩

/-- The queries of `StepUnsafe` are for one block each, in their order and without a gap, from the
first pending block on. The blocks before the next one are not pending any more. -/
theorem Contiguous.afterLogQueries {blockHeaders : List (BlockHeader H)} {k : ℕ} (hs : s.Contiguous)
    (hk : 0 < k)
    (hnumbers : blockHeaders.map BlockHeader.number = List.range' k blockHeaders.length)
    (hpending : ∀ addr n, n ∈ range s.pending addr ↔
      n ∈ range pending addr ∧ k ≤ n)
    (h : State.afterLogQueries (blockHeaders.map (blockQuery pending)) s = .ok s') :
    s'.Contiguous ∧
      (∀ addr n, n ∈ range s'.synced addr →
        n ∈ range s.synced addr ∨
          n ∈ range pending addr ∧ n ∈ blockHeaders.map BlockHeader.number) ∧
      ∀ addr n, n ∈ range s'.pending addr ↔
        n ∈ range pending addr ∧ k + blockHeaders.length ≤ n := by
  induction blockHeaders generalizing s k with
  | nil =>
    cases h
    exact ⟨hs, fun addr n hn => .inl hn, hpending⟩
  | cons header blockHeaders ih =>
    obtain ⟨s1, hfirst, hrest⟩ := Exec.except_bind_ok.mp h
    obtain ⟨hnumber, hnumbers⟩ := List.cons.inj hnumbers
    obtain ⟨hrange, haddrs⟩ := blockQuery_of_number pending hk hnumber
    generalize blockQuery pending header = q at hfirst hrange haddrs
    -- The block of the query is the first pending one of each contract that it is for.
    have hreach : ∀ addr ∈ q.addrs, (range s.pending addr).isEmpty = false ∧
        q.blockRange.Reaches (range s.pending addr) := by
      intro addr haddr
      have hmem := (hpending addr k).mpr ⟨(haddrs addr).mp haddr, Nat.le_refl _⟩
      have hne := isEmpty_eq_false_of_mem hmem
      have hfrom := (mem_iff.mp hmem).2.1
      have hlow := ((hpending addr _).mp (fromBlock_mem hne)).2
      rw [hrange]
      refine ⟨hne, ?_, ?_⟩ <;> simp only [BlockRange.new] <;> omega
    obtain ⟨hs1, hsynced1⟩ := hs.addSynced hfirst hreach
    have hpending1 := pending_addSynced_of_first hrange haddrs hpending hfirst
    obtain ⟨hs', hsynced', hpending'⟩ := ih hs1 (Nat.succ_pos k) hnumbers hpending1 hrest
    refine ⟨hs', fun addr n hn => ?_, fun addr n => ?_⟩
    · rw [map_cons, mem_cons, hnumber]
      rcases hsynced' addr n hn with hold | ⟨hin, hmem⟩
      · rcases hsynced1 addr n hold with hold | ⟨haddr, hin⟩
        · exact .inl hold
        · rw [hrange, mem_new] at hin
          obtain rfl : n = k := by omega
          exact .inr ⟨(haddrs addr).mp haddr, .inl rfl⟩
      · exact .inr ⟨hin, .inr hmem⟩
    · rw [hpending', length_cons]
      exact and_congr_right fun _ => by omega

/-- The queries of `StepUnsafe` can be subtracted one after the other. -/
theorem exists_afterLogQueries {blockHeaders : List (BlockHeader H)} {k : ℕ} (hk : 0 < k)
    (hnumbers : blockHeaders.map BlockHeader.number = List.range' k blockHeaders.length)
    (hpending : ∀ addr n, n ∈ range s.pending addr ↔
      n ∈ range pending addr ∧ k ≤ n) :
    ∃ s', afterLogQueries (blockHeaders.map (blockQuery pending)) s = .ok s' := by
  induction blockHeaders generalizing s k with
  | nil => exact ⟨s, rfl⟩
  | cons header blockHeaders ih =>
    obtain ⟨hnumber, hnumbers⟩ := List.cons.inj hnumbers
    obtain ⟨hrange, haddrs⟩ := blockQuery_of_number pending hk hnumber
    rw [map_cons]
    generalize blockQuery pending header = q at hrange haddrs
    -- What is pending starts at the block of the query or after it.
    obtain ⟨pending1, hsub⟩ := @exists_subtractLogQuery A H _ s.pending q
      fun addr _ n hn => by
        rw [hrange]
        exact ((hpending addr n).mp hn).2
    have hfirst : s.addSynced q = .ok ⟨addLogQuery s.synced q, pending1⟩ :=
      Exec.except_bind_ok.mpr ⟨pending1, hsub, rfl⟩
    obtain ⟨s', hs'⟩ := ih (Nat.succ_pos k) hnumbers
      (pending_addSynced_of_first hrange haddrs hpending hfirst)
    exact ⟨s', Exec.except_bind_ok.mpr ⟨_, hfirst, hs'⟩⟩

end State

end AggKit.MultiDownloader
