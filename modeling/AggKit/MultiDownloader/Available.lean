import Mathlib.Order.Bounds.Basic
import AggKit.MultiDownloader.SetSyncSegment

/-!
# What of a query is available

`IsAvailable` asks whether all blocks of a query are synced for all its contracts, and
`IsPartiallyAvailable` for the part of it that is, from its first block on. The loop over the contracts
keeps the last block that all contracts so far have. `isPartiallyAvailable_iff` says that this is the
last block of the longest available query that starts like the given one.

Two queries are turned away whatever is synced: one without contracts, and one without blocks.
-/

namespace AggKit.MultiDownloader.SetSyncSegment

open BlockRange

variable {A H : Type} [DecidableEq A] {s : SetSyncSegment A}

/-- The query up to a block. -/
def upTo (q : LogQuery A H) (toBlock : ℕ) : LogQuery A H :=
  ⟨q.addrs, .new q.blockRange.fromBlock toBlock, none⟩

/-! ## One contract -/

/-- All blocks of the query are synced for all its contracts. -/
theorem isAvailable_iff {q : LogQuery A H} (hne : q.blockRange.isEmpty = false) :
    isAvailable s q = true ↔ ∀ addr ∈ q.addrs, ∀ n ∈ q.blockRange, n ∈ range s addr := by
  unfold isAvailable
  rw [List.all_eq_true]
  refine forall₂_congr fun addr _ => ?_
  unfold range
  cases getByContract s addr with
  | none =>
    have hfirst := fromBlock_mem hne
    simp only [Bool.false_eq_true, false_iff]
    exact fun h => notMem_zero (h _ hfirst)
  | some segment => exact contains_iff_forall_mem hne

/-- The part of a query that one contract has: up to the last block of the contract. -/
theorem intersect_of_fromBlock_mem {b q : BlockRange} (hne : q.isEmpty = false)
    (hmem : q.fromBlock ∈ b) : b.intersect q = .new q.fromBlock (min b.toBlock q.toBlock) := by
  obtain ⟨hb, hle, hge⟩ := mem_iff.mp hmem
  have hover := overlaps_iff_exists_mem.mpr ⟨_, hmem, fromBlock_mem hne⟩
  rw [BlockRange.intersect, if_pos hover, Nat.max_eq_right hle]

/-- The test of one round: the contract has the first block of the query. -/
theorem intersect_starts_iff {b q : BlockRange} :
    ((b.intersect q).isEmpty = false ∧ (b.intersect q).fromBlock = q.fromBlock) ↔
      q.isEmpty = false ∧ q.fromBlock ∈ b := by
  constructor
  · rintro ⟨hinter, hfrom⟩
    unfold BlockRange.intersect at hinter hfrom
    by_cases hover : b.overlaps q = true
    · obtain ⟨hb, hq, hle, hge⟩ := overlaps_eq_true_iff.mp hover
      rw [if_pos hover] at hfrom
      have hmax : max b.fromBlock q.fromBlock = q.fromBlock := hfrom
      exact ⟨hq, mem_iff.mpr ⟨hb, by omega, hge⟩⟩
    · rw [if_neg hover] at hinter
      cases hinter
  · rintro ⟨hq, hmem⟩
    obtain ⟨hb, hle, hge⟩ := mem_iff.mp hmem
    have horder := (BlockRange.isEmpty_eq_false_iff.mp hq).2
    rw [intersect_of_fromBlock_mem hq hmem, isEmpty_new, decide_eq_false_iff_not]
    exact ⟨by omega, rfl⟩

/-! ## All contracts -/

/-- One round of the loop. -/
theorem maxAvailableToBlock_cons (s : SetSyncSegment A) (br : BlockRange) (addr : A) (addrs : List A)
    (found : Option ℕ) :
    maxAvailableToBlock s br (addr :: addrs) found =
      if br.isEmpty = false ∧ br.fromBlock ∈ range s addr then
        maxAvailableToBlock s br addrs (some (match found with
          | none => min (range s addr).toBlock br.toBlock
          | some toBlock => min (min (range s addr).toBlock br.toBlock) toBlock))
      else none := by
  rw [maxAvailableToBlock]
  unfold range
  cases getByContract s addr with
  | none =>
    rw [if_neg fun h => notMem_zero h.2]
  | some segment =>
    simp only
    by_cases h : br.isEmpty = false ∧ br.fromBlock ∈ segment.blockRange
    · obtain ⟨hstart, hfrom⟩ := intersect_starts_iff.mpr h
      rw [if_pos h, if_neg (by rw [hstart]; decide), if_neg (not_not_intro hfrom)]
      rw [intersect_of_fromBlock_mem h.1 h.2]
      rfl
    · rw [if_neg h]
      -- one of the two tests fails
      by_cases hempty : (segment.blockRange.intersect br).isEmpty = true
      · rw [if_pos hempty]
      · rw [if_neg hempty, if_pos]
        exact fun hfrom => h (intersect_starts_iff.mp ⟨Bool.eq_false_iff.mpr hempty, hfrom⟩)

/-- The loop finds the last block that all contracts have, if they all have the first one. -/
theorem maxAvailableToBlock_eq_some_iff {br : BlockRange} {addrs : List A} {found : Option ℕ}
    {t : ℕ} :
    maxAvailableToBlock s br addrs found = some t ↔
      (addrs = [] → found ≠ none) ∧
      (∀ addr ∈ addrs, br.isEmpty = false ∧ br.fromBlock ∈ range s addr) ∧
      ∀ k, k ≤ t ↔ (∀ last ∈ found, k ≤ last) ∧
        ∀ addr ∈ addrs, k ≤ min (range s addr).toBlock br.toBlock := by
  induction addrs generalizing found with
  | nil =>
    rw [maxAvailableToBlock]
    cases found with
    | none => simp
    | some last =>
      simp only [Option.some.injEq, Option.mem_some_iff, forall_eq', List.not_mem_nil]
      constructor
      · rintro rfl
        simp
      · rintro ⟨-, -, h⟩
        have hle := (h last).mpr ⟨Nat.le_refl _, by simp⟩
        have hge := ((h t).mp (Nat.le_refl _)).1
        omega
  | cons addr addrs ih =>
    rw [maxAvailableToBlock_cons]
    split_ifs with h
    · rw [ih]
      simp only [List.forall_mem_cons, h, true_and, reduceCtorEq, false_implies, ne_eq,
        not_false_eq_true, implies_true, Option.mem_some_iff, forall_eq']
      refine and_congr_right fun _ => forall_congr' fun k => iff_congr Iff.rfl ?_
      cases found with
      | none => simp
      | some last =>
        simp only [Option.mem_some_iff, forall_eq', Nat.le_min]
        tauto
    · exact iff_of_false (by simp) fun hall => h (hall.2.1 addr List.mem_cons_self)

theorem exists_maxAvailableToBlock {br : BlockRange} {addrs : List A} {found : Option ℕ}
    (hfound : addrs = [] → found ≠ none)
    (hall : ∀ addr ∈ addrs, br.isEmpty = false ∧ br.fromBlock ∈ range s addr) :
    ∃ t, maxAvailableToBlock s br addrs found = some t := by
  induction addrs generalizing found with
  | nil => exact Option.ne_none_iff_exists'.mp (hfound rfl)
  | cons addr addrs ih =>
    rw [maxAvailableToBlock_cons, if_pos (hall addr List.mem_cons_self)]
    exact ih (fun _ => nofun) fun addr haddr => hall addr (List.mem_cons_of_mem _ haddr)

/-- The part up to a block of the query is available when the block is not beyond the last one of any
contract. -/
theorem isAvailable_upTo_iff {q : LogQuery A H} {t : ℕ}
    (hfrom : ∀ addr ∈ q.addrs, q.blockRange.fromBlock ∈ range s addr)
    (hle : q.blockRange.fromBlock ≤ t) :
    isAvailable s (upTo q t) = true ↔ ∀ addr ∈ q.addrs, t ≤ (range s addr).toBlock := by
  have hne : (upTo q t).blockRange.isEmpty = false := by
    rw [upTo, isEmpty_new, decide_eq_false_iff_not]
    omega
  rw [isAvailable_iff hne]
  refine forall₂_congr fun addr haddr => ?_
  obtain ⟨hrange, hlow, -⟩ := mem_iff.mp (hfrom addr haddr)
  constructor
  · intro h
    exact (mem_iff.mp (h t (mem_new.mpr ⟨hle, Nat.le_refl _⟩))).2.2
  · intro ht n hn
    obtain ⟨hn, hn'⟩ := mem_new.mp hn
    exact mem_iff.mpr ⟨hrange, by omega, by omega⟩

/-- A query is partially available exactly when it has a contract and a block and all its contracts have
its first block. What is returned is then the longest available query that starts like it, and the whole
of it if it is available. -/
theorem isPartiallyAvailable_iff (s : SetSyncSegment A) (q : LogQuery A H) :
    ((∃ q', isPartiallyAvailable s q = some q') ↔
        q.addrs ≠ [] ∧ q.blockRange.isEmpty = false ∧
          ∀ addr ∈ q.addrs, q.blockRange.fromBlock ∈ range s addr) ∧
      ∀ q', isPartiallyAvailable s q = some q' →
        q' = upTo q q'.blockRange.toBlock ∧
        IsGreatest { t | t ∈ q.blockRange ∧ isAvailable s (upTo q t) = true }
          q'.blockRange.toBlock ∧
        (isAvailable s q = true → q'.blockRange = q.blockRange) := by
  have hsome : ∀ q', isPartiallyAvailable s q = some q' ↔
      ∃ t, maxAvailableToBlock s q.blockRange q.addrs none = some t ∧ upTo q t = q' := by
    intro q'
    exact Option.map_eq_some_iff
  constructor
  · constructor
    · rintro ⟨q', hq'⟩
      obtain ⟨t, ht, -⟩ := (hsome q').mp hq'
      obtain ⟨hnil, hall, -⟩ := maxAvailableToBlock_eq_some_iff.mp ht
      have haddrs : q.addrs ≠ [] := fun h => hnil h rfl
      obtain ⟨addr, haddr⟩ := List.exists_mem_of_ne_nil _ haddrs
      exact ⟨haddrs, (hall addr haddr).1, fun addr haddr => (hall addr haddr).2⟩
    · rintro ⟨haddrs, hne, hall⟩
      obtain ⟨t, ht⟩ : ∃ t, maxAvailableToBlock s q.blockRange q.addrs none = some t :=
        exists_maxAvailableToBlock (fun h => absurd h haddrs)
          fun addr haddr => ⟨hne, hall addr haddr⟩
      exact ⟨upTo q t, (hsome _).mpr ⟨t, ht, rfl⟩⟩
  · intro q' hq'
    obtain ⟨t, ht, rfl⟩ := (hsome q').mp hq'
    obtain ⟨hnil, hall, hlast⟩ := maxAvailableToBlock_eq_some_iff.mp ht
    obtain ⟨addr, haddr⟩ := List.exists_mem_of_ne_nil _ fun h => hnil h rfl
    have hne := (hall addr haddr).1
    have hfrom : ∀ addr ∈ q.addrs, q.blockRange.fromBlock ∈ range s addr :=
      fun addr haddr => (hall addr haddr).2
    have horder := (BlockRange.isEmpty_eq_false_iff.mp hne).2
    -- `t` is the least of the last blocks of the query and of the contracts
    have hleast : ∀ k, k ≤ t ↔
        k ≤ q.blockRange.toBlock ∧ ∀ addr ∈ q.addrs, k ≤ (range s addr).toBlock := by
      intro k
      rw [hlast]
      constructor
      · rintro ⟨-, h⟩
        exact ⟨(Nat.le_min.mp (h addr haddr)).2, fun addr haddr => (Nat.le_min.mp (h addr haddr)).1⟩
      · rintro ⟨hk, h⟩
        exact ⟨nofun, fun addr haddr => Nat.le_min.mpr ⟨h addr haddr, hk⟩⟩
    have hstart : q.blockRange.fromBlock ≤ t :=
      (hleast _).mpr ⟨horder, fun addr haddr => (mem_iff.mp (hfrom addr haddr)).2.2⟩
    obtain ⟨htop, hcontracts⟩ := (hleast t).mp (Nat.le_refl _)
    refine ⟨rfl, ⟨⟨?_, ?_⟩, ?_⟩, fun havailable => ?_⟩
    · exact mem_iff.mpr ⟨hne, hstart, htop⟩
    · exact (isAvailable_upTo_iff hfrom hstart).mpr hcontracts
    · rintro k ⟨hk, havailable⟩
      obtain ⟨-, hlow, hhigh⟩ := mem_iff.mp hk
      exact (hleast k).mpr ⟨hhigh, (isAvailable_upTo_iff hfrom hlow).mp havailable⟩
    · have hwhole : q.blockRange.toBlock ≤ t := by
        refine (hleast _).mpr ⟨Nat.le_refl _, fun addr haddr => ?_⟩
        have hmem := (isAvailable_iff hne).mp havailable addr haddr _ (toBlock_mem hne)
        exact (mem_iff.mp hmem).2.2
      obtain rfl : t = q.blockRange.toBlock := Nat.le_antisymm htop hwhole
      have hflag := (BlockRange.isEmpty_eq_false_iff.mp hne).1
      unfold upTo BlockRange.new
      rw [← hflag]

/-- A query without contracts: all of it is available, and no part of it. -/
theorem isPartiallyAvailable_without_contracts :
    let s : SetSyncSegment ℕ := Table.Keyed.empty
    let q : LogQuery ℕ ℕ := ⟨[], .new 1 10, none⟩
    isAvailable s q = true ∧ (∀ addr ∈ q.addrs, q.blockRange.fromBlock ∈ range s addr) ∧
      isPartiallyAvailable s q = none :=
  ⟨rfl, nofun, rfl⟩

end AggKit.MultiDownloader.SetSyncSegment
