import Mathlib.Data.List.Basic

/-!
# Ranges of block numbers (`common/block_range.go`)

A range has its two ends, both included, and a flag that tells the range `[0, 0]` from no range at
all. What a range is for is the set of block numbers in it: `n ∈ b` is the code's
`ContainsBlockNumber`, and each operation comes with the lemma that says which blocks the result has.
The one operation that is not exact is `extend`, the smallest range around two ranges: it also has
the blocks between them, the code's `gap`.
-/

namespace AggKit.MultiDownloader

/-- `BlockRange`. -/
structure BlockRange where
  fromBlock : ℕ
  toBlock : ℕ
  isNotEmpty : Bool
deriving DecidableEq

/-- The block `n` lies between two blocks that `p` holds of. -/
def Between (p : ℕ → Prop) (n : ℕ) : Prop := (∃ m, m ≤ n ∧ p m) ∧ ∃ m, n ≤ m ∧ p m

theorem Between.of_mem {p : ℕ → Prop} {n : ℕ} (h : p n) : Between p n :=
  ⟨⟨n, Nat.le_refl n, h⟩, n, Nat.le_refl n, h⟩

/-- Between two blocks that lie between blocks of `q` are only blocks that do so too. -/
theorem Between.trans {p q : ℕ → Prop} {n : ℕ} (h : Between p n) (hpq : ∀ m, p m → Between q m) :
    Between q n := by
  obtain ⟨⟨m, hle, hm⟩, m', hge, hm'⟩ := h
  obtain ⟨⟨k, hk, hkq⟩, -⟩ := hpq m hm
  obtain ⟨-, k', hk', hkq'⟩ := hpq m' hm'
  exact ⟨⟨k, Nat.le_trans hk hle, hkq⟩, k', Nat.le_trans hge hk', hkq'⟩

namespace BlockRange

/-- `BlockRangeZero`. -/
def zero : BlockRange := ⟨0, 0, false⟩

/-- `NewBlockRange`. -/
def new (fromBlock toBlock : ℕ) : BlockRange := ⟨fromBlock, toBlock, true⟩

/-- `IsEmpty`. -/
def isEmpty (b : BlockRange) : Bool := !b.isNotEmpty || decide (b.fromBlock > b.toBlock)

/-- `ContainsBlockNumber`. -/
def containsBlockNumber (b : BlockRange) (number : ℕ) : Bool :=
  if b.isEmpty then false else decide (b.fromBlock ≤ number) && decide (number ≤ b.toBlock)

/-- `Contains`. -/
def contains (b other : BlockRange) : Bool :=
  if b.isEmpty then false
  else decide (b.fromBlock ≤ other.fromBlock) && decide (b.toBlock ≥ other.toBlock)

/-- `Overlaps`. -/
def overlaps (b other : BlockRange) : Bool :=
  if b.isEmpty || other.isEmpty then false
  else decide (b.fromBlock ≤ other.toBlock) && decide (other.fromBlock ≤ b.toBlock)

/-- `Equal`. -/
def equal (b other : BlockRange) : Bool :=
  if b.isEmpty && other.isEmpty then true
  else decide (b.fromBlock = other.fromBlock) && decide (b.toBlock = other.toBlock) &&
    b.isEmpty == other.isEmpty

/-- `Extend`. -/
def extend (b other : BlockRange) : BlockRange :=
  if b.isEmpty then other
  else if other.isEmpty then b
  else new (min b.fromBlock other.fromBlock) (max b.toBlock other.toBlock)

/-- `Subtract`. -/
def subtract (b other : BlockRange) : List BlockRange :=
  if b.overlaps other then
    (if b.fromBlock < other.fromBlock then [new b.fromBlock (other.fromBlock - 1)] else []) ++
      (if b.toBlock > other.toBlock then [new (other.toBlock + 1) b.toBlock] else [])
  else [b]

/-- `Intersect`. -/
def intersect (b other : BlockRange) : BlockRange :=
  if b.overlaps other then new (max b.fromBlock other.fromBlock) (min b.toBlock other.toBlock)
  else zero

/-- `Cap`. -/
def cap (b : BlockRange) (maxBlockNumber : ℕ) : BlockRange :=
  if b.isEmpty then zero
  else if b.fromBlock > maxBlockNumber then zero
  else new b.fromBlock (min b.toBlock maxBlockNumber)

/-- `ListBlockNumbers`. -/
def listBlockNumbers (b : BlockRange) : List ℕ :=
  if b.isEmpty then [] else List.range' b.fromBlock (b.toBlock + 1 - b.fromBlock)

/-- `CountBlocks`. -/
def countBlocks (b : BlockRange) : ℕ :=
  if b.isEmpty then 0
  else if b.fromBlock > b.toBlock then 0
  else b.toBlock - b.fromBlock + 1

/-- `SplitByBlockNumber`. -/
def splitByBlockNumber (b : BlockRange) (blockNumber : ℕ) : BlockRange × BlockRange :=
  if b.isEmpty then (zero, zero)
  else if blockNumber < b.fromBlock then (zero, b)
  else if blockNumber ≥ b.toBlock then (b, zero)
  else (new b.fromBlock blockNumber, new (blockNumber + 1) b.toBlock)

/-! ## The blocks of a range -/

instance : Membership ℕ BlockRange := ⟨fun b n => b.containsBlockNumber n = true⟩

instance (n : ℕ) (b : BlockRange) : Decidable (n ∈ b) :=
  inferInstanceAs (Decidable (b.containsBlockNumber n = true))

variable {b other : BlockRange} {n : ℕ}

theorem isEmpty_eq_false_iff : b.isEmpty = false ↔ b.isNotEmpty = true ∧ b.fromBlock ≤ b.toBlock := by
  simp [isEmpty]

theorem mem_iff : n ∈ b ↔ b.isEmpty = false ∧ b.fromBlock ≤ n ∧ n ≤ b.toBlock := by
  have hdef : n ∈ b ↔ b.containsBlockNumber n = true := Iff.rfl
  rw [hdef, containsBlockNumber]
  cases b.isEmpty <;> simp

@[simp]
theorem notMem_zero : n ∉ zero := by
  simp [mem_iff, zero, isEmpty]

theorem isEmpty_new {a c : ℕ} : (new a c).isEmpty = decide (c < a) := by
  rfl

@[simp]
theorem mem_new {a c : ℕ} : n ∈ new a c ↔ a ≤ n ∧ n ≤ c := by
  rw [mem_iff, isEmpty_new, decide_eq_false_iff_not]
  change ¬c < a ∧ a ≤ n ∧ n ≤ c ↔ _
  omega

/-- A range that is not empty has its first block. -/
theorem fromBlock_mem (h : b.isEmpty = false) : b.fromBlock ∈ b :=
  mem_iff.mpr ⟨h, Nat.le_refl _, (isEmpty_eq_false_iff.mp h).2⟩

/-- A range that is not empty has its last block. -/
theorem toBlock_mem (h : b.isEmpty = false) : b.toBlock ∈ b :=
  mem_iff.mpr ⟨h, (isEmpty_eq_false_iff.mp h).2, Nat.le_refl _⟩

theorem isEmpty_eq_false_of_mem (h : n ∈ b) : b.isEmpty = false := (mem_iff.mp h).1

theorem notMem_of_isEmpty (h : b.isEmpty = true) : n ∉ b := fun hn => by
  rw [isEmpty_eq_false_of_mem hn] at h
  cases h

theorem overlaps_eq_true_iff : b.overlaps other = true ↔
    b.isEmpty = false ∧ other.isEmpty = false ∧ b.fromBlock ≤ other.toBlock ∧
      other.fromBlock ≤ b.toBlock := by
  unfold overlaps
  cases b.isEmpty <;> cases other.isEmpty <;> simp

/-- Two ranges overlap when they have a block in common. -/
theorem overlaps_iff_exists_mem : b.overlaps other = true ↔ ∃ n, n ∈ b ∧ n ∈ other := by
  rw [overlaps_eq_true_iff]
  constructor
  · rintro ⟨hb, hother, hle, hge⟩
    have hbLe := (isEmpty_eq_false_iff.mp hb).2
    have hotherLe := (isEmpty_eq_false_iff.mp hother).2
    refine ⟨max b.fromBlock other.fromBlock, mem_iff.mpr ⟨hb, ?_⟩, mem_iff.mpr ⟨hother, ?_⟩⟩ <;>
      omega
  · rintro ⟨n, hnb, hnother⟩
    obtain ⟨hb, hle, hge⟩ := mem_iff.mp hnb
    obtain ⟨hother, hle', hge'⟩ := mem_iff.mp hnother
    exact ⟨hb, hother, by omega, by omega⟩

/-- A range contains one with blocks when it has them all. -/
theorem contains_iff_forall_mem (hne : other.isEmpty = false) :
    b.contains other = true ↔ ∀ n ∈ other, n ∈ b := by
  have hfirst := fromBlock_mem hne
  have hlast := toBlock_mem hne
  unfold contains
  constructor
  · intro h n hn
    obtain ⟨-, hle, hge⟩ := mem_iff.mp hn
    cases hb : b.isEmpty with
    | true => simp [hb] at h
    | false =>
      simp only [hb, Bool.false_eq_true, if_false, Bool.and_eq_true, decide_eq_true_eq] at h
      exact mem_iff.mpr ⟨hb, by omega, by omega⟩
  · intro h
    obtain ⟨hb, hfrom, -⟩ := mem_iff.mp (h _ hfirst)
    obtain ⟨-, -, hto⟩ := mem_iff.mp (h _ hlast)
    simp [hb, hfrom, hto]

theorem countBlocks_of_mem (h : n ∈ b) : b.countBlocks = b.toBlock - b.fromBlock + 1 := by
  obtain ⟨hempty, hle, hge⟩ := mem_iff.mp h
  have horder : ¬b.fromBlock > b.toBlock := by omega
  rw [countBlocks, hempty, if_neg Bool.false_ne_true, if_neg horder]

theorem countBlocks_of_isEmpty (h : b.isEmpty = true) : b.countBlocks = 0 := by
  rw [countBlocks, if_pos h]

/-- A range within another one has no more blocks, and fewer where a block is missing. -/
theorem countBlocks_le (h : ∀ m ∈ other, m ∈ b) :
    other.countBlocks ≤ b.countBlocks ∧
      ∀ n ∈ b, n ∉ other → other.countBlocks < b.countBlocks := by
  cases hother : other.isEmpty with
  | true =>
    rw [countBlocks_of_isEmpty hother]
    refine ⟨Nat.zero_le _, fun n hn _ => ?_⟩
    rw [countBlocks_of_mem hn]
    exact Nat.succ_pos _
  | false =>
    -- Both ends of the inner range are blocks of the outer one.
    obtain ⟨-, hfrom, -⟩ := mem_iff.mp (h _ (fromBlock_mem hother))
    obtain ⟨-, -, hto⟩ := mem_iff.mp (h _ (toBlock_mem hother))
    have hle := (isEmpty_eq_false_iff.mp hother).2
    rw [countBlocks_of_mem (fromBlock_mem hother), countBlocks_of_mem (h _ (fromBlock_mem hother))]
    refine ⟨by omega, fun n hn hnot => ?_⟩
    obtain ⟨-, hlow, hhigh⟩ := mem_iff.mp hn
    rw [mem_iff] at hnot
    have hout : ¬(other.fromBlock ≤ n ∧ n ≤ other.toBlock) := fun hin => hnot ⟨hother, hin⟩
    omega

/-- `Extend` has the blocks of both ranges and those between them. -/
theorem mem_extend (hb : b.isEmpty = false) (hother : other.isEmpty = false) :
    n ∈ b.extend other ↔
      min b.fromBlock other.fromBlock ≤ n ∧ n ≤ max b.toBlock other.toBlock := by
  simp [extend, hb, hother]

theorem extend_of_isEmpty (hb : b.isEmpty = true) : b.extend other = other := by
  simp [extend, hb]

theorem extend_eq_self (hb : b.isEmpty = false) (hother : other.isEmpty = true) :
    b.extend other = b := by
  simp [extend, hb, hother]

theorem extend_eq_new (hb : b.isEmpty = false) (hother : other.isEmpty = false) :
    b.extend other = new (min b.fromBlock other.fromBlock) (max b.toBlock other.toBlock) := by
  simp [extend, hb, hother]

@[simp]
theorem zero_extend : zero.extend other = other := rfl

/-- Extending by the same range twice is extending once. -/
theorem extend_extend_self : (b.extend other).extend other = b.extend other := by
  cases hother : other.isEmpty with
  | true => cases hb : b.isEmpty <;> simp [extend, hb, hother]
  | false =>
    have hself : other.extend other = other := by
      obtain ⟨hflag, -⟩ := isEmpty_eq_false_iff.mp hother
      cases other
      simp_all [extend, new]
    cases hb : b.isEmpty with
    | true => rw [extend_of_isEmpty hb, hself]
    | false =>
      have hle := (isEmpty_eq_false_iff.mp hb).2
      have hne : (new (min b.fromBlock other.fromBlock) (max b.toBlock other.toBlock)).isEmpty =
          false := by
        rw [isEmpty_new, decide_eq_false_iff_not]
        omega
      rw [extend_eq_new hb hother, extend, hne, hother]
      simp [new]

theorem mem_extend_left (h : n ∈ b) : n ∈ b.extend other := by
  obtain ⟨hb, hle, hge⟩ := mem_iff.mp h
  cases hother : other.isEmpty with
  | true => simpa [extend, hb, hother] using h
  | false =>
    rw [mem_extend hb hother]
    omega

theorem mem_extend_right (h : n ∈ other) : n ∈ b.extend other := by
  obtain ⟨hother, hle, hge⟩ := mem_iff.mp h
  cases hb : b.isEmpty with
  | true => simpa [extend, hb] using h
  | false =>
    rw [mem_extend hb hother]
    omega

/-- Every block of the extended range lies between two blocks of the ranges. -/
theorem between_of_mem_extend (h : n ∈ b.extend other) :
    Between (fun m => m ∈ b ∨ m ∈ other) n := by
  cases hb : b.isEmpty with
  | true =>
    rw [extend_of_isEmpty hb] at h
    exact .of_mem (.inr h)
  | false =>
    cases hother : other.isEmpty with
    | true =>
      rw [extend_eq_self hb hother] at h
      exact .of_mem (.inl h)
    | false =>
      obtain ⟨hlow, hhigh⟩ := (mem_extend hb hother).mp h
      refine ⟨?_, ?_⟩
      · by_cases hle : b.fromBlock ≤ n
        · exact ⟨_, hle, .inl (fromBlock_mem hb)⟩
        · exact ⟨_, by omega, .inr (fromBlock_mem hother)⟩
      · by_cases hge : n ≤ b.toBlock
        · exact ⟨_, hge, .inl (toBlock_mem hb)⟩
        · exact ⟨_, by omega, .inr (toBlock_mem hother)⟩

/-- `Subtract` splits what is left of the range into at most two ranges. -/
theorem mem_subtract : (∃ r ∈ b.subtract other, n ∈ r) ↔ n ∈ b ∧ n ∉ other := by
  unfold subtract
  by_cases hover : b.overlaps other = true
  · obtain ⟨hb, hother, hle, hge⟩ := overlaps_eq_true_iff.mp hover
    rw [if_pos hover, mem_iff, mem_iff, hb, hother]
    by_cases hleft : b.fromBlock < other.fromBlock
    · by_cases hright : b.toBlock > other.toBlock
      · simp [hleft, hright]
        omega
      · simp [hleft, hright]
        omega
    · by_cases hright : b.toBlock > other.toBlock
      · simp [hleft, hright]
        omega
      · simp [hleft, hright]
        omega
  · rw [if_neg hover]
    have hnone : n ∈ b → n ∉ other := fun hnb hnother =>
      hover (overlaps_iff_exists_mem.mpr ⟨n, hnb, hnother⟩)
    simp only [List.mem_singleton, exists_eq_left]
    exact ⟨fun h => ⟨h, hnone h⟩, fun h => h.1⟩

/-- Subtracting a range that starts no later leaves one piece at most. -/
theorem length_subtract_le_one (hle : other.fromBlock ≤ b.fromBlock) :
    b.subtract other = [] ∨ ∃ r, b.subtract other = [r] := by
  unfold subtract
  rw [if_neg (Nat.not_lt.mpr hle), List.nil_append]
  split
  · split
    · exact .inr ⟨_, rfl⟩
    · exact .inl rfl
  · exact .inr ⟨_, rfl⟩

/-- A piece at the start of a range, up to a highest block. -/
theorem cap_intersect_spec {br : BlockRange} {chunk maxBlockNumber : ℕ}
    (h : (b.intersect (new b.fromBlock (b.fromBlock + chunk - 1))).cap maxBlockNumber = br)
    (hne : br.isEmpty = false) :
    br.fromBlock = b.fromBlock ∧ br.toBlock ≤ maxBlockNumber ∧ ∀ n ∈ br, n ∈ b := by
  unfold intersect at h
  by_cases hover : b.overlaps (new b.fromBlock (b.fromBlock + chunk - 1)) = true
  · obtain ⟨hb, -⟩ := overlaps_eq_true_iff.mp hover
    rw [if_pos hover, cap] at h
    split at h
    · rw [← h] at hne
      cases hne
    · split at h
      · rw [← h] at hne
        cases hne
      · subst h
        simp only [new] at *
        refine ⟨Nat.max_self _, Nat.min_le_right _ _, fun n hn => ?_⟩
        obtain ⟨hle, hge⟩ := mem_new.mp hn
        exact mem_iff.mpr ⟨hb, by omega, by omega⟩
  · rw [if_neg hover] at h
    rw [← h] at hne
    cases hne

/-- The piece has the first block of the range. -/
theorem fromBlock_mem_cap_intersect {chunk maxBlockNumber : ℕ} (hne : b.isEmpty = false)
    (hchunk : 0 < chunk) (hle : b.fromBlock ≤ maxBlockNumber) :
    b.fromBlock ∈ (b.intersect (new b.fromBlock (b.fromBlock + chunk - 1))).cap maxBlockNumber := by
  have hlast := (isEmpty_eq_false_iff.mp hne).2
  have hpiece : b.fromBlock ∈ new b.fromBlock (b.fromBlock + chunk - 1) :=
    mem_new.mpr ⟨Nat.le_refl _, by omega⟩
  have hover := overlaps_iff_exists_mem.mpr ⟨b.fromBlock, fromBlock_mem hne, hpiece⟩
  rw [intersect, if_pos hover]
  have hmax : max b.fromBlock (new b.fromBlock (b.fromBlock + chunk - 1)).fromBlock = b.fromBlock :=
    Nat.max_self _
  have hmin : b.fromBlock ≤ min b.toBlock (new b.fromBlock (b.fromBlock + chunk - 1)).toBlock := by
    simp only [new]
    omega
  rw [hmax, cap, isEmpty_new, decide_eq_false (by omega), if_neg Bool.false_ne_true,
    if_neg (by simp only [new]; omega)]
  refine mem_new.mpr ⟨Nat.le_refl _, ?_⟩
  simp only [new] at hmin ⊢
  omega

theorem mem_listBlockNumbers : n ∈ b.listBlockNumbers ↔ n ∈ b := by
  rw [listBlockNumbers, mem_iff]
  cases b.isEmpty with
  | true => simp
  | false =>
    simp only [Bool.false_eq_true, if_false, List.mem_range'_1, true_and]
    omega

end BlockRange

end AggKit.MultiDownloader
