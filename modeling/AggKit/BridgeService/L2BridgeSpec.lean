import AggKit.BridgeService.L2Bridge
import AggKit.BridgeSync.Invariant
import AggKit.L1InfoTreeSync.Verified

/-!
# What the search over verified batches finds

The search asks for the first batch from a block on, so of several batches of the rollup in one block it
only sees the first. Among those first batches it finds the first one that includes the deposit, and it
returns the last batch of all when none of them does. This is the first batch that includes the deposit
exactly when that batch is the first of its block or the last of all.
-/

namespace AggKit.BridgeService

open L1InfoTreeSync Run Table List Tracked

variable {H : Type} [DecidableEq H]

/-- The verified batches of the rollup, in order. -/
def Service.verified (s : Service H) : List (VerifyBatches H) :=
  s.l1InfoTree.verifiedInOrder s.networkID

/-- The local exit root of the batch includes the deposit. -/
def Service.Includes (s : Service H) (depositCount : UInt32) (v : VerifyBatches H) : Prop :=
  ∃ root ∈ s.bridgeL2.getRootByHash v.exitRoot, depositCount ≤ root.index

instance (s : Service H) (depositCount : UInt32) (v : VerifyBatches H) :
    Decidable (s.Includes depositCount v) :=
  decidable_of_iff (((s.bridgeL2.getRootByHash v.exitRoot).any fun root =>
    decide (depositCount ≤ root.index)) = true) (by simp [Service.Includes, Option.any_eq_true])

/-- A scan of all batches for the first one that includes the deposit. -/
def Service.scan (s : Service H) (depositCount : UInt32) : Option (VerifyBatches H) :=
  s.verified.find? fun v => decide (s.Includes depositCount v)

/-- The batch is the first of the rollup in its block. -/
abbrev Service.FirstOfBlock (s : Service H) (v : VerifyBatches H) : Prop :=
  IsHead VerifyBatches.blockNumber s.verified v

omit [DecidableEq H] in
theorem pairwise_blockNumber (s : Service H) :
    s.verified.Pairwise fun a b => a.blockNumber ≤ b.blockNumber := by
  refine (pairwise_orderBy _ _).imp fun {a b} hab => ?_
  have hlex : a.blockNumber < b.blockNumber ∨
      a.blockNumber = b.blockNumber ∧ a.blockPosition ≤ b.blockPosition :=
    Prod.Lex.toLex_le_toLex.mp hab
  omega

/-- Every batch has a local exit root that the L2 bridge syncer knows, and each includes more deposits
than the one before. -/
structure Service.Growing (s : Service H) (deposits : VerifyBatches H → ℕ) : Prop where
  known : ∀ v ∈ s.verified, ∃ root, s.bridgeL2.getRootByHash v.exitRoot = some root ∧
    root.index.toNat = deposits v
  increasing : s.verified.Pairwise fun a b => deposits a < deposits b

section growing

variable {s : Service H} {deposits : VerifyBatches H → ℕ} (hs : s.Growing deposits)
  {u v : VerifyBatches H} {depositCount : UInt32}
include hs

theorem Service.Growing.includes_iff (hv : v ∈ s.verified) :
    s.Includes depositCount v ↔ depositCount.toNat ≤ deposits v := by
  obtain ⟨root, hroot, hindex⟩ := hs.known v hv
  unfold Service.Includes
  rw [hroot, ← hindex]
  simp [UInt32.le_iff_toNat_le]

theorem Service.Growing.index_eq {root : Tree.Root H} (hv : v ∈ s.verified)
    (hroot : s.bridgeL2.getRootByHash v.exitRoot = some root) : root.index.toNat = deposits v := by
  obtain ⟨root', hroot', hindex⟩ := hs.known v hv
  rwa [Option.some.inj (hroot.symm.trans hroot')]

/-- Batches of earlier blocks include fewer deposits. -/
theorem Service.Growing.lt_of_block_lt (hu : u ∈ s.verified) (hv : v ∈ s.verified)
    (hlt : u.blockNumber < v.blockNumber) : deposits u < deposits v := by
  refine List.Pairwise.forall_of_forall_of_flip
    (R := fun u v => u.blockNumber < v.blockNumber → deposits u < deposits v)
    (fun _ _ hlt => absurd hlt (Nat.lt_irrefl _)) (hs.increasing.imp ?_)
    ((pairwise_blockNumber s).imp ?_) hu hv hlt
  · exact fun hlt _ => hlt
  · exact fun hle hlt => absurd hlt (Nat.not_lt.mpr hle)

/-- Batches that include the same deposits are one. -/
theorem Service.Growing.eq_of_deposits_eq (hu : u ∈ s.verified) (hv : v ∈ s.verified)
    (heq : deposits u = deposits v) : u = v := by
  have hnodup : (s.verified.map deposits).Nodup :=
    pairwise_map.mpr (hs.increasing.imp fun hlt => hlt.ne)
  exact inj_on_of_nodup_map hnodup hu hv heq

/-- Where the search stands: the first batches of blocks below the interval do not include the deposit,
and `best` is the first one above it that does, or still the last batch of all. -/
structure Service.Searching (s : Service H) (deposits : VerifyBatches H → ℕ) (depositCount : UInt32)
    (last : VerifyBatches H) (w : Window (VerifyBatches H)) : Prop where
  below : ∀ v, s.FirstOfBlock v → v.blockNumber < w.lower → deposits v < depositCount.toNat
  above : (s.FirstOfBlock w.best ∧ depositCount.toNat ≤ deposits w.best ∧
      ∀ v, s.FirstOfBlock v → v.blockNumber < w.best.blockNumber → v.blockNumber ≤ w.upper) ∨
    (w.best = last ∧ ∀ v, s.FirstOfBlock v → v.blockNumber ≤ w.upper)
  upper_le : w.upper ≤ last.blockNumber

/-- What the search finds. -/
def Service.Finds (s : Service H) (deposits : VerifyBatches H → ℕ) (depositCount : UInt32)
    (last b : VerifyBatches H) : Prop :=
  (s.FirstOfBlock b ∧ depositCount.toNat ≤ deposits b ∧
      ∀ v, s.FirstOfBlock v → v.blockNumber < b.blockNumber → deposits v < depositCount.toNat) ∨
    (b = last ∧ ∀ v, s.FirstOfBlock v → deposits v < depositCount.toNat)

variable {last : VerifyBatches H} {w : Window (VerifyBatches H)}

omit hs [DecidableEq H] in
/-- When no block is left, `best` is found. -/
theorem Service.Searching.finds (h : s.Searching deposits depositCount last w)
    (hle : w.upper < w.lower) : s.Finds deposits depositCount last w.best := by
  rcases h.above with ⟨hfirst, hcount, habove⟩ | ⟨hlast, habove⟩
  · refine .inl ⟨hfirst, hcount, fun v hv hlt => h.below v hv ?_⟩
    have := habove v hv hlt
    omega
  · refine .inr ⟨hlast, fun v hv => h.below v hv ?_⟩
    have := habove v hv
    omega

omit hs [DecidableEq H] in
/-- There is no batch from the target up to the upper limit. -/
theorem Service.Searching.none_above (h : s.Searching deposits depositCount last w)
    (hv : s.l1InfoTree.getFirstVerifiedBatchesAfterBlock s.networkID w.target = some v)
    (habove : w.upper < v.blockNumber) {m : ℕ} (hm : w.target ≤ m + 1) (hmu : m ≤ w.upper) :
    s.Searching deposits depositCount last ⟨w.best, w.lower, m⟩ := by
  -- a first batch that is at most `upper` is below the target
  have hdrop : ∀ u, s.FirstOfBlock u → u.blockNumber ≤ w.upper → u.blockNumber ≤ m := by
    intro u hu hupper
    by_contra hgt
    have hfrom := num_le_of_firstFrom (pairwise_blockNumber s) hv hu.mem (by omega)
    omega
  refine ⟨h.below, ?_, hmu.trans h.upper_le⟩
  rcases h.above with ⟨hfirst, hcount, hbest⟩ | ⟨hlast, hbest⟩
  · exact .inl ⟨hfirst, hcount, fun u hu hlt => hdrop u hu (hbest u hu hlt)⟩
  · exact .inr ⟨hlast, fun u hu => hdrop u hu (hbest u hu)⟩

theorem Service.Searching.again {w' : Window (VerifyBatches H)}
    (h : s.Searching deposits depositCount last w)
    (hbody : binarySearchBody s depositCount w = .ok (.again w')) :
    s.Searching deposits depositCount last w' := by
  have hmid : w.lower ≤ w.upper → w.lower ≤ w.target ∧ w.target ≤ w.upper := by
    unfold Window.target
    omega
  cases probe_of_binarySearchBody hbody with
  | above hle hv habove hzero =>
    exact h.none_above hv habove (by omega) (by omega)
  | less hle hv hupper hroot hless =>
    have hfirst := isHead_of_firstFrom (pairwise_blockNumber s) hv
    rw [UInt32.lt_iff_toNat_lt, hs.index_eq hfirst.mem hroot] at hless
    refine ⟨fun u hu hlt => ?_, h.above, h.upper_le⟩
    -- a first batch up to the block of `v` includes no more than `v`
    rcases Nat.lt_or_eq_of_le (Nat.lt_succ_iff.mp hlt) with hlt | heq
    · exact (hs.lt_of_block_lt hu.mem hfirst.mem hlt).trans hless
    · rw [hu.eq_of_num_eq hfirst heq]
      exact hless
  | more hle hv hupper hroot hmore hblock =>
    rename_i v _
    have hfirst := isHead_of_firstFrom (pairwise_blockNumber s) hv
    rw [UInt32.lt_iff_toNat_lt, hs.index_eq hfirst.mem hroot] at hmore
    have hlast := h.upper_le
    refine ⟨h.below, .inl ⟨hfirst, hmore.le, fun u hu hlt => ?_⟩, ?_⟩
    · exact Nat.le_sub_one_of_lt hlt
    · show v.blockNumber - 1 ≤ last.blockNumber
      omega

theorem Service.Searching.done {result : Option (VerifyBatches H)}
    (h : s.Searching deposits depositCount last w)
    (hbody : binarySearchBody s depositCount w = .ok (.done result)) :
    ∃ b, result = some b ∧ s.Finds deposits depositCount last b := by
  cases probe_of_binarySearchBody hbody with
  | exhausted hlt => exact ⟨w.best, rfl, h.finds hlt⟩
  | aboveZero hle hv habove hzero =>
    -- no first batch is up to the upper limit
    have hnone : ∀ u, s.FirstOfBlock u → ¬ u.blockNumber ≤ w.upper := by
      intro u hu hupper
      have := num_le_of_firstFrom (pairwise_blockNumber s) hv hu.mem (by omega)
      omega
    refine ⟨w.best, rfl, ?_⟩
    rcases h.above with ⟨hfirst, hcount, hbest⟩ | ⟨hlast, hbest⟩
    · exact .inl ⟨hfirst, hcount, fun u hu hlt => absurd (hbest u hu hlt) (hnone u hu)⟩
    · exact .inr ⟨hlast, fun u hu => absurd (hbest u hu) (hnone u hu)⟩
  | missing hle hv hupper hroot =>
    rename_i v
    obtain ⟨root, hroot', -⟩ := hs.known v (mem_of_firstFrom hv)
    exact absurd (hroot.symm.trans hroot') (by simp)
  | stop hle hv hupper hroot hstop =>
    rename_i v _
    have hfirst := isHead_of_firstFrom (pairwise_blockNumber s) hv
    have hindex := hs.index_eq hfirst.mem hroot
    refine ⟨v, rfl, .inl ⟨hfirst, ?_, fun u hu hlt => ?_⟩⟩
    · rcases hstop with rfl | ⟨hmore, -⟩
      · exact hindex.le
      · exact hindex ▸ (UInt32.lt_iff_toNat_lt.mp hmore).le
    · rcases hstop with rfl | ⟨-, hzero⟩
      · exact hindex ▸ hs.lt_of_block_lt hu.mem hfirst.mem hlt
      · omega

omit hs in
/-- The search does not fail: the last batch is from every target on. -/
theorem Service.Searching.not_error {err : BridgeError}
    (h : s.Searching deposits depositCount last w) (hlast : last ∈ s.verified)
    (hbody : binarySearchBody s depositCount w = .error err) : False := by
  have hfound : w.lower ≤ w.upper →
      ∃ v, s.l1InfoTree.getFirstVerifiedBatchesAfterBlock s.networkID w.target = some v := by
    intro hle
    refine exists_firstFrom hlast ?_
    have := h.upper_le
    unfold Window.target
    omega
  obtain ⟨next, hok, -⟩ := binarySearchBody_spec hfound
  exact nomatch hbody.symm.trans hok

variable {first : VerifyBatches H}

omit hs [DecidableEq H] in
theorem blockNumber_first_le (hfirst : s.verified.head? = some first) (hv : v ∈ s.verified) :
    first.blockNumber ≤ v.blockNumber := by
  obtain ⟨vs, hvs⟩ := head?_eq_some_iff.mp hfirst
  have hsorted := pairwise_blockNumber s
  rw [hvs] at hsorted hv
  rcases mem_cons.mp hv with rfl | hv
  · exact le_rfl
  · exact (pairwise_cons.mp hsorted).1 v hv

/-- The last batch includes the most deposits. -/
theorem Service.Growing.deposits_le_last (hlast : s.verified.getLast? = some last)
    (hv : v ∈ s.verified) :
    deposits v ≤ deposits last := by
  rcases Table.rel_of_getLast? hs.increasing hlast hv with rfl | hlt
  · exact le_rfl
  · exact hlt.le

omit hs in
/-- The binary search ends after as many iterations as there are blocks, and one. -/
theorem run_binarySearchBody (s : Service H) (first last : VerifyBatches H) (depositCount : UInt32) :
    Loop.run (binarySearchBody s depositCount) (last.blockNumber + 1 - first.blockNumber + 1)
        ⟨last, first.blockNumber, last.blockNumber⟩ =
      some (getFirstVerifiedBatchesForL2DepositCountBinary s first last depositCount) :=
  Loop.run_eq_eval Window.size size_of_binarySearchBody _

/-- No block with a batch is above that of the last one. -/
theorem Service.Growing.blockNumber_le_last (hlast : s.verified.getLast? = some last)
    (hv : v ∈ s.verified) : v.blockNumber ≤ last.blockNumber := by
  by_contra hgt
  have hcount := hs.lt_of_block_lt (mem_of_getLast? hlast) hv (Nat.lt_of_not_le hgt)
  exact absurd (hs.deposits_le_last hlast hv) (Nat.not_le.mpr hcount)

/-- The binary search finds a batch. -/
theorem Service.Growing.binary (hfirst : s.verified.head? = some first)
    (hlast : s.verified.getLast? = some last) (depositCount : UInt32) :
    ∃ b, getFirstVerifiedBatchesForL2DepositCountBinary s first last depositCount = .ok (some b) ∧
      s.Finds deposits depositCount last b := by
  let start : Window (VerifyBatches H) := ⟨last, first.blockNumber, last.blockNumber⟩
  have hstart : s.Searching deposits depositCount last start := by
    refine ⟨fun v hv hlt => ?_, .inr ⟨rfl, fun v hv => hs.blockNumber_le_last hlast hv.mem⟩, le_rfl⟩
    exact absurd hlt (Nat.not_lt.mpr (blockNumber_first_le hfirst hv.mem))
  have hrun := run_binarySearchBody s first last depositCount
  have hspec := Loop.run_spec (s.Searching deposits depositCount last)
    (fun h hbody => h.again hs hbody) (fun h hbody => h.done hs hbody)
    (fun h hbody => h.not_error (mem_of_getLast? hlast) hbody) hstart hrun
  cases hresult : getFirstVerifiedBatchesForL2DepositCountBinary s first last depositCount with
  | error err => exact (hspec.2 err hresult).elim
  | ok result =>
    obtain ⟨b, rfl, hfinds⟩ := hspec.1 result hresult
    exact ⟨b, rfl, hfinds⟩

/-- The scan returns the batch with the fewest deposits among those that include the deposit. -/
theorem Service.Growing.scan_spec (hscan : s.scan depositCount = some v) :
    v ∈ s.verified ∧ depositCount.toNat ≤ deposits v ∧
      ∀ u ∈ s.verified, depositCount.toNat ≤ deposits u → deposits v ≤ deposits u := by
  have hv : v ∈ s.verified := mem_of_find?_eq_some hscan
  have hincludes : s.Includes depositCount v := of_decide_eq_true (find?_some hscan :)
  refine ⟨hv, (hs.includes_iff hv).mp hincludes, fun u hu hcount => ?_⟩
  rcases Table.rel_of_find? hs.increasing hscan hu
    (decide_eq_true ((hs.includes_iff hu).mpr hcount)) with rfl | hlt
  · exact le_rfl
  · exact hlt.le

/-- What the search finds is what the scan finds, if that is the first batch of its block or the last
batch of all. -/
theorem Service.Growing.scan_eq_iff {b : VerifyBatches H} (hlast : s.verified.getLast? = some last)
    (hb : s.Finds deposits depositCount last b) :
    s.scan depositCount = some b ↔
      ∃ v, s.scan depositCount = some v ∧ (s.FirstOfBlock v ∨ v = last) := by
  constructor
  · intro hscan
    rcases hb with ⟨hfirst, -⟩ | ⟨rfl, -⟩
    · exact ⟨b, hscan, .inl hfirst⟩
    · exact ⟨b, hscan, .inr rfl⟩
  · rintro ⟨v, hscan, hv⟩
    obtain ⟨hmem, hincludes, hleast⟩ := hs.scan_spec hscan
    suffices heq : v = b by rw [hscan, heq]
    rcases hb with ⟨hfirst, hbcount, hearlier⟩ | ⟨rfl, hnone⟩
    · have hle := hleast b hfirst.mem hbcount
      rcases hv with hv | rfl
      · -- both are first of their blocks, so neither block is before the other
        rcases Nat.lt_trichotomy v.blockNumber b.blockNumber with hlt | heq | hgt
        · exact absurd (hearlier v hv hlt) (Nat.not_lt.mpr hincludes)
        · exact hv.eq_of_num_eq hfirst heq
        · exact absurd (hs.lt_of_block_lt hfirst.mem hmem hgt) (Nat.not_lt.mpr hle)
      · exact hs.eq_of_deposits_eq hmem hfirst.mem
          (le_antisymm hle (hs.deposits_le_last hlast hfirst.mem))
    · rcases hv with hv | rfl
      · exact absurd (hnone v hv) (Nat.not_lt.mpr hincludes)
      · rfl

/-- One iteration of the scan from block to block: it fails above the last block, and looks at the
first batch of the next block that has one. -/
theorem Service.Growing.linearScanBody_cases (hlast : s.verified.getLast? = some last)
    (nextBlock : ℕ) :
    (last.blockNumber < nextBlock ∧
        linearScanBody s last.blockNumber depositCount nextBlock = .error .notOnL1Info) ∨
      ∃ v, s.FirstOfBlock v ∧
        (∀ u ∈ s.verified, nextBlock ≤ u.blockNumber → v.blockNumber ≤ u.blockNumber) ∧
        linearScanBody s last.blockNumber depositCount nextBlock =
          if depositCount.toNat ≤ deposits v then .ok (.done v)
          else .ok (.again (v.blockNumber + 1)) := by
  by_cases hle : nextBlock ≤ last.blockNumber
  swap
  · exact .inl ⟨Nat.lt_of_not_le hle, if_neg hle⟩
  obtain ⟨v, hv⟩ := exists_firstFrom (mem_of_getLast? hlast) hle
  have hhead := isHead_of_firstFrom (pairwise_blockNumber s) hv
  have hlater := fun u hu => num_le_of_firstFrom (s := u) (pairwise_blockNumber s) hv hu
  obtain ⟨root, hroot, hindex⟩ := hs.known v hhead.mem
  refine .inr ⟨v, hhead, hlater, ?_⟩
  have hv' : s.l1InfoTree.getFirstVerifiedBatchesAfterBlock s.networkID nextBlock = some v := hv
  unfold linearScanBody
  rw [if_pos hle, hv', ← hindex]
  simp [row, Nat.not_lt.mpr (hlater last (mem_of_getLast? hlast) hle), hroot, UInt32.le_iff_toNat_le]

/-- The scan from block to block returns the first one among the first batches of their blocks, and
fails if there is none. -/
theorem Service.Growing.linear (hfirst : s.verified.head? = some first)
    (hlast : s.verified.getLast? = some last) (depositCount : UInt32) :
    let result := getFirstVerifiedBatchesForL2DepositCountLinear s first.blockNumber
      last.blockNumber depositCount
    (∀ v, result = .ok v → s.FirstOfBlock v ∧ depositCount.toNat ≤ deposits v ∧
        ∀ u, s.FirstOfBlock u → u.blockNumber < v.blockNumber → deposits u < depositCount.toNat) ∧
      ∀ err, result = .error err → ∀ u, s.FirstOfBlock u → deposits u < depositCount.toNat := by
  intro result
  have hrun : Loop.run (linearScanBody s last.blockNumber depositCount)
      (last.blockNumber + 1 - first.blockNumber + 1) first.blockNumber = some result :=
    Loop.run_eq_eval (fun nextBlock => last.blockNumber + 1 - nextBlock) size_of_linearScanBody _
  refine Loop.run_spec (fun nextBlock => ∀ u, s.FirstOfBlock u → u.blockNumber < nextBlock →
    deposits u < depositCount.toNat) ?_ ?_ ?_ ?_ hrun
  · intro nextBlock nextBlock' hbelow hbody u hu hlt
    rcases hs.linearScanBody_cases hlast nextBlock with ⟨-, heq⟩ | ⟨v, hhead, hlater, heq⟩
    · exact nomatch hbody.symm.trans heq
    rw [heq] at hbody
    split_ifs at hbody with hcount <;> cases hbody
    by_cases hnext : u.blockNumber < nextBlock
    · exact hbelow u hu hnext
    · -- no first batch is between the block and that of `v`
      have hge := hlater u hu.mem (by omega)
      have heq : u = v := hu.eq_of_num_eq hhead (by omega)
      rw [heq]
      omega
  · intro nextBlock v' hbelow hbody
    rcases hs.linearScanBody_cases hlast nextBlock with ⟨-, heq⟩ | ⟨v, hhead, hlater, heq⟩
    · exact nomatch hbody.symm.trans heq
    rw [heq] at hbody
    split_ifs at hbody with hcount <;> cases hbody
    refine ⟨hhead, hcount, fun u hu hlt => hbelow u hu ?_⟩
    by_contra hge
    have := hlater u hu.mem (by omega)
    omega
  · intro nextBlock err hbelow hbody u hu
    rcases hs.linearScanBody_cases hlast nextBlock with ⟨hlt, -⟩ | ⟨v, -, -, heq⟩
    · exact hbelow u hu ((hs.blockNumber_le_last hlast hu.mem).trans_lt hlt)
    · rw [heq] at hbody
      split_ifs at hbody
  · intro u hu hlt
    exact absurd hlt (Nat.not_lt.mpr (blockNumber_first_le hfirst hu.mem))

/-- The scan from block to block returns what the search finds, unless no first batch of a block
includes the deposit. -/
theorem Service.Growing.linear_eq_iff {b : VerifyBatches H}
    (hfirst : s.verified.head? = some first) (hlast : s.verified.getLast? = some last)
    (hb : s.Finds deposits depositCount last b) :
    getFirstVerifiedBatchesForL2DepositCountLinear s first.blockNumber last.blockNumber
        depositCount = .ok b ↔ ∃ v, s.FirstOfBlock v ∧ s.Includes depositCount v := by
  obtain ⟨hok, herror⟩ := hs.linear hfirst hlast depositCount
  constructor
  · intro hresult
    obtain ⟨hhead, hcount, -⟩ := hok b hresult
    exact ⟨b, hhead, (hs.includes_iff hhead.mem).mpr hcount⟩
  · rintro ⟨v, hhead, hincludes⟩
    have hcount := (hs.includes_iff hhead.mem).mp hincludes
    cases hresult : getFirstVerifiedBatchesForL2DepositCountLinear s first.blockNumber
      last.blockNumber depositCount with
    | error err => exact absurd (herror err hresult v hhead) (Nat.not_lt.mpr hcount)
    | ok u =>
      obtain ⟨huhead, hucount, hubefore⟩ := hok u hresult
      rcases hb with ⟨hbhead, hbcount, hbbefore⟩ | ⟨-, hnone⟩
      · rcases Nat.lt_trichotomy u.blockNumber b.blockNumber with hlt | heq | hgt
        · exact absurd (hbbefore u huhead hlt) (Nat.not_lt.mpr hucount)
        · rw [huhead.eq_of_num_eq hbhead heq]
        · exact absurd (hubefore b hbhead hgt) (Nat.not_lt.mpr hbcount)
      · exact absurd (hnone v hhead) (Nat.not_lt.mpr hcount)

end growing

/-! ## Histories of the syncer -/

section history

variable {K : Keccak H} {db : Tables H} {rollupExitTree : Tree.Store H}

omit [DecidableEq H] in
/-- The batches of a rollup are in order in the table. -/
theorem verifiedInOrder_eq (h : Verified K db.verifyBatches rollupExitTree) (rollupID : UInt32) :
    db.verifiedInOrder rollupID = db.verifyBatches.filter fun v => v.rollupID = rollupID := by
  apply orderBy_eq_self
  have hordered := h.updated.ordered
  rw [pairwise_map] at hordered
  refine (hordered.imp fun {a b} hab => ?_).sublist filter_sublist
  have hlt : a.blockNumber < b.blockNumber ∨
    a.blockNumber = b.blockNumber ∧ a.blockPosition < b.blockPosition := hab
  exact (Prod.Lex.toLex_lt_toLex.mpr hlt).le

/-- A history of local exit roots that do not decrease increases, since the syncer skips a batch that
does not change the local exit root. -/
theorem growing_of_verified (h : Verified K db.verifyBatches rollupExitTree) {s : Service H}
    (hdb : s.l1InfoTree = db) (hroots : (s.bridgeL2.root.map (·.index)).Nodup)
    {deposits : VerifyBatches H → ℕ}
    (hknown : ∀ v ∈ s.verified, ∃ root, s.bridgeL2.getRootByHash v.exitRoot = some root ∧
      root.index.toNat = deposits v)
    (hmono : s.verified.Pairwise fun a b => deposits a ≤ deposits b) : s.Growing deposits where
  known := hknown
  increasing := by
    have hchain : s.verified.IsChain fun a b => a.exitRoot ≠ b.exitRoot := by
      unfold Service.verified
      rw [hdb, verifiedInOrder_eq h]
      exact h.isChain_exitRoot s.networkID
    -- batches that include the same deposits have the same exit root
    have hsame : ∀ a ∈ s.verified, ∀ b ∈ s.verified, deposits a = deposits b →
        a.exitRoot = b.exitRoot := by
      intro a ha b hb heq
      obtain ⟨r, hr, hrindex⟩ := hknown a ha
      obtain ⟨r', hr', hrindex'⟩ := hknown b hb
      have hindex : r.index = r'.index := UInt32.toNat_inj.mp (by rw [hrindex, hrindex', heq])
      have hrow : r = r' := inj_on_of_nodup_map hroots (mem_of_find?_eq_some hr)
        (mem_of_find?_eq_some hr') hindex
      have hhash : r.hash = a.exitRoot := by simpa using find?_some hr
      have hhash' : r'.hash = b.exitRoot := by simpa using find?_some hr'
      rw [← hhash, ← hhash', hrow]
    have hstrict : s.verified.IsChain fun a b => deposits a < deposits b := by
      rw [isChain_iff_getElem] at hchain ⊢
      intro i hi
      have hle := pairwise_iff_getElem.mp hmono i (i + 1) (by omega) hi (by omega)
      refine lt_of_le_of_ne hle fun heq => hchain i hi ?_
      exact hsame _ (getElem_mem _) _ (getElem_mem _) heq
    have hmap : (s.verified.map deposits).IsChain (· < ·) := (isChain_map _).mpr hstrict
    exact pairwise_map.mp (isChain_iff_pairwise.mp hmap)

end history

section index

variable {s : Service H} {deposits : VerifyBatches H → ℕ} {depositCount : UInt32}
  {first last b : VerifyBatches H}

/-- The index is that of the first leaf with the rollup exit root of the batch that was found. -/
theorem index_of_binary (hfirst : s.l1InfoTree.getFirstVerifiedBatches s.networkID = some first)
    (hlast : s.l1InfoTree.getLastVerifiedBatches s.networkID = some last) (hincludes : s.Includes depositCount last)
    (hbinary : getFirstVerifiedBatchesForL2DepositCountBinary s first last depositCount =
      .ok (some b)) :
    getFirstL1InfoTreeIndexForL2Bridge s depositCount =
      (row (s.l1InfoTree.getFirstL1InfoWithRollupExitRoot b.rollupExitRoot)).map
        (·.l1InfoTreeIndex) := by
  obtain ⟨root, hroot, hle⟩ := hincludes
  have hnot : ¬ root.index < depositCount := UInt32.not_lt.mpr hle
  have hroot' : s.bridgeL2.getRootByHash last.exitRoot = some root := hroot
  unfold getFirstL1InfoTreeIndexForL2Bridge
  rw [hlast, hfirst]
  simp only [row, Exec.except_ok_bind, hroot', pure_bind, if_neg hnot, hbinary]
  cases s.l1InfoTree.getFirstL1InfoWithRollupExitRoot b.rollupExitRoot with
  | none | some info => rfl

theorem Service.Growing.not_on_l1_info (hs : s.Growing deposits)
    (hlast : s.l1InfoTree.getLastVerifiedBatches s.networkID = some last)
    (hincludes : ¬ s.Includes depositCount last) :
    s.scan depositCount = none ∧
      getFirstL1InfoTreeIndexForL2Bridge s depositCount = .error .notOnL1Info := by
  obtain ⟨root, hroot, hindex⟩ := hs.known last (mem_of_getLast? hlast)
  have hfew : deposits last < depositCount.toNat := by
    rw [hs.includes_iff (mem_of_getLast? hlast)] at hincludes
    omega
  constructor
  · unfold Service.scan
    rw [find?_eq_none]
    intro v hv hincl
    have hcount := (hs.includes_iff hv).mp (of_decide_eq_true hincl)
    have hmost := hs.deposits_le_last hlast hv
    omega
  · have hlt : root.index < depositCount := by
      rw [UInt32.lt_iff_toNat_lt, hindex]
      exact hfew
    unfold getFirstL1InfoTreeIndexForL2Bridge
    rw [hlast]
    simp only [row, Exec.except_ok_bind, hroot, pure_bind, if_pos hlt]
    rfl

end index

/-- For every history of local exit roots that include a non-decreasing number of deposits, the binary
search ends. It finds the batch that a scan of all batches finds exactly when that is the first batch of
the rollup in its block or the last batch of all, and the batch that the scan from block to block finds
exactly when the first batch of some block includes the deposit. The rollup exit root of the L1 info leaf
whose index is returned contains the local exit root of the batch. -/
theorem binarySearch_eq_scan_iff {K : Keccak H} (hinj : Function.Injective2 K.pair) {τ : Tracked H}
    (hrun : Reach (call K) InOrder (new K) τ) {s : Service H}
    (hdb : s.l1InfoTree = τ.processor.db) (hroots : (s.bridgeL2.root.map (·.index)).Nodup)
    {deposits : VerifyBatches H → ℕ}
    (hknown : ∀ v ∈ s.verified, ∃ root, s.bridgeL2.getRootByHash v.exitRoot = some root ∧
      root.index.toNat = deposits v)
    (hmono : s.verified.Pairwise fun a b => deposits a ≤ deposits b) {first last : VerifyBatches H}
    (hfirst : s.l1InfoTree.getFirstVerifiedBatches s.networkID = some first)
    (hlast : s.l1InfoTree.getLastVerifiedBatches s.networkID = some last) (depositCount : UInt32) :
    (s.Includes depositCount last → ∃ b,
      Loop.run (binarySearchBody s depositCount) (last.blockNumber + 1 - first.blockNumber + 1)
          ⟨last, first.blockNumber, last.blockNumber⟩ = some (.ok (some b)) ∧
        (s.scan depositCount = some b ↔
          ∃ v, s.scan depositCount = some v ∧ (s.FirstOfBlock v ∨ v = last)) ∧
        (getFirstVerifiedBatchesForL2DepositCountLinear s first.blockNumber last.blockNumber
          depositCount = .ok b ↔ ∃ v, s.FirstOfBlock v ∧ s.Includes depositCount v) ∧
        getFirstL1InfoTreeIndexForL2Bridge s depositCount =
          (row (s.l1InfoTree.getFirstL1InfoWithRollupExitRoot b.rollupExitRoot)).map
            (·.l1InfoTreeIndex) ∧
        ∀ info, s.l1InfoTree.getFirstL1InfoWithRollupExitRoot b.rollupExitRoot = some info →
          Tree.getLeaf τ.processor.rollupExitTree (s.networkID - 1) info.rollupExitRoot =
            some b.exitRoot) ∧
      (¬ s.Includes depositCount last → s.scan depositCount = none ∧
        getFirstL1InfoTreeIndexForL2Bridge s depositCount = .error .notOnL1Info) := by
  have hverified := (stands_of_run hinj hrun).verified
  have hs := growing_of_verified hverified hdb hroots hknown hmono
  refine ⟨fun hincludes => ?_, hs.not_on_l1_info hlast⟩
  obtain ⟨b, hbinary, hfinds⟩ := hs.binary hfirst hlast depositCount
  refine ⟨b, ?_, hs.scan_eq_iff hlast hfinds, hs.linear_eq_iff hfirst hlast hfinds,
    index_of_binary hfirst hlast hincludes hbinary, ?_⟩
  · rw [run_binarySearchBody, hbinary]
  · intro info hinfo
    have hb : b ∈ s.verified := by
      rcases hfinds with ⟨hhead, -⟩ | ⟨rfl, -⟩
      · exact hhead.mem
      · exact mem_of_getLast? hlast
    unfold Service.verified at hb
    rw [hdb, verifiedInOrder_eq hverified] at hb
    obtain ⟨hmem, hrollup⟩ := mem_filter.mp hb
    have hroot : info.rollupExitRoot = b.rollupExitRoot := by simpa using find?_some hinfo
    rw [hroot, ← of_decide_eq_true hrollup]
    exact hverified.getLeaf hinj hmem

/-- A `VerifyBatches` of rollup 1. -/
def batchEvent {H : Type} (zero : H) (blockPosition : ℕ) (exitRoot : H) : Event H :=
  { verifyBatches := some ⟨0, blockPosition, 1, 1, zero, exitRoot, ZeroAddress, none, none, zero⟩ }

/-- A block with one verified batch. -/
def oneBatch : Block (List UInt8) := ⟨1, [], [batchEvent [] 0 [7]]⟩

/-- The syncer that was given that block. -/
def afterOneBatch : Tracked (List UInt8) :=
  (new freeKeccak).call freeKeccak (.processBlock oneBatch)

/-- A service whose L2 bridge syncer knows the local exit root. -/
def oneBatchService : Service (List UInt8) :=
  ⟨afterOneBatch.processor.db, Tree.Store.empty, ⟨[⟨[7], 0, 1, 0⟩], []⟩, 1⟩

/-- The row of the batch. -/
def oneBatchRow : VerifyBatches (List UInt8) :=
  (Content.empty freeKeccak).newRow freeKeccak 1
    ⟨0, 0, 1, 1, [], [7], ZeroAddress, none, none, []⟩

theorem verifyBatches_afterOneBatch :
    afterOneBatch.processor.db.verifyBatches = [oneBatchRow] := by
  have horderly : Orderly ([] ++ [oneBatch]) := by
    refine ⟨pairwise_singleton _ _, fun b hb => ?_, by decide⟩
    obtain rfl := mem_singleton.mp hb
    exact pairwise_singleton _ _
  rcases (Consistent.new freeKeccak).processBlocksSameTx freeKeccak_injective2_pair
    getHash_freeKeccak_ne_zero horderly with ⟨c, hc, hok, -, hcons⟩ | ⟨hnone, -⟩
  · cases hc
    exact hcons.verified
  · exact (nomatch hnone)

theorem binarySearch_eq_scan_iff_oneBatch :
    ∃ b, Loop.run (binarySearchBody oneBatchService 0) 2 ⟨oneBatchRow, 1, 1⟩ = some (.ok (some b)) ∧
      oneBatchService.scan 0 = some b := by
  have hverified : oneBatchService.verified = [oneBatchRow] := by
    show (afterOneBatch.processor.db.verifiedInOrder 1) = _
    unfold Tables.verifiedInOrder
    rw [verifyBatches_afterOneBatch]
    rfl
  have hroot : oneBatchService.bridgeL2.getRootByHash oneBatchRow.exitRoot =
      some ⟨[7], 0, 1, 0⟩ := rfl
  have hknown : ∀ v ∈ oneBatchService.verified, ∃ root,
      oneBatchService.bridgeL2.getRootByHash v.exitRoot = some root ∧ root.index.toNat = 0 := by
    intro v hv
    obtain rfl := mem_singleton.mp hv
    exact ⟨_, hroot, rfl⟩
  have hincludes : oneBatchService.Includes 0 oneBatchRow := ⟨_, hroot, by decide⟩
  have hrun : Reach (call freeKeccak) InOrder (new freeKeccak) afterOneBatch :=
    .step .init (pairwise_singleton _ _)
  have hfirst : oneBatchService.l1InfoTree.getFirstVerifiedBatches oneBatchService.networkID =
      some oneBatchRow := congrArg List.head? hverified
  have hlast : oneBatchService.l1InfoTree.getLastVerifiedBatches oneBatchService.networkID =
      some oneBatchRow := congrArg List.getLast? hverified
  obtain ⟨b, hend, hscan, -⟩ := (binarySearch_eq_scan_iff freeKeccak_injective2_pair hrun rfl
    (by decide) hknown (by rw [hverified]; exact pairwise_singleton _ _) hfirst hlast
    0).1 hincludes
  refine ⟨b, hend, hscan.mpr ⟨oneBatchRow, ?_, .inr rfl⟩⟩
  unfold Service.scan
  rw [hverified]
  rfl

/-! ## Two batches in one block -/

/-- Two batches in block 5 and one in block 9. -/
def twoBatchesInBlock : Tracked ℕ :=
  [Call.processBlock ⟨5, 5, [batchEvent 0 0 101, batchEvent 0 1 102]⟩,
    .processBlock ⟨9, 9, [batchEvent 0 0 103]⟩].foldl
    (call BridgeSync.toyKeccak) (new BridgeSync.toyKeccak)

/-- A service whose L2 bridge syncer knows their local exit roots. -/
def twoBatchesService : Service ℕ :=
  ⟨twoBatchesInBlock.processor.db, Tree.Store.empty,
    ⟨[⟨101, 0, 1, 0⟩, ⟨102, 3, 2, 0⟩, ⟨103, 4, 3, 0⟩], []⟩, 1⟩

/-- The first batch that includes deposit 2 is the second one of block 5; the search returns the one of
block 9. -/
theorem binarySearch_second_of_block :
    (twoBatchesService.scan 2).map (fun v => (v.blockNumber, v.blockPosition)) = some (5, 1) ∧
      (do let first ← twoBatchesService.l1InfoTree.getFirstVerifiedBatches 1
          let last ← twoBatchesService.l1InfoTree.getLastVerifiedBatches 1
          let b ← (getFirstVerifiedBatchesForL2DepositCountBinary twoBatchesService first last
            2).toOption.join
          return (b.blockNumber, b.blockPosition)) = some (9, 0) := by
  decide +kernel

end AggKit.BridgeService
