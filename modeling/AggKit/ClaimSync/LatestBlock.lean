import AggKit.Common.Errors
import AggKit.Lib.Loop
import AggKit.Lib.Table
import Mathlib.Order.Bounds.Basic

/-!
# The latest claim of a global index, as in `claimsync/claimsync.go`

`GetLatestBlockNumByGlobalIndexFromRPC` asks the node for all claim logs up to a block. If the node
refuses the range with an error that names its limit, the logs are scanned backwards in chunks of
that size.

The node is `filterLogs`: its answer to a query may also depend on the number of the call. What it
returns without an error are the logs of the chain (`Serves`); when it fails, and with which text,
is open. Under that alone an answer is right (`AnswersLatest`), but with a limit of 0 the chunks are
empty and the scan stays where it is: `getLatestBlockNumByGlobalIndexFromRPC_spec_iff`.
-/

namespace AggKit.ClaimSync

open Common List

variable {H : Type} [DecidableEq H]

/-- `types.Log`, as far as the scan reads it. -/
structure Log (H : Type) where
  topics : List H
  data : List UInt8
  blockNumber : ℕ

/-- The contract bindings: the signatures of the claim events and the global index that each parser
reads out of a log; the index of a claim before Etrog is a `uint32`. -/
structure ClaimBindings (H : Type) where
  claimEventSignaturePreEtrog : H
  claimEventSignature : H
  detailedClaimEventSignature : H
  parseClaimEventPreEtrog : Log H → Option ℕ
  parseClaimEvent : Log H → Option ℕ
  parseDetailedClaimEvent : Log H → Option ℕ

/-- `claimsync: FilterLogs error for globalIndex %s [%d, %d]: %w` -/
structure ScanError where
  fromBlock : ℕ
  toBlock : ℕ
  err : String

section scan

variable (c : ClaimBindings H) (filterLogs : ℕ → ℕ → ℕ → Except String (List (Log H)))
  (globalIndex : ℕ)

/-- The topics that the query asks for. -/
def ClaimBindings.signatures : List H :=
  [c.claimEventSignaturePreEtrog, c.claimEventSignature, c.detailedClaimEventSignature]

/-- The body of the loop over the logs; a log that cannot be parsed is skipped. -/
def ClaimBindings.matchesIndex (l : Log H) : Bool :=
  match l.topics with
  | [] => false
  | topic :: _ =>
    if topic = c.claimEventSignaturePreEtrog then c.parseClaimEventPreEtrog l == some globalIndex
    else if topic = c.claimEventSignature then c.parseClaimEvent l == some globalIndex
    else if topic = c.detailedClaimEventSignature then
      c.parseDetailedClaimEvent l == some globalIndex
    else false

/-- `scanRange`. -/
def scanRange (call fromBlock toBlock : ℕ) : Except String (Option ℕ) :=
  match filterLogs call fromBlock toBlock with
  | .error err => .error err
  | .ok logs => .ok ((logs.reverse.find? (c.matchesIndex globalIndex)).map Log.blockNumber)

/-- The first block of the chunk that ends with `current`. -/
def chunkFrom (chunkSize current : ℕ) : ℕ :=
  if current ≥ chunkSize then (current - chunkSize + 1) % 2 ^ 64 else 0

/-- One iteration of the backwards scan, at the number of the call and `current`. -/
def scanChunk (chunkSize : ℕ) (s : ℕ × ℕ) : Except ScanError (Loop.Next (ℕ × ℕ) (Option ℕ)) :=
  let fromBlock := chunkFrom chunkSize s.2
  match scanRange c filterLogs globalIndex s.1 fromBlock s.2 with
  | .error err => .error ⟨fromBlock, s.2, err⟩
  | .ok (some blockNum) => .ok (.done (some blockNum))
  | .ok none => .ok (if fromBlock = 0 then .done none else .again (s.1 + 1, fromBlock - 1))

/-- `GetLatestBlockNumByGlobalIndexFromRPC` for the number that its end block stands for, with at
most the given number of chunks. -/
def getLatestBlockNumByGlobalIndexFromRPC (toBlockNum fuel : ℕ) :
    Option (Except ScanError (Option ℕ)) :=
  match scanRange c filterLogs globalIndex 0 0 toBlockNum with
  | .ok blockNum => some (.ok blockNum)
  | .error err =>
    match parseMaxRangeFromError err with
    | none => some (.error ⟨0, toBlockNum, err⟩)
    | some chunkSize =>
      Loop.run (scanChunk c filterLogs globalIndex chunkSize) fuel (1, toBlockNum)

/-- What the node answers without an error are the claim logs of the range, in order. -/
def Serves (logs : List (Log H)) : Prop :=
  ∀ call fromBlock toBlock answer, filterLogs call fromBlock toBlock = .ok answer →
    answer = logs.filter fun l => decide (fromBlock ≤ l.blockNumber ∧ l.blockNumber ≤ toBlock) &&
      l.topics.head?.any (· ∈ c.signatures)

/-- The blocks of a range with a claim of the global index. -/
def claimBlocks (logs : List (Log H)) (fromBlock toBlock : ℕ) : Set ℕ :=
  {n | fromBlock ≤ n ∧ n ≤ toBlock ∧ ∃ l ∈ logs, l.blockNumber = n ∧ c.matchesIndex globalIndex l}

end scan

/-- The answer is the highest of the blocks, or there is none. -/
def AnswersLatest (blocks : Set ℕ) : Option ℕ → Prop
  | some n => IsGreatest blocks n
  | none => blocks = ∅

section spec

variable {c : ClaimBindings H} {filterLogs : ℕ → ℕ → ℕ → Except String (List (Log H))}
  {globalIndex toBlock : ℕ} {logs : List (Log H)}

theorem ClaimBindings.head_mem_signatures {l : Log H} (h : c.matchesIndex globalIndex l = true) :
    l.topics.head?.any (· ∈ c.signatures) = true := by
  unfold matchesIndex at h
  split at h
  · cases h
  · unfold signatures
    split_ifs at h <;> simp [*]

theorem chunkFrom_le {chunkSize current : ℕ} : chunkFrom chunkSize current ≤ current + 1 := by
  unfold chunkFrom
  split_ifs
  · exact (Nat.mod_le _ _).trans (Nat.succ_le_succ (Nat.sub_le _ _))
  · exact Nat.zero_le _

/-- The scan goes on below a chunk in which nothing was found. -/
theorem scanChunk_again {chunkSize : ℕ} {s s' : ℕ × ℕ}
    (h : scanChunk c filterLogs globalIndex chunkSize s = .ok (.again s')) :
    scanRange c filterLogs globalIndex s.1 (chunkFrom chunkSize s.2) s.2 = .ok none ∧
      chunkFrom chunkSize s.2 ≠ 0 ∧ s' = (s.1 + 1, chunkFrom chunkSize s.2 - 1) := by
  unfold scanChunk at h
  dsimp only at h
  split at h
  · cases h
  · cases h
  · split_ifs at h with hfrom
    · cases h
    · cases h
      exact ⟨‹_›, hfrom, rfl⟩

theorem scanChunk_done {chunkSize : ℕ} {s : ℕ × ℕ} {r : Option ℕ}
    (h : scanChunk c filterLogs globalIndex chunkSize s = .ok (.done r)) :
    scanRange c filterLogs globalIndex s.1 (chunkFrom chunkSize s.2) s.2 = .ok r ∧
      (r = none → chunkFrom chunkSize s.2 = 0) := by
  unfold scanChunk at h
  dsimp only at h
  split at h
  · cases h
  · cases h
    exact ⟨‹_›, nofun⟩
  · split_ifs at h with hfrom
    · cases h
      exact ⟨‹_›, fun _ => hfrom⟩
    · cases h

/-- What a chunk finds is the answer where the claims are not above it and, if nothing was found,
none can be below it. -/
theorem AnswersLatest.of_chunk {fromBlock current : ℕ} {r : Option ℕ}
    (h : AnswersLatest (claimBlocks c globalIndex logs fromBlock current) r)
    (hto : current ≤ toBlock) (hle : ∀ n ∈ claimBlocks c globalIndex logs 0 toBlock, n ≤ current)
    (hr : r = none → fromBlock = 0) :
    AnswersLatest (claimBlocks c globalIndex logs 0 toBlock) r := by
  cases r with
  | none =>
    refine Set.eq_empty_iff_forall_notMem.mpr fun n hn => ?_
    have hnone := Set.eq_empty_iff_forall_notMem.mp h n
    exact hnone ⟨(hr rfl).symm ▸ hn.1, hle n hn, hn.2.2⟩
  | some b =>
    obtain ⟨⟨hfrom, hb, hlog⟩, hgreatest⟩ := h
    refine ⟨⟨Nat.zero_le b, hb.trans hto, hlog⟩, fun n hn => ?_⟩
    by_cases hbelow : fromBlock ≤ n
    · exact hgreatest ⟨hbelow, hle n hn, hn.2.2⟩
    · exact (Nat.not_le.mp hbelow).le.trans hfrom

variable (hserves : Serves c filterLogs logs)
  (hsorted : logs.Pairwise fun l l' => l.blockNumber ≤ l'.blockNumber)

include hserves hsorted

/-- The last matching log of a range is in the highest of the blocks with one. -/
theorem answersLatest_scanRange {call fromBlock : ℕ} {r : Option ℕ}
    (h : scanRange c filterLogs globalIndex call fromBlock toBlock = .ok r) :
    AnswersLatest (claimBlocks c globalIndex logs fromBlock toBlock) r := by
  unfold scanRange at h
  split at h
  · cases h
  rename_i answer hanswer
  cases h
  have hmem : ∀ l, l ∈ answer.reverse ∧ c.matchesIndex globalIndex l = true ↔ l ∈ logs ∧
      (fromBlock ≤ l.blockNumber ∧ l.blockNumber ≤ toBlock) ∧ c.matchesIndex globalIndex l := by
    intro l
    rw [hserves call _ _ _ hanswer, mem_reverse, mem_filter, Bool.and_eq_true, decide_eq_true_iff]
    have := @ClaimBindings.head_mem_signatures _ _ c globalIndex l
    tauto
  cases hfind : answer.reverse.find? (c.matchesIndex globalIndex) with
  | none =>
    refine Set.eq_empty_iff_forall_notMem.mpr ?_
    rintro n ⟨hfrom, hto, l, hl, rfl, hmatch⟩
    exact find?_eq_none.mp hfind l ((hmem l).mpr ⟨hl, ⟨hfrom, hto⟩, hmatch⟩).1 hmatch
  | some l =>
    obtain ⟨hl, hrange, hmatch⟩ := (hmem l).mp ⟨mem_of_find?_eq_some hfind, find?_some hfind⟩
    refine ⟨⟨hrange.1, hrange.2, l, hl, rfl, hmatch⟩, ?_⟩
    rintro n ⟨hfrom, hto, l', hl', rfl, hmatch'⟩
    have hdesc : answer.reverse.Pairwise fun l l' => l'.blockNumber ≤ l.blockNumber := by
      rw [pairwise_reverse, hserves call _ _ _ hanswer]
      exact hsorted.filter _
    have hin := ((hmem l').mpr ⟨hl', ⟨hfrom, hto⟩, hmatch'⟩).1
    rcases Table.rel_of_find? hdesc hfind hin hmatch' with rfl | hle
    · exact le_refl _
    · exact hle

/-- An answer is right, whatever limit the node names. -/
theorem answersLatest_getLatestBlockNum {fuel : ℕ} {r : Option ℕ}
    (h : getLatestBlockNumByGlobalIndexFromRPC c filterLogs globalIndex toBlock fuel =
      some (.ok r)) : AnswersLatest (claimBlocks c globalIndex logs 0 toBlock) r := by
  unfold getLatestBlockNumByGlobalIndexFromRPC at h
  split at h
  · rename_i hscan
    cases Option.some.inj h
    exact answersLatest_scanRange hserves hsorted hscan
  split at h
  · cases h
  -- the claims above the next chunk have been looked at
  refine (Loop.run_spec (fun s : ℕ × ℕ => s.2 ≤ toBlock ∧
    ∀ n ∈ claimBlocks c globalIndex logs 0 toBlock, n ≤ s.2) (E := fun _ => True) ?_ ?_
    (fun _ _ => trivial) ⟨le_refl _, fun n hn => hn.2.1⟩ h).1 r rfl
  · rintro s s' ⟨hto, hle⟩ hagain
    obtain ⟨hscan, hfrom, rfl⟩ := scanChunk_again hagain
    have hempty := answersLatest_scanRange hserves hsorted hscan
    refine ⟨(Nat.sub_le_of_le_add chunkFrom_le).trans hto, fun n hn => Nat.le_sub_one_of_lt ?_⟩
    by_contra hge
    exact Set.eq_empty_iff_forall_notMem.mp hempty n ⟨Nat.not_lt.mp hge, hle n hn, hn.2.2⟩
  · rintro s a ⟨hto, hle⟩ hdone
    obtain ⟨hscan, hfrom⟩ := scanChunk_done hdone
    exact (answersLatest_scanRange hserves hsorted hscan).of_chunk hto hle hfrom

omit hserves hsorted in
/-- With a limit of at least one block every chunk moves the scan. -/
theorem exists_run_of_pos {chunkSize : ℕ} (hpos : 0 < chunkSize) :
    ∃ fuel r, Loop.run (scanChunk c filterLogs globalIndex chunkSize) fuel (1, toBlock) =
      some r := by
  refine ⟨toBlock + 1, Loop.exists_run (fun _ => True) Prod.snd ?_ trivial (Nat.lt_succ_self _)⟩
  rintro s s' - hagain
  obtain ⟨-, hfrom, rfl⟩ := scanChunk_again hagain
  refine ⟨trivial, ?_⟩
  unfold chunkFrom at hfrom ⊢
  split_ifs at hfrom ⊢ with hge
  · have hmod := Nat.mod_le (s.2 - chunkSize + 1) (2 ^ 64)
    omega
  · exact absurd rfl hfrom

omit hsorted in
/-- With a limit of 0 the chunk is empty, and the next one is the same. -/
theorem scanChunk_zero {call : ℕ} (hto : toBlock + 1 < 2 ^ 64) :
    scanChunk c filterLogs globalIndex 0 (call, toBlock) =
      match filterLogs call (toBlock + 1) toBlock with
      | .error err => .error ⟨toBlock + 1, toBlock, err⟩
      | .ok _ => .ok (.again (call + 1, toBlock)) := by
  have hfrom : chunkFrom 0 toBlock = toBlock + 1 := by
    rw [chunkFrom, if_pos (Nat.zero_le _), Nat.sub_zero, Nat.mod_eq_of_lt hto]
  simp only [scanChunk, scanRange, hfrom]
  cases hanswer : filterLogs call (toBlock + 1) toBlock with
  | error err => rfl
  | ok answer =>
    have hnil : answer = [] := by
      rw [hserves _ _ _ _ hanswer, filter_eq_nil_iff]
      intro l _ h
      rw [Bool.and_eq_true, decide_eq_true_iff] at h
      omega
    subst hnil
    rfl

omit hsorted in
theorem exists_run_zero_iff (hto : toBlock + 1 < 2 ^ 64) :
    (∃ fuel r, Loop.run (scanChunk c filterLogs globalIndex 0) fuel (1, toBlock) = some r) ↔
      ∃ call > 0, ∃ err, filterLogs call (toBlock + 1) toBlock = .error err := by
  have hzero {call} := @scanChunk_zero _ _ _ _ globalIndex _ _ hserves call hto
  constructor
  · rintro ⟨fuel, r, h⟩
    by_contra hnone
    have hagain : ∀ s : ℕ × ℕ, 0 < s.1 ∧ s.2 = toBlock →
        scanChunk c filterLogs globalIndex 0 s = .ok (.again (s.1 + 1, toBlock)) := by
      rintro ⟨call, _⟩ ⟨hcall, rfl⟩
      rw [hzero]
      split
      · exact absurd ⟨call, hcall, _, ‹_›⟩ hnone
      · rfl
    have hspec := Loop.run_spec (fun s : ℕ × ℕ => 0 < s.1 ∧ s.2 = toBlock) (Q := fun _ => False)
      (E := fun _ => False) (fun hs heq => ?_) (fun hs heq => ?_) (fun hs heq => ?_)
      ⟨Nat.one_pos, rfl⟩ h
    · cases r with
      | error err => exact hspec.2 err rfl
      | ok a => exact hspec.1 a rfl
    all_goals rw [hagain _ hs] at heq; cases heq
    exact ⟨Nat.succ_pos _, rfl⟩
  · rintro ⟨call, hcall, err, herr⟩
    -- the calls before the one that fails are used up
    refine ⟨call + 1, Loop.exists_run (fun s => s.1 ≤ call ∧ s.2 = toBlock) (fun s => call - s.1) ?_
      ⟨hcall, rfl⟩ (by simp only; omega)⟩
    rintro ⟨k, _⟩ s' ⟨hk, rfl⟩ hagain
    rw [hzero] at hagain
    split at hagain
    · cases hagain
    · rename_i answer hanswer
      cases hagain
      have hne : k ≠ call := by
        rintro rfl
        cases herr.symm.trans hanswer
      refine ⟨⟨?_, rfl⟩, ?_⟩ <;> simp only at hk ⊢ <;> omega

/-- The scan ends with the right answer, unless the node refuses the whole range with a limit of 0
and then answers every query of the reversed range after the end block. -/
theorem getLatestBlockNumByGlobalIndexFromRPC_spec_iff (hto : toBlock < 2 ^ 64) :
    (∃ fuel r, getLatestBlockNumByGlobalIndexFromRPC c filterLogs globalIndex toBlock fuel =
        some r) ∧
      (∀ fuel r, getLatestBlockNumByGlobalIndexFromRPC c filterLogs globalIndex toBlock fuel =
        some (.ok r) → AnswersLatest (claimBlocks c globalIndex logs 0 toBlock) r) ↔
    ∀ err, filterLogs 0 0 toBlock = .error err → parseMaxRangeFromError err = some 0 →
      toBlock + 1 < 2 ^ 64 →
        ∃ call > 0, ∃ err', filterLogs call (toBlock + 1) toBlock = .error err' := by
  rw [and_iff_left fun _ _ => answersLatest_getLatestBlockNum hserves hsorted]
  simp only [getLatestBlockNumByGlobalIndexFromRPC, scanRange]
  cases filterLogs 0 0 toBlock with
  | ok answer => exact iff_of_true ⟨0, _, rfl⟩ nofun
  | error err =>
    simp only [Except.error.injEq, forall_eq']
    cases parseMaxRangeFromError err with
    | none => exact iff_of_true ⟨0, _, rfl⟩ nofun
    | some chunkSize =>
      rcases Nat.eq_zero_or_pos chunkSize with rfl | hpos
      · by_cases hlt : toBlock + 1 < 2 ^ 64
        · exact (exists_run_zero_iff hserves hlt).trans ⟨fun h _ _ => h, fun h => h rfl hlt⟩
        · -- the end of the numbers: the chunk starts at 0 again
          refine iff_of_true ⟨1, ?_⟩ fun _ h => absurd h hlt
          refine Loop.exists_run (fun s : ℕ × ℕ => s.2 = toBlock) (fun _ => 0) ?_ rfl Nat.one_pos
          rintro s s' rfl hagain
          have hfrom : chunkFrom 0 s.2 = 0 := by
            have hmax : s.2 + 1 = 2 ^ 64 := by omega
            simp [chunkFrom, hmax]
          exact absurd hfrom (scanChunk_again hagain).2.1
      · refine iff_of_true (exists_run_of_pos hpos) fun h => ?_
        exact absurd (Option.some.inj h) hpos.ne'

end spec

/-- A node that refuses the first query with a text and answers the others. -/
def refusingNode (refusal : String) (logs : List (Log H)) (c : ClaimBindings H)
    (call fromBlock toBlock : ℕ) : Except String (List (Log H)) :=
  if call = 0 then .error refusal
  else .ok (logs.filter fun l => decide (fromBlock ≤ l.blockNumber ∧ l.blockNumber ≤ toBlock) &&
    l.topics.head?.any (· ∈ c.signatures))

theorem serves_refusingNode {refusal : String} {logs : List (Log H)} {c : ClaimBindings H} :
    Serves c (refusingNode refusal logs c) logs := by
  intro call fromBlock toBlock answer h
  unfold refusingNode at h
  split_ifs at h
  exact (Except.ok.inj h).symm

/-- Bindings that read the global index out of the first byte. -/
def firstByteBindings : ClaimBindings ℕ :=
  let parse l := l.data.head?.map UInt8.toNat
  ⟨0, 1, 2, parse, parse, parse⟩

/-- A log of a claim with a global index. -/
def claimLog (globalIndex : UInt8) (blockNumber : ℕ) : Log ℕ := ⟨[1], [globalIndex], blockNumber⟩

theorem getLatestBlockNumByGlobalIndexFromRPC_two :
    ∃ fuel r, getLatestBlockNumByGlobalIndexFromRPC firstByteBindings
      (refusingNode "block range too large, max range: 2" [claimLog 7 3] firstByteBindings) 7 5
      fuel = some r := by
  have hserves : Serves firstByteBindings (refusingNode "block range too large, max range: 2"
      [claimLog 7 3] firstByteBindings) [claimLog 7 3] := serves_refusingNode
  refine ((getLatestBlockNumByGlobalIndexFromRPC_spec_iff hserves (by simp) (by decide)).mpr ?_).1
  intro err herr hzero
  cases herr
  exact absurd hzero (by decide +kernel)

/-- The node names a limit of 0: the claim in block 3 is not found, however long the scan runs. -/
theorem getLatestBlockNum_zero_never_returns :
    ¬ ∃ fuel r, getLatestBlockNumByGlobalIndexFromRPC firstByteBindings
      (refusingNode "block range too large, max range: 0" [claimLog 7 3] firstByteBindings) 7 5
      fuel = some r := by
  rintro ⟨fuel, r, h⟩
  have hzero : parseMaxRangeFromError "block range too large, max range: 0" = some 0 := by
    decide +kernel
  simp only [getLatestBlockNumByGlobalIndexFromRPC, scanRange, refusingNode, if_true, hzero] at h
  obtain ⟨call, hcall, err, herr⟩ :=
    (exists_run_zero_iff serves_refusingNode (by decide)).mp ⟨fuel, r, h⟩
  rw [refusingNode, if_neg hcall.ne'] at herr
  cases herr

end AggKit.ClaimSync
