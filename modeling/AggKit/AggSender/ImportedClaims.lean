import Mathlib.Data.List.Chain
import AggKit.AggSender.Unclaimed

/-!
# The claims that become imported bridge exits

A history is a list of claims and unclaims in the order of the chain in which every global index is
claimed and unclaimed in turn. A certificate covers a range of blocks of it, and a claim should be
among its imported bridge exits when no unclaim of its global index follows in the range.

`getImportedBridgeExits` does not look at positions: it leaves out as many of the first claims of a
global index as the range has unclaims of it. Within one global index the two agree unless the events
of the range begin with an unclaim and end with a claim. Then the unclaim that belongs to a claim
before the range is counted against the last claim, and it is left out (`mem_filteredClaims_iff`).
The count never keeps a claim that an unclaim takes back, so claims without a GER on L1, which are
all taken back after `AdjustBlockRange`, are never imported.
-/

namespace AggKit.AggSender

open List CertificateBuildParams BaseFlow

open ClaimSync (Claim)
open Agglayer (Certificate ImportedBridgeExit)

variable {H : Type}

/-- A claim or an unclaim. -/
inductive ClaimEvent (H : Type) where
  | claim (c : Claim H)
  | unclaim (u : Unclaim)
deriving DecidableEq

namespace ClaimEvent

def key : ClaimEvent H → ℕ ×ₗ ℕ
  | .claim c => c.key
  | .unclaim u => u.key

def blockNum : ClaimEvent H → ℕ
  | .claim c => c.blockNum
  | .unclaim u => u.blockNumber

def globalIndex : ClaimEvent H → ℕ
  | .claim c => c.globalIndex
  | .unclaim u => u.globalIndex

def isClaim : ClaimEvent H → Bool
  | .claim _ => true
  | .unclaim _ => false

def claim? : ClaimEvent H → Option (Claim H)
  | .claim c => some c
  | .unclaim _ => none

def unclaim? : ClaimEvent H → Option Unclaim
  | .claim _ => none
  | .unclaim u => some u

@[simp]
theorem claim?_eq_some_iff {e : ClaimEvent H} {c : Claim H} : e.claim? = some c ↔ e = .claim c := by
  cases e <;> simp [claim?]

@[simp]
theorem unclaim?_eq_some_iff {e : ClaimEvent H} {u : Unclaim} :
    e.unclaim? = some u ↔ e = .unclaim u := by
  cases e <;> simp [unclaim?]

theorem blockNum_le_of_key_lt {e e' : ClaimEvent H} (h : e.key < e'.key) :
    e.blockNum ≤ e'.blockNum := by
  have hkey : ∀ e : ClaimEvent H, (ofLex e.key).1 = e.blockNum := fun e => by cases e <;> rfl
  rw [← hkey e, ← hkey e']
  rcases (Prod.Lex.lt_iff).mp h with hlt | ⟨heq, -⟩
  · exact hlt.le
  · exact heq.le

end ClaimEvent

/-- The events of one global index are claims and unclaims in turn. -/
def Alternating (events : List (ClaimEvent H)) : Prop :=
  events.IsChain fun e e' => e.isClaim ≠ e'.isClaim

/-- The claims and unclaims of a chain, in its order. -/
structure History (H : Type) where
  events : List (ClaimEvent H)
  ordered : events.Pairwise fun e e' => e.key < e'.key
  alternating : ∀ g, Alternating (events.filter fun e => e.globalIndex = g)

/-- The events of a range of blocks. -/
def History.range (h : History H) (fromBlock toBlock : ℕ) : List (ClaimEvent H) :=
  inBlocks ClaimEvent.blockNum fromBlock toBlock h.events

/-- The build parameters hold the claims and unclaims of their range. -/
structure CertificateBuildParams.Covers (p : CertificateBuildParams H) (h : History H) : Prop where
  claims : p.claims = (h.range p.fromBlock p.toBlock).filterMap ClaimEvent.claim?
  unclaims : p.unclaims = (h.range p.fromBlock p.toBlock).filterMap ClaimEvent.unclaim?

/-- The claims of the range that no unclaim of the range takes back. -/
def CertificateBuildParams.stillClaimed (p : CertificateBuildParams H) : List (Claim H) :=
  p.claims.filter fun c => ∀ u ∈ p.unclaims, ¬TakenBackBy c u

/-! ## A range of an ordered list -/

section bounds

variable {α : Type} {block : α → ℕ} {l : List α} {fromBlock toBlock : ℕ}

theorem filter_le_isPrefix (hl : l.Pairwise fun a b => block a ≤ block b) :
    (l.filter fun a => block a ≤ toBlock) <+: l := by
  induction l with
  | nil => exact prefix_rfl
  | cons a l ih =>
    obtain ⟨ha, hl⟩ := pairwise_cons.mp hl
    rw [filter_cons]
    split_ifs with hle
    · exact (prefix_cons_inj a).mpr (ih hl)
    · -- Everything after `a` is above the range as well.
      rw [filter_eq_nil_iff.mpr fun b hb h => hle (decide_eq_true ((ha b hb).trans
        (of_decide_eq_true h)))]
      exact nil_prefix

/-- The entries of an ordered list within bounds stand next to each other. -/
theorem inBlocks_isInfix (hl : l.Pairwise fun a b => block a ≤ block b) :
    inBlocks block fromBlock toBlock l <:+: l := by
  induction l with
  | nil => exact infix_rfl
  | cons a l ih =>
    obtain ⟨ha, hl'⟩ := pairwise_cons.mp hl
    by_cases hfrom : fromBlock ≤ block a
    · -- From here on only the upper bound counts.
      have hupper : inBlocks block fromBlock toBlock (a :: l) =
          (a :: l).filter fun b => block b ≤ toBlock := by
        refine filter_congr fun b hb => decide_eq_decide.mpr (and_iff_right ?_)
        rcases mem_cons.mp hb with rfl | hb
        · exact hfrom
        · exact hfrom.trans (ha b hb)
      rw [hupper]
      exact (filter_le_isPrefix hl).isInfix
    · have hskip : inBlocks block fromBlock toBlock (a :: l) = inBlocks block fromBlock toBlock l :=
        filter_cons_of_neg fun h => hfrom (of_decide_eq_true h).1
      rw [hskip]
      exact (ih hl').trans (suffix_cons a l).isInfix

/-- A filter on what `f` takes out of a list is one on the list. -/
theorem filterMap_filter_eq {β : Type} {f : α → Option β} {p : α → Bool} {q : β → Bool}
    (h : ∀ a b, f a = some b → p a = q b) :
    (l.filter p).filterMap f = (l.filterMap f).filter q := by
  rw [filterMap_filter, filter_filterMap]
  refine filterMap_congr fun a _ => ?_
  cases ha : f a with
  | none => simp
  | some b => simp [h a b ha, Option.filter]

end bounds

/-! ## One global index -/

section oneIndex

variable {events : List (ClaimEvent H)}

/-- The claims of a list of events. -/
def claimsOf (events : List (ClaimEvent H)) : List (Claim H) := events.filterMap ClaimEvent.claim?

/-- The unclaims of a list of events. -/
def unclaimsOf (events : List (ClaimEvent H)) : List Unclaim :=
  events.filterMap ClaimEvent.unclaim?

theorem mem_claimsOf {c : Claim H} : c ∈ claimsOf events ↔ .claim c ∈ events := by simp [claimsOf]

theorem mem_unclaimsOf {u : Unclaim} : u ∈ unclaimsOf events ↔ .unclaim u ∈ events := by
  simp [unclaimsOf]

theorem claimsOf_filter {p : ClaimEvent H → Bool} {q : Claim H → Bool}
    (h : ∀ c, p (.claim c) = q c) : claimsOf (events.filter p) = (claimsOf events).filter q :=
  filterMap_filter_eq fun _ c he => ClaimEvent.claim?_eq_some_iff.mp he ▸ h c

theorem unclaimsOf_filter {p : ClaimEvent H → Bool} {q : Unclaim → Bool}
    (h : ∀ u, p (.unclaim u) = q u) :
    unclaimsOf (events.filter p) = (unclaimsOf events).filter q :=
  filterMap_filter_eq fun _ u he => ClaimEvent.unclaim?_eq_some_iff.mp he ▸ h u

/-- The last event, if it is a claim. -/
def lastClaim (events : List (ClaimEvent H)) : List (Claim H) :=
  claimsOf events.getLast?.toList

/-- Of events that begin with a claim, dropping as many claims as there are unclaims leaves the last
event if it is a claim. With an unclaim at the beginning it takes one less, and the unclaims are at
least as many as the claims. -/
theorem Alternating.drop_claimsOf (h : Alternating events) :
    (events.head?.any ClaimEvent.isClaim →
      (claimsOf events).drop (unclaimsOf events).length = lastClaim events ∧
        (claimsOf events).length ≤ (unclaimsOf events).length + 1) ∧
    (events.head?.any (fun e => !e.isClaim) →
      (claimsOf events).drop ((unclaimsOf events).length - 1) = lastClaim events ∧
        (claimsOf events).length ≤ (unclaimsOf events).length ∧ 0 < (unclaimsOf events).length) := by
  induction events with
  | nil => exact ⟨nofun, nofun⟩
  | cons e events ih =>
    have ih := ih (isChain_cons.mp h).2
    cases events with
    | nil => cases e with
      | claim c => exact ⟨fun _ => ⟨rfl, Nat.le_refl _⟩, nofun⟩
      | unclaim u => exact ⟨nofun, fun _ => ⟨rfl, Nat.zero_le _, Nat.one_pos⟩⟩
    | cons e' events =>
      have hne : e.isClaim ≠ e'.isClaim := (isChain_cons_cons.mp h).1
      cases e with
      | claim c =>
        refine ⟨fun _ => ?_, nofun⟩
        have hfirst : e'.isClaim = false := Bool.eq_false_of_not_eq_true fun h => hne h.symm
        obtain ⟨hdrop, hle, hpos⟩ := ih.2 (by simp [hfirst])
        have hunclaims : unclaimsOf (.claim c :: e' :: events) = unclaimsOf (e' :: events) := rfl
        obtain ⟨n, hn⟩ := Nat.exists_eq_succ_of_ne_zero hpos.ne'
        rw [hunclaims]
        refine ⟨?_, Nat.succ_le_succ hle⟩
        rw [hn] at hdrop ⊢
        exact hdrop
      | unclaim u =>
        refine ⟨nofun, fun _ => ?_⟩
        have hfirst : e'.isClaim = true := Bool.eq_true_of_not_eq_false fun h => hne h.symm
        obtain ⟨hdrop, hle⟩ := ih.1 (by simp [hfirst])
        exact ⟨hdrop, hle, Nat.succ_pos _⟩

/-- A list of events that begins with an unclaim and ends with a claim: the unclaim belongs to a
claim before, and the claim is not taken back. -/
def Reclaimed (events : List (ClaimEvent H)) : Prop :=
  events.head?.any (fun e => !e.isClaim) = true ∧ events.getLast?.any ClaimEvent.isClaim = true

/-- Dropping as many claims as there are unclaims leaves the last event if it is a claim, but
nothing where the events begin with an unclaim. -/
theorem Alternating.mem_drop_iff (h : Alternating events) {c : Claim H} :
    c ∈ (claimsOf events).drop (unclaimsOf events).length ↔
      events.getLast? = some (.claim c) ∧ ¬Reclaimed events := by
  have hlast : c ∈ lastClaim events ↔ events.getLast? = some (.claim c) := by
    rw [lastClaim, mem_claimsOf, Option.mem_toList]
  cases events with
  | nil => exact ⟨nofun, fun h => nomatch h.1⟩
  | cons e events =>
    cases e with
    | claim c' =>
      rw [(h.drop_claimsOf.1 rfl).1, hlast]
      exact ⟨fun heq => ⟨heq, fun hre => Bool.false_ne_true hre.1⟩, fun hand => hand.1⟩
    | unclaim u =>
      obtain ⟨-, hle, -⟩ := h.drop_claimsOf.2 rfl
      rw [drop_eq_nil_of_le hle]
      refine ⟨nofun, fun hand => (hand.2 ⟨rfl, ?_⟩).elim⟩
      rw [hand.1]
      rfl

end oneIndex

/-! ## What the count keeps -/

section count

variable {h : History H} {p : CertificateBuildParams H} {c : Claim H} {g : ℕ}

/-- Of each global index, the count drops as many claims as there are unclaims. -/
theorem filter_filterClaims (unclaimCnt : ℕ → ℕ) (claims : List (Claim H)) (g : ℕ) :
    (filterClaims unclaimCnt claims).filter (fun c => c.globalIndex = g) =
      (claims.filter fun c => c.globalIndex = g).drop (unclaimCnt g) := by
  fun_induction filterClaims unclaimCnt claims with
  | case1 => exact drop_nil.symm
  | case2 unclaimCnt c claims hpos ih =>
    rw [ih]
    by_cases hg : c.globalIndex = g
    · obtain ⟨n, hn⟩ := Nat.exists_eq_succ_of_ne_zero hpos.ne'
      subst hg
      simp [hn]
    · simp [hg, Function.update_of_ne (Ne.symm hg)]
  | case3 unclaimCnt c claims hpos ih =>
    by_cases hg : c.globalIndex = g
    · subst hg
      rw [Nat.eq_zero_of_not_pos hpos, drop_zero] at ih ⊢
      simp [ih]
    · simp [hg, ih]

/-- The events of a global index in a range. -/
def History.rangeOf (h : History H) (fromBlock toBlock g : ℕ) : List (ClaimEvent H) :=
  (h.range fromBlock toBlock).filter fun e => e.globalIndex = g

theorem History.alternating_rangeOf (h : History H) (fromBlock toBlock g : ℕ) :
    Alternating (h.rangeOf fromBlock toBlock g) := by
  have hcomm : h.rangeOf fromBlock toBlock g = inBlocks ClaimEvent.blockNum fromBlock toBlock
      (h.events.filter fun e => e.globalIndex = g) := filter_comm _ _ _
  have hsorted : (h.events.filter fun e => e.globalIndex = g).Pairwise
      fun e e' => e.blockNum ≤ e'.blockNum :=
    (h.ordered.imp fun hlt => ClaimEvent.blockNum_le_of_key_lt hlt).sublist filter_sublist
  rw [hcomm]
  exact List.IsChain.infix (h.alternating g) (inBlocks_isInfix hsorted)

/-- The claims that are kept: the last events of their global indices in the range, where these do
not begin with an unclaim. -/
theorem CertificateBuildParams.Covers.mem_filteredClaims_iff (hp : p.Covers h) :
    c ∈ filteredClaims p.claims p.unclaims ↔
      (h.rangeOf p.fromBlock p.toBlock c.globalIndex).getLast? = some (.claim c) ∧
        ¬Reclaimed (h.rangeOf p.fromBlock p.toBlock c.globalIndex) := by
  have hclaims : p.claims.filter (fun d => d.globalIndex = c.globalIndex) =
      claimsOf (h.rangeOf p.fromBlock p.toBlock c.globalIndex) := by
    rw [hp.claims]
    exact Eq.symm (claimsOf_filter (by exact fun _ => rfl))
  have hcount : unclaimCounts p.unclaims c.globalIndex =
      (unclaimsOf (h.rangeOf p.fromBlock p.toBlock c.globalIndex)).length := by
    unfold unclaimCounts
    rw [countP_eq_length_filter, hp.unclaims]
    exact congrArg List.length (Eq.symm (unclaimsOf_filter (by exact fun _ => rfl)))
  have hmem : c ∈ filteredClaims p.claims p.unclaims ↔
      c ∈ (filteredClaims p.claims p.unclaims).filter
        fun d => d.globalIndex = c.globalIndex := by
    simp
  rw [hmem]
  unfold filteredClaims
  rw [filter_filterClaims, hclaims, hcount]
  exact (h.alternating_rangeOf _ _ _).mem_drop_iff

theorem History.pairwise_rangeOf (h : History H) (fromBlock toBlock g : ℕ) :
    (h.rangeOf fromBlock toBlock g).Pairwise fun e e' => e.key < e'.key :=
  h.ordered.sublist (filter_sublist.trans filter_sublist)

theorem CertificateBuildParams.Covers.mem_claims_iff (hp : p.Covers h) :
    c ∈ p.claims ↔ .claim c ∈ h.rangeOf p.fromBlock p.toBlock c.globalIndex := by
  rw [hp.claims]
  simp [History.rangeOf, ClaimEvent.globalIndex]

theorem CertificateBuildParams.Covers.mem_unclaims_iff {u : Unclaim} (hp : p.Covers h) :
    u ∈ p.unclaims ↔ .unclaim u ∈ h.rangeOf p.fromBlock p.toBlock u.globalIndex := by
  rw [hp.unclaims]
  refine mem_unclaimsOf.trans ?_
  simp [History.rangeOf, ClaimEvent.globalIndex]

/-- A claim is not taken back in the range when it is the last event of its global index there. -/
theorem CertificateBuildParams.Covers.mem_stillClaimed_iff (hp : p.Covers h) :
    c ∈ p.stillClaimed ↔
      (h.rangeOf p.fromBlock p.toBlock c.globalIndex).getLast? = some (.claim c) := by
  unfold stillClaimed
  rw [mem_filter, decide_eq_true_iff]
  have hsorted := h.pairwise_rangeOf p.fromBlock p.toBlock c.globalIndex
  have hchain := h.alternating_rangeOf p.fromBlock p.toBlock c.globalIndex
  constructor
  · rintro ⟨hmem, hkept⟩
    obtain ⟨before, after, hsplit⟩ := append_of_mem (hp.mem_claims_iff.mp hmem)
    rw [hsplit] at hsorted hchain ⊢
    cases after with
    | nil => exact getLast?_concat
    | cons e after =>
      -- The next event is an unclaim, and it takes the claim back.
      have hnext : ClaimEvent.isClaim (.claim c) ≠ e.isClaim :=
        (isChain_cons_cons.mp (isChain_append.mp hchain).2.1).1
      have hlater : c.key < e.key :=
        rel_of_pairwise_cons (pairwise_append.mp hsorted).2.1 mem_cons_self
      have hin : e ∈ h.rangeOf p.fromBlock p.toBlock c.globalIndex := by
        rw [hsplit]
        exact mem_append_right _ (mem_cons_of_mem _ mem_cons_self)
      have hindex : e.globalIndex = c.globalIndex := of_decide_eq_true (mem_filter.mp hin).2
      cases e with
      | claim d => exact absurd rfl hnext
      | unclaim u =>
        have hindex' : u.globalIndex = c.globalIndex := hindex
        have hu : u ∈ p.unclaims := hp.mem_unclaims_iff.mpr (hindex'.symm ▸ hin)
        exact absurd ⟨hindex'.symm, Unclaim.isPosterior_iff.mpr hlater⟩ (hkept u hu)
  · intro hlast
    refine ⟨hp.mem_claims_iff.mpr (mem_of_getLast? hlast), fun u hu htaken => ?_⟩
    have hin : .unclaim u ∈ h.rangeOf p.fromBlock p.toBlock c.globalIndex := by
      rw [htaken.1]
      exact hp.mem_unclaims_iff.mp hu
    rcases Table.rel_of_getLast? hsorted hlast hin with hsame | hearlier
    · cases hsame
    · exact absurd (Unclaim.isPosterior_iff.mp htaken.2) hearlier.asymm

/-- No claim is kept that an unclaim of the range takes back. -/
theorem CertificateBuildParams.Covers.filteredClaims_subset (hp : p.Covers h)
    (hc : c ∈ filteredClaims p.claims p.unclaims) : c ∈ p.stillClaimed :=
  hp.mem_stillClaimed_iff.mpr (hp.mem_filteredClaims_iff.mp hc).1

/-- No global index of the range begins with an unclaim and ends with a claim. -/
def History.NoneReclaimed (h : History H) (fromBlock toBlock : ℕ) : Prop :=
  ∀ g, ¬Reclaimed (h.rangeOf fromBlock toBlock g)

theorem CertificateBuildParams.Covers.nodup_claims (hp : p.Covers h) : p.claims.Nodup := by
  have hsorted : p.claims.Pairwise fun c c' => c.key < c'.key := by
    rw [hp.claims]
    refine List.Pairwise.filterMap ClaimEvent.claim? ?_ (h.ordered.sublist filter_sublist)
    intro e e' hlt c hc c' hc'
    rw [ClaimEvent.claim?_eq_some_iff.mp hc, ClaimEvent.claim?_eq_some_iff.mp hc'] at hlt
    exact hlt
  exact hsorted.imp fun {c c'} hlt (heq : c = c') => absurd hlt (heq ▸ lt_irrefl _)

/-- The claims that are kept are among those that are not taken back, in the same order. -/
theorem CertificateBuildParams.Covers.filteredClaims_sublist (hp : p.Covers h) :
    (filteredClaims p.claims p.unclaims).Sublist p.stillClaimed := by
  have hsub : (filteredClaims p.claims p.unclaims).Sublist p.claims := filterClaims_sublist _ _
  have hfilter : filteredClaims p.claims p.unclaims =
      (filteredClaims p.claims p.unclaims).filter
        fun c => ∀ u ∈ p.unclaims, ¬TakenBackBy c u := by
    refine (filter_eq_self.mpr fun c hc => ?_).symm
    exact (mem_filter.mp (hp.filteredClaims_subset hc)).2
  rw [hfilter]
  exact hsub.filter _

/-- They are all of them exactly where no global index is reclaimed. -/
theorem CertificateBuildParams.Covers.filteredClaims_eq_iff (hp : p.Covers h) :
    filteredClaims p.claims p.unclaims = p.stillClaimed ↔
      h.NoneReclaimed p.fromBlock p.toBlock := by
  constructor
  · intro heq g hre
    -- The last event of such a global index is a claim that should stay.
    cases hlast : (h.rangeOf p.fromBlock p.toBlock g).getLast? with
    | none => exact absurd hre.2 (by rw [hlast]; exact Bool.false_ne_true)
    | some e => cases e with
      | unclaim u => exact absurd hre.2 (by rw [hlast]; exact Bool.false_ne_true)
      | claim c =>
        have hindex : c.globalIndex = g :=
          of_decide_eq_true (mem_filter.mp (mem_of_getLast? hlast)).2
        subst hindex
        have hstill : c ∈ filteredClaims p.claims p.unclaims :=
          heq ▸ hp.mem_stillClaimed_iff.mpr hlast
        exact (hp.mem_filteredClaims_iff.mp hstill).2 hre
  · intro hnone
    have hsubset : p.stillClaimed ⊆ filteredClaims p.claims p.unclaims := fun c hc =>
      hp.mem_filteredClaims_iff.mpr ⟨hp.mem_stillClaimed_iff.mp hc, hnone _⟩
    have hnodup : p.stillClaimed.Nodup := hp.nodup_claims.sublist filter_sublist
    have hlength : p.stillClaimed.length ≤ (filteredClaims p.claims p.unclaims).length :=
      (hnodup.subperm hsubset).length_le
    exact hp.filteredClaims_sublist.eq_of_length_le hlength

end count

/-! ## The imported bridge exits of a certificate -/

variable [DecidableEq H]

/-- An imported bridge exit that `getImportedBridgeExits` makes of a claim. -/
def BaseFlow.Imports (f : BaseFlow H) (K : Keccak H) (root : H) (claim : Claim H)
    (ibe : ImportedBridgeExit H) : Prop :=
  if f.cfg.fullClaimsNeeded then
    convertToImportedBridgeExit K claim root f.l1InfoTreeDataQuerier = .ok ibe
  else ibe = convertToImportedBridgeExitWithoutClaimData K claim

/-- The exits of a certificate are made of the claims that the count keeps. -/
theorem BaseFlow.Built.imports {f : BaseFlow H} {K : Keccak H} {p : CertificateBuildParams H}
    {last : Option (CertificateHeader H)} {allowEmptyCert : Bool} {cert : Certificate H}
    (h : f.Built K p last allowEmptyCert cert) :
    List.Forall₂ (f.Imports K p.l1InfoTreeRootFromWhichToProve)
      (filteredClaims p.claims p.unclaims) cert.importedBridgeExits := by
  have himported := h.importedBridgeExits
  by_cases hfull : f.cfg.fullClaimsNeeded = true
  · exact ((getImportedBridgeExits_eq_ok_iff hfull).mp himported).imp fun _ _ hconvert =>
      (if_pos hfull).mpr hconvert
  · unfold getImportedBridgeExits at himported
    rw [if_neg hfull] at himported
    rw [← Except.ok.inj himported]
    exact List.forall₂_map_right_iff.mpr (List.forall₂_same.mpr fun _ _ => (if_neg hfull).mpr rfl)

/-- The imported bridge exits of a certificate over a range of a history are the claims that no
unclaim of the range takes back, exactly when no global index of the range begins with an unclaim
and ends with a claim. -/
theorem BaseFlow.imports_stillClaimed_iff (f : BaseFlow H) (K : Keccak H) (h : History H)
    (p : CertificateBuildParams H) (hp : p.Covers h) (last : Option (CertificateHeader H))
    (allowEmptyCert : Bool) (cert : Certificate H)
    (hcert : f.buildCertificate K p last allowEmptyCert = .ok cert) :
    List.Forall₂ (f.Imports K p.l1InfoTreeRootFromWhichToProve) p.stillClaimed
        cert.importedBridgeExits ↔
      h.NoneReclaimed p.fromBlock p.toBlock := by
  have himports := (buildCertificate_eq_ok_iff.mp hcert).imports
  rw [← hp.filteredClaims_eq_iff]
  constructor
  · intro hall
    have hlength : p.stillClaimed.length ≤ (filteredClaims p.claims p.unclaims).length := by
      rw [hall.length_eq, himports.length_eq]
    exact hp.filteredClaims_sublist.eq_of_length_le hlength
  · intro heq
    rw [← heq]
    exact himports

/-! ### A range that begins with an unclaim -/

omit [DecidableEq H] in
/-- Events of one global index alternate by themselves. -/
theorem alternating_filter_of_oneIndex {events : List (ClaimEvent H)} (g0 : ℕ)
    (hindex : ∀ e ∈ events, e.globalIndex = g0) (h : Alternating events) (g : ℕ) :
    Alternating (events.filter fun e => e.globalIndex = g) := by
  by_cases hg : g0 = g
  · rw [filter_eq_self.mpr fun e he => decide_eq_true ((hindex e he).trans hg)]
    exact h
  · have hnil : (events.filter fun e => e.globalIndex = g) = [] :=
      filter_eq_nil_iff.mpr fun e he heq =>
        hg ((hindex e he).symm.trans (of_decide_eq_true heq))
    rw [hnil]
    exact isChain_nil

/-- A global index that is claimed, unclaimed and claimed again. -/
def claimedAgain : History ℕ where
  events := [.claim (claimAt 1 0 10 1), .unclaim ⟨10, 2, 0⟩, .claim (claimAt 3 0 10 1)]
  ordered := by decide
  alternating := alternating_filter_of_oneIndex 10 (by decide) (by unfold Alternating; decide)

/-- The build parameters of the blocks 1 to 3. -/
def fromFirstClaim : CertificateBuildParams ℕ :=
  { paramsOver [] [claimAt 1 0 10 1, claimAt 3 0 10 1] [⟨10, 2, 0⟩] with toBlock := 3 }

/-- The build parameters of the blocks 2 and 3; the first claim is in an earlier certificate. -/
def fromUnclaim : CertificateBuildParams ℕ :=
  { paramsOver [] [claimAt 3 0 10 1] [⟨10, 2, 0⟩] with fromBlock := 2, toBlock := 3 }

/-- The certificate over the blocks 1 to 3 has the second claim. -/
theorem BaseFlow.imports_stillClaimed_iff_fromFirstClaim :
    fromFirstClaim.Covers claimedAgain ∧ claimedAgain.NoneReclaimed 1 3 ∧
      fromFirstClaim.stillClaimed = [claimAt 3 0 10 1] ∧
      ∃ cert, (flowOver [] [] []).buildCertificate sumKeccak fromFirstClaim none false = .ok cert ∧
        List.Forall₂ ((flowOver [] [] []).Imports sumKeccak 7) fromFirstClaim.stillClaimed
          cert.importedBridgeExits := by
  have hcovers : fromFirstClaim.Covers claimedAgain := ⟨by decide, by decide⟩
  have hnone : claimedAgain.NoneReclaimed 1 3 := by
    intro g hre
    by_cases hg : g = 10
    · subst hg
      exact absurd hre.1 (by decide)
    · have hnil : claimedAgain.rangeOf 1 3 g = [] := by
        refine filter_eq_nil_iff.mpr fun e he => ?_
        have hindex : e.globalIndex = 10 := by
          revert e
          decide
        rw [hindex]
        exact fun h => hg (of_decide_eq_true h).symm
      rw [hnil] at hre
      cases hre.1
  have hbuilt : ((flowOver [] [] []).buildCertificate sumKeccak fromFirstClaim none
      false).isOk = true := by decide +kernel
  obtain ⟨cert, hcert⟩ := Exec.except_isOk_iff.mp hbuilt
  refine ⟨hcovers, hnone, by decide, cert, hcert, ?_⟩
  exact (imports_stillClaimed_iff (flowOver [] [] []) sumKeccak claimedAgain fromFirstClaim
    hcovers none false cert hcert).mpr hnone

/-- The certificate over the blocks 2 and 3 has no imported bridge exit. -/
theorem not_imports_stillClaimed_fromUnclaim :
    fromUnclaim.Covers claimedAgain ∧ fromUnclaim.stillClaimed = [claimAt 3 0 10 1] ∧
      ∃ cert, (flowOver [] [] []).buildCertificate sumKeccak fromUnclaim none false = .ok cert ∧
        cert.importedBridgeExits = [] ∧
        ¬List.Forall₂ ((flowOver [] [] []).Imports sumKeccak 7) fromUnclaim.stillClaimed
          cert.importedBridgeExits := by
  have hstill : fromUnclaim.stillClaimed = [claimAt 3 0 10 1] := by decide
  refine ⟨⟨by decide, by decide⟩, hstill, _, rfl, rfl, fun hall => ?_⟩
  cases hall

/-! ## No exit without a GER on L1 -/

section adjusted

variable {h : History H} {p : CertificateBuildParams H}

omit [DecidableEq H] in
/-- A part of the range covers its blocks of the history. -/
theorem CertificateBuildParams.Covers.upTo {toBlock : ℕ} (hp : p.Covers h)
    (hto : toBlock ≤ p.toBlock) : (p.upTo toBlock).Covers h := by
  have hrange : inBlocks ClaimEvent.blockNum p.fromBlock toBlock (h.range p.fromBlock p.toBlock) =
      h.range p.fromBlock toBlock := inBlocks_inBlocks hto
  constructor
  · calc (p.upTo toBlock).claims = inBlocks Claim.blockNum p.fromBlock toBlock
          (claimsOf (h.range p.fromBlock p.toBlock)) := congrArg _ hp.claims
      _ = claimsOf (h.range p.fromBlock toBlock) := by
          rw [← hrange]
          exact Eq.symm (claimsOf_filter (by exact fun _ => rfl))
  · calc (p.upTo toBlock).unclaims = inBlocks Unclaim.blockNumber p.fromBlock toBlock
          (unclaimsOf (h.range p.fromBlock p.toBlock)) := congrArg _ hp.unclaims
      _ = unclaimsOf (h.range p.fromBlock toBlock) := by
          rw [← hrange]
          exact Eq.symm (unclaimsOf_filter (by exact fun _ => rfl))

end adjusted

/-- The imported bridge exits of a certificate over a range that `AdjustBlockRange` returned are
made of claims whose GER is on L1. -/
theorem BaseFlow.imports_onL1 (f : BaseFlow H) (K : Keccak H) (h : History H)
    (p q : CertificateBuildParams H) (hp : p.InRange) (hcovers : p.Covers h)
    (options : BlockRangeAdjustmentOptions) (fuel : ℕ)
    (hadjust : f.adjustBlockRange K fuel p options = some (.ok q))
    (last : Option (CertificateHeader H)) (allowEmptyCert : Bool) (cert : Certificate H)
    (hcert : f.buildCertificate K q last allowEmptyCert = .ok cert) :
    List.Forall₂ (f.Imports K q.l1InfoTreeRootFromWhichToProve)
        (filteredClaims q.claims q.unclaims) cert.importedBridgeExits ∧
      ∀ c ∈ filteredClaims q.claims q.unclaims,
        f.l1InfoTreeDataQuerier.onL1 K q.l1InfoTreeRootFromWhichToProve c.globalExitRoot = true := by
  refine ⟨(buildCertificate_eq_ok_iff.mp hcert).imports, fun c hc => ?_⟩
  have hadjusted := adjusted_of_adjustBlockRange hp hadjust
  have hqcovers : q.Covers h := by
    have hpart := hcovers.upTo hadjusted.le_toBlock
    constructor
    · rw [hadjusted.claims, hadjusted.fromBlock]
      exact hpart.claims
    · rw [hadjusted.unclaims, hadjusted.fromBlock]
      exact hpart.unclaims
  -- A claim that is kept is not taken back, and every claim that is not on L1 is.
  have hstill := hqcovers.filteredClaims_subset hc
  unfold stillClaimed at hstill
  rw [mem_filter, decide_eq_true_iff] at hstill
  by_contra hnot
  have hmissing : c ∈ f.missingClaims K q := by
    refine mem_filter.mpr ⟨hstill.1, ?_⟩
    rw [Bool.eq_false_of_not_eq_true hnot]
    rfl
  obtain ⟨u, hu, htaken⟩ := hadjusted.unclaimed.exists_of_mem hmissing
  exact hstill.2 u hu htaken

/-- A global index that is claimed without a GER on L1, unclaimed, and claimed with one. -/
def claimedProperly : History ℕ where
  events := [.claim (claimAt 1 0 10 2), .unclaim ⟨10, 2, 0⟩, .claim (claimAt 3 0 10 1)]
  ordered := by decide
  alternating := alternating_filter_of_oneIndex 10 (by decide) (by unfold Alternating; decide)

/-- The build parameters of its blocks. -/
def bothClaims : CertificateBuildParams ℕ :=
  paramsOver [] [claimAt 1 0 10 2, claimAt 3 0 10 1] [⟨10, 2, 0⟩]

/-- The range is kept as a whole, and the certificate has the second claim only. -/
theorem BaseFlow.imports_onL1_bothClaims :
    bothClaims.Covers claimedProperly ∧
      (flowOver [] [] []).adjustBlockRange sumKeccak 6 bothClaims noLimits =
        some (.ok bothClaims) ∧
      filteredClaims bothClaims.claims bothClaims.unclaims = [claimAt 3 0 10 1] ∧
      ∃ cert, (flowOver [] [] []).buildCertificate sumKeccak bothClaims none false = .ok cert ∧
        List.Forall₂ ((flowOver [] [] []).Imports sumKeccak 7)
          (filteredClaims bothClaims.claims bothClaims.unclaims) cert.importedBridgeExits := by
  have hcovers : bothClaims.Covers claimedProperly := ⟨by decide, by decide⟩
  have hinRange : bothClaims.InRange := ⟨by decide, by decide, by decide, by decide⟩
  have hadjust : (flowOver [] [] []).adjustBlockRange sumKeccak 6 bothClaims noLimits =
      some (.ok bothClaims) := by decide +kernel
  have hbuilt : ((flowOver [] [] []).buildCertificate sumKeccak bothClaims none
      false).isOk = true := by decide +kernel
  obtain ⟨cert, hcert⟩ := Exec.except_isOk_iff.mp hbuilt
  refine ⟨hcovers, hadjust, by decide, cert, hcert, ?_⟩
  exact (imports_onL1 (flowOver [] [] []) sumKeccak claimedProperly bothClaims bothClaims
    hinRange hcovers noLimits 6 hadjust none false cert hcert).1

end AggKit.AggSender
