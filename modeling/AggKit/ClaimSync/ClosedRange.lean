import AggKit.ClaimSync.Query

/-!
# The claims of a range that is closed

Certificates are built for ranges of blocks that have ended, and a validator builds them again later.
Both ask for the claims of the range. The query does not look at the blocks of the range alone: the
ranks and the test for unset claims go over the whole tables, so what happens after the range can
change what is returned for it.

How it does is summed up by `Later`, what happens to a global index after the last block of the range:
nothing, it is claimed again, or it is unset. `shown` is what the query returns for each of these
(`mem_getClaims_iff_shown`), where the global index was not unset before. `getClaims_eq_iff` compares
two histories that agree up to the end of the range.
-/

namespace AggKit.ClaimSync

open List

variable {H : Type}

/-! ## Histories -/

/-- The histories agree on all claims and unset claims up to a block. -/
structure AgreeUpTo (toBlock : ℕ) (s t : ClaimStorage H) : Prop where
  claim : ∀ c : Claim H, c.blockNum ≤ toBlock → (c ∈ s.claim ↔ c ∈ t.claim)
  unsetClaim : ∀ u : UnsetClaim H, u.blockNum ≤ toBlock → (u ∈ s.unsetClaim ↔ u ∈ t.unsetClaim)

/-- What happens to a global index after a block. -/
inductive Later where
  /-- Nothing. -/
  | quiet
  /-- It is claimed again and not unset. -/
  | claimed
  /-- It is unset. -/
  | unset
deriving DecidableEq

namespace ClaimStorage

/-- What happens to a global index after a block. -/
def later (s : ClaimStorage H) (toBlock globalIndex : ℕ) : Later :=
  if ∃ u ∈ s.unsetClaim, u.globalIndex = globalIndex ∧ toBlock < u.blockNum then .unset
  else if ∃ c ∈ s.claim, c.globalIndex = globalIndex ∧ toBlock < c.blockNum then .claimed
  else .quiet

/-- The global index is unset up to a block. -/
def UnsetUpTo (s : ClaimStorage H) (toBlock globalIndex : ℕ) : Prop :=
  ∃ u ∈ s.unsetClaim, u.globalIndex = globalIndex ∧ u.blockNum ≤ toBlock

/-- The global index has one row at most up to a block. -/
def SingleUpTo (s : ClaimStorage H) (toBlock globalIndex : ℕ) : Prop :=
  ∀ c ∈ s.claim, ∀ d ∈ s.claim, c.globalIndex = globalIndex → d.globalIndex = globalIndex →
    c.blockNum ≤ toBlock → d.blockNum ≤ toBlock → c = d

/-- The global index has a row before a block. -/
def StartsBefore (s : ClaimStorage H) (fromBlock globalIndex : ℕ) : Prop :=
  ∃ c ∈ s.claim, c.globalIndex = globalIndex ∧ c.blockNum < fromBlock

/-- What is returned for a global index does not tell two courses of later events apart: they are the
same; or neither hides its only row; or neither unsets it and the oldest row is not in the range. -/
def Alike (s : ClaimStorage H) (r : ℕ × ℕ) (globalIndex : ℕ) (l l' : Later) : Prop :=
  l = l' ∨ (l ≠ .claimed ∧ l' ≠ .claimed ∧ s.SingleUpTo r.2 globalIndex) ∨
    (l ≠ .unset ∧ l' ≠ .unset ∧ s.StartsBefore r.1 globalIndex)

/-! ## What is returned for a global index -/

/-- The oldest and the newest row of a global index up to the end of a range, where both are in it. -/
def Ends (s : ClaimStorage H) (r : ℕ × ℕ) (globalIndex : ℕ) (o n : Claim H) : Prop :=
  o ∈ s.inRange r ∧ o.globalIndex = globalIndex ∧ n ∈ s.inRange r ∧ n.globalIndex = globalIndex ∧
    ∀ e ∈ s.claim, e.globalIndex = globalIndex → e.blockNum ≤ r.2 → o.key ≤ e.key ∧ e.key ≤ n.key

/-- The claims that are returned for a global index that is not unset up to the end of the range. -/
def shown (s : ClaimStorage H) (r : ℕ × ℕ) (globalIndex : ℕ) : Later → Claim H → Prop
  | .unset, d => d ∈ s.inRange r ∧ d.globalIndex = globalIndex
  | .claimed, _ => False
  | .quiet, d => ∃ o n, s.Ends r globalIndex o n ∧ d = compact o n

variable {s t : ClaimStorage H} {r : ℕ × ℕ} {globalIndex : ℕ} {c d : Claim H}

theorem hasUnset_iff : s.hasUnset globalIndex = true ↔ ∃ u ∈ s.unsetClaim,
    u.globalIndex = globalIndex := by
  simp [hasUnset]

/-- A global index has an unset claim up to a block or after it. -/
theorem hasUnset_iff_upTo_or_later (toBlock : ℕ) : s.hasUnset globalIndex = true ↔
    s.UnsetUpTo toBlock globalIndex ∨ s.later toBlock globalIndex = .unset := by
  rw [hasUnset_iff]
  unfold UnsetUpTo later
  constructor
  · rintro ⟨u, hu, hgi⟩
    by_cases hle : u.blockNum ≤ toBlock
    · exact Or.inl ⟨u, hu, hgi, hle⟩
    · exact Or.inr (if_pos ⟨u, hu, hgi, by omega⟩)
  · rintro (⟨u, hu, hgi, -⟩ | hlater)
    · exact ⟨u, hu, hgi⟩
    · split_ifs at hlater with hunset
      obtain ⟨u, hu, hgi, -⟩ := hunset
      exact ⟨u, hu, hgi⟩

theorem later_of_ne_unset {toBlock : ℕ} (h : s.later toBlock globalIndex ≠ .unset) :
    s.later toBlock globalIndex =
      if ∃ c ∈ s.claim, c.globalIndex = globalIndex ∧ toBlock < c.blockNum then .claimed
      else .quiet := by
  exact if_neg fun hunset => h (if_pos hunset)

/-- Rows of a global index that was unset are returned as they are. -/
theorem mem_getClaims_of_hasUnset (h : s.hasUnset globalIndex = true) :
    d ∈ s.getClaims r.1 r.2 ∧ d.globalIndex = globalIndex ↔
      d ∈ s.inRange r ∧ d.globalIndex = globalIndex := by
  refine and_congr_left ?_
  rintro rfl
  rw [s.getClaims_eq, mem_selectCompacted]
  constructor
  · rintro (⟨hd, -⟩ | ⟨o, -, n, -, -, hfree, -, -, rfl⟩)
    · exact hd
    · rw [compact_globalIndex, hfree] at h
      cases h
  · exact fun hd => Or.inl ⟨hd, h⟩

/-- What a range returns for a global index that is not unset up to its end. -/
theorem mem_getClaims_iff_shown (hfree : ¬s.UnsetUpTo r.2 globalIndex) :
    d ∈ s.getClaims r.1 r.2 ∧ d.globalIndex = globalIndex ↔
      s.shown r globalIndex (s.later r.2 globalIndex) d := by
  by_cases hunset : s.hasUnset globalIndex = true
  · have hlater := ((hasUnset_iff_upTo_or_later r.2).mp hunset).resolve_left hfree
    rw [mem_getClaims_of_hasUnset hunset, hlater]
    exact Iff.rfl
  have hnever : s.hasUnset globalIndex = false := by simpa using hunset
  have hnotUnset : s.later r.2 globalIndex ≠ .unset := fun hlater =>
    hunset ((hasUnset_iff_upTo_or_later r.2).mpr (Or.inr hlater))
  have hcompacted : d ∈ s.getClaims r.1 r.2 ∧ d.globalIndex = globalIndex ↔
      ∃ o ∈ s.inRange r, ∃ n ∈ s.inRange r, o.globalIndex = globalIndex ∧
        n.globalIndex = globalIndex ∧ IsOldest s.claim o ∧ IsNewest s.claim n ∧
        d = compact o n := by
    rw [s.getClaims_eq, mem_selectCompacted]
    constructor
    · rintro ⟨⟨-, hd⟩ | ⟨o, ho, n, hn, hgi, -, hold, hnew, rfl⟩, rfl⟩
      · rw [hd] at hnever
        cases hnever
      · exact ⟨o, ho, n, hn, rfl, hgi, hold, hnew, rfl⟩
    · rintro ⟨o, ho, n, hn, rfl, hngi, hold, hnew, rfl⟩
      exact ⟨Or.inr ⟨o, ho, n, hn, hngi, hnever, hold, hnew, rfl⟩, rfl⟩
  rw [hcompacted]
  by_cases hagain : ∃ c ∈ s.claim, c.globalIndex = globalIndex ∧ r.2 < c.blockNum
  · -- The newest row comes after the range, so there is nothing to join with.
    have hlater : s.later r.2 globalIndex = .claimed :=
      (later_of_ne_unset hnotUnset).trans (if_pos hagain)
    rw [hlater]
    refine iff_of_false ?_ id
    rintro ⟨o, -, n, hn, -, hngi, -, hnew, -⟩
    obtain ⟨c, hc, hcgi, hafter⟩ := hagain
    have hle := blockNum_le_of_key_le (hnew c hc (hcgi.trans hngi.symm))
    have hend := (mem_inRange.mp hn).2.2
    omega
  · have hlater : s.later r.2 globalIndex = .quiet :=
      (later_of_ne_unset hnotUnset).trans (if_neg hagain)
    -- All rows of the global index are in blocks up to the end.
    have hwithin : ∀ e ∈ s.claim, e.globalIndex = globalIndex → e.blockNum ≤ r.2 :=
      fun e he hegi => Nat.le_of_not_lt fun hafter => hagain ⟨e, he, hegi, hafter⟩
    rw [hlater]
    constructor
    · rintro ⟨o, ho, n, hn, hogi, hngi, hold, hnew, rfl⟩
      exact ⟨o, n, ⟨ho, hogi, hn, hngi, fun e he hegi _ =>
        ⟨hold e he (hegi.trans hogi.symm), hnew e he (hegi.trans hngi.symm)⟩⟩, rfl⟩
    · rintro ⟨o, n, ⟨ho, hogi, hn, hngi, hends⟩, rfl⟩
      refine ⟨o, ho, n, hn, hogi, hngi, fun e he hegi => ?_, fun e he hegi => ?_, rfl⟩
      · exact (hends e he (hegi.trans hogi) (hwithin e he (hegi.trans hogi))).1
      · exact (hends e he (hegi.trans hngi) (hwithin e he (hegi.trans hngi))).2

/-! ## Which courses of later events are told apart -/

/-- Where the global index has one row, it is both the oldest and the newest. -/
theorem shown_quiet_of_single (hc : c ∈ s.inRange r) (hcgi : c.globalIndex = globalIndex)
    (hsingle : s.SingleUpTo r.2 globalIndex) :
    s.shown r globalIndex .quiet d ↔ s.shown r globalIndex .unset d := by
  have honly : ∀ e ∈ s.claim, e.globalIndex = globalIndex → e.blockNum ≤ r.2 → e = c :=
    fun e he hegi hle => hsingle e he c (mem_inRange.mp hc).1 hegi hcgi hle (mem_inRange.mp hc).2.2
  have hrow : ∀ e ∈ s.inRange r, e.globalIndex = globalIndex → e = c := fun e he hegi =>
    honly e (mem_inRange.mp he).1 hegi (mem_inRange.mp he).2.2
  constructor
  · rintro ⟨o, n, ⟨ho, hogi, hn, hngi, -⟩, rfl⟩
    rw [hrow o ho hogi, hrow n hn hngi]
    exact ⟨hc, hcgi⟩
  · rintro ⟨hd, hdgi⟩
    rw [hrow d hd hdgi]
    refine ⟨c, c, ⟨hc, hcgi, hc, hcgi, fun e he hegi hle => ?_⟩, rfl⟩
    rw [honly e he hegi hle]
    exact ⟨le_refl _, le_refl _⟩

/-- Where the oldest row is not in the range, nothing is returned without an unset claim. -/
theorem not_shown_quiet_of_startsBefore (h : s.StartsBefore r.1 globalIndex) :
    ¬s.shown r globalIndex .quiet d := by
  rintro ⟨o, n, ⟨ho, hogi, hn, -, hends⟩, -⟩
  obtain ⟨e, he, hegi, hbefore⟩ := h
  have hstart := (mem_inRange.mp ho).2.1
  have hend := (mem_inRange.mp ho).2.2
  have hle := blockNum_le_of_key_le (hends e he hegi (by omega)).1
  omega

/-- A global index with a row in the range, whose rows do not start before it, has an oldest and a
newest row there. -/
theorem exists_ends (hc : c ∈ s.inRange r) (hcgi : c.globalIndex = globalIndex)
    (hstart : ¬s.StartsBefore r.1 globalIndex) : ∃ o n, s.Ends r globalIndex o n := by
  classical
  -- The rows of the global index up to the end of the range.
  set rows := s.claim.toFinset.filter fun e => e.globalIndex = globalIndex ∧ e.blockNum ≤ r.2
  have hmem : ∀ e, e ∈ rows ↔ e ∈ s.claim ∧ e.globalIndex = globalIndex ∧ e.blockNum ≤ r.2 := by
    simp [rows]
  have hne : rows.Nonempty :=
    ⟨c, (hmem c).mpr ⟨(mem_inRange.mp hc).1, hcgi, (mem_inRange.mp hc).2.2⟩⟩
  have hin : ∀ e ∈ rows, e ∈ s.inRange r ∧ e.globalIndex = globalIndex := by
    intro e he
    obtain ⟨he, hegi, hle⟩ := (hmem e).mp he
    exact ⟨mem_inRange.mpr ⟨he, Nat.le_of_not_lt fun hlt => hstart ⟨e, he, hegi, hlt⟩, hle⟩, hegi⟩
  obtain ⟨o, ho, hmin⟩ := Finset.exists_min_image rows Claim.key hne
  obtain ⟨n, hn, hmax⟩ := Finset.exists_max_image rows Claim.key hne
  exact ⟨o, n, (hin o ho).1, (hin o ho).2, (hin n hn).1, (hin n hn).2, fun e he hegi hle =>
    ⟨hmin e ((hmem e).mpr ⟨he, hegi, hle⟩), hmax e ((hmem e).mpr ⟨he, hegi, hle⟩)⟩⟩

/-- What is returned tells two courses of later events apart, unless they are alike. -/
theorem forall_shown_iff (hc : c ∈ s.inRange r) (hcgi : c.globalIndex = globalIndex)
    (l l' : Later) : (∀ d, s.shown r globalIndex l d ↔ s.shown r globalIndex l' d) ↔
      s.Alike r globalIndex l l' := by
  have hrow : s.shown r globalIndex .unset c := ⟨hc, hcgi⟩
  -- Unset and quiet differ in the newest row, or in the oldest one.
  have hunsetQuiet : (∀ d, s.shown r globalIndex .unset d ↔ s.shown r globalIndex .quiet d) →
      s.SingleUpTo r.2 globalIndex := by
    intro hsame e he e' he' hegi he'gi hle hle'
    obtain ⟨o, n, ⟨ho, hogi, hn, hngi, hends⟩, -⟩ := (hsame c).mp hrow
    obtain ⟨o', n', ⟨-, -, -, -, hends'⟩, hcompact⟩ := (hsame n).mp ⟨hn, hngi⟩
    have ho's : o'.key = n.key := by rw [hcompact, compact_key]
    have hkeys : n.key ≤ o.key := by
      rw [← ho's]
      exact (hends' o (mem_inRange.mp ho).1 hogi (mem_inRange.mp ho).2.2).1
    have hekey : ∀ x ∈ s.claim, x.globalIndex = globalIndex → x.blockNum ≤ r.2 → x.key = o.key :=
      fun x hx hxgi hxle => le_antisymm ((hends x hx hxgi hxle).2.trans hkeys)
        (hends x hx hxgi hxle).1
    exact s.eq_of_key_eq he he' ((hekey e he hegi hle).trans (hekey e' he' he'gi hle').symm)
  have hquietClaimed : (∀ d, ¬s.shown r globalIndex .quiet d) →
      s.StartsBefore r.1 globalIndex := by
    intro hnone
    by_contra hstart
    obtain ⟨o, n, hends⟩ := exists_ends hc hcgi hstart
    exact hnone _ ⟨o, n, hends, rfl⟩
  constructor
  · intro hsame
    cases l <;> cases l'
    case quiet.quiet => exact Or.inl rfl
    case claimed.claimed => exact Or.inl rfl
    case unset.unset => exact Or.inl rfl
    case unset.quiet => exact Or.inr (Or.inl ⟨nofun, nofun, hunsetQuiet hsame⟩)
    case quiet.unset =>
      exact Or.inr (Or.inl ⟨nofun, nofun, hunsetQuiet fun d => (hsame d).symm⟩)
    case quiet.claimed =>
      exact Or.inr (Or.inr ⟨nofun, nofun, hquietClaimed fun d => (hsame d).mp⟩)
    case claimed.quiet =>
      exact Or.inr (Or.inr ⟨nofun, nofun, hquietClaimed fun d => (hsame d).mpr⟩)
    case unset.claimed => exact absurd ((hsame c).mp hrow) id
    case claimed.unset => exact absurd ((hsame c).mpr hrow) id
  · rintro (rfl | ⟨hl, hl', hsingle⟩ | ⟨hl, hl', hstart⟩) d
    · exact Iff.rfl
    · have hquiet := shown_quiet_of_single (d := d) hc hcgi hsingle
      cases l <;> cases l' <;> first | exact absurd rfl hl | exact absurd rfl hl' | skip
      case quiet.quiet => exact Iff.rfl
      case quiet.unset => exact hquiet
      case unset.quiet => exact hquiet.symm
      case unset.unset => exact Iff.rfl
    · have hnone := not_shown_quiet_of_startsBefore (d := d) hstart
      cases l <;> cases l' <;> first | exact absurd rfl hl | exact absurd rfl hl' | skip
      case quiet.quiet => exact Iff.rfl
      case quiet.claimed => exact iff_of_false hnone id
      case claimed.quiet => exact iff_of_false id hnone
      case claimed.claimed => exact Iff.rfl

end ClaimStorage

/-! ## Two histories -/

namespace AgreeUpTo

open ClaimStorage

variable {s t : ClaimStorage H} {r : ℕ × ℕ} {globalIndex : ℕ}

theorem mem_inRange_iff (h : AgreeUpTo r.2 s t) (c : Claim H) :
    c ∈ s.inRange r ↔ c ∈ t.inRange r := by
  rw [ClaimStorage.mem_inRange, ClaimStorage.mem_inRange]
  exact and_congr_left fun hin => h.claim c hin.2

theorem unsetUpTo_iff (h : AgreeUpTo r.2 s t) :
    s.UnsetUpTo r.2 globalIndex ↔ t.UnsetUpTo r.2 globalIndex := by
  constructor
  · rintro ⟨u, hu, hgi, hle⟩
    exact ⟨u, (h.unsetClaim u hle).mp hu, hgi, hle⟩
  · rintro ⟨u, hu, hgi, hle⟩
    exact ⟨u, (h.unsetClaim u hle).mpr hu, hgi, hle⟩

theorem ends_iff (h : AgreeUpTo r.2 s t) (o n : Claim H) :
    s.Ends r globalIndex o n ↔ t.Ends r globalIndex o n := by
  unfold ClaimStorage.Ends
  rw [h.mem_inRange_iff o, h.mem_inRange_iff n]
  refine and_congr_right fun _ => and_congr_right fun _ => and_congr_right fun _ =>
    and_congr_right fun _ => ?_
  constructor
  · exact fun hends e he hegi hle => hends e ((h.claim e hle).mpr he) hegi hle
  · exact fun hends e he hegi hle => hends e ((h.claim e hle).mp he) hegi hle

theorem shown_iff (h : AgreeUpTo r.2 s t) (l : Later) (d : Claim H) :
    s.shown r globalIndex l d ↔ t.shown r globalIndex l d := by
  cases l with
  | unset => exact and_congr_left fun _ => h.mem_inRange_iff d
  | claimed => exact Iff.rfl
  | quiet => simp only [ClaimStorage.shown, h.ends_iff]

end AgreeUpTo

open ClaimStorage in
/-- Two histories that agree up to the end of a range give the same claims for it if and only if, for
every global index that is claimed in the range and was not unset before its end, what happens later
is alike. -/
theorem getClaims_eq_iff {s t : ClaimStorage H} {fromBlock toBlock : ℕ}
    (h : AgreeUpTo toBlock s t) :
    s.getClaims fromBlock toBlock = t.getClaims fromBlock toBlock ↔
      ∀ c ∈ s.claim, fromBlock ≤ c.blockNum → c.blockNum ≤ toBlock →
        ¬s.UnsetUpTo toBlock c.globalIndex →
          s.Alike (fromBlock, toBlock) c.globalIndex (s.later toBlock c.globalIndex)
            (t.later toBlock c.globalIndex) := by
  set r : ℕ × ℕ := (fromBlock, toBlock)
  have hagree : AgreeUpTo r.2 s t := h
  constructor
  · intro heq c hc hfrom hto hfree
    have hin : c ∈ s.inRange r := mem_inRange.mpr ⟨hc, hfrom, hto⟩
    refine (forall_shown_iff hin rfl _ _).mp fun d => ?_
    have hfree' : ¬t.UnsetUpTo r.2 c.globalIndex := fun hunset =>
      hfree (hagree.unsetUpTo_iff.mpr hunset)
    rw [← mem_getClaims_iff_shown hfree, hagree.shown_iff, ← mem_getClaims_iff_shown hfree']
    exact and_congr_left fun _ => heq ▸ Iff.rfl
  · intro hlater
    refine eq_of_mem_iff (nodup_key_selectCompacted s s.claim_key filter_sublist)
      (nodup_key_selectCompacted t t.claim_key filter_sublist)
      (selectCompacted_pairwise s _ _) (selectCompacted_pairwise t _ _) fun d => ?_
    have hpart : (d ∈ s.getClaims r.1 r.2 ∧ d.globalIndex = d.globalIndex) ↔
        (d ∈ t.getClaims r.1 r.2 ∧ d.globalIndex = d.globalIndex) := by
      by_cases hunset : s.UnsetUpTo r.2 d.globalIndex
      · -- Unset before the end: the rows of the range, in both histories.
        have hs := (hasUnset_iff_upTo_or_later r.2).mpr (Or.inl hunset)
        have ht := (hasUnset_iff_upTo_or_later r.2).mpr
          (Or.inl (hagree.unsetUpTo_iff.mp hunset))
        rw [mem_getClaims_of_hasUnset hs, mem_getClaims_of_hasUnset ht, hagree.mem_inRange_iff]
      · have hunset' : ¬t.UnsetUpTo r.2 d.globalIndex := fun hunset' =>
          hunset (hagree.unsetUpTo_iff.mpr hunset')
        rw [mem_getClaims_iff_shown hunset, mem_getClaims_iff_shown hunset', ← hagree.shown_iff]
        by_cases hrow : ∃ c ∈ s.inRange r, c.globalIndex = d.globalIndex
        · obtain ⟨c, hc, hgi⟩ := hrow
          have halike := hlater c (mem_inRange.mp hc).1 (mem_inRange.mp hc).2.1
            (mem_inRange.mp hc).2.2 (by rwa [hgi])
          rw [hgi] at halike
          exact (forall_shown_iff hc hgi _ _).mpr halike d
        · -- Without a row in the range nothing is returned.
          have hnone : ∀ l, ¬s.shown r d.globalIndex l d := by
            intro l hshown
            cases l with
            | unset => exact hrow ⟨d, hshown.1, rfl⟩
            | claimed => exact hshown
            | quiet =>
              obtain ⟨o, n, ⟨ho, hogi, -⟩, -⟩ := hshown
              exact hrow ⟨o, ho, hogi⟩
          exact iff_of_false (hnone _) (hnone _)
    simpa using hpart

/-- Global index 1 is claimed in block 1. -/
def claimedOnce : ClaimStorage ℕ := ⟨[claimAt 1 0 1], [], by decide, nodup_noUnsetClaims⟩

/-- The same with a claim of another global index in block 5. -/
def otherClaimed : ClaimStorage ℕ :=
  ⟨[claimAt 1 0 1, claimAt 5 0 2], [], by decide, nodup_noUnsetClaims⟩

/-- The same with another claim of global index 1 in block 5. -/
def claimedAgain : ClaimStorage ℕ :=
  ⟨[claimAt 1 0 1, claimAt 5 0 1], [], by decide, nodup_noUnsetClaims⟩

theorem agreeUpTo_append (rows later : List (Claim ℕ)) {toBlock : ℕ}
    (h : ∀ c ∈ later, toBlock < c.blockNum) {hrows hlater hunset hunset'} :
    AgreeUpTo toBlock ⟨rows, [], hrows, hunset⟩ ⟨rows ++ later, [], hlater, hunset'⟩ := by
  refine ⟨fun c hle => ?_, fun u _ => Iff.rfl⟩
  rw [mem_append]
  exact ⟨Or.inl, fun hc => hc.resolve_right fun hafter => by have := h c hafter; omega⟩

theorem getClaims_eq_otherClaimed : claimedOnce.getClaims 1 3 = otherClaimed.getClaims 1 3 := by
  have hagree : AgreeUpTo 3 claimedOnce otherClaimed :=
    agreeUpTo_append [claimAt 1 0 1] [claimAt 5 0 2] (by decide)
  refine (getClaims_eq_iff hagree).mpr fun c hc _ _ _ => ?_
  obtain rfl := mem_singleton.mp hc
  exact Or.inl (by decide)

/-- A claim in block 5 takes away what was returned for the blocks up to 3. -/
theorem getClaims_changed_later :
    AgreeUpTo 3 claimedOnce claimedAgain ∧
      claimedOnce.getClaims 1 3 = [claimAt 1 0 1] ∧ claimedAgain.getClaims 1 3 = [] :=
  ⟨agreeUpTo_append [claimAt 1 0 1] [claimAt 5 0 1] (by decide), by decide, by decide⟩

end AggKit.ClaimSync
