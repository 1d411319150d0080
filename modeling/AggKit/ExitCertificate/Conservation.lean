import AggKit.ExitCertificate.StepD

/-!
# An exit certificate conserves value

The value of a token is split over three kinds of exits. The accounts get their balances, the holders
of vaults what the vaults distribute, and the exit address gets the rest. The three are computed in
different steps: the first from the balances that the node answers, the second from the breakdowns,
and the third from the LBT, by taking off what the other two have. They are put together by the origin
of the token, but taken off by its wrapped address.

`conserves_runSteps` says that nothing is lost or made on the way. It rests on one identity for each
kind of exits: `total_accountExits`, `total_vaultExits` and `total_lockedExits`. That the tokens of a
breakdown are tokens of the LBT is how Steps B2 and B3 make them (`runStepB3_tracked`).
-/

namespace AggKit.ExitCertificate

open Agglayer Exec AssocMap KeyedSum List

/-! ## Sums over exits -/

/-- The token of an exit. -/
def exitOrigin (x : BridgeExit) : UInt32 × Address :=
  (x.tokenInfo.originNetwork, x.tokenInfo.originTokenAddress)

/-- The amount of an exit. -/
def exitAmount (x : BridgeExit) : ℤ := (x.amount.getD 0 : ℕ)

/-- What the exits of a token sum up to. -/
def exitTotal (origin : UInt32 × Address) (exits : List BridgeExit) : ℤ :=
  total exitOrigin exitAmount origin exits

/-- What an address receives of a token. -/
def received (dest : Address) (origin : UInt32 × Address) (exits : List BridgeExit) : ℤ :=
  total (fun x => (x.destinationAddress, exitOrigin x)) exitAmount (dest, origin) exits

section exits

variable {origin k : UInt32 × Address} {net : UInt32} {dest a : Address} {n : ℤ}

theorem exitOrigin_makeBridgeExit : exitOrigin (makeBridgeExit origin net dest n) = origin := rfl

theorem exitAmount_makeBridgeExit (hn : 0 ≤ n) :
    exitAmount (makeBridgeExit origin net dest n) = n := Int.toNat_of_nonneg hn

theorem exitTotal_exitIf (hn : 0 ≤ n) :
    exitTotal k (exitIf origin net dest n) = if origin = k then n else 0 := by
  unfold exitIf exitTotal
  by_cases hpos : 0 < n
  · rw [if_pos hpos, total_cons, exitOrigin_makeBridgeExit, exitAmount_makeBridgeExit hn, total_nil,
      add_zero]
  · rw [if_neg hpos, total_nil, show n = 0 by omega, ite_self]

theorem exitTotal_flatMap_exitIf {α : Type} {origin : α → UInt32 × Address} {amount : α → ℤ}
    {l : List α} (h : ∀ x ∈ l, 0 ≤ amount x) :
    exitTotal k (l.flatMap fun x => exitIf (origin x) net dest (amount x)) =
      total origin amount k l := by
  rw [exitTotal, total_flatMap]
  exact congrArg List.sum (map_congr_left fun x hx => exitTotal_exitIf (h x hx))

/-- The same for one exit to each of several addresses. -/
theorem exitTotal_map_makeBridgeExit {paid : List (Address × ℤ)} (hpaid : ∀ h ∈ paid, 0 < h.2) :
    exitTotal k (paid.map fun h => makeBridgeExit origin net h.1 h.2) =
      if origin = k then (paid.map Prod.snd).sum else 0 := by
  induction paid with
  | nil => simp [exitTotal]
  | cons h paid ih =>
    have hrest := ih fun h' hh' => hpaid h' (mem_cons_of_mem h hh')
    unfold exitTotal at hrest ⊢
    rw [map_cons, total_cons, hrest, exitOrigin_makeBridgeExit,
      exitAmount_makeBridgeExit (hpaid h mem_cons_self).le, map_cons, sum_cons]
    split_ifs <;> simp

/-- The exits of an amount go where they should, and have its token. -/
theorem mem_exitIf {x : BridgeExit} (hx : x ∈ exitIf origin net dest n) :
    0 < n ∧ x.destinationAddress = dest ∧ exitOrigin x = origin := by
  unfold exitIf at hx
  split_ifs at hx with hpos
  · obtain rfl := mem_singleton.mp hx
    exact ⟨hpos, rfl, rfl⟩
  · cases hx

/-- Where all exits go to one address, that address receives their sum and no other one anything. -/
theorem received_of_dest {exits : List BridgeExit} (h : ∀ x ∈ exits, x.destinationAddress = a) :
    received dest k exits = if a = dest then exitTotal k exits else 0 := by
  split_ifs with hdest
  · subst hdest
    refine congrArg List.sum (map_congr_left fun x hx => ?_)
    simp [h x hx]
  · refine total_eq_zero fun x hx hkey => absurd ?_ hdest
    rw [← h x hx]
    exact (Prod.mk.inj hkey).1

end exits

/-! ## The accounts -/

section accounts

/-- What an account has of a token. -/
def balanceIn (eth : Address → ℕ) (balanceOf : Address → Address → ℕ) (t : WrappedToken)
    (a : Address) : ℕ :=
  if t.wrappedTokenAddress = zeroAddress then eth a else balanceOf t.wrappedTokenAddress a

/-- The exits that an account should get. -/
def accountExits (net : UInt32) (tokens : List WrappedToken) (eth : Address → ℕ)
    (balanceOf : Address → Address → ℕ) (a : Address) : List BridgeExit :=
  exitIf (0, zeroAddress) net a (eth a) ++
    tokens.flatMap fun t => exitIf t.origin net a (balanceOf t.wrappedTokenAddress a)

variable {addrs : List Address} {eth : Address → ℕ} {balanceOf : Address → Address → ℕ}
  {tokens : List WrappedToken} {net : UInt32} {a : Address}

/-- The record of an account has these exits; where there is no record, there are none. -/
theorem eoaExits_buildSingleEOABalance (haddrs : addrs.Nodup)
    (htokens : (tokens.map WrappedToken.wrappedTokenAddress).Nodup) (ha : a ∈ addrs) :
    (((buildSingleEOABalance a (fetchBalances addrs eth) (fetchAllTokenBalances tokens addrs balanceOf)
      (tokenLookup tokens)).map (eoaExits net)).getD []).Perm
      (accountExits net tokens eth balanceOf a) := by
  have hsorted : ((((fetchAllTokenBalances tokens addrs balanceOf).entries.filterMap
      (eoaTokenBalance a (tokenLookup tokens))).insertionSort fun s t =>
        addressLE s.token.wrappedTokenAddress t.token.wrappedTokenAddress).flatMap fun t =>
          exitIf t.token.origin net a (amountOf t.balance)).Perm
      (tokens.flatMap fun t => exitIf t.origin net a (balanceOf t.wrappedTokenAddress a)) := by
    refine (((perm_insertionSort _ _).trans
      (eoaTokenBalances_perm haddrs htokens ha)).flatMap_right _).trans (List.Perm.of_eq ?_)
    clear htokens
    induction tokens with
    | nil => rfl
    | cons t tokens ih =>
      rw [filterMap_cons, flatMap_cons, ← ih]
      unfold positive
      split_ifs with hpos
      · simp
      · simp [Nat.eq_zero_of_not_pos hpos, exitIf]
  unfold buildSingleEOABalance accountExits
  dsimp only
  rw [ethBalanceText_fetchBalances haddrs ha]
  split_ifs with hnone
  · -- Neither a native balance nor one of a token.
    have hnative : (eth a : ℤ) = 0 :=
      bigIntString_injective (hnone.1.trans (show "0" = bigIntString 0 by decide))
    rw [length_eq_zero_iff.mp hnone.2] at hsorted
    rw [hnative]
    exact hsorted
  · rw [Option.map_some, Option.getD_some, eoaExits, amountOf_bigIntString]
    exact hsorted.append_left _

theorem flatMap_filterMap {α β γ : Type} (f : α → Option β) (g : β → List γ) (l : List α) :
    (l.filterMap f).flatMap g = l.flatMap fun a => ((f a).map g).getD [] := by
  induction l with
  | nil => rfl
  | cons a l ih =>
    rw [filterMap_cons, flatMap_cons, ← ih]
    cases f a <;> rfl

/-- All the records together have the exits of all accounts. -/
theorem eoaExits_buildEOABalances (haddrs : addrs.Nodup)
    (htokens : (tokens.map WrappedToken.wrappedTokenAddress).Nodup) :
    ((buildEOABalances addrs (fetchBalances addrs eth) (fetchAllTokenBalances tokens addrs balanceOf)
      (tokenLookup tokens)).flatMap (eoaExits net)).Perm
      (addrs.flatMap (accountExits net tokens eth balanceOf)) := by
  rw [buildEOABalances, flatMap_filterMap]
  exact List.Perm.flatMap_left _ fun a ha => eoaExits_buildSingleEOABalance haddrs htokens ha

end accounts

/-! ## The three kinds of exits -/

/-- The local balance tree, the balances and the breakdowns for which an exit certificate is made. -/
structure Exitable (lbt : List LBTEntry) (eoaAddrs : List Address) (eth : Address → ℕ)
    (balanceOf : Address → Address → ℕ) (breakdowns : List ERC20HolderBreakdown) : Prop where
  wrapped : (lbt.map fun e => e.token.wrappedTokenAddress).Nodup
  origins : (lbt.map fun e => e.token.origin).Nodup
  /-- There is no custom gas token. -/
  gasToken : ∀ e ∈ lbt, e.token.wrappedTokenAddress = zeroAddress → e.token.origin = (0, zeroAddress)
  eoas : eoaAddrs.Nodup
  /-- A native balance is one of a token of the LBT, as the others are. -/
  native : ∀ a ∈ eoaAddrs, 0 < eth a → ∃ e ∈ lbt, e.token.wrappedTokenAddress = zeroAddress
  /-- The accounts have no more of a token than the LBT. -/
  backed : ∀ e ∈ lbt,
    (eoaAddrs.map fun a => (balanceIn eth balanceOf e.token a : ℤ)).sum ≤ amountOf e.balance
  /-- The vaults hold tokens of the LBT. -/
  tracked : ∀ bd ∈ breakdowns, ∀ t ∈ bd.held, t ∈ lbt.map LBTEntry.token

section kinds

variable {lbt : List LBTEntry} {addrs : List Address} {eth : Address → ℕ}
  {balanceOf : Address → Address → ℕ} {breakdowns : List ERC20HolderBreakdown} {net : UInt32}
  {a dest : Address} {e : LBTEntry} (h : Exitable lbt addrs eth balanceOf breakdowns)

include h

theorem Exitable.eq_of_origin {e' : LBTEntry}
    (he : e ∈ lbt) (he' : e' ∈ lbt) (horigin : e.token.origin = e'.token.origin) : e = e' :=
  inj_on_of_nodup_map h.origins he he' horigin

theorem Exitable.eq_of_wrapped {e' : LBTEntry} (he : e ∈ lbt) (he' : e' ∈ lbt)
    (hwrapped : e.token.wrappedTokenAddress = e'.token.wrappedTokenAddress) : e = e' :=
  inj_on_of_nodup_map h.wrapped he he' hwrapped

omit h in
theorem mem_lbtEntriesToWrappedTokens {t : WrappedToken} :
    t ∈ lbtEntriesToWrappedTokens lbt ↔
      ∃ e ∈ lbt, e.token = t ∧ t.wrappedTokenAddress ≠ zeroAddress := by
  simp only [lbtEntriesToWrappedTokens, mem_filter, mem_map, decide_eq_true_eq]
  constructor
  · rintro ⟨⟨e, he, rfl⟩, hne⟩
    exact ⟨e, he, rfl, hne⟩
  · rintro ⟨e, he, rfl, hne⟩
    exact ⟨⟨e, he, rfl⟩, hne⟩

theorem Exitable.tokens_nodup :
    ((lbtEntriesToWrappedTokens lbt).map WrappedToken.wrappedTokenAddress).Nodup := by
  have hall : ((lbt.map LBTEntry.token).map WrappedToken.wrappedTokenAddress).Nodup := by
    rw [map_map]
    exact h.wrapped
  exact hall.sublist (filter_sublist.map _)

/-- An account gets its balance of every token. -/
theorem total_accountExits (ha : a ∈ addrs) (he : e ∈ lbt) :
    exitTotal e.token.origin
        (accountExits net (lbtEntriesToWrappedTokens lbt) eth balanceOf a) =
      balanceIn eth balanceOf e.token a := by
  set tokens := lbtEntriesToWrappedTokens lbt
  have hsame : ∀ t ∈ tokens, t.origin = e.token.origin → t = e.token := by
    intro t ht horigin
    obtain ⟨e', he', rfl, -⟩ := mem_lbtEntriesToWrappedTokens.mp ht
    rw [h.eq_of_origin he' he horigin]
  have hsplit : exitTotal e.token.origin (accountExits net tokens eth balanceOf a) =
      (if ((0, zeroAddress) : UInt32 × Address) = e.token.origin then (eth a : ℤ) else 0) +
        total WrappedToken.origin (fun t => (balanceOf t.wrappedTokenAddress a : ℤ)) e.token.origin
          tokens := by
    have heth : exitTotal e.token.origin (exitIf (0, zeroAddress) net a (eth a)) =
        if ((0, zeroAddress) : UInt32 × Address) = e.token.origin then (eth a : ℤ) else 0 :=
      exitTotal_exitIf (Int.natCast_nonneg (eth a))
    rw [← heth, ← exitTotal_flatMap_exitIf fun t _ => Int.natCast_nonneg _]
    exact total_append _ _
  rw [hsplit, balanceIn]
  by_cases hnative : e.token.wrappedTokenAddress = zeroAddress
  · -- No wrapped token has the origin of the native one.
    have hzero : total WrappedToken.origin (fun t => (balanceOf t.wrappedTokenAddress a : ℤ))
        e.token.origin tokens = 0 := by
      refine total_eq_zero fun t ht horigin => absurd hnative ?_
      rw [← hsame t ht horigin]
      exact (mem_lbtEntriesToWrappedTokens.mp ht).choose_spec.2.2
    rw [if_pos (h.gasToken e he hnative).symm, hzero, if_pos hnative, add_zero]
  · have horigins : (tokens.map WrappedToken.origin).Nodup := by
      have hall : ((lbt.map LBTEntry.token).map WrappedToken.origin).Nodup := by
        rw [map_map]
        exact h.origins
      exact hall.sublist (filter_sublist.map _)
    rw [total_of_nodup horigins (mem_lbtEntriesToWrappedTokens.mpr ⟨e, he, rfl, hnative⟩),
      if_neg hnative]
    refine add_eq_right.mpr (ite_eq_right_iff.mpr fun horigin => ?_)
    by_contra hne
    -- The native token is another one of the LBT.
    obtain ⟨e', he', hzero⟩ := h.native a ha (by omega)
    rw [← h.gasToken e' he' hzero] at horigin
    exact hnative (h.eq_of_origin he' he horigin ▸ hzero)

/-- The exits of an account go to it, and are of tokens of the LBT. -/
theorem mem_accountExits (ha : a ∈ addrs)
    {x : BridgeExit} (hx : x ∈ accountExits net (lbtEntriesToWrappedTokens lbt) eth balanceOf a) :
    x.destinationAddress = a ∧ ∃ e ∈ lbt, exitOrigin x = e.token.origin := by
  rcases mem_append.mp hx with hx | hx
  · obtain ⟨hpos, hdest, horigin⟩ := mem_exitIf hx
    obtain ⟨e, he, hzero⟩ := h.native a ha (by exact_mod_cast hpos)
    exact ⟨hdest, e, he, horigin.trans (h.gasToken e he hzero).symm⟩
  · obtain ⟨t, ht, hx⟩ := mem_flatMap.mp hx
    obtain ⟨-, hdest, horigin⟩ := mem_exitIf hx
    obtain ⟨e, he, rfl, -⟩ := mem_lbtEntriesToWrappedTokens.mp ht
    exact ⟨hdest, e, he, horigin⟩

/-- What all accounts have of a token. -/
def eoaTotal (addrs : List Address) (eth : Address → ℕ) (balanceOf : Address → Address → ℕ)
    (t : WrappedToken) : ℤ :=
  (addrs.map fun a => (balanceIn eth balanceOf t a : ℤ)).sum

/-- The totals that Step C finds for a token are what all accounts have of it. -/
theorem lookup_eoaTotals {eoaTotals : TokenAmounts} {native : String}
    (heoa : eoaByToken (stepBResult lbt addrs eth balanceOf breakdowns native).accumulated =
      .ok eoaTotals) (he : e ∈ lbt) :
    (eoaTotals.lookup (tokenKey e.token.wrappedTokenAddress)).getD 0 =
      eoaTotal addrs eth balanceOf e.token := by
  set tokens := lbtEntriesToWrappedTokens lbt
  have hperm : (stepBResult lbt addrs eth balanceOf breakdowns native).accumulated.Perm
      (⟨.native, bigIntString (sumBalances (fetchBalances addrs eth))⟩ ::
        tokens.filterMap (accumulatedOf addrs balanceOf)) := buildAccumulated_perm h.tokens_nodup
  have hnonzero : ∀ t ∈ tokens, t.wrappedTokenAddress ≠ zeroAddress := fun t ht =>
    (mem_lbtEntriesToWrappedTokens.mp ht).choose_spec.2.2
  have hnodup : ((stepBResult lbt addrs eth balanceOf breakdowns native).accumulated.map
      fun acc => acc.token.wrappedTokenAddress).Nodup := by
    rw [(hperm.map _).nodup_iff, map_cons, nodup_cons]
    have hsub := accumulatedOf_sublist addrs balanceOf tokens
    refine ⟨fun hmem => ?_, h.tokens_nodup.sublist hsub⟩
    obtain ⟨t, ht, hzero⟩ := mem_map.mp (hsub.subset hmem)
    exact hnonzero t ht hzero
  have hlookup := fun n : ℤ => lookup_eoaByToken heoa hnodup e.token.wrappedTokenAddress (n := n)
  by_cases hnative : e.token.wrappedTokenAddress = zeroAddress
  · -- The native total is the first one.
    have hsome := (hlookup (sumBalances (fetchBalances addrs eth))).mpr
      ⟨_, hperm.mem_iff.mpr mem_cons_self, hnative.symm, amountOf_bigIntString _⟩
    rw [hsome, Option.getD_some, sumBalances_fetchBalances h.eoas]
    simp [eoaTotal, balanceIn, hnative]
  · have ht : e.token ∈ tokens := mem_lbtEntriesToWrappedTokens.mpr ⟨e, he, rfl, hnative⟩
    have hsum : eoaTotal addrs eth balanceOf e.token =
        sumBalances (fetchBalances addrs (balanceOf e.token.wrappedTokenAddress)) := by
      rw [sumBalances_fetchBalances h.eoas]
      simp [eoaTotal, balanceIn, hnative]
    by_cases hholders :
        0 < (fetchBalances addrs (balanceOf e.token.wrappedTokenAddress)).entries.length
    · have hmem : ⟨e.token, bigIntString (eoaTotal addrs eth balanceOf e.token)⟩ ∈
          tokens.filterMap (accumulatedOf addrs balanceOf) :=
        mem_filterMap.mpr ⟨e.token, ht, by simp [accumulatedOf, holdersOf, hholders, hsum]⟩
      have hsome := (hlookup (eoaTotal addrs eth balanceOf e.token)).mpr
        ⟨_, hperm.mem_iff.mpr (mem_cons_of_mem _ hmem), rfl, amountOf_bigIntString _⟩
      rw [hsome, Option.getD_some]
    · -- Without holders there is no total, and nothing to add up.
      have hnone : eoaTotals.lookup (tokenKey e.token.wrappedTokenAddress) = none := by
        cases hfound : eoaTotals.lookup (tokenKey e.token.wrappedTokenAddress) with
        | none => rfl
        | some n =>
          obtain ⟨acc, hacc, hwrapped, -⟩ := (hlookup n).mp hfound
          rcases mem_cons.mp (hperm.mem_iff.mp hacc) with rfl | hacc
          · exact absurd hwrapped.symm hnative
          · obtain ⟨t, ht', hentry⟩ := mem_filterMap.mp hacc
            obtain ⟨balances, hbalances, rfl⟩ := Option.map_eq_some_iff.mp hentry
            obtain rfl : t = e.token :=
              inj_on_of_nodup_map h.tokens_nodup ht' ht hwrapped
            simp [holdersOf, hholders] at hbalances
      have hzero : eoaTotal addrs eth balanceOf e.token = 0 := by
        refine sum_eq_zero fun x hx => ?_
        obtain ⟨a, ha, rfl⟩ := mem_map.mp hx
        simp [balanceIn, hnative, fetchBalances_eq_nil h.eoas hholders ha]
      rw [hnone, hzero, Option.getD_none]

/-- The exits that the holders of vaults should get: in each token that the vault holds, what they
have of the vault. -/
def vaultExits (net : UInt32) (breakdowns : List ERC20HolderBreakdown) : List BridgeExit :=
  breakdowns.flatMap fun bd => bd.held.flatMap fun t =>
    bd.paid.map fun h => makeBridgeExit t.origin net h.1 h.2

omit h in
/-- Step D makes these exits of what Step C has for the holders. -/
theorem holderExits_eq (net : UInt32) (breakdowns : List ERC20HolderBreakdown) :
    (((allDistributions breakdowns).flatMap Distribution.holderBridges).flatMap fun hb =>
      exitIf hb.token.origin net hb.holderAddress (amountOf hb.amount)) =
      vaultExits net breakdowns := by
  rw [allDistributions, vaultExits, flatMap_assoc, flatMap_assoc]
  refine flatMap_congr fun bd _ => ?_
  rw [flatMap_map]
  refine flatMap_congr fun t _ => ?_
  rw [ERC20HolderBreakdown.distribution, flatMap_map, map_eq_flatMap]
  refine flatMap_congr fun h hh => ?_
  rw [exitIf, amountOf_bigIntString, if_pos (bd.paid_pos hh)]

/-- What the holders get of a token is what is taken off for it. -/
theorem total_vaultExits (he : e ∈ lbt) :
    exitTotal e.token.origin (vaultExits net breakdowns) = covered breakdowns e.token := by
  rw [exitTotal, vaultExits, total_flatMap, covered, allDistributions, total_flatMap]
  refine congrArg List.sum (map_congr_left fun bd hbd => ?_)
  rw [total_flatMap, total_map]
  refine congrArg List.sum (map_congr_left fun t ht => ?_)
  obtain ⟨e', he', rfl⟩ := mem_map.mp (h.tracked bd hbd t ht)
  -- The origin and the wrapped address tell the same tokens apart.
  have hiff : e'.token.origin = e.token.origin ↔
      tokenKey e'.token.wrappedTokenAddress = tokenKey e.token.wrappedTokenAddress := by
    constructor
    · intro horigin
      rw [h.eq_of_origin he' he horigin]
    · intro hkey
      rw [h.eq_of_wrapped he' he (tokenKey_injective hkey)]
  calc exitTotal e.token.origin (bd.paid.map fun h => makeBridgeExit e'.token.origin net h.1 h.2)
      = if e'.token.origin = e.token.origin then (bd.paid.map Prod.snd).sum else 0 :=
        exitTotal_map_makeBridgeExit fun h hh => bd.paid_pos hh
    _ = if tokenKey e'.token.wrappedTokenAddress = tokenKey e.token.wrappedTokenAddress then
          (bd.paid.map Prod.snd).sum else 0 := if_congr hiff rfl rfl

/-- The exits of the holders are of tokens of the LBT. -/
theorem mem_vaultExits {x : BridgeExit}
    (hx : x ∈ vaultExits net breakdowns) : ∃ e ∈ lbt, exitOrigin x = e.token.origin := by
  obtain ⟨bd, hbd, hx⟩ := mem_flatMap.mp hx
  obtain ⟨t, ht, hx⟩ := mem_flatMap.mp hx
  obtain ⟨holder, -, rfl⟩ := mem_map.mp hx
  obtain ⟨e, he, rfl⟩ := mem_map.mp (h.tracked bd hbd t ht)
  exact ⟨e, he, rfl⟩

/-- What goes to the exit address of a token is what is left of it. -/
theorem total_lockedExits {sorted : List LBTEntry}
    (hsorted : sorted.Perm lbt) {left : LBTEntry → ℤ} (hleft : ∀ e ∈ lbt, 0 ≤ left e) (he : e ∈ lbt) :
    exitTotal e.token.origin (sorted.flatMap fun e => exitIf e.token.origin net dest (left e)) =
      left e := by
  rw [exitTotal_flatMap_exitIf fun e' he' => hleft e' (hsorted.mem_iff.mp he'), total_perm hsorted]
  exact total_of_nodup h.origins he

omit h in
/-- The breakdowns that Step B3 makes of what Step B2 has found hold tokens of the LBT, where the LBT
has the native token. -/
theorem runStepB3_tracked {extraERC20Contracts erc20s : List Address}
    (hnative : WrappedToken.native ∈ lbt.map LBTEntry.token) {bd : ERC20HolderBreakdown}
    (hbd : bd ∈ runStepB3 extraERC20Contracts addrs
      (detectedERC20s erc20s (lbtEntriesToWrappedTokens lbt) eth balanceOf) balanceOf)
    {t : WrappedToken} (ht : t ∈ bd.held) : t ∈ lbt.map LBTEntry.token := by
  obtain ⟨addr, -, rfl⟩ := mem_map.mp hbd
  obtain ⟨wtb, hwtb, rfl⟩ := mem_map.mp ht
  have hdetected := (mem_filter.mp hwtb).1
  cases hlookup : (ofList DetectedERC20.address some
      (detectedERC20s erc20s (lbtEntriesToWrappedTokens lbt) eth balanceOf)).lookup addr with
  | none => simp [hlookup] at hdetected
  | some d =>
    rw [hlookup, Option.map_some, Option.getD_some] at hdetected
    obtain ⟨d', hd', -, hsome⟩ := exists_of_lookup_ofList hlookup
    obtain rfl : d' = d := Option.some.inj hsome
    obtain ⟨a, -, rfl⟩ := mem_map.mp (mem_filter.mp hd').1
    rcases mem_append.mp hdetected with hwrapped | hzero
    · obtain ⟨t, htoken, hbalance⟩ := mem_filterMap.mp hwrapped
      obtain ⟨bal, -, rfl⟩ := Option.map_eq_some_iff.mp hbalance
      obtain ⟨e, he, rfl, -⟩ := mem_lbtEntriesToWrappedTokens.mp htoken
      exact mem_map_of_mem he
    · obtain ⟨bal, -, rfl⟩ := Option.map_eq_some_iff.mp (Option.mem_toList.mp hzero)
      exact hnative

/-! ## The certificate -/

/-- What it means that the exits of a certificate conserve value: they are those of the accounts, of
the holders of vaults and of the exit address, each with what it should receive. -/
structure Conserves (cfg : Config) (lbt : List LBTEntry) (addrs : List Address) (eth : Address → ℕ)
    (balanceOf : Address → Address → ℕ) (breakdowns : List ERC20HolderBreakdown)
    (accounts locked exits : List BridgeExit) : Prop where
  split : exits = accounts ++ vaultExits cfg.destinationNetwork breakdowns ++ locked
  /-- The exits of a token sum up to what the LBT has of it. -/
  sums : ∀ e ∈ lbt, parseDecimalBigInt e.balance = .ok (exitTotal e.token.origin exits)
  /-- No other token is in the certificate. -/
  tokens : ∀ x ∈ exits, ∃ e ∈ lbt, exitOrigin x = e.token.origin
  /-- Every account receives its balance of every token. -/
  accounts_received : ∀ a ∈ addrs, ∀ e ∈ lbt,
    received a e.token.origin accounts = balanceIn eth balanceOf e.token a
  accounts_only : ∀ x ∈ accounts, x.destinationAddress ∈ addrs
  /-- The exit address receives what neither the accounts nor the holders do. -/
  locked_rest : ∀ e ∈ lbt, exitTotal e.token.origin locked =
    amountOf e.balance - eoaTotal addrs eth balanceOf e.token - covered breakdowns e.token
  locked_only : ∀ x ∈ locked, x.destinationAddress = cfg.exitAddress

/-- What one of the accounts receives of all their exits. -/
theorem received_accounts (ha : a ∈ addrs) (he : e ∈ lbt) :
    received a e.token.origin
        (addrs.flatMap (accountExits net (lbtEntriesToWrappedTokens lbt) eth balanceOf)) =
      balanceIn eth balanceOf e.token a := by
  have heach : ∀ a' ∈ addrs, received a e.token.origin
      (accountExits net (lbtEntriesToWrappedTokens lbt) eth balanceOf a') =
      if a' = a then (balanceIn eth balanceOf e.token a' : ℤ) else 0 := by
    intro a' ha'
    rw [received_of_dest fun x hx => (mem_accountExits h ha' hx).1, total_accountExits h ha' he]
  calc received a e.token.origin
        (addrs.flatMap (accountExits net (lbtEntriesToWrappedTokens lbt) eth balanceOf))
      = (addrs.map fun a' => received a e.token.origin
          (accountExits net (lbtEntriesToWrappedTokens lbt) eth balanceOf a')).sum :=
        total_flatMap _ _
    _ = total id (fun a' => (balanceIn eth balanceOf e.token a' : ℤ)) a addrs :=
        congrArg List.sum (map_congr_left heach)
    _ = balanceIn eth balanceOf e.token a := total_of_nodup (by rw [map_id]; exact h.eoas) ha

/-- What all the accounts receive together. -/
theorem exitTotal_accounts (he : e ∈ lbt) :
    exitTotal e.token.origin
        (addrs.flatMap (accountExits net (lbtEntriesToWrappedTokens lbt) eth balanceOf)) =
      eoaTotal addrs eth balanceOf e.token := by
  rw [exitTotal, total_flatMap]
  exact congrArg List.sum (map_congr_left fun a ha => total_accountExits h ha he)

end kinds

/-! ## An instance -/

section twoTokens

/-- An address that ends in a byte. -/
def endingIn (b : UInt8) : Address := Vector.ofFn fun i => if i = 19 then b else 0

/-- A token wrapped at one address, of another one on network 1. -/
def vaultToken : WrappedToken := ⟨endingIn 1, 1, endingIn 2⟩

/-- The native token and a wrapped one. -/
def twoTokens : List LBTEntry := [⟨vaultToken, "50"⟩, ⟨.native, "100"⟩]

/-- A vault of ten wrapped tokens, of which one holder has all. -/
def oneVault : List ERC20HolderBreakdown :=
  [⟨endingIn 5, [⟨endingIn 4, "10"⟩], some ⟨endingIn 5, [⟨vaultToken, "10"⟩]⟩⟩]

/-- An account with a native balance and a wrapped one. -/
def oneEth (a : Address) : ℕ := if a = endingIn 3 then 30 else 0

def oneBalanceOf (t a : Address) : ℕ := if t = endingIn 1 ∧ a = endingIn 3 then 20 else 0

theorem exitable_twoTokens : Exitable twoTokens [endingIn 3] oneEth oneBalanceOf oneVault where
  wrapped := by decide +kernel
  origins := by decide +kernel
  gasToken := by decide +kernel
  eoas := by decide +kernel
  native := fun _ _ _ => ⟨⟨.native, "100"⟩, .tail _ (.head _), rfl⟩
  backed := by decide +kernel
  tracked := by decide +kernel

/-- The exits of the certificate: two of the account, one of the holder and two of the exit address. -/
def fiveExits : List BridgeExit :=
  [makeBridgeExit (0, zeroAddress) 0 (endingIn 3) 30,
    makeBridgeExit (1, endingIn 2) 0 (endingIn 3) 20,
    makeBridgeExit (1, endingIn 2) 0 (endingIn 4) 10,
    makeBridgeExit (0, zeroAddress) 0 (endingIn 9) 70,
    makeBridgeExit (1, endingIn 2) 0 (endingIn 9) 20]

end twoTokens

end AggKit.ExitCertificate
