import AggKit.ExitCertificate.StepB
import AggKit.Lib.KeyedSum
import Mathlib.Data.List.ReduceOption
import Mathlib.Data.Char
import Mathlib.Data.List.Lex

/-!
# The value locked in contracts, as in `tools/exit_certificate/step_c.go`

What the LBT has of a token and no account holds is locked in contracts. Some contracts hold tokens
for others, and the breakdowns of Step B3 say for whom: `processBreakdowns` makes an exit for each of
these holders, and `computeSCLocked` takes what they cover off the locked value. Tokens are found by
their wrapped address, as a lower-case hexadecimal text.
-/

namespace AggKit.ExitCertificate

open TextEncoding AssocMap List

/-! ## The model -/

/-- The errors of `RunStepC`. -/
inductive StepCError where
  /-- `accumulated EOA balance for token %s` -/
  | accumulated (token : Address) (err : ParseError)
  /-- `vault %s balance of token %s` -/
  | vaultBalance (vault token : Address) (err : ParseError)
  /-- `vault %s holder %s balance` -/
  | holderBalance (vault holder : Address) (err : ParseError)
  /-- `vault %s: holder balances sum (%s) exceeds vault holdings (%s) for token %s — corrupt balance
  data` -/
  | overDistribution (vault : Address) (distributed contractHolds : ℤ) (token : Address)
  /-- `native contract-locked balance` -/
  | nativeContractLocked (err : ParseError)
  /-- `LBT balance for token %s` -/
  | lbtBalance (token : Address) (err : ParseError)
  /-- `token %s: holder bridge coverage (%s) exceeds SC-locked balance (%s); possible LBT or EOA data
  inconsistency` -/
  | coverage (token : Address) (covered locked : ℤ)
deriving DecidableEq

/-- `SCLockedValue`. -/
structure SCLockedValue where
  token : WrappedToken
  lbtBalance : String
  eoaAccumulated : String
  erc20HoldersCovered : String
  totalSCLockedBalance : String
  pendingSCLockedBalance : String
deriving DecidableEq

/-- `HolderBridge`. -/
structure HolderBridge where
  vaultAddress : Address
  token : WrappedToken
  holderAddress : Address
  amount : String
deriving DecidableEq

/-- `StepCResult`. -/
structure StepCResult where
  scLockedValues : List SCLockedValue
  holderBridges : List HolderBridge
deriving DecidableEq

/-- `strings.ToLower(addr.Hex())`, the key under which a token is found. -/
def tokenKey (addr : Address) : List Char := '0' :: 'x' :: hexEncode addr.toList

/-- A map from tokens to amounts. -/
abbrev TokenAmounts := AList fun _ : List Char => ℤ

/-- `parseDecimalBigInt` with the error that the step makes of its error. -/
def parseAmount (wrap : ParseError → StepCError) (s : String) : Except StepCError ℤ :=
  (parseDecimalBigInt s).mapError wrap

/-- `eoaByToken` of `RunStepC`. -/
def eoaByToken (accumulated : List AccumulatedBalance) : Except StepCError TokenAmounts := do
  let totals ← accumulated.mapM fun entry => do
    let total ← parseAmount (.accumulated entry.token.wrappedTokenAddress) entry.totalBalance
    return (tokenKey entry.token.wrappedTokenAddress, total)
  return ofList Prod.fst (fun total => some total.2) totals

/-- What `processBreakdowns` makes of a token that a vault holds. -/
structure Distribution where
  holderBridges : List HolderBridge
  tokenKey : List Char
  distributed : ℤ
deriving DecidableEq

/-- The loop of `processBreakdowns` over the holders of a vault, for one of its tokens. -/
def holderAmounts (bd : ERC20HolderBreakdown) : Except StepCError (List (Address × ℤ)) :=
  bd.holders.mapM fun h => do
    let amount ← parseAmount (.holderBalance bd.address h.address) h.balance
    return (h.address, amount)

/-- An iteration of `processBreakdowns`: a vault and one of the tokens that it holds. A token of which
it holds nothing is skipped. -/
def distribute (bd : ERC20HolderBreakdown) (wtb : WrappedTokenBalance) :
    Except StepCError (Option Distribution) := do
  let contractHolds ← parseAmount
    (.vaultBalance bd.address wtb.token.wrappedTokenAddress) wtb.balance
  if contractHolds = 0 then .ok none
  else do
    let amounts ← holderAmounts bd
    let paid := amounts.filter fun h => 0 < h.2
    let distributed := (paid.map Prod.snd).sum
    if contractHolds < distributed then
      .error (.overDistribution bd.address distributed contractHolds wtb.token.wrappedTokenAddress)
    else
      .ok (some {
        holderBridges := paid.map fun h => ⟨bd.address, wtb.token, h.1, bigIntString h.2⟩
        tokenKey := tokenKey wtb.token.wrappedTokenAddress
        distributed := distributed })

/-- What `processBreakdowns` makes of a vault. -/
def distributeVault (bd : ERC20HolderBreakdown) : Except StepCError (List Distribution) := do
  let distributions ← ((bd.detected.map DetectedERC20.wrappedTokenBalances).getD []).mapM
    (distribute bd)
  return distributions.reduceOption

/-- What `processBreakdowns` makes of all vaults. -/
def distributions (breakdowns : List ERC20HolderBreakdown) :
    Except StepCError (List Distribution) := do
  let perVault ← breakdowns.mapM distributeVault
  return perVault.flatten

/-- `processBreakdowns`: the exits of the holders and what they cover of each token. -/
def processBreakdowns (breakdowns : List ERC20HolderBreakdown) :
    Except StepCError (List HolderBridge × TokenAmounts) := do
  let ds ← distributions breakdowns
  return (ds.flatMap Distribution.holderBridges,
    KeyedSum.sums (ds.map fun d => (d.tokenKey, d.distributed)))

/-- `indexByAddress`. -/
def indexByAddress (entries : List LBTEntry) : AList fun _ : List Char => LBTEntry :=
  ofList (fun e => tokenKey e.token.wrappedTokenAddress) some entries

/-- `locked` of `computeSCLocked`, before what the holders cover is taken off. -/
def lockedBalance (lbt : LBTEntry) (lbtBalance eoaTotal : ℤ) (nativeContractLocked : Option ℤ) : ℤ :=
  match nativeContractLocked with
  | some measured =>
    if lbt.token.wrappedTokenAddress = zeroAddress then measured
    else max (lbtBalance - eoaTotal) 0
  | none => max (lbtBalance - eoaTotal) 0

/-- The record of a token, for what is locked after the holders and what they cover. -/
def scLockedValue (lbt : LBTEntry) (lbtBalance eoaTotal locked holdersCovered : ℤ) : SCLockedValue where
  token := lbt.token
  lbtBalance := bigIntString lbtBalance
  eoaAccumulated := bigIntString eoaTotal
  erc20HoldersCovered := if 0 < holdersCovered then bigIntString holdersCovered else ""
  totalSCLockedBalance := bigIntString (locked + holdersCovered)
  pendingSCLockedBalance := bigIntString locked

/-- An iteration of `computeSCLocked`. -/
def lockToken (eoaByToken covered : TokenAmounts) (nativeContractLocked : Option ℤ)
    (entry : Sigma fun _ : List Char => LBTEntry) : Except StepCError SCLockedValue := do
  let lbt := entry.2
  let lbtBalance ← parseAmount (.lbtBalance lbt.token.wrappedTokenAddress) lbt.balance
  let eoaTotal := (eoaByToken.lookup entry.1).getD 0
  let locked := lockedBalance lbt lbtBalance eoaTotal nativeContractLocked
  match covered.lookup entry.1 with
  | some coveredAmt =>
    if locked - coveredAmt < 0 then
      .error (.coverage lbt.token.wrappedTokenAddress coveredAmt locked)
    else .ok (scLockedValue lbt lbtBalance eoaTotal (locked - coveredAmt) coveredAmt)
  | none => .ok (scLockedValue lbt lbtBalance eoaTotal locked 0)

/-- `computeSCLocked`, in the order of the keys. -/
def computeSCLocked (lbtByToken : AList fun _ : List Char => LBTEntry)
    (eoaByToken covered : TokenAmounts) (nativeContractLocked : Option ℤ) :
    Except StepCError (List SCLockedValue) :=
  (lbtByToken.entries.insertionSort fun s t => s.1 ≤ t.1).mapM
    (lockToken eoaByToken covered nativeContractLocked)

/-- The measured value that takes the place of the formula for the native token, if there is one. -/
def measuredNative (nativeContractLocked : String) : Except StepCError (Option ℤ) :=
  if nativeContractLocked = "" then .ok none
  else (parseAmount .nativeContractLocked nativeContractLocked).map some

/-- `RunStepC`. -/
def runStepC (lbtEntries : List LBTEntry) (stepB : StepBResult) : Except StepCError StepCResult := do
  let eoaTotals ← eoaByToken stepB.accumulated
  let (holderBridges, covered) ← processBreakdowns stepB.erc20HolderBreakdowns
  let nativeContractLocked ← measuredNative stepB.nativeContractLocked
  let scLockedValues ← computeSCLocked (indexByAddress lbtEntries) eoaTotals covered
    nativeContractLocked
  return ⟨scLockedValues, holderBridges⟩

/-! ## What is computed -/

section computed

open Exec KeyedSum

theorem tokenKey_injective : Function.Injective tokenKey := by
  intro a b h
  have hhex : hexEncode a.toList = hexEncode b.toList := (List.cons.inj (List.cons.inj h).2).2
  have hbytes := congrArg hexDecode hhex
  rw [hexDecode_hexEncode, hexDecode_hexEncode] at hbytes
  exact Vector.toList_inj.mp (Option.some.inj hbytes)

theorem parseAmount_eq_ok {wrap : ParseError → StepCError} {s : String} {n : ℤ}
    (h : parseAmount wrap s = .ok n) : amountOf s = n :=
  amountOf_eq (mapError_eq_ok_iff.mp h)

/-- The totals under their keys, where all of them are amounts. -/
theorem lookup_eoaByToken {accumulated : List AccumulatedBalance} {eoaTotals : TokenAmounts}
    (h : eoaByToken accumulated = .ok eoaTotals)
    (haccumulated : (accumulated.map fun e => e.token.wrappedTokenAddress).Nodup) (token : Address)
    {n : ℤ} : eoaTotals.lookup (tokenKey token) = some n ↔
      ∃ e ∈ accumulated, e.token.wrappedTokenAddress = token ∧ amountOf e.totalBalance = n := by
  obtain ⟨totals, htotals, h⟩ := except_bind_ok.mp h
  have hlist : totals = accumulated.map fun e =>
      (tokenKey e.token.wrappedTokenAddress, amountOf e.totalBalance) := by
    refine eq_map_of_mapM htotals fun e _ total htotal => ?_
    obtain ⟨m, hm, hpair⟩ := except_bind_ok.mp htotal
    rw [parseAmount_eq_ok hm]
    exact (Except.ok.inj hpair).symm
  have hkeys : (totals.map Prod.fst).Nodup := by
    have hmap := haccumulated.map tokenKey_injective
    rw [map_map] at hmap
    rw [hlist, map_map]
    exact hmap
  rw [← Except.ok.inj h, lookup_ofList hkeys, hlist]
  constructor
  · rintro ⟨total, hmem, hkey, hval⟩
    obtain ⟨e, he, rfl⟩ := mem_map.mp hmem
    exact ⟨e, he, tokenKey_injective hkey, Option.some.inj hval⟩
  · rintro ⟨e, he, rfl, rfl⟩
    exact ⟨_, mem_map_of_mem he, rfl, rfl⟩

/-- The holders of a vault with what they have of it, as far as they have any. -/
def ERC20HolderBreakdown.paid (bd : ERC20HolderBreakdown) : List (Address × ℤ) :=
  (bd.holders.map fun h => (h.address, amountOf h.balance)).filter fun h => 0 < h.2

theorem ERC20HolderBreakdown.paid_pos (bd : ERC20HolderBreakdown) {h : Address × ℤ}
    (hh : h ∈ bd.paid) : 0 < h.2 := by
  simpa using (mem_filter.mp hh).2

/-- The tokens that a vault holds. -/
def ERC20HolderBreakdown.held (bd : ERC20HolderBreakdown) : List WrappedToken :=
  (((bd.detected.map DetectedERC20.wrappedTokenBalances).getD []).filter fun wtb =>
    amountOf wtb.balance ≠ 0).map WrappedTokenBalance.token

/-- What a vault distributes of a token that it holds. -/
def ERC20HolderBreakdown.distribution (bd : ERC20HolderBreakdown) (token : WrappedToken) :
    Distribution where
  holderBridges := bd.paid.map fun h => ⟨bd.address, token, h.1, bigIntString h.2⟩
  tokenKey := tokenKey token.wrappedTokenAddress
  distributed := (bd.paid.map Prod.snd).sum

variable {bd : ERC20HolderBreakdown}

theorem holderAmounts_eq_ok {amounts : List (Address × ℤ)} (h : holderAmounts bd = .ok amounts) :
    amounts = bd.holders.map fun h => (h.address, amountOf h.balance) := by
  refine eq_map_of_mapM h fun holder _ amount hamount => ?_
  obtain ⟨n, hn, hpair⟩ := except_bind_ok.mp hamount
  rw [parseAmount_eq_ok hn]
  exact (Except.ok.inj hpair).symm

theorem distribute_eq_ok {wtb : WrappedTokenBalance} {d : Option Distribution}
    (h : distribute bd wtb = .ok d) :
    d = if amountOf wtb.balance ≠ 0 then some (bd.distribution wtb.token) else none := by
  obtain ⟨holds, hholds, h⟩ := except_bind_ok.mp h
  rw [parseAmount_eq_ok hholds]
  split_ifs at h with hzero
  · rw [if_neg (not_not.mpr hzero)]
    exact (Except.ok.inj h).symm
  · obtain ⟨amounts, hamounts, h⟩ := except_bind_ok.mp h
    dsimp only at h
    split_ifs at h with hover
    rw [if_pos hzero, ← Except.ok.inj h, holderAmounts_eq_ok hamounts]
    rfl

theorem distributeVault_eq_ok {ds : List Distribution} (h : distributeVault bd = .ok ds) :
    ds = bd.held.map bd.distribution := by
  obtain ⟨options, hoptions, h⟩ := except_bind_ok.mp h
  rw [← Except.ok.inj h, eq_map_of_mapM hoptions fun _ _ _ => distribute_eq_ok,
    ERC20HolderBreakdown.held]
  induction (bd.detected.map DetectedERC20.wrappedTokenBalances).getD [] with
  | nil => rfl
  | cons wtb wtbs ih =>
    rw [map_cons]
    by_cases hheld : amountOf wtb.balance ≠ 0
    · rw [if_pos hheld, reduceOption_cons_of_some, ih,
        filter_cons_of_pos (by simpa using hheld)]
      rfl
    · rw [if_neg hheld, reduceOption_cons_of_none, ih,
        filter_cons_of_neg (by simpa using hheld)]

/-- All that the vaults distribute. -/
def allDistributions (breakdowns : List ERC20HolderBreakdown) : List Distribution :=
  breakdowns.flatMap fun bd => bd.held.map bd.distribution

variable {breakdowns : List ERC20HolderBreakdown}

theorem distributions_eq_ok {ds : List Distribution} (h : distributions breakdowns = .ok ds) :
    ds = allDistributions breakdowns := by
  obtain ⟨perVault, hperVault, h⟩ := except_bind_ok.mp h
  rw [← Except.ok.inj h, eq_map_of_mapM hperVault fun _ _ _ => distributeVault_eq_ok,
    ← flatMap_def, allDistributions]

/-- What the vaults distribute of a token. -/
def covered (breakdowns : List ERC20HolderBreakdown) (token : WrappedToken) : ℤ :=
  total Distribution.tokenKey Distribution.distributed (tokenKey token.wrappedTokenAddress)
    (allDistributions breakdowns)

theorem processBreakdowns_eq_ok {result : List HolderBridge × TokenAmounts}
    (h : processBreakdowns breakdowns = .ok result) :
    result.1 = (allDistributions breakdowns).flatMap Distribution.holderBridges ∧
      ∀ token : WrappedToken, (result.2.lookup (tokenKey token.wrappedTokenAddress)).getD 0 =
        covered breakdowns token := by
  obtain ⟨ds, hds, h⟩ := except_bind_ok.mp h
  obtain rfl := distributions_eq_ok hds
  rw [← Except.ok.inj h]
  refine ⟨rfl, fun token => ?_⟩
  rw [lookup_sums, total_map]
  rfl

/-- What is left of a token after the accounts and the vaults. -/
def remaining (eoaTotals : TokenAmounts) (breakdowns : List ERC20HolderBreakdown) (e : LBTEntry) : ℤ :=
  max (amountOf e.balance -
    (eoaTotals.lookup (tokenKey e.token.wrappedTokenAddress)).getD 0) 0 - covered breakdowns e.token

/-- What the value of a token is, where there is no measured native value. -/
theorem lockToken_eq_ok {eoaTotals coveredAmounts : TokenAmounts} {e : LBTEntry} {v : SCLockedValue}
    (hcovered : (coveredAmounts.lookup (tokenKey e.token.wrappedTokenAddress)).getD 0 =
      covered breakdowns e.token)
    (h : lockToken eoaTotals coveredAmounts none ⟨tokenKey e.token.wrappedTokenAddress, e⟩ = .ok v) :
    parseDecimalBigInt e.balance = .ok (amountOf e.balance) ∧
      0 ≤ remaining eoaTotals breakdowns e ∧ v.token = e.token ∧
      amountOf v.pendingSCLockedBalance = remaining eoaTotals breakdowns e := by
  obtain ⟨lbtBalance, hlbt, h⟩ := except_bind_ok.mp h
  have hamount : amountOf e.balance = lbtBalance := parseAmount_eq_ok hlbt
  refine ⟨hamount ▸ mapError_eq_ok_iff.mp hlbt, ?_⟩
  unfold remaining
  rw [hamount, ← hcovered]
  dsimp only at h
  split at h
  case h_1 coveredAmt hlookup =>
    split_ifs at h with hneg
    rw [hlookup, Option.getD_some, ← Except.ok.inj h]
    refine ⟨?_, rfl, ?_⟩
    · simp only [lockedBalance] at hneg
      omega
    · simp [scLockedValue, lockedBalance]
  case h_2 hlookup =>
    rw [hlookup, Option.getD_none, ← Except.ok.inj h]
    simp [scLockedValue, lockedBalance]

theorem entries_indexByAddress {lbt : List LBTEntry}
    (hwrapped : (lbt.map fun e => e.token.wrappedTokenAddress).Nodup) :
    (indexByAddress lbt).entries.Perm
      (lbt.map fun e => ⟨tokenKey e.token.wrappedTokenAddress, e⟩) := by
  have hkeys : (lbt.map fun e => tokenKey e.token.wrappedTokenAddress).Nodup := by
    have hmap := hwrapped.map tokenKey_injective
    rwa [map_map] at hmap
  have hentry : entryOf (fun e : LBTEntry => tokenKey e.token.wrappedTokenAddress) some =
      some ∘ fun e => ⟨tokenKey e.token.wrappedTokenAddress, e⟩ := rfl
  have hentries : (indexByAddress lbt).entries.Perm (lbt.filterMap
      (entryOf (fun e : LBTEntry => tokenKey e.token.wrappedTokenAddress) some)) :=
    entries_ofList hkeys
  rwa [hentry, filterMap_eq_map] at hentries

/-- What a run of Step C computes: a value for every token of the LBT, in some order, and an exit for
every holder. -/
theorem runStepC_eq_ok {lbt : List LBTEntry} {stepB : StepBResult} {c : StepCResult}
    (hwrapped : (lbt.map fun e => e.token.wrappedTokenAddress).Nodup)
    (hnative : stepB.nativeContractLocked = "") (h : runStepC lbt stepB = .ok c) :
    ∃ (eoaTotals : TokenAmounts) (sorted : List LBTEntry), eoaByToken stepB.accumulated = .ok eoaTotals ∧ sorted.Perm lbt ∧
      (∀ e ∈ lbt, parseDecimalBigInt e.balance = .ok (amountOf e.balance) ∧
        0 ≤ remaining eoaTotals stepB.erc20HolderBreakdowns e) ∧
      (c.scLockedValues.map fun v => (v.token, amountOf v.pendingSCLockedBalance)) =
        (sorted.map fun e => (e.token, remaining eoaTotals stepB.erc20HolderBreakdowns e)) ∧
      c.holderBridges =
        (allDistributions stepB.erc20HolderBreakdowns).flatMap Distribution.holderBridges := by
  obtain ⟨eoaTotals, heoa, h⟩ := except_bind_ok.mp h
  obtain ⟨result, hresult, h⟩ := except_bind_ok.mp h
  obtain ⟨native, hmeasured, h⟩ := except_bind_ok.mp h
  obtain ⟨values, hvalues, hpure⟩ := except_bind_ok.mp h
  obtain ⟨hbridges, hcovered⟩ := processBreakdowns_eq_ok hresult
  obtain rfl : none = native := by
    rw [measuredNative, if_pos hnative] at hmeasured
    exact Except.ok.inj hmeasured
  -- The entries in the order of their keys are the tokens of the LBT under their keys.
  have hperm := (perm_insertionSort (fun s t => s.1 ≤ t.1) (indexByAddress lbt).entries).trans
    (entries_indexByAddress hwrapped)
  unfold computeSCLocked at hvalues
  generalize (indexByAddress lbt).entries.insertionSort (fun s t => s.1 ≤ t.1) = entries
    at hperm hvalues
  have hentry : ∀ entry ∈ entries, ∃ e ∈ lbt, entry = ⟨tokenKey e.token.wrappedTokenAddress, e⟩ := by
    intro entry hmem
    obtain ⟨e, he, rfl⟩ := mem_map.mp (hperm.mem_iff.mp hmem)
    exact ⟨e, he, rfl⟩
  refine ⟨eoaTotals, entries.map Sigma.snd, heoa, ?_, fun e he => ?_, ?_, ?_⟩
  · have hsnd := hperm.map Sigma.snd
    rwa [map_map, show (Sigma.snd ∘ fun e : LBTEntry =>
      (⟨tokenKey e.token.wrappedTokenAddress, e⟩ : Sigma fun _ : List Char => LBTEntry)) = id from rfl,
      map_id] at hsnd
  · obtain ⟨v, hv⟩ := exists_ok_of_mapM hvalues (hperm.mem_iff.mpr (mem_map_of_mem he))
    have hlock := lockToken_eq_ok (hcovered e.token) hv
    exact ⟨hlock.1, hlock.2.1⟩
  · rw [← Except.ok.inj hpure, map_map]
    refine map_eq_map_of_mapM hvalues fun entry hmem v hv => ?_
    obtain ⟨e, -, rfl⟩ := hentry entry hmem
    obtain ⟨-, -, htoken, hpending⟩ := lockToken_eq_ok (hcovered e.token) hv
    rw [htoken, hpending]
    rfl
  · rw [← Except.ok.inj hpure]
    exact hbridges

end computed

end AggKit.ExitCertificate
