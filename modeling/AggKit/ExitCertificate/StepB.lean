import AggKit.Common
import AggKit.Lib.AssocMap
import AggKit.Lib.TextEncoding
import AggKit.Lib.Exec
import Mathlib.Algebra.BigOperators.Group.List.Basic
import Mathlib.Data.List.Sort
import Mathlib.Algebra.Ring.Int.Defs

/-!
# The balances of an exit certificate, as in `tools/exit_certificate/step_b.go`

Step B reads the balances of every account at the target block: the native balance and the balance of
each wrapped token that the local balance tree (LBT) lists. Of these it builds a record for each
account and a total for each token. `checkWrappedTokenBalances` and `runStepB3` are from Steps B2 and
B3, which look at the contracts that hold tokens for others.

Amounts are written as decimal texts between the steps. What the node answers is given by functions:
the native balance of an account and the balance of an account in a token. Maps are filled in the
order of a loop, and the order in which they are read does not matter: what is read is sorted.
-/

namespace AggKit.ExitCertificate

open TextEncoding AssocMap List

/-! ## Texts of amounts -/

/-- The error of `parseDecimalBigInt`: `parse decimal big int: invalid value %q`. -/
structure ParseError where
  value : String
deriving DecidableEq

/-- `parseDecimalBigInt`. -/
def parseDecimalBigInt (s : String) : Except ParseError ℤ :=
  match integerDecode s.toList with
  | some n => .ok n
  | none => .error ⟨s⟩

/-- `big.Int.String`. -/
def bigIntString (n : ℤ) : String := String.ofList (integerEncode n)

@[simp]
theorem parseDecimalBigInt_bigIntString (n : ℤ) :
    parseDecimalBigInt (bigIntString n) = .ok n := by
  simp only [parseDecimalBigInt, bigIntString, String.toList_ofList, integerDecode_integerEncode]

/-- The amount of a text, zero for one that is none. -/
def amountOf (s : String) : ℤ := (parseDecimalBigInt s).toOption.getD 0

theorem amountOf_eq {s : String} {n : ℤ} (h : parseDecimalBigInt s = .ok n) : amountOf s = n := by
  rw [amountOf, h]
  rfl

@[simp]
theorem amountOf_bigIntString (n : ℤ) : amountOf (bigIntString n) = n :=
  amountOf_eq (parseDecimalBigInt_bigIntString n)

theorem bigIntString_injective : Function.Injective bigIntString := by
  intro m n h
  have hparse := congrArg parseDecimalBigInt h
  rw [parseDecimalBigInt_bigIntString, parseDecimalBigInt_bigIntString] at hparse
  exact Except.ok.inj hparse

/-! ## The model -/

/-- The zero address, which stands for the native token. -/
def zeroAddress : Address := Vector.replicate 20 0

/-- `WrappedToken`. -/
structure WrappedToken where
  wrappedTokenAddress : Address
  originNetwork : UInt32
  originTokenAddress : Address
deriving DecidableEq

/-- `WrappedToken{}`, the native token. -/
def WrappedToken.native : WrappedToken := ⟨zeroAddress, 0, zeroAddress⟩

/-- The token on its own network. -/
def WrappedToken.origin (t : WrappedToken) : UInt32 × Address :=
  (t.originNetwork, t.originTokenAddress)

/-- `LBTEntry`, as far as the steps read it. -/
structure LBTEntry where
  token : WrappedToken
  balance : String
deriving DecidableEq

/-- `EOATokenBalance`. -/
structure EOATokenBalance where
  token : WrappedToken
  balance : String
deriving DecidableEq

/-- `EOABalance`. -/
structure EOABalance where
  address : Address
  ethBalance : String
  tokens : List EOATokenBalance
deriving DecidableEq

/-- `AccumulatedBalance`. -/
structure AccumulatedBalance where
  token : WrappedToken
  totalBalance : String
deriving DecidableEq

/-- `WrappedTokenBalance`. -/
structure WrappedTokenBalance where
  token : WrappedToken
  balance : String
deriving DecidableEq

/-- `DetectedERC20`, as far as the later steps read it. -/
structure DetectedERC20 where
  address : Address
  wrappedTokenBalances : List WrappedTokenBalance
deriving DecidableEq

/-- `ERC20Holder`. -/
structure ERC20Holder where
  address : Address
  balance : String
deriving DecidableEq

/-- `ERC20HolderBreakdown`. -/
structure ERC20HolderBreakdown where
  address : Address
  holders : List ERC20Holder
  detected : Option DetectedERC20
deriving DecidableEq

/-- `StepBResult`, as far as the later steps read it. -/
structure StepBResult where
  eoaBalances : List EOABalance
  accumulated : List AccumulatedBalance
  erc20HolderBreakdowns : List ERC20HolderBreakdown
  nativeContractLocked : String
deriving DecidableEq

/-- A map from accounts to balances. -/
abbrev Balances := AList fun _ : Address => ℤ

/-- `LBTEntriesToWrappedTokens`. -/
def lbtEntriesToWrappedTokens (entries : List LBTEntry) : List WrappedToken :=
  (entries.map LBTEntry.token).filter fun t => t.wrappedTokenAddress ≠ zeroAddress

/-- A balance that the node answers, where it is not zero. -/
def positive (n : ℕ) : Option ℤ := if 0 < n then some n else none

/-- `fetchETHBalances`, and `fetchTokenBalances` for one token. -/
def fetchBalances (addresses : List Address) (balance : Address → ℕ) : Balances :=
  ofList id (fun a => positive (balance a)) addresses

/-- `fetchAllTokenBalances`: only tokens with a holder are in the map. -/
def fetchAllTokenBalances (tokens : List WrappedToken) (eoaAddresses : List Address)
    (balanceOf : Address → Address → ℕ) : AList fun _ : Address => Balances :=
  ofList WrappedToken.wrappedTokenAddress (fun t =>
    let balances := fetchBalances eoaAddresses (balanceOf t.wrappedTokenAddress)
    if 0 < balances.entries.length then some balances else none) tokens

/-- `tokenLookup` of `RunStepB1`. -/
def tokenLookup (tokens : List WrappedToken) : AList fun _ : Address => WrappedToken :=
  ofList WrappedToken.wrappedTokenAddress some tokens

/-- What is looked up in it: the token at an address with the origin that it is known to have, and
that of `WrappedToken{}` for an unknown one. -/
def tokenInfo (lookup : AList fun _ : Address => WrappedToken) (tokenAddr : Address) : WrappedToken :=
  { (lookup.lookup tokenAddr).getD .native with wrappedTokenAddress := tokenAddr }

/-- `sumBalances`. -/
def sumBalances (balances : Balances) : ℤ := (balances.entries.map Sigma.snd).sum

/-- The order of `bytes.Compare`. -/
def addressLE (a b : Address) : Prop := a.toList ≤ b.toList

instance : DecidableRel addressLE := fun a b => inferInstanceAs (Decidable (a.toList ≤ b.toList))

/-- What `buildSingleEOABalance` adds for a token. -/
def eoaTokenBalance (addr : Address) (lookup : AList fun _ : Address => WrappedToken)
    (entry : Sigma fun _ : Address => Balances) : Option EOATokenBalance :=
  match entry.2.lookup addr with
  | some bal =>
    if 0 < bal then some ⟨tokenInfo lookup entry.1, bigIntString bal⟩ else none
  | none => none

/-- The native balance of an account, as `buildSingleEOABalance` writes it. -/
def ethBalanceText (ethBalances : Balances) (addr : Address) : String :=
  match ethBalances.lookup addr with
  | some bal => bigIntString bal
  | none => "0"

/-- `buildSingleEOABalance`. -/
def buildSingleEOABalance (addr : Address) (ethBalances : Balances)
    (tokenBalances : AList fun _ : Address => Balances)
    (lookup : AList fun _ : Address => WrappedToken) : Option EOABalance :=
  let ethBalance := ethBalanceText ethBalances addr
  let tokens := (tokenBalances.entries.filterMap (eoaTokenBalance addr lookup)).insertionSort
    fun s t => addressLE s.token.wrappedTokenAddress t.token.wrappedTokenAddress
  if ethBalance = "0" ∧ tokens.length = 0 then none else some ⟨addr, ethBalance, tokens⟩

/-- `buildEOABalances`. -/
def buildEOABalances (eoaAddrs : List Address) (ethBalances : Balances)
    (tokenBalances : AList fun _ : Address => Balances)
    (lookup : AList fun _ : Address => WrappedToken) : List EOABalance :=
  eoaAddrs.filterMap fun addr => buildSingleEOABalance addr ethBalances tokenBalances lookup

/-- `buildAccumulated`: the native entry is first. -/
def buildAccumulated (ethBalances : Balances) (tokenBalances : AList fun _ : Address => Balances)
    (lookup : AList fun _ : Address => WrappedToken) : List AccumulatedBalance :=
  ⟨.native, bigIntString (sumBalances ethBalances)⟩ ::
    (tokenBalances.entries.map fun entry =>
      (⟨tokenInfo lookup entry.1, bigIntString (sumBalances entry.2)⟩ :
        AccumulatedBalance)).insertionSort
      fun s t => addressLE s.token.wrappedTokenAddress t.token.wrappedTokenAddress

/-- What `RunStepB1` and the steps after it hand over to Step C, for the tokens of the LBT, the
balances that the node answers and the holder breakdowns. -/
def stepBResult (lbt : List LBTEntry) (eoaAddrs : List Address) (eth : Address → ℕ)
    (balanceOf : Address → Address → ℕ) (breakdowns : List ERC20HolderBreakdown)
    (nativeContractLocked : String) : StepBResult :=
  let tokens := lbtEntriesToWrappedTokens lbt
  let eoaEthBalances := fetchBalances eoaAddrs eth
  let tokenBalances := fetchAllTokenBalances tokens eoaAddrs balanceOf
  { eoaBalances := buildEOABalances eoaAddrs eoaEthBalances tokenBalances (tokenLookup tokens)
    accumulated := buildAccumulated eoaEthBalances tokenBalances (tokenLookup tokens)
    erc20HolderBreakdowns := breakdowns
    nativeContractLocked := nativeContractLocked }

/-! ## What is built -/

section built

variable {addrs : List Address} {balance : Address → ℕ} {tokens : List WrappedToken}
  {balanceOf : Address → Address → ℕ} {a : Address}

theorem lookup_fetchBalances (haddrs : addrs.Nodup) (ha : a ∈ addrs) :
    (fetchBalances addrs balance).lookup a = positive (balance a) :=
  lookup_ofList_key (show (addrs.map id).Nodup by rwa [map_id]) ha

theorem ethBalanceText_fetchBalances (haddrs : addrs.Nodup) (ha : a ∈ addrs) :
    ethBalanceText (fetchBalances addrs balance) a = bigIntString (balance a) := by
  rw [ethBalanceText, lookup_fetchBalances haddrs ha, positive]
  split_ifs with hpos
  · rfl
  · rw [Nat.eq_zero_of_not_pos hpos]
    decide

/-- The sum over the map is the sum over the accounts. -/
theorem sumBalances_fetchBalances (haddrs : addrs.Nodup) :
    sumBalances (fetchBalances addrs balance) = (addrs.map fun a => (balance a : ℤ)).sum := by
  have hentries : (fetchBalances addrs balance).entries.Perm
      (addrs.filterMap (entryOf id fun a => positive (balance a))) :=
    entries_ofList (by rwa [map_id])
  rw [sumBalances, (hentries.map Sigma.snd).sum_eq]
  clear hentries haddrs
  induction addrs with
  | nil => rfl
  | cons a addrs ih =>
    rw [map_cons, sum_cons, ← ih, filterMap_cons]
    by_cases hpos : 0 < balance a
    · simp [entryOf, positive, hpos]
    · simp [entryOf, positive, Nat.eq_zero_of_not_pos hpos]

/-- A token without holders has no balance. -/
theorem fetchBalances_eq_nil (haddrs : addrs.Nodup)
    (h : ¬0 < (fetchBalances addrs balance).entries.length) (ha : a ∈ addrs) : balance a = 0 := by
  have hnil : (fetchBalances addrs balance).entries = [] := by
    rw [← length_eq_zero_iff]
    omega
  have hlookup : (fetchBalances addrs balance).lookup a = none := by
    rw [AList.lookup, hnil, dlookup_nil]
  rw [lookup_fetchBalances haddrs ha] at hlookup
  by_contra hne
  simp [positive, Nat.pos_of_ne_zero hne] at hlookup

/-- The token that an address of a tracked token is known as. -/
theorem tokenInfo_tokenLookup (htokens : (tokens.map WrappedToken.wrappedTokenAddress).Nodup)
    {t : WrappedToken} (ht : t ∈ tokens) :
    tokenInfo (tokenLookup tokens) t.wrappedTokenAddress = t := by
  rw [tokenInfo, tokenLookup, lookup_ofList_key htokens ht, Option.getD_some]

/-- The map that `fetchAllTokenBalances` has for a token. -/
def holdersOf (addrs : List Address) (balanceOf : Address → Address → ℕ) (t : WrappedToken) :
    Option Balances :=
  let balances := fetchBalances addrs (balanceOf t.wrappedTokenAddress)
  if 0 < balances.entries.length then some balances else none

theorem entries_fetchAllTokenBalances
    (htokens : (tokens.map WrappedToken.wrappedTokenAddress).Nodup) :
    (fetchAllTokenBalances tokens addrs balanceOf).entries.Perm
      (tokens.filterMap (entryOf WrappedToken.wrappedTokenAddress (holdersOf addrs balanceOf))) :=
  entries_ofList htokens

/-- The balances of tokens that the record of an account gets: one for each token in which it has
any. -/
theorem eoaTokenBalances_perm (haddrs : addrs.Nodup)
    (htokens : (tokens.map WrappedToken.wrappedTokenAddress).Nodup) (ha : a ∈ addrs) :
    ((fetchAllTokenBalances tokens addrs balanceOf).entries.filterMap
        (eoaTokenBalance a (tokenLookup tokens))).Perm
      (tokens.filterMap fun t => (positive (balanceOf t.wrappedTokenAddress a)).map
        fun bal => ⟨t, bigIntString bal⟩) := by
  refine ((entries_fetchAllTokenBalances htokens).filterMap _).trans ?_
  rw [filterMap_filterMap]
  refine List.Perm.of_eq (filterMap_congr fun t ht => ?_)
  have hinfo := tokenInfo_tokenLookup htokens ht
  unfold entryOf holdersOf
  by_cases hholders :
      0 < (fetchBalances addrs (balanceOf t.wrappedTokenAddress)).entries.length
  · simp only [if_pos hholders, Option.map_some, Option.bind_some, eoaTokenBalance, hinfo,
      lookup_fetchBalances haddrs ha]
    unfold positive
    by_cases hpos : 0 < balanceOf t.wrappedTokenAddress a <;> simp [hpos]
  · have hzero := fetchBalances_eq_nil haddrs hholders ha
    simp [hholders, positive, hzero]

/-- The total of a token that has a holder. -/
def accumulatedOf (addrs : List Address) (balanceOf : Address → Address → ℕ) (t : WrappedToken) :
    Option AccumulatedBalance :=
  (holdersOf addrs balanceOf t).map fun balances => ⟨t, bigIntString (sumBalances balances)⟩

theorem accumulatedOf_sublist (addrs : List Address) (balanceOf : Address → Address → ℕ)
    (tokens : List WrappedToken) :
    ((tokens.filterMap (accumulatedOf addrs balanceOf)).map
      fun acc => acc.token.wrappedTokenAddress).Sublist
      (tokens.map WrappedToken.wrappedTokenAddress) := by
  induction tokens with
  | nil => exact List.Sublist.refl _
  | cons t tokens ih =>
    rw [filterMap_cons, map_cons]
    unfold accumulatedOf at ih ⊢
    cases holdersOf addrs balanceOf t with
    | none => exact ih.cons _
    | some balances => exact ih.cons_cons _

/-- The totals: the native one, and one for each token that has a holder. -/
theorem buildAccumulated_perm {eth : Address → ℕ}
    (htokens : (tokens.map WrappedToken.wrappedTokenAddress).Nodup) :
    (buildAccumulated (fetchBalances addrs eth) (fetchAllTokenBalances tokens addrs balanceOf)
      (tokenLookup tokens)).Perm
      (⟨.native, bigIntString (sumBalances (fetchBalances addrs eth))⟩ ::
        tokens.filterMap (accumulatedOf addrs balanceOf)) := by
  refine List.Perm.cons _ ((perm_insertionSort _ _).trans ?_)
  refine ((entries_fetchAllTokenBalances htokens).map _).trans (List.Perm.of_eq ?_)
  rw [map_filterMap]
  refine filterMap_congr fun t ht => ?_
  rw [entryOf, Option.map_map, accumulatedOf]
  refine congrArg (Option.map · _) (funext fun balances => ?_)
  simp only [Function.comp_apply, tokenInfo_tokenLookup htokens ht]

end built

/-! ## Holder breakdowns -/

/-- `checkWrappedTokenBalances` of Step B2: the tracked tokens that a contract holds. -/
def checkWrappedTokenBalances (contractAddr : Address) (wrappedTokens : List WrappedToken)
    (eth : Address → ℕ) (balanceOf : Address → Address → ℕ) : List WrappedTokenBalance :=
  (wrappedTokens.filterMap fun t => (positive (balanceOf t.wrappedTokenAddress contractAddr)).map
    fun bal => ⟨t, bigIntString bal⟩) ++
    ((positive (eth contractAddr)).map fun bal => ⟨.native, bigIntString bal⟩).toList

/-- The contracts that Step B2 detects, out of those that answer like an ERC-20: the ones that hold a
tracked token. -/
def detectedERC20s (erc20s : List Address) (wrappedTokens : List WrappedToken) (eth : Address → ℕ)
    (balanceOf : Address → Address → ℕ) : List DetectedERC20 :=
  (erc20s.map fun a => ⟨a, checkWrappedTokenBalances a wrappedTokens eth balanceOf⟩).filter
    fun d => 0 < d.wrappedTokenBalances.length

/-- `RunStepB3`. -/
def runStepB3 (extraERC20Contracts eoaAddrs : List Address) (detected : List DetectedERC20)
    (balanceOf : Address → Address → ℕ) : List ERC20HolderBreakdown :=
  let b2Detected := ofList DetectedERC20.address some detected
  extraERC20Contracts.map fun addr =>
    let holders := (fetchBalances eoaAddrs (balanceOf addr)).entries.map fun entry =>
      (⟨entry.1, bigIntString entry.2⟩ : ERC20Holder)
    { address := addr
      holders := holders.insertionSort fun s t => addressLE s.address t.address
      detected := b2Detected.lookup addr }

end AggKit.ExitCertificate
