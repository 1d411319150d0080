import AggKit.ClaimSync.Calldata
import AggKit.BridgeSync.Invariant

/-!
# Which claims are recovered

A call counts when neither it nor a call around it was reverted. The loop of `findCall` visits these
calls and no others, from the last child to the first, and what it collects is then a fold over a list.
What `setClaimCalldataFromRoot` collects does not depend on the order.

The fold stops at the first call that cannot be decoded. A call to the bridge with fewer bytes than a
selector, such as a plain transfer, is no claim, but it makes the recovery of every other claim of its
transaction fail.
-/

namespace AggKit.ClaimSync

open List BridgeSync

namespace Call

mutual

/-- The calls of a trace that were not reverted, nor inside a reverted call, in the order of the stack. -/
def live : Call → List Call
  | mk type toAddr err input calls =>
    if err.isSome then [] else mk type toAddr err input calls :: lives calls

/-- The same for several traces, the last first. -/
def lives : List Call → List Call
  | [] => []
  | c :: cs => lives cs ++ c.live

end

theorem live_of_err {c : Call} (h : c.err.isSome) : c.live = [] := by
  cases c
  exact if_pos h

theorem live_of_not_err {c : Call} (h : ¬ c.err.isSome) : c.live = c :: lives c.calls := by
  cases c
  exact if_neg h

/-- The calls pushed are the ones that count: a reverted child has nothing live in it. -/
theorem flatMap_live_reverse (cs : List Call) :
    ((cs.filter fun c => c.err.isNone).reverse).flatMap live = lives cs := by
  induction cs with
  | nil => rfl
  | cons c cs ih =>
    rw [lives, ← ih]
    by_cases hc : c.err.isSome
    · rw [filter_cons, if_neg (by simp [Option.isNone_iff_eq_none, Option.isSome_iff_ne_none.mp hc]), live_of_err hc, append_nil]
    · rw [filter_cons, if_pos (by simpa using hc), reverse_cons, flatMap_append]
      simp

theorem sizes_append (cs cs' : List Call) : sizes (cs ++ cs') = sizes cs + sizes cs' := by
  induction cs with
  | nil => simp [sizes]
  | cons c cs ih => simp only [cons_append, sizes, ih, Nat.add_assoc]

theorem sizes_pushed_le (cs : List Call) :
    sizes (cs.filter fun c => c.err.isNone).reverse ≤ sizes cs := by
  induction cs with
  | nil => exact le_rfl
  | cons c cs ih =>
    by_cases hc : c.err.isNone
    · rw [filter_cons, if_pos hc, reverse_cons, sizes_append, sizes]
      simp only [sizes]
      omega
    · rw [filter_cons, if_neg hc, sizes]
      omega

theorem size_eq (c : Call) : c.size = sizes c.calls + 1 := by
  cases c
  rfl

mutual

theorem not_err_of_mem_live : ∀ (c : Call), ∀ x ∈ c.live, ¬ x.err.isSome
  | mk type toAddr err input calls => by
    intro x hx
    rw [live] at hx
    split_ifs at hx with herr
    · cases hx
    · rw [mem_cons] at hx
      rcases hx with rfl | hx
      · exact herr
      · exact not_err_of_mem_lives calls x hx

theorem not_err_of_mem_lives : ∀ (cs : List Call), ∀ x ∈ lives cs, ¬ x.err.isSome
  | [] => fun _ hx => nomatch hx
  | c :: cs => by
    intro x hx
    rw [lives, mem_append] at hx
    rcases hx with hx | hx
    · exact not_err_of_mem_lives cs x hx
    · exact not_err_of_mem_live c x hx

end

/-- A call, not a delegated one or a creation, of the bridge. -/
def AtBridge (bridge : Address) (c : Call) : Prop := c.toAddr = bridge ∧ c.type = .call

instance (bridge : Address) (c : Call) : Decidable (c.AtBridge bridge) :=
  inferInstanceAs (Decidable (_ ∧ _))

end Call

/-! ## The loop is a fold -/

section Loop

variable {σ ε : Type} {visit : Call → σ → Except ε σ}

/-- The fold over the calls in the order they are visited. -/
def visitAll (visit : Call → σ → Except ε σ) : List Call → σ → Except ε σ
  | [], s => .ok s
  | c :: cs, s =>
    match visit c s with
    | .error err => .error err
    | .ok s' => visitAll visit cs s'

/-- With fuel for every call below the stack the loop ends, and has visited the live ones. -/
theorem findCallLoop_eq (fuel : ℕ) (stack : List Call) (s : σ) (hfuel : Call.sizes stack ≤ fuel) :
    findCallLoop visit fuel stack s = some (visitAll visit (stack.flatMap Call.live) s) := by
  fun_induction findCallLoop visit fuel stack s with
  | case1 fuel s => cases fuel <;> rfl
  | case2 c stack s =>
    have hc := c.size_eq
    rw [Call.sizes] at hfuel
    omega
  | case3 fuel c stack s herr ih =>
    rw [Call.sizes] at hfuel
    have hc := c.size_eq
    rw [flatMap_cons, Call.live_of_err herr, ih (by omega), nil_append]
  | case4 fuel c stack s herr err hv =>
    rw [flatMap_cons, Call.live_of_not_err herr, cons_append, visitAll, hv]
  | case5 fuel c stack s herr s' hv ih =>
    -- the children take the place of the call, and they are fewer by the call itself
    have hc := c.size_eq
    have hpushed := Call.sizes_pushed_le c.calls
    rw [Call.sizes] at hfuel
    rw [ih (by rw [Call.sizes_append]; omega), flatMap_cons, Call.live_of_not_err herr, cons_append,
      visitAll, hv, flatMap_append, Call.flatMap_live_reverse]

/-- The fuel of `findCall` is enough. -/
theorem findCallLoop_root (rootCall : Call) (s : σ) :
    findCallLoop visit rootCall.size [rootCall] s = some (visitAll visit rootCall.live s) := by
  have hfuel : Call.sizes [rootCall] ≤ rootCall.size := by
    rfl
  rw [findCallLoop_eq _ _ _ hfuel, flatMap_singleton]

end Loop

/-! ## Decoding -/

variable {H : Type} {abi : BridgeABI H} {K : Keccak H} {c : Claim H}

/-- The selector of a claim, of either bridge. -/
def claimMethodID (etrog isMessage : Bool) : List UInt8 :=
  match etrog, isMessage with
  | true, false => claimAssetEtrogMethodID
  | true, true => claimMessageEtrogMethodID
  | false, false => claimAssetPreEtrogMethodID
  | false, true => claimMessagePreEtrogMethodID

/-- The input has the claim with the data of the event and these proofs, exit roots and metadata. -/
inductive Carries (abi : BridgeABI H) (K : Keccak H) (c : Claim H) (input : List UInt8) :
    Claim H → Prop
  | etrog (data : EtrogInputs H) (isMessage : Bool)
    (selector : input.take 4 = claimMethodID true isMessage)
    (unpacked : abi.unpackEtrog (input.drop 4) = some data)
    (index : data.globalIndex = c.globalIndex) :
    Carries abi K c input { c with
      proofLocalExitRoot := data.smtProofLocalExitRoot
      proofRollupExitRoot := data.smtProofRollupExitRoot
      mainnetExitRoot := data.mainnetExitRoot
      rollupExitRoot := data.rollupExitRoot
      globalExitRoot := K.pair data.mainnetExitRoot data.rollupExitRoot
      destinationNetwork := data.destinationNetwork
      metadata := data.metadata
      isMessage := isMessage }
  | preEtrog (data : PreEtrogInputs H) (isMessage : Bool)
    (selector : input.take 4 = claimMethodID false isMessage)
    (unpacked : abi.unpackPreEtrog (input.drop 4) = some data)
    (index : data.index.toNat = c.globalIndex) :
    Carries abi K c input { c with
      proofLocalExitRoot := data.smtProof
      mainnetExitRoot := data.mainnetExitRoot
      rollupExitRoot := data.rollupExitRoot
      globalExitRoot := K.pair data.mainnetExitRoot data.rollupExitRoot
      destinationNetwork := data.destinationNetwork
      metadata := data.metadata
      isMessage := isMessage }

/-- The input is no call of a method, or it names a claim method and has not its inputs. -/
def Malformed (abi : BridgeABI H) (input : List UInt8) : Prop :=
  input.length < 4 ∨
  (∃ isMessage, input.take 4 = claimMethodID true isMessage ∧
    abi.unpackEtrog (input.drop 4) = none) ∨
  (∃ isMessage, input.take 4 = claimMethodID false isMessage ∧
    abi.unpackPreEtrog (input.drop 4) = none)

variable {input : List UInt8} {m : Bool}

theorem length_of_take_eq_claimMethodID {e : Bool} (h : input.take 4 = claimMethodID e m) :
    ¬ input.length < 4 := by
  have hlen : (input.take 4).length = 4 := by
    rw [h]
    cases e <;> cases m <;> rfl
  rw [length_take] at hlen
  omega

theorem tryDecodeClaimCalldata_etrog (h : input.take 4 = claimMethodID true m) :
    tryDecodeClaimCalldata abi K c input =
      (abi.unpackEtrog (input.drop 4)).elim (.error .unpack) fun data =>
        .ok ((c.decodeEtrogCalldata K data).map fun claim => { claim with isMessage := m }) := by
  have hlen := length_of_take_eq_claimMethodID h
  unfold tryDecodeClaimCalldata
  simp only [methodIDLength, if_neg hlen, h]
  cases m <;> cases abi.unpackEtrog (input.drop 4) <;>
    rfl

theorem tryDecodeClaimCalldata_preEtrog (h : input.take 4 = claimMethodID false m) :
    tryDecodeClaimCalldata abi K c input =
      (abi.unpackPreEtrog (input.drop 4)).elim (.error .unpack) fun data =>
        .ok ((c.decodePreEtrogCalldata K data).map fun claim => { claim with isMessage := m }) := by
  have hlen := length_of_take_eq_claimMethodID h
  have hne : ¬ (claimMethodID false m = claimAssetEtrogMethodID ∨
      claimMethodID false m = claimMessageEtrogMethodID) := by
    cases m <;> decide
  unfold tryDecodeClaimCalldata
  simp only [methodIDLength, if_neg hlen, h, if_neg hne]
  cases m <;> cases abi.unpackPreEtrog (input.drop 4) <;>
    rfl

theorem tryDecodeClaimCalldata_other (hlen : ¬ input.length < 4)
    (h : ∀ e m, input.take 4 ≠ claimMethodID e m) :
    tryDecodeClaimCalldata abi K c input = .ok none := by
  have hetrog : ¬ (input.take 4 = claimAssetEtrogMethodID ∨
      input.take 4 = claimMessageEtrogMethodID) :=
    not_or.mpr ⟨h true false, h true true⟩
  have hpre : ¬ (input.take 4 = claimAssetPreEtrogMethodID ∨
      input.take 4 = claimMessagePreEtrogMethodID) :=
    not_or.mpr ⟨h false false, h false true⟩
  exact (if_neg hlen).trans ((if_neg hetrog).trans (if_neg hpre))

/-- The decoder fails on the malformed inputs. -/
theorem tryDecodeClaimCalldata_eq_error_iff :
    (∃ err, tryDecodeClaimCalldata abi K c input = .error err) ↔ Malformed abi input := by
  constructor
  · rintro ⟨err, herr⟩
    by_cases hlen : input.length < 4
    · exact .inl hlen
    by_cases hclaim : ∃ e m, input.take 4 = claimMethodID e m
    · obtain ⟨e, m, h⟩ := hclaim
      cases e with
      | true =>
        rw [tryDecodeClaimCalldata_etrog h] at herr
        cases hu : abi.unpackEtrog (input.drop 4) with
        | none => exact .inr (.inl ⟨m, h, hu⟩)
        | some data => rw [hu] at herr; cases herr
      | false =>
        rw [tryDecodeClaimCalldata_preEtrog h] at herr
        cases hu : abi.unpackPreEtrog (input.drop 4) with
        | none => exact .inr (.inr ⟨m, h, hu⟩)
        | some data => rw [hu] at herr; cases herr
    · rw [tryDecodeClaimCalldata_other hlen fun e m h => hclaim ⟨e, m, h⟩] at herr
      cases herr
  · rintro (hlen | ⟨m, h, hu⟩ | ⟨m, h, hu⟩)
    · exact ⟨_, if_pos hlen⟩
    · exact ⟨_, by rw [tryDecodeClaimCalldata_etrog h, hu]; rfl⟩
    · exact ⟨_, by rw [tryDecodeClaimCalldata_preEtrog h, hu]; rfl⟩

/-- The decoder returns the claims that are carried. -/
theorem tryDecodeClaimCalldata_eq_some_iff {y : Claim H} :
    tryDecodeClaimCalldata abi K c input = .ok (some y) ↔ Carries abi K c input y := by
  constructor
  · intro hok
    have hlen : ¬ input.length < 4 := by
      intro hlen
      have herr := (if_pos hlen).symm.trans hok
      cases herr
    by_cases hclaim : ∃ e m, input.take 4 = claimMethodID e m
    · obtain ⟨e, m, h⟩ := hclaim
      cases e with
      | true =>
        rw [tryDecodeClaimCalldata_etrog h] at hok
        cases hu : abi.unpackEtrog (input.drop 4) with
        | none => rw [hu] at hok; cases hok
        | some data =>
          rw [hu, Option.elim_some, Claim.decodeEtrogCalldata] at hok
          split_ifs at hok with hindex
          · cases hok
          · cases hok
            exact .etrog data m h hu (not_not.mp hindex)
      | false =>
        rw [tryDecodeClaimCalldata_preEtrog h] at hok
        cases hu : abi.unpackPreEtrog (input.drop 4) with
        | none => rw [hu] at hok; cases hok
        | some data =>
          rw [hu, Option.elim_some, Claim.decodePreEtrogCalldata] at hok
          split_ifs at hok with hindex
          · cases hok
          · cases hok
            exact .preEtrog data m h hu (not_not.mp hindex)
    · rw [tryDecodeClaimCalldata_other hlen fun e m h => hclaim ⟨e, m, h⟩] at hok
      cases hok
  · rintro (⟨data, m, h, hu, hindex⟩ | ⟨data, m, h, hu, hindex⟩)
    · rw [tryDecodeClaimCalldata_etrog h, hu, Option.elim_some, Claim.decodeEtrogCalldata,
        if_neg (not_not.mpr hindex)]
      rfl
    · rw [tryDecodeClaimCalldata_preEtrog h, hu, Option.elim_some, Claim.decodePreEtrogCalldata,
        if_neg (not_not.mpr hindex)]
      rfl

/-! ## What is collected -/

variable [DecidableEq H] {bridge : Address}

/-- The state of the search after some calls: the candidates are the claims they carry, each once. -/
structure Collected (abi : BridgeABI H) (K : Keccak H) (c : Claim H) (bridge : Address)
    (cs : List Call) (st : List Call × List (Claim H)) : Prop where
  wellFormed : ∀ x ∈ cs, x.AtBridge bridge → ¬ Malformed abi x.input
  nodup : st.2.Nodup
  mem : ∀ y, y ∈ st.2 ↔ ∃ x ∈ cs, x.AtBridge bridge ∧ Carries abi K c x.input y
  matching : st.1 = [] ↔ st.2 = []

omit [DecidableEq H] in
theorem Collected.empty : Collected abi K c bridge [] ([], []) :=
  ⟨fun _ hx => (nomatch hx), nodup_nil, fun y => by simp, by simp⟩

variable {x : Call}

/-- What one call that was not reverted does to the search. -/
theorem visitCall_collectCandidate (hx : ¬ x.err.isSome) (st : List Call × List (Claim H)) :
    visitCall bridge (collectCandidate abi K c) x st =
      if x.AtBridge bridge then
        (tryDecodeClaimCalldata abi K c x.input).map fun
          | none => st
          | some y => (st.1 ++ [x], if y ∈ st.2 then st.2 else st.2 ++ [y])
      else .ok st := by
  by_cases hat : x.AtBridge bridge
  · rw [if_pos hat]
    refine (if_pos hat).trans ?_
    rw [collectCandidate, if_neg hx]
    rcases tryDecodeClaimCalldata abi K c x.input with err | _ | y
    · rfl
    · rfl
    · rfl
  · rw [if_neg hat]
    exact if_neg hat

variable {st : List Call × List (Claim H)}

/-- The search stops at the malformed calls to the bridge. -/
theorem visitCall_eq_error_iff (hx : ¬ x.err.isSome) :
    (∃ err, visitCall bridge (collectCandidate abi K c) x st = .error err) ↔
      x.AtBridge bridge ∧ Malformed abi x.input := by
  rw [visitCall_collectCandidate hx, ← tryDecodeClaimCalldata_eq_error_iff (K := K) (c := c)]
  by_cases hat : x.AtBridge bridge
  · rw [if_pos hat]
    cases tryDecodeClaimCalldata abi K c x.input with
    | error err => simp [hat, Except.map]
    | ok y => simp [Except.map]
  · simp [hat]

/-- A call that does not stop the search is accounted for. -/
theorem Collected.step {cs : List Call} {st' : List Call × List (Claim H)}
    (h : Collected abi K c bridge cs st) (hx : ¬ x.err.isSome)
    (hok : visitCall bridge (collectCandidate abi K c) x st = .ok st') :
    Collected abi K c bridge (cs ++ [x]) st' := by
  have hformed : ∀ z ∈ cs ++ [x], z.AtBridge bridge → ¬ Malformed abi z.input := by
    intro z hz hat hm
    rcases mem_append.mp hz with hz | hz
    · exact h.wellFormed z hz hat hm
    · rw [mem_singleton.mp hz] at hat hm
      obtain ⟨err, herr⟩ := (visitCall_eq_error_iff hx).mpr ⟨hat, hm⟩
      rw [herr] at hok
      cases hok
  have hmem : ∀ y, (∃ z ∈ cs ++ [x], z.AtBridge bridge ∧ Carries abi K c z.input y) ↔
      y ∈ st.2 ∨ x.AtBridge bridge ∧ Carries abi K c x.input y := by
    intro y
    simp only [h.mem y, mem_append, mem_singleton, or_and_right, exists_or,
      exists_eq_left]
  rw [visitCall_collectCandidate hx] at hok
  by_cases hat : x.AtBridge bridge
  swap
  · -- a call to another contract changes nothing
    rw [if_neg hat] at hok
    cases hok
    exact ⟨hformed, h.nodup, fun y => by rw [hmem y]; simp [hat], h.matching⟩
  rw [if_pos hat] at hok
  cases hd : tryDecodeClaimCalldata abi K c x.input with
  | error err => rw [hd] at hok; cases hok
  | ok found =>
    have hcarries : ∀ y, Carries abi K c x.input y ↔ found = some y := by
      intro y
      rw [← tryDecodeClaimCalldata_eq_some_iff, hd, Except.ok.injEq]
    rw [hd] at hok
    cases found with
    | none =>
      -- a call of another method or another claim
      cases hok
      exact ⟨hformed, h.nodup, fun y => by rw [hmem y]; simp [hcarries y], h.matching⟩
    | some y =>
      cases hok
      refine ⟨hformed, ?_, fun z => ?_, ?_⟩
      · -- a claim seen before is not added again
        by_cases hy : y ∈ st.2
        · simpa [hy] using h.nodup
        · simpa [hy] using h.nodup.concat hy
      · rw [hmem z, hcarries z]
        by_cases hy : y ∈ st.2
        · simp only [if_pos hy, Option.some.injEq, hat, true_and]
          exact ⟨.inl, fun hz => hz.elim id fun hyz => hyz ▸ hy⟩
        · simp [hy, hat, eq_comm]
      · by_cases hy : y ∈ st.2
        · have hne : st.2 ≠ [] := ne_nil_of_mem hy
          simp [hy, hne]
        · simp [hy]

/-- The whole search stops at a malformed call, or has accounted for every call. -/
theorem Collected.run {cs : List Call} (h : Collected abi K c bridge cs st) {cs' : List Call}
    (hcs' : ∀ x ∈ cs', ¬ x.err.isSome) :
    (∃ st', visitAll (visitCall bridge (collectCandidate abi K c)) cs' st = .ok st' ∧
      Collected abi K c bridge (cs ++ cs') st') ∨
    (∃ err, visitAll (visitCall bridge (collectCandidate abi K c)) cs' st = .error err) ∧
      ∃ x ∈ cs', x.AtBridge bridge ∧ Malformed abi x.input := by
  induction cs' generalizing cs st with
  | nil => exact .inl ⟨st, rfl, by rwa [append_nil]⟩
  | cons x cs' ih =>
    have hx := hcs' x mem_cons_self
    rw [visitAll]
    cases hv : visitCall bridge (collectCandidate abi K c) x st with
    | error err =>
      have hbad := (visitCall_eq_error_iff hx).mp ⟨err, hv⟩
      exact .inr ⟨⟨err, rfl⟩, x, mem_cons_self, hbad⟩
    | ok st1 =>
      have hrest : ∀ z ∈ cs', ¬ z.err.isSome := fun z hz => hcs' z (mem_cons_of_mem x hz)
      rcases ih (h.step hx hv) hrest with ⟨st', hok, h'⟩ | ⟨herr, z, hz, hbad⟩
      · exact .inl ⟨st', hok, by rwa [append_assoc] at h'⟩
      · exact .inr ⟨herr, z, mem_cons_of_mem x hz, hbad⟩

/-! ## The recovery -/

/-- A successful call to the bridge, all of whose ancestors succeeded, carries the claim. -/
def Recoverable (abi : BridgeABI H) (K : Keccak H) (c : Claim H) (rootCall : Call)
    (bridge : Address) (y : Claim H) : Prop :=
  ∃ x ∈ rootCall.live, x.AtBridge bridge ∧ Carries abi K c x.input y

/-- No successful call to the bridge, all of whose ancestors succeeded, is malformed. -/
def WellFormed (abi : BridgeABI H) (rootCall : Call) (bridge : Address) : Prop :=
  ∀ x ∈ rootCall.live, x.AtBridge bridge → ¬ Malformed abi x.input

/-- What is recovered: the only claim that is carried, if no call is malformed. -/
theorem setClaimCalldataFromRoot_eq_ok_iff {rootCall : Call} {y : Claim H} :
    setClaimCalldataFromRoot abi K c rootCall bridge = some (.ok y) ↔
      WellFormed abi rootCall bridge ∧ ∀ z, Recoverable abi K c rootCall bridge z ↔ z = y := by
  rw [setClaimCalldataFromRoot, findCall, findCallLoop_root]
  have hempty : Collected abi K c bridge [] ([], []) := Collected.empty
  rcases hempty.run rootCall.not_err_of_mem_live with
    ⟨⟨ms, cands⟩, hok, h⟩ | ⟨⟨err, herr⟩, x, hx, hat, hbad⟩
  · rw [hok]
    have hmem : ∀ z, Recoverable abi K c rootCall bridge z ↔ z ∈ cands := fun z => (h.mem z).symm
    have hformed : WellFormed abi rootCall bridge := h.wellFormed
    simp only [hformed, hmem, true_and, Option.map_some]
    -- there is no candidate, one, or several distinct ones
    match cands, h with
    | [], h =>
      have hms : ms = [] := h.matching.mpr rfl
      rw [hms]
      exact ⟨fun hrec => (nomatch hrec), fun hall => absurd ((hall y).mpr rfl) not_mem_nil⟩
    | [x], h =>
      have hms : ms ≠ [] := fun hms => cons_ne_nil x [] (h.matching.mp hms)
      simp only [List.isEmpty_iff, if_neg hms, mem_singleton, Option.some.injEq,
        Except.ok.injEq]
      exact ⟨fun hxy z => by rw [hxy], fun hall => (hall x).mp rfl⟩
    | x :: x' :: rest, h =>
      have hms : ms ≠ [] := fun hms => cons_ne_nil x _ (h.matching.mp hms)
      have hne : x ≠ x' := by
        intro hxx
        exact (nodup_cons.mp h.nodup).1 (hxx ▸ mem_cons_self)
      simp only [List.isEmpty_iff, if_neg hms]
      constructor
      · intro hrec
        cases hrec
      · intro hall
        have hx : x = y := (hall x).mp mem_cons_self
        have hx' : x' = y := (hall x').mp (mem_cons_of_mem x mem_cons_self)
        exact absurd (hx.trans hx'.symm) hne
  · rw [herr]
    constructor
    · intro hrec
      cases hrec
    · intro hrec
      exact absurd hbad (hrec.1 x hx hat)

/-- Recovery returns, and it succeeds exactly when one claim can be recovered, if no call is malformed or
no single claim can be recovered; and otherwise it does not. -/
theorem setClaimCalldataFromRoot_iff (abi : BridgeABI H) (K : Keccak H) (c : Claim H)
    (rootCall : Call) (bridge : Address) :
    (∃ result, setClaimCalldataFromRoot abi K c rootCall bridge = some result) ∧
    ((∀ y, setClaimCalldataFromRoot abi K c rootCall bridge = some (.ok y) ↔
        ∀ z, Recoverable abi K c rootCall bridge z ↔ z = y) ↔
      (WellFormed abi rootCall bridge ∨
        ¬ ∃ y, ∀ z, Recoverable abi K c rootCall bridge z ↔ z = y)) := by
  constructor
  · rw [setClaimCalldataFromRoot, findCall, findCallLoop_root]
    exact ⟨_, rfl⟩
  constructor
  · intro hall
    by_cases hone : ∃ y, ∀ z, Recoverable abi K c rootCall bridge z ↔ z = y
    · obtain ⟨y, hy⟩ := hone
      have hok := (hall y).mpr hy
      exact .inl (setClaimCalldataFromRoot_eq_ok_iff.mp hok).1
    · exact .inr hone
  · intro hcond y
    rw [setClaimCalldataFromRoot_eq_ok_iff]
    constructor
    · exact And.right
    · intro hy
      rcases hcond with hformed | hnone
      · exact ⟨hformed, hy⟩
      · exact absurd ⟨y, hy⟩ hnone

/-! ## A transfer beside a claim -/

/-- A decoder whose inputs are one byte, the global index. -/
def byteABI : BridgeABI ℕ where
  unpackEtrog
    | [g] => some ⟨.replicate 32 7, .replicate 32 8, g.toNat, 1, 2, 0, ZeroAddress, 1, ZeroAddress, 9, [3]⟩
    | _ => none
  unpackPreEtrog
    | [g] => some ⟨.replicate 32 7, g.toUInt32, 1, 2, 0, ZeroAddress, 1, ZeroAddress, 9, [3]⟩
    | _ => none

/-- The event of a claim of global index 6. -/
def claimEvent : Claim ℕ where
  blockNum := 10
  blockPos := 0
  txHash := 0
  globalIndex := 6
  originNetwork := 0
  originAddress := ZeroAddress
  destinationAddress := ZeroAddress
  amount := 9
  proofLocalExitRoot := .replicate 32 0
  proofRollupExitRoot := .replicate 32 0
  mainnetExitRoot := 0
  rollupExitRoot := 0
  globalExitRoot := 0
  destinationNetwork := 0
  metadata := []
  isMessage := false
  blockTimestamp := 0
  type := .claimEvent

/-- The address of the bridge in the trace below. -/
def tracedBridge : Address := Vector.replicate 20 1

/-- A contract that claims 6 at the bridge, claims 7 in a call that is reverted, and sends the bridge a
call with the given input. -/
def claimTrace (input : List UInt8) : Call :=
  .mk .call ZeroAddress none []
    [.mk .call tracedBridge none (claimAssetEtrogMethodID ++ [6]) [],
      .mk .call tracedBridge (some "execution reverted") (claimAssetEtrogMethodID ++ [7]) [],
      .mk .call tracedBridge none input []]

/-- The claim with its calldata. -/
def tracedClaim : Claim ℕ :=
  { claimEvent with
    proofLocalExitRoot := .replicate 32 7
    proofRollupExitRoot := .replicate 32 8
    mainnetExitRoot := 1
    rollupExitRoot := 2
    globalExitRoot := toyKeccak.pair 1 2
    destinationNetwork := 1
    metadata := [3] }

/-- A call of another method is no hindrance. -/
example : setClaimCalldataFromRoot byteABI toyKeccak claimEvent
    (claimTrace [1, 2, 3, 4]) tracedBridge = some (.ok tracedClaim) := by
  decide +kernel

/-- A call without input is: the claim cannot be recovered, though it is the only one. -/
theorem setClaimCalldataFromRoot_transfer :
    setClaimCalldataFromRoot byteABI toyKeccak claimEvent (claimTrace []) tracedBridge =
        some (.error (.find (.callback (.inputTooShort 0)))) ∧
      ∀ z, Recoverable byteABI toyKeccak claimEvent (claimTrace []) tracedBridge z ↔
        z = tracedClaim := by
  refine ⟨by decide +kernel, fun z => ?_⟩
  have hlive : (claimTrace []).live =
      [claimTrace [], .mk .call tracedBridge none [] [],
        .mk .call tracedBridge none (claimAssetEtrogMethodID ++ [6]) []] := rfl
  have hroot : ¬ (claimTrace []).AtBridge tracedBridge := by decide +kernel
  have htransfer : ¬ Carries byteABI toyKeccak claimEvent [] z := by
    rw [← tryDecodeClaimCalldata_eq_some_iff]
    exact fun h => nomatch h
  have hclaim : Carries byteABI toyKeccak claimEvent (claimAssetEtrogMethodID ++ [6]) z ↔
      tracedClaim = z := by
    have hdecoded : tryDecodeClaimCalldata byteABI toyKeccak claimEvent
        (claimAssetEtrogMethodID ++ [6]) = .ok (some tracedClaim) := by
      decide +kernel
    rw [← tryDecodeClaimCalldata_eq_some_iff, hdecoded, Except.ok.injEq, Option.some.injEq]
  have hat : (Call.mk .call tracedBridge none (claimAssetEtrogMethodID ++ [6]) []).AtBridge
      tracedBridge := ⟨rfl, rfl⟩
  simp only [Recoverable, hlive, mem_cons, not_mem_nil, or_false, exists_eq_or_imp,
    exists_eq_left, hroot, false_and, false_or, hat, true_and]
  simp only [Call.input, htransfer, and_false, false_or, hclaim, eq_comm]

end AggKit.ClaimSync
