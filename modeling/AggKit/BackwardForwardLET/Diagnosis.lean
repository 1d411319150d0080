import AggKit.BackwardForwardLET.Helpers
import AggKit.Lib.CommonPrefix

/-!
# The diagnosis, as in `tools/backward_forward_let/diagnosis.go`

`Diagnose` compares the settled leaves with those of L2. It walks the settled certificates from the
newest to the oldest and stops at the first one whose exits are all on L2 at their places; the leaves
of the certificates above it are divergent. What the nodes answer is given by `Env`.
-/

namespace AggKit.BackwardForwardLET

open Agglayer BridgeSync List

/-! ## The model -/

/-- `RecoveryCase`. -/
inductive RecoveryCase where
  | noDivergence
  | case1
  | case2
  | case3
  | case4
deriving DecidableEq

/-- `UndercollateralizedToken`. -/
structure UndercollateralizedToken where
  tokenOriginNetwork : UInt32
  tokenOriginAddress : Address
  amount : ℕ
deriving DecidableEq

/-- `MissingCertInfo`. -/
structure MissingCertInfo (H : Type) where
  height : ℕ
  certID : H
  certIDResolved : Bool
deriving DecidableEq

/-- `DiagnosisResult`. -/
structure DiagnosisResult (H : Type) where
  case : RecoveryCase
  l1SettledLER : H
  l1SettledDepositCount : ℕ
  l1SettledHeight : ℕ
  l1SettledCertificateID : H
  l2CurrentLER : H
  l2CurrentDepositCount : ℕ
  divergencePoint : ℕ
  extraL2Bridges : List LeafData
  divergentLeaves : List BridgeExit
  undercollateralization : List UndercollateralizedToken
  isEmergencyState : Bool
  aggsenderAPIFailed : Bool
  missingCerts : List (MissingCertInfo H)
  failedCertHeight : ℕ
  failedCertID : H
deriving DecidableEq

/-- `NetworkInfo` of the agglayer, as far as the tool reads it. -/
structure NetworkInfo (H : Type) where
  settledHeight : Option ℕ
  settledCertificateID : Option H
  settledLER : Option H
  settledLETLeafCount : Option ℕ
deriving DecidableEq

/-- What the nodes answer. -/
structure Env (H : Type) where
  /-- `GetNetworkInfo`; the error `NotFound` is `some none`. -/
  networkInfo : Option (Option (NetworkInfo H))
  /-- `GetCertificateBridgeExits` -/
  aggsenderRPC : ℕ → Option (List BridgeExit)
  /-- `BridgeExitsOverride.GetExits`, when there is an override. -/
  bridgeExitsOverride : Option (ℕ → Option (List BridgeExit))
  bridgeService : BridgeService
  /-- The bridge contract; each of its calls may fail. -/
  l2Bridge : L2Bridge H
  depositCountFails : Bool
  getRootFails : Bool
  isEmergencyStateFails : Bool

/-- The errors of `Diagnose`. -/
inductive DiagnoseError where
  /-- `get network info from agglayer` -/
  | networkInfo
  /-- `get L2 deposit count` -/
  | depositCount
  /-- `get L2 bridge root` -/
  | getRoot
  /-- `check L2 emergency state` -/
  | emergencyState
  /-- `collect extra L2 bridges: bridge service data not ready for recovery: …` -/
  | collectExtraL2Bridges (dc : ℕ) (err : ServiceError)
deriving DecidableEq

variable {H : Type} [DecidableEq H] (K : Keccak H) (env : Env H)

section

omit [DecidableEq H]

/-- `getBridgeExitsForHeight`; `none` is its error. -/
def getBridgeExitsForHeight (height : ℕ) : Option (List BridgeExit) :=
  match env.aggsenderRPC height with
  | some exits => some exits
  | none => env.bridgeExitsOverride.bind fun override => override height

/-- `checkCertExitsMatchL2`. -/
def checkCertExitsMatchL2 (service : BridgeService) : List BridgeExit → ℕ → Bool
  | [], _ => true
  | exit :: exits, dc =>
    match service dc with
    | .error _ => false
    | .ok br =>
      if bridgeExitLeafHash K exit ≠ bridgeResponseLeafHash K br then false
      else checkCertExitsMatchL2 service exits (dc + 1)

/-- The variables of `findDivergencePoint`. -/
structure Walk (H : Type) where
  dcEnd : ℕ
  divergentLeaves : List BridgeExit
  missing : List (MissingCertInfo H)
deriving DecidableEq

/-- An iteration of `findDivergencePoint` at height `h`: it returns the divergent leaves and the
divergence point, or goes on. `dcEnd` counts the leaves up to this certificate, so it is not less
than the number of its exits. -/
def visit (settledHeight : ℕ) (settledCertID : H) (h : ℕ) (w : Walk H) :
    (List BridgeExit × ℕ) ⊕ Walk H :=
  match getBridgeExitsForHeight env h with
  | none =>
    let certIDResolved := h = settledHeight ∧ settledCertID ≠ K.zero
    let certID := if certIDResolved then settledCertID else K.zero
    .inr { w with missing := w.missing ++ [⟨h, certID, certIDResolved⟩] }
  | some exits =>
    if exits.length = 0 then .inr w
    else
      let dcStart := w.dcEnd - exits.length
      let allMatch := checkCertExitsMatchL2 K env.bridgeService exits dcStart
      if allMatch && w.missing.isEmpty then .inl (w.divergentLeaves, w.dcEnd)
      else if !allMatch then
        .inr { w with divergentLeaves := exits ++ w.divergentLeaves, dcEnd := dcStart }
      else .inr w

/-- The loop of `findDivergencePoint`, from height `h` down. -/
def walk (settledHeight : ℕ) (settledCertID : H) : ℕ → Walk H → (List BridgeExit × ℕ) ⊕ Walk H
  | 0, w => visit K env settledHeight settledCertID 0 w
  | h + 1, w =>
    match visit K env settledHeight settledCertID (h + 1) w with
    | .inl found => .inl found
    | .inr w => walk settledHeight settledCertID h w

/-- `findDivergencePoint`: the divergent leaves, the divergence point and whether it was found. The
error lists the missing certificates. -/
def findDivergencePoint (settledHeight totalSettledLeaves : ℕ) (settledCertID : H) :
    Except (List (MissingCertInfo H)) (List BridgeExit × ℕ × Bool) :=
  match walk K env settledHeight settledCertID settledHeight ⟨totalSettledLeaves, [], []⟩ with
  | .inl (divergentLeaves, dcEnd) => .ok (divergentLeaves, dcEnd, true)
  | .inr w => if w.missing = [] then .ok (w.divergentLeaves, 0, false) else .error w.missing

/-- `classifyCase`. -/
def classifyCase (l2CurrentDC divergencePoint numDivergentLeaves : ℕ) : RecoveryCase :=
  let hasExtraL2 := divergencePoint < l2CurrentDC
  let multipleL1 := 1 < numDivergentLeaves
  if ¬hasExtraL2 ∧ ¬multipleL1 then .case1
  else if hasExtraL2 ∧ ¬multipleL1 then .case2
  else if ¬hasExtraL2 ∧ multipleL1 then .case3
  else .case4

/-- `collectExtraL2Bridges`. -/
def collectExtraL2Bridges (service : BridgeService) (startDC endDC : ℕ) :
    Except DiagnoseError (List LeafData) :=
  (List.range' startDC (endDC - startDC)).mapM fun dc =>
    match service dc with
    | .ok br => .ok (bridgeResponseToLeafData br)
    | .error err => .error (.collectExtraL2Bridges dc err)

/-- An iteration of `computeUndercollateralization`. -/
def addUndercollateralized (totals : List UndercollateralizedToken) (leaf : BridgeExit) :
    List UndercollateralizedToken :=
  let isToken (t : UndercollateralizedToken) : Bool :=
    t.tokenOriginNetwork = leaf.tokenInfo.originNetwork ∧
      t.tokenOriginAddress = leaf.tokenInfo.originTokenAddress
  if totals.any isToken then
    totals.map fun t => if isToken t then { t with amount := t.amount + leaf.amount.getD 0 } else t
  else
    totals ++ [⟨leaf.tokenInfo.originNetwork, leaf.tokenInfo.originTokenAddress,
      leaf.amount.getD 0⟩]

/-- `computeUndercollateralization`. -/
def computeUndercollateralization (leaves : List BridgeExit) : List UndercollateralizedToken :=
  leaves.foldl addUndercollateralized []

/-- The result with which `Diagnose` begins. -/
def DiagnosisResult.initial : DiagnosisResult H where
  case := .noDivergence
  l1SettledLER := K.zero
  l1SettledDepositCount := 0
  l1SettledHeight := 0
  l1SettledCertificateID := K.zero
  l2CurrentLER := K.zero
  l2CurrentDepositCount := 0
  divergencePoint := 0
  extraL2Bridges := []
  divergentLeaves := []
  undercollateralization := []
  isEmergencyState := false
  aggsenderAPIFailed := false
  missingCerts := []
  failedCertHeight := 0
  failedCertID := K.zero

/-- Steps 1 and 2 of `Diagnose`: the settled state and the state of the contract. -/
def queryStates (info : NetworkInfo H) (settledHeight : ℕ) :
    Except DiagnoseError (DiagnosisResult H) :=
  if env.depositCountFails then .error .depositCount
  else if env.getRootFails then .error .getRoot
  else if env.isEmergencyStateFails then .error .emergencyState
  else .ok { DiagnosisResult.initial K with
    l1SettledHeight := settledHeight
    l1SettledCertificateID := info.settledCertificateID.getD K.zero
    l1SettledLER := info.settledLER.getD K.zero
    l1SettledDepositCount := info.settledLETLeafCount.getD 0
    l2CurrentDepositCount := env.l2Bridge.depositCount
    l2CurrentLER := env.l2Bridge.getRoot K
    isEmergencyState := env.l2Bridge.emergency }

end

/-- Steps 5 to 7 of `Diagnose`, for the divergence that was found. -/
def planRecovery (result : DiagnosisResult H) (divergentLeaves : List BridgeExit)
    (divergencePoint : ℕ) : Except DiagnoseError (DiagnosisResult H) := do
  let case := classifyCase result.l2CurrentDepositCount divergencePoint divergentLeaves.length
  let extraL2Bridges ← if case = .case2 ∨ case = .case4 then
      collectExtraL2Bridges env.bridgeService divergencePoint result.l2CurrentDepositCount
    else .ok []
  return { result with
    case := case
    divergentLeaves := divergentLeaves
    divergencePoint := divergencePoint
    extraL2Bridges := extraL2Bridges
    undercollateralization := computeUndercollateralization divergentLeaves }

/-- Steps 3 to 7 of `Diagnose`. -/
def compareStates (result : DiagnosisResult H) : Except DiagnoseError (DiagnosisResult H) :=
  if result.l2CurrentLER = result.l1SettledLER ∧
      result.l2CurrentDepositCount = result.l1SettledDepositCount then .ok result
  else
    match findDivergencePoint K env result.l1SettledHeight result.l1SettledDepositCount
        result.l1SettledCertificateID with
    | .error missing => .ok { result with
        aggsenderAPIFailed := true
        missingCerts := missing
        failedCertHeight := (missing.head?.map MissingCertInfo.height).getD 0
        failedCertID := (missing.head?.map MissingCertInfo.certID).getD K.zero }
    | .ok (divergentLeaves, divPoint, divFound) =>
      planRecovery env result divergentLeaves (if divFound then divPoint else 0)

/-- `Diagnose`. -/
def diagnose : Except DiagnoseError (DiagnosisResult H) :=
  match env.networkInfo with
  | none => .error .networkInfo
  | some none => .ok (DiagnosisResult.initial K)
  | some (some info) =>
    match info.settledHeight with
    | none => .ok (DiagnosisResult.initial K)
    | some settledHeight => do
      let result ← queryStates K env info settledHeight
      compareStates K env result

/-! ## What is found -/

/-- The nodes answer, and answer with these settled certificates and these bridges of L2. -/
structure Env.Describes (certs : List (List BridgeExit)) (bridges : List BridgeResponse) : Prop where
  settled : certs ≠ [] → ∃ info, env.networkInfo = some (some info) ∧
    info.settledHeight = some (certs.length - 1) ∧
    info.settledLER = some (Merkle.root K.pair K.zero 32 (certs.flatten.map (bridgeExitLeafHash K))) ∧
    info.settledLETLeafCount = some certs.flatten.length
  unsettled : certs = [] → env.networkInfo = some none ∨
    ∃ info, env.networkInfo = some (some info) ∧ info.settledHeight = none
  exits : ∀ h < certs.length, getBridgeExitsForHeight env h = certs[h]?
  bridge : ∀ dc br, bridges[dc]? = some br → env.bridgeService dc = .ok br
  noBridge : ∀ dc, bridges[dc]? = none → ∃ err, env.bridgeService dc = .error err
  leaves : env.l2Bridge.leaves = bridges.map (bridgeResponseLeafHash K)
  depositCount : env.depositCountFails = false
  getRoot : env.getRootFails = false
  isEmergencyState : env.isEmergencyStateFails = false

omit [DecidableEq H] in
/-- Nodes from which everything can be fetched. -/
def Env.answering (certs : List (List BridgeExit)) (bridges : List BridgeResponse)
    (emergency : Bool) : Env H where
  networkInfo := some (some {
    settledHeight := if certs = [] then none else some (certs.length - 1)
    settledCertificateID := none
    settledLER := some (Merkle.root K.pair K.zero 32 (certs.flatten.map (bridgeExitLeafHash K)))
    settledLETLeafCount := some certs.flatten.length })
  aggsenderRPC h := certs[h]?
  bridgeExitsOverride := none
  bridgeService dc := match bridges[dc]? with
    | some br => .ok br
    | none => .error .notFound
  l2Bridge := ⟨bridges.map (bridgeResponseLeafHash K), emergency⟩
  depositCountFails := false
  getRootFails := false
  isEmergencyStateFails := false

omit [DecidableEq H] in
theorem Env.answering_describes (certs : List (List BridgeExit)) (bridges : List BridgeResponse)
    (emergency : Bool) : (Env.answering K certs bridges emergency).Describes K certs bridges where
  settled hne := ⟨_, rfl, if_neg hne, rfl, rfl⟩
  unsettled hempty := Or.inr ⟨_, rfl, if_pos hempty⟩
  exits h hh := by simp [getBridgeExitsForHeight, Env.answering, hh]
  bridge dc br hbr := by simp [Env.answering, hbr]
  noBridge dc hbr := ⟨.notFound, by simp [Env.answering, hbr]⟩
  leaves := rfl
  depositCount := rfl
  getRoot := rfl
  isEmergencyState := rfl

/-- The roots and the counts that `Diagnose` compares. -/
def InSync (certs : List (List BridgeExit)) (l2Leaves : List H) : Prop :=
  Merkle.root K.pair K.zero 32 l2Leaves =
      Merkle.root K.pair K.zero 32 (certs.flatten.map (bridgeExitLeafHash K)) ∧
    l2Leaves.length = certs.flatten.length

/-- No certificate with exits has them on L2 at their places, the first of them at place `i`. -/
def NoneMatches (leaves : List H) : ℕ → List (List BridgeExit) → Prop
  | _, [] => True
  | i, c :: certs =>
    (c ≠ [] → ¬c.map (bridgeExitLeafHash K) <+: leaves.drop i) ∧
      NoneMatches leaves (i + c.length) certs

/-- How the walk splits the certificates: the last of the first part is on L2 at its place, and none
of the second part is. -/
structure Splits (leaves : List H) (certs matched unmatched : List (List BridgeExit)) : Prop where
  eq : certs = matched ++ unmatched
  unmatched : NoneMatches K leaves matched.flatten.length unmatched
  matched : matched = [] ∨ ∃ front c, matched = front ++ [c] ∧ c ≠ [] ∧
    c.map (bridgeExitLeafHash K) <+: leaves.drop front.flatten.length

section found

variable {K env} {certs : List (List BridgeExit)} {bridges : List BridgeResponse} {leaves : List H}

omit [DecidableEq H] in
theorem NoneMatches.append_iff {i : ℕ} {a b : List (List BridgeExit)} :
    NoneMatches K leaves i (a ++ b) ↔
      NoneMatches K leaves i a ∧ NoneMatches K leaves (i + a.flatten.length) b := by
  induction a generalizing i with
  | nil => simp [NoneMatches]
  | cons c a ih =>
    rw [cons_append, NoneMatches, NoneMatches, ih, flatten_cons, length_append,
      and_assoc, Nat.add_assoc]

theorem checkCertExitsMatchL2_iff (henv : env.Describes K certs bridges) (exits : List BridgeExit)
    (dc : ℕ) : checkCertExitsMatchL2 K env.bridgeService exits dc = true ↔
      exits.map (bridgeExitLeafHash K) <+: env.l2Bridge.leaves.drop dc := by
  induction exits generalizing dc with
  | nil => simp [checkCertExitsMatchL2]
  | cons exit exits ih =>
    rw [henv.leaves] at ih ⊢
    cases hbr : bridges[dc]? with
    | none =>
      -- Beyond the last bridge nothing matches.
      obtain ⟨err, herr⟩ := henv.noBridge dc hbr
      have hdrop : (bridges.map (bridgeResponseLeafHash K)).drop dc = [] := by
        rw [drop_eq_nil_iff, length_map]
        exact List.getElem?_eq_none_iff.mp hbr
      rw [checkCertExitsMatchL2, herr, hdrop]
      simp
    | some br =>
      have hdrop : (bridges.map (bridgeResponseLeafHash K)).drop dc =
          bridgeResponseLeafHash K br :: (bridges.map (bridgeResponseLeafHash K)).drop (dc + 1) := by
        obtain ⟨hlt, hget⟩ := List.getElem?_eq_some_iff.mp hbr
        rw [drop_eq_getElem_cons (by rwa [length_map]), getElem_map, hget]
      rw [checkCertExitsMatchL2, henv.bridge dc br hbr, hdrop, map_cons, cons_prefix_cons]
      by_cases heq : bridgeExitLeafHash K exit = bridgeResponseLeafHash K br
      · simp [heq, ih (dc + 1)]
      · simp [heq]

/-- An iteration at a certificate that was fetched, with nothing missing so far. -/
theorem visit_spec (henv : env.Describes K certs bridges) (settledHeight h : ℕ) (settledCertID : H)
    (front : List (List BridgeExit)) {post : List (List BridgeExit)} {c : List BridgeExit}
    {w : Walk H} (hcerts : certs = front ++ c :: post) (hh : front.length = h) (hmissing : w.missing = [])
    (hdcEnd : w.dcEnd = front.flatten.length + c.length) :
    (c ≠ [] ∧ c.map (bridgeExitLeafHash K) <+: env.l2Bridge.leaves.drop front.flatten.length ∧
      visit K env settledHeight settledCertID h w = .inl (w.divergentLeaves, w.dcEnd)) ∨
    ((c ≠ [] → ¬c.map (bridgeExitLeafHash K) <+: env.l2Bridge.leaves.drop front.flatten.length) ∧
      visit K env settledHeight settledCertID h w =
        .inr ⟨front.flatten.length, c ++ w.divergentLeaves, []⟩) := by
  have hexits : getBridgeExitsForHeight env h = some c := by
    rw [henv.exits h (by rw [hcerts, length_append, length_cons]; omega), hcerts,
      getElem?_append_right (by omega)]
    simp [hh]
  have hstart : w.dcEnd - c.length = front.flatten.length := by omega
  have hmatch := checkCertExitsMatchL2_iff henv c front.flatten.length
  unfold visit
  rw [hexits]
  simp only [hstart, hmissing]
  by_cases hempty : c = []
  · -- An empty certificate is skipped.
    cases w
    simp_all
  · have hlength : ¬c.length = 0 := fun hzero => hempty (length_eq_zero_iff.mp hzero)
    rw [if_neg hlength]
    by_cases hall : checkCertExitsMatchL2 K env.bridgeService c front.flatten.length = true
    · exact Or.inl ⟨hempty, hmatch.mp hall, by simp [hall, -length_flatten]⟩
    · exact Or.inr ⟨fun _ hplace => hall (hmatch.mpr hplace), by simp [hall, -length_flatten]⟩

omit [DecidableEq H] in
/-- What the certificate of a visit that goes on adds to a split. -/
theorem Splits.concat {front matched unmatched : List (List BridgeExit)} {c : List BridgeExit}
    (h : Splits K leaves front matched unmatched)
    (hc : c ≠ [] → ¬c.map (bridgeExitLeafHash K) <+: leaves.drop front.flatten.length) :
    Splits K leaves (front ++ [c]) matched (unmatched ++ [c]) := by
  have hlength : matched.flatten.length + unmatched.flatten.length = front.flatten.length := by
    rw [h.eq, flatten_append, length_append]
  refine ⟨by rw [h.eq, append_assoc], ?_, h.matched⟩
  rw [NoneMatches.append_iff, hlength]
  exact ⟨h.unmatched, hc, trivial⟩

/-- The walk finds a split of the certificates it visits, and leaves the leaves of the second part in
front of what it began with. -/
theorem walk_spec (henv : env.Describes K certs bridges) (settledHeight : ℕ) (settledCertID : H)
    {h : ℕ} {pre post : List (List BridgeExit)} (w : Walk H) (hcerts : certs = pre ++ post)
    (hh : pre.length = h + 1) (hmissing : w.missing = []) (hdcEnd : w.dcEnd = pre.flatten.length) :
    ∃ matched unmatched, Splits K env.l2Bridge.leaves pre matched unmatched ∧
      (walk K env settledHeight settledCertID h w =
          .inl (unmatched.flatten ++ w.divergentLeaves, matched.flatten.length) ∨
        matched = [] ∧ walk K env settledHeight settledCertID h w =
          .inr ⟨0, unmatched.flatten ++ w.divergentLeaves, []⟩) := by
  induction h generalizing pre post w with
  | zero =>
    obtain ⟨c, rfl⟩ := length_eq_one_iff.mp hh
    have hvisit := visit_spec henv settledHeight 0 settledCertID [] hcerts rfl hmissing
      (by simpa using hdcEnd)
    rcases hvisit with ⟨hne, hplace, hwalk⟩ | ⟨hno, hwalk⟩
    · exact ⟨[c], [], ⟨rfl, trivial, Or.inr ⟨[], c, rfl, hne, hplace⟩⟩,
        Or.inl (by rw [walk, hwalk, hdcEnd]; rfl)⟩
    · exact ⟨[], [c], ⟨rfl, ⟨hno, trivial⟩, Or.inl rfl⟩,
        Or.inr ⟨rfl, by rw [walk, hwalk]; simp⟩⟩
  | succ h ih =>
    obtain ⟨front, c, rfl⟩ : ∃ front c, pre = front ++ [c] :=
      ⟨pre.dropLast, pre.getLast (by rintro rfl; cases hh), (dropLast_append_getLast _).symm⟩
    have hfront : front.length = h + 1 := by simpa using hh
    have hcut : certs = front ++ c :: post := by rw [hcerts, append_assoc, singleton_append]
    have hflat : (front ++ [c]).flatten.length = front.flatten.length + c.length := by
      rw [flatten_append, length_append, flatten_singleton]
    have hvisit := visit_spec henv settledHeight (h + 1) settledCertID front hcut hfront hmissing
      (hdcEnd.trans hflat)
    rcases hvisit with ⟨hne, hplace, hwalk⟩ | ⟨hno, hwalk⟩
    · exact ⟨front ++ [c], [], ⟨(append_nil _).symm, trivial, Or.inr ⟨front, c, rfl, hne, hplace⟩⟩,
        Or.inl (by rw [walk, hwalk, hdcEnd]; rfl)⟩
    · -- The walk goes on below, and this certificate comes after what it finds there.
      obtain ⟨matched, unmatched, hsplits, hbelow⟩ :=
        ih ⟨front.flatten.length, c ++ w.divergentLeaves, []⟩ hcut hfront rfl rfl
      have hleaves : unmatched.flatten ++ (c ++ w.divergentLeaves) =
          (unmatched ++ [c]).flatten ++ w.divergentLeaves := by
        rw [flatten_append, flatten_singleton, append_assoc]
      refine ⟨matched, unmatched ++ [c], hsplits.concat hno, ?_⟩
      rw [walk, hwalk, ← hleaves]
      exact hbelow

/-- `findDivergencePoint` finds such a split of all the certificates. -/
theorem findDivergencePoint_spec (henv : env.Describes K certs bridges) (hne : certs ≠ [])
    (settledCertID : H) :
    ∃ matched unmatched divPoint divFound, Splits K env.l2Bridge.leaves certs matched unmatched ∧
      findDivergencePoint K env (certs.length - 1) certs.flatten.length settledCertID =
        .ok (unmatched.flatten, divPoint, divFound) ∧
      (if divFound then divPoint else 0) = matched.flatten.length := by
  have hlength : certs.length = certs.length - 1 + 1 := by
    have := length_pos_iff.mpr hne
    omega
  obtain ⟨matched, unmatched, hsplits, hwalk⟩ :=
    walk_spec henv (certs.length - 1) settledCertID ⟨certs.flatten.length, [], []⟩
      (append_nil certs).symm hlength rfl rfl
  rw [append_nil] at hwalk
  unfold findDivergencePoint
  rcases hwalk with hwalk | ⟨hempty, hwalk⟩
  · exact ⟨matched, unmatched, matched.flatten.length, true, hsplits, by rw [hwalk], rfl⟩
  · exact ⟨matched, unmatched, 0, false, hsplits, by rw [hwalk]; rfl, by rw [hempty]; rfl⟩

theorem classifyCase_ne_noDivergence (l2CurrentDC divergencePoint n : ℕ) :
    classifyCase l2CurrentDC divergencePoint n ≠ .noDivergence := by
  unfold classifyCase
  by_cases hextra : divergencePoint < l2CurrentDC <;> by_cases hmultiple : 1 < n <;>
    simp [hextra, hmultiple]

/-- The contract is rolled back exactly if it has leaves after the divergence point. -/
theorem classifyCase_backward_iff (l2CurrentDC divergencePoint n : ℕ) :
    (classifyCase l2CurrentDC divergencePoint n = .case2 ∨
      classifyCase l2CurrentDC divergencePoint n = .case4) ↔ divergencePoint < l2CurrentDC := by
  unfold classifyCase
  by_cases hextra : divergencePoint < l2CurrentDC <;> by_cases hmultiple : 1 < n <;>
    simp [hextra, hmultiple]

omit [DecidableEq H] in
theorem collectExtraL2Bridges_spec (henv : env.Describes K certs bridges) (startDC : ℕ) :
    collectExtraL2Bridges env.bridgeService startDC bridges.length =
      .ok ((bridges.drop startDC).map bridgeResponseToLeafData) := by
  unfold collectExtraL2Bridges
  rw [Exec.mapM_eq_ok_iff, List.forall₂_iff_get]
  refine ⟨by simp, fun i hi hi' => ?_⟩
  have hlt : startDC + i < bridges.length := by
    rw [length_range'] at hi
    omega
  simp [henv.bridge (startDC + i) bridges[startDC + i] (getElem?_eq_getElem hlt)]

/-- What a diagnosis says of the divergence: where it is, what has to be inserted there and what
has to be inserted again after it. -/
structure DiagnosisResult.Reports (d : DiagnosisResult H) (env : Env H)
    (bridges : List BridgeResponse) (point : ℕ) (divergent : List BridgeExit) : Prop where
  case : d.case ≠ .noDivergence
  backward : (d.case = .case2 ∨ d.case = .case4) ↔ point < bridges.length
  divergencePoint : d.divergencePoint = point
  divergentLeaves : d.divergentLeaves = divergent
  extraL2Bridges : d.extraL2Bridges = (bridges.drop point).map bridgeResponseToLeafData
  l2CurrentDepositCount : d.l2CurrentDepositCount = bridges.length
  isEmergencyState : d.isEmergencyState = env.l2Bridge.emergency
  aggsenderAPIFailed : d.aggsenderAPIFailed = false

omit [DecidableEq H] in
theorem planRecovery_spec (henv : env.Describes K certs bridges) (result : DiagnosisResult H)
    (divergent : List BridgeExit) (divergencePoint : ℕ)
    (hcount : result.l2CurrentDepositCount = bridges.length)
    (hemergency : result.isEmergencyState = env.l2Bridge.emergency)
    (hapi : result.aggsenderAPIFailed = false) :
    ∃ d, planRecovery env result divergent divergencePoint = .ok d ∧
      d.Reports env bridges divergencePoint divergent := by
  have hbackward := classifyCase_backward_iff bridges.length divergencePoint divergent.length
  unfold planRecovery
  simp only [hcount]
  by_cases hextra : divergencePoint < bridges.length
  · rw [if_pos (hbackward.mpr hextra), collectExtraL2Bridges_spec henv]
    exact ⟨_, rfl, ⟨classifyCase_ne_noDivergence _ _ _, hbackward, rfl, rfl, rfl, rfl, hemergency,
      hapi⟩⟩
  · have hnone : bridges.drop divergencePoint = [] :=
      drop_eq_nil_of_le (Nat.le_of_not_lt hextra)
    rw [if_neg (mt hbackward.mp hextra)]
    exact ⟨_, rfl, ⟨classifyCase_ne_noDivergence _ _ _, hbackward, rfl, rfl,
      by rw [hnone, map_nil], rfl, hemergency, hapi⟩⟩

theorem diagnose_noDivergence (henv : env.Describes K certs bridges)
    (h : certs = [] ∨ InSync K certs env.l2Bridge.leaves) :
    ∃ d, diagnose K env = .ok d ∧ d.case = .noDivergence ∧ d.aggsenderAPIFailed = false := by
  by_cases hne : certs = []
  · -- Nothing is settled.
    refine ⟨DiagnosisResult.initial K, ?_, rfl, rfl⟩
    unfold diagnose
    rcases henv.unsettled hne with hinfo | ⟨info, hinfo, hheight⟩
    · rw [hinfo]
    · rw [hinfo]
      simp only [hheight]
  · obtain ⟨hroot, hcount⟩ := h.resolve_left hne
    obtain ⟨info, hinfo, hheight, hler, hleaves⟩ := henv.settled hne
    unfold diagnose
    rw [hinfo]
    simp only [hheight, queryStates, henv.depositCount, henv.getRoot, henv.isEmergencyState,
      Bool.false_eq_true, if_false, Exec.except_ok_bind, compareStates, hler, hleaves,
      Option.getD_some, L2Bridge.getRoot, L2Bridge.depositCount, hroot, hcount, and_self, if_true]
    exact ⟨_, rfl, rfl, rfl⟩

/-- Where the two differ, the diagnosis reports the divergence that a split has. -/
theorem diagnose_diverged (henv : env.Describes K certs bridges) (hne : certs ≠ [])
    (hsync : ¬InSync K certs env.l2Bridge.leaves) :
    ∃ matched unmatched d, Splits K env.l2Bridge.leaves certs matched unmatched ∧
      diagnose K env = .ok d ∧
      d.Reports env bridges matched.flatten.length unmatched.flatten := by
  obtain ⟨info, hinfo, hheight, hler, hleaves⟩ := henv.settled hne
  obtain ⟨matched, unmatched, divPoint, divFound, hsplits, hfind, hpoint⟩ :=
    findDivergencePoint_spec henv hne (info.settledCertificateID.getD K.zero)
  have hcount : env.l2Bridge.depositCount = bridges.length := by
    rw [L2Bridge.depositCount, henv.leaves, length_map]
  obtain ⟨d, hplan, hreports⟩ :=
    planRecovery_spec henv { DiagnosisResult.initial K with
      l1SettledHeight := certs.length - 1
      l1SettledCertificateID := info.settledCertificateID.getD K.zero
      l1SettledLER := info.settledLER.getD K.zero
      l1SettledDepositCount := info.settledLETLeafCount.getD 0
      l2CurrentDepositCount := env.l2Bridge.depositCount
      l2CurrentLER := env.l2Bridge.getRoot K
      isEmergencyState := env.l2Bridge.emergency }
      unmatched.flatten matched.flatten.length hcount rfl rfl
  refine ⟨matched, unmatched, d, hsplits, ?_, hreports⟩
  unfold diagnose
  rw [hinfo]
  simp only [hheight, queryStates, henv.depositCount, henv.getRoot, henv.isEmergencyState,
    Bool.false_eq_true, if_false, Exec.except_ok_bind, compareStates]
  rw [if_neg (by simpa only [InSync, hler, hleaves, Option.getD_some, L2Bridge.getRoot,
    L2Bridge.depositCount] using hsync)]
  simp only [hleaves, Option.getD_some, hfind, hpoint]
  simpa only [hleaves, Option.getD_some] using hplan

end found

end AggKit.BackwardForwardLET
