import AggKit.ClaimSync.Storage

/-!
# The calldata of a claim, as in `claimsync/downloader.go`

A claim event has neither the proofs nor the exit roots of the claim. They are recovered from the
trace of the transaction: `findCall` walks the tree of calls with a stack, skips what was reverted, and
hands every call to the bridge to a callback. The callback of `setClaimCalldataFromRoot` decodes the
input of the call and collects the claims with the global index of the event, each distinct one once.

The decoder of `go-ethereum/accounts/abi` is a parameter. A call is unpacked by the inputs of its
method, which are the same for assets and messages.
-/

namespace AggKit.ClaimSync

/-- The types of frames of the `callTracer`. -/
inductive CallType where
  /-- `CallTypeCall` -/
  | call
  /-- `CallTypeDelegateCall` -/
  | delegateCall
  /-- `CallTypeStaticCall` -/
  | staticCall
  /-- `CallTypeCallCode` -/
  | callCode
  /-- `CallTypeCreate` -/
  | create
  /-- `CallTypeCreate2` -/
  | create2
  /-- `CallTypeSelfDestruct` -/
  | selfDestruct
deriving DecidableEq

/-- `Call`. Sender and value are for the log only. -/
inductive Call where
  | mk (type : CallType) (toAddr : Address) (err : Option String) (input : List UInt8)
    (calls : List Call)

namespace Call

def type : Call → CallType
  | mk type _ _ _ _ => type

def toAddr : Call → Address
  | mk _ toAddr _ _ _ => toAddr

def err : Call → Option String
  | mk _ _ err _ _ => err

def input : Call → List UInt8
  | mk _ _ _ input _ => input

def calls : Call → List Call
  | mk _ _ _ _ calls => calls

mutual

/-- The number of calls of a trace. -/
def size : Call → ℕ
  | mk _ _ _ _ calls => sizes calls + 1

/-- The number of calls of several traces. -/
def sizes : List Call → ℕ
  | [] => 0
  | c :: cs => c.size + sizes cs

end

end Call

/-! ## `findCall` -/

section findCall

variable {σ ε : Type}

/-- The loop of `findCall` over the stack, its top first; `none` when the fuel runs out. -/
def findCallLoop (visit : Call → σ → Except ε σ) : ℕ → List Call → σ → Option (Except ε σ)
  | _, [], s => some (.ok s)
  | 0, _ :: _, _ => none
  | fuel + 1, currentCall :: callStack, s =>
    -- skip reverted calls
    if currentCall.err.isSome then findCallLoop visit fuel callStack s
    else
      match visit currentCall s with
      | .error err => some (.error err)
      | .ok s' =>
        findCallLoop visit fuel
          ((currentCall.calls.filter fun c => c.err.isNone).reverse ++ callStack) s'

/-- What `findCall` does with a call that was not reverted: a call to the target goes to the callback,
and is kept if the callback says so. -/
def visitCall (targetAddr : Address) (callback : Call → σ → Except ε (Bool × σ))
    (currentCall : Call) (st : List Call × σ) : Except ε (List Call × σ) :=
  if currentCall.toAddr = targetAddr ∧ currentCall.type = .call then
    match callback currentCall st.2 with
    | .error err => .error err
    | .ok (found, s) => .ok (if found then st.1 ++ [currentCall] else st.1, s)
  else .ok st

/-- The errors of `findCall`. -/
inductive FindError (ε : Type) where
  /-- An error of the callback. -/
  | callback (err : ε)
  /-- `db.ErrNotFound` -/
  | notFound
deriving DecidableEq

/-- `findCall`, with the state of its callback. -/
def findCall (rootCall : Call) (targetAddr : Address) (callback : Call → σ → Except ε (Bool × σ))
    (s : σ) : Option (Except (FindError ε) (List Call × σ)) :=
  (findCallLoop (visitCall targetAddr callback) rootCall.size [rootCall] ([], s)).map fun
    | .error err => .error (.callback err)
    | .ok (matchingCalls, s') =>
      if matchingCalls.isEmpty then .error .notFound else .ok (matchingCalls, s')

end findCall

/-! ## Decoding -/

/-- The inputs of `claimAsset` and `claimMessage` of the Etrog bridge. -/
structure EtrogInputs (H : Type) where
  smtProofLocalExitRoot : Vector H 32
  smtProofRollupExitRoot : Vector H 32
  globalIndex : ℕ
  mainnetExitRoot : H
  rollupExitRoot : H
  originNetwork : UInt32
  originAddress : Address
  destinationNetwork : UInt32
  destinationAddress : Address
  amount : ℕ
  metadata : List UInt8
deriving DecidableEq

/-- The inputs of `claimAsset` and `claimMessage` before Etrog. -/
structure PreEtrogInputs (H : Type) where
  smtProof : Vector H 32
  index : UInt32
  mainnetExitRoot : H
  rollupExitRoot : H
  originNetwork : UInt32
  originTokenAddress : Address
  destinationNetwork : UInt32
  destinationAddress : Address
  amount : ℕ
  metadata : List UInt8
deriving DecidableEq

/-- `Inputs.Unpack` of the methods of the two bridges; `none` is an error. -/
structure BridgeABI (H : Type) where
  unpackEtrog : List UInt8 → Option (EtrogInputs H)
  unpackPreEtrog : List UInt8 → Option (PreEtrogInputs H)

def claimAssetEtrogMethodID : List UInt8 := [0xcc, 0xaa, 0x2d, 0x11]

def claimMessageEtrogMethodID : List UInt8 := [0xf5, 0xef, 0xcd, 0x79]

def claimAssetPreEtrogMethodID : List UInt8 := [0x2c, 0xff, 0xd0, 0x2e]

def claimMessagePreEtrogMethodID : List UInt8 := [0x2d, 0x2c, 0x9d, 0x94]

/-- `methodIDLength`. -/
def methodIDLength : ℕ := 4

variable {H : Type}

/-- `DecodeEtrogCalldata`; `none` when it is not the claim looked for. -/
def Claim.decodeEtrogCalldata (K : Keccak H) (c : Claim H) (data : EtrogInputs H) :
    Option (Claim H) :=
  if data.globalIndex ≠ c.globalIndex then none
  else some { c with
    proofLocalExitRoot := data.smtProofLocalExitRoot
    proofRollupExitRoot := data.smtProofRollupExitRoot
    mainnetExitRoot := data.mainnetExitRoot
    rollupExitRoot := data.rollupExitRoot
    destinationNetwork := data.destinationNetwork
    metadata := data.metadata
    globalExitRoot := K.pair data.mainnetExitRoot data.rollupExitRoot }

/-- `DecodePreEtrogCalldata`: there is no proof to a rollup exit root. -/
def Claim.decodePreEtrogCalldata (K : Keccak H) (c : Claim H) (data : PreEtrogInputs H) :
    Option (Claim H) :=
  if data.index.toNat ≠ c.globalIndex then none
  else some { c with
    proofLocalExitRoot := data.smtProof
    mainnetExitRoot := data.mainnetExitRoot
    rollupExitRoot := data.rollupExitRoot
    destinationNetwork := data.destinationNetwork
    metadata := data.metadata
    globalExitRoot := K.pair data.mainnetExitRoot data.rollupExitRoot }

/-- The errors of `tryDecodeClaimCalldata`. -/
inductive DecodeError where
  /-- `input too short: %d bytes` -/
  | inputTooShort (length : ℕ)
  /-- An error of `Unpack`. -/
  | unpack
deriving DecidableEq

/-- `tryDecodeClaimCalldata`: the claim with the data of the call, `none` when the call is not a claim
or one of another global index. -/
def tryDecodeClaimCalldata (abi : BridgeABI H) (K : Keccak H) (c : Claim H) (input : List UInt8) :
    Except DecodeError (Option (Claim H)) :=
  if input.length < methodIDLength then .error (.inputTooShort input.length)
  else
    let methodID := input.take methodIDLength
    if methodID = claimAssetEtrogMethodID ∨ methodID = claimMessageEtrogMethodID then
      match abi.unpackEtrog (input.drop methodIDLength) with
      | none => .error .unpack
      | some data => .ok ((c.decodeEtrogCalldata K data).map fun claim =>
          { claim with isMessage := methodID = claimMessageEtrogMethodID })
    else if methodID = claimAssetPreEtrogMethodID ∨ methodID = claimMessagePreEtrogMethodID then
      match abi.unpackPreEtrog (input.drop methodIDLength) with
      | none => .error .unpack
      | some data => .ok ((c.decodePreEtrogCalldata K data).map fun claim =>
          { claim with isMessage := methodID = claimMessagePreEtrogMethodID })
    else .ok none

/-! ## `setClaimCalldataFromRoot` -/

variable [DecidableEq H]

/-- The callback of `setClaimCalldataFromRoot` on the candidates so far. -/
def collectCandidate (abi : BridgeABI H) (K : Keccak H) (c : Claim H) (call : Call)
    (candidates : List (Claim H)) : Except DecodeError (Bool × List (Claim H)) :=
  if call.err.isSome then .ok (false, candidates)
  else
    match tryDecodeClaimCalldata abi K c call.input with
    | .error err => .error err
    | .ok none => .ok (false, candidates)
    | .ok (some candidate) =>
      .ok (true, if candidate ∈ candidates then candidates else candidates ++ [candidate])

/-- The errors of `setClaimCalldataFromRoot`. -/
inductive CalldataError where
  | find (err : FindError DecodeError)
  /-- `ambiguous claim calldata for globalIndex %s: found %d matching bridge calls` -/
  | ambiguous (globalIndex count : ℕ)
deriving DecidableEq

/-- `setClaimCalldataFromRoot`: the claim with its calldata. -/
def setClaimCalldataFromRoot (abi : BridgeABI H) (K : Keccak H) (c : Claim H) (rootCall : Call)
    (bridge : Address) : Option (Except CalldataError (Claim H)) :=
  (findCall rootCall bridge (collectCandidate abi K c) []).map fun
    | .error err => .error (.find err)
    | .ok (_, candidates) =>
      match candidates with
      | [candidate] => .ok candidate
      | _ => .error (.ambiguous c.globalIndex candidates.length)

end AggKit.ClaimSync
