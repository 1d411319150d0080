import AggKit.Common
import AggKit.Lib.Bytes

/-!
# Bridges and the events of the bridge contract

The rows of the tables of `bridgesync` and the events that `ProcessBlock` is given
(`bridgesync/processor.go`, `bridgesync/leaf_data.go`). An event has a field for each kind of
contract event; `Event.parts` lists the fields that are set, in the order in which `ProcessBlock`
looks at them.
-/

namespace AggKit.BridgeSync

/-- `BridgeSource`. -/
inductive BridgeSource where
  /-- The empty string: a bridge that was read from its own event. -/
  | none
  /-- `BridgeSourceBackwardLET` -/
  | backwardLET
  /-- `BridgeSourceForwardLET` -/
  | forwardLET
deriving DecidableEq

/-- `Bridge`, a row of the tables `bridge` and `bridge_archive`. `BlockHash` is not a column of
either. -/
structure Bridge (H : Type) where
  blockNum : ℕ
  blockPos : ℕ
  fromAddress : Option Address
  txHash : H
  blockTimestamp : ℕ
  leafType : UInt8
  originNetwork : UInt32
  originAddress : Address
  destinationNetwork : UInt32
  destinationAddress : Address
  amount : ℕ
  metadata : List UInt8
  depositCount : UInt32
  txnSender : Address
  source : BridgeSource
  toAddress : Address
deriving DecidableEq

/-- `TokenMapping`. -/
structure TokenMapping (H : Type) where
  blockNum : ℕ
  blockPos : ℕ
  blockTimestamp : ℕ
  txHash : H
  originNetwork : UInt32
  originTokenAddress : Address
  wrappedTokenAddress : Address
  metadata : List UInt8
  isNotMintable : Bool
  type : UInt8
deriving DecidableEq

/-- `LegacyTokenMigration`. -/
structure LegacyTokenMigration (H : Type) where
  blockNum : ℕ
  blockPos : ℕ
  blockTimestamp : ℕ
  txHash : H
  sender : Address
  legacyTokenAddress : Address
  updatedTokenAddress : Address
  amount : ℕ
deriving DecidableEq

/-- `RemoveLegacyToken`. -/
structure RemoveLegacyToken (H : Type) where
  blockNum : ℕ
  blockPos : ℕ
  blockTimestamp : ℕ
  txHash : H
  legacyTokenAddress : Address
deriving DecidableEq

/-- `BackwardLET`. -/
structure BackwardLET (H : Type) where
  blockNum : ℕ
  blockPos : ℕ
  previousDepositCount : ℕ
  previousRoot : H
  newDepositCount : ℕ
  newRoot : H
deriving DecidableEq

/-- `ForwardLET`. -/
structure ForwardLET (H : Type) where
  blockNum : ℕ
  blockPos : ℕ
  blockTimestamp : ℕ
  txnHash : H
  previousDepositCount : ℕ
  previousRoot : H
  newDepositCount : ℕ
  newRoot : H
  newLeaves : List UInt8
deriving DecidableEq

/-- `LeafData`, a leaf of a `ForwardLET` event. -/
structure LeafData where
  leafType : UInt8
  originNetwork : UInt32
  originAddress : Address
  destinationNetwork : UInt32
  destinationAddress : Address
  amount : ℕ
  metadata : List UInt8
deriving DecidableEq

variable {H : Type}

/-- `Bridge.Hash`. The amount of a contract event fits in 32 bytes, so `FillBytes` does. -/
def Bridge.hash (K : Keccak H) (b : Bridge H) : H :=
  K.sum ([b.leafType] ++ Bytes.bigEndian 4 b.originNetwork.toNat ++ b.originAddress.toList ++
    Bytes.bigEndian 4 b.destinationNetwork.toNat ++ b.destinationAddress.toList ++
    Bytes.bigEndian 32 b.amount ++ K.bytes (K.sum b.metadata))

/-- `LeafData.ToBridge`. -/
def LeafData.toBridge (l : LeafData) (blockNum blockPos blockTimestamp : ℕ) (depositCount : UInt32)
    (txnHash : H) (txnSender : Address) (fromAddr : Option Address) : Bridge H where
  blockNum := blockNum
  blockPos := blockPos
  blockTimestamp := blockTimestamp
  depositCount := depositCount
  txHash := txnHash
  fromAddress := fromAddr
  txnSender := txnSender
  leafType := l.leafType
  originNetwork := l.originNetwork
  originAddress := l.originAddress
  destinationNetwork := l.destinationNetwork
  destinationAddress := l.destinationAddress
  amount := l.amount
  metadata := l.metadata
  source := .forwardLET
  toAddress := ZeroAddress

/-- The condition of `getArchivedBridgesSQL`. -/
def LeafData.sameContent (l : LeafData) (b : Bridge H) : Bool :=
  b.leafType = l.leafType ∧ b.originNetwork = l.originNetwork ∧
    b.originAddress = l.originAddress ∧ b.destinationNetwork = l.destinationNetwork ∧
    b.destinationAddress = l.destinationAddress ∧ b.amount = l.amount ∧ b.metadata = l.metadata

/-- `Event`. -/
structure Event (H : Type) where
  bridge : Option (Bridge H) := none
  tokenMapping : Option (TokenMapping H) := none
  legacyTokenMigration : Option (LegacyTokenMigration H) := none
  removeLegacyToken : Option (RemoveLegacyToken H) := none
  backwardLET : Option (BackwardLET H) := none
  forwardLET : Option (ForwardLET H) := none

/-- A field of an event that is set. -/
inductive EventPart (H : Type) where
  | bridge (b : Bridge H)
  | tokenMapping (t : TokenMapping H)
  | legacyTokenMigration (m : LegacyTokenMigration H)
  | removeLegacyToken (r : RemoveLegacyToken H)
  | backwardLET (e : BackwardLET H)
  | forwardLET (e : ForwardLET H)

/-- The fields that are set, in the order of `ProcessBlock`. -/
def Event.parts (e : Event H) : List (EventPart H) :=
  (e.bridge.map .bridge).toList ++ (e.tokenMapping.map .tokenMapping).toList ++
    (e.legacyTokenMigration.map .legacyTokenMigration).toList ++
    (e.removeLegacyToken.map .removeLegacyToken).toList ++
    (e.backwardLET.map .backwardLET).toList ++ (e.forwardLET.map .forwardLET).toList

/-- `sync.Block`. -/
structure Block (H : Type) where
  num : ℕ
  hash : H
  events : List (Event H)

/-- What `ProcessBlock` handles in a block, in order. -/
def Block.parts (block : Block H) : List (EventPart H) := block.events.flatMap Event.parts

/-- The block an event says it is of. -/
def EventPart.blockNum : EventPart H → ℕ
  | .bridge b => b.blockNum
  | .tokenMapping t => t.blockNum
  | .legacyTokenMigration m => m.blockNum
  | .removeLegacyToken r => r.blockNum
  | .backwardLET e => e.blockNum
  | .forwardLET e => e.blockNum

/-- The primary key of the tables other than `bridge_archive`. -/
def Bridge.key (b : Bridge H) : ℕ × ℕ := (b.blockNum, b.blockPos)

@[inherit_doc Bridge.key]
def TokenMapping.key (t : TokenMapping H) : ℕ × ℕ := (t.blockNum, t.blockPos)

@[inherit_doc Bridge.key]
def LegacyTokenMigration.key (m : LegacyTokenMigration H) : ℕ × ℕ := (m.blockNum, m.blockPos)

@[inherit_doc Bridge.key]
def BackwardLET.key (e : BackwardLET H) : ℕ × ℕ := (e.blockNum, e.blockPos)

@[inherit_doc Bridge.key]
def ForwardLET.key (e : ForwardLET H) : ℕ × ℕ := (e.blockNum, e.blockPos)

end AggKit.BridgeSync
