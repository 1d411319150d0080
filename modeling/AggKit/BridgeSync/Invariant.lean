import AggKit.BridgeSync.Restore

/-!
# Runs of the processor

The calls are `ProcessBlock` and `Reorg`. In a run whose calls return no error the bridge table and
the exit tree stay in step (`Consistent`) as long as every call meets a condition on the database it
finds: a block is of a later number than the bridges stored and its events are in order, and the
bridges that a reorg brings back continue those that it leaves.

Neither condition is checked by the code. The exit tree accepts a leaf at the index it remembers
(see `Tree.stale_index_accepted`), and a reorg restores every archived bridge of an earlier block in
the interval of a deleted `BackwardLET`, also one that another `BackwardLET` had archived. The run in
`restored_bridge_out_of_place` has only events a bridge contract can emit, and leaves the bridge
table with a bridge that has no predecessor.
-/

namespace AggKit.BridgeSync

open Table Run

variable {H : Type} [DecidableEq H]

/-- The calls that change the processor. -/
inductive Call (H : Type) where
  | processBlock (block : Block H)
  | reorg (firstReorgedBlock : ℕ)

/-- What a call returns and the processor after it. -/
def Processor.call (cfg : Config H) (p : Processor H) :
    Call H → Except (SyncError H) Unit × Processor H
  | .processBlock block => p.processBlock cfg block
  | .reorg firstReorgedBlock => p.reorg cfg firstReorgedBlock

/-- The block comes after the bridges stored, and its events are in order. -/
structure Orderly (cfg : Config H) (db : Tables H) (block : Block H) : Prop where
  later : ∀ b ∈ db.bridge.rows, b.blockNum < block.num
  blockNum_eq : ∀ e ∈ block.parts, e.blockNum = block.num
  positions : (block.parts.filterMap EventPart.position).Pairwise (· < ·)
  counts : Along cfg.countAfter cfg.CountsOn db.bridge.rows.length block.parts

/-- The condition on the database that a call is made on. -/
def Fits (cfg : Config H) (db : Tables H) : Call H → Prop
  | .processBlock block => Orderly cfg db block
  | .reorg firstReorgedBlock =>
    Continues (db.remaining firstReorgedBlock) (db.restored firstReorgedBlock)

section steps

variable {cfg : Config H} (hinj : Function.Injective2 cfg.keccak.pair) {p : Processor H}

/-- The transaction of `ProcessBlock` before the first event. -/
def Processor.beginBlock (p : Processor H) (block : Block H) : Tx H :=
  { p.begin with db := { p.db with block := upsertBlock p.db.block block.num block.hash } }

variable {block : Block H}

theorem Processor.processBlock_of_ok (hhalted : p.halted = false) {tx : Tx H}
    (hparts : processParts cfg block.num none block.parts (p.beginBlock block) = .ok () tx) :
    p.processBlock cfg block = (.ok (), tx.commit) := by
  unfold Processor.processBlock
  unfold Processor.beginBlock at hparts
  simp only [hhalted, Bool.false_eq_true, if_false, hparts]

theorem Processor.exists_processParts (hok : (p.processBlock cfg block).1 = .ok ()) :
    p.halted = false ∧
      ∃ tx, processParts cfg block.num none block.parts (p.beginBlock block) = .ok () tx := by
  unfold Processor.processBlock at hok
  cases hhalted : p.halted with
  | true => simp [hhalted] at hok
  | false =>
    simp only [hhalted, Bool.false_eq_true, if_false] at hok
    cases hparts : processParts cfg block.num none block.parts (p.beginBlock block) with
    | ok u tx => exact ⟨rfl, tx, rfl⟩
    | error e tx =>
      unfold Processor.beginBlock at hparts
      simp [hparts] at hok

omit [DecidableEq H] in
/-- A block of a later number has room for any position. -/
theorem room_of_later {rows : List (Bridge H)} {blockNum : ℕ} {es : List (EventPart H)}
    (hlater : ∀ b ∈ rows, b.blockNum < blockNum) : Room blockNum es rows none :=
  fun _ _ _ _ a ha => .inl (hlater a ha)

include hinj

/-- `ProcessBlock` on an orderly block. -/
theorem Processor.processBlock_spec (hC : Consistent cfg p.db.bridge.rows p.exitTree)
    (hO : Orderly cfg p.db block) (hok : (p.processBlock cfg block).1 = .ok ()) :
    Handled cfg block.parts (p.beginBlock block).db (p.processBlock cfg block).2.db ∧
      Consistent cfg (p.processBlock cfg block).2.db.bridge.rows
        (p.processBlock cfg block).2.exitTree := by
  obtain ⟨hhalted, tx, hparts⟩ := Processor.exists_processParts hok
  rw [Processor.processBlock_of_ok hhalted hparts]
  exact processParts_spec hinj
    ⟨hC, hO.blockNum_eq, hO.positions, room_of_later hO.later, hO.counts⟩ hparts

/-- A call that fits and returns no error keeps bridges and exit tree in step. -/
theorem Consistent.call (hC : Consistent cfg p.db.bridge.rows p.exitTree) {c : Call H}
    (hok : (p.call cfg c).1 = .ok ()) (hfits : Fits cfg p.db c) :
    Consistent cfg (p.call cfg c).2.db.bridge.rows (p.call cfg c).2.exitTree := by
  cases c with
  | processBlock block => exact (Processor.processBlock_spec hinj hC hfits hok).2
  | reorg firstReorgedBlock =>
    obtain ⟨t, a, -, -, hdb, hC'⟩ := Processor.reorg_spec hinj hC hfits hok
    have hbridge : (p.reorg cfg firstReorgedBlock).2.db.bridge = t := by rw [hdb]
    unfold Processor.call
    rw [hbridge]
    exact hC'

omit hinj [DecidableEq H] in
/-- A new processor has neither bridges nor roots. -/
theorem consistent_new : Consistent cfg (Processor.new cfg).db.bridge.rows
    (Processor.new cfg).exitTree :=
  ⟨rfl, Tree.Synced.new _ _, by simp [Processor.new, Tables.empty, Keyed.empty]⟩

/-- In every run of calls that fit and return no error bridges and exit tree are in step. -/
theorem consistent_of_run (hrun : Reach (fun p c => (p.call cfg c).2)
      (fun p c => (p.call cfg c).1 = .ok () ∧ Fits cfg p.db c) (Processor.new cfg) p) :
    Consistent cfg p.db.bridge.rows p.exitTree :=
  hrun.invariant (P := fun p => Consistent cfg p.db.bridge.rows p.exitTree) consistent_new
    fun _ _ hC hallowed => hC.call hinj hallowed.1 hallowed.2

end steps

/-- A bridge with the given position, deposit count and amount, and default data. -/
def bridgeAt {H : Type} (txHash : H) (blockNum blockPos : ℕ) (depositCount : UInt32)
    (amount : ℕ) : Bridge H where
  blockNum := blockNum
  blockPos := blockPos
  fromAddress := none
  txHash := txHash
  blockTimestamp := 0
  leafType := 0
  originNetwork := 0
  originAddress := ZeroAddress
  destinationNetwork := 0
  destinationAddress := ZeroAddress
  amount := amount
  metadata := []
  depositCount := depositCount
  txnSender := ZeroAddress
  source := .none
  toAddress := ZeroAddress

/-- A processor with the free hash. -/
def freeConfig : Config (List UInt8) := ⟨freeKeccak, [1], fun _ => none⟩

/-- A block with one bridge. -/
def oneBridge : Block (List UInt8) := ⟨1, [], [{ bridge := some (bridgeAt [] 1 0 0 7) }]⟩

theorem oneBridge_orderly : Orderly freeConfig (Processor.new freeConfig).db oneBridge where
  later := by simp [Processor.new, Tables.empty, Keyed.empty]
  blockNum_eq := by simp [Block.parts, oneBridge, Event.parts, EventPart.blockNum, bridgeAt]
  positions := by simp [Block.parts, oneBridge, Event.parts, EventPart.position]
  counts := ⟨rfl, trivial⟩

/-- The processor after that block. -/
@[irreducible]
def afterOneBridge : Processor (List UInt8) :=
  ((Processor.new freeConfig).call freeConfig (.processBlock oneBridge)).2

/-- A small hash to compute with. -/
def toyKeccak : Keccak ℕ where
  sum l := l.foldl (fun a b => (a * 257 + b.toNat + 1) % 1000000007) 0
  bytes n := Bytes.bigEndian 4 n
  zero := 0

/-- A processor with that hash; events of the runs below have no leaves to decode. -/
def toyConfig : Config ℕ := ⟨toyKeccak, 5, fun _ => none⟩

/-- The processor after calls that all return no error. -/
def Processor.calls (cfg : Config H) (p : Processor H) : List (Call H) → Option (Processor H)
  | [] => some p
  | c :: cs => match (p.call cfg c).1 with
    | .ok _ => (p.call cfg c).2.calls cfg cs
    | .error _ => none

/-- Two bridges, all removed by a `BackwardLET`, then two others, the last of which is removed by a
second `BackwardLET`. The roots in the events are the roots of the exit tree. -/
def twoBackwardLETs : List (Call ℕ) :=
  [.processBlock ⟨1, 0, [{ bridge := some (bridgeAt 0 1 0 0 1) },
      { bridge := some (bridgeAt 0 1 1 1 2) }]⟩,
    .processBlock ⟨2, 0, [{ backwardLET := some ⟨2, 0, 2, 951370855, 0, 5⟩ }]⟩,
    .processBlock ⟨3, 0, [{ bridge := some (bridgeAt 0 3 0 0 3) },
      { bridge := some (bridgeAt 0 3 1 1 4) }]⟩,
    .processBlock ⟨4, 0, [{ backwardLET := some ⟨4, 0, 2, 499047420, 1, 117701426⟩ }]⟩]

end AggKit.BridgeSync
