import AggKit.Lib.Run
import AggKit.Lib.Table

/-!
# The reorg detector of `reorgdetector`

A subscriber hands the detector the blocks it has processed and that are not final yet. The detector
keeps them in memory and in the table `tracked_block`. From time to time a pass compares every
tracked hash with the one that the node has. A block with the tracked hash that is final is not
tracked any longer; for a block with another hash the subscriber is notified, and the blocks from
there on are not tracked any longer.

A pass runs one goroutine for each subscriber, and the subscribers go on with their own work in the
meantime: the driver and `WaitForNewBlocks` call `AddBlockToTrack`, and the chain changes. The model
is a machine whose actions are the accesses to what is shared: one access to a list of headers, to
the table, to the cache of headers or to the node at a time, in any order. A goroutine that meets an
error ends; `fail` stands for that.

The list of a subscriber is replaced by a new one only when it is empty, which it is not while a
goroutine still has to remove blocks from it. So a goroutine and `AddBlockToTrack` work on one list.
-/

namespace AggKit.ReorgDetector

open Table

/-- `Header`. -/
structure Header (H : Type) where
  num : ℕ
  hash : H
deriving DecidableEq

/-- `headersList`. -/
abbrev HeadersList (H : Type) := Keyed (Header.num (H := H))

/-- `getSorted`. -/
def HeadersList.getSorted {H : Type} (hl : HeadersList H) : List (Header H) :=
  orderBy Header.num hl.rows

/-- `removeRange`. -/
def HeadersList.removeRange {H : Type} (hl : HeadersList H) (fromBlock toBlock : ℕ) :
    HeadersList H :=
  hl.deleteWhere fun hdr => decide (fromBlock ≤ hdr.num ∧ hdr.num ≤ toBlock)

/-- Where the goroutine of a subscriber is in `detectReorgInTrackedList`. -/
inductive Check (H : Type) where
  /-- It does not run. -/
  | idle
  /-- It goes on with the first of the headers; `toBlock` is the last number of the list. -/
  | checking (lastFinalizedBlock : ℕ) (headers : List (Header H)) (toBlock : ℕ)
  /-- It has read `currentHeader`. -/
  | fetched (lastFinalizedBlock : ℕ) (hdr : Header H) (current : H) (headers : List (Header H))
      (toBlock : ℕ)
  /-- The block is final; it has to be removed from memory. -/
  | final (lastFinalizedBlock : ℕ) (hdr : Header H) (headers : List (Header H)) (toBlock : ℕ)
  /-- The block is final; it has to be removed from the table. -/
  | finalDB (lastFinalizedBlock : ℕ) (hdr : Header H) (headers : List (Header H)) (toBlock : ℕ)
  /-- A reorg is found; the subscriber has to be notified. -/
  | reorged (fromBlock toBlock : ℕ)
  /-- The subscriber has processed the reorg; the range has to be removed from the table. -/
  | notified (fromBlock toBlock : ℕ)
  /-- The range has to be removed from memory. -/
  | removedDB (fromBlock toBlock : ℕ)
  /-- The range has to be removed from the cache. -/
  | removed (fromBlock toBlock : ℕ)
deriving DecidableEq

/-- A run of `detectReorgInTrackedList`: the finalized block it has read, and the subscribers whose
goroutines it has to start. -/
structure Pass (I : Type) where
  lastFinalizedBlock : ℕ
  subscriberIDs : List I

/-- The chain of the node and the detector. -/
structure State (I H : Type) where
  /-- The hash that the node has for a number. -/
  canonical : ℕ → H
  /-- The last finalized block of the node. -/
  finalized : ℕ
  subscriptions : List I
  trackedBlocks : I → Option (HeadersList H)
  /-- The table `tracked_block`. -/
  trackedBlock : List (I × Header H)
  headersCache : ℕ → Option H
  /-- Calls of `AddBlockToTrack` before their access to memory. -/
  adding : List (I × Header H)
  /-- Calls of `AddBlockToTrack` before their access to the table. -/
  inserting : List (I × Header H)
  pass : Option (Pass I)
  checks : I → Check H

/-- The accesses to what is shared. -/
inductive Action (I H : Type) where
  /-- The chain changes above the finalized block. -/
  | reorg (canonical : ℕ → H)
  /-- Blocks become final. -/
  | finalize (block : ℕ)
  /-- `Subscribe` -/
  | subscribe (id : I)
  /-- `AddBlockToTrack`, the lookup of the block. -/
  | addBlockToTrack (id : I) (hdr : Header H)
  /-- `saveTrackedBlock`, the access to memory. -/
  | add (id : I) (hdr : Header H)
  /-- `saveTrackedBlock`, the access to the table. -/
  | insert (id : I) (hdr : Header H)
  /-- `detectReorgInTrackedList` reads the finalized block and the subscribers. -/
  | startPass
  /-- The goroutine of a subscriber starts and sorts its headers. -/
  | launch (id : I)
  /-- `CustomHeaderByNumber` of the next header. -/
  | fetch (id : I)
  /-- The access to the cache, and the comparison. -/
  | compare (id : I)
  /-- `removeRange` of a final block. -/
  | removeFinal (id : I)
  /-- `removeTrackedBlockRange` of a final block. -/
  | removeFinalDB (id : I)
  /-- `notifySubscriber` -/
  | notify (id : I) (startingBlock : ℕ)
  /-- `removeTrackedBlockRange` after a reorg. -/
  | removeDB (id : I)
  /-- `removeRange` after a reorg. -/
  | remove (id : I)
  /-- The range is deleted from the cache. -/
  | cleanCache (id : I)
  /-- The goroutine returns an error. -/
  | fail (id : I)
  /-- The goroutine has checked all headers. -/
  | finish (id : I)
  /-- All goroutines have returned. -/
  | endPass

variable {I H : Type} [DecidableEq I] [DecidableEq H]

/-- A detector without subscribers. -/
def State.initial (canonical : ℕ → H) (finalized : ℕ) : State I H where
  canonical := canonical
  finalized := finalized
  subscriptions := []
  trackedBlocks _ := none
  trackedBlock := []
  headersCache _ := none
  adding := []
  inserting := []
  pass := none
  checks _ := .idle

omit [DecidableEq H] in
/-- The goroutine of a subscriber goes on. -/
def State.setCheck (s : State I H) (id : I) (c : Check H) : State I H :=
  { s with checks := Function.update s.checks id c }

omit [DecidableEq H] in
/-- Change the list of a subscriber. -/
def State.modifyHeaders (s : State I H) (id : I) (f : HeadersList H → HeadersList H) : State I H :=
  { s with trackedBlocks := Function.update s.trackedBlocks id ((s.trackedBlocks id).map f) }

/-- `removeTrackedBlockRange`. -/
def State.removeTrackedBlockRange (s : State I H) (id : I) (fromBlock toBlock : ℕ) : State I H :=
  { s with
    trackedBlock := deleteWhere
      (fun r => decide ((fromBlock ≤ r.2.num ∧ r.2.num ≤ toBlock) ∧ r.1 = id)) s.trackedBlock }

/-- `AddBlockToTrack` up to `saveTrackedBlock`. -/
def State.addBlockToTrack (s : State I H) (id : I) (hdr : Header H) : Option (State I H) :=
  (s.trackedBlocks id).map fun hl =>
    if hl.rows.contains hdr then s else { s with adding := s.adding ++ [(id, hdr)] }

/-- The access of `saveTrackedBlock` to memory. -/
def State.add (s : State I H) (id : I) (hdr : Header H) : Option (State I H) :=
  if s.adding.contains (id, hdr) then
    some { s.modifyHeaders id (·.upsert hdr) with
      adding := s.adding.erase (id, hdr)
      inserting := s.inserting ++ [(id, hdr)] }
  else none

/-- The access of `saveTrackedBlock` to the table. -/
def State.insert (s : State I H) (id : I) (hdr : Header H) : Option (State I H) :=
  if s.inserting.contains (id, hdr) then
    some { s with
      trackedBlock := s.trackedBlock ++ [(id, hdr)]
      inserting := s.inserting.erase (id, hdr) }
  else none

/-- `launch`: the goroutine for a subscriber that is still to be started. -/
def State.launch (s : State I H) (id : I) : Option (State I H) :=
  match s.pass, s.trackedBlocks id with
  | some pass, some hl =>
    if pass.subscriberIDs.contains id then
      let headers := HeadersList.getSorted hl
      let next := { pass with subscriberIDs := pass.subscriberIDs.erase id }
      some (({ s with pass := some next }).setCheck id
        (.checking pass.lastFinalizedBlock headers ((headers.getLast?.map Header.num).getD 0)))
    else none
  | _, _ => none

/-- The comparison of a header, with the header that the cache has or gets. -/
def State.compare (s : State I H) (id : I) : Option (State I H) :=
  match s.checks id with
  | .fetched lastFinalizedBlock hdr current headers toBlock =>
    let old := (s.headersCache hdr.num).getD current
    let s₁ := { s with headersCache := Function.update s.headersCache hdr.num (some old) }
    some (s₁.setCheck id
      (if hdr.hash = old ∧ current = hdr.hash then
        if hdr.num ≤ lastFinalizedBlock then .final lastFinalizedBlock hdr headers toBlock
        else .checking lastFinalizedBlock headers toBlock
      else .reorged hdr.num toBlock))
  | _ => none

/-- One access. -/
def State.step (s : State I H) : Action I H → Option (State I H)
  | .reorg canonical => some { s with
      canonical := fun n => if n ≤ s.finalized then s.canonical n else canonical n }
  | .finalize block => some { s with finalized := max s.finalized block }
  | .subscribe id =>
    if s.subscriptions.contains id then some s
    else some { s with
      subscriptions := s.subscriptions ++ [id]
      trackedBlocks := Function.update s.trackedBlocks id (some Keyed.empty) }
  | .addBlockToTrack id hdr => s.addBlockToTrack id hdr
  | .add id hdr => s.add id hdr
  | .insert id hdr => s.insert id hdr
  | .startPass =>
    match s.pass with
    | none => some { s with pass := some ⟨s.finalized, s.subscriptions⟩ }
    | some _ => none
  | .launch id => s.launch id
  | .fetch id =>
    match s.checks id with
    | .checking lastFinalizedBlock (hdr :: headers) toBlock =>
      some (s.setCheck id
        (.fetched lastFinalizedBlock hdr (s.canonical hdr.num) headers toBlock))
    | _ => none
  | .compare id => s.compare id
  | .removeFinal id =>
    match s.checks id with
    | .final lastFinalizedBlock hdr headers toBlock =>
      some ((s.modifyHeaders id (HeadersList.removeRange · hdr.num hdr.num)).setCheck id
        (.finalDB lastFinalizedBlock hdr headers toBlock))
    | _ => none
  | .removeFinalDB id =>
    match s.checks id with
    | .finalDB lastFinalizedBlock hdr headers toBlock =>
      some ((s.removeTrackedBlockRange id hdr.num hdr.num).setCheck id
        (.checking lastFinalizedBlock headers toBlock))
    | _ => none
  | .notify id startingBlock =>
    match s.checks id with
    | .reorged fromBlock toBlock =>
      if startingBlock = fromBlock then some (s.setCheck id (.notified fromBlock toBlock)) else none
    | _ => none
  | .removeDB id =>
    match s.checks id with
    | .notified fromBlock toBlock =>
      some ((s.removeTrackedBlockRange id fromBlock toBlock).setCheck id
        (.removedDB fromBlock toBlock))
    | _ => none
  | .remove id =>
    match s.checks id with
    | .removedDB fromBlock toBlock =>
      some ((s.modifyHeaders id (HeadersList.removeRange · fromBlock toBlock)).setCheck id
        (.removed fromBlock toBlock))
    | _ => none
  | .cleanCache id =>
    match s.checks id with
    | .removed fromBlock toBlock =>
      let headersCache := fun n =>
        if fromBlock ≤ n ∧ n ≤ toBlock then none else s.headersCache n
      some (({ s with headersCache := headersCache }).setCheck id .idle)
    | _ => none
  | .fail id =>
    match s.checks id with
    | .idle => none
    | _ => some (s.setCheck id .idle)
  | .finish id =>
    match s.checks id with
    | .checking _ [] _ => some (s.setCheck id .idle)
    | _ => none
  | .endPass =>
    match s.pass with
    | some ⟨_, []⟩ =>
      if s.subscriptions.all fun id => s.checks id = .idle then some { s with pass := none } else none
    | _ => none

end AggKit.ReorgDetector
