import AggKit.Lib.Exec
import AggKit.Lib.Run
import Mathlib.Data.Finset.Basic

/-!
# Forgotten and registered again, as in `bridgetracker/registry.go` and `bridgetracker/engine.go`

The engine reads the snapshot of a bridge, resolves it over the network without a lock, and stores
the outcome under the id of the bridge. In the meantime a request with `flush_cache` can forget the
id and register it again. `UpdateTracking` does not notice that the entry it finds under the id is
another one, and stores in it what was computed from the old one (`old_snapshot_stored`).

The entries are numbered as they are created, and a snapshot carries the number of the entry that
was read to compute it (`origin`). `snapshots_fresh` says when the two agree in every entry.
-/

namespace AggKit.BridgeTracker

open Exec

variable {I Tx S : Type} [DecidableEq I]

/-- `domain.TrackingData`. The source does not have `origin`, the entry that was read for it. -/
structure TrackingData (Tx S : Type) where
  bridgeTx : Tx
  allSteps : List S
  origin : ℕ

/-- `bridgeEntry` with its key in the map. The entry is an object, known by `ref`; time 0 is the
zero time. -/
structure BridgeEntry (I Tx S : Type) where
  id : I
  ref : ℕ
  tracking : TrackingData Tx S
  subscribers : Finset ℕ
  terminalSince : ℕ
  lastAccess : ℕ

/-- What the registry calls of `bridgetracker/domain`. -/
structure Domain (Tx S : Type) where
  /-- `TrackingBridgeTx{}` -/
  zeroTx : Tx
  /-- Whether the strings of two transactions are the same. -/
  sameTx : Tx → Tx → Bool
  isTerminal : Tx → List S → Bool
  terminallyFailed : Tx → List S → Bool
  mergeSteps : List S → List S → List S

/-- `ErrTrackingNotFound` and `ErrRegistryFull`. -/
inductive RegistryError where
  | trackingNotFound
  | registryFull

/-- A `resolveBridgeStep` that has its snapshot and has not ended. -/
structure Resolution (I Tx S : Type) where
  id : I
  ref : ℕ
  tracking : TrackingData Tx S

/-- `memoryRegistry`, with the resolutions of the engine. -/
structure Tracker (I Tx S : Type) where
  bridges : List (BridgeEntry I Tx S)
  maxEntries : ℕ
  created : ℕ
  resolving : List (Resolution I Tx S)

/-- What happens under the lock of the registry. -/
inductive Action (I Tx S : Type) where
  /-- `Get`, and `GetAndAwait` where it does not wait -/
  | get (id : I) (createIfNotExists : Bool) (now : ℕ)
  /-- `Subscribe`, and `GetAndAwait` for a new id, with a channel -/
  | subscribe (id : I) (ch now : ℕ)
  /-- What they do with the channel in the end, on the entry they have. -/
  | unsubscribe (ref ch : ℕ)
  | forget (id : I)
  | pruneTerminal (olderThan : ℕ)
  | pruneIdle (olderThan : ℕ)
  | tick
  | resolveTriggered (id : I) (now : ℕ)
  /-- The `i`-th resolution ends with `persist`; what it found on the networks is arbitrary. -/
  | persist (i : ℕ) (tx : Tx) (allSteps : List S) (now : ℕ)
  /-- It ends with `persistResolveFailure`. -/
  | persistResolveFailure (i : ℕ) (tx : Tx) (now : ℕ)
  /-- It ends with nothing to store. -/
  | finish (i : ℕ)

namespace BridgeEntry

/-- The snapshot is swapped in, and the time noted if it is the first that is terminal. -/
def store (D : Domain Tx S) (e : BridgeEntry I Tx S) (tracking : TrackingData Tx S) (now : ℕ) :
    BridgeEntry I Tx S :=
  { e with
    tracking
    terminalSince := if e.terminalSince = 0 ∧ D.isTerminal tracking.bridgeTx tracking.allSteps
      then now else e.terminalSince }

/-- `UpdateTracking` on the entry. -/
def updateTracking (D : Domain Tx S) (origin : ℕ) (tx : Tx) (allSteps : List S) (now : ℕ)
    (e : BridgeEntry I Tx S) : BridgeEntry I Tx S :=
  let steps := e.tracking.allSteps
  let steps := if D.terminallyFailed e.tracking.bridgeTx steps then steps
    else D.mergeSteps steps allSteps
  e.store D ⟨tx, steps, origin⟩ now

/-- `UpdateTrackingBridgeTx` on the entry. -/
def updateTrackingBridgeTx (D : Domain Tx S) (origin : ℕ) (tx : Tx) (now : ℕ)
    (e : BridgeEntry I Tx S) : BridgeEntry I Tx S :=
  e.store D (if D.sameTx e.tracking.bridgeTx tx then e.tracking
    else ⟨tx, e.tracking.allSteps, origin⟩) now

/-- The entry's snapshot, taken by the engine. -/
def read (e : BridgeEntry I Tx S) : Resolution I Tx S := ⟨e.id, e.ref, e.tracking⟩

end BridgeEntry

namespace Tracker

/-- `NewMemoryRegistry`, with `DefaultMaxTrackedBridges`. -/
def newMemoryRegistry (maxEntries : ℤ) : Tracker I Tx S :=
  ⟨[], if maxEntries ≤ 0 then 100000 else maxEntries.toNat, 0, []⟩

/-- The map has the id. -/
def has (s : Tracker I Tx S) (id : I) : Bool := s.bridges.any fun e => e.id = id

/-- The entry of an id is changed. -/
def modify (s : Tracker I Tx S) (id : I) (f : BridgeEntry I Tx S → BridgeEntry I Tx S) :
    Except RegistryError (Tracker I Tx S) :=
  if s.has id then .ok { s with bridges := s.bridges.map fun e => if e.id = id then f e else e }
  else .error .trackingNotFound

/-- `create`. -/
def create (D : Domain Tx S) (s : Tracker I Tx S) (id : I) (now : ℕ) :
    Except RegistryError (Tracker I Tx S) :=
  if s.bridges.length ≥ s.maxEntries then .error .registryFull
  else .ok { s with
    bridges := s.bridges ++ [⟨id, s.created, ⟨D.zeroTx, [], s.created⟩, ∅, 0, now⟩]
    created := s.created + 1 }

/-- The entry that `Get`, `GetAndAwait` and `Subscribe` look up. -/
def getOrCreate (D : Domain Tx S) (s : Tracker I Tx S) (id : I) (createIfNotExists : Bool)
    (now : ℕ) : Except RegistryError (Tracker I Tx S) :=
  if s.has id then .ok s
  else if createIfNotExists then s.create D id now
  else .error .trackingNotFound

/-- `Get`. -/
def get (D : Domain Tx S) (s : Tracker I Tx S) (id : I) (createIfNotExists : Bool) (now : ℕ) :
    Except RegistryError (Tracker I Tx S) := do
  let s ← s.getOrCreate D id createIfNotExists now
  s.modify id fun e => { e with lastAccess := now }

/-- `Subscribe`. -/
def subscribe (D : Domain Tx S) (s : Tracker I Tx S) (id : I) (ch now : ℕ) :
    Except RegistryError (Tracker I Tx S) := do
  let s ← s.get D id true now
  s.modify id fun e => { e with subscribers := insert ch e.subscribers }

/-- A call that fails leaves the registry as it is. -/
def after (s : Tracker I Tx S) : Except RegistryError (Tracker I Tx S) → Tracker I Tx S
  | .ok s' => s'
  | .error _ => s

/-- The map without some entries. -/
def delete (s : Tracker I Tx S) (gone : BridgeEntry I Tx S → Bool) : Tracker I Tx S :=
  { s with bridges := s.bridges.filter fun e => !gone e }

/-- The engine is one goroutine: it goes on when the resolutions it has started have ended. -/
def engine (s next : Tracker I Tx S) : Tracker I Tx S := if s.resolving.isEmpty then next else s

/-- A resolution ends with a change of the entry that is now found under its id. -/
def resolved (s : Tracker I Tx S) (i : ℕ)
    (f : Resolution I Tx S → BridgeEntry I Tx S → BridgeEntry I Tx S) : Tracker I Tx S :=
  match s.resolving[i]? with
  | none => s
  | some r => { s.after (s.modify r.id (f r)) with resolving := s.resolving.eraseIdx i }

/-- One action. -/
def step (D : Domain Tx S) (s : Tracker I Tx S) : Action I Tx S → Tracker I Tx S
  | .get id createIfNotExists now => s.after (s.get D id createIfNotExists now)
  | .subscribe id ch now => s.after (s.subscribe D id ch now)
  | .unsubscribe ref ch => { s with bridges := s.bridges.map fun e =>
      if e.ref = ref then { e with subscribers := e.subscribers.erase ch } else e }
  | .forget id => s.delete fun e => e.id = id
  | .pruneTerminal olderThan => s.engine <| s.delete fun e =>
      e.terminalSince ≠ 0 ∧ e.terminalSince < olderThan
  | .pruneIdle olderThan => s.engine <| s.delete fun e =>
      e.subscribers = ∅ ∧ e.lastAccess < olderThan
  | .tick => s.engine { s with resolving := (s.bridges.filter fun e =>
      !D.isTerminal e.tracking.bridgeTx e.tracking.allSteps).map BridgeEntry.read }
  | .resolveTriggered id now =>
    let s' := s.after (s.get D id false now)
    s.engine { s' with resolving := (s'.bridges.filter fun e => e.id = id).map BridgeEntry.read }
  | .persist i tx allSteps now => s.resolved i fun r => .updateTracking D r.ref tx allSteps now
  | .persistResolveFailure i tx now => s.resolved i fun r => .updateTrackingBridgeTx D r.ref tx now
  | .finish i => s.resolved i fun _ e => e

/-- Every stored snapshot was computed from the data of its entry. -/
def Fresh (s : Tracker I Tx S) : Prop := ∀ e ∈ s.bridges, e.tracking.origin = e.ref

/-- An entry is not created while an earlier entry of its id is being resolved. -/
def Waits (s : Tracker I Tx S) : Action I Tx S → Prop
  | .get id true _ | .subscribe id _ _ => s.has id = false → s.bridges.length < s.maxEntries →
      ∀ r ∈ s.resolving, r.id ≠ id
  | _ => True

/-! ## The invariant -/

/-- An id has one entry, and that is the one that a resolution of the id has read. -/
structure Inv (s : Tracker I Tx S) : Prop where
  fresh : s.Fresh
  one : ∀ e ∈ s.bridges, ∀ e' ∈ s.bridges, e.id = e'.id → e.ref = e'.ref
  current : ∀ r ∈ s.resolving, ∀ e ∈ s.bridges, e.id = r.id → e.ref = r.ref
  entry_lt : ∀ e ∈ s.bridges, e.ref < s.created
  read_lt : ∀ r ∈ s.resolving, r.ref < s.created

variable {D : Domain Tx S} {s s' : Tracker I Tx S} {id : I} {e : BridgeEntry I Tx S}
  {f : BridgeEntry I Tx S → BridgeEntry I Tx S} {now : ℕ}

omit [DecidableEq I] in
/-- The entries can go and change, as long as what is stored in one comes from it. -/
theorem Inv.of_entries (h : s.Inv) (hcreated : s'.created = s.created)
    (hresolving : ∀ r ∈ s'.resolving, r ∈ s.resolving)
    (hentries : ∀ e' ∈ s'.bridges, ∃ e ∈ s.bridges,
      e'.id = e.id ∧ e'.ref = e.ref ∧ e'.tracking.origin = e.ref) : s'.Inv := by
  refine ⟨fun e' he' => ?_, fun a ha b hb hid => ?_, fun r hr e' he' hid => ?_, fun e' he' => ?_,
    fun r hr => ?_⟩
  · obtain ⟨e, _, _, href, horigin⟩ := hentries e' he'
    exact horigin.trans href.symm
  · obtain ⟨a', ha', haid, haref, _⟩ := hentries a ha
    obtain ⟨b', hb', hbid, hbref, _⟩ := hentries b hb
    rw [haref, hbref]
    exact h.one a' ha' b' hb' (haid ▸ hbid ▸ hid)
  · obtain ⟨e, he, hid', href, _⟩ := hentries e' he'
    exact href.trans (h.current r (hresolving r hr) e he (hid'.symm.trans hid))
  · obtain ⟨e, he, _, href, _⟩ := hentries e' he'
    exact href ▸ hcreated ▸ h.entry_lt e he
  · exact hcreated ▸ h.read_lt r (hresolving r hr)

omit [DecidableEq I] in
theorem Inv.delete (h : s.Inv) (gone : BridgeEntry I Tx S → Bool) : (s.delete gone).Inv :=
  h.of_entries rfl (fun _ hr => hr) fun e he =>
    ⟨e, List.mem_of_mem_filter he, rfl, rfl, h.fresh e (List.mem_of_mem_filter he)⟩

/-- What an update of an entry has to keep. -/
def Keeps (f : BridgeEntry I Tx S → BridgeEntry I Tx S) (e : BridgeEntry I Tx S) : Prop :=
  (f e).id = e.id ∧ (f e).ref = e.ref ∧ (f e).tracking.origin = e.ref

omit [DecidableEq I] in
theorem Inv.map (h : s.Inv) (p : BridgeEntry I Tx S → Prop) [DecidablePred p]
    (hf : ∀ e ∈ s.bridges, p e → Keeps f e) :
    { s with bridges := s.bridges.map fun e => if p e then f e else e }.Inv := by
  refine h.of_entries rfl (fun _ hr => hr) fun e' he' => ?_
  obtain ⟨e, he, rfl⟩ := List.mem_map.1 he'
  refine ⟨e, he, ?_⟩
  split_ifs with hp
  · exact hf e he hp
  · exact ⟨rfl, rfl, h.fresh e he⟩

theorem Inv.modify (h : s.Inv) (hf : ∀ e ∈ s.bridges, e.id = id → Keeps f e)
    (hs' : s.modify id f = .ok s') : s'.Inv := by
  unfold Tracker.modify at hs'
  split_ifs at hs'
  cases hs'
  exact h.map _ hf

/-- A new entry has a number that no snapshot carries. -/
theorem Inv.create (h : s.Inv) (hnew : s.has id = false)
    (hwaits : s.bridges.length < s.maxEntries → ∀ r ∈ s.resolving, r.id ≠ id)
    (hs' : s.create D id now = .ok s') : s'.Inv := by
  unfold Tracker.create at hs'
  split_ifs at hs' with hfull
  cases hs'
  have hother : ∀ e ∈ s.bridges, e.id ≠ id := by simpa [has] using hnew
  refine ⟨?_, ?_, fun r hr => ?_, ?_, fun r hr => Nat.lt_succ_of_lt (h.read_lt r hr)⟩
  · exact List.forall_mem_append.2 ⟨h.fresh, List.forall_mem_singleton.2 rfl⟩
  · simp only [List.forall_mem_append, List.forall_mem_singleton]
    exact ⟨fun e he => ⟨h.one e he, fun hid => absurd hid (hother e he)⟩,
      fun e he hid => absurd hid.symm (hother e he), fun _ => trivial⟩
  · exact List.forall_mem_append.2 ⟨h.current r hr, List.forall_mem_singleton.2
      fun hid => absurd hid.symm (hwaits (not_le.1 hfull) r hr)⟩
  · exact List.forall_mem_append.2 ⟨fun e he => Nat.lt_succ_of_lt (h.entry_lt e he),
      List.forall_mem_singleton.2 s.created.lt_succ_self⟩

theorem Inv.get (h : s.Inv) {createIfNotExists : Bool}
    (hwaits : createIfNotExists = true → s.has id = false →
      s.bridges.length < s.maxEntries → ∀ r ∈ s.resolving, r.id ≠ id)
    (hs' : s.get D id createIfNotExists now = .ok s') : s'.Inv := by
  obtain ⟨s1, hs1, hs'⟩ := except_bind_ok.1 hs'
  have h1 : s1.Inv := by
    unfold getOrCreate at hs1
    split_ifs at hs1 with hhas hcreate
    · cases hs1
      exact h
    · have hnew := Bool.eq_false_iff.2 hhas
      exact h.create hnew (hwaits hcreate hnew) hs1
  refine h1.modify (fun e he _ => ?_) hs'
  exact ⟨rfl, rfl, h1.fresh e he⟩

omit [DecidableEq I] in
theorem Inv.after (h : s.Inv) {result : Except RegistryError (Tracker I Tx S)}
    (hok : ∀ s', result = .ok s' → s'.Inv) : (s.after result).Inv := by
  cases result with
  | error err => exact h
  | ok s' => exact hok s' rfl

omit [DecidableEq I] in
/-- The engine reads some of the entries. -/
theorem Inv.reads (h : s.Inv) (p : BridgeEntry I Tx S → Bool) :
    { s with resolving := (s.bridges.filter p).map BridgeEntry.read }.Inv := by
  refine ⟨h.fresh, h.one, fun r hr e he hid => ?_, h.entry_lt, fun r hr => ?_⟩ <;>
    obtain ⟨e', he', rfl⟩ := List.mem_map.1 hr
  · exact h.one e he e' (List.mem_of_mem_filter he') hid
  · exact h.entry_lt e' (List.mem_of_mem_filter he')

omit [DecidableEq I] in
theorem Inv.engine (h : s.Inv) (h' : s'.Inv) : (s.engine s').Inv := by
  unfold Tracker.engine
  split_ifs
  exacts [h', h]

/-- The outcome of a resolution goes to the entry that was read for it. -/
theorem Inv.resolved (h : s.Inv) (i : ℕ)
    {f : Resolution I Tx S → BridgeEntry I Tx S → BridgeEntry I Tx S}
    (hf : ∀ r e, e.tracking.origin = e.ref → e.ref = r.ref → Keeps (f r) e) :
    (s.resolved i f).Inv := by
  unfold Tracker.resolved
  split
  · exact h
  next r hr =>
    have hmem : r ∈ s.resolving := List.mem_of_getElem? hr
    have hafter : (s.after (s.modify r.id (f r))).Inv := h.after fun s' hs' =>
      h.modify (fun e he hid => hf r e (h.fresh e he) (h.current r hmem e he hid)) hs'
    have hsame : (s.after (s.modify r.id (f r))).resolving = s.resolving := by
      unfold Tracker.modify
      split_ifs <;> rfl
    refine hafter.of_entries rfl (fun r' hr' => hsame ▸ List.mem_of_mem_eraseIdx hr') fun e he => ?_
    exact ⟨e, he, rfl, rfl, hafter.fresh e he⟩

theorem Inv.step (h : s.Inv) {a : Action I Tx S} (hwaits : s.Waits a) : (s.step D a).Inv := by
  cases a with
  | get id createIfNotExists now =>
    refine h.after fun s' hs' => h.get (fun hcreate => ?_) hs'
    subst hcreate
    exact hwaits
  | subscribe id ch now =>
    refine h.after fun s' hs' => ?_
    obtain ⟨s1, hs1, hs'⟩ := except_bind_ok.1 hs'
    have h1 : s1.Inv := h.get (fun _ => hwaits) hs1
    refine h1.modify (fun e he _ => ?_) hs'
    exact ⟨rfl, rfl, h1.fresh e he⟩
  | unsubscribe ref ch => exact h.map (·.ref = ref) fun e he _ => ⟨rfl, rfl, h.fresh e he⟩
  | forget id => exact h.delete _
  | pruneTerminal olderThan | pruneIdle olderThan => exact h.engine (h.delete _)
  | tick => exact h.engine (h.reads _)
  | resolveTriggered id now =>
    have hget : (s.after (s.get D id false now)).Inv := by
      refine h.after fun s' hs' => h.get (fun hcreate => ?_) hs'
      cases hcreate
    exact h.engine (hget.reads _)
  | persist i tx allSteps now =>
    exact h.resolved i fun r e _ href => ⟨rfl, rfl, href.symm⟩
  | persistResolveFailure i tx now =>
    refine h.resolved i fun r e horigin href => ⟨rfl, rfl, ?_⟩
    simp only [BridgeEntry.updateTrackingBridgeTx, BridgeEntry.store]
    split_ifs
    exacts [horigin, href.symm]
  | finish i => exact h.resolved i fun r e horigin _ => ⟨rfl, rfl, horigin⟩

/-! ## The condition is exact -/

theorem mem_of_modify (he : e ∈ s.bridges) (hid : e.id = id) :
    ∃ s', s.modify id f = .ok s' ∧ f e ∈ s'.bridges ∧ s'.resolving = s.resolving := by
  have hhas : s.has id = true := by simpa [has] using ⟨e, he, hid⟩
  refine ⟨_, if_pos hhas, List.mem_map.2 ⟨e, he, if_pos hid⟩, rfl⟩

/-- `Get` makes an entry of an id that the map does not have. -/
theorem mem_of_get (D : Domain Tx S) (now : ℕ) (hnew : s.has id = false)
    (hroom : s.bridges.length < s.maxEntries) :
    ∃ s', s.get D id true now = .ok s' ∧
      (∃ e ∈ s'.bridges, e.id = id ∧ e.ref = s.created) ∧ s'.resolving = s.resolving := by
  obtain ⟨s', hs', hmem, hresolving⟩ := mem_of_modify
    (s := { s with
      bridges := s.bridges ++ [⟨id, s.created, ⟨D.zeroTx, [], s.created⟩, ∅, 0, now⟩]
      created := s.created + 1 }) (List.mem_append_right _ (List.mem_singleton.2 rfl)) rfl
  refine ⟨s', except_bind_ok.2 ⟨_, ?_, hs'⟩, ⟨_, hmem, rfl, rfl⟩, hresolving⟩
  simp only [getOrCreate, hnew, create, if_neg (not_le.2 hroom), Bool.false_eq_true, if_false,
    if_true]

/-- What was computed from another entry is stored all the same. -/
theorem not_fresh_of_persist {r : Resolution I Tx S} {i : ℕ} (hr : s.resolving[i]? = some r)
    (he : e ∈ s.bridges) (hid : e.id = r.id) (href : e.ref ≠ r.ref) (tx : Tx) :
    ¬(s.step D (.persist i tx [] 0)).Fresh := by
  intro hfresh
  obtain ⟨s', hs', hmem, _⟩ := mem_of_modify (f := .updateTracking D r.ref tx [] 0) he hid
  refine href (hfresh (e.updateTracking D r.ref tx [] 0) ?_).symm
  simp only [Tracker.step, Tracker.resolved, hr, hs']
  exact hmem

/-- An entry created too early can get an old snapshot. -/
theorem Inv.exists_not_fresh (h : s.Inv) {a : Action I Tx S} (hearly : ¬s.Waits a) :
    ∃ b, ¬((s.step D a).step D b).Fresh := by
  have hmade : ∃ id, ∃ r ∈ s.resolving, r.id = id ∧
      (∃ e ∈ (s.step D a).bridges, e.id = id ∧ e.ref = s.created) ∧
      (s.step D a).resolving = s.resolving := by
    unfold Waits at hearly
    split at hearly
    next id now =>
      push Not at hearly
      obtain ⟨hnew, hroom, r, hr, hid⟩ := hearly
      obtain ⟨s', hs', he, hresolving⟩ := mem_of_get D now hnew hroom
      refine ⟨id, r, hr, hid, ?_⟩
      simp only [Tracker.step, hs']
      exact ⟨he, hresolving⟩
    next id ch now =>
      push Not at hearly
      obtain ⟨hnew, hroom, r, hr, hid⟩ := hearly
      obtain ⟨s1, hs1, ⟨e, he, heid, href⟩, h1⟩ := mem_of_get D now hnew hroom
      obtain ⟨s', hs', hmem, h2⟩ := mem_of_modify
        (f := fun e => { e with subscribers := insert ch e.subscribers }) he heid
      have hsub : s.subscribe D id ch now = .ok s' := except_bind_ok.2 ⟨s1, hs1, hs'⟩
      refine ⟨id, r, hr, hid, ?_⟩
      simp only [Tracker.step, hsub]
      exact ⟨⟨_, hmem, heid, href⟩, h2.trans h1⟩
    · exact absurd trivial hearly
  obtain ⟨id, r, hr, hid, ⟨e, he, heid, href⟩, hresolving⟩ := hmade
  obtain ⟨i, hi⟩ := List.mem_iff_getElem?.1 (hresolving ▸ hr)
  have hne : e.ref ≠ r.ref := href ▸ (h.read_lt r hr).ne'
  exact ⟨_, not_fresh_of_persist hi he (heid.trans hid.symm) hne r.tracking.bridgeTx⟩

/-- While no entry is created before the resolutions of its id have ended, every entry has a
snapshot of its own data; one that is created before can be given an old one. -/
theorem snapshots_fresh (D : Domain Tx S) (maxEntries : ℤ) {s : Tracker I Tx S}
    (hrun : Run.Reach (step D) Waits (newMemoryRegistry maxEntries) s) :
    s.Fresh ∧ ∀ a, ¬s.Waits a → ∃ b, ¬((s.step D a).step D b).Fresh := by
  have hinv : s.Inv := hrun.invariant
    ⟨nofun, nofun, nofun, nofun, nofun⟩ fun s a h hwaits => h.step hwaits
  exact ⟨hinv.fresh, fun a hearly => hinv.exists_not_fresh hearly⟩

/-- Transactions and steps as numbers, of which none is terminal. -/
def numbers : Domain ℕ ℕ := ⟨0, (· == ·), fun _ _ => false, fun _ _ => false, fun _ new => new⟩

/-- A bridge is forgotten and registered again after its resolution has ended. -/
theorem snapshots_fresh_again :
    ([.get 7 true 1, .tick, .persist 0 5 [1] 2, .forget 7, .get 7 true 3].foldl (step numbers)
      (newMemoryRegistry 0)).Fresh := by
  refine (snapshots_fresh numbers 0 (Run.Reach.of_along ?_)).1
  refine ⟨?_, trivial, trivial, trivial, ?_, trivial⟩
  · intro _ _ r hr
    cases hr
  · intro _ _ r hr
    cases hr

/-- It is forgotten and registered again while it is being resolved: the new entry gets the
transaction and the steps that were computed from the old one. -/
theorem old_snapshot_stored :
    ¬([.get 7 true 1, .tick, .forget 7, .get 7 true 2, .persist 0 5 [1] 3].foldl (step numbers)
      (newMemoryRegistry 0)).Fresh := by
  unfold Fresh
  decide

end Tracker

end AggKit.BridgeTracker
