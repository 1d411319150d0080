import AggKit.ReorgDetector.Model

/-!
# Starting the reorg detector

`Start` loads the tracked blocks from the table `tracked_block` and makes a subscription for every id
that has rows. `Subscribe` makes a subscription and an empty list of headers for an id that has no
subscription yet. `subscribers_served`: a subscriber holds the subscription on which its reorgs are
sent, and its list has the headers that `Start` has read from the table and those added since.

This is over every interleaving in which no id has subscribed when `Start` is called. `Start` replaces
all lists, and the subscriptions of the ids that have rows. An id that subscribed before is left
without a list or with a subscription that nothing is sent on (`early_subscriber_lost`).

`Start` and `Subscribe` each hold one lock from their first access to their last. They take the two
locks in opposite orders, so they can also wait for each other forever; in a run of the model they do
not, and each of them is one action. `AddBlockToTrack` is split at its three accesses.
-/

namespace AggKit.ReorgDetector

open Table List Function

variable {I H : Type} [DecidableEq I]

/-- `newHeadersList`. -/
def newHeadersList (headers : List (Header H)) : HeadersList H :=
  headers.foldl (fun hl hdr => hl.upsert hdr) Keyed.empty

/-- The headers of a subscriber among rows of the table. -/
def headersOf (id : I) (rows : List (I × Header H)) : List (Header H) :=
  (rows.filter fun r => decide (r.1 = id)).map Prod.snd

/-- `getTrackedBlocks`: a list for every id with rows. -/
def getTrackedBlocks (rows : List (I × Header H)) (id : I) : Option (HeadersList H) :=
  match headersOf id rows with
  | [] => none
  | headers => some (newHeadersList headers)

/-- The detector while it is started. The subscription objects of an id are told apart by the call in
which they were made. -/
structure Detector (I H : Type) where
  trackedBlocks : I → Option (HeadersList H)
  subscriptions : I → Option ℕ
  /-- The number of calls that have made subscriptions. -/
  made : ℕ
  /-- The table `tracked_block`. -/
  trackedBlock : List (I × Header H)
  /-- Calls of `AddBlockToTrack` before their access to memory. -/
  saving : List (I × Header H)
  /-- Calls of `AddBlockToTrack` before their access to the table. -/
  inserting : List (I × Header H)
  /-- What `Subscribe` has returned. -/
  returned : List (I × ℕ)
  /-- The rows that `Start` has read. -/
  loaded : List (I × Header H)
  /-- The headers that were put in memory since. -/
  added : List (I × Header H)

/-- The calls, `AddBlockToTrack` with one action for each access. -/
inductive Call (I H : Type) where
  /-- `Start` -/
  | start
  /-- `Subscribe` -/
  | subscribe (id : I)
  /-- `AddBlockToTrack`, the lookup of the block. -/
  | addBlockToTrack (id : I) (hdr : Header H)
  /-- `saveTrackedBlock`, the access to memory. -/
  | save (id : I) (hdr : Header H)
  /-- `saveTrackedBlock`, the access to the table. -/
  | insert (id : I) (hdr : Header H)

namespace Detector

/-- `New` on a database. -/
def new (rows : List (I × Header H)) : Detector I H :=
  ⟨fun _ => none, fun _ => none, 0, rows, [], [], [], [], []⟩

/-- `loadTrackedHeaders`. -/
def loadTrackedHeaders (s : Detector I H) : Detector I H :=
  let trackedBlocks := getTrackedBlocks s.trackedBlock
  { s with
    trackedBlocks
    subscriptions := fun id => if (trackedBlocks id).isSome then some s.made else s.subscriptions id
    made := s.made + 1, loaded := s.trackedBlock, added := [] }

/-- `Subscribe`. -/
def subscribe (s : Detector I H) (id : I) : Detector I H :=
  match s.subscriptions id with
  | some sub => { s with returned := s.returned ++ [(id, sub)] }
  | none =>
    { s with
      subscriptions := update s.subscriptions id (some s.made)
      trackedBlocks := update s.trackedBlocks id (some Keyed.empty)
      made := s.made + 1, returned := s.returned ++ [(id, s.made)] }

/-- The access of `saveTrackedBlock` to memory. -/
def save (s : Detector I H) (id : I) (hdr : Header H) : Detector I H :=
  { s with
    trackedBlocks := update s.trackedBlocks id
      (some (((s.trackedBlocks id).getD Keyed.empty).upsert hdr))
    inserting := s.inserting ++ [(id, hdr)], added := s.added ++ [(id, hdr)] }

variable [DecidableEq H]

/-- One action. An access of `AddBlockToTrack` comes after the one before it. -/
def step (s : Detector I H) : Call I H → Detector I H
  | .start => s.loadTrackedHeaders
  | .subscribe id => s.subscribe id
  | .addBlockToTrack id hdr =>
    match s.trackedBlocks id with
    -- The error: the subscriber is not subscribed.
    | none => s
    | some hl => if hdr ∈ hl.rows then s else { s with saving := s.saving ++ [(id, hdr)] }
  | .save id hdr =>
    if (id, hdr) ∈ s.saving then { s.save id hdr with saving := s.saving.erase (id, hdr) } else s
  | .insert id hdr =>
    if (id, hdr) ∈ s.inserting then
      { s with
        trackedBlock := s.trackedBlock ++ [(id, hdr)]
        inserting := s.inserting.erase (id, hdr) }
    else s

/-- `Start` is called before anyone subscribes. -/
def Fine (s : Detector I H) : Call I H → Prop
  | .start => ∀ id, s.subscriptions id = none
  | _ => True

/-- Every subscriber tracks the headers that `Start` has read and those added since, and holds the
subscription that its reorgs are sent on. -/
def Served (s : Detector I H) : Prop :=
  ∀ id sub, (id, sub) ∈ s.returned → s.subscriptions id = some sub ∧
    s.trackedBlocks id = some (newHeadersList (headersOf id (s.loaded ++ s.added)))

/-- What holds in every state of a run of fine calls. -/
structure Inv (s : Detector I H) : Prop where
  lists : ∀ id, s.trackedBlocks id =
    (s.subscriptions id).map fun _ => newHeadersList (headersOf id (s.loaded ++ s.added))
  unsubscribed : ∀ id, s.subscriptions id = none → headersOf id (s.loaded ++ s.added) = []
  returned : ∀ id sub, (id, sub) ∈ s.returned → s.subscriptions id = some sub
  saving : ∀ id hdr, (id, hdr) ∈ s.saving → s.subscriptions id ≠ none

variable {s : Detector I H}

section

omit [DecidableEq H]

theorem Inv.served (h : s.Inv) : s.Served := by
  intro id sub hmem
  have hsub := h.returned id sub hmem
  exact ⟨hsub, by rw [h.lists, hsub, Option.map_some]⟩

theorem Inv.loadTrackedHeaders (h : s.Inv) (hnone : ∀ id, s.subscriptions id = none) :
    s.loadTrackedHeaders.Inv := by
  have hlist : ∀ id, getTrackedBlocks s.trackedBlock id = none ∧ headersOf id s.trackedBlock = [] ∨
      getTrackedBlocks s.trackedBlock id = some (newHeadersList (headersOf id s.trackedBlock)) := by
    intro id
    unfold getTrackedBlocks
    split
    · exact .inl ⟨rfl, ‹_›⟩
    · exact .inr rfl
  refine ⟨fun id => ?_, fun id hid => ?_, fun id sub hmem => ?_, fun id hdr hmem => ?_⟩
  · rcases hlist id with ⟨heq, -⟩ | heq <;> simp [Detector.loadTrackedHeaders, heq, hnone]
  · rcases hlist id with ⟨-, hempty⟩ | heq
    · simpa [Detector.loadTrackedHeaders] using hempty
    · simp [Detector.loadTrackedHeaders, heq] at hid
  -- Nothing was returned and nothing is being added, since no one has subscribed.
  · cases (hnone id).symm.trans (h.returned id sub hmem)
  · exact absurd (hnone id) (h.saving id hdr hmem)

theorem Inv.subscribe (h : s.Inv) (id : I) : (s.subscribe id).Inv := by
  unfold Detector.subscribe
  split
  · rename_i sub hsub
    refine ⟨h.lists, h.unsubscribed, fun id' sub' hmem => ?_, h.saving⟩
    rcases mem_append.mp hmem with hmem | hmem
    · exact h.returned id' sub' hmem
    · obtain ⟨rfl, rfl⟩ := Prod.mk.inj (mem_singleton.mp hmem)
      exact hsub
  · rename_i hnone
    -- Others keep their subscriptions, and of this id no header has been read or added.
    have hothers : ∀ id', s.subscriptions id' ≠ none →
        update s.subscriptions id (some s.made) id' = s.subscriptions id' := fun id' hne =>
      update_of_ne (fun heq => hne (by rw [heq, hnone])) _ _
    have hempty := h.unsubscribed id hnone
    refine ⟨fun id' => ?_, fun id' hid' => ?_, fun id' sub' hmem => ?_, fun id' hdr hmem => ?_⟩
    · by_cases hid : id' = id
      · simp [hid, hempty, newHeadersList]
      · simpa only [update_of_ne hid] using h.lists id'
    · by_cases hid : id' = id
      · exact hid ▸ hempty
      · exact h.unsubscribed id' ((update_of_ne hid _ _).symm.trans hid')
    · rcases mem_append.mp hmem with hmem | hmem
      · have hold := h.returned id' sub' hmem
        exact (hothers id' (by simp [hold])).trans hold
      · obtain ⟨rfl, rfl⟩ := Prod.mk.inj (mem_singleton.mp hmem)
        exact update_self ..
    · have hne := h.saving id' hdr hmem
      exact (hothers id' hne).trans_ne hne

theorem Inv.save (h : s.Inv) {id : I} {hdr : Header H} (hmem : (id, hdr) ∈ s.saving) :
    (s.save id hdr).Inv := by
  have hsub := h.saving id hdr hmem
  have hadded : ∀ id', headersOf id' (s.loaded ++ (s.added ++ [(id, hdr)])) =
      headersOf id' (s.loaded ++ s.added) ++ if id = id' then [hdr] else [] := by
    intro id'
    split <;> simp [headersOf, *]
  refine ⟨fun id' => ?_, fun id' hid' => ?_, h.returned, h.saving⟩
  · obtain ⟨sub, hsub⟩ := Option.ne_none_iff_exists'.mp hsub
    by_cases hid : id' = id
    · subst hid
      simp only [Detector.save, update_self, hadded, h.lists, hsub, newHeadersList,
        Option.map_some, Option.getD_some, if_true, foldl_append, foldl_cons,
        foldl_nil]
    · simp only [Detector.save, update_of_ne hid, hadded, if_neg (Ne.symm hid),
        append_nil]
      exact h.lists id'
  · have hne : id ≠ id' := fun heq => hsub (heq ▸ hid')
    simp only [Detector.save, hadded, if_neg hne, append_nil]
    exact h.unsubscribed id' hid'

end

/-- Every fine call keeps the invariant. -/
theorem Inv.step {c : Call I H} (h : s.Inv) (hfine : s.Fine c) : (s.step c).Inv := by
  cases c with
  | start => exact h.loadTrackedHeaders hfine
  | subscribe id => exact h.subscribe id
  | addBlockToTrack id hdr =>
    simp only [Detector.step]
    split
    · exact h
    · rename_i hl hlist
      split
      · exact h
      · refine ⟨h.lists, h.unsubscribed, h.returned, fun id' hdr' hmem => ?_⟩
        rcases mem_append.mp hmem with hmem | hmem
        · exact h.saving id' hdr' hmem
        · obtain ⟨rfl, rfl⟩ := Prod.mk.inj (mem_singleton.mp hmem)
          intro hnone
          rw [h.lists, hnone] at hlist
          cases hlist
  | save id hdr =>
    simp only [Detector.step]
    split
    · rename_i hmem
      have hsaved := h.save hmem
      exact ⟨hsaved.lists, hsaved.unsubscribed, hsaved.returned, fun id' hdr' hmem' =>
        hsaved.saving id' hdr' (mem_of_mem_erase hmem')⟩
    · exact h
  | insert id hdr =>
    simp only [Detector.step]
    split
    · exact ⟨h.lists, h.unsubscribed, h.returned, h.saving⟩
    · exact h

/-- In every state of a run in which `Start` is called before anyone subscribes, every subscriber
tracks the headers of the table and those added since, and holds the subscription that its reorgs are
sent on. -/
theorem subscribers_served {rows : List (I × Header H)}
    (hrun : Run.Reach step Fine (new rows) s) : s.Served := by
  have hnew : (new rows : Detector I H).Inv :=
    ⟨fun _ => rfl, fun _ _ => rfl, fun _ _ hmem => (nomatch hmem), fun _ _ hmem => (nomatch hmem)⟩
  exact (hrun.invariant hnew fun _ _ hinv hfine => hinv.step hfine).served

/-- `Start` on a table with block 5, then a subscription and block 6. -/
theorem subscribers_served_two : ∃ s : Detector Unit ℕ,
    Run.Reach step Fine (new [((), ⟨5, 1⟩)]) s ∧ ((), 0) ∈ s.returned ∧
      s.trackedBlocks () = some (newHeadersList [⟨5, 1⟩, ⟨6, 1⟩]) := by
  have hrun : Run.Reach step Fine (new [((), ⟨5, 1⟩)]) (List.foldl step (new [((), (⟨5, 1⟩ : Header ℕ))])
      [.start, .subscribe (), .addBlockToTrack () ⟨6, 1⟩, .save () ⟨6, 1⟩]) :=
    Run.Reach.of_along ⟨fun _ => rfl, trivial, trivial, trivial, trivial⟩
  have hmem : ((), 0) ∈ (List.foldl step (new [((), (⟨5, 1⟩ : Header ℕ))])
      [.start, .subscribe (), .addBlockToTrack () ⟨6, 1⟩, .save () ⟨6, 1⟩]).returned := by decide
  exact ⟨_, hrun, hmem, (subscribers_served hrun () 0 hmem).2⟩

/-- An id without rows that subscribes before `Start` has no list afterwards and can track nothing. One
with rows has a subscription that is not the one that its reorgs are sent on. -/
theorem early_subscriber_lost :
    (∃ s : Detector Unit ℕ, s = List.foldl step (new []) [.subscribe (), .start] ∧
      ((), 0) ∈ s.returned ∧ s.trackedBlocks () = none ∧ ¬s.Served) ∧
    ∃ s : Detector Unit ℕ, s = List.foldl step (new [((), ⟨5, 1⟩)]) [.subscribe (), .start] ∧
      ((), 0) ∈ s.returned ∧ s.subscriptions () = some 1 ∧ ¬s.Served := by
  refine ⟨⟨_, rfl, by decide, rfl, fun hserved => ?_⟩, _, rfl, by decide, rfl, fun hserved => ?_⟩
  · cases (hserved () 0 (by decide)).2
  · cases (hserved () 0 (by decide)).1

end Detector

end AggKit.ReorgDetector
