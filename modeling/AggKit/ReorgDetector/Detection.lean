import AggKit.ReorgDetector.Model

/-!
# A change of a tracked block is not missed

`tracked_until_notified`: once the node has another hash for a tracked block than the tracked one,
the block stays tracked, in memory and in the table, until the subscriber is notified of a reorg
that starts at the block or before it; and no goroutine that starts after the change ends without
that notification, unless it meets an error.

This is over every interleaving in which `AddBlockToTrack` keeps away from two situations, and the
node does not go back to a tracked hash. Both situations lose a tracked block:

* A number that is tracked gets another hash. Only the new hash is in memory then, and a pass finds
  nothing wrong with it (`overwritten_block_missed`). `WaitForNewBlocks` does just that when it sees
  that the hash of a tracked block has changed.
* A number is tracked again after the notification of a reorg and before its range has been removed.
  The removal then takes the new block with it (`retracked_block_removed`). The subscriber restarts
  before the range is removed.
-/

namespace AggKit.ReorgDetector

open Table List Function

variable {I H : Type} [DecidableEq I] [DecidableEq H]

/-! ## What an action does -/

namespace State

/-- The actions of the goroutine of `id`: its next point, and the rest of the state. -/
inductive Goes (s : State I H) (id : I) : Action I H → Check H → State I H → Prop
  | launch {pass : Pass I} {hl : HeadersList H} {toBlock : ℕ} {subscriberIDs : List I}
      (hpass : s.pass = some pass) (hlist : s.trackedBlocks id = some hl) :
      s.Goes id (.launch id)
        (.checking pass.lastFinalizedBlock (HeadersList.getSorted hl) toBlock)
        { s with pass := some { pass with subscriberIDs := subscriberIDs } }
  | fetch {f toBlock : ℕ} {hdr : Header H} {headers : List (Header H)}
      (hcheck : s.checks id = .checking f (hdr :: headers) toBlock) :
      s.Goes id (.fetch id) (.fetched f hdr (s.canonical hdr.num) headers toBlock) s
  | same {f toBlock : ℕ} {hdr : Header H} {headers : List (Header H)} {current : H}
      {headersCache : ℕ → Option H}
      (hcheck : s.checks id = .fetched f hdr current headers toBlock)
      (hhash : current = hdr.hash) :
      s.Goes id (.compare id) (.checking f headers toBlock) { s with headersCache := headersCache }
  | final {f toBlock : ℕ} {hdr : Header H} {headers : List (Header H)} {current : H}
      {headersCache : ℕ → Option H}
      (hcheck : s.checks id = .fetched f hdr current headers toBlock)
      (hhash : current = hdr.hash) (hfinal : hdr.num ≤ f) :
      s.Goes id (.compare id) (.final f hdr headers toBlock)
        { s with headersCache := headersCache }
  | reorged {f toBlock : ℕ} {hdr : Header H} {headers : List (Header H)} {current : H}
      {headersCache : ℕ → Option H}
      (hcheck : s.checks id = .fetched f hdr current headers toBlock) :
      s.Goes id (.compare id) (.reorged hdr.num toBlock) { s with headersCache := headersCache }
  | removeFinal {f toBlock : ℕ} {hdr : Header H} {headers : List (Header H)}
      (hcheck : s.checks id = .final f hdr headers toBlock) :
      s.Goes id (.removeFinal id) (.finalDB f hdr headers toBlock)
        (s.modifyHeaders id (HeadersList.removeRange · hdr.num hdr.num))
  | removeFinalDB {f toBlock : ℕ} {hdr : Header H} {headers : List (Header H)}
      (hcheck : s.checks id = .finalDB f hdr headers toBlock) :
      s.Goes id (.removeFinalDB id) (.checking f headers toBlock)
        (s.removeTrackedBlockRange id hdr.num hdr.num)
  | notify {fromBlock toBlock : ℕ} (hcheck : s.checks id = .reorged fromBlock toBlock) :
      s.Goes id (.notify id fromBlock) (.notified fromBlock toBlock) s
  | removeDB {fromBlock toBlock : ℕ} (hcheck : s.checks id = .notified fromBlock toBlock) :
      s.Goes id (.removeDB id) (.removedDB fromBlock toBlock)
        (s.removeTrackedBlockRange id fromBlock toBlock)
  | remove {fromBlock toBlock : ℕ} (hcheck : s.checks id = .removedDB fromBlock toBlock) :
      s.Goes id (.remove id) (.removed fromBlock toBlock)
        (s.modifyHeaders id (HeadersList.removeRange · fromBlock toBlock))
  | cleanCache {fromBlock toBlock : ℕ} {headersCache : ℕ → Option H}
      (hcheck : s.checks id = .removed fromBlock toBlock) :
      s.Goes id (.cleanCache id) .idle { s with headersCache := headersCache }
  | fail : s.Goes id (.fail id) .idle s
  | finish {f toBlock : ℕ} (hcheck : s.checks id = .checking f [] toBlock) :
      s.Goes id (.finish id) .idle s

/-- The other actions: what they leave of the state. -/
inductive Serves (s : State I H) : Action I H → State I H → Prop
  | reorg {canonical : ℕ → H} : s.Serves (.reorg canonical)
      { s with canonical := fun n => if n ≤ s.finalized then s.canonical n else canonical n }
  | finalize {block : ℕ} : s.Serves (.finalize block) { s with finalized := max s.finalized block }
  | subscribed {id : I} : s.Serves (.subscribe id) s
  | subscribe {id : I} (hnew : id ∉ s.subscriptions) : s.Serves (.subscribe id)
      { s with
        subscriptions := s.subscriptions ++ [id]
        trackedBlocks := update s.trackedBlocks id (some Keyed.empty) }
  | addBlockToTrack {id : I} {hdr : Header H} {adding : List (I × Header H)} :
      s.Serves (.addBlockToTrack id hdr) { s with adding := adding }
  | add {id : I} {hdr : Header H} {adding inserting : List (I × Header H)} :
      s.Serves (.add id hdr)
        { s.modifyHeaders id (·.upsert hdr) with adding := adding, inserting := inserting }
  | insert {id : I} {hdr : Header H} {inserting : List (I × Header H)} :
      s.Serves (.insert id hdr)
        { s with trackedBlock := s.trackedBlock ++ [(id, hdr)], inserting := inserting }
  | startPass : s.Serves .startPass { s with pass := some ⟨s.finalized, s.subscriptions⟩ }
  | endPass : s.Serves .endPass { s with pass := none }

variable {s s' : State I H}

theorem compare_cases {id : I} (h : s.compare id = some s') :
    ∃ c s₁, s.Goes id (.compare id) c s₁ ∧ s' = s₁.setCheck id c := by
  unfold compare at h
  split at h
  · rename_i f hdr current headers toBlock hcheck
    cases h
    split_ifs with hsame hfinal
    · exact ⟨_, _, .final hcheck hsame.2 hfinal, rfl⟩
    · exact ⟨_, _, .same hcheck hsame.2, rfl⟩
    · exact ⟨_, _, .reorged hcheck, rfl⟩
  · cases h

omit [DecidableEq H] in
theorem launch_cases {id : I} (h : s.launch id = some s') :
    ∃ c s₁, s.Goes id (.launch id) c s₁ ∧ s' = s₁.setCheck id c := by
  unfold launch at h
  split at h
  · rename_i pass hl hpass hlist
    split_ifs at h
    exact ⟨_, _, .launch hpass hlist, (Option.some.inj h).symm⟩
  · cases h

/-- Every action is one of a goroutine or one of the others. -/
theorem step_cases {a : Action I H} (h : s.step a = some s') :
    (∃ id c s₁, s.Goes id a c s₁ ∧ s' = s₁.setCheck id c) ∨ s.Serves a s' := by
  cases a with
  | reorg canonical => exact .inr (Option.some.inj h ▸ .reorg)
  | finalize block => exact .inr (Option.some.inj h ▸ .finalize)
  | subscribe id =>
    simp only [step] at h
    split_ifs at h with hmem
    · exact .inr (Option.some.inj h ▸ .subscribed)
    · exact .inr (Option.some.inj h ▸ .subscribe (by simpa using hmem))
  | addBlockToTrack id hdr =>
    obtain ⟨hl, -, rfl⟩ := Option.map_eq_some_iff.mp h
    split_ifs <;> exact .inr .addBlockToTrack
  | add id hdr =>
    simp only [step, add] at h
    split_ifs at h
    exact .inr (Option.some.inj h ▸ .add)
  | insert id hdr =>
    simp only [step, insert] at h
    split_ifs at h
    exact .inr (Option.some.inj h ▸ .insert)
  | startPass =>
    simp only [step] at h
    split at h
    · exact .inr (Option.some.inj h ▸ .startPass)
    · cases h
  | endPass =>
    simp only [step] at h
    split at h
    · split_ifs at h
      exact .inr (Option.some.inj h ▸ .endPass)
    · cases h
  | launch id => exact .inl ⟨id, launch_cases h⟩
  | compare id => exact .inl ⟨id, compare_cases h⟩
  | notify id startingBlock =>
    simp only [step] at h
    split at h
    · rename_i fromBlock toBlock hcheck
      split_ifs at h with hstart
      subst hstart
      exact .inl ⟨id, _, _, .notify hcheck, (Option.some.inj h).symm⟩
    · cases h
  | fetch id | removeFinal id | removeFinalDB id | removeDB id | remove id | cleanCache id
  | finish id =>
    simp only [step] at h
    split at h
    · rename_i hcheck
      cases h
      exact .inl ⟨id, _, _, by constructor; exact hcheck, rfl⟩
    · cases h
  | fail id =>
    simp only [step] at h
    split at h
    · cases h
    · exact .inl ⟨id, _, _, .fail, (Option.some.inj h).symm⟩

end State

/-! ## Tracked blocks -/

omit [DecidableEq I] [DecidableEq H] in
/-- The subscriber tracks the block in memory. -/
def State.Tracked (s : State I H) (id : I) (hdr : Header H) : Prop :=
  ∃ hl, s.trackedBlocks id = some hl ∧ hdr ∈ hl.rows

omit [DecidableEq I] [DecidableEq H] in
/-- The subscriber tracks the block, in memory and in the table. -/
def State.Tracks (s : State I H) (id : I) (hdr : Header H) : Prop :=
  s.Tracked id hdr ∧ (id, hdr) ∈ s.trackedBlock

section tracked

variable {s : State I H} {id id' : I} {hdr hdr' : Header H} {fromBlock toBlock : ℕ}

omit [DecidableEq I] [DecidableEq H] in
/-- A subscriber tracks one hash for a number. -/
theorem State.Tracked.eq (h : s.Tracked id hdr) (h' : s.Tracked id hdr') (hnum : hdr.num = hdr'.num) :
    hdr = hdr' := by
  obtain ⟨hl, hlist, hmem⟩ := h
  obtain ⟨hl', hlist', hmem'⟩ := h'
  obtain rfl : hl = hl' := Option.some.inj (hlist.symm.trans hlist')
  exact hl.eq_of_key_eq hmem hmem' hnum

section

omit [DecidableEq H]

theorem State.Tracked.modifyHeaders_of_ne (h : s.Tracked id' hdr) (hne : id' ≠ id)
    (f : HeadersList H → HeadersList H) : (s.modifyHeaders id f).Tracked id' hdr := by
  obtain ⟨hl, hlist, hmem⟩ := h
  exact ⟨hl, (update_of_ne hne _ _).trans hlist, hmem⟩

theorem State.Tracked.removeRange (h : s.Tracked id' hdr)
    (hrange : id' = id → ¬(fromBlock ≤ hdr.num ∧ hdr.num ≤ toBlock)) :
    (s.modifyHeaders id (HeadersList.removeRange · fromBlock toBlock)).Tracked id' hdr := by
  by_cases hid : id' = id
  · subst hid
    obtain ⟨hl, hlist, hmem⟩ := h
    refine ⟨hl.removeRange fromBlock toBlock, ?_, mem_deleteWhere.mpr ⟨hmem, ?_⟩⟩
    · simp [State.modifyHeaders, hlist]
    · exact decide_eq_false (hrange rfl)
  · exact h.modifyHeaders_of_ne hid _

/-- A block stays tracked when one with another number, or itself, is added. -/
theorem State.Tracked.upsert (h : s.Tracked id' hdr)
    (hsame : id' = id → hdr.num = hdr'.num → hdr = hdr') :
    (s.modifyHeaders id (·.upsert hdr')).Tracked id' hdr := by
  by_cases hid : id' = id
  · subst hid
    obtain ⟨hl, hlist, hmem⟩ := h
    refine ⟨hl.upsert hdr', ?_, Keyed.mem_upsert.mpr ?_⟩
    · simp [State.modifyHeaders, hlist]
    · by_cases hnum : hdr.num = hdr'.num
      · exact .inl (hsame rfl hnum)
      · exact .inr ⟨hmem, hnum⟩
  · exact h.modifyHeaders_of_ne hid _

theorem State.mem_removeTrackedBlockRange (h : (id', hdr) ∈ s.trackedBlock)
    (hrange : id' = id → ¬(fromBlock ≤ hdr.num ∧ hdr.num ≤ toBlock)) :
    (id', hdr) ∈ (s.removeTrackedBlockRange id fromBlock toBlock).trackedBlock := by
  refine mem_deleteWhere.mpr ⟨h, decide_eq_false ?_⟩
  rintro ⟨hnum, hid⟩
  exact hrange hid hnum

end

end tracked

/-! ## The condition, and what holds under it -/

/-- The range that the goroutine is removing after a notification contains the number. -/
def Check.Removing (n : ℕ) : Check H → Prop
  | .notified fromBlock toBlock => fromBlock ≤ n ∧ n ≤ toBlock
  | .removedDB fromBlock toBlock => fromBlock ≤ n ∧ n ≤ toBlock
  | _ => False

/-- The condition on an action: a block that is added has the hash with which its number is tracked,
if it is, and is not in a range that is being removed; and a change of the chain does not bring a
tracked hash back. -/
def State.Fine (s : State I H) : Action I H → Prop
  | .add id hdr => (∀ hdr', s.Tracked id hdr' → hdr'.num = hdr.num → hdr' = hdr) ∧
      ¬(s.checks id).Removing hdr.num
  | .reorg canonical => ∀ id hdr, s.Tracked id hdr → s.canonical hdr.num ≠ hdr.hash →
      canonical hdr.num ≠ hdr.hash
  | _ => True

/-- A block that is added has the hash with which its number is tracked, if it is. -/
def State.Agrees (s : State I H) (a : Action I H) : Prop :=
  ∀ id hdr, a = .add id hdr → ∀ hdr', s.Tracked id hdr' → hdr'.num = hdr.num → hdr' = hdr

omit [DecidableEq I] [DecidableEq H] in
theorem State.Fine.agrees {s : State I H} {a : Action I H} (h : s.Fine a) : s.Agrees a := by
  rintro id hdr rfl
  exact h.1

/-- The headers that a goroutine still has to check are tracked, in order. -/
def State.Ahead (s : State I H) (id : I) (headers : List (Header H)) : Prop :=
  headers.Pairwise (·.num < ·.num) ∧ ∀ hdr ∈ headers, s.Tracked id hdr

/-- What holds at a point of a goroutine. -/
def State.CheckOk (s : State I H) (id : I) : Check H → Prop
  | .checking f headers _ => f ≤ s.finalized ∧ s.Ahead id headers
  | .fetched f hdr _ headers _ => f ≤ s.finalized ∧ s.Ahead id (hdr :: headers)
  | .final f hdr headers _ => (hdr.num ≤ f ∧ f ≤ s.finalized) ∧ s.Ahead id (hdr :: headers)
  | .finalDB f hdr headers _ => (hdr.num ≤ f ∧ f ≤ s.finalized) ∧ s.Ahead id headers
  | _ => True

/-- The invariant of the detector. -/
structure State.Inv (s : State I H) : Prop where
  pass_le : ∀ pass, s.pass = some pass → pass.lastFinalizedBlock ≤ s.finalized
  checks : ∀ id, s.CheckOk id (s.checks id)
  subscribed : ∀ id, s.trackedBlocks id ≠ none → id ∈ s.subscriptions

section invariant

variable {s s' s₁ : State I H} {id id' : I} {a : Action I H} {c : Check H}

omit [DecidableEq I] [DecidableEq H] in
theorem State.Inv.checkOk (hinv : s.Inv) (hcheck : s.checks id = c) : s.CheckOk id c :=
  hcheck ▸ hinv.checks id

omit [DecidableEq I] [DecidableEq H] in
/-- What holds at a point of a goroutine goes on to hold as long as its headers are tracked. -/
theorem State.CheckOk.mono (h : s.CheckOk id c) (hfinalized : s.finalized ≤ s'.finalized)
    (htracked : ∀ hdr, s.Tracked id hdr → s'.Tracked id hdr) : s'.CheckOk id c := by
  have hahead : ∀ {headers}, s.Ahead id headers → s'.Ahead id headers := fun hah =>
    ⟨hah.1, fun hdr hdr' => htracked hdr (hah.2 hdr hdr')⟩
  cases c with
  | checking | fetched => exact ⟨h.1.trans hfinalized, hahead h.2⟩
  | final | finalDB => exact ⟨⟨h.1.1, h.1.2.trans hfinalized⟩, hahead h.2⟩
  | idle | reorged | notified | removedDB | removed => exact trivial

omit [DecidableEq I] [DecidableEq H] in
/-- The headers of a goroutine that starts. -/
theorem State.ahead_getSorted {hl : HeadersList H} (h : s.trackedBlocks id = some hl) :
    s.Ahead id hl.getSorted :=
  ⟨hl.pairwise_lt_orderBy, fun _ hmem => ⟨hl, h, mem_orderBy.mp hmem⟩⟩

section

omit [DecidableEq H]

/-- The next point of a goroutine. -/
theorem State.Inv.goes (hinv : s.Inv) (hgoes : s.Goes id a c s₁) :
    (s₁.setCheck id c).CheckOk id c := by
  cases hgoes with
  | launch hpass hlist => exact ⟨hinv.pass_le _ hpass, State.ahead_getSorted hlist⟩
  | fetch hcheck => exact hinv.checkOk hcheck
  | same hcheck =>
    have hok := hinv.checkOk hcheck
    exact ⟨hok.1, hok.2.1.of_cons, fun hdr' h' => hok.2.2 hdr' (.tail _ h')⟩
  | final hcheck _ hfinal =>
    have hok := hinv.checkOk hcheck
    exact ⟨⟨hfinal, hok.1⟩, hok.2⟩
  | @removeFinal f toBlock hdr headers hcheck =>
    obtain ⟨hbounds, hsorted, htracked⟩ := hinv.checkOk hcheck
    -- the headers that are left have higher numbers than the one that is removed
    refine ⟨hbounds, hsorted.of_cons, fun hdr' h' => ?_⟩
    have hlt := rel_of_pairwise_cons hsorted h'
    exact (htracked hdr' (.tail _ h')).removeRange fun _ => by omega
  | removeFinalDB hcheck => exact ⟨(hinv.checkOk hcheck).1.2, (hinv.checkOk hcheck).2⟩
  | reorged | notify | removeDB | remove | cleanCache | fail | finish => exact trivial

theorem State.modifyHeaders_eq_none {f : HeadersList H → HeadersList H}
    (h : s.trackedBlocks id' = none) : (s.modifyHeaders id f).trackedBlocks id' = none := by
  by_cases hid : id' = id
  · subst hid
    show update s.trackedBlocks id' ((s.trackedBlocks id').map f) id' = none
    rw [update_self, h]
    rfl
  · exact (update_of_ne hid _ _).trans h

/-- What an action of a goroutine leaves. -/
theorem State.Goes.frame (hgoes : s.Goes id a c s₁) :
    s₁.finalized = s.finalized ∧ s₁.canonical = s.canonical ∧ s₁.checks = s.checks ∧
      s₁.subscriptions = s.subscriptions ∧
      (∀ id', s.trackedBlocks id' = none → s₁.trackedBlocks id' = none) ∧
      ∀ pass, s₁.pass = some pass → ∃ pass', s.pass = some pass' ∧
        pass.lastFinalizedBlock = pass'.lastFinalizedBlock := by
  cases hgoes with
  | @launch pass hl toBlock subscriberIDs hpass hlist =>
    refine ⟨rfl, rfl, rfl, rfl, fun _ h => h, fun pass' h => ⟨pass, hpass, ?_⟩⟩
    rw [← Option.some.inj h]
  | removeFinal | remove =>
    exact ⟨rfl, rfl, rfl, rfl, fun _ h => State.modifyHeaders_eq_none h, fun pass h => ⟨pass, h, rfl⟩⟩
  | fetch | same | final | reorged | removeFinalDB | notify | removeDB | cleanCache | fail
  | finish => exact ⟨rfl, rfl, rfl, rfl, fun _ h => h, fun pass h => ⟨pass, h, rfl⟩⟩

/-- What an action of a goroutine leaves to the other subscribers. -/
theorem State.Goes.others (hgoes : s.Goes id a c s₁) (hne : id' ≠ id) (hdr : Header H) :
    (s.Tracked id' hdr → s₁.Tracked id' hdr) ∧
      ((id', hdr) ∈ s.trackedBlock → (id', hdr) ∈ s₁.trackedBlock) := by
  have hnot : ∀ {p : Prop}, id' = id → p := fun h => absurd h hne
  cases hgoes with
  | removeFinal | remove => exact ⟨fun h => h.modifyHeaders_of_ne hne _, fun h => h⟩
  | removeFinalDB | removeDB =>
    exact ⟨fun h => h, fun h => State.mem_removeTrackedBlockRange h hnot⟩
  | launch | fetch | same | final | reorged | notify | cleanCache | fail | finish =>
    exact ⟨fun h => h, fun h => h⟩

/-- The other actions leave every tracked block tracked. -/
theorem State.Serves.frame (hinv : s.Inv) (hagrees : s.Agrees a) (hserves : s.Serves a s') :
    s.finalized ≤ s'.finalized ∧ (∀ id hdr, s.Tracked id hdr → s'.Tracked id hdr) ∧
      (∀ row ∈ s.trackedBlock, row ∈ s'.trackedBlock) ∧
      ∀ n ≤ s.finalized, s'.canonical n = s.canonical n := by
  cases hserves with
  | reorg => exact ⟨le_rfl, fun _ _ h => h, fun _ h => h, fun n hn => if_pos hn⟩
  | finalize => exact ⟨le_max_left _ _, fun _ _ h => h, fun _ h => h, fun _ _ => rfl⟩
  | @subscribe id hnew =>
    refine ⟨le_rfl, fun id' hdr h => ?_, fun _ h => h, fun _ _ => rfl⟩
    obtain ⟨hl, hlist, hmem⟩ := h
    have hne : id' ≠ id := by
      rintro rfl
      exact hnew (hinv.subscribed id' (by rw [hlist]; simp))
    exact ⟨hl, (update_of_ne hne _ _).trans hlist, hmem⟩
  | @add id hdr adding inserting =>
    refine ⟨le_rfl, fun id' hdr' h => ?_, fun _ h => h, fun _ _ => rfl⟩
    have hkept : (s.modifyHeaders id (·.upsert hdr)).Tracked id' hdr' :=
      h.upsert fun hid hnum => hagrees id hdr rfl hdr' (hid ▸ h) hnum
    exact hkept
  | insert =>
    exact ⟨le_rfl, fun _ _ h => h, fun _ h => mem_append_left _ h, fun _ _ => rfl⟩
  | subscribed | addBlockToTrack | startPass | endPass =>
    exact ⟨le_rfl, fun _ _ h => h, fun _ h => h, fun _ _ => rfl⟩

end

/-- For a subscriber, an action is one of its goroutine, or leaves that goroutine where it is and what
the subscriber tracks tracked. -/
theorem State.step_cases_of (h : s.step a = some s') (id : I) :
    (∃ c s₁, s.Goes id a c s₁ ∧ s' = s₁.setCheck id c ∧ s'.checks id = c) ∨
      s'.checks id = s.checks id ∧ a ≠ .finish id ∧ (s.Inv → s.Agrees a → ∀ hdr,
        (s.Tracked id hdr → s'.Tracked id hdr) ∧
          ((id, hdr) ∈ s.trackedBlock → (id, hdr) ∈ s'.trackedBlock)) := by
  rcases State.step_cases h with ⟨id', c, s₁, hgoes, rfl⟩ | hserves
  · by_cases hid : id = id'
    · subst hid
      exact .inl ⟨c, s₁, hgoes, rfl, update_self ..⟩
    · refine .inr ⟨?_, ?_, fun _ _ hdr => hgoes.others hid hdr⟩
      · show update s₁.checks id' c id = s.checks id
        rw [update_of_ne hid, hgoes.frame.2.2.1]
      · rintro rfl
        cases hgoes
        exact hid rfl
  · refine .inr ⟨by cases hserves <;> rfl, ?_, fun hinv hagrees hdr => ?_⟩
    · rintro rfl
      cases hserves
    · obtain ⟨-, htracked, hrows, -⟩ := hserves.frame hinv hagrees
      exact ⟨htracked id hdr, hrows (id, hdr)⟩

/-- No action brings the tracked hash of a changed block back. -/
theorem State.Fine.canonical_ne (hfine : s.Fine a) (h : s.step a = some s') {hdr : Header H}
    (htracked : s.Tracked id hdr) (hne : s.canonical hdr.num ≠ hdr.hash) :
    s'.canonical hdr.num ≠ hdr.hash := by
  rcases State.step_cases h with ⟨id', c, s₁, hgoes, rfl⟩ | hserves
  · exact hgoes.frame.2.1 ▸ hne
  cases hserves with
  | @reorg canonical =>
    show (if hdr.num ≤ s.finalized then s.canonical hdr.num else canonical hdr.num) ≠ hdr.hash
    split
    · exact hne
    · exact hfine id hdr htracked hne
  | finalize | subscribed | subscribe | addBlockToTrack | add | insert | startPass | endPass =>
    exact hne

/-- The chain does not change up to the finalized block. -/
theorem State.Inv.step_chain (hinv : s.Inv) (hagrees : s.Agrees a) (h : s.step a = some s') :
    s.finalized ≤ s'.finalized ∧ ∀ n ≤ s.finalized, s'.canonical n = s.canonical n := by
  rcases State.step_cases h with ⟨id, c, s₁, hgoes, rfl⟩ | hserves
  · obtain ⟨hfinalized, hcanonical, -⟩ := hgoes.frame
    exact ⟨hfinalized.ge, fun n _ => congrFun hcanonical n⟩
  · obtain ⟨hfinalized, -, -, hcanonical⟩ := hserves.frame hinv hagrees
    exact ⟨hfinalized, hcanonical⟩

/-- Every action keeps the invariant. -/
theorem State.Inv.step (hinv : s.Inv) (hagrees : s.Agrees a) (h : s.step a = some s') : s'.Inv := by
  have hfinalized := (hinv.step_chain hagrees h).1
  have hchecks : ∀ id, s'.CheckOk id (s'.checks id) := by
    intro id
    rcases State.step_cases_of h id with ⟨c, s₁, hgoes, rfl, hcheck⟩ | ⟨hcheck, -, hkept⟩
    · rw [hcheck]
      exact hinv.goes hgoes
    · rw [hcheck]
      exact (hinv.checks id).mono hfinalized fun hdr => (hkept hinv hagrees hdr).1
  rcases State.step_cases h with ⟨id, c, s₁, hgoes, rfl⟩ | hserves
  · obtain ⟨-, -, -, hsubscriptions, hnone, hpass⟩ := hgoes.frame
    refine ⟨fun pass hpass' => ?_, hchecks, fun id' htracked => ?_⟩
    · obtain ⟨pass', hs, hle⟩ := hpass pass hpass'
      rw [hle]
      exact (hinv.pass_le pass' hs).trans hfinalized
    · show id' ∈ s₁.subscriptions
      rw [hsubscriptions]
      exact hinv.subscribed id' fun hs => htracked (hnone id' hs)
  · refine ⟨fun pass hpass => ?_, hchecks, fun id' hne => ?_⟩
    · cases hserves with
      | startPass =>
        rw [← Option.some.inj hpass]
      | endPass => cases hpass
      | finalize => exact (hinv.pass_le pass hpass).trans hfinalized
      | reorg | subscribed | subscribe | addBlockToTrack | add | insert =>
        exact hinv.pass_le pass hpass
    · cases hserves with
      | @subscribe id hnew =>
        by_cases hid : id' = id
        · exact mem_append_right _ (hid ▸ .head _)
        · refine mem_append_left _ (hinv.subscribed id' fun hs => hne ?_)
          exact (update_of_ne hid _ _).trans hs
      | add => exact hinv.subscribed id' fun hs => hne (State.modifyHeaders_eq_none hs)
      | reorg | finalize | subscribed | addBlockToTrack | insert | startPass | endPass =>
        exact hinv.subscribed id' hne

omit [DecidableEq I] [DecidableEq H] in
theorem State.Inv.initial (canonical : ℕ → H) (finalized : ℕ) :
    (State.initial canonical finalized : State I H).Inv :=
  ⟨fun _ h => absurd h (by simp [State.initial]), fun _ => trivial, fun _ h => absurd rfl h⟩

end invariant

/-! ## A block whose hash has changed -/

/-- The goroutine does not remove the block `n` with hash `h`, unless it notifies first. -/
def Check.Keeps (n : ℕ) (h : H) : Check H → Prop
  | .fetched f hdr current _ _ => hdr.num = n → f < n ∨ current ≠ h
  | .final _ hdr _ _ => hdr.num ≠ n
  | .finalDB _ hdr _ _ => hdr.num ≠ n
  | .notified fromBlock toBlock => ¬(fromBlock ≤ n ∧ n ≤ toBlock)
  | .removedDB fromBlock toBlock => ¬(fromBlock ≤ n ∧ n ≤ toBlock)
  | _ => True

/-- The goroutine has still to come to the block, or has found a reorg before it. -/
def Check.Awaits (n : ℕ) (h : H) : Check H → Prop
  | .idle => True
  | .checking _ headers _ => ⟨n, h⟩ ∈ headers
  | .fetched _ hdr current headers _ => (hdr = ⟨n, h⟩ ∧ current ≠ h) ∨ ⟨n, h⟩ ∈ headers
  | .final _ _ headers _ => ⟨n, h⟩ ∈ headers
  | .finalDB _ _ headers _ => ⟨n, h⟩ ∈ headers
  | .reorged fromBlock _ => fromBlock ≤ n
  | _ => False

/-- The block is tracked with a hash that the node does not have, and no removal of it is due. -/
structure State.Changed (s : State I H) (id : I) (n : ℕ) (h : H) : Prop where
  tracks : s.Tracks id ⟨n, h⟩
  canonical : s.canonical n ≠ h
  keeps : (s.checks id).Keeps n h

section changed

variable {s s' s₁ : State I H} {id id' : I} {a : Action I H} {c : Check H} {n : ℕ} {h : H}

omit [DecidableEq I] [DecidableEq H] in
/-- A block that is not final has no removal due, unless its subscriber has been notified. -/
theorem State.Inv.keeps (hinv : s.Inv) (hfinal : s.finalized < n)
    (hnot : ¬(s.checks id).Removing n) : (s.checks id).Keeps n h := by
  have hok := hinv.checks id
  generalize s.checks id = c at hok hnot ⊢
  cases c with
  | fetched f hdr current headers toBlock => exact fun _ => .inl (hok.1.trans_lt hfinal)
  | final f hdr headers toBlock | finalDB f hdr headers toBlock =>
    have hle := hok.1
    show hdr.num ≠ n
    omega
  | notified fromBlock toBlock | removedDB fromBlock toBlock => exact hnot
  | idle | checking | reorged | removed => exact trivial

omit [DecidableEq H] in
/-- The goroutine of the subscriber keeps the block, unless it notifies. -/
theorem State.Changed.goes (hinv : s.Inv) (hchanged : s.Changed id n h)
    (hgoes : s.Goes id a c s₁) (hquiet : ∀ start, a = .notify id start → n < start) :
    s₁.Tracks id ⟨n, h⟩ ∧ c.Keeps n h := by
  have hkeeps : ∀ {c}, s.checks id = c → c.Keeps n h := fun hcheck => hcheck ▸ hchanged.keeps
  have htracks := hchanged.tracks
  cases hgoes with
  | launch => exact ⟨htracks, trivial⟩
  | fetch =>
    refine ⟨htracks, fun hnum => .inr ?_⟩
    rw [hnum]
    exact hchanged.canonical
  | same => exact ⟨htracks, trivial⟩
  | @final f toBlock hdr headers current _ hcheck hhash hfinal =>
    refine ⟨htracks, fun hnum => ?_⟩
    -- the header that is checked is the tracked one, with a hash that the node does not have
    have hhdr : hdr = ⟨n, h⟩ := ((hinv.checkOk hcheck).2.2 hdr (.head _)).eq htracks.1 hnum
    rcases hkeeps hcheck hnum with hlt | hne
    · omega
    · exact hne (by rw [hhash, hhdr])
  | reorged => exact ⟨htracks, trivial⟩
  | removeFinal hcheck =>
    refine ⟨⟨htracks.1.removeRange fun _ hrange => hkeeps hcheck ?_, htracks.2⟩,
      (hkeeps hcheck :)⟩
    exact le_antisymm hrange.1 hrange.2
  | removeFinalDB hcheck =>
    refine ⟨⟨htracks.1, State.mem_removeTrackedBlockRange htracks.2
      fun _ hrange => hkeeps hcheck ?_⟩, trivial⟩
    exact le_antisymm hrange.1 hrange.2
  | @notify fromBlock toBlock =>
    have hlt := hquiet fromBlock rfl
    exact ⟨htracks, fun hrange => absurd hrange.1 (Nat.not_le.mpr hlt)⟩
  | removeDB hcheck =>
    exact ⟨⟨htracks.1, State.mem_removeTrackedBlockRange htracks.2 fun _ => hkeeps hcheck⟩,
      (hkeeps hcheck :)⟩
  | remove hcheck => exact ⟨⟨htracks.1.removeRange fun _ => hkeeps hcheck, htracks.2⟩, trivial⟩
  | cleanCache | fail | finish => exact ⟨htracks, trivial⟩

/-- The block stays tracked, unless its subscriber is notified. -/
theorem State.Changed.step (hinv : s.Inv) (hfine : s.Fine a) (hchanged : s.Changed id n h)
    (hstep : s.step a = some s') (hquiet : ∀ start, a = .notify id start → n < start) :
    s'.Changed id n h := by
  have hne := hfine.canonical_ne hstep hchanged.tracks.1 hchanged.canonical
  rcases State.step_cases_of hstep id with ⟨c, s₁, hgoes, rfl, hcheck⟩ | ⟨hcheck, -, hkept⟩
  · obtain ⟨htracks, hkeeps⟩ := hchanged.goes hinv hgoes hquiet
    exact ⟨htracks, hne, by rwa [hcheck]⟩
  · obtain ⟨htracked, hrow⟩ := hkept hinv hfine.agrees ⟨n, h⟩
    exact ⟨⟨htracked hchanged.tracks.1, hrow hchanged.tracks.2⟩, hne, hcheck ▸ hchanged.keeps⟩

omit [DecidableEq H] in
/-- A goroutine that starts after the change finds it, or fails. -/
theorem State.Changed.goes_awaits (hinv : s.Inv) (hchanged : s.Changed id n h)
    (hawaits : (s.checks id).Awaits n h) (hgoes : s.Goes id a c s₁)
    (hquiet : ∀ start, a = .notify id start → n < start) :
    c.Awaits n h ∧ a ≠ .finish id := by
  have hawaits : ∀ {c}, s.checks id = c → c.Awaits n h := fun hcheck => hcheck ▸ hawaits
  cases hgoes with
  | launch hpass hlist =>
    obtain ⟨hl, hlist', hmem⟩ := hchanged.tracks.1
    cases hlist.symm.trans hlist'
    exact ⟨mem_orderBy.mpr hmem, by simp⟩
  | fetch hcheck =>
    refine ⟨?_, by simp⟩
    rcases mem_cons.mp (hawaits hcheck) with rfl | hmem
    · exact .inl ⟨rfl, hchanged.canonical⟩
    · exact .inr hmem
  | same hcheck hhash | final hcheck hhash =>
    refine ⟨(hawaits hcheck).resolve_left ?_, by simp⟩
    rintro ⟨rfl, hne⟩
    exact hne hhash
  | reorged hcheck =>
    refine ⟨?_, by simp⟩
    rcases hawaits hcheck with ⟨rfl, -⟩ | hmem
    · exact le_refl n
    · exact (rel_of_pairwise_cons (hinv.checkOk hcheck).2.1 hmem).le
  | removeFinal hcheck | removeFinalDB hcheck => exact ⟨(hawaits hcheck :), by simp⟩
  | @notify fromBlock toBlock hcheck =>
    have hle : fromBlock ≤ n := hawaits hcheck
    exact absurd hle (Nat.not_le.mpr (hquiet fromBlock rfl))
  | removeDB hcheck | remove hcheck | cleanCache hcheck => exact absurd (hawaits hcheck) not_false
  | fail => exact ⟨trivial, by simp⟩
  | finish hcheck => exact absurd (hawaits hcheck) not_mem_nil

theorem State.Changed.step_awaits (hinv : s.Inv) (hchanged : s.Changed id n h)
    (hawaits : (s.checks id).Awaits n h) (hstep : s.step a = some s')
    (hquiet : ∀ start, a = .notify id start → n < start) :
    (s'.checks id).Awaits n h ∧ a ≠ .finish id := by
  rcases State.step_cases_of hstep id with ⟨c, s₁, hgoes, rfl, hcheck⟩ | ⟨hcheck, hne, -⟩
  · rw [hcheck]
    exact hchanged.goes_awaits hinv hawaits hgoes hquiet
  · rw [hcheck]
    exact ⟨hawaits, hne⟩

end changed

/-! ## Blocks in a range that is being removed -/

section removing

variable {s s' s₀ s₁ : State I H} {id id' : I} {a : Action I H} {c : Check H} {hdr : Header H}
  {as : List (Action I H)}

namespace State

/-- A block that is tracked after an action was tracked before, or has been added. -/
theorem tracked_of_step (h : s.step a = some s') (htracked : s'.Tracked id hdr) :
    s.Tracked id hdr ∨ a = .add id hdr := by
  have hmodify : ∀ {id' f}, (s.modifyHeaders id' f).Tracked id hdr → s.Tracked id hdr ∨
      ∃ hl, id = id' ∧ s.trackedBlocks id = some hl ∧ hdr ∈ (f hl).rows := by
    rintro id' f ⟨hl', hlist, hmem⟩
    by_cases hid : id = id'
    · subst hid
      have hmap : (s.trackedBlocks id).map f = some hl' := by simpa [modifyHeaders] using hlist
      obtain ⟨hl, hs, rfl⟩ := Option.map_eq_some_iff.mp hmap
      exact .inr ⟨hl, rfl, hs, hmem⟩
    · exact .inl ⟨hl', (update_of_ne hid _ _).symm.trans hlist, hmem⟩
  rcases step_cases h with ⟨id', c, s₁, hgoes, rfl⟩ | hserves
  · cases hgoes with
    | removeFinal | remove =>
      refine .inl ((hmodify htracked).elim (fun h => h) ?_)
      rintro ⟨hl, -, hs, hmem⟩
      exact ⟨hl, hs, (mem_deleteWhere.mp hmem).1⟩
    | launch | fetch | same | final | reorged | removeFinalDB | notify | removeDB | cleanCache
    | fail | finish => exact .inl htracked
  · cases hserves with
    | @subscribe id' =>
      obtain ⟨hl', hlist, hmem⟩ := htracked
      by_cases hid : id = id'
      · subst hid
        cases (update_self ..).symm.trans hlist
        cases hmem
      · exact .inl ⟨hl', (update_of_ne hid _ _).symm.trans hlist, hmem⟩
    | add =>
      rcases hmodify htracked with hs | ⟨hl, rfl, hs, hmem⟩
      · exact .inl hs
      rcases Keyed.mem_upsert.mp hmem with rfl | ⟨hmem, -⟩
      · exact .inr rfl
      · exact .inl ⟨hl, hs, hmem⟩
    | reorg | finalize | subscribed | addBlockToTrack | insert | startPass | endPass =>
      exact .inl htracked

/-- Where a goroutine comes from that is removing a range. -/
theorem removing_of_step {n : ℕ} (h : s.step a = some s') (hr : (s'.checks id).Removing n) :
    (s.checks id).Removing n ∨ ∃ start ≤ n, a = .notify id start := by
  rcases step_cases_of h id with ⟨c, s₁, hgoes, rfl, hc⟩ | ⟨hc, -⟩
  · rw [hc] at hr
    cases hgoes with
    | @notify fromBlock => exact .inr ⟨fromBlock, hr.1, rfl⟩
    | removeDB hcheck =>
      rw [hcheck]
      exact .inl hr
    | launch | fetch | same | final | reorged | removeFinal | removeFinalDB | remove | cleanCache
    | fail | finish => exact absurd hr not_false
  · exact .inl (hc ▸ hr)

/-- The subscriber has been notified, while it tracked the block, of a reorg that starts at the block
or before it. -/
def Notified (s₀ : State I H) (as : List (Action I H)) (id : I) (hdr : Header H) : Prop :=
  ∃ start ≤ hdr.num, ∃ before s, Run.Steps step Fine s₀ before s ∧ s.Tracked id hdr ∧
    before ++ [.notify id start] <+: as

/-- For a tracked block in a range that is being removed the subscriber has been notified. -/
theorem notified_of_removing
    (hrun : Run.Steps step Fine s₀ as s) (hidle : s₀.checks id = .idle)
    (hremoving : (s.checks id).Removing hdr.num) (htracked : s.Tracked id hdr) :
    s₀.Notified as id hdr := by
  induction hrun with
  | nil =>
    rw [hidle] at hremoving
    exact absurd hremoving not_false
  | @snoc as s s' a hrun hfine hstep ih =>
    rcases tracked_of_step hstep htracked with hbefore | rfl
    · rcases removing_of_step hstep hremoving with hr | ⟨start, hle, rfl⟩
      · obtain ⟨start, hle, before, s₁, hrun1, htracked1, hpre⟩ := ih hr hbefore
        exact ⟨start, hle, before, s₁, hrun1, htracked1, hpre.trans (prefix_append _ _)⟩
      · exact ⟨start, hle, as, s, hrun, hbefore, prefix_refl _⟩
    · -- a block is not added to a range that is being removed
      rcases removing_of_step hstep hremoving with hr | ⟨start, -, ha⟩
      · exact absurd hr hfine.2
      · cases ha

end State

end removing

/-! ## No missed reorg -/

/-- Over every interleaving whose actions are fine: once the node has another hash for a tracked
block that is not final, the block stays tracked in memory and in the table until its subscriber is
notified of a reorg that starts at it or before it, unless it has already been notified so. A
goroutine that starts after the change does not check all headers without this notification. -/
theorem tracked_until_notified {canonical : ℕ → H} {finalized : ℕ} {before after : List (Action I H)}
    {s₁ s₂ : State I H} {id : I} {n : ℕ} {h : H}
    (hbefore : Run.Steps State.step State.Fine (State.initial canonical finalized) before s₁)
    (hafter : Run.Steps State.step State.Fine s₁ after s₂)
    (htracks : s₁.Tracks id ⟨n, h⟩) (hchanged : s₁.canonical n ≠ h) (hfinal : s₁.finalized < n)
    (hquiet : ∀ start, Action.notify id start ∈ after → n < start) :
    State.Notified (State.initial canonical finalized) before id ⟨n, h⟩ ∨
      s₂.Tracks id ⟨n, h⟩ ∧ (s₁.checks id = .idle → Action.finish id ∉ after) := by
  by_cases hremoving : (s₁.checks id).Removing n
  · exact .inl (State.notified_of_removing hbefore rfl hremoving htracks.1)
  have hinv : s₁.Inv := hbefore.invariant (P := fun _ s => s.Inv) (State.Inv.initial _ _)
    fun _ _ _ _ hinv hfine hstep => hinv.step hfine.agrees hstep
  have hstart : s₁.Changed id n h := ⟨htracks, hchanged, hinv.keeps hfinal hremoving⟩
  have hrun : (∀ start, Action.notify id start ∈ after → n < start) → s₂.Inv ∧ s₂.Changed id n h ∧
      (s₁.checks id = .idle → (s₂.checks id).Awaits n h ∧ Action.finish id ∉ after) := by
    refine hafter.invariant (P := fun as s => (∀ start, Action.notify id start ∈ as → n < start) →
      s.Inv ∧ s.Changed id n h ∧
        (s₁.checks id = .idle → (s.checks id).Awaits n h ∧ Action.finish id ∉ as)) ?_ ?_
    · intro _
      refine ⟨hinv, hstart, fun hidle => ⟨?_, not_mem_nil⟩⟩
      rw [hidle]
      exact trivial
    · intro as s a s' ih hfine hstep hquiet'
      obtain ⟨hinv', hchanged', hawaits⟩ := ih fun start hmem =>
        hquiet' start (mem_append_left _ hmem)
      have hlast : ∀ start, a = .notify id start → n < start := fun start ha =>
        hquiet' start (mem_append_right _ (ha ▸ .head _))
      refine ⟨hinv'.step hfine.agrees hstep, hchanged'.step hinv' hfine hstep hlast, fun hidle => ?_⟩
      obtain ⟨haw, hnone⟩ := hawaits hidle
      obtain ⟨haw', hne⟩ := hchanged'.step_awaits hinv' haw hstep hlast
      exact ⟨haw', fun hmem => (mem_append.mp hmem).elim hnone fun hlast =>
        hne (mem_singleton.mp hlast).symm⟩
  obtain ⟨-, hend, hawaits⟩ := hrun hquiet
  exact .inr ⟨hend.tracks, fun hidle => (hawaits hidle).2⟩

/-! Runs with one subscriber, block 5, and a chain whose hashes are all one number. -/

/-- `AddBlockToTrack` of block 5. -/
def trackFive (hash : ℕ) : List (Action Unit ℕ) :=
  [.addBlockToTrack () ⟨5, hash⟩, .add () ⟨5, hash⟩, .insert () ⟨5, hash⟩]

/-- A pass up to its first comparison. -/
def checkFirst : List (Action Unit ℕ) := [.startPass, .launch (), .fetch (), .compare ()]

/-- A changed block is still tracked when its change has been found. -/
theorem tracked_until_notified_five : ∃ s₁ s₂ : State Unit ℕ,
    Run.Steps State.step State.Fine (State.initial (fun _ => 1) 0)
        (.subscribe () :: trackFive 1 ++ [.reorg fun _ => 2]) s₁ ∧
      Run.Steps State.step State.Fine s₁ checkFirst s₂ ∧ s₂.Tracks () ⟨5, 1⟩ := by
  have hadd : ∀ s : State Unit ℕ, s.trackedBlocks () = some Keyed.empty → s.checks () = .idle →
      s.Fine (.add () ⟨5, 1⟩) := by
    rintro s hempty hidle
    refine ⟨?_, by rw [hidle]; exact not_false⟩
    rintro hdr ⟨hl, hlist, hmem⟩
    rw [Option.some.inj (hlist.symm.trans hempty)] at hmem
    cases hmem
  have hreorg : ∀ (s : State Unit ℕ) (hl : HeadersList ℕ), s.trackedBlocks () = some hl →
      hl.rows = [⟨5, 1⟩] → s.canonical 5 = 1 → s.Fine (.reorg fun _ => 2) := by
    rintro s hl hs hrows hcanonical id hdr ⟨hl', hlist, hmem⟩ hne
    rw [Option.some.inj (hlist.symm.trans hs), hrows] at hmem
    rw [mem_singleton.mp hmem] at hne
    exact absurd hcanonical hne
  have hbefore : Run.Steps State.step State.Fine (State.initial (fun _ => 1) 0)
      (.subscribe () :: trackFive 1 ++ [.reorg fun _ => 2]) _ :=
    .cons trivial rfl (.cons trivial rfl (.cons (hadd _ rfl rfl) rfl (.cons trivial rfl
      (.cons (hreorg _ _ rfl rfl rfl) rfl .nil))))
  refine ⟨_, _, hbefore,
    .cons trivial rfl (.cons trivial rfl (.cons trivial rfl (.cons trivial rfl .nil))),
    ((tracked_until_notified hbefore (show Run.Steps _ _ _ checkFirst _ from
      .cons trivial rfl (.cons trivial rfl (.cons trivial rfl (.cons trivial rfl .nil))))
      ⟨⟨_, rfl, .head _⟩, .head _⟩ (by decide) (by decide) ?_).resolve_left ?_).1⟩
  · intro start hmem
    exact absurd hmem (by simp [checkFirst])
  · rintro ⟨start, -, as, s, -, -, hpre⟩
    have hmem := hpre.subset (mem_append_right as (.head _))
    exact absurd hmem (by simp [trackFive])

/-- The tracked hash of block 5 has changed, and `AddBlockToTrack` of the new hash replaces it. A pass
then finds nothing, and the subscriber is not notified. -/
theorem overwritten_block_missed : ∃ (before after : List (Action Unit ℕ)) (s₁ s₂ : State Unit ℕ),
    Run.Steps State.step (fun _ _ => True) (State.initial (fun _ => 1) 0) before s₁ ∧
      Run.Steps State.step (fun _ _ => True) s₁ after s₂ ∧
      s₁.Tracks () ⟨5, 1⟩ ∧ s₁.canonical 5 ≠ 1 ∧ s₁.finalized < 5 ∧
      (∀ start, Action.notify () start ∉ before ++ after) ∧ s₁.checks () = .idle ∧
      Action.finish () ∈ after ∧ ¬s₂.Tracked () ⟨5, 1⟩ := by
  refine ⟨[.subscribe ()] ++ trackFive 1 ++ [.reorg fun _ => 2],
    trackFive 2 ++ checkFirst ++ [.finish (), .endPass], _, _, .of_foldlM rfl, .of_foldlM rfl,
    ⟨⟨_, rfl, .head _⟩, .head _⟩, by decide, by decide, ?_, rfl, ?_, ?_⟩
  · intro start
    simp [trackFive, checkFirst]
  · simp [trackFive, checkFirst]
  · rintro ⟨hl, hlist, hmem⟩
    cases hlist
    exact absurd hmem (by decide)

/-- The subscriber restarts after a notification and tracks the new block 5 before its range has been
removed. The removal takes the new block with it, although its hash changes as well. -/
theorem retracked_block_removed : ∃ (before after : List (Action Unit ℕ)) (s₁ s₂ : State Unit ℕ),
    Run.Steps State.step (fun _ _ => True) (State.initial (fun _ => 1) 0) before s₁ ∧
      Run.Steps State.step (fun _ _ => True) s₁ (trackFive 2 ++ [.reorg fun _ => 3] ++ after) s₂ ∧
      s₁.checks () = .notified 5 5 ∧ (∀ start, Action.notify () start ∉ after) ∧
      ¬s₂.Tracked () ⟨5, 2⟩ ∧ ((), ⟨5, 2⟩) ∉ s₂.trackedBlock := by
  refine ⟨[.subscribe ()] ++ trackFive 1 ++ [.reorg fun _ => 2] ++ checkFirst ++ [.notify () 5],
    [.removeDB (), .remove (), .cleanCache (), .endPass], _, _, .of_foldlM rfl, .of_foldlM rfl,
    rfl, by simp, ?_, by decide⟩
  rintro ⟨hl, hlist, hmem⟩
  cases hlist
  exact absurd hmem (by decide)

end AggKit.ReorgDetector
