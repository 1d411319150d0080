import AggKit.L1InfoTreeSync.Blocks

/-!
# Runs of the l1infotreesync processor

The processor runs along with the blocks it keeps: those of the calls that succeeded, without those a
`Reorg` took back. `Consistent` says that tables, roots and the object in memory are those of the
content of these blocks, as `Content` computes it from their events.

A batch that fails is rolled back. The L1 info tree then keeps a cache that may be one of leaves that
were never stored, and the next leaf is hashed with it. `Fits` says when this cannot be seen: the
subtrees to the left of the next leaf are among those on the path of the last leaf that was put.
-/

namespace AggKit.L1InfoTreeSync

open Merkle Tree Exec Run List Content

variable {H : Type}

/-- Blocks come with increasing numbers, events of one kind with increasing positions, and the leaves
fit the L1 info tree. -/
structure Orderly (blocks : List (Block H)) : Prop where
  nums : blocks.Pairwise fun a b => a.num < b.num
  positions : ∀ b ∈ blocks, b.steps.Pairwise Step.before
  capacity : (steps blocks).countP Step.isUpdate ≤ 2^32

theorem Orderly.of_append {bs bs' : List (Block H)} (h : Orderly (bs ++ bs')) : Orderly bs where
  nums := (pairwise_append.mp h.nums).1
  positions := fun b hb => h.positions b (mem_append_left bs' hb)
  capacity := by
    have hcap := h.capacity
    rw [steps_append, countP_append] at hcap
    omega

theorem Orderly.sorted {blocks : List (Block H)} (h : Orderly blocks) : Sorted (steps blocks) := by
  refine ⟨?_, h.capacity⟩
  unfold steps
  rw [pairwise_flatMap]
  refine ⟨h.positions, h.nums.imp fun {a b} hab s hs t ht => ?_⟩
  obtain ⟨e, -, rfl⟩ := mem_map.mp hs
  obtain ⟨e', -, rfl⟩ := mem_map.mp ht
  exact .inl hab

variable [DecidableEq H]

/-- Tables, roots and memory of the processor are those of the blocks it keeps. -/
structure Consistent (K : Keccak H) (p : Processor H) (kept : List (Block H)) (c : Content H) :
    Prop where
  content : (empty K).applyAll K (steps kept) = some c
  orderly : Orderly kept
  block : p.db.block = kept.map fun b => (b.num, b.hash)
  infos : p.db.l1InfoLeaf = c.infos
  verified : p.db.verifyBatches = c.verified
  initial : p.db.l1InfoInitial = c.initial
  synced : Synced K.pair K.zero p.l1InfoTree c.visible
  updated : Updated K.pair K.zero p.rollupExitTree c.writes

theorem Consistent.new (K : Keccak H) :
    Consistent K (Processor.new K) [] (empty K) where
  content := rfl
  orderly := ⟨List.Pairwise.nil, fun _ hb => absurd hb not_mem_nil, by simp⟩
  block := rfl
  infos := rfl
  verified := rfl
  initial := rfl
  synced := Synced.new K.pair K.zero
  updated := Updated.empty K.pair K.zero

section call

variable {K : Keccak H} {p : Processor H} {kept : List (Block H)} {c : Content H}

theorem Consistent.wf (h : Consistent K p kept c) : c.WF K := WF.empty.applyAll h.content

/-- A transaction begins with the content of the blocks that are kept. -/
theorem Consistent.holds (h : Consistent K p kept c) :
    p.begin.Holds K p.l1InfoTree c.infos.length c where
  wf := h.wf
  infos := h.infos
  verified := h.verified
  initial := h.initial
  synced := h.synced
  updated := h.updated
  le := le_rfl
  puts := by
    rw [drop_length]
    rfl

/-- The leaves that a batch puts before it fails, or all of them. -/
def newHashes (K : Keccak H) (c : Content H) (blocks : List (Block H)) : List H :=
  ((c.reach K (steps blocks)).infos.drop c.infos.length).map (·.hash)

variable (hinj : Function.Injective2 K.pair) (hzero : ∀ l : L1InfoTreeLeaf H, l.getHash K ≠ K.zero)

include hinj hzero in
/-- A batch that can be processed is, and one that cannot is rolled back. -/
theorem Consistent.processBlocksSameTx (h : Consistent K p kept c) {blocks : List (Block H)}
    (horderly : Orderly (kept ++ blocks)) :
    (∃ c', c.applyAll K (steps blocks) = some c' ∧
        (p.processBlocksSameTx K blocks).1 = .ok () ∧
        (p.processBlocksSameTx K blocks).2.halted = p.halted ∧
        Consistent K (p.processBlocksSameTx K blocks).2 (kept ++ blocks) c') ∨
      (c.applyAll K (steps blocks) = none ∧
        ∃ err, (p.processBlocksSameTx K blocks).1 = .error err ∧
        (p.processBlocksSameTx K blocks).2.db = p.db ∧
        (p.processBlocksSameTx K blocks).2.rollupExitTree = p.rollupExitTree ∧
        p.l1InfoTree.rolledBack K.pair K.zero
          (((c.reach K (steps blocks)).infos.drop c.infos.length).map L1InfoTreeLeaf.put) =
          some (p.processBlocksSameTx K blocks).2.l1InfoTree) := by
  have hnums := pairwise_append.mp horderly.nums
  have hfresh : ∀ r ∈ p.begin.db.block, ∀ b ∈ blocks, r.1 < b.num := by
    intro r hr b hb
    have hr' : r ∈ kept.map fun b => (b.num, b.hash) := h.block ▸ hr
    obtain ⟨b', hb', rfl⟩ := mem_map.mp hr'
    exact hnums.2.2 b' hb' b hb
  have hsorted : Sorted (steps kept ++ steps blocks) := by
    rw [← steps_append]
    exact horderly.sorted
  have hends := processBlocksTx_spec hinj hzero h.content h.holds hfresh hnums.2.1 hsorted
  unfold Ends at hends
  unfold Processor.processBlocksSameTx
  cases hc : c.applyAll K (steps blocks) with
  | some c' =>
    rw [hc] at hends
    obtain ⟨tx, hok, hholds, hblock, hhalted⟩ := hends
    left
    rw [hok]
    refine ⟨c', rfl, rfl, hhalted, ?_, horderly, ?_, hholds.infos, hholds.verified, hholds.initial,
      hholds.synced, hholds.updated⟩
    · rw [steps_append, applyAll_append, h.content]
      exact hc
    · show tx.db.block = _
      rw [hblock, map_append, ← h.block]
      rfl
  | none =>
    rw [hc] at hends
    obtain ⟨err, tx, herr, hputs⟩ := hends
    right
    rw [herr]
    refine ⟨rfl, err, rfl, rfl, rfl, ?_⟩
    unfold State.rolledBack
    rw [hputs]
    rfl

omit [DecidableEq H] in
/-- Leaves that count up are put one after the other. -/
theorem sequential_of_index {infos : List (L1InfoTreeLeaf H)} {n : ℕ}
    (hindex : infos.map (·.l1InfoTreeIndex) = (List.range infos.length).map UInt32.ofNat)
    (hlen : infos.length ≤ 2^32) :
    (∀ q ∈ ((infos.drop n).map L1InfoTreeLeaf.put).head?, q.leaf.index.toNat = n) ∧
      Sequential ((infos.drop n).map L1InfoTreeLeaf.put) := by
  have hget : ∀ i (h : i < infos.length), infos[i].l1InfoTreeIndex.toNat = i := by
    intro i h
    have hi := congrArg (fun l => l[i]?) hindex
    simp only [getElem?_map, getElem?_eq_getElem h, Option.map_some,
      getElem?_range h, Option.some.injEq] at hi
    rw [hi, UInt32.toNat_ofNat_of_lt' (h.trans_le hlen)]
  constructor
  · intro q hq
    rw [head?_map, head?_drop] at hq
    obtain ⟨l, hl, rfl⟩ := Option.map_eq_some_iff.mp hq
    obtain ⟨hn, rfl⟩ := List.getElem?_eq_some_iff.mp hl
    exact hget n hn
  · unfold Tree.Sequential
    rw [isChain_iff_getElem]
    intro i hi
    simp only [length_map, length_drop] at hi
    simp only [getElem_map, getElem_drop, L1InfoTreeLeaf.put]
    rw [hget, hget]
    omega

include hinj in
/-- A batch that is rolled back leaves the processor consistent, if the subtrees the next leaf needs
are kept. -/
theorem Consistent.rolledBack (h : Consistent K p kept c) {blocks : List (Block H)}
    (horderly : Orderly (kept ++ blocks))
    (hkept : SubtreesKept K.zero (c.infos.map (·.hash)) (newHashes K c blocks)) {q : Processor H}
    (hdb : q.db = p.db) (hrollup : q.rollupExitTree = p.rollupExitTree)
    (hback : p.l1InfoTree.rolledBack K.pair K.zero
      (((c.reach K (steps blocks)).infos.drop c.infos.length).map L1InfoTreeLeaf.put) =
      some q.l1InfoTree) :
    Consistent K q kept c := by
  -- what the batch reached is the content of the first events
  obtain ⟨ss, hpre, hreach⟩ := exists_prefix_reach (K := K) c (steps blocks)
  have hwf : (c.reach K (steps blocks)).WF K := h.wf.applyAll hreach
  have hcap : (c.reach K (steps blocks)).infos.length ≤ 2^32 := by
    have hlen := length_infos hreach
    have hlen0 := length_infos h.content
    have hle := hpre.sublist.countP_le (p := Step.isUpdate)
    have hall := horderly.capacity
    rw [steps_append, countP_append] at hall
    simp only [empty, length_nil] at hlen0
    omega
  obtain ⟨hfirst, hseq⟩ := sequential_of_index hwf.index_eq hcap (n := c.infos.length)
  have hleaves : leaves c.visible = c.infos.map (·.hash) := by
    simp [leaves, visible, L1InfoTreeLeaf.visible, Function.comp_def]
  have hlength : c.visible.length = c.infos.length := by simp [visible]
  have hhashes : (((c.reach K (steps blocks)).infos.drop c.infos.length).map
      L1InfoTreeLeaf.put).map (fun q => q.leaf.hash) = newHashes K c blocks := by
    rw [map_map]
    rfl
  have hsynced : Synced K.pair K.zero q.l1InfoTree c.visible := by
    refine h.synced.rolledBack K.zero hinj (hlength ▸ hfirst) hseq ?_ hback
    rw [hleaves, hhashes]
    exact hkept
  exact ⟨h.content, h.orderly, hdb ▸ h.block, hdb ▸ h.infos, hdb ▸ h.verified, hdb ▸ h.initial,
    hsynced, hrollup ▸ h.updated⟩

section

omit [DecidableEq H]

/-- Blocks of increasing numbers, cut at a number. -/
theorem exists_split_at {blocks : List (Block H)}
    (hnums : blocks.Pairwise fun a b => a.num < b.num) (m : ℕ) :
    ∃ early late, blocks = early ++ late ∧ blocks.filter (fun b => decide (b.num < m)) = early ∧
      (∀ b ∈ early, b.num < m) ∧ ∀ b ∈ late, m ≤ b.num := by
  induction blocks with
  | nil => exact ⟨[], [], rfl, rfl, by simp, by simp⟩
  | cons b bs ih =>
    obtain ⟨hb, hbs⟩ := pairwise_cons.mp hnums
    obtain ⟨early, late, heq, hfilter, hearly, hlate⟩ := ih hbs
    by_cases hlt : b.num < m
    · refine ⟨b :: early, late, by rw [heq]; rfl, ?_, ?_, hlate⟩
      · rw [filter_cons, if_pos (decide_eq_true hlt), hfilter]
      · intro x hx
        rcases mem_cons.mp hx with rfl | hx
        · exact hlt
        · exact hearly x hx
    · have hall : ∀ x ∈ b :: bs, m ≤ x.num := by
        intro x hx
        rcases mem_cons.mp hx with rfl | hx
        · omega
        · have := hb x hx
          omega
      refine ⟨[], b :: bs, rfl, ?_, by simp, hall⟩
      apply filter_eq_nil_iff.mpr
      intro x hx
      have := hall x hx
      simp only [decide_eq_true_eq]
      omega

/-- The rows are early ones and then late ones. -/
def CutAt {α : Type} (num : α → ℕ) (m : ℕ) (early rows : List α) : Prop :=
  ∃ late, rows = early ++ late ∧ (∀ r ∈ early, num r < m) ∧ ∀ r ∈ late, m ≤ num r

variable {m : ℕ}

/-- Deleting the late rows. -/
theorem CutAt.deleteWhere {α : Type} {num : α → ℕ} {early rows : List α}
    (h : CutAt num m early rows) :
    Table.deleteWhere (fun r => decide (m ≤ num r)) rows = early := by
  obtain ⟨late, rfl, hearly, hlate⟩ := h
  rw [Table.deleteWhere_append, Table.deleteWhere_eq_self, Table.deleteWhere_eq_nil,
    append_nil]
  · exact fun r hr => decide_eq_true (hlate r hr)
  · intro r hr
    have := hearly r hr
    exact decide_eq_false (by omega)

/-- Rows of early events, and rows that late events add. -/
theorem CutAt.of_append {α : Type} {num : α → ℕ} {early rows : List α} {P Q : α → Prop}
    (hearly : ∃ l, early = [] ++ l ∧ ∀ r ∈ l, P r) (hrows : ∃ l, rows = early ++ l ∧ ∀ r ∈ l, Q r)
    (hP : ∀ r, P r → num r < m) (hQ : ∀ r, Q r → m ≤ num r) : CutAt num m early rows := by
  obtain ⟨l, rfl, hl⟩ := hearly
  obtain ⟨late, rfl, hlate⟩ := hrows
  exact ⟨late, rfl, fun r hr => hP r (hl r hr), fun r hr => hQ r (hlate r hr)⟩

/-- The events of some blocks are of these blocks. -/
theorem num_of_mem_steps {blocks : List (Block H)} {P : ℕ → Prop} (hP : ∀ b ∈ blocks, P b.num)
    {s : Step H} (hs : s ∈ steps blocks) : P s.1 := by
  obtain ⟨b, hb, hs⟩ := mem_flatMap.mp hs
  obtain ⟨e, -, rfl⟩ := mem_map.mp hs
  exact hP b hb

/-- The leaves of the L1 info tree that a `Reorg` leaves. -/
theorem reorgVisible_of_cut {c0 : Content H}
    (h : CutAt L1InfoTreeLeaf.blockNumber m c0.infos c.infos) :
    reorgVisible c.visible m = c0.visible := by
  obtain ⟨late, hinfos, hearly, hlate⟩ := h
  unfold reorgVisible visible
  rw [hinfos, map_append, filter_append, filter_eq_self.mpr,
    filter_eq_nil_iff.mpr, append_nil]
  · intro v hv hlt
    obtain ⟨l, hl, rfl⟩ := mem_map.mp hv
    exact absurd (of_decide_eq_true hlt) (Nat.not_lt.mpr (hlate l hl))
  · intro v hv
    obtain ⟨l, hl, rfl⟩ := mem_map.mp hv
    exact decide_eq_true (hearly l hl)

/-- The writes of the rollup exit tree that a `Reorg` leaves. -/
theorem updated_reorg_of_cut {c0 : Content H}
    (h : CutAt VerifyBatches.blockNumber m c0.verified c.verified) {s : Store H}
    (hs : Updated K.pair K.zero s c.writes) : Updated K.pair K.zero (s.reorg m) c0.writes := by
  obtain ⟨late, hverified, hearly, hlate⟩ := h
  unfold writes at hs
  rw [hverified, map_append] at hs
  refine hs.reorg K.zero ?_ ?_
  · intro w hw
    obtain ⟨v, hv, rfl⟩ := mem_map.mp hw
    exact hearly v hv
  · intro w hw
    obtain ⟨v, hv, rfl⟩ := mem_map.mp hw
    exact hlate v hv

end

/-- After a `Reorg` everything is as the earlier blocks alone made it. -/
theorem Consistent.reorg (h : Consistent K p kept c) (m : ℕ) :
    ∃ c', Consistent K (p.reorg m) (kept.filter fun b => decide (b.num < m)) c' := by
  obtain ⟨early, late, heq, hfilter, hearly, hlate⟩ := exists_split_at h.orderly.nums m
  have hcontent := h.content
  rw [heq, steps_append, applyAll_append] at hcontent
  obtain ⟨c0, hc0, hc⟩ := Option.bind_eq_some_iff.mp hcontent
  have hgrows0 := Grows.of_applyAll hc0
  have hgrows := Grows.of_applyAll hc
  have hlt : ∀ {s : Step H}, s ∈ steps early → s.1 < m :=
    fun hs => num_of_mem_steps (P := fun k => k < m) hearly hs
  have hge : ∀ {s : Step H}, s ∈ steps late → m ≤ s.1 :=
    fun hs => num_of_mem_steps (P := fun k => m ≤ k) hlate hs
  -- each table has the rows of the early blocks, then those of the late ones
  have hinfos : CutAt L1InfoTreeLeaf.blockNumber m c0.infos c.infos :=
    .of_append hgrows0.infos hgrows.infos (fun _ ⟨_, he, _⟩ => hlt he) fun _ ⟨_, he, _⟩ => hge he
  have hverified : CutAt VerifyBatches.blockNumber m c0.verified c.verified :=
    .of_append hgrows0.verified hgrows.verified (fun _ ⟨_, he, _⟩ => hlt he)
      fun _ ⟨_, he, _⟩ => hge he
  have hinitial : CutAt L1InfoTreeInitial.blockNumber m c0.initial c.initial :=
    .of_append hgrows0.initial hgrows.initial (fun _ ⟨_, he⟩ => hlt he) fun _ ⟨_, he⟩ => hge he
  have hblock : CutAt Prod.fst m (early.map fun b => (b.num, b.hash)) p.db.block := by
    refine ⟨late.map fun b => (b.num, b.hash), ?_, ?_, ?_⟩
    · rw [h.block, heq, map_append]
    · intro r hr
      obtain ⟨b, hb, rfl⟩ := mem_map.mp hr
      exact hearly b hb
    · intro r hr
      obtain ⟨b, hb, rfl⟩ := mem_map.mp hr
      exact hlate b hb
  have horderly : Orderly (early ++ late) := heq ▸ h.orderly
  refine ⟨c0, ?_⟩
  rw [hfilter]
  constructor
  · exact hc0
  · exact horderly.of_append
  · exact hblock.deleteWhere
  · exact (h.infos ▸ hinfos).deleteWhere
  · exact (h.verified ▸ hverified).deleteWhere
  · exact (h.initial ▸ hinitial).deleteWhere
  · rw [← reorgVisible_of_cut hinfos]
    exact h.synced.reorg K.pair K.zero m
  · exact updated_reorg_of_cut hverified h.updated

end call

/-! ## Runs -/

/-- A call of the processor. -/
inductive Call (H : Type) where
  | processBlock (block : Block H)
  | processBlocks (blocks : List (Block H))
  | reorg (firstReorgedBlock : ℕ)

/-- The processor and the blocks it keeps. -/
structure Tracked (H : Type) where
  processor : Processor H
  kept : List (Block H)

/-- A new processor keeps no block. -/
def Tracked.new (K : Keccak H) : Tracked H := ⟨Processor.new K, []⟩

/-- The blocks of a call that succeeds are kept. -/
def Tracked.record (τ : Tracked H) (blocks : List (Block H))
    (outcome : Except (SyncError H) Unit × Processor H) : Tracked H :=
  ⟨outcome.2, match outcome.1 with
    | .ok _ => τ.kept ++ blocks
    | .error _ => τ.kept⟩

/-- One call. -/
def Tracked.call (K : Keccak H) (τ : Tracked H) : Call H → Tracked H
  | .processBlock block => τ.record [block] (τ.processor.processBlock K block)
  | .processBlocks blocks => τ.record blocks (τ.processor.processBlocks K blocks)
  | .reorg m => ⟨τ.processor.reorg m, τ.kept.filter fun b => decide (b.num < m)⟩

/-- The blocks come after those that are kept, and if one cannot be processed, the leaves put before
keep the subtrees to the left of the next leaf. -/
structure Fits (K : Keccak H) (τ : Tracked H) (blocks : List (Block H)) : Prop where
  orderly : Orderly (τ.kept ++ blocks)
  rollback : ∀ c, (empty K).applyAll K (steps τ.kept) = some c →
    c.applyAll K (steps blocks) = none → τ.processor.halted = false →
    SubtreesKept K.zero (c.infos.map (·.hash)) (newHashes K c blocks)

/-- The calls after which the processor stays in step. -/
def Allowed (K : Keccak H) (τ : Tracked H) : Call H → Prop
  | .processBlock block => Fits K τ [block]
  | .processBlocks blocks => Fits K τ blocks
  | .reorg _ => True

section run

variable {K : Keccak H} (hinj : Function.Injective2 K.pair)
  (hzero : ∀ l : L1InfoTreeLeaf H, l.getHash K ≠ K.zero)

include hinj hzero

variable {τ : Tracked H}

/-- A batch in one transaction. -/
theorem Consistent.record {c : Content H} (h : Consistent K τ.processor τ.kept c)
    {blocks : List (Block H)} (hfits : Fits K τ blocks) (hhalted : τ.processor.halted = false) :
    ∃ c', Consistent K (τ.record blocks (τ.processor.processBlocksSameTx K blocks)).processor
      (τ.record blocks (τ.processor.processBlocksSameTx K blocks)).kept c' := by
  rcases h.processBlocksSameTx hinj hzero hfits.orderly with
    ⟨c', -, hok, -, h'⟩ | ⟨hnone, err, herr, hdb, hrollup, hback⟩
  · refine ⟨c', ?_⟩
    simp only [Tracked.record, hok]
    exact h'
  · refine ⟨c, ?_⟩
    simp only [Tracked.record, herr]
    exact h.rolledBack hinj hfits.orderly (hfits.rollback c h.content hnone hhalted) hdb hrollup
      hback

/-- Every allowed call keeps the processor consistent. -/
theorem Consistent.call (h : ∃ c, Consistent K τ.processor τ.kept c) {call : Call H}
    (hallowed : Allowed K τ call) :
    ∃ c, Consistent K (τ.call K call).processor (τ.call K call).kept c := by
  obtain ⟨c, h⟩ := h
  cases call with
  | processBlock block =>
    simp only [Tracked.call, Processor.processBlock]
    cases hhalted : τ.processor.halted with
    | true => exact ⟨c, h⟩
    | false => exact h.record hinj hzero hallowed hhalted
  | processBlocks blocks =>
    simp only [Tracked.call, Processor.processBlocks]
    by_cases hempty : blocks = []
    · refine ⟨c, ?_⟩
      simpa [Tracked.record, hempty] using h
    rw [if_neg hempty]
    cases hhalted : τ.processor.halted with
    | true => exact ⟨c, h⟩
    | false => exact h.record hinj hzero hallowed hhalted
  | reorg m => exact h.reorg m

theorem exists_consistent_of_run (hrun : Reach (Tracked.call K) (Allowed K) (Tracked.new K) τ) :
    ∃ c, Consistent K τ.processor τ.kept c :=
  hrun.invariant (P := fun τ => ∃ c, Consistent K τ.processor τ.kept c) ⟨_, Consistent.new K⟩
    fun _ _ h hallowed => Consistent.call hinj hzero h hallowed

end run

end AggKit.L1InfoTreeSync
