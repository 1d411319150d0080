import AggKit.BridgeSync.Invariant
import AggKit.L1InfoTreeSync.Invariant

/-!
# The processor and its blocks

`l1InfoTreeSync_of_run` reads off a consistent processor what its tables have to hold. The indices of
the L1 info leaves count up, and the root of each is the root over the leaves up to it. The rollup
exit root of each verified batch is the root over the latest exit roots of all rollups at that event.
A new processor that is given the kept blocks one by one ends with the same tables.

In `root_after_rollback` a block fails after it has put two leaves. The leaf that comes in their place
is hashed with the second of them, and its root is stored.
-/

namespace AggKit.L1InfoTreeSync

open Merkle Tree Run List Content

variable {H : Type} [DecidableEq H]

/-- The latest non-zero exit root of each rollup, by leaf index. -/
def latestExitRoots (K : Keccak H) (ss : List (Step H)) : ℕ → H :=
  ss.foldl (fun roots s => match s.2 with
    | .verifyBatches e =>
      if e.exitRoot = K.zero then roots
      else Function.update roots (e.rollupID - 1).toNat e.exitRoot
    | _ => roots) fun _ => K.zero

/-- The row of a `VerifyBatches` that comes after the events `ss`. -/
def rowAfter (K : Keccak H) (ss : List (Step H)) (blockNum : ℕ) (e : VerifyBatches H) :
    VerifyBatches H :=
  { e with
    blockNumber := blockNum
    rollupExitRoot := node K.pair (latestExitRoots K (ss ++ [(blockNum, .verifyBatches e)]))
      DefaultHeight 0 }

/-- `ProcessBlock` of blocks one after the other; `none` when one fails. -/
def replay (K : Keccak H) (p : Processor H) : List (Block H) → Option (Processor H)
  | [] => some p
  | b :: bs =>
    match p.processBlock K b with
    | (.ok _, p') => replay K p' bs
    | (.error _, _) => none

section content

variable {K : Keccak H} {c : Content H}

theorem latestExitRoots_concat_verifyBatches (ss : List (Step H)) (blockNum : ℕ)
    (e : VerifyBatches H) :
    latestExitRoots K (ss ++ [(blockNum, .verifyBatches e)]) =
      if e.exitRoot = K.zero then latestExitRoots K ss
      else Function.update (latestExitRoots K ss) (e.rollupID - 1).toNat e.exitRoot := by
  unfold latestExitRoots
  rw [foldl_append]
  rfl

/-- Other events do not change the latest exit roots. -/
theorem latestExitRoots_concat_other (ss : List (Step H)) {s : Step H}
    (hs : ∀ e, s.2 ≠ .verifyBatches e) :
    latestExitRoots K (ss ++ [s]) = latestExitRoots K ss := by
  unfold latestExitRoots
  rw [foldl_append]
  obtain ⟨blockNum, e | e | e | e⟩ := s
  · rfl
  · rfl
  · exact absurd rfl (hs e)
  · rfl

/-- An event of another kind does not change the exit roots. -/
theorem Content.exitRoots_of_apply {c c' : Content H} {s : Step H} (h : c.apply K s = some c')
    (hs : ∀ e, s.2 ≠ .verifyBatches e) : c'.exitRoots = c.exitRoots ∧ c'.verified = c.verified := by
  rcases apply_cases h with
    ⟨e, -, -, rfl⟩ | ⟨e, he, -⟩ | ⟨e, -, -, rfl⟩ | ⟨rfl, -⟩
  · exact ⟨rfl, rfl⟩
  · exact absurd he (hs e)
  · exact ⟨rfl, rfl⟩
  · exact ⟨rfl, rfl⟩

/-- The exit roots of a content are the latest ones of its events. -/
theorem exitRoots_eq_latest {ss : List (Step H)} (h : (empty K).applyAll K ss = some c) :
    c.exitRoots = latestExitRoots K ss := by
  induction ss using List.reverseRecOn generalizing c with
  | nil =>
    cases h
    rfl
  | append_singleton ss s ih =>
    rw [applyAll_concat] at h
    obtain ⟨c0, hss, hs⟩ := Option.bind_eq_some_iff.mp h
    have hlatest := ih hss
    by_cases hverify : ∃ e, s.2 = .verifyBatches e
    · obtain ⟨blockNum, part⟩ := s
      obtain ⟨e, rfl⟩ : ∃ e, part = .verifyBatches e := hverify
      rw [latestExitRoots_concat_verifyBatches, ← hlatest]
      simp only [apply] at hs
      split_ifs at hs with hsame hroot
      · cases hs
        rcases hsame with hzero | hold
        · rw [if_pos hzero]
        · -- the exit root is there already
          rw [Function.update_eq_self_iff.mpr hold.symm, ite_self]
      · cases hs
        rw [if_neg fun hzero => hsame (.inl hzero)]
        rfl
    · have hother : ∀ e, s.2 ≠ .verifyBatches e := fun e he => hverify ⟨e, he⟩
      rw [(exitRoots_of_apply hs hother).1, latestExitRoots_concat_other ss hother, hlatest]

/-- Every verified batch has the root over the latest exit roots at its event. -/
theorem verified_eq_rowAfter {ss : List (Step H)} (h : (empty K).applyAll K ss = some c) :
    ∀ v ∈ c.verified, ∃ pre e post, ss = pre ++ (v.blockNumber, .verifyBatches e) :: post ∧
      v = rowAfter K pre v.blockNumber e := by
  induction ss using List.reverseRecOn generalizing c with
  | nil =>
    cases h
    exact fun v hv => absurd hv not_mem_nil
  | append_singleton ss s ih =>
    have hfinal := exitRoots_eq_latest h
    rw [applyAll_concat] at h
    obtain ⟨c0, hss, hs⟩ := Option.bind_eq_some_iff.mp h
    -- a row that was there before
    have hold : ∀ v ∈ c0.verified, ∃ pre e post,
        ss ++ [s] = pre ++ (v.blockNumber, .verifyBatches e) :: post ∧
          v = rowAfter K pre v.blockNumber e := by
      intro v hv
      obtain ⟨pre, e, post, heq, hrow⟩ := ih hss v hv
      exact ⟨pre, e, post ++ [s], by rw [heq]; simp, hrow⟩
    rcases apply_cases hs with
      ⟨e, -, -, rfl⟩ | ⟨e, he, -, -, rfl⟩ | ⟨e, -, -, rfl⟩ | ⟨rfl, -⟩
    · exact hold
    · intro v hv
      rcases mem_append.mp hv with hv | hv
      · exact hold v hv
      · obtain rfl := mem_singleton.mp hv
        obtain ⟨blockNum, part⟩ := s
        obtain rfl : part = .verifyBatches e := he
        refine ⟨ss, e, [], rfl, ?_⟩
        have hroots : c0.exitRootsAfter e =
            latestExitRoots K (ss ++ [(blockNum, .verifyBatches e)]) := hfinal
        simp only [newRow, rowAfter, hroots]
    · exact hold
    · exact hold

end content

section consistent

variable {K : Keccak H} {p : Processor H} {kept : List (Block H)} {c : Content H}

/-- The indices of the stored leaves. -/
theorem Consistent.indices (h : Consistent K p kept c) :
    p.db.l1InfoLeaf.map (·.l1InfoTreeIndex.toNat) = List.range p.db.l1InfoLeaf.length := by
  have hlen : c.infos.length ≤ 2^32 := by
    have hle := h.synced.length_le
    rwa [visible, length_map] at hle
  have hindex := congrArg (List.map UInt32.toNat) h.wf.index_eq
  rw [map_map, map_map] at hindex
  rw [h.infos]
  calc c.infos.map (·.l1InfoTreeIndex.toNat)
      = (List.range c.infos.length).map (UInt32.toNat ∘ UInt32.ofNat) := hindex
    _ = (List.range c.infos.length).map id := by
        refine map_congr_left fun k hk => ?_
        exact UInt32.toNat_ofNat_of_lt' ((mem_range.mp hk).trans_le hlen)
    _ = List.range c.infos.length := map_id _

/-- The stored roots of the L1 info tree are those over the leaves up to their index. -/
theorem Consistent.roots (h : Consistent K p kept c) :
    p.l1InfoTree.store.root.map (fun r => (r.index.toNat, r.hash)) =
      (List.range p.db.l1InfoLeaf.length).map fun k => (k, root K.pair K.zero DefaultHeight
        ((p.db.l1InfoLeaf.take (k + 1)).map (L1InfoTreeLeaf.getHash K))) := by
  have hleaves : leaves c.visible = c.infos.map (L1InfoTreeLeaf.getHash K) := by
    unfold leaves visible
    rw [map_map]
    exact map_congr_left fun l hl => h.wf.hash_eq l hl
  have hlen := h.synced.length_le
  rw [visible, length_map] at hlen
  rw [h.synced.rows, h.infos]
  unfold rowsOf
  refine ext_getElem (by simp [visible]) fun i hi _ => ?_
  have hi' : i < c.infos.length := by simpa [visible] using hi
  have hindex : (UInt32.ofNat i).toNat = i := UInt32.toNat_ofNat_of_lt' (hi'.trans_le hlen)
  simp only [getElem_map, getElem_mapIdx, getElem_range, hindex, hleaves,
    map_take]

variable (hinj : Function.Injective2 K.pair) (hzero : ∀ l : L1InfoTreeLeaf H, l.getHash K ≠ K.zero)

include hinj hzero in
/-- Blocks that can be processed are, one by one. -/
theorem Consistent.replay (h : Consistent K p kept c) (hhalted : p.halted = false)
    {blocks : List (Block H)} {c' : Content H} (horderly : Orderly (kept ++ blocks))
    (hc : c.applyAll K (steps blocks) = some c') :
    ∃ q, replay K p blocks = some q ∧ Consistent K q (kept ++ blocks) c' := by
  induction blocks generalizing p kept c with
  | nil =>
    cases hc
    exact ⟨p, rfl, by rwa [append_nil]⟩
  | cons b bs ih =>
    have happend : kept ++ b :: bs = (kept ++ [b]) ++ bs := by simp
    rw [happend] at horderly ⊢
    have hsteps : steps (b :: bs) = steps [b] ++ steps bs := steps_append [b] bs
    rw [hsteps, applyAll_append] at hc
    obtain ⟨c1, hb, hbs⟩ := Option.bind_eq_some_iff.mp hc
    -- the first block is processed, since its events have a content
    rcases h.processBlocksSameTx hinj hzero horderly.of_append with
      ⟨c2, hb', hok, hstill, h'⟩ | ⟨hnone, -⟩
    · obtain rfl : c1 = c2 := Option.some.inj (hb.symm.trans hb')
      obtain ⟨q, hq, hcons⟩ := ih h' (hstill.trans hhalted) horderly hbs
      refine ⟨q, ?_, hcons⟩
      have hcall : p.processBlock K b = (.ok (), (p.processBlocksSameTx K [b]).2) := by
        unfold Processor.processBlock
        rw [hhalted, ← hok]
        rfl
      unfold L1InfoTreeSync.replay
      rw [hcall]
      exact hq
    · exact absurd (hb.symm.trans hnone) (by simp)

end consistent

/-- After every run the tables of the processor are those of the blocks it keeps. -/
theorem l1InfoTreeSync_of_run {K : Keccak H} (hinj : Function.Injective2 K.pair)
    (hzero : ∀ l : L1InfoTreeLeaf H, l.getHash K ≠ K.zero) {τ : Tracked H}
    (hrun : Reach (Tracked.call K) (Allowed K) (Tracked.new K) τ) :
    τ.processor.db.l1InfoLeaf.map (·.l1InfoTreeIndex.toNat) =
        List.range τ.processor.db.l1InfoLeaf.length ∧
      τ.processor.l1InfoTree.store.root.map (fun r => (r.index.toNat, r.hash)) =
        (List.range τ.processor.db.l1InfoLeaf.length).map (fun k =>
          (k, root K.pair K.zero DefaultHeight
            ((τ.processor.db.l1InfoLeaf.take (k + 1)).map (L1InfoTreeLeaf.getHash K)))) ∧
      (∀ v ∈ τ.processor.db.verifyBatches, ∃ pre e post,
        steps τ.kept = pre ++ (v.blockNumber, .verifyBatches e) :: post ∧
          v = rowAfter K pre v.blockNumber e) ∧
      ∃ q, replay K (Processor.new K) τ.kept = some q ∧
        q.db.block = τ.processor.db.block ∧
        q.db.l1InfoLeaf = τ.processor.db.l1InfoLeaf ∧
        q.db.verifyBatches = τ.processor.db.verifyBatches ∧
        q.l1InfoTree.store.root = τ.processor.l1InfoTree.store.root ∧
        q.rollupExitTree.root = τ.processor.rollupExitTree.root := by
  obtain ⟨c, h⟩ := exists_consistent_of_run hinj hzero hrun
  have hverified := h.verified ▸ verified_eq_rowAfter h.content
  obtain ⟨q, hq, h'⟩ := (Consistent.new K).replay hinj hzero rfl h.orderly h.content
  refine ⟨h.indices, h.roots, hverified, q, hq, ?_, ?_, ?_, ?_, ?_⟩
  · exact h'.block.trans h.block.symm
  · exact h'.infos.trans h.infos.symm
  · exact h'.verified.trans h.verified.symm
  · exact h'.synced.rows.trans h.synced.rows.symm
  · exact h'.updated.rows.trans h.updated.rows.symm

/-! ## One leaf -/

/-- An `UpdateL1InfoTree` with a mainnet exit root. -/
def leafEvent {H : Type} (zero : H) (blockPosition : ℕ) (mainnetExitRoot : H) : Event H :=
  { updateL1InfoTree := some ⟨blockPosition, mainnetExitRoot, zero, zero, 0⟩ }

/-- A block with one leaf. -/
def oneLeaf : Block (List UInt8) := ⟨1, [], [leafEvent [] 0 [7]]⟩

/-- A new processor that was given that block. -/
def afterOneLeaf : Tracked (List UInt8) :=
  (Tracked.new freeKeccak).call freeKeccak (.processBlock oneLeaf)

theorem fits_oneLeaf : Fits freeKeccak (Tracked.new freeKeccak) [oneLeaf] where
  orderly := by
    refine ⟨pairwise_singleton _ _, fun b hb => ?_, by decide⟩
    obtain rfl := mem_singleton.mp hb
    exact pairwise_singleton _ _
  rollback := by
    intro c hc hnone
    cases hc
    exact (nomatch hnone)

theorem kept_afterOneLeaf : afterOneLeaf.kept = [oneLeaf] := by
  decide +kernel

theorem l1InfoTreeSync_of_run_oneLeaf :
    afterOneLeaf.kept = [oneLeaf] ∧
      afterOneLeaf.processor.db.l1InfoLeaf.map (·.l1InfoTreeIndex.toNat) =
        List.range afterOneLeaf.processor.db.l1InfoLeaf.length ∧
      afterOneLeaf.processor.l1InfoTree.store.root.map (fun r => (r.index.toNat, r.hash)) =
        (List.range afterOneLeaf.processor.db.l1InfoLeaf.length).map (fun k =>
          (k, root freeKeccak.pair freeKeccak.zero DefaultHeight
            ((afterOneLeaf.processor.db.l1InfoLeaf.take (k + 1)).map
              (L1InfoTreeLeaf.getHash freeKeccak)))) := by
  have hrun : Reach (Tracked.call freeKeccak) (Allowed freeKeccak) (Tracked.new freeKeccak)
      afterOneLeaf := .step .init fits_oneLeaf
  obtain ⟨hindices, hroots, -⟩ :=
    l1InfoTreeSync_of_run freeKeccak_injective2_pair getHash_freeKeccak_ne_zero hrun
  exact ⟨kept_afterOneLeaf, hindices, hroots⟩

/-! ## A root after a rollback -/

/-- A first block with one leaf. The next one has two leaves and a root that does not match, so it is
rolled back and reorged. The block that then comes in its place has one leaf. -/
def rejectedBlock : List (Call ℕ) :=
  [.processBlock ⟨1, 1, [leafEvent 0 0 10]⟩,
    .processBlock ⟨2, 2, [leafEvent 0 0 20, leafEvent 0 1 30, { updateL1InfoTreeV2 := some ⟨0, 3⟩ }]⟩,
    .reorg 2,
    .processBlock ⟨2, 3, [leafEvent 0 0 40]⟩]

/-- The processor with the two blocks that it keeps. -/
def afterRejectedBlock : Tracked ℕ :=
  rejectedBlock.foldl (Tracked.call BridgeSync.toyKeccak) (Tracked.new BridgeSync.toyKeccak)

/-- The root at index 1 is the one over the second leaf of the rejected block and the new leaf. -/
theorem root_after_rollback :
    afterRejectedBlock.kept = [⟨1, 1, [leafEvent 0 0 10]⟩, ⟨2, 3, [leafEvent 0 0 40]⟩] ∧
      afterRejectedBlock.processor.l1InfoTree.store.root.map (fun r => (r.index.toNat, r.hash)) ≠
        (List.range afterRejectedBlock.processor.db.l1InfoLeaf.length).map fun k =>
          (k, root BridgeSync.toyKeccak.pair BridgeSync.toyKeccak.zero DefaultHeight
            ((afterRejectedBlock.processor.db.l1InfoLeaf.take (k + 1)).map
              (L1InfoTreeLeaf.getHash BridgeSync.toyKeccak))) := by
  simp only [← listRoot_eq_root]
  decide +kernel

end AggKit.L1InfoTreeSync
