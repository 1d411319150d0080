import Mathlib.Data.List.Chain
import AggKit.L1InfoTreeSync.Invariant

/-!
# Verified batches in every run

The table `verify_batches` and the rollup exit tree do not depend on the L1 info tree: a batch of blocks
that fails leaves both as they were, whatever the object of the L1 info tree then holds. `Verified`
ties the two to each other. It holds after every run of calls whose events come in order of block and
position.
-/

namespace AggKit.L1InfoTreeSync

open Merkle Tree Exec Run List VerifyBatches

variable {H : Type}

/-- The content of verified batches alone. -/
def Content.ofVerified (K : Keccak H) (rows : List (VerifyBatches H)) : Content H :=
  ⟨[], rows, Tree.content K.zero (rows.map write), []⟩

/-- The rollup exit tree is that of the verified batches, and each of them changed the exit root of its
rollup. -/
structure Verified (K : Keccak H) (rows : List (VerifyBatches H)) (s : Store H) : Prop where
  updated : Updated K.pair K.zero s (rows.map write)
  roots : rows.map (·.rollupExitRoot) =
    (writeRows K.pair K.zero (rows.map write)).map (·.hash)
  changes : ∀ pre v post, rows = pre ++ v :: post →
    Tree.content K.zero (pre.map write) (v.rollupID - 1).toNat ≠ v.exitRoot

section verified

variable {K : Keccak H} {rows : List (VerifyBatches H)} {s : Store H}

theorem Verified.empty (K : Keccak H) : Verified K [] (Store.empty : Store H) where
  updated := Updated.empty K.pair K.zero
  roots := rfl
  changes := fun pre v post h => absurd h (by simp)

theorem Verified.wf (h : Verified K rows s) : (Content.ofVerified K rows).WF K :=
  ⟨rfl, fun _ hl => absurd hl not_mem_nil, rfl, h.roots⟩

/-- One more verified batch. -/
theorem Verified.concat (h : Verified K rows s) {row : VerifyBatches H} {s' : Store H}
    (hupdated : Updated K.pair K.zero s' (rows.map write ++ [row.write]))
    (hroot : row.rollupExitRoot =
      contentRoot K.pair K.zero (rows.map write ++ [row.write]))
    (hchange : Tree.content K.zero (rows.map write) (row.rollupID - 1).toNat ≠
      row.exitRoot) : Verified K (rows ++ [row]) s' where
  updated := by
    rw [map_append]
    exact hupdated
  roots := by
    rw [map_append, map_append, map_singleton, map_singleton,
      writeRows_concat, map_append, h.roots, hroot]
    rfl
  changes := by
    intro pre v post heq
    rcases eq_nil_or_concat post with rfl | ⟨post', last, rfl⟩
    · obtain ⟨rfl, hlast⟩ := append_inj' heq rfl
      obtain rfl : row = v := by simpa using hlast
      exact hchange
    · have hsplit : rows ++ [row] = (pre ++ v :: post') ++ [last] := by
        rw [heq]
        simp
      exact h.changes pre v post' (append_inj' hsplit rfl).1

/-- `Reorg` takes back the late batches. -/
theorem Verified.reorg {early late : List (VerifyBatches H)} {m : ℕ}
    (h : Verified K (early ++ late) s) (hearly : ∀ v ∈ early, v.blockNumber < m)
    (hlate : ∀ v ∈ late, m ≤ v.blockNumber) : Verified K early (s.reorg m) where
  updated := by
    have hupdated := h.updated
    rw [map_append] at hupdated
    refine hupdated.reorg K.zero ?_ ?_
    · intro w hw
      obtain ⟨v, hv, rfl⟩ := mem_map.mp hw
      exact hearly v hv
    · intro w hw
      obtain ⟨v, hv, rfl⟩ := mem_map.mp hw
      exact hlate v hv
  roots := by
    have hroots := congrArg (List.take early.length) h.roots
    have htake : (writeRows K.pair K.zero ((early ++ late).map write)).take
        early.length = writeRows K.pair K.zero (early.map write) := by
      unfold writeRows
      refine ext_getElem (by simp) fun i hi hi' => ?_
      have hlt : i < early.length := by simpa using hi'
      simp only [getElem_take, getElem_mapIdx, map_append,
        take_append_of_le_length (show i + 1 ≤ (early.map write).length by
          rw [length_map]
          omega)]
      rw [getElem_append_left (by simpa using hlt)]
    rw [← map_take, ← map_take, take_left, htake] at hroots
    exact hroots
  changes := fun pre v post heq => h.changes pre v (post ++ late) (by rw [heq]; simp)

/-- The root of a verified batch is that of the writes up to it. -/
theorem Verified.rollupExitRoot_eq {pre post : List (VerifyBatches H)} {v : VerifyBatches H}
    (h : Verified K (pre ++ v :: post) s) :
    v.rollupExitRoot = contentRoot K.pair K.zero ((pre ++ [v]).map write) := by
  have hget := congrArg (fun l => l[pre.length]?) h.roots
  have htake : ((pre ++ v :: post).map write).take (pre.length + 1) =
      (pre ++ [v]).map write := by
    have hsplit : pre ++ v :: post = (pre ++ [v]) ++ post := by simp
    have hlen : pre.length + 1 = (pre ++ [v]).length := by simp
    rw [← map_take, hsplit, hlen, take_left]
  simp only [writeRows, getElem?_map, getElem?_mapIdx, htake] at hget
  simpa using hget

/-- The rollup exit root of a verified batch contains its exit root. -/
theorem Verified.getLeaf (hinj : Function.Injective2 K.pair) [DecidableEq H] (h : Verified K rows s)
    {v : VerifyBatches H} (hv : v ∈ rows) :
    Tree.getLeaf s (v.rollupID - 1) v.rollupExitRoot = some v.exitRoot := by
  obtain ⟨pre, post, rfl⟩ := append_of_mem hv
  let ws := (pre ++ [v]).map write
  have hconcat : ws = pre.map write ++ [v.write] := by simp [ws]
  have hinit : ws <+: (pre ++ v :: post).map write :=
    ⟨post.map write, by simp [ws]⟩
  have hkeep := h.updated.keeps ws hinit
  have hwritten : (v.rollupID - 1).toNat ∈ indices ws :=
    ⟨v.write, by simp [ws], rfl⟩
  have hleaf := (getLeaf_spec K.zero hinj h.updated.hashed hkeep (v.rollupID - 1)).1 hwritten
  have hvalue : Tree.content K.zero ws (v.rollupID - 1).toNat = v.exitRoot := by
    rw [hconcat, content_concat]
    exact Function.update_self _ _ _
  rw [h.rollupExitRoot_eq, ← hvalue]
  exact hleaf

/-- The exit root of a rollup after some batches is that of its last one. -/
theorem content_write_eq (rollupID : UInt32) :
    Tree.content K.zero (rows.map write) (rollupID - 1).toNat =
      ((rows.filter fun v => v.rollupID = rollupID).getLast?.map (·.exitRoot)).getD K.zero := by
  have hindex : ∀ v : VerifyBatches H,
      decide (v.write.leaf.index.toNat = (rollupID - 1).toNat) = decide (v.rollupID = rollupID) := by
    intro v
    have hiff : (v.rollupID - 1).toNat = (rollupID - 1).toNat ↔ v.rollupID = rollupID := by
      rw [UInt32.toNat_inj, UInt32.sub_left_inj]
    exact decide_eq_decide.mpr hiff
  have hfilter : (rows.map write).filter
      (fun w => w.leaf.index.toNat = (rollupID - 1).toNat) =
        (rows.filter fun v => v.rollupID = rollupID).map write := by
    rw [filter_map]
    congr 1
    exact filter_congr fun v _ => hindex v
  unfold Tree.content
  rw [hfilter, getLast?_map]
  cases (rows.filter fun v => v.rollupID = rollupID).getLast? with
  | none | some v => rfl

/-- Batches of one rollup that follow each other have different exit roots. -/
theorem Verified.isChain_exitRoot (h : Verified K rows s) (rollupID : UInt32) :
    (rows.filter fun v => v.rollupID = rollupID).IsChain fun a b => a.exitRoot ≠ b.exitRoot := by
  suffices hall : ∀ pre, pre <+: rows → (pre.filter fun v => v.rollupID = rollupID).IsChain
      fun a b => a.exitRoot ≠ b.exitRoot from hall rows (prefix_refl rows)
  intro pre
  induction pre using List.reverseRecOn with
  | nil => exact fun _ => List.IsChain.nil
  | append_singleton pre v ih =>
    rintro ⟨post, hpost⟩
    have hpre : pre <+: rows := ⟨v :: post, by rw [← hpost]; simp⟩
    rw [filter_append]
    by_cases hv : v.rollupID = rollupID
    · have hchange := h.changes pre v post (by rw [← hpost]; simp)
      rw [hv, content_write_eq] at hchange
      have hone : [v].filter (fun v => v.rollupID = rollupID) = [v] := by simp [hv]
      rw [hone]
      refine isChain_append.mpr ⟨ih hpre, isChain_singleton v, ?_⟩
      intro a ha b hb
      obtain rfl : v = b := by simpa using hb
      rw [ha] at hchange
      exact hchange
    · have hnone : [v].filter (fun v => v.rollupID = rollupID) = [] := by simp [hv]
      rw [hnone, append_nil]
      exact ih hpre

end verified

/-! ## Handlers -/

section handlers

variable [DecidableEq H] {K : Keccak H} {tx tx' : Tx H}

omit [DecidableEq H] in
theorem execute_eq_ok_iff {err : SyncError H} {statement : Tables H → Option (Tables H)} {u : Unit} :
    execute err statement tx = .ok u tx' ↔
      ∃ db, statement tx.db = some db ∧ tx' = { tx with db := db } := by
  cases hdb : statement tx.db with
  | none =>
    rw [execute_of_none hdb]
    simp
  | some db =>
    rw [execute_of_some hdb]
    simp [eq_comm]

/-- What a `VerifyBatches` that is processed can do. -/
theorem processVerifyBatches_cases {blockNum : ℕ} {e : VerifyBatches H} {u : Unit}
    (h : processVerifyBatches K blockNum e tx = .ok u tx') :
    tx' = tx ∨ (e.exitRoot ≠ K.zero ∧ isNewValueForRollupExitTree tx.rollupExitTree e = true ∧
      ∃ newRoot store, UpdatableTree.putLeaf K.pair K.zero tx.rollupExitTree blockNum
          e.blockPosition ⟨e.rollupID - 1, e.exitRoot⟩ = (.ok newRoot, store) ∧
        tx' = { tx with
          rollupExitTree := store
          db := { tx.db with verifyBatches := tx.db.verifyBatches ++
            [{ e with blockNumber := blockNum, rollupExitRoot := newRoot }] } }) := by
  unfold processVerifyBatches at h
  by_cases hzero : e.exitRoot = K.zero
  · rw [if_pos hzero] at h
    exact .inl (pure_eq_ok_iff.mp h).2.symm
  rw [if_neg hzero, bind_of_ok (get_eq_ok_iff.mpr ⟨rfl, rfl⟩)] at h
  by_cases hnew : isNewValueForRollupExitTree tx.rollupExitTree e = true
  · right
    rw [if_pos hnew] at h
    obtain ⟨newRoot, tx1, hput, hinsert⟩ := bind_eq_ok_iff.mp h
    unfold putRollupExitRoot at hput
    rw [bind_of_ok (get_eq_ok_iff.mpr ⟨rfl, rfl⟩)] at hput
    rcases ho : UpdatableTree.putLeaf K.pair K.zero tx.rollupExitTree blockNum e.blockPosition
      ⟨e.rollupID - 1, e.exitRoot⟩ with ⟨root | root, store⟩
    · rw [ho] at hput
      cases hput
    · rw [ho] at hput
      obtain ⟨_, tx2, hset, hreturn⟩ := bind_eq_ok_iff.mp hput
      obtain rfl := set_eq_ok_iff.mp hset
      obtain ⟨rfl, rfl⟩ := pure_eq_ok_iff.mp hreturn
      obtain ⟨db, hdb, rfl⟩ := execute_eq_ok_iff.mp hinsert
      obtain ⟨rows, hrows, rfl⟩ := Option.map_eq_some_iff.mp hdb
      obtain ⟨-, rfl⟩ := Table.insert_eq_some_iff.mp hrows
      exact ⟨hzero, hnew, root, store, rfl, rfl⟩
  · rw [if_neg hnew] at h
    exact .inl (pure_eq_ok_iff.mp h).2.symm

/-- The other events leave verified batches and rollup exit tree alone. -/
theorem processPart_cases {blockNum : ℕ} {index index' : UInt32} {part : EventPart H}
    (h : processPart K blockNum index part tx = .ok index' tx') :
    (∃ e u, part = .verifyBatches e ∧ processVerifyBatches K blockNum e tx = .ok u tx') ∨
      (tx'.db.verifyBatches = tx.db.verifyBatches ∧ tx'.rollupExitTree = tx.rollupExitTree) := by
  cases part with
  | updateL1InfoTree e =>
    right
    obtain ⟨u, tx1, hinsert, h⟩ := bind_eq_ok_iff.mp h
    obtain ⟨u', tx2, hput, hreturn⟩ := bind_eq_ok_iff.mp h
    obtain ⟨-, rfl⟩ := pure_eq_ok_iff.mp hreturn
    have hrows : tx1.db.verifyBatches = tx.db.verifyBatches ∧
        tx1.rollupExitTree = tx.rollupExitTree := by
      obtain ⟨db, hdb, rfl⟩ := execute_eq_ok_iff.mp hinsert
      unfold Tables.insertL1InfoLeaf at hdb
      split_ifs at hdb
      obtain ⟨rows, -, rfl⟩ := Option.map_eq_some_iff.mp hdb
      exact ⟨rfl, rfl⟩
    -- the leaf is put into the other tree
    have hleaf : tx2.db = tx1.db ∧ tx2.rollupExitTree = tx1.rollupExitTree := by
      unfold putL1InfoLeaf at hput
      rw [bind_of_ok (get_eq_ok_iff.mpr ⟨rfl, rfl⟩)] at hput
      generalize Tree.putLeaf K.pair K.zero tx1.l1InfoTree.tree tx1.l1InfoTree.store _ _ _ = o
        at hput
      cases hresult : o.result with
      | ok root =>
        simp only [hresult] at hput
        obtain rfl := set_eq_ok_iff.mp hput
        exact ⟨rfl, rfl⟩
      | error err =>
        simp only [hresult] at hput
        obtain ⟨_, tx3, -, hthrow⟩ := bind_eq_ok_iff.mp hput
        cases hthrow
    rw [hleaf.1, hleaf.2]
    exact hrows
  | updateL1InfoTreeV2 e =>
    right
    obtain ⟨u, tx1, hcheck, hreturn⟩ := bind_eq_ok_iff.mp h
    obtain ⟨-, rfl⟩ := pure_eq_ok_iff.mp hreturn
    unfold checkL1InfoRoot at hcheck
    rw [bind_of_ok (get_eq_ok_iff.mpr ⟨rfl, rfl⟩)] at hcheck
    cases hroot : tx.l1InfoTree.store.getLastRoot with
    | none =>
      simp only [hroot] at hcheck
      cases hcheck
    | some root =>
      simp only [hroot] at hcheck
      split_ifs at hcheck
      · obtain ⟨_, tx2, -, hthrow⟩ := bind_eq_ok_iff.mp hcheck
        cases hthrow
      · obtain ⟨-, rfl⟩ := pure_eq_ok_iff.mp hcheck
        exact ⟨rfl, rfl⟩
  | verifyBatches e =>
    left
    obtain ⟨u, tx1, hverify, hreturn⟩ := bind_eq_ok_iff.mp h
    obtain ⟨-, rfl⟩ := pure_eq_ok_iff.mp hreturn
    exact ⟨e, u, rfl, hverify⟩
  | initL1InfoRootMap e =>
    right
    obtain ⟨u, tx1, hinsert, hreturn⟩ := bind_eq_ok_iff.mp h
    obtain ⟨-, rfl⟩ := pure_eq_ok_iff.mp hreturn
    obtain ⟨db, hdb, rfl⟩ := execute_eq_ok_iff.mp hinsert
    unfold Tables.insertL1InfoInitial at hdb
    split_ifs at hdb
    cases hdb
    exact ⟨rfl, rfl⟩

end handlers

/-! ## Runs -/

/-- The verified batches are in step with the rollup exit tree, and each is of an event that was
processed. -/
structure Stands (K : Keccak H) (rows : List (VerifyBatches H)) (s : Store H)
    (done : List (Step H)) : Prop where
  verified : Verified K rows s
  events : ∀ v ∈ rows, ∃ e, (v.blockNumber, .verifyBatches e) ∈ done ∧
    e.blockPosition = v.blockPosition

section stands

variable {K : Keccak H} {rows : List (VerifyBatches H)} {s : Store H} {done : List (Step H)}

theorem Stands.mono (h : Stands K rows s done) {done' : List (Step H)} (hsub : done ⊆ done') :
    Stands K rows s done' where
  verified := h.verified
  events := by
    intro v hv
    obtain ⟨e, he, hpos⟩ := h.events v hv
    exact ⟨e, hsub he, hpos⟩

variable [DecidableEq H] (hinj : Function.Injective2 K.pair)

include hinj in
theorem Stands.processVerifyBatches {tx tx' : Tx H}
    (h : Stands K tx.db.verifyBatches tx.rollupExitTree done) {blockNum : ℕ} {e : VerifyBatches H}
    (hbefore : ∀ t ∈ done, t.before (blockNum, .verifyBatches e)) {u : Unit}
    (hok : processVerifyBatches K blockNum e tx = .ok u tx') :
    Stands K tx'.db.verifyBatches tx'.rollupExitTree (done ++ [(blockNum, .verifyBatches e)]) := by
  rcases processVerifyBatches_cases hok with rfl | ⟨hzero, hnew, newRoot, store, hput, rfl⟩
  · exact h.mono (subset_append_left _ _)
  let row : VerifyBatches H := { e with blockNumber := blockNum, rollupExitRoot := newRoot }
  have hchange := (isNewValueForRollupExitTree_iff hinj h.verified.wf h.verified.updated hzero).mp
    hnew
  have hafter : ∀ w ∈ tx.db.verifyBatches.map write, w.before row.write := by
    intro w hw
    obtain ⟨v, hv, rfl⟩ := mem_map.mp hw
    obtain ⟨e', he', hpos⟩ := h.events v hv
    have hlt := hbefore _ he'
    simp only [Step.before, hpos] at hlt
    exact hlt
  -- the tree accepted the write, so it does not lead back
  have hwrite : UpdatableTree.putLeaf K.pair K.zero tx.rollupExitTree row.write.blockNum
      row.write.blockPosition row.write.leaf = (.ok newRoot, store) := hput
  have hspec := h.verified.updated.putLeaf K.zero hinj hafter
  simp only [hwrite] at hspec
  rcases hspec with ⟨-, hrefused⟩ | ⟨-, hroot, hupdated⟩
  · exact absurd (congrArg Prod.fst hrefused) (by simp)
  · refine ⟨h.verified.concat hupdated (Except.ok.inj hroot) hchange, ?_⟩
    intro v hv
    rcases mem_append.mp hv with hv | hv
    · exact (h.mono (subset_append_left _ _)).events v hv
    · obtain rfl := mem_singleton.mp hv
      exact ⟨e, by simp, rfl⟩

include hinj in
theorem Stands.processParts {tx tx' : Tx H}
    (h : Stands K tx.db.verifyBatches tx.rollupExitTree done) {blockNum : ℕ} {index : UInt32}
    {parts : List (EventPart H)}
    (hsorted : (done ++ parts.map fun e => (blockNum, e)).Pairwise Step.before) {u : Unit}
    (hok : processParts K blockNum index parts tx = .ok u tx') :
    Stands K tx'.db.verifyBatches tx'.rollupExitTree (done ++ parts.map fun e => (blockNum, e)) := by
  induction parts generalizing tx index done with
  | nil =>
    obtain ⟨-, rfl⟩ := pure_eq_ok_iff.mp hok
    simpa using h
  | cons e es ih =>
    have hsplit : done ++ (e :: es).map (fun e => (blockNum, e)) =
        (done ++ [(blockNum, e)]) ++ es.map fun e => (blockNum, e) := by simp
    obtain ⟨index', tx1, hpart, hrest⟩ := bind_eq_ok_iff.mp hok
    have hbefore : ∀ t ∈ done, t.before (blockNum, e) := fun t ht =>
      (pairwise_append.mp hsorted).2.2 t ht _ (by simp)
    rw [hsplit] at hsorted ⊢
    refine ih ?_ hsorted hrest
    rcases processPart_cases hpart with ⟨e', u', rfl, hverify⟩ | ⟨hrows, hstore⟩
    · exact h.processVerifyBatches hinj hbefore hverify
    · rw [hrows, hstore]
      exact h.mono (subset_append_left _ _)

include hinj in
theorem Stands.processBlocksTx {tx tx' : Tx H}
    (h : Stands K tx.db.verifyBatches tx.rollupExitTree done) {blocks : List (Block H)}
    (hsorted : (done ++ steps blocks).Pairwise Step.before) {u : Unit}
    (hok : processBlocksTx K blocks tx = .ok u tx') :
    Stands K tx'.db.verifyBatches tx'.rollupExitTree (done ++ steps blocks) := by
  induction blocks generalizing tx done with
  | nil =>
    obtain ⟨-, rfl⟩ := pure_eq_ok_iff.mp hok
    simpa using h
  | cons b bs ih =>
    have hsplit : done ++ steps (b :: bs) = (done ++ b.steps) ++ steps bs := by simp
    rw [hsplit] at hsorted ⊢
    obtain ⟨u1, tx1, hblock, hrest⟩ := bind_eq_ok_iff.mp hok
    refine ih ?_ hsorted hrest
    -- the row of the block, then its events
    obtain ⟨u2, tx2, hinsert, hparts⟩ := bind_eq_ok_iff.mp hblock
    obtain ⟨db, hdb, rfl⟩ := execute_eq_ok_iff.mp hinsert
    obtain ⟨rows, -, rfl⟩ := Option.map_eq_some_iff.mp hdb
    rw [bind_of_ok (get_eq_ok_iff.mpr ⟨rfl, rfl⟩)] at hparts
    let tx3 : Tx H := { tx with db := { tx.db with block := rows } }
    have h3 : Stands K tx3.db.verifyBatches tx3.rollupExitTree done := h
    exact h3.processParts hinj (pairwise_append.mp hsorted).1 hparts

omit [DecidableEq H] in
/-- `Reorg` leaves the batches of the earlier blocks. -/
theorem Stands.reorg {kept : List (Block H)} (h : Stands K rows s (steps kept)) (m : ℕ) :
    Stands K (Table.deleteWhere (fun v => decide (m ≤ v.blockNumber)) rows) (s.reorg m)
      (steps (kept.filter fun b => decide (b.num < m))) := by
  have hordered := h.verified.updated.ordered
  rw [pairwise_map] at hordered
  have hblocks : rows.Pairwise fun a b =>
      decide (m ≤ a.blockNumber) = true → decide (m ≤ b.blockNumber) = true := by
    refine hordered.imp fun {a b} hab => ?_
    have hlt : a.blockNumber < b.blockNumber ∨
      a.blockNumber = b.blockNumber ∧ a.blockPosition < b.blockPosition := hab
    simp only [decide_eq_true_eq]
    omega
  obtain ⟨early, late, hrows, hdelete, hearly, hlate⟩ := Table.exists_split_deleteWhere hblocks
  have hlt : ∀ v ∈ early, v.blockNumber < m := by
    intro v hv
    have hnot := of_decide_eq_false (hearly v hv)
    omega
  rw [hdelete]
  refine ⟨(hrows ▸ h.verified).reorg hlt fun v hv => of_decide_eq_true (hlate v hv), ?_⟩
  intro v hv
  obtain ⟨e, he, hpos⟩ := h.events v (by rw [hrows]; exact mem_append_left late hv)
  obtain ⟨b, hb, hstep⟩ := mem_flatMap.mp he
  refine ⟨e, mem_flatMap.mpr ⟨b, mem_filter.mpr ⟨hb, ?_⟩, hstep⟩, hpos⟩
  -- the block of the event is the block of the batch
  obtain ⟨part, -, heq⟩ := mem_map.mp hstep
  have hnum : b.num = v.blockNumber := congrArg Prod.fst heq
  rw [hnum]
  exact decide_eq_true (hlt v hv)

/-- The blocks of a call come in order and after those that are kept. -/
def InOrder (τ : Tracked H) : Call H → Prop
  | .processBlock block => (steps (τ.kept ++ [block])).Pairwise Step.before
  | .processBlocks blocks => (steps (τ.kept ++ blocks)).Pairwise Step.before
  | .reorg _ => True

include hinj in
theorem Stands.record {τ : Tracked H} (h : Stands K τ.processor.db.verifyBatches
    τ.processor.rollupExitTree (steps τ.kept)) {blocks : List (Block H)}
    (hsorted : (steps (τ.kept ++ blocks)).Pairwise Step.before) :
    let τ' := τ.record blocks (τ.processor.processBlocksSameTx K blocks)
    Stands K τ'.processor.db.verifyBatches τ'.processor.rollupExitTree (steps τ'.kept) := by
  rw [steps_append] at hsorted
  unfold Processor.processBlocksSameTx
  cases hresult : L1InfoTreeSync.processBlocksTx K blocks τ.processor.begin with
  | ok u tx =>
    have hbegin : Stands K τ.processor.begin.db.verifyBatches τ.processor.begin.rollupExitTree
      (steps τ.kept) := h
    have hend := hbegin.processBlocksTx hinj hsorted hresult
    rw [← steps_append] at hend
    exact hend
  | error err tx => exact h

include hinj in
theorem Stands.call {τ : Tracked H} (h : Stands K τ.processor.db.verifyBatches
    τ.processor.rollupExitTree (steps τ.kept)) {call : Call H} (hcall : InOrder τ call) :
    Stands K (τ.call K call).processor.db.verifyBatches (τ.call K call).processor.rollupExitTree
      (steps (τ.call K call).kept) := by
  cases call with
  | processBlock block =>
    simp only [Tracked.call, Processor.processBlock]
    split_ifs
    · exact h
    · exact h.record hinj hcall
  | processBlocks blocks =>
    simp only [Tracked.call, Processor.processBlocks]
    split_ifs with hempty
    · simpa [Tracked.record, hempty] using h
    · exact h
    · exact h.record hinj hcall
  | reorg m => exact h.reorg m

include hinj in
/-- After every run the verified batches are in step with the rollup exit tree. -/
theorem stands_of_run {τ : Tracked H}
    (hrun : Reach (Tracked.call K) InOrder (Tracked.new K) τ) :
    Stands K τ.processor.db.verifyBatches τ.processor.rollupExitTree (steps τ.kept) :=
  hrun.invariant
    (P := fun τ => Stands K τ.processor.db.verifyBatches τ.processor.rollupExitTree (steps τ.kept))
    ⟨Verified.empty K, fun _ hv => absurd hv not_mem_nil⟩ fun _ _ h hcall => h.call hinj hcall

end stands

end AggKit.L1InfoTreeSync
