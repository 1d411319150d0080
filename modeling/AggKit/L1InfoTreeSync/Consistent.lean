import AggKit.L1InfoTreeSync.Content

/-!
# Tables and trees in step with the content

`Tx.Holds` says that the tables of a transaction list a `Content`, that the two trees are those over
it, and which leaves were put into the L1 info tree since the transaction began. `processPart` keeps
it for every event that comes after those before it in block and position; an event that
`Content.apply` refuses makes the handler fail, and then it has not touched the L1 info tree.
-/

namespace AggKit.L1InfoTreeSync

open Merkle Tree Exec List Content

variable {H : Type}

/-- The event is of an earlier block, or of the same one and not at a later position than an event of
the same kind. -/
def Step.before (s t : Step H) : Prop :=
  s.1 < t.1 ∨ (s.1 = t.1 ∧ match s.2, t.2 with
    | .updateL1InfoTree e, .updateL1InfoTree e' => e.blockPosition < e'.blockPosition
    | .verifyBatches e, .verifyBatches e' => e.blockPosition < e'.blockPosition
    | _, _ => True)

/-- The rows of the kind the event makes are of earlier blocks or positions. -/
def Content.Before (c : Content H) : Step H → Prop
  | (blockNum, .updateL1InfoTree e) => ∀ l ∈ c.infos, l.visible.before blockNum e.blockPosition
  | (blockNum, .verifyBatches e) => ∀ v ∈ c.verified,
    v.blockNumber < blockNum ∨ (v.blockNumber = blockNum ∧ v.blockPosition < e.blockPosition)
  | _ => True

/-- Rows of events that are before an event. -/
theorem Content.Grows.before [DecidableEq H] {K : Keccak H} {ss : List (Step H)} {c : Content H}
    (h : Grows ss (empty K) c) {s : Step H} (hs : ∀ t ∈ ss, t.before s) :
    c.Before s := by
  obtain ⟨blockNum, e | e | e | e⟩ := s
  · intro l hl
    obtain ⟨ls, heq, hls⟩ := h.infos
    rw [heq] at hl
    obtain ⟨e', he', hpos⟩ := hls l (by simpa [empty] using hl)
    have hbefore := hs _ he'
    simp only [Step.before, hpos] at hbefore
    exact hbefore
  · trivial
  · intro v hv
    obtain ⟨vs, heq, hvs⟩ := h.verified
    rw [heq] at hv
    obtain ⟨e', he', hpos⟩ := hvs v (by simpa [empty] using hv)
    have hbefore := hs _ he'
    simp only [Step.before, hpos] at hbefore
    exact hbefore
  · trivial

/-- The call of `PutLeaf` for a leaf. -/
def L1InfoTreeLeaf.put (l : L1InfoTreeLeaf H) : Put H :=
  ⟨l.blockNumber, l.blockPosition, ⟨l.l1InfoTreeIndex, l.hash⟩⟩

variable [DecidableEq H]

/-- Tables and trees of the transaction are those of the content, and it began with the first `n`
leaves and the object `σ`. -/
structure Tx.Holds (K : Keccak H) (σ : State H) (n : ℕ) (c : Content H) (tx : Tx H) : Prop where
  wf : c.WF K
  infos : tx.db.l1InfoLeaf = c.infos
  verified : tx.db.verifyBatches = c.verified
  initial : tx.db.l1InfoInitial = c.initial
  synced : Synced K.pair K.zero ⟨tx.l1InfoTree.tree, tx.l1InfoTree.store⟩ c.visible
  updated : Updated K.pair K.zero tx.rollupExitTree c.writes
  le : n ≤ c.infos.length
  puts : (Tree.Tx.begin σ).putLeaves K.pair K.zero ((c.infos.drop n).map L1InfoTreeLeaf.put) =
    some tx.l1InfoTree

/-! ## Statements -/

omit [DecidableEq H] in
theorem execute_of_some {err : SyncError H} {statement : Tables H → Option (Tables H)} {tx : Tx H}
    {db : Tables H} (h : statement tx.db = some db) :
    execute err statement tx = .ok () { tx with db := db } := by
  unfold execute
  rw [bind_of_ok (get_eq_ok_iff.mpr ⟨rfl, rfl⟩)]
  simp only [h]
  rfl

omit [DecidableEq H] in
theorem execute_of_none {err : SyncError H} {statement : Tables H → Option (Tables H)} {tx : Tx H}
    (h : statement tx.db = none) : execute err statement tx = .error err tx := by
  unfold execute
  rw [bind_of_ok (get_eq_ok_iff.mpr ⟨rfl, rfl⟩)]
  simp only [h]
  rfl

omit [DecidableEq H] in
/-- The next leaf has the number of leaves as its index. -/
theorem Content.WF.initialL1InfoIndex {c : Content H} {K : Keccak H} (hc : c.WF K) {db : Tables H}
    (hdb : db.l1InfoLeaf = c.infos)
    (hordered : c.infos.Pairwise fun a b => a.key < b.key) :
    db.initialL1InfoIndex = UInt32.ofNat c.infos.length := by
  unfold Tables.initialL1InfoIndex Tables.getLastIndex
  rw [hdb]
  rcases eq_nil_or_concat c.infos with hnil | ⟨ls, l, hconcat⟩
  · rw [hnil]
    rfl
  · rw [concat_eq_append] at hconcat
    have hindex := hc.index_eq
    rw [hconcat, length_append, length_singleton, range_succ, map_append,
      map_append] at hindex
    have hlast : l.l1InfoTreeIndex = UInt32.ofNat ls.length := by
      simpa using (append_inj' hindex rfl).2
    rw [hconcat] at hordered ⊢
    have hle : ∀ a ∈ ls, decide (a.key ≤ l.key) = true := by
      intro a ha
      have hlt := (pairwise_append.mp hordered).2.2 a ha l (mem_singleton_self l)
      exact decide_eq_true hlt.le
    rw [Table.lastBy_concat_of_le hle]
    simp only [Option.map_some, hlast, length_append, length_singleton]
    exact (UInt32.ofNat_add _ _).symm

/-! ## The rollup exit tree -/

section rollupExitTree

variable {K : Keccak H} (hinj : Function.Injective2 K.pair) {c : Content H} {s : Store H}

omit [DecidableEq H] in
/-- The last root of the tree is that over the exit roots. -/
theorem Content.WF.lastRoot (hc : c.WF K) (hs : Updated K.pair K.zero s c.writes) :
    UpdatableTree.lastRootHash K.pair K.zero s = node K.pair c.exitRoots DefaultHeight 0 := by
  rw [hs.lastRootHash K.zero, contentRoot, hc.exitRoots_eq]

omit [DecidableEq H] in
/-- The leaf of a rollup without a write is zero. -/
theorem Content.WF.exitRoots_of_not_mem (hc : c.WF K) {n : ℕ} (hn : n ∉ indices c.writes) :
    c.exitRoots n = K.zero := by
  have hnone : c.writes.filter (fun w => w.leaf.index.toNat = n) = [] := by
    apply filter_eq_nil_iff.mpr
    intro w hw heq
    exact hn ⟨w, hw, by simpa using heq⟩
  rw [← hc.exitRoots_eq, Tree.content, hnone]
  rfl

include hinj

/-- A non-zero exit root is new exactly when it is not the latest of its rollup. -/
theorem isNewValueForRollupExitTree_iff (hc : c.WF K) (hs : Updated K.pair K.zero s c.writes)
    {e : VerifyBatches H} (hzero : e.exitRoot ≠ K.zero) :
    isNewValueForRollupExitTree s e = true ↔
      c.exitRoots (e.rollupID - 1).toNat ≠ e.exitRoot := by
  have hlast := hc.lastRoot hs
  have hkeep := hs.keeps c.writes (prefix_refl _)
  rw [hc.exitRoots_eq] at hkeep
  obtain ⟨hwritten, hunwritten⟩ := getLeaf_spec K.zero hinj hs.hashed hkeep (e.rollupID - 1)
  unfold isNewValueForRollupExitTree
  unfold UpdatableTree.lastRootHash at hlast
  cases hroot : s.getLastRoot with
  | none =>
    -- there is no write at all
    have hrows : s.root = [] := Table.lastBy_eq_none_iff.mp hroot
    have hwrites : c.writes = [] := by
      have hlen := congrArg List.length (hs.rows.symm.trans hrows)
      simpa [writeRows] using hlen
    have hlatest : c.exitRoots (e.rollupID - 1).toNat = K.zero := by
      apply hc.exitRoots_of_not_mem
      rw [hwrites]
      rintro ⟨w, hw, -⟩
      cases hw
    simp only [hlatest, true_iff]
    exact hzero.symm
  | some currentRoot =>
    rw [hroot] at hlast
    have hhash : currentRoot.hash = node K.pair c.exitRoots DefaultHeight 0 := hlast
    by_cases hmem : (e.rollupID - 1).toNat ∈ indices c.writes
    · simp only [hhash, hwritten hmem]
      simp
    · have hlatest := hc.exitRoots_of_not_mem hmem
      rw [hlatest]
      simp only [hhash]
      rcases hunwritten hmem with hnone | hsome
      · simp only [hnone, true_iff]
        exact hzero.symm
      · simp [hsome]

omit hinj [DecidableEq H] in
/-- The write of a row that changes an exit root leads to its root. -/
theorem Content.WF.contentRoot_concat (hc : c.WF K) (blockNum : ℕ) (e : VerifyBatches H) :
    contentRoot K.pair K.zero (c.writes ++ [(c.newRow K blockNum e).write]) =
      (c.newRow K blockNum e).rollupExitRoot := by
  rw [contentRoot, content_concat, hc.exitRoots_eq]
  rfl

omit [DecidableEq H] in
/-- The root of a row is in the tables exactly when it is the root of a row before. -/
theorem Content.WF.returns_iff (hc : c.WF K) (hs : Updated K.pair K.zero s c.writes)
    (blockNum : ℕ) (e : VerifyBatches H) :
    Returns K.zero c.writes (c.newRow K blockNum e).write ↔
      ∃ v ∈ c.verified, v.rollupExitRoot = (c.newRow K blockNum e).rollupExitRoot := by
  rw [← hs.exists_row_iff K.zero hinj, hc.contentRoot_concat]
  have hroots : c.verified.map (·.rollupExitRoot) = s.root.map (·.hash) := by
    rw [hc.roots_eq, hs.rows]
  have hmem : ∀ r : H, (∃ v ∈ c.verified, v.rollupExitRoot = r) ↔ ∃ x ∈ s.root, x.hash = r := by
    intro r
    rw [← mem_map, hroots, mem_map]
  exact (hmem _).symm

end rollupExitTree

/-! ## One event -/

section part

variable {K : Keccak H} {σ : State H} {n : ℕ} {c : Content H} {tx : Tx H}

/-- A handler did what the content says of an event: it succeeded and the transaction holds the new
content, or it failed before it touched the L1 info tree. -/
def Agrees {α : Type} (K : Keccak H) (σ : State H) (n : ℕ) (tx : Tx H) (c' : Option (Content H))
    (result : EStateM.Result (SyncError H) (Tx H) α) (value : Content H → α) : Prop :=
  match c' with
  | some c' => ∃ tx', result = .ok (value c') tx' ∧ tx'.Holds K σ n c' ∧
      tx'.db.block = tx.db.block ∧ tx'.halted = tx.halted
  | none => ∃ err tx', result = .error err tx' ∧ tx'.l1InfoTree = tx.l1InfoTree

variable (hinj : Function.Injective2 K.pair)
include hinj

variable {blockNum : ℕ}

theorem putRollupExitRoot_spec (h : tx.Holds K σ n c) {e : VerifyBatches H}
    (hbefore : c.Before (blockNum, .verifyBatches e)) : let row := c.newRow K blockNum e
    (Returns K.zero c.writes row.write ∧
        putRollupExitRoot K blockNum e tx = .error (.upsertLeaf .rootExists) tx) ∨
      (¬ Returns K.zero c.writes row.write ∧ ∃ store,
        putRollupExitRoot K blockNum e tx =
          .ok row.rollupExitRoot { tx with rollupExitTree := store } ∧
        Updated K.pair K.zero store (c.writes ++ [row.write])) := by
  intro row
  have hafter : ∀ w ∈ c.writes, w.before row.write := by
    intro w hw
    obtain ⟨v, hv, rfl⟩ := mem_map.mp hw
    exact hbefore v hv
  have hput := h.updated.putLeaf K.zero hinj hafter
  have hargs : UpdatableTree.putLeaf K.pair K.zero tx.rollupExitTree row.write.blockNum
      row.write.blockPosition row.write.leaf = UpdatableTree.putLeaf K.pair K.zero
        tx.rollupExitTree blockNum e.blockPosition ⟨e.rollupID - 1, e.exitRoot⟩ := rfl
  rw [hargs] at hput
  unfold putRollupExitRoot
  rw [bind_of_ok (get_eq_ok_iff.mpr ⟨rfl, rfl⟩)]
  generalize UpdatableTree.putLeaf K.pair K.zero tx.rollupExitTree blockNum e.blockPosition
    ⟨e.rollupID - 1, e.exitRoot⟩ = o at hput ⊢
  rcases hput with ⟨hreturns, ho⟩ | ⟨hnot, hresult, hnext⟩
  · left
    rw [ho]
    exact ⟨hreturns, rfl⟩
  · right
    obtain ⟨result, store⟩ := o
    simp only at hresult hnext
    rw [h.wf.contentRoot_concat] at hresult
    rw [hresult]
    exact ⟨hnot, store, rfl, hnext⟩

theorem processVerifyBatches_spec (h : tx.Holds K σ n c) {e : VerifyBatches H}
    (hbefore : c.Before (blockNum, .verifyBatches e)) :
    Agrees K σ n tx (c.apply K (blockNum, .verifyBatches e))
      (processVerifyBatches K blockNum e tx) fun _ => () := by
  unfold Agrees processVerifyBatches
  simp only [apply]
  by_cases hzero : e.exitRoot = K.zero
  · -- the event is skipped
    rw [if_pos hzero, if_pos (.inl hzero)]
    exact ⟨tx, rfl, h, rfl, rfl⟩
  rw [if_neg hzero]
  have hnew := isNewValueForRollupExitTree_iff hinj h.wf h.updated hzero
  by_cases hsame : c.exitRoots (e.rollupID - 1).toNat = e.exitRoot
  · -- the exit root is the latest one already
    have hold : ¬ isNewValueForRollupExitTree tx.rollupExitTree e = true :=
      fun htrue => hnew.mp htrue hsame
    rw [if_pos (.inr hsame), bind_of_ok (get_eq_ok_iff.mpr ⟨rfl, rfl⟩), if_neg hold]
    exact ⟨tx, rfl, h, rfl, rfl⟩
  have hchanged : ¬ (e.exitRoot = K.zero ∨ c.exitRoots (e.rollupID - 1).toNat = e.exitRoot) :=
    not_or.mpr ⟨hzero, hsame⟩
  rw [if_neg hchanged, bind_of_ok (get_eq_ok_iff.mpr ⟨rfl, rfl⟩), if_pos (hnew.mpr hsame)]
  have hreturns := h.wf.returns_iff hinj h.updated blockNum e
  rcases putRollupExitRoot_spec hinj h hbefore with ⟨hback, hput⟩ | ⟨hfresh, store, hput, hnext⟩
  · rw [if_pos (hreturns.mp hback), bind_of_error hput]
    exact ⟨_, tx, rfl, rfl⟩
  · rw [if_neg fun hex => hfresh (hreturns.mpr hex), bind_of_ok hput]
    have hkey : ∀ v ∈ tx.db.verifyBatches, v.key ≠ (c.newRow K blockNum e).key := by
      intro v hv hkey
      rw [h.verified] at hv
      have hpair : (v.blockNumber, v.blockPosition) = (blockNum, e.blockPosition) := hkey
      obtain ⟨hnum, hpos⟩ := Prod.mk.inj hpair
      have := hbefore v hv
      omega
    have hinsert : tx.db.insertVerifyBatches (c.newRow K blockNum e) =
        some { tx.db with verifyBatches := tx.db.verifyBatches ++ [c.newRow K blockNum e] } := by
      unfold Tables.insertVerifyBatches
      rw [Table.insert_of_fresh hkey]
      rfl
    have happly : c.apply K (blockNum, .verifyBatches e) = some { c with
        verified := c.verified ++ [c.newRow K blockNum e]
        exitRoots := c.exitRootsAfter e } :=
      (if_neg hchanged).trans (if_neg fun hex => hfresh (hreturns.mpr hex))
    refine ⟨_, execute_of_some hinsert, ⟨h.wf.apply happly, h.infos, ?_, h.initial, h.synced, ?_,
      h.le, h.puts⟩, rfl, rfl⟩
    · rw [h.verified]
    · show Updated K.pair K.zero store ((c.verified ++ [c.newRow K blockNum e]).map _)
      rw [map_append]
      exact hnext

omit hinj in
/-- One more put in a transaction. -/
theorem putLeaves_concat {t t' t'' : Tree.Tx H} {qs : List (Put H)} {q : Put H}
    (hqs : t.putLeaves K.pair K.zero qs = some t') (hq : t'.putLeaf K.pair K.zero q = some t'') :
    t.putLeaves K.pair K.zero (qs ++ [q]) = some t'' := by
  induction qs generalizing t with
  | nil =>
    obtain rfl := Option.some.inj hqs
    show ((t.putLeaf K.pair K.zero q).bind fun t1 => t1.putLeaves K.pair K.zero []) = some t''
    rw [hq]
    rfl
  | cons q0 qs ih =>
    obtain ⟨t1, hput, hrest⟩ := Option.bind_eq_some_iff.mp hqs
    show ((t.putLeaf K.pair K.zero q0).bind fun t1 => t1.putLeaves K.pair K.zero (qs ++ [q])) = _
    rw [hput]
    exact ih hrest

/-- A leaf after the others is put. -/
theorem putL1InfoLeaf_spec (tx : Tx H) (info : L1InfoTreeLeaf H)
    (hsynced : Synced K.pair K.zero ⟨tx.l1InfoTree.tree, tx.l1InfoTree.store⟩ c.visible)
    (hle : n ≤ c.infos.length) (hputs : (Tree.Tx.begin σ).putLeaves K.pair K.zero
      ((c.infos.drop n).map L1InfoTreeLeaf.put) = some tx.l1InfoTree)
    (hindex : info.l1InfoTreeIndex = UInt32.ofNat c.infos.length) (hlen : c.infos.length < 2^32)
    (hzero : info.hash ≠ K.zero)
    (hbefore : ∀ l ∈ c.infos, l.visible.before info.blockNumber info.blockPosition) :
    ∃ t, putL1InfoLeaf K info tx = .ok () { tx with l1InfoTree := t } ∧
      Synced K.pair K.zero ⟨t.tree, t.store⟩ (c.visible ++ [info.visible]) ∧
      (Tree.Tx.begin σ).putLeaves K.pair K.zero
        (((c.infos ++ [info]).drop n).map L1InfoTreeLeaf.put) = some t := by
  have hnat : info.l1InfoTreeIndex.toNat = c.visible.length := by
    rw [hindex, UInt32.toNat_ofNat_of_lt' hlen, visible, length_map]
  have hafter : ∀ v ∈ c.visible, v.before info.blockNumber info.blockPosition := by
    intro v hv
    obtain ⟨l, hl, rfl⟩ := mem_map.mp hv
    exact hbefore l hl
  have hleaf : (⟨info.l1InfoTreeIndex, info.hash⟩ : Tree.Leaf H).index.toNat = c.visible.length :=
    hnat
  rcases hsynced.putLeaf K.zero hinj hleaf hafter with
    ⟨⟨hz, -⟩, -⟩ | ⟨-, hresult, -, hsynced'⟩
  · exact absurd hz hzero
  let o := Tree.putLeaf K.pair K.zero tx.l1InfoTree.tree tx.l1InfoTree.store info.blockNumber
    info.blockPosition ⟨info.l1InfoTreeIndex, info.hash⟩
  let t : Tree.Tx H := ⟨o.tree, o.store, tx.l1InfoTree.saved,
    tx.l1InfoTree.rollbackCallbacks ++ [decreaseIndex]⟩
  refine ⟨t, ?_, hsynced', ?_⟩
  · unfold putL1InfoLeaf
    rw [bind_of_ok (get_eq_ok_iff.mpr ⟨rfl, rfl⟩)]
    simp only [hresult]
    rfl
  · have hone : tx.l1InfoTree.putLeaf K.pair K.zero info.put = some t := by
      simp only [Tree.Tx.putLeaf, L1InfoTreeLeaf.put, hresult]
      rfl
    rw [drop_append_of_le_length hle, map_append]
    exact putLeaves_concat hputs hone

omit hinj in
/-- A handler followed by a value that the content determines. -/
theorem Agrees.return {α : Type} {x : Proc H Unit} {c' : Option (Content H)}
    (hx : Agrees K σ n tx c' (x tx) fun _ => ()) {a : α} {value : Content H → α}
    (ha : ∀ c1, c' = some c1 → value c1 = a) :
    Agrees K σ n tx c' ((x >>= fun _ => pure a) tx) value := by
  cases c' with
  | none =>
    obtain ⟨err, tx', herr, htree⟩ := hx
    exact ⟨err, tx', bind_of_error herr, htree⟩
  | some c1 =>
    obtain ⟨tx', hok, hrest⟩ := hx
    refine ⟨tx', ?_, hrest⟩
    rw [bind_of_ok hok, ha c1 rfl]
    rfl

theorem processUpdate_spec (hzero : ∀ l : L1InfoTreeLeaf H, l.getHash K ≠ K.zero)
    (h : tx.Holds K σ n c) {e : UpdateL1InfoTree H}
    (hbefore : c.Before (blockNum, .updateL1InfoTree e)) (hlen : c.infos.length < 2^32) :
    Agrees K σ n tx (c.apply K (blockNum, .updateL1InfoTree e))
      (processPart K blockNum (UInt32.ofNat c.infos.length) (.updateL1InfoTree e) tx)
      fun c' => UInt32.ofNat c'.infos.length := by
  let info := newL1InfoTreeLeaf K blockNum (UInt32.ofNat c.infos.length) e
  by_cases hger : ∃ l ∈ c.infos, l.globalExitRoot = info.globalExitRoot
  · -- the global exit root is there already
    have hnone : c.apply K (blockNum, .updateL1InfoTree e) = none := if_pos hger
    have hinsert : tx.db.insertL1InfoLeaf info = none := by
      unfold Tables.insertL1InfoLeaf
      rw [h.infos, if_pos]
      obtain ⟨l, hl, heq⟩ := hger
      exact any_eq_true.mpr ⟨l, hl, decide_eq_true heq⟩
    rw [hnone]
    exact ⟨_, tx, bind_of_error (execute_of_none hinsert), rfl⟩
  · have hsome : c.apply K (blockNum, .updateL1InfoTree e) =
        some { c with infos := c.infos ++ [info] } := if_neg hger
    have hkey : ∀ l ∈ tx.db.l1InfoLeaf, l.key ≠ info.key := by
      intro l hl hkey
      rw [h.infos] at hl
      have hpair : (l.blockNumber, l.blockPosition) = (blockNum, e.blockPosition) := hkey
      obtain ⟨hnum, hpos⟩ := Prod.mk.inj hpair
      have hlt : l.blockNumber < blockNum ∨
        l.blockNumber = blockNum ∧ l.blockPosition < e.blockPosition := hbefore l hl
      omega
    have hinsert : tx.db.insertL1InfoLeaf info =
        some { tx.db with l1InfoLeaf := tx.db.l1InfoLeaf ++ [info] } := by
      unfold Tables.insertL1InfoLeaf
      rw [if_neg, Table.insert_of_fresh hkey]
      · rfl
      · rw [h.infos]
        intro hany
        obtain ⟨l, hl, heq⟩ := any_eq_true.mp hany
        exact hger ⟨l, hl, of_decide_eq_true heq⟩
    let tx1 : Tx H := { tx with db := { tx.db with l1InfoLeaf := tx.db.l1InfoLeaf ++ [info] } }
    obtain ⟨t, hput, hsynced, hputs⟩ :=
      putL1InfoLeaf_spec hinj tx1 info h.synced h.le h.puts rfl hlen (hzero _) hbefore
    rw [hsome]
    refine ⟨{ tx1 with l1InfoTree := t }, ?_, ⟨h.wf.apply hsome, ?_, h.verified, h.initial, ?_,
      h.updated, ?_, hputs⟩, rfl, rfl⟩
    · refine (bind_of_ok (execute_of_some hinsert)).trans ((bind_of_ok hput).trans ?_)
      simp only [length_append, length_singleton, UInt32.ofNat_add]
      rfl
    · show tx.db.l1InfoLeaf ++ [info] = c.infos ++ [info]
      rw [h.infos]
    · show Synced K.pair K.zero _ ((c.infos ++ [info]).map L1InfoTreeLeaf.visible)
      rw [map_append]
      exact hsynced
    · have hle := h.le
      rw [length_append]
      omega

omit hinj in
/-- The last root is that over all leaves. -/
theorem Tx.Holds.getLastRoot (h : tx.Holds K σ n c) :
    tx.l1InfoTree.store.getLastRoot.map (fun r => (r.hash, r.index + 1)) =
      if c.infos = [] then none
      else some (root K.pair K.zero DefaultHeight (c.infos.map (·.hash)),
        UInt32.ofNat c.infos.length) := by
  have hsynced := h.synced
  have hvisible : c.visible = c.infos.map L1InfoTreeLeaf.visible := rfl
  rcases eq_nil_or_concat c.infos with hnil | ⟨ls, l, hconcat⟩
  · rw [hvisible, hnil] at hsynced
    have hempty : tx.l1InfoTree.store.getLastRoot = none := by
      unfold Store.getLastRoot
      rw [hsynced.rows]
      rfl
    rw [hempty, if_pos hnil]
    rfl
  · rw [concat_eq_append] at hconcat
    have hne : c.infos ≠ [] := by simp [hconcat]
    rw [hvisible, hconcat, map_append, map_singleton] at hsynced
    have hleaves : leaves (ls.map L1InfoTreeLeaf.visible) = ls.map (·.hash) := by
      simp [leaves, L1InfoTreeLeaf.visible, Function.comp_def]
    rw [hsynced.getLastRoot_concat, if_neg hne, hconcat]
    simp only [Option.map_some, hleaves, length_map, map_append, map_singleton,
      length_append, length_singleton, UInt32.ofNat_add]
    rfl

omit hinj in
theorem checkL1InfoRoot_spec (h : tx.Holds K σ n c) (blockNum : ℕ) (e : UpdateL1InfoTreeV2 H) :
    Agrees K σ n tx (c.apply K (blockNum, .updateL1InfoTreeV2 e)) (checkL1InfoRoot e tx)
      fun _ => () := by
  have hlast := h.getLastRoot
  unfold checkL1InfoRoot
  rw [bind_of_ok (get_eq_ok_iff.mpr ⟨rfl, rfl⟩)]
  simp only [apply]
  by_cases hnil : c.infos = []
  · -- there is no root to compare with
    rw [if_pos hnil, Option.map_eq_none_iff] at hlast
    rw [if_neg fun hok => hok.1 hnil]
    simp only [hlast]
    exact ⟨_, tx, rfl, rfl⟩
  · rw [if_neg hnil] at hlast
    obtain ⟨r, hr, hpair⟩ := Option.map_eq_some_iff.mp hlast
    obtain ⟨hhash, hindex⟩ := Prod.mk.inj hpair
    simp only [hr, ne_eq, hnil, not_false_eq_true, true_and]
    rw [hhash, hindex]
    by_cases hsame : root K.pair K.zero DefaultHeight (c.infos.map (·.hash)) =
        e.currentL1InfoRoot ∧ UInt32.ofNat c.infos.length = e.leafCount
    · rw [if_pos hsame, if_neg fun hne => hne.elim (fun h => h hsame.1) fun h => h hsame.2]
      exact ⟨tx, rfl, h, rfl, rfl⟩
    · rw [if_neg hsame, if_pos (not_and_or.mp hsame)]
      exact ⟨_, _, rfl, rfl⟩

/-- Every event that comes after the others is processed as the content says. -/
theorem processPart_spec (hzero : ∀ l : L1InfoTreeLeaf H, l.getHash K ≠ K.zero)
    (h : tx.Holds K σ n c) {part : EventPart H} (hbefore : c.Before (blockNum, part))
    (hlen : Step.isUpdate (blockNum, part) = true → c.infos.length < 2^32) :
    Agrees K σ n tx (c.apply K (blockNum, part))
      (processPart K blockNum (UInt32.ofNat c.infos.length) part tx)
      fun c' => UInt32.ofNat c'.infos.length := by
  cases part with
  | updateL1InfoTree e => exact processUpdate_spec hinj hzero h hbefore (hlen rfl)
  | updateL1InfoTreeV2 e =>
    refine (checkL1InfoRoot_spec h blockNum e).return fun c1 hc1 => ?_
    rcases apply_cases hc1 with ⟨e, he, -⟩ | ⟨e, he, -⟩ | ⟨e, he, -⟩ | ⟨rfl, -⟩
    · cases he
    · cases he
    · cases he
    · rfl
  | verifyBatches e =>
    refine (processVerifyBatches_spec hinj h hbefore).return fun c1 hc1 => ?_
    rcases apply_cases hc1 with ⟨e, he, -⟩ | ⟨e, -, -, -, rfl⟩ | ⟨e, he, -⟩ | ⟨rfl, -⟩
    · cases he
    · rfl
    · cases he
    · rfl
  | initL1InfoRootMap e =>
    by_cases hnone : c.initial = []
    · have hsome : c.apply K (blockNum, .initL1InfoRootMap e) =
          some { c with initial := [⟨blockNum, e.leafCount, e.currentL1InfoRoot⟩] } := if_pos hnone
      have hinsert : tx.db.insertL1InfoInitial ⟨blockNum, e.leafCount, e.currentL1InfoRoot⟩ =
          some { tx.db with
            l1InfoInitial := [⟨blockNum, e.leafCount, e.currentL1InfoRoot⟩] } :=
        if_pos (h.initial.trans hnone)
      rw [hsome]
      refine ⟨_, bind_of_ok (execute_of_some hinsert), ?_, rfl, rfl⟩
      exact ⟨h.wf.apply hsome, h.infos, h.verified, rfl, h.synced, h.updated, h.le, h.puts⟩
    · have hrefused : c.apply K (blockNum, .initL1InfoRootMap e) = none := if_neg hnone
      have hinsert : tx.db.insertL1InfoInitial ⟨blockNum, e.leafCount, e.currentL1InfoRoot⟩ =
          none := if_neg fun hnil => hnone (h.initial.symm.trans hnil)
      rw [hrefused]
      exact ⟨_, tx, bind_of_error (execute_of_none hinsert), rfl⟩

end part

end AggKit.L1InfoTreeSync
