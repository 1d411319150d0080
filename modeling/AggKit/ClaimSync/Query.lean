import Mathlib.Data.Finset.Max
import AggKit.ClaimSync.Storage

/-!
# What the claim queries return

The ranks of the queries say which row of a global index is the oldest and which is the newest
(`rnOldest_eq_one_iff`, `rnNewest_eq_one_iff`), so a compacted claim is made of these two. From
`mem_selectCompacted` on the queries are described by the rows of the table and no rank appears.

The last section puts the results of `GetClaims` on consecutive ranges together. A global index
without an unset claim appears in the result of the one range that has both its oldest and its
newest row (`filter_getClaims`). If a boundary separates the two, no range returns it.
-/

namespace AggKit.ClaimSync

open List ClaimStorage

variable {H : Type}

/-- The row is the oldest of its global index. -/
def IsOldest (rows : List (Claim H)) (c : Claim H) : Prop :=
  ∀ d ∈ rows, d.globalIndex = c.globalIndex → c.key ≤ d.key

/-- The row is the newest of its global index. -/
def IsNewest (rows : List (Claim H)) (c : Claim H) : Prop :=
  ∀ d ∈ rows, d.globalIndex = c.globalIndex → d.key ≤ c.key

theorem rnOldest_eq_one_iff (rows : List (Claim H)) (c : Claim H) :
    rnOldest rows c = 1 ↔ IsOldest rows c := by
  unfold rnOldest IsOldest
  simp only [Nat.add_eq_right, countP_eq_zero, decide_eq_true_eq, not_and, not_lt]

theorem rnNewest_eq_one_iff (rows : List (Claim H)) (c : Claim H) :
    rnNewest rows c = 1 ↔ IsNewest rows c := by
  unfold rnNewest IsNewest
  simp only [Nat.add_eq_right, countP_eq_zero, decide_eq_true_eq, not_and, not_lt]

@[simp]
theorem compact_globalIndex (o n : Claim H) : (compact o n).globalIndex = o.globalIndex := rfl

@[simp]
theorem compact_key (o n : Claim H) : (compact o n).key = o.key := rfl

variable {s : ClaimStorage H} {rows : List (Claim H)} {c : Claim H}

/-- The rows of a query, in terms of oldest and newest rows. -/
theorem mem_selectCompacted {selected : List (Claim H)} :
    c ∈ selectCompacted s rows selected ↔
      (c ∈ selected ∧ s.hasUnset c.globalIndex = true) ∨
        ∃ o ∈ selected, ∃ n ∈ selected, n.globalIndex = o.globalIndex ∧
          s.hasUnset o.globalIndex = false ∧ IsOldest rows o ∧ IsNewest rows n ∧
          c = compact o n := by
  unfold selectCompacted orderByKey
  simp only [(perm_insertionSort _ _).mem_iff, mem_append, mem_filter,
    mem_flatMap, mem_map, decide_eq_true_eq, rnOldest_eq_one_iff, rnNewest_eq_one_iff,
    Bool.not_eq_true]
  constructor
  · rintro (hunset | ⟨o, ⟨ho, hold, hfree⟩, n, ⟨hn, hgi, hnew⟩, rfl⟩)
    · exact .inl hunset
    · exact .inr ⟨o, ho, n, hn, hgi, hfree, hold, hnew, rfl⟩
  · rintro (hunset | ⟨o, ho, n, hn, hgi, hfree, hold, hnew, rfl⟩)
    · exact .inl hunset
    · exact .inr ⟨o, ⟨ho, hold, hfree⟩, n, ⟨hn, hgi, hnew⟩, rfl⟩

/-- The results of a query are ordered by block and position. -/
theorem selectCompacted_pairwise (s : ClaimStorage H) (rows selected : List (Claim H)) :
    (selectCompacted s rows selected).Pairwise fun a b => a.key ≤ b.key :=
  pairwise_insertionSort (r := fun a b : Claim H => a.key ≤ b.key) _

/-- Rows with one key are equal. -/
theorem ClaimStorage.eq_of_key_eq (s : ClaimStorage H) {d : Claim H} (hc : c ∈ s.claim)
    (hd : d ∈ s.claim) (hkey : c.key = d.key) : c = d :=
  inj_on_of_nodup_map s.claim_key hc hd hkey

theorem blockNum_le_of_key_le {d : Claim H} (hle : c.key ≤ d.key) : c.blockNum ≤ d.blockNum := by
  rcases Prod.Lex.toLex_le_toLex.mp hle with hlt | ⟨heq, -⟩
  · exact Nat.le_of_lt hlt
  · exact Nat.le_of_eq heq

theorem ClaimStorage.nodup_claim (s : ClaimStorage H) : s.claim.Nodup :=
  s.claim_key.of_map

/-- Every global index among rows has an oldest one. -/
theorem exists_isOldest (hc : c ∈ rows) :
    ∃ o ∈ rows, o.globalIndex = c.globalIndex ∧ IsOldest rows o := by
  classical
  obtain ⟨o, ho, hmin⟩ := Finset.exists_min_image
    (rows.toFinset.filter fun d => d.globalIndex = c.globalIndex) Claim.key ⟨c, by simpa using hc⟩
  simp only [Finset.mem_filter, mem_toFinset] at ho hmin
  exact ⟨o, ho.1, ho.2, fun d hd hgi => hmin d ⟨hd, hgi.trans ho.2⟩⟩

/-- Every global index among rows has a newest one. -/
theorem exists_isNewest (hc : c ∈ rows) :
    ∃ n ∈ rows, n.globalIndex = c.globalIndex ∧ IsNewest rows n := by
  classical
  obtain ⟨n, hn, hmax⟩ := Finset.exists_max_image
    (rows.toFinset.filter fun d => d.globalIndex = c.globalIndex) Claim.key ⟨c, by simpa using hc⟩
  simp only [Finset.mem_filter, mem_toFinset] at hn hmax
  exact ⟨n, hn.1, hn.2, fun d hd hgi => hmax d ⟨hd, hgi.trans hn.2⟩⟩

/-- A global index has one newest row at most. -/
theorem eq_of_isNewest (hkeys : (rows.map Claim.key).Nodup) {n n' : Claim H} (hn : n ∈ rows)
    (hn' : n' ∈ rows) (hgi : n.globalIndex = n'.globalIndex) (hnew : IsNewest rows n)
    (hnew' : IsNewest rows n') : n = n' :=
  inj_on_of_nodup_map hkeys hn hn'
    (le_antisymm (hnew' n hn hgi) (hnew n' hn' hgi.symm))

/-- Rows of unset global indices and rows of others that are joined with the newest of their global
index: no two claims that come out have the same block and position. -/
theorem nodup_key_join {all joined unset oldest : List (Claim H)} (hall : (all.map Claim.key).Nodup)
    (hrows : (rows.map Claim.key).Nodup) (hunset : (unset.map Claim.key).Nodup)
    (holdest : (oldest.map Claim.key).Nodup)
    (hunsetMem : ∀ c ∈ unset, c ∈ all ∧ s.hasUnset c.globalIndex = true)
    (holdestMem : ∀ o ∈ oldest, o ∈ all ∧ ¬s.hasUnset o.globalIndex = true) (hjoined : joined.Nodup)
    (hjoinedMem : ∀ n ∈ joined, n ∈ rows) :
    ((unset ++ oldest.flatMap fun o => (joined.filter fun n =>
      n.globalIndex = o.globalIndex ∧ rnNewest rows n = 1).map fun n => compact o n).map
        Claim.key).Nodup := by
  rw [map_append, map_flatMap]
  -- A row is joined with the newest of its global index, so its key appears once at most.
  have hjoin : ∀ o ∈ oldest, (((joined.filter fun n =>
      n.globalIndex = o.globalIndex ∧ rnNewest rows n = 1).map fun n => compact o n).map
        Claim.key).Nodup := by
    intro o _
    rw [map_map, nodup_iff_count_le_one]
    intro k
    refine (count_le_length).trans ?_
    rw [length_map]
    refine Table.length_le_one_of_nodup (hjoined.filter _) fun n hn n' hn' => ?_
    simp only [mem_filter, decide_eq_true_eq, rnNewest_eq_one_iff] at hn hn'
    exact eq_of_isNewest hrows (hjoinedMem n hn.1) (hjoinedMem n' hn'.1)
      (hn.2.1.trans hn'.2.1.symm) hn.2.2 hn'.2.2
  have hkeyOf : ∀ o : Claim H, ∀ k ∈ (((joined.filter fun n =>
      n.globalIndex = o.globalIndex ∧ rnNewest rows n = 1).map fun n => compact o n).map
        Claim.key), k = o.key := by
    intro o k hk
    obtain ⟨c, hc, rfl⟩ := mem_map.mp hk
    obtain ⟨n, -, rfl⟩ := mem_map.mp hc
    rfl
  rw [nodup_append]
  refine ⟨hunset, ?_, ?_⟩
  · rw [nodup_flatMap]
    refine ⟨hjoin, (pairwise_map.mp holdest).imp fun hne => ?_⟩
    intro k hk hk'
    exact hne ((hkeyOf _ k hk).symm.trans (hkeyOf _ k hk'))
  · -- Rows of unset global indices are not joined.
    intro k hk k' hk' heq
    obtain ⟨c, hc, rfl⟩ := mem_map.mp hk
    obtain ⟨o, ho, hk'⟩ := mem_flatMap.mp hk'
    obtain rfl : c = o := inj_on_of_nodup_map hall (hunsetMem c hc).1 (holdestMem o ho).1
      (heq.trans (hkeyOf o k' hk'))
    exact (holdestMem c ho).2 (hunsetMem c hc).2

/-- No two claims of a result have the same block and position. -/
theorem nodup_key_selectCompacted (s : ClaimStorage H) {selected : List (Claim H)}
    (hkeys : (rows.map Claim.key).Nodup) (hsub : selected.Sublist rows) :
    ((selectCompacted s rows selected).map Claim.key).Nodup := by
  have hselected : (selected.map Claim.key).Nodup := hkeys.sublist (hsub.map _)
  unfold selectCompacted orderByKey
  rw [((perm_insertionSort _ _).map Claim.key).nodup_iff]
  refine nodup_key_join hselected hkeys (hselected.sublist (filter_sublist.map _))
    (hselected.sublist (filter_sublist.map _)) (fun c hc => mem_filter.mp hc)
    (fun o ho => ?_) hselected.of_map fun n hn => hsub.subset hn
  rw [mem_filter, decide_eq_true_eq] at ho
  exact ⟨ho.1, ho.2.2⟩

/-- Two results with the same claims are equal. -/
theorem eq_of_mem_iff {cs ds : List (Claim H)} (hcs : (cs.map Claim.key).Nodup)
    (hds : (ds.map Claim.key).Nodup) (hcsOrder : cs.Pairwise fun a b => a.key ≤ b.key)
    (hdsOrder : ds.Pairwise fun a b => a.key ≤ b.key) (h : ∀ c, c ∈ cs ↔ c ∈ ds) : cs = ds := by
  have hperm : cs.Perm ds := (perm_ext_iff_of_nodup hcs.of_map hds.of_map).mpr h
  refine List.Perm.eq_of_pairwise (fun a b ha hb hab hba => ?_) hcsOrder hdsOrder hperm
  exact inj_on_of_nodup_map hcs ha ((h b).mpr hb) (le_antisymm hab hba)

/-! ## One range -/

/-- The block lies in the range. -/
def InRange (r : ℕ × ℕ) (block : ℕ) : Prop := r.1 ≤ block ∧ block ≤ r.2

instance (r : ℕ × ℕ) (block : ℕ) : Decidable (InRange r block) :=
  inferInstanceAs (Decidable (_ ∧ _))

/-- The rows of a range. -/
def ClaimStorage.inRange (s : ClaimStorage H) (r : ℕ × ℕ) : List (Claim H) :=
  s.claim.filter fun c => decide (InRange r c.blockNum)

theorem ClaimStorage.getClaims_eq (s : ClaimStorage H) (r : ℕ × ℕ) :
    s.getClaims r.1 r.2 = selectCompacted s s.claim (s.inRange r) := rfl

theorem ClaimStorage.mem_inRange {r : ℕ × ℕ} :
    c ∈ s.inRange r ↔ c ∈ s.claim ∧ InRange r c.blockNum := by
  simp [inRange]

/-- A condition that one row of the table meets selects it from the ranges that have it. -/
theorem ClaimStorage.filter_inRange {p : Claim H → Bool} (hc : c ∈ s.claim)
    (hunique : ∀ d ∈ s.claim, (p d = true ↔ d = c)) (r : ℕ × ℕ) :
    (s.inRange r).filter p = if InRange r c.blockNum then [c] else [] := by
  split_ifs with hr
  · exact Table.filter_eq_singleton (s.nodup_claim.filter _) (mem_inRange.mpr ⟨hc, hr⟩)
      fun d hd => hunique d (mem_inRange.mp hd).1
  · refine filter_eq_nil_iff.mpr fun d hd hp => hr ?_
    obtain ⟨hmem, hin⟩ := mem_inRange.mp hd
    exact (hunique d hmem).mp hp ▸ hin

section oneRange

variable (s : ClaimStorage H) {o n : Claim H} (ho : o ∈ s.claim) (hn : n ∈ s.claim)
  (hgi : n.globalIndex = o.globalIndex) (hold : IsOldest s.claim o) (hnew : IsNewest s.claim n)
include ho hold

/-- The oldest row of a global index in a range is the oldest row of the table or none. -/
theorem filter_oldest (r : ℕ × ℕ) :
    (s.inRange r).filter (fun c => c.globalIndex = o.globalIndex ∧ rnOldest s.claim c = 1) =
      if InRange r o.blockNum then [o] else [] := by
  refine filter_inRange ho (fun c hc => ?_) r
  simp only [decide_eq_true_eq, rnOldest_eq_one_iff]
  constructor
  · rintro ⟨hgi, hold'⟩
    exact s.eq_of_key_eq hc ho (le_antisymm (hold' o ho hgi.symm) (hold c hc hgi))
  · rintro rfl
    exact ⟨rfl, hold⟩

omit ho hold
include hn hgi hnew

/-- The newest row of a global index in a range is the newest row of the table or none. -/
theorem filter_newest (r : ℕ × ℕ) :
    (s.inRange r).filter (fun c => c.globalIndex = o.globalIndex ∧ rnNewest s.claim c = 1) =
      if InRange r n.blockNum then [n] else [] := by
  refine filter_inRange hn (fun c hc => ?_) r
  simp only [decide_eq_true_eq, rnNewest_eq_one_iff]
  constructor
  · rintro ⟨hgi', hnew'⟩
    exact eq_of_isNewest s.claim_key hc hn (hgi'.trans hgi.symm) hnew' hnew
  · rintro rfl
    exact ⟨hgi, hnew⟩

include ho hold

/-- A range returns a global index without an unset claim when it has both its oldest and its
newest row, and then once. -/
theorem filter_getClaims (hfree : s.hasUnset o.globalIndex = false) (r : ℕ × ℕ) :
    (s.getClaims r.1 r.2).filter (fun c => c.globalIndex = o.globalIndex) =
      if InRange r o.blockNum ∧ InRange r n.blockNum then [compact o n] else [] := by
  rw [s.getClaims_eq]
  unfold selectCompacted orderByKey
  generalize hA : (s.inRange r).filter (fun c => s.hasUnset c.globalIndex) = A
  generalize hO : (s.inRange r).filter
    (fun c => rnOldest s.claim c = 1 ∧ ¬s.hasUnset c.globalIndex) = O
  have hA' : A.filter (fun c => c.globalIndex = o.globalIndex) = [] := by
    rw [← hA, filter_filter, filter_eq_nil_iff]
    intro c _ hc
    simp only [Bool.and_eq_true, decide_eq_true_eq] at hc
    rw [hc.1, hfree] at hc
    exact absurd hc.2 (by simp)
  have hO' : O.filter (fun c => c.globalIndex = o.globalIndex) =
      if InRange r o.blockNum then [o] else [] := by
    rw [← filter_oldest s ho hold r, ← hO, filter_filter]
    refine filter_congr fun c _ => ?_
    by_cases hc : c.globalIndex = o.globalIndex
    · simp [hc, hfree]
    · simp [hc]
  generalize hF : (fun c => ((s.inRange r).filter fun d => d.globalIndex = c.globalIndex ∧
    rnNewest s.claim d = 1).map fun d => compact c d) = F
  -- The join keeps the global index, so it can be selected before joining.
  have hjoin : ∀ c, ∀ d ∈ F c, decide (d.globalIndex = o.globalIndex) =
      decide (c.globalIndex = o.globalIndex) := by
    intro c d hd
    rw [← hF] at hd
    obtain ⟨d', -, rfl⟩ := mem_map.mp hd
    rfl
  have hFo : F o = (if InRange r n.blockNum then [n] else []).map (compact o) := by
    rw [← hF, ← filter_newest s hn hgi hnew r]
  have hperm := (perm_insertionSort (fun a b : Claim H => a.key ≤ b.key)
    (A ++ O.flatMap F)).filter fun c => decide (c.globalIndex = o.globalIndex)
  rw [filter_append, hA', nil_append, Table.filter_flatMap_of_left hjoin, hO'] at hperm
  by_cases hro : InRange r o.blockNum
  · rw [if_pos hro, flatMap_singleton, hFo] at hperm
    by_cases hrn : InRange r n.blockNum
    · rw [if_pos ⟨hro, hrn⟩]
      rw [if_pos hrn, map_singleton] at hperm
      exact perm_singleton.mp hperm
    · rw [if_neg fun h => hrn h.2]
      rw [if_neg hrn, map_nil] at hperm
      exact perm_nil.mp hperm
  · rw [if_neg fun h => hro h.1]
    rw [if_neg hro, flatMap_nil] at hperm
    exact perm_nil.mp hperm

end oneRange

/-- A range returns each of its rows of an unset global index once. -/
theorem filter_getClaims_unset [DecidableEq H] (s : ClaimStorage H) (hc : c ∈ s.claim)
    (hunset : s.hasUnset c.globalIndex = true) (r : ℕ × ℕ) :
    (s.getClaims r.1 r.2).filter (fun d => d = c) = if InRange r c.blockNum then [c] else [] := by
  rw [s.getClaims_eq]
  unfold selectCompacted orderByKey
  generalize hA : (s.inRange r).filter (fun c => s.hasUnset c.globalIndex) = A
  generalize hO : (s.inRange r).filter
    (fun c => rnOldest s.claim c = 1 ∧ ¬s.hasUnset c.globalIndex) = O
  have hA' : A.filter (fun d => d = c) = if InRange r c.blockNum then [c] else [] := by
    rw [← hA, filter_filter]
    refine filter_inRange hc (fun d _ => ?_) r
    rw [Bool.and_eq_true, decide_eq_true_eq]
    exact ⟨And.left, fun hdc => ⟨hdc, hdc ▸ hunset⟩⟩
  generalize hF : (fun c => ((s.inRange r).filter fun d => d.globalIndex = c.globalIndex ∧
    rnNewest s.claim d = 1).map fun d => compact c d) = F
  -- A compacted claim has the global index of its oldest row, which was never unset.
  have hB : (O.flatMap F).filter (fun d => d = c) = [] := by
    rw [filter_eq_nil_iff]
    intro d hd hdc
    obtain ⟨o, ho, hdo⟩ := mem_flatMap.mp hd
    rw [← hF] at hdo
    obtain ⟨n, -, rfl⟩ := mem_map.mp hdo
    rw [← hO, mem_filter, decide_eq_true_eq] at ho
    rw [← decide_eq_true_eq.mp hdc] at hunset
    exact ho.2.2 hunset
  have hperm := (perm_insertionSort (fun a b : Claim H => a.key ≤ b.key)
    (A ++ O.flatMap F)).filter fun d => decide (d = c)
  rw [filter_append, hA', hB, append_nil] at hperm
  split_ifs at hperm ⊢
  · exact perm_singleton.mp hperm
  · exact perm_nil.mp hperm

/-! ## Consecutive ranges -/

/-- The ranges follow each other without a gap, the first one starting at the given block. -/
def Tiles : ℕ → List (ℕ × ℕ) → Prop
  | _, [] => True
  | start, r :: rs => r.1 = start ∧ r.1 ≤ r.2 ∧ Tiles (r.2 + 1) rs

/-- The claims of consecutive ranges, put together. -/
def ClaimStorage.collected (s : ClaimStorage H) (rs : List (ℕ × ℕ)) : List (Claim H) :=
  rs.flatMap fun r => s.getClaims r.1 r.2

theorem Tiles.start_le {start : ℕ} {rs : List (ℕ × ℕ)} (ht : Tiles start rs) {r : ℕ × ℕ}
    (hr : r ∈ rs) : start ≤ r.1 := by
  induction rs generalizing start with
  | nil => simp at hr
  | cons r' rs ih =>
    obtain ⟨hstart, hle, hrest⟩ := ht
    rcases mem_cons.mp hr with rfl | hr
    · exact hstart.ge
    · have := ih hrest hr
      omega

/-- A block lies in at most one of consecutive ranges. -/
theorem Tiles.countP_inRange_le {start : ℕ} {rs : List (ℕ × ℕ)} (ht : Tiles start rs)
    (block : ℕ) : rs.countP (fun r => decide (InRange r block)) ≤ 1 := by
  induction rs generalizing start with
  | nil => simp
  | cons r rs ih =>
    obtain ⟨-, -, hrest⟩ := ht
    by_cases hr : InRange r block
    · -- The later ranges start after the end of this one.
      have hnone : rs.countP (fun r => decide (InRange r block)) = 0 := by
        rw [countP_eq_zero]
        intro r' hr' hin
        have hstart := hrest.start_le hr'
        have hin := decide_eq_true_eq.mp hin
        unfold InRange at hr hin
        omega
      rw [countP_cons_of_pos (by simpa using hr), hnone]
    · rw [countP_cons_of_neg (by simpa using hr)]
      exact ih hrest

/-- When every range returns at most one selected claim, the claims are counted by ranges. -/
theorem countP_collected {q : Claim H → Bool} {p : ℕ × ℕ → Prop} [DecidablePred p] {x : Claim H}
    (hrange : ∀ r, (s.getClaims r.1 r.2).filter q = if p r then [x] else []) (rs : List (ℕ × ℕ)) :
    (s.collected rs).countP q = rs.countP fun r => p r := by
  induction rs with
  | nil => rfl
  | cons r rs ih =>
    unfold collected at ih ⊢
    rw [flatMap_cons, countP_append, ih, countP_eq_length_filter, hrange r]
    split_ifs with hr
    · rw [countP_cons_of_pos (by simpa using hr), length_singleton, add_comm]
    · rw [countP_cons_of_neg (by simpa using hr), length_nil, zero_add]

/-- A global index without an unset claim is counted by the ranges that have both its oldest and its
newest row. -/
theorem countP_collected_free (hc : c ∈ s.claim) (hfree : s.hasUnset c.globalIndex = false)
    (rs : List (ℕ × ℕ)) : ∃ o ∈ s.claim, ∃ n ∈ s.claim, o.globalIndex = c.globalIndex ∧
      n.globalIndex = c.globalIndex ∧ IsOldest s.claim o ∧ IsNewest s.claim n ∧
      (s.collected rs).countP (fun d => d.globalIndex = c.globalIndex) =
        rs.countP fun r => InRange r o.blockNum ∧ InRange r n.blockNum := by
  obtain ⟨o, ho, hogi, hold⟩ := exists_isOldest hc
  obtain ⟨n, hn, hngi, hnew⟩ := exists_isNewest hc
  have hcount := countP_collected (filter_getClaims s ho hn (hngi.trans hogi.symm) hold hnew
    (hogi ▸ hfree)) rs
  exact ⟨o, ho, n, hn, hogi, hngi, hold, hnew, hogi ▸ hcount⟩

/-- The claims of consecutive ranges that contain every row: a global index with a claim and without
an unset claim appears exactly once, and so does every row of an unset global index, if and only if
no boundary separates two rows of a global index without an unset claim. -/
theorem collected_exactly_once_iff [DecidableEq H] (s : ClaimStorage H) (start : ℕ)
    (rs : List (ℕ × ℕ)) (ht : Tiles start rs)
    (hcover : ∀ c ∈ s.claim, ∃ r ∈ rs, InRange r c.blockNum) :
    ((∀ c ∈ s.claim, s.hasUnset c.globalIndex = false →
          (s.collected rs).countP (fun d => d.globalIndex = c.globalIndex) = 1) ∧
        ∀ c ∈ s.claim, s.hasUnset c.globalIndex = true → (s.collected rs).count c = 1) ↔
      ∀ c ∈ s.claim, ∀ d ∈ s.claim, d.globalIndex = c.globalIndex →
        s.hasUnset c.globalIndex = false →
        ∃ r ∈ rs, InRange r c.blockNum ∧ InRange r d.blockNum := by
  constructor
  · rintro ⟨hfree, -⟩ c hc d hd hgi hunset
    obtain ⟨o, ho, n, hn, hogi, hngi, hold, hnew, hcount⟩ := countP_collected_free hc hunset rs
    rw [hfree c hc hunset] at hcount
    obtain ⟨r, hr, hin⟩ := countP_pos_iff.mp (hcount ▸ Nat.one_pos)
    have hin := decide_eq_true_eq.mp hin
    -- Both rows lie between the oldest and the newest one.
    have hbetween : ∀ e ∈ s.claim, e.globalIndex = c.globalIndex → InRange r e.blockNum := by
      intro e he hegi
      have hlo := blockNum_le_of_key_le (hold e he (hegi.trans hogi.symm))
      have hhi := blockNum_le_of_key_le (hnew e he (hegi.trans hngi.symm))
      exact ⟨hin.1.1.trans hlo, hhi.trans hin.2.2⟩
    exact ⟨r, hr, hbetween c hc rfl, hbetween d hd hgi⟩
  · intro htogether
    constructor
    · intro c hc hunset
      obtain ⟨o, ho, n, hn, hogi, hngi, -, -, hcount⟩ := countP_collected_free hc hunset rs
      rw [hcount]
      obtain ⟨r, hr, hin⟩ := htogether o ho n hn (hngi.trans hogi.symm) (by rw [hogi, hunset])
      have hpos : 0 < rs.countP fun r => decide (InRange r o.blockNum ∧ InRange r n.blockNum) :=
        countP_pos_iff.mpr ⟨r, hr, decide_eq_true hin⟩
      have hle : rs.countP (fun r => decide (InRange r o.blockNum ∧ InRange r n.blockNum)) ≤
          rs.countP fun r => decide (InRange r o.blockNum) :=
        countP_mono_left fun r _ h => by simp_all
      have := ht.countP_inRange_le o.blockNum
      omega
    · intro c hc hunset
      have hcount := countP_collected (filter_getClaims_unset s hc hunset) rs
      obtain ⟨r, hr, hin⟩ := hcover c hc
      have hpos : 0 < rs.countP fun r => decide (InRange r c.blockNum) :=
        countP_pos_iff.mpr ⟨r, hr, decide_eq_true hin⟩
      have := ht.countP_inRange_le c.blockNum
      have hone : (s.collected rs).countP (fun d => decide (d = c)) = 1 := by omega
      rw [← hone]
      exact countP_congr fun d _ => by simp

/-- A claim with the given position and global index and default data. -/
def claimAt (blockNum blockPos globalIndex : ℕ) : Claim ℕ where
  blockNum := blockNum
  blockPos := blockPos
  txHash := 0
  globalIndex := globalIndex
  originNetwork := 0
  originAddress := ZeroAddress
  destinationAddress := ZeroAddress
  amount := 0
  proofLocalExitRoot := Vector.replicate 32 0
  proofRollupExitRoot := Vector.replicate 32 0
  mainnetExitRoot := 0
  rollupExitRoot := 0
  globalExitRoot := 0
  destinationNetwork := 0
  metadata := []
  isMessage := false
  blockTimestamp := 0
  type := .empty

theorem nodup_noUnsetClaims : (([] : List (UnsetClaim ℕ)).map UnsetClaim.key).Nodup := nodup_nil

/-- Global index 1 is claimed in blocks 1 and 2, global index 2 in block 5. -/
def claimedTwice : ClaimStorage ℕ :=
  ⟨[claimAt 1 0 1, claimAt 2 0 1, claimAt 5 0 2], [], by decide, nodup_noUnsetClaims⟩

theorem collected_exactly_once_iff_claimedTwice :
    (∀ c ∈ claimedTwice.claim, claimedTwice.hasUnset c.globalIndex = false →
        (claimedTwice.collected [(1, 3), (4, 6)]).countP
          (fun d => d.globalIndex = c.globalIndex) = 1) ∧
      ∀ c ∈ claimedTwice.claim, claimedTwice.hasUnset c.globalIndex = true →
        (claimedTwice.collected [(1, 3), (4, 6)]).count c = 1 :=
  (collected_exactly_once_iff claimedTwice 1 [(1, 3), (4, 6)] (by simp [Tiles])
    (by decide)).mpr (by decide)

/-- With a boundary between blocks 1 and 2, no range returns global index 1. -/
theorem separated_claim_lost :
    Tiles 1 [(1, 1), (2, 6)] ∧
      (∀ c ∈ claimedTwice.claim, ∃ r ∈ [(1, 1), (2, 6)], InRange r c.blockNum) ∧
      claimedTwice.hasUnset 1 = false ∧
      (claimedTwice.collected [(1, 1), (2, 6)]).countP (fun d => d.globalIndex = 1) = 0 := by
  refine ⟨by simp [Tiles], by decide, by decide, by decide⟩

end AggKit.ClaimSync
