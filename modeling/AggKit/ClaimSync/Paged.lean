import AggKit.ClaimSync.Query

/-!
# Pages of claims, as in `claimsync/storage/storage_paged.go`

`GetClaimsPaged` cuts the filtered rows of the table `claim` into pages, the newest first, and
compacts afterwards. On a page, the rows of a global index that was unset are returned as they are.
Any other global index is returned, compacted, on the page that has its newest row.

The second half describes a page by its rows. A row stands for an entry of the compacted list when its
global index was unset or when it is the newest row of its global index (`isEntry`), and `entry` is
the claim that it stands for. The entries of a page are those of its rows
(`pageResult_perm`), and those of all rows make up the compacted list (`compactedClaims_perm`).
-/

namespace AggKit.ClaimSync

open List

variable {H : Type}

/-! ## The model -/

/-- `claimWithBlockHash`: a claim with the hash of its block. -/
structure ClaimWithBlockHash (H : Type) extends Claim H where
  blockHash : H
deriving DecidableEq

/-- The error of `calculateOffset`: `invalid page number for given page size and total number of %s
(page=%d, size=%d, total=%d)`. -/
structure PageError where
  tableName : String
  pageNumber : UInt32
  pageSize : UInt32
  recordsCount : ℕ
deriving DecidableEq

/-- `buildClaimsFilterClause`. -/
def claimsFilter (networkIDs : List UInt32) (globalIndex : Option ℕ) (c : Claim H) : Bool :=
  (networkIDs.isEmpty || networkIDs.contains c.originNetwork) &&
    match globalIndex with
    | some globalIndex => decide (c.globalIndex = globalIndex)
    | none => true

/-- `getCompactedClaimsCount`, over the filtered rows. -/
def ClaimStorage.getCompactedClaimsCount (s : ClaimStorage H) (filtered : List (Claim H)) : ℕ :=
  (filtered.filter fun c => s.hasUnset c.globalIndex).length +
    ((filtered.filter fun c => ¬s.hasUnset c.globalIndex).map Claim.globalIndex).dedup.length

/-- `calculateOffset`. -/
def calculateOffset (pageNumber pageSize : UInt32) (recordsCount : ℕ) (tableName : String) :
    Except PageError UInt32 :=
  let offset := (pageNumber - 1) * pageSize
  if offset ≥ UInt32.ofNat recordsCount then
    .error ⟨tableName, pageNumber, pageSize, recordsCount⟩
  else .ok offset

/-- `ORDER BY block_num DESC, block_pos DESC`. -/
def orderByKeyDesc (rows : List (Claim H)) : List (Claim H) :=
  rows.insertionSort fun a b => b.key ≤ a.key

/-- `page_claims`. -/
def pageClaims (filtered : List (Claim H)) (pageSize offset : ℕ) : List (Claim H) :=
  ((orderByKeyDesc filtered).drop offset).take pageSize

/-- `page_result`, in the order of the query. -/
def ClaimStorage.pageResult (s : ClaimStorage H) (filtered page : List (Claim H)) :
    List (Claim H) :=
  let ranked := filtered.filter fun c => (page.map Claim.globalIndex).contains c.globalIndex
  let claimsWithUnsetOnPage := page.filter fun pc => s.hasUnset pc.globalIndex
  let newestOnPage := (page.filter fun pc => (ranked.any fun acr =>
    acr.globalIndex = pc.globalIndex ∧ rnNewest ranked acr = 1 ∧ pc.key = acr.key) ∧
      ¬s.hasUnset pc.globalIndex).map Claim.globalIndex
  let compactableClaims :=
    (ranked.filter fun o => rnOldest ranked o = 1 ∧ o.globalIndex ∈ newestOnPage.dedup).flatMap
      fun o => (ranked.filter fun n => n.globalIndex = o.globalIndex ∧ rnNewest ranked n = 1).map
        fun n => compact o n
  orderByKeyDesc (claimsWithUnsetOnPage ++ compactableClaims)

/-- `GetClaimsPaged`; `blockHash` is the hash that the join with the table `block` gives for a block,
the zero hash where it has none. -/
def ClaimStorage.getClaimsPaged (s : ClaimStorage H) (blockHash : ℕ → H)
    (pageNumber pageSize : UInt32) (networkIDs : List UInt32) (globalIndex : Option ℕ) :
    Except PageError (List (ClaimWithBlockHash H) × ℕ) :=
  let filtered := s.claim.filter (claimsFilter networkIDs globalIndex)
  let claimsCount := s.getCompactedClaimsCount filtered
  if claimsCount = 0 then .ok ([], 0)
  else do
    let offset ← calculateOffset pageNumber pageSize claimsCount "claims"
    let rows := s.pageResult filtered (pageClaims filtered pageSize.toNat offset.toNat)
    .ok (rows.map fun c => ⟨c, blockHash c.blockNum⟩, claimsCount)

/-- The compacted list: the rows of the global indices that were unset and one merged row for each of
the others, the newest first. -/
def ClaimStorage.compactedClaims (s : ClaimStorage H) (filtered : List (Claim H)) :
    List (Claim H) := (selectCompacted s filtered filtered).reverse

/-! ## Rows and the entries they stand for -/

/-- The row stands for an entry of the compacted list. -/
def ClaimStorage.isEntry (s : ClaimStorage H) (filtered : List (Claim H)) (c : Claim H) : Bool :=
  s.hasUnset c.globalIndex || decide (rnNewest filtered c = 1)

/-- The entry that a row stands for. -/
def ClaimStorage.entry (s : ClaimStorage H) (filtered : List (Claim H)) (c : Claim H) : Claim H :=
  if s.hasUnset c.globalIndex then c
  else match filtered.find? fun o => o.globalIndex = c.globalIndex ∧ rnOldest filtered o = 1 with
    | some o => compact o c
    | none => c

section entries

variable {s : ClaimStorage H} {filtered page : List (Claim H)} {c d : Claim H}

/-- The entry of a row of a global index that was never unset. -/
theorem entry_of_free (hc : c ∈ filtered) (hfree : ¬s.hasUnset c.globalIndex = true) :
    ∃ o ∈ filtered, o.globalIndex = c.globalIndex ∧ IsOldest filtered o ∧
      s.entry filtered c = compact o c := by
  obtain ⟨o, ho, hogi, hold⟩ := exists_isOldest hc
  rw [ClaimStorage.entry, if_neg hfree]
  cases hfind : filtered.find? fun o =>
      o.globalIndex = c.globalIndex ∧ rnOldest filtered o = 1 with
  | none =>
    have hnone := find?_eq_none.mp hfind o ho
    simp only [decide_eq_true_eq, rnOldest_eq_one_iff] at hnone
    exact absurd ⟨hogi, hold⟩ hnone
  | some o' =>
    have hspec := find?_some hfind
    simp only [decide_eq_true_eq, rnOldest_eq_one_iff] at hspec
    exact ⟨o', mem_of_find?_eq_some hfind, hspec.1, hspec.2, rfl⟩

theorem entry_of_unset (hunset : s.hasUnset c.globalIndex = true) : s.entry filtered c = c :=
  if_pos hunset

@[simp]
theorem entry_globalIndex (hc : c ∈ filtered) :
    (s.entry filtered c).globalIndex = c.globalIndex := by
  by_cases hunset : s.hasUnset c.globalIndex = true
  · rw [entry_of_unset hunset]
  · obtain ⟨o, -, hogi, -, hentry⟩ := entry_of_free hc hunset
    rw [hentry, compact_globalIndex, hogi]

theorem isEntry_iff : s.isEntry filtered c = true ↔
    s.hasUnset c.globalIndex = true ∨ IsNewest filtered c := by
  rw [ClaimStorage.isEntry, Bool.or_eq_true, decide_eq_true_eq, rnNewest_eq_one_iff]

/-- Rows stand for different entries. -/
theorem entry_inj (hkeys : (filtered.map Claim.key).Nodup) (hc : c ∈ filtered) (hd : d ∈ filtered)
    (hcEntry : s.isEntry filtered c = true) (hdEntry : s.isEntry filtered d = true)
    (heq : s.entry filtered c = s.entry filtered d) : c = d := by
  have hgi : c.globalIndex = d.globalIndex := by
    rw [← entry_globalIndex (s := s) hc, heq, entry_globalIndex hd]
  rw [isEntry_iff] at hcEntry hdEntry
  by_cases hunset : s.hasUnset c.globalIndex = true
  · rwa [entry_of_unset hunset, entry_of_unset (hgi ▸ hunset)] at heq
  · exact eq_of_isNewest hkeys hc hd hgi (hcEntry.resolve_left hunset)
      (hdEntry.resolve_left (hgi ▸ hunset))

/-- The entries of some rows, described by the clauses of the queries. -/
theorem mem_map_entry (hkeys : (filtered.map Claim.key).Nodup) (hpage : ∀ c ∈ page, c ∈ filtered) :
    d ∈ (page.filter (s.isEntry filtered)).map (s.entry filtered) ↔
      (d ∈ page ∧ s.hasUnset d.globalIndex = true) ∨
        ∃ o ∈ filtered, ∃ n ∈ page, n.globalIndex = o.globalIndex ∧
          s.hasUnset o.globalIndex = false ∧ IsOldest filtered o ∧ IsNewest filtered n ∧
          d = compact o n := by
  rw [mem_map]
  constructor
  · rintro ⟨c, hc, rfl⟩
    obtain ⟨hmem, hentry⟩ := mem_filter.mp hc
    by_cases hunset : s.hasUnset c.globalIndex = true
    · rw [entry_of_unset hunset]
      exact Or.inl ⟨hmem, hunset⟩
    · obtain ⟨o, ho, hogi, hold, heq⟩ := entry_of_free (hpage c hmem) hunset
      have hnew := (isEntry_iff.mp hentry).resolve_left hunset
      exact Or.inr ⟨o, ho, c, hmem, hogi.symm, by simpa [hogi] using hunset, hold, hnew, heq⟩
  · rintro (⟨hmem, hunset⟩ | ⟨o, ho, n, hn, hgi, hfree, hold, hnew, rfl⟩)
    · exact ⟨d, mem_filter.mpr ⟨hmem, isEntry_iff.mpr (Or.inl hunset)⟩, entry_of_unset hunset⟩
    · refine ⟨n, mem_filter.mpr ⟨hn, isEntry_iff.mpr (Or.inr hnew)⟩, ?_⟩
      have hnfree : ¬s.hasUnset n.globalIndex = true := by simpa [hgi] using hfree
      obtain ⟨o', ho', ho'gi, hold', heq⟩ := entry_of_free (hpage n hn) hnfree
      -- The oldest row is the same one.
      obtain rfl : o' = o := inj_on_of_nodup_map hkeys ho' ho
        (le_antisymm (hold' o ho (hgi.symm.trans ho'gi.symm)) (hold o' ho' (ho'gi.trans hgi)))
      exact heq

theorem nodup_map_entry (hkeys : (filtered.map Claim.key).Nodup)
    (hpage : ∀ c ∈ page, c ∈ filtered) (hnodup : page.Nodup) :
    ((page.filter (s.isEntry filtered)).map (s.entry filtered)).Nodup := by
  refine (hnodup.filter _).map_on fun c hc d hd heq => ?_
  obtain ⟨hc, hcEntry⟩ := mem_filter.mp hc
  obtain ⟨hd, hdEntry⟩ := mem_filter.mp hd
  exact entry_inj hkeys (hpage c hc) (hpage d hd) hcEntry hdEntry heq

/-- The compacted list has the entries of all rows. -/
theorem compactedClaims_perm (hkeys : (filtered.map Claim.key).Nodup) :
    (s.compactedClaims filtered).Perm
      ((filtered.filter (s.isEntry filtered)).map (s.entry filtered)) := by
  refine (reverse_perm _).trans ((perm_ext_iff_of_nodup
    (nodup_key_selectCompacted s hkeys (List.Sublist.refl _)).of_map
    (nodup_map_entry hkeys (fun _ => id) hkeys.of_map)).mpr fun d => ?_)
  rw [mem_selectCompacted, mem_map_entry hkeys fun _ => id]

/-- The rows of the global indices of a page have the ranks that they have among all rows. -/
theorem isNewest_ranked {gis : List ℕ} (hc : c.globalIndex ∈ gis) :
    IsNewest (filtered.filter fun d => gis.contains d.globalIndex) c ↔ IsNewest filtered c := by
  constructor
  · intro hnew d hd hgi
    exact hnew d (mem_filter.mpr ⟨hd, by simpa [hgi] using hc⟩) hgi
  · exact fun hnew d hd => hnew d (mem_of_mem_filter hd)

theorem isOldest_ranked {gis : List ℕ} (hc : c.globalIndex ∈ gis) :
    IsOldest (filtered.filter fun d => gis.contains d.globalIndex) c ↔ IsOldest filtered c := by
  constructor
  · intro hold d hd hgi
    exact hold d (mem_filter.mpr ⟨hd, by simpa [hgi] using hc⟩) hgi
  · exact fun hold d hd => hold d (mem_of_mem_filter hd)

/-- The rows of a page that are the newest of a global index that was never unset. -/
theorem newest_on_page_iff (hkeys : (filtered.map Claim.key).Nodup)
    (hpage : ∀ c ∈ page, c ∈ filtered) (hc : c ∈ page) :
    (((filtered.filter fun d => (page.map Claim.globalIndex).contains d.globalIndex).any fun acr =>
      acr.globalIndex = c.globalIndex ∧
        rnNewest (filtered.filter fun d => (page.map Claim.globalIndex).contains d.globalIndex)
          acr = 1 ∧ c.key = acr.key) = true) ↔ IsNewest filtered c := by
  have hgi : c.globalIndex ∈ page.map Claim.globalIndex := mem_map_of_mem hc
  simp only [any_eq_true, decide_eq_true_eq, rnNewest_eq_one_iff]
  constructor
  · rintro ⟨acr, hacr, -, hnew, hkey⟩
    have hmem := mem_of_mem_filter hacr
    obtain rfl : c = acr := inj_on_of_nodup_map hkeys (hpage c hc) hmem hkey
    exact (isNewest_ranked hgi).mp hnew
  · intro hnew
    exact ⟨c, mem_filter.mpr ⟨hpage c hc, by simpa using hgi⟩, rfl,
      (isNewest_ranked hgi).mpr hnew, rfl⟩

/-- The result of a page has the entries of its rows. -/
theorem pageResult_perm (hkeys : (filtered.map Claim.key).Nodup)
    (hpage : ∀ c ∈ page, c ∈ filtered) (hnodup : (page.map Claim.key).Nodup) :
    (s.pageResult filtered page).Perm
      ((page.filter (s.isEntry filtered)).map (s.entry filtered)) := by
  set ranked := filtered.filter fun c => (page.map Claim.globalIndex).contains c.globalIndex
    with hranked
  have hrankedMem : ∀ d, d ∈ ranked ↔ d ∈ filtered ∧ d.globalIndex ∈ page.map Claim.globalIndex := by
    intro d
    rw [hranked, mem_filter, contains_iff_mem]
  have hrankedKeys : (ranked.map Claim.key).Nodup := hkeys.sublist (filter_sublist.map _)
  -- A global index is compacted on the page that has its newest row.
  have hnewest : ∀ gi : ℕ, gi ∈ ((page.filter fun pc => (ranked.any fun acr =>
      acr.globalIndex = pc.globalIndex ∧ rnNewest ranked acr = 1 ∧ pc.key = acr.key) ∧
        ¬s.hasUnset pc.globalIndex).map Claim.globalIndex).dedup ↔
      ∃ n ∈ page, n.globalIndex = gi ∧ IsNewest filtered n ∧ ¬s.hasUnset gi = true := by
    intro gi
    simp only [mem_dedup, mem_map, mem_filter, decide_eq_true_eq]
    constructor
    · rintro ⟨n, ⟨hn, hnew, hfree⟩, rfl⟩
      exact ⟨n, hn, rfl, (newest_on_page_iff hkeys hpage hn).mp hnew, hfree⟩
    · rintro ⟨n, hn, rfl, hnew, hfree⟩
      exact ⟨n, ⟨hn, (newest_on_page_iff hkeys hpage hn).mpr hnew, hfree⟩, rfl⟩
  unfold ClaimStorage.pageResult orderByKeyDesc
  rw [← hranked]
  refine (perm_insertionSort _ _).trans ((perm_ext_iff_of_nodup (List.Nodup.of_map _
    (nodup_key_join (s := s) hkeys hrankedKeys (hnodup.sublist (filter_sublist.map _))
      (hrankedKeys.sublist (filter_sublist.map _)) (fun c hc => ?_) (fun o ho => ?_)
      hrankedKeys.of_map fun _ => id)) (nodup_map_entry hkeys hpage hnodup.of_map)).mpr fun d => ?_)
  · obtain ⟨hc, hunset⟩ := mem_filter.mp hc
    exact ⟨hpage c hc, hunset⟩
  · rw [mem_filter, decide_eq_true_eq, hnewest] at ho
    obtain ⟨ho, -, -, -, -, -, hfree⟩ := ho
    exact ⟨((hrankedMem o).mp ho).1, hfree⟩
  · rw [mem_map_entry hkeys hpage, mem_append, mem_filter]
    refine or_congr_right ?_
    simp only [mem_flatMap, mem_map, mem_filter, decide_eq_true_eq,
      rnOldest_eq_one_iff, rnNewest_eq_one_iff, hnewest]
    constructor
    · rintro ⟨o, ⟨ho, hold, n, hn, hngi, hnew, hfree⟩, n', ⟨hn', hn'gi, hnew'⟩, rfl⟩
      have hgi := ((hrankedMem o).mp ho).2
      -- The row that is joined is the one on the page.
      obtain rfl : n' = n := eq_of_isNewest hkeys ((hrankedMem n').mp hn').1 (hpage n hn)
        (hn'gi.trans hngi.symm) ((isNewest_ranked (hn'gi ▸ hgi)).mp hnew') hnew
      exact ⟨o, ((hrankedMem o).mp ho).1, n', hn, hngi, by simpa using hfree,
        (isOldest_ranked hgi).mp hold, hnew, rfl⟩
    · rintro ⟨o, ho, n, hn, hngi, hfree, hold, hnew, rfl⟩
      have hgi : n.globalIndex ∈ page.map Claim.globalIndex := mem_map_of_mem hn
      have hogi : o.globalIndex ∈ page.map Claim.globalIndex := hngi ▸ hgi
      exact ⟨o, ⟨(hrankedMem o).mpr ⟨ho, hogi⟩, (isOldest_ranked hogi).mpr hold, n, hn, hngi, hnew,
        by simpa using hfree⟩, n, ⟨(hrankedMem n).mpr ⟨hpage n hn, hgi⟩, hngi,
          (isNewest_ranked hgi).mpr hnew⟩, rfl⟩

/-- The count is the number of entries. -/
theorem getCompactedClaimsCount_eq (hkeys : (filtered.map Claim.key).Nodup) :
    s.getCompactedClaimsCount filtered = (s.compactedClaims filtered).length := by
  set free := filtered.filter fun c => ¬s.hasUnset c.globalIndex
  -- The distinct global indices are those of the newest rows.
  have hdedup : ((free.map Claim.globalIndex).dedup).Perm
      ((free.filter fun c => decide (rnNewest filtered c = 1)).map Claim.globalIndex) := by
    have hnodup : ((free.filter fun c => decide (rnNewest filtered c = 1)).map
        Claim.globalIndex).Nodup := by
      refine ((hkeys.of_map.filter _).filter _).map_on fun c hc d hd hgi => ?_
      simp only [free, mem_filter, decide_eq_true_eq, rnNewest_eq_one_iff] at hc hd
      exact eq_of_isNewest hkeys hc.1.1 hd.1.1 hgi hc.2 hd.2
    refine (perm_ext_iff_of_nodup (nodup_dedup _) hnodup).mpr fun gi => ?_
    simp only [mem_dedup, mem_map, mem_filter, free, decide_eq_true_eq,
      rnNewest_eq_one_iff]
    constructor
    · rintro ⟨c, ⟨hc, hfree⟩, rfl⟩
      obtain ⟨n, hn, hngi, hnew⟩ := exists_isNewest hc
      exact ⟨n, ⟨⟨hn, by rwa [hngi]⟩, hnew⟩, hngi⟩
    · rintro ⟨n, ⟨hn, -⟩, rfl⟩
      exact ⟨n, hn, rfl⟩
  have hsplit : (filtered.filter (s.isEntry filtered)).length =
      (filtered.filter fun c => s.hasUnset c.globalIndex).length +
        (free.filter fun c => decide (rnNewest filtered c = 1)).length := by
    have hunset : (filtered.filter fun c => s.hasUnset c.globalIndex).countP
        (s.isEntry filtered) = (filtered.filter fun c => s.hasUnset c.globalIndex).length :=
      countP_eq_length.mpr fun c hc => isEntry_iff.mpr (Or.inl (mem_filter.mp hc).2)
    have hfree : free.countP (s.isEntry filtered) =
        free.countP fun c => decide (rnNewest filtered c = 1) := by
      refine countP_congr fun c hc => ?_
      have hnever := (mem_filter.mp hc).2
      simp only [decide_eq_true_eq] at hnever
      simp [ClaimStorage.isEntry, hnever]
    have hnot : free = filtered.filter fun c => !s.hasUnset c.globalIndex := by simp [free]
    calc (filtered.filter (s.isEntry filtered)).length
        = filtered.countP (s.isEntry filtered) := countP_eq_length_filter.symm
      _ = (filtered.filter fun c => s.hasUnset c.globalIndex).countP (s.isEntry filtered) +
            free.countP (s.isEntry filtered) := by
          rw [hnot]
          exact countP_eq_countP_filter_add _ _ _
      _ = (filtered.filter fun c => s.hasUnset c.globalIndex).length +
            (free.filter fun c => decide (rnNewest filtered c = 1)).length := by
          rw [hunset, hfree, countP_eq_length_filter]
  rw [ClaimStorage.getCompactedClaimsCount, hdedup.length_eq, length_map,
    (compactedClaims_perm hkeys).length_eq, length_map, hsplit]

end entries

end AggKit.ClaimSync
