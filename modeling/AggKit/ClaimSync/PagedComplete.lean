import AggKit.ClaimSync.Paged
import AggKit.Lib.Exec
import Mathlib.Algebra.Order.BigOperators.Group.List
import Mathlib.Algebra.Order.Group.Nat
import Mathlib.Data.Int.GCD
import Mathlib.Data.Nat.Prime.Basic

/-!
# Which pages are complete

A client reads the claims page by page: it asks for the pages 1, 2, … as many as the total says, and
expects to get the compacted list (`PagesComplete`). Two things stand in its way.

* The pages are cut over the rows and the total counts entries. Where rows are merged, the rows of
  the last entries can lie beyond the last page that is accepted, and a page can have fewer entries
  than rows.
* The offset is a product of words of 32 bits. For a page size other than one, a page number that is
  too large comes back to an offset that is accepted (`offsetOf_even`, `exists_offsetOf_eq_one`).

`pagesComplete_iff` says for which contents of the tables and which page sizes the client gets what it
expects.
-/

namespace AggKit.ClaimSync

open List

variable {H : Type}

/-! ## What a client expects -/

/-- The rows that pass the filter. -/
def ClaimStorage.filteredClaims (s : ClaimStorage H) (networkIDs : List UInt32)
    (globalIndex : Option ℕ) : List (Claim H) :=
  s.claim.filter (claimsFilter networkIDs globalIndex)

/-- A claim as it is returned. -/
def withBlockHash (blockHash : ℕ → H) (c : Claim H) : ClaimWithBlockHash H :=
  ⟨c, blockHash c.blockNum⟩

/-- The number of pages, `ceil(total / size)`. -/
def pageCount (total : ℕ) (pageSize : UInt32) : ℕ := (total + pageSize.toNat - 1) / pageSize.toNat

/-- The pages that the total promises make up the compacted list, all but the last of them are full,
and there is no page beyond them. -/
structure PagesComplete (s : ClaimStorage H) (blockHash : ℕ → H) (pageSize : UInt32)
    (networkIDs : List UInt32) (globalIndex : Option ℕ) : Prop where
  total : ∀ p claims n, s.getClaimsPaged blockHash p pageSize networkIDs globalIndex =
    .ok (claims, n) → n = (s.compactedClaims (s.filteredClaims networkIDs globalIndex)).length
  pages : ∃ pages : List (List (ClaimWithBlockHash H)),
    pages.length = pageCount (s.compactedClaims (s.filteredClaims networkIDs globalIndex)).length
      pageSize ∧
    pages.flatten = (s.compactedClaims (s.filteredClaims networkIDs globalIndex)).map
      (withBlockHash blockHash) ∧
    (∀ i page, pages[i]? = some page → ∃ p : UInt32, p.toNat = i + 1 ∧ ∃ n,
      s.getClaimsPaged blockHash p pageSize networkIDs globalIndex = .ok (page, n)) ∧
    ∀ i page, pages[i]? = some page → i + 1 < pages.length → page.length = pageSize.toNat
  rejected : ∀ p : UInt32,
    pageCount (s.compactedClaims (s.filteredClaims networkIDs globalIndex)).length pageSize <
      p.toNat → ∃ e, s.getClaimsPaged blockHash p pageSize networkIDs globalIndex = .error e

/-- In descending order, the rows that stand for an entry come before those that are merged into
another one, and their entries are in descending order, too. -/
def ClaimStorage.EntriesLead (s : ClaimStorage H) (filtered : List (Claim H)) : Prop :=
  ∃ lead rest, orderByKeyDesc filtered = lead ++ rest ∧ (∀ c ∈ lead, s.isEntry filtered c = true) ∧
    (∀ c ∈ rest, s.isEntry filtered c = false) ∧
    (lead.map (s.entry filtered)).Pairwise fun a b => b.key ≤ a.key

/-! ## Pages as windows -/

section windows

variable {s : ClaimStorage H} {filtered : List (Claim H)} {pageSize : UInt32}

theorem orderByKeyDesc_perm (rows : List (Claim H)) : (orderByKeyDesc rows).Perm rows :=
  perm_insertionSort _ _

theorem orderByKeyDesc_pairwise (rows : List (Claim H)) :
    (orderByKeyDesc rows).Pairwise fun a b => b.key ≤ a.key :=
  pairwise_insertionSort (r := fun a b : Claim H => b.key ≤ a.key) _

theorem compactedClaims_pairwise (s : ClaimStorage H) (filtered : List (Claim H)) :
    (s.compactedClaims filtered).Pairwise fun a b => b.key ≤ a.key :=
  pairwise_reverse.mpr (selectCompacted_pairwise s filtered filtered)

/-- The result of the page at an offset. -/
def ClaimStorage.pageAt (s : ClaimStorage H) (filtered : List (Claim H)) (pageSize offset : ℕ) :
    List (Claim H) := s.pageResult filtered (pageClaims filtered pageSize offset)

theorem pageClaims_sublist (filtered : List (Claim H)) (size offset : ℕ) :
    (pageClaims filtered size offset).Sublist (orderByKeyDesc filtered) :=
  (take_sublist _ _).trans (drop_sublist _ _)

theorem pageAt_pairwise (s : ClaimStorage H) (filtered : List (Claim H)) (size offset : ℕ) :
    (s.pageAt filtered size offset).Pairwise fun a b => b.key ≤ a.key :=
  orderByKeyDesc_pairwise _

/-- The newest row stands for an entry. -/
theorem isEntry_head {c : Claim H} {rest : List (Claim H)}
    (h : orderByKeyDesc filtered = c :: rest) : s.isEntry filtered c = true := by
  refine isEntry_iff.mpr (Or.inr fun d hd _ => ?_)
  have hmem := (orderByKeyDesc_perm filtered).mem_iff.mpr hd
  rw [h] at hmem
  rcases mem_cons.mp hmem with rfl | hmem
  · exact le_refl _
  · have horder := orderByKeyDesc_pairwise filtered
    rw [h] at horder
    exact (pairwise_cons.mp horder).1 d hmem

variable (hkeys : (filtered.map Claim.key).Nodup)
include hkeys

theorem nodup_key_compactedClaims :
    ((s.compactedClaims filtered).map Claim.key).Nodup := by
  rw [ClaimStorage.compactedClaims, map_reverse, nodup_reverse]
  exact nodup_key_selectCompacted s hkeys (List.Sublist.refl _)

/-- Claims in descending order that are those of the compacted list are that list. -/
theorem eq_compactedClaims {cs : List (Claim H)}
    (hperm : cs.Perm (s.compactedClaims filtered)) (horder : cs.Pairwise fun a b => b.key ≤ a.key) :
    cs = s.compactedClaims filtered := by
  refine List.Perm.eq_of_pairwise (fun a b ha hb hab hba => ?_) horder
    (compactedClaims_pairwise s filtered) hperm
  exact inj_on_of_nodup_map (nodup_key_compactedClaims hkeys) (hperm.subset ha) hb
    (le_antisymm hba hab)

/-- The number of entries is the number of rows that stand for one. -/
theorem length_compactedClaims :
    (s.compactedClaims filtered).length =
      (orderByKeyDesc filtered).countP (s.isEntry filtered) := by
  rw [(compactedClaims_perm hkeys).length_eq, length_map, ← countP_eq_length_filter,
    (orderByKeyDesc_perm filtered).countP_eq]

theorem pageAt_perm (size offset : ℕ) :
    (s.pageAt filtered size offset).Perm
      (((pageClaims filtered size offset).filter (s.isEntry filtered)).map
        (s.entry filtered)) := by
  refine pageResult_perm hkeys (fun c hc => ?_) ?_
  · exact (orderByKeyDesc_perm filtered).mem_iff.mp ((pageClaims_sublist _ _ _).subset hc)
  · have hall : ((orderByKeyDesc filtered).map Claim.key).Nodup :=
      ((orderByKeyDesc_perm filtered).map Claim.key).nodup_iff.mpr hkeys
    exact hall.sublist ((pageClaims_sublist _ _ _).map _)

/-- A row in the window puts its entry on the page. -/
theorem entry_mem_pageAt {size offset k : ℕ} {c : Claim H}
    (hc : (orderByKeyDesc filtered)[k]? = some c)
    (hentry : s.isEntry filtered c = true) (hle : offset ≤ k) (hlt : k < offset + size) :
    s.entry filtered c ∈ s.pageAt filtered size offset := by
  refine (pageAt_perm hkeys size offset).mem_iff.mpr (mem_map_of_mem ?_)
  refine mem_filter.mpr ⟨mem_iff_getElem?.mpr ⟨k - offset, ?_⟩, hentry⟩
  rw [pageClaims, getElem?_take_of_lt (by omega), getElem?_drop,
    show offset + (k - offset) = k by omega, hc]

/-- A page that is full stands for all rows of its window. -/
theorem isEntry_of_full {size offset k : ℕ}
    (hfull : (s.pageAt filtered size offset).length = size) (hle : offset ≤ k)
    (hlt : k < offset + size) :
    ∃ c, (orderByKeyDesc filtered)[k]? = some c ∧ s.isEntry filtered c = true := by
  have hcount : (pageClaims filtered size offset).countP (s.isEntry filtered) = size := by
    have hlen := (pageAt_perm (s := s) hkeys size offset).length_eq
    rw [length_map, hfull] at hlen
    rw [countP_eq_length_filter, ← hlen]
  have hlength : (pageClaims filtered size offset).length = size := by
    have hle := countP_le_length (p := s.isEntry filtered)
      (l := pageClaims filtered size offset)
    have hwindow : (pageClaims filtered size offset).length ≤ size := length_take_le _ _
    omega
  have hall := countP_eq_length.mp (hcount.trans hlength.symm)
  obtain ⟨c, hc⟩ : ∃ c, (pageClaims filtered size offset)[k - offset]? = some c :=
    ⟨_, getElem?_eq_getElem (by omega)⟩
  refine ⟨c, ?_, hall c (mem_of_getElem? hc)⟩
  rw [pageClaims, getElem?_take_of_lt (by omega), getElem?_drop,
    show offset + (k - offset) = k by omega] at hc
  exact hc

end windows

/-! ## Offsets -/

section offsets

variable {pageSize p : UInt32} {total : ℕ}

/-- The offset of a page, before it is compared with the total. -/
def offsetOf (pageSize : UInt32) (i : ℕ) : ℕ := i * pageSize.toNat % 2 ^ 32

theorem offsetOf_zero : offsetOf pageSize 0 = 0 := by simp [offsetOf]

theorem toNat_offset (hp : 1 ≤ p.toNat) :
    ((p - 1) * pageSize).toNat = offsetOf pageSize (p.toNat - 1) := by
  have hsub : (p - 1).toNat = p.toNat - 1 := by
    rw [UInt32.toNat_sub_of_le _ _ (by simpa [UInt32.le_iff_toNat_le] using hp)]
    rfl
  rw [UInt32.toNat_mul, hsub, offsetOf]

/-- A page is returned when its offset is below the total, as words of 32 bits. -/
theorem calculateOffset_eq (hp : 1 ≤ p.toNat) (tableName : String) :
    calculateOffset p pageSize total tableName =
      if offsetOf pageSize (p.toNat - 1) < total % 2 ^ 32 then .ok ((p - 1) * pageSize)
      else .error ⟨tableName, p, pageSize, total⟩ := by
  have hlt : (p - 1) * pageSize ≥ UInt32.ofNat total ↔
      ¬offsetOf pageSize (p.toNat - 1) < total % 2 ^ 32 := by
    rw [ge_iff_le, UInt32.le_iff_toNat_le, toNat_offset hp, UInt32.toNat_ofNat', Nat.not_lt]
  unfold calculateOffset
  dsimp only
  split_ifs with h h' h'
  · exact absurd h' (hlt.mp h)
  · rfl
  · rfl
  · exact absurd (hlt.mpr h') h

/-- For an even page size, page `2^31 + 1` starts where the first page does. -/
theorem offsetOf_even (heven : pageSize.toNat % 2 = 0) : offsetOf pageSize (2 ^ 31) = 0 := by
  unfold offsetOf
  omega

theorem coprime_of_odd (hodd : pageSize.toNat % 2 = 1) : Nat.Coprime pageSize.toNat (2 ^ 32) :=
  Nat.Coprime.pow_right 32 (Nat.coprime_two_right.mpr (Nat.odd_iff.mpr hodd))

/-- For an odd page size, some page starts at the second row. -/
theorem exists_offsetOf_eq_one (hodd : pageSize.toNat % 2 = 1) :
    ∃ i, i < 2 ^ 32 ∧ offsetOf pageSize i = 1 := by
  obtain ⟨i, hlt, hi⟩ := Nat.exists_mul_mod_eq_one_of_coprime (coprime_of_odd hodd) (by omega)
  refine ⟨i, hlt, ?_⟩
  rw [offsetOf, Nat.mul_comm]
  exact hi

/-- For an odd page size, no page but the first starts at the first row. -/
theorem offsetOf_pos (hodd : pageSize.toNat % 2 = 1) {i : ℕ} (hpos : 0 < i) (hlt : i < 2 ^ 32) :
    0 < offsetOf pageSize i := by
  refine Nat.pos_of_ne_zero fun hzero => ?_
  have hdvd := (coprime_of_odd hodd).symm.dvd_of_dvd_mul_right (Nat.dvd_of_mod_eq_zero hzero)
  exact absurd (Nat.le_of_dvd hpos hdvd) (by omega)

/-- For the largest page size, the pages after the first one start from the last row down. -/
theorem offsetOf_max (hmax : pageSize.toNat = 2 ^ 32 - 1) {i : ℕ} (hpos : 0 < i)
    (hlt : i < 2 ^ 32) : offsetOf pageSize i = 2 ^ 32 - i := by
  have hmul : i * (2 ^ 32 - 1) = (i - 1) * 2 ^ 32 + (2 ^ 32 - i) := by omega
  rw [offsetOf, hmax, hmul, Nat.add_comm, Nat.add_mul_mod_self_right]
  exact Nat.mod_eq_of_lt (by omega)

end offsets

/-! ## What is returned for a page number -/

section calls

variable {s : ClaimStorage H} {blockHash : ℕ → H} {pageSize : UInt32} {networkIDs : List UInt32}
  {globalIndex : Option ℕ}

theorem nodup_key_filteredClaims (s : ClaimStorage H) (networkIDs : List UInt32)
    (globalIndex : Option ℕ) : ((s.filteredClaims networkIDs globalIndex).map Claim.key).Nodup :=
  s.claim_key.sublist (filter_sublist.map _)

/-- The total that the client is told. -/
def ClaimStorage.totalClaims (s : ClaimStorage H) (networkIDs : List UInt32)
    (globalIndex : Option ℕ) : ℕ :=
  (s.compactedClaims (s.filteredClaims networkIDs globalIndex)).length

theorem getCompactedClaimsCount_filteredClaims :
    s.getCompactedClaimsCount (s.claim.filter (claimsFilter networkIDs globalIndex)) =
      s.totalClaims networkIDs globalIndex :=
  getCompactedClaimsCount_eq (nodup_key_filteredClaims s networkIDs globalIndex)

theorem getClaimsPaged_eq (htotal : 0 < s.totalClaims networkIDs globalIndex) {p : UInt32}
    (hp : 1 ≤ p.toNat) :
    s.getClaimsPaged blockHash p pageSize networkIDs globalIndex =
      if offsetOf pageSize (p.toNat - 1) < s.totalClaims networkIDs globalIndex % 2 ^ 32 then
        .ok ((s.pageAt (s.filteredClaims networkIDs globalIndex) pageSize.toNat
          (offsetOf pageSize (p.toNat - 1))).map (withBlockHash blockHash),
          s.totalClaims networkIDs globalIndex)
      else .error ⟨"claims", p, pageSize, s.totalClaims networkIDs globalIndex⟩ := by
  unfold ClaimStorage.getClaimsPaged
  dsimp only
  rw [getCompactedClaimsCount_filteredClaims, if_neg (Nat.pos_iff_ne_zero.mp htotal), calculateOffset_eq hp]
  split_ifs with hlt
  · rw [Exec.except_ok_bind, toNat_offset hp]
    rfl
  · rfl

theorem getClaimsPaged_of_empty (htotal : s.totalClaims networkIDs globalIndex = 0) (p : UInt32) :
    s.getClaimsPaged blockHash p pageSize networkIDs globalIndex = .ok ([], 0) := by
  unfold ClaimStorage.getClaimsPaged
  dsimp only
  rw [getCompactedClaimsCount_filteredClaims, if_pos htotal]

/-- Whatever is returned comes with the number of entries. -/
theorem eq_totalClaims_of_getClaimsPaged {p : UInt32} {claims : List (ClaimWithBlockHash H)} {n : ℕ}
    (h : s.getClaimsPaged blockHash p pageSize networkIDs globalIndex = .ok (claims, n)) :
    n = s.totalClaims networkIDs globalIndex := by
  unfold ClaimStorage.getClaimsPaged at h
  dsimp only at h
  rw [getCompactedClaimsCount_filteredClaims] at h
  split_ifs at h with hzero
  · rw [hzero]
    exact (Prod.mk.inj (Except.ok.inj h)).2.symm
  · obtain ⟨offset, -, hrows⟩ := Exec.except_bind_ok.mp h
    exact (Prod.mk.inj (Except.ok.inj hrows)).2.symm

theorem withBlockHash_injective (blockHash : ℕ → H) :
    Function.Injective (withBlockHash blockHash) := fun _ _ h =>
  congrArg ClaimWithBlockHash.toClaim h

end calls

/-! ## Reading all pages -/

section reading

variable {s : ClaimStorage H} {blockHash : ℕ → H} {pageSize : UInt32} {networkIDs : List UInt32}
  {globalIndex : Option ℕ}

/-- What a client has read that got all pages: the windows of the pages are at the offsets of their
numbers, and the entries are those of the compacted list. -/
structure Read (s : ClaimStorage H) (blockHash : ℕ → H) (pageSize : UInt32)
    (networkIDs : List UInt32) (globalIndex : Option ℕ)
    (pages : List (List (ClaimWithBlockHash H))) : Prop where
  length : pages.length = pageCount (s.totalClaims networkIDs globalIndex) pageSize
  windows : ∀ i page, pages[i]? = some page → i + 1 < 2 ^ 32 ∧
    offsetOf pageSize i < s.totalClaims networkIDs globalIndex % 2 ^ 32 ∧
    page = (s.pageAt (s.filteredClaims networkIDs globalIndex) pageSize.toNat
      (offsetOf pageSize i)).map (withBlockHash blockHash)
  flatten : pages.flatten = (s.compactedClaims (s.filteredClaims networkIDs globalIndex)).map
    (withBlockHash blockHash)
  full : ∀ i page, pages[i]? = some page → i + 1 < pages.length → page.length = pageSize.toNat

/-- No row that stands for an entry is in the windows of two pages. -/
theorem Read.not_overlap {pages : List (List (ClaimWithBlockHash H))}
    (h : Read s blockHash pageSize networkIDs globalIndex pages) {i j k : ℕ} {c : Claim H}
    (hi : i < j) (hj : j < pages.length)
    (hc : (orderByKeyDesc (s.filteredClaims networkIDs globalIndex))[k]? = some c)
    (hentry : s.isEntry (s.filteredClaims networkIDs globalIndex) c = true)
    (hik : offsetOf pageSize i ≤ k ∧ k < offsetOf pageSize i + pageSize.toNat)
    (hjk : offsetOf pageSize j ≤ k ∧ k < offsetOf pageSize j + pageSize.toNat) : False := by
  have hkeys := nodup_key_filteredClaims s networkIDs globalIndex
  have hnodup : pages.flatten.Nodup := by
    rw [h.flatten]
    exact (nodup_key_compactedClaims hkeys).of_map.map (withBlockHash_injective blockHash)
  have hdisjoint := pairwise_iff_getElem.mp (nodup_flatten.mp hnodup).2 i j (by omega) hj hi
  have hwindow : ∀ l (hl : l < pages.length), offsetOf pageSize l ≤ k →
      k < offsetOf pageSize l + pageSize.toNat → withBlockHash blockHash
        (s.entry (s.filteredClaims networkIDs globalIndex) c) ∈ pages[l] := by
    intro l hl hle hlt
    rw [(h.windows l _ (getElem?_eq_getElem hl)).2.2]
    exact mem_map_of_mem (entry_mem_pageAt hkeys hc hentry hle hlt)
  exact hdisjoint (hwindow i (by omega) hik.1 hik.2) (hwindow j hj hjk.1 hjk.2)

/-- The rows of the first page stand for entries, where it is not the last one. -/
theorem Read.isEntry_first {pages : List (List (ClaimWithBlockHash H))}
    (h : Read s blockHash pageSize networkIDs globalIndex pages) (hpages : 1 < pages.length)
    {k : ℕ} (hk : k < pageSize.toNat) :
    ∃ c, (orderByKeyDesc (s.filteredClaims networkIDs globalIndex))[k]? = some c ∧
      s.isEntry (s.filteredClaims networkIDs globalIndex) c = true := by
  have hfirst := getElem?_eq_getElem (Nat.lt_of_succ_lt hpages)
  have hfull := h.full 0 _ hfirst hpages
  rw [(h.windows 0 _ hfirst).2.2, length_map] at hfull
  rw [offsetOf_zero] at hfull
  exact isEntry_of_full (nodup_key_filteredClaims s networkIDs globalIndex) hfull (Nat.zero_le k)
    (by omega)

/-- The number of pages is one, or the first page does not hold all entries. -/
theorem pageCount_eq_one {total : ℕ} (hpos : 0 < total) (hle : total ≤ pageSize.toNat) :
    pageCount total pageSize = 1 := by
  rw [pageCount, Nat.div_eq_iff (by omega)]
  omega

theorem one_lt_pageCount {total : ℕ} (hsize : 0 < pageSize.toNat) (hlt : pageSize.toNat < total) :
    1 < pageCount total pageSize := by
  rw [pageCount, Nat.lt_div_iff_mul_lt hsize]
  omega

theorem pageCount_pos {total : ℕ} (hsize : 0 < pageSize.toNat) (hpos : 0 < total) :
    0 < pageCount total pageSize := Nat.div_pos (by omega) hsize

variable (h : PagesComplete s blockHash pageSize networkIDs globalIndex)
  (hsize : 0 < pageSize.toNat)
include h hsize

/-- There is something to read: a page number is rejected only where the total is not zero. -/
theorem PagesComplete.totalClaims_pos : 0 < s.totalClaims networkIDs globalIndex := by
  refine Nat.pos_of_ne_zero fun hzero => ?_
  have hcount : pageCount (s.totalClaims networkIDs globalIndex) pageSize = 0 := by
    exact Nat.div_eq_of_lt (by omega)
  obtain ⟨e, he⟩ := h.rejected 1 (show pageCount (s.totalClaims networkIDs globalIndex) pageSize <
    (1 : UInt32).toNat by rw [hcount]; decide)
  rw [getClaimsPaged_of_empty hzero] at he
  cases he

theorem PagesComplete.read :
    ∃ pages, Read s blockHash pageSize networkIDs globalIndex pages := by
  obtain ⟨pages, hlength, hflatten, hcalls, hfull⟩ := h.pages
  refine ⟨pages, hlength, fun i page hpage => ?_, hflatten, hfull⟩
  obtain ⟨p, hp, n, hcall⟩ := hcalls i page hpage
  rw [getClaimsPaged_eq (h.totalClaims_pos hsize) (by omega), hp, Nat.add_sub_cancel] at hcall
  split_ifs at hcall with hlt
  have hpages := (Prod.mk.inj (Except.ok.inj hcall)).1
  exact ⟨hp ▸ p.toNat_lt, hlt, hpages.symm⟩

/-- A page number whose offset is accepted is one of the pages. -/
theorem PagesComplete.lt_pageCount {i : ℕ} (hi : i + 1 < 2 ^ 32)
    (haccepted : offsetOf pageSize i < s.totalClaims networkIDs globalIndex % 2 ^ 32) :
    i < pageCount (s.totalClaims networkIDs globalIndex) pageSize := by
  by_contra hbeyond
  have hp : (UInt32.ofNat (i + 1)).toNat = i + 1 := by
    exact Nat.mod_eq_of_lt hi
  obtain ⟨e, he⟩ := h.rejected (UInt32.ofNat (i + 1))
    (show pageCount (s.totalClaims networkIDs globalIndex) pageSize < _ by omega)
  rw [getClaimsPaged_eq (h.totalClaims_pos hsize) (by omega), hp, Nat.add_sub_cancel,
    if_pos haccepted] at he
  cases he

/-- The pages are accepted. -/
theorem PagesComplete.accepted {i : ℕ}
    (hi : i < pageCount (s.totalClaims networkIDs globalIndex) pageSize) :
    offsetOf pageSize i < s.totalClaims networkIDs globalIndex % 2 ^ 32 := by
  obtain ⟨pages, hread⟩ := h.read hsize
  exact (hread.windows i _ (getElem?_eq_getElem (hread.length ▸ hi))).2.1

theorem PagesComplete.mod_pos : 0 < s.totalClaims networkIDs globalIndex % 2 ^ 32 := by
  have hfirst := h.accepted hsize (pageCount_pos hsize (h.totalClaims_pos hsize))
  omega

theorem PagesComplete.size_lt_mod (hlt : pageSize.toNat < s.totalClaims networkIDs globalIndex) :
    pageSize.toNat < s.totalClaims networkIDs globalIndex % 2 ^ 32 := by
  have hsecond := h.accepted hsize (one_lt_pageCount hsize hlt)
  rwa [offsetOf, Nat.one_mul, Nat.mod_eq_of_lt pageSize.toNat_lt] at hsecond

/-- No page but the first starts at a row of the first page. -/
theorem PagesComplete.offsetOf_ne {i k : ℕ} (hi : 0 < i) (hi' : i + 1 < 2 ^ 32)
    (hk : k < pageSize.toNat) (haccepted : k < s.totalClaims networkIDs globalIndex % 2 ^ 32) :
    offsetOf pageSize i ≠ k := by
  intro hoffset
  obtain ⟨pages, hread⟩ := h.read hsize
  have hpage : i < pages.length := by
    rw [hread.length]
    exact h.lt_pageCount hsize hi' (by omega)
  obtain ⟨c, hc, hentry⟩ := hread.isEntry_first (by omega) hk
  have hfirst := @offsetOf_zero pageSize
  exact hread.not_overlap hi hpage hc hentry (by omega) (by omega)

/-- The page size is odd. -/
theorem PagesComplete.size_odd : pageSize.toNat % 2 = 1 := by
  by_contra heven
  exact h.offsetOf_ne hsize (by omega : 0 < 2 ^ 31) (by omega) hsize (h.mod_pos hsize)
    (offsetOf_even (by omega))

omit hsize in
/-- With a page size above one there is one entry, or there are two on the largest page. -/
theorem PagesComplete.total_le (hsize : 1 < pageSize.toNat) : s.totalClaims networkIDs globalIndex = 1 ∨
      s.totalClaims networkIDs globalIndex = 2 ∧ pageSize.toNat = 2 ^ 32 - 1 := by
  have hodd := h.size_odd (by omega)
  have hpos := h.totalClaims_pos (by omega)
  have hlt := pageSize.toNat_lt
  set total := s.totalClaims networkIDs globalIndex with htotal
  -- A total of more than 32 bits would need a second page, so its low bits are above the size.
  have hmod : min total 3 ≤ total % 2 ^ 32 := by
    by_cases hlarge : pageSize.toNat < total
    · have := h.size_lt_mod (by omega) hlarge
      omega
    · omega
  by_cases hone : total = 1
  · exact Or.inl hone
  have hbelow : 1 < total % 2 ^ 32 := by omega
  by_cases hmax : pageSize.toNat = 2 ^ 32 - 1
  · refine Or.inr ⟨?_, hmax⟩
    by_contra htwo
    refine h.offsetOf_ne (i := 2 ^ 32 - 2) (k := 2) (by omega) (by omega) (by omega) (by omega)
      (by omega) ?_
    rw [offsetOf_max hmax (by omega) (by omega)]
    omega
  · obtain ⟨i, hi, hoffset⟩ := exists_offsetOf_eq_one hodd
    have hne : i ≠ 0 := by
      rintro rfl
      simp [offsetOf] at hoffset
    have hlast : i ≠ 2 ^ 32 - 1 := by
      intro hlast
      rw [hlast, offsetOf] at hoffset
      omega
    exact absurd hoffset (h.offsetOf_ne (by omega) (by omega) (by omega) hsize hbelow)

end reading

/-! ## The result -/

section complete

variable {s : ClaimStorage H} {blockHash : ℕ → H} {pageSize : UInt32} {networkIDs : List UInt32}
  {globalIndex : Option ℕ}

/-- All rows that stand for an entry are on the first page. -/
def ClaimStorage.OnFirstPage (s : ClaimStorage H) (filtered : List (Claim H)) (pageSize : ℕ) : Prop :=
  ∀ c ∈ (orderByKeyDesc filtered).drop pageSize, s.isEntry filtered c = false

theorem countP_drop_eq_zero {rows : List (Claim H)} {p : Claim H → Bool} {n : ℕ}
    (h : rows.countP p ≤ (rows.take n).countP p) : ∀ c ∈ rows.drop n, p c = false := by
  have hsplit : rows.countP p = (rows.take n).countP p + (rows.drop n).countP p := by
    rw [← countP_append, take_append_drop]
  have hzero : (rows.drop n).countP p = 0 := by omega
  intro c hc
  simpa using countP_eq_zero.mp hzero c hc

/-- Where the first page has all entries, it is the compacted list. -/
theorem pageAt_zero_eq {filtered : List (Claim H)} (hkeys : (filtered.map Claim.key).Nodup)
    {size : ℕ} (h : s.OnFirstPage filtered size) :
    s.pageAt filtered size 0 = s.compactedClaims filtered := by
  refine eq_compactedClaims hkeys ?_ (pageAt_pairwise s filtered size 0)
  have hfirst : (pageClaims filtered size 0).filter (s.isEntry filtered) =
      (orderByKeyDesc filtered).filter (s.isEntry filtered) := by
    have hrest : ((orderByKeyDesc filtered).drop size).filter (s.isEntry filtered) = [] :=
      filter_eq_nil_iff.mpr fun c hc => by simp [h c hc]
    conv_rhs => rw [← take_append_drop size (orderByKeyDesc filtered)]
    rw [filter_append, hrest, append_nil]
    rfl
  refine (pageAt_perm hkeys size 0).trans (List.Perm.trans ?_ (compactedClaims_perm hkeys).symm)
  rw [hfirst]
  exact ((orderByKeyDesc_perm filtered).filter _).map _

/-- One page that holds all entries, and no other one that is accepted. -/
theorem pagesComplete_of_onFirstPage (hpos : 0 < s.totalClaims networkIDs globalIndex)
    (hle : s.totalClaims networkIDs globalIndex ≤ pageSize.toNat)
    (hfirst : s.OnFirstPage (s.filteredClaims networkIDs globalIndex) pageSize.toNat)
    (hothers : ∀ i, 0 < i → i + 1 < 2 ^ 32 →
      s.totalClaims networkIDs globalIndex ≤ offsetOf pageSize i) :
    PagesComplete s blockHash pageSize networkIDs globalIndex := by
  have hkeys := nodup_key_filteredClaims s networkIDs globalIndex
  have hcount := pageCount_eq_one hpos hle
  have hlt := pageSize.toNat_lt
  have hmod : s.totalClaims networkIDs globalIndex % 2 ^ 32 =
      s.totalClaims networkIDs globalIndex := Nat.mod_eq_of_lt (by omega)
  refine ⟨fun p claims n h => eq_totalClaims_of_getClaimsPaged h,
    ⟨[(s.compactedClaims (s.filteredClaims networkIDs globalIndex)).map (withBlockHash blockHash)],
      hcount.symm, by simp, fun i page hpage => ?_, fun i page _ hi => ?_⟩, fun p hp => ?_⟩
  · cases i with
    | succ i => simp at hpage
    | zero =>
      cases hpage
      refine ⟨1, rfl, s.totalClaims networkIDs globalIndex, ?_⟩
      rw [getClaimsPaged_eq hpos (by decide), show (1 : UInt32).toNat - 1 = 0 from rfl, offsetOf_zero,
        hmod, if_pos hpos, pageAt_zero_eq hkeys hfirst]
  · simp at hi
  · have hp' : 1 < p.toNat := hcount ▸ hp
    have hpLt := p.toNat_lt
    have hreject := hothers (p.toNat - 1) (by omega) (by omega)
    rw [getClaimsPaged_eq hpos (by omega), hmod, if_neg (by omega)]
    exact ⟨_, rfl⟩

/-- A page of one row that stands for an entry. -/
theorem pageAt_one {filtered : List (Claim H)} (hkeys : (filtered.map Claim.key).Nodup) {i : ℕ}
    {c : Claim H} (hc : (orderByKeyDesc filtered)[i]? = some c)
    (hentry : s.isEntry filtered c = true) : s.pageAt filtered 1 i = [s.entry filtered c] := by
  have hwindow : pageClaims filtered 1 i = [c] := by
    obtain ⟨hlt, rfl⟩ := List.getElem?_eq_some_iff.mp hc
    rw [pageClaims, drop_eq_getElem_cons hlt]
    rfl
  have hperm := pageAt_perm (s := s) hkeys 1 i
  rw [hwindow, filter_cons_of_pos hentry, filter_nil, map_singleton] at hperm
  exact perm_singleton.mp hperm

theorem offsetOf_one (hsize : pageSize.toNat = 1) {i : ℕ} (hi : i < 2 ^ 32) :
    offsetOf pageSize i = i := by
  rw [offsetOf, hsize, Nat.mul_one, Nat.mod_eq_of_lt hi]

/-- Pages of one row, where the rows that stand for entries lead. -/
theorem pagesComplete_of_entriesLead (hsize : pageSize.toNat = 1)
    (hpos : 0 < s.totalClaims networkIDs globalIndex)
    (hlt : s.totalClaims networkIDs globalIndex < 2 ^ 32)
    (hlead : s.EntriesLead (s.filteredClaims networkIDs globalIndex)) :
    PagesComplete s blockHash pageSize networkIDs globalIndex := by
  have hkeys := nodup_key_filteredClaims s networkIDs globalIndex
  set filtered := s.filteredClaims networkIDs globalIndex
  obtain ⟨lead, rest, hrows, hleadEntry, hrestEntry, horder⟩ := hlead
  have hfilter : (orderByKeyDesc filtered).filter (s.isEntry filtered) = lead := by
    rw [hrows, filter_append, filter_eq_self.mpr hleadEntry,
      filter_eq_nil_iff.mpr fun c hc => by simp [hrestEntry c hc], append_nil]
  have hcompacted : lead.map (s.entry filtered) = s.compactedClaims filtered := by
    refine eq_compactedClaims hkeys (List.Perm.trans ?_ (compactedClaims_perm hkeys).symm) horder
    rw [← hfilter]
    exact ((orderByKeyDesc_perm filtered).filter _).map _
  have hlength : lead.length = s.totalClaims networkIDs globalIndex := by
    have hmap := congrArg List.length hcompacted
    rwa [length_map] at hmap
  have hcount : pageCount (s.totalClaims networkIDs globalIndex) pageSize =
      s.totalClaims networkIDs globalIndex := by
    rw [pageCount, hsize, Nat.div_one, Nat.add_sub_cancel]
  have hmod := Nat.mod_eq_of_lt hlt
  refine ⟨fun p claims n h => eq_totalClaims_of_getClaimsPaged h,
    ⟨lead.map fun c => [withBlockHash blockHash (s.entry filtered c)], ?_, ?_,
      fun i page hpage => ?_, fun i page hpage _ => ?_⟩, fun p hp => ?_⟩
  · rw [length_map, hlength]
    exact hcount.symm
  · rw [← hcompacted, map_map, ← flatMap_def, map_eq_flatMap]
    rfl
  · rw [getElem?_map, Option.map_eq_some_iff] at hpage
    obtain ⟨c, hc, rfl⟩ := hpage
    have hi : i < lead.length := (List.getElem?_eq_some_iff.mp hc).1
    have hp : (UInt32.ofNat (i + 1)).toNat = i + 1 := by
      exact Nat.mod_eq_of_lt (by omega)
    have hrow : (orderByKeyDesc filtered)[i]? = some c := by
      rw [hrows, getElem?_append_left hi, hc]
    refine ⟨_, hp, s.totalClaims networkIDs globalIndex, ?_⟩
    rw [getClaimsPaged_eq hpos (by omega), hp, Nat.add_sub_cancel, offsetOf_one hsize (by omega),
      hmod, if_pos (by omega), hsize,
      pageAt_one hkeys hrow (hleadEntry c (mem_of_getElem? hc)), map_singleton]
  · rw [getElem?_map, Option.map_eq_some_iff] at hpage
    obtain ⟨c, -, rfl⟩ := hpage
    rw [hsize]
    rfl
  · have hbeyond : s.totalClaims networkIDs globalIndex < p.toNat := hcount ▸ hp
    have hpLt := p.toNat_lt
    rw [getClaimsPaged_eq hpos (by omega), offsetOf_one hsize (by omega), hmod, if_neg (by omega)]
    exact ⟨_, rfl⟩

/-- The other way round: pages of one row that are complete are those of leading entries. -/
theorem PagesComplete.entriesLead (h : PagesComplete s blockHash pageSize networkIDs globalIndex)
    (hsize : pageSize.toNat = 1) : s.totalClaims networkIDs globalIndex < 2 ^ 32 ∧
      s.EntriesLead (s.filteredClaims networkIDs globalIndex) := by
  have hkeys := nodup_key_filteredClaims s networkIDs globalIndex
  have hpos := h.totalClaims_pos (by omega)
  obtain ⟨pages, hread⟩ := h.read (by omega)
  set filtered := s.filteredClaims networkIDs globalIndex
  set total := s.totalClaims networkIDs globalIndex with htotal
  have hlength : pages.length = total := by
    rw [hread.length, pageCount, hsize, Nat.div_one, Nat.add_sub_cancel]
  have hwindow : ∀ i (hi : i < pages.length), i < 2 ^ 32 ∧
      pages[i] = (s.pageAt filtered 1 i).map (withBlockHash blockHash) := by
    intro i hi
    obtain ⟨hword, -, hpage⟩ := hread.windows i _ (getElem?_eq_getElem hi)
    rw [offsetOf_one hsize (by omega), hsize] at hpage
    exact ⟨by omega, hpage⟩
  -- The lengths are at most one and sum up to the number of pages, so all are one.
  have hone : ∀ i (hi : i < pages.length), (s.pageAt filtered 1 i).length = 1 := by
    have hle : ∀ page ∈ pages, page.length ≤ 1 := by
      intro page hpage
      obtain ⟨i, hi, rfl⟩ := getElem_of_mem hpage
      rw [(hwindow i hi).2, length_map, (pageAt_perm hkeys 1 i).length_eq, length_map]
      exact (length_filter_le _ _).trans (length_take_le _ _)
    have hsum : (pages.map List.length).sum = total := by
      rw [← length_flatten, hread.flatten, length_map]
      rfl
    intro i hi
    by_contra hne
    have hlt : (pages.map List.length).sum < (pages.map fun _ => 1).sum := by
      refine sum_lt_sum _ _ hle ⟨pages[i], getElem_mem hi, ?_⟩
      have := hle _ (getElem_mem hi)
      rw [(hwindow i hi).2, length_map] at this ⊢
      omega
    rw [hsum, map_const', sum_replicate, hlength] at hlt
    simp at hlt
  have hrow : ∀ i, i < total → ∃ c, (orderByKeyDesc filtered)[i]? = some c ∧
      s.isEntry filtered c = true := fun i hi =>
    isEntry_of_full hkeys (hone i (by omega)) (Nat.le_refl i) (by omega)
  have hlead : ∀ c ∈ (orderByKeyDesc filtered).take total, s.isEntry filtered c = true := by
    intro c hc
    obtain ⟨i, hi⟩ := mem_iff_getElem?.mp hc
    have hlt : i < total := by
      have := (List.getElem?_eq_some_iff.mp hi).1
      rw [length_take] at this
      omega
    obtain ⟨c', hc', hentry⟩ := hrow i hlt
    rw [getElem?_take_of_lt hlt, hc'] at hi
    rwa [← Option.some.inj hi]
  have htake : ((orderByKeyDesc filtered).take total).length = total := by
    rw [length_take]
    obtain ⟨c, hc, -⟩ := hrow (total - 1) (by omega)
    have := (List.getElem?_eq_some_iff.mp hc).1
    omega
  have hrest : ∀ c ∈ (orderByKeyDesc filtered).drop total, s.isEntry filtered c = false := by
    apply countP_drop_eq_zero
    rw [countP_eq_length.mpr hlead, htake, ← length_compactedClaims hkeys]
    exact Nat.le_refl _
  -- The pages are the entries of the leading rows, one by one.
  have hpages : pages = ((orderByKeyDesc filtered).take total).map
      fun c => [withBlockHash blockHash (s.entry filtered c)] := by
    refine ext_getElem (by rw [hlength, length_map, htake]) fun i hi hi' => ?_
    rw [length_map, htake] at hi'
    obtain ⟨c, hc, hentry⟩ := hrow i hi'
    rw [(hwindow i hi).2, pageAt_one hkeys hc hentry, getElem_map, getElem_take]
    rw [(List.getElem?_eq_some_iff.mp hc).2]
    rfl
  have hentries : ((orderByKeyDesc filtered).take total).map (s.entry filtered) =
      s.compactedClaims filtered := by
    have hflatten := hread.flatten
    rw [hpages, ← flatMap_def, ← map_eq_flatMap] at hflatten
    refine map_injective_iff.mpr (withBlockHash_injective blockHash) ?_
    rw [map_map]
    exact hflatten
  refine ⟨?_, _, _, (take_append_drop total _).symm, hlead, hrest, ?_⟩
  · have hword := (hread.windows (total - 1) _ (getElem?_eq_getElem (by omega))).1
    omega
  · rw [hentries]
    exact compactedClaims_pairwise s filtered

/-- The pages are complete if and only if there is one entry and the page size is odd, or there are two
and both are on the largest page, or the pages are of one row and the rows that stand for entries
lead. -/
theorem pagesComplete_iff (hsize : 0 < pageSize.toNat) :
    PagesComplete s blockHash pageSize networkIDs globalIndex ↔
      (s.totalClaims networkIDs globalIndex = 1 ∧ pageSize.toNat % 2 = 1) ∨
      (s.totalClaims networkIDs globalIndex = 2 ∧ pageSize.toNat = 2 ^ 32 - 1 ∧
        s.OnFirstPage (s.filteredClaims networkIDs globalIndex) pageSize.toNat) ∨
      (pageSize.toNat = 1 ∧ 0 < s.totalClaims networkIDs globalIndex ∧
        s.totalClaims networkIDs globalIndex < 2 ^ 32 ∧
        s.EntriesLead (s.filteredClaims networkIDs globalIndex)) := by
  have hkeys := nodup_key_filteredClaims s networkIDs globalIndex
  have htotal : s.totalClaims networkIDs globalIndex =
      (orderByKeyDesc (s.filteredClaims networkIDs globalIndex)).countP
        (s.isEntry (s.filteredClaims networkIDs globalIndex)) := length_compactedClaims hkeys
  constructor
  · intro h
    by_cases hone : pageSize.toNat = 1
    · exact Or.inr (Or.inr ⟨hone, h.totalClaims_pos hsize, h.entriesLead hone⟩)
    rcases h.total_le (by omega) with hsingle | ⟨htwo, hmax⟩
    · exact Or.inl ⟨hsingle, h.size_odd hsize⟩
    · refine Or.inr (Or.inl ⟨htwo, hmax, countP_drop_eq_zero ?_⟩)
      -- The one page has both entries.
      obtain ⟨pages, hread⟩ := h.read hsize
      have hcount : pages.length = 1 := by
        rw [hread.length]
        exact pageCount_eq_one (by omega) (by omega)
      obtain ⟨page, rfl⟩ := length_eq_one_iff.mp hcount
      have hpage := (hread.windows 0 page rfl).2.2
      have hlength := congrArg List.length hread.flatten
      rw [flatten_singleton, hpage, offsetOf_zero, length_map, length_map,
        (pageAt_perm hkeys _ 0).length_eq, length_map, ← countP_eq_length_filter,
        length_compactedClaims hkeys] at hlength
      exact Nat.le_of_eq hlength.symm
  · rintro (⟨hsingle, hodd⟩ | ⟨htwo, hmax, hfirst⟩ | ⟨hone, hpos, hlt, hlead⟩)
    · refine pagesComplete_of_onFirstPage (by omega) (by omega) (countP_drop_eq_zero ?_)
        fun i hi hi' => ?_
      · -- The one row that stands for an entry is the newest one.
        rw [← htotal, hsingle]
        cases hrows : orderByKeyDesc (s.filteredClaims networkIDs globalIndex) with
        | nil =>
          rw [hrows, hsingle] at htotal
          cases htotal
        | cons c rest =>
          have hentry : s.isEntry (s.filteredClaims networkIDs globalIndex) c = true :=
            isEntry_head hrows
          obtain ⟨n, hn⟩ : ∃ n, pageSize.toNat = n + 1 := ⟨pageSize.toNat - 1, by omega⟩
          rw [hn, take_succ_cons, countP_cons_of_pos hentry]
          omega
      · rw [hsingle]
        exact offsetOf_pos hodd hi (by omega)
    · refine pagesComplete_of_onFirstPage (by omega) (by omega) hfirst fun i hi hi' => ?_
      rw [offsetOf_max hmax hi (by omega)]
      omega
    · exact pagesComplete_of_entriesLead hone hpos hlt hlead

end complete

/-- Two global indices, each claimed once. -/
def claimedApart : ClaimStorage ℕ :=
  ⟨[claimAt 1 0 1, claimAt 2 0 2], [], by decide, nodup_noUnsetClaims⟩

theorem pagesComplete_claimedApart : PagesComplete claimedApart (fun _ => 0) 1 [] none := by
  have htotal : claimedApart.totalClaims [] none = 2 := by decide
  refine (pagesComplete_iff (by decide)).mpr (Or.inr (Or.inr ⟨rfl, by omega, by omega, ?_⟩))
  exact ⟨[claimAt 2 0 2, claimAt 1 0 1], [], by decide, by decide, by decide, by decide⟩

/-- Global index 1 is claimed in block 1, global index 2 in blocks 2 and 3. -/
def mergedRows : ClaimStorage ℕ :=
  ⟨[claimAt 1 0 1, claimAt 2 0 2, claimAt 3 0 2], [], by decide, nodup_noUnsetClaims⟩

/-- Two entries on pages of one row: the second page is empty, the third one, which would have global
index 1, is rejected, and with pages of two rows a page far beyond the last one is accepted. -/
theorem pages_lose_claim :
    claimAt 1 0 1 ∈ mergedRows.compactedClaims (mergedRows.filteredClaims [] none) ∧
      mergedRows.getClaimsPaged (fun _ => 0) 1 1 [] none = .ok ([⟨claimAt 2 0 2, 0⟩], 2) ∧
      mergedRows.getClaimsPaged (fun _ => 0) 2 1 [] none = .ok ([], 2) ∧
      mergedRows.getClaimsPaged (fun _ => 0) 3 1 [] none = .error ⟨"claims", 3, 1, 2⟩ ∧
      mergedRows.getClaimsPaged (fun _ => 0) 2147483649 2 [] none =
        mergedRows.getClaimsPaged (fun _ => 0) 1 2 [] none ∧
      ¬PagesComplete mergedRows (fun _ => 0) 1 [] none := by
  have hsecond : mergedRows.getClaimsPaged (fun _ => 0) 2 1 [] none = .ok ([], 2) := by
    decide +kernel
  refine ⟨by decide +kernel, by decide +kernel, hsecond, by decide +kernel, by decide +kernel,
    fun h => ?_⟩
  obtain ⟨-, lead, rest, hrows, hlead, hrest, -⟩ := h.entriesLead rfl
  have horder := orderByKeyDesc_pairwise (mergedRows.filteredClaims [] none)
  rw [hrows] at horder
  -- The second row stands for no entry, the last one does.
  have hlast : claimAt 1 0 1 ∈ lead :=
    (mem_append.mp (hrows ▸ by decide +kernel)).resolve_right fun h =>
      absurd (hrest _ h) (by decide +kernel)
  have hsecond : claimAt 2 0 2 ∈ rest :=
    (mem_append.mp (hrows ▸ by decide +kernel)).resolve_left fun h =>
      absurd (hlead _ h) (by decide +kernel)
  exact absurd ((pairwise_append.mp horder).2.2 _ hlast _ hsecond) (by decide)

end AggKit.ClaimSync
