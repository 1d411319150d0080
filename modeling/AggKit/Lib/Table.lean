import Mathlib.Data.List.Induction
import Mathlib.Data.List.Sort

/-!
# Tables as lists of rows

A table of a relational database is the list of its rows in insertion order. The operations here
are the three that a store with a primary key offers: `insert` appends a row unless its key is
taken, `deleteWhere` drops the rows a condition selects, and `lastBy` is the row an `ORDER BY …
DESC LIMIT 1` query returns, the later insertion among rows of equal rank.

Each operation comes with the lemma its callers use in place of the definition.
-/

namespace Table

open List

variable {α κ : Type*}

/-- Insert a row under a primary key; `none` when a row with that key exists. -/
def insert [DecidableEq κ] (key : α → κ) (t : List α) (r : α) : Option (List α) :=
  if t.any (fun s => key s = key r) then none else some (t ++ [r])

/-- Drop the rows that satisfy the condition. -/
def deleteWhere (p : α → Bool) (t : List α) : List α := t.filter fun r => !p r

/-- The row of highest rank under `le`, the latest one among equals. -/
def lastBy (le : α → α → Bool) (t : List α) : Option α :=
  t.foldl (fun acc r => match acc with
    | none => some r
    | some a => if le a r then some r else some a) none

section insert

variable [DecidableEq κ] {key : α → κ} {t t' : List α} {r : α}

/-- An insertion succeeds exactly on a fresh key, and then appends. -/
theorem insert_eq_some_iff :
    insert key t r = some t' ↔ (∀ s ∈ t, key s ≠ key r) ∧ t' = t ++ [r] := by
  have hany : t.any (fun s => key s = key r) = true ↔ ∃ s ∈ t, key s = key r := by simp
  simp only [insert, hany]
  split_ifs with hold
  · obtain ⟨s, hs, hkey⟩ := hold
    exact iff_of_false nofun fun hfresh => hfresh.1 s hs hkey
  · rw [Option.some.injEq, eq_comm]
    exact (and_iff_right fun s hs hkey => hold ⟨s, hs, hkey⟩).symm

theorem insert_of_fresh (hfresh : ∀ s ∈ t, key s ≠ key r) : insert key t r = some (t ++ [r]) :=
  insert_eq_some_iff.mpr ⟨hfresh, rfl⟩

theorem insert_eq_none_iff : insert key t r = none ↔ ∃ s ∈ t, key s = key r := by
  unfold insert
  split_ifs with hany
  · simpa using hany
  · simpa using hany

/-- An insertion that may fail leaves the rows and the new one if its key is fresh. -/
theorem mem_getD_insert {s : α} :
    s ∈ (insert key t r).getD t ↔ s ∈ t ∨ s = r ∧ ∀ s ∈ t, key s ≠ key r := by
  cases hins : insert key t r with
  | none =>
    obtain ⟨old, hold, hkey⟩ := insert_eq_none_iff.mp hins
    exact (or_iff_left fun h => h.2 old hold hkey).symm
  | some t' =>
    obtain ⟨hfresh, rfl⟩ := insert_eq_some_iff.mp hins
    rw [Option.getD_some, mem_append, mem_singleton, and_iff_left hfresh]

/-- An insertion keeps the keys distinct. -/
theorem nodup_key_insert (hkeys : (t.map key).Nodup) (hins : insert key t r = some t') :
    (t'.map key).Nodup := by
  obtain ⟨hfresh, rfl⟩ := insert_eq_some_iff.mp hins
  rw [map_append, map_singleton, ← concat_eq_append]
  refine hkeys.concat fun hmem => ?_
  obtain ⟨s, hs, hkey⟩ := mem_map.mp hmem
  exact hfresh s hs hkey

end insert

section deleteWhere

variable {p : α → Bool} {t : List α} {r : α}

@[simp]
theorem mem_deleteWhere : r ∈ deleteWhere p t ↔ r ∈ t ∧ p r = false := by
  simp [deleteWhere]

@[simp]
theorem deleteWhere_append (t u : List α) :
    deleteWhere p (t ++ u) = deleteWhere p t ++ deleteWhere p u := by
  simp [deleteWhere]

/-- Nothing is dropped when the condition selects no row. -/
theorem deleteWhere_eq_self (hp : ∀ s ∈ t, p s = false) : deleteWhere p t = t := by
  simpa [deleteWhere, filter_eq_self] using hp

/-- Everything is dropped when the condition selects every row. -/
theorem deleteWhere_eq_nil (hp : ∀ s ∈ t, p s = true) : deleteWhere p t = [] := by
  simpa [deleteWhere, filter_eq_nil_iff] using hp

end deleteWhere

theorem deleteWhere_comm (p q : α → Bool) (t : List α) :
    deleteWhere p (deleteWhere q t) = deleteWhere q (deleteWhere p t) := by
  exact filter_comm _ _ t

/-- A table of which the rows from some point on are deleted. -/
theorem exists_split_deleteWhere (ht : t.Pairwise fun a b => p a = true → p b = true) :
    ∃ early late, t = early ++ late ∧ deleteWhere p t = early ∧ (∀ r ∈ early, p r = false) ∧
      ∀ r ∈ late, p r = true := by
  induction t with
  | nil => exact ⟨[], [], rfl, rfl, by simp, by simp⟩
  | cons a t ih =>
    obtain ⟨hhead, htail⟩ := pairwise_cons.mp ht
    cases ha : p a with
    | true =>
      have hall : ∀ r ∈ a :: t, p r = true := forall_mem_cons.mpr ⟨ha, fun r hr => hhead r hr ha⟩
      exact ⟨[], a :: t, rfl, deleteWhere_eq_nil hall, by simp, hall⟩
    | false =>
      obtain ⟨early, late, rfl, hdelete, hearly, hlate⟩ := ih htail
      refine ⟨a :: early, late, rfl, ?_, forall_mem_cons.mpr ⟨ha, hearly⟩, hlate⟩
      unfold deleteWhere at hdelete ⊢
      rw [filter_cons_of_pos (by simp [ha]), hdelete]

/-- Where every row after a deleted one is deleted as well, an initial segment is left. -/
theorem exists_deleteWhere_eq_take (ht : t.Pairwise fun a b => p a = true → p b = true) :
    ∃ n, deleteWhere p t = t.take n := by
  obtain ⟨early, late, rfl, hdelete, -⟩ := exists_split_deleteWhere ht
  exact ⟨early.length, by rw [hdelete, take_left]⟩

/-- A list without duplicates whose elements are all equal has one at most. -/
theorem length_le_one_of_nodup {α : Type} {l : List α} (hnodup : l.Nodup)
    (h : ∀ a ∈ l, ∀ b ∈ l, a = b) : l.length ≤ 1 := by
  match l with
  | [] => exact Nat.zero_le 1
  | [a] => exact Nat.le_refl 1
  | a :: b :: l =>
    have heq : a = b := h a mem_cons_self b (mem_cons_of_mem a mem_cons_self)
    exact absurd (heq ▸ mem_cons_self) (nodup_cons.mp hnodup).1

variable {p : α → Bool} {t : List α}

/-- Selecting by a condition that one row of a table without repetitions satisfies. -/
theorem filter_eq_singleton {r : α} (ht : t.Nodup) (hr : r ∈ t) (hp : ∀ s ∈ t, p s = true ↔ s = r) :
    t.filter p = [r] := by
  refine perm_singleton.mp ((perm_ext_iff_of_nodup (ht.filter p) (nodup_singleton r)).mpr
    fun s => ?_)
  rw [mem_filter, mem_singleton]
  exact ⟨fun h => (hp s h.1).mp h.2, fun h => h ▸ ⟨hr, (hp r hr).mpr rfl⟩⟩

/-- Selecting by a condition that tells two parts of a table apart. -/
theorem filter_append_left {u : List α} (ht : ∀ s ∈ t, p s = true) (hu : ∀ s ∈ u, p s = false) :
    (t ++ u).filter p = t := by
  rw [filter_append, filter_eq_self.mpr ht, filter_eq_nil_iff.mpr fun s hs => by simp [hu s hs],
    append_nil]

theorem filter_append_right {u : List α} (ht : ∀ s ∈ t, p s = false) (hu : ∀ s ∈ u, p s = true) :
    (t ++ u).filter p = u := by
  rw [filter_append, filter_eq_self.mpr hu, filter_eq_nil_iff.mpr fun s hs => by simp [ht s hs],
    nil_append]

theorem deleteWhere_append_left {u : List α} (ht : ∀ s ∈ t, p s = false) (hu : ∀ s ∈ u, p s = true) :
    deleteWhere p (t ++ u) = t := by
  rw [deleteWhere_append, deleteWhere_eq_self ht, deleteWhere_eq_nil hu, append_nil]

/-- A condition on the rows of a join that only depends on the left row can be checked first. -/
theorem filter_flatMap_of_left {β : Type*} {q : β → Bool} {f : α → List β}
    (hq : ∀ r, ∀ b ∈ f r, q b = p r) (t : List α) :
    (t.flatMap f).filter q = (t.filter p).flatMap f := by
  induction t with
  | nil => rfl
  | cons r t ih =>
    rw [flatMap_cons, filter_append, ih]
    cases hr : p r with
    | true =>
      have hall : (f r).filter q = f r := filter_eq_self.mpr fun b hb => (hq r b hb).trans hr
      rw [hall, filter_cons_of_pos hr, flatMap_cons]
    | false =>
      have hnone : (f r).filter q = [] :=
        filter_eq_nil_iff.mpr fun b hb => by simp [hq r b hb, hr]
      rw [hnone, nil_append, filter_cons_of_neg (by simp [hr])]

section lastBy

variable {le : α → α → Bool} {t : List α} {r : α}

@[simp]
theorem lastBy_nil : lastBy le ([] : List α) = none := rfl

theorem lastBy_concat (t : List α) (r : α) :
    lastBy le (t ++ [r]) = match lastBy le t with
      | none => some r
      | some a => if le a r then some r else some a := by
  rw [lastBy, foldl_append]
  rfl

/-- The row of highest rank is a row of the table. -/
theorem mem_of_lastBy_eq_some (h : lastBy le t = some r) : r ∈ t := by
  induction t using List.reverseRecOn generalizing r with
  | nil => simp at h
  | append_singleton t x ih =>
    rw [lastBy_concat] at h
    cases hlast : lastBy le t with
    | none => simp_all
    | some a =>
      rw [hlast] at h
      simp only at h
      split_ifs at h <;> simp_all

@[simp]
theorem lastBy_eq_none_iff : lastBy le t = none ↔ t = [] := by
  constructor
  · intro h
    rcases eq_nil_or_concat t with rfl | ⟨u, x, rfl⟩
    · rfl
    · rw [concat_eq_append, lastBy_concat] at h
      cases hlast : lastBy le u with
      | none => simp [hlast] at h
      | some a =>
        simp only [hlast] at h
        split_ifs at h
  · rintro rfl
    rfl

/-- A row appended after rows of no higher rank is the highest. -/
theorem lastBy_concat_of_le (hle : ∀ s ∈ t, le s r = true) : lastBy le (t ++ [r]) = some r := by
  rw [lastBy_concat]
  cases hlast : lastBy le t with
  | none => rfl
  | some a => simp [hle a (mem_of_lastBy_eq_some hlast)]

/-- No row has a higher key than the row of highest key. -/
theorem key_le_of_lastBy_eq_some [LinearOrder κ] {key : α → κ}
    (h : lastBy (fun a b => decide (key a ≤ key b)) t = some r) : ∀ s ∈ t, key s ≤ key r := by
  induction t using List.reverseRecOn generalizing r with
  | nil => simp at h
  | append_singleton t x ih =>
    rw [lastBy_concat] at h
    rw [forall_mem_append, forall_mem_singleton]
    cases hlast : lastBy (fun a b => decide (key a ≤ key b)) t with
    | none =>
      rw [hlast, Option.some.injEq] at h
      rw [lastBy_eq_none_iff.mp hlast, h]
      exact ⟨forall_mem_nil _, le_rfl⟩
    | some a =>
      simp only [hlast, decide_eq_true_eq] at h
      split_ifs at h with hle
      · rw [Option.some.injEq] at h
        subst h
        exact ⟨fun s hs => (ih hlast s hs).trans hle, le_rfl⟩
      · rw [Option.some.injEq] at h
        subst h
        exact ⟨ih hlast, (lt_of_not_ge hle).le⟩

end lastBy

/-! ## Tables with a primary key -/

/-- A table in which no two rows have one key. -/
@[ext]
structure Keyed (key : α → κ) where
  rows : List α
  nodup : (rows.map key).Nodup

section keyed

variable {key : α → κ}

/-- The empty table. -/
def Keyed.empty : Keyed key := ⟨[], nodup_nil⟩

/-- Drop the rows that satisfy the condition. -/
def Keyed.deleteWhere (p : α → Bool) (t : Keyed key) : Keyed key :=
  ⟨Table.deleteWhere p t.rows, t.nodup.sublist (filter_sublist.map key)⟩

@[simp]
theorem Keyed.rows_deleteWhere (p : α → Bool) (t : Keyed key) :
    (t.deleteWhere p).rows = Table.deleteWhere p t.rows := rfl

variable {r : α}

/-- Rows with one key are equal. -/
theorem Keyed.eq_of_key_eq (t : Keyed key) {s : α} (hr : r ∈ t.rows) (hs : s ∈ t.rows)
    (hkey : key r = key s) : r = s :=
  inj_on_of_nodup_map t.nodup hr hs hkey

/-- Update the rows; the keys stay. -/
def Keyed.map (f : α → α) (hf : ∀ r, key (f r) = key r) (t : Keyed key) : Keyed key :=
  ⟨t.rows.map f, by
    rw [map_map, show key ∘ f = key from funext hf]
    exact t.nodup⟩

@[simp]
theorem Keyed.rows_map (f : α → α) (hf : ∀ r, key (f r) = key r) (t : Keyed key) :
    (t.map f hf).rows = t.rows.map f := rfl

/-- Write a row in place of the one with its key, if there is one. -/
def Keyed.upsert [DecidableEq κ] (t : Keyed key) (r : α) : Keyed key where
  rows := (t.deleteWhere fun s => decide (key s = key r)).rows ++ [r]
  nodup := by
    rw [map_append, map_singleton]
    refine nodup_append.mpr ⟨Keyed.nodup _, nodup_singleton _, fun k hk k' hk' => ?_⟩
    obtain ⟨s, hs, rfl⟩ := mem_map.mp hk
    rw [mem_singleton.mp hk']
    simpa using (mem_deleteWhere.mp hs).2

variable {t : Keyed key}

@[simp]
theorem Keyed.mem_upsert [DecidableEq κ] {s : α} :
    s ∈ (t.upsert r).rows ↔ s = r ∨ (s ∈ t.rows ∧ key s ≠ key r) := by
  simp only [Keyed.upsert, Keyed.rows_deleteWhere, mem_append, mem_deleteWhere,
    decide_eq_false_iff_not, mem_singleton]
  exact or_comm

/-- The row with the highest key. -/
theorem Keyed.lastBy_eq_some_iff [LinearOrder κ] (t : Keyed key) :
    lastBy (fun a b => decide (key a ≤ key b)) t.rows = some r ↔
      r ∈ t.rows ∧ ∀ s ∈ t.rows, key s ≤ key r := by
  constructor
  · exact fun h => ⟨mem_of_lastBy_eq_some h, key_le_of_lastBy_eq_some h⟩
  · rintro ⟨hr, hle⟩
    cases hlast : lastBy (fun a b => decide (key a ≤ key b)) t.rows with
    | none => exact absurd hr (lastBy_eq_none_iff.mp hlast ▸ not_mem_nil)
    | some s =>
      have hs := mem_of_lastBy_eq_some hlast
      have hkey : key s = key r := le_antisymm (hle s hs) (key_le_of_lastBy_eq_some hlast r hr)
      rw [t.eq_of_key_eq hs hr hkey]

variable [DecidableEq κ]

/-- Insert a row; `none` when a row with its key exists. -/
def Keyed.insert (t : Keyed key) (r : α) : Option (Keyed key) :=
  match h : Table.insert key t.rows r with
  | none => none
  | some rows => some ⟨rows, nodup_key_insert t.nodup h⟩

/-- An insertion succeeds exactly on a fresh key, and then appends. -/
theorem Keyed.insert_eq_some_iff {t' : Keyed key} :
    t.insert r = some t' ↔ (∀ s ∈ t.rows, key s ≠ key r) ∧ t'.rows = t.rows ++ [r] := by
  have hrows : t.insert r = some t' ↔ Table.insert key t.rows r = some t'.rows := by
    unfold Keyed.insert
    split
    · rename_i h
      simp [h]
    · rename_i rows h
      simp only [h, Option.some.injEq, Keyed.ext_iff]
  rw [hrows, Table.insert_eq_some_iff]

/-- A row with a new key can be inserted. -/
theorem Keyed.exists_insert (hfresh : ∀ s ∈ t.rows, key s ≠ key r) :
    ∃ t', t.insert r = some t' ∧ t'.rows = t.rows ++ [r] :=
  ⟨⟨t.rows ++ [r], nodup_key_insert t.nodup (insert_of_fresh hfresh)⟩,
    Keyed.insert_eq_some_iff.mpr ⟨hfresh, rfl⟩, rfl⟩

omit [DecidableEq κ] in
/-- After a row was inserted, others with new and different keys still have new keys. -/
theorem Keyed.fresh_of_insert {t' : Keyed key} {rest : List α} (hrows : t'.rows = t.rows ++ [r])
    (hfresh : ∀ a ∈ rest, ∀ s ∈ t.rows, key s ≠ key a) (hnew : key r ∉ rest.map key) :
    ∀ a ∈ rest, ∀ s ∈ t'.rows, key s ≠ key a := by
  intro a ha s hs
  rw [hrows, mem_append, mem_singleton] at hs
  rcases hs with hs | rfl
  · exact hfresh a ha s hs
  · exact fun heq => hnew (heq ▸ mem_map_of_mem ha)

/-- A row is found by its key. -/
theorem Keyed.find?_eq_some_iff {k : κ} :
    t.rows.find? (fun s => decide (key s = k)) = some r ↔ r ∈ t.rows ∧ key r = k := by
  have hfound : ∀ {s}, t.rows.find? (fun s => decide (key s = k)) = some s →
      s ∈ t.rows ∧ key s = k := fun h =>
    ⟨mem_of_find?_eq_some h, by simpa using find?_some h⟩
  refine ⟨hfound, fun ⟨hr, hkey⟩ => ?_⟩
  cases hfind : t.rows.find? fun s => decide (key s = k) with
  | none => exact absurd (decide_eq_true hkey) (find?_eq_none.mp hfind r hr)
  | some s =>
    obtain ⟨hs, hkey'⟩ := hfound hfind
    rw [t.eq_of_key_eq hs hr (hkey'.trans hkey.symm)]

end keyed

/-! ## Ordered queries -/

/-- In rows that come in order, the first one that passes a test is before the others. -/
theorem rel_of_find? {R : α → α → Prop} {a b : α} (ht : t.Pairwise R) (h : t.find? p = some a)
    (hb : b ∈ t) (hp : p b = true) : b = a ∨ R a b := by
  obtain ⟨-, pre, post, rfl, hpre⟩ := find?_eq_some_iff_append.mp h
  rcases mem_append.mp hb with hb | hb
  · exact absurd hp (by simpa using hpre b hb)
  · exact (mem_cons.mp hb).imp_right ((pairwise_cons.mp (pairwise_append.mp ht).2.1).1 b)

/-- In rows that come in order, the others are before the last one. -/
theorem rel_of_getLast? {R : α → α → Prop} {a b : α} (ht : t.Pairwise R) (h : t.getLast? = some a)
    (hb : b ∈ t) : b = a ∨ R b a := by
  obtain ⟨pre, rfl⟩ := getLast?_eq_some_iff.mp h
  rcases mem_append.mp hb with hb | hb
  · exact .inr ((pairwise_append.mp ht).2.2 b hb a (.head _))
  · exact .inl (mem_singleton.mp hb)

/-- `ORDER BY` a key, ascending. -/
def orderBy {ι : Type*} [LinearOrder ι] (key : α → ι) (t : List α) : List α :=
  t.insertionSort fun a b => key a ≤ key b

variable {ι : Type*} {key : α → ι}

@[simp]
theorem mem_orderBy [LinearOrder ι] {r : α} : r ∈ orderBy key t ↔ r ∈ t :=
  (perm_insertionSort _ t).mem_iff

theorem pairwise_orderBy [LinearOrder ι] (key : α → ι) (t : List α) :
    (orderBy key t).Pairwise fun a b => key a ≤ key b :=
  pairwise_insertionSort (r := fun a b => key a ≤ key b) t

/-- Rows that come in order stay as they are. -/
theorem orderBy_eq_self [LinearOrder ι] (ht : t.Pairwise fun a b => key a ≤ key b) :
    orderBy key t = t :=
  List.Pairwise.insertionSort_eq ht

/-- With distinct keys, the order is strict. -/
theorem Keyed.pairwise_lt_orderBy [LinearOrder κ] {key : α → κ} (t : Keyed key) :
    (orderBy key t.rows).Pairwise fun a b => key a < key b := by
  have hnodup : ((orderBy key t.rows).map key).Nodup :=
    ((perm_insertionSort _ t.rows).map key).nodup_iff.mpr t.nodup
  have hne : (orderBy key t.rows).Pairwise fun a b => key a ≠ key b := pairwise_map.mp hnodup
  exact ((pairwise_orderBy key t.rows).and hne).imp fun h => lt_of_le_of_ne h.1 h.2

/-- A query that orders by a key and then selects, on a table with distinct keys. -/
theorem filter_orderBy_eq [LinearOrder ι] {l : List α} (hperm : (t.filter p).Perm l)
    (hl : l.Pairwise fun a b => key a < key b) : (orderBy key t).filter p = l := by
  have hsorted : ((orderBy key t).filter p).Pairwise fun a b => key a ≤ key b :=
    (pairwise_orderBy key t).sublist filter_sublist
  have hperm' : ((orderBy key t).filter p).Perm l :=
    ((perm_insertionSort (fun a b => key a ≤ key b) t).filter p).trans hperm
  have hinj : ∀ a ∈ l, ∀ b ∈ l, key a = key b → a = b :=
    inj_on_of_nodup_map (pairwise_map.mpr (hl.imp fun hlt => hlt.ne))
  refine hperm'.eq_of_pairwise (fun a b ha hb hab hba => ?_) hsorted (hl.imp fun hlt => hlt.le)
  exact hinj a (hperm'.mem_iff.mp ha) b hb (le_antisymm hab hba)

end Table
