import Mathlib.Data.List.AList

/-!
# Maps that a loop fills

A loop that goes through a list and assigns a value to a key of a map, for some of the elements. Where
the keys of the elements differ, the map has one entry for each element that has a value
(`entries_ofList`), and these are what is looked up in it (`lookup_ofList`).
-/

namespace AssocMap

open List

variable {α κ β : Type} [DecidableEq κ]

/-- One iteration of the loop. -/
def assign (key : α → κ) (val : α → Option β) (m : AList fun _ : κ => β) (a : α) :
    AList fun _ : κ => β :=
  match val a with
  | some v => m.insert (key a) v
  | none => m

/-- The map after the loop, in which a later element of a key takes the place of an earlier one. -/
def ofList (key : α → κ) (val : α → Option β) (l : List α) : AList fun _ : κ => β :=
  l.foldl (assign key val) ∅

/-- The entry that an element makes. -/
def entryOf (key : α → κ) (val : α → Option β) (a : α) : Option (Sigma fun _ : κ => β) :=
  (val a).map fun v => ⟨key a, v⟩

variable {key : α → κ} {val : α → Option β} {l : List α}

theorem entries_foldl {m : AList fun _ : κ => β} (hkeys : (l.map key).Nodup)
    (hfresh : ∀ a ∈ l, key a ∉ m) :
    (l.foldl (assign key val) m).entries.Perm (l.filterMap (entryOf key val) ++ m.entries) := by
  induction l generalizing m with
  | nil => exact List.Perm.refl _
  | cons a l ih =>
    rw [map_cons, nodup_cons] at hkeys
    have hother : ∀ b ∈ l, key b ≠ key a :=
      fun b hb heq => hkeys.1 (heq ▸ mem_map_of_mem hb)
    rw [foldl_cons]
    cases hval : val a with
    | none =>
      have hassign : assign key val m a = m := by rw [assign, hval]
      have hentry : entryOf key val a = none := by rw [entryOf, hval, Option.map_none]
      rw [hassign, filterMap_cons_none hentry]
      exact ih hkeys.2 fun b hb => hfresh b (mem_cons_of_mem a hb)
    | some v =>
      have hassign : assign key val m a = m.insert (key a) v := by rw [assign, hval]
      have hentry : entryOf key val a = some ⟨key a, v⟩ := by rw [entryOf, hval, Option.map_some]
      have hfresh' : ∀ b ∈ l, key b ∉ m.insert (key a) v := fun b hb => by
        rw [AList.mem_insert, not_or]
        exact ⟨hother b hb, hfresh b (mem_cons_of_mem a hb)⟩
      rw [hassign, filterMap_cons_some hentry]
      refine (ih hkeys.2 hfresh').trans ?_
      rw [AList.entries_insert_of_notMem (hfresh a mem_cons_self)]
      exact perm_middle

/-- Where the keys differ, the entries are those of the elements. -/
theorem entries_ofList (hkeys : (l.map key).Nodup) :
    (ofList key val l).entries.Perm (l.filterMap (entryOf key val)) := by
  have hloop : (l.foldl (assign key val) ∅).entries.Perm
      (l.filterMap (entryOf key val) ++ AList.entries ∅) := entries_foldl hkeys (by simp)
  simpa [ofList] using hloop

theorem lookup_ofList (hkeys : (l.map key).Nodup) {k : κ} {v : β} :
    (ofList key val l).lookup k = some v ↔ ∃ a ∈ l, key a = k ∧ val a = some v := by
  have hmem : (ofList key val l).lookup k = some v ↔
      (⟨k, v⟩ : Sigma fun _ : κ => β) ∈ (ofList key val l).entries := AList.mem_lookup_iff
  rw [hmem, (entries_ofList hkeys).mem_iff, mem_filterMap]
  constructor
  · rintro ⟨a, ha, hentry⟩
    obtain ⟨w, hw, heq⟩ := Option.map_eq_some_iff.mp hentry
    cases heq
    exact ⟨a, ha, rfl, hw⟩
  · rintro ⟨a, ha, rfl, hv⟩
    exact ⟨a, ha, by rw [entryOf, hv, Option.map_some]⟩

/-- What is looked up at the key of an element is the value of that element. -/
theorem lookup_ofList_key (hkeys : (l.map key).Nodup) {a : α} (ha : a ∈ l) :
    (ofList key val l).lookup (key a) = val a := by
  refine Option.ext fun v => ?_
  rw [lookup_ofList hkeys]
  constructor
  · rintro ⟨b, hb, heq, hv⟩
    rwa [inj_on_of_nodup_map hkeys hb ha heq] at hv
  · exact fun hv => ⟨a, ha, rfl, hv⟩

/-- What is looked up comes from an element, also where keys repeat. -/
theorem exists_of_lookup_ofList {k : κ} {v : β} (h : (ofList key val l).lookup k = some v) :
    ∃ a ∈ l, key a = k ∧ val a = some v := by
  have hloop : ∀ m : AList fun _ : κ => β, (l.foldl (assign key val) m).lookup k = some v →
      (∃ a ∈ l, key a = k ∧ val a = some v) ∨ m.lookup k = some v := by
    clear h
    intro m
    induction l generalizing m with
    | nil => exact Or.inr
    | cons a l ih =>
      intro hfold
      rcases ih _ hfold with ⟨b, hb, hkey, hval⟩ | hassign
      · exact Or.inl ⟨b, mem_cons_of_mem a hb, hkey, hval⟩
      · cases hval : val a with
        | none => exact Or.inr (by rwa [assign, hval] at hassign)
        | some w =>
          rw [assign, hval] at hassign
          by_cases hkey : k = key a
          · subst hkey
            rw [AList.lookup_insert] at hassign
            exact Or.inl ⟨a, mem_cons_self, rfl, hval.trans hassign⟩
          · rw [AList.lookup_insert_ne hkey] at hassign
            exact Or.inr hassign
  rcases hloop ∅ h with hfound | hempty
  · exact hfound
  · simp at hempty

end AssocMap
