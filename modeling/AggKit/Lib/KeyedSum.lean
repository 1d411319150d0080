import Mathlib.Algebra.BigOperators.Group.List.Basic
import Mathlib.Data.List.AList

/-!
# Sums by key

The sum of the amounts of the elements of a list that have a given key. It is additive in the list,
and for a list whose keys differ it is the amount of the one element with that key. `sums` is the map
that a loop makes by adding the amount of each element to what the map has at its key; looking a key
up in it gives the sum of that key (`lookup_sums`).
-/

namespace KeyedSum

open List

variable {α β κ M : Type} [DecidableEq κ] [AddCommMonoid M]

/-- The sum of the amounts of the elements with a key. -/
def total (key : α → κ) (amount : α → M) (k : κ) (l : List α) : M :=
  (l.map fun a => if key a = k then amount a else 0).sum

section total

variable {key : α → κ} {amount : α → M} {k : κ}

@[simp]
theorem total_nil : total key amount k [] = 0 := rfl

theorem total_cons (a : α) (l : List α) :
    total key amount k (a :: l) = (if key a = k then amount a else 0) + total key amount k l := by
  rw [total, map_cons, sum_cons, total]

@[simp]
theorem total_append (l m : List α) :
    total key amount k (l ++ m) = total key amount k l + total key amount k m := by
  rw [total, map_append, sum_append, total, total]

theorem total_map (f : β → α) (l : List β) :
    total key amount k (l.map f) = total (key ∘ f) (amount ∘ f) k l := by
  rw [total, total, map_map]
  rfl

theorem total_flatMap (f : β → List α) (l : List β) :
    total key amount k (l.flatMap f) = (l.map fun b => total key amount k (f b)).sum := by
  induction l with
  | nil => rfl
  | cons b l ih => rw [flatMap_cons, total_append, ih, map_cons, sum_cons]

theorem total_perm {l m : List α} (h : l.Perm m) : total key amount k l = total key amount k m :=
  (h.map _).sum_eq

/-- Elements of other keys, and those without an amount, add nothing. -/
theorem total_eq_zero {l : List α} (h : ∀ a ∈ l, key a = k → amount a = 0) :
    total key amount k l = 0 := by
  refine sum_eq_zero fun x hx => ?_
  obtain ⟨a, ha, rfl⟩ := mem_map.mp hx
  split_ifs with hkey
  · exact h a ha hkey
  · rfl

/-- Where the keys differ, one element has the key. -/
theorem total_of_nodup {l : List α} (hkeys : (l.map key).Nodup) {a : α} (ha : a ∈ l) :
    total key amount (key a) l = amount a := by
  induction l with
  | nil => cases ha
  | cons b l ih =>
    rw [map_cons, nodup_cons] at hkeys
    rw [total_cons]
    rcases mem_cons.mp ha with rfl | hmem
    · have hrest : total key amount (key a) l = 0 :=
        total_eq_zero fun c hc heq => absurd (heq ▸ mem_map_of_mem hc) hkeys.1
      rw [if_pos rfl, hrest, add_zero]
    · have hne : key b ≠ key a := fun heq => hkeys.1 (heq ▸ mem_map_of_mem hmem)
      rw [if_neg hne, zero_add, ih hkeys.2 hmem]

end total

section sums

/-- One iteration: the amount is added to what the map has at the key. -/
def add (m : AList fun _ : κ => M) (e : κ × M) : AList fun _ : κ => M :=
  m.insert e.1 ((m.lookup e.1).getD 0 + e.2)

/-- The map after the loop. -/
def sums (l : List (κ × M)) : AList fun _ : κ => M := l.foldl add ∅

theorem lookup_foldl_add (m : AList fun _ : κ => M) (l : List (κ × M)) (k : κ) :
    ((l.foldl add m).lookup k).getD 0 = (m.lookup k).getD 0 + total Prod.fst Prod.snd k l := by
  induction l generalizing m with
  | nil => rw [foldl_nil, total_nil, add_zero]
  | cons e l ih =>
    rw [foldl_cons, ih, total_cons, ← add_assoc, add]
    split_ifs with hkey
    · rw [hkey, AList.lookup_insert, Option.getD_some]
    · rw [add_zero, AList.lookup_insert_ne (Ne.symm hkey)]

theorem lookup_sums (l : List (κ × M)) (k : κ) :
    ((sums l).lookup k).getD 0 = total Prod.fst Prod.snd k l := by
  rw [sums, lookup_foldl_add, AList.lookup_empty, Option.getD_none, zero_add]

end sums

end KeyedSum
