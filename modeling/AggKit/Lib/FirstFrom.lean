import AggKit.Lib.Table

/-!
# The first row from a number on

Rows that come in the order of a number, several with one number possible. `firstFrom` is the query
for the first row whose number is at least a given one. It only ever returns the first row among those
with one number (`IsHead`), and a search that asks it cannot see the others.
-/

namespace Table

open List

variable {α : Type*} {num : α → ℕ} {t : List α} {r s : α} {m : ℕ}

/-- The first row whose number is at least `m`. -/
def firstFrom (num : α → ℕ) (t : List α) (m : ℕ) : Option α := t.find? fun r => decide (m ≤ num r)

/-- The row is the first one with its number. -/
def IsHead (num : α → ℕ) (t : List α) (r : α) : Prop := firstFrom num t (num r) = some r

instance [DecidableEq α] (num : α → ℕ) (t : List α) (r : α) : Decidable (IsHead num t r) :=
  inferInstanceAs (Decidable (_ = _))

theorem mem_of_firstFrom (h : firstFrom num t m = some r) : r ∈ t := mem_of_find?_eq_some h

theorem le_of_firstFrom (h : firstFrom num t m = some r) : m ≤ num r := by
  simpa using find?_some h

theorem exists_firstFrom (hs : s ∈ t) (hm : m ≤ num s) : ∃ r, firstFrom num t m = some r := by
  apply Option.isSome_iff_exists.mp
  exact find?_isSome.mpr ⟨s, hs, decide_eq_true hm⟩

/-- The row at a place is found from the numbers above those before it. -/
theorem firstFrom_append {pre post : List α} (hpre : ∀ s ∈ pre, num s < m) (hm : m ≤ num r) :
    firstFrom num (pre ++ r :: post) m = some r := by
  have hnone : pre.find? (fun s => decide (m ≤ num s)) = none := by
    rw [find?_eq_none]
    intro s hs
    have := hpre s hs
    simp only [decide_eq_true_eq]
    omega
  unfold firstFrom
  rw [find?_append, hnone, Option.none_or]
  simp [hm]

/-- A row before the one at a place is found otherwise. -/
theorem firstFrom_mem_of_append {pre post : List α} (hs : s ∈ pre) (hm : m ≤ num s) :
    ∃ q ∈ pre, firstFrom num (pre ++ post) m = some q := by
  obtain ⟨q, hq⟩ := exists_firstFrom hs hm
  refine ⟨q, mem_of_firstFrom hq, ?_⟩
  unfold firstFrom at hq ⊢
  rw [find?_append, hq, Option.some_or]

section sorted

variable (ht : t.Pairwise fun a b => num a ≤ num b)
include ht

/-- No row from the number on has a lower number than the first one. -/
theorem num_le_of_firstFrom (h : firstFrom num t m = some r) (hs : s ∈ t) (hm : m ≤ num s) :
    num r ≤ num s := by
  rcases rel_of_find? ht h hs (decide_eq_true hm) with rfl | hle
  · exact Nat.le_refl _
  · exact hle

theorem isHead_of_firstFrom (h : firstFrom num t m = some r) : IsHead num t r := by
  have hm := le_of_firstFrom h
  obtain ⟨-, pre, post, rfl, hpre⟩ := find?_eq_some_iff_append.mp h
  refine firstFrom_append (fun s hs => ?_) (Nat.le_refl _)
  have hlt : num s < m := by simpa using hpre s hs
  omega

end sorted

theorem IsHead.mem (h : IsHead num t r) : r ∈ t := mem_of_firstFrom h

/-- There is one first row with a number. -/
theorem IsHead.eq_of_num_eq (hr : IsHead num t r) (hs : IsHead num t s) (hnum : num r = num s) :
    r = s := by
  unfold IsHead at hr hs
  rw [hnum, hs] at hr
  exact (Option.some.inj hr).symm

end Table
