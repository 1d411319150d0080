import Mathlib.Data.Nat.Notation

/-!
# Halving an interval toward a range

A search that halves the interval `[lo, hi]` of numbers until it meets the range `[a, e)` asks about the
number in the middle, goes on above it if it is below the range and below it otherwise. `Asks` are the
numbers that it asks about on its way, without those in the range. They depend on the numbers alone, not
on what the search is over.
-/

namespace Halving

/-- The number in the middle. -/
def mid (lo hi : ℕ) : ℕ := lo + (hi - lo) / 2

theorem le_mid (lo hi : ℕ) : lo ≤ mid lo hi := Nat.le_add_right _ _

theorem mid_le {lo hi : ℕ} (h : lo ≤ hi) : mid lo hi ≤ hi := by
  unfold mid
  omega

/-- The numbers outside of `[a, e)` that the halving of `[lo, hi]` asks about. -/
inductive Asks (a e : ℕ) : ℕ → ℕ → ℕ → Prop where
  | here {lo hi : ℕ} : lo ≤ hi → mid lo hi < a ∨ e ≤ mid lo hi → Asks a e lo hi (mid lo hi)
  | up {lo hi m : ℕ} : lo ≤ hi → mid lo hi < a → Asks a e (mid lo hi + 1) hi m → Asks a e lo hi m
  | down {lo hi m : ℕ} : lo ≤ hi → a ≤ mid lo hi → e ≤ mid lo hi → Asks a e lo (mid lo hi - 1) m →
      Asks a e lo hi m

variable {a e lo hi : ℕ}

/-- Nothing is asked about an empty interval. -/
theorem not_asks_of_lt (h : hi < lo) (m : ℕ) : ¬ Asks a e lo hi m := by
  intro hasks
  cases hasks with
  | here hle _ | up hle _ _ | down hle _ _ _ => omega

/-- Below the range. -/
theorem forall_asks_up {P : ℕ → Prop} (hle : lo ≤ hi) (hlt : mid lo hi < a) :
    (∀ m, Asks a e lo hi m → P m) ↔
      P (mid lo hi) ∧ ∀ m, Asks a e (mid lo hi + 1) hi m → P m := by
  constructor
  · intro h
    exact ⟨h _ (.here hle (.inl hlt)), fun m hm => h m (.up hle hlt hm)⟩
  · rintro ⟨hmid, hrest⟩ m hm
    cases hm with
    | here _ _ => exact hmid
    | up _ _ hm => exact hrest m hm
    | down _ ha _ _ => omega

/-- Above the range, or in an empty one. -/
theorem forall_asks_down {P : ℕ → Prop} (hle : lo ≤ hi) (ha : a ≤ mid lo hi) (he : e ≤ mid lo hi) :
    (∀ m, Asks a e lo hi m → P m) ↔
      P (mid lo hi) ∧ ∀ m, Asks a e lo (mid lo hi - 1) m → P m := by
  constructor
  · intro h
    exact ⟨h _ (.here hle (.inr he)), fun m hm => h m (.down hle ha he hm)⟩
  · rintro ⟨hmid, hrest⟩ m hm
    cases hm with
    | here _ _ => exact hmid
    | up _ hlt _ => omega
    | down _ _ _ hm => exact hrest m hm

/-- In the range. -/
theorem not_asks_of_mem (ha : a ≤ mid lo hi) (he : mid lo hi < e) (m : ℕ) : ¬ Asks a e lo hi m := by
  intro hasks
  cases hasks with
  | here _ hout | up _ hlt _ | down _ _ hge _ => omega

end Halving
