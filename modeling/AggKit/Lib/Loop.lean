import Mathlib.Data.Nat.Notation

/-!
# Loops that return or fail

The body of a loop without a condition (`for { … }`) either goes on with a new state, returns a
value, or fails. `run` is the loop cut off after a number of iterations; it is `none` when it was
cut off before the loop returned. A loop that has returned returns the same with more iterations
(`run_mono`), so a result of `run` is the result of the loop.

Two rules follow. `run_spec` carries an invariant to the value or the error that ends the loop.
`exists_run` is termination: the loop ends where every iteration that goes on keeps the invariant
and decreases a measure.
-/

namespace AggKit.Loop

variable {σ α ε : Type*}

/-- What the body of a loop does: go on with a state, or return. -/
inductive Next (σ α : Type*) where
  | again (s : σ)
  | done (a : α)
deriving DecidableEq

/-- The loop with at most the given number of iterations. -/
def run (body : σ → Except ε (Next σ α)) : ℕ → σ → Option (Except ε α)
  | 0, _ => none
  | fuel + 1, s =>
    match body s with
    | .error err => some (.error err)
    | .ok (.done a) => some (.ok a)
    | .ok (.again s') => run body fuel s'

variable {body : σ → Except ε (Next σ α)} {s : σ}

/-- More iterations do not change the result. -/
theorem run_mono {m n : ℕ} (hmn : m ≤ n) {r : Except ε α} (h : run body m s = some r) :
    run body n s = some r := by
  induction m generalizing n s with
  | zero => cases h
  | succ m ih =>
    obtain ⟨n, rfl⟩ := Nat.exists_eq_add_of_lt hmn
    unfold run at h ⊢
    split at h
    · exact h
    · exact h
    · exact ih (Nat.le_add_right m n) h

/-- An invariant of the iterations that go on holds when the loop returns or fails. -/
theorem run_spec (I : σ → Prop) {Q : α → Prop} {E : ε → Prop}
    (hagain : ∀ {s s'}, I s → body s = .ok (.again s') → I s')
    (hdone : ∀ {s a}, I s → body s = .ok (.done a) → Q a)
    (herror : ∀ {s err}, I s → body s = .error err → E err) {n : ℕ} {r : Except ε α} (hs : I s)
    (h : run body n s = some r) : (∀ a, r = .ok a → Q a) ∧ ∀ err, r = .error err → E err := by
  induction n generalizing s with
  | zero => cases h
  | succ n ih =>
    unfold run at h
    split at h
    · rename_i err hbody
      cases h
      exact ⟨nofun, fun _ heq => Except.error.inj heq ▸ herror hs hbody⟩
    · rename_i a hbody
      cases h
      exact ⟨fun _ heq => Except.ok.inj heq ▸ hdone hs hbody, nofun⟩
    · rename_i s' hbody
      exact ih (hagain hs hbody) h

/-- A loop whose iterations decrease a measure ends after at most as many iterations. -/
theorem exists_run (I : σ → Prop) (μ : σ → ℕ)
    (hagain : ∀ {s s'}, I s → body s = .ok (.again s') → I s' ∧ μ s' < μ s) {n : ℕ} (hs : I s)
    (hn : μ s < n) : ∃ r, run body n s = some r := by
  induction n generalizing s with
  | zero => exact absurd hn (Nat.not_lt_zero _)
  | succ n ih =>
    unfold run
    split
    · exact ⟨_, rfl⟩
    · exact ⟨_, rfl⟩
    · rename_i s' hbody
      obtain ⟨hs', hlt⟩ := hagain hs hbody
      exact ih hs' (Nat.lt_of_lt_of_le hlt (Nat.lt_succ_iff.mp hn))

/-- The result of a loop all of whose iterations decrease a measure. -/
def eval (body : σ → Except ε (Next σ α)) (μ : σ → ℕ)
    (hμ : ∀ {s s'}, body s = .ok (.again s') → μ s' < μ s) (s : σ) : Except ε α :=
  (run body (μ s + 1) s).get (Option.isSome_iff_exists.mpr
    (exists_run (fun _ => True) μ (fun _ h => ⟨trivial, hμ h⟩) trivial (Nat.lt_succ_self _)))

theorem run_eq_eval (μ : σ → ℕ) (hμ : ∀ {s s'}, body s = .ok (.again s') → μ s' < μ s) (s : σ) :
    run body (μ s + 1) s = some (eval body μ hμ s) :=
  (Option.some_get _).symm

/-! ## The value of a loop -/

/-- The loop returns a value. -/
def Returns (body : σ → Except ε (Next σ α)) (s : σ) (a : α) : Prop :=
  ∃ n, run body n s = some (.ok a)

theorem returns_of_again {s' : σ} {a : α} (h : body s = .ok (.again s')) :
    Returns body s a ↔ Returns body s' a := by
  constructor
  · rintro ⟨n, hn⟩
    cases n with
    | zero => cases hn
    | succ n =>
      refine ⟨n, ?_⟩
      simpa only [run, h] using hn
  · rintro ⟨n, hn⟩
    refine ⟨n + 1, ?_⟩
    simpa only [run, h] using hn

theorem returns_of_done {a b : α} (h : body s = .ok (.done b)) : Returns body s a ↔ b = a := by
  constructor
  · rintro ⟨n, hn⟩
    cases n with
    | zero => cases hn
    | succ n => simpa [run, h] using hn
  · rintro rfl
    refine ⟨1, ?_⟩
    simp only [run, h]

theorem not_returns_of_error {a : α} {err : ε} (h : body s = .error err) : ¬ Returns body s a := by
  rintro ⟨n, hn⟩
  cases n with
  | zero => cases hn
  | succ n => simp [run, h] at hn

/-- An invariant that the returned values contradict. -/
theorem not_returns (I : σ → Prop) {a : α}
    (hagain : ∀ {s s'}, I s → body s = .ok (.again s') → I s')
    (hdone : ∀ {s b}, I s → body s = .ok (.done b) → b ≠ a) (hs : I s) : ¬ Returns body s a := by
  rintro ⟨n, hn⟩
  have hspec := run_spec I (E := fun _ => True) hagain hdone (fun _ _ => trivial) hs hn
  exact hspec.1 a rfl rfl

end AggKit.Loop
