import Mathlib.Init

/-!
# Runs of a deterministic system

A run applies actions one after the other from an initial state, each allowed by a guard that may
look at the state it is applied to. `Reach.invariant` is the induction over runs, stated once: what
holds initially and is kept by every allowed action holds in every state reached.
-/

namespace Run

variable {σ α : Type*}

/-- The states that allowed actions reach from `s₀`. -/
inductive Reach (step : σ → α → σ) (allowed : σ → α → Prop) (s₀ : σ) : σ → Prop
  /-- The empty run. -/
  | init : Reach step allowed s₀ s₀
  /-- A run with one more action. -/
  | step {s : σ} {a : α} : Reach step allowed s₀ s → allowed s a → Reach step allowed s₀ (step s a)

variable {step : σ → α → σ} {allowed : σ → α → Prop} {s₀ s : σ}

/-- What the initial state satisfies and every allowed action keeps, every reached state
satisfies. -/
theorem Reach.invariant {P : σ → Prop} (hrun : Reach step allowed s₀ s) (hinit : P s₀)
    (hstep : ∀ s a, P s → allowed s a → P (step s a)) : P s := by
  induction hrun with
  | init => exact hinit
  | step _ hallowed ih => exact hstep _ _ ih hallowed

/-- Every action of the list is fine in the state that the actions before it lead to. -/
def Along (next : σ → α → σ) (fine : σ → α → Prop) : σ → List α → Prop
  | _, [] => True
  | s, a :: as => fine s a ∧ Along next fine (next s a) as

variable {as : List α}

/-- A list of actions is fine in two parts, the second from where the first leads. -/
theorem Along.append_iff {next : σ → α → σ} {fine : σ → α → Prop} {bs : List α} :
    Along next fine s (as ++ bs) ↔
      Along next fine s as ∧ Along next fine (as.foldl next s) bs := by
  induction as generalizing s with
  | nil => simp [Along]
  | cons a as ih =>
    have hcons : Along next fine s (a :: (as ++ bs)) ↔
        fine s a ∧ Along next fine (next s a) (as ++ bs) := Iff.rfl
    rw [List.cons_append, List.foldl_cons, hcons, ih, ← and_assoc]
    rfl

/-- A list of allowed actions is a run to the state that they lead to. -/
theorem Reach.of_along (h : Along step allowed s₀ as) :
    Reach step allowed s₀ (as.foldl step s₀) := by
  -- The actions done before are kept in front, so that each of the others extends the run.
  suffices hgen : ∀ s, Reach step allowed s₀ s → Along step allowed s as →
      Reach step allowed s₀ (as.foldl step s) from hgen s₀ .init h
  clear h
  induction as with
  | nil => exact fun s hrun _ => hrun
  | cons a as ih => exact fun s hrun halong => ih _ (hrun.step halong.1) halong.2

/-- The actions of the list, each allowed in the state it is applied to and with a next state, lead
from `s₀` to a state. -/
inductive Steps (next : σ → α → Option σ) (allowed : σ → α → Prop) (s₀ : σ) : List α → σ → Prop
  /-- The empty run. -/
  | nil : Steps next allowed s₀ [] s₀
  /-- A run with one more action. -/
  | snoc {as : List α} {s s' : σ} {a : α} : Steps next allowed s₀ as s → allowed s a →
      next s a = some s' → Steps next allowed s₀ (as ++ [a]) s'

variable {next : σ → α → Option σ}

/-- What the initial state satisfies and every allowed action that succeeds keeps, every state
reached satisfies, together with the actions that led to it. -/
theorem Steps.invariant {P : List α → σ → Prop} (hrun : Steps next allowed s₀ as s)
    (hinit : P [] s₀)
    (hstep : ∀ as s a s', P as s → allowed s a → next s a = some s' → P (as ++ [a]) s') :
    P as s := by
  induction hrun with
  | nil => exact hinit
  | snoc _ hallowed hnext ih => exact hstep _ _ _ _ ih hallowed hnext

/-- A run with one more action in front. -/
theorem Steps.cons {a : α} {s1 : σ} (hallowed : allowed s₀ a) (hnext : next s₀ a = some s1)
    (hrun : Steps next allowed s1 as s) : Steps next allowed s₀ (a :: as) s := by
  induction hrun with
  | nil => exact .snoc .nil hallowed hnext
  | snoc _ hallowed' hnext' ih => exact .snoc ih hallowed' hnext'

/-- A run that is computed. -/
theorem Steps.of_foldlM (h : as.foldlM next s₀ = some s) :
    Steps next (fun _ _ => True) s₀ as s := by
  induction as generalizing s₀ with
  | nil =>
    obtain rfl : s₀ = s := Option.some.inj h
    exact .nil
  | cons a as ih =>
    obtain ⟨s1, hnext, hrest⟩ := Option.bind_eq_some_iff.mp h
    exact .cons trivial hnext (ih hrest)

end Run
