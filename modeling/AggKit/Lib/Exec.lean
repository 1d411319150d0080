import Mathlib.Data.List.Forall2

/-!
# Programs that keep their state when they fail

`EStateM ε σ` is the monad of a program that works on a state and returns a result or an error, the
state being what the program had made of it either way. A successful run of a sequence is a
successful run of each of its parts: the lemmas here take a run apart that way, one for each way of
putting a program together. `Except ε` is the monad of a program whose state a failure discards.
-/

namespace Exec

variable {ε σ α β : Type} {a : α} {s s' : σ}

@[simp]
theorem pure_eq_ok_iff {a' : α} : (pure a : EStateM ε σ α) s = .ok a' s' ↔ a = a' ∧ s = s' := by
  simp [pure, EStateM.pure]

variable {x : EStateM ε σ α} {f : α → EStateM ε σ β}

@[simp]
theorem bind_eq_ok_iff {b : β} :
    (x >>= f) s = .ok b s' ↔ ∃ a s1, x s = .ok a s1 ∧ f a s1 = .ok b s' := by
  simp only [bind, EStateM.bind]
  cases hx : x s with
  | ok a s1 =>
    constructor
    · exact fun h => ⟨a, s1, rfl, h⟩
    · rintro ⟨a', s1', ⟨⟩, h⟩
      exact h
  | error e s1 => simp

@[simp]
theorem throw_eq_ok_iff {e : ε} : (throw e : EStateM ε σ α) s = .ok a s' ↔ False :=
  iff_of_false nofun id

@[simp]
theorem get_eq_ok_iff {a : σ} : (get : EStateM ε σ σ) s = .ok a s' ↔ s = a ∧ s = s' := by
  change EStateM.Result.ok s s = .ok a s' ↔ _
  simp

@[simp]
theorem set_eq_ok_iff {t : σ} {u : PUnit} : (set t : EStateM ε σ PUnit) s = .ok u s' ↔ t = s' := by
  change EStateM.Result.ok PUnit.unit t = .ok u s' ↔ _
  simp

/-- A sequence whose first program succeeds. -/
theorem bind_of_ok (h : x s = .ok a s') : (x >>= f) s = f a s' := by
  simp only [bind, EStateM.bind, h]

/-- A sequence whose first program fails. -/
theorem bind_of_error {err : ε} (h : x s = .error err s') : (x >>= f) s = .error err s' := by
  simp only [bind, EStateM.bind, h]

/-- The state in which a program ends, whether it fails or not. -/
def stateAfter (x : EStateM ε σ α) (s : σ) : σ :=
  match x s with
  | .ok _ s' => s'
  | .error _ s' => s'

theorem stateAfter_of_ok (h : x s = .ok a s') : stateAfter x s = s' := by
  rw [stateAfter, h]

@[simp]
theorem stateAfter_pure (a : α) (s : σ) : stateAfter (pure a : EStateM ε σ α) s = s := rfl

/-- A sequence ends where the second program ends after the first, if that succeeds. -/
theorem stateAfter_bind_of_ok {x : EStateM ε σ Unit} {f : Unit → EStateM ε σ β}
    (h : ∃ u s', x s = .ok u s') : stateAfter (x >>= f) s = stateAfter (f ()) (stateAfter x s) := by
  obtain ⟨u, s', hx⟩ := h
  simp only [stateAfter, bind, EStateM.bind, hx]

/-- It ends where the first fails otherwise. -/
theorem stateAfter_bind_of_error {x : EStateM ε σ Unit} {f : Unit → EStateM ε σ β}
    (h : ¬∃ u s', x s = .ok u s') : stateAfter (x >>= f) s = stateAfter x s := by
  cases hx : x s with
  | ok u s' => exact absurd ⟨u, s', hx⟩ h
  | error err s' => simp only [stateAfter, bind, EStateM.bind, hx]

variable {ε' : Type}

@[simp]
theorem adaptExcept_eq_ok_iff {f : ε → ε'} : x.adaptExcept f s = .ok a s' ↔ x s = .ok a s' := by
  unfold EStateM.adaptExcept
  cases x s <;> simp

@[simp]
theorem stateAfter_adaptExcept {f : ε → ε'} : stateAfter (x.adaptExcept f) s = stateAfter x s := by
  unfold stateAfter EStateM.adaptExcept
  cases x s <;> rfl

variable {f : α → Except ε β}

@[simp]
theorem except_ok_bind : (Except.ok a >>= f) = f a := rfl

@[simp]
theorem except_pure : (pure a : Except ε α) = .ok a := rfl

/-- A sequence of two programs that return a result or an error. -/
theorem except_bind_ok {x : Except ε α} {b : β} :
    (x >>= f) = .ok b ↔ ∃ a, x = .ok a ∧ f a = .ok b := by
  cases x with
  | ok a =>
    constructor
    · exact fun h => ⟨a, rfl, h⟩
    · rintro ⟨a', ⟨⟩, h⟩
      exact h
  | error e =>
    have hbind : ((Except.error e : Except ε α) >>= f) = .error e := rfl
    simp [hbind]

/-- It fails where the first program fails, or the second after it. -/
theorem except_bind_eq_error_iff {x : Except ε α} {err : ε} :
    (x >>= f) = .error err ↔ x = .error err ∨ ∃ a, x = .ok a ∧ f a = .error err := by
  cases x with
  | ok a =>
    constructor
    · exact fun h => Or.inr ⟨a, rfl, h⟩
    · rintro (herr | ⟨a', ⟨⟩, h⟩)
      · cases herr
      · exact h
  | error e =>
    have hbind : ((Except.error e : Except ε α) >>= f) = .error e := rfl
    simp [hbind]

theorem mapError_eq_ok_iff {f : ε → ε'} {x : Except ε α} {r : α} :
    x.mapError f = .ok r ↔ x = .ok r := by
  cases x <;> simp [Except.mapError]

theorem except_isOk_iff {x : Except ε α} : x.isOk = true ↔ ∃ a, x = .ok a := by
  cases x with
  | ok a => exact ⟨fun _ => ⟨a, rfl⟩, fun _ => rfl⟩
  | error err => exact ⟨nofun, nofun⟩

variable {l : List α} {l' : List β}

/-- A program that is run for every element of a list. -/
theorem mapM_eq_ok_iff : l.mapM f = .ok l' ↔ List.Forall₂ (fun a b => f a = .ok b) l l' := by
  induction l generalizing l' with
  | nil => cases l' <;> simp
  | cons a l ih =>
    rw [List.mapM_cons, except_bind_ok, List.forall₂_cons_left_iff]
    constructor
    · rintro ⟨b, hb, h⟩
      obtain ⟨bs, hbs, h⟩ := except_bind_ok.mp h
      exact ⟨b, bs, hb, ih.mp hbs, (Except.ok.inj h).symm⟩
    · rintro ⟨b, bs, hb, hbs, rfl⟩
      exact ⟨b, hb, except_bind_ok.mpr ⟨bs, ih.mpr hbs, rfl⟩⟩

/-- What is known of the result for each element is known of the results of such a run. -/
theorem map_eq_map_of_mapM {γ : Type} {F : β → γ} {G : α → γ} (h : l.mapM f = .ok l')
    (hfg : ∀ a ∈ l, ∀ b, f a = .ok b → F b = G a) : l'.map F = l.map G := by
  have hforall := mapM_eq_ok_iff.mp h
  clear h
  induction hforall with
  | nil => rfl
  | @cons a b l l' hab _ ih =>
    rw [List.map_cons, List.map_cons, hfg a List.mem_cons_self b hab,
      ih fun c hc => hfg c (List.mem_cons_of_mem a hc)]

theorem eq_map_of_mapM {g : α → β} (h : l.mapM f = .ok l')
    (hg : ∀ a ∈ l, ∀ b, f a = .ok b → b = g a) : l' = l.map g := by
  have hmap : l'.map id = l.map g := map_eq_map_of_mapM h hg
  rwa [List.map_id] at hmap

/-- Each element has a result in such a run. -/
theorem exists_ok_of_mapM (h : l.mapM f = .ok l') (ha : a ∈ l) : ∃ b, f a = .ok b := by
  have hforall := mapM_eq_ok_iff.mp h
  clear h
  induction hforall with
  | nil => cases ha
  | @cons c b l l' hcb _ ih =>
    rcases List.mem_cons.mp ha with rfl | hmem
    · exact ⟨b, hcb⟩
    · exact ih hmem

/-- The results of a program that returns a result or none for every element. -/
theorem option_mapM_eq_some_iff {f : α → Option β} {bs : List β} :
    l.mapM f = some bs ↔ List.Forall₂ (fun a b => f a = some b) l bs := by
  induction l generalizing bs with
  | nil => exact ⟨fun h => Option.some.inj h ▸ .nil, fun h => by cases h; rfl⟩
  | cons a l ih =>
    rw [List.mapM_cons, List.forall₂_cons_left_iff]
    constructor
    · intro h
      obtain ⟨b, hb, h⟩ := Option.bind_eq_some_iff.mp h
      obtain ⟨bs', hbs, h⟩ := Option.bind_eq_some_iff.mp h
      exact ⟨b, bs', hb, ih.mp hbs, (Option.some.inj h).symm⟩
    · rintro ⟨b, bs', hb, hbs, rfl⟩
      exact Option.bind_eq_some_iff.mpr
        ⟨b, hb, Option.bind_eq_some_iff.mpr ⟨bs', ih.mpr hbs, rfl⟩⟩

/-- Every result of such a run is the result for one of the elements. -/
theorem exists_of_mem_mapM {b : β} (h : List.Forall₂ (fun a b => f a = .ok b) l l') (hb : b ∈ l') :
    ∃ a ∈ l, f a = .ok b := by
  induction h with
  | nil => cases hb
  | @cons a b' l l' hab _ ih =>
    rcases List.mem_cons.mp hb with rfl | hb
    · exact ⟨a, .head _, hab⟩
    · obtain ⟨a', ha', hab'⟩ := ih hb
      exact ⟨a', .tail _ ha', hab'⟩

end Exec
