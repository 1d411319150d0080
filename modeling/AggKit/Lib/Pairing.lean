import Mathlib.Data.Multiset.Basic

/-!
# Pairing the entries of two lists

`Paired r as bs` says that every entry of `as` can be given an entry of `bs` that it is related to,
different entries for different ones. `unpaired` tries to do so greedily: each entry takes the first
related one that is still free, and the first entry that finds none is the answer.

What the greedy search finds is a pairing (`paired_of_unpaired`). The converse needs a condition on
the order of the lists. It is stated as an exchange: when an earlier entry could have taken either of
two partners and a later entry the first of them, the later entry can take the second as well. Then
a pairing of the whole leads to one in which the first entry has its first partner
(`Paired.exchange`), and the greedy search never fails (`unpaired_of_paired`).
-/

namespace AggKit.Pairing

open List

variable {α β : Type*} (r : α → β → Prop)

/-- Every entry of `as` has an entry of `bs` of its own that it is related to. -/
def Paired (as : List α) (bs : List β) : Prop :=
  ∃ us, us.Subperm bs ∧ List.Forall₂ r as us

variable [∀ a b, Decidable (r a b)]

/-- What is left of `bs` when the first entry related to `a` is taken. -/
def take (a : α) : List β → Option (List β)
  | [] => none
  | b :: bs => if r a b then some bs else (take a bs).map (b :: ·)

/-- The first entry of `as` that finds no partner, each taking the first free one. -/
def unpaired : List α → List β → Option α
  | [], _ => none
  | a :: as, bs =>
    match take r a bs with
    | none => some a
    | some bs => unpaired as bs

variable {r} {a : α} {as : List α} {bs bs' : List β}

/-! ## Taking one partner -/

theorem take_eq_none_iff : take r a bs = none ↔ ∀ b ∈ bs, ¬r a b := by
  induction bs with
  | nil => exact ⟨fun _ b hb => absurd hb not_mem_nil, fun _ => rfl⟩
  | cons b bs ih =>
    unfold take
    split_ifs with h
    · exact ⟨nofun, fun hall => absurd h (hall b mem_cons_self)⟩
    · rw [Option.map_eq_none_iff, ih, forall_mem_cons]
      exact ⟨fun hbs => ⟨h, hbs⟩, fun hbs => hbs.2⟩

/-- The partner that is taken, and what is around it. -/
theorem take_spec (h : take r a bs = some bs') :
    ∃ l b l', bs = l ++ b :: l' ∧ bs' = l ++ l' ∧ r a b ∧ ∀ x ∈ l, ¬r a x := by
  induction bs generalizing bs' with
  | nil => cases h
  | cons b bs ih =>
    unfold take at h
    split_ifs at h with hb
    · cases h
      exact ⟨[], b, bs, rfl, rfl, hb, fun _ hx => absurd hx not_mem_nil⟩
    · rw [Option.map_eq_some_iff] at h
      obtain ⟨rest, hrest, rfl⟩ := h
      obtain ⟨l, c, l', rfl, rfl, hc, hl⟩ := ih hrest
      exact ⟨b :: l, c, l', rfl, rfl, hc, forall_mem_cons.mpr ⟨hb, hl⟩⟩

/-! ## The search as a whole -/

omit [∀ a b, Decidable (r a b)] in
/-- Fewer entries can be paired with more. -/
theorem Paired.mono {as' : List α} (h : Paired r as bs) (has : as'.Sublist as)
    (hbs : bs.Sublist bs') : Paired r as' bs' := by
  obtain ⟨us, hus, hr⟩ := h
  obtain ⟨us', hsub, hr'⟩ : ∃ us', us'.Sublist us ∧ List.Forall₂ r as' us' := by
    clear hus
    induction has generalizing us with
    | slnil => exact ⟨us, List.Sublist.refl _, hr⟩
    | cons a _ ih =>
      obtain ⟨u, us, -, htail, rfl⟩ := List.forall₂_cons_left_iff.mp hr
      obtain ⟨us', hsub, hr'⟩ := ih us htail
      exact ⟨us', hsub.cons u, hr'⟩
    | cons_cons a _ ih =>
      obtain ⟨u, us, hau, htail, rfl⟩ := List.forall₂_cons_left_iff.mp hr
      obtain ⟨us', hsub, hr'⟩ := ih us htail
      exact ⟨u :: us', hsub.cons_cons u, hr'.cons hau⟩
  exact ⟨us', (hsub.subperm.trans hus).trans hbs.subperm, hr'⟩

omit [∀ a b, Decidable (r a b)] in
/-- Every entry that is paired has a partner. -/
theorem Paired.exists_of_mem (h : Paired r as bs) (ha : a ∈ as) : ∃ b ∈ bs, r a b := by
  obtain ⟨us, hus, hr⟩ := h
  have hpartner : ∃ u ∈ us, r a u := by
    clear hus
    induction hr with
    | nil => cases ha
    | cons hab _ ih =>
      rcases mem_cons.mp ha with rfl | ha
      · exact ⟨_, mem_cons_self, hab⟩
      · obtain ⟨u, hu, hau⟩ := ih ha
        exact ⟨u, mem_cons_of_mem _ hu, hau⟩
  obtain ⟨u, hu, hau⟩ := hpartner
  exact ⟨u, hus.subset hu, hau⟩

/-- What the search finds is a pairing. -/
theorem paired_of_unpaired (h : unpaired r as bs = none) : Paired r as bs := by
  induction as generalizing bs with
  | nil => exact ⟨[], nil_subperm, .nil⟩
  | cons a as ih =>
    unfold unpaired at h
    split at h
    · cases h
    · rename_i rest hrest
      obtain ⟨l, b, l', rfl, rfl, hab, -⟩ := take_spec hrest
      obtain ⟨us, hus, hr⟩ := ih h
      have hcons : (b :: us).Subperm (b :: (l ++ l')) := (subperm_cons b).mpr hus
      exact ⟨b :: us, hcons.trans perm_middle.symm.subperm, hr.cons hab⟩

/-- The search fails at an entry because of the entries up to it alone. -/
theorem unpaired_eq_some (h : unpaired r as bs = some a) :
    ∃ pre post, as = pre ++ a :: post ∧ unpaired r (pre ++ [a]) bs = some a := by
  induction as generalizing bs with
  | nil => cases h
  | cons c as ih =>
    unfold unpaired at h
    split at h
    · rename_i hnone
      cases h
      refine ⟨[], as, rfl, ?_⟩
      simp only [nil_append, unpaired, hnone]
    · rename_i rest hrest
      obtain ⟨pre, post, rfl, hpre⟩ := ih h
      refine ⟨c :: pre, post, rfl, ?_⟩
      simp only [cons_append, unpaired, hrest]
      exact hpre

/-! ## Where the search is complete -/

/-- What makes the first free partner the right one: an earlier entry that could take either of two
partners leaves the second to a later entry that could take the first. -/
def Exchangeable (r : α → β → Prop) (as : List α) (bs : List β) : Prop :=
  as.Pairwise fun a a' => bs.Pairwise fun b b' => r a b → r a b' → r a' b → r a' b'

omit [∀ a b, Decidable (r a b)] in
/-- A pairing can be rearranged such that the first entry has its first partner. -/
theorem Paired.exchange {l l' : List β} {b : β} (hex : Exchangeable r (a :: as) (l ++ b :: l'))
    (hab : r a b) (hl : ∀ x ∈ l, ¬r a x) (h : Paired r (a :: as) (l ++ b :: l')) :
    Paired r as (l ++ l') := by
  classical
  obtain ⟨us, hus, hpaired⟩ := h
  obtain ⟨u, us, hau, hr, rfl⟩ := List.forall₂_cons_left_iff.mp hpaired
  have hsub : (u :: us).Subperm (b :: (l ++ l')) := hus.trans perm_middle.subperm
  by_cases hb : b ∈ us
  · -- A later entry has `b`: it takes `u` instead.
    obtain ⟨x, y, rfl⟩ := append_of_mem hb
    have hr1 : List.Forall₂ r (as.take x.length) x := List.forall₂_take_append _ _ _ hr
    have hr2 : List.Forall₂ r (as.drop x.length) (b :: y) := List.forall₂_drop_append _ _ _ hr
    obtain ⟨a', as2, hab', hr2, hdrop⟩ := List.forall₂_cons_right_iff.mp hr2
    have has : as = as.take x.length ++ a' :: as2 := by rw [← hdrop, take_append_drop]
    have ha' : a' ∈ as := has ▸ mem_append_right _ mem_cons_self
    have hswap : (u :: (x ++ b :: y)).Perm (b :: (x ++ u :: y)) :=
      ((perm_middle.cons u).trans (.swap b u _)).trans (perm_middle.symm.cons b)
    have hcut : (x ++ u :: y).Subperm (l ++ l') :=
      (subperm_cons b).mp (hswap.symm.subperm.trans hsub)
    have hmem : u ∈ l ++ b :: l' := hus.subset mem_cons_self
    have hau' : r a' u := by
      rcases mem_append.mp hmem with hu | hu
      · exact absurd hau (hl u hu)
      rcases mem_cons.mp hu with rfl | hu
      · exact hab'
      have hpair := rel_of_pairwise_cons hex ha'
      have hbl : (b :: l').Pairwise fun b b' => r a b → r a b' → r a' b → r a' b' :=
        hpair.sublist (sublist_append_right _ _)
      exact rel_of_pairwise_cons hbl hu hab hau hab'
    exact ⟨x ++ u :: y, hcut, has ▸ rel_append hr1 (hr2.cons hau')⟩
  · -- Nobody later has `b`: the others keep what they have.
    by_cases hub : u = b
    · exact ⟨us, (subperm_cons b).mp (hub ▸ hsub), hr⟩
    · have hnot : b ∉ (u :: us : List β) := fun hmem => by
        rcases mem_cons.mp hmem with rfl | hmem
        · exact hub rfl
        · exact hb hmem
      have hle : (↑(u :: us) : Multiset β) ≤ b ::ₘ (↑(l ++ l') : Multiset β) := hsub
      have hall : (u :: us).Subperm (l ++ l') := (Multiset.le_cons_of_notMem hnot).mp hle
      exact ⟨us, (sublist_cons_self u us).subperm.trans hall, hr⟩

/-- The search fails only where there is no pairing. -/
theorem unpaired_of_paired (hex : Exchangeable r as bs) (h : Paired r as bs) :
    unpaired r as bs = none := by
  induction as generalizing bs with
  | nil => rfl
  | cons a as ih =>
    unfold unpaired
    split
    · rename_i hnone
      obtain ⟨us, hus, hr⟩ := h
      obtain ⟨u, us, hau, -, rfl⟩ := List.forall₂_cons_left_iff.mp hr
      exact absurd hau (take_eq_none_iff.mp hnone u (hus.subset mem_cons_self))
    · rename_i rest hrest
      obtain ⟨l, b, l', rfl, rfl, hab, hl⟩ := take_spec hrest
      have hsub : (l ++ l').Sublist (l ++ b :: l') :=
        (List.Sublist.refl l).append (sublist_cons_self b l')
      have hex' : Exchangeable r as (l ++ l') :=
        (pairwise_cons.mp hex).2.imp fun hpair => hpair.sublist hsub
      exact ih hex' (h.exchange hex hab hl)

end AggKit.Pairing
