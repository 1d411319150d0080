import AggKit.L1InfoTreeSync.Processor

/-!
# What the events of L1 amount to

`Content` is the purpose of the processor without its tables, trees and transactions: the leaves of
the L1 info tree in the order of their events, the latest non-zero exit root of each rollup, and the
verified batches with the root over these exit roots after each. `Content.apply` says what an event
does to it, and `none` that the event cannot be processed: its global exit root is there already, it
contradicts the leaves, or it leads back to exit roots whose root is there already.
-/

namespace AggKit.L1InfoTreeSync

open Merkle Tree List

variable {H : Type}

/-- The leaves, verified batches and exit roots after some events. -/
structure Content (H : Type) where
  infos : List (L1InfoTreeLeaf H)
  verified : List (VerifyBatches H)
  /-- The latest non-zero exit root of each rollup, by leaf index; zero where there is none. -/
  exitRoots : ℕ → H
  initial : List (L1InfoTreeInitial H)

/-- Before the first event. -/
def Content.empty (K : Keccak H) : Content H := ⟨[], [], fun _ => K.zero, []⟩

/-- One event and the number of its block. -/
abbrev Step (H : Type) := ℕ × EventPart H

/-- The exit roots after a `VerifyBatches`. -/
def Content.exitRootsAfter (c : Content H) (e : VerifyBatches H) : ℕ → H :=
  Function.update c.exitRoots (e.rollupID - 1).toNat e.exitRoot

section apply

variable [DecidableEq H] (K : Keccak H)

/-- The row of a `VerifyBatches` that changes an exit root. -/
def Content.newRow (c : Content H) (blockNum : ℕ) (e : VerifyBatches H) : VerifyBatches H :=
  { e with
    blockNumber := blockNum
    rollupExitRoot := node K.pair (c.exitRootsAfter e) DefaultHeight 0 }

/-- What an event does; `none` when it cannot be processed. -/
def Content.apply (c : Content H) : Step H → Option (Content H)
  | (blockNum, .updateL1InfoTree e) =>
    let info := newL1InfoTreeLeaf K blockNum (UInt32.ofNat c.infos.length) e
    if ∃ l ∈ c.infos, l.globalExitRoot = info.globalExitRoot then none
    else some { c with infos := c.infos ++ [info] }
  | (_, .updateL1InfoTreeV2 e) =>
    if c.infos ≠ [] ∧ root K.pair K.zero DefaultHeight (c.infos.map (·.hash)) =
        e.currentL1InfoRoot ∧ UInt32.ofNat c.infos.length = e.leafCount then some c
    else none
  | (blockNum, .verifyBatches e) =>
    if e.exitRoot = K.zero ∨ c.exitRoots (e.rollupID - 1).toNat = e.exitRoot then some c
    else if ∃ v ∈ c.verified, v.rollupExitRoot = (c.newRow K blockNum e).rollupExitRoot then none
    else some { c with
      verified := c.verified ++ [c.newRow K blockNum e]
      exitRoots := c.exitRootsAfter e }
  | (blockNum, .initL1InfoRootMap e) =>
    if c.initial = [] then
      some { c with initial := [⟨blockNum, e.leafCount, e.currentL1InfoRoot⟩] }
    else none

/-- Events one after the other; `none` when one cannot be processed. -/
def Content.applyAll (c : Content H) : List (Step H) → Option (Content H)
  | [] => some c
  | s :: ss => (c.apply K s).bind fun c' => c'.applyAll ss

/-- The content after the events before the first one that cannot be processed. -/
def Content.reach (c : Content H) : List (Step H) → Content H
  | [] => c
  | s :: ss =>
    match c.apply K s with
    | none => c
    | some c' => c'.reach ss

end apply

/-- The events of a block. -/
def Block.steps (b : Block H) : List (Step H) := b.parts.map fun e => (b.num, e)

/-- The events of some blocks. -/
def steps (blocks : List (Block H)) : List (Step H) := blocks.flatMap Block.steps

@[simp]
theorem steps_append (bs bs' : List (Block H)) : steps (bs ++ bs') = steps bs ++ steps bs' :=
  flatMap_append

@[simp]
theorem steps_cons (b : Block H) (bs : List (Block H)) : steps (b :: bs) = b.steps ++ steps bs :=
  rfl

@[simp]
theorem steps_nil : steps ([] : List (Block H)) = [] := rfl

/-- The leaf of the L1 info tree. -/
def L1InfoTreeLeaf.visible (l : L1InfoTreeLeaf H) : Visible H :=
  ⟨l.hash, l.blockNumber, l.blockPosition⟩

/-- The write to the rollup exit tree. -/
def VerifyBatches.write (v : VerifyBatches H) : Write H :=
  ⟨v.blockNumber, v.blockPosition, ⟨v.rollupID - 1, v.exitRoot⟩⟩

/-- The leaves as the L1 info tree sees them. -/
def Content.visible (c : Content H) : List (Visible H) := c.infos.map L1InfoTreeLeaf.visible

/-- The writes of the verified batches. -/
def Content.writes (c : Content H) : List (Write H) := c.verified.map VerifyBatches.write

section applyAll

variable [DecidableEq H] {K : Keccak H} {c c' : Content H}

namespace Content

theorem applyAll_append (c : Content H) (ss ss' : List (Step H)) :
    c.applyAll K (ss ++ ss') = (c.applyAll K ss).bind fun c' => c'.applyAll K ss' := by
  induction ss generalizing c with
  | nil => rfl
  | cons s ss ih =>
    rw [cons_append, applyAll, applyAll]
    cases c.apply K s with
    | none => rfl
    | some c1 => exact ih c1

theorem applyAll_concat (c : Content H) (ss : List (Step H)) (s : Step H) :
    c.applyAll K (ss ++ [s]) = (c.applyAll K ss).bind fun c' => c'.apply K s := by
  rw [applyAll_append]
  cases c.applyAll K ss with
  | none => rfl
  | some c1 =>
    show ((c1.apply K s).bind fun c' => c'.applyAll K []) = c1.apply K s
    cases c1.apply K s <;> rfl

/-- Where no event fails, the first are reached on the way. -/
theorem reach_append {ss ss' : List (Step H)} (h : c.applyAll K ss = some c') :
    c.reach K (ss ++ ss') = c'.reach K ss' := by
  induction ss generalizing c with
  | nil =>
    cases h
    rfl
  | cons s ss ih =>
    obtain ⟨c1, hs, hss⟩ := Option.bind_eq_some_iff.mp h
    rw [cons_append, reach, hs]
    exact ih hss

/-- Where an event fails, those after it are not reached. -/
theorem reach_append_of_none {ss ss' : List (Step H)} (h : c.applyAll K ss = none) :
    c.reach K (ss ++ ss') = c.reach K ss := by
  induction ss generalizing c with
  | nil => exact nomatch h
  | cons s ss ih =>
    rw [applyAll] at h
    rw [cons_append, reach, reach]
    cases hs : c.apply K s with
    | none => rfl
    | some c1 =>
      rw [hs] at h
      exact ih h

/-- What is reached is the content of the first events. -/
theorem exists_prefix_reach (c : Content H) (ss : List (Step H)) :
    ∃ ss', ss' <+: ss ∧ c.applyAll K ss' = some (c.reach K ss) := by
  induction ss generalizing c with
  | nil => exact ⟨[], prefix_refl [], rfl⟩
  | cons s ss ih =>
    rw [reach]
    cases hs : c.apply K s with
    | none => exact ⟨[], nil_prefix, rfl⟩
    | some c1 =>
      obtain ⟨ss', hpre, hreach⟩ := ih c1
      refine ⟨s :: ss', cons_prefix_cons.mpr ⟨rfl, hpre⟩, ?_⟩
      rw [applyAll, hs]
      exact hreach

/-- What an event that can be processed does. -/
theorem apply_cases {s : Step H} (h : c.apply K s = some c') :
    (∃ e, s.2 = .updateL1InfoTree e ∧
        (∀ l ∈ c.infos, l.globalExitRoot ≠ calculateGER K e.mainnetExitRoot e.rollupExitRoot) ∧
        c' = { c with infos := c.infos ++
          [newL1InfoTreeLeaf K s.1 (UInt32.ofNat c.infos.length) e] }) ∨
      (∃ e, s.2 = .verifyBatches e ∧ e.exitRoot ≠ K.zero ∧
        (∀ v ∈ c.verified, v.rollupExitRoot ≠ (c.newRow K s.1 e).rollupExitRoot) ∧
        c' = { c with
          verified := c.verified ++ [c.newRow K s.1 e]
          exitRoots := c.exitRootsAfter e }) ∨
      (∃ e, s.2 = .initL1InfoRootMap e ∧ c.initial = [] ∧
        c' = { c with initial := [⟨s.1, e.leafCount, e.currentL1InfoRoot⟩] }) ∨
      (c' = c ∧ ∀ e, s.2 ≠ .updateL1InfoTree e) := by
  obtain ⟨blockNum, e | e | e | e⟩ := s
  · left
    simp only [apply] at h
    split_ifs at h with hger
    refine ⟨e, rfl, fun l hl heq => hger ⟨l, hl, heq⟩, (Option.some.inj h).symm⟩
  · right; right; right
    simp only [apply] at h
    split_ifs at h
    exact ⟨(Option.some.inj h).symm, nofun⟩
  · right
    simp only [apply] at h
    split_ifs at h with hsame hroot
    · exact .inr (.inr ⟨(Option.some.inj h).symm, nofun⟩)
    · left
      refine ⟨e, rfl, fun hzero => hsame (.inl hzero), fun v hv heq => hroot ⟨v, hv, heq⟩, ?_⟩
      exact (Option.some.inj h).symm
  · right; right; left
    simp only [apply] at h
    split_ifs at h with hnone
    exact ⟨e, rfl, hnone, (Option.some.inj h).symm⟩

end Content

end applyAll

/-! ## What was added, and by which event -/

/-- The rows of `c'` are those of `c` and rows of the events `ss`. -/
structure Content.Grows (ss : List (Step H)) (c c' : Content H) : Prop where
  infos : ∃ l, c'.infos = c.infos ++ l ∧ ∀ x ∈ l, ∃ e,
    (x.blockNumber, EventPart.updateL1InfoTree e) ∈ ss ∧ e.blockPosition = x.blockPosition
  verified : ∃ l, c'.verified = c.verified ++ l ∧ ∀ x ∈ l, ∃ e,
    (x.blockNumber, EventPart.verifyBatches e) ∈ ss ∧ e.blockPosition = x.blockPosition
  initial : ∃ l, c'.initial = c.initial ++ l ∧ ∀ x ∈ l, ∃ e,
    (x.blockNumber, EventPart.initL1InfoRootMap e) ∈ ss

theorem Content.Grows.refl (c : Content H) : Content.Grows [] c c :=
  ⟨⟨[], by simp⟩, ⟨[], by simp⟩, ⟨[], by simp⟩⟩

/-- Rows added first and rows added later. -/
theorem exists_append_trans {α : Type} {a b c : List α} {P Q R : α → Prop}
    (hab : ∃ l, b = a ++ l ∧ ∀ x ∈ l, P x) (hbc : ∃ l, c = b ++ l ∧ ∀ x ∈ l, Q x)
    (hP : ∀ x, P x → R x) (hQ : ∀ x, Q x → R x) : ∃ l, c = a ++ l ∧ ∀ x ∈ l, R x := by
  obtain ⟨l, rfl, hl⟩ := hab
  obtain ⟨l', rfl, hl'⟩ := hbc
  refine ⟨l ++ l', append_assoc a l l', fun x hx => ?_⟩
  rcases mem_append.mp hx with hx | hx
  · exact hP x (hl x hx)
  · exact hQ x (hl' x hx)

theorem Content.Grows.trans {ss ss' : List (Step H)} {c c1 c' : Content H}
    (h : Content.Grows ss c c1) (h' : Content.Grows ss' c1 c') :
    Content.Grows (ss ++ ss') c c' := by
  have hleft : ∀ {s : Step H}, s ∈ ss → s ∈ ss ++ ss' := fun hs => mem_append_left ss' hs
  have hright : ∀ {s : Step H}, s ∈ ss' → s ∈ ss ++ ss' := fun hs => mem_append_right ss hs
  constructor
  · exact exists_append_trans h.infos h'.infos
      (fun x ⟨e, he, hpos⟩ => ⟨e, hleft he, hpos⟩) fun x ⟨e, he, hpos⟩ => ⟨e, hright he, hpos⟩
  · exact exists_append_trans h.verified h'.verified
      (fun x ⟨e, he, hpos⟩ => ⟨e, hleft he, hpos⟩) fun x ⟨e, he, hpos⟩ => ⟨e, hright he, hpos⟩
  · exact exists_append_trans h.initial h'.initial
      (fun x ⟨e, he⟩ => ⟨e, hleft he⟩) fun x ⟨e, he⟩ => ⟨e, hright he⟩

section grows

variable [DecidableEq H] {K : Keccak H} {c c' : Content H}

namespace Content

theorem Grows.of_apply {s : Step H} (h : c.apply K s = some c') :
    Grows [s] c c' := by
  obtain ⟨blockNum, part⟩ := s
  rcases apply_cases h with
    ⟨e, he, -, rfl⟩ | ⟨e, he, -, -, rfl⟩ | ⟨e, he, hnone, rfl⟩ | ⟨rfl, -⟩
  · obtain rfl : part = _ := he
    exact ⟨⟨_, rfl, by simp [newL1InfoTreeLeaf]⟩, ⟨[], by simp⟩, ⟨[], by simp⟩⟩
  · obtain rfl : part = _ := he
    exact ⟨⟨[], by simp⟩, ⟨_, rfl, by simp [newRow]⟩, ⟨[], by simp⟩⟩
  · obtain rfl : part = _ := he
    exact ⟨⟨[], by simp⟩, ⟨[], by simp⟩, ⟨_, by rw [hnone]; rfl, by simp⟩⟩
  · exact ⟨⟨[], by simp⟩, ⟨[], by simp⟩, ⟨[], by simp⟩⟩

theorem Grows.of_applyAll {ss : List (Step H)} (h : c.applyAll K ss = some c') :
    Grows ss c c' := by
  induction ss generalizing c with
  | nil =>
    obtain rfl := Option.some.inj h
    exact Grows.refl c
  | cons s ss ih =>
    obtain ⟨c1, hs, hss⟩ := Option.bind_eq_some_iff.mp h
    exact (Grows.of_apply hs).trans (ih hss)

end Content

/-- An event that makes a leaf. -/
def Step.isUpdate (s : Step H) : Bool :=
  match s.2 with
  | .updateL1InfoTree _ => true
  | _ => false

/-- There is one leaf for each `UpdateL1InfoTree`. -/
theorem Content.length_infos {ss : List (Step H)} (h : c.applyAll K ss = some c') :
    c'.infos.length = c.infos.length + ss.countP Step.isUpdate := by
  induction ss generalizing c with
  | nil =>
    cases h
    rfl
  | cons s ss ih =>
    obtain ⟨c1, hs, hss⟩ := Option.bind_eq_some_iff.mp h
    rw [ih hss, countP_cons]
    rcases Content.apply_cases hs with
      ⟨e, he, -, rfl⟩ | ⟨e, he, -, -, rfl⟩ | ⟨e, he, -, rfl⟩ | ⟨rfl, hnot⟩
    · simp only [Step.isUpdate, he, length_append, length_singleton, if_true]
      omega
    · simp [Step.isUpdate, he]
    · simp [Step.isUpdate, he]
    · have hother : Step.isUpdate s = false := by
        unfold Step.isUpdate
        split
        · exact absurd ‹_› (hnot _)
        · rfl
      simp [hother]

/-! ## Contents of histories -/

/-- The indices count up, the hashes are those of the leaves, and the rows of the verified batches
have the root over the latest exit roots of all rollups. -/
structure Content.WF (K : Keccak H) (c : Content H) : Prop where
  index_eq : c.infos.map (·.l1InfoTreeIndex) = (List.range c.infos.length).map UInt32.ofNat
  hash_eq : ∀ l ∈ c.infos, l.hash = l.getHash K
  exitRoots_eq : Tree.content K.zero c.writes = c.exitRoots
  roots_eq : c.verified.map (·.rollupExitRoot) =
    (writeRows K.pair K.zero c.writes).map (·.hash)

omit [DecidableEq H] in
theorem Content.WF.empty : (Content.empty K).WF K :=
  ⟨rfl, fun _ h => absurd h not_mem_nil, rfl, rfl⟩

theorem Content.WF.apply (hc : c.WF K) {s : Step H} (h : c.apply K s = some c') : c'.WF K := by
  rcases Content.apply_cases h with
    ⟨e, -, -, rfl⟩ | ⟨e, -, -, -, rfl⟩ | ⟨e, -, -, rfl⟩ | ⟨rfl, -⟩
  · refine ⟨?_, fun l hl => ?_, hc.exitRoots_eq, hc.roots_eq⟩
    · simp only [length_append, length_singleton, range_succ, map_append,
        hc.index_eq]
      rfl
    · rcases mem_append.mp hl with hl | hl
      · exact hc.hash_eq l hl
      · rw [mem_singleton.mp hl]
        rfl
  · have hwrites : (c.verified ++ [c.newRow K s.1 e]).map VerifyBatches.write =
        c.writes ++ [(c.newRow K s.1 e).write] := by
      simp [Content.writes]
    have hcontent : Tree.content K.zero (c.writes ++ [(c.newRow K s.1 e).write]) =
        c.exitRootsAfter e := by
      rw [content_concat, hc.exitRoots_eq]
      rfl
    refine ⟨hc.index_eq, hc.hash_eq, ?_, ?_⟩
    · show Tree.content K.zero ((c.verified ++ [c.newRow K s.1 e]).map VerifyBatches.write) = _
      rw [hwrites, hcontent]
    · show (c.verified ++ [c.newRow K s.1 e]).map (·.rollupExitRoot) =
        (writeRows K.pair K.zero
          ((c.verified ++ [c.newRow K s.1 e]).map VerifyBatches.write)).map (·.hash)
      rw [hwrites, writeRows_concat, map_append, map_append, hc.roots_eq]
      simp only [map_singleton, contentRoot, hcontent]
      rfl
  · exact ⟨hc.index_eq, hc.hash_eq, hc.exitRoots_eq, hc.roots_eq⟩
  · exact hc

theorem Content.WF.applyAll (hc : c.WF K) {ss : List (Step H)} (h : c.applyAll K ss = some c') :
    c'.WF K := by
  induction ss generalizing c with
  | nil =>
    cases h
    exact hc
  | cons s ss ih =>
    obtain ⟨c1, hs, hss⟩ := Option.bind_eq_some_iff.mp h
    exact ih (hc.apply hs) hss

end grows

end AggKit.L1InfoTreeSync
