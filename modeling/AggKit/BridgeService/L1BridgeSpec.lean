import Mathlib.Order.Bounds.Basic
import AggKit.BridgeService.L1Bridge
import AggKit.L1InfoTreeSync.Replay
import AggKit.Lib.Halving
import AggKit.Tree.Inclusion

/-!
# What the search over L1 info leaves finds

The search asks for the first leaf from a block on and compares the deposit count with the root of its
mainnet exit root. It goes wrong in several ways. Of several leaves in one block it only sees the first.
It stops at any leaf whose root has exactly the deposit count, though earlier leaves may have the same
mainnet exit root. It fails at a leaf whose mainnet exit root the L1 bridge syncer does not know. The
fallback gives up the leaves after the last block of that syncer, and at block 0 the upper limit wraps
around.

`l1Search_iff` states the exact condition: the search returns the first leaf that includes the deposit
exactly when it asks the right leaves on its way to it. A proof for such a leaf verifies, whichever leaf
it is.
-/

namespace AggKit.BridgeService

open L1InfoTreeSync Table Loop List

variable {H : Type} [DecidableEq H]

/-- The L1 info leaves in order. -/
def Service.leaves (s : Service H) : List (L1InfoTreeLeaf H) := s.l1InfoTree.leavesInOrder

/-- The mainnet exit root of the leaf includes the deposit, as far as the L1 bridge syncer knows it. -/
def Service.Covers (s : Service H) (depositCount : UInt32) (l : L1InfoTreeLeaf H) : Prop :=
  ∃ root ∈ s.bridgeL1.getRootByHash l.mainnetExitRoot, depositCount ≤ root.index

instance (s : Service H) (depositCount : UInt32) (l : L1InfoTreeLeaf H) :
    Decidable (s.Covers depositCount l) :=
  decidable_of_iff (((s.bridgeL1.getRootByHash l.mainnetExitRoot).any fun root =>
    decide (depositCount ≤ root.index)) = true) (by simp [Service.Covers, Option.any_eq_true])

/-- The first leaf that includes the deposit. -/
def Service.firstCovering (s : Service H) (depositCount : UInt32) : Option (L1InfoTreeLeaf H) :=
  s.leaves.find? fun l => decide (s.Covers depositCount l)

/-- The leaves before a leaf. -/
def Service.leavesBefore (s : Service H) (l : L1InfoTreeLeaf H) : List (L1InfoTreeLeaf H) :=
  s.leaves.takeWhile fun l' => decide (l' ≠ l)

/-- The first block from which on a leaf is the first one: the block after the leaf before it. -/
def Service.firstBlock (s : Service H) (l : L1InfoTreeLeaf H) : ℕ :=
  match (s.leavesBefore l).getLast? with
  | none => l.blockNumber
  | some p => p.blockNumber + 1

variable {s : Service H} {depositCount : UInt32} {pre : List (L1InfoTreeLeaf H)}
  {l t first last : L1InfoTreeLeaf H} {root : Tree.Root H} {w : Window (L1InfoTreeLeaf H)}

theorem firstBlock_of_nil (hnil : s.leavesBefore l = []) :
    s.firstBlock l = l.blockNumber := by
  unfold Service.firstBlock
  rw [hnil]
  rfl

theorem blockNumber_of_firstBlock (hzero : s.firstBlock l = 0) : l.blockNumber = 0 := by
  unfold Service.firstBlock at hzero
  split at hzero
  · exact hzero
  · omega

omit [DecidableEq H] in
theorem pairwise_leaves (s : Service H) :
    s.leaves.Pairwise fun a b => a.blockNumber ≤ b.blockNumber := by
  refine (pairwise_orderBy _ _).imp fun {a b} hab => ?_
  have hlex : a.blockNumber < b.blockNumber ∨
      a.blockNumber = b.blockNumber ∧ a.blockPosition ≤ b.blockPosition :=
    Prod.Lex.toLex_le_toLex.mp hab
  omega

/-! ## One iteration -/

theorem l1SearchBody_exhausted (h : w.upper < w.lower) :
    l1SearchBody s depositCount w = .ok (.done w.best) := if_neg (by omega)

theorem l1SearchBody_notFound (hle : w.lower ≤ w.upper)
    (ht : s.l1InfoTree.getFirstInfoAfterBlock w.target = none) :
    l1SearchBody s depositCount w = .error .notFound := by
  unfold l1SearchBody
  rw [if_pos hle, ht]
  rfl

theorem l1SearchBody_unknown (hle : w.lower ≤ w.upper)
    (ht : s.l1InfoTree.getFirstInfoAfterBlock w.target = some t)
    (hroot : s.bridgeL1.getRootByHash t.mainnetExitRoot = none) :
    l1SearchBody s depositCount w = .error .notFound := by
  unfold l1SearchBody
  rw [if_pos hle, ht]
  simp only [row, Exec.except_ok_bind, hroot]
  rfl

theorem l1SearchBody_known (depositCount : UInt32) (hle : w.lower ≤ w.upper)
    (ht : s.l1InfoTree.getFirstInfoAfterBlock w.target = some t)
    (hroot : s.bridgeL1.getRootByHash t.mainnetExitRoot = some root) :
    l1SearchBody s depositCount w =
      if root.index < depositCount then .ok (.again ⟨w.best, w.target + 1, w.upper⟩)
      else if root.index = depositCount then .ok (.done t)
      else .ok (.again ⟨t, w.lower, blockBefore w.target⟩) := by
  unfold l1SearchBody
  rw [if_pos hle, ht]
  simp only [row, Exec.except_ok_bind, hroot]
  split_ifs <;> rfl

/-- The outcomes of an iteration. -/
theorem l1SearchBody_cases (s : Service H) (depositCount : UInt32) (w : Window (L1InfoTreeLeaf H)) :
    (w.upper < w.lower ∧ l1SearchBody s depositCount w = .ok (.done w.best)) ∨
      l1SearchBody s depositCount w = .error .notFound ∨
      ∃ t root, w.lower ≤ w.upper ∧ s.l1InfoTree.getFirstInfoAfterBlock w.target = some t ∧
        s.bridgeL1.getRootByHash t.mainnetExitRoot = some root ∧
        ((root.index < depositCount ∧
            l1SearchBody s depositCount w = .ok (.again ⟨w.best, w.target + 1, w.upper⟩)) ∨
          (root.index = depositCount ∧ l1SearchBody s depositCount w = .ok (.done t)) ∨
          (depositCount < root.index ∧
            l1SearchBody s depositCount w = .ok (.again ⟨t, w.lower, blockBefore w.target⟩))) := by
  rcases Nat.lt_or_ge w.upper w.lower with hlt | hle
  · exact .inl ⟨hlt, l1SearchBody_exhausted hlt⟩
  cases ht : s.l1InfoTree.getFirstInfoAfterBlock w.target with
  | none => exact .inr (.inl (l1SearchBody_notFound hle ht))
  | some t =>
    cases hroot : s.bridgeL1.getRootByHash t.mainnetExitRoot with
    | none => exact .inr (.inl (l1SearchBody_unknown hle ht hroot))
    | some root =>
      have hbody := l1SearchBody_known depositCount hle ht hroot
      refine .inr (.inr ⟨t, root, hle, rfl, hroot, ?_⟩)
      split_ifs at hbody with hless heq
      · exact .inl ⟨hless, hbody⟩
      · exact .inr (.inl ⟨heq, hbody⟩)
      · exact .inr (.inr ⟨UInt32.lt_of_le_of_ne (UInt32.not_lt.mp hless) (Ne.symm heq), hbody⟩)

omit [DecidableEq H] in
theorem Window.target_mem (hle : w.lower ≤ w.upper) : w.lower ≤ w.target ∧ w.target ≤ w.upper :=
  ⟨Halving.le_mid _ _, Halving.mid_le hle⟩

/-- What holds of the best leaf, and of every leaf that is asked about and includes the deposit, holds of
the leaf that is returned. -/
theorem returns_induction {Q : L1InfoTreeLeaf H → Prop} (P : Window (L1InfoTreeLeaf H) → Prop)
    (hbest : ∀ {w}, P w → Q w.best)
    (hup : ∀ {w}, P w → w.lower ≤ w.upper → P ⟨w.best, w.target + 1, w.upper⟩)
    (hasked : ∀ {w t}, P w → w.lower ≤ w.upper →
      s.l1InfoTree.getFirstInfoAfterBlock w.target = some t → s.Covers depositCount t →
      Q t ∧ P ⟨t, w.lower, blockBefore w.target⟩)
    (hw : P w) (h : Returns (l1SearchBody s depositCount) w t) : Q t := by
  obtain ⟨n, hn⟩ := h
  refine (run_spec P (E := fun _ => True) ?_ ?_ (fun _ _ => trivial) hw hn).1 t rfl
  · intro w w' hP hbody
    rcases l1SearchBody_cases s depositCount w with ⟨-, h⟩ | h |
      ⟨t, root, hle, ht, hroot, ⟨-, h⟩ | ⟨-, h⟩ | ⟨hmore, h⟩⟩ <;> cases h.symm.trans hbody
    · exact hup hP hle
    · exact (hasked hP hle ht ⟨root, hroot, UInt32.le_of_lt hmore⟩).2
  · intro w b hP hbody
    rcases l1SearchBody_cases s depositCount w with ⟨-, h⟩ | h |
      ⟨t, root, hle, ht, hroot, ⟨-, h⟩ | ⟨heq, h⟩ | ⟨-, h⟩⟩ <;> cases h.symm.trans hbody
    · exact hbest hP
    · exact (hasked hP hle ht ⟨root, hroot, UInt32.le_of_eq heq.symm⟩).1

theorem blockBefore_of_pos {m : ℕ} (hpos : 0 < m) (hm : m < 2^64) : blockBefore m = m - 1 := by
  unfold blockBefore
  omega

/-! ## The leaf to find -/

/-- `l` is the first leaf that includes the deposit; `pre` are the leaves before it. -/
structure Service.FirstAt (s : Service H) (depositCount : UInt32) (pre : List (L1InfoTreeLeaf H))
    (l : L1InfoTreeLeaf H) (root : Tree.Root H) : Prop where
  leaves_eq : ∃ post, s.leaves = pre ++ l :: post
  nodup : s.leaves.Nodup
  root_eq : s.bridgeL1.getRootByHash l.mainnetExitRoot = some root
  le : depositCount ≤ root.index
  before : ∀ p ∈ pre, ¬ s.Covers depositCount p

section firstAt

variable (h : s.FirstAt depositCount pre l root) {m : ℕ}
include h

theorem Service.FirstAt.mem : l ∈ s.leaves := by
  obtain ⟨post, heq⟩ := h.leaves_eq
  simp [heq]

theorem Service.FirstAt.notMem_pre : l ∉ pre := by
  obtain ⟨post, heq⟩ := h.leaves_eq
  have hnodup := h.nodup
  rw [heq] at hnodup
  exact fun hl => (nodup_append.mp hnodup).2.2 l hl l mem_cons_self rfl

theorem Service.FirstAt.leavesBefore_eq : s.leavesBefore l = pre := by
  obtain ⟨post, heq⟩ := h.leaves_eq
  have hne : ∀ p ∈ pre, decide (p ≠ l) = true := fun p hp =>
    decide_eq_true fun hpl => h.notMem_pre (hpl ▸ hp)
  unfold Service.leavesBefore
  rw [heq, takeWhile_append_of_pos hne]
  simp

/-- From the block after the leaf before it on, the leaf is the first one. -/
theorem Service.FirstAt.hit (hfrom : s.firstBlock l ≤ m) (hm : m ≤ l.blockNumber) :
    s.l1InfoTree.getFirstInfoAfterBlock m = some l := by
  obtain ⟨post, heq⟩ := h.leaves_eq
  have hsorted := pairwise_leaves s
  unfold Service.firstBlock at hfrom
  rw [h.leavesBefore_eq] at hfrom
  rw [heq] at hsorted
  have hpre : ∀ p ∈ pre, p.blockNumber < m := by
    intro p hp
    cases hlast : pre.getLast? with
    | none => exact absurd hp (getLast?_eq_none_iff.mp hlast ▸ not_mem_nil)
    | some last =>
      rw [hlast] at hfrom
      have hafter : last.blockNumber < m := hfrom
      rcases rel_of_getLast? (pairwise_append.mp hsorted).1 hlast hp with rfl | hle
      · exact hafter
      · exact hle.trans_lt hafter
  show firstFrom _ s.leaves m = some l
  rw [heq]
  exact firstFrom_append hpre hm

/-- Below that block a leaf before it is. -/
theorem Service.FirstAt.miss_below (hm : m < s.firstBlock l) (hpre : pre ≠ []) :
    ∃ p ∈ pre, s.l1InfoTree.getFirstInfoAfterBlock m = some p := by
  obtain ⟨post, heq⟩ := h.leaves_eq
  unfold Service.firstBlock at hm
  rw [h.leavesBefore_eq] at hm
  obtain ⟨last, hlast⟩ := Option.isSome_iff_exists.mp (getLast?_isSome.mpr hpre)
  rw [hlast] at hm
  show ∃ p ∈ pre, firstFrom _ s.leaves m = some p
  rw [heq]
  exact firstFrom_mem_of_append (mem_of_getLast? hlast) (Nat.lt_succ_iff.mp hm)

omit h [DecidableEq H] in
/-- Above its block it is another one. -/
theorem ne_of_getFirstInfoAfterBlock (hm : l.blockNumber < m)
    (ht : s.l1InfoTree.getFirstInfoAfterBlock m = some t) : t ≠ l := by
  rintro rfl
  have := le_of_firstFrom ht
  omega

end firstAt

/-! ## The way to it -/

/-- The first leaf from a block on tells the search on which side it is. -/
def Service.Tells (s : Service H) (depositCount : UInt32) (l : L1InfoTreeLeaf H) (m : ℕ) : Prop :=
  ∃ t root, s.l1InfoTree.getFirstInfoAfterBlock m = some t ∧
    s.bridgeL1.getRootByHash t.mainnetExitRoot = some root ∧
    (m < s.firstBlock l → root.index < depositCount) ∧
    (s.firstBlock l ≤ m → depositCount < root.index)

theorem tells_iff {m : ℕ} (ht : s.l1InfoTree.getFirstInfoAfterBlock m = some t) :
    s.Tells depositCount l m ↔ ∃ root, s.bridgeL1.getRootByHash t.mainnetExitRoot = some root ∧
      (m < s.firstBlock l → root.index < depositCount) ∧
      (s.firstBlock l ≤ m → depositCount < root.index) := by
  simp [Service.Tells, ht]

/-- The block at which the search stops on its way down: after the leaf if its root has exactly the
deposit count, and nowhere otherwise. -/
def Service.stopBlock (s : Service H) (depositCount : UInt32) (l : L1InfoTreeLeaf H)
    (root : Tree.Root H) : ℕ :=
  if root.index = depositCount then l.blockNumber + 1 else s.firstBlock l

/-- The blocks that the search asks about on its way to the leaf. -/
def Service.Asks (s : Service H) (depositCount : UInt32) (l : L1InfoTreeLeaf H) (root : Tree.Root H)
    (lower upper m : ℕ) : Prop :=
  Halving.Asks (s.firstBlock l) (s.stopBlock depositCount l root) lower upper m

/-- The search can still return the leaf: it is in the interval, or it is the best one already. -/
structure Service.Toward (s : Service H) (depositCount : UInt32) (pre : List (L1InfoTreeLeaf H))
    (l : L1InfoTreeLeaf H) (root : Tree.Root H) (last : L1InfoTreeLeaf H)
    (w : Window (L1InfoTreeLeaf H)) : Prop where
  lower_le : w.lower ≤ s.firstBlock l
  le_lower : pre = [] → l.blockNumber ≤ w.lower
  upper_le : w.upper ≤ last.blockNumber
  best : (l.blockNumber ≤ w.upper ∧ (w.best = l ↔ l = last)) ∨
    (depositCount < root.index ∧ w.best = l ∧ w.upper < l.blockNumber ∧
      s.firstBlock l ≤ w.upper + 1)

/-- Once the leaf is below the interval and not the best one, the search does not return it. -/
theorem not_returns_of_below (hbest : w.best ≠ l) (hlower : l.blockNumber < w.lower) :
    ¬ Returns (l1SearchBody s depositCount) w l := by
  intro hreturns
  refine returns_induction (Q := fun t => t ≠ l) (fun w => w.best ≠ l ∧ l.blockNumber < w.lower)
    And.left ?_ ?_ ⟨hbest, hlower⟩ hreturns rfl
  · rintro w ⟨hbest, hlower⟩ hle
    have hmid := Window.target_mem hle
    exact ⟨hbest, by simp only; omega⟩
  · rintro w t ⟨-, hlower⟩ hle ht -
    have hmid := Window.target_mem hle
    have hne : t ≠ l := ne_of_getFirstInfoAfterBlock (by omega) ht
    exact ⟨hne, hne, hlower⟩

section toward

variable (hat : s.FirstAt depositCount pre l root) (h : s.Toward depositCount pre l root last w)
include hat h

/-- A block below the leaf: the search goes up, or fails at an unknown root. -/
theorem Service.Toward.below (hle : w.lower ≤ w.upper) (hlt : w.target < s.firstBlock l) :
    (s.Tells depositCount l w.target ∧
        l1SearchBody s depositCount w = .ok (.again ⟨w.best, w.target + 1, w.upper⟩) ∧
        s.Toward depositCount pre l root last ⟨w.best, w.target + 1, w.upper⟩) ∨
      (¬ s.Tells depositCount l w.target ∧
        l1SearchBody s depositCount w = .error .notFound) := by
  have hmid := Window.target_mem hle
  have hpre : pre ≠ [] := by
    intro hnil
    have hle' := h.le_lower hnil
    have hfrom := firstBlock_of_nil (hat.leavesBefore_eq.trans hnil)
    omega
  obtain ⟨p, hp, ht⟩ := hat.miss_below hlt hpre
  cases hroot : s.bridgeL1.getRootByHash p.mainnetExitRoot with
  | none =>
    exact .inr ⟨by simp [tells_iff ht, hroot], l1SearchBody_unknown hle ht hroot⟩
  | some r =>
    -- a leaf before the first one that includes the deposit does not include it
    have hless : r.index < depositCount := by
      by_contra hnot
      exact hat.before p hp ⟨r, hroot, UInt32.not_lt.mp hnot⟩
    refine .inl ⟨⟨p, r, ht, hroot, fun _ => hless, fun hge => absurd hlt (by omega)⟩, ?_, ?_⟩
    · rw [l1SearchBody_known depositCount hle ht hroot, if_pos hless]
    · exact ⟨hlt, fun hnil => absurd hnil hpre, h.upper_le, h.best⟩

omit hat in
/-- A block above the leaf: the search goes down, or it does not return the leaf. -/
theorem Service.Toward.above (hlast : last ∈ s.leaves) (hbound : last.blockNumber < 2^64)
    (hle : w.lower ≤ w.upper) (hgt : l.blockNumber < w.target) (hfrom : s.firstBlock l ≤ w.target) :
    (s.Tells depositCount l w.target ∧ ∃ t,
        l1SearchBody s depositCount w = .ok (.again ⟨t, w.lower, w.target - 1⟩) ∧
        s.Toward depositCount pre l root last ⟨t, w.lower, w.target - 1⟩) ∨
      (¬ s.Tells depositCount l w.target ∧
        ¬ Returns (l1SearchBody s depositCount) w l) := by
  have hmid := Window.target_mem hle
  have hupper := h.upper_le
  -- the leaf is neither the last one nor the best one
  have hbest : w.best ≠ l ∧ l ≠ last := by
    rcases h.best with ⟨-, hiff⟩ | ⟨-, -, hlt, -⟩
    · have hne : l ≠ last := by
        rintro rfl
        omega
      exact ⟨fun hb => hne (hiff.mp hb), hne⟩
    · omega
  obtain ⟨t, ht⟩ : ∃ t, s.l1InfoTree.getFirstInfoAfterBlock w.target = some t :=
    exists_firstFrom hlast (by omega)
  have htl := ne_of_getFirstInfoAfterBlock hgt ht
  cases hroot : s.bridgeL1.getRootByHash t.mainnetExitRoot with
  | none =>
    exact .inr ⟨by simp [tells_iff ht, hroot],
      not_returns_of_error (l1SearchBody_unknown hle ht hroot)⟩
  | some r =>
    have hbody := l1SearchBody_known depositCount hle ht hroot
    have htells : s.Tells depositCount l w.target ↔ depositCount < r.index := by
      simp [tells_iff ht, hroot, hfrom, Nat.not_lt.mpr hfrom]
    split_ifs at hbody with hless heq
    · refine .inr ⟨htells.not.mpr (UInt32.lt_asymm hless), ?_⟩
      rw [returns_of_again hbody]
      exact not_returns_of_below hbest.1 (by simp only; omega)
    · refine .inr ⟨htells.not.mpr (heq ▸ UInt32.lt_irrefl _), ?_⟩
      rw [returns_of_done hbody]
      exact htl
    · have hmore := UInt32.lt_of_le_of_ne (UInt32.not_lt.mp hless) (Ne.symm heq)
      rw [blockBefore_of_pos (by omega) (by omega)] at hbody
      refine .inl ⟨htells.mpr hmore, t, hbody, h.lower_le, h.le_lower, by simp only; omega,
        .inl ⟨by simp only; omega, ?_⟩⟩
      exact ⟨fun heq => absurd heq htl, fun heq => absurd heq hbest.2⟩

/-- The search returns the leaf exactly when the leaves it asks about on its way tell it the side. -/
theorem Service.Toward.returns_iff (hlast : last ∈ s.leaves) (hbound : last.blockNumber < 2^64)
    (hseen : s.firstBlock l ≤ l.blockNumber ∨ l = last)
    (hwrap : depositCount < root.index → 0 < s.firstBlock l) :
    Returns (l1SearchBody s depositCount) w l ↔
      ∀ m, s.Asks depositCount l root w.lower w.upper m → s.Tells depositCount l m := by
  induction hn : w.upper + 1 - w.lower using Nat.strong_induction_on generalizing w with
  | _ n ih =>
  by_cases hle : w.lower ≤ w.upper
  swap
  · -- no block is left, and the leaf is the best one
    have hlower := h.lower_le
    have hbest : w.best = l := by
      rcases h.best with ⟨hupper, hiff⟩ | ⟨-, hbest, -⟩
      · exact hiff.mpr (hseen.resolve_left (by omega))
      · exact hbest
    rw [returns_of_done (l1SearchBody_exhausted (by omega)), iff_true_left hbest]
    exact fun m hm => absurd hm (Halving.not_asks_of_lt (by omega) m)
  have hmid := Window.target_mem hle
  rcases Nat.lt_or_ge w.target (s.firstBlock l) with hlt | hge
  · have hasks := Halving.forall_asks_up (P := s.Tells depositCount l)
      (e := s.stopBlock depositCount l root) hle hlt
    rcases h.below hat hle hlt with ⟨htells, hbody, hnext⟩ | ⟨htells, hbody⟩
    · have hrest := ih _ (by simp only; omega) hnext rfl
      rw [returns_of_again hbody, hrest]
      exact (hasks.trans (and_iff_right htells)).symm
    · have hnot := not_returns_of_error (a := l) hbody
      exact iff_of_false hnot fun hall => htells (hasks.mp hall).1
  rcases Nat.lt_or_ge l.blockNumber w.target with hgt | hhit
  · have hstop : s.stopBlock depositCount l root ≤ w.target := by
      unfold Service.stopBlock
      split_ifs <;> omega
    have hasks := Halving.forall_asks_down (P := s.Tells depositCount l) hle hge hstop
    rcases h.above hlast hbound hle hgt hge with ⟨htells, t, hbody, hnext⟩ | ⟨htells, hnot⟩
    · have hrest := ih _ (by simp only; omega) hnext rfl
      rw [returns_of_again hbody, hrest]
      exact (hasks.trans (and_iff_right htells)).symm
    · exact iff_of_false hnot fun hall => htells (hasks.mp hall).1
  · -- the search meets the leaf
    have ht := hat.hit hge hhit
    have hbody := l1SearchBody_known depositCount hle ht hat.root_eq
    rw [if_neg (UInt32.not_lt.mpr hat.le)] at hbody
    by_cases heq : root.index = depositCount
    · rw [if_pos heq] at hbody
      have hstop : w.target < s.stopBlock depositCount l root := by
        unfold Service.stopBlock
        rw [if_pos heq]
        omega
      rw [returns_of_done hbody, iff_true_left rfl]
      exact fun m hm => absurd hm (Halving.not_asks_of_mem hge hstop m)
    · have hmore : depositCount < root.index := UInt32.lt_of_le_of_ne hat.le (Ne.symm heq)
      have hpos := hwrap hmore
      have hupper := h.upper_le
      rw [if_neg heq, blockBefore_of_pos (by omega) (by omega)] at hbody
      have hstop : s.stopBlock depositCount l root ≤ w.target := by
        unfold Service.stopBlock
        rw [if_neg heq]
        exact hge
      have htells : s.Tells depositCount l w.target :=
        ⟨l, root, ht, hat.root_eq, fun hlt => absurd hge (by omega), fun _ => hmore⟩
      have hnext : s.Toward depositCount pre l root last ⟨l, w.lower, w.target - 1⟩ :=
        ⟨h.lower_le, h.le_lower, by simp only; omega,
          .inr ⟨hmore, rfl, by simp only; omega, by simp only; omega⟩⟩
      have hasks := Halving.forall_asks_down (P := s.Tells depositCount l) hle hge hstop
      have hrest := ih _ (by simp only; omega) hnext rfl
      rw [returns_of_again hbody, hrest]
      exact (hasks.trans (and_iff_right htells)).symm

end toward

/-! ## When the search cannot find it -/

section lost

variable (hat : s.FirstAt depositCount pre l root)
include hat

/-- A leaf that is not the first of its block is never asked about. -/
theorem Service.FirstAt.not_returns_of_hidden (hhidden : l.blockNumber < s.firstBlock l)
    (hbest : w.best ≠ l) : ¬ Returns (l1SearchBody s depositCount) w l := by
  have hpre : pre ≠ [] := by
    intro hnil
    have hfrom := firstBlock_of_nil (hat.leavesBefore_eq.trans hnil)
    omega
  have hne : ∀ {m t}, s.l1InfoTree.getFirstInfoAfterBlock m = some t → t ≠ l := by
    intro m t ht
    rcases Nat.lt_or_ge l.blockNumber m with hgt | hle
    · exact ne_of_getFirstInfoAfterBlock hgt ht
    · obtain ⟨p, hp, hfirst⟩ := hat.miss_below (show m < s.firstBlock l by omega) hpre
      obtain rfl : p = t := Option.some.inj (hfirst.symm.trans ht)
      exact fun hpl => hat.notMem_pre (hpl ▸ hp)
  exact fun hreturns => returns_induction (Q := fun t => t ≠ l) (fun w => w.best ≠ l) id
    (fun h _ => h) (fun _ _ ht _ => ⟨hne ht, hne ht⟩) hbest hreturns rfl

/-- A leaf that includes the deposit is not before the first one. -/
theorem Service.FirstAt.le_of_covers (ht : t ∈ s.leaves)
    (hcovers : s.Covers depositCount t) : l.blockNumber ≤ t.blockNumber := by
  obtain ⟨post, heq⟩ := hat.leaves_eq
  have hsorted := pairwise_leaves s
  rw [heq] at ht hsorted
  rcases mem_append.mp ht with ht | ht
  · exact absurd hcovers (hat.before t ht)
  · rcases mem_cons.mp ht with rfl | ht
    · exact le_rfl
    · exact (pairwise_cons.mp (pairwise_append.mp hsorted).2.1).1 t ht

/-- A leaf after the last one of the search is not reached. -/
theorem Service.FirstAt.not_returns_of_beyond (hlast : last ∈ s.leaves)
    (hbeyond : last.blockNumber < l.blockNumber) (hbest : w.best ≠ l)
    (hupper : w.upper ≤ last.blockNumber) : ¬ Returns (l1SearchBody s depositCount) w l := by
  intro hreturns
  refine returns_induction (Q := fun t => t ≠ l)
    (fun w => w.best ≠ l ∧ w.upper ≤ last.blockNumber) And.left (fun h _ => h) ?_ ⟨hbest, hupper⟩
    hreturns rfl
  -- no leaf up to the last one includes the deposit
  rintro w t ⟨-, hupper⟩ hle ht hcovers
  have hmid := Window.target_mem hle
  have hbefore := num_le_of_firstFrom (pairwise_leaves s) ht hlast (by omega)
  have hafter := hat.le_of_covers (mem_of_firstFrom ht) hcovers
  omega

/-- At block 0 the upper limit wraps around, and the search does not come to an end with the leaf. -/
theorem Service.FirstAt.not_returns_of_wrap (hmore : depositCount < root.index)
    (hzero : s.firstBlock l = 0) (hbound : ∀ t ∈ s.leaves, t.blockNumber < 2^63)
    (hstart : w.best = l → w.lower = 0 ∧ w.upper = 0) :
    ¬ Returns (l1SearchBody s depositCount) w l := by
  have hblock := blockNumber_of_firstBlock hzero
  have hindex : ∀ {r}, s.bridgeL1.getRootByHash l.mainnetExitRoot = some r → r = root :=
    fun hr => Option.some.inj (hr.symm.trans hat.root_eq)
  refine not_returns (fun w => w.best = l → (w.lower = 0 ∧ w.upper = 0) ∨
    (w.upper = 2^64 - 1 ∧ (w.lower = 0 ∨ w.lower = 2^63))) ?_ ?_ fun hbest => .inl (hstart hbest)
  · intro w w' hw hbody hbest
    rcases l1SearchBody_cases s depositCount w with ⟨-, h⟩ | h |
      ⟨t, r, hle, ht, hr, ⟨hless, h⟩ | ⟨-, h⟩ | ⟨-, h⟩⟩ <;> cases h.symm.trans hbody
    · have hmid := Window.target_mem hle
      have hlt := hbound t (mem_of_firstFrom ht)
      have hfrom := le_of_firstFrom ht
      rcases hw hbest with ⟨hlower, hupper⟩ | ⟨hupper, hlower | hlower⟩
      · -- the leaf itself is asked about, and it includes more
        obtain rfl : l = t := Option.some.inj ((hat.hit (by omega) (by omega)).symm.trans ht)
        rw [hindex hr] at hless
        exact absurd (UInt32.lt_trans hless hmore) (UInt32.lt_irrefl _)
      · refine .inr ⟨hupper, .inr ?_⟩
        simp only [Window.target, hlower, hupper]
        omega
      · -- no block is that high
        omega
    · obtain rfl : t = l := hbest
      have hmid := Window.target_mem hle
      have hfrom := le_of_firstFrom ht
      have htarget : w.target = 0 := by omega
      refine .inr ⟨?_, .inl (show w.lower = 0 by omega)⟩
      simp only [htarget, blockBefore]
      omega
  · rintro w b hw hbody rfl
    rcases l1SearchBody_cases s depositCount w with ⟨hlt, h⟩ | h |
      ⟨t, r, hle, ht, hr, ⟨-, h⟩ | ⟨heq, h⟩ | ⟨-, h⟩⟩ <;> cases h.symm.trans hbody
    · rcases hw rfl with ⟨hlower, hupper⟩ | ⟨hupper, hlower | hlower⟩ <;> omega
    · rw [hindex hr] at heq
      exact absurd (heq ▸ hmore) (UInt32.lt_irrefl _)

end lost

/-! ## The whole search -/

/-- The last leaf of the search: the last one of all, or, if its mainnet exit root is not known, the last
one up to the block of the last root. -/
def Service.Starts (s : Service H) (depositCount : UInt32) (last : L1InfoTreeLeaf H) : Prop :=
  (s.l1InfoTree.getLastInfo = some last ∧ s.Covers depositCount last) ∨
    ∃ l root, s.l1InfoTree.getLastInfo = some l ∧
      s.bridgeL1.getRootByHash l.mainnetExitRoot = none ∧ s.bridgeL1.getLastRoot = some root ∧
      root.blockNum ≠ 0 ∧ s.l1InfoTree.getLatestL1InfoLeafUntilBlock root.blockNum = .ok last ∧
      depositCount ≤ root.index

/-- The service can tell from its last root that the deposit is not on the L1 info tree. -/
def Service.NotYet (s : Service H) (depositCount : UInt32) : Prop :=
  ∃ l, s.l1InfoTree.getLastInfo = some l ∧
    ((∃ root, s.bridgeL1.getRootByHash l.mainnetExitRoot = some root ∧ root.index < depositCount) ∨
      (s.bridgeL1.getRootByHash l.mainnetExitRoot = none ∧ ∃ root,
        s.bridgeL1.getLastRoot = some root ∧ (root.blockNum = 0 ∨
          (root.index < depositCount ∧
            ∃ last, s.l1InfoTree.getLatestL1InfoLeafUntilBlock root.blockNum = .ok last))))

/-- The ways the search can start. -/
inductive Start (s : Service H) : Except BridgeError (L1InfoTreeLeaf H × Tree.Root H) → Prop
  | empty : s.l1InfoTree.getLastInfo = none → Start s (.error .notFound)
  | known {l : L1InfoTreeLeaf H} {root : Tree.Root H} : s.l1InfoTree.getLastInfo = some l →
      s.bridgeL1.getRootByHash l.mainnetExitRoot = some root → Start s (.ok (l, root))
  | noRoot {l : L1InfoTreeLeaf H} : s.l1InfoTree.getLastInfo = some l →
      s.bridgeL1.getRootByHash l.mainnetExitRoot = none → s.bridgeL1.getLastRoot = none →
      Start s (.error .lastRootL1)
  | noBlock {l : L1InfoTreeLeaf H} {root : Tree.Root H} : s.l1InfoTree.getLastInfo = some l →
      s.bridgeL1.getRootByHash l.mainnetExitRoot = none → s.bridgeL1.getLastRoot = some root →
      root.blockNum = 0 → Start s (.error .noBlockIndexed)
  | noLeaf {l : L1InfoTreeLeaf H} {root : Tree.Root H} {err : LeafError} :
      s.l1InfoTree.getLastInfo = some l → s.bridgeL1.getRootByHash l.mainnetExitRoot = none →
      s.bridgeL1.getLastRoot = some root → root.blockNum ≠ 0 →
      s.l1InfoTree.getLatestL1InfoLeafUntilBlock root.blockNum = .error err →
      Start s (.error (.noLeafUntilBlock root.blockNum err))
  | fallback {l last : L1InfoTreeLeaf H} {root : Tree.Root H} :
      s.l1InfoTree.getLastInfo = some l → s.bridgeL1.getRootByHash l.mainnetExitRoot = none →
      s.bridgeL1.getLastRoot = some root → root.blockNum ≠ 0 →
      s.l1InfoTree.getLatestL1InfoLeafUntilBlock root.blockNum = .ok last →
      Start s (.ok (last, root))

theorem start_lastInfoWithRoot (s : Service H) : Start s (lastInfoWithRoot s) := by
  unfold lastInfoWithRoot
  cases hl : s.l1InfoTree.getLastInfo with
  | none => exact .empty hl
  | some l =>
    simp only [row, Exec.except_ok_bind]
    cases hr : s.bridgeL1.getRootByHash l.mainnetExitRoot with
    | some root => exact .known hl hr
    | none =>
      cases hlast : s.bridgeL1.getLastRoot with
      | none => exact .noRoot hl hr hlast
      | some root =>
        simp only
        split_ifs with hzero
        · exact .noBlock hl hr hlast hzero
        · cases hleaf : s.l1InfoTree.getLatestL1InfoLeafUntilBlock root.blockNum with
          | error err => exact .noLeaf hl hr hlast hzero hleaf
          | ok last => exact .fallback hl hr hlast hzero hleaf

theorem starts_iff :
    s.Starts depositCount last ↔
      ∃ root, lastInfoWithRoot s = .ok (last, root) ∧ depositCount ≤ root.index := by
  have hstart := start_lastInfoWithRoot s
  generalize lastInfoWithRoot s = result at hstart ⊢
  unfold Service.Starts Service.Covers
  cases hstart with
  | empty | known | noRoot | noBlock | noLeaf | fallback => grind

theorem notYet_iff :
    s.NotYet depositCount ↔
      (∃ last root, lastInfoWithRoot s = .ok (last, root) ∧ root.index < depositCount) ∨
        lastInfoWithRoot s = .error .noBlockIndexed := by
  have hstart := start_lastInfoWithRoot s
  generalize lastInfoWithRoot s = result at hstart ⊢
  unfold Service.NotYet
  cases hstart with
  | empty | known | noRoot | noBlock | noLeaf | fallback => grind

/-- No other start fails with `ErrNotOnL1Info`. -/
theorem isNotOnL1Info_of_error {err : BridgeError} (h : lastInfoWithRoot s = .error err)
    (hne : err ≠ .noBlockIndexed) : err.isNotOnL1Info = false := by
  have hstart := start_lastInfoWithRoot s
  rw [h] at hstart
  cases hstart with
  | noBlock => exact absurd rfl hne
  | empty | noRoot | noLeaf => rfl

omit [DecidableEq H] in
theorem mem_of_getLatest {blockNum : ℕ}
    (h : s.l1InfoTree.getLatestL1InfoLeafUntilBlock blockNum = .ok last) : last ∈ s.leaves := by
  unfold Tables.getLatestL1InfoLeafUntilBlock at h
  split_ifs at h
  split at h
  · exact nomatch h
  · rename_i info hinfo
    cases h
    exact (mem_filter.mp (mem_of_getLast? hinfo)).1

theorem Service.Starts.mem (h : s.Starts depositCount last) : last ∈ s.leaves := by
  rcases h with ⟨hlast, -⟩ | ⟨l, root, -, -, -, -, hleaf, -⟩
  · exact mem_of_getLast? hlast
  · exact mem_of_getLatest hleaf

/-- The search returns leaves of the table. -/
theorem mem_of_returns (hbest : w.best ∈ s.leaves)
    (h : Returns (l1SearchBody s depositCount) w t) : t ∈ s.leaves :=
  returns_induction (fun w => w.best ∈ s.leaves) id (fun h _ => h)
    (fun _ _ ht _ => ⟨mem_of_firstFrom ht, mem_of_firstFrom ht⟩) hbest h

/-- A search that started fails with `db.ErrNotFound` only. -/
theorem notFound_of_error {n : ℕ} {err : BridgeError}
    (h : run (l1SearchBody s depositCount) n w = some (.error err)) : err = .notFound := by
  refine (run_spec (fun _ => True) (Q := fun _ => True) (E := fun err => err = .notFound)
    (fun _ _ => trivial) (fun _ _ => trivial) ?_ trivial h).2 err rfl
  intro w err _ hbody
  rcases l1SearchBody_cases s depositCount w with ⟨-, h⟩ | h |
    ⟨t, root, -, -, -, ⟨-, h⟩ | ⟨-, h⟩ | ⟨-, h⟩⟩ <;> cases h.symm.trans hbody
  rfl

/-- The function returns the index of the leaf that the search returns. -/
theorem getFirstL1InfoTreeIndexForL1Bridge_ok_iff {i : UInt32} :
    (∃ n, getFirstL1InfoTreeIndexForL1Bridge n s depositCount = some (.ok i)) ↔
      ∃ first last t, s.l1InfoTree.getFirstInfo = some first ∧ s.Starts depositCount last ∧
        Returns (l1SearchBody s depositCount) ⟨last, first.blockNumber, last.blockNumber⟩ t ∧
        t.l1InfoTreeIndex = i := by
  constructor
  · rintro ⟨n, h⟩
    unfold getFirstL1InfoTreeIndexForL1Bridge at h
    split at h
    · cases h
    rename_i last root hstart
    split_ifs at h with hless
    · cases h
    split at h
    · cases h
    rename_i first hfirst
    obtain ⟨result, hrun, hmap⟩ := Option.map_eq_some_iff.mp h
    cases result with
    | error err => cases hmap
    | ok t =>
      exact ⟨first, last, t, hfirst, starts_iff.mpr ⟨root, hstart, UInt32.not_lt.mp hless⟩,
        ⟨n, hrun⟩, Except.ok.inj hmap⟩
  · rintro ⟨first, last, t, hfirst, hstarts, ⟨n, hrun⟩, rfl⟩
    obtain ⟨root, hstart, hle⟩ := starts_iff.mp hstarts
    refine ⟨n, ?_⟩
    unfold getFirstL1InfoTreeIndexForL1Bridge
    simp only [hstart, if_neg (UInt32.not_lt.mpr hle), hfirst, hrun]
    rfl

/-- The function returns `ErrNotOnL1Info` when the start tells so. -/
theorem getFirstL1InfoTreeIndexForL1Bridge_notOnL1Info_iff :
    (∃ n err, getFirstL1InfoTreeIndexForL1Bridge n s depositCount = some (.error err) ∧
      err.isNotOnL1Info = true) ↔ s.NotYet depositCount := by
  rw [notYet_iff]
  constructor
  · rintro ⟨n, err, h, his⟩
    unfold getFirstL1InfoTreeIndexForL1Bridge at h
    split at h
    · rename_i hstart
      cases h
      by_contra hnot
      have hne : err ≠ .noBlockIndexed := fun heq => hnot (.inr (heq ▸ hstart))
      exact absurd his (by rw [isNotOnL1Info_of_error hstart hne]; decide)
    rename_i last root hstart
    split_ifs at h with hless
    · exact .inl ⟨last, root, hstart, hless⟩
    -- a search that started does not fail that way
    have hfound : err = .notFound := by
      split at h
      · cases h
        rfl
      obtain ⟨result, hrun, hmap⟩ := Option.map_eq_some_iff.mp h
      cases result with
      | ok t => cases hmap
      | error err' =>
        cases hmap
        exact notFound_of_error hrun
    rw [hfound] at his
    cases his
  · rintro (⟨last, root, hstart, hless⟩ | hstart)
    · refine ⟨0, .notOnL1Info, ?_, rfl⟩
      unfold getFirstL1InfoTreeIndexForL1Bridge
      simp only [hstart, if_pos hless]
    · refine ⟨0, .noBlockIndexed, ?_, rfl⟩
      unfold getFirstL1InfoTreeIndexForL1Bridge
      rw [hstart]

/-- The indices of the leaves whose mainnet exit root includes the deposit. -/
def Service.coveringIndices (s : Service H) (depositCount : UInt32) : Set ℕ :=
  { i | ∃ l ∈ s.leaves, s.Covers depositCount l ∧ l.l1InfoTreeIndex.toNat = i }

/-- The function returns the least index whose mainnet exit root includes the deposit, and
`ErrNotOnL1Info` exactly when there is none. -/
def Service.FindsLeast (s : Service H) (depositCount : UInt32) : Prop :=
  (∀ i, (∃ n, getFirstL1InfoTreeIndexForL1Bridge n s depositCount = some (.ok i)) ↔
      IsLeast (s.coveringIndices depositCount) i.toNat) ∧
    ((∃ n err, getFirstL1InfoTreeIndexForL1Bridge n s depositCount = some (.error err) ∧
      err.isNotOnL1Info = true) ↔ s.coveringIndices depositCount = ∅)

/-- What it takes. Without a leaf that includes the deposit, the service has to see that from its last
root. With one, the interval has to reach up to the first such leaf, that leaf has to be the first of its
block or the last one, and each leaf that the search asks about on its way has to have a known root that
tells on which side it is; and the upper limit must not wrap around. -/
def Service.Searchable (s : Service H) (depositCount : UInt32) : Prop :=
  match s.firstCovering depositCount with
  | none => s.NotYet depositCount
  | some l => ∃ first last root, s.l1InfoTree.getFirstInfo = some first ∧
      s.Starts depositCount last ∧ s.bridgeL1.getRootByHash l.mainnetExitRoot = some root ∧
      l.blockNumber ≤ last.blockNumber ∧ (s.firstBlock l ≤ l.blockNumber ∨ l = last) ∧
      (depositCount < root.index → 0 < s.firstBlock l) ∧
      ∀ m, s.Asks depositCount l root first.blockNumber last.blockNumber m →
        s.Tells depositCount l m

section least

variable (hindex : s.leaves.Pairwise fun a b => a.l1InfoTreeIndex.toNat < b.l1InfoTreeIndex.toNat)

theorem coveringIndices_eq_empty (hnone : s.firstCovering depositCount = none) :
    s.coveringIndices depositCount = ∅ := by
  unfold Service.firstCovering at hnone
  rw [find?_eq_none] at hnone
  refine Set.eq_empty_of_forall_notMem ?_
  rintro i ⟨l, hl, hcovers, -⟩
  exact hnone l hl (decide_eq_true hcovers)

include hindex

/-- The first leaf that includes the deposit has the least index. -/
theorem isLeast_of_firstCovering (hl : s.firstCovering depositCount = some l) :
    IsLeast (s.coveringIndices depositCount) l.l1InfoTreeIndex.toNat := by
  refine ⟨⟨l, mem_of_find?_eq_some hl, of_decide_eq_true (find?_some hl :), rfl⟩, ?_⟩
  rintro i ⟨t, ht, htcovers, rfl⟩
  rcases rel_of_find? hindex hl ht (decide_eq_true htcovers) with rfl | hlt
  · exact le_rfl
  · exact hlt.le

theorem findsLeast_iff_of_some (hl : s.firstCovering depositCount = some l) :
    s.FindsLeast depositCount ↔
      ∃ n, getFirstL1InfoTreeIndexForL1Bridge n s depositCount = some (.ok l.l1InfoTreeIndex) := by
  have hleast := isLeast_of_firstCovering hindex hl
  constructor
  · exact fun h => (h.1 l.l1InfoTreeIndex).mpr hleast
  · rintro ⟨n, hn⟩
    refine ⟨fun i => ⟨?_, fun hi => ?_⟩, ?_, fun hempty => ?_⟩
    · rintro ⟨n', hn'⟩
      have heq := getFirstL1InfoTreeIndexForL1Bridge_unique hn' hn
      rw [Except.ok.inj heq]
      exact hleast
    · have heq : i = l.l1InfoTreeIndex := UInt32.toNat_inj.mp (hi.unique hleast)
      exact ⟨n, heq ▸ hn⟩
    · rintro ⟨n', err, hn', -⟩
      exact nomatch getFirstL1InfoTreeIndexForL1Bridge_unique hn' hn
    · exact absurd hleast.1 (by rw [hempty]; exact Set.notMem_empty _)

omit hindex in
theorem findsLeast_iff_of_none (hnone : s.firstCovering depositCount = none) :
    s.FindsLeast depositCount ↔ s.NotYet depositCount := by
  have hempty := coveringIndices_eq_empty hnone
  rw [← getFirstL1InfoTreeIndexForL1Bridge_notOnL1Info_iff]
  constructor
  · exact fun h => h.2.mpr hempty
  · rintro ⟨n, err, hn, his⟩
    refine ⟨fun i => ⟨?_, fun hi => ?_⟩, fun _ => hempty, fun _ => ⟨n, err, hn, his⟩⟩
    · rintro ⟨n', hn'⟩
      exact nomatch getFirstL1InfoTreeIndexForL1Bridge_unique hn' hn
    · exact absurd hi.1 (by rw [hempty]; exact Set.notMem_empty _)

omit [DecidableEq H] in
/-- A leaf is known by its index. -/
theorem eq_of_index_eq (hl : l ∈ s.leaves) (ht : t ∈ s.leaves)
    (heq : t.l1InfoTreeIndex = l.l1InfoTreeIndex) : t = l := by
  have hinj : (s.leaves.map (·.l1InfoTreeIndex.toNat)).Nodup :=
    pairwise_map.mpr (hindex.imp Nat.ne_of_lt)
  exact inj_on_of_nodup_map hinj ht hl (congrArg UInt32.toNat heq)

/-- The leaves before the first one that includes the deposit. -/
theorem exists_firstAt (hl : s.firstCovering depositCount = some l) :
    ∃ pre root, s.FirstAt depositCount pre l root := by
  obtain ⟨hcovers, pre, post, heq, hpre⟩ := find?_eq_some_iff_append.mp hl
  obtain ⟨root, hroot, hle⟩ := of_decide_eq_true hcovers
  refine ⟨pre, root, ⟨post, heq⟩, ?_, hroot, hle, fun p hp hp' => ?_⟩
  · exact List.Nodup.of_map _ (pairwise_map.mpr (hindex.imp Nat.ne_of_lt))
  · exact absurd (decide_eq_true hp') (by simpa using hpre p hp)

end least

section whole

variable (hat : s.FirstAt depositCount pre l root)
  (hfirst : s.l1InfoTree.getFirstInfo = some first) (hlast : last ∈ s.leaves)
  (hbound : ∀ t ∈ s.leaves, t.blockNumber < 2^63)
include hat hfirst

/-- The leaf is in the interval that the search starts with. -/
theorem Service.FirstAt.toward (hreach : l.blockNumber ≤ last.blockNumber) :
    s.Toward depositCount pre l root last ⟨last, first.blockNumber, last.blockNumber⟩ := by
  obtain ⟨post, heq⟩ := hat.leaves_eq
  have hfirst' : (pre ++ l :: post).head? = some first := heq ▸ hfirst
  have hsorted := pairwise_leaves s
  refine ⟨?_, ?_, le_rfl, .inl ⟨hreach, eq_comm⟩⟩
  · -- the first leaf is the leaf itself or before it
    unfold Service.firstBlock
    rw [hat.leavesBefore_eq]
    rw [heq] at hsorted
    cases pre with
    | nil =>
      obtain rfl : l = first := Option.some.inj hfirst'
      exact le_rfl
    | cons p pre =>
      obtain rfl : p = first := Option.some.inj hfirst'
      obtain ⟨q, hq⟩ := Option.isSome_iff_exists.mp
        (getLast?_isSome.mpr (cons_ne_nil p pre))
      rw [hq]
      have hle : p.blockNumber ≤ q.blockNumber := by
        rcases mem_cons.mp (mem_of_getLast? hq) with rfl | hmem
        · exact le_rfl
        · exact (pairwise_cons.mp (pairwise_append.mp hsorted).1).1 q hmem
      simp only
      omega
  · rintro rfl
    obtain rfl : l = first := Option.some.inj hfirst'
    exact le_rfl

include hlast hbound

/-- The search returns the leaf exactly when it is not beyond the interval, not hidden in its block, does
not make the upper limit wrap around, and the leaves that are asked about on the way tell the side. -/
theorem Service.FirstAt.returns_iff :
    Returns (l1SearchBody s depositCount) ⟨last, first.blockNumber, last.blockNumber⟩ l ↔
      l.blockNumber ≤ last.blockNumber ∧ (s.firstBlock l ≤ l.blockNumber ∨ l = last) ∧
        (depositCount < root.index → 0 < s.firstBlock l) ∧
        ∀ m, s.Asks depositCount l root first.blockNumber last.blockNumber m →
          s.Tells depositCount l m := by
  have hlt := hbound last hlast
  rcases Nat.lt_or_ge last.blockNumber l.blockNumber with hbeyond | hreach
  · have hne : last ≠ l := by
      rintro rfl
      omega
    have hnot := hat.not_returns_of_beyond
      (w := ⟨last, first.blockNumber, last.blockNumber⟩) hlast hbeyond hne le_rfl
    exact iff_of_false hnot fun h => absurd h.1 (by omega)
  by_cases hseen : s.firstBlock l ≤ l.blockNumber ∨ l = last
  swap
  · obtain ⟨hhidden, hne⟩ := not_or.mp hseen
    have hnot := hat.not_returns_of_hidden
      (w := ⟨last, first.blockNumber, last.blockNumber⟩) (by omega) (Ne.symm hne)
    exact iff_of_false hnot fun h => hseen h.2.1
  by_cases hwrap : depositCount < root.index → 0 < s.firstBlock l
  swap
  · obtain ⟨hmore, hzero⟩ := Classical.not_imp.mp hwrap
    have hlower := (hat.toward hfirst hreach).lower_le
    have hnot := hat.not_returns_of_wrap
      (w := ⟨last, first.blockNumber, last.blockNumber⟩) hmore (by omega) hbound ?_
    · exact iff_of_false hnot fun h => hwrap h.2.2.1
    · -- only the first block of all is its own first block
      intro hbest
      obtain rfl : last = l := hbest
      simp only at hlower ⊢
      have hlast0 := blockNumber_of_firstBlock (show s.firstBlock last = 0 by omega)
      omega
  have htoward := hat.toward hfirst hreach
  have hiff := htoward.returns_iff hat hlast (by omega) hseen hwrap
  exact hiff.trans ⟨fun h => ⟨hreach, hseen, hwrap, h⟩, fun h => h.2.2.2⟩

end whole

section main

variable (hindex : s.leaves.Pairwise fun a b => a.l1InfoTreeIndex.toNat < b.l1InfoTreeIndex.toNat)
  (hbound : ∀ t ∈ s.leaves, t.blockNumber < 2^63)

include hindex hbound

theorem findsLeast_iff_searchable : s.FindsLeast depositCount ↔ s.Searchable depositCount := by
  unfold Service.Searchable
  cases hl : s.firstCovering depositCount with
  | none => exact findsLeast_iff_of_none hl
  | some l =>
    obtain ⟨pre, root, hat⟩ := exists_firstAt hindex hl
    rw [findsLeast_iff_of_some hindex hl, getFirstL1InfoTreeIndexForL1Bridge_ok_iff]
    constructor
    · rintro ⟨first, last, t, hfirst, hstarts, hreturns, ht⟩
      have hmem := mem_of_returns hstarts.mem hreturns
      obtain rfl : t = l := eq_of_index_eq hindex hat.mem hmem ht
      exact ⟨first, last, root, hfirst, hstarts, hat.root_eq,
        (hat.returns_iff hfirst hstarts.mem hbound).mp hreturns⟩
    · rintro ⟨first, last, root', hfirst, hstarts, hroot, hrest⟩
      obtain rfl : root = root' := Option.some.inj (hat.root_eq.symm.trans hroot)
      exact ⟨first, last, l, hfirst, hstarts,
        (hat.returns_iff hfirst hstarts.mem hbound).mpr hrest, rfl⟩

end main

/-- The tables of a processor that is in step with its blocks have the leaves in the order of their
indices. -/
theorem pairwise_index_of_consistent {K : Keccak H} {p : Processor H} {kept : List (Block H)}
    {c : Content H} (h : Consistent K p kept c) (hdb : s.l1InfoTree = p.db) :
    s.leaves.Pairwise fun a b => a.l1InfoTreeIndex.toNat < b.l1InfoTreeIndex.toNat := by
  have hordered := h.synced.ordered
  unfold Tree.Ordered Content.visible at hordered
  rw [pairwise_map] at hordered
  have hkeys : p.db.l1InfoLeaf.Pairwise fun a b => a.key ≤ b.key := by
    rw [h.infos]
    refine hordered.imp fun {a b} hab => ?_
    have hlt : a.blockNumber < b.blockNumber ∨
      a.blockNumber = b.blockNumber ∧ a.blockPosition < b.blockPosition := hab
    exact (Prod.Lex.toLex_lt_toLex.mpr hlt).le
  have hleaves : s.leaves = p.db.l1InfoLeaf := by
    unfold Service.leaves Tables.leavesInOrder
    rw [hdb]
    exact orderBy_eq_self hkeys
  have hrange := pairwise_lt_range (n := p.db.l1InfoLeaf.length)
  rw [← h.indices, pairwise_map] at hrange
  rwa [hleaves]

/-- For every content of the L1 info tree and every deposit count, the search returns the least index
whose mainnet exit root includes the deposit, and `ErrNotOnL1Info` exactly when there is none, if and only
if it is searchable for that deposit. The claim proof under each such mainnet exit root verifies for the
leaf of the deposit and for no other one. -/
theorem l1Search_iff {K : Keccak H} (hinj : Function.Injective2 K.pair) {σ : Tree.Tracked H}
    (hrun : Run.Reach (Tree.Tracked.apply K.pair K.zero) (fun _ _ => True)
      (Tree.Tracked.new K.zero) σ)
    {s : Service H} (hbridge : s.bridgeL1 = σ.state.store)
    (hindex : s.leaves.Pairwise fun a b => a.l1InfoTreeIndex.toNat < b.l1InfoTreeIndex.toNat)
    (hbound : ∀ l ∈ s.leaves, l.blockNumber < 2^63) (depositCount : UInt32) :
    (s.FindsLeast depositCount ↔ s.Searchable depositCount) ∧
      ∀ l ∈ s.leaves, s.Covers depositCount l → ∃ r ∈ s.bridgeL1.root,
        r.hash = l.mainnetExitRoot ∧ ∃ exits, Tree.Under K.pair K.zero r exits ∧
          depositCount.toNat < exits.length ∧
          ∀ leaf, Tree.verifyProof K.pair leaf
            (Tree.getProof K.pair K.zero s.bridgeL1 depositCount l.mainnetExitRoot) depositCount
            l.mainnetExitRoot = true ↔ leaf = Merkle.padded K.zero exits depositCount.toNat := by
  refine ⟨findsLeast_iff_searchable hindex hbound, ?_⟩
  rintro l - ⟨r, hr, hle⟩
  have hcomplete := Tree.State.Complete.of_reach K.zero hinj hrun
  have hfind : s.bridgeL1.root.find? (fun r => r.hash = l.mainnetExitRoot) = some r := hr
  have hmem := mem_of_find?_eq_some hfind
  have hhash : r.hash = l.mainnetExitRoot := by simpa using find?_some hfind
  obtain ⟨exits, hexits, hkeep⟩ := hcomplete.store.keeps r (hbridge ▸ hmem)
  have hnode : l.mainnetExitRoot =
      Merkle.node K.pair (Merkle.padded K.zero exits) Tree.DefaultHeight 0 :=
    hhash.symm.trans hexits.hash_eq
  have hcount : depositCount.toNat < exits.length := by
    have hle' := UInt32.le_iff_toNat_le.mp hle
    have hlen := hexits.length_eq
    omega
  refine ⟨r, hmem, hhash, exits, hexits, hcount, fun leaf => ?_⟩
  rw [hnode, hbridge]
  exact Tree.verifyProof_iff K.zero hinj hcomplete.store.hashed hkeep depositCount leaf

/-! ## One deposit -/

/-- The exit tree of L1 with one deposit. -/
def oneDeposit : Tree.Tracked (List UInt8) :=
  (Tree.Tracked.new []).apply freeKeccak.pair [] (.putLeaf 1 0 ⟨0, [7]⟩)

/-- The hash over the deposit. -/
@[irreducible]
def oneDepositHash : List UInt8 := Merkle.root freeKeccak.pair [] Tree.DefaultHeight [[7]]

/-- Its root. -/
def oneDepositRoot : Tree.Root (List UInt8) := ⟨oneDepositHash, 0, 1, 0⟩

/-- The L1 info leaf of that root, in block 1. -/
def oneDepositLeaf : L1InfoTreeLeaf (List UInt8) := ⟨1, 1, 0, [], 0, oneDepositRoot.hash, [], [], []⟩

/-- A service with that leaf. -/
def oneDepositService : Service (List UInt8) :=
  ⟨⟨[(1, [])], [oneDepositLeaf], [], []⟩, oneDeposit.state.store, Tree.Store.empty, 1⟩

theorem root_oneDeposit : oneDepositService.bridgeL1.root = [oneDepositRoot] := by
  have hsynced := ((Tree.Synced.new freeKeccak.pair []).putLeaf_first freeKeccak_injective2_pair 1 0
    ⟨0, [7]⟩ rfl).2
  unfold oneDepositRoot oneDepositHash
  exact hsynced.rows

theorem getRootByHash_oneDeposit :
    oneDepositService.bridgeL1.getRootByHash oneDepositLeaf.mainnetExitRoot =
      some oneDepositRoot := by
  unfold Tree.Store.getRootByHash
  rw [root_oneDeposit, find?_cons_of_pos]
  exact decide_eq_true rfl

theorem leaves_oneDeposit : oneDepositService.leaves = [oneDepositLeaf] :=
  orderBy_eq_self (pairwise_singleton _ _)

theorem covers_oneDeposit : oneDepositService.Covers 0 oneDepositLeaf :=
  ⟨oneDepositRoot, getRootByHash_oneDeposit, by decide⟩

theorem firstCovering_oneDeposit : oneDepositService.firstCovering 0 = some oneDepositLeaf := by
  exact find?_cons_of_pos (decide_eq_true covers_oneDeposit)

theorem firstBlock_oneDeposit : oneDepositService.firstBlock oneDepositLeaf = 1 := by
  have hnone : oneDepositService.leavesBefore oneDepositLeaf = [] := by
    exact takeWhile_cons_of_neg fun h => of_decide_eq_true h rfl
  exact firstBlock_of_nil hnone

theorem l1Search_iff_oneDeposit :
    ∃ n, getFirstL1InfoTreeIndexForL1Bridge n oneDepositService 0 = some (.ok 0) := by
  have hfirst : oneDepositService.l1InfoTree.getFirstInfo = some oneDepositLeaf :=
    congrArg List.head? leaves_oneDeposit
  have hlast : oneDepositService.l1InfoTree.getLastInfo = some oneDepositLeaf :=
    congrArg List.getLast? leaves_oneDeposit
  have hindex : oneDepositService.leaves.Pairwise fun a b =>
      a.l1InfoTreeIndex.toNat < b.l1InfoTreeIndex.toNat := by
    exact pairwise_singleton _ _
  have hbound : ∀ l ∈ oneDepositService.leaves, l.blockNumber < 2^63 := by
    intro l hl
    rw [mem_singleton.mp hl]
    decide
  have hrun : Run.Reach (Tree.Tracked.apply freeKeccak.pair freeKeccak.zero) (fun _ _ => True)
      (Tree.Tracked.new freeKeccak.zero) oneDeposit := .step .init trivial
  have hbridge : oneDepositService.bridgeL1 = oneDeposit.state.store := rfl
  have hfinds : oneDepositService.FindsLeast 0 := by
    refine (l1Search_iff freeKeccak_injective2_pair hrun hbridge hindex hbound 0).1.mpr ?_
    rw [Service.Searchable, firstCovering_oneDeposit]
    refine ⟨oneDepositLeaf, oneDepositLeaf, oneDepositRoot, hfirst,
      .inl ⟨hlast, covers_oneDeposit⟩, getRootByHash_oneDeposit, le_rfl, .inr rfl,
      fun hlt => absurd hlt (by decide), fun m hm => ?_⟩
    unfold Service.Asks at hm
    rw [firstBlock_oneDeposit] at hm
    exact absurd hm (Halving.not_asks_of_mem (by decide) (by decide) m)
  have hleast := isLeast_of_firstCovering hindex firstCovering_oneDeposit
  exact (hfinds.1 oneDepositLeaf.l1InfoTreeIndex).mpr hleast

/-! ## Two leaves in one block -/

/-- Two leaves in block 5 and one in block 9. -/
def threeLeaves : List (L1InfoTreeLeaf ℕ) :=
  [⟨5, 0, 0, 0, 0, 101, 0, 0, 0⟩, ⟨5, 1, 1, 0, 0, 102, 0, 0, 0⟩, ⟨9, 0, 2, 0, 0, 103, 0, 0, 0⟩]

/-- A service whose L1 bridge syncer knows their mainnet exit roots. -/
def threeLeavesService : Service ℕ :=
  ⟨⟨[(5, 0), (9, 0)], threeLeaves, [], []⟩,
    ⟨[⟨101, 0, 1, 0⟩, ⟨102, 3, 2, 0⟩, ⟨103, 4, 3, 0⟩], []⟩, Tree.Store.empty, 1⟩

/-- The first leaf that includes deposit 2 has index 1, the search returns index 2. -/
theorem l1Search_second_of_block :
    (threeLeavesService.firstCovering 2).map (·.l1InfoTreeIndex) = some 1 ∧
      getFirstL1InfoTreeIndexForL1Bridge 10 threeLeavesService 2 = some (.ok 2) := by
  decide +kernel

end AggKit.BridgeService
