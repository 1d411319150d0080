import Mathlib.Data.Nat.Bitwise
import Mathlib.Data.Set.Finite.Basic
import Mathlib.Tactic.Ring

/-!
# Binary Merkle trees over an arbitrary two-argument hash

A tree of unbounded width over a sequence of leaves `f : ℕ → H`: `node hash f h i` is the node at
height `h` and index `i`, and covers the leaves `i * 2^h, …, i * 2^h + 2^h - 1`. A finite list of
leaves is made into such a sequence by `padded`, with a default leaf after its end, so that the
root of the depth-`d` tree over a list is `node hash (padded z l) d 0`.

Two results carry the rest. A node depends on the leaves it covers and on nothing else
(`node_eq_of_leaves_eq`), and under a hash without collisions it determines them
(`leaves_eq_of_node_eq`). The arithmetic of the path from a leaf to the root is in the section on
path indices: the ancestor of leaf `n` at height `h` has index `n / 2^h`, it is a right child
exactly when bit `h` of `n` is set, and its left neighbour is then complete.
-/

namespace Merkle

open Function List

variable {H : Type*} (hash : H → H → H)

/-- The node at height `h` and index `i` of the tree over the leaves `f`. -/
def node (f : ℕ → H) : ℕ → ℕ → H
  | 0, i => f i
  | h + 1, i => hash (node f h (2 * i)) (node f h (2 * i + 1))

/-- The node at height `h` of the tree whose leaves are all `z`. -/
def zeroHash (z : H) : ℕ → H
  | 0 => z
  | h + 1 => hash (zeroHash z h) (zeroHash z h)

/-- The leaves of the list `l`, followed by `z` for ever. -/
def padded (z : H) (l : List H) : ℕ → H := fun i => l.getD i z

variable {h i : ℕ}

/-- The root of the tree of depth `d` over the leaves `l`, padded by `z`. -/
def root (z : H) (d : ℕ) (l : List H) : H := node hash (padded z l) d 0

@[simp]
theorem node_zero (f : ℕ → H) (i : ℕ) : node hash f 0 i = f i := rfl

theorem node_succ (f : ℕ → H) (h i : ℕ) :
    node hash f (h + 1) i = hash (node hash f h (2 * i)) (node hash f h (2 * i + 1)) := rfl

/-! ## A node and the leaves it covers -/

/-- Two nodes of one height over the same block of leaves are equal. -/
theorem node_eq_of_leaves_eq {f g : ℕ → H} {i' : ℕ}
    (hleaves : ∀ j < 2^h, f (i * 2^h + j) = g (i' * 2^h + j)) :
    node hash f h i = node hash g h i' := by
  induction h generalizing i i' with
  | zero => simpa using hleaves 0 (by norm_num)
  | succ h ih =>
    rw [node_succ, node_succ]
    congr 1
    · refine ih fun j hj => ?_
      have hj' := hleaves j (by omega)
      rwa [show i * 2^(h + 1) + j = 2 * i * 2^h + j by ring,
        show i' * 2^(h + 1) + j = 2 * i' * 2^h + j by ring] at hj'
    · refine ih fun j hj => ?_
      have hj' := hleaves (2^h + j) (by omega)
      rwa [show i * 2^(h + 1) + (2^h + j) = (2 * i + 1) * 2^h + j by ring,
        show i' * 2^(h + 1) + (2^h + j) = (2 * i' + 1) * 2^h + j by ring] at hj'

/-- Under a hash without collisions, equal nodes of one height cover the same leaves. -/
theorem leaves_eq_of_node_eq {hash : H → H → H} (hinj : Injective2 hash) {f g : ℕ → H}
    {i' : ℕ} (hnode : node hash f h i = node hash g h i') :
    ∀ j < 2^h, f (i * 2^h + j) = g (i' * 2^h + j) := by
  induction h generalizing i i' with
  | zero =>
    intro j hj
    obtain rfl : j = 0 := by omega
    simpa using hnode
  | succ h ih =>
    intro j hj
    obtain ⟨hleft, hright⟩ := hinj hnode
    -- The first half of the block is under the left child, the second under the right one.
    rcases lt_or_ge j (2^h) with hlt | hge
    · have hj' := ih hleft j hlt
      rwa [show i * 2^(h + 1) + j = 2 * i * 2^h + j by ring,
        show i' * 2^(h + 1) + j = 2 * i' * 2^h + j by ring]
    · obtain ⟨k, rfl⟩ := Nat.exists_eq_add_of_le hge
      have hk := ih hright k (by rw [pow_succ] at hj; omega)
      rwa [show i * 2^(h + 1) + (2^h + k) = (2 * i + 1) * 2^h + k by ring,
        show i' * 2^(h + 1) + (2^h + k) = (2 * i' + 1) * 2^h + k by ring]

variable {z : H}

/-- A node over default leaves only is the zero hash of its height. -/
theorem node_eq_zeroHash {f : ℕ → H} (hleaves : ∀ j < 2^h, f (i * 2^h + j) = z) :
    node hash f h i = zeroHash hash z h := by
  have hconst : ∀ k i', node hash (fun _ => z) k i' = zeroHash hash z k := by
    intro k
    induction k with
    | zero => intro i'; rfl
    | succ k ih => intro i'; rw [node_succ, ih, ih, zeroHash]
  rw [← hconst h i]
  exact node_eq_of_leaves_eq hash hleaves

/-! ## Padded lists -/

@[simp]
theorem padded_of_lt (z : H) (l : List H) (hi : i < l.length) : padded z l i = l[i] := by
  simp [padded, hi]

theorem padded_of_le (z : H) (l : List H) (hi : l.length ≤ i) : padded z l i = z := by
  simp [padded, hi]

theorem padded_append_left (z : H) (l m : List H) (hi : i < l.length) :
    padded z (l ++ m) i = padded z l i := by
  simp [padded, getElem?_append_left hi]

@[simp]
theorem padded_append_length (z : H) (l : List H) (x : H) :
    padded z (l ++ [x]) l.length = x := by
  simp [padded]

variable {l : List H}

/-- Two lists of one length with the same padded sequence on `[0, k)` agree there. -/
theorem eq_of_padded_eq {m : List H} (hlen : l.length = m.length)
    (hpad : ∀ i < l.length, padded z l i = padded z m i) : l = m := by
  refine ext_getElem hlen fun i hl hm => ?_
  have hi := hpad i hl
  rwa [padded_of_lt z l hl, padded_of_lt z m hm] at hi

/-! ## Path indices

The ancestor of leaf `n` at height `h` is the node of index `n / 2^h`. -/

/-- Bit `h` of `n` is set exactly when the ancestor of leaf `n` at height `h` is a right child. -/
theorem testBit_iff (n h : ℕ) : n.testBit h = true ↔ n / 2^h % 2 = 1 := by
  simp [Nat.testBit_eq_decide_div_mod_eq]

theorem div_two_pow_succ (n h : ℕ) : n / 2^(h + 1) = n / 2^h / 2 := by
  rw [pow_succ, Nat.div_div_eq_div_mul]

/-- The left neighbour of the ancestor of leaf `n` covers leaves before `n` only. -/
theorem left_block_lt {n j : ℕ} (hbit : n.testBit h = true) (hj : j < 2^h) :
    (n / 2^h - 1) * 2^h + j < n := by
  rw [testBit_iff] at hbit
  have hle : n / 2^h * 2^h ≤ n := Nat.div_mul_le_self n (2^h)
  generalize n / 2^h = q at hbit hle
  obtain ⟨k, rfl⟩ : ∃ k, q = k + 1 := ⟨q - 1, by omega⟩
  rw [Nat.succ_mul] at hle
  rw [Nat.add_sub_cancel]
  omega

/-- The right neighbour of the ancestor of leaf `n` covers leaves after `n` only. -/
theorem lt_right_block (n h j : ℕ) : n < (n / 2^h + 1) * 2^h + j := by
  have hlt : n < 2^h * (n / 2^h + 1) := Nat.lt_mul_div_succ n (Nat.two_pow_pos h)
  rw [mul_comm] at hlt
  omega

/-- Counting one leaf further moves the ancestor at height `h` by at most one. -/
theorem succ_div_two_pow (n h : ℕ) :
    (n + 1) / 2^h = n / 2^h ∨ (n + 1) / 2^h = n / 2^h + 1 := by
  rw [Nat.succ_div]
  split_ifs <;> simp

/-! ## Siblings

What a proof of inclusion of leaf `n` is made of: at each height below the root, the other child of
the node above. -/

/-- The sibling of the ancestor of leaf `n` at height `h`. -/
def sibling (f : ℕ → H) (n h : ℕ) : H :=
  node hash f h (if n.testBit h then n / 2^h - 1 else n / 2^h + 1)

/-- Of the two children of an ancestor of leaf `n` at height `h + 1`, one is the ancestor at height
`h` and the other its sibling. -/
theorem children_of_ancestor (f : ℕ → H) (n h : ℕ) :
    node hash f h (2 * (n / 2^(h + 1))) =
        (if n.testBit h then sibling hash f n h else node hash f h (n / 2^h)) ∧
      node hash f h (2 * (n / 2^(h + 1)) + 1) =
        (if n.testBit h then node hash f h (n / 2^h) else sibling hash f n h) := by
  unfold sibling
  rw [div_two_pow_succ]
  have hbit := testBit_iff n h
  by_cases hset : n.testBit h = true
  all_goals
    simp only [hset, true_iff, false_iff, if_true, if_false, Bool.false_eq_true] at hbit ⊢
    constructor <;> congr 1 <;> omega

/-- An ancestor is hashed from the one below and its sibling. -/
theorem node_ancestor_succ (f : ℕ → H) (n h : ℕ) :
    node hash f (h + 1) (n / 2^(h + 1)) =
      if n.testBit h then hash (sibling hash f n h) (node hash f h (n / 2^h))
      else hash (node hash f h (n / 2^h)) (sibling hash f n h) := by
  obtain ⟨hleft, hright⟩ := children_of_ancestor hash f n h
  rw [node_succ, hleft, hright]
  split_ifs <;> rfl

/-- Changing a leaf changes its ancestors only. -/
theorem node_update_of_ne (f : ℕ → H) (x : H) {n : ℕ} (hi : i ≠ n / 2^h) :
    node hash (update f n x) h i = node hash f h i := by
  apply node_eq_of_leaves_eq
  intro j hj
  apply update_of_ne
  intro heq
  apply hi
  rw [← heq, Nat.mul_comm, Nat.mul_add_div (Nat.two_pow_pos h), Nat.div_eq_of_lt hj, Nat.add_zero]

/-- So the siblings on its path stay. -/
@[simp]
theorem sibling_update (f : ℕ → H) (x : H) (n h : ℕ) :
    sibling hash (update f n x) n h = sibling hash f n h := by
  apply node_update_of_ne
  split_ifs with hbit
  · rw [testBit_iff] at hbit
    omega
  · omega

/-- A block of default leaves has the zero hash as the sibling of each of its leaves' ancestors. -/
theorem sibling_eq_zeroHash {f : ℕ → H} {n k : ℕ} (hk : k < h)
    (hleaves : ∀ m, m / 2^h = n / 2^h → f m = z) : sibling hash f n k = zeroHash hash z k := by
  apply node_eq_zeroHash
  intro j hj
  apply hleaves
  -- The sibling and the ancestor have one parent, which is under the node at height `h`.
  obtain ⟨e, rfl⟩ := Nat.exists_eq_add_of_lt hk
  have hpow : 2^(k + e + 1) = 2^(k + 1) * 2^e := by ring
  rw [hpow, ← Nat.div_div_eq_div_mul, ← Nat.div_div_eq_div_mul]
  congr 1
  rw [div_two_pow_succ, div_two_pow_succ, Nat.mul_comm, Nat.mul_add_div (Nat.two_pow_pos k),
    Nat.div_eq_of_lt hj, Nat.add_zero]
  have hbit := testBit_iff n k
  generalize n / 2^k = q at hbit
  split_ifs with hset
  · have hodd := hbit.mp hset
    omega
  · have heven := mt hbit.mpr hset
    omega

/-! ## The frontier

What has to be kept of a list of leaves in order to append to it: for each bit that is set in the
number of leaves, the complete subtree to the left of the path of the next leaf. -/

/-- The cache `c` holds the frontier of the depth-`d` tree over `l`. -/
def Frontier (z : H) (d : ℕ) (l : List H) (c : ℕ → H) : Prop :=
  ∀ h < d, l.length.testBit h = true → c h = node hash (padded z l) h (l.length / 2^h - 1)

/-- The ancestor at height `h` of a leaf `x` appended to `l`. -/
def appendPath (z : H) (l : List H) (x : H) (h : ℕ) : H :=
  node hash (padded z (l ++ [x])) h (l.length / 2^h)

@[simp]
theorem appendPath_zero (z : H) (l : List H) (x : H) : appendPath hash z l x 0 = x := by
  simp [appendPath]

variable {d : ℕ}

/-- The path of an appended leaf ends in the root of the extended list. -/
theorem appendPath_depth (z : H) (l : List H) (x : H) (hlen : l.length < 2^d) :
    appendPath hash z l x d = root hash z d (l ++ [x]) := by
  rw [appendPath, root, Nat.div_eq_of_lt hlen]

/-- A complete subtree to the left of the path is not changed by the appended leaf. -/
theorem node_left_append (z : H) (l : List H) (x : H) (hbit : l.length.testBit h = true) :
    node hash (padded z (l ++ [x])) h (l.length / 2^h - 1) =
      node hash (padded z l) h (l.length / 2^h - 1) :=
  node_eq_of_leaves_eq hash fun _ hj => padded_append_left z l [x] (left_block_lt hbit hj)

section children

variable {z : H} {d : ℕ} {l : List H} {c : ℕ → H} (x : H) {h : ℕ}

/-- The left child on the path of an appended leaf comes from the frontier or is the path itself. -/
theorem appendPath_left (hc : Frontier hash z d l c) (hh : h < d) :
    node hash (padded z (l ++ [x])) h (2 * (l.length / 2^(h + 1))) =
      if l.length.testBit h then c h else appendPath hash z l x h := by
  rw [(children_of_ancestor hash _ l.length h).1]
  split_ifs with hbit
  · rw [hc h hh hbit, ← node_left_append hash z l x hbit, sibling, if_pos hbit]
  · rfl

/-- The right child on the path of an appended leaf is the path itself or an empty subtree. -/
theorem appendPath_right (z : H) (l : List H) (h : ℕ) :
    node hash (padded z (l ++ [x])) h (2 * (l.length / 2^(h + 1)) + 1) =
      if l.length.testBit h then appendPath hash z l x h else zeroHash hash z h := by
  rw [(children_of_ancestor hash _ l.length h).2]
  split_ifs with hbit
  · rfl
  · rw [sibling, if_neg hbit]
    refine node_eq_zeroHash hash fun j _ => padded_of_le z _ ?_
    have hlt := lt_right_block l.length h j
    rw [length_append, length_singleton]
    omega

/-- One level of the path of an appended leaf. -/
theorem appendPath_succ (hc : Frontier hash z d l c) (hh : h < d) :
    appendPath hash z l x (h + 1) =
      if l.length.testBit h then hash (c h) (appendPath hash z l x h)
      else hash (appendPath hash z l x h) (zeroHash hash z h) := by
  have hchildren := node_succ hash (padded z (l ++ [x])) h (l.length / 2^(h + 1))
  rw [appendPath_left hash x hc hh, appendPath_right hash x z l h] at hchildren
  rw [appendPath, hchildren]
  split_ifs <;> rfl

end children

/-- A cache that keeps the frontier where the path turns left and records the path elsewhere holds
the frontier of the extended list. -/
theorem Frontier.append {c c' : ℕ → H} {x : H} (hc : Frontier hash z d l c)
    (hc' : ∀ h < d, c' h = if l.length.testBit h then c h else appendPath hash z l x h) :
    Frontier hash z d (l ++ [x]) c' := by
  intro h hh hbit
  rw [length_append, length_singleton] at hbit ⊢
  rw [hc' h hh]
  have hstep := succ_div_two_pow l.length h
  split_ifs with hold
  · -- Both bits are set, so the ancestor has not moved.
    have hsame : (l.length + 1) / 2^h = l.length / 2^h := by
      rw [testBit_iff] at hbit hold
      rcases hstep with heq | heq
      · exact heq
      · omega
    rw [hsame, hc h hh hold, node_left_append hash z l x hold]
  · -- The carry stops at this level: the path of `x` is now the complete left neighbour.
    have hnext : (l.length + 1) / 2^h - 1 = l.length / 2^h := by
      rw [testBit_iff] at hbit hold
      rcases hstep with heq | heq
      · exact absurd (heq ▸ hbit) hold
      · rw [heq, Nat.add_sub_cancel]
    rw [hnext, appendPath]

/-- The left children on the path of the last leaf contain the frontier. -/
theorem Frontier.of_left_children {n : ℕ} {c : ℕ → H} (hlen : l.length = n + 1)
    (hc : ∀ h < d, c h = node hash (padded z l) h (2 * (n / 2^(h + 1)))) :
    Frontier hash z d l c := by
  intro h hh hbit
  rw [hc h hh, hlen, div_two_pow_succ]
  rw [hlen, testBit_iff] at hbit
  have hindex : 2 * (n / 2^h / 2) = (n + 1) / 2^h - 1 := by
    rcases succ_div_two_pow n h with heq | heq
    · omega
    · omega
  rw [hindex]

theorem Frontier.nil (z : H) (d : ℕ) (c : ℕ → H) : Frontier hash z d [] c := by
  intro h _ hbit
  simp at hbit

/-! ## Roots of padded lists -/

/-- Under a hash without collisions the root of a list that fits the depth determines its leaves,
up to default leaves at the end. -/
theorem padded_eq_of_root_eq {hash : H → H → H} (hinj : Injective2 hash) {m : List H}
    (hroot : root hash z d l = root hash z d m) (hi : i < 2^d) : padded z l i = padded z m i := by
  simpa using leaves_eq_of_node_eq hinj hroot i hi

/-- So it determines a list whose length is known. -/
theorem eq_of_root_eq {hash : H → H → H} (hinj : Injective2 hash) {m : List H}
    (hroot : root hash z d l = root hash z d m) (hlength : l.length = m.length)
    (hfits : l.length ≤ 2^d) : l = m := by
  exact eq_of_padded_eq hlength fun i hi => padded_eq_of_root_eq hinj hroot (by omega)

/-- Appending a leaf to a list writes it after the others. -/
theorem padded_concat (z : H) (l : List H) (x : H) :
    padded z (l ++ [x]) = update (padded z l) l.length x := by
  funext i
  rcases lt_trichotomy i l.length with hlt | rfl | hgt
  · rw [update_of_ne (by omega), padded_append_left z l [x] hlt]
  · rw [update_self, padded_append_length]
  · rw [update_of_ne (by omega), padded_of_le z l hgt.le, padded_of_le]
    rw [length_append, length_singleton]
    omega

/-- A default leaf at the end does not change the root. -/
theorem root_concat_default (z : H) (d : ℕ) (l : List H) :
    root hash z d (l ++ [z]) = root hash z d l := by
  rw [root, padded_concat, update_eq_self_iff.mpr (padded_of_le z l le_rfl).symm, root]

/-- A collision-free hash on a type with two elements lives on an infinite type. -/
theorem infinite_of_injective2 {hash : H → H → H} (hinj : Injective2 hash)
    {a b : H} (hab : a ≠ b) : Infinite H := by
  -- `hash a` is injective and misses `hash b a`.
  have hmiss : Set.range (hash a) ≠ Set.univ := by
    intro huniv
    obtain ⟨x, hx⟩ : hash b a ∈ Set.range (hash a) := huniv ▸ Set.mem_univ _
    exact hab (hinj hx).1
  refine Infinite.of_injective_to_set hmiss (f := fun x => ⟨hash a x, x, rfl⟩) ?_
  intro x y hxy
  exact (hinj (congrArg Subtype.val hxy)).2

/-- The root of an extended list determines the leaf it was extended by. -/
theorem root_concat_injective {hash : H → H → H} (hinj : Injective2 hash) (z : H)
    (hlen : l.length < 2^d) : Injective fun x => root hash z d (l ++ [x]) := by
  intro x y hxy
  have hpad := padded_eq_of_root_eq hinj hxy hlen
  rwa [padded_append_length, padded_append_length] at hpad

/-- A collision-free function of leaves avoids any finite list of values, as soon as one value is
outside the list at all. -/
theorem exists_value_notMem {hash : H → H → H} (hinj : Injective2 hash) {g : H → H}
    (hg : Injective g) {taken : List H} {y : H} (hy : y ∉ taken) : ∃ x, g x ∉ taken := by
  rcases subsingleton_or_nontrivial H with hsub | ⟨a, b, hab⟩
  · exact ⟨y, Subsingleton.elim y (g y) ▸ hy⟩
  · have hinf := infinite_of_injective2 hinj hab
    by_contra hall
    push Not at hall
    exact Set.infinite_range_of_injective hg ((finite_toSet taken).subset
      (Set.range_subset_iff.mpr hall))

/-- Under a hash without collisions, a leaf can be replaced under the same root only by itself. -/
theorem node_update_eq_iff {hash : H → H → H} (hinj : Injective2 hash) (f : ℕ → H) {n : ℕ}
    (hn : n < 2^d) (x : H) : node hash (update f n x) d 0 = node hash f d 0 ↔ x = f n := by
  constructor
  · intro hroot
    have hleaf := leaves_eq_of_node_eq hinj hroot n hn
    simpa using hleaf
  · rintro rfl
    rw [update_eq_self]

/-! ## Roots that compute

`root` looks at every leaf of the tree, default ones included. `listRoot` combines the leaves of the
list in pairs, level by level. -/

/-- The nodes above the leaves of a list, the last one paired with a default leaf if need be. -/
def combine (z : H) : List H → List H
  | [] => []
  | [a] => [hash a z]
  | a :: b :: l => hash a b :: combine z l

/-- The root of the tree of depth `d` over a list. -/
def listRoot (z : H) : ℕ → List H → H
  | 0, l => l.headD z
  | d + 1, l => listRoot (hash z z) d (combine hash z l)

theorem padded_combine (z : H) (l : List H) (i : ℕ) :
    padded (hash z z) (combine hash z l) i = hash (padded z l (2 * i)) (padded z l (2 * i + 1)) := by
  induction l using combine.induct generalizing i with
  | case1 => simp [combine, padded]
  | case2 a =>
    cases i with
    | zero | succ i => simp [combine, padded]
  | case3 a b l ih =>
    cases i with
    | zero => simp [combine, padded]
    | succ i =>
      have hnext := ih i
      exact hnext

/-- A tree over the nodes of height one is a tree over the leaves. -/
theorem node_pairs (f : ℕ → H) (d i : ℕ) :
    node hash (fun j => hash (f (2 * j)) (f (2 * j + 1))) d i = node hash f (d + 1) i := by
  induction d generalizing i with
  | zero => rfl
  | succ d ih => rw [node_succ, ih, ih, node_succ hash f (d + 1)]

theorem listRoot_eq_root (z : H) (d : ℕ) (l : List H) : listRoot hash z d l = root hash z d l := by
  induction d generalizing z l with
  | zero =>
    cases l with
    | nil | cons a l => rfl
  | succ d ih =>
    have hpad : padded (hash z z) (combine hash z l) =
        fun j => hash (padded z l (2 * j)) (padded z l (2 * j + 1)) :=
      funext (padded_combine hash z l)
    rw [listRoot, ih, root, root, hpad, node_pairs]

/-! ## Formal hashes -/

/-- The free algebra of one binary operation over the natural numbers. Its operation is a hash
without collisions that computes. -/
inductive Term where
  | leaf (n : ℕ)
  | node (left right : Term)
deriving DecidableEq

theorem Term.injective2_node : Injective2 Term.node :=
  fun _ _ _ _ h => Term.node.inj h

end Merkle
