import Mathlib.Data.List.Induction
import Mathlib.Tactic.Ring

/-!
# Numbers as bytes

The fixed width encodings of a number, the number that bytes stand for, and bytes brought to a fixed
width.
-/

namespace Bytes

/-- The lowest `w` bytes of a number, the highest one first. -/
def bigEndian : ℕ → ℕ → List UInt8
  | 0, _ => []
  | w + 1, n => bigEndian w (n / 256) ++ [UInt8.ofNat n]

/-- The number that bytes stand for, the highest one first. -/
def toNat (bs : List UInt8) : ℕ := bs.foldl (fun n b => n * 256 + b.toNat) 0

/-- The bytes of a number, the highest one first and not zero. -/
def ofNat (n : ℕ) : List UInt8 := if n = 0 then [] else ofNat (n / 256) ++ [UInt8.ofNat n]

/-- The last `w` bytes, with zeros in front when there are fewer. -/
def fit (w : ℕ) (bs : List UInt8) : Vector UInt8 w :=
  ⟨(List.replicate (w - bs.length) 0 ++ bs.drop (bs.length - w)).toArray, by simp; omega⟩

@[simp]
theorem length_bigEndian (w n : ℕ) : (bigEndian w n).length = w := by
  induction w generalizing n with
  | zero => rfl
  | succ w ih => simp [bigEndian, ih]

theorem toNat_concat (bs : List UInt8) (b : UInt8) :
    toNat (bs ++ [b]) = toNat bs * 256 + b.toNat := by
  simp [toNat]

theorem toNat_append (bs cs : List UInt8) :
    toNat (bs ++ cs) = toNat bs * 256 ^ cs.length + toNat cs := by
  induction cs using List.reverseRecOn with
  | nil => simp [toNat]
  | append_singleton cs c ih =>
    rw [← List.append_assoc, toNat_concat, ih, toNat_concat, List.length_append,
      List.length_singleton, pow_succ]
    ring

/-- The encoding keeps the number modulo its width. -/
theorem toNat_bigEndian (w n : ℕ) : toNat (bigEndian w n) = n % 256 ^ w := by
  induction w generalizing n with
  | zero => simp [bigEndian, toNat, Nat.mod_one]
  | succ w ih =>
    have hbyte : (UInt8.ofNat n).toNat = n % 256 := UInt8.toNat_ofNat'
    have hsplit : n % 256 ^ (w + 1) = n % 256 + 256 * (n / 256 % 256 ^ w) := by
      rw [pow_succ', Nat.mod_mul]
    rw [bigEndian, toNat_concat, ih, hbyte, hsplit]
    ring

@[simp]
theorem toNat_ofNat (n : ℕ) : toNat (ofNat n) = n := by
  fun_induction ofNat n with
  | case1 => rfl
  | case2 n _ ih =>
    have hbyte : (UInt8.ofNat n).toNat = n % 256 := UInt8.toNat_ofNat'
    rw [toNat_concat, ih, hbyte]
    omega

theorem toNat_lt (bs : List UInt8) : toNat bs < 256 ^ bs.length := by
  induction bs using List.reverseRecOn with
  | nil => decide
  | append_singleton bs b ih =>
    have hb := b.toNat_lt
    rw [toNat_concat, List.length_append, List.length_singleton, pow_succ]
    omega

theorem toNat_replicate_zero (k : ℕ) : toNat (List.replicate k 0) = 0 := by
  induction k with
  | zero => rfl
  | succ k ih => rw [List.replicate_succ', toNat_concat, ih]; rfl

/-- The bytes before the last `w` ones, and these; all of them when there are fewer. -/
theorem toNat_split (bs : List UInt8) (w : ℕ) :
    toNat (bs.take (bs.length - w)) = toNat bs / 256 ^ w ∧
      toNat (bs.drop (bs.length - w)) = toNat bs % 256 ^ w := by
  by_cases hle : w ≤ bs.length
  · have hlen : (bs.drop (bs.length - w)).length = w := by
      rw [List.length_drop]
      omega
    have hlt := toNat_lt (bs.drop (bs.length - w))
    have hsplit := toNat_append (bs.take (bs.length - w)) (bs.drop (bs.length - w))
    rw [hlen] at hlt hsplit
    rw [List.take_append_drop] at hsplit
    rw [mul_comm, add_comm] at hsplit
    obtain ⟨hdiv, hmod⟩ := (Nat.div_mod_unique (Nat.pow_pos (by decide))).mpr ⟨hsplit.symm, hlt⟩
    exact ⟨hdiv.symm, hmod.symm⟩
  · have hlt : toNat bs < 256 ^ w :=
      (toNat_lt bs).trans_le (Nat.pow_le_pow_right (by decide) (by omega))
    have hnone : bs.length - w = 0 := by omega
    rw [hnone, Nat.div_eq_of_lt hlt, Nat.mod_eq_of_lt hlt]
    exact ⟨rfl, rfl⟩

/-- Zeros in front do not count. -/
theorem toNat_fit {w : ℕ} {bs : List UInt8} (hlen : bs.length ≤ w) :
    toNat (fit w bs).toList = toNat bs := by
  have hlist : (fit w bs).toList = List.replicate (w - bs.length) 0 ++ bs := by
    simp [fit, Nat.sub_eq_zero_of_le hlen]
  rw [hlist, toNat_append, toNat_replicate_zero, zero_mul, zero_add]

/-- Bytes of the width stay as they are. -/
theorem toList_fit {w : ℕ} {bs : List UInt8} (hlen : bs.length = w) : (fit w bs).toList = bs := by
  subst hlen
  simp [fit]

@[simp]
theorem fit_toList {w : ℕ} (v : Vector UInt8 w) : fit w v.toList = v := by
  have hlist : (fit w v.toList).toList = v.toList := toList_fit v.length_toList
  exact Vector.toList_inj.mp hlist

end Bytes
