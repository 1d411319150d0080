import Mathlib.Logic.Function.Basic

/-!
# Hashes and addresses

The types that every part of the program shares. A hash is an element of an arbitrary type `H`;
`Keccak` is what the program can do with one: compute it from bytes and write it as bytes. The
statements that need more of the hash say so.
-/

namespace AggKit

/-- `common.Address`. -/
abbrev Address := Vector UInt8 20

/-- `common.Address{}`. -/
def ZeroAddress : Address := Vector.replicate 20 0

/-- `common.Hash`, where its bytes matter. -/
abbrev Hash := Vector UInt8 32

/-- The hash functions of `go-ethereum/crypto` and `common.Hash`. -/
structure Keccak (H : Type) where
  /-- `crypto.Keccak256Hash` of the concatenated arguments. -/
  sum : List UInt8 → H
  /-- `Hash.Bytes`. -/
  bytes : H → List UInt8
  /-- `common.Hash{}`. -/
  zero : H

/-- The hash functions for hashes of 32 bytes. -/
def ethKeccak (sum : List UInt8 → Hash) : Keccak Hash where
  sum := sum
  bytes := Vector.toList
  zero := Vector.replicate 32 0

/-- The hash of two hashes one after the other, as in the nodes of a tree. -/
def Keccak.pair {H : Type} (K : Keccak H) (left right : H) : H :=
  K.sum (K.bytes left ++ K.bytes right)

/-- Every message is its own hash, and a hash is written with a mark before each byte and one at its
end. A model of a hash without collisions: two hashes one after the other can be told apart. -/
def freeKeccak : Keccak (List UInt8) where
  sum := id
  bytes h := h.flatMap (fun b => [1, b]) ++ [0]
  zero := []

theorem freeKeccak_bytes_append {h h' t t' : List UInt8}
    (heq : freeKeccak.bytes h ++ t = freeKeccak.bytes h' ++ t') : h = h' ∧ t = t' := by
  unfold freeKeccak at heq
  induction h generalizing h' with
  | nil =>
    cases h' with
    | nil => simpa using heq
    | cons b h' => simp at heq
  | cons a h ih =>
    cases h' with
    | nil => simp at heq
    | cons b h' =>
      simp only [List.flatMap_cons, List.cons_append, List.nil_append, List.cons.injEq,
        true_and] at heq
      obtain ⟨rfl, rfl⟩ := ih heq.2
      exact ⟨by rw [heq.1], rfl⟩

theorem freeKeccak_injective2_pair : Function.Injective2 freeKeccak.pair := by
  intro a a' b b' heq
  have heq' : freeKeccak.bytes a ++ (freeKeccak.bytes b ++ []) =
      freeKeccak.bytes a' ++ (freeKeccak.bytes b' ++ []) := by
    rw [List.append_nil, List.append_nil]
    exact heq
  obtain ⟨rfl, htail⟩ := freeKeccak_bytes_append heq'
  obtain ⟨rfl, -⟩ := freeKeccak_bytes_append htail
  exact ⟨rfl, rfl⟩

end AggKit
