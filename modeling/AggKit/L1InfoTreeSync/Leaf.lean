import AggKit.Common
import AggKit.Lib.Bytes

/-!
# Leaves of the L1 info tree, as in `l1infotreesync/processor.go`
-/

namespace AggKit.L1InfoTreeSync

/-- `L1InfoTreeLeaf`, a row of the table `l1info_leaf`. -/
structure L1InfoTreeLeaf (H : Type) where
  blockNumber : ℕ
  blockPosition : ℕ
  l1InfoTreeIndex : UInt32
  previousBlockHash : H
  timestamp : UInt64
  mainnetExitRoot : H
  rollupExitRoot : H
  globalExitRoot : H
  hash : H
deriving DecidableEq

variable {H : Type} (K : Keccak H)

/-- `CalculateGER`. -/
def calculateGER (mainnetExitRoot rollupExitRoot : H) : H := K.pair mainnetExitRoot rollupExitRoot

/-- `GetHash`. -/
def L1InfoTreeLeaf.getHash (l : L1InfoTreeLeaf H) : H :=
  K.sum (K.bytes (calculateGER K l.mainnetExitRoot l.rollupExitRoot) ++
    K.bytes l.previousBlockHash ++ Bytes.bigEndian 8 l.timestamp.toNat)

/-- With hashes that are never cut off, no leaf hashes to zero. -/
theorem getHash_freeKeccak_ne_zero (l : L1InfoTreeLeaf (List UInt8)) :
    l.getHash freeKeccak ≠ freeKeccak.zero := by
  intro h
  have hlen := congrArg List.length h
  simp [L1InfoTreeLeaf.getHash, freeKeccak, Bytes.length_bigEndian] at hlen

end AggKit.L1InfoTreeSync
