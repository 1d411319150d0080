import AggKit.Lib.Bytes

/-!
# Global indices, as in `bridgesync/processor.go`

The global index of a deposit is one number: a flag for deposits on mainnet, the index of the rollup
otherwise, and the deposit count.
-/

namespace AggKit.BridgeSync

open Bytes

/-- `GenerateGlobalIndex`. A mainnet index has no bytes of a rollup index. -/
def generateGlobalIndex (mainnetFlag : Bool) (rollupIndex depositCount : UInt32) : ℕ :=
  let globalIndexBytes :=
    if mainnetFlag then [1] ++ bigEndian 4 0 else bigEndian 4 rollupIndex.toNat
  toNat (globalIndexBytes ++ bigEndian 4 depositCount.toNat)

/-- `BytesToUint32` of `common/common.go`, which panics on more than four bytes. -/
def bytesToUint32 (bytes : List UInt8) : Option UInt32 :=
  if bytes.length > 4 then none else some (UInt32.ofNat (toNat (fit 4 bytes).toList))

/-- `DecodeGlobalIndex` on the bytes of the number, which has as many as it needs. -/
def decodeGlobalIndexBytes (globalIndex : ℕ) : Option (Bool × UInt32 × UInt32) :=
  let globalIndexBytes := ofNat globalIndex
  let l := globalIndexBytes.length
  if l = 0 then some (false, 0, 0)
  else do
    let mainnetFlag := globalIndex.testBit 64
    let localExitRootFromIdx := l - 4
    let rollupIndexFromIdx := localExitRootFromIdx - 4
    let rollupIndex ←
      bytesToUint32 ((globalIndexBytes.take localExitRootFromIdx).drop rollupIndexFromIdx)
    let localExitRootIndex ← bytesToUint32 (globalIndexBytes.drop localExitRootFromIdx)
    return (mainnetFlag, rollupIndex, localExitRootIndex)

/-- What `DecodeGlobalIndex` returns: bit 64, the four bytes before the last four, and the last
four. -/
def decodeGlobalIndex (globalIndex : ℕ) : Bool × UInt32 × UInt32 :=
  (globalIndex.testBit 64, UInt32.ofNat (globalIndex / 2 ^ 32), UInt32.ofNat globalIndex)

theorem generateGlobalIndex_mainnet (rollupIndex depositCount : UInt32) :
    generateGlobalIndex true rollupIndex depositCount = 2 ^ 64 + depositCount.toNat := by
  have hlt := depositCount.toNat_lt
  have hone : Bytes.toNat ([1] ++ bigEndian 4 0) = 2 ^ 32 := by decide
  simp only [generateGlobalIndex, if_true]
  rw [toNat_append, hone, length_bigEndian, toNat_bigEndian]
  omega

theorem generateGlobalIndex_rollup (rollupIndex depositCount : UInt32) :
    generateGlobalIndex false rollupIndex depositCount =
      rollupIndex.toNat * 2 ^ 32 + depositCount.toNat := by
  have hlt := depositCount.toNat_lt
  have hlt' := rollupIndex.toNat_lt
  simp only [generateGlobalIndex, Bool.false_eq_true, if_false]
  rw [toNat_append, length_bigEndian, toNat_bigEndian, toNat_bigEndian]
  omega

/-- A global index fits in 32 bytes, with much room. -/
theorem generateGlobalIndex_lt (mainnetFlag : Bool) (rollupIndex depositCount : UInt32) :
    generateGlobalIndex mainnetFlag rollupIndex depositCount < 256 ^ 32 := by
  have hlt := depositCount.toNat_lt
  have hlt' := rollupIndex.toNat_lt
  cases mainnetFlag with
  | true =>
    rw [generateGlobalIndex_mainnet]
    omega
  | false =>
    rw [generateGlobalIndex_rollup]
    omega

/-- Decoding gives the parts back, except for the rollup index of a mainnet index. -/
theorem decodeGlobalIndex_generateGlobalIndex (mainnetFlag : Bool)
    (rollupIndex depositCount : UInt32) :
    decodeGlobalIndex (generateGlobalIndex mainnetFlag rollupIndex depositCount) =
      (mainnetFlag, if mainnetFlag then 0 else rollupIndex, depositCount) := by
  have hlt := depositCount.toNat_lt
  have hlt' := rollupIndex.toNat_lt
  have hcount : ∀ n, UInt32.ofNat (n * 2 ^ 32 + depositCount.toNat) = depositCount := by
    intro n
    apply UInt32.toNat_inj.mp
    rw [UInt32.toNat_ofNat']
    omega
  cases mainnetFlag with
  | true =>
    have hflag : (2 ^ 64 + depositCount.toNat).testBit 64 = true := by
      rw [Nat.testBit_eq_decide_div_mod_eq]
      exact decide_eq_true (by omega)
    have hrollup : (2 ^ 64 + depositCount.toNat) / 2 ^ 32 = 2 ^ 32 := by omega
    rw [generateGlobalIndex_mainnet, decodeGlobalIndex, hflag, hrollup]
    exact congrArg (fun c => (true, (0 : UInt32), c)) (hcount (2 ^ 32))
  | false =>
    have hflag : (rollupIndex.toNat * 2 ^ 32 + depositCount.toNat).testBit 64 = false := by
      rw [Nat.testBit_eq_decide_div_mod_eq]
      exact decide_eq_false (by omega)
    have hrollup : (rollupIndex.toNat * 2 ^ 32 + depositCount.toNat) / 2 ^ 32 = rollupIndex.toNat := by
      omega
    rw [generateGlobalIndex_rollup, decodeGlobalIndex, hflag, hrollup, hcount, UInt32.ofNat_toNat]
    rfl

/-! ## The bytes the decoder reads -/

theorem bytesToUint32_drop (bs : List UInt8) :
    bytesToUint32 (bs.drop (bs.length - 4)) = some (UInt32.ofNat (toNat bs)) := by
  have hlen : (bs.drop (bs.length - 4)).length ≤ 4 := by
    rw [List.length_drop]
    omega
  rw [bytesToUint32, if_neg (Nat.not_lt.mpr hlen), toNat_fit hlen, (toNat_split bs 4).2]
  exact congrArg some (UInt32.toNat_inj.mp (by simp))

/-- However many bytes the number has, the split points find its parts. -/
theorem decodeGlobalIndexBytes_eq (globalIndex : ℕ) :
    decodeGlobalIndexBytes globalIndex = some (decodeGlobalIndex globalIndex) := by
  simp only [decodeGlobalIndexBytes]
  by_cases hzero : (ofNat globalIndex).length = 0
  · have hnum := toNat_ofNat globalIndex
    rw [List.length_eq_zero_iff.mp hzero] at hnum
    rw [if_pos hzero, ← hnum]
    rfl
  · have hlen : ((ofNat globalIndex).take ((ofNat globalIndex).length - 4)).length =
        (ofNat globalIndex).length - 4 := by
      rw [List.length_take]
      omega
    have hrollup := bytesToUint32_drop ((ofNat globalIndex).take ((ofNat globalIndex).length - 4))
    rw [hlen, (toNat_split _ 4).1, toNat_ofNat] at hrollup
    have hleaf := bytesToUint32_drop (ofNat globalIndex)
    rw [toNat_ofNat] at hleaf
    rw [if_neg hzero, hrollup, hleaf]
    rfl

/-- Encoding and decoding are inverse on the triples whose rollup index is zero for mainnet, and on
the numbers that stand for them. -/
theorem globalIndex_inverse :
    (∀ mainnetFlag rollupIndex depositCount, (mainnetFlag = true → rollupIndex = 0) →
      decodeGlobalIndexBytes (generateGlobalIndex mainnetFlag rollupIndex depositCount) =
        some (mainnetFlag, rollupIndex, depositCount)) ∧
    (∀ m r c m' r' c', (m = true → r = 0) → (m' = true → r' = 0) →
      generateGlobalIndex m r c = generateGlobalIndex m' r' c' → (m, r, c) = (m', r', c')) ∧
    ∀ globalIndex, (globalIndex < 2 ^ 64 ∨ ∃ c : UInt32, globalIndex = 2 ^ 64 + c.toNat) →
      ∃ m r c, decodeGlobalIndexBytes globalIndex = some (m, r, c) ∧
        generateGlobalIndex m r c = globalIndex := by
  have hdecode : ∀ m r c, (m = true → r = 0) →
      decodeGlobalIndexBytes (generateGlobalIndex m r c) = some (m, r, c) := by
    intro m r c hr
    rw [decodeGlobalIndexBytes_eq, decodeGlobalIndex_generateGlobalIndex]
    cases m with
    | true => rw [hr rfl, if_pos rfl]
    | false => rfl
  refine ⟨hdecode, fun m r c m' r' c' hr hr' heq => ?_, fun globalIndex hindex => ?_⟩
  · have hsame := hdecode m r c hr
    rw [heq, hdecode m' r' c' hr'] at hsame
    exact (Option.some.inj hsame).symm
  · -- Both forms are encodings, so the decoder's answer is known.
    obtain ⟨m, r, c, hr, rfl⟩ : ∃ m r c, (m = true → r = 0) ∧
        generateGlobalIndex m r c = globalIndex := by
      rcases hindex with hlt | ⟨c, rfl⟩
      · refine ⟨false, UInt32.ofNat (globalIndex / 2 ^ 32), UInt32.ofNat globalIndex, nofun, ?_⟩
        rw [generateGlobalIndex_rollup, UInt32.toNat_ofNat', UInt32.toNat_ofNat']
        omega
      · exact ⟨true, 0, c, fun _ => rfl, generateGlobalIndex_mainnet 0 c⟩
    exact ⟨m, r, c, hdecode m r c hr, rfl⟩

end AggKit.BridgeSync
