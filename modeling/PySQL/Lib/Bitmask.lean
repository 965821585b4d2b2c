import Mathlib.Data.Nat.Bitwise
import Mathlib.Tactic

/-!
# Bit-packed masks

A mask keeps eight bits in each of its bytes: bit `i` is bit `i % 8` of byte `i / 8`.
-/

namespace Lib

/-- Bit `i`; none if it lies beyond the last byte. -/
def readBit (mask : List ℕ) (i : ℕ) : Option Bool :=
  (mask[i >>> 3]?).map fun byte => byte &&& (1 <<< (i &&& 7)) != 0

/-- The mask with bit `i` set; none if it lies beyond the last byte. -/
def setBit (mask : List ℕ) (i : ℕ) : Option (List ℕ) :=
  (mask[i >>> 3]?).map fun byte => mask.set (i >>> 3) (byte ||| (1 <<< (i &&& 7)))

theorem bit_ne_zero (byte k : ℕ) : (byte &&& (1 <<< k) != 0) = byte.testBit k := by
  rw [Nat.one_shiftLeft, Nat.and_two_pow]
  cases byte.testBit k <;> simp

theorem readBit_eq (mask : List ℕ) (i : ℕ) :
    readBit mask i = (mask[i / 8]?).map fun byte => byte.testBit (i % 8) := by
  have hbyte : i >>> 3 = i / 8 := Nat.shiftRight_eq_div_pow i 3
  have hbit : i &&& 7 = i % 8 := Nat.and_two_pow_sub_one_eq_mod i 3
  simp only [readBit, hbyte, hbit, bit_ne_zero]

theorem setBit_eq (mask : List ℕ) (i : ℕ) :
    setBit mask i =
      (mask[i / 8]?).map fun byte => mask.set (i / 8) (byte ||| 2 ^ (i % 8)) := by
  have hbyte : i >>> 3 = i / 8 := Nat.shiftRight_eq_div_pow i 3
  have hbit : i &&& 7 = i % 8 := Nat.and_two_pow_sub_one_eq_mod i 3
  simp only [setBit, hbyte, hbit, Nat.one_shiftLeft]

theorem readBit_replicate {n i : ℕ} (hi : i < 8 * n) :
    readBit (List.replicate n 0) i = some false := by
  have hbyte : i / 8 < n := by omega
  rw [readBit_eq, List.getElem?_replicate, if_pos hbyte]
  simp

theorem exists_setBit {mask : List ℕ} {i : ℕ} (hi : i < 8 * mask.length) :
    ∃ mask', setBit mask i = some mask' ∧ mask'.length = mask.length := by
  have hbyte : i / 8 < mask.length := by omega
  refine ⟨_, by rw [setBit_eq, List.getElem?_eq_getElem hbyte, Option.map_some], ?_⟩
  exact List.length_set

/-- Setting a bit sets that bit and no other. -/
theorem readBit_setBit {mask mask' : List ℕ} {i : ℕ} (h : setBit mask i = some mask') (j : ℕ) :
    readBit mask' j = if j = i then some true else readBit mask j := by
  rw [setBit_eq, Option.map_eq_some_iff] at h
  obtain ⟨byte, hget, rfl⟩ := h
  have hbyte : i / 8 < mask.length := (List.getElem?_eq_some_iff.mp hget).1
  by_cases hsame : j / 8 = i / 8
  · -- another bit of the same byte
    rw [readBit_eq, hsame, List.getElem?_set_self hbyte, readBit_eq, hsame, hget]
    simp only [Option.map_some, Nat.testBit_or, Nat.testBit_two_pow]
    by_cases hij : j = i
    · simp [hij]
    · have hbit : i % 8 ≠ j % 8 := by omega
      simp [hij, hbit]
  · have hij : j ≠ i := fun h => hsame (by rw [h])
    rw [readBit_eq, readBit_eq, List.getElem?_set_ne (Ne.symm hsame), if_neg hij]

end Lib
