import Mathlib.Algebra.Polynomial.Div
import Mathlib.Algebra.Field.ZMod

/-!
# Bit vectors as polynomials over the field of two elements

Bit `i` of a vector is the coefficient of `X ^ i`.  Exclusive or is addition, a shift to the
left that loses nothing is multiplication by a power of `X`, and a vector of fewer bits than a
monic polynomial has degree is its own remainder.
-/

namespace BitPolynomial

open Polynomial

variable {n m : Nat}

/-- The coefficient a bit stands for. -/
def bitCoeff (b : Bool) : ZMod 2 := if b then 1 else 0

theorem bitCoeff_xor (a b : Bool) : bitCoeff (a ^^ b) = bitCoeff a + bitCoeff b := by
  cases a <;> cases b <;> decide

noncomputable def ofBits (v : BitVec n) : (ZMod 2)[X] :=
  ∑ i ∈ Finset.range n, C (bitCoeff (v.getLsbD i)) * X ^ i

theorem coeff_ofBits (v : BitVec n) (i : Nat) : (ofBits v).coeff i = bitCoeff (v.getLsbD i) := by
  rw [ofBits, finsetSum_coeff]
  simp only [coeff_C_mul_X_pow]
  rw [Finset.sum_ite_eq]
  split
  · rfl
  · next hi =>
      rw [BitVec.getLsbD_of_ge v i (by simpa using hi)]
      rfl

theorem ofBits_xor (a b : BitVec n) : ofBits (a ^^^ b) = ofBits a + ofBits b := by
  ext i
  rw [coeff_add, coeff_ofBits, coeff_ofBits, coeff_ofBits, BitVec.getLsbD_xor, bitCoeff_xor]

theorem ofBits_shiftLeft (v : BitVec n) {k : Nat} (h : n + k ≤ m) :
    ofBits (v.setWidth m <<< k) = ofBits v * X ^ k := by
  ext i
  rw [coeff_mul_X_pow', coeff_ofBits, coeff_ofBits, BitVec.getLsbD_shiftLeft,
    BitVec.getLsbD_setWidth]
  by_cases hk : k ≤ i
  · rw [if_pos hk]
    by_cases hn : i - k < n
    · have : i < m := by omega
      have : ¬ i < k := by omega
      have : i - k < m := by omega
      simp [*]
    · rw [BitVec.getLsbD_of_ge v _ (by omega)]
      simp
  · have : i < k := by omega
    simp [this, bitCoeff]

theorem degree_ofBits_lt (v : BitVec n) : (ofBits v).degree < n := by
  rw [degree_lt_iff_coeff_zero]
  intro i hi
  rw [coeff_ofBits, BitVec.getLsbD_of_ge v i hi]
  rfl

/-- What is congruent to a polynomial and of smaller degree than the modulus is its remainder. -/
theorem modByMonic_eq_ofBits {g p q : (ZMod 2)[X]} (hg : g.Monic) {v : BitVec n}
    (hdegree : (n : WithBot ℕ) ≤ g.degree) (h : ofBits v = p + g * q) : p %ₘ g = ofBits v := by
  refine (div_modByMonic_unique (-q) (ofBits v) hg ⟨?_, ?_⟩).2
  · rw [h]
    ring
  · exact lt_of_lt_of_le (degree_ofBits_lt v) hdegree

end BitPolynomial
