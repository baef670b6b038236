/-
The quotient polynomial of the field with `2^128` elements, and the reduction
of a product of 256 bits by two folds of its upper halves.
-/
import Longfellow.Lib.BinaryPolynomial

namespace Longfellow.Field2_128

open Polynomial BinaryPolynomial

/-- The terms of the quotient polynomial below the leading one. -/
noncomputable def lowerTerms : (ZMod 2)[X] := X ^ 7 + X ^ 2 + X + 1

/-- The polynomial by which products are reduced. -/
@[irreducible] noncomputable def quotient : (ZMod 2)[X] :=
  X ^ 128 + X ^ 7 + X ^ 2 + X + 1

theorem quotient_eq : quotient = X ^ 128 + lowerTerms := by
  unfold quotient lowerTerms
  simp only [add_assoc]

theorem degree_lowerTerms_lt : lowerTerms.degree < (128 : Nat) := by
  have hdegree : lowerTerms.degree ≤ (7 : Nat) := by
    rw [lowerTerms]
    compute_degree
    exact le_rfl
  apply hdegree.trans_lt
  exact_mod_cast (by omega : 7 < 128)

theorem quotient_monic : quotient.Monic := by
  rw [quotient_eq]
  exact monic_X_pow_add degree_lowerTerms_lt

theorem degree_quotient : quotient.degree = (128 : Nat) := by
  rw [quotient_eq, degree_add_eq_left_of_degree_lt, degree_X_pow]
  rw [degree_X_pow]
  exact degree_lowerTerms_lt

/-- A vector that differs from a product by a multiple of the quotient
polynomial is the reduced product. -/
theorem poly_eq_modByMonic {z : BitVec 128} {p q : (ZMod 2)[X]}
    (h : poly z + quotient * q = p) : poly z = p %ₘ quotient := by
  have hdegree : (poly z).degree < quotient.degree := by
    rw [degree_quotient]
    exact degree_poly_lt z
  exact eq_modByMonic quotient_monic h hdegree

/-- One fold: the upper half of the middle part is replaced by its product with
the lower terms of the quotient polynomial. -/
def Folds (reduce : BitVec 128 → BitVec 128 → BitVec 128) : Prop :=
  ∀ resultLow resultMiddle, poly (reduce resultLow resultMiddle) =
    poly resultLow + X ^ 64 * poly resultMiddle +
      quotient * poly (resultMiddle >>> 64)

/-- Two folds reduce a product that is given by its three parts. -/
theorem Folds.reduce_reduce {reduce : BitVec 128 → BitVec 128 → BitVec 128}
    (hreduce : Folds reduce) {low middle high : BitVec 128} {p : (ZMod 2)[X]}
    (h : poly low + X ^ 64 * (poly middle + X ^ 64 * poly high) = p) :
    poly (reduce low (reduce middle high)) = p %ₘ quotient := by
  apply poly_eq_modByMonic
    (q := X ^ 64 * poly (high >>> 64) + poly (reduce middle high >>> 64))
  rw [hreduce, hreduce, ← h]
  linear_combination (X ^ 64 * quotient * poly (high >>> 64) +
    quotient * poly (reduce middle high >>> 64)) * two_eq_zero

/-- The upper half shifted down, times the lower terms of the quotient
polynomial, takes the place of the upper half. -/
theorem folds_of_lowerTerms {reduce : BitVec 128 → BitVec 128 → BitVec 128}
    (h : ∀ low middle, poly (reduce low middle) =
      poly low + poly (middle <<< 64) + lowerTerms * poly (middle >>> 64)) :
    Folds reduce := by
  intro low middle
  have hpow : (X : (ZMod 2)[X]) ^ 128 = X ^ 64 * X ^ 64 := pow_add X 64 64
  have hsplit := poly_split 64 middle
  rw [h, poly_shiftLeft (v := 64) rfl, quotient_eq, hpow]
  linear_combination -X ^ 64 * hsplit -
    X ^ 64 * X ^ 64 * poly (middle >>> 64) * two_eq_zero

end Longfellow.Field2_128
