/-
The field with `2^128` elements as a field: its multiplication is that of the
polynomials modulo the quotient polynomial, which is irreducible.
-/
import Longfellow.Fields.Field2128
import Longfellow.Fields.Field2128.BackendBitSlicing
import Longfellow.Lib.Irreducibility
import Mathlib.Algebra.CharP.Two

namespace Longfellow.Field2_128

open Polynomial BinaryPolynomial

/-- All backends multiply alike; this is the one without instructions of the
processor. -/
instance : Mul Field2_128 :=
  ⟨fun x y => ⟨BackendBitSlicing.galoisMultiply x.bits y.bits⟩⟩

instance : Neg Field2_128 := ⟨fun x => x⟩

/-- Square an element. -/
def square (x : Field2_128) : Field2_128 :=
  ⟨BackendBitSlicing.galoisSquare x.bits⟩

instance : NatCast Field2_128 := ⟨fun n => if n % 2 = 1 then 1 else 0⟩

instance : IntCast Field2_128 := ⟨fun n => if n % 2 = 1 then 1 else 0⟩

section Embedding

/-- The class of the polynomial of an element. -/
noncomputable def toRoot (x : Field2_128) : AdjoinRoot quotient :=
  AdjoinRoot.mk quotient (poly x.bits)

theorem mk_modByMonic (p : (ZMod 2)[X]) :
    AdjoinRoot.mk quotient (p %ₘ quotient) = AdjoinRoot.mk quotient p := by
  rw [AdjoinRoot.mk_eq_mk]
  refine ⟨-(p /ₘ quotient), ?_⟩
  have h := modByMonic_add_div p quotient
  linear_combination h

theorem toRoot_injective : Function.Injective toRoot := by
  intro x y h
  rw [toRoot, toRoot, AdjoinRoot.mk_eq_mk] at h
  have hdegree : (poly x.bits - poly y.bits).degree < quotient.degree := by
    apply (degree_sub_le _ _).trans_lt
    rw [degree_quotient]
    exact max_lt (degree_poly_lt _) (degree_poly_lt _)
  have hzero := eq_zero_of_dvd_of_degree_lt h hdegree
  have hbits := poly_injective (sub_eq_zero.mp hzero)
  cases x
  cases y
  rw [mk.injEq]
  exact hbits

theorem poly_one : poly (1 : BitVec 128) = 1 := by
  ext i
  rw [coeff_poly, coeff_one]
  rcases i with _ | i
  · rfl
  · simp

theorem toRoot_zero : toRoot 0 = 0 := by
  change AdjoinRoot.mk quotient (poly (0 : BitVec 128)) = 0
  rw [poly_zero, map_zero]

theorem toRoot_one : toRoot 1 = 1 := by
  change AdjoinRoot.mk quotient (poly (1 : BitVec 128)) = 1
  rw [poly_one, map_one]

theorem toRoot_add (x y : Field2_128) : toRoot (x + y) = toRoot x + toRoot y := by
  change AdjoinRoot.mk quotient (poly (x.bits ^^^ y.bits)) = _
  rw [poly_xor, map_add]
  rfl

theorem toRoot_mul (x y : Field2_128) : toRoot (x * y) = toRoot x * toRoot y := by
  change AdjoinRoot.mk quotient
    (poly (BackendBitSlicing.galoisMultiply x.bits y.bits)) = _
  rw [BackendBitSlicing.poly_galoisMultiply, mk_modByMonic, map_mul]
  rfl

theorem toRoot_square (x : Field2_128) : toRoot x.square = toRoot x ^ 2 := by
  change AdjoinRoot.mk quotient
    (poly (BackendBitSlicing.galoisSquare x.bits)) = _
  rw [BackendBitSlicing.poly_galoisSquare, mk_modByMonic, map_mul, pow_two]
  rfl

theorem root_two_eq_zero : (2 : AdjoinRoot quotient) = 0 := by
  have h := congrArg (AdjoinRoot.mk quotient) two_eq_zero
  rwa [map_zero, map_ofNat] at h

theorem root_natCast (n : Nat) :
    (n : AdjoinRoot quotient) = if n % 2 = 1 then 1 else 0 := by
  conv_lhs => rw [← Nat.div_add_mod n 2]
  rw [Nat.cast_add, Nat.cast_mul, Nat.cast_ofNat, root_two_eq_zero, zero_mul,
    zero_add]
  rcases Nat.mod_two_eq_zero_or_one n with h | h
  · rw [h, Nat.cast_zero, if_neg (by decide)]
  · rw [h, Nat.cast_one, if_pos rfl]

theorem root_intCast (n : ℤ) :
    (n : AdjoinRoot quotient) = if n % 2 = 1 then 1 else 0 := by
  conv_lhs => rw [← Int.mul_ediv_add_emod n 2]
  rw [Int.cast_add, Int.cast_mul, Int.cast_ofNat, root_two_eq_zero, zero_mul,
    zero_add]
  rcases Int.emod_two_eq_zero_or_one n with h | h
  · rw [h, Int.cast_zero, if_neg (by decide)]
  · rw [h, Int.cast_one, if_pos rfl]

theorem toRoot_ite (p : Prop) [Decidable p] (x y : Field2_128) :
    toRoot (if p then x else y) = if p then toRoot x else toRoot y := by
  by_cases hp : p
  · rw [if_pos hp, if_pos hp]
  · rw [if_neg hp, if_neg hp]

theorem root_neg (x : AdjoinRoot quotient) : -x = x := by
  linear_combination -x * root_two_eq_zero

theorem toRoot_sub (x y : Field2_128) : toRoot (x - y) = toRoot x - toRoot y := by
  rw [sub_eq_add_neg, root_neg, ← toRoot_add]
  rfl

theorem toRoot_neg (x : Field2_128) : toRoot (-x) = -toRoot x :=
  (root_neg (toRoot x)).symm

theorem toRoot_natCast (n : Nat) : toRoot (n : Field2_128) = n := by
  change toRoot (if n % 2 = 1 then 1 else 0) = _
  rw [toRoot_ite, toRoot_zero, toRoot_one, root_natCast]

theorem toRoot_intCast (n : ℤ) : toRoot (n : Field2_128) = n := by
  change toRoot (if n % 2 = 1 then 1 else 0) = _
  rw [toRoot_ite, toRoot_zero, toRoot_one, root_intCast]

end Embedding

instance : CommRing Field2_128 where
  add_assoc x y z := toRoot_injective (by simp only [toRoot_add, add_assoc])
  zero_add x := toRoot_injective (by simp only [toRoot_add, toRoot_zero, zero_add])
  add_zero x := toRoot_injective (by simp only [toRoot_add, toRoot_zero, add_zero])
  add_comm x y := toRoot_injective (by
    simp only [toRoot_add, add_comm (toRoot x)])
  neg_add_cancel x := toRoot_injective (by
    simp only [toRoot_add, toRoot_neg, toRoot_zero, neg_add_cancel])
  sub_eq_add_neg x y := toRoot_injective (by
    simp only [toRoot_add, toRoot_neg, toRoot_sub, sub_eq_add_neg])
  natCast_zero := rfl
  natCast_succ n := toRoot_injective (by
    simp only [toRoot_natCast, toRoot_add, toRoot_one, Nat.cast_succ])
  intCast_ofNat n := toRoot_injective (by
    simp only [toRoot_natCast, toRoot_intCast, Int.cast_natCast])
  intCast_negSucc n := toRoot_injective (by
    simp only [toRoot_natCast, toRoot_intCast, toRoot_neg, Int.cast_negSucc])
  left_distrib x y z := toRoot_injective (by
    simp only [toRoot_add, toRoot_mul, left_distrib])
  right_distrib x y z := toRoot_injective (by
    simp only [toRoot_add, toRoot_mul, right_distrib])
  zero_mul x := toRoot_injective (by simp only [toRoot_mul, toRoot_zero, zero_mul])
  mul_zero x := toRoot_injective (by simp only [toRoot_mul, toRoot_zero, mul_zero])
  mul_assoc x y z := toRoot_injective (by simp only [toRoot_mul, mul_assoc])
  one_mul x := toRoot_injective (by simp only [toRoot_mul, toRoot_one, one_mul])
  mul_one x := toRoot_injective (by simp only [toRoot_mul, toRoot_one, mul_one])
  mul_comm x y := toRoot_injective (by
    simp only [toRoot_mul, mul_comm (toRoot x)])
  nsmul := nsmulRec
  zsmul := zsmulRec

theorem square_eq (x : Field2_128) : x.square = x ^ 2 := by
  apply toRoot_injective
  rw [toRoot_square, pow_two, pow_two, toRoot_mul]

section Irreducible

/-- Square an element a number of times. -/
def squares : Nat → Field2_128 → Field2_128
  | 0, x => x
  | k + 1, x => squares k x.square

theorem squares_eq (k : Nat) (x : Field2_128) : squares k x = x ^ 2 ^ k := by
  induction k generalizing x with
  | zero => rw [squares, pow_zero, pow_one]
  | succ k ih => rw [squares, ih, square_eq, ← pow_mul, ← pow_succ']

theorem toRoot_pow (x : Field2_128) (n : Nat) : toRoot (x ^ n) = toRoot x ^ n := by
  induction n with
  | zero => rw [pow_zero, pow_zero, toRoot_one]
  | succ n ih => rw [pow_succ, pow_succ, toRoot_mul, ih]

/-- The class of the variable. -/
def generator : Field2_128 := ⟨2⟩

theorem toRoot_generator : toRoot generator = AdjoinRoot.mk quotient X := by
  have hpoly : poly (2 : BitVec 128) = X := by
    have htwo : (2 : BitVec 128) = (1 : BitVec 128) <<< 1 := by decide
    rw [htwo, poly_shiftLeft_of_zeros, poly_one, mul_one, pow_one]
    intro i hi
    have hpos : i ≠ 0 := by omega
    simp [hpos]
  change AdjoinRoot.mk quotient (poly (2 : BitVec 128)) = _
  rw [hpoly]

theorem mk_X_pow (k : Nat) :
    AdjoinRoot.mk quotient (X ^ 2 ^ k) = toRoot (squares k generator) := by
  rw [squares_eq, toRoot_pow, toRoot_generator, map_pow]

theorem isCoprime_of_mul_eq_one {p q : (ZMod 2)[X]}
    (h : AdjoinRoot.mk quotient (p * q) = 1) : IsCoprime quotient q := by
  rw [← map_one (AdjoinRoot.mk quotient), AdjoinRoot.mk_eq_mk] at h
  obtain ⟨r, hr⟩ := h
  refine ⟨-r, p, ?_⟩
  linear_combination hr

/-- The quotient polynomial divides `X ^ 2 ^ 128 - X`, and has no common factor
with `X ^ 2 ^ 64 - X`. -/
theorem irreducible_quotient : Irreducible quotient := by
  apply irreducible_of_isCoprime (m := 6)
  · exact natDegree_eq_of_degree_eq_some degree_quotient
  · rw [Nat.card_zmod, ← AdjoinRoot.mk_eq_zero, map_sub]
    change AdjoinRoot.mk quotient (X ^ 2 ^ 128) - _ = 0
    have hsquares : squares 128 generator = generator := by decide +kernel
    rw [mk_X_pow, hsquares, toRoot_generator, sub_self]
  · -- the inverse of the other polynomial modulo this one
    have hinverse : (⟨0x9e4af928ddbc838a41a8cafd2c95b018⟩ : Field2_128) *
        (squares 64 generator - generator) = 1 := by decide +kernel
    have hroot (p : (ZMod 2)[X]) (hp : AdjoinRoot.mk quotient p =
        toRoot (squares 64 generator)) : IsCoprime quotient (p - X) := by
      apply isCoprime_of_mul_eq_one
        (p := poly (0x9e4af928ddbc838a41a8cafd2c95b018 : BitVec 128))
      rw [map_mul, map_sub, hp, ← toRoot_generator, ← toRoot_sub, ← toRoot_one,
        ← hinverse, toRoot_mul]
      rfl
    rw [Nat.card_zmod]
    exact hroot _ (mk_X_pow 64)

instance : Fact (Irreducible quotient) := ⟨irreducible_quotient⟩

end Irreducible

section Field

instance : Finite Field2_128 := by
  apply Finite.of_injective (fun x : Field2_128 => x.bits.toFin)
  intro x y h
  cases x
  cases y
  rw [mk.injEq]
  exact BitVec.eq_of_toFin_eq h

instance : Nontrivial Field2_128 := ⟨0, 1, by decide⟩

instance : IsDomain Field2_128 where
  mul_left_cancel_of_ne_zero {x} hx y z h := by
    have hroot := congrArg toRoot h
    simp only [toRoot_mul] at hroot
    apply toRoot_injective
    apply mul_left_cancel₀ _ hroot
    intro hzero
    exact hx (toRoot_injective (hzero.trans toRoot_zero.symm))
  mul_right_cancel_of_ne_zero {x} hx y z h := by
    have hroot := congrArg toRoot h
    simp only [toRoot_mul] at hroot
    apply toRoot_injective
    apply mul_right_cancel₀ _ hroot
    intro hzero
    exact hx (toRoot_injective (hzero.trans toRoot_zero.symm))

noncomputable instance : Inv Field2_128 := ⟨Ring.inverse⟩

noncomputable instance : Field Field2_128 where
  exists_pair_ne := ⟨0, 1, zero_ne_one⟩
  mul_inv_cancel x hx := by
    apply Ring.mul_inverse_cancel
    exact (IsLeftCancelMulZero.mul_left_cancel_of_ne_zero hx).isUnit_of_finite
  inv_zero := Ring.inverse_zero _
  nnqsmul := _
  nnqsmul_def _ _ := rfl
  qsmul := _
  qsmul_def _ _ := rfl

instance : CharP Field2_128 2 := by
  apply CharTwo.of_one_ne_zero_of_two_eq_zero one_ne_zero
  rfl

end Field

end Longfellow.Field2_128
