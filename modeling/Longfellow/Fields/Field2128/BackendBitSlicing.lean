/-
The fallback multiplication of the field with `2^128` elements: carry-less
products from integer products of masked arguments, put together by Karatsuba's
method.
-/
import Longfellow.Fields.Field2128.Quotient

namespace Longfellow.Field2_128.BackendBitSlicing

open Polynomial BinaryPolynomial

def mask0 : BitVec 64 := 0x1111111111111111

def mask1 : BitVec 64 := 0x2222222222222222

def mask2 : BitVec 64 := 0x4444444444444444

def mask3 : BitVec 64 := 0x8888888888888888

/-- Every fourth bit of an argument. -/
def masked (x : BitVec 32) (mask : BitVec 64) : BitVec 64 :=
  (x &&& mask.setWidth 32).setWidth 64

/-- Carryless multiplication of two 32-bit arguments. -/
def clmul32 (x y : BitVec 32) : BitVec 64 :=
  let x0 := masked x mask0
  let x1 := masked x mask1
  let x2 := masked x mask2
  let x3 := masked x mask3
  let y0 := masked y mask0
  let y1 := masked y mask1
  let y2 := masked y mask2
  let y3 := masked y mask3
  let z0 := ((x0 * y0) ^^^ (x1 * y3) ^^^ (x2 * y2) ^^^ (x3 * y1)) &&& mask0
  let z1 := ((x0 * y1) ^^^ (x1 * y0) ^^^ (x2 * y3) ^^^ (x3 * y2)) &&& mask1
  let z2 := ((x0 * y2) ^^^ (x1 * y1) ^^^ (x2 * y0) ^^^ (x3 * y3)) &&& mask2
  let z3 := ((x0 * y3) ^^^ (x1 * y2) ^^^ (x2 * y1) ^^^ (x3 * y0)) &&& mask3
  z0 ||| z1 ||| z2 ||| z3

/-- Carryless multiplication of two 64-bit arguments. -/
def clmul64 (x y : BitVec 64) : BitVec 128 :=
  let xLo := x.setWidth 32
  let xHi := (x >>> 32).setWidth 32
  let yLo := y.setWidth 32
  let yHi := (y >>> 32).setWidth 32
  let r1 := clmul32 xLo yLo
  let r4 := clmul32 xHi yHi
  let pPrime := xLo ^^^ xHi
  let qPrime := yLo ^^^ yHi
  let s := clmul32 pPrime qPrime
  let t := s ^^^ r1 ^^^ r4
  let resultLow := r1 ^^^ (t <<< 32)
  let resultHigh := (t >>> 32) ^^^ r4
  resultLow.setWidth 128 ||| (resultHigh.setWidth 128 <<< 64)

/-- Reduce an intermediate 192-bit result by the quotient polynomial. -/
def reduce (resultLow resultMiddle : BitVec 128) : BitVec 128 :=
  let temp := resultMiddle >>> 64
  resultLow ^^^ (resultMiddle <<< 64) ^^^ temp ^^^ (temp <<< 1) ^^^
    (temp <<< 2) ^^^ (temp <<< 7)

/-- Multiply two elements. -/
def galoisMultiply (x y : BitVec 128) : BitVec 128 :=
  let r1 := clmul64 (x.setWidth 64) (y.setWidth 64)
  let r4 := clmul64 ((x >>> 64).setWidth 64) ((y >>> 64).setWidth 64)
  let pPrime := x.setWidth 64 ^^^ (x >>> 64).setWidth 64
  let qPrime := y.setWidth 64 ^^^ (y >>> 64).setWidth 64
  let s := clmul64 pPrime qPrime
  let t := s ^^^ r1 ^^^ r4
  let intermediateMiddle := reduce t r4
  reduce r1 intermediateMiddle

/-- Interleave the bits of the input with zeroes. -/
def galoisSquareU64Widening (x : BitVec 64) : BitVec 128 :=
  let x := x.setWidth 128
  let x := (x ||| (x <<< 32)) &&& 0x00000000FFFFFFFF00000000FFFFFFFF
  let x := (x ||| (x <<< 16)) &&& 0x0000FFFF0000FFFF0000FFFF0000FFFF
  let x := (x ||| (x <<< 8)) &&& 0x00FF00FF00FF00FF00FF00FF00FF00FF
  let x := (x ||| (x <<< 4)) &&& 0x0F0F0F0F0F0F0F0F0F0F0F0F0F0F0F0F
  let x := (x ||| (x <<< 2)) &&& 0x33333333333333333333333333333333
  (x ||| (x <<< 1)) &&& 0x55555555555555555555555555555555

/-- Square an element. -/
def galoisSquare (x : BitVec 128) : BitVec 128 :=
  let productHigh := galoisSquareU64Widening ((x >>> 64).setWidth 64)
  let productLow := galoisSquareU64Widening (x.setWidth 64)
  let intermediateMiddle := reduce 0 productHigh
  reduce productLow intermediateMiddle

section Products

/-- A mask of every fourth bit. -/
def IsMask (k : Nat) (mask : BitVec 64) : Prop :=
  ∀ i, i < 64 → mask.getLsbD i = decide (i % 4 = k)

theorem isMask_mask0 : IsMask 0 mask0 := by
  unfold IsMask
  decide

theorem isMask_mask1 : IsMask 1 mask1 := by
  unfold IsMask
  decide

theorem isMask_mask2 : IsMask 2 mask2 := by
  unfold IsMask
  decide

theorem isMask_mask3 : IsMask 3 mask3 := by
  unfold IsMask
  decide

variable {k : Nat} {mask : BitVec 64}

theorem getLsbD_and_mask (hmask : IsMask k mask) (x : BitVec 64) (i : Nat) :
    (x &&& mask).getLsbD i = (x.getLsbD i && decide (i % 4 = k)) := by
  rw [BitVec.getLsbD_and]
  by_cases hi : i < 64
  · rw [hmask i hi]
  · rw [BitVec.getLsbD_of_ge x i (Nat.not_lt.mp hi), Bool.false_and,
      Bool.false_and]

theorem getLsbD_masked (hmask : IsMask k mask) (x : BitVec 32) (i : Nat) :
    (masked x mask).getLsbD i = (x.getLsbD i && decide (i % 4 = k)) := by
  rw [masked, BitVec.getLsbD_setWidth, BitVec.getLsbD_and,
    BitVec.getLsbD_setWidth]
  by_cases hi : i < 32
  · rw [hmask i (by omega)]
    simp [hi, show i < 64 by omega]
  · simp [BitVec.getLsbD_of_ge x i (by omega)]

theorem holes_masked (hmask : IsMask k mask) (x : BitVec 32) :
    Holes k (masked x mask) := by
  intro i hi
  rw [getLsbD_masked hmask, Bool.and_eq_true, decide_eq_true_eq] at hi
  constructor
  · exact BitVec.lt_of_getLsbD hi.1
  · exact hi.2

/-- An argument is the sum of its four masked parts. -/
theorem poly_masked (x : BitVec 32) :
    poly x = poly (masked x mask0) + poly (masked x mask1) +
      poly (masked x mask2) + poly (masked x mask3) := by
  ext i
  simp only [coeff_add, coeff_poly, getLsbD_masked isMask_mask0,
    getLsbD_masked isMask_mask1, getLsbD_masked isMask_mask2,
    getLsbD_masked isMask_mask3]
  have hmod := Nat.mod_lt i (by omega : 4 > 0)
  by_cases hbit : x.getLsbD i
  · interval_cases i % 4 <;> simp [hbit]
  · simp [hbit]

/-- The four classes of bits are added by disjunction. -/
theorem poly_or_masks (x y z w : BitVec 64) :
    poly (x &&& mask0 ||| y &&& mask1 ||| z &&& mask2 ||| w &&& mask3) =
      poly (x &&& mask0) + poly (y &&& mask1) + poly (z &&& mask2) +
        poly (w &&& mask3) := by
  ext i
  simp only [coeff_add, coeff_poly, BitVec.getLsbD_or,
    getLsbD_and_mask isMask_mask0, getLsbD_and_mask isMask_mask1,
    getLsbD_and_mask isMask_mask2, getLsbD_and_mask isMask_mask3]
  have hmod := Nat.mod_lt i (by omega : 4 > 0)
  interval_cases i % 4 <;> simp

/-- An integer product of two masked arguments, at the bits that no carry
reaches. -/
theorem poly_masked_mul {a b : Nat} {maskA maskB : BitVec 64}
    (ha : IsMask a maskA) (hb : IsMask b maskB) (hmask : IsMask k mask)
    (hk : (a + b) % 4 = k) (x y : BitVec 32) :
    poly ((masked x maskA * masked y maskB) &&& mask) =
      poly (masked x maskA) * poly (masked y maskB) := by
  apply poly_mul_and (holes_masked ha x) (holes_masked hb y)
  rw [hk]
  exact hmask

theorem poly_clmul32 (x y : BitVec 32) :
    poly (clmul32 x y) = poly x * poly y := by
  have h0 := isMask_mask0
  have h1 := isMask_mask1
  have h2 := isMask_mask2
  have h3 := isMask_mask3
  simp only [clmul32, poly_or_masks, poly_xor_and]
  rw [poly_masked_mul h0 h0 h0 rfl, poly_masked_mul h1 h3 h0 rfl,
    poly_masked_mul h2 h2 h0 rfl, poly_masked_mul h3 h1 h0 rfl,
    poly_masked_mul h0 h1 h1 rfl, poly_masked_mul h1 h0 h1 rfl,
    poly_masked_mul h2 h3 h1 rfl, poly_masked_mul h3 h2 h1 rfl,
    poly_masked_mul h0 h2 h2 rfl, poly_masked_mul h1 h1 h2 rfl,
    poly_masked_mul h2 h0 h2 rfl, poly_masked_mul h3 h3 h2 rfl,
    poly_masked_mul h0 h3 h3 rfl, poly_masked_mul h1 h2 h3 rfl,
    poly_masked_mul h2 h1 h3 rfl, poly_masked_mul h3 h0 h3 rfl,
    poly_masked x, poly_masked y]
  ring

theorem poly_clmul64 (x y : BitVec 64) :
    poly (clmul64 x y) = poly x * poly y := by
  simp only [clmul64]
  rw [poly_join (w := 128) (v := 64) (u := 64) rfl, poly_xor, poly_xor, poly_shiftLeft (v := 32) rfl,
    poly_halves (v := 32) (u := 32) rfl x,
    poly_halves (v := 32) (u := 32) rfl y]
  generalize hr1 : clmul32 (x.setWidth 32) (y.setWidth 32) = r1
  generalize hr4 : clmul32 ((x >>> 32).setWidth 32) ((y >>> 32).setWidth 32) =
    r4
  generalize hs : clmul32 (x.setWidth 32 ^^^ (x >>> 32).setWidth 32)
    (y.setWidth 32 ^^^ (y >>> 32).setWidth 32) = s
  have hmiddle := poly_split 32 (s ^^^ r1 ^^^ r4)
  have hkaratsuba := karatsuba (poly (x.setWidth 32))
    (poly ((x >>> 32).setWidth 32)) (poly (y.setWidth 32))
    (poly ((y >>> 32).setWidth 32))
  rw [poly_xor, poly_xor] at hmiddle
  rw [← poly_xor, ← poly_xor, ← poly_clmul32, ← poly_clmul32, ← poly_clmul32,
    hr1, hr4, hs] at hkaratsuba
  have hlow := poly_clmul32 (x.setWidth 32) (y.setWidth 32)
  have hhigh := poly_clmul32 ((x >>> 32).setWidth 32) ((y >>> 32).setWidth 32)
  rw [hr1] at hlow
  rw [hr4] at hhigh
  linear_combination hlow - X ^ 32 * hmiddle + X ^ 32 * hkaratsuba +
    X ^ 64 * hhigh

end Products

section Multiplication

theorem folds_reduce : Folds reduce := by
  apply folds_of_lowerTerms
  intro low middle
  have hzeros : ∀ k, k ≤ 64 → ∀ i, 128 ≤ k + i →
      (middle >>> 64).getLsbD i = false := by
    intro k hk i hi
    rw [BitVec.getLsbD_ushiftRight]
    exact BitVec.getLsbD_of_ge middle _ (by omega)
  simp only [reduce, poly_xor]
  rw [poly_shiftLeft_of_zeros (hzeros 1 (by omega)),
    poly_shiftLeft_of_zeros (hzeros 2 (by omega)),
    poly_shiftLeft_of_zeros (hzeros 7 (by omega)), lowerTerms]
  ring

/-- The fallback multiplication is the reduced product of polynomials. -/
theorem poly_galoisMultiply (x y : BitVec 128) :
    poly (galoisMultiply x y) = (poly x * poly y) %ₘ quotient := by
  have hkaratsuba := karatsuba (poly (x.setWidth 64))
    (poly ((x >>> 64).setWidth 64)) (poly (y.setWidth 64))
    (poly ((y >>> 64).setWidth 64))
  apply folds_reduce.reduce_reduce
  simp only [poly_xor, poly_clmul64]
  rw [hkaratsuba, poly_halves (v := 64) (u := 64) rfl x,
    poly_halves (v := 64) (u := 64) rfl y]
  ring

theorem poly_galoisSquareU64Widening (x : BitVec 64) :
    poly (galoisSquareU64Widening x) = poly x ^ 2 := by
  have h64 : Spread 64 (x.setWidth 128) x :=
    spread_setWidth (by omega) (by omega) x
  have h32 := Spread.halve (g := 32) h64
    0x00000000FFFFFFFF00000000FFFFFFFF (by decide)
  have h16 := Spread.halve (g := 16) h32
    0x0000FFFF0000FFFF0000FFFF0000FFFF (by decide)
  have h8 := Spread.halve (g := 8) h16
    0x00FF00FF00FF00FF00FF00FF00FF00FF (by decide)
  have h4 := Spread.halve (g := 4) h8
    0x0F0F0F0F0F0F0F0F0F0F0F0F0F0F0F0F (by decide)
  have h2 := Spread.halve (g := 2) h4
    0x33333333333333333333333333333333 (by decide)
  have h1 := Spread.halve (g := 1) h2
    0x55555555555555555555555555555555 (by decide)
  exact h1.poly_eq_sq (by omega)

/-- The fallback square is the reduced square of the polynomial. -/
theorem poly_galoisSquare (x : BitVec 128) :
    poly (galoisSquare x) = (poly x * poly x) %ₘ quotient := by
  apply folds_reduce.reduce_reduce
  rw [poly_galoisSquareU64Widening, poly_galoisSquareU64Widening, poly_zero,
    poly_halves (v := 64) (u := 64) rfl x]
  linear_combination (-(X ^ 64 * poly (x.setWidth 64) *
    poly ((x >>> 64).setWidth 64))) * two_eq_zero

end Multiplication

end Longfellow.Field2_128.BackendBitSlicing
