/-
The multiplications of the field with `2^128` elements that use a carry-less
multiply instruction, on x86 and on AArch64.  The instruction is a parameter.
-/
import Longfellow.Fields.Field2128.Quotient

namespace Longfellow.Field2_128

open Polynomial BinaryPolynomial

/-- What the carry-less multiply instruction does: it multiplies polynomials. -/
def CarrylessMultiply (clmul : BitVec 64 → BitVec 64 → BitVec 128) : Prop :=
  ∀ a b, poly (clmul a b) = poly a * poly b

theorem poly_0x87 : poly (0x87 : BitVec 64) = lowerTerms := by
  have hbits : (0x87 : BitVec 64) =
      (1 : BitVec 64) <<< 7 ^^^ (1 : BitVec 64) <<< 2 ^^^
        (1 : BitVec 64) <<< 1 ^^^ (1 : BitVec 64) := by decide
  have hone : poly (1 : BitVec 64) = 1 := by
    ext i
    rw [coeff_poly, coeff_one]
    rcases i with _ | i
    · rfl
    · simp
  have hshift (k : Nat) (hk : k < 64) :
      poly ((1 : BitVec 64) <<< k) = X ^ k := by
    rw [poly_shiftLeft_of_zeros, hone, mul_one]
    intro i hi
    have hpos : i ≠ 0 := by omega
    simp [hpos]
  rw [hbits, poly_xor, poly_xor, poly_xor, hshift 7 (by omega),
    hshift 2 (by omega), hshift 1 (by omega), hone, lowerTerms, pow_one]

/-- The product of two elements from the four products of their halves. -/
theorem schoolbook (x y : BitVec 128) :
    poly x * poly y =
      poly (x.setWidth 64) * poly (y.setWidth 64) +
        X ^ 64 * (poly ((x >>> 64).setWidth 64) * poly (y.setWidth 64) +
          poly (x.setWidth 64) * poly ((y >>> 64).setWidth 64) +
          X ^ 64 * (poly ((x >>> 64).setWidth 64) *
            poly ((y >>> 64).setWidth 64))) := by
  rw [poly_halves (v := 64) (u := 64) rfl x,
    poly_halves (v := 64) (u := 64) rfl y]
  ring

/-- The middle of a square vanishes. -/
theorem schoolbook_self (x : BitVec 128) :
    poly x * poly x =
      poly (x.setWidth 64) * poly (x.setWidth 64) +
        X ^ 64 * ((0 : (ZMod 2)[X]) + X ^ 64 * (poly ((x >>> 64).setWidth 64) *
          poly ((x >>> 64).setWidth 64))) := by
  rw [schoolbook]
  linear_combination X ^ 64 * (poly (x.setWidth 64) *
    poly ((x >>> 64).setWidth 64)) * two_eq_zero

variable (clmul : BitVec 64 → BitVec 64 → BitVec 128)

namespace BackendX86

/-- The targets with this backend, which differ in how a register is read. -/
inductive Target where
  | x86
  | x86_64
deriving DecidableEq, Repr

/-- A register from its upper and its lower quadword. -/
def mmSetEpi64x (high low : BitVec 64) : BitVec 128 := high ++ low

/-- The carry-less product of two quadwords: the lower bit of the immediate
selects one of the first register, its fifth bit one of the second. -/
def mmClmulepi64Si128 (imm : BitVec 8) (a b : BitVec 128) : BitVec 128 :=
  let left := if imm.getLsbD 0 then (a >>> 64).setWidth 64 else a.setWidth 64
  let right := if imm.getLsbD 4 then (b >>> 64).setWidth 64 else b.setWidth 64
  clmul left right

/-- Shift a register to the left by bytes. -/
def mmSlliSi128 (bytes : Nat) (a : BitVec 128) : BitVec 128 := a <<< (8 * bytes)

/-- Shift a register to the right by bytes. -/
def mmSrliSi128 (bytes : Nat) (a : BitVec 128) : BitVec 128 := a >>> (8 * bytes)

def packU128 (value : BitVec 128) : BitVec 128 :=
  mmSetEpi64x ((value >>> 64).setWidth 64) (value.setWidth 64)

def unpackU128 : Target → BitVec 128 → BitVec 128
  | .x86_64, value =>
      let low := (value.setWidth 64).setWidth 128
      let shifted := mmSrliSi128 8 value
      let high := (shifted.setWidth 64).setWidth 128
      low ||| (high <<< 64)
  | .x86, value =>
      let lane0 := (value.setWidth 32).setWidth 128
      let lane1 := ((mmSrliSi128 4 value).setWidth 32).setWidth 128
      let lane2 := ((mmSrliSi128 8 value).setWidth 32).setWidth 128
      let lane3 := ((mmSrliSi128 12 value).setWidth 32).setWidth 128
      lane0 ||| (lane1 <<< 32) ||| (lane2 <<< 64) ||| (lane3 <<< 96)

/-- Reduce an intermediate 192-bit result by the quotient polynomial. -/
def reduce (resultLow resultMiddle : BitVec 128) : BitVec 128 :=
  let product := mmClmulepi64Si128 clmul 0x01 resultMiddle (packU128 0x87)
  let middleLowHalfShifted := mmSlliSi128 8 resultMiddle
  (resultLow ^^^ middleLowHalfShifted) ^^^ product

/-- Multiply two elements. -/
def galoisMultiply (target : Target) (x y : BitVec 128) : BitVec 128 :=
  let x := packU128 x
  let y := packU128 y
  let product1 := mmClmulepi64Si128 clmul 0x00 x y
  let product2 := mmClmulepi64Si128 clmul 0x01 x y
  let product3 := mmClmulepi64Si128 clmul 0x10 x y
  let product4 := mmClmulepi64Si128 clmul 0x11 x y
  let middle := product2 ^^^ product3
  let intermediateMiddle := reduce clmul middle product4
  let reduced := reduce clmul product1 intermediateMiddle
  unpackU128 target reduced

/-- Square an element. -/
def galoisSquare (target : Target) (x : BitVec 128) : BitVec 128 :=
  let x := packU128 x
  let product1 := mmClmulepi64Si128 clmul 0x00 x x
  let product4 := mmClmulepi64Si128 clmul 0x11 x x
  let intermediateMiddle := reduce clmul (packU128 0) product4
  let reduced := reduce clmul product1 intermediateMiddle
  unpackU128 target reduced

@[simp] theorem packU128_eq (value : BitVec 128) : packU128 value = value := by
  apply BitVec.eq_of_getLsbD_eq
  intro i hi
  rw [packU128, mmSetEpi64x, BitVec.getLsbD_append, BitVec.getLsbD_setWidth,
    BitVec.getLsbD_setWidth, BitVec.getLsbD_ushiftRight]
  by_cases hlow : i < 64
  · simp [hlow]
  · have hindex : 64 + (i - 64) = i := by omega
    simp [hlow, hindex, show i - 64 < 64 by omega]

@[simp] theorem unpackU128_eq (target : Target) (value : BitVec 128) :
    unpackU128 target value = value := by
  apply BitVec.eq_of_getLsbD_eq
  intro i hi
  cases target with
  | x86_64 =>
      simp only [unpackU128, mmSrliSi128, BitVec.getLsbD_or,
        BitVec.getLsbD_shiftLeft, BitVec.getLsbD_setWidth,
        BitVec.getLsbD_ushiftRight]
      by_cases hlow : i < 64
      · simp [hi, hlow]
      · have hindex : 64 + (i - 64) = i := by omega
        simp [hi, hlow, hindex, show i - 64 < 64 by omega,
          show i - 64 < 128 by omega]
  | x86 =>
      simp only [unpackU128, mmSrliSi128, BitVec.getLsbD_or,
        BitVec.getLsbD_shiftLeft, BitVec.getLsbD_setWidth,
        BitVec.getLsbD_ushiftRight]
      by_cases h32 : i < 32
      · simp [hi, h32, show i < 64 by omega, show i < 96 by omega]
      · by_cases h64 : i < 64
        · have hindex : 32 + (i - 32) = i := by omega
          simp [hi, h32, h64, hindex, show i - 32 < 32 by omega,
            show i - 32 < 128 by omega, show i < 96 by omega]
        · by_cases h96 : i < 96
          · have hindex : 64 + (i - 64) = i := by omega
            simp [hi, h32, h64, h96, hindex, show ¬ i - 32 < 32 by omega,
              show i - 64 < 32 by omega, show i - 64 < 128 by omega]
          · have hindex : 96 + (i - 96) = i := by omega
            simp [hi, h32, h64, h96, hindex, show ¬ i - 32 < 32 by omega,
              show ¬ i - 64 < 32 by omega, show i - 96 < 32 by omega,
              show i - 96 < 128 by omega]

variable {clmul}

@[simp] theorem mmClmulepi64Si128_0x00 (a b : BitVec 128) :
    mmClmulepi64Si128 clmul 0x00 a b =
      clmul (a.setWidth 64) (b.setWidth 64) := rfl

@[simp] theorem mmClmulepi64Si128_0x01 (a b : BitVec 128) :
    mmClmulepi64Si128 clmul 0x01 a b =
      clmul ((a >>> 64).setWidth 64) (b.setWidth 64) := rfl

@[simp] theorem mmClmulepi64Si128_0x10 (a b : BitVec 128) :
    mmClmulepi64Si128 clmul 0x10 a b =
      clmul (a.setWidth 64) ((b >>> 64).setWidth 64) := rfl

@[simp] theorem mmClmulepi64Si128_0x11 (a b : BitVec 128) :
    mmClmulepi64Si128 clmul 0x11 a b =
      clmul ((a >>> 64).setWidth 64) ((b >>> 64).setWidth 64) := rfl

theorem folds_reduce (h : CarrylessMultiply clmul) : Folds (reduce clmul) := by
  apply folds_of_lowerTerms
  intro low middle
  have hproduct : mmClmulepi64Si128 clmul 0x01 middle 0x87 =
      clmul ((middle >>> 64).setWidth 64) 0x87 :=
    mmClmulepi64Si128_0x01 middle 0x87
  have hhigh : poly ((middle >>> 64).setWidth 64) = poly (middle >>> 64) := by
    apply poly_setWidth_of_zeros
    intro i hi
    rw [BitVec.getLsbD_ushiftRight]
    exact BitVec.getLsbD_of_ge middle _ (by omega)
  simp only [reduce, packU128_eq, poly_xor]
  rw [hproduct, h, hhigh, poly_0x87, mmSlliSi128]
  ring

/-- The multiplication on x86 is the reduced product of polynomials. -/
theorem poly_galoisMultiply (h : CarrylessMultiply clmul) (target : Target)
    (x y : BitVec 128) :
    poly (galoisMultiply clmul target x y) =
      (poly x * poly y) %ₘ quotient := by
  simp only [galoisMultiply, packU128_eq, unpackU128_eq,
    mmClmulepi64Si128_0x00, mmClmulepi64Si128_0x01, mmClmulepi64Si128_0x10,
    mmClmulepi64Si128_0x11]
  apply (folds_reduce h).reduce_reduce
  rw [poly_xor, h, h, h, h, schoolbook]

theorem poly_galoisSquare (h : CarrylessMultiply clmul) (target : Target)
    (x : BitVec 128) :
    poly (galoisSquare clmul target x) = (poly x * poly x) %ₘ quotient := by
  simp only [galoisSquare, packU128_eq, unpackU128_eq,
    mmClmulepi64Si128_0x00, mmClmulepi64Si128_0x11]
  apply (folds_reduce h).reduce_reduce
  rw [poly_zero, h, h, schoolbook_self]

end BackendX86

namespace BackendAarch64

/-- Reduce an intermediate 192-bit result by the quotient polynomial. -/
def reduce (resultLow resultMiddle : BitVec 128) : BitVec 128 :=
  let product := clmul ((resultMiddle >>> 64).setWidth 64) 0x87
  resultLow ^^^ (resultMiddle <<< 64) ^^^ product

/-- Multiply two elements. -/
def galoisMultiply (x y : BitVec 128) : BitVec 128 :=
  let product1 := clmul (x.setWidth 64) (y.setWidth 64)
  let product2 := clmul ((x >>> 64).setWidth 64) (y.setWidth 64)
  let product3 := clmul (x.setWidth 64) ((y >>> 64).setWidth 64)
  let product4 := clmul ((x >>> 64).setWidth 64) ((y >>> 64).setWidth 64)
  let middle := product2 ^^^ product3
  let intermediateMiddle := reduce clmul middle product4
  reduce clmul product1 intermediateMiddle

/-- Square an element. -/
def galoisSquare (x : BitVec 128) : BitVec 128 :=
  let product1 := clmul (x.setWidth 64) (x.setWidth 64)
  let product4 := clmul ((x >>> 64).setWidth 64) ((x >>> 64).setWidth 64)
  let intermediateMiddle := reduce clmul 0 product4
  reduce clmul product1 intermediateMiddle

variable {clmul}

/-- Both backends with an instruction fold in the same way. -/
theorem reduce_eq : reduce clmul = BackendX86.reduce clmul := by
  funext low middle
  rw [reduce, BackendX86.reduce, BackendX86.packU128_eq]
  rfl

theorem poly_galoisMultiply (h : CarrylessMultiply clmul) (x y : BitVec 128) :
    poly (galoisMultiply clmul x y) = (poly x * poly y) %ₘ quotient := by
  simp only [galoisMultiply, reduce_eq]
  apply (BackendX86.folds_reduce h).reduce_reduce
  rw [poly_xor, h, h, h, h, schoolbook]

theorem poly_galoisSquare (h : CarrylessMultiply clmul) (x : BitVec 128) :
    poly (galoisSquare clmul x) = (poly x * poly x) %ₘ quotient := by
  simp only [galoisSquare, reduce_eq]
  apply (BackendX86.folds_reduce h).reduce_reduce
  rw [poly_zero, h, h, schoolbook_self]

end BackendAarch64

end Longfellow.Field2_128
