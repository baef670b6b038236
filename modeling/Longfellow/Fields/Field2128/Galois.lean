/-
Multiplication in the field with `2^128` elements: the choice of a backend, and
the agreement of all of them with the product of polynomials.
-/
import Longfellow.Fields.Field2128.BackendBitSlicing
import Longfellow.Fields.Field2128.BackendClmul
import Longfellow.Fields.Field2128.BackendNaiveLoop

namespace Longfellow.Field2_128

open Polynomial BinaryPolynomial

/-- The architecture that the crate is compiled for. -/
inductive TargetArch where
  | x86 (target : BackendX86.Target)
  | aarch64
  | other
deriving DecidableEq, Repr

/-- Multiply two elements.  The features are those that the processor is found
to have at run time. -/
def galoisMultiply (clmul : BitVec 64 → BitVec 64 → BitVec 128) :
    TargetArch → Bool → BitVec 128 → BitVec 128 → BitVec 128
  | .x86 target, true => BackendX86.galoisMultiply clmul target
  | .aarch64, true => BackendAarch64.galoisMultiply clmul
  | _, _ => BackendBitSlicing.galoisMultiply

/-- Square an element. -/
def galoisSquare (clmul : BitVec 64 → BitVec 64 → BitVec 128) :
    TargetArch → Bool → BitVec 128 → BitVec 128
  | .x86 target, true => BackendX86.galoisSquare clmul target
  | .aarch64, true => BackendAarch64.galoisSquare clmul
  | _, _ => BackendBitSlicing.galoisSquare

theorem poly_galoisMultiply {clmul : BitVec 64 → BitVec 64 → BitVec 128}
    (h : CarrylessMultiply clmul) (arch : TargetArch) (features : Bool)
    (x y : BitVec 128) :
    poly (galoisMultiply clmul arch features x y) =
      (poly x * poly y) %ₘ quotient := by
  have hfallback := BackendBitSlicing.poly_galoisMultiply x y
  cases arch with
  | x86 target =>
      cases features with
      | false => exact hfallback
      | true => exact BackendX86.poly_galoisMultiply h target x y
  | aarch64 =>
      cases features with
      | false => exact hfallback
      | true => exact BackendAarch64.poly_galoisMultiply h x y
  | other => exact hfallback

theorem poly_galoisSquare {clmul : BitVec 64 → BitVec 64 → BitVec 128}
    (h : CarrylessMultiply clmul) (arch : TargetArch) (features : Bool)
    (x : BitVec 128) :
    poly (galoisSquare clmul arch features x) =
      (poly x * poly x) %ₘ quotient := by
  have hfallback := BackendBitSlicing.poly_galoisSquare x
  cases arch with
  | x86 target =>
      cases features with
      | false => exact hfallback
      | true => exact BackendX86.poly_galoisSquare h target x
  | aarch64 =>
      cases features with
      | false => exact hfallback
      | true => exact BackendAarch64.poly_galoisSquare h x
  | other => exact hfallback

/-- Every backend computes the product of polynomials reduced by the quotient
polynomial, and squares as it multiplies.  Where a backend uses a carry-less
multiply instruction, the instruction is any function that multiplies
polynomials. -/
theorem backends_agree :
    (∀ x y, poly (BackendBitSlicing.galoisMultiply x y) =
        (poly x * poly y) %ₘ quotient) ∧
      (∀ x y, poly (BackendNaiveLoop.galoisMultiply x y) =
        (poly x * poly y) %ₘ quotient) ∧
      (∀ x, BackendBitSlicing.galoisSquare x =
        BackendBitSlicing.galoisMultiply x x) ∧
      (∀ x, BackendNaiveLoop.galoisSquare x =
        BackendNaiveLoop.galoisMultiply x x) ∧
      ∀ clmul, CarrylessMultiply clmul →
        (∀ target x y, poly (BackendX86.galoisMultiply clmul target x y) =
          (poly x * poly y) %ₘ quotient) ∧
        (∀ x y, poly (BackendAarch64.galoisMultiply clmul x y) =
          (poly x * poly y) %ₘ quotient) ∧
        (∀ target x, BackendX86.galoisSquare clmul target x =
          BackendX86.galoisMultiply clmul target x x) ∧
        (∀ x, BackendAarch64.galoisSquare clmul x =
          BackendAarch64.galoisMultiply clmul x x) ∧
        (∀ arch features x y, galoisMultiply clmul arch features x y =
          BackendNaiveLoop.galoisMultiply x y) ∧
        ∀ arch features x, galoisSquare clmul arch features x =
          galoisMultiply clmul arch features x x := by
  refine ⟨BackendBitSlicing.poly_galoisMultiply,
    BackendNaiveLoop.poly_galoisMultiply, ?_, fun _ => rfl, ?_⟩
  · intro x
    apply poly_injective
    rw [BackendBitSlicing.poly_galoisSquare,
      BackendBitSlicing.poly_galoisMultiply]
  · intro clmul h
    refine ⟨BackendX86.poly_galoisMultiply h,
      BackendAarch64.poly_galoisMultiply h, ?_, ?_, ?_, ?_⟩
    · intro target x
      apply poly_injective
      rw [BackendX86.poly_galoisSquare h, BackendX86.poly_galoisMultiply h]
    · intro x
      apply poly_injective
      rw [BackendAarch64.poly_galoisSquare h,
        BackendAarch64.poly_galoisMultiply h]
    · intro arch features x y
      apply poly_injective
      rw [poly_galoisMultiply h, BackendNaiveLoop.poly_galoisMultiply]
    · intro arch features x
      apply poly_injective
      rw [poly_galoisSquare h, poly_galoisMultiply h]

/-- With the bit-slicing product in the place of the instruction, `X ^ 64` times
itself is the lower terms of the quotient polynomial. -/
theorem backends_agree_clmul64 :
    CarrylessMultiply BackendBitSlicing.clmul64 ∧
      poly (BackendX86.galoisMultiply BackendBitSlicing.clmul64 .x86_64
        0x10000000000000000 0x10000000000000000) =
          (poly (0x10000000000000000 : BitVec 128) *
            poly (0x10000000000000000 : BitVec 128)) %ₘ quotient ∧
      BackendX86.galoisMultiply BackendBitSlicing.clmul64 .x86_64
        0x10000000000000000 0x10000000000000000 = 0x87 := by
  have h : CarrylessMultiply BackendBitSlicing.clmul64 :=
    BackendBitSlicing.poly_clmul64
  obtain ⟨-, -, -, -, hagree⟩ := backends_agree
  exact ⟨h, (hagree BackendBitSlicing.clmul64 h).1 .x86_64 _ _,
    by decide⟩

end Longfellow.Field2_128
