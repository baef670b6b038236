/-
Field elements as the proof system uses them: a serialization format with an
optional subfield, and the evaluation points of the sumcheck polynomials.
-/
import Longfellow.Lib.Bytes
import Longfellow.Lib.Multilinear

namespace Longfellow

/-- Field identifier. -/
inductive FieldId where
  | none
  | p256
  | p384
  | p521
  | gf2_128
  | gf2_16
  | fp128
deriving DecidableEq, Repr

/-- An element of a finite field with a defined serialization format. -/
class CodecFieldElement (F : Type) where
  /-- Number of bits needed to represent a field element. -/
  numBits : Nat
  /-- Identifier for the field in encoded messages. -/
  fieldId : FieldId
  /-- The description of the field that goes into the id of a circuit. -/
  updateCircuitId : List UInt8
  /-- Read an element from exactly as many bytes as one takes. -/
  tryFrom : List UInt8 → Option F
  encode : F → List UInt8
  decode : Decoder F
  isInSubfield : F → Bool
  encodeInSubfield : F → Exec (List UInt8)
  decodeInSubfield : Decoder F

/-- Field elements used directly in proofs: the third evaluation point of the
sumcheck polynomials, and the denominators that go with it. -/
class ProofFieldElement (F : Type) extends CodecFieldElement F where
  largeCharacteristic : Bool
  sumcheckP2 : F
  sumcheckP2MulInv : F
  oneMinusSumcheckP2MulInv : F
  sumcheckP2SquaredMinusSumcheckP2MulInv : F

open CodecFieldElement ProofFieldElement

/-- Number of bytes needed to represent a field element. -/
def numBytes (F : Type) [CodecFieldElement F] : Nat := (numBits F + 7) / 8

/-- The serialization format reads back what it writes. -/
class LawfulCodec (F : Type) [CodecFieldElement F] : Prop where
  length_encode : ∀ x : F, (encode x).length = numBytes F
  decode_reads : ∀ x : F, Decoder.Reads decode (encode x) x
  decode_safe : Decoder.Safe (decode : Decoder F) fun _ => True
  decodeInSubfield_reads : ∀ x : F, isInSubfield x → ∃ bytes,
    encodeInSubfield x = .ok bytes ∧ Decoder.Reads decodeInSubfield bytes x
  decodeInSubfield_safe : Decoder.Safe (decodeInSubfield : Decoder F) fun _ => True
  encodeInSubfield_fails : ∀ x : F, ¬ isInSubfield x → ∃ message,
    encodeInSubfield x = Exec.fail message

/-- The constants are what their names say. -/
class LawfulProofField (F : Type) [Field F] [ProofFieldElement F] : Prop where
  sumcheckP2_mul_inv : (sumcheckP2 : F) * sumcheckP2MulInv = 1
  one_minus_sumcheckP2_mul_inv :
    (1 - (sumcheckP2 : F)) * oneMinusSumcheckP2MulInv = 1
  sumcheckP2_squared_minus_sumcheckP2_mul_inv :
    ((sumcheckP2 : F) ^ 2 - sumcheckP2) *
      sumcheckP2SquaredMinusSumcheckP2MulInv = 1
  sumcheckP2_of_large :
    largeCharacteristic F = true → (sumcheckP2 : F) = 1 + 1

section Lagrange

variable {F : Type} [Field F] [ProofFieldElement F]

/-- Evaluate the 0th Lagrange basis polynomial at `x`. -/
def lagrangeBasisPolynomial0 (x : F) : F :=
  (x - 1) * (x - sumcheckP2) * sumcheckP2MulInv

/-- Evaluate the 1st Lagrange basis polynomial at `x`. -/
def lagrangeBasisPolynomial1 (x : F) : F :=
  (x - 0) * (x - sumcheckP2) * oneMinusSumcheckP2MulInv

/-- Evaluate the 2nd Lagrange basis polynomial at `x`. -/
def lagrangeBasisPolynomial2 (x : F) : F :=
  (x - 0) * (x - 1) * sumcheckP2SquaredMinusSumcheckP2MulInv

variable [LawfulProofField F]

theorem sumcheckP2_ne_zero : (sumcheckP2 : F) ≠ 0 :=
  left_ne_zero_of_mul_eq_one LawfulProofField.sumcheckP2_mul_inv

theorem sumcheckP2_ne_one : (sumcheckP2 : F) ≠ 1 := by
  have hsub : (1 : F) - sumcheckP2 ≠ 0 :=
    left_ne_zero_of_mul_eq_one LawfulProofField.one_minus_sumcheckP2_mul_inv
  exact fun h => hsub (by rw [h, sub_self])

/-- The three basis polynomials interpolate at `0`, `1` and the third
evaluation point. -/
theorem lagrangeBasisPolynomial_interpolate (p0 p1 p2 x : F) :
    p0 * lagrangeBasisPolynomial0 x + p1 * lagrangeBasisPolynomial1 x +
      p2 * lagrangeBasisPolynomial2 x =
    (Multilinear.quadraticThrough sumcheckP2 p0 p1 p2).eval x := by
  have h0 : (sumcheckP2MulInv : F) = (sumcheckP2 : F)⁻¹ :=
    eq_inv_of_mul_eq_one_right LawfulProofField.sumcheckP2_mul_inv
  have h1 : (oneMinusSumcheckP2MulInv : F) = (1 - (sumcheckP2 : F))⁻¹ :=
    eq_inv_of_mul_eq_one_right LawfulProofField.one_minus_sumcheckP2_mul_inv
  have h2 : (sumcheckP2SquaredMinusSumcheckP2MulInv : F) =
      ((sumcheckP2 : F) ^ 2 - sumcheckP2)⁻¹ :=
    eq_inv_of_mul_eq_one_right
      LawfulProofField.sumcheckP2_squared_minus_sumcheckP2_mul_inv
  rw [Multilinear.eval_quadraticThrough, lagrangeBasisPolynomial0,
    lagrangeBasisPolynomial1, lagrangeBasisPolynomial2, h0, h1, h2, sub_zero]

end Lagrange

end Longfellow
