/-
Points of the P-256 elliptic curve, and their encodings.
-/
import Longfellow.Fields.FieldP256

namespace Longfellow

namespace FieldP256

/-- The modular square root of an element, if there is one. -/
def sqrt (x : FieldP256) : Option FieldP256 :=
  let candidate := x ^ ((modulusP256 + 1) / 4)
  if candidate * candidate = x then some candidate else none

/-- Read an element from its little-endian encoding. -/
def tryFrom (bytes : List UInt8) : Exec FieldP256 :=
  match CodecFieldElement.tryFrom bytes with
  | some x => pure x
  | none =>
      Exec.fail "serialized FieldP256 element is not less than the modulus"

/-- An element is read from one encoding only. -/
theorem encode_of_tryFrom {bytes : List UInt8} {x : FieldP256}
    (h : tryFrom bytes = .ok x) : residueEncode modulusP256 32 x = bytes := by
  have hread : residueTryFrom modulusP256 32 bytes = some x := by
    have htry : tryFrom bytes =
      match residueTryFrom modulusP256 32 bytes with
      | some x => pure x
      | none => Exec.fail
          "serialized FieldP256 element is not less than the modulus" := rfl
    rw [htry] at h
    split at h
    · next y hy =>
        cases h
        exact hy
    · cases h
  rw [residueTryFrom] at hread
  split at hread
  · next hvalid =>
      cases hread
      rw [residueEncode, ZMod.val_natCast, Nat.mod_eq_of_lt hvalid.2,
        ← hvalid.1, Bytes.leBytes_ofLeBytes]
  · cases hread

end FieldP256

namespace MdocZk

open Exec

/-- An elliptic curve point: its coordinates, or the point at infinity. -/
structure AffinePoint where
  coordinates : Option (FieldP256 × FieldP256)
deriving DecidableEq

/-- Decode a big-endian serialized field element. -/
def decodeFieldElement (bytes : List UInt8) : Exec FieldP256 :=
  FieldP256.tryFrom bytes.reverse

/-- One of the two coefficients of the curve, which is `-3`. -/
def p256A : FieldP256 :=
  (0xffffffff00000001000000000000000000000000fffffffffffffffffffffffc : Nat)

/-- One of the two coefficients of the curve. -/
def p256B : FieldP256 :=
  (0x5ac635d8aa3a93e7b3ebbd55769886bc651d06b0cc53b0f63bce3c3e27d2604b : Nat)

namespace AffinePoint

def new (x y : FieldP256) : AffinePoint := ⟨some (x, y)⟩

def infinity : AffinePoint := ⟨none⟩

/-- The right-hand side of the equation of the curve. -/
def curve (x : FieldP256) : FieldP256 := x * x * x + p256A * x + p256B

/-- Decode an x-coordinate and the parity of the y-coordinate. -/
def decodeCompressed (first : UInt8) (rest : List UInt8) :
    Exec AffinePoint := do
  let x ← decodeFieldElement rest
  ensure (first = 2 ∨ first = 3)
    "invalid elliptic curve point encoding, wrong prefix byte"
  match FieldP256.sqrt (curve x) with
  | none => fail ("invalid elliptic curve point encoding, x-coordinate does " ++
      "not correspond to any points on the curve")
  | some beta =>
      let y := if first.toNat % 2 = beta.val % 2 then beta else -beta
      pure (new x y)

/-- Decode both coordinates. -/
def decodeUncompressed (first : UInt8) (rest : List UInt8) :
    Exec AffinePoint := do
  ensure (first = 4) "invalid elliptic curve point encoding, wrong prefix byte"
  let x ← decodeFieldElement (rest.take 32)
  let y ← decodeFieldElement (rest.drop 32)
  ensure (y * y = curve x)
    "invalid elliptic curve point encoding, coordinates are not on the curve"
  pure (new x y)

/-- Decode an encoded point. -/
def decode (bytes : List UInt8) : Exec AffinePoint :=
  if bytes = [0] then pure infinity
  else if bytes.length = 33 then
    decodeCompressed (bytes.headD 0) bytes.tail
  else if bytes.length = 65 then
    decodeUncompressed (bytes.headD 0) bytes.tail
  else fail "encoded elliptic curve point has an invalid length"

end AffinePoint

end MdocZk

end Longfellow
