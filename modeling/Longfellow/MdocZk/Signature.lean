/-
ECDSA signatures, and the witness that the signature circuit takes for one.
-/
import Longfellow.Circuit
import Longfellow.Ecdsa
import Longfellow.MdocZk.Projective

namespace Longfellow

/-- The scalar field for the P-256 elliptic curve. -/
abbrev FieldP256Scalar := ZMod P256.order

/-- The bits of a digest as a big-endian integer, starting with the most
significant one. -/
def Sha256Digest.bits (hash : Sha256Digest) : List Bool :=
  hash.bytes.flatMap fun byte => (List.range 8).reverse.map byte.toNat.testBit

namespace FieldP256Scalar

/-- Read a scalar from its little-endian encoding. -/
def tryFrom (bytes : List UInt8) : Exec FieldP256Scalar :=
  match residueTryFrom P256.order 32 bytes with
  | some x => pure x
  | none => Exec.fail
      "serialized FieldP256Scalar element is not less than the modulus"

def encode (x : FieldP256Scalar) : List UInt8 := residueEncode P256.order 32 x

/-- The limbs of the residue, the least significant one first. -/
def toNonMontgomery (x : FieldP256Scalar) : List Nat :=
  (List.range 4).map fun i => x.val / 2 ^ (64 * i) % 2 ^ 64

/-- The bits of a scalar, starting with the most significant one. -/
def bits (x : FieldP256Scalar) : List Bool :=
  x.toNonMontgomery.reverse.flatMap fun limb =>
    (List.range 64).reverse.map limb.testBit

def modulusHigh : Nat := 0xffffffff00000000ffffffffffffffff

def modulusLow : Nat := 0xbce6faada7179e84f3b9cac2fc632551

/-- A digest as a scalar: its big-endian number, less the modulus if it is not
below it. -/
def fromHash (hash : Sha256Digest) : Exec FieldP256Scalar :=
  let high := Bytes.ofBeBytes (hash.bytes.take 16)
  let low := Bytes.ofBeBytes (hash.bytes.drop 16)
  let resultLow := (low + 2 ^ 128 - modulusLow) % 2 ^ 128
  let borrow := if low < modulusLow then 1 else 0
  let resultHigh := (high + 2 ^ 128 - modulusHigh + 2 ^ 128 - borrow) % 2 ^ 128
  let overflow := high < modulusHigh + borrow
  let selectHigh := if overflow then high else resultHigh
  let selectLow := if overflow then low else resultLow
  let buf := Bytes.leBytes 16 selectLow ++ Bytes.leBytes 16 selectHigh
  Exec.unwrap (tryFrom buf)

end FieldP256Scalar

namespace MdocZk

open Exec

open scoped Numerals


/-- The generator of the group. -/
def p256G : FieldP256 × FieldP256 :=
  ((0x6b17d1f2e12c4247f8bce6e563a440f277037d812deb33a0f4a13945d898c296 : Nat),
    (0x4fe342e2fe1a7f9b8ee7eb4a7c0f9e162bce33576b315ececbb6406837bf51f5 : Nat))

/-- An ECDSA signature. -/
structure Signature where
  r : FieldP256Scalar
  s : FieldP256Scalar
deriving DecidableEq

/-- Deserialize an ECDSA signature from a byte string. -/
def Signature.decode (input : List UInt8) : Exec Signature := do
  ensure (input.length = 64) "signature length is incorrect"
  let r ← FieldP256Scalar.tryFrom (input.take 32).reverse
  ensure (r ≠ 0) "invalid signature, r is zero"
  let s ← FieldP256Scalar.tryFrom (input.drop 32).reverse
  ensure (s ≠ 0) "invalid signature, s is zero"
  pure ⟨r, s⟩

/-- Witnesses for ECDSA verification. -/
structure EcdsaWitness where
  rX : FieldP256
  rY : FieldP256
  rXInverse : FieldP256
  negSInverse : FieldP256
  qXInverse : FieldP256
  sumGQ : FieldP256 × FieldP256
  sumGR : FieldP256 × FieldP256
  sumQR : FieldP256 × FieldP256
  sumGQR : FieldP256 × FieldP256
  msmWitnesses : List FieldP256

def embedScalarInBaseField (scalar : FieldP256Scalar) : Exec FieldP256 :=
  unwrap (FieldP256.tryFrom scalar.encode)

/-- The points that are added by the bits of the multi-scalar multiplication. -/
structure TablePoints where
  gProj : ProjectivePoint
  qProj : ProjectivePoint
  rProj : ProjectivePoint
  gPlusQProj : ProjectivePoint
  gPlusRProj : ProjectivePoint
  qPlusRProj : ProjectivePoint
  gPlusQPlusRProj : ProjectivePoint

/-- Perform the table lookup. -/
def TablePoints.lookup (table : TablePoints) (e r negS : Bool) :
    ProjectivePoint :=
  let toAdd := ProjectivePoint.identity
  let toAdd := if e && !r && !negS then table.gProj else toAdd
  let toAdd := if !e && r && !negS then table.qProj else toAdd
  let toAdd := if e && r && !negS then table.gPlusQProj else toAdd
  let toAdd := if !e && !r && negS then table.rProj else toAdd
  let toAdd := if e && !r && negS then table.gPlusRProj else toAdd
  let toAdd := if !e && r && negS then table.qPlusRProj else toAdd
  if e && r && negS then table.gPlusQPlusRProj else toAdd

/-- The index value, an odd number between -7 and 7. -/
def tableIndex (e r negS : Bool) : FieldP256 :=
  let index : FieldP256 := -7
  let index := if e then index + 2 else index
  let index := if r then index + 4 else index
  if negS then index + 8 else index

/-- One step of the multi-scalar multiplication.  Every step but the last one
has a place for its accumulator, and the last one checks it. -/
def multiScalarStep (table : TablePoints)
    (state : List FieldP256 × ProjectivePoint)
    (step : Bool × Bool × Bool × Bool) :
    Exec (List FieldP256 × ProjectivePoint) := do
  let (out, accumulator) := state
  let (hasPlace, eBit, rBit, negSBit) := step
  let toAdd := table.lookup eBit rBit negSBit
  let index := tableIndex eBit rBit negSBit
  let accumulator := accumulator.double.add toAdd
  if hasPlace then
    pure (out ++ [index, accumulator.x, accumulator.y, accumulator.z],
      accumulator)
  else
    ensure (accumulator.z = 0) "invalid signature"
    pure (out ++ [index], accumulator)

/-- Whether there is a place for the accumulator, for each step. -/
def iterMsm : List Bool := List.replicate 255 true ++ [false]

def requireCoordinates (point : AffinePoint) (message : String) :
    Exec (FieldP256 × FieldP256) :=
  match point.coordinates with
  | some coordinates => pure coordinates
  | none => fail message

/-- Perform the multi-scalar multiplication `G*e + Q*r - R*s`, and record
related witnesses. -/
def multiScalarMultiplication (witness : EcdsaWitness) (g : AffinePoint)
    (e : Sha256Digest) (q : AffinePoint) (rScalar : FieldP256Scalar)
    (rPoint : AffinePoint) (negS : FieldP256Scalar) : Exec EcdsaWitness := do
  let gProj := ProjectivePoint.ofAffine g
  let qProj := ProjectivePoint.ofAffine q
  let rProj := ProjectivePoint.ofAffine rPoint
  let gPlusQProj := gProj.addAffine q
  let gPlusQAff := gPlusQProj.toAffine
  let gPlusRAff := (gProj.addAffine rPoint).toAffine
  let qPlusRAff := (qProj.addAffine rPoint).toAffine
  let gPlusQPlusRAff := (gPlusQProj.addAffine rPoint).toAffine
  let table : TablePoints :=
    { gProj, qProj, rProj
      gPlusQProj := .ofAffine gPlusQAff
      gPlusRProj := .ofAffine gPlusRAff
      qPlusRProj := .ofAffine qPlusRAff
      gPlusQPlusRProj := .ofAffine gPlusQPlusRAff }
  let sumGQ ← requireCoordinates gPlusQAff "invalid public key (G + Q = O)"
  let sumGR ← requireCoordinates gPlusRAff "invalid signature (G + R = 0)"
  let sumQR ← requireCoordinates qPlusRAff "invalid signature (Q + R = 0)"
  let sumGQR ← requireCoordinates gPlusQPlusRAff
    "invalid signature (G + Q + R = 0)"
  let steps := iterMsm.zip (e.bits.zip (rScalar.bits.zip negS.bits))
  let (msmWitnesses, _) ← steps.foldlM (multiScalarStep table)
    ([], ProjectivePoint.identity)
  pure { witness with sumGQ, sumGR, sumQR, sumGQR, msmWitnesses }

/-- The witness for a signature on a hash under a public key. -/
def fillEcdsaWitness (witness : EcdsaWitness) (publicKey : AffinePoint)
    (signature : Signature) (hash : Sha256Digest) : Exec EcdsaWitness := do
  let (qx, _) ← requireCoordinates publicKey
    "public key is the point at infinity"
  let ⟨r, s⟩ := signature
  let g := AffinePoint.new p256G.1 p256G.2
  let gProj := ProjectivePoint.ofAffine g
  let qProj := ProjectivePoint.ofAffine publicKey
  let e ← FieldP256Scalar.fromHash hash
  let sInv := s⁻¹
  let u1 := e * sInv
  let u2 := r * sInv
  let rPointProj :=
    (gProj.scalarMult (FieldP256Scalar.bits u1)).add
      (qProj.scalarMult (FieldP256Scalar.bits u2))
  let rPointAff := rPointProj.toAffine
  let (rX, rY) ← requireCoordinates rPointAff
    "invalid signature, recomputation of R produced point at infinity"
  let embedded ← embedScalarInBaseField r
  ensure (embedded = rX)
    "invalid signature, recomputed R had incorrect x-coordinate"
  let negS ← embedScalarInBaseField (-s)
  let witness := { witness with
    rX, rY
    rXInverse := rX⁻¹
    negSInverse := negS⁻¹
    qXInverse := qx⁻¹ }
  multiScalarMultiplication witness g hash publicKey r rPointAff (-s)

end MdocZk

end Longfellow
