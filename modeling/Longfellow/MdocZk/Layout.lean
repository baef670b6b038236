/-
The layout of the statements of the credential circuits: which wires of their
input vectors stand for what.
-/
import Longfellow.Fields.FieldP256
import Longfellow.Fields.Field2128

namespace Longfellow.MdocZk

open Exec

/-- Versions of the circuit interface. -/
inductive CircuitVersion where
  | v6
  | v7
  | v8
deriving DecidableEq, Repr

/-- Number of bytes allocated for attribute identifier and value. -/
def attributeCborDataLengthV6 : Nat := 96

/-- Number of bytes allocated for attribute identifier. -/
def attributeCborIdentifierLengthV7 : Nat := 32

/-- Number of bytes allocated for attribute value. -/
def attributeCborValueLengthV7 : Nat := 64

/-- Number of bytes in the verifier context. -/
def verifierContextBytes : Nat := 32

/-- The inputs of one attribute. -/
structure AttributeInputV6 where
  cborData : List Field2_128
  cborLength : List Field2_128

structure AttributeInputV7 where
  cborIdentifier : List Field2_128
  cborValue : List Field2_128
  idLength : List Field2_128
  valueLength : List Field2_128

/-- The inputs of the attributes; version 8 reuses the format of version 7. -/
inductive AttributeInputs where
  | v6 (inputs : List AttributeInputV6)
  | v7 (inputs : List AttributeInputV7)

structure SplitSignatureStatement where
  implicitOne : FieldP256
  issuerPublicKeyX : FieldP256
  issuerPublicKeyY : FieldP256
  eSessionTranscript : FieldP256
  macTags : List FieldP256
  macVerifierKeyShare : List FieldP256

structure SplitHashStatement where
  implicitOne : Field2_128
  attributeInputs : AttributeInputs
  time : List Field2_128
  verifierContext : Option (List Field2_128)
  macTags : List Field2_128
  macVerifierKeyShare : Field2_128

namespace AttributeInputV6

def length : Nat := attributeCborDataLengthV6 * 8 + 8

def split (chunk : List Field2_128) : AttributeInputV6 where
  cborData := chunk.take (attributeCborDataLengthV6 * 8)
  cborLength := chunk.drop (attributeCborDataLengthV6 * 8)

def wires (input : AttributeInputV6) : List Field2_128 :=
  input.cborData ++ input.cborLength

end AttributeInputV6

namespace AttributeInputV7

def length : Nat :=
  attributeCborIdentifierLengthV7 * 8 + attributeCborValueLengthV7 * 8 + 8 + 8

def split (chunk : List Field2_128) : AttributeInputV7 :=
  let afterIdentifier := chunk.drop (attributeCborIdentifierLengthV7 * 8)
  let afterValue := afterIdentifier.drop (attributeCborValueLengthV7 * 8)
  { cborIdentifier := chunk.take (attributeCborIdentifierLengthV7 * 8)
    cborValue := afterIdentifier.take (attributeCborValueLengthV7 * 8)
    idLength := afterValue.take 8
    valueLength := afterValue.drop 8 }

def wires (input : AttributeInputV7) : List Field2_128 :=
  input.cborIdentifier ++ input.cborValue ++ input.idLength ++
    input.valueLength

end AttributeInputV7

/-- The wires of the statement, in the order of the input vector. -/
def SplitSignatureStatement.wires (statement : SplitSignatureStatement) :
    List FieldP256 :=
  [statement.implicitOne, statement.issuerPublicKeyX,
    statement.issuerPublicKeyY, statement.eSessionTranscript] ++
    statement.macTags ++ statement.macVerifierKeyShare

def AttributeInputs.wires : AttributeInputs → List Field2_128
  | .v6 inputs => inputs.flatMap AttributeInputV6.wires
  | .v7 inputs => inputs.flatMap AttributeInputV7.wires

/-- The wires of the statement, in the order of the input vector. -/
def SplitHashStatement.wires (statement : SplitHashStatement) :
    List Field2_128 :=
  [statement.implicitOne] ++ statement.attributeInputs.wires ++
    statement.time ++ statement.verifierContext.getD [] ++
    statement.macTags ++ [statement.macVerifierKeyShare]

/-- The layout for a version and a number of attributes to present. -/
structure InputLayout where
  version : CircuitVersion
  attributes : Nat
  one_le : 1 ≤ attributes
  le_four : attributes ≤ 4

namespace InputLayout

/-- A layout for a number of attributes, which must be a `u8` between one and
four. -/
def new (version : CircuitVersion) (attributes : Nat) : Exec InputLayout :=
  if h : 1 ≤ attributes ∧ attributes ≤ 4 then
    pure ⟨version, attributes, h.1, h.2⟩
  else if attributes < 2 ^ 8 then
    fail s!"unsupported number of attributes: {attributes}"
  else fail "unsupported number of attributes"

variable (layout : InputLayout)

def signatureStatementLength : Nat := 1 + 2 + 1 + 3 * 2 * 128 + 128

def wiresPerAttribute : Nat :=
  match layout.version with
  | .v6 => AttributeInputV6.length
  | .v7 | .v8 => AttributeInputV7.length

def verifierContextWires : Nat :=
  match layout.version with
  | .v6 | .v7 => 0
  | .v8 => verifierContextBytes * 8

def hashStatementLength : Nat :=
  1 + layout.attributes * layout.wiresPerAttribute + 20 * 8 +
    layout.verifierContextWires + 3 * 2 + 1

/-- Segments the public inputs of the signature circuit. -/
def splitSignatureStatement (input : List FieldP256) :
    Exec SplitSignatureStatement := do
  assert (input.length = signatureStatementLength)
    "assertion `left == right` failed"
  let implicitOne ← index input 0
  let issuerPublicKeyX ← index input 1
  let issuerPublicKeyY ← index input 2
  let eSessionTranscript ← index input 3
  let input := input.drop 4
  pure
    { implicitOne
      issuerPublicKeyX
      issuerPublicKeyY
      eSessionTranscript
      macTags := input.take (3 * 2 * 128)
      macVerifierKeyShare := input.drop (3 * 2 * 128) }

/-- Split off a number of chunks of one length. -/
def splitChunks {α : Type} (length : Nat) (split : List Field2_128 → α) :
    Nat → List Field2_128 → List α
  | 0, _ => []
  | n + 1, input =>
      split (input.take length) :: splitChunks length split n (input.drop length)

def splitAttributeInputs (input : List Field2_128) : AttributeInputs :=
  match layout.version with
  | .v6 => .v6 (splitChunks AttributeInputV6.length AttributeInputV6.split
      layout.attributes input)
  | .v7 | .v8 => .v7 (splitChunks AttributeInputV7.length
      AttributeInputV7.split layout.attributes input)

def splitVerifierContext (input : List Field2_128) :
    Option (List Field2_128) :=
  match layout.version with
  | .v6 | .v7 => none
  | .v8 => some (input.take (verifierContextBytes * 8))

/-- Segments the public inputs of the hash circuit. -/
def splitHashStatement (input : List Field2_128) :
    Exec SplitHashStatement := do
  assert (input.length = layout.hashStatementLength)
    "assertion `left == right` failed"
  let implicitOne ← index input 0
  let input := input.drop 1
  let attributeInputs := layout.splitAttributeInputs input
  let input := input.drop (layout.attributes * layout.wiresPerAttribute)
  let time := input.take (20 * 8)
  let input := input.drop (20 * 8)
  let verifierContext := layout.splitVerifierContext input
  let input := input.drop layout.verifierContextWires
  let macTags := input.take (3 * 2)
  let macVerifierKeyShare ← index input (3 * 2)
  pure
    { implicitOne
      attributeInputs
      time
      verifierContext
      macTags
      macVerifierKeyShare }

end InputLayout

end Longfellow.MdocZk
