/-
The public inputs of the credential circuits, from what a verifier asks for.
-/
import Longfellow.MdocZk.Cbor
import Longfellow.MdocZk.Ec
import Longfellow.MdocZk.Layout
import Longfellow.MdocZk.Sha256

namespace Longfellow.MdocZk

open Exec

section Bits

/-- Overwrite the chunks of an array, one for each item. -/
def fillChunks {α β : Type} (size : Nat) (fill : α → List β → List β) :
    List α → List β → List β
  | [], out => out
  | item :: items, out =>
      if size ≤ out.length then
        fill item (out.take size) ++ fillChunks size fill items (out.drop size)
      else out

/-- The low bits of a byte as field elements, the lowest one first. -/
def bitElements : Nat → UInt8 → List Field2_128
  | 0, _ => []
  | n + 1, bits =>
      Field2_128.injectBits 1 (bits &&& 1).toUInt16 ::
        bitElements n (bits >>> 1)

/-- Encode an array of bytes as field elements, with one field element
representing each bit. -/
def byteArrayAsBits (bytes : List UInt8) (out : List Field2_128) :
    List Field2_128 :=
  fillChunks 8 (fun byte _ => bitElements 8 byte) bytes out

/-- Set one wire for each bit of an element. -/
def setBits (element : Field2_128) (wires : List FieldP256) : List FieldP256 :=
  List.zipWith (fun bit _ => if bit then 1 else 0) element.iterBits wires ++
    wires.drop element.iterBits.length

end Bits

section Attributes

/-- Identifier and value of an attribute, as a verifier asks for them. -/
structure Attribute where
  identifier : String
  valueCbor : List UInt8

/-- Attribute-related values in the statement of the hash circuit. -/
structure PublicAttribute where
  /-- `elementIdentifier` value, encoded as CBOR. -/
  identifier : List UInt8
  /-- `elementValue` value, encoded as CBOR. -/
  value : List UInt8

structure SerializedAttributeV6 where
  buffer : List UInt8
  length : Nat

structure SerializedAttributeV7 where
  identifierBuffer : List UInt8
  identifierLength : Nat
  valueBuffer : List UInt8
  valueLength : Nat

/-- Length of `elementIdentifier` when serialized as CBOR. -/
def elementIdentifierKeySerializedLength : Nat := 1 + 17

/-- Length of `elementValue` when serialized as CBOR. -/
def elementValueKeySerializedLength : Nat := 1 + 12

/-- Write to a buffer of a fixed size, after what it holds already. -/
def writeAll (capacity : Nat) (written bytes : List UInt8) (message : String) :
    Exec (List UInt8) := do
  ensure (written.length + bytes.length ≤ capacity) message
  pure (written ++ bytes)

/-- The whole buffer, with zeros where nothing was written. -/
def buffer (capacity : Nat) (written : List UInt8) : List UInt8 :=
  written ++ List.replicate (capacity - written.length) 0

namespace PublicAttribute

/-- Preprocessing of attribute statement values for circuit version 6. -/
def serializeV6 [Ciborium] (attr : PublicAttribute) :
    Exec SerializedAttributeV6 := do
  let written ← writeAll attributeCborDataLengthV6 [] attr.identifier
    "attribute identifier is too long"
  let written ← writeAll attributeCborDataLengthV6 written
    (Ciborium.intoWriter (.text "elementValue"))
    "attribute contents are too long"
  let written ← writeAll attributeCborDataLengthV6 written attr.value
    "attribute contents are too long"
  pure ⟨buffer attributeCborDataLengthV6 written, written.length⟩

/-- Preprocessing of attribute statement values for circuit version 7. -/
def serializeV7 (attr : PublicAttribute) :
    Exec SerializedAttributeV7 := do
  let identifier ← writeAll attributeCborIdentifierLengthV7 []
    attr.identifier "attribute identifier is too long"
  let value ← writeAll attributeCborValueLengthV7 [] attr.value
    "attribute contents are too long"
  pure
    { identifierBuffer := buffer attributeCborIdentifierLengthV7 identifier
      identifierLength :=
        elementIdentifierKeySerializedLength + identifier.length
      valueBuffer := buffer attributeCborValueLengthV7 value
      valueLength := elementValueKeySerializedLength + value.length }

end PublicAttribute

/-- An attribute as its identifier and value go into the statement. -/
def Attribute.asPublicAttribute [Ciborium] (attr : Attribute) :
    PublicAttribute :=
  ⟨Ciborium.intoWriter (.text attr.identifier), attr.valueCbor⟩

/-- Set public inputs related to one attribute in circuit version 6. -/
def fillAttributeStatementV6 [Ciborium] (input : AttributeInputV6)
    (attr : PublicAttribute) : Exec AttributeInputV6 := do
  let serialized ← attr.serializeV6
  ensure (serialized.length < 2 ^ 8) "attribute contents are too long"
  pure
    { cborData := byteArrayAsBits serialized.buffer input.cborData
      cborLength :=
        byteArrayAsBits [UInt8.ofNat serialized.length] input.cborLength }

/-- Set public inputs related to one attribute in circuit version 7. -/
def fillAttributeStatementV7 (input : AttributeInputV7)
    (attr : PublicAttribute) : Exec AttributeInputV7 := do
  let serialized ← attr.serializeV7
  pure
    { cborIdentifier :=
        byteArrayAsBits serialized.identifierBuffer input.cborIdentifier
      cborValue := byteArrayAsBits serialized.valueBuffer input.cborValue
      idLength := byteArrayAsBits [UInt8.ofNat serialized.identifierLength]
        input.idLength
      valueLength := byteArrayAsBits [UInt8.ofNat serialized.valueLength]
        input.valueLength }

/-- Set public inputs related to all attributes. -/
def fillAttributeStatements [Ciborium] (inputs : AttributeInputs)
    (attributes : List PublicAttribute) : Exec AttributeInputs :=
  match inputs with
  | .v6 inputs => do
      let inputs ← (inputs.zip attributes).mapM fun entry =>
        fillAttributeStatementV6 entry.1 entry.2
      pure (.v6 inputs)
  | .v7 inputs => do
      let inputs ← (inputs.zip attributes).mapM fun entry =>
        fillAttributeStatementV7 entry.1 entry.2
      pure (.v7 inputs)

end Attributes

section SessionTranscript

/-- `DeviceAuthentication` from ISO 18013-5. -/
def deviceAuthentication (sessionTranscript : Value) (docType : String)
    (deviceNameSpacesBytes : List UInt8) : Value :=
  .array [.text "DeviceAuthentication", sessionTranscript, .text docType,
    .tag 24 (.bytes deviceNameSpacesBytes)]

/-- Protected headers with the algorithm identifier ES256. -/
def protectedHeadersEs256 : Value := .map [(.integer 1, .integer (-7))]

def sigStructure (bodyProtected externalAad payload : List UInt8) : Value :=
  .array [.text "Signature1", .bytes bodyProtected, .bytes externalAad,
    .bytes payload]

variable [Ciborium]

/-- The message that the device signs for a `DeviceAuthentication`. -/
def deviceSigStructure (authentication : Value) : Value :=
  let buffer := Ciborium.intoWriter authentication
  let payload := Ciborium.intoWriter (.tag 24 (.bytes buffer))
  sigStructure (Ciborium.intoWriter protectedHeadersEs256) [] payload

/-- Compute the hash of the session transcript, for the mdoc signature. -/
def computeSessionTranscriptHash (docType : String)
    (deviceNameSpacesBytes transcript : List UInt8) : Exec Sha256Digest := do
  let sessionTranscript ← Ciborium.fromReader transcript
  let authentication :=
    deviceAuthentication sessionTranscript docType deviceNameSpacesBytes
  pure (runSha256 (Ciborium.intoWriter (deviceSigStructure authentication)))

/-- Convert a SHA-256 hash into a base field element. -/
def hashToFieldElement (digest : Sha256Digest) : Exec FieldP256 :=
  FieldP256.tryFrom digest.bytes.reverse

end SessionTranscript

/-- What a verifier asks for, and what it has from the proof. -/
structure Request where
  issuerPublicKeySec1 : List UInt8
  attributes : List Attribute
  docType : String
  deviceNameSpacesBytes : List UInt8
  sessionTranscript : List UInt8
  time : String
  macTags : Vector Field2_128 6
  macVerifierKeyShare : Field2_128
  verifierContext : Option (Vector UInt8 32)

/-- Public inputs for the circuits. -/
structure CircuitStatements where
  signatureStatement : List FieldP256
  hashStatement : List Field2_128

namespace CircuitStatements

/-- The coordinates of the issuer public key. -/
def issuerPublicKeyCoords (sec1 : List UInt8) :
    Exec (FieldP256 × FieldP256) := do
  let point ← AffinePoint.decode sec1
  match point.coordinates with
  | some coordinates => pure coordinates
  | none => fail "invalid issuer public key"

/-- Set the verifier context, in the version that has one. -/
def fillVerifierContext (wires : Option (List Field2_128))
    (context : Option (Vector UInt8 32)) : Exec (Option (List Field2_128)) :=
  match wires with
  | none => pure none
  | some wires =>
      match context with
      | some context => pure (some (byteArrayAsBits context.toList wires))
      | none => fail "verifier_context required for V8"

variable [Ciborium]

/-- Set the public inputs of the hash circuit. -/
def fillHashStatement (statement : SplitHashStatement) (request : Request) :
    Exec SplitHashStatement := do
  let attributeInputs ← fillAttributeStatements statement.attributeInputs
    (request.attributes.map Attribute.asPublicAttribute)
  ensure ((utf8 request.time).length = 20)
    "current time is not correctly formatted, must be 20 bytes long"
  let verifierContext ←
    fillVerifierContext statement.verifierContext request.verifierContext
  pure
    { implicitOne := 1
      attributeInputs
      time := byteArrayAsBits (utf8 request.time) statement.time
      verifierContext
      macTags := request.macTags.toList
      macVerifierKeyShare := request.macVerifierKeyShare }

/-- Construct statements for the signature and hash circuits. -/
def new (version : CircuitVersion) (request : Request) :
    Exec CircuitStatements := do
  let layout ← InputLayout.new version request.attributes.length
  let signature ← InputLayout.splitSignatureStatement
    (List.replicate InputLayout.signatureStatementLength 0)
  let hash ← layout.splitHashStatement
    (List.replicate layout.hashStatementLength 0)
  let coordinates ← issuerPublicKeyCoords request.issuerPublicKeySec1
  let hash ← fillHashStatement hash request
  let sessionTranscriptHash ← computeSessionTranscriptHash request.docType
    request.deviceNameSpacesBytes request.sessionTranscript
  let eSessionTranscript ← hashToFieldElement sessionTranscriptHash
  let signature : SplitSignatureStatement :=
    { implicitOne := 1
      issuerPublicKeyX := coordinates.1
      issuerPublicKeyY := coordinates.2
      eSessionTranscript
      macTags := fillChunks 128 setBits request.macTags.toList
        signature.macTags
      macVerifierKeyShare := setBits request.macVerifierKeyShare
        signature.macVerifierKeyShare }
  pure ⟨signature.wires, hash.wires⟩

end CircuitStatements

end Longfellow.MdocZk
