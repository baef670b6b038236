/-
The encoding of circuits: sizes of three bytes, indices as signed differences,
and arrays with and without a length prefix.
-/
import Longfellow.Circuit
import Longfellow.Lib.Format

namespace Longfellow

open Exec CodecFieldElement

/-- How a build treats arithmetic that overflows: the development profile
panics, the release profile wraps around. -/
inductive Profile where
  | dev
  | release
deriving DecidableEq, Repr

namespace Profile

def subU32 : Profile → Nat → Nat → Exec Nat
  | .dev, a, b => checkedSub a b
  | .release, a, b => pure ((a + 2 ^ 32 - b) % 2 ^ 32)

def addU32 : Profile → Nat → Nat → Exec Nat
  | .dev, a, b => do
      assert (a + b < 2 ^ 32) "attempt to add with overflow"
      pure (a + b)
  | .release, a, b => pure ((a + b) % 2 ^ 32)

end Profile

namespace Size

/-- A size, which is a `u32`. -/
def tryFrom (value : Nat) : Exec Nat := do
  ensure (value < 2 ^ 32) "usize too big for u32"
  pure value

def decode : Decoder Nat := do
  let bytes ← Decoder.takeBytes 3 "failed to read u24"
  pure (Bytes.ofLeBytes bytes)

def encode (size : Nat) : Exec (List UInt8) := do
  ensure (size < 2 ^ 24) s!"size {size} too big to be serialized in 3 bytes"
  pure (Bytes.leBytes 3 size)

/-- Shift a difference up by one, to make room for the sign. -/
def shift (difference : Nat) : Exec Nat := do
  ensure (difference * 2 < 2 ^ 32) "shift would overflow"
  pure (difference * 2)

/-- The word for the difference of two sizes, with the sign in the least
significant bit. -/
def delta (size previous : Nat) : Exec Nat :=
  if previous ≤ size then shift (size - previous)
  else do
    let shifted ← shift (previous - size)
    pure (shifted ||| 1)

/-- Encode a size as a difference from the previous one. -/
def encodeDelta (size previous : Nat) : Exec (List UInt8) := do
  let word ← delta size previous
  encode word

/-- Apply an encoded difference to the previous size. -/
def applyDelta (profile : Profile) (previous encodedDelta : Nat) : Exec Nat :=
  let sign := encodedDelta &&& 1
  let delta := encodedDelta >>> 1
  if sign = 1 then profile.subU32 previous delta
  else profile.addU32 previous delta

/-- Decode a size as a difference from the previous one. -/
def decodeDelta (profile : Profile) (previous : Nat) : Decoder Nat := do
  let encodedDelta ← decode
  Decoder.ofExec (applyDelta profile previous encodedDelta)

end Size

/-- A field whose elements are read from their encodings only. -/
class CanonicalCodec (F : Type) [CodecFieldElement F] : Prop where
  decode_format :
    Decoder.Format (decode : Decoder F) (fun _ => True) encode

section Arrays

variable {α : Type}

/-- Encode items one after the other. -/
def encodeFixedArray (encodeItem : α → Exec (List UInt8)) :
    List α → Exec (List UInt8)
  | [] => pure []
  | item :: items => do
      let bytes ← encodeItem item
      let rest ← encodeFixedArray encodeItem items
      pure (bytes ++ rest)

/-- Encode the number of items, and then the items. -/
def encodeArray (encodeItem : α → Exec (List UInt8)) (items : List α) :
    Exec (List UInt8) := do
  ensure (items.length < 2 ^ 32) "vector length too big for u32"
  let length ← Size.encode items.length
  let bytes ← encodeFixedArray encodeItem items
  pure (length ++ bytes)

/-- Decode the number of items, and then the items. -/
def decodeArray (item : Decoder α) : Decoder (List α) := do
  let elements ← Size.decode
  Decoder.replicate item elements

end Arrays

instance : Inhabited Sha256Digest :=
  ⟨⟨List.replicate 32 0, length_zeros⟩⟩

namespace Sha256Digest

/-- A digest from as many bytes as one has. -/
def ofBytes (bytes : List UInt8) : Exec Sha256Digest :=
  if h : bytes.length = 32 then pure ⟨bytes, h⟩
  else fail "failed to convert byte vec to array"

def decode : Decoder Sha256Digest := do
  let bytes ← Decoder.takeBytes 32 "failed to read u8"
  Decoder.ofExec (ofBytes bytes)

def encode (digest : Sha256Digest) : List UInt8 := digest.bytes

end Sha256Digest

namespace FieldId

def asNat : FieldId → Nat
  | none => 0
  | p256 => 1
  | p384 => 2
  | p521 => 3
  | gf2_128 => 4
  | gf2_16 => 5
  | fp128 => 6

def tryFrom (value : Nat) : Exec FieldId :=
  match value with
  | 0 => pure none
  | 1 => pure p256
  | 2 => pure p384
  | 3 => pure p521
  | 4 => pure gf2_128
  | 5 => pure gf2_16
  | 6 => pure fp128
  | value => fail s!"unknown field ID {value}"

/-- The field with the identifier, which fits in a byte. -/
def ofU24 (value : Nat) : Exec FieldId := do
  ensure (value < 2 ^ 8) "decoded value too big for u8"
  tryFrom value

def decode : Decoder FieldId := do
  let value ← Size.decode
  Decoder.ofExec (ofU24 value)

def debug : FieldId → String
  | none => "None"
  | p256 => "P256"
  | p384 => "P384"
  | p521 => "P521"
  | gf2_128 => "GF2_128"
  | gf2_16 => "GF2_16"
  | fp128 => "FP128"

def encode (fieldId : FieldId) : List UInt8 := Bytes.leBytes 3 fieldId.asNat

end FieldId

namespace Quad

/-- The quad that the first one of a layer is encoded against. -/
def zero : Quad := ⟨0, 0, 0, 0⟩

/-- Decode an index as a difference from the previous quad's. -/
def decodeIndex (profile : Profile) (previous : Nat) : Decoder Nat := do
  let previous ← Decoder.ofExec (Size.tryFrom previous)
  Size.decodeDelta profile previous

/-- Decode a quad as differences from the previous one. -/
def decodeWithParam (profile : Profile) (prevQuad : Option Quad) :
    Decoder Quad := do
  let prevQuad := prevQuad.getD zero
  let gateIndex ← decodeIndex profile prevQuad.gateIndex
  let leftWireIndex ← decodeIndex profile prevQuad.leftWireIndex
  let rightWireIndex ← decodeIndex profile prevQuad.rightWireIndex
  let constTableIndex ← Size.decode
  pure ⟨gateIndex, leftWireIndex, rightWireIndex, constTableIndex⟩

/-- Encode an index as a difference from the previous quad's. -/
def encodeIndex (value previous : Nat) : Exec (List UInt8) := do
  let size ← Size.tryFrom value
  let previous ← Size.tryFrom previous
  Size.encodeDelta size previous

/-- Encode a quad as differences from the previous one. -/
def encodeWithParam (quad : Quad) (prevQuad : Option Quad) :
    Exec (List UInt8) := do
  let prevQuad := prevQuad.getD zero
  let gate ← encodeIndex quad.gateIndex prevQuad.gateIndex
  let left ← encodeIndex quad.leftWireIndex prevQuad.leftWireIndex
  let right ← encodeIndex quad.rightWireIndex prevQuad.rightWireIndex
  let size ← Size.tryFrom quad.constTableIndex
  let constant ← Size.encode size
  pure (gate ++ left ++ right ++ constant)

end Quad

namespace CircuitLayer

/-- Decode quads, each as differences from the one before. -/
def decodeQuads (profile : Profile) : Nat → Option Quad → Decoder (List Quad)
  | 0, _ => pure []
  | n + 1, prevQuad => do
      let quad ← Quad.decodeWithParam profile prevQuad
      let quads ← decodeQuads profile n (some quad)
      pure (quad :: quads)

def decode (profile : Profile) : Decoder CircuitLayer := do
  let logw ← Size.decode
  let numWires ← Size.decode
  let numQuads ← Size.decode
  let quads ← decodeQuads profile numQuads none
  pure ⟨logw, numWires, quads⟩

/-- Encode quads, each as differences from the one before. -/
def encodeQuads : List Quad → Option Quad → Exec (List UInt8)
  | [], _ => pure []
  | quad :: quads, prevQuad => do
      let bytes ← quad.encodeWithParam prevQuad
      let rest ← encodeQuads quads (some quad)
      pure (bytes ++ rest)

def encode (layer : CircuitLayer) : Exec (List UInt8) := do
  let logw ← Size.encode layer.logw
  let numWires ← Size.encode layer.numWires
  let numQuads ← Size.encode (layer.quads.length % 2 ^ 32)
  let quads ← encodeQuads layer.quads none
  pure (logw ++ numWires ++ numQuads ++ quads)

end CircuitLayer

namespace Circuit

variable {F : Type} [CodecFieldElement F]

/-- The identifier of the field, which must be the expected one. -/
def checkFieldId (F : Type) [CodecFieldElement F] (id : FieldId) : Exec Unit :=
  ensure (id = fieldId F)
    s!"unexpected field id {id.debug} in encoded circuit"

/-- Decode everything up to the layers. -/
def decodeHeader : Decoder (Circuit F) := do
  let version ← Decoder.takeBytes 1 "failed to read u8"
  let id ← FieldId.decode
  Decoder.ofExec (checkFieldId F id)
  let numOutputs ← Size.decode
  let numCopies ← Size.decode
  let numPublicInputs ← Size.decode
  let subfieldBoundary ← Size.decode
  let numInputs ← Size.decode
  let numLayers ← Size.decode
  let constantTable ← decodeArray CodecFieldElement.decode
  pure
    { version := version.headD 0
      numOutputs
      numCopies
      numPublicInputs
      subfieldBoundary
      numInputs
      numLayers
      constantTable
      layers := []
      id := default }

def decode (profile : Profile) : Decoder (Circuit F) := do
  let header ← decodeHeader
  let layers ← Decoder.context "failed to decode layers"
    (Decoder.replicate (CircuitLayer.decode profile) header.numLayers)
  let id ← Sha256Digest.decode
  pure { header with layers, id }

/-- Encode a size of the header. -/
def encodeSize (value : Nat) : Exec (List UInt8) := do
  let size ← Size.tryFrom value
  Size.encode size

/-- Encode everything up to the layers. -/
def encodeHeader (circuit : Circuit F) : Exec (List UInt8) := do
  let numOutputs ← encodeSize circuit.numOutputs
  let numCopies ← encodeSize circuit.numCopies
  let numPublicInputs ← encodeSize circuit.numPublicInputs
  let subfieldBoundary ← encodeSize circuit.subfieldBoundary
  let numInputs ← encodeSize circuit.numInputs
  let numLayers ← encodeSize circuit.numLayers
  let constantTable ← encodeArray (fun x => pure (CodecFieldElement.encode x))
    circuit.constantTable
  pure ([circuit.version] ++ FieldId.encode (fieldId F) ++ numOutputs ++
    numCopies ++ numPublicInputs ++ subfieldBoundary ++ numInputs ++
    numLayers ++ constantTable)

def encode (circuit : Circuit F) : Exec (List UInt8) := do
  let header ← circuit.encodeHeader
  ensure (circuit.numLayers = circuit.layers.length)
    "num_layers does not match length of layers array"
  let layers ← encodeFixedArray CircuitLayer.encode circuit.layers
  pure (header ++ layers ++ circuit.id.encode)

end Circuit

end Longfellow
