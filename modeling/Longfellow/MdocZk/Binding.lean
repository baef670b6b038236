/-
The statements of the credential circuits bind what the verifier asked for.
-/
import Longfellow.MdocZk.Encoding
import Mathlib.Data.Set.Function

namespace Longfellow.MdocZk

open Exec

section Bits

theorem injectBits_one (byte : UInt8) :
    Field2_128.injectBits 1 (byte &&& 1).toUInt16 =
      if byte.toNat % 2 = 1 then 1 else 0 := by
  have hlow : (byte &&& 1).toNat = byte.toNat % 2 := by
    rw [UInt8.toNat_and]
    exact Nat.and_one_is_mod _
  rcases Nat.mod_two_eq_zero_or_one byte.toNat with hmod | hmod
  · have hbyte : byte &&& 1 = 0 := by
      apply UInt8.toNat_inj.mp
      rw [hlow, hmod]
      rfl
    rw [hbyte, if_neg (by omega)]
    decide
  · have hbyte : byte &&& 1 = 1 := by
      apply UInt8.toNat_inj.mp
      rw [hlow, hmod]
      rfl
    rw [hbyte, if_pos hmod]
    decide

/-- The wires of a byte tell its low bits. -/
theorem bitElements_inj {n : Nat} {byte other : UInt8}
    (h : bitElements n byte = bitElements n other) :
    byte.toNat % 2 ^ n = other.toNat % 2 ^ n := by
  induction n generalizing byte other with
  | zero => simp [Nat.mod_one]
  | succ n ih =>
      obtain ⟨hlow, hhigh⟩ := List.cons.inj h
      have hshift := ih hhigh
      rw [injectBits_one, injectBits_one] at hlow
      have hlowMod : byte.toNat % 2 = other.toNat % 2 := by
        have hone : (1 : Field2_128) ≠ 0 := by decide
        split_ifs at hlow with hbyte hother
        · rw [hbyte, hother]
        · exact absurd hlow hone
        · exact absurd hlow.symm hone
        · omega
      have hdiv (b : UInt8) : (b >>> 1).toNat = b.toNat / 2 := by
        rw [UInt8.toNat_shiftRight]
        exact Nat.shiftRight_one _
      rw [hdiv, hdiv] at hshift
      have hsplit (b : Nat) : b % 2 ^ (n + 1) = b % 2 + 2 * (b / 2 % 2 ^ n) := by
        rw [pow_succ, Nat.mul_comm, Nat.mod_mul]
      rw [hsplit, hsplit, hlowMod, hshift]

theorem bitElements_prefixFree : PrefixFree (bitElements 8) := by
  apply PrefixFree.of_length (length_bitElements 8)
  intro byte other h
  apply UInt8.toNat_inj.mp
  have hmod := bitElements_inj h
  have hbyte := byte.toNat_lt
  have hother := other.toNat_lt
  omega

theorem byteBits_append_inj {bytes other : List UInt8} {r s : List Field2_128}
    (hlength : bytes.length = other.length)
    (h : byteBits bytes ++ r = byteBits other ++ s) : bytes = other ∧ r = s :=
  bitElements_prefixFree.flatMap_append_inj hlength h

theorem byteBits_inj {bytes other : List UInt8}
    (hlength : bytes.length = other.length)
    (h : byteBits bytes = byteBits other) : bytes = other := by
  apply (byteBits_append_inj (r := []) (s := []) hlength _).1
  rw [h]

theorem elementBits_prefixFree : PrefixFree elementBits := by
  apply PrefixFree.of_length length_elementBits
  intro element other h
  apply Field2_128.iterBits_inj
  apply List.map_injective_iff.mpr _ h
  intro b c hbit
  have hone : (1 : FieldP256) ≠ 0 := by decide
  cases b <;> cases c <;> simp_all

end Bits

section Attributes

theorem buffer_inj {capacity : Nat} {written other : List UInt8}
    (hlength : written.length = other.length)
    (h : buffer capacity written = buffer capacity other) : written = other :=
  (List.append_inj h hlength).1

/-- The wires of a length tell the length. -/
theorem lengthBits_inj {m n : Nat} (hm : m < 256) (hn : n < 256)
    (h : byteBits [UInt8.ofNat m] = byteBits [UInt8.ofNat n]) : m = n := by
  have hbyte := (List.cons.inj (byteBits_inj (by rfl) h)).1
  have hnat := congrArg UInt8.toNat hbyte
  rw [UInt8.toNat_ofNat', UInt8.toNat_ofNat'] at hnat
  omega

/-- The number of wires of an attribute. -/
def attributeWidth : CircuitVersion → Nat
  | .v6 => AttributeInputV6.length
  | .v7 | .v8 => AttributeInputV7.length

variable [Ciborium]

theorem PublicAttribute.wires_v6_eq_ok {attr : PublicAttribute}
    {wires : List Field2_128} (h : attr.wires .v6 = .ok wires) :
    let written := attr.identifier ++
      Ciborium.intoWriter (.text "elementValue") ++ attr.value
    written.length ≤ 96 ∧
      wires = byteBits (buffer 96 written) ++
        byteBits [UInt8.ofNat written.length] := by
  obtain ⟨serialized, hserialized, h⟩ := Exec.bind_eq_ok.mp h
  obtain ⟨hfits, rfl⟩ := serializeV6_eq_ok.mp hserialized
  obtain ⟨_, -, h⟩ := Exec.bind_eq_ok.mp h
  exact ⟨hfits, (Except.ok.inj h).symm⟩

theorem PublicAttribute.wires_v7_eq_ok {attr : PublicAttribute}
    {wires : List Field2_128} (h : attr.wires .v7 = .ok wires) :
    attr.identifier.length ≤ 32 ∧ attr.value.length ≤ 64 ∧
      wires = byteBits (buffer 32 attr.identifier) ++
        byteBits (buffer 64 attr.value) ++
        byteBits [UInt8.ofNat (18 + attr.identifier.length)] ++
        byteBits [UInt8.ofNat (13 + attr.value.length)] := by
  obtain ⟨serialized, hserialized, h⟩ := Exec.bind_eq_ok.mp h
  obtain ⟨hidentifier, hvalue, rfl⟩ := serializeV7_eq_ok.mp hserialized
  exact ⟨hidentifier, hvalue, (Except.ok.inj h).symm⟩

theorem PublicAttribute.length_wires {version : CircuitVersion}
    {attr : PublicAttribute} {wires : List Field2_128}
    (h : attr.wires version = .ok wires) :
    wires.length = attributeWidth version := by
  have hv7 (hwires : attr.wires .v7 = .ok wires) :
      wires.length = AttributeInputV7.length := by
    obtain ⟨hidentifier, hvalue, rfl⟩ := wires_v7_eq_ok hwires
    simp only [List.length_append, length_byteBits, length_buffer hidentifier,
      length_buffer hvalue]
    rfl
  cases version with
  | v6 =>
      obtain ⟨hfits, rfl⟩ := wires_v6_eq_ok h
      simp only [List.length_append, length_byteBits, length_buffer hfits]
      rfl
  | v7 => exact hv7 h
  | v8 => exact hv7 h

variable [LawfulCiborium]

theorem length_utf8_lt {s : String} (bound : Nat) (hbound : bound < 2 ^ 64)
    (h : (Ciborium.intoWriter (.text s)).length ≤ bound) :
    (utf8 s).length < 2 ^ 64 := by
  rw [LawfulCiborium.intoWriter_text, List.length_append] at h
  omega

/-- In version 6 the identifier ends where its text says, and the value at the
length. -/
theorem Attribute.wires_v6_inj {attr other : Attribute}
    {wires : List Field2_128}
    (h : attr.asPublicAttribute.wires .v6 = .ok wires)
    (h' : other.asPublicAttribute.wires .v6 = .ok wires) : attr = other := by
  obtain ⟨hfits, hwires⟩ := PublicAttribute.wires_v6_eq_ok h
  obtain ⟨hfits', hwires'⟩ := PublicAttribute.wires_v6_eq_ok h'
  rw [hwires] at hwires'
  obtain ⟨hbuffer, hlength⟩ := byteBits_append_inj
    (by rw [length_buffer hfits, length_buffer hfits']) hwires'
  have hwritten :=
    buffer_inj (lengthBits_inj (by omega) (by omega) hlength) hbuffer
  rw [List.append_assoc, List.append_assoc] at hwritten
  simp only [List.length_append] at hfits hfits'
  obtain ⟨hidentifier, hrest⟩ := text_append_inj
    (length_utf8_lt 96 (by decide) (by
      simp only [asPublicAttribute] at hfits
      omega))
    (length_utf8_lt 96 (by decide) (by
      simp only [asPublicAttribute] at hfits'
      omega)) hwritten
  have hvalue : attr.valueCbor = other.valueCbor :=
    List.append_cancel_left hrest
  cases attr
  cases other
  rw [mk.injEq]
  exact ⟨hidentifier, hvalue⟩

/-- In version 7 both the identifier and the value end at their lengths. -/
theorem Attribute.wires_v7_inj {attr other : Attribute}
    {wires : List Field2_128}
    (h : attr.asPublicAttribute.wires .v7 = .ok wires)
    (h' : other.asPublicAttribute.wires .v7 = .ok wires) : attr = other := by
  obtain ⟨hidentifier, hvalue, hwires⟩ := PublicAttribute.wires_v7_eq_ok h
  obtain ⟨hidentifier', hvalue', hwires'⟩ := PublicAttribute.wires_v7_eq_ok h'
  rw [hwires] at hwires'
  simp only [List.append_assoc] at hwires'
  obtain ⟨hidentifierBuffer, hwires'⟩ := byteBits_append_inj
    (by rw [length_buffer hidentifier, length_buffer hidentifier']) hwires'
  obtain ⟨hvalueBuffer, hwires'⟩ := byteBits_append_inj
    (by rw [length_buffer hvalue, length_buffer hvalue']) hwires'
  obtain ⟨hidLength, hwires'⟩ := List.append_inj hwires' (by
    rw [length_byteBits, length_byteBits]
    rfl)
  have hidentifierLength := lengthBits_inj (by omega) (by omega) hidLength
  have hvalueLength := lengthBits_inj (by omega) (by omega) hwires'
  have hidentifierEq := buffer_inj (by omega) hidentifierBuffer
  have hvalueEq := buffer_inj (by omega) hvalueBuffer
  have htext : Ciborium.intoWriter (.text attr.identifier) ++ [] =
      Ciborium.intoWriter (.text other.identifier) ++ [] := by
    rw [List.append_nil, List.append_nil]
    exact hidentifierEq
  obtain ⟨hstring, -⟩ := text_append_inj
    (length_utf8_lt 32 (by decide) hidentifier)
    (length_utf8_lt 32 (by decide) hidentifier') htext
  cases attr
  cases other
  rw [mk.injEq]
  exact ⟨hstring, hvalueEq⟩

theorem Attribute.wires_inj {version : CircuitVersion}
    {attr other : Attribute} {wires : List Field2_128}
    (h : attr.asPublicAttribute.wires version = .ok wires)
    (h' : other.asPublicAttribute.wires version = .ok wires) :
    attr = other := by
  cases version with
  | v6 => exact wires_v6_inj h h'
  | v7 => exact wires_v7_inj h h'
  | v8 => exact wires_v7_inj h h'

/-- The wires of as many attributes tell them apart, in their order. -/
theorem attributeWires_append_inj {version : CircuitVersion}
    {attributes others : List Attribute} {codes codes' : List (List Field2_128)}
    {r s : List Field2_128} (hcount : attributes.length = others.length)
    (h : (attributes.map Attribute.asPublicAttribute).mapM
      (PublicAttribute.wires version) = .ok codes)
    (h' : (others.map Attribute.asPublicAttribute).mapM
      (PublicAttribute.wires version) = .ok codes')
    (heq : codes.flatten ++ r = codes'.flatten ++ s) :
    attributes = others ∧ r = s := by
  induction attributes generalizing others codes codes' with
  | nil =>
      obtain rfl := List.eq_nil_of_length_eq_zero hcount.symm
      cases h
      cases h'
      exact ⟨rfl, heq⟩
  | cons attr attributes ih =>
      cases others with
      | nil => simp at hcount
      | cons other others =>
          rw [List.map_cons, List.mapM_cons] at h h'
          obtain ⟨code, hcode, h⟩ := Exec.bind_eq_ok.mp h
          obtain ⟨rest, hrest, h⟩ := Exec.bind_eq_ok.mp h
          obtain ⟨code', hcode', h'⟩ := Exec.bind_eq_ok.mp h'
          obtain ⟨rest', hrest', h'⟩ := Exec.bind_eq_ok.mp h'
          cases h
          cases h'
          rw [List.flatten_cons, List.flatten_cons, List.append_assoc,
            List.append_assoc] at heq
          obtain ⟨rfl, htail⟩ := List.append_inj heq (by
            rw [PublicAttribute.length_wires hcode,
              PublicAttribute.length_wires hcode'])
          obtain rfl := Attribute.wires_inj hcode hcode'
          obtain ⟨rfl, hrs⟩ :=
            ih (by simpa using hcount) hrest hrest' htail
          exact ⟨rfl, hrs⟩

end Attributes

section SessionTranscript

variable [Ciborium]

namespace Request

/-- The authentication that the device signs, for a decoded transcript. -/
def authentication (request : Request) (sessionTranscript : Value) : Value :=
  deviceAuthentication sessionTranscript request.docType
    request.deviceNameSpacesBytes

/-- The messages that are hashed for a request: one, if its transcript
decodes. -/
def signedMessages (request : Request) : Set (List UInt8) :=
  { message | ∃ sessionTranscript,
      Ciborium.fromReader request.sessionTranscript = .ok sessionTranscript ∧
      message = Ciborium.intoWriter
        (deviceSigStructure (request.authentication sessionTranscript)) }

/-- The values that are encoded, one inside the other, for that message. -/
def encodedValues (request : Request) : Set Value :=
  { value | ∃ sessionTranscript,
      Ciborium.fromReader request.sessionTranscript = .ok sessionTranscript ∧
      let authentication := request.authentication sessionTranscript
      value = authentication ∨
        value = .tag 24 (.bytes (Ciborium.intoWriter authentication)) ∨
        value = deviceSigStructure authentication }

theorem eSessionTranscript_eq_ok {request : Request} {element : FieldP256}
    (h : request.eSessionTranscript = .ok element) :
    ∃ sessionTranscript,
      Ciborium.fromReader request.sessionTranscript = .ok sessionTranscript ∧
      (residueEncode modulusP256 32 element).reverse =
        (runSha256 (Ciborium.intoWriter
          (deviceSigStructure (request.authentication sessionTranscript)))).bytes := by
  obtain ⟨digest, hdigest, helement⟩ := Exec.bind_eq_ok.mp h
  obtain ⟨sessionTranscript, hread, hpure⟩ := Exec.bind_eq_ok.mp hdigest
  have hmessage := Except.ok.inj hpure
  have hencode := FieldP256.encode_of_tryFrom helement
  refine ⟨sessionTranscript, hread, ?_⟩
  rw [hencode, List.reverse_reverse, ← hmessage]
  rfl

/-- The hash of the session transcript binds everything that is nested in the
message. -/
theorem eSessionTranscript_inj {request other : Request}
    {element : FieldP256} (h : request.eSessionTranscript = .ok element)
    (h' : other.eSessionTranscript = .ok element)
    (hsha : Set.InjOn runSha256
      (request.signedMessages ∪ other.signedMessages))
    (hcbor : Set.InjOn Ciborium.intoWriter
      (request.encodedValues ∪ other.encodedValues)) :
    request.docType = other.docType ∧
      request.deviceNameSpacesBytes = other.deviceNameSpacesBytes ∧
      ∃ sessionTranscript,
        Ciborium.fromReader request.sessionTranscript =
          .ok sessionTranscript ∧
        Ciborium.fromReader other.sessionTranscript =
          .ok sessionTranscript := by
  obtain ⟨transcript, hread, hdigest⟩ := eSessionTranscript_eq_ok h
  obtain ⟨transcript', hread', hdigest'⟩ := eSessionTranscript_eq_ok h'
  have hmessage := hsha (Or.inl ⟨transcript, hread, rfl⟩)
    (Or.inr ⟨transcript', hread', rfl⟩)
    (by rw [Sha256Digest.mk.injEq, ← hdigest, ← hdigest'])
  have hstructure := hcbor
    (Or.inl ⟨transcript, hread, Or.inr (Or.inr rfl)⟩)
    (Or.inr ⟨transcript', hread', Or.inr (Or.inr rfl)⟩) hmessage
  have hpayload : Ciborium.intoWriter (.tag 24 (.bytes (Ciborium.intoWriter
      (request.authentication transcript)))) =
      Ciborium.intoWriter (.tag 24 (.bytes (Ciborium.intoWriter
        (other.authentication transcript')))) := by
    simp only [deviceSigStructure, sigStructure] at hstructure
    simpa using hstructure
  have htag := hcbor
    (Or.inl ⟨transcript, hread, Or.inr (Or.inl rfl)⟩)
    (Or.inr ⟨transcript', hread', Or.inr (Or.inl rfl)⟩) hpayload
  have hauthentication := hcbor
    (Or.inl ⟨transcript, hread, Or.inl rfl⟩)
    (Or.inr ⟨transcript', hread', Or.inl rfl⟩) (by
      injection htag with _ hbytes
      injection hbytes)
  simp only [authentication, deviceAuthentication, Value.array.injEq,
    List.cons.injEq, Value.text.injEq, Value.tag.injEq, Value.bytes.injEq,
    true_and, and_true] at hauthentication
  obtain ⟨rfl, hdocType, hnameSpaces⟩ := hauthentication
  exact ⟨hdocType, hnameSpaces, _, hread, hread'⟩

end Request

end SessionTranscript

section Statements

variable [Ciborium]

omit [Ciborium] in
theorem issuerPublicKeyCoords_inj {sec1 other : List UInt8}
    {coordinates : FieldP256 × FieldP256}
    (h : CircuitStatements.issuerPublicKeyCoords sec1 = .ok coordinates)
    (h' : CircuitStatements.issuerPublicKeyCoords other = .ok coordinates) :
    ∃ point, AffinePoint.decode sec1 = .ok point ∧
      AffinePoint.decode other = .ok point := by
  have hpoint (bytes : List UInt8)
      (hcoords : CircuitStatements.issuerPublicKeyCoords bytes =
        .ok coordinates) :
      AffinePoint.decode bytes = .ok ⟨some coordinates⟩ := by
    obtain ⟨point, hdecode, hcoords⟩ := Exec.bind_eq_ok.mp hcoords
    split at hcoords
    · next found hfound =>
        cases hcoords
        rw [hdecode, ← hfound]
    · cases hcoords
  exact ⟨_, hpoint sec1 h, hpoint other h'⟩

omit [Ciborium] in
/-- The wires of the signature statement tell what they are made of. -/
theorem Request.signatureWires_inj {request other : Request}
    {coordinates coordinates' : FieldP256 × FieldP256}
    {element element' : FieldP256}
    (h : request.signatureWires coordinates element =
      other.signatureWires coordinates' element') :
    coordinates = coordinates' ∧ element = element' ∧
      request.macTags = other.macTags ∧
      request.macVerifierKeyShare = other.macVerifierKeyShare := by
  rw [signatureWires, signatureWires, List.append_assoc, List.append_assoc] at h
  simp only [List.cons_append, List.nil_append, List.cons.injEq, true_and] at h
  obtain ⟨hx, hy, helement, hbits⟩ := h
  obtain ⟨htags, hshare⟩ := elementBits_prefixFree.flatMap_append_inj
    (by rw [Vector.length_toList, Vector.length_toList]) hbits
  have hshareEq : request.macVerifierKeyShare = other.macVerifierKeyShare :=
    (elementBits_prefixFree.append_inj (r := []) (s := []) (by rw [hshare])).1
  exact ⟨Prod.ext hx hy, helement, Vector.toList_inj.mp htags, hshareEq⟩

/-- The wires of the hash statement tell what they are made of. -/
theorem Request.hashWires_inj [LawfulCiborium] {version : CircuitVersion}
    {request other : Request} {wires : List Field2_128}
    (h : request.hashWires version = .ok wires)
    (h' : other.hashWires version = .ok wires)
    (hcount : request.attributes.length = other.attributes.length) :
    request.attributes = other.attributes ∧ request.time = other.time ∧
      (version = .v8 → request.verifierContext = other.verifierContext) := by
  obtain ⟨codes, hcodes, h⟩ := Exec.bind_eq_ok.mp h
  obtain ⟨_, htime, h⟩ := Exec.bind_eq_ok.mp h
  obtain ⟨context, hcontext, h⟩ := Exec.bind_eq_ok.mp h
  obtain ⟨codes', hcodes', h'⟩ := Exec.bind_eq_ok.mp h'
  obtain ⟨_, htime', h'⟩ := Exec.bind_eq_ok.mp h'
  obtain ⟨context', hcontext', h'⟩ := Exec.bind_eq_ok.mp h'
  have hwires := (Except.ok.inj h).trans (Except.ok.inj h').symm
  simp only [List.append_assoc, List.cons_append, List.nil_append,
    List.cons.injEq, true_and] at hwires
  obtain ⟨hattributes, hrest⟩ :=
    attributeWires_append_inj hcount hcodes hcodes' hwires
  obtain ⟨htimes, hrest⟩ := byteBits_append_inj
    ((ensure_eq_ok.mp htime).trans (ensure_eq_ok.mp htime').symm) hrest
  refine ⟨hattributes, utf8_inj htimes, ?_⟩
  rintro rfl
  simp only [contextWires] at hcontext hcontext'
  split at hcontext
  · next bytes hbytes =>
      split at hcontext'
      · next bytes' hbytes' =>
          cases hcontext
          cases hcontext'
          have heq := (byteBits_append_inj
            (by rw [Vector.length_toList, Vector.length_toList]) hrest).1
          rw [hbytes, hbytes', Vector.toList_inj.mp heq]
      · cases hcontext'
  · cases hcontext

/-- Two requests with the same statements ask for the same thing. -/
theorem CircuitStatements.new_binds [LawfulCiborium]
    {version : CircuitVersion} {request other : Request}
    {statements : CircuitStatements}
    (h : new version request = .ok statements)
    (h' : new version other = .ok statements)
    (hcount : request.attributes.length = other.attributes.length) :
    (∃ point, AffinePoint.decode request.issuerPublicKeySec1 = .ok point ∧
      AffinePoint.decode other.issuerPublicKeySec1 = .ok point) ∧
    request.attributes = other.attributes ∧
    request.time = other.time ∧
    request.macTags = other.macTags ∧
    request.macVerifierKeyShare = other.macVerifierKeyShare ∧
    (version = .v8 → request.verifierContext = other.verifierContext) ∧
    (Set.InjOn runSha256 (request.signedMessages ∪ other.signedMessages) →
      Set.InjOn Ciborium.intoWriter
        (request.encodedValues ∪ other.encodedValues) →
      request.docType = other.docType ∧
      request.deviceNameSpacesBytes = other.deviceNameSpacesBytes ∧
      ∃ sessionTranscript,
        Ciborium.fromReader request.sessionTranscript =
          .ok sessionTranscript ∧
        Ciborium.fromReader other.sessionTranscript =
          .ok sessionTranscript) := by
  have hlayouts := h
  obtain ⟨layout, hlayout, -⟩ := Exec.bind_eq_ok.mp hlayouts
  rw [new_eq hlayout] at h
  rw [new_eq (hcount ▸ hlayout)] at h'
  obtain ⟨coordinates, hcoordinates, h⟩ := Exec.bind_eq_ok.mp h
  obtain ⟨wires, hwires, h⟩ := Exec.bind_eq_ok.mp h
  obtain ⟨element, helement, h⟩ := Exec.bind_eq_ok.mp h
  obtain ⟨coordinates', hcoordinates', h'⟩ := Exec.bind_eq_ok.mp h'
  obtain ⟨wires', hwires', h'⟩ := Exec.bind_eq_ok.mp h'
  obtain ⟨element', helement', h'⟩ := Exec.bind_eq_ok.mp h'
  have heq := (Except.ok.inj h).trans (Except.ok.inj h').symm
  rw [CircuitStatements.mk.injEq] at heq
  obtain ⟨hsignature, rfl⟩ := heq
  obtain ⟨rfl, rfl, htags, hshare⟩ := Request.signatureWires_inj hsignature
  obtain ⟨hattributes, htime, hcontext⟩ :=
    Request.hashWires_inj hwires hwires' hcount
  refine ⟨issuerPublicKeyCoords_inj hcoordinates hcoordinates', hattributes,
    htime, htags, hshare, hcontext, ?_⟩
  intro hsha hcbor
  exact Request.eSessionTranscript_inj helement helement' hsha hcbor

end Statements

section NoContext

mutual

/-- The shortest encoding of each value but floating-point numbers, which keep
all of their bits. -/
def encodeValue : Value → List UInt8
  | .integer (.ofNat n) => cborHead 0 n
  | .integer (.negSucc n) => cborHead 1 n
  | .bytes bytes => cborHead 2 bytes.length ++ bytes
  | .float bits => 0xfb :: (Bytes.leBytes 8 bits.toNat).reverse
  | .text s => cborHead 3 (utf8 s).length ++ utf8 s
  | .bool b => [if b then 0xf5 else 0xf4]
  | .null => [0xf6]
  | .tag number value => cborHead 6 number ++ encodeValue value
  | .array values => cborHead 4 values.length ++ encodeValues values
  | .map entries => cborHead 5 entries.length ++ encodeEntries entries

def encodeValues : List Value → List UInt8
  | [] => []
  | value :: values => encodeValue value ++ encodeValues values

def encodeEntries : List (Value × Value) → List UInt8
  | [] => []
  | (key, value) :: entries =>
      encodeValue key ++ encodeValue value ++ encodeEntries entries

end

/-- The serializer, with a parser of the simple values. -/
local instance simpleCiborium : Ciborium where
  intoWriter := encodeValue
  fromReader
    | [0xf4] => pure (.bool false)
    | [0xf5] => pure (.bool true)
    | [0xf6] => pure .null
    | _ => fail "could not parse SessionTranscript"

/-- A request for proof of age. -/
def ageRequest (verifierContext : Option (Vector UInt8 32)) : Request where
  issuerPublicKeySec1 := 4 ::
    (Bytes.leBytes 32
      0x6b17d1f2e12c4247f8bce6e563a440f277037d812deb33a0f4a13945d898c296).reverse ++
    (Bytes.leBytes 32
      0x4fe342e2fe1a7f9b8ee7eb4a7c0f9e162bce33576b315ececbb6406837bf51f5).reverse
  attributes := [⟨"age_over_18", [0xf5]⟩]
  docType := "org.iso.18013.5.1.mDL"
  deviceNameSpacesBytes := [0xa0]
  sessionTranscript := [0xf6]
  time := "2026-01-01T00:00:00Z"
  macTags := Vector.replicate 6 1
  macVerifierKeyShare := 0
  verifierContext

/-- The authentication of the request. -/
def ageAuthentication : Value :=
  deviceAuthentication .null "org.iso.18013.5.1.mDL" [0xa0]

theorem signedMessages_ageRequest (verifierContext : Option (Vector UInt8 32)) :
    (ageRequest verifierContext).signedMessages ⊆
      {encodeValue (deviceSigStructure ageAuthentication)} := by
  rintro _ ⟨transcript, hread, rfl⟩
  obtain rfl : Value.null = transcript := Except.ok.inj hread
  rfl

theorem encodedValues_ageRequest (verifierContext : Option (Vector UInt8 32)) :
    (ageRequest verifierContext).encodedValues ⊆
      {ageAuthentication, .tag 24 (.bytes (encodeValue ageAuthentication)),
        deviceSigStructure ageAuthentication} := by
  rintro _ ⟨transcript, hread, hvalue⟩
  obtain rfl : Value.null = transcript := Except.ok.inj hread
  exact hvalue

theorem injOn_encodeValue : Set.InjOn encodeValue
    {ageAuthentication, .tag 24 (.bytes (encodeValue ageAuthentication)),
      deviceSigStructure ageAuthentication} := by
  have htag : encodeValue ageAuthentication ≠
      encodeValue (.tag 24 (.bytes (encodeValue ageAuthentication))) := by
    decide
  have hsig : encodeValue ageAuthentication ≠
      encodeValue (deviceSigStructure ageAuthentication) := by
    decide
  have htagSig : encodeValue (.tag 24 (.bytes (encodeValue ageAuthentication))) ≠
      encodeValue (deviceSigStructure ageAuthentication) := by
    decide
  rintro _ (rfl | rfl | rfl) _ (rfl | rfl | rfl) h
  · rfl
  · exact absurd h htag
  · exact absurd h hsig
  · exact absurd h.symm htag
  · rfl
  · exact absurd h htagSig
  · exact absurd h.symm hsig
  · exact absurd h.symm htagSig
  · rfl

/-- Version 6 has no wires for the verifier context, so that a request without
one and a request with one have the same statements. -/
theorem CircuitStatements.new_binds_ageRequest :
    (ageRequest none).attributes =
        (ageRequest (some (Vector.replicate 32 0))).attributes ∧
      (ageRequest none).docType =
        (ageRequest (some (Vector.replicate 32 0))).docType := by
  have hlawful : LawfulCiborium := ⟨fun _ => rfl⟩
  obtain ⟨statements, h⟩ := exists_of_isOk
    (m := new .v6 (ageRequest none)) (by decide +kernel)
  have h' : new .v6 (ageRequest (some (Vector.replicate 32 0))) =
      .ok statements := by
    have hlayout : InputLayout.new .v6 1 = .ok ⟨.v6, 1, by decide, by decide⟩ :=
      rfl
    rw [new_eq hlayout] at h ⊢
    exact h
  obtain ⟨-, hattributes, -, -, -, -, hsession⟩ := new_binds h h' rfl
  refine ⟨hattributes, (hsession ?_ ?_).1⟩
  · exact (Set.injOn_singleton runSha256 _).mono (Set.union_subset
      (signedMessages_ageRequest none) (signedMessages_ageRequest _))
  · exact injOn_encodeValue.mono (Set.union_subset
      (encodedValues_ageRequest none) (encodedValues_ageRequest _))

end NoContext

end Longfellow.MdocZk
