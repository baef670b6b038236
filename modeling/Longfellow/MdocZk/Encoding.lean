/-
The wires of the credential statements as functions of what a verifier asks
for, with no reference to what the wires held before.
-/
import Longfellow.MdocZk.Statements

namespace Longfellow.MdocZk

open Exec

section Bits

/-- Eight wires for each byte. -/
def byteBits (bytes : List UInt8) : List Field2_128 :=
  bytes.flatMap (bitElements 8)

/-- One wire for each bit of an element. -/
def elementBits (element : Field2_128) : List FieldP256 :=
  element.iterBits.map fun bit => if bit then 1 else 0

@[simp] theorem length_bitElements (n : Nat) (bits : UInt8) :
    (bitElements n bits).length = n := by
  induction n generalizing bits with
  | zero => rfl
  | succ n ih => rw [bitElements, List.length_cons, ih]

@[simp] theorem length_byteBits (bytes : List UInt8) :
    (byteBits bytes).length = bytes.length * 8 := by
  simp [byteBits, List.length_flatMap]

@[simp] theorem length_elementBits (element : Field2_128) :
    (elementBits element).length = 128 := by
  simp [elementBits]

/-- An array with one chunk for each item is overwritten whole. -/
theorem fillChunks_eq {α β : Type} {size : Nat} {fill : α → List β → List β}
    {code : α → List β}
    (hfill : ∀ item chunk, chunk.length = size → fill item chunk = code item)
    {items : List α} {out : List β} (hout : out.length = items.length * size) :
    fillChunks size fill items out = items.flatMap code := by
  induction items generalizing out with
  | nil =>
      have hnil : out = [] := by simpa using hout
      rw [hnil]
      rfl
  | cons item items ih =>
      rw [List.length_cons, Nat.succ_mul] at hout
      have hsize : size ≤ out.length := by omega
      have htake : (out.take size).length = size := by simpa using hsize
      have hdrop : (out.drop size).length = items.length * size := by
        rw [List.length_drop]
        omega
      rw [fillChunks, if_pos hsize, hfill item _ htake, ih hdrop,
        List.flatMap_cons]

theorem byteArrayAsBits_eq {bytes : List UInt8} {out : List Field2_128}
    (hout : out.length = bytes.length * 8) :
    byteArrayAsBits bytes out = byteBits bytes := by
  rw [byteArrayAsBits, byteBits]
  apply fillChunks_eq _ hout
  intro byte chunk _
  rfl

/-- Where each position has an item, only the items count. -/
theorem zipWith_eq_map {α β γ : Type} (f : α → γ) {items : List α}
    {out : List β} (hout : out.length = items.length) :
    List.zipWith (fun item _ => f item) items out = items.map f := by
  induction items generalizing out with
  | nil => rfl
  | cons item items ih =>
      cases out with
      | nil => simp at hout
      | cons first out =>
          have hlength : out.length = items.length := by simpa using hout
          rw [List.zipWith_cons_cons, List.map_cons, ih hlength]

theorem setBits_eq (element : Field2_128) {wires : List FieldP256}
    (hwires : wires.length = 128) :
    setBits element wires = elementBits element := by
  have hlength : wires.length = element.iterBits.length := by
    rw [hwires, Field2_128.length_iterBits]
  rw [setBits, zipWith_eq_map _ hlength, ← hlength, List.drop_length,
    List.append_nil, elementBits]

theorem macTagBits_eq {macTags : List Field2_128} {wires : List FieldP256}
    (hwires : wires.length = macTags.length * 128) :
    fillChunks 128 setBits macTags wires = macTags.flatMap elementBits := by
  apply fillChunks_eq _ hwires
  intro tag chunk hchunk
  exact setBits_eq tag hchunk

end Bits

section Attributes

variable [Ciborium]

/-- The wires of one attribute. -/
def PublicAttribute.wires (version : CircuitVersion) (attr : PublicAttribute) :
    Exec (List Field2_128) :=
  match version with
  | .v6 => do
      let serialized ← attr.serializeV6
      ensure (serialized.length < 2 ^ 8) "attribute contents are too long"
      pure (byteBits serialized.buffer ++
        byteBits [UInt8.ofNat serialized.length])
  | .v7 | .v8 => do
      let serialized ← attr.serializeV7
      pure (byteBits serialized.identifierBuffer ++
        byteBits serialized.valueBuffer ++
        byteBits [UInt8.ofNat serialized.identifierLength] ++
        byteBits [UInt8.ofNat serialized.valueLength])

omit [Ciborium] in
theorem length_buffer {capacity : Nat} {written : List UInt8}
    (h : written.length ≤ capacity) :
    (buffer capacity written).length = capacity := by
  simp [buffer, h]

omit [Ciborium] in
theorem writeAll_eq_ok {capacity : Nat} {written bytes result : List UInt8}
    {message : String} :
    writeAll capacity written bytes message = .ok result ↔
      (written ++ bytes).length ≤ capacity ∧ result = written ++ bytes := by
  rw [writeAll, Exec.bind_eq_ok, List.length_append]
  constructor
  · rintro ⟨_, hfits, hresult⟩
    exact ⟨ensure_eq_ok.mp hfits, (Except.ok.inj hresult).symm⟩
  · rintro ⟨hfits, hresult⟩
    exact ⟨(), ensure_eq_ok.mpr hfits, hresult ▸ rfl⟩

/-- The three parts of the buffer of version 6 follow each other. -/
theorem PublicAttribute.serializeV6_eq_ok {attr : PublicAttribute}
    {serialized : SerializedAttributeV6} :
    attr.serializeV6 = .ok serialized ↔
      let written := attr.identifier ++
        Ciborium.intoWriter (.text "elementValue") ++ attr.value
      written.length ≤ attributeCborDataLengthV6 ∧
        serialized = ⟨buffer attributeCborDataLengthV6 written, written.length⟩ := by
  simp only [serializeV6, Exec.bind_eq_ok, writeAll_eq_ok, List.nil_append,
    pure_eq_ok]
  constructor
  · rintro ⟨_, ⟨-, rfl⟩, _, ⟨-, rfl⟩, _, ⟨hfits, rfl⟩, hserialized⟩
    exact ⟨hfits, (Except.ok.inj hserialized).symm⟩
  · rintro ⟨hfits, rfl⟩
    rw [List.length_append, List.length_append] at hfits
    refine ⟨_, ⟨?_, rfl⟩, _, ⟨?_, rfl⟩, _, ⟨?_, rfl⟩, rfl⟩
    · omega
    · rw [List.length_append]
      omega
    · rw [List.length_append, List.length_append]
      exact hfits

omit [Ciborium] in
theorem PublicAttribute.serializeV7_eq_ok {attr : PublicAttribute}
    {serialized : SerializedAttributeV7} :
    attr.serializeV7 = .ok serialized ↔
      attr.identifier.length ≤ attributeCborIdentifierLengthV7 ∧
      attr.value.length ≤ attributeCborValueLengthV7 ∧
      serialized =
        { identifierBuffer :=
            buffer attributeCborIdentifierLengthV7 attr.identifier
          identifierLength :=
            elementIdentifierKeySerializedLength + attr.identifier.length
          valueBuffer := buffer attributeCborValueLengthV7 attr.value
          valueLength := elementValueKeySerializedLength + attr.value.length } := by
  simp only [serializeV7, Exec.bind_eq_ok, writeAll_eq_ok, List.nil_append,
    pure_eq_ok]
  constructor
  · rintro ⟨_, ⟨hidentifier, rfl⟩, _, ⟨hvalue, rfl⟩, hserialized⟩
    exact ⟨hidentifier, hvalue, (Except.ok.inj hserialized).symm⟩
  · rintro ⟨hidentifier, hvalue, rfl⟩
    exact ⟨_, ⟨hidentifier, rfl⟩, _, ⟨hvalue, rfl⟩, rfl⟩

/-- An attribute is written into wires of the right number as its own wires
alone. -/
theorem fillAttributeStatementV6_wires {chunk : List Field2_128}
    (hchunk : chunk.length = AttributeInputV6.length) (attr : PublicAttribute) :
    (fillAttributeStatementV6 (AttributeInputV6.split chunk) attr).map
      AttributeInputV6.wires = attr.wires .v6 := by
  rw [fillAttributeStatementV6, PublicAttribute.wires]
  rcases hserialized : attr.serializeV6 with _ | serialized
  · rfl
  · obtain ⟨hfits, rfl⟩ := PublicAttribute.serializeV6_eq_ok.mp hserialized
    simp only [ok_bind]
    by_cases hbyte : (attr.identifier ++ Ciborium.intoWriter
        (.text "elementValue") ++ attr.value).length < 2 ^ 8
    · rw [ensure_of hbyte, ok_bind, ok_bind, byteArrayAsBits_eq,
        byteArrayAsBits_eq]
      · rfl
      · simp [AttributeInputV6.split, hchunk, AttributeInputV6.length]
      · rw [length_buffer hfits]
        simp [AttributeInputV6.split, hchunk, AttributeInputV6.length]
    · rw [ensure, if_neg hbyte]
      rfl

theorem fillAttributeStatementV7_wires {chunk : List Field2_128}
    (hchunk : chunk.length = AttributeInputV7.length) (attr : PublicAttribute) :
    (fillAttributeStatementV7 (AttributeInputV7.split chunk) attr).map
      AttributeInputV7.wires = attr.wires .v7 := by
  rw [fillAttributeStatementV7, PublicAttribute.wires]
  rcases hserialized : attr.serializeV7 with _ | serialized
  · rfl
  · obtain ⟨hidentifier, hvalue, rfl⟩ :=
      PublicAttribute.serializeV7_eq_ok.mp hserialized
    simp only [ok_bind]
    rw [byteArrayAsBits_eq, byteArrayAsBits_eq, byteArrayAsBits_eq,
      byteArrayAsBits_eq]
    · rfl
    · simp [AttributeInputV7.split, hchunk, AttributeInputV7.length,
        attributeCborIdentifierLengthV7, attributeCborValueLengthV7]
    · simp [AttributeInputV7.split, hchunk, AttributeInputV7.length,
        attributeCborIdentifierLengthV7, attributeCborValueLengthV7]
    · rw [length_buffer hvalue]
      simp [AttributeInputV7.split, hchunk, AttributeInputV7.length,
        attributeCborIdentifierLengthV7, attributeCborValueLengthV7]
    · rw [length_buffer hidentifier]
      simp [AttributeInputV7.split, hchunk, AttributeInputV7.length,
        attributeCborIdentifierLengthV7, attributeCborValueLengthV7]

omit [Ciborium] in
/-- The chunks of a long enough input go with the attributes one by one. -/
theorem forall₂_splitChunks {α : Type} {size : Nat}
    (split : List Field2_128 → α) {attributes : List PublicAttribute}
    {input : List Field2_128}
    (hinput : attributes.length * size ≤ input.length) :
    List.Forall₂
      (fun entry attr => ∃ chunk, chunk.length = size ∧
        entry = (split chunk, attr))
      ((InputLayout.splitChunks size split attributes.length input).zip
        attributes) attributes := by
  induction attributes generalizing input with
  | nil => exact List.Forall₂.nil
  | cons attr attributes ih =>
      rw [List.length_cons, Nat.succ_mul] at hinput
      have htake : (input.take size).length = size := by
        rw [List.length_take]
        omega
      have hdrop : attributes.length * size ≤ (input.drop size).length := by
        rw [List.length_drop]
        omega
      exact List.Forall₂.cons ⟨_, htake, rfl⟩ (ih hdrop)

omit [Ciborium] in
/-- Chunks of one input that are filled one by one hold the wires of the
attributes. -/
theorem mapM_splitChunks {α : Type} {size : Nat}
    {split : List Field2_128 → α} {fill : α → PublicAttribute → Exec α}
    {wires : α → List Field2_128} {code : PublicAttribute → Exec (List Field2_128)}
    (hfill : ∀ chunk attr, chunk.length = size →
      (fill (split chunk) attr).map wires = code attr)
    {attributes : List PublicAttribute} {input : List Field2_128}
    (hinput : attributes.length * size ≤ input.length) :
    (((InputLayout.splitChunks size split attributes.length input).zip
      attributes).mapM fun entry => fill entry.1 entry.2).map
        (List.flatMap wires) = (attributes.mapM code).map List.flatten := by
  have hcodes : (((InputLayout.splitChunks size split attributes.length
      input).zip attributes).mapM fun entry => fill entry.1 entry.2).map
        (List.map wires) = attributes.mapM code := by
    rw [map_mapM]
    apply mapM_forall₂ (forall₂_splitChunks split hinput)
    rintro _ attr ⟨chunk, hchunk, rfl⟩
    exact hfill chunk attr hchunk
  rw [← hcodes]
  rcases List.mapM _ _ with _ | filled
  · rfl
  · exact congrArg Except.ok List.flatMap_def

theorem fillAttributeStatements_wires {layout : InputLayout}
    {attributes : List PublicAttribute} {input : List Field2_128}
    (hattributes : attributes.length = layout.attributes)
    (hinput : layout.attributes * layout.wiresPerAttribute ≤ input.length) :
    (fillAttributeStatements (layout.splitAttributeInputs input)
      attributes).map AttributeInputs.wires =
      (attributes.mapM (PublicAttribute.wires layout.version)).map
        List.flatten := by
  rw [← hattributes, InputLayout.wiresPerAttribute] at hinput
  rw [InputLayout.splitAttributeInputs, ← hattributes]
  cases hversion : layout.version with
  | v6 =>
      rw [hversion] at hinput
      rw [← mapM_splitChunks (fun _ attr h =>
        fillAttributeStatementV6_wires h attr) hinput]
      simp only [fillAttributeStatements]
      rcases List.mapM _ _ <;> rfl
  | v7 =>
      rw [hversion] at hinput
      rw [← mapM_splitChunks (fun _ attr h =>
        fillAttributeStatementV7_wires h attr) hinput]
      simp only [fillAttributeStatements]
      rcases List.mapM _ _ <;> rfl
  | v8 =>
      rw [hversion] at hinput
      have hv7 : PublicAttribute.wires .v8 = PublicAttribute.wires .v7 := rfl
      rw [hv7, ← mapM_splitChunks (fun _ attr h =>
        fillAttributeStatementV7_wires h attr) hinput]
      simp only [fillAttributeStatements]
      rcases List.mapM _ _ <;> rfl

end Attributes

namespace InputLayout

theorem new_eq_ok {version : CircuitVersion} {attributes : Nat}
    {layout : InputLayout} (h : new version attributes = .ok layout) :
    layout.version = version ∧ layout.attributes = attributes := by
  rw [new] at h
  split_ifs at h
  · cases h
    exact ⟨rfl, rfl⟩
  · cases h
  · cases h

/-- The segments of a signature statement, whatever its wires hold. -/
theorem splitSignatureStatement_of_length {input : List FieldP256}
    (hinput : input.length = signatureStatementLength) :
    ∃ statement, splitSignatureStatement input = .ok statement ∧
      statement.macTags.length = 6 * 128 ∧
      statement.macVerifierKeyShare.length = 128 := by
  have hlength : input.length = 900 := hinput
  rw [splitSignatureStatement, assert_of hinput, ok_bind,
    index_of_lt (by omega), ok_bind, index_of_lt (by omega), ok_bind,
    index_of_lt (by omega), ok_bind, index_of_lt (by omega), ok_bind]
  refine ⟨_, rfl, ?_, ?_⟩
  · simp [hlength]
  · simp [hlength]

/-- The wires of the verifier context are there in version 8 only. -/
def ContextWires (version : CircuitVersion)
    (wires : Option (List Field2_128)) : Prop :=
  match version with
  | .v6 | .v7 => wires = none
  | .v8 => ∃ context, wires = some context ∧
      context.length = verifierContextBytes * 8

/-- The segments of a hash statement, whatever its wires hold. -/
theorem splitHashStatement_of_length {layout : InputLayout}
    {input : List Field2_128}
    (hinput : input.length = layout.hashStatementLength) :
    ∃ statement, layout.splitHashStatement input = .ok statement ∧
      statement.attributeInputs =
        layout.splitAttributeInputs (input.drop 1) ∧
      statement.time.length = 20 * 8 ∧
      ContextWires layout.version statement.verifierContext := by
  have hlength := hinput
  rw [hashStatementLength] at hlength
  rw [splitHashStatement, assert_of hinput, ok_bind,
    index_of_lt (by omega), ok_bind]
  dsimp only
  rw [index_of_lt, ok_bind]
  · refine ⟨_, rfl, rfl, ?_, ?_⟩
    · simp only [List.length_take, List.length_drop]
      omega
    · rw [splitVerifierContext]
      cases hversion : layout.version with
      | v6 => rfl
      | v7 => rfl
      | v8 =>
          rw [verifierContextWires, hversion] at hlength
          dsimp only at hlength
          refine ⟨_, rfl, ?_⟩
          simp only [List.length_take, List.length_drop]
          omega
  · simp only [List.length_drop]
    omega

end InputLayout

section Statements

variable [Ciborium]

/-- The wires of the verifier context. -/
def contextWires (version : CircuitVersion)
    (context : Option (Vector UInt8 32)) : Exec (List Field2_128) :=
  match version with
  | .v6 | .v7 => pure []
  | .v8 =>
      match context with
      | some context => pure (byteBits context.toList)
      | none => fail "verifier_context required for V8"

namespace Request

/-- The wires of the attributes that are asked for. -/
def attributeWires (version : CircuitVersion) (request : Request) :
    Exec (List (List Field2_128)) :=
  (request.attributes.map Attribute.asPublicAttribute).mapM
    (PublicAttribute.wires version)

/-- The wires of the hash statement. -/
def hashWires (version : CircuitVersion) (request : Request) :
    Exec (List Field2_128) := do
  let attributes ← request.attributeWires version
  ensure ((utf8 request.time).length = 20)
    "current time is not correctly formatted, must be 20 bytes long"
  let context ← contextWires version request.verifierContext
  pure ([1] ++ attributes.flatten ++ byteBits (utf8 request.time) ++ context ++
    request.macTags.toList ++ [request.macVerifierKeyShare])

/-- The wires of the signature statement. -/
def signatureWires (request : Request) (coordinates : FieldP256 × FieldP256)
    (eSessionTranscript : FieldP256) : List FieldP256 :=
  [1, coordinates.1, coordinates.2, eSessionTranscript] ++
    request.macTags.toList.flatMap elementBits ++
    elementBits request.macVerifierKeyShare

/-- The field element of the session transcript. -/
def eSessionTranscript (request : Request) : Exec FieldP256 := do
  let digest ← computeSessionTranscriptHash request.docType
    request.deviceNameSpacesBytes request.sessionTranscript
  hashToFieldElement digest

end Request

namespace CircuitStatements

omit [Ciborium] in
theorem fillVerifierContext_wires {version : CircuitVersion}
    {wires : Option (List Field2_128)}
    (hwires : InputLayout.ContextWires version wires)
    (context : Option (Vector UInt8 32)) :
    (fillVerifierContext wires context).map (·.getD []) =
      contextWires version context := by
  cases version with
  | v6 =>
      rw [InputLayout.ContextWires] at hwires
      rw [hwires]
      rfl
  | v7 =>
      rw [InputLayout.ContextWires] at hwires
      rw [hwires]
      rfl
  | v8 =>
      obtain ⟨old, rfl, hlength⟩ := hwires
      cases context with
      | none => rfl
      | some context =>
          have hbytes : old.length = context.toList.length * 8 := by
            rw [hlength, Vector.length_toList]
            rfl
          rw [fillVerifierContext, byteArrayAsBits_eq hbytes]
          rfl

/-- The hash statement that is filled in holds the wires of the request. -/
theorem fillHashStatement_wires {layout : InputLayout} {request : Request}
    {input : List Field2_128} {statement : SplitHashStatement}
    (hattributes : request.attributes.length = layout.attributes)
    (hinput : input.length = layout.hashStatementLength)
    (hsplit : layout.splitHashStatement input = .ok statement) :
    (fillHashStatement statement request).map SplitHashStatement.wires =
      request.hashWires layout.version := by
  obtain ⟨split, hsplitEq, hinputs, htime, hcontext⟩ :=
    InputLayout.splitHashStatement_of_length hinput
  rw [hsplit] at hsplitEq
  cases hsplitEq
  have hlength : layout.attributes * layout.wiresPerAttribute ≤
      (input.drop 1).length := by
    rw [InputLayout.hashStatementLength] at hinput
    rw [List.length_drop]
    omega
  have hcount : (request.attributes.map Attribute.asPublicAttribute).length =
      layout.attributes := by
    rw [List.length_map, hattributes]
  have hattributeWires := fillAttributeStatements_wires hcount hlength
  rw [← hinputs] at hattributeWires
  have hcontextWires :=
    fillVerifierContext_wires hcontext request.verifierContext
  rw [fillHashStatement, Request.hashWires, Request.attributeWires,
    ← hcontextWires]
  rcases hcodes : (request.attributes.map Attribute.asPublicAttribute).mapM
    (PublicAttribute.wires layout.version) with _ | codes
  · rw [hcodes] at hattributeWires
    rw [map_eq_error.mp hattributeWires]
    rfl
  · rw [hcodes] at hattributeWires
    obtain ⟨filled, hfilled, hwires⟩ := map_eq_ok.mp hattributeWires
    rw [hfilled, ok_bind, ok_bind]
    by_cases hbytes : (utf8 request.time).length = 20
    · rw [ensure_of hbytes, ok_bind, ok_bind]
      rcases fillVerifierContext statement.verifierContext
        request.verifierContext with _ | context
      · rfl
      · have htimeBits : byteArrayAsBits (utf8 request.time) statement.time =
            byteBits (utf8 request.time) := by
          apply byteArrayAsBits_eq
          rw [htime, hbytes]
        rw [htimeBits, ← hwires]
        rfl
    · rw [ensure, if_neg hbytes]
      rfl

/-- The statements are the wires of the request, one after the other. -/
theorem new_eq {version : CircuitVersion} {request : Request}
    {layout : InputLayout}
    (hlayout : InputLayout.new version request.attributes.length = .ok layout) :
    new version request = (do
      let coordinates ← issuerPublicKeyCoords request.issuerPublicKeySec1
      let hash ← request.hashWires version
      let eSessionTranscript ← request.eSessionTranscript
      pure ⟨request.signatureWires coordinates eSessionTranscript, hash⟩) := by
  obtain ⟨hversion, hattributes⟩ := InputLayout.new_eq_ok hlayout
  obtain ⟨signature, hsignature, hmacTags, hshare⟩ :=
    InputLayout.splitSignatureStatement_of_length
      (List.length_replicate (a := (0 : FieldP256)))
  have hzeros : (List.replicate layout.hashStatementLength
      (0 : Field2_128)).length = layout.hashStatementLength :=
    List.length_replicate
  obtain ⟨hash, hhash, -⟩ := InputLayout.splitHashStatement_of_length hzeros
  have hwires := fillHashStatement_wires hattributes.symm hzeros hhash
  rw [hversion] at hwires
  have htags : signature.macTags.length =
      request.macTags.toList.length * 128 := by
    rw [hmacTags, Vector.length_toList]
  rw [new, hlayout, ok_bind, hsignature, ok_bind, hhash, ok_bind, ← hwires,
    Request.eSessionTranscript]
  rcases issuerPublicKeyCoords request.issuerPublicKeySec1 with _ | coordinates
  · rfl
  · rw [ok_bind, ok_bind]
    rcases fillHashStatement hash request with _ | filled
    · rfl
    · have hmap : Except.map SplitHashStatement.wires (.ok filled) =
          (.ok filled.wires : Exec (List Field2_128)) := rfl
      rw [hmap, ok_bind, ok_bind]
      rcases computeSessionTranscriptHash request.docType
        request.deviceNameSpacesBytes request.sessionTranscript with _ | digest
      · rfl
      · rw [ok_bind, ok_bind]
        rcases hashToFieldElement digest with _ | element
        · rfl
        · rw [ok_bind, ok_bind, macTagBits_eq htags, setBits_eq _ hshare]
          rfl

end CircuitStatements

end Statements

end Longfellow.MdocZk
