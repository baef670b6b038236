/-
What the encoder of circuits writes is read back, whatever follows it.
-/
import Longfellow.Codec

namespace Longfellow

open Exec CodecFieldElement Decoder

namespace Size

/-- The difference that a word stands for. -/
def signed (word : Nat) : Int :=
  if word % 2 = 1 then -((word / 2 : Nat) : Int) else ((word / 2 : Nat) : Int)

/-- The word for the difference of two sizes. -/
def deltaWord (size previous : Nat) : Nat :=
  if previous ≤ size then (size - previous) * 2
  else (previous - size) * 2 + 1

theorem signed_deltaWord (size previous : Nat) :
    (previous : Int) + signed (deltaWord size previous) = size := by
  rw [deltaWord, signed]
  split
  · have heven : (size - previous) * 2 % 2 = 0 := by omega
    rw [heven, if_neg (by decide)]
    omega
  · have hodd : ((previous - size) * 2 + 1) % 2 = 1 := by omega
    rw [if_pos hodd]
    omega

theorem tryFrom_eq_ok {value size : Nat} :
    tryFrom value = .ok size ↔ value < 2 ^ 32 ∧ size = value := by
  rw [tryFrom, ensure_bind_eq_ok, Exec.pure_eq_ok, Except.ok.injEq, eq_comm]

theorem encode_eq_ok {size : Nat} {bytes : List UInt8} :
    encode size = .ok bytes ↔ size < 2 ^ 24 ∧ bytes = Bytes.leBytes 3 size := by
  rw [encode, ensure_bind_eq_ok, Exec.pure_eq_ok, Except.ok.injEq, eq_comm]

/-- A size is three bytes. -/
theorem decode_format :
    Format decode (fun size => size < 2 ^ 24) (Bytes.leBytes 3) := by
  intro bs size rest
  rw [decode, Decoder.bind_eq_ok]
  constructor
  · rintro ⟨bytes, mid, hbytes, hlast⟩
    obtain ⟨hlength, rfl⟩ := (Format.takeBytes 3 _ _ _ _).mp hbytes
    obtain ⟨rfl, rfl⟩ := Decoder.pure_eq_ok.mp hlast
    constructor
    · have hlt := Bytes.ofLeBytes_lt bytes
      rw [hlength] at hlt
      exact hlt
    · rw [← hlength, Bytes.leBytes_ofLeBytes]
  · rintro ⟨hlt, rfl⟩
    refine ⟨Bytes.leBytes 3 size, rest, ?_, ?_⟩
    · exact (Format.takeBytes 3 _ _ _ _).mpr ⟨Bytes.length_leBytes 3 size, rfl⟩
    · rw [Bytes.ofLeBytes_leBytes 3 hlt]
      exact Decoder.pure_eq_ok.mpr ⟨rfl, rfl⟩

theorem decode_safe : Decoder.Safe decode fun size => size < 2 ^ 24 := by
  refine (takeBytes_safe 3 _).bind fun bytes hlength => Decoder.Safe.pure ?_
  have hlt := Bytes.ofLeBytes_lt bytes
  rwa [hlength] at hlt

theorem delta_eq_ok {size previous word : Nat} :
    delta size previous = .ok word ↔
      deltaWord size previous < 2 ^ 32 ∧ word = deltaWord size previous := by
  have hshift {difference word : Nat} : shift difference = .ok word ↔
      difference * 2 < 2 ^ 32 ∧ word = difference * 2 := by
    rw [shift, ensure_bind_eq_ok, Exec.pure_eq_ok, Except.ok.injEq, eq_comm]
  have hor (x : Nat) : x * 2 ||| 1 = x * 2 + 1 := by
    have hadd := Nat.shiftLeft_add_eq_or_of_lt (by decide : 1 < 2 ^ 1) x
    rw [Nat.shiftLeft_eq, pow_one] at hadd
    exact hadd.symm
  rw [delta, deltaWord]
  split
  · exact hshift
  · rw [Exec.bind_eq_ok]
    constructor
    · rintro ⟨shifted, hshifted, hword⟩
      obtain ⟨hlt, rfl⟩ := hshift.mp hshifted
      rw [hor] at hword
      cases hword
      exact ⟨by omega, rfl⟩
    · rintro ⟨hlt, rfl⟩
      exact ⟨_, hshift.mpr ⟨by omega, rfl⟩, by rw [hor]; rfl⟩

theorem encodeDelta_eq_ok {size previous : Nat} {bytes : List UInt8} :
    encodeDelta size previous = .ok bytes ↔
      deltaWord size previous < 2 ^ 24 ∧
        bytes = Bytes.leBytes 3 (deltaWord size previous) := by
  rw [encodeDelta, Exec.bind_eq_ok]
  constructor
  · rintro ⟨word, hword, hbytes⟩
    obtain ⟨-, rfl⟩ := delta_eq_ok.mp hword
    exact encode_eq_ok.mp hbytes
  · rintro ⟨hlt, rfl⟩
    exact ⟨_, delta_eq_ok.mpr ⟨by omega, rfl⟩, encode_eq_ok.mpr ⟨hlt, rfl⟩⟩

theorem applyDelta_eq (profile : Profile) (previous word : Nat) :
    applyDelta profile previous word =
      if word % 2 = 1 then profile.subU32 previous (word / 2)
      else profile.addU32 previous (word / 2) := by
  rw [applyDelta, Nat.and_one_is_mod, Nat.shiftRight_one]

/-- Where the exact sum is a `u32`, both profiles compute it. -/
theorem applyDelta_of_inRange (profile : Profile) {previous word size : Nat}
    (hprevious : previous < 2 ^ 32) (hsize : size < 2 ^ 32)
    (h : (previous : Int) + signed word = size) :
    applyDelta profile previous word = .ok size := by
  rw [applyDelta_eq]
  rw [signed] at h
  split at h
  · next hodd =>
      rw [if_pos hodd]
      have hsub : size = previous - word / 2 := by omega
      cases profile with
      | dev =>
          rw [Profile.subU32, checkedSub_of_le (by omega), hsub]
      | release =>
          have hmod : (previous + 2 ^ 32 - word / 2) % 2 ^ 32 = size := by
            omega
          rw [Profile.subU32, hmod]
          rfl
  · next heven =>
      rw [if_neg heven]
      have hadd : previous + word / 2 = size := by omega
      cases profile with
      | dev =>
          rw [Profile.addU32, hadd, assert_of hsize]
          rfl
      | release =>
          rw [Profile.addU32, hadd, Nat.mod_eq_of_lt hsize]
          rfl

/-- A size that was encoded as a difference is read back. -/
theorem decodeDelta_reads (profile : Profile) {size previous : Nat}
    (hsize : size < 2 ^ 32) (hprevious : previous < 2 ^ 32)
    {bytes : List UInt8} (h : encodeDelta size previous = .ok bytes) :
    Reads (decodeDelta profile previous) bytes size := by
  obtain ⟨hlt, rfl⟩ := encodeDelta_eq_ok.mp h
  intro rest
  apply Decoder.bind_eq_ok.mpr
  refine ⟨deltaWord size previous, rest, decode_format.reads hlt rest, ?_⟩
  apply ofExec_eq_ok.mpr
  exact ⟨applyDelta_of_inRange profile hprevious hsize
    (signed_deltaWord size previous), rfl⟩

end Size

namespace Quad

/-- The indices of a quad are `u32`s. -/
structure Fits (quad : Quad) : Prop where
  gate_lt : quad.gateIndex < 2 ^ 32
  left_lt : quad.leftWireIndex < 2 ^ 32
  right_lt : quad.rightWireIndex < 2 ^ 32

theorem zero_fits : zero.Fits := ⟨by decide, by decide, by decide⟩

theorem encodeIndex_eq_ok {value previous : Nat} {bytes : List UInt8} :
    encodeIndex value previous = .ok bytes ↔
      value < 2 ^ 32 ∧ previous < 2 ^ 32 ∧
        Size.encodeDelta value previous = .ok bytes := by
  rw [encodeIndex, Exec.bind_eq_ok]
  constructor
  · rintro ⟨size, hsize, hrest⟩
    obtain ⟨size', hsize', hbytes⟩ := Exec.bind_eq_ok.mp hrest
    obtain ⟨hvalue, rfl⟩ := Size.tryFrom_eq_ok.mp hsize
    obtain ⟨hprevious, rfl⟩ := Size.tryFrom_eq_ok.mp hsize'
    exact ⟨hvalue, hprevious, hbytes⟩
  · rintro ⟨hvalue, hlt, h⟩
    refine ⟨value, Size.tryFrom_eq_ok.mpr ⟨hvalue, rfl⟩, ?_⟩
    apply Exec.bind_eq_ok.mpr
    exact ⟨previous, Size.tryFrom_eq_ok.mpr ⟨hlt, rfl⟩, h⟩

theorem decodeIndex_reads (profile : Profile) {value previous : Nat}
    {bytes : List UInt8} (h : encodeIndex value previous = .ok bytes) :
    Reads (decodeIndex profile previous) bytes value := by
  obtain ⟨hvalue, hprevious, h⟩ := encodeIndex_eq_ok.mp h
  intro rest
  apply Decoder.bind_eq_ok.mpr
  refine ⟨previous, bytes ++ rest, ?_, ?_⟩
  · apply ofExec_eq_ok.mpr
    exact ⟨Size.tryFrom_eq_ok.mpr ⟨hprevious, rfl⟩, rfl⟩
  · exact Size.decodeDelta_reads profile hvalue hprevious h rest

theorem decodeWithParam_reads (profile : Profile) {quad : Quad}
    {prevQuad : Option Quad} {bytes : List UInt8}
    (h : quad.encodeWithParam prevQuad = .ok bytes) :
    Reads (decodeWithParam profile prevQuad) bytes quad := by
  rw [encodeWithParam] at h
  obtain ⟨gate, hgate, h⟩ := Exec.bind_eq_ok.mp h
  obtain ⟨left, hleft, h⟩ := Exec.bind_eq_ok.mp h
  obtain ⟨right, hright, h⟩ := Exec.bind_eq_ok.mp h
  obtain ⟨size, hsize, h⟩ := Exec.bind_eq_ok.mp h
  obtain ⟨-, rfl⟩ := Size.tryFrom_eq_ok.mp hsize
  obtain ⟨constant, hconstant, h⟩ := Exec.bind_eq_ok.mp h
  obtain ⟨hlt, rfl⟩ := Size.encode_eq_ok.mp hconstant
  cases h
  have hall : Reads (decodeWithParam profile prevQuad)
      (gate ++ (left ++ (right ++ (Bytes.leBytes 3 quad.constTableIndex ++ []))))
      quad :=
    (decodeIndex_reads profile hgate).bind <|
    (decodeIndex_reads profile hleft).bind <|
    (decodeIndex_reads profile hright).bind <|
    (Size.decode_format.reads hlt).bind <| Reads.pure quad
  simpa [List.append_assoc] using hall

end Quad

/-- An array is read back if every item is. -/
theorem encodeFixedArray_reads {α : Type} {encodeItem : α → Exec (List UInt8)}
    {item : Decoder α} {items : List α} {bytes : List UInt8}
    (hitem : ∀ x ∈ items, ∀ bytes, encodeItem x = .ok bytes →
      Reads item bytes x)
    (h : encodeFixedArray encodeItem items = .ok bytes) :
    Reads (Decoder.replicate item items.length) bytes items := by
  induction items generalizing bytes with
  | nil =>
      cases h
      exact Reads.pure []
  | cons x xs ih =>
      rw [encodeFixedArray] at h
      obtain ⟨first, hfirst, h⟩ := Exec.bind_eq_ok.mp h
      obtain ⟨rest, hrest, h⟩ := Exec.bind_eq_ok.mp h
      cases h
      have htail := ih (fun y hy => hitem y (List.mem_cons_of_mem x hy)) hrest
      have hlast : Reads (Decoder.replicate item xs.length >>= fun ys =>
          Pure.pure (x :: ys)) (rest ++ []) (x :: xs) :=
        htail.bind (Reads.pure _)
      rw [List.append_nil] at hlast
      exact (hitem x List.mem_cons_self first hfirst).bind hlast

theorem encodeArray_reads {α : Type} {encodeItem : α → Exec (List UInt8)}
    {item : Decoder α} {items : List α} {bytes : List UInt8}
    (hitem : ∀ x ∈ items, ∀ bytes, encodeItem x = .ok bytes →
      Reads item bytes x)
    (h : encodeArray encodeItem items = .ok bytes) :
    Reads (decodeArray item) bytes items := by
  rw [encodeArray, ensure_bind_eq_ok] at h
  obtain ⟨-, h⟩ := h
  obtain ⟨length, hlength, h⟩ := Exec.bind_eq_ok.mp h
  obtain ⟨hlt, rfl⟩ := Size.encode_eq_ok.mp hlength
  obtain ⟨rest, hrest, h⟩ := Exec.bind_eq_ok.mp h
  cases h
  exact (Size.decode_format.reads hlt).bind (encodeFixedArray_reads hitem hrest)

namespace CircuitLayer

theorem decodeQuads_reads (profile : Profile) {quads : List Quad}
    {prevQuad : Option Quad} {bytes : List UInt8}
    (h : encodeQuads quads prevQuad = .ok bytes) :
    Reads (decodeQuads profile quads.length prevQuad) bytes quads := by
  induction quads generalizing prevQuad bytes with
  | nil =>
      cases h
      exact Reads.pure []
  | cons quad quads ih =>
      rw [encodeQuads] at h
      obtain ⟨first, hfirst, h⟩ := Exec.bind_eq_ok.mp h
      obtain ⟨rest, hrest, h⟩ := Exec.bind_eq_ok.mp h
      cases h
      have hlast : Reads (decodeQuads profile quads.length (some quad) >>=
          fun ys => Pure.pure (quad :: ys)) (rest ++ []) (quad :: quads) :=
        (ih hrest).bind (Reads.pure _)
      rw [List.append_nil] at hlast
      exact (Quad.decodeWithParam_reads profile hfirst).bind hlast

theorem decode_reads (profile : Profile) {layer : CircuitLayer}
    (hquads : layer.quads.length < 2 ^ 32) {bytes : List UInt8}
    (h : layer.encode = .ok bytes) : Reads (decode profile) bytes layer := by
  rw [encode, Nat.mod_eq_of_lt hquads] at h
  obtain ⟨logw, hlogw, h⟩ := Exec.bind_eq_ok.mp h
  obtain ⟨numWires, hnumWires, h⟩ := Exec.bind_eq_ok.mp h
  obtain ⟨numQuads, hnumQuads, h⟩ := Exec.bind_eq_ok.mp h
  obtain ⟨quads, hencoded, h⟩ := Exec.bind_eq_ok.mp h
  cases h
  obtain ⟨hlogwLt, rfl⟩ := Size.encode_eq_ok.mp hlogw
  obtain ⟨hnumWiresLt, rfl⟩ := Size.encode_eq_ok.mp hnumWires
  obtain ⟨hnumQuadsLt, rfl⟩ := Size.encode_eq_ok.mp hnumQuads
  have hall : Reads (decode profile) (Bytes.leBytes 3 layer.logw ++
      (Bytes.leBytes 3 layer.numWires ++
        (Bytes.leBytes 3 layer.quads.length ++ (quads ++ [])))) layer :=
    (Size.decode_format.reads hlogwLt).bind <|
    (Size.decode_format.reads hnumWiresLt).bind <|
    (Size.decode_format.reads hnumQuadsLt).bind <|
    (decodeQuads_reads profile hencoded).bind <| Reads.pure layer
  simpa [List.append_assoc] using hall

end CircuitLayer

theorem FieldId.decode_reads (id : FieldId) :
    Reads FieldId.decode id.encode id := by
  have hlt : id.asNat < 2 ^ 24 := by cases id <;> decide
  intro rest
  apply Decoder.bind_eq_ok.mpr
  refine ⟨id.asNat, rest, Size.decode_format.reads hlt rest, ?_⟩
  cases id <;> rfl

theorem Sha256Digest.decode_reads (digest : Sha256Digest) :
    Reads Sha256Digest.decode digest.encode digest := by
  intro rest
  apply Decoder.bind_eq_ok.mpr
  refine ⟨digest.bytes, rest, takeBytes_reads digest.length_bytes _ rest, ?_⟩
  apply ofExec_eq_ok.mpr
  exact ⟨by rw [Sha256Digest.ofBytes, dif_pos digest.length_bytes]; rfl, rfl⟩

namespace Circuit

variable {F : Type} [CodecFieldElement F]

theorem encodeSize_eq_ok {value : Nat} {bytes : List UInt8} :
    encodeSize value = .ok bytes ↔
      value < 2 ^ 24 ∧ bytes = Bytes.leBytes 3 value := by
  rw [encodeSize, Exec.bind_eq_ok]
  constructor
  · rintro ⟨size, hsize, hbytes⟩
    obtain ⟨-, rfl⟩ := Size.tryFrom_eq_ok.mp hsize
    exact Size.encode_eq_ok.mp hbytes
  · rintro ⟨hlt, hbytes⟩
    exact ⟨value, Size.tryFrom_eq_ok.mpr ⟨by omega, rfl⟩,
      Size.encode_eq_ok.mpr ⟨hlt, hbytes⟩⟩

variable [LawfulCodec F]

theorem decodeHeader_reads {circuit : Circuit F} {bytes : List UInt8}
    (h : circuit.encodeHeader = .ok bytes) :
    Reads decodeHeader bytes { circuit with layers := [], id := default } := by
  rw [encodeHeader] at h
  obtain ⟨numOutputs, hnumOutputs, h⟩ := Exec.bind_eq_ok.mp h
  obtain ⟨numCopies, hnumCopies, h⟩ := Exec.bind_eq_ok.mp h
  obtain ⟨numPublicInputs, hnumPublicInputs, h⟩ := Exec.bind_eq_ok.mp h
  obtain ⟨subfieldBoundary, hsubfieldBoundary, h⟩ := Exec.bind_eq_ok.mp h
  obtain ⟨numInputs, hnumInputs, h⟩ := Exec.bind_eq_ok.mp h
  obtain ⟨numLayers, hnumLayers, h⟩ := Exec.bind_eq_ok.mp h
  obtain ⟨constantTable, hconstantTable, h⟩ := Exec.bind_eq_ok.mp h
  cases h
  have hsize {value : Nat} {bytes : List UInt8}
      (h : encodeSize value = .ok bytes) : Reads Size.decode bytes value := by
    obtain ⟨hlt, rfl⟩ := encodeSize_eq_ok.mp h
    exact Size.decode_format.reads hlt
  have hconstants : Reads (decodeArray CodecFieldElement.decode) constantTable
      circuit.constantTable := by
    refine encodeArray_reads (fun x _ bytes hbytes => ?_) hconstantTable
    cases hbytes
    exact LawfulCodec.decode_reads x
  have hversion : Reads (takeBytes 1 "failed to read u8") [circuit.version]
      [circuit.version] := takeBytes_reads List.length_singleton _
  have hcheck : Reads (ofExec (checkFieldId F (fieldId F))) [] () :=
    fun rest => ofExec_eq_ok.mpr ⟨ensure_of rfl, rfl⟩
  have hall : Reads decodeHeader ([circuit.version] ++
      (FieldId.encode (fieldId F) ++ ([] ++ (numOutputs ++ (numCopies ++
        (numPublicInputs ++ (subfieldBoundary ++ (numInputs ++ (numLayers ++
          (constantTable ++ []))))))))))
      { circuit with layers := [], id := default } :=
    hversion.bind <|
    (FieldId.decode_reads (fieldId F)).bind <|
    hcheck.bind <|
    (hsize hnumOutputs).bind <|
    (hsize hnumCopies).bind <|
    (hsize hnumPublicInputs).bind <|
    (hsize hsubfieldBoundary).bind <|
    (hsize hnumInputs).bind <|
    (hsize hnumLayers).bind <|
    hconstants.bind <| Reads.pure _
  simpa [List.append_assoc] using hall

/-- A circuit that was encoded is read back. -/
theorem decode_reads (profile : Profile) {circuit : Circuit F}
    (hquads : ∀ layer ∈ circuit.layers, layer.quads.length < 2 ^ 32)
    {bytes : List UInt8} (h : circuit.encode = .ok bytes) :
    Reads (decode profile) bytes circuit := by
  rw [encode] at h
  obtain ⟨header, hheader, h⟩ := Exec.bind_eq_ok.mp h
  obtain ⟨hlength, h⟩ := ensure_bind_eq_ok.mp h
  obtain ⟨layers, hlayers, h⟩ := Exec.bind_eq_ok.mp h
  cases h
  have hread : Reads (Decoder.context "failed to decode layers"
      (Decoder.replicate (CircuitLayer.decode profile) circuit.numLayers))
      layers circuit.layers := by
    intro rest
    rw [hlength]
    apply Decoder.context_eq_ok.mpr
    exact encodeFixedArray_reads (fun layer hlayer bytes hbytes =>
      CircuitLayer.decode_reads profile (hquads layer hlayer) hbytes) hlayers
      rest
  have hall : Reads (decode profile)
      (header ++ (layers ++ (circuit.id.encode ++ []))) circuit :=
    (decodeHeader_reads hheader).bind <|
    hread.bind <|
    (Sha256Digest.decode_reads circuit.id).bind <| Reads.pure circuit
  simpa [List.append_assoc] using hall

end Circuit

end Longfellow
