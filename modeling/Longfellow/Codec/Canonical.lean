/-
Encoding a decoded circuit again: it succeeds exactly when no running sum of
the differences left the range of a `u32`, and then it gives the same bytes
exactly when no difference is written as minus zero.
-/
import Longfellow.Codec.Deltas
import Longfellow.Fields.FieldP128

namespace Longfellow

open Exec CodecFieldElement Decoder

/-- As many bytes are written as were read, and the same ones exactly when they
were canonical. -/
def Rewritten (read : List UInt8) (canonical : Prop) (bytes : List UInt8) :
    Prop :=
  bytes.length = read.length ∧ (bytes = read ↔ canonical)

namespace Rewritten

variable {read read' bytes bytes' : List UInt8} {canonical canonical' : Prop}

theorem refl (bytes : List UInt8) : Rewritten bytes True bytes :=
  ⟨rfl, by simp⟩

theorem append (h : Rewritten read canonical bytes)
    (h' : Rewritten read' canonical' bytes') :
    Rewritten (read ++ read') (canonical ∧ canonical') (bytes ++ bytes') := by
  obtain ⟨hlength, hiff⟩ := h
  obtain ⟨hlength', hiff'⟩ := h'
  constructor
  · rw [List.length_append, List.length_append, hlength, hlength']
  · rw [← hiff, ← hiff']
    constructor
    · exact fun heq => List.append_inj heq hlength
    · rintro ⟨rfl, rfl⟩
      rfl

theorem congr (h : Rewritten read canonical bytes)
    (hiff : canonical ↔ canonical') : Rewritten read canonical' bytes :=
  ⟨h.1, h.2.trans hiff⟩

end Rewritten

namespace Size

/-- The word that the encoder writes for a difference that was read. -/
theorem deltaWord_of_signed {previous word size : Nat}
    (h : (previous : Int) + signed word = size) :
    deltaWord size previous = if word = 1 then 0 else word := by
  rw [signed] at h
  rw [deltaWord]
  split at h
  · next hodd =>
      by_cases hone : word = 1
      · rw [if_pos (by omega), if_pos hone]
        omega
      · rw [if_neg (by omega), if_neg hone]
        omega
  · next heven =>
      rw [if_pos (by omega), if_neg (by omega)]
      omega

end Size

namespace Quad

theorem encodeIndex_rewrites {previous word value : Nat} {sum : Int}
    (h : IsSum previous sum) (hword : word < 2 ^ 24)
    (hvalue : IsSum value (sum + Size.signed word)) :
    Returns (encodeIndex value previous)
      (Rewritten (Bytes.leBytes 3 word) (word ≠ 1)) := by
  obtain ⟨rfl, hprevious⟩ := h
  have hdelta := Size.deltaWord_of_signed hvalue.1.symm
  have hlt : Size.deltaWord value previous < 2 ^ 24 := by
    rw [hdelta]
    split
    · decide
    · exact hword
  refine ⟨_, encodeIndex_eq_ok.mpr ⟨hvalue.2, hprevious,
    Size.encodeDelta_eq_ok.mpr ⟨hlt, rfl⟩⟩, by simp, ?_⟩
  rw [hdelta]
  constructor
  · rintro heq rfl
    exact absurd (Bytes.leBytes_inj (by decide) (by decide) heq) (by decide)
  · intro hne
    rw [if_neg hne]

/-- A sum in range, as an index. -/
theorem isSum_toNat {delta : Delta} (h : delta.InRange) :
    IsSum delta.sum.toNat delta.sum := by
  obtain ⟨hnonneg, hlt⟩ := h
  exact ⟨Int.toNat_of_nonneg hnonneg, by omega⟩

theorem encodeWithParam_rewrites {prevQuad : Option Quad} {sums next : Sums}
    (h : (prevQuad.getD zero).IsSums sums) {constTableIndex : Nat}
    {bs rest : List UInt8} {entries : List Delta}
    (hread : (readQuad sums).run bs =
      (entries, some ((next, constTableIndex), rest)))
    (hgood : ∀ delta ∈ entries, delta.InRange) :
    (next.toQuad constTableIndex).IsSums next ∧
      entries.map Delta.sum = [next.gate, next.left, next.right] ∧
      ∃ read, bs = read ++ rest ∧
        Returns ((next.toQuad constTableIndex).encodeWithParam prevQuad)
          (Rewritten read (∀ delta ∈ entries, delta.Canonical)) := by
  obtain ⟨gate, left, right, hnext, hentries, hgate, hleft, hright, hconstant,
    rfl⟩ := run_readQuad_eq hread
  rw [hentries] at hgood
  have hgateSum : IsSum next.gate.toNat next.gate :=
    isSum_toNat (hgood ⟨gate, next.gate⟩ (by simp))
  have hleftSum : IsSum next.left.toNat next.left :=
    isSum_toNat (hgood ⟨left, next.left⟩ (by simp))
  have hrightSum : IsSum next.right.toNat next.right :=
    isSum_toNat (hgood ⟨right, next.right⟩ (by simp))
  obtain ⟨gateBytes, hgateBytes, hgateSame⟩ :=
    encodeIndex_rewrites h.gate hgate (by rwa [hnext] at hgateSum)
  obtain ⟨leftBytes, hleftBytes, hleftSame⟩ :=
    encodeIndex_rewrites h.left hleft (by rwa [hnext] at hleftSum)
  obtain ⟨rightBytes, hrightBytes, hrightSame⟩ :=
    encodeIndex_rewrites h.right hright (by rwa [hnext] at hrightSum)
  refine ⟨⟨hgateSum, hleftSum, hrightSum⟩, by rw [hentries]; rfl, _, rfl,
    gateBytes ++ leftBytes ++ rightBytes ++ Bytes.leBytes 3 constTableIndex,
    ?_, ?_⟩
  · have hsize := Size.tryFrom_eq_ok.mpr
      (⟨by omega, rfl⟩ : constTableIndex < 2 ^ 32 ∧ constTableIndex = _)
    have hconstantBytes := Size.encode_eq_ok.mpr ⟨hconstant, rfl⟩
    rw [encodeWithParam, hnext]
    simp only [Sums.toQuad]
    rw [hgateBytes, ok_bind, hleftBytes, ok_bind, hrightBytes, ok_bind, hsize,
      ok_bind, hconstantBytes, ok_bind]
    rfl
  · refine (((hgateSame.append hleftSame).append hrightSame).append
      (Rewritten.refl _)).congr ?_
    rw [hentries]
    simp [Delta.Canonical, and_assoc]

theorem IsSums.indices_eq {quad : Quad} {sums : Sums} (h : quad.IsSums sums) :
    quad.indices.map (fun i : Nat => (i : Int)) = [sums.gate, sums.left, sums.right] := by
  simp only [indices, List.map_cons, List.map_nil]
  rw [h.gate.1, h.left.1, h.right.1]

end Quad

namespace CircuitLayer

/-- What reading with exact sums returns is encoded again. -/
theorem encodeQuads_rewrites (n : Nat) (prevQuad : Option Quad) {sums : Sums}
    (h : (prevQuad.getD Quad.zero).IsSums sums) {quads : List Quad}
    {bs rest : List UInt8} {entries : List Delta}
    (hread : (readQuads n sums).run bs = (entries, some (quads, rest)))
    (hgood : ∀ delta ∈ entries, delta.InRange) :
    quads.length = n ∧
      (quads.flatMap Quad.indices).map (fun i : Nat => (i : Int)) =
        entries.map Delta.sum ∧
      ∃ read, bs = read ++ rest ∧
        Returns (encodeQuads quads prevQuad)
          (Rewritten read (∀ delta ∈ entries, delta.Canonical)) := by
  induction n generalizing prevQuad sums quads bs entries with
  | zero =>
      obtain ⟨rfl, rfl, rfl⟩ := Logged.run_pure_eq.mp hread
      exact ⟨rfl, rfl, [], rfl, [], rfl,
        (Rewritten.refl []).congr (by simp)⟩
  | succ n ih =>
      obtain ⟨⟨next, constTableIndex⟩, mid, first, tail, hfirst, htail, rfl⟩ :=
        Logged.run_bind_eq.mp hread
      obtain ⟨others, mid', second, last, hsecond, hlast, rfl⟩ :=
        Logged.run_bind_eq.mp htail
      obtain ⟨rfl, rfl, rfl⟩ := Logged.run_pure_eq.mp hlast
      rw [List.append_nil] at hgood ⊢
      obtain ⟨hgoodFirst, hgoodSecond⟩ := List.forall_mem_append.mp hgood
      obtain ⟨hsums, hentries, read, rfl, bytes, hbytes, hsame⟩ :=
        Quad.encodeWithParam_rewrites h hfirst hgoodFirst
      obtain ⟨hlength, hindices, read', rfl, bytes', hbytes', hsame'⟩ :=
        ih (some (next.toQuad constTableIndex)) hsums hsecond
          hgoodSecond
      refine ⟨by rw [List.length_cons, hlength], ?_, read ++ read',
        by rw [List.append_assoc], bytes ++ bytes', ?_, ?_⟩
      · rw [List.flatMap_cons, List.map_append, List.map_append, hindices,
          hentries, hsums.indices_eq]
      · rw [encodeQuads, hbytes, ok_bind, hbytes', ok_bind]
        rfl
      · exact (hsame.append hsame').congr List.forall_mem_append.symm

theorem encode_rewrites {layer : CircuitLayer} {bs rest : List UInt8}
    {entries : List Delta}
    (hread : readLayer.run bs = (entries, some (layer, rest)))
    (hgood : ∀ delta ∈ entries, delta.InRange) :
    layer.indices.map (fun i : Nat => (i : Int)) = entries.map Delta.sum ∧
      ∃ read, bs = read ++ rest ∧
        Returns layer.encode
          (Rewritten read (∀ delta ∈ entries, delta.Canonical)) := by
  rw [readLayer] at hread
  obtain ⟨logw, _, _, _, hlogw, hrest, rfl⟩ := Logged.run_bind_eq.mp hread
  obtain ⟨numWires, _, _, _, hnumWires, hrest', rfl⟩ :=
    Logged.run_bind_eq.mp hrest
  obtain ⟨numQuads, _, _, _, hnumQuads, hrest'', rfl⟩ :=
    Logged.run_bind_eq.mp hrest'
  obtain ⟨quads, _, _, _, hquads, hlast, rfl⟩ := Logged.run_bind_eq.mp hrest''
  obtain ⟨rfl, rfl, rfl⟩ := Logged.run_pure_eq.mp hlast
  obtain ⟨rfl, hlogwRead⟩ := Logged.run_ofDecoder_eq.mp hlogw
  obtain ⟨rfl, hnumWiresRead⟩ := Logged.run_ofDecoder_eq.mp hnumWires
  obtain ⟨rfl, hnumQuadsRead⟩ := Logged.run_ofDecoder_eq.mp hnumQuads
  obtain ⟨hlogwLt, rfl⟩ := (Size.decode_format _ _ _).mp hlogwRead
  obtain ⟨hnumWiresLt, rfl⟩ := (Size.decode_format _ _ _).mp hnumWiresRead
  obtain ⟨hnumQuadsLt, rfl⟩ := (Size.decode_format _ _ _).mp hnumQuadsRead
  simp only [List.nil_append, List.append_nil] at hgood ⊢
  obtain ⟨hlength, hindices, read, rfl, bytes, hbytes, hsame⟩ :=
    encodeQuads_rewrites numQuads none Quad.zero_isSums hquads
      hgood
  refine ⟨hindices, Bytes.leBytes 3 logw ++ Bytes.leBytes 3 numWires ++
      Bytes.leBytes 3 numQuads ++ read, by simp [List.append_assoc],
    Bytes.leBytes 3 logw ++ Bytes.leBytes 3 numWires ++
      Bytes.leBytes 3 numQuads ++ bytes, ?_, ?_⟩
  · have hmod : quads.length % 2 ^ 32 = numQuads := by omega
    have hsize {size : Nat} (h : size < 2 ^ 24) :
        Size.encode size = .ok (Bytes.leBytes 3 size) :=
      Size.encode_eq_ok.mpr ⟨h, rfl⟩
    rw [encode]
    simp only [hmod, hbytes, hsize hlogwLt, hsize hnumWiresLt,
      hsize hnumQuadsLt, ok_bind]
    rfl
  · exact ((Rewritten.refl _).append hsame).congr (by simp)

theorem encodeFixedArray_rewrites (n : Nat) {layers : List CircuitLayer}
    {bs rest : List UInt8} {entries : List Delta}
    (hread : (Logged.replicate readLayer n).run bs =
      (entries, some (layers, rest)))
    (hgood : ∀ delta ∈ entries, delta.InRange) :
    layers.length = n ∧
      (layers.flatMap indices).map (fun i : Nat => (i : Int)) =
        entries.map Delta.sum ∧
      ∃ read, bs = read ++ rest ∧
        Returns (encodeFixedArray encode layers)
          (Rewritten read (∀ delta ∈ entries, delta.Canonical)) := by
  induction n generalizing layers bs entries with
  | zero =>
      obtain ⟨rfl, rfl, rfl⟩ := Logged.run_pure_eq.mp hread
      exact ⟨rfl, rfl, [], rfl, [], rfl,
        (Rewritten.refl []).congr (by simp)⟩
  | succ n ih =>
      obtain ⟨layer, mid, first, tail, hfirst, htail, rfl⟩ :=
        Logged.run_bind_eq.mp hread
      obtain ⟨others, mid', second, last, hsecond, hlast, rfl⟩ :=
        Logged.run_bind_eq.mp htail
      obtain ⟨rfl, rfl, rfl⟩ := Logged.run_pure_eq.mp hlast
      rw [List.append_nil] at hgood ⊢
      obtain ⟨hgoodFirst, hgoodSecond⟩ := List.forall_mem_append.mp hgood
      obtain ⟨hindices, read, rfl, bytes, hbytes, hsame⟩ :=
        encode_rewrites hfirst hgoodFirst
      obtain ⟨hlength, hindices', read', rfl, bytes', hbytes', hsame'⟩ :=
        ih hsecond hgoodSecond
      refine ⟨by rw [List.length_cons, hlength], ?_, read ++ read',
        by rw [List.append_assoc], bytes ++ bytes', ?_, ?_⟩
      · rw [List.flatMap_cons, List.map_append, List.map_append, hindices,
          hindices']
      · rw [encodeFixedArray, hbytes, ok_bind, hbytes', ok_bind]
        rfl
      · exact (hsame.append hsame').congr List.forall_mem_append.symm

end CircuitLayer

theorem FieldId.eq_asNat_of_ofU24 {value : Nat} {id : FieldId}
    (h : FieldId.ofU24 value = .ok id) : value = id.asNat := by
  obtain ⟨-, h⟩ := ensure_bind_eq_ok.mp h
  unfold FieldId.tryFrom at h
  split at h
  all_goals first
    | (cases h; rfl)
    | cases h

theorem Sha256Digest.decode_eq {bs rest : List UInt8} {digest : Sha256Digest}
    (h : Sha256Digest.decode bs = .ok (digest, rest)) :
    bs = digest.encode ++ rest := by
  obtain ⟨bytes, mid, hbytes, hdigest⟩ := Decoder.bind_eq_ok.mp h
  obtain ⟨hlength, rfl⟩ := (Format.takeBytes 32 _ _ _ _).mp hbytes
  obtain ⟨hdigest, rfl⟩ := Decoder.ofExec_eq_ok.mp hdigest
  rw [Sha256Digest.ofBytes, dif_pos hlength] at hdigest
  cases hdigest
  rfl

namespace Circuit

variable {F : Type} [CodecFieldElement F]

/-- The sizes of the header, in the order of the encoding. -/
def sizes (circuit : Circuit F) : List Nat :=
  [circuit.numOutputs, circuit.numCopies, circuit.numPublicInputs,
    circuit.subfieldBoundary, circuit.numInputs, circuit.numLayers]

/-- The bytes of the header up to the constant table. -/
def headerBytes (circuit : Circuit F) : List UInt8 :=
  circuit.version :: FieldId.encode (fieldId F) ++
    circuit.sizes.flatMap (Bytes.leBytes 3)

theorem encodeHeader_eq {circuit : Circuit F}
    (hsizes : ∀ size ∈ circuit.sizes, size < 2 ^ 24)
    (hconstants : circuit.constantTable.length < 2 ^ 24) :
    circuit.encodeHeader = .ok (circuit.headerBytes ++
      Bytes.leBytes 3 circuit.constantTable.length ++
      circuit.constantTable.flatMap CodecFieldElement.encode) := by
  have hsize {size : Nat} (h : size ∈ circuit.sizes) :
      encodeSize size = .ok (Bytes.leBytes 3 size) :=
    encodeSize_eq_ok.mpr ⟨hsizes size h, rfl⟩
  have hfixed (xs : List F) :
      encodeFixedArray (fun x => pure (CodecFieldElement.encode x)) xs =
        .ok (xs.flatMap CodecFieldElement.encode) := by
    induction xs with
    | nil => rfl
    | cons x xs ih =>
        rw [encodeFixedArray, Exec.pure_eq_ok, ok_bind, ih, ok_bind]
        rfl
  have harray : encodeArray (fun x => pure (CodecFieldElement.encode x))
      circuit.constantTable = .ok (Bytes.leBytes 3 circuit.constantTable.length
        ++ circuit.constantTable.flatMap CodecFieldElement.encode) := by
    rw [encodeArray, ensure_of (by omega), ok_bind,
      Size.encode_eq_ok.mpr ⟨hconstants, rfl⟩, ok_bind, hfixed, ok_bind]
    rfl
  rw [encodeHeader, hsize (by simp [sizes]), ok_bind, hsize (by simp [sizes]),
    ok_bind, hsize (by simp [sizes]), ok_bind, hsize (by simp [sizes]),
    ok_bind, hsize (by simp [sizes]), ok_bind, hsize (by simp [sizes]),
    ok_bind, harray, ok_bind, Exec.pure_eq_ok]
  simp [headerBytes, sizes, List.append_assoc]

/-- What the decoder of the header has read. -/
structure HeaderRead (header : Circuit F) (bs rest : List UInt8) : Prop where
  layers_eq : header.layers = []
  id_eq : header.id = default
  sizes_lt : ∀ size ∈ header.sizes, size < 2 ^ 24
  constants_lt : header.constantTable.length < 2 ^ 24
  bytes_eq : ∃ mid, bs = header.headerBytes ++
      Bytes.leBytes 3 header.constantTable.length ++ mid ∧
    Decoder.replicate CodecFieldElement.decode header.constantTable.length mid =
      .ok (header.constantTable, rest)

theorem decodeHeader_ensures [LawfulCodec F] {bs rest : List UInt8}
    {header : Circuit F}
    (h : decodeHeader bs = .ok (header, rest)) : HeaderRead header bs rest := by
  obtain ⟨version, bs1, hversion, h1⟩ := Decoder.bind_eq_ok.mp h
  obtain ⟨id, bs2, hid, h2⟩ := Decoder.bind_eq_ok.mp h1
  obtain ⟨_, bs3, hcheck, h3⟩ := Decoder.bind_eq_ok.mp h2
  obtain ⟨numOutputs, bs4, hnumOutputs, h4⟩ := Decoder.bind_eq_ok.mp h3
  obtain ⟨numCopies, bs5, hnumCopies, h5⟩ := Decoder.bind_eq_ok.mp h4
  obtain ⟨numPublicInputs, bs6, hnumPublicInputs, h6⟩ :=
    Decoder.bind_eq_ok.mp h5
  obtain ⟨subfieldBoundary, bs7, hsubfieldBoundary, h7⟩ :=
    Decoder.bind_eq_ok.mp h6
  obtain ⟨numInputs, bs8, hnumInputs, h8⟩ := Decoder.bind_eq_ok.mp h7
  obtain ⟨numLayers, bs9, hnumLayers, h9⟩ := Decoder.bind_eq_ok.mp h8
  obtain ⟨constantTable, bs10, hconstantTable, hlast⟩ :=
    Decoder.bind_eq_ok.mp h9
  obtain ⟨rfl, rfl⟩ := Decoder.pure_eq_ok.mp hlast
  obtain ⟨elements, bs11, helements, hconstants⟩ :=
    Decoder.bind_eq_ok.mp hconstantTable
  obtain ⟨hlength, rfl⟩ := (Format.takeBytes 1 _ _ _ _).mp hversion
  obtain ⟨value, bs12, hvalue, htry⟩ := Decoder.bind_eq_ok.mp hid
  obtain ⟨hofU24, rfl⟩ := Decoder.ofExec_eq_ok.mp htry
  obtain ⟨hfield, rfl⟩ := Decoder.ofExec_eq_ok.mp hcheck
  have hidEq : id = fieldId F := ensure_eq_ok.mp hfield
  have hvalueEq := FieldId.eq_asNat_of_ofU24 hofU24
  obtain ⟨-, rfl⟩ := (Size.decode_format _ _ _).mp hvalue
  obtain ⟨hlt1, rfl⟩ := (Size.decode_format _ _ _).mp hnumOutputs
  obtain ⟨hlt2, rfl⟩ := (Size.decode_format _ _ _).mp hnumCopies
  obtain ⟨hlt3, rfl⟩ := (Size.decode_format _ _ _).mp hnumPublicInputs
  obtain ⟨hlt4, rfl⟩ := (Size.decode_format _ _ _).mp hsubfieldBoundary
  obtain ⟨hlt5, rfl⟩ := (Size.decode_format _ _ _).mp hnumInputs
  obtain ⟨hlt6, rfl⟩ := (Size.decode_format _ _ _).mp hnumLayers
  obtain ⟨hlt7, rfl⟩ := (Size.decode_format _ _ _).mp helements
  have hcount : constantTable.length = elements := by
    have hsafe : Exec.Safe (Decoder.replicate CodecFieldElement.decode elements
        bs11) _ := replicate_safe (LawfulCodec.decode_safe (F := F)) elements bs11
    rw [hconstants] at hsafe
    exact hsafe.1
  obtain ⟨byte, rfl⟩ : ∃ byte, version = [byte] :=
    List.length_eq_one_iff.mp hlength
  refine ⟨rfl, rfl, ?_, ?_, bs11, ?_, ?_⟩
  · simp only [sizes, List.forall_mem_cons]
    exact ⟨hlt1, hlt2, hlt3, hlt4, hlt5, hlt6, by simp⟩
  · rw [hcount]
    exact hlt7
  · rw [hcount, hvalueEq, hidEq]
    simp [headerBytes, sizes, FieldId.encode, List.append_assoc]
  · rw [hcount]
    exact hconstants

/-- What reading with exact sums returns is encoded again. -/
theorem encode_of_read [LawfulCodec F] {circuit : Circuit F}
    {bs rest : List UInt8} {entries : List Delta}
    (hread : (readCircuit F).run bs = (entries, some (circuit, rest)))
    (hgood : ∀ delta ∈ entries, delta.InRange) :
    circuit.indices.map (fun i : Nat => (i : Int)) = entries.map Delta.sum ∧
      Returns circuit.encode fun bytes => CanonicalCodec F → ∃ read,
        bs = read ++ rest ∧
          Rewritten read (∀ delta ∈ entries, delta.Canonical) bytes := by
  rw [readCircuit] at hread
  obtain ⟨header, _, _, _, hheader, hrest, rfl⟩ := Logged.run_bind_eq.mp hread
  obtain ⟨layers, _, _, _, hlayers, hrest', rfl⟩ := Logged.run_bind_eq.mp hrest
  obtain ⟨id, _, _, _, hid, hlast, rfl⟩ := Logged.run_bind_eq.mp hrest'
  obtain ⟨rfl, rfl, rfl⟩ := Logged.run_pure_eq.mp hlast
  obtain ⟨rfl, hheaderRead⟩ := Logged.run_ofDecoder_eq.mp hheader
  obtain ⟨rfl, hidRead⟩ := Logged.run_ofDecoder_eq.mp hid
  simp only [List.nil_append, List.append_nil] at hgood ⊢
  obtain ⟨hlength, hindices, read, rfl, layerBytes, hlayerBytes, hsame⟩ :=
    CircuitLayer.encodeFixedArray_rewrites header.numLayers hlayers hgood
  have hinv := decodeHeader_ensures hheaderRead
  have hheaderBytes : Circuit.encodeHeader { header with layers, id } = _ :=
    encodeHeader_eq hinv.sizes_lt hinv.constants_lt
  refine ⟨hindices, header.headerBytes ++
    Bytes.leBytes 3 header.constantTable.length ++
    header.constantTable.flatMap CodecFieldElement.encode ++ layerBytes ++
    id.encode, ?_, fun hcanonical => ?_⟩
  · rw [encode, hheaderBytes, ok_bind, ensure_of hlength.symm, ok_bind,
      hlayerBytes, ok_bind]
    rfl
  · obtain ⟨mid, rfl, hconstants⟩ := hinv.bytes_eq
    obtain ⟨-, rfl⟩ :=
      (hcanonical.decode_format.replicate _ _ _ _).mp hconstants
    have hidBytes := Sha256Digest.decode_eq hidRead
    refine ⟨header.headerBytes ++
      Bytes.leBytes 3 header.constantTable.length ++
      header.constantTable.flatMap CodecFieldElement.encode ++ read ++
      id.encode, ?_, ?_⟩
    · rw [hidBytes]
      simp [List.append_assoc]
    · exact (((Rewritten.refl _).append hsame).append
        (Rewritten.refl _)).congr (by simp)

end Circuit

section Converse

variable {profile : Profile}

/-- A difference of a decoded index that can be encoded has not wrapped. -/
theorem Size.isSum_of_deltaWord_lt {previous word value : Nat}
    (hprevious : previous < 2 ^ 32) (hword : word < 2 ^ 24)
    (happly : applyDelta profile previous word = .ok value)
    (hvalue : value < 2 ^ 32) (hdelta : deltaWord value previous < 2 ^ 24) :
    IsSum value (previous + signed word) := by
  refine ⟨?_, hvalue⟩
  rw [applyDelta_eq] at happly
  rw [signed]
  rw [deltaWord] at hdelta
  split at happly
  · next hodd =>
      rw [if_pos hodd]
      cases profile with
      | dev =>
          obtain ⟨hle, rfl⟩ := checkedSub_eq_ok.mp happly
          omega
      | release =>
          have hmod : (previous + 2 ^ 32 - word / 2) % 2 ^ 32 = value :=
            Except.ok.inj happly
          split at hdelta <;> omega
  · next heven =>
      rw [if_neg heven]
      cases profile with
      | dev =>
          have hadd : previous + word / 2 = value := by
            obtain ⟨_, -, hlast⟩ := Exec.bind_eq_ok.mp happly
            exact Except.ok.inj hlast
          omega
      | release =>
          have hmod : (previous + word / 2) % 2 ^ 32 = value :=
            Except.ok.inj happly
          split at hdelta <;> omega

namespace Quad

theorem read_of_decodeIndex {previous value : Nat} {sum : Int}
    (h : IsSum previous sum) {bs rest bytes : List UInt8}
    (hdecode : decodeIndex profile previous bs = .ok (value, rest))
    (hencode : encodeIndex value previous = .ok bytes) :
    ∃ entries, (readDelta sum).run bs = (entries, some ((value : Int), rest)) ∧
      IsSum value value ∧ ∀ delta ∈ entries, delta.InRange := by
  obtain ⟨rfl, hprevious⟩ := h
  obtain ⟨hvalue, -, hdelta⟩ := encodeIndex_eq_ok.mp hencode
  obtain ⟨hdeltaLt, -⟩ := Size.encodeDelta_eq_ok.mp hdelta
  obtain ⟨size, mid, hsize, hrest⟩ := Decoder.bind_eq_ok.mp hdecode
  obtain ⟨htry, rfl⟩ := Decoder.ofExec_eq_ok.mp hsize
  obtain ⟨-, rfl⟩ := Size.tryFrom_eq_ok.mp htry
  obtain ⟨word, mid, hword, hlast⟩ := Decoder.bind_eq_ok.mp hrest
  obtain ⟨happly, rfl⟩ := Decoder.ofExec_eq_ok.mp hlast
  obtain ⟨hwordLt, -⟩ := (Size.decode_format _ _ _).mp hword
  have hsum := Size.isSum_of_deltaWord_lt hprevious hwordLt happly hvalue
    hdeltaLt
  refine ⟨_, run_readDelta_eq.mpr ⟨word, hword, hsum.1, rfl⟩, ⟨rfl, hvalue⟩, ?_⟩
  intro delta hmem
  obtain rfl := List.mem_singleton.mp hmem
  refine ⟨Int.natCast_nonneg value, ?_⟩
  change (value : Int) < 2 ^ 32
  omega

theorem read_of_decodeWithParam {prevQuad : Option Quad} {sums : Sums}
    (h : (prevQuad.getD zero).IsSums sums) {quad : Quad}
    {bs rest bytes : List UInt8}
    (hdecode : decodeWithParam profile prevQuad bs = .ok (quad, rest))
    (hencode : quad.encodeWithParam prevQuad = .ok bytes) :
    ∃ entries, ∃ next : Sums, (readQuad sums).run bs =
        (entries, some ((next, quad.constTableIndex), rest)) ∧
      quad.IsSums next ∧ ∀ delta ∈ entries, delta.InRange := by
  obtain ⟨gate, bs1, hgate, hrest1⟩ := Decoder.bind_eq_ok.mp hdecode
  obtain ⟨left, bs2, hleft, hrest2⟩ := Decoder.bind_eq_ok.mp hrest1
  obtain ⟨right, bs3, hright, hrest3⟩ := Decoder.bind_eq_ok.mp hrest2
  obtain ⟨constant, bs4, hconstant, hlast⟩ := Decoder.bind_eq_ok.mp hrest3
  obtain ⟨rfl, rfl⟩ := Decoder.pure_eq_ok.mp hlast
  obtain ⟨_, hgateBytes, hencode1⟩ := Exec.bind_eq_ok.mp hencode
  obtain ⟨_, hleftBytes, hencode2⟩ := Exec.bind_eq_ok.mp hencode1
  obtain ⟨_, hrightBytes, -⟩ := Exec.bind_eq_ok.mp hencode2
  obtain ⟨entries1, hrun1, hsum1, hgood1⟩ :=
    read_of_decodeIndex h.gate hgate hgateBytes
  obtain ⟨entries2, hrun2, hsum2, hgood2⟩ :=
    read_of_decodeIndex h.left hleft hleftBytes
  obtain ⟨entries3, hrun3, hsum3, hgood3⟩ :=
    read_of_decodeIndex h.right hright hrightBytes
  refine ⟨entries1 ++ (entries2 ++ (entries3 ++ ([] ++ []))),
    ⟨gate, left, right⟩, ?_, ⟨hsum1, hsum2, hsum3⟩, ?_⟩
  · apply Logged.run_bind_eq.mpr
    refine ⟨_, _, _, _, hrun1, ?_, rfl⟩
    apply Logged.run_bind_eq.mpr
    refine ⟨_, _, _, _, hrun2, ?_, rfl⟩
    apply Logged.run_bind_eq.mpr
    refine ⟨_, _, _, _, hrun3, ?_, rfl⟩
    apply Logged.run_bind_eq.mpr
    exact ⟨_, _, _, _, Logged.run_ofDecoder_eq.mpr ⟨rfl, hconstant⟩, rfl, rfl⟩
  · simp only [List.append_nil, List.forall_mem_append]
    exact ⟨hgood1, hgood2, hgood3⟩

end Quad

namespace CircuitLayer

theorem read_of_decodeQuads (n : Nat) (prevQuad : Option Quad) {sums : Sums}
    (h : (prevQuad.getD Quad.zero).IsSums sums) {quads : List Quad}
    {bs rest bytes : List UInt8}
    (hdecode : decodeQuads profile n prevQuad bs = .ok (quads, rest))
    (hencode : encodeQuads quads prevQuad = .ok bytes) :
    ∃ entries, (readQuads n sums).run bs = (entries, some (quads, rest)) ∧
      ∀ delta ∈ entries, delta.InRange := by
  induction n generalizing prevQuad sums quads bs bytes with
  | zero =>
      obtain ⟨rfl, rfl⟩ := Decoder.pure_eq_ok.mp hdecode
      exact ⟨[], rfl, by simp⟩
  | succ n ih =>
      obtain ⟨quad, mid, hquad, hrest⟩ := Decoder.bind_eq_ok.mp hdecode
      obtain ⟨others, mid', hothers, hlast⟩ := Decoder.bind_eq_ok.mp hrest
      obtain ⟨rfl, rfl⟩ := Decoder.pure_eq_ok.mp hlast
      obtain ⟨_, hfirst, hencode1⟩ := Exec.bind_eq_ok.mp hencode
      obtain ⟨_, hsecond, -⟩ := Exec.bind_eq_ok.mp hencode1
      obtain ⟨entries, next, hrun, hsums, hgood⟩ :=
        Quad.read_of_decodeWithParam h hquad hfirst
      obtain ⟨entries', hrun', hgood'⟩ :=
        ih (some quad) hsums hothers hsecond
      refine ⟨entries ++ (entries' ++ []), ?_, ?_⟩
      · apply Logged.run_bind_eq.mpr
        refine ⟨_, _, _, _, hrun, ?_, rfl⟩
        apply Logged.run_bind_eq.mpr
        refine ⟨_, _, _, _, hrun', ?_, rfl⟩
        rw [← hsums.eq_toQuad]
        rfl
      · rw [List.append_nil]
        exact List.forall_mem_append.mpr ⟨hgood, hgood'⟩

theorem read_of_decode {layer : CircuitLayer} {bs rest bytes : List UInt8}
    (hdecode : decode profile bs = .ok (layer, rest))
    (hencode : layer.encode = .ok bytes) :
    ∃ entries, readLayer.run bs = (entries, some (layer, rest)) ∧
      ∀ delta ∈ entries, delta.InRange := by
  obtain ⟨logw, bs1, hlogw, hrest1⟩ := Decoder.bind_eq_ok.mp hdecode
  obtain ⟨numWires, bs2, hnumWires, hrest2⟩ := Decoder.bind_eq_ok.mp hrest1
  obtain ⟨numQuads, bs3, hnumQuads, hrest3⟩ := Decoder.bind_eq_ok.mp hrest2
  obtain ⟨quads, bs4, hquads, hlast⟩ := Decoder.bind_eq_ok.mp hrest3
  obtain ⟨rfl, rfl⟩ := Decoder.pure_eq_ok.mp hlast
  obtain ⟨_, -, hencode1⟩ := Exec.bind_eq_ok.mp hencode
  obtain ⟨_, -, hencode2⟩ := Exec.bind_eq_ok.mp hencode1
  obtain ⟨_, -, hencode3⟩ := Exec.bind_eq_ok.mp hencode2
  obtain ⟨_, hquadsBytes, -⟩ := Exec.bind_eq_ok.mp hencode3
  obtain ⟨entries, hrun, hgood⟩ := read_of_decodeQuads numQuads none
    Quad.zero_isSums hquads hquadsBytes
  refine ⟨[] ++ ([] ++ ([] ++ (entries ++ []))), ?_, ?_⟩
  · apply Logged.run_bind_eq.mpr
    refine ⟨_, _, _, _, Logged.run_ofDecoder_eq.mpr ⟨rfl, hlogw⟩, ?_, rfl⟩
    apply Logged.run_bind_eq.mpr
    refine ⟨_, _, _, _, Logged.run_ofDecoder_eq.mpr ⟨rfl, hnumWires⟩, ?_, rfl⟩
    apply Logged.run_bind_eq.mpr
    refine ⟨_, _, _, _, Logged.run_ofDecoder_eq.mpr ⟨rfl, hnumQuads⟩, ?_, rfl⟩
    apply Logged.run_bind_eq.mpr
    exact ⟨_, _, _, _, hrun, rfl, rfl⟩
  · simpa using hgood

theorem read_of_replicate (n : Nat) {layers : List CircuitLayer}
    {bs rest bytes : List UInt8}
    (hdecode : Decoder.replicate (decode profile) n bs = .ok (layers, rest))
    (hencode : encodeFixedArray encode layers = .ok bytes) :
    ∃ entries, (Logged.replicate readLayer n).run bs =
        (entries, some (layers, rest)) ∧
      ∀ delta ∈ entries, delta.InRange := by
  induction n generalizing layers bs bytes with
  | zero =>
      obtain ⟨rfl, rfl⟩ := Decoder.pure_eq_ok.mp hdecode
      exact ⟨[], rfl, by simp⟩
  | succ n ih =>
      obtain ⟨layer, mid, hlayer, hrest⟩ := Decoder.bind_eq_ok.mp hdecode
      obtain ⟨others, mid', hothers, hlast⟩ := Decoder.bind_eq_ok.mp hrest
      obtain ⟨rfl, rfl⟩ := Decoder.pure_eq_ok.mp hlast
      obtain ⟨_, hfirst, hencode1⟩ := Exec.bind_eq_ok.mp hencode
      obtain ⟨_, hsecond, -⟩ := Exec.bind_eq_ok.mp hencode1
      obtain ⟨entries, hrun, hgood⟩ := read_of_decode hlayer hfirst
      obtain ⟨entries', hrun', hgood'⟩ := ih hothers hsecond
      refine ⟨entries ++ (entries' ++ []), ?_, ?_⟩
      · apply Logged.run_bind_eq.mpr
        refine ⟨_, _, _, _, hrun, ?_, rfl⟩
        apply Logged.run_bind_eq.mpr
        exact ⟨_, _, _, _, hrun', rfl, rfl⟩
      · rw [List.append_nil]
        exact List.forall_mem_append.mpr ⟨hgood, hgood'⟩

end CircuitLayer

namespace Circuit

variable {F : Type} [CodecFieldElement F]

/-- A decoded circuit that can be encoded was decoded without wrapping. -/
theorem read_of_decode {circuit : Circuit F} {bs rest bytes : List UInt8}
    (hdecode : decode profile bs = .ok (circuit, rest))
    (hencode : circuit.encode = .ok bytes) :
    ∃ entries, (readCircuit F).run bs = (entries, some (circuit, rest)) ∧
      ∀ delta ∈ entries, delta.InRange := by
  obtain ⟨header, bs1, hheader, hrest1⟩ := Decoder.bind_eq_ok.mp hdecode
  obtain ⟨layers, bs2, hlayers, hrest2⟩ := Decoder.bind_eq_ok.mp hrest1
  obtain ⟨id, bs3, hid, hlast⟩ := Decoder.bind_eq_ok.mp hrest2
  obtain ⟨rfl, rfl⟩ := Decoder.pure_eq_ok.mp hlast
  obtain ⟨_, -, hencode1⟩ := Exec.bind_eq_ok.mp hencode
  obtain ⟨-, hencode2⟩ := ensure_bind_eq_ok.mp hencode1
  obtain ⟨_, hlayersBytes, -⟩ := Exec.bind_eq_ok.mp hencode2
  obtain ⟨entries, hrun, hgood⟩ := CircuitLayer.read_of_replicate
    header.numLayers (Decoder.context_eq_ok.mp hlayers) hlayersBytes
  refine ⟨[] ++ (entries ++ ([] ++ [])), ?_, ?_⟩
  · apply Logged.run_bind_eq.mpr
    refine ⟨_, _, _, _, Logged.run_ofDecoder_eq.mpr ⟨rfl, hheader⟩, ?_, rfl⟩
    apply Logged.run_bind_eq.mpr
    refine ⟨_, _, _, _, hrun, ?_, rfl⟩
    apply Logged.run_bind_eq.mpr
    exact ⟨_, _, _, _, Logged.run_ofDecoder_eq.mpr ⟨rfl, hid⟩, rfl, rfl⟩
  · simpa using hgood

end Circuit

end Converse

namespace Circuit

variable {F : Type} [CodecFieldElement F] [LawfulCodec F]

/-- A circuit that was decoded without wrapping is what reading with exact sums
returns. -/
theorem read_of_inRange {profile : Profile} {circuit : Circuit F}
    {bs rest : List UInt8} (hdecode : decode profile bs = .ok (circuit, rest))
    (hgood : ∀ delta ∈ deltas F bs, delta.InRange) :
    (readCircuit F).run bs = (deltas F bs, some (circuit, rest)) := by
  have htracks := decode_tracks (F := F) profile
  rcases hrun : ((readCircuit F).run bs).2 with _ | ⟨circuit', rest'⟩
  · obtain ⟨message, herror⟩ := htracks.fails bs hgood hrun
    rw [hdecode] at herror
    cases herror
  · obtain ⟨_, hok, rfl⟩ := htracks.returns bs circuit' rest' hgood hrun
    rw [hdecode] at hok
    cases hok
    rw [deltas, ← hrun]

theorem inRange_of_decode_dev {circuit : Circuit F} {bs rest : List UInt8}
    (hdecode : decode .dev bs = .ok (circuit, rest)) :
    ∀ delta ∈ deltas F bs, delta.InRange := by
  by_contra hbad
  push Not at hbad
  obtain ⟨message, hpanic⟩ := (decode_tracks .dev).panics rfl bs hbad
  rw [hdecode] at hpanic
  cases hpanic

/-- An encoded circuit is read back, whatever follows it. A decoded circuit can
be encoded exactly when no running sum of its differences left the range of a
`u32`, which is always so when overflows are checked. -/
theorem decode_encode (profile : Profile) :
    (∀ circuit : Circuit F,
      (∀ layer ∈ circuit.layers, layer.quads.length < 2 ^ 32) →
      ∀ bytes, circuit.encode = .ok bytes →
        ∀ rest, decode profile (bytes ++ rest) = .ok (circuit, rest)) ∧
    (∀ bs rest (circuit : Circuit F),
      decode profile bs = .ok (circuit, rest) →
      ((∃ bytes, circuit.encode = .ok bytes) ↔
        ∀ delta ∈ deltas F bs, delta.InRange)) ∧
    (profile = .dev → ∀ bs rest (circuit : Circuit F),
      decode profile bs = .ok (circuit, rest) →
      ∃ bytes, circuit.encode = .ok bytes) := by
  have hencodes (bs rest : List UInt8) (circuit : Circuit F)
      (hdecode : decode profile bs = .ok (circuit, rest))
      (hgood : ∀ delta ∈ deltas F bs, delta.InRange) :
      ∃ bytes, circuit.encode = .ok bytes := by
    have hread := read_of_inRange hdecode hgood
    obtain ⟨-, bytes, hbytes, -⟩ := encode_of_read hread hgood
    exact ⟨bytes, hbytes⟩
  refine ⟨?_, ?_, ?_⟩
  · intro circuit hquads bytes hbytes
    exact decode_reads profile hquads hbytes
  · intro bs rest circuit hdecode
    constructor
    · rintro ⟨bytes, hbytes⟩
      obtain ⟨entries, hrun, hgood⟩ := read_of_decode hdecode hbytes
      rwa [deltas, hrun]
    · exact hencodes bs rest circuit hdecode
  · rintro rfl bs rest circuit hdecode
    exact hencodes bs rest circuit hdecode (inRange_of_decode_dev hdecode)

/-- Of the byte strings that are decoded completely and without wrapping, the
encoder writes exactly those in which no difference is minus zero. So two of
them with one circuit are equal. -/
theorem encode_decode [CanonicalCodec F] {profile : Profile}
    {circuit : Circuit F} {bs : List UInt8}
    (hdecode : decode profile bs = .ok (circuit, []))
    (hgood : ∀ delta ∈ deltas F bs, delta.InRange) :
    (circuit.encode = .ok bs ↔ ∀ delta ∈ deltas F bs, delta.Canonical) ∧
      ∀ bs', decode profile bs' = .ok (circuit, []) →
        (∀ delta ∈ deltas F bs', delta.InRange) →
        (∀ delta ∈ deltas F bs, delta.Canonical) →
        (∀ delta ∈ deltas F bs', delta.Canonical) → bs = bs' := by
  have hiff (bs : List UInt8)
      (hdecode : decode profile bs = .ok (circuit, []))
      (hgood : ∀ delta ∈ deltas F bs, delta.InRange) :
      circuit.encode = .ok bs ↔ ∀ delta ∈ deltas F bs, delta.Canonical := by
    have hread := read_of_inRange hdecode hgood
    obtain ⟨-, bytes, hbytes, hsame⟩ := encode_of_read hread hgood
    obtain ⟨read, hread, hrewritten⟩ := hsame inferInstance
    rw [List.append_nil] at hread
    subst hread
    rw [hbytes, Except.ok.injEq]
    exact hrewritten.2
  refine ⟨hiff bs hdecode hgood, fun bs' hdecode' hgood' hcanonical
    hcanonical' => ?_⟩
  have hbytes := (hiff bs hdecode hgood).mpr hcanonical
  rw [(hiff bs' hdecode' hgood').mpr hcanonical'] at hbytes
  exact (Except.ok.inj hbytes).symm

/-- Decoding is safe exactly on the byte strings in which no running sum of the
differences leaves the range of a `u32`: nothing overflows, and the indices of
the circuit are the exact sums. -/
theorem decode_safe_iff (bs : List UInt8) :
    (∀ profile, Exec.Safe (decode profile bs) fun result : Circuit F × _ =>
      result.1.indices.map (fun i : Nat => (i : Int)) =
        (deltas F bs).map Delta.sum) ↔
      ∀ delta ∈ deltas F bs, delta.InRange := by
  constructor
  · intro hsafe
    by_contra hbad
    push Not at hbad
    obtain ⟨message, hpanic⟩ := (decode_tracks .dev).panics rfl bs hbad
    have hdev := hsafe .dev
    rw [hpanic] at hdev
    exact hdev
  · intro hgood profile
    have htracks := decode_tracks (F := F) profile
    rcases hrun : ((readCircuit F).run bs).2 with _ | ⟨circuit, rest⟩
    · obtain ⟨message, herror⟩ := htracks.fails bs hgood hrun
      rw [herror]
      trivial
    · obtain ⟨_, hok, rfl⟩ := htracks.returns bs circuit rest hgood hrun
      rw [hok]
      exact (encode_of_read (read_of_inRange hok hgood) hgood).1

end Circuit

section OneQuad

/-- An encoded circuit with one quad, with a word for its gate index. -/
def oneQuad (word : UInt8) : List UInt8 :=
  [1] ++ [6, 0, 0] ++ [1, 0, 0] ++ [1, 0, 0] ++ [0, 0, 0] ++ [0, 0, 0] ++
    [1, 0, 0] ++ [1, 0, 0] ++ [0, 0, 0] ++
    ([0, 0, 0] ++ [1, 0, 0] ++ [1, 0, 0] ++
      ([word, 0, 0] ++ [0, 0, 0] ++ [0, 0, 0] ++ [0, 0, 0])) ++
    List.replicate 32 0

def oneQuadCircuit (gateIndex : Nat) : Circuit FieldP128 where
  version := 1
  numOutputs := 1
  numCopies := 1
  numPublicInputs := 0
  subfieldBoundary := 0
  numInputs := 1
  numLayers := 1
  constantTable := []
  layers := [⟨0, 1, [⟨gateIndex, 0, 0, 0⟩]⟩]
  id := default

namespace Circuit

/-- A first difference of minus one wraps around in the release profile. The
circuit that comes out cannot be encoded. -/
theorem decode_minusOne_encode :
    decode .release (oneQuad 3) = .ok (oneQuadCircuit 4294967295, []) ∧
      (oneQuadCircuit 4294967295).encode =
        .error (.error "shift would overflow") :=
  ⟨rfl, rfl⟩

theorem decode_encode_minusOne :
    (∃ bytes, (oneQuadCircuit 4294967295).encode = .ok bytes) ↔
      ∀ delta ∈ deltas FieldP128 (oneQuad 3), delta.InRange :=
  (decode_encode .release).2.1 (oneQuad 3) [] (oneQuadCircuit 4294967295)
    decode_minusOne_encode.1

/-- Zero and minus zero decode to one circuit, which is encoded with zero. -/
theorem decode_minusZero :
    decode .dev (oneQuad 1) = .ok (oneQuadCircuit 0, []) ∧
      decode .dev (oneQuad 0) = .ok (oneQuadCircuit 0, []) ∧
      (oneQuadCircuit 0).encode = .ok (oneQuad 0) ∧ oneQuad 1 ≠ oneQuad 0 :=
  ⟨rfl, rfl, rfl, by decide⟩

theorem encode_decode_zero :
    (oneQuadCircuit 0).encode = .ok (oneQuad 0) := by
  have hdecode : decode .dev (oneQuad 0) = .ok (oneQuadCircuit 0, []) := rfl
  have hgood : ∀ delta ∈ deltas FieldP128 (oneQuad 0), delta.InRange := by
    decide
  have hcanonical : ∀ delta ∈ deltas FieldP128 (oneQuad 0),
      delta.Canonical := by
    decide
  exact (encode_decode hdecode hgood).1.mpr hcanonical

/-- A first difference of minus one: a panic with overflow checks, and without
them a circuit whose gate index is not the sum. -/
theorem decode_minusOne :
    decode (F := FieldP128) .dev (oneQuad 3) =
        .error (.panic "attempt to subtract with overflow") ∧
      decode .release (oneQuad 3) = .ok (oneQuadCircuit 4294967295, []) ∧
      ¬ ∀ bs profile, Exec.Safe (decode profile bs)
        fun result : Circuit FieldP128 × _ =>
          result.1.indices.map (fun i : Nat => (i : Int)) =
            (deltas FieldP128 bs).map Delta.sum := by
  have hpanic : decode (F := FieldP128) .dev (oneQuad 3) =
      .error (.panic "attempt to subtract with overflow") := rfl
  refine ⟨hpanic, rfl, fun hsafe => ?_⟩
  have hdev := hsafe (oneQuad 3) .dev
  rw [hpanic] at hdev
  exact hdev

theorem decode_safe_iff_zero :
    (∀ profile, Exec.Safe (decode profile (oneQuad 0))
      fun result : Circuit FieldP128 × _ =>
        result.1.indices.map (fun i : Nat => (i : Int)) =
          (deltas FieldP128 (oneQuad 0)).map Delta.sum) ↔
      ∀ delta ∈ deltas FieldP128 (oneQuad 0), delta.InRange :=
  decode_safe_iff (oneQuad 0)

end Circuit

end OneQuad

end Longfellow
