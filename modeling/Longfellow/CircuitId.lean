/-
The id of a circuit: a hash of a stream of bytes from which everything that
evaluation depends on can be recovered.
-/
import Longfellow.Codec.RoundTrip
import Longfellow.Sample
import Longfellow.Messages

namespace Longfellow

open Exec CodecFieldElement

/-- Arrays of one length whose items are only confused for related values. -/
theorem encodeFixedArray_separates {α β : Type}
    {encodeItem : α → Exec (List UInt8)} {encodeItem' : β → Exec (List UInt8)}
    {R : α → β → Prop} (h : Separates encodeItem encodeItem' R) {xs : List α}
    {ys : List β} (hlength : xs.length = ys.length)
    {bytes bytes' r s : List UInt8}
    (hxs : encodeFixedArray encodeItem xs = .ok bytes)
    (hys : encodeFixedArray encodeItem' ys = .ok bytes')
    (heq : bytes ++ r = bytes' ++ s) : List.Forall₂ R xs ys ∧ r = s := by
  induction xs generalizing ys bytes bytes' with
  | nil =>
      obtain rfl : ys = [] := List.eq_nil_of_length_eq_zero hlength.symm
      cases hxs
      cases hys
      exact ⟨List.Forall₂.nil, heq⟩
  | cons x xs ih =>
      cases ys with
      | nil => cases hlength
      | cons y ys =>
          rw [encodeFixedArray] at hxs hys
          obtain ⟨first, hfirst, hxs⟩ := Exec.bind_eq_ok.mp hxs
          obtain ⟨rest, hrest, hxs⟩ := Exec.bind_eq_ok.mp hxs
          obtain ⟨first', hfirst', hys⟩ := Exec.bind_eq_ok.mp hys
          obtain ⟨rest', hrest', hys⟩ := Exec.bind_eq_ok.mp hys
          cases hxs
          cases hys
          rw [List.append_assoc, List.append_assoc] at heq
          obtain ⟨hxy, htail⟩ := h _ _ _ _ _ _ hfirst hfirst' heq
          obtain ⟨hall, hrs⟩ := ih (Nat.succ.inj hlength) hrest hrest' htail
          exact ⟨List.Forall₂.cons hxy hall, hrs⟩

namespace Circuit

section Stream

variable {F : Type} [CodecFieldElement F]

/-- A labelled number, as eight bytes of the stream. -/
def circuitIdUpdate (word : String × Nat) : Exec (List UInt8) := do
  ensure (word.2 < 2 ^ 64) s!"{word.1} too big for u64"
  pure (Bytes.leBytes 8 word.2)

/-- The exponent of the next power of two, which must be a `usize`. -/
def ilog2NextPowerOfTwo (value : Nat) : Exec Nat := do
  assert (value ≤ 2 ^ 63) "attempt to add with overflow"
  pure (Nat.clog 2 value)

/-- What the stream says about a quad. -/
def circuitIdQuad (circuit : Circuit F) (quad : Quad) :
    Exec (List UInt8) := do
  let indices ← encodeFixedArray circuitIdUpdate
    [ ("quad gate index", quad.gateIndex),
      ("quad left wire index", quad.leftWireIndex),
      ("quad right wire index", quad.rightWireIndex) ]
  let coefficient ← circuit.constant quad.constTableIndex
  pure (indices ++ CodecFieldElement.encode coefficient)

/-- What the stream says about a layer. -/
def circuitIdLayer (circuit : Circuit F) (layer : CircuitLayer) :
    Exec (List UInt8) := do
  let sizes ← encodeFixedArray circuitIdUpdate
    [ ("layer num wires", layer.numWires),
      ("log_2(layer num wires)", layer.logw),
      ("num quads", layer.quads.length) ]
  let quads ← encodeFixedArray circuit.circuitIdQuad layer.quads
  pure (sizes ++ quads)

/-- The stream of bytes that is hashed. -/
def circuitIdStream (circuit : Circuit F) : Exec (List UInt8) := do
  let logOutputs ← ilog2NextPowerOfTwo circuit.numOutputs
  let logCopies ← ilog2NextPowerOfTwo circuit.numCopies
  let header ← encodeFixedArray circuitIdUpdate
    [ ("num outputs", circuit.numOutputs),
      ("log_2(num_outputs)", logOutputs),
      ("num copies", circuit.numCopies),
      ("log_2(num_copies)", logCopies),
      ("num layers", circuit.numLayers),
      ("num inputs", circuit.numInputs),
      ("num public inputs", circuit.numPublicInputs),
      ("subfield boundary", circuit.subfieldBoundary) ]
  let layers ← encodeFixedArray circuit.circuitIdLayer circuit.layers
  pure (updateCircuitId F ++ header ++ layers)

/-- Compute the id of the circuit. -/
def circuitId [Primitives] (circuit : Circuit F) : Exec Sha256Digest := do
  let stream ← circuit.circuitIdStream
  pure (Primitives.sha256 stream)

end Stream

section Same

variable {F : Type}

/-- Quads with the same indices and the same coefficient, from two constant
tables. -/
structure SameQuad (circuit other : Circuit F) (quad quad' : Quad) : Prop where
  gateIndex_eq : quad.gateIndex = quad'.gateIndex
  leftWireIndex_eq : quad.leftWireIndex = quad'.leftWireIndex
  rightWireIndex_eq : quad.rightWireIndex = quad'.rightWireIndex
  constant_eq : ∃ value, circuit.constant quad.constTableIndex = .ok value ∧
    other.constant quad'.constTableIndex = .ok value

/-- Layers with the same sizes and the same quads. -/
structure SameLayer (circuit other : Circuit F) (layer layer' : CircuitLayer) :
    Prop where
  numWires_eq : layer.numWires = layer'.numWires
  logw_eq : layer.logw = layer'.logw
  quads : List.Forall₂ (circuit.SameQuad other) layer.quads layer'.quads

/-- Circuits that differ in their version, their stored id and the layout of
their constant tables only. -/
structure Same (circuit other : Circuit F) : Prop where
  numOutputs_eq : circuit.numOutputs = other.numOutputs
  numCopies_eq : circuit.numCopies = other.numCopies
  numPublicInputs_eq : circuit.numPublicInputs = other.numPublicInputs
  numInputs_eq : circuit.numInputs = other.numInputs
  subfieldBoundary_eq : circuit.subfieldBoundary = other.subfieldBoundary
  numLayers_eq : circuit.numLayers = other.numLayers
  layers : List.Forall₂ (circuit.SameLayer other) circuit.layers other.layers

end Same

section Injective

variable {F : Type} [CodecFieldElement F]

theorem circuitIdUpdate_separates :
    Separates circuitIdUpdate circuitIdUpdate fun word word' =>
      word.2 = word'.2 := by
  intro word word' bytes bytes' r s h h' heq
  obtain ⟨hlt, hbytes⟩ := ensure_bind_eq_ok.mp h
  obtain ⟨hlt', hbytes'⟩ := ensure_bind_eq_ok.mp h'
  cases hbytes
  cases hbytes'
  obtain ⟨hwords, hrest⟩ := List.append_inj heq (by
    rw [Bytes.length_leBytes, Bytes.length_leBytes])
  exact ⟨Bytes.leBytes_inj hlt hlt' hwords, hrest⟩

/-- Two loops over the same number of labelled numbers. -/
theorem circuitIdUpdates_inj {words words' : List (String × Nat)}
    {bytes bytes' r s : List UInt8}
    (h : encodeFixedArray circuitIdUpdate words = .ok bytes)
    (h' : encodeFixedArray circuitIdUpdate words' = .ok bytes')
    (hlength : words.length = words'.length) (heq : bytes ++ r = bytes' ++ s) :
    words.map Prod.snd = words'.map Prod.snd ∧ r = s := by
  obtain ⟨hwords, hrest⟩ :=
    encodeFixedArray_separates circuitIdUpdate_separates hlength h h' heq
  refine ⟨?_, hrest⟩
  rw [← List.forall₂_eq_eq_eq]
  apply List.forall₂_map_left_iff.mpr
  apply List.forall₂_map_right_iff.mpr
  exact hwords

variable [LawfulCodec F] (circuit other : Circuit F)

theorem circuitIdQuad_separates :
    Separates circuit.circuitIdQuad other.circuitIdQuad
      (circuit.SameQuad other) := by
  intro quad quad' bytes bytes' r s h h' heq
  obtain ⟨indices, hindices, h⟩ := Exec.bind_eq_ok.mp h
  obtain ⟨value, hvalue, h⟩ := Exec.bind_eq_ok.mp h
  obtain ⟨indices', hindices', h'⟩ := Exec.bind_eq_ok.mp h'
  obtain ⟨value', hvalue', h'⟩ := Exec.bind_eq_ok.mp h'
  cases h
  cases h'
  rw [List.append_assoc, List.append_assoc] at heq
  obtain ⟨hwords, heq⟩ := circuitIdUpdates_inj hindices hindices' rfl heq
  obtain ⟨rfl, hrest⟩ := encode_prefixFree.append_inj heq
  simp only [List.map_cons, List.map_nil, List.cons.injEq, and_true] at hwords
  obtain ⟨hgate, hleft, hright⟩ := hwords
  exact ⟨⟨hgate, hleft, hright, value, hvalue, hvalue'⟩, hrest⟩

theorem circuitIdLayer_separates :
    Separates circuit.circuitIdLayer other.circuitIdLayer
      (circuit.SameLayer other) := by
  intro layer layer' bytes bytes' r s h h' heq
  obtain ⟨sizes, hsizes, h⟩ := Exec.bind_eq_ok.mp h
  obtain ⟨quads, hquads, h⟩ := Exec.bind_eq_ok.mp h
  obtain ⟨sizes', hsizes', h'⟩ := Exec.bind_eq_ok.mp h'
  obtain ⟨quads', hquads', h'⟩ := Exec.bind_eq_ok.mp h'
  cases h
  cases h'
  rw [List.append_assoc, List.append_assoc] at heq
  obtain ⟨hwords, heq⟩ := circuitIdUpdates_inj hsizes hsizes' rfl heq
  simp only [List.map_cons, List.map_nil, List.cons.injEq, and_true] at hwords
  obtain ⟨hnumWires, hlogw, hlength⟩ := hwords
  obtain ⟨hall, hrest⟩ := encodeFixedArray_separates
    (circuit.circuitIdQuad_separates other) hlength hquads hquads' heq
  exact ⟨⟨hnumWires, hlogw, hall⟩, hrest⟩

/-- The stream can be parsed in one way only. -/
theorem circuitIdStream_inj {circuit other : Circuit F}
    (hlayers : circuit.numLayers = circuit.layers.length)
    (hlayers' : other.numLayers = other.layers.length) {stream : List UInt8}
    (h : circuit.circuitIdStream = .ok stream)
    (h' : other.circuitIdStream = .ok stream) : circuit.Same other := by
  rw [circuitIdStream] at h h'
  obtain ⟨logOutputs, -, h⟩ := Exec.bind_eq_ok.mp h
  obtain ⟨logCopies, -, h⟩ := Exec.bind_eq_ok.mp h
  obtain ⟨header, hheader, h⟩ := Exec.bind_eq_ok.mp h
  obtain ⟨layers, hencoded, h⟩ := Exec.bind_eq_ok.mp h
  obtain ⟨logOutputs', -, h'⟩ := Exec.bind_eq_ok.mp h'
  obtain ⟨logCopies', -, h'⟩ := Exec.bind_eq_ok.mp h'
  obtain ⟨header', hheader', h'⟩ := Exec.bind_eq_ok.mp h'
  obtain ⟨layers', hencoded', h'⟩ := Exec.bind_eq_ok.mp h'
  have heq := Except.ok.inj (h.trans h'.symm)
  rw [List.append_assoc, List.append_assoc] at heq
  obtain ⟨hwords, heq⟩ := circuitIdUpdates_inj hheader hheader' rfl
    (List.append_cancel_left heq)
  simp only [List.map_cons, List.map_nil, List.cons.injEq, and_true] at hwords
  obtain ⟨hnumOutputs, -, hnumCopies, -, hnumLayers, hnumInputs, hpublic,
    hsubfield⟩ := hwords
  obtain ⟨hall, -⟩ := encodeFixedArray_separates (r := []) (s := [])
    (circuit.circuitIdLayer_separates other)
    (by rw [← hlayers, ← hlayers', hnumLayers]) hencoded hencoded' (by
      rw [heq])
  exact
    { numOutputs_eq := hnumOutputs
      numCopies_eq := hnumCopies
      numPublicInputs_eq := hpublic
      numInputs_eq := hnumInputs
      subfieldBoundary_eq := hsubfield
      numLayers_eq := hnumLayers
      layers := hall }

end Injective

section Transport

variable {F : Type} {circuit other : Circuit F}

/-- A position names the same layer in both circuits, or none in both. -/
theorem Same.index_layers (h : circuit.Same other) (i : Nat) :
    (∃ layer layer', index circuit.layers i = .ok layer ∧
      index other.layers i = .ok layer' ∧
      circuit.SameLayer other layer layer') ∨
    (index circuit.layers i = abort "index out of bounds" ∧
      index other.layers i = abort "index out of bounds") := by
  have hlength := h.layers.length_eq
  by_cases hi : i < circuit.layers.length
  · left
    have hi' : i < other.layers.length := hlength ▸ hi
    exact ⟨_, _, index_of_lt hi, index_of_lt hi', h.layers.get hi hi'⟩
  · right
    have hnone : circuit.layers[i]? = none := by simpa using hi
    have hnone' : other.layers[i]? = none := by simpa [← hlength] using hi
    rw [index, index, hnone, hnone']
    exact ⟨rfl, rfl⟩

variable [Field F] [DecidableEq F]

theorem SameQuad.evaluateQuad_eq {quad quad' : Quad}
    (h : circuit.SameQuad other quad quad') (layerWires : List F)
    (nextLayerNumWires : Nat) (state : GateState F) :
    circuit.evaluateQuad layerWires nextLayerNumWires state quad =
      other.evaluateQuad layerWires nextLayerNumWires state quad' := by
  obtain ⟨value, hvalue, hvalue'⟩ := h.constant_eq
  rw [evaluateQuad, evaluateQuad, hvalue, hvalue', h.gateIndex_eq,
    h.leftWireIndex_eq, h.rightWireIndex_eq]

theorem SameLayer.evaluateLayer_eq {layer layer' : CircuitLayer}
    (h : circuit.SameLayer other layer layer') (layerIndex : Nat)
    (layerWires : List F) (nextLayerNumWires : Nat) :
    circuit.evaluateLayer layer layerIndex layerWires nextLayerNumWires =
      other.evaluateLayer layer' layerIndex layerWires nextLayerNumWires := by
  rw [evaluateLayer, evaluateLayer, foldlM_forall₂ h.quads]
  intro state quad quad' hquad
  exact hquad.evaluateQuad_eq layerWires nextLayerNumWires state

theorem Same.evaluate_eq (h : circuit.Same other) (inputs : List F) :
    circuit.evaluate inputs = other.evaluate inputs := by
  have hzip {k : Nat} {xs ys : List CircuitLayer}
      (hxs : List.Forall₂ (circuit.SameLayer other) xs ys) :
      List.Forall₂ (fun p q => circuit.SameLayer other p.1 q.1 ∧ p.2 = q.2)
        (xs.zipIdx k) (ys.zipIdx k) := by
    induction hxs generalizing k with
    | nil => exact List.Forall₂.nil
    | cons hhead htail ih => exact List.Forall₂.cons ⟨hhead, rfl⟩ ih
  rw [evaluate, evaluate, h.numLayers_eq]
  congr 1
  funext first
  congr 1
  funext _
  congr 1
  funext outputLayerIndex
  congr 1
  apply foldlM_forall₂ (hzip (List.rel_reverse h.layers))
  rintro wires ⟨layer, layerIndex⟩ ⟨layer', _⟩ ⟨hlayer, rfl⟩
  simp only [hlayer.evaluateLayer_eq, h.numOutputs_eq]
  split
  · rfl
  · rcases checkedSub outputLayerIndex layerIndex with _ | position
    · rfl
    · rw [ok_bind, ok_bind]
      rcases checkedSub position 1 with _ | position
      · rfl
      · rw [ok_bind, ok_bind]
        rcases h.index_layers position with
          ⟨next, next', hnext, hnext', hsame⟩ | ⟨hnone, hnone'⟩
        · rw [hnext, hnext', ok_bind, ok_bind, hsame.numWires_eq]
        · rw [hnone, hnone']

theorem Same.combinedQuad_eq (h : circuit.Same other) (layerIndex : Nat)
    (beta : F) :
    circuit.combinedQuad layerIndex beta =
      other.combinedQuad layerIndex beta := by
  rw [combinedQuad, combinedQuad]
  rcases h.index_layers layerIndex with
    ⟨layer, layer', hlayer, hlayer', hsame⟩ | ⟨hnone, hnone'⟩
  · rw [hlayer, hlayer', ok_bind, ok_bind, hsame.quads.length_eq]
    congr 1
    apply mapM_forall₂ hsame.quads
    intro quad quad' hquad
    obtain ⟨value, hvalue, hvalue'⟩ := hquad.constant_eq
    rw [hvalue, hvalue', ok_bind, ok_bind, combinedElement, combinedElement,
      hquad.gateIndex_eq, hquad.leftWireIndex_eq, hquad.rightWireIndex_eq]
  · rw [hnone, hnone']
    rfl

end Transport

section Binding

variable {F : Type} [CodecFieldElement F]

theorem decode_numLayers {profile : Profile} {circuit : Circuit F}
    {bs rest : List UInt8} (h : decode profile bs = .ok (circuit, rest)) :
    circuit.numLayers = circuit.layers.length := by
  obtain ⟨header, mid, -, h⟩ := Decoder.bind_eq_ok.mp h
  obtain ⟨layers, mid', hlayers, h⟩ := Decoder.bind_eq_ok.mp h
  obtain ⟨id, last, -, h⟩ := Decoder.bind_eq_ok.mp h
  obtain ⟨rfl, -⟩ := Decoder.pure_eq_ok.mp h
  exact (Decoder.length_of_replicate (Decoder.context_eq_ok.mp hlayers)).symm

variable [Field F] [DecidableEq F]

/-- The id of a decoded circuit binds everything but its version, its stored
id and the layout of its constant table, and so all of its behaviour. -/
theorem circuitId_binds [Primitives] [LawfulCodec F]
    {profile profile' : Profile} {bs bs' rest rest' : List UInt8}
    {circuit other : Circuit F}
    (hdecode : decode profile bs = .ok (circuit, rest))
    (hdecode' : decode profile' bs' = .ok (other, rest'))
    {stream stream' : List UInt8}
    (hstream : circuit.circuitIdStream = .ok stream)
    (hstream' : other.circuitIdStream = .ok stream') :
    (stream = stream' → circuit.Same other) ∧
    ((Primitives.sha256 stream = Primitives.sha256 stream' →
        stream = stream') →
      circuit.circuitId = other.circuitId →
        (∀ inputs, circuit.evaluate inputs = other.evaluate inputs) ∧
        ∀ layerIndex beta, circuit.combinedQuad layerIndex beta =
          other.combinedQuad layerIndex beta) := by
  have hsame (heq : stream = stream') : circuit.Same other := by
    subst heq
    exact circuitIdStream_inj (decode_numLayers hdecode)
      (decode_numLayers hdecode') hstream hstream'
  refine ⟨hsame, fun hcollision hid => ?_⟩
  have hdigest : Primitives.sha256 stream = Primitives.sha256 stream' := by
    rw [circuitId, circuitId, hstream, hstream', ok_bind, ok_bind] at hid
    exact Except.ok.inj hid
  have hall := hsame (hcollision hdigest)
  exact ⟨hall.evaluate_eq, hall.combinedQuad_eq⟩

end Binding

section SevenTimes

open Bytes

/-- A circuit with the output `7 * x`, under a constant table that has the
coefficient at an index. -/
def sevenTimes (constantTable : List FieldP128) (constTableIndex : Nat) :
    Circuit FieldP128 where
  version := 1
  numOutputs := 1
  numCopies := 1
  numPublicInputs := 1
  subfieldBoundary := 2
  numInputs := 2
  numLayers := 1
  constantTable
  layers := [⟨1, 2, [⟨0, 0, 1, constTableIndex⟩]⟩]
  id := default

def sevenTimesBytes (constants : List Nat) (constTableIndex : UInt8) :
    List UInt8 :=
  [1] ++ [6, 0, 0] ++ [1, 0, 0] ++ [1, 0, 0] ++ [1, 0, 0] ++ [2, 0, 0] ++
    [2, 0, 0] ++ [1, 0, 0] ++ leBytes 3 constants.length ++
    constants.flatMap (leBytes 16) ++
    ([1, 0, 0] ++ [2, 0, 0] ++ [1, 0, 0] ++
      ([0, 0, 0] ++ [0, 0, 0] ++ [2, 0, 0] ++ [constTableIndex, 0, 0])) ++
    List.replicate 32 0

/-- The stream that gives the circuit its id. -/
def sevenTimesStream : List UInt8 :=
  leBytes 8 1 ++ leBytes 16 (2 ^ 128 - 2 ^ 108) ++
    [1, 0, 1, 0, 1, 2, 1, 2].flatMap (leBytes 8) ++
    ([2, 1, 1].flatMap (leBytes 8) ++
      ([0, 0, 1].flatMap (leBytes 8) ++ leBytes 16 7))

/-- SHA-256 on the stream. -/
@[reducible] def sevenTimesPrimitives : Primitives :=
  tabled [(sevenTimesStream, digestOf
    0xcb83fc65f4f64eb78275ff24f76b749c710c712ae8b56de24a18040b142e1b35)]

/-- A constant table with an entry that no quad uses does not change what the
circuit computes. -/
theorem circuitId_binds_sevenTimes :
    (sevenTimes [7] 0).Same (sevenTimes [0, 7] 1) ∧
      ∀ inputs, (sevenTimes [7] 0).evaluate inputs =
        (sevenTimes [0, 7] 1).evaluate inputs := by
  have hencode : (sevenTimes [7] 0).encode = .ok (sevenTimesBytes [7] 0) := by
    decide
  have hencode' :
      (sevenTimes [0, 7] 1).encode = .ok (sevenTimesBytes [0, 7] 1) := by
    decide
  have hdecode := decode_reads .dev (by decide) hencode []
  have hdecode' := decode_reads .dev (by decide) hencode' []
  have hstream : (sevenTimes [7] 0).circuitIdStream = .ok sevenTimesStream := by
    decide
  have hstream' :
      (sevenTimes [0, 7] 1).circuitIdStream = .ok sevenTimesStream := by
    decide
  have hid : @circuitId _ _ sevenTimesPrimitives (sevenTimes [7] 0) =
      @circuitId _ _ sevenTimesPrimitives (sevenTimes [0, 7] 1) := by
    simp only [circuitId, hstream, hstream']
  have hbinds := @circuitId_binds _ _ _ _ sevenTimesPrimitives _ _ _ _ _ _ _
    _ _ hdecode hdecode' _ _ hstream hstream'
  exact ⟨hbinds.1 rfl, (hbinds.2 (fun _ => rfl) hid).1⟩

end SevenTimes

end Circuit

end Longfellow
