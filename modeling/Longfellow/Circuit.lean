/-
Layered arithmetic circuits, their evaluation, and what a well-formed circuit
is.
-/
import Longfellow.Sumcheck.Reduce
import Mathlib.Data.Nat.Log

namespace Longfellow

open Exec SparseQuadElement

/-- A quad describes an individual gate in the circuit. -/
structure Quad where
  gateIndex : Nat
  leftWireIndex : Nat
  rightWireIndex : Nat
  constTableIndex : Nat
deriving DecidableEq, Repr

/-- A layer of a circuit. -/
structure CircuitLayer where
  /-- The number of bits needed to name a wire on this layer. -/
  logw : Nat
  /-- Number of wires entering the layer. -/
  numWires : Nat
  quads : List Quad
deriving DecidableEq, Repr

/-- The bytes of a SHA-256 digest. -/
structure Sha256Digest where
  bytes : List UInt8
  length_bytes : bytes.length = 32
deriving DecidableEq

/-- As many zeros as a digest has bytes. -/
theorem length_zeros : (List.replicate 32 (0 : UInt8)).length = 32 :=
  List.length_replicate

/-- A circuit. The output layer comes first, the input layer last. -/
structure Circuit (F : Type) where
  version : UInt8
  numOutputs : Nat
  numCopies : Nat
  numPublicInputs : Nat
  subfieldBoundary : Nat
  numInputs : Nat
  numLayers : Nat
  constantTable : List F
  layers : List CircuitLayer
  id : Sha256Digest

/-- The wires of a circuit after evaluation: the outputs first, the inputs
last. -/
structure Evaluation (F : Type) where
  wires : List (List F)
deriving DecidableEq

namespace Evaluation

variable {F : Type}

def outputs (evaluation : Evaluation F) : Exec (List F) :=
  index evaluation.wires 0

def inputs (evaluation : Evaluation F) : Exec (List F) := do
  let last ← checkedSub evaluation.wires.length 1
  index evaluation.wires last

/-- The first inputs, of which there must be enough. -/
def publicInputs (evaluation : Evaluation F) (numPublicInputs : Nat) :
    Exec (List F) := do
  let inputs ← evaluation.inputs
  assert (numPublicInputs ≤ inputs.length) "range end index out of range"
  pure (inputs.take numPublicInputs)

/-- The inputs after the public ones. -/
def privateInputs (evaluation : Evaluation F) (numPublicInputs : Nat) :
    Exec (List F) := do
  let inputs ← evaluation.inputs
  assert (numPublicInputs ≤ inputs.length) "range start index out of range"
  pure (inputs.drop numPublicInputs)

end Evaluation

namespace Circuit

section

variable {F : Type}

/-- The number of bits needed to describe an output wire. -/
def logw (circuit : Circuit F) : Nat := Nat.clog 2 circuit.numOutputs

/-- Retrieve the requested constant from the constant table. -/
def constant (circuit : Circuit F) (index : Nat) : Exec F :=
  match circuit.constantTable[index]? with
  | some value => pure value
  | none => fail s!"index {index} not present in constant table"

/-- The number of quads in this circuit. -/
def numQuads (circuit : Circuit F) : Nat :=
  (circuit.layers.map fun layer => layer.quads.length).sum

/-- The sum of each layer's `logw`. -/
def logwSum (circuit : Circuit F) : Nat :=
  (circuit.layers.map fun layer => layer.logw).sum

/-- The number of wires that the gates of a layer drive. -/
def nextLayerNumWires (circuit : Circuit F) : Nat → Nat
  | 0 => circuit.numOutputs
  | i + 1 => (circuit.layers.map fun layer => layer.numWires).getD i 0

/-- The number of private inputs to the circuit. -/
def numPrivateInputs (circuit : Circuit F) : Exec Nat :=
  checkedSub circuit.numInputs circuit.numPublicInputs

end

section Evaluate

variable {F : Type} [Field F] [DecidableEq F]

/-- The gate outputs of a layer so far, and the gates that received
contributions from Z quads. -/
structure GateState (F : Type) where
  gateOutputs : List F
  zGateIndexes : List Nat

/-- Add the output of one quad to its gate. -/
def evaluateQuad (circuit : Circuit F) (layerWires : List F)
    (nextLayerNumWires : Nat) (state : GateState F) (quad : Quad) :
    Exec (GateState F) := do
  let quadValue ← circuit.constant quad.constTableIndex
  let leftWire ← match layerWires[quad.leftWireIndex]? with
    | some wire => pure wire
    | none => fail "left wire index not present in previous layer of circuit"
  let rightWire ← match layerWires[quad.rightWireIndex]? with
    | some wire => pure wire
    | none => fail "right wire index not present in previous layer of circuit"
  let zGateIndexes :=
    if quadValue = 0 then state.zGateIndexes.insert quad.gateIndex
    else state.zGateIndexes
  let quadOutput :=
    if quadValue = 0 then leftWire * rightWire
    else quadValue * leftWire * rightWire
  assert (quad.gateIndex < nextLayerNumWires)
    "gate index exceeding the next layer's number of input wires"
  let gateOutputs ← update state.gateOutputs quad.gateIndex (· + quadOutput)
  pure ⟨gateOutputs, zGateIndexes⟩

/-- Evaluate the gates of a layer, and check those that are asserted to be
zero. -/
def evaluateLayer (circuit : Circuit F) (layer : CircuitLayer)
    (layerIndex : Nat) (layerWires : List F) (nextLayerNumWires : Nat) :
    Exec (List F) := do
  let state ← layer.quads.foldlM
    (circuit.evaluateQuad layerWires nextLayerNumWires)
    ⟨List.replicate nextLayerNumWires 0, []⟩
  state.zGateIndexes.forM fun gateIndex => do
    let gateOutput ← index state.gateOutputs gateIndex
    ensure (gateOutput = 0)
      s!"in-circuit assertion failed at layer {layerIndex}, gate {gateIndex}"
  pure state.gateOutputs

/-- Evaluate the circuit with the provided inputs, which include the implicit
one input wire. -/
def evaluate (circuit : Circuit F) (inputs : List F) :
    Exec (Evaluation F) := do
  let first ← index inputs 0
  ensure (first = 1) "the first input wire was not one"
  let outputLayerIndex ← checkedSub circuit.numLayers 1
  let wires ← circuit.layers.reverse.zipIdx.foldlM
    (fun wires (layer, layerIndex) => do
      let nextLayerNumWires ←
        if layerIndex = outputLayerIndex then pure circuit.numOutputs
        else do
          let position ← checkedSub outputLayerIndex layerIndex
          let position ← checkedSub position 1
          let next ← index circuit.layers position
          pure next.numWires
      let layerWires ← index wires layerIndex
      let gateOutputs ←
        circuit.evaluateLayer layer layerIndex layerWires nextLayerNumWires
      pure (wires ++ [gateOutputs]))
    [inputs]
  pure ⟨wires.reverse⟩

/-- The element that a quad contributes to the combined quad. -/
def combinedElement (beta : F) (quad : Quad) (quadValue : F) :
    SparseQuadElement F :=
  { gateIndex := quad.gateIndex
    leftWireIndex := quad.leftWireIndex
    rightWireIndex := quad.rightWireIndex
    coefficient := if quadValue = 0 then beta else quadValue }

/-- Compute the combined quad `QZ = Q + beta * Z` for the specified layer. -/
def combinedQuad (circuit : Circuit F) (layerIndex : Nat) (beta : F) :
    Exec (SparseSumcheckArray F) := do
  let layer ← index circuit.layers layerIndex
  let sparseQuad ← layer.quads.mapM fun quad => do
    let quadValue ← circuit.constant quad.constTableIndex
    pure (combinedElement beta quad quadValue)
  assert (sparseQuad.length = layer.quads.length)
    "assertion `left == right` failed"
  SparseSumcheckArray.ofContents sparseQuad

/-- The value that the constant table gives a quad. -/
def quadValue (circuit : Circuit F) (quad : Quad) : F :=
  circuit.constantTable.getD quad.constTableIndex 0

/-- The elements of the combined quad of a layer. -/
def combinedElements (circuit : Circuit F) (layer : CircuitLayer) (beta : F) :
    List (SparseQuadElement F) :=
  layer.quads.map fun quad =>
    combinedElement beta quad (circuit.quadValue quad)

end Evaluate

/-- The counts of a circuit agree with its layers. -/
structure Consistent {F : Type} (circuit : Circuit F) : Prop where
  numLayers_eq : circuit.numLayers = circuit.layers.length
  layers_ne_nil : circuit.layers ≠ []
  /-- Sizes are 32-bit integers. -/
  numOutputs_lt : circuit.numOutputs < 2 ^ 32
  numPublicInputs_le : circuit.numPublicInputs ≤ circuit.numInputs

theorem nextLayerNumWires_succ {F : Type} {circuit : Circuit F} {i : Nat}
    (hi : i < circuit.layers.length) :
    circuit.nextLayerNumWires (i + 1) = circuit.layers[i].numWires := by
  simp [nextLayerNumWires, hi]

theorem logw_le {F : Type} {circuit : Circuit F} (h : circuit.Consistent) :
    circuit.logw ≤ 32 :=
  Nat.clog_le_of_le_pow h.numOutputs_lt.le

section WellFormed

variable {F : Type} [Field F] [DecidableEq F]

/-- The indices of a layer are in range. -/
structure LayerBounds (circuit : Circuit F) (i : Nat) (layer : CircuitLayer) :
    Prop where
  quads_ne_nil : layer.quads ≠ []
  leftWire_lt : ∀ quad ∈ layer.quads, quad.leftWireIndex < layer.numWires
  rightWire_lt : ∀ quad ∈ layer.quads, quad.rightWireIndex < layer.numWires
  numWires_le : layer.numWires ≤ 2 ^ layer.logw
  /-- Sizes are 32-bit integers. -/
  numWires_lt : layer.numWires < 2 ^ 32
  constant_lt : ∀ quad ∈ layer.quads,
    quad.constTableIndex < circuit.constantTable.length
  gate_lt : ∀ quad ∈ layer.quads, quad.gateIndex < circuit.nextLayerNumWires i

/-- What every layer whose combined quad can be bound satisfies. -/
structure LayerShape (circuit : Circuit F) (i : Nat) (layer : CircuitLayer) :
    Prop extends circuit.LayerBounds i layer where
  sorted : ∀ beta, (circuit.combinedElements layer beta).IsChain Precedes

/-- The conditions that `check_invariants` asserts of a layer, and the ones
it leaves to the circuit compiler. -/
structure LayerInvariants (circuit : Circuit F) (i : Nat)
    (layer : CircuitLayer) : Prop extends circuit.LayerBounds i layer where
  /-- Gates get contributions from either Q or Z but never both. -/
  disjoint : ∀ quad ∈ layer.quads, ∀ other ∈ layer.quads,
    quad.gateIndex = other.gateIndex →
      (circuit.quadValue quad = 0 ↔ circuit.quadValue other = 0)
  isSorted : isSorted (circuit.combinedElements layer 1) = .ok true

/-- A circuit on which every proof of its shape can be checked. -/
structure Shaped (circuit : Circuit F) : Prop extends circuit.Consistent where
  layer_shape : ∀ i (hi : i < circuit.layers.length),
    circuit.LayerShape i circuit.layers[i]
  numInputs_le : ∀ layer, circuit.layers.getLast? = some layer →
    circuit.numInputs ≤ 2 ^ layer.logw

/-- A well-formed circuit. -/
structure WellFormed (circuit : Circuit F) : Prop
    extends circuit.Consistent where
  layer_invariants : ∀ i (hi : i < circuit.layers.length),
    circuit.LayerInvariants i circuit.layers[i]
  numInputs_eq : circuit.numInputs =
    circuit.nextLayerNumWires circuit.layers.length

/-- The order that was checked at one value of `beta` holds at every value,
because elements with the same indices are all from Q or all from Z. -/
theorem LayerInvariants.shape {circuit : Circuit F} {i : Nat}
    {layer : CircuitLayer} (h : circuit.LayerInvariants i layer) :
    circuit.LayerShape i layer where
  toLayerBounds := h.toLayerBounds
  sorted beta := by
    have hone := isSorted_eq_ok.mp h.isSorted
    rw [combinedElements, List.isChain_map] at hone ⊢
    refine List.IsChain.imp_of_mem_imp ?_ hone
    intro quad other hquad hother hprecedes
    rcases hprecedes with hlt | ⟨heq, hlt | ⟨hgate, hcoeff⟩⟩
    · exact Or.inl hlt
    · exact Or.inr ⟨heq, Or.inl hlt⟩
    · refine Or.inr ⟨heq, Or.inr ⟨hgate, ?_⟩⟩
      have hiff := h.disjoint quad hquad other hother hgate
      simp only [combinedElement] at hcoeff ⊢
      by_cases hzero : circuit.quadValue quad = 0
      · rw [if_pos hzero, if_pos (hiff.mp hzero)]
      · have hother : circuit.quadValue other ≠ 0 :=
          fun hc => hzero (hiff.mpr hc)
        rw [if_neg hzero, if_neg hother] at hcoeff ⊢
        exact hcoeff

theorem WellFormed.shaped {circuit : Circuit F} (h : circuit.WellFormed) :
    circuit.Shaped where
  toConsistent := h.toConsistent
  layer_shape i hi := (h.layer_invariants i hi).shape
  numInputs_le layer hlast := by
    have hpos : 0 < circuit.layers.length :=
      List.length_pos_iff.mpr h.layers_ne_nil
    have hlt : circuit.layers.length - 1 < circuit.layers.length := by omega
    rw [List.getLast?_eq_getElem?, List.getElem?_eq_getElem hlt,
      Option.some.injEq] at hlast
    have hwires := (h.layer_invariants _ hlt).numWires_le
    have hnext := nextLayerNumWires_succ hlt
    rw [Nat.sub_add_cancel hpos] at hnext
    rw [h.numInputs_eq, hnext, ← hlast]
    exact hwires

/-- The combined quad of a layer is in order, so making it does not panic. -/
theorem combinedQuad_eq_ok {circuit : Circuit F} {i : Nat}
    (hi : i < circuit.layers.length)
    (h : circuit.LayerShape i circuit.layers[i]) (beta : F) :
    circuit.combinedQuad i beta =
      .ok ⟨circuit.combinedElements circuit.layers[i] beta⟩ := by
  have hmap : (circuit.layers[i].quads.mapM fun quad => do
      let quadValue ← circuit.constant quad.constTableIndex
      pure (combinedElement beta quad quadValue)) =
      .ok (circuit.combinedElements circuit.layers[i] beta) := by
    refine mapM_eq_ok fun quad hquad => ?_
    simp [constant, quadValue, h.constant_lt quad hquad]
  have hsorted := isSorted_eq_ok.mpr (h.sorted beta)
  rw [combinedQuad, index_of_lt hi, ok_bind, hmap, ok_bind,
    assert_of (by simp [combinedElements]), ok_bind,
    SparseSumcheckArray.ofContents, hsorted]
  rfl

end WellFormed

end Circuit

end Longfellow
