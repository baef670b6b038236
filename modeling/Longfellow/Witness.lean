/-
The witness vector and its layout: the private inputs of the circuit, and the
one-time pads of every layer.
-/
import Longfellow.Transcript

namespace Longfellow

open Exec

/-- The layout of the witness vector. -/
structure WitnessLayout where
  /-- The number of private inputs to the circuit. -/
  numPrivateInputs : Nat
  /-- The number of polynomial evaluations on each layer. -/
  logw : List Nat
deriving DecidableEq, Repr

/-- The position of a hand in an array of two. -/
def Hand.toNat : Hand → Nat
  | .left => 0
  | .right => 1

namespace WitnessLayout

def fromCircuit {F : Type} (circuit : Circuit F) : Exec WitnessLayout := do
  let numPrivateInputs ← circuit.numPrivateInputs
  pure ⟨numPrivateInputs, circuit.layers.map fun layer => layer.logw⟩

/-- Indices of the witnesses for private inputs. -/
def privateInputWitnessIndices (layout : WitnessLayout) : List Nat :=
  List.range layout.numPrivateInputs

/-- The first of the wire witnesses at the given layer. -/
def wireStart (layout : WitnessLayout) (layer : Nat) : Nat :=
  layout.numPrivateInputs + layer * 3 +
    2 * 2 * (layout.logw.take (layer + 1)).sum

/-- The first of the polynomial witnesses at the given layer, round and
hand. -/
def polynomialStart (layout : WitnessLayout) (layer round : Nat) (hand : Hand) :
    Nat :=
  layout.numPrivateInputs + layer * 3 + 2 * 2 * (layout.logw.take layer).sum +
    2 * 2 * round + 2 * hand.toNat

/-- Indices of the witnesses for `vl`, `vr` and `vl * vr` at the layer. -/
def wireWitnessIndices (layout : WitnessLayout) (layer : Nat) :
    Exec (Nat × Nat × Nat) := do
  assert (layer < layout.logw.length)
    "assertion failed: layer < self.logw.len()"
  let start := layout.wireStart layer
  pure (start, start + 1, start + 2)

/-- Indices of the witnesses for the polynomial at the given layer, round and
hand. -/
def polynomialWitnessIndices (layout : WitnessLayout) (layer round : Nat)
    (hand : Hand) : Exec (Nat × Nat) := do
  assert (layer < layout.logw.length)
    "assertion failed: layer < self.logw.len()"
  let logw ← index layout.logw layer
  assert (round < logw) "assertion failed: round < self.logw[layer]"
  let start := layout.polynomialStart layer round hand
  pure (start, start + 1)

/-- Total length of the witness vector. -/
def length (layout : WitnessLayout) : Nat :=
  layout.numPrivateInputs + layout.logw.length * 3 + 4 * layout.logw.sum

end WitnessLayout

/-- The contents of the witness vector. -/
structure Witness (F : Type) where
  values : List F
  layout : WitnessLayout
deriving DecidableEq

namespace Witness

variable {F : Type} [Field F]

section Fill

variable {σ : Type} (padGenerator : σ → F × σ)

/-- Append a generated pad. -/
def pushPad (state : List F × σ) : List F × σ :=
  let (pad, s) := padGenerator state.2
  (state.1 ++ [pad], s)

/-- Append the pads of a layer, and the product of the last two. -/
def fillLayer (state : List F × σ) (layerLogw : Nat) : List F × σ :=
  let state := (List.range layerLogw).foldl
    (fun state _ => (List.range 2).foldl
      (fun state _ => pushPad padGenerator (pushPad padGenerator state)) state)
    state
  let (vl, s) := padGenerator state.2
  let (vr, s) := padGenerator s
  (state.1 ++ [vl, vr, vl * vr], s)

/-- Construct a witness vector for the layout, generating pad values. -/
def fillWitness (layout : WitnessLayout) (privateInputs : List F) (s : σ) :
    Witness F × σ :=
  let (values, s) := layout.logw.foldl (fillLayer padGenerator)
    (privateInputs, s)
  (⟨values, layout⟩, s)

end Fill

/-- Get an element of the witness. -/
def element (witness : Witness F) (i : Nat) : Exec F := index witness.values i

/-- Pads for the polynomial at the given layer, round and hand. -/
def polynomialWitnesses (witness : Witness F) (layer round : Nat)
    (hand : Hand) : Exec (Sumcheck.Polynomial F) := do
  let (p0, p2) ← witness.layout.polynomialWitnessIndices layer round hand
  let p0 ← witness.element p0
  let p2 ← witness.element p2
  pure ⟨p0, p2⟩

/-- Pads for the wires at the given layer. -/
def wireWitnesses (witness : Witness F) (layer : Nat) : Exec (F × F × F) := do
  let (vl, vr, vlVr) ← witness.layout.wireWitnessIndices layer
  let vl ← witness.element vl
  let vr ← witness.element vr
  let vlVr ← witness.element vlVr
  pure (vl, vr, vlVr)

/-- A range of witnesses, with zeroes where the index is undefined. -/
def elements (witness : Witness F) (start count : Nat) : List F :=
  let values := (witness.values.drop start).take count
  values ++ List.replicate (count - values.length) 0

end Witness

end Longfellow
