/-
The padded sumcheck proof of circuit evaluation: one loop that both the prover
and the verifier run.
-/
import Longfellow.Sumcheck.Constraints

namespace Longfellow.Sumcheck

open Exec

/-- Sumcheck proof for a circuit layer. -/
structure ProofLayer (F : Type) where
  /-- A pair of polynomials for each bit of a wire on the layer. -/
  polynomials : List (Hands (Sumcheck.Polynomial F))
  vl : F
  vr : F
deriving DecidableEq, Repr

/-- Proof constructed by sumcheck. -/
structure SumcheckProof (F : Type) where
  layers : List (ProofLayer F)
deriving DecidableEq, Repr

namespace SumcheckProof

variable {F : Type}

/-- The polynomial of a layer, round and hand. -/
def polynomial (proof : SumcheckProof F) (layer round : Nat) (hand : Hand) :
    Exec (Sumcheck.Polynomial F) := do
  let proofLayer ← index proof.layers layer
  let polynomials ← index proofLayer.polynomials round
  pure (polynomials.get hand)

/-- Fill in the polynomial of a layer, round and hand. -/
def setPolynomial (proof : SumcheckProof F) (layer round : Nat) (hand : Hand)
    (polynomial : Sumcheck.Polynomial F) : Exec (SumcheckProof F) := do
  let proofLayer ← index proof.layers layer
  let polynomials ← update proofLayer.polynomials round
    (·.set hand polynomial)
  pure ⟨proof.layers.set layer { proofLayer with polynomials }⟩

/-- Fill in the wires of a layer. -/
def setWires (proof : SumcheckProof F) (layer : Nat) (vl vr : F) :
    Exec (SumcheckProof F) := do
  let layers ← update proof.layers layer fun proofLayer =>
    { proofLayer with vl, vr }
  pure ⟨layers⟩

end SumcheckProof

/-- Mode of operation of the protocol. -/
inductive ProtocolRole (F : Type) where
  /-- The prover has all the private values. It fills the proof, and binds a
  copy of the wires of each layer for each hand. -/
  | prover (evaluation : Evaluation F) (witness : Witness F)
      (proof : SumcheckProof F) (wires : List (Hands (List F)))
  /-- The verifier has only public inputs and a sumcheck proof. -/
  | verifier (publicInputs : List F) (proof : SumcheckProof F)

/-- The proof that the role has filled. -/
def ProtocolRole.filledProof {F : Type} : ProtocolRole F →
    Option (SumcheckProof F)
  | .prover _ _ proof _ => some proof
  | .verifier _ _ => none

section Transcript

variable {F : Type} [Field F] [CodecFieldElement F]

/-- Initialize the transcript after the first message: the circuit, the public
inputs, the output and a zero byte for each quad. -/
def initializeTranscript (transcript : Transcript) (circuit : Circuit F)
    (publicInputs : List F) : Transcript :=
  let transcript := transcript.writeByteArray circuit.id.bytes
  let transcript := publicInputs.foldl
    (fun transcript input => transcript.writeFieldElement input) transcript
  let transcript := transcript.writeFieldElement (0 : F)
  transcript.writeZeroArray circuit.numQuads

end Transcript

section Protocol

variable {F : Type} [Field F] [DecidableEq F] [ProofFieldElement F]

/-- The value of the round polynomial at a binding: bind the intermediate
array and the wires, and take the inner product. -/
def evaluatePolynomial (array wires : List F) (binding : Binding F) :
    Exec F := do
  let bound ← bindIter array binding
  pure (bound.zipIdx.foldl
    (fun acc (element, i) => acc + element * boundElementAt wires binding i) 0)

/-- The padded polynomial of a round: the prover computes it and fills it in,
the verifier reads it. -/
def roundPolynomial (role : ProtocolRole F) (quad : SparseSumcheckArray F)
    (layerIndex round : Nat) (hand : Hand) :
    Exec (Sumcheck.Polynomial F × ProtocolRole F) :=
  match role with
  | .prover evaluation witness proof allWires => do
      let wires ← index allWires (layerIndex + 1)
      let wiresScratch ← quad.computeA hand wires
      let pad ← witness.polynomialWitnesses layerIndex round hand
      let p0 ← evaluatePolynomial wiresScratch (wires.get hand) .zero
      let p2 ← evaluatePolynomial wiresScratch (wires.get hand) .sumcheckP2
      let polynomial := ⟨p0 - pad.p0, p2 - pad.p2⟩
      let proof ← proof.setPolynomial layerIndex round hand polynomial
      pure (polynomial, .prover evaluation witness proof allWires)
  | .verifier publicInputs proof => do
      let polynomial ← proof.polynomial layerIndex round hand
      pure (polynomial, .verifier publicInputs proof)

/-- Bind the current wires of the prover to the challenge. -/
def bindWires (role : ProtocolRole F) (layerIndex : Nat) (hand : Hand)
    (challenge : F) : Exec (ProtocolRole F) :=
  match role with
  | .prover evaluation witness proof allWires => do
      let wires ← index allWires (layerIndex + 1)
      let bound ← bind (wires.get hand) (.other challenge)
      pure (.prover evaluation witness proof
        (allWires.set (layerIndex + 1) (wires.set hand bound)))
  | .verifier publicInputs proof => pure (.verifier publicInputs proof)

/-- The padded wires at the end of a layer: the prover computes them and fills
them in, the verifier reads them. -/
def layerWires (role : ProtocolRole F) (layerIndex : Nat) :
    Exec (Hands F × ProtocolRole F) :=
  match role with
  | .prover evaluation witness proof allWires => do
      let wires ← index allWires (layerIndex + 1)
      assert (∀ pair ∈ (wires.left.zip wires.right).drop 1,
        pair.1 = 0 ∧ pair.2 = 0) "assertion `left == right` failed"
      let (vlPad, vrPad, _) ← witness.wireWitnesses layerIndex
      let vl := element wires.left 0 - vlPad
      let vr := element wires.right 0 - vrPad
      let proof ← proof.setWires layerIndex vl vr
      pure (⟨vl, vr⟩, .prover evaluation witness proof allWires)
  | .verifier publicInputs proof => do
      let proofLayer ← index proof.layers layerIndex
      pure (⟨proofLayer.vl, proofLayer.vr⟩, .verifier publicInputs proof)

/-- The claim after a round: interpolate the padded polynomial at the
challenge, with the pads as symbolic terms. -/
def updateClaim (layerClaim : SymbolicExpression F)
    (polynomial : Sumcheck.Polynomial F) (p0Witness p2Witness : Nat)
    (challenge : F) : SymbolicExpression F :=
  let layerClaim := layerClaim.mul (lagrangeBasisPolynomial1 challenge)
  let layerClaim := layerClaim.add
    (((Term.new p0Witness).add polynomial.p0).mul
      (lagrangeBasisPolynomial0 challenge - lagrangeBasisPolynomial1 challenge))
  layerClaim.add
    (((Term.new p2Witness).add polynomial.p2).mul
      (lagrangeBasisPolynomial2 challenge))

/-- The claim at the end of a layer: take away the terms of the product of the
two padded wires that involve a pad. -/
def finishClaim (layerClaim : SymbolicExpression F) (boundElement : F)
    (proofLayer : Hands F) (vlWitness vrWitness vlVrWitness : Nat) :
    SymbolicExpression F :=
  let layerClaim := layerClaim.add
    (((Term.new vlWitness).mul (-boundElement)).mul proofLayer.right)
  let layerClaim := layerClaim.add
    (((Term.new vrWitness).mul (-boundElement)).mul proofLayer.left)
  layerClaim.add ((Term.new vlVrWitness).mul (-boundElement))

/-- The claim at the start of a layer, from the wires of the layer before. -/
def initialClaim (layout : WitnessLayout) (layerIndex : Nat) (claims : Hands F)
    (alpha : F) : Exec (SymbolicExpression F) := do
  let layerClaim := SymbolicExpression.new layerIndex
  let claim0 := Term.fromKnown claims.left
  let claim1 := (Term.fromKnown claims.right).mul alpha
  if 0 < layerIndex then do
    let (vlWitness, vrWitness, _) ← layout.wireWitnessIndices (layerIndex - 1)
    pure ((layerClaim.add (claim0.withWitness vlWitness)).add
      (claim1.withWitness vrWitness))
  else pure ((layerClaim.add claim0).add claim1)

/-- What the rounds of a layer change. -/
structure RoundState (F : Type) where
  transcript : Transcript
  role : ProtocolRole F
  quad : SparseSumcheckArray F
  newBindings : Hands (List F)
  layerClaim : SymbolicExpression F

/-- What the layers change. -/
structure LayerState (F : Type) where
  transcript : Transcript
  role : ProtocolRole F
  bindings : Hands (List F)
  claims : Hands F
  constraints : LinearConstraints F

/-- The rounds of a layer, in the order in which they run. -/
def rounds (logw : Nat) : List (Nat × Hand) :=
  (List.range logw).flatMap fun round => [(round, .left), (round, .right)]

variable [Primitives] [SamplesField F]

/-- One round of a layer on one hand. -/
def runRound (layout : WitnessLayout) (layerIndex : Nat) (state : RoundState F)
    (roundHand : Nat × Hand) : Exec (RoundState F) := do
  let (round, hand) := roundHand
  let (polynomial, role) ←
    roundPolynomial state.role state.quad layerIndex round hand
  let transcript := state.transcript.writePolynomial polynomial
  let (challenge, transcript) := transcript.generateChallenge F 1
  let challenge ← index challenge 0
  let newBinding ← update (state.newBindings.get hand) round fun _ => challenge
  let role ← bindWires role layerIndex hand challenge
  let quad ← state.quad.bindHand hand challenge
  let (p0Witness, p2Witness) ←
    layout.polynomialWitnessIndices layerIndex round hand
  pure
    { transcript
      role
      quad
      newBindings := state.newBindings.set hand newBinding
      layerClaim :=
        updateClaim state.layerClaim polynomial p0Witness p2Witness challenge }

/-- One layer of the circuit. -/
def runLayer (circuit : Circuit F) (layout : WitnessLayout)
    (state : LayerState F) (indexedLayer : CircuitLayer × Nat) :
    Exec (LayerState F) := do
  let (layer, layerIndex) := indexedLayer
  let (alpha, transcript) := state.transcript.generateChallenge F 1
  let alpha ← index alpha 0
  let (beta, transcript) := transcript.generateChallenge F 1
  let beta ← index beta 0
  let quad ← circuit.combinedQuad layerIndex beta
  let quad ← quad.bindvGate state.bindings.left state.bindings.right alpha
  let newBindings :=
    ⟨List.replicate layer.logw 0, List.replicate layer.logw 0⟩
  let layerClaim ← initialClaim layout layerIndex state.claims alpha
  let inner ← (rounds layer.logw).foldlM (runRound layout layerIndex)
    ⟨transcript, state.role, quad, newBindings, layerClaim⟩
  assert (inner.quad.contents.length = 1) "assertion `left == right` failed"
  let bound ← index inner.quad.contents 0
  assert (bound.gateIndex = 0) "assertion `left == right` failed"
  assert (bound.leftWireIndex = 0) "assertion `left == right` failed"
  assert (bound.rightWireIndex = 0) "assertion `left == right` failed"
  let (proofLayer, role) ← layerWires inner.role layerIndex
  let boundElement := bound.coefficient
  let (vlWitness, vrWitness, vlVrWitness) ←
    layout.wireWitnessIndices layerIndex
  let layerClaim := finishClaim inner.layerClaim boundElement proofLayer
    vlWitness vrWitness vlVrWitness
  let constraints : LinearConstraints F :=
    { lhsTerms := state.constraints.lhsTerms ++ layerClaim.lhsTerms
      rhs := state.constraints.rhs ++
        [boundElement * proofLayer.left * proofLayer.right - layerClaim.known] }
  pure
    { transcript := inner.transcript.writeFieldElementArray
        [proofLayer.left, proofLayer.right]
      role
      bindings := inner.newBindings
      claims := proofLayer
      constraints }

/-- The constraint that the final claims match the binding of the inputs. -/
def inputConstraint (circuit : Circuit F) (layout : WitnessLayout)
    (publicInputs eq2 : List F) (claims : Hands F) (gamma : F) :
    Exec (SymbolicExpression F × F) := do
  let inputLayerIndex := circuit.numLayers
  let finalClaim ← layout.privateInputWitnessIndices.zipIdx.foldlM
    (fun finalClaim (privateInputWitness, privateInputIndex) => do
      let weight ← index eq2 (privateInputIndex + circuit.numPublicInputs)
      pure (finalClaim.add ((Term.new privateInputWitness).mul weight)))
    (SymbolicExpression.new inputLayerIndex)
  let last ← checkedSub inputLayerIndex 1
  let (vlWitness, vrWitness, _) ← layout.wireWitnessIndices last
  let finalClaim := finalClaim.add ((Term.new vlWitness).mul (-1))
  let finalClaim := finalClaim.add ((Term.new vrWitness).mul (-gamma))
  let rhs := claims.left + gamma * claims.right -
    (publicInputs.zip eq2).foldl (fun sum (input, weight) =>
      sum + input * weight) 0
  pure (finalClaim, rhs)

/-- The public inputs and the layout that a role starts with. -/
def roleInputs (circuit : Circuit F) (role : ProtocolRole F) :
    Exec (List F × WitnessLayout) :=
  match role with
  | .prover evaluation witness _ _ => do
      let publicInputs ← evaluation.publicInputs circuit.numPublicInputs
      pure (publicInputs, witness.layout)
  | .verifier publicInputs _ => do
      ensure (publicInputs.length = circuit.numPublicInputs)
        "wrong number of inputs"
      let layout ← WitnessLayout.fromCircuit circuit
      pure (publicInputs, layout)

/-- Run the sumcheck protocol, as either the prover or the verifier. -/
def runProtocol (circuit : Circuit F) (transcript : Transcript)
    (role : ProtocolRole F) :
    Exec ((LinearConstraints F × Option (SumcheckProof F)) × Transcript) := do
  let (publicInputs, layout) ← roleInputs circuit role
  -- the capacity that the source reserves is computed without wrapping
  let _ ← checkedSub circuit.numLayers 1
  let _ ← circuit.numPrivateInputs
  let (outputWireBindings, transcript) ←
    transcript.generateOutputWireBindings circuit
  let state ← circuit.layers.zipIdx.foldlM (runLayer circuit layout)
    { transcript
      role
      bindings := ⟨outputWireBindings, outputWireBindings⟩
      claims := ⟨0, 0⟩
      constraints := ⟨[], []⟩ }
  let (gamma, transcript) := state.transcript.generateChallenge F 1
  let gamma ← index gamma 0
  let eq2 ← bindeq state.bindings.left state.bindings.right gamma
  let (finalClaim, rhs) ←
    inputConstraint circuit layout publicInputs eq2 state.claims gamma
  let constraints : LinearConstraints F :=
    { lhsTerms := state.constraints.lhsTerms ++ finalClaim.lhsTerms
      rhs := state.constraints.rhs ++ [rhs] }
  pure ((constraints, state.role.filledProof), transcript)

/-- The output of the sumcheck prover. -/
structure ProverResult (F : Type) where
  proof : SumcheckProof F
  linearConstraints : LinearConstraints F
deriving DecidableEq

/-- A proof of the right size for the circuit. The zeroes are not
significant. -/
def emptyProof (circuit : Circuit F) : SumcheckProof F :=
  ⟨circuit.layers.map fun layer =>
    ⟨List.replicate layer.logw ⟨⟨0, 0⟩, ⟨0, 0⟩⟩, 0, 0⟩⟩

/-- Construct a padded proof of the transcript of the given evaluation of the
circuit, and the linear constraints that go with it. -/
def prove (circuit : Circuit F) (evaluation : Evaluation F)
    (transcript : Transcript) (witness : Witness F) :
    Exec (ProverResult F × Transcript) := do
  let outputs ← evaluation.outputs
  assert (∀ output ∈ outputs, output = 0) "assertion `left == right` failed"
  let inputs ← evaluation.inputs
  ensure (inputs.length = circuit.numInputs) "wrong number of inputs"
  let wires := evaluation.wires.map fun layer => (⟨layer, layer⟩ : Hands _)
  let ((linearConstraints, proof), transcript) ← runProtocol circuit transcript
    (.prover evaluation witness (emptyProof circuit) wires)
  match proof with
  | some proof => pure (⟨proof, linearConstraints⟩, transcript)
  | none => fail "prover mode failed to compute proof"

/-- Construct linear constraints from the provided proof of execution for the
circuit and public inputs. -/
def linearConstraints (circuit : Circuit F) (publicInputs : List F)
    (transcript : Transcript) (proof : SumcheckProof F) :
    Exec (LinearConstraints F × Transcript) := do
  let ((constraints, proof), transcript) ← runProtocol circuit transcript
    (.verifier publicInputs proof)
  assert (proof.isNone) "no proof should be computed in verifier role"
  pure (constraints, transcript)

end Protocol

end Longfellow.Sumcheck
