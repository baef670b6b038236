/-
The number of binding rounds: the prover folds the wires of a layer once a
round, and asserts that there is something left to fold.
-/
import Longfellow.Invariants
import Longfellow.Sumcheck.Completeness

namespace Longfellow.Sumcheck

open Exec Multilinear SparseSumcheckArray Circuit

/-- What a run ensures that can panic with one message. -/
def orPanics (message : String) : Judgement where
  holds m P := m = .error (.panic message) ∨ Returns m P
  ok ha := .inr (Returns.of_eq rfl ha)
  bind h hf := by
    rcases h with rfl | ⟨a, rfl, ha⟩
    · exact .inl rfl
    · exact hf a ha

/-- What the prover says when it folds a single wire. -/
def foldMessage : String :=
  "binding over a vector that's already reduced to a single element"

section Fold

variable {F : Type} [Field F] [ProofFieldElement F] [LawfulProofField F]

variable {elements : List (SparseQuadElement F)} {m : Nat}
  {wires : Nat → F} {challenges : List F} {hands : Hands (List F)}

omit [LawfulProofField F] in
/-- Once the wires are folded to single ones, the next round polynomial
panics. -/
theorem proverPolynomial_panics
    (h : Folded elements m wires challenges hands)
    (hdone : challenges.length = 2 * m) {witness : Witness F}
    {allWires : List (Hands (List F))} {i : Nat}
    (hget : allWires[i + 1]? = some hands) {pad : Sumcheck.Polynomial F}
    (hpad : witness.polynomialWitnesses i (challenges.length / 2)
      (handAt challenges.length) = .ok pad) :
    proverPolynomial witness allWires ⟨boundAll .left challenges elements⟩ i
        (challenges.length / 2) (handAt challenges.length) =
      .error (.panic foldMessage) := by
  set hand := handAt challenges.length with hhand
  have hleft : hand = .left := by
    rw [hhand, handAt, if_pos (by omega)]
  have hspans := h.spans_left
  have hnone : m - (challenges.length + 1) / 2 = 0 := by omega
  rw [hnone] at hspans
  have hrange : ∀ e ∈ (⟨boundAll .left challenges elements⟩ :
      SparseSumcheckArray F).contents,
      e.handWire hand < (hands.get hand).length ∧
      e.handWire hand.opposite < (hands.get hand.opposite).length :=
    fun e he => ⟨h.wire_lt e he hand, h.wire_lt e he hand.opposite⟩
  obtain ⟨table, hcompute, hlength, -⟩ := computeA_returns hrange
  have hone : ¬ 1 < table.length := by
    rw [hlength, hleft, show hands.get .left = hands.left from rfl,
      hspans.zero]
    exact Nat.lt_irrefl 1
  have hiter (wires : List F) (binding : Binding F) :
      evaluatePolynomial table wires binding =
        .error (.panic foldMessage) := by
    rw [evaluatePolynomial, bindIter, assert, if_neg hone]
    rfl
  rw [proverPolynomial, index_eq_ok.mpr hget, ok_bind, hcompute, ok_bind, hpad,
    ok_bind, hiter]
  rfl

end Fold

section Run

variable {F : Type} [Field F] [DecidableEq F] [ProofFieldElement F]
  [Primitives] [SamplesField F] [LawfulProofField F]

/-- A layer with more rounds than its wires can be folded panics in the round
after the last fold. -/
theorem wide_runLayer_holds {circuit : Circuit F}
    (hshaped : circuit.Shaped)
    (hshort : ∀ layer ∈ circuit.layers, layer.logw < 64)
    (transcript : Transcript) {evaluation : Evaluation F}
    (hsize : ∀ i (hi : i < circuit.layers.length), ∃ wires,
      evaluation.wires[i + 1]? = some wires ∧
      wires.length = circuit.layers[i].numWires)
    {witness : Witness F} (hlayout : witness.layout = witnessLayout circuit)
    (hlength : witness.values.length = witness.layout.length)
    {keeps : List (ProofLayer F) → List (Hands (List F)) → Prop}
    {proofLayers : List (ProofLayer F)} {role : ProtocolRole F}
    (hi : proofLayers.length < circuit.layers.length)
    (hwide : Nat.clog 2 circuit.layers[proofLayers.length].numWires <
      circuit.layers[proofLayers.length].logw)
    (hstart : ∀ allWires, keeps proofLayers allWires →
      allWires[proofLayers.length + 1]? =
        evaluation.wires[proofLayers.length + 1]?.map
          fun layer => ⟨layer, layer⟩)
    (hkeeps : ProverKeeps circuit evaluation witness keeps proofLayers role) :
    (orPanics foldMessage).holds
      (runLayer circuit (witnessLayout circuit)
        ((scriptLayers circuit (witnessLayout circuit)
          (startScript circuit transcript) proofLayers).state role)
        (circuit.layers[proofLayers.length], proofLayers.length))
      fun _ => False := by
  set i := proofLayers.length with hidef
  set layer := circuit.layers[i] with hlayer
  set start := layerStart circuit transcript proofLayers hi with hstartdef
  set m := Nat.clog 2 layer.numWires with hm
  obtain ⟨wires, hwires, hwireslength⟩ := hsize i hi
  have hi' : i < witness.layout.logw.length := by
    rw [hlayout]
    simpa [witnessLayout] using hi
  have hlogwi' : witness.layout.logw[i] = layer.logw := by
    simp [hlayout, witnessLayout, hlayer]
  -- the proof so far stays as long as it is: no layer is added to it
  have hkeeps' : ProverKeeps circuit evaluation witness
      (fun layers allWires => layers.length ≤ i ∧ allWires[i + 1]? =
        evaluation.wires[i + 1]?.map fun layer => ⟨layer, layer⟩)
      proofLayers role := by
    obtain ⟨proof, allWires, hrole, hshape, hfront, hwires⟩ := hkeeps
    exact ⟨proof, allWires, hrole, hshape, hfront, le_rfl,
      hstart allWires hwires⟩
  have hrun := prover_runLayer_holds (orPanics foldMessage) hshaped hshort
    transcript hkeeps' hkeeps'.fits hi
    (fun messages allWires => messages.length ≤ 2 * m ∧
      ∃ hands, allWires[i + 1]? = some hands ∧
        Folded start.elements m (element wires)
          (start.challenges messages) hands)
    ?_ ?_ ?_
  · refine (orPanics foldMessage).mono hrun fun state h => ?_
    obtain ⟨proofLayer, role', -, proof, allWires, -, -, -, hle, -⟩ := h
    rw [List.length_append, List.length_singleton] at hle
    exact Nat.not_succ_le_self i hle
  · rintro allWires ⟨-, hget⟩
    rw [hwires, Option.map_some] at hget
    exact ⟨Nat.zero_le _, _, hget,
      layerStart_folded hshaped transcript hi hwireslength⟩
  · rintro messages allWires hlt ⟨hle, hands, hget, hfolded⟩
    have hchallenges := start.length_challenges messages
    have hpad := polynomialWitnesses_eq_ok hlength hi'
      (by rw [hlogwi']; exact hlt)
    rw [← hchallenges] at hpad hle
    rcases Nat.lt_or_eq_of_le hle with hmore | hdone
    · have hmessage := proverPolynomial_returns hfolded hmore hget hpad
      have hbound (x : F) := boundWires_returns hfolded hmore x hget
      rw [hchallenges] at hmessage
      simp only [hchallenges] at hbound
      refine .inr (Returns.of_eq hmessage (.inr ?_))
      refine (hbound _).mono fun next hnext => ?_
      obtain ⟨hands', rfl, hfolded'⟩ := hnext
      rw [← start.challenges_concat] at hfolded'
      have hlong : i + 1 < allWires.length :=
        (List.getElem?_eq_some_iff.mp hget).choose
      refine ⟨?_, hands', List.getElem?_set_self hlong, hfolded'⟩
      rw [List.length_append, List.length_singleton]
      omega
    · have hpanic := proverPolynomial_panics hfolded hdone hget hpad
      rw [hchallenges] at hpanic
      exact .inl hpanic
  · rintro messages allWires hall ⟨hle, -⟩
    have hall : messages.length = 2 * layer.logw := hall
    omega

/-- The prover panics in the first layer that has more rounds than its wires
can be folded. -/
theorem prove_panics {circuit : Circuit F} (hwf : circuit.WellFormed)
    (hshort : ∀ layer ∈ circuit.layers, layer.logw < 64)
    (transcript : Transcript) {inputs : List F} {evaluation : Evaluation F}
    (heval : circuit.Evaluates inputs evaluation)
    (hinputs : inputs.length = circuit.numInputs)
    (hzero : ∀ output ∈ evaluation.wires.getD 0 [], output = 0)
    {witness : Witness F} (hlayout : witness.layout = witnessLayout circuit)
    (hlength : witness.values.length = witness.layout.length) {i : Nat}
    (hi : i < circuit.layers.length)
    (hwide : Nat.clog 2 circuit.layers[i].numWires < circuit.layers[i].logw)
    (hbefore : ∀ j (hj : j < circuit.layers.length), j < i →
      circuit.layers[j].logw = Nat.clog 2 circuit.layers[j].numWires) :
    prove circuit evaluation transcript witness =
      .error (.panic foldMessage) := by
  have hsize := evaluates_length hwf heval hinputs
  have hrun := prove_holds (orPanics foldMessage) hwf hshort transcript heval
    hinputs hzero hlayout
    (fun layers allWires => layers.length ≤ i ∧
      HonestKeeps circuit evaluation transcript (element witness.values)
        layers allWires)
    ⟨Nat.zero_le i, honestKeeps_nil circuit evaluation transcript _⟩ ?_
  · rcases hrun with hpanic | ⟨result, -, hshape, ⟨-, hle, -⟩, -⟩
    · exact hpanic
    · rw [hshape.length_layers] at hle
      omega
  · rintro proofLayers role hi' ⟨proof, allWires, rfl, hshape, hfront, hle,
      hkeeps⟩
    have hhonest : ProverKeeps circuit evaluation witness
        (HonestKeeps circuit evaluation transcript (element witness.values))
        proofLayers (.prover evaluation witness proof allWires) :=
      ⟨proof, allWires, rfl, hshape, hfront, hkeeps⟩
    rcases Nat.lt_or_eq_of_le hle with hlt | rfl
    · have hreturns := honest_runLayer_returns hwf.shaped hshort transcript
        hsize hlayout hlength hi' (hbefore _ hi' hlt) hhonest
      refine .inr (hreturns.mono fun state h => ?_)
      obtain ⟨proofLayer, role', hstate, proof', allWires', hrole, hshape',
        hfront', hkeeps'⟩ := h
      refine ⟨proofLayer, role', hstate, proof', allWires', hrole, hshape',
        hfront', ?_, hkeeps'⟩
      rw [List.length_append, List.length_singleton]
      exact hlt
    · have hpanics := wide_runLayer_holds hwf.shaped hshort transcript hsize
        hlayout hlength hi' hwide
        (fun allWires hkeeps => hkeeps.1 _ le_rfl) hhonest
      exact (orPanics foldMessage).mono hpanics fun _ h => h.elim

omit [LawfulProofField F] in
/-- The verifier completes on a circuit, given a proof of the right shape, as
long as no layer has too many bits for the table of equality weights. -/
theorem linearConstraints_completes_iff {circuit : Circuit F}
    (hshaped : circuit.Shaped) :
    (∃ publicInputs transcript, ∃ proof : SumcheckProof F, ∃ result,
      linearConstraints circuit publicInputs transcript proof = .ok result) ↔
    ∀ layer ∈ circuit.layers, layer.logw < 64 := by
  constructor
  · rintro ⟨publicInputs, transcript, proof, result, hresult⟩
    obtain ⟨run, hrun, -⟩ := Exec.bind_eq_ok.mp hresult
    exact runProtocol_ensures circuit transcript _ run hrun
  · intro hshort
    have hlength : (List.replicate circuit.numPublicInputs (0 : F)).length =
        circuit.numPublicInputs := List.length_replicate
    exact ⟨_, Transcript.new [] .normal, _, _, linearConstraints_eq_ok hshaped
      hshort hlength _ (emptyProof_hasShape circuit)⟩

end Run

section Sample

open scoped Silent

/-- A circuit with two input wires that two bits name, of which their product
is asserted to be zero. -/
def wideCircuit : Circuit FieldP128 where
  version := 1
  numOutputs := 1
  numCopies := 1
  numPublicInputs := 1
  subfieldBoundary := 2
  numInputs := 2
  numLayers := 1
  constantTable := [1]
  layers := [⟨2, 2, [⟨0, 0, 1, 0⟩]⟩]
  id := zeroDigest

end Sample

end Longfellow.Sumcheck
