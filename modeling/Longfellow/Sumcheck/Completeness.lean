/-
The constraints that an honest prover returns hold of the witness vector that
it has filled.
-/
import Longfellow.Sumcheck.Prover
import Longfellow.Sumcheck.Pads
import Longfellow.Sumcheck.Equivalence

namespace Longfellow.Sumcheck

open Exec Multilinear SparseSumcheckArray Circuit

section Draw

variable {F : Type} [Field F] [ProofFieldElement F] [Primitives]
  [SamplesField F]

omit [Field F] in
theorem drawLayers_append (layers rest : List (ProofLayer F))
    (transcript : Transcript) :
    (drawLayers (layers ++ rest) transcript).1 =
      (drawLayers layers transcript).1 ++
        (drawLayers rest (drawLayers layers transcript).2).1 := by
  induction layers generalizing transcript with
  | nil => rfl
  | cons p ps ih => simp [drawLayers, ih]

end Draw

section Masks

variable {F : Type} [Field F] [DecidableEq F] [ProofFieldElement F]
  [Primitives] [SamplesField F]

/-- The script of the first layers draws the challenges of the whole proof. -/
theorem scriptLayers_take {circuit : Circuit F} (transcript : Transcript)
    {proof : SumcheckProof F} (hshape : proof.HasShape circuit) {i : Nat}
    (hi : i < proof.layers.length) :
    let script := scriptLayers circuit (witnessLayout circuit)
      (startScript circuit transcript) (proof.layers.take i)
    script.bindings = (drawChallenges circuit transcript proof).bindings i ∧
    (drawChallenges circuit transcript proof).layers[i]? =
      some (drawLayer script.transcript proof.layers[i].messages).1 := by
  set outputs := (drawOutputs circuit transcript : List F × Transcript) with
    houtputs
  have hlength : (proof.layers.take i).length = i := by
    rw [List.length_take, Nat.min_eq_left hi.le]
  have hle : (proof.layers.take i).length ≤ circuit.layers.length := by
    rw [hlength, ← hshape.length_layers]
    exact hi.le
  have hsplit : proof.layers =
      proof.layers.take i ++ proof.layers[i] :: proof.layers.drop (i + 1) := by
    rw [← List.drop_eq_getElem_cons hi, List.take_append_drop]
  have hlayers : (drawLayers proof.layers outputs.2).1 =
      (drawLayers (proof.layers.take i) outputs.2).1 ++
        (drawLayers (proof.layers[i] :: proof.layers.drop (i + 1))
          (drawLayers (proof.layers.take i) outputs.2).2).1 := by
    rw [← drawLayers_append, ← hsplit]
  have hdrawn : (drawLayers (proof.layers.take i) outputs.2).1.length = i := by
    rw [length_drawLayers, hlength]
  obtain ⟨htranscript, hbindings, -⟩ := scriptLayers_eq circuit
    (witnessLayout circuit) transcript
    (drawChallenges circuit transcript proof).gamma hle
  have hchallenges : drawChallenges circuit transcript proof =
      ⟨outputs.1, (drawLayers proof.layers outputs.2).1,
        (drawChallenges circuit transcript proof).gamma⟩ := rfl
  constructor
  · have happend := Challenges.bindings_append outputs.1
      (drawLayers (proof.layers.take i) outputs.2).1
      (drawLayers (proof.layers[i] :: proof.layers.drop (i + 1))
        (drawLayers (proof.layers.take i) outputs.2).2).1
      (drawChallenges circuit transcript proof).gamma
    rw [hdrawn, ← hlayers] at happend
    rw [hchallenges, happend, hbindings, hlength]
  · rw [hchallenges, htranscript]
    simp only
    rw [hlayers, List.getElem?_append_right hdrawn.le, hdrawn, Nat.sub_self]
    rfl

/-- A proof that masks the honest one is it once the pads are added. -/
theorem Masks.unpad_eq {circuit : Circuit F} {evaluation : Evaluation F}
    {transcript : Transcript} {values : Nat → F} {proof : SumcheckProof F}
    (hshape : proof.HasShape circuit)
    (h : Masks circuit evaluation transcript values proof.layers) :
    unpad (witnessLayout circuit) values proof =
      honestProof circuit evaluation
        (drawChallenges circuit transcript proof) := by
  rw [unpad, honestProof, SumcheckProof.mk.injEq]
  refine List.ext_getElem (by simp [hshape.length_layers]) fun i hi hi' => ?_
  rw [List.length_mapIdx] at hi hi'
  rw [List.getElem_mapIdx, List.getElem_mapIdx]
  obtain ⟨hbindings, hchallenges⟩ :=
    scriptLayers_take transcript hshape hi
  rw [h i hi hi', ← hbindings, List.getD_eq_getElem?_getD (l :=
    (drawChallenges circuit transcript proof).layers), hchallenges]
  rfl

/-- The challenges that answer a proof of the shape of the circuit. -/
theorem drawChallenges_fits {circuit : Circuit F} (transcript : Transcript)
    {proof : SumcheckProof F} (hshape : proof.HasShape circuit) :
    (drawChallenges circuit transcript proof).Fits circuit := by
  intro i hi
  have hi' : i < proof.layers.length := by
    rw [hshape.length_layers]
    exact hi
  obtain ⟨-, hchallenges⟩ := scriptLayers_take transcript hshape hi'
  refine ⟨_, hchallenges, ?_⟩
  rw [drawLayer]
  simp only
  rw [Transcript.length_draw, ProofLayer.length_messages,
    hshape.length_polynomials i hi hi']

end Masks

section Completeness

variable {F : Type} [Field F] [DecidableEq F] [ProofFieldElement F]
  [Primitives] [SamplesField F] [LawfulProofField F]

/-- The constraints of a proof that masks the honest one hold of the witness
vector with its pads. -/
theorem Proves.satisfied {circuit : Circuit F} (hwf : circuit.WellFormed)
    (hlogw : ∀ layer ∈ circuit.layers, layer.logw ≤ 64)
    {transcript : Transcript} {inputs : List F} {evaluation : Evaluation F}
    (heval : circuit.Evaluates inputs evaluation)
    (hinputs : inputs.length = circuit.numInputs)
    (hzero : ∀ output ∈ evaluation.wires.getD 0 [], output = 0)
    {pads : List (List F)} {values : List F}
    (hpadded : Padded (witnessLayout circuit)
      (inputs.drop circuit.numPublicInputs) pads values)
    {result : ProverResult F × Transcript}
    (h : Proves circuit evaluation transcript (element values)
      (inputs.take circuit.numPublicInputs) result) :
    result.1.linearConstraints.Satisfied (element values) := by
  have hpublic : (inputs.take circuit.numPublicInputs).length =
      circuit.numPublicInputs := by
    rw [List.length_take, hinputs,
      Nat.min_eq_left hwf.numPublicInputs_le]
  have hprivate : privateInputs circuit (element values) =
      inputs.drop circuit.numPublicInputs := by
    refine List.ext_getElem ?_ fun i hi hi' => ?_
    · rw [hpadded.length_private]
      simp [privateInputs]
    · have hlt : i < (witnessLayout circuit).numPrivateInputs := by
        simpa [privateInputs] using hi
      have hvalue := hpadded.element_private hlt
      rw [element_of_lt hi'] at hvalue
      rw [← hvalue]
      simp [privateInputs]
  have hproduct : ∀ i < circuit.layers.length,
      element values ((witnessLayout circuit).wireStart i) *
          element values ((witnessLayout circuit).wireStart i + 1) =
        element values ((witnessLayout circuit).wireStart i + 2) := by
    intro i hi
    exact hpadded.element_product (by simpa [witnessLayout] using hi)
  have hconstraints : result.1.linearConstraints = (finishScript circuit
      (witnessLayout circuit) (inputs.take circuit.numPublicInputs)
      (scriptLayers circuit (witnessLayout circuit)
        (startScript circuit transcript) result.1.proof.layers)).1 :=
    congrArg Prod.fst h.finish
  rw [hconstraints, finishScript_satisfied_iff hwf.shaped hpublic transcript
    h.shape hproduct, hprivate, List.take_append_drop,
    h.masks.unpad_eq h.shape]
  exact honestProof_accepts hwf hlogw heval hzero
    (drawChallenges_fits transcript h.shape)

/-- The prover returns on every evaluation with zero outputs of as many inputs
as the circuit has, whatever the pads, and its constraints hold of the witness
vector that it has filled. -/
theorem prove_returns_satisfied {σ : Type} {circuit : Circuit F}
    (hwf : circuit.WellFormed)
    (hlogw : ∀ layer ∈ circuit.layers,
      layer.logw = Nat.clog 2 layer.numWires)
    (transcript : Transcript) {inputs outputs privateInputs : List F}
    (hinputs : inputs.length = circuit.numInputs)
    {evaluation : Evaluation F}
    (heval : circuit.evaluate inputs = .ok evaluation)
    (houtputs : evaluation.outputs = .ok outputs)
    (hzero : ∀ output ∈ outputs, output = 0)
    (hprivate : evaluation.privateInputs circuit.numPublicInputs =
      .ok privateInputs)
    {layout : WitnessLayout}
    (hlayout : WitnessLayout.fromCircuit circuit = .ok layout)
    (padGenerator : σ → F × σ) (s : σ) :
    let witness :=
      (Witness.fillWitness padGenerator layout privateInputs s).1
    Returns (prove circuit evaluation transcript witness) fun result =>
      result.1.linearConstraints.InRange witness.values.length ∧
        result.1.linearConstraints.Satisfied (element witness.values) := by
  intro witness
  have hshaped := hwf.shaped
  have hshort : ∀ layer ∈ circuit.layers, layer.logw < 64 :=
    fun _ hlayer => logw_lt_of_clog hshaped hlogw hlayer
  have hevaluates := evaluate_ensures hwf.numLayers_eq inputs evaluation heval
  have hle : circuit.numPublicInputs ≤ inputs.length := by
    rw [hinputs]
    exact hwf.numPublicInputs_le
  rw [hevaluates.outputs_eq_ok, Except.ok.injEq] at houtputs
  rw [hevaluates.privateInputs_eq_ok hle, Except.ok.injEq] at hprivate
  rw [fromCircuit_eq_ok hwf.numPublicInputs_le, Except.ok.injEq] at hlayout
  subst houtputs hprivate hlayout
  have hprivate : (inputs.drop circuit.numPublicInputs).length =
      (witnessLayout circuit).numPrivateInputs := by
    rw [List.length_drop, hinputs]
    rfl
  have hpadded := fillWitness_padded padGenerator hprivate s
  have hlength := hpadded.length_values
  refine (prove_returns hwf hlogw transcript hevaluates hinputs hzero rfl
    hlength).mono fun result hresult => ⟨?_, ?_⟩
  · have hconstraints := congrArg Prod.fst hresult.finish
    simp only at hconstraints
    rw [hconstraints, hlength]
    exact finishScript_inRange hshaped _ transcript hresult.shape
  · exact hresult.satisfied hwf (fun layer hlayer => (hshort layer hlayer).le)
      hevaluates hinputs hzero hpadded

end Completeness

section Sample

open scoped Silent

/-- The test circuit at `x = 2`, with pads that are all one. -/
theorem prove_returns_satisfied_sample :
    let witness := (Witness.fillWitness (fun s => ((1 : FieldP128), s))
      ⟨1, [2, 2, 1]⟩ [2] ()).1
    Returns (prove makeAssertionTestCircuit assertionPassEvaluation
        (Transcript.new [] .normal) witness) fun result =>
      result.1.linearConstraints.InRange witness.values.length ∧
        result.1.linearConstraints.Satisfied (element witness.values) := by
  intro witness
  have hinputs : [(1 : FieldP128), 2].length =
      makeAssertionTestCircuit.numInputs := rfl
  have heval : makeAssertionTestCircuit.evaluate [1, 2] =
      .ok assertionPassEvaluation := by decide
  have houtputs : assertionPassEvaluation.outputs = .ok [0, 0] := rfl
  have hzero : ∀ output ∈ [(0 : FieldP128), 0], output = 0 := by simp
  have hprivate : assertionPassEvaluation.privateInputs
      makeAssertionTestCircuit.numPublicInputs = .ok [2] := rfl
  have hlayout : WitnessLayout.fromCircuit makeAssertionTestCircuit =
      .ok ⟨1, [2, 2, 1]⟩ := rfl
  exact prove_returns_satisfied makeAssertionTestCircuit_wellFormed
    makeAssertionTestCircuit_logw (Transcript.new [] .normal) hinputs heval
    houtputs hzero hprivate hlayout (fun s => (1, s)) ()

/-- The evaluation takes an input more than the circuit has, and succeeds with
outputs that are zero. The prover hands an error back. -/
theorem prove_extra_input :
    makeAssertionTestCircuit.WellFormed ∧
    (∀ layer ∈ makeAssertionTestCircuit.layers,
      layer.logw = Nat.clog 2 layer.numWires) ∧
    ∃ evaluation : Evaluation FieldP128,
      makeAssertionTestCircuit.evaluate [1, 2, 0] = .ok evaluation ∧
      evaluation.outputs = .ok [0, 0] ∧
      evaluation.privateInputs makeAssertionTestCircuit.numPublicInputs =
        .ok [2, 0] ∧
      WitnessLayout.fromCircuit makeAssertionTestCircuit =
        .ok ⟨1, [2, 2, 1]⟩ ∧
      ∀ {σ : Type} (padGenerator : σ → FieldP128 × σ) (s : σ),
        prove makeAssertionTestCircuit evaluation (Transcript.new [] .normal)
            (Witness.fillWitness padGenerator ⟨1, [2, 2, 1]⟩ [2, 0] s).1 =
          .error (.error "wrong number of inputs") := by
  have heval : makeAssertionTestCircuit.evaluate [1, 2, 0] =
      .ok ⟨[[0, 0], [1, 0, 0, 0], [1, 0, 2, -2], [1, 2, 0]]⟩ := by
    decide
  refine ⟨makeAssertionTestCircuit_wellFormed, makeAssertionTestCircuit_logw,
    _, heval, rfl, rfl, rfl, fun padGenerator s => ?_⟩
  have houtputs : Evaluation.outputs
      ⟨[[(0 : FieldP128), 0], [1, 0, 0, 0], [1, 0, 2, -2], [1, 2, 0]]⟩ =
        .ok [0, 0] := rfl
  have hinputs : Evaluation.inputs
      ⟨[[(0 : FieldP128), 0], [1, 0, 0, 0], [1, 0, 2, -2], [1, 2, 0]]⟩ =
        .ok [1, 2, 0] := rfl
  have hzero : ∀ output ∈ [(0 : FieldP128), 0], output = 0 := by simp
  have hlength : ¬ [(1 : FieldP128), 2, 0].length =
      makeAssertionTestCircuit.numInputs := by decide
  rw [prove, houtputs, ok_bind, assert, if_pos hzero, pure_bind, hinputs, ok_bind,
    ensure, if_neg hlength]
  rfl

end Sample

end Longfellow.Sumcheck
