/-
The verifier's run of the protocol is the script of the proof that it reads.
-/
import Longfellow.Sumcheck.Run

namespace Longfellow.Sumcheck

open Exec Multilinear SparseSumcheckArray Circuit

variable {F : Type} [Field F] [DecidableEq F] [ProofFieldElement F]
  [Primitives] [SamplesField F]

/-- A proof has the shape of a circuit: one layer for each layer, and in it a
pair of polynomials for each bit of a wire. -/
structure SumcheckProof.HasShape {F : Type} (proof : SumcheckProof F)
    (circuit : Circuit F) : Prop where
  length_layers : proof.layers.length = circuit.layers.length
  length_polynomials : ∀ i (hi : i < circuit.layers.length)
    (hi' : i < proof.layers.length),
    proof.layers[i].polynomials.length = circuit.layers[i].logw

omit [Field F] [DecidableEq F] [ProofFieldElement F] [Primitives]
  [SamplesField F] in
theorem SumcheckProof.HasShape.fits {proof : SumcheckProof F}
    {circuit : Circuit F} (h : proof.HasShape circuit) (i : Nat) :
    Fits circuit (proof.layers.take i) := by
  refine ⟨?_, fun j hj hj' => ?_⟩
  · rw [List.length_take, h.length_layers]
    omega
  · have hlt : j < proof.layers.length := by
      rw [List.length_take] at hj'
      omega
    rw [List.getElem_take, ProofLayer.length_messages,
      h.length_polynomials j hj hlt]

/-- The verifier reads the messages of a layer in order. -/
theorem verifier_runLayer_returns {circuit : Circuit F}
    (hshaped : circuit.Shaped)
    (hlogw : ∀ layer ∈ circuit.layers, layer.logw < 64)
    (publicInputs : List F) (transcript : Transcript)
    {proof : SumcheckProof F} (hproof : proof.HasShape circuit) {i : Nat}
    (hi : i < circuit.layers.length) (hi' : i < proof.layers.length) :
    Returns
      (runLayer circuit (witnessLayout circuit)
        ((scriptLayers circuit (witnessLayout circuit)
          (startScript circuit transcript) (proof.layers.take i)).state
            (.verifier publicInputs proof))
        (circuit.layers[i], i))
      fun state => state = (scriptLayer circuit (witnessLayout circuit)
        (scriptLayers circuit (witnessLayout circuit)
          (startScript circuit transcript) (proof.layers.take i))
        circuit.layers[i] i proof.layers[i].messages
        proof.layers[i].wires).state (.verifier publicInputs proof) := by
  have hlength : proof.layers[i].messages.length =
      2 * circuit.layers[i].logw := by
    rw [ProofLayer.length_messages, hproof.length_polynomials i hi hi']
  have hbinds := scriptLayers_binds hshaped hlogw (witnessLayout circuit)
    transcript (hproof.fits i)
  rw [List.length_take, Nat.min_eq_left hi'.le] at hbinds
  have hrun := runLayer_holds .returns (witnessLayout circuit) hi
    (hshaped.layer_shape i hi) (hlogw _ (List.getElem_mem hi)) rfl hbinds
    (.verifier publicInputs proof)
    (fun messages role => role = .verifier publicInputs proof ∧
      messages = proof.layers[i].messages.take messages.length)
    (fun messages wires role => role = .verifier publicInputs proof ∧
      messages = proof.layers[i].messages ∧ wires = proof.layers[i].wires)
    ⟨rfl, by simp⟩ ?_ ?_
  · refine hrun.mono fun state h => ?_
    obtain ⟨messages, wires, role, -, ⟨rfl, rfl, rfl⟩, rfl⟩ := h
    rfl
  · intro messages role hlt hkeeps
    obtain ⟨rfl, hmessages⟩ := hkeeps
    have hk : messages.length < proof.layers[i].messages.length := by
      rw [hlength]
      exact hlt
    refine Returns.of_eq (a := (proof.layers[i].messages[messages.length],
      .verifier publicInputs proof)) ?_ (Returns.of_eq rfl ⟨rfl, ?_⟩)
    · have hget := ProofLayer.getElem?_messages proof.layers[i] messages.length
      rw [List.getElem?_eq_getElem hk] at hget
      obtain ⟨pair, hpair, hmessage⟩ := Option.map_eq_some_iff.mp hget.symm
      simp only [roundPolynomial, SumcheckProof.polynomial]
      rw [index_of_lt hi', ok_bind, index_eq_ok.mpr hpair, ok_bind, hmessage]
      rfl
    · rw [List.length_append, List.length_singleton,
        List.take_add_one, List.getElem?_eq_getElem hk, ← hmessages]
      rfl
  · intro messages role hall hkeeps
    obtain ⟨rfl, hmessages⟩ := hkeeps
    rw [hall, ← hlength, List.take_length] at hmessages
    refine Returns.of_eq (a := (proof.layers[i].wires,
      .verifier publicInputs proof)) ?_ ⟨rfl, hmessages, rfl⟩
    simp only [layerWires]
    rw [index_of_lt hi', ok_bind]
    rfl

/-- The verifier returns the constraints of the script of the proof. -/
theorem linearConstraints_eq_ok {circuit : Circuit F}
    (hshaped : circuit.Shaped)
    (hlogw : ∀ layer ∈ circuit.layers, layer.logw < 64)
    {publicInputs : List F}
    (hpublic : publicInputs.length = circuit.numPublicInputs)
    (transcript : Transcript) {proof : SumcheckProof F}
    (hproof : proof.HasShape circuit) :
    linearConstraints circuit publicInputs transcript proof =
      .ok (finishScript circuit (witnessLayout circuit) publicInputs
        (scriptLayers circuit (witnessLayout circuit)
          (startScript circuit transcript) proof.layers)) := by
  have hrole : roleInputs circuit (.verifier publicInputs proof) =
      .ok (publicInputs, witnessLayout circuit) := by
    simp [roleInputs, hpublic, fromCircuit_eq_ok hshaped.numPublicInputs_le]
  have hlayers := runLayers_holds .returns circuit (witnessLayout circuit)
    (startScript circuit transcript) (.verifier publicInputs proof)
    (fun proofLayers role => role = .verifier publicInputs proof ∧
      proofLayers = proof.layers.take proofLayers.length)
    ⟨rfl, by simp⟩ ?_
  · have hrun := runProtocol_holds .returns hshaped hlogw hrole hpublic
      (fun proofLayers role h => by
        rw [h.2]
        exact hproof.fits _)
      hlayers
    obtain ⟨result, hresult, proofLayers, role, hlength, ⟨rfl, hfront⟩, rfl⟩ :=
      hrun
    rw [hlength, ← hproof.length_layers, List.take_length] at hfront
    rw [linearConstraints, hresult, ok_bind, hfront]
    rfl
  · intro proofLayers role hlt hkeeps
    obtain ⟨rfl, hfront⟩ := hkeeps
    have hi' : proofLayers.length < proof.layers.length := by
      rw [hproof.length_layers]
      exact hlt
    have hrun := verifier_runLayer_returns hshaped hlogw publicInputs
      transcript hproof hlt hi'
    rw [← hfront] at hrun
    refine hrun.mono fun state h => ?_
    refine ⟨proof.layers[proofLayers.length], _, h, rfl, ?_⟩
    rw [List.length_append, List.length_singleton, List.take_add_one,
      List.getElem?_eq_getElem hi', ← hfront]
    rfl

end Longfellow.Sumcheck
