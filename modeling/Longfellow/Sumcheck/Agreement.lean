/-
The prover fills in the proof with the messages it sends, so the verifier that
reads the proof runs the same script.
-/
import Longfellow.Sumcheck.Verifier
import Longfellow.Sumcheck.Bounds
import Longfellow.Sample

namespace Longfellow.Sumcheck

open Exec Multilinear SparseSumcheckArray Circuit

section Fill

variable {F : Type}

theorem messages_set (proofLayer : ProofLayer F) {k : Nat}
    (hk : k / 2 < proofLayer.polynomials.length)
    (message : Sumcheck.Polynomial F) :
    ProofLayer.messages { proofLayer with
      polynomials := proofLayer.polynomials.set (k / 2)
        (proofLayer.polynomials[k / 2].set (handAt k) message) } =
      proofLayer.messages.set k message := by
  have hlength : k < proofLayer.messages.length := by
    rw [ProofLayer.length_messages]
    omega
  refine List.ext_getElem? fun j => ?_
  rw [ProofLayer.getElem?_messages]
  simp only
  rcases eq_or_ne k j with rfl | hne
  · rw [List.getElem?_set_self hk, List.getElem?_set_self hlength]
    cases handAt k <;> rfl
  · rw [List.getElem?_set_ne hne, ProofLayer.getElem?_messages]
    rcases eq_or_ne (k / 2) (j / 2) with heq | hhalf
    · have hhand : handAt j = (handAt k).opposite := by
        have hj := two_mul_add_handAt j
        have hk := two_mul_add_handAt k
        cases hhj : handAt j <;> cases hhk : handAt k <;>
          simp only [hhj, hhk, Hand.toNat, Hand.opposite] at hj hk ⊢ <;> omega
      rw [← heq, List.getElem?_set_self hk, List.getElem?_eq_getElem hk, hhand]
      cases handAt k <;> rfl
    · rw [List.getElem?_set_ne hhalf]

/-- What the prover has filled in: the layers before this one, and of this one
the messages so far. -/
structure Filled (circuit : Circuit F) (proofLayers : List (ProofLayer F))
    (messages : List (Sumcheck.Polynomial F)) (proof : SumcheckProof F) :
    Prop where
  shape : proof.HasShape circuit
  layers : proof.layers.take proofLayers.length = proofLayers
  messages : ∃ proofLayer, proof.layers[proofLayers.length]? = some proofLayer ∧
    proofLayer.messages.take messages.length = messages

variable {circuit : Circuit F} {proofLayers : List (ProofLayer F)}

theorem hasShape_set {proof : SumcheckProof F} (h : proof.HasShape circuit)
    {i : Nat} (hi : i < proof.layers.length) {proofLayer : ProofLayer F}
    (hlength : proofLayer.polynomials.length =
      proof.layers[i].polynomials.length) :
    SumcheckProof.HasShape ⟨proof.layers.set i proofLayer⟩ circuit := by
  refine ⟨by simpa using h.length_layers, fun j hj hj' => ?_⟩
  simp only [List.length_set] at hj'
  have hsame := h.length_polynomials j hj hj'
  rcases eq_or_ne i j with rfl | hne
  · simp only [List.getElem_set_self]
    rw [hlength, hsame]
  · simp only [List.getElem_set_ne hne]
    exact hsame

/-- The prover fills in the polynomial that it sends. -/
theorem setPolynomial_returns {messages : List (Sumcheck.Polynomial F)}
    {proof : SumcheckProof F} (h : Filled circuit proofLayers messages proof)
    (hi : proofLayers.length < circuit.layers.length)
    (hlt : messages.length < 2 * circuit.layers[proofLayers.length].logw)
    (message : Sumcheck.Polynomial F) :
    Returns
      (proof.setPolynomial proofLayers.length (messages.length / 2)
        (handAt messages.length) message)
      (Filled circuit proofLayers (messages ++ [message])) := by
  obtain ⟨proofLayer, hget, hfront⟩ := h.messages
  obtain ⟨hi', rfl⟩ := List.getElem?_eq_some_iff.mp hget
  have hlength := h.shape.length_polynomials _ hi hi'
  have hk : messages.length / 2 <
      proof.layers[proofLayers.length].polynomials.length := by
    rw [hlength]
    omega
  have hlt' : messages.length <
      proof.layers[proofLayers.length].messages.length := by
    rw [ProofLayer.length_messages, hlength]
    exact hlt
  rw [SumcheckProof.setPolynomial, index_of_lt hi', ok_bind, update_of_lt hk,
    ok_bind]
  refine Returns.of_eq rfl ⟨hasShape_set h.shape hi' (by simp), ?_, ?_⟩
  · simp only [List.take_set_of_le le_rfl]
    exact h.layers
  · refine ⟨_, List.getElem?_set_self hi', ?_⟩
    rw [messages_set _ hk, List.length_append, List.length_singleton,
      List.take_add_one, List.take_set_of_le le_rfl, hfront,
      List.getElem?_set_self hlt']
    rfl

/-- The prover fills in the wires of the layer. -/
theorem setWires_returns {messages : List (Sumcheck.Polynomial F)}
    {proof : SumcheckProof F} (h : Filled circuit proofLayers messages proof)
    (hi : proofLayers.length < circuit.layers.length)
    (hlength : messages.length = 2 * circuit.layers[proofLayers.length].logw)
    (vl vr : F) :
    Returns (proof.setWires proofLayers.length vl vr) fun proof =>
      proof.HasShape circuit ∧ ∃ proofLayer : ProofLayer F,
        proof.layers.take (proofLayers.length + 1) =
          proofLayers ++ [proofLayer] ∧
        proofLayer.messages = messages ∧ proofLayer.wires = ⟨vl, vr⟩ := by
  obtain ⟨proofLayer, hget, hfront⟩ := h.messages
  obtain ⟨hi', rfl⟩ := List.getElem?_eq_some_iff.mp hget
  have hall : proof.layers[proofLayers.length].messages = messages := by
    have hsame := h.shape.length_polynomials _ hi hi'
    rwa [hlength, ← hsame, ← ProofLayer.length_messages,
      List.take_length] at hfront
  rw [SumcheckProof.setWires, update_of_lt hi', ok_bind]
  refine Returns.of_eq rfl ⟨hasShape_set h.shape hi' rfl,
    { proof.layers[proofLayers.length] with vl, vr }, ?_, hall, rfl⟩
  · simp only
    rw [List.take_add_one, List.take_set_of_le le_rfl, h.layers,
      List.getElem?_set_self hi']
    rfl

end Fill

section Prover

variable {F : Type} [Field F] [DecidableEq F] [ProofFieldElement F]

/-- The padded polynomial that the prover computes in a round. -/
def proverPolynomial (witness : Witness F) (allWires : List (Hands (List F)))
    (quad : SparseSumcheckArray F) (layerIndex round : Nat) (hand : Hand) :
    Exec (Sumcheck.Polynomial F) := do
  let wires ← index allWires (layerIndex + 1)
  let wiresScratch ← quad.computeA hand wires
  let pad ← witness.polynomialWitnesses layerIndex round hand
  let p0 ← evaluatePolynomial wiresScratch (wires.get hand) .zero
  let p2 ← evaluatePolynomial wiresScratch (wires.get hand) .sumcheckP2
  pure ⟨p0 - pad.p0, p2 - pad.p2⟩

/-- The wires of the prover after a challenge. -/
def boundWires (allWires : List (Hands (List F))) (layerIndex : Nat)
    (hand : Hand) (challenge : F) : Exec (List (Hands (List F))) := do
  let wires ← index allWires (layerIndex + 1)
  let bound ← bind (wires.get hand) (.other challenge)
  pure (allWires.set (layerIndex + 1) (wires.set hand bound))

/-- The padded wires that the prover computes at the end of a layer. -/
def proverWires (witness : Witness F) (allWires : List (Hands (List F)))
    (layerIndex : Nat) : Exec (Hands F) := do
  let wires ← index allWires (layerIndex + 1)
  assert (∀ pair ∈ (wires.left.zip wires.right).drop 1,
    pair.1 = 0 ∧ pair.2 = 0) "assertion `left == right` failed"
  let (vlPad, vrPad, _) ← witness.wireWitnesses layerIndex
  pure ⟨element wires.left 0 - vlPad, element wires.right 0 - vrPad⟩

omit [DecidableEq F] in
theorem roundPolynomial_prover (evaluation : Evaluation F)
    (witness : Witness F) (proof : SumcheckProof F)
    (allWires : List (Hands (List F))) (quad : SparseSumcheckArray F)
    (layerIndex round : Nat) (hand : Hand) :
    roundPolynomial (.prover evaluation witness proof allWires) quad layerIndex
        round hand =
      (proverPolynomial witness allWires quad layerIndex round hand >>=
        fun polynomial => proof.setPolynomial layerIndex round hand polynomial >>=
          fun proof => .ok (polynomial,
            .prover evaluation witness proof allWires)) := by
  simp only [roundPolynomial, proverPolynomial, bind_assoc, pure_bind]
  rfl

omit [DecidableEq F] in
theorem bindWires_prover (evaluation : Evaluation F) (witness : Witness F)
    (proof : SumcheckProof F) (allWires : List (Hands (List F)))
    (layerIndex : Nat) (hand : Hand) (challenge : F) :
    bindWires (.prover evaluation witness proof allWires) layerIndex hand
        challenge =
      (boundWires allWires layerIndex hand challenge >>= fun allWires =>
        .ok (.prover evaluation witness proof allWires)) := by
  simp only [bindWires, boundWires, bind_assoc, pure_bind]
  rfl

omit [ProofFieldElement F] in
theorem layerWires_prover (evaluation : Evaluation F) (witness : Witness F)
    (proof : SumcheckProof F) (allWires : List (Hands (List F)))
    (layerIndex : Nat) :
    layerWires (.prover evaluation witness proof allWires) layerIndex =
      (proverWires witness allWires layerIndex >>= fun wires =>
        proof.setWires layerIndex wires.left wires.right >>= fun proof =>
          .ok (wires, .prover evaluation witness proof allWires)) := by
  simp only [layerWires, proverWires, bind_assoc, pure_bind]
  rfl

variable [Primitives] [SamplesField F]

/-- The prover has run the script of these layers, and has filled them in. -/
def ProverKeeps (circuit : Circuit F) (evaluation : Evaluation F)
    (witness : Witness F)
    (keeps : List (ProofLayer F) → List (Hands (List F)) → Prop)
    (proofLayers : List (ProofLayer F)) (role : ProtocolRole F) : Prop :=
  ∃ proof allWires, role = .prover evaluation witness proof allWires ∧
    proof.HasShape circuit ∧
    proof.layers.take proofLayers.length = proofLayers ∧
    keeps proofLayers allWires

/-- The rounds of the next layer start from the script of the layers before. -/
def layerStart (circuit : Circuit F) (transcript : Transcript)
    (proofLayers : List (ProofLayer F))
    (hi : proofLayers.length < circuit.layers.length) : RoundStart F :=
  roundStart circuit (witnessLayout circuit)
    (scriptLayers circuit (witnessLayout circuit)
      (startScript circuit transcript) proofLayers)
    circuit.layers[proofLayers.length] proofLayers.length

/-- A layer of the prover: it runs the script of the messages and the wires
that it fills in. -/
theorem prover_runLayer_holds (J : Judgement) {circuit : Circuit F}
    (hshaped : circuit.Shaped)
    (hlogw : ∀ layer ∈ circuit.layers, layer.logw < 64)
    (transcript : Transcript) {evaluation : Evaluation F} {witness : Witness F}
    {keeps : List (ProofLayer F) → List (Hands (List F)) → Prop}
    {proofLayers : List (ProofLayer F)} {role : ProtocolRole F}
    (hkeeps : ProverKeeps circuit evaluation witness keeps proofLayers role)
    (hfits : Fits circuit proofLayers)
    (hi : proofLayers.length < circuit.layers.length)
    (inner : List (Sumcheck.Polynomial F) → List (Hands (List F)) → Prop)
    (hstart : ∀ allWires, keeps proofLayers allWires → inner [] allWires)
    (hround : ∀ messages allWires,
      messages.length < 2 * circuit.layers[proofLayers.length].logw →
      inner messages allWires →
      J.holds
        (proverPolynomial witness allWires
          ⟨boundAll .left ((layerStart circuit transcript proofLayers
            hi).challenges messages)
            (layerStart circuit transcript proofLayers hi).elements⟩
          proofLayers.length (messages.length / 2) (handAt messages.length))
        fun message => J.holds
          (boundWires allWires proofLayers.length (handAt messages.length)
            ((layerStart circuit transcript proofLayers hi).nextChallenge
              messages message))
          (inner (messages ++ [message])))
    (hend : ∀ messages allWires,
      messages.length = 2 * circuit.layers[proofLayers.length].logw →
      inner messages allWires →
      J.holds (proverWires witness allWires proofLayers.length) fun wires =>
        ∀ proofLayer : ProofLayer F, proofLayer.messages = messages →
          proofLayer.wires = wires →
          keeps (proofLayers ++ [proofLayer]) allWires) :
    J.holds
      (runLayer circuit (witnessLayout circuit)
        ((scriptLayers circuit (witnessLayout circuit)
          (startScript circuit transcript) proofLayers).state role)
        (circuit.layers[proofLayers.length], proofLayers.length))
      fun state => ∃ proofLayer role',
        state = (scriptLayer circuit (witnessLayout circuit)
          (scriptLayers circuit (witnessLayout circuit)
            (startScript circuit transcript) proofLayers)
          circuit.layers[proofLayers.length] proofLayers.length
          proofLayer.messages proofLayer.wires).state role' ∧
        ProverKeeps circuit evaluation witness keeps
          (proofLayers ++ [proofLayer]) role' := by
  obtain ⟨proof, allWires, rfl, hshape, hlayers, hwires⟩ := hkeeps
  have hi' : proofLayers.length < proof.layers.length := by
    rw [hshape.length_layers]
    exact hi
  have hfilled : Filled circuit proofLayers [] proof :=
    ⟨hshape, hlayers, _, List.getElem?_eq_getElem hi', by simp⟩
  have hrun := runLayer_holds J (witnessLayout circuit) hi
    (hshaped.layer_shape _ hi) (hlogw _ (List.getElem_mem hi)) rfl
    (scriptLayers_binds hshaped hlogw (witnessLayout circuit) transcript hfits)
    (.prover evaluation witness proof allWires)
    (fun messages role => ∃ proof allWires,
      role = .prover evaluation witness proof allWires ∧
      Filled circuit proofLayers messages proof ∧ inner messages allWires)
    (fun messages wires role => ∃ proofLayer : ProofLayer F,
      proofLayer.messages = messages ∧ proofLayer.wires = wires ∧
      ProverKeeps circuit evaluation witness keeps
        (proofLayers ++ [proofLayer]) role)
    ⟨proof, allWires, rfl, hfilled, hstart allWires hwires⟩ ?_ ?_
  · refine J.mono hrun fun state h => ?_
    obtain ⟨messages, wires, role, -, ⟨proofLayer, rfl, rfl, hnext⟩, rfl⟩ := h
    exact ⟨proofLayer, role, rfl, hnext⟩
  · rintro messages role hlt ⟨proof, allWires, rfl, hfilled, hinner⟩
    rw [roundPolynomial_prover]
    refine J.bind (hround messages allWires hlt hinner) fun message hbound => ?_
    obtain ⟨proof, hset, hnext⟩ := setPolynomial_returns hfilled hi hlt message
    rw [hset, ok_bind]
    refine J.ok ?_
    rw [bindWires_prover]
    exact J.bind hbound fun allWires hinner =>
      J.ok ⟨proof, allWires, rfl, hnext, hinner⟩
  · rintro messages role hlength ⟨proof, allWires, rfl, hfilled, hinner⟩
    rw [layerWires_prover]
    refine J.bind (hend messages allWires hlength hinner) fun wires hkeeps => ?_
    obtain ⟨proof, hset, hshape, proofLayer, hlayers, hmessages, hwires⟩ :=
      setWires_returns hfilled hi hlength wires.left wires.right
    rw [hset, ok_bind]
    refine J.ok ⟨proofLayer, hmessages, hwires, proof, allWires, rfl, hshape, ?_,
      hkeeps proofLayer hmessages hwires⟩
    rw [List.length_append, List.length_singleton]
    exact hlayers

omit [Field F] [DecidableEq F] [ProofFieldElement F] [Primitives]
  [SamplesField F] in
theorem ProverKeeps.fits {circuit : Circuit F} {evaluation : Evaluation F}
    {witness : Witness F}
    {keeps : List (ProofLayer F) → List (Hands (List F)) → Prop}
    {proofLayers : List (ProofLayer F)} {role : ProtocolRole F}
    (h : ProverKeeps circuit evaluation witness keeps proofLayers role) :
    Fits circuit proofLayers := by
  obtain ⟨proof, -, -, hshape, hlayers, -⟩ := h
  have hfits := hshape.fits proofLayers.length
  rwa [hlayers] at hfits

omit [DecidableEq F] [ProofFieldElement F] [Primitives] [SamplesField F] in
theorem emptyProof_hasShape (circuit : Circuit F) :
    (emptyProof circuit).HasShape circuit := by
  refine ⟨by simp [emptyProof], fun i hi hi' => ?_⟩
  simp [emptyProof]

omit [Primitives] in
theorem publicInputs_length {F : Type} {evaluation : Evaluation F} {n : Nat}
    {publicInputs : List F}
    (h : evaluation.publicInputs n = .ok publicInputs) :
    publicInputs.length = n := by
  obtain ⟨inputs, -, hrest⟩ := Exec.bind_eq_ok.mp h
  obtain ⟨u, hle, htake⟩ := Exec.bind_eq_ok.mp hrest
  have hle := assert_eq_ok.mp hle
  cases htake
  simpa using hle

/-- The prover's result is the script of the proof that it returns. -/
theorem prover_runProtocol_holds (J : Judgement) {circuit : Circuit F}
    (hshaped : circuit.Shaped)
    (hlogw : ∀ layer ∈ circuit.layers, layer.logw < 64)
    {transcript : Transcript} {evaluation : Evaluation F} {witness : Witness F}
    (hlayout : witness.layout = witnessLayout circuit)
    {publicInputs : List F} (hpublic : evaluation.publicInputs
      circuit.numPublicInputs = .ok publicInputs)
    {allWires : List (Hands (List F))}
    (keeps : List (ProofLayer F) → List (Hands (List F)) → Prop)
    (hstart : keeps [] allWires)
    (hlayer : ∀ proofLayers role
      (hi : proofLayers.length < circuit.layers.length),
      ProverKeeps circuit evaluation witness keeps proofLayers role →
      J.holds
        (runLayer circuit (witnessLayout circuit)
          ((scriptLayers circuit (witnessLayout circuit)
            (startScript circuit transcript) proofLayers).state role)
          (circuit.layers[proofLayers.length], proofLayers.length))
        fun state => ∃ proofLayer role',
          state = (scriptLayer circuit (witnessLayout circuit)
            (scriptLayers circuit (witnessLayout circuit)
              (startScript circuit transcript) proofLayers)
            circuit.layers[proofLayers.length] proofLayers.length
            proofLayer.messages proofLayer.wires).state role' ∧
          ProverKeeps circuit evaluation witness keeps
            (proofLayers ++ [proofLayer]) role') :
    J.holds
      (runProtocol circuit transcript
        (.prover evaluation witness (emptyProof circuit) allWires))
      fun result => ∃ proof allWires, result.1.2 = some proof ∧
        proof.HasShape circuit ∧ keeps proof.layers allWires ∧
        (result.1.1, result.2) =
          finishScript circuit (witnessLayout circuit) publicInputs
            (scriptLayers circuit (witnessLayout circuit)
              (startScript circuit transcript) proof.layers) := by
  have hlength := publicInputs_length hpublic
  have hrole : roleInputs circuit
      (.prover evaluation witness (emptyProof circuit) allWires) =
      .ok (publicInputs, witnessLayout circuit) := by
    simp [roleInputs, hpublic, hlayout]
  have hlayers := runLayers_holds J circuit (witnessLayout circuit)
    (startScript circuit transcript)
    (.prover evaluation witness (emptyProof circuit) allWires)
    (ProverKeeps circuit evaluation witness keeps)
    ⟨_, allWires, rfl, emptyProof_hasShape circuit, rfl, hstart⟩
    fun proofLayers role hi hkeeps => hlayer proofLayers role hi hkeeps
  have hrun := runProtocol_holds J hshaped hlogw hrole hlength
    (fun proofLayers role h => h.fits) hlayers
  refine J.mono hrun fun result h => ?_
  obtain ⟨proofLayers, role, hall, hkeeps, rfl⟩ := h
  obtain ⟨proof, allWires, rfl, hshape, hfront, hkeeps⟩ := hkeeps
  rw [hall, ← hshape.length_layers, List.take_length] at hfront
  subst hfront
  exact ⟨proof, allWires, rfl, hshape, hkeeps, rfl⟩

/-- Whenever the prover returns, the verifier that reads the proof from an
equal transcript returns equal constraints and ends in an equal transcript. -/
theorem linearConstraints_of_prove {circuit : Circuit F}
    (hshaped : circuit.Shaped) {evaluation : Evaluation F}
    {witness : Witness F} (hlayout : witness.layout = witnessLayout circuit)
    {publicInputs : List F} (hpublic : evaluation.publicInputs
      circuit.numPublicInputs = .ok publicInputs) (transcript : Transcript) :
    Ensures (prove circuit evaluation transcript witness) fun result =>
      linearConstraints circuit publicInputs transcript result.1.proof =
        .ok (result.1.linearConstraints, result.2) := by
  intro result hresult
  rw [prove] at hresult
  obtain ⟨outputs, -, hresult⟩ := Exec.bind_eq_ok.mp hresult
  obtain ⟨-, -, hresult⟩ := Exec.bind_eq_ok.mp hresult
  obtain ⟨inputs, -, hresult⟩ := Exec.bind_eq_ok.mp hresult
  obtain ⟨-, -, hresult⟩ := Exec.bind_eq_ok.mp hresult
  obtain ⟨run, hrun, hresult⟩ := Exec.bind_eq_ok.mp hresult
  have hlogw := runProtocol_ensures circuit transcript _ run hrun
  have hscript := prover_runProtocol_holds .ensures hshaped hlogw hlayout hpublic
    (fun _ _ => True) trivial (fun proofLayers role hi hkeeps =>
      prover_runLayer_holds .ensures hshaped hlogw transcript hkeeps
        hkeeps.fits hi (fun _ _ => True) (fun _ _ => trivial)
        (fun _ _ _ _ _ _ _ _ => trivial)
        (fun _ _ _ _ _ _ _ _ _ => trivial)) run hrun
  obtain ⟨proof, -, hproof, hshape, -, hfinish⟩ := hscript
  obtain ⟨⟨constraints, filled⟩, transcript'⟩ := run
  simp only at hproof hfinish
  subst hproof
  cases hresult
  have hlength := publicInputs_length hpublic
  rw [linearConstraints_eq_ok hshaped hlogw hlength transcript hshape]
  exact congrArg Except.ok hfinish.symm

/-- The verifier of a proof that the prover has returned makes the prover's
constraints, term by term, and ends in the prover's transcript. -/
theorem prove_ensures_linearConstraints {circuit : Circuit F}
    (hwf : circuit.WellFormed) {evaluation : Evaluation F}
    {witness : Witness F}
    (hlayout : WitnessLayout.fromCircuit circuit = .ok witness.layout)
    {publicInputs : List F} (hpublic : evaluation.publicInputs
      circuit.numPublicInputs = .ok publicInputs) (transcript : Transcript) :
    Ensures (prove circuit evaluation transcript witness)
      fun (result, transcript') =>
        linearConstraints circuit publicInputs transcript result.proof =
          .ok (result.linearConstraints, transcript') := by
  rw [fromCircuit_eq_ok hwf.numPublicInputs_le, Except.ok.injEq] at hlayout
  exact linearConstraints_of_prove hwf.shaped hlayout.symm hpublic transcript

end Prover

section Sample

open scoped Silent

/-- The test circuit at `x = 2`, with pads that are all one. -/
theorem prove_ensures_linearConstraints_sample :
    let witness := (Witness.fillWitness (fun s => ((1 : FieldP128), s))
      ⟨1, [2, 2, 1]⟩ [2] ()).1
    Ensures (prove makeAssertionTestCircuit assertionPassEvaluation
        (Transcript.new [] .normal) witness)
      fun (result, transcript') =>
        linearConstraints makeAssertionTestCircuit [1] (Transcript.new [] .normal)
          result.proof = .ok (result.linearConstraints, transcript') := by
  intro witness
  have hlayout : WitnessLayout.fromCircuit makeAssertionTestCircuit =
      .ok witness.layout := rfl
  have hpublic : assertionPassEvaluation.publicInputs
      makeAssertionTestCircuit.numPublicInputs = .ok [1] := rfl
  exact prove_ensures_linearConstraints makeAssertionTestCircuit_wellFormed
    hlayout hpublic (Transcript.new [] .normal)

end Sample

end Longfellow.Sumcheck
