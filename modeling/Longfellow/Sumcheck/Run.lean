/-
The layers of the protocol run the script of their messages, whichever role
sends the messages.
-/
import Longfellow.Sumcheck.Script

namespace Longfellow.Sumcheck

open Exec Multilinear SparseSumcheckArray Circuit

namespace ProofLayer

variable {F : Type}

/-- The polynomials of a layer in the order in which they are sent. -/
def messages (proofLayer : ProofLayer F) : List (Sumcheck.Polynomial F) :=
  proofLayer.polynomials.flatMap fun pair => [pair.left, pair.right]

/-- The padded wires of a layer. -/
def wires (proofLayer : ProofLayer F) : Hands F :=
  ⟨proofLayer.vl, proofLayer.vr⟩

theorem length_messages (proofLayer : ProofLayer F) :
    proofLayer.messages.length = 2 * proofLayer.polynomials.length := by
  simp [messages, List.length_flatMap, Nat.mul_comm]

theorem getElem?_messages (proofLayer : ProofLayer F) (k : Nat) :
    proofLayer.messages[k]? =
      proofLayer.polynomials[k / 2]?.map fun pair => pair.get (handAt k) := by
  rw [messages]
  induction proofLayer.polynomials generalizing k with
  | nil => simp
  | cons pair pairs ih =>
      match k with
      | 0 => rfl
      | 1 => rfl
      | j + 2 =>
        have hhalf : (j + 2) / 2 = j / 2 + 1 := by omega
        rw [hhalf, handAt_succ, handAt_succ, Hand.opposite_opposite,
          List.getElem?_cons_succ, ← ih j]
        simp

end ProofLayer

theorem zip_concat {α β : Type} {xs : List α} {ys : List β}
    (h : ys.length < xs.length) (y : β) :
    xs.zip (ys ++ [y]) = xs.zip ys ++ [(xs[ys.length], y)] := by
  induction ys generalizing xs with
  | nil =>
      match xs with
      | x :: xs => simp
  | cons z zs ih =>
      match xs with
      | x :: xs =>
        have hlt : zs.length < xs.length := by simpa using h
        simp [ih hlt]

/-- The layout of the witness vector of a circuit. -/
def witnessLayout {F : Type} (circuit : Circuit F) : WitnessLayout :=
  ⟨circuit.numInputs - circuit.numPublicInputs,
    circuit.layers.map fun layer => layer.logw⟩

theorem fromCircuit_eq_ok {F : Type} {circuit : Circuit F}
    (h : circuit.numPublicInputs ≤ circuit.numInputs) :
    WitnessLayout.fromCircuit circuit = .ok (witnessLayout circuit) := by
  rw [WitnessLayout.fromCircuit, numPrivateInputs, checkedSub_of_le h]
  rfl

section Layers

variable {F : Type} [Field F] [DecidableEq F] [ProofFieldElement F]

/-- The value of the fully bound combined quad of a layer. -/
def boundQuad (circuit : Circuit F) (layer : CircuitLayer)
    (bindings : Hands (List F)) (alpha beta : F) (challenges : List F) : F :=
  ((circuit.combinedElements layer beta).map fun e =>
    e.coefficient * gateWeight bindings.left bindings.right alpha e.gateIndex *
      (eqWeight (deal .left challenges) e.leftWireIndex *
        eqWeight (deal .right challenges) e.rightWireIndex)).sum

/-- The elements of the bound quad of a layer. -/
def boundElements (circuit : Circuit F) (layer : CircuitLayer)
    (bindings : Hands (List F)) (alpha beta : F) : List (SparseQuadElement F) :=
  compact ((circuit.combinedElements layer beta).map
    (bindGate bindings.left bindings.right alpha))

omit [ProofFieldElement F] in
theorem aligned_boundElements {circuit : Circuit F} {i : Nat}
    {layer : CircuitLayer} (hshape : circuit.LayerShape i layer)
    (hlogw : layer.logw ≤ 64) (bindings : Hands (List F)) (alpha beta : F) :
    Aligned .left 128 layer.logw layer.logw
      (boundElements circuit layer bindings alpha beta) := by
  have hne : circuit.combinedElements layer beta ≠ [] := by
    simpa [combinedElements] using hshape.quads_ne_nil
  refine aligned_compact hlogw hne (fun e he => ?_) (hshape.sorted _) _ _ _
  obtain ⟨quad, hquad, rfl⟩ := List.mem_map.mp he
  exact ⟨(hshape.leftWire_lt quad hquad).trans_le hshape.numWires_le,
    (hshape.rightWire_lt quad hquad).trans_le hshape.numWires_le⟩

omit [ProofFieldElement F] in
/-- The rounds reduce the bound quad of a layer to its value. -/
theorem boundAll_boundElements {circuit : Circuit F} {i : Nat}
    {layer : CircuitLayer} (hshape : circuit.LayerShape i layer)
    (hlogw : layer.logw ≤ 64) (bindings : Hands (List F)) (alpha beta : F)
    {challenges : List F} (hlength : challenges.length = 2 * layer.logw) :
    boundAll .left challenges
        (boundElements circuit layer bindings alpha beta) =
      [⟨0, 0, 0, boundQuad circuit layer bindings alpha beta challenges⟩] := by
  obtain ⟨coefficient, hcoefficient⟩ := (aligned_end
    (aligned_boundElements hshape hlogw bindings alpha beta) hlogw
    hlength).single
  have hvalue : coefficient =
      boundQuad circuit layer bindings alpha beta challenges := by
    rw [← denote_single coefficient, ← hcoefficient, denote_boundAll,
      boundElements, denote_compact_bindGate, boundQuad]
    refine congrArg List.sum (List.map_congr_left fun e _ => ?_)
    rw [pullAll_atZero]
    rfl
  rw [hcoefficient, hvalue]

/-- What both roles know after a number of layers. -/
structure Script (F : Type) where
  transcript : Transcript
  bindings : Hands (List F)
  claims : Hands F
  constraints : LinearConstraints F

/-- The state of a role that has followed the script so far. -/
def Script.state (script : Script F) (role : ProtocolRole F) : LayerState F :=
  ⟨script.transcript, role, script.bindings, script.claims, script.constraints⟩

variable [Primitives] [SamplesField F]

/-- The challenges of a layer. -/
structure LayerChallenges (F : Type) where
  alpha : F
  beta : F
  rounds : List F

/-- Draw the challenges that answer the messages of a layer. -/
def drawLayer (transcript : Transcript)
    (messages : List (Sumcheck.Polynomial F)) :
    LayerChallenges F × Transcript :=
  let (alpha, transcript) := transcript.challenge F
  let (beta, transcript) := transcript.challenge F
  let (rounds, transcript) := Transcript.draw messages transcript
  (⟨alpha, beta, rounds⟩, transcript)

/-- The constraint of a layer, as the claim at its end. -/
def layerClaim (circuit : Circuit F) (layout : WitnessLayout)
    (script : Script F) (layer : CircuitLayer) (i : Nat)
    (messages : List (Sumcheck.Polynomial F)) (wires : Hands F) :
    SymbolicExpression F :=
  let challenges := (drawLayer script.transcript messages).1
  let coefficient := boundQuad circuit layer script.bindings challenges.alpha
    challenges.beta challenges.rounds
  let start := layout.wireStart i
  finishClaim
    (claimScript (polynomialBase layout i)
      (startClaim layout i script.claims challenges.alpha)
      (messages.zip challenges.rounds))
    coefficient wires start (start + 1) (start + 2)

/-- The script of a layer. -/
def scriptLayer (circuit : Circuit F) (layout : WitnessLayout)
    (script : Script F) (layer : CircuitLayer) (i : Nat)
    (messages : List (Sumcheck.Polynomial F)) (wires : Hands F) : Script F :=
  let (challenges, transcript) := drawLayer script.transcript messages
  let coefficient := boundQuad circuit layer script.bindings challenges.alpha
    challenges.beta challenges.rounds
  let claim := layerClaim circuit layout script layer i messages wires
  { transcript := transcript.writeFieldElementArray [wires.left, wires.right]
    bindings :=
      ⟨deal .left challenges.rounds, deal .right challenges.rounds⟩
    claims := wires
    constraints :=
      { lhsTerms := script.constraints.lhsTerms ++ claim.lhsTerms
        rhs := script.constraints.rhs ++
          [coefficient * wires.left * wires.right - claim.known] } }

/-- The bindings of a layer can bind the gates of the next one. -/
def Script.Binds (script : Script F) (circuit : Circuit F) (i : Nat) : Prop :=
  ∃ n, script.bindings.left.length = n ∧ script.bindings.right.length = n ∧
    n < 64 ∧ circuit.nextLayerNumWires i ≤ 2 ^ n

/-- The rounds of a layer start from its bound quad. -/
def roundStart (circuit : Circuit F) (layout : WitnessLayout)
    (script : Script F) (layer : CircuitLayer) (i : Nat) : RoundStart F :=
  let (alpha, transcript) := script.transcript.challenge F
  let (beta, transcript) := transcript.challenge F
  { layerIndex := i
    logw := layer.logw
    transcript
    elements := boundElements circuit layer script.bindings alpha beta
    claim := startClaim layout i script.claims alpha }

/-- A layer runs its script on the messages and the wires that the role
sends. -/
theorem runLayer_holds (J : Judgement) {circuit : Circuit F}
    (layout : WitnessLayout) {script : Script F} {i : Nat}
    (hi : i < circuit.layers.length)
    (hshape : circuit.LayerShape i circuit.layers[i])
    (hlogw : circuit.layers[i].logw < 64)
    (hlayout : layout.logw = circuit.layers.map fun layer => layer.logw)
    (hbinds : script.Binds circuit i) (role : ProtocolRole F)
    (keeps : List (Sumcheck.Polynomial F) → ProtocolRole F → Prop)
    (ends : List (Sumcheck.Polynomial F) → Hands F → ProtocolRole F → Prop)
    (hstart : keeps [] role)
    (hround : ∀ messages role, messages.length < 2 * circuit.layers[i].logw →
      keeps messages role →
      J.holds
        (roundPolynomial role
          ⟨boundAll .left ((roundStart circuit layout script circuit.layers[i]
            i).challenges messages) (roundStart circuit layout script
              circuit.layers[i] i).elements⟩
          i (messages.length / 2) (handAt messages.length))
        fun sent => J.holds
          (bindWires sent.2 i (handAt messages.length)
            ((roundStart circuit layout script circuit.layers[i]
              i).nextChallenge messages sent.1))
          (keeps (messages ++ [sent.1])))
    (hend : ∀ messages role, messages.length = 2 * circuit.layers[i].logw →
      keeps messages role →
      J.holds (layerWires role i) fun sent => ends messages sent.1 sent.2) :
    J.holds (runLayer circuit layout (script.state role) (circuit.layers[i], i))
      fun state => ∃ messages wires role',
        messages.length = 2 * circuit.layers[i].logw ∧
        ends messages wires role' ∧
        state = (scriptLayer circuit layout script circuit.layers[i] i messages
          wires).state role' := by
  set layer := circuit.layers[i] with hlayer
  set start := roundStart circuit layout script layer i with hstartdef
  obtain ⟨n, hleft, hright, hn, hgates⟩ := hbinds
  have hne : circuit.combinedElements layer
      (((script.transcript.challenge F).2.challenge F).1) ≠ [] := by
    simpa [combinedElements] using hshape.quads_ne_nil
  have hgatelt : ∀ e ∈ circuit.combinedElements layer
      (((script.transcript.challenge F).2.challenge F).1),
      e.gateIndex < 2 ^ script.bindings.left.length := by
    intro e he
    obtain ⟨quad, hquad, rfl⟩ := List.mem_map.mp he
    rw [hleft]
    exact (hshape.gate_lt quad hquad).trans_le hgates
  have haligned : Aligned .left 128 start.logw start.logw start.elements :=
    aligned_boundElements hshape hlogw.le _ _ _
  have hfits : start.Fits layout := by
    simp [RoundStart.Fits, hstartdef, roundStart, hlayout, hlayer, hi]
  have hloop := runRounds_holds J hfits hlogw.le haligned hstart hround
  have hi' : i < layout.logw.length := by simpa [hlayout] using hi
  rw [runLayer]
  simp only [Transcript.generateChallenge_one, Script.state]
  rw [index_of_lt (by simp), ok_bind]
  simp only [List.getElem_cons_zero]
  rw [index_of_lt (by simp), ok_bind]
  simp only [List.getElem_cons_zero]
  have hbindv : (⟨circuit.combinedElements layer
      (((script.transcript.challenge F).2.challenge F).1)⟩ :
      SparseSumcheckArray F).bindvGate script.bindings.left
      script.bindings.right (script.transcript.challenge F).1 =
      .ok ⟨start.elements⟩ :=
    bindvGate_eq_ok hne (by omega) (by omega) hgatelt _
  rw [combinedQuad_eq_ok hi hshape, ok_bind, hbindv, ok_bind,
    initialClaim_eq_ok hi'.le, ok_bind]
  change J.holds (((rounds layer.logw).foldlM (runRound layout i)
    (roundState layout start [] role)) >>= _) _
  refine J.bind hloop fun inner hinner => ?_
  obtain ⟨messages, role', hlength, hkeeps, rfl⟩ := hinner
  have hchallenges : (start.challenges messages).length = 2 * layer.logw := by
    rw [start.length_challenges, hlength]
    rfl
  have hsingle : boundAll .left (start.challenges messages) start.elements =
      [⟨0, 0, 0, boundQuad circuit layer script.bindings
        (script.transcript.challenge F).1
        (((script.transcript.challenge F).2.challenge F).1)
        (start.challenges messages)⟩] :=
    boundAll_boundElements hshape hlogw.le _ _ _ hchallenges
  have hpad (hand : Hand) : padTo start.logw
      (deal hand (start.challenges messages)) =
      deal hand (start.challenges messages) := by
    refine padTo_of_length ?_
    rw [length_deal, hchallenges]
    change _ = layer.logw
    cases hand <;> simp only [Hand.toNat] <;> omega
  simp only [roundState, hsingle]
  rw [assert_of (by simp), ok_bind, index_of_lt (by simp), ok_bind]
  simp only [List.getElem_cons_zero]
  rw [assert_of trivial]
  simp only [ok_bind]
  refine J.bind (hend messages role' hlength hkeeps) fun sent hsent => ?_
  obtain ⟨wires, role2⟩ := sent
  simp only
  rw [WitnessLayout.wireWitnessIndices, assert_of hi', ok_bind]
  refine J.ok ⟨messages, wires, role2, hlength, hsent, ?_⟩
  simp only [scriptLayer, layerClaim, drawLayer]
  rw [hpad .left, hpad .right]
  rfl

/-- The bindings of the output wires. -/
def drawOutputs (circuit : Circuit F) (transcript : Transcript) :
    List F × Transcript :=
  let (_, transcript) := transcript.generateChallenge F 40
  let (bindings, transcript) := transcript.generateChallenge F circuit.logw
  let (_, transcript) := transcript.generateChallenge F (40 - circuit.logw)
  (bindings, transcript)

omit [Field F] [DecidableEq F] in
theorem generateOutputWireBindings_eq_ok {circuit : Circuit F}
    (h : circuit.Consistent) (transcript : Transcript) :
    transcript.generateOutputWireBindings circuit =
      .ok (drawOutputs circuit transcript) := by
  have hle : circuit.logw ≤ 40 := (logw_le h).trans (by decide)
  simp only [Transcript.generateOutputWireBindings, checkedSub_of_le hle,
    ok_bind]
  rfl

/-- The script before the first layer. -/
def startScript (circuit : Circuit F) (transcript : Transcript) : Script F :=
  let (bindings, transcript) := drawOutputs circuit transcript
  { transcript
    bindings := ⟨bindings, bindings⟩
    claims := ⟨0, 0⟩
    constraints := ⟨[], []⟩ }

/-- The script of the first layers. -/
def scriptLayers (circuit : Circuit F) (layout : WitnessLayout)
    (start : Script F) (proofLayers : List (ProofLayer F)) : Script F :=
  (circuit.layers.zip proofLayers).zipIdx.foldl
    (fun script ((layer, proofLayer), i) => scriptLayer circuit layout script
      layer i proofLayer.messages proofLayer.wires)
    start

@[simp] theorem scriptLayers_nil (circuit : Circuit F) (layout : WitnessLayout)
    (start : Script F) : scriptLayers circuit layout start [] = start := by
  simp [scriptLayers]

theorem scriptLayers_concat (circuit : Circuit F) (layout : WitnessLayout)
    (start : Script F) {proofLayers : List (ProofLayer F)}
    (hlt : proofLayers.length < circuit.layers.length)
    (proofLayer : ProofLayer F) :
    scriptLayers circuit layout start (proofLayers ++ [proofLayer]) =
      scriptLayer circuit layout (scriptLayers circuit layout start proofLayers)
        circuit.layers[proofLayers.length] proofLayers.length
        proofLayer.messages proofLayer.wires := by
  rw [scriptLayers, zip_concat hlt, List.zipIdx_append, List.foldl_append]
  simp [scriptLayers, Nat.min_eq_right hlt.le]

/-- The proof layers so far have as many polynomials as the rounds of their
layers. -/
def Fits (circuit : Circuit F) (proofLayers : List (ProofLayer F)) : Prop :=
  proofLayers.length ≤ circuit.layers.length ∧
    ∀ i (hi : i < circuit.layers.length) (hi' : i < proofLayers.length),
      proofLayers[i].messages.length = 2 * circuit.layers[i].logw

omit [Field F] [DecidableEq F] [ProofFieldElement F] [Primitives]
  [SamplesField F] in
theorem Fits.concat {circuit : Circuit F} {proofLayers : List (ProofLayer F)}
    (h : Fits circuit proofLayers)
    (hlt : proofLayers.length < circuit.layers.length)
    {proofLayer : ProofLayer F} (hlength : proofLayer.messages.length =
      2 * circuit.layers[proofLayers.length].logw) :
    Fits circuit (proofLayers ++ [proofLayer]) := by
  refine ⟨by simpa using hlt, fun i hi hi' => ?_⟩
  rw [List.length_append, List.length_singleton] at hi'
  rcases Nat.lt_succ_iff_lt_or_eq.mp hi' with hprev | rfl
  · rw [List.getElem_append_left hprev]
    exact h.2 i hi hprev
  · rw [List.getElem_concat_length rfl]
    exact hlength

/-- The bindings that a layer leaves behind: those of the outputs first, then
one for each bit of a wire. -/
theorem scriptLayers_bindings {circuit : Circuit F} {layout : WitnessLayout}
    {transcript : Transcript} {proofLayers : List (ProofLayer F)}
    (hfits : Fits circuit proofLayers) (hand : Hand) :
    ((scriptLayers circuit layout (startScript circuit transcript)
      proofLayers).bindings.get hand).length =
      if proofLayers.length = 0 then circuit.logw
      else (circuit.layers.map fun layer => layer.logw).getD
        (proofLayers.length - 1) 0 := by
  rcases List.eq_nil_or_concat' proofLayers with rfl | ⟨init, last, rfl⟩
  · have hlength : (drawOutputs circuit transcript).1.length = circuit.logw :=
      Transcript.length_generateChallenge _ _
    rw [scriptLayers_nil, List.length_nil, if_pos rfl]
    cases hand <;> exact hlength
  · have hlt : init.length < circuit.layers.length := by
      simpa using hfits.1
    have hlast : last.messages.length = 2 * circuit.layers[init.length].logw := by
      have h := hfits.2 init.length hlt (by simp)
      rwa [List.getElem_concat_length rfl] at h
    rw [scriptLayers_concat circuit layout _ hlt]
    have hdraw (t : Transcript) :
        (drawLayer t last.messages).1.rounds.length =
          2 * circuit.layers[init.length].logw := by
      rw [drawLayer]
      simp only
      rw [Transcript.length_draw, hlast]
    have hdeal : ((scriptLayer circuit layout
        (scriptLayers circuit layout (startScript circuit transcript) init)
        circuit.layers[init.length] init.length last.messages
        last.wires).bindings.get hand).length =
        circuit.layers[init.length].logw := by
      cases hand
      · simp only [scriptLayer, Hands.get, length_deal, hdraw, Hand.toNat]
        omega
      · simp only [scriptLayer, Hands.get, length_deal, hdraw, Hand.toNat]
        omega
    rw [hdeal]
    simp [hlt]

theorem scriptLayers_binds {circuit : Circuit F} (hshaped : circuit.Shaped)
    (hlogw : ∀ layer ∈ circuit.layers, layer.logw < 64)
    (layout : WitnessLayout) (transcript : Transcript)
    {proofLayers : List (ProofLayer F)} (hfits : Fits circuit proofLayers) :
    (scriptLayers circuit layout (startScript circuit transcript)
      proofLayers).Binds circuit proofLayers.length := by
  refine ⟨_, scriptLayers_bindings hfits .left,
    scriptLayers_bindings hfits .right, ?_⟩
  cases hlength : proofLayers.length with
  | zero =>
      have hle := logw_le hshaped.toConsistent
      exact ⟨by simp; omega, Nat.le_pow_clog Nat.one_lt_two _⟩
  | succ i =>
      have hi : i < circuit.layers.length := by
        have h := hfits.1
        omega
      have hget : (circuit.layers.map fun layer => layer.logw).getD
          (i + 1 - 1) 0 = circuit.layers[i].logw := by
        simp [hi]
      rw [if_neg (Nat.succ_ne_zero i), hget, nextLayerNumWires_succ hi]
      exact ⟨hlogw _ (List.getElem_mem hi),
        (hshaped.layer_shape i hi).numWires_le⟩

/-- All layers: what a role keeps from layer to layer holds after the last. -/
theorem runLayers_holds (J : Judgement) (circuit : Circuit F) (layout : WitnessLayout)
    (start : Script F) (role : ProtocolRole F)
    (keeps : List (ProofLayer F) → ProtocolRole F → Prop)
    (hstart : keeps [] role)
    (hlayer : ∀ proofLayers role
      (hlt : proofLayers.length < circuit.layers.length),
      keeps proofLayers role →
      J.holds
        (runLayer circuit layout
          ((scriptLayers circuit layout start proofLayers).state role)
          (circuit.layers[proofLayers.length], proofLayers.length))
        fun state => ∃ proofLayer role',
          state = (scriptLayer circuit layout
            (scriptLayers circuit layout start proofLayers)
            circuit.layers[proofLayers.length] proofLayers.length
            proofLayer.messages proofLayer.wires).state role' ∧
          keeps (proofLayers ++ [proofLayer]) role') :
    J.holds
      (circuit.layers.zipIdx.foldlM (runLayer circuit layout)
        (start.state role))
      fun state => ∃ proofLayers role',
        proofLayers.length = circuit.layers.length ∧
        keeps proofLayers role' ∧
        state = (scriptLayers circuit layout start proofLayers).state role' := by
  have hrule := J.foldlM (f := runLayer circuit layout)
    (I := fun i state => ∃ proofLayers role', proofLayers.length = i ∧
      keeps proofLayers role' ∧
      state = (scriptLayers circuit layout start proofLayers).state role')
    circuit.layers.zipIdx (s := start.state role)
    ⟨[], role, rfl, hstart, by rw [scriptLayers_nil]⟩ ?_
  · rwa [List.length_zipIdx] at hrule
  · intro i hi state hstate
    obtain ⟨proofLayers, role', rfl, hkeeps, rfl⟩ := hstate
    rw [List.length_zipIdx] at hi
    have hget : circuit.layers.zipIdx[proofLayers.length] =
        (circuit.layers[proofLayers.length], proofLayers.length) := by
      simp
    rw [hget]
    refine J.mono (hlayer proofLayers role' hi hkeeps) fun state h => ?_
    obtain ⟨proofLayer, role2, rfl, hnext⟩ := h
    refine ⟨proofLayers ++ [proofLayer], role2, by simp, hnext, ?_⟩
    rw [scriptLayers_concat circuit layout start hi]

/-- The claim that the inputs meet at the end. -/
def inputClaim (circuit : Circuit F) (layout : WitnessLayout)
    (bindings : Hands (List F)) (gamma : F) : SymbolicExpression F :=
  let claim := (List.range layout.numPrivateInputs).foldl
    (fun claim i => claim.add ((Term.new i).mul
      (gateWeight bindings.left bindings.right gamma
        (i + circuit.numPublicInputs))))
    (SymbolicExpression.new circuit.layers.length)
  let start := layout.wireStart (circuit.layers.length - 1)
  (claim.add ((Term.new start).mul (-1))).add
    ((Term.new (start + 1)).mul (-gamma))

/-- The known side of the constraint on the inputs. -/
def inputRhs (publicInputs : List F) (bindings : Hands (List F))
    (claims : Hands F) (gamma : F) : F :=
  claims.left + gamma * claims.right -
    (publicInputs.zipIdx.map fun (input, i) =>
      input * gateWeight bindings.left bindings.right gamma i).sum

/-- The constraints and the transcript at the end of the script. -/
def finishScript (circuit : Circuit F) (layout : WitnessLayout)
    (publicInputs : List F) (script : Script F) :
    LinearConstraints F × Transcript :=
  let (gamma, transcript) := script.transcript.challenge F
  let claim := inputClaim circuit layout script.bindings gamma
  ({ lhsTerms := script.constraints.lhsTerms ++ claim.lhsTerms
     rhs := script.constraints.rhs ++
       [inputRhs publicInputs script.bindings script.claims gamma] },
    transcript)

omit [DecidableEq F] [ProofFieldElement F] [Primitives] [SamplesField F] in
/-- The terms for the private inputs. -/
theorem foldlM_privateInputs (layout : WitnessLayout)
    {numPublicInputs n : Nat} (layers : Nat) (hinputs : layout.numPrivateInputs + numPublicInputs ≤ n)
    (weight : Nat → F) :
    layout.privateInputWitnessIndices.zipIdx.foldlM
      (fun finalClaim (privateInputWitness, privateInputIndex) => do
        let weight ← index ((List.range n).map weight)
          (privateInputIndex + numPublicInputs)
        pure (finalClaim.add ((Term.new privateInputWitness).mul weight)))
      (SymbolicExpression.new layers) =
      Except.ok (ε := Fault) ((List.range layout.numPrivateInputs).foldl
        (fun claim i => claim.add ((Term.new i).mul
          (weight (i + numPublicInputs))))
        (SymbolicExpression.new layers)) := by
  have hprivate : layout.privateInputWitnessIndices.zipIdx =
      (List.range layout.numPrivateInputs).map fun i => (i, i) := by
    refine List.ext_getElem (by simp [WitnessLayout.privateInputWitnessIndices])
      fun i _ _ => ?_
    simp [WitnessLayout.privateInputWitnessIndices]
  rw [hprivate, List.foldlM_map]
  refine foldlM_eq_ok fun claim i hi => ?_
  have hlt : i < layout.numPrivateInputs := List.mem_range.mp hi
  have hread : index ((List.range n).map weight) (i + numPublicInputs) =
      .ok (weight (i + numPublicInputs)) := by
    have hlt' : i + numPublicInputs < n := by
      omega
    rw [index_eq_ok]
    simp [hlt']
  simp [hread]

omit [DecidableEq F] [ProofFieldElement F] [Primitives] [SamplesField F] in
/-- The contribution of the public inputs. -/
theorem foldl_publicInputs {publicInputs : List F} {n : Nat}
    (hpublic : publicInputs.length ≤ n) (weight : Nat → F) :
    (publicInputs.zip ((List.range n).map weight)).foldl
      (fun sum (input, weight) => sum + input * weight) 0 =
      (publicInputs.zipIdx.map fun (input, i) => input * weight i).sum := by
  have hzip : publicInputs.zip ((List.range n).map weight) =
      publicInputs.zipIdx.map fun (input, i) => (input, weight i) := by
    refine List.ext_getElem ?_ fun i hi hi' => ?_
    · simp
      omega
    · simp
  rw [hzip, List.foldl_map, List.sum_eq_foldl, List.foldl_map]

omit [DecidableEq F] [ProofFieldElement F] [Primitives] [SamplesField F] in
theorem inputConstraint_eq_ok {circuit : Circuit F} {layout : WitnessLayout}
    {publicInputs : List F} {bindings : Hands (List F)}
    (hlayers : circuit.numLayers = circuit.layers.length)
    (hne : circuit.layers ≠ [])
    (hlayout : layout.logw = circuit.layers.map fun layer => layer.logw)
    (hpublic : publicInputs.length = circuit.numPublicInputs)
    (hinputs : layout.numPrivateInputs + circuit.numPublicInputs ≤
      2 ^ bindings.left.length) (claims : Hands F) (gamma : F) :
    inputConstraint circuit layout publicInputs
        ((List.range (2 ^ bindings.left.length)).map
          (gateWeight bindings.left bindings.right gamma)) claims gamma =
      .ok (inputClaim circuit layout bindings gamma,
        inputRhs publicInputs bindings claims gamma) := by
  set weight := gateWeight bindings.left bindings.right gamma with hweight
  set table := (List.range (2 ^ bindings.left.length)).map weight with htable
  have hpos : 0 < circuit.layers.length := List.length_pos_iff.mpr hne
  have hlast : circuit.layers.length - 1 < layout.logw.length := by
    rw [hlayout, List.length_map]
    omega
  have hfits : publicInputs.length ≤ 2 ^ bindings.left.length := by omega
  have hterms := foldlM_privateInputs layout circuit.numLayers hinputs weight
  have hknown := foldl_publicInputs hfits weight
  rw [← htable] at hterms hknown
  rw [inputConstraint, hterms, ok_bind, checkedSub_of_le (by omega), ok_bind,
    WitnessLayout.wireWitnessIndices, hlayers, assert_of hlast, ok_bind]
  simp only [pure_eq_ok, ok_bind, hknown]
  rfl

/-- The whole run: the script of the messages of the proof layers. -/
theorem runProtocol_holds (J : Judgement) {circuit : Circuit F}
    (hshaped : circuit.Shaped)
    (hlogw : ∀ layer ∈ circuit.layers, layer.logw < 64)
    {publicInputs : List F} {transcript : Transcript} {role : ProtocolRole F}
    (hrole : roleInputs circuit role =
      .ok (publicInputs, witnessLayout circuit))
    (hpublic : publicInputs.length = circuit.numPublicInputs)
    {keeps : List (ProofLayer F) → ProtocolRole F → Prop}
    (hfits : ∀ proofLayers role, keeps proofLayers role →
      Fits circuit proofLayers)
    (hlayers : J.holds
      (circuit.layers.zipIdx.foldlM (runLayer circuit (witnessLayout circuit))
        ((startScript circuit transcript).state role))
      fun state => ∃ proofLayers role',
        proofLayers.length = circuit.layers.length ∧
        keeps proofLayers role' ∧
        state = (scriptLayers circuit (witnessLayout circuit)
          (startScript circuit transcript) proofLayers).state role') :
    J.holds (runProtocol circuit transcript role) fun result =>
      ∃ proofLayers role', proofLayers.length = circuit.layers.length ∧
        keeps proofLayers role' ∧
        result = (((finishScript circuit (witnessLayout circuit) publicInputs
            (scriptLayers circuit (witnessLayout circuit)
              (startScript circuit transcript) proofLayers)).1,
            role'.filledProof),
          (finishScript circuit (witnessLayout circuit) publicInputs
            (scriptLayers circuit (witnessLayout circuit)
              (startScript circuit transcript) proofLayers)).2) := by
  have hpos : 0 < circuit.layers.length :=
    List.length_pos_iff.mpr hshaped.layers_ne_nil
  have hlt : circuit.layers.length - 1 < circuit.layers.length := by omega
  rw [runProtocol, hrole, ok_bind]
  simp only [numPrivateInputs]
  rw [checkedSub_of_le (by rw [hshaped.numLayers_eq]; omega), ok_bind,
    checkedSub_of_le hshaped.numPublicInputs_le, ok_bind,
    generateOutputWireBindings_eq_ok hshaped.toConsistent, ok_bind]
  change J.holds ((circuit.layers.zipIdx.foldlM
    (runLayer circuit (witnessLayout circuit))
    ((startScript circuit transcript).state role)) >>= _) _
  refine J.bind hlayers fun state hstate => ?_
  obtain ⟨proofLayers, role', hlength, hkeeps, rfl⟩ := hstate
  set script := scriptLayers circuit (witnessLayout circuit)
    (startScript circuit transcript) proofLayers with hscript
  have hlast : circuit.layers.getLast? =
      some circuit.layers[circuit.layers.length - 1] := by
    rw [List.getLast?_eq_getElem?, List.getElem?_eq_getElem hlt]
  have hbindings (hand : Hand) : (script.bindings.get hand).length =
      circuit.layers[circuit.layers.length - 1].logw := by
    rw [hscript, scriptLayers_bindings (hfits _ _ hkeeps) hand, hlength,
      if_neg (by omega)]
    simp [hlt]
  have hleft : script.bindings.left.length =
      circuit.layers[circuit.layers.length - 1].logw := hbindings .left
  have hright : script.bindings.right.length =
      circuit.layers[circuit.layers.length - 1].logw := hbindings .right
  have hinputs : (witnessLayout circuit).numPrivateInputs +
      circuit.numPublicInputs ≤ 2 ^ script.bindings.left.length := by
    have hle := hshaped.numInputs_le _ hlast
    have hsplit := Nat.sub_add_cancel hshaped.numPublicInputs_le
    rw [hleft]
    exact hsplit.le.trans hle
  have hshort : script.bindings.left.length < 64 := by
    rw [hleft]
    exact hlogw _ (List.getElem_mem hlt)
  have htable : bindeq script.bindings.left script.bindings.right
      (script.transcript.challenge F).1 =
      .ok ((List.range (2 ^ script.bindings.left.length)).map
        (gateWeight script.bindings.left script.bindings.right
          (script.transcript.challenge F).1)) :=
    bindeq_eq_ok _ hshort (by rw [hleft, hright])
  simp only [Script.state, Transcript.generateChallenge_one]
  rw [index_of_lt (by simp), ok_bind]
  simp only [List.getElem_cons_zero]
  rw [htable, ok_bind,
    inputConstraint_eq_ok hshaped.numLayers_eq hshaped.layers_ne_nil rfl hpublic
      hinputs, ok_bind]
  exact J.ok ⟨proofLayers, role', hlength, hkeeps, rfl⟩

end Layers

end Longfellow.Sumcheck
