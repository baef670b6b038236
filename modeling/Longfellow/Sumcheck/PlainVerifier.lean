/-
The plain sumcheck verifier, which sees the messages without pads, and the
equivalence of its checks with the linear constraints.
-/
import Longfellow.Sumcheck.Symbolic

namespace Longfellow.Sumcheck

open Exec Multilinear SparseSumcheckArray Circuit

section Challenges

variable {F : Type} [CodecFieldElement F] [Primitives] [SamplesField F]

/-- The challenges of a whole run. -/
structure Challenges (F : Type) where
  outputs : List F
  layers : List (LayerChallenges F)
  gamma : F

/-- The challenges that a layer is bound to: those of the outputs first, then
those of the rounds of the layer before. -/
def Challenges.bindings (challenges : Challenges F) : Nat → Hands (List F)
  | 0 => ⟨challenges.outputs, challenges.outputs⟩
  | i + 1 =>
      match challenges.layers[i]? with
      | some layer => ⟨deal .left layer.rounds, deal .right layer.rounds⟩
      | none => ⟨[], []⟩

omit [CodecFieldElement F] [Primitives] [SamplesField F] in
theorem Challenges.bindings_append (outputs : List F)
    (layers rest : List (LayerChallenges F)) (gamma : F) :
    Challenges.bindings ⟨outputs, layers ++ rest, gamma⟩ layers.length =
      Challenges.bindings ⟨outputs, layers, gamma⟩ layers.length := by
  cases hlength : layers.length with
  | zero => rfl
  | succ i =>
      have hlt : i < layers.length := by omega
      simp only [bindings, List.getElem?_append_left hlt]

end Challenges

/-- The claims that a layer starts from: zero for the outputs, then the wires
of the layer before. -/
def SumcheckProof.claims {F : Type} [Field F] (proof : SumcheckProof F) :
    Nat → Hands F
  | 0 => ⟨0, 0⟩
  | i + 1 =>
      match proof.layers[i]? with
      | some proofLayer => proofLayer.wires
      | none => ⟨0, 0⟩

theorem SumcheckProof.claims_append {F : Type} [Field F]
    (layers rest : List (ProofLayer F)) :
    SumcheckProof.claims ⟨layers ++ rest⟩ layers.length =
      SumcheckProof.claims ⟨layers⟩ layers.length := by
  cases hlength : layers.length with
  | zero => rfl
  | succ i =>
      have hlt : i < layers.length := by omega
      simp only [claims, List.getElem?_append_left hlt]

namespace PlainVerifier

variable {F : Type} [Field F] [DecidableEq F] [ProofFieldElement F]

/-- The check of a layer: the claim, reduced round by round, is the fully
bound quad times the two wires. -/
def AcceptsLayer (circuit : Circuit F) (proof : SumcheckProof F)
    (challenges : Challenges F) (i : Nat) : Prop :=
  ∃ layer proofLayer layerChallenges,
    circuit.layers[i]? = some layer ∧
    proof.layers[i]? = some proofLayer ∧
    challenges.layers[i]? = some layerChallenges ∧
    reduceRounds
        ((proof.claims i).left + layerChallenges.alpha * (proof.claims i).right)
        (proofLayer.messages.zip layerChallenges.rounds) =
      boundQuad circuit layer (challenges.bindings i) layerChallenges.alpha
        layerChallenges.beta layerChallenges.rounds *
          proofLayer.vl * proofLayer.vr

/-- The check of the inputs: the last claims, combined, are the inputs bound
to the challenges of the last layer. -/
def AcceptsInputs (circuit : Circuit F) (inputs : List F)
    (proof : SumcheckProof F) (challenges : Challenges F) : Prop :=
  let last := circuit.layers.length
  (proof.claims last).left + challenges.gamma * (proof.claims last).right =
    (inputs.zipIdx.map fun (input, i) =>
      input * gateWeight (challenges.bindings last).left
        (challenges.bindings last).right challenges.gamma i).sum

/-- The plain verifier accepts a proof of the evaluation of a circuit. -/
structure Accepts (circuit : Circuit F) (inputs : List F)
    (proof : SumcheckProof F) (challenges : Challenges F) : Prop where
  layers : ∀ i, i < circuit.layers.length →
    AcceptsLayer circuit proof challenges i
  inputs : AcceptsInputs circuit inputs proof challenges

end PlainVerifier

section Unpad

variable {F : Type} [Field F]

/-- A layer of a proof with the pads of the witness vector added. -/
def unpadLayer (layout : WitnessLayout) (witness : Nat → F) (i : Nat)
    (proofLayer : ProofLayer F) : ProofLayer F :=
  { polynomials := proofLayer.polynomials.mapIdx fun round pair =>
      let left := layout.polynomialStart i round .left
      let right := layout.polynomialStart i round .right
      { left := ⟨pair.left.p0 + witness left,
          pair.left.p2 + witness (left + 1)⟩
        right := ⟨pair.right.p0 + witness right,
          pair.right.p2 + witness (right + 1)⟩ }
    vl := proofLayer.vl + witness (layout.wireStart i)
    vr := proofLayer.vr + witness (layout.wireStart i + 1) }

/-- The proof with the pads of the witness vector added. -/
def unpad (layout : WitnessLayout) (witness : Nat → F)
    (proof : SumcheckProof F) : SumcheckProof F :=
  ⟨proof.layers.mapIdx (unpadLayer layout witness)⟩

theorem messages_unpadLayer (layout : WitnessLayout) (witness : Nat → F)
    (i : Nat) (proofLayer : ProofLayer F) :
    (unpadLayer layout witness i proofLayer).messages =
      unpadMessages (polynomialBase layout i) witness proofLayer.messages := by
  refine List.ext_getElem? fun k => ?_
  rw [ProofLayer.getElem?_messages, unpadLayer, unpadMessages,
    List.getElem?_map, List.getElem?_zipIdx, ProofLayer.getElem?_messages,
    List.getElem?_mapIdx]
  have hstart := polynomialStart_eq layout i k
  cases proofLayer.polynomials[k / 2]? with
  | none => rfl
  | some pair =>
      simp only [Option.map_some, Nat.zero_add, ← hstart]
      cases handAt k <;> rfl

theorem claims_unpad (layout : WitnessLayout) (witness : Nat → F)
    (proofLayers : List (ProofLayer F)) {i : Nat} (hi : i ≤ proofLayers.length) :
    (unpad layout witness ⟨proofLayers⟩).claims i =
      unpadClaims layout witness i (SumcheckProof.claims ⟨proofLayers⟩ i) := by
  cases i with
  | zero => rfl
  | succ i =>
      have hlt : i < proofLayers.length := hi
      simp [SumcheckProof.claims, unpad, unpadClaims, unpadLayer,
        ProofLayer.wires, hlt]

end Unpad

section Draw

variable {F : Type} [Field F] [ProofFieldElement F] [Primitives]
  [SamplesField F]

/-- The challenges that answer the layers of a proof. -/
def drawLayers : List (ProofLayer F) → Transcript →
    List (LayerChallenges F) × Transcript
  | [], transcript => ([], transcript)
  | proofLayer :: proofLayers, transcript =>
      let (challenges, transcript) := drawLayer transcript proofLayer.messages
      let transcript := transcript.writeFieldElementArray
        [proofLayer.vl, proofLayer.vr]
      let (rest, transcript) := drawLayers proofLayers transcript
      (challenges :: rest, transcript)

/-- The challenges that a transcript answers a proof with. -/
def drawChallenges (circuit : Circuit F) (transcript : Transcript)
    (proof : SumcheckProof F) : Challenges F :=
  let (outputs, transcript) := drawOutputs circuit transcript
  let (layers, transcript) := drawLayers proof.layers transcript
  { outputs, layers, gamma := (transcript.challenge F).1 }

omit [Field F] in
theorem drawLayers_concat (proofLayers : List (ProofLayer F))
    (proofLayer : ProofLayer F) (transcript : Transcript) :
    drawLayers (proofLayers ++ [proofLayer]) transcript =
      ((drawLayers proofLayers transcript).1 ++
        [(drawLayer (drawLayers proofLayers transcript).2
          proofLayer.messages).1],
      (drawLayer (drawLayers proofLayers transcript).2
        proofLayer.messages).2.writeFieldElementArray
          [proofLayer.vl, proofLayer.vr]) := by
  induction proofLayers generalizing transcript with
  | nil => rfl
  | cons p ps ih => simp [drawLayers, ih]

omit [Field F] in
theorem length_drawLayers (proofLayers : List (ProofLayer F))
    (transcript : Transcript) :
    (drawLayers proofLayers transcript).1.length = proofLayers.length := by
  induction proofLayers generalizing transcript with
  | nil => rfl
  | cons p ps ih => simp [drawLayers, ih]

end Draw

section Script

variable {F : Type} [Field F] [DecidableEq F] [ProofFieldElement F]
  [Primitives] [SamplesField F]

/-- The script draws the challenges of the layers, and keeps the bindings and
the claims of the last one. -/
theorem scriptLayers_eq (circuit : Circuit F) (layout : WitnessLayout)
    (transcript : Transcript) (gamma : F) {proofLayers : List (ProofLayer F)}
    (hle : proofLayers.length ≤ circuit.layers.length) :
    (scriptLayers circuit layout (startScript circuit transcript)
        proofLayers).transcript =
      (drawLayers proofLayers (drawOutputs circuit transcript).2).2 ∧
    (scriptLayers circuit layout (startScript circuit transcript)
        proofLayers).bindings =
      Challenges.bindings ⟨(drawOutputs circuit transcript).1,
        (drawLayers proofLayers (drawOutputs circuit transcript).2).1, gamma⟩
        proofLayers.length ∧
    (scriptLayers circuit layout (startScript circuit transcript)
        proofLayers).claims =
      SumcheckProof.claims ⟨proofLayers⟩ proofLayers.length := by
  induction proofLayers using List.reverseRecOn with
  | nil => simp [startScript, drawLayers, Challenges.bindings,
      SumcheckProof.claims]
  | append_singleton init last ih =>
      have hlt : init.length < circuit.layers.length := by simpa using hle
      obtain ⟨htranscript, -, -⟩ := ih hlt.le
      have hget : ((drawLayers init (drawOutputs circuit transcript).2).1 ++
          [(drawLayer (drawLayers init (drawOutputs circuit transcript).2).2
            last.messages).1])[init.length]? =
          some (drawLayer (drawLayers init
            (drawOutputs circuit transcript).2).2 last.messages).1 := by
        rw [← length_drawLayers init (drawOutputs circuit transcript).2]
        simp
      rw [scriptLayers_concat circuit layout _ hlt, drawLayers_concat]
      refine ⟨?_, ?_, ?_⟩
      · simp only [scriptLayer, htranscript]
        rfl
      · rw [List.length_append, List.length_singleton, Challenges.bindings, hget]
        simp only [scriptLayer, htranscript]
      · simp [scriptLayer, SumcheckProof.claims]

omit [Primitives] [SamplesField F] in
/-- The check of a layer sees nothing of the layers after it. -/
theorem PlainVerifier.acceptsLayer_congr {circuit : Circuit F}
    {proof proof' : SumcheckProof F} {challenges challenges' : Challenges F}
    {i : Nat} (hproof : ∀ j ≤ i, proof.layers[j]? = proof'.layers[j]?)
    (houtputs : challenges.outputs = challenges'.outputs)
    (hlayers : ∀ j ≤ i, challenges.layers[j]? = challenges'.layers[j]?) :
    AcceptsLayer circuit proof challenges i ↔
      AcceptsLayer circuit proof' challenges' i := by
  have hclaims : proof.claims i = proof'.claims i := by
    cases i with
    | zero => rfl
    | succ i => simp [SumcheckProof.claims, hproof i (Nat.le_succ i)]
  have hbindings : challenges.bindings i = challenges'.bindings i := by
    cases i with
    | zero => simp [Challenges.bindings, houtputs]
    | succ i => simp [Challenges.bindings, hlayers i (Nat.le_succ i)]
  unfold AcceptsLayer
  rw [hclaims, hbindings, hproof i le_rfl, hlayers i le_rfl]

variable [LawfulProofField F]

/-- The constraint of a layer holds exactly when the plain verifier accepts
it, provided that the last pad is the product of the two before. -/
theorem layerClaim_iff {circuit : Circuit F} {layout : WitnessLayout}
    {witness : Nat → F} {script : Script F} {layer : CircuitLayer} {i : Nat}
    {messages : List (Sumcheck.Polynomial F)} {wires : Hands F}
    (hproduct : witness (layout.wireStart i) * witness (layout.wireStart i + 1) =
      witness (layout.wireStart i + 2)) :
    (layerClaim circuit layout script layer i messages wires).eval witness =
        boundQuad circuit layer script.bindings
          (drawLayer script.transcript messages).1.alpha
          (drawLayer script.transcript messages).1.beta
          (drawLayer script.transcript messages).1.rounds *
            wires.left * wires.right ↔
      reduceRounds
          ((unpadClaims layout witness i script.claims).left +
            (drawLayer script.transcript messages).1.alpha *
              (unpadClaims layout witness i script.claims).right)
          ((unpadMessages (polynomialBase layout i) witness messages).zip
            (drawLayer script.transcript messages).1.rounds) =
        boundQuad circuit layer script.bindings
          (drawLayer script.transcript messages).1.alpha
          (drawLayer script.transcript messages).1.beta
          (drawLayer script.transcript messages).1.rounds *
            (wires.left + witness (layout.wireStart i)) *
            (wires.right + witness (layout.wireStart i + 1)) := by
  have hlength : (drawLayer script.transcript messages).1.rounds.length =
      messages.length := Transcript.length_draw messages _
  rw [layerClaim, eval_finishClaim, eval_claimScript witness _ _ hlength, eval_startClaim,
    ← hproduct]
  constructor
  · intro h
    linear_combination h
  · intro h
    linear_combination h

/-- The constraints of the first layers hold exactly when the plain verifier
accepts these layers. -/
theorem scriptLayers_iff {circuit : Circuit F} {layout : WitnessLayout}
    {witness : Nat → F} (transcript : Transcript) (gamma : F)
    {proofLayers : List (ProofLayer F)}
    (hle : proofLayers.length ≤ circuit.layers.length)
    (hproduct : ∀ i < circuit.layers.length,
      witness (layout.wireStart i) * witness (layout.wireStart i + 1) =
        witness (layout.wireStart i + 2)) :
    let script := scriptLayers circuit layout (startScript circuit transcript)
      proofLayers
    script.constraints.rhs.length = proofLayers.length ∧
    (∀ c, proofLayers.length ≤ c →
      lhs script.constraints.lhsTerms witness c = 0) ∧
    ∀ c, c < proofLayers.length →
      (script.constraints.rhs[c]? =
          some (lhs script.constraints.lhsTerms witness c) ↔
        PlainVerifier.AcceptsLayer circuit
          (unpad layout witness ⟨proofLayers⟩)
          ⟨(drawOutputs circuit transcript).1,
            (drawLayers proofLayers (drawOutputs circuit transcript).2).1,
            gamma⟩ c) := by
  induction proofLayers using List.reverseRecOn with
  | nil => simp [startScript, lhs]
  | append_singleton init last ih =>
      have hlt : init.length < circuit.layers.length := by simpa using hle
      obtain ⟨hlength, hzero, hiff⟩ := ih hlt.le
      obtain ⟨htranscript, hbindings, hclaims⟩ :=
        scriptLayers_eq circuit layout transcript gamma hlt.le
      set script := scriptLayers circuit layout
        (startScript circuit transcript) init with hscript
      set layer := circuit.layers[init.length] with hlayer
      set claim := layerClaim circuit layout script layer init.length
        last.messages last.wires with hclaim
      have hnumber : claim.constraintNumber = init.length := by
        simp [hclaim, layerClaim]
      have hlhs (c : Nat) : lhs (script.constraints.lhsTerms ++ claim.lhsTerms)
          witness c = lhs script.constraints.lhsTerms witness c +
            if init.length = c then claim.eval witness - claim.known else 0 := by
        rw [lhs_append, SymbolicExpression.lhs_lhsTerms, hnumber]
      rw [scriptLayers_concat circuit layout _ hlt, ← hscript, ← hlayer]
      simp only [scriptLayer, ← hclaim]
      refine ⟨by simp [hlength], fun c hc => ?_, fun c hc => ?_⟩
      · rw [List.length_append, List.length_singleton] at hc
        rw [hlhs, hzero c (by omega), if_neg (by omega), add_zero]
      · rw [List.length_append, List.length_singleton] at hc
        rw [hlhs, drawLayers_concat]
        rcases Nat.lt_succ_iff_lt_or_eq.mp hc with hprev | rfl
        · rw [if_neg (by omega), add_zero,
            List.getElem?_append_left (by omega), hiff c hprev]
          refine PlainVerifier.acceptsLayer_congr (fun j hj => ?_) rfl
            fun j hj => ?_
          · simp only [unpad, List.getElem?_mapIdx]
            rw [List.getElem?_append_left (by omega)]
          · simp only
            rw [List.getElem?_append_left (by rw [length_drawLayers]; omega)]
        · set challenges := drawLayer script.transcript last.messages
            with hchallenges
          have hknown : (script.constraints.rhs ++
              [boundQuad circuit layer script.bindings challenges.1.alpha
                challenges.1.beta challenges.1.rounds * last.wires.left *
                  last.wires.right - claim.known])[init.length]? =
              some (boundQuad circuit layer script.bindings challenges.1.alpha
                challenges.1.beta challenges.1.rounds * last.wires.left *
                  last.wires.right - claim.known) := by
            rw [← hlength]
            simp
          have hlayers : circuit.layers[init.length]? = some layer :=
            List.getElem?_eq_getElem hlt
          have hproof : (unpad layout witness
              ⟨init ++ [last]⟩).layers[init.length]? =
              some (unpadLayer layout witness init.length last) := by
            simp [unpad]
          have hdrawn : ((drawLayers init (drawOutputs circuit transcript).2).1 ++
              [(drawLayer (drawLayers init (drawOutputs circuit
                transcript).2).2 last.messages).1])[init.length]? =
              some challenges.1 := by
            rw [hchallenges, htranscript,
              ← length_drawLayers init (drawOutputs circuit transcript).2]
            simp
          have hstart : (unpad layout witness ⟨init ++ [last]⟩).claims
              init.length =
              unpadClaims layout witness init.length script.claims := by
            rw [claims_unpad layout witness _ (by simp),
              SumcheckProof.claims_append, hclaims]
          have hbound := Challenges.bindings_append
            (drawOutputs circuit transcript).1
            (drawLayers init (drawOutputs circuit transcript).2).1
            [(drawLayer (drawLayers init (drawOutputs circuit
              transcript).2).2 last.messages).1] gamma
          rw [length_drawLayers, ← hbindings] at hbound
          rw [hknown, hzero _ le_rfl, if_pos rfl, zero_add, Option.some.injEq,
            sub_left_inj, eq_comm, hclaim, layerClaim_iff (hproduct _ hlt)]
          constructor
          · intro heq
            refine ⟨layer, _, _, hlayers, hproof, hdrawn, ?_⟩
            rw [hstart, hbound, messages_unpadLayer]
            exact heq
          · rintro ⟨layer', proofLayer, drawn, hlayer', hproof', hdrawn', heq⟩
            rw [hlayers, Option.some.injEq] at hlayer'
            rw [hproof, Option.some.injEq] at hproof'
            rw [hdrawn, Option.some.injEq] at hdrawn'
            subst hlayer' hproof' hdrawn'
            rw [hstart, hbound, messages_unpadLayer] at heq
            exact heq

end Script

end Longfellow.Sumcheck
