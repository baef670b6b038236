/-
The messages of an honest prover: the round polynomials of the sum of a bound
quad over the wires of a layer, and the checks that they pass.
-/
import Longfellow.Sumcheck.PlainVerifier
import Longfellow.Evaluation

namespace Longfellow.Sumcheck

open Exec Multilinear SparseSumcheckArray Circuit

section Values

variable {F : Type} [Field F]

/-- The sum of a sparse array over the products of two wires. -/
def wireSum (elements : List (SparseQuadElement F))
    (wires : Hands (Nat → F)) : F :=
  denote elements fun w => wires.left w.left * wires.right w.right

/-- The sum with one hand of the array and of the wires bound to `t`. -/
def roundSum (hand : Hand) (elements : List (SparseQuadElement F))
    (wires : Hands (Nat → F)) (t : F) : F :=
  wireSum (bound hand t elements)
    (wires.set hand (bindAt t (wires.get hand)))

/-- The wires of both hands bound to the challenges of a layer so far. -/
def boundHands (challenges : List F) (wires : Nat → F) : Hands (Nat → F) :=
  ⟨bindAll (deal .left challenges) wires,
    bindAll (deal .right challenges) wires⟩

theorem boundHands_concat (challenges : List F) (x : F) (wires : Nat → F) :
    boundHands (challenges ++ [x]) wires =
      (boundHands challenges wires).set (handAt challenges.length)
        (bindAt x ((boundHands challenges wires).get
          (handAt challenges.length))) := by
  simp only [boundHands, deal_concat]
  cases handAt challenges.length with
  | left => simp [Hands.set, Hands.get, bindAll_append, bindAll]
  | right => simp [Hands.set, Hands.get, bindAll_append, bindAll]

/-- The other factor of an element, when one hand is bound. -/
theorem roundSum_eq (hand : Hand) (elements : List (SparseQuadElement F))
    (wires : Hands (Nat → F)) (t : F) :
    roundSum hand elements wires t =
      (elements.map fun e => e.coefficient *
        wires.get hand.opposite (e.handWire hand.opposite) *
          (weight t (e.handWire hand) *
            bindAt t (wires.get hand) (e.handWire hand / 2))).sum := by
  rw [roundSum, wireSum, denote_bound, denote]
  refine congrArg List.sum (List.map_congr_left fun e _ => ?_)
  cases hand with
  | left =>
      simp only [pull, Hands.get, Hands.set, Hand.opposite,
        SparseQuadElement.wires, SparseQuadElement.handWire]
      ring
  | right =>
      simp only [pull, Hands.get, Hands.set, Hand.opposite,
        SparseQuadElement.wires, SparseQuadElement.handWire]
      ring

theorem wireSum_eq (hand : Hand) (elements : List (SparseQuadElement F))
    (wires : Hands (Nat → F)) :
    wireSum elements wires =
      (elements.map fun e => e.coefficient *
        wires.get hand.opposite (e.handWire hand.opposite) *
          wires.get hand (e.handWire hand)).sum := by
  rw [wireSum, denote]
  refine congrArg List.sum (List.map_congr_left fun e _ => ?_)
  cases hand with
  | left =>
      simp only [Hands.get, Hand.opposite, SparseQuadElement.wires,
        SparseQuadElement.handWire]
      ring
  | right =>
      simp only [Hands.get, Hand.opposite, SparseQuadElement.wires,
        SparseQuadElement.handWire]
      ring

/-- The round polynomial adds up to the sum before the round. -/
theorem roundSum_zero_add_one (hand : Hand)
    (elements : List (SparseQuadElement F)) (wires : Hands (Nat → F)) :
    roundSum hand elements wires 0 + roundSum hand elements wires 1 =
      wireSum elements wires := by
  rw [roundSum_eq, roundSum_eq, wireSum_eq hand, ← List.sum_map_add]
  refine congrArg List.sum (List.map_congr_left fun e _ => ?_)
  rw [bindAt_zero, bindAt_one, ← mul_add]
  rcases Nat.mod_two_eq_zero_or_one (e.handWire hand) with heven | hodd
  · have hdouble : 2 * (e.handWire hand / 2) = e.handWire hand := by omega
    simp [weight, heven, hdouble]
  · have hdouble : 2 * (e.handWire hand / 2) + 1 = e.handWire hand := by omega
    simp [weight, hodd, hdouble]

/-- The round polynomial has degree two: three of its values give the
others. -/
theorem eval_quadraticThrough_roundSum {t : F} (h0 : t ≠ 0) (h1 : t ≠ 1)
    (hand : Hand) (elements : List (SparseQuadElement F))
    (wires : Hands (Nat → F)) (x : F) :
    (quadraticThrough t (roundSum hand elements wires 0)
      (roundSum hand elements wires 1)
      (roundSum hand elements wires t)).eval x =
      roundSum hand elements wires x := by
  simp only [roundSum_eq]
  rw [eval_quadraticThrough_sum]
  refine congrArg List.sum (List.map_congr_left fun e _ => ?_)
  set c := e.coefficient * wires.get hand.opposite (e.handWire hand.opposite)
  set A := wires.get hand (2 * (e.handWire hand / 2))
  set B := wires.get hand (2 * (e.handWire hand / 2) + 1)
  rcases Nat.mod_two_eq_zero_or_one (e.handWire hand) with heven | hodd
  · have h := eval_quadraticThrough_affine h0 h1 c (-c) A (B - A) x
    have hvalue (y : F) : c * (weight y (e.handWire hand) *
        bindAt y (wires.get hand) (e.handWire hand / 2)) =
        (c + y * -c) * (A + y * (B - A)) := by
      rw [weight, if_pos heven, bindAt]
      ring
    rw [hvalue, hvalue, hvalue, hvalue, ← h]
    congr 2 <;> ring
  · have h := eval_quadraticThrough_affine h0 h1 0 c A (B - A) x
    have hvalue (y : F) : c * (weight y (e.handWire hand) *
        bindAt y (wires.get hand) (e.handWire hand / 2)) =
        (0 + y * c) * (A + y * (B - A)) := by
      rw [weight, if_neg (by omega), bindAt]
      ring
    rw [hvalue, hvalue, hvalue, hvalue, ← h]
    congr 2 <;> ring

variable [ProofFieldElement F]

/-- The honest message after these challenges of a layer. -/
def honestMessage (elements : List (SparseQuadElement F)) (wires : Nat → F)
    (challenges : List F) : Sumcheck.Polynomial F :=
  let round := roundSum (handAt challenges.length)
    (boundAll .left challenges elements) (boundHands challenges wires)
  ⟨round 0, round ProofFieldElement.sumcheckP2⟩

variable [LawfulProofField F]

/-- The rounds reduce the sum over the wires to the sum over the bound
wires. -/
theorem reduceRounds_honest (elements : List (SparseQuadElement F))
    (wires : Nat → F) (challenges : List F) :
    reduceRounds (wireSum elements (boundHands [] wires))
        (((List.range challenges.length).map fun k =>
          honestMessage elements wires (challenges.take k)).zip challenges) =
      wireSum (boundAll .left challenges elements)
        (boundHands challenges wires) := by
  induction challenges using List.reverseRecOn with
  | nil => rfl
  | append_singleton xs x ih =>
      have hfront : ((List.range xs.length).map fun k =>
          honestMessage elements wires ((xs ++ [x]).take k)) =
          (List.range xs.length).map fun k =>
            honestMessage elements wires (xs.take k) := by
        refine List.map_congr_left fun k hk => ?_
        rw [List.take_append_of_le_length (List.mem_range.mp hk).le]
      have hlast : (xs ++ [x]).take xs.length = xs := by simp
      have hzip : (List.map (fun k => honestMessage elements wires (xs.take k))
          (List.range xs.length)).length = xs.length := by simp
      rw [List.length_append, List.length_singleton, List.range_succ,
        List.map_append, hfront, List.zip_append hzip]
      simp only [List.map_cons, List.map_nil, hlast, List.zip_cons_cons,
        List.zip_nil_right]
      rw [reduceRounds_concat, ih, boundAll_concat, boundHands_concat]
      set hand := handAt xs.length
      set round := roundSum hand (boundAll .left xs elements)
        (boundHands xs wires) with hround
      have hmessage : honestMessage elements wires xs =
          ⟨round 0, round ProofFieldElement.sumcheckP2⟩ := rfl
      have hone : wireSum (boundAll .left xs elements) (boundHands xs wires) -
          round 0 = round 1 := by
        rw [← roundSum_zero_add_one hand, hround]
        ring
      rw [hmessage, reduceClaim, hone, hround,
        eval_quadraticThrough_roundSum sumcheckP2_ne_zero sumcheckP2_ne_one]
      rfl

end Values

section Layer

variable {F : Type} [Field F] [DecidableEq F] [ProofFieldElement F]

/-- The honest layer of a proof, for the challenges that answer it. -/
def honestLayer (circuit : Circuit F) (layer : CircuitLayer) (wires : List F)
    (bindings : Hands (List F)) (challenges : LayerChallenges F) :
    ProofLayer F :=
  let elements := boundElements circuit layer bindings challenges.alpha
    challenges.beta
  let message (k : Nat) :=
    honestMessage elements (element wires) (challenges.rounds.take k)
  let last := boundHands challenges.rounds (element wires)
  { polynomials := (List.range layer.logw).map fun round =>
      ⟨message (2 * round), message (2 * round + 1)⟩
    vl := last.left 0
    vr := last.right 0 }

/-- The honest proof of an evaluation, for the challenges that answer it. -/
def honestProof (circuit : Circuit F) (evaluation : Evaluation F)
    (challenges : Challenges F) : SumcheckProof F :=
  ⟨circuit.layers.mapIdx fun i layer =>
    honestLayer circuit layer (evaluation.wires.getD (i + 1) [])
      (challenges.bindings i) (challenges.layers.getD i ⟨0, 0, []⟩)⟩

theorem messages_honestLayer (circuit : Circuit F) (layer : CircuitLayer)
    (wires : List F) (bindings : Hands (List F))
    (challenges : LayerChallenges F) :
    (honestLayer circuit layer wires bindings challenges).messages =
      (List.range (2 * layer.logw)).map fun k =>
        honestMessage (boundElements circuit layer bindings challenges.alpha
          challenges.beta) (element wires) (challenges.rounds.take k) := by
  refine List.ext_getElem? fun k => ?_
  rw [ProofLayer.getElem?_messages]
  simp only [honestLayer, List.getElem?_map]
  have hturn := two_mul_add_handAt k
  rcases lt_or_ge k (2 * layer.logw) with hlt | hge
  · have hhalf : k / 2 < layer.logw := by omega
    rw [List.getElem?_range hhalf, List.getElem?_range hlt]
    simp only [Option.map_some, Option.some.injEq]
    cases hhand : handAt k with
    | left =>
        rw [hhand, Hand.toNat, Nat.add_zero] at hturn
        simp only [Hands.get]
        rw [hturn]
    | right =>
        rw [hhand, Hand.toNat] at hturn
        simp only [Hands.get]
        rw [hturn]
  · have hhalf : layer.logw ≤ k / 2 := by omega
    rw [List.getElem?_eq_none (by simpa using hhalf),
      List.getElem?_eq_none (by simpa using hge)]
    rfl

omit [ProofFieldElement F] in
/-- The quads that are asserted to be zero add up to zero, whatever the gates
are weighted by. -/
theorem sum_asserted_eq_zero {circuit : Circuit F} {i : Nat}
    {layer : CircuitLayer} (hlayer : circuit.LayerInvariants i layer)
    {wires outputs : List F} (hholds : circuit.GatesHold layer wires outputs)
    (f : Nat → F) :
    (layer.quads.map fun quad => f quad.gateIndex *
      if circuit.quadValue quad = 0 then circuit.quadOutput wires quad
      else 0).sum = 0 := by
  rw [sum_by_key Quad.gateIndex f _ hlayer.gate_lt]
  refine Finset.sum_eq_zero fun g _ => ?_
  by_cases hassert : ∃ quad ∈ layer.quads,
      quad.gateIndex = g ∧ circuit.quadValue quad = 0
  · obtain ⟨quad, hquad, rfl, hzero⟩ := hassert
    have hsum := hholds.output_eq quad.gateIndex
    rw [hholds.asserted_zero quad hquad hzero, gateSum] at hsum
    have hsame : (layer.quads.map fun q =>
        if q.gateIndex = quad.gateIndex then
          if circuit.quadValue q = 0 then circuit.quadOutput wires q else 0
        else 0) =
        layer.quads.map fun q => if q.gateIndex = quad.gateIndex then
          circuit.quadOutput wires q else 0 := by
      refine List.map_congr_left fun q hq => ?_
      split
      · next heq =>
          rw [if_pos ((hlayer.disjoint q hq quad hquad heq).mpr hzero)]
      · rfl
    rw [hsame, ← hsum, mul_zero]
  · have hnone : (layer.quads.map fun q =>
        if q.gateIndex = g then
          if circuit.quadValue q = 0 then circuit.quadOutput wires q else 0
        else 0) = layer.quads.map fun _ => (0 : F) := by
      refine List.map_congr_left fun q hq => ?_
      split
      · next heq =>
          rw [if_neg fun hzero => hassert ⟨q, hq, heq, hzero⟩]
      · rfl
    rw [hnone]
    simp

omit [ProofFieldElement F] in
/-- The bound quad of a layer sums over the wires to the weighted outputs of
the layer. -/
theorem wireSum_boundElements {circuit : Circuit F} {i : Nat}
    {layer : CircuitLayer} (hlayer : circuit.LayerInvariants i layer)
    {wires outputs : List F} (hholds : circuit.GatesHold layer wires outputs)
    (hlength : outputs.length = circuit.nextLayerNumWires i)
    (bindings : Hands (List F)) (alpha beta : F) :
    wireSum (boundElements circuit layer bindings alpha beta)
        ⟨element wires, element wires⟩ =
      bindAll bindings.left (element outputs) 0 +
        alpha * bindAll bindings.right (element outputs) 0 := by
  set weight := gateWeight bindings.left bindings.right alpha with hweight
  have hquads : wireSum (boundElements circuit layer bindings alpha beta)
      ⟨element wires, element wires⟩ =
      (layer.quads.map fun quad => weight quad.gateIndex *
        circuit.quadOutput wires quad).sum := by
    have hzero := sum_asserted_eq_zero hlayer hholds
      fun g => (beta - 1) * weight g
    rw [wireSum, boundElements, denote_compact_bindGate, combinedElements,
      List.map_map, ← add_zero (List.sum (layer.quads.map fun quad =>
        weight quad.gateIndex * circuit.quadOutput wires quad)), ← hzero,
      ← List.sum_map_add]
    refine congrArg List.sum (List.map_congr_left fun quad _ => ?_)
    simp only [Function.comp_apply, combinedElement, quadOutput,
      SparseQuadElement.wires, ← hweight]
    by_cases hvalue : circuit.quadValue quad = 0
    · simp only [hvalue, if_true]
      ring
    · simp only [hvalue, if_false]
      ring
  have hgates : (layer.quads.map fun quad => weight quad.gateIndex *
      circuit.quadOutput wires quad).sum =
      ∑ g ∈ Finset.range (circuit.nextLayerNumWires i),
        weight g * element outputs g := by
    rw [sum_by_key Quad.gateIndex weight _ hlayer.gate_lt]
    exact Finset.sum_congr rfl fun g _ =>
      congrArg (weight g * ·) (hholds.output_eq g).symm
  have houtputs : ∀ g, circuit.nextLayerNumWires i ≤ g →
      element outputs g = 0 := fun g hg => element_of_le (by omega)
  rw [hquads, hgates, bindAll_zero_eq_sum _ houtputs,
    bindAll_zero_eq_sum _ houtputs, Finset.mul_sum, ← Finset.sum_add_distrib]
  refine Finset.sum_congr rfl fun g _ => ?_
  rw [hweight, gateWeight]
  ring

/-- There are as many challenges as the rounds of each layer. -/
def Challenges.Fits (challenges : Challenges F) (circuit : Circuit F) : Prop :=
  ∀ i (hi : i < circuit.layers.length), ∃ layerChallenges,
    challenges.layers[i]? = some layerChallenges ∧
    layerChallenges.rounds.length = 2 * circuit.layers[i].logw

/-- The claims that a layer of the honest proof starts from are the bound
outputs of the layer. -/
theorem claims_honestProof {circuit : Circuit F}
    {evaluation : Evaluation F} {challenges : Challenges F} (hfits : challenges.Fits circuit)
    (hzero : ∀ output ∈ evaluation.wires.getD 0 [], output = 0) {i : Nat}
    (hi : i ≤ circuit.layers.length) {outputs : List F}
    (houtputs : evaluation.wires[i]? = some outputs) :
    (honestProof circuit evaluation challenges).claims i =
      ⟨bindAll (challenges.bindings i).left (element outputs) 0,
        bindAll (challenges.bindings i).right (element outputs) 0⟩ := by
  cases i with
  | zero =>
      have hget : evaluation.wires.getD 0 [] = outputs := by
        rw [List.getD_eq_getElem?_getD, houtputs]
        rfl
      rw [hget] at hzero
      have hall (xs : List F) : bindAll xs (element outputs) 0 = 0 := by
        have hnone : ∀ g, 0 ≤ g → element outputs g = 0 := by
          intro g _
          rcases lt_or_ge g outputs.length with hlt | hge
          · rw [element, List.getD_eq_getElem _ _ hlt]
            exact hzero _ (List.getElem_mem hlt)
          · exact element_of_le hge
        rw [bindAll_zero_eq_sum xs hnone]
        simp
      rw [hall, hall]
      rfl
  | succ j =>
      have hj : j < circuit.layers.length := hi
      obtain ⟨layerChallenges, hchallenges, -⟩ := hfits j hj
      have hproof : (honestProof circuit evaluation challenges).layers[j]? =
          some (honestLayer circuit circuit.layers[j] outputs
            (challenges.bindings j) layerChallenges) := by
        rw [honestProof, List.getElem?_mapIdx, List.getElem?_eq_getElem hj,
          List.getD_eq_getElem?_getD, List.getD_eq_getElem?_getD, houtputs,
          hchallenges]
        rfl
      simp only [SumcheckProof.claims, hproof, Challenges.bindings, hchallenges]
      rfl

variable [LawfulProofField F]

theorem zipIdx_map_mul (inputs : List F) (f : Nat → F) :
    (inputs.zipIdx.map fun (input, j) => input * f j) =
      (List.range inputs.length).map fun j => element inputs j * f j := by
  refine List.ext_getElem (by simp) fun j hj _ => ?_
  have hlt : j < inputs.length := by simpa using hj
  simp [element, hlt]

/-- The plain verifier accepts the honest proof of an evaluation whose outputs
are zero, whatever the challenges. -/
theorem honestProof_accepts {circuit : Circuit F} (hwf : circuit.WellFormed)
    (hlogw : ∀ layer ∈ circuit.layers, layer.logw ≤ 64) {inputs : List F}
    {evaluation : Evaluation F} (heval : circuit.Evaluates inputs evaluation)
    (hzero : ∀ output ∈ evaluation.wires.getD 0 [], output = 0)
    {challenges : Challenges F} (hfits : challenges.Fits circuit) :
    PlainVerifier.Accepts circuit inputs
      (honestProof circuit evaluation challenges) challenges := by
  refine ⟨fun i hi => ?_, ?_⟩
  · obtain ⟨layerChallenges, hchallenges, hlength⟩ := hfits i hi
    obtain ⟨outputs, wires, houtputs, hwires, hsize, hholds⟩ :=
      heval.layer_holds i hi
    have hlayer := hwf.layer_invariants i hi
    have hproof : (honestProof circuit evaluation challenges).layers[i]? =
        some (honestLayer circuit circuit.layers[i] wires
          (challenges.bindings i) layerChallenges) := by
      rw [honestProof, List.getElem?_mapIdx, List.getElem?_eq_getElem hi,
        List.getD_eq_getElem?_getD, List.getD_eq_getElem?_getD, hwires,
        hchallenges]
      rfl
    refine ⟨_, _, _, List.getElem?_eq_getElem hi, hproof, hchallenges, ?_⟩
    rw [claims_honestProof hfits hzero hi.le houtputs,
      messages_honestLayer, ← hlength]
    simp only
    rw [← wireSum_boundElements hlayer hholds hsize _ _ layerChallenges.beta]
    refine (reduceRounds_honest _ (element wires) layerChallenges.rounds).trans
      ?_
    rw [boundAll_boundElements hlayer.shape (hlogw _ (List.getElem_mem hi)) _ _
      _ hlength]
    simp [wireSum, denote, SparseQuadElement.wires, honestLayer]
    ring
  · unfold PlainVerifier.AcceptsInputs
    simp only
    rw [claims_honestProof hfits hzero le_rfl heval.inputs_eq]
    have hinputs : ∀ j, inputs.length ≤ j → element inputs j = 0 :=
      fun j hj => element_of_le hj
    rw [bindAll_zero_eq_sum _ hinputs, bindAll_zero_eq_sum _ hinputs,
      Finset.mul_sum, ← Finset.sum_add_distrib]
    rw [zipIdx_map_mul, ← List.sum_toFinset _ List.nodup_range, List.toFinset_range]
    refine Finset.sum_congr rfl fun j _ => ?_
    rw [gateWeight]
    ring

end Layer

end Longfellow.Sumcheck
