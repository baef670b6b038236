/-
What an evaluation of a circuit satisfies: every wire of a layer is the sum of
the quads of its gate, and the gates that are asserted to be zero are.
-/
import Longfellow.Circuit

namespace Longfellow

open Exec

theorem forM_eq_ok {α : Type} {f : α → Exec PUnit} {xs : List α}
    (h : xs.forM f = .ok ()) : ∀ x ∈ xs, f x = .ok () := by
  induction xs with
  | nil => intro x hx; cases hx
  | cons y ys ih =>
      rw [List.forM_eq_forM, List.forM_cons] at h
      obtain ⟨u, hy, hys⟩ := Exec.bind_eq_ok.mp h
      intro x hx
      rcases List.mem_cons.mp hx with rfl | hx
      · exact hy
      · exact ih hys x hx

namespace Circuit

variable {F : Type} [Field F] [DecidableEq F]

/-- The output of a quad. -/
def quadOutput (circuit : Circuit F) (wires : List F) (quad : Quad) : F :=
  let leftWire := element wires quad.leftWireIndex
  let rightWire := element wires quad.rightWireIndex
  if circuit.quadValue quad = 0 then leftWire * rightWire
  else circuit.quadValue quad * leftWire * rightWire

/-- The sum of the outputs of the quads of a gate. -/
def gateSum (circuit : Circuit F) (wires : List F) (quads : List Quad)
    (gate : Nat) : F :=
  (quads.map fun quad =>
    if quad.gateIndex = gate then circuit.quadOutput wires quad else 0).sum

/-- The outputs of a layer are those of its gates, and the asserted ones are
zero. -/
structure GatesHold (circuit : Circuit F) (layer : CircuitLayer)
    (wires outputs : List F) : Prop where
  leftWire_lt : ∀ quad ∈ layer.quads, quad.leftWireIndex < wires.length
  rightWire_lt : ∀ quad ∈ layer.quads, quad.rightWireIndex < wires.length
  output_eq : ∀ gate, element outputs gate =
    circuit.gateSum wires layer.quads gate
  asserted_zero : ∀ quad ∈ layer.quads, circuit.quadValue quad = 0 →
    element outputs quad.gateIndex = 0

theorem gateSum_concat (circuit : Circuit F) (wires : List F)
    (quads : List Quad) (quad : Quad) (gate : Nat) :
    circuit.gateSum wires (quads ++ [quad]) gate =
      circuit.gateSum wires quads gate +
        if quad.gateIndex = gate then circuit.quadOutput wires quad else 0 := by
  simp [gateSum]

omit [DecidableEq F] in
theorem element_set (outputs : List F) {i : Nat} (hi : i < outputs.length)
    (x : F) (j : Nat) :
    element (outputs.set i x) j = if i = j then x else element outputs j := by
  by_cases h : i = j
  · subst h
    simp [element, hi]
  · simp [element, h]

/-- One quad adds its output to its gate. -/
theorem evaluateQuad_ensures (circuit : Circuit F) (wires : List F) (n : Nat)
    (state : GateState F) (quad : Quad) :
    Ensures (circuit.evaluateQuad wires n state quad) fun next =>
      quad.leftWireIndex < wires.length ∧
      quad.rightWireIndex < wires.length ∧
      next.gateOutputs.length = state.gateOutputs.length ∧
      (∀ gate, element next.gateOutputs gate =
        element state.gateOutputs gate +
          if quad.gateIndex = gate then circuit.quadOutput wires quad else 0) ∧
      (∀ gate ∈ state.zGateIndexes, gate ∈ next.zGateIndexes) ∧
      (circuit.quadValue quad = 0 → quad.gateIndex ∈ next.zGateIndexes) := by
  intro next h
  rw [evaluateQuad] at h
  obtain ⟨value, hvalue, h⟩ := Exec.bind_eq_ok.mp h
  have hquad : circuit.quadValue quad = value := by
    rw [constant] at hvalue
    rw [quadValue, List.getD_eq_getElem?_getD]
    cases hget : circuit.constantTable[quad.constTableIndex]? with
    | none => simp [hget, fail] at hvalue
    | some v => simpa [hget] using hvalue
  have hread {i : Nat} {wire : F} (hwire : wires[i]? = some wire) :
      i < wires.length ∧ element wires i = wire := by
    obtain ⟨hlt, -⟩ := List.getElem?_eq_some_iff.mp hwire
    refine ⟨hlt, ?_⟩
    rw [element, List.getD_eq_getElem?_getD, hwire]
    rfl
  cases hleft : wires[quad.leftWireIndex]? with
  | none =>
      rw [hleft] at h
      cases h
  | some leftWire =>
  cases hright : wires[quad.rightWireIndex]? with
  | none =>
      simp only [hleft, hright, pure_bind] at h
      cases h
  | some rightWire =>
  simp only [hleft, hright, pure_bind] at h
  obtain ⟨hleftlt, rfl⟩ := hread hleft
  obtain ⟨hrightlt, rfl⟩ := hread hright
  obtain ⟨-, -, h⟩ := Exec.bind_eq_ok.mp h
  obtain ⟨outputs, houtputs, h⟩ := Exec.bind_eq_ok.mp h
  obtain ⟨old, hold, rfl⟩ := update_eq_ok.mp houtputs
  obtain ⟨hlt, hget⟩ := List.getElem?_eq_some_iff.mp hold
  cases h
  refine ⟨hleftlt, hrightlt, List.length_set, fun gate => ?_, ?_, ?_⟩
  · rw [element_set _ hlt, quadOutput, hquad]
    by_cases hgate : quad.gateIndex = gate
    · subst hgate
      have hold : element state.gateOutputs quad.gateIndex = old := by
        simp [element, hlt, hget]
      rw [if_pos rfl, if_pos rfl, hold]
    · rw [if_neg hgate, if_neg hgate, add_zero]
  · intro gate hgate
    simp only
    split
    · exact List.mem_insert_of_mem hgate
    · exact hgate
  · intro hzero
    rw [hquad] at hzero
    simp [hzero]

/-- The quads of a layer add up to its gates. -/
theorem evaluateQuads_ensures (circuit : Circuit F) (layer : CircuitLayer)
    (wires : List F) (n : Nat) :
    Ensures (layer.quads.foldlM (circuit.evaluateQuad wires n)
      ⟨List.replicate n 0, []⟩) fun state =>
        state.gateOutputs.length = n ∧
        (∀ gate, element state.gateOutputs gate =
          circuit.gateSum wires layer.quads gate) ∧
        ∀ quad ∈ layer.quads,
          quad.leftWireIndex < wires.length ∧
          quad.rightWireIndex < wires.length ∧
          (circuit.quadValue quad = 0 →
            quad.gateIndex ∈ state.zGateIndexes) := by
  have hloop := Ensures.foldlM (f := circuit.evaluateQuad wires n)
    (I := fun k state => state.gateOutputs.length = n ∧
      (∀ gate, element state.gateOutputs gate =
        circuit.gateSum wires (layer.quads.take k) gate) ∧
      ∀ quad ∈ layer.quads.take k,
        quad.leftWireIndex < wires.length ∧
        quad.rightWireIndex < wires.length ∧
        (circuit.quadValue quad = 0 → quad.gateIndex ∈ state.zGateIndexes))
    layer.quads (s := ⟨List.replicate n 0, []⟩) ?_ ?_
  · rwa [List.take_length] at hloop
  · refine ⟨List.length_replicate, fun gate => ?_, by simp⟩
    by_cases hgate : gate < n
    · simp [gateSum, element, hgate]
    · simp [gateSum, element, hgate]
  · intro k hk state hstate next hnext
    obtain ⟨hlength, houtput, hquads⟩ := hstate
    obtain ⟨hleft, hright, hsame, hadd, hkeep, hzero⟩ :=
      evaluateQuad_ensures circuit wires n state layer.quads[k] next hnext
    rw [List.take_add_one, List.getElem?_eq_getElem hk, Option.toList_some]
    refine ⟨hsame.trans hlength, fun gate => ?_, fun quad hquad => ?_⟩
    · rw [hadd, houtput, gateSum_concat]
    · rcases List.mem_append.mp hquad with hquad | hquad
      · obtain ⟨hl, hr, hz⟩ := hquads quad hquad
        exact ⟨hl, hr, fun hvalue => hkeep _ (hz hvalue)⟩
      · rw [List.mem_singleton.mp hquad]
        exact ⟨hleft, hright, hzero⟩

theorem evaluateLayer_ensures (circuit : Circuit F) (layer : CircuitLayer)
    (i : Nat) (wires : List F) (n : Nat) :
    Ensures (circuit.evaluateLayer layer i wires n) fun outputs =>
      outputs.length = n ∧ circuit.GatesHold layer wires outputs := by
  refine (circuit.evaluateQuads_ensures layer wires n).bind
    fun state hstate => ?_
  obtain ⟨hlength, houtput, hquads⟩ := hstate
  intro outputs houtputs
  obtain ⟨u, hzero, hpure⟩ := Exec.bind_eq_ok.mp houtputs
  cases hpure
  refine ⟨hlength, fun quad hquad => (hquads quad hquad).1,
    fun quad hquad => (hquads quad hquad).2.1, houtput, ?_⟩
  intro quad hquad hvalue
  have hcheck := forM_eq_ok hzero _ ((hquads quad hquad).2.2 hvalue)
  obtain ⟨output, hread, hensure⟩ := Exec.bind_eq_ok.mp hcheck
  have houtput := ensure_eq_ok.mp hensure
  rw [element, List.getD_eq_getElem?_getD, index_eq_ok.mp hread, houtput]
  rfl

/-- The wires of an evaluation: one list for the outputs and one for each
layer, in which the gates hold. -/
structure Evaluates (circuit : Circuit F) (inputs : List F)
    (evaluation : Evaluation F) : Prop where
  length_wires : evaluation.wires.length = circuit.layers.length + 1
  inputs_eq : evaluation.wires[circuit.layers.length]? = some inputs
  layer_holds : ∀ i (hi : i < circuit.layers.length), ∃ outputs wires,
    evaluation.wires[i]? = some outputs ∧
    evaluation.wires[i + 1]? = some wires ∧
    outputs.length = circuit.nextLayerNumWires i ∧
    circuit.GatesHold circuit.layers[i] wires outputs

namespace Evaluates

variable {circuit : Circuit F} {inputs : List F} {evaluation : Evaluation F}

theorem inputs_eq_ok (h : circuit.Evaluates inputs evaluation) :
    evaluation.inputs = .ok inputs := by
  rw [Evaluation.inputs, h.length_wires, checkedSub_of_le (by omega), ok_bind,
    Nat.add_sub_cancel]
  exact index_eq_ok.mpr h.inputs_eq

theorem publicInputs_eq_ok (h : circuit.Evaluates inputs evaluation) {n : Nat}
    (hn : n ≤ inputs.length) :
    evaluation.publicInputs n = .ok (inputs.take n) := by
  rw [Evaluation.publicInputs, h.inputs_eq_ok, ok_bind, assert_of hn]
  rfl

theorem privateInputs_eq_ok (h : circuit.Evaluates inputs evaluation) {n : Nat}
    (hn : n ≤ inputs.length) :
    evaluation.privateInputs n = .ok (inputs.drop n) := by
  rw [Evaluation.privateInputs, h.inputs_eq_ok, ok_bind, assert_of hn]
  rfl

theorem outputs_eq_ok (h : circuit.Evaluates inputs evaluation) :
    evaluation.outputs = .ok (evaluation.wires.getD 0 []) := by
  have hlt : 0 < evaluation.wires.length := by
    rw [h.length_wires]
    omega
  rw [Evaluation.outputs, index_of_lt hlt, List.getD_eq_getElem _ _ hlt]

end Evaluates

/-- An evaluation that succeeds satisfies its gates: the layers are evaluated
from the inputs up, so the wires come out in reverse. -/
theorem evaluate_ensures {circuit : Circuit F}
    (hlayers : circuit.numLayers = circuit.layers.length)
    (inputs : List F) :
    Ensures (circuit.evaluate inputs) (circuit.Evaluates inputs) := by
  refine Ensures.trivial.bind fun first _ => ?_
  refine Ensures.trivial.bind fun _ _ => ?_
  intro evaluation h
  obtain ⟨last, hlast, h⟩ := Exec.bind_eq_ok.mp h
  obtain ⟨hpos, rfl⟩ := checkedSub_eq_ok.mp hlast
  obtain ⟨wires, hloop, h⟩ := Exec.bind_eq_ok.mp h
  cases h
  rw [hlayers] at hpos hloop
  set n := circuit.layers.length with hn
  have hrule := Ensures.foldlM
    (I := fun k wires => wires.length = k + 1 ∧ wires[0]? = some inputs ∧
      ∀ j < k, ∀ hi : n - 1 - j < n, ∃ outputs layerWires,
        wires[j + 1]? = some outputs ∧ wires[j]? = some layerWires ∧
        outputs.length = circuit.nextLayerNumWires (n - 1 - j) ∧
        circuit.GatesHold circuit.layers[n - 1 - j] layerWires outputs)
    circuit.layers.reverse.zipIdx (s := [inputs]) ⟨rfl, rfl, by simp⟩ ?_ wires
    hloop
  · obtain ⟨hlength, hinputs, hall⟩ := hrule
    rw [List.length_zipIdx, List.length_reverse, ← hn] at hlength hall
    have hreverse (i : Nat) (hi : i ≤ n) :
        wires.reverse[i]? = wires[n - i]? := by
      have hflip : n + 1 - 1 - i = n - i := by omega
      rw [List.getElem?_reverse (by omega), hlength, hflip]
    refine ⟨by simp [hlength, hn], ?_, fun i hi => ?_⟩
    · rw [hreverse n le_rfl, Nat.sub_self]
      exact hinputs
    · obtain ⟨outputs, layerWires, houtputs, hwires, hsize, hgates⟩ :=
        hall (n - 1 - i) (by omega) (by omega)
      have hback : n - 1 - (n - 1 - i) = i := by omega
      have hup : n - 1 - i + 1 = n - i := by omega
      have hdown : n - 1 - i = n - (i + 1) := by omega
      simp only [hback] at hsize hgates
      refine ⟨outputs, layerWires, ?_, ?_, hsize, hgates⟩
      · rw [hreverse i (by omega), ← hup]
        exact houtputs
      · rw [hreverse (i + 1) (by omega), ← hdown]
        exact hwires
  · intro k hk wires hwires next hnext
    obtain ⟨hlength, hinputs, hall⟩ := hwires
    have hk' : k < n := by simpa using hk
    have hget : circuit.layers.reverse.zipIdx[k] =
        (circuit.layers[n - 1 - k], k) := by
      simp [hn]
    rw [hget] at hnext
    have hrest (num : Nat) (hnum : num = circuit.nextLayerNumWires (n - 1 - k)) :
        Ensures (do
          let layerWires ← index wires k
          let gateOutputs ← circuit.evaluateLayer circuit.layers[n - 1 - k] k
            layerWires num
          pure (wires ++ [gateOutputs]))
          fun next => ∃ outputs layerWires,
            next = wires ++ [outputs] ∧ wires[k]? = some layerWires ∧
            outputs.length = circuit.nextLayerNumWires (n - 1 - k) ∧
            circuit.GatesHold circuit.layers[n - 1 - k] layerWires outputs := by
      refine (Ensures.of_index wires k).bind fun layerWires hlayerWires => ?_
      refine (circuit.evaluateLayer_ensures _ k layerWires num).bind
        fun outputs houtputs => ?_
      exact Ensures.pure ⟨outputs, layerWires, rfl, hlayerWires,
        houtputs.1.trans hnum, houtputs.2⟩
    have hstep : ∃ outputs layerWires,
        next = wires ++ [outputs] ∧ wires[k]? = some layerWires ∧
        outputs.length = circuit.nextLayerNumWires (n - 1 - k) ∧
        circuit.GatesHold circuit.layers[n - 1 - k] layerWires outputs := by
      simp only at hnext
      split at hnext
      · next heq =>
          have hzero : n - 1 - k = 0 := by omega
          refine hrest circuit.numOutputs ?_ next hnext
          rw [hzero]
          rfl
      · next hne =>
          obtain ⟨position, hposition, hnext⟩ := Exec.bind_eq_ok.mp hnext
          obtain ⟨-, rfl⟩ := checkedSub_eq_ok.mp hposition
          obtain ⟨position, hposition, hnext⟩ := Exec.bind_eq_ok.mp hnext
          obtain ⟨-, rfl⟩ := checkedSub_eq_ok.mp hposition
          obtain ⟨above, habove, hnext⟩ := Exec.bind_eq_ok.mp hnext
          obtain ⟨hlt, rfl⟩ :=
            List.getElem?_eq_some_iff.mp (index_eq_ok.mp habove)
          have hsucc : n - 1 - k - 1 + 1 = n - 1 - k := by omega
          have hnums := nextLayerNumWires_succ hlt
          rw [hsucc] at hnums
          exact hrest _ hnums.symm next hnext
    obtain ⟨outputs, layerWires, rfl, hlayerWires, hsize, hgates⟩ := hstep
    refine ⟨by simp [hlength], ?_, fun j hj hi => ?_⟩
    · rw [List.getElem?_append_left (by omega)]
      exact hinputs
    · rcases Nat.lt_succ_iff_lt_or_eq.mp hj with hlt | rfl
      · obtain ⟨o, w, ho, hw, hrest⟩ := hall j hlt hi
        refine ⟨o, w, ?_, ?_, hrest⟩
        · rw [List.getElem?_append_left (by omega)]
          exact ho
        · rw [List.getElem?_append_left (by omega)]
          exact hw
      · refine ⟨outputs, layerWires, ?_, ?_, hsize, hgates⟩
        · rw [List.getElem?_append_right (by omega), hlength, Nat.sub_self]
          rfl
        · rw [List.getElem?_append_left (by omega)]
          exact hlayerWires

end Circuit

end Longfellow
