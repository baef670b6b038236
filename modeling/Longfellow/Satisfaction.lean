/-
Which inputs satisfy a circuit, by the values of its wires alone, and that
evaluation succeeds exactly on those whose first wire and assertions are right.
-/
import Longfellow.Evaluation

namespace Longfellow

open Exec

namespace Circuit

section Values

variable {F : Type} [Field F] [DecidableEq F]

/-- The outputs of the gates of a layer. -/
def layerOutputs (circuit : Circuit F) (i : Nat) (layer : CircuitLayer)
    (wires : List F) : List F :=
  (List.range (circuit.nextLayerNumWires i)).map
    (circuit.gateSum wires layer.quads)

/-- The wires that some last layers of the circuit drive. -/
def wiresFrom (circuit : Circuit F) (inputs : List F) :
    List CircuitLayer → Nat → List F
  | [], _ => inputs
  | layer :: layers, i =>
      circuit.layerOutputs i layer (circuit.wiresFrom inputs layers (i + 1))

/-- The wires of the circuit before a number of layers: the outputs come
first, the inputs last. -/
def wiresAt (circuit : Circuit F) (inputs : List F) (i : Nat) : List F :=
  circuit.wiresFrom inputs (circuit.layers.drop i) i

/-- The first wire is one, and all assertion gates are zero. -/
structure AssertionsHold (circuit : Circuit F) (inputs : List F) : Prop where
  first_one : element inputs 0 = 1
  gates_zero : ∀ i (hi : i < circuit.layers.length),
    ∀ quad ∈ circuit.layers[i].quads, circuit.quadValue quad = 0 →
      element (circuit.wiresAt inputs i) quad.gateIndex = 0

/-- The inputs satisfy the circuit: all outputs are zero, too. -/
structure Satisfies (circuit : Circuit F) (inputs : List F) : Prop
    extends circuit.AssertionsHold inputs where
  outputs_zero : ∀ output ∈ circuit.wiresAt inputs 0, output = 0

/-- All wires of the circuit. -/
def evaluation (circuit : Circuit F) (inputs : List F) : Evaluation F :=
  ⟨(List.range (circuit.layers.length + 1)).map (circuit.wiresAt inputs)⟩

variable {circuit : Circuit F} {inputs : List F}

theorem wiresAt_length :
    circuit.wiresAt inputs circuit.layers.length = inputs := by
  rw [wiresAt, List.drop_length, wiresFrom]

theorem wiresAt_of_lt {i : Nat} (hi : i < circuit.layers.length) :
    circuit.wiresAt inputs i =
      circuit.layerOutputs i circuit.layers[i]
        (circuit.wiresAt inputs (i + 1)) := by
  rw [wiresAt, List.drop_eq_getElem_cons hi, wiresFrom, wiresAt]

theorem length_wiresAt (hnumInputs : circuit.numInputs =
      circuit.nextLayerNumWires circuit.layers.length)
    (hinputs : inputs.length = circuit.numInputs) {i : Nat}
    (hi : i ≤ circuit.layers.length) :
    (circuit.wiresAt inputs i).length = circuit.nextLayerNumWires i := by
  rcases Nat.lt_or_eq_of_le hi with hlt | rfl
  · rw [wiresAt_of_lt hlt, layerOutputs, List.length_map, List.length_range]
  · rw [wiresAt_length, hinputs, hnumInputs]

/-- The gates of a layer determine its outputs. -/
theorem GatesHold.outputs_eq {layer : CircuitLayer} {wires outputs : List F}
    {i : Nat} (h : circuit.GatesHold layer wires outputs)
    (hlength : outputs.length = circuit.nextLayerNumWires i) :
    outputs = circuit.layerOutputs i layer wires := by
  refine List.ext_getElem (by simp [layerOutputs, hlength]) fun k hk hk' => ?_
  have hgate := h.output_eq k
  rw [element, List.getD_eq_getElem _ _ hk] at hgate
  rw [hgate]
  simp [layerOutputs]

/-- The wires of an evaluation are the values of the circuit. -/
theorem Evaluates.eq_evaluation {evaluation : Evaluation F}
    (h : circuit.Evaluates inputs evaluation) :
    evaluation = circuit.evaluation inputs := by
  have hwires (k i : Nat) (hk : i + k = circuit.layers.length) :
      evaluation.wires[i]? = some (circuit.wiresAt inputs i) := by
    induction k generalizing i with
    | zero =>
        obtain rfl : i = circuit.layers.length := hk
        rw [wiresAt_length]
        exact h.inputs_eq
    | succ k ih =>
        have hi : i < circuit.layers.length := by omega
        obtain ⟨outputs, wires, houtputs, hwires, hlength, hgates⟩ :=
          h.layer_holds i hi
        have hnext := ih (i + 1) (by omega)
        rw [hwires, Option.some_inj] at hnext
        rw [houtputs, wiresAt_of_lt hi, ← hnext, hgates.outputs_eq hlength]
  have hlist : evaluation.wires = (circuit.evaluation inputs).wires := by
    refine List.ext_getElem? fun i => ?_
    by_cases hi : i ≤ circuit.layers.length
    · rw [hwires (circuit.layers.length - i) i (by omega)]
      simp [Circuit.evaluation, Nat.lt_succ_of_le hi]
    · rw [List.getElem?_eq_none (by rw [h.length_wires]; omega),
        List.getElem?_eq_none (by simp [Circuit.evaluation]; omega)]
  cases evaluation
  exact congrArg Evaluation.mk hlist

/-- The assertion gates of an evaluation are zero. -/
theorem Evaluates.gates_zero {evaluation : Evaluation F}
    (h : circuit.Evaluates inputs evaluation) {i : Nat}
    (hi : i < circuit.layers.length) {quad : Quad}
    (hquad : quad ∈ circuit.layers[i].quads)
    (hzero : circuit.quadValue quad = 0) :
    element (circuit.wiresAt inputs i) quad.gateIndex = 0 := by
  obtain ⟨outputs, wires, houtputs, -, -, hgates⟩ := h.layer_holds i hi
  have houtputs' : (circuit.evaluation inputs).wires[i]? = some outputs :=
    h.eq_evaluation ▸ houtputs
  have hvalue : outputs = circuit.wiresAt inputs i := by
    have hi' : i < circuit.layers.length + 1 := Nat.lt_succ_of_lt hi
    simp only [Circuit.evaluation, List.getElem?_map, List.getElem?_range hi',
      Option.map_some, Option.some_inj] at houtputs'
    exact houtputs'.symm
  rw [← hvalue]
  exact hgates.asserted_zero quad hquad hzero

end Values

section Layer

variable {F : Type} [Field F] [DecidableEq F] {circuit : Circuit F}

/-- A quad whose indices are in range is evaluated, and only a Z quad adds to
the gates that are checked. -/
theorem evaluateQuad_returns {wires : List F} {n : Nat} {quad : Quad}
    (hleft : quad.leftWireIndex < wires.length)
    (hright : quad.rightWireIndex < wires.length)
    (hconst : quad.constTableIndex < circuit.constantTable.length)
    (hgate : quad.gateIndex < n) {state : GateState F}
    (hlength : state.gateOutputs.length = n) :
    Returns (circuit.evaluateQuad wires n state quad) fun next =>
      ∀ gate ∈ next.zGateIndexes, gate ∈ state.zGateIndexes ∨
        (gate = quad.gateIndex ∧ circuit.quadValue quad = 0) := by
  have hvalue : circuit.quadValue quad =
      circuit.constantTable[quad.constTableIndex] := by
    rw [quadValue, List.getD_eq_getElem _ _ hconst]
  have hgate' : quad.gateIndex < state.gateOutputs.length := by
    rw [hlength]
    exact hgate
  rw [evaluateQuad, constant, List.getElem?_eq_getElem hconst,
    List.getElem?_eq_getElem hleft, List.getElem?_eq_getElem hright]
  simp only [pure_eq_ok, ok_bind, assert_of hgate, update_of_lt hgate']
  refine Returns.of_eq rfl fun gate hmem => ?_
  simp only [← hvalue] at hmem
  split at hmem
  · next hzero =>
      rcases List.mem_insert_iff.mp hmem with rfl | hmem
      · exact .inr ⟨rfl, hzero⟩
      · exact .inl hmem
  · exact .inl hmem

/-- The checks of a list of gates: they pass if all of them are zero. -/
theorem checkGates_returns {outputs : List F} {message : Nat → String}
    {gates : List Nat} (h : ∀ gate ∈ gates, outputs[gate]? = some 0) :
    (gates.forM fun gate => do
      let output ← index outputs gate
      ensure (output = 0) (message gate) : Exec PUnit) = .ok ⟨⟩ := by
  induction gates with
  | nil => rfl
  | cons gate gates ih =>
      have hgate := index_eq_ok.mpr (h gate List.mem_cons_self)
      rw [List.forM_eq_forM, List.forM_cons, hgate, ok_bind, ensure_of rfl,
        ok_bind]
      exact ih fun other hother => h other (List.mem_cons_of_mem gate hother)

/-- The checks of a list of gates do not panic. -/
theorem checkGates_safe {outputs : List F} {message : Nat → String}
    {gates : List Nat} (h : ∀ gate ∈ gates, gate < outputs.length) :
    Safe (gates.forM fun gate => do
      let output ← index outputs gate
      ensure (output = 0) (message gate) : Exec PUnit) fun _ => True := by
  induction gates with
  | nil => trivial
  | cons gate gates ih =>
      rw [List.forM_eq_forM, List.forM_cons,
        index_of_lt (h gate List.mem_cons_self), ok_bind]
      refine safe_ensure.bind fun _ _ => ?_
      exact ih fun other hother => h other (List.mem_cons_of_mem gate hother)

/-- The quads of a layer are evaluated. -/
theorem evaluateQuads_returns {layer : CircuitLayer} {wires : List F}
    {i : Nat} (h : circuit.LayerBounds i layer)
    (hwires : wires.length = layer.numWires) :
    Returns (layer.quads.foldlM
      (circuit.evaluateQuad wires (circuit.nextLayerNumWires i))
      ⟨List.replicate (circuit.nextLayerNumWires i) 0, []⟩) fun state =>
        state.gateOutputs.length = circuit.nextLayerNumWires i ∧
        ∀ gate ∈ state.zGateIndexes, ∃ quad ∈ layer.quads,
          gate = quad.gateIndex ∧ circuit.quadValue quad = 0 := by
  refine Returns.foldlM
    (I := fun _ (state : GateState F) =>
      state.gateOutputs.length = circuit.nextLayerNumWires i ∧
      ∀ gate ∈ state.zGateIndexes, ∃ quad ∈ layer.quads,
        gate = quad.gateIndex ∧ circuit.quadValue quad = 0)
    layer.quads ⟨List.length_replicate, by simp⟩ ?_
  rintro k hk state ⟨hlength, hgates⟩
  have hmem : layer.quads[k] ∈ layer.quads := List.getElem_mem hk
  have hquad := evaluateQuad_returns
    (hwires ▸ h.leftWire_lt _ hmem) (hwires ▸ h.rightWire_lt _ hmem)
    (h.constant_lt _ hmem) (h.gate_lt _ hmem) hlength
  refine (hquad.and_ensures (evaluateQuad_ensures circuit wires _ _ _)).mono
    fun next hnext => ?_
  obtain ⟨hnew, -, -, hsame, -⟩ := hnext
  refine ⟨hsame.trans hlength, fun gate hgate => ?_⟩
  rcases hnew gate hgate with hold | ⟨hgate, hzero⟩
  · exact hgates gate hold
  · exact ⟨_, hmem, hgate, hzero⟩

/-- A layer is evaluated, and its assertions are checked without a panic. -/
theorem evaluateLayer_safe {layer : CircuitLayer} {wires : List F}
    {i : Nat} (h : circuit.LayerBounds i layer)
    (hwires : wires.length = layer.numWires) (layerIndex : Nat) :
    Safe (circuit.evaluateLayer layer layerIndex wires
      (circuit.nextLayerNumWires i))
      (· = circuit.layerOutputs i layer wires) := by
  have hsafe : Safe (circuit.evaluateLayer layer layerIndex wires
      (circuit.nextLayerNumWires i)) fun _ => True := by
    refine (evaluateQuads_returns h hwires).safe.bind fun state hstate => ?_
    obtain ⟨hlength, hgates⟩ := hstate
    refine (checkGates_safe fun gate hgate => ?_).bind fun _ _ => trivial
    obtain ⟨quad, hquad, rfl, -⟩ := hgates gate hgate
    rw [hlength]
    exact h.gate_lt quad hquad
  rw [safe_iff]
  refine ⟨fun outputs houtputs => ?_, (safe_iff.mp hsafe).2⟩
  obtain ⟨hlength, hholds⟩ := evaluateLayer_ensures _ _ _ _ _ _ houtputs
  exact hholds.outputs_eq hlength

/-- A layer whose assertions hold is evaluated. -/
theorem evaluateLayer_returns {layer : CircuitLayer} {wires : List F}
    {i : Nat} (h : circuit.LayerBounds i layer)
    (hwires : wires.length = layer.numWires)
    (hzero : ∀ quad ∈ layer.quads, circuit.quadValue quad = 0 →
      element (circuit.layerOutputs i layer wires) quad.gateIndex = 0)
    (layerIndex : Nat) :
    Returns (circuit.evaluateLayer layer layerIndex wires
      (circuit.nextLayerNumWires i))
      (· = circuit.layerOutputs i layer wires) := by
  have hquads := (evaluateQuads_returns h hwires).and_ensures
    (evaluateQuads_ensures circuit layer wires _)
  have hensures := (evaluateLayer_safe h hwires layerIndex).ensures
  suffices hreturns : Returns (circuit.evaluateLayer layer layerIndex wires
      (circuit.nextLayerNumWires i)) fun _ => True from
    (hreturns.and_ensures hensures).mono fun _ h => h.2
  refine hquads.bind fun state hstate => ?_
  obtain ⟨⟨hlength, hgates⟩, -, houtput, -⟩ := hstate
  rw [checkGates_returns fun gate hgate => ?_]
  · exact Returns.of_eq rfl trivial
  · obtain ⟨quad, hquad, rfl, hvalue⟩ := hgates gate hgate
    have hlt := h.gate_lt quad hquad
    have hlt' : quad.gateIndex < state.gateOutputs.length := hlength ▸ hlt
    have hsum : circuit.gateSum wires layer.quads quad.gateIndex = 0 := by
      rw [← hzero quad hquad hvalue]
      simp [element, layerOutputs, hlt]
    have hgate := houtput quad.gateIndex
    rw [hsum, element, List.getD_eq_getElem _ _ hlt'] at hgate
    rw [List.getElem?_eq_getElem hlt', hgate]

end Layer

section Evaluate

variable {F : Type} [Field F] [DecidableEq F] {circuit : Circuit F}
  {inputs : List F}

/-- The first wire is one. -/
theorem WellFormed.numInputs_pos (hwf : circuit.WellFormed) :
    0 < circuit.numInputs := by
  have hpos := List.length_pos_iff.mpr hwf.layers_ne_nil
  have hlt : circuit.layers.length - 1 < circuit.layers.length := by omega
  have hlayer := hwf.layer_invariants _ hlt
  obtain ⟨quad, hquad⟩ := List.exists_mem_of_ne_nil _ hlayer.quads_ne_nil
  have hnext := nextLayerNumWires_succ hlt
  rw [Nat.sub_add_cancel hpos] at hnext
  rw [hwf.numInputs_eq, hnext]
  exact Nat.zero_lt_of_lt (hlayer.leftWire_lt quad hquad)

/-- What holds of the evaluation of every layer on the values of its wires
holds of the evaluation of the circuit, after the check of the first wire. -/
theorem evaluate_holds (J : Judgement) (hwf : circuit.WellFormed)
    (hinputs : inputs.length = circuit.numInputs)
    (hfirst : element inputs 0 = 1)
    (hlayer : ∀ i (hi : i < circuit.layers.length) layerIndex,
      J.holds (circuit.evaluateLayer circuit.layers[i] layerIndex
          (circuit.wiresAt inputs (i + 1)) (circuit.nextLayerNumWires i))
        (· = circuit.layerOutputs i circuit.layers[i]
          (circuit.wiresAt inputs (i + 1)))) :
    J.holds (circuit.evaluate inputs) (· = circuit.evaluation inputs) := by
  have hpos := List.length_pos_iff.mpr hwf.layers_ne_nil
  have hinputs' : 0 < inputs.length := hinputs ▸ hwf.numInputs_pos
  rw [element, List.getD_eq_getElem _ _ hinputs'] at hfirst
  rw [evaluate, index_of_lt hinputs', ok_bind, ensure_of hfirst, ok_bind,
    hwf.numLayers_eq, checkedSub_of_le hpos, ok_bind]
  set n := circuit.layers.length with hn
  refine J.bind (J.foldlM
    (I := fun k wires => wires =
      (List.range (k + 1)).map fun j => circuit.wiresAt inputs (n - j))
    circuit.layers.reverse.zipIdx ?_ ?_) ?_
  · rw [List.range_one, List.map_singleton, Nat.sub_zero, hn, wiresAt_length]
  · rintro k hk wires rfl
    have hk' : k < n := by simpa using hk
    have hget : circuit.layers.reverse.zipIdx[k] =
        (circuit.layers[n - 1 - k], k) := by
      simp [hn]
    have hwires : index ((List.range (k + 1)).map fun j =>
        circuit.wiresAt inputs (n - j)) k =
          .ok (circuit.wiresAt inputs (n - 1 - k + 1)) := by
      have hflip : n - k = n - 1 - k + 1 := by omega
      rw [index_of_lt (by simp), List.getElem_map, List.getElem_range, hflip]
    have hrest (num : Nat) (hnum : num = circuit.nextLayerNumWires (n - 1 - k)) :
        J.holds (do
          let layerWires ← index ((List.range (k + 1)).map fun j =>
            circuit.wiresAt inputs (n - j)) k
          let gateOutputs ← circuit.evaluateLayer circuit.layers[n - 1 - k] k
            layerWires num
          pure ((List.range (k + 1)).map (fun j =>
            circuit.wiresAt inputs (n - j)) ++ [gateOutputs]))
          (· = (List.range (k + 1 + 1)).map fun j =>
            circuit.wiresAt inputs (n - j)) := by
      have hi : n - 1 - k < circuit.layers.length := by omega
      have hflip : n - (k + 1) = n - 1 - k := by omega
      rw [hwires, ok_bind, hnum]
      refine J.bind (hlayer (n - 1 - k) hi k) fun outputs houtputs => ?_
      subst houtputs
      rw [← wiresAt_of_lt hi, List.range_succ (n := k + 1), List.map_append,
        List.map_singleton, hflip]
      exact J.ok rfl
    rw [hget]
    simp only
    split
    · next heq =>
        refine hrest circuit.numOutputs ?_
        rw [heq, Nat.sub_self]
        rfl
    · next hne =>
        have hlt : n - 1 - k - 1 < circuit.layers.length := by omega
        have hsucc : n - 1 - k = n - 1 - k - 1 + 1 := by omega
        rw [checkedSub_of_le (by omega), ok_bind, checkedSub_of_le (by omega),
          ok_bind, index_of_lt hlt, ok_bind]
        refine hrest _ ?_
        rw [← nextLayerNumWires_succ hlt, ← hsucc]
  · rw [List.length_zipIdx, List.length_reverse, ← hn]
    refine fun wires hwires => J.ok ?_
    subst hwires
    rw [Circuit.evaluation, ← hn]
    congr 1
    refine List.ext_getElem (by simp) fun i hi hi' => ?_
    simp only [List.length_reverse, List.length_map, List.length_range] at hi
    simp only [List.getElem_reverse, List.getElem_map, List.getElem_range,
      List.length_map, List.length_range]
    congr 1
    omega

theorem WellFormed.length_wiresAt_succ (hwf : circuit.WellFormed)
    (hinputs : inputs.length = circuit.numInputs) {i : Nat}
    (hi : i < circuit.layers.length) :
    (circuit.wiresAt inputs (i + 1)).length = circuit.layers[i].numWires := by
  rw [length_wiresAt hwf.numInputs_eq hinputs hi, nextLayerNumWires_succ hi]

/-- Evaluation succeeds exactly if the first wire is one and the assertions
hold, and it hands an error back otherwise. -/
theorem evaluate_eq_ok_iff (hwf : circuit.WellFormed)
    (hinputs : inputs.length = circuit.numInputs) {evaluation : Evaluation F} :
    circuit.evaluate inputs = .ok evaluation ↔
      circuit.AssertionsHold inputs ∧
        evaluation = circuit.evaluation inputs := by
  constructor
  · intro h
    have hevaluates := evaluate_ensures hwf.numLayers_eq inputs evaluation h
    refine ⟨⟨?_, fun i hi quad hquad hzero =>
      hevaluates.gates_zero hi hquad hzero⟩, hevaluates.eq_evaluation⟩
    obtain ⟨first, hfirst, h⟩ := Exec.bind_eq_ok.mp h
    obtain ⟨_, hone, -⟩ := Exec.bind_eq_ok.mp h
    rw [element, List.getD_eq_getElem?_getD, index_eq_ok.mp hfirst,
      ensure_eq_ok.mp hone]
    rfl
  · rintro ⟨hassertions, rfl⟩
    obtain ⟨evaluation, hevaluate, rfl⟩ := evaluate_holds Judgement.returns hwf
      hinputs hassertions.first_one fun i hi layerIndex =>
        evaluateLayer_returns (hwf.layer_invariants i hi).toLayerBounds
          (hwf.length_wiresAt_succ hinputs hi)
          (by
            rw [← wiresAt_of_lt hi]
            exact hassertions.gates_zero i hi)
          layerIndex
    exact hevaluate

/-- Evaluation hands an error back if the first wire is not one, or an
assertion does not hold. -/
theorem evaluate_fails (hwf : circuit.WellFormed)
    (hinputs : inputs.length = circuit.numInputs)
    (h : ¬ circuit.AssertionsHold inputs) :
    ∃ message, circuit.evaluate inputs = .error (.error message) := by
  have hsafe : Safe (circuit.evaluate inputs) fun _ => True := by
    by_cases hfirst : element inputs 0 = 1
    · refine (evaluate_holds Judgement.safe hwf hinputs hfirst
        fun i hi layerIndex => evaluateLayer_safe
          (hwf.layer_invariants i hi).toLayerBounds
          (hwf.length_wiresAt_succ hinputs hi) layerIndex).mono
        fun _ _ => trivial
    · have hinputs' : 0 < inputs.length := hinputs ▸ hwf.numInputs_pos
      rw [element, List.getD_eq_getElem _ _ hinputs'] at hfirst
      rw [evaluate, index_of_lt hinputs', ok_bind, ensure, if_neg hfirst]
      trivial
  rcases hresult : circuit.evaluate inputs with (message | message) | evaluation
  · exact ⟨message, rfl⟩
  · rw [hresult] at hsafe
    exact hsafe.elim
  · exact absurd ((evaluate_eq_ok_iff hwf hinputs).mp hresult).1 h

end Evaluate

end Circuit

end Longfellow
