/-
The invariants that are asserted of a circuit, and what makes a circuit that
satisfies them well-formed.
-/
import Longfellow.CircuitId

namespace Longfellow

open Exec SparseQuadElement

namespace Circuit

section Check

variable {F : Type} [Field F] [DecidableEq F]

/-- The gates of a layer so far that get contributions from Q, and from Z. -/
structure QuadGates where
  qQuadGates : List Nat
  zQuadGates : List Nat

/-- The number of outputs of a layer: the outputs of the circuit, or the wires
of the layer before it. -/
def numWiresAfter (circuit : Circuit F) : Nat → Exec Nat
  | 0 => pure circuit.numOutputs
  | layerIndex + 1 => do
      let next ← index circuit.layers layerIndex
      pure next.numWires

/-- Check one quad, and note its gate. -/
def checkQuad (circuit : Circuit F) (layer : CircuitLayer) (layerIndex : Nat)
    (gates : QuadGates) (quad : Quad) : Exec QuadGates := do
  assert (quad.leftWireIndex < layer.numWires)
    "assertion failed: quad.left_wire_index < layer.num_wires()"
  assert (quad.rightWireIndex < layer.numWires)
    "assertion failed: quad.right_wire_index < layer.num_wires()"
  assert (quad.constTableIndex < circuit.constantTable.length)
    "assertion failed: quad.const_table_index < self.constant_table.len()"
  let nextLayerNumWires ← circuit.numWiresAfter layerIndex
  assert (quad.gateIndex < nextLayerNumWires)
    "gate number exceeding the number of input wires on the next layer"
  let quadValue ← unwrap (circuit.constant quad.constTableIndex)
  pure (if quadValue = 0 then
      { gates with zQuadGates := gates.zQuadGates.insert quad.gateIndex }
    else { gates with qQuadGates := gates.qQuadGates.insert quad.gateIndex })

/-- Check one layer. -/
def checkLayer (circuit : Circuit F) (layer : CircuitLayer)
    (layerIndex : Nat) : Exec Unit := do
  let gates ← layer.quads.foldlM (circuit.checkQuad layer layerIndex) ⟨[], []⟩
  let intersection := gates.qQuadGates.filter (· ∈ gates.zQuadGates)
  assert (intersection = []) "Q and Z quads intersect"
  let combinedQuad ← unwrap (circuit.combinedQuad layerIndex 1)
  let sorted ← isSorted combinedQuad.contents
  assert (sorted = true)
    "assertion failed: combined_quad.contents().is_sorted()"

/-- Check the number of layers, if a depth is expected. -/
def checkDepth (circuit : Circuit F) : Option Nat → Exec Unit
  | some expectedDepth => do
      let numLayers ← checkedSub expectedDepth 1
      assert (numLayers = circuit.numLayers) "assertion `left == right` failed"
      assert (numLayers = circuit.layers.length)
        "assertion `left == right` failed"
  | none => pure ()

/-- Check the number of quads, if one is expected. -/
def checkQuadsCount (quadsCount : Nat) : Option Nat → Exec Unit
  | some expectedQuads =>
      assert (expectedQuads = quadsCount) "assertion `left == right` failed"
  | none => pure ()

/-- Check the invariants of a circuit, and the depth and the number of quads
that are expected of it. -/
def checkInvariants [CodecFieldElement F] [Primitives] (circuit : Circuit F)
    (expectedDepth expectedQuads : Option Nat) : Exec Unit := do
  circuit.checkDepth expectedDepth
  let quadsCount ← circuit.layers.zipIdx.foldlM
    (fun quadsCount (layer, layerIndex) => do
      circuit.checkLayer layer layerIndex
      pure (quadsCount + layer.quads.length))
    0
  checkQuadsCount quadsCount expectedQuads
  let id ← unwrap circuit.circuitId
  assert (circuit.id = id) "encoded circuit ID does not match computed"

variable {circuit : Circuit F}

theorem checkQuad_ensures {layer : CircuitLayer} {i : Nat}
    {gates : QuadGates} {quad : Quad} :
    Ensures (circuit.checkQuad layer i gates quad) fun next =>
      (quad.leftWireIndex < layer.numWires ∧
        quad.rightWireIndex < layer.numWires ∧
        quad.constTableIndex < circuit.constantTable.length ∧
        quad.gateIndex < circuit.nextLayerNumWires i) ∧
      (∀ gate, gate ∈ next.zQuadGates ↔ gate ∈ gates.zQuadGates ∨
        (gate = quad.gateIndex ∧ circuit.quadValue quad = 0)) ∧
      ∀ gate, gate ∈ next.qQuadGates ↔ gate ∈ gates.qQuadGates ∨
        (gate = quad.gateIndex ∧ circuit.quadValue quad ≠ 0) := by
  intro next hnext
  obtain ⟨_, hleft, hnext⟩ := Exec.bind_eq_ok.mp hnext
  obtain ⟨_, hright, hnext⟩ := Exec.bind_eq_ok.mp hnext
  obtain ⟨_, hconst, hnext⟩ := Exec.bind_eq_ok.mp hnext
  obtain ⟨count, hcount, hnext⟩ := Exec.bind_eq_ok.mp hnext
  obtain ⟨_, hgate, hnext⟩ := Exec.bind_eq_ok.mp hnext
  obtain ⟨value, hvalue, hnext⟩ := Exec.bind_eq_ok.mp hnext
  have hleft := assert_eq_ok.mp hleft
  have hright := assert_eq_ok.mp hright
  have hconst := assert_eq_ok.mp hconst
  have hgate := assert_eq_ok.mp hgate
  have hcount : count = circuit.nextLayerNumWires i := by
    cases i with
    | zero =>
        cases hcount
        rfl
    | succ i =>
        obtain ⟨next, hindex, hcount⟩ := Exec.bind_eq_ok.mp hcount
        cases hcount
        have hget := index_eq_ok.mp hindex
        obtain ⟨hi, rfl⟩ := List.getElem?_eq_some_iff.mp hget
        exact (nextLayerNumWires_succ hi).symm
  have hvalue : value = circuit.quadValue quad := by
    have hvalue := unwrap_eq_ok.mp hvalue
    rw [constant, List.getElem?_eq_getElem hconst] at hvalue
    cases hvalue
    rw [quadValue, List.getD_eq_getElem?_getD,
      List.getElem?_eq_getElem hconst]
    rfl
  subst hcount hvalue
  refine ⟨⟨hleft, hright, hconst, hgate⟩, ?_⟩
  cases hnext
  by_cases hzero : circuit.quadValue quad = 0
  · simp [hzero, or_comm]
  · simp [hzero, or_comm]

/-- What the gates of the quads of a layer are, so far. -/
theorem checkQuads_ensures (layer : CircuitLayer) (i : Nat) :
    Ensures (layer.quads.foldlM (circuit.checkQuad layer i) ⟨[], []⟩)
      fun gates => ∀ quad ∈ layer.quads,
        (quad.leftWireIndex < layer.numWires ∧
          quad.rightWireIndex < layer.numWires ∧
          quad.constTableIndex < circuit.constantTable.length ∧
          quad.gateIndex < circuit.nextLayerNumWires i) ∧
        (circuit.quadValue quad = 0 → quad.gateIndex ∈ gates.zQuadGates) ∧
        (circuit.quadValue quad ≠ 0 → quad.gateIndex ∈ gates.qQuadGates) := by
  have hrule := Ensures.foldlM (f := circuit.checkQuad layer i)
    (I := fun k gates => ∀ j (hj : j < layer.quads.length), j < k →
      (layer.quads[j].leftWireIndex < layer.numWires ∧
        layer.quads[j].rightWireIndex < layer.numWires ∧
        layer.quads[j].constTableIndex < circuit.constantTable.length ∧
        layer.quads[j].gateIndex < circuit.nextLayerNumWires i) ∧
      (circuit.quadValue layer.quads[j] = 0 →
        layer.quads[j].gateIndex ∈ gates.zQuadGates) ∧
      (circuit.quadValue layer.quads[j] ≠ 0 →
        layer.quads[j].gateIndex ∈ gates.qQuadGates))
    layer.quads (s := ⟨[], []⟩) (fun j _ hj => absurd hj (Nat.not_lt_zero j))
    ?_
  · refine hrule.mono fun gates hgates quad hquad => ?_
    obtain ⟨j, hj, rfl⟩ := List.getElem_of_mem hquad
    exact hgates j hj hj
  · intro k hk gates hgates
    refine checkQuad_ensures.mono fun next hnext => ?_
    obtain ⟨hbounds, hz, hq⟩ := hnext
    intro j hj hlt
    rcases Nat.lt_succ_iff_lt_or_eq.mp hlt with hlt | rfl
    · obtain ⟨hbounds', hz', hq'⟩ := hgates j hj hlt
      exact ⟨hbounds', fun hzero => (hz _).mpr (.inl (hz' hzero)),
        fun hne => (hq _).mpr (.inl (hq' hne))⟩
    · exact ⟨hbounds, fun hzero => (hz _).mpr (.inr ⟨rfl, hzero⟩),
        fun hne => (hq _).mpr (.inr ⟨rfl, hne⟩)⟩

/-- A layer that is checked satisfies its invariants, but for what the check
leaves out. -/
theorem checkLayer_ensures {layer : CircuitLayer} {i : Nat}
    (hget : circuit.layers[i]? = some layer) (hquads : layer.quads ≠ [])
    (hwires : layer.numWires ≤ 2 ^ layer.logw)
    (hsize : layer.numWires < 2 ^ 32) :
    Ensures (circuit.checkLayer layer i) fun _ =>
      circuit.LayerInvariants i layer := by
  intro u hu
  obtain ⟨gates, hgates, hu⟩ := Exec.bind_eq_ok.mp hu
  obtain ⟨_, hintersection, hu⟩ := Exec.bind_eq_ok.mp hu
  obtain ⟨combined, hcombined, hu⟩ := Exec.bind_eq_ok.mp hu
  obtain ⟨sorted, hsorted, hu⟩ := Exec.bind_eq_ok.mp hu
  have hgates := checkQuads_ensures layer i gates hgates
  have hintersection := assert_eq_ok.mp hintersection
  have hu := assert_eq_ok.mp hu
  subst hu
  have hcontents : combined.contents = circuit.combinedElements layer 1 := by
    obtain ⟨layer', hlayer, hcombined⟩ :=
      Exec.bind_eq_ok.mp (unwrap_eq_ok.mp hcombined)
    obtain ⟨elements, helements, hcombined⟩ := Exec.bind_eq_ok.mp hcombined
    obtain ⟨_, -, hcombined⟩ := Exec.bind_eq_ok.mp hcombined
    obtain ⟨_, -, hcombined⟩ := Exec.bind_eq_ok.mp hcombined
    obtain ⟨_, -, hcombined⟩ := Exec.bind_eq_ok.mp hcombined
    cases hcombined
    have hlayer := index_eq_ok.mp hlayer
    rw [hget, Option.some_inj] at hlayer
    subst hlayer
    have hmap : (layer.quads.mapM fun quad => do
        let quadValue ← circuit.constant quad.constTableIndex
        pure (combinedElement (1 : F) quad quadValue)) =
        .ok (circuit.combinedElements layer 1) := by
      refine mapM_eq_ok fun quad hquad => ?_
      obtain ⟨⟨-, -, hconst, -⟩, -⟩ := hgates quad hquad
      simp [constant, quadValue, hconst]
    rw [hmap] at helements
    cases helements
    rfl
  have hboth (quad : Quad) (hquad : quad ∈ layer.quads) (other : Quad)
      (hother : other ∈ layer.quads) (hgate : quad.gateIndex = other.gateIndex)
      (hzero : circuit.quadValue quad = 0) : circuit.quadValue other = 0 := by
    by_contra hne
    have hz := (hgates quad hquad).2.1 hzero
    have hq := (hgates other hother).2.2 hne
    rw [hgate] at hz
    have hmem : other.gateIndex ∈
        gates.qQuadGates.filter (· ∈ gates.zQuadGates) :=
      List.mem_filter.mpr ⟨hq, decide_eq_true hz⟩
    rw [hintersection] at hmem
    cases hmem
  exact
    { quads_ne_nil := hquads
      leftWire_lt := fun quad hquad => (hgates quad hquad).1.1
      rightWire_lt := fun quad hquad => (hgates quad hquad).1.2.1
      numWires_le := hwires
      numWires_lt := hsize
      constant_lt := fun quad hquad => (hgates quad hquad).1.2.2.1
      gate_lt := fun quad hquad => (hgates quad hquad).1.2.2.2
      disjoint := fun quad hquad other hother hgate =>
        ⟨hboth quad hquad other hother hgate,
          hboth other hother quad hquad hgate.symm⟩
      isSorted := by rw [← hcontents]; exact hsorted }

/-- A circuit whose invariants were checked is well-formed, if its counts
agree with its layers, every layer has quads and enough bits to name its
wires. -/
theorem checkInvariants_ensures [CodecFieldElement F] [Primitives]
    (hconsistent : circuit.Consistent)
    (hinputs : circuit.numInputs =
      circuit.nextLayerNumWires circuit.layers.length)
    (hquads : ∀ layer ∈ circuit.layers, layer.quads ≠ [])
    (hwires : ∀ layer ∈ circuit.layers, layer.numWires ≤ 2 ^ layer.logw)
    (hsizes : ∀ layer ∈ circuit.layers, layer.numWires < 2 ^ 32)
    (expectedDepth expectedQuads : Option Nat) :
    Ensures (circuit.checkInvariants expectedDepth expectedQuads) fun _ =>
      circuit.WellFormed := by
  have hrule := Ensures.foldlM
    (f := fun (quadsCount : Nat) ((layer, layerIndex) : CircuitLayer × Nat) =>
      do
        circuit.checkLayer layer layerIndex
        pure (quadsCount + layer.quads.length))
    (I := fun k _ => ∀ j (hj : j < circuit.layers.length), j < k →
      circuit.LayerInvariants j circuit.layers[j])
    circuit.layers.zipIdx (s := 0)
    (fun j _ hj => absurd hj (Nat.not_lt_zero j)) ?_
  · rw [List.length_zipIdx] at hrule
    have hlayers : Ensures (circuit.layers.zipIdx.foldlM
        (fun (quadsCount : Nat) ((layer, layerIndex) : CircuitLayer × Nat) =>
          do
            circuit.checkLayer layer layerIndex
            pure (quadsCount + layer.quads.length)) 0) fun _ =>
        circuit.WellFormed :=
      hrule.mono fun _ hall =>
        { toConsistent := hconsistent
          layer_invariants := fun i hi => hall i hi hi
          numInputs_eq := hinputs }
    exact Ensures.trivial.bind fun _ _ => hlayers.bind fun _ hwf _ _ => hwf
  · intro k hk count hcount
    rw [List.getElem_zipIdx, Nat.zero_add]
    rw [List.length_zipIdx] at hk
    have hmem := List.getElem_mem hk
    refine (checkLayer_ensures (List.getElem?_eq_getElem hk)
      (hquads _ hmem) (hwires _ hmem) (hsizes _ hmem)).bind fun _ hlayer => ?_
    refine Ensures.pure fun j hj hlt => ?_
    rcases Nat.lt_succ_iff_lt_or_eq.mp hlt with hlt | rfl
    · exact hcount j hj hlt
    · exact hlayer

end Check

end Circuit

end Longfellow
