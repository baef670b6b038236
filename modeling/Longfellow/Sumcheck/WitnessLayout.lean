/-
The layout of the witness vector as a partition: the indices of the private
inputs, of the polynomials and of the wires are the indices of the vector, each
of them once, and the vector is filled in their order.
-/
import Longfellow.Sumcheck.Pads

namespace Longfellow

open Exec

namespace WitnessLayout

/-- Indices of the witnesses at a layer: those for the polynomials of each
round and hand, then those for the wires. -/
def layerWitnessIndices (layout : WitnessLayout) (layer : Nat) :
    Exec (List Nat) := do
  let logw ← index layout.logw layer
  let polynomials ← (List.range logw).mapM fun round => do
    let (left0, left2) ← layout.polynomialWitnessIndices layer round .left
    let (right0, right2) ← layout.polynomialWitnessIndices layer round .right
    pure [left0, left2, right0, right2]
  let (vl, vr, vlVr) ← layout.wireWitnessIndices layer
  pure (polynomials.flatten ++ [vl, vr, vlVr])

/-- Indices of all the witnesses. -/
def witnessIndices (layout : WitnessLayout) : Exec (List Nat) := do
  let layers ← (List.range layout.logw.length).mapM layout.layerWitnessIndices
  pure (layout.privateInputWitnessIndices ++ layers.flatten)

end WitnessLayout

section Indices

variable {layout : WitnessLayout}

theorem polynomialWitnessIndices_eq_ok {layer round : Nat}
    (hlayer : layer < layout.logw.length) (hround : round < layout.logw[layer])
    (hand : Hand) :
    layout.polynomialWitnessIndices layer round hand =
      .ok (layout.polynomialStart layer round hand,
        layout.polynomialStart layer round hand + 1) := by
  rw [WitnessLayout.polynomialWitnessIndices, assert_of hlayer, ok_bind,
    index_of_lt hlayer, ok_bind, assert_of hround, ok_bind]
  rfl

theorem wireWitnessIndices_eq_ok {layer : Nat}
    (hlayer : layer < layout.logw.length) :
    layout.wireWitnessIndices layer =
      .ok (layout.wireStart layer, layout.wireStart layer + 1,
        layout.wireStart layer + 2) := by
  rw [WitnessLayout.wireWitnessIndices, assert_of hlayer, ok_bind]
  rfl

theorem polynomialStart_eq_base (layout : WitnessLayout) (layer round : Nat)
    (hand : Hand) :
    layout.polynomialStart layer round hand =
      Sumcheck.polynomialBase layout layer + (4 * round + 2 * hand.toNat) := by
  rw [WitnessLayout.polynomialStart, Sumcheck.polynomialBase]
  ring

theorem flatMap_range_four (base n : Nat) :
    (List.range n).flatMap (fun round =>
      [base + 4 * round, base + 4 * round + 1, base + 4 * round + 2,
        base + 4 * round + 3]) = List.range' base (4 * n) := by
  induction n with
  | zero => rfl
  | succ n ih =>
      rw [List.range_succ, List.flatMap_append, ih, Nat.mul_succ,
        ← List.range'_append_1]
      rfl

/-- The indices at a layer follow its base, without a gap. -/
theorem layerWitnessIndices_eq_ok {layer : Nat}
    (hlayer : layer < layout.logw.length) :
    layout.layerWitnessIndices layer =
      .ok (List.range' (Sumcheck.polynomialBase layout layer)
        (4 * layout.logw[layer] + 3)) := by
  have hrounds : (List.range layout.logw[layer]).mapM (fun round => do
      let (left0, left2) ← layout.polynomialWitnessIndices layer round .left
      let (right0, right2) ←
        layout.polynomialWitnessIndices layer round .right
      pure [left0, left2, right0, right2]) =
        Except.ok (ε := Fault) ((List.range layout.logw[layer]).map fun round =>
          [Sumcheck.polynomialBase layout layer + 4 * round,
            Sumcheck.polynomialBase layout layer + 4 * round + 1,
            Sumcheck.polynomialBase layout layer + 4 * round + 2,
            Sumcheck.polynomialBase layout layer + 4 * round + 3]) := by
    apply mapM_eq_ok
    intro round hround
    have hround := List.mem_range.mp hround
    simp only [polynomialWitnessIndices_eq_ok hlayer hround, ok_bind,
      polynomialStart_eq_base]
    rfl
  rw [WitnessLayout.layerWitnessIndices, index_of_lt hlayer, ok_bind, hrounds,
    ok_bind, wireWitnessIndices_eq_ok hlayer, ok_bind,
    Sumcheck.wireStart_eq hlayer, ← List.flatMap_def, flatMap_range_four,
    ← List.range'_append_1]
  rfl

theorem polynomialBase_succ {layer : Nat}
    (hlayer : layer < layout.logw.length) :
    Sumcheck.polynomialBase layout (layer + 1) =
      Sumcheck.polynomialBase layout layer +
        (4 * layout.logw[layer] + 3) := by
  rw [Sumcheck.polynomialBase, Sumcheck.polynomialBase,
    Sumcheck.sum_take_succ hlayer]
  ring

/-- The indices of the layers below one, one layer after the other. -/
theorem layersWitnessIndices_eq_ok {n : Nat} (hn : n ≤ layout.logw.length) :
    ∃ layers, (List.range n).mapM layout.layerWitnessIndices = .ok layers ∧
      layers.flatten = List.range' layout.numPrivateInputs
        (Sumcheck.polynomialBase layout n - layout.numPrivateInputs) := by
  induction n with
  | zero =>
      refine ⟨[], rfl, ?_⟩
      rw [Sumcheck.polynomialBase]
      simp
  | succ n ih =>
      obtain ⟨layers, hlayers, hflatten⟩ := ih (Nat.le_of_succ_le hn)
      have hbase : layout.numPrivateInputs ≤
          Sumcheck.polynomialBase layout n := by
        rw [Sumcheck.polynomialBase]
        omega
      have hsum : Sumcheck.polynomialBase layout (n + 1) -
          layout.numPrivateInputs =
            (Sumcheck.polynomialBase layout n - layout.numPrivateInputs) +
              (4 * layout.logw[n] + 3) := by
        rw [polynomialBase_succ hn]
        omega
      have hstart : layout.numPrivateInputs +
          (Sumcheck.polynomialBase layout n - layout.numPrivateInputs) =
            Sumcheck.polynomialBase layout n := by
        omega
      refine ⟨layers ++ [List.range' (Sumcheck.polynomialBase layout n)
        (4 * layout.logw[n] + 3)], ?_, ?_⟩
      · rw [List.range_succ, List.mapM_append, hlayers, ok_bind,
          List.mapM_cons, layerWitnessIndices_eq_ok hn]
        rfl
      · have happend := List.range'_append_1 (s := layout.numPrivateInputs)
          (m := Sumcheck.polynomialBase layout n - layout.numPrivateInputs)
          (n := 4 * layout.logw[n] + 3)
        rw [hstart] at happend
        rw [List.flatten_append, hflatten, List.flatten_singleton, hsum, happend]

/-- Every index of the vector is the index of one witness. -/
theorem witnessIndices_eq_range (layout : WitnessLayout) :
    layout.witnessIndices = .ok (List.range layout.length) := by
  obtain ⟨layers, hlayers, hflatten⟩ :=
    layersWitnessIndices_eq_ok (Nat.le_refl layout.logw.length)
  have hlength : layout.length = layout.numPrivateInputs +
      (Sumcheck.polynomialBase layout layout.logw.length -
        layout.numPrivateInputs) := by
    rw [Sumcheck.polynomialBase, List.take_length, WitnessLayout.length]
    omega
  rw [WitnessLayout.witnessIndices, hlayers, ok_bind, hflatten,
    WitnessLayout.privateInputWitnessIndices, hlength, List.range_add,
    List.range'_eq_map_range]
  rfl

theorem quadraticConstraints_eq_ok {F : Type} {circuit : Circuit F}
    {constraints : List QuadraticConstraint}
    (h : quadraticConstraints circuit layout = .ok constraints) :
    ∀ constraint ∈ constraints, ∃ layer, layer < layout.logw.length ∧
      constraint = ⟨layout.wireStart layer, layout.wireStart layer + 1,
        layout.wireStart layer + 2⟩ := by
  rw [quadraticConstraints] at h
  generalize List.range circuit.numLayers = layers at h
  induction layers generalizing constraints with
  | nil =>
      cases h
      simp
  | cons layer layers ih =>
      rw [List.mapM_cons] at h
      obtain ⟨first, hfirst, h⟩ := Exec.bind_eq_ok.mp h
      obtain ⟨rest, hrest, h⟩ := Exec.bind_eq_ok.mp h
      cases h
      obtain ⟨indices, hindices, hvalue⟩ := Exec.bind_eq_ok.mp hfirst
      obtain ⟨_, hlayer, _⟩ := Exec.bind_eq_ok.mp hindices
      have hlayer := assert_eq_ok.mp hlayer
      rw [wireWitnessIndices_eq_ok hlayer] at hindices
      cases hindices
      cases hvalue
      intro constraint hmem
      rcases List.mem_cons.mp hmem with rfl | hmem
      · exact ⟨layer, hlayer, rfl⟩
      · exact ih hrest constraint hmem

theorem quadraticConstraints_returns {F : Type} {circuit : Circuit F}
    (hlayers : circuit.numLayers ≤ layout.logw.length) :
    ∃ constraints, quadraticConstraints circuit layout = .ok constraints := by
  refine ⟨_, mapM_eq_ok (g := fun layer => (⟨layout.wireStart layer,
    layout.wireStart layer + 1, layout.wireStart layer + 2⟩ :
      QuadraticConstraint)) fun layer hlayer => ?_⟩
  have hlayer := (List.mem_range.mp hlayer).trans_le hlayers
  rw [wireWitnessIndices_eq_ok hlayer]
  rfl

end Indices

section Pads

variable {F σ : Type} [Field F] (padGenerator : σ → F × σ)

/-- The value that the generator gives after `n` others. -/
def padDraw (s : σ) (n : Nat) : F :=
  (padGenerator (Witness.draws padGenerator n s).2).1

/-- How many values are generated before those of a layer: four for each round
of the layers before it, and two for the wires of each. -/
def drawsBefore (layout : WitnessLayout) (layer : Nat) : Nat :=
  4 * (layout.logw.take layer).sum + 2 * layer

theorem element_draws {n k : Nat} (hk : k < n) (s : σ) :
    element (Witness.draws padGenerator n s).1 k = padDraw padGenerator s k := by
  induction n generalizing k s with
  | zero => cases hk
  | succ n ih =>
      cases k with
      | zero => rfl
      | succ k => exact ih (Nat.lt_of_succ_lt_succ hk) (padGenerator s).2

omit [Field F] in
theorem padDraw_add (m n : Nat) (s : σ) :
    padDraw padGenerator (Witness.draws padGenerator m s).2 n =
      padDraw padGenerator s (m + n) := by
  rw [padDraw, padDraw, Witness.draws_add]

/-- The pads of a layer are the values that follow those of the layers before
it. -/
theorem element_layerPads {logws : List Nat} {layer k : Nat} (s : σ)
    (hlayer : layer < logws.length)
    (hlayer' : layer < (Witness.layerPads padGenerator logws s).1.length)
    (hk : k < 4 * logws[layer] + 2) :
    element (Witness.layerPads padGenerator logws s).1[layer] k =
      padDraw padGenerator s
        (4 * (logws.take layer).sum + 2 * layer + k) := by
  induction logws generalizing layer s with
  | nil => cases hlayer
  | cons logw logws ih =>
      cases layer with
      | zero =>
          have hsum : 4 * ((logw :: logws).take 0).sum + 2 * 0 + k = k := by
            simp
          rw [hsum]
          exact element_draws padGenerator hk s
      | succ layer =>
          have hrest := ih (Witness.draws padGenerator (4 * logw + 2) s).2
            (Nat.lt_of_succ_lt_succ hlayer) (Nat.lt_of_succ_lt_succ hlayer')
            hk
          rw [padDraw_add] at hrest
          refine Eq.trans hrest (congrArg (padDraw padGenerator s) ?_)
          rw [List.take_succ_cons, List.sum_cons]
          ring

variable {layout : WitnessLayout} {privateInputs : List F} {s : σ}

theorem element_of_lt_length {witness : Witness F} {i : Nat}
    (hi : i < witness.values.length) :
    witness.element i = .ok (element witness.values i) := by
  rw [Witness.element, index_of_lt hi, element_of_lt hi]

/-- The pads of a layer in the filled vector. -/
theorem element_fillWitness
    (h : privateInputs.length = layout.numPrivateInputs) {layer k : Nat}
    (hlayer : layer < layout.logw.length)
    (hk : k < 4 * layout.logw[layer] + 2) :
    element (Witness.fillWitness padGenerator layout privateInputs s).1.values
        (Sumcheck.polynomialBase layout layer + k) =
      padDraw padGenerator s (drawsBefore layout layer + k) := by
  have hpadded := fillWitness_padded padGenerator h s
  have hlayer' : layer <
      (Witness.layerPads padGenerator layout.logw s).1.length := by
    rwa [hpadded.length_pads_eq]
  have hlength := hpadded.length_getElem hlayer' hlayer
  rw [hpadded.element_pad hlayer' (by rwa [hlength]),
    element_layerPads padGenerator s hlayer hlayer' hk, drawsBefore]

end Pads

end Longfellow
