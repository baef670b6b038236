/-
The witness vector as the prover fills it: the private inputs, then for each
layer its pads and the product of the last two.
-/
import Longfellow.Sumcheck.Script

namespace Longfellow

open Exec

namespace Witness

variable {F σ : Type} [Field F] (padGenerator : σ → F × σ)

/-- The next `n` pads. -/
def draws : Nat → σ → List F × σ
  | 0, s => ([], s)
  | n + 1, s =>
      let (pad, s) := padGenerator s
      let (pads, s) := draws n s
      (pad :: pads, s)

omit [Field F] in
theorem length_draws (n : Nat) (s : σ) :
    (draws padGenerator n s).1.length = n := by
  induction n generalizing s with
  | zero => rfl
  | succ n ih => simp [draws, ih]

omit [Field F] in
theorem draws_add (m n : Nat) (s : σ) :
    draws padGenerator (m + n) s =
      ((draws padGenerator m s).1 ++
        (draws padGenerator n (draws padGenerator m s).2).1,
      (draws padGenerator n (draws padGenerator m s).2).2) := by
  induction m generalizing s with
  | zero => simp [draws]
  | succ m ih =>
      rw [Nat.succ_add]
      simp [draws, ih]

omit [Field F] in
theorem pushPads_eq (logw : Nat) (state : List F × σ) :
    (List.range logw).foldl
      (fun state _ => (List.range 2).foldl
        (fun state _ => pushPad padGenerator (pushPad padGenerator state)) state)
      state =
    (state.1 ++ (draws padGenerator (4 * logw) state.2).1,
      (draws padGenerator (4 * logw) state.2).2) := by
  induction logw with
  | zero => simp [draws]
  | succ n ih =>
      have hsucc : List.range (n + 1) = List.range n ++ [n] := List.range_succ
      rw [hsucc, List.foldl_append, ih, Nat.mul_succ, draws_add]
      simp [List.range_succ, pushPad, draws]

/-- The pads of a layer and the product of the last two. -/
def layerBlock (pads : List F) : List F :=
  pads ++ [Longfellow.element pads (pads.length - 2) *
    Longfellow.element pads (pads.length - 1)]

theorem fillLayer_eq (state : List F × σ) (logw : Nat) :
    fillLayer padGenerator state logw =
      (state.1 ++ layerBlock (draws padGenerator (4 * logw + 2) state.2).1,
        (draws padGenerator (4 * logw + 2) state.2).2) := by
  have hlength := length_draws padGenerator (4 * logw) state.2
  rw [fillLayer]
  simp only [pushPads_eq, draws_add]
  set pads := (draws padGenerator (4 * logw) state.2).1
  simp [layerBlock, draws, Longfellow.element]

/-- The pads of each layer. -/
def layerPads : List Nat → σ → List (List F) × σ
  | [], s => ([], s)
  | logw :: logws, s =>
      let (pads, s) := draws padGenerator (4 * logw + 2) s
      let (rest, s) := layerPads logws s
      (pads :: rest, s)

theorem fillWitness_eq (layout : WitnessLayout) (privateInputs : List F)
    (s : σ) :
    (fillWitness padGenerator layout privateInputs s).1.values =
      privateInputs ++
        (layerPads padGenerator layout.logw s).1.flatMap layerBlock := by
  have hfold : ∀ (logws : List Nat) (state : List F × σ),
      (logws.foldl (fillLayer padGenerator) state).1 =
        state.1 ++
          (layerPads padGenerator logws state.2).1.flatMap layerBlock := by
    intro logws
    induction logws with
    | nil => intro state; simp [layerPads]
    | cons logw logws ih =>
        intro state
        rw [List.foldl_cons, ih, fillLayer_eq]
        simp [layerPads]
  exact hfold layout.logw (privateInputs, s)

omit [Field F] in
theorem map_length_layerPads (logws : List Nat) (s : σ) :
    (layerPads padGenerator logws s).1.map List.length =
      logws.map (4 * · + 2) := by
  induction logws generalizing s with
  | nil => rfl
  | cons logw logws ih => simp [layerPads, length_draws, ih]

end Witness

section Positions

variable {F : Type} [Field F]

omit [Field F] in
theorem getElem?_flatMap_add {α : Type} (f : α → List F) {xs : List α} {i : Nat}
    (hi : i < xs.length) {k : Nat} (hk : k < (f xs[i]).length) :
    (xs.flatMap f)[((xs.take i).map fun x => (f x).length).sum + k]? =
      (f xs[i])[k]? := by
  induction xs generalizing i with
  | nil => cases hi
  | cons x xs ih =>
      cases i with
      | zero =>
          simp only [List.getElem_cons_zero] at hk
          simp [List.getElem?_append_left hk]
      | succ i =>
          have hi' : i < xs.length := by simpa using hi
          have hrest := ih hi' (by simpa using hk)
          rw [List.take_succ_cons, List.map_cons, List.sum_cons,
            List.flatMap_cons, Nat.add_assoc,
            List.getElem?_append_right (Nat.le_add_right _ _),
            Nat.add_sub_cancel_left, hrest]
          rfl

/-- The values of a witness vector with these pads for each layer. -/
structure Padded (layout : WitnessLayout) (privateInputs : List F)
    (pads : List (List F)) (values : List F) : Prop where
  length_private : privateInputs.length = layout.numPrivateInputs
  length_pads : pads.map List.length = layout.logw.map (4 * · + 2)
  values_eq : values = privateInputs ++ pads.flatMap Witness.layerBlock

theorem fillWitness_padded {σ : Type} (padGenerator : σ → F × σ)
    {layout : WitnessLayout} {privateInputs : List F}
    (h : privateInputs.length = layout.numPrivateInputs) (s : σ) :
    Padded layout privateInputs
      (Witness.layerPads padGenerator layout.logw s).1
      (Witness.fillWitness padGenerator layout privateInputs s).1.values :=
  ⟨h, Witness.map_length_layerPads padGenerator _ s,
    Witness.fillWitness_eq padGenerator layout privateInputs s⟩

namespace Padded

variable {layout : WitnessLayout} {privateInputs : List F}
  {pads : List (List F)} {values : List F}

theorem length_pads_eq (h : Padded layout privateInputs pads values) :
    pads.length = layout.logw.length := by
  have hlength := congrArg List.length h.length_pads
  simpa using hlength

theorem length_getElem (h : Padded layout privateInputs pads values) {i : Nat}
    (hi : i < pads.length) (hi' : i < layout.logw.length) :
    pads[i].length = 4 * layout.logw[i] + 2 := by
  have hget := congrArg (·[i]?) h.length_pads
  simpa [hi, hi'] using hget

theorem length_layerBlock (pads : List F) :
    (Witness.layerBlock pads).length = pads.length + 1 := by
  simp [Witness.layerBlock]

theorem element_layerBlock_last (pads : List F) :
    element (Witness.layerBlock pads) pads.length =
      element pads (pads.length - 2) * element pads (pads.length - 1) := by
  simp [Witness.layerBlock, element]

theorem sum_length_take (h : Padded layout privateInputs pads values)
    (i : Nat) (hi : i ≤ pads.length) :
    ((pads.take i).map fun block => (Witness.layerBlock block).length).sum =
      3 * i + 4 * (layout.logw.take i).sum := by
  have hmap : (pads.take i).map (fun block =>
      (Witness.layerBlock block).length) =
      (layout.logw.take i).map (4 * · + 3) := by
    have hlengths := congrArg (fun xs => (xs.take i).map (· + 1)) h.length_pads
    simp only [← List.map_take, List.map_map] at hlengths
    simpa [Function.comp_def, length_layerBlock] using hlengths
  have hlength : (layout.logw.take i).length = i := by
    rw [List.length_take, ← h.length_pads_eq, Nat.min_eq_left hi]
  have hsum : ∀ xs : List Nat,
      (xs.map (4 * · + 3)).sum = 3 * xs.length + 4 * xs.sum := by
    intro xs
    induction xs with
    | nil => rfl
    | cons x xs ih =>
        simp only [List.map_cons, List.sum_cons, List.length_cons, ih]
        ring
  rw [hmap, hsum, hlength]

/-- The length of a filled witness vector is that of its layout. -/
theorem length_values (h : Padded layout privateInputs pads values) :
    values.length = layout.length := by
  have hsum := h.sum_length_take pads.length le_rfl
  rw [List.take_length, h.length_pads_eq, List.take_length] at hsum
  rw [h.values_eq, List.length_append, List.length_flatMap, hsum,
    h.length_private, WitnessLayout.length]
  ring

theorem element_block (h : Padded layout privateInputs pads values) {i : Nat}
    (hi : i < pads.length) {k : Nat} (hk : k < pads[i].length + 1) :
    element values (Sumcheck.polynomialBase layout i + k) =
      element (Witness.layerBlock pads[i]) k := by
  have hk' : k < (Witness.layerBlock pads[i]).length := by
    rwa [length_layerBlock]
  have hposition : Sumcheck.polynomialBase layout i + k =
      privateInputs.length +
        (((pads.take i).map fun block =>
          (Witness.layerBlock block).length).sum + k) := by
    rw [h.sum_length_take i hi.le, h.length_private, Sumcheck.polynomialBase]
    ring
  rw [element, element, List.getD_eq_getElem?_getD,
    List.getD_eq_getElem?_getD, h.values_eq, hposition,
    List.getElem?_append_right (Nat.le_add_right _ _),
    Nat.add_sub_cancel_left, getElem?_flatMap_add _ hi hk']

/-- The pads of a layer follow its base. -/
theorem element_pad (h : Padded layout privateInputs pads values) {i : Nat}
    (hi : i < pads.length) {k : Nat} (hk : k < pads[i].length) :
    element values (Sumcheck.polynomialBase layout i + k) =
      element pads[i] k := by
  rw [h.element_block hi (by omega), Witness.layerBlock, element,
    List.getD_append _ _ _ _ hk]
  rfl

theorem element_wire (h : Padded layout privateInputs pads values) {i : Nat}
    (hi : i < layout.logw.length) (hi' : i < pads.length) {k : Nat}
    (hk : k < 2) :
    element values (layout.wireStart i + k) =
      element pads[i] (4 * layout.logw[i] + k) := by
  have hlength := h.length_getElem hi' hi
  rw [Sumcheck.wireStart_eq hi, Nat.add_assoc]
  exact h.element_pad hi' (by omega)

/-- The last witness of a layer is the product of the two before. -/
theorem element_product (h : Padded layout privateInputs pads values) {i : Nat}
    (hi : i < layout.logw.length) :
    element values (layout.wireStart i) *
        element values (layout.wireStart i + 1) =
      element values (layout.wireStart i + 2) := by
  have hi' : i < pads.length := by
    rwa [h.length_pads_eq]
  have hlength := h.length_getElem hi' hi
  have hlast : layout.wireStart i + 2 =
      Sumcheck.polynomialBase layout i + pads[i].length := by
    rw [Sumcheck.wireStart_eq hi, hlength]
    ring
  have hzero := h.element_wire hi hi' (k := 0) (by omega)
  have hone := h.element_wire hi hi' (k := 1) (by omega)
  rw [Nat.add_zero] at hzero
  rw [hlast, h.element_block hi' (by omega), hzero, hone,
    element_layerBlock_last, hlength]
  rfl

/-- The witness vector starts with the private inputs. -/
theorem element_private (h : Padded layout privateInputs pads values) {i : Nat}
    (hi : i < layout.numPrivateInputs) :
    element values i = element privateInputs i := by
  rw [h.values_eq, element, element,
    List.getD_append _ _ _ _ (by rwa [h.length_private])]

end Padded

end Positions

end Longfellow
