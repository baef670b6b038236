/-
The prover returns: it folds the wires of each layer along with the bound quad,
and the proof that it fills in is the honest one, less the pads.
-/
import Longfellow.Sumcheck.Agreement
import Longfellow.Sumcheck.Honest

namespace Longfellow.Sumcheck

open Exec Multilinear SparseSumcheckArray Circuit

/-- An array of length `n` takes exactly `m` folds to become a single
element. -/
def Spans (m n : Nat) : Prop := 2 ^ m < 2 * n ∧ n ≤ 2 ^ m

theorem Spans.fold {m n : Nat} (h : Spans (m + 1) n) :
    1 < n ∧ Spans m ((n + 1) / 2) := by
  obtain ⟨hlow, hhigh⟩ := h
  rw [pow_succ] at hlow hhigh
  have hpos : 0 < 2 ^ m := Nat.two_pow_pos m
  exact ⟨by omega, by omega, by omega⟩

theorem Spans.zero {n : Nat} (h : Spans 0 n) : n = 1 := by
  obtain ⟨hlow, hhigh⟩ := h
  rw [pow_zero] at hlow hhigh
  omega

theorem spans_clog {n : Nat} (hn : 0 < n) : Spans (Nat.clog 2 n) n := by
  refine ⟨?_, Nat.le_pow_clog Nat.one_lt_two n⟩
  rcases Nat.lt_or_ge 1 n with hlt | hle
  · have hprev := Nat.pow_pred_clog_lt_self Nat.one_lt_two hlt
    have hpos := Nat.clog_pos Nat.one_lt_two hlt
    have hsucc : Nat.clog 2 n = (Nat.clog 2 n).pred + 1 := by
      rw [Nat.pred_eq_sub_one]
      omega
    rw [hsucc, pow_succ]
    omega
  · have hone : n = 1 := by omega
    subst hone
    simp

section Dense

variable {F : Type} [Field F]

/-- The intermediate array holds, for each wire of a hand, the sum of its
elements times the opposite wires. -/
theorem computeA_returns {array : SparseSumcheckArray F} {hand : Hand}
    {wires : Hands (List F)}
    (hrange : ∀ e ∈ array.contents,
      e.handWire hand < (wires.get hand).length ∧
      e.handWire hand.opposite < (wires.get hand.opposite).length) :
    Returns (array.computeA hand wires) fun table =>
      table.length = (wires.get hand).length ∧
      ∀ l, element table l = (array.contents.map fun e =>
        if e.handWire hand = l then e.coefficient *
          element (wires.get hand.opposite) (e.handWire hand.opposite)
        else 0).sum := by
  have hrule := Returns.foldlM
    (f := fun into e => do
      let oppositeWire ←
        index (wires.get hand.opposite) (e.handWire hand.opposite)
      update into (e.handWire hand) (· + e.coefficient * oppositeWire))
    (I := fun k table => table.length = (wires.get hand).length ∧
      ∀ l, element table l = ((array.contents.take k).map fun e =>
        if e.handWire hand = l then e.coefficient *
          element (wires.get hand.opposite) (e.handWire hand.opposite)
        else 0).sum)
    array.contents (s := List.replicate (wires.get hand).length 0) ?_ ?_
  · rwa [List.take_length] at hrule
  · refine ⟨List.length_replicate, fun l => ?_⟩
    by_cases hl : l < (wires.get hand).length
    · simp [element, hl]
    · simp [element, hl]
  · intro k hk table htable
    obtain ⟨hlength, hvalue⟩ := htable
    obtain ⟨hhand, hopposite⟩ := hrange _ (List.getElem_mem hk)
    set e := array.contents[k] with he
    rw [index_of_lt hopposite, ok_bind, update_of_lt (by rw [hlength]; exact hhand)]
    refine Returns.of_eq rfl ⟨by simpa using hlength, fun l => ?_⟩
    rw [List.take_add_one, List.getElem?_eq_getElem hk, Option.toList_some,
      List.map_append, List.sum_append, ← hvalue, ← he,
      element_set _ (by rw [hlength]; exact hhand)]
    have hwire : (wires.get hand.opposite)[e.handWire hand.opposite] =
        element (wires.get hand.opposite) (e.handWire hand.opposite) := by
      simp [element, hopposite]
    by_cases hl : e.handWire hand = l
    · subst hl
      have hold : table[e.handWire hand] = element table (e.handWire hand) := by
        simp [element, hlength, hhand]
      rw [hwire]
      simp [hold]
    · simp [hl]

variable [ProofFieldElement F] [LawfulProofField F]

/-- The value of the round polynomial, over a table of the intermediate
array. -/
theorem foldl_zipIdx_boundElementAt (f : Nat → F) (n : Nat) (wires : List F)
    (binding : Binding F) :
    ((List.range n).map f).zipIdx.foldl (fun acc (element, i) =>
        acc + element * boundElementAt wires binding i) 0 =
      ∑ i ∈ Finset.range n, f i * bindAt binding.value (element wires) i := by
  have hzip : ((List.range n).map f).zipIdx =
      (List.range n).map fun i => (f i, i) := by
    refine List.ext_getElem (by simp) fun i _ _ => ?_
    simp
  rw [hzip, List.foldl_map, ← List.toFinset_range,
    List.sum_toFinset _ List.nodup_range, List.sum_eq_foldl, List.foldl_map]
  simp only [boundElementAt_eq_bindAt]

theorem evaluatePolynomial_eq_ok {array wires : List F}
    (hlength : 1 < array.length) (binding : Binding F) :
    evaluatePolynomial array wires binding =
      .ok (∑ l ∈ Finset.range array.length,
        (weight binding.value l *
          bindAt binding.value (element wires) (l / 2)) * element array l) := by
  have harray : ∀ l, array.length ≤ l → element array l = 0 :=
    fun l hl => element_of_le hl
  rw [evaluatePolynomial, bindIter_eq_ok hlength, ok_bind, pure_eq_ok,
    foldl_zipIdx_boundElementAt,
    sum_weight_bindAt _ _ harray]
  refine congrArg Except.ok (Finset.sum_congr rfl fun l _ => ?_)
  ring

/-- Over the intermediate array, the round polynomial is the one with the hand
of the sparse array bound. -/
theorem computeA_evaluatePolynomial {array : SparseSumcheckArray F}
    {hand : Hand} {wires : Hands (List F)}
    (hrange : ∀ e ∈ array.contents,
      e.handWire hand < (wires.get hand).length ∧
      e.handWire hand.opposite < (wires.get hand.opposite).length)
    (hlong : 1 < (wires.get hand).length) :
    Returns (array.computeA hand wires) fun table => ∀ binding : Binding F,
      evaluatePolynomial table (wires.get hand) binding =
        .ok (roundSum hand array.contents
          ⟨element wires.left, element wires.right⟩ binding.value) := by
  have hget (hand : Hand) :
      (⟨element wires.left, element wires.right⟩ : Hands (Nat → F)).get hand =
        element (wires.get hand) := by
    cases hand with
    | left => rfl
    | right => rfl
  refine (computeA_returns hrange).mono fun table htable binding => ?_
  obtain ⟨hlength, htable⟩ := htable
  have hsum := sum_by_key (fun e : SparseQuadElement F => e.handWire hand)
    (fun l => weight binding.value l *
      bindAt binding.value (element (wires.get hand)) (l / 2))
    (fun e => e.coefficient *
      element (wires.get hand.opposite) (e.handWire hand.opposite))
    fun e he => (hrange e he).1
  rw [evaluatePolynomial_eq_ok (by rw [hlength]; exact hlong), hlength,
    roundSum_eq]
  refine congrArg Except.ok ?_
  simp only [htable]
  rw [← hsum]
  refine congrArg List.sum (List.map_congr_left fun e _ => ?_)
  rw [hget, hget]
  ring

end Dense

section Fold

variable {F : Type} [Field F]

/-- The wires of a layer, folded by the challenges so far on both hands. -/
structure Folded (elements : List (SparseQuadElement F)) (logw : Nat)
    (wires : Nat → F) (challenges : List F) (hands : Hands (List F)) :
    Prop where
  element_eq : ∀ hand, element (hands.get hand) =
    (boundHands challenges wires).get hand
  spans_left : Spans (logw - (challenges.length + 1) / 2) hands.left.length
  spans_right : Spans (logw - challenges.length / 2) hands.right.length
  wire_lt : ∀ e ∈ boundAll .left challenges elements, ∀ hand,
    e.handWire hand < (hands.get hand).length

variable {elements : List (SparseQuadElement F)} {logw : Nat}
  {wires : Nat → F} {challenges : List F} {hands : Hands (List F)}

/-- The hand whose turn it is has as many folds left as there are rounds. -/
theorem Folded.spans (h : Folded elements logw wires challenges hands)
    (hlt : challenges.length < 2 * logw) :
    Spans (logw - challenges.length / 2 - 1 + 1)
      (hands.get (handAt challenges.length)).length := by
  have hpos : logw - challenges.length / 2 - 1 + 1 =
      logw - challenges.length / 2 := by omega
  rw [hpos]
  unfold handAt
  split
  · next heven =>
      have hhalf : (challenges.length + 1) / 2 = challenges.length / 2 := by
        omega
      have hspans := h.spans_left
      rwa [hhalf] at hspans
  · exact h.spans_right

/-- Every element of a bound array comes from one with half its wire. -/
theorem mem_bound {hand : Hand} {x : F} {P : SparseQuadElement F → Prop}
    {Q : SparseQuadElement F → Prop}
    (hbound : ∀ e c, P e →
      Q (.new 0 hand (e.handWire hand / 2) (e.handWire hand.opposite) c))
    {elements : List (SparseQuadElement F)} (h : ∀ e ∈ elements, P e) :
    ∀ e ∈ bound hand x elements, Q e :=
  Morton.forall_mem_mergePairs (fun e he => hbound e _ he)
    (fun e _ he _ _ => hbound e _ he) h

/-- What is left of the wires after the hand whose turn it is has been
folded. -/
theorem Folded.fold (h : Folded elements logw wires challenges hands)
    (hlt : challenges.length < 2 * logw) (x : F) {array : List F}
    (hlength : array.length =
      ((hands.get (handAt challenges.length)).length + 1) / 2)
    (helement : element array = bindAt x
      (element (hands.get (handAt challenges.length)))) :
    Folded elements logw wires (challenges ++ [x])
      (hands.set (handAt challenges.length) array) := by
  have hspans := (h.spans hlt).fold.2
  rw [← hlength] at hspans
  refine ⟨fun hand => ?_, ?_, ?_, ?_⟩
  · rw [boundHands_concat]
    by_cases hturn : hand = handAt challenges.length
    · subst hturn
      rw [Hands.get_set_self, Hands.get_set_self, helement, h.element_eq]
    · rw [Hands.get_set_of_ne _ hturn, Hands.get_set_of_ne _ hturn,
        h.element_eq]
  · rw [List.length_append, List.length_singleton]
    unfold handAt
    split
    · next heven =>
        have hleft : logw - (challenges.length + 1 + 1) / 2 =
            logw - challenges.length / 2 - 1 := by omega
        rw [hleft]
        exact hspans
    · next hodd =>
        have hleft : logw - (challenges.length + 1 + 1) / 2 =
            logw - (challenges.length + 1) / 2 := by omega
        rw [hleft]
        exact h.spans_left
  · rw [List.length_append, List.length_singleton]
    unfold handAt
    split
    · next heven =>
        have hright : logw - (challenges.length + 1) / 2 =
            logw - challenges.length / 2 := by omega
        rw [hright]
        exact h.spans_right
    · next hodd =>
        have hright : logw - (challenges.length + 1) / 2 =
            logw - challenges.length / 2 - 1 := by omega
        rw [hright]
        exact hspans
  · rw [boundAll_concat]
    refine mem_bound (P := fun e => ∀ hand,
      e.handWire hand < (hands.get hand).length) (fun e c he hand => ?_)
      h.wire_lt
    by_cases hturn : hand = handAt challenges.length
    · subst hturn
      have hwire := he (handAt challenges.length)
      rw [SparseQuadElement.handWire_new, Hands.get_set_self, hlength]
      omega
    · have hopposite : hand = (handAt challenges.length).opposite := by
        cases hand <;> cases hand' : handAt challenges.length <;>
          simp_all [Hand.opposite]
      subst hopposite
      rw [SparseQuadElement.handWire_new_opposite, Hands.get_set_opposite]
      exact he _

end Fold

section Round

variable {F : Type} [Field F] [ProofFieldElement F] [LawfulProofField F]

variable {elements : List (SparseQuadElement F)} {logw : Nat}
  {wires : Nat → F} {challenges : List F} {hands : Hands (List F)}

/-- Binding the wires of the hand whose turn it is folds them. -/
theorem boundWires_returns (h : Folded elements logw wires challenges hands)
    (hlt : challenges.length < 2 * logw) (x : F)
    {allWires : List (Hands (List F))} {i : Nat}
    (hget : allWires[i + 1]? = some hands) :
    Returns (boundWires allWires i (handAt challenges.length) x) fun next =>
      ∃ hands', next = allWires.set (i + 1) hands' ∧
        Folded elements logw wires (challenges ++ [x]) hands' := by
  obtain ⟨hlength, -⟩ := (h.spans hlt).fold
  have helement := element_map_range (f := bindAt x
    (element (hands.get (handAt challenges.length))))
    (n := ((hands.get (handAt challenges.length)).length + 1) / 2)
    fun l hl => bindAt_eq_zero (fun j hj => element_of_le hj) x hl
  rw [boundWires, index_eq_ok.mpr hget, ok_bind, bind_eq_ok hlength, ok_bind]
  refine Returns.of_eq rfl ⟨_, rfl, h.fold hlt x (by simp) ?_⟩
  exact funext helement

/-- A round polynomial of the prover is the honest one, less the pads. -/
theorem proverPolynomial_returns
    (h : Folded elements logw wires challenges hands)
    (hlt : challenges.length < 2 * logw) {witness : Witness F}
    {allWires : List (Hands (List F))} {i : Nat}
    (hget : allWires[i + 1]? = some hands) {pad : Sumcheck.Polynomial F}
    (hpad : witness.polynomialWitnesses i (challenges.length / 2)
      (handAt challenges.length) = .ok pad) :
    proverPolynomial witness allWires ⟨boundAll .left challenges elements⟩ i
        (challenges.length / 2) (handAt challenges.length) =
      .ok ⟨(honestMessage elements wires challenges).p0 - pad.p0,
        (honestMessage elements wires challenges).p2 - pad.p2⟩ := by
  set hand := handAt challenges.length with hhand
  have hrange : ∀ e ∈ (⟨boundAll .left challenges elements⟩ :
      SparseSumcheckArray F).contents,
      e.handWire hand < (hands.get hand).length ∧
      e.handWire hand.opposite < (hands.get hand.opposite).length :=
    fun e he => ⟨h.wire_lt e he hand, h.wire_lt e he hand.opposite⟩
  obtain ⟨table, hcompute, hvalue⟩ :=
    computeA_evaluatePolynomial hrange (h.spans hlt).fold.1
  have hround (binding : Binding F) :
      evaluatePolynomial table (hands.get hand) binding =
        .ok (roundSum hand (boundAll .left challenges elements)
          (boundHands challenges wires) binding.value) := by
    have hhands : boundHands challenges wires =
        ⟨element hands.left, element hands.right⟩ := by
      rw [show hands.left = hands.get .left from rfl,
        show hands.right = hands.get .right from rfl, h.element_eq,
        h.element_eq]
      rfl
    rw [hhands, hvalue]
  rw [proverPolynomial, index_eq_ok.mpr hget, ok_bind, hcompute, ok_bind, hpad,
    ok_bind, hround, ok_bind, hround, ok_bind]
  rfl

end Round

section Pads

variable {F : Type} [Field F]

/-- A layer of a proof is determined by its messages and wires. -/
theorem ProofLayer.eq_of_messages {F : Type} {a b : ProofLayer F}
    (hmessages : a.messages = b.messages) (hwires : a.wires = b.wires) :
    a = b := by
  have hpolynomials : a.polynomials = b.polynomials := by
    refine List.ext_getElem? fun r => ?_
    have hleft := ProofLayer.getElem?_messages a (2 * r)
    have hright := ProofLayer.getElem?_messages a (2 * r + 1)
    rw [hmessages, ProofLayer.getElem?_messages] at hleft hright
    have hhalf : (2 * r + 1) / 2 = r := by omega
    have hhand : handAt (2 * r) = .left := by simp [handAt]
    have hhand' : handAt (2 * r + 1) = .right := by simp [handAt, Nat.add_mod]
    rw [Nat.mul_div_cancel_left r Nat.two_pos, hhand] at hleft
    rw [hhalf, hhand'] at hright
    cases ha : a.polynomials[r]? with
    | none =>
        rw [ha] at hleft
        exact (Option.map_eq_none_iff.mp hleft).symm
    | some x =>
        cases hb : b.polynomials[r]? with
        | none => simp [ha, hb] at hleft
        | some y =>
            simp only [ha, hb, Option.map_some, Option.some.injEq,
              Hands.get] at hleft hright
            obtain ⟨xl, xr⟩ := x
            obtain ⟨yl, yr⟩ := y
            simp only at hleft hright
            rw [hleft, hright]
  obtain ⟨polynomials, vl, vr⟩ := a
  simp only [ProofLayer.wires, Hands.mk.injEq] at hwires
  simp only at hpolynomials
  rw [hpolynomials, hwires.1, hwires.2]

theorem index_element {values : List F} {i : Nat} (hi : i < values.length) :
    index values i = .ok (element values i) := by
  rw [index_of_lt hi]
  simp [element, hi]

variable {witness : Witness F}

/-- The pads of a round are next to each other in the witness vector. -/
theorem polynomialWitnesses_eq_ok
    (hlength : witness.values.length = witness.layout.length) {i k : Nat}
    (hi : i < witness.layout.logw.length) (hk : k < 2 * witness.layout.logw[i]) :
    witness.polynomialWitnesses i (k / 2) (handAt k) =
      .ok ⟨element witness.values (polynomialBase witness.layout i + 2 * k),
        element witness.values
          (polynomialBase witness.layout i + 2 * k + 1)⟩ := by
  have hstart := wireStart_eq hi
  have hend := wireStart_add_two_lt hi
  have hround : k / 2 < witness.layout.logw[i] := by omega
  rw [Witness.polynomialWitnesses, WitnessLayout.polynomialWitnessIndices,
    assert_of hi, ok_bind, index_of_lt hi, ok_bind, assert_of hround, ok_bind,
    polynomialStart_eq]
  simp only [pure_eq_ok, ok_bind, Witness.element]
  rw [index_element (by omega), ok_bind, index_element (by omega), ok_bind]

/-- The pads of the wires of a layer come after those of its rounds. -/
theorem wireWitnesses_eq_ok
    (hlength : witness.values.length = witness.layout.length) {i : Nat}
    (hi : i < witness.layout.logw.length) :
    witness.wireWitnesses i =
      .ok (element witness.values (witness.layout.wireStart i),
        element witness.values (witness.layout.wireStart i + 1),
        element witness.values (witness.layout.wireStart i + 2)) := by
  have hend := wireStart_add_two_lt hi
  rw [Witness.wireWitnesses, WitnessLayout.wireWitnessIndices, assert_of hi,
    ok_bind]
  simp only [pure_eq_ok, ok_bind, Witness.element]
  rw [index_element (by omega), ok_bind, index_element (by omega), ok_bind,
    index_element (by omega), ok_bind]

end Pads

section Run

variable {F : Type} [Field F] [DecidableEq F] [ProofFieldElement F]
  [Primitives] [SamplesField F]

/-- The layers are the honest ones for the challenges that answer them, less
the pads of the witness vector. -/
def Masks (circuit : Circuit F) (evaluation : Evaluation F)
    (transcript : Transcript) (values : Nat → F)
    (proofLayers : List (ProofLayer F)) : Prop :=
  ∀ i (hi : i < proofLayers.length) (hi' : i < circuit.layers.length),
    let script := scriptLayers circuit (witnessLayout circuit)
      (startScript circuit transcript) (proofLayers.take i)
    unpadLayer (witnessLayout circuit) values i proofLayers[i] =
      honestLayer circuit circuit.layers[i]
        (evaluation.wires.getD (i + 1) []) script.bindings
        (drawLayer script.transcript proofLayers[i].messages).1

omit [ProofFieldElement F] [Primitives] [SamplesField F] in
/-- Every element of the bound quad has the wires of one of the layer. -/
theorem mem_boundElements {circuit : Circuit F} {layer : CircuitLayer}
    {bindings : Hands (List F)} {alpha beta : F} {e : SparseQuadElement F}
    (he : e ∈ boundElements circuit layer bindings alpha beta) :
    ∃ d ∈ circuit.combinedElements layer beta, e.wires = d.wires := by
  rw [boundElements] at he
  cases hmap : (circuit.combinedElements layer beta).map
      (bindGate bindings.left bindings.right alpha) with
  | nil =>
      rw [hmap, compact] at he
      cases he
  | cons last rest =>
      rw [hmap, compact] at he
      obtain ⟨d, hd, hwires⟩ := mem_compactFrom he
      rw [← hmap] at hd
      obtain ⟨c, hc, rfl⟩ := List.mem_map.mp hd
      exact ⟨c, hc, hwires⟩

omit [ProofFieldElement F] [Primitives] [SamplesField F] in
theorem logw_lt_of_clog {circuit : Circuit F} (hshaped : circuit.Shaped)
    (hlogw : ∀ layer ∈ circuit.layers,
      layer.logw = Nat.clog 2 layer.numWires) {layer : CircuitLayer}
    (hlayer : layer ∈ circuit.layers) : layer.logw < 64 := by
  obtain ⟨i, hi, rfl⟩ := List.getElem_of_mem hlayer
  have hlt := (hshaped.layer_shape i hi).numWires_lt
  rw [hlogw _ (List.getElem_mem hi)]
  have hle := Nat.clog_le_of_le_pow hlt.le
  omega

theorem Masks.concat {circuit : Circuit F} {evaluation : Evaluation F}
    {transcript : Transcript} {values : Nat → F}
    {proofLayers : List (ProofLayer F)} {proofLayer : ProofLayer F}
    (h : Masks circuit evaluation transcript values proofLayers)
    (hnext : ∀ hi : proofLayers.length < circuit.layers.length,
      let script := scriptLayers circuit (witnessLayout circuit)
        (startScript circuit transcript) proofLayers
      unpadLayer (witnessLayout circuit) values proofLayers.length proofLayer =
        honestLayer circuit circuit.layers[proofLayers.length]
          (evaluation.wires.getD (proofLayers.length + 1) []) script.bindings
          (drawLayer script.transcript proofLayer.messages).1) :
    Masks circuit evaluation transcript values
      (proofLayers ++ [proofLayer]) := by
  intro i hi hi'
  rw [List.length_append, List.length_singleton] at hi
  rcases Nat.lt_succ_iff_lt_or_eq.mp hi with hlt | rfl
  · simp only [List.getElem_append_left hlt,
      List.take_append_of_le_length hlt.le]
    exact h i hlt hi'
  · simp only [List.getElem_concat_length, List.take_left']
    exact hnext hi'

/-- What the prover's wires are before a layer, and what its proof so far
is. -/
def HonestKeeps (circuit : Circuit F) (evaluation : Evaluation F)
    (transcript : Transcript) (values : Nat → F)
    (proofLayers : List (ProofLayer F)) (allWires : List (Hands (List F))) :
    Prop :=
  (∀ j, proofLayers.length ≤ j → allWires[j + 1]? =
    evaluation.wires[j + 1]?.map fun layer => ⟨layer, layer⟩) ∧
  Masks circuit evaluation transcript values proofLayers

variable [LawfulProofField F]

omit [DecidableEq F] [Primitives] [SamplesField F] [LawfulProofField F] in
/-- The honest messages of one more round. -/
theorem honestMessages_concat (elements : List (SparseQuadElement F))
    (wires : Nat → F) (challenges : List F) (x : F) :
    ((List.range challenges.length).map fun k =>
        honestMessage elements wires (challenges.take k)) ++
      [honestMessage elements wires challenges] =
    (List.range (challenges.length + 1)).map fun k =>
      honestMessage elements wires ((challenges ++ [x]).take k) := by
  rw [List.range_succ, List.map_append, List.map_singleton,
    List.take_left' rfl]
  refine congrArg (· ++ _) (List.map_congr_left fun k hk => ?_)
  rw [List.take_append_of_le_length (List.mem_range.mp hk).le]

omit [DecidableEq F] [ProofFieldElement F] [Primitives] [SamplesField F]
  [LawfulProofField F] in
theorem unpadMessages_concat (base : Nat) (values : Nat → F)
    (messages : List (Sumcheck.Polynomial F))
    (message : Sumcheck.Polynomial F) :
    unpadMessages base values (messages ++ [message]) =
      unpadMessages base values messages ++
        [⟨message.p0 + values (base + 2 * messages.length),
          message.p2 + values (base + 2 * messages.length + 1)⟩] := by
  simp [unpadMessages, List.zipIdx_append]

omit [LawfulProofField F] in
/-- At the start of a layer no wire has been folded. -/
theorem layerStart_folded {circuit : Circuit F} (hshaped : circuit.Shaped)
    (transcript : Transcript) {proofLayers : List (ProofLayer F)}
    (hi : proofLayers.length < circuit.layers.length) {wires : List F}
    (hwires : wires.length = circuit.layers[proofLayers.length].numWires) :
    Folded (layerStart circuit transcript proofLayers hi).elements
      (Nat.clog 2 circuit.layers[proofLayers.length].numWires)
      (element wires) [] ⟨wires, wires⟩ := by
  have hshape := hshaped.layer_shape _ hi
  obtain ⟨quad, hquad⟩ := List.exists_mem_of_ne_nil _ hshape.quads_ne_nil
  have hlt := hshape.leftWire_lt quad hquad
  have hspans := spans_clog (Nat.zero_lt_of_lt hlt)
  rw [← hwires] at hspans ⊢
  refine ⟨fun hand => ?_, by simpa using hspans, by simpa using hspans, ?_⟩
  · cases hand <;> rfl
  · intro e he hand
    obtain ⟨d, hd, hsame⟩ := mem_boundElements he
    obtain ⟨quad, hquad, rfl⟩ := List.mem_map.mp hd
    rw [SparseQuadElement.handWire_eq, hsame]
    cases hand
    · exact (hshape.leftWire_lt quad hquad).trans_eq hwires.symm
    · exact (hshape.rightWire_lt quad hquad).trans_eq hwires.symm

/-- A layer of the prover returns: in every round it folds its wires and sends
the honest polynomial less the pads, at the end the last wires less theirs. -/
theorem honest_runLayer_returns {circuit : Circuit F}
    (hshaped : circuit.Shaped)
    (hshort : ∀ layer ∈ circuit.layers, layer.logw < 64)
    (transcript : Transcript) {evaluation : Evaluation F}
    (hsize : ∀ i (hi : i < circuit.layers.length), ∃ wires,
      evaluation.wires[i + 1]? = some wires ∧
      wires.length = circuit.layers[i].numWires)
    {witness : Witness F} (hlayout : witness.layout = witnessLayout circuit)
    (hlength : witness.values.length = witness.layout.length)
    {proofLayers : List (ProofLayer F)} {role : ProtocolRole F}
    (hi : proofLayers.length < circuit.layers.length)
    (hlogw : circuit.layers[proofLayers.length].logw =
      Nat.clog 2 circuit.layers[proofLayers.length].numWires)
    (hkeeps : ProverKeeps circuit evaluation witness
      (HonestKeeps circuit evaluation transcript (element witness.values))
      proofLayers role) :
    Returns
      (runLayer circuit (witnessLayout circuit)
        ((scriptLayers circuit (witnessLayout circuit)
          (startScript circuit transcript) proofLayers).state role)
        (circuit.layers[proofLayers.length], proofLayers.length))
      fun state => ∃ proofLayer role',
        state = (scriptLayer circuit (witnessLayout circuit)
          (scriptLayers circuit (witnessLayout circuit)
            (startScript circuit transcript) proofLayers)
          circuit.layers[proofLayers.length] proofLayers.length
          proofLayer.messages proofLayer.wires).state role' ∧
        ProverKeeps circuit evaluation witness
          (HonestKeeps circuit evaluation transcript (element witness.values))
          (proofLayers ++ [proofLayer]) role' := by
  set i := proofLayers.length with hidef
  set layer := circuit.layers[i] with hlayer
  set start := layerStart circuit transcript proofLayers hi with hstart
  have hshape := hshaped.layer_shape i hi
  obtain ⟨wires, hwires, hwireslength⟩ := hsize i hi
  have hi' : i < witness.layout.logw.length := by
    rw [hlayout]
    simpa [witnessLayout] using hi
  have hlogwi' : witness.layout.logw[i] = layer.logw := by
    simp [hlayout, witnessLayout, hlayer]
  refine prover_runLayer_holds .returns hshaped hshort transcript hkeeps
    hkeeps.fits hi
    (fun messages allWires =>
      (∃ hands, allWires[i + 1]? = some hands ∧
        Folded start.elements layer.logw (element wires)
          (start.challenges messages) hands) ∧
      (∀ j, i < j → allWires[j + 1]? =
        evaluation.wires[j + 1]?.map fun layer => ⟨layer, layer⟩) ∧
      unpadMessages (polynomialBase (witnessLayout circuit) i)
          (element witness.values) messages =
        (List.range (start.challenges messages).length).map fun k =>
          honestMessage start.elements (element wires)
            ((start.challenges messages).take k))
    ?_ ?_ ?_
  · rintro allWires ⟨hrest, -⟩
    have hget := hrest i le_rfl
    rw [hwires, Option.map_some] at hget
    refine ⟨⟨_, hget, ?_⟩, fun j hj => hrest j (by omega), rfl⟩
    rw [hlogw]
    exact layerStart_folded hshaped transcript hi hwireslength
  · rintro messages allWires hlt ⟨⟨hands, hget, hfolded⟩, hrest, hhonest⟩
    have hchallenges := start.length_challenges messages
    have hlt' : (start.challenges messages).length < 2 * layer.logw := by
      rwa [hchallenges]
    have hpad := polynomialWitnesses_eq_ok hlength hi'
      (by rw [hlogwi']; exact hlt')
    have hmessage := proverPolynomial_returns hfolded hlt' hget hpad
    rw [hchallenges] at hmessage
    refine Returns.of_eq hmessage ?_
    have hbound (x : F) := boundWires_returns hfolded hlt' x hget
    simp only [hchallenges] at hbound
    refine (hbound _).mono fun next hnext => ?_
    obtain ⟨hands', rfl, hfolded'⟩ := hnext
    rw [← start.challenges_concat] at hfolded'
    have hlong : i + 1 < allWires.length :=
      (List.getElem?_eq_some_iff.mp hget).choose
    refine ⟨⟨hands', List.getElem?_set_self hlong, hfolded'⟩,
      fun j hj => ?_, ?_⟩
    · rw [List.getElem?_set_ne (by omega)]
      exact hrest j hj
    · rw [unpadMessages_concat, hhonest, start.challenges_concat,
        List.length_append, List.length_singleton, ← honestMessages_concat,
        hchallenges, hlayout]
      congr 2
      simp
  · rintro messages allWires hall ⟨⟨hands, hget, hfolded⟩, hrest, hhonest⟩
    have hchallenges : (start.challenges messages).length = 2 * layer.logw := by
      rw [start.length_challenges, hall]
    have hleft : hands.left.length = 1 := by
      have hdone : layer.logw - (2 * layer.logw + 1) / 2 = 0 := by omega
      have hspans := hfolded.spans_left
      rw [hchallenges, hdone] at hspans
      exact hspans.zero
    have hwireWitnesses := wireWitnesses_eq_ok hlength hi'
    rw [proverWires, index_eq_ok.mpr hget, ok_bind,
      assert_of (by simp [List.drop_eq_nil_of_le, hleft]), ok_bind,
      hwireWitnesses, ok_bind]
    refine Returns.of_eq rfl fun proofLayer hmessages hsent => ⟨?_, ?_⟩
    · intro j hj
      rw [List.length_append, List.length_singleton] at hj
      exact hrest j hj
    · obtain ⟨proof, -, -, -, -, -, hmasks⟩ := hkeeps
      refine hmasks.concat fun _ => ?_
      have hwiresget : evaluation.wires.getD (i + 1) [] = wires := by
        rw [List.getD_eq_getElem?_getD, hwires]
        rfl
      simp only [← hidef, hwiresget]
      refine ProofLayer.eq_of_messages ?_ ?_
      · rw [messages_unpadLayer, hmessages, hhonest, messages_honestLayer,
          hchallenges]
        rfl
      · have hl := congrFun (hfolded.element_eq .left) 0
        have hr := congrFun (hfolded.element_eq .right) 0
        simp only [ProofLayer.wires, Hands.mk.injEq] at hsent
        simp only [ProofLayer.wires, unpadLayer, honestLayer, Hands.mk.injEq]
        rw [hsent.1, hsent.2, hlayout, sub_add_cancel, sub_add_cancel,
          hmessages]
        exact ⟨hl, hr⟩

/-- What a proof is that the prover returns for an evaluation. -/
structure Proves (circuit : Circuit F) (evaluation : Evaluation F)
    (transcript : Transcript) (values : Nat → F) (publicInputs : List F)
    (result : ProverResult F × Transcript) : Prop where
  shape : result.1.proof.HasShape circuit
  masks : Masks circuit evaluation transcript values result.1.proof.layers
  finish : (result.1.linearConstraints, result.2) =
    finishScript circuit (witnessLayout circuit) publicInputs
      (scriptLayers circuit (witnessLayout circuit)
        (startScript circuit transcript) result.1.proof.layers)

omit [ProofFieldElement F] [Primitives] [SamplesField F]
  [LawfulProofField F] in
/-- The wires of an evaluation are as many as the layers say. -/
theorem evaluates_length {circuit : Circuit F} (hwf : circuit.WellFormed)
    {inputs : List F} {evaluation : Evaluation F}
    (heval : circuit.Evaluates inputs evaluation)
    (hinputs : inputs.length = circuit.numInputs) (i : Nat)
    (hi : i < circuit.layers.length) :
    ∃ wires, evaluation.wires[i + 1]? = some wires ∧
      wires.length = circuit.layers[i].numWires := by
  rw [← nextLayerNumWires_succ hi]
  rcases Nat.lt_or_eq_of_le (Nat.succ_le_of_lt hi) with hlt | heq
  · obtain ⟨outputs, -, houtputs, -, hsize, -⟩ := heval.layer_holds _ hlt
    exact ⟨outputs, houtputs, hsize⟩
  · have hget := heval.inputs_eq
    rw [← heq] at hget
    refine ⟨inputs, hget, ?_⟩
    rw [hinputs, hwf.numInputs_eq, ← heq]

omit [LawfulProofField F] in
/-- What every layer of the prover carries on holds of what it returns. -/
theorem prove_holds (J : Judgement) {circuit : Circuit F}
    (hwf : circuit.WellFormed)
    (hshort : ∀ layer ∈ circuit.layers, layer.logw < 64)
    (transcript : Transcript) {inputs : List F} {evaluation : Evaluation F}
    (heval : circuit.Evaluates inputs evaluation)
    (hinputs : inputs.length = circuit.numInputs)
    (hzero : ∀ output ∈ evaluation.wires.getD 0 [], output = 0)
    {witness : Witness F} (hlayout : witness.layout = witnessLayout circuit)
    (keeps : List (ProofLayer F) → List (Hands (List F)) → Prop)
    (hstart : keeps [] (evaluation.wires.map fun layer => ⟨layer, layer⟩))
    (hlayer : ∀ proofLayers role
      (hi : proofLayers.length < circuit.layers.length),
      ProverKeeps circuit evaluation witness keeps proofLayers role →
      J.holds
        (runLayer circuit (witnessLayout circuit)
          ((scriptLayers circuit (witnessLayout circuit)
            (startScript circuit transcript) proofLayers).state role)
          (circuit.layers[proofLayers.length], proofLayers.length))
        fun state => ∃ proofLayer role',
          state = (scriptLayer circuit (witnessLayout circuit)
            (scriptLayers circuit (witnessLayout circuit)
              (startScript circuit transcript) proofLayers)
            circuit.layers[proofLayers.length] proofLayers.length
            proofLayer.messages proofLayer.wires).state role' ∧
          ProverKeeps circuit evaluation witness keeps
            (proofLayers ++ [proofLayer]) role') :
    J.holds (prove circuit evaluation transcript witness) fun result =>
      result.1.proof.HasShape circuit ∧
      (∃ allWires, keeps result.1.proof.layers allWires) ∧
      (result.1.linearConstraints, result.2) =
        finishScript circuit (witnessLayout circuit)
          (inputs.take circuit.numPublicInputs)
          (scriptLayers circuit (witnessLayout circuit)
            (startScript circuit transcript) result.1.proof.layers) := by
  have hpublic := heval.publicInputs_eq_ok (n := circuit.numPublicInputs)
    (by rw [hinputs]; exact hwf.numPublicInputs_le)
  have hrun := prover_runProtocol_holds J hwf.shaped hshort hlayout hpublic
    keeps hstart hlayer
  rw [prove, heval.outputs_eq_ok, ok_bind, assert_of hzero, ok_bind,
    heval.inputs_eq_ok, ok_bind, ensure_of hinputs, ok_bind]
  refine J.bind hrun ?_
  rintro ⟨⟨constraints, filled⟩, transcript'⟩ ⟨proof, allWires, hproof, hshape,
    hkeeps, hfinish⟩
  simp only at hproof hfinish
  subst hproof
  exact J.ok ⟨hshape, ⟨allWires, hkeeps⟩, hfinish⟩

omit [LawfulProofField F] in
/-- Before the first layer the prover's wires are those of the evaluation. -/
theorem honestKeeps_nil (circuit : Circuit F) (evaluation : Evaluation F)
    (transcript : Transcript) (values : Nat → F) :
    HonestKeeps circuit evaluation transcript values []
      (evaluation.wires.map fun layer => ⟨layer, layer⟩) := by
  refine ⟨fun j _ => List.getElem?_map .., fun i hi => ?_⟩
  cases hi

/-- The prover returns on every evaluation with zero outputs. -/
theorem prove_returns {circuit : Circuit F} (hwf : circuit.WellFormed)
    (hlogw : ∀ layer ∈ circuit.layers,
      layer.logw = Nat.clog 2 layer.numWires)
    (transcript : Transcript) {inputs : List F} {evaluation : Evaluation F}
    (heval : circuit.Evaluates inputs evaluation)
    (hinputs : inputs.length = circuit.numInputs)
    (hzero : ∀ output ∈ evaluation.wires.getD 0 [], output = 0)
    {witness : Witness F} (hlayout : witness.layout = witnessLayout circuit)
    (hlength : witness.values.length = witness.layout.length) :
    Returns (prove circuit evaluation transcript witness)
      (Proves circuit evaluation transcript (element witness.values)
        (inputs.take circuit.numPublicInputs)) := by
  have hshort : ∀ layer ∈ circuit.layers, layer.logw < 64 :=
    fun _ hlayer => logw_lt_of_clog hwf.shaped hlogw hlayer
  have hrun := prove_holds .returns hwf hshort transcript heval hinputs hzero
    hlayout _ (honestKeeps_nil circuit evaluation transcript
      (element witness.values)) fun proofLayers role hi hkeeps =>
      honest_runLayer_returns hwf.shaped hshort transcript
        (evaluates_length hwf heval hinputs) hlayout hlength hi
        (hlogw _ (List.getElem_mem hi)) hkeeps
  refine Returns.mono hrun fun result h => ?_
  obtain ⟨hshape, ⟨-, -, hmasks⟩, hfinish⟩ := h
  exact ⟨hshape, hmasks, hfinish⟩

end Run

end Longfellow.Sumcheck
