/-
The shortcut of the prover: instead of binding the quad, it takes the sum over
the opposite wires once, and binds the dense arrays that are left.
-/
import Longfellow.Sumcheck.Prover

namespace Longfellow.Sumcheck

open Exec Multilinear SparseSumcheckArray

section Entries

variable {F : Type} [Field F]

/-- The entry of a sparse array at a wire of a hand and one of the opposite
hand. -/
def entry (elements : List (SparseQuadElement F)) (hand : Hand) (l r : Nat) :
    F :=
  (elements.map fun e =>
    if e.handWire hand = l then
      if e.handWire hand.opposite = r then e.coefficient else 0
    else 0).sum

/-- The sum over the elements of an array is the sum over all its entries. -/
theorem wireSum_eq_sum_entry (hand : Hand)
    {elements : List (SparseQuadElement F)} {n m : Nat}
    (hrange : ∀ e ∈ elements,
      e.handWire hand < n ∧ e.handWire hand.opposite < m)
    (wires : Hands (Nat → F)) :
    wireSum elements wires = ∑ l ∈ Finset.range n, ∑ r ∈ Finset.range m,
      entry elements hand l r * wires.get hand l *
        wires.get hand.opposite r := by
  have hleft := sum_by_key (fun e : SparseQuadElement F => e.handWire hand)
    (wires.get hand)
    (fun e => e.coefficient *
      wires.get hand.opposite (e.handWire hand.opposite))
    fun e he => (hrange e he).1
  have hright (l : Nat) := sum_by_key
    (fun e : SparseQuadElement F => e.handWire hand.opposite)
    (wires.get hand.opposite)
    (fun e => if e.handWire hand = l then e.coefficient else 0)
    fun e he => (hrange e he).2
  rw [wireSum_eq hand]
  calc (elements.map fun e => e.coefficient *
        wires.get hand.opposite (e.handWire hand.opposite) *
          wires.get hand (e.handWire hand)).sum
      = ∑ l ∈ Finset.range n, wires.get hand l *
          (elements.map fun e => if e.handWire hand = l then e.coefficient *
            wires.get hand.opposite (e.handWire hand.opposite) else 0).sum := by
        rw [← hleft]
        refine congrArg List.sum (List.map_congr_left fun e _ => ?_)
        ring
    _ = ∑ l ∈ Finset.range n, wires.get hand l *
          ∑ r ∈ Finset.range m, wires.get hand.opposite r *
            (elements.map fun e => if e.handWire hand.opposite = r then
              if e.handWire hand = l then e.coefficient else 0 else 0).sum := by
        refine Finset.sum_congr rfl fun l _ => ?_
        rw [← hright l]
        refine congrArg _ (congrArg List.sum (List.map_congr_left fun e _ => ?_))
        split
        · ring
        · ring
    _ = _ := by
        refine Finset.sum_congr rfl fun l _ => ?_
        rw [Finset.mul_sum]
        refine Finset.sum_congr rfl fun r _ => ?_
        have hentry : (elements.map fun e =>
            if e.handWire hand.opposite = r then
              if e.handWire hand = l then e.coefficient else 0
            else 0).sum = entry elements hand l r := by
          refine congrArg List.sum (List.map_congr_left fun e _ => ?_)
          by_cases hl : e.handWire hand = l
          · simp [hl]
          · simp [hl]
        rw [hentry]
        ring

/-- The wires of an element are the two of an entry. -/
def indicator (hand : Hand) (l r : Nat) (w : Hands Nat) : F :=
  if w.get hand = l then if w.get hand.opposite = r then 1 else 0 else 0

theorem entry_eq_denote (elements : List (SparseQuadElement F)) (hand : Hand)
    (l r : Nat) :
    entry elements hand l r = denote elements (indicator hand l r) := by
  refine congrArg List.sum (List.map_congr_left fun e _ => ?_)
  rw [indicator, ← SparseQuadElement.handWire_eq,
    ← SparseQuadElement.handWire_eq]
  simp

theorem pull_indicator (hand : Hand) (x : F) (l r : Nat) (w : Hands Nat) :
    pull hand x (indicator hand l r) w =
      (1 - x) * indicator hand (2 * l) r w +
        x * indicator hand (2 * l + 1) r w := by
  rw [pull, indicator, indicator, indicator, Hands.get_set_self,
    Hands.get_set_opposite]
  rcases Nat.mod_two_eq_zero_or_one (w.get hand) with heven | hodd
  · have hiff : w.get hand / 2 = l ↔ w.get hand = 2 * l := by omega
    have hne : w.get hand ≠ 2 * l + 1 := by omega
    simp only [weight, if_pos heven, hiff, if_neg hne, mul_zero, add_zero]
  · have hiff : w.get hand / 2 = l ↔ w.get hand = 2 * l + 1 := by omega
    have hne : w.get hand ≠ 2 * l := by omega
    have hweight : ¬ w.get hand % 2 = 0 := by omega
    simp only [weight, if_neg hweight, hiff, if_neg hne, mul_zero, zero_add]

/-- Binding a hand of a sparse array binds its entries. -/
theorem entry_bound (hand : Hand) (x : F)
    (elements : List (SparseQuadElement F)) (l r : Nat) :
    entry (bound hand x elements) hand l r =
      bindAt x (fun l => entry elements hand l r) l := by
  rw [entry_eq_denote, denote_bound, bindAt, entry_eq_denote, entry_eq_denote,
    denote, denote, denote, ← List.sum_map_mul_left, ← List.sum_map_mul_left,
    ← List.sum_map_add]
  refine congrArg List.sum (List.map_congr_left fun e _ => ?_)
  rw [pull_indicator]
  ring

end Entries

section Shortcut

variable {F : Type} [Field F] [ProofFieldElement F] [LawfulProofField F]

/-- The generic way to bind an element, at a field element. -/
def slowPath (array : List F) (x : F) (i : Nat) : F :=
  element array (2 * i) +
    x * (element array (2 * i + 1) - element array (2 * i))

/-- The shortcut of the prover computes the polynomial of the specification,
and so do the shortcuts of binding. -/
theorem evaluatePolynomial_computeA {quad : SparseSumcheckArray F}
    (hgate : ∀ e ∈ quad.contents, e.gateIndex = 0) {wires : Hands (List F)}
    (hrange : ∀ e ∈ quad.contents, e.leftWireIndex < wires.left.length ∧
      e.rightWireIndex < wires.right.length)
    (hleft : 2 ≤ wires.left.length) (hright : 2 ≤ wires.right.length)
    (hand : Hand) (binding : Binding F) :
    (∃ table bound, quad.computeA hand wires = .ok table ∧
      quad.bindHand hand binding.value = .ok bound ∧
      (∀ l r, entry bound.contents hand l r =
        bindAt binding.value (fun l => entry quad.contents hand l r) l) ∧
      ∀ n m, ((wires.get hand).length + 1) / 2 ≤ n →
        (wires.get hand.opposite).length ≤ m →
        evaluatePolynomial table (wires.get hand) binding =
          .ok (∑ l ∈ Finset.range n, ∑ r ∈ Finset.range m,
            entry bound.contents hand l r *
              bindAt binding.value (element (wires.get hand)) l *
                element (wires.get hand.opposite) r)) ∧
    (∀ array : List F, ∀ i,
      boundElementAt array binding i = slowPath array binding.value i) ∧
    bind (wires.get hand) binding = bindIter (wires.get hand) binding := by
  have hrange (e) (he : e ∈ quad.contents) :
      e.handWire hand < (wires.get hand).length ∧
        e.handWire hand.opposite < (wires.get hand.opposite).length := by
    cases hand with
    | left => exact hrange e he
    | right => exact (hrange e he).symm
  have hlength : 1 < (wires.get hand).length := by
    cases hand with
    | left => exact hleft
    | right => exact hright
  obtain ⟨table, htable, hvalue⟩ :=
    computeA_evaluatePolynomial hrange hlength
  refine ⟨⟨table, ⟨bound hand binding.value quad.contents⟩, htable,
    bindHand_eq_ok hgate hand binding.value, ?_, ?_⟩, ?_, ?_⟩
  · exact entry_bound hand binding.value quad.contents
  · intro n m hn hm
    have hbound : ∀ e ∈ bound hand binding.value quad.contents,
        e.handWire hand < n ∧ e.handWire hand.opposite < m := by
      refine mem_bound (fun e c he => ?_) hrange
      rw [SparseQuadElement.handWire_new,
        SparseQuadElement.handWire_new_opposite]
      exact ⟨by omega, by omega⟩
    rw [hvalue binding, roundSum, wireSum_eq_sum_entry hand hbound]
    cases hand with
    | left => rfl
    | right => rfl
  · intro array i
    rw [boundElementAt_eq_bindAt, bindAt, slowPath]
    ring
  · rw [bind_eq_ok hlength, bindIter_eq_ok hlength]

end Shortcut

section Sample

/-- Wire arrays of odd and of even length, with a quad that meets the last
wire of both. -/
theorem evaluatePolynomial_computeA_sample :
    let quad : SparseSumcheckArray FieldP128 :=
      ⟨[⟨0, 0, 0, 1⟩, ⟨0, 1, 0, 2⟩, ⟨0, 2, 1, 3⟩]⟩
    let wires : Hands (List FieldP128) := ⟨[5, 6, 7], [8, 9]⟩
    ∃ table bound, quad.computeA .left wires = .ok table ∧
      quad.bindHand .left 2 = .ok bound ∧
      evaluatePolynomial table wires.left .sumcheckP2 =
        .ok (∑ l ∈ Finset.range 2, ∑ r ∈ Finset.range 2,
          entry bound.contents .left l r *
            bindAt 2 (element wires.left) l * element wires.right r) := by
  intro quad wires
  have hgate : ∀ e ∈ quad.contents, e.gateIndex = 0 := by decide
  have hrange : ∀ e ∈ quad.contents, e.leftWireIndex < wires.left.length ∧
      e.rightWireIndex < wires.right.length := by decide
  obtain ⟨⟨table, bound, htable, hbound, -, hvalue⟩, -⟩ :=
    evaluatePolynomial_computeA hgate hrange (by decide) (by decide) .left
      .sumcheckP2
  exact ⟨table, bound, htable, hbound, hvalue 2 2 (by decide) (by decide)⟩

end Sample

end Longfellow.Sumcheck
