/-
The dense array that a sparse one stands for: what binding the gates and the
hands does to it, and the single element that all rounds leave behind.
-/
import Longfellow.Sumcheck.Reduce
import Longfellow.Sumcheck.Script
import Longfellow.Sample

namespace Longfellow.SparseSumcheckArray

open Exec Multilinear SparseQuadElement Sumcheck

section Dense

variable {F : Type} [Field F]

/-- The coefficients at a gate and a pair of wires, taken together. -/
def dense (elements : List (SparseQuadElement F)) (gate : Nat)
    (w : Hands Nat) : F :=
  (elements.map fun e =>
    if e.gateIndex = gate ∧ e.wires = w then e.coefficient else 0).sum

theorem dense_eq_denote {elements : List (SparseQuadElement F)}
    (hgate : ∀ e ∈ elements, e.gateIndex = 0) (w : Hands Nat) :
    dense elements 0 w = denote elements fun v => if v = w then 1 else 0 := by
  rw [dense, denote]
  congr 1
  apply List.map_congr_left
  intro e he
  by_cases hw : e.wires = w
  · rw [if_pos ⟨hgate e he, hw⟩, if_pos hw, mul_one]
  · rw [if_neg fun h => hw h.2, if_neg hw, mul_zero]

theorem dense_eq_zero {elements : List (SparseQuadElement F)} {gate : Nat}
    (hgate : ∀ e ∈ elements, e.gateIndex ≠ gate) (w : Hands Nat) :
    dense elements gate w = 0 := by
  rw [dense, List.sum_eq_zero]
  intro c hc
  obtain ⟨e, he, rfl⟩ := List.mem_map.mp hc
  exact if_neg fun h => hgate e he h.1

theorem set_half_eq_iff (hand : Hand) (v w : Hands Nat) :
    v.set hand (v.get hand / 2) = w ↔
      v = w.set hand (2 * w.get hand + v.get hand % 2) := by
  obtain ⟨l, r⟩ := v
  obtain ⟨l', r'⟩ := w
  cases hand
  · simp only [Hands.set, Hands.get, Hands.mk.injEq]
    omega
  · simp only [Hands.set, Hands.get, Hands.mk.injEq]
    omega

/-- Read backwards through a bound hand, an entry is the two entries that it
is bound from. -/
theorem pull_indicator (hand : Hand) (x : F) (w v : Hands Nat) :
    pull hand x (fun u => if u = w then 1 else 0) v =
      (1 - x) * (if v = w.set hand (2 * w.get hand) then 1 else 0) +
        x * (if v = w.set hand (2 * w.get hand + 1) then 1 else 0) := by
  have hget (n : Nat) : (w.set hand n).get hand = n := Hands.get_set_self w hand n
  have hother {n m : Nat} (hne : n ≠ m) : w.set hand n ≠ w.set hand m := by
    intro h
    apply hne
    rw [← hget n, h, hget]
  rw [pull, weight]
  simp only [set_half_eq_iff]
  rcases Nat.mod_two_eq_zero_or_one (v.get hand) with heven | hodd
  · rw [heven, if_pos rfl, Nat.add_zero]
    by_cases hv : v = w.set hand (2 * w.get hand)
    · rw [if_pos hv, hv, if_neg (hother (by omega)), mul_zero, add_zero]
    · have hv' : v ≠ w.set hand (2 * w.get hand + 1) := by
        intro h
        rw [h, hget] at heven
        omega
      rw [if_neg hv, if_neg hv', mul_zero, mul_zero, add_zero]
  · rw [hodd, if_neg (by decide)]
    by_cases hv : v = w.set hand (2 * w.get hand + 1)
    · rw [if_pos hv, hv, if_neg (hother (by omega)), mul_zero, zero_add]
    · have hv' : v ≠ w.set hand (2 * w.get hand) := by
        intro h
        rw [h, hget] at hodd
        omega
      rw [if_neg hv, if_neg hv', mul_zero, mul_zero, add_zero]

theorem denote_add_mul (elements : List (SparseQuadElement F))
    (a b : F) (f g : Hands Nat → F) :
    denote elements (fun v => a * f v + b * g v) =
      a * denote elements f + b * denote elements g := by
  induction elements with
  | nil => simp
  | cons e rest ih =>
      rw [denote_cons, denote_cons, denote_cons, ih]
      ring

theorem gateIndex_bound (hand : Hand) (x : F)
    (elements : List (SparseQuadElement F)) :
    ∀ e ∈ bound hand x elements, e.gateIndex = 0 := by
  refine Morton.forall_mem_mergePairs (P := fun _ => True)
    (Q := fun e : SparseQuadElement F => e.gateIndex = 0) ?_ ?_ ?_
  · intro e _
    rw [bindSingle, gateIndex_new]
  · intro e d _ _ _
    rw [bindPair, gateIndex_new]
  · exact fun _ _ => True.intro

/-- Binding a hand of a sparse array binds the dense one, in whatever order
its elements are and however often a position occurs. -/
theorem bindHand_returns_dense {array : SparseSumcheckArray F}
    (hgate : ∀ e ∈ array.contents, e.gateIndex = 0) (hand : Hand) (x : F) :
    Returns (array.bindHand hand x) fun result =>
      (∀ e ∈ result.contents, e.gateIndex = 0) ∧ ∀ w : Hands Nat,
        dense result.contents 0 w =
          (1 - x) * dense array.contents 0 (w.set hand (2 * w.get hand)) +
            x * dense array.contents 0 (w.set hand (2 * w.get hand + 1)) := by
  refine Returns.of_eq (bindHand_eq_ok hgate hand x)
    ⟨gateIndex_bound hand x array.contents, fun w => ?_⟩
  rw [dense_eq_denote (gateIndex_bound hand x array.contents),
    dense_eq_denote hgate, dense_eq_denote hgate, denote_bound,
    ← denote_add_mul]
  congr 1
  funext v
  exact pull_indicator hand x w v

/-- The odd neighbour comes first, and again after the even one. -/
theorem bindHand_returns_dense_repeated :
    let array : SparseSumcheckArray FieldP128 :=
      ⟨[⟨0, 3, 1, 5⟩, ⟨0, 2, 1, 1⟩, ⟨0, 3, 1, 2⟩]⟩
    Returns (array.bindHand .left 7) fun result =>
      (∀ e ∈ result.contents, e.gateIndex = 0) ∧ ∀ w : Hands Nat,
        dense result.contents 0 w =
          (1 - 7) * dense array.contents 0 (w.set .left (2 * w.get .left)) +
            7 * dense array.contents 0
              (w.set .left (2 * w.get .left + 1)) := by
  intro array
  exact bindHand_returns_dense (by decide) .left 7

end Dense

section Gates

variable {F : Type} [Field F]

/-- Binding every gate bit leaves nothing at other gates than the first. -/
theorem bindAll_eq_zero {xs : List F} {A : Nat → F}
    (hA : ∀ g, 2 ^ xs.length ≤ g → A g = 0) {g : Nat} (hg : g ≠ 0) :
    bindAll xs A g = 0 := by
  induction xs generalizing A with
  | nil =>
      rw [bindAll]
      exact hA g (Nat.one_le_iff_ne_zero.mpr hg)
  | cons x xs ih =>
      rw [bindAll]
      apply ih
      intro i hi
      apply bindAt_eq_zero hA
      rw [List.length_cons, pow_succ]
      omega

/-- The weights of the gates are those that binding one gate bit after the
other gives them. -/
theorem sum_eqWeight_eq_bindAll {elements : List (SparseQuadElement F)}
    {xs : List F} (hgate : ∀ e ∈ elements, e.gateIndex < 2 ^ xs.length)
    (w : Hands Nat) :
    (elements.map fun e => eqWeight xs e.gateIndex *
      if e.wires = w then e.coefficient else 0).sum =
        bindAll xs (fun gate => dense elements gate w) 0 := by
  have hkeys := sum_by_key (fun e : SparseQuadElement F => e.gateIndex)
    (eqWeight xs) (fun e => if e.wires = w then e.coefficient else 0) hgate
  rw [bindAll_zero_eq_sum_pow, hkeys]
  apply Finset.sum_congr rfl
  intro gate _
  rw [dense]
  congr 2
  apply List.map_congr_left
  intro e _
  by_cases he : e.gateIndex = gate
  · simp only [he, true_and, if_true]
  · rw [if_neg he, if_neg fun h => he h.1]

theorem gateIndex_compact (elements : List (SparseQuadElement F))
    (bindings0 bindings1 : List F) (alpha : F) :
    ∀ e ∈ compact (elements.map (bindGate bindings0 bindings1 alpha)),
      e.gateIndex = 0 := by
  have hfrom (rest : List (SparseQuadElement F)) :
      ∀ last : SparseQuadElement F, last.gateIndex = 0 →
        (∀ e ∈ rest, e.gateIndex = 0) →
          ∀ e ∈ compactFrom last rest, e.gateIndex = 0 := by
    induction rest with
    | nil =>
        intro last hlast _ e he
        rw [compactFrom, List.mem_singleton] at he
        rw [he, hlast]
    | cons d rest ih =>
        intro last hlast hrest
        rw [List.forall_mem_cons] at hrest
        rw [compactFrom]
        by_cases hsame : sameWires last d
        · rw [if_pos hsame]
          exact ih _ hlast hrest.2
        · rw [if_neg hsame, List.forall_mem_cons]
          exact ⟨hlast, ih d hrest.1 hrest.2⟩
  cases elements with
  | nil => simp [compact]
  | cons e rest =>
      apply hfrom _ _ rfl
      intro d hd
      obtain ⟨c, -, rfl⟩ := List.mem_map.mp hd
      rfl

theorem dense_compact {elements : List (SparseQuadElement F)}
    {bindings0 bindings1 : List F}
    (hsame : bindings0.length = bindings1.length)
    (hgate : ∀ e ∈ elements, e.gateIndex < 2 ^ bindings0.length)
    (alpha : F) (gate : Nat) (w : Hands Nat) :
    dense (compact (elements.map (bindGate bindings0 bindings1 alpha))) gate w =
      bindAll bindings0 (fun g => dense elements g w) gate +
        alpha * bindAll bindings1 (fun g => dense elements g w) gate := by
  have hzero := gateIndex_compact elements bindings0 bindings1 alpha
  by_cases hfirst : gate = 0
  · rw [hfirst, dense_eq_denote hzero, denote_compact_bindGate,
      ← sum_eqWeight_eq_bindAll hgate,
      ← sum_eqWeight_eq_bindAll (by rwa [← hsame]), ← List.sum_map_mul_left,
      ← List.sum_map_add]
    congr 1
    apply List.map_congr_left
    intro e _
    rw [gateWeight]
    by_cases hw : e.wires = w
    · rw [if_pos hw, if_pos hw]
      ring
    · rw [if_neg hw, if_neg hw]
      ring
  · have hhigh (g : Nat) (hg : 2 ^ bindings0.length ≤ g) :
        dense elements g w = 0 :=
      dense_eq_zero (fun e he => ((hgate e he).trans_le hg).ne) w
    rw [dense_eq_zero (fun e he h => hfirst ((hzero e he).symm.trans h).symm),
      bindAll_eq_zero hhigh hfirst,
      bindAll_eq_zero (by rwa [← hsame]) hfirst, mul_zero, add_zero]

variable [DecidableEq F]

/-- The interleaved wires of an element. -/
def wiresKey (e : SparseQuadElement F) : BitVec 128 :=
  interleave (.ofNat 64 e.rightWireIndex) (.ofNat 64 e.leftWireIndex)

omit [DecidableEq F] in
/-- A table of weights has fewer than 64 bits of index. -/
theorem bindvGate_ensures_length (array : SparseSumcheckArray F)
    (bindings0 bindings1 : List F) (alpha : F) :
    Ensures (array.bindvGate bindings0 bindings1 alpha) fun _ =>
      bindings0.length < 64 := by
  intro result h
  rw [bindvGate] at h
  obtain ⟨_, -, h⟩ := Exec.bind_eq_ok.mp h
  cases hmax : (array.contents.map fun e => e.gateIndex).max? with
  | none =>
      rw [hmax] at h
      cases h
  | some gate =>
      rw [hmax] at h
      obtain ⟨_, -, h⟩ := Exec.bind_eq_ok.mp h
      obtain ⟨_, -, h⟩ := Exec.bind_eq_ok.mp h
      obtain ⟨table, htable, -⟩ := Exec.bind_eq_ok.mp h
      rw [bindeq] at htable
      obtain ⟨_, hinner, -⟩ := Exec.bind_eq_ok.mp htable
      rw [bindeqInner] at hinner
      obtain ⟨_, hassert, -⟩ := Exec.bind_eq_ok.mp hinner
      exact assert_eq_ok.mp hassert

omit [Field F] [DecidableEq F] in
theorem wiresKey_lt_iff (e d : SparseQuadElement F) :
    wiresKey e < wiresKey d ↔ e.key 128 .left < d.key 128 .left := by
  rw [BitVec.lt_def, wiresKey, wiresKey, toNat_interleave, toNat_interleave]
  rfl

/-- Whatever an array holds, if its gates can be bound then the result has the
dense array of the bound gates; if it is in order, each pair of wires occurs
once, in the order of the interleaved wires. -/
theorem bindvGate_ensures_dense {array : SparseSumcheckArray F}
    (hne : array.contents ≠ []) {bindings0 bindings1 : List F}
    (hsame : bindings0.length = bindings1.length)
    (hgate : ∀ e ∈ array.contents, e.gateIndex < 2 ^ bindings0.length)
    (alpha : F) :
    (bindings0.length < 64 →
      (array.bindvGate bindings0 bindings1 alpha).isOk) ∧
    Ensures (array.bindvGate bindings0 bindings1 alpha) fun result =>
      (∀ gate w, dense result.contents gate w =
        bindAll bindings0 (fun g => dense array.contents g w) gate +
          alpha * bindAll bindings1 (fun g => dense array.contents g w) gate) ∧
      ((∀ e ∈ array.contents, e.InRange) →
        isSorted array.contents = .ok true →
          result.contents.Pairwise (fun e d => wiresKey e < wiresKey d) ∧
            (result.contents.map SparseQuadElement.wires).Nodup) := by
  constructor
  · intro hlength
    rw [bindvGate_eq_ok hne hlength hsame hgate alpha]
    rfl
  · intro result hresult
    have hlength := bindvGate_ensures_length array bindings0 bindings1 alpha
      result hresult
    rw [bindvGate_eq_ok hne hlength hsame hgate alpha, Except.ok.injEq]
      at hresult
    subst hresult
    refine ⟨fun gate w => dense_compact hsame hgate alpha gate w,
      fun hrange hsorted => ?_⟩
    have haligned := aligned_compact (le_refl 64) hne hrange
      (isSorted_eq_ok.mp hsorted) bindings0 bindings1 alpha
    constructor
    · exact haligned.increasing.imp fun h => (wiresKey_lt_iff _ _).mpr h
    · rw [List.Nodup, List.pairwise_map]
      refine haligned.increasing.imp fun {e d} h heq => ?_
      simp only [wires, Hands.mk.injEq] at heq
      rw [SparseQuadElement.key, SparseQuadElement.key] at h
      simp only [handWire, Hand.opposite, heq.1, heq.2] at h
      exact lt_irrefl _ h

/-- Two gates on the same wires, and a gate after them. -/
theorem bindvGate_ensures_dense_three :
    let array : SparseSumcheckArray FieldP128 :=
      ⟨[⟨0, 1, 0, 3⟩, ⟨1, 1, 0, 4⟩, ⟨1, 0, 1, 5⟩]⟩
    ([(6 : FieldP128)].length < 64 → (array.bindvGate [6] [7] 8).isOk) ∧
    Ensures (array.bindvGate [6] [7] 8) fun result =>
      (∀ gate w, dense result.contents gate w =
        bindAll [6] (fun g => dense array.contents g w) gate +
          8 * bindAll [7] (fun g => dense array.contents g w) gate) ∧
      ((∀ e ∈ array.contents, e.InRange) →
        isSorted array.contents = .ok true →
          result.contents.Pairwise (fun e d => wiresKey e < wiresKey d) ∧
            (result.contents.map SparseQuadElement.wires).Nodup) := by
  intro array
  have hne : array.contents ≠ [] := List.cons_ne_nil _ _
  have hsame : [(6 : FieldP128)].length = [(7 : FieldP128)].length := rfl
  have hgate : ∀ e ∈ array.contents,
      e.gateIndex < 2 ^ [(6 : FieldP128)].length := by
    simp [array]
  exact bindvGate_ensures_dense hne hsame hgate 8

end Gates

section Interleave

/-- The bits of the two integers alternate, those of the left one first. -/
theorem getLsbD_interleave (right left : BitVec 64) {i : Nat} (hi : i < 64) :
    (interleave right left).getLsbD (2 * i) = left.getLsbD i ∧
      (interleave right left).getLsbD (2 * i + 1) = right.getLsbD i := by
  have hhalf : (2 * i + 1) / 2 = i := by omega
  have hodd : (2 * i + 1) % 2 = 1 := by omega
  constructor
  · have hshift : (spread right <<< 1).getLsbD (2 * i) = false := by
      rw [BitVec.getLsbD_shiftLeft]
      rcases Nat.eq_zero_or_pos i with rfl | hpos
      · rfl
      · have hprevious : (2 * i - 1) % 2 = 1 := by omega
        rw [getLsbD_spread _ (by omega), hprevious]
        simp
    rw [interleave, BitVec.getLsbD_or, getLsbD_spread _ (by omega), hshift]
    simp
  · have hshift : (spread right <<< 1).getLsbD (2 * i + 1) =
        right.getLsbD i := by
      rw [BitVec.getLsbD_shiftLeft, Nat.add_sub_cancel,
        getLsbD_spread _ (by omega)]
      have hlt : 2 * i + 1 < 128 := by omega
      simp [hlt]
    rw [interleave, BitVec.getLsbD_or, getLsbD_spread _ (by omega), hshift,
      hodd]
    simp

theorem interleave_injective {right left right' left' : BitVec 64}
    (h : interleave right left = interleave right' left') :
    right = right' ∧ left = left' := by
  constructor
  · apply BitVec.eq_of_getLsbD_eq
    intro i hi
    rw [← (getLsbD_interleave right left hi).2, h,
      (getLsbD_interleave right' left' hi).2]
  · apply BitVec.eq_of_getLsbD_eq
    intro i hi
    rw [← (getLsbD_interleave right left hi).1, h,
      (getLsbD_interleave right' left' hi).1]

end Interleave

section Rounds

variable {F : Type} [Field F] [DecidableEq F]

/-- Every element comes before its successor. -/
def StrictlySorted (elements : List (SparseQuadElement F)) : Prop :=
  elements.IsChain fun e d => SparseQuadElement.cmp e d = .ok .lt

/-- Bind both hands to each pair of challenges, the left one first. -/
def bindHands (array : SparseSumcheckArray F) (challenges : List (F × F)) :
    Exec (SparseSumcheckArray F) :=
  challenges.foldlM
    (fun array challenge => do
      let array ← array.bindHand .left challenge.1
      array.bindHand .right challenge.2)
    array

omit [Field F] in
theorem StrictlySorted.isChain {elements : List (SparseQuadElement F)}
    (h : StrictlySorted elements) : elements.IsChain Precedes :=
  h.imp fun _ _ hlt => cmp_eq_ok.mp ⟨.lt, hlt, Ordering.noConfusion⟩

omit [DecidableEq F] in
theorem bindHands_eq_ok {elements : List (SparseQuadElement F)}
    (hgate : ∀ e ∈ elements, e.gateIndex = 0) (challenges : List (F × F)) :
    bindHands ⟨elements⟩ challenges = .ok ⟨boundAll .left
      (challenges.flatMap fun challenge => [challenge.1, challenge.2])
      elements⟩ := by
  induction challenges generalizing elements with
  | nil => rfl
  | cons challenge challenges ih =>
      have hleft : bindHand ⟨elements⟩ .left challenge.1 = _ :=
        bindHand_eq_ok hgate .left challenge.1
      have hright : bindHand ⟨bound .left challenge.1 elements⟩ .right
          challenge.2 = _ :=
        bindHand_eq_ok (gateIndex_bound .left challenge.1 elements) _ _
      rw [bindHands, List.foldlM_cons, hleft, ok_bind, hright, ok_bind]
      exact ih (gateIndex_bound _ _ _)

omit [DecidableEq F] in
/-- An array with the one element that has all indices zero stays like that. -/
theorem boundAll_single {elements : List (SparseQuadElement F)} {xs : List F}
    (h : ∃ coefficient, boundAll .left xs elements = [⟨0, 0, 0, coefficient⟩])
    (ys : List F) : ∃ coefficient,
      boundAll .left (xs ++ ys) elements = [⟨0, 0, 0, coefficient⟩] := by
  induction ys using List.reverseRecOn with
  | nil => rwa [List.append_nil]
  | append_singleton ys y ih =>
      obtain ⟨coefficient, hsingle⟩ := ih
      rw [← List.append_assoc, boundAll_concat, hsingle]
      refine ⟨(1 - y) * coefficient, ?_⟩
      generalize handAt (xs ++ ys).length = hand
      cases hand
      · simp [bound, Morton.mergePairs, bindSingle, new, handWire,
          Hand.opposite]
      · simp [bound, Morton.mergePairs, bindSingle, new, handWire,
          Hand.opposite]

omit [DecidableEq F] in
/-- An array in order, with its gates bound, is reduced to one element by as
many rounds as its wires have bits. -/
theorem boundAll_compact {elements : List (SparseQuadElement F)}
    (hne : elements ≠ []) (hsorted : elements.IsChain Precedes)
    (hrange : ∀ e ∈ elements, e.InRange) {logw : Nat}
    (hwires : ∀ e ∈ elements, e.leftWireIndex < 2 ^ logw ∧
      e.rightWireIndex < 2 ^ logw)
    (bindings0 bindings1 : List F) (alpha : F) {xs : List F}
    (hlength : xs.length = 2 * logw) :
    ∃ coefficient, boundAll .left xs
      (compact (elements.map (bindGate bindings0 bindings1 alpha))) =
        [⟨0, 0, 0, coefficient⟩] := by
  -- indices have at most 64 bits, whatever number of rounds there is
  set bits := min logw 64 with hbits
  have hle : bits ≤ 64 := min_le_right logw 64
  have hfits : ∀ e ∈ elements, e.leftWireIndex < 2 ^ bits ∧
      e.rightWireIndex < 2 ^ bits := by
    intro e he
    rcases min_choice logw 64 with h | h
    · rw [hbits, h]
      exact hwires e he
    · rw [hbits, h]
      exact hrange e he
  have haligned := aligned_compact hle hne hfits hsorted bindings0 bindings1
    alpha
  have htake : (xs.take (2 * bits)).length = 2 * bits := by
    rw [List.length_take]
    omega
  rw [← List.take_append_drop (2 * bits) xs]
  exact boundAll_single (aligned_end haligned hle htake).single _

variable [ProofFieldElement F] [Primitives] [SamplesField F]

omit [DecidableEq F] in
/-- A round of the protocol binds a hand of the quad. -/
theorem runRound_ensures_quad (layout : WitnessLayout) (layerIndex : Nat)
    {state : RoundState F} (hgate : ∀ e ∈ state.quad.contents, e.gateIndex = 0)
    (round : Nat) (hand : Hand) :
    Ensures (runRound layout layerIndex state (round, hand)) fun next =>
      ∃ x, next.quad.contents = bound hand x state.quad.contents := by
  intro next hnext
  rw [runRound] at hnext
  obtain ⟨⟨polynomial, role⟩, -, hnext⟩ := Exec.bind_eq_ok.mp hnext
  simp only [Transcript.generateChallenge_one] at hnext
  obtain ⟨challenge, -, hnext⟩ := Exec.bind_eq_ok.mp hnext
  obtain ⟨newBinding, -, hnext⟩ := Exec.bind_eq_ok.mp hnext
  obtain ⟨role, -, hnext⟩ := Exec.bind_eq_ok.mp hnext
  obtain ⟨quad, hquad, hnext⟩ := Exec.bind_eq_ok.mp hnext
  obtain ⟨⟨p0Witness, p2Witness⟩, -, hnext⟩ := Exec.bind_eq_ok.mp hnext
  rw [bindHand_eq_ok hgate, Except.ok.injEq] at hquad
  simp only [pure_eq_ok, Except.ok.injEq] at hnext
  subst hquad hnext
  exact ⟨challenge, rfl⟩

omit [DecidableEq F] in
/-- The rounds of a layer bind both hands in turn. -/
theorem runRounds_ensure_quad (layout : WitnessLayout) (layerIndex logw : Nat)
    {state : RoundState F}
    (hgate : ∀ e ∈ state.quad.contents, e.gateIndex = 0) :
    Ensures ((rounds logw).foldlM (runRound layout layerIndex) state)
      fun last => ∃ xs, xs.length = 2 * logw ∧
        last.quad.contents = boundAll .left xs state.quad.contents := by
  have hloop := Ensures.foldlM (f := runRound layout layerIndex)
    (I := fun k (next : RoundState F) =>
      (∀ e ∈ next.quad.contents, e.gateIndex = 0) ∧ ∃ xs, xs.length = k ∧
        next.quad.contents = boundAll .left xs state.quad.contents)
    (rounds logw) (s := state) ⟨hgate, [], rfl, rfl⟩ ?_
  · rw [length_rounds] at hloop
    exact hloop.mono fun last h => h.2
  · rintro k hk next ⟨hnext, xs, hlength, hcontents⟩
    rw [getElem_rounds hk]
    refine (runRound_ensures_quad layout layerIndex hnext (k / 2)
      (handAt k)).mono ?_
    rintro after ⟨x, hafter⟩
    constructor
    · rw [hafter]
      exact gateIndex_bound _ _ _
    · refine ⟨xs ++ [x], by rw [List.length_append, hlength]; rfl, ?_⟩
      rw [boundAll_concat, hafter, hlength, hcontents]

/-- An array in strictly increasing order is reduced to one element at the
indices zero: by its own operations, and by the rounds of a layer in either
role, whose assertions hold. The order interleaves the bits of all wires. -/
theorem bindvGate_bindHands_single {elements : List (SparseQuadElement F)}
    (hne : elements ≠ []) (hsorted : StrictlySorted elements)
    (hrange : ∀ e ∈ elements, e.InRange) {logw : Nat}
    (hwires : ∀ e ∈ elements, e.leftWireIndex < 2 ^ logw ∧
      e.rightWireIndex < 2 ^ logw)
    {bindings0 bindings1 : List F}
    (hsame : bindings0.length = bindings1.length)
    (hgate : ∀ e ∈ elements, e.gateIndex < 2 ^ bindings0.length) (alpha : F)
    {challenges : List (F × F)} (hlength : challenges.length = logw) :
    (bindings0.length < 64 →
      (bindvGate ⟨elements⟩ bindings0 bindings1 alpha).isOk) ∧
    (∀ quad, bindvGate ⟨elements⟩ bindings0 bindings1 alpha = .ok quad →
      (Returns (bindHands quad challenges) fun result =>
        ∃ coefficient, result.contents = [⟨0, 0, 0, coefficient⟩]) ∧
      ∀ (layout : WitnessLayout) (layerIndex : Nat) (state : RoundState F),
        state.quad = quad →
          Ensures ((rounds logw).foldlM (runRound layout layerIndex) state)
            fun last => ∃ coefficient,
              last.quad.contents = [⟨0, 0, 0, coefficient⟩]) ∧
    (∀ (right left : BitVec 64) (i : Nat), i < 64 →
      (interleave right left).getLsbD (2 * i) = left.getLsbD i ∧
        (interleave right left).getLsbD (2 * i + 1) = right.getLsbD i) ∧
    ∀ right left right' left' : BitVec 64,
      interleave right left = interleave right' left' →
        right = right' ∧ left = left' := by
  refine ⟨fun hshort => ?_, fun quad hquad => ?_,
    fun right left i hi => getLsbD_interleave right left hi,
    fun _ _ _ _ h => interleave_injective h⟩
  · rw [bindvGate_eq_ok hne hshort hsame hgate alpha]
    rfl
  · have hshort := bindvGate_ensures_length ⟨elements⟩ bindings0 bindings1 alpha
      quad hquad
    rw [bindvGate_eq_ok hne hshort hsame hgate alpha, Except.ok.injEq] at hquad
    subst hquad
    have hzero := gateIndex_compact elements bindings0 bindings1 alpha
    have hsingle {xs : List F} (hxs : xs.length = 2 * logw) :=
      boundAll_compact hne hsorted.isChain hrange hwires bindings0 bindings1
        alpha hxs
    constructor
    · refine Returns.of_eq (bindHands_eq_ok hzero challenges) (hsingle ?_)
      rw [List.length_flatMap]
      simp [hlength, Nat.mul_comm]
    · intro layout layerIndex state hstate
      have hstart : ∀ e ∈ state.quad.contents, e.gateIndex = 0 := by
        rw [hstate]
        exact hzero
      refine (runRounds_ensure_quad layout layerIndex logw hstart).mono ?_
      rintro last ⟨xs, hxs, hlast⟩
      rw [hlast, hstate]
      exact hsingle hxs

end Rounds

section Sample

open scoped Silent

/-- Two gates on the same wires, and a gate after them, in two rounds. -/
theorem bindvGate_bindHands_single_three :
    let elements : List (SparseQuadElement FieldP128) :=
      [⟨0, 1, 0, 3⟩, ⟨1, 1, 0, 4⟩, ⟨1, 2, 3, 5⟩]
    ([(6 : FieldP128)].length < 64 →
      (bindvGate ⟨elements⟩ [6] [7] 8).isOk) ∧
    (∀ quad, bindvGate ⟨elements⟩ [6] [7] 8 = .ok quad →
      (Returns (bindHands quad [(9, 10), (11, 12)]) fun result =>
        ∃ coefficient, result.contents = [⟨0, 0, 0, coefficient⟩]) ∧
      ∀ (layout : WitnessLayout) (layerIndex : Nat)
        (state : RoundState FieldP128), state.quad = quad →
          Ensures ((rounds 2).foldlM (runRound layout layerIndex) state)
            fun last => ∃ coefficient,
              last.quad.contents = [⟨0, 0, 0, coefficient⟩]) ∧
    (∀ (right left : BitVec 64) (i : Nat), i < 64 →
      (interleave right left).getLsbD (2 * i) = left.getLsbD i ∧
        (interleave right left).getLsbD (2 * i + 1) = right.getLsbD i) ∧
    ∀ right left right' left' : BitVec 64,
      interleave right left = interleave right' left' →
        right = right' ∧ left = left' := by
  intro elements
  have hsorted : StrictlySorted elements := by
    rw [StrictlySorted, List.isChain_cons_cons, List.isChain_cons_cons]
    exact ⟨by rfl, by rfl, List.isChain_singleton _⟩
  have hrange : ∀ e ∈ elements, e.leftWireIndex < 2 ^ 64 ∧
      e.rightWireIndex < 2 ^ 64 := by decide
  have hwires : ∀ e ∈ elements, e.leftWireIndex < 2 ^ 2 ∧
      e.rightWireIndex < 2 ^ 2 := by decide
  have hsame : [(6 : FieldP128)].length = [(7 : FieldP128)].length := rfl
  have hgate : ∀ e ∈ elements,
      e.gateIndex < 2 ^ [(6 : FieldP128)].length := by
    simp [elements]
  exact bindvGate_bindHands_single (List.cons_ne_nil _ _) hsorted hrange hwires
    hsame hgate 8 rfl

end Sample

end Longfellow.SparseSumcheckArray
