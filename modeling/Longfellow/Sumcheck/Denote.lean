/-
The dense function that a sparse array denotes, and what binding the gate and
the hands does to it.
-/
import Longfellow.Sumcheck.Sparse

namespace Longfellow

open Exec Multilinear

namespace SparseQuadElement

variable {F : Type}

/-- The wire indices of an element. -/
def wires (e : SparseQuadElement F) : Hands Nat :=
  ⟨e.leftWireIndex, e.rightWireIndex⟩

theorem handWire_eq (e : SparseQuadElement F) (hand : Hand) :
    e.handWire hand = e.wires.get hand := by
  cases hand <;> rfl

@[simp] theorem handWire_new (gate : Nat) (hand : Hand) (w o : Nat) (c : F) :
    (new gate hand w o c).handWire hand = w := by
  cases hand <;> rfl

@[simp] theorem handWire_new_opposite (gate : Nat) (hand : Hand) (w o : Nat)
    (c : F) : (new gate hand w o c).handWire hand.opposite = o := by
  cases hand <;> rfl

@[simp] theorem coefficient_new (gate : Nat) (hand : Hand) (w o : Nat) (c : F) :
    (new gate hand w o c).coefficient = c := by
  cases hand <;> rfl

@[simp] theorem gateIndex_new (gate : Nat) (hand : Hand) (w o : Nat) (c : F) :
    (new gate hand w o c).gateIndex = gate := by
  cases hand <;> rfl

theorem wires_new_eq_set (e : SparseQuadElement F) (gate : Nat) (hand : Hand)
    (w : Nat) (c : F) :
    (new gate hand w (e.handWire hand.opposite) c).wires =
      e.wires.set hand w := by
  cases hand <;> rfl

end SparseQuadElement

namespace SparseSumcheckArray

open SparseQuadElement

variable {F : Type} [Field F]

/-- The sum of a function of the wires over the array. -/
def denote (elements : List (SparseQuadElement F)) (f : Hands Nat → F) : F :=
  (elements.map fun e => e.coefficient * f e.wires).sum

/-- Read a function of the bound wires as one of the wires before. -/
def pull (hand : Hand) (x : F) (f : Hands Nat → F) (w : Hands Nat) : F :=
  weight x (w.get hand) * f (w.set hand (w.get hand / 2))

@[simp] theorem denote_nil (f : Hands Nat → F) : denote [] f = 0 := rfl

@[simp] theorem denote_cons (e : SparseQuadElement F)
    (elements : List (SparseQuadElement F)) (f : Hands Nat → F) :
    denote (e :: elements) f =
      e.coefficient * f e.wires + denote elements f := by
  simp [denote]

section BindHand

variable {hand : Hand} {x : F}

/-- The list that binding a hand in place leaves behind. -/
def bound (hand : Hand) (x : F) :
    List (SparseQuadElement F) → List (SparseQuadElement F) :=
  Morton.mergePairs (isPair hand) (bindSingle hand x) (bindPair hand x)

theorem bindHandLoop_eq_ok (fuel : Nat) :
    ∀ done junk rest : List (SparseQuadElement F), rest.length ≤ fuel →
      (∀ e ∈ rest, e.gateIndex = 0) →
      bindHandLoop hand x fuel (done ++ junk ++ rest) done.length
        (done ++ junk).length = .ok (done ++ bound hand x rest) := by
  induction fuel with
  | zero =>
      intro done junk rest hfuel _
      have hnil : rest = [] := by simpa using hfuel
      subst hnil
      simp [bindHandLoop, bound, Morton.mergePairs]
  | succ fuel ih =>
      intro done junk rest hfuel hgate
      have hwrite (curr b : SparseQuadElement F) (rest) :
          ∃ junk', junk'.length = junk.length ∧
            update (done ++ junk ++ curr :: rest) done.length (fun _ => b) =
              .ok (done ++ [b] ++ junk' ++ rest) := by
        refine ⟨(junk ++ [curr]).tail, by simp, ?_⟩
        rw [update_of_lt (by simp)]
        cases junk <;> simp
      rcases rest with _ | ⟨curr, _ | ⟨next, rest⟩⟩
      · simp [bindHandLoop, bound, Morton.mergePairs]
      · have hlt : (done ++ junk).length < (done ++ junk ++ [curr]).length := by
          simp
        have hread : index (done ++ junk ++ [curr]) (done ++ junk).length =
            .ok curr := by
          rw [index_eq_ok, List.getElem?_append_right le_rfl]
          simp
        have hnone : (done ++ junk ++ [curr])[(done ++ junk).length + 1]? =
            none := by
          simp
          omega
        obtain ⟨junk', hjunk, hupdate⟩ := hwrite curr (bindSingle hand x curr) []
        have hcurr : curr.gateIndex = 0 := hgate curr (by simp)
        rw [bindHandLoop, if_pos hlt, hread, ok_bind, assert_of hcurr, ok_bind,
          hnone]
        dsimp only
        rw [hupdate, ok_bind]
        have hnext := ih (done ++ [bindSingle hand x curr]) junk' [] (by simp)
          (by simp)
        simpa [hjunk, bound, Morton.mergePairs, Nat.add_assoc]
          using hnext
      · have hlt : (done ++ junk).length <
            (done ++ junk ++ curr :: next :: rest).length := by
          simp
        have hread : index (done ++ junk ++ curr :: next :: rest)
            (done ++ junk).length = .ok curr := by
          rw [index_eq_ok, List.getElem?_append_right le_rfl]
          simp
        have hsome : (done ++ junk ++ curr :: next :: rest)[
            (done ++ junk).length + 1]? = some next := by
          rw [List.getElem?_append_right (Nat.le_succ _)]
          simp
        have hcurr : curr.gateIndex = 0 := hgate curr (by simp)
        have hnextGate : next.gateIndex = 0 := hgate next (by simp)
        rw [bindHandLoop, if_pos hlt, hread, ok_bind, assert_of hcurr, ok_bind,
          hsome]
        dsimp only
        by_cases hpair : isPair hand curr next
        · obtain ⟨junk', hjunk, hupdate⟩ :=
            hwrite curr (bindPair hand x curr next) (next :: rest)
          rw [if_pos hpair, assert_of hnextGate, ok_bind, hupdate, ok_bind]
          have hnext := ih (done ++ [bindPair hand x curr next])
            (junk' ++ [next]) rest
            (by simp only [List.length_cons] at hfuel; omega)
            (fun e he => hgate e (by simp [he]))
          have hbound : bound hand x (curr :: next :: rest) =
              bindPair hand x curr next :: bound hand x rest := by
            rw [bound, Morton.mergePairs, if_pos hpair]
          rw [hbound]
          convert hnext using 2
          · simp
          · simp
          · simp [hjunk]
            omega
          · simp
        · obtain ⟨junk', hjunk, hupdate⟩ :=
            hwrite curr (bindSingle hand x curr) (next :: rest)
          rw [if_neg hpair, hupdate, ok_bind]
          have hnext := ih (done ++ [bindSingle hand x curr]) junk'
            (next :: rest)
            (by simp only [List.length_cons] at hfuel ⊢; omega)
            (fun e he => hgate e (List.mem_cons_of_mem curr he))
          have hbound : bound hand x (curr :: next :: rest) =
              bindSingle hand x curr :: bound hand x (next :: rest) := by
            rw [bound, Morton.mergePairs, if_neg hpair]
          rw [hbound]
          convert hnext using 2
          · simp
          · simp [hjunk]
            omega
          · simp

/-- Binding a hand in place writes no element that is still to be read. -/
theorem bindHand_eq_ok {array : SparseSumcheckArray F}
    (hgate : ∀ e ∈ array.contents, e.gateIndex = 0) (hand : Hand) (x : F) :
    array.bindHand hand x = .ok ⟨bound hand x array.contents⟩ := by
  have hloop : bindHandLoop hand x array.contents.length array.contents 0 0 =
      .ok (bound hand x array.contents) :=
    bindHandLoop_eq_ok array.contents.length [] [] array.contents le_rfl hgate
  rw [bindHand, hloop]
  rfl

theorem denote_bindSingle (curr : SparseQuadElement F) (f : Hands Nat → F) :
    (bindSingle hand x curr).coefficient * f (bindSingle hand x curr).wires =
      curr.coefficient * pull hand x f curr.wires := by
  rw [bindSingle, wires_new_eq_set, coefficient_new, pull, weight, handWire_eq]
  split <;> ring

theorem denote_bindPair {curr next : SparseQuadElement F}
    (hpair : isPair hand curr next) (f : Hands Nat → F) :
    (bindPair hand x curr next).coefficient *
        f (bindPair hand x curr next).wires =
      curr.coefficient * pull hand x f curr.wires +
        next.coefficient * pull hand x f next.wires := by
  simp only [isPair, isNextWire, decide_eq_true_eq, Bool.decide_and,
    Bool.and_eq_true] at hpair
  obtain ⟨heven, -, hnext, hopposite⟩ := hpair
  have hodd : ¬ next.handWire hand % 2 = 0 := by omega
  have hhalf : next.handWire hand / 2 = curr.handWire hand / 2 := by omega
  have hset : next.wires.set hand (next.handWire hand / 2) =
      curr.wires.set hand (curr.handWire hand / 2) := by
    rw [hhalf]
    cases hand
    · simp only [Hands.set, wires, handWire, Hand.opposite] at hopposite ⊢
      rw [hopposite]
    · simp only [Hands.set, wires, handWire, Hand.opposite] at hopposite ⊢
      rw [hopposite]
  rw [bindPair, wires_new_eq_set, coefficient_new, pull, pull, weight, weight,
    ← handWire_eq, ← handWire_eq, if_pos heven, if_neg hodd, hset]
  ring

/-- Binding a hand is binding the dense function, whatever the order of the
elements. -/
theorem denote_bound (f : Hands Nat → F) :
    ∀ elements : List (SparseQuadElement F),
      denote (bound hand x elements) f = denote elements (pull hand x f)
  | [] => rfl
  | [curr] => by
      simp [bound, Morton.mergePairs, denote_bindSingle]
  | curr :: next :: rest => by
      rw [bound, Morton.mergePairs]
      split
      · next hpair =>
          have hrest := denote_bound f rest
          rw [bound] at hrest
          rw [denote_cons, denote_cons, denote_cons, denote_bindPair hpair,
            hrest]
          ring
      · have hrest := denote_bound f (next :: rest)
        rw [bound] at hrest
        rw [denote_cons, denote_cons, denote_bindSingle, hrest]

end BindHand

section BindGate

/-- Take together runs of elements with the same wires. -/
def compactFrom : SparseQuadElement F → List (SparseQuadElement F) →
    List (SparseQuadElement F)
  | last, [] => [last]
  | last, e :: rest =>
      if sameWires last e then
        compactFrom { last with coefficient := last.coefficient + e.coefficient }
          rest
      else last :: compactFrom e rest

/-- The list that the compaction leaves behind. -/
def compact : List (SparseQuadElement F) → List (SparseQuadElement F)
  | [] => []
  | e :: rest => compactFrom e rest

theorem compactLoop_returns (rest : List (SparseQuadElement F)) :
    ∀ (done junk : List (SparseQuadElement F)) (last : SparseQuadElement F),
      Returns
        ((List.range' (done.length + 1 + junk.length) rest.length).foldlM
          compactStep (done ++ last :: junk ++ rest, done.length + 1))
        fun state => state.1.take state.2 = done ++ compactFrom last rest := by
  induction rest with
  | nil =>
      intro done junk last
      refine Returns.of_eq rfl ?_
      simp [compactFrom, List.take_append]
  | cons e rest ih =>
      intro done junk last
      have hread : index (done ++ last :: junk ++ e :: rest)
          (done.length + 1 + junk.length) = .ok e := by
        rw [index_eq_ok, List.getElem?_append_right (by simp; omega)]
        simp [Nat.add_assoc, Nat.add_comm 1]
      have hlast : index (done ++ last :: junk ++ e :: rest) done.length =
          .ok last := by
        rw [index_eq_ok, List.append_assoc,
          List.getElem?_append_right le_rfl]
        simp
      rw [List.length_cons, List.range'_succ, List.foldlM_cons, compactStep]
      rw [hread, ok_bind, Nat.add_sub_cancel, hlast, ok_bind]
      by_cases hsame : sameWires last e
      · rw [if_pos hsame, update_of_lt (by simp), ok_bind, pure_eq_ok, ok_bind]
        have hrest := ih done (junk ++ [e])
          { last with coefficient := last.coefficient + e.coefficient }
        rw [compactFrom, if_pos hsame]
        convert hrest using 3
        · simp
        · simp [Nat.add_assoc]
      · rw [if_neg hsame]
        have hwrite : ∃ junk', junk'.length = junk.length ∧
            update (done ++ last :: junk ++ e :: rest) (done.length + 1)
              (fun _ => e) = .ok (done ++ [last] ++ e :: junk' ++ rest) := by
          refine ⟨(junk ++ [e]).tail, by simp, ?_⟩
          rw [update_of_lt (by simp)]
          cases junk <;> simp
        obtain ⟨junk', hjunk, hupdate⟩ := hwrite
        rw [hupdate, ok_bind, pure_eq_ok, ok_bind, compactFrom, if_neg hsame]
        have hrest := ih (done ++ [last]) junk' e
        convert hrest using 3
        · simp
        · simp only [List.length_append, List.length_singleton, hjunk]
          omega
        · simp

theorem compactFrom_ne_nil (rest : List (SparseQuadElement F))
    (last : SparseQuadElement F) : compactFrom last rest ≠ [] := by
  induction rest generalizing last with
  | nil => simp [compactFrom]
  | cons e rest ih =>
      rw [compactFrom]
      split
      · exact ih _
      · simp

/-- Every element that stays has the wires of one of the list. -/
theorem mem_compactFrom {rest : List (SparseQuadElement F)} :
    ∀ {last e : SparseQuadElement F}, e ∈ compactFrom last rest →
      ∃ d ∈ last :: rest, e.wires = d.wires := by
  induction rest with
  | nil =>
      intro last e he
      rw [compactFrom, List.mem_singleton] at he
      exact ⟨last, by simp, by rw [he]⟩
  | cons d rest ih =>
      intro last e he
      rw [compactFrom] at he
      split at he
      · obtain ⟨c, hc, hwires⟩ := ih he
        rcases List.mem_cons.mp hc with rfl | hc
        · exact ⟨last, by simp, hwires⟩
        · exact ⟨c, by simp [hc], hwires⟩
      · rcases List.mem_cons.mp he with rfl | he
        · exact ⟨e, by simp, rfl⟩
        · obtain ⟨c, hc, hwires⟩ := ih he
          exact ⟨c, List.mem_cons_of_mem last hc, hwires⟩

theorem denote_compactFrom (f : Hands Nat → F)
    (rest : List (SparseQuadElement F)) (last : SparseQuadElement F) :
    denote (compactFrom last rest) f = denote (last :: rest) f := by
  induction rest generalizing last with
  | nil => rfl
  | cons e rest ih =>
      rw [compactFrom]
      split
      · next hsame =>
          simp only [sameWires, Bool.decide_and, Bool.and_eq_true,
            decide_eq_true_eq] at hsame
          have hwires : e.wires = last.wires := by
            rw [wires, wires, hsame.1, hsame.2]
          rw [ih]
          simp only [denote_cons, wires] at hwires ⊢
          rw [hwires]
          ring
      · simp only [denote_cons, ih]

/-- The weight of a gate in the bound quad of a layer. -/
def gateWeight (bindings0 bindings1 : List F) (alpha : F) (gate : Nat) : F :=
  eqWeight bindings0 gate + alpha * eqWeight bindings1 gate

/-- An element with its gate bound. -/
def bindGate (bindings0 bindings1 : List F) (alpha : F)
    (e : SparseQuadElement F) : SparseQuadElement F :=
  { e with
    coefficient := e.coefficient *
      gateWeight bindings0 bindings1 alpha e.gateIndex
    gateIndex := 0 }

/-- The gates weighted and equal wires taken together. -/
theorem bindvGate_eq_ok {array : SparseSumcheckArray F}
    {bindings0 bindings1 : List F} (hne : array.contents ≠ [])
    (hlength : bindings0.length < 64)
    (hsame : bindings0.length = bindings1.length)
    (hgate : ∀ e ∈ array.contents, e.gateIndex < 2 ^ bindings0.length)
    (alpha : F) :
    array.bindvGate bindings0 bindings1 alpha = .ok ⟨compact
      (array.contents.map (bindGate bindings0 bindings1 alpha))⟩ := by
  obtain ⟨e, rest, hcontents⟩ := List.exists_cons_of_ne_nil hne
  have hmax : ∃ gate, (array.contents.map fun e => e.gateIndex).max? =
      some gate ∧ gate < 2 ^ bindings0.length := by
    obtain ⟨gate, hmax⟩ : ∃ gate,
        (array.contents.map fun e => e.gateIndex).max? = some gate := by
      rw [hcontents, List.map_cons, List.max?_cons']
      exact ⟨_, rfl⟩
    obtain ⟨d, hd, rfl⟩ := List.mem_map.mp (List.max?_mem hmax)
    exact ⟨_, hmax, hgate d hd⟩
  obtain ⟨gate, hmax, hlt⟩ := hmax
  have hclog : Nat.clog 2 gate ≤ bindings0.length :=
    Nat.clog_le_of_le_pow hlt.le
  have hweights : (array.contents.mapM fun e => do
      let weight ← index ((List.range (2 ^ bindings0.length)).map
        (gateWeight bindings0 bindings1 alpha)) e.gateIndex
      pure { e with coefficient := e.coefficient * weight, gateIndex := 0 }) =
      .ok (array.contents.map (bindGate bindings0 bindings1 alpha)) := by
    refine mapM_eq_ok fun d hd => ?_
    rw [index_of_lt (by simpa using hgate d hd), ok_bind]
    simp [bindGate]
  have hloop := compactLoop_returns
    (rest.map (bindGate bindings0 bindings1 alpha)) [] []
    (bindGate bindings0 bindings1 alpha e)
  obtain ⟨⟨contents, write⟩, heq, htake⟩ := hloop
  rw [bindvGate, assert_of hsame, ok_bind, hmax]
  dsimp only
  rw [pure_eq_ok, ok_bind, assert_of hclog, ok_bind,
    bindeq_eq_ok alpha hlength hsame.symm, ok_bind]
  change (array.contents.mapM fun e => do
      let weight ← index ((List.range (2 ^ bindings0.length)).map
        (gateWeight bindings0 bindings1 alpha)) e.gateIndex
      pure { e with coefficient := e.coefficient * weight, gateIndex := 0 }) >>=
      _ = _
  rw [hweights, ok_bind]
  simp only [List.nil_append, List.length_nil, Nat.zero_add, Nat.add_zero,
    List.length_map] at heq htake
  rw [hcontents, List.map_cons, List.length_cons, List.length_map,
    Nat.add_sub_cancel]
  simp only [List.cons_append, List.nil_append] at heq
  rw [heq, ok_bind]
  dsimp only
  rw [htake]
  rfl

/-- The bound quad of a layer is the sum of the combined quad with each gate
weighted. -/
theorem denote_compact_bindGate (elements : List (SparseQuadElement F))
    (bindings0 bindings1 : List F) (alpha : F) (f : Hands Nat → F) :
    denote (compact (elements.map (bindGate bindings0 bindings1 alpha))) f =
      (elements.map fun e => e.coefficient *
        gateWeight bindings0 bindings1 alpha e.gateIndex * f e.wires).sum := by
  have hdenote : denote (elements.map (bindGate bindings0 bindings1 alpha)) f =
      (elements.map fun e => e.coefficient *
        gateWeight bindings0 bindings1 alpha e.gateIndex * f e.wires).sum := by
    rw [denote, List.map_map]
    rfl
  rw [← hdenote]
  cases elements with
  | nil => rfl
  | cons e rest => exact denote_compactFrom f _ _

end BindGate

end SparseSumcheckArray

end Longfellow
