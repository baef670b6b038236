/-
The order of a sparse array, and why binding every bit of both hands reduces
an array in that order to a single element.
-/
import Longfellow.Sumcheck.Denote

namespace Longfellow

open Exec

namespace SparseQuadElement

section Interleave

/-- Taking the blocks of one round of `spread` apart, bit by bit. -/
theorem getLsbD_spreadRound (v : BitVec 64) (x mask : BitVec 128) (s : Nat)
    (hmask : ∀ j < 128, mask.getLsbD j = decide (j / s % 2 = 0))
    (hblocks : ∀ j < 128, j / s % 2 = 0 →
      (j / (2 * s) % 2 = 0 ∧ j / (4 * s) * (2 * s) + j % (2 * s) =
          j / (2 * s) * s + j % s ∧
        (j < s ∨ (j - s) / (2 * s) % 2 = 1)) ∨
      (j / (2 * s) % 2 = 1 ∧ s ≤ j ∧ (j - s) / (2 * s) % 2 = 0 ∧
        (j - s) / (4 * s) * (2 * s) + (j - s) % (2 * s) =
          j / (2 * s) * s + j % s))
    (hx : ∀ j < 128, x.getLsbD j = (decide (j / (2 * s) % 2 = 0) &&
      v.getLsbD (j / (4 * s) * (2 * s) + j % (2 * s)))) :
    ∀ j < 128, ((x ||| x <<< s) &&& mask).getLsbD j =
      (decide (j / s % 2 = 0) && v.getLsbD (j / (2 * s) * s + j % s)) := by
  intro j hj
  rw [BitVec.getLsbD_and, BitVec.getLsbD_or, BitVec.getLsbD_shiftLeft,
    hmask j hj]
  by_cases hblock : j / s % 2 = 0
  · rcases hblocks j hj hblock with ⟨heven, hsame, hprev⟩ | ⟨hodd, hle, heven, hsame⟩
    · have hshift : (decide (j < 128) && !decide (j < s) &&
          x.getLsbD (j - s)) = false := by
        rcases hprev with hlt | hprev
        · simp [hlt]
        · have hzero : x.getLsbD (j - s) = false := by
            rw [hx _ (by omega)]
            simp [hprev]
          simp [hzero]
      rw [hshift, hx j hj, hsame]
      simp [heven, hblock]
    · have hcurr : x.getLsbD j = false := by
        rw [hx j hj]
        simp [hodd]
      rw [hcurr, hx (j - s) (by omega), hsame]
      simp [hj, heven, hblock, hle]
  · simp [hblock]

theorem getLsbD_spread (v : BitVec 64) {j : Nat} (hj : j < 128) :
    (spread v).getLsbD j = (decide (j % 2 = 0) && v.getLsbD (j / 2)) := by
  have h0 : ∀ j < 128, (v.zeroExtend 128).getLsbD j =
      (decide (j / (2 * 32) % 2 = 0) &&
        v.getLsbD (j / (4 * 32) * (2 * 32) + j % (2 * 32))) := by
    intro j hj
    rw [BitVec.getLsbD_setWidth]
    by_cases hlow : j < 64
    · have heven : j / 64 % 2 = 0 := by omega
      have hsame : j / 128 * 64 + j % 64 = j := by omega
      simp [hj, heven, hsame]
    · have hodd : j / 64 % 2 = 1 := by omega
      have hzero : v.getLsbD j = false := BitVec.getLsbD_of_ge v j (by omega)
      simp [hodd, hzero]
  have h1 := getLsbD_spreadRound v _ 0x00000000FFFFFFFF00000000FFFFFFFF 32
    (by decide) (by decide) h0
  have h2 := getLsbD_spreadRound v _ 0x0000FFFF0000FFFF0000FFFF0000FFFF 16
    (by decide) (by decide) h1
  have h3 := getLsbD_spreadRound v _ 0x00FF00FF00FF00FF00FF00FF00FF00FF 8
    (by decide) (by decide) h2
  have h4 := getLsbD_spreadRound v _ 0x0F0F0F0F0F0F0F0F0F0F0F0F0F0F0F0F 4
    (by decide) (by decide) h3
  have h5 := getLsbD_spreadRound v _ 0x33333333333333333333333333333333 2
    (by decide) (by decide) h4
  have h6 := getLsbD_spreadRound v _ 0x55555555555555555555555555555555 1
    (by decide) (by decide) h5
  have hlast := h6 j hj
  simp only [Nat.div_one, Nat.mul_one, Nat.mod_one, Nat.add_zero] at hlast
  exact hlast

/-- The interleaved bits are the sort key that alternates between the left
and the right wire. -/
theorem toNat_interleave (right left : Nat) :
    (interleave (.ofNat 64 right) (.ofNat 64 left)).toNat =
      Morton.key 128 left right := by
  refine Nat.eq_of_testBit_eq fun i => ?_
  rw [BitVec.testBit_toNat, Morton.testBit_key]
  rcases lt_or_ge i 128 with hi | hi
  · have hlt : i / 2 < 64 := by omega
    have hbit (v : Nat) :
        (BitVec.ofNat 64 v).getLsbD (i / 2) = v.testBit (i / 2) := by
      rw [BitVec.getLsbD_ofNat, decide_eq_true hlt, Bool.true_and]
    rw [interleave, BitVec.getLsbD_or, BitVec.getLsbD_shiftLeft,
      getLsbD_spread _ hi, hbit]
    rcases Nat.mod_two_eq_zero_or_one i with heven | hodd
    · have hshift : (decide (i < 128) && !decide (i < 1) &&
          (spread (BitVec.ofNat 64 right)).getLsbD (i - 1)) = false := by
        rcases Nat.eq_zero_or_pos i with rfl | hpos
        · simp
        · rw [getLsbD_spread _ (by omega)]
          have hodd : (i - 1) % 2 = 1 := by omega
          simp [hodd]
      rw [hshift]
      simp [heven, hi]
    · have heven : (i - 1) % 2 = 0 := by omega
      have hhalf : (i - 1) / 2 = i / 2 := by omega
      have hpos : ¬ i < 1 := by omega
      rw [getLsbD_spread _ (by omega), hhalf, hbit]
      simp only [hodd, heven, hi, hpos]
      simp
  · rw [BitVec.getLsbD_of_ge _ _ hi]
    simp [Nat.not_lt.mpr hi]

end Interleave

variable {F : Type}

/-- The sort key of an element, with the bits of the hand that is bound next
in front. -/
def key (n : Nat) (hand : Hand) (e : SparseQuadElement F) : Nat :=
  Morton.key n (e.handWire hand) (e.handWire hand.opposite)

/-- Both wire indices fit the words that are interleaved. -/
def InRange (e : SparseQuadElement F) : Prop :=
  e.leftWireIndex < 2 ^ 64 ∧ e.rightWireIndex < 2 ^ 64

/-- `e` does not come after `other`: the wires decide, then the gates, and
equal indices hold equal coefficients. -/
def Precedes (e other : SparseQuadElement F) : Prop :=
  e.key 128 .left < other.key 128 .left ∨
    e.key 128 .left = other.key 128 .left ∧
      (e.gateIndex < other.gateIndex ∨
        e.gateIndex = other.gateIndex ∧ e.coefficient = other.coefficient)

theorem key_eq_iff {e other : SparseQuadElement F} (he : e.InRange)
    (hother : other.InRange) :
    e.key 128 .left = other.key 128 .left ↔
      e.leftWireIndex = other.leftWireIndex ∧
        e.rightWireIndex = other.rightWireIndex := by
  constructor
  · intro h
    exact Morton.key_injective (n := 128) he.1 he.2 hother.1 hother.2 h
  · rintro ⟨hl, hr⟩
    simp [key, handWire, Hand.opposite, hl, hr]

variable [DecidableEq F]

theorem cmp_eq_ok {e other : SparseQuadElement F} :
    (∃ order, cmp e other = .ok order ∧ order ≠ .gt) ↔ Precedes e other := by
  have hkey (e : SparseQuadElement F) :
      (interleave (.ofNat 64 e.rightWireIndex)
        (.ofNat 64 e.leftWireIndex)).toNat = e.key 128 .left :=
    toNat_interleave _ _
  unfold cmp Precedes
  simp only [hkey]
  rcases Nat.lt_trichotomy (e.key 128 .left) (other.key 128 .left) with
    hlt | heq | hgt
  · have hne : compare (e.key 128 .left) (other.key 128 .left) = .lt :=
      Nat.compare_eq_lt.mpr hlt
    simp [hne, hlt]
  · simp only [heq, lt_irrefl, false_or, true_and]
    by_cases hgate : e.gateIndex = other.gateIndex
    · by_cases hcoeff : e.coefficient = other.coefficient
      · simp [hgate, hcoeff]
      · simp [hgate, hcoeff, Exec.assert, abort]
    · rcases Nat.lt_or_gt_of_ne hgate with hlt | hgt
      · have hne : compare e.gateIndex other.gateIndex = .lt :=
          Nat.compare_eq_lt.mpr hlt
        simp [hgate, hlt, hne]
      · have hne : compare e.gateIndex other.gateIndex = .gt :=
          Nat.compare_eq_gt.mpr hgt
        simp [hgate, hne, Nat.not_lt.mpr hgt.le]
  · have hne : compare (e.key 128 .left) (other.key 128 .left) = .gt :=
      Nat.compare_eq_gt.mpr hgt
    simp [hne, Nat.not_lt.mpr hgt.le, hgt.ne']

/-- The check that an array is in order passes exactly when no element comes
after its successor. -/
theorem isSorted_eq_ok {elements : List (SparseQuadElement F)} :
    isSorted elements = .ok true ↔ elements.IsChain Precedes := by
  induction elements with
  | nil => simp [isSorted]
  | cons e rest ih =>
      cases rest with
      | nil => simp [isSorted]
      | cons other rest =>
          rw [List.isChain_cons_cons, ← ih, ← cmp_eq_ok, isSorted]
          cases hresult : cmp e other with
          | error fault => simp
          | ok order =>
              by_cases hgt : order = .gt
              · simp [hgt]
              · simp [hgt]

end SparseQuadElement

namespace SparseSumcheckArray

open SparseQuadElement

variable {F : Type}

/-- The state of a bound array: one gate, wires that the remaining bits of the
hands can name, and strictly increasing keys. -/
structure Aligned (hand : Hand) (n a b : Nat)
    (elements : List (SparseQuadElement F)) : Prop where
  ne_nil : elements ≠ []
  gate_eq_zero : ∀ e ∈ elements, e.gateIndex = 0
  hand_lt : ∀ e ∈ elements, e.handWire hand < 2 ^ a
  opposite_lt : ∀ e ∈ elements, e.handWire hand.opposite < 2 ^ b
  hand_le : a ≤ (n + 1) / 2
  opposite_le : b ≤ n / 2
  increasing : elements.Pairwise fun e d => e.key n hand < d.key n hand

/-- In an aligned array the pairs of a hand are the neighbours whose keys
differ in the last bit. -/
theorem isPair_iff_key {hand : Hand} {n a b : Nat}
    {e d : SparseQuadElement F} (ha : a + 1 ≤ (n + 2) / 2)
    (hb : b ≤ (n + 1) / 2)
    (he : e.gateIndex = 0 ∧ e.handWire hand < 2 ^ (a + 1) ∧
      e.handWire hand.opposite < 2 ^ b)
    (hd : d.gateIndex = 0 ∧ d.handWire hand < 2 ^ (a + 1) ∧
      d.handWire hand.opposite < 2 ^ b) :
    isPair hand e d ↔ e.key (n + 1) hand % 2 = 0 ∧
      d.key (n + 1) hand = e.key (n + 1) hand + 1 := by
  simp only [isPair, isNextWire, decide_eq_true_eq, Bool.decide_and,
    Bool.and_eq_true, key, Morton.key_succ_mod_two]
  rw [pow_succ] at he hd
  have hpa : 2 ^ a ≤ 2 ^ (n / 2) := Nat.pow_le_pow_right Nat.two_pos (by omega)
  have hpb : 2 ^ b ≤ 2 ^ ((n + 1) / 2) := Nat.pow_le_pow_right Nat.two_pos hb
  constructor
  · rintro ⟨heven, -, hnext, hopposite⟩
    have hodd : d.handWire hand % 2 = 1 := by omega
    have hhalf : d.handWire hand / 2 = e.handWire hand / 2 := by omega
    refine ⟨heven, ?_⟩
    rw [Morton.key, Morton.key, hodd, hhalf, hopposite, heven]
    omega
  · rintro ⟨heven, hnext⟩
    have hbit := Morton.key_succ_mod_two n (e.handWire hand)
      (e.handWire hand.opposite)
    have hdbit := Morton.key_succ_mod_two n (d.handWire hand)
      (d.handWire hand.opposite)
    have hrest : Morton.key n (d.handWire hand.opposite) (d.handWire hand / 2) =
        Morton.key n (e.handWire hand.opposite) (e.handWire hand / 2) := by
      rw [← Morton.key_succ_div_two, ← Morton.key_succ_div_two]
      omega
    obtain ⟨hopposite, hhalf⟩ := Morton.key_injective
      (by omega) (by omega) (by omega) (by omega) hrest
    refine ⟨heven, by rw [he.1, hd.1], by omega, hopposite⟩

section

variable [Field F]

/-- Binding a hand halves its wires and leaves the other hand next. -/
theorem Aligned.bound {hand : Hand} {n a b : Nat}
    {elements : List (SparseQuadElement F)} (x : F)
    (h : Aligned hand (n + 1) (a + 1) b elements) :
    Aligned hand.opposite n b a (bound hand x elements) := by
  have ha := h.hand_le
  have hb := h.opposite_le
  have hall : ∀ e ∈ elements, e.gateIndex = 0 ∧
      e.handWire hand < 2 ^ (a + 1) ∧ e.handWire hand.opposite < 2 ^ b :=
    fun e he => ⟨h.gate_eq_zero e he, h.hand_lt e he, h.opposite_lt e he⟩
  have hnew (e : SparseQuadElement F) (c : F) :
      (new 0 hand (e.handWire hand / 2) (e.handWire hand.opposite) c).key n
        hand.opposite = e.key (n + 1) hand / 2 := by
    rw [key, key, Morton.key_succ_div_two, Hand.opposite_opposite,
      handWire_new, handWire_new_opposite]
  have hwires (e : SparseQuadElement F) (c : F)
      (he : e.gateIndex = 0 ∧ e.handWire hand < 2 ^ (a + 1) ∧
        e.handWire hand.opposite < 2 ^ b) :
      (new 0 hand (e.handWire hand / 2) (e.handWire hand.opposite) c).gateIndex
          = 0 ∧
        (new 0 hand (e.handWire hand / 2) (e.handWire hand.opposite) c).handWire
          hand.opposite < 2 ^ b ∧
        (new 0 hand (e.handWire hand / 2) (e.handWire hand.opposite) c).handWire
          hand < 2 ^ a := by
    rw [handWire_new, handWire_new_opposite, gateIndex_new]
    have hlt := he.2.1
    rw [pow_succ] at hlt
    exact ⟨rfl, he.2.2, by omega⟩
  have hresult : ∀ e ∈ SparseSumcheckArray.bound hand x elements,
      e.gateIndex = 0 ∧ e.handWire hand.opposite < 2 ^ b ∧
        e.handWire hand < 2 ^ a := Morton.forall_mem_mergePairs (fun e he => hwires e _ he) (fun e d he _ _ => hwires e _ he) hall
  refine ⟨?_, fun e he => (hresult e he).1, fun e he => (hresult e he).2.1,
    fun e he => ?_, hb, by omega, ?_⟩
  · exact fun hnil => h.ne_nil (Morton.mergePairs_eq_nil.mp hnil)
  · rw [Hand.opposite_opposite]
    exact (hresult e he).2.2
  · exact Morton.pairwise_mergePairs (k := fun e => e.key (n + 1) hand)
      (fun e d he hd => isPair_iff_key ha hb he hd) (fun e _ => hnew e _)
      (fun e d _ => hnew e _) hall h.increasing

omit [Field F] in
/-- An aligned array with no bits left has the single element with all
indices zero. -/
theorem Aligned.single {hand : Hand} {n : Nat}
    {elements : List (SparseQuadElement F)} (h : Aligned hand n 0 0 elements) :
    ∃ coefficient, elements = [⟨0, 0, 0, coefficient⟩] := by
  have hzero : ∀ e ∈ elements, e.handWire hand = 0 ∧
      e.handWire hand.opposite = 0 := by
    intro e he
    have hhand := h.hand_lt e he
    have hopposite := h.opposite_lt e he
    omega
  have hkey : ∀ e ∈ elements, e.key n hand = 0 := by
    intro e he
    have hmorton : ∀ n, Morton.key n 0 0 = 0 := by
      intro n
      induction n with
      | zero => rfl
      | succ n ih => simp [Morton.key, ih]
    rw [key, (hzero e he).1, (hzero e he).2, hmorton]
  obtain ⟨e, rfl⟩ := Morton.length_eq_one h.ne_nil h.increasing hkey
  have hgate := h.gate_eq_zero e (by simp)
  have hwires := hzero e (by simp)
  refine ⟨e.coefficient, ?_⟩
  cases e
  cases hand <;> simp_all [handWire, Hand.opposite]

/-- Elements with the same wires are taken together, so the keys that stay
are strictly increasing. -/
theorem pairwise_compactFrom {rest : List (SparseQuadElement F)} :
    ∀ {last : SparseQuadElement F}, (∀ e ∈ last :: rest, e.InRange) →
      (last :: rest).Pairwise (fun e d => e.key 128 .left ≤ d.key 128 .left) →
      (compactFrom last rest).Pairwise
        (fun e d => e.key 128 .left < d.key 128 .left) ∧
      ∀ e ∈ compactFrom last rest, ∃ d ∈ last :: rest,
        e.leftWireIndex = d.leftWireIndex ∧
          e.rightWireIndex = d.rightWireIndex ∧ e.gateIndex = d.gateIndex := by
  induction rest with
  | nil =>
      intro last _ _
      simp [compactFrom]
  | cons e rest ih =>
      intro last hrange hsorted
      rw [compactFrom]
      split
      · next hsame =>
          have hmerged : ∀ d ∈ { last with
              coefficient := last.coefficient + e.coefficient } :: rest,
              d.InRange := by
            intro d hd
            rcases List.mem_cons.mp hd with rfl | hd
            · exact hrange last (by simp)
            · exact hrange d (by simp [hd])
          obtain ⟨hincreasing, hmem⟩ := ih hmerged
            (List.pairwise_cons.mpr ⟨fun d hd =>
              List.rel_of_pairwise_cons hsorted (by simp [hd]),
              hsorted.of_cons.of_cons⟩)
          refine ⟨hincreasing, fun d hd => ?_⟩
          obtain ⟨c, hc, hwires⟩ := hmem d hd
          rcases List.mem_cons.mp hc with rfl | hc
          · exact ⟨last, by simp, hwires⟩
          · exact ⟨c, by simp [hc], hwires⟩
      · next hdiff =>
          obtain ⟨hincreasing, hmem⟩ := ih
            (fun d hd => hrange d (List.mem_cons_of_mem last hd)) hsorted.of_cons
          have hne : last.key 128 .left ≠ e.key 128 .left := by
            intro heq
            obtain ⟨hl, hr⟩ := (key_eq_iff (hrange last (by simp))
              (hrange e (by simp))).mp heq
            exact hdiff (by simp [sameWires, hl, hr])
          have hlt : last.key 128 .left < e.key 128 .left :=
            lt_of_le_of_ne (List.rel_of_pairwise_cons hsorted (by simp)) hne
          refine ⟨List.pairwise_cons.mpr ⟨fun d hd => ?_, hincreasing⟩,
            fun d hd => ?_⟩
          · obtain ⟨c, hc, hl, hr, -⟩ := hmem d hd
            have hkey : d.key 128 .left = c.key 128 .left := by
              simp [key, handWire, Hand.opposite, hl, hr]
            rw [hkey]
            rcases List.mem_cons.mp hc with rfl | hc
            · exact hlt
            · exact hlt.trans_le (List.rel_of_pairwise_cons hsorted.of_cons hc)
          · rcases List.mem_cons.mp hd with rfl | hd
            · exact ⟨_, by simp, rfl, rfl, rfl⟩
            · obtain ⟨c, hc, hwires⟩ := hmem d hd
              exact ⟨c, List.mem_cons_of_mem last hc, hwires⟩

/-- Once its gate is bound, an array in order is aligned on the left hand. -/
theorem aligned_compact {elements : List (SparseQuadElement F)} {logw : Nat}
    (hlogw : logw ≤ 64) (hne : elements ≠ [])
    (hwires : ∀ e ∈ elements, e.leftWireIndex < 2 ^ logw ∧
      e.rightWireIndex < 2 ^ logw)
    (hsorted : elements.IsChain Precedes) (bindings0 bindings1 : List F)
    (alpha : F) :
    Aligned .left 128 logw logw
      (compact (elements.map (bindGate bindings0 bindings1 alpha))) := by
  have hpow : 2 ^ logw ≤ 2 ^ 64 := Nat.pow_le_pow_right Nat.two_pos hlogw
  obtain ⟨last, rest, rfl⟩ := List.exists_cons_of_ne_nil hne
  have hchain : (last :: rest).Pairwise
      fun e d => e.key 128 .left ≤ d.key 128 .left := by
    have hle : (last :: rest).IsChain
        fun e d : SparseQuadElement F => e.key 128 .left ≤ d.key 128 .left :=
      hsorted.imp fun e d h => by rcases h with h | h <;> omega
    have htrans : Trans
        (fun e d : SparseQuadElement F => e.key 128 .left ≤ d.key 128 .left)
        (fun e d : SparseQuadElement F => e.key 128 .left ≤ d.key 128 .left)
        (fun e d : SparseQuadElement F => e.key 128 .left ≤ d.key 128 .left) :=
      ⟨fun h h' => h.trans h'⟩
    exact List.isChain_iff_pairwise.mp hle
  have hmap : ((last :: rest).map (bindGate bindings0 bindings1 alpha)).Pairwise
      fun e d : SparseQuadElement F => e.key 128 .left ≤ d.key 128 .left := by
    rw [List.pairwise_map]
    exact hchain
  have hbound : ∀ e ∈ (last :: rest).map (bindGate bindings0 bindings1 alpha),
      e.gateIndex = 0 ∧ e.leftWireIndex < 2 ^ logw ∧
        e.rightWireIndex < 2 ^ logw := by
    intro e he
    obtain ⟨d, hd, rfl⟩ := List.mem_map.mp he
    exact ⟨rfl, hwires d hd⟩
  rw [List.map_cons] at hmap hbound ⊢
  obtain ⟨hincreasing, hmem⟩ := pairwise_compactFrom
    (fun e he => ⟨(hbound e he).2.1.trans_le hpow,
      (hbound e he).2.2.trans_le hpow⟩) hmap
  rw [compact]
  refine ⟨?_, fun e he => ?_, fun e he => ?_, fun e he => ?_, by omega, by omega,
    hincreasing⟩
  · exact compactFrom_ne_nil _ _
  · obtain ⟨d, hd, -, -, hgate⟩ := hmem e he
    rw [hgate, (hbound d hd).1]
  · obtain ⟨d, hd, hl, -, -⟩ := hmem e he
    rw [handWire, hl]
    exact (hbound d hd).2.1
  · obtain ⟨d, hd, -, hr, -⟩ := hmem e he
    rw [Hand.opposite, handWire, hr]
    exact (hbound d hd).2.2

end

end SparseSumcheckArray

end Longfellow
