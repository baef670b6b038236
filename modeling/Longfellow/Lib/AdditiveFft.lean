/-
The additive Fourier transform: the points are the sums of subsets of a basis
over the field with two elements, and a polynomial is given by its coefficients
in the basis of products of normalized subspace polynomials.
-/
import Mathlib.Algebra.CharP.Two
import Mathlib.Algebra.Polynomial.BigOperators
import Mathlib.Algebra.Polynomial.Eval.Degree
import Mathlib.Algebra.Polynomial.Roots
import Mathlib.Tactic.LinearCombination

namespace AdditiveFft

open Polynomial Finset

section BitSum

variable {M N : Type} [AddCommMonoid M] [AddCommMonoid N]

/-- The sum of the terms at the set bits of a number. -/
def bitSum (f : Nat → M) (n : Nat) : M :=
  ∑ k ∈ range n, if n.testBit k then f k else 0

theorem bitSum_eq (f : Nat → M) {n w : Nat} (hn : n < 2 ^ w) :
    bitSum f n = ∑ k ∈ range w, if n.testBit k then f k else 0 := by
  have hextend {v : Nat} (hv : n < 2 ^ v) :
      ∑ k ∈ range v, (if n.testBit k then f k else 0) =
        ∑ k ∈ range (max n w), if n.testBit k then f k else 0 := by
    rcases Nat.le_total v (max n w) with hle | hle
    · apply sum_subset (range_subset_range.mpr hle)
      intro k _ hk
      have hk := Nat.not_lt.mp (fun h => hk (mem_range.mpr h))
      rw [Nat.testBit_lt_two_pow (hv.trans_le
        (Nat.pow_le_pow_right Nat.two_pos hk))]
      rfl
    · symm
      apply sum_subset (range_subset_range.mpr hle)
      intro k _ hk
      have hk := Nat.not_lt.mp (fun h => hk (mem_range.mpr h))
      rw [Nat.testBit_lt_two_pow (hn.trans_le
        (Nat.pow_le_pow_right Nat.two_pos ((le_max_right n w).trans hk)))]
      rfl
  rw [bitSum, hextend Nat.lt_two_pow_self, hextend hn]

@[simp] theorem bitSum_zero (f : Nat → M) : bitSum f 0 = 0 := rfl

/-- The low bits and the high bits of a number. -/
theorem bitSum_two_pow_mul_add (f : Nat → M) (p c : Nat) {u : Nat}
    (hu : u < 2 ^ p) : bitSum f (2 ^ p * c + u) =
      bitSum f u + bitSum (fun k => f (p + k)) c := by
  have hc : c < 2 ^ c := Nat.lt_two_pow_self
  have hn : 2 ^ p * c + u < 2 ^ (p + c) := by
    rw [pow_add]
    calc
      2 ^ p * c + u < 2 ^ p * c + 2 ^ p := Nat.add_lt_add_left hu _
      _ = 2 ^ p * (c + 1) := by ring
      _ ≤ 2 ^ p * 2 ^ c := Nat.mul_le_mul_left _ hc
  rw [bitSum_eq f hn, bitSum_eq f hu, bitSum_eq _ hc, sum_range_add]
  congr 1
  · apply sum_congr rfl
    intro k hk
    rw [Nat.testBit_two_pow_mul_add c hu, if_pos (mem_range.mp hk)]
  · apply sum_congr rfl
    intro k _
    have hhigh : ¬ p + k < p := by omega
    rw [Nat.testBit_two_pow_mul_add c hu]
    simp only [hhigh, if_false, Nat.add_sub_cancel_left]

theorem bitSum_two_pow_add (f : Nat → M) (p : Nat) {u : Nat}
    (hu : u < 2 ^ p) : bitSum f (2 ^ p + u) = f p + bitSum f u := by
  have h := bitSum_two_pow_mul_add f p 1 hu
  rw [Nat.mul_one] at h
  rw [h, add_comm]
  congr 1
  rw [bitSum, sum_range_one]
  rfl

theorem bitSum_add_of_dvd (f : Nat → M) {p c u : Nat} (hc : 2 ^ p ∣ c)
    (hu : u < 2 ^ p) : bitSum f (c + u) = bitSum f c + bitSum f u := by
  obtain ⟨d, rfl⟩ := hc
  have hhigh := bitSum_two_pow_mul_add f p d (Nat.two_pow_pos p)
  rw [Nat.add_zero, bitSum_zero, zero_add] at hhigh
  rw [bitSum_two_pow_mul_add f p d hu, hhigh, add_comm]

theorem map_bitSum (φ : M →+ N) (f : Nat → M) (n : Nat) :
    φ (bitSum f n) = bitSum (fun k => φ (f k)) n := by
  rw [bitSum, bitSum, map_sum]
  apply sum_congr rfl
  intro k _
  by_cases hbit : n.testBit k
  · rw [if_pos hbit, if_pos hbit]
  · rw [if_neg hbit, if_neg hbit, map_zero]

theorem bitSum_congr {f g : Nat → M} {n w : Nat} (hn : n < 2 ^ w)
    (h : ∀ k, k < w → f k = g k) : bitSum f n = bitSum g n := by
  rw [bitSum_eq f hn, bitSum_eq g hn]
  apply sum_congr rfl
  intro k hk
  rw [h k (mem_range.mp hk)]

end BitSum

section Subspaces

variable {K : Type} [Field K] (basis : Nat → K)

/-- The polynomial that vanishes on the span of the first elements of the
basis. -/
noncomputable def vanishing (i : Nat) : K[X] :=
  ∏ u ∈ range (2 ^ i), (X - C (bitSum basis u))

/-- The subspace polynomial, scaled to be one at the next element of the
basis. -/
noncomputable def normalized (i : Nat) : K[X] :=
  C ((vanishing basis i).eval (basis i))⁻¹ * vanishing basis i

/-- No element of the basis is in the span of those before it. -/
def Independent (m : Nat) : Prop :=
  ∀ i, i < m → (vanishing basis i).eval (basis i) ≠ 0

variable {basis}

theorem eval_vanishing_eq_zero {i u : Nat} (hu : u < 2 ^ i) :
    (vanishing basis i).eval (bitSum basis u) = 0 := by
  rw [vanishing, eval_prod]
  apply prod_eq_zero (mem_range.mpr hu)
  rw [eval_sub, eval_X, eval_C, sub_self]

theorem eval_vanishing_zero (x : K) : (vanishing basis 0).eval x = x := by
  rw [vanishing, pow_zero, prod_range_one, bitSum_zero, C_0, sub_zero, eval_X]

theorem eval_vanishing_succ (i : Nat) (x : K) :
    (vanishing basis (i + 1)).eval x =
      (vanishing basis i).eval x * (vanishing basis i).eval (x - basis i) := by
  rw [vanishing, vanishing, pow_succ, Nat.mul_two, prod_range_add, eval_mul,
    eval_prod, eval_prod, eval_prod]
  congr 1
  apply prod_congr rfl
  intro u hu
  rw [bitSum_two_pow_add basis i (mem_range.mp hu)]
  simp only [eval_sub, eval_X, eval_C]
  ring

theorem eval_normalized (i : Nat) (x : K) : (normalized basis i).eval x =
    ((vanishing basis i).eval (basis i))⁻¹ * (vanishing basis i).eval x := by
  rw [normalized, eval_mul, eval_C]

theorem eval_normalized_low {i u : Nat} (hu : u < 2 ^ i) :
    (normalized basis i).eval (bitSum basis u) = 0 := by
  rw [eval_normalized, eval_vanishing_eq_zero hu, mul_zero]

theorem eval_normalized_basis {m i : Nat} (h : Independent basis m)
    (hi : i < m) : (normalized basis i).eval (basis i) = 1 := by
  rw [eval_normalized, inv_mul_cancel₀ (h i hi)]

variable [CharP K 2]

omit [Field K] [CharP K 2] in
theorem bitSum_xor {M : Type} [AddCommMonoid M] (h : ∀ x : M, x + x = 0)
    (f : Nat → M) (a b : Nat) :
    bitSum f (a ^^^ b) = bitSum f a + bitSum f b := by
  have ha : a < 2 ^ max a b :=
    (le_max_left a b).trans_lt Nat.lt_two_pow_self
  have hb : b < 2 ^ max a b :=
    (le_max_right a b).trans_lt Nat.lt_two_pow_self
  rw [bitSum_eq f (Nat.xor_lt_two_pow ha hb), bitSum_eq f ha, bitSum_eq f hb,
    ← sum_add_distrib]
  apply sum_congr rfl
  intro k _
  rw [Nat.testBit_xor]
  cases a.testBit k
  · cases b.testBit k
    · simp
    · simp
  · cases b.testBit k
    · simp
    · simp [h]

/-- Subspace polynomials are additive. -/
theorem eval_vanishing_add (i : Nat) (x y : K) :
    (vanishing basis i).eval (x + y) =
      (vanishing basis i).eval x + (vanishing basis i).eval y := by
  induction i generalizing x y with
  | zero => rw [eval_vanishing_zero, eval_vanishing_zero, eval_vanishing_zero]
  | succ i ih =>
      simp only [eval_vanishing_succ, CharTwo.sub_eq_add, ih]
      linear_combination (vanishing basis i).eval x *
        (vanishing basis i).eval y * (CharTwo.two_eq_zero : (2 : K) = 0)

theorem eval_vanishing_succ' (i : Nat) (x : K) :
    (vanishing basis (i + 1)).eval x = (vanishing basis i).eval x *
      ((vanishing basis i).eval x + (vanishing basis i).eval (basis i)) := by
  rw [eval_vanishing_succ, CharTwo.sub_eq_add, eval_vanishing_add]

theorem eval_normalized_add (i : Nat) (x y : K) :
    (normalized basis i).eval (x + y) =
      (normalized basis i).eval x + (normalized basis i).eval y := by
  rw [eval_normalized, eval_normalized, eval_normalized, eval_vanishing_add]
  ring

/-- At a sum of basis elements, a normalized subspace polynomial is the sum of
its values at the elements. -/
theorem eval_normalized_bitSum (i n : Nat) :
    (normalized basis i).eval (bitSum basis n) =
      bitSum (fun k => (normalized basis i).eval (basis k)) n := by
  have hzero : (normalized basis i).eval (0 : K) = 0 := by
    rw [← bitSum_zero basis]
    exact eval_normalized_low (Nat.two_pow_pos i)
  let φ : K →+ K :=
    ⟨⟨fun x => (normalized basis i).eval x, hzero⟩, eval_normalized_add i⟩
  exact map_bitSum φ basis n

/-- The sums of different subsets of the basis are different. -/
theorem bitSum_injOn {m : Nat} (h : Independent basis m) :
    Set.InjOn (bitSum basis) (Set.Iio (2 ^ m)) := by
  induction m with
  | zero =>
      intro u hu v hv _
      rw [pow_zero, Set.mem_Iio, Nat.lt_one_iff] at hu hv
      rw [hu, hv]
  | succ m ih =>
      have ih := ih fun i hi => h i (Nat.lt_succ_of_lt hi)
      have hsplit {u : Nat} (hu : u < 2 ^ (m + 1)) (hhigh : ¬ u < 2 ^ m) :
          ∃ c, c < 2 ^ m ∧ u = 2 ^ m + c := by
        rw [pow_succ] at hu
        exact ⟨u - 2 ^ m, by omega, by omega⟩
      have hne {u c : Nat} (hu : u < 2 ^ m) (hc : c < 2 ^ m) :
          bitSum basis u ≠ bitSum basis (2 ^ m + c) := by
        intro heq
        have hvalue := congrArg (fun x => (vanishing basis m).eval x) heq
        simp only [bitSum_two_pow_add basis m hc, eval_vanishing_add,
          eval_vanishing_eq_zero hu, eval_vanishing_eq_zero hc, add_zero]
          at hvalue
        exact h m (Nat.lt_succ_self m) hvalue.symm
      intro u hu v hv heq
      by_cases hlow : u < 2 ^ m
      · by_cases hlow' : v < 2 ^ m
        · exact ih hlow hlow' heq
        · obtain ⟨c, hc, rfl⟩ := hsplit hv hlow'
          exact absurd heq (hne hlow hc)
      · obtain ⟨c, hc, rfl⟩ := hsplit hu hlow
        by_cases hlow' : v < 2 ^ m
        · exact absurd heq.symm (hne hlow' hc)
        · obtain ⟨d, hd, rfl⟩ := hsplit hv hlow'
          rw [bitSum_two_pow_add basis m hc,
            bitSum_two_pow_add basis m hd] at heq
          rw [ih hc hd (add_left_cancel heq)]

/-- A table that satisfies the recurrence of the normalized subspace
polynomials has their values at the basis. -/
theorem eval_normalized_eq_table {table : Nat → Nat → K} {m : Nat}
    (hone : basis 0 = 1) (hzero : ∀ k, k < m → table 0 k = basis k)
    (hne : ∀ i, i + 1 < m →
      table i (i + 1) * (table i (i + 1) + 1) ≠ 0)
    (hstep : ∀ i, i + 1 < m → ∀ k, k < m →
      table (i + 1) k * (table i (i + 1) * (table i (i + 1) + 1)) =
        table i k * (table i k + 1)) {i : Nat} (hi : i < m) :
    (vanishing basis i).eval (basis i) ≠ 0 ∧
      ∀ k, k < m → (normalized basis i).eval (basis k) = table i k := by
  induction i with
  | zero =>
      constructor
      · rw [eval_vanishing_zero, hone]
        exact one_ne_zero
      · intro k hk
        rw [eval_normalized, eval_vanishing_zero, eval_vanishing_zero, hone,
          inv_one, one_mul, hzero k hk]
  | succ i ih =>
      obtain ⟨hscale, hrow⟩ := ih (Nat.lt_of_succ_lt hi)
      set scale := (vanishing basis i).eval (basis i) with hdef
      have hvalue {k : Nat} (hk : k < m) :
          (vanishing basis i).eval (basis k) = scale * table i k := by
        rw [← hrow k hk, eval_normalized, ← hdef, mul_inv_cancel_left₀ hscale]
      have hnext {k : Nat} (hk : k < m) :
          (vanishing basis (i + 1)).eval (basis k) =
            scale ^ 2 * (table i k * (table i k + 1)) := by
        rw [eval_vanishing_succ', hvalue hk, ← hdef]
        ring
      have hnonzero : (vanishing basis (i + 1)).eval (basis (i + 1)) ≠ 0 := by
        rw [hnext hi]
        exact mul_ne_zero (pow_ne_zero 2 hscale) (hne i hi)
      refine ⟨hnonzero, fun k hk => ?_⟩
      have hd : scale ^ 2 * (table i (i + 1) * (table i (i + 1) + 1)) ≠ 0 :=
        mul_ne_zero (pow_ne_zero 2 hscale) (hne i hi)
      rw [eval_normalized, hnext hi, hnext hk, ← hstep i hi k hk,
        mul_left_comm (scale ^ 2) (table (i + 1) k),
        mul_left_comm _ (table (i + 1) k), inv_mul_cancel₀ hd, mul_one]

end Subspaces

section NovelBasis

variable {K : Type} [Field K] (basis : Nat → K)

/-- The polynomial with the given coefficients in the basis of products of
normalized subspace polynomials, one product for each of the `2 ^ i` subsets of
the first ones. -/
noncomputable def novel : Nat → (Nat → K) → K[X]
  | 0, c => C (c 0)
  | i + 1, c => novel i c + normalized basis i * novel i fun j => c (2 ^ i + j)

variable {basis}

theorem novel_congr {i : Nat} {c d : Nat → K} (h : ∀ j, j < 2 ^ i → c j = d j) :
    novel basis i c = novel basis i d := by
  induction i generalizing c d with
  | zero => rw [novel, novel, h 0 Nat.one_pos]
  | succ i ih =>
      have hpow : 2 ^ (i + 1) = 2 ^ i + 2 ^ i := by ring
      rw [novel, novel, ih fun j hj => h j (by omega),
        ih fun j hj => h (2 ^ i + j) (by omega)]

theorem novel_add_mul (i : Nat) (c d : Nat → K) (t : K) :
    novel basis i (fun j => c j + t * d j) =
      novel basis i c + C t * novel basis i d := by
  induction i generalizing c d with
  | zero => rw [novel, novel, novel, C_add, C_mul]
  | succ i ih =>
      rw [novel, novel, novel, ih, ih]
      ring

theorem novel_zero (i : Nat) : novel basis i (fun _ => 0) = 0 := by
  induction i with
  | zero => rw [novel, C_0]
  | succ i ih => rw [novel, ih, mul_zero, add_zero]

theorem degree_normalized_le (i : Nat) :
    (normalized basis i).degree ≤ (2 ^ i : Nat) := by
  have hdegree : (vanishing basis i).degree = (2 ^ i : Nat) := by
    rw [vanishing, degree_prod]
    simp
  calc
    (normalized basis i).degree ≤
        (C ((vanishing basis i).eval (basis i))⁻¹).degree +
          (vanishing basis i).degree := degree_mul_le _ _
    _ ≤ 0 + (2 ^ i : Nat) := add_le_add degree_C_le hdegree.le
    _ = (2 ^ i : Nat) := zero_add _

/-- Without coefficients from `n` on, the degree is below `n`. -/
theorem degree_novel_lt {i n : Nat} {c : Nat → K} (hn : n ≤ 2 ^ i)
    (h : ∀ j, n ≤ j → j < 2 ^ i → c j = 0) : (novel basis i c).degree < n := by
  induction i generalizing n c with
  | zero =>
      rcases Nat.eq_zero_or_pos n with rfl | hpos
      · rw [novel, h 0 le_rfl Nat.one_pos, C_0, degree_zero]
        exact WithBot.bot_lt_coe 0
      · have hone : n = 1 := by
          rw [pow_zero] at hn
          omega
        rw [novel, hone]
        exact degree_C_lt
  | succ i ih =>
      have hpow : 2 ^ (i + 1) = 2 ^ i + 2 ^ i := by ring
      rw [novel]
      by_cases hlow : n ≤ 2 ^ i
      · have hzero : novel basis i (fun j => c (2 ^ i + j)) = 0 := by
          have hnone : novel basis i (fun _ => 0) = 0 := novel_zero i
          rw [← hnone]
          apply novel_congr
          intro j hj
          exact h (2 ^ i + j) (by omega) (by omega)
        rw [hzero, mul_zero, add_zero]
        exact ih hlow fun j hj hlt => h j hj (by omega)
      · have hfirst : (novel basis i c).degree < n := by
          have hfull := ih (c := c) le_rfl fun j hj hlt => by omega
          apply hfull.trans
          exact_mod_cast Nat.not_le.mp hlow
        have hsecond : (novel basis i fun j => c (2 ^ i + j)).degree <
            ((n - 2 ^ i : Nat) : WithBot Nat) := by
          apply ih (by omega)
          intro j hj hlt
          exact h (2 ^ i + j) (by omega) (by omega)
        have hproduct : (normalized basis i *
            novel basis i fun j => c (2 ^ i + j)).degree < n := by
          by_cases hzero : novel basis i (fun j => c (2 ^ i + j)) = 0
          · rw [hzero, mul_zero, degree_zero]
            exact WithBot.bot_lt_coe n
          · have hnat := (natDegree_lt_iff_degree_lt hzero).mpr hsecond
            calc
              _ ≤ (normalized basis i).degree +
                  (novel basis i fun j => c (2 ^ i + j)).degree :=
                degree_mul_le _ _
              _ ≤ (2 ^ i : Nat) +
                  ((novel basis i fun j => c (2 ^ i + j)).natDegree : Nat) :=
                add_le_add (degree_normalized_le i) degree_le_natDegree
              _ < n := by exact_mod_cast (by omega)
        exact (degree_add_le _ _).trans_lt (max_lt hfirst hproduct)

/-- The value at a point of a coset of the span. -/
noncomputable def valueAt (basis : Nat → K) (i : Nat) (x : K) (c : Nat → K)
    (v : Nat) : K :=
  (novel basis i c).eval (x + bitSum basis v)

theorem valueAt_zero (x : K) (c : Nat → K) (v : Nat) :
    valueAt basis 0 x c v = c 0 := by
  rw [valueAt, novel, eval_C]

variable [CharP K 2]

/-- On a coset of the smaller span, the normalized subspace polynomial is
constant, and the polynomial has half as many coefficients. -/
theorem valueAt_succ {i v : Nat} (hv : v < 2 ^ i) (x : K) (c : Nat → K) :
    valueAt basis (i + 1) x c v = valueAt basis i x
      (fun j => c j + (normalized basis i).eval x * c (2 ^ i + j)) v := by
  rw [valueAt, valueAt, novel, novel_add_mul, eval_add, eval_mul, eval_add,
    eval_mul, eval_C, eval_normalized_add, eval_normalized_low hv, add_zero]

theorem valueAt_succ_high {m i v : Nat} (h : Independent basis m) (hi : i < m)
    (hv : v < 2 ^ i) (x : K) (c : Nat → K) :
    valueAt basis (i + 1) x c (2 ^ i + v) = valueAt basis i (x + basis i)
      (fun j => c j + ((normalized basis i).eval x + 1) * c (2 ^ i + j)) v := by
  have hpoint : x + bitSum basis (2 ^ i + v) =
      x + basis i + bitSum basis v := by
    rw [bitSum_two_pow_add basis i hv, add_assoc]
  rw [valueAt, hpoint, ← valueAt, valueAt_succ hv, eval_normalized_add,
    eval_normalized_basis h hi]

end NovelBasis

section Butterflies

variable {K : Type}

/-- Replace the values at some positions and at a stride after them. -/
def butterflies (stride : Nat) (butterfly : Nat → K → K → K × K)
    (at_ : Nat → Prop) [DecidablePred at_] (a : Nat → K) (p : Nat) : K :=
  if at_ p then (butterfly p (a p) (a (p + stride))).1
  else if stride ≤ p ∧ at_ (p - stride) then
    (butterfly (p - stride) (a (p - stride)) (a p)).2
  else a p

variable {stride : Nat} {at_ : Nat → Prop} [DecidablePred at_]
  {butterfly undo : Nat → K → K → K × K}

theorem butterflies_low {p : Nat} (hp : at_ p) (a : Nat → K) :
    butterflies stride butterfly at_ a p =
      (butterfly p (a p) (a (p + stride))).1 :=
  if_pos hp

theorem butterflies_high {p : Nat} (hp : at_ p) (hnot : ¬ at_ (p + stride))
    (a : Nat → K) : butterflies stride butterfly at_ a (p + stride) =
      (butterfly p (a p) (a (p + stride))).2 := by
  have hback : stride ≤ p + stride ∧ at_ (p + stride - stride) := by
    rw [Nat.add_sub_cancel]
    exact ⟨Nat.le_add_left stride p, hp⟩
  rw [butterflies, if_neg hnot, if_pos hback, Nat.add_sub_cancel]

theorem butterflies_other {p : Nat} (hp : ¬ at_ p)
    (hback : ¬ (stride ≤ p ∧ at_ (p - stride))) (a : Nat → K) :
    butterflies stride butterfly at_ a p = a p := by
  rw [butterflies, if_neg hp, if_neg hback]

theorem butterflies_congr {at' : Nat → Prop} [DecidablePred at']
    (h : ∀ p, at_ p ↔ at' p) (a : Nat → K) :
    butterflies stride butterfly at_ a = butterflies stride butterfly at' a := by
  funext p
  rw [butterflies, butterflies]
  simp only [h]

/-- A butterfly at one position. -/
theorem butterflies_single (hstride : 0 < stride) (p : Nat) (a : Nat → K) :
    butterflies stride butterfly (· = p) a =
      Function.update
        (Function.update a p (butterfly p (a p) (a (p + stride))).1)
        (p + stride) (butterfly p (a p) (a (p + stride))).2 := by
  funext q
  by_cases hhigh : q = p + stride
  · subst hhigh
    rw [Function.update_self]
    exact @butterflies_high K stride (· = p) _ butterfly p rfl
      (by omega) a
  · rw [Function.update_of_ne hhigh]
    by_cases hlow : q = p
    · subst hlow
      rw [Function.update_self]
      exact @butterflies_low K stride (· = q) _ butterfly q rfl a
    · rw [Function.update_of_ne hlow]
      exact @butterflies_other K stride (· = p) _ butterfly q hlow
        (by omega) a

/-- Butterflies at some positions and then at others, none of which is a stride
after another one. -/
theorem butterflies_union {first second all : Nat → Prop}
    [DecidablePred first] [DecidablePred second] [DecidablePred all]
    {butterfly₁ butterfly₂ : Nat → K → K → K × K}
    (h₁ : ∀ p, first p → butterfly₁ p = butterfly p)
    (h₂ : ∀ p, second p → butterfly₂ p = butterfly p)
    (hall : ∀ p, all p ↔ first p ∨ second p)
    (hdisjoint : ∀ p, first p → ¬ second p)
    (hapart : ∀ p, all p → ¬ all (p + stride)) (a : Nat → K) :
    butterflies stride butterfly₂ second
        (butterflies stride butterfly₁ first a) =
      butterflies stride butterfly all a := by
  have hfirst {p : Nat} (hp : first p) : all p := (hall p).mpr (Or.inl hp)
  have hsecond {p : Nat} (hp : second p) : all p := (hall p).mpr (Or.inr hp)
  -- what the first pass leaves to the second one
  have hkept {p : Nat} (hp : second p) :
      butterflies stride butterfly₁ first a p = a p ∧
      butterflies stride butterfly₁ first a (p + stride) =
        a (p + stride) := by
    have hnot : ¬ first p := fun h => hdisjoint p h hp
    constructor
    · apply butterflies_other hnot
      rintro ⟨hle, hback⟩
      obtain ⟨q, rfl⟩ := Nat.exists_eq_add_of_le' hle
      rw [Nat.add_sub_cancel] at hback
      exact hapart q (hfirst hback) (hsecond hp)
    · apply butterflies_other fun h => hapart p (hsecond hp) (hfirst h)
      rintro ⟨-, hback⟩
      rw [Nat.add_sub_cancel] at hback
      exact hnot hback
  funext q
  by_cases hq : all q
  · have hback (hle : stride ≤ q) (hr : all (q - stride)) : False := by
      obtain ⟨r, rfl⟩ := Nat.exists_eq_add_of_le' hle
      rw [Nat.add_sub_cancel] at hr
      exact hapart r hr hq
    rw [butterflies_low hq]
    rcases (hall q).mp hq with hlow | hlow
    · rw [butterflies_other (hdisjoint q hlow)
        fun h => hback h.1 (hsecond h.2), butterflies_low hlow,
        h₁ q hlow]
    · rw [butterflies_low hlow, (hkept hlow).1, (hkept hlow).2, h₂ q hlow]
  · by_cases hback : stride ≤ q ∧ all (q - stride)
    · obtain ⟨hle, hr⟩ := hback
      obtain ⟨r, rfl⟩ := Nat.exists_eq_add_of_le' hle
      rw [Nat.add_sub_cancel] at hr
      rw [butterflies_high hr hq]
      have hnotFirst : ¬ first (r + stride) := fun h => hq (hfirst h)
      have hnotSecond : ¬ second (r + stride) := fun h => hq (hsecond h)
      rcases (hall r).mp hr with hlow | hlow
      · have hnone : ¬ (stride ≤ r + stride ∧
            second (r + stride - stride)) := by
          rw [Nat.add_sub_cancel]
          exact fun h => hdisjoint r hlow h.2
        rw [butterflies_other hnotSecond hnone,
          butterflies_high hlow hnotFirst, h₁ r hlow]
      · rw [butterflies_high hlow hnotSecond, (hkept hlow).1, (hkept hlow).2,
          h₂ r hlow]
    · rw [butterflies_other hq hback,
        butterflies_other fun h => hq (hsecond h),
        butterflies_other fun h => hq (hfirst h)]
      · exact fun h => hback ⟨h.1, hfirst h.2⟩
      · exact fun h => hback ⟨h.1, hsecond h.2⟩

/-- Butterflies at the same places that undo the first ones. -/
theorem butterflies_cancel (hdisjoint : ∀ p, at_ p → ¬ at_ (p + stride))
    (hundo : ∀ p x y, undo p (butterfly p x y).1 (butterfly p x y).2 = (x, y))
    (a : Nat → K) : butterflies stride undo at_
      (butterflies stride butterfly at_ a) = a := by
  funext p
  by_cases hp : at_ p
  · rw [butterflies_low hp, butterflies_low hp,
      butterflies_high hp (hdisjoint p hp), hundo]
  · by_cases hback : stride ≤ p ∧ at_ (p - stride)
    · obtain ⟨hle, hlow⟩ := hback
      obtain ⟨q, rfl⟩ := Nat.exists_eq_add_of_le' hle
      rw [Nat.add_sub_cancel] at hlow
      rw [butterflies_high hlow hp, butterflies_low hlow,
        butterflies_high hlow hp, hundo]
    · rw [butterflies_other hp hback, butterflies_other hp hback]

end Butterflies

section Transforms

variable {K : Type} [Field K]

/-- Half a step of evaluation: from coefficients to the coefficients on the two
halves of a coset. -/
def forward (t x y : K) : K × K := (x + t * y, y + (x + t * y))

/-- Half a step of interpolation. -/
def backward (t x y : K) : K × K := (x - t * (y - x), y - x)

/-- From the coefficients on the first half of a coset and those of the second
half of the polynomial. -/
def diagonal (t x y : K) : K × K := (x - t * y, y + x)

theorem forward_backward (t x y : K) :
    forward t (backward t x y).1 (backward t x y).2 = (x, y) := by
  rw [forward, backward]
  ext
  · simp only
    ring
  · simp only
    ring

/-- The lower positions of the blocks of a layer. -/
def LowerHalf (n i p : Nat) : Prop := p < 2 ^ n ∧ p % 2 ^ (i + 1) < 2 ^ i

instance (n i : Nat) : DecidablePred (LowerHalf n i) := fun p =>
  inferInstanceAs (Decidable (p < 2 ^ n ∧ p % 2 ^ (i + 1) < 2 ^ i))

theorem lowerHalf_add {n i q j : Nat} (hj : j < 2 ^ i)
    (hn : 2 ^ (i + 1) * q + j < 2 ^ n) :
    LowerHalf n i (2 ^ (i + 1) * q + j) := by
  have hpow : 2 ^ (i + 1) = 2 ^ i + 2 ^ i := by ring
  refine ⟨hn, ?_⟩
  rw [Nat.mul_add_mod, Nat.mod_eq_of_lt (by omega)]
  exact hj

theorem LowerHalf.disjoint {n i p : Nat} (h : LowerHalf n i p) :
    ¬ LowerHalf n i (p + 2 ^ i) := by
  rintro ⟨-, hmod⟩
  have hpow : 2 ^ (i + 1) = 2 ^ i + 2 ^ i := by ring
  rw [Nat.add_mod, Nat.mod_eq_of_lt (show 2 ^ i < 2 ^ (i + 1) by omega),
    Nat.mod_eq_of_lt (by have := h.2; omega)] at hmod
  omega

/-- The upper position of a block is in the same block. -/
theorem LowerHalf.add_lt {n i p : Nat} (h : LowerHalf n i p) (hi : i < n) :
    p + 2 ^ i < 2 ^ n := by
  obtain ⟨hp, hmod⟩ := h
  have hpow : 2 ^ (i + 1) = 2 ^ i + 2 ^ i := by ring
  obtain ⟨c, hc⟩ : 2 ^ (i + 1) ∣ 2 ^ n := pow_dvd_pow 2 hi
  have hq : p / 2 ^ (i + 1) < c := by
    apply Nat.div_lt_of_lt_mul
    rw [← hc]
    exact hp
  have hle : 2 ^ (i + 1) * (p / 2 ^ (i + 1) + 1) ≤ 2 ^ n := by
    rw [hc]
    exact Nat.mul_le_mul_left _ hq
  have hdiv := Nat.div_add_mod p (2 ^ (i + 1))
  rw [Nat.mul_add, Nat.mul_one] at hle
  omega

variable (basis : Nat → K)

/-- The twiddle factor of the block that a position is in. -/
noncomputable def twiddleAt (x : K) (i p : Nat) : K :=
  (normalized basis i).eval (x + bitSum basis (2 ^ (i + 1) * (p / 2 ^ (i + 1))))

noncomputable def forwardLayer (n : Nat) (x : K) (i : Nat) (a : Nat → K) :
    Nat → K :=
  butterflies (2 ^ i) (fun p => forward (twiddleAt basis x i p))
    (LowerHalf n i) a

noncomputable def backwardLayer (n : Nat) (x : K) (i : Nat) (a : Nat → K) :
    Nat → K :=
  butterflies (2 ^ i) (fun p => backward (twiddleAt basis x i p))
    (LowerHalf n i) a

/-- The layers below `k`, the largest stride first. -/
noncomputable def forwardFft (n : Nat) (x : K) : Nat → (Nat → K) → Nat → K
  | 0, a => a
  | k + 1, a => forwardFft n x k (forwardLayer basis n x k a)

/-- The layers below `k`, the smallest stride first. -/
noncomputable def backwardFft (n : Nat) (x : K) : Nat → (Nat → K) → Nat → K
  | 0, a => a
  | k + 1, a => backwardLayer basis n x k (backwardFft n x k a)

/-- The values that the blocks of `2 ^ i` coefficients stand for, each at the
points of its block. -/
noncomputable def spectrum (x : K) (i : Nat) (a : Nat → K) (u : Nat) : K :=
  valueAt basis i (x + bitSum basis (2 ^ i * (u / 2 ^ i)))
    (fun j => a (2 ^ i * (u / 2 ^ i) + j)) (u % 2 ^ i)

variable {basis}

/-- What comes after the coset stays. -/
theorem forwardFft_of_le {n k p : Nat} (hk : k ≤ n) (hp : 2 ^ n ≤ p) (x : K)
    (a : Nat → K) : forwardFft basis n x k a p = a p := by
  induction k generalizing a with
  | zero => rfl
  | succ k ih =>
      rw [forwardFft, ih (Nat.le_of_succ_le hk)]
      apply butterflies_other
      · exact fun h => absurd h.1 (Nat.not_lt.mpr hp)
      · rintro ⟨hle, hlower⟩
        have hlt := hlower.add_lt hk
        rw [Nat.sub_add_cancel hle] at hlt
        exact absurd hlt (Nat.not_lt.mpr hp)

theorem valueAt_congr {i : Nat} {c d : Nat → K}
    (h : ∀ j, j < 2 ^ i → c j = d j) (x : K) (v : Nat) :
    valueAt basis i x c v = valueAt basis i x d v := by
  rw [valueAt, valueAt, novel_congr h]

theorem spectrum_zero (x : K) (a : Nat → K) (u : Nat) :
    spectrum basis x 0 a u = a u := by
  rw [spectrum, valueAt_zero, pow_zero, Nat.one_mul, Nat.div_one, Nat.add_zero]

theorem spectrum_top {n u : Nat} (hu : u < 2 ^ n) (x : K) (a : Nat → K) :
    spectrum basis x n a u = valueAt basis n x a u := by
  rw [spectrum, Nat.div_eq_of_lt hu, Nat.mul_zero, bitSum_zero, add_zero,
    Nat.mod_eq_of_lt hu]
  apply valueAt_congr
  intro j _
  rw [Nat.zero_add]

variable [CharP K 2] {m n : Nat}

/-- A layer of butterflies takes the coefficients of a block to those of its
two halves. -/
theorem spectrum_forwardLayer (h : Independent basis m) {i : Nat} (hi : i < n)
    (hm : n ≤ m) (x : K) (a : Nat → K) {u : Nat} (hu : u < 2 ^ n) :
    spectrum basis x i (forwardLayer basis n x i a) u =
      spectrum basis x (i + 1) a u := by
  have hpow : 2 ^ (i + 1) = 2 ^ i * 2 := pow_succ 2 i
  have hdouble : 2 ^ (i + 1) = 2 ^ i + 2 ^ i := by ring
  set q := u / 2 ^ (i + 1) with hq
  set r := u % 2 ^ (i + 1) with hr
  have hdiv : 2 ^ (i + 1) * q + r = u := Nat.div_add_mod u (2 ^ (i + 1))
  have hrlt : r < 2 ^ (i + 1) := Nat.mod_lt u (Nat.two_pow_pos _)
  have hend : 2 ^ (i + 1) * (q + 1) ≤ 2 ^ n := by
    obtain ⟨c, hc⟩ : 2 ^ (i + 1) ∣ 2 ^ n := pow_dvd_pow 2 hi
    rw [hc]
    apply Nat.mul_le_mul_left
    apply Nat.div_lt_of_lt_mul
    rwa [← hc]
  rw [Nat.mul_add, Nat.mul_one] at hend
  have hblock {j : Nat} (hj : j < 2 ^ (i + 1)) :
      (2 ^ (i + 1) * q + j) / 2 ^ (i + 1) = q := by
    rw [Nat.mul_add_div (Nat.two_pow_pos _), Nat.div_eq_of_lt hj, Nat.add_zero]
  have hlower {j : Nat} (hj : j < 2 ^ i) :
      LowerHalf n i (2 ^ (i + 1) * q + j) :=
    lowerHalf_add hj (by omega)
  set t := (normalized basis i).eval
    (x + bitSum basis (2 ^ (i + 1) * q)) with ht
  have htwiddle {j : Nat} (hj : j < 2 ^ i) :
      twiddleAt basis x i (2 ^ (i + 1) * q + j) = t := by
    rw [twiddleAt, hblock (by omega)]
  rw [spectrum, spectrum, ← hq, ← hr]
  by_cases hlow : r < 2 ^ i
  · have hindex : 2 ^ i * (u / 2 ^ i) = 2 ^ (i + 1) * q := by
      have hhalf : u = 2 ^ i * (2 * q) + r := by rw [← hdiv, hpow]; ring
      rw [hhalf, Nat.mul_add_div (Nat.two_pow_pos i), Nat.div_eq_of_lt hlow,
        Nat.add_zero, hpow]
      ring
    have hmod : u % 2 ^ i = r := by
      have hhalf : u = 2 ^ i * (2 * q) + r := by rw [← hdiv, hpow]; ring
      rw [hhalf, Nat.mul_add_mod, Nat.mod_eq_of_lt hlow]
    rw [hindex, hmod, valueAt_succ hlow]
    apply valueAt_congr
    intro j hj
    have hpair : 2 ^ (i + 1) * q + (2 ^ i + j) =
        2 ^ (i + 1) * q + j + 2 ^ i := by ring
    rw [forwardLayer, butterflies_low (hlower hj), htwiddle hj, forward,
      ← ht, hpair]
  · obtain ⟨v, hv⟩ := Nat.exists_eq_add_of_le (Nat.not_lt.mp hlow)
    have hvlt : v < 2 ^ i := by omega
    have hindex : 2 ^ i * (u / 2 ^ i) = 2 ^ (i + 1) * q + 2 ^ i := by
      have hhalf : u = 2 ^ i * (2 * q + 1) + v := by rw [← hdiv, hv, hpow]; ring
      rw [hhalf, Nat.mul_add_div (Nat.two_pow_pos i), Nat.div_eq_of_lt hvlt,
        Nat.add_zero, hpow]
      ring
    have hmod : u % 2 ^ i = v := by
      have hhalf : u = 2 ^ i * (2 * q + 1) + v := by rw [← hdiv, hv, hpow]; ring
      rw [hhalf, Nat.mul_add_mod, Nat.mod_eq_of_lt hvlt]
    have hpoint : bitSum basis (2 ^ (i + 1) * q + 2 ^ i) =
        bitSum basis (2 ^ (i + 1) * q) + basis i := by
      have hone := bitSum_two_pow_add basis i (Nat.two_pow_pos i)
      have hsum := bitSum_two_pow_mul_add basis (i + 1) q
        (show 2 ^ i < 2 ^ (i + 1) by omega)
      have hbase := bitSum_two_pow_mul_add basis (i + 1) q
        (Nat.two_pow_pos (i + 1))
      rw [Nat.add_zero, bitSum_zero, add_zero] at hone
      rw [Nat.add_zero, bitSum_zero, zero_add] at hbase
      rw [hsum, hbase, hone, add_comm]
    rw [hindex, hmod, hpoint, hv, ← add_assoc,
      valueAt_succ_high h (hi.trans_le hm) hvlt]
    apply valueAt_congr
    intro j hj
    have hposition : 2 ^ (i + 1) * q + 2 ^ i + j =
        2 ^ (i + 1) * q + j + 2 ^ i := by ring
    have hpair : 2 ^ (i + 1) * q + (2 ^ i + j) =
        2 ^ (i + 1) * q + j + 2 ^ i := by ring
    rw [hposition, hpair, forwardLayer,
      butterflies_high (hlower hj) (hlower hj).disjoint, htwiddle hj, forward,
      ← ht]
    ring

theorem spectrum_backwardLayer (h : Independent basis m) {i : Nat} (hi : i < n)
    (hm : n ≤ m) (x : K) (a : Nat → K) {u : Nat} (hu : u < 2 ^ n) :
    spectrum basis x (i + 1) (backwardLayer basis n x i a) u =
      spectrum basis x i a u := by
  have hcancel : forwardLayer basis n x i (backwardLayer basis n x i a) = a :=
    butterflies_cancel (fun _ hp => hp.disjoint)
      (fun p y z => forward_backward (twiddleAt basis x i p) y z) a
  rw [← spectrum_forwardLayer h hi hm x _ hu, hcancel]

/-- The forward transform evaluates the polynomial at the points of the
coset. -/
theorem forwardFft_eq (h : Independent basis m) (hm : n ≤ m) (x : K)
    (a : Nat → K) {u : Nat} (hu : u < 2 ^ n) :
    forwardFft basis n x n a u = valueAt basis n x a u := by
  have hlayers (k : Nat) (hk : k ≤ n) (a : Nat → K) :
      forwardFft basis n x k a u = spectrum basis x k a u := by
    induction k generalizing a with
    | zero => rw [forwardFft, spectrum_zero]
    | succ k ih =>
        rw [forwardFft, ih (Nat.le_of_succ_le hk),
          spectrum_forwardLayer h hk hm x a hu]
  rw [hlayers n le_rfl, spectrum_top hu]

/-- The backward transform finds the coefficients of the polynomial. -/
theorem valueAt_backwardFft (h : Independent basis m) (hm : n ≤ m) (x : K)
    (a : Nat → K) {u : Nat} (hu : u < 2 ^ n) :
    valueAt basis n x (backwardFft basis n x n a) u = a u := by
  have hlayers (k : Nat) (hk : k ≤ n) :
      spectrum basis x k (backwardFft basis n x k a) u = a u := by
    induction k with
    | zero => rw [backwardFft, spectrum_zero]
    | succ k ih =>
        rw [backwardFft, spectrum_backwardLayer h hk hm x _ hu]
        exact ih (Nat.le_of_succ_le hk)
  rw [← spectrum_top hu, hlayers n le_rfl]

end Transforms

end AdditiveFft
