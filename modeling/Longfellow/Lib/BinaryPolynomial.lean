/-
Bit vectors as polynomials over the field with two elements: exclusive or is
addition, a shift is multiplication by a power of `X`, and the product of
integers with holes between their bits has the bits of the product of the
polynomials.
-/
import Mathlib.Algebra.Polynomial.Div
import Mathlib.Algebra.Polynomial.Expand
import Mathlib.Data.ZMod.Basic
import Mathlib.FieldTheory.Finite.Basic
import Mathlib.Tactic.LinearCombination
import Mathlib.Tactic.Ring

namespace BinaryPolynomial

open Polynomial Finset

section Bits

variable {w : Nat}

/-- The bits of a vector as the coefficients of a polynomial over the natural
numbers. -/
noncomputable def natPoly (x : BitVec w) : ℕ[X] :=
  ∑ i ∈ range w, if x.getLsbD i then X ^ i else 0

theorem coeff_natPoly (x : BitVec w) (i : Nat) :
    (natPoly x).coeff i = if x.getLsbD i then 1 else 0 := by
  have hterm (j : Nat) : (if x.getLsbD j then (X : ℕ[X]) ^ j else 0).coeff i =
      if i = j then (if x.getLsbD i then 1 else 0) else 0 := by
    by_cases hij : i = j
    · subst hij
      by_cases hbit : x.getLsbD i
      · simp [hbit]
      · simp [hbit]
    · by_cases hbit : x.getLsbD j
      · simp [hbit, hij, coeff_X_pow]
      · simp [hbit, hij]
  rw [natPoly, finsetSum_coeff, sum_congr rfl fun j _ => hterm j, sum_ite_eq]
  by_cases hi : i < w
  · rw [if_pos (mem_range.mpr hi)]
  · rw [if_neg (fun h => hi (mem_range.mp h)),
      BitVec.getLsbD_of_ge x i (Nat.not_lt.mp hi)]
    rfl

theorem sum_testBit (w : Nat) {n : Nat} (hn : n < 2 ^ w) :
    ∑ i ∈ range w, (if n.testBit i then 2 ^ i else 0) = n := by
  induction w generalizing n with
  | zero =>
      rw [pow_zero, Nat.lt_one_iff] at hn
      rw [hn, range_zero, sum_empty]
  | succ w ih =>
      have hhalf : n / 2 < 2 ^ w := by
        rw [pow_succ] at hn
        omega
      have hterms : ∑ i ∈ range w,
          (if n.testBit (i + 1) then 2 ^ (i + 1) else 0) = 2 * (n / 2) := by
        rw [← ih hhalf, mul_sum]
        apply sum_congr rfl
        intro i _
        rw [Nat.testBit_succ, mul_ite, Nat.mul_zero, pow_succ']
      rw [sum_range_succ', hterms, Nat.testBit_zero]
      rcases Nat.mod_two_eq_zero_or_one n with h | h
      · simp [h]
        omega
      · simp [h]
        omega

/-- The value of the polynomial at two is the number of the vector. -/
theorem eval_natPoly (x : BitVec w) : (natPoly x).eval 2 = x.toNat := by
  rw [natPoly, eval_finsetSum]
  conv_rhs => rw [← sum_testBit w x.isLt]
  apply sum_congr rfl
  intro i _
  rw [BitVec.testBit_toNat]
  by_cases hbit : x.getLsbD i
  · simp [hbit]
  · simp [hbit]

/-- The bits of a vector as the coefficients of a polynomial over the field with
two elements. -/
noncomputable def poly (x : BitVec w) : (ZMod 2)[X] :=
  (natPoly x).map (Nat.castRingHom (ZMod 2))

theorem coeff_poly (x : BitVec w) (i : Nat) :
    (poly x).coeff i = if x.getLsbD i then 1 else 0 := by
  rw [poly, coeff_map, coeff_natPoly]
  by_cases hbit : x.getLsbD i
  · simp [hbit]
  · simp [hbit]

theorem poly_injective : Function.Injective (poly : BitVec w → (ZMod 2)[X]) := by
  intro x y h
  apply BitVec.eq_of_getLsbD_eq
  intro i _
  have hcoeff := congrArg (fun p => p.coeff i) h
  simp only [coeff_poly] at hcoeff
  by_cases hx : x.getLsbD i
  · by_cases hy : y.getLsbD i
    · rw [hx, hy]
    · simp [hx, hy] at hcoeff
  · by_cases hy : y.getLsbD i
    · simp [hx, hy] at hcoeff
    · simp [hx, hy]

theorem degree_poly_lt (x : BitVec w) : (poly x).degree < w := by
  rw [degree_lt_iff_coeff_zero]
  intro i hi
  rw [coeff_poly, BitVec.getLsbD_of_ge x i hi]
  rfl

theorem two_eq_zero : (2 : (ZMod 2)[X]) = 0 := by
  have h : (2 : ZMod 2) = 0 := rfl
  rw [← map_ofNat C 2, h, C_0]

@[simp] theorem poly_zero : poly (0 : BitVec w) = 0 := by
  ext i
  rw [coeff_poly, coeff_zero]
  simp

@[simp] theorem poly_xor (x y : BitVec w) :
    poly (x ^^^ y) = poly x + poly y := by
  ext i
  rw [coeff_add, coeff_poly, coeff_poly, coeff_poly, BitVec.getLsbD_xor]
  cases x.getLsbD i <;> cases y.getLsbD i <;> simp
  rfl

theorem poly_xor_and (x y mask : BitVec w) :
    poly ((x ^^^ y) &&& mask) = poly (x &&& mask) + poly (y &&& mask) := by
  have hdistrib : (x ^^^ y) &&& mask = (x &&& mask) ^^^ (y &&& mask) := by
    apply BitVec.eq_of_getLsbD_eq
    intro i _
    simp only [BitVec.getLsbD_and, BitVec.getLsbD_xor]
    exact Bool.and_xor_distrib_right _ _ _
  rw [hdistrib, poly_xor]

/-- Disjunction is addition where no bit is set twice. -/
theorem poly_or {x y : BitVec w}
    (h : ∀ i, x.getLsbD i = true → y.getLsbD i = false) :
    poly (x ||| y) = poly x + poly y := by
  ext i
  rw [coeff_add, coeff_poly, coeff_poly, coeff_poly, BitVec.getLsbD_or]
  by_cases hx : x.getLsbD i
  · simp [hx, h i hx]
  · simp [hx]

theorem poly_setWidth_of_zeros {v : Nat} {x : BitVec w}
    (hx : ∀ i, v ≤ i → x.getLsbD i = false) :
    poly (x.setWidth v) = poly x := by
  ext i
  rw [coeff_poly, coeff_poly, BitVec.getLsbD_setWidth]
  by_cases hi : i < v
  · simp [hi]
  · simp [hi, hx i (Nat.not_lt.mp hi)]

theorem poly_setWidth {v : Nat} (hv : w ≤ v) (x : BitVec w) :
    poly (x.setWidth v) = poly x := by
  apply poly_setWidth_of_zeros
  intro i hi
  exact BitVec.getLsbD_of_ge x i (hv.trans hi)

/-- A vector is the part below a position and the part from it on. -/
theorem poly_split (v : Nat) (x : BitVec w) :
    poly x = poly (x.setWidth v) + X ^ v * poly (x >>> v) := by
  ext i
  rw [coeff_add, coeff_X_pow_mul', coeff_poly, coeff_poly, coeff_poly,
    BitVec.getLsbD_setWidth]
  by_cases hi : i < v
  · simp [hi]
  · have hle := Nat.not_lt.mp hi
    simp [hi, hle, Nat.add_sub_cancel' hle]

/-- A shift to the left keeps the bits that do not leave the vector. -/
theorem poly_shiftLeft {k v : Nat} (hv : k + v = w) (x : BitVec w) :
    poly (x <<< k) = X ^ k * poly (x.setWidth v) := by
  ext i
  rw [coeff_X_pow_mul', coeff_poly, coeff_poly, BitVec.getLsbD_shiftLeft,
    BitVec.getLsbD_setWidth]
  by_cases hi : k ≤ i
  · by_cases hw : i < w
    · have hsub : i - k < v := by omega
      simp [hi, hw, hsub]
    · have hsub : ¬ i - k < v := by omega
      simp [hw, hsub]
  · have hlt := Nat.not_le.mp hi
    simp [hi, hlt]

/-- A shift to the left of a vector with enough leading zeros. -/
theorem poly_shiftLeft_of_zeros {k : Nat} {x : BitVec w}
    (hx : ∀ i, w ≤ k + i → x.getLsbD i = false) :
    poly (x <<< k) = X ^ k * poly x := by
  ext i
  rw [coeff_X_pow_mul', coeff_poly, coeff_poly, BitVec.getLsbD_shiftLeft]
  by_cases hi : k ≤ i
  · by_cases hw : i < w
    · simp [hi, hw]
    · simp [hw, hx (i - k) (by omega)]
  · have hlt := Nat.not_le.mp hi
    simp [hi, hlt]

/-- A vector is its low part and its high part. -/
theorem poly_halves {u v : Nat} (hw : w = v + u) (x : BitVec w) :
    poly x = poly (x.setWidth v) + X ^ v * poly ((x >>> v).setWidth u) := by
  have hhigh : poly ((x >>> v).setWidth u) = poly (x >>> v) := by
    apply poly_setWidth_of_zeros
    intro i hi
    rw [BitVec.getLsbD_ushiftRight]
    exact BitVec.getLsbD_of_ge x _ (by omega)
  rw [hhigh, ← poly_split]

/-- A vector put together from a low part and a high part. -/
theorem poly_join {u v : Nat} (hw : w = v + u) (low : BitVec v)
    (high : BitVec u) :
    poly (low.setWidth w ||| high.setWidth w <<< v) =
      poly low + X ^ v * poly high := by
  have hlow : poly (low.setWidth w) = poly low :=
    poly_setWidth (by omega) low
  have hhigh : poly (high.setWidth w <<< v) = X ^ v * poly high := by
    rw [poly_shiftLeft hw.symm, poly_setWidth_of_zeros, poly_setWidth (by omega)]
    intro i hi
    rw [BitVec.getLsbD_setWidth, BitVec.getLsbD_of_ge high i hi,
      Bool.and_false]
  rw [poly_or, hlow, hhigh]
  intro i hi
  have hlt : i < v := by
    by_contra hge
    rw [BitVec.getLsbD_setWidth,
      BitVec.getLsbD_of_ge low i (Nat.not_lt.mp hge), Bool.and_false] at hi
    exact Bool.false_ne_true hi
  rw [BitVec.getLsbD_shiftLeft]
  simp [hlt]

/-- A remainder is determined by its degree. -/
theorem eq_modByMonic {R : Type} [CommRing R] {g r p q : R[X]} (hg : g.Monic)
    (h : r + g * q = p) (hdegree : r.degree < g.degree) : r = p %ₘ g :=
  (div_modByMonic_unique q r hg ⟨h, hdegree⟩).2.symm

/-- The middle of a product from one more product of sums. -/
theorem karatsuba (a b c d : (ZMod 2)[X]) :
    (a + b) * (c + d) + a * c + b * d = a * d + b * c := by
  linear_combination (a * c + b * d) * two_eq_zero

end Bits

section Square

variable {w v g : Nat} {x : BitVec w} {y : BitVec v}

/-- Runs of `g` bits, each followed by as many zeros. -/
def Spread (g : Nat) (y : BitVec v) (x : BitVec w) : Prop :=
  ∀ q s, s < 2 * g → 2 * g * q + s < v →
    y.getLsbD (2 * g * q + s) = (decide (s < g) && x.getLsbD (g * q + s))

theorem spread_setWidth (hw : w ≤ g) (hv : v ≤ 2 * g) (x : BitVec w) :
    Spread g (x.setWidth v) x := by
  intro q s _ hi
  have hq : q = 0 := by
    by_contra hq
    have hle := Nat.le_mul_of_pos_right (2 * g) (Nat.pos_of_ne_zero hq)
    omega
  subst hq
  rw [Nat.mul_zero, Nat.mul_zero, Nat.zero_add] at *
  rw [BitVec.getLsbD_setWidth]
  by_cases hs : s < g
  · simp [hi, hs]
  · simp [BitVec.getLsbD_of_ge x s (by omega)]

/-- The second half of each run is moved into the zeros after the run. -/
theorem Spread.halve (h : Spread (2 * g) y x) (mask : BitVec v)
    (hmask : ∀ i, i < v → mask.getLsbD i = decide (i % (2 * g) < g)) :
    Spread g ((y ||| y <<< g) &&& mask) x := by
  intro q s hs hi
  have hmod : (2 * g * q + s) % (2 * g) = s := by
    rw [Nat.mul_add_mod, Nat.mod_eq_of_lt hs]
  rw [BitVec.getLsbD_and, BitVec.getLsbD_or, BitVec.getLsbD_shiftLeft,
    hmask _ hi, hmod]
  by_cases hsg : s < g
  · rcases Nat.even_or_odd' q with ⟨p, rfl | rfl⟩
    · have hindex : 2 * g * (2 * p) + s = 2 * (2 * g) * p + s := by ring
      have hrun : g * (2 * p) + s = 2 * g * p + s := by ring
      have hbit : y.getLsbD (2 * g * (2 * p) + s) =
          x.getLsbD (g * (2 * p) + s) := by
        rw [hindex, h p s (by omega) (by omega), hrun]
        simp [show s < 2 * g from hs]
      rcases p with _ | p
      · rw [hbit]
        simp [hsg]
      · have hbefore : 2 * g * (2 * (p + 1)) + s - g =
            2 * (2 * g) * p + (3 * g + s) := by
          have hsum : 2 * g * (2 * (p + 1)) + s =
              2 * (2 * g) * p + (3 * g + s) + g := by ring
          omega
        rw [hbit, hbefore, h p (3 * g + s) (by omega) (by omega)]
        simp [hsg, show ¬ 3 * g + s < 2 * g by omega]
    · have hindex : 2 * g * (2 * p + 1) + s =
          2 * (2 * g) * p + (2 * g + s) := by ring
      have hrun : g * (2 * p + 1) + s = 2 * g * p + (g + s) := by ring
      have hbefore : 2 * (2 * g) * p + (2 * g + s) - g =
          2 * (2 * g) * p + (g + s) := by omega
      have hge : ¬ 2 * (2 * g) * p + (2 * g + s) < g := by omega
      rw [hindex, hrun, h p (2 * g + s) (by omega) (by omega), hbefore,
        h p (g + s) (by omega) (by omega)]
      simp [hsg, hge, show g + s < 2 * g by omega,
        show 2 * (2 * g) * p + (2 * g + s) < v by omega]
  · simp [hsg]

/-- A vector with a zero after each bit is the square. -/
theorem Spread.poly_eq_sq (h : Spread 1 y x) (hv : 2 * w ≤ v) :
    poly y = poly x ^ 2 := by
  rw [← ZMod.expand_card]
  ext i
  rw [coeff_expand (by omega : 0 < 2), coeff_poly]
  have hhalf : 2 * 1 * (i / 2) + i % 2 = i := by omega
  by_cases hi : i < v
  · have hbit := h (i / 2) (i % 2) (Nat.mod_lt i (by omega)) (by omega)
    rw [hhalf] at hbit
    rcases Nat.mod_two_eq_zero_or_one i with hmod | hmod
    · rw [hbit, if_pos (Nat.dvd_of_mod_eq_zero hmod), coeff_poly, hmod]
      simp
    · have hodd : ¬ 2 ∣ i := by omega
      rw [hbit, hmod, if_neg hodd]
      simp
  · have hge : w ≤ i / 2 := by omega
    rw [BitVec.getLsbD_of_ge y i (by omega), coeff_poly,
      BitVec.getLsbD_of_ge x (i / 2) hge]
    simp

end Square

section Holes

/-- The low bits of a sum of small multiples of every fourth power of two. -/
theorem sum_lt_two_pow {c : Nat → Nat} {k : Nat} (hk : k < 4)
    (hsmall : ∀ s, c s < 16) (hholes : ∀ s, s % 4 ≠ k → c s = 0) (j : Nat) :
    ∑ i ∈ range (4 * j + k), c i * 2 ^ i < 2 ^ (4 * j + k) := by
  induction j with
  | zero =>
      have hzero : ∑ i ∈ range (4 * 0 + k), c i * 2 ^ i = 0 := by
        apply sum_eq_zero
        intro i hi
        have hlt := mem_range.mp hi
        rw [hholes i (by omega), Nat.zero_mul]
      rw [hzero]
      exact Nat.two_pow_pos _
  | succ j ih =>
      have hindex : 4 * (j + 1) + k = 4 * j + k + 1 + 1 + 1 + 1 := by ring
      rw [hindex, sum_range_succ, sum_range_succ, sum_range_succ,
        sum_range_succ, hholes (4 * j + k + 1) (by omega),
        hholes (4 * j + k + 1 + 1) (by omega),
        hholes (4 * j + k + 1 + 1 + 1) (by omega)]
      have hc := hsmall (4 * j + k)
      have hmul : c (4 * j + k) * 2 ^ (4 * j + k) ≤ 15 * 2 ^ (4 * j + k) :=
        Nat.mul_le_mul_right _ (by omega)
      have hpow : 2 ^ (4 * j + k + 1 + 1 + 1 + 1) = 16 * 2 ^ (4 * j + k) := by
        ring
      omega

/-- No carry of such a sum reaches the next of its positions. -/
theorem testBit_eval_two {r : ℕ[X]} {k s : Nat}
    (hsmall : ∀ s, r.coeff s < 16) (hholes : ∀ s, s % 4 ≠ k → r.coeff s = 0)
    (hs : s % 4 = k) :
    (r.eval 2).testBit s = decide (r.coeff s % 2 = 1) := by
  have hk : k < 4 := by omega
  have hdegree : r.natDegree < s + 1 + (r.natDegree + 1) := by omega
  have hsplit : r.eval 2 = 2 ^ s * (r.coeff s + 2 *
      ∑ i ∈ range (r.natDegree + 1), r.coeff (s + 1 + i) * 2 ^ i) +
        ∑ i ∈ range s, r.coeff i * 2 ^ i := by
    rw [eval_eq_sum_range' hdegree, sum_range_add, sum_range_succ]
    have hhigh : ∑ i ∈ range (r.natDegree + 1),
        r.coeff (s + 1 + i) * 2 ^ (s + 1 + i) = 2 ^ s * (2 *
          ∑ i ∈ range (r.natDegree + 1), r.coeff (s + 1 + i) * 2 ^ i) := by
      rw [mul_sum, mul_sum]
      apply sum_congr rfl
      intro i _
      ring
    rw [hhigh]
    ring
  have hlow : ∑ i ∈ range s, r.coeff i * 2 ^ i < 2 ^ s := by
    have hindex : 4 * (s / 4) + k = s := by omega
    have h := sum_lt_two_pow hk hsmall hholes (s / 4)
    rwa [hindex] at h
  rw [hsplit, Nat.testBit_two_pow_mul_add _ hlow, if_neg (Nat.lt_irrefl s),
    Nat.sub_self, Nat.testBit_zero, Nat.add_mul_mod_self_left]

variable {x y : BitVec 64} {a b : Nat}

/-- The bits of a 32-bit number are only at every fourth position. -/
def Holes (a : Nat) (x : BitVec 64) : Prop :=
  ∀ i, x.getLsbD i = true → i < 32 ∧ i % 4 = a

theorem coeff_natPoly_le (x : BitVec 64) (i : Nat) :
    (natPoly x).coeff i ≤ 1 := by
  rw [coeff_natPoly]
  split
  · exact le_rfl
  · exact Nat.zero_le 1

/-- At most eight pairs of bits meet at a position. -/
theorem coeff_mul_lt (hx : Holes a x) (y : BitVec 64) (s : Nat) :
    (natPoly x * natPoly y).coeff s < 16 := by
  have hcard : ((range 32).filter fun i => i % 4 = a).card ≤ 8 := by
    by_cases ha : a < 4
    · interval_cases a <;> decide
    · have hempty : (range 32).filter (fun i => i % 4 = a) = ∅ := by
        apply filter_eq_empty_iff.mpr
        intro i _
        omega
      rw [hempty, card_empty]
      exact Nat.zero_le 8
  have hle : (natPoly x * natPoly y).coeff s ≤
      ((range 32).filter fun i => i % 4 = a).card := by
    rw [coeff_mul, Nat.sum_antidiagonal_eq_sum_range_succ_mk,
      card_eq_sum_ones]
    calc
      _ ≤ ∑ i ∈ range s.succ, (natPoly x).coeff i := by
        apply sum_le_sum
        intro i _
        exact (Nat.mul_le_mul_left _ (coeff_natPoly_le y (s - i))).trans
          (Nat.mul_one _).le
      _ = ∑ i ∈ (range s.succ).filter (fun i => x.getLsbD i = true), 1 := by
        rw [sum_filter]
        apply sum_congr rfl
        intro i _
        rw [coeff_natPoly]
      _ ≤ _ := by
        apply sum_le_sum_of_subset
        intro i hi
        obtain ⟨-, hbit⟩ := mem_filter.mp hi
        obtain ⟨hlt, hmod⟩ := hx i hbit
        exact mem_filter.mpr ⟨mem_range.mpr hlt, hmod⟩
  omega

/-- Bits meet at the positions of one class only, and below the width. -/
theorem coeff_mul_eq_zero (hx : Holes a x) (hy : Holes b y) {s : Nat}
    (hs : s % 4 ≠ (a + b) % 4 ∨ 64 ≤ s) :
    (natPoly x * natPoly y).coeff s = 0 := by
  rw [coeff_mul]
  apply sum_eq_zero
  rintro ⟨i, j⟩ hij
  have hsum := mem_antidiagonal.mp hij
  rw [coeff_natPoly, coeff_natPoly]
  by_cases hi : x.getLsbD i = true
  · by_cases hj : y.getLsbD j = true
    · obtain ⟨hi, hia⟩ := hx i hi
      obtain ⟨hj, hjb⟩ := hy j hj
      simp only at hsum
      omega
    · rw [if_neg hj, Nat.mul_zero]
  · rw [if_neg hi, Nat.zero_mul]

/-- The product of integers with holes has the bits of the product of the
polynomials, at the positions where bits meet. -/
theorem poly_mul_and (hx : Holes a x) (hy : Holes b y) {mask : BitVec 64}
    (hmask : ∀ i, i < 64 → mask.getLsbD i = decide (i % 4 = (a + b) % 4)) :
    poly ((x * y) &&& mask) = poly x * poly y := by
  ext s
  have hproduct : (poly x * poly y).coeff s =
      (((natPoly x * natPoly y).coeff s : Nat) : ZMod 2) := by
    rw [poly, poly, ← Polynomial.map_mul, coeff_map]
    rfl
  rw [hproduct, coeff_poly, BitVec.getLsbD_and]
  by_cases hs : s < 64
  · rw [hmask s hs]
    by_cases hclass : s % 4 = (a + b) % 4
    · have hbit : (x * y).getLsbD s =
          decide ((natPoly x * natPoly y).coeff s % 2 = 1) := by
        rw [← testBit_eval_two (coeff_mul_lt hx y)
          (fun s hs => coeff_mul_eq_zero hx hy (Or.inl hs)) hclass, eval_mul,
          eval_natPoly, eval_natPoly, ← BitVec.testBit_toNat,
          BitVec.toNat_mul, Nat.testBit_mod_two_pow]
        simp [hs]
      rw [hbit]
      rcases Nat.mod_two_eq_zero_or_one
        ((natPoly x * natPoly y).coeff s) with h | h
      · rw [← ZMod.natCast_mod, h]
        simp
      · rw [← ZMod.natCast_mod, h]
        simp [hclass]
    · rw [coeff_mul_eq_zero hx hy (Or.inl hclass)]
      simp [hclass]
  · have hle := Nat.not_lt.mp hs
    rw [coeff_mul_eq_zero hx hy (Or.inr hle),
      BitVec.getLsbD_of_ge (x * y) s hle]
    simp

end Holes

end BinaryPolynomial
