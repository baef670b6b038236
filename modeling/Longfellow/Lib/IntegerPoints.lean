/-
Interpolation at the points `0, 1, 2, ...` of a field in which enough integers
are not zero: the value at a further integer is a sum with binomial
coefficients, divided by the distances to the points.
-/
import Longfellow.Lib.ReedSolomon
import Mathlib.Data.Nat.Factorial.BigOperators
import Mathlib.Tactic.FieldSimp
import Mathlib.Tactic.LinearCombination

universe u

namespace ReedSolomon

open Polynomial Finset

variable {F : Type u} [Field F]

/-- The positive integers below a bound are not zero in the field. -/
def IntegersNonzero (F : Type u) [Field F] (n : Nat) : Prop :=
  ∀ t, 0 < t → t < n → (t : F) ≠ 0

theorem IntegersNonzero.mono {m n : Nat} (h : IntegersNonzero F n)
    (hmn : m ≤ n) : IntegersNonzero F m :=
  fun t hpos ht => h t hpos (ht.trans_le hmn)

theorem IntegersNonzero.factorial_ne_zero {n k : Nat}
    (h : IntegersNonzero F n) (hk : k < n) : (k.factorial : F) ≠ 0 := by
  induction k with
  | zero => simp
  | succ k ih =>
      rw [Nat.factorial_succ, Nat.cast_mul]
      exact mul_ne_zero (h (k + 1) (Nat.succ_pos k) hk)
        (ih (Nat.lt_of_succ_lt hk))

theorem IntegersNonzero.cast_ne_cast {n i j : Nat} (h : IntegersNonzero F n)
    (hij : i < j) (hj : j < n) : (i : F) ≠ j := by
  intro heq
  apply h (j - i) (Nat.sub_pos_of_lt hij) (by omega)
  rw [Nat.cast_sub hij.le, heq, sub_self]

/-- Integers below the bound are distinct points. -/
theorem IntegersNonzero.injOn {n : Nat} (h : IntegersNonzero F n) :
    Set.InjOn (Nat.cast : Nat → F) (Set.Iio n) := by
  intro i hi j hj heq
  rcases Nat.lt_trichotomy i j with hlt | hsame | hlt
  · exact absurd heq (h.cast_ne_cast hlt hj)
  · exact hsame
  · exact absurd heq.symm (h.cast_ne_cast hlt hi)

/-- The product of the distances to the points. -/
theorem eval_nodal_natCast {d k : Nat} (hk : d ≤ k) :
    (Lagrange.nodal (range (d + 1)) (Nat.cast : Nat → F)).eval (k : F) =
      ((k - d : Nat) : F) * (d.factorial * k.choose d : Nat) := by
  have hterms : ∀ j ∈ range (d + 1), (k : F) - (j : F) = ((k - j : Nat) : F) := by
    intro j hj
    have hle : j ≤ k := (Nat.lt_succ_iff.mp (mem_range.mp hj)).trans hk
    rw [Nat.cast_sub hle]
  rw [Lagrange.eval_nodal, prod_congr rfl hterms, ← Nat.cast_prod,
    ← Nat.descFactorial_eq_prod_range, Nat.descFactorial_succ,
    Nat.descFactorial_eq_factorial_mul_choose, Nat.cast_mul]

/-- The product of the differences of a point to the other ones. -/
theorem prod_erase_sub {d i : Nat} (hi : i ≤ d) :
    ∏ j ∈ (range (d + 1)).erase i, ((i : F) - (j : F)) =
      (-1) ^ (d - i) * ((i.factorial * (d - i).factorial : Nat) : F) := by
  have hsplit : (range (d + 1)).erase i = range i ∪ Ico (i + 1) (d + 1) := by
    ext j
    simp only [mem_erase, mem_range, mem_union, mem_Ico]
    omega
  have hdisjoint : Disjoint (range i) (Ico (i + 1) (d + 1)) := by
    rw [disjoint_left]
    intro j hj hj'
    rw [mem_range] at hj
    rw [mem_Ico] at hj'
    omega
  have hbelow : ∏ j ∈ range i, ((i : F) - (j : F)) = (i.factorial : F) := by
    have hterms : ∀ j ∈ range i, (i : F) - (j : F) = ((i - j : Nat) : F) :=
      fun j hj => by rw [Nat.cast_sub (mem_range.mp hj).le]
    rw [prod_congr rfl hterms, ← Nat.cast_prod,
      ← Nat.descFactorial_eq_prod_range, Nat.descFactorial_self]
  have habove : ∏ j ∈ Ico (i + 1) (d + 1), ((i : F) - (j : F)) =
      (-1) ^ (d - i) * ((d - i).factorial : F) := by
    have hcount : d + 1 - (i + 1) = d - i := by omega
    have hterms : ∀ t ∈ range (d - i),
        (i : F) - ((i + 1 + t : Nat) : F) = -1 * ((t + 1 : Nat) : F) := by
      intro t _
      push_cast
      ring
    rw [prod_Ico_eq_prod_range, hcount, prod_congr rfl hterms,
      prod_mul_distrib, prod_const, card_range, ← Nat.cast_prod,
      prod_range_add_one_eq_factorial]
  rw [hsplit, prod_union hdisjoint, hbelow, habove, Nat.cast_mul]
  ring

/-- The value of the interpolant at an integer after the points. -/
theorem eval_interpolant_natCast {nodes : List F} {d k : Nat}
    (hlength : nodes.length = d + 1) (hk : d < k)
    (hne : IntegersNonzero F (k + 1)) :
    (interpolant Nat.cast nodes).eval (k : F) =
      (-1) ^ d * (((k - d) * k.choose d : Nat) : F) *
        ∑ i ∈ range (d + 1),
          (-1) ^ i * (d.choose i : F) * nodes.getD i 0 *
            ((k - i : Nat) : F)⁻¹ := by
  have hpoint : ∀ i ∈ range nodes.length, (k : F) ≠ (i : F) := by
    intro i hi
    have hlt := mem_range.mp hi
    exact (hne.cast_ne_cast (by omega) (Nat.lt_succ_self k)).symm
  rw [interpolant, Lagrange.eval_interpolate_not_at_node _ hpoint, hlength,
    eval_nodal_natCast hk.le, mul_sum, mul_sum]
  apply sum_congr rfl
  intro i hi
  have hi : i ≤ d := Nat.lt_succ_iff.mp (mem_range.mp hi)
  have hfactorial : (i.factorial * (d - i).factorial : Nat) *
      (d.choose i : F) = (d.factorial : F) := by
    rw [← Nat.cast_mul, ← Nat.choose_mul_factorial_mul_factorial hi]
    congr 1
    ring
  have hfactors : ((i.factorial * (d - i).factorial : Nat) : F) ≠ 0 := by
    rw [Nat.cast_mul]
    exact mul_ne_zero (hne.factorial_ne_zero (by omega))
      (hne.factorial_ne_zero (by omega))
  have hweight : Lagrange.nodalWeight (range (d + 1)) (Nat.cast : Nat → F) i *
      (d.factorial : F) = (-1) ^ d * (-1) ^ i * (d.choose i : F) := by
    have hsign : (-1 : F) ^ d * (-1) ^ i = ((-1) ^ (d - i))⁻¹ := by
      have hone : (-1 : F) ^ i * (-1) ^ i = 1 := by
        rw [← mul_pow, neg_one_mul, neg_neg, one_pow]
      have hdi : (-1 : F) ^ (d - i) * (-1) ^ i = (-1) ^ d := by
        rw [← pow_add, Nat.sub_add_cancel hi]
      have hself : (-1 : F) ^ (d - i) * (-1) ^ (d - i) = 1 := by
        rw [← mul_pow, neg_one_mul, neg_neg, one_pow]
      rw [← hdi, mul_assoc, hone, mul_one]
      exact eq_inv_of_mul_eq_one_right hself
    rw [Lagrange.nodalWeight, prod_inv_distrib, prod_erase_sub hi, mul_inv,
      ← hfactorial, hsign]
    field_simp
  have hdistance : (k : F) - (i : F) = ((k - i : Nat) : F) := by
    rw [Nat.cast_sub (hi.trans hk.le)]
  rw [hdistance, Nat.cast_mul, Nat.cast_mul]
  linear_combination ((k - d : Nat) : F) * (k.choose d : F) *
    ((k - i : Nat) : F)⁻¹ * nodes.getD i 0 * hweight

end ReedSolomon
