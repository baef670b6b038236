/-
Arrays over a field read as multilinear functions: binding the least
significant index bit to a field element, the equality weights that binding
every bit amounts to, and the degree-two polynomials of a sumcheck round.
-/
import Mathlib.LinearAlgebra.Lagrange
import Mathlib.Tactic.FieldSimp
import Mathlib.Tactic.LinearCombination

universe u

namespace Multilinear

open Finset

section Bind

variable {R : Type u} [CommRing R]

/-- The weight that binding to `x` gives an index with this low bit. -/
def weight (x : R) (i : Nat) : R := if i % 2 = 0 then 1 - x else x

/-- Bind the low index bit of an array to `x`. -/
def bindAt (x : R) (A : Nat → R) (i : Nat) : R :=
  (1 - x) * A (2 * i) + x * A (2 * i + 1)

/-- Bind the index bits one after the other, lowest bit first. -/
def bindAll : List R → (Nat → R) → Nat → R
  | [], A => A
  | x :: xs, A => bindAll xs (bindAt x A)

/-- The multilinear extension of the indicator of index `i`, at the point. -/
def eqWeight : List R → Nat → R
  | [], i => if i = 0 then 1 else 0
  | x :: xs, i => weight x i * eqWeight xs (i / 2)

theorem weight_two_mul (x : R) (i : Nat) : weight x (2 * i) = 1 - x := by
  simp [weight]

theorem weight_two_mul_add_one (x : R) (i : Nat) :
    weight x (2 * i + 1) = x := by
  have hodd : (2 * i + 1) % 2 = 1 := by omega
  simp [weight, hodd]

theorem bindAt_zero (A : Nat → R) (i : Nat) : bindAt 0 A i = A (2 * i) := by
  simp [bindAt]

theorem bindAt_one (A : Nat → R) (i : Nat) : bindAt 1 A i = A (2 * i + 1) := by
  simp [bindAt]

/-- Binding an array that is zero from `n` on leaves one that is zero from
`⌈n / 2⌉` on. -/
theorem bindAt_eq_zero {A : Nat → R} {n : Nat} (hA : ∀ i, n ≤ i → A i = 0)
    (x : R) {i : Nat} (hi : (n + 1) / 2 ≤ i) : bindAt x A i = 0 := by
  have heven : A (2 * i) = 0 := hA _ (by omega)
  have hodd : A (2 * i + 1) = 0 := hA _ (by omega)
  simp [bindAt, heven, hodd]

theorem bindAll_append (xs ys : List R) (A : Nat → R) :
    bindAll (xs ++ ys) A = bindAll ys (bindAll xs A) := by
  induction xs generalizing A with
  | nil => rfl
  | cons x xs ih => exact ih (bindAt x A)

theorem eqWeight_of_le {xs : List R} {i : Nat} (hi : 2 ^ xs.length ≤ i) :
    eqWeight xs i = 0 := by
  induction xs generalizing i with
  | nil =>
      have hpos : i ≠ 0 := by simp at hi; omega
      simp [eqWeight, hpos]
  | cons x xs ih =>
      rw [List.length_cons, pow_succ] at hi
      have hhalf : 2 ^ xs.length ≤ i / 2 := by omega
      simp [eqWeight, ih hhalf]

/-- A sum over twice as many indices, taken in pairs. -/
theorem sum_range_two_mul (f : Nat → R) (n : Nat) :
    ∑ i ∈ range (2 * n), f i = ∑ i ∈ range n, (f (2 * i) + f (2 * i + 1)) := by
  induction n with
  | zero => simp
  | succ n ih =>
      rw [show 2 * (n + 1) = 2 * n + 1 + 1 by ring, sum_range_succ,
        sum_range_succ, ih, sum_range_succ]
      ring

theorem bindAll_zero_eq_sum_pow (xs : List R) (A : Nat → R) :
    bindAll xs A 0 = ∑ i ∈ range (2 ^ xs.length), eqWeight xs i * A i := by
  induction xs generalizing A with
  | nil => simp [bindAll, eqWeight]
  | cons x xs ih =>
      have hhalf (i : Nat) : (2 * i + 1) / 2 = i := by omega
      rw [bindAll, ih, List.length_cons, pow_succ, mul_comm (2 ^ xs.length) 2,
        sum_range_two_mul]
      refine sum_congr rfl fun i _ => ?_
      simp only [eqWeight, weight_two_mul, weight_two_mul_add_one, hhalf,
        Nat.mul_div_cancel_left i Nat.two_pos, bindAt]
      ring

/-- A sum over a list, taken key by key. -/
theorem sum_by_key {α : Type*} (key : α → Nat) (f : Nat → R) (h : α → R)
    {xs : List α} {n : Nat} (hkey : ∀ a ∈ xs, key a < n) :
    (xs.map fun a => f (key a) * h a).sum =
      ∑ g ∈ range n, f g * (xs.map fun a => if key a = g then h a else 0).sum := by
  induction xs with
  | nil => simp
  | cons a xs ih =>
      have hhead : ∑ g ∈ range n, f g * (if key a = g then h a else 0) =
          f (key a) * h a := by
        rw [sum_eq_single_of_mem (key a) (mem_range.mpr
          (hkey a List.mem_cons_self))]
        · rw [if_pos rfl]
        · intro g _ hne
          rw [if_neg (Ne.symm hne), mul_zero]
      rw [List.map_cons, List.sum_cons,
        ih fun b hb => hkey b (List.mem_cons_of_mem a hb), ← hhead,
        ← sum_add_distrib]
      refine sum_congr rfl fun g _ => ?_
      rw [List.map_cons, List.sum_cons, mul_add]

/-- Binding every index bit is the inner product with the equality weights,
over any range that covers the array. -/
theorem bindAll_zero_eq_sum (xs : List R) {A : Nat → R} {n : Nat}
    (hA : ∀ i, n ≤ i → A i = 0) :
    bindAll xs A 0 = ∑ i ∈ range n, eqWeight xs i * A i := by
  rw [bindAll_zero_eq_sum_pow]
  rcases le_total (2 ^ xs.length) n with hle | hle
  · refine sum_subset (range_mono hle) fun i _ hi => ?_
    rw [mem_range, not_lt] at hi
    rw [eqWeight_of_le hi, zero_mul]
  · refine (sum_subset (range_mono hle) fun i _ hi => ?_).symm
    rw [mem_range, not_lt] at hi
    rw [hA i hi, mul_zero]

/-- Binding one bit of an array against weights is weighting the array. -/
theorem sum_weight_bindAt (x : R) (f : Nat → R) {A : Nat → R} {n : Nat}
    (hA : ∀ i, n ≤ i → A i = 0) :
    ∑ i ∈ range ((n + 1) / 2), bindAt x A i * f i =
      ∑ i ∈ range n, weight x i * A i * f (i / 2) := by
  have hcover : ∑ i ∈ range (2 * ((n + 1) / 2)), weight x i * A i * f (i / 2) =
      ∑ i ∈ range n, weight x i * A i * f (i / 2) := by
    refine (sum_subset (range_mono (by omega)) fun i _ hi => ?_).symm
    rw [mem_range, not_lt] at hi
    rw [hA i hi, mul_zero, zero_mul]
  have hhalf (i : Nat) : (2 * i + 1) / 2 = i := by omega
  rw [← hcover, sum_range_two_mul]
  refine sum_congr rfl fun i _ => ?_
  simp only [weight_two_mul, weight_two_mul_add_one, hhalf,
    Nat.mul_div_cancel_left i Nat.two_pos, bindAt]
  ring

end Bind

section Quadratic

variable {F : Type u} [Field F]

/-- The polynomial of degree at most two with these values at `0`, `1` and
`t`. -/
noncomputable def quadraticThrough (t p0 p1 p2 : F) : Polynomial F :=
  Lagrange.interpolate univ ![0, 1, t] ![p0, p1, p2]

theorem eval_quadraticThrough (t p0 p1 p2 x : F) :
    (quadraticThrough t p0 p1 p2).eval x =
      p0 * ((x - 1) * (x - t) * t⁻¹) + p1 * (x * (x - t) * (1 - t)⁻¹) +
        p2 * (x * (x - 1) * (t ^ 2 - t)⁻¹) := by
  have h0 : (univ : Finset (Fin 3)).erase 0 = {1, 2} := by decide
  have h1 : (univ : Finset (Fin 3)).erase 1 = {0, 2} := by decide
  have h2 : (univ : Finset (Fin 3)).erase 2 = {0, 1} := by decide
  have hinv : (-t)⁻¹ = -t⁻¹ := inv_neg
  have hsq : (t ^ 2 - t)⁻¹ = t⁻¹ * (t - 1)⁻¹ := by
    rw [← mul_inv]
    congr 1
    ring
  simp only [quadraticThrough, Lagrange.interpolate_apply, Fin.sum_univ_three,
    Lagrange.basis, h0, h1, h2, Lagrange.basisDivisor]
  rw [prod_pair (by decide), prod_pair (by decide), prod_pair (by decide)]
  simp [hsq, hinv]
  ring

/-- A product of two affine functions is determined by its values at `0`, `1`
and `t`. -/
theorem eval_quadraticThrough_affine {t : F} (h0 : t ≠ 0) (h1 : t ≠ 1)
    (a b c d x : F) :
    (quadraticThrough t (a * c) ((a + b) * (c + d))
      ((a + t * b) * (c + t * d))).eval x = (a + x * b) * (c + x * d) := by
  have h1' : (1 : F) - t ≠ 0 := sub_ne_zero.mpr (Ne.symm h1)
  have h2' : t ^ 2 - t ≠ 0 := by
    rw [show t ^ 2 - t = -(t * (1 - t)) by ring]
    exact neg_ne_zero.mpr (mul_ne_zero h0 h1')
  have hsq : t - 1 ≠ 0 := sub_ne_zero.mpr h1
  rw [eval_quadraticThrough, show t ^ 2 - t = t * (t - 1) by ring,
    show (1 : F) - t = -(t - 1) by ring]
  field_simp
  ring

/-- The interpolated value is linear in the three given values. -/
theorem eval_quadraticThrough_sum {ι : Type*} (s : List ι) (t x : F)
    (p0 p1 p2 : ι → F) :
    (quadraticThrough t (s.map p0).sum (s.map p1).sum (s.map p2).sum).eval x =
      (s.map fun i => (quadraticThrough t (p0 i) (p1 i) (p2 i)).eval x).sum := by
  induction s with
  | nil => simp [eval_quadraticThrough]
  | cons i s ih =>
      simp only [List.map_cons, List.sum_cons]
      rw [← ih]
      simp only [eval_quadraticThrough]
      ring

end Quadratic

end Multilinear
