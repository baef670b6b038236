/-
Few points are special: an affine family that is not zero vanishes at one point
at most, an array that is not zero is bound to zero at one point at most, and
two polynomials of degree two that differ agree at two points at most.
-/
import Longfellow.Lib.Multilinear
import Mathlib.Data.Set.Card

universe u

namespace Multilinear

open Finset

variable {F : Type u} [Field F]

/-- A family of affine functions that is not zero has one common zero at
most. -/
theorem encard_affine_zero_le {ι : Type*} {f g : ι → F} {i : ι}
    (h : f i ≠ 0 ∨ g i ≠ 0) :
    {x : F | ∀ i, f i + x * g i = 0}.encard ≤ 1 := by
  refine Set.encard_le_one_iff.mpr fun x y hx hy => ?_
  have hxi := hx i
  have hyi := hy i
  have hmul : (x - y) * g i = 0 := by linear_combination hxi - hyi
  rcases mul_eq_zero.mp hmul with hsub | hg
  · exact sub_eq_zero.mp hsub
  · have hf : f i = 0 := by rwa [hg, mul_zero, add_zero] at hxi
    exact absurd (h.resolve_left (not_not_intro hf)) (not_not_intro hg)

/-- An array that is not zero is bound to zero at one point at most. -/
theorem encard_bindAt_zero_le {A : Nat → F} (hA : ∃ i, A i ≠ 0) :
    {x : F | ∀ i, bindAt x A i = 0}.encard ≤ 1 := by
  obtain ⟨i, hi⟩ := hA
  have hsame : {x : F | ∀ i, bindAt x A i = 0} =
      {x : F | ∀ i, A (2 * i) + x * (A (2 * i + 1) - A (2 * i)) = 0} := by
    ext x
    refine forall_congr' fun j => ?_
    rw [bindAt, show (1 - x) * A (2 * j) + x * A (2 * j + 1) =
      A (2 * j) + x * (A (2 * j + 1) - A (2 * j)) by ring]
  rw [hsame]
  refine encard_affine_zero_le (f := fun j => A (2 * j))
    (g := fun j => A (2 * j + 1) - A (2 * j)) (i := i / 2) ?_
  by_contra hzero
  obtain ⟨heven, hodd⟩ := not_or.mp hzero
  rw [not_not] at heven hodd
  rw [heven, sub_zero] at hodd
  rcases Nat.mod_two_eq_zero_or_one i with hmod | hmod
  · exact hi (by rwa [show 2 * (i / 2) = i by omega] at heven)
  · exact hi (by rwa [show 2 * (i / 2) + 1 = i by omega] at hodd)

/-- Binding as many index bits as an array has leaves one value. -/
theorem bindAll_eq_zero {xs : List F} {A : Nat → F}
    (hA : ∀ i, 2 ^ xs.length ≤ i → A i = 0) {i : Nat} (hi : 0 < i) :
    bindAll xs A i = 0 := by
  induction xs generalizing A with
  | nil => exact hA i hi
  | cons x xs ih =>
      refine ih fun j hj => bindAt_eq_zero hA x ?_
      rw [List.length_cons, pow_succ]
      omega

theorem eval_quadraticThrough_zero {t : F} (h0 : t ≠ 0) (p0 p1 p2 : F) :
    (quadraticThrough t p0 p1 p2).eval 0 = p0 := by
  rw [eval_quadraticThrough]
  field_simp
  ring

theorem eval_quadraticThrough_one {t : F} (h1 : t ≠ 1) (p0 p1 p2 : F) :
    (quadraticThrough t p0 p1 p2).eval 1 = p1 := by
  have hne : (1 : F) - t ≠ 0 := sub_ne_zero.mpr (Ne.symm h1)
  rw [eval_quadraticThrough]
  field_simp
  ring

theorem degree_quadraticThrough_lt {t : F} (h0 : t ≠ 0) (h1 : t ≠ 1)
    (p0 p1 p2 : F) : (quadraticThrough t p0 p1 p2).degree < 3 := by
  have hnodes : Set.InjOn ![0, 1, t] (univ : Finset (Fin 3)) := by
    intro i _ j _ heq
    fin_cases i <;> fin_cases j <;> simp_all [Ne.symm h0, Ne.symm h1]
  exact Lagrange.degree_interpolate_lt _ hnodes

/-- Two polynomials of degree two whose values at zero and one do not have the
same sum agree at two points at most. -/
theorem encard_quadraticThrough_eq_le {t : F} (h0 : t ≠ 0) (h1 : t ≠ 1)
    {p0 p1 p2 q0 q1 q2 : F} (hne : p0 + p1 ≠ q0 + q1) :
    {x : F | (quadraticThrough t p0 p1 p2).eval x =
      (quadraticThrough t q0 q1 q2).eval x}.encard ≤ 2 := by
  classical
  set p := quadraticThrough t p0 p1 p2 with hp
  set q := quadraticThrough t q0 q1 q2 with hq
  have hsub : p - q ≠ 0 := by
    intro hzero
    rw [sub_eq_zero] at hzero
    refine hne ?_
    have hsum : p.eval 0 + p.eval 1 = q.eval 0 + q.eval 1 := by rw [hzero]
    rwa [hp, hq, eval_quadraticThrough_zero h0, eval_quadraticThrough_one h1,
      eval_quadraticThrough_zero h0, eval_quadraticThrough_one h1] at hsum
  have hdegree : (p - q).degree < 3 :=
    (Polynomial.degree_sub_le p q).trans_lt (max_lt
      (degree_quadraticThrough_lt h0 h1 _ _ _)
      (degree_quadraticThrough_lt h0 h1 _ _ _))
  have hnatDegree : (p - q).natDegree < 3 :=
    (Polynomial.natDegree_lt_iff_degree_lt hsub).mpr hdegree
  have hroots : {x : F | p.eval x = q.eval x} ⊆
      ((p - q).roots.toFinset : Set F) := by
    intro x hx
    rw [Finset.mem_coe, Multiset.mem_toFinset, Polynomial.mem_roots hsub,
      Polynomial.IsRoot, Polynomial.eval_sub, sub_eq_zero]
    exact hx
  calc {x : F | p.eval x = q.eval x}.encard
      ≤ ((p - q).roots.toFinset : Set F).encard := Set.encard_le_encard hroots
    _ = ((p - q).roots.toFinset.card : ℕ∞) := Set.encard_coe_eq_coe_finsetCard _
    _ ≤ ((2 : Nat) : ℕ∞) := by
        refine Nat.cast_le.mpr ((Multiset.toFinset_card_le _).trans
          ((Polynomial.card_roots' _).trans ?_))
        omega

end Multilinear
