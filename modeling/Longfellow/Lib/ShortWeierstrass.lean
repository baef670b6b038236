/-
Complete formulas for the curve `y² = x³ + a x + b` without points of order two:
on projective coordinates they compute the addition of its group.
-/
import Mathlib.AlgebraicGeometry.EllipticCurve.Affine.Point
import Mathlib.GroupTheory.Perm.Cycle.Type
import Mathlib.Tactic.FieldSimp
import Mathlib.Tactic.LinearCombination

namespace ShortWeierstrass

open WeierstrassCurve

/-- Projective coordinates. -/
structure Triple (F : Type) where
  x : F
  y : F
  z : F
deriving DecidableEq

variable {F : Type} [Field F]

/-- The curve with two coefficients. -/
def curve (a b : F) : Affine F := ⟨0, 0, 0, a, b⟩

/-- The right-hand side of the equation has no root, so that there is no point
with a vertical tangent. -/
structure Rootless (a b : F) : Prop where
  two_ne_zero : (2 : F) ≠ 0
  ne_zero : ∀ x, x ^ 3 + a * x + b ≠ 0

section Formulas

/-- The complete addition. -/
def add (a b : F) (p q : Triple F) : Triple F :=
  let xy := p.x * q.y + q.x * p.y
  let yz := p.y * q.z + q.y * p.z
  let xz := p.x * q.z + q.x * p.z
  let u := a * xz + 3 * b * (p.z * q.z)
  let m := a * (p.x * q.x) + 3 * b * xz - a ^ 2 * (p.z * q.z)
  let n := 3 * (p.x * q.x) + a * (p.z * q.z)
  ⟨xy * (p.y * q.y - u) - yz * m, (p.y * q.y + u) * (p.y * q.y - u) + n * m,
    yz * (p.y * q.y + u) + xy * n⟩

/-- The doubling. -/
def double (a b : F) (p : Triple F) : Triple F :=
  let u := a * (2 * p.x * p.z) + 3 * b * p.z ^ 2
  let m := a * p.x ^ 2 + 3 * b * (2 * p.x * p.z) - a ^ 2 * p.z ^ 2
  let n := 3 * p.x ^ 2 + a * p.z ^ 2
  ⟨2 * p.x * p.y * (p.y ^ 2 - u) - 2 * p.y * p.z * m,
    (p.y ^ 2 - u) * (p.y ^ 2 + u) + n * m, 4 * (2 * p.y * p.z) * p.y ^ 2⟩

def Triple.scale (t : Triple F) (c : F) : Triple F := ⟨c * t.x, c * t.y, c * t.z⟩

/-- The bits of a number, the highest one first. -/
def bits : Nat → Nat → List Bool
  | 0, _ => []
  | n + 1, k => bits n (k / 2) ++ [k.testBit 0]

/-- A multiple of a point by the bits of a number. -/
def multiple (a b : F) (p : Triple F) (bits : List Bool) : Triple F :=
  bits.foldl (fun acc bit =>
    let acc := double a b acc
    if bit then add a b acc p else acc) ⟨0, 1, 0⟩

/-- The homogeneous equation of the curve. -/
def OnCurve (a b : F) (t : Triple F) : Prop :=
  t.y ^ 2 * t.z = t.x ^ 3 + a * t.x * t.z ^ 2 + b * t.z ^ 3

theorem add_scale (a b : F) (p q : Triple F) (c d : F) :
    add a b (p.scale c) (q.scale d) = (add a b p q).scale ((c * d) ^ 2) := by
  simp only [add, Triple.scale, Triple.mk.injEq]
  refine ⟨?_, ?_, ?_⟩ <;> ring

/-- On the curve, the doubling is the addition of the point to itself. -/
theorem double_eq_add {a b : F} {t : Triple F} (h : OnCurve a b t) :
    double a b t = add a b t t := by
  rw [OnCurve] at h
  simp only [double, add, Triple.mk.injEq]
  refine ⟨by ring, by ring, ?_⟩
  linear_combination (6 * t.y) * h

end Formulas

section Represents

variable {a b : F}

theorem equation_iff {x y : F} :
    (curve a b).Equation x y ↔ y ^ 2 = x ^ 3 + a * x + b := by
  rw [Affine.equation_iff]
  simp [curve]

theorem negY_eq (x y : F) : (curve a b).negY x y = -y := by
  simp [Affine.negY, curve]

theorem Rootless.y_ne_zero (h : Rootless a b) {x y : F}
    (hxy : y ^ 2 = x ^ 3 + a * x + b) : y ≠ 0 := by
  rintro rfl
  exact h.ne_zero x (by rw [← hxy, zero_pow (by decide)])

/-- All affine solutions of the equation are points. -/
theorem Rootless.nonsingular (h : Rootless a b) {x y : F}
    (hxy : y ^ 2 = x ^ 3 + a * x + b) : (curve a b).Nonsingular x y := by
  refine (Affine.nonsingular_iff' ..).mpr ⟨equation_iff.mpr hxy, .inr ?_⟩
  have htwo := mul_ne_zero h.two_ne_zero (h.y_ne_zero hxy)
  simpa [curve] using htwo

/-- A point with coordinates that satisfy the equation. -/
def Rootless.point (h : Rootless a b) (x y : F)
    (hxy : y ^ 2 = x ^ 3 + a * x + b) : (curve a b).Point :=
  .some x y (h.nonsingular hxy)

/-- The coordinates of a point up to a factor. -/
def Represents (t : Triple F) : (curve a b).Point → Prop
  | .zero => t.x = 0 ∧ t.y ≠ 0 ∧ t.z = 0
  | .some x y _ => t.z ≠ 0 ∧ t.x = x * t.z ∧ t.y = y * t.z

/-- The coordinates of a point that are normalised. -/
def normal : (curve a b).Point → Triple F
  | .zero => ⟨0, 1, 0⟩
  | .some x y _ => ⟨x, y, 1⟩

theorem equation_of_some {x y : F} (h : (curve a b).Nonsingular x y) :
    y ^ 2 = x ^ 3 + a * x + b :=
  equation_iff.mp h.1

theorem represents_zero {t : Triple F} :
    Represents t (0 : (curve a b).Point) ↔ t.x = 0 ∧ t.y ≠ 0 ∧ t.z = 0 :=
  Iff.rfl

theorem represents_iff_scale {t : Triple F} {P : (curve a b).Point} :
    Represents t P ↔ ∃ c, c ≠ 0 ∧ t = (normal P).scale c := by
  obtain ⟨x', y', z'⟩ := t
  constructor
  · intro h
    match P with
    | .zero =>
        obtain ⟨hx, hy, hz⟩ := h
        exact ⟨y', hy, by simp_all [normal, Triple.scale]⟩
    | .some x y _ =>
        obtain ⟨hz, hx, hy⟩ := h
        refine ⟨z', hz, ?_⟩
        simp_all [normal, Triple.scale, mul_comm]
  · rintro ⟨c, hc, h⟩
    rw [h]
    match P with
    | .zero => exact ⟨mul_zero c, by simpa [normal, Triple.scale], mul_zero c⟩
    | .some x y _ =>
        simp only [Represents, normal, Triple.scale, mul_one]
        exact ⟨hc, mul_comm c x, mul_comm c y⟩

theorem represents_normal (P : (curve a b).Point) : Represents (normal P) P :=
  represents_iff_scale.mpr ⟨1, one_ne_zero, by simp [Triple.scale]⟩

theorem Represents.scale {t : Triple F} {P : (curve a b).Point}
    (h : Represents t P) {c : F} (hc : c ≠ 0) : Represents (t.scale c) P := by
  obtain ⟨d, hd, rfl⟩ := represents_iff_scale.mp h
  refine represents_iff_scale.mpr ⟨c * d, mul_ne_zero hc hd, ?_⟩
  simp [Triple.scale, mul_assoc]

/-- Two triples of one point differ by a factor. -/
theorem Represents.exists_scale {s t : Triple F} {P : (curve a b).Point}
    (hs : Represents s P) (ht : Represents t P) :
    ∃ c, c ≠ 0 ∧ t = s.scale c := by
  obtain ⟨c, hc, rfl⟩ := represents_iff_scale.mp hs
  obtain ⟨d, hd, rfl⟩ := represents_iff_scale.mp ht
  refine ⟨d * c⁻¹, mul_ne_zero hd (inv_ne_zero hc), ?_⟩
  simp only [Triple.scale, Triple.mk.injEq]
  refine ⟨?_, ?_, ?_⟩ <;> field_simp

theorem Represents.onCurve {t : Triple F} {P : (curve a b).Point}
    (h : Represents t P) : OnCurve a b t := by
  match P with
  | .zero =>
      obtain ⟨hx, -, hz⟩ := h
      simp [OnCurve, hx, hz]
  | .some x y hxy =>
      obtain ⟨-, hx, hy⟩ := h
      have heq := equation_of_some hxy
      rw [OnCurve, hx, hy]
      linear_combination t.z ^ 3 * heq

/-- Every solution of the homogeneous equation other than zero represents a
point. -/
theorem Rootless.exists_represents (h : Rootless a b) {t : Triple F}
    (ht : OnCurve a b t) (hne : t ≠ ⟨0, 0, 0⟩) :
    ∃ P : (curve a b).Point, Represents t P := by
  obtain ⟨x, y, z⟩ := t
  by_cases hz : z = 0
  · subst hz
    have hx : x = 0 := by simpa [OnCurve] using ht.symm
    subst hx
    exact ⟨.zero, rfl, fun hy => hne (by simpa using hy), rfl⟩
  · have hxy : (y / z) ^ 2 = (x / z) ^ 3 + a * (x / z) + b := by
      simp only [OnCurve] at ht
      field_simp
      linear_combination ht
    refine ⟨h.point _ _ hxy, hz, ?_, ?_⟩
    · exact (div_mul_cancel₀ x hz).symm
    · exact (div_mul_cancel₀ y hz).symm

/-- A triple represents one point only. -/
theorem Represents.unique {t : Triple F} {P Q : (curve a b).Point}
    (hP : Represents t P) (hQ : Represents t Q) : P = Q := by
  match P, Q with
  | .zero, .zero => rfl
  | .zero, .some _ _ _ => exact absurd hP.2.2 hQ.1
  | .some _ _ _, .zero => exact absurd hQ.2.2 hP.1
  | .some x y _, .some x' y' _ =>
      obtain ⟨hz, hx, hy⟩ := hP
      obtain ⟨-, hx', hy'⟩ := hQ
      have hsame : x = x' := mul_right_cancel₀ hz (hx.symm.trans hx')
      have hsame' : y = y' := mul_right_cancel₀ hz (hy.symm.trans hy')
      subst hsame hsame'
      rfl

end Represents

section Identities

variable {a b x₁ y₁ x₂ y₂ : F}

theorem add_z_eq (h₁ : y₁ ^ 2 = x₁ ^ 3 + a * x₁ + b)
    (h₂ : y₂ ^ 2 = x₂ ^ 3 + a * x₂ + b) :
    (add a b ⟨x₁, y₁, 1⟩ ⟨x₂, y₂, 1⟩).z =
      (y₁ + y₂) ^ 3 - (y₁ + y₂) * (x₁ - x₂) ^ 2 * (2 * x₁ + x₂) +
        y₁ * (x₁ - x₂) ^ 3 := by
  simp only [add]
  grind

theorem add_x_eq (h₁ : y₁ ^ 2 = x₁ ^ 3 + a * x₁ + b)
    (h₂ : y₂ ^ 2 = x₂ ^ 3 + a * x₂ + b) :
    (x₁ - x₂) ^ 2 * (add a b ⟨x₁, y₁, 1⟩ ⟨x₂, y₂, 1⟩).x =
      ((y₁ - y₂) ^ 2 - (x₁ + x₂) * (x₁ - x₂) ^ 2) *
        (add a b ⟨x₁, y₁, 1⟩ ⟨x₂, y₂, 1⟩).z := by
  simp only [add]
  grind

theorem add_y_eq (h₁ : y₁ ^ 2 = x₁ ^ 3 + a * x₁ + b)
    (h₂ : y₂ ^ 2 = x₂ ^ 3 + a * x₂ + b) :
    (x₁ - x₂) ^ 3 * (add a b ⟨x₁, y₁, 1⟩ ⟨x₂, y₂, 1⟩).y =
      ((y₁ - y₂) * (x₁ * (x₁ - x₂) ^ 2 -
        ((y₁ - y₂) ^ 2 - (x₁ + x₂) * (x₁ - x₂) ^ 2)) - y₁ * (x₁ - x₂) ^ 3) *
          (add a b ⟨x₁, y₁, 1⟩ ⟨x₂, y₂, 1⟩).z := by
  simp only [add]
  grind

theorem add_self_z_eq (h : y₁ ^ 2 = x₁ ^ 3 + a * x₁ + b) :
    (add a b ⟨x₁, y₁, 1⟩ ⟨x₁, y₁, 1⟩).z = 8 * y₁ ^ 3 := by
  simp only [add]
  grind

theorem add_self_x_eq (h : y₁ ^ 2 = x₁ ^ 3 + a * x₁ + b) :
    4 * y₁ ^ 2 * (add a b ⟨x₁, y₁, 1⟩ ⟨x₁, y₁, 1⟩).x =
      ((3 * x₁ ^ 2 + a) ^ 2 - 2 * x₁ * (4 * y₁ ^ 2)) * (8 * y₁ ^ 3) := by
  simp only [add]
  grind

theorem add_self_y_eq (h : y₁ ^ 2 = x₁ ^ 3 + a * x₁ + b) :
    8 * y₁ ^ 3 * (add a b ⟨x₁, y₁, 1⟩ ⟨x₁, y₁, 1⟩).y =
      ((3 * x₁ ^ 2 + a) * (x₁ * (4 * y₁ ^ 2) -
        ((3 * x₁ ^ 2 + a) ^ 2 - 2 * x₁ * (4 * y₁ ^ 2))) -
          y₁ * (8 * y₁ ^ 3)) * (8 * y₁ ^ 3) := by
  simp only [add]
  grind

/-- For opposite points, the y-coordinate is that of the double of a point, up
to a factor. -/
theorem add_neg_y_eq (h : y₁ ^ 2 = x₁ ^ 3 + a * x₁ + b) :
    (add a b ⟨x₁, y₁, 1⟩ ⟨x₁, -y₁, 1⟩).y =
      (3 * x₁ ^ 2 + a) * (x₁ * (4 * y₁ ^ 2) -
        ((3 * x₁ ^ 2 + a) ^ 2 - 2 * x₁ * (4 * y₁ ^ 2))) -
          y₁ * (8 * y₁ ^ 3) := by
  simp only [add]
  grind

end Identities

section Addition

variable [DecidableEq F] {a b : F}

/-- The coordinates of a sum along the line through two points. -/
theorem add_some_of_ne {x₁ y₁ x₂ y₂ : F}
    (h₁ : (curve a b).Nonsingular x₁ y₁) (h₂ : (curve a b).Nonsingular x₂ y₂)
    (hne : x₁ ≠ x₂) : ∃ x₃ y₃ h₃,
      Affine.Point.some x₁ y₁ h₁ + .some x₂ y₂ h₂ = .some x₃ y₃ h₃ ∧
      (x₁ - x₂) ^ 2 * x₃ = (y₁ - y₂) ^ 2 - (x₁ + x₂) * (x₁ - x₂) ^ 2 ∧
      (x₁ - x₂) * y₃ = (y₁ - y₂) * (x₁ - x₃) - y₁ * (x₁ - x₂) := by
  have hd : x₁ - x₂ ≠ 0 := sub_ne_zero.mpr hne
  refine ⟨_, _, _, Affine.Point.add_of_X_ne hne, ?_, ?_⟩
  · rw [Affine.addX, Affine.slope_of_X_ne hne]
    simp only [curve]
    field_simp
    ring
  · rw [Affine.addY, negY_eq, Affine.negAddY, Affine.slope_of_X_ne hne]
    field_simp
    ring

/-- The coordinates of a sum along a tangent. -/
theorem add_some_self (h2 : (2 : F) ≠ 0) {x y : F}
    (h : (curve a b).Nonsingular x y) (hy : y ≠ 0) : ∃ x₃ y₃ h₃,
      Affine.Point.some x y h + .some x y h = .some x₃ y₃ h₃ ∧
      4 * y ^ 2 * x₃ = (3 * x ^ 2 + a) ^ 2 - 2 * x * (4 * y ^ 2) ∧
      2 * y * y₃ = (3 * x ^ 2 + a) * (x - x₃) - y * (2 * y) := by
  have hne : y ≠ (curve a b).negY x y := by
    rw [negY_eq]
    intro heq
    have hsum : 2 * y = 0 := by linear_combination heq
    exact mul_ne_zero h2 hy hsum
  have hslope : (curve a b).slope x x y y = (3 * x ^ 2 + a) / (2 * y) := by
    rw [Affine.slope_of_Y_ne rfl hne, negY_eq]
    simp only [curve]
    congr 1 <;> ring
  refine ⟨_, _, _, Affine.Point.add_self_of_Y_ne hne, ?_, ?_⟩
  · rw [Affine.addX, hslope]
    simp only [curve]
    field_simp
    ring
  · rw [Affine.addY, negY_eq, Affine.negAddY, hslope]
    field_simp
    ring

/-- The addition on normalised coordinates of points with different
x-coordinates.  Its last coordinate is the y-coordinate of the difference of the
points up to a factor, so it is not zero. -/
theorem Rootless.represents_add_of_ne (h : Rootless a b) {x₁ y₁ x₂ y₂ : F}
    (h₁ : (curve a b).Nonsingular x₁ y₁) (h₂ : (curve a b).Nonsingular x₂ y₂)
    (hne : x₁ ≠ x₂) : Represents (add a b ⟨x₁, y₁, 1⟩ ⟨x₂, y₂, 1⟩)
      (Affine.Point.some x₁ y₁ h₁ + .some x₂ y₂ h₂) := by
  have he₁ := equation_of_some h₁
  have he₂ := equation_of_some h₂
  have hd : x₁ - x₂ ≠ 0 := sub_ne_zero.mpr hne
  obtain ⟨x₃, y₃, h₃, hsum, hx, hy⟩ := add_some_of_ne h₁ h₂ hne
  obtain ⟨x₄, y₄, h₄, -, hx', hy'⟩ := add_some_of_ne h₁
    (h.nonsingular (x := x₂) (y := -y₂) (by rw [neg_sq, he₂])) hne
  have hz : (add a b ⟨x₁, y₁, 1⟩ ⟨x₂, y₂, 1⟩).z = -((x₁ - x₂) ^ 3 * y₄) := by
    rw [add_z_eq he₁ he₂]
    linear_combination (x₁ - x₂) ^ 2 * hy' - (y₁ + y₂) * hx'
  have hy₄ : y₄ ≠ 0 := h.y_ne_zero (equation_of_some h₄)
  rw [hsum]
  refine ⟨?_, ?_, ?_⟩
  · rw [hz]
    exact neg_ne_zero.mpr (mul_ne_zero (pow_ne_zero 3 hd) hy₄)
  · apply mul_left_cancel₀ (pow_ne_zero 2 hd)
    rw [← mul_assoc, hx, add_x_eq he₁ he₂]
  · have hy₃ : (x₁ - x₂) ^ 3 * y₃ =
        (y₁ - y₂) * (x₁ * (x₁ - x₂) ^ 2 -
          ((y₁ - y₂) ^ 2 - (x₁ + x₂) * (x₁ - x₂) ^ 2)) -
            y₁ * (x₁ - x₂) ^ 3 := by
      linear_combination (x₁ - x₂) ^ 2 * hy - (y₁ - y₂) * hx
    apply mul_left_cancel₀ (pow_ne_zero 3 hd)
    rw [← mul_assoc, hy₃, add_y_eq he₁ he₂]

/-- The addition on normalised coordinates of a point to itself, and to its
negative.  In both, what must not be zero is the y-coordinate of a point. -/
theorem Rootless.represents_add_self (h : Rootless a b) {x y : F}
    (hxy : (curve a b).Nonsingular x y) :
    Represents (add a b ⟨x, y, 1⟩ ⟨x, y, 1⟩)
      (Affine.Point.some x y hxy + .some x y hxy) ∧
    Represents (add a b ⟨x, y, 1⟩ ⟨x, -y, 1⟩) (0 : (curve a b).Point) := by
  have he := equation_of_some hxy
  have hy := h.y_ne_zero he
  obtain ⟨x₃, y₃, h₃, hsum, hx₃, hy₃⟩ := add_some_self h.two_ne_zero hxy hy
  have hfour : (4 : F) ≠ 0 := by
    have hmul := mul_ne_zero h.two_ne_zero h.two_ne_zero
    norm_num at hmul
    exact hmul
  have height : (8 : F) ≠ 0 := by
    have hmul := mul_ne_zero hfour h.two_ne_zero
    norm_num at hmul
    exact hmul
  have h8y := mul_ne_zero height (pow_ne_zero 3 hy)
  have hcoord : 8 * y ^ 3 * y₃ =
      (3 * x ^ 2 + a) * (x * (4 * y ^ 2) -
        ((3 * x ^ 2 + a) ^ 2 - 2 * x * (4 * y ^ 2))) - y * (8 * y ^ 3) := by
    linear_combination 4 * y ^ 2 * hy₃ - (3 * x ^ 2 + a) * hx₃
  constructor
  · rw [hsum]
    refine ⟨?_, ?_, ?_⟩
    · rw [add_self_z_eq he]
      exact h8y
    · apply mul_left_cancel₀ (mul_ne_zero hfour (pow_ne_zero 2 hy))
      rw [add_self_z_eq he, ← mul_assoc, hx₃, add_self_x_eq he]
    · apply mul_left_cancel₀ h8y
      rw [add_self_z_eq he, ← mul_assoc, hcoord, add_self_y_eq he]
  · refine represents_zero.mpr ⟨?_, ?_, ?_⟩
    · simp only [add]
      ring
    · rw [add_neg_y_eq he, ← hcoord]
      exact mul_ne_zero h8y (h.y_ne_zero (equation_of_some h₃))
    · simp only [add]
      ring

/-- The addition on normalised coordinates. -/
theorem Rootless.represents_add_normal (h : Rootless a b)
    (P Q : (curve a b).Point) :
    Represents (add a b (normal P) (normal Q)) (P + Q) := by
  match P, Q with
  | .zero, .zero =>
      exact ⟨by simp [add, normal], by simp [add, normal], by simp [add, normal]⟩
  | .zero, .some x y hxy =>
      have hy := h.y_ne_zero (equation_of_some hxy)
      refine ⟨?_, ?_, ?_⟩ <;> simp only [add, normal]
      · simpa using hy
      · ring
      · ring
  | .some x y hxy, .zero =>
      have hy := h.y_ne_zero (equation_of_some hxy)
      refine ⟨?_, ?_, ?_⟩ <;> simp only [add, normal]
      · simpa using hy
      · ring
      · ring
  | .some x₁ y₁ h₁, .some x₂ y₂ h₂ =>
      by_cases hne : x₁ = x₂
      · subst hne
        have hsq : y₂ ^ 2 = y₁ ^ 2 := by
          rw [equation_of_some h₁, equation_of_some h₂]
        obtain ⟨hself, hneg⟩ := h.represents_add_self h₁
        rcases sq_eq_sq_iff_eq_or_eq_neg.mp hsq with rfl | rfl
        · exact hself
        · rw [Affine.Point.add_of_Y_eq rfl (by rw [negY_eq, neg_neg])]
          exact hneg
      · exact h.represents_add_of_ne h₁ h₂ hne

/-- The complete addition computes the addition of the group. -/
theorem Rootless.represents_add (h : Rootless a b) {s t : Triple F}
    {P Q : (curve a b).Point} (hs : Represents s P) (ht : Represents t Q) :
    Represents (add a b s t) (P + Q) := by
  obtain ⟨c, hc, rfl⟩ := represents_iff_scale.mp hs
  obtain ⟨d, hd, rfl⟩ := represents_iff_scale.mp ht
  rw [add_scale]
  exact (h.represents_add_normal P Q).scale (pow_ne_zero 2 (mul_ne_zero hc hd))

theorem Rootless.represents_double (h : Rootless a b) {t : Triple F}
    {P : (curve a b).Point} (ht : Represents t P) :
    Represents (double a b t) (P + P) := by
  rw [double_eq_add ht.onCurve]
  exact h.represents_add ht ht

theorem bits_eq (n k : Nat) :
    bits n k = (List.range n).reverse.map k.testBit := by
  induction n generalizing k with
  | zero => rfl
  | succ n ih =>
      rw [bits, ih, List.range_succ_eq_map, List.reverse_cons, List.map_append,
        ← List.map_reverse, List.map_map]
      congr 1
      refine List.map_congr_left fun i _ => ?_
      rw [Function.comp_apply, Nat.testBit_succ]

theorem bits_add (m n k : Nat) :
    bits (m + n) k = bits m (k / 2 ^ n) ++ bits n k := by
  induction n generalizing k with
  | zero => rw [pow_zero, Nat.div_one, bits, List.append_nil, Nat.add_zero]
  | succ n ih =>
      rw [← Nat.add_assoc, bits, ih, bits, List.append_assoc,
        Nat.div_div_eq_div_mul, ← pow_succ']

theorem bits_mod (n k : Nat) : bits n (k % 2 ^ n) = bits n k := by
  rw [bits_eq, bits_eq]
  refine List.map_congr_left fun i hi => ?_
  have hlt : i < n := List.mem_range.mp (List.mem_reverse.mp hi)
  rw [Nat.testBit_mod_two_pow, decide_eq_true hlt, Bool.true_and]

theorem length_bits (n k : Nat) : (bits n k).length = n := by
  rw [bits_eq, List.length_map, List.length_reverse, List.length_range]

theorem getElem_bits {n k j : Nat} (h : j < (bits n k).length) :
    (bits n k)[j] = k.testBit (n - 1 - j) := by
  simp only [bits_eq, List.getElem_map, List.getElem_reverse,
    List.getElem_range, List.length_range]

/-- Doubling and adding by the bits of a number computes the multiple. -/
theorem Rootless.represents_multiple (h : Rootless a b) {t : Triple F}
    {P : (curve a b).Point} (ht : Represents t P) (n : Nat) {k : Nat}
    (hk : k < 2 ^ n) : Represents (multiple a b t (bits n k)) (k • P) := by
  induction n generalizing k with
  | zero =>
      obtain rfl : k = 0 := by omega
      rw [zero_nsmul]
      exact ⟨rfl, one_ne_zero, rfl⟩
  | succ n ih =>
      have hhalf : k / 2 < 2 ^ n := by
        rw [pow_succ] at hk
        omega
      have hdouble := h.represents_double (ih hhalf)
      rw [← two_nsmul, ← mul_nsmul'] at hdouble
      rw [multiple, bits, List.foldl_append, List.foldl_cons, List.foldl_nil]
      by_cases hbit : k.testBit 0
      · have hodd : k = 2 * (k / 2) + 1 := by
          rw [Nat.testBit_zero, decide_eq_true_eq] at hbit
          omega
        have hadd := h.represents_add hdouble ht
        rw [← succ_nsmul, ← hodd] at hadd
        rw [if_pos hbit]
        exact hadd
      · have heven : k = 2 * (k / 2) := by
          rw [Nat.testBit_zero, decide_eq_true_eq] at hbit
          omega
        rw [← heven] at hdouble
        rw [if_neg hbit]
        exact hdouble

end Addition

section Order

variable [DecidableEq F] {a b : F}

theorem Rootless.eq_zero_of_add_self (h : Rootless a b)
    {P : (curve a b).Point} (hP : P + P = 0) : P = 0 := by
  match P with
  | .zero => rfl
  | .some x y hxy =>
      obtain ⟨x₃, y₃, h₃, hsum, -⟩ := add_some_self h.two_ne_zero hxy
        (h.y_ne_zero (equation_of_some hxy))
      rw [hsum] at hP
      exact absurd hP (Affine.Point.some_ne_zero h₃)

open Classical in
/-- A y-coordinate for an x-coordinate, if there is one. -/
noncomputable def root (a b x : F) : F :=
  if h : ∃ y, y ^ 2 = x ^ 3 + a * x + b then h.choose else 0

/-- A point is told by its x-coordinate and which of two values its y-coordinate
is. -/
noncomputable def code : (curve a b).Point → Option (F × Bool)
  | .zero => none
  | .some x y _ => some (x, decide (y = root a b x))

omit [DecidableEq F] in
theorem root_sq {x y : F} (hxy : y ^ 2 = x ^ 3 + a * x + b) :
    root a b x ^ 2 = y ^ 2 := by
  have hex : ∃ y, y ^ 2 = x ^ 3 + a * x + b := ⟨y, hxy⟩
  rw [root, dif_pos hex, hex.choose_spec, hxy]

theorem code_injective :
    Function.Injective (code : (curve a b).Point → Option (F × Bool)) := by
  intro P Q hcode
  match P, Q with
  | .zero, .zero => rfl
  | .zero, .some _ _ _ => cases hcode
  | .some _ _ _, .zero => cases hcode
  | .some x y h, .some x' y' h' =>
      obtain ⟨rfl, hy⟩ := Prod.mk.inj (Option.some.inj hcode)
      have hroot := sq_eq_sq_iff_eq_or_eq_neg.mp
        (root_sq (equation_of_some h)).symm
      have hroot' := sq_eq_sq_iff_eq_or_eq_neg.mp
        (root_sq (equation_of_some h')).symm
      have hsame : y = y' := by
        by_cases hpos : y = root a b x
        · rw [decide_eq_true hpos] at hy
          rw [hpos, of_decide_eq_true hy.symm]
        · have hpos' : y' ≠ root a b x := by
            rw [decide_eq_false hpos] at hy
            exact of_decide_eq_false hy.symm
          rw [hroot.resolve_left hpos, hroot'.resolve_left hpos']
      subst hsame
      rfl

variable [Fintype F]

instance : Finite (curve a b).Point := Finite.of_injective code code_injective

theorem card_le : Nat.card (curve a b).Point ≤ 2 * Fintype.card F + 1 := by
  have hcodes : Nat.card (Option (F × Bool)) = 2 * Fintype.card F + 1 := by
    rw [Nat.card_eq_fintype_card, Fintype.card_option, Fintype.card_prod,
      Fintype.card_bool, Nat.mul_comm]
  rw [← hcodes]
  exact Nat.card_le_card_of_injective code code_injective

/-- A point of large prime order generates the group: there are at most twice as
many points, and without points of order two their number is odd. -/
theorem Rootless.card_eq (h : Rootless a b) {G : (curve a b).Point} {n : Nat}
    (hn : n.Prime) (hG : n • G = 0) (hne : G ≠ 0)
    (hlarge : 2 * Fintype.card F + 1 < 3 * n) :
    Nat.card (curve a b).Point = n := by
  have horder : addOrderOf G = n := by
    have : Fact n.Prime := ⟨hn⟩
    exact addOrderOf_eq_prime hG hne
  obtain ⟨k, hk⟩ := horder ▸ addOrderOf_dvd_natCard G
  have hpos : 0 < Nat.card (curve a b).Point := Nat.card_pos
  have hle := card_le (a := a) (b := b)
  have hk3 : k < 3 := by
    by_contra hk3
    have hmul := Nat.mul_le_mul_left n (Nat.le_of_not_lt hk3)
    omega
  have hk2 : k ≠ 2 := by
    rintro rfl
    have : Fact (Nat.Prime 2) := ⟨Nat.prime_two⟩
    obtain ⟨P, hP⟩ := exists_prime_addOrderOf_dvd_card' 2
      (⟨n, by rw [hk, Nat.mul_comm]⟩ : 2 ∣ Nat.card (curve a b).Point)
    have htwo : P + P = 0 := by
      rw [← two_nsmul, ← hP]
      exact addOrderOf_nsmul_eq_zero P
    rw [h.eq_zero_of_add_self htwo, addOrderOf_zero] at hP
    cases hP
  interval_cases k
  · omega
  · rw [hk, Nat.mul_one]
  · exact absurd rfl hk2

end Order

section Coordinates

variable {a b : F}

/-- The affine coordinates of a point other than zero. -/
def coordinates : (curve a b).Point → Option (F × F)
  | .zero => none
  | .some x y _ => some (x, y)

theorem coordinates_eq_none {P : (curve a b).Point} :
    coordinates P = none ↔ P = 0 := by
  match P with
  | .zero => exact ⟨fun _ => rfl, fun _ => rfl⟩
  | .some x y h =>
      refine ⟨(by intro hnone; cases hnone), fun hzero => ?_⟩
      exact absurd hzero (Affine.Point.some_ne_zero h)

theorem coordinates_injective :
    Function.Injective (coordinates : (curve a b).Point → Option (F × F)) := by
  intro P Q hsame
  match P, Q with
  | .zero, .zero => rfl
  | .zero, .some _ _ _ => cases hsame
  | .some _ _ _, .zero => cases hsame
  | .some x y h, .some x' y' h' =>
      cases hsame
      rfl

/-- The coordinates of points are the solutions of the equation. -/
theorem Rootless.exists_coordinates (h : Rootless a b) {x y : F} :
    (∃ P : (curve a b).Point, coordinates P = some (x, y)) ↔
      y ^ 2 = x ^ 3 + a * x + b := by
  constructor
  · rintro ⟨P, hP⟩
    match P with
    | .zero => cases hP
    | .some _ _ hxy =>
        cases hP
        exact equation_of_some hxy
  · exact fun hxy => ⟨h.point x y hxy, rfl⟩

theorem represents_of_coordinates {P : (curve a b).Point} {x y : F}
    (h : coordinates P = some (x, y)) : Represents ⟨x, y, 1⟩ P := by
  match P with
  | .zero => cases h
  | .some _ _ hxy =>
      cases h
      exact represents_normal (Affine.Point.some x y hxy)

theorem Represents.coordinates_eq [DecidableEq F] {t : Triple F}
    {P : (curve a b).Point} (h : Represents t P) :
    coordinates P =
      if t.z = 0 then none else some (t.x * t.z⁻¹, t.y * t.z⁻¹) := by
  match P with
  | .zero =>
      rw [if_pos h.2.2]
      rfl
  | .some x y hxy =>
      obtain ⟨hz, hx, hy⟩ := h
      rw [if_neg hz, hx, hy, mul_inv_cancel_right₀ hz,
        mul_inv_cancel_right₀ hz]
      rfl

theorem Rootless.y_ne_zero_of_represents (h : Rootless a b) {t : Triple F}
    {P : (curve a b).Point} (ht : Represents t P) : t.y ≠ 0 := by
  match P with
  | .zero => exact ht.2.1
  | .some x y hxy =>
      obtain ⟨hz, -, hy⟩ := ht
      rw [hy]
      exact mul_ne_zero (h.y_ne_zero (equation_of_some hxy)) hz

end Coordinates

-- Otherwise the multiple in a statement about a number is evaluated.
attribute [irreducible] Represents

end ShortWeierstrass
