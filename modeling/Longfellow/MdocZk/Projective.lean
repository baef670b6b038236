/-
Points of the P-256 elliptic curve in projective coordinates, and that their
straight-line programs compute the addition of the group.
-/
import Longfellow.MdocZk.Sec1
import Longfellow.Nymauth.Ecdsa

namespace Longfellow.MdocZk

open ShortWeierstrass

open scoped Numerals

/-- An elliptic curve point, represented with projective coordinates. -/
structure ProjectivePoint where
  x : FieldP256
  y : FieldP256
  z : FieldP256
deriving DecidableEq

namespace ProjectivePoint

/-- The identity element, which represents the point at infinity. -/
def identity : ProjectivePoint := ⟨0, 1, 0⟩

def ofAffine (value : AffinePoint) : ProjectivePoint :=
  match value.coordinates with
  | some (x, y) => ⟨x, y, 1⟩
  | none => identity

def toAffine (value : ProjectivePoint) : AffinePoint :=
  let reciprocal := value.z⁻¹
  if value.z = 0 then .infinity
  else .new (value.x * reciprocal) (value.y * reciprocal)

/-- Addition of two projective points. -/
def add (self rhs : ProjectivePoint) : ProjectivePoint :=
  let (x1, y1, z1) := (self.x, self.y, self.z)
  let (x2, y2, z2) := (rhs.x, rhs.y, rhs.z)
  let t0 := x1 * x2
  let t1 := y1 * y2
  let t2 := z1 * z2
  let t3 := x1 + y1
  let t4 := x2 + y2
  let t3 := t3 * t4
  let t4 := t0 + t1
  let t3 := t3 - t4
  let t4 := y1 + z1
  let x3 := y2 + z2
  let t4 := t4 * x3
  let x3 := t1 + t2
  let t4 := t4 - x3
  let x3 := x1 + z1
  let y3 := x2 + z2
  let x3 := x3 * y3
  let y3 := t0 + t2
  let y3 := x3 - y3
  let z3 := p256B * t2
  let x3 := y3 - z3
  let z3 := x3 + x3
  let x3 := x3 + z3
  let z3 := t1 - x3
  let x3 := t1 + x3
  let y3 := p256B * y3
  let t1 := t2 + t2
  let t2 := t1 + t2
  let y3 := y3 - t2
  let y3 := y3 - t0
  let t1 := y3 + y3
  let y3 := t1 + y3
  let t1 := t0 + t0
  let t0 := t1 + t0
  let t0 := t0 - t2
  let t1 := t4 * y3
  let t2 := t0 * y3
  let y3 := x3 * z3
  let y3 := y3 + t2
  let x3 := t3 * x3
  let x3 := x3 - t1
  let z3 := t4 * z3
  let t1 := t3 * t0
  let z3 := z3 + t1
  ⟨x3, y3, z3⟩

/-- Mixed addition of projective and affine points. -/
def addAffine (self : ProjectivePoint) (rhs : AffinePoint) : ProjectivePoint :=
  let (x1, y1, z1) := (self.x, self.y, self.z)
  match rhs.coordinates with
  | some (x2, y2) =>
      let t0 := x1 * x2
      let t1 := y1 * y2
      let t3 := x2 + y2
      let t4 := x1 + y1
      let t3 := t3 * t4
      let t4 := t0 + t1
      let t3 := t3 - t4
      let t4 := y2 * z1
      let t4 := t4 + y1
      let y3 := x2 * z1
      let y3 := y3 + x1
      let z3 := p256B * z1
      let x3 := y3 - z3
      let z3 := x3 + x3
      let x3 := x3 + z3
      let z3 := t1 - x3
      let x3 := t1 + x3
      let y3 := p256B * y3
      let t1 := z1 + z1
      let t2 := t1 + z1
      let y3 := y3 - t2
      let y3 := y3 - t0
      let t1 := y3 + y3
      let y3 := t1 + y3
      let t1 := t0 + t0
      let t0 := t1 + t0
      let t0 := t0 - t2
      let t1 := t4 * y3
      let t2 := t0 * y3
      let y3 := x3 * z3
      let y3 := y3 + t2
      let x3 := t3 * x3
      let x3 := x3 - t1
      let z3 := t4 * z3
      let t1 := t3 * t0
      let z3 := z3 + t1
      ⟨x3, y3, z3⟩
  | none => self

/-- Doubling of a projective point. -/
def double (self : ProjectivePoint) : ProjectivePoint :=
  let (x, y, z) := (self.x, self.y, self.z)
  let t0 := x * x
  let t1 := y * y
  let t2 := z * z
  let t3 := x * y
  let t3 := t3 + t3
  let z3 := x * z
  let z3 := z3 + z3
  let y3 := p256B * t2
  let y3 := y3 - z3
  let x3 := y3 + y3
  let y3 := x3 + y3
  let x3 := t1 - y3
  let y3 := t1 + y3
  let y3 := x3 * y3
  let x3 := x3 * t3
  let t3 := t2 + t2
  let t2 := t2 + t3
  let z3 := p256B * z3
  let z3 := z3 - t2
  let z3 := z3 - t0
  let t3 := z3 + z3
  let z3 := z3 + t3
  let t3 := t0 + t0
  let t0 := t3 + t0
  let t0 := t0 - t2
  let t0 := t0 * z3
  let y3 := y3 + t0
  let t0 := y * z
  let t0 := t0 + t0
  let z3 := t0 * z3
  let x3 := x3 - z3
  let z3 := t0 * t1
  let z3 := z3 + z3
  let z3 := z3 + z3
  ⟨x3, y3, z3⟩

/-- Perform an elliptic curve point scalar multiplication, by the bits of the
scalar from the most significant one. -/
def scalarMult (self : ProjectivePoint) (bits : List Bool) : ProjectivePoint :=
  bits.foldl
    (fun accumulator bit =>
      let double := accumulator.double
      let plusOne := double.add self
      if bit then plusOne else double)
    identity

def triple (p : ProjectivePoint) : Triple FieldP256 := ⟨p.x, p.y, p.z⟩

theorem triple_injective : Function.Injective triple := by
  rintro ⟨x, y, z⟩ ⟨x', y', z'⟩ h
  simpa [triple] using h

theorem triple_add (p q : ProjectivePoint) :
    (p.add q).triple =
      ShortWeierstrass.add P256.coefficientA P256.coefficientB p.triple
        q.triple := by
  have hb : p256B = P256.coefficientB := rfl
  simp only [triple, add, ShortWeierstrass.add, hb, P256.coefficientA,
    Triple.mk.injEq]
  generalize P256.coefficientB = b
  refine ⟨?_, ?_, ?_⟩ <;> ring

theorem triple_double (p : ProjectivePoint) :
    p.double.triple =
      ShortWeierstrass.double P256.coefficientA P256.coefficientB
        p.triple := by
  have hb : p256B = P256.coefficientB := rfl
  simp only [triple, double, ShortWeierstrass.double, hb, P256.coefficientA,
    Triple.mk.injEq]
  generalize P256.coefficientB = b
  refine ⟨?_, ?_, ?_⟩ <;> ring

theorem addAffine_eq_add (p : ProjectivePoint) (x y : FieldP256) :
    p.addAffine (.new x y) = p.add ⟨x, y, 1⟩ := by
  simp only [addAffine, add, AffinePoint.new, ProjectivePoint.mk.injEq]
  generalize p256B = b
  refine ⟨?_, ?_, ?_⟩ <;> ring

/-- The same coordinates for the other implementation. -/
def toP3 (p : ProjectivePoint) : Nymauth.Ecdsa.P3 := ⟨p.x, p.y, p.z⟩

theorem toP3_add (p q : ProjectivePoint) :
    (p.add q).toP3 = Nymauth.Ecdsa.add Nymauth.Ecdsa.p256 p.toP3 q.toP3 := by
  apply Nymauth.Ecdsa.P3.triple_injective
  rw [Nymauth.Ecdsa.triple_add]
  exact triple_add p q

theorem toP3_double (p : ProjectivePoint) :
    p.double.toP3 = Nymauth.Ecdsa.dbl Nymauth.Ecdsa.p256 p.toP3 := by
  apply Nymauth.Ecdsa.P3.triple_injective
  rw [Nymauth.Ecdsa.triple_dbl]
  exact triple_double p

/-- The coordinates satisfy the homogeneous equation of the curve, and are not
all zero. -/
def IsPoint (p : ProjectivePoint) : Prop :=
  p.y ^ 2 * p.z = p.x ^ 3 - 3 * p.x * p.z ^ 2 + p256B * p.z ^ 3 ∧
    p ≠ ⟨0, 0, 0⟩

theorem IsPoint.exists_represents {p : ProjectivePoint} (h : p.IsPoint) :
    ∃ P : P256.Point, Represents p.triple P := by
  refine P256.rootless.exists_represents ?_ fun hzero => h.2 ?_
  · have hb : p256B = P256.coefficientB := rfl
    rw [OnCurve, P256.coefficientA, ← hb]
    simp only [triple]
    rw [h.1]
    ring
  · exact triple_injective hzero

/-- The two implementations compute the same coordinates, and on all points of
the curve these are the coordinates of the sums in its group. -/
theorem add_agrees :
    (∀ p q : ProjectivePoint,
      (p.add q).toP3 =
          Nymauth.Ecdsa.add Nymauth.Ecdsa.p256 p.toP3 q.toP3 ∧
        p.double.toP3 = Nymauth.Ecdsa.dbl Nymauth.Ecdsa.p256 p.toP3) ∧
    (∀ (p : ProjectivePoint) (x y : FieldP256),
      p.addAffine (.new x y) = p.add ⟨x, y, 1⟩) ∧
    ∀ p q : ProjectivePoint, p.IsPoint → q.IsPoint →
      ∃ P Q : P256.Point,
        Represents p.triple P ∧ Represents q.triple Q ∧
        Represents (p.add q).triple (P + Q) ∧
        Represents p.double.triple (P + P) ∧
        ∃ c, c ≠ 0 ∧ p.double.triple = (p.add p).triple.scale c := by
  refine ⟨fun p q => ⟨toP3_add p q, toP3_double p⟩, addAffine_eq_add,
    fun p q hp hq => ?_⟩
  obtain ⟨P, hP⟩ := hp.exists_represents
  obtain ⟨Q, hQ⟩ := hq.exists_represents
  have hadd := P256.rootless.represents_add hP hQ
  have hself := P256.rootless.represents_add hP hP
  have hdouble := P256.rootless.represents_double hP
  rw [← triple_add] at hadd hself
  rw [← triple_double] at hdouble
  exact ⟨P, Q, hP, hQ, hadd, hdouble, hself.exists_scale hdouble⟩

end ProjectivePoint

end Longfellow.MdocZk
