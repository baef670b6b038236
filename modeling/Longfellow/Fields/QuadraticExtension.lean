/-
The quadratic extension of a field by a root of `x ^ 2 + 1`, and that of the
field of the P-256 curve.
-/
import Longfellow.Fields.FieldP256
import Longfellow.Fields.RootsOfUnity
import Mathlib.NumberTheory.LegendreSymbol.Basic

namespace Longfellow

/-- The quadratic extension of another base field, which is `F[x] / (x^2 + 1)`. -/
@[ext]
structure QuadraticExtension (B : Type) where
  real : B
  imag : B
deriving DecidableEq, Repr

namespace QuadraticExtension

section Ring

variable {B : Type} [CommRing B]

instance : Zero (QuadraticExtension B) := ⟨⟨0, 0⟩⟩

instance : One (QuadraticExtension B) := ⟨⟨1, 0⟩⟩

instance : NatCast (QuadraticExtension B) := ⟨fun value => ⟨value, 0⟩⟩

instance : Add (QuadraticExtension B) :=
  ⟨fun x y => ⟨x.real + y.real, x.imag + y.imag⟩⟩

instance : Sub (QuadraticExtension B) :=
  ⟨fun x y => ⟨x.real - y.real, x.imag - y.imag⟩⟩

instance : Neg (QuadraticExtension B) := ⟨fun x => ⟨-x.real, -x.imag⟩⟩

/-- Karatsuba multiplication. -/
instance : Mul (QuadraticExtension B) :=
  ⟨fun x y =>
    let r1 := x.real * y.real
    let r4 := x.imag * y.imag
    let s := (x.real + x.imag) * (y.real + y.imag)
    ⟨r1 - r4, s - r1 - r4⟩⟩

@[simp] theorem zero_real : (0 : QuadraticExtension B).real = 0 := rfl

@[simp] theorem zero_imag : (0 : QuadraticExtension B).imag = 0 := rfl

@[simp] theorem one_real : (1 : QuadraticExtension B).real = 1 := rfl

@[simp] theorem one_imag : (1 : QuadraticExtension B).imag = 0 := rfl

@[simp] theorem natCast_real (n : Nat) :
    (n : QuadraticExtension B).real = n := rfl

@[simp] theorem natCast_imag (n : Nat) :
    (n : QuadraticExtension B).imag = 0 := rfl

@[simp] theorem add_real (x y : QuadraticExtension B) :
    (x + y).real = x.real + y.real := rfl

@[simp] theorem add_imag (x y : QuadraticExtension B) :
    (x + y).imag = x.imag + y.imag := rfl

@[simp] theorem sub_real (x y : QuadraticExtension B) :
    (x - y).real = x.real - y.real := rfl

@[simp] theorem sub_imag (x y : QuadraticExtension B) :
    (x - y).imag = x.imag - y.imag := rfl

@[simp] theorem neg_real (x : QuadraticExtension B) : (-x).real = -x.real := rfl

@[simp] theorem neg_imag (x : QuadraticExtension B) : (-x).imag = -x.imag := rfl

@[simp] theorem mul_real (x y : QuadraticExtension B) :
    (x * y).real = x.real * y.real - x.imag * y.imag := rfl

@[simp] theorem mul_imag (x y : QuadraticExtension B) :
    (x * y).imag = x.real * y.imag + x.imag * y.real := by
  change (x.real + x.imag) * (y.real + y.imag) - x.real * y.real -
    x.imag * y.imag = _
  ring

instance : CommRing (QuadraticExtension B) where
  add_assoc x y z := by
    ext
    · exact add_assoc _ _ _
    · exact add_assoc _ _ _
  zero_add x := by
    ext
    · exact zero_add _
    · exact zero_add _
  add_zero x := by
    ext
    · exact add_zero _
    · exact add_zero _
  add_comm x y := by
    ext
    · exact add_comm _ _
    · exact add_comm _ _
  neg_add_cancel x := by
    ext
    · exact neg_add_cancel _
    · exact neg_add_cancel _
  sub_eq_add_neg x y := by
    ext
    · exact sub_eq_add_neg _ _
    · exact sub_eq_add_neg _ _
  natCast_zero := by
    ext
    · simp
    · simp
  natCast_succ n := by
    ext
    · simp
    · simp
  left_distrib x y z := by
    ext
    · simp only [mul_real, add_real, add_imag]
      ring
    · simp only [mul_imag, add_real, add_imag]
      ring
  right_distrib x y z := by
    ext
    · simp only [mul_real, add_real, add_imag]
      ring
    · simp only [mul_imag, add_real, add_imag]
      ring
  zero_mul x := by
    ext
    · simp
    · simp
  mul_zero x := by
    ext
    · simp
    · simp
  mul_assoc x y z := by
    ext
    · simp only [mul_real, mul_imag]
      ring
    · simp only [mul_real, mul_imag]
      ring
  one_mul x := by
    ext
    · simp
    · simp
  mul_one x := by
    ext
    · simp
    · simp
  mul_comm x y := by
    ext
    · simp only [mul_real]
      ring
    · simp only [mul_imag]
      ring
  nsmul := nsmulRec
  zsmul := zsmulRec

/-- The base field in its extension. -/
def ofReal : B →+* QuadraticExtension B where
  toFun x := ⟨x, 0⟩
  map_zero' := rfl
  map_one' := rfl
  map_add' x y := by
    ext
    · rfl
    · simp
  map_mul' x y := by
    ext
    · simp
    · simp

@[simp] theorem ofReal_real (x : B) : (ofReal x).real = x := rfl

@[simp] theorem ofReal_imag (x : B) : (ofReal x).imag = 0 := rfl

/-- The square of an element, by three multiplications. -/
def square (x : QuadraticExtension B) : QuadraticExtension B :=
  let cross := x.real * x.imag
  ⟨x.real * x.real - x.imag * x.imag, cross + cross⟩

theorem square_eq (x : QuadraticExtension B) : x.square = x ^ 2 := by
  rw [pow_two]
  ext
  · rfl
  · rw [mul_imag, mul_comm x.imag]
    rfl

end Ring

section Field

variable {B : Type} [Field B]

instance : Inv (QuadraticExtension B) :=
  ⟨fun x => ⟨x.real, -x.imag⟩ *
    ⟨(x.real * x.real + x.imag * x.imag)⁻¹, 0⟩⟩

/-- The polynomial `x ^ 2 + 1` has no root in the base field. -/
class Irreducible (B : Type) [Field B] : Prop where
  sq_add_one_ne_zero : ∀ x : B, x ^ 2 + 1 ≠ 0

theorem norm_ne_zero [Irreducible B] {x : QuadraticExtension B} (hx : x ≠ 0) :
    x.real * x.real + x.imag * x.imag ≠ 0 := by
  intro hnorm
  by_cases himag : x.imag = 0
  · rw [himag, mul_zero, add_zero] at hnorm
    apply hx
    ext
    · exact mul_self_eq_zero.mp hnorm
    · exact himag
  · apply Irreducible.sq_add_one_ne_zero (x.real / x.imag)
    field_simp
    linear_combination hnorm

@[simp] theorem inv_real (x : QuadraticExtension B) :
    x⁻¹.real = x.real * (x.real * x.real + x.imag * x.imag)⁻¹ := by
  change (_ * _ : QuadraticExtension B).real = _
  simp

@[simp] theorem inv_imag (x : QuadraticExtension B) :
    x⁻¹.imag = -x.imag * (x.real * x.real + x.imag * x.imag)⁻¹ := by
  change (_ * _ : QuadraticExtension B).imag = _
  simp

instance [Irreducible B] : Field (QuadraticExtension B) where
  exists_pair_ne := ⟨0, 1, fun h => zero_ne_one (congrArg real h)⟩
  mul_inv_cancel x hx := by
    have hcancel := mul_inv_cancel₀ (norm_ne_zero hx)
    ext
    · rw [mul_real, inv_real, inv_imag, one_real]
      linear_combination hcancel
    · rw [mul_imag, inv_real, inv_imag, one_imag]
      ring
  inv_zero := by
    ext
    · simp
    · simp
  nnqsmul := _
  nnqsmul_def _ _ := rfl
  qsmul := _
  qsmul_def _ _ := rfl

end Field

end QuadraticExtension

open QuadraticExtension

/-- The quadratic extension of the P-256 base field. -/
abbrev FieldP256_2 := QuadraticExtension FieldP256

instance : Irreducible FieldP256 where
  sq_add_one_ne_zero x hx := by
    have hsquare : IsSquare (-1 : FieldP256) := by
      refine ⟨x, ?_⟩
      linear_combination -hx
    exact ZMod.exists_sq_eq_neg_one_iff.mp hsquare (by decide)

/-- Square an element of the extension of a field of residues `k` times. -/
def squaresOf (m : Nat) : Nat → Nat → Nat → Nat × Nat
  | 0, real, imag => (real, imag)
  | k + 1, real, imag =>
      squaresOf m k ((real * real + (m - imag % m) * imag) % m)
        (2 * real * imag % m)

theorem cast_squaresOf (m k real imag : Nat) [NeZero m] :
    (⟨((squaresOf m k real imag).1 : Nat),
      ((squaresOf m k real imag).2 : Nat)⟩ : QuadraticExtension (ZMod m)) =
        ⟨real, imag⟩ ^ 2 ^ k := by
  induction k generalizing real imag with
  | zero => simp [squaresOf]
  | succ k ih =>
      have hle : imag % m ≤ m := (Nat.mod_lt imag (NeZero.pos m)).le
      rw [squaresOf, ih, pow_succ' 2 k, pow_mul, pow_two]
      congr 1
      ext
      · rw [mul_real, ZMod.natCast_mod, Nat.cast_add, Nat.cast_mul,
          Nat.cast_mul, Nat.cast_sub hle, ZMod.natCast_self, ZMod.natCast_mod]
        ring
      · simp only [mul_imag, ZMod.natCast_mod, Nat.cast_mul, Nat.cast_ofNat]
        ring

instance : NttFieldElement FieldP256_2 where
  rootsOfUnity := rootTable
    (⟨(0xa760ebf502b7dfc40a8b1bfd6d5af2df672b65bc2d7d2e0aa18b3667f0679b7 : Nat),
      (0xaa8c864aa8ab8e45e2932eca5f05df1313d53bb70baeb3c0fbab36f0499ff9b4 :
        Nat)⟩ : FieldP256_2) 32
  rootsOfUnityInverses := rootTable
    (⟨(0xa760ebf502b7dfc40a8b1bfd6d5af2df672b65bc2d7d2e0aa18b3667f0679b7 : Nat),
      (0x557379b4575471bb1d6cd135a0fa20ecec2ac449f4514c3f0454c90fb660064b :
        Nat)⟩ : FieldP256_2) 32
  half :=
    ⟨(0x7fffffff80000000800000000000000000000000800000000000000000000000 : Nat),
      0⟩

instance : LawfulNtt FieldP256_2 where
  validRoots := by
    apply validRoots_rootTable
    · rw [← cast_squaresOf]
      ext
      · rw [one_real, ← Nat.cast_one, ZMod.natCast_eq_natCast_iff']
        decide
      · rw [one_imag, ← Nat.cast_zero, ZMod.natCast_eq_natCast_iff']
        decide
    · rw [← cast_squaresOf]
      intro h
      have hreal := congrArg QuadraticExtension.real h
      rw [one_real, ← Nat.cast_one, ZMod.natCast_eq_natCast_iff'] at hreal
      revert hreal
      decide
    · decide
  two_mul_half := by decide

end Longfellow
