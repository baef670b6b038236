/-
The P-256 elliptic curve: its coefficients and generator, and that its points
are a group of prime order.
-/
import Longfellow.Fields.FieldP256
import Longfellow.Lib.CubicRoots
import Longfellow.Lib.ShortWeierstrass

namespace Longfellow

namespace P256

open Primality ShortWeierstrass

open scoped Numerals

/-- The order of the group. -/
def order : Nat :=
  0xffffffff00000000ffffffffffffffffbce6faada7179e84f3b9cac2fc632551

/-- The coefficient of `x` is `-3`. -/
def coefficientA : FieldP256 := -3

def coefficientB : FieldP256 :=
  (0x5ac635d8aa3a93e7b3ebbd55769886bc651d06b0cc53b0f63bce3c3e27d2604b : Nat)

def generatorX : FieldP256 :=
  (0x6b17d1f2e12c4247f8bce6e563a440f277037d812deb33a0f4a13945d898c296 : Nat)

def generatorY : FieldP256 :=
  (0x4fe342e2fe1a7f9b8ee7eb4a7c0f9e162bce33576b315ececbb6406837bf51f5 : Nat)

section Order

/-- The certificates of the order and of the larger primes that they name. -/
theorem certificates_order :
    Certificate 311245691 29 2
      [(2, 1), (5, 1), (7, 1), (17, 1), (29, 2), (311, 1)] ∧
    Certificate 622491383 30 5 [(2, 1), (311245691, 1)] ∧
    Certificate 1002328039319 40 19
      [(2, 1), (126241, 1), (3969899, 1)] ∧
    Certificate 208150935158385979 58 2
      [(2, 1), (3, 1), (11, 1), (43, 1), (127, 1), (3023, 1),
        (191039911, 1)] ∧
    Certificate 2624747550333869278416773953 92 7
      [(2, 6), (3, 2), (1297, 1), (16879, 1), (208150935158385979, 1)] ∧
    Certificate order 256 7
      [(2, 4), (3, 1), (71, 1), (131, 1), (373, 1), (3407, 1), (17449, 1),
        (38189, 1), (187019741, 1), (622491383, 1), (1002328039319, 1),
        (2624747550333869278416773953, 1)] := by
  decide +kernel

theorem prime_order : order.Prime := by
  obtain ⟨h29, h30, h40, h58, h92, h256⟩ := certificates_order
  have prime29 : Nat.Prime 311245691 := by
    apply h29.prime
    simp only [List.forall_mem_cons]
    norm_num
  have prime30 : Nat.Prime 622491383 := by
    apply h30.prime
    simp only [List.forall_mem_cons, prime29]
    norm_num
  have prime40 : Nat.Prime 1002328039319 := by
    apply h40.prime
    simp only [List.forall_mem_cons]
    norm_num
  have prime58 : Nat.Prime 208150935158385979 := by
    apply h58.prime
    simp only [List.forall_mem_cons]
    norm_num
  have prime92 : Nat.Prime 2624747550333869278416773953 := by
    apply h92.prime
    simp only [List.forall_mem_cons, prime58]
    norm_num
  apply h256.prime
  simp only [List.forall_mem_cons, prime30, prime40, prime92]
  norm_num

instance : Fact order.Prime := ⟨prime_order⟩

instance : NeZero order := ⟨prime_order.ne_zero⟩

end Order

section Curve

/-- The inverse of the Frobenius power minus the variable. -/
def frobeniusInverse : CubicRoots.Residue FieldP256 :=
  ⟨(0xa969487079f1744798bf0de6fded091b66e9d328eb0645fe5d979d1339b7f47f : Nat),
    (0xa4a08891884100c13323460107a8d28eede4387fa3e6e9bfebec9f6d72d0b5cc : Nat),
    (0x4cde11cf86cb876cd59cf0115813c55af0ecd3cda667d98bb9a347a56aa74a6d :
      Nat)⟩

theorem rootless : Rootless coefficientA coefficientB where
  two_ne_zero := by decide
  ne_zero := by
    have hinverse : CubicRoots.mul coefficientA coefficientB
        (CubicRoots.frobenius coefficientA coefficientB 256 modulusP256)
        frobeniusInverse = ⟨1, 0, 0⟩ := by
      decide +kernel
    exact CubicRoots.ne_zero_of_inverse (by decide) hinverse

/-- The points of the curve. -/
abbrev Point := (curve coefficientA coefficientB).Point

theorem generator_onCurve : generatorY ^ 2 =
    generatorX ^ 3 + coefficientA * generatorX + coefficientB := by
  decide

def generator : Point :=
  rootless.point generatorX generatorY generator_onCurve

theorem generator_represents :
    Represents ⟨generatorX, generatorY, 1⟩ generator :=
  represents_normal generator

theorem generator_ne_zero : generator ≠ 0 :=
  WeierstrassCurve.Affine.Point.some_ne_zero _

theorem order_nsmul_generator : order • generator = 0 := by
  have hlt : order < 2 ^ 256 := by decide
  have hmultiple := rootless.represents_multiple generator_represents 256 hlt
  have hzero : Represents (multiple coefficientA coefficientB
      ⟨generatorX, generatorY, 1⟩ (bits 256 order)) (0 : Point) := by
    rw [represents_zero]
    decide +kernel
  exact hmultiple.unique hzero

/-- The points of the curve are a group of prime order. -/
theorem card_point : Nat.card Point = order := by
  refine rootless.card_eq prime_order order_nsmul_generator generator_ne_zero ?_
  rw [ZMod.card]
  decide

theorem order_nsmul (P : Point) : order • P = 0 := by
  rw [← card_point]
  exact card_nsmul_eq_zero'

end Curve

end P256

end Longfellow
