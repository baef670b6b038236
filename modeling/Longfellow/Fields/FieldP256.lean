/-
The codec of the field that the NIST P-256 elliptic curve is defined over.
-/
import Longfellow.Fields.FieldP128
import Longfellow.Lib.Primality

namespace Longfellow

/-- The modulus of `FieldP256`. -/
def modulusP256 : Nat :=
  0xffffffff00000001000000000000000000000000ffffffffffffffffffffffff

instance : NeZero modulusP256 := ⟨by decide⟩

/-- The field with modulus `2^256 - 2^224 + 2^192 + 2^96 - 1`. -/
abbrev FieldP256 := ZMod modulusP256

instance : CodecFieldElement FieldP256 := residueCodec modulusP256 32 256 .p256

instance : LawfulCodec FieldP256 :=
  residueCodec_lawful (by decide) (by decide)

instance : CanonicalCodec FieldP256 := residueCodec_canonical (by decide)

section Prime

open Primality

/-- The certificates of the modulus and of the larger primes that they name. -/
theorem certificates_modulusP256 :
    Certificate 34282281433 35 17
      [(2, 3), (3, 1), (7, 1), (204061199, 1)] ∧
    Certificate 66417393611 36 6
      [(2, 1), (5, 1), (53, 1), (173, 1), (197, 1), (3677, 1)] ∧
    Certificate 11290956913871 44 13
      [(2, 1), (5, 1), (17, 1), (66417393611, 1)] ∧
    Certificate 46076956964474543 56 5
      [(2, 1), (23, 1), (18169, 1), (78283, 1), (704251, 1)] ∧
    Certificate 774023187263532362759620327192479577272145303 150 3
      [(2, 1), (3, 2), (2411, 1), (34282281433, 1), (11290956913871, 1),
        (46076956964474543, 1)] ∧
    Certificate 835945042244614951780389953367877943453916927241 160 11
      [(2, 3), (3, 3), (5, 1),
        (774023187263532362759620327192479577272145303, 1)] ∧
    Certificate modulusP256 256 6
      [(2, 1), (3, 1), (5, 2), (17, 1), (257, 1), (641, 1), (1531, 1),
        (65537, 1), (490463, 1), (6700417, 1),
        (835945042244614951780389953367877943453916927241, 1)] := by
  decide +kernel

theorem prime_modulusP256 : modulusP256.Prime := by
  obtain ⟨h35, h36, h44, h56, h150, h160, h256⟩ := certificates_modulusP256
  have prime35 : Nat.Prime 34282281433 := by
    apply h35.prime
    simp only [List.forall_mem_cons]
    norm_num
  have prime36 : Nat.Prime 66417393611 := by
    apply h36.prime
    simp only [List.forall_mem_cons]
    norm_num
  have prime44 : Nat.Prime 11290956913871 := by
    apply h44.prime
    simp only [List.forall_mem_cons, prime36]
    norm_num
  have prime56 : Nat.Prime 46076956964474543 := by
    apply h56.prime
    simp only [List.forall_mem_cons]
    norm_num
  have prime150 :
      Nat.Prime 774023187263532362759620327192479577272145303 := by
    apply h150.prime
    simp only [List.forall_mem_cons, prime35, prime44, prime56]
    norm_num
  have prime160 :
      Nat.Prime 835945042244614951780389953367877943453916927241 := by
    apply h160.prime
    simp only [List.forall_mem_cons, prime150]
    norm_num
  apply h256.prime
  simp only [List.forall_mem_cons, prime160]
  norm_num

instance : Fact modulusP256.Prime := ⟨prime_modulusP256⟩

end Prime

end Longfellow
