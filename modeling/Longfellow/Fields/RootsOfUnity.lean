/-
Tables of roots of unity, and those of `FieldP128`.
-/
import Longfellow.Fields.FieldP128
import Longfellow.Fields.Ntt

namespace Longfellow

open Exec Ntt

section Table

variable {F : Type}

/-- A table that ends with the given root, in which every root is the square
of the next one. -/
def rootTable [Monoid F] (start : F) : Nat → List F
  | 0 => []
  | n + 1 => rootTable (start ^ 2) n ++ [start]

theorem length_rootTable [Monoid F] (start : F) (n : Nat) :
    (rootTable start n).length = n := by
  induction n generalizing start with
  | zero => rfl
  | succ n ih => rw [rootTable, List.length_append, ih, List.length_singleton]

theorem rootTable_getD [MonoidWithZero F] (start : F) {n i : Nat}
    (hi : i ≤ n) : (rootTable start (n + 1)).getD i 0 = start ^ 2 ^ (n - i) := by
  induction n generalizing start with
  | zero =>
      obtain rfl := Nat.le_zero.mp hi
      simp [rootTable]
  | succ n ih =>
      rw [rootTable]
      by_cases hlast : i = n + 1
      · subst hlast
        have hlength := length_rootTable (start ^ 2) (n + 1)
        rw [List.getD_append_right _ _ _ _ (by rw [hlength]), hlength]
        simp
      · have hle : i ≤ n := by omega
        have hsub : n + 1 - i = n - i + 1 := by omega
        have hlength := length_rootTable (start ^ 2) (n + 1)
        rw [List.getD_append _ _ _ _ (by omega), ih _ hle, hsub, ← pow_mul,
          ← pow_succ']

/-- The tables are valid when the last root has order `2 ^ 31`. -/
theorem validRoots_rootTable [Field F] {start inverse : F}
    (hone : start ^ 2 ^ 31 = 1) (hne : start ^ 2 ^ 30 ≠ 1)
    (hinverse : start * inverse = 1) :
    ValidRoots (rootTable start 32) (rootTable inverse 32) where
  length_roots := length_rootTable start 32
  length_inverses := length_rootTable inverse 32
  zero := by
    rw [rootTable_getD start (by omega)]
    exact hone
  one := by
    rw [rootTable_getD start (by omega)]
    exact hne
  square i hi := by
    have hsub : 31 - i = 31 - (i + 1) + 1 := by omega
    rw [rootTable_getD start (by omega), rootTable_getD start (by omega), hsub,
      pow_succ 2, pow_mul]
  inverse i hi := by
    rw [rootTable_getD start (by omega), rootTable_getD inverse (by omega),
      ← mul_pow, hinverse, one_pow]

end Table

instance : NttFieldElement FieldP128 where
  rootsOfUnity :=
    rootTable ((0x29ed6f0547ee8789f6822ae8c83252f7 : Nat) : FieldP128) 32
  rootsOfUnityInverses :=
    rootTable ((0xd4b981419591646277d25a0deb47514 : Nat) : FieldP128) 32
  half := ((0x7ffff800000000000000000000000001 : Nat) : FieldP128)

instance : LawfulNtt FieldP128 where
  validRoots := by
    apply validRoots_rootTable
    · rw [← cast_squares, ← Nat.cast_one, ZMod.natCast_eq_natCast_iff']
      decide
    · rw [← cast_squares, ← Nat.cast_one]
      intro h
      rw [ZMod.natCast_eq_natCast_iff'] at h
      revert h
      decide
    · decide
  two_mul_half := by decide

theorem nttBitReversed_transforms_four :
    ∃ transformed, nttBitReversed ([1, 2, 3, 4] : List FieldP128) =
        .ok transformed ∧ transformed.length = 2 ^ 2 ∧
      (∀ j, j < 2 ^ 2 → transformed[bitReverse 2 j]? =
        some (∑ i ∈ Finset.range (2 ^ 2),
          ([1, 2, 3, 4] : List FieldP128).getD i 0 *
            rootOfUnity 2 ^ (i * j))) ∧
      scaledInverseNttBitReversed transformed =
        .ok (([1, 2, 3, 4] : List FieldP128).map fun value =>
          (2 ^ 2 : Nat) * value) :=
  nttBitReversed_transforms LawfulNtt.validRoots (by decide) rfl

end Longfellow
