/-
The fields of the proofs extend rows by interpolation: prime fields at the
integers, the binary field at the elements of its subfield.
-/
import Longfellow.Fields.Field2128.Interpolate
import Longfellow.Fields.PrimeExtension

namespace Longfellow

open ExtendP (nextPowerOfTwo integersNonzero_of_charP)
open Exec ReedSolomon

/-- Rows of up to `limit` columns are extended by interpolation. -/
def InterpolatesUpTo {F : Type} [Field F] [ExtendFieldElement F]
    (point : Nat → F) (limit : Nat) : Prop :=
  ∀ n m, 0 < n → n < m → m ≤ limit →
    Returns (extendPrecompute n m) (Interpolates point n m)

theorem nextPowerOfTwo_le {m k : Nat} (hm : m ≤ 2 ^ k) :
    nextPowerOfTwo m ≤ 2 ^ k :=
  Nat.pow_le_pow_right Nat.two_pos (Nat.clog_le_of_le_pow hm)

theorem interpolatesUpTo_p128 :
    InterpolatesUpTo (F := FieldP128) Nat.cast (2 ^ 31) := by
  intro n m hn hnm hm
  have hsize := nextPowerOfTwo_le hm
  obtain ⟨d, rfl⟩ := Nat.exists_eq_succ_of_ne_zero (Nat.pos_iff_ne_zero.mp hn)
  have hne : IntegersNonzero FieldP128 (max (m + 1) (nextPowerOfTwo m)) :=
    integersNonzero_of_charP (p := modulusP128)
      ((Nat.max_le.mpr ⟨Nat.succ_le_succ hm, hsize.trans (Nat.le_succ _)⟩).trans
        (by decide : 2 ^ 31 + 1 ≤ modulusP128))
  exact ⟨_, ExtendP.extendPrecompute_eq hnm hsize hne,
    ExtendP.interpolates_p128 hnm hsize⟩

theorem interpolatesUpTo_p256 :
    InterpolatesUpTo (F := FieldP256) Nat.cast (2 ^ 31) := by
  intro n m hn hnm hm
  have hsize := nextPowerOfTwo_le hm
  have hlimit : max (m + 1) (nextPowerOfTwo m) ≤ modulusP256 :=
    (Nat.max_le.mpr ⟨Nat.succ_le_succ hm, hsize.trans (Nat.le_succ _)⟩).trans
      (by decide : 2 ^ 31 + 1 ≤ modulusP256)
  have hm' : m ≤ modulusP256 :=
    (Nat.le_succ m).trans ((Nat.le_max_left _ _).trans hlimit)
  obtain ⟨context, hcontext, hextend⟩ := ExtendP.interpolates_extension hn hnm
    hsize (ExtendP.integersNonzero_p256_2 hlimit)
  refine ⟨context, hcontext,
    (integersNonzero_of_charP (p := modulusP256) hm').injOn,
    fun nodes hlength => ?_⟩
  have hextended := hextend (nodes.map QuadraticExtension.ofReal)
    (by rwa [List.length_map])
  rw [ExtendP.extension_ofReal hm' hlength hnm.le] at hextended
  have hrun : extend nodes context =
      ExtendP.extend (nodes.map QuadraticExtension.ofReal) context >>=
        fun extended => pure (extended.map fun elem => elem.real) := rfl
  have hreal : ((extension Nat.cast nodes m).map
      (QuadraticExtension.ofReal : FieldP256 →+* FieldP256_2)).map
        (fun elem => elem.real) = extension Nat.cast nodes m := by
    rw [List.map_map]
    exact List.map_id' _
  rw [hrun, hextended, ok_bind, hreal]
  rfl

open AdditiveFft Field2_128 in
theorem interpolatesUpTo_field2_128 :
    InterpolatesUpTo (fun i => inject (UInt16.ofNat i)) (2 ^ 16) := by
  intro n m _ hnm hm
  have hpoint : Set.InjOn (fun i => inject (UInt16.ofNat i)) (Set.Iio m) := by
    intro i hi j hj heq
    have hi : i < 2 ^ 16 := Nat.lt_of_lt_of_le hi hm
    have hj : j < 2 ^ 16 := Nat.lt_of_lt_of_le hj hm
    simp only [inject_ofNat hi, inject_ofNat hj] at heq
    exact bitSum_injOn independent_basisAt hi hj heq
  refine ⟨⟨n, m⟩, rfl, hpoint, ?_⟩
  rintro nodes rfl
  obtain ⟨_, hinterpolate, rfl⟩ := interpolate_returns hnm.le hm
  have hpower : Nat.clog 2 nodes.length ≤ 16 :=
    Nat.clog_le_of_le_pow (hnm.le.trans hm)
  have hinterpolant : novel basisAt (Nat.clog 2 nodes.length)
      (coefficientsOf nodes) =
        interpolant (fun i => inject (UInt16.ofNat i)) nodes := by
    apply eq_interpolant hpoint hnm.le
    · apply degree_novel_lt (Nat.le_pow_clog Nat.one_lt_two nodes.length)
      intro j hj _
      rw [coefficientsOf, found, if_neg (Nat.not_lt.mpr hj),
        List.getD_eq_default _ _ hj]
    · intro i hi
      rw [inject_ofNat (by omega), ← valueOf,
        valueOf_coefficientsOf hpower
          (hi.trans_le (Nat.le_pow_clog Nat.one_lt_two _)), if_pos hi,
        List.getD_eq_getElem _ _ hi]
  have hrun : extend nodes (⟨nodes.length, m⟩ :
      Longfellow.ExtendContext Field2_128) = interpolate nodes m := by
    change (do
      assert (nodes.length = nodes.length) _
      interpolate nodes m) = _
    rw [assert_of rfl, ok_bind]
  rw [hrun, hinterpolate, extension, ← hinterpolant]
  apply congrArg Except.ok
  apply List.map_congr_left
  intro i hi
  rw [inject_ofNat ((List.mem_range.mp hi).trans_le hm)]
  rfl

end Longfellow
