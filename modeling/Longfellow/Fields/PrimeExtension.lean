/-
Reed-Solomon encoding over fields of large characteristic: the extension of
rows is interpolation at the integers, also where it goes through the quadratic
extension of the field.
-/
import Longfellow.Fields.ExtendP
import Longfellow.Fields.QuadraticExtension
import Longfellow.Ligero.Layout
import Mathlib.FieldTheory.IsAlgClosed.AlgebraicClosure
import Mathlib.GroupTheory.OrderOfElement

namespace Longfellow

open Exec Ntt Polynomial

instance : ExtendFieldElement FieldP128 where
  ExtendContext := ExtendP.ExtendContext FieldP128
  extendPrecompute := ExtendP.extendPrecompute
  extend := ExtendP.extend

/-- The extension is computed in the quadratic extension field, which has the
roots of unity that the base field lacks. -/
instance : ExtendFieldElement FieldP256 where
  ExtendContext := ExtendP.ExtendContext FieldP256_2
  extendPrecompute := ExtendP.extendPrecompute
  extend nodes context := do
    let projected : List FieldP256_2 := nodes.map fun elem => ⟨elem, 0⟩
    let extended ← ExtendP.extend projected context
    pure (extended.map fun elem => elem.real)

namespace ExtendP

open ReedSolomon

section Characteristic

variable {F : Type} [Field F]

theorem integersNonzero_of_charP {p n : Nat} [CharP F p] (hn : n ≤ p) :
    IntegersNonzero F n := by
  intro t hpos ht hzero
  have hdvd := (CharP.cast_eq_zero_iff F p t).mp hzero
  exact Nat.not_lt.mpr (Nat.le_of_dvd hpos hdvd) (ht.trans_le hn)

/-- Up to the characteristic, every element but the one at index zero is the
inverse of its index. -/
theorem batchedInversionSequence_inverts {p length : Nat} [CharP F p]
    (hlength : length ≤ p) :
    ((batchedInversionSequence length : List F).length = length) ∧
      (∀ entry, (batchedInversionSequence length)[0]? = some entry →
        entry = (0 : F)) ∧
        ∀ i, 0 < i → i < length →
          ∃ entry, (batchedInversionSequence length)[i]? = some entry ∧
            entry * ((i : Nat) : F) = 1 := by
  rcases Nat.eq_zero_or_pos length with rfl | hpos
  · refine ⟨rfl, fun entry hentry => ?_, fun i _ hi => ?_⟩
    · cases hentry
    · exact absurd hi (Nat.not_lt_zero i)
  · have hne : IntegersNonzero F length := integersNonzero_of_charP hlength
    rw [batchedInversionSequence_eq hpos hne]
    refine ⟨length_tabulate, fun entry hentry => ?_, fun i hi hlt => ?_⟩
    · rw [tabulate_getElem? hpos, Nat.cast_zero, inv_zero] at hentry
      exact (Option.some.inj hentry).symm
    · exact ⟨_, tabulate_getElem? hlt, inv_mul_cancel₀ (hne i hi hlt)⟩

theorem batchedInversionSequence_inverts_two :
    (batchedInversionSequence 2 : List (ZMod 3)).length = 2 ∧
      (∀ entry, (batchedInversionSequence 2)[0]? = some entry →
        entry = (0 : ZMod 3)) ∧
        ∀ i, 0 < i → i < 2 →
          ∃ entry, (batchedInversionSequence 2)[i]? = some entry ∧
            entry * ((i : Nat) : ZMod 3) = 1 :=
  have : Fact (Nat.Prime 3) := ⟨Nat.prime_three⟩
  batchedInversionSequence_inverts (p := 3) (by decide)

variable [NttFieldElement F] [LawfulNtt F]

theorem neg_one_ne_one : (-1 : F) ≠ 1 := by
  intro h
  have htwo : (2 : F) * half = 0 := by
    have hsum : (2 : F) = 1 - -1 := by ring
    rw [hsum, h, sub_self, zero_mul]
  rw [LawfulNtt.two_mul_half] at htwo
  exact one_ne_zero htwo

/-- The last root of the table has the order that it should have. -/
theorem orderOf_rootOfUnity : orderOf (rootOfUnity 31 : F) = 2 ^ 31 := by
  have hchain := (LawfulNtt.validRoots (F := F)).rootChain
  have hhalf : (rootOfUnity 31 : F) ^ 2 ^ 30 = -1 := hchain.half 30 (by omega)
  have : Fact (Nat.Prime 2) := ⟨Nat.prime_two⟩
  apply orderOf_eq_prime_pow
  · rw [hhalf]
    exact neg_one_ne_one
  · rw [pow_succ 2 30, pow_mul, hhalf, neg_one_sq]

/-- A prime field has more elements than there are in the longest
transform. -/
theorem two_pow_lt_card [Finite F] : 2 ^ 31 < Nat.card F := by
  have hne : (rootOfUnity 31 : F) ≠ 0 := by
    intro hzero
    have horder := orderOf_rootOfUnity (F := F)
    rw [hzero, orderOf_zero] at horder
    exact absurd horder (by norm_num)
  have hdvd : 2 ^ 31 ∣ Nat.card F - 1 := by
    rw [← orderOf_rootOfUnity (F := F), ← Nat.card_units,
      ← Units.val_mk0 hne, orderOf_units]
    exact orderOf_dvd_natCard _
  have hcard : 1 < Nat.card F := Finite.one_lt_card
  have hle := Nat.le_of_dvd (Nat.sub_pos_of_lt hcard) hdvd
  omega

end Characteristic

section Encoding

variable {F : Type} [Field F] [NttFieldElement F] [LawfulNtt F]

/-- Extension interpolates at the integers. -/
theorem interpolates_extension {n m : Nat} (hn : 0 < n) (hnm : n < m)
    (hsize : nextPowerOfTwo m ≤ 2 ^ 31)
    (hne : IntegersNonzero F (max (m + 1) (nextPowerOfTwo m))) :
    ∃ context : ExtendContext F, extendPrecompute n m = .ok context ∧
      ∀ nodes : List F, nodes.length = n →
        extend nodes context = .ok (extension Nat.cast nodes m) := by
  obtain ⟨d, rfl⟩ := Nat.exists_eq_succ_of_ne_zero (Nat.pos_iff_ne_zero.mp hn)
  refine ⟨contextOf d m, extendPrecompute_eq hnm hsize hne,
    fun nodes hlength => ?_⟩
  apply extend_contextOf hnm hsize _ hlength
  exact hne.mono (Nat.le_of_succ_le (Nat.le_max_left _ _))

/-- The integers that the extension divides by are not zero in the field. -/
theorem integersNonzero_of_size {p m : Nat} [CharP F p] (hm : m < p)
    (hsize : nextPowerOfTwo m ≤ 2 ^ 31)
    (hp : Nat.card F = p ∨ nextPowerOfTwo m ≤ p) :
    IntegersNonzero F (max (m + 1) (nextPowerOfTwo m)) := by
  apply integersNonzero_of_charP (p := p)
  apply Nat.max_le.mpr
  constructor
  · exact hm
  · rcases hp with hcard | hle
    · have hpos : Nat.card F ≠ 0 := by
        rw [hcard]
        exact Nat.ne_of_gt (Nat.zero_lt_of_lt hm)
      have hfinite : Finite F := Nat.finite_of_card_ne_zero hpos
      rw [← hcard]
      exact hsize.trans two_pow_lt_card.le
    · exact hle

end Encoding

section P256

/-- The base field in its quadratic extension keeps integers from zero. -/
theorem integersNonzero_p256_2 {n : Nat} (hn : n ≤ modulusP256) :
    IntegersNonzero FieldP256_2 n := by
  intro t hpos ht hzero
  have hreal := congrArg QuadraticExtension.real hzero
  exact integersNonzero_of_charP (F := FieldP256) (p := modulusP256) hn t hpos
    ht hreal

/-- Interpolation commutes with embedding the base field. -/
theorem extension_ofReal {n m : Nat} (hm : m ≤ modulusP256)
    {nodes : List FieldP256} (hlength : nodes.length = n) (hle : n ≤ m) :
    extension Nat.cast (nodes.map QuadraticExtension.ofReal) m =
      (extension Nat.cast nodes m).map
        (QuadraticExtension.ofReal : FieldP256 →+* FieldP256_2) := by
  have hbase : Set.InjOn (Nat.cast : Nat → FieldP256) (Set.Iio m) :=
    (integersNonzero_of_charP (p := modulusP256) hm).injOn
  have hextension : Set.InjOn (Nat.cast : Nat → FieldP256_2) (Set.Iio m) :=
    (integersNonzero_p256_2 hm).injOn
  have hnodes : nodes.length ≤ m := by rwa [hlength]
  have hmapped : (nodes.map
      (QuadraticExtension.ofReal : FieldP256 →+* FieldP256_2)).length ≤ m := by
    rwa [List.length_map]
  have hsame : (interpolant Nat.cast nodes).map
      (QuadraticExtension.ofReal : FieldP256 →+* FieldP256_2) =
        interpolant Nat.cast (nodes.map QuadraticExtension.ofReal) := by
    apply eq_interpolant hextension hmapped
    · rw [degree_map, List.length_map]
      exact degree_interpolant_lt hbase hnodes
    · intro i hi
      rw [List.length_map] at hi
      rw [← map_natCast QuadraticExtension.ofReal i, eval_map_apply,
        eval_interpolant hbase hnodes hi, List.getElem_map]
  rw [extension, extension, List.map_map]
  apply List.map_congr_left
  intro i _
  rw [← hsame, ← map_natCast QuadraticExtension.ofReal i, eval_map_apply]
  rfl

end P256

/-- The contexts of `FieldP128` interpolate at the integers. -/
theorem interpolates_p128 {d m : Nat} (hm : d + 1 < m)
    (hsize : nextPowerOfTwo m ≤ 2 ^ 31) :
    Interpolates (F := FieldP128) Nat.cast (d + 1) m (contextOf d m) := by
  have hle : m ≤ modulusP128 := by
    have hpower : m ≤ nextPowerOfTwo m := Nat.le_pow_clog Nat.one_lt_two m
    have hlarge : 2 ^ 31 ≤ modulusP128 := by decide
    exact hpower.trans (hsize.trans hlarge)
  have hne : IntegersNonzero FieldP128 m :=
    integersNonzero_of_charP (p := modulusP128) hle
  exact ⟨hne.injOn, fun nodes hlength =>
    extend_contextOf hm hsize hne hlength⟩

section SmallCharacteristic

variable {F : Type} [Field F]

/-- When the product of the numbers is zero, so are the reciprocals. -/
theorem batchedInversionSequence_zero {n : Nat}
    (hzero : ((n.factorial : Nat) : F) = 0) :
    batchedInversionSequence (n + 1) = tabulate (n + 1) fun _ => (0 : F) := by
  have hfold (factorials : List F) (output : List F) (i : F) :
      (factorials.foldl invertStep ⟨output, 0, i⟩).output =
        List.replicate factorials.length 0 ++ output := by
    induction factorials generalizing output i with
    | nil => rfl
    | cons factorial factorials ih =>
        rw [List.foldl_cons, invertStep, zero_mul, zero_mul, ih,
          List.length_cons, List.replicate_succ', List.append_assoc]
        rfl
  have hproducts := prefixProducts_factorial (F := F) n 0
  rw [Nat.factorial_zero, Nat.zero_add, Nat.cast_one] at hproducts
  have hlast : ((1 : F) :: (List.range' 1 n).map fun t =>
      ((t.factorial : Nat) : F)).getLastD 1 = 0 := by
    have hrange : (1 : F) :: (List.range' 1 n).map (fun t =>
        ((t.factorial : Nat) : F)) =
          (List.range (n + 1)).map fun t => ((t.factorial : Nat) : F) := by
      rw [List.range_eq_range', List.range'_succ, List.map_cons,
        Nat.factorial_zero, Nat.cast_one]
    rw [hrange, List.range_succ, List.map_append, List.map_singleton,
      List.getLastD_concat, hzero]
  rw [batchedInversionSequence, if_neg (Nat.succ_ne_zero n)]
  simp only [Nat.add_sub_cancel, hproducts, hlast, inv_zero, hfold]
  simp [tabulate, List.replicate_succ]

theorem forward_zero (root : Nat → F) (k : Nat) :
    forward root k (fun _ => 0) = fun _ => 0 := by
  induction k with
  | zero => rfl
  | succ k ih =>
      have hstage : stage (2 ^ k) (forwardButterfly (root (k + 1)))
          (fun _ => (0 : F)) = fun _ => 0 := by
        funext p
        simp [stage, forwardButterfly]
      rw [forward, hstage, ih]

theorem inverse_zero (root : Nat → F) (k : Nat) :
    inverse root k (fun _ => 0) = fun _ => 0 := by
  induction k with
  | zero => rfl
  | succ k ih =>
      rw [inverse, ih]
      funext p
      simp [stage, inverseButterfly]

variable [NttFieldElement F]

/-- Without reciprocals, the convolution is zero. -/
theorem extend_zero_kernel
    (hroots : ValidRoots (rootsOfUnity : List F) rootsOfUnityInverses)
    {logN : Nat} (hlog : logN ≤ 31) {context : ExtendContext F}
    (hsize : context.nttSize = 2 ^ logN)
    (hkernel : context.transformedConvolutionKernel =
      tabulate (2 ^ logN) fun _ => 0)
    {nodes : List F} (hnodes : nodes.length = context.nodesLen)
    (hlt : nodes.length < context.evaluations)
    (hle : context.evaluations ≤ 2 ^ logN) :
    extend nodes context = .ok (nodes ++ List.zipWith (· * ·)
      ((tabulate context.evaluations fun _ => 0).drop nodes.length)
      context.afterConvolutionCoeffs) := by
  set scaled := List.zipWith (· * ·) nodes context.beforeConvolutionCoeffs
    with hscaled
  have hresize : resize scaled (2 ^ logN) =
      tabulate (2 ^ logN) fun p => scaled.getD p 0 := by
    apply resize_eq_tabulate
    rw [hscaled, List.length_zipWith]
    omega
  have hproduct (v : Nat → F) : mulElements (tabulate (2 ^ logN) v)
      (tabulate (2 ^ logN) fun _ => 0) = tabulate (2 ^ logN) fun _ => 0 := by
    rw [mulElements_tabulate]
    apply tabulate_congr
    intro p _
    exact mul_zero (v p)
  have hslice : sliceTo (tabulate (2 ^ logN) fun _ => (0 : F))
      context.evaluations = .ok (tabulate context.evaluations fun _ => 0) := by
    rw [sliceTo, assert_of (by rwa [length_tabulate]), ok_bind,
      tabulate_take hle]
    rfl
  rw [extend, assert_of hnodes, ok_bind, if_neg (Nat.not_le.mpr hlt)]
  simp only [← hscaled, hsize, hresize, hkernel, hproduct, hslice, ok_bind,
    nttBitReversed_tabulate hroots hlog, pure_eq_ok, inverse_zero,
    scaledInverseNttBitReversed_tabulate hroots hlog]

/-- The context for extending one node, when a number below the size of the
transform is zero in the field. -/
theorem extendPrecompute_zero
    (hroots : ValidRoots (rootsOfUnity : List F) rootsOfUnityInverses)
    {m logN : Nat} (hlog : logN ≤ 31) (hsize : nextPowerOfTwo m = 2 ^ logN)
    (hm : m < 2 ^ logN) (hzero : (((2 ^ logN - 1).factorial : Nat) : F) = 0) :
    ∃ context : ExtendContext F, extendPrecompute 1 m = .ok context ∧
      context.nodesLen = 1 ∧ context.evaluations = m ∧
      context.nttSize = 2 ^ logN ∧
      context.transformedConvolutionKernel =
        tabulate (2 ^ logN) fun _ => 0 := by
  have hreciprocals : batchedInversionSequence (max (m + 1) (2 ^ logN)) =
      tabulate (2 ^ logN) fun _ => (0 : F) := by
    have hlength : 2 ^ logN - 1 + 1 = 2 ^ logN :=
      Nat.sub_add_cancel (Nat.two_pow_pos logN)
    have h := batchedInversionSequence_zero hzero
    rw [hlength] at h
    rwa [Nat.max_eq_right hm]
  have hslice : sliceTo (tabulate (2 ^ logN) fun _ => (0 : F)) (2 ^ logN) =
      .ok (tabulate (2 ^ logN) fun _ => 0) := by
    rw [sliceTo, assert_of (by rw [length_tabulate]), ok_bind,
      tabulate_take le_rfl]
    rfl
  have hmap (c : F) : (tabulate (2 ^ logN) fun _ => (0 : F)).map
      (fun elem => elem * c) = tabulate (2 ^ logN) fun _ => 0 := by
    rw [tabulate, List.map_map]
    apply List.map_congr_left
    intro p _
    exact zero_mul c
  have hafter := Returns.foldlM
    (f := pushAfterCoeff (tabulate (2 ^ logN) fun _ => (0 : F)) 0)
    (I := fun _ _ => True) (List.range' 1 (m - 1)) (s := ([], 1)) trivial
    (by
      intro i hi state _
      rw [List.length_range'] at hi
      rw [List.getElem_range', Nat.one_mul]
      have hbound : 1 + i - 0 < 2 ^ logN := by omega
      rw [pushAfterCoeff, index_tabulate hbound]
      exact Returns.of_eq rfl trivial)
  obtain ⟨⟨coeffs, binomial⟩, hcoeffs, -⟩ := hafter
  have hd : checkedSub 1 1 = .ok 0 := rfl
  rw [extendPrecompute]
  simp only [hsize, hreciprocals, hslice, ok_bind, hmap,
    nttBitReversed_tabulate hroots hlog, forward_zero, hd, hcoeffs]
  exact ⟨_, rfl, rfl, rfl, rfl, rfl⟩

end SmallCharacteristic

end ExtendP

end Longfellow
