/-
Reed-Solomon encoding over the field with `2^128` elements: the extension of
rows by additive Fourier transforms is interpolation at the elements of the
subfield.
-/
import Longfellow.Fields.ExtendP
import Longfellow.Fields.Field2128.Fft
import Longfellow.Ligero.Layout

namespace Longfellow.Field2_128

open AdditiveFft Exec Ntt Polynomial
open ExtendP (nextPowerOfTwo)

section Model

structure ExtendContext where
  nodesLen : Nat
  evaluations : Nat
deriving DecidableEq, Repr

/-- The array of the coefficients, the output, and the array for the factors. -/
structure InterpolateState where
  fftVec : List Field2_128
  outVec : List Field2_128
  twiddlesScratch : List Field2_128

/-- Evaluate at the points of a coset: in the output where it has room for all
of them, and else in place of the coefficients, which are not needed after the
last coset. -/
def interpolateCoset (power requestedEvaluations : Nat)
    (state : InterpolateState) (start : Nat) : Exec InterpolateState := do
  let fftSize := 2 ^ power
  if start + fftSize ≤ requestedEvaluations then do
    let coefficients ← slice state.fftVec 0 fftSize
    let outVec ← copyInto state.outVec start (fftSize + start) coefficients
    let rest ← slice outVec start outVec.length
    let (rest, twiddlesScratch) ←
      fft .forward power start rest state.twiddlesScratch
    let outVec ← copyInto outVec start outVec.length rest
    pure ⟨state.fftVec, outVec, twiddlesScratch⟩
  else do
    let (fftVec, twiddlesScratch) ←
      fft .forward power start state.fftVec state.twiddlesScratch
    let remaining ← checkedSub requestedEvaluations start
    let values ← slice fftVec 0 remaining
    let outVec ← copyInto state.outVec start requestedEvaluations values
    pure ⟨fftVec, outVec, twiddlesScratch⟩

/-- Interpolate a polynomial from the provided nodes, then evaluate it at the
requested number of points. -/
def interpolate (nodes : List Field2_128) (requestedEvaluations : Nat) :
    Exec (List Field2_128) := do
  let fftSize := nextPowerOfTwo nodes.length
  let power := Nat.log2 fftSize
  let fftVec ← copyInto (List.replicate fftSize 0) 0 nodes.length nodes
  let (fftVec, twiddlesScratch) ← bidirectionalFft power 0 nodes.length fftVec
    (List.replicate (fftSize / 2) 0)
  let outVec ← copyInto (List.replicate requestedEvaluations 0) 0 nodes.length
    nodes
  -- the values that have been computed in place of the coefficients that
  -- were zero
  let stop := min fftSize requestedEvaluations
  let fftVecEvals ← slice fftVec nodes.length stop
  let outVec ← copyInto outVec nodes.length stop fftVecEvals
  let fftVec ← copyInto fftVec nodes.length stop
    (List.replicate fftVecEvals.length 0)
  -- the cosets after the first one that have requested points
  let state ← (stepBy fftSize requestedEvaluations fftSize).foldlM
    (interpolateCoset power requestedEvaluations)
    ⟨fftVec, outVec, twiddlesScratch⟩
  pure state.outVec

end Model

end Longfellow.Field2_128

namespace Longfellow

open Exec

instance : ExtendFieldElement Field2_128 where
  ExtendContext := Field2_128.ExtendContext
  extendPrecompute nodesLen evaluations := pure ⟨nodesLen, evaluations⟩
  extend nodes context := do
    assert (nodes.length = context.nodesLen)
      "assertion `left == right` failed"
    Field2_128.interpolate nodes context.evaluations

end Longfellow

namespace Longfellow.Field2_128

open AdditiveFft Exec Ntt Polynomial
open ExtendP (nextPowerOfTwo)

section Cosets

variable {power m : Nat} {coefficients : Nat → Field2_128}

/-- The value of the polynomial at a point of the subfield. -/
noncomputable def valueOf (power : Nat) (coefficients : Nat → Field2_128)
    (p : Nat) : Field2_128 :=
  (novel basisAt power coefficients).eval (bitSum basisAt p)

/-- The output with the first values. -/
noncomputable def evaluatedTo (power : Nat) (coefficients : Nat → Field2_128)
    (m stop : Nat) : List Field2_128 :=
  tabulate m fun p => if p < stop then valueOf power coefficients p else 0

/-- The transform of a coset evaluates the polynomial at its points. -/
theorem forwardFft_valueOf {start u : Nat} (h : IsCoset power start)
    (hu : u < 2 ^ power) :
    forwardFft basisAt power (bitSum basisAt start) power coefficients u =
      valueOf power coefficients (start + u) := by
  rw [forwardFft_eq independent_basisAt h.power_le _ _ hu, valueAt, valueOf,
    bitSum_add_of_dvd basisAt h.dvd hu]

/-- The transform of a coset in place, with the rest of the output after
it. -/
theorem tabulate_forwardFft (coefficients : Nat → Field2_128) {start : Nat}
    (h : IsCoset power start)
    {a : Nat → Field2_128} (ha : ∀ j, a j =
      if j < 2 ^ power then coefficients j else 0) (count : Nat) :
    tabulate count
        (forwardFft basisAt power (bitSum basisAt start) power a) =
      tabulate count fun j =>
        if j < 2 ^ power then valueOf power coefficients (start + j) else 0 := by
  apply tabulate_congr
  intro j _
  by_cases hj : j < 2 ^ power
  · rw [if_pos hj, forwardFft_valueOf h hj, valueOf, valueOf]
    congr 1
    apply novel_congr
    intro k hk
    rw [ha, if_pos hk]
  · rw [if_neg hj, forwardFft_of_le le_rfl (Nat.not_lt.mp hj), ha, if_neg hj]

/-- A step of the loop evaluates at the points of the next coset, and keeps the
coefficients when there can be another one. -/
theorem interpolateCoset_returns {start : Nat}
    {twiddlesScratch : List Field2_128} (h : IsCoset power start)
    (hstart : start < m) (hscratch : 2 ^ power / 2 ≤ twiddlesScratch.length) :
    Returns (interpolateCoset power m ⟨tabulate (2 ^ power) coefficients,
        evaluatedTo power coefficients m start, twiddlesScratch⟩ start)
      fun state =>
        state.outVec = evaluatedTo power coefficients m (start + 2 ^ power) ∧
          state.twiddlesScratch.length = twiddlesScratch.length ∧
          (start + 2 ^ power ≤ m →
            state.fftVec = tabulate (2 ^ power) coefficients) := by
  have hpos := Nat.two_pow_pos power
  by_cases hfits : start + 2 ^ power ≤ m
  · have hslice := slice_tabulate (v := coefficients)
      (Nat.zero_le (2 ^ power)) le_rfl
    have hcopy := copyInto_tabulate (N := m)
      (v := fun p => if p < start then valueOf power coefficients p else 0)
      (w := coefficients) (Nat.le_add_left start (2 ^ power))
      (show 2 ^ power + start ≤ m by omega) (Nat.add_sub_cancel ..).symm
    simp only [Nat.sub_zero, Nat.zero_add] at hslice
    simp only [interpolateCoset, if_pos hfits, evaluatedTo, hslice, ok_bind,
      hcopy, length_tabulate, slice_tabulate hstart.le le_rfl]
    refine (fft_forward h (by omega) hscratch _).bind ?_
    rintro ⟨rest, scratch⟩ ⟨hrest, hlength⟩
    simp only at hrest hlength
    rw [tabulate_forwardFft coefficients h] at hrest
    · subst hrest
      simp only [copyInto_tabulate hstart.le le_rfl rfl, ok_bind]
      refine ⟨_, rfl, ?_, hlength, fun _ => rfl⟩
      apply tabulate_congr
      intro p hp
      by_cases hbefore : p < start
      · rw [if_neg (by omega), if_neg (by omega), if_pos hbefore,
          if_pos (by omega)]
      · have hadd : start + (p - start) = p := by omega
        rw [if_pos ⟨Nat.not_lt.mp hbefore, hp⟩, hadd]
        by_cases hend : p < start + 2 ^ power
        · rw [if_pos hend, if_pos (by omega)]
        · rw [if_neg hend, if_neg (by omega)]
    · intro j
      by_cases hj : j < 2 ^ power
      · rw [if_pos (by omega), if_pos hj, Nat.add_sub_cancel_left]
      · rw [if_neg (by omega), if_neg (by omega), if_neg hj]
  · have hremaining : m - start ≤ 2 ^ power := by omega
    simp only [interpolateCoset, if_neg hfits, evaluatedTo]
    refine (fft_forward h le_rfl hscratch coefficients).bind ?_
    rintro ⟨fftVec, scratch⟩ ⟨hvalues, hlength⟩
    simp only at hvalues hlength
    subst hvalues
    have hslice := slice_tabulate (v := forwardFft basisAt power
      (bitSum basisAt start) power coefficients) (Nat.zero_le _) hremaining
    simp only [Nat.sub_zero, Nat.zero_add] at hslice
    simp only [checkedSub_of_le hstart.le, ok_bind, hslice,
      copyInto_tabulate hstart.le le_rfl rfl]
    refine ⟨_, rfl, ?_, hlength, fun hfits' => absurd hfits' hfits⟩
    apply tabulate_congr
    intro p hp
    by_cases hbefore : p < start
    · rw [if_neg (by omega), if_pos hbefore, if_pos (by omega)]
    · have hadd : start + (p - start) = p := by omega
      rw [if_pos ⟨Nat.not_lt.mp hbefore, hp⟩, if_pos (by omega),
        forwardFft_valueOf h (by omega), hadd]

theorem IsCoset.of_lt {start : Nat} (hpower : power ≤ 16)
    (hdvd : 2 ^ power ∣ start) (hstart : start < 2 ^ 16) :
    IsCoset power start := by
  refine ⟨hdvd, ?_⟩
  obtain ⟨c, rfl⟩ := hdvd
  obtain ⟨d, hd⟩ : 2 ^ power ∣ 2 ^ 16 := pow_dvd_pow 2 hpower
  rw [hd] at hstart ⊢
  rw [← Nat.mul_succ]
  exact Nat.mul_le_mul_left _ (Nat.lt_of_mul_lt_mul_left hstart)

/-- The loop over the cosets after the first one. -/
theorem cosets_return {initial : InterpolateState} (hpower : power ≤ 16)
    (hm : m ≤ 2 ^ 16)
    (hscratch : 2 ^ power / 2 ≤ initial.twiddlesScratch.length)
    (hout : initial.outVec = evaluatedTo power coefficients m (2 ^ power))
    (hfft : 2 ^ power ≤ m →
      initial.fftVec = tabulate (2 ^ power) coefficients) :
    Returns ((stepBy (2 ^ power) m (2 ^ power)).foldlM
        (interpolateCoset power m) initial)
      fun state => state.outVec = tabulate m (valueOf power coefficients) := by
  have hpos := Nat.two_pow_pos power
  set count := (m - 2 ^ power + 2 ^ power - 1) / 2 ^ power with hcount
  have hloop := Returns.foldlM (f := interpolateCoset power m)
    (I := fun k state =>
      state.outVec = evaluatedTo power coefficients m ((k + 1) * 2 ^ power) ∧
        2 ^ power / 2 ≤ state.twiddlesScratch.length ∧
        ((k + 1) * 2 ^ power ≤ m →
          state.fftVec = tabulate (2 ^ power) coefficients))
    (stepBy (2 ^ power) m (2 ^ power)) (s := initial)
    (by
      rw [Nat.zero_add, Nat.one_mul]
      exact ⟨hout, hscratch, hfft⟩)
    (by
      rintro k hk ⟨fftVec, outVec, scratch⟩ ⟨rfl, hlength, hkeep⟩
      have hk : k < count := by simpa [stepBy] using hk
      have hstart : (k + 1) * 2 ^ power < m := by
        have hle := (Nat.le_div_iff_mul_le hpos).mp (Nat.succ_le_of_lt hk)
        rw [Nat.succ_mul] at hle ⊢
        by_cases hfits : 2 ^ power ≤ m
        · omega
        · have hzero : k * 2 ^ power + 2 ^ power ≤ 2 ^ power - 1 := by omega
          omega
      have helement : (stepBy (2 ^ power) m (2 ^ power))[k] =
          (k + 1) * 2 ^ power := by
        simp only [stepBy, List.getElem_map, List.getElem_range]
        rw [Nat.succ_mul, Nat.add_comm]
      have hnext : (k + 1 + 1) * 2 ^ power =
          (k + 1) * 2 ^ power + 2 ^ power := Nat.succ_mul _ _
      obtain rfl := hkeep hstart.le
      rw [helement, hnext]
      refine (interpolateCoset_returns
        (IsCoset.of_lt hpower (Nat.dvd_mul_left _ _) (hstart.trans_le hm))
        hstart hlength).mono ?_
      rintro state ⟨hvalues, hsame, hagain⟩
      exact ⟨hvalues, hsame ▸ hlength, hagain⟩)
  refine hloop.mono ?_
  rintro state ⟨hvalues, -, -⟩
  rw [hvalues]
  apply tabulate_congr
  intro p hp
  have hlength : (stepBy (2 ^ power) m (2 ^ power)).length = count := by
    simp [stepBy, hcount]
  have hlast := Nat.lt_mul_div_succ (m - 2 ^ power + 2 ^ power - 1) hpos
  rw [← hcount, Nat.mul_comm] at hlast
  rw [hlength, if_pos (by omega)]

end Cosets

section Encoding

variable {n m : Nat}

theorem replicate_zero (count : Nat) :
    List.replicate count 0 = tabulate count fun _ => (0 : Field2_128) := by
  rw [tabulate, List.map_const', List.length_range]

/-- The first values of an array of zeros, overwritten by those of a list. -/
theorem copyInto_zeros {nodes : List Field2_128} {count : Nat}
    (hcount : nodes.length ≤ count) :
    copyInto (List.replicate count 0) 0 nodes.length nodes =
      .ok (tabulate count fun p => nodes.getD p 0) := by
  have hcopy := copyInto_tabulate (v := fun _ => 0)
    (w := fun p => nodes.getD p 0) (Nat.zero_le nodes.length) hcount
    (Nat.sub_zero _).symm
  rw [tabulate_getD] at hcopy
  rw [replicate_zero, hcopy]
  congr 1
  apply tabulate_congr
  intro p _
  by_cases hp : p < nodes.length
  · rw [if_pos ⟨Nat.zero_le p, hp⟩, Nat.sub_zero]
  · rw [if_neg (by omega), List.getD_eq_default _ _ (Nat.not_lt.mp hp)]

/-- The coefficients that the bidirectional transform finds. -/
noncomputable def coefficientsOf (nodes : List Field2_128) (p : Nat) :
    Field2_128 :=
  found basisAt (Nat.clog 2 nodes.length) 0 nodes.length
    (fun p => nodes.getD p 0) p

/-- The first values are the nodes, and then those that the bidirectional
transform computes. -/
theorem valueOf_coefficientsOf {nodes : List Field2_128} {p : Nat}
    (hpower : Nat.clog 2 nodes.length ≤ 16)
    (hp : p < 2 ^ Nat.clog 2 nodes.length) :
    valueOf (Nat.clog 2 nodes.length) (coefficientsOf nodes) p =
      if p < nodes.length then nodes.getD p 0
      else AdditiveFft.bidirectionalFft basisAt (Nat.clog 2 nodes.length) 0
        nodes.length (fun p => nodes.getD p 0) p := by
  have hfound := valueAt_found independent_basisAt hpower
    (Nat.le_pow_clog Nat.one_lt_two nodes.length) 0
    (fun p => nodes.getD p 0) hp
  rw [valueAt, zero_add] at hfound
  exact hfound

/-- Interpolation evaluates the polynomial with the coefficients that the
bidirectional transform finds. -/
theorem interpolate_returns {nodes : List Field2_128}
    (hn : nodes.length ≤ m) (hm : m ≤ 2 ^ 16) :
    Returns (interpolate nodes m) fun values => values =
      tabulate m (valueOf (Nat.clog 2 nodes.length) (coefficientsOf nodes)) := by
  set power := Nat.clog 2 nodes.length with hpowerDef
  have hsize : nextPowerOfTwo nodes.length = 2 ^ power := rfl
  have hle : nodes.length ≤ 2 ^ power := Nat.le_pow_clog Nat.one_lt_two _
  have hpower : power ≤ 16 :=
    Nat.clog_le_of_le_pow (hn.trans hm)
  have hcoset : IsCoset power 0 :=
    IsCoset.of_lt hpower (Nat.dvd_zero _) (Nat.two_pow_pos 16)
  simp only [interpolate, hsize, Nat.log2_two_pow, copyInto_zeros hle, ok_bind]
  refine (bidirectionalFft_returns hcoset hle (by simp) _).bind ?_
  rintro ⟨fftVec, scratch⟩ ⟨hfft, hscratch⟩
  simp only at hfft hscratch
  subst hfft
  have hstart : nodes.length ≤ min (2 ^ power) m := le_min hle hn
  have hslice {v : Nat → Field2_128} := slice_tabulate (v := v) hstart
    (min_le_left (2 ^ power) m)
  simp only [copyInto_zeros hn, hslice, ok_bind, length_tabulate]
  simp only [replicate_zero, ok_bind, bitSum_zero,
    copyInto_tabulate hstart (min_le_left (2 ^ power) m) rfl,
    copyInto_tabulate hstart (min_le_right (2 ^ power) m) rfl]
  refine (@cosets_return power m (coefficientsOf nodes) _ hpower hm
    ?_ ?_ ?_).bind ?_
  · rw [hscratch, List.length_replicate]
  · apply tabulate_congr
    intro p hp
    by_cases hlow : p < nodes.length
    · have hfirst : p < 2 ^ power := hlow.trans_le hle
      rw [if_neg (by omega), if_pos hfirst,
        valueOf_coefficientsOf hpower hfirst, if_pos hlow]
    · by_cases hhigh : p < 2 ^ power
      · have hadd : nodes.length + (p - nodes.length) = p := by omega
        rw [if_pos (by omega), if_pos hhigh,
          valueOf_coefficientsOf hpower hhigh, if_neg hlow, hadd]
      · rw [if_neg (by omega), if_neg hhigh,
          List.getD_eq_default _ _ (Nat.not_lt.mp hlow)]
  · intro hfits
    apply tabulate_congr
    intro p hp
    rw [coefficientsOf, found]
    by_cases hlow : p < nodes.length
    · rw [if_neg (by omega), if_pos hlow]
    · rw [if_pos (by omega), if_neg hlow,
        List.getD_eq_default _ _ (Nat.not_lt.mp hlow)]
  · intro state hvalues
    exact ⟨_, rfl, hvalues⟩

theorem inject_ofNat {i : Nat} (hi : i < 2 ^ 16) :
    inject (UInt16.ofNat i) = bitSum basisAt i := by
  rw [inject_eq_bitSum, UInt16.toNat_ofNat', Nat.mod_eq_of_lt hi]

/-- The extension of a row gives the values of the only polynomial that has the
nodes as its first values. The table that it uses has the values of the
normalized subspace polynomials of the basis of the subfield. -/
theorem extend_encodes_inject :
    (∀ i k, i < 16 → k < 16 → twiddleArrayAt i k =
      .ok ((normalized basisAt i).eval (basisAt k))) ∧
    ∀ n m : Nat, n ≤ m → m ≤ 2 ^ 16 →
      ∃ context : Longfellow.ExtendContext Field2_128,
        extendPrecompute n m = .ok context ∧
        ∀ nodes : List Field2_128, nodes.length = n →
          ∃ values, extend nodes context = .ok values ∧
            ReedSolomon.Encodes (fun i => inject (UInt16.ofNat i)) nodes values
              m := by
  constructor
  · intro i k hi hk
    rw [twiddleArrayAt_eq_ok hi hk, eval_normalized_basisAt hi hk]
  · intro n m hnm hm
    refine ⟨⟨n, m⟩, rfl, ?_⟩
    rintro nodes rfl
    obtain ⟨_, hinterpolate, rfl⟩ := interpolate_returns hnm hm
    have hextend : extend nodes (⟨nodes.length, m⟩ :
        Longfellow.ExtendContext Field2_128) = interpolate nodes m := by
      change (do
        assert (nodes.length = nodes.length) _
        interpolate nodes m) = _
      rw [assert_of rfl, ok_bind]
    refine ⟨_, hextend.trans hinterpolate, ?_⟩
    have hle := Nat.le_pow_clog Nat.one_lt_two nodes.length
    have hpower : Nat.clog 2 nodes.length ≤ 16 :=
      Nat.clog_le_of_le_pow (hnm.trans hm)
    have hinjective : Set.InjOn (fun i => inject (UInt16.ofNat i))
        (Set.Iio m) := by
      intro i hi j hj heq
      have hi : i < 2 ^ 16 := Nat.lt_of_lt_of_le hi hm
      have hj : j < 2 ^ 16 := Nat.lt_of_lt_of_le hj hm
      simp only [inject_ofNat hi, inject_ofNat hj] at heq
      exact bitSum_injOn independent_basisAt hi hj heq
    have hdegree : (novel basisAt (Nat.clog 2 nodes.length)
        (coefficientsOf nodes)).degree < nodes.length := by
      apply degree_novel_lt hle
      intro j hj _
      rw [coefficientsOf, found, if_neg (Nat.not_lt.mpr hj),
        List.getD_eq_default _ _ hj]
    have heval : ∀ i (hi : i < nodes.length),
        (novel basisAt (Nat.clog 2 nodes.length) (coefficientsOf nodes)).eval
          (inject (UInt16.ofNat i)) = nodes[i] := by
      intro i hi
      rw [inject_ofNat (by omega), ← valueOf,
        valueOf_coefficientsOf hpower (by omega), if_pos hi,
        List.getD_eq_getElem _ _ hi]
    refine ⟨_, ⟨hdegree, heval⟩, ?_, ?_⟩
    · rintro q ⟨hdegree', heval'⟩
      rw [ReedSolomon.eq_interpolant hinjective hnm hdegree' heval',
        ← ReedSolomon.eq_interpolant hinjective hnm hdegree heval]
    · apply tabulate_congr
      intro i hi
      simp only [valueOf, inject_ofNat (hi.trans_le hm)]

theorem extend_encodes_inject_three :
    ∃ context : Longfellow.ExtendContext Field2_128,
      extendPrecompute 3 5 = .ok context ∧
      ∀ nodes : List Field2_128, nodes.length = 3 →
        ∃ values, extend nodes context = .ok values ∧
          ReedSolomon.Encodes (fun i => inject (UInt16.ofNat i)) nodes values
            5 :=
  extend_encodes_inject.2 3 5 (by decide) (by decide)

end Encoding

end Longfellow.Field2_128
