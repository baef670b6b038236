/-
The additive Fourier transforms in place: the loops over butterflies are the
layers of the transforms.
-/
import Longfellow.Fields.Field2128.Arithmetic
import Longfellow.Fields.Field2128.Extend
import Longfellow.Lib.BidirectionalFft

namespace Longfellow.Field2_128

open Exec AdditiveFft Ntt

section Model

/-- The elements of a range, which must be in bounds. -/
def slice (values : List Field2_128) (start stop : Nat) :
    Exec (List Field2_128) := do
  assert (start ≤ stop) "slice index starts after its end"
  assert (stop ≤ values.length) "range end index out of range for slice"
  pure ((values.take stop).drop start)

/-- Overwrite the elements of a range by those of another list, which must be
as long as the range. -/
def copyInto (values : List Field2_128) (start stop : Nat)
    (source : List Field2_128) : Exec (List Field2_128) := do
  let old ← slice values start stop
  assert (old.length = source.length)
    "source slice length does not match destination slice length"
  pure (values.take start ++ source ++ values.drop stop)

def fftButterflyForward (fftArray : List Field2_128) (i stride : Nat)
    (twiddle : Field2_128) : Exec (List Field2_128) := do
  let y ← index fftArray (i + stride)
  let fftArray ← update fftArray i fun x => x + twiddle * y
  let x ← index fftArray i
  update fftArray (i + stride) fun y => y + x

def fftButterflyBackward (fftArray : List Field2_128) (i stride : Nat)
    (twiddle : Field2_128) : Exec (List Field2_128) := do
  let x ← index fftArray i
  let fftArray ← update fftArray (i + stride) fun y => y - x
  let y ← index fftArray (i + stride)
  update fftArray i fun x => x - twiddle * y

def fftButterflyDiagonal (fftArray : List Field2_128) (i stride : Nat)
    (twiddle : Field2_128) : Exec (List Field2_128) := do
  let prevAtIndex ← index fftArray i
  let y ← index fftArray (i + stride)
  let fftArray ← update fftArray i fun x => x - twiddle * y
  update fftArray (i + stride) fun y => y + prevAtIndex

/-- Butterflies at a number of successive places. -/
def butterflyLoop
    (butterfly : List Field2_128 → Nat → Nat → Field2_128 →
      Exec (List Field2_128))
    (start count stride : Nat) (twiddle : Field2_128)
    (fftArray : List Field2_128) : Exec (List Field2_128) :=
  (List.range' start count).foldlM
    (fun fftArray v => butterfly fftArray v stride twiddle) fftArray

/-- Direction in which the transform operates. -/
inductive Direction where
  | forward
  | backward
deriving DecidableEq, Repr

/-- The butterfly of a direction. -/
def Direction.butterfly : Direction → List Field2_128 → Nat → Nat →
    Field2_128 → Exec (List Field2_128)
  | forward => fftButterflyForward
  | backward => fftButterflyBackward

/-- The butterflies of a layer, one block after another. -/
def fftBlocks (direction : Direction) (power stride : Nat)
    (twiddled fftArray : List Field2_128) : Exec (List Field2_128) :=
  (stepBy 0 (2 ^ power) (2 * stride)).zipIdx.foldlM
    (fun fftArray (start, i) => do
      let twiddle ← index twiddled i
      butterflyLoop direction.butterfly start stride stride twiddle fftArray)
    fftArray

/-- A layer, with the array that its twiddle factors are computed in. -/
def fftLayer (direction : Direction) (power coset : Nat)
    (state : List Field2_128 × List Field2_128) (currPower : Nat) :
    Exec (List Field2_128 × List Field2_128) := do
  let (fftArray, twiddled) := state
  -- the forward transform goes from the largest stride to the smallest
  let currPower := match direction with
    | .forward => power - currPower - 1
    | .backward => currPower
  let twiddled ← twiddles currPower power coset twiddled
  let fftArray ← fftBlocks direction power (2 ^ currPower) twiddled fftArray
  pure (fftArray, twiddled)

/-- The transform of the first `2 ^ power` elements of an array, or the inverse
of it. -/
def fft (direction : Direction) (power coset : Nat)
    (fftArray twiddlesScratch : List Field2_128) :
    Exec (List Field2_128 × List Field2_128) :=
  if power = 0 then pure (fftArray, twiddlesScratch)
  else do
    let twiddled ← slice twiddlesScratch 0 (2 ^ (power - 1))
    let (fftArray, twiddled) ← (List.range power).foldlM
      (fftLayer direction power coset) (fftArray, twiddled)
    let twiddlesScratch ← copyInto twiddlesScratch 0 (2 ^ (power - 1)) twiddled
    pure (fftArray, twiddlesScratch)

/-- Interpolate and evaluate a polynomial, in place. The first `nodesCount`
elements are its values, and the elements after them its coefficients; on
return, it is the other way around. -/
def bidirectionalFft : Nat → Nat → Nat → List Field2_128 → List Field2_128 →
    Exec (List Field2_128 × List Field2_128)
  | 0, _, nodesCount, fftArray, twiddlesScratch => do
      assert (fftArray.length = 1) "length of fft_array must be 2^power"
      assert (nodesCount ≤ fftArray.length)
        "assertion failed: nodes_count <= fft_array.len()"
      pure (fftArray, twiddlesScratch)
  | power + 1, coset, nodesCount, fftArray, twiddlesScratch => do
      assert (fftArray.length = 2 ^ (power + 1))
        "length of fft_array must be 2^power"
      assert (nodesCount ≤ fftArray.length)
        "assertion failed: nodes_count <= fft_array.len()"
      let stride := 2 ^ power
      let twiddle ← twiddle power coset
      if nodesCount < stride then do
        let fftArray ← butterflyLoop fftButterflyForward nodesCount
          (stride - nodesCount) stride twiddle fftArray
        let low ← slice fftArray 0 stride
        let (low, twiddlesScratch) ←
          bidirectionalFft power coset nodesCount low twiddlesScratch
        let fftArray ← copyInto fftArray 0 stride low
        let fftArray ← butterflyLoop fftButterflyDiagonal 0 nodesCount stride
          twiddle fftArray
        let high ← slice fftArray stride fftArray.length
        let (high, twiddlesScratch) ←
          fft .forward power (coset + stride) high twiddlesScratch
        let fftArray ← copyInto fftArray stride fftArray.length high
        pure (fftArray, twiddlesScratch)
      else do
        let low ← slice fftArray 0 stride
        let (low, twiddlesScratch) ←
          fft .backward power coset low twiddlesScratch
        let fftArray ← copyInto fftArray 0 stride low
        let fftArray ← butterflyLoop fftButterflyDiagonal (nodesCount - stride)
          (stride - (nodesCount - stride)) stride twiddle fftArray
        let high ← slice fftArray stride fftArray.length
        let (high, twiddlesScratch) ← bidirectionalFft power (coset + stride)
          (nodesCount - stride) high twiddlesScratch
        let fftArray ← copyInto fftArray stride fftArray.length high
        let fftArray ← butterflyLoop fftButterflyBackward 0
          (nodesCount - stride) stride twiddle fftArray
        pure (fftArray, twiddlesScratch)

end Model

section Slices

variable {N start stop : Nat} {v w : Nat → Field2_128}

theorem update_tabulate_apply {p : Nat} (hp : p < N)
    (f : Field2_128 → Field2_128) : update (tabulate N v) p f =
      .ok (tabulate N (Function.update v p (f (v p)))) := by
  rw [← update_tabulate hp]
  have hlength : p < (tabulate N v).length := by rwa [length_tabulate]
  have hvalue : (tabulate N v)[p] = v p := by simp [tabulate]
  rw [update_of_lt hlength, update_of_lt hlength, hvalue]

theorem tabulate_append (n m : Nat) : tabulate n v ++ tabulate m w =
    tabulate (n + m) fun p => if p < n then v p else w (p - n) := by
  rw [tabulate, tabulate, tabulate, List.range_add, List.map_append,
    List.map_map]
  congr 1
  · apply List.map_congr_left
    intro p hp
    rw [if_pos (List.mem_range.mp hp)]
  · apply List.map_congr_left
    intro p _
    rw [Function.comp_apply, if_neg (by omega), Nat.add_sub_cancel_left]

theorem take_tabulate {n : Nat} (hn : n ≤ N) :
    (tabulate N v).take n = tabulate n v := by
  rw [tabulate, ← List.map_take, List.take_range, Nat.min_eq_left hn, tabulate]

theorem drop_tabulate (n : Nat) :
    (tabulate N v).drop n = tabulate (N - n) fun p => v (n + p) := by
  rw [tabulate, ← List.map_drop, List.range_eq_range', List.drop_range',
    Nat.mul_one, Nat.zero_add, List.range'_eq_map_range, List.map_map]
  rfl

theorem slice_tabulate (hstart : start ≤ stop) (hstop : stop ≤ N) :
    slice (tabulate N v) start stop =
      .ok (tabulate (stop - start) fun p => v (start + p)) := by
  have hlength : stop ≤ (tabulate N v).length := by rwa [length_tabulate]
  rw [slice, assert_of hstart, ok_bind, assert_of hlength, ok_bind,
    take_tabulate hstop, drop_tabulate]
  rfl

theorem copyInto_tabulate (hstart : start ≤ stop) (hstop : stop ≤ N)
    {count : Nat} (hcount : count = stop - start) :
    copyInto (tabulate N v) start stop (tabulate count w) =
      .ok (tabulate N fun p =>
        if start ≤ p ∧ p < stop then w (p - start) else v p) := by
  have hlengths : (tabulate (stop - start) fun p => v (start + p)).length =
      (tabulate count w).length := by
    rw [length_tabulate, length_tabulate, hcount]
  have hN : start + count + (N - stop) = N := by omega
  rw [copyInto, slice_tabulate hstart hstop, ok_bind, assert_of hlengths,
    ok_bind, take_tabulate (hstart.trans hstop), drop_tabulate,
    tabulate_append, tabulate_append, hN]
  change Except.ok _ = _
  congr 1
  apply tabulate_congr
  intro p _
  by_cases hin : start ≤ p ∧ p < stop
  · rw [if_pos hin, if_pos (by omega), if_neg (by omega)]
  · rw [if_neg hin]
    by_cases hbefore : p < start
    · rw [if_pos (by omega), if_pos hbefore]
    · have hp : stop + (p - (start + count)) = p := by omega
      rw [if_neg (by omega), hp]

end Slices

section Butterflies

/-- A butterfly in place replaces two elements by a pair computed from them. -/
def Computes
    (op : List Field2_128 → Nat → Nat → Field2_128 → Exec (List Field2_128))
    (butterfly : Field2_128 → Field2_128 → Field2_128 →
      Field2_128 × Field2_128) : Prop :=
  ∀ (N : Nat) (a : Nat → Field2_128) (p stride : Nat) (t : Field2_128),
    0 < stride → p + stride < N →
      op (tabulate N a) p stride t = .ok (tabulate N
        (AdditiveFft.butterflies stride (fun _ => butterfly t) (· = p) a))

theorem computes_forward : Computes fftButterflyForward forward := by
  intro N a p stride t hstride hN
  have hp : p < N := by omega
  have hne : p + stride ≠ p := by omega
  rw [fftButterflyForward, index_tabulate hN, ok_bind,
    update_tabulate_apply hp, ok_bind, index_tabulate hp, ok_bind,
    update_tabulate_apply hN, butterflies_single hstride,
    Function.update_self, Function.update_of_ne hne]
  rfl

theorem computes_backward : Computes fftButterflyBackward backward := by
  intro N a p stride t hstride hN
  have hp : p < N := by omega
  have hne : p ≠ p + stride := by omega
  rw [fftButterflyBackward, index_tabulate hp, ok_bind,
    update_tabulate_apply hN, ok_bind, index_tabulate hN, ok_bind,
    update_tabulate_apply hp, butterflies_single hstride,
    Function.update_self, Function.update_of_ne hne,
    Function.update_comm hne]
  rfl

theorem computes_diagonal : Computes fftButterflyDiagonal diagonal := by
  intro N a p stride t hstride hN
  have hp : p < N := by omega
  have hne : p + stride ≠ p := by omega
  rw [fftButterflyDiagonal, index_tabulate hp, ok_bind, index_tabulate hN,
    ok_bind, update_tabulate_apply hp, ok_bind, update_tabulate_apply hN,
    butterflies_single hstride, Function.update_of_ne hne]
  rfl

/-- A loop over successive places does the butterflies at these places. -/
theorem Computes.butterflyLoop
    {op : List Field2_128 → Nat → Nat → Field2_128 → Exec (List Field2_128)}
    {butterfly : Field2_128 → Field2_128 → Field2_128 →
      Field2_128 × Field2_128}
    (hop : Computes op butterfly) {N start count stride : Nat}
    (hcount : count ≤ stride) (hN : start + count + stride ≤ N)
    (a : Nat → Field2_128) (t : Field2_128) :
    butterflyLoop op start count stride t (tabulate N a) =
      .ok (tabulate N (AdditiveFft.butterflies stride (fun _ => butterfly t)
        (fun p => start ≤ p ∧ p < start + count) a)) := by
  induction count with
  | zero =>
      rw [Field2_128.butterflyLoop, List.range'_zero]
      change Except.ok _ = _
      congr 1
      apply tabulate_congr
      intro p _
      rw [butterflies_other (by omega) (by omega)]
  | succ count ih =>
      have hstride : 0 < stride := by omega
      have hall : AdditiveFft.butterflies stride (fun _ => butterfly t)
          (· = start + count) (AdditiveFft.butterflies stride
            (fun _ => butterfly t)
            (fun p => start ≤ p ∧ p < start + count) a) =
          AdditiveFft.butterflies stride (fun _ => butterfly t)
            (fun p => start ≤ p ∧ p < start + (count + 1)) a :=
        butterflies_union (fun _ _ => rfl) (fun _ _ => rfl)
          (by omega) (by omega) (by omega) a
      rw [Field2_128.butterflyLoop] at ih ⊢
      rw [List.range'_concat, List.foldlM_append,
        ih (by omega) (by omega), ok_bind, Nat.one_mul, List.foldlM_cons,
        hop _ _ _ _ _ hstride (by omega), ok_bind, hall]
      rfl

theorem Computes.butterflyLoop_zero
    {op : List Field2_128 → Nat → Nat → Field2_128 → Exec (List Field2_128)}
    {butterfly : Field2_128 → Field2_128 → Field2_128 →
      Field2_128 × Field2_128}
    (hop : Computes op butterfly) {N count stride : Nat}
    (hcount : count ≤ stride) (hN : count + stride ≤ N)
    (a : Nat → Field2_128) (t : Field2_128) :
    Field2_128.butterflyLoop op 0 count stride t (tabulate N a) =
      .ok (tabulate N (AdditiveFft.butterflies stride (fun _ => butterfly t)
        (· < count) a)) := by
  rw [hop.butterflyLoop hcount (by omega)]
  congr 2
  apply butterflies_congr
  omega

end Butterflies

section Layers

/-- The values of the normalized subspace polynomials are sums of entries of
the table. -/
theorem eval_normalized_bitSum_basisAt {i n : Nat} (hi : i < 16)
    (hn : n < 2 ^ 16) : (normalized basisAt i).eval (bitSum basisAt n) =
      bitSum (tableAt i) n := by
  rw [eval_normalized_bitSum]
  exact bitSum_congr hn fun k hk => eval_normalized_basisAt hi hk

theorem covers_of_lt {power coset : Nat} (hpower : power < 16)
    (hcoset : coset < 2 ^ 16) : Covers power 0 coset := by
  intro k hk
  have hle : 2 ^ k < 2 ^ 16 :=
    (Nat.ge_two_pow_of_testBit hk).trans_lt hcoset
  have hlt := (Nat.pow_lt_pow_iff_right Nat.one_lt_two).mp hle
  exact ⟨hpower, by omega⟩

/-- A range of points that is a coset of a span of the basis. -/
structure IsCoset (power coset : Nat) : Prop where
  dvd : 2 ^ power ∣ coset
  end_le : coset + 2 ^ power ≤ 2 ^ 16

theorem IsCoset.low {power coset : Nat} (h : IsCoset (power + 1) coset) :
    IsCoset power coset := by
  have hend := h.end_le
  rw [pow_succ] at hend
  exact ⟨(pow_dvd_pow 2 (Nat.le_succ power)).trans h.dvd, by omega⟩

theorem IsCoset.high {power coset : Nat} (h : IsCoset (power + 1) coset) :
    IsCoset power (coset + 2 ^ power) := by
  have hend := h.end_le
  rw [pow_succ] at hend
  exact ⟨Nat.dvd_add h.low.dvd dvd_rfl, by omega⟩

theorem IsCoset.power_le {power coset : Nat} (h : IsCoset power coset) :
    power ≤ 16 := by
  have hle : 2 ^ power ≤ 2 ^ 16 := (Nat.le_add_left _ _).trans h.end_le
  exact (Nat.pow_le_pow_iff_right Nat.one_lt_two).mp hle

variable {N power coset i : Nat} {twiddled : List Field2_128}

/-- The blocks of a layer are all the pairs of the layer. -/
theorem fftBlocks_eq_ok {direction : Direction}
    {butterfly : Field2_128 → Field2_128 → Field2_128 →
      Field2_128 × Field2_128}
    (hop : Computes direction.butterfly butterfly) (hi : i < power)
    (hN : 2 ^ power ≤ N) {t : Nat → Field2_128}
    (ht : ∀ q, q < 2 ^ (power - i - 1) → twiddled[q]? = some (t q))
    (a : Nat → Field2_128) :
    fftBlocks direction power (2 ^ i) twiddled (tabulate N a) =
      .ok (tabulate N (AdditiveFft.butterflies (2 ^ i)
        (fun p => butterfly (t (p / 2 ^ (i + 1)))) (LowerHalf power i) a)) := by
  have hpow : 2 ^ (i + 1) = 2 ^ i + 2 ^ i := by ring
  have hwidth : 2 * 2 ^ i = 2 ^ (i + 1) := by ring
  have htotal : 2 ^ (power - i - 1) * 2 ^ (i + 1) = 2 ^ power := by
    rw [← pow_add]
    congr 1
    omega
  have hstarts : stepBy 0 (2 ^ power) (2 * 2 ^ i) =
      (List.range (2 ^ (power - i - 1))).map fun q => q * 2 ^ (i + 1) := by
    have hcount : (2 ^ power - 0 + 2 ^ (i + 1) - 1) / 2 ^ (i + 1) =
        2 ^ (power - i - 1) := by
      rw [← htotal, Nat.sub_zero, Nat.add_sub_assoc (Nat.two_pow_pos _),
        Nat.mul_comm, Nat.mul_add_div (Nat.two_pow_pos _),
        Nat.div_eq_of_lt (by have := Nat.two_pow_pos (i + 1); omega),
        Nat.add_zero]
    rw [stepBy, hwidth, hcount]
    simp only [Nat.zero_add]
  have hloop := Returns.foldlM (f := fun fftArray (start, i') => do
      let twiddle ← index twiddled i'
      butterflyLoop direction.butterfly start (2 ^ i) (2 ^ i) twiddle fftArray)
    (I := fun k fftArray => fftArray = tabulate N
      (AdditiveFft.butterflies (2 ^ i)
        (fun p => butterfly (t (p / 2 ^ (i + 1))))
        (fun p => p < k * 2 ^ (i + 1) ∧ p % 2 ^ (i + 1) < 2 ^ i) a))
    ((List.range (2 ^ (power - i - 1))).map fun q =>
      q * 2 ^ (i + 1)).zipIdx (s := tabulate N a)
    (by
      apply tabulate_congr
      intro p _
      rw [butterflies_other (by omega) (by omega)])
    (by
      rintro k hk _ rfl
      simp only [List.length_zipIdx, List.length_map, List.length_range] at hk
      have hend : (k + 1) * 2 ^ (i + 1) ≤ 2 ^ power := by
        rw [← htotal]
        exact Nat.mul_le_mul_right _ hk
      rw [Nat.succ_mul] at hend
      simp only [List.getElem_zipIdx, List.getElem_map, List.getElem_range,
        Nat.zero_add, index_eq_ok.mpr (ht k hk), ok_bind]
      refine Returns.of_eq (hop.butterflyLoop le_rfl (by omega) _ _) ?_
      congr 1
      apply butterflies_union
      · exact fun _ _ => rfl
      · rintro p ⟨hle, hlt⟩
        obtain ⟨r, rfl⟩ := Nat.exists_eq_add_of_le hle
        rw [Nat.mul_comm k, Nat.mul_add_div (Nat.two_pow_pos _),
          Nat.div_eq_of_lt (by omega), Nat.add_zero]
      · intro p
        rw [Nat.succ_mul]
        by_cases hbefore : p < k * 2 ^ (i + 1)
        · omega
        · obtain ⟨r, rfl⟩ := Nat.exists_eq_add_of_le (Nat.not_lt.mp hbefore)
          rw [Nat.mul_comm k, Nat.mul_add_mod]
          by_cases hr : r < 2 ^ (i + 1)
          · rw [Nat.mod_eq_of_lt hr]
            omega
          · omega
      · rintro p ⟨hlt, -⟩ ⟨hle, -⟩
        omega
      · rintro p ⟨hlt, hmod⟩ ⟨-, hmod'⟩
        rw [Nat.succ_mul] at hlt
        have hlower : LowerHalf power i p := ⟨by omega, hmod⟩
        exact hlower.disjoint ⟨hlower.add_lt hi, hmod'⟩)
  rw [List.length_zipIdx, List.length_map, List.length_range, htotal] at hloop
  obtain ⟨_, hblocks, rfl⟩ := hloop
  rw [fftBlocks, hstarts]
  exact hblocks

/-- The array of factors has the factor of every block of the layer. -/
theorem twiddles_returns (h : IsCoset power coset) (hi : i < power)
    (hlength : 2 ^ (power - 1) ≤ twiddled.length) :
    Returns (twiddles i power coset twiddled) fun result =>
      result.length = twiddled.length ∧
        ∀ q, q < 2 ^ (power - i - 1) → result[q]? =
          some ((normalized basisAt i).eval (bitSum basisAt coset +
            bitSum basisAt (2 ^ (i + 1) * q))) := by
  have hi16 : i < 16 := hi.trans_le h.power_le
  have hend := h.end_le
  have htotal : 2 ^ (i + 1) * 2 ^ (power - i - 1) = 2 ^ power := by
    rw [← pow_add]
    congr 1
    omega
  have hwithin {q : Nat} (hq : q < 2 ^ (power - i - 1)) :
      2 ^ (i + 1) * q < 2 ^ power := by
    rw [← htotal]
    exact Nat.mul_lt_mul_of_pos_left hq (Nat.two_pow_pos _)
  have hcount : 2 ^ (power - i - 1) ≤ twiddled.length :=
    (Nat.pow_le_pow_right Nat.two_pos (by omega)).trans hlength
  have hfactors := (twiddles_eq_ok_iff (N := twiddled.length)
    (v := fun p => twiddled.getD p 0) hi h.dvd).mpr
    ⟨fun q hq => covers_of_lt hi16 (by
      have := hwithin hq
      rw [Nat.mul_comm q]
      omega), hcount, rfl⟩
  rw [tabulate_getD] at hfactors
  refine Returns.of_eq hfactors ⟨length_tabulate, fun q hq => ?_⟩
  have hlt := hwithin hq
  rw [tabulate_getElem? (hq.trans_le hcount), factors, if_pos hq, factor,
    ← bitSum_add_of_dvd basisAt h.dvd hlt,
    eval_normalized_bitSum_basisAt hi16 (by omega), Nat.mul_comm q]

/-- A layer in place is a layer of the transform of the coset. -/
theorem layer_returns (direction : Direction)
    {butterfly : Field2_128 → Field2_128 → Field2_128 →
      Field2_128 × Field2_128}
    (hop : Computes direction.butterfly butterfly) (h : IsCoset power coset)
    (hi : i < power) (hN : 2 ^ power ≤ N)
    (hlength : 2 ^ (power - 1) ≤ twiddled.length) (a : Nat → Field2_128) :
    Returns (do
      let twiddled ← twiddles i power coset twiddled
      let fftArray ← fftBlocks direction power (2 ^ i) twiddled (tabulate N a)
      pure (fftArray, twiddled))
      fun result => result.1 = tabulate N (AdditiveFft.butterflies (2 ^ i)
          (fun p => butterfly (twiddleAt basisAt (bitSum basisAt coset) i p))
          (LowerHalf power i) a) ∧
        result.2.length = twiddled.length := by
  obtain ⟨result, heq, hresult, ht⟩ := twiddles_returns h hi hlength
  rw [heq, ok_bind, fftBlocks_eq_ok hop hi hN ht a, ok_bind]
  exact ⟨_, rfl, rfl, hresult⟩

end Layers

section Transforms

variable {N : Nat} {twiddlesScratch : List Field2_128}

/-- The layers in place are the layers of a transform, when each of them takes
what the transform has computed so far to what it computes next. -/
theorem fft_returns (direction : Direction) (power coset : Nat)
    (state : Nat → List Field2_128 → Prop) (hpower : 0 < power)
    (hscratch : 2 ^ (power - 1) ≤ twiddlesScratch.length)
    {fftArray : List Field2_128} (h0 : state 0 fftArray)
    (hstep : ∀ k, k < power → ∀ fftArray twiddled, state k fftArray →
      2 ^ (power - 1) ≤ twiddled.length →
      Returns (fftLayer direction power coset (fftArray, twiddled) k)
        fun result => state (k + 1) result.1 ∧
          result.2.length = twiddled.length) :
    Returns (fft direction power coset fftArray twiddlesScratch)
      fun result => state power result.1 ∧
        result.2.length = twiddlesScratch.length := by
  have hslice := slice_tabulate (N := twiddlesScratch.length)
    (v := fun p => twiddlesScratch.getD p 0) (Nat.zero_le _) hscratch
  rw [tabulate_getD, Nat.sub_zero] at hslice
  have hloop := Returns.foldlM (f := fftLayer direction power coset)
    (I := fun k result => state k result.1 ∧
      result.2.length = 2 ^ (power - 1)) (List.range power)
    (s := (fftArray, tabulate (2 ^ (power - 1)) fun p =>
      twiddlesScratch.getD (0 + p) 0))
    ⟨h0, length_tabulate⟩
    (by
      rintro k hk ⟨fftArray, twiddled⟩ ⟨hstate, hlength⟩
      rw [List.length_range] at hk
      rw [List.getElem_range]
      refine (hstep k hk fftArray twiddled hstate hlength.ge).mono ?_
      exact fun _ hnext => ⟨hnext.1, hnext.2.trans hlength⟩)
  obtain ⟨⟨result, twiddled⟩, hlayers, hstate, hlength⟩ := hloop
  have hcopy := copyInto_tabulate (N := twiddlesScratch.length)
    (v := fun p => twiddlesScratch.getD p 0)
    (w := fun p => twiddled.getD p 0) (Nat.zero_le _) hscratch hlength
  rw [tabulate_getD, tabulate_getD] at hcopy
  rw [List.length_range] at hstate
  rw [fft, if_neg (Nat.pos_iff_ne_zero.mp hpower), hslice, ok_bind, hlayers,
    ok_bind]
  simp only [hcopy, ok_bind]
  exact ⟨_, rfl, hstate, length_tabulate⟩

variable {power coset : Nat}

/-- The forward transform in place. -/
theorem fft_forward (h : IsCoset power coset) (hN : 2 ^ power ≤ N)
    (hscratch : 2 ^ power / 2 ≤ twiddlesScratch.length)
    (a : Nat → Field2_128) :
    Returns (fft .forward power coset (tabulate N a) twiddlesScratch)
      fun result => result.1 = tabulate N
          (forwardFft basisAt power (bitSum basisAt coset) power a) ∧
        result.2.length = twiddlesScratch.length := by
  rcases Nat.eq_zero_or_pos power with rfl | hpower
  · exact ⟨_, rfl, rfl, rfl⟩
  rw [Nat.div_eq_of_eq_mul_left Nat.two_pos
    (Nat.two_pow_pred_mul_two hpower).symm] at hscratch
  set x := bitSum basisAt coset with hx
  -- what is left to do takes the array to the transform of the first one
  have hfft := fft_returns .forward power coset
    (fun k fftArray => ∃ b, fftArray = tabulate N b ∧
      forwardFft basisAt power x (power - k) b =
        forwardFft basisAt power x power a) hpower hscratch ⟨a, rfl, rfl⟩
    (by
      rintro k hk _ twiddled ⟨b, rfl, hb⟩ hlength
      have hlayer := layer_returns .forward computes_forward h
        (show power - k - 1 < power by omega) hN hlength b
      refine hlayer.mono ?_
      rintro ⟨fftArray, twiddled'⟩ ⟨hresult, hsame⟩
      refine ⟨⟨_, hresult, ?_⟩, hsame⟩
      have hsucc : power - k = power - k - 1 + 1 := by omega
      rw [hsucc, forwardFft] at hb
      exact hb)
  obtain ⟨result, heq, ⟨b, hresult, hb⟩, hlength⟩ := hfft
  rw [Nat.sub_self, forwardFft] at hb
  exact ⟨result, heq, hb ▸ hresult, hlength⟩

/-- The backward transform in place. -/
theorem fft_backward (h : IsCoset power coset) (hN : 2 ^ power ≤ N)
    (hscratch : 2 ^ power / 2 ≤ twiddlesScratch.length)
    (a : Nat → Field2_128) :
    Returns (fft .backward power coset (tabulate N a) twiddlesScratch)
      fun result => result.1 = tabulate N
          (backwardFft basisAt power (bitSum basisAt coset) power a) ∧
        result.2.length = twiddlesScratch.length := by
  rcases Nat.eq_zero_or_pos power with rfl | hpower
  · exact ⟨_, rfl, rfl, rfl⟩
  rw [Nat.div_eq_of_eq_mul_left Nat.two_pos
    (Nat.two_pow_pred_mul_two hpower).symm] at hscratch
  refine fft_returns .backward power coset
    (fun k fftArray => fftArray = tabulate N
      (backwardFft basisAt power (bitSum basisAt coset) k a)) hpower hscratch
    rfl ?_
  rintro k hk _ twiddled rfl hlength
  exact layer_returns .backward computes_backward h hk hN hlength _

/-- The operations of the bidirectional transform on the two halves of an
array. -/
theorem slice_low {stride : Nat} (a : Nat → Field2_128) :
    slice (tabulate (stride + stride) a) 0 stride =
      .ok (tabulate stride a) := by
  rw [slice_tabulate (Nat.zero_le _) (Nat.le_add_right _ _), Nat.sub_zero]
  simp only [Nat.zero_add]

theorem slice_high {stride : Nat} (a : Nat → Field2_128) :
    slice (tabulate (stride + stride) a) stride (stride + stride) =
      .ok (tabulate stride fun j => a (stride + j)) := by
  rw [slice_tabulate (Nat.le_add_right _ _) le_rfl, Nat.add_sub_cancel]

theorem copyInto_low {stride : Nat} (a low : Nat → Field2_128) :
    copyInto (tabulate (stride + stride) a) 0 stride (tabulate stride low) =
      .ok (tabulate (stride + stride)
        (halves stride low fun j => a (stride + j))) := by
  rw [copyInto_tabulate (Nat.zero_le _) (Nat.le_add_right _ _)
    (Nat.sub_zero stride).symm]
  congr 1
  apply tabulate_congr
  intro p _
  by_cases hp : p < stride
  · rw [if_pos ⟨Nat.zero_le p, hp⟩, halves_low hp, Nat.sub_zero]
  · obtain ⟨j, rfl⟩ := Nat.exists_eq_add_of_le (Nat.not_lt.mp hp)
    rw [if_neg (by omega), halves_high]

theorem copyInto_high {stride : Nat} (a high : Nat → Field2_128) :
    copyInto (tabulate (stride + stride) a) stride (stride + stride)
        (tabulate stride high) =
      .ok (tabulate (stride + stride) (halves stride a high)) := by
  rw [copyInto_tabulate (Nat.le_add_right _ _) le_rfl
    (Nat.add_sub_cancel ..).symm]
  congr 1
  apply tabulate_congr
  intro p hp
  by_cases hlow : p < stride
  · rw [if_neg (by omega), halves_low hlow]
  · rw [if_pos ⟨Nat.not_lt.mp hlow, hp⟩, halves, if_neg hlow]

/-- The bidirectional transform in place. -/
theorem bidirectionalFft_returns {nodesCount : Nat} (h : IsCoset power coset)
    (hnodes : nodesCount ≤ 2 ^ power)
    (hscratch : 2 ^ power / 2 ≤ twiddlesScratch.length)
    (a : Nat → Field2_128) :
    Returns (bidirectionalFft power coset nodesCount (tabulate (2 ^ power) a)
        twiddlesScratch)
      fun result => result.1 = tabulate (2 ^ power)
          (AdditiveFft.bidirectionalFft basisAt power (bitSum basisAt coset)
            nodesCount a) ∧
        result.2.length = twiddlesScratch.length := by
  induction power generalizing coset nodesCount twiddlesScratch a with
  | zero =>
      rw [bidirectionalFft, assert_of (by simp), ok_bind,
        assert_of (by simpa using hnodes), ok_bind]
      exact ⟨_, rfl, rfl, rfl⟩
  | succ power ih =>
      have hpow : 2 ^ (power + 1) = 2 ^ power + 2 ^ power := by ring
      have hpos := Nat.two_pow_pos power
      have hscratch : 2 ^ power ≤ twiddlesScratch.length := by omega
      have hhalf {scratch : List Field2_128}
          (hlength : scratch.length = twiddlesScratch.length) :
          2 ^ power / 2 ≤ scratch.length := by omega
      have hpower : power < 16 := h.power_le
      have hend := h.end_le
      have htwiddle : twiddle power coset =
          .ok ((normalized basisAt power).eval (bitSum basisAt coset)) :=
        twiddle_eq_ok_iff.mpr ⟨covers_of_lt hpower (by omega),
          eval_normalized_bitSum_basisAt hpower (by omega)⟩
      have hpoint : bitSum basisAt (coset + 2 ^ power) =
          bitSum basisAt coset + basisAt power := by
        have hone := bitSum_two_pow_add basisAt power (Nat.two_pow_pos power)
        rw [Nat.add_zero, bitSum_zero, add_zero] at hone
        rw [bitSum_add_of_dvd basisAt h.dvd (by omega), hone]
      have hlength (v : Nat → Field2_128) :
          (tabulate (2 ^ power + 2 ^ power) v).length =
            2 ^ power + 2 ^ power := length_tabulate
      rw [bidirectionalFft, AdditiveFft.bidirectionalFft,
        assert_of length_tabulate, ok_bind,
        assert_of (by rwa [length_tabulate]), ok_bind, htwiddle, ok_bind, hpow]
      set t := (normalized basisAt power).eval (bitSum basisAt coset) with ht
      by_cases hlt : nodesCount < 2 ^ power
      · have hsum : nodesCount + (2 ^ power - nodesCount) = 2 ^ power := by
          omega
        have hforward := computes_forward.butterflyLoop
          (Nat.sub_le (2 ^ power) nodesCount)
          (show nodesCount + (2 ^ power - nodesCount) + 2 ^ power ≤
            2 ^ power + 2 ^ power by omega) a t
        rw [hsum] at hforward
        obtain ⟨⟨low, scratch⟩, hlow, hlowEq, hlen⟩ :=
          ih h.low hlt.le (hhalf rfl) (AdditiveFft.butterflies (2 ^ power)
            (fun _ => forward t)
            (fun v => nodesCount ≤ v ∧ v < 2 ^ power) a)
        simp only at hlowEq hlen
        subst hlowEq
        have hdiagonal (b : Nat → Field2_128) :=
          computes_diagonal.butterflyLoop_zero hlt.le
            (show nodesCount + 2 ^ power ≤ 2 ^ power + 2 ^ power by omega) b t
        simp only [if_pos hlt, hforward, ok_bind, slice_low, hlow,
          copyInto_low, hdiagonal, hlength, slice_high]
        refine (fft_forward h.high le_rfl (hhalf hlen) _).bind ?_
        rintro ⟨high, scratch'⟩ ⟨hhighEq, hlen'⟩
        simp only at hhighEq hlen'
        subst hhighEq
        simp only [copyInto_high, ok_bind, hpoint]
        exact ⟨_, rfl, rfl, hlen'.trans hlen⟩
      · have hle : nodesCount - 2 ^ power ≤ 2 ^ power := by omega
        have hsum : nodesCount - 2 ^ power +
            (2 ^ power - (nodesCount - 2 ^ power)) = 2 ^ power := by omega
        have hdiagonal (b : Nat → Field2_128) :=
          computes_diagonal.butterflyLoop
            (Nat.sub_le (2 ^ power) (nodesCount - 2 ^ power))
            (show nodesCount - 2 ^ power +
                (2 ^ power - (nodesCount - 2 ^ power)) + 2 ^ power ≤
              2 ^ power + 2 ^ power by omega) b t
        rw [hsum] at hdiagonal
        have hbackward (b : Nat → Field2_128) :=
          computes_backward.butterflyLoop_zero hle
            (show nodesCount - 2 ^ power + 2 ^ power ≤
              2 ^ power + 2 ^ power by omega) b t
        simp only [if_neg hlt, ok_bind, slice_low]
        refine (fft_backward h.low le_rfl (hhalf rfl) a).bind ?_
        rintro ⟨low, scratch⟩ ⟨hlowEq, hlen⟩
        simp only at hlowEq hlen
        subst hlowEq
        simp only [copyInto_low, ok_bind, hdiagonal, hlength, slice_high]
        refine (ih h.high hle (hhalf hlen) _).bind ?_
        rintro ⟨high, scratch'⟩ ⟨hhighEq, hlen'⟩
        simp only at hhighEq hlen'
        subst hhighEq
        simp only [copyInto_high, ok_bind, hbackward, hpoint]
        exact ⟨_, rfl, rfl, hlen'.trans hlen⟩

end Transforms

end Longfellow.Field2_128
