/-
The truncated additive Fourier transform: from the values of a polynomial at
the first points of a coset and its coefficients from there on, the
coefficients that are missing and the values at the other points.
-/
import Longfellow.Lib.AdditiveFft

namespace AdditiveFft

section Bidirectional

variable {K : Type}

/-- One sequence up to a place, and another one from there on. -/
def halves (stride : Nat) (low high : Nat → K) (p : Nat) : K :=
  if p < stride then low p else high (p - stride)

theorem halves_low {stride p : Nat} (hp : p < stride) (low high : Nat → K) :
    halves stride low high p = low p := if_pos hp

@[simp] theorem halves_high (stride p : Nat) (low high : Nat → K) :
    halves stride low high (stride + p) = high p := by
  rw [halves, if_neg (Nat.not_lt.mpr (Nat.le_add_right stride p)),
    Nat.add_sub_cancel_left]

variable [Field K] (basis : Nat → K)

/-- The transform of `2 ^ i` elements, of which the first `n` are values. -/
noncomputable def bidirectionalFft :
    Nat → K → Nat → (Nat → K) → Nat → K
  | 0, _, _, a => a
  | i + 1, x, n, a =>
      let t := (normalized basis i).eval x
      if n < 2 ^ i then
        let a := butterflies (2 ^ i) (fun _ => forward t)
          (fun v => n ≤ v ∧ v < 2 ^ i) a
        let a := halves (2 ^ i) (bidirectionalFft i x n a)
          fun j => a (2 ^ i + j)
        let a := butterflies (2 ^ i) (fun _ => diagonal t) (· < n) a
        halves (2 ^ i) a
          (forwardFft basis i (x + basis i) i fun j => a (2 ^ i + j))
      else
        let a := halves (2 ^ i) (backwardFft basis i x i a)
          fun j => a (2 ^ i + j)
        let a := butterflies (2 ^ i) (fun _ => diagonal t)
          (fun v => n - 2 ^ i ≤ v ∧ v < 2 ^ i) a
        let a := halves (2 ^ i) a
          (bidirectionalFft i (x + basis i) (n - 2 ^ i)
            fun j => a (2 ^ i + j))
        butterflies (2 ^ i) (fun _ => backward t) (· < n - 2 ^ i) a

/-- The coefficients after the transform: those that it found, and then those
that were given. -/
noncomputable def found (i : Nat) (x : K) (n : Nat) (a : Nat → K) (v : Nat) :
    K :=
  if v < n then bidirectionalFft basis i x n a v else a v

/-- The values after the transform: those that were given, and then those that
it computed. -/
noncomputable def computed (i : Nat) (x : K) (n : Nat) (a : Nat → K)
    (v : Nat) : K :=
  if v < n then a v else bidirectionalFft basis i x n a v

variable {basis} [CharP K 2] {m i n : Nat}

omit [Field K] [CharP K 2] in
/-- Butterflies on some pairs of the two halves, at a position of the first. -/
theorem butterflies_half_low {stride p : Nat}
    {butterfly : Nat → K → K → K × K} {at_ : Nat → Prop} [DecidablePred at_]
    (hp : p < stride) (a : Nat → K) :
    butterflies stride butterfly at_ a p =
      if at_ p then (butterfly p (a p) (a (stride + p))).1 else a p := by
  by_cases hat : at_ p
  · rw [butterflies_low hat, if_pos hat, Nat.add_comm]
  · rw [butterflies_other hat fun h => absurd hp (Nat.not_lt.mpr h.1),
      if_neg hat]

omit [Field K] [CharP K 2] in
/-- The same at a position of the second half. -/
theorem butterflies_half_high {stride p : Nat}
    {butterfly : Nat → K → K → K × K} {at_ : Nat → Prop} [DecidablePred at_]
    (hat : ∀ q, at_ q → q < stride) (a : Nat → K) :
    butterflies stride butterfly at_ a (stride + p) =
      if at_ p then (butterfly p (a p) (a (stride + p))).2
      else a (stride + p) := by
  have hhigh : ¬ at_ (stride + p) := fun h =>
    absurd (hat _ h) (Nat.not_lt.mpr (Nat.le_add_right stride p))
  by_cases hlow : at_ p
  · rw [Nat.add_comm] at hhigh ⊢
    rw [butterflies_high hlow hhigh, if_pos hlow]
  · rw [butterflies_other hhigh, if_neg hlow]
    rintro ⟨-, h⟩
    rw [Nat.add_sub_cancel_left] at h
    exact hlow h

/-- Fewer values than half of the points: the coefficients of the first half
are folded, and unfolded after they are found. -/
theorem valueAt_found_of_lt (h : Independent basis m) (hi : i < m)
    (hn : n < 2 ^ i) (x : K) (a : Nat → K)
    (ih : ∀ b : Nat → K, ∀ v, v < 2 ^ i →
      valueAt basis i x (found basis i x n b) v = computed basis i x n b v)
    {v : Nat} (hv : v < 2 ^ (i + 1)) :
    valueAt basis (i + 1) x (found basis (i + 1) x n a) v =
      computed basis (i + 1) x n a v := by
  have hpow : 2 ^ (i + 1) = 2 ^ i + 2 ^ i := by ring
  set t := (normalized basis i).eval x with ht
  set folded := butterflies (2 ^ i) (fun _ => forward t)
    (fun v => n ≤ v ∧ v < 2 ^ i) a with hfolded
  set low := bidirectionalFft basis i x n folded with hlow
  set unfolded := butterflies (2 ^ i) (fun _ => diagonal t) (· < n)
    (halves (2 ^ i) low fun j => folded (2 ^ i + j)) with hunfolded
  have hresult : bidirectionalFft basis (i + 1) x n a =
      halves (2 ^ i) unfolded (forwardFft basis i (x + basis i) i
        fun j => unfolded (2 ^ i + j)) := by
    rw [bidirectionalFft]
    exact if_pos hn
  have hfoldedLow {j : Nat} (hj : j < 2 ^ i) :
      folded j = if j < n then a j else a j + t * a (2 ^ i + j) := by
    rw [hfolded, butterflies_half_low hj]
    by_cases hjn : j < n
    · rw [if_neg (by omega), if_pos hjn]
    · rw [if_pos ⟨by omega, hj⟩, if_neg hjn, forward]
  have hfoldedHigh {j : Nat} (hj : j < 2 ^ i) : folded (2 ^ i + j) =
      if j < n then a (2 ^ i + j)
      else a (2 ^ i + j) + (a j + t * a (2 ^ i + j)) := by
    rw [hfolded, butterflies_half_high fun q hq => hq.2]
    by_cases hjn : j < n
    · rw [if_neg (by omega), if_pos hjn]
    · rw [if_pos ⟨by omega, hj⟩, if_neg hjn, forward]
  have hunfoldedLow {j : Nat} (hj : j < 2 ^ i) : unfolded j =
      if j < n then low j - t * a (2 ^ i + j) else low j := by
    rw [hunfolded, butterflies_half_low hj, halves_low hj, halves_high]
    by_cases hjn : j < n
    · rw [if_pos hjn, if_pos hjn, diagonal, hfoldedHigh hj, if_pos hjn]
    · rw [if_neg hjn, if_neg hjn]
  have hunfoldedHigh {j : Nat} (hj : j < 2 ^ i) : unfolded (2 ^ i + j) =
      if j < n then a (2 ^ i + j) + low j
      else a (2 ^ i + j) + (a j + t * a (2 ^ i + j)) := by
    rw [hunfolded, butterflies_half_high fun q (hq : q < n) => hq.trans hn,
      halves_high, hfoldedHigh hj]
    by_cases hjn : j < n
    · rw [if_pos hjn, if_pos hjn, halves_low hj, diagonal, if_pos hjn]
    · rw [if_neg hjn, if_neg hjn, if_neg hjn]
  have hfoundLow {j : Nat} (hj : j < 2 ^ i) :
      found basis (i + 1) x n a j =
        if j < n then low j - t * a (2 ^ i + j) else a j := by
    rw [found, hresult, halves_low hj, hunfoldedLow hj]
    by_cases hjn : j < n
    · simp only [if_pos hjn]
    · simp only [if_neg hjn]
  have hfoundHigh (j : Nat) :
      found basis (i + 1) x n a (2 ^ i + j) = a (2 ^ i + j) :=
    if_neg (by omega)
  by_cases hvlow : v < 2 ^ i
  · have hcoefficients : ∀ j, j < 2 ^ i → found basis (i + 1) x n a j +
        t * found basis (i + 1) x n a (2 ^ i + j) =
          found basis i x n folded j := by
      intro j hj
      rw [hfoundLow hj, hfoundHigh, found, hfoldedLow hj]
      by_cases hjn : j < n
      · simp only [if_pos hjn]
        ring
      · simp only [if_neg hjn]
    rw [valueAt_succ hvlow, ← ht, valueAt_congr hcoefficients,
      ih folded v hvlow, computed, computed, hresult, halves_low hvlow,
      hunfoldedLow hvlow, hfoldedLow hvlow]
    by_cases hvn : v < n
    · simp only [if_pos hvn]
    · simp only [if_neg hvn, ← hlow]
  · obtain ⟨w, rfl⟩ := Nat.exists_eq_add_of_le (Nat.not_lt.mp hvlow)
    have hw : w < 2 ^ i := by omega
    have hcoefficients : ∀ j, j < 2 ^ i → found basis (i + 1) x n a j +
        (t + 1) * found basis (i + 1) x n a (2 ^ i + j) =
          unfolded (2 ^ i + j) := by
      intro j hj
      rw [hfoundLow hj, hfoundHigh, hunfoldedHigh hj]
      by_cases hjn : j < n
      · simp only [if_pos hjn]
        ring
      · simp only [if_neg hjn]
        ring
    rw [valueAt_succ_high h hi hw, ← ht, valueAt_congr hcoefficients, computed,
      if_neg (by omega), hresult, halves_high, forwardFft_eq h hi.le _ _ hw]

/-- At least as many values as half of the points: the first half is
interpolated, and corrected after the coefficients of the second are found. -/
theorem valueAt_found_of_le (h : Independent basis m) (hi : i < m)
    (hn : 2 ^ i ≤ n) (hle : n ≤ 2 ^ (i + 1)) (x : K) (a : Nat → K)
    (ih : ∀ b : Nat → K, ∀ v, v < 2 ^ i →
      valueAt basis i (x + basis i)
          (found basis i (x + basis i) (n - 2 ^ i) b) v =
        computed basis i (x + basis i) (n - 2 ^ i) b v)
    {v : Nat} (hv : v < 2 ^ (i + 1)) :
    valueAt basis (i + 1) x (found basis (i + 1) x n a) v =
      computed basis (i + 1) x n a v := by
  have hpow : 2 ^ (i + 1) = 2 ^ i + 2 ^ i := by ring
  set t := (normalized basis i).eval x with ht
  set low := backwardFft basis i x i a with hlow
  set mixed := butterflies (2 ^ i) (fun _ => diagonal t)
    (fun v => n - 2 ^ i ≤ v ∧ v < 2 ^ i)
    (halves (2 ^ i) low fun j => a (2 ^ i + j)) with hmixed
  set high := bidirectionalFft basis i (x + basis i) (n - 2 ^ i)
    (fun j => mixed (2 ^ i + j)) with hhigh
  have hresult : bidirectionalFft basis (i + 1) x n a =
      butterflies (2 ^ i) (fun _ => backward t) (· < n - 2 ^ i)
        (halves (2 ^ i) mixed high) := by
    rw [bidirectionalFft]
    exact if_neg (Nat.not_lt.mpr hn)
  have hbelow : ∀ q, q < n - 2 ^ i → q < 2 ^ i := by omega
  have hmixedLow {j : Nat} (hj : j < 2 ^ i) : mixed j =
      if j < n - 2 ^ i then low j else low j - t * a (2 ^ i + j) := by
    rw [hmixed, butterflies_half_low hj, halves_low hj, halves_high]
    by_cases hjn : j < n - 2 ^ i
    · rw [if_neg (by omega), if_pos hjn]
    · rw [if_pos ⟨by omega, hj⟩, if_neg hjn, diagonal]
  have hmixedHigh {j : Nat} (hj : j < 2 ^ i) : mixed (2 ^ i + j) =
      if j < n - 2 ^ i then a (2 ^ i + j) else a (2 ^ i + j) + low j := by
    rw [hmixed, butterflies_half_high fun q hq => hq.2, halves_low hj,
      halves_high]
    by_cases hjn : j < n - 2 ^ i
    · rw [if_neg (by omega), if_pos hjn]
    · rw [if_pos ⟨by omega, hj⟩, if_neg hjn, diagonal]
  have hfoundLow {j : Nat} (hj : j < 2 ^ i) :
      found basis (i + 1) x n a j = if j < n - 2 ^ i then
        low j - t * (high j - low j) else low j - t * a (2 ^ i + j) := by
    rw [found, if_pos (by omega), hresult, butterflies_half_low hj,
      halves_low hj, halves_high, hmixedLow hj]
    by_cases hjn : j < n - 2 ^ i
    · simp only [if_pos hjn, backward]
    · simp only [if_neg hjn]
  have hfoundHigh {j : Nat} (hj : j < 2 ^ i) :
      found basis (i + 1) x n a (2 ^ i + j) =
        if j < n - 2 ^ i then high j - low j else a (2 ^ i + j) := by
    rw [found, hresult, butterflies_half_high hbelow, halves_low hj,
      halves_high, hmixedLow hj]
    by_cases hjn : j < n - 2 ^ i
    · rw [if_pos (by omega), if_pos hjn, if_pos hjn, if_pos hjn, backward]
    · rw [if_neg (by omega), if_neg hjn]
  by_cases hvlow : v < 2 ^ i
  · have hcoefficients : ∀ j, j < 2 ^ i → found basis (i + 1) x n a j +
        t * found basis (i + 1) x n a (2 ^ i + j) = low j := by
      intro j hj
      rw [hfoundLow hj, hfoundHigh hj]
      by_cases hjn : j < n - 2 ^ i
      · simp only [if_pos hjn]
        ring
      · simp only [if_neg hjn]
        ring
    rw [valueAt_succ hvlow, ← ht, valueAt_congr hcoefficients, computed,
      if_pos (by omega)]
    exact valueAt_backwardFft h hi.le x a hvlow
  · obtain ⟨w, rfl⟩ := Nat.exists_eq_add_of_le (Nat.not_lt.mp hvlow)
    have hw : w < 2 ^ i := by omega
    have hcoefficients : ∀ j, j < 2 ^ i → found basis (i + 1) x n a j +
        (t + 1) * found basis (i + 1) x n a (2 ^ i + j) =
          found basis i (x + basis i) (n - 2 ^ i)
            (fun j => mixed (2 ^ i + j)) j := by
      intro j hj
      rw [hfoundLow hj, hfoundHigh hj, found, hmixedHigh hj, ← hhigh]
      by_cases hjn : j < n - 2 ^ i
      · simp only [if_pos hjn]
        ring
      · simp only [if_neg hjn]
        ring
    rw [valueAt_succ_high h hi hw, ← ht, valueAt_congr hcoefficients,
      ih _ w hw, computed, computed, hresult, butterflies_half_high hbelow,
      halves_high, hmixedHigh hw]
    by_cases hwn : w < n - 2 ^ i
    · have hvn : 2 ^ i + w < n := by omega
      simp only [if_pos hwn, if_pos hvn]
    · have hvn : ¬ 2 ^ i + w < n := by omega
      simp only [if_neg hwn, if_neg hvn, ← hhigh]

/-- The coefficients after the transform are those of a polynomial with the
values after the transform. -/
theorem valueAt_found (h : Independent basis m) (hi : i ≤ m)
    (hn : n ≤ 2 ^ i) (x : K) (a : Nat → K) {v : Nat} (hv : v < 2 ^ i) :
    valueAt basis i x (found basis i x n a) v = computed basis i x n a v := by
  induction i generalizing x n a v with
  | zero =>
      obtain rfl : v = 0 := by
        rw [pow_zero] at hv
        omega
      rw [valueAt_zero, found, computed, bidirectionalFft]
  | succ i ih =>
      have hi' : i ≤ m := Nat.le_of_succ_le hi
      by_cases hlt : n < 2 ^ i
      · exact valueAt_found_of_lt h hi hlt x a
          (fun b v hv => ih hi' hlt.le x b hv) hv
      · have hpow : 2 ^ (i + 1) = 2 ^ i + 2 ^ i := by ring
        exact valueAt_found_of_le h hi (Nat.not_lt.mp hlt) hn x a
          (fun b v hv => ih hi' (by omega) (x + basis i) b hv) hv

end Bidirectional

end AdditiveFft
