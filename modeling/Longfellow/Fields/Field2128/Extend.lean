/-
The twiddle factors of the additive Fourier transforms that extend rows over
the field with `2^128` elements.
-/
import Longfellow.Fields.Field2128.Constants
import Longfellow.Fields.Ntt

namespace Longfellow.Field2_128

open Exec AdditiveFft Ntt

section Model

/-- Go through the bits of a coset, from the lowest one, and add up the entries
of the table at those that are set. -/
def twiddleLoop (power coset position : Nat) (accumulator : Field2_128) :
    Exec Field2_128 :=
  if 0 < coset then do
    let accumulator ← (
      if coset % 2 = 1 then do
        let entry ← twiddleArrayAt power position
        pure (accumulator + entry)
      else pure accumulator)
    twiddleLoop power (coset / 2) (position + 1) accumulator
  else pure accumulator
termination_by coset

/-- Compute a twiddle factor for the given stage of the additive FFT, and the
given coset. -/
def twiddle (power coset : Nat) : Exec Field2_128 :=
  twiddleLoop power coset 0 0

/-- Compute the factor that is `2^k` places after one that is known. -/
def twiddleStep (currPower k : Nat) (twiddled : List Field2_128) (u : Nat) :
    Exec (List Field2_128) := do
  let known ← index twiddled u
  let entry ← twiddleArrayAt currPower (k + currPower + 1)
  update twiddled (u + 2 ^ k) fun _ => known + entry

/-- Double the number of factors that are known. -/
def twiddleRound (currPower : Nat) (twiddled : List Field2_128) (k : Nat) :
    Exec (List Field2_128) :=
  (List.range (2 ^ k)).foldlM (twiddleStep currPower k) twiddled

/-- Compute all the twiddles needed for `currPower` in linear time. -/
def twiddles (currPower power coset : Nat) (twiddled : List Field2_128) :
    Exec (List Field2_128) := do
  let first ← twiddle currPower coset
  let twiddled ← update twiddled 0 fun _ => first
  let remaining ← checkedSub power currPower
  let rounds ← checkedSub remaining 1
  (List.range rounds).foldlM (twiddleRound currPower) twiddled

end Model

section Twiddle

theorem twiddleArrayAt_eq_ok_iff {x y : Nat} {entry : Field2_128} :
    twiddleArrayAt x y = .ok entry ↔
      (x < 16 ∧ y < 16) ∧ entry = tableAt x y := by
  constructor
  · intro h
    have hbounds : x < 16 ∧ y < 16 := by
      obtain ⟨row, hrow, hentry⟩ := Exec.bind_eq_ok.mp h
      obtain ⟨hx, hget⟩ := List.getElem?_eq_some_iff.mp (index_eq_ok.mp hrow)
      obtain ⟨hy, -⟩ := List.getElem?_eq_some_iff.mp (index_eq_ok.mp hentry)
      have hlength : ∀ row ∈ twiddleArray, row.length = 16 := by decide
      rw [hlength row (hget ▸ List.getElem_mem hx)] at hy
      exact ⟨hx, hy⟩
    rw [twiddleArrayAt_eq_ok hbounds.1 hbounds.2] at h
    exact ⟨hbounds, (Except.ok.inj h).symm⟩
  · rintro ⟨⟨hx, hy⟩, rfl⟩
    exact twiddleArrayAt_eq_ok hx hy

/-- The table has an entry for every set bit of a number. -/
def Covers (power position coset : Nat) : Prop :=
  ∀ k, coset.testBit k → power < 16 ∧ position + k < 16

theorem covers_succ (power position coset : Nat) :
    Covers power position coset ↔
      (coset % 2 = 1 → power < 16 ∧ position < 16) ∧
        Covers power (position + 1) (coset / 2) := by
  constructor
  · intro h
    constructor
    · intro hlow
      exact h 0 (by simpa [Nat.testBit_zero] using hlow)
    · intro k hk
      have hbit := h (k + 1) (by rwa [Nat.testBit_succ])
      omega
  · rintro ⟨hlow, hhigh⟩ k hk
    cases k with
    | zero => exact hlow (by simpa [Nat.testBit_zero] using hk)
    | succ k =>
        have hbit := hhigh k (by rwa [Nat.testBit_succ] at hk)
        omega

theorem bitSum_half (f : Nat → Field2_128) (n : Nat) :
    bitSum f n =
      (if n % 2 = 1 then f 0 else 0) + bitSum (fun k => f (k + 1)) (n / 2) := by
  have hlow : n % 2 < 2 ^ 1 := Nat.mod_lt _ Nat.two_pos
  have h := bitSum_two_pow_mul_add f 1 (n / 2) hlow
  rw [pow_one, Nat.div_add_mod] at h
  have hbit : bitSum f (n % 2) = if n % 2 = 1 then f 0 else 0 := by
    rcases Nat.mod_two_eq_zero_or_one n with hn | hn
    · rw [hn]
      rfl
    · rw [hn, bitSum, Finset.sum_range_one]
      rfl
  rw [h, hbit]
  simp only [Nat.add_comm 1]

theorem twiddleLoop_eq_ok_iff {power coset position : Nat}
    {accumulator result : Field2_128} :
    twiddleLoop power coset position accumulator = .ok result ↔
      Covers power position coset ∧ result = accumulator +
        bitSum (fun k => tableAt power (position + k)) coset := by
  induction coset using Nat.strongRecOn generalizing position accumulator with
  | ind coset ih =>
      rw [twiddleLoop]
      by_cases hpos : 0 < coset
      · have hshift : (fun k => tableAt power (position + 1 + k)) =
            fun k => tableAt power (position + (k + 1)) := by
          funext k
          rw [Nat.add_right_comm, Nat.add_assoc]
        rw [if_pos hpos, covers_succ, bitSum_half, Exec.bind_eq_ok]
        have hrest {next : Field2_128} := @ih (coset / 2)
          (Nat.div_lt_self hpos (by decide)) (position + 1) next
        simp only [hrest, hshift]
        by_cases hbit : coset % 2 = 1
        · simp only [if_pos hbit, Exec.bind_eq_ok, twiddleArrayAt_eq_ok_iff]
          constructor
          · rintro ⟨_, ⟨_, ⟨hbounds, rfl⟩, hsum⟩, hcovers, rfl⟩
            cases hsum
            exact ⟨⟨fun _ => hbounds, hcovers⟩, add_assoc _ _ _⟩
          · rintro ⟨⟨hbounds, hcovers⟩, rfl⟩
            exact ⟨_, ⟨_, ⟨hbounds hbit, rfl⟩, rfl⟩, hcovers,
              (add_assoc _ _ _).symm⟩
        · simp only [if_neg hbit, zero_add]
          constructor
          · rintro ⟨_, hsame, hcovers, rfl⟩
            cases hsame
            exact ⟨⟨fun h => absurd h hbit, hcovers⟩, rfl⟩
          · rintro ⟨⟨-, hcovers⟩, rfl⟩
            exact ⟨_, rfl, hcovers, rfl⟩
      · obtain rfl : coset = 0 := by omega
        rw [if_neg hpos, bitSum_zero, add_zero]
        constructor
        · intro h
          cases h
          exact ⟨fun k hk => absurd hk (by simp), rfl⟩
        · rintro ⟨-, rfl⟩
          rfl

/-- The twiddle factor is the sum of the entries at the set bits. -/
theorem twiddle_eq_ok_iff {power coset : Nat} {result : Field2_128} :
    twiddle power coset = .ok result ↔
      Covers power 0 coset ∧ result = bitSum (tableAt power) coset := by
  rw [twiddle, twiddleLoop_eq_ok_iff, zero_add]
  simp only [Nat.zero_add]

end Twiddle

section Twiddles

/-- A loop over successive numbers returns when all but the last of them and
the last one do. -/
theorem foldlM_range_succ_eq_ok {α : Type} {f : α → Nat → Exec α} {a b : α}
    {n : Nat} : (List.range (n + 1)).foldlM f a = .ok b ↔
      ∃ c, (List.range n).foldlM f a = .ok c ∧ f c n = .ok b := by
  rw [List.range_succ, List.foldlM_append, Exec.bind_eq_ok]
  simp [Exec.bind_eq_ok]

variable {N currPower : Nat} {v : Nat → Field2_128}
  {result : List Field2_128}

/-- The sequence after the first `m` factors of a round: each one is the sum of
the one `2^k` places before it and an entry of the table. -/
def doubled (currPower k m : Nat) (v : Nat → Field2_128) (i : Nat) :
    Field2_128 :=
  if 2 ^ k ≤ i ∧ i < 2 ^ k + m then
    v (i - 2 ^ k) + tableAt currPower (k + currPower + 1)
  else v i

theorem doubled_zero (k : Nat) : doubled currPower k 0 v = v := by
  funext i
  have hnone : ¬ (2 ^ k ≤ i ∧ i < 2 ^ k + 0) := by omega
  rw [doubled, if_neg hnone]

theorem doubled_succ {k m : Nat} (hm : m < 2 ^ k) :
    Function.update (doubled currPower k m v) (m + 2 ^ k)
        (doubled currPower k m v m +
          tableAt currPower (k + currPower + 1)) =
      doubled currPower k (m + 1) v := by
  have hlow : ¬ (2 ^ k ≤ m ∧ m < 2 ^ k + m) := by omega
  funext i
  rcases Decidable.em (i = m + 2 ^ k) with rfl | hi
  · have hlast : 2 ^ k ≤ m + 2 ^ k ∧ m + 2 ^ k < 2 ^ k + (m + 1) := by omega
    rw [Function.update_self, doubled, doubled, if_neg hlow, if_pos hlast,
      Nat.add_sub_cancel]
  · have hsame : (2 ^ k ≤ i ∧ i < 2 ^ k + (m + 1)) ↔
        (2 ^ k ≤ i ∧ i < 2 ^ k + m) := by omega
    rw [Function.update_of_ne hi, doubled, doubled]
    simp only [hsame]

theorem twiddleStep_eq_ok_iff {k m : Nat} (hm : m < 2 ^ k) :
    twiddleStep currPower k (tabulate N (doubled currPower k m v)) m =
        .ok result ↔
      ((currPower < 16 ∧ k + currPower + 1 < 16) ∧ m + 2 ^ k < N) ∧
        result = tabulate N (doubled currPower k (m + 1) v) := by
  constructor
  · intro h
    obtain ⟨known, hknown, h⟩ := Exec.bind_eq_ok.mp h
    obtain ⟨entry, hentry, h⟩ := Exec.bind_eq_ok.mp h
    obtain ⟨hbounds, rfl⟩ := twiddleArrayAt_eq_ok_iff.mp hentry
    obtain ⟨old, hold, -⟩ := update_eq_ok.mp h
    obtain ⟨hlt, -⟩ := List.getElem?_eq_some_iff.mp hold
    rw [length_tabulate] at hlt
    rw [index_tabulate (by omega : m < N)] at hknown
    cases hknown
    rw [update_tabulate hlt, doubled_succ hm] at h
    cases h
    exact ⟨⟨hbounds, hlt⟩, rfl⟩
  · rintro ⟨⟨hbounds, hlt⟩, rfl⟩
    rw [twiddleStep, index_tabulate (by omega : m < N), ok_bind,
      twiddleArrayAt_eq_ok hbounds.1 hbounds.2, ok_bind, update_tabulate hlt,
      doubled_succ hm]

/-- The first `m` steps of a round. -/
theorem twiddleSteps_eq_ok_iff {k m : Nat} (hm : m ≤ 2 ^ k) :
    (List.range m).foldlM (twiddleStep currPower k) (tabulate N v) =
        .ok result ↔
      (0 < m → (currPower < 16 ∧ k + currPower + 1 < 16) ∧ 2 ^ k + m ≤ N) ∧
        result = tabulate N (doubled currPower k m v) := by
  induction m generalizing result with
  | zero =>
      rw [doubled_zero]
      constructor
      · intro h
        cases h
        exact ⟨fun h => absurd h (Nat.lt_irrefl 0), rfl⟩
      · rintro ⟨-, rfl⟩
        rfl
  | succ m ih =>
      simp only [foldlM_range_succ_eq_ok, ih (Nat.le_of_succ_le hm)]
      constructor
      · rintro ⟨_, ⟨-, rfl⟩, hlast⟩
        obtain ⟨⟨hbounds, hlt⟩, rfl⟩ := (twiddleStep_eq_ok_iff hm).mp hlast
        exact ⟨fun _ => ⟨hbounds, by omega⟩, rfl⟩
      · rintro ⟨hall, rfl⟩
        obtain ⟨hbounds, hlt⟩ := hall (Nat.succ_pos m)
        exact ⟨_, ⟨fun _ => ⟨hbounds, by omega⟩, rfl⟩,
          (twiddleStep_eq_ok_iff hm).mpr ⟨⟨hbounds, by omega⟩, rfl⟩⟩

/-- The factor for each number of steps past the coset. -/
noncomputable def factor (currPower coset n : Nat) : Field2_128 :=
  bitSum (tableAt currPower) (coset + n * 2 ^ (currPower + 1))

/-- The sequence whose first terms are the factors. -/
noncomputable def factors (currPower coset count : Nat)
    (v : Nat → Field2_128) (i : Nat) : Field2_128 :=
  if i < count then factor currPower coset i else v i

/-- The low bits of the coset are clear, so that nothing is carried. -/
theorem factor_add {power coset k u : Nat} (hcoset : 2 ^ power ∣ coset)
    (hk : k + currPower + 1 < power) (hu : u < 2 ^ k) :
    factor currPower coset (u + 2 ^ k) = factor currPower coset u +
      tableAt currPower (k + currPower + 1) := by
  obtain ⟨c, rfl⟩ := hcoset
  have hexponent : 2 ^ k * 2 ^ (currPower + 1) = 2 ^ (k + currPower + 1) := by
    rw [← pow_add, Nat.add_assoc]
  have hlow : u * 2 ^ (currPower + 1) < 2 ^ (k + currPower + 1) := by
    rw [← hexponent]
    exact Nat.mul_lt_mul_of_pos_right hu (Nat.two_pow_pos _)
  have hbelow : 2 ^ (k + currPower + 1) * 2 ≤ 2 ^ power := by
    rw [← pow_succ]
    exact Nat.pow_le_pow_right Nat.two_pos hk
  rw [factor, factor, Nat.add_mul, hexponent,
    Nat.add_comm (u * 2 ^ (currPower + 1)),
    bitSum_two_pow_mul_add _ power c (by omega),
    bitSum_two_pow_mul_add _ power c (by omega),
    bitSum_two_pow_add _ _ hlow]
  ring

theorem doubled_factors {power coset k : Nat} (hcoset : 2 ^ power ∣ coset)
    (hk : k + currPower + 1 < power) :
    doubled currPower k (2 ^ k) (factors currPower coset (2 ^ k) v) =
      factors currPower coset (2 ^ (k + 1)) v := by
  have hsucc : 2 ^ (k + 1) = 2 ^ k + 2 ^ k := by rw [pow_succ, Nat.mul_two]
  funext i
  rw [doubled, hsucc]
  by_cases hlow : i < 2 ^ k
  · have hnot : ¬ (2 ^ k ≤ i ∧ i < 2 ^ k + 2 ^ k) := by omega
    have hnext : i < 2 ^ k + 2 ^ k := by omega
    rw [if_neg hnot, factors, factors, if_pos hlow, if_pos hnext]
  · by_cases hhigh : i < 2 ^ k + 2 ^ k
    · have hu : i - 2 ^ k < 2 ^ k := by omega
      have hi : i - 2 ^ k + 2 ^ k = i := by omega
      have hadd := factor_add hcoset hk hu
      rw [hi] at hadd
      rw [if_pos ⟨by omega, hhigh⟩, factors, factors, if_pos hu,
        if_pos hhigh, hadd]
    · have hnot : ¬ (2 ^ k ≤ i ∧ i < 2 ^ k + 2 ^ k) := by omega
      rw [if_neg hnot, factors, factors, if_neg hlow, if_neg hhigh]

/-- The rounds double the number of factors, as far as the table and the array
go. -/
theorem twiddleRounds_eq_ok_iff {power coset rounds : Nat}
    (hcoset : 2 ^ power ∣ coset) (hrounds : rounds + currPower < power)
    (hN : 0 < N) :
    (List.range rounds).foldlM (twiddleRound currPower)
        (tabulate N (factors currPower coset 1 v)) = .ok result ↔
      (0 < rounds → currPower < 16 ∧ rounds + currPower < 16) ∧
        2 ^ rounds ≤ N ∧
          result = tabulate N (factors currPower coset (2 ^ rounds) v) := by
  induction rounds generalizing result with
  | zero =>
      constructor
      · intro h
        cases h
        exact ⟨fun h => absurd h (Nat.lt_irrefl 0), hN, rfl⟩
      · rintro ⟨-, -, rfl⟩
        rfl
  | succ rounds ih =>
      have hpos := Nat.two_pow_pos rounds
      have hsucc : 2 ^ (rounds + 1) = 2 ^ rounds + 2 ^ rounds := by
        rw [pow_succ, Nat.mul_two]
      have hdoubled := doubled_factors (v := v) hcoset
        (show rounds + currPower + 1 < power by omega)
      simp only [foldlM_range_succ_eq_ok, ih (by omega)]
      constructor
      · rintro ⟨_, ⟨-, -, rfl⟩, hlast⟩
        obtain ⟨hall, rfl⟩ := (twiddleSteps_eq_ok_iff le_rfl).mp hlast
        obtain ⟨hbounds, hlt⟩ := hall hpos
        exact ⟨fun _ => ⟨hbounds.1, by omega⟩, by omega, by rw [hdoubled]⟩
      · rintro ⟨hall, hlt, rfl⟩
        have hbounds := hall (Nat.succ_pos rounds)
        refine ⟨_, ⟨fun _ => ⟨hbounds.1, by omega⟩, by omega, rfl⟩,
          (twiddleSteps_eq_ok_iff le_rfl).mpr ⟨fun _ => ⟨⟨hbounds.1, ?_⟩, ?_⟩,
            by rw [hdoubled]⟩⟩
        · omega
        · omega

/-- The table has what every factor takes when it has what the coset and the
last round take. -/
theorem covers_all_iff {power coset rounds : Nat}
    (hcoset : 2 ^ power ∣ coset) (hrounds : rounds + currPower < power) :
    (∀ n, n < 2 ^ rounds →
        Covers currPower 0 (coset + n * 2 ^ (currPower + 1))) ↔
      Covers currPower 0 coset ∧
        (0 < rounds → currPower < 16 ∧ rounds + currPower < 16) := by
  obtain ⟨c, rfl⟩ := hcoset
  have hlow {n : Nat} (hn : n < 2 ^ rounds) :
      n * 2 ^ (currPower + 1) < 2 ^ power :=
    calc
      n * 2 ^ (currPower + 1) < 2 ^ rounds * 2 ^ (currPower + 1) :=
        Nat.mul_lt_mul_of_pos_right hn (Nat.two_pow_pos _)
      _ = 2 ^ (rounds + (currPower + 1)) := (pow_add ..).symm
      _ ≤ 2 ^ power := Nat.pow_le_pow_right Nat.two_pos (by omega)
  constructor
  · intro h
    have hfirst := h 0 (Nat.two_pow_pos _)
    rw [Nat.zero_mul, Nat.add_zero] at hfirst
    refine ⟨hfirst, fun hpos => ?_⟩
    have hlast : 2 ^ (rounds - 1) < 2 ^ rounds :=
      Nat.pow_lt_pow_right (by decide) (by omega)
    have hbit := h (2 ^ (rounds - 1)) hlast (rounds + currPower) (by
      rw [Nat.testBit_two_pow_mul_add c (hlow hlast), if_pos hrounds, ← pow_add,
        Nat.testBit_two_pow]
      exact decide_eq_true (by omega))
    omega
  · rintro ⟨hcoset, hall⟩ n hn k hk
    rw [Nat.testBit_two_pow_mul_add c (hlow hn)] at hk
    by_cases hpower : k < power
    · rw [if_pos hpower, Nat.testBit_mul_two_pow] at hk
      obtain ⟨hle, hbit⟩ := Bool.and_eq_true_iff.mp hk
      have hle := of_decide_eq_true hle
      have hlt : k - (currPower + 1) < rounds := by
        by_contra hge
        rw [Nat.testBit_lt_two_pow (hn.trans_le
          (Nat.pow_le_pow_right Nat.two_pos (Nat.not_lt.mp hge)))] at hbit
        cases hbit
      have hbounds := hall (by omega)
      omega
    · rw [if_neg hpower] at hk
      apply hcoset k
      rw [Nat.testBit_two_pow_mul]
      simp [hk, Nat.not_lt.mp hpower]

theorem update_first (coset : Nat) (hN : 0 < N) :
    update (tabulate N v) 0 (fun _ => factor currPower coset 0) =
      .ok (tabulate N (factors currPower coset 1 v)) := by
  rw [update_tabulate hN]
  congr 2
  funext i
  rcases Nat.eq_zero_or_pos i with rfl | hi
  · rw [Function.update_self]
    rfl
  · have hnot : ¬ i < 1 := by omega
    rw [Function.update_of_ne (by omega), factors, if_neg hnot]

theorem twiddles_eq_ok_iff {power coset : Nat} (hpower : currPower < power)
    (hcoset : 2 ^ power ∣ coset) :
    twiddles currPower power coset (tabulate N v) = .ok result ↔
      (∀ n, n < 2 ^ (power - currPower - 1) →
          Covers currPower 0 (coset + n * 2 ^ (currPower + 1))) ∧
        2 ^ (power - currPower - 1) ≤ N ∧
          result = tabulate N
            (factors currPower coset (2 ^ (power - currPower - 1)) v) := by
  have hrounds : power - currPower - 1 + currPower < power := by omega
  have hone : 1 ≤ power - currPower := by omega
  rw [covers_all_iff hcoset hrounds]
  have hfirst : bitSum (tableAt currPower) coset = factor currPower coset 0 := by
    rw [factor, Nat.zero_mul, Nat.add_zero]
  constructor
  · intro h
    obtain ⟨first, htwiddle, h⟩ := Exec.bind_eq_ok.mp h
    obtain ⟨hcovers, rfl⟩ := twiddle_eq_ok_iff.mp htwiddle
    obtain ⟨next, hupdate, h⟩ := Exec.bind_eq_ok.mp h
    obtain ⟨old, hold, -⟩ := update_eq_ok.mp hupdate
    obtain ⟨hN, -⟩ := List.getElem?_eq_some_iff.mp hold
    rw [length_tabulate] at hN
    rw [hfirst, update_first coset hN] at hupdate
    cases hupdate
    rw [checkedSub_of_le hpower.le, ok_bind, checkedSub_of_le hone, ok_bind,
      twiddleRounds_eq_ok_iff hcoset hrounds hN] at h
    exact ⟨⟨hcovers, h.1⟩, h.2⟩
  · rintro ⟨⟨hcovers, hall⟩, hle, rfl⟩
    have hN : 0 < N := (Nat.two_pow_pos _).trans_le hle
    rw [twiddles, twiddle_eq_ok_iff.mpr ⟨hcovers, rfl⟩, ok_bind, hfirst,
      update_first coset hN, ok_bind, checkedSub_of_le hpower.le, ok_bind,
      checkedSub_of_le hone, ok_bind,
      twiddleRounds_eq_ok_iff hcoset hrounds hN]
    exact ⟨hall, hle, rfl⟩

/-- The factors that are computed in linear time are the ones that are computed
one by one, and the rest of the array stays. There is a result when the array
is long enough and each of the factors can be computed. -/
theorem twiddles_eq_twiddle {power coset : Nat} (hpower : currPower < power)
    (hcoset : 2 ^ power ∣ coset) (out : List Field2_128) :
    ((∃ result, twiddles currPower power coset out = .ok result) ↔
        2 ^ (power - currPower - 1) ≤ out.length ∧
          ∀ n, n < 2 ^ (power - currPower - 1) →
            ∃ value, twiddle currPower (coset + n * 2 ^ (currPower + 1)) =
              .ok value) ∧
      ∀ result, twiddles currPower power coset out = .ok result →
        result.length = out.length ∧
          (∀ n, n < 2 ^ (power - currPower - 1) →
            ∃ value, twiddle currPower (coset + n * 2 ^ (currPower + 1)) =
              .ok value ∧ result[n]? = some value) ∧
          ∀ n, 2 ^ (power - currPower - 1) ≤ n → result[n]? = out[n]? := by
  have hout := tabulate_getD out
  have hiff {result : List Field2_128} :=
    @twiddles_eq_ok_iff out.length currPower (fun p => out.getD p 0) result
      power coset hpower hcoset
  rw [hout] at hiff
  constructor
  · constructor
    · rintro ⟨result, h⟩
      obtain ⟨hcovers, hle, -⟩ := hiff.mp h
      exact ⟨hle, fun n hn => ⟨_, twiddle_eq_ok_iff.mpr ⟨hcovers n hn, rfl⟩⟩⟩
    · rintro ⟨hle, hall⟩
      refine ⟨_, hiff.mpr ⟨fun n hn => ?_, hle, rfl⟩⟩
      obtain ⟨value, hvalue⟩ := hall n hn
      exact (twiddle_eq_ok_iff.mp hvalue).1
  · intro result h
    obtain ⟨hcovers, hle, rfl⟩ := hiff.mp h
    refine ⟨length_tabulate, fun n hn => ?_, fun n hn => ?_⟩
    · refine ⟨_, twiddle_eq_ok_iff.mpr ⟨hcovers n hn, rfl⟩, ?_⟩
      rw [tabulate_getElem? (hn.trans_le hle), factors, if_pos hn]
      rfl
    · by_cases hlt : n < out.length
      · rw [tabulate_getElem? hlt, factors, if_neg (Nat.not_lt.mpr hn),
          List.getD_eq_getElem _ _ hlt, List.getElem?_eq_getElem hlt]
      · rw [List.getElem?_eq_none (by rw [length_tabulate]; omega),
          List.getElem?_eq_none (by omega)]

theorem twiddles_eq_twiddle_two :
    ((∃ result, twiddles 0 2 4 [0, 0] = .ok result) ↔
        2 ≤ 2 ∧ ∀ n, n < 2 → ∃ value, twiddle 0 (4 + n * 2) = .ok value) ∧
      ∀ result, twiddles 0 2 4 [0, 0] = .ok result →
        result.length = 2 ∧
          (∀ n, n < 2 → ∃ value, twiddle 0 (4 + n * 2) = .ok value ∧
            result[n]? = some value) ∧
          ∀ n, 2 ≤ n → result[n]? = ([0, 0] : List Field2_128)[n]? :=
  twiddles_eq_twiddle (by decide) (by decide) [0, 0]

end Twiddles

end Longfellow.Field2_128
