/-
Irreducible polynomials over finite fields whose degree is a power of two: the
polynomial divides the one whose roots are the elements of an extension of its
degree, and is coprime to that of the extension of half the degree.
-/
import Mathlib.FieldTheory.Finite.Extension

namespace Polynomial

variable {k : Type} [Field k] [Finite k]

/-- Every irreducible factor has the degree of the polynomial. -/
theorem irreducible_of_isCoprime {q : k[X]} {m : Nat}
    (hdegree : q.natDegree = 2 ^ (m + 1))
    (hdvd : q ∣ X ^ Nat.card k ^ 2 ^ (m + 1) - X)
    (hcoprime : IsCoprime q (X ^ Nat.card k ^ 2 ^ m - X)) :
    Irreducible q := by
  have hpos : 0 < q.natDegree := by
    rw [hdegree]
    exact Nat.two_pow_pos _
  have hne : q ≠ 0 := by
    intro h
    rw [h, natDegree_zero] at hpos
    exact Nat.lt_irrefl 0 hpos
  have hunit : ¬ IsUnit q := by
    intro h
    rw [natDegree_eq_zero_of_isUnit h] at hpos
    exact Nat.lt_irrefl 0 hpos
  obtain ⟨f, hf, hfq⟩ := WfDvdMonoid.exists_irreducible_factor hunit hne
  have hfdvd := hf.natDegree_dvd_of_dvd_X_pow_card_pow_sub_X (hfq.trans hdvd)
  obtain ⟨j, hj, hfdegree⟩ := (Nat.dvd_prime_pow Nat.prime_two).mp hfdvd
  have htop : j = m + 1 := by
    by_contra hlow
    have hhalf : f.natDegree ∣ 2 ^ m := by
      rw [hfdegree]
      exact pow_dvd_pow 2 (by omega)
    have hroots := hf.natDegree_dvd_iff_dvd_X_pow_card_pow_sub_X.mp hhalf
    exact hf.not_isUnit (hcoprime.isUnit_of_dvd' hfq hroots)
  have hassociated : Associated f q := by
    apply associated_of_dvd_of_natDegree_le hfq hne
    rw [hdegree, hfdegree, htop]
  exact hassociated.irreducible hf

end Polynomial
