/-
Random combinations of words. An affine form vanishes on few vectors, and a
random combination of words is rarely close to a linear code, unless all the
words are close to codewords in the same positions.
-/
import Mathlib.Algebra.BigOperators.Fin
import Mathlib.Algebra.Module.Submodule.Basic
import Mathlib.InformationTheory.Hamming
import Mathlib.LinearAlgebra.Lagrange

namespace Longfellow.Proximity

open Finset

section Counting

variable {ι F : Type} [Fintype ι] [DecidableEq ι] [Field F] [Fintype F]

/-- A set of vectors that meets the lines of one direction in at most one point
each is small. -/
theorem card_mul_le_of_line {S : Finset (ι → F)} (direction : ι → F)
    (h : ∀ v ∈ S, ∀ t : F, v + t • direction ∈ S → t = 0) :
    S.card * Fintype.card F ≤ Fintype.card F ^ Fintype.card ι := by
  classical
  have hinjective : Set.InjOn (fun pair : (ι → F) × F =>
      pair.1 + pair.2 • direction) (S ×ˢ (univ : Finset F) : Finset _) := by
    rintro ⟨v, t⟩ hv ⟨v', t'⟩ hv' heq
    rw [mem_coe, mem_product] at hv hv'
    simp only at heq
    have hv'_eq : v' = v + (t - t') • direction := by
      rw [sub_smul, ← add_sub_assoc, heq, add_sub_cancel_right]
    have hzero := h v hv.1 (t - t') (hv'_eq ▸ hv'.1)
    rw [hzero, zero_smul, add_zero] at hv'_eq
    rw [Prod.mk.injEq]
    exact ⟨hv'_eq.symm, sub_eq_zero.mp hzero⟩
  have hcard := card_le_card_of_injOn _ (fun _ _ => mem_univ _) hinjective
  rwa [card_product, card_univ, card_univ, Fintype.card_fun] at hcard

/-- An affine form that is not constant vanishes on few vectors. -/
theorem card_affine_mul_le [DecidableEq F] (constant : F) {coefficient : ι → F}
    {j : ι} (hj : coefficient j ≠ 0) :
    card {v : ι → F | constant + ∑ i, v i * coefficient i = 0} * Fintype.card F ≤
      Fintype.card F ^ Fintype.card ι := by
  refine card_mul_le_of_line (Pi.single j 1) fun v hv t ht => ?_
  rw [mem_filter_univ] at hv ht
  have hsum : ∑ i, (v + t • Pi.single j 1 : ι → F) i * coefficient i =
      ∑ i, v i * coefficient i + t * coefficient j := by
    simp [add_mul, sum_add_distrib, Pi.single_apply]
  rw [hsum, ← add_assoc, hv, zero_add] at ht
  exact (mul_eq_zero.mp ht).resolve_right hj

end Counting

section Closeness

variable {κ F : Type} [Fintype κ] [Field F] [DecidableEq F]
  {C : Submodule F (κ → F)} {d e : Nat}

/-- A word that differs from a codeword in few positions. -/
def Close (C : Submodule F (κ → F)) (e : Nat) (word : κ → F) : Prop :=
  ∃ c ∈ C, hammingDist word c ≤ e

theorem hammingDist_add_add_le (u v u' v' : κ → F) :
    hammingDist (u + v) (u' + v') ≤ hammingDist u u' + hammingDist v v' := by
  have hleft : hammingDist (u + v) (u' + v) ≤ hammingDist u u' := by
    refine hammingDist_comp_le_hammingDist (fun k x => x + v k)
  have hright : hammingDist (u' + v) (u' + v') ≤ hammingDist v v' := by
    refine hammingDist_comp_le_hammingDist (fun k x => u' k + x)
  exact (hammingDist_triangle _ (u' + v) _).trans (Nat.add_le_add hleft hright)

theorem hammingDist_smul_smul_le (t : F) (u v : κ → F) :
    hammingDist (t • u) (t • v) ≤ hammingDist u v :=
  hammingDist_comp_le_hammingDist (fun _ x => t * x)

theorem Close.sub {e' : Nat} {u v : κ → F} (hu : Close C e u)
    (hv : Close C e' v) : Close C (e + e') (u - v) := by
  obtain ⟨c, hc, hdist⟩ := hu
  obtain ⟨c', hc', hdist'⟩ := hv
  refine ⟨c - c', C.sub_mem hc hc', ?_⟩
  have hneg := hammingDist_smul_smul_le (-1) v c'
  have hadd := hammingDist_add_add_le u ((-1 : F) • v) c ((-1 : F) • c')
  rw [neg_one_smul, neg_one_smul] at hneg hadd
  rw [sub_eq_add_neg, sub_eq_add_neg]
  omega

theorem Close.smul {u : κ → F} (hu : Close C e u) (t : F) :
    Close C e (t • u) := by
  obtain ⟨c, hc, hdist⟩ := hu
  exact ⟨t • c, C.smul_mem t hc, (hammingDist_smul_smul_le t u c).trans hdist⟩

/-- Codewords that are closer than the distance of the code are equal. -/
theorem eq_of_hammingDist_lt (hd : ∀ c ∈ C, c ≠ 0 → d ≤ hammingNorm c)
    {c c' : κ → F} (hc : c ∈ C) (hc' : c' ∈ C) (hlt : hammingDist c c' < d) :
    c = c' := by
  by_contra hne
  rw [hammingDist_eq_hammingNorm, neg_add_eq_sub] at hlt
  exact absurd (hd _ (C.sub_mem hc' hc) (sub_ne_zero.mpr (Ne.symm hne)))
    hlt.not_ge

end Closeness

section Combinations

variable {ι κ F : Type} [Fintype ι] [DecidableEq ι] [Fintype κ] [Field F]
  [DecidableEq F] {C : Submodule F (κ → F)} {d e : Nat}

/-- A word plus a combination of others. -/
def combination (start : κ → F) (words : ι → κ → F) (v : ι → F) : κ → F :=
  start + ∑ i, v i • words i

omit [DecidableEq ι] [DecidableEq F] [Fintype κ] in
theorem combination_sub (start : κ → F) (words : ι → κ → F) (v v' : ι → F) :
    combination start words v - combination start words v' =
      ∑ i, (v - v') i • words i := by
  simp [combination, sub_smul, sum_sub_distrib]

/-- If all combinations of words are close to codewords, then one combines the
codewords as the words. -/
theorem hammingDist_sum_le (hd : ∀ c ∈ C, c ≠ 0 → d ≤ hammingNorm c)
    (he : 3 * e < d) {words codewords : ι → κ → F}
    (hcode : ∀ i, codewords i ∈ C)
    (hwords : ∀ i, hammingDist (words i) (codewords i) ≤ e)
    (hclose : ∀ v : ι → F, Close C e (∑ i, v i • words i)) (v : ι → F) :
    hammingDist (∑ i, v i • words i) (∑ i, v i • codewords i) ≤ e := by
  have hpart (s : Finset ι) :
      hammingDist (∑ i ∈ s, v i • words i) (∑ i ∈ s, v i • codewords i) ≤
        e := by
    induction s using Finset.induction_on with
    | empty => simp
    | insert i s hi ih =>
        have hsum : ∑ j, (fun j => if j ∈ insert i s then v j else 0) j •
            words j = ∑ j ∈ insert i s, v j • words j := by
          simp only [ite_smul, zero_smul, sum_ite_mem, univ_inter]
        obtain ⟨c, hc, hdist⟩ := hclose fun j => if j ∈ insert i s then v j else 0
        rw [hsum] at hdist
        have hnear : hammingDist (∑ j ∈ insert i s, v j • words j)
            (∑ j ∈ insert i s, v j • codewords j) ≤ e + e := by
          rw [sum_insert hi, sum_insert hi]
          exact (hammingDist_add_add_le _ _ _ _).trans (Nat.add_le_add
            ((hammingDist_smul_smul_le _ _ _).trans (hwords i)) ih)
        have hmem : ∑ j ∈ insert i s, v j • codewords j ∈ C :=
          C.sum_mem fun j _ => C.smul_mem _ (hcode j)
        have hlt := hammingDist_triangle_left c
          (∑ j ∈ insert i s, v j • codewords j)
          (∑ j ∈ insert i s, v j • words j)
        rwa [eq_of_hammingDist_lt hd hc hmem (by omega)] at hdist
  exact hpart univ

variable [Fintype F]

/-- If the words do not agree with codewords in all but `e` common positions,
then few of their combinations are close to the code. -/
theorem agree_or_card_close_le (hd : ∀ c ∈ C, c ≠ 0 → d ≤ hammingNorm c)
    (he : 6 * e < d) (start : κ → F) (words : ι → κ → F) :
    (∃ c ∈ C, ∃ codewords : ι → κ → F, (∀ i, codewords i ∈ C) ∧
      card {k | start k ≠ c k ∨ ∃ i, words i k ≠ codewords i k} ≤ e) ∨
    ∃ fooled : Finset (ι → F),
      fooled.card * Fintype.card F ≤
        (e + 1) * Fintype.card F ^ Fintype.card ι ∧
      ∀ v, Close C e (combination start words v) → v ∈ fooled := by
  classical
  set S : Finset (ι → F) := {v | Close C e (combination start words v)} with hS
  have hmem (v : ι → F) : v ∈ S ↔ Close C e (combination start words v) :=
    mem_filter_univ v
  have hcovers : ∀ v, Close C e (combination start words v) → v ∈ S :=
    fun v => (hmem v).mpr
  by_cases hline : ∃ b : ι → F, ¬ Close C (e + e) (∑ i, b i • words i)
  · -- On a line in a direction that is far from the code at most one is close.
    obtain ⟨b, hb⟩ := hline
    refine Or.inr ⟨S, ?_, hcovers⟩
    refine (card_mul_le_of_line b fun v hv t ht => ?_).trans
      (Nat.le_mul_of_pos_left _ (Nat.succ_pos e))
    by_contra hne
    have hsub := ((hmem _).mp ht).sub ((hmem v).mp hv)
    rw [combination_sub, add_sub_cancel_left] at hsub
    have hscaled := hsub.smul t⁻¹
    rw [smul_sum] at hscaled
    simp only [Pi.smul_apply, smul_smul, smul_eq_mul,
      inv_mul_cancel_left₀ hne] at hscaled
    exact hb hscaled
  push Not at hline
  rcases S.eq_empty_or_nonempty with hempty | ⟨v₀, hv₀⟩
  · exact Or.inr ⟨S, by rw [hempty]; simp, hcovers⟩
  obtain ⟨c₀, hc₀, hdist₀⟩ := (hmem v₀).mp hv₀
  have hnear (i : ι) : Close C (e + e) (words i) := by
    have h := hline (Pi.single i 1)
    simpa [Pi.single_apply] using h
  choose codewords hcode hwords using hnear
  -- The codewords that the combinations are close to are combinations, too.
  set c := c₀ - ∑ i, v₀ i • codewords i with hc
  have hcmem : c ∈ C := C.sub_mem hc₀ (C.sum_mem fun i _ =>
    C.smul_mem _ (hcode i))
  have hclose : ∀ v ∈ S, hammingDist (combination start words v)
      (combination c codewords v) ≤ e := by
    intro v hv
    obtain ⟨c', hc', hdist'⟩ := (hmem v).mp hv
    have hdiff := hammingDist_sum_le hd (by omega) hcode hwords hline (v - v₀)
    have hadd := hammingDist_add_add_le _ _ _ _ |>.trans
      (Nat.add_le_add hdist₀ hdiff)
    have hword : combination start words v₀ + ∑ i, (v - v₀) i • words i =
        combination start words v := by
      rw [← combination_sub start, add_sub_cancel]
    have hcodeword : c₀ + ∑ i, (v - v₀) i • codewords i =
        combination c codewords v := by
      rw [← combination_sub c, hc]
      simp [combination]
    rw [hword, hcodeword] at hadd
    have hcombined : combination c codewords v ∈ C :=
      C.add_mem hcmem (C.sum_mem fun i _ => C.smul_mem _ (hcode i))
    have hlt := hammingDist_triangle_left c' (combination c codewords v)
      (combination start words v)
    rwa [eq_of_hammingDist_lt hd hc' hcombined (by omega)] at hdist'
  by_cases hfew : card {k | start k ≠ c k ∨ ∃ i, words i k ≠ codewords i k} ≤ e
  · exact Or.inl ⟨c, hcmem, codewords, hcode, hfew⟩
  -- Each of `e + 1` errors is cancelled by few combinations.
  obtain ⟨errors, herrors, hcount⟩ :=
    exists_subset_card_eq (Nat.succ_le_of_lt (Nat.lt_of_not_le hfew))
  refine Or.inr ⟨S, ?_, hcovers⟩
  have hcancel (k : κ) (hk : k ∈ errors) :
      card {v : ι → F | (start k - c k) + ∑ i, v i * (words i k - codewords i k) =
        0} * Fintype.card F ≤ Fintype.card F ^ Fintype.card ι := by
    by_cases hsome : ∃ i, words i k ≠ codewords i k
    · obtain ⟨i, hi⟩ := hsome
      exact card_affine_mul_le _ (sub_ne_zero.mpr hi)
    · push Not at hsome
      have hstart := (((mem_filter_univ _).mp (herrors hk)).resolve_right
        (by simpa using hsome))
      rw [filter_false_of_mem, card_empty, zero_mul]
      · exact Nat.zero_le _
      · intro v _
        simpa [hsome] using sub_ne_zero.mpr hstart
  have hcover : S ⊆ errors.biUnion fun k =>
      {v : ι → F | (start k - c k) + ∑ i, v i * (words i k - codewords i k) =
        0} := by
    intro v hv
    have hle := hclose v hv
    by_contra hnone
    simp only [mem_biUnion, mem_filter_univ, not_exists, not_and] at hnone
    have hsub : errors ⊆ ({k | combination start words v k ≠
        combination c codewords v k} : Finset κ) := by
      intro k hk
      rw [mem_filter_univ]
      intro heq
      apply hnone k hk
      have hdiff := sub_eq_zero.mpr heq
      simp only [combination, Pi.add_apply, Finset.sum_apply, Pi.smul_apply,
        smul_eq_mul, add_sub_add_comm, ← sum_sub_distrib, ← mul_sub] at hdiff
      exact hdiff
    have hcard := card_le_card hsub
    rw [hammingDist] at hle
    omega
  calc S.card * Fintype.card F
      ≤ (∑ k ∈ errors, card {v : ι → F | (start k - c k) +
          ∑ i, v i * (words i k - codewords i k) = 0}) * Fintype.card F :=
        Nat.mul_le_mul_right _ ((card_le_card hcover).trans card_biUnion_le)
    _ ≤ ∑ _k ∈ errors, Fintype.card F ^ Fintype.card ι := by
        rw [sum_mul]
        exact sum_le_sum hcancel
    _ = (e + 1) * Fintype.card F ^ Fintype.card ι := by
        rw [sum_const, hcount, smul_eq_mul]

end Combinations

section Evaluations

open Polynomial

variable {κ F : Type} [Fintype κ] [Field F] [DecidableEq F] {node : κ → F}
  {n e : Nat}

/-- The values of the polynomials of low degree at the nodes. -/
def evaluations (node : κ → F) (n : Nat) : Submodule F (κ → F) where
  carrier := {word | ∃ p : F[X], p.degree < n ∧ ∀ k, word k = p.eval (node k)}
  add_mem' := by
    rintro u v ⟨p, hp, hu⟩ ⟨q, hq, hv⟩
    refine ⟨p + q, (degree_add_le p q).trans_lt (max_lt hp hq), fun k => ?_⟩
    rw [Pi.add_apply, hu, hv, eval_add]
  zero_mem' := by
    refine ⟨0, ?_, fun k => eval_zero.symm⟩
    rw [degree_zero]
    exact WithBot.bot_lt_coe n
  smul_mem' := by
    rintro t u ⟨p, hp, hu⟩
    refine ⟨t • p, (degree_smul_le t p).trans_lt hp, fun k => ?_⟩
    rw [Pi.smul_apply, hu, eval_smul]

/-- Different polynomials of low degree agree at few nodes. -/
theorem card_agree_lt (hnode : Function.Injective node) {p q : F[X]}
    (hp : p.degree < n) (hq : q.degree < n) (hne : p ≠ q) :
    card {k | p.eval (node k) = q.eval (node k)} < n := by
  by_contra hge
  have hle : (n : WithBot Nat) ≤
      card {k | p.eval (node k) = q.eval (node k)} := by
    exact_mod_cast Nat.not_lt.mp hge
  apply hne
  refine eq_of_degrees_lt_of_eval_index_eq _ hnode.injOn (hp.trans_le hle)
    (hq.trans_le hle) fun k hk => ?_
  rwa [mem_filter_univ] at hk

omit [Field F] in
theorem card_agree_add_hammingDist (u v : κ → F) :
    card {k | u k = v k} + hammingDist u v = Fintype.card κ :=
  card_filter_add_card_filter_not _

theorem evaluations_distance (hnode : Function.Injective node) :
    ∀ c ∈ evaluations node n, c ≠ 0 → Fintype.card κ + 1 - n ≤ hammingNorm c := by
  rintro c ⟨p, hp, hc⟩ hne
  have hp0 : p ≠ 0 := by
    rintro rfl
    exact hne (funext fun k => (hc k).trans eval_zero)
  have hzero : (0 : F[X]).degree < n := by
    rw [degree_zero]
    exact WithBot.bot_lt_coe n
  have hfew := card_agree_lt hnode hp hzero hp0
  have hcount := card_agree_add_hammingDist c 0
  rw [hammingDist_zero_right] at hcount
  simp only [eval_zero, ← hc] at hfew
  simp only [Pi.zero_apply] at hcount
  omega

/-- A word agrees with one polynomial of low degree at most: with all others it
agrees at few nodes. -/
theorem exists_card_agree_le (hnode : Function.Injective node)
    (word : κ → F) (n e : Nat) :
    ∃ q : F[X], q.degree < n ∧ ∀ r : F[X], r.degree < n → r ≠ q →
      card {k | word k = r.eval (node k)} + e ≤
        max (Fintype.card κ - e - 1) (n - 1 + 3 * e) := by
  by_cases hclose : Close (evaluations node n) (2 * e) word
  · classical
    obtain ⟨c, ⟨q, hq, hc⟩, hdist⟩ := hclose
    refine ⟨q, hq, fun r hr hne => le_max_of_le_right ?_⟩
    have hfew := card_agree_lt hnode hr hq hne
    have hcover : ({k | word k = r.eval (node k)} : Finset κ) ⊆
        ({k | word k ≠ c k} : Finset κ) ∪
          ({k | r.eval (node k) = q.eval (node k)} : Finset κ) := by
      intro k hk
      rw [mem_filter_univ] at hk
      rw [mem_union, mem_filter_univ, mem_filter_univ, ← hk, ← hc]
      exact (em (word k = c k)).symm
    have hcard := (card_le_card hcover).trans (card_union_le _ _)
    rw [hammingDist] at hdist
    omega
  · have hzero : (0 : F[X]).degree < n := by
      rw [degree_zero]
      exact WithBot.bot_lt_coe n
    refine ⟨0, hzero, fun r hr _ => le_max_of_le_left ?_⟩
    have hcount := card_agree_add_hammingDist word fun k => r.eval (node k)
    have hfar : 2 * e < hammingDist word fun k => r.eval (node k) := by
      by_contra hle
      exact hclose ⟨_, ⟨r, hr, fun _ => rfl⟩, Nat.not_lt.mp hle⟩
    omega

/-- A word, to which a polynomial is added outside of few nodes, agrees with few
other polynomials than the sum. -/
theorem card_agree_sum_le {word value : κ → F} {q sum r : F[X]} {bound : Nat}
    {errors : Finset κ}
    (hunique : ∀ r : F[X], r.degree < n → r ≠ q →
      card {k | word k = r.eval (node k)} + e ≤ bound)
    (herrors : errors.card ≤ e)
    (hvalue : ∀ k ∉ errors, value k = word k + (sum - q).eval (node k))
    (hq : q.degree < n) (hsum : sum.degree < n) (hr : r.degree < n)
    (hne : r ≠ sum) : card {k | value k = r.eval (node k)} ≤ bound := by
  classical
  have hdegree : (r - (sum - q)).degree < n :=
    (degree_sub_le _ _).trans_lt
      (max_lt hr ((degree_sub_le _ _).trans_lt (max_lt hsum hq)))
  have hshift : r - (sum - q) ≠ q := by
    intro heq
    rw [sub_eq_iff_eq_add, add_sub_cancel] at heq
    exact hne heq
  have hfew := hunique _ hdegree hshift
  have hcover : ({k | value k = r.eval (node k)} : Finset κ) ⊆
      errors ∪ ({k | word k = (r - (sum - q)).eval (node k)} : Finset κ) := by
    intro k hk
    rw [mem_filter_univ] at hk
    rw [mem_union, mem_filter_univ]
    refine or_iff_not_imp_left.mpr fun hout => ?_
    rw [eval_sub, ← hk, hvalue k hout, add_sub_cancel_right]
  have hcard := (card_le_card hcover).trans (card_union_le _ _)
  omega

end Evaluations

end Longfellow.Proximity
