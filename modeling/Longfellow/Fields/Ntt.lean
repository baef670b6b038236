/-
Number theoretic transforms in place: the loops over butterflies are the stages
of the transform.
-/
import Longfellow.Lib.Exec
import Longfellow.Lib.Ntt
import Mathlib.Algebra.Field.Basic

namespace Longfellow

open Exec Ntt

/-- An element of a field whose multiplicative group has subgroups of orders
that are large powers of two. -/
class NttFieldElement (F : Type) where
  /-- Roots of unity, where the one at index `i` has order `2 ^ i`. -/
  rootsOfUnity : List F
  rootsOfUnityInverses : List F
  /-- The multiplicative inverse of 2. -/
  half : F

export NttFieldElement (rootsOfUnity rootsOfUnityInverses half)

/-- A table of 32 roots of unity and one of their inverses. The first root is
one, the second is not, and every root is the square of the next one. -/
structure ValidRoots {F : Type} [Field F] (roots inverses : List F) :
    Prop where
  length_roots : roots.length = 32
  length_inverses : inverses.length = 32
  zero : roots.getD 0 0 = 1
  one : roots.getD 1 0 ≠ 1
  square : ∀ i, i < 31 → roots.getD (i + 1) 0 ^ 2 = roots.getD i 0
  inverse : ∀ i, i < 32 → roots.getD i 0 * inverses.getD i 0 = 1

/-- The constants are what their names say. -/
class LawfulNtt (F : Type) [Field F] [NttFieldElement F] : Prop where
  validRoots : ValidRoots (rootsOfUnity : List F) rootsOfUnityInverses
  two_mul_half : 2 * (half : F) = 1

section Model

variable {F : Type}

/-- The numbers below `stop` that are reached in steps. -/
def stepBy (start stop step : Nat) : List Nat :=
  (List.range ((stop - start + step - 1) / step)).map fun k => start + k * step

/-- A butterfly on the elements at an index and at a stride after it. -/
def butterflyAt (butterfly : F → F → F × F) (stride : Nat) (values : List F)
    (j : Nat) : Exec (List F) := do
  let x ← index values j
  let y ← index values (j + stride)
  let values ← update values j fun _ => (butterfly x y).1
  update values (j + stride) fun _ => (butterfly x y).2

/-- The butterflies at the same place of every block. -/
def butterflies (butterfly : F → F → F × F) (stride i : Nat)
    (values : List F) : Exec (List F) :=
  (stepBy i values.length (stride * 2)).foldlM (butterflyAt butterfly stride)
    values

variable [Field F]

/-- A stage of butterflies. The first place of the blocks is unrolled, and the
power of the root is accumulated over the others. -/
def butterflyStage (first : F → F → F × F) (butterfly : F → F → F → F × F)
    (omega : F) (stride : Nat) (values : List F) : Exec (List F) := do
  let values ← butterflies first stride 0 values
  let (values, _) ← ((List.range stride).drop 1).foldlM
    (fun (values, omegaPower) i => do
      let values ← butterflies (butterfly omegaPower) stride i values
      pure (values, omegaPower * omega))
    (values, omega)
  pure values

/-- The logarithm of the number of values, which must be a power of two. -/
def logLength (values : List F) (name : String) : Exec Nat := do
  assert (0 < values.length)
    "argument of integer logarithm must be positive"
  let logN := Nat.log2 values.length
  assert (2 ^ logN = values.length) ("length of input to " ++ name ++ " was " ++
    toString values.length ++ ", which is not a power of two")
  pure logN

/-- The elements of a table at the indices from 1 to the given one. -/
def tableFrom1 (table : List F) (last : Nat) : Exec (List F) := do
  assert (last < table.length) "range end index out of range for slice"
  pure ((table.take (last + 1)).drop 1)

variable [NttFieldElement F]

/-- The number theoretic transform of a sequence, in bit-reversed order. -/
def nttBitReversed (values : List F) : Exec (List F) := do
  let logN ← logLength values "NTT"
  if values.length = 1 then
    pure values
  else do
    let omegas ← tableFrom1 rootsOfUnity logN
    let (values, _) ← omegas.reverse.foldlM
      (fun (values, stride) omega => do
        let values ← butterflyStage (fun x y => (x + y, x - y))
          (fun omegaPower x y => (x + y, (x - y) * omegaPower)) omega stride
          values
        pure (values, stride / 2))
      (values, 2 ^ (logN - 1))
    pure values

/-- The inverse of the transform, from bit-reversed order, scaled by the number
of the values. -/
def scaledInverseNttBitReversed (values : List F) : Exec (List F) := do
  let logN ← logLength values "inverse NTT"
  if values.length = 1 then
    pure values
  else do
    let omegaInverses ← tableFrom1 rootsOfUnityInverses logN
    let (values, _) ← omegaInverses.foldlM
      (fun (values, stride) omegaInv => do
        let values ← butterflyStage (fun x y => (x + y, x - y))
          (fun omegaPower x y => (x + y * omegaPower, x - y * omegaPower))
          omegaInv stride values
        pure (values, stride * 2))
      (values, 1)
    pure values

end Model

section Tables

variable {F : Type} [Field F]

theorem tableFrom1_eq {table : List F} {n : Nat} (hn : n < table.length) :
    tableFrom1 table n =
      .ok ((List.range n).map fun i => table.getD (i + 1) 0) := by
  rw [tableFrom1, assert_of hn, ok_bind]
  change Except.ok _ = _
  congr 1
  apply List.ext_getElem?
  intro i
  by_cases hi : i < n
  · rw [List.getElem?_drop, List.getElem?_take_of_lt (by omega)]
    simp [hi, Nat.add_comm 1, List.getElem?_eq_getElem
      (show i + 1 < table.length by omega)]
  · rw [List.getElem?_eq_none (by simp; omega),
      List.getElem?_eq_none (by simp; omega)]

omit [Field F] in
theorem logLength_eq {values : List F} {name : String} {n : Nat}
    (hlength : values.length = 2 ^ n) : logLength values name = .ok n := by
  have hlog : Nat.log2 values.length = n := by
    rw [hlength, Nat.log2_two_pow]
  have hpos : 0 < values.length := by
    rw [hlength]
    exact Nat.two_pow_pos n
  rw [logLength, assert_of hpos, ok_bind, hlog]
  simp only [assert_of hlength.symm, ok_bind, pure_eq_ok]

end Tables

section Loops

variable {F : Type} {N stride : Nat} {v : Nat → F}
  {butterfly : Nat → F → F → F × F}

/-- The first `N` values of a sequence. -/
def tabulate (N : Nat) (v : Nat → F) : List F := (List.range N).map v

@[simp] theorem length_tabulate : (tabulate N v).length = N := by
  simp [tabulate]

theorem tabulate_getElem? {p : Nat} (hp : p < N) :
    (tabulate N v)[p]? = some (v p) := by
  simp [tabulate, hp]

theorem tabulate_congr {v w : Nat → F} (h : ∀ p, p < N → v p = w p) :
    tabulate N v = tabulate N w := by
  apply List.map_congr_left
  intro p hp
  exact h p (List.mem_range.mp hp)

theorem tabulate_getD [Zero F] (values : List F) :
    tabulate values.length (fun p => values.getD p 0) = values := by
  apply List.ext_getElem
  · simp
  · intro i _ hi
    simp [tabulate, hi]

theorem index_tabulate {p : Nat} (hp : p < N) :
    index (tabulate N v) p = .ok (v p) :=
  index_eq_ok.mpr (tabulate_getElem? hp)

theorem update_tabulate {p : Nat} (hp : p < N) (x : F) :
    update (tabulate N v) p (fun _ => x) =
      .ok (tabulate N (Function.update v p x)) := by
  rw [update_of_lt (by rwa [length_tabulate])]
  congr 1
  apply List.ext_getElem?
  intro i
  by_cases hi : i < N
  · rw [tabulate_getElem? hi]
    by_cases heq : i = p
    · subst heq
      rw [List.getElem?_set_self (by rwa [length_tabulate]),
        Function.update_self]
    · rw [List.getElem?_set_ne (Ne.symm heq), tabulate_getElem? hi,
        Function.update_of_ne heq]
  · have hlength : N ≤ i := Nat.not_lt.mp hi
    rw [List.getElem?_eq_none (by simpa using hlength),
      List.getElem?_eq_none (by simpa using hlength)]

/-- A stage that has been done at some of the positions. -/
def partialStage (stride : Nat) (butterfly : Nat → F → F → F × F)
    (v : Nat → F) (done : Nat → Prop) [DecidablePred done] (p : Nat) : F :=
  if done p then stage stride butterfly v p else v p

section Partial

variable {done done' : Nat → Prop} [DecidablePred done] [DecidablePred done']

/-- A butterfly on a pair that has not been done. -/
theorem butterflyAt_partway {q i : Nat} (hi : i < stride)
    (hbound : q * (2 * stride) + i + stride < N)
    (hlow : ¬ done (q * (2 * stride) + i))
    (hhigh : ¬ done (q * (2 * stride) + i + stride))
    (hdone : ∀ p, done' p ↔ done p ∨ p = q * (2 * stride) + i ∨
      p = q * (2 * stride) + i + stride) :
    butterflyAt (butterfly i) stride
        (tabulate N (partialStage stride butterfly v done))
        (q * (2 * stride) + i) =
      .ok (tabulate N (partialStage stride butterfly v done')) := by
  set j := q * (2 * stride) + i with hj
  have hx : partialStage stride butterfly v done j = v j := if_neg hlow
  have hy : partialStage stride butterfly v done (j + stride) =
      v (j + stride) := if_neg hhigh
  have hjN : j < N := Nat.lt_of_le_of_lt (Nat.le_add_right j stride) hbound
  rw [butterflyAt, index_tabulate hjN, ok_bind, index_tabulate hbound, ok_bind,
    hx, hy, update_tabulate hjN, ok_bind, update_tabulate hbound]
  congr 1
  apply tabulate_congr
  intro p _
  by_cases hpy : p = j + stride
  · subst hpy
    rw [Function.update_self, partialStage,
      if_pos ((hdone _).mpr (Or.inr (Or.inr rfl))), hj, stage_high hi]
  · rw [Function.update_of_ne hpy]
    by_cases hpx : p = j
    · subst hpx
      rw [Function.update_self, partialStage,
        if_pos ((hdone _).mpr (Or.inr (Or.inl rfl))), hj, stage_low hi]
    · rw [Function.update_of_ne hpx, partialStage, partialStage]
      have hsame : done' p ↔ done p := by
        rw [hdone]
        simp [hpx, hpy]
      simp only [hsame]

end Partial

theorem stepBy_blocks {i m : Nat} (hi : i < stride) :
    stepBy i (m * (2 * stride)) (stride * 2) =
      (List.range m).map fun q => q * (2 * stride) + i := by
  have hcount : (m * (2 * stride) - i + stride * 2 - 1) / (stride * 2) = m := by
    cases m with
    | zero =>
        rw [Nat.zero_mul, Nat.zero_sub, Nat.zero_add]
        exact Nat.div_eq_of_lt (by omega)
    | succ m =>
        have hsplit : (m + 1) * (2 * stride) - i + stride * 2 - 1 =
            stride * 2 * (m + 1) + (2 * stride - 1 - i) := by
          have hmul : (m + 1) * (2 * stride) =
              stride * 2 * (m + 1) := by ring
          have hle : 2 * stride ≤ (m + 1) * (2 * stride) :=
            Nat.le_mul_of_pos_left _ (Nat.succ_pos m)
          omega
        rw [hsplit, Nat.mul_add_div (by omega), Nat.div_eq_of_lt (by omega),
          Nat.add_zero]
  rw [stepBy, hcount]
  apply List.map_congr_left
  intro q _
  ring

/-- The butterflies at one place do the stage at the positions of that place.
The places before it have been done. -/
theorem butterflies_partway {i m : Nat} (hi : i < stride) :
    butterflies (butterfly i) stride i
        (tabulate (m * (2 * stride))
          (partialStage stride butterfly v fun p => p % stride < i)) =
      .ok (tabulate (m * (2 * stride))
        (partialStage stride butterfly v fun p => p % stride < i + 1)) := by
  have hmod (q : Nat) : (q * (2 * stride) + i) % stride = i := by
    have hmul : q * (2 * stride) = stride * (q * 2) := by ring
    rw [hmul, Nat.mul_add_mod, Nat.mod_eq_of_lt hi]
  have hloop := Returns.foldlM (f := butterflyAt (butterfly i) stride)
    (I := fun k values => values = tabulate (m * (2 * stride))
      (partialStage stride butterfly v fun p =>
        p % stride < i ∨ p % stride = i ∧ p < k * (2 * stride)))
    ((List.range m).map fun q => q * (2 * stride) + i)
    (s := tabulate (m * (2 * stride))
      (partialStage stride butterfly v fun p => p % stride < i))
    (by
      apply tabulate_congr
      intro p _
      simp [partialStage])
    (by
      rintro k hk values rfl
      rw [List.length_map, List.length_range] at hk
      rw [List.getElem_map, List.getElem_range]
      have hend : (k + 1) * (2 * stride) ≤ m * (2 * stride) :=
        Nat.mul_le_mul_right _ hk
      rw [Nat.succ_mul] at hend
      refine Returns.of_eq (butterflyAt_partway hi (by omega) ?_ ?_ ?_) rfl
      · rw [hmod]
        omega
      · rw [Nat.add_mod_right, hmod]
        omega
      · intro p
        rw [Nat.succ_mul]
        constructor
        · rintro (hlt | ⟨heq, hlt⟩)
          · exact Or.inl (Or.inl hlt)
          · by_cases hbefore : p < k * (2 * stride)
            · exact Or.inl (Or.inr ⟨heq, hbefore⟩)
            · -- The position is in the block, at the place or a stride later.
              obtain ⟨c, rfl⟩ :=
                Nat.exists_eq_add_of_le (Nat.not_lt.mp hbefore)
              have hmul : k * (2 * stride) = stride * (k * 2) := by ring
              rw [hmul, Nat.mul_add_mod] at heq
              have hc : c < 2 * stride := by omega
              by_cases hlow : c < stride
              · rw [Nat.mod_eq_of_lt hlow] at heq
                omega
              · rw [Nat.mod_eq_sub_mod (Nat.not_lt.mp hlow),
                  Nat.mod_eq_of_lt (by omega)] at heq
                omega
        · rintro ((hlt | ⟨heq, hlt⟩) | rfl | rfl)
          · exact Or.inl hlt
          · exact Or.inr ⟨heq, by omega⟩
          · exact Or.inr ⟨hmod k, by omega⟩
          · exact Or.inr ⟨by rw [Nat.add_mod_right, hmod], by omega⟩)
  obtain ⟨values, hvalues, hresult⟩ := hloop
  rw [butterflies, length_tabulate, stepBy_blocks hi, hvalues, hresult,
    List.length_map, List.length_range]
  congr 1
  apply tabulate_congr
  intro p hp
  rw [partialStage, partialStage]
  have hsame : (p % stride < i ∨ p % stride = i ∧ p < m * (2 * stride)) ↔
      p % stride < i + 1 := by
    omega
  simp only [hsame]

/-- The loops of a stage do the stage at all positions. -/
theorem butterflyStage_tabulate [Field F] {first : F → F → F × F}
    {accumulated : F → F → F → F × F} {omega : F} {m : Nat}
    (hpos : 0 < stride) (hfirst : first = butterfly 0)
    (haccumulated : ∀ i, accumulated (omega ^ i) = butterfly i) :
    butterflyStage first accumulated omega stride
        (tabulate (m * (2 * stride)) v) =
      .ok (tabulate (m * (2 * stride)) (stage stride butterfly v)) := by
  have hnone : tabulate (m * (2 * stride)) v = tabulate (m * (2 * stride))
      (partialStage stride butterfly v fun p => p % stride < 0) := by
    apply tabulate_congr
    intro p _
    exact (if_neg (Nat.not_lt_zero _)).symm
  have hloop := Returns.foldlM
    (f := fun (state : List F × F) i => do
      let values ← butterflies (accumulated state.2) stride i state.1
      pure (values, state.2 * omega))
    (I := fun k state => state.1 = tabulate (m * (2 * stride))
        (partialStage stride butterfly v fun p => p % stride < k + 1) ∧
      state.2 = omega ^ (k + 1))
    ((List.range stride).drop 1)
    (s := (tabulate (m * (2 * stride))
      (partialStage stride butterfly v fun p => p % stride < 0 + 1), omega))
    ⟨rfl, (pow_one omega).symm⟩
    (by
      rintro k hk ⟨values, power⟩ ⟨hvalues, hpower⟩
      simp only at hvalues hpower
      subst hvalues hpower
      rw [List.length_drop, List.length_range] at hk
      have hget : ((List.range stride).drop 1)[k]? = some (k + 1) := by
        rw [List.getElem?_drop, List.getElem?_range (by omega), Nat.add_comm]
      rw [(List.getElem?_eq_some_iff.mp hget).2]
      refine ⟨(_, _), ?_, rfl, (pow_succ omega (k + 1)).symm⟩
      rw [haccumulated, butterflies_partway (by omega), ok_bind]
      rfl)
  obtain ⟨⟨values, power⟩, hresult, hvalues, -⟩ := hloop
  rw [List.length_drop, List.length_range, Nat.sub_add_cancel hpos] at hvalues
  rw [butterflyStage, hnone, hfirst, butterflies_partway hpos, ok_bind, hresult,
    ok_bind]
  simp only at hvalues
  rw [hvalues]
  change Except.ok _ = _
  congr 1
  apply tabulate_congr
  intro p _
  exact if_pos (Nat.mod_lt p hpos)

end Loops

section Transforms

variable {F : Type} [Field F]

theorem forwardStage_tabulate {omega : F} {stride m : Nat} (hpos : 0 < stride)
    (v : Nat → F) :
    butterflyStage (fun x y => (x + y, x - y))
        (fun omegaPower x y => (x + y, (x - y) * omegaPower)) omega stride
        (tabulate (m * (2 * stride)) v) =
      .ok (tabulate (m * (2 * stride))
        (stage stride (forwardButterfly omega) v)) := by
  apply butterflyStage_tabulate hpos
  · funext x y
    rw [forwardButterfly, pow_zero, mul_one]
  · intro i
    rfl

theorem inverseStage_tabulate {omega : F} {stride m : Nat} (hpos : 0 < stride)
    (v : Nat → F) :
    butterflyStage (fun x y => (x + y, x - y))
        (fun omegaPower x y => (x + y * omegaPower, x - y * omegaPower)) omega
        stride (tabulate (m * (2 * stride)) v) =
      .ok (tabulate (m * (2 * stride))
        (stage stride (inverseButterfly omega) v)) := by
  apply butterflyStage_tabulate hpos
  · funext x y
    rw [inverseButterfly, pow_zero, mul_one]
  · intro i
    rfl

/-- The stages from the largest stride to the smallest. -/
theorem forward_foldlM (root : Nat → F) (k m stride : Nat)
    (hstride : k ≠ 0 → stride = 2 ^ (k - 1)) (v : Nat → F) :
    Returns (((List.range k).map fun i => root (i + 1)).reverse.foldlM
      (fun (values, stride) omega => do
        let values ← butterflyStage (fun x y => (x + y, x - y))
          (fun omegaPower x y => (x + y, (x - y) * omegaPower)) omega stride
          values
        pure (values, stride / 2))
      (tabulate (m * 2 ^ k) v, stride)) fun state =>
        state.1 = tabulate (m * 2 ^ k) (forward root k v) := by
  induction k generalizing m stride v with
  | zero => exact Returns.of_eq rfl rfl
  | succ k ih =>
      obtain rfl := hstride (Nat.succ_ne_zero k)
      have hsize : m * 2 ^ (k + 1) = m * (2 * 2 ^ k) := by rw [pow_succ']
      have hhalf : m * (2 * 2 ^ k) = m * 2 * 2 ^ k := by ring
      rw [List.range_succ, List.map_append, List.reverse_append, List.map_cons,
        List.map_nil, List.reverse_singleton, List.singleton_append,
        List.foldlM_cons, Nat.add_sub_cancel, hsize]
      simp only [forwardStage_tabulate (Nat.two_pow_pos k), ok_bind, pure_eq_ok]
      rw [hhalf]
      apply ih
      intro hne
      obtain ⟨k, rfl⟩ := Nat.exists_eq_succ_of_ne_zero hne
      rw [pow_succ, Nat.mul_div_cancel _ Nat.two_pos]
      rfl

/-- The inverse stages from the smallest stride to the largest. -/
theorem inverse_foldlM (root : Nat → F) {k n : Nat} (hk : k ≤ n) (v : Nat → F) :
    ((List.range k).map fun i => root (i + 1)).foldlM
      (fun (values, stride) omega => do
        let values ← butterflyStage (fun x y => (x + y, x - y))
          (fun omegaPower x y => (x + y * omegaPower, x - y * omegaPower)) omega
          stride values
        pure (values, stride * 2))
      (tabulate (2 ^ n) v, 1) =
        (.ok (tabulate (2 ^ n) (inverse root k v), 2 ^ k) :
          Exec (List F × Nat)) := by
  induction k with
  | zero => rfl
  | succ k ih =>
      have hsize : 2 ^ n = 2 ^ (n - (k + 1)) * (2 * 2 ^ k) := by
        rw [← pow_succ', ← pow_add, Nat.sub_add_cancel hk]
      rw [List.range_succ, List.map_append, List.foldlM_append,
        ih (Nat.le_of_succ_le hk), ok_bind, List.map_cons, List.map_nil,
        List.foldlM_cons, hsize]
      simp only [inverseStage_tabulate (Nat.two_pow_pos k), ok_bind, pure_eq_ok,
        List.foldlM_nil, inverse, pow_succ]

namespace ValidRoots

variable {roots inverses : List F} (h : ValidRoots roots inverses)

include h

/-- The roots are a chain. -/
theorem rootChain : RootChain 31 fun i => roots.getD i 0 := by
  refine ⟨h.square, fun k hk => ?_⟩
  induction k with
  | zero =>
      have hsquare := h.square 0 (by omega)
      rw [h.zero, pow_two] at hsquare
      rw [pow_zero, pow_one]
      exact (mul_self_eq_one_iff.mp hsquare).resolve_left h.one
  | succ k ih =>
      have hsquare := h.square (k + 1) hk
      rw [pow_succ', pow_mul, hsquare]
      exact ih (Nat.lt_of_succ_lt hk)

theorem tableFrom1_roots {n : Nat} (hn : n ≤ 31) :
    tableFrom1 roots n = .ok ((List.range n).map fun i =>
      roots.getD (i + 1) 0) := by
  have hlength := h.length_roots
  exact tableFrom1_eq (by omega)

theorem tableFrom1_inverses {n : Nat} (hn : n ≤ 31) :
    tableFrom1 inverses n = .ok ((List.range n).map fun i =>
      inverses.getD (i + 1) 0) := by
  have hlength := h.length_inverses
  exact tableFrom1_eq (by omega)

end ValidRoots

variable [NttFieldElement F]

/-- The root of unity of order `2 ^ n` in the table. -/
def rootOfUnity (n : Nat) : F := (rootsOfUnity : List F).getD n 0

/-- The transform is the stages of the forward transform. -/
theorem nttBitReversed_tabulate
    (h : ValidRoots (rootsOfUnity : List F) rootsOfUnityInverses) {n : Nat}
    (hn : n ≤ 31) (v : Nat → F) :
    nttBitReversed (tabulate (2 ^ n) v) =
      .ok (tabulate (2 ^ n) (forward rootOfUnity n v)) := by
  rw [nttBitReversed, logLength_eq length_tabulate, ok_bind, length_tabulate]
  by_cases hone : 2 ^ n = 1
  · obtain rfl : n = 0 := by
      rcases Nat.pow_eq_one.mp hone with h | h
      · cases h
      · exact h
    rw [if_pos hone]
    rfl
  · obtain ⟨⟨values, stride⟩, hresult, hvalues⟩ :=
      forward_foldlM (rootOfUnity : Nat → F) n 1 (2 ^ (n - 1)) (fun _ => rfl) v
    rw [Nat.one_mul] at hresult hvalues
    simp only at hvalues
    rw [if_neg hone, h.tableFrom1_roots hn, ok_bind]
    simp only [rootOfUnity] at hresult
    rw [hresult, hvalues]
    rfl

/-- The inverse transform is the stages of the inverse transform. -/
theorem scaledInverseNttBitReversed_tabulate
    (h : ValidRoots (rootsOfUnity : List F) rootsOfUnityInverses) {n : Nat}
    (hn : n ≤ 31) (v : Nat → F) :
    scaledInverseNttBitReversed (tabulate (2 ^ n) v) =
      .ok (tabulate (2 ^ n) (inverse
        (fun i => (rootsOfUnityInverses : List F).getD i 0) n v)) := by
  rw [scaledInverseNttBitReversed, logLength_eq length_tabulate, ok_bind,
    length_tabulate]
  by_cases hone : 2 ^ n = 1
  · obtain rfl : n = 0 := by
      rcases Nat.pow_eq_one.mp hone with h | h
      · cases h
      · exact h
    rw [if_pos hone]
    rfl
  · rw [if_neg hone, h.tableFrom1_inverses hn, ok_bind,
      inverse_foldlM (fun i => (rootsOfUnityInverses : List F).getD i 0)
        (Nat.le_refl n) v]
    rfl

open Finset in
/-- The transform leaves the value at a power of the root of unity at the
bit-reversal of the exponent, and the inverse transform gives back the values
in their order, times their number. -/
theorem nttBitReversed_transforms
    (h : ValidRoots (rootsOfUnity : List F) rootsOfUnityInverses) {n : Nat}
    (hn : n ≤ 31) {values : List F} (hlength : values.length = 2 ^ n) :
    ∃ transformed, nttBitReversed values = .ok transformed ∧
      transformed.length = 2 ^ n ∧
      (∀ j, j < 2 ^ n → transformed[bitReverse n j]? =
        some (∑ i ∈ range (2 ^ n),
          values.getD i 0 * rootOfUnity n ^ (i * j))) ∧
      scaledInverseNttBitReversed transformed =
        .ok (values.map fun value => (2 ^ n : Nat) * value) := by
  set v : Nat → F := fun p => values.getD p 0 with hv
  have hvalues : tabulate (2 ^ n) v = values := by
    rw [← hlength]
    exact tabulate_getD values
  refine ⟨tabulate (2 ^ n) (forward rootOfUnity n v), ?_, length_tabulate,
    fun j hj => ?_, ?_⟩
  · rw [← nttBitReversed_tabulate h hn, hvalues]
  · rw [tabulate_getElem? (bitReverse_lt n j)]
    have hblock := forward_bitReverse h.rootChain hn v 0 hj
    simp only [Nat.zero_mul, Nat.zero_add] at hblock
    exact congrArg some hblock
  · rw [scaledInverseNttBitReversed_tabulate h hn]
    have hinverse : ∀ i, i < n → (rootOfUnity (i + 1) : F) *
        (rootsOfUnityInverses : List F).getD (i + 1) 0 = 1 :=
      fun i hi => h.inverse (i + 1) (by omega)
    rw [inverse_forward hinverse]
    congr 1
    rw [tabulate, ← hvalues, tabulate, List.map_map]
    apply List.map_congr_left
    intro p _
    simp

/-- A list of more than `2 ^ 31` values, or of a number of values that is no
power of two, is refused. -/
theorem nttBitReversed_eq_ok {values transformed : List F}
    (hlength : (rootsOfUnity : List F).length = 32)
    (h : nttBitReversed values = .ok transformed) :
    ∃ n, n ≤ 31 ∧ values.length = 2 ^ n := by
  obtain ⟨logN, hlog, h⟩ := Exec.bind_eq_ok.mp h
  obtain ⟨_, -, hlog⟩ := Exec.bind_eq_ok.mp hlog
  obtain ⟨_, hpower, hlog⟩ := Exec.bind_eq_ok.mp hlog
  obtain rfl := Except.ok.inj hlog
  have hpower := assert_eq_ok.mp hpower
  refine ⟨_, ?_, hpower.symm⟩
  by_cases hone : values.length = 1
  · rw [hone]
    decide
  · rw [if_neg hone] at h
    obtain ⟨omegas, homegas, -⟩ := Exec.bind_eq_ok.mp h
    obtain ⟨_, hrange, -⟩ := Exec.bind_eq_ok.mp homegas
    have hrange := assert_eq_ok.mp hrange
    omega

end Transforms

end Longfellow
