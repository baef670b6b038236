/-
Dense sumcheck arrays: binding an array to a field element in place, and the
table of equality weights.
-/
import Longfellow.Fields

namespace Longfellow

open Exec Multilinear ProofFieldElement

variable {F : Type} [Field F] [ProofFieldElement F]

/-- What an array is bound to. -/
inductive Binding (F : Type) where
  | zero
  | sumcheckP2
  | other (x : F)

/-- The field element a binding stands for. -/
def Binding.value : Binding F → F
  | .zero => 0
  | .sumcheckP2 => ProofFieldElement.sumcheckP2
  | .other x => x

/-- Retrieve the element at the index, or zero if no element is defined. -/
def element {F : Type} [Field F] (array : List F) (i : Nat) : F :=
  array.getD i 0

/-- Compute only the `i`-th element of the array bound to `binding`. -/
def boundElementAt (array : List F) (binding : Binding F) (i : Nat) : F :=
  let slowPath (x : F) :=
    element array (2 * i) +
      x * (element array (2 * i + 1) - element array (2 * i))
  match binding with
  | .zero => element array (2 * i)
  | .sumcheckP2 =>
      if largeCharacteristic F then
        element array (2 * i + 1) + element array (2 * i + 1) -
          element array (2 * i)
      else slowPath ProofFieldElement.sumcheckP2
  | .other x => slowPath x

/-- Bind an array of field elements to a single field element, in place. -/
def bind (array : List F) (binding : Binding F) : Exec (List F) := do
  assert (1 < array.length)
    "binding over a vector that's already reduced to a single element"
  let newLen := (array.length + 1) / 2
  let array ← (List.range newLen).foldlM
    (fun array i => update array i fun _ => boundElementAt array binding i)
    array
  pure (array.take newLen)

/-- The values of the array bound to `binding`. -/
def bindIter (array : List F) (binding : Binding F) : Exec (List F) := do
  assert (1 < array.length)
    "binding over a vector that's already reduced to a single element"
  pure ((List.range ((array.length + 1) / 2)).map (boundElementAt array binding))

section Bindeq

variable {F : Type} [Field F]

/-- One round of `bindeqInner`: bind twice as many entries of the table. -/
def bindeqRound (bound : List F) (x : F) (i : Nat) : Exec (List F) :=
  (List.range (2 ^ i)).reverse.foldlM
    (fun bound j => do
      let a ← index bound j
      let t := x * a
      let bound ← update bound (2 * j) fun _ => a - t
      update bound (2 * j + 1) fun _ => t)
    bound

/-- Bind `input` of length `l` to the implicit array of equality weights. -/
def bindeqInner (input : List F) : Exec (List F) := do
  assert (input.length < 64) "attempt to shift left with overflow"
  let bound := List.replicate (2 ^ input.length) (0 : F)
  let bound ← update bound 0 fun _ => 1
  input.reverse.zipIdx.foldlM (fun bound (x, i) => bindeqRound bound x i) bound

/-- Bind the equality weights to both bindings, and scale the second. -/
def bindeq (bindings0 bindings1 : List F) (scale : F) : Exec (List F) := do
  let bindeq0 ← bindeqInner bindings0
  let bindeq1 ← bindeqInner bindings1
  let scaled := List.zipWith (fun b0 b1 => b0 + scale * b1) bindeq0 bindeq1
  pure (scaled ++ bindeq0.drop bindeq1.length)

end Bindeq

section Table

variable {F : Type} [Field F]

/-- A round of `bindeqInner` goes through the table from the back, so that it
reads every entry before it overwrites it. -/
theorem bindeqRound_returns {xs bound : List F} {x : F}
    (hlength : 2 ^ (xs.length + 1) ≤ bound.length)
    (hbound : ∀ j < 2 ^ xs.length, bound[j]? = some (eqWeight xs j)) :
    Returns (bindeqRound bound x xs.length) fun table =>
      table.length = bound.length ∧
        ∀ j < 2 ^ (xs.length + 1), table[j]? = some (eqWeight (x :: xs) j) := by
  set m := 2 ^ xs.length with hm
  rw [pow_succ, ← hm] at hlength ⊢
  have hrule := Returns.foldlM
    (f := fun bound j => do
      let a ← index bound j
      let t := x * a
      let bound ← update bound (2 * j) fun _ => a - t
      update bound (2 * j + 1) fun _ => t)
    (I := fun k table => table.length = bound.length ∧
      (∀ j < m - k, table[j]? = some (eqWeight xs j)) ∧
      ∀ j, 2 * (m - k) ≤ j → j < m * 2 →
        table[j]? = some (eqWeight (x :: xs) j))
    (List.range m).reverse (s := bound)
    ⟨rfl, by simpa using hbound, fun j hj hlt => by omega⟩ ?_
  · simp only [List.length_reverse, List.length_range] at hrule
    refine hrule.mono fun table htable => ⟨htable.1, fun j hj => ?_⟩
    exact htable.2.2 j (by omega) hj
  · intro k hk table htable
    obtain ⟨hsize, hlow, hhigh⟩ := htable
    have hlt : k < m := by simpa using hk
    have hget : (List.range m).reverse[k] = m - 1 - k := by
      simp
    rw [hget]
    set j := m - 1 - k with hj
    have hread : index table j = .ok (eqWeight xs j) :=
      index_eq_ok.mpr (hlow j (by omega))
    rw [hread, ok_bind]
    dsimp only
    rw [update_of_lt (by omega), ok_bind,
      update_of_lt (by rw [List.length_set]; omega)]
    have hhalf : (2 * j + 1) / 2 = j := by omega
    have heven : eqWeight (x :: xs) (2 * j) =
        eqWeight xs j - x * eqWeight xs j := by
      rw [eqWeight, weight_two_mul, Nat.mul_div_cancel_left j Nat.two_pos]
      ring
    have hodd : eqWeight (x :: xs) (2 * j + 1) = x * eqWeight xs j := by
      rw [eqWeight, weight_two_mul_add_one, hhalf]
    refine Returns.of_eq rfl ⟨by simp [hsize], fun i hi => ?_,
      fun i hle hlt => ?_⟩
    · rw [List.getElem?_set_ne (by omega), List.getElem?_set_ne (by omega)]
      exact hlow i (by omega)
    · rcases (by omega : i = 2 * j ∨ i = 2 * j + 1 ∨ 2 * (m - k) ≤ i) with
        rfl | rfl | hge
      · rw [List.getElem?_set_ne (by omega),
          List.getElem?_set_self (by omega), heven]
      · rw [List.getElem?_set_self (by rw [List.length_set]; omega), hodd]
      · rw [List.getElem?_set_ne (by omega), List.getElem?_set_ne (by omega)]
        exact hhigh i hge hlt

/-- The table holds the equality weight of every index. -/
theorem bindeqInner_eq_ok {input : List F} (hlength : input.length < 64) :
    bindeqInner input =
      .ok ((List.range (2 ^ input.length)).map (eqWeight input)) := by
  set n := input.length with hn
  have hpos : 0 < (List.replicate (2 ^ n) (0 : F)).length := by
    rw [List.length_replicate]
    exact Nat.two_pow_pos n
  have hrule := Returns.foldlM
    (f := fun bound (xi : F × Nat) => bindeqRound bound xi.1 xi.2)
    (I := fun k table => table.length = 2 ^ n ∧
      ∀ j < 2 ^ k, table[j]? = some (eqWeight (input.drop (n - k)) j))
    input.reverse.zipIdx (s := (List.replicate (2 ^ n) (0 : F)).set 0 1) ?_ ?_
  · obtain ⟨table, heq, hsize, htable⟩ := hrule
    simp only [List.length_zipIdx, List.length_reverse] at htable
    have hvalue : table = (List.range (2 ^ n)).map (eqWeight input) := by
      refine List.ext_getElem? fun j => ?_
      rcases lt_or_ge j (2 ^ n) with hj | hj
      · rw [htable j hj, Nat.sub_self, List.drop_zero]
        simp [hj]
      · rw [List.getElem?_eq_none (by omega),
          List.getElem?_eq_none (by simpa using hj)]
    rw [bindeqInner, assert_of hlength]
    simp only [ok_bind]
    rw [update_of_lt hpos, ok_bind, ← hvalue]
    exact heq
  · refine ⟨by simp, fun j hj => ?_⟩
    have hzero : j = 0 := by simpa using hj
    subst hzero
    rw [List.getElem?_set_self hpos, hn]
    simp [eqWeight]
  · intro k hk table htable
    obtain ⟨hsize, htable⟩ := htable
    have hlt : k < n := by simpa using hk
    have hposition : n - 1 - k < input.length := by omega
    have hdrop : input.drop (n - (k + 1)) =
        input[n - 1 - k] :: input.drop (n - k) := by
      rw [List.drop_eq_getElem_cons (by omega)]
      congr 2 <;> omega
    have hsuffix : (input.drop (n - k)).length = k := by
      rw [List.length_drop]
      omega
    have hround : Returns (bindeqRound table input[n - 1 - k]
        (input.drop (n - k)).length) _ := bindeqRound_returns
      (by rw [hsuffix, hsize]; exact Nat.pow_le_pow_right Nat.two_pos hlt)
      (by rw [hsuffix]; exact htable)
    rw [hsuffix] at hround
    have hget : input.reverse.zipIdx[k] = (input[n - 1 - k], k) := by
      simp [hn]
    rw [hget, hdrop]
    exact hround.mono fun a ha => ⟨by rw [ha.1, hsize], ha.2⟩

/-- Both tables have one entry for each index, so no entry is left alone. -/
theorem bindeq_eq_ok {bindings0 bindings1 : List F} (scale : F)
    (hlength : bindings0.length < 64)
    (hsame : bindings1.length = bindings0.length) :
    bindeq bindings0 bindings1 scale =
      .ok ((List.range (2 ^ bindings0.length)).map fun i =>
        eqWeight bindings0 i + scale * eqWeight bindings1 i) := by
  have hlength1 : bindings1.length < 64 := by omega
  rw [bindeq, bindeqInner_eq_ok hlength, bindeqInner_eq_ok hlength1]
  simp only [ok_bind, pure_eq_ok, hsame, List.length_map, List.length_range,
    List.zipWith_map_left, List.zipWith_map_right, List.zipWith_self]
  simp

end Table

section Dense

theorem element_of_le {F : Type} [Field F] {array : List F} {i : Nat}
    (hi : array.length ≤ i) : element array i = 0 := by
  simp [element, List.getElem?_eq_none hi]

theorem element_of_lt {F : Type} [Field F] {array : List F} {i : Nat}
    (hi : i < array.length) : element array i = array[i] := by
  simp [element, hi]

theorem element_map_range {F : Type} [Field F] {n : Nat} {f : Nat → F}
    (hf : ∀ i, n ≤ i → f i = 0) (i : Nat) :
    element ((List.range n).map f) i = f i := by
  rcases lt_or_ge i n with hi | hi
  · simp [element, hi]
  · rw [element_of_le (by simpa using hi), hf i hi]

theorem boundElementAt_other (array : List F) (x : F) (i : Nat) :
    boundElementAt array (.other x) i = bindAt x (element array) i := by
  rw [boundElementAt, Multilinear.bindAt]
  ring

/-- Binding in place never reads an element that it has overwritten. -/
theorem bind_eq_ok_of {array : List F} {binding : Binding F} {x : F}
    (hlength : 1 < array.length) (hbound : ∀ (array : List F) (i : Nat),
      boundElementAt array binding i = bindAt x (element array) i) :
    bind array binding = .ok ((List.range ((array.length + 1) / 2)).map
      (bindAt x (element array))) := by
  set f := bindAt x (element array) with hf
  have hloop : Returns
      ((List.range ((array.length + 1) / 2)).foldlM
        (fun array i => update array i fun _ => boundElementAt array binding i)
        array)
      fun a => a = (List.range ((array.length + 1) / 2)).map f ++
        array.drop ((array.length + 1) / 2) := by
    have hrule := Returns.foldlM
      (f := fun array i => update array i fun _ =>
        boundElementAt array binding i)
      (I := fun k a => a = (List.range k).map f ++ array.drop k)
      (List.range ((array.length + 1) / 2)) (s := array) (by simp) ?_
    · simpa using hrule
    · intro k hk a ha
      rw [List.length_range] at hk
      rw [List.getElem_range]
      have hget (i : Nat) (hi : k ≤ i) : element a i = element array i := by
        rw [ha, element, element, List.getD_eq_getElem?_getD,
          List.getD_eq_getElem?_getD, List.getElem?_append_right (by simpa)]
        simp [Nat.add_sub_cancel' hi]
      have hvalue : boundElementAt a binding k = f k := by
        rcases Nat.eq_zero_or_pos k with rfl | hpos
        · have hsame : a = array := by simpa using ha
          rw [hsame, hbound]
        · rw [hbound, hf, Multilinear.bindAt,
            Multilinear.bindAt, hget _ (by omega), hget _ (by omega)]
      have hlen : k < a.length := by
        rw [ha]
        simp
        omega
      rw [update_of_lt hlen, hvalue]
      refine Returns.of_eq rfl ?_
      have hset : (array.drop k).set 0 (f k) = f k :: array.drop (k + 1) := by
        rw [List.drop_eq_getElem_cons (by omega), List.set_cons_zero]
      rw [ha, List.set_append_right _ _ (by simp), List.range_succ]
      simp [hset]
  obtain ⟨a, ha, hvalue⟩ := hloop
  simp only [bind, assert_of hlength, ok_bind, ha, hvalue]
  simp

theorem bind_other_eq_ok {array : List F} (hlength : 1 < array.length)
    (x : F) :
    bind array (.other x) = .ok ((List.range ((array.length + 1) / 2)).map
      (bindAt x (element array))) :=
  bind_eq_ok_of hlength fun array i => boundElementAt_other array x i

variable [LawfulProofField F]

theorem boundElementAt_eq_bindAt (array : List F) (binding : Binding F)
    (i : Nat) :
    boundElementAt array binding i =
      bindAt binding.value (element array) i := by
  unfold boundElementAt Multilinear.bindAt
  cases binding with
  | zero => simp [Binding.value]
  | other x =>
      simp only [Binding.value]
      ring
  | sumcheckP2 =>
      simp only [Binding.value]
      split
      · next hlarge =>
          rw [LawfulProofField.sumcheckP2_of_large hlarge]
          ring
      · ring

theorem bindIter_eq_ok {array : List F} (hlength : 1 < array.length)
    (binding : Binding F) :
    bindIter array binding = .ok ((List.range ((array.length + 1) / 2)).map
      (bindAt binding.value (element array))) := by
  simp only [bindIter, assert_of hlength, ok_bind, pure_eq_ok]
  exact congrArg Except.ok
    (List.map_congr_left fun i _ => boundElementAt_eq_bindAt array binding i)

theorem bind_eq_ok {array : List F} (hlength : 1 < array.length)
    (binding : Binding F) :
    bind array binding = .ok ((List.range ((array.length + 1) / 2)).map
      (bindAt binding.value (element array))) :=
  bind_eq_ok_of hlength fun array i => boundElementAt_eq_bindAt array binding i

end Dense

end Longfellow
