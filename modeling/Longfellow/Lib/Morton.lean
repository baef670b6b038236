/-
Interleaved bits of two numbers as a sort key, and what taking neighbours
together does to a list that is strictly increasing under such a key.
-/
import Mathlib.Data.Nat.Bitwise
import Mathlib.Tactic.Ring

universe u

namespace Morton

/-- Interleave `n` low bits of two numbers, taking the first from `a`. -/
def key : Nat → Nat → Nat → Nat
  | 0, _, _ => 0
  | n + 1, a, b => a % 2 + 2 * key n b (a / 2)

theorem key_succ_mod_two (n a b : Nat) : key (n + 1) a b % 2 = a % 2 := by
  rw [key]
  omega

/-- Halving the key takes the low bit off the first number, and the second
number comes first. -/
theorem key_succ_div_two (n a b : Nat) : key (n + 1) a b / 2 = key n b (a / 2) := by
  rw [key]
  omega

theorem key_injective {n a b a' b' : Nat} (ha : a < 2 ^ ((n + 1) / 2))
    (hb : b < 2 ^ (n / 2)) (ha' : a' < 2 ^ ((n + 1) / 2))
    (hb' : b' < 2 ^ (n / 2)) (h : key n a b = key n a' b') :
    a = a' ∧ b = b' := by
  induction n generalizing a b a' b' with
  | zero => simp at ha hb ha' hb'; omega
  | succ n ih =>
      have hbit : a % 2 = a' % 2 := by
        rw [← key_succ_mod_two n a b, h, key_succ_mod_two]
      have hrest : key n b (a / 2) = key n b' (a' / 2) := by
        rw [← key_succ_div_two, h, key_succ_div_two]
      rw [show (n + 1 + 1) / 2 = n / 2 + 1 by omega, pow_succ] at ha ha'
      obtain ⟨rfl, hhalf⟩ := ih hb (by omega) hb' (by omega) hrest
      exact ⟨by omega, rfl⟩

theorem testBit_key (n : Nat) : ∀ a b i,
    (key n a b).testBit i = (decide (i < n) &&
      if i % 2 = 0 then a.testBit (i / 2) else b.testBit (i / 2)) := by
  induction n with
  | zero => simp [key]
  | succ n ih =>
      intro a b i
      cases i with
      | zero =>
          have hbit := key_succ_mod_two n a b
          simp [Nat.testBit_zero, hbit]
      | succ i =>
          rw [Nat.testBit_succ, key_succ_div_two, ih]
          rcases Nat.mod_two_eq_zero_or_one i with hi | hi
          · have hodd : (i + 1) % 2 = 1 := by omega
            have hhalf : (i + 1) / 2 = i / 2 := by omega
            simp [hi, hodd, hhalf]
          · have heven : (i + 1) % 2 = 0 := by omega
            have hhalf : (i + 1) / 2 = i / 2 + 1 := by omega
            simp [hi, heven, hhalf, Nat.testBit_succ]

section Pairs

variable {α : Type u}

/-- Replace every element, or two neighbours for which `adjacent` holds, by
one. -/
def mergePairs (adjacent : α → α → Bool) (single : α → α)
    (merge : α → α → α) : List α → List α
  | [] => []
  | [a] => [single a]
  | a :: b :: rest =>
      if adjacent a b then merge a b :: mergePairs adjacent single merge rest
      else single a :: mergePairs adjacent single merge (b :: rest)

variable {adjacent : α → α → Bool} {single : α → α} {merge : α → α → α}

@[simp] theorem mergePairs_eq_nil {l : List α} :
    mergePairs adjacent single merge l = [] ↔ l = [] := by
  match l with
  | [] => simp [mergePairs]
  | [a] => simp [mergePairs]
  | a :: b :: rest =>
      rw [mergePairs]
      split <;> simp

/-- What every single element and every merged pair satisfies holds of the
whole result. -/
theorem forall_mem_mergePairs {P Q : α → Prop}
    (hsingle : ∀ a, P a → Q (single a))
    (hmerge : ∀ a b, P a → P b → adjacent a b → Q (merge a b)) :
    ∀ {l : List α}, (∀ a ∈ l, P a) →
      ∀ a ∈ mergePairs adjacent single merge l, Q a
  | [], _ => by simp [mergePairs]
  | [a], h => by simpa [mergePairs] using hsingle a (h a (by simp))
  | a :: b :: rest, h => by
      have ha : P a := h a (by simp)
      have hb : P b := h b (by simp)
      rw [mergePairs]
      split
      · next hadj =>
          rw [List.forall_mem_cons]
          exact ⟨hmerge a b ha hb hadj,
            forall_mem_mergePairs hsingle hmerge fun c hc => h c (by simp [hc])⟩
      · rw [List.forall_mem_cons]
        exact ⟨hsingle a ha,
          forall_mem_mergePairs hsingle hmerge fun c hc =>
            h c (List.mem_cons_of_mem a hc)⟩

/-- If exactly the neighbours with the keys `2 m` and `2 m + 1` are taken
together, the halved keys are strictly increasing again. -/
theorem pairwise_mergePairs {k k' : α → Nat} {P : α → Prop}
    (hadj : ∀ a b, P a → P b →
      (adjacent a b ↔ k a % 2 = 0 ∧ k b = k a + 1))
    (hsingle : ∀ a, P a → k' (single a) = k a / 2)
    (hmerge : ∀ a b, P a → k' (merge a b) = k a / 2) :
    ∀ {l : List α}, (∀ a ∈ l, P a) →
      l.Pairwise (fun a b => k a < k b) →
      (mergePairs adjacent single merge l).Pairwise fun a b => k' a < k' b
  | [], _, _ => by simp [mergePairs]
  | [a], _, _ => by simp [mergePairs]
  | a :: b :: rest, h, hsorted => by
      have ha : P a := h a (by simp)
      have hb : P b := h b (by simp)
      have hrest : ∀ c ∈ rest, P c := fun c hc => h c (by simp [hc])
      have htail : (b :: rest).Pairwise fun a b => k a < k b :=
        hsorted.of_cons
      have hab : k a < k b := List.rel_of_pairwise_cons hsorted (by simp)
      rw [mergePairs]
      split
      · next hpair =>
          obtain ⟨heven, hnext⟩ := (hadj a b ha hb).mp hpair
          refine List.pairwise_cons.mpr ⟨?_, pairwise_mergePairs hadj hsingle
            hmerge hrest htail.of_cons⟩
          refine forall_mem_mergePairs (P := fun c => P c ∧ k b < k c) ?_ ?_ ?_
          · intro c hc
            rw [hmerge a b ha, hsingle c hc.1]
            omega
          · intro c d hc _ _
            rw [hmerge a b ha, hmerge c d hc.1]
            omega
          · intro c hc
            exact ⟨hrest c hc, List.rel_of_pairwise_cons htail hc⟩
      · next hpair =>
          have hodd : ¬ (k a % 2 = 0 ∧ k b = k a + 1) :=
            fun hc => hpair ((hadj a b ha hb).mpr hc)
          refine List.pairwise_cons.mpr ⟨?_, pairwise_mergePairs hadj hsingle
            hmerge (fun c hc => h c (List.mem_cons_of_mem a hc)) htail⟩
          refine forall_mem_mergePairs (P := fun c => P c ∧ k b ≤ k c) ?_ ?_ ?_
          · intro c hc
            rw [hsingle a ha, hsingle c hc.1]
            omega
          · intro c d hc _ _
            rw [hsingle a ha, hmerge c d hc.1]
            omega
          · intro c hc
            refine ⟨h c (List.mem_cons_of_mem a hc), ?_⟩
            rcases List.mem_cons.mp hc with rfl | hc'
            · exact le_rfl
            · exact (List.rel_of_pairwise_cons htail hc').le

/-- A strictly increasing list whose keys are all zero has one element. -/
theorem length_eq_one {k : α → Nat} {l : List α} (hne : l ≠ [])
    (hsorted : l.Pairwise fun a b => k a < k b) (hzero : ∀ a ∈ l, k a = 0) :
    ∃ a, l = [a] := by
  match l with
  | [] => exact absurd rfl hne
  | [a] => exact ⟨a, rfl⟩
  | a :: b :: rest =>
      have hlt : k a < k b := List.rel_of_pairwise_cons hsorted (by simp)
      have hb : k b = 0 := hzero b (by simp)
      omega

end Pairs

end Morton
