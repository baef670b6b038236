/-
Grammars: which byte strings stand for which values. A value may have several
byte strings, a byte string has at most one value in an unambiguous grammar.
-/
import Longfellow.Lib.Bytes
import Mathlib.Data.List.Forall2

/-- A byte string of a multiple of a length is a sequence of byte strings of
that length. -/
theorem Bytes.exists_chunks {n k : Nat} {w : List UInt8} (h : w.length = n * k) :
    ∃ xs : List (List UInt8), xs.length = n ∧ (∀ x ∈ xs, x.length = k) ∧
      w = xs.flatten := by
  induction n generalizing w with
  | zero =>
      rw [Nat.zero_mul] at h
      exact ⟨[], rfl, by simp, List.eq_nil_of_length_eq_zero h⟩
  | succ n ih =>
      have hdrop : (w.drop k).length = n * k := by
        rw [List.length_drop, h, Nat.succ_mul, Nat.add_sub_cancel]
      obtain ⟨xs, hlength, hall, heq⟩ := ih hdrop
      have htake : (w.take k).length = k := by
        rw [List.length_take, h, Nat.succ_mul]
        exact Nat.min_eq_left (Nat.le_add_left k (n * k))
      refine ⟨w.take k :: xs, by rw [List.length_cons, hlength], ?_, ?_⟩
      · exact List.forall_mem_cons.mpr ⟨htake, hall⟩
      · rw [List.flatten_cons, ← heq, List.take_append_drop]

/-- The byte strings that stand for a value. -/
abbrev Grammar (α : Type) := α → List UInt8 → Prop

namespace Grammar

variable {α β : Type}

/-- One value and one prefix fit the start of an input. -/
def Unambiguous (G : Grammar α) : Prop :=
  ∀ a b w w' r s, G a w → G b w' → w ++ r = w' ++ s → a = b ∧ r = s

/-- Values one after the other. -/
inductive Many (G : Grammar α) : Grammar (List α)
  | nil : Many G [] []
  | cons {x : α} {xs : List α} {w w' : List UInt8} :
      G x w → Many G xs w' → Many G (x :: xs) (w ++ w')

/-- One value after another. -/
def Both (G : Grammar α) (H : Grammar β) : Grammar (α × β) := fun p w =>
  ∃ v v', G p.1 v ∧ H p.2 v' ∧ w = v ++ v'

/-- A number in groups of seven bits, the lowest first. Every byte but the
last one has its high bit set. -/
inductive Uleb : Grammar Nat
  | last {b : UInt8} : b.toNat < 128 → Uleb b.toNat [b]
  | more {b : UInt8} {v : Nat} {w : List UInt8} :
      128 ≤ b.toNat → Uleb v w → Uleb (b.toNat - 128 + 128 * v) (b :: w)

/-- The number of values, and then the values. -/
def Counted (G : Grammar α) : Grammar (List α) := fun xs w =>
  Both Uleb (Many G) (xs.length, xs) w

theorem uleb_unambiguous : Unambiguous Uleb := by
  intro a b w w' r s ha hb heq
  induction ha generalizing b w' with
  | last hlow =>
      cases hb with
      | last hlow' =>
          obtain ⟨rfl, hrest⟩ := List.cons.inj heq
          exact ⟨rfl, hrest⟩
      | more hhigh htail =>
          obtain ⟨rfl, -⟩ := List.cons.inj heq
          omega
  | more hhigh htail ih =>
      cases hb with
      | last hlow =>
          obtain ⟨rfl, -⟩ := List.cons.inj heq
          omega
      | more hhigh' htail' =>
          obtain ⟨rfl, hrest⟩ := List.cons.inj heq
          obtain ⟨rfl, hrest⟩ := ih _ _ htail' hrest
          exact ⟨rfl, hrest⟩

namespace Unambiguous

variable {G : Grammar α} {H : Grammar β}

theorem both (hG : Unambiguous G) (hH : Unambiguous H) :
    Unambiguous (Both G H) := by
  rintro ⟨a, b⟩ ⟨a', b'⟩ _ _ r s ⟨v, v', hv, hv', rfl⟩ ⟨u, u', hu, hu', rfl⟩
    heq
  rw [List.append_assoc, List.append_assoc] at heq
  obtain ⟨haa, hmid⟩ := hG _ _ _ _ _ _ hv hu heq
  obtain ⟨hbb, hrest⟩ := hH _ _ _ _ _ _ hv' hu' hmid
  exact ⟨Prod.ext haa hbb, hrest⟩

/-- Sequences of the same number of values. -/
theorem many (hG : Unambiguous G) {xs ys : List α} {w w' r s : List UInt8}
    (hxs : Many G xs w) (hys : Many G ys w') (hlength : xs.length = ys.length)
    (heq : w ++ r = w' ++ s) : xs = ys ∧ r = s := by
  induction hxs generalizing ys w' with
  | nil =>
      cases hys with
      | nil => exact ⟨rfl, heq⟩
      | cons hy htail => cases hlength
  | cons hx htail ih =>
      cases hys with
      | nil => cases hlength
      | cons hy htail' =>
          rw [List.append_assoc, List.append_assoc] at heq
          obtain ⟨rfl, hmid⟩ := hG _ _ _ _ _ _ hx hy heq
          obtain ⟨rfl, hrest⟩ := ih htail' (Nat.succ.inj hlength) hmid
          exact ⟨rfl, hrest⟩

theorem counted (hG : Unambiguous G) : Unambiguous (Counted G) := by
  rintro xs ys _ _ r s ⟨n, w, hn, hw, rfl⟩ ⟨n', w', hn', hw', rfl⟩ heq
  rw [List.append_assoc, List.append_assoc] at heq
  obtain ⟨hlength, hmid⟩ := uleb_unambiguous _ _ _ _ _ _ hn hn' heq
  exact hG.many hw hw' hlength hmid

/-- A grammar that is read through an injective description of its values. -/
theorem comap (hG : Unambiguous G) {f : β → α}
    (hf : ∀ a b, f a = f b → a = b) : Unambiguous fun b => G (f b) := by
  intro a b w w' r s ha hb heq
  obtain ⟨hab, hrest⟩ := hG _ _ _ _ _ _ ha hb heq
  exact ⟨hf a b hab, hrest⟩

end Unambiguous

namespace Many

variable {G H : Grammar α}

theorem mono {xs : List α} {w : List UInt8} (h : Many G xs w)
    (hGH : ∀ a w, G a w → H a w) : Many H xs w := by
  induction h with
  | nil => exact Many.nil
  | cons hx htail ih => exact Many.cons (hGH _ _ hx) ih

theorem forall_mem {P : α → Prop} {xs : List α} {w : List UInt8}
    (h : Many G xs w) (hP : ∀ a w, G a w → P a) : ∀ x ∈ xs, P x := by
  induction h with
  | nil => simp
  | cons hx htail ih => exact List.forall_mem_cons.mpr ⟨hP _ _ hx, ih⟩

/-- Every value stands for another one. -/
theorem exists_forall₂ {R : α → β → Prop} {K : Grammar β} {xs : List α}
    {w : List UInt8} (h : Many (fun a w => ∃ b, R a b ∧ K b w) xs w) :
    ∃ ys, List.Forall₂ R xs ys ∧ Many K ys w := by
  induction h with
  | nil => exact ⟨[], List.Forall₂.nil, Many.nil⟩
  | cons hx htail ih =>
      obtain ⟨y, hxy, hy⟩ := hx
      obtain ⟨ys, hall, hys⟩ := ih
      exact ⟨y :: ys, List.Forall₂.cons hxy hall, Many.cons hy hys⟩

end Many

end Grammar
