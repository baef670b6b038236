/-
Choosing some elements of a list, one after the other, by swapping each to the
front of those that remain: every selection without repetition arises from
exactly one sequence of draws.
-/
import Mathlib.Data.List.Nodup
import Mathlib.Data.List.Perm.Basic
import Mathlib.Data.Set.Function

universe u

namespace PartialShuffle

variable {α : Type u}

/-- Exchange the elements at two positions. -/
def swap (list : List α) (i j : Nat) : List α :=
  match list[i]?, list[j]? with
  | some a, some b => (list.set i b).set j a
  | _, _ => list

/-- Swap each position from `i` on with the one that is drawn, counted from
there. -/
def swaps : Nat → List α → List Nat → List α
  | _, list, [] => list
  | i, list, draw :: draws => swaps (i + 1) (swap list i (i + draw)) draws

/-- The draws of a list of `n` elements: each is below the number of elements
that remain. -/
def Draws : Nat → List Nat → Prop
  | _, [] => True
  | n, draw :: draws => draw < n ∧ Draws (n - 1) draws

theorem draws_iff {n : Nat} {draws : List Nat} :
    Draws n draws ↔ ∀ i (hi : i < draws.length), draws[i] < n - i := by
  induction draws generalizing n with
  | nil => simp [Draws]
  | cons draw draws ih =>
      rw [Draws, ih]
      constructor
      · rintro ⟨hdraw, hdraws⟩ i hi
        cases i with
        | zero => exact hdraw
        | succ i =>
            have h := hdraws i (Nat.lt_of_succ_lt_succ hi)
            rw [List.getElem_cons_succ]
            omega
      · intro h
        constructor
        · exact h 0 (Nat.zero_lt_succ _)
        · intro i hi
          have h := h (i + 1) (Nat.succ_lt_succ hi)
          rw [List.getElem_cons_succ] at h
          omega

/-- What remains after the element at a position has been swapped to the
front. -/
def remaining (list : List α) (draw : Nat) : List α := (swap list 0 draw).tail

theorem swap_zero {a : α} {rest : List α} {draw : Nat}
    (hdraw : draw < (a :: rest).length) :
    swap (a :: rest) 0 draw =
      (a :: rest)[draw] :: remaining (a :: rest) draw := by
  rw [remaining, swap, List.getElem?_cons_zero,
    List.getElem?_eq_getElem hdraw]
  cases draw with
  | zero => rfl
  | succ draw => rfl

/-- The element that is swapped to the front, and what remains, are the
list. -/
theorem perm_remaining {list : List α} {draw : Nat}
    (hdraw : draw < list.length) :
    (list[draw] :: remaining list draw).Perm list := by
  cases list with
  | nil => cases hdraw
  | cons a rest =>
      rw [← swap_zero hdraw, swap, List.getElem?_cons_zero,
        List.getElem?_eq_getElem hdraw]
      cases draw with
      | zero => exact List.Perm.refl _
      | succ draw =>
          have hlt : draw < rest.length := Nat.lt_of_succ_lt_succ hdraw
          change (rest[draw] :: rest.set draw a).Perm (a :: rest)
          have hset : (rest[draw] :: rest.set draw a).Perm
              (rest[draw] :: a :: rest.eraseIdx draw) :=
            (List.set_perm_cons_eraseIdx hlt a).cons _
          have hswap : (rest[draw] :: a :: rest.eraseIdx draw).Perm
              (a :: rest[draw] :: rest.eraseIdx draw) :=
            List.Perm.swap ..
          have hback : (a :: rest[draw] :: rest.eraseIdx draw).Perm
              (a :: rest) :=
            (List.getElem_cons_eraseIdx_perm hlt).cons a
          exact (hset.trans hswap).trans hback

theorem length_remaining {list : List α} {draw : Nat}
    (hdraw : draw < list.length) :
    (remaining list draw).length = list.length - 1 := by
  have h := (perm_remaining hdraw).length_eq
  rw [List.length_cons] at h
  omega

/-- The elements that a sequence of draws picks. -/
def pick : List α → List Nat → List α
  | _, [] => []
  | list, draw :: draws =>
      match list[draw]? with
      | some a => a :: pick (remaining list draw) draws
      | none => []

theorem pick_cons {list : List α} {draw : Nat} (draws : List Nat)
    (hdraw : draw < list.length) :
    pick list (draw :: draws) =
      list[draw] :: pick (remaining list draw) draws := by
  rw [pick, List.getElem?_eq_getElem hdraw]

theorem Draws.length_le {n : Nat} {draws : List Nat} (h : Draws n draws) :
    draws.length ≤ n := by
  induction draws generalizing n with
  | nil => exact Nat.zero_le n
  | cons draw draws ih =>
      have hrest := ih h.2
      have hdraw := h.1
      rw [List.length_cons]
      omega

theorem length_pick {list : List α} {draws : List Nat}
    (h : Draws list.length draws) :
    (pick list draws).length = draws.length := by
  induction draws generalizing list with
  | nil => rfl
  | cons draw draws ih =>
      obtain ⟨hdraw, hdraws⟩ := h
      rw [← length_remaining hdraw] at hdraws
      rw [pick_cons draws hdraw, List.length_cons, ih hdraws,
        List.length_cons]

/-- Swapping moves what is picked to the front, behind what was there. -/
theorem take_swaps (done list : List α) {draws : List Nat}
    (h : Draws list.length draws) :
    (swaps done.length (done ++ list) draws).take
        (done.length + draws.length) =
      done ++ pick list draws := by
  induction draws generalizing done list with
  | nil => simp [swaps, pick]
  | cons draw draws ih =>
      obtain ⟨hdraw, hdraws⟩ := h
      cases list with
      | nil => cases hdraw
      | cons a rest =>
          have hswap : swap (done ++ a :: rest) done.length
              (done.length + draw) = done ++ swap (a :: rest) 0 draw := by
            rw [swap, swap, List.getElem?_append_right (Nat.le_refl _),
              List.getElem?_append_right (Nat.le_add_right _ _),
              Nat.sub_self, Nat.add_sub_cancel_left,
              List.getElem?_cons_zero, List.getElem?_eq_getElem hdraw]
            simp only [List.set_append_right _ _ (Nat.le_refl _),
              List.set_append_right _ _ (Nat.le_add_right _ _),
              Nat.sub_self, Nat.add_sub_cancel_left]
          rw [← length_remaining hdraw] at hdraws
          have h := ih (done ++ [(a :: rest)[draw]]) _ hdraws
          rw [List.length_append, List.length_singleton] at h
          rw [swaps, hswap, swap_zero hdraw, pick_cons draws hdraw,
            List.length_cons, Nat.add_comm draws.length 1,
            ← Nat.add_assoc]
          rw [← List.append_cons, ← List.append_cons] at h
          exact h

theorem mem_of_mem_pick {list : List α} {draws : List Nat} {a : α}
    (h : a ∈ pick list draws) : a ∈ list := by
  induction draws generalizing list with
  | nil => cases h
  | cons draw draws ih =>
      by_cases hdraw : draw < list.length
      · rw [pick_cons draws hdraw, List.mem_cons] at h
        have hmem (a : α) := (perm_remaining hdraw).mem_iff (a := a)
        rcases h with rfl | h
        · exact List.getElem_mem hdraw
        · exact (hmem a).mp (List.mem_cons_of_mem _ (ih h))
      · rw [pick, List.getElem?_eq_none (Nat.le_of_not_lt hdraw)] at h
        cases h

theorem nodup_remaining {list : List α} {draw : Nat} (h : list.Nodup)
    (hdraw : draw < list.length) :
    list[draw] ∉ remaining list draw ∧ (remaining list draw).Nodup :=
  List.nodup_cons.mp ((perm_remaining hdraw).nodup_iff.mpr h)

theorem nodup_pick {list : List α} {draws : List Nat} (h : list.Nodup) :
    (pick list draws).Nodup := by
  induction draws generalizing list with
  | nil => exact List.nodup_nil
  | cons draw draws ih =>
      by_cases hdraw : draw < list.length
      · obtain ⟨hnot, hnodup⟩ := nodup_remaining h hdraw
        rw [pick_cons draws hdraw, List.nodup_cons]
        exact ⟨fun hmem => hnot (mem_of_mem_pick hmem), ih hnodup⟩
      · rw [pick, List.getElem?_eq_none (Nat.le_of_not_lt hdraw)]
        exact List.nodup_nil

/-- What is picked determines the draws. -/
theorem pick_injective {list : List α} (h : list.Nodup)
    {draws draws' : List Nat} (hdraws : Draws list.length draws)
    (hdraws' : Draws list.length draws')
    (heq : pick list draws = pick list draws') : draws = draws' := by
  induction draws generalizing list draws' with
  | nil =>
      have hlength := length_pick hdraws'
      rw [← heq] at hlength
      exact (List.length_eq_zero_iff.mp hlength.symm).symm
  | cons draw draws ih =>
      cases draws' with
      | nil =>
          have hlength := length_pick hdraws
          rw [heq] at hlength
          cases hlength
      | cons draw' draws' =>
          obtain ⟨hdraw, hrest⟩ := hdraws
          obtain ⟨hdraw', hrest'⟩ := hdraws'
          rw [pick_cons draws hdraw, pick_cons draws' hdraw',
            List.cons.injEq] at heq
          obtain ⟨hfirst, heq⟩ := heq
          obtain rfl := (h.getElem_inj_iff).mp hfirst
          rw [← length_remaining hdraw] at hrest hrest'
          rw [ih (nodup_remaining h hdraw).2 hrest hrest' heq]

/-- Every selection without repetition is picked by some draws. -/
theorem exists_pick {list : List α} {chosen : List α}
    (hchosen : chosen.Nodup) (hmem : ∀ a ∈ chosen, a ∈ list) :
    ∃ draws, Draws list.length draws ∧ pick list draws = chosen := by
  induction chosen generalizing list with
  | nil => exact ⟨[], trivial, rfl⟩
  | cons a chosen ih =>
      obtain ⟨hnot, hnodup⟩ := List.nodup_cons.mp hchosen
      obtain ⟨draw, hdraw, rfl⟩ :=
        List.getElem_of_mem (hmem a List.mem_cons_self)
      -- the other elements are among those that remain
      have hrest : ∀ b ∈ chosen, b ∈ remaining list draw := by
        intro b hb
        have hb' := hmem b (List.mem_cons_of_mem _ hb)
        rw [← (perm_remaining hdraw).mem_iff, List.mem_cons] at hb'
        rcases hb' with rfl | hb'
        · exact absurd hb hnot
        · exact hb'
      obtain ⟨draws, hdraws, hpick⟩ := ih hnodup hrest
      refine ⟨draw :: draws, ⟨hdraw, ?_⟩, ?_⟩
      · rw [← length_remaining hdraw]
        exact hdraws
      · rw [pick_cons draws hdraw, hpick]

/-- The draws and the selections without repetition are in bijection. -/
theorem pick_bijOn {list : List α} (h : list.Nodup) (count : Nat) :
    Set.BijOn (pick list)
      {draws | draws.length = count ∧ Draws list.length draws}
      {chosen | chosen.length = count ∧ chosen.Nodup ∧
        ∀ a ∈ chosen, a ∈ list} := by
  refine ⟨?_, ?_, ?_⟩
  · rintro draws ⟨rfl, hdraws⟩
    exact ⟨length_pick hdraws, nodup_pick h, fun a => mem_of_mem_pick⟩
  · rintro draws ⟨-, hdraws⟩ draws' ⟨-, hdraws'⟩ heq
    exact pick_injective h hdraws hdraws' heq
  · rintro chosen ⟨rfl, hnodup, hmem⟩
    obtain ⟨draws, hdraws, hpick⟩ := exists_pick hnodup hmem
    refine ⟨draws, ⟨?_, hdraws⟩, hpick⟩
    rw [← length_pick hdraws, hpick]

end PartialShuffle
