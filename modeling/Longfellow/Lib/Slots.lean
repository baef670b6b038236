/-
Vectors whose slots remember what was written to them, and layouts that say
which block of slots a quantity goes to.
-/
import Longfellow.Lib.Exec

/-- A slot of a vector: its value, and the elements of quantities that were
written to it. -/
structure Slot (κ α : Type) where
  value : α
  written : List (κ × Nat)
deriving DecidableEq

/-- Consecutive slots that hold consecutive elements of a quantity. -/
structure Block (κ : Type) where
  start : Nat
  length : Nat
  quantity : κ
  /-- The number of the first element. -/
  first : Nat

namespace Block

variable {κ : Type}

/-- The block puts an element of its quantity into a slot. -/
def Puts (block : Block κ) (i : Nat) (mark : κ × Nat) : Prop :=
  ∃ k < block.length, i = block.start + k ∧
    mark = (block.quantity, block.first + k)

theorem puts_zero {start first : Nat} {quantity : κ} {i : Nat}
    {mark : κ × Nat} : ¬ (⟨start, 0, quantity, first⟩ : Block κ).Puts i mark := by
  rintro ⟨k, hk, -⟩
  exact Nat.not_lt_zero k hk

theorem puts_one {start first : Nat} {quantity : κ} {i : Nat}
    {mark : κ × Nat} : (⟨start, 1, quantity, first⟩ : Block κ).Puts i mark ↔
      i = start ∧ mark = (quantity, first) := by
  constructor
  · rintro ⟨k, hk, hi, hmark⟩
    obtain rfl : k = 0 := Nat.lt_one_iff.mp hk
    exact ⟨hi, hmark⟩
  · rintro ⟨hi, hmark⟩
    exact ⟨0, Nat.one_pos, hi, hmark⟩

/-- A block is put in two parts. -/
theorem puts_add {start m n first : Nat} {quantity : κ} {i : Nat}
    {mark : κ × Nat} :
    (⟨start, m + n, quantity, first⟩ : Block κ).Puts i mark ↔
      (⟨start, m, quantity, first⟩ : Block κ).Puts i mark ∨
        (⟨start + m, n, quantity, first + m⟩ : Block κ).Puts i mark := by
  constructor
  · rintro ⟨k, hk, hi, hmark⟩
    rcases Nat.lt_or_ge k m with hlt | hge
    · exact .inl ⟨k, hlt, hi, hmark⟩
    · obtain ⟨l, rfl⟩ := Nat.exists_eq_add_of_le hge
      refine .inr ⟨l, ?_, ?_, ?_⟩
      · exact Nat.lt_of_add_lt_add_left hk
      · rw [hi, Nat.add_assoc]
      · rw [hmark, Nat.add_assoc]
  · rintro (⟨k, hk, hi, hmark⟩ | ⟨k, hk, hi, hmark⟩)
    · exact ⟨k, Nat.lt_add_right n hk, hi, hmark⟩
    · refine ⟨m + k, Nat.add_lt_add_left hk m, ?_, ?_⟩
      · rw [hi, Nat.add_assoc]
      · rw [hmark, Nat.add_assoc]

/-- Some block puts an element into a slot. -/
def Put (blocks : List (Block κ)) (i : Nat) (mark : κ × Nat) : Prop :=
  ∃ block ∈ blocks, block.Puts i mark

@[simp] theorem put_nil {i : Nat} {mark : κ × Nat} :
    ¬ Put ([] : List (Block κ)) i mark := by
  rintro ⟨block, hblock, -⟩
  cases hblock

@[simp] theorem put_cons {block : Block κ} {blocks : List (Block κ)} {i : Nat}
    {mark : κ × Nat} :
    Put (block :: blocks) i mark ↔ block.Puts i mark ∨ Put blocks i mark := by
  simp [Put]

@[simp] theorem put_append {blocks blocks' : List (Block κ)} {i : Nat}
    {mark : κ × Nat} :
    Put (blocks ++ blocks') i mark ↔ Put blocks i mark ∨ Put blocks' i mark := by
  simp [Put, or_and_right, exists_or]

end Block

namespace Slot

open Exec Block

variable {κ α : Type}

/-- Slots to which nothing was written yet. -/
def blanks (n : Nat) (value : α) : List (Slot κ α) :=
  List.replicate n ⟨value, []⟩

/-- Change the number of slots, with blank ones at the end where it grows. -/
def resize (slots : List (Slot κ α)) (n : Nat) (value : α) :
    List (Slot κ α) :=
  slots.take n ++ blanks (n - slots.length) value

/-- Write an element to a slot, which must be in range. -/
def write (slots : List (Slot κ α)) (i : Nat) (mark : κ × Nat) (value : α) :
    Exec (List (Slot κ α)) :=
  update slots i fun slot => ⟨value, slot.written ++ [mark]⟩

/-- The elements that were written to a slot. -/
def marks (slots : List (Slot κ α)) (i : Nat) : List (κ × Nat) :=
  (slots[i]?.map Slot.written).getD []

/-- The slots are written to as the blocks say. -/
structure Wrote (blocks : List (Block κ)) (slots next : List (Slot κ α)) :
    Prop where
  length_eq : next.length = slots.length
  mem_marks : ∀ i mark, mark ∈ marks next i ↔
    mark ∈ marks slots i ∨ Put blocks i mark

theorem length_blanks (n : Nat) (value : α) :
    (blanks n value : List (Slot κ α)).length = n :=
  List.length_replicate

theorem marks_blanks (n : Nat) (value : α) (i : Nat) :
    marks (blanks n value : List (Slot κ α)) i = [] := by
  rw [marks, blanks, List.getElem?_replicate]
  split <;> rfl

theorem length_resize (slots : List (Slot κ α)) (n : Nat) (value : α) :
    (resize slots n value).length = n := by
  rw [resize, List.length_append, List.length_take, length_blanks]
  omega

/-- Growing keeps what was written. -/
theorem marks_resize {slots : List (Slot κ α)} {n : Nat}
    (h : slots.length ≤ n) (value : α) (i : Nat) :
    marks (resize slots n value) i = marks slots i := by
  rw [resize, List.take_of_length_le h]
  by_cases hi : i < slots.length
  · rw [marks, marks, List.getElem?_append_left hi]
  · have hge := Nat.le_of_not_lt hi
    have hblank := marks_blanks (κ := κ) (n - slots.length) value
      (i - slots.length)
    rw [marks] at hblank
    rw [marks, List.getElem?_append_right hge, hblank, marks,
      List.getElem?_eq_none hge]
    rfl

namespace Wrote

variable {blocks blocks' : List (Block κ)} {slots next last : List (Slot κ α)}

theorem nil (slots : List (Slot κ α)) : Wrote [] slots slots :=
  ⟨rfl, fun i mark => by simp⟩

theorem trans (h : Wrote blocks slots next) (h' : Wrote blocks' next last) :
    Wrote (blocks ++ blocks') slots last :=
  ⟨h'.length_eq.trans h.length_eq, fun i mark => by
    rw [h'.mem_marks, h.mem_marks, put_append, or_assoc]⟩

/-- Blocks that put the same elements say the same. -/
theorem congr (h : Wrote blocks slots next)
    (hput : ∀ i mark, Put blocks i mark ↔ Put blocks' i mark) :
    Wrote blocks' slots next :=
  ⟨h.length_eq, fun i mark => by rw [h.mem_marks, hput]⟩

end Wrote

theorem write_returns {slots : List (Slot κ α)} {i : Nat}
    (hi : i < slots.length) (quantity : κ) (first : Nat) (value : α) :
    Returns (write slots i (quantity, first) value)
      (Wrote [⟨i, 1, quantity, first⟩] slots) := by
  refine Returns.of_eq (update_of_lt hi) ⟨List.length_set, fun j mark => ?_⟩
  rw [put_cons, puts_one]
  by_cases hj : j = i
  · subst hj
    simp [marks, hi, List.getElem?_set_self hi]
  · simp [marks, List.getElem?_set_ne (Ne.symm hj), hj]

/-- A loop that writes consecutive elements to consecutive slots. -/
theorem writeRange_returns {slots : List (Slot κ α)} {start n : Nat}
    (hbound : start + n ≤ slots.length) (quantity : κ) (first : Nat)
    (value : Nat → α) :
    Returns ((List.range n).foldlM
      (fun slots k => write slots (start + k) (quantity, first + k) (value k))
      slots) (Wrote [⟨start, n, quantity, first⟩] slots) := by
  have hloop := Returns.foldlM
    (f := fun (slots : List (Slot κ α)) k =>
      write slots (start + k) (quantity, first + k) (value k))
    (I := fun k => Wrote [⟨start, k, quantity, first⟩] slots)
    (List.range n) (s := slots)
    ((Wrote.nil slots).congr fun i mark => by simp [puts_zero])
    (by
      intro k hk next hnext
      rw [List.length_range] at hk
      rw [List.getElem_range]
      have hlt : start + k < next.length := by
        rw [hnext.length_eq]
        omega
      refine (write_returns hlt quantity (first + k) (value k)).mono
        fun last hlast => ?_
      refine (hnext.trans hlast).congr fun i mark => ?_
      simp only [put_append, put_cons, put_nil, or_false]
      exact puts_add.symm)
  rwa [List.length_range] at hloop

end Slot
