/-
Concise binary data items of definite length, as byte strings: which ones are
well-formed, and how deep items are nested in one another.
-/
import Longfellow.Lib.Bytes

namespace DataItem

open Bytes

/-- The head of an item: a major type and an argument, which is in the first
byte or in the one, two, four or eight that follow it. -/
inductive Head : Nat → Nat → List UInt8 → Prop
  | short {major argument : Nat} :
      major < 8 → argument < 24 →
      Head major argument [UInt8.ofNat (32 * major + argument)]
  | long {major size : Nat} {bytes : List UInt8} :
      major < 8 → size < 4 → bytes.length = 2 ^ size →
      Head major (ofBeBytes bytes)
        (UInt8.ofNat (32 * major + (24 + size)) :: bytes)

/-- A well-formed item with no item in it that is inside more than `n` others:
integers, byte and text strings, arrays, maps, tagged items, simple values and
floating-point numbers. -/
inductive Item : Nat → List UInt8 → Prop
  | integer {n major argument : Nat} {head : List UInt8} :
      major = 0 ∨ major = 1 → Head major argument head → Item n head
  | bytes {n : Nat} {head content : List UInt8} :
      Head 2 content.length head → Item n (head ++ content)
  | text {n : Nat} {head content : List UInt8} :
      Head 3 content.length head →
      ByteArray.IsValidUTF8 ⟨content.toArray⟩ → Item n (head ++ content)
  | array {n m : Nat} {head : List UInt8} {items : List (List UInt8)} :
      Head 4 items.length head → (items ≠ [] → m < n) →
      (∀ item ∈ items, Item m item) → Item n (head ++ items.flatten)
  | map {n m pairs : Nat} {head : List UInt8} {items : List (List UInt8)} :
      Head 5 pairs head → items.length = 2 * pairs → (items ≠ [] → m < n) →
      (∀ item ∈ items, Item m item) → Item n (head ++ items.flatten)
  | tag {n m argument : Nat} {head item : List UInt8} :
      Head 6 argument head → m < n → Item m item → Item n (head ++ item)
  | simple {n argument : Nat} {head : List UInt8} :
      Head 7 argument head → (head.length = 2 → 32 ≤ argument) → Item n head

theorem Head.length_pos {major argument : Nat} {head : List UInt8}
    (h : Head major argument head) : 0 < head.length := by
  cases h with
  | short => exact Nat.zero_lt_succ _
  | long => exact Nat.zero_lt_succ _

theorem Head.argument_lt {major argument : Nat} {head : List UInt8}
    (h : Head major argument head) : argument < 2 ^ 64 := by
  cases h with
  | short _ hargument => omega
  | @long size bytes _ hsize hlength =>
      have hlt := ofBeBytes_lt bytes
      have hle : 256 ^ bytes.length ≤ 256 ^ 8 := by
        refine Nat.pow_le_pow_right (by decide) ?_
        rw [hlength]
        calc 2 ^ size ≤ 2 ^ 3 := Nat.pow_le_pow_right (by decide) (by omega)
          _ = 8 := rfl
      omega

theorem Item.length_pos {n : Nat} {item : List UInt8} (h : Item n item) :
    0 < item.length := by
  cases h with
  | integer _ hhead => exact hhead.length_pos
  | simple hhead _ => exact hhead.length_pos
  | bytes hhead =>
      rw [List.length_append]
      exact Nat.lt_add_right _ hhead.length_pos
  | text hhead _ =>
      rw [List.length_append]
      exact Nat.lt_add_right _ hhead.length_pos
  | array hhead _ _ =>
      rw [List.length_append]
      exact Nat.lt_add_right _ hhead.length_pos
  | map hhead _ _ _ =>
      rw [List.length_append]
      exact Nat.lt_add_right _ hhead.length_pos
  | tag hhead _ _ =>
      rw [List.length_append]
      exact Nat.lt_add_right _ hhead.length_pos

/-- Every item takes at least one byte. -/
theorem length_le_flatten {n : Nat} {items : List (List UInt8)}
    (h : ∀ item ∈ items, Item n item) :
    items.length ≤ items.flatten.length := by
  induction items with
  | nil => exact Nat.le_refl 0
  | cons item items ih =>
      have hitem := (h item List.mem_cons_self).length_pos
      have hitems := ih fun other hother =>
        h other (List.mem_cons_of_mem item hother)
      rw [List.flatten_cons, List.length_append, List.length_cons]
      omega

end DataItem
