/-
Concise binary data items as byte strings, with the lengths of strings, arrays
and maps given ahead or left to a break: which ones are well-formed.
-/
import Longfellow.Lib.DataItem

namespace StreamItem

open DataItem

/-- The byte that ends an item whose length is not given. -/
def stop : UInt8 := 255

/-- The first byte of an item whose length is not given. -/
def opening (major : Nat) : UInt8 := UInt8.ofNat (32 * major + 31)

/-- The content of a string: any bytes, or text. -/
def IsContent (major : Nat) (content : List UInt8) : Prop :=
  major = 3 → ByteArray.IsValidUTF8 ⟨content.toArray⟩

/-- The chunks of a string whose length is not given, with what the string
contains.  A lenient reader also takes chunks that are made of chunks. -/
inductive Chunks (lenient : Prop) (major : Nat) :
    List UInt8 → List UInt8 → Prop
  | nil : Chunks lenient major [] []
  | chunk {head content rest contents : List UInt8} :
      Head major content.length head → IsContent major content →
      Chunks lenient major rest contents →
      Chunks lenient major (head ++ content ++ rest) (content ++ contents)
  | nested {inner content rest contents : List UInt8} :
      lenient → Chunks lenient major inner content →
      Chunks lenient major rest contents →
      Chunks lenient major (opening major :: inner ++ stop :: rest)
        (content ++ contents)

/-- A string with its head, and what it contains. -/
inductive IsString (lenient : Prop) (major : Nat) :
    List UInt8 → List UInt8 → Prop
  | whole {head content : List UInt8} :
      Head major content.length head → IsContent major content →
      IsString lenient major (head ++ content) content
  | chunked {chunks content : List UInt8} :
      Chunks lenient major chunks content →
      IsString lenient major (opening major :: chunks ++ [stop]) content

/-- A well-formed item: an integer, a byte or text string, an array, a map, a
tagged item, a simple value or a floating-point number.  A lenient reader also
takes small simple values in two bytes. -/
inductive Item (lenient : Prop) : List UInt8 → Prop
  | integer {major argument : Nat} {head : List UInt8} :
      major = 0 ∨ major = 1 → Head major argument head → Item lenient head
  | string {major : Nat} {bytes content : List UInt8} :
      major = 2 ∨ major = 3 → IsString lenient major bytes content →
      Item lenient bytes
  | array {head : List UInt8} {items : List (List UInt8)} :
      Head 4 items.length head → (∀ item ∈ items, Item lenient item) →
      Item lenient (head ++ items.flatten)
  | openArray {items : List (List UInt8)} :
      (∀ item ∈ items, Item lenient item) →
      Item lenient (opening 4 :: items.flatten ++ [stop])
  | map {entries : List (List UInt8 × List UInt8)} {head : List UInt8} :
      Head 5 entries.length head →
      (∀ entry ∈ entries, Item lenient entry.1) →
      (∀ entry ∈ entries, Item lenient entry.2) →
      Item lenient (head ++ entries.flatMap fun entry => entry.1 ++ entry.2)
  | openMap {entries : List (List UInt8 × List UInt8)} :
      (∀ entry ∈ entries, Item lenient entry.1) →
      (∀ entry ∈ entries, Item lenient entry.2) →
      Item lenient (opening 5 ::
        (entries.flatMap fun entry => entry.1 ++ entry.2) ++ [stop])
  | tag {argument : Nat} {head item : List UInt8} :
      Head 6 argument head → Item lenient item → Item lenient (head ++ item)
  | simple {argument : Nat} {head : List UInt8} :
      Head 7 argument head → (head.length = 2 → 32 ≤ argument ∨ lenient) →
      Item lenient head

section Located

variable {α : Type} {bytes : α → List UInt8}

/-- The pieces of a byte string with the offsets at which they start. -/
def located (bytes : α → List UInt8) (offset : Nat) : List α → List (Nat × α)
  | [] => []
  | piece :: pieces =>
      (offset, piece) :: located bytes (offset + (bytes piece).length) pieces

theorem map_located (start : Nat) (pieces : List α) :
    (located bytes start pieces).map Prod.snd = pieces := by
  induction pieces generalizing start with
  | nil => rfl
  | cons piece pieces ih => rw [located, List.map_cons, ih]

theorem exists_located {piece : α} {pieces : List α} (h : piece ∈ pieces)
    (start : Nat) : ∃ offset, (offset, piece) ∈ located bytes start pieces := by
  have hmap : (located bytes start pieces).map Prod.snd = pieces :=
    map_located start pieces
  rw [← hmap] at h
  obtain ⟨⟨offset, piece'⟩, hplace, rfl⟩ := List.mem_map.mp h
  exact ⟨offset, hplace⟩

end Located

end StreamItem
