/-
CBOR data items, and what the serializer and the parser of the credential code
are relied on for.
-/
import Longfellow.Lib.Bytes

namespace Longfellow.MdocZk

/-- A CBOR data item. -/
inductive Value where
  | integer (value : Int)
  | bytes (value : List UInt8)
  | float (bits : UInt64)
  | text (value : String)
  | bool (value : Bool)
  | null
  | tag (number : Nat) (value : Value)
  | array (values : List Value)
  | map (entries : List (Value × Value))

/-- The additional information in the first byte of a head, and the number of
bytes that the argument takes after it. -/
def headForm (argument : Nat) : Nat × Nat :=
  if argument < 24 then (argument, 0)
  else if argument < 2 ^ 8 then (24, 1)
  else if argument < 2 ^ 16 then (25, 2)
  else if argument < 2 ^ 32 then (26, 4)
  else (27, 8)

/-- The head of a data item: a major type and an argument. -/
def cborHead (majorType argument : Nat) : List UInt8 :=
  UInt8.ofNat (majorType * 32 + (headForm argument).1) ::
    (Bytes.leBytes (headForm argument).2 argument).reverse

/-- The bytes of a string. -/
def utf8 (s : String) : List UInt8 := s.toByteArray.data.toList

/-- A serializer and a parser of data items. -/
class Ciborium where
  intoWriter : Value → List UInt8
  fromReader : List UInt8 → Exec Value

/-- Text is written as its length and its bytes. -/
class LawfulCiborium [Ciborium] : Prop where
  intoWriter_text : ∀ s : String, Ciborium.intoWriter (.text s) =
    cborHead 3 (utf8 s).length ++ utf8 s

theorem utf8_inj {s t : String} (h : utf8 s = utf8 t) : s = t := by
  apply String.toByteArray_inj.mp
  apply ByteArray.ext
  exact Array.toList_inj.mp h

/-- The information tells the size, and the argument where there is none. -/
theorem headForm_information {m n : Nat}
    (h : (headForm m).1 = (headForm n).1) :
    (headForm m).2 = (headForm n).2 ∧ ((headForm m).2 = 0 → m = n) := by
  simp only [headForm] at h ⊢
  split_ifs at h ⊢ <;> simp_all
  all_goals omega

theorem headForm_lt (n : Nat) : (headForm n).1 < 32 := by
  simp only [headForm]
  split_ifs <;> simp
  omega

theorem lt_of_headForm {n : Nat} (hn : n < 2 ^ 64) (h : (headForm n).2 ≠ 0) :
    n < 256 ^ (headForm n).2 := by
  simp only [headForm] at h ⊢
  split_ifs at h ⊢ <;> simp_all

/-- Heads of one major type cannot be confused. -/
theorem cborHead_append_inj {majorType m n : Nat} (hmajor : majorType < 8)
    (hm : m < 2 ^ 64) (hn : n < 2 ^ 64) {r s : List UInt8}
    (h : cborHead majorType m ++ r = cborHead majorType n ++ s) :
    m = n ∧ r = s := by
  obtain ⟨hfirst, hrest⟩ := List.cons.inj h
  have hinformation : (headForm m).1 = (headForm n).1 := by
    have hmlt := headForm_lt m
    have hnlt := headForm_lt n
    have hnat := congrArg UInt8.toNat hfirst
    rw [UInt8.toNat_ofNat', UInt8.toNat_ofNat'] at hnat
    omega
  obtain ⟨hsize, hzero⟩ := headForm_information hinformation
  obtain ⟨hargument, htail⟩ := List.append_inj hrest (by
    rw [List.length_reverse, List.length_reverse, Bytes.length_leBytes,
      Bytes.length_leBytes, hsize])
  refine ⟨?_, htail⟩
  by_cases hnone : (headForm m).2 = 0
  · exact hzero hnone
  · have hmlt := lt_of_headForm hm hnone
    have hnlt := lt_of_headForm hn (hsize ▸ hnone)
    rw [hsize] at hmlt
    rw [hsize] at hargument
    exact Bytes.leBytes_inj hmlt hnlt (List.reverse_injective hargument)

theorem text_append_inj [Ciborium] [LawfulCiborium] {s t : String}
    (hs : (utf8 s).length < 2 ^ 64) (ht : (utf8 t).length < 2 ^ 64)
    {r r' : List UInt8}
    (h : Ciborium.intoWriter (.text s) ++ r =
      Ciborium.intoWriter (.text t) ++ r') : s = t ∧ r = r' := by
  rw [LawfulCiborium.intoWriter_text, LawfulCiborium.intoWriter_text,
    List.append_assoc, List.append_assoc] at h
  obtain ⟨hlength, htail⟩ := cborHead_append_inj (by decide) hs ht h
  obtain ⟨hbytes, hrest⟩ := List.append_inj htail hlength
  exact ⟨utf8_inj hbytes, hrest⟩

end Longfellow.MdocZk
