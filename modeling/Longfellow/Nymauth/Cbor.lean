/-
A minimal, bounds-checked walker over CBOR.  Only definite lengths are accepted.
-/
import Longfellow.MdocZk.Decoder
import Longfellow.Nymauth.Lfc2

namespace Longfellow.Nymauth

open Exec

/-- An error about an argument of the wrong size, format or range. -/
def invalid {α : Type} (m : String) : Exec α :=
  fail s!"nymauth invalid input: {m}"

/-- An error about a structure that does not follow the issuance profile. -/
def credential {α : Type} (m : String) : Exec α :=
  fail s!"nymauth credential: {m}"

namespace Cbor

def maxDepth : Nat := 16

/-- The bytes between two positions, if both are in the data. -/
def getRange (d : List UInt8) (start stop : Nat) : Option (List UInt8) :=
  if start ≤ stop ∧ stop ≤ d.length then
    some ((d.drop start).take (stop - start))
  else none

/-- The major type, the argument and the head length of the item at `p`. -/
def head (d : List UInt8) (p : Nat) : Exec (UInt8 × UInt64 × Nat) :=
  match d[p]? with
  | none => credential "truncated CBOR"
  | some b =>
      let mt := b >>> 5
      let ai := b &&& 31
      if ai ≤ 23 then pure (mt, ai.toUInt64, 1)
      else if ai ≤ 27 then
        let n := 1 <<< (ai - 24).toNat
        match getRange d (p + 1) (p + 1 + n) with
        | none => credential "truncated CBOR head"
        | some bytes =>
            let v := bytes.foldl
              (fun (v : UInt64) (x : UInt8) => v <<< 8 ||| x.toUInt64) 0
            pure (mt, v, 1 + n)
      else credential "indefinite or reserved CBOR length"

/-- The end of a byte or text string. -/
def stringEnd (d : List UInt8) (p : Nat) (mt : UInt8) (v : UInt64) (hl : Nat) :
    Exec Nat :=
  let e := p + hl + v.toNat
  if Lfc2.usizeMax < e then credential "CBOR length overflow"
  else
    match getRange d (p + hl) e with
    | some text =>
        -- A text string must be valid UTF-8.
        if mt = 3 ∧ ¬(MdocZk.CborDecoder.asText text).IsValidUTF8 then
          credential "CBOR text string is not valid UTF-8"
        else pure e
    | none => pure e

/-- The number of items in an array or a map. -/
def itemCount (mt : UInt8) (v : UInt64) : Exec Nat :=
  if mt = 5 then
    if 2 ^ 64 ≤ 2 * v.toNat then credential "CBOR length overflow"
    else pure (2 * v.toNat)
  else pure v.toNat

/-- Walk a number of items, one after the other. -/
def items (item : Nat → Exec Nat) : Nat → Nat → Exec Nat
  | 0, q => pure q
  | count + 1, q => do
      let q ← item q
      items item count q

/-- The end of an item whose head has been read; `inner` walks the items one
level below. -/
def bodyEnd (inner : Nat → Exec Nat) (d : List UInt8) (p : Nat) (mt : UInt8)
    (v : UInt64) (hl : Nat) : Exec Nat :=
  if mt = 2 ∨ mt = 3 then stringEnd d p mt v hl
  else if mt = 0 ∨ mt = 1 then pure (p + hl)
  else if mt = 7 then
    -- The form with one more byte is only for the values from 32 on.
    if hl = 2 ∧ v < 32 then credential "non-canonical CBOR simple value"
    else pure (p + hl)
  else if mt = 6 then inner (p + hl)
  else if mt = 4 ∨ mt = 5 then do
    let count ← itemCount mt v
    let left ← checkedSub d.length p
    -- Every item takes at least one byte.
    if left < count then credential "truncated CBOR container"
    else items inner count (p + hl)
  else credential "unknown CBOR item type"

/-- The end of the item at `p`, where so many levels of nesting are left. -/
def endDepth (d : List UInt8) : Nat → Nat → Exec Nat
  | 0, _ => credential "CBOR nested too deeply"
  | levels + 1, p => do
      let item ← head d p
      let e ← bodyEnd (endDepth d levels) d p item.1 item.2.1 item.2.2
      if d.length < e then credential "truncated CBOR item" else pure e

/-- The end of the item at `p`. -/
def endOf (d : List UInt8) (p : Nat) : Exec Nat :=
  endDepth d (maxDepth + 1) p

/-- The walk over an array that may fit into the rest of the data. -/
theorem bodyEnd_array {inner : Nat → Exec Nat} {d : List UInt8} {p hl : Nat}
    {v : UInt64} (hp : p ≤ d.length) (hcount : v.toNat ≤ d.length - p) :
    bodyEnd inner d p 4 v hl = items inner v.toNat (p + hl) := by
  rw [bodyEnd, if_neg (by decide), if_neg (by decide), if_neg (by decide),
    if_neg (by decide), if_pos (by decide), itemCount, if_neg (by decide),
    pure_eq_ok, ok_bind, checkedSub_of_le hp, ok_bind,
    if_neg (Nat.not_lt.mpr hcount)]

section Extension

variable {d : List UInt8}

theorem getRange_append {start stop : Nat} {bytes : List UInt8}
    (h : getRange d start stop = some bytes) (r : List UInt8) :
    getRange (d ++ r) start stop = some bytes := by
  by_cases hrange : start ≤ stop ∧ stop ≤ d.length
  · rw [getRange, if_pos hrange, Option.some.injEq] at h
    rw [getRange, if_pos (by rw [List.length_append]; omega), ← h,
      List.drop_append_of_le_length (by omega),
      List.take_append_of_le_length (by rw [List.length_drop]; omega)]
  · rw [getRange, if_neg hrange] at h
    cases h

theorem head_append {p : Nat} {item : UInt8 × UInt64 × Nat}
    (h : head d p = .ok item) (r : List UInt8) :
    head (d ++ r) p = .ok item := by
  rw [head] at h ⊢
  cases hb : d[p]? with
  | none =>
      rw [hb] at h
      cases h
  | some b =>
      have hlt := (List.getElem?_eq_some_iff.mp hb).1
      rw [hb] at h
      rw [List.getElem?_append_left hlt, hb]
      simp only at h ⊢
      by_cases hshort : b &&& 31 ≤ 23
      · rw [if_pos hshort] at h ⊢
        exact h
      · rw [if_neg hshort] at h ⊢
        by_cases hlong : b &&& 31 ≤ 27
        · rw [if_pos hlong] at h ⊢
          cases hbytes : getRange d (p + 1)
              (p + 1 + 1 <<< ((b &&& 31) - 24).toNat) with
          | none =>
              rw [hbytes] at h
              cases h
          | some bytes =>
              rw [hbytes] at h
              rw [getRange_append hbytes r]
              exact h
        · rw [if_neg hlong] at h
          cases h

theorem head_position {p : Nat} {item : UInt8 × UInt64 × Nat}
    (h : head d p = .ok item) : p < d.length := by
  rw [head] at h
  cases hb : d[p]? with
  | none =>
      rw [hb] at h
      cases h
  | some b => exact (List.getElem?_eq_some_iff.mp hb).1

theorem stringEnd_append {p hl e : Nat} {mt : UInt8} {v : UInt64}
    (h : stringEnd d p mt v hl = .ok e) (he : e ≤ d.length)
    (r : List UInt8) : stringEnd (d ++ r) p mt v hl = .ok e := by
  simp only [stringEnd] at h ⊢
  by_cases hoverflow : Lfc2.usizeMax < p + hl + v.toNat
  · rw [if_pos hoverflow] at h
    cases h
  · rw [if_neg hoverflow] at h ⊢
    have hend : p + hl + v.toNat = e := by
      split at h
      · split at h
        · cases h
        · exact Except.ok.inj h
      · exact Except.ok.inj h
    have htext : getRange d (p + hl) (p + hl + v.toNat) =
        some ((d.drop (p + hl)).take (p + hl + v.toNat - (p + hl))) := by
      rw [getRange, if_pos (by omega)]
    rw [htext] at h
    rw [getRange_append htext r]
    exact h

theorem items_append {item item' : Nat → Exec Nat}
    (hitem : ∀ q e, item q = .ok e → item' q = .ok e) {count q e : Nat}
    (h : items item count q = .ok e) : items item' count q = .ok e := by
  induction count generalizing q with
  | zero => exact h
  | succ count ih =>
      obtain ⟨q', hq, hrest⟩ := Exec.bind_eq_ok.mp h
      rw [items, hitem q q' hq, ok_bind]
      exact ih hrest

theorem bodyEnd_append {inner inner' : Nat → Exec Nat}
    (hinner : ∀ q e, inner q = .ok e → inner' q = .ok e)
    {p hl e : Nat} {mt : UInt8} {v : UInt64}
    (h : bodyEnd inner d p mt v hl = .ok e) (he : e ≤ d.length)
    (r : List UInt8) : bodyEnd inner' (d ++ r) p mt v hl = .ok e := by
  rw [bodyEnd] at h ⊢
  by_cases hstring : mt = 2 ∨ mt = 3
  · rw [if_pos hstring] at h ⊢
    exact stringEnd_append h he r
  · rw [if_neg hstring] at h ⊢
    by_cases hinteger : mt = 0 ∨ mt = 1
    · rw [if_pos hinteger] at h ⊢
      exact h
    · rw [if_neg hinteger] at h ⊢
      by_cases hsimple : mt = 7
      · rw [if_pos hsimple] at h ⊢
        exact h
      · rw [if_neg hsimple] at h ⊢
        by_cases htag : mt = 6
        · rw [if_pos htag] at h ⊢
          exact hinner _ _ h
        · rw [if_neg htag] at h ⊢
          by_cases hcontainer : mt = 4 ∨ mt = 5
          · rw [if_pos hcontainer] at h ⊢
            obtain ⟨count, hcount, h⟩ := Exec.bind_eq_ok.mp h
            obtain ⟨left, hleft, h⟩ := Exec.bind_eq_ok.mp h
            obtain ⟨hp, rfl⟩ := checkedSub_eq_ok.mp hleft
            by_cases hfew : d.length - p < count
            · rw [if_pos hfew] at h
              cases h
            · rw [if_neg hfew] at h
              have hp' : p ≤ (d ++ r).length := by
                rw [List.length_append]
                omega
              have hfew' : ¬ (d ++ r).length - p < count := by
                rw [List.length_append]
                omega
              rw [hcount, ok_bind, checkedSub_of_le hp', ok_bind,
                if_neg hfew']
              exact items_append hinner h
          · rw [if_neg hcontainer] at h
            cases h

/-- An item that ends inside the data ends there whatever follows the data. -/
theorem endDepth_append {levels p e : Nat} (h : endDepth d levels p = .ok e)
    (r : List UInt8) : endDepth (d ++ r) levels p = .ok e := by
  induction levels generalizing p e with
  | zero => cases h
  | succ levels ih =>
      obtain ⟨item, hhead, h⟩ := Exec.bind_eq_ok.mp h
      obtain ⟨e', hbody, h⟩ := Exec.bind_eq_ok.mp h
      by_cases htruncated : d.length < e'
      · rw [if_pos htruncated] at h
        cases h
      · rw [if_neg htruncated] at h
        have he := Except.ok.inj h
        subst he
        have hlength : ¬ (d ++ r).length < e' := by
          rw [List.length_append]
          omega
        have hinner (q e : Nat) (hq : endDepth d levels q = .ok e) :
            endDepth (d ++ r) levels q = .ok e := ih hq
        rw [endDepth, head_append hhead r, ok_bind,
          bodyEnd_append hinner hbody (Nat.not_lt.mp htruncated) r, ok_bind,
          if_neg hlength]
        rfl

/-- No item is a proper prefix of another one. -/
theorem endOf_prefixFree {x y r s : List UInt8}
    (hx : endOf x 0 = .ok x.length) (hy : endOf y 0 = .ok y.length)
    (h : x ++ r = y ++ s) : x = y ∧ r = s := by
  have hxr : endOf (x ++ r) 0 = .ok x.length := endDepth_append hx r
  have hys : endOf (y ++ s) 0 = .ok y.length := endDepth_append hy s
  rw [h, hys] at hxr
  exact List.append_inj h (Except.ok.inj hxr).symm

end Extension

end Cbor

end Longfellow.Nymauth
