/-
Infinite streams of bytes, and rejection sampling from a position of one: what
is sampled, and how far the stream is read.
-/
import Longfellow.Lib.Bytes
import Mathlib.Data.List.Range
import Mathlib.Tactic.Ring

namespace ByteStream

open Bytes

/-- The `n` bytes of a stream from a position on. -/
def window (stream : Nat → UInt8) (position n : Nat) : List UInt8 :=
  (List.range n).map fun i => stream (position + i)

theorem window_zero (stream : Nat → UInt8) (position : Nat) :
    window stream position 0 = [] := rfl

theorem window_succ (stream : Nat → UInt8) (position n : Nat) :
    window stream position (n + 1) =
      stream position :: window stream (position + 1) n := by
  rw [window, window, List.range_succ_eq_map, List.map_cons, List.map_map]
  congr 1
  apply List.map_congr_left
  intro i _
  rw [Function.comp_apply, Nat.succ_eq_add_one, Nat.add_assoc,
    Nat.add_comm 1 i]

/-- Mask the excess bits in the last of the bytes that `numBits` bits take. -/
def maskExcess (numBits : Nat) (bytes : List UInt8) : List UInt8 :=
  let numBytes := (numBits + 7) / 8
  let excessBits := numBytes * 8 - numBits
  if excessBits = 0 then bytes
  else bytes.modify (numBytes - 1)
    (· &&& UInt8.ofNat (2 ^ (8 - excessBits) - 1))

theorem length_maskExcess (numBits : Nat) (bytes : List UInt8) :
    (maskExcess numBits bytes).length = bytes.length := by
  rw [maskExcess]
  split
  · rfl
  · exact List.length_modify ..

theorem toNat_and_mask (byte : UInt8) {r : Nat} (hr : r ≤ 8) :
    (byte &&& UInt8.ofNat (2 ^ r - 1)).toNat = byte.toNat % 2 ^ r := by
  have hle : 2 ^ r ≤ 2 ^ 8 := Nat.pow_le_pow_right (by decide) hr
  have hpos : 0 < 2 ^ r := Nat.two_pow_pos r
  have hmask : (UInt8.ofNat (2 ^ r - 1)).toNat = 2 ^ r - 1 := by
    rw [UInt8.toNat_ofNat']
    exact Nat.mod_eq_of_lt (by omega)
  rw [UInt8.toNat_and, hmask, Nat.and_two_pow_sub_one_eq_mod]

/-- Masking the excess bits leaves the number that the bits denote. -/
theorem ofLeBytes_maskExcess {numBits : Nat} {bytes : List UInt8}
    (hlength : bytes.length = (numBits + 7) / 8) :
    ofLeBytes (maskExcess numBits bytes) = ofLeBytes bytes % 2 ^ numBits := by
  by_cases hexcess : (numBits + 7) / 8 * 8 - numBits = 0
  · have hbits : numBits = 8 * bytes.length := by omega
    have hlt := ofLeBytes_lt bytes
    rw [show (256 : Nat) = 2 ^ 8 by rfl, ← pow_mul, ← hbits] at hlt
    rw [maskExcess, if_pos hexcess, Nat.mod_eq_of_lt hlt]
  · obtain ⟨initial, last, rfl⟩ : ∃ initial last,
        bytes = initial ++ [last] := by
      refine ⟨_, _, (List.dropLast_append_getLast ?_).symm⟩
      rintro rfl
      rw [List.length_nil] at hlength
      omega
    rw [List.length_append, List.length_singleton] at hlength
    have hlast : (numBits + 7) / 8 - 1 = initial.length := by omega
    have hbits : 2 ^ numBits = 256 ^ initial.length *
        2 ^ (8 - ((numBits + 7) / 8 * 8 - numBits)) := by
      rw [show (256 : Nat) = 2 ^ 8 by rfl, ← pow_mul, ← pow_add]
      congr 1
      omega
    have hmasked : maskExcess numBits (initial ++ [last]) = initial ++
        [last &&& UInt8.ofNat
          (2 ^ (8 - ((numBits + 7) / 8 * 8 - numBits)) - 1)] := by
      rw [maskExcess, if_neg hexcess, hlast, List.modify_eq_set]
      simp
    have hlow := ofLeBytes_lt initial
    have hpos : 0 < 256 ^ initial.length := by positivity
    rw [hmasked, ofLeBytes_concat, ofLeBytes_concat, hbits, Nat.mod_mul,
      Nat.add_mul_mod_self_left, Nat.mod_eq_of_lt hlow,
      Nat.add_mul_div_left _ _ hpos, Nat.div_eq_of_lt hlow, Nat.zero_add,
      toNat_and_mask _ (Nat.sub_le _ _)]

variable {α : Type}

/-- One round of sampling at a position: a value, if the bits there are one. -/
def round (stream : Nat → UInt8) (numBits : Nat)
    (accept : List UInt8 → Option α) (position : Nat) : Option α :=
  accept (maskExcess numBits (window stream position ((numBits + 7) / 8)))

/-- Sampling at a position yields a value and ends at another position: that of
the first accepted round, every rejected one having consumed its bytes. -/
def Sampled (stream : Nat → UInt8) (numBits : Nat)
    (accept : List UInt8 → Option α) (position : Nat) (a : α) (next : Nat) :
    Prop :=
  ∃ rejections,
    (∀ k, k < rejections → round stream numBits accept
      (position + k * ((numBits + 7) / 8)) = none) ∧
    round stream numBits accept
      (position + rejections * ((numBits + 7) / 8)) = some a ∧
    next = position + (rejections + 1) * ((numBits + 7) / 8)

/-- What is sampled depends on the stream and the position only. -/
theorem Sampled.unique {stream : Nat → UInt8} {numBits : Nat}
    {accept : List UInt8 → Option α} {position : Nat} {a b : α} {p q : Nat}
    (ha : Sampled stream numBits accept position a p)
    (hb : Sampled stream numBits accept position b q) : a = b ∧ p = q := by
  obtain ⟨m, hrejected, haccepted, rfl⟩ := ha
  obtain ⟨n, hrejected', haccepted', rfl⟩ := hb
  have hsame : m = n := by
    rcases Nat.lt_trichotomy m n with hlt | heq | hlt
    · rw [hrejected' m hlt] at haccepted
      cases haccepted
    · exact heq
    · rw [hrejected n hlt] at haccepted'
      cases haccepted'
  subst hsame
  rw [haccepted, Option.some_inj] at haccepted'
  exact ⟨haccepted', rfl⟩

/-- Sampling several values, one after the other. -/
inductive SampledList (stream : Nat → UInt8) (numBits : Nat)
    (accept : List UInt8 → Option α) : Nat → List α → Nat → Prop where
  | nil (position : Nat) : SampledList stream numBits accept position [] position
  | cons {position : Nat} {a : α} {next : Nat} {as : List α} {last : Nat} :
      Sampled stream numBits accept position a next →
      SampledList stream numBits accept next as last →
      SampledList stream numBits accept position (a :: as) last

theorem SampledList.unique {stream : Nat → UInt8} {numBits : Nat}
    {accept : List UInt8 → Option α} {position : Nat} {as bs : List α}
    {p q : Nat} (ha : SampledList stream numBits accept position as p)
    (hb : SampledList stream numBits accept position bs q)
    (hlength : as.length = bs.length) : as = bs ∧ p = q := by
  induction ha generalizing bs with
  | nil position =>
      cases hb with
      | nil => exact ⟨rfl, rfl⟩
      | cons => cases hlength
  | cons hfirst _ ih =>
      cases hb with
      | nil => cases hlength
      | cons hfirst' hrest' =>
          obtain ⟨rfl, rfl⟩ := hfirst.unique hfirst'
          obtain ⟨rfl, rfl⟩ := ih hrest' (Nat.succ.inj hlength)
          exact ⟨rfl, rfl⟩

end ByteStream
