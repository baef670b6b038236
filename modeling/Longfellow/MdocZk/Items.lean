/-
Walks over whole items: skipping a body, reading a string, and the loop over
the entries of a map.
-/
import Longfellow.MdocZk.Decoder

namespace Longfellow.MdocZk

open Exec CborDecoder

/-- Whether a count has reached a length that is known. -/
def reached (length : Option Nat) (count : Nat) : Bool :=
  length.any (· ≤ count)

mutual

/-- Advance the decoder past the body of an item, with fuel for the items that
are inside it. -/
def skipBodyWith : Nat → Header → CborDecoder → Exec CborDecoder
  | 0, _, _ => abort "out of fuel"
  | fuel + 1, header, decoder =>
      match header with
      | .positive _ | .negative _ | .float | .simple _ => pure decoder
      | .tag _ => do
          let (header, decoder) ←
            decoder.pull "reading next item after tag failed"
          skipBodyWith fuel header decoder
      | .stop => fail "unexpected break header when skipping value"
      | .bytes length => do
          let (_, decoder) ← readString false
            ⟨"error skipping past bytes", "error skipping past bytes"⟩ length
            decoder
          pure decoder
      | .text length => do
          let (_, decoder) ← readString true
            ⟨"error skipping past text", "error skipping past text"⟩ length
            decoder
          pure decoder
      | .array length => skipArray fuel length 0 decoder
      | .map length => skipMap fuel length 0 decoder

/-- The loop over the elements of an array. -/
def skipArray : Nat → Option Nat → Nat → CborDecoder → Exec CborDecoder
  | 0, _, _, _ => abort "out of fuel"
  | fuel + 1, length, elementCount, decoder =>
      if reached length elementCount then pure decoder
      else do
        let (header, decoder) ← decoder.pull "error skipping array"
        if header = .stop then
          if length.isSome then
            fail "unexpected break in array of known size"
          else pure decoder
        else do
          let decoder ← skipBodyWith fuel header decoder
          skipArray fuel length (elementCount + 1) decoder

/-- The loop over the entries of a map, whose keys might not be text. -/
def skipMap : Nat → Option Nat → Nat → CborDecoder → Exec CborDecoder
  | 0, _, _, _ => abort "out of fuel"
  | fuel + 1, length, entryCount, decoder =>
      if reached length entryCount then pure decoder
      else do
        let (keyHeader, decoder) ← decoder.pull "error skipping map"
        if keyHeader = .stop then
          if length.isSome then
            fail "unexpected break in map of known size"
          else pure decoder
        else do
          let decoder ← skipBodyWith fuel keyHeader decoder
          let (valueHeader, decoder) ← decoder.pull "error skipping map"
          let decoder ← skipBodyWith fuel valueHeader decoder
          skipMap fuel length (entryCount + 1) decoder

end

/-- Advance the decoder past the body of an item, if applicable. -/
def skipBody (header : Header) (decoder : CborDecoder) : Exec CborDecoder :=
  skipBodyWith (2 * decoder.input.length + 2) header decoder

/-- No walk moves backwards. -/
theorem length_skip (fuel : Nat) :
    (∀ header decoder next, skipBodyWith fuel header decoder = .ok next →
      next.input.length ≤ decoder.input.length) ∧
    (∀ length count decoder next,
      skipArray fuel length count decoder = .ok next →
      next.input.length ≤ decoder.input.length) ∧
    (∀ length count decoder next,
      skipMap fuel length count decoder = .ok next →
      next.input.length ≤ decoder.input.length) := by
  induction fuel with
  | zero =>
      refine ⟨?_, ?_, ?_⟩
      · intro header decoder next h
        cases h
      · intro length count decoder next h
        cases h
      · intro length count decoder next h
        cases h
  | succ fuel ih =>
      obtain ⟨hbody, harray, hmap⟩ := ih
      refine ⟨?_, ?_, ?_⟩
      · intro header decoder next h
        have hstring {isText : Bool} {reasons : StringReasons}
            {length : Option Nat}
            (hread : (do
              let (_, after) ← readString isText reasons length decoder
              pure after) = Except.ok next) :
            next.input.length ≤ decoder.input.length := by
          obtain ⟨⟨bytes, after⟩, hread, hnext⟩ := Exec.bind_eq_ok.mp hread
          cases hnext
          exact length_readString hread
        cases header with
        | positive | negative | float | simple =>
            cases h
            exact le_rfl
        | tag number =>
            obtain ⟨⟨inner, after⟩, hpull, hskip⟩ := Exec.bind_eq_ok.mp h
            exact (hbody _ _ _ hskip).trans (length_pull hpull).le
        | stop => cases h
        | bytes length => exact hstring h
        | text length => exact hstring h
        | array length => exact harray _ _ _ _ h
        | map length => exact hmap _ _ _ _ h
      · intro length count decoder next h
        rw [skipArray] at h
        by_cases hreached : reached length count = true
        · rw [if_pos hreached] at h
          cases h
          exact le_rfl
        · rw [if_neg hreached] at h
          obtain ⟨⟨inner, after⟩, hpull, h⟩ := Exec.bind_eq_ok.mp h
          have hafter := length_pull hpull
          dsimp only at h
          split_ifs at h
          · cases h
          · cases h
            exact hafter.le
          · obtain ⟨last, hskip, h⟩ := Exec.bind_eq_ok.mp h
            have hlast := hbody _ _ _ hskip
            have hrest := harray _ _ _ _ h
            omega
      · intro length count decoder next h
        rw [skipMap] at h
        by_cases hreached : reached length count = true
        · rw [if_pos hreached] at h
          cases h
          exact le_rfl
        · rw [if_neg hreached] at h
          obtain ⟨⟨key, after⟩, hpull, h⟩ := Exec.bind_eq_ok.mp h
          have hafter := length_pull hpull
          dsimp only at h
          split_ifs at h
          · cases h
          · cases h
            exact hafter.le
          · obtain ⟨middle, hkey, h⟩ := Exec.bind_eq_ok.mp h
            obtain ⟨⟨value, behind⟩, hpullValue, h⟩ := Exec.bind_eq_ok.mp h
            obtain ⟨last, hvalue, h⟩ := Exec.bind_eq_ok.mp h
            have hmiddle := hbody _ _ _ hkey
            have hbehind := length_pull hpullValue
            have hlast := hbody _ _ _ hvalue
            have hrest := hmap _ _ _ _ h
            dsimp only at hlast
            omega

/-- With fuel for two steps a byte, the amount does not matter. -/
theorem skip_eq (fuel : Nat) :
    (∀ fuel' header decoder, 2 * decoder.input.length + 2 ≤ fuel →
      2 * decoder.input.length + 2 ≤ fuel' →
      skipBodyWith fuel header decoder = skipBodyWith fuel' header decoder) ∧
    (∀ fuel' length count decoder, 2 * decoder.input.length + 1 ≤ fuel →
      2 * decoder.input.length + 1 ≤ fuel' →
      skipArray fuel length count decoder =
        skipArray fuel' length count decoder) ∧
    (∀ fuel' length count decoder, 2 * decoder.input.length + 1 ≤ fuel →
      2 * decoder.input.length + 1 ≤ fuel' →
      skipMap fuel length count decoder =
        skipMap fuel' length count decoder) := by
  induction fuel with
  | zero =>
      refine ⟨?_, ?_, ?_⟩
      · intro fuel' header decoder h
        omega
      · intro fuel' length count decoder h
        omega
      · intro fuel' length count decoder h
        omega
  | succ fuel ih =>
      obtain ⟨hbody, harray, hmap⟩ := ih
      refine ⟨?_, ?_, ?_⟩
      · intro fuel' header decoder h h'
        obtain ⟨fuel', rfl⟩ := Nat.exists_eq_add_of_le' (by omega : 1 ≤ fuel')
        cases header with
        | positive | negative | float | simple => rfl
        | tag number =>
            rw [skipBodyWith, skipBodyWith]
            rcases hpull : decoder.pull "reading next item after tag failed"
              with _ | ⟨inner, after⟩
            · rfl
            · have hafter := length_pull hpull
              exact hbody _ _ _ (by omega) (by omega)
        | stop => rfl
        | bytes length => rfl
        | text length => rfl
        | array length => exact harray _ _ _ _ (by omega) (by omega)
        | map length => exact hmap _ _ _ _ (by omega) (by omega)
      · intro fuel' length count decoder h h'
        obtain ⟨fuel', rfl⟩ := Nat.exists_eq_add_of_le' (by omega : 1 ≤ fuel')
        rw [skipArray, skipArray]
        rcases hpull : decoder.pull "error skipping array" with _ | ⟨inner, after⟩
        · rfl
        · have hafter := length_pull hpull
          rw [ok_bind, ok_bind]
          dsimp only
          rw [hbody fuel' inner after (by omega) (by omega)]
          rcases hskip : skipBodyWith fuel' inner after with _ | last
          · rfl
          · have hlast := (length_skip fuel').1 _ _ _ hskip
            rw [ok_bind, ok_bind,
              harray fuel' length (count + 1) last (by omega) (by omega)]
      · intro fuel' length count decoder h h'
        obtain ⟨fuel', rfl⟩ := Nat.exists_eq_add_of_le' (by omega : 1 ≤ fuel')
        rw [skipMap, skipMap]
        rcases hpull : decoder.pull "error skipping map" with _ | ⟨key, after⟩
        · rfl
        · have hafter := length_pull hpull
          rw [ok_bind, ok_bind]
          dsimp only
          rw [hbody fuel' key after (by omega) (by omega)]
          rcases hkey : skipBodyWith fuel' key after with _ | middle
          · rfl
          · have hmiddle := (length_skip fuel').1 _ _ _ hkey
            rw [ok_bind, ok_bind]
            rcases hpullValue : middle.pull "error skipping map" with
              _ | ⟨value, behind⟩
            · rfl
            · have hbehind := length_pull hpullValue
              rw [ok_bind, ok_bind]
              dsimp only
              rw [hbody fuel' value behind (by omega) (by omega)]
              rcases hvalue : skipBodyWith fuel' value behind with _ | last
              · rfl
              · have hlast := (length_skip fuel').1 _ _ _ hvalue
                rw [ok_bind, ok_bind,
                  hmap fuel' length (count + 1) last (by omega) (by omega)]

theorem skipBodyWith_eq_skipBody {fuel : Nat} {header : Header}
    {decoder : CborDecoder} (hfuel : 2 * decoder.input.length + 2 ≤ fuel) :
    skipBodyWith fuel header decoder = skipBody header decoder :=
  (skip_eq fuel).1 _ _ _ hfuel le_rfl

/-- Read the body of a text string. -/
def slurpString (decoder : CborDecoder) (length : Option Nat) :
    Exec (String × CborDecoder) := do
  let (bytes, decoder) ← readString true
    ⟨"error reading string", "error reading string segment"⟩ length decoder
  if h : (asText bytes).IsValidUTF8 then
    pure (String.fromUTF8 (asText bytes) h, decoder)
  else abort "a string is valid UTF-8"

/-- What is done with an entry of a map: its key, the offsets of its key and of
its value, and the header of its value, whose body is left to be read. -/
abbrev Entry (σ : Type) :=
  σ → CborDecoder → String → Nat → Nat → Header → Exec (σ × CborDecoder)

/-- The loop over the entries of a map with text keys. -/
def parseMapWith {σ : Type} (callback : Entry σ) (length : Option Nat) :
    Nat → Nat → σ → CborDecoder → Exec (σ × CborDecoder)
  | 0, _, _, _ => abort "out of fuel"
  | fuel + 1, entryCount, state, decoder =>
      if reached length entryCount then pure (state, decoder)
      else do
        let keyOffset := decoder.offset
        let (keyHeader, decoder) ←
          decoder.pull "reading map entry key failed"
        match keyHeader with
        | .text keyLength => do
            let (key, decoder) ← (slurpString decoder keyLength).context
              "error reading map entry key"
            let valueOffset := decoder.offset
            let (valueHeader, decoder) ←
              decoder.pull "reading map entry value failed"
            let (state, decoder) ←
              callback state decoder key keyOffset valueOffset valueHeader
            parseMapWith callback length fuel (entryCount + 1) state decoder
        | .stop =>
            if length.isSome then fail "unexpected break in map of known size"
            else pure (state, decoder)
        | _ => fail "unexpected map key type"

/-- Parses the body of a map with text keys. -/
def parseMap {σ : Type} (callback : Entry σ) (length : Option Nat) (state : σ)
    (decoder : CborDecoder) : Exec (σ × CborDecoder) :=
  parseMapWith callback length (decoder.input.length + 1) 0 state decoder

/-- The string is the one whose bytes are read. -/
theorem slurpString_eq_ok {decoder next : CborDecoder} {length : Option Nat}
    {string : String} :
    slurpString decoder length = .ok (string, next) ↔
      readString true
        ⟨"error reading string", "error reading string segment"⟩ length decoder =
        .ok (utf8 string, next) := by
  rw [slurpString, Exec.bind_eq_ok]
  constructor
  · rintro ⟨⟨bytes, after⟩, hread, hstring⟩
    dsimp only at hstring
    rw [dif_pos (valid_readString hread)] at hstring
    obtain ⟨rfl, rfl⟩ := Prod.mk.inj (Except.ok.inj hstring)
    rw [hread]
    rfl
  · intro hread
    refine ⟨_, hread, ?_⟩
    dsimp only
    rw [dif_pos (valid_readString hread)]
    have hstring : String.fromUTF8 (asText (utf8 string))
        (valid_readString hread) = string := by
      apply utf8_inj
      rfl
    rw [hstring]
    rfl

theorem length_slurpString {decoder next : CborDecoder} {length : Option Nat}
    {string : String} (h : slurpString decoder length = .ok (string, next)) :
    next.input.length ≤ decoder.input.length :=
  length_readString (slurpString_eq_ok.mp h)

/-- With more fuel than bytes, the amount does not matter to a loop whose
callback does not move backwards. -/
theorem parseMapWith_eq {σ : Type} {callback : Entry σ}
    (hcallback : ∀ state decoder key keyOffset valueOffset header next,
      callback state decoder key keyOffset valueOffset header = .ok next →
      next.2.input.length ≤ decoder.input.length)
    {length : Option Nat} {fuel fuel' entryCount : Nat} {state : σ}
    {decoder : CborDecoder} (hfuel : decoder.input.length < fuel)
    (hfuel' : decoder.input.length < fuel') :
    parseMapWith callback length fuel entryCount state decoder =
      parseMapWith callback length fuel' entryCount state decoder := by
  induction fuel generalizing fuel' entryCount state decoder with
  | zero => omega
  | succ fuel ih =>
      obtain ⟨fuel', rfl⟩ := Nat.exists_eq_add_of_le' (by omega : 1 ≤ fuel')
      rw [parseMapWith, parseMapWith]
      rcases hpull : decoder.pull "reading map entry key failed" with
        _ | ⟨keyHeader, after⟩
      · rfl
      · have hafter := length_pull hpull
        rw [ok_bind, ok_bind]
        cases keyHeader with
        | text keyLength =>
            dsimp only
            rcases hkey : (slurpString after keyLength).context
              "error reading map entry key" with _ | ⟨key, middle⟩
            · rfl
            · have hmiddle := length_slurpString (context_eq_ok.mp hkey)
              rw [ok_bind, ok_bind]
              dsimp only
              rcases hvalue : middle.pull "reading map entry value failed" with
                _ | ⟨valueHeader, behind⟩
              · rfl
              · have hbehind := length_pull hvalue
                rw [ok_bind, ok_bind]
                dsimp only
                rcases hnext : callback state behind key decoder.offset
                  middle.offset valueHeader with _ | ⟨state', last⟩
                · rfl
                · have hlast := hcallback _ _ _ _ _ _ _ hnext
                  dsimp only at hlast
                  have hrest : parseMapWith callback length fuel
                      (entryCount + 1) state' last =
                      parseMapWith callback length fuel' (entryCount + 1)
                        state' last := ih (by omega) (by omega)
                  rw [ok_bind, ok_bind]
                  dsimp only
                  rw [hrest]
        | _ => rfl

end Longfellow.MdocZk
