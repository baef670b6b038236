/-
The pull decoder of CBOR items, and the walks over strings, items and maps that
the credential code builds from it.
-/
import Longfellow.MdocZk.Cbor

namespace Longfellow.MdocZk

open Exec

/-- The start of an item. Lengths are `none` where a break ends the item. -/
inductive Header where
  | positive (value : Nat)
  | negative (value : Nat)
  | float
  | simple (value : Nat)
  | tag (number : Nat)
  | stop
  | bytes (length : Option Nat)
  | text (length : Option Nat)
  | array (length : Option Nat)
  | map (length : Option Nat)
deriving DecidableEq, Repr

/-- How the decoder fails: at the end of its input, or at an offset. -/
inductive DecoderError where
  | io
  | malformed (offset : Nat)
deriving DecidableEq

/-- The input that is left, after a number of bytes. -/
structure CborDecoder where
  input : List UInt8
  offset : Nat
deriving DecidableEq

abbrev Pulled (α : Type) := Except DecoderError α

def DecoderError.describe : DecoderError → String
  | .io => "Io(Error \x7b kind: UnexpectedEof, message: " ++
      "\"failed to fill whole buffer\" \x7d)"
  | .malformed offset => s!"Syntax({offset})"

/-- Hand an error of the decoder back with the reason for the read. -/
def Pulled.orFail {α : Type} (pulled : Pulled α) (errorReason : String) :
    Exec α :=
  match pulled with
  | .ok a => pure a
  | .error e => fail (errorReason ++ ": " ++ e.describe)

theorem Pulled.orFail_eq_ok {α : Type} {pulled : Pulled α}
    {errorReason : String} {a : α} :
    pulled.orFail errorReason = .ok a ↔ pulled = .ok a := by
  cases pulled with
  | ok b =>
      constructor
      · intro h
        cases h
        rfl
      · intro h
        cases h
        rfl
  | error e =>
      constructor
      · intro h
        cases h
      · intro h
        cases h

namespace CborDecoder

/-- Start at the first byte. -/
def start (input : List UInt8) : CborDecoder := ⟨input, 0⟩

def readExact (n : Nat) (decoder : CborDecoder) : Pulled (List UInt8 × CborDecoder) :=
  if n ≤ decoder.input.length then
    .ok (decoder.input.take n, ⟨decoder.input.drop n, decoder.offset + n⟩)
  else .error .io

/-- The number of bytes that the argument takes, from the low bits of the first
byte; 31 stands for no argument. -/
def minorSize (minor : Nat) : Option Nat :=
  if minor < 24 then some 0
  else if minor = 24 then some 1
  else if minor = 25 then some 2
  else if minor = 26 then some 4
  else if minor = 27 then some 8
  else if minor = 31 then some 0
  else none

/-- The argument of an item. -/
def argument (minor : Nat) (bytes : List UInt8) : Option Nat :=
  if minor < 24 then some minor
  else if minor = 31 then none
  else some (Bytes.ofLeBytes bytes.reverse)

/-- The header for a major type, where it has one. -/
def header (major minor : Nat) (argument : Option Nat) : Option Header :=
  match major with
  | 0 => argument.map .positive
  | 1 => argument.map .negative
  | 2 => some (.bytes argument)
  | 3 => some (.text argument)
  | 4 => some (.array argument)
  | 5 => some (.map argument)
  | 6 => argument.map .tag
  | _ =>
      match argument with
      | none => some .stop
      | some value => if minor ≤ 24 then some (.simple value) else some .float

/-- Read the header of the next item. -/
def pullHeader (decoder : CborDecoder) : Pulled (Header × CborDecoder) :=
  match decoder.input with
  | [] => .error .io
  | first :: rest =>
      let major := first.toNat / 32
      let minor := first.toNat % 32
      match minorSize minor with
      | none => .error (.malformed decoder.offset)
      | some size => do
          let (bytes, next) ← readExact size ⟨rest, decoder.offset + 1⟩
          match header major minor (argument minor bytes) with
          | none => .error (.malformed decoder.offset)
          | some header => .ok (header, next)

/-- Bytes that may stand for text. -/
def asText (bytes : List UInt8) : ByteArray := ⟨bytes.toArray⟩

/-- The bytes of one segment; those of text must be valid on their own. -/
def readSegment (isText : Bool) (n : Nat) (decoder : CborDecoder) :
    Pulled (List UInt8 × CborDecoder) := do
  let (bytes, next) ← decoder.readExact n
  if isText ∧ ¬(asText bytes).IsValidUTF8 then
    .error (.malformed next.offset)
  else .ok (bytes, next)

/-- Whether a header starts another segment, with the length of the segment. -/
def segmentLength (isText : Bool) : Header → Option (Option Nat)
  | .bytes length => if isText then none else some length
  | .text length => if isText then some length else none
  | _ => none

/-- Wrapper that calls the decoder and converts errors. -/
def pull (decoder : CborDecoder) (errorReason : String) :
    Exec (Header × CborDecoder) :=
  Pulled.orFail decoder.pullHeader errorReason

/-- How the errors of a string are told: between its segments, and in one. -/
structure StringReasons where
  segments : String
  segment : String

/-- The segments up to the break that ends the outermost of the strings that
are open. -/
def readSegments (isText : Bool) (reasons : StringReasons) :
    Nat → Nat → CborDecoder → Exec (List UInt8 × CborDecoder)
  | 0, _, _ => abort "out of fuel"
  | fuel + 1, nested, decoder => do
      let (header, next) ← decoder.pull reasons.segments
      if header = .stop then
        if nested = 1 then pure ([], next)
        else readSegments isText reasons fuel (nested - 1) next
      else
        match segmentLength isText header with
        | none =>
            Pulled.orFail (.error (.malformed decoder.offset)) reasons.segments
        | some none => readSegments isText reasons fuel (nested + 1) next
        | some (some n) => do
            let (bytes, next) ←
              Pulled.orFail (next.readSegment isText n) reasons.segment
            let (rest, next) ← readSegments isText reasons fuel nested next
            pure (bytes ++ rest, next)

/-- The body of a string, once its header has been read. -/
def readString (isText : Bool) (reasons : StringReasons)
    (length : Option Nat) (decoder : CborDecoder) :
    Exec (List UInt8 × CborDecoder) :=
  match length with
  | some n => Pulled.orFail (decoder.readSegment isText n) reasons.segment
  | none => readSegments isText reasons (decoder.input.length + 1) 1 decoder

theorem readExact_eq_ok {n : Nat} {decoder next : CborDecoder}
    {bytes : List UInt8} :
    decoder.readExact n = .ok (bytes, next) ↔
      n ≤ decoder.input.length ∧ bytes = decoder.input.take n ∧
        next = ⟨decoder.input.drop n, decoder.offset + n⟩ := by
  rw [readExact]
  split_ifs with h
  · rw [Except.ok.injEq, Prod.mk.injEq]
    exact ⟨fun heq => ⟨h, heq.1.symm, heq.2.symm⟩,
      fun heq => ⟨heq.2.1.symm, heq.2.2.symm⟩⟩
  · exact ⟨fun heq => (by cases heq), fun heq => absurd heq.1 h⟩

/-- A header takes at least one byte. -/
theorem length_pullHeader {decoder next : CborDecoder} {h : Header}
    (hpull : decoder.pullHeader = .ok (h, next)) :
    next.input.length < decoder.input.length := by
  rw [pullHeader] at hpull
  split at hpull
  · cases hpull
  · next first rest hinput =>
      dsimp only at hpull
      split at hpull
      · cases hpull
      · next size hsize =>
          rcases hread : readExact size ⟨rest, decoder.offset + 1⟩ with
            _ | ⟨bytes, after⟩
          · rw [hread] at hpull
            cases hpull
          · rw [hread] at hpull
            obtain ⟨-, -, rfl⟩ := readExact_eq_ok.mp hread
            dsimp only [Bind.bind, Except.bind] at hpull
            split at hpull
            · cases hpull
            · cases hpull
              rw [hinput, List.length_drop, List.length_cons]
              omega

theorem length_pull {decoder next : CborDecoder} {h : Header} {errorReason : String}
    (hpull : decoder.pull errorReason = .ok (h, next)) :
    next.input.length < decoder.input.length := by
  exact length_pullHeader (Pulled.orFail_eq_ok.mp hpull)

theorem length_readSegment {isText : Bool} {n : Nat} {decoder next : CborDecoder}
    {bytes : List UInt8}
    (hread : decoder.readSegment isText n = .ok (bytes, next)) :
    next.input.length ≤ decoder.input.length := by
  rw [readSegment] at hread
  rcases hexact : decoder.readExact n with _ | ⟨found, after⟩
  · rw [hexact] at hread
    cases hread
  · rw [hexact] at hread
    obtain ⟨-, -, rfl⟩ := readExact_eq_ok.mp hexact
    dsimp only [Bind.bind, Except.bind] at hread
    split at hread
    · cases hread
    · cases hread
      rw [List.length_drop]
      omega

/-- With more fuel than bytes, the amount does not matter. -/
theorem readSegments_eq {isText : Bool} {reasons : StringReasons}
    {fuel fuel' nested : Nat} {decoder : CborDecoder}
    (hfuel : decoder.input.length < fuel)
    (hfuel' : decoder.input.length < fuel') :
    readSegments isText reasons fuel nested decoder =
      readSegments isText reasons fuel' nested decoder := by
  induction fuel generalizing fuel' nested decoder with
  | zero => omega
  | succ fuel ih =>
      cases fuel' with
      | zero => omega
      | succ fuel' =>
          rw [readSegments, readSegments]
          rcases hpull : decoder.pull reasons.segments with _ | ⟨h, next⟩
          · rfl
          · have hnext := length_pull hpull
            have hstep (nested' : Nat) :
                readSegments isText reasons fuel nested' next =
                  readSegments isText reasons fuel' nested' next :=
              ih (by omega) (by omega)
            rw [ok_bind, ok_bind]
            dsimp only
            rw [hstep, hstep]
            congr 1
            split
            · rfl
            · rfl
            · next n _ =>
                rcases hread : Pulled.orFail (next.readSegment isText n)
                  reasons.segment with _ | ⟨bytes, after⟩
                · rfl
                · have hafter :=
                    length_readSegment (Pulled.orFail_eq_ok.mp hread)
                  have hrest : readSegments isText reasons fuel nested after =
                      readSegments isText reasons fuel' nested after :=
                    ih (by omega) (by omega)
                  rw [ok_bind, ok_bind]
                  dsimp only
                  rw [hrest]

theorem length_readSegments {isText : Bool} {reasons : StringReasons}
    {fuel nested : Nat} {decoder next : CborDecoder} {bytes : List UInt8}
    (hread : readSegments isText reasons fuel nested decoder =
      .ok (bytes, next)) : next.input.length ≤ decoder.input.length := by
  induction fuel generalizing nested decoder bytes with
  | zero => cases hread
  | succ fuel ih =>
      rw [readSegments] at hread
      obtain ⟨⟨h, after⟩, hpull, hread⟩ := Exec.bind_eq_ok.mp hread
      have hafter := length_pull hpull
      dsimp only at hread
      split_ifs at hread with hstop hnested
      · cases hread
        omega
      · have hrest := ih hread
        omega
      · split at hread
        · cases hread
        · have hrest := ih hread
          omega
        · next n _ =>
            obtain ⟨⟨first, middle⟩, hfirst, hread⟩ :=
              Exec.bind_eq_ok.mp hread
            obtain ⟨⟨rest, last⟩, hrest, hread⟩ := Exec.bind_eq_ok.mp hread
            obtain ⟨-, rfl⟩ := Prod.mk.inj (Except.ok.inj hread)
            have hmiddle := length_readSegment (Pulled.orFail_eq_ok.mp hfirst)
            have hlast := ih hrest
            dsimp only at hmiddle hlast ⊢
            omega

theorem valid_readSegment {n : Nat} {decoder next : CborDecoder}
    {bytes : List UInt8}
    (hread : decoder.readSegment true n = .ok (bytes, next)) :
    (asText bytes).IsValidUTF8 := by
  rw [readSegment] at hread
  rcases hexact : decoder.readExact n with _ | ⟨found, after⟩
  · rw [hexact] at hread
    cases hread
  · rw [hexact] at hread
    dsimp only [Bind.bind, Except.bind] at hread
    split at hread
    · cases hread
    · next hvalid =>
        cases hread
        simpa using hvalid

theorem asText_append (bytes rest : List UInt8) :
    asText (bytes ++ rest) = asText bytes ++ asText rest := by
  apply ByteArray.ext
  simp [asText]

/-- Text is valid as a whole, since all of its segments are. -/
theorem valid_readSegments {reasons : StringReasons} {fuel nested : Nat}
    {decoder next : CborDecoder} {bytes : List UInt8}
    (hread : readSegments true reasons fuel nested decoder =
      .ok (bytes, next)) : (asText bytes).IsValidUTF8 := by
  induction fuel generalizing nested decoder bytes with
  | zero => cases hread
  | succ fuel ih =>
      rw [readSegments] at hread
      obtain ⟨⟨h, after⟩, hpull, hread⟩ := Exec.bind_eq_ok.mp hread
      dsimp only at hread
      split_ifs at hread with hstop hnested
      · cases hread
        exact ByteArray.isValidUTF8_empty
      · exact ih hread
      · split at hread
        · cases hread
        · exact ih hread
        · next n _ =>
            obtain ⟨⟨first, middle⟩, hfirst, hread⟩ :=
              Exec.bind_eq_ok.mp hread
            obtain ⟨⟨rest, last⟩, hrest, hread⟩ := Exec.bind_eq_ok.mp hread
            obtain ⟨rfl, rfl⟩ := Prod.mk.inj (Except.ok.inj hread)
            rw [asText_append]
            exact (valid_readSegment (Pulled.orFail_eq_ok.mp hfirst)).append
              (ih hrest)

theorem valid_readString {reasons : StringReasons} {length : Option Nat}
    {decoder next : CborDecoder} {bytes : List UInt8}
    (hread : readString true reasons length decoder = .ok (bytes, next)) :
    (asText bytes).IsValidUTF8 := by
  cases length with
  | none => exact valid_readSegments hread
  | some n => exact valid_readSegment (Pulled.orFail_eq_ok.mp hread)

theorem length_readString {isText : Bool} {reasons : StringReasons}
    {length : Option Nat} {decoder next : CborDecoder} {bytes : List UInt8}
    (hread : readString isText reasons length decoder = .ok (bytes, next)) :
    next.input.length ≤ decoder.input.length := by
  cases length with
  | none => exact length_readSegments hread
  | some n => exact length_readSegment (Pulled.orFail_eq_ok.mp hread)

end CborDecoder

end Longfellow.MdocZk
