/-
What the decoder reads of its input: headers, segments and strings, each with
the bytes that it takes.
-/
import Longfellow.Lib.StreamItem
import Longfellow.MdocZk.Items

namespace Longfellow.MdocZk

open Exec DataItem StreamItem

namespace CborDecoder

/-- From one decoder to another, some bytes of the input have been read. -/
structure Reads (decoder : CborDecoder) (bytes : List UInt8)
    (next : CborDecoder) : Prop where
  input : decoder.input = bytes ++ next.input
  offset : next.offset = decoder.offset + bytes.length

theorem Reads.nil (decoder : CborDecoder) : Reads decoder [] decoder :=
  ⟨rfl, rfl⟩

theorem Reads.append {first second third : CborDecoder}
    {bytes bytes' : List UInt8} (h : Reads first bytes second)
    (h' : Reads second bytes' third) : Reads first (bytes ++ bytes') third :=
  ⟨by rw [h.input, h'.input, List.append_assoc],
    by rw [h'.offset, h.offset, List.length_append, Nat.add_assoc]⟩

/-- The decoder after the bytes. -/
theorem Reads.next_eq {decoder next next' : CborDecoder} {bytes : List UInt8}
    (h : Reads decoder bytes next) (h' : Reads decoder bytes next') :
    next = next' := by
  obtain ⟨input, offset⟩ := next
  obtain ⟨input', offset'⟩ := next'
  have hinput := List.append_cancel_left (h.input.symm.trans h'.input)
  have hoffset := h.offset.trans h'.offset.symm
  simp only at hinput hoffset
  rw [hinput, hoffset]

theorem Reads.split {decoder next : CborDecoder} {bytes bytes' : List UInt8}
    (h : Reads decoder (bytes ++ bytes') next) :
    ∃ middle, Reads decoder bytes middle ∧ Reads middle bytes' next :=
  ⟨⟨bytes' ++ next.input, decoder.offset + bytes.length⟩,
    ⟨by rw [h.input, List.append_assoc], rfl⟩,
    ⟨rfl, by rw [h.offset, List.length_append, Nat.add_assoc]⟩⟩

theorem Reads.length {decoder next : CborDecoder} {bytes : List UInt8}
    (h : Reads decoder bytes next) :
    decoder.input.length = bytes.length + next.input.length := by
  rw [h.input, List.length_append]

/-- The bytes that a header stands for. -/
inductive HeaderBytes : Header → List UInt8 → Prop
  | positive {value : Nat} {bytes : List UInt8} :
      Head 0 value bytes → HeaderBytes (.positive value) bytes
  | negative {value : Nat} {bytes : List UInt8} :
      Head 1 value bytes → HeaderBytes (.negative value) bytes
  | bytes {length : Nat} {bytes : List UInt8} :
      Head 2 length bytes → HeaderBytes (.bytes (some length)) bytes
  | text {length : Nat} {bytes : List UInt8} :
      Head 3 length bytes → HeaderBytes (.text (some length)) bytes
  | array {length : Nat} {bytes : List UInt8} :
      Head 4 length bytes → HeaderBytes (.array (some length)) bytes
  | map {length : Nat} {bytes : List UInt8} :
      Head 5 length bytes → HeaderBytes (.map (some length)) bytes
  | tag {number : Nat} {bytes : List UInt8} :
      Head 6 number bytes → HeaderBytes (.tag number) bytes
  | simple {value : Nat} {bytes : List UInt8} :
      Head 7 value bytes → bytes.length ≤ 2 →
      HeaderBytes (.simple value) bytes
  | float {value : Nat} {bytes : List UInt8} :
      Head 7 value bytes → 2 < bytes.length → HeaderBytes .float bytes
  | openBytes : HeaderBytes (.bytes none) [opening 2]
  | openText : HeaderBytes (.text none) [opening 3]
  | openArray : HeaderBytes (.array none) [opening 4]
  | openMap : HeaderBytes (.map none) [opening 5]
  | stop : HeaderBytes .stop [StreamItem.stop]

theorem firstByte {major minor : Nat} (hmajor : major < 8)
    (hminor : minor < 32) :
    (UInt8.ofNat (32 * major + minor)).toNat / 32 = major ∧
      (UInt8.ofNat (32 * major + minor)).toNat % 32 = minor := by
  rw [UInt8.toNat_ofNat']
  omega

/-- What is read behind a first byte. -/
theorem pullHeader_cons {major minor size : Nat} {bytes : List UInt8}
    (hmajor : major < 8) (hminor : minor < 32)
    (hsize : minorSize minor = some size) (hbytes : bytes.length = size)
    {decoder next : CborDecoder}
    (h : Reads decoder (UInt8.ofNat (32 * major + minor) :: bytes) next) :
    decoder.pullHeader =
      match header major minor (argument minor bytes) with
      | none => .error (.malformed decoder.offset)
      | some header => .ok (header, next) := by
  obtain ⟨hfirst, hlow⟩ := firstByte hmajor hminor
  have hnext : next = ⟨next.input, decoder.offset + 1 + size⟩ := by
    obtain ⟨input, offset⟩ := next
    have hoffset := h.offset
    rw [List.length_cons, hbytes] at hoffset
    simp only at hoffset ⊢
    rw [hoffset, Nat.add_right_comm, Nat.add_assoc]
  have hread : readExact size ⟨bytes ++ next.input, decoder.offset + 1⟩ =
      .ok (bytes, next) := by
    refine readExact_eq_ok.mpr ⟨?_, ?_, ?_⟩
    · rw [List.length_append, hbytes]
      exact Nat.le_add_right _ _
    · rw [List.take_left' hbytes]
    · rw [List.drop_left' hbytes]
      exact hnext
  rw [pullHeader, h.input, List.cons_append]
  simp only [hfirst, hlow, hsize, hread]
  rfl

/-- The minor bits of a head. -/
theorem head_minor {major value : Nat} {bytes : List UInt8}
    (h : Head major value bytes) :
    ∃ minor size rest, major < 8 ∧ minor < 32 ∧
      minorSize minor = some size ∧ rest.length = size ∧
      bytes = UInt8.ofNat (32 * major + minor) :: rest ∧
      argument minor rest = some value ∧ (minor ≤ 24 ↔ bytes.length ≤ 2) := by
  cases h with
  | short hmajor hvalue =>
      refine ⟨value, 0, [], hmajor, by omega, ?_, rfl, rfl, ?_, ?_⟩
      · rw [minorSize, if_pos hvalue]
      · rw [argument, if_pos hvalue]
      · simp only [List.length_singleton]
        omega
  | @long size rest hmajor hsize hlength =>
      refine ⟨24 + size, 2 ^ size, rest, hmajor, by omega, ?_, hlength, rfl,
        ?_, ?_⟩
      · interval_cases size <;> rfl
      · have hshort : ¬ 24 + size < 24 := by omega
        have hopen : ¬ 24 + size = 31 := by omega
        rw [argument, if_neg hshort, if_neg hopen]
        rfl
      · rw [List.length_cons, hlength]
        interval_cases size <;> simp

/-- A header is read where its bytes are. -/
theorem pullHeader_of_reads {header : Header} {bytes : List UInt8}
    (h : HeaderBytes header bytes) {decoder next : CborDecoder}
    (hreads : Reads decoder bytes next) :
    decoder.pullHeader = .ok (header, next) := by
  have hhead {major value : Nat} (hhead : Head major value bytes)
      (hheader : ∀ minor, (minor ≤ 24 ↔ bytes.length ≤ 2) →
        CborDecoder.header major minor (some value) = some header) :
      decoder.pullHeader = .ok (header, next) := by
    obtain ⟨minor, size, rest, hmajor, hminor, hsize, hrest, hbytes,
      hargument, hshort⟩ := head_minor hhead
    rw [hbytes] at hreads
    rw [pullHeader_cons hmajor hminor hsize hrest hreads, hargument,
      hheader minor hshort]
  have hopening (major : Nat) (hmajor : major < 8)
      (hbytes : bytes = [opening major])
      (hheader : CborDecoder.header major 31 none = some header) :
      decoder.pullHeader = .ok (header, next) := by
    rw [hbytes] at hreads
    rw [pullHeader_cons hmajor (by decide) rfl rfl hreads]
    change (match CborDecoder.header major 31 none with
      | none => _
      | some header => _) = _
    rw [hheader]
  cases h with
  | positive hb => exact hhead hb fun _ _ => rfl
  | negative hb => exact hhead hb fun _ _ => rfl
  | bytes hb => exact hhead hb fun _ _ => rfl
  | text hb => exact hhead hb fun _ _ => rfl
  | array hb => exact hhead hb fun _ _ => rfl
  | map hb => exact hhead hb fun _ _ => rfl
  | tag hb => exact hhead hb fun _ _ => rfl
  | simple hb hlength =>
      exact hhead hb fun minor hminor => if_pos (hminor.mpr hlength)
  | float hb hlength =>
      exact hhead hb fun minor hminor =>
        if_neg fun hle => Nat.not_le_of_gt hlength (hminor.mp hle)
  | openBytes => exact hopening 2 (by decide) rfl rfl
  | openText => exact hopening 3 (by decide) rfl rfl
  | openArray => exact hopening 4 (by decide) rfl rfl
  | openMap => exact hopening 5 (by decide) rfl rfl
  | stop => exact hopening 7 (by decide) rfl rfl

theorem readExact_reads {n : Nat} {decoder next : CborDecoder}
    {bytes : List UInt8} (h : decoder.readExact n = .ok (bytes, next)) :
    bytes.length = n ∧ Reads decoder bytes next := by
  obtain ⟨hle, rfl, rfl⟩ := readExact_eq_ok.mp h
  have hlength : (decoder.input.take n).length = n := List.length_take_of_le hle
  exact ⟨hlength, (List.take_append_drop n _).symm, by rw [hlength]⟩

theorem readExact_of_reads {decoder next : CborDecoder} {bytes : List UInt8}
    (h : Reads decoder bytes next) :
    decoder.readExact bytes.length = .ok (bytes, next) := by
  refine readExact_eq_ok.mpr ⟨?_, ?_, ?_⟩
  · rw [h.length]
    exact Nat.le_add_right _ _
  · rw [h.input, List.take_left]
  · obtain ⟨input, offset⟩ := next
    rw [h.input, List.drop_left, ← h.offset]

/-- The bytes behind a first byte are the argument of a head, or there is
none. -/
theorem head_or_opening {major minor size : Nat} {bytes : List UInt8}
    (hmajor : major < 8) (hminor : minor < 32)
    (hsize : minorSize minor = some size) (hbytes : bytes.length = size) :
    (∃ value, argument minor bytes = some value ∧
      Head major value (UInt8.ofNat (32 * major + minor) :: bytes) ∧
      (minor ≤ 24 ↔ size ≤ 1)) ∨
    (argument minor bytes = none ∧
      UInt8.ofNat (32 * major + minor) :: bytes = [opening major]) := by
  have hlong (log : Nat) (hlog : log < 4) (heq : minor = 24 + log)
      (hlength : bytes.length = 2 ^ log) :
      ∃ value, argument minor bytes = some value ∧
        Head major value (UInt8.ofNat (32 * major + minor) :: bytes) := by
    refine ⟨Bytes.ofBeBytes bytes, ?_, ?_⟩
    · rw [argument, if_neg (by omega), if_neg (by omega)]
      rfl
    · rw [heq]
      exact .long hmajor hlog hlength
  have hcases : minor < 24 ∨ minor = 24 ∨ minor = 25 ∨ minor = 26 ∨
      minor = 27 ∨ minor = 31 ∨ minorSize minor = none := by
    by_cases h : minor < 24 ∨ minor = 24 ∨ minor = 25 ∨ minor = 26 ∨
        minor = 27 ∨ minor = 31
    · omega
    · simp only [not_or] at h
      simp [minorSize, h]
  rcases hcases with hlow | rfl | rfl | rfl | rfl | rfl | hnone
  · left
    rw [minorSize, if_pos hlow] at hsize
    cases hsize
    obtain rfl := List.length_eq_zero_iff.mp hbytes
    refine ⟨minor, ?_, .short hmajor hlow, by omega⟩
    rw [argument, if_pos hlow]
  · left
    cases hsize
    obtain ⟨value, hvalue, hhead⟩ := hlong 0 (by decide) rfl hbytes
    exact ⟨value, hvalue, hhead, by decide⟩
  · left
    cases hsize
    obtain ⟨value, hvalue, hhead⟩ := hlong 1 (by decide) rfl hbytes
    exact ⟨value, hvalue, hhead, by decide⟩
  · left
    cases hsize
    obtain ⟨value, hvalue, hhead⟩ := hlong 2 (by decide) rfl hbytes
    exact ⟨value, hvalue, hhead, by decide⟩
  · left
    cases hsize
    obtain ⟨value, hvalue, hhead⟩ := hlong 3 (by decide) rfl hbytes
    exact ⟨value, hvalue, hhead, by decide⟩
  · right
    cases hsize
    obtain rfl := List.length_eq_zero_iff.mp hbytes
    exact ⟨rfl, rfl⟩
  · rw [hsize] at hnone
    cases hnone

/-- A header that is read is there. -/
theorem reads_of_pullHeader {header : Header} {decoder next : CborDecoder}
    (h : decoder.pullHeader = .ok (header, next)) :
    ∃ bytes, HeaderBytes header bytes ∧ Reads decoder bytes next := by
  rw [pullHeader] at h
  split at h
  · cases h
  next first rest hinput =>
  dsimp only at h
  split at h
  · cases h
  next size hsize =>
  rcases hread : readExact size ⟨rest, decoder.offset + 1⟩ with
    _ | ⟨bytes, after⟩
  · rw [hread] at h
    cases h
  rw [hread] at h
  obtain ⟨hlength, hreads⟩ := readExact_reads hread
  dsimp only [Bind.bind, Except.bind] at h
  have hfirst : UInt8.ofNat (32 * (first.toNat / 32) + first.toNat % 32) =
      first := by
    rw [Nat.div_add_mod, UInt8.ofNat_toNat]
  have hbyte : first.toNat < 256 := first.toNat_lt
  have hmajor : first.toNat / 32 < 8 := by omega
  have hminor : first.toNat % 32 < 32 := Nat.mod_lt _ (by decide)
  have hall : Reads decoder (first :: bytes) after :=
    ⟨hinput.trans (congrArg (first :: ·) hreads.input), by
      rw [hreads.offset, List.length_cons, Nat.add_assoc, Nat.add_comm 1]⟩
  have hcases := head_or_opening hmajor hminor hsize hlength
  rw [hfirst] at hcases
  generalize first.toNat / 32 = major at *
  generalize first.toNat % 32 = minor at *
  split at h
  · cases h
  next found hfound =>
  cases h
  refine ⟨_, ?_, hall⟩
  rcases hcases with ⟨value, hvalue, hhead, hshort⟩ | ⟨hnone, hopening⟩
  · rw [hvalue] at hfound
    interval_cases major
    · cases hfound
      exact .positive hhead
    · cases hfound
      exact .negative hhead
    · cases hfound
      exact .bytes hhead
    · cases hfound
      exact .text hhead
    · cases hfound
      exact .array hhead
    · cases hfound
      exact .map hhead
    · cases hfound
      exact .tag hhead
    · change (if minor ≤ 24 then some (Header.simple value)
        else some .float) = some header at hfound
      split_ifs at hfound with hle
      · cases hfound
        refine .simple hhead ?_
        rw [List.length_cons, hlength]
        exact Nat.succ_le_succ (hshort.mp hle)
      · cases hfound
        refine .float hhead ?_
        rw [List.length_cons, hlength]
        have hlong := mt hshort.mpr hle
        omega
  · rw [hnone] at hfound
    rw [hopening]
    interval_cases major
    · cases hfound
    · cases hfound
    · cases hfound
      exact .openBytes
    · cases hfound
      exact .openText
    · cases hfound
      exact .openArray
    · cases hfound
      exact .openMap
    · cases hfound
    · cases hfound
      exact .stop

/-- Headers are read from their bytes. -/
theorem pullHeader_eq_ok {header : Header} {decoder next : CborDecoder} :
    decoder.pullHeader = .ok (header, next) ↔
      ∃ bytes, HeaderBytes header bytes ∧ Reads decoder bytes next :=
  ⟨reads_of_pullHeader, fun ⟨_, hbytes, hreads⟩ =>
    pullHeader_of_reads hbytes hreads⟩

theorem pull_eq_ok {header : Header} {decoder next : CborDecoder}
    {errorReason : String} :
    decoder.pull errorReason = .ok (header, next) ↔
      ∃ bytes, HeaderBytes header bytes ∧ Reads decoder bytes next := by
  rw [← pullHeader_eq_ok]
  exact Pulled.orFail_eq_ok

section Strings

variable {isText : Bool} {reasons : StringReasons} {lenient : Prop}

/-- The major type of a string. -/
def stringMajor (isText : Bool) : Nat := if isText then 3 else 2

theorem isContent_iff {content : List UInt8} :
    IsContent (stringMajor isText) content ↔
      ¬(isText = true ∧ ¬(asText content).IsValidUTF8) := by
  cases isText with
  | false => simp [IsContent, stringMajor]
  | true =>
      rw [not_and_not_right]
      exact ⟨fun h _ => h rfl, fun h _ => h rfl⟩

theorem readSegment_eq_ok {n : Nat} {decoder next : CborDecoder}
    {content : List UInt8} :
    decoder.readSegment isText n = .ok (content, next) ↔
      content.length = n ∧ IsContent (stringMajor isText) content ∧
        Reads decoder content next := by
  rw [readSegment, isContent_iff]
  constructor
  · intro h
    rcases hread : decoder.readExact n with _ | ⟨bytes, after⟩
    · rw [hread] at h
      cases h
    · rw [hread] at h
      obtain ⟨hlength, hreads⟩ := readExact_reads hread
      dsimp only [Bind.bind, Except.bind] at h
      split at h
      · cases h
      · next hvalid =>
          cases h
          exact ⟨hlength, hvalid, hreads⟩
  · rintro ⟨rfl, hvalid, hreads⟩
    rw [readExact_of_reads hreads]
    dsimp only [Bind.bind, Except.bind]
    rw [if_neg hvalid]

/-- The rest of a string whose length is not given. -/
def segments (isText : Bool) (reasons : StringReasons) (nested : Nat)
    (decoder : CborDecoder) : Exec (List UInt8 × CborDecoder) :=
  readSegments isText reasons (decoder.input.length + 1) nested decoder

theorem segments_eq (nested : Nat) (decoder : CborDecoder) :
    segments isText reasons nested decoder = (do
      let (header, next) ← decoder.pull reasons.segments
      if header = .stop then
        if nested = 1 then pure ([], next)
        else segments isText reasons (nested - 1) next
      else
        match segmentLength isText header with
        | none =>
            Pulled.orFail (.error (.malformed decoder.offset)) reasons.segments
        | some none => segments isText reasons (nested + 1) next
        | some (some n) => do
            let (bytes, next) ←
              Pulled.orFail (next.readSegment isText n) reasons.segment
            let (rest, next) ← segments isText reasons nested next
            pure (bytes ++ rest, next)) := by
  rw [segments, readSegments]
  rcases hpull : decoder.pull reasons.segments with _ | ⟨header, next⟩
  · rfl
  have hnext := length_pull hpull
  have hstep (nested' : Nat) : readSegments isText reasons
      decoder.input.length nested' next =
        segments isText reasons nested' next :=
    readSegments_eq hnext (Nat.lt_succ_self _)
  rw [ok_bind, ok_bind]
  dsimp only
  rw [hstep, hstep]
  congr 1
  rcases segmentLength isText header with _ | _ | n
  · rfl
  · rfl
  · rcases hread : Pulled.orFail (next.readSegment isText n)
      reasons.segment with _ | ⟨bytes, after⟩
    · dsimp only
      rw [hread]
      rfl
    · have hafter := length_readSegment (Pulled.orFail_eq_ok.mp hread)
      have hrest : readSegments isText reasons decoder.input.length nested
          after = segments isText reasons nested after :=
        readSegments_eq (by omega) (Nat.lt_succ_self _)
      dsimp only
      rw [hread, ok_bind, ok_bind]
      dsimp only
      rw [hrest]

/-- The headers of chunks. -/
theorem chunk_header {length : Option Nat} {header : Header}
    (h : segmentLength isText header = some length) {bytes : List UInt8}
    (hbytes : HeaderBytes header bytes) :
    (∃ n, length = some n ∧ Head (stringMajor isText) n bytes) ∨
      (length = none ∧ bytes = [opening (stringMajor isText)]) := by
  cases isText <;> cases hbytes <;> cases h
  · next hhead => exact .inl ⟨_, rfl, hhead⟩
  · exact .inr ⟨rfl, rfl⟩
  · next hhead => exact .inl ⟨_, rfl, hhead⟩
  · exact .inr ⟨rfl, rfl⟩

theorem exists_chunk_header {length : Option Nat} {bytes : List UInt8}
    (h : (∃ n, length = some n ∧ Head (stringMajor isText) n bytes) ∨
      (length = none ∧ bytes = [opening (stringMajor isText)])) :
    ∃ header, header ≠ .stop ∧ segmentLength isText header = some length ∧
      HeaderBytes header bytes := by
  rcases h with ⟨n, rfl, hhead⟩ | ⟨rfl, rfl⟩
  · cases isText with
    | false => exact ⟨.bytes (some n), nofun, rfl, .bytes hhead⟩
    | true => exact ⟨.text (some n), nofun, rfl, .text hhead⟩
  · cases isText with
    | false => exact ⟨.bytes none, nofun, rfl, .openBytes⟩
    | true => exact ⟨.text none, nofun, rfl, .openText⟩

/-- The chunks of a string are read before the rest. -/
theorem segments_chunks {chunks content : List UInt8}
    (h : Chunks lenient (stringMajor isText) chunks content) {nested : Nat}
    (hnested : 1 ≤ nested) {decoder next : CborDecoder}
    (hreads : Reads decoder chunks next) {bytes : List UInt8}
    {last : CborDecoder}
    (hrest : segments isText reasons nested next = .ok (bytes, last)) :
    segments isText reasons nested decoder = .ok (content ++ bytes, last) := by
  induction h generalizing nested decoder next bytes last with
  | nil =>
      rw [hreads.next_eq (Reads.nil decoder)] at hrest
      exact hrest
  | @chunk head content rest contents hhead hcontent hchunks ih =>
      obtain ⟨header, hne, hlength, hbytes⟩ :=
        exists_chunk_header (.inl ⟨_, rfl, hhead⟩)
      obtain ⟨after, hfirst, hlast⟩ := hreads.split
      obtain ⟨middle, hmiddle, hsegment⟩ := hfirst.split
      rw [segments_eq, pull_eq_ok.mpr ⟨head, hbytes, hmiddle⟩, ok_bind]
      dsimp only
      rw [if_neg hne, hlength]
      dsimp only
      rw [Pulled.orFail_eq_ok.mpr
        (readSegment_eq_ok.mpr ⟨rfl, hcontent, hsegment⟩), ok_bind]
      dsimp only
      rw [ih hnested hlast hrest, ok_bind, List.append_assoc]
      rfl
  | @nested inner content rest contents _ hinner hchunks ihinner ih =>
      obtain ⟨header, hne, hlength, hbytes⟩ :
          ∃ header, header ≠ .stop ∧ segmentLength isText header = some none ∧
            HeaderBytes header [opening (stringMajor isText)] :=
        exists_chunk_header (.inr ⟨rfl, rfl⟩)
      have hsplit : Reads decoder
          ([opening (stringMajor isText)] ++ (inner ++ ([StreamItem.stop] ++
            rest))) next := by simpa using hreads
      obtain ⟨first, hopen, hsplit⟩ := hsplit.split
      obtain ⟨second, hreadInner, hsplit⟩ := hsplit.split
      obtain ⟨third, hstop, hreadRest⟩ := hsplit.split
      have hclose : segments isText reasons (nested + 1) second =
          .ok (contents ++ bytes, last) := by
        rw [segments_eq, pull_eq_ok.mpr ⟨_, .stop, hstop⟩, ok_bind]
        dsimp only
        rw [if_pos rfl, if_neg (by omega), Nat.add_sub_cancel]
        exact ih hnested hreadRest hrest
      rw [segments_eq, pull_eq_ok.mpr ⟨_, hbytes, hopen⟩, ok_bind]
      dsimp only
      rw [if_neg hne, hlength, List.append_assoc]
      exact ihinner (Nat.le_add_left 1 nested) hreadInner hclose

/-- The chunks of the strings that are open, each up to its break. -/
inductive Closing (lenient : Prop) (major : Nat) :
    Nat → List UInt8 → List UInt8 → Prop
  | last {chunks content : List UInt8} :
      Chunks lenient major chunks content →
      Closing lenient major 1 (chunks ++ [StreamItem.stop]) content
  | step {nested : Nat} {chunks content body contents : List UInt8} :
      Chunks lenient major chunks content →
      Closing lenient major nested body contents →
      Closing lenient major (nested + 1)
        (chunks ++ StreamItem.stop :: body) (content ++ contents)

theorem Closing.cons_chunk {major nested : Nat}
    {head content body contents : List UInt8}
    (hhead : Head major content.length head)
    (hcontent : IsContent major content)
    (h : Closing lenient major nested body contents) :
    Closing lenient major nested (head ++ content ++ body)
      (content ++ contents) := by
  cases h with
  | last hchunks =>
      rw [← List.append_assoc]
      exact .last (.chunk hhead hcontent hchunks)
  | step hchunks hbody =>
      rw [← List.append_assoc, ← List.append_assoc content]
      exact .step (.chunk hhead hcontent hchunks) hbody

theorem Closing.cons_opening {major nested : Nat} (hlenient : lenient)
    {body contents : List UInt8} (hnested : 1 ≤ nested)
    (h : Closing lenient major (nested + 1) body contents) :
    Closing lenient major nested (opening major :: body) contents := by
  cases h with
  | last => omega
  | @step _ chunks content rest contents hchunks hrest =>
      cases hrest with
      | @last chunks' content' hchunks' =>
          have hjoin := Chunks.nested hlenient hchunks hchunks'
          have hclosing := Closing.last hjoin
          simpa using hclosing
      | @step n chunks' content' rest' contents' hchunks' hrest' =>
          have hjoin := Chunks.nested hlenient hchunks hchunks'
          have hclosing := Closing.step hjoin hrest'
          simpa using hclosing

theorem Closing.one {major : Nat} {body contents : List UInt8}
    (h : Closing lenient major 1 body contents) :
    ∃ chunks, body = chunks ++ [StreamItem.stop] ∧
      Chunks lenient major chunks contents := by
  cases h with
  | last hchunks => exact ⟨_, rfl, hchunks⟩
  | step _ hrest => cases hrest

/-- What is read up to the break of the outermost string is chunks. -/
theorem closing_of_readSegments {fuel nested : Nat} (hnested : 1 ≤ nested)
    {decoder next : CborDecoder} {bytes : List UInt8}
    (h : readSegments isText reasons fuel nested decoder =
      .ok (bytes, next)) :
    ∃ body, Closing True (stringMajor isText) nested body bytes ∧
      Reads decoder body next := by
  induction fuel generalizing nested decoder bytes with
  | zero => cases h
  | succ fuel ih =>
      rw [readSegments] at h
      obtain ⟨⟨header, after⟩, hpull, h⟩ := Exec.bind_eq_ok.mp h
      obtain ⟨head, hhead, hafter⟩ := pull_eq_ok.mp hpull
      dsimp only at h
      split_ifs at h with hstop hone
      · cases h
        subst hstop hone
        cases hhead
        exact ⟨_, .last .nil, hafter⟩
      · subst hstop
        cases hhead
        obtain ⟨body, hbody, hreads⟩ := ih (by omega) h
        refine ⟨_, ?_, hafter.append hreads⟩
        have hstep : Closing True (stringMajor isText) (nested - 1 + 1)
            ([] ++ StreamItem.stop :: body) ([] ++ bytes) := .step .nil hbody
        rw [Nat.sub_add_cancel hnested] at hstep
        exact hstep
      · rcases hlength : segmentLength isText header with _ | _ | n
        · rw [hlength] at h
          cases h
        · rw [hlength] at h
          obtain ⟨body, hbody, hreads⟩ := ih (Nat.le_add_left 1 nested) h
          rcases chunk_header hlength hhead with ⟨_, hnone, -⟩ | ⟨-, rfl⟩
          · cases hnone
          · exact ⟨_, hbody.cons_opening trivial hnested,
              hafter.append hreads⟩
        · rw [hlength] at h
          obtain ⟨⟨content, middle⟩, hsegment, h⟩ := Exec.bind_eq_ok.mp h
          obtain ⟨⟨rest, last⟩, hrest, h⟩ := Exec.bind_eq_ok.mp h
          cases h
          obtain ⟨rfl, hcontent, hmiddle⟩ :=
            readSegment_eq_ok.mp (Pulled.orFail_eq_ok.mp hsegment)
          obtain ⟨body, hbody, hreads⟩ := ih hnested hrest
          rcases chunk_header hlength hhead with ⟨_, hn, hhead⟩ | ⟨hnone, -⟩
          · cases hn
            exact ⟨_, hbody.cons_chunk hhead hcontent,
              (hafter.append hmiddle).append hreads⟩
          · cases hnone

/-- The body of a string behind its header, with what it contains. -/
def StringBody (lenient : Prop) (major : Nat) (length : Option Nat)
    (body content : List UInt8) : Prop :=
  match length with
  | some n => body.length = n ∧ IsContent major body ∧ content = body
  | none => ∃ chunks, body = chunks ++ [StreamItem.stop] ∧
      Chunks lenient major chunks content

/-- The header of a string. -/
def stringHeader (isText : Bool) (length : Option Nat) : Header :=
  if isText then .text length else .bytes length

/-- A string is a header and a body. -/
theorem isString_iff {bytes content : List UInt8} :
    IsString lenient (stringMajor isText) bytes content ↔
      ∃ length head body, HeaderBytes (stringHeader isText length) head ∧
        StringBody lenient (stringMajor isText) length body content ∧
        bytes = head ++ body := by
  constructor
  · intro h
    cases h with
    | whole hhead hcontent =>
        refine ⟨some content.length, _, content, ?_, ⟨rfl, hcontent, rfl⟩, rfl⟩
        cases isText with
        | false => exact .bytes hhead
        | true => exact .text hhead
    | @chunked chunks _ hchunks =>
        refine ⟨none, [opening (stringMajor isText)], _, ?_,
          ⟨chunks, rfl, hchunks⟩, rfl⟩
        cases isText with
        | false => exact .openBytes
        | true => exact .openText
  · rintro ⟨length, head, body, hheader, hbody, rfl⟩
    have hlength : segmentLength isText (stringHeader isText length) =
        some length := by cases isText <;> rfl
    rcases chunk_header hlength hheader with ⟨n, rfl, hhead⟩ | ⟨rfl, rfl⟩
    · obtain ⟨rfl, hcontent, rfl⟩ := hbody
      exact .whole hhead hcontent
    · obtain ⟨chunks, rfl, hchunks⟩ := hbody
      exact .chunked hchunks

theorem readString_of_reads {length : Option Nat} {body content : List UInt8}
    (h : StringBody lenient (stringMajor isText) length body content)
    {decoder next : CborDecoder} (hreads : Reads decoder body next) :
    readString isText reasons length decoder = .ok (content, next) := by
  cases length with
  | some n =>
      obtain ⟨hn, hcontent, rfl⟩ := h
      exact Pulled.orFail_eq_ok.mpr
        (readSegment_eq_ok.mpr ⟨hn, hcontent, hreads⟩)
  | none =>
      obtain ⟨chunks, rfl, hchunks⟩ := h
      obtain ⟨middle, hmiddle, hstop⟩ := hreads.split
      have hend : segments isText reasons 1 middle = .ok ([], next) := by
        rw [segments_eq, pull_eq_ok.mpr ⟨_, .stop, hstop⟩, ok_bind]
        rfl
      have hall := segments_chunks hchunks le_rfl hmiddle hend
      rw [List.append_nil] at hall
      exact hall

theorem reads_of_readString {length : Option Nat} {bytes : List UInt8}
    {decoder next : CborDecoder}
    (h : readString isText reasons length decoder = .ok (bytes, next)) :
    ∃ body, StringBody True (stringMajor isText) length body bytes ∧
      Reads decoder body next := by
  cases length with
  | some n =>
      obtain ⟨hn, hcontent, hreads⟩ :=
        readSegment_eq_ok.mp (Pulled.orFail_eq_ok.mp h)
      exact ⟨bytes, ⟨hn, hcontent, rfl⟩, hreads⟩
  | none =>
      obtain ⟨body, hclosing, hreads⟩ := closing_of_readSegments le_rfl h
      obtain ⟨chunks, rfl, hchunks⟩ := hclosing.one
      exact ⟨_, ⟨chunks, rfl, hchunks⟩, hreads⟩

end Strings

end CborDecoder

end Longfellow.MdocZk
