/-
What is read of a well-formed item of an issuer: its four entries, in any order
and encoding.
-/
import Longfellow.MdocZk.Attributes
import Longfellow.MdocZk.Skip

namespace Longfellow.MdocZk

open Exec CborDecoder StreamItem
open DataItem (Head)

/-- What an entry of an `IssuerSignedItem` tells. -/
inductive ItemEntry
  | digestId (id : Nat)
  | random
  | elementIdentifier (identifier : String)
  | elementValue

def ItemEntry.key : ItemEntry → String
  | digestId _ => "digestID"
  | random => "random"
  | elementIdentifier _ => "elementIdentifier"
  | elementValue => "elementValue"

/-- The values of an entry, in any encoding. -/
inductive IsEntryValue (lenient : Prop) : ItemEntry → List UInt8 → Prop
  | digestId {id : Nat} {value : List UInt8} :
      Head 0 id value → IsEntryValue lenient (.digestId id) value
  | random {value content : List UInt8} :
      IsString lenient 2 value content → IsEntryValue lenient .random value
  | elementIdentifier {identifier : String} {value : List UInt8} :
      IsString lenient 3 value (utf8 identifier) →
      IsEntryValue lenient (.elementIdentifier identifier) value
  | elementValue {value : List UInt8} :
      Item lenient value → IsEntryValue lenient .elementValue value

/-- A key-value pair: what it tells, and the bytes of its key and value. -/
structure KeyValue where
  entry : ItemEntry
  key : List UInt8
  value : List UInt8

def KeyValue.bytes (pair : KeyValue) : List UInt8 := pair.key ++ pair.value

/-- A well-formed `IssuerSignedItem`: a map, of a given length or not, with each
of the four text keys once. -/
structure IsIssuerSignedItem (lenient : Prop) (encoded head : List UInt8)
    (pairs : List KeyValue) : Prop where
  keys : ∀ pair ∈ pairs, IsString lenient 3 pair.key (utf8 pair.entry.key)
  values : ∀ pair ∈ pairs, IsEntryValue lenient pair.entry pair.value
  distinct : (pairs.map fun pair => pair.entry.key).Perm
    ["digestID", "random", "elementIdentifier", "elementValue"]
  encoded_eq :
    (Head 5 4 head ∧ encoded = head ++ pairs.flatMap KeyValue.bytes) ∨
    (head = [opening 5] ∧
      encoded = head ++ (pairs.flatMap KeyValue.bytes ++ [StreamItem.stop]))

section Recording

namespace IssuerSignedItem

/-- The item with one more entry, which starts at an offset. -/
def record (item : IssuerSignedItem) (offset : Nat) (pair : KeyValue) :
    IssuerSignedItem :=
  match pair.entry with
  | .digestId id =>
      { item with digestId := some ⟨offset, pair.bytes.length, id⟩ }
  | .random => { item with random := some ⟨offset, pair.bytes.length, ()⟩ }
  | .elementIdentifier identifier =>
      { item with
        elementIdentifierString := some identifier
        elementIdentifier := some ⟨offset, pair.bytes.length, pair.value⟩ }
  | .elementValue =>
      { item with
        elementValue := some ⟨offset, pair.bytes.length, pair.value⟩ }

/-- The item with entries that lie one behind the other. -/
def recordAll (item : IssuerSignedItem) (offset : Nat) :
    List KeyValue → IssuerSignedItem
  | [] => item
  | pair :: pairs =>
      (item.record offset pair).recordAll (offset + pair.bytes.length) pairs

/-- No entry with the key of this one has been read. -/
def Free (item : IssuerSignedItem) : ItemEntry → Prop
  | .digestId _ => item.digestId = none
  | .random => item.random = none
  | .elementIdentifier _ => item.elementIdentifier = none
  | .elementValue => item.elementValue = none

/-- The entry has been read at an offset. -/
def Recorded (item : IssuerSignedItem) (offset : Nat) (pair : KeyValue) :
    Prop :=
  match pair.entry with
  | .digestId id => item.digestId = some ⟨offset, pair.bytes.length, id⟩
  | .random => item.random = some ⟨offset, pair.bytes.length, ()⟩
  | .elementIdentifier identifier =>
      item.elementIdentifierString = some identifier ∧
      item.elementIdentifier = some ⟨offset, pair.bytes.length, pair.value⟩
  | .elementValue =>
      item.elementValue = some ⟨offset, pair.bytes.length, pair.value⟩

theorem record_recorded (item : IssuerSignedItem) (offset : Nat)
    (pair : KeyValue) : (item.record offset pair).Recorded offset pair := by
  obtain ⟨entry, key, value⟩ := pair
  cases entry with
  | digestId | random | elementValue => rfl
  | elementIdentifier => exact ⟨rfl, rfl⟩

/-- Entries with other keys are left alone. -/
theorem Free.record {item : IssuerSignedItem} {entry : ItemEntry}
    (h : item.Free entry) {pair : KeyValue}
    (hkey : entry.key ≠ pair.entry.key) (offset : Nat) :
    (item.record offset pair).Free entry := by
  obtain ⟨entry', key, value⟩ := pair
  cases entry <;> cases entry' <;> first | exact h | exact absurd rfl hkey

theorem Recorded.record {item : IssuerSignedItem} {offset : Nat}
    {pair : KeyValue} (h : item.Recorded offset pair) {pair' : KeyValue}
    (hkey : pair.entry.key ≠ pair'.entry.key) (offset' : Nat) :
    (item.record offset' pair').Recorded offset pair := by
  obtain ⟨entry, key, value⟩ := pair
  obtain ⟨entry', key', value'⟩ := pair'
  cases entry <;> cases entry' <;> first | exact h | exact absurd rfl hkey

theorem Recorded.recordAll {item : IssuerSignedItem} {offset : Nat}
    {pair : KeyValue} (h : item.Recorded offset pair) {pairs : List KeyValue}
    (hkeys : ∀ other ∈ pairs, pair.entry.key ≠ other.entry.key)
    (offset' : Nat) : (item.recordAll offset' pairs).Recorded offset pair := by
  induction pairs generalizing item offset' with
  | nil => exact h
  | cons other pairs ih =>
      obtain ⟨hother, hrest⟩ := List.forall_mem_cons.mp hkeys
      exact ih (h.record hother offset') hrest _

end IssuerSignedItem

/-- Entries with different keys are all recorded. -/
theorem IssuerSignedItem.recordAll_recorded (item : IssuerSignedItem)
    (start : Nat) {pairs : List KeyValue}
    (hkeys : (pairs.map fun pair => pair.entry.key).Nodup) :
    ∀ place ∈ located KeyValue.bytes start pairs,
      (item.recordAll start pairs).Recorded place.1 place.2 := by
  induction pairs generalizing item start with
  | nil => exact nofun
  | cons pair pairs ih =>
      rw [List.map_cons, List.nodup_cons] at hkeys
      rw [located, List.forall_mem_cons]
      refine ⟨?_, ih (item.record start pair) _ hkeys.2⟩
      apply (item.record_recorded start pair).recordAll
      intro other hother heq
      exact hkeys.1 (heq ▸ List.mem_map_of_mem hother)

end Recording

section Parsing

/-- The bytes that have been read are those between the two offsets. -/
theorem slice_of_reads {encoded before bytes : List UInt8}
    {decoder next : CborDecoder}
    (hbefore : Reads (CborDecoder.start encoded) before decoder)
    (h : Reads decoder bytes next) :
    slice encoded decoder.offset next.offset = bytes := by
  have hoffset : decoder.offset = before.length := by
    rw [hbefore.offset]
    exact Nat.zero_add _
  have hencoded : encoded = before ++ (bytes ++ next.input) := by
    rw [← h.input]
    exact hbefore.input
  rw [slice, h.offset, Nat.add_sub_cancel_left, hoffset, hencoded,
    List.drop_left, List.take_left]

/-- The length of a pair is the distance of the offsets around it. -/
theorem Reads.length_pair {decoder middle next : CborDecoder}
    {pair : KeyValue} (hkey : Reads decoder pair.key middle)
    (hvalue : Reads middle pair.value next) :
    next.offset - decoder.offset = pair.bytes.length := by
  rw [(hkey.append hvalue).offset, Nat.add_sub_cancel_left, KeyValue.bytes]

variable {lenient : Prop} {encoded before : List UInt8}
  {item : IssuerSignedItem}

/-- One entry of the map is read and recorded. -/
theorem readEntry_record {pair : KeyValue}
    (hpair : IsEntryValue lenient pair.entry pair.value)
    (hfree : item.Free pair.entry) {decoder middle next : CborDecoder}
    (hbefore : Reads (CborDecoder.start encoded) before decoder)
    (hkey : Reads decoder pair.key middle)
    (hvalue : Reads middle pair.value next) :
    ∃ header head behind, HeaderBytes header head ∧
      Reads middle head behind ∧
      IssuerSignedItem.readEntry encoded item behind pair.entry.key
        decoder.offset middle.offset header =
          .ok (item.record decoder.offset pair, next) := by
  have hlength := Reads.length_pair hkey hvalue
  have hslice := slice_of_reads (hbefore.append hkey) hvalue
  obtain ⟨entry, key, value⟩ := pair
  dsimp only at *
  cases hpair with
  | @digestId id _ hhead =>
      refine ⟨.positive id, value, next, .positive hhead, hvalue, ?_⟩
      have hnone : item.digestId = none := hfree
      change item.readDigestId next decoder.offset (.positive id) = _
      rw [IssuerSignedItem.readDigestId, hnone, ensure_of (by rfl), ok_bind]
      dsimp only
      rw [hlength]
      rfl
  | random hstring =>
      obtain ⟨length, head, body, hhead, hbody, rfl⟩ :=
        isString_iff.mp (show IsString lenient (stringMajor false) _ _ from
          hstring)
      obtain ⟨behind, hfirst, hrest⟩ := hvalue.split
      refine ⟨.bytes length, head, behind, hhead, hfirst, ?_⟩
      have hnone : item.random = none := hfree
      have hskip : skipBody (.bytes length) behind = .ok next :=
        skipBody_string hbody hrest
      change item.readRandom behind decoder.offset (.bytes length) = _
      rw [IssuerSignedItem.readRandom, hnone, ensure_of (by rfl), ok_bind]
      dsimp only
      rw [hskip, ok_bind, hlength]
      rfl
  | @elementIdentifier identifier _ hstring =>
      obtain ⟨length, head, body, hhead, hbody, rfl⟩ :=
        isString_iff.mp (show IsString lenient (stringMajor true) _ _ from
          hstring)
      obtain ⟨behind, hfirst, hrest⟩ := hvalue.split
      refine ⟨.text length, head, behind, hhead, hfirst, ?_⟩
      have hnone : item.elementIdentifier = none := hfree
      have hslurp : slurpString behind length = .ok (identifier, next) :=
        slurpString_eq_ok.mpr (readString_of_reads hbody hrest)
      change item.readElementIdentifier encoded behind decoder.offset
        middle.offset (.text length) = _
      rw [IssuerSignedItem.readElementIdentifier, hnone, ensure_of (by rfl),
        ok_bind]
      dsimp only
      rw [hslurp, ok_bind]
      dsimp only
      rw [hlength, hslice]
      rfl
  | elementValue hitem =>
      obtain ⟨header, head, behind, hhead, -, hfirst, hskip⟩ :=
        skipped_of_item hitem middle next hvalue
      refine ⟨header, head, behind, hhead, hfirst, ?_⟩
      have hnone : item.elementValue = none := hfree
      change item.readElementValue encoded behind decoder.offset
        middle.offset header = _
      rw [IssuerSignedItem.readElementValue, hnone, ensure_of (by rfl),
        ok_bind]
      dsimp only
      rw [hskip, ok_bind]
      rw [hlength, hslice]
      rfl

theorem key_nonempty {key content : List UInt8}
    (h : IsString lenient 3 key content) : 0 < key.length := by
  cases h with
  | @whole head content hhead _ =>
      have hhead := hhead.length_pos
      rw [List.length_append]
      omega
  | chunked => exact Nat.zero_lt_succ _

/-- The loop over the entries reads and records them all. -/
theorem parseMapWith_pairs {pairs : List KeyValue}
    (hkeys : ∀ pair ∈ pairs, IsString lenient 3 pair.key (utf8 pair.entry.key))
    (hvalues : ∀ pair ∈ pairs, IsEntryValue lenient pair.entry pair.value)
    (hdistinct : (pairs.map fun pair => pair.entry.key).Nodup)
    (hfree : ∀ pair ∈ pairs, item.Free pair.entry) {length : Option Nat}
    {count : Nat} (hlength : ∀ n, length = some n → count + pairs.length ≤ n)
    {decoder next : CborDecoder}
    (hbefore : Reads (CborDecoder.start encoded) before decoder)
    (hreads : Reads decoder (pairs.flatMap KeyValue.bytes) next) {fuel : Nat}
    (hfuel : decoder.input.length < fuel) :
    ∃ fuel', next.input.length < fuel' ∧
      parseMapWith (IssuerSignedItem.readEntry encoded) length fuel count item
        decoder =
      parseMapWith (IssuerSignedItem.readEntry encoded) length fuel'
        (count + pairs.length) (item.recordAll decoder.offset pairs) next := by
  induction pairs generalizing item count decoder before fuel with
  | nil =>
      rw [hreads.next_eq (Reads.nil decoder)]
      exact ⟨fuel, hfuel, rfl⟩
  | cons pair pairs ih =>
      obtain ⟨hkey, hkeys⟩ := List.forall_mem_cons.mp hkeys
      obtain ⟨hvalue, hvalues⟩ := List.forall_mem_cons.mp hvalues
      obtain ⟨hpair, hfree⟩ := List.forall_mem_cons.mp hfree
      rw [List.map_cons, List.nodup_cons] at hdistinct
      rw [List.flatMap_cons] at hreads
      obtain ⟨last, hfirst, hrest⟩ := hreads.split
      obtain ⟨middle, hmiddle, hlast⟩ := hfirst.split
      obtain ⟨keyLength, keyHead, keyBody, hkeyHead, hkeyBody, hkeyBytes⟩ :=
        isString_iff.mp (show IsString lenient (stringMajor true) _ _ from
          hkey)
      obtain ⟨inner, hinner, hkeyRest⟩ := (hkeyBytes ▸ hmiddle).split
      obtain ⟨header, head, behind, hhead, hbehind, hread⟩ :=
        readEntry_record hvalue hpair hbefore hmiddle hlast
      have hpull : decoder.pull "reading map entry key failed" =
          .ok (.text keyLength, inner) :=
        pull_eq_ok.mpr ⟨keyHead, hkeyHead, hinner⟩
      have hslurp : (slurpString inner keyLength).context
          "error reading map entry key" = .ok (pair.entry.key, middle) :=
        context_eq_ok.mpr
          (slurpString_eq_ok.mpr (readString_of_reads hkeyBody hkeyRest))
      obtain ⟨fuel, rfl⟩ := Nat.exists_eq_add_of_le' (by omega : 1 ≤ fuel)
      have hopen : ¬ reached length count = true := by
        cases length with
        | none => simp [reached]
        | some n =>
            have hle := hlength n rfl
            rw [List.length_cons] at hle
            rw [reached_eq_false (by omega)]
            decide
      have hshorter : last.input.length < fuel := by
        have htotal := hfirst.length
        have hkeyLength := key_nonempty hkey
        rw [KeyValue.bytes, List.length_append] at htotal
        omega
      have hfree' : ∀ other ∈ pairs,
          (item.record decoder.offset pair).Free other.entry := by
        intro other hother
        refine (hfree other hother).record (fun heq => hdistinct.1 ?_) _
        rw [← heq]
        exact List.mem_map_of_mem hother
      have hlength' : ∀ n, length = some n → count + 1 + pairs.length ≤ n := by
        intro n hn
        have hle := hlength n hn
        rw [List.length_cons] at hle
        omega
      obtain ⟨fuel', hfuel', hloop⟩ := ih hkeys hvalues hdistinct.2 hfree'
        hlength' (hbefore.append hfirst) hrest hshorter
      refine ⟨fuel', hfuel', ?_⟩
      rw [parseMapWith, if_neg hopen, hpull, ok_bind]
      dsimp only
      rw [hslurp, ok_bind]
      dsimp only
      rw [pull_eq_ok.mpr ⟨head, hhead, hbehind⟩, ok_bind]
      dsimp only
      rw [hread, ok_bind]
      dsimp only
      rw [hloop, List.length_cons, Nat.add_right_comm, Nat.add_assoc,
        hfirst.offset]
      rfl

/-- The whole map is read and recorded. -/
theorem parse_eq_recordAll {head : List UInt8} {pairs : List KeyValue}
    (h : IsIssuerSignedItem lenient encoded head pairs) :
    IssuerSignedItem.parse encoded =
      .ok (IssuerSignedItem.recordAll {} head.length pairs) := by
  have hdistinct : (pairs.map fun pair => pair.entry.key).Nodup :=
    h.distinct.nodup_iff.mpr (by decide)
  have hcount : pairs.length = 4 := by
    rw [← List.length_map fun pair : KeyValue => pair.entry.key]
    exact h.distinct.length_eq
  have hfree : ∀ pair ∈ pairs,
      IssuerSignedItem.Free {} pair.entry := by
    intro pair _
    rcases pair with ⟨entry, key, value⟩
    cases entry <;> rfl
  have hparse (length : Option Nat) (hlength : ∀ n, length = some n → n = 4)
      (hhead : HeaderBytes (.map length) head)
      (hencoded : encoded =
        head ++ (pairs.flatMap KeyValue.bytes ++ ending length)) :
      IssuerSignedItem.parse encoded =
        .ok (IssuerSignedItem.recordAll {} head.length pairs) := by
    have hall : Reads (CborDecoder.start encoded)
        (head ++ (pairs.flatMap KeyValue.bytes ++ ending length))
        ⟨[], encoded.length⟩ := by
      rw [← hencoded]
      exact ⟨(List.append_nil _).symm, (Nat.zero_add _).symm⟩
    obtain ⟨decoder, hfirst, hrest⟩ := hall.split
    obtain ⟨next, hpairs, hend⟩ := hrest.split
    have hoffset : decoder.offset = head.length := by
      rw [hfirst.offset]
      exact Nat.zero_add _
    obtain ⟨fuel, hfuel, hloop⟩ := parseMapWith_pairs h.keys h.values hdistinct
      hfree (fun n hn => by rw [hlength n hn, hcount]) hfirst hpairs
      (Nat.lt_succ_self _)
    have hread : (parseMap (IssuerSignedItem.readEntry encoded) length {}
        decoder).context "error reading IssuerSignedItem" =
        .ok (IssuerSignedItem.recordAll {} head.length pairs,
          ⟨[], encoded.length⟩) := by
      obtain ⟨fuel, rfl⟩ := Nat.exists_eq_add_of_le' (by omega : 1 ≤ fuel)
      rw [context_eq_ok, parseMap, hloop, hcount, hoffset, parseMapWith]
      cases length with
      | none =>
          rw [if_neg (by simp [reached]), pull_eq_ok.mpr ⟨_, .stop, hend⟩,
            ok_bind]
          rfl
      | some n =>
          obtain rfl := hlength n rfl
          rw [if_pos (reached_self _), hend.next_eq (Reads.nil next)]
          rfl
    rw [IssuerSignedItem.parse, pull_eq_ok.mpr ⟨head, hhead, hfirst⟩, ok_bind]
    dsimp only
    rw [hread, ok_bind]
    dsimp only
    rw [ensure_of rfl]
    rfl
  rcases h.encoded_eq with ⟨hhead, hencoded⟩ | ⟨rfl, hencoded⟩
  · exact hparse (some 4) (fun n hn => (Option.some.inj hn).symm) (.map hhead)
      (by rw [hencoded, ending, List.append_nil])
  · exact hparse none (fun n hn => by cases hn) .openMap hencoded

end Parsing

end Longfellow.MdocZk
