/-
Locating attributes finds what is asked for, each identifier once.
-/
import Mathlib.Data.List.Nodup
import Longfellow.MdocZk.IssuerSigned

namespace Longfellow.MdocZk

open Exec CborDecoder StreamItem
open DataItem (Head)

/-- Spans, each an offset and a length, one behind the other. -/
def Tiles : Nat → List (Nat × Nat) → Nat → Prop
  | first, [], last => first = last
  | first, span :: spans, last =>
      span.1 = first ∧ Tiles (first + span.2) spans last

/-- Where an attribute has the pair with a key. -/
def ParsedAttribute.span (attr : ParsedAttribute) (key : String) : Nat × Nat :=
  if key = "digestID" then (attr.digestId.offset, attr.digestId.length)
  else if key = "random" then (attr.random.offset, attr.random.length)
  else if key = "elementIdentifier" then
    (attr.elementIdentifier.offset, attr.elementIdentifier.length)
  else (attr.elementValue.offset, attr.elementValue.length)

/-- An attribute tells where the four pairs of its item are and what they
hold. -/
structure ParsedAttribute.Describes (attr : ParsedAttribute)
    (head : List UInt8) (pairs : List KeyValue) : Prop where
  tiles : ∃ spans : List (Nat × Nat), spans.Perm
    [(attr.digestId.offset, attr.digestId.length),
      (attr.random.offset, attr.random.length),
      (attr.elementIdentifier.offset, attr.elementIdentifier.length),
      (attr.elementValue.offset, attr.elementValue.length)] ∧
    Tiles head.length spans
      (head.length + (pairs.flatMap KeyValue.bytes).length)
  bytes : ∀ pair ∈ pairs, ∃ offset length,
    attr.span pair.entry.key = (offset, length) ∧
    slice attr.issuerSignedItemBytes offset (offset + length) = pair.bytes
  values : ∀ pair ∈ pairs, match pair.entry with
    | .digestId id => attr.digestId.value = id
    | .random => True
    | .elementIdentifier _ => attr.elementIdentifier.value = pair.value
    | .elementValue => attr.elementValue.value = pair.value

section Located

theorem tiles_located (start : Nat) (pairs : List KeyValue) :
    Tiles start ((located KeyValue.bytes start pairs).map fun place =>
      (place.1, place.2.bytes.length))
      (start + (pairs.flatMap KeyValue.bytes).length) := by
  induction pairs generalizing start with
  | nil => rfl
  | cons pair pairs ih =>
      rw [located, List.map_cons, List.flatMap_cons, List.length_append,
        ← Nat.add_assoc]
      exact ⟨rfl, ih _⟩

/-- The bytes at the place of a pair. -/
theorem slice_located {before : List UInt8} {pairs : List KeyValue}
    {place : Nat × KeyValue} (h : place ∈ located KeyValue.bytes before.length pairs)
    (behind : List UInt8) :
    slice (before ++ (pairs.flatMap KeyValue.bytes ++ behind)) place.1
      (place.1 + place.2.bytes.length) = place.2.bytes := by
  induction pairs generalizing before with
  | nil => cases h
  | cons pair pairs ih =>
      rw [located] at h
      rw [List.flatMap_cons, List.append_assoc]
      rcases List.mem_cons.mp h with rfl | h
      · rw [slice, Nat.add_sub_cancel_left, List.drop_left, List.take_left]
      · rw [← List.length_append] at h
        rw [← List.append_assoc]
        exact ih h

end Located

section Attribute

variable {lenient : Prop} {encoded head : List UInt8} {pairs : List KeyValue}

/-- Each key is that of one of the pairs. -/
theorem IsIssuerSignedItem.exists_pair
    (h : IsIssuerSignedItem lenient encoded head pairs) {key : String}
    (hkey : key ∈ ["digestID", "random", "elementIdentifier", "elementValue"]) :
    ∃ place ∈ located KeyValue.bytes head.length pairs, place.2.entry.key = key := by
  obtain ⟨pair, hpair, hentry⟩ := List.mem_map.mp (h.distinct.mem_iff.mpr hkey)
  obtain ⟨offset, hplace⟩ := exists_located hpair head.length
  exact ⟨_, hplace, hentry⟩

theorem IsIssuerSignedItem.encoded_eq_append
    (h : IsIssuerSignedItem lenient encoded head pairs) :
    ∃ behind, encoded = head ++ (pairs.flatMap KeyValue.bytes ++ behind) := by
  rcases h.encoded_eq with ⟨-, hencoded⟩ | ⟨-, hencoded⟩
  · exact ⟨[], by rw [hencoded, List.append_nil]⟩
  · exact ⟨_, hencoded⟩

section Recorded

variable {item : IssuerSignedItem} {attr : ParsedAttribute}

/-- The attribute has the place of each entry that has been recorded. -/
theorem span_of_recorded (hattr : item.toAttribute encoded = .ok attr)
    {offset : Nat} {pair : KeyValue} (h : item.Recorded offset pair) :
    attr.span pair.entry.key = (offset, pair.bytes.length) := by
  obtain ⟨-, hdigestId, hrandom, hidentifier, hvalue⟩ :=
    IssuerSignedItem.toAttribute_eq_ok hattr
  obtain ⟨entry, key, value⟩ := pair
  cases entry with
  | digestId id =>
      have hdata := hdigestId.symm.trans h
      simp only [Option.some.injEq] at hdata
      simp [ParsedAttribute.span, ItemEntry.key, hdata]
  | random =>
      have hdata := hrandom.symm.trans h
      simp only [Option.some.injEq] at hdata
      simp [ParsedAttribute.span, ItemEntry.key, hdata]
  | elementIdentifier identifier =>
      have hdata := hidentifier.symm.trans h.2
      simp only [Option.some.injEq] at hdata
      simp [ParsedAttribute.span, ItemEntry.key, hdata]
  | elementValue =>
      have hdata := hvalue.symm.trans h
      simp only [Option.some.injEq] at hdata
      simp [ParsedAttribute.span, ItemEntry.key, hdata]

theorem value_of_recorded (hattr : item.toAttribute encoded = .ok attr)
    {offset : Nat} {pair : KeyValue} (h : item.Recorded offset pair) :
    match pair.entry with
    | .digestId id => attr.digestId.value = id
    | .random => True
    | .elementIdentifier _ => attr.elementIdentifier.value = pair.value
    | .elementValue => attr.elementValue.value = pair.value := by
  obtain ⟨-, hdigestId, -, hidentifier, hvalue⟩ :=
    IssuerSignedItem.toAttribute_eq_ok hattr
  obtain ⟨entry, key, value⟩ := pair
  cases entry with
  | digestId id =>
      have hdata := hdigestId.symm.trans h
      simp only [Option.some.injEq] at hdata
      simp [hdata]
  | random => trivial
  | elementIdentifier identifier =>
      have hdata := hidentifier.symm.trans h.2
      simp only [Option.some.injEq] at hdata
      simp [hdata]
  | elementValue =>
      have hdata := hvalue.symm.trans h
      simp only [Option.some.injEq] at hdata
      simp [hdata]

/-- An item whose pairs have all been recorded is described. -/
theorem describes_of_recorded
    (h : IsIssuerSignedItem lenient encoded head pairs)
    (hattr : item.toAttribute encoded = .ok attr)
    (hrecorded : ∀ place ∈ located KeyValue.bytes head.length pairs,
      item.Recorded place.1 place.2) : attr.Describes head pairs := by
  have hplace {pair : KeyValue} (hpair : pair ∈ pairs) :
      ∃ offset, (offset, pair) ∈ located KeyValue.bytes head.length pairs ∧
        item.Recorded offset pair := by
    obtain ⟨offset, hmem⟩ := exists_located hpair head.length
    exact ⟨offset, hmem, hrecorded _ hmem⟩
  constructor
  · refine ⟨_, ?_, tiles_located head.length pairs⟩
    have hspans : ((located KeyValue.bytes head.length pairs).map fun place =>
        (place.1, place.2.bytes.length)) =
        (pairs.map fun pair => pair.entry.key).map attr.span := by
      have hmap : (located KeyValue.bytes head.length pairs).map Prod.snd =
          pairs := map_located head.length pairs
      nth_rewrite 2 [← hmap]
      rw [List.map_map, List.map_map]
      apply List.map_congr_left
      intro place hmem
      exact (span_of_recorded hattr (hrecorded place hmem)).symm
    rw [hspans]
    exact h.distinct.map attr.span
  · intro pair hpair
    obtain ⟨offset, hmem, hentry⟩ := hplace hpair
    refine ⟨offset, _, span_of_recorded hattr hentry, ?_⟩
    obtain ⟨behind, hencoded⟩ := h.encoded_eq_append
    rw [(IssuerSignedItem.toAttribute_eq_ok hattr).1, hencoded]
    exact slice_located hmem behind
  · intro pair hpair
    obtain ⟨offset, -, hentry⟩ := hplace hpair
    exact value_of_recorded hattr hentry

end Recorded

/-- The attribute that a well-formed item is read as. -/
theorem exists_attribute (h : IsIssuerSignedItem lenient encoded head pairs) :
    ∃ item identifier attr, IssuerSignedItem.parse encoded = .ok item ∧
      item.elementIdentifierString = some identifier ∧
      item.toAttribute encoded = .ok attr ∧
      attr.issuerSignedItemBytes = encoded ∧
      (∃ pair ∈ pairs, pair.entry = .elementIdentifier identifier) ∧
      attr.Describes head pairs := by
  have hdistinct : (pairs.map fun pair => pair.entry.key).Nodup :=
    h.distinct.nodup_iff.mpr (by decide)
  have hparse := parse_eq_recordAll h
  have hrecorded := IssuerSignedItem.recordAll_recorded {} head.length hdistinct
  generalize IssuerSignedItem.recordAll {} head.length pairs = item at *
  have hslot (key : String) (hkey : key ∈
      ["digestID", "random", "elementIdentifier", "elementValue"]) :
      ∃ offset pair, pair ∈ pairs ∧ pair.entry.key = key ∧
        item.Recorded offset pair := by
    obtain ⟨place, hplace, hentry⟩ := h.exists_pair hkey
    refine ⟨place.1, place.2, ?_, hentry, hrecorded place hplace⟩
    have hmap : (located KeyValue.bytes head.length pairs).map Prod.snd =
        pairs := map_located head.length pairs
    rw [← hmap]
    exact List.mem_map_of_mem hplace
  obtain ⟨digestId, hdigestId⟩ : ∃ data, item.digestId = some data := by
    obtain ⟨offset, ⟨entry, key, value⟩, -, hkey, hentry⟩ :=
      hslot "digestID" (by decide)
    cases entry with
    | digestId => exact ⟨_, hentry⟩
    | _ => simp [ItemEntry.key] at hkey
  obtain ⟨random, hrandom⟩ : ∃ data, item.random = some data := by
    obtain ⟨offset, ⟨entry, key, value⟩, -, hkey, hentry⟩ :=
      hslot "random" (by decide)
    cases entry with
    | random => exact ⟨_, hentry⟩
    | _ => simp [ItemEntry.key] at hkey
  obtain ⟨identifier, data, hidentifier, hdata, hmem⟩ :
      ∃ identifier data, item.elementIdentifierString = some identifier ∧
        item.elementIdentifier = some data ∧
        ∃ pair ∈ pairs, pair.entry = .elementIdentifier identifier := by
    obtain ⟨offset, ⟨entry, key, value⟩, hpair, hkey, hentry⟩ :=
      hslot "elementIdentifier" (by decide)
    cases entry with
    | elementIdentifier => exact ⟨_, _, hentry.1, hentry.2, _, hpair, rfl⟩
    | _ => simp [ItemEntry.key] at hkey
  obtain ⟨elementValue, helementValue⟩ :
      ∃ data, item.elementValue = some data := by
    obtain ⟨offset, ⟨entry, key, value⟩, -, hkey, hentry⟩ :=
      hslot "elementValue" (by decide)
    cases entry with
    | elementValue => exact ⟨_, hentry⟩
    | _ => simp [ItemEntry.key] at hkey
  have hattr : item.toAttribute encoded =
      .ok ⟨encoded, digestId, random, data, elementValue⟩ := by
    rw [IssuerSignedItem.toAttribute, hdigestId, hrandom, hdata, helementValue]
    rfl
  exact ⟨item, identifier, _, hparse, hidentifier, hattr, rfl, hmem,
    describes_of_recorded h hattr hrecorded⟩

end Attribute

/-- A requested identifier is the identifier of an item. -/
def HasIdentifier (lenient : Prop) (encoded : List UInt8)
    (attributeId : String) : Prop :=
  ∃ head pairs, IsIssuerSignedItem lenient encoded head pairs ∧
    ∃ pair ∈ pairs, pair.entry = .elementIdentifier attributeId

/-- Locating attributes returns if and only if each requested identifier is
that of an item of the namespace.  It then returns, for each of them, such an
item with the places of its four pairs. -/
def FindsExactly (lenient : Prop)
    (attributePreimages : List (String × List (List UInt8)))
    (nameSpace : String) (attributeIds : List String) : Prop :=
  ((∃ attributes,
      findAttributes attributePreimages nameSpace attributeIds =
        .ok attributes) ↔
    ∀ attributeId ∈ attributeIds, ∃ items,
      attributePreimages.lookup nameSpace = some items ∧
      ∃ encoded ∈ items, HasIdentifier lenient encoded attributeId) ∧
  ∀ attributes,
    findAttributes attributePreimages nameSpace attributeIds =
      .ok attributes →
    List.Forall₂ (fun attributeId attr => ∃ items head pairs,
      attributePreimages.lookup nameSpace = some items ∧
      attr.issuerSignedItemBytes ∈ items ∧
      IsIssuerSignedItem lenient attr.issuerSignedItemBytes head pairs ∧
      (∃ pair ∈ pairs, pair.entry = .elementIdentifier attributeId) ∧
      attr.Describes head pairs) attributeIds attributes

section Storing

namespace IssuerSignedItem

/-- An attribute is stored with the first identifier that is its own. -/
theorem store_eq_set {item : IssuerSignedItem} {encoded : List UInt8}
    {identifier : String} {attr : ParsedAttribute}
    (hidentifier : item.elementIdentifierString = some identifier)
    (hattr : item.toAttribute encoded = .ok attr) {attributeIds : List String}
    {out : List (Option ParsedAttribute)}
    (hlength : out.length = attributeIds.length) :
    item.store encoded attributeIds out =
      .ok (out.set (attributeIds.idxOf identifier) (some attr)) := by
  induction attributeIds generalizing out with
  | nil =>
      obtain rfl := List.length_eq_zero_iff.mp hlength
      rfl
  | cons desired attributeIds ih =>
      obtain ⟨opt, out, rfl⟩ := List.exists_cons_of_length_eq_add_one hlength
      rw [store, hidentifier]
      by_cases heq : desired = identifier
      · rw [if_pos (congrArg some heq.symm), hattr, ok_bind, heq,
          List.idxOf_cons_self]
        rfl
      · rw [if_neg fun h => heq (Option.some.inj h).symm,
          ih (Nat.succ.inj hlength), ok_bind,
          List.idxOf_cons_ne attributeIds heq]
        rfl

end IssuerSignedItem

variable {lenient : Prop} {items : List (List UInt8)}

/-- The identifier of an item is the one that is read of it. -/
theorem HasIdentifier.eq_of_parse {encoded : List UInt8} {attributeId : String}
    (h : HasIdentifier lenient encoded attributeId) {item : IssuerSignedItem}
    (hparse : IssuerSignedItem.parse encoded = .ok item) :
    item.elementIdentifierString = some attributeId := by
  obtain ⟨head, pairs, hitem, ⟨entry, key, value⟩, hpair, rfl⟩ := h
  obtain ⟨offset, hplace⟩ := exists_located hpair head.length
  have hdistinct : (pairs.map fun pair => pair.entry.key).Nodup :=
    hitem.distinct.nodup_iff.mpr (by decide)
  have hrecorded := IssuerSignedItem.recordAll_recorded {} head.length
    hdistinct _ hplace
  rw [parse_eq_recordAll hitem] at hparse
  cases hparse
  exact hrecorded.1

/-- The loop over the items fills the first slot of each identifier. -/
theorem storeAll {attributeIds : List String}
    (hitems : ∀ encoded ∈ items, ∃ head pairs,
      IsIssuerSignedItem lenient encoded head pairs)
    {out : List (Option ParsedAttribute)}
    (hlength : out.length = attributeIds.length) :
    ∃ stored, items.foldlM (fun out encoded => do
        let item ← IssuerSignedItem.parse encoded
        item.store encoded attributeIds out) out = .ok stored ∧
      stored.length = attributeIds.length ∧
      ∀ i (hi : i < stored.length), stored[i].isSome ↔
        out[i]?.join.isSome ∨ ∃ encoded ∈ items, ∃ identifier,
          HasIdentifier lenient encoded identifier ∧
          attributeIds.idxOf identifier = i := by
  induction items generalizing out with
  | nil =>
      refine ⟨out, rfl, hlength, fun i hi => ?_⟩
      simp [List.getElem?_eq_getElem hi]
  | cons encoded items ih =>
      obtain ⟨⟨head, pairs, hfirst⟩, hitems⟩ := List.forall_mem_cons.mp hitems
      obtain ⟨item, identifier, attr, hparse, hidentifier, hattr, -, hmem, -⟩ :=
        exists_attribute hfirst
      have hset := IssuerSignedItem.store_eq_set hidentifier hattr hlength
      have hlength' : (out.set (attributeIds.idxOf identifier)
          (some attr)).length = attributeIds.length := by
        rw [List.length_set, hlength]
      obtain ⟨stored, hloop, hstored, hsome⟩ := ih hitems hlength'
      refine ⟨stored, ?_, hstored, fun i hi => ?_⟩
      · rw [List.foldlM_cons, hparse, ok_bind, hset, ok_bind]
        exact hloop
      have hslot : (out.set (attributeIds.idxOf identifier)
          (some attr))[i]?.join.isSome ↔
          out[i]?.join.isSome ∨ attributeIds.idxOf identifier = i := by
        have hbound : i < out.length := by omega
        rw [List.getElem?_set]
        by_cases heq : attributeIds.idxOf identifier = i
        · simp [heq, hbound]
        · simp [heq]
      have hhas (other : String) : HasIdentifier lenient encoded other ↔
          other = identifier := by
        constructor
        · intro h
          have hother := h.eq_of_parse hparse
          rw [hidentifier] at hother
          exact (Option.some.inj hother).symm
        · rintro rfl
          exact ⟨head, pairs, hfirst, hmem⟩
      rw [hsome i hi, hslot]
      simp [hhas, or_assoc]

/-- Collecting succeeds if every slot is filled. -/
theorem mapM_required_iff {attributeIds : List String}
    {out : List (Option ParsedAttribute)}
    (hlength : out.length = attributeIds.length) :
    (∃ attributes, ((out.zip attributeIds).mapM fun entry =>
      IssuerSignedItem.required entry.1
        ("attribute was not found in mdoc: " ++ entry.2)) = .ok attributes) ↔
      ∀ opt ∈ out, opt.isSome := by
  induction attributeIds generalizing out with
  | nil =>
      obtain rfl := List.length_eq_zero_iff.mp hlength
      exact ⟨fun _ => nofun, fun _ => ⟨[], rfl⟩⟩
  | cons attributeId attributeIds ih =>
      obtain ⟨opt, out, rfl⟩ := List.exists_cons_of_length_eq_add_one hlength
      rw [List.forall_mem_cons, ← ih (Nat.succ.inj hlength), List.zip_cons_cons]
      simp only [List.mapM_cons, Exec.bind_eq_ok,
        IssuerSignedItem.required_eq_ok]
      constructor
      · rintro ⟨attributes, attr, rfl, rest, hrest, -⟩
        exact ⟨rfl, rest, hrest⟩
      · rintro ⟨hopt, rest, hrest⟩
        obtain ⟨attr, rfl⟩ := Option.isSome_iff_exists.mp hopt
        exact ⟨attr :: rest, attr, rfl, rest, hrest, rfl⟩

/-- Every slot is the first of an identifier that is found if and only if all
identifiers are found and none is repeated. -/
theorem forall_idxOf_iff {found : String → Prop} {attributeIds : List String} :
    (∀ i < attributeIds.length, ∃ identifier, found identifier ∧
      attributeIds.idxOf identifier = i) ↔
    (∀ attributeId ∈ attributeIds, found attributeId) ∧ attributeIds.Nodup := by
  constructor
  · intro h
    have hfirst (i : Nat) (hi : i < attributeIds.length) :
        found attributeIds[i] ∧ attributeIds.idxOf attributeIds[i] = i := by
      obtain ⟨identifier, hfound, hindex⟩ := h i hi
      have hget : attributeIds[i] = identifier := by
        subst hindex
        exact List.getElem_idxOf hi
      rw [hget]
      exact ⟨hfound, hindex⟩
    constructor
    · intro attributeId hmem
      obtain ⟨i, hi, rfl⟩ := List.getElem_of_mem hmem
      exact (hfirst i hi).1
    · rw [List.nodup_iff_injective_getElem]
      intro i j hij
      apply Fin.ext
      have hequal : attributeIds[i.val] = attributeIds[j.val] := hij
      rw [← (hfirst i i.isLt).2, ← (hfirst j j.isLt).2, hequal]
  · rintro ⟨hfound, hnodup⟩ i hi
    exact ⟨attributeIds[i], hfound _ (List.getElem_mem hi),
      hnodup.idxOf_getElem i hi⟩

/-- When the search returns. -/
theorem findAttributes_isOk_iff
    {attributePreimages : List (String × List (List UInt8))}
    {nameSpace : String} {attributeIds : List String}
    (hitems : ∀ items, attributePreimages.lookup nameSpace = some items →
      ∀ encoded ∈ items, ∃ head pairs,
        IsIssuerSignedItem lenient encoded head pairs) :
    (∃ attributes, findAttributes attributePreimages nameSpace attributeIds =
      .ok attributes) ↔
    ∃ items, attributePreimages.lookup nameSpace = some items ∧
      (∀ attributeId ∈ attributeIds, ∃ encoded ∈ items,
        HasIdentifier lenient encoded attributeId) ∧
      attributeIds.Nodup := by
  rw [findAttributes]
  rcases hlookup : attributePreimages.lookup nameSpace with _ | items
  · constructor
    · rintro ⟨_, h⟩
      cases h
    · rintro ⟨_, h, -⟩
      cases h
  have hlength : (List.replicate attributeIds.length
      (none : Option ParsedAttribute)).length = attributeIds.length :=
    List.length_replicate
  obtain ⟨stored, hloop, hstored, hsome⟩ :=
    storeAll (hitems items hlookup) hlength
  rw [IssuerSignedItem.required, pure_bind, hloop, ok_bind,
    mapM_required_iff hstored]
  have hfilled : (∀ opt ∈ stored, opt.isSome) ↔
      ∀ i < attributeIds.length, ∃ identifier,
        (∃ encoded ∈ items, HasIdentifier lenient encoded identifier) ∧
        attributeIds.idxOf identifier = i := by
    rw [List.forall_mem_iff_getElem, ← hstored]
    refine forall₂_congr fun i hi => ?_
    have hempty : ¬ (List.replicate attributeIds.length
        (none : Option ParsedAttribute))[i]?.join.isSome = true := by
      rw [List.getElem?_replicate]
      split <;> simp
    rw [hsome i hi, or_iff_right hempty]
    constructor
    · rintro ⟨encoded, hmem, identifier, hhas, hindex⟩
      exact ⟨identifier, ⟨encoded, hmem, hhas⟩, hindex⟩
    · rintro ⟨identifier, ⟨encoded, hmem, hhas⟩, hindex⟩
      exact ⟨encoded, hmem, identifier, hhas, hindex⟩
  rw [hfilled, forall_idxOf_iff]
  simp

end Storing

/-- What the search returns. -/
theorem findAttributes_describes {lenient : Prop}
    {attributePreimages : List (String × List (List UInt8))}
    {nameSpace : String} {attributeIds : List String}
    (hitems : ∀ items, attributePreimages.lookup nameSpace = some items →
      ∀ encoded ∈ items, ∃ head pairs,
        IsIssuerSignedItem lenient encoded head pairs)
    {attributes : List ParsedAttribute}
    (h : findAttributes attributePreimages nameSpace attributeIds =
      .ok attributes) :
    List.Forall₂ (fun attributeId attr => ∃ items head pairs,
      attributePreimages.lookup nameSpace = some items ∧
      attr.issuerSignedItemBytes ∈ items ∧
      IsIssuerSignedItem lenient attr.issuerSignedItemBytes head pairs ∧
      (∃ pair ∈ pairs, pair.entry = .elementIdentifier attributeId) ∧
      attr.Describes head pairs) attributeIds attributes := by
  obtain ⟨items, hlookup, hall⟩ := findAttributes_forall₂ h
  refine hall.imp fun attributeId attr hattr => ?_
  obtain ⟨item, hparse, hidentifier, hread⟩ := hattr.parsed
  obtain ⟨head, pairs, hitem⟩ := hitems items hlookup _ hattr.mem
  obtain ⟨item', identifier, attr', hparse', hidentifier', hread', -, hmem,
    hdescribes⟩ := exists_attribute hitem
  rw [hparse] at hparse'
  cases hparse'
  rw [hread] at hread'
  cases hread'
  rw [hidentifier] at hidentifier'
  cases hidentifier'
  exact ⟨items, head, pairs, hlookup, hattr.mem, hitem, hmem, hdescribes⟩

section Age

/-- A short text with its head. -/
def shortText (s : String) : List UInt8 :=
  cborHead 3 (utf8 s).length ++ utf8 s

theorem isString_shortText {lenient : Prop} {s : String}
    (h : (utf8 s).length < 24) :
    IsString lenient 3 (shortText s) (utf8 s) := by
  have hhead : Head 3 (utf8 s).length (cborHead 3 (utf8 s).length) := by
    rw [cborHead, headForm, if_pos h]
    exact .short (by decide) h
  exact .whole hhead fun _ => s.isValidUTF8

/-- An item that tells an age: its four pairs. -/
def agePairs : List KeyValue :=
  [⟨.digestId 0, shortText "digestID", [0]⟩,
    ⟨.random, shortText "random", [64]⟩,
    ⟨.elementIdentifier "age_over_21", shortText "elementIdentifier",
      shortText "age_over_21"⟩,
    ⟨.elementValue, shortText "elementValue", [245]⟩]

def ageItem : List UInt8 := [164] ++ agePairs.flatMap KeyValue.bytes

theorem isIssuerSignedItem_ageItem (lenient : Prop) :
    IsIssuerSignedItem lenient ageItem [164] agePairs where
  keys := by
    intro pair hpair
    simp only [agePairs, List.mem_cons, List.not_mem_nil, or_false] at hpair
    rcases hpair with rfl | rfl | rfl | rfl <;>
      exact isString_shortText (by decide)
  values := by
    intro pair hpair
    simp only [agePairs, List.mem_cons, List.not_mem_nil, or_false] at hpair
    rcases hpair with rfl | rfl | rfl | rfl
    · exact .digestId (.short (by decide) (by decide))
    · exact .random (.whole (show Head 2 ([] : List UInt8).length [64] from
        .short (by decide) (by decide)) (fun h => absurd h (by decide)))
    · exact .elementIdentifier (isString_shortText (by decide))
    · exact .elementValue (.simple (show Head 7 21 [245] from
        .short (by decide) (by decide)) (fun h => absurd h (by decide)))
  distinct := List.Perm.refl _
  encoded_eq := .inl ⟨.short (by decide) (by decide), rfl⟩

theorem hasIdentifier_ageItem (lenient : Prop) :
    HasIdentifier lenient ageItem "age_over_21" :=
  ⟨[164], agePairs, isIssuerSignedItem_ageItem lenient, _,
    List.mem_cons_of_mem _ (List.mem_cons_of_mem _ List.mem_cons_self), rfl⟩

/-- A credential with one item. -/
def agePreimages : List (String × List (List UInt8)) := [("mdl", [ageItem])]

theorem isIssuerSignedItem_agePreimages (lenient : Prop) :
    ∀ entry ∈ agePreimages, ∀ encoded ∈ entry.2,
      ∃ head pairs, IsIssuerSignedItem lenient encoded head pairs := by
  intro entry hentry encoded hencoded
  obtain rfl := List.mem_singleton.mp hentry
  obtain rfl := List.mem_singleton.mp hencoded
  exact ⟨_, _, isIssuerSignedItem_ageItem lenient⟩

end Age

end Longfellow.MdocZk
