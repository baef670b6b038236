/-
Locating the attributes of a credential by their identifiers.
-/
import Longfellow.MdocZk.Items

namespace Longfellow.MdocZk

open Exec CborDecoder

/-- One key-value pair in an `IssuerSignedItem`. -/
structure KeyValueData (α : Type) where
  offset : Nat
  length : Nat
  value : α

/-- An attribute extracted from an mdoc. -/
structure ParsedAttribute where
  issuerSignedItemBytes : List UInt8
  digestId : KeyValueData Nat
  random : KeyValueData Unit
  elementIdentifier : KeyValueData (List UInt8)
  elementValue : KeyValueData (List UInt8)

/-- The entries of an `IssuerSignedItem` that have been read. -/
structure IssuerSignedItem where
  elementIdentifierString : Option String := none
  digestId : Option (KeyValueData Nat) := none
  random : Option (KeyValueData Unit) := none
  elementIdentifier : Option (KeyValueData (List UInt8)) := none
  elementValue : Option (KeyValueData (List UInt8)) := none

/-- The bytes between two offsets. -/
def slice (bytes : List UInt8) (first last : Nat) : List UInt8 :=
  (bytes.drop first).take (last - first)

namespace IssuerSignedItem

def readDigestId (item : IssuerSignedItem) (decoder : CborDecoder)
    (keyOffset : Nat) (header : Header) :
    Exec (IssuerSignedItem × CborDecoder) := do
  ensure item.digestId.isNone "duplicate digestID entry in IssuerSignedItem"
  match header with
  | .positive id =>
      let digestId := some ⟨keyOffset, decoder.offset - keyOffset, id⟩
      pure ({ item with digestId }, decoder)
  | _ => fail "unexpected value for digestID"

def readRandom (item : IssuerSignedItem) (decoder : CborDecoder)
    (keyOffset : Nat) (header : Header) :
    Exec (IssuerSignedItem × CborDecoder) := do
  ensure item.random.isNone "duplicate random entry in IssuerSignedItem"
  match header with
  | .bytes _ => do
      let decoder ← skipBody header decoder
      let random := some ⟨keyOffset, decoder.offset - keyOffset, ()⟩
      pure ({ item with random }, decoder)
  | _ => fail "unexpected value for random"

def readElementIdentifier (encoded : List UInt8) (item : IssuerSignedItem)
    (decoder : CborDecoder) (keyOffset valueOffset : Nat) (header : Header) :
    Exec (IssuerSignedItem × CborDecoder) := do
  ensure item.elementIdentifier.isNone
    "duplicate elementIdentifier entry in IssuerSignedItem"
  match header with
  | .text length => do
      let (string, decoder) ← slurpString decoder length
      let endOffset := decoder.offset
      pure
        ({ item with
          elementIdentifierString := some string
          elementIdentifier := some ⟨keyOffset, endOffset - keyOffset,
            slice encoded valueOffset endOffset⟩ }, decoder)
  | _ => fail "unexpected value for elementIdentifier"

def readElementValue (encoded : List UInt8) (item : IssuerSignedItem)
    (decoder : CborDecoder) (keyOffset valueOffset : Nat) (header : Header) :
    Exec (IssuerSignedItem × CborDecoder) := do
  ensure item.elementValue.isNone
    "duplicate elementValue entry in IssuerSignedItem"
  let decoder ← skipBody header decoder
  let endOffset := decoder.offset
  let elementValue := some ⟨keyOffset, endOffset - keyOffset,
    slice encoded valueOffset endOffset⟩
  pure ({ item with elementValue }, decoder)

/-- Record one entry of the map. -/
def readEntry (encoded : List UInt8) : Entry IssuerSignedItem :=
  fun item decoder key keyOffset valueOffset header =>
    if key = "digestID" then item.readDigestId decoder keyOffset header
    else if key = "random" then item.readRandom decoder keyOffset header
    else if key = "elementIdentifier" then
      item.readElementIdentifier encoded decoder keyOffset valueOffset header
    else if key = "elementValue" then
      item.readElementValue encoded decoder keyOffset valueOffset header
    else fail ("unexpected field in IssuerSignedItem: " ++ key)

/-- Parse the entire map, with nothing after it. -/
def parse (encoded : List UInt8) : Exec IssuerSignedItem := do
  let (header, decoder) ←
    (CborDecoder.start encoded).pull "reading attribute failed"
  match header with
  | .map mapSize => do
      let (item, decoder) ← (parseMap (readEntry encoded) mapSize {}
        decoder).context "error reading IssuerSignedItem"
      ensure (decoder.offset = encoded.length)
        "leftover data after reading IssuerSignedItem"
      pure item
  | _ => fail "IssuerSignedItem was not a map"

/-- An entry that must be there. -/
def required {α : Type} (entry : Option α) (message : String) : Exec α :=
  match entry with
  | some a => pure a
  | none => fail message

/-- The attribute, if no entry is missing. -/
def toAttribute (item : IssuerSignedItem) (encoded : List UInt8) :
    Exec ParsedAttribute := do
  let digestId ←
    required item.digestId "digestID was missing from IssuerSignedItem"
  let random ← required item.random "random was missing from IssuerSignedItem"
  let elementIdentifier ← required item.elementIdentifier
    "elementIdentifier was missing from IssuerSignedItem"
  let elementValue ← required item.elementValue
    "elementValue was missing from IssuerSignedItem"
  pure ⟨encoded, digestId, random, elementIdentifier, elementValue⟩

/-- Store an attribute with the first of the desired identifiers that is its
own. -/
def store (item : IssuerSignedItem) (encoded : List UInt8) :
    List String → List (Option ParsedAttribute) →
      Exec (List (Option ParsedAttribute))
  | desired :: attributeIds, opt :: out =>
      if item.elementIdentifierString = some desired then do
        let attr ← item.toAttribute encoded
        pure (some attr :: out)
      else do
        let out ← store item encoded attributeIds out
        pure (opt :: out)
  | _, out => pure out

end IssuerSignedItem

/-- Locate attributes by their identifier. -/
def findAttributes (attributePreimages : List (String × List (List UInt8)))
    (nameSpace : String) (attributeIds : List String) :
    Exec (List ParsedAttribute) := do
  let namespaceAttrs ←
    IssuerSignedItem.required (attributePreimages.lookup nameSpace)
      "could not find namespace in DeviceResponse"
  let out ← namespaceAttrs.foldlM
    (fun out encoded => do
      let item ← IssuerSignedItem.parse encoded
      item.store encoded attributeIds out)
    (List.replicate attributeIds.length none)
  (out.zip attributeIds).mapM fun entry =>
    IssuerSignedItem.required entry.1
      ("attribute was not found in mdoc: " ++ entry.2)

/-- An attribute is read from one of the items, whose identifier it has. -/
structure IsAttribute (items : List (List UInt8)) (attributeId : String)
    (attr : ParsedAttribute) : Prop where
  mem : attr.issuerSignedItemBytes ∈ items
  parsed : ∃ item,
    IssuerSignedItem.parse attr.issuerSignedItemBytes = .ok item ∧
    item.elementIdentifierString = some attributeId ∧
    item.toAttribute attr.issuerSignedItemBytes = .ok attr

namespace IssuerSignedItem

theorem required_eq_ok {α : Type} {entry : Option α} {message : String}
    {a : α} : required entry message = .ok a ↔ entry = some a := by
  cases entry with
  | none =>
      constructor
      · intro h
        cases h
      · intro h
        cases h
  | some b =>
      constructor
      · intro h
        cases h
        rfl
      · intro h
        cases h
        rfl

/-- An attribute keeps the bytes of its item and the entries read from them. -/
theorem toAttribute_eq_ok {item : IssuerSignedItem} {encoded : List UInt8}
    {attr : ParsedAttribute} (h : item.toAttribute encoded = .ok attr) :
    attr.issuerSignedItemBytes = encoded ∧
      item.digestId = some attr.digestId ∧ item.random = some attr.random ∧
      item.elementIdentifier = some attr.elementIdentifier ∧
      item.elementValue = some attr.elementValue := by
  obtain ⟨digestId, hdigestId, h⟩ := Exec.bind_eq_ok.mp h
  obtain ⟨random, hrandom, h⟩ := Exec.bind_eq_ok.mp h
  obtain ⟨elementIdentifier, hidentifier, h⟩ := Exec.bind_eq_ok.mp h
  obtain ⟨elementValue, hvalue, h⟩ := Exec.bind_eq_ok.mp h
  cases h
  exact ⟨rfl, required_eq_ok.mp hdigestId, required_eq_ok.mp hrandom,
    required_eq_ok.mp hidentifier, required_eq_ok.mp hvalue⟩

/-- Storing keeps what is stored with each identifier an attribute of it. -/
theorem store_forall₂ {items : List (List UInt8)} {encoded : List UInt8}
    (hmem : encoded ∈ items) {item : IssuerSignedItem}
    (hparse : parse encoded = .ok item) {attributeIds : List String}
    {out stored : List (Option ParsedAttribute)}
    (hout : List.Forall₂ (fun attributeId opt => ∀ attr, opt = some attr →
      IsAttribute items attributeId attr) attributeIds out)
    (hstore : item.store encoded attributeIds out = .ok stored) :
    List.Forall₂ (fun attributeId opt => ∀ attr, opt = some attr →
      IsAttribute items attributeId attr) attributeIds stored := by
  induction hout generalizing stored with
  | nil =>
      cases hstore
      exact List.Forall₂.nil
  | @cons desired opt attributeIds out hopt hout ih =>
      rw [store] at hstore
      split_ifs at hstore with hstring
      · obtain ⟨attr, hattr, hstored⟩ := Exec.bind_eq_ok.mp hstore
        cases hstored
        apply List.Forall₂.cons _ hout
        intro found hfound
        cases hfound
        obtain ⟨rfl, -⟩ := toAttribute_eq_ok hattr
        exact ⟨hmem, item, hparse, hstring, hattr⟩
      · obtain ⟨rest, hrest, hstored⟩ := Exec.bind_eq_ok.mp hstore
        cases hstored
        exact List.Forall₂.cons hopt (ih hrest)

/-- What is collected in the end is what is stored. -/
theorem mapM_required {items : List (List UInt8)} {attributeIds : List String}
    {out : List (Option ParsedAttribute)} {attributes : List ParsedAttribute}
    (hout : List.Forall₂ (fun attributeId opt => ∀ attr, opt = some attr →
      IsAttribute items attributeId attr) attributeIds out)
    (h : ((out.zip attributeIds).mapM fun entry => required entry.1
      ("attribute was not found in mdoc: " ++ entry.2)) = .ok attributes) :
    List.Forall₂ (IsAttribute items) attributeIds attributes := by
  induction hout generalizing attributes with
  | nil =>
      cases h
      exact List.Forall₂.nil
  | @cons attributeId opt attributeIds out hopt hout ih =>
      rw [List.zip_cons_cons, List.mapM_cons] at h
      obtain ⟨attr, hattr, h⟩ := Exec.bind_eq_ok.mp h
      obtain ⟨rest, hrest, h⟩ := Exec.bind_eq_ok.mp h
      cases h
      exact List.Forall₂.cons (hopt attr (required_eq_ok.mp hattr)) (ih hrest)

end IssuerSignedItem

/-- Every attribute that is found has the identifier it was found by. -/
theorem findAttributes_forall₂
    {attributePreimages : List (String × List (List UInt8))}
    {nameSpace : String} {attributeIds : List String}
    {attributes : List ParsedAttribute}
    (h : findAttributes attributePreimages nameSpace attributeIds =
      .ok attributes) :
    ∃ items, attributePreimages.lookup nameSpace = some items ∧
      List.Forall₂ (IsAttribute items) attributeIds attributes := by
  obtain ⟨items, hitems, h⟩ := Exec.bind_eq_ok.mp h
  obtain ⟨out, hout, h⟩ := Exec.bind_eq_ok.mp h
  refine ⟨items, IssuerSignedItem.required_eq_ok.mp hitems, ?_⟩
  have hstart : List.Forall₂ (fun attributeId opt => ∀ attr,
      opt = some attr → IsAttribute items attributeId attr) attributeIds
      (List.replicate attributeIds.length none) := by
    rw [← List.map_const', List.forall₂_map_right_iff, List.forall₂_same]
    intro attributeId _ attr hattr
    cases hattr
  have hloop : Ensures (items.foldlM (fun out encoded => do
      let item ← IssuerSignedItem.parse encoded
      item.store encoded attributeIds out)
      (List.replicate attributeIds.length none)) fun out =>
        List.Forall₂ (fun attributeId opt => ∀ attr, opt = some attr →
          IsAttribute items attributeId attr) attributeIds out := by
    apply Ensures.foldlM (I := fun _ out =>
      List.Forall₂ (fun attributeId opt => ∀ attr, opt = some attr →
        IsAttribute items attributeId attr) attributeIds out) items hstart
    intro i hi out hout stored hstored
    obtain ⟨item, hparse, hstore⟩ := Exec.bind_eq_ok.mp hstored
    exact IssuerSignedItem.store_forall₂ (List.getElem_mem hi) hparse hout
      hstore
  exact IssuerSignedItem.mapM_required (hloop out hout) h

end Longfellow.MdocZk
