/-
Skipping the body of an item consumes exactly that item.
-/
import Longfellow.MdocZk.Headers

namespace Longfellow.MdocZk

open Exec CborDecoder StreamItem
open DataItem (Head)

section Loops

/-- The loop over the elements of an array. -/
def arrayLoop (length : Option Nat) (elementCount : Nat)
    (decoder : CborDecoder) : Exec CborDecoder :=
  skipArray (2 * decoder.input.length + 1) length elementCount decoder

/-- The loop over the entries of a map. -/
def mapLoop (length : Option Nat) (entryCount : Nat) (decoder : CborDecoder) :
    Exec CborDecoder :=
  skipMap (2 * decoder.input.length + 1) length entryCount decoder

theorem skipBody_array (length : Option Nat) (decoder : CborDecoder) :
    skipBody (.array length) decoder = arrayLoop length 0 decoder := rfl

theorem skipBody_map (length : Option Nat) (decoder : CborDecoder) :
    skipBody (.map length) decoder = mapLoop length 0 decoder := rfl

theorem skipBody_tag (number : Nat) (decoder : CborDecoder) :
    skipBody (.tag number) decoder = (do
      let (header, decoder) ←
        decoder.pull "reading next item after tag failed"
      skipBody header decoder) := by
  rw [skipBody, skipBodyWith]
  rcases hpull : decoder.pull "reading next item after tag failed" with
    _ | ⟨header, next⟩
  · rfl
  have hnext := length_pull hpull
  exact skipBodyWith_eq_skipBody (by omega)

theorem arrayLoop_eq (length : Option Nat) (elementCount : Nat)
    (decoder : CborDecoder) :
    arrayLoop length elementCount decoder =
      (if reached length elementCount then pure decoder
      else do
        let (header, decoder) ← decoder.pull "error skipping array"
        if header = .stop then
          if length.isSome then
            fail "unexpected break in array of known size"
          else pure decoder
        else do
          let decoder ← skipBody header decoder
          arrayLoop length (elementCount + 1) decoder) := by
  rw [arrayLoop, skipArray]
  rcases hpull : decoder.pull "error skipping array" with _ | ⟨header, next⟩
  · rfl
  have hnext := length_pull hpull
  rw [ok_bind, ok_bind]
  dsimp only
  rw [skipBodyWith_eq_skipBody (by omega)]
  rcases hskip : skipBody header next with _ | last
  · rfl
  have hlast := (length_skip _).1 _ _ _ hskip
  have hloop : skipArray (2 * decoder.input.length) length (elementCount + 1)
      last = arrayLoop length (elementCount + 1) last :=
    (skip_eq _).2.1 _ _ _ _ (by omega) le_rfl
  rw [ok_bind, ok_bind, hloop]

theorem mapLoop_eq (length : Option Nat) (entryCount : Nat)
    (decoder : CborDecoder) :
    mapLoop length entryCount decoder =
      (if reached length entryCount then pure decoder
      else do
        let (keyHeader, decoder) ← decoder.pull "error skipping map"
        if keyHeader = .stop then
          if length.isSome then
            fail "unexpected break in map of known size"
          else pure decoder
        else do
          let decoder ← skipBody keyHeader decoder
          let (valueHeader, decoder) ← decoder.pull "error skipping map"
          let decoder ← skipBody valueHeader decoder
          mapLoop length (entryCount + 1) decoder) := by
  rw [mapLoop, skipMap]
  rcases hpull : decoder.pull "error skipping map" with _ | ⟨header, next⟩
  · rfl
  have hnext := length_pull hpull
  rw [ok_bind, ok_bind]
  dsimp only
  rw [skipBodyWith_eq_skipBody (by omega)]
  rcases hskip : skipBody header next with _ | middle
  · rfl
  have hmiddle := (length_skip _).1 _ _ _ hskip
  rw [ok_bind, ok_bind]
  rcases hpullValue : middle.pull "error skipping map" with _ | ⟨value, behind⟩
  · rfl
  have hbehind := length_pull hpullValue
  rw [ok_bind, ok_bind]
  dsimp only
  rw [skipBodyWith_eq_skipBody (by omega)]
  rcases hvalue : skipBody value behind with _ | last
  · rfl
  have hlast := (length_skip _).1 _ _ _ hvalue
  have hloop : skipMap (2 * decoder.input.length) length (entryCount + 1)
      last = mapLoop length (entryCount + 1) last :=
    (skip_eq _).2.2 _ _ _ _ (by omega) le_rfl
  rw [ok_bind, ok_bind, hloop]

end Loops

section Complete

/-- An item is skipped: its header is read, and skipping its body leads to the
end of the item. -/
def Skipped (item : List UInt8) : Prop :=
  ∀ decoder next, Reads decoder item next →
    ∃ header bytes middle, HeaderBytes header bytes ∧ header ≠ .stop ∧
      Reads decoder bytes middle ∧ skipBody header middle = .ok next

theorem reached_eq_false {n count : Nat} (h : count < n) :
    reached (some n) count = false := by
  simp [reached, h]

theorem reached_self (n : Nat) : reached (some n) n = true := by
  simp [reached]

/-- The elements of an array are skipped, and the loop goes on behind them. -/
theorem arrayLoop_items {items : List (List UInt8)}
    (h : ∀ item ∈ items, Skipped item) {length : Option Nat} {count : Nat}
    (hlength : ∀ n, length = some n → count + items.length ≤ n)
    {decoder next : CborDecoder} (hreads : Reads decoder items.flatten next) :
    arrayLoop length count decoder =
      arrayLoop length (count + items.length) next := by
  induction items generalizing count decoder with
  | nil => rw [hreads.next_eq (Reads.nil decoder)]; rfl
  | cons item items ih =>
      rw [List.flatten_cons] at hreads
      obtain ⟨middle, hitem, hrest⟩ := hreads.split
      obtain ⟨header, bytes, after, hbytes, hne, hheader, hskip⟩ :=
        h item List.mem_cons_self decoder middle hitem
      have hopen : ¬ reached length count = true := by
        cases length with
        | none => simp [reached]
        | some n =>
            have hle := hlength n rfl
            rw [List.length_cons] at hle
            rw [reached_eq_false (by omega)]
            decide
      have hlength' : ∀ n, length = some n → count + 1 + items.length ≤ n := by
        intro n hn
        have hle := hlength n hn
        rw [List.length_cons] at hle
        omega
      have hlater := ih (fun other hother =>
        h other (List.mem_cons_of_mem item hother)) hlength' hrest
      rw [arrayLoop_eq, if_neg hopen,
        pull_eq_ok.mpr ⟨bytes, hbytes, hheader⟩, ok_bind]
      dsimp only
      rw [if_neg hne, hskip, ok_bind, hlater, List.length_cons,
        Nat.add_right_comm, Nat.add_assoc]

/-- The entries of a map are skipped, and the loop goes on behind them. -/
theorem mapLoop_entries {entries : List (List UInt8 × List UInt8)}
    (hkeys : ∀ entry ∈ entries, Skipped entry.1)
    (hvalues : ∀ entry ∈ entries, Skipped entry.2) {length : Option Nat}
    {count : Nat} (hlength : ∀ n, length = some n → count + entries.length ≤ n)
    {decoder next : CborDecoder} (hreads : Reads decoder
      (entries.flatMap fun entry => entry.1 ++ entry.2) next) :
    mapLoop length count decoder =
      mapLoop length (count + entries.length) next := by
  induction entries generalizing count decoder with
  | nil => rw [hreads.next_eq (Reads.nil decoder)]; rfl
  | cons entry entries ih =>
      rw [List.flatMap_cons, List.append_assoc] at hreads
      obtain ⟨middle, hkey, hrest⟩ := hreads.split
      obtain ⟨behind, hvalue, hrest⟩ := hrest.split
      obtain ⟨header, bytes, after, hbytes, hne, hheader, hskip⟩ :=
        hkeys entry List.mem_cons_self decoder middle hkey
      obtain ⟨header', bytes', after', hbytes', -, hheader', hskip'⟩ :=
        hvalues entry List.mem_cons_self middle behind hvalue
      have hopen : ¬ reached length count = true := by
        cases length with
        | none => simp [reached]
        | some n =>
            have hle := hlength n rfl
            rw [List.length_cons] at hle
            rw [reached_eq_false (by omega)]
            decide
      have hlength' : ∀ n, length = some n →
          count + 1 + entries.length ≤ n := by
        intro n hn
        have hle := hlength n hn
        rw [List.length_cons] at hle
        omega
      have hlater := ih (fun other hother =>
        hkeys other (List.mem_cons_of_mem entry hother)) (fun other hother =>
        hvalues other (List.mem_cons_of_mem entry hother)) hlength' hrest
      rw [mapLoop_eq, if_neg hopen,
        pull_eq_ok.mpr ⟨bytes, hbytes, hheader⟩, ok_bind]
      dsimp only
      rw [if_neg hne, hskip, ok_bind,
        pull_eq_ok.mpr ⟨bytes', hbytes', hheader'⟩, ok_bind]
      dsimp only
      rw [hskip', ok_bind, hlater, List.length_cons, Nat.add_right_comm,
        Nat.add_assoc]

theorem skipBody_eq_readString (isText : Bool) (length : Option Nat)
    (decoder : CborDecoder) :
    skipBody (stringHeader isText length) decoder = (do
      let (_, decoder) ← readString isText
        (if isText then ⟨"error skipping past text", "error skipping past text"⟩
        else ⟨"error skipping past bytes", "error skipping past bytes"⟩)
        length decoder
      pure decoder) := by
  cases isText <;> rfl

theorem skipBody_string {lenient : Prop} {isText : Bool}
    {length : Option Nat} {body content : List UInt8}
    (h : StringBody lenient (stringMajor isText) length body content)
    {decoder next : CborDecoder} (hreads : Reads decoder body next) :
    skipBody (stringHeader isText length) decoder = .ok next := by
  rw [skipBody_eq_readString, readString_of_reads h hreads]
  rfl

/-- Every well-formed item is skipped. -/
theorem skipped_of_item {lenient : Prop} {item : List UInt8}
    (h : Item lenient item) : Skipped item := by
  induction h with
  | @integer major argument head hmajor hhead =>
      intro decoder next hreads
      rcases hmajor with rfl | rfl
      · exact ⟨_, head, next, .positive hhead, nofun, hreads, rfl⟩
      · exact ⟨_, head, next, .negative hhead, nofun, hreads, rfl⟩
  | @string major bytes content hmajor hstring =>
      intro decoder next hreads
      have hcases (isText : Bool)
          (h : IsString lenient (stringMajor isText) bytes content) :
          ∃ header head middle, HeaderBytes header head ∧ header ≠ .stop ∧
            Reads decoder head middle ∧ skipBody header middle = .ok next := by
        obtain ⟨length, head, body, hheader, hbody, rfl⟩ := isString_iff.mp h
        obtain ⟨middle, hfirst, hrest⟩ := hreads.split
        refine ⟨_, head, middle, hheader, ?_, hfirst,
          skipBody_string hbody hrest⟩
        cases isText with
        | false => exact nofun
        | true => exact nofun
      rcases hmajor with rfl | rfl
      · exact hcases false hstring
      · exact hcases true hstring
  | @array head items hhead _ ih =>
      intro decoder next hreads
      obtain ⟨middle, hheader, hbody⟩ := hreads.split
      refine ⟨_, head, middle, .array hhead, nofun, hheader, ?_⟩
      rw [skipBody_array, arrayLoop_items ih
        (fun n hn => by cases hn; exact (Nat.zero_add _).le) hbody,
        Nat.zero_add, arrayLoop_eq, if_pos (reached_self _)]
      rfl
  | @openArray items _ ih =>
      intro decoder next hreads
      obtain ⟨middle, hheader, hbody⟩ := (show Reads decoder
        ([opening 4] ++ (items.flatten ++ [StreamItem.stop])) next from
          hreads).split
      obtain ⟨last, hitems, hstop⟩ := hbody.split
      refine ⟨_, _, middle, .openArray, nofun, hheader, ?_⟩
      rw [skipBody_array, arrayLoop_items ih (fun n hn => by cases hn) hitems, arrayLoop_eq]
      rw [if_neg (by simp [reached]), pull_eq_ok.mpr ⟨_, .stop, hstop⟩,
        ok_bind]
      rfl
  | @map entries head hhead _ _ hkeys hvalues =>
      intro decoder next hreads
      obtain ⟨middle, hheader, hbody⟩ := hreads.split
      refine ⟨_, head, middle, .map hhead, nofun, hheader, ?_⟩
      rw [skipBody_map, mapLoop_entries hkeys hvalues
        (fun n hn => by cases hn; exact (Nat.zero_add _).le) hbody,
        Nat.zero_add, mapLoop_eq, if_pos (reached_self _)]
      rfl
  | @openMap entries _ _ hkeys hvalues =>
      intro decoder next hreads
      obtain ⟨middle, hheader, hbody⟩ := (show Reads decoder
        ([opening 5] ++ ((entries.flatMap fun entry => entry.1 ++ entry.2) ++
          [StreamItem.stop])) next from hreads).split
      obtain ⟨last, hentries, hstop⟩ := hbody.split
      refine ⟨_, _, middle, .openMap, nofun, hheader, ?_⟩
      rw [skipBody_map, mapLoop_entries hkeys hvalues
        (fun n hn => by cases hn) hentries, mapLoop_eq]
      rw [if_neg (by simp [reached]), pull_eq_ok.mpr ⟨_, .stop, hstop⟩,
        ok_bind]
      rfl
  | @tag argument head item hhead _ ih =>
      intro decoder next hreads
      obtain ⟨middle, hheader, hbody⟩ := hreads.split
      obtain ⟨header, bytes, after, hbytes, -, hinner, hskip⟩ :=
        ih middle next hbody
      refine ⟨_, head, middle, .tag hhead, nofun, hheader, ?_⟩
      rw [skipBody_tag, pull_eq_ok.mpr ⟨bytes, hbytes, hinner⟩, ok_bind]
      exact hskip
  | @simple argument head hhead _ =>
      intro decoder next hreads
      by_cases hlength : head.length ≤ 2
      · exact ⟨_, head, next, .simple hhead hlength, nofun, hreads, rfl⟩
      · exact ⟨_, head, next, .float hhead (Nat.lt_of_not_le hlength), nofun,
          hreads, rfl⟩

/-- The header of an item is read and its body skipped. -/
theorem pullHeader_skipBody {lenient : Prop} {item rest : List UInt8}
    (h : Item lenient item) {decoder : CborDecoder}
    (hinput : decoder.input = item ++ rest) :
    ∃ header middle, decoder.pullHeader = .ok (header, middle) ∧
      skipBody header middle = .ok ⟨rest, decoder.offset + item.length⟩ := by
  obtain ⟨header, bytes, middle, hbytes, -, hheader, hskip⟩ :=
    skipped_of_item h decoder ⟨rest, decoder.offset + item.length⟩
      ⟨hinput, rfl⟩
  exact ⟨header, middle, pullHeader_eq_ok.mpr ⟨bytes, hbytes, hheader⟩, hskip⟩

end Complete

section Sound

/-- What ends a container behind its last item: a break, unless the number of
items is given. -/
def ending : Option Nat → List UInt8
  | none => [StreamItem.stop]
  | some _ => []

/-- What the loop over the elements of an array reads. -/
structure ArrayRead (length : Option Nat) (count : Nat)
    (decoder next : CborDecoder) (items : List (List UInt8)) : Prop where
  all : ∀ item ∈ items, Item True item
  count : ∀ n, length = some n → count + items.length = n
  reads : Reads decoder (items.flatten ++ ending length) next

/-- What the loop over the entries of a map reads. -/
structure MapRead (length : Option Nat) (count : Nat)
    (decoder next : CborDecoder) (entries : List (List UInt8 × List UInt8)) :
    Prop where
  keys : ∀ entry ∈ entries, Item True entry.1
  values : ∀ entry ∈ entries, Item True entry.2
  count : ∀ n, length = some n → count + entries.length = n
  reads : Reads decoder
    ((entries.flatMap fun entry => entry.1 ++ entry.2) ++ ending length) next

theorem count_lt {length : Option Nat} {count : Nat}
    (hcount : ∀ n, length = some n → count ≤ n)
    (hopen : ¬ reached length count = true) :
    ∀ n, length = some n → count + 1 ≤ n := by
  intro n hn
  subst hn
  rcases (hcount n rfl).lt_or_eq with hlt | rfl
  · exact hlt
  · exact absurd (reached_self count) hopen

/-- Where the number of elements is reached, the loop has read nothing. -/
theorem ArrayRead.nil {length : Option Nat} {count : Nat}
    {decoder : CborDecoder} (hcount : ∀ n, length = some n → count ≤ n)
    (h : reached length count = true) :
    ArrayRead length count decoder decoder [] := by
  cases length with
  | none => cases h
  | some n =>
      have hle : n ≤ count := by simpa [reached] using h
      exact ⟨nofun, fun m hm => by
        cases hm
        exact Nat.le_antisymm (hcount n rfl) hle, Reads.nil decoder⟩

theorem ArrayRead.stop {count : Nat} {decoder next : CborDecoder}
    (h : Reads decoder [StreamItem.stop] next) :
    ArrayRead none count decoder next [] :=
  ⟨nofun, nofun, h⟩

theorem ArrayRead.cons {length : Option Nat} {count : Nat}
    {decoder middle next : CborDecoder} {item : List UInt8}
    {items : List (List UInt8)} (hitem : Item True item)
    (hreads : Reads decoder item middle)
    (h : ArrayRead length (count + 1) middle next items) :
    ArrayRead length count decoder next (item :: items) where
  all := List.forall_mem_cons.mpr ⟨hitem, h.all⟩
  count := fun n hn => by
    have hrest := h.count n hn
    rw [List.length_cons]
    omega
  reads := by
    rw [List.flatten_cons, List.append_assoc]
    exact hreads.append h.reads

theorem MapRead.nil {length : Option Nat} {count : Nat}
    {decoder : CborDecoder} (hcount : ∀ n, length = some n → count ≤ n)
    (h : reached length count = true) :
    MapRead length count decoder decoder [] :=
  have hnone : ArrayRead length count decoder decoder [] := .nil hcount h
  ⟨nofun, nofun, hnone.count, hnone.reads⟩

theorem MapRead.stop {count : Nat} {decoder next : CborDecoder}
    (h : Reads decoder [StreamItem.stop] next) :
    MapRead none count decoder next [] :=
  ⟨nofun, nofun, nofun, h⟩

theorem MapRead.cons {length : Option Nat} {count : Nat}
    {decoder middle behind next : CborDecoder} {key value : List UInt8}
    {entries : List (List UInt8 × List UInt8)} (hkey : Item True key)
    (hvalue : Item True value) (hreadsKey : Reads decoder key middle)
    (hreadsValue : Reads middle value behind)
    (h : MapRead length (count + 1) behind next entries) :
    MapRead length count decoder next ((key, value) :: entries) where
  keys := List.forall_mem_cons.mpr ⟨hkey, h.keys⟩
  values := List.forall_mem_cons.mpr ⟨hvalue, h.values⟩
  count := fun n hn => by
    have hrest := h.count n hn
    rw [List.length_cons]
    omega
  reads := by
    rw [List.flatMap_cons, List.append_assoc]
    exact (hreadsKey.append hreadsValue).append h.reads

/-- The item that an array's header and elements make. -/
theorem ArrayRead.item {length : Option Nat} {decoder next : CborDecoder}
    {items : List (List UInt8)} (h : ArrayRead length 0 decoder next items)
    {head : List UInt8} (hhead : HeaderBytes (.array length) head) :
    Item True (head ++ (items.flatten ++ ending length)) := by
  cases hhead with
  | @array n _ hhead =>
      have hlength := h.count n rfl
      rw [Nat.zero_add] at hlength
      subst hlength
      rw [ending, List.append_nil]
      exact .array hhead h.all
  | openArray => exact .openArray h.all

theorem MapRead.item {length : Option Nat} {decoder next : CborDecoder}
    {entries : List (List UInt8 × List UInt8)}
    (h : MapRead length 0 decoder next entries) {head : List UInt8}
    (hhead : HeaderBytes (.map length) head) :
    Item True (head ++
      ((entries.flatMap fun entry => entry.1 ++ entry.2) ++
        ending length)) := by
  cases hhead with
  | @map n _ hhead =>
      have hlength := h.count n rfl
      rw [Nat.zero_add] at hlength
      subst hlength
      rw [ending, List.append_nil]
      exact .map hhead h.keys h.values
  | openMap => exact .openMap h.keys h.values

/-- The item that a string's header and body make. -/
theorem item_of_stringBody {isText : Bool} {length : Option Nat}
    {body content head : List UInt8}
    (h : StringBody True (stringMajor isText) length body content)
    (hhead : HeaderBytes (stringHeader isText length) head) :
    Item True (head ++ body) := by
  have hstring := isString_iff.mpr ⟨length, head, body, hhead, h, rfl⟩
  cases isText with
  | false => exact .string (.inl rfl) hstring
  | true => exact .string (.inr rfl) hstring

/-- What is skipped is well-formed: the body of an item, the rest of an array
and the rest of a map. -/
theorem skip_sound (fuel : Nat) :
    (∀ header decoder next head,
      skipBodyWith fuel header decoder = .ok next → HeaderBytes header head →
      ∃ body, Item True (head ++ body) ∧ Reads decoder body next) ∧
    (∀ length count decoder next, (∀ n, length = some n → count ≤ n) →
      skipArray fuel length count decoder = .ok next →
      ∃ items, ArrayRead length count decoder next items) ∧
    (∀ length count decoder next, (∀ n, length = some n → count ≤ n) →
      skipMap fuel length count decoder = .ok next →
      ∃ entries, MapRead length count decoder next entries) := by
  induction fuel with
  | zero => exact ⟨nofun, nofun, nofun⟩
  | succ fuel ih =>
      obtain ⟨hbody, harray, hmap⟩ := ih
      refine ⟨?_, ?_, ?_⟩
      · intro header decoder next head h hhead
        cases header with
        | positive value =>
            cases h
            cases hhead with | positive hhead =>
            exact ⟨[], by simpa using Item.integer (.inl rfl) hhead,
              Reads.nil _⟩
        | negative value =>
            cases h
            cases hhead with | negative hhead =>
            exact ⟨[], by simpa using Item.integer (.inr rfl) hhead,
              Reads.nil _⟩
        | float =>
            cases h
            cases hhead with | float hhead hlength =>
            refine ⟨[], ?_, Reads.nil _⟩
            rw [List.append_nil]
            exact .simple hhead fun htwo => by omega
        | simple value =>
            cases h
            cases hhead with | simple hhead _ =>
            refine ⟨[], ?_, Reads.nil _⟩
            rw [List.append_nil]
            exact .simple hhead fun _ => .inr trivial
        | stop => cases h
        | tag number =>
            obtain ⟨⟨header, after⟩, hpull, h⟩ := Exec.bind_eq_ok.mp h
            obtain ⟨inner, hinner, hafter⟩ := pull_eq_ok.mp hpull
            obtain ⟨body, hitem, hreads⟩ := hbody _ _ _ _ h hinner
            cases hhead with | tag hhead =>
            exact ⟨_, .tag hhead hitem, hafter.append hreads⟩
        | bytes length =>
            obtain ⟨⟨content, after⟩, hread, h⟩ := Exec.bind_eq_ok.mp h
            cases h
            obtain ⟨body, hstring, hreads⟩ := reads_of_readString hread
            exact ⟨body, item_of_stringBody hstring hhead, hreads⟩
        | text length =>
            obtain ⟨⟨content, after⟩, hread, h⟩ := Exec.bind_eq_ok.mp h
            cases h
            obtain ⟨body, hstring, hreads⟩ := reads_of_readString hread
            exact ⟨body, item_of_stringBody hstring hhead, hreads⟩
        | array length =>
            obtain ⟨items, hitems⟩ :=
              harray length 0 _ _ (fun n _ => Nat.zero_le n) h
            exact ⟨_, hitems.item hhead, hitems.reads⟩
        | map length =>
            obtain ⟨entries, hentries⟩ :=
              hmap length 0 _ _ (fun n _ => Nat.zero_le n) h
            exact ⟨_, hentries.item hhead, hentries.reads⟩
      · intro length count decoder next hcount h
        rw [skipArray] at h
        by_cases hreached : reached length count = true
        · rw [if_pos hreached] at h
          cases h
          exact ⟨[], .nil hcount hreached⟩
        rw [if_neg hreached] at h
        obtain ⟨⟨header, after⟩, hpull, h⟩ := Exec.bind_eq_ok.mp h
        obtain ⟨head, hhead, hafter⟩ := pull_eq_ok.mp hpull
        dsimp only at h
        by_cases hstop : header = .stop
        · rw [if_pos hstop] at h
          subst hstop
          cases hhead
          cases length with
          | some n => cases h
          | none =>
              cases h
              exact ⟨[], .stop hafter⟩
        rw [if_neg hstop] at h
        obtain ⟨middle, hskip, h⟩ := Exec.bind_eq_ok.mp h
        obtain ⟨body, hitem, hmiddle⟩ := hbody _ _ _ _ hskip hhead
        obtain ⟨items, hitems⟩ :=
          harray _ _ _ _ (count_lt hcount hreached) h
        exact ⟨_, hitems.cons hitem (hafter.append hmiddle)⟩
      · intro length count decoder next hcount h
        rw [skipMap] at h
        by_cases hreached : reached length count = true
        · rw [if_pos hreached] at h
          cases h
          exact ⟨[], .nil hcount hreached⟩
        rw [if_neg hreached] at h
        obtain ⟨⟨header, after⟩, hpull, h⟩ := Exec.bind_eq_ok.mp h
        obtain ⟨head, hhead, hafter⟩ := pull_eq_ok.mp hpull
        dsimp only at h
        by_cases hstop : header = .stop
        · rw [if_pos hstop] at h
          subst hstop
          cases hhead
          cases length with
          | some n => cases h
          | none =>
              cases h
              exact ⟨[], .stop hafter⟩
        rw [if_neg hstop] at h
        obtain ⟨middle, hkey, h⟩ := Exec.bind_eq_ok.mp h
        obtain ⟨body, hitem, hmiddle⟩ := hbody _ _ _ _ hkey hhead
        obtain ⟨⟨header', after'⟩, hpull', h⟩ := Exec.bind_eq_ok.mp h
        obtain ⟨head', hhead', hafter'⟩ := pull_eq_ok.mp hpull'
        obtain ⟨middle', hvalue, h⟩ := Exec.bind_eq_ok.mp h
        obtain ⟨body', hitem', hmiddle'⟩ := hbody _ _ _ _ hvalue hhead'
        obtain ⟨entries, hentries⟩ :=
          hmap _ _ _ _ (count_lt hcount hreached) h
        exact ⟨_, hentries.cons hitem hitem' (hafter.append hmiddle)
          (hafter'.append hmiddle')⟩

end Sound

end Longfellow.MdocZk
