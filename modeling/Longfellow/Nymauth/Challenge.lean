/-
The verifier's challenge: the session transcript of the handover and the digest
of the device-authentication message.
-/
import Longfellow.MdocZk.Sha256
import Longfellow.Nymauth.Cbor
import Longfellow.Transcript

namespace Longfellow.Nymauth

open Exec MdocZk

namespace Challenge

/-- Shortest accepted nonce, in characters. -/
def minNonceChars : Nat := 16

def maxFieldBytes : Nat := 4096

/-- Shortest accepted transcript seed. -/
def minTranscriptSeedLen : Nat := 32

/-- Longest accepted transcript seed. -/
def maxTranscriptSeedLen : Nat := 2 ^ 16

/-- A derived challenge. -/
structure NymAuthChallenge where
  sessionTranscript : List UInt8
  challengeDigest : List UInt8
deriving DecidableEq

/-- A head of an item, for lengths of up to 32 bits. -/
def head (major : UInt8) (n : Nat) : List UInt8 :=
  let m := major <<< 5
  if n ≤ 23 then [m ||| UInt8.ofNat n]
  else if n ≤ 255 then [m ||| 24, UInt8.ofNat n]
  else if n ≤ 65535 then [m ||| 25, UInt8.ofNat (n >>> 8), UInt8.ofNat n]
  else (m ||| 26) :: (Bytes.leBytes 4 n).reverse

def tstr (s : String) : List UInt8 := head 3 (utf8 s).length ++ utf8 s

def bstr (b : List UInt8) : List UInt8 := head 2 b.length ++ b

def field (name v : String) : Exec Unit :=
  if v = "" then invalid s!"{name} must not be empty"
  else if maxFieldBytes < (utf8 v).length then
    invalid s!"{name} is longer than {maxFieldBytes} bytes"
  else pure ()

/-- The thumbprint of the response-encryption key, or null. -/
def thumbprintItem : Option (List UInt8) → List UInt8
  | none => [0xf6]
  | some t => bstr t

/-- The item of a thumbprint that has the right length. -/
def thumbprint (jwkThumbprint : Option (List UInt8)) : Exec (List UInt8) :=
  match jwkThumbprint with
  | none => pure (thumbprintItem none)
  | some t =>
      if t.length = 32 then pure (thumbprintItem (some t))
      else invalid "jwk_thumbprint must be 32 bytes"

/-- The handover info, of which the session transcript holds the hash. -/
def handoverInfo (origin nonce : String) (thumb : List UInt8) : List UInt8 :=
  head 4 3 ++ tstr origin ++ tstr nonce ++ thumb

/-- What is signed in place of the session transcript and the docType. -/
def deviceAuthentication (st : List UInt8) (docType : String) : List UInt8 :=
  head 4 4 ++ tstr "DeviceAuthentication" ++ st ++ tstr docType ++ head 6 24 ++
    bstr [0xa0]

/-- The message of which the digest is taken. -/
def message (st : List UInt8) (docType : String) : List UInt8 :=
  head 4 4 ++ tstr "Signature1" ++ bstr [0xa1, 0x01, 0x26] ++ bstr [] ++
    bstr (head 6 24 ++ bstr (deviceAuthentication st docType))

/-- One definite array of three items with nothing after it. -/
def wellFormed (st : List UInt8) : Bool :=
  (match Cbor.head st 0 with
    | .ok (mt, v, _) => mt == 4 && v == 3
    | .error _ => false) &&
  (match Cbor.endOf st 0 with
    | .ok e => e == st.length
    | .error _ => false)

/-- The length check on the transcript seed of a request. -/
def checkTranscriptSeed (seed : List UInt8) : Exec Unit :=
  if minTranscriptSeedLen ≤ seed.length ∧ seed.length ≤ maxTranscriptSeedLen then
    pure ()
  else
    invalid s!"transcript_seed must be {minTranscriptSeedLen} to {maxTranscriptSeedLen} bytes"

section Heads

/-- The heads are those of the credential code, up to 32 bits of length. -/
theorem head_eq_cborHead {major n : Nat} (hmajor : major < 8)
    (hn : n < 2 ^ 32) : head (UInt8.ofNat major) n = cborHead major n := by
  have hshort : ∀ major, major < 8 → ∀ n, n ≤ 23 →
      UInt8.ofNat major <<< 5 ||| UInt8.ofNat n =
        UInt8.ofNat (major * 32 + n) := by decide
  have hlong : ∀ major, major < 8 →
      UInt8.ofNat major <<< 5 ||| 24 = UInt8.ofNat (major * 32 + 24) ∧
      UInt8.ofNat major <<< 5 ||| 25 = UInt8.ofNat (major * 32 + 25) ∧
      UInt8.ofNat major <<< 5 ||| 26 = UInt8.ofNat (major * 32 + 26) := by
    decide
  obtain ⟨h24, h25, h26⟩ := hlong major hmajor
  simp only [head]
  by_cases h23 : n ≤ 23
  · have hform : headForm n = (n, 0) := by
      rw [headForm, if_pos (by omega)]
    rw [if_pos h23, cborHead, hform, hshort major hmajor n h23]
    rfl
  · rw [if_neg h23]
    by_cases h255 : n ≤ 255
    · have hform : headForm n = (24, 1) := by
        rw [headForm, if_neg (by omega), if_pos (by omega)]
      rw [if_pos h255, cborHead, hform, h24]
      rfl
    · rw [if_neg h255]
      by_cases h65535 : n ≤ 65535
      · have hform : headForm n = (25, 2) := by
          rw [headForm, if_neg (by omega), if_neg (by omega),
            if_pos (by omega)]
        rw [if_pos h65535, cborHead, hform, h25, Nat.shiftRight_eq_div_pow]
        rfl
      · have hform : headForm n = (26, 4) := by
          rw [headForm, if_neg (by omega), if_neg (by omega),
            if_neg (by omega), if_pos hn]
        rw [if_neg h65535, cborHead, hform, h26]

theorem length_head_mono (major : UInt8) {m n : Nat} (h : m ≤ n) :
    (head major m).length ≤ (head major n).length := by
  have hlength (n : Nat) : (head major n).length =
      if n ≤ 23 then 1 else if n ≤ 255 then 2 else if n ≤ 65535 then 3
      else 5 := by
    simp only [head]
    split_ifs <;> simp
  rw [hlength, hlength]
  split_ifs <;> omega

/-- A byte string at the end of a message can be read back, whatever its
length: its head grows with it. -/
theorem bstr_inj {x y : List UInt8} (h : bstr x = bstr y) : x = y := by
  have hlength := congrArg List.length h
  rw [bstr, bstr, List.length_append, List.length_append] at hlength
  have heq : x.length = y.length := by
    rcases Nat.le_total x.length y.length with hle | hle
    · have := length_head_mono 2 hle
      omega
    · have := length_head_mono 2 hle
      omega
  exact (List.append_inj' h heq).2

/-- A text string within the bounds of the fields can be read back. -/
theorem tstr_append_inj {s t : String} (hs : (utf8 s).length ≤ maxFieldBytes)
    (ht : (utf8 t).length ≤ maxFieldBytes) {r r' : List UInt8}
    (h : tstr s ++ r = tstr t ++ r') : s = t ∧ r = r' := by
  have hhead {n : Nat} (hn : n ≤ maxFieldBytes) : head 3 n = cborHead 3 n :=
    head_eq_cborHead (by decide) (by rw [maxFieldBytes] at hn; omega)
  rw [tstr, tstr, hhead hs, hhead ht, List.append_assoc,
    List.append_assoc] at h
  rw [maxFieldBytes] at hs ht
  obtain ⟨hlength, htail⟩ :=
    cborHead_append_inj (by decide) (by omega) (by omega) h
  obtain ⟨hbytes, hrest⟩ := List.append_inj htail hlength
  exact ⟨utf8_inj hbytes, hrest⟩

end Heads

section Checks

theorem field_eq_ok {name v : String} {u : Unit} : field name v = .ok u ↔
    v ≠ "" ∧ (utf8 v).length ≤ maxFieldBytes := by
  rw [field]
  by_cases hempty : v = ""
  · simp [hempty, invalid, fail]
  · by_cases hlong : maxFieldBytes < (utf8 v).length
    · simp [hempty, hlong, invalid, fail]
    · simp [hempty, hlong, Nat.not_lt.mp hlong]

theorem thumbprint_eq_ok {jwkThumbprint : Option (List UInt8)}
    {thumb : List UInt8} : thumbprint jwkThumbprint = .ok thumb ↔
      (∀ t, jwkThumbprint = some t → t.length = 32) ∧
        thumb = thumbprintItem jwkThumbprint := by
  cases jwkThumbprint with
  | none => simp [thumbprint, eq_comm]
  | some t =>
      by_cases hlength : t.length = 32
      · simp [thumbprint, hlength, eq_comm]
      · simp [thumbprint, hlength, invalid, fail]

end Checks

section Binding

theorem thumbprintItem_inj {t t' : Option (List UInt8)}
    (ht : ∀ x, t = some x → x.length = 32)
    (ht' : ∀ x, t' = some x → x.length = 32)
    (h : thumbprintItem t = thumbprintItem t') : t = t' := by
  have hne {x : List UInt8} (hx : x.length = 32) : [0xf6] ≠ bstr x := by
    intro heq
    have hlength := congrArg List.length heq
    rw [bstr, hx, List.length_append, hx] at hlength
    simp at hlength
  cases t with
  | none =>
      cases t' with
      | none => rfl
      | some y => exact absurd h (hne (ht' y rfl))
  | some x =>
      cases t' with
      | none => exact absurd h.symm (hne (ht x rfl))
      | some y => rw [bstr_inj h]

theorem handoverInfo_inj {origin nonce origin' nonce' : String}
    {thumb thumb' : List UInt8}
    (horigin : (utf8 origin).length ≤ maxFieldBytes)
    (horigin' : (utf8 origin').length ≤ maxFieldBytes)
    (hnonce : (utf8 nonce).length ≤ maxFieldBytes)
    (hnonce' : (utf8 nonce').length ≤ maxFieldBytes)
    (h : handoverInfo origin nonce thumb = handoverInfo origin' nonce' thumb') :
    origin = origin' ∧ nonce = nonce' ∧ thumb = thumb' := by
  simp only [handoverInfo, List.append_assoc] at h
  obtain ⟨ho, h⟩ :=
    tstr_append_inj horigin horigin' (List.append_cancel_left h)
  obtain ⟨hn, ht⟩ := tstr_append_inj hnonce hnonce' h
  exact ⟨ho, hn, ht⟩

/-- The message shows the session transcript, which ends where its one item
ends, and the docType after it. -/
theorem message_inj {st st' : List UInt8} {docType docType' : String}
    (hst : Cbor.endOf st 0 = .ok st.length)
    (hst' : Cbor.endOf st' 0 = .ok st'.length)
    (hdocType : (utf8 docType).length ≤ maxFieldBytes)
    (hdocType' : (utf8 docType').length ≤ maxFieldBytes)
    (h : message st docType = message st' docType') :
    st = st' ∧ docType = docType' := by
  have hpayload := bstr_inj (List.append_cancel_left h)
  have hauth := bstr_inj (List.append_cancel_left hpayload)
  simp only [deviceAuthentication, List.append_assoc] at hauth
  obtain ⟨hsame, hrest⟩ := Cbor.endOf_prefixFree hst hst'
    (List.append_cancel_left (List.append_cancel_left hauth))
  exact ⟨hsame, (tstr_append_inj hdocType hdocType' hrest).1⟩

theorem endOf_of_wellFormed {st : List UInt8} (h : wellFormed st = true) :
    Cbor.endOf st 0 = .ok st.length := by
  rw [wellFormed, Bool.and_eq_true] at h
  obtain ⟨-, h⟩ := h
  cases hend : Cbor.endOf st 0 with
  | error e =>
      rw [hend] at h
      cases h
  | ok e =>
      rw [hend] at h
      rw [beq_iff_eq.mp h]

end Binding

section Walk

open Cbor (endDepth)

/-- An item that the walker passes over, wherever it stands. -/
def IsItem (levels : Nat) (bs : List UInt8) : Prop :=
  bs ≠ [] ∧ ∀ a r, (a ++ (bs ++ r)).length ≤ Lfc2.usizeMax →
    endDepth (a ++ (bs ++ r)) levels a.length = .ok (a.length + bs.length)

theorem getElem?_at (a : List UInt8) (b : UInt8) (r : List UInt8) :
    (a ++ b :: r)[a.length]? = some b := by
  rw [List.getElem?_append_right le_rfl, Nat.sub_self]
  rfl

theorem getRange_at (a bs r : List UInt8) :
    Cbor.getRange (a ++ (bs ++ r)) a.length (a.length + bs.length) =
      some bs := by
  have hle : a.length + bs.length ≤ (a ++ (bs ++ r)).length := by
    rw [List.length_append, List.length_append]
    omega
  rw [Cbor.getRange, if_pos ⟨by omega, hle⟩, Nat.add_sub_cancel_left,
    List.drop_left, List.take_left]

/-- The walker reads the heads that are written here. -/
theorem head_head {major : UInt8}
    (hmajor : major = 2 ∨ major = 3 ∨ major = 4) {n : Nat} (hn : n ≤ 255)
    (a r : List UInt8) : Cbor.head (a ++ (head major n ++ r)) a.length =
      .ok (major, UInt64.ofNat n, (head major n).length) := by
  by_cases h23 : n ≤ 23
  · have hbits : ∀ n, n ≤ 23 →
        (major <<< 5 ||| UInt8.ofNat n) >>> 5 = major ∧
          (major <<< 5 ||| UInt8.ofNat n) &&& 31 = UInt8.ofNat n := by
      rcases hmajor with rfl | rfl | rfl <;> decide
    have hargument : ∀ n, n ≤ 23 → UInt8.ofNat n ≤ 23 ∧
        (UInt8.ofNat n).toUInt64 = UInt64.ofNat n := by decide
    have hbits := hbits n h23
    have hargument := hargument n h23
    have hhead : head major n = [major <<< 5 ||| UInt8.ofNat n] := by
      simp only [head, if_pos h23]
    rw [hhead, List.singleton_append, Cbor.head, getElem?_at]
    simp only [hbits.1, hbits.2, if_pos hargument.1, hargument.2]
    rfl
  · have hbits : (major <<< 5 ||| 24) >>> 5 = major ∧
        (major <<< 5 ||| 24) &&& 31 = 24 := by
      rcases hmajor with rfl | rfl | rfl <;> decide
    have hwiden : (UInt8.ofNat n).toUInt64 = UInt64.ofNat n := by
      rw [← UInt64.toNat_inj, UInt8.toNat_toUInt64, UInt8.toNat_ofNat',
        UInt64.toNat_ofNat', Nat.mod_eq_of_lt (by omega),
        Nat.mod_eq_of_lt (by omega)]
    have hargument :
        (0 : UInt64) <<< 8 ||| (UInt8.ofNat n).toUInt64 = UInt64.ofNat n := by
      rw [hwiden, UInt64.zero_shiftLeft, UInt64.zero_or]
    have hhead : head major n = [major <<< 5 ||| 24, UInt8.ofNat n] := by
      simp only [head, if_neg h23, if_pos hn]
    have hrange : Cbor.getRange
        (a ++ (major <<< 5 ||| 24) :: UInt8.ofNat n :: r) (a.length + 1)
          (a.length + 1 + 1) = some [UInt8.ofNat n] := by
      have h := getRange_at (a ++ [major <<< 5 ||| 24]) [UInt8.ofNat n] r
      simpa using h
    rw [hhead, List.cons_append, List.singleton_append, Cbor.head, getElem?_at]
    have hlong : ¬ (24 : UInt8) ≤ 23 := by decide
    have hsize : (24 : UInt8) ≤ 27 := by decide
    have hone : 1 <<< ((24 : UInt8) - 24).toNat = 1 := by decide
    simp only [hbits.1, hbits.2, if_neg hlong, if_pos hsize, hone, hrange,
      List.foldl_cons, List.foldl_nil, hargument]
    rfl

theorem isItem_null (levels : Nat) : IsItem (levels + 1) [0xf6] := by
  refine ⟨by decide, ?_⟩
  intro a r _
  have hhead : Cbor.head (a ++ ([0xf6] ++ r)) a.length = .ok (7, 22, 1) := by
    rw [List.singleton_append, Cbor.head, getElem?_at]
    rfl
  have hlength : ¬ (a ++ ([0xf6] ++ r)).length < a.length + 1 := by
    simp
  rw [endDepth, hhead, ok_bind, Cbor.bodyEnd, if_neg (by decide),
    if_neg (by decide), if_pos rfl, if_neg (by decide), pure_eq_ok, ok_bind,
    if_neg hlength]
  rfl

theorem isItem_string (levels : Nat) {major : UInt8}
    (hmajor : major = 2 ∨ major = 3) {bs : List UInt8}
    (hlength : bs.length ≤ 255)
    (hvalid : major = 3 → (CborDecoder.asText bs).IsValidUTF8) :
    IsItem (levels + 1) (head major bs.length ++ bs) := by
  constructor
  · intro hnil
    have hlong := length_head_mono major (Nat.zero_le bs.length)
    rw [(List.append_eq_nil_iff.mp hnil).1] at hlong
    exact absurd hlong (by rw [head]; simp)
  · intro a r hbound
    have hmajor' : major = 2 ∨ major = 3 ∨ major = 4 := by
      rcases hmajor with h | h
      · exact Or.inl h
      · exact Or.inr (Or.inl h)
    have hnat : (UInt64.ofNat bs.length).toNat = bs.length := by
      rw [UInt64.toNat_ofNat', Nat.mod_eq_of_lt (by omega)]
    have hrange := getRange_at (a ++ head major bs.length) bs r
    rw [List.length_append, List.append_assoc] at hrange
    rw [List.append_assoc] at hbound ⊢
    have hle : a.length + (head major bs.length).length + bs.length ≤
        (a ++ (head major bs.length ++ (bs ++ r))).length := by
      simp only [List.length_append]
      omega
    rw [endDepth, head_head hmajor' hlength, ok_bind, Cbor.bodyEnd,
      if_pos hmajor, Cbor.stringEnd]
    simp only [hnat]
    rw [if_neg (by omega), hrange]
    simp only
    rw [if_neg (fun h => h.2 (hvalid h.1)), pure_eq_ok, ok_bind,
      if_neg (by omega), List.length_append, Nat.add_assoc]
    rfl

theorem items_flatten {levels : Nat} {xs : List (List UInt8)}
    (hxs : ∀ x ∈ xs, IsItem levels x) (a r : List UInt8)
    (hbound : (a ++ (xs.flatten ++ r)).length ≤ Lfc2.usizeMax) :
    Cbor.items (endDepth (a ++ (xs.flatten ++ r)) levels) xs.length a.length =
      .ok (a.length + xs.flatten.length) := by
  induction xs generalizing a with
  | nil => rfl
  | cons x xs ih =>
      have hsplit : a ++ ((x :: xs).flatten ++ r) =
          a ++ (x ++ (xs.flatten ++ r)) := by
        rw [List.flatten_cons, List.append_assoc]
      have hassoc : a ++ (x ++ (xs.flatten ++ r)) =
          (a ++ x) ++ (xs.flatten ++ r) := by
        rw [List.append_assoc]
      rw [hsplit] at hbound ⊢
      have hx := (hxs x List.mem_cons_self).2 a (xs.flatten ++ r) hbound
      have hrest := ih (fun y hy => hxs y (List.mem_cons_of_mem x hy)) (a ++ x)
        (hassoc ▸ hbound)
      rw [List.length_cons, Cbor.items, hx, ok_bind, ← List.length_append,
        hassoc, hrest, List.length_append, List.flatten_cons,
        List.length_append, Nat.add_assoc]

theorem isItem_array {levels : Nat} (xs : List (List UInt8))
    (hxs : ∀ x ∈ xs, IsItem levels x) (hcount : xs.length ≤ 255) :
    IsItem (levels + 1) (head 4 xs.length ++ xs.flatten) := by
  have hmany : xs.length ≤ xs.flatten.length := by
    clear hcount
    induction xs with
    | nil => exact Nat.zero_le _
    | cons x xs ih =>
        have hx := List.length_pos_iff.mpr (hxs x List.mem_cons_self).1
        have hrest := ih fun y hy => hxs y (List.mem_cons_of_mem x hy)
        rw [List.flatten_cons, List.length_append, List.length_cons]
        omega
  constructor
  · intro hnil
    have hlong := length_head_mono 4 (Nat.zero_le xs.length)
    rw [(List.append_eq_nil_iff.mp hnil).1] at hlong
    exact absurd hlong (by rw [head]; simp)
  · intro a r hbound
    have hnat : (UInt64.ofNat xs.length).toNat = xs.length := by
      rw [UInt64.toNat_ofNat', Nat.mod_eq_of_lt (by omega)]
    rw [List.append_assoc] at hbound ⊢
    have hlength : (a ++ (head 4 xs.length ++ (xs.flatten ++ r))).length =
        a.length + ((head 4 xs.length).length + (xs.flatten.length +
          r.length)) := by
      simp only [List.length_append]
    have hitems := items_flatten hxs (a ++ head 4 xs.length) r
      (by rw [List.append_assoc]; exact hbound)
    rw [List.append_assoc, List.length_append] at hitems
    have hfew : (UInt64.ofNat xs.length).toNat ≤
        (a ++ (head 4 xs.length ++ (xs.flatten ++ r))).length - a.length := by
      omega
    rw [endDepth, head_head (Or.inr (Or.inr rfl)) hcount, ok_bind,
      Cbor.bodyEnd_array (by omega) hfew, hnat, hitems, ok_bind,
      if_neg (by omega), List.length_append, Nat.add_assoc]
    rfl

end Walk

section Derivation

variable [Primitives]

/-- The digest for a session transcript already in hand. -/
def challengeDigest (st : List UInt8) (docType : String) :
    Exec Sha256Digest := do
  field "doc_type" docType
  if !wellFormed st then
    invalid "session transcript must be one definite CBOR array of three items"
  else pure (Primitives.sha256 (message st docType))

def sessionTranscript (info : List UInt8) : List UInt8 :=
  head 4 3 ++ [0xf6, 0xf6] ++ head 4 2 ++ tstr "OpenID4VPDCAPIHandover" ++
    bstr (Primitives.sha256 info).bytes

/-- Derive the session transcript and the digest of the handover. -/
def deriveChallenge (origin nonce docType : String)
    (jwkThumbprint : Option (List UInt8)) : Exec NymAuthChallenge := do
  field "origin" origin
  field "nonce" nonce
  field "doc_type" docType
  if nonce.length < minNonceChars then
    invalid s!"nonce must be at least {minNonceChars} characters"
  else do
    let thumb ← thumbprint jwkThumbprint
    let info := handoverInfo origin nonce thumb
    let st := sessionTranscript info
    let digest ← challengeDigest st docType
    pure ⟨st, digest.bytes⟩

theorem challengeDigest_eq_ok {st : List UInt8} {docType : String}
    {digest : Sha256Digest} : challengeDigest st docType = .ok digest ↔
      (docType ≠ "" ∧ (utf8 docType).length ≤ maxFieldBytes) ∧
        wellFormed st = true ∧
          digest = Primitives.sha256 (message st docType) := by
  rw [challengeDigest, Exec.bind_eq_ok]
  constructor
  · rintro ⟨_, hfield, h⟩
    by_cases hst : wellFormed st
    · simp only [hst, Bool.not_true, Bool.false_eq_true, if_false] at h
      exact ⟨field_eq_ok.mp hfield, hst, (Except.ok.inj h).symm⟩
    · simp [hst, invalid, fail] at h
  · rintro ⟨hfield, hst, rfl⟩
    refine ⟨(), field_eq_ok.mpr hfield, ?_⟩
    simp [hst]

/-- What the arguments of an accepted call satisfy, and what it returns. -/
theorem deriveChallenge_eq_ok {origin nonce docType : String}
    {jwkThumbprint : Option (List UInt8)} {challenge : NymAuthChallenge}
    (h : deriveChallenge origin nonce docType jwkThumbprint = .ok challenge) :
    (utf8 origin).length ≤ maxFieldBytes ∧
      (utf8 nonce).length ≤ maxFieldBytes ∧
      (∀ t, jwkThumbprint = some t → t.length = 32) ∧
      challenge.sessionTranscript = sessionTranscript
        (handoverInfo origin nonce (thumbprintItem jwkThumbprint)) ∧
      ∃ digest, challengeDigest challenge.sessionTranscript docType =
        .ok digest ∧ challenge.challengeDigest = digest.bytes := by
  obtain ⟨_, horigin, h⟩ := Exec.bind_eq_ok.mp h
  obtain ⟨_, hnonce, h⟩ := Exec.bind_eq_ok.mp h
  obtain ⟨_, -, h⟩ := Exec.bind_eq_ok.mp h
  by_cases hshort : nonce.length < minNonceChars
  · rw [if_pos hshort] at h
    cases h
  · rw [if_neg hshort] at h
    obtain ⟨thumb, hthumb, h⟩ := Exec.bind_eq_ok.mp h
    obtain ⟨digest, hdigest, h⟩ := Exec.bind_eq_ok.mp h
    obtain ⟨hlength, rfl⟩ := thumbprint_eq_ok.mp hthumb
    have hchallenge := Except.ok.inj h
    subst hchallenge
    exact ⟨(field_eq_ok.mp horigin).2, (field_eq_ok.mp hnonce).2, hlength, rfl,
      digest, hdigest, rfl⟩

theorem sessionTranscript_inj {info info' : List UInt8}
    (h : sessionTranscript info = sessionTranscript info') :
    Primitives.sha256 info = Primitives.sha256 info' := by
  have hbytes := bstr_inj (List.append_cancel_left h)
  cases hd : Primitives.sha256 info
  cases hd' : Primitives.sha256 info'
  rw [hd, hd'] at hbytes
  rw [Sha256Digest.mk.injEq]
  exact hbytes

/-- The handover in a session transcript. -/
def handover (info : List UInt8) : List UInt8 :=
  head 4 2 ++ [tstr "OpenID4VPDCAPIHandover",
    bstr (Primitives.sha256 info).bytes].flatten

theorem sessionTranscript_eq (info : List UInt8) : sessionTranscript info =
    head 4 3 ++ [[0xf6], [0xf6], handover info].flatten := by
  simp [sessionTranscript, handover]

theorem isItem_handover (info : List UInt8) : IsItem 16 (handover info) := by
  have hlength : (utf8 "OpenID4VPDCAPIHandover").length ≤ 255 := by
    decide
  have hvalid : (CborDecoder.asText
      (utf8 "OpenID4VPDCAPIHandover")).IsValidUTF8 :=
    ("OpenID4VPDCAPIHandover" : String).isValidUTF8
  apply isItem_array [tstr "OpenID4VPDCAPIHandover",
    bstr (Primitives.sha256 info).bytes]
  · intro x hx
    rcases List.mem_pair.mp hx with rfl | rfl
    · exact isItem_string 14 (Or.inr rfl) hlength fun _ => hvalid
    · apply isItem_string 14 (Or.inl rfl)
      · rw [(Primitives.sha256 info).length_bytes]
        decide
      · intro h
        exact absurd h (by decide)
  · simp

theorem isItem_sessionTranscript (info : List UInt8) :
    IsItem 17 (sessionTranscript info) := by
  rw [sessionTranscript_eq]
  apply isItem_array [[0xf6], [0xf6], handover info]
  · intro x hx
    simp only [List.mem_cons, List.not_mem_nil, or_false] at hx
    rcases hx with rfl | rfl | rfl
    · exact isItem_null 15
    · exact isItem_null 15
    · exact isItem_handover info
  · simp

theorem length_sessionTranscript (info : List UInt8) :
    (sessionTranscript info).length = 61 := by
  have htext : (utf8 "OpenID4VPDCAPIHandover").length = 22 := by
    decide
  simp only [sessionTranscript, tstr, bstr, List.length_append,
    (Primitives.sha256 info).length_bytes, htext]
  rfl

/-- A session transcript is one definite array of three items. -/
theorem wellFormed_sessionTranscript (info : List UInt8) :
    wellFormed (sessionTranscript info) = true := by
  have hhead : Cbor.head (sessionTranscript info) 0 = .ok (4, 3, 1) := by
    have h := head_head (n := 3) (Or.inr (Or.inr (rfl : (4 : UInt8) = 4)))
      (by omega) [] [[0xf6], [0xf6], handover info].flatten
    rw [List.nil_append, ← sessionTranscript_eq] at h
    exact h
  have hend : Cbor.endOf (sessionTranscript info) 0 =
      .ok (sessionTranscript info).length := by
    have h := (isItem_sessionTranscript info).2 [] [] (by
      rw [List.nil_append, List.append_nil, length_sessionTranscript]
      decide)
    rw [List.nil_append, List.append_nil, List.length_nil, Nat.zero_add] at h
    exact h
  rw [wellFormed, hhead, hend]
  simp

/-- No collision of the hash between two inputs. -/
def CollisionFree (x y : List UInt8) : Prop :=
  Primitives.sha256 x = Primitives.sha256 y → x = y

/-- A session transcript binds the origin, the nonce and the thumbprint, a
digest binds the session transcript and the docType, provided that the hash does
not collide on what is hashed; and a derived session transcript is accepted
where a transcript is asked for. -/
theorem challenges_bind :
    (∀ origin nonce docType jwkThumbprint challenge
        origin' nonce' docType' jwkThumbprint' challenge',
      deriveChallenge origin nonce docType jwkThumbprint = .ok challenge →
      deriveChallenge origin' nonce' docType' jwkThumbprint' =
        .ok challenge' →
      CollisionFree (handoverInfo origin nonce (thumbprintItem jwkThumbprint))
        (handoverInfo origin' nonce' (thumbprintItem jwkThumbprint')) →
      challenge.sessionTranscript = challenge'.sessionTranscript →
        origin = origin' ∧ nonce = nonce' ∧ jwkThumbprint = jwkThumbprint') ∧
    (∀ st docType digest st' docType' digest',
      challengeDigest st docType = .ok digest →
      challengeDigest st' docType' = .ok digest' →
      CollisionFree (message st docType) (message st' docType') →
      digest = digest' → st = st' ∧ docType = docType') ∧
    ∀ origin nonce docType jwkThumbprint challenge,
      deriveChallenge origin nonce docType jwkThumbprint = .ok challenge →
        checkTranscriptSeed challenge.sessionTranscript = .ok () ∧
        (∃ digest, challengeDigest challenge.sessionTranscript docType =
          .ok digest ∧ challenge.challengeDigest = digest.bytes) ∧
        ∀ docType', field "doc_type" docType' = .ok () →
          ∃ digest, challengeDigest challenge.sessionTranscript docType' =
            .ok digest := by
  refine ⟨?_, ?_, ?_⟩
  · intro origin nonce docType jwkThumbprint challenge origin' nonce' docType'
      jwkThumbprint' challenge' h h' hcollision hsame
    obtain ⟨horigin, hnonce, hthumb, hst, -⟩ := deriveChallenge_eq_ok h
    obtain ⟨horigin', hnonce', hthumb', hst', -⟩ := deriveChallenge_eq_ok h'
    rw [hst, hst'] at hsame
    have hinfo := hcollision (sessionTranscript_inj hsame)
    obtain ⟨ho, hn, ht⟩ :=
      handoverInfo_inj horigin horigin' hnonce hnonce' hinfo
    exact ⟨ho, hn, thumbprintItem_inj hthumb hthumb' ht⟩
  · intro st docType digest st' docType' digest' h h' hcollision hsame
    obtain ⟨⟨-, hlength⟩, hst, rfl⟩ := challengeDigest_eq_ok.mp h
    obtain ⟨⟨-, hlength'⟩, hst', rfl⟩ := challengeDigest_eq_ok.mp h'
    exact message_inj (endOf_of_wellFormed hst) (endOf_of_wellFormed hst')
      hlength hlength' (hcollision hsame)
  · intro origin nonce docType jwkThumbprint challenge h
    obtain ⟨-, -, -, hst, hdigest⟩ := deriveChallenge_eq_ok h
    refine ⟨?_, hdigest, ?_⟩
    · rw [hst, checkTranscriptSeed, length_sessionTranscript,
        if_pos (by decide)]
      rfl
    · intro docType' hfield
      rw [hst]
      exact ⟨_, challengeDigest_eq_ok.mpr ⟨field_eq_ok.mp hfield,
        wellFormed_sessionTranscript _, rfl⟩⟩

end Derivation

namespace Vectors

/-- The hash of the credential code. -/
scoped instance primitives : Primitives where
  sha256 := runSha256
  encryptBlock _ _ := Vector.replicate 16 0

def verifier1 : NymAuthChallenge where
  sessionTranscript := (Bytes.leBytes 61
    0x83f6f682764f70656e4944345650444341504948616e646f766572582019fb903434402eb496b9a26aefcd28e9c84f0cf27ca6521f71c3f678e080075e).reverse
  challengeDigest := (Bytes.leBytes 32
    0x7eea0f8e073961c3e82e9562e0f79edaa66dbfc17eaf0ac0596a987733516dd9).reverse

def verifier2 : NymAuthChallenge where
  sessionTranscript := (Bytes.leBytes 61
    0x83f6f682764f70656e4944345650444341504948616e646f76657258200524632d721bfc7b18198a85f7520ac74ffa3cbf1616aedc08ecc7c0e5ce3245).reverse
  challengeDigest := (Bytes.leBytes 32
    0xeadaee812dc8e402826de50dc020634bc92bbac24bf25fbbd479c98cec9e1784).reverse

theorem deriveChallenge_verifiers :
    deriveChallenge "https://verifier.example" "pOA0oqEAhLnqug2r7Ve4tQ"
        "eu.europa.ec.eudi.nym_auth.1" none = .ok verifier1 ∧
      deriveChallenge "https://other-verifier.example" "6YfsJcysIReLorHGvKlsFQ"
        "eu.europa.ec.eudi.nym_auth.1" none = .ok verifier2 := by
  decide +kernel

/-- Two verifiers have different session transcripts and different digests, and
both transcripts pass the checks. -/
theorem challenges_bind_verifiers :
    verifier1.sessionTranscript ≠ verifier2.sessionTranscript ∧
      (∃ digest1 digest2,
        challengeDigest verifier1.sessionTranscript
          "eu.europa.ec.eudi.nym_auth.1" = .ok digest1 ∧
        challengeDigest verifier2.sessionTranscript
          "eu.europa.ec.eudi.nym_auth.1" = .ok digest2 ∧
        digest1 ≠ digest2) ∧
      checkTranscriptSeed verifier1.sessionTranscript = .ok () := by
  obtain ⟨hderive, hdigest, haccepted⟩ := challenges_bind
  obtain ⟨hverifier1, hverifier2⟩ := deriveChallenge_verifiers
  have hinfo : CollisionFree
      (handoverInfo "https://verifier.example" "pOA0oqEAhLnqug2r7Ve4tQ"
        (thumbprintItem none))
      (handoverInfo "https://other-verifier.example" "6YfsJcysIReLorHGvKlsFQ"
        (thumbprintItem none)) := by
    intro h
    exact absurd h (by decide +kernel)
  have hmessage : CollisionFree
      (message verifier1.sessionTranscript "eu.europa.ec.eudi.nym_auth.1")
      (message verifier2.sessionTranscript "eu.europa.ec.eudi.nym_auth.1") := by
    intro h
    exact absurd h (by decide +kernel)
  have hne : verifier1.sessionTranscript ≠ verifier2.sessionTranscript := by
    intro hsame
    have hbound := hderive _ _ _ _ _ _ _ _ _ _ hverifier1 hverifier2 hinfo
      hsame
    exact absurd hbound.1 (by decide)
  obtain ⟨hseed, ⟨digest1, h1, -⟩, -⟩ :=
    haccepted _ _ _ _ _ hverifier1
  obtain ⟨-, ⟨digest2, h2, -⟩, -⟩ :=
    haccepted _ _ _ _ _ hverifier2
  refine ⟨hne, ⟨digest1, digest2, h1, h2, ?_⟩, hseed⟩
  intro hsame
  exact hne (hdigest _ _ _ _ _ _ h1 h2 hmessage hsame).1

end Vectors

end Challenge

end Longfellow.Nymauth
