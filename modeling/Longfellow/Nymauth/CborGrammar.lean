/-
The walker accepts exactly the well-formed data items of definite length that
are nested at most sixteen deep.
-/
import Longfellow.Lib.DataItem
import Longfellow.Nymauth.Cbor

namespace Longfellow.Nymauth.Cbor

open Exec DataItem

section Head

theorem toNat_shiftRight_five (b : UInt8) : (b >>> 5).toNat = b.toNat / 32 := by
  rw [UInt8.toNat_shiftRight, Nat.shiftRight_eq_div_pow]
  rfl

theorem toNat_and_thirtyOne (b : UInt8) : (b &&& 31).toNat = b.toNat % 32 := by
  rw [UInt8.toNat_and]
  exact Nat.and_two_pow_sub_one_eq_mod b.toNat 5

/-- The argument is the number that its bytes denote. -/
theorem toNat_argument (bytes : List UInt8) {v : UInt64}
    (h : v.toNat * 256 ^ bytes.length + Bytes.ofBeBytes bytes < 2 ^ 64) :
    (bytes.foldl (fun (v : UInt64) (x : UInt8) => v <<< 8 ||| x.toUInt64)
      v).toNat = v.toNat * 256 ^ bytes.length + Bytes.ofBeBytes bytes := by
  induction bytes generalizing v with
  | nil => simp [Bytes.ofBeBytes, Bytes.ofLeBytes]
  | cons x xs ih =>
      rw [Bytes.ofBeBytes_cons, List.length_cons, pow_succ] at h ⊢
      have hpos : 0 < 256 ^ xs.length := Nat.pow_pos (by decide)
      have hx : x.toNat < 2 ^ 8 := x.toNat_lt
      have hsmall : v.toNat * 256 < 2 ^ 64 := by nlinarith
      have hstep : (v <<< 8 ||| x.toUInt64).toNat = v.toNat * 256 + x.toNat := by
        rw [UInt64.toNat_or, UInt64.toNat_shiftLeft, UInt8.toNat_toUInt64]
        have hshift : v.toNat <<< ((8 : UInt64).toNat % 64) % 2 ^ 64 =
            v.toNat <<< 8 := by
          rw [show (8 : UInt64).toNat % 64 = 8 by rfl, Nat.shiftLeft_eq]
          exact Nat.mod_eq_of_lt hsmall
        rw [hshift, ← Nat.shiftLeft_add_eq_or_of_lt hx, Nat.shiftLeft_eq]
      have hsum : (v.toNat * 256 + x.toNat) * 256 ^ xs.length =
          v.toNat * (256 ^ xs.length * 256) + x.toNat * 256 ^ xs.length := by
        ring
      rw [List.foldl_cons, ih (by rw [hstep, hsum]; omega), hstep, hsum]
      omega

variable {d : List UInt8} {p : Nat}

theorem getRange_eq_some {start stop : Nat} {bytes : List UInt8} :
    getRange d start stop = some bytes ↔
      start ≤ stop ∧ stop ≤ d.length ∧
        bytes = (d.drop start).take (stop - start) := by
  rw [getRange]
  split
  · next h => simp [h, eq_comm]
  · next h =>
      constructor
      · intro hnone
        cases hnone
      · rintro ⟨hle, hle', -⟩
        exact absurd ⟨hle, hle'⟩ h

theorem one_shiftLeft (size : Nat) : 1 <<< size = 2 ^ size := by
  rw [Nat.shiftLeft_eq, Nat.one_mul]

/-- A head that is read is there. -/
theorem head_ensures {mt : UInt8} {v : UInt64} {hl : Nat}
    (h : head d p = .ok (mt, v, hl)) :
    ∃ hd, Head mt.toNat v.toNat hd ∧ hd.length = hl ∧ hd <+: d.drop p := by
  rw [head] at h
  cases hb : d[p]? with
  | none =>
      rw [hb] at h
      cases h
  | some b =>
      obtain ⟨hp, hget⟩ := List.getElem?_eq_some_iff.mp hb
      have hdrop : d.drop p = b :: d.drop (p + 1) := by
        rw [List.drop_eq_getElem_cons hp, hget]
      have hmajor := toNat_shiftRight_five b
      have hinfo := toNat_and_thirtyOne b
      have hlt : b.toNat < 256 := b.toNat_lt
      have hbyte (argument : Nat) (hargument : argument = b.toNat % 32) :
          UInt8.ofNat (32 * (b >>> 5).toNat + argument) = b := by
        apply UInt8.toNat_inj.mp
        rw [hmajor, hargument, Nat.div_add_mod, UInt8.ofNat_toNat]
      rw [hb] at h
      simp only at h
      by_cases hshort : b &&& 31 ≤ 23
      · rw [if_pos hshort] at h
        cases h
        have hsmall : (b &&& 31).toNat ≤ 23 := UInt8.le_iff_toNat_le.mp hshort
        have hhead : Head (b >>> 5).toNat (b &&& 31).toUInt64.toNat
            [UInt8.ofNat (32 * (b >>> 5).toNat + (b &&& 31).toNat)] := by
          rw [UInt8.toNat_toUInt64]
          exact .short (by omega) (by omega)
        rw [hbyte _ hinfo] at hhead
        refine ⟨_, hhead, rfl, ?_⟩
        rw [hdrop]
        exact List.prefix_append [b] _
      · rw [if_neg hshort] at h
        by_cases hlong : b &&& 31 ≤ 27
        · rw [if_pos hlong] at h
          have hlow : ¬ (b &&& 31).toNat ≤ 23 :=
            fun hle => hshort (UInt8.le_iff_toNat_le.mpr hle)
          have hhigh : (b &&& 31).toNat ≤ 27 := UInt8.le_iff_toNat_le.mp hlong
          have hsize : ((b &&& 31) - 24).toNat = (b &&& 31).toNat - 24 := by
            refine UInt8.toNat_sub_of_le _ _ (UInt8.le_iff_toNat_le.mpr ?_)
            change 24 ≤ (b &&& 31).toNat
            omega
          cases hbytes : getRange d (p + 1)
              (p + 1 + 1 <<< ((b &&& 31) - 24).toNat) with
          | none =>
              rw [hbytes] at h
              cases h
          | some bytes =>
              rw [hbytes] at h
              cases h
              obtain ⟨-, hend, hbytes⟩ := getRange_eq_some.mp hbytes
              rw [Nat.add_sub_cancel_left] at hbytes
              have hlength : bytes.length = 2 ^ ((b &&& 31).toNat - 24) := by
                rw [hbytes, List.length_take, List.length_drop, ← hsize,
                  ← one_shiftLeft]
                omega
              have hhead : Head (b >>> 5).toNat (Bytes.ofBeBytes bytes)
                  (UInt8.ofNat (32 * (b >>> 5).toNat +
                    (24 + ((b &&& 31).toNat - 24))) :: bytes) :=
                .long (by omega) (by omega) hlength
              have hvalue := toNat_argument bytes (v := 0) (by
                have hbound := hhead.argument_lt
                rw [UInt64.toNat_zero, Nat.zero_mul, Nat.zero_add]
                exact hbound)
              rw [UInt64.toNat_zero, Nat.zero_mul, Nat.zero_add] at hvalue
              rw [← hvalue, hbyte _ (by omega)] at hhead
              refine ⟨_, hhead, ?_, ?_⟩
              · rw [List.length_cons, hlength, ← hsize, one_shiftLeft,
                  Nat.add_comm]
              · rw [hdrop, List.cons_prefix_cons]
                refine ⟨rfl, ?_⟩
                rw [hbytes]
                exact List.take_prefix _ _
        · rw [if_neg hlong] at h
          cases h

/-- A head that is there is read. -/
theorem head_of_prefix {major argument : Nat} {hd : List UInt8}
    (hhead : Head major argument hd) (h : hd <+: d.drop p) :
    ∃ mt : UInt8, ∃ v : UInt64, head d p = .ok (mt, v, hd.length) ∧
      mt.toNat = major ∧ v.toNat = argument := by
  obtain ⟨rest, hrest⟩ := h
  have hfirst (b : UInt8) (bs : List UInt8) (heq : b :: bs = d.drop p) :
      d[p]? = some b ∧ bs = d.drop (p + 1) := by
    constructor
    · rw [← List.head?_drop, ← heq]
      rfl
    · rw [← List.tail_drop, ← heq]
      rfl
  have hbyte {info : Nat} (hmajor : major < 8) (hinfo : info < 32) :
      (UInt8.ofNat (32 * major + info) >>> 5).toNat = major ∧
        (UInt8.ofNat (32 * major + info) &&& 31).toNat = info := by
    rw [toNat_shiftRight_five, toNat_and_thirtyOne, UInt8.toNat_ofNat',
      Nat.mod_eq_of_lt (by omega)]
    constructor <;> omega
  cases hhead with
  | short hmajor hargument =>
      obtain ⟨hget, -⟩ := hfirst _ _ hrest
      obtain ⟨hmt, hai⟩ := hbyte hmajor (by omega : argument < 32)
      have hshort : UInt8.ofNat (32 * major + argument) &&& 31 ≤ 23 := by
        apply UInt8.le_iff_toNat_le.mpr
        change _ ≤ 23
        omega
      refine ⟨_, (UInt8.ofNat (32 * major + argument) &&& 31).toUInt64, ?_,
        hmt, ?_⟩
      · rw [head, hget]
        simp only [if_pos hshort]
        rfl
      · rw [UInt8.toNat_toUInt64, hai]
  | @long size bytes hmajor hsize hlength =>
      rw [List.cons_append] at hrest
      obtain ⟨hget, hbytes⟩ := hfirst _ _ hrest
      obtain ⟨hmt, hai⟩ := hbyte hmajor (by omega : 24 + size < 32)
      set b := UInt8.ofNat (32 * major + (24 + size)) with hb
      have hshort : ¬ b &&& 31 ≤ 23 := by
        intro hle
        have hle : (b &&& 31).toNat ≤ 23 := UInt8.le_iff_toNat_le.mp hle
        omega
      have hlong : b &&& 31 ≤ 27 := by
        apply UInt8.le_iff_toNat_le.mpr
        change _ ≤ 27
        omega
      have hshift : ((b &&& 31) - 24).toNat = size := by
        rw [UInt8.toNat_sub_of_le _ _ (UInt8.le_iff_toNat_le.mpr (by
          change 24 ≤ _
          omega)), hai]
        exact Nat.add_sub_cancel_left 24 size
      have hrange : getRange d (p + 1) (p + 1 + 1 <<< size) = some bytes := by
        have hdrop := congrArg List.length hbytes
        rw [List.length_append, List.length_drop] at hdrop
        have hp := (List.getElem?_eq_some_iff.mp hget).1
        refine getRange_eq_some.mpr ⟨Nat.le_add_right _ _, ?_, ?_⟩
        · rw [one_shiftLeft]
          omega
        · rw [Nat.add_sub_cancel_left, ← hbytes, one_shiftLeft, ← hlength,
            List.take_left]
      have hvalue := toNat_argument bytes (v := 0) (by
        have hbound := (Head.long hmajor hsize hlength).argument_lt
        rw [UInt64.toNat_zero, Nat.zero_mul, Nat.zero_add]
        exact hbound)
      rw [UInt64.toNat_zero, Nat.zero_mul, Nat.zero_add] at hvalue
      refine ⟨_, _, ?_, hmt, hvalue⟩
      rw [head, hget]
      simp only [if_neg hshort, if_pos hlong, hshift, hrange]
      rw [List.length_cons, hlength, one_shiftLeft, Nat.add_comm]
      rfl

end Head

section Walk

variable {d : List UInt8}

theorem append_prefix_drop {x y : List UInt8} {p : Nat} :
    x ++ y <+: d.drop p ↔ x <+: d.drop p ∧ y <+: d.drop (p + x.length) := by
  constructor
  · rintro ⟨rest, hrest⟩
    rw [List.append_assoc] at hrest
    refine ⟨⟨_, hrest⟩, ⟨rest, ?_⟩⟩
    rw [← List.drop_drop, ← hrest, List.drop_left]
  · rintro ⟨⟨rest, hrest⟩, hy⟩
    rw [← List.drop_drop, ← hrest, List.drop_left] at hy
    rw [← hrest]
    exact (List.prefix_append_right_inj x).mpr hy

theorem length_le_of_prefix_drop {x : List UInt8} {p : Nat}
    (hx : 0 < x.length) (h : x <+: d.drop p) :
    p + x.length ≤ d.length := by
  have hle := h.length_le
  rw [List.length_drop] at hle
  omega

/-- Items that are walked are there, one after the other. -/
theorem items_ensures {inner : Nat → Exec Nat} {P : List UInt8 → Prop}
    (hinner : ∀ q e, inner q = .ok e →
      ∃ item, P item ∧ item <+: d.drop q ∧ e = q + item.length)
    {count q e : Nat} (h : items inner count q = .ok e) :
    ∃ xs : List (List UInt8), xs.length = count ∧ (∀ x ∈ xs, P x) ∧
      xs.flatten <+: d.drop q ∧ e = q + xs.flatten.length := by
  induction count generalizing q with
  | zero =>
      cases h
      exact ⟨[], rfl, by simp, List.nil_prefix, rfl⟩
  | succ count ih =>
      obtain ⟨next, hnext, h⟩ := Exec.bind_eq_ok.mp h
      obtain ⟨item, hitem, hlead, rfl⟩ := hinner q next hnext
      obtain ⟨xs, hlength, hxs, hrest, rfl⟩ := ih h
      refine ⟨item :: xs, by rw [List.length_cons, hlength],
        List.forall_mem_cons.mpr ⟨hitem, hxs⟩, ?_, ?_⟩
      · rw [List.flatten_cons]
        exact append_prefix_drop.mpr ⟨hlead, hrest⟩
      · rw [List.flatten_cons, List.length_append, Nat.add_assoc]

/-- Items that are there are walked. -/
theorem items_of_prefix {inner : Nat → Exec Nat} {xs : List (List UInt8)}
    (hinner : ∀ x ∈ xs, ∀ q, x <+: d.drop q → inner q = .ok (q + x.length))
    {q : Nat} (h : xs.flatten <+: d.drop q) :
    items inner xs.length q = .ok (q + xs.flatten.length) := by
  induction xs generalizing q with
  | nil => rfl
  | cons x xs ih =>
      rw [List.flatten_cons] at h ⊢
      obtain ⟨hx, hxs⟩ := append_prefix_drop.mp h
      rw [List.length_cons, items, hinner x List.mem_cons_self q hx, ok_bind,
        ih (fun y hy => hinner y (List.mem_cons_of_mem x hy)) hxs,
        List.length_append, Nat.add_assoc]

theorem stringEnd_ensures {p hl e : Nat} {mt : UInt8} {v : UInt64}
    (h : stringEnd d p mt v hl = .ok e) (he : e ≤ d.length) :
    e = p + hl + v.toNat ∧ (mt = 3 → ByteArray.IsValidUTF8
      ⟨((d.drop (p + hl)).take v.toNat).toArray⟩) := by
  simp only [stringEnd] at h
  split at h
  · cases h
  · cases htext : getRange d (p + hl) (p + hl + v.toNat) with
    | none =>
        rw [htext] at h
        cases h
        rw [getRange, if_pos ⟨Nat.le_add_right _ _, he⟩] at htext
        cases htext
    | some text =>
        rw [htext] at h
        obtain ⟨-, -, htext⟩ := getRange_eq_some.mp htext
        rw [Nat.add_sub_cancel_left] at htext
        subst htext
        simp only at h
        split at h
        · cases h
        · next hvalid =>
            cases h
            refine ⟨rfl, fun hmt => ?_⟩
            by_contra hnot
            exact hvalid ⟨hmt, hnot⟩

/-- An item whose end is inside the data is well-formed, if the items one level
below it are. -/
theorem bodyEnd_ensures {inner : Nat → Exec Nat} {n : Nat}
    (hinner : ∀ q e, inner q = .ok e → ∃ item, (0 < n ∧ Item (n - 1) item) ∧
      item <+: d.drop q ∧ e = q + item.length)
    {p e : Nat} {mt : UInt8} {v : UInt64} {hd : List UInt8}
    (hhead : Head mt.toNat v.toNat hd) (hlead : hd <+: d.drop p)
    (h : bodyEnd inner d p mt v hd.length = .ok e) (he : e ≤ d.length) :
    ∃ item, Item n item ∧ item <+: d.drop p ∧ e = p + item.length := by
  have hbody {body : List UInt8}
      (hrest : body <+: d.drop (p + hd.length)) : hd ++ body <+: d.drop p :=
    append_prefix_drop.mpr ⟨hlead, hrest⟩
  rw [bodyEnd] at h
  by_cases hstring : mt = 2 ∨ mt = 3
  · rw [if_pos hstring] at h
    obtain ⟨rfl, hvalid⟩ := stringEnd_ensures h he
    set content := (d.drop (p + hd.length)).take v.toNat with hcontent
    have hlength : content.length = v.toNat := by
      rw [hcontent, List.length_take, List.length_drop]
      omega
    rw [← hlength] at hhead
    refine ⟨hd ++ content, ?_, hbody (List.take_prefix _ _), ?_⟩
    · rcases hstring with rfl | rfl
      · exact .bytes hhead
      · exact .text hhead (hvalid rfl)
    · rw [List.length_append, hlength, Nat.add_assoc]
  rw [if_neg hstring] at h
  by_cases hinteger : mt = 0 ∨ mt = 1
  · rw [if_pos hinteger] at h
    cases h
    refine ⟨hd, .integer ?_ hhead, hlead, rfl⟩
    rcases hinteger with rfl | rfl
    · exact .inl rfl
    · exact .inr rfl
  rw [if_neg hinteger] at h
  by_cases hsimple : mt = 7
  · rw [if_pos hsimple] at h
    subst hsimple
    split at h
    · cases h
    · next hlarge =>
        cases h
        refine ⟨hd, .simple hhead fun htwo => ?_, hlead, rfl⟩
        by_contra hsmall
        refine hlarge ⟨htwo, UInt64.lt_iff_toNat_lt.mpr ?_⟩
        change v.toNat < 32
        omega
  rw [if_neg hsimple] at h
  by_cases htag : mt = 6
  · rw [if_pos htag] at h
    subst htag
    obtain ⟨item, ⟨hn, hitem⟩, hrest, rfl⟩ := hinner _ _ h
    refine ⟨hd ++ item, .tag hhead (Nat.sub_lt hn Nat.one_pos) hitem,
      hbody hrest, ?_⟩
    rw [List.length_append, Nat.add_assoc]
  rw [if_neg htag] at h
  by_cases hcontainer : mt = 4 ∨ mt = 5
  · rw [if_pos hcontainer] at h
    obtain ⟨count, hcount, h⟩ := Exec.bind_eq_ok.mp h
    obtain ⟨left, -, h⟩ := Exec.bind_eq_ok.mp h
    split at h
    · cases h
    · obtain ⟨xs, rfl, hxs, hrest, rfl⟩ := items_ensures hinner h
      have hlevel (hne : xs ≠ []) : n - 1 < n := by
        obtain ⟨x, hx⟩ := List.exists_mem_of_ne_nil xs hne
        exact Nat.sub_lt (hxs x hx).1 Nat.one_pos
      refine ⟨hd ++ xs.flatten, ?_, hbody hrest, ?_⟩
      · rw [itemCount] at hcount
        rcases hcontainer with rfl | rfl
        · rw [if_neg (by decide)] at hcount
          have hcount := Except.ok.inj hcount
          rw [hcount] at hhead
          exact .array hhead hlevel fun x hx => (hxs x hx).2
        · rw [if_pos rfl] at hcount
          split at hcount
          · cases hcount
          · exact .map hhead (Except.ok.inj hcount).symm hlevel
              fun x hx => (hxs x hx).2
      · rw [List.length_append, Nat.add_assoc]
  · rw [if_neg hcontainer] at h
    cases h

/-- An item that is accepted is well-formed, and ends inside the data. -/
theorem endDepth_ensures {levels p e : Nat}
    (h : endDepth d levels p = .ok e) :
    ∃ item, (0 < levels ∧ Item (levels - 1) item) ∧ item <+: d.drop p ∧
      e = p + item.length := by
  induction levels generalizing p e with
  | zero => cases h
  | succ levels ih =>
      obtain ⟨⟨mt, v, hl⟩, hhead, h⟩ := Exec.bind_eq_ok.mp h
      obtain ⟨e', hbody, h⟩ := Exec.bind_eq_ok.mp h
      split at h
      · cases h
      · next hle =>
          cases h
          obtain ⟨hd, hd', rfl, hlead⟩ := head_ensures hhead
          obtain ⟨item, hitem, hrest⟩ := bodyEnd_ensures (fun q e => ih) hd'
            hlead hbody (Nat.not_lt.mp hle)
          exact ⟨item, ⟨Nat.zero_lt_succ levels, hitem⟩, hrest⟩

/-- The end of an item whose body is walked. -/
theorem endDepth_of_body {levels p argument major : Nat}
    {hd body : List UInt8} (hhead : Head major argument hd)
    (h : hd ++ body <+: d.drop p)
    (hbody : ∀ mt : UInt8, ∀ v : UInt64, mt.toNat = major →
      v.toNat = argument → p + hd.length + body.length ≤ d.length →
      bodyEnd (endDepth d levels) d p mt v hd.length =
        .ok (p + hd.length + body.length)) :
    endDepth d (levels + 1) p = .ok (p + (hd ++ body).length) := by
  obtain ⟨mt, v, hread, hmt, hv⟩ :=
    head_of_prefix hhead (append_prefix_drop.mp h).1
  have hpos : 0 < (hd ++ body).length := by
    rw [List.length_append]
    exact Nat.lt_add_right _ hhead.length_pos
  have hle := length_le_of_prefix_drop hpos h
  rw [List.length_append, ← Nat.add_assoc] at hle ⊢
  rw [endDepth, hread, ok_bind, hbody mt v hmt hv hle, ok_bind,
    if_neg (Nat.not_lt.mpr hle)]
  rfl

/-- A string in the data ends where its content does. -/
theorem stringEnd_of_prefix {p hl : Nat} {mt : UInt8} {v : UInt64}
    {content : List UInt8} (hv : v.toNat = content.length)
    (hcontent : content <+: d.drop (p + hl))
    (hle : p + hl + content.length ≤ d.length)
    (hd : d.length ≤ Lfc2.usizeMax)
    (hvalid : mt = 3 → ByteArray.IsValidUTF8 ⟨content.toArray⟩) :
    stringEnd d p mt v hl = .ok (p + hl + content.length) := by
  have hrange : getRange d (p + hl) (p + hl + content.length) =
      some content := by
    refine getRange_eq_some.mpr ⟨Nat.le_add_right _ _, hle, ?_⟩
    rw [Nat.add_sub_cancel_left]
    exact List.prefix_iff_eq_take.mp hcontent
  simp only [stringEnd, hv]
  rw [if_neg (by omega), hrange]
  simp only
  rw [if_neg fun h => h.2 (hvalid h.1)]
  rfl

/-- The items of an array or a map in the data are walked. -/
theorem container_of_prefix {inner : Nat → Exec Nat} {p : Nat} {mt : UInt8}
    {v : UInt64} {hd : List UInt8} {xs : List (List UInt8)} {m : Nat}
    (hmt : mt = 4 ∨ mt = 5) (hcount : itemCount mt v = .ok xs.length)
    (hxs : ∀ x ∈ xs, Item m x)
    (hle : p + hd.length + xs.flatten.length ≤ d.length)
    (hitems : items inner xs.length (p + hd.length) =
      .ok (p + hd.length + xs.flatten.length)) :
    bodyEnd inner d p mt v hd.length =
      .ok (p + hd.length + xs.flatten.length) := by
  have hfew := length_le_flatten hxs
  have hmajor : ¬ (mt = 2 ∨ mt = 3) ∧ ¬ (mt = 0 ∨ mt = 1) ∧ mt ≠ 7 ∧
      mt ≠ 6 := by
    rcases hmt with rfl | rfl <;> decide
  obtain ⟨hstring, hinteger, hsimple, htag⟩ := hmajor
  rw [bodyEnd, if_neg hstring, if_neg hinteger, if_neg hsimple, if_neg htag,
    if_pos hmt, hcount, ok_bind, checkedSub_of_le (by omega), ok_bind,
    if_neg (by omega), hitems]

/-- A well-formed item in the data is accepted, and ends where it does. -/
theorem endDepth_of_prefix (hd : d.length ≤ Lfc2.usizeMax) {n : Nat}
    {item : List UInt8} (h : Item n item) {levels p : Nat}
    (hn : n ≤ levels) (hlead : item <+: d.drop p) :
    endDepth d (levels + 1) p = .ok (p + item.length) := by
  have hmajor {mt major : UInt8} (h : mt.toNat = major.toNat) : mt = major :=
    UInt8.toNat_inj.mp h
  induction h generalizing levels p with
  | @integer n major argument head hinteger hhead =>
      rw [← List.append_nil head] at hlead ⊢
      refine endDepth_of_body hhead hlead fun mt v hmt hv hle => ?_
      have hmt' : mt = 0 ∨ mt = 1 := by
        rcases hinteger with rfl | rfl
        · exact .inl (hmajor hmt)
        · exact .inr (hmajor hmt)
      have hstring : ¬ (mt = 2 ∨ mt = 3) := by
        rcases hmt' with rfl | rfl <;> decide
      rw [bodyEnd, if_neg hstring, if_pos hmt']
      rfl
  | bytes hhead =>
      refine endDepth_of_body hhead hlead fun mt v hmt hv hle => ?_
      obtain rfl : mt = 2 := hmajor hmt
      rw [bodyEnd, if_pos (.inl rfl)]
      exact stringEnd_of_prefix hv (append_prefix_drop.mp hlead).2 hle hd
        fun h => absurd h (by decide)
  | text hhead hvalid =>
      refine endDepth_of_body hhead hlead fun mt v hmt hv hle => ?_
      obtain rfl : mt = 3 := hmajor hmt
      rw [bodyEnd, if_pos (.inr rfl)]
      exact stringEnd_of_prefix hv (append_prefix_drop.mp hlead).2 hle hd
        fun _ => hvalid
  | @array n m head xs hhead hlevel hxs ih =>
      refine endDepth_of_body hhead hlead fun mt v hmt hv hle => ?_
      obtain rfl : mt = 4 := hmajor hmt
      have hcount : itemCount 4 v = .ok xs.length := by
        rw [itemCount, if_neg (by decide), hv]
        rfl
      refine container_of_prefix (.inl rfl) hcount hxs hle ?_
      refine items_of_prefix (fun x hx q hq => ?_)
        (append_prefix_drop.mp hlead).2
      have hlt := hlevel (List.ne_nil_of_mem hx)
      obtain ⟨level, rfl⟩ := Nat.exists_eq_succ_of_ne_zero
        (Nat.ne_zero_of_lt (Nat.lt_of_lt_of_le hlt hn))
      exact ih x hx (by omega) hq
  | @map n m pairs head xs hhead hpairs hlevel hxs ih =>
      refine endDepth_of_body hhead hlead fun mt v hmt hv hle => ?_
      obtain rfl : mt = 5 := hmajor hmt
      have hfew := length_le_flatten hxs
      have hsize : Lfc2.usizeMax < 2 ^ 64 := by decide
      have hcount : itemCount 5 v = .ok xs.length := by
        rw [itemCount, if_pos rfl, hv, if_neg (by omega), hpairs]
        rfl
      refine container_of_prefix (.inr rfl) hcount hxs hle ?_
      refine items_of_prefix (fun x hx q hq => ?_)
        (append_prefix_drop.mp hlead).2
      have hlt := hlevel (List.ne_nil_of_mem hx)
      obtain ⟨level, rfl⟩ := Nat.exists_eq_succ_of_ne_zero
        (Nat.ne_zero_of_lt (Nat.lt_of_lt_of_le hlt hn))
      exact ih x hx (by omega) hq
  | @tag n m argument head item hhead hlevel hitem ih =>
      refine endDepth_of_body hhead hlead fun mt v hmt hv hle => ?_
      obtain rfl : mt = 6 := hmajor hmt
      obtain ⟨level, rfl⟩ := Nat.exists_eq_succ_of_ne_zero
        (Nat.ne_zero_of_lt (Nat.lt_of_lt_of_le hlevel hn))
      rw [bodyEnd, if_neg (by decide), if_neg (by decide), if_neg (by decide),
        if_pos rfl]
      exact ih (by omega) (append_prefix_drop.mp hlead).2
  | @simple n argument head hhead hlarge =>
      rw [← List.append_nil head] at hlead ⊢
      refine endDepth_of_body hhead hlead fun mt v hmt hv hle => ?_
      obtain rfl : mt = 7 := hmajor hmt
      have hform : ¬ (head.length = 2 ∧ v < 32) := by
        rintro ⟨htwo, hsmall⟩
        have hsmall : v.toNat < 32 := UInt64.lt_iff_toNat_lt.mp hsmall
        have hlarge := hlarge htwo
        omega
      rw [bodyEnd, if_neg (by decide), if_neg (by decide), if_pos rfl,
        if_neg hform]
      rfl

end Walk

section Safety

variable {d : List UInt8}

theorem head_safe (p : Nat) : Safe (head d p) fun _ => p < d.length := by
  refine safe_iff.mpr ⟨fun _ h => head_position h, fun message h => ?_⟩
  rw [head] at h
  split at h
  · cases h
  · simp only at h
    split at h
    · cases h
    · split at h
      · split at h
        · cases h
        · cases h
      · cases h

theorem stringEnd_safe (p hl : Nat) (mt : UInt8) (v : UInt64) :
    Safe (stringEnd d p mt v hl) fun _ => True := by
  simp only [stringEnd]
  split
  · trivial
  · split
    · split
      · trivial
      · trivial
    · trivial

theorem items_safe {inner : Nat → Exec Nat}
    (hinner : ∀ q, Safe (inner q) fun _ => True) (count q : Nat) :
    Safe (items inner count q) fun _ => True := by
  induction count generalizing q with
  | zero => trivial
  | succ count ih => exact (hinner q).bind fun next _ => ih next

theorem bodyEnd_safe {inner : Nat → Exec Nat}
    (hinner : ∀ q, Safe (inner q) fun _ => True) {p : Nat}
    (hp : p < d.length) (mt : UInt8) (v : UInt64) (hl : Nat) :
    Safe (bodyEnd inner d p mt v hl) fun _ => True := by
  rw [bodyEnd]
  split
  · exact stringEnd_safe p hl mt v
  split
  · trivial
  split
  · split
    · trivial
    · trivial
  split
  · exact hinner _
  split
  · have hcount : Safe (itemCount mt v) fun _ => True := by
      rw [itemCount]
      split
      · split
        · trivial
        · trivial
      · trivial
    refine hcount.bind fun count _ => ?_
    rw [checkedSub_of_le hp.le, ok_bind]
    split
    · trivial
    · exact items_safe hinner count _
  · trivial

/-- The walker does not panic. -/
theorem endDepth_safe (levels p : Nat) :
    Safe (endDepth d levels p) fun _ => True := by
  induction levels generalizing p with
  | zero => trivial
  | succ levels ih =>
      refine (head_safe p).bind fun item hp => ?_
      refine (bodyEnd_safe ih hp _ _ _).bind fun e _ => ?_
      split
      · trivial
      · trivial

end Safety

/-- The walker accepts exactly the well-formed items that are nested at most
sixteen deep and end inside the data, and hands an error back otherwise. No
item that it accepts is a proper prefix of another one. -/
theorem endOf_accepts {d : List UInt8} (hd : d.length ≤ Lfc2.usizeMax)
    (p : Nat) :
    (∀ e, endOf d p = .ok e ↔ p ≤ e ∧ e ≤ d.length ∧
      Item maxDepth ((d.drop p).take (e - p))) ∧
    ((¬ ∃ e, p ≤ e ∧ e ≤ d.length ∧
        Item maxDepth ((d.drop p).take (e - p))) →
      ∃ message, endOf d p = .error (.error message)) ∧
    ∀ x y : List UInt8, endOf x 0 = .ok x.length →
      endOf y 0 = .ok y.length → x <+: y → x = y := by
  have haccepts (e : Nat) : endOf d p = .ok e ↔ p ≤ e ∧ e ≤ d.length ∧
      Item maxDepth ((d.drop p).take (e - p)) := by
    constructor
    · intro h
      obtain ⟨item, ⟨-, hitem⟩, hlead, rfl⟩ := endDepth_ensures h
      refine ⟨Nat.le_add_right p _,
        length_le_of_prefix_drop hitem.length_pos hlead, ?_⟩
      rw [Nat.add_sub_cancel_left, ← List.prefix_iff_eq_take.mp hlead]
      exact hitem
    · rintro ⟨hp, he, hitem⟩
      have h := endDepth_of_prefix hd hitem le_rfl (List.take_prefix _ _)
      rwa [List.length_take, List.length_drop, Nat.min_eq_left (by omega),
        Nat.add_sub_cancel' hp] at h
  refine ⟨haccepts, fun hnone => ?_, fun x y hx hy hlead => ?_⟩
  · have hsafe := endDepth_safe (d := d) (maxDepth + 1) p
    change Safe (endOf d p) _ at hsafe
    rcases hend : endOf d p with (message | message) | e
    · exact ⟨message, rfl⟩
    · rw [hend] at hsafe
      exact hsafe.elim
    · exact absurd ⟨e, (haccepts e).mp hend⟩ hnone
  · obtain ⟨r, hr⟩ := hlead
    have h : x ++ r = y ++ [] := by rw [hr, List.append_nil]
    exact (endOf_prefixFree hx hy h).1

/-- An array of an integer and a tagged text string, and a byte after it. -/
theorem endOf_accepts_array :
    endOf [0x82, 0x01, 0xc1, 0x61, 0x61, 0xff] 0 = .ok 5 ∧
      Item maxDepth [0x82, 0x01, 0xc1, 0x61, 0x61] := by
  have hend : endOf [0x82, 0x01, 0xc1, 0x61, 0x61, 0xff] 0 = .ok 5 := by
    decide
  have h := endOf_accepts (d := [0x82, 0x01, 0xc1, 0x61, 0x61, 0xff])
    (by decide) 0
  exact ⟨hend, ((h.1 5).mp hend).2.2⟩

end Longfellow.Nymauth.Cbor
