/-
What the readers of the `LFC2` serialization accept: every value they return
stands for the bytes they read, and none of them panics.
-/
import Longfellow.Nymauth.Serialization
import Mathlib.Tactic.IntervalCases

namespace Longfellow.Nymauth.Lfc2

open Exec Grammar Reader

/-- The position moves over some bytes of the input. -/
structure Rd.Reads (r r' : Rd) (w : List UInt8) : Prop where
  input_eq : r'.b = r.b
  position_eq : r'.p = r.p + w.length
  bytes_eq : r.b.drop r.p = w ++ r.b.drop r'.p

/-- The reader does not panic, and the values it returns stand for the bytes
it reads. -/
def Parses {α : Type} (m : Reader α) (G : Grammar α) : Prop :=
  ∀ r, Exec.Safe (m r) fun result => ∃ w, G result.1 w ∧ r.Reads result.2 w

namespace Parses

variable {α β : Type} {m : Reader α} {G H : Grammar α}

theorem pure (a : α) :
    Parses (Pure.pure a) fun b w => b = a ∧ w = [] :=
  fun _ => ⟨[], ⟨rfl, rfl⟩, rfl, rfl, rfl⟩

theorem mono (h : Parses m G) (hGH : ∀ a w, G a w → H a w) : Parses m H := by
  intro r
  refine (h r).mono ?_
  rintro ⟨a, r'⟩ ⟨w, hG, hreads⟩
  exact ⟨w, hGH a w hG, hreads⟩

theorem bind (h : Parses m G) {f : α → Reader β}
    {K : α → List UInt8 → Grammar β}
    (hf : ∀ a w, G a w → Parses (f a) (K a w)) :
    Parses (m >>= f) fun b w =>
      ∃ a u v, G a u ∧ K a u b v ∧ w = u ++ v := by
  intro r
  refine (h r).bind ?_
  rintro ⟨a, r'⟩ ⟨u, hu, hreads⟩
  refine (hf a u hu r').mono ?_
  rintro ⟨b, last⟩ ⟨v, hv, hreads'⟩
  refine ⟨u ++ v, ⟨a, u, v, hu, hv, rfl⟩, ?_, ?_, ?_⟩
  · exact hreads'.input_eq.trans hreads.input_eq
  · have hposition := hreads'.position_eq
    rw [hreads.position_eq] at hposition
    rw [hposition, List.length_append, Nat.add_assoc]
  · have hbytes := hreads'.bytes_eq
    rw [hreads.input_eq] at hbytes
    rw [hreads.bytes_eq, hbytes, List.append_assoc]

theorem ofExec {n : Exec α} {P : α → Prop} (h : Exec.Safe n P) :
    Parses (Reader.ofExec n) fun a w => P a ∧ w = [] := by
  intro r
  refine h.bind fun a ha => ?_
  exact ⟨[], ⟨ha, rfl⟩, rfl, rfl, rfl⟩

/-- A value, and a computation on it that reads nothing. -/
theorem bind_ofExec (h : Parses m G) {f : α → Exec β} {P : α → β → Prop}
    (hf : ∀ a w, G a w → Exec.Safe (f a) (P a)) :
    Parses (m >>= fun a => Reader.ofExec (f a)) fun b w =>
      ∃ a, G a w ∧ P a b := by
  refine (h.bind fun a w hG => Parses.ofExec (hf a w hG)).mono ?_
  rintro b w ⟨a, u, v, hG, ⟨hP, rfl⟩, rfl⟩
  exact ⟨a, by rwa [List.append_nil], hP⟩

theorem replicate (h : Parses m G) (n : Nat) :
    Parses (Reader.replicate m n) fun xs w =>
      xs.length = n ∧ Many G xs w := by
  induction n with
  | zero =>
      refine (Parses.pure ([] : List α)).mono ?_
      rintro _ _ ⟨rfl, rfl⟩
      exact ⟨rfl, Many.nil⟩
  | succ n ih =>
      refine (h.bind fun x _ _ => ih.bind fun xs _ _ =>
        Parses.pure (x :: xs)).mono ?_
      rintro _ _ ⟨x, u, _, hx, ⟨xs, v, _, ⟨hlength, hxs⟩, ⟨rfl, rfl⟩, rfl⟩,
        rfl⟩
      refine ⟨by rw [List.length_cons, hlength], ?_⟩
      rw [List.append_nil]
      exact Many.cons hx hxs

end Parses

theorem require_safe {p : Prop} [Decidable p] {message : String} :
    Exec.Safe (require p message) fun _ => p := by
  by_cases hp : p <;> simp [require, bad, hp]

namespace Rd

theorem take_parses (n : Nat) :
    Parses (take n) fun bytes w => bytes.length = n ∧ w = bytes := by
  intro r
  refine require_safe.bind fun _ _ => require_safe.bind fun _ hle => ?_
  have hlength : ((r.b.drop r.p).take n).length = n := by
    rw [List.length_take, List.length_drop]
    omega
  refine ⟨(r.b.drop r.p).take n, ⟨hlength, rfl⟩, rfl, by rw [hlength], ?_⟩
  have hsplit := (List.take_append_drop n (r.b.drop r.p)).symm
  rwa [List.drop_drop] at hsplit

theorem byte_parses : Parses byte fun b w => w = [b] := by
  refine ((take_parses 1).bind_ofExec (P := fun bytes b => bytes = [b])
    fun bytes w hbytes => ?_).mono ?_
  · obtain ⟨b, rfl⟩ := List.length_eq_one_iff.mp hbytes.1
    exact rfl
  · rintro b w ⟨bytes, ⟨-, rfl⟩, rfl⟩
    rfl

/-- The next group goes above the ones before it. -/
theorem group_toNat {k : Nat} (hk : k < 4) {v : UInt32}
    (hv : v.toNat < 2 ^ (7 * k)) (b : UInt8) :
    (v ||| (b &&& 0x7f).toUInt32 <<< (7 * UInt32.ofNat k)).toNat =
      v.toNat + 2 ^ (7 * k) * (b.toNat % 128) := by
  have hgroup : (b &&& 0x7f).toNat = b.toNat % 128 := by
    rw [UInt8.toNat_and]
    exact Nat.and_two_pow_sub_one_eq_mod b.toNat 7
  have hshift : (7 * UInt32.ofNat k).toNat % 32 = 7 * k := by
    interval_cases k <;> rfl
  have hlt : b.toNat % 128 < 2 ^ 7 := Nat.mod_lt _ (by decide)
  have hbound : b.toNat % 128 * 2 ^ (7 * k) < 2 ^ 32 := by
    have hpow : 2 ^ (7 * k) ≤ 2 ^ 21 :=
      Nat.pow_le_pow_right (by decide) (by omega)
    calc b.toNat % 128 * 2 ^ (7 * k) ≤ 127 * 2 ^ 21 :=
          Nat.mul_le_mul (by omega) hpow
      _ < 2 ^ 32 := by decide
  rw [UInt32.toNat_or, UInt32.toNat_shiftLeft, hshift, UInt8.toNat_toUInt32,
    hgroup, Nat.shiftLeft_eq, Nat.mod_eq_of_lt hbound, Nat.or_comm,
    ← Nat.shiftLeft_eq, ← Nat.shiftLeft_add_eq_or_of_lt hv, Nat.shiftLeft_eq]
  ring

theorem highBit_eq_zero (b : UInt8) : b &&& 0x80 = 0 ↔ b.toNat < 128 := by
  have hlt : b.toNat < 256 := b.toNat_lt
  have hand : (b &&& 0x80).toNat = (b.toNat.testBit 7).toNat * 2 ^ 7 := by
    rw [UInt8.toNat_and]
    exact Nat.and_two_pow b.toNat 7
  rw [← UInt8.toNat_inj, hand, Nat.testBit_eq_decide_div_mod_eq]
  by_cases hlow : b.toNat < 128
  · have hzero : b.toNat / 2 ^ 7 = 0 := Nat.div_eq_of_lt hlow
    rw [hzero]
    simp [hlow]
  · have hone : b.toNat / 2 ^ 7 = 1 := by omega
    rw [hone]
    simp [hlow]

/-- The groups from the `k`-th one on. -/
theorem ulebFrom_parses {n k : Nat} (hk : k + n = 4) {v : UInt32}
    (hv : v.toNat < 2 ^ (7 * k)) :
    Parses (ulebFrom n (UInt32.ofNat k) v) fun result w =>
      result.toNat < 2 ^ 28 ∧
        ∃ x, Uleb x w ∧ result.toNat = v.toNat + 2 ^ (7 * k) * x := by
  induction n generalizing k v with
  | zero =>
      refine (Parses.ofExec (P := fun _ => False) (by trivial)).mono ?_
      rintro _ _ ⟨hfalse, -⟩
      exact hfalse.elim
  | succ n ih =>
      have hk' : k < 4 := by omega
      have hpow : 2 ^ (7 * (k + 1)) = 128 * 2 ^ (7 * k) := by
        rw [Nat.mul_succ, Nat.pow_add]
        ring
      refine (byte_parses.bind (K := fun b _ (result : UInt32) w => result.toNat < 2 ^ 28 ∧
        ∃ x, Uleb x (b :: w) ∧
          result.toNat = v.toNat + 2 ^ (7 * k) * x) fun b w _ => ?_).mono ?_
      · have hgroup := group_toNat hk' hv b
        have hsum : v.toNat + 2 ^ (7 * k) * (b.toNat % 128) <
            2 ^ (7 * (k + 1)) := by
          have hmod : b.toNat % 128 ≤ 127 := by omega
          have hmul := Nat.mul_le_mul_left (2 ^ (7 * k)) hmod
          rw [hpow]
          omega
        split
        · next hlast =>
            rw [highBit_eq_zero] at hlast
            refine (Parses.pure _).mono ?_
            rintro _ _ ⟨rfl, rfl⟩
            have hpow28 : 2 ^ (7 * (k + 1)) ≤ 2 ^ 28 :=
              Nat.pow_le_pow_right (by decide) (by omega)
            rw [hgroup]
            refine ⟨hsum.trans_le hpow28, b.toNat, Uleb.last hlast, ?_⟩
            rw [Nat.mod_eq_of_lt hlast]
        · next hmore =>
            rw [highBit_eq_zero] at hmore
            have hnext := ih (k := k + 1) (by omega) (by rwa [hgroup])
            rw [UInt32.ofNat_add] at hnext
            refine hnext.mono ?_
            rintro result w ⟨hlt, x, hx, hvalue⟩
            refine ⟨hlt, _, Uleb.more (Nat.le_of_not_lt hmore) hx, ?_⟩
            rw [hvalue, hgroup, hpow]
            have hmod : b.toNat % 128 = b.toNat - 128 := by
              have := b.toNat_lt
              omega
            rw [hmod]
            ring
      · rintro result w ⟨b, u, w', rfl, ⟨hlt, x, hx, hvalue⟩, rfl⟩
        exact ⟨hlt, x, hx, hvalue⟩

theorem uleb_parses :
    Parses uleb fun v w => v.toNat < 2 ^ 28 ∧ Uleb v.toNat w := by
  refine (ulebFrom_parses (n := 4) (k := 0) rfl (by decide)).mono ?_
  rintro v w ⟨hlt, x, hx, hvalue⟩
  have hvx : v.toNat = x := by simpa using hvalue
  exact ⟨hlt, hvx ▸ hx⟩

theorem size_parses (max : Nat) (what : String) :
    Parses (size max what) fun n w => n ≤ max ∧ Uleb n w := by
  refine (uleb_parses.bind fun v w _ =>
    (Parses.ofExec require_safe).bind fun _ _ _ =>
      Parses.pure v.toNat).mono ?_
  rintro _ _ ⟨v, w, _, ⟨-, hv⟩, ⟨_, _, _, ⟨hle, rfl⟩, ⟨rfl, rfl⟩, rfl⟩, rfl⟩
  refine ⟨hle, ?_⟩
  simpa using hv

end Rd

/-- The number that a word of the dictionary stands for. -/
def unzigzagged (v : UInt32) : Int :=
  if v.toNat % 2 = 0 then (v.toNat / 2 : Nat) else Int.negSucc (v.toNat / 2)

theorem zigzag_unzigzagged (v : UInt32) : zigzag (unzigzagged v) = v.toNat := by
  rw [unzigzagged]
  split
  · have heven : 2 * (v.toNat / 2) = v.toNat := by omega
    exact heven
  · have hodd : 2 * (v.toNat / 2) + 1 = v.toNat := by omega
    exact hodd

theorem unzigzag_toNat (v : UInt32) :
    ((unzigzag v).toNat : Int) = unzigzagged v % 2 ^ 32 := by
  have hlt : v.toNat < 2 ^ 32 := v.toNat_lt
  have hbit : (v &&& 1).toNat = v.toNat % 2 := by
    rw [UInt32.toNat_and]
    exact Nat.and_one_is_mod v.toNat
  have hhalf : (v >>> 1).toNat = v.toNat / 2 := by
    rw [UInt32.toNat_shiftRight]
    exact Nat.shiftRight_one v.toNat
  rw [unzigzag, unzigzagged]
  split
  · next heven =>
      have hzero : v &&& 1 = 0 := by
        apply UInt32.toNat_inj.mp
        rw [hbit, heven]
        rfl
      rw [hzero, sub_zero, UInt32.xor_zero, hhalf]
      omega
  · next hodd =>
      have hone : v &&& 1 = 1 := by
        apply UInt32.toNat_inj.mp
        rw [hbit]
        have hmod : v.toNat % 2 = 1 := by omega
        exact hmod
      have hsize : UInt32.size = 2 ^ 32 := rfl
      rw [hone, zero_sub, UInt32.xor_neg_one, UInt32.toNat_not, hhalf,
        Int.negSucc_eq, hsize]
      omega

/-- A wrapped difference stands for a small one. -/
structure Wraps (word : UInt32) (difference : Int) : Prop where
  toNat_eq : (word.toNat : Int) = difference % 2 ^ 32
  ge : -2 ^ 27 ≤ difference
  lt : difference < 2 ^ 27

theorem wraps_unzigzag {v : UInt32} (hv : v.toNat < 2 ^ 28) :
    Wraps (unzigzag v) (unzigzagged v) := by
  refine ⟨unzigzag_toNat v, ?_, ?_⟩
  · rw [unzigzagged]
    split
    · omega
    · rw [Int.negSucc_eq]
      omega
  · rw [unzigzagged]
    split
    · omega
    · rw [Int.negSucc_eq]
      omega

/-- An entry of the dictionary stands for a delta. -/
structure Stands (entry : Entry) (delta : Delta) : Prop where
  gate : Wraps entry.g delta.gate
  left : Wraps entry.h0 delta.left
  right : Wraps entry.h1 delta.right
  constTableIndex_eq : entry.k = delta.constTableIndex

theorem stands_default : Stands default default :=
  have hzero : Wraps (default : UInt32) 0 := ⟨rfl, by decide, by decide⟩
  ⟨hzero, hzero, hzero, rfl⟩

theorem readDelta_parses (nconst : Nat) :
    Parses (readDelta nconst) fun entry w =>
      ∃ delta, Stands entry delta ∧ Delta.grammar delta w := by
  refine (Rd.uleb_parses.bind fun g _ _ => Rd.uleb_parses.bind fun h0 _ _ =>
    Rd.uleb_parses.bind fun h1 _ _ => Rd.uleb_parses.bind fun k _ _ =>
      (Parses.ofExec require_safe).bind fun _ _ _ => Parses.pure
        (⟨unzigzag g, unzigzag h0, unzigzag h1, k.toNat⟩ : Entry)).mono ?_
  rintro _ _ ⟨g, w, _, ⟨hglt, hg⟩, ⟨h0, w0, _, ⟨h0lt, hh0⟩, ⟨h1, w1, _,
    ⟨h1lt, hh1⟩, ⟨k, wk, _, ⟨-, hk⟩, ⟨_, _, _, ⟨-, rfl⟩, ⟨rfl, rfl⟩, rfl⟩,
    rfl⟩, rfl⟩, rfl⟩, rfl⟩
  refine ⟨⟨unzigzagged g, unzigzagged h0, unzigzagged h1, k.toNat⟩,
    ⟨wraps_unzigzag hglt, wraps_unzigzag h0lt, wraps_unzigzag h1lt, rfl⟩, ?_⟩
  rw [Delta.grammar, Delta.words, zigzag_unzigzagged, zigzag_unzigzagged,
    zigzag_unzigzagged]
  exact Many.cons hg (Many.cons hh0 (Many.cons hh1 (Many.cons hk Many.nil)))

theorem readDeltaIndex_parses (ndeltas : Nat) :
    Parses (readDeltaIndex ndeltas) fun d w => d < ndeltas ∧ Uleb d w := by
  refine (Rd.uleb_parses.bind fun d _ _ => (Parses.ofExec require_safe).bind
    fun _ _ _ => Parses.pure d.toNat).mono ?_
  rintro _ _ ⟨d, w, _, ⟨-, hd⟩, ⟨_, _, _, ⟨hlt, rfl⟩, ⟨rfl, rfl⟩, rfl⟩, rfl⟩
  refine ⟨hlt, ?_⟩
  simpa using hd

/-- A number of items behind their count. -/
theorem readArray_parses {α : Type} {item : Reader α} {G : Grammar α}
    (h : Parses item G) (max : Nat) (what : String) :
    Parses (readArray max what item) (Counted G) := by
  refine ((Rd.size_parses max what).bind fun n _ _ => h.replicate n).mono ?_
  rintro xs _ ⟨n, u, v, ⟨-, hn⟩, ⟨rfl, hxs⟩, rfl⟩
  exact ⟨u, v, hn, hxs, rfl⟩

theorem readSegment_parses (ndeltas : Nat) :
    Parses (readSegment ndeltas) fun segment w =>
      (∀ d ∈ segment, d < ndeltas) ∧ Counted Uleb segment w := by
  refine (readArray_parses (readDeltaIndex_parses ndeltas) maxTerms
    "segment length").mono ?_
  rintro segment _ ⟨u, v, hu, hv, rfl⟩
  refine ⟨hv.forall_mem fun d w hd => hd.1, u, v, hu, ?_, rfl⟩
  exact hv.mono fun d w hd => hd.2

/-- The number of terms of a list of tokens, added up as the reader does. -/
def addTerms (segments : List (List Nat)) (nterms : Nat)
    (tokens : List Nat) : Nat :=
  tokens.foldl (fun nterms t =>
    saturatingAdd nterms (segments.getD t []).length) nterms

theorem readTokens_parses (segments : List (List Nat)) (n nterms : Nat) :
    Parses (readTokens segments n nterms) fun result w =>
      result.1.length = n ∧ (∀ t ∈ result.1, t < segments.length) ∧
        Many Uleb result.1 w ∧
        result.2 = addTerms segments nterms result.1 := by
  induction n generalizing nterms with
  | zero =>
      refine (Parses.pure (([] : List Nat), nterms)).mono ?_
      rintro _ _ ⟨rfl, rfl⟩
      exact ⟨rfl, by simp, Many.nil, rfl⟩
  | succ n ih =>
      refine (Rd.uleb_parses.bind fun t _ _ =>
        (Parses.ofExec require_safe).bind fun _ _ _ =>
          (ih (saturatingAdd nterms (segments.getD t.toNat []).length)).bind
            fun result _ _ => Parses.pure
              (t.toNat :: result.1, result.2)).mono ?_
      rintro _ _ ⟨t, w, _, ⟨-, ht⟩, ⟨_, _, _, ⟨hlt, rfl⟩, ⟨⟨tokens, total⟩, u,
        _, ⟨hlength, hall, hmany, htotal⟩, ⟨rfl, rfl⟩, rfl⟩, rfl⟩, rfl⟩
      refine ⟨by rw [List.length_cons, hlength],
        List.forall_mem_cons.mpr ⟨hlt, hall⟩, ?_, htotal⟩
      rw [List.nil_append, List.append_nil]
      exact Many.cons ht hmany

/-- The sum is exact unless it saturates. -/
theorem addTerms_eq {α : Type} [Inhabited α] (dictionary : List α)
    (segments : List (List Nat)) (tokens : List Nat) {nterms : Nat}
    (hnterms : nterms ≤ usizeMax) :
    addTerms segments nterms tokens =
      min (nterms + (expand dictionary segments tokens).length) usizeMax := by
  induction tokens generalizing nterms with
  | nil =>
      rw [expand, List.flatMap_nil, List.length_nil, Nat.add_zero,
        Nat.min_eq_left hnterms]
      rfl
  | cons t tokens ih =>
      have hstep :
          addTerms segments
            (saturatingAdd nterms (segments.getD t []).length) tokens =
          min (saturatingAdd nterms (segments.getD t []).length +
            (expand dictionary segments tokens).length) usizeMax :=
        ih (Nat.min_le_right _ _)
      have hlength : (expand dictionary segments (t :: tokens)).length =
          (segments.getD t []).length +
            (expand dictionary segments tokens).length := by
        rw [expand, List.flatMap_cons, List.length_append, List.length_map]
        rfl
      rw [hlength]
      refine hstep.trans ?_
      rw [saturatingAdd]
      omega

/-- What was read of a layer stands for the layer. -/
structure StandsLayer (words : LayerWords) (layer : Layer) : Prop where
  logw_eq : words.logw = layer.logw
  nw_eq : words.nw = layer.numWires
  deltas : List.Forall₂ Stands words.deltas layer.deltas
  segments_eq : words.segments = layer.segments
  tokens_eq : words.tokens = layer.tokens
  segments_lt : ∀ segment ∈ words.segments, ∀ d ∈ segment,
    d < words.deltas.length
  tokens_lt : ∀ t ∈ words.tokens, t < words.segments.length
  nterms_eq : words.nterms = min layer.terms.length usizeMax

theorem readLayer_parses (nconst : Nat) :
    Parses (readLayer nconst) fun words w =>
      ∃ layer, StandsLayer words layer ∧ Layer.grammar layer w := by
  refine ((Rd.size_parses 63 "logw").bind fun logw _ _ =>
    (Rd.size_parses maxWires "layer width").bind fun nw _ _ =>
    (readArray_parses (readDelta_parses nconst) maxDeltas "delta count").bind
      fun deltas _ _ =>
    (readArray_parses (readSegment_parses deltas.length) maxDeltas
      "segment count").bind fun segments _ _ =>
    (Rd.size_parses maxTerms "token count").bind fun ntok _ _ =>
    (readTokens_parses segments ntok 0).bind fun result _ _ =>
      Parses.pure (⟨logw, nw, deltas, segments, result.1, result.2⟩ :
        LayerWords)).mono ?_
  rintro _ _ ⟨logw, wl, _, ⟨-, hlogw⟩, ⟨nw, wn, _, ⟨-, hnw⟩,
    ⟨deltas, _, _, ⟨ud, vd, hud, hvd, rfl⟩,
    ⟨segments, _, _, ⟨us, vs, hus, hvs, rfl⟩, ⟨ntok, ut, _, ⟨-, hut⟩,
    ⟨⟨tokens, nterms⟩, vt, _, ⟨rfl, htokens, hvt, hnterms⟩, ⟨rfl, rfl⟩, rfl⟩,
    rfl⟩, rfl⟩, rfl⟩, rfl⟩, rfl⟩
  obtain ⟨dictionary, hall, hdictionary⟩ := hvd.exists_forall₂
  rw [hall.length_eq] at hud
  have hsegments := hvs.forall_mem fun segment w h => h.1
  have hmany := hvs.mono fun segment w h => h.2
  refine ⟨⟨logw, nw, dictionary, segments, tokens⟩,
    ⟨rfl, rfl, hall, rfl, rfl, hsegments, htokens, ?_⟩, ?_⟩
  · rw [← Nat.zero_add (Layer.terms _).length, Layer.terms,
      ← addTerms_eq _ _ _ (Nat.zero_le usizeMax)]
    exact hnterms
  · refine ⟨wl, _, hlogw, ⟨wn, _, hnw, ⟨ud ++ vd, _,
      ⟨ud, vd, hud, hdictionary, rfl⟩, ⟨us ++ vs, ut ++ vt,
      ⟨us, vs, hus, hmany, rfl⟩, ⟨ut, vt, hut, hvt, rfl⟩, rfl⟩, rfl⟩, rfl⟩, ?_⟩
    rw [List.append_nil]

end Longfellow.Nymauth.Lfc2
