/-
The conversion writes what the encoder of circuits writes for the expanded
circuit, so decoding its output gives that circuit.
-/
import Longfellow.Codec.Canonical
import Longfellow.Fields.FieldP256
import Longfellow.Nymauth.Reading

namespace Longfellow.Nymauth.Lfc2

open Exec Grammar CodecFieldElement

theorem put3_safe (out : List UInt8) (v : Nat) :
    Exec.Safe (put3 out v) fun out' =>
      v < 2 ^ 24 ∧ out' = out ++ Bytes.leBytes 3 v := by
  refine require_safe.bind fun _ hlt => ⟨hlt, ?_⟩
  rw [Nat.shiftRight_eq_div_pow, Nat.shiftRight_eq_div_pow,
    show 2 ^ 16 = 2 ^ 8 * 2 ^ 8 by rfl, ← Nat.div_div_eq_div_mul]
  rfl

theorem putDelta_safe (out : List UInt8) (v prev : UInt32) :
    Exec.Safe (putDelta out v prev) fun out' =>
      Size.deltaWord v.toNat prev.toNat < 2 ^ 24 ∧
        out' = out ++ Bytes.leBytes 3 (Size.deltaWord v.toNat prev.toNat) := by
  have hword : (if prev ≤ v then 2 * (v - prev).toNat
      else 2 * (prev - v).toNat + 1) = Size.deltaWord v.toNat prev.toNat := by
    rw [Size.deltaWord]
    by_cases hle : prev ≤ v
    · rw [if_pos hle, if_pos (UInt32.le_iff_toNat_le.mp hle),
        UInt32.toNat_sub_of_le v prev hle, Nat.mul_comm]
    · have hlt : ¬ prev.toNat ≤ v.toNat := fun h =>
        hle (UInt32.le_iff_toNat_le.mpr h)
      have hge : v ≤ prev := UInt32.le_iff_toNat_le.mpr (Nat.le_of_not_le hlt)
      rw [if_neg hle, if_neg hlt, UInt32.toNat_sub_of_le prev v hge,
        Nat.mul_comm]
  rw [putDelta, hword]
  exact put3_safe out _

/-- A sum that wraps around is too far from the index before it for the three
bytes of a difference. -/
theorem Wraps.add_toNat {word : UInt32} {difference : Int}
    (h : Wraps word difference) {prev : UInt32}
    (hword : Size.deltaWord (prev + word).toNat prev.toNat < 2 ^ 24) :
    ((prev + word).toNat : Int) = prev.toNat + difference := by
  obtain ⟨heq, hge, hlt⟩ := h
  have hprev : prev.toNat < 2 ^ 32 := prev.toNat_lt
  rw [UInt32.toNat_add] at hword ⊢
  rw [Size.deltaWord] at hword
  split at hword
  · omega
  · omega

/-- The quad that was written last. -/
def TermState.quad (state : TermState) (constTableIndex : Nat) : Quad :=
  ⟨state.pg.toNat, state.p0.toNat, state.p1.toNat, constTableIndex⟩

theorem TermState.quad_fits (state : TermState) (constTableIndex : Nat) :
    (state.quad constTableIndex).Fits :=
  ⟨state.pg.toNat_lt, state.p0.toNat_lt, state.p1.toNat_lt⟩

theorem encodeIndex_of_deltaWord {v prev : UInt32}
    (h : Size.deltaWord v.toNat prev.toNat < 2 ^ 24) :
    Quad.encodeIndex v.toNat prev.toNat =
      .ok (Bytes.leBytes 3 (Size.deltaWord v.toNat prev.toNat)) :=
  Quad.encodeIndex_eq_ok.mpr ⟨v.toNat_lt, prev.toNat_lt,
    Size.encodeDelta_eq_ok.mpr ⟨h, rfl⟩⟩

/-- One term: the quad that is written is the exact sum. -/
theorem putTerm_safe {entry : Entry} {delta : Delta} (h : Stands entry delta)
    {state : TermState} {prevQuad : Option Quad} {k : Nat}
    (hprev : prevQuad.getD Quad.zero = state.quad k) :
    Exec.Safe (putTerm state entry) fun state' =>
      ∃ bytes, (state'.quad entry.k).encodeWithParam prevQuad = .ok bytes ∧
        state'.out = state.out ++ bytes ∧
        exact (state'.quad entry.k) = delta.after (exact (state.quad k)) := by
  refine (putDelta_safe _ _ _).bind fun out1 hout1 => ?_
  obtain ⟨hg, rfl⟩ := hout1
  refine (putDelta_safe _ _ _).bind fun out2 hout2 => ?_
  obtain ⟨hh0, rfl⟩ := hout2
  refine (putDelta_safe _ _ _).bind fun out3 hout3 => ?_
  obtain ⟨hh1, rfl⟩ := hout3
  refine (put3_safe _ _).bind fun out4 hout4 => ?_
  obtain ⟨hk, rfl⟩ := hout4
  refine ⟨Bytes.leBytes 3 (Size.deltaWord (state.pg + entry.g).toNat state.pg.toNat) ++
    Bytes.leBytes 3 (Size.deltaWord (state.p0 + entry.h0).toNat
      state.p0.toNat) ++
    Bytes.leBytes 3 (Size.deltaWord (state.p1 + entry.h1).toNat
      state.p1.toNat) ++
    Bytes.leBytes 3 entry.k, ?_, ?_, ?_⟩
  · rw [Quad.encodeWithParam, hprev]
    simp only [TermState.quad]
    rw [encodeIndex_of_deltaWord hg, ok_bind, encodeIndex_of_deltaWord hh0,
      ok_bind, encodeIndex_of_deltaWord hh1, ok_bind,
      Size.tryFrom_eq_ok.mpr ⟨by omega, rfl⟩, ok_bind,
      Size.encode_eq_ok.mpr ⟨hk, rfl⟩, ok_bind]
    rfl
  · simp only [List.append_assoc]
  · simp only [exact, Delta.after, TermState.quad]
    rw [h.gate.add_toNat hg, h.left.add_toNat hh0, h.right.add_toNat hh1,
      h.constTableIndex_eq]

/-- All terms of a layer, one after the other. -/
theorem foldlM_putTerm_safe {entries : List Entry} {deltas : List Delta}
    (h : List.Forall₂ Stands entries deltas) {state : TermState}
    (prevQuad : Option Quad) {k : Nat}
    (hprev : prevQuad.getD Quad.zero = state.quad k) :
    Exec.Safe (entries.foldlM putTerm state) fun state' =>
      ∃ quads bytes, CircuitLayer.encodeQuads quads prevQuad = .ok bytes ∧
        state'.out = state.out ++ bytes ∧
        quads.map exact = Delta.runningSums (exact (state.quad k)) deltas ∧
        ∀ quad ∈ quads, quad.Fits := by
  induction h generalizing state prevQuad k with
  | nil =>
      refine ⟨[], [], rfl, (List.append_nil _).symm, rfl, ?_⟩
      simp
  | @cons entry delta entries deltas hhead htail ih =>
      rw [List.foldlM_cons]
      refine (putTerm_safe hhead hprev).bind ?_
      rintro next ⟨bytes, hbytes, hout, hexact⟩
      refine (ih (some (next.quad entry.k)) rfl).mono ?_
      rintro last ⟨quads, rest, hrest, hlast, hsums, hfits⟩
      refine ⟨next.quad entry.k :: quads, bytes ++ rest, ?_, ?_, ?_, ?_⟩
      · rw [CircuitLayer.encodeQuads, hbytes, ok_bind, hrest, ok_bind]
        rfl
      · rw [hlast, hout, List.append_assoc]
      · rw [List.map_cons, hsums, hexact]
        rfl
      · exact List.forall_mem_cons.mpr ⟨next.quad_fits _, hfits⟩

theorem expand_forall₂ {α β : Type} [Inhabited α] [Inhabited β]
    {R : α → β → Prop} {xs : List α} {ys : List β} (h : List.Forall₂ R xs ys)
    (hdefault : R default default) (segments : List (List Nat))
    (tokens : List Nat) :
    List.Forall₂ R (expand xs segments tokens) (expand ys segments tokens) := by
  have hget (d : Nat) : R (xs.getD d default) (ys.getD d default) := by
    by_cases hd : d < xs.length
    · have hd' : d < ys.length := h.length_eq ▸ hd
      rw [List.getD_eq_getElem _ _ hd, List.getD_eq_getElem _ _ hd']
      exact h.get hd hd'
    · have hd' : ¬ d < ys.length := h.length_eq ▸ hd
      rw [List.getD_eq_default _ _ (Nat.le_of_not_lt hd),
        List.getD_eq_default _ _ (Nat.le_of_not_lt hd')]
      exact hdefault
  induction tokens with
  | nil => exact List.Forall₂.nil
  | cons t tokens ih =>
      refine List.rel_append ?_ ih
      apply List.forall₂_map_left_iff.mpr
      apply List.forall₂_map_right_iff.mpr
      exact List.forall₂_same.mpr fun d _ => hget d

/-- The loop over the tokens and the loop over a segment are one loop. -/
theorem putTerms_eq {words : LayerWords}
    (hsegments : ∀ segment ∈ words.segments, ∀ d ∈ segment,
      d < words.deltas.length)
    (htokens : ∀ t ∈ words.tokens, t < words.segments.length)
    (state : TermState) :
    putTerms words state =
      (expand words.deltas words.segments words.tokens).foldlM putTerm
        state := by
  have hsegment (segment : List Nat) (state : TermState)
      (hlt : ∀ d ∈ segment, d < words.deltas.length) :
      segment.foldlM (fun state d => do
        let delta ← index words.deltas d
        putTerm state delta) state =
      (segment.map fun d => words.deltas.getD d default).foldlM putTerm
        state := by
    induction segment generalizing state with
    | nil => rfl
    | cons d segment ih =>
        obtain ⟨hd, htail⟩ := List.forall_mem_cons.mp hlt
        rw [List.foldlM_cons, List.map_cons, List.foldlM_cons,
          index_of_lt hd, ok_bind, List.getD_eq_getElem _ _ hd]
        congr 1
        funext next
        exact ih next htail
  rw [putTerms, expand]
  generalize words.tokens = tokens at htokens
  induction tokens generalizing state with
  | nil => rfl
  | cons t tokens ih =>
      obtain ⟨ht, htail⟩ := List.forall_mem_cons.mp htokens
      rw [List.foldlM_cons, List.flatMap_cons, List.foldlM_append,
        index_of_lt ht, ok_bind, List.getD_eq_getElem _ _ ht,
        hsegment _ _ (hsegments _ (List.getElem_mem ht))]
      congr 1
      funext next
      exact ih next htail

theorem putLayer_safe {words : LayerWords} {layer : Layer}
    (h : StandsLayer words layer) (out : List UInt8) (totalTerms : Nat) :
    Exec.Safe (putLayer words out totalTerms) fun result =>
      ∃ converted bytes, ConvertedLayer layer converted ∧
        converted.quads.length < 2 ^ 32 ∧ converted.encode = .ok bytes ∧
        result.1 = out ++ bytes := by
  refine require_safe.bind fun _ hterms => require_safe.bind fun _ _ => ?_
  refine (put3_safe _ _).bind fun out1 hout1 => ?_
  obtain ⟨hlogw, rfl⟩ := hout1
  refine (put3_safe _ _).bind fun out2 hout2 => ?_
  obtain ⟨hnw, rfl⟩ := hout2
  refine (put3_safe _ _).bind fun out3 hout3 => ?_
  obtain ⟨hnterms, rfl⟩ := hout3
  rw [putTerms_eq h.segments_lt h.tokens_lt]
  have hexpand := expand_forall₂ h.deltas stands_default words.segments
    words.tokens
  refine (foldlM_putTerm_safe hexpand none (k := 0) rfl).bind ?_
  rintro state ⟨quads, bytes, hbytes, hout, hsums, hfits⟩
  rw [h.segments_eq, h.tokens_eq] at hsums
  have hexpansion : quads.map exact = layer.expansion := hsums
  have hlength : quads.length = layer.terms.length := by
    rw [← Delta.length_runningSums Delta.zero layer.terms,
      ← List.length_map (f := exact), hexpansion, Layer.expansion]
  have hcount : words.nterms = quads.length := by
    have hle := hterms.1
    rw [h.nterms_eq] at hle ⊢
    rw [hlength]
    simp only [maxTerms, usizeMax] at hle ⊢
    omega
  refine ⟨⟨words.logw, words.nw, quads⟩,
    Bytes.leBytes 3 words.logw ++ Bytes.leBytes 3 words.nw ++
      Bytes.leBytes 3 words.nterms ++ bytes,
    ⟨h.logw_eq, h.nw_eq, hexpansion, hfits⟩, ?_, ?_, ?_⟩
  · change quads.length < 2 ^ 32
    omega
  · have hmod : quads.length % 2 ^ 32 = words.nterms := by omega
    rw [CircuitLayer.encode, Size.encode_eq_ok.mpr ⟨hlogw, rfl⟩, ok_bind,
      Size.encode_eq_ok.mpr ⟨hnw, rfl⟩, ok_bind, hmod,
      Size.encode_eq_ok.mpr ⟨hnterms, rfl⟩, ok_bind, hbytes, ok_bind]
    rfl
  · rw [hout]
    simp only [List.append_assoc]

/-- All layers, each one on the output of the ones before it. -/
theorem convertLayers_parses (nconst n : Nat) (out : List UInt8)
    (totalTerms : Nat) :
    Parses (convertLayers nconst n out totalTerms) fun out' w =>
      ∃ layers converted bytes, layers.length = n ∧
        Many Layer.grammar layers w ∧
        List.Forall₂ ConvertedLayer layers converted ∧
        (∀ layer ∈ converted, layer.quads.length < 2 ^ 32) ∧
        encodeFixedArray CircuitLayer.encode converted = .ok bytes ∧
        out' = out ++ bytes := by
  induction n generalizing out totalTerms with
  | zero =>
      refine (Parses.pure out).mono ?_
      rintro _ _ ⟨rfl, rfl⟩
      exact ⟨[], [], [], rfl, Many.nil, List.Forall₂.nil, by simp, rfl,
        (List.append_nil _).symm⟩
  | succ n ih =>
      refine ((readLayer_parses nconst).bind (K := fun words u out' v =>
        ∃ layer result, Layer.grammar layer u ∧
          (∃ converted bytes, ConvertedLayer layer converted ∧
            converted.quads.length < 2 ^ 32 ∧ converted.encode = .ok bytes ∧
            result = out ++ bytes) ∧
          ∃ layers converted bytes, layers.length = n ∧
            Many Layer.grammar layers v ∧
            List.Forall₂ ConvertedLayer layers converted ∧
            (∀ layer ∈ converted, layer.quads.length < 2 ^ 32) ∧
            encodeFixedArray CircuitLayer.encode converted = .ok bytes ∧
            out' = result ++ bytes) ?_).mono ?_
      · rintro words u ⟨layer, hstands, hlayer⟩
        refine ((Parses.ofExec (putLayer_safe hstands out totalTerms)).bind
          fun result _ _ => ih result.1 result.2).mono ?_
        rintro out' _ ⟨result, _, v, ⟨hput, rfl⟩, hlayers, rfl⟩
        exact ⟨layer, result.1, hlayer, hput, hlayers⟩
      · rintro out' _ ⟨words, u, v, -, ⟨layer, _, hlayer, ⟨converted, bytes,
          hconverted, hquads, hbytes, rfl⟩, layers, rest, restBytes, rfl, hmany,
          hall, hsmall, hrest, rfl⟩, rfl⟩
        refine ⟨layer :: layers, converted :: rest, bytes ++ restBytes, rfl,
          Many.cons hlayer hmany, List.Forall₂.cons hconverted hall,
          List.forall_mem_cons.mpr ⟨hquads, hsmall⟩, ?_, ?_⟩
        · rw [encodeFixedArray, hbytes, ok_bind, hrest, ok_bind]
          rfl
        · rw [List.append_assoc]

theorem elementSize_safe (fid : Nat) :
    Exec.Safe (elementSize fid) fun elt => elementSize fid = .ok elt := by
  unfold elementSize
  split
  · rfl
  · rfl
  · trivial

/-- The sizes of a header, in their order. -/
def Header.words (header : Header) : List Nat :=
  [header.fid, header.nv, 1, header.npub, header.subfield, header.ninputs,
    header.nl, header.nconst]

theorem readHeader_parses :
    Parses readHeader fun header w =>
      ∃ elt, ∃ constants : List (List UInt8), ∃ words,
        elementSize header.fid = .ok elt ∧ constants.length = header.nconst ∧
        (∀ constant ∈ constants, constant.length = elt) ∧
        header.constants = constants.flatten ∧
        Many Uleb header.words words ∧ w = words ++ constants.flatten := by
  refine ((Rd.size_parses 255 "field id").bind fun fid _ _ =>
    (Parses.ofExec (elementSize_safe fid)).bind fun elt _ _ =>
    (Rd.size_parses maxWires "output count").bind fun nv _ _ =>
    (Rd.size_parses usizeMax "copy count").bind fun nc _ _ =>
    (Parses.ofExec require_safe).bind fun _ _ _ =>
    (Rd.size_parses maxWires "public input count").bind fun npub _ _ =>
    (Rd.size_parses maxWires "subfield boundary").bind fun subfield _ _ =>
    (Rd.size_parses maxWires "input count").bind fun ninputs _ _ =>
    (Rd.size_parses maxLayers "layer count").bind fun nl _ _ =>
    (Parses.ofExec require_safe).bind fun _ _ _ =>
    (Rd.size_parses maxConstants "constant count").bind fun nconst _ _ =>
    (Parses.ofExec require_safe).bind fun _ _ _ =>
    (Rd.take_parses (nconst * elt)).bind fun constants _ _ =>
      Parses.pure (⟨fid, nv, npub, subfield, ninputs, nl, nconst, constants⟩ :
        Header)).mono ?_
  rintro header w ⟨fid, w1, v1, ⟨-, h1⟩, hrest1, hw1⟩
  obtain ⟨elt, u2, v2, ⟨helt, hu2⟩, hrest2, hw2⟩ := hrest1
  obtain ⟨nv, w3, v3, ⟨-, h3⟩, hrest3, hw3⟩ := hrest2
  obtain ⟨nc, w4, v4, ⟨-, h4⟩, hrest4, hw4⟩ := hrest3
  obtain ⟨_, u5, v5, ⟨hnc, hu5⟩, hrest5, hw5⟩ := hrest4
  obtain ⟨npub, w6, v6, ⟨-, h6⟩, hrest6, hw6⟩ := hrest5
  obtain ⟨subfield, w7, v7, ⟨-, h7⟩, hrest7, hw7⟩ := hrest6
  obtain ⟨ninputs, w8, v8, ⟨-, h8⟩, hrest8, hw8⟩ := hrest7
  obtain ⟨nl, w9, v9, ⟨-, h9⟩, hrest9, hw9⟩ := hrest8
  obtain ⟨_, u10, v10, ⟨-, hu10⟩, hrest10, hw10⟩ := hrest9
  obtain ⟨nconst, w11, v11, ⟨-, h11⟩, hrest11, hw11⟩ := hrest10
  obtain ⟨_, u12, v12, ⟨-, hu12⟩, hrest12, hw12⟩ := hrest11
  obtain ⟨constants, w13, v13, ⟨hlength, hw⟩, ⟨rfl, hv13⟩, hw13⟩ := hrest12
  obtain ⟨chunks, hchunks, hall, hflatten⟩ := Bytes.exists_chunks hlength
  refine ⟨elt, chunks, w1 ++ (w3 ++ (w4 ++ (w6 ++ (w7 ++ (w8 ++ (w9 ++
    (w11 ++ []))))))), helt, hchunks, hall, hflatten, ?_, ?_⟩
  · rw [hnc] at h4
    exact Many.cons h1 <| Many.cons h3 <| Many.cons h4 <| Many.cons h6 <|
      Many.cons h7 <| Many.cons h8 <| Many.cons h9 <| Many.cons h11 Many.nil
  · rw [hw1, hw2, hw3, hw4, hw5, hw6, hw7, hw8, hw9, hw10, hw11, hw12, hw13,
      hu2, hu5, hu10, hu12, hv13, hw, hflatten]
    simp only [List.nil_append, List.append_nil, List.append_assoc]

theorem putHeader_safe (header : Header) :
    Exec.Safe (putHeader header) fun out =>
      (∀ word ∈ header.words, word < 2 ^ 24) ∧
        out = [1] ++ header.words.flatMap (Bytes.leBytes 3) ++
          header.constants := by
  have hloop (words : List Nat) (out : List UInt8) :
      Exec.Safe (words.foldlM put3 out) fun out' =>
        (∀ word ∈ words, word < 2 ^ 24) ∧
          out' = out ++ words.flatMap (Bytes.leBytes 3) := by
    induction words generalizing out with
    | nil => exact ⟨by simp, (List.append_nil _).symm⟩
    | cons word words ih =>
        rw [List.foldlM_cons]
        refine (put3_safe out word).bind ?_
        rintro _ ⟨hlt, rfl⟩
        refine (ih _).mono ?_
        rintro _ ⟨hall, rfl⟩
        refine ⟨List.forall_mem_cons.mpr ⟨hlt, hall⟩, ?_⟩
        rw [List.flatMap_cons, List.append_assoc]
  refine (hloop header.words [1]).bind ?_
  rintro _ ⟨hall, rfl⟩
  exact ⟨hall, rfl⟩

/-- The indices of quads that fit are in range. -/
theorem ConvertedLayer.inRange {layer : Layer} {converted : CircuitLayer}
    (h : ConvertedLayer layer converted) :
    ∀ sums ∈ layer.expansion, sums.InRange := by
  intro sums hsums
  rw [← h.quads_eq] at hsums
  obtain ⟨quad, hquad, rfl⟩ := List.mem_map.mp hsums
  obtain ⟨hgate, hleft, hright⟩ := h.fits quad hquad
  exact
    { gate := ⟨Int.natCast_nonneg _, Int.ofNat_lt.mpr hgate⟩
      left := ⟨Int.natCast_nonneg _, Int.ofNat_lt.mpr hleft⟩
      right := ⟨Int.natCast_nonneg _, Int.ofNat_lt.mpr hright⟩ }

/-- The bytes are what the encoder of circuits writes for the expanded circuit,
if its constants are canonical in the field. -/
def Writes (F : Type) [CodecFieldElement F] (serialized : Serialized)
    (out : List UInt8) : Prop :=
  ∀ constants : List F, (fieldId F).asNat = serialized.fieldId →
    serialized.constants = constants.map encode →
    ∃ circuit : Circuit F, Converted serialized constants circuit ∧
      (∀ layer ∈ circuit.layers, layer.quads.length < 2 ^ 32) ∧
      circuit.encode = .ok out

theorem convert_parses (F : Type) [CodecFieldElement F] :
    Parses convert fun out w => ∃ serialized : Serialized,
      serialized.Encodes (magic ++ w) ∧ serialized.InRange ∧
      Writes F serialized out := by
  refine (readHeader_parses.bind fun header _ _ =>
    (Parses.ofExec (putHeader_safe header)).bind fun out _ _ =>
    (convertLayers_parses header.nconst header.nl out 0).bind fun out _ _ =>
    (Rd.take_parses 32).bind fun id _ _ => Parses.pure (out ++ id)).mono ?_
  rintro out w ⟨header, w1, v1, hheader, hrest1, hw1⟩
  obtain ⟨elt, chunks, words, helt, hchunks, hall, hconstants, hwords, hw⟩ :=
    hheader
  obtain ⟨out1, u2, v2, ⟨⟨hsmall, hout1⟩, hu2⟩, hrest2, hw2⟩ := hrest1
  obtain ⟨out2, w3, v3, ⟨layers, converted, bytes, hlength, hmany, hlayers,
    hquads, hbytes, hout2⟩, hrest3, hw3⟩ := hrest2
  obtain ⟨id, w4, v4, ⟨hid, hw4⟩, ⟨hout, hv4⟩, hw5⟩ := hrest3
  refine ⟨⟨header.fid, header.nv, header.npub, header.subfield, header.ninputs,
    chunks, layers, ⟨id, hid⟩⟩, ⟨⟨elt, helt, hall⟩, words, w3, ?_, hmany, ?_⟩,
    ?_, ?_⟩
  · rw [Serialized.words, hlength, hchunks]
    exact hwords
  · rw [hw1, hw, hw2, hu2, hw3, hw5, hw4, hv4]
    simp only [List.nil_append, List.append_nil, List.append_assoc]
  · intro layer hlayer
    obtain ⟨i, hi, rfl⟩ := List.getElem_of_mem hlayer
    have hi' : i < converted.length := hlayers.length_eq ▸ hi
    exact (hlayers.get hi hi').inRange
  · intro constants hfield hcanonical
    have hfid : (fieldId F).asNat = header.fid := hfield
    have hchunksEq : chunks = constants.map encode := hcanonical
    have hcount : header.nconst = constants.length := by
      rw [← hchunks, hchunksEq, List.length_map]
    let circuit : Circuit F :=
      { version := 1
        numOutputs := header.nv
        numCopies := 1
        numPublicInputs := header.npub
        subfieldBoundary := header.subfield
        numInputs := header.ninputs
        numLayers := header.nl
        constantTable := constants
        layers := converted
        id := ⟨id, hid⟩ }
    have hheader : circuit.encodeHeader = .ok out1 := by
      have hsizes : ∀ size ∈ circuit.sizes, size < 2 ^ 24 := by
        intro size hsize
        apply hsmall
        simp only [Circuit.sizes, Header.words, List.mem_cons] at hsize ⊢
        tauto
      have hconst : circuit.constantTable.length < 2 ^ 24 := by
        apply hsmall
        simp [Header.words, hcount, circuit]
      rw [Circuit.encodeHeader_eq hsizes hconst, hout1, hconstants,
        hchunksEq]
      simp [Circuit.headerBytes, Circuit.sizes, Header.words, FieldId.encode,
        hfid, hcount, circuit, List.flatMap_def]
    refine ⟨circuit, ⟨rfl, rfl, rfl, rfl, rfl, rfl, hlength.symm, rfl, rfl,
      hlayers⟩, hquads, ?_⟩
    have hlayersLength : circuit.numLayers = circuit.layers.length := by
      rw [← hlayers.length_eq, hlength]
    rw [Circuit.encode, hheader, ok_bind, ensure_of hlayersLength, ok_bind,
      hbytes, ok_bind, hout, hout2]
    rfl

theorem one_safe (F : Type) [CodecFieldElement F] (input : List UInt8) :
    Exec.Safe (one input) fun result => ∃ serialized : Serialized,
      result.2 ≤ input.length ∧ serialized.Encodes (input.take result.2) ∧
      serialized.InRange ∧ Writes F serialized result.1 := by
  refine require_safe.bind fun _ hmagic => ?_
  refine (convert_parses F ⟨input, 4⟩).bind ?_
  rintro ⟨out, r⟩ ⟨w, ⟨serialized, hencodes, hrange, hwrites⟩, hreads⟩
  obtain ⟨-, hposition, hbytes⟩ := hreads
  obtain ⟨tail, rfl⟩ := hmagic
  have hlength : r.p = (magic ++ w).length := by
    rw [List.length_append]
    exact hposition
  have htail : tail = w ++ (magic ++ tail).drop r.p := hbytes
  have htake : (magic ++ tail).take r.p = magic ++ w := by
    rw [htail, ← List.append_assoc, hlength, List.take_left]
  refine ⟨serialized, ?_, ?_, hrange, hwrites⟩
  · change r.p ≤ (magic ++ tail).length
    rw [hlength, htail, List.length_append, List.length_append,
      List.length_append]
    omega
  · change serialized.Encodes ((magic ++ tail).take r.p)
    rw [htake]
    exact hencodes

/-- The conversion preserves the circuit, and rejects every circuit with an
index that is not a `u32`. -/
theorem one_converts {F : Type} [CodecFieldElement F] [LawfulCodec F]
    (input : List UInt8) :
    (Exec.Safe (one input) fun result => ∃ serialized : Serialized,
      result.2 ≤ input.length ∧ serialized.Encodes (input.take result.2) ∧
      (∀ other bytes rest, Serialized.Encodes other bytes →
        input = bytes ++ rest → other = serialized ∧ bytes.length = result.2) ∧
      serialized.InRange ∧
      ∀ constants : List F, (fieldId F).asNat = serialized.fieldId →
        serialized.constants = constants.map encode →
        ∀ profile, ∃ circuit, Circuit.decode profile result.1 =
          .ok (circuit, []) ∧ Converted serialized constants circuit) ∧
    ∀ serialized bytes rest, Serialized.Encodes serialized bytes →
      input = bytes ++ rest → ¬ serialized.InRange →
        ∃ message, one input = .error (.error message) := by
  have hunique {used : Nat} {serialized other : Serialized}
      {bytes rest : List UInt8} (hencodes : serialized.Encodes (input.take used))
      (hother : other.Encodes bytes) (hinput : input = bytes ++ rest) :
      other = serialized ∧ bytes = input.take used := by
    have heq : bytes ++ rest = input.take used ++ input.drop used := by
      rw [List.take_append_drop, hinput]
    obtain ⟨hsame, hrest⟩ :=
      Serialized.encodes_unambiguous _ _ _ _ _ _ hother hencodes heq
    rw [hrest] at heq
    exact ⟨hsame, List.append_cancel_right heq⟩
  have hsafe := one_safe F input
  constructor
  · refine hsafe.mono ?_
    rintro ⟨out, used⟩ ⟨serialized, hused, hencodes, hrange, hwrites⟩
    refine ⟨serialized, hused, hencodes, ?_, hrange, ?_⟩
    · intro other bytes rest hother hinput
      obtain ⟨hsame, hbytes⟩ := hunique hencodes hother hinput
      refine ⟨hsame, ?_⟩
      rw [hbytes, List.length_take, Nat.min_eq_left hused]
    · intro constants hfield hcanonical profile
      obtain ⟨circuit, hconverted, hquads, hencode⟩ :=
        hwrites constants hfield hcanonical
      have hread := Circuit.decode_reads profile hquads hencode []
      rw [List.append_nil] at hread
      exact ⟨circuit, hread, hconverted⟩
  · intro serialized bytes rest hencodes hinput hrange
    rcases hone : one input with (message | message) | ⟨out, used⟩
    · exact ⟨message, rfl⟩
    · rw [hone] at hsafe
      exact hsafe.elim
    · rw [hone] at hsafe
      obtain ⟨other, -, hother, hotherRange, -⟩ := hsafe
      obtain ⟨rfl, -⟩ := hunique hother hencodes hinput
      exact absurd hotherRange hrange

/-- A circuit with the output `7 * x`, and the bytes that it is converted to. -/
def sevenTimes : Serialized where
  fieldId := 1
  numOutputs := 1
  numPublicInputs := 1
  subfieldBoundary := 2
  numInputs := 2
  constants := [encode (7 : FieldP256)]
  layers := [⟨1, 2, [⟨0, 0, 1, 0⟩], [[0]], [0]⟩]
  id := default

def sevenTimesBytes : List UInt8 :=
  magic ++ [1, 1, 1, 1, 2, 2, 1, 1] ++ encode (7 : FieldP256) ++
    [1, 2, 1, 0, 0, 2, 0, 1, 1, 0, 1, 0] ++ List.replicate 32 0

theorem uleb_small {n : Nat} (hn : n < 128) : Uleb n [UInt8.ofNat n] := by
  have hnat : (UInt8.ofNat n).toNat = n :=
    UInt8.toNat_ofNat_of_lt' (Nat.lt_trans hn (by decide))
  have hlast := Uleb.last (b := UInt8.ofNat n) (by rwa [hnat])
  rwa [hnat] at hlast

theorem many_small {ns : List Nat} (hns : ∀ n ∈ ns, n < 128) :
    Many Uleb ns (ns.map UInt8.ofNat) := by
  induction ns with
  | nil => exact Many.nil
  | cons n ns ih =>
      obtain ⟨hn, htail⟩ := List.forall_mem_cons.mp hns
      exact Many.cons (uleb_small hn) (ih htail)

theorem sevenTimes_encodes : sevenTimes.Encodes sevenTimesBytes := by
  have hwords : Many Uleb [0, 0, 2, 0] [0, 0, 2, 0] := many_small (by decide)
  have hterm : Delta.grammar ⟨0, 0, 1, 0⟩ [0, 0, 2, 0] := hwords
  have hdelta : Counted Delta.grammar [⟨0, 0, 1, 0⟩] [1, 0, 0, 2, 0] :=
    ⟨[1], [0, 0, 2, 0], uleb_small (by decide), Many.cons hterm Many.nil, rfl⟩
  have hsegment : Counted Uleb [0] [1, 0] :=
    ⟨[1], [0], uleb_small (by decide), many_small (by decide), rfl⟩
  have hsegments : Counted (Counted Uleb) [[0]] [1, 1, 0] :=
    ⟨[1], [1, 0], uleb_small (by decide), Many.cons hsegment Many.nil, rfl⟩
  have hlayer : Layer.grammar ⟨1, 2, [⟨0, 0, 1, 0⟩], [[0]], [0]⟩
      [1, 2, 1, 0, 0, 2, 0, 1, 1, 0, 1, 0] :=
    ⟨[1], _, uleb_small (by decide), ⟨[2], _, uleb_small (by decide),
      ⟨_, _, hdelta, ⟨_, _, hsegments, hsegment, rfl⟩, rfl⟩, rfl⟩, rfl⟩
  refine ⟨⟨32, rfl, by decide⟩, [1, 1, 1, 1, 2, 2, 1, 1], _,
    many_small (by decide), Many.cons hlayer Many.nil, rfl⟩

theorem one_converts_sevenTimes :
    ∃ out, one sevenTimesBytes = .ok (out, sevenTimesBytes.length) ∧
      ∃ circuit : Circuit FieldP256, Circuit.decode .dev out =
        .ok (circuit, []) ∧ Converted sevenTimes [7] circuit := by
  have hencodes := sevenTimes_encodes
  have hok : (one sevenTimesBytes).isOk := by decide +kernel
  generalize sevenTimesBytes = input at hencodes hok ⊢
  obtain ⟨⟨out, used⟩, hone⟩ := exists_of_isOk hok
  have hsafe := (one_converts (F := FieldP256) input).1
  rw [hone] at hsafe
  obtain ⟨serialized, -, -, hunique, -, hdecode⟩ := hsafe
  obtain ⟨rfl, hused⟩ := hunique sevenTimes input [] hencodes
    (List.append_nil _).symm
  refine ⟨out, ?_, hdecode [7] rfl rfl .dev⟩
  rw [hone, hused]

end Longfellow.Nymauth.Lfc2
