/-
Column sampling without replacement: which draws it makes, and that they are
in bijection with what it returns.
-/
import Longfellow.Lib.PartialShuffle
import Longfellow.Sample
import Longfellow.Transcript.Runs

namespace Longfellow

open Exec ByteStream PartialShuffle

/-- The numbers that sampling without replacement draws from a stream, one for
each leading position: below the number of elements that remain. -/
inductive Drawn (stream : Nat → UInt8) (max : Nat) :
    List Nat → Nat → List Nat → Nat → Prop where
  | nil (position : Nat) : Drawn stream max [] position [] position
  | cons {i draw position next last : Nat} {is draws : List Nat} :
      Sampled stream (naturalBits (max - i)) (acceptNatural (max - i))
        position draw next →
      Drawn stream max is next draws last →
      Drawn stream max (i :: is) position (draw :: draws) last

/-- What sampling without replacement returns for a sequence of draws. -/
def returned (max : Nat) (draws : List Nat) : List Nat :=
  (swaps 0 (List.range max) draws).take draws.length

theorem returned_eq_pick {max : Nat} {draws : List Nat}
    (h : Draws max draws) : returned max draws = pick (List.range max) draws := by
  have hdraws : Draws (List.range max).length draws := by
    rw [List.length_range]
    exact h
  have htake := take_swaps [] (List.range max) hdraws
  rw [List.length_nil, Nat.zero_add] at htake
  exact htake

/-- The draws are in bijection with the injective lists of the same length. -/
theorem returned_bijOn (max count : Nat) :
    Set.BijOn (returned max)
      {draws | draws.length = count ∧
        ∀ i (hi : i < draws.length), draws[i] < max - i}
      {naturals | naturals.length = count ∧ naturals.Nodup ∧
        ∀ v ∈ naturals, v < max} := by
  have h := pick_bijOn (List.nodup_range (n := max)) count
  simp only [List.length_range, List.mem_range] at h
  simp only [← draws_iff]
  exact h.congr fun draws hdraws => (returned_eq_pick hdraws.2).symm

theorem acceptNatural_eq_some {max v : Nat} {bytes : List UInt8} :
    acceptNatural max bytes = some v ↔ Bytes.ofLeBytes bytes = v ∧ v < max := by
  rw [acceptNatural]
  constructor
  · intro h
    split at h
    · next hlt => cases h; exact ⟨rfl, hlt⟩
    · cases h
  · rintro ⟨rfl, hlt⟩
    exact if_pos hlt

theorem sampled_lt {stream : Nat → UInt8} {bits max position v next : Nat}
    (h : Sampled stream bits (acceptNatural max) position v next) :
    v < max := by
  obtain ⟨rejections, -, haccept, -⟩ := h
  exact (acceptNatural_eq_some.mp haccept).2

theorem swap_eq_set {list : List Nat} {i j a b : Nat} (ha : list[i]? = some a)
    (hb : list[j]? = some b) : swap list i j = (list.set i b).set j a := by
  rw [swap, ha, hb]

theorem length_swap (list : List Nat) (i j : Nat) :
    (swap list i j).length = list.length := by
  rw [swap]
  split
  · rw [List.length_set, List.length_set]
  · rfl

/-- The loop of swaps makes the draws one after the other. -/
theorem shuffled_iff {stream : Nat → UInt8} {max i count : Nat}
    {list shuffled : List Nat} {position last : Nat}
    (hlength : list.length = max) (hle : i + count ≤ max) :
    Shuffled stream max (List.range' i count) list position shuffled last ↔
      ∃ draws, Drawn stream max (List.range' i count) position draws last ∧
        swaps i list draws = shuffled := by
  induction count generalizing i list position with
  | zero =>
      constructor
      · intro h
        cases h
        exact ⟨[], .nil _, rfl⟩
      · rintro ⟨draws, hdrawn, rfl⟩
        cases hdrawn
        exact .nil list _
  | succ count ih =>
      rw [List.range'_succ]
      constructor
      · intro h
        cases h with
        | cons hsampled ha hb hrest =>
            rw [← swap_eq_set ha hb] at hrest
            obtain ⟨draws, hdrawn, hswaps⟩ :=
              (ih ((length_swap ..).trans hlength) (by omega)).mp hrest
            exact ⟨_ :: draws, .cons hsampled hdrawn, hswaps⟩
      · rintro ⟨draws, hdrawn, hswaps⟩
        cases hdrawn with
        | @cons i draw _ next _ _ draws hsampled hdrawn =>
            have hdraw := sampled_lt hsampled
            have hi : i < list.length := by omega
            have hj : i + draw < list.length := by omega
            have ha := List.getElem?_eq_getElem hi
            have hb := List.getElem?_eq_getElem hj
            refine .cons hsampled ha hb ?_
            rw [← swap_eq_set ha hb]
            exact (ih ((length_swap ..).trans hlength) (by omega)).mpr
              ⟨draws, hdrawn, hswaps⟩

/-- The draws are as many as positions, and each is in its range. -/
theorem Drawn.draws {stream : Nat → UInt8} {max i count : Nat}
    {draws : List Nat} {position last : Nat}
    (h : Drawn stream max (List.range' i count) position draws last) :
    draws.length = count ∧ Draws (max - i) draws := by
  induction count generalizing i draws position with
  | zero =>
      cases h
      exact ⟨rfl, trivial⟩
  | succ count ih =>
      rw [List.range'_succ] at h
      cases h with
      | cons hsampled hrest =>
          obtain ⟨hlength, hdraws⟩ := ih hrest
          rw [← Nat.sub_sub] at hdraws
          rw [List.length_cons, hlength]
          exact ⟨rfl, sampled_lt hsampled, hdraws⟩

theorem le_two_pow_naturalBits (max : Nat) : max ≤ 2 ^ naturalBits max := by
  rw [naturalBits]
  split
  · next h => exact Nat.le_of_eq h.symm
  · exact (Nat.lt_pow_succ_log_self (by decide) max).le

/-- Each value below the bound is accepted for exactly one masked pattern. -/
theorem existsUnique_pattern {max v : Nat} (hv : v < max) :
    ∃! pattern : List UInt8,
      (∃ bytes : List UInt8, bytes.length = (naturalBits max + 7) / 8 ∧
        maskExcess (naturalBits max) bytes = pattern) ∧
      acceptNatural max pattern = some v := by
  have hbits : v < 2 ^ naturalBits max :=
    Nat.lt_of_lt_of_le hv (le_two_pow_naturalBits max)
  have hbytes : 2 ^ naturalBits max ≤ 256 ^ ((naturalBits max + 7) / 8) := by
    rw [show (256 : Nat) = 2 ^ 8 by rfl, ← pow_mul]
    exact Nat.pow_le_pow_right (by decide) (by omega)
  have hlength := Bytes.length_leBytes ((naturalBits max + 7) / 8) v
  refine ⟨maskExcess (naturalBits max) (Bytes.leBytes _ v),
    ⟨⟨_, hlength, rfl⟩, ?_⟩, ?_⟩
  · rw [acceptNatural_eq_some, ofLeBytes_maskExcess hlength,
      Bytes.ofLeBytes_leBytes _ (Nat.lt_of_lt_of_le hbits hbytes),
      Nat.mod_eq_of_lt hbits]
    exact ⟨rfl, hv⟩
  · rintro pattern ⟨⟨bytes, hbytes', rfl⟩, haccept⟩
    obtain ⟨hvalue, -⟩ := acceptNatural_eq_some.mp haccept
    have hmask : Bytes.ofLeBytes (maskExcess (naturalBits max)
        (Bytes.leBytes ((naturalBits max + 7) / 8) v)) = v := by
      rw [ofLeBytes_maskExcess hlength,
        Bytes.ofLeBytes_leBytes _ (Nat.lt_of_lt_of_le hbits hbytes),
        Nat.mod_eq_of_lt hbits]
    apply Bytes.ofLeBytes_inj
    · rw [length_maskExcess, length_maskExcess, hbytes', hlength]
    · rw [hvalue, hmask]

section Returns

variable [Primitives] [SamplesNaturals]

theorem generateNatural_returns (transcript : Transcript) {max : Nat}
    (hmax : 0 < max) :
    Returns (transcript.generateNatural max) fun sampled =>
      sampled.1 < max := by
  rw [Transcript.generateNatural, dif_pos hmax]
  refine Returns.of_eq rfl ?_
  exact (acceptNatural_eq_some.mp (Option.some_get _).symm).2

theorem Transcript.swapSampled_returns {list : List Nat} {max i : Nat}
    (hlength : list.length = max) (hi : i < max) (transcript : Transcript) :
    Returns (Transcript.swapSampled max (list, transcript) i) fun state =>
      state.1.length = max := by
  refine (generateNatural_returns transcript (Nat.sub_pos_of_lt hi)).bind ?_
  rintro ⟨natural, next⟩ (hnatural : natural < max - i)
  have hj : i + natural < list.length := by omega
  refine (Returns.of_eq (index_of_lt (hlength ▸ hi)) trivial).bind
    (P := fun _ => True) fun a _ => ?_
  refine (Returns.of_eq (index_of_lt hj) trivial).bind
    (P := fun _ => True) fun b _ => ?_
  have hset : ((list.set i b).set (i + natural) a).length = max := by
    rw [List.length_set, List.length_set, hlength]
  exact Returns.of_eq rfl hset

/-- Sampling fewer values than there are returns. -/
theorem generateNaturalsWithoutReplacement_returns (transcript : Transcript)
    {max count : Nat} (hcount : count < max) :
    Returns (transcript.generateNaturalsWithoutReplacement max count)
      fun _ => True := by
  rw [Transcript.generateNaturalsWithoutReplacement, assert_of hcount]
  have hswaps : Returns ((List.range count).foldlM (Transcript.swapSampled max)
      (List.range max, transcript)) fun state => state.1.length = max := by
    refine Returns.foldlM (I := fun _ (state : List Nat × Transcript) =>
      state.1.length = max) _ List.length_range fun i hi state hstate => ?_
    rw [List.length_range] at hi
    rw [List.getElem_range]
    exact Transcript.swapSampled_returns hstate (hi.trans hcount) state.2
  exact hswaps.bind fun state _ => Returns.of_eq rfl trivial

/-- Sampling without replacement returns different values in the range. -/
theorem generateNaturalsWithoutReplacement_ensures (transcript : Transcript)
    (max count : Nat) :
    Ensures (transcript.generateNaturalsWithoutReplacement max count)
      fun (naturals, _) => naturals.length = count ∧ naturals.Nodup ∧
        ∀ v ∈ naturals, v < max := by
  rintro ⟨naturals, next⟩ hresult
  obtain ⟨_, hcount, hresult⟩ := Exec.bind_eq_ok.mp hresult
  have hcount := assert_eq_ok.mp hcount
  obtain ⟨state, hstate, hresult⟩ := Exec.bind_eq_ok.mp hresult
  cases hresult
  have hperm := Ensures.foldlM (f := Transcript.swapSampled max)
    (I := fun _ state => state.1.Perm (List.range max)) (List.range count)
    (s := (List.range max, transcript)) (List.Perm.refl _)
    (by
      rintro k hk ⟨list, transcript⟩ hlist result hresult
      obtain ⟨⟨natural, transcript'⟩, -, hresult⟩ := Exec.bind_eq_ok.mp hresult
      obtain ⟨a, ha, hresult⟩ := Exec.bind_eq_ok.mp hresult
      obtain ⟨b, hb, hresult⟩ := Exec.bind_eq_ok.mp hresult
      cases hresult
      obtain ⟨hi, rfl⟩ := List.getElem?_eq_some_iff.mp (index_eq_ok.mp ha)
      obtain ⟨hj, rfl⟩ := List.getElem?_eq_some_iff.mp (index_eq_ok.mp hb)
      exact (List.set_set_perm hi hj).trans hlist)
  have hperm := hperm state hstate
  refine ⟨?_, ?_, ?_⟩
  · rw [List.length_take, hperm.length_eq, List.length_range]
    exact Nat.min_eq_left hcount.le
  · exact (hperm.nodup_iff.mpr List.nodup_range).sublist
      (List.take_sublist _ _)
  · intro v hv
    exact List.mem_range.mp (hperm.mem_iff.mp (List.mem_of_mem_take hv))

end Returns

end Longfellow
