/-
The table of circuit builds: an entry gives the sizes of the input vectors and
a slot map, which says where the semantic bits go.
-/
import Longfellow.Nymauth.Ecdsa
import Mathlib.Data.List.Nodup

namespace Longfellow.Nymauth

open Exec

/-- One supported circuit build. -/
structure Entry where
  hashCircuitId : String
  sigCircuitId : String
  /-- Exact length and SHA-256 (hex) of the decompressed artifact. -/
  artifactLen : Nat
  artifactSha256 : String
  blockEncHash : Nat
  blockEncSig : Nat
  hashNinputs : Nat
  hashNpub : Nat
  sigNinputs : Nat
  sigNpub : Nat
  /-- The text of the profile line and the slot map. -/
  map : List Char

/-- Semantic bits that go to consecutive slots. -/
structure Run where
  slotFrom : Nat
  semFrom : Nat
  length : Nat
deriving DecidableEq, Repr

structure Profile where
  bSig : Nat
  bItem : Nat
  bSsc : Nat
  runs : List Run
  semanticLen : Nat
  hashNinputs : Nat
  hashNpub : Nat
  sigNinputs : Nat
  sigNpub : Nat
  sigCircuitId : String
  artifactLen : Nat
  artifactSha256 : String
  blockEncHash : Nat
  blockEncSig : Nat
deriving DecidableEq, Repr

namespace Profile

variable (p : Profile)

/-- The public part of the signature circuit's input vector ends with the six
tags. -/
def sigTags : Nat := p.sigNpub - 768

def sigAv : Nat := p.sigTags - 128

def sigAp : Nat := p.sigNpub

def sigE : Nat := p.sigAp + 768

def sigX : Nat := p.sigE + 256

def sigY : Nat := p.sigX + 256

def sigIssuerTrace : Nat := p.sigY + 256

end Profile

/-- An error about the table of circuit builds. -/
def badProfile {α : Type} (m : String) : Exec α :=
  fail s!"nymauth circuit: internal profile table: {m}"

/-- The counts must leave room for every slot the witness builder writes. -/
def Profile.checkLayout (p : Profile) : Exec Unit :=
  -- the subtraction saturates
  let sigEnd := 3 + 256 ≤ p.sigNpub - (768 + 128) ∧
    p.sigIssuerTrace + 2 * Ecdsa.traceLen ≤ p.sigNinputs
  let hashOk := 10 ≤ p.hashNpub ∧ p.hashNpub + 6 ≤ p.hashNinputs
  if sigEnd ∧ hashOk then pure ()
  else badProfile "input counts leave no room for the witness layout"

section Text

/-- The characters that separate words. -/
def isWhitespace (c : Char) : Bool :=
  let n := c.toNat
  (9 ≤ n && n ≤ 13) || n = 0x20 || n = 0x85 || n = 0xa0 || n = 0x1680 ||
    (0x2000 ≤ n && n ≤ 0x200a) || n = 0x2028 || n = 0x2029 || n = 0x202f ||
    n = 0x205f || n = 0x3000

def splitWhitespace (text : List Char) : List (List Char) :=
  (text.splitOnP isWhitespace).filter (· ≠ [])

/-- The carriage return before a line feed is not part of the line. -/
def stripCarriageReturn (line : List Char) : List Char :=
  if line.getLast? = some '\r' then line.dropLast else line

/-- The lines of a text. The last one need not end with a line feed. -/
def lines (text : List Char) : List (List Char) :=
  let pieces := text.splitOn '\n'
  pieces.dropLast.map stripCarriageReturn ++
    [pieces.getLastD []].filter (· ≠ [])

/-- The value of decimal digits. -/
def decimal (digits : List Char) : Nat :=
  digits.foldl (fun v c => 10 * v + (c.toNat - '0'.toNat)) 0

/-- Read a number of 64 bits, which can have a plus sign. -/
def parseUsize (text : List Char) : Option Nat :=
  let digits := if text.head? = some '+' then text.tail else text
  if digits ≠ [] ∧ digits.all Char.isDigit = true ∧ decimal digits < 2 ^ 64
  then some (decimal digits)
  else none

/-- Read a number of a line. -/
def parse (m : String) (text : List Char) : Exec Nat :=
  match parseUsize text with
  | some v => pure v
  | none => badProfile m

def parseRun (line : List Char) : Exec Run := do
  match ← (line.splitOn '\t').mapM (parse "run") with
  | [a, b, c] => pure ⟨a, b, c⟩
  | _ => badProfile "run arity"

/-- Read the profile line and the slot map. -/
def parseMap (map : List Char) : Exec ((Nat × Nat × Nat) × List Run) :=
  match lines map with
  | [] => badProfile "empty"
  | first :: rest => do
      match ← ((splitWhitespace first).drop 1).mapM (parse "profile line") with
      | [bSig, bItem, bSsc] => do
          let runs ← (rest.filter fun line =>
            line.head?.any Char.isDigit).mapM parseRun
          pure ((bSig, bItem, bSsc), runs)
      | _ => badProfile "profile line arity"

end Text

section Tile

/-- Claim a position that must be in range and free. -/
def claimPosition (m : String) (claimed : List Bool) (i : Nat) :
    Exec (List Bool) :=
  match claimed[i]? with
  | some false => pure (claimed.set i true)
  | _ => badProfile m

/-- Claim the positions of all runs. -/
def tile (m : String) (position : Run → Nat) (n : Nat) (runs : List Run) :
    Exec (List Bool) :=
  runs.foldlM (fun claimed run =>
    (List.range run.length).foldlM (fun claimed k =>
      claimPosition m claimed (position run + k)) claimed)
    (List.replicate n false)

/-- The runs cover the slots between the public inputs and the last six. -/
def checkCover (seen : List Bool) (hashNpub hashNinputs : Nat) :
    Exec Unit := do
  let stop ← checkedSub hashNinputs 6
  assert (hashNpub ≤ stop) "slice index starts past its end"
  if ¬ ((seen.take stop).drop hashNpub).all (· = true) ∨
      (seen.take hashNpub).any (· = true) ∨ (seen.drop stop).any (· = true) then
    badProfile "slot map does not cover the private semantic slots exactly"
  else pure ()

/-- Parse an entry's slot map and check that it tiles the circuit's private
input slots. -/
def build (entry : Entry) : Exec Profile := do
  let ((bSig, bItem, bSsc), runs) ← parseMap entry.map
  let semanticLen := (runs.map fun run => run.length).sum
  let _ ← tile "slot map reads the semantic bits out of range or twice"
    Run.semFrom semanticLen runs
  let seen ← tile "slot map overlaps or exceeds the circuit" Run.slotFrom
    entry.hashNinputs runs
  checkCover seen entry.hashNpub entry.hashNinputs
  let profile : Profile :=
    { bSig, bItem, bSsc, runs, semanticLen
      hashNinputs := entry.hashNinputs
      hashNpub := entry.hashNpub
      sigNinputs := entry.sigNinputs
      sigNpub := entry.sigNpub
      sigCircuitId := entry.sigCircuitId
      artifactLen := entry.artifactLen
      artifactSha256 := entry.artifactSha256
      blockEncHash := entry.blockEncHash
      blockEncSig := entry.blockEncSig }
  profile.checkLayout
  pure profile

end Tile

section Positions

/-- The positions that the runs claim, in order. -/
def positions (position : Run → Nat) (runs : List Run) : List Nat :=
  runs.flatMap fun run => (List.range run.length).map fun k => position run + k

theorem mem_positions {position : Run → Nat} {runs : List Run} {i : Nat} :
    i ∈ positions position runs ↔
      ∃ run ∈ runs, ∃ k < run.length, i = position run + k := by
  simp [positions, eq_comm]

theorem length_positions (position : Run → Nat) (runs : List Run) :
    (positions position runs).length =
      (runs.map fun run => run.length).sum := by
  simp [positions, List.length_flatMap]

theorem tile_eq (m : String) (position : Run → Nat) (n : Nat)
    (runs : List Run) :
    tile m position n runs =
      (positions position runs).foldlM (claimPosition m)
        (List.replicate n false) := by
  rw [tile]
  generalize List.replicate n false = claimed
  induction runs generalizing claimed with
  | nil => rfl
  | cons run runs ih =>
      rw [positions, List.flatMap_cons, List.foldlM_append, List.foldlM_cons,
        List.foldlM_map]
      exact congrArg _ (funext ih)

/-- Claiming succeeds on positions that are in range, free and different, and
marks exactly these. -/
theorem claimPositions_ensures (m : String) (claimed : List Bool)
    (claims : List Nat) :
    Ensures (claims.foldlM (claimPosition m) claimed) fun last =>
      last.length = claimed.length ∧ claims.Nodup ∧
      (∀ i ∈ claims, claimed[i]? = some false) ∧
      ∀ i, last[i]? = some true ↔ claimed[i]? = some true ∨ i ∈ claims := by
  induction claims generalizing claimed with
  | nil => exact Ensures.pure ⟨rfl, List.nodup_nil, by simp, by simp⟩
  | cons i claims ih =>
      rw [List.foldlM_cons]
      intro last hlast
      obtain ⟨next, hnext, hlast⟩ := Exec.bind_eq_ok.mp hlast
      obtain ⟨hlength, hnodup, hfree, hmarks⟩ := ih next last hlast
      have hclaim : claimed[i]? = some false ∧ next = claimed.set i true := by
        rw [claimPosition] at hnext
        split at hnext
        · next hget =>
            cases hnext
            exact ⟨hget, rfl⟩
        · cases hnext
      obtain ⟨hi, rfl⟩ := hclaim
      have hlt : i < claimed.length :=
        (List.getElem?_eq_some_iff.mp hi).choose
      have hset (j : Nat) (hj : j ≠ i) :
          (claimed.set i true)[j]? = claimed[j]? :=
        List.getElem?_set_ne hj.symm
      have hnew : i ∉ claims := by
        intro hmem
        have hget := hfree i hmem
        rw [List.getElem?_set_self hlt] at hget
        cases hget
      refine ⟨by rw [hlength, List.length_set],
        List.nodup_cons.mpr ⟨hnew, hnodup⟩, fun j hj => ?_, fun j => ?_⟩
      · rcases List.mem_cons.mp hj with rfl | hj
        · exact hi
        · rw [← hset j fun h => hnew (h ▸ hj)]
          exact hfree j hj
      · rw [hmarks, List.mem_cons]
        by_cases hj : j = i
        · subst hj
          simp [List.getElem?_set_self hlt]
        · simp [hset j hj, hj]

/-- Tiling succeeds on different positions below the bound, and marks exactly
these. -/
theorem tile_ensures (m : String) (position : Run → Nat) (n : Nat)
    (runs : List Run) :
    Ensures (tile m position n runs) fun claimed =>
      claimed.length = n ∧ (positions position runs).Nodup ∧
      (∀ i ∈ positions position runs, i < n) ∧
      ∀ i, claimed[i]? = some true ↔ i ∈ positions position runs := by
  rw [tile_eq]
  refine (claimPositions_ensures m _ _).mono fun claimed h => ?_
  obtain ⟨hlength, hnodup, hfree, hmarks⟩ := h
  refine ⟨by rw [hlength, List.length_replicate], hnodup, fun i hi => ?_,
    fun i => ?_⟩
  · have hget := (List.getElem?_eq_some_iff.mp (hfree i hi)).choose
    rwa [List.length_replicate] at hget
  · rw [hmarks, List.getElem?_replicate]
    split <;> simp

end Positions

/-- The semantic bit goes to the slot. -/
def Profile.Maps (p : Profile) (sem slot : Nat) : Prop :=
  ∃ run ∈ p.runs, ∃ k < run.length,
    sem = run.semFrom + k ∧ slot = run.slotFrom + k

/-- The runs are a bijection between the semantic bits and the slots between
the public inputs and the last six, and the counts leave room for the rest. -/
structure Profile.Exact (p : Profile) : Prop where
  hashNpub_ge : 10 ≤ p.hashNpub
  hashNinputs_ge : p.hashNpub + 6 ≤ p.hashNinputs
  sigNpub_ge : 3 + 256 + 128 + 768 ≤ p.sigNpub
  sigNinputs_ge : p.sigIssuerTrace + 2 * Ecdsa.traceLen ≤ p.sigNinputs
  maps_bounds : ∀ sem slot, p.Maps sem slot →
    sem < p.semanticLen ∧ p.hashNpub ≤ slot ∧ slot < p.hashNinputs - 6
  existsUnique_slot : ∀ sem < p.semanticLen, ∃! slot, p.Maps sem slot
  existsUnique_sem : ∀ slot, p.hashNpub ≤ slot → slot < p.hashNinputs - 6 →
    ∃! sem, p.Maps sem slot

section Build

/-- The semantic bits with the slots that they go to. -/
def pairs (runs : List Run) : List (Nat × Nat) :=
  runs.flatMap fun run =>
    (List.range run.length).map fun k => (run.semFrom + k, run.slotFrom + k)

theorem map_fst_pairs (runs : List Run) :
    (pairs runs).map Prod.fst = positions Run.semFrom runs := by
  simp [pairs, positions, List.map_flatMap, Function.comp_def]

theorem map_snd_pairs (runs : List Run) :
    (pairs runs).map Prod.snd = positions Run.slotFrom runs := by
  simp [pairs, positions, List.map_flatMap, Function.comp_def]

theorem Profile.maps_iff {p : Profile} {sem slot : Nat} :
    p.Maps sem slot ↔ (sem, slot) ∈ pairs p.runs := by
  simp [Profile.Maps, pairs, eq_comm]

theorem checkLayout_eq_ok {p : Profile} {u : Unit} :
    p.checkLayout = .ok u ↔
      (3 + 256 ≤ p.sigNpub - (768 + 128) ∧
        p.sigIssuerTrace + 2 * Ecdsa.traceLen ≤ p.sigNinputs) ∧
      10 ≤ p.hashNpub ∧ p.hashNpub + 6 ≤ p.hashNinputs := by
  rw [Profile.checkLayout]
  constructor
  · intro h
    split at h
    · assumption
    · cases h
  · intro h
    exact if_pos h

/-- The cover that is checked: the marks between the public inputs and the last
six slots, and no others. -/
theorem checkCover_ensures {seen : List Bool} {hashNpub hashNinputs : Nat}
    (hlength : seen.length = hashNinputs) :
    Ensures (checkCover seen hashNpub hashNinputs) fun _ =>
      ∀ i, seen[i]? = some true ↔ hashNpub ≤ i ∧ i < hashNinputs - 6 := by
  intro u hu
  obtain ⟨stop, hstop, hu⟩ := Exec.bind_eq_ok.mp hu
  obtain ⟨hsix, rfl⟩ := checkedSub_eq_ok.mp hstop
  obtain ⟨_, hle, hu⟩ := Exec.bind_eq_ok.mp hu
  have hle := assert_eq_ok.mp hle
  split at hu
  · cases hu
  · next hcover =>
      simp only [not_or, not_not, List.all_eq_true, List.any_eq_true,
        decide_eq_true_eq, not_exists, not_and] at hcover
      obtain ⟨hmiddle, hfront, hback⟩ := hcover
      intro i
      constructor
      · intro hi
        obtain ⟨hlt, hvalue⟩ := List.getElem?_eq_some_iff.mp hi
        constructor
        · by_contra hsmall
          refine hfront true (List.mem_iff_getElem?.mpr ⟨i, ?_⟩) rfl
          rw [List.getElem?_take_of_lt (by omega), hi]
        · by_contra hlarge
          refine hback true (List.mem_iff_getElem?.mpr
            ⟨i - (hashNinputs - 6), ?_⟩) rfl
          rw [List.getElem?_drop, Nat.add_sub_cancel' (by omega), hi]
      · rintro ⟨hge, hlt⟩
        have hi : i < seen.length := by omega
        have hmem : seen[i] ∈ (seen.take (hashNinputs - 6)).drop hashNpub := by
          refine List.mem_iff_getElem?.mpr ⟨i - hashNpub, ?_⟩
          rw [List.getElem?_drop, Nat.add_sub_cancel' hge,
            List.getElem?_take_of_lt hlt, List.getElem?_eq_getElem hi]
        rw [List.getElem?_eq_getElem hi, hmiddle _ hmem]

/-- Every accepted entry has an exact profile. -/
theorem build_ensures (entry : Entry) :
    Ensures (build entry) fun p => p.Exact := by
  intro p hp
  obtain ⟨⟨⟨bSig, bItem, bSsc⟩, runs⟩, -, hp⟩ := Exec.bind_eq_ok.mp hp
  obtain ⟨used, hused, hp⟩ := Exec.bind_eq_ok.mp hp
  obtain ⟨seen, hseen, hp⟩ := Exec.bind_eq_ok.mp hp
  obtain ⟨_, hcover, hp⟩ := Exec.bind_eq_ok.mp hp
  obtain ⟨_, hlayout, hp⟩ := Exec.bind_eq_ok.mp hp
  cases hp
  obtain ⟨-, hsem, hsemlt, -⟩ := tile_ensures _ _ _ _ _ hused
  obtain ⟨hlength, hslot, -, hmarks⟩ := tile_ensures _ _ _ _ _ hseen
  have hcover := checkCover_ensures hlength _ hcover
  obtain ⟨⟨hnpub, hninputs⟩, hhashpub, hhashinputs⟩ :=
    checkLayout_eq_ok.mp hlayout
  -- as many different bits below the bound as there are: all of them
  have hall : (positions Run.semFrom runs).Perm
      (List.range (runs.map fun run => run.length).sum) := by
    refine List.Subperm.perm_of_length_le
      (List.subperm_of_subset hsem fun i hi => ?_) ?_
    · exact List.mem_range.mpr (hsemlt i hi)
    · rw [length_positions, List.length_range]
  have hslots (slot : Nat) : slot ∈ positions Run.slotFrom runs ↔
      entry.hashNpub ≤ slot ∧ slot < entry.hashNinputs - 6 := by
    rw [← hmarks, hcover]
  have hfst := map_fst_pairs runs
  have hsnd := map_snd_pairs runs
  refine
    { hashNpub_ge := hhashpub
      hashNinputs_ge := hhashinputs
      sigNpub_ge := by
        change 3 + 256 ≤ entry.sigNpub - (768 + 128) at hnpub
        change 3 + 256 + 128 + 768 ≤ entry.sigNpub
        omega
      sigNinputs_ge := hninputs
      maps_bounds := fun sem slot hmaps => ?_
      existsUnique_slot := fun sem hlt => ?_
      existsUnique_sem := fun slot hge hlt => ?_ }
  · rw [Profile.maps_iff] at hmaps
    have hmem : sem ∈ positions Run.semFrom runs :=
      hfst ▸ List.mem_map_of_mem (f := Prod.fst) hmaps
    have hmem' : slot ∈ positions Run.slotFrom runs :=
      hsnd ▸ List.mem_map_of_mem (f := Prod.snd) hmaps
    exact ⟨hsemlt sem hmem, (hslots slot).mp hmem'⟩
  · have hmem : sem ∈ (pairs runs).map Prod.fst := by
      rw [hfst]
      exact hall.mem_iff.mpr (List.mem_range.mpr hlt)
    obtain ⟨⟨sem', slot⟩, hpair, rfl⟩ := List.mem_map.mp hmem
    refine ⟨slot, Profile.maps_iff.mpr hpair, fun slot' hslot' => ?_⟩
    have heq := List.inj_on_of_nodup_map (hfst ▸ hsem)
      (Profile.maps_iff.mp hslot') hpair rfl
    exact (Prod.mk.inj heq).2
  · have hmem : slot ∈ (pairs runs).map Prod.snd := by
      rw [hsnd]
      exact (hslots slot).mpr ⟨hge, hlt⟩
    obtain ⟨⟨sem, slot'⟩, hpair, rfl⟩ := List.mem_map.mp hmem
    refine ⟨sem, Profile.maps_iff.mpr hpair, fun sem' hsem' => ?_⟩
    have heq := List.inj_on_of_nodup_map (hsnd ▸ hslot)
      (Profile.maps_iff.mp hsem') hpair rfl
    exact (Prod.mk.inj heq).1

end Build

end Longfellow.Nymauth
