/-
Little-endian byte strings of fixed length, and decoders that read a prefix of
their input.
-/
import Longfellow.Lib.Exec
import Mathlib.Data.Nat.Digits.Defs
import Mathlib.Tactic.IntervalCases
import Mathlib.Tactic.Ring

universe u

namespace Bytes

/-- The `n` low bytes of a number, least significant first. -/
def leBytes : Nat → Nat → List UInt8
  | 0, _ => []
  | n + 1, v => UInt8.ofNat v :: leBytes n (v / 256)

/-- The number a little-endian byte string denotes. -/
def ofLeBytes : List UInt8 → Nat
  | [] => 0
  | b :: bs => b.toNat + 256 * ofLeBytes bs

/-- The number a big-endian byte string denotes. -/
def ofBeBytes (bs : List UInt8) : Nat := ofLeBytes bs.reverse

@[simp] theorem length_leBytes (n v : Nat) : (leBytes n v).length = n := by
  induction n generalizing v with
  | zero => rfl
  | succ n ih => simp [leBytes, ih]

theorem ofLeBytes_lt (bs : List UInt8) : ofLeBytes bs < 256 ^ bs.length := by
  induction bs with
  | nil => simp [ofLeBytes]
  | cons b bs ih =>
      have hb : b.toNat < 256 := b.toNat_lt
      rw [List.length_cons, pow_succ, ofLeBytes]
      omega

theorem ofLeBytes_append (bytes bytes' : List UInt8) :
    ofLeBytes (bytes ++ bytes') =
      ofLeBytes bytes + 256 ^ bytes.length * ofLeBytes bytes' := by
  induction bytes with
  | nil => simp [ofLeBytes]
  | cons byte bytes ih =>
      rw [List.cons_append, ofLeBytes, ih, ofLeBytes, List.length_cons,
        pow_succ]
      ring

theorem ofBeBytes_append (bytes bytes' : List UInt8) :
    ofBeBytes (bytes ++ bytes') =
      256 ^ bytes'.length * ofBeBytes bytes + ofBeBytes bytes' := by
  rw [ofBeBytes, List.reverse_append, ofLeBytes_append, List.length_reverse,
    Nat.add_comm]
  rfl

theorem ofLeBytes_concat (bytes : List UInt8) (last : UInt8) :
    ofLeBytes (bytes ++ [last]) =
      ofLeBytes bytes + 256 ^ bytes.length * last.toNat := by
  rw [ofLeBytes_append, ofLeBytes, ofLeBytes, Nat.mul_zero, Nat.add_zero]

/-- A bit of a number is a bit of one of its bytes. -/
theorem getElem_div_two_pow_mod_two {bytes : List UInt8} {i : Nat}
    (hi : i / 8 < bytes.length) :
    bytes[i / 8].toNat / 2 ^ (i % 8) % 2 = ofLeBytes bytes / 2 ^ i % 2 := by
  induction bytes generalizing i with
  | nil => cases hi
  | cons byte bytes ih =>
      by_cases hlow : i < 8
      · have hzero : i / 8 = 0 := Nat.div_eq_of_lt hlow
        have hmod : i % 8 = i := Nat.mod_eq_of_lt hlow
        simp only [hzero, hmod, List.getElem_cons_zero, ofLeBytes]
        interval_cases i <;> omega
      · obtain ⟨j, rfl⟩ := Nat.exists_eq_add_of_le (Nat.le_of_not_lt hlow)
        have hdiv : (8 + j) / 8 = j / 8 + 1 := by omega
        have hmod : (8 + j) % 8 = j % 8 := Nat.add_mod_left 8 j
        have hj : j / 8 < bytes.length := by
          rw [hdiv, List.length_cons] at hi
          omega
        have hbyte := byte.toNat_lt
        have hrest : ofLeBytes (byte :: bytes) / 2 ^ 8 = ofLeBytes bytes := by
          rw [ofLeBytes]
          omega
        rw [pow_add, ← Nat.div_div_eq_div_mul, hrest, ← ih hj]
        simp only [hdiv, hmod, List.getElem_cons_succ]

theorem ofLeBytes_leBytes (n : Nat) {v : Nat} (hv : v < 256 ^ n) :
    ofLeBytes (leBytes n v) = v := by
  induction n generalizing v with
  | zero =>
      have hzero : v = 0 := by simpa using hv
      simp [leBytes, ofLeBytes, hzero]
  | succ n ih =>
      rw [pow_succ] at hv
      have hdiv : v / 256 < 256 ^ n := by omega
      rw [leBytes, ofLeBytes, ih hdiv, UInt8.toNat_ofNat']
      omega

theorem leBytes_ofLeBytes (bs : List UInt8) :
    leBytes bs.length (ofLeBytes bs) = bs := by
  induction bs with
  | nil => rfl
  | cons b bs ih =>
      have hb : b.toNat < 256 := b.toNat_lt
      have hlow : UInt8.ofNat (b.toNat + 256 * ofLeBytes bs) = b := by
        apply UInt8.toNat_inj.mp
        rw [UInt8.toNat_ofNat']
        omega
      have hhigh : (b.toNat + 256 * ofLeBytes bs) / 256 = ofLeBytes bs := by
        omega
      rw [List.length_cons, leBytes, ofLeBytes, hlow, hhigh, ih]

theorem ofBeBytes_cons (b : UInt8) (bs : List UInt8) :
    ofBeBytes (b :: bs) = b.toNat * 256 ^ bs.length + ofBeBytes bs := by
  rw [ofBeBytes, ofBeBytes, List.reverse_cons, ofLeBytes_concat,
    List.length_reverse]
  ring

theorem ofBeBytes_lt (bs : List UInt8) : ofBeBytes bs < 256 ^ bs.length := by
  have h := ofLeBytes_lt bs.reverse
  rwa [List.length_reverse] at h

theorem ofLeBytes_inj {bs cs : List UInt8} (hlength : bs.length = cs.length)
    (h : ofLeBytes bs = ofLeBytes cs) : bs = cs := by
  rw [← leBytes_ofLeBytes bs, h, hlength, leBytes_ofLeBytes]

theorem leBytes_inj {n v w : Nat} (hv : v < 256 ^ n) (hw : w < 256 ^ n)
    (h : leBytes n v = leBytes n w) : v = w := by
  rw [← ofLeBytes_leBytes n hv, h, ofLeBytes_leBytes n hw]

end Bytes

/-- A code no word of which can be confused with another one, whatever follows
them. -/
def PrefixFree {α β : Type} (code : α → List β) : Prop :=
  ∀ a b r s, code a ++ r = code b ++ s → a = b

namespace PrefixFree

variable {α β : Type} {code : α → List β}

theorem append_inj (h : PrefixFree code) {a b : α} {r s : List β}
    (heq : code a ++ r = code b ++ s) : a = b ∧ r = s := by
  have hab : a = b := h a b r s heq
  subst hab
  exact ⟨rfl, List.append_cancel_left heq⟩

/-- Sequences of the same number of words. -/
theorem flatMap_append_inj (h : PrefixFree code) {xs ys : List α}
    {r s : List β} (hlength : xs.length = ys.length)
    (heq : xs.flatMap code ++ r = ys.flatMap code ++ s) : xs = ys ∧ r = s := by
  induction xs generalizing ys with
  | nil =>
      obtain rfl : ys = [] := List.eq_nil_of_length_eq_zero hlength.symm
      exact ⟨rfl, heq⟩
  | cons x xs ih =>
      cases ys with
      | nil => simp at hlength
      | cons y ys =>
          rw [List.flatMap_cons, List.flatMap_cons, List.append_assoc,
            List.append_assoc] at heq
          obtain ⟨rfl, htail⟩ := h.append_inj heq
          obtain ⟨rfl, hrest⟩ := ih (by simpa using hlength) htail
          exact ⟨rfl, hrest⟩

/-- Sequences of any number of words, none of them empty. -/
theorem flatMap_inj (h : PrefixFree code) (hne : ∀ a, code a ≠ [])
    {xs ys : List α} (heq : xs.flatMap code = ys.flatMap code) : xs = ys := by
  induction xs generalizing ys with
  | nil =>
      cases ys with
      | nil => rfl
      | cons y ys => simp [hne] at heq
  | cons x xs ih =>
      cases ys with
      | nil => simp [hne] at heq
      | cons y ys =>
          rw [List.flatMap_cons, List.flatMap_cons] at heq
          obtain ⟨rfl, htail⟩ := h.append_inj heq
          rw [ih htail]

/-- A code of words of one length is prefix-free if it is injective. -/
theorem of_length {n : Nat} (hlength : ∀ a, (code a).length = n)
    (hinj : ∀ a b, code a = code b → a = b) : PrefixFree code := by
  intro a b r s heq
  apply hinj
  exact (List.append_inj heq (by rw [hlength a, hlength b])).1

end PrefixFree

/-- The codes of two encoders, whatever follows them, are only confused for
related values. -/
def Separates {α β : Type} (encode : α → Exec (List UInt8))
    (encode' : β → Exec (List UInt8)) (R : α → β → Prop) : Prop :=
  ∀ a b bytes bytes' r s, encode a = .ok bytes → encode' b = .ok bytes' →
    bytes ++ r = bytes' ++ s → R a b ∧ r = s

/-- A decoder consumes a prefix of its input and returns the rest. -/
abbrev Decoder (α : Type) := StateT (List UInt8) Exec α

namespace Decoder

variable {α β : Type}

/-- Read exactly `n` bytes. -/
def takeBytes (n : Nat) (message : String) : Decoder (List UInt8) := fun bs =>
  if n ≤ bs.length then pure (bs.take n, bs.drop n) else Exec.fail message

/-- Decode a fixed number of items, one after the other. -/
def replicate (item : Decoder α) : Nat → Decoder (List α)
  | 0 => pure []
  | n + 1 => do
      let x ← item
      let xs ← replicate item n
      pure (x :: xs)

/-- The decoder reads back what was written, whatever follows it. -/
def Reads (d : Decoder α) (bytes : List UInt8) (a : α) : Prop :=
  ∀ rest, d (bytes ++ rest) = .ok (a, rest)

/-- The decoder does not panic, and every value it returns satisfies `P`. -/
def Safe (d : Decoder α) (P : α → Prop) : Prop :=
  ∀ bs, Exec.Safe (d bs) fun r => P r.1

theorem run_bind (d : Decoder α) (f : α → Decoder β) (bs : List UInt8) :
    (d >>= f) bs = d bs >>= fun r => f r.1 r.2 := rfl

theorem run_pure (a : α) (bs : List UInt8) :
    (pure a : Decoder α) bs = .ok (a, bs) := rfl

theorem Reads.pure (a : α) : Reads (Pure.pure a) [] a := fun _ => rfl

theorem Reads.bind {d : Decoder α} {f : α → Decoder β} {xs ys : List UInt8}
    {a : α} {b : β} (hd : Reads d xs a) (hf : Reads (f a) ys b) :
    Reads (d >>= f) (xs ++ ys) b := by
  intro rest
  rw [run_bind, List.append_assoc, hd (ys ++ rest), Exec.ok_bind]
  exact hf rest

theorem takeBytes_reads {n : Nat} {bs : List UInt8} (h : bs.length = n)
    (message : String) : Reads (takeBytes n message) bs bs := by
  intro rest
  simp [takeBytes, ← h]

theorem replicate_reads {item : Decoder α} {encode : α → List UInt8}
    (xs : List α) (hitem : ∀ x ∈ xs, Reads item (encode x) x) :
    Reads (replicate item xs.length) (xs.flatMap encode) xs := by
  induction xs with
  | nil => exact Reads.pure []
  | cons x xs ih =>
      have htail := ih fun y hy => hitem y (List.mem_cons_of_mem x hy)
      have hlast : Reads (replicate item xs.length >>= fun ys =>
          Pure.pure (x :: ys)) (xs.flatMap encode ++ []) (x :: xs) :=
        htail.bind (Reads.pure _)
      rw [List.append_nil] at hlast
      exact (hitem x List.mem_cons_self).bind hlast

theorem Safe.pure {P : α → Prop} {a : α} (ha : P a) :
    Safe (Pure.pure a) P := fun _ => ha

theorem Safe.fail {P : α → Prop} (message : String) :
    Safe (fun _ => Exec.fail message : Decoder α) P := fun _ => trivial

theorem Safe.bind {d : Decoder α} {f : α → Decoder β} {P : α → Prop}
    {Q : β → Prop} (hd : Safe d P) (hf : ∀ a, P a → Safe (f a) Q) :
    Safe (d >>= f) Q := by
  intro bs
  rw [run_bind]
  exact (hd bs).bind fun r hr => hf r.1 hr r.2

theorem Safe.mono {d : Decoder α} {P Q : α → Prop} (hd : Safe d P)
    (hPQ : ∀ a, P a → Q a) : Safe d Q :=
  fun bs => (hd bs).mono fun r hr => hPQ r.1 hr

theorem takeBytes_safe (n : Nat) (message : String) :
    Safe (takeBytes n message) fun bs => bs.length = n := by
  intro bs
  unfold takeBytes
  split
  · next hle => simpa using hle
  · trivial

theorem replicate_safe {item : Decoder α} {P : α → Prop} (hitem : Safe item P)
    (n : Nat) :
    Safe (replicate item n) fun xs => xs.length = n ∧ ∀ x ∈ xs, P x := by
  induction n with
  | zero => exact Safe.pure (by simp)
  | succ n ih =>
      refine hitem.bind fun x hx => ih.bind fun xs hxs => Safe.pure ?_
      obtain ⟨hlength, hall⟩ := hxs
      exact ⟨by simp [hlength], by simpa [hx] using hall⟩

end Decoder
