/-
Computations that return a value, return an error, or panic, with the three
judgements used about them: a run returns, a run is right when it returns, and
a run never panics.
-/
import Mathlib.Data.List.Basic
import Mathlib.Data.List.Forall2
import Mathlib.Data.List.Range

universe u

/-- How a computation ends without a value. -/
inductive Fault where
  /-- An error handed back to the caller. -/
  | error (message : String)
  /-- A failed assertion, an index out of range or an arithmetic overflow. -/
  | panic (message : String)
deriving DecidableEq, Repr

abbrev Exec (α : Type u) := Except Fault α

namespace Exec

variable {α β : Type u}

/-- Hand an error back to the caller. -/
def fail (message : String) : Exec α := .error (.error message)

/-- Panic. -/
def abort (message : String) : Exec α := .error (.panic message)

/-- An explicit check that hands an error back to the caller. -/
def ensure (p : Prop) [Decidable p] (message : String) : Exec Unit :=
  if p then pure () else fail message

/-- Say what was being done when an error came back. -/
def context (m : Exec α) (message : String) : Exec α :=
  match m with
  | .error (.error _) => fail message
  | m => m

/-- Panic on an error. -/
def unwrap (m : Exec α) : Exec α :=
  match m with
  | .error (.error message) =>
      abort s!"called `Result::unwrap()` on an `Err` value: {message}"
  | m => m

/-- A check whose failure is a panic. -/
def assert (p : Prop) [Decidable p] (message : String) : Exec Unit :=
  if p then pure () else abort message

/-- The element at an index, which must be in range. -/
def index (xs : List α) (i : Nat) : Exec α :=
  match xs[i]? with
  | some x => pure x
  | none => abort "index out of bounds"

/-- Overwrite the element at an index, which must be in range. -/
def update (xs : List α) (i : Nat) (f : α → α) : Exec (List α) :=
  match xs[i]? with
  | some x => pure (xs.set i (f x))
  | none => abort "index out of bounds"

/-- Subtraction of unsigned integers, which panics below zero. -/
def checkedSub (a b : Nat) : Exec Nat :=
  if b ≤ a then pure (a - b) else abort "attempt to subtract with overflow"

/-- Consecutive parts of a list, which must not be asked to be empty. Only the
last one can be shorter than the others. -/
def chunks (xs : List α) (size : Nat) : Exec (List (List α)) :=
  if size = 0 then abort "chunk size must be non-zero"
  else pure ((List.range ((xs.length + size - 1) / size)).map fun k =>
    (xs.drop (k * size)).take size)

/-- Division that rounds up, which panics on a zero divisor. -/
def divCeil (a b : Nat) : Exec Nat :=
  if b = 0 then abort "attempt to divide by zero" else pure ((a + b - 1) / b)

/-- The run returns a value, and the value satisfies `P`. -/
def Returns (m : Exec α) (P : α → Prop) : Prop := ∃ a, m = .ok a ∧ P a

/-- Every value the run returns satisfies `P`. -/
def Ensures (m : Exec α) (P : α → Prop) : Prop := ∀ a, m = .ok a → P a

/-- The run does not panic, and every value it returns satisfies `P`. -/
def Safe (m : Exec α) (P : α → Prop) : Prop :=
  match m with
  | .ok a => P a
  | .error (.error _) => True
  | .error (.panic _) => False

@[simp] theorem pure_eq_ok (a : α) : (pure a : Exec α) = Except.ok a := rfl

@[simp] theorem ok_bind (a : α) (f : α → Exec β) :
    ((Except.ok a : Exec α) >>= f) = f a := rfl

@[simp] theorem fault_bind (e : Fault) (f : α → Exec β) :
    ((Except.error e : Exec α) >>= f) = Except.error e := rfl

/-- A sequence returns exactly when both parts do. -/
theorem bind_eq_ok {m : Exec α} {f : α → Exec β} {b : β} :
    (m >>= f) = .ok b ↔ ∃ a, m = .ok a ∧ f a = .ok b := by
  cases m with
  | error e => simp
  | ok a => simp

theorem exists_of_isOk {m : Exec α} (h : m.isOk) : ∃ a, m = .ok a := by
  cases m with
  | error e => cases h
  | ok a => exact ⟨a, rfl⟩

theorem context_eq_ok {m : Exec α} {message : String} {a : α} :
    m.context message = .ok a ↔ m = .ok a := by
  rcases m with ⟨_ | _⟩ | b
  · constructor
    · intro h
      cases h
    · intro h
      cases h
  · rfl
  · rfl

theorem unwrap_eq_ok {m : Exec α} {a : α} :
    unwrap m = .ok a ↔ m = .ok a := by
  rcases m with (message | message) | b
  · constructor <;> intro h <;> cases h
  · exact Iff.rfl
  · exact Iff.rfl

theorem ensure_eq_ok {p : Prop} [Decidable p] {message : String} {u : Unit} :
    ensure p message = .ok u ↔ p := by
  by_cases hp : p <;> simp [ensure, hp, fail]

theorem assert_eq_ok {p : Prop} [Decidable p] {message : String} {u : Unit} :
    assert p message = .ok u ↔ p := by
  by_cases hp : p <;> simp [assert, hp, abort]

@[simp] theorem ensure_of {p : Prop} [Decidable p] {message : String}
    (hp : p) : ensure p message = .ok () := by
  simp [ensure, hp]

@[simp] theorem assert_of {p : Prop} [Decidable p] {message : String}
    (hp : p) : assert p message = .ok () := by
  simp [assert, hp]

theorem ensure_bind_eq_ok {γ : Type} {p : Prop} [Decidable p]
    {message : String} {m : Exec γ} {c : γ} :
    (ensure p message >>= fun _ => m) = .ok c ↔ p ∧ m = .ok c := by
  by_cases hp : p <;> simp [ensure, hp, fail]

theorem index_eq_ok {xs : List α} {i : Nat} {x : α} :
    index xs i = .ok x ↔ xs[i]? = some x := by
  unfold index
  cases xs[i]? <;> simp [abort]

theorem index_of_lt {xs : List α} {i : Nat} (hi : i < xs.length) :
    index xs i = .ok xs[i] := by
  simp [index_eq_ok, hi]

theorem update_eq_ok {xs ys : List α} {i : Nat} {f : α → α} :
    update xs i f = .ok ys ↔ ∃ x, xs[i]? = some x ∧ ys = xs.set i (f x) := by
  unfold update
  cases xs[i]? <;> simp [abort, eq_comm]

theorem update_of_lt {xs : List α} {i : Nat} {f : α → α} (hi : i < xs.length) :
    update xs i f = .ok (xs.set i (f xs[i])) := by
  simp [update_eq_ok, hi]

theorem checkedSub_eq_ok {a b c : Nat} :
    checkedSub a b = .ok c ↔ b ≤ a ∧ c = a - b := by
  unfold checkedSub
  by_cases h : b ≤ a <;> simp [h, abort, eq_comm]

theorem chunks_eq_ok {xs : List α} {size : Nat} {parts : List (List α)} :
    chunks xs size = .ok parts ↔ 0 < size ∧
      parts = (List.range ((xs.length + size - 1) / size)).map fun k =>
        (xs.drop (k * size)).take size := by
  rcases Nat.eq_zero_or_pos size with rfl | hsize
  · simp [chunks, abort]
  · have hne : size ≠ 0 := Nat.pos_iff_ne_zero.mp hsize
    simp [chunks, hsize, hne, eq_comm]

theorem divCeil_eq_ok {a b c : Nat} :
    divCeil a b = .ok c ↔ 0 < b ∧ c = (a + b - 1) / b := by
  rcases Nat.eq_zero_or_pos b with rfl | hb
  · simp [divCeil, abort]
  · have hne : b ≠ 0 := Nat.pos_iff_ne_zero.mp hb
    simp [divCeil, hb, hne, eq_comm]

theorem checkedSub_of_le {a b : Nat} (h : b ≤ a) :
    checkedSub a b = .ok (a - b) := by
  simp [checkedSub, h]

/-- A pass that returns on every element returns the list of results. -/
theorem mapM_eq_ok {f : α → Exec β} {g : α → β} :
    ∀ {xs : List α}, (∀ a ∈ xs, f a = .ok (g a)) → xs.mapM f = .ok (xs.map g)
  | [], _ => rfl
  | x :: xs, h => by
      have hx : f x = .ok (g x) := h x List.mem_cons_self
      have hxs : xs.mapM f = .ok (xs.map g) :=
        mapM_eq_ok fun a ha => h a (List.mem_cons_of_mem x ha)
      rw [List.mapM_cons, hx, ok_bind, hxs, ok_bind, List.map_cons]
      rfl

/-- A loop that returns in every step returns. -/
theorem foldlM_eq_ok {f : β → α → Exec β} {g : β → α → β} :
    ∀ {xs : List α} {s : β}, (∀ s, ∀ a ∈ xs, f s a = .ok (g s a)) →
      xs.foldlM f s = .ok (xs.foldl g s)
  | [], _, _ => rfl
  | x :: xs, s, h => by
      rw [List.foldlM_cons, h s x List.mem_cons_self, ok_bind, List.foldl_cons]
      exact foldlM_eq_ok fun s a ha => h s a (List.mem_cons_of_mem x ha)

/-- Two passes that do the same on related elements do the same. -/
theorem map_eq_ok {m : Exec α} {f : α → β} {b : β} :
    m.map f = .ok b ↔ ∃ a, m = .ok a ∧ f a = b := by
  cases m with
  | error e => simp [Except.map]
  | ok a => simp [Except.map]

theorem map_eq_error {m : Exec α} {f : α → β} {e : Fault} :
    m.map f = .error e ↔ m = .error e := by
  cases m with
  | error e => simp [Except.map]
  | ok a => simp [Except.map]

theorem map_mapM {γ : Type u} (f : α → Exec β) (g : β → γ) (xs : List α) :
    (xs.mapM f).map (List.map g) = xs.mapM fun x => (f x).map g := by
  induction xs with
  | nil => rfl
  | cons x xs ih =>
      rw [List.mapM_cons, List.mapM_cons, ← ih]
      rcases f x with _ | y
      · rfl
      · rcases xs.mapM f <;> rfl

theorem mapM_forall₂ {γ : Type u} {R : α → γ → Prop} {f : α → Exec β}
    {g : γ → Exec β} {xs : List α} {ys : List γ} (h : List.Forall₂ R xs ys)
    (hstep : ∀ a c, R a c → f a = g c) : xs.mapM f = ys.mapM g := by
  induction h with
  | nil => rfl
  | cons hhead htail ih =>
      rw [List.mapM_cons, List.mapM_cons, hstep _ _ hhead, ih]

/-- Two loops that do the same on related elements do the same. -/
theorem foldlM_forall₂ {γ : Type u} {R : α → γ → Prop} {f : β → α → Exec β}
    {g : β → γ → Exec β} {xs : List α} {ys : List γ} {s : β}
    (h : List.Forall₂ R xs ys) (hstep : ∀ s a c, R a c → f s a = g s c) :
    xs.foldlM f s = ys.foldlM g s := by
  induction h generalizing s with
  | nil => rfl
  | cons hhead htail ih =>
      rw [List.foldlM_cons, List.foldlM_cons, hstep _ _ _ hhead]
      congr 1
      funext t
      exact ih

section Returns

variable {m : Exec α} {P Q : α → Prop}

theorem Returns.of_eq {a : α} (h : m = .ok a) (ha : P a) : Returns m P :=
  ⟨a, h, ha⟩

theorem Returns.mono (h : Returns m P) (hPQ : ∀ a, P a → Q a) : Returns m Q := by
  obtain ⟨a, heq, ha⟩ := h
  exact ⟨a, heq, hPQ a ha⟩

theorem Returns.bind_of_eq {f : α → Exec β} {R : β → Prop} {a : α}
    (h : m = .ok a) (hf : Returns (f a) R) : Returns (m >>= f) R := by
  rw [h]
  exact hf

theorem Returns.bind {f : α → Exec β} {R : β → Prop} (h : Returns m P)
    (hf : ∀ a, P a → Returns (f a) R) : Returns (m >>= f) R := by
  obtain ⟨a, rfl, ha⟩ := h
  exact hf a ha

end Returns

section Ensures

variable {m : Exec α} {P Q : α → Prop}

theorem Ensures.mono (h : Ensures m P) (hPQ : ∀ a, P a → Q a) : Ensures m Q :=
  fun a heq => hPQ a (h a heq)

theorem Ensures.trivial : Ensures m fun _ => True := fun _ _ => True.intro

theorem Ensures.pure {a : α} (ha : P a) : Ensures (Except.ok a) P := by
  intro b hb
  cases hb
  exact ha

theorem Ensures.bind {f : α → Exec β} {R : β → Prop} (h : Ensures m P)
    (hf : ∀ a, P a → Ensures (f a) R) : Ensures (m >>= f) R := by
  intro b hb
  obtain ⟨a, ha, hfa⟩ := bind_eq_ok.mp hb
  exact hf a (h a ha) b hfa

theorem Ensures.of_index (xs : List α) (i : Nat) :
    Ensures (index xs i) fun x => xs[i]? = some x :=
  fun _ h => index_eq_ok.mp h

end Ensures

section Safe

variable {m : Exec α} {P Q : α → Prop}

@[simp] theorem safe_ok {a : α} : Safe (.ok a) P ↔ P a := Iff.rfl

@[simp] theorem safe_fail {message : String} :
    Safe (fail message : Exec α) P := trivial

theorem safe_iff : Safe m P ↔
    Ensures m P ∧ ∀ message, m ≠ .error (.panic message) := by
  rcases m with (_ | _) | a
  · simp [Safe, Ensures]
  · simp [Safe, Ensures]
  · simp [Safe, Ensures]

theorem Safe.mono (h : Safe m P) (hPQ : ∀ a, P a → Q a) : Safe m Q := by
  rcases m with (_ | _) | a
  · trivial
  · exact h
  · exact hPQ a h

theorem Safe.bind {f : α → Exec β} {R : β → Prop} (h : Safe m P)
    (hf : ∀ a, P a → Safe (f a) R) : Safe (m >>= f) R := by
  rcases m with (_ | _) | a
  · trivial
  · exact h.elim
  · exact hf a h

theorem Returns.safe (h : Returns m P) : Safe m P := by
  obtain ⟨a, rfl, ha⟩ := h
  exact ha

theorem Safe.ensures (h : Safe m P) : Ensures m P := (safe_iff.mp h).1

theorem safe_ensure {p : Prop} [Decidable p] {message : String} :
    Safe (ensure p message) (fun _ => p) := by
  by_cases hp : p <;> simp [ensure, hp]

end Safe

section Judgement

/-- A judgement about runs that holds of a value that satisfies the predicate,
and of a sequence when it holds of both parts. -/
structure Judgement where
  holds {α : Type u} : Exec α → (α → Prop) → Prop
  ok {α : Type u} {a : α} {P : α → Prop} : P a → holds (.ok a) P
  bind {α β : Type u} {m : Exec α} {f : α → Exec β} {P : α → Prop}
    {R : β → Prop} : holds m P → (∀ a, P a → holds (f a) R) →
      holds (m >>= f) R

namespace Judgement

def returns : Judgement where
  holds m P := Returns m P
  ok ha := Returns.of_eq rfl ha
  bind h hf := h.bind hf

def ensures : Judgement where
  holds m P := Ensures m P
  ok ha := Ensures.pure ha
  bind h hf := h.bind hf

def safe : Judgement where
  holds m P := Safe m P
  ok ha := ha
  bind h hf := h.bind hf

variable (J : Judgement)

theorem mono {m : Exec α} {P Q : α → Prop} (h : J.holds m P)
    (hPQ : ∀ a, P a → Q a) : J.holds m Q := by
  have hbind := J.bind h fun a ha => J.ok (hPQ a ha)
  change J.holds (m >>= pure) Q at hbind
  rwa [bind_pure] at hbind

/-- The loop rule: what every step carries from `i` to `i + 1` holds at the
end of the loop. -/
theorem foldlM {f : β → α → Exec β} {I : Nat → β → Prop}
    (xs : List α) {s : β} (h0 : I 0 s)
    (hstep : ∀ i (hi : i < xs.length) s, I i s →
      J.holds (f s xs[i]) (I (i + 1))) :
    J.holds (xs.foldlM f s) (I xs.length) := by
  induction xs generalizing s I with
  | nil => exact J.ok h0
  | cons x xs ih =>
      rw [List.foldlM_cons]
      have hfirst : J.holds (f s x) (I 1) := hstep 0 (by simp) s h0
      refine J.bind hfirst fun t ht => ?_
      refine ih (I := fun i => I (i + 1)) ht fun i hi r hr => ?_
      exact hstep (i + 1) (by simpa using hi) r hr

end Judgement

theorem Returns.foldlM {f : β → α → Exec β} {I : Nat → β → Prop}
    (xs : List α) {s : β} (h0 : I 0 s)
    (hstep : ∀ i (hi : i < xs.length) s, I i s →
      Returns (f s xs[i]) (I (i + 1))) :
    Returns (xs.foldlM f s) (I xs.length) :=
  Judgement.returns.foldlM xs h0 hstep

theorem Ensures.foldlM {f : β → α → Exec β} {I : Nat → β → Prop}
    (xs : List α) {s : β} (h0 : I 0 s)
    (hstep : ∀ i (hi : i < xs.length) s, I i s →
      Ensures (f s xs[i]) (I (i + 1))) :
    Ensures (xs.foldlM f s) (I xs.length) :=
  Judgement.ensures.foldlM xs h0 hstep

theorem Safe.foldlM {f : β → α → Exec β} {I : Nat → β → Prop}
    (xs : List α) {s : β} (h0 : I 0 s)
    (hstep : ∀ i (hi : i < xs.length) s, I i s →
      Safe (f s xs[i]) (I (i + 1))) :
    Safe (xs.foldlM f s) (I xs.length) :=
  Judgement.safe.foldlM xs h0 hstep

/-- What a run that returns also ensures. -/
theorem Returns.and_ensures {m : Exec α} {P Q : α → Prop} (h : Returns m P)
    (hQ : Ensures m Q) : Returns m fun a => P a ∧ Q a := by
  obtain ⟨a, heq, ha⟩ := h
  exact ⟨a, heq, ha, hQ a heq⟩

end Judgement

end Exec
