/-
The conversion of a circuit from the `LFC2` serialization, a dictionary of
deltas with a token stream, to the byte layout that circuits are decoded from.
-/
import Longfellow.Lib.Exec
import Mathlib.Data.UInt

namespace Longfellow.Nymauth.Lfc2

open Exec

def maxWires : Nat := 5000000
def maxTerms : Nat := 20000000
def maxDeltas : Nat := 20000000
def maxConstants : Nat := 5000000
def maxLayers : Nat := 10000
def sizeLimit : Nat := 2 ^ 24

/-- Output budget for one converted circuit. -/
def maxOutBytes : Nat := 32 * 2 ^ 20

/-- The largest `usize`. -/
def usizeMax : Nat := 2 ^ 64 - 1

def saturatingAdd (a b : Nat) : Nat := min (a + b) usizeMax

def saturatingMul (a b : Nat) : Nat := min (a * b) usizeMax

def bad {α : Type} (m : String) : Exec α := fail s!"LFC2: {m}"

/-- A check that hands an error of the reader back. -/
def require (p : Prop) [Decidable p] (m : String) : Exec Unit :=
  if p then pure () else bad m

/-- The input, and the position in it. -/
structure Rd where
  b : List UInt8
  p : Nat

/-- A computation that reads from the position on. -/
abbrev Reader (α : Type) := StateT Rd Exec α

namespace Reader

/-- A computation that reads nothing. -/
def ofExec {α : Type} (m : Exec α) : Reader α := fun r =>
  m >>= fun a => pure (a, r)

/-- Read a number of items, one after the other. -/
def replicate {α : Type} (item : Reader α) : Nat → Reader (List α)
  | 0 => pure []
  | n + 1 => do
      let x ← item
      let xs ← replicate item n
      pure (x :: xs)

end Reader

open Reader

namespace Rd

def take (n : Nat) : Reader (List UInt8) := fun r => do
  require (r.p + n ≤ usizeMax) "length overflow"
  require (r.p + n ≤ r.b.length) "truncated"
  pure ((r.b.drop r.p).take n, { r with p := r.p + n })

/-- The next byte. -/
def byte : Reader UInt8 := do
  let bytes ← take 1
  ofExec (index bytes 0)

/-- The groups of seven bits from the `i`-th one on. -/
def ulebFrom : Nat → UInt32 → UInt32 → Reader UInt32
  | 0, _, _ => ofExec (bad "ULEB128 longer than four bytes")
  | n + 1, i, v => do
      let b ← byte
      let v := v ||| (b &&& 0x7f).toUInt32 <<< (7 * i)
      if b &&& 0x80 = 0 then pure v else ulebFrom n (i + 1) v

/-- ULEB128, at most four bytes. -/
def uleb : Reader UInt32 := ulebFrom 4 0 0

def size (max : Nat) (what : String) : Reader Nat := do
  let v ← uleb
  ofExec (require (v.toNat ≤ max) s!"excessive {what}: {v.toNat}")
  pure v.toNat

end Rd

def put3 (out : List UInt8) (v : Nat) : Exec (List UInt8) := do
  require (v < sizeLimit)
    "a value does not fit the three-byte size of the legacy layout"
  pure (out ++ [UInt8.ofNat v, UInt8.ofNat (v >>> 8), UInt8.ofNat (v >>> 16)])

def unzigzag (v : UInt32) : UInt32 := (v >>> 1) ^^^ (0 - (v &&& 1))

/-- A legacy index delta: `2 * (v - prev)` if `v >= prev`, else
`2 * (prev - v) + 1`. -/
def putDelta (out : List UInt8) (v prev : UInt32) : Exec (List UInt8) :=
  put3 out (if prev ≤ v then 2 * (v - prev).toNat else 2 * (prev - v).toNat + 1)

/-- Read the number of items, and then the items. -/
def readArray {α : Type} (max : Nat) (what : String) (item : Reader α) :
    Reader (List α) := do
  let n ← Rd.size max what
  Reader.replicate item n

/-- A word of the dictionary: three wrapped differences and a constant. -/
structure Entry where
  g : UInt32
  h0 : UInt32
  h1 : UInt32
  k : Nat
deriving DecidableEq, Inhabited

def readDelta (nconst : Nat) : Reader Entry := do
  let g ← Rd.uleb
  let h0 ← Rd.uleb
  let h1 ← Rd.uleb
  let k ← Rd.uleb
  ofExec (require (k.toNat < nconst) "constant index out of range")
  pure ⟨unzigzag g, unzigzag h0, unzigzag h1, k.toNat⟩

def readDeltaIndex (ndeltas : Nat) : Reader Nat := do
  let d ← Rd.uleb
  ofExec (require (d.toNat < ndeltas) "delta index out of range")
  pure d.toNat

def readSegment (ndeltas : Nat) : Reader (List Nat) :=
  readArray maxTerms "segment length" (readDeltaIndex ndeltas)

/-- Read the tokens, and add up the lengths of their segments. -/
def readTokens (segments : List (List Nat)) :
    Nat → Nat → Reader (List Nat × Nat)
  | 0, nterms => pure ([], nterms)
  | ntok + 1, nterms => do
      let t ← Rd.uleb
      ofExec (require (t.toNat < segments.length) "token out of range")
      let nterms := saturatingAdd nterms (segments.getD t.toNat []).length
      let (tokens, nterms) ← readTokens segments ntok nterms
      pure (t.toNat :: tokens, nterms)

/-- What the input says about a layer. -/
structure LayerWords where
  logw : Nat
  nw : Nat
  deltas : List Entry
  segments : List (List Nat)
  tokens : List Nat
  nterms : Nat

def readLayer (nconst : Nat) : Reader LayerWords := do
  let logw ← Rd.size 63 "logw"
  let nw ← Rd.size maxWires "layer width"
  let deltas ← readArray maxDeltas "delta count" (readDelta nconst)
  let segments ← readArray maxDeltas "segment count"
    (readSegment deltas.length)
  let ntok ← Rd.size maxTerms "token count"
  let (tokens, nterms) ← readTokens segments ntok 0
  pure ⟨logw, nw, deltas, segments, tokens, nterms⟩

/-- The output so far, and the indices of the last term. -/
structure TermState where
  out : List UInt8
  pg : UInt32
  p0 : UInt32
  p1 : UInt32

def putTerm (state : TermState) (delta : Entry) : Exec TermState := do
  let g := state.pg + delta.g
  let h0 := state.p0 + delta.h0
  let h1 := state.p1 + delta.h1
  let out ← putDelta state.out g state.pg
  let out ← putDelta out h0 state.p0
  let out ← putDelta out h1 state.p1
  let out ← put3 out delta.k
  pure ⟨out, g, h0, h1⟩

def putTerms (layer : LayerWords) (state : TermState) : Exec TermState :=
  layer.tokens.foldlM
    (fun state t => do
      let segment ← index layer.segments t
      segment.foldlM
        (fun state d => do
          let delta ← index layer.deltas d
          putTerm state delta)
        state)
    state

/-- Write a layer in the legacy layout, and count its terms. -/
def putLayer (layer : LayerWords) (out : List UInt8) (totalTerms : Nat) :
    Exec (List UInt8 × Nat) := do
  let totalTerms := saturatingAdd totalTerms layer.nterms
  require (layer.nterms ≤ maxTerms ∧ totalTerms ≤ maxTerms) "too many terms"
  require (saturatingAdd (saturatingMul layer.nterms 12) out.length ≤
    maxOutBytes) "converted circuit exceeds the size limit"
  let out ← put3 out layer.logw
  let out ← put3 out layer.nw
  let out ← put3 out layer.nterms
  let state ← putTerms layer ⟨out, 0, 0, 0⟩
  pure (state.out, totalTerms)

/-- Convert a number of layers. -/
def convertLayers (nconst : Nat) : Nat → List UInt8 → Nat → Reader (List UInt8)
  | 0, out, _ => pure out
  | nl + 1, out, totalTerms => do
      let layer ← readLayer nconst
      let (out, totalTerms) ← ofExec (putLayer layer out totalTerms)
      convertLayers nconst nl out totalTerms

/-- The number of bytes of an element of the field. -/
def elementSize (fid : Nat) : Exec Nat :=
  match fid with
  | 1 => pure 32
  | 4 => pure 16
  | fid => bad s!"unsupported field id {fid}"

/-- The sizes at the start of a circuit, and its constants. -/
structure Header where
  fid : Nat
  nv : Nat
  npub : Nat
  subfield : Nat
  ninputs : Nat
  nl : Nat
  nconst : Nat
  constants : List UInt8

def readHeader : Reader Header := do
  let fid ← Rd.size 255 "field id"
  let elt ← ofExec (elementSize fid)
  let nv ← Rd.size maxWires "output count"
  let nc ← Rd.size usizeMax "copy count"
  ofExec (require (nc = 1) "only one copy is supported")
  let npub ← Rd.size maxWires "public input count"
  let subfield ← Rd.size maxWires "subfield boundary"
  let ninputs ← Rd.size maxWires "input count"
  let nl ← Rd.size maxLayers "layer count"
  ofExec (require (npub ≤ ninputs) "more public inputs than inputs")
  let nconst ← Rd.size maxConstants "constant count"
  ofExec (require (nconst * elt ≤ usizeMax) "overflow")
  let constants ← Rd.take (nconst * elt)
  pure ⟨fid, nv, npub, subfield, ninputs, nl, nconst, constants⟩

def putHeader (header : Header) : Exec (List UInt8) := do
  let out ← [header.fid, header.nv, 1, header.npub, header.subfield,
    header.ninputs, header.nl, header.nconst].foldlM put3 [1]
  pure (out ++ header.constants)

def convert : Reader (List UInt8) := do
  let header ← readHeader
  let out ← ofExec (putHeader header)
  let out ← convertLayers header.nconst header.nl out 0
  let id ← Rd.take 32
  pure (out ++ id)

/-- The letters `LFC2`. -/
def magic : List UInt8 := [76, 70, 67, 50]

/-- Convert the circuit at the start of the input, and count the bytes that it
takes. -/
def one (input : List UInt8) : Exec (List UInt8 × Nat) := do
  require (magic <+: input) "missing LFC2 header"
  let (out, r) ← convert ⟨input, 4⟩
  pure (out, r.p)

end Longfellow.Nymauth.Lfc2
