import MimeMultipart.Error
/-!
# Delimiters and their search

A delimiter is a non-empty byte string. Its leftmost occurrence in a text is found by
Knuth-Morris-Pratt search: `borderTable` gives, for each prefix of the delimiter, its longest
proper border, and `advance` extends a partial match by one byte, falling back along borders.
`firstMatch` states the same leftmost occurrence directly, by trying every position in turn.
-/

namespace MimeMultipart

/-- A non-empty byte string that separates the pieces of a stream. -/
structure Delimiter where
  bytes : List UInt8
  nonempty : bytes ≠ []

namespace Delimiter

def length (d : Delimiter) : Nat := d.bytes.length

def ofBytes? (bs : List UInt8) : Except ParseError Delimiter :=
  if h : bs = [] then .error .emptyDelimiter else .ok ⟨bs, h⟩

@[simp] theorem ofBytes?_nil : ofBytes? [] = .error .emptyDelimiter := rfl

theorem length_pos (d : Delimiter) : 0 < d.length :=
  List.length_pos_iff.mpr d.nonempty

/-! ## Partial matches -/

/-- The longest matched prefix after reading `b`, when the first `k` bytes of `pat` were
matched: a mismatch falls back to the longest proper border `table[k - 1]` and tries again.
The fallback is capped at `k - 1`, so each retry is shorter. -/
def advance (pat : Array UInt8) (table : Array Nat) (b : UInt8) (k : Nat) : Nat :=
  if pat[k]? = some b then k + 1
  else
    match k with
    | 0 => 0
    | j + 1 => advance pat table b (min (table[j]?.getD 0) j)
termination_by k
decreasing_by omega

/-- The longest proper border of each prefix of `pat`: entry `i` is the length of the
longest proper prefix of the first `i + 1` bytes that is also their suffix. -/
def borderTable (pat : Array UInt8) : Array Nat :=
  ((pat.toList.drop 1).foldl
    (fun (acc : Array Nat × Nat) b =>
      let k := advance pat acc.1 b acc.2
      (acc.1.push k, k))
    (#[0], 0)).1

/-- Scans `hay`, whose first byte is at `pos`, with `k` bytes of `pat` matched before it. -/
def scan (pat : Array UInt8) (table : Array Nat) : List UInt8 → Nat → Nat → Option Nat
  | [], _, _ => none
  | b :: rest, pos, k =>
    let k' := advance pat table b k
    if k' = pat.size then some (pos + 1 - pat.size) else scan pat table rest (pos + 1) k'

/-- The position of the leftmost occurrence of `d` in `hay`. -/
def find (d : Delimiter) (hay : List UInt8) : Option Nat :=
  let pat := d.bytes.toArray
  scan pat (borderTable pat) hay 0 0

/-! ## Borders -/

/-- `k` is the length of a border of `xs`: a proper prefix of `xs` that is also its suffix. -/
def IsBorder (xs : List UInt8) (k : Nat) : Prop :=
  k < xs.length ∧ xs.take k = xs.drop (xs.length - k)

/-- The length of the longest proper border of `xs`, trying lengths from the longest down. -/
def longestBorder (xs : List UInt8) : Nat :=
  ((List.range xs.length).reverse.find? fun k => xs.take k == xs.drop (xs.length - k)).getD 0

/-! ## The leftmost occurrence, position by position -/

/-- The leftmost position at which `needle` starts in `hay`, trying each position in turn. -/
def firstMatch (needle : List UInt8) : List UInt8 → Option Nat
  | [] => if needle = [] then some 0 else none
  | hay@(_ :: rest) =>
    if needle.isPrefixOf hay then some 0 else (firstMatch needle rest).map (· + 1)

/-! ## Cutting at the delimiter -/

def cut (d : Delimiter) (hay : List UInt8) : Option (List UInt8 × List UInt8) :=
  (d.find hay).map fun pos => (hay.take pos, hay.drop (pos + d.length))

/-- The pieces of `hay` between the leftmost occurrences of `d`; `fuel` bounds their count and
is never the limit, as each cut removes the delimiter's bytes. -/
def splitFrom (d : Delimiter) : Nat → List UInt8 → List (List UInt8)
  | 0, hay => [hay]
  | fuel + 1, hay =>
    match d.cut hay with
    | some (before, after) => before :: d.splitFrom fuel after
    | none => [hay]

/-- The pieces of `hay` between the leftmost occurrences of `d`. -/
def split (d : Delimiter) (hay : List UInt8) : List (List UInt8) :=
  d.splitFrom (hay.length + 1) hay

end Delimiter

end MimeMultipart
