import MimeMultipart.Message
import MimeMultipart.Layout
/-!
# Reading a message against its layout

A reader of a message makes calls (`Call`): it reads from the preamble, moves to the next part,
or reads from the current part's body, each read asking for `n` bytes or for all that is left.
`Message.calls` answers a list of calls in turn.

A `Cursor` does the same reading on the layout of the whole message (`Boundary.layout`), as
plain list operations: the preamble is read from its bytes; each move takes the next part
segment, parses its header block with `Headers.ofBlockBytes` and reads the body from the bytes
after the block; the parts are numbered from zero in the order they are taken. A move past the
last segment gives `none` from then on.
-/

namespace MimeMultipart

/-- A call a reader makes on a message: a read from the preamble or from the current part's body,
of at most `n` bytes or, with `none`, of all that is left; or a move to the next part. -/
inductive Call where
  | preamble (n : Option Nat)
  | next
  | body (n : Option Nat)
  deriving DecidableEq, Repr

/-- What a call gives back: the bytes read, or the next part. -/
inductive Reply where
  | bytes (r : Except Failure (List UInt8))
  | part (r : Except Failure (Option Part))
  deriving Repr

namespace Message

variable {ρ : Type} [ByteReader ρ]

def call (m : Message ρ) : Call → Reply × Message ρ
  | .preamble n =>
    let r := m.readPreamble n
    (.bytes r.1, r.2)
  | .next =>
    let r := m.nextPart
    (.part r.1, r.2)
  | .body n =>
    let r := m.readBody n
    (.bytes r.1, r.2)

def calls (m : Message ρ) : List Call → List Reply × Message ρ
  | [] => ([], m)
  | c :: cs =>
    let r := m.call c
    let r' := r.2.calls cs
    (r.1 :: r'.1, r'.2)

end Message

/-- Where a reading of a laid-out message stands: in the preamble or in a part's body, with the
bytes not read yet; with no part to follow; or after a header block failed to parse. -/
inductive Cursor.Stage where
  | preamble (left : List UInt8)
  | body (left : List UInt8)
  | exhausted
  | poisoned
  deriving DecidableEq, Repr

/-- A reading of a laid-out message: where it stands, the segments of the parts not taken yet,
and how many parts were taken. -/
structure Cursor where
  stage : Cursor.Stage
  ahead : List (List UInt8)
  yielded : Nat := 0
  deriving DecidableEq, Repr

namespace Cursor

def start (l : Layout) : Cursor := { stage := .preamble l.preamble, ahead := l.segments }

/-- A read of `n` bytes, or of all, from `left`: the bytes read and those left. -/
def readFrom (left : List UInt8) : Option Nat → List UInt8 × List UInt8
  | some n => (left.take n, left.drop n)
  | none => (left, [])

/-- Takes the next segment as a part: its headers, or why there is none. -/
def enter (limits : Limits) (c : Cursor) : Except Failure (Option Headers) × Cursor :=
  match c.ahead with
  | [] => (.ok none, { c with stage := .exhausted })
  | s :: rest =>
    if !limits.allowsPart c.yielded then
      (.error (.partsLimit (limits.maxParts.getD c.yielded)), { c with stage := .exhausted })
    else
      match Headers.ofBlockBytes limits s with
      | .error f => (.error f, { c with stage := .poisoned })
      | .ok (hs, body) => (.ok (some hs), ⟨.body body, rest, c.yielded + 1⟩)

/-- Moves to the next part, skipping what is left of the current one. -/
def advance (limits : Limits) (c : Cursor) : Except Failure (Option Headers) × Cursor :=
  match c.stage with
  | .poisoned => (.error (.state .poisoned), c)
  | .exhausted => (.ok none, c)
  | _ => c.enter limits

theorem advance_eq_enter {limits : Limits} {c : Cursor} (hx : c.stage ≠ .exhausted)
    (hp : c.stage ≠ .poisoned) : c.advance limits = c.enter limits := by
  unfold advance
  split <;> simp_all

/-- Moves to the next part and gives it, numbered by the parts taken before it. -/
def next (limits : Limits) (c : Cursor) : Except Failure (Option Part) × Cursor :=
  match c.advance limits with
  | (.ok (some hs), c') => (.ok (some ⟨c.yielded, hs⟩), c')
  | (.ok none, c') => (.ok none, c')
  | (.error f, c') => (.error f, c')

def call (limits : Limits) (c : Cursor) : Call → Reply × Cursor
  | .preamble n =>
    match c.stage with
    | .preamble left =>
      (.bytes (.ok (readFrom left n).1), { c with stage := .preamble (readFrom left n).2 })
    | _ => (.bytes (.ok []), c)
  | .next =>
    let r := c.next limits
    (.part r.1, r.2)
  | .body n =>
    match c.stage with
    | .body left =>
      (.bytes (.ok (readFrom left n).1), { c with stage := .body (readFrom left n).2 })
    | _ => (.bytes (.ok []), c)

def calls (limits : Limits) (c : Cursor) : List Call → List Reply × Cursor
  | [] => ([], c)
  | k :: ks =>
    let r := c.call limits k
    let r' := r.2.calls limits ks
    (r.1 :: r'.1, r'.2)

/-! ## Reading without limits -/

/-- Without limits every line of a block is a header or ends the block, so a block never
fails. -/
theorem headersOf_unlimited :
    ∀ (lines : List (List UInt8)) (hs : Headers),
      ∃ hs', HeaderBlock.headersOf Limits.unlimited lines hs = .ok hs'
  | [], hs => ⟨hs, rfl⟩
  | line :: lines, hs => by
    simp only [HeaderBlock.headersOf, Limits.unlimited]
    cases hres : HeaderBlock.lineResult none line with
    | tooLong n =>
      simp only [HeaderBlock.lineResult] at hres
      split at hres <;> cases hres
    | stop => exact ⟨hs, rfl⟩
    | header h => exact headersOf_unlimited lines (hs.push h)

theorem ofBlockBytes_unlimited (s : List UInt8) :
    ∃ hs body, Headers.ofBlockBytes Limits.unlimited s = .ok (hs, body) := by
  unfold Headers.ofBlockBytes
  split
  · exact ⟨_, _, rfl⟩
  · generalize (HeaderBlock.terminator.cut s).getD (s, []) = p
    obtain ⟨block, body⟩ := p
    obtain ⟨hs', h⟩ := headersOf_unlimited (HeaderBlock.linesOf block) {}
    exact ⟨hs', body, by simp [h, Except.map]⟩

/-- Without limits a reading is never poisoned. -/
theorem call_unpoisoned {c : Cursor} (hc : c.stage ≠ .poisoned) (k : Call) :
    (c.call Limits.unlimited k).2.stage ≠ .poisoned := by
  cases k with
  | preamble n => cases hs : c.stage <;> simp_all [call]
  | body n => cases hs : c.stage <;> simp_all [call]
  | next =>
    simp only [call, next]
    -- a move ends in a part, or with no part left
    have hadv : (c.advance Limits.unlimited).2.stage ≠ .poisoned := by
      unfold advance
      split
      · exact absurd ‹_› hc
      · exact hc
      · unfold enter
        have hallow : Limits.unlimited.allowsPart c.yielded = true := rfl
        rcases hahead : c.ahead with _ | ⟨s, rest⟩
        · simp
        · obtain ⟨hs, body, hblock⟩ := ofBlockBytes_unlimited s
          simp [hallow, hblock]
    revert hadv
    rcases c.advance Limits.unlimited with ⟨_ | _ | _, c'⟩ <;> exact id

theorem calls_unpoisoned :
    ∀ {c : Cursor} (ks : List Call), c.stage ≠ .poisoned →
      (c.calls Limits.unlimited ks).2.stage ≠ .poisoned
  | _, [], hc => hc
  | _, k :: ks, hc => calls_unpoisoned ks (call_unpoisoned hc k)

end Cursor

end MimeMultipart
